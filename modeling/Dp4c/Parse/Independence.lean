import Dp4c.Parse.Views
import Dp4c.Parse.StateReads
import Dp4c.Parse.Rounds

/-! # What a parse depends on

The outcome of a parse depends on the tokens that are no comments and on nothing else, as long
as no list of a tuple keyset is made; that list shows what the memory held before. -/
namespace Dp4c.Parse

open Dp4c.Lib Dp4c.Lib.Prog Dp4c.Symtable

variable {exact : Prop} {p : Cstr → Prop} {memory memory' : Memory} {first : Token}
  {tokens tokens' : List Token} {scopes : Scopes}

theorem placed_start (hfirst : first.klass ≠ .comment) (htable : ParserTable scopes) :
    Placed (start (first :: tokens) scopes) :=
  ⟨Nat.succ_pos _, hfirst, htable⟩

theorem ahead_start (hfirst : first.klass ≠ .comment) (htable : ParserTable scopes) :
    (start (first :: tokens) scopes).view.ahead = first :: spoken tokens :=
  (placed_start hfirst htable).ahead

/-- The first token is behind; the words are those of the others. -/
theorem sighted_next {v : State} (hfirst : first.klass ≠ .comment) (htable : ParserTable scopes)
    (hp : ∀ token ∈ spoken tokens, p token.lexeme) (hv : Moved (start (first :: tokens) scopes) v) :
    Sighted p v := by
  refine ⟨hv.placed, fun token htoken => ?_⟩
  rw [hv.view] at htoken
  obtain ⟨token', hmem, hlexeme⟩ := View.lexeme_reclassify htoken
  have hmem : token' ∈ (start (first :: tokens) scopes).view.ahead.tail := hmem
  rw [ahead_start hfirst htable, List.tail_cons] at hmem
  exact hlexeme ▸ hp token' hmem

/-- Two parses of the same tokens, comments and places aside. -/
theorem buildAstProgram_both (hfirst : first.klass ≠ .comment) (htable : ParserTable scopes)
    (hspoken : (spoken tokens).map Token.content = (spoken tokens').map Token.content)
    (hmemory : Comparable False memory memory') (fuel : Nat) :
    wp (buildAstProgram fuel memory) (start (first :: tokens) scopes)
      (fun a u => wp (buildAstProgram fuel memory') (start (first :: tokens') scopes)
        (fun b v => a = b ∧ SameView False (fun _ => True) u v) fun _ => False)
      fun e => (sameView False (fun _ => True) memory memory').pairing.Ends e
        (buildAstProgram fuel memory') (start (first :: tokens') scopes) := by
  have hstart : SameView False (fun _ => True) (start (first :: tokens) scopes)
      (start (first :: tokens') scopes) := by
    refine ⟨placed_start hfirst htable, ⟨placed_start hfirst htable, fun _ _ => trivial⟩, ?_,
      fun he => he.elim⟩
    show (⟨(start (first :: tokens) scopes).view.ahead.map Token.content, scopes, 1⟩ : View) =
      ⟨(start (first :: tokens') scopes).view.ahead.map Token.content, scopes, 1⟩
    rw [ahead_start hfirst htable, ahead_start hfirst htable, List.map_cons, hspoken]
    rfl
  exact (buildAstProgram_alike (L := viewLikeness (fun _ => True) hmemory) (.inl rfl)).both _ _
    hstart

/-- The run ends at the list of a tuple keyset, in memory that refuses it. -/
def StopsAtTuple (r : Except Stop (Ast × State)) : Prop := ∃ e, r = .error e ∧ TupleStop e

/-- The runs have one outcome, unless the first ends at the list of a tuple keyset. -/
theorem outcome_inStep (hfirst : first.klass ≠ .comment) (htable : ParserTable scopes)
    (hspoken : (spoken tokens).map Token.content = (spoken tokens').map Token.content)
    (hmemory : Comparable False memory memory') (fuel : Nat) :
    (¬ SameMemory False memory memory' ∧
      StopsAtTuple (buildAstProgram fuel memory (start (first :: tokens) scopes))) ∨
      outcome (buildAstProgram fuel memory (start (first :: tokens) scopes)) =
        outcome (buildAstProgram fuel memory' (start (first :: tokens') scopes)) := by
  have h := buildAstProgram_both hfirst htable hspoken hmemory fuel
  have hstates (u v : State) (huv : (sameView False (fun _ => True) memory memory').states u v) :
      u.scopes = v.scopes ∧ u.nodeId = v.nodeId := by
    have hview : u.view.content = v.view.content := SameView.view huv
    exact ⟨congrArg View.scopes hview, congrArg View.nodeId hview⟩
  rcases outcome_eq h hstates fun _ _ h => h with ⟨e, he, hmemory, hstop⟩ | houtcome
  · exact .inl ⟨hmemory, e, he, hstop⟩
  · exact .inr houtcome

/-! ## Comments and memory -/

/-- Comments and places make no difference, in memory that is the same everywhere. -/
theorem outcome_content (hfirst : first.klass ≠ .comment) (htable : ParserTable scopes)
    (hspoken : (spoken tokens).map Token.content = (spoken tokens').map Token.content)
    (bytes : Nat → UInt8) (fuel : Nat) :
    outcome (buildAstProgram fuel (fun _ => bytes) (start (first :: tokens) scopes)) =
      outcome (buildAstProgram fuel (fun _ => bytes) (start (first :: tokens') scopes)) := by
  have hsame : SameMemory False (fun _ => bytes) fun _ => bytes := fun _ _ _ => rfl
  exact (outcome_inStep hfirst htable hspoken (.inl hsame) fuel).resolve_left fun h => h.1 hsame

theorem run_content (hfirst : first.klass ≠ .comment) (htable : ParserTable scopes)
    (hspoken : (spoken tokens).map Token.content = (spoken tokens').map Token.content)
    (bytes : Nat → UInt8) (rounds : Nat) :
    outcome (run rounds (first :: tokens) scopes fun _ => bytes) =
      outcome (run rounds (first :: tokens') scopes fun _ => bytes) := by
  -- with these rounds both runs have the same fuel
  have hleft := outcome_run (first :: tokens) scopes (fun _ => bytes)
    (rounds + 2 * (first :: tokens').length)
  have hright := outcome_run (first :: tokens') scopes (fun _ => bytes)
    (rounds + 2 * (first :: tokens).length)
  have hfuel : rounds + 2 * (first :: tokens').length + 2 * (first :: tokens).length =
      rounds + 2 * (first :: tokens).length + 2 * (first :: tokens').length := by omega
  have hcontent := outcome_content hfirst htable hspoken bytes
    (rounds + 2 * (first :: tokens').length + 2 * (first :: tokens).length)
  rw [outcome_run, ← hleft, run, hcontent, hfuel, outcome_run _ _ _ rounds, ← hright, run]

/-- **Comments make no difference** to the outcome of a parse, wherever they stand behind the
first token, nor do the places of the tokens in the text. -/
theorem outcome_spoken (hfirst : first.klass ≠ .comment) (htable : ParserTable scopes)
    (hspoken : (spoken tokens).map Token.content = (spoken tokens').map Token.content)
    (bytes : Nat → UInt8) (rounds rounds' : Nat) :
    outcome (run rounds (first :: tokens) scopes fun _ => bytes) =
      outcome (run rounds' (first :: tokens') scopes fun _ => bytes) :=
  (run_content hfirst htable hspoken bytes rounds).trans
    ((outcome_run _ _ _ rounds).trans (outcome_run _ _ _ rounds').symm)

/-- `;` between two comments. -/
theorem outcome_spoken_semicolon : ∃ scopes, Scopes.init = .ok scopes ∧
    outcome (run 0 (classesOnly [.startOfInput, .comment, .semicolon, .comment, .endOfInput])
      scopes fun _ _ => 7) =
    outcome (run 1 (classesOnly [.startOfInput, .semicolon, .endOfInput]) scopes fun _ _ => 7) := by
  obtain ⟨scopes, hinit, -⟩ := Scopes.init_ok
  exact ⟨scopes, hinit, outcome_spoken (by decide) (.init hinit) (by decide) (fun _ => 7) 0 1⟩

theorem memset_zero (n : Nat) : memset n (fun _ => 0) = fun _ => 0 := funext fun _ => ite_self _

/-- In cleared memory no list is refused. -/
theorem run_cleared {rounds : Nat} {e : Stop}
    (he : run rounds tokens scopes (fun _ _ => 0) = .error e) :
    e.exit ≠ .assertion "list->head == 0" := by
  intro hexit
  have hrun := run_finished rounds tokens scopes fun _ _ => 0
  rw [he] at hrun
  cases hrun with
  | short _ hshort => rcases hshort with h | h <;> exact absurd (hexit.symm.trans h) (by decide)
  | ended hended =>
    cases hended.cause with
    | error format h _ => cases hexit.symm.trans h
    | outOfFuel h _ _ _ => cases hexit.symm.trans h
    | assertFalse h _ _ _ => exact absurd (hexit.symm.trans h) (by decide)
    | list _ _ _ _ _ hdirty =>
      obtain ⟨step, -, -, hcleared⟩ := hdirty
      rw [Cleared, memset_zero] at hcleared
      exact hcleared ⟨word_zero .., word_zero .., word_zero ..⟩
    | pastEnd h _ _ => exact absurd (hexit.symm.trans h) (by decide)

/-- A run that ends at the list of a tuple keyset goes on in cleared memory. -/
theorem outcome_ne_cleared {rounds : Nat} (h : StopsAtTuple (run rounds tokens scopes memory)) :
    outcome (run rounds tokens scopes memory) ≠
      outcome (run rounds tokens scopes fun _ _ => 0) := by
  obtain ⟨e, he, hexit, -⟩ := h
  intro hsame
  rw [he] at hsame
  cases hclear : run rounds tokens scopes fun _ _ => 0 with
  | ok r =>
    rw [hclear] at hsame
    cases hsame
  | error d =>
    rw [hclear] at hsame
    exact run_cleared hclear ((Except.error.inj hsame).symm.trans hexit)

/-- **What the memory held before** makes no difference to the outcome, if and only if with
no contents of it the parser fails the assertion on the list of a tuple keyset. -/
theorem outcome_memory (hfirst : first.klass ≠ .comment) (htable : ParserTable scopes)
    (rounds : Nat) :
    (∀ memory memory' : Memory, outcome (run rounds (first :: tokens) scopes memory) =
      outcome (run rounds (first :: tokens) scopes memory')) ↔
    ∀ memory : Memory, ¬ StopsAtTuple (run rounds (first :: tokens) scopes memory) := by
  constructor
  · exact fun hsame memory hstops => outcome_ne_cleared hstops (hsame memory _)
  · intro hstop
    have hused : ∀ memory : Memory, outcome (run rounds (first :: tokens) scopes usedMemory) =
        outcome (run rounds (first :: tokens) scopes memory) := fun memory =>
      (outcome_inStep hfirst htable rfl (.inr fun _ => word_used) _).resolve_left
        fun h => hstop usedMemory h.2
    exact fun memory memory' => (hused memory).symm.trans (hused memory')

/-- Used memory shows in the list of `(x, _)`. -/
theorem stopsAtTuple_used : ∃ t, Scopes.init = .ok t ∧
    StopsAtTuple (run 0 externAndTable t usedMemory) := by
  obtain ⟨t, hinit, hp⟩ := run_init externAndTable usedMemory
    (fun r => decide (exitOf r = some (.assertion "list->head == 0") ∧
      ∃ step ∈ steps r, step.call = .tupleKeyset)) (by decide +kernel)
  obtain ⟨hexit, hstep⟩ := of_decide_eq_true hp
  refine ⟨t, hinit, ?_⟩
  generalize run 0 externAndTable t usedMemory = r at hexit hstep
  cases r with
  | ok r => cases hexit
  | error e => exact ⟨e, rfl, Option.some.inj hexit, hstep⟩

theorem outcome_memory_tuple : ∃ t, Scopes.init = .ok t ∧
    StopsAtTuple (run 0 externAndTable t usedMemory) ∧
    ¬ ∀ memory memory' : Memory,
      outcome (run 0 externAndTable t memory) = outcome (run 0 externAndTable t memory') := by
  obtain ⟨t, hinit, hstops⟩ := stopsAtTuple_used
  exact ⟨t, hinit, hstops, fun hsame =>
    (outcome_memory (by decide) (.init hinit) 0).mp hsame usedMemory hstops⟩

/-! ## Lists of tuple keysets -/

/-- Used memory refuses the list of a tuple keyset. The other run comes to it as well. -/
theorem newTupleList_used (memory : Memory) : Alike (sameUntil TupleStop usedMemory memory)
    (sameUntil TupleStop usedMemory memory).Trees (newTupleList usedMemory)
    (newTupleList memory) where
  both s t hst := by
    obtain rfl : s = t := hst
    have hrefused : newTupleList usedMemory s = .error ⟨.assertion "list->head == 0", { s with
        trace := ⟨.tupleKeyset, s.tokenAt, s.token.klass⟩ :: s.trace }⟩ := by
      have hhead : word (memset 8 (usedMemory s.tokenAt)) 24 8 ≠ 0 := word_used
      rw [newTupleList_eq, astListInit, if_neg hhead]
      rfl
    refine wp_of_error hrefused ((wp_congr (newTupleList_eq memory s)).mpr ?_)
    exact (astListInit_alike (sameUntil TupleStop usedMemory memory) _).goes.ends trivial
      ⟨⟨rfl, _, List.mem_cons_self .., rfl⟩, List.suffix_refl _⟩
  goes :=
    have hsame : Alike (sameUntil TupleStop memory memory)
        (sameUntil TupleStop memory memory).Trees (newTupleList memory) (newTupleList memory) :=
      newTupleList_alike (sameUntil TupleStop memory memory) (note_records _).alike
        fun _ _ h => by rw [show _ = _ from h]; rfl
    hsame.goes

/-- A run over used memory is that over any other, unless it ends at the list of a tuple
keyset, to which the other comes as well. -/
theorem run_until_tuple (rounds : Nat) (tokens : List Token) (scopes : Scopes) (memory : Memory) :
    (∃ e, run rounds tokens scopes usedMemory = .error e ∧ TupleStop e ∧
      e.state.trace <:+ (finalState (run rounds tokens scopes memory)).trace) ∨
    run rounds tokens scopes usedMemory = run rounds tokens scopes memory :=
  eq_or_stopped (buildAstProgram_alike (L := untilLikeness (newTupleList_used memory)) (.inl rfl))

/-- The run comes to the list of a tuple keyset. -/
def MakesTuple (r : Except Stop (Ast × State)) : Prop := ∃ step ∈ steps r, step.call = .tupleKeyset

theorem StopsAtTuple.makesTuple {r : Except Stop (Ast × State)} (h : StopsAtTuple r) :
    MakesTuple r := by
  obtain ⟨e, rfl, -, hstep⟩ := h
  exact hstep

/-- Whether it does is not a matter of the memory. -/
theorem makesTuple_used (rounds : Nat) (tokens : List Token) (scopes : Scopes) (memory : Memory) :
    MakesTuple (run rounds tokens scopes usedMemory) ↔
      MakesTuple (run rounds tokens scopes memory) := by
  rcases run_until_tuple rounds tokens scopes memory with ⟨e, he, hstop, hsuffix⟩ | hsame
  · refine iff_of_true (StopsAtTuple.makesTuple ⟨e, he, hstop⟩) ?_
    obtain ⟨-, step, hmem, hcall⟩ := hstop
    exact ⟨step, hsuffix.subset hmem, hcall⟩
  · rw [hsame]

/-- All of a `struct AstList` but its `sentinel.ast` is zero. -/
def Zeroed (bytes : Nat → UInt8) : Prop :=
  word bytes 0 8 = 0 ∧ word bytes 8 8 = 0 ∧ word bytes 24 8 = 0 ∧ word bytes 32 8 = 0 ∧
    word bytes 40 4 = 0

/-- The parse depends on the tokens alone, and the lists it makes were cleared. -/
structure OfTokens (rounds : Nat) (tokens : List Token) (scopes : Scopes) : Prop where
  outcomes : ∀ memory memory' : Memory,
    outcome (run rounds tokens scopes memory) = outcome (run rounds tokens scopes memory')
  zeroed : ∀ memory : Memory, ∀ step ∈ steps (run rounds tokens scopes memory),
    step.call = .tupleKeyset → Zeroed (memset 8 (memory step.tokenAt))

/-- **A parse depends on the tokens alone** exactly if it comes to no tuple keyset. -/
theorem ofTokens_iff (rounds : Nat) (tokens : List Token) (scopes : Scopes) (memory : Memory) :
    OfTokens rounds tokens scopes ↔ ¬ MakesTuple (run rounds tokens scopes memory) := by
  rw [← makesTuple_used]
  constructor
  · rintro h ⟨step, hmem, hcall⟩
    obtain ⟨-, -, hhead, -, -⟩ := h.zeroed usedMemory step hmem hcall
    exact word_used hhead
  · intro hnone
    have hused (memory : Memory) : run rounds tokens scopes usedMemory =
        run rounds tokens scopes memory := by
      rcases run_until_tuple rounds tokens scopes memory with ⟨e, he, hstop, -⟩ | hsame
      · exact absurd (StopsAtTuple.makesTuple ⟨e, he, hstop⟩) hnone
      · exact hsame
    refine ⟨fun memory memory' => ?_, fun memory step hmem hcall => ?_⟩
    · rw [← hused memory, ← hused memory']
    · rw [← hused memory] at hmem
      exact absurd ⟨step, hmem, hcall⟩ hnone

theorem ofTokens_fails : ∃ t, Scopes.init = .ok t ∧ ¬ OfTokens 0 externAndTable t := by
  obtain ⟨t, hinit, hstops⟩ := stopsAtTuple_used
  exact ⟨t, hinit, fun h => outcome_ne_cleared hstops (h.outcomes usedMemory _)⟩

/-! ## Words -/

/-- The word is that of a token. -/
def WordOf (tokens : List Token) (x : Cstr) : Prop := ∃ token ∈ tokens, token.lexeme = x

/-- **Each string in a program** is the lexeme of a token that is no comment; `is_typedef` is a
truth value and the list of declarations is there. -/
theorem run_fine {rounds : Nat} {a : Ast} {s : State} (hfirst : first.klass ≠ .comment)
    (htable : ParserTable scopes)
    (hrun : run rounds (first :: tokens) scopes memory = .ok (a, s)) :
    Fine (WordOf (spoken tokens)) a := by
  have hsame : SameMemory True memory memory := fun i j h => by rw [h trivial]
  have hwords : ∀ token ∈ spoken tokens, WordOf (spoken tokens) token.lexeme :=
    fun token htoken => ⟨token, htoken, rfl⟩
  have hstart : wp nextToken (start (first :: tokens) scopes)
      (fun _ v => Moved (start (first :: tokens) scopes) v) fun _ => True :=
    Sighted.next (p := fun _ => True) ⟨placed_start hfirst htable, fun _ _ => trivial⟩
      fun _ => trivial
  have hall (fuel : Nat) : wp (buildAstProgram fuel memory) (start (first :: tokens) scopes)
      (fun b _ => Fine (WordOf (spoken tokens)) b) fun _ => True := by
    have hprogram := buildP4program_alike
      (L := viewLikeness (WordOf (spoken tokens)) (.inl hsame))
        (forward_alike (n := fuel) (.inl rfl))
    refine (wp_bind ..).mpr (wp_mono hstart (fun _ v hv => ?_) fun _ h => h)
    exact wp_mono (hprogram.goes v (sighted_next hfirst htable hwords hv)) (fun _ _ h => h.1)
      fun _ _ => trivial
  have hfine := wp_ok (hall _) hrun
  exact hfine

end Dp4c.Parse
