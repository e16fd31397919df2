import Dp4c.Parse.ProgramSpecs
import Dp4c.Parse.FunctionReads
import Dp4c.Lex.Assertions
import Dp4c.Symtable.Operations

/-! # Whole runs of the parser -/
namespace Dp4c.Parse

open Dp4c.Lib Dp4c.Lib.Prog Dp4c.Symtable

variable {memory : Memory} {rounds : Nat} {tokens : List Token} {scopes : Symtable.Scopes}

/-- The step every run starts with. -/
def firstStep (tokens : List Token) : Step := ⟨.nextToken, 0, (tokens.getD 0 {}).klass⟩

/-- **Every run** on an array with more than one token. -/
theorem run_inv (rounds : Nat) (scopes : Symtable.Scopes) (memory : Memory)
    (hlen : 1 < tokens.length) :
    wp (buildAstProgram (rounds + 2 * tokens.length) memory) (start tokens scopes)
      (fun a t => Inv memory t ∧ Later 0 (start tokens scopes) t ∧ firstStep tokens ∈ t.trace ∧
        Is (isKind .p4Program) a)
      fun e => Ended memory e ∧ Later 0 (start tokens scopes) e.state ∧
        firstStep tokens ∈ e.state.trace := by
  have hstart : Inv memory (start tokens scopes) :=
    ⟨Nat.lt_of_succ_lt hlen, (fun _ h => nomatch h),
      (fun _ h => nomatch h), (fun _ h => nomatch h), (fun _ h => nomatch h)⟩
  unfold buildAstProgram
  rw [wp_bind]
  refine wp_mono (nextToken_inv hstart (.inr ⟨rfl, hlen⟩)) (fun _ t ⟨ht, hst, _, hfirst, _⟩ => ?_)
    fun e he => he
  have hleft : 2 * t.left < rounds + 2 * tokens.length + 1 := by
    have := hst.left ht
    have : (start tokens scopes).left = tokens.length := rfl
    omega
  refine wp_mono (buildP4program_spec (forward_fits _) t ht rfl hleft)
    (fun a u hu => ?_) fun e he => ?_
  · exact ⟨hu.1, (hst.trans hu.2.1).weaken (Nat.zero_le _), hu.2.1.trace.subset hfirst, hu.2.2⟩
  · exact ⟨he.1, hst.andEnds he.2, he.2.trace.subset hfirst⟩

/-- A shorter array is at its end before the run starts. -/
theorem run_short (rounds : Nat) (scopes : Symtable.Scopes) (memory : Memory)
    (hlen : tokens.length ≤ 1) : ∃ e, run rounds tokens scopes memory = .error e ∧
    (e.exit = .assertion "token_at < tokens_array->elem_count" ∨
      e.exit = .assertion "i >= 0 && i < array->elem_count") ∧
    e.state.trace = [firstStep tokens] := by
  unfold run buildAstProgram
  rcases Nat.lt_or_ge 0 tokens.length with hpos | hempty
  · rcases nextToken_run (s := start tokens scopes) hpos with ⟨j, hlt, hj, -⟩ | ⟨hnext, -⟩
    · have hj : j < tokens.length := hj
      have hlt : 0 < j := hlt
      omega
    · exact ⟨_, bind_of_error hnext _, .inr rfl, rfl⟩
  · obtain rfl : tokens = [] := List.length_eq_zero_iff.mp (Nat.le_zero.mp hempty)
    exact ⟨_, rfl, .inl rfl, rfl⟩

/-- How a run can end. -/
inductive Finished (memory : Memory) (tokens : List Token) (scopes : Symtable.Scopes) :
    Except Stop (Ast × State) → Prop
  | short {e : Stop} : tokens.length ≤ 1 →
    (e.exit = .assertion "token_at < tokens_array->elem_count" ∨
      e.exit = .assertion "i >= 0 && i < array->elem_count") →
    e.state.trace = [firstStep tokens] → Finished memory tokens scopes (.error e)
  | returned {a : Ast} {t : State} : Inv memory t → Later 0 (start tokens scopes) t →
    firstStep tokens ∈ t.trace → Is (isKind .p4Program) a →
      Finished memory tokens scopes (.ok (a, t))
  | ended {e : Stop} : Ended memory e → Later 0 (start tokens scopes) e.state →
    firstStep tokens ∈ e.state.trace → Finished memory tokens scopes (.error e)

theorem run_finished (rounds : Nat) (tokens : List Token) (scopes : Symtable.Scopes)
    (memory : Memory) : Finished memory tokens scopes (run rounds tokens scopes memory) := by
  rcases Nat.lt_or_ge 1 tokens.length with hlen | hshort
  · have hrun := run_inv rounds scopes memory hlen
    unfold wp at hrun
    unfold run
    split at hrun
    · rename_i hr
      rw [hr]
      exact .returned hrun.1 hrun.2.1 hrun.2.2.1 hrun.2.2.2
    · rename_i hr
      rw [hr]
      exact .ended hrun.1 hrun.2.1 hrun.2.2
  · obtain ⟨e, he, hexit, htrace⟩ := run_short rounds scopes memory
      hshort
    rw [he]
    exact .short hshort hexit htrace

/-! ## Termination -/

/-- The run ends with a program, an error or an assertion. -/
def Terminates : Except Stop (Ast × State) → Prop
  | .ok (a, _) => a.kind = .p4Program
  | .error e => (∃ format lineNr lexeme, e.exit = .error format lineNr lexeme) ∨
    ∃ expr, e.exit = .assertion expr

theorem Is.kind_eq {kind : AstKind} {a : Ast} (h : Is (isKind kind) a) : a.kind = kind :=
  beq_iff_eq.mp h.kind

theorem terminates_of_finished {r : Except Stop (Ast × State)}
    (hrun : Finished memory tokens scopes r) :
    Terminates r ↔ ∀ step ∈ steps r, ¬ step.Stuck := by
  cases hrun with
  | short hlen hexit htrace =>
    refine iff_of_true (.inr ?_) ?_
    · rcases hexit with hexit | hexit <;> exact ⟨_, hexit⟩
    · unfold steps finalState
      rw [htrace]
      exact List.forall_mem_singleton.mpr fun h => nomatch h.1
  | returned hinv _ _ hprogram => exact iff_of_true hprogram.kind_eq hinv.orderly.moving
  | ended hended _ _ =>
    cases hended.cause with
    | error format hexit horderly => exact iff_of_true (.inl ⟨_, _, _, hexit⟩) horderly.moving
    | outOfFuel hexit hstuck _ _ =>
      refine iff_of_false ?_ fun h => ?_
      · rintro (⟨_, _, _, h⟩ | ⟨_, h⟩) <;> rw [hexit] at h <;> cases h
      · obtain ⟨step, hmem, hstuck⟩ := hstuck
        exact h step hmem hstuck
    | assertFalse hexit hmoving _ _ => exact iff_of_true (.inr ⟨_, hexit⟩) hmoving
    | list expr hexit _ hmoving _ _ => exact iff_of_true (.inr ⟨_, hexit⟩) hmoving
    | pastEnd hexit horderly _ => exact iff_of_true (.inr ⟨_, hexit⟩) horderly.moving

/-- A state between the functions of a run on these tokens: the invariant holds, and the array
has the length it had. -/
structure Between (memory : Memory) (tokens : List Token) (s : State) : Prop where
  inv : Inv memory s
  length : s.tokens.length = tokens.length

/-- **The parser terminates** unless it comes to a semicolon among the statements of a parser
state; there it makes empty statements for ever. A round of any other of its loops consumes a
token. -/
theorem terminates_iff (rounds : Nat) (tokens : List Token) (scopes : Symtable.Scopes)
    (memory : Memory) :
    (Terminates (run rounds tokens scopes memory) ↔
      ∀ step ∈ steps (run rounds tokens scopes memory), ¬ step.Stuck) ∧
    ∀ s, Between memory tokens s → ∀ expr priority, Is isExprKind expr →
      ∀ loop ∈ listLoops (forward (rounds + 2 * tokens.length)) memory ++
          operatorLoops (forward (rounds + 2 * tokens.length)) expr priority,
        loop.goesOn s.token.klass = true → loop.Consumes s := by
  refine ⟨terminates_of_finished (run_finished rounds tokens scopes memory),
    fun s hs expr priority hexpr loop hloop hgo => ?_⟩
  have hleft : 2 * s.left < rounds + 2 * tokens.length + 1 := by
    have := hs.length
    unfold State.left
    omega
  rcases List.mem_append.mp hloop with hloop | hloop
  · exact listLoops_consume (forward_fits _) hs.inv hleft loop hloop hgo
  · exact operatorLoops_consume (forward_fits _) hs.inv hleft hexpr priority loop hloop hgo

/-- `parser p() { state s { ;` -/
def emptyStatement : List Tok :=
  [.startOfInput, .parser, .identifier, .parenthOpen, .parenthClose, .braceOpen,
    .state, .identifier,
    .braceOpen, .semicolon, .endOfInput].map fun k => { klass := k }

theorem buildParserStates_stays {state name brace semicolon : Tok} {us : List Tok} {n : Nat}
    (hstate : state.klass = .state) (hname : tokenIsName name.klass = true)
    (hbrace : brace.klass = .braceOpen) (hsemicolon : semicolon.klass = .semicolon) :
    Reading (buildParserStates (forward (n + 1)) memory) (state :: name :: brace :: semicolon :: us)
      (fun _ _ => False) fun e => e.exit = .outOfFuel := by
  have hstatement : tokenIsParserStatement semicolon.klass = true := by
    rw [hsemicolon]
    rfl
  have hstays : Reads (forward (n + 1)).parserStatement (semicolon :: us) (semicolon :: us)
      fun _ => True := by
    obtain ⟨klass, lexeme, i⟩ := semicolon
    obtain rfl : klass = .semicolon := hsemicolon
    exact .note (.ifNeg rfl (.ifNeg rfl (.ifNeg rfl (.ifNeg rfl (.ifPos rfl
      (newAstNode_reads.imp fun _ _ => trivial))))))
  have hstmts : Reading (buildParserStatements (forward (n + 1))) (semicolon :: us)
      (fun _ _ => False) fun e => e.exit = .outOfFuel := by
    refine .ifPos hstatement (.newAstList fun list hl => .bind hstays fun a _ => ?_)
    exact .append hl rfl fun list hl => .stuck (whileLoop_stays hstatement hstays _ hl)
  refine .require (beq_iff_eq.mpr hstate) (.newAstList fun list hl => .stuck ?_)
  refine .expect hstate (.node fun a ha => .bind (buildName_reads hname) fun b hb => ?_)
  exact .set ha hb.value rfl fun a ha => .expect hbrace (.stuck hstmts)

/-- `parser p() {` in front of the states. -/
theorem buildDeclaration_ofParser {E : Stop → Prop} {fwd : Forward}
    (h : Reading (buildParserStates fwd memory)
      ([.state, .typeIdentifier, .braceOpen, .semicolon, .endOfInput].map fun k => { klass := k })
      (fun _ _ => False) E) :
    Reading (buildDeclaration fwd memory) (emptyStatement.drop 1) (fun _ _ => False) E := by
  have htype : Reads (buildParserTypeDeclaration fwd) (emptyStatement.drop 1)
      ([.braceOpen, .state, .typeIdentifier, .braceOpen, .semicolon, .endOfInput].map
        fun k => { klass := k }) fun _ => True := by
    refine .expect rfl (.node fun a ha => .require rfl (.bind (buildName_new rfl) fun b hb => ?_))
    refine .set ha hb.value rfl fun a ha => ?_
    refine .bind (.ifNeg rfl (.pure (P := IsOptList []) rfl)) fun list hl =>
      .set ha hl rfl fun a ha => ?_
    refine .expect rfl (.bind (.ifNeg rfl (.pure (P := IsOptList []) rfl)) fun list hl => ?_)
    exact .set ha hl rfl fun a ha => .expect rfl (.pure trivial)
  have hdecl : Reading (buildParserDeclaration fwd memory) (emptyStatement.drop 1)
      (fun _ _ => False) E := by
    refine .require rfl (.node fun a ha => .bind htype fun b _ => .set ha rfl rfl fun a ha => ?_)
    refine .ifNeg rfl (.bind (.ifNeg rfl (.pure (P := IsOptList []) rfl)) fun list hl => ?_)
    refine .set ha hl rfl fun a ha => .expect rfl ?_
    refine .bind (.ifNeg rfl (.pure (P := IsOptList []) rfl)) fun list hl => ?_
    exact .set ha hl rfl fun a ha => .stuck h
  exact .require rfl (.ifNeg rfl (.ifNeg rfl (.ifNeg rfl (.ifPos rfl
    (.require rfl (.ifNeg rfl (.ifNeg rfl (.ifPos rfl hdecl))))))))

/-- The empty statement is read over and over again, however many rounds there are. -/
theorem not_terminates : EndsInput (stateAt emptyStatement).tokens ∧
    ∀ rounds memory, ¬ Terminates (run rounds (stateAt emptyStatement).tokens {} memory) := by
  refine ⟨⟨_, rfl, rfl⟩, fun rounds memory hends => ?_⟩
  have hreading : Reading (buildAstProgram (rounds + 21 + 1) memory) emptyStatement
      (fun _ _ => False) fun e => e.exit = .outOfFuel := by
    refine .next (.node fun a ha => .newAstList fun list hl => .stuck ?_)
    refine .ifPos rfl (.ifPos rfl (.stuck (buildDeclaration_ofParser ?_)))
    exact buildParserStates_stays rfl rfl rfl rfl
  have hrun := hreading (stateAt emptyStatement) (sees_stateAt (by decide))
  unfold wp at hrun
  unfold Terminates run at hends
  rw [show start (stateAt emptyStatement).tokens {} = stateAt emptyStatement from rfl,
    show rounds + 2 * (stateAt emptyStatement).tokens.length = rounds + 21 + 1 from rfl] at hends
  split at hrun
  · exact hrun
  · rename_i h
    rw [h] at hends
    rcases hends with ⟨_, _, _, h⟩ | ⟨_, h⟩ <;> rw [hrun] at h <;> cases h

/-! ## Assertions -/

/-- The run returns a program, ends with an error at the current token, or does not end. -/
def Diagnosed : Except Stop (Ast × State) → Prop
  | .ok (a, _) => a.kind = .p4Program
  | .error e => (∃ format,
      e.exit = .error format e.state.token.lineNr e.state.token.lexeme.bytes) ∨ e.exit = .outOfFuel

theorem diagnosed_of_long (rounds : Nat) (scopes : Symtable.Scopes) (memory : Memory)
    (hends : EndsInput tokens) (hlen : 1 < tokens.length) :
    ((∀ step ∈ steps (run rounds tokens scopes memory), ¬ step.Unlisted ∧ ¬ step.Dirty memory) →
      Diagnosed (run rounds tokens scopes memory)) ∧
    ((∃ step ∈ steps (run rounds tokens scopes memory), step.Unlisted) →
      ¬ Diagnosed (run rounds tokens scopes memory)) := by
  have hrun := run_finished rounds tokens scopes memory
  generalize run rounds tokens scopes memory = r at hrun ⊢
  cases hrun with
  | short hshort => omega
  | returned hinv _ _ hprogram =>
    refine ⟨fun _ => hprogram.kind_eq, ?_⟩
    rintro ⟨step, hmem, hunlisted⟩
    exact absurd hunlisted (hinv.orderly.listed step hmem)
  | @ended e hended hlater _ =>
    have hlisted : (∀ step ∈ e.state.trace, ¬ step.Unlisted) →
        ¬ ∃ step ∈ e.state.trace, step.Unlisted := fun h ⟨step, hmem, hunlisted⟩ =>
          h step hmem hunlisted
    cases hended.cause with
    | error format hexit horderly =>
      exact ⟨fun _ => .inl ⟨format, hexit⟩, fun h => absurd h (hlisted horderly.listed)⟩
    | outOfFuel hexit _ h _ => exact ⟨fun _ => .inr hexit, fun h' => absurd h' (hlisted h)⟩
    | assertFalse hexit _ h _ =>
      refine ⟨fun hnone => ?_, fun _ => ?_⟩
      · obtain ⟨step, hmem, hunlisted⟩ := h
        exact absurd hunlisted (hnone step hmem).1
      · rintro (⟨_, h⟩ | h) <;> rw [hexit] at h <;> cases h
    | list expr hexit _ _ h hdirty =>
      refine ⟨fun hnone => ?_, fun h' => absurd h' (hlisted h)⟩
      obtain ⟨step, hmem, hdirty⟩ := hdirty
      exact absurd hdirty (hnone step hmem).2
    | pastEnd _ _ hnot => exact absurd (hlater.ends hends) hnot

/-- **No assertion fails** in a run on more than one token that finds a branch for every table
property and makes no list in memory that was not cleared; without a branch one fails. -/
theorem diagnosed_of_listed (rounds : Nat) (scopes : Symtable.Scopes) (memory : Memory)
    (hends : EndsInput tokens) :
    (1 < tokens.length →
      (∀ step ∈ steps (run rounds tokens scopes memory), ¬ step.Unlisted ∧ ¬ step.Dirty memory) →
      Diagnosed (run rounds tokens scopes memory)) ∧
    (tokens.length ≤ 1 ∨ (∃ step ∈ steps (run rounds tokens scopes memory), step.Unlisted) →
      ¬ Diagnosed (run rounds tokens scopes memory)) := by
  rcases Nat.lt_or_ge 1 tokens.length with hlen | hshort
  · obtain ⟨hlisted, hunlisted⟩ := diagnosed_of_long rounds scopes memory hends hlen
    exact ⟨fun _ => hlisted, fun h => hunlisted (h.resolve_left (by omega))⟩
  · obtain ⟨e, hrun, hexit, -⟩ := run_short rounds scopes memory hshort
    refine ⟨fun h => by omega, fun _ => ?_⟩
    rw [hrun]
    rintro (⟨_, h⟩ | h) <;> rcases hexit with hexit | hexit <;> rw [hexit] at h <;> cases h

/-- Tokens of these classes. -/
def classesOnly (classes : List TokenClass) : List Token := classes.map fun k => { klass := k }

/-- The exit of a run that ended. -/
def exitOf : Except Stop (Ast × State) → Option Exit
  | .ok _ => none
  | .error e => some e.exit

/-- Tokens with these lexemes. -/
def tokensOf (words : List (TokenClass × String)) : List Token :=
  words.map fun w => { klass := w.1, lexeme := Cstr.ofString w.2 }

/-- `extern e { e(); } control c() { table t { key = { x : e; } const entries = { (x, _) : a; } }
apply { } }`, with a comment in front of `(x, _)` and one at the end, as `lex_tokenize` has it:
all words are identifiers. -/
def externAndTable : List Token := tokensOf
  [(.startOfInput, "<start-of-input>"), (.identifier, "extern"), (.identifier, "e"),
    (.braceOpen, "\x7b"), (.identifier, "e"), (.parenthOpen, "("), (.parenthClose, ")"),
    (.semicolon, ";"), (.braceClose, "\x7d"), (.identifier, "control"), (.identifier, "c"),
    (.parenthOpen, "("), (.parenthClose, ")"), (.braceOpen, "\x7b"), (.identifier, "table"),
    (.identifier, "t"), (.braceOpen, "\x7b"), (.identifier, "key"), (.equal, "="),
    (.braceOpen, "\x7b"), (.identifier, "x"), (.colon, ":"), (.identifier, "e"),
    (.semicolon, ";"), (.braceClose, "\x7d"), (.identifier, "const"), (.identifier, "entries"),
    (.equal, "="), (.braceOpen, "\x7b"), (.comment, "// a pair"), (.parenthOpen, "("),
    (.identifier, "x"), (.comma, ","), (.identifier, "_"), (.parenthClose, ")"), (.colon, ":"),
    (.identifier, "a"), (.semicolon, ";"), (.braceClose, "\x7d"), (.braceClose, "\x7d"),
    (.identifier, "apply"), (.braceOpen, "\x7b"), (.braceClose, "\x7d"), (.braceClose, "\x7d"),
    (.comment, "// the end"), (.endOfInput, "<end-of-input>")]

/-- Memory that was used before, but looks cleared where a list keeps its links. -/
def spotted : Memory := fun _ i => if i / 8 = 1 ∨ i / 8 = 3 ∨ i / 8 = 4 then 0 else 170

/-- A run on the symbol table as the parser finds it. -/
theorem run_init (tokens : List Token) (memory : Memory) (p : Except Stop (Ast × State) → Bool)
    (h : Scopes.init.toOption.map (fun t => p (run 0 tokens t memory)) = some true) :
    ∃ t, Scopes.init = .ok t ∧ p (run 0 tokens t memory) = true := by
  obtain ⟨t, hinit, -⟩ := Scopes.init_ok
  rw [hinit] at h
  exact ⟨t, hinit, Option.some.inj h⟩

/-- Two properties and a tuple keyset. -/
theorem diagnosed_of_listed_table : ∃ t, Scopes.init = .ok t ∧
    Diagnosed (run 0 externAndTable t spotted) ∧
    ((steps (run 0 externAndTable t spotted)).countP (·.call = .tableProperty) = 2 ∧
      (steps (run 0 externAndTable t spotted)).countP (·.call = .tupleKeyset) = 1) := by
  obtain ⟨t, hinit, hp⟩ := run_init externAndTable spotted
    (fun r => decide ((∀ step ∈ steps r, ¬ step.Unlisted ∧ ¬ step.Dirty spotted) ∧
      (steps r).countP (·.call = .tableProperty) = 2 ∧
      (steps r).countP (·.call = .tupleKeyset) = 1)) (by decide +kernel)
  obtain ⟨hsteps, hcounts⟩ := of_decide_eq_true hp
  exact ⟨t, hinit, (diagnosed_of_listed 0 t spotted ⟨_, rfl, rfl⟩).1 (by decide) hsteps, hcounts⟩

/-- `control c() { table t { const ;` -/
def constWithoutKind : List Token :=
  classesOnly [.startOfInput, .control, .identifier, .parenthOpen, .parenthClose,
    .braceOpen, .table,
    .identifier, .braceOpen, .const, .semicolon, .endOfInput]

theorem not_diagnosed : EndsInput constWithoutKind ∧
    ¬ Diagnosed (run 0 constWithoutKind {} fun _ _ => 0) := by
  refine ⟨⟨_, rfl, rfl⟩, fun h => ?_⟩
  have hexit : exitOf (run 0 constWithoutKind {} fun _ _ => 0) = some (.assertion "0") := by
    decide +kernel
  generalize run 0 constWithoutKind {} (fun _ _ => 0) = r at h hexit
  cases r with
  | ok r => cases hexit
  | error e =>
    have he : e.exit = .assertion "0" := Option.some.inj hexit
    rcases h with ⟨format, h⟩ | h <;> rw [he] at h <;> cases h

/-! ## The token array -/

/-- The start of input is first and the end of input last. -/
structure TokenArray (tokens : List Token) : Prop where
  first : (tokens.getD 0 {}).klass = .startOfInput
  last : EndsInput tokens

/-- What `lex_tokenize` makes. -/
theorem tokenize_tokenArray {text : List UInt8} {old : Nat → Nat → UInt8} (hnul : 0 ∉ text)
    (h : Lex.tokenize text old = .ok tokens) : TokenArray tokens := by
  obtain ⟨rest, rfl, hlexed⟩ := Lex.tokenize_ok hnul h
  obtain ⟨last, hlast, hend⟩ := (hlexed.tiles hnul rfl (Nat.zero_le _)).last_endOfInput
  refine ⟨rfl, last, ?_, hend⟩
  rw [← List.getLast?_eq_getElem?, List.getLast?_cons, hlast]
  rfl

/-- `next_token` and `peek_token` are called inside of the array and not at its end. -/
def Step.Safe (n : Nat) (step : Step) : Prop :=
  step.tokenAt < n ∧ (step.call = .nextToken ∨ step.call = .peekToken → step.klass ≠ .endOfInput)

theorem TokenArray.safe {t : State} (h : TokenArray tokens)
    (hlater : Later 0 (start tokens scopes) t) (hwithin : ∀ step ∈ t.trace, step.Within t.tokens)
    (hfirst : firstStep tokens ∈ t.trace) : ∀ step ∈ t.trace, step.Safe tokens.length := by
  intro step hmem
  have hstep := hwithin step hmem
  refine ⟨hlater.length ▸ hstep.inBounds, fun hcall => ?_⟩
  rcases hstep.notEnd hcall with hne | hzero
  · exact hne
  · have hstart : (t.tokens.getD 0 {}).klass = .startOfInput :=
      ((hwithin _ hfirst).first rfl).symm.trans h.first
    rw [hstep.first hzero, hstart]
    exact fun h => nomatch h

theorem TokenArray.length (h : TokenArray tokens) : 1 < tokens.length := by
  obtain ⟨last, hlast, hend⟩ := h.last
  by_contra hshort
  have hzero : tokens.length - 1 = 0 := by omega
  rw [hzero] at hlast
  have hfirst := h.first
  rw [List.getD_eq_getElem?_getD, hlast, Option.getD_some, hend] at hfirst
  cases hfirst

/-- **The current token stays in the array**, and neither of the assertions on the index
fails. -/
theorem run_safe (rounds : Nat) (scopes : Symtable.Scopes) (memory : Memory)
    (h : TokenArray tokens) :
    (∀ step ∈ steps (run rounds tokens scopes memory), step.Safe tokens.length) ∧
    (finalState (run rounds tokens scopes memory)).tokenAt < tokens.length ∧
    ∀ e, run rounds tokens scopes memory = .error e →
      e.exit ≠ .assertion "i >= 0 && i < array->elem_count" ∧
      e.exit ≠ .assertion "token_at < tokens_array->elem_count" := by
  have hrun := run_finished rounds tokens scopes memory
  generalize run rounds tokens scopes memory = r at hrun ⊢
  cases hrun with
  | short hshort => exact absurd h.length (Nat.not_lt_of_le hshort)
  | returned hinv hlater hfirst _ =>
    exact ⟨h.safe hlater hinv.within hfirst, hlater.length ▸ hinv.inBounds, fun _ he => nomatch he⟩
  | @ended e hended hlater hfirst =>
    refine ⟨h.safe hlater hended.within hfirst, hlater.length ▸ hended.inBounds, fun e' he => ?_⟩
    obtain rfl := Except.error.inj he
    have hexit : ∀ {x y : Exit}, e.exit = x → x ≠ y → e.exit ≠ y := fun h hne => h ▸ hne
    cases hended.cause with
    | error format h _ => exact ⟨hexit h (by simp), hexit h (by simp)⟩
    | outOfFuel h _ _ _ => exact ⟨hexit h (by simp), hexit h (by simp)⟩
    | assertFalse h _ _ _ => exact ⟨hexit h (by decide), hexit h (by decide)⟩
    | list expr h hmem _ _ _ =>
      simp only [List.mem_cons, List.not_mem_nil, or_false] at hmem
      rcases hmem with rfl | rfl | rfl <;> exact ⟨hexit h (by decide), hexit h (by decide)⟩
    | pastEnd _ _ hnot => exact absurd (hlater.ends h.last) hnot

/-- Words, a look at a token ahead, and comments up to the end. -/
theorem run_safe_table : ∃ t, Scopes.init = .ok t ∧
    (∀ step ∈ steps (run 0 externAndTable t spotted), step.Safe 46) ∧
    (finalState (run 0 externAndTable t spotted)).tokenAt = 45 ∧
    ∃ step ∈ steps (run 0 externAndTable t spotted), step.call = .peekToken := by
  obtain ⟨t, hinit, hp⟩ := run_init externAndTable spotted
    (fun r => decide ((finalState r).tokenAt = 45 ∧
      ∃ step ∈ steps r, step.call = .peekToken)) (by decide +kernel)
  obtain ⟨hend, hpeek⟩ := of_decide_eq_true hp
  exact ⟨t, hinit, (run_safe 0 t spotted ⟨rfl, _, rfl, rfl⟩).1, hend, hpeek⟩

end Dp4c.Parse
