import Dp4c.Parse.AlikeProgram
import Dp4c.Parse.Run

/-! # The rounds of a run

`rounds` bound the loops of the source that do not end. They make no difference to what the
caller of the parser sees: a run that is out of rounds was at a semicolon of a parser state,
and with more rounds it comes there as well. -/
namespace Dp4c.Parse

open Dp4c.Lib Dp4c.Lib.Prog Dp4c.Symtable

variable {memory : Memory} {tokens : List Token} {scopes : Scopes}

/-! ## Outcomes -/

/-- What the caller of `build_ast_program` sees of a run: the program with the symbol table and
the count of nodes, or how the process ends. -/
def outcome : Except Stop (Ast × State) → Except Exit (Ast × Scopes × Nat)
  | .ok (a, s) => .ok (a, s.scopes, s.nodeId)
  | .error e => .error e.exit

/-- A run that answers another has its outcome, or has gone past its end. -/
theorem outcome_eq {c : Correspondence} {x y : Parser Ast} {s t : State}
    (h : wp x s (fun a u => wp y t (fun b v => a = b ∧ c.states u v) fun _ => False)
      fun e => c.pairing.Ends e y t)
    (hstates : ∀ u v, c.states u v → u.scopes = v.scopes ∧ u.nodeId = v.nodeId)
    (hexits : ∀ e d, c.exits e d → e.exit = d.exit) :
    (∃ e, x s = .error e ∧ c.passed e (finalState (y t))) ∨ outcome (x s) = outcome (y t) := by
  cases hx : x s with
  | ok r =>
    right
    have h := wp_ok h hx
    cases hy : y t with
    | ok q =>
      obtain ⟨hvalue, hcorr⟩ := wp_ok h hy
      obtain ⟨hscopes, hnodeId⟩ := hstates _ _ hcorr
      show Except.ok (r.1, r.2.scopes, r.2.nodeId) = Except.ok (q.1, q.2.scopes, q.2.nodeId)
      rw [hvalue, hscopes, hnodeId]
    | error d => exact (wp_error h hy).elim
  | error e =>
    have hends := wp_error h hx
    have h : wp y t (fun _ v => c.passed e v) fun d => c.exits e d ∨ c.passed e d.state := hends
    cases hy : y t with
    | ok q =>
      have hpassed := wp_ok h hy
      exact .inl ⟨e, rfl, hpassed⟩
    | error d =>
      rcases wp_error h hy with hexit | hpassed
      · exact .inr (congrArg Except.error (hexits e d hexit))
      · exact .inl ⟨e, rfl, hpassed⟩

/-! ## Steps are not forgotten -/

/-- The steps of the run so far stay in the trace. -/
def Records {α : Type} (y : Parser α) : Prop :=
  ∀ t, wp y t (fun _ v => t.trace <:+ v.trace) fun d => t.trace <:+ d.state.trace

theorem skipComments_records : ∀ fuel i : Nat, Records (skipComments fuel i)
  | 0, _ => fun _ => List.suffix_refl _
  | fuel + 1, i => fun t => by
    refine (wp_bind ..).mpr ?_
    cases hget : t.tokens[i]? with
    | none =>
      refine wp_of_error (e := ⟨.assertion "i >= 0 && i < array->elem_count", t⟩) ?_
        (List.suffix_refl _)
      rw [arrayGet, hget]
    | some token =>
      refine wp_of_ok (a := token) (t := t) (by rw [arrayGet, hget]) ?_
      split
      · exact skipComments_records fuel (i + 1) t
      · exact List.suffix_refl _

theorem note_records (call : Call) : Records (note call) := fun _ => List.suffix_cons _ _

theorem nextToken_records : Records nextToken := by
  intro t
  refine (wp_bind ..).mpr ((wp_bind ..).mpr ?_)
  show wp (if t.tokenAt < t.tokens.length then _ else _ : Parser Unit) _ _ _
  split
  · refine (wp_bind ..).mpr (wp_mono (skipComments_records _ _ _) (fun i v h => ?_) fun d h => ?_)
    · have htrace := (reclassify_same { v with tokenAt := i, prevTokenAt := v.tokenAt }).2.2.2
      exact (List.suffix_cons _ _).trans (h.trans (htrace.symm ▸ List.suffix_refl _))
    · exact (List.suffix_cons _ _).trans h
  · exact List.suffix_cons _ _

/-- `peek_token`, but for the note of it. -/
theorem peek_rest : Records (nextToken >>= fun _ => Prog.reads (·.token) >>= fun token =>
    Prog.modify (fun s => { s with tokenAt := s.prevTokenAt }) >>= fun _ => pure token) :=
  fun t => (wp_bind ..).mpr (nextToken_records t)

theorem peekToken_records : Records peekToken := by
  intro t
  refine (wp_congr (bind_of_ok rfl _)).mpr ?_
  exact wp_mono (peek_rest _) (fun _ _ h => (List.suffix_cons _ _).trans h)
    fun _ h => (List.suffix_cons _ _).trans h

/-! ## The same states -/

/-- The same state; the second run may go on where the first is stopped in one of these ways. -/
def sameUntil (stopped : Stop → Prop) (memory memory' : Memory) : Correspondence :=
  { states := Eq
    exits := Eq
    exits_of_states := fun h e => by rw [h]
    second := fun _ => True
    second_of_states := fun _ => trivial
    passed := fun e v => stopped e ∧ e.state.trace <:+ v.trace
    word := fun _ => True
    memory := memory
    memory' := memory' }

variable {stopped : Stop → Prop} {memory' : Memory}

theorem Records.alike {α : Type} {y : Parser α} (h : Records y) :
    Alike (sameUntil stopped memory memory') (fun _ => True) y y where
  both s t hst := by
    obtain rfl : s = t := hst
    unfold wp Pairing.Ends wp
    cases y s with
    | ok r => exact ⟨rfl, rfl⟩
    | error e => exact .inl rfl
  goes t _ := wp_mono (h t) (fun _ _ h => ⟨trivial, trivial, fun _ he => ⟨he.1, he.2.trans h⟩⟩)
    fun _ h _ he => ⟨he.1, he.2.trans h⟩

/-- The parser cannot tell a state from itself. -/
def untilLikeness (htuple : Alike (sameUntil stopped memory memory')
    (sameUntil stopped memory memory').Trees (newTupleList memory) (newTupleList memory')) :
    Likeness :=
  { sameUntil stopped memory memory' with
    passed_later := fun h hlater => ⟨h.1, h.2.trans hlater⟩
    token := fun h => by rw [show _ = _ from h]
    lexeme := fun _ => trivial
    node := fun h => by
      obtain rfl : _ = _ := h
      exact ⟨rfl, rfl⟩
    declare := fun h name id => by
      obtain rfl : _ = _ := h
      rfl
    second_node := fun _ => trivial
    second_declare := fun _ _ _ => trivial
    note := fun call => (note_records call).alike
    next := nextToken_records.alike
    peek := InStep.mono peekToken_records.alike (fun _ _ h => congrArg Token.content h) fun _ h => h
    tuple := htuple }

/-- Both runs are the same, or the first is stopped and the second comes there as well. -/
theorem eq_or_stopped {x y : Parser Ast} {s : State}
    (h : Alike (sameUntil stopped memory memory') (sameUntil stopped memory memory').Tree x y) :
    (∃ e, x s = .error e ∧ stopped e ∧ e.state.trace <:+ (finalState (y s)).trace) ∨
      x s = y s := by
  have hboth := h.both s s rfl
  cases hx : x s with
  | ok r =>
    have hreturned := wp_ok hboth hx
    cases hy : y s with
    | ok q =>
      obtain ⟨hvalue, hstates⟩ := wp_ok hreturned hy
      exact .inr (congrArg Except.ok (Prod.ext hvalue hstates))
    | error d => exact (wp_error hreturned hy).elim
  | error e =>
    have hends := wp_error hboth hx
    have hends : wp y s (fun _ v => stopped e ∧ e.state.trace <:+ v.trace)
        fun d => e = d ∨ stopped e ∧ e.state.trace <:+ d.state.trace := hends
    cases hy : y s with
    | ok q =>
      have hpassed := wp_ok hends hy
      exact .inl ⟨e, rfl, hpassed⟩
    | error d =>
      rcases wp_error hends hy with rfl | hpassed
      · exact .inr rfl
      · exact .inl ⟨e, rfl, hpassed⟩

/-! ## More rounds -/

/-- A run that comes to a semicolon of a parser state is out of rounds. -/
theorem run_stuck {rounds : Nat}
    (h : ∃ step ∈ steps (run rounds tokens scopes memory), step.Stuck) :
    outcome (run rounds tokens scopes memory) = .error .outOfFuel := by
  have hrun := run_finished rounds tokens scopes memory
  obtain ⟨step, hmem, hstuck⟩ := h
  generalize run rounds tokens scopes memory = r at hrun hmem
  cases hrun with
  | short _ _ htrace =>
    unfold steps finalState at hmem
    rw [htrace] at hmem
    obtain rfl := List.mem_singleton.mp hmem
    cases hstuck.1
  | returned hinv _ _ _ => exact absurd hstuck (hinv.orderly.moving step hmem)
  | ended hended _ _ =>
    cases hended.cause with
    | error format _ horderly => exact absurd hstuck (horderly.moving step hmem)
    | outOfFuel hexit _ _ _ => exact congrArg Except.error hexit
    | assertFalse _ hmoving _ _ => exact absurd hstuck (hmoving step hmem)
    | list _ _ _ hmoving _ _ => exact absurd hstuck (hmoving step hmem)
    | pastEnd _ horderly _ => exact absurd hstuck (horderly.moving step hmem)

theorem stuck_of_outOfFuel {rounds : Nat} {e : Stop}
    (he : run rounds tokens scopes memory = .error e) (hexit : e.exit = .outOfFuel) :
    ∃ step ∈ e.state.trace, step.Stuck := by
  have hrun := run_finished rounds tokens scopes memory
  rw [he] at hrun
  cases hrun with
  | short _ hshort => rcases hshort with h | h <;> cases hexit.symm.trans h
  | ended hended _ _ =>
    cases hended.cause with
    | error format h _ => cases hexit.symm.trans h
    | outOfFuel _ hstuck _ _ => exact hstuck
    | assertFalse h _ _ _ => cases hexit.symm.trans h
    | list expr h _ _ _ _ => cases hexit.symm.trans h
    | pastEnd h _ _ => cases hexit.symm.trans h

theorem outcome_more {n m : Nat} (h : n ≤ m) :
    outcome (run n tokens scopes memory) = outcome (run m tokens scopes memory) := by
  have htuple : Alike (sameUntil (·.exit = .outOfFuel) memory memory)
      (sameUntil (·.exit = .outOfFuel) memory memory).Trees (newTupleList memory)
      (newTupleList memory) :=
    newTupleList_alike (sameUntil (·.exit = .outOfFuel) memory memory) (note_records _).alike
      fun _ _ h => by rw [show _ = _ from h]; rfl
  have hfuel : (untilLikeness htuple).Fuels (n + 2 * tokens.length) (m + 2 * tokens.length) :=
    .inr ⟨by omega, fun s t hst => ⟨rfl, by
      obtain rfl : s = t := hst
      exact List.suffix_refl _⟩⟩
  rcases eq_or_stopped (s := start tokens scopes) (buildAstProgram_alike hfuel) with
    ⟨e, he, hexit, hsuffix⟩ | h
  · have hrun : run n tokens scopes memory = .error e := he
    obtain ⟨step, hmem, hstuck⟩ := stuck_of_outOfFuel hrun hexit
    have hlonger : outcome (run m tokens scopes memory) = .error .outOfFuel :=
      run_stuck ⟨step, hsuffix.subset hmem, hstuck⟩
    rw [hlonger, hrun]
    exact congrArg Except.error hexit
  · exact congrArg outcome h

theorem outcome_run (tokens : List Token) (scopes : Scopes) (memory : Memory) (rounds : Nat) :
    outcome (run rounds tokens scopes memory) = outcome (run 0 tokens scopes memory) :=
  (outcome_more (Nat.zero_le rounds)).symm

end Dp4c.Parse
