import Dp4c.Parse.Independence
import Dp4c.Parse.Run

/-! # The end of the token array

A run does not know how many tokens are behind the last one it has read: on a longer array it
is the same run, unless it runs off the array. -/
namespace Dp4c.Parse

open Dp4c.Lib Dp4c.Lib.Prog Dp4c.Symtable

variable {s t : State} {more tokens : List Token} {j : Nat} {scopes : Scopes} {memory : Memory}

/-- The exit of `array_get` behind the end of the array. -/
def OffArray (e : Exit) : Prop := e = .assertion "i >= 0 && i < array->elem_count"

/-- The state with more tokens in the array. -/
def State.extend (more : List Token) (s : State) : State := { s with tokens := s.tokens ++ more }

theorem State.getD_extend {i : Nat} (h : i < s.tokens.length) :
    (s.extend more).tokens.getD i {} = s.tokens.getD i {} := by
  rw [List.getD_eq_getElem?_getD, List.getD_eq_getElem?_getD, State.extend,
    List.getElem?_append_left h]

theorem State.token_extend (h : s.tokenAt < s.tokens.length) : (s.extend more).token = s.token :=
  State.getD_extend h

theorem reclassify_extend (h : s.tokenAt < s.tokens.length) :
    reclassify (s.extend more) = (reclassify s).extend more := by
  have htoken : (s.extend more).token = s.token := State.token_extend h
  by_cases hid : s.token.klass = .identifier
  · rw [reclassify_identifier hid, reclassify_identifier (by rw [htoken]; exact hid), htoken]
    show ({ s with tokens := (s.tokens ++ more).set s.tokenAt _, scopes := _ } : State) =
      { s with tokens := s.tokens.set s.tokenAt _ ++ more, scopes := _ }
    rw [List.set_append_left _ _ h]
    rfl
  · rw [reclassify_other hid, reclassify_other (by rw [htoken]; exact hid)]

theorem NextAt.extend (h : NextAt s j) : NextAt (s.extend more) j := by
  refine ⟨h.after, ?_, fun k hk hkj => ?_, ?_⟩
  · rw [State.extend, List.length_append]
    exact Nat.lt_add_right _ h.inBounds
  · rw [State.getD_extend (Nat.lt_trans hkj h.inBounds)]
    exact h.comments k hk hkj
  · rw [State.getD_extend h.inBounds]
    exact h.token

/-- `next_token` goes to the same token of both arrays, or runs off the shorter one. -/
theorem nextToken_extend (h : s.tokenAt < s.tokens.length) :
    (∃ u, nextToken s = .ok ((), u) ∧ nextToken (s.extend more) = .ok ((), u.extend more) ∧
      u.tokenAt < u.tokens.length ∧ u.prevTokenAt = s.tokenAt ∧
      u.tokens.length = s.tokens.length) ∨
    ∃ e, nextToken s = .error e ∧ OffArray e.exit := by
  rcases nextToken_run h with ⟨j, hlt, hj, hcomments, hstop, hrun⟩ | ⟨herror, -⟩
  · have hnext : NextAt s j := ⟨hlt, hj, hcomments, hstop⟩
    have hafter : NextAt (s.extend more) j := hnext.extend
    have hlonger := hafter.nextToken
    rw [State.token_extend h] at hlonger
    obtain ⟨hlen, hat, hprev, -⟩ := reclassify_same { s with
      trace := ⟨.nextToken, s.tokenAt, s.token.klass⟩ :: s.trace
      tokenAt := j
      prevTokenAt := s.tokenAt }
    refine .inl ⟨_, hrun, ?_, by rw [hlen, hat]; exact hj, hprev, hlen⟩
    rw [← reclassify_extend hj]
    exact hlonger
  · exact .inr ⟨_, herror, rfl⟩

/-- The second state has the tokens of the first in front of others. -/
def Extends (more : List Token) (s t : State) : Prop :=
  t = s.extend more ∧ s.tokenAt < s.tokens.length

def extending (more : List Token) (memory : Memory) : Correspondence :=
  { states := Extends more
    exits := fun e d => e.exit = d.exit
    exits_of_states := fun _ _ => rfl
    second := fun _ => True
    second_of_states := fun _ => trivial
    passed := fun e _ => OffArray e.exit
    word := fun _ => True
    memory := memory
    memory' := memory }

theorem Records.extending {α : Type} {y : Parser α} (h : Records y) :
    (extending more memory).pairing.Goes (fun _ => True) y := fun t _ =>
  wp_mono (h t) (fun _ _ _ => ⟨trivial, trivial, fun _ h => h⟩) fun _ _ _ h => h

theorem extending_note (call : Call) :
    Alike (extending more memory) (fun _ => True) (note call) (note call) where
  both s t hst := by
    obtain ⟨rfl, h⟩ := hst
    refine ⟨rfl, ?_, h⟩
    show State.mk _ _ _ _ _ (⟨call, s.tokenAt, (s.extend more).token.klass⟩ :: s.trace) = _
    rw [State.token_extend h]
    rfl
  goes := (note_records call).extending

theorem extending_next :
    Alike (extending more memory) (fun _ => True) nextToken nextToken where
  both s t hst := by
    obtain ⟨rfl, h⟩ := hst
    rcases nextToken_extend h with ⟨u, hu, hlonger, hlt, -⟩ | ⟨e, he, hoff⟩
    · exact wp_of_ok hu (wp_of_ok hlonger ⟨rfl, rfl, hlt⟩)
    · exact wp_of_error he (nextToken_records.extending.ends trivial hoff)
  goes := nextToken_records.extending

theorem extending_peek : InStep (extending more memory).pairing
    (fun a b => a.content = b.content) (fun _ => True) peekToken peekToken := by
  refine InStep.bind (extending_note .peekToken) (fun _ _ _ _ => ⟨?_, ?_⟩) fun _ _ => ?_
  · rintro s t ⟨rfl, h⟩
    rcases nextToken_extend h with ⟨u, hu, hlonger, hlt, hprev, hlen⟩ | ⟨e, he, hoff⟩
    · refine wp_of_ok (bind_of_ok hu _) (wp_of_ok (bind_of_ok hlonger _) ⟨?_, ?_, ?_⟩)
      · exact congrArg Token.content (State.token_extend hlt).symm
      · rfl
      · show u.prevTokenAt < u.tokens.length
        rw [hprev, hlen]
        exact h
    · exact wp_of_error (bind_of_error he _) (peek_rest.extending.ends trivial hoff)
  · exact peek_rest.extending
  · exact peek_rest.extending

/-- The parser does not see the length of the array. -/
def prefixLikeness (more : List Token) (memory : Memory) : Likeness :=
  { extending more memory with
    passed_later := fun h _ => h
    token := fun h => h.1 ▸ congrArg Token.content (State.token_extend h.2).symm
    lexeme := fun _ => trivial
    node := fun h => by
      obtain ⟨rfl, h⟩ := h
      exact ⟨rfl, rfl, h⟩
    declare := fun h name id => by
      obtain ⟨rfl, h⟩ := h
      exact ⟨rfl, h⟩
    second_node := fun _ => trivial
    second_declare := fun _ _ _ => trivial
    note := extending_note
    next := extending_next
    peek := extending_peek
    tuple := newTupleList_alike (extending more memory) (extending_note _) fun _ _ h => by
      obtain ⟨rfl, -⟩ := h
      rfl }

/-- A run on a longer array has the outcome it has on the shorter one, unless it runs off
that one. -/
theorem outcome_extend (hne : tokens ≠ []) (more : List Token) (fuel : Nat) :
    (∃ e, buildAstProgram fuel memory (start tokens scopes) = .error e ∧ OffArray e.exit) ∨
      outcome (buildAstProgram fuel memory (start tokens scopes)) =
        outcome (buildAstProgram fuel memory (start (tokens ++ more) scopes)) := by
  have hstart : Extends more (start tokens scopes) (start (tokens ++ more) scopes) :=
    ⟨rfl, List.length_pos_of_ne_nil hne⟩
  have h := (buildAstProgram_alike (L := prefixLikeness more memory) (n := fuel) (.inl rfl)).both
    _ _ hstart
  refine outcome_eq (c := extending more memory) h (fun u v huv => ?_) fun _ _ h => h
  obtain ⟨rfl, -⟩ := huv
  exact ⟨rfl, rfl⟩

/-- A run on an array that ends with the end of the input does not run off it. -/
theorem run_onArray (h : TokenArray tokens) (rounds : Nat) {e : Stop}
    (he : run rounds tokens scopes memory = .error e) : ¬ OffArray e.exit := by
  have hrun := run_finished rounds tokens scopes memory
  rw [he] at hrun
  intro hoff
  cases hrun with
  | short hshort => exact absurd h.length (Nat.not_lt_of_le hshort)
  | ended hended hlater hfirst =>
    cases hended.cause with
    | error format hexit _ => cases hexit.symm.trans hoff
    | outOfFuel hexit _ _ _ => cases hexit.symm.trans hoff
    | assertFalse hexit _ _ _ => exact absurd (hexit.symm.trans hoff) (by decide)
    | list expr hexit hmem _ _ _ =>
      have hexpr : expr = "i >= 0 && i < array->elem_count" :=
        Exit.assertion.inj (hexit.symm.trans hoff)
      exact absurd (hexpr ▸ hmem) (by decide)
    | pastEnd _ _ hnot => exact absurd (hlater.ends h.last) hnot

/-- **What stands behind the end of the input** makes no difference. -/
theorem outcome_behind_end (h : TokenArray tokens) (more : List Token) (rounds : Nat) :
    outcome (run rounds tokens scopes memory) =
      outcome (run rounds (tokens ++ more) scopes memory) := by
  have hne : tokens ≠ [] := List.ne_nil_of_length_pos (Nat.lt_of_succ_lt h.length)
  have hrounds : 2 * more.length + 2 * tokens.length = 0 + 2 * (tokens ++ more).length := by
    rw [List.length_append]
    omega
  calc outcome (run rounds tokens scopes memory)
    _ = outcome (run (2 * more.length) tokens scopes memory) :=
      (outcome_run _ _ _ rounds).trans (outcome_run _ _ _ _).symm
    _ = outcome (run 0 (tokens ++ more) scopes memory) := by
      refine ((outcome_extend hne more _).resolve_left ?_).trans ?_
      · rintro ⟨e, he, hoff⟩
        exact run_onArray h _ he hoff
      · rw [run, hrounds]
    _ = outcome (run rounds (tokens ++ more) scopes memory) := (outcome_run _ _ _ rounds).symm

/-- `;` with a parenthesis behind the end of the input. -/
theorem outcome_behind_end_semicolon :
    outcome (run 0 (classesOnly [.startOfInput, .semicolon, .endOfInput]) {} fun _ _ => 0) =
      outcome (run 0 (classesOnly [.startOfInput, .semicolon, .endOfInput, .parenthOpen]) {}
        fun _ _ => 0) :=
  outcome_behind_end ⟨rfl, _, rfl, rfl⟩ (classesOnly [.parenthOpen]) 0

end Dp4c.Parse
