import Dp4c.Lex.Spans

/-! # String literals

What the grammar of string literals makes of the characters after a quote, and
when `next_token` agrees with it. -/
namespace Dp4c.Lex

open Dp4c.Lib Dp4c.Lib.Prog

/-- How the characters after an opening quote go on: a body that is closed,
with the length up to and with the closing quote and the line breaks of its
continuations, a body that is wrong, or the end of the text. -/
inductive Closing where
  | closed (len lines : Nat)
  | bad
  | unclosed
deriving DecidableEq

/-- The same after a few characters more. -/
def Closing.after (len lines : Nat) : Closing → Closing
  | .closed n m => .closed (n + len) (m + lines)
  | .bad => .bad
  | .unclosed => .unclosed

/-- The escapes that are no line break. -/
def isEscape (c : UInt8) : Bool := c == 92 || c == 34 || c == 110 || c == 114

def closing : List UInt8 → Closing
  | [] => .unclosed
  | c :: l =>
    if c = 34 then .closed 1 0
    else if isNewline c then .bad
    else if c = 92 then
      match l with
      | [] => .unclosed
      | [d] => if isNewline d || isEscape d then .unclosed else .bad
      | d :: d' :: l =>
        if isNewline d then
          if isPair d d' then (closing l).after 3 1 else (closing (d' :: l)).after 2 1
        else if isEscape d then (closing (d' :: l)).after 2 0
        else .bad
    else (closing l).after 1 0

variable {s : State} {p n lines : Nat} {r l : List UInt8} {c : UInt8}

theorem after_closed {k m : Nat} {x : Closing} (h : x.after k m = .closed n lines) :
    ∃ n' m', x = .closed n' m' ∧ n = n' + k ∧ lines = m' + m := by
  cases x with
  | closed n' m' =>
    obtain ⟨rfl, rfl⟩ := Closing.closed.inj h
    exact ⟨n', m', rfl, rfl, rfl⟩
  | bad => cases h
  | unclosed => cases h

/-- A literal without a backslash is closed where state 200 stops. -/
theorem endAt_of_closed : ∀ {l : List UInt8} {n lines : Nat}, closing l = .closed n lines →
    92 ∉ l.take n → endAt isStringEnd l = some n ∧ lines = 0
  | c :: l, n, lines, h, hl => by
    unfold closing at h
    by_cases hquote : c = 34
    · rw [if_pos hquote] at h
      obtain ⟨rfl, rfl⟩ := Closing.closed.inj h
      exact ⟨endAt_cons_pos (by rw [hquote]; rfl), rfl⟩
    rw [if_neg hquote] at h
    by_cases hnl : isNewline c = true
    · rw [if_pos hnl] at h
      cases h
    rw [if_neg hnl] at h
    have hn : 0 < n := by
      by_cases hc : c = 92
      · rw [if_pos hc] at h
        match l with
        | [] => cases h
        | [d] => simp only at h; split at h <;> cases h
        | d :: d' :: l =>
          simp only at h
          split_ifs at h
          all_goals
            obtain ⟨n', m', _, rfl, _⟩ := after_closed h
            exact Nat.succ_pos _
      · rw [if_neg hc] at h
        obtain ⟨n', m', _, rfl, _⟩ := after_closed h
        exact Nat.succ_pos _
    obtain ⟨n, rfl⟩ : ∃ m, n = m + 1 := ⟨n - 1, by omega⟩
    rw [List.take_succ_cons, List.mem_cons, not_or] at hl
    rw [if_neg (Ne.symm hl.1)] at h
    obtain ⟨n', m', hclosed, hn', rfl⟩ := after_closed h
    obtain rfl : n = n' := by omega
    obtain ⟨hend, rfl⟩ := endAt_of_closed hclosed hl.2
    have hc : isStringEnd c = false := by
      simpa [isStringEnd] using ⟨hquote, Ne.symm hl.1⟩
    exact ⟨by rw [endAt_cons_neg hc, hend]; rfl, rfl⟩

/-- The last character of a closed body is the quote. -/
theorem closed_quote : ∀ {l : List UInt8} {n lines : Nat}, closing l = .closed n lines →
    ∃ m, n = m + 1 ∧ l[m]? = some 34
  | c :: l, n, lines, h => by
    unfold closing at h
    by_cases hquote : c = 34
    · rw [if_pos hquote] at h
      obtain ⟨rfl, rfl⟩ := Closing.closed.inj h
      exact ⟨0, rfl, by rw [hquote]; rfl⟩
    rw [if_neg hquote] at h
    by_cases hnl : isNewline c = true
    · rw [if_pos hnl] at h
      cases h
    rw [if_neg hnl] at h
    by_cases hc : c = 92
    · rw [if_pos hc] at h
      match l with
      | [] => cases h
      | [d] => simp only at h; split at h <;> cases h
      | d :: d' :: l =>
        simp only at h
        split_ifs at h
        · obtain ⟨n', m', hclosed, rfl, _⟩ := after_closed h
          obtain ⟨m, rfl, hm⟩ := closed_quote hclosed
          exact ⟨m + 3, rfl, hm⟩
        · obtain ⟨n', m', hclosed, rfl, _⟩ := after_closed h
          obtain ⟨m, rfl, hm⟩ := closed_quote hclosed
          exact ⟨m + 2, rfl, hm⟩
        · obtain ⟨n', m', hclosed, rfl, _⟩ := after_closed h
          obtain ⟨m, rfl, hm⟩ := closed_quote hclosed
          exact ⟨m + 2, rfl, hm⟩
    · rw [if_neg hc] at h
      obtain ⟨n', m', hclosed, rfl, _⟩ := after_closed h
      obtain ⟨m, rfl, hm⟩ := closed_quote hclosed
      exact ⟨m + 1, rfl, hm⟩

/-- Before the end there is no character of the kind. -/
theorem endAt_before {q : UInt8 → Bool} : ∀ {l : List UInt8} {n : Nat}, endAt q l = some (n + 1) →
    ∀ c ∈ l.take n, q c = false
  | d :: l, 0, _, c, hc => by cases hc
  | d :: l, n + 1, h, c, hc => by
    cases hd : q d with
    | true =>
      rw [endAt_cons_pos hd] at h
      cases h
    | false =>
      rw [endAt_cons_neg hd] at h
      obtain ⟨m, hm, hmn⟩ := Option.map_eq_some_iff.mp h
      obtain rfl : m = n + 1 := by omega
      rcases List.mem_cons.mp hc with rfl | hc
      · exact hd
      · exact endAt_before hm c hc

/-- Where state 200 stops at the quote that closes the literal, there is no
backslash before it. -/
theorem noBackslash_of_endAt (h : closing l = .closed n lines)
    (hend : endAt isStringEnd l = some n) : 92 ∉ l.take n := by
  obtain ⟨m, rfl, hm⟩ := closed_quote h
  intro hmem
  rw [List.take_add_one, hm, List.mem_append] at hmem
  rcases hmem with hmem | hmem
  · cases endAt_before hend 92 hmem
  · simp at hmem

/-! ## What `next_token` reads at a quote -/

/-- What `next_token` has to do where the next character is a quote: read
exactly the literal that is there, and report one that is wrong. -/
def LiteralRead (s : State) (p : Nat) (r : List UInt8) : Prop :=
  match closing (skipBlanks r).tail with
  | .closed n lines => ∃ token t, nextToken s = .ok (token, t) ∧ token.klass = .stringLiteral ∧
      token.start = p + blanks r ∧ token.stop = p + blanks r + (n + 1) ∧
      t.lexeme = ⟨token.stop, token.stop⟩ ∧
      token.lineNr = s.lineNr + breaks (r.takeWhile isBlank) + lines
  | .bad => ∃ token t, nextToken s = .ok (token, t) ∧ token.klass = .lexicalError
  | .unclosed => True

/-- The characters after a quote are a body without a backslash that is closed,
or the text ends before the body is closed or wrong. -/
def Unescaped (l : List UInt8) : Prop :=
  match closing l with
  | .closed n _ => 92 ∉ l.take n
  | .bad => False
  | .unclosed => True

theorem nextShape_quote (hquote : (skipBlanks r).head? = some 34) :
    nextShape r = stringShape (skipBlanks r) := by
  obtain ⟨l, hl⟩ : ∃ l, skipBlanks r = 34 :: l := by
    cases hs : skipBlanks r with
    | nil => rw [hs] at hquote; cases hquote
    | cons c l =>
      rw [hs] at hquote
      exact ⟨l, by rw [Option.some.inj hquote]⟩
  rw [nextShape, hl]
  rfl

/-- State 200 ends at the first quote or backslash. -/
theorem nextToken_string (h : At s p r 0) (hprev : s.tokens ≠ [])
    (hquote : (skipBlanks r).head? = some 34) :
    wp nextToken s
      (fun token t => ∃ n, endAt isStringEnd (skipBlanks r).tail = some n ∧
        token.klass = .stringLiteral ∧ token.start = p + blanks r ∧
        token.stop = p + blanks r + (n + 1) ∧ t.lexeme = ⟨token.stop, token.stop⟩ ∧
        token.lineNr = s.lineNr + breaks (r.takeWhile isBlank))
      (fun _ => endAt isStringEnd (skipBlanks r).tail = none) := by
  have hshape : nextShape r = .upTo (fun n => .stringLiteral (n + 1))
      (endAt isStringEnd (skipBlanks r).tail) := nextShape_quote hquote
  refine wp_mono (wp_nextToken_at h ⟨_, List.getLast?_eq_some_getLast hprev, rfl⟩) ?_ ?_
  · rintro token t ⟨hat, hline, hafter, -⟩
    cases hend : endAt isStringEnd (skipBlanks r).tail with
    | none =>
      rw [hend] at hshape
      exact absurd hshape hat.shape
    | some n =>
      rw [hend] at hshape
      have hstop := hat.stop (by rw [hshape]; exact Shape.noConfusion)
      have hnr := hat.lineNr
      have hlexeme := hafter.lexeme
      rw [hshape] at hstop hnr hlexeme
      refine ⟨n, rfl, ?_, hat.start, hstop, ?_, hnr⟩
      · rw [hat.klass, hshape]
        rfl
      · rw [hlexeme, hstop]
        rfl
  · intro e he
    cases hend : endAt isStringEnd (skipBlanks r).tail with
    | none => rfl
    | some n =>
      rw [hend] at hshape
      rw [hshape] at he
      exact he.elim

/-- **`next_token` reads a string literal as the grammar has it** exactly if
its body has no backslash and nothing is wrong with it. -/
theorem literalRead_iff (h : At s p r 0) (hprev : s.tokens ≠ [])
    (hquote : (skipBlanks r).head? = some 34) :
    LiteralRead s p r ↔ Unescaped (skipBlanks r).tail := by
  have hwp := nextToken_string h hprev hquote
  unfold LiteralRead Unescaped
  cases hclosing : closing (skipBlanks r).tail with
  | closed n lines =>
    refine ⟨?_, fun hplain => ?_⟩
    · rintro ⟨token, t, hrun, -, -, hstop, -⟩
      obtain ⟨m, hend, -, -, hstop', -⟩ := wp_ok hwp hrun
      obtain rfl : m = n := by omega
      exact noBackslash_of_endAt hclosing hend
    · obtain ⟨hend, rfl⟩ := endAt_of_closed hclosing hplain
      have hreturns : ∀ e : Exit, endAt isStringEnd (skipBlanks r).tail = none → False :=
        fun _ hnone => by rw [hend] at hnone; cases hnone
      obtain ⟨token, t, hrun, m, hm, hklass, hstart, hstop, hlexeme, hline⟩ :=
        wp_returns (wp_mono hwp (fun _ _ ht => ht) hreturns)
      obtain rfl : m = n := Option.some.inj (hm.symm.trans hend)
      exact ⟨token, t, hrun, hklass, hstart, hstop, hlexeme, hline⟩
  | bad =>
    refine ⟨?_, False.elim⟩
    rintro ⟨token, t, hrun, hklass⟩
    obtain ⟨m, -, hklass', -⟩ := wp_ok hwp hrun
    rw [hklass'] at hklass
    cases hklass
  | unclosed => exact Iff.rfl

/-- The state in which `lex_tokenize` reads the first token of a text. -/
def atFirst (text : List UInt8) : State :=
  { initial text (fun _ _ => 0) with tokens := [{ klass := .startOfInput }] }

/-- The text `"a"`. -/
theorem literalRead_one : LiteralRead (atFirst [34, 97, 34]) 0 [34, 97, 34] :=
  (literalRead_iff ⟨rfl, rfl, by decide, rfl, by decide⟩ (by decide) rfl).mpr
    (show 92 ∉ [97, 34] by decide)

/-- The text `"\n"` is one literal, and its first token is shorter. -/
theorem literalRead_fails : ¬ ∀ (s : State) (p : Nat) (r : List UInt8), At s p r 0 →
    s.tokens ≠ [] → (skipBlanks r).head? = some 34 → LiteralRead s p r := by
  intro h
  obtain ⟨token, t, hrun, -, -, hstop, -⟩ := h (atFirst [34, 92, 110, 34]) 0 [34, 92, 110, 34]
    ⟨rfl, rfl, by decide, rfl, by decide⟩ (by decide) rfl
  obtain ⟨token', t', hrun', hstop'⟩ : ∃ token t, nextToken (atFirst [34, 92, 110, 34]) =
      .ok (token, t) ∧ token.stop = 2 := ⟨_, _, rfl, rfl⟩
  rw [hrun'] at hrun
  obtain rfl := (Prod.mk.inj (Except.ok.inj hrun)).1
  rw [hstop'] at hstop
  cases hstop

end Dp4c.Lex
