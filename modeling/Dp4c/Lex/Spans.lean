import Dp4c.Lex.Run

/-! # Where the tokens stand

The tokens of a text cover it from its first character to its end, with nothing
but blanks between them. -/
namespace Dp4c.Lex

open Dp4c.Lib Dp4c.Lib.Prog

/-- Only blanks stand from one position up to another. -/
def BlankBetween (text : List UInt8) (p q : Nat) : Prop :=
  ∀ c ∈ (text.take q).drop p, isBlank c = true

/-- The tokens cover the text from a position on. The last of them, and no
other, is the end of the input. -/
inductive Tiles (text : List UInt8) : Nat → List Token → Prop
  | last {p : Nat} {token : Token} : token.klass = .endOfInput → p ≤ token.start →
      token.start = text.length → token.stop = text.length → BlankBetween text p token.start →
      Tiles text p [token]
  | next {p : Nat} {token : Token} {tokens : List Token} : token.klass ≠ .endOfInput →
      p ≤ token.start → token.start < token.stop → token.stop ≤ text.length →
      BlankBetween text p token.start → Tiles text token.stop tokens →
      Tiles text p (token :: tokens)

variable {memory : Nat → Nat → UInt8} {prev : TokenClass} {line p : Nat} {r text : List UInt8}
  {token : Token} {tokens : List Token} {e : Exit}

theorem take_blanks (r : List UInt8) : r.take (blanks r) = r.takeWhile isBlank := by
  have h := List.takeWhile_append_dropWhile (p := isBlank) (l := r)
  calc r.take (blanks r) = (r.takeWhile isBlank ++ r.dropWhile isBlank).take (blanks r) := by rw [h]
    _ = r.takeWhile isBlank := List.take_left

theorem drop_blanks (r : List UInt8) : r.drop (blanks r) = skipBlanks r := by
  have h := List.takeWhile_append_dropWhile (p := isBlank) (l := r)
  calc r.drop (blanks r) = (r.takeWhile isBlank ++ r.dropWhile isBlank).drop (blanks r) := by rw [h]
    _ = skipBlanks r := List.drop_left

theorem blankBetween_blanks (hr : r = text.drop p) : BlankBetween text p (p + blanks r) := by
  intro c hc
  rw [List.drop_take, Nat.add_sub_cancel_left, ← hr, take_blanks] at hc
  exact List.mem_takeWhile_imp hc

/-- The rest after a token is the text from where the token stops. -/
theorem afterToken_eq (hr : r = text.drop p) :
    afterToken r = text.drop (p + blanks r + (nextShape r).len) := by
  have hskip : skipBlanks r = text.drop (p + blanks r) := by
    rw [← drop_blanks, hr, List.drop_drop]
  rw [afterToken, hskip, List.drop_drop]

theorem Lexed.tiles (h : Lexed memory prev line p r tokens) :
    0 ∉ r → r = text.drop p → p ≤ text.length → Tiles text p tokens := by
  induction h with
  | @last prev line p r token hat hend =>
    intro hnul hr hp
    have hnil : skipBlanks r = [] := (shape_fits (skipBlanks_noNul hnul)).ends hend
    have hadd := blanks_add r
    have hlen : r.length = text.length - p := by rw [hr, List.length_drop]
    have hstart := hat.start
    have hstop := hat.stop (by rw [hend]; exact Shape.noConfusion)
    rw [hnil, List.length_nil] at hadd
    rw [hend] at hstop
    refine .last (by rw [hat.klass, hend]; rfl) (by omega) (by omega) ?_ ?_
    · rw [hstop]
      show p + blanks r + 0 = _
      omega
    · rw [hstart]
      exact blankBetween_blanks hr
  | @next prev line p r token tokens hat hend hunk _ ih =>
    intro hnul hr hp
    have hnul' := skipBlanks_noNul hnul
    have hfit := shape_fits hnul'
    have hpos := hfit.pos hend hat.shape
    have hle := hfit.le
    have hadd := blanks_add r
    have hlen : r.length = text.length - p := by rw [hr, List.length_drop]
    have hstart := hat.start
    have hstop := hat.stop hunk
    have hshape : (shape (skipBlanks r)).len = (nextShape r).len := rfl
    have hafter : afterToken r = text.drop token.stop := by rw [hstop, afterToken_eq hr]
    have hle' : token.stop ≤ text.length := by omega
    refine .next ?_ (by omega) (by omega) hle' ?_ (ih (afterToken_noNul hnul) hafter hle')
    · rw [hat.klass]
      exact fun h => hend ((klass_endOfInput hnul' hat.shape).mp h)
    · rw [hstart]
      exact blankBetween_blanks hr

/-- A run ends in a diagnostic or in a failed assertion. -/
theorem Aborts.diagnosed (h : Aborts memory prev line p r e) :
    (∃ format line text, e = .error format line text) ∨ ∃ expr, e = .assertion expr := by
  induction h with
  | @fails prev line p r e hf =>
    cases hsh : nextShape r with
    | stuck => rw [hsh] at hf; exact .inr ⟨_, hf⟩
    | number n =>
      rw [hsh] at hf
      obtain ⟨str, _, hins⟩ := hf
      cases hins with
      | missing => exact .inl ⟨_, _, _, rfl⟩
      | bad => exact .inr ⟨_, rfl⟩
    | _ => rw [hsh] at hf; exact hf.elim
  | unknown => exact .inl ⟨_, _, _, rfl⟩
  | next _ _ _ _ ih => exact ih

/-- **`lex_tokenize` ends on every text, and its tokens cover the text.** A
read outside of the buffer and a loop without end are exits of their own, which
no run takes. -/
theorem tokenize_tiles (text : List UInt8) (memory : Nat → Nat → UInt8) (hnul : 0 ∉ text) :
    (∀ e, tokenize text memory = .error e →
      (∃ format line text, e = .error format line text) ∨ ∃ expr, e = .assertion expr) ∧
    ∀ tokens, tokenize text memory = .ok tokens →
      ∃ first rest, tokens = first :: rest ∧ first.klass = .startOfInput ∧ Tiles text 0 rest := by
  refine ⟨fun e he => (tokenize_error hnul he).diagnosed, fun tokens ht => ?_⟩
  obtain ⟨rest, rfl, hlexed⟩ := tokenize_ok hnul ht
  exact ⟨_, rest, rfl, rfl, hlexed.tiles hnul rfl (Nat.zero_le _)⟩

/-- A text of one token between blanks. -/
theorem tokenize_tiles_one : ∃ first rest,
    tokenize [32, 59, 10] (fun _ _ => 0) = .ok (first :: rest) ∧ Tiles [32, 59, 10] 0 rest := by
  have hrun : ∃ tokens, tokenize [32, 59, 10] (fun _ _ => 0) = .ok tokens := ⟨_, rfl⟩
  obtain ⟨tokens, ht⟩ := hrun
  obtain ⟨first, rest, rfl, _, htiles⟩ :=
    (tokenize_tiles [32, 59, 10] (fun _ _ => 0) (by decide)).2 tokens ht
  exact ⟨first, rest, ht, htiles⟩

/-- The classes, line numbers and first positions of the tokens of a text, over
memory that holds zeros. -/
def outline (text : List UInt8) : Option (List (TokenClass × Nat × Nat)) :=
  (tokenize text (fun _ _ => 0)).toOption.map (·.map fun t => (t.klass, t.lineNr, t.start))

theorem outline_tokens {l : List (TokenClass × Nat × Nat)} (h : outline text = some l) :
    ∃ tokens, tokenize text (fun _ _ => 0) = .ok tokens ∧
      tokens.map (fun t => (t.klass, t.lineNr, t.start)) = l :=
  ok_of_toOption h

end Dp4c.Lex
