import Dp4c.Lex.Cursor

/-! # What `lexeme_to_cstring` returns

The terminator goes behind as many characters as the lexeme has. An escape is decoded to
one character less than that, so what the memory held shows between the last decoded
character and the terminator; and a backslash at the end of the lexeme takes the character
behind it along. -/
namespace Dp4c.Lex

open Dp4c.Lib Dp4c.Lib.Prog

variable {s : State} {E : Exit → Prop}

/-- The decoding of characters: an escape is the character it stands for. -/
def unescape : List UInt8 → List UInt8
  | [] => []
  | [c] => [c]
  | c :: c' :: l => if c = 92 then escapeChar c' :: unescape l else c :: unescape (c' :: l)

/-- The characters of a lexeme. -/
def State.chars (s : State) (lexeme : Lexeme) : List UInt8 :=
  (s.text.drop lexeme.start).take (lexemeLen lexeme)

/-- A lexeme of the text, which holds no NUL. -/
structure State.Within (s : State) (lexeme : Lexeme) : Prop where
  start : lexeme.start ≤ lexeme.last
  last : lexeme.last < s.textSize
  size : s.textSize < s.text.length
  noNul : 0 ∉ s.chars lexeme

/-- Whatever the memory held, `lexeme_to_cstring` returns the decoded lexeme; a text that is
cut off behind the lexeme, or goes on in another way, makes no difference. -/
def Decodes (s : State) (lexeme : Lexeme) : Prop :=
  ∀ memory text, text.take (lexeme.last + 1) = s.text.take (lexeme.last + 1) →
    ∃ string t, lexemeToCstring lexeme { s with memory := memory, text := text } = .ok (string, t) ∧
      string.bytes = unescape (s.chars lexeme)

/-! ## The decoding -/

theorem unescape_plain : ∀ {l : List UInt8}, 92 ∉ l → unescape l = l
  | [], _ => rfl
  | [_], _ => rfl
  | c :: c' :: l, h => by
    simp only [List.mem_cons, not_or] at h
    have ih : unescape (c' :: l) = c' :: l := unescape_plain (by simpa using h.2)
    rw [unescape, if_neg (Ne.symm h.1), ih]

theorem escapeChar_ne_zero {c : UInt8} (h : c ≠ 0) : escapeChar c ≠ 0 := by
  unfold escapeChar
  split_ifs <;> first | decide | exact h

theorem unescape_noNul : ∀ {l : List UInt8}, 0 ∉ l → 0 ∉ unescape l
  | [], h => h
  | [_], h => h
  | c :: c' :: l, h => by
    simp only [List.mem_cons, not_or] at h
    rw [unescape]
    split
    · have ih := unescape_noNul h.2.2
      have hc := escapeChar_ne_zero (Ne.symm h.2.1)
      simp [ih, Ne.symm hc]
    · have ih : 0 ∉ unescape (c' :: l) := unescape_noNul (by simpa using h.2)
      simp [ih, h.1]

theorem length_unescape_le : ∀ l, (unescape l).length ≤ l.length
  | [] => Nat.le_refl _
  | [_] => Nat.le_refl _
  | c :: c' :: l => by
    rw [unescape]
    split
    · have ih := length_unescape_le l
      simp only [List.length_cons]
      omega
    · have ih := length_unescape_le (c' :: l)
      simp only [List.length_cons] at ih ⊢
      omega

/-! ## The loop of `lexeme_copy` -/

/-- Without a backslash the characters are copied, and none behind them is read. -/
theorem wp_copyFrom_plain {last : Nat} {post : List UInt8} :
    ∀ {l : List UInt8} {src fuel : Nat}, l ≠ [] → 92 ∉ l → s.text.drop src = l ++ post →
      src + l.length = last + 1 → l.length ≤ fuel →
      wp (copyFrom last fuel src) s (fun w t => w = l ∧ t = s) E
  | [], _, _, hl, _, _, _, _ => absurd rfl hl
  | _ :: _, _, 0, _, _, _, _, hf => absurd hf (Nat.not_succ_le_zero _)
  | c :: l, src, fuel + 1, _, hplain, hd, hlast, hf => by
    have hc : s.text[src]? = some c := getElem?_of_drop (i := 0) hd (by simp)
    simp only [List.mem_cons, not_or] at hplain
    simp only [List.length_cons] at hlast hf
    unfold copyFrom
    rw [wp_bind, wp_charAt hc, if_neg (Ne.symm hplain.1)]
    simp only [wp_bind, wp_pure]
    cases l with
    | nil =>
      rw [if_neg (by simp only [List.length_nil] at hlast; omega)]
      exact ⟨rfl, rfl⟩
    | cons c' l =>
      have hdrop : s.text.drop (src + 1) = (c' :: l) ++ post := by
        rw [← List.drop_drop, hd]
        rfl
      rw [if_pos (by simp only [List.length_cons] at hlast; omega)]
      simp only [wp_bind]
      refine wp_mono (wp_copyFrom_plain (List.cons_ne_nil c' l) hplain.2 hdrop (by omega)
        (by omega)) ?_ fun _ h => h
      rintro w t ⟨rfl, rfl⟩
      exact ⟨rfl, rfl⟩

/-- Where the text ends with the lexeme, the loop decodes to fewer characters if there is a
backslash, or reads past the end. -/
theorem wp_copyFrom_cut {last : Nat} :
    ∀ {l : List UInt8} {src fuel : Nat}, l ≠ [] → s.text.drop src = l →
      src + l.length = last + 1 → l.length ≤ fuel →
      wp (copyFrom last fuel src) s
        (fun w t => w = unescape l ∧ t = s ∧ (92 ∈ l → w.length < l.length)) (fun _ => 92 ∈ l)
  | [], _, _, hl, _, _, _ => absurd rfl hl
  | _ :: _, _, 0, _, _, _, hf => absurd hf (Nat.not_succ_le_zero _)
  | [c], src, fuel + 1, _, hd, hlast, _ => by
    have hd' : s.text.drop src = [c] ++ [] := hd
    have hc : s.text[src]? = some c := getElem?_of_drop (i := 0) hd' (by simp)
    simp only [List.length_cons, List.length_nil] at hlast
    unfold copyFrom
    rw [wp_bind, wp_charAt hc]
    by_cases h92 : c = 92
    · rw [if_pos h92]
      simp only [wp_bind]
      have hout : s.text[src + 1]? = none := by
        rw [← List.getElem?_drop, hd]
        rfl
      refine wp_of_error (e := .fault) ?_ (by simp [h92])
      unfold charAt
      rw [hout]
    · rw [if_neg h92]
      simp only [wp_bind, wp_pure]
      rw [if_neg (by omega)]
      exact ⟨rfl, rfl, fun h => absurd (List.mem_singleton.mp h).symm h92⟩
  | c :: c' :: l, src, fuel + 1, _, hd, hlast, hf => by
    have hd' : s.text.drop src = (c :: c' :: l) ++ [] := by rw [hd, List.append_nil]
    have hc : s.text[src]? = some c := getElem?_of_drop (i := 0) hd' (by simp)
    have hc' : s.text[src + 1]? = some c' := getElem?_of_drop (i := 1) hd' (by simp)
    simp only [List.length_cons] at hlast hf
    unfold copyFrom
    rw [wp_bind, wp_charAt hc]
    by_cases h92 : c = 92
    · have hdrop : s.text.drop (src + 2) = l := by
        rw [← List.drop_drop, hd]
        rfl
      have hshorter := length_unescape_le l
      rw [if_pos h92]
      simp only [wp_bind]
      rw [wp_charAt hc']
      simp only [wp_pure]
      cases l with
      | nil =>
        rw [if_neg (by simp only [List.length_nil] at hlast; omega)]
        exact ⟨by rw [unescape, if_pos h92]; rfl, rfl, fun _ => by simp⟩
      | cons d l =>
        rw [if_pos (by simp only [List.length_cons] at hlast; omega)]
        simp only [wp_bind]
        refine wp_mono (wp_copyFrom_cut (List.cons_ne_nil d l) hdrop
          (by simp only [List.length_cons] at hlast ⊢; omega) (by omega)) ?_
          fun _ h => by simp [h]
        rintro w t ⟨rfl, rfl, -⟩
        refine ⟨by rw [unescape, if_pos h92], rfl, fun _ => ?_⟩
        simp only [List.length_cons] at hshorter ⊢
        omega
    · have hdrop : s.text.drop (src + 1) = c' :: l := by
        rw [← List.drop_drop, hd]
        rfl
      rw [if_neg h92]
      simp only [wp_bind, wp_pure]
      rw [if_pos (by omega)]
      simp only [wp_bind]
      refine wp_mono (wp_copyFrom_cut (List.cons_ne_nil c' l) hdrop
        (by simp only [List.length_cons]; omega) (by simpa using hf)) ?_
        fun _ h => List.mem_cons_of_mem _ h
      rintro w t ⟨rfl, rfl, hlt⟩
      refine ⟨by rw [unescape, if_neg h92], rfl, fun h => ?_⟩
      have := hlt ((List.mem_cons.mp h).resolve_left (Ne.symm h92))
      simp only [List.length_cons] at this ⊢
      omega

/-! ## The string -/

/-- A text that is the same up to the end of the lexeme has the lexeme. -/
theorem State.Within.drop {lexeme : Lexeme} (h : s.Within lexeme) {text : List UInt8}
    (htext : text.take (lexeme.last + 1) = s.text.take (lexeme.last + 1)) :
    text.drop lexeme.start = s.chars lexeme ++ text.drop (lexeme.last + 1) := by
  have hstart := h.start
  have hlen : lexemeLen lexeme = lexeme.last + 1 - lexeme.start := rfl
  have hchars : (text.drop lexeme.start).take (lexemeLen lexeme) = s.chars lexeme := by
    unfold State.chars
    rw [hlen, ← List.drop_take, ← List.drop_take, htext]
  have hrest : (text.drop lexeme.start).drop (lexemeLen lexeme) = text.drop (lexeme.last + 1) := by
    rw [List.drop_drop, hlen]
    congr 1
    omega
  rw [← hchars, ← hrest, List.take_append_drop]

/-- The loop has rounds enough for the lexeme. -/
theorem State.Within.fuel {lexeme : Lexeme} (h : s.Within lexeme) :
    lexeme.start + lexemeLen lexeme = lexeme.last + 1 ∧ 0 < lexemeLen lexeme ∧
      lexemeLen lexeme ≤ s.textSize + 1 := by
  have hstart := h.start
  have hlast := h.last
  unfold lexemeLen
  omega

theorem State.Within.length {lexeme : Lexeme} (h : s.Within lexeme) :
    (s.chars lexeme).length = lexemeLen lexeme := by
  have hlast := h.last
  have hsize := h.size
  have hstart := h.start
  unfold State.chars lexemeLen
  rw [List.length_take, List.length_drop]
  omega

theorem cstrOf_noNul {l : List UInt8} (h : 0 ∉ l) : (cstrOf l).bytes = l :=
  List.takeWhile_eq_self_iff.mpr fun c hc => by
    simpa using fun h0 : c = 0 => h (h0 ▸ hc)

/-- The string of a lexeme without a backslash. -/
theorem State.Within.plain {lexeme : Lexeme} (h : s.Within lexeme)
    (hplain : 92 ∉ s.chars lexeme) : Decodes s lexeme := by
  intro memory text htext
  have hd := h.drop htext
  have hlen := h.length
  obtain ⟨hend, hpos, hfuel⟩ := h.fuel
  have hwp : wp (lexemeToCstring lexeme) { s with memory := memory, text := text }
      (fun string _ => string.bytes = unescape (s.chars lexeme)) fun _ => False := by
    unfold lexemeToCstring lexemeCopy
    simp only [wp_bind]
    rw [wp_pushLexeme]
    simp only [wp_reads]
    refine wp_mono (wp_copyFrom_plain (List.ne_nil_of_length_pos (by omega)) hplain hd
      (by rw [hlen]; exact hend) (by rw [hlen]; exact hfuel)) ?_ fun _ h => h
    rintro w t ⟨rfl, rfl⟩
    simp only [wp_check, wp_pure]
    rw [if_pos (Nat.le_of_eq hlen), unescape_plain hplain, hlen, List.drop_eq_nil_of_le (by simp),
      List.append_nil]
    exact cstrOf_noNul h.noNul
  obtain ⟨string, t, hrun, hstring⟩ := wp_returns hwp
  exact ⟨string, t, hrun, hstring⟩

/-- **`lexeme_to_cstring`** returns the decoded lexeme exactly where there is nothing to
decode. -/
theorem decodes_iff {lexeme : Lexeme} (h : s.Within lexeme) :
    Decodes s lexeme ↔ 92 ∉ s.chars lexeme := by
  refine ⟨fun hdec hmem => ?_, h.plain⟩
  -- memory that holds no NUL, and a text that ends with the lexeme
  have htake : (s.text.take (lexeme.last + 1)).take (lexeme.last + 1) =
      s.text.take (lexeme.last + 1) := by rw [List.take_take, Nat.min_self]
  obtain ⟨string, t, hrun, hstring⟩ := hdec (fun _ _ => 255) _ htake
  have hcut : (s.text.take (lexeme.last + 1)).drop (lexeme.last + 1) = [] :=
    List.drop_eq_nil_of_le (by rw [List.length_take]; omega)
  have hd := h.drop htake
  rw [hcut, List.append_nil] at hd
  have hlen := h.length
  obtain ⟨hend, hpos, hfuel⟩ := h.fuel
  have hwp : wp (lexemeToCstring lexeme)
      { s with memory := fun _ _ => 255, text := s.text.take (lexeme.last + 1) }
      (fun string _ => string.bytes ≠ unescape (s.chars lexeme)) fun _ => True := by
    unfold lexemeToCstring lexemeCopy
    simp only [wp_bind]
    rw [wp_pushLexeme]
    simp only [wp_reads]
    refine wp_mono (wp_copyFrom_cut (List.ne_nil_of_length_pos (by omega)) hd
      (by rw [hlen]; exact hend) (by rw [hlen]; exact hfuel)) ?_ fun _ _ => trivial
    rintro w t ⟨rfl, rfl, hlt⟩
    simp only [wp_check, wp_pure]
    have hshort := hlt hmem
    rw [if_pos (by omega)]
    intro hbytes
    have hnoNul : 0 ∉ unescape (s.chars lexeme) ++ ((((List.range (lexemeLen lexeme + 1)).map
        fun _ => (255 : UInt8)).take (lexemeLen lexeme)).drop
            (unescape (s.chars lexeme)).length) := by
      rw [List.mem_append, not_or]
      refine ⟨unescape_noNul h.noNul, fun h0 => ?_⟩
      obtain ⟨_, _, h255⟩ := List.mem_map.mp (List.mem_of_mem_take (List.mem_of_mem_drop h0))
      exact absurd h255 (by decide)
    have hcount := congrArg List.length ((cstrOf_noNul hnoNul).symm.trans hbytes)
    simp only [List.length_append, List.length_drop, List.length_take, List.length_map,
      List.length_range] at hcount
    omega
  exact wp_ok hwp hrun hstring

/-- The text `"\n"`, of which the lexer makes the lexeme of its first two characters. -/
def cutEscape : State := { text := [34, 92, 110, 34, 0], textSize := 4, memory := fun _ _ => 0 }

theorem decodes_fails : cutEscape.Within ⟨0, 1⟩ ∧ ¬ Decodes cutEscape ⟨0, 1⟩ := by
  refine ⟨⟨by decide, by decide, by decide, by decide⟩, fun h => ?_⟩
  obtain ⟨string, t, hrun, hstring⟩ := h cutEscape.memory cutEscape.text rfl
  have hbytes : string.bytes = [34, 10] := by
    obtain rfl : (⟨[34, 10], by decide⟩ : Cstr) = string :=
      congrArg Prod.fst (Except.ok.inj hrun)
    rfl
  rw [hbytes] at hstring
  exact absurd hstring (by decide)

theorem decodes_word : Decodes { text := [98, 105, 116, 0], textSize := 3, memory := fun _ _ => 65 }
    ⟨0, 2⟩ :=
  (decodes_iff ⟨by decide, by decide, by decide, by decide⟩).mpr (by decide)

end Dp4c.Lex
