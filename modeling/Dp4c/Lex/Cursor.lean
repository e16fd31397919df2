import Dp4c.Lex.Shape

/-! # Reading the text

`At s q r k`: the lexeme starts at `q`, the rest of the text is `r` there, and
its last position is at offset `k` of the rest. Reading and advancing are
functions of the rest and the offset. -/
namespace Dp4c.Lex

open Dp4c.Lib Dp4c.Lib.Prog

structure At (s : State) (q : Nat) (r : List UInt8) (k : Nat) : Prop where
  text : s.text.drop q = r ++ [0]
  size : s.textSize = q + r.length
  noNul : 0 ∉ r
  lexeme : s.lexeme = ⟨q, q + k⟩
  le : k ≤ r.length

/-- The state with another last position. -/
def State.last (s : State) (last : Nat) : State :=
  { s with lexeme := { s.lexeme with last := last } }

variable {s t : State} {q k j : Nat} {r : List UInt8} {E : Exit → Prop}

theorem At.start (h : At s q r k) : s.lexeme.start = q := by rw [h.lexeme]

theorem At.last (h : At s q r k) : s.lexeme.last = q + k := by rw [h.lexeme]

/-- Only the text and the lexeme matter. -/
theorem At.congr (h : At s q r k) (htext : t.text = s.text) (hsize : t.textSize = s.textSize)
    (hlexeme : t.lexeme = s.lexeme) : At t q r k :=
  ⟨by rw [htext, h.text], by rw [hsize, h.size], h.noNul, by rw [hlexeme, h.lexeme], h.le⟩

theorem At.move (h : At s q r k) {k' : Nat} (hk : k' ≤ r.length) : At (s.last (q + k')) q r k' :=
  ⟨h.text, h.size, h.noNul, by rw [State.last, h.lexeme], hk⟩

theorem getElem?_append_nul (hk : k ≤ r.length) : (r ++ [0])[k]? = some (r.getD k 0) := by
  rcases Nat.lt_or_eq_of_le hk with hk | rfl
  · rw [List.getElem?_append_left hk, List.getD_eq_getElem?_getD, List.getElem?_eq_getElem hk]
    rfl
  · simp

theorem getD_of_le (hk : r.length ≤ k) : r.getD k 0 = 0 := by
  rw [List.getD_eq_getElem?_getD, List.getElem?_eq_none hk]
  rfl

theorem At.getElem? (h : At s q r k) (hj : j ≤ r.length) :
    s.text[q + j]? = some (r.getD j 0) := by
  rw [← List.getElem?_drop, h.text, getElem?_append_nul hj]

theorem wp_charAt {Q : UInt8 → State → Prop} {pos : Nat} {c : UInt8} (h : s.text[pos]? = some c) :
    wp (charAt pos) s Q E ↔ Q c s := by
  unfold wp charAt
  rw [h]

/-- A read at an offset that is still in the text. -/
theorem wp_charLookahead {Q : UInt8 → State → Prop} (h : At s q r k) (hj : k + j ≤ r.length) :
    wp (charLookahead j) s Q E ↔ Q (r.getD (k + j) 0) s := by
  unfold charLookahead checkPos
  simp only [wp_bind, wp_reads, wp_check, h.last]
  rw [if_pos (by rw [h.size]; omega)]
  exact wp_charAt (by rw [Nat.add_assoc, h.getElem? hj])

theorem wp_charAdvance {Q : UInt8 → State → Prop} (h : At s q r k) (hj : k + j ≤ r.length) :
    wp (charAdvance j) s Q E ↔ Q (r.getD (k + j) 0) (s.last (q + (k + j))) := by
  unfold charAdvance checkPos setLast
  simp only [wp_bind, wp_reads, wp_check, wp_modify, h.last]
  rw [if_pos (by rw [h.size]; omega), Nat.add_assoc]
  exact wp_charAt ((h.move hj).getElem? hj)

/-- The exit of a read past the end. -/
def pastEnd : Exit := .assertion "char_pos >= 0 && char_pos <= (text + text_size)"

theorem wp_charAdvance_stuck {Q : UInt8 → State → Prop} (h : At s q r k) (hk : k = r.length) :
    wp (charAdvance 1) s Q E ↔ E pastEnd := by
  unfold charAdvance checkPos
  simp only [wp_bind, wp_reads, wp_check, h.last]
  rw [if_neg (by rw [h.size]; omega)]
  rfl

theorem wp_charRetract {Q : Unit → State → Prop} (h : At s q r k) (hk : k = j + 1) :
    wp charRetract s Q E ↔ Q () (s.last (q + j)) := by
  subst hk
  unfold charRetract setLast
  simp only [wp_bind, wp_reads, wp_modify, h.last]
  rfl

theorem wp_lexemeAdvance {Q : Unit → State → Prop} (h : At s q r k) (hk : k < r.length) :
    wp lexemeAdvance s Q E ↔ Q () { s with lexeme := ⟨q + (k + 1), q + (k + 1)⟩ } := by
  unfold lexemeAdvance
  simp only [wp_bind, wp_reads, wp_modify, wp_check, h.last]
  rw [if_pos (by rw [h.size]; omega)]
  rfl

/-- The rest after the lexeme. -/
theorem At.advance (h : At s q r k) (hk : k < r.length) :
    At { s with lexeme := ⟨q + (k + 1), q + (k + 1)⟩ } (q + (k + 1)) (r.drop (k + 1)) 0 := by
  refine ⟨?_, ?_, fun hm => h.noNul (List.mem_of_mem_drop hm), rfl, Nat.zero_le _⟩
  · show s.text.drop (q + (k + 1)) = _
    rw [← List.drop_drop, h.text, List.drop_append_of_le_length (by omega)]
  · show s.textSize = _
    rw [h.size, List.length_drop]
    omega

/-- A part of the rest, and the character after it, in the text. -/
theorem At.slice (h : At s q r k) {i m : Nat} (him : i + m ≤ r.length) :
    ∃ post, s.text.drop (q + i) = (r.drop i).take m ++ r.getD (i + m) 0 :: post := by
  have hlt : i + m < (r ++ [0]).length := by simp; omega
  have hget : (r ++ [0])[i + m] = r.getD (i + m) 0 := by
    have hsome := getElem?_append_nul him
    rw [List.getElem?_eq_getElem hlt] at hsome
    exact Option.some.inj hsome
  have hcons := List.drop_eq_getElem_cons hlt
  rw [hget] at hcons
  refine ⟨(r ++ [0]).drop (i + m + 1), ?_⟩
  have htake : (r.drop i).take m = ((r ++ [0]).drop i).take m := by
    rw [List.drop_append_of_le_length (by omega),
      List.take_append_of_le_length (by rw [List.length_drop]; omega)]
  rw [← hcons, ← List.drop_drop, h.text, htake, ← List.drop_drop, List.take_append_drop]

/-! ## Runs of characters -/

theorem drop_eq_cons (hk : k < r.length) : r.drop k = r.getD k 0 :: r.drop (k + 1) := by
  rw [List.drop_eq_getElem_cons hk, List.getD_eq_getElem?_getD, List.getElem?_eq_getElem hk]
  rfl

/-- The length of the run after an offset. -/
def runLen (p : UInt8 → Bool) (r : List UInt8) (k : Nat) : Nat :=
  ((r.drop (k + 1)).takeWhile p).length

theorem runLen_le (p : UInt8 → Bool) (hk : k < r.length) : k + (runLen p r k + 1) ≤ r.length := by
  have h := (List.takeWhile_sublist p (l := r.drop (k + 1))).length_le
  rw [List.length_drop] at h
  unfold runLen
  omega

/-- A loop over characters that no NUL is among stops in the text. -/
theorem wp_advanceWhile {p : UInt8 → Bool} {Q : UInt8 → State → Prop} (hp : p 0 = false) :
    ∀ {fuel k : Nat} {s : State}, At s q r k → k < r.length → r.length - k < fuel →
      (wp (advanceWhile p fuel) s Q E ↔
        Q (r.getD (k + (runLen p r k + 1)) 0) (s.last (q + (k + (runLen p r k + 1)))))
  | 0, _, _, _, _, hf => absurd hf (Nat.not_lt_zero _)
  | fuel + 1, k, s, h, hk, hf => by
    unfold advanceWhile
    rw [wp_bind, wp_charAdvance h hk]
    by_cases hk' : k + 1 < r.length
    · have hdrop := drop_eq_cons hk'
      cases hd : p (r.getD (k + 1) 0) with
      | false =>
        have hlen : runLen p r k = 0 := by
          unfold runLen
          rw [hdrop, List.takeWhile_cons_of_neg (by rw [hd]; exact Bool.false_ne_true),
            List.length_nil]
        rw [hlen]
        rfl
      | true =>
        have hlen : runLen p r k = runLen p r (k + 1) + 1 := by
          unfold runLen
          rw [hdrop, List.takeWhile_cons_of_pos hd, List.length_cons]
        refine (wp_advanceWhile hp (h.move hk) hk' (by omega)).trans ?_
        have hoff : k + 1 + (runLen p r (k + 1) + 1) = k + (runLen p r k + 1) := by omega
        rw [hoff]
        rfl
    · have hlen : runLen p r k = 0 := by
        unfold runLen
        rw [List.drop_eq_nil_of_le (by omega), List.takeWhile_nil, List.length_nil]
      rw [hlen, getD_of_le (by omega), hp]
      rfl

/-- The end of the text stops every loop. -/
theorem wp_advanceWhile_stuck {p : UInt8 → Bool} {Q : UInt8 → State → Prop} {fuel : Nat}
    (h : At s q r k) (hk : k = r.length) (hf : 0 < fuel) :
    wp (advanceWhile p fuel) s Q E ↔ E pastEnd := by
  obtain ⟨fuel, rfl⟩ := Nat.exists_eq_add_of_lt hf
  rw [Nat.zero_add]
  unfold advanceWhile
  rw [wp_bind, wp_charAdvance_stuck h hk]

/-- The text left to a loop is less than its bound. -/
theorem At.fuel (h : At s q r k) : r.length - k < s.textSize + 2 := by
  rw [h.size]
  omega

/-! ## Strings of lexemes -/

theorem getElem?_of_drop {l post : List UInt8} {src i : Nat} (h : s.text.drop src = l ++ post)
    (hi : i < l.length) : s.text[src + i]? = l[i]? := by
  rw [← List.getElem?_drop, h, List.getElem?_append_left hi]

/-- `lexeme_copy` writes the decoded characters, and reads at most one past
them. -/
theorem wp_copyFrom {last : Nat} {next : UInt8} {post : List UInt8} :
    ∀ {l : List UInt8} {src fuel : Nat}, l ≠ [] → s.text.drop src = l ++ next :: post →
      src + l.length = last + 1 → l.length ≤ fuel →
      wp (copyFrom last fuel src) s (fun w t => w = decode next l ∧ t = s) E
  | [], _, _, hl, _, _, _ => absurd rfl hl
  | _ :: _, _, 0, _, _, _, hf => absurd hf (Nat.not_succ_le_zero _)
  | [c], src, fuel + 1, _, hd, hlast, _ => by
    have hc : s.text[src]? = some c := by
      have h := getElem?_of_drop (l := [c]) (i := 0) hd (by simp)
      exact h
    have hnext : s.text[src + 1]? = some next := by
      rw [← List.getElem?_drop, hd]
      rfl
    simp only [List.length_cons, List.length_nil] at hlast
    unfold copyFrom
    rw [wp_bind, wp_charAt hc]
    by_cases h92 : c = 92
    · rw [if_pos h92]
      simp only [wp_bind]
      rw [wp_charAt hnext]
      simp only [wp_pure]
      rw [if_neg (by omega)]
      exact ⟨by simp [decode, h92], rfl⟩
    · rw [if_neg h92]
      simp only [wp_bind, wp_pure]
      rw [if_neg (by omega)]
      exact ⟨by simp [decode, h92], rfl⟩
  | c :: c' :: l, src, fuel + 1, _, hd, hlast, hf => by
    have hc : s.text[src]? = some c := by
      have h := getElem?_of_drop (l := c :: c' :: l) (i := 0) hd (by simp)
      exact h
    have hc' : s.text[src + 1]? = some c' := by
      have h := getElem?_of_drop (l := c :: c' :: l) (i := 1) hd (by simp)
      exact h
    simp only [List.length_cons] at hlast hf
    unfold copyFrom
    rw [wp_bind, wp_charAt hc]
    by_cases h92 : c = 92
    · have hdrop : s.text.drop (src + 2) = l ++ next :: post := by
        rw [← List.drop_drop, hd]
        rfl
      rw [if_pos h92]
      simp only [wp_bind]
      rw [wp_charAt hc']
      simp only [wp_pure]
      have hdec : decode next (c :: c' :: l) = escapeChar c' :: decode next l := by
        rw [decode, if_pos h92]
      cases l with
      | nil =>
        rw [if_neg (by simp at hlast; omega)]
        exact ⟨hdec.symm, rfl⟩
      | cons d l =>
        rw [if_pos (by simp at hlast; omega)]
        simp only [wp_bind]
        refine wp_mono (wp_copyFrom (List.cons_ne_nil d l) hdrop (by simp at hlast ⊢; omega)
          (by omega)) ?_ fun _ h => h
        rintro w t ⟨rfl, rfl⟩
        exact ⟨hdec.symm, rfl⟩
    · have hdrop : s.text.drop (src + 1) = (c' :: l) ++ next :: post := by
        rw [← List.drop_drop, hd]
        rfl
      have hdec : decode next (c :: c' :: l) = c :: decode next (c' :: l) := by
        rw [decode, if_neg h92]
      rw [if_neg h92]
      simp only [wp_bind, wp_pure]
      rw [if_pos (by omega)]
      simp only [wp_bind]
      refine wp_mono (wp_copyFrom (List.cons_ne_nil c' l) hdrop
        (by simp only [List.length_cons]; omega) (by simpa using hf)) ?_ fun _ h => h
      rintro w t ⟨rfl, rfl⟩
      exact ⟨hdec.symm, rfl⟩

theorem length_decode_le (next : UInt8) : ∀ l, (decode next l).length ≤ l.length
  | [] => Nat.le_refl _
  | [c] => by by_cases h : c = 92 <;> simp [decode, h]
  | c :: c' :: l => by
    by_cases h : c = 92
    · have ih := length_decode_le next l
      simp [decode, h]
      omega
    · have ih := length_decode_le next (c' :: l)
      simp [decode, h] at ih ⊢
      omega

theorem wp_pushLexeme {Q : List UInt8 → State → Prop} {size : Nat} :
    wp (pushLexeme size) s Q E ↔
      Q ((List.range size).map (s.memory s.pushes)) { s with pushes := s.pushes + 1 } :=
  Iff.rfl

/-- **`lexeme_to_cstring`** decodes the lexeme over what the memory held. -/
theorem wp_lexemeToCstring {l post : List UInt8} {next : UInt8} {lexeme : Lexeme} (hl : l ≠ [])
    (hd : s.text.drop lexeme.start = l ++ next :: post)
    (hlast : lexeme.start + l.length = lexeme.last + 1) (hsize : l.length ≤ s.textSize) :
    wp (lexemeToCstring lexeme) s (fun string t => Spelled s.memory next l string ∧
      t = { s with pushes := s.pushes + 1 }) E := by
  have hlen : lexemeLen lexeme = l.length := by
    unfold lexemeLen
    omega
  unfold lexemeToCstring
  rw [hlen]
  unfold lexemeCopy
  simp only [wp_bind]
  rw [wp_pushLexeme]
  simp only [wp_reads]
  refine wp_mono (wp_copyFrom (s := { s with pushes := s.pushes + 1 }) hl hd hlast (by
    show l.length ≤ s.textSize + 1
    omega)) ?_ fun _ h => h
  rintro w t ⟨rfl, rfl⟩
  have hle := length_decode_le next l
  simp only [wp_check, wp_pure]
  rw [if_pos hle]
  refine ⟨⟨_, ?_, fun b hb => ?_, rfl⟩, trivial⟩
  · simp
    omega
  · obtain ⟨i, _, rfl⟩ := List.mem_map.mp (List.mem_of_mem_take (List.mem_of_mem_drop hb))
    exact ⟨s.pushes, i, rfl⟩

end Dp4c.Lex
