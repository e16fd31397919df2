import Dp4c.Lex.Digits

/-! # The loops inside comments, strings and blanks -/
namespace Dp4c.Lex

open Dp4c.Lib Dp4c.Lib.Prog

variable {s t : State} {q k : Nat} {r : List UInt8} {E : Exit → Prop}

/-! ## Runs up to a character -/

theorem endAt_pos {p : UInt8 → Bool} : ∀ {l : List UInt8} {n : Nat}, endAt p l = some n → 0 < n
  | c :: l, n, h => by
    unfold endAt at h
    split at h
    · obtain rfl := Option.some.inj h
      exact Nat.one_pos
    · obtain ⟨m, _, rfl⟩ := Option.map_eq_some_iff.mp h
      exact Nat.succ_pos m

theorem endAt_le {p : UInt8 → Bool} : ∀ {l : List UInt8} {n : Nat},
    endAt p l = some n → n ≤ l.length
  | c :: l, n, h => by
    unfold endAt at h
    split at h
    · obtain rfl := Option.some.inj h
      simp
    · obtain ⟨m, hm, rfl⟩ := Option.map_eq_some_iff.mp h
      have := endAt_le hm
      simpa using this

theorem endAt_cons_pos {p : UInt8 → Bool} {c : UInt8} {l : List UInt8} (h : p c = true) :
    endAt p (c :: l) = some 1 := by rw [endAt, if_pos h]

theorem endAt_cons_neg {p : UInt8 → Bool} {c : UInt8} {l : List UInt8} (h : p c = false) :
    endAt p (c :: l) = (endAt p l).map (· + 1) := by
  rw [endAt, if_neg (by rw [h]; exact Bool.false_ne_true)]

/-- A loop over characters that the NUL is among: it stops at the first other
one, and fails at the end of the text. -/
theorem wp_advanceUntil {p : UInt8 → Bool} (hp : p 0 = false) :
    ∀ {fuel k : Nat} {s : State}, At s q r k → r.length - k < fuel →
      wp (advanceWhile (fun c => !p c) fuel) s
        (fun c t => ∃ n, endAt p (r.drop (k + 1)) = some n ∧ c = r.getD (k + n) 0 ∧
          t = s.last (q + (k + n)))
        (fun e => endAt p (r.drop (k + 1)) = none ∧ e = pastEnd)
  | 0, _, _, _, hf => absurd hf (Nat.not_lt_zero _)
  | fuel + 1, k, s, h, hf => by
    unfold advanceWhile
    rw [wp_bind]
    by_cases hk : k < r.length
    · rw [wp_charAdvance h hk]
      by_cases hk' : k + 1 < r.length
      · have hdrop := drop_eq_cons hk'
        rw [hdrop]
        cases hd : p (r.getD (k + 1) 0) with
        | true =>
          rw [endAt_cons_pos hd]
          exact ⟨1, rfl, rfl, rfl⟩
        | false =>
          rw [endAt_cons_neg hd]
          refine wp_mono (wp_advanceUntil hp (h.move hk) (by omega)) ?_ ?_
          · rintro c t ⟨n, hn, rfl, rfl⟩
            refine ⟨n + 1, by rw [hn]; rfl, ?_, ?_⟩
            · rw [Nat.add_assoc, Nat.add_comm 1 n]
            · rw [Nat.add_assoc k, Nat.add_comm 1 n]
              rfl
          · rintro e ⟨hn, rfl⟩
            exact ⟨by rw [hn]; rfl, rfl⟩
      · have hget : r.getD (k + 1) 0 = 0 := getD_of_le (by omega)
        have hnil : r.drop (k + 1) = [] := List.drop_eq_nil_of_le (by omega)
        rw [hget, hp, hnil]
        refine wp_mono (wp_advanceUntil hp (h.move hk) (by omega)) ?_ ?_
        · rintro c t ⟨n, hn, _, _⟩
          rw [List.drop_eq_nil_of_le (by omega)] at hn
          cases hn
        · rintro e ⟨_, rfl⟩
          exact ⟨rfl, rfl⟩
    · have hnil : r.drop (k + 1) = [] := List.drop_eq_nil_of_le (by omega)
      rw [wp_charAdvance_stuck h (Nat.le_antisymm h.le (by omega)), hnil]
      exact ⟨rfl, rfl⟩

/-- The ends of the loop of state 200. -/
def isStringEnd (c : UInt8) : Bool := c == 34 || c == 92

theorem stringChar_done (c : UInt8) (state : LexState) :
    (stringChar c state).2 = isStringEnd c := by
  unfold stringChar isStringEnd isNewline
  by_cases h : c = 92
  · simp [h]
  · by_cases hn : (c == 10 || c == 13) = true
    · have hc : c = 10 ∨ c = 13 := by simpa using hn
      rcases hc with rfl | rfl <;> simp
    · simp [h, hn]

theorem wp_stringLoop : ∀ {fuel k : Nat} {s : State} {state : LexState}, At s q r k →
    r.length - k < fuel →
    wp (stringLoop fuel state) s
      (fun _ t => ∃ n, endAt isStringEnd (r.drop (k + 1)) = some n ∧ t = s.last (q + (k + n)))
      (fun e => endAt isStringEnd (r.drop (k + 1)) = none ∧ e = pastEnd)
  | 0, _, _, _, _, hf => absurd hf (Nat.not_lt_zero _)
  | fuel + 1, k, s, state, h, hf => by
    unfold stringLoop
    rw [wp_bind]
    by_cases hk : k < r.length
    · rw [wp_charAdvance h hk]
      have hdone := stringChar_done (r.getD (k + 1) 0) state
      generalize stringChar (r.getD (k + 1) 0) state = next at hdone ⊢
      obtain ⟨state', done⟩ := next
      simp only at hdone ⊢
      subst hdone
      by_cases hk' : k + 1 < r.length
      · have hdrop := drop_eq_cons hk'
        rw [hdrop]
        cases hd : isStringEnd (r.getD (k + 1) 0) with
        | true =>
          rw [endAt_cons_pos hd]
          exact ⟨1, rfl, rfl⟩
        | false =>
          rw [endAt_cons_neg hd]
          refine wp_mono (wp_stringLoop (h.move hk) (by omega)) ?_ ?_
          · rintro c t ⟨n, hn, rfl⟩
            refine ⟨n + 1, by rw [hn]; rfl, ?_⟩
            rw [Nat.add_assoc k, Nat.add_comm 1 n]
            rfl
          · rintro e ⟨hn, rfl⟩
            exact ⟨by rw [hn]; rfl, rfl⟩
      · have hget : r.getD (k + 1) 0 = 0 := getD_of_le (by omega)
        have hnil : r.drop (k + 1) = [] := List.drop_eq_nil_of_le (by omega)
        rw [hget, hnil]
        refine wp_mono (wp_stringLoop (h.move hk) (by omega)) ?_ ?_
        · rintro c t ⟨n, hn, _⟩
          rw [List.drop_eq_nil_of_le (by omega)] at hn
          cases hn
        · rintro e ⟨_, rfl⟩
          exact ⟨rfl, rfl⟩
    · have hnil : r.drop (k + 1) = [] := List.drop_eq_nil_of_le (by omega)
      rw [wp_charAdvance_stuck h (Nat.le_antisymm h.le (by omega)), hnil]
      exact ⟨rfl, rfl⟩

/-! ## Block comments -/

/-- The state with lines counted. -/
def State.lines (s : State) (n : Nat) : State := { s with lineNr := s.lineNr + n }

theorem At.lines (h : At s q r k) (n : Nat) : At (s.lines n) q r k := h.congr rfl rfl rfl

theorem breaks_cons_of_not {c : UInt8} (h : isNewline c = false) (l : List UInt8) :
    breaks (c :: l) = breaks l := by
  cases l with
  | nil => simp [breaks, h]
  | cons d l => simp [breaks, h]

theorem breaks_cons_single {c : UInt8} (h : isNewline c = true) {l : List UInt8}
    (hl : isPair c (l.headD 0) = false) : breaks (c :: l) = breaks l + 1 := by
  cases l with
  | nil => simp [breaks, h]
  | cons d l =>
    have hp : isPair c d = false := hl
    simp [breaks, h, hp]

theorem breaks_cons_pair {c d : UInt8} (h : isNewline c = true) (hp : isPair c d = true)
    (l : List UInt8) : breaks (c :: d :: l) = breaks l + 1 := by simp [breaks, h, hp]

theorem isPair_newline {c d : UInt8} (h : isNewline c = true) (hp : isPair c d = true) :
    isNewline d = true := by
  unfold isNewline isPair at *
  simp only [Bool.or_eq_true, beq_iff_eq, ← UInt8.toNat_inj] at *
  simp only [UInt8.reduceToNat] at *
  omega

theorem isPair_zero {c : UInt8} (h : isNewline c = true) : isPair c 0 = false := by
  unfold isNewline isPair at *
  simp only [Bool.or_eq_true, beq_iff_eq, ← UInt8.toNat_inj, beq_eq_false_iff_ne] at *
  simp only [UInt8.reduceToNat] at *
  omega

theorem isNewline_star : isNewline 42 = false := rfl

/-- Breaks after a character that is no half of one are counted apart. -/
theorem breaks_append {c : UInt8} (hc : isNewline c = false) :
    ∀ (l : List UInt8) (l' : List UInt8), breaks (l ++ c :: l') = breaks (l ++ [c]) + breaks l'
  | [], l' => by
    rw [List.nil_append, List.nil_append, breaks_cons_of_not hc, breaks_cons_of_not hc]
    simp [breaks]
  | [d], l' => by
    have ih := breaks_append hc [] l'
    simp only [List.nil_append] at ih
    by_cases hd : isNewline d = true
    · have hp : isPair d c = false := by
        cases hp : isPair d c
        · rfl
        · rw [isPair_newline hd hp] at hc
          cases hc
      show breaks (d :: c :: l') = breaks (d :: [c]) + breaks l'
      rw [breaks_cons_single hd (l := c :: l') hp, breaks_cons_single hd (l := [c]) hp, ih]
      omega
    · have hd : isNewline d = false := by simpa using hd
      show breaks (d :: c :: l') = breaks (d :: [c]) + breaks l'
      rw [breaks_cons_of_not hd, breaks_cons_of_not hd, ih]
  | d :: d' :: l, l' => by
    have ih := breaks_append hc (d' :: l) l'
    by_cases hd : isNewline d = true
    · by_cases hp : isPair d d' = true
      · show breaks (d :: d' :: (l ++ c :: l')) = breaks (d :: d' :: (l ++ [c])) + breaks l'
        rw [breaks_cons_pair hd hp, breaks_cons_pair hd hp, breaks_append hc l l']
        omega
      · have hp : isPair d d' = false := by simpa using hp
        show breaks (d :: d' :: (l ++ c :: l')) = breaks (d :: d' :: (l ++ [c])) + breaks l'
        rw [breaks_cons_single hd (l := d' :: (l ++ c :: l')) hp,
          breaks_cons_single hd (l := d' :: (l ++ [c])) hp]
        simp only [List.cons_append] at ih
        omega
    · have hd : isNewline d = false := by simpa using hd
      show breaks (d :: d' :: (l ++ c :: l')) = breaks (d :: d' :: (l ++ [c])) + breaks l'
      rw [breaks_cons_of_not hd, breaks_cons_of_not hd]
      exact ih

def isStar (c : UInt8) : Bool := c == 42

theorem State.lines_lines (s : State) (m n : Nat) : (s.lines m).lines n = s.lines (m + n) := by
  simp only [State.lines, Nat.add_assoc]

theorem wp_commentBreak {c : UInt8} {Q : UInt8 → State → Prop} (h : At s q r k)
    (hk : k < r.length) :
    wp (commentBreak c) s Q E ↔
      if isNewline c then
        if isPair c (r.getD (k + 1) 0) then Q (r.getD (k + 1) 0) ((s.last (q + (k + 1))).lines 1)
        else Q c (s.lines 1)
      else Q c s := by
  have hk1 : k + 1 ≤ r.length := hk
  unfold commentBreak
  split
  · simp only [wp_bind]
    rw [wp_charLookahead h hk1]
    split
    · simp only [wp_bind]
      rw [wp_charAdvance h hk1]
      rfl
    · rfl
  · rfl

theorem isStar_of_newline {c : UInt8} (h : isNewline c = true) : isStar c = false := by
  unfold isNewline at h
  simp only [Bool.or_eq_true, beq_iff_eq] at h
  rcases h with rfl | rfl <;> rfl

theorem ne_star {c : UInt8} : isStar c = false ↔ c ≠ 42 := by simp [isStar]

/-- The loop of state 310 reads up to the next star and counts the lines. -/
theorem wp_commentLoop : ∀ {fuel k : Nat} {s : State}, At s q r k → r.length - k < fuel →
    wp (commentLoop fuel) s
      (fun _ t => ∃ n, endAt isStar (r.drop (k + 1)) = some n ∧
        t = (s.lines (breaks ((r.drop (k + 1)).take n))).last (q + (k + n)))
      (fun e => endAt isStar (r.drop (k + 1)) = none ∧ e = pastEnd)
  | 0, _, _, _, hf => absurd hf (Nat.not_lt_zero _)
  | fuel + 1, k, s, h, hf => by
    unfold commentLoop
    simp only [wp_bind]
    by_cases hk : k + 1 < r.length
    · have h₁ : At (s.last (q + (k + 1))) q r (k + 1) := h.move (Nat.le_of_lt hk)
      have hdrop := drop_eq_cons hk
      rw [wp_charAdvance h (Nat.le_of_lt hk), wp_commentBreak h₁ hk, hdrop]
      generalize r.getD (k + 1) 0 = c at hdrop ⊢
      by_cases hnl : isNewline c = true
      · rw [if_pos hnl, endAt_cons_neg (isStar_of_newline hnl)]
        by_cases hp : isPair c (r.getD (k + 1 + 1) 0) = true
        · -- a two-character break is read at once
          have hk2 : k + 1 + 1 < r.length := by
            by_contra hk2
            rw [getD_of_le (by omega), isPair_zero hnl] at hp
            cases hp
          have hd := isPair_newline hnl hp
          have h₂ : At ((s.last (q + (k + 1 + 1))).lines 1) q r (k + 1 + 1) :=
            (h.move (Nat.le_of_lt hk2)).lines 1
          rw [if_pos hp, drop_eq_cons hk2, endAt_cons_neg (isStar_of_newline hd),
            if_pos (ne_star.mp (isStar_of_newline hd))]
          refine wp_mono (wp_commentLoop h₂ (by omega)) ?_ ?_
          · rintro _ t ⟨n, hn, rfl⟩
            refine ⟨n + 1 + 1, by rw [hn]; rfl, ?_⟩
            have hoff : q + (k + (n + 1 + 1)) = q + (k + 1 + 1 + n) := by omega
            rw [List.take_succ_cons, List.take_succ_cons, breaks_cons_pair hnl hp, hoff,
              Nat.add_comm (breaks _) 1, ← State.lines_lines]
            rfl
          · rintro e ⟨hn, rfl⟩
            exact ⟨by rw [hn]; rfl, rfl⟩
        · have hp : isPair c (r.getD (k + 1 + 1) 0) = false := by simpa using hp
          have h₂ : At ((s.last (q + (k + 1))).lines 1) q r (k + 1) := h₁.lines 1
          rw [if_neg (by rw [hp]; exact Bool.false_ne_true),
            if_pos (ne_star.mp (isStar_of_newline hnl))]
          refine wp_mono (wp_commentLoop h₂ (by omega)) ?_ ?_
          · rintro _ t ⟨n, hn, rfl⟩
            refine ⟨n + 1, by rw [hn]; rfl, ?_⟩
            have hhead : isPair c (((r.drop (k + 1 + 1)).take n).headD 0) = false := by
              cases n with
              | zero => exact isPair_zero hnl
              | succ n =>
                by_cases hlt : k + 1 + 1 < r.length
                · rw [drop_eq_cons hlt]
                  exact hp
                · rw [List.drop_eq_nil_of_le (by omega)]
                  exact isPair_zero hnl
            have hoff : q + (k + (n + 1)) = q + (k + 1 + n) := by omega
            rw [List.take_succ_cons, breaks_cons_single hnl hhead, hoff, Nat.add_comm (breaks _) 1,
              ← State.lines_lines]
            rfl
          · rintro e ⟨hn, rfl⟩
            exact ⟨by rw [hn]; rfl, rfl⟩
      · have hnl' : isNewline c = false := by simpa using hnl
        rw [if_neg hnl]
        by_cases hstar : c = 42
        · subst hstar
          rw [if_neg (by simp), endAt_cons_pos rfl]
          exact ⟨1, rfl, rfl⟩
        · rw [if_pos hstar, endAt_cons_neg (ne_star.mpr hstar)]
          refine wp_mono (wp_commentLoop h₁ (by omega)) ?_ ?_
          · rintro _ t ⟨n, hn, rfl⟩
            refine ⟨n + 1, by rw [hn]; rfl, ?_⟩
            have hoff : q + (k + (n + 1)) = q + (k + 1 + n) := by omega
            rw [List.take_succ_cons, breaks_cons_of_not hnl', hoff]
            rfl
          · rintro e ⟨hn, rfl⟩
            exact ⟨by rw [hn]; rfl, rfl⟩
    · -- the NUL is no star, and nothing can be read after it
      have hnil : r.drop (k + 1) = [] := List.drop_eq_nil_of_le (by omega)
      rw [hnil]
      by_cases hk' : k < r.length
      · have hk1 : k + 1 ≤ r.length := hk'
        have hbreak : commentBreak 0 = pure 0 := rfl
        rw [wp_charAdvance h hk1, getD_of_le (by omega), hbreak, wp_pure, if_pos (by decide)]
        refine wp_mono (wp_commentLoop (h.move hk1) (by omega)) ?_ ?_
        · rintro c t ⟨n, hn, _⟩
          rw [List.drop_eq_nil_of_le (by omega)] at hn
          cases hn
        · rintro e ⟨_, rfl⟩
          exact ⟨rfl, rfl⟩
      · rw [wp_charAdvance_stuck h (Nat.le_antisymm h.le (by omega))]
        exact ⟨rfl, rfl⟩

end Dp4c.Lex
