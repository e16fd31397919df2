import Mathlib.Data.List.GetD
import Dp4c.Lex.Lexemes
import Dp4c.Lex.Forms
import Dp4c.Lex.Assertions

/-! # What stands around a token

A token is the same with a slash in the place of the blank behind it, and runs over the same
rest read the same tokens. -/
namespace Dp4c.Lex

open Dp4c.Lib Dp4c.Lib.Prog

/-! ## What stands behind a token -/

/-- The character behind a token is still the same, or a slash in the place of a blank. -/
def Stands (x y : UInt8) : Prop := y = x ∨ isBlank x = true ∧ y = 47

variable {x y c : UInt8} {l t t' r : List UInt8} {n : Number}

/-- Blanks and the slash go on with nothing but a comment. -/
theorem Stands.congr (h : Stands x y) (p : UInt8 → Bool)
    (hp : [32, 9, 10, 13, 47].all (p · == false) = true) : p y = p x := by
  have hblank := byte_cases (P := fun x => isBlank x = true → x ∈ [32, 9, 10, 13, 47])
    (by decide +kernel) x
  have hfalse {c : UInt8} (hc : c ∈ [32, 9, 10, 13, 47]) : p c = false :=
    eq_of_beq (List.all_eq_true.mp hp c hc)
  rcases h with rfl | ⟨hx, rfl⟩
  · rfl
  · rw [hfalse (by decide), hfalse (hblank hx)]

theorem Stands.eq_iff (h : Stands x y) {d : UInt8} (hd : d ∉ [32, 9, 10, 13, 47]) :
    y = d ↔ x = d := by
  have hcongr := h.congr (· == d) (List.all_eq_true.mpr fun c hc =>
    beq_iff_eq.mpr (beq_eq_false_iff_ne.mpr fun hcd => hd (hcd ▸ hc)))
  rw [← beq_iff_eq, ← beq_iff_eq (a := x), hcongr]

theorem Stands.digit (h : Stands x y) (base : Base) :
    isDigitOrUnderscore base y = isDigitOrUnderscore base x :=
  h.congr _ (by cases base <;> decide)

/-- A run that ends with the token ends there still. -/
theorem takeWhile_stands {p : UInt8 → Bool} (hp : p y = p x) :
    ∀ {l : List UInt8}, ((l ++ x :: t).takeWhile p).length ≤ l.length →
      (l ++ y :: t').takeWhile p = (l ++ x :: t).takeWhile p
  | [], hlen => by
    cases hx : p x with
    | false => simp [hx, hp]
    | true => simp [hx] at hlen
  | c :: l, hlen => by
    rw [List.cons_append, List.cons_append, List.takeWhile_cons, List.takeWhile_cons]
    rw [List.cons_append, List.takeWhile_cons] at hlen
    cases hc : p c with
    | false => rfl
    | true =>
      rw [hc, if_pos rfl, List.length_cons, List.length_cons] at hlen
      rw [if_pos rfl, if_pos rfl, takeWhile_stands hp (Nat.le_of_succ_le_succ hlen)]

/-- The character behind the first one. -/
theorem getD_one_stands (h : Stands x y) (l : List UInt8) {d : UInt8}
    (hd : d ∉ [32, 9, 10, 13, 47]) :
    (c :: (l ++ y :: t')).getD 1 0 = d ↔ (c :: (l ++ x :: t)).getD 1 0 = d := by
  cases l with
  | nil => exact h.eq_iff hd
  | cons e l => exact Iff.rfl

theorem prefixOf_stands (h : Stands x y) (hl : l ≠ []) :
    prefixOf (l ++ y :: t') = prefixOf (l ++ x :: t) := by
  obtain ⟨c, l, rfl⟩ := List.exists_cons_of_ne_nil hl
  have hget {d : UInt8} (hd : d ∉ [32, 9, 10, 13, 47]) :
      (c :: (l ++ y :: t')).getD 1 0 = d ↔ (c :: (l ++ x :: t)).getD 1 0 = d :=
    getD_one_stands h l hd
  unfold prefixOf
  simp only [List.cons_append, List.headD_cons]
  simp (disch := decide) only [hget]

/-! ## Numbers -/

theorem numberAt_of_drop {width : Option (Nat × Bool)} {base : Base} {k : Nat} (p : UInt8 → Bool)
    (h : r.drop k = c :: l) :
    numberAt r width base k p = .number ⟨width, base, k, (l.takeWhile p).length + 1⟩ := by
  unfold numberAt
  rw [h]

theorem numberShape_eq (h : NumberOf r n) : numberShape r = .number n := by
  unfold numberShape
  cases h with
  | decimal hnone hmark =>
    rw [hnone]
    exact if_neg hmark
  | radix hsome hdrop =>
    rw [hsome]
    exact numberAt_of_drop _ hdrop
  | sized hnone hmark hnone' hdrop =>
    rw [hnone]
    refine (if_pos hmark).trans ?_
    unfold widthShape
    rw [hnone']
    exact numberAt_of_drop _ hdrop
  | sizedRadix hnone hmark hsome hdrop =>
    rw [hnone]
    refine (if_pos hmark).trans ?_
    unfold widthShape
    rw [hsome]
    exact numberAt_of_drop _ hdrop

theorem decimalLen_stands (h : Stands x y) (hl : l ≠ [])
    (hle : decimalLen (l ++ x :: t) ≤ l.length) (t' : List UInt8) :
    decimalLen (l ++ y :: t') = decimalLen (l ++ x :: t) := by
  obtain ⟨c, l, rfl⟩ := List.exists_cons_of_ne_nil hl
  unfold decimalLen
  exact congrArg (·.length + 1) (takeWhile_stands (h.congr _ (by decide))
    (Nat.le_of_succ_le_succ hle))

/-- The digits of the token, and what is behind it. -/
theorem drop_token {k : Nat} (hk : k < l.length) (r : List UInt8) :
    (l ++ r).drop k = l.getD k 0 :: (l.drop (k + 1) ++ r) := by
  rw [List.drop_append_of_le_length (Nat.le_of_lt hk), drop_eq_cons hk, List.cons_append]

theorem run_stands {p : UInt8 → Bool} {k : Nat} {r : List UInt8} (hp : p y = p x)
    (hk : k < l.length) (hdrop : (l ++ x :: t).drop k = c :: r)
    (hlen : k + ((r.takeWhile p).length + 1) = l.length) (t' : List UInt8) :
    ∃ r', (l ++ y :: t').drop k = c :: r' ∧ r'.takeWhile p = r.takeWhile p := by
  rw [drop_token hk] at hdrop
  obtain ⟨rfl, rfl⟩ := List.cons.inj hdrop
  refine ⟨_, drop_token hk _, takeWhile_stands hp ?_⟩
  rw [List.length_drop]
  omega

/-- **A number** is read up to what stands behind it. -/
theorem NumberOf.stands (hof : NumberOf (l ++ x :: t) n) (h : Stands x y)
    (hlen : n.body + n.bodyLen = l.length) : NumberOf (l ++ y :: t') n := by
  have hten : cstrIsDigit y .ten = cstrIsDigit x .ten := h.congr (cstrIsDigit · .ten) (by decide)
  have hdrop {k : Nat} (hk : k < l.length) : prefixOf ((l ++ y :: t').drop k) =
      prefixOf ((l ++ x :: t).drop k) := by
    rw [List.drop_append_of_le_length (Nat.le_of_lt hk),
      List.drop_append_of_le_length (Nat.le_of_lt hk)]
    exact prefixOf_stands h fun hnil => by
      rw [List.drop_eq_nil_iff] at hnil
      omega
  have hget {k : Nat} (hk : k < l.length) (z : UInt8) (r : List UInt8) :
      (l ++ z :: r).getD k 0 = l.getD k 0 := by
    rw [List.getD_append _ _ _ _ hk]
  have hat (z : UInt8) (r : List UInt8) : (l ++ z :: r).getD l.length 0 = z := by
    rw [List.getD_append_right _ _ _ _ (Nat.le_refl _), Nat.sub_self]
    rfl
  cases hof with
  | decimal hnone hmark =>
    have hlen : decimalLen (l ++ x :: t) = l.length := (Nat.zero_add _).symm.trans hlen
    have hl : l ≠ [] := fun hnil => by
      rw [hnil] at hlen
      cases hlen
    have hdec := decimalLen_stands h hl (Nat.le_of_eq hlen) t'
    rw [hlen, hat, ← h.eq_iff (by decide), ← h.eq_iff (by decide)] at hmark
    rw [hlen, ← hlen, ← hdec]
    refine .decimal ((prefixOf_stands h hl).trans hnone) ?_
    rwa [hdec, hlen, hat]
  | radix hsome hdigits =>
    replace hlen : 2 + (_ + 1) = l.length := hlen
    have hk : 2 < l.length := by omega
    have hl : l ≠ [] := List.ne_nil_of_length_pos (by omega)
    obtain ⟨r', hr', hrun⟩ := run_stands (h.digit _) hk hdigits hlen t'
    rw [← hrun]
    exact .radix ((prefixOf_stands h hl).trans hsome) hr'
  | sized hnone hmark hnone' hdigits =>
    replace hlen : decimalLen (l ++ x :: t) + 1 + (_ + 1) = l.length := hlen
    have hk : decimalLen (l ++ x :: t) + 1 < l.length := by omega
    have hd : decimalLen (l ++ x :: t) < l.length := by omega
    have hl : l ≠ [] := List.ne_nil_of_length_pos (by omega)
    have hdec := decimalLen_stands h hl hd.le t'
    obtain ⟨r', hr', hrun⟩ := run_stands hten hk hdigits hlen t'
    rw [hget hd] at hmark
    rw [← hdec] at hr'
    rw [← hrun, hget hd x t, ← hget hd y t', ← hdec]
    refine .sized ((prefixOf_stands h hl).trans hnone) ?_ ?_ hr'
    · rwa [hdec, hget hd]
    · rw [hdec, hdrop hk, hnone']
  | sizedRadix hnone hmark hsome hdigits =>
    replace hlen : decimalLen (l ++ x :: t) + 3 + (_ + 1) = l.length := hlen
    have hk : decimalLen (l ++ x :: t) + 3 < l.length := by omega
    have hd : decimalLen (l ++ x :: t) < l.length := by omega
    have hl : l ≠ [] := List.ne_nil_of_length_pos (by omega)
    have hdec := decimalLen_stands h hl hd.le t'
    obtain ⟨r', hr', hrun⟩ := run_stands (h.digit _) hk hdigits hlen t'
    rw [hget hd] at hmark
    rw [← hdec] at hr'
    rw [← hrun, hget hd x t, ← hget hd y t', ← hdec]
    refine .sizedRadix ((prefixOf_stands h hl).trans hnone) ?_ ?_ hr'
    · rwa [hdec, hget hd]
    · rw [hdec, hdrop (by omega), hsome]

/-! ## The other tokens -/

theorem second_stands (h : Stands x y) {klass : TokenClass} {d : UInt8}
    (hd : d ∉ [32, 9, 10, 13, 47]) {rest rest' : Shape} (hrest : rest' = rest) :
    secondShape (c :: (l ++ y :: t')) d klass rest' =
      secondShape (c :: (l ++ x :: t)) d klass rest := by
  have hone : (c :: (l ++ y :: t')).getD 1 0 = d ↔ (c :: (l ++ x :: t)).getD 1 0 = d :=
    getD_one_stands h l hd
  unfold secondShape
  simp only [hone, hrest]

theorem word_stands (h : Stands x y) (hlen : (wordShape (c :: (l ++ x :: t))).len ≤ l.length + 1) :
    wordShape (c :: (l ++ y :: t')) = wordShape (c :: (l ++ x :: t)) := by
  unfold wordShape
  rw [List.tail_cons, List.tail_cons, takeWhile_stands (h.congr isWordChar (by decide))
    (Nat.le_of_succ_le_succ hlen)]

theorem ampersand_stands (h : Stands x y)
    (hlen : (ampersandShape (c :: (l ++ x :: t))).len = l.length + 1) :
    ampersandShape (c :: (l ++ y :: t')) = ampersandShape (c :: (l ++ x :: t)) := by
  have hone : (c :: (l ++ y :: t')).getD 1 0 = 38 ↔ (c :: (l ++ x :: t)).getD 1 0 = 38 :=
    getD_one_stands h l (by decide)
  unfold ampersandShape at hlen ⊢
  simp only [hone]
  by_cases htwo : (c :: (l ++ x :: t)).getD 1 0 = 38
  · rw [if_pos htwo, if_pos htwo]
    rw [if_pos htwo] at hlen
    cases l with
    | nil => split at hlen <;> cases hlen
    | cons d l =>
      have hthree : (d :: (l ++ y :: t')).getD 1 0 = 38 ↔ (d :: (l ++ x :: t)).getD 1 0 = 38 :=
        getD_one_stands h l (by decide)
      simp only [List.cons_append, List.getD_cons_succ] at hthree ⊢
      simp only [hthree]
  · rw [if_neg htwo, if_neg htwo]

theorem blockEnd_stands (h : blockEnd (l ++ t) = some l.length) (t' : List UInt8) :
    blockEnd (l ++ t') = some l.length := by
  have htake := blockEnd_take h
  rw [List.take_left] at htake
  exact blockEnd_append t' htake

theorem endAt_stands {p : UInt8 → Bool} (h : endAt p (l ++ t) = some l.length)
    (t' : List UInt8) : endAt p (l ++ t') = some l.length := by
  obtain ⟨a, d, b, heq, hlen, hd, ha⟩ := endAt_split h
  have hl : l = a ++ [d] := by
    have htake := congrArg (List.take l.length) heq
    rwa [List.take_left, hlen, take_split] at htake
  rw [hl, List.append_assoc, List.singleton_append, endAt_append hd t' ha, List.length_append]
  rfl

/-- A token of one slash has no comment behind it. -/
theorem slash_alone (h : (slashShape r).len = 1) : r.getD 1 0 ≠ 42 ∧ r.getD 1 0 ≠ 47 := by
  unfold slashShape at h
  split at h
  · cases hend : blockEnd (r.drop 2) <;> rw [hend] at h <;> cases h
  split at h
  · cases hend : endAt isNewline (r.drop 1) with
    | none => rw [hend] at h; cases h
    | some n =>
      have hpos := endAt_pos hend
      rw [hend] at h
      replace h : n + 1 = 1 := h
      omega
  · exact ⟨‹_›, ‹_›⟩

theorem slash_plain (h : (shape (47 :: t)).len = 1) : shape (47 :: t) = .plain .slash 1 := by
  obtain ⟨hstar, hslash⟩ := slash_alone (r := 47 :: t) h
  show slashShape (47 :: t) = _
  unfold slashShape
  rw [if_neg hstar, if_neg hslash]

theorem slash_stands (hl : y = x ∨ l ≠ [])
    (hlen : (slashShape (47 :: (l ++ x :: t))).len = l.length + 1) :
    slashShape (47 :: (l ++ y :: t')) = slashShape (47 :: (l ++ x :: t)) := by
  cases l with
  | nil =>
    obtain rfl : y = x := hl.resolve_right fun h => h rfl
    obtain ⟨hstar, hslash⟩ := slash_alone hlen
    unfold slashShape
    simp only [List.nil_append, List.getD_cons_succ, List.getD_cons_zero] at hstar hslash ⊢
    rw [if_neg hstar, if_neg hslash, if_neg hstar, if_neg hslash]
  | cons d l =>
    unfold slashShape at hlen ⊢
    simp only [List.cons_append, List.getD_cons_succ, List.getD_cons_zero, List.drop_succ_cons,
      List.drop_zero] at hlen ⊢
    by_cases h42 : d = 42
    · rw [if_pos h42] at hlen
      rw [if_pos h42, if_pos h42]
      cases hend : blockEnd (l ++ x :: t) with
      | none => rw [hend] at hlen; cases hlen
      | some n =>
        rw [hend] at hlen
        obtain rfl : n = l.length := Nat.add_right_cancel (m := 2) hlen
        rw [blockEnd_stands hend]
    rw [if_neg h42] at hlen
    rw [if_neg h42, if_neg h42]
    by_cases h47 : d = 47
    · rw [if_pos h47] at hlen
      rw [if_pos h47, if_pos h47]
      cases hend : endAt isNewline (d :: (l ++ x :: t)) with
      | none => rw [hend] at hlen; cases hlen
      | some n =>
        rw [hend] at hlen
        obtain rfl : n = (d :: l).length := Nat.add_right_cancel (m := 1) hlen
        rw [← List.cons_append, endAt_stands hend]
    · rw [if_neg h47, if_neg h47]

theorem string_stands (hlen : (stringShape (c :: (l ++ t))).len = l.length + 1)
    (t' : List UInt8) : stringShape (c :: (l ++ t')) = stringShape (c :: (l ++ t)) := by
  unfold stringShape at hlen ⊢
  rw [List.tail_cons] at hlen ⊢
  cases hend : endAt (fun c => c == 34 || c == 92) (l ++ t) with
  | none => rw [hend] at hlen; cases hlen
  | some n =>
    rw [hend] at hlen
    obtain rfl : n = l.length := Nat.succ.inj hlen
    rw [List.tail_cons, endAt_stands hend, hend]

theorem number_stands (h : Stands x y) (hl : l ≠ [])
    (hlen : (numberShape (l ++ x :: t)).len = l.length) :
    numberShape (l ++ y :: t') = numberShape (l ++ x :: t) := by
  rcases numberShape_cases (l ++ x :: t) with hstuck | ⟨n, hn⟩
  · rw [hstuck] at hlen
    exact absurd (List.length_eq_zero_iff.mp hlen.symm) hl
  · rw [hn] at hlen
    rw [hn, numberShape_eq ((numberOf_shape hn).stands h hlen)]

/-- **A token** is the same whatever stands behind it, unless a slash comes to stand behind a
slash. -/
theorem shape_stands (h : Stands x y) (hpos : l ≠ []) (hl : y = x ∨ l ≠ [47])
    (hlen : (shape (l ++ x :: t)).len = l.length) (t' : List UInt8) :
    shape (l ++ y :: t') = shape (l ++ x :: t) := by
  obtain ⟨c, l, rfl⟩ := List.exists_cons_of_ne_nil hpos
  rw [List.cons_append] at hlen ⊢
  rw [List.cons_append]
  unfold shape at hlen ⊢
  rw [List.headD_cons] at hlen ⊢
  rw [List.headD_cons]
  have hslash := dispatch_slash c
  generalize dispatch c = state at *
  cases state
  case s101 | s102 => exact second_stands h (by decide) (second_stands h (by decide) rfl)
  case s103 =>
    have hone : isWordChar ((c :: (l ++ y :: t')).getD 1 0) =
        isWordChar ((c :: (l ++ x :: t)).getD 1 0) := by
      cases l with
      | nil => exact h.congr isWordChar (by decide)
      | cons d l => rfl
    simp only [shapeFrom, hone] at hlen ⊢
    split
    · rw [if_pos ‹_›] at hlen
      exact word_stands h (Nat.le_of_eq hlen)
    · rfl
  case s116 =>
    obtain rfl := hslash rfl
    refine slash_stands (hl.imp_right fun hne hnil => hne ?_) hlen
    rw [hnil]
  case s117 | s118 | s120 => exact second_stands h (by decide) rfl
  case s119 => exact ampersand_stands h hlen
  case s200 => exact string_stands hlen _
  case s400 => exact number_stands h hpos hlen
  case s500 => exact word_stands h (Nat.le_of_eq hlen)
  all_goals rfl

/-! ## What a token says -/

variable {memory memory' : Nat → Nat → UInt8} {prev prev' : TokenClass} {line line' p p' : Nat}
  {r' : List UInt8} {token token' : Token} {tokens tokens' : List Token}

theorem decode_concat (next c : UInt8) : ∀ {l : List UInt8}, 92 ∉ l →
    decode next (l ++ [c]) = l ++ [if c = 92 then escapeChar next else c]
  | [], _ => by
    rw [List.nil_append, List.nil_append, decode]
    split <;> rfl
  | [d], h => by
    have hd : d ≠ 92 := fun hd => h (hd ▸ List.mem_cons_self ..)
    rw [List.singleton_append, decode, if_neg hd, decode]
    split <;> rfl
  | d :: d' :: l, h => by
    rw [List.mem_cons, not_or] at h
    rw [List.cons_append, List.cons_append, decode, if_neg (Ne.symm h.1), ← List.cons_append,
      decode_concat next c h.2]
    rfl

/-- Only the last character of the lexeme can be a backslash. In a string it can be followed by
a blank. -/
structure Tight (s : List UInt8) (sh : Shape) : Prop where
  last : ∃ l c, s.take sh.len = l ++ [c] ∧ 92 ∉ l
  string : 92 ∈ s.take sh.len → isBlank (s.getD sh.len 0) = true → ∃ k, sh = .stringLiteral k

theorem concat_of_plain (hl : l ≠ []) (h : 92 ∉ l) : ∃ l' c, l = l' ++ [c] ∧ 92 ∉ l' :=
  ⟨l.dropLast, l.getLast hl, (List.dropLast_concat_getLast hl).symm,
    fun hmem => h (List.dropLast_subset l hmem)⟩

theorem tight_of_plain {s : List UInt8} {sh : Shape} (hle : sh.len ≤ s.length) (hpos : 0 < sh.len)
    (h : 92 ∉ s.take sh.len) : Tight s sh := by
  refine ⟨concat_of_plain (fun hnil => ?_) h, fun hmem => absurd hmem h⟩
  have hlen := congrArg List.length hnil
  rw [List.length_take, List.length_nil] at hlen
  omega

theorem blank_of_digit {base : Base} {c : UInt8}
    (h : isDigitOrUnderscore base (escapeChar c) = true) : isBlank c = false := by
  revert h
  cases base <;> exact byte_cases
    (P := fun c => isDigitOrUnderscore _ (escapeChar c) = true → isBlank c = false)
    (by decide +kernel) c

theorem number_tight {s : List UInt8} (hsh : shape s = .number n)
    (hle : n.body + n.bodyLen ≤ s.length) (hstarts : n.starts s = true)
    (hloose : n.loose s = false) : Tight s (.number n) := by
  obtain ⟨hof, hdigit⟩ := shape_number hsh
  obtain ⟨l, hl, hlen, hall⟩ := hof.digits_eq hdigit
  have hfront : 92 ∉ s.take n.body := fun hmem => by cases hof.front_chars hdigit 92 hmem
  have htake : s.take (Shape.number n).len = s.take n.body ++ s.getD n.body 0 :: l := by
    rw [← hl]
    exact take_body n s
  by_cases h92 : s.getD n.body 0 = 92
  · rw [Number.loose, h92, beq_self_eq_true, Bool.true_and, decide_eq_false_iff_not] at hloose
    obtain rfl : l = [] := List.length_eq_zero_iff.mp (by omega)
    refine ⟨⟨_, _, htake, hfront⟩, fun _ hblank => ?_⟩
    rw [Number.starts, Number.first, hl, h92] at hstarts
    exact absurd hblank (Bool.eq_false_iff.mp (blank_of_digit hstarts))
  · refine tight_of_plain hle (by rw [Shape.len, hlen]; omega) fun hmem => ?_
    rw [htake, List.mem_append, List.mem_cons] at hmem
    rcases hmem with hmem | hmem | hmem
    · exact hfront hmem
    · exact h92 hmem.symm
    · exact (not_mem_digits hall).1 hmem

/-- **Every token that is read**, but a comment. -/
theorem shape_tight {s : List UInt8} (hnul : 0 ∉ s) (hgo : goesOn s = true) (hsound : Sound s)
    (hcomment : (shape s).klass prev ≠ .comment) : Tight s (shape s) := by
  have hle := (shape_fits hnul).le
  unfold goesOn at hgo
  cases hsh : shape s with
  | endOfInput => rw [hsh] at hgo; cases hgo
  | unknown => rw [hsh] at hgo; cases hgo
  | stuck => rw [hsh] at hgo; cases hgo
  | blockComment => rw [hsh] at hcomment; exact absurd rfl hcomment
  | lineComment => rw [hsh] at hcomment; exact absurd rfl hcomment
  | minus =>
    obtain ⟨t, rfl⟩ := minus_inv hsh
    exact tight_of_plain (Nat.succ_le_succ (Nat.zero_le _)) Nat.one_pos
      (by show 92 ∉ [45]; decide)
  | stringLiteral =>
    obtain ⟨t, m, rfl, hend, rfl⟩ := string_inv hsh
    obtain ⟨a, d, b, rfl, rfl, -, ha⟩ := endAt_split hend
    refine ⟨⟨34 :: a, d, ?_, fun hmem => ?_⟩, fun _ _ => ⟨_, rfl⟩⟩
    · rw [Shape.len, List.take_succ_cons, take_split]
      rfl
    · rcases List.mem_cons.mp hmem with hmem | hmem
      · cases hmem
      · cases ha 92 hmem
  | number n =>
    rw [hsh] at hgo hle
    exact number_tight hsh hle hgo (hsound.2 n hsh hgo)
  | plain klass n =>
    have hform := (shape_formAt hnul klass n hsh).visible fun hk => by
      rw [hsh] at hcomment
      exact hcomment hk
    have hpos := (shape_fits hnul).pos (by rw [hsh]; exact Shape.noConfusion)
      (by rw [hsh]; exact Shape.noConfusion)
    rw [hsh] at hle hpos
    exact tight_of_plain hle hpos fun hmem => by cases hform.1 92 hmem

/-- The same token stands at two fronts, with the same character behind it or with none that
it needs. -/
structure SameFront (s s' : List UInt8) : Prop where
  shape : shape s' = shape s
  text : s'.take (Lex.shape s).len = s.take (Lex.shape s).len
  next : s'.getD (Lex.shape s).len 0 = s.getD (Lex.shape s).len 0 ∨
    92 ∉ s.take (Lex.shape s).len

variable {s s' : List UInt8} {sh : Shape}

theorem SameFront.refl (s : List UInt8) : SameFront s s := ⟨rfl, rfl, .inl rfl⟩

theorem Tight.length (h : Tight s sh) (next : UInt8) :
    (decode next (s.take sh.len)).length = (s.take sh.len).length := by
  obtain ⟨l, c, htake, hl⟩ := h.last
  rw [htake, decode_concat next c hl, List.length_append, List.length_append]
  rfl

theorem NumberOf.width_le (h : NumberOf r n) {w : Nat} {signed : Bool}
    (hw : n.width = some (w, signed)) : w ≤ n.body := by
  cases h with
  | decimal => cases hw
  | radix => cases hw
  | sized =>
    obtain ⟨rfl, -⟩ := Prod.mk.inj (Option.some.inj hw)
    exact Nat.le_succ _
  | sizedRadix =>
    obtain ⟨rfl, -⟩ := Prod.mk.inj (Option.some.inj hw)
    exact Nat.le_add_right _ 3

theorem digits_eq_drop (n : Number) (s : List UInt8) :
    n.digits s = (s.take (n.body + n.bodyLen)).drop n.body := by
  rw [List.drop_take, Nat.add_sub_cancel_left, Number.digits]

/-- A number is worth the same at both fronts. -/
theorem SameFront.installs (h : SameFront s s') (hn : Lex.shape s = .number n)
    {result : Except Exit Int} (hins : n.Installs memory s' result) :
    n.Installs memory s result := by
  obtain ⟨str, ⟨junk, hspelled⟩, hinst⟩ := hins
  have htext := h.text
  have hnext := h.next
  rw [hn] at htext hnext
  have hdigits : n.digits s' = n.digits s := by
    rw [digits_eq_drop, digits_eq_drop]
    exact congrArg (List.drop n.body) htext
  have hdecode : decode (s'.getD (n.body + n.bodyLen) 0) (n.digits s') =
      decode (s.getD (n.body + n.bodyLen) 0) (n.digits s) := by
    rw [hdigits]
    rcases hnext with hnext | hplain
    · exact congrArg (decode · _) hnext
    · have hplain : 92 ∉ n.digits s := fun hmem =>
        hplain (List.mem_of_mem_drop (digits_eq_drop n s ▸ hmem))
      rw [decode_plain hplain, decode_plain hplain]
  rw [hdecode, hdigits] at hspelled
  exact ⟨str, ⟨junk, hspelled⟩, hinst⟩

theorem SameFront.payload (h : SameFront s s') (hn : Lex.shape s = .number n) (v : Int) :
    n.payload s' v = n.payload s v := by
  have hwidth {w : Nat} {signed : Bool} (hw : n.width = some (w, signed)) :
      w ≤ (Shape.number n).len :=
    ((shape_number hn).1.width_le hw).trans (Nat.le_add_right _ _)
  have htext := h.text
  rw [hn] at htext
  unfold Number.payload
  split
  · rfl
  · rename_i w signed hw
    have htake : s'.take w = s.take w := by
      rw [← Nat.min_eq_left (hwidth hw), ← List.take_take, htext, List.take_take]
    rw [htake]

/-- **The same token** has the same string and the same value in every run. -/
theorem TokenAt.same (h : TokenAt memory prev line p r token) (hsound : Sound (skipBlanks r))
    (h' : TokenAt memory' prev' line' p' r' token')
    (hsame : SameFront (skipBlanks r) (skipBlanks r')) (htight : Tight (skipBlanks r) (nextShape r))
    (htext : (nextShape r).isText = true) :
    token'.lexeme = token.lexeme ∧ token'.i = token.i := by
  have hshape : nextShape r' = nextShape r := hsame.shape
  constructor
  · have hspelled := (h.string htext).tight (htight.length _)
    have hspelled' := h'.string (hshape ▸ htext)
    rw [hshape, show (skipBlanks r').take (nextShape r).len = _ from hsame.text] at hspelled'
    rw [hspelled, hspelled'.tight (htight.length _)]
    rcases hsame.next with hnext | hplain
    · exact congrArg (fun next => cstrOf (decode next _)) hnext
    · exact congrArg cstrOf ((decode_plain hplain).trans (decode_plain hplain).symm)
  · have hpayload := h.payload
    have hpayload' := h'.payload
    rw [hshape] at hpayload'
    cases hn : nextShape r with
    | number n =>
      rw [hn] at hpayload hpayload'
      obtain ⟨v, hins, hi⟩ := hpayload
      obtain ⟨v', hins', hi'⟩ := hpayload'
      obtain ⟨hof, hdigit⟩ := shape_number hn
      obtain ⟨w, hw⟩ := hof.value hdigit (h.starts hn) (hsound.2 n hn (h.starts hn))
      obtain rfl := Except.ok.inj (hw hins)
      obtain rfl := Except.ok.inj (hw (hsame.installs hn hins'))
      rw [hi, hi', hsame.payload hn]
    | _ =>
      rw [hn] at hpayload hpayload'
      exact hpayload'.trans hpayload.symm

/-! ## Runs over the same rest -/

/-- What the compiler gets of a token, but for its place in the text. -/
def said (token : Token) : TokenClass × Cstr × IntegerPayload :=
  (token.klass, token.lexeme, token.i)

/-- What it gets of the tokens that are no comments. -/
def speech (tokens : List Token) : List (TokenClass × Cstr × IntegerPayload) :=
  (spoken tokens).map said

/-- The token at the end of the input has its lexeme. -/
def EndMarked (tokens : List Token) : Prop :=
  ∀ last, tokens.getLast? = some last → last.lexeme = Cstr.ofString "<end-of-input>"

theorem speech_comment (h : token.klass = .comment) : speech (token :: tokens) = speech tokens := by
  unfold speech spoken
  rw [List.filter_cons_of_neg (by simpa using h)]

theorem speech_cons (h : token.klass ≠ .comment) :
    speech (token :: tokens) = said token :: speech tokens := by
  unfold speech spoken
  rw [List.filter_cons_of_pos (by simpa using h)]
  rfl

theorem speech_iff (hklass : token'.klass = token.klass) :
    speech (token' :: tokens') = speech (token :: tokens) ↔
      (token.klass ≠ .comment → said token' = said token) ∧ speech tokens' = speech tokens := by
  by_cases hcomment : token.klass = .comment
  · rw [speech_comment hcomment, speech_comment (hklass.trans hcomment)]
    exact ⟨fun h => ⟨fun hne => absurd hcomment hne, h⟩, And.right⟩
  · rw [speech_cons hcomment, speech_cons (hklass ▸ hcomment), List.cons_eq_cons]
    exact and_congr_left fun _ => (imp_iff_right hcomment).symm

theorem EndMarked.tail (h : EndMarked (token :: tokens))
    (hlexed : Lexed memory prev line p r tokens) : EndMarked tokens := fun last hlast => by
  refine h last ?_
  cases hlexed <;> rwa [List.getLast?_cons_cons]

theorem klass_congr (h : sh = .minus → (prev' = .parenthOpen ↔ prev = .parenthOpen)) :
    sh.klass prev' = sh.klass prev := by
  cases sh with
  | minus => rw [Shape.klass, Shape.klass, if_congr (h rfl) rfl rfl]
  | _ => rfl

theorem isText_of_goesOn (hend : nextShape r ≠ .endOfInput) (hunk : nextShape r ≠ .unknown)
    (hstuck : nextShape r ≠ .stuck) : (nextShape r).isText = true := by
  cases hsh : nextShape r with
  | endOfInput => exact absurd hsh hend
  | unknown => exact absurd hsh hunk
  | stuck => exact absurd hsh hstuck
  | _ => rfl

theorem afterToken_congr (h : skipBlanks r' = skipBlanks r) : afterToken r' = afterToken r := by
  rw [afterToken, afterToken, nextShape, nextShape, h]

theorem frontsFrom_congr (h : skipBlanks r' = skipBlanks r) (fuel : Nat) :
    frontsFrom fuel r' = frontsFrom fuel r := by
  cases fuel with
  | zero => rfl
  | succ fuel => rw [frontsFrom, frontsFrom, h, afterToken_congr h]

/-- All fronts of the rest are sound. -/
def AllSound (r : List UInt8) : Prop :=
  ∃ fuel, r.length < fuel ∧ ∀ s ∈ frontsFrom fuel r, Sound s

theorem AllSound.head (h : AllSound r) : Sound (skipBlanks r) := by
  obtain ⟨fuel, hfuel, hsound⟩ := h
  obtain ⟨fuel, rfl⟩ : ∃ k, fuel = k + 1 := ⟨fuel - 1, by omega⟩
  exact hsound _ (List.mem_cons_self ..)

theorem AllSound.tail (h : AllSound r) (hnul : 0 ∉ r) (hat : TokenAt memory prev line p r token)
    (hend : nextShape r ≠ .endOfInput) (hunk : nextShape r ≠ .unknown) :
    AllSound (afterToken r) := by
  obtain ⟨fuel, hfuel, hsound⟩ := h
  obtain ⟨fuel, rfl⟩ : ∃ k, fuel = k + 1 := ⟨fuel - 1, by omega⟩
  have hlt := afterToken_lt hnul hend hat.shape
  rw [frontsFrom_next (hat.goesOn hend hunk)] at hsound
  exact ⟨fuel, by omega, fun s hs => hsound s (List.mem_cons_of_mem _ hs)⟩

theorem TokenAt.tight (h : TokenAt memory prev line p r token) (hsound : Sound (skipBlanks r))
    (hnul : 0 ∉ r) (hend : nextShape r ≠ .endOfInput) (hunk : nextShape r ≠ .unknown)
    (hcomment : token.klass ≠ .comment) : Tight (skipBlanks r) (nextShape r) :=
  shape_tight (skipBlanks_noNul hnul) (h.goesOn hend hunk) hsound
    fun hklass => hcomment (h.klass.trans hklass)

/-- A token at a sound front is read in every run. -/
theorem TokenAt.not_fails (h : TokenAt memory prev line p r token) (hsound : Sound (skipBlanks r))
    (hshape : nextShape r' = nextShape r)
    (hsame : ∀ n, nextShape r = .number n → SameFront (skipBlanks r) (skipBlanks r')) {e : Exit} :
    ¬ Fails memory' (skipBlanks r') (nextShape r') e := by
  rw [hshape]
  cases hn : nextShape r with
  | stuck => exact absurd hn h.shape
  | number n =>
    intro hins
    obtain ⟨hof, hdigit⟩ := shape_number hn
    obtain ⟨w, hw⟩ := hof.value hdigit (h.starts hn) (hsound.2 n hn (h.starts hn))
    cases hw ((hsame n hn).installs hn hins)
  | _ => exact fun h => h

theorem Lexed.not_aborts (h : Lexed memory prev line p r tokens) :
    ∀ {prev' : TokenClass} {line' p' : Nat} {r' : List UInt8} {e : Exit}, AllSound r → 0 ∉ r →
      skipBlanks r' = skipBlanks r → ¬ Aborts memory' prev' line' p' r' e := by
  induction h with
  | last hat hend =>
    intro prev' line' p' r' e hsound _ heq haborts
    have hshape := congrArg shape heq
    cases haborts with
    | fails hfails => exact hat.not_fails hsound.head hshape (fun _ _ => heq ▸ .refl _) hfails
    | unknown _ hunk => cases (hshape.trans hend).symm.trans hunk
    | next _ hgo => exact hgo (hshape.trans hend)
  | next hat hend hunk _ ih =>
    intro prev' line' p' r' e hsound hnul heq haborts
    have hshape := congrArg shape heq
    cases haborts with
    | fails hfails => exact hat.not_fails hsound.head hshape (fun _ _ => heq ▸ .refl _) hfails
    | unknown _ hunk' => exact hunk (hshape.symm.trans hunk')
    | next _ _ _ hrest =>
      exact ih (hsound.tail hnul hat hend hunk) (afterToken_noNul hnul)
        (congrArg skipBlanks (afterToken_congr heq)) hrest

/-- **Runs over the same rest** give the same tokens, but for a minus sign at its front. -/
theorem Lexed.speech_eq (h : Lexed memory prev line p r tokens) :
    ∀ {prev' : TokenClass} {line' p' : Nat} {r' : List UInt8} {tokens' : List Token}, AllSound r →
      0 ∉ r → EndMarked tokens → skipBlanks r' = skipBlanks r →
      Lexed memory' prev' line' p' r' tokens' → EndMarked tokens' →
      (nextShape r = .minus → (prev' = .parenthOpen ↔ prev = .parenthOpen)) →
      speech tokens' = speech tokens := by
  induction h with
  | @last prev line p r token hat hend =>
    intro prev' line' p' r' tokens' hsound hnul hmark heq h' hmark' _
    have hshape : nextShape r' = .endOfInput := (congrArg shape heq).trans hend
    cases h' with
    | next _ hgo => exact absurd hshape hgo
    | @last _ _ _ _ token' hat' _ =>
      have hklass : token.klass = .endOfInput := hat.klass.trans (by rw [hend]; rfl)
      have hklass' : token'.klass = .endOfInput := hat'.klass.trans (by rw [hshape]; rfl)
      have hi := hat.payload
      have hi' := hat'.payload
      rw [hend] at hi
      rw [hshape] at hi'
      rw [speech_cons (by rw [hklass']; decide), speech_cons (by rw [hklass]; decide), said, said,
        hklass, hklass', hmark token rfl, hmark' token' rfl, show token.i = {} from hi,
        show token'.i = {} from hi']
  | @next prev line p r token tokens hat hend hunk hrest ih =>
    intro prev' line' p' r' tokens' hsound hnul hmark heq h' hmark' hminus
    have hshape : nextShape r' = nextShape r := congrArg shape heq
    cases h' with
    | last _ hend' => exact absurd (hshape.symm.trans hend') hend
    | @next _ _ _ _ token' tokens' hat' _ _ hrest' =>
      have hklass : token'.klass = token.klass := by
        rw [hat'.klass, hat.klass, hshape, klass_congr hminus]
      have hspeech := ih (hsound.tail hnul hat hend hunk)
        (afterToken_noNul hnul) (hmark.tail hrest) (congrArg skipBlanks (afterToken_congr heq))
        hrest' (hmark'.tail hrest') fun _ => by rw [hklass]
      refine (speech_iff hklass).mpr ⟨fun hcomment => ?_, hspeech⟩
      obtain ⟨hlexeme, hi⟩ := hat.same hsound.head hat' (heq ▸ .refl _)
        (hat.tight hsound.head hnul hend hunk hcomment) (isText_of_goesOn hend hunk hat.shape)
      rw [said, said, hklass, hlexeme, hi]

end Dp4c.Lex
