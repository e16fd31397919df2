import Dp4c.Lex.Integers
import Dp4c.Lex.Fronts

/-! # The forms of the tokens

The words, operators, comments and integer literals of the language, and the
longest of them at the front of a rest. -/
namespace Dp4c.Lex

open Dp4c.Lib Dp4c.Lib.Prog

/-- The operators with their classes. -/
def operators : List (TokenClass × List UInt8) :=
  [(.semicolon, [59]), (.angleOpen, [60]), (.angleOpenEqual, [60, 61]), (.twoAngleOpen, [60, 60]),
    (.angleClose, [62]), (.angleCloseEqual, [62, 61]), (.twoAngleClose, [62, 62]), (.colon, [58]),
    (.parenthOpen, [40]), (.parenthClose, [41]), (.dotPrefix, [46]), (.braceOpen, [123]),
    (.braceClose, [125]), (.bracketOpen, [91]), (.bracketClose, [93]), (.comma, [44]),
    (.minus, [45]), (.plus, [43]), (.star, [42]), (.slash, [47]), (.equal, [61]),
    (.twoEqual, [61, 61]), (.exclamation, [33]), (.exclamationEqual, [33, 61]),
    (.ampersand, [38]), (.twoAmpersand, [38, 38]), (.threeAmpersand, [38, 38, 38]),
    (.pipe, [124]), (.twoPipe, [124, 124]), (.circumflex, [94]), (.tilda, [126])]

def isWordStart (c : UInt8) : Bool := cstrIsLetter c || c == 95

/-- A prefix and a run of the digits of its base and underscores. -/
inductive RadixForm : List UInt8 → Prop
  | mk {c : UInt8} {base : Base} {l : List UInt8} : (c, base) ∈ radixMarks → l ≠ [] →
      (∀ d ∈ l, isDigitOrUnderscore base d = true) → RadixForm (48 :: c :: l)

inductive IntegerForm : List UInt8 → Prop
  | radix {l : List UInt8} : RadixForm l → IntegerForm l
  | decimal {l : List UInt8} : l ≠ [] → (∀ c ∈ l, cstrIsDigit c .ten = true) → IntegerForm l
  | sizedRadix {w l : List UInt8} {mark : UInt8} : w ≠ [] → (∀ c ∈ w, cstrIsDigit c .ten = true) →
      mark = 119 ∨ mark = 115 → RadixForm l → IntegerForm (w ++ mark :: l)
  | sized {w l : List UInt8} {mark c : UInt8} : w ≠ [] → (∀ c ∈ w, cstrIsDigit c .ten = true) →
      mark = 119 ∨ mark = 115 → isDigitOrUnderscore .ten c = true →
      (∀ c ∈ l, cstrIsDigit c .ten = true) → IntegerForm (w ++ mark :: c :: l)

/-- The texts of the tokens of a class. -/
inductive Form : TokenClass → List UInt8 → Prop
  | operator {klass : TokenClass} {l : List UInt8} : (klass, l) ∈ operators → Form klass l
  | dontcare : Form .dontcare [95]
  | word {c : UInt8} {l : List UInt8} : isWordStart c = true → (∀ d ∈ l, isWordChar d = true) →
      c :: l ≠ [95] → Form .identifier (c :: l)
  | blockComment {l : List UInt8} : blockEnd l = some l.length → Form .comment (47 :: 42 :: l)
  | lineComment {l : List UInt8} {d : UInt8} : (∀ c ∈ l, isNewline c = false) →
      isNewline d = true → Form .comment (47 :: 47 :: (l ++ [d]))
  | integer {l : List UInt8} : IntegerForm l → Form .integer l

/-- The longest form at the front of a rest. -/
structure Munch (r : List UInt8) (klass : TokenClass) (n : Nat) : Prop where
  le : n ≤ r.length
  form : Form klass (r.take n)
  longest : ∀ {klass' m}, m ≤ r.length → Form klass' (r.take m) → m ≤ n

variable {r l t : List UInt8} {n : Number} {klass : TokenClass}

/-! ## No form is longer than the token -/

theorem blockEnd_append : ∀ {l : List UInt8} {n : Nat} (t : List UInt8), blockEnd l = some n →
    blockEnd (l ++ t) = some n
  | c :: c' :: l, n, t, h => by
    rw [List.cons_append, List.cons_append, blockEnd]
    rw [blockEnd] at h
    split at h
    · rename_i hc
      rw [if_pos hc, h]
    · rename_i hc
      obtain ⟨m, hm, rfl⟩ := Option.map_eq_some_iff.mp h
      rw [if_neg hc, ← List.cons_append, blockEnd_append t hm]
      rfl

theorem endAt_append {p : UInt8 → Bool} {d : UInt8} (hd : p d = true) :
    ∀ {l : List UInt8} (t : List UInt8), (∀ c ∈ l, p c = false) →
      endAt p (l ++ d :: t) = some (l.length + 1)
  | [], t, _ => endAt_cons_pos hd
  | c :: l, t, h => by
    rw [List.cons_append, endAt_cons_neg (h c (List.mem_cons_self ..)),
      endAt_append hd t fun x hx => h x (List.mem_cons_of_mem _ hx)]
    rfl

theorem takeWhile_ge {p : UInt8 → Bool} (h : ∀ c ∈ l, p c = true) (t : List UInt8) :
    l.length ≤ ((l ++ t).takeWhile p).length := by
  rw [List.takeWhile_append_of_pos h, List.length_append]
  exact Nat.le_add_right _ _

theorem dispatch_wordStart (c : UInt8) : isWordStart c = true → c ≠ 95 → dispatch c = .s500 :=
  byte_cases (P := fun c => isWordStart c = true → c ≠ 95 → dispatch c = .s500)
    (by decide +kernel) c

theorem wordShape_len (c : UInt8) (hl : ∀ d ∈ l, isWordChar d = true) :
    (c :: l).length ≤ (wordShape (c :: l ++ t)).len :=
  Nat.succ_le_succ (takeWhile_ge hl t)

theorem word_le {c : UInt8} (hc : isWordStart c = true) (hl : ∀ d ∈ l, isWordChar d = true) :
    (c :: l).length ≤ (shape (c :: l ++ t)).len := by
  by_cases h95 : c = 95
  · subst h95
    cases l with
    | nil =>
      show 1 ≤ (if isWordChar _ then _ else _ : Shape).len
      split
      · exact Nat.succ_pos _
      · exact Nat.le_refl 1
    | cons d l =>
      have hshape : shape (95 :: d :: l ++ t) = wordShape (95 :: d :: l ++ t) :=
        if_pos (hl d (List.mem_cons_self ..))
      rw [hshape]
      exact wordShape_len _ hl
  · have hshape : shape (c :: l ++ t) = wordShape (c :: l ++ t) := by
      rw [shape, List.cons_append, List.headD_cons, dispatch_wordStart c hc h95]
      rfl
    rw [hshape]
    exact wordShape_len _ hl

theorem ampersands_le : 2 ≤ (shape (38 :: 38 :: t)).len := by
  show 2 ≤ (if t.getD 0 0 = 38 then _ else _ : Shape).len
  split <;> exact Nat.le_of_ble_eq_true rfl

theorem operator_le (h : (klass, l) ∈ operators) (hpos : 0 < (shape (l ++ t)).len) :
    l.length ≤ (shape (l ++ t)).len := by
  simp only [operators, List.mem_cons, List.not_mem_nil, or_false, Prod.mk.injEq] at h
  rcases h with ⟨-, rfl⟩ | ⟨-, rfl⟩ | ⟨-, rfl⟩ | ⟨-, rfl⟩ | ⟨-, rfl⟩ | ⟨-, rfl⟩ |
    ⟨-, rfl⟩ | ⟨-, rfl⟩ |
    ⟨-, rfl⟩ | ⟨-, rfl⟩ | ⟨-, rfl⟩ | ⟨-, rfl⟩ | ⟨-, rfl⟩ | ⟨-, rfl⟩ | ⟨-, rfl⟩ | ⟨-, rfl⟩ |
    ⟨-, rfl⟩ | ⟨-, rfl⟩ | ⟨-, rfl⟩ | ⟨-, rfl⟩ | ⟨-, rfl⟩ | ⟨-, rfl⟩ | ⟨-, rfl⟩ | ⟨-, rfl⟩ |
    ⟨-, rfl⟩ | ⟨-, rfl⟩ | ⟨-, rfl⟩ | ⟨-, rfl⟩ | ⟨-, rfl⟩ | ⟨-, rfl⟩ | ⟨-, rfl⟩
  -- one character, two, the ampersands
  all_goals first
    | exact hpos
    | exact Nat.le_refl 2
    | exact ampersands_le
    | exact Nat.le_refl 3

theorem blockComment_le (h : blockEnd l = some l.length) :
    (47 :: 42 :: l).length ≤ (shape (47 :: 42 :: l ++ t)).len := by
  have hshape : shape (47 :: 42 :: (l ++ t)) =
      .upTo (fun n => .blockComment (n + 2)) (blockEnd (l ++ t)) := rfl
  rw [List.cons_append, List.cons_append, hshape, blockEnd_append t h]
  exact Nat.le_refl _

theorem lineComment_le {d : UInt8} (hl : ∀ c ∈ l, isNewline c = false) (hd : isNewline d = true) :
    (47 :: 47 :: (l ++ [d])).length ≤ (shape (47 :: 47 :: (l ++ [d]) ++ t)).len := by
  have hshape : shape (47 :: 47 :: (l ++ d :: t)) =
      .upTo (fun n => .lineComment (n + 1)) (endAt isNewline (47 :: (l ++ d :: t))) := rfl
  have hend := endAt_append hd t hl
  rw [List.cons_append, List.cons_append, List.append_assoc, List.singleton_append, hshape,
    endAt_cons_neg rfl, hend]
  simp only [Option.map_some, Shape.upTo, Shape.len, List.length_cons, List.length_append,
    List.length_nil]
  omega

/-- A digit begins a number. -/
theorem shape_digit {c : UInt8} (hc : cstrIsDigit c .ten = true) :
    shape (c :: t) = numberShape (c :: t) := by
  rw [shape, List.headD_cons, dispatch_of_digit c hc]
  rfl

theorem decimalLen_ge (hne : l ≠ []) (hl : ∀ c ∈ l, cstrIsDigit c .ten = true) :
    l.length ≤ decimalLen (l ++ t) := by
  obtain ⟨c, l, rfl⟩ := List.exists_cons_of_ne_nil hne
  exact Nat.succ_le_succ (takeWhile_ge (fun d hd => hl d (List.mem_cons_of_mem _ hd)) t)

/-- A number without a prefix has at least its first run of digits. -/
theorem NumberOf.decimalLen_le (h : NumberOf r n) (hnone : prefixOf r = none) :
    decimalLen r ≤ n.body + n.bodyLen := by
  cases h with
  | decimal => exact Nat.le_of_eq (Nat.zero_add _).symm
  | radix hsome => rw [hnone] at hsome; cases hsome
  | sized => show decimalLen r ≤ decimalLen r + 1 + _; omega
  | sizedRadix => show decimalLen r ≤ decimalLen r + 3 + _; omega

theorem radix_le (h : RadixForm l) (hof : NumberOf (l ++ t) n) :
    l.length ≤ n.body + n.bodyLen := by
  obtain @⟨c, base, l, hmark, hne, hl⟩ := h
  obtain ⟨d, l, rfl⟩ := List.exists_cons_of_ne_nil hne
  have hsome : prefixOf (48 :: c :: d :: l ++ t) = some base := prefixOf_radix hmark
  cases hof with
  | decimal hnone => rw [hsome] at hnone; cases hnone
  | @radix _ _ l' hsome' hdrop =>
    rw [hsome] at hsome'
    obtain rfl := Option.some.inj hsome'
    have hl' : l ++ t = l' := (List.cons.inj hdrop).2
    have hge := takeWhile_ge (fun x hx => hl x (List.mem_cons_of_mem _ hx)) t
    rw [hl'] at hge
    show _ ≤ 2 + (_ + 1)
    simp only [List.length_cons]
    omega
  | sized hnone => rw [hsome] at hnone; cases hnone
  | sizedRadix hnone => rw [hsome] at hnone; cases hnone

theorem decimal_le (hne : l ≠ []) (hl : ∀ c ∈ l, cstrIsDigit c .ten = true)
    (hof : NumberOf (l ++ t) n) : l.length ≤ n.body + n.bodyLen := by
  cases hp : prefixOf (l ++ t) with
  | none => exact Nat.le_trans (decimalLen_ge hne hl) (hof.decimalLen_le hp)
  | some base =>
    match l, hne with
    | [c], _ =>
      have hlen : 1 ≤ n.bodyLen := by cases hof <;> exact Nat.succ_pos _
      exact Nat.le_trans hlen (Nat.le_add_left _ _)
    | c :: d :: l, _ =>
      have hnone : prefixOf (c :: d :: l ++ t) = none := prefixOf_none fun base hmark =>
        absurd hmark (digit_notMark (hl d (by simp)) base)
      rw [hnone] at hp
      cases hp

theorem sizedRadix_le {w : List UInt8} {mark : UInt8} (hw : w ≠ [])
    (hdigits : ∀ c ∈ w, cstrIsDigit c .ten = true) (hmark : mark = 119 ∨ mark = 115)
    (h : RadixForm l) (hof : NumberOf (w ++ mark :: (l ++ t)) n) :
    (w ++ mark :: l).length ≤ n.body + n.bodyLen := by
  obtain @⟨c, base, l, hc, hne, hl⟩ := h
  obtain ⟨d, l, rfl⟩ := List.exists_cons_of_ne_nil hne
  obtain ⟨hnone, hlen, hget, hdrop⟩ := sizedFront hw hdigits hmark (48 :: c :: d :: l ++ t)
  have hsome : prefixOf (48 :: c :: d :: l ++ t) = some base := prefixOf_radix hc
  generalize w ++ mark :: (48 :: c :: d :: l ++ t) = r at *
  cases hof with
  | decimal _ hnot => rw [hlen, hget] at hnot; exact absurd hmark hnot
  | radix hsome' => rw [hnone] at hsome'; cases hsome'
  | sized _ _ hnone' => rw [hlen, hdrop, hsome] at hnone'; cases hnone'
  | @sizedRadix _ _ l' _ _ hsome' hdrop' =>
    rw [hlen, hdrop, hsome] at hsome'
    obtain rfl := Option.some.inj hsome'
    rw [hlen, ← List.drop_drop (i := 2) (j := w.length + 1), hdrop] at hdrop'
    have hl' : l ++ t = l' := (List.cons.inj hdrop').2
    have hge := takeWhile_ge (fun x hx => hl x (List.mem_cons_of_mem _ hx)) t
    rw [hl'] at hge
    show _ ≤ decimalLen r + 3 + (_ + 1)
    simp only [List.length_append, List.length_cons]
    omega

theorem sized_le {w : List UInt8} {mark c : UInt8} (hw : w ≠ [])
    (hdigits : ∀ c ∈ w, cstrIsDigit c .ten = true) (hmark : mark = 119 ∨ mark = 115)
    (hl : ∀ c ∈ l, cstrIsDigit c .ten = true) (hof : NumberOf (w ++ mark :: c :: (l ++ t)) n) :
    (w ++ mark :: c :: l).length ≤ n.body + n.bodyLen := by
  obtain ⟨hnone, hlen, hget, hdrop⟩ := sizedFront hw hdigits hmark (c :: (l ++ t))
  generalize w ++ mark :: c :: (l ++ t) = r at *
  cases hof with
  | decimal _ hnot => rw [hlen, hget] at hnot; exact absurd hmark hnot
  | radix hsome' => rw [hnone] at hsome'; cases hsome'
  | sized _ _ _ hdrop' =>
    rw [hlen, hdrop] at hdrop'
    obtain ⟨rfl, rfl⟩ := List.cons.inj hdrop'
    have hge := takeWhile_ge hl t
    show _ ≤ decimalLen r + 1 + (_ + 1)
    simp only [List.length_append, List.length_cons]
    omega
  | sizedRadix _ _ hsome =>
    rw [hlen, hdrop] at hsome
    have hnil : l = [] := by
      cases l with
      | nil => rfl
      | cons d l =>
        have hnone' : prefixOf (c :: (d :: l ++ t)) = none := prefixOf_none fun base hm =>
          absurd hm (digit_notMark (hl d (by simp)) base)
        rw [hnone'] at hsome
        cases hsome
    subst hnil
    show _ ≤ decimalLen r + 3 + (_ + 1)
    simp only [List.length_append, List.length_cons, List.length_nil]
    omega

theorem integer_le (h : IntegerForm l) (hof : NumberOf (l ++ t) n) :
    l.length ≤ n.body + n.bodyLen := by
  cases h with
  | radix h => exact radix_le h hof
  | decimal hne hl => exact decimal_le hne hl hof
  | sizedRadix hw hdigits hmark h =>
    rw [List.append_assoc] at hof
    exact sizedRadix_le hw hdigits hmark h hof
  | sized hw hdigits hmark _ hl =>
    rw [List.append_assoc] at hof
    exact sized_le hw hdigits hmark hl hof

theorem IntegerForm.head (h : IntegerForm l) : ∃ c l', l = c :: l' ∧ cstrIsDigit c .ten = true := by
  have hrun : ∀ {w u : List UInt8}, w ≠ [] → (∀ c ∈ w, cstrIsDigit c .ten = true) →
      ∃ c l', w ++ u = c :: l' ∧ cstrIsDigit c .ten = true := by
    intro w u hw hdigits
    obtain ⟨c, w, rfl⟩ := List.exists_cons_of_ne_nil hw
    exact ⟨c, w ++ u, rfl, hdigits c (List.mem_cons_self ..)⟩
  cases h with
  | radix h =>
    obtain ⟨hmark, hne, hl⟩ := h
    exact ⟨48, _, rfl, rfl⟩
  | decimal hne hl =>
    have h := hrun (u := []) hne hl
    rwa [List.append_nil] at h
  | sizedRadix hw hdigits => exact hrun hw hdigits
  | sized hw hdigits => exact hrun hw hdigits

/-- **No form is longer** than the token that is read. -/
theorem form_le (h : Form klass l) (hnul : 0 ∉ l ++ t) (hstuck : shape (l ++ t) ≠ .stuck) :
    l.length ≤ (shape (l ++ t)).len := by
  have hpos : l ≠ [] → 0 < (shape (l ++ t)).len := fun hne =>
    (shape_fits hnul).pos (fun hend =>
      hne (List.append_eq_nil_iff.mp ((shape_fits hnul).ends hend)).1)
      hstuck
  cases h with
  | operator hop =>
    refine operator_le hop (hpos ?_)
    rintro rfl
    exact absurd hop (by simp [operators])
  | dontcare => exact hpos (by decide)
  | word hc hl => exact word_le hc hl
  | blockComment hl => exact blockComment_le hl
  | lineComment hl hd => exact lineComment_le hl hd
  | integer hint =>
    obtain ⟨c, l', rfl, hc⟩ := hint.head
    have hshape : shape (c :: l' ++ t) = numberShape (c :: l' ++ t) := shape_digit hc
    rcases numberShape_cases (c :: l' ++ t) with hst | ⟨n, hn⟩
    · exact absurd (hshape.trans hst) hstuck
    · rw [hshape, hn]
      exact integer_le hint (numberOf_shape hn)

/-! ## The token has a form -/

theorem dispatch_word (c : UInt8) : dispatch c = .s500 → isWordStart c = true ∧ c ≠ 95 :=
  byte_cases (P := fun c => dispatch c = .s500 → isWordStart c = true ∧ c ≠ 95)
    (by decide +kernel) c

/-- The characters a plain token takes are a form of its class. -/
def FormAt (r : List UInt8) (sh : Shape) : Prop :=
  ∀ klass n, sh = .plain klass n → Form klass (r.take n)

theorem formAt_one {c : UInt8} (hop : (klass, [c]) ∈ operators) :
    FormAt (c :: t) (.plain klass 1) := by
  intro k n h
  obtain ⟨rfl, rfl⟩ := Shape.plain.inj h
  exact .operator hop

theorem formAt_second {c d : UInt8} {rest : Shape} (hd : d ≠ 0)
    (hop : (klass, [c, d]) ∈ operators) (hrest : FormAt (c :: t) rest) :
    FormAt (c :: t) (secondShape (c :: t) d klass rest) := by
  unfold secondShape
  split
  · rename_i hget
    obtain ⟨t, rfl⟩ := cons_of_getD hd hget
    intro k n h
    obtain ⟨rfl, rfl⟩ := Shape.plain.inj h
    exact .operator hop
  · exact hrest

theorem take_run (p : UInt8 → Bool) (l : List UInt8) :
    l.take (l.takeWhile p).length = l.takeWhile p :=
  (List.prefix_iff_eq_take.mp (List.takeWhile_prefix p)).symm

theorem formAt_word {c : UInt8} (hc : isWordStart c = true)
    (hne : c = 95 → isWordChar ((c :: t).getD 1 0) = true) :
    FormAt (c :: t) (wordShape (c :: t)) := by
  intro k n h
  obtain ⟨rfl, rfl⟩ := Shape.plain.inj h
  rw [List.take_succ_cons, List.tail_cons, take_run]
  refine .word hc (fun d hd => List.mem_takeWhile_imp hd) fun h95 => ?_
  obtain ⟨rfl, hnil⟩ := List.cons.inj h95
  have hword := hne rfl
  cases t with
  | nil => cases hword
  | cons d t =>
    have hd : isWordChar d = true := hword
    rw [List.takeWhile_cons_of_pos hd] at hnil
    cases hnil

theorem formAt_underscore :
    FormAt (95 :: t) (if isWordChar ((95 :: t).getD 1 0) then wordShape (95 :: t)
      else .plain .dontcare 1) := by
  split
  · rename_i hword
    exact formAt_word rfl fun _ => hword
  · intro k n h
    obtain ⟨rfl, rfl⟩ := Shape.plain.inj h
    exact .dontcare

theorem formAt_ampersand : FormAt (38 :: t) (ampersandShape (38 :: t)) := by
  unfold ampersandShape
  split
  · rename_i hget
    obtain ⟨t, rfl⟩ := cons_of_getD (by decide) hget
    split
    · rename_i hget'
      obtain ⟨t, rfl⟩ := cons_of_getD (c := 38) (by decide) hget'
      intro k n h
      obtain ⟨rfl, rfl⟩ := Shape.plain.inj h
      exact .operator (l := [38, 38, 38]) (by decide)
    · intro k n h
      obtain ⟨rfl, rfl⟩ := Shape.plain.inj h
      exact .operator (l := [38, 38]) (by decide)
  · exact formAt_one (by decide)

theorem formAt_upTo {make : Nat → Shape} {o : Option Nat}
    (h : ∀ n klass m, make n ≠ .plain klass m) : FormAt r (Shape.upTo make o) := by
  intro k n hk
  cases o with
  | none => cases hk
  | some m => exact absurd hk (h m k n)

theorem formAt_slash : FormAt (47 :: t) (slashShape (47 :: t)) := by
  unfold slashShape
  split
  · exact formAt_upTo fun _ _ _ => Shape.noConfusion
  · split
    · exact formAt_upTo fun _ _ _ => Shape.noConfusion
    · exact formAt_one (by decide)

theorem formAt_number : FormAt r (numberShape r) := by
  intro k n hk
  rcases numberShape_cases r with h | ⟨m, h⟩
  · rw [h] at hk
    cases hk
  · rw [h] at hk
    cases hk

/-- The plain tokens have the form of their class. -/
theorem shape_formAt (hnul : 0 ∉ r) : FormAt r (shape r) := by
  cases r with
  | nil => intro k n h; cases h
  | cons c t =>
    have hmem := dispatch_mem c
    have hchar : ∀ {d}, stateChar (dispatch c) = some d → c = d := dispatch_char
    have hword := dispatch_word c
    have hzero := dispatch_s2 c
    unfold shape
    rw [List.headD_cons]
    generalize dispatch c = state at *
    simp only [entered, List.mem_cons, List.not_mem_nil, or_false] at hmem
    rcases hmem with rfl | rfl | rfl | rfl | rfl | rfl | rfl | rfl | rfl | rfl | rfl | rfl | rfl |
      rfl | rfl | rfl | rfl | rfl | rfl | rfl | rfl | rfl | rfl | rfl | rfl | rfl | rfl | rfl
    case _ => intro k n h; cases h
    case _ => intro k n h; cases h
    case _ => obtain rfl := hchar rfl; exact formAt_one (by decide)
    case _ =>
      obtain rfl := hchar rfl
      exact formAt_second (by decide) (by decide) (formAt_second (by decide) (by decide)
        (formAt_one (by decide)))
    case _ =>
      obtain rfl := hchar rfl
      exact formAt_second (by decide) (by decide) (formAt_second (by decide) (by decide)
        (formAt_one (by decide)))
    case _ => obtain rfl := hchar rfl; exact formAt_underscore
    case _ => obtain rfl := hchar rfl; exact formAt_one (by decide)
    case _ => obtain rfl := hchar rfl; exact formAt_one (by decide)
    case _ => obtain rfl := hchar rfl; exact formAt_one (by decide)
    case _ => obtain rfl := hchar rfl; exact formAt_one (by decide)
    case _ => obtain rfl := hchar rfl; exact formAt_one (by decide)
    case _ => obtain rfl := hchar rfl; exact formAt_one (by decide)
    case _ => obtain rfl := hchar rfl; exact formAt_one (by decide)
    case _ => obtain rfl := hchar rfl; exact formAt_one (by decide)
    case _ => obtain rfl := hchar rfl; exact formAt_one (by decide)
    case _ => intro k n h; cases h
    case _ => obtain rfl := hchar rfl; exact formAt_one (by decide)
    case _ => obtain rfl := hchar rfl; exact formAt_one (by decide)
    case _ => obtain rfl := hchar rfl; exact formAt_slash
    case _ =>
      obtain rfl := hchar rfl
      exact formAt_second (by decide) (by decide) (formAt_one (by decide))
    case _ =>
      obtain rfl := hchar rfl
      exact formAt_second (by decide) (by decide) (formAt_one (by decide))
    case _ => obtain rfl := hchar rfl; exact formAt_ampersand
    case _ =>
      obtain rfl := hchar rfl
      exact formAt_second (by decide) (by decide) (formAt_one (by decide))
    case _ => obtain rfl := hchar rfl; exact formAt_one (by decide)
    case _ => obtain rfl := hchar rfl; exact formAt_one (by decide)
    case _ => exact formAt_upTo fun _ _ _ => Shape.noConfusion
    case _ => exact formAt_number
    case _ => exact formAt_word (hword rfl).1 fun h => absurd h (hword rfl).2

/-! ## Comments and numbers -/

theorem blockEnd_take : ∀ {l : List UInt8} {n : Nat}, blockEnd l = some n →
    blockEnd (l.take n) = some n
  | c :: c' :: l, n, h => by
    rw [blockEnd] at h
    split at h
    · rename_i hc
      obtain rfl := Option.some.inj h
      rw [List.take_succ_cons, List.take_succ_cons, blockEnd, if_pos hc]
    · rename_i hc
      obtain ⟨m, hm, rfl⟩ := Option.map_eq_some_iff.mp h
      have hpos := (blockEnd_pos hm).1
      have ih := blockEnd_take hm
      obtain ⟨m, rfl⟩ : ∃ k, m = k + 1 := ⟨m - 1, by omega⟩
      rw [List.take_succ_cons] at ih
      rw [List.take_succ_cons, List.take_succ_cons, blockEnd, if_neg hc, ih]
      rfl

/-- What a run up to a character takes. -/
theorem endAt_split {p : UInt8 → Bool} : ∀ {l : List UInt8} {n : Nat}, endAt p l = some n →
    ∃ a d b, l = a ++ d :: b ∧ n = a.length + 1 ∧ p d = true ∧ ∀ c ∈ a, p c = false
  | c :: l, n, h => by
    cases hc : p c with
    | true =>
      rw [endAt_cons_pos hc] at h
      exact ⟨[], c, l, rfl, (Option.some.inj h).symm, hc, by simp⟩
    | false =>
      rw [endAt_cons_neg hc] at h
      obtain ⟨m, hm, rfl⟩ := Option.map_eq_some_iff.mp h
      obtain ⟨a, d, b, rfl, rfl, hd, ha⟩ := endAt_split hm
      refine ⟨c :: a, d, b, rfl, rfl, hd, fun x hx => ?_⟩
      rcases List.mem_cons.mp hx with rfl | hx
      · exact hc
      · exact ha x hx

theorem form_blockComment {m : Nat} (h : blockEnd t = some m) :
    Form .comment ((47 :: 42 :: t).take (m + 2)) := by
  have hlen : (t.take m).length = m := by
    rw [List.length_take]
    exact Nat.min_eq_left (blockEnd_pos h).2
  refine .blockComment (l := t.take m) ?_
  rw [blockEnd_take h, hlen]

theorem take_split {a b : List UInt8} {d : UInt8} :
    (a ++ d :: b).take (a.length + 1) = a ++ [d] := by
  rw [List.take_add_one, List.take_left, List.getElem?_append_right (Nat.le_refl _), Nat.sub_self]
  rfl

theorem drop_split {a b : List UInt8} {d : UInt8} : (a ++ d :: b).drop (a.length + 1) = b := by
  rw [← List.drop_drop, List.drop_left]
  rfl

theorem form_lineComment {m : Nat} (h : endAt isNewline t = some m) :
    Form .comment ((47 :: 47 :: t).take (m + 2)) := by
  obtain ⟨a, d, b, rfl, rfl, hd, ha⟩ := endAt_split h
  rw [List.take_succ_cons, List.take_succ_cons, take_split]
  exact .lineComment ha hd

/-! ## Integers -/

theorem prefixOf_inv {base : Base} (h : prefixOf r = some base) :
    ∃ c t, r = 48 :: c :: t ∧ (c, base) ∈ radixMarks := by
  have hlen := prefixOf_length (k := 0) h
  match r, hlen with
  | c :: d :: t, _ =>
    unfold prefixOf at h
    split at h
    · rename_i h48
      obtain rfl : c = 48 := h48
      simp only [List.getD_cons_succ, List.getD_cons_zero] at h
      refine ⟨d, t, rfl, ?_⟩
      split_ifs at h with h1 h2 h3
      · obtain rfl := Option.some.inj h
        rcases h1 with rfl | rfl <;> decide
      · obtain rfl := Option.some.inj h
        rcases h2 with rfl | rfl <;> decide
      · obtain rfl := Option.some.inj h
        rcases h3 with rfl | rfl <;> decide
    · cases h

/-- The characters of a radix literal. -/
theorem radixForm_take {base : Base} {c d : UInt8} {l : List UInt8} (hmark : (c, base) ∈ radixMarks)
    (hd : isDigitOrUnderscore base d = true) :
    RadixForm ((48 :: c :: d :: l).take
      (2 + ((l.takeWhile (isDigitOrUnderscore base)).length + 1))) := by
  have hlen : 2 + ((l.takeWhile (isDigitOrUnderscore base)).length + 1) =
      (l.takeWhile (isDigitOrUnderscore base)).length + 1 + 1 + 1 := by omega
  rw [hlen, List.take_succ_cons, List.take_succ_cons, List.take_succ_cons, take_run]
  refine .mk hmark (List.cons_ne_nil _ _) fun x hx => ?_
  rcases List.mem_cons.mp hx with rfl | hx
  · exact hd
  · exact List.mem_takeWhile_imp hx

/-- The number's digits start with a digit of its base or an underscore. -/
def Number.plainStart (n : Number) (r : List UInt8) : Prop :=
  isDigitOrUnderscore n.base (r.getD n.body 0) = true

theorem take_width (hget : r.getD (decimalLen r) 0 = 119 ∨ r.getD (decimalLen r) 0 = 115)
    (k : Nat) : r.take (decimalLen r + 1 + k) = r.take (decimalLen r) ++
      r.getD (decimalLen r) 0 :: (r.drop (decimalLen r + 1)).take k := by
  have hlt : decimalLen r < r.length := by
    rcases hget with hget | hget
    · exact getD_pos (by decide) hget
    · exact getD_pos (by decide) hget
  rw [Nat.add_assoc, List.take_add, drop_eq_cons hlt, Nat.add_comm 1 k, List.take_succ_cons]

theorem take_decimal_ne (hdigit : cstrIsDigit (r.getD 0 0) .ten = true) :
    r.take (decimalLen r) ≠ [] := by
  cases r with
  | nil => cases hdigit
  | cons c r => exact List.cons_ne_nil _ _

/-- A number whose digits start like digits is an integer literal. -/
theorem NumberOf.form (h : NumberOf r n) (hdigit : cstrIsDigit (r.getD 0 0) .ten = true)
    (hstart : n.plainStart r) : IntegerForm (r.take (n.body + n.bodyLen)) := by
  unfold Number.plainStart at hstart
  have hw := take_decimal_ne hdigit
  have hdigits := fun c => mem_decimal hdigit (c := c)
  cases h with
  | decimal =>
    show IntegerForm (r.take (0 + decimalLen r))
    rw [Nat.zero_add]
    exact .decimal hw hdigits
  | @radix base d l hsome hdrop =>
    obtain ⟨c, t, rfl, hmark⟩ := prefixOf_inv hsome
    obtain rfl : t = d :: l := hdrop
    exact .radix (radixForm_take hmark hstart)
  | @sized d l _ hmark _ hdrop =>
    have hd : r.getD (decimalLen r + 1) 0 = d := by
      rw [← headD_drop, hdrop]
      rfl
    simp only [hd] at hstart
    rw [take_width hmark, hdrop, List.take_succ_cons, take_run]
    exact .sized hw hdigits hmark hstart fun x hx =>
      List.mem_takeWhile_imp (p := (cstrIsDigit · .ten)) hx
  | @sizedRadix base d l _ hmark hsome hdrop =>
    obtain ⟨c, t, ht, hc⟩ := prefixOf_inv hsome
    have hd : r.getD (decimalLen r + 3) 0 = d := by
      rw [← headD_drop, hdrop]
      rfl
    have hl : t = d :: l := by
      rw [← hdrop, ← List.drop_drop (i := 2) (j := decimalLen r + 1), ht]
      rfl
    simp only [hd] at hstart
    have hlen : decimalLen r + 3 + ((l.takeWhile (isDigitOrUnderscore base)).length + 1) =
        decimalLen r + 1 + (2 + ((l.takeWhile (isDigitOrUnderscore base)).length + 1)) := by omega
    rw [hlen, take_width hmark, ht, hl]
    exact .sizedRadix hw hdigits hmark (radixForm_take hc hstart)

/-! ## The characters of a token -/

theorem take_body (n : Number) (r : List UInt8) :
    r.take (n.body + n.bodyLen) = r.take n.body ++ n.digits r := List.take_add

/-- The characters before the digits of a number. -/
theorem NumberOf.front_chars (h : NumberOf r n) (hdigit : cstrIsDigit (r.getD 0 0) .ten = true) :
    ∀ c ∈ r.take n.body, isWordChar c = true := by
  have hdecimal : ∀ c ∈ r.take (decimalLen r), isWordChar c = true := fun c hc =>
    decimal_wordChar (mem_decimal hdigit hc)
  have hmarkChar : ∀ {c : UInt8}, c = 119 ∨ c = 115 → isWordChar c = true := by
    rintro c (rfl | rfl) <;> rfl
  have hradix : ∀ {c d : UInt8} {base : Base}, (d, base) ∈ radixMarks → c ∈ [48, d] →
      isWordChar c = true := by
    intro c d base hd hc
    simp only [List.mem_cons, List.not_mem_nil, or_false] at hc
    simp only [radixMarks, List.mem_cons, List.not_mem_nil, or_false, Prod.mk.injEq] at hd
    rcases hc with rfl | rfl
    · rfl
    · rcases hd with ⟨rfl, -⟩ | ⟨rfl, -⟩ | ⟨rfl, -⟩ | ⟨rfl, -⟩ | ⟨rfl, -⟩ | ⟨rfl, -⟩ <;> rfl
  intro c hc
  cases h with
  | decimal => cases hc
  | radix hsome =>
    obtain ⟨d, t, rfl, hd⟩ := prefixOf_inv hsome
    exact hradix hd hc
  | sized _ hmark =>
    have htake := take_width hmark 0
    rw [Nat.add_zero, List.take_zero] at htake
    simp only [htake, List.mem_append, List.mem_singleton] at hc
    rcases hc with hc | rfl
    · exact hdecimal c hc
    · exact hmarkChar hmark
  | sizedRadix _ hmark hsome =>
    obtain ⟨d, t, ht, hd⟩ := prefixOf_inv hsome
    have htake : r.take (decimalLen r + 3) = _ := take_width hmark 2
    rw [ht, List.take_succ_cons, List.take_succ_cons, List.take_zero] at htake
    simp only [htake] at hc
    rcases List.mem_append.mp hc with hc | hc
    · exact hdecimal c hc
    · rcases List.mem_cons.mp hc with rfl | hc
      · exact hmarkChar hmark
      · exact hradix hd hc

/-- The digits of a number that starts like one begin with a digit, an
underscore or a backslash. -/
theorem NumberOf.chars (h : NumberOf r n) (hdigit : cstrIsDigit (r.getD 0 0) .ten = true)
    (hstarts : n.starts r = true) : ∀ c ∈ r.take (n.body + n.bodyLen),
    isWordChar c = true ∨ c = 92 := by
  intro c hc
  rw [take_body, List.mem_append] at hc
  rcases hc with hc | hc
  · exact .inl (h.front_chars hdigit c hc)
  obtain ⟨l, hl, -, hall⟩ := h.digits_eq hdigit
  rw [hl] at hc
  rcases List.mem_cons.mp hc with rfl | hc
  · by_cases h92 : r.getD n.body 0 = 92
    · exact .inr h92
    · left
      rw [Number.starts, Number.first, hl] at hstarts
      have hfirst : isDigitOrUnderscore n.base (r.getD n.body 0) = true := by
        cases l with
        | nil => rwa [decode, if_neg h92] at hstarts
        | cons d l => rwa [decode, if_neg h92] at hstarts
      exact digit_wordChar hfirst
  · exact .inl (digit_wordChar (hall c hc))

/-- A character that is of no comment, string or number. -/
def isVisible (c : UInt8) : Bool := !isNewline c && c != 92 && c != 34 && c != 0

theorem wordChar_visible (c : UInt8) : isWordChar c = true → isVisible c = true ∧ c ≠ 47 :=
  byte_cases (P := fun c => isWordChar c = true → isVisible c = true ∧ c ≠ 47) (by decide +kernel) c

theorem wordStart_wordChar (c : UInt8) : isWordStart c = true → isWordChar c = true :=
  byte_cases (P := fun c => isWordStart c = true → isWordChar c = true) (by decide +kernel) c

theorem RadixForm.chars (h : RadixForm l) : ∀ c ∈ l, isWordChar c = true := by
  obtain @⟨d, base, l, hd, -, hl⟩ := h
  intro c hc
  simp only [List.mem_cons] at hc
  rcases hc with rfl | rfl | hc
  · rfl
  · simp only [radixMarks, List.mem_cons, List.not_mem_nil, or_false, Prod.mk.injEq] at hd
    rcases hd with ⟨rfl, -⟩ | ⟨rfl, -⟩ | ⟨rfl, -⟩ | ⟨rfl, -⟩ | ⟨rfl, -⟩ | ⟨rfl, -⟩ <;> rfl
  · exact digit_wordChar (hl c hc)

theorem IntegerForm.chars (h : IntegerForm l) : ∀ c ∈ l, isWordChar c = true := by
  cases h with
  | radix h => exact h.chars
  | decimal _ hl => exact fun c hc => decimal_wordChar (hl c hc)
  | sizedRadix _ hw hmark h =>
    intro c hc
    rcases List.mem_append.mp hc with hc | hc
    · exact decimal_wordChar (hw c hc)
    · rcases List.mem_cons.mp hc with rfl | hc
      · rcases hmark with rfl | rfl <;> rfl
      · exact h.chars c hc
  | sized _ hw hmark hd hl =>
    intro c hc
    rcases List.mem_append.mp hc with hc | hc
    · exact decimal_wordChar (hw c hc)
    · simp only [List.mem_cons] at hc
      rcases hc with rfl | rfl | hc
      · rcases hmark with rfl | rfl <;> rfl
      · exact digit_wordChar hd
      · exact decimal_wordChar (hl c hc)

/-- What is no comment has no line break, backslash or quote, and a slash only
as the operator. -/
theorem Form.visible (h : Form klass l) (hk : klass ≠ .comment) :
    (∀ c ∈ l, isVisible c = true) ∧ (47 ∈ l → l = [47]) := by
  have hword : (∀ c ∈ l, isWordChar c = true) →
      (∀ c ∈ l, isVisible c = true) ∧ (47 ∈ l → l = [47]) := fun hall =>
    ⟨fun c hc => (wordChar_visible c (hall c hc)).1,
      fun h47 => absurd rfl (wordChar_visible 47 (hall 47 h47)).2⟩
  cases h with
  | operator hop =>
    have hall : ∀ x ∈ operators, (∀ c ∈ x.2, isVisible c = true) ∧ (47 ∈ x.2 → x.2 = [47]) := by
      decide +kernel
    exact hall _ hop
  | dontcare => exact ⟨by decide +kernel, by decide +kernel⟩
  | word hc hl =>
    refine hword fun d hd => ?_
    rcases List.mem_cons.mp hd with rfl | hd
    · exact wordStart_wordChar _ hc
    · exact hl d hd
  | blockComment => exact absurd rfl hk
  | lineComment => exact absurd rfl hk
  | integer hint => exact hword hint.chars

end Dp4c.Lex
