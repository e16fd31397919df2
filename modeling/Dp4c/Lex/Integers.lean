import Dp4c.Lex.Literals
import Mathlib.Data.Nat.Digits.Defs

/-! # Integer literals

The grammar of integer literals with the number a literal denotes, and what
`next_token` makes of it: the value is computed in an `int`. -/
namespace Dp4c.Lex

open Dp4c.Lib Dp4c.Lib.Prog

/-! ## The grammar -/

/-- The characters that name a base after a zero. -/
def radixMarks : List (UInt8 × Base) :=
  [(120, .sixteen), (88, .sixteen), (111, .eight), (79, .eight), (98, .two), (66, .two)]

/-- A body `B`, its base and the characters of its digits. -/
inductive Body : List UInt8 → Base → List UInt8 → Prop
  | decimal {l : List UInt8} : l ≠ [] → (∀ c ∈ l, cstrIsDigit c .ten = true) → Body l .ten l
  | radix {c : UInt8} {base : Base} {l : List UInt8} : (c, base) ∈ radixMarks →
      (∀ c ∈ l, isDigitOrUnderscore base c = true) → (∃ c ∈ l, cstrIsDigit c base = true) →
      Body (48 :: c :: l) base l

/-- A literal `[W(w|s)]B`: the digits of `W` and whether the marker is `s`, the
base of `B` and the characters of its digits. -/
inductive Spells : List UInt8 → Option (List UInt8 × Bool) → Base → List UInt8 → Prop
  | plain {l digits : List UInt8} {base : Base} : Body l base digits → Spells l none base digits
  | sized {w l digits : List UInt8} {mark : UInt8} {base : Base} : w ≠ [] →
      (∀ c ∈ w, cstrIsDigit c .ten = true) → mark = 119 ∨ mark = 115 → Body l base digits →
      Spells (w ++ mark :: l) (some (w, mark == 115)) base digits

/-- Some literal goes on with the character after these. -/
def Extends (l : List UInt8) (c : UInt8) : Prop :=
  ∃ m width base digits, Spells (l ++ c :: m) width base digits

/-- The number a digit stands for. -/
def digitNat (c : UInt8) : Nat :=
  if c.toNat ≤ 57 then c.toNat - 48 else if c.toNat ≤ 90 then c.toNat - 55 else c.toNat - 87

/-- The number that digits denote. -/
def valueOf (base : Base) (digits : List UInt8) : Nat :=
  Nat.ofDigits base.val ((digits.filter (· != 95)).map digitNat).reverse

/-! ## The value -/

variable {base : Base} {c : UInt8} {l digits : List UInt8}

theorem digitValue_eq (h : cstrIsDigit c base = true) : digitValue c = digitNat c := by
  have h16 := isDigit_sixteen h
  unfold digitValue digitNat
  simp only [cstrIsDigit, Bool.or_eq_true, Bool.and_eq_true, decide_eq_true_eq,
    UInt8.le_iff_toNat_le] at h16 ⊢
  simp only [UInt8.reduceToNat] at h16 ⊢
  split_ifs <;> omega

/-- The digits from the left, after a value. -/
def horner (base : Base) : List UInt8 → Nat → Nat
  | [], value => value
  | c :: l, value => horner base l (if c = 95 then value else value * base.val + digitNat c)

theorem horner_eq : ∀ (l : List UInt8) (value : Nat),
    horner base l value = ((l.filter (· != 95)).map digitNat).foldl
      (fun value digit => value * base.val + digit) value
  | [], _ => rfl
  | c :: l, value => by
    rw [horner, horner_eq l]
    by_cases hc : c = 95
    · rw [if_pos hc, List.filter_cons_of_neg (by simp [hc])]
    · rw [if_neg hc, List.filter_cons_of_pos (by simpa using hc)]
      rfl

theorem valueOf_eq (l : List UInt8) : valueOf base l = horner base l 0 := by
  rw [valueOf, Nat.ofDigits_eq_foldr, List.foldr_reverse, horner_eq]
  congr 1
  funext value digit
  simp only [Nat.cast_id]
  ring

theorem int32_step (value digit : Int) :
    int32 (int32 (int32 value * base.val) + digit) = int32 (value * base.val + digit) := by
  unfold int32
  rw [Int.bmod_add_bmod, ← Int.bmod_add_bmod, Int.bmod_mul_bmod, Int.bmod_add_bmod]

theorem int32_of_lt {value : Nat} (h : value < 2 ^ 31) : int32 value = value :=
  Int.bmod_eq_of_le_mul_two (by omega) (by omega)

theorem int32_lt (value : Int) : int32 value < 2 ^ 31 :=
  Int.bmod_lt (m := 2 ^ 32) (by decide)

theorem digit_ne_underscore (h : cstrIsDigit c base = true) : c ≠ 95 := by
  rintro rfl
  have h16 := isDigit_sixteen h
  simp [cstrIsDigit] at h16

theorem digitNat_lt (h : cstrIsDigit c base = true) : digitNat c < 16 := by
  have h16 := isDigit_sixteen h
  unfold digitNat
  simp only [cstrIsDigit, Bool.or_eq_true, Bool.and_eq_true, decide_eq_true_eq,
    UInt8.le_iff_toNat_le] at h16
  simp only [UInt8.reduceToNat] at h16
  split_ifs <;> omega

/-- `parse_integer` computes the value modulo 2^32. -/
theorem digitsFrom_eq : ∀ {l : List UInt8} (value : Nat),
    (∀ c ∈ l, isDigitOrUnderscore base c = true) →
    digitsFrom base l (int32 value) = some (int32 (horner base l value))
  | [], _, _ => rfl
  | c :: l, value, h => by
    have hrest := fun d hd => h d (List.mem_cons_of_mem _ hd)
    unfold digitsFrom horner
    cases hc : cstrIsDigit c base with
    | true =>
      have hstep : int32 (int32 (int32 value * base.val) + digitNat c) =
          int32 ((value * base.val + digitNat c : Nat) : Int) := by
        rw [int32_step]
        push_cast
        rfl
      rw [if_pos rfl, if_neg (digit_ne_underscore hc), digitValue_eq hc, hstep]
      exact digitsFrom_eq _ hrest
    | false =>
      have h95 : c = 95 := by
        have hor := h c (List.mem_cons_self ..)
        rw [isDigitOrUnderscore, hc] at hor
        simpa using hor
      rw [if_neg Bool.false_ne_true, if_pos h95, if_pos h95]
      exact digitsFrom_eq _ hrest

theorem integerOf_eq (hne : l ≠ []) (h : ∀ c ∈ l, isDigitOrUnderscore base c = true) :
    integerOf base l = some (int32 (valueOf base l)) := by
  obtain ⟨c, l, rfl⟩ := List.exists_cons_of_ne_nil hne
  have hrest := fun d hd => h d (List.mem_cons_of_mem _ hd)
  rw [valueOf_eq, horner, integerOf]
  by_cases h95 : c = 95
  · rw [if_neg (not_not.mpr h95), if_pos h95]
    exact digitsFrom_eq 0 hrest
  · have hc : cstrIsDigit c base = true := by
      have hor := h c (List.mem_cons_self ..)
      simpa [isDigitOrUnderscore, h95] using hor
    have hlt := digitNat_lt hc
    rw [if_pos h95, if_neg h95, Nat.zero_mul, Nat.zero_add, digitValue_eq hc,
      ← digitsFrom_eq _ hrest, int32_of_lt (by omega)]

/-! ## The shape -/

variable {rest : List UInt8} {width : Option (List UInt8 × Bool)}

theorem takeWhile_stops {p : UInt8 → Bool} (hl : ∀ c ∈ l, p c = true)
    (hrest : ∀ c, rest.head? = some c → p c = false) : (l ++ rest).takeWhile p = l := by
  rw [List.takeWhile_append_of_pos hl]
  cases rest with
  | nil => simp
  | cons c rest => rw [List.takeWhile_cons_of_neg (by rw [hrest c rfl]; exact Bool.false_ne_true),
      List.append_nil]

/-- A body is read with the prefix it has. -/
theorem prefixOf_radix (hc : (c, base) ∈ radixMarks) : prefixOf (48 :: c :: l) = some base := by
  simp only [radixMarks, List.mem_cons, List.not_mem_nil, or_false, Prod.mk.injEq] at hc
  rcases hc with ⟨rfl, rfl⟩ | ⟨rfl, rfl⟩ | ⟨rfl, rfl⟩ | ⟨rfl, rfl⟩ | ⟨rfl, rfl⟩ | ⟨rfl, rfl⟩ <;> rfl

theorem prefixOf_none (h : ∀ base, (l.getD 1 0, base) ∈ radixMarks → l.headD 0 ≠ 48) :
    prefixOf l = none := by
  unfold prefixOf
  split
  · rename_i h0
    have hnot : ∀ base, (l.getD 1 0, base) ∉ radixMarks := fun base hb => h base hb h0
    have h16 := hnot .sixteen
    have h8 := hnot .eight
    have h2 := hnot .two
    simp only [radixMarks, List.mem_cons, Prod.mk.injEq, List.not_mem_nil, or_false,
      not_or, reduceCtorEq,
      and_true, and_false, false_or] at h16 h8 h2
    simp only
    rw [if_neg (by simpa using h16), if_neg (by simpa using h8), if_neg (by simpa using h2)]
  · rfl

theorem digit_notMark (h : cstrIsDigit c .ten = true) (base : Base) : (c, base) ∉ radixMarks := by
  intro hc
  simp only [radixMarks, List.mem_cons, List.not_mem_nil, or_false, Prod.mk.injEq] at hc
  rcases hc with ⟨rfl, -⟩ | ⟨rfl, -⟩ | ⟨rfl, -⟩ | ⟨rfl, -⟩ | ⟨rfl, -⟩ | ⟨rfl, -⟩ <;> cases h

/-- What follows a body cannot go on with it. -/
def Ends (l rest : List UInt8) : Prop :=
  ∀ c, rest.head? = some c → ∀ m base digits, ¬ Body (l ++ c :: m) base digits

theorem ends_digit (hl : ∀ c ∈ l, cstrIsDigit c .ten = true) (hends : Ends l rest) :
    ∀ c, rest.head? = some c → cstrIsDigit c .ten = false := by
  intro c hc
  by_contra hdigit
  refine hends c hc [] .ten (l ++ [c]) (.decimal (by simp) fun d hd => ?_)
  rcases List.mem_append.mp hd with hd | hd
  · exact hl d hd
  · rw [List.mem_singleton.mp hd]
    simpa using hdigit

theorem ends_radix {c : UInt8} (hc : (c, base) ∈ radixMarks)
    (hall : ∀ d ∈ l, isDigitOrUnderscore base d = true)
    (hex : ∃ d ∈ l, cstrIsDigit d base = true) (hends : Ends (48 :: c :: l) rest) :
    ∀ d, rest.head? = some d → isDigitOrUnderscore base d = false := by
  intro d hd
  by_contra hdigit
  refine hends d hd [] base (l ++ [d]) (.radix hc (fun x hx => ?_) ?_)
  · rcases List.mem_append.mp hx with hx | hx
    · exact hall x hx
    · rw [List.mem_singleton.mp hx]
      simpa using hdigit
  · obtain ⟨x, hx, hdig⟩ := hex
    exact ⟨x, List.mem_append_left _ hx, hdig⟩

theorem zero_digit (base : Base) : cstrIsDigit 48 base = true := by cases base <;> rfl

/-- A run of decimal digits is read without a prefix. -/
theorem prefixOf_decimal (hne : l ≠ []) (hl : ∀ c ∈ l, cstrIsDigit c .ten = true)
    (hrest : l = [48] → ∀ c base, rest.head? = some c → (c, base) ∉ radixMarks) :
    prefixOf (l ++ rest) = none := by
  refine prefixOf_none fun base hmark h48 => ?_
  match l, hne with
  | [d], _ =>
    obtain rfl : d = 48 := h48
    cases rest with
    | nil => exact absurd hmark (by cases base <;> decide)
    | cons c rest => exact hrest rfl c base rfl hmark
  | d :: d' :: l, _ => exact digit_notMark (hl d' (by simp)) base hmark

theorem ends_zero (hends : Ends l rest) :
    l = [48] → ∀ c base, rest.head? = some c → (c, base) ∉ radixMarks := by
  rintro rfl c base hc hmark
  refine hends c hc [48] base [48] (.radix hmark (fun d hd => ?_) ⟨48, by simp, zero_digit base⟩)
  rw [List.mem_singleton.mp hd, isDigitOrUnderscore, zero_digit]
  rfl

theorem decimalLen_append (hne : l ≠ []) (hl : ∀ c ∈ l, cstrIsDigit c .ten = true)
    (hrest : ∀ c, rest.head? = some c → cstrIsDigit c .ten = false) :
    decimalLen (l ++ rest) = l.length := by
  obtain ⟨c, l, rfl⟩ := List.exists_cons_of_ne_nil hne
  rw [decimalLen, List.cons_append, List.tail_cons,
    takeWhile_stops (fun d hd => hl d (List.mem_cons_of_mem _ hd)) hrest]
  rfl

theorem numberAt_append {r : List UInt8} {w : Option (Nat × Bool)} {k : Nat} {p : UInt8 → Bool}
    (hr : r.drop k = l ++ rest) (hne : l ≠ []) (hl : ∀ c ∈ l, p c = true)
    (hrest : ∀ c, rest.head? = some c → p c = false) :
    numberAt r w base k p = .number ⟨w, base, k, l.length⟩ := by
  obtain ⟨c, l, rfl⟩ := List.exists_cons_of_ne_nil hne
  rw [numberAt, hr, List.cons_append]
  simp only
  rw [takeWhile_stops (fun d hd => hl d (List.mem_cons_of_mem _ hd)) hrest]
  rfl

/-- The width in a shape. -/
def widthLen (width : Option (List UInt8 × Bool)) : Option (Nat × Bool) :=
  width.map fun w => (w.1.length, w.2)

/-- The number that a literal is read as. -/
structure ReadAs (r l : List UInt8) (width : Option (List UInt8 × Bool)) (base : Base)
    (digits : List UInt8) (n : Number) : Prop where
  shape : numberShape r = .number n
  width : n.width = widthLen width
  base : n.base = base
  digits : n.digits r = digits
  len : n.body + n.bodyLen = l.length

theorem digits_eq {r : List UInt8} {k : Nat} {w : Option (Nat × Bool)} (hr : r.drop k = l ++ rest) :
    (Number.mk w base k l.length).digits r = l := by
  rw [Number.digits, hr, List.take_left]

theorem readAs_plain (h : Body l base digits) (hends : Ends l rest)
    (hmark : base = .ten → ∀ c, rest.head? = some c → c ≠ 119 ∧ c ≠ 115) :
    ∃ n, ReadAs (l ++ rest) l none base digits n := by
  cases h with
  | decimal hne hl =>
    have hstop := ends_digit hl hends
    have hlen := decimalLen_append hne hl hstop
    have hget : (l ++ rest).getD l.length 0 = rest.headD 0 := by
      rw [← headD_drop, List.drop_left]
    have hno : ¬ (rest.headD 0 = 119 ∨ rest.headD 0 = 115) := by
      cases rest with
      | nil => decide
      | cons c rest =>
        have hc := hmark rfl c rfl
        exact fun h => h.elim hc.1 hc.2
    refine ⟨⟨none, .ten, 0, l.length⟩, ?_, rfl, rfl, digits_eq rfl, Nat.zero_add _⟩
    rw [numberShape, prefixOf_decimal hne hl (ends_zero hends)]
    simp only
    rw [hlen, hget, if_neg hno]
  | @radix c _ _ hc hall hex =>
    have hstop := ends_radix hc hall hex hends
    have hne : digits ≠ [] := by
      rintro rfl
      obtain ⟨d, hd, -⟩ := hex
      cases hd
    have hdrop : (48 :: c :: digits ++ rest).drop 2 = digits ++ rest := rfl
    refine ⟨⟨none, base, 2, digits.length⟩, ?_, rfl, rfl, digits_eq hdrop, ?_⟩
    · rw [numberShape, List.cons_append, List.cons_append, prefixOf_radix hc]
      exact numberAt_append rfl hne hall hstop
    · rw [List.length_cons, List.length_cons]
      exact Nat.add_comm _ _

/-- The digits of a width, up to its marker. -/
structure SizedFront (w : List UInt8) (mark : UInt8) (u r : List UInt8) : Prop where
  noPrefix : prefixOf r = none
  len : decimalLen r = w.length
  get : r.getD w.length 0 = mark
  drop : r.drop (w.length + 1) = u

theorem sizedFront {w : List UInt8} {mark : UInt8} (hw : w ≠ [])
    (hdigits : ∀ c ∈ w, cstrIsDigit c .ten = true) (hmark : mark = 119 ∨ mark = 115)
    (u : List UInt8) : SizedFront w mark u (w ++ mark :: u) := by
  refine ⟨prefixOf_decimal hw hdigits ?_, decimalLen_append hw hdigits ?_, ?_, ?_⟩
  · rintro - c base hc
    obtain rfl := Option.some.inj hc
    rcases hmark with rfl | rfl <;> cases base <;> decide
  · intro c hc
    obtain rfl := Option.some.inj hc
    rcases hmark with rfl | rfl <;> rfl
  · rw [← headD_drop, List.drop_left]
    rfl
  · rw [← List.drop_drop, List.drop_left]
    rfl

theorem readAs_sized {w : List UInt8} {mark : UInt8} (hw : w ≠ [])
    (hdigits : ∀ c ∈ w, cstrIsDigit c .ten = true) (hmark : mark = 119 ∨ mark = 115)
    (h : Body l base digits) (hends : Ends l rest) :
    ∃ n, ReadAs (w ++ mark :: l ++ rest) (w ++ mark :: l) (some (w, mark == 115)) base
        digits n := by
  have hr : w ++ mark :: l ++ rest = w ++ mark :: (l ++ rest) := by simp
  obtain ⟨hnone, hlen, hget, hdrop⟩ := sizedFront hw hdigits hmark (l ++ rest)
  have hshape : numberShape (w ++ mark :: (l ++ rest)) =
      widthShape (w ++ mark :: (l ++ rest)) w.length mark := by
    rw [numberShape, hnone]
    simp only
    rw [hlen, hget, if_pos hmark]
  rw [hr]
  cases h with
  | decimal hne hl =>
    refine ⟨⟨some (w.length, mark == 115), .ten, w.length + 1, l.length⟩, ?_, rfl, rfl,
      digits_eq hdrop, ?_⟩
    · rw [hshape, widthShape, hdrop, prefixOf_decimal hne hl (ends_zero hends)]
      exact numberAt_append hdrop hne hl (ends_digit hl hends)
    · rw [List.length_append, List.length_cons]
      show w.length + 1 + l.length = _
      omega
  | @radix c _ _ hc hall hex =>
    have hne : digits ≠ [] := by
      rintro rfl
      obtain ⟨d, hd, -⟩ := hex
      cases hd
    have hdrop' : (w ++ mark :: (48 :: c :: digits ++ rest)).drop (w.length + 3) =
        digits ++ rest := by
      rw [← List.drop_drop (i := 2) (j := w.length + 1), hdrop]
      rfl
    refine ⟨⟨some (w.length, mark == 115), base, w.length + 3, digits.length⟩, ?_, rfl, rfl,
      digits_eq hdrop', ?_⟩
    · rw [hshape, widthShape, hdrop, List.cons_append, List.cons_append, prefixOf_radix hc]
      exact numberAt_append hdrop' hne hall (ends_radix hc hall hex hends)
    · simp only [List.length_append, List.length_cons]
      omega

theorem mark_ne_ten (c : UInt8) : (c, Base.ten) ∉ radixMarks := by
  simp [radixMarks]

theorem Body.ne_nil (h : Body l base digits) : digits ≠ [] := by
  cases h with
  | decimal hne => exact hne
  | radix _ _ hex =>
    rintro rfl
    obtain ⟨d, hd, -⟩ := hex
    cases hd

theorem Body.all (h : Body l base digits) : ∀ c ∈ digits, isDigitOrUnderscore base c = true := by
  cases h with
  | decimal _ hl =>
    intro c hc
    rw [isDigitOrUnderscore, hl c hc]
    rfl
  | radix _ hall => exact hall

theorem Spells.body (h : Spells l width base digits) : ∃ l', Body l' base digits := by
  cases h with
  | plain h => exact ⟨_, h⟩
  | sized _ _ _ h => exact ⟨_, h⟩

theorem Body.head_digit (h : Body l base digits) : cstrIsDigit (l.headD 0) .ten = true := by
  cases h with
  | decimal hne hl =>
    obtain ⟨c, l, rfl⟩ := List.exists_cons_of_ne_nil hne
    exact hl c (List.mem_cons_self ..)
  | radix => rfl

theorem Spells.head_digit (h : Spells l width base digits) :
    cstrIsDigit ((l ++ rest).headD 0) .ten = true := by
  cases h with
  | plain h =>
    have hd := h.head_digit
    cases l with
    | nil => cases hd
    | cons c l => exact hd
  | @sized w l _ mark _ hw hdigits =>
    obtain ⟨c, w, rfl⟩ := List.exists_cons_of_ne_nil hw
    exact hdigits c (List.mem_cons_self ..)

/-- A literal that nothing goes on with is the number that is read. -/
theorem Spells.readAs (h : Spells l width base digits)
    (hnext : ∀ c, rest.head? = some c → ¬ Extends l c) :
    ∃ n, ReadAs (l ++ rest) l width base digits n := by
  cases h with
  | plain h =>
    refine readAs_plain h (fun c hc m b ds hb => hnext c hc ⟨m, none, b, ds, .plain hb⟩) ?_
    rintro rfl c hc
    obtain ⟨hne, hl⟩ : l ≠ [] ∧ ∀ c ∈ l, cstrIsDigit c .ten = true := by
      cases h with
      | decimal hne hl => exact ⟨hne, hl⟩
      | radix hmark => exact absurd hmark (mark_ne_ten _)
    have hzero : Body [48] .ten [48] := .decimal (by simp) (by simp [cstrIsDigit])
    constructor <;> rintro rfl
    · exact hnext _ hc ⟨[48], _, _, _, .sized hne hl (.inl rfl) hzero⟩
    · exact hnext _ hc ⟨[48], _, _, _, .sized hne hl (.inr rfl) hzero⟩
  | @sized w l _ mark _ hw hdigits hmark h =>
    refine readAs_sized hw hdigits hmark h fun c hc m b ds hb => ?_
    refine hnext c hc ⟨m, some (w, mark == 115), b, ds, ?_⟩
    rw [List.append_assoc]
    exact .sized hw hdigits hmark hb

theorem dispatch_of_digit (c : UInt8) : cstrIsDigit c .ten = true → dispatch c = .s400 :=
  byte_cases (P := fun c => cstrIsDigit c .ten = true → dispatch c = .s400) (by decide +kernel) c

/-! ## What `next_token` reads at a literal -/

variable {s : State} {p : Nat} {r : List UInt8}

/-- What `next_token` has to make of a literal of some width and value. -/
def IntegerRead (s : State) (p : Nat) (r l : List UInt8) (width : Option (List UInt8 × Bool))
    (value : Nat) : Prop :=
  ∃ token t, nextToken s = .ok (token, t) ∧ token.klass = .integer ∧
    token.start = p + blanks r ∧ token.stop = token.start + l.length ∧
    token.i.flags = ⟨width.isSome, (width.map (·.2)).getD true⟩ ∧
    token.i.width = ((width.map (valueOf .ten ·.1)).getD 0 : Nat) ∧
    (value < 2 ^ 63 → token.i.value = value)

theorem plain_digit {c : UInt8} (h : isDigitOrUnderscore base c = true) : c ≠ 92 ∧ c ≠ 0 := by
  have h16 : cstrIsDigit c .sixteen = true ∨ c = 95 := by
    rw [isDigitOrUnderscore, Bool.or_eq_true] at h
    exact h.imp isDigit_sixteen (by simp)
  constructor <;> rintro rfl <;> simp [cstrIsDigit] at h16

/-- The digits of a literal are installed with their value. -/
theorem Body.installed {memory : Nat → Nat → UInt8} {n : Number} {result : Except Exit Int}
    (h : Body l base digits) (hbase : n.base = base) (hdigits : n.digits r = digits)
    (hins : n.Installs memory r result) : result = .ok (int32 (valueOf base digits)) := by
  obtain ⟨str, hspelled, hinst⟩ := hins
  rw [hbase] at hinst
  rw [hdigits] at hspelled
  have hbytes : str.bytes = digits :=
    hspelled.plain (fun h92 => (plain_digit (h.all _ h92)).1 rfl)
      (fun h0 => (plain_digit (h.all _ h0)).2 rfl)
  have hvalue := integerOf_eq h.ne_nil h.all
  have hstarts : startsNumber str base = true := by
    obtain ⟨c, l, hl⟩ := List.exists_cons_of_ne_nil h.ne_nil
    have hc := h.all c (by rw [hl]; exact List.mem_cons_self ..)
    rw [startsNumber, hbytes, hl]
    exact hc
  cases hinst with
  | value _ hv =>
    rw [hbytes, hvalue] at hv
    rw [Option.some.inj hv]
  | missing hno => rw [hstarts] at hno; cases hno
  | bad _ hv =>
    rw [hbytes, hvalue] at hv
    cases hv

/-- The `i` member of the token of a literal. -/
theorem ReadAs.payload {n : Number} (h : ReadAs r l width base digits n)
    (hl : Spells l width base digits) (hr : ∃ rest, r = l ++ rest)
    (hwidth : ∀ w, width = some w → valueOf .ten w.1 < 2 ^ 31) (v : Int) :
    n.payload r v = ⟨⟨width.isSome, (width.map (·.2)).getD true⟩,
      ((width.map (valueOf .ten ·.1)).getD 0 : Nat), v⟩ := by
  unfold Number.payload
  rw [h.width]
  cases hl with
  | plain => rfl
  | @sized w l' _ mark _ hw hdigits =>
    obtain ⟨rest, rfl⟩ := hr
    have htake : (w ++ mark :: l' ++ rest).take w.length = w := by
      rw [List.append_assoc, List.take_left]
    have hall : ∀ c ∈ w, isDigitOrUnderscore .ten c = true := fun c hc => by
      rw [isDigitOrUnderscore, hdigits c hc]
      rfl
    have hvalue := integerOf_eq hw hall
    simp only [widthLen, Option.map_some, Option.isSome_some, Option.getD_some]
    rw [htake, hvalue, Option.getD_some, int32_of_lt (hwidth _ rfl)]

/-- `next_token` at a literal, with the value of the `int`. -/
theorem nextToken_integer (h : At s p r 0) (hprev : s.tokens ≠ []) (hr : skipBlanks r = l ++ rest)
    (hspell : Spells l width base digits) (hnext : ∀ c, rest.head? = some c → ¬ Extends l c)
    (hwidth : ∀ w, width = some w → valueOf .ten w.1 < 2 ^ 31) :
    wp nextToken s
      (fun token _ => token.klass = .integer ∧ token.start = p + blanks r ∧
        token.stop = token.start + l.length ∧ token.i =
          ⟨⟨width.isSome, (width.map (·.2)).getD true⟩,
            ((width.map (valueOf .ten ·.1)).getD 0 : Nat), int32 (valueOf base digits)⟩)
      (fun _ => False) := by
  obtain ⟨n, hn⟩ := hspell.readAs hnext
  obtain ⟨l', hbody⟩ := hspell.body
  rw [← hr] at hn
  have hshape : nextShape r = .number n := by
    rw [nextShape, shape, hr, dispatch_of_digit _ hspell.head_digit, ← hr]
    exact hn.shape
  refine wp_mono (wp_nextToken_at h ⟨_, List.getLast?_eq_some_getLast hprev, rfl⟩) ?_ ?_
  · rintro token t ⟨hat, -⟩
    have hstop := hat.stop (by rw [hshape]; exact Shape.noConfusion)
    have hklass := hat.klass
    have hpayload := hat.payload
    rw [hshape] at hstop hklass hpayload
    obtain ⟨v, hins, hi⟩ := hpayload
    have hv := Except.ok.inj (hbody.installed hn.base hn.digits hins)
    refine ⟨hklass, hat.start, ?_, ?_⟩
    · rw [hstop, hat.start, ← hn.len]
      rfl
    · rw [hi, hn.payload hspell ⟨rest, hr⟩ hwidth, hv]
  · intro e he
    rw [hshape] at he
    cases hbody.installed hn.base hn.digits he

/-- A value that does not fit an `int` is lost. -/
theorem IntegerRead.fits (h : At s p r 0) (hprev : s.tokens ≠ []) (hr : skipBlanks r = l ++ rest)
    (hspell : Spells l width base digits) (hnext : ∀ c, rest.head? = some c → ¬ Extends l c)
    (hwidth : ∀ w, width = some w → valueOf .ten w.1 < 2 ^ 31)
    (hread : IntegerRead s p r l width (valueOf base digits)) :
    valueOf base digits < 2 ^ 31 ∨ 2 ^ 63 ≤ valueOf base digits := by
  obtain ⟨token, t, hrun, -, -, -, -, -, hvalue⟩ := hread
  have hi := (wp_ok (nextToken_integer h hprev hr hspell hnext hwidth) hrun).2.2.2
  have hlt := int32_lt (valueOf base digits)
  by_contra hno
  have heq := hvalue (by omega)
  rw [hi] at heq
  simp only at heq
  omega

/-- **`next_token` reads an integer literal** as the grammar has it exactly if
the value fits an `int`, or fits not even the field that holds it. -/
theorem integerRead_iff (h : At s p r 0) (hprev : s.tokens ≠ []) (hr : skipBlanks r = l ++ rest)
    (hspell : Spells l width base digits) (hnext : ∀ c, rest.head? = some c → ¬ Extends l c)
    (hwidth : ∀ w, width = some w → valueOf .ten w.1 < 2 ^ 31) :
    IntegerRead s p r l width (valueOf base digits) ↔
      valueOf base digits < 2 ^ 31 ∨ 2 ^ 63 ≤ valueOf base digits := by
  refine ⟨IntegerRead.fits h hprev hr hspell hnext hwidth, fun hfits => ?_⟩
  obtain ⟨token, t, hrun, hklass, hstart, hstop, hi⟩ :=
    wp_returns (nextToken_integer h hprev hr hspell hnext hwidth)
  refine ⟨token, t, hrun, hklass, hstart, hstop, by rw [hi], by rw [hi], fun hlt => ?_⟩
  have hint := int32_of_lt (hfits.resolve_right (Nat.not_le.mpr hlt))
  rw [hi]
  simp only
  exact hint

theorem digit_wordChar (h : isDigitOrUnderscore base c = true) : isWordChar c = true := by
  rw [isDigitOrUnderscore, Bool.or_eq_true] at h
  rcases h with h | h
  · have h16 := isDigit_sixteen h
    revert h16
    exact byte_cases (P := fun c => cstrIsDigit c .sixteen = true → isWordChar c = true)
      (by decide +kernel) c
  · rw [beq_iff_eq.mp h]
    rfl

theorem decimal_wordChar (h : cstrIsDigit c .ten = true) : isWordChar c = true := by
  have hdigit : isDigitOrUnderscore .ten c = true := by
    rw [isDigitOrUnderscore, h]
    rfl
  exact digit_wordChar hdigit

theorem Body.wordChars (h : Body l base digits) : ∀ c ∈ l, isWordChar c = true := by
  have hall := h.all
  cases h with
  | decimal => exact fun c hc => digit_wordChar (hall c hc)
  | radix hmark =>
    intro d hd
    simp only [List.mem_cons] at hd
    rcases hd with rfl | rfl | hd
    · rfl
    · simp only [radixMarks, List.mem_cons, List.not_mem_nil, or_false, Prod.mk.injEq] at hmark
      rcases hmark with ⟨rfl, -⟩ | ⟨rfl, -⟩ | ⟨rfl, -⟩ | ⟨rfl, -⟩ | ⟨rfl, -⟩ | ⟨rfl, -⟩ <;> rfl
    · exact digit_wordChar (hall d hd)

/-- Literals are made of letters, digits and underscores. -/
theorem Spells.wordChars (h : Spells l width base digits) : ∀ c ∈ l, isWordChar c = true := by
  cases h with
  | plain h => exact h.wordChars
  | sized _ hw hmark h =>
    intro d hd
    rcases List.mem_append.mp hd with hd | hd
    · exact decimal_wordChar (hw d hd)
    · rcases List.mem_cons.mp hd with rfl | hd
      · rcases hmark with rfl | rfl <;> rfl
      · exact h.wordChars d hd

theorem not_extends (h : isWordChar c = false) : ¬ Extends l c := by
  rintro ⟨m, width, base, digits, hspell⟩
  have hc := hspell.wordChars c (by simp)
  rw [h] at hc
  cases hc

/-- The literal `8w0xFF`. -/
theorem integerRead_one : IntegerRead (atFirst [56, 119, 48, 120, 70, 70, 59]) 0
    [56, 119, 48, 120, 70, 70, 59] [56, 119, 48, 120, 70, 70] (some ([56], false)) 255 := by
  have hbody : Body [48, 120, 70, 70] .sixteen [70, 70] :=
    .radix (by decide) (by decide +kernel) ⟨70, by decide, by decide⟩
  have hspell : Spells [56, 119, 48, 120, 70, 70] (some ([56], false)) .sixteen [70, 70] :=
    .sized (w := [56]) (by decide) (by decide +kernel) (.inl (rfl : (119 : UInt8) = 119)) hbody
  have hblanks : skipBlanks [56, 119, 48, 120, 70, 70, 59] =
      [56, 119, 48, 120, 70, 70] ++ [59] := rfl
  refine (integerRead_iff ⟨rfl, rfl, by decide, rfl, by decide⟩ (by decide +kernel) hblanks hspell
    (fun c hc => ?_) fun w hw => ?_).mpr (.inl (by decide))
  · obtain rfl := Option.some.inj hc
    exact not_extends (by decide)
  · obtain rfl := Option.some.inj hw
    decide

/-- The value of `2147483648` does not fit an `int`. -/
theorem integerRead_fails : ¬ ∀ (s : State) (p : Nat) (r l rest : List UInt8)
    (width : Option (List UInt8 × Bool)) (base : Base) (digits : List UInt8), At s p r 0 →
    s.tokens ≠ [] → skipBlanks r = l ++ rest → Spells l width base digits →
    (∀ c, rest.head? = some c → ¬ Extends l c) →
    (∀ w, width = some w → valueOf .ten w.1 < 2 ^ 31) →
    IntegerRead s p r l width (valueOf base digits) := by
  intro h
  have hat : At (atFirst [50, 49, 52, 55, 52, 56, 51, 54, 52, 56]) 0
      [50, 49, 52, 55, 52, 56, 51, 54, 52, 56] 0 := ⟨rfl, rfl, by decide, rfl, by decide⟩
  have hspell : Spells [50, 49, 52, 55, 52, 56, 51, 54, 52, 56] none .ten
      [50, 49, 52, 55, 52, 56, 51, 54, 52, 56] := .plain (.decimal (by decide) (by decide +kernel))
  have hblanks : skipBlanks [50, 49, 52, 55, 52, 56, 51, 54, 52, 56] =
      [50, 49, 52, 55, 52, 56, 51, 54, 52, 56] ++ [] := rfl
  have hvalue : valueOf .ten [50, 49, 52, 55, 52, 56, 51, 54, 52, 56] = 2147483648 := by decide
  have hread := h _ 0 _ _ [] none .ten _ hat (List.cons_ne_nil _ _) hblanks hspell nofun nofun
  have hfits := IntegerRead.fits hat (List.cons_ne_nil _ _) hblanks hspell nofun nofun hread
  rw [hvalue] at hfits
  exact absurd hfits (by decide)

end Dp4c.Lex
