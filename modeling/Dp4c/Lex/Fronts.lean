import Dp4c.Lex.Spans

/-! # The fronts of a text

The places of a text where tokens begin, found from the text alone, and the
numbers that are read there. -/
namespace Dp4c.Lex

open Dp4c.Lib Dp4c.Lib.Prog

/-! ## Numbers -/

/-- The numbers that begin a rest: without a width or with one, and without a
prefix or with one. -/
inductive NumberOf (r : List UInt8) : Number → Prop
  | decimal : prefixOf r = none →
      ¬ (r.getD (decimalLen r) 0 = 119 ∨ r.getD (decimalLen r) 0 = 115) →
      NumberOf r ⟨none, .ten, 0, decimalLen r⟩
  | radix {base : Base} {c : UInt8} {l : List UInt8} : prefixOf r = some base →
      r.drop 2 = c :: l →
      NumberOf r ⟨none, base, 2, (l.takeWhile (isDigitOrUnderscore base)).length + 1⟩
  | sized {c : UInt8} {l : List UInt8} : prefixOf r = none →
      r.getD (decimalLen r) 0 = 119 ∨ r.getD (decimalLen r) 0 = 115 →
      prefixOf (r.drop (decimalLen r + 1)) = none → r.drop (decimalLen r + 1) = c :: l →
      NumberOf r ⟨some (decimalLen r, r.getD (decimalLen r) 0 == 115), .ten, decimalLen r + 1,
        (l.takeWhile (cstrIsDigit · .ten)).length + 1⟩
  | sizedRadix {base : Base} {c : UInt8} {l : List UInt8} : prefixOf r = none →
      r.getD (decimalLen r) 0 = 119 ∨ r.getD (decimalLen r) 0 = 115 →
      prefixOf (r.drop (decimalLen r + 1)) = some base → r.drop (decimalLen r + 3) = c :: l →
      NumberOf r ⟨some (decimalLen r, r.getD (decimalLen r) 0 == 115), base, decimalLen r + 3,
        (l.takeWhile (isDigitOrUnderscore base)).length + 1⟩

variable {r : List UInt8} {n : Number}

theorem numberAt_inv {width : Option (Nat × Bool)} {base : Base} {k : Nat} {p : UInt8 → Bool}
    (h : numberAt r width base k p = .number n) :
    ∃ c l, r.drop k = c :: l ∧ n = ⟨width, base, k, (l.takeWhile p).length + 1⟩ := by
  unfold numberAt at h
  split at h
  · cases h
  · rename_i c l hl
    exact ⟨c, l, hl, (Shape.number.inj h).symm⟩

theorem numberOf_shape (h : numberShape r = .number n) : NumberOf r n := by
  unfold numberShape at h
  split at h
  · rename_i base hbase
    obtain ⟨c, l, hl, rfl⟩ := numberAt_inv h
    exact .radix hbase hl
  · rename_i hnone
    simp only at h
    split at h
    · rename_i hmark
      unfold widthShape at h
      simp only at h
      split at h
      · rename_i base hbase
        obtain ⟨c, l, hl, rfl⟩ := numberAt_inv h
        exact .sizedRadix hnone hmark hbase hl
      · rename_i hnone'
        obtain ⟨c, l, hl, rfl⟩ := numberAt_inv h
        exact .sized hnone hmark hnone' hl
    · rename_i hmark
      obtain rfl := Shape.number.inj h
      exact .decimal hnone hmark

/-! ## The kinds of tokens -/

/-- The character that a state is entered at, where there is only one. -/
def stateChar : LexState → Option UInt8
  | .s100 => some 59 | .s101 => some 60 | .s102 => some 62 | .s103 => some 95 | .s104 => some 58
  | .s105 => some 40 | .s106 => some 41 | .s107 => some 46 | .s108 => some 123
  | .s109 => some 125 | .s110 => some 91 | .s111 => some 93 | .s112 => some 44
  | .s113 => some 45 | .s114 => some 43 | .s115 => some 42 | .s116 => some 47 | .s117 => some 61
  | .s118 => some 33 | .s119 => some 38 | .s120 => some 124 | .s121 => some 94
  | .s122 => some 126 | .s200 => some 34 | _ => none

theorem dispatch_char {c d : UInt8} (h : stateChar (dispatch c) = some d) : c = d := by
  have hall := byte_cases (P := fun c => stateChar (dispatch c) = none ∨
    stateChar (dispatch c) = some c) (by decide +kernel) c
  rcases hall with hall | hall
  · rw [hall] at h
    cases h
  · rw [hall] at h
    exact Option.some.inj h

theorem cons_of_getD {t : List UInt8} {c d : UInt8} (hd : d ≠ 0) (h : (c :: t).getD 1 0 = d) :
    ∃ t', t = d :: t' := by
  cases t with
  | nil => exact absurd h.symm hd
  | cons d' t => exact ⟨t, by rw [show d' = d from h]⟩

theorem cons_of_headD {c : UInt8} (hc : c ≠ 0) (h : r.headD 0 = c) : ∃ t, r = c :: t := by
  cases r with
  | nil => exact absurd h.symm hc
  | cons d t => exact ⟨t, by rw [show d = c from h]⟩

/-- The kinds of tokens, with the characters they begin with. -/
inductive Shape.Kind (r : List UInt8) : Shape → Prop
  | endOfInput : Kind r .endOfInput
  | unknown : Kind r .unknown
  | stuck : Kind r .stuck
  | plain {klass : TokenClass} {n : Nat} : Kind r (.plain klass n)
  | minus {t : List UInt8} : r = 45 :: t → Kind r .minus
  | blockComment {t : List UInt8} {n : Nat} : r = 47 :: 42 :: t → blockEnd t = some n →
      Kind r (.blockComment (n + 2))
  | lineComment {t : List UInt8} {n : Nat} : r = 47 :: 47 :: t → endAt isNewline t = some n →
      Kind r (.lineComment (n + 2))
  | stringLiteral {t : List UInt8} {n : Nat} : r = 34 :: t → endAt isStringEnd t = some n →
      Kind r (.stringLiteral (n + 1))
  | number {n : Number} : NumberOf r n → cstrIsDigit (r.getD 0 0) .ten = true → Kind r (.number n)

theorem kind_second {c : UInt8} {klass : TokenClass} {rest : Shape} (h : Shape.Kind r rest) :
    Shape.Kind r (secondShape r c klass rest) := by
  unfold secondShape
  split
  · exact .plain
  · exact h

theorem kind_underscore :
    Shape.Kind r (if isWordChar (r.getD 1 0) then wordShape r else .plain .dontcare 1) := by
  split
  · exact .plain
  · exact .plain

theorem kind_ampersand : Shape.Kind r (ampersandShape r) := by
  unfold ampersandShape
  split
  · split
    · exact .plain
    · exact .plain
  · exact .plain

theorem kind_slash (h : r.headD 0 = 47) : Shape.Kind r (slashShape r) := by
  obtain ⟨t, rfl⟩ := cons_of_headD (by decide) h
  unfold slashShape
  split
  · rename_i hget
    obtain ⟨t, rfl⟩ := cons_of_getD (by decide) hget
    show Shape.Kind _ (.upTo _ (blockEnd t))
    cases hend : blockEnd t with
    | none => exact .stuck
    | some n => exact .blockComment rfl hend
  · split
    · rename_i hget
      obtain ⟨t, rfl⟩ := cons_of_getD (by decide) hget
      show Shape.Kind _ (.upTo _ (endAt isNewline (47 :: t)))
      rw [endAt_cons_neg rfl]
      cases hend : endAt isNewline t with
      | none => exact .stuck
      | some n => exact .lineComment rfl hend
    · exact .plain

theorem kind_string (h : r.headD 0 = 34) : Shape.Kind r (stringShape r) := by
  obtain ⟨t, rfl⟩ := cons_of_headD (by decide) h
  show Shape.Kind _ (.upTo _ (endAt isStringEnd t))
  cases hend : endAt isStringEnd t with
  | none => exact .stuck
  | some n => exact .stringLiteral rfl hend

theorem numberShape_cases (r : List UInt8) :
    numberShape r = .stuck ∨ ∃ n, numberShape r = .number n := by
  have hat : ∀ {width base k p}, numberAt r width base k p = .stuck ∨
      ∃ n, numberAt r width base k p = .number n := by
    intro width base k p
    unfold numberAt
    split
    · exact .inl rfl
    · exact .inr ⟨_, rfl⟩
  unfold numberShape
  split
  · exact hat
  · simp only
    split
    · unfold widthShape
      simp only
      split
      · exact hat
      · exact hat
    · exact .inr ⟨_, rfl⟩

theorem kind_number (h : cstrIsDigit (r.getD 0 0) .ten = true) :
    Shape.Kind r (numberShape r) := by
  rcases numberShape_cases r with hsh | ⟨n, hsh⟩
  · rw [hsh]
    exact .stuck
  · rw [hsh]
    exact .number (numberOf_shape hsh) h

/-- **Every token** is of one of the kinds. -/
theorem shape_kind (r : List UInt8) : Shape.Kind r (shape r) := by
  have hdigit := dispatch_digit (r.headD 0)
  have hchar : ∀ {d}, stateChar (dispatch (r.headD 0)) = some d → r.headD 0 = d := dispatch_char
  unfold shape
  generalize dispatch (r.headD 0) = state at *
  cases state
  case s2 => exact .endOfInput
  case s101 => exact kind_second (kind_second .plain)
  case s102 => exact kind_second (kind_second .plain)
  case s103 => exact kind_underscore
  case s113 =>
    obtain ⟨t, ht⟩ := cons_of_headD (by decide) (hchar rfl)
    exact .minus ht
  case s116 => exact kind_slash (hchar rfl)
  case s117 => exact kind_second .plain
  case s118 => exact kind_second .plain
  case s119 => exact kind_ampersand
  case s120 => exact kind_second .plain
  case s200 => exact kind_string (hchar rfl)
  case s400 => exact kind_number (by rw [← headD_eq]; exact hdigit rfl)
  all_goals first | exact .plain | exact .unknown

theorem minus_inv (h : shape r = .minus) : ∃ t, r = 45 :: t := by
  have hkind := shape_kind r
  rw [h] at hkind
  cases hkind with
  | minus ht => exact ⟨_, ht⟩

theorem blockComment_inv {k : Nat} (h : shape r = .blockComment k) :
    ∃ t n, r = 47 :: 42 :: t ∧ blockEnd t = some n ∧ k = n + 2 := by
  have hkind := shape_kind r
  rw [h] at hkind
  cases hkind with
  | blockComment ht hend => exact ⟨_, _, ht, hend, rfl⟩

theorem lineComment_inv {k : Nat} (h : shape r = .lineComment k) :
    ∃ t n, r = 47 :: 47 :: t ∧ endAt isNewline t = some n ∧ k = n + 2 := by
  have hkind := shape_kind r
  rw [h] at hkind
  cases hkind with
  | lineComment ht hend => exact ⟨_, _, ht, hend, rfl⟩

theorem string_inv {k : Nat} (h : shape r = .stringLiteral k) :
    ∃ t n, r = 34 :: t ∧ endAt isStringEnd t = some n ∧ k = n + 1 := by
  have hkind := shape_kind r
  rw [h] at hkind
  cases hkind with
  | stringLiteral ht hend => exact ⟨_, _, ht, hend, rfl⟩

theorem shape_number (h : shape r = .number n) :
    NumberOf r n ∧ cstrIsDigit (r.getD 0 0) .ten = true := by
  have hkind := shape_kind r
  rw [h] at hkind
  cases hkind with
  | number hof hdigit => exact ⟨hof, hdigit⟩

/-! ## The digits of a number -/

/-- The first character of the string that `token_install_integer` is given. -/
def Number.first (n : Number) (r : List UInt8) : UInt8 :=
  (decode (r.getD (n.body + n.bodyLen) 0) (n.digits r)).headD 0

/-- The digits of the number start like digits. -/
def Number.starts (n : Number) (r : List UInt8) : Bool := isDigitOrUnderscore n.base (n.first r)

/-- The digits begin with a backslash that stands for a digit: the string ends
with a byte of the memory it was made in. -/
def Number.loose (n : Number) (r : List UInt8) : Bool :=
  r.getD n.body 0 == 92 && decide (2 ≤ n.bodyLen)

/-- The digits of a number: any character, and a run. -/
theorem NumberOf.digits_eq (h : NumberOf r n) (hdigit : cstrIsDigit (r.getD 0 0) .ten = true) :
    ∃ l, n.digits r = r.getD n.body 0 :: l ∧ n.bodyLen = l.length + 1 ∧
      ∀ c ∈ l, isDigitOrUnderscore n.base c = true := by
  have hrun : ∀ {c : UInt8} {l : List UInt8} {p : UInt8 → Bool} {k : Nat}, r.drop k = c :: l →
      (r.drop k).take ((l.takeWhile p).length + 1) = r.getD k 0 :: l.takeWhile p := by
    intro c l p k hdrop
    have hc : r.getD k 0 = c := by
      rw [← headD_drop, hdrop]
      rfl
    rw [hdrop, hc, List.take_succ_cons,
      ← List.prefix_iff_eq_take.mp (List.takeWhile_prefix p)]
  have hten : ∀ {c : UInt8}, cstrIsDigit c .ten = true → isDigitOrUnderscore .ten c = true :=
    fun hc => by rw [isDigitOrUnderscore, hc]; rfl
  cases h with
  | decimal =>
    cases r with
    | nil => cases hdigit
    | cons c t =>
      exact ⟨_, hrun (k := 0) rfl, rfl, fun d hd =>
        hten (List.mem_takeWhile_imp (p := (cstrIsDigit · .ten)) hd)⟩
  | radix _ hdrop => exact ⟨_, hrun hdrop, rfl, fun d hd => List.mem_takeWhile_imp hd⟩
  | sized _ _ _ hdrop =>
    exact ⟨_, hrun hdrop, rfl, fun d hd =>
      hten (List.mem_takeWhile_imp (p := (cstrIsDigit · .ten)) hd)⟩
  | sizedRadix _ _ _ hdrop => exact ⟨_, hrun hdrop, rfl, fun d hd => List.mem_takeWhile_imp hd⟩

/-- A lexeme that keeps its length is spelled in one way. -/
theorem Spelled.tight {memory : Nat → Nat → UInt8} {next : UInt8} {l : List UInt8} {string : Cstr}
    (h : Spelled memory next l string) (hlen : (decode next l).length = l.length) :
    string = cstrOf (decode next l) := by
  obtain ⟨junk, hjunk, -, rfl⟩ := h
  obtain rfl : junk = [] := List.length_eq_zero_iff.mp (by omega)
  rw [List.append_nil]

theorem digit_ne_backslash {base : Base} {c : UInt8} (h : isDigitOrUnderscore base c = true) :
    c ≠ 92 ∧ c ≠ 0 ∧ escapeChar c = c := by
  have h16 : isDigitOrUnderscore .sixteen c = true := by
    rw [isDigitOrUnderscore, Bool.or_eq_true] at h ⊢
    exact h.imp isDigit_sixteen id
  revert h16
  exact byte_cases (P := fun c => isDigitOrUnderscore .sixteen c = true →
    c ≠ 92 ∧ c ≠ 0 ∧ escapeChar c = c) (by decide +kernel) c

theorem not_mem_digits {base : Base} {l : List UInt8}
    (h : ∀ c ∈ l, isDigitOrUnderscore base c = true) : 92 ∉ l ∧ 0 ∉ l :=
  ⟨fun hm => (digit_ne_backslash (h _ hm)).1 rfl, fun hm => (digit_ne_backslash (h _ hm)).2.1 rfl⟩

theorem startsNumber_cstrOf (base : Base) (l : List UInt8) :
    startsNumber (cstrOf l) base = isDigitOrUnderscore base (l.headD 0) := by
  cases l with
  | nil => cases base <;> rfl
  | cons c l =>
    by_cases hc : c = 0
    · subst hc
      cases base <;> rfl
    · have hbytes : (cstrOf (c :: l)).bytes = c :: (cstrOf l).bytes := by
        unfold cstrOf
        simp only
        rw [List.takeWhile_cons_of_pos (by simpa using hc)]
      rw [startsNumber, hbytes]
      rfl

section Installs

variable {memory : Nat → Nat → UInt8} {result : Except Exit Int}

/-- The string of a number that keeps its length, as digits. -/
theorem NumberOf.tight (h : NumberOf r n) (hdigit : cstrIsDigit (r.getD 0 0) .ten = true)
    (hloose : n.loose r = false) :
    (decode (r.getD (n.body + n.bodyLen) 0) (n.digits r)).length = (n.digits r).length ∧
      ∀ c ∈ (decode (r.getD (n.body + n.bodyLen) 0) (n.digits r)).tail,
        isDigitOrUnderscore n.base c = true := by
  obtain ⟨l, hl, hlen, hall⟩ := h.digits_eq hdigit
  generalize r.getD (n.body + n.bodyLen) 0 = next
  by_cases h92 : r.getD n.body 0 = 92
  · have hnil : l = [] := by
      rw [Number.loose, h92, beq_self_eq_true, Bool.true_and, decide_eq_false_iff_not] at hloose
      exact List.length_eq_zero_iff.mp (by omega)
    rw [hl, hnil, h92]
    exact ⟨rfl, by simp [decode]⟩
  · have hplain : decode next (n.digits r) = n.digits r := by
      refine decode_plain ?_
      rw [hl, List.mem_cons, not_or]
      exact ⟨Ne.symm h92, (not_mem_digits hall).1⟩
    rw [hplain]
    refine ⟨rfl, ?_⟩
    rw [hl]
    exact hall

theorem decode_ne_nil (next : UInt8) : ∀ {l : List UInt8}, l ≠ [] → decode next l ≠ []
  | [], h => absurd rfl h
  | [c], _ => by unfold decode; split <;> exact List.cons_ne_nil _ _
  | c :: c' :: l, _ => by unfold decode; split <;> exact List.cons_ne_nil _ _

theorem Number.Installs.starts (h : n.Installs memory r result) (hne : n.digits r ≠ []) :
    ∃ str, Spelled memory (r.getD (n.body + n.bodyLen) 0) (n.digits r) str ∧
      startsNumber str n.base = n.starts r ∧ Installed n.base 0 str result := by
  obtain ⟨str, hspelled, hinst⟩ := h
  refine ⟨str, hspelled, ?_, hinst⟩
  obtain ⟨junk, -, -, rfl⟩ := hspelled
  obtain ⟨c, l, hc⟩ := List.exists_cons_of_ne_nil
    (decode_ne_nil (r.getD (n.body + n.bodyLen) 0) hne)
  rw [startsNumber_cstrOf, Number.starts, Number.first, hc]
  rfl

/-- Digits that do not start like digits are reported. -/
theorem Number.Installs.missing (h : n.Installs memory r result) (hne : n.digits r ≠ [])
    (hstarts : n.starts r = false) : ∃ format line text,
    result = .error (.error format line text) := by
  obtain ⟨str, -, hstr, hinst⟩ := h.starts hne
  rw [hstarts] at hstr
  cases hinst with
  | value hyes => rw [hstr] at hyes; cases hyes
  | missing => exact ⟨_, _, _, rfl⟩
  | bad hyes => rw [hstr] at hyes; cases hyes

/-- Digits that start like digits have a value, or make `parse_integer` fail. -/
theorem Number.Installs.value (h : n.Installs memory r result) (hne : n.digits r ≠ [])
    (hstarts : n.starts r = true) : (∃ v, result = .ok v) ∨ result = .error (.assertion "0") := by
  obtain ⟨str, -, hstr, hinst⟩ := h.starts hne
  rw [hstarts] at hstr
  cases hinst with
  | value => exact .inl ⟨_, rfl⟩
  | missing hno => rw [hstr] at hno; cases hno
  | bad => exact .inr rfl

/-- A number that is not loose has a value that does not depend on the memory. -/
theorem NumberOf.value (h : NumberOf r n) (hdigit : cstrIsDigit (r.getD 0 0) .ten = true)
    (hstarts : n.starts r = true) (hloose : n.loose r = false) :
    ∃ v, ∀ {memory result}, n.Installs memory r result → result = .ok v := by
  obtain ⟨hlen, htail⟩ := h.tight hdigit hloose
  obtain ⟨l, hl, -, -⟩ := h.digits_eq hdigit
  rw [Number.starts, Number.first] at hstarts
  have hne : n.digits r ≠ [] := by
    rw [hl]
    exact List.cons_ne_nil _ _
  obtain ⟨c, t, hc⟩ := List.exists_cons_of_ne_nil
    (decode_ne_nil (r.getD (n.body + n.bodyLen) 0) hne)
  have hall : ∀ d ∈ c :: t, isDigitOrUnderscore n.base d = true := by
    intro d hd
    rw [hc] at hstarts htail
    rcases List.mem_cons.mp hd with rfl | hd
    · exact hstarts
    · exact htail d hd
  obtain ⟨v, hv⟩ := integerOf_some hall
  refine ⟨v, fun {memory result} hins => ?_⟩
  obtain ⟨str, hspelled, hinst⟩ := hins
  have hstr := hspelled.tight hlen
  have hbytes : str.bytes = c :: t := by
    rw [hstr, hc]
    exact cstrOf_bytes (not_mem_digits hall).2
  cases hinst with
  | value _ hv' =>
    rw [hbytes, hv] at hv'
    rw [Option.some.inj hv']
  | missing hno =>
    rw [startsNumber, hbytes] at hno
    have hyes := hall c (List.mem_cons_self ..)
    rw [isDigitOrUnderscore] at hyes
    simp only at hno
    rw [hno] at hyes
    cases hyes
  | bad _ hv' =>
    rw [hbytes, hv] at hv'
    cases hv'

theorem digitsFrom_none {base : Base} : ∀ {l : List UInt8} (v : Int),
    (∀ c ∈ l, isDigitOrUnderscore base c = true) → digitsFrom base (l ++ [33]) v = none
  | [], v, _ => by cases base <;> rfl
  | c :: l, v, h => by
    have hrest := fun d hd => h d (List.mem_cons_of_mem _ hd)
    have hc := h c (List.mem_cons_self ..)
    rw [isDigitOrUnderscore, Bool.or_eq_true, beq_iff_eq] at hc
    rw [List.cons_append, digitsFrom]
    split
    · exact digitsFrom_none _ hrest
    · rename_i hno
      rw [if_pos (hc.resolve_left hno)]
      exact digitsFrom_none _ hrest

/-- Over memory that holds an exclamation mark a loose number fails. -/
theorem NumberOf.loose_fails (h : NumberOf r n) (hdigit : cstrIsDigit (r.getD 0 0) .ten = true)
    (hstarts : n.starts r = true) (hloose : n.loose r = true)
    (hins : n.Installs (fun _ _ => 33) r result) : result = .error (.assertion "0") := by
  obtain ⟨l, hl, hlen, hall⟩ := h.digits_eq hdigit
  rw [Number.loose, Bool.and_eq_true, beq_iff_eq, decide_eq_true_eq] at hloose
  obtain ⟨d, l, rfl⟩ := List.exists_cons_of_ne_nil (l := l) (by rintro rfl; simp at hlen; omega)
  have hd := digit_ne_backslash (hall d (List.mem_cons_self ..))
  have hrest := fun x hx => hall x (List.mem_cons_of_mem _ hx)
  have hdecode : decode (r.getD (n.body + n.bodyLen) 0) (n.digits r) = d :: l := by
    rw [hl, hloose.1, decode, if_pos rfl, hd.2.2, decode_plain (not_mem_digits hrest).1]
  rcases hins.value (by rw [hl]; simp) hstarts with ⟨v, rfl⟩ | hfail
  · obtain ⟨str, ⟨junk, hjunk, hmem, rfl⟩, hinst⟩ := hins
    rw [hdecode, hl] at hjunk
    rw [hdecode] at hinst
    obtain ⟨b, rfl⟩ : ∃ b, junk = [b] := List.length_eq_one_iff.mp (by simpa using hjunk)
    obtain ⟨_, _, rfl⟩ := hmem b (List.mem_singleton.mpr rfl)
    have hbytes : (cstrOf (d :: l ++ [33])).bytes = d :: (l ++ [33]) := by
      refine cstrOf_bytes ?_
      rw [List.mem_append, not_or]
      exact ⟨(not_mem_digits hall).2, by decide⟩
    cases hinst with
    | value _ hv =>
      rw [hbytes, integerOf, digitsFrom_none _ hrest] at hv
      cases hv
  · exact hfail

end Installs

/-! ## The fronts -/

/-- The token at a front is read, and the text goes on after it. -/
def goesOn (r : List UInt8) : Bool :=
  match shape r with
  | .endOfInput | .unknown | .stuck => false
  | .number n => n.starts r
  | _ => true

/-- The rests at the first characters of the tokens, the last of them the one
that nothing is read after. -/
def frontsFrom : Nat → List UInt8 → List (List UInt8)
  | 0, _ => []
  | fuel + 1, r =>
    skipBlanks r :: if goesOn (skipBlanks r) then frontsFrom fuel (afterToken r) else []

def fronts (text : List UInt8) : List (List UInt8) := frontsFrom (text.length + 1) text

variable {memory : Nat → Nat → UInt8} {prev : TokenClass} {line p : Nat} {token : Token}

/-- The number of a token that was read has digits. -/
theorem TokenAt.starts (h : TokenAt memory prev line p r token) (hn : nextShape r = .number n) :
    n.starts (skipBlanks r) = true := by
  have hpayload := h.payload
  rw [hn] at hpayload
  obtain ⟨v, hins, -⟩ := hpayload
  obtain ⟨hof, hdigit⟩ := shape_number hn
  obtain ⟨l, hl, -⟩ := hof.digits_eq hdigit
  by_contra hno
  obtain ⟨_, _, _, hmissing⟩ := hins.missing (by rw [hl]; simp) (by simpa using hno)
  cases hmissing

theorem TokenAt.goesOn (h : TokenAt memory prev line p r token) (hend : nextShape r ≠ .endOfInput)
    (hunk : nextShape r ≠ .unknown) : goesOn (skipBlanks r) = true := by
  have hstarts := fun n => h.starts (n := n)
  have hstuck := h.shape
  unfold Lex.goesOn
  rw [nextShape] at hend hunk hstuck hstarts
  cases hsh : Lex.shape (skipBlanks r) with
  | endOfInput => exact absurd hsh hend
  | unknown => exact absurd hsh hunk
  | stuck => exact absurd hsh hstuck
  | number n => exact hstarts n hsh
  | _ => rfl

theorem frontsFrom_next {fuel : Nat} (h : goesOn (skipBlanks r) = true) :
    frontsFrom (fuel + 1) r = skipBlanks r :: frontsFrom fuel (afterToken r) := by
  rw [frontsFrom, if_pos h]

end Dp4c.Lex
