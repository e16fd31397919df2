import Dp4c.Lex.Cursor

/-! # Integers

`parse_integer` and `token_install_integer` as functions of the string. -/
namespace Dp4c.Lex

open Dp4c.Lib Dp4c.Lib.Prog

variable {s : State} {E : Exit → Prop} {base : Base}

/-- The digits of a base are digits of sixteen. -/
theorem isDigit_sixteen {c : UInt8} (h : cstrIsDigit c base) : cstrIsDigit c .sixteen := by
  cases base <;> simp only [cstrIsDigit, Bool.or_eq_true, Bool.and_eq_true, decide_eq_true_eq,
    beq_iff_eq, UInt8.le_iff_toNat_le, ← UInt8.toNat_inj] at h ⊢ <;>
    simp only [UInt8.reduceToNat] at h ⊢ <;> omega

theorem digitToInteger_eq {c : UInt8} (h : cstrIsDigit c base) :
    digitToInteger c base = pure (digitValue c) := by
  unfold digitValue
  cases base <;> simp only [cstrIsDigit, Bool.or_eq_true, Bool.and_eq_true, decide_eq_true_eq,
    beq_iff_eq, UInt8.le_iff_toNat_le, ← UInt8.toNat_inj] at h <;>
    simp only [digitToInteger, Bool.and_eq_true, decide_eq_true_eq, UInt8.le_iff_toNat_le] <;>
    simp only [UInt8.reduceToNat] at h ⊢
  · rw [if_neg (by omega), if_neg (by omega)]
  · rw [if_neg (by omega), if_neg (by omega)]
  · rw [if_neg (by omega), if_neg (by omega)]
  · rcases h with (h | h) | h
    · rw [if_pos (by omega), if_neg (by omega), if_neg (by omega)]
    · rw [if_neg (by omega), if_pos (by omega), if_pos (by omega)]
      congr 1
      omega
    · rw [if_neg (by omega), if_neg (by omega), if_pos (by omega), if_neg (by omega),
        if_pos (by omega)]
      congr 1
      omega

theorem wp_parseDigits : ∀ {str : List UInt8} {result : Int},
    wp (parseDigits base str result) s (fun v t => digitsFrom base str result = some v ∧ t = s)
      (fun e => digitsFrom base str result = none ∧ e = .assertion "0")
  | [], _ => ⟨rfl, rfl⟩
  | c :: str, result => by
    unfold parseDigits digitsFrom
    cases hc : cstrIsDigit c base with
    | true =>
      rw [if_pos rfl, if_pos rfl, digitToInteger_eq hc]
      exact wp_parseDigits
    | false =>
      rw [if_neg Bool.false_ne_true, if_neg Bool.false_ne_true]
      by_cases h95 : c = 95
      · rw [if_pos h95, if_pos h95]
        exact wp_parseDigits
      · rw [if_neg h95, if_neg h95]
        exact ⟨rfl, rfl⟩

/-- `parse_integer` on a string that starts like a number. -/
theorem wp_parseInteger {str : Cstr} (h : startsNumber str base = true) :
    wp (parseInteger str base) s (fun v t => integerOf base str.bytes = some v ∧ t = s)
      (fun e => integerOf base str.bytes = none ∧ e = .assertion "0") := by
  obtain ⟨bytes, hnul⟩ := str
  cases bytes with
  | nil => cases h
  | cons c str =>
    have hc : cstrIsDigit c base ∨ c = 95 := by
      simpa [startsNumber] using h
    unfold parseInteger integerOf
    simp only [wp_bind, wp_check]
    rw [if_pos hc]
    by_cases h95 : c = 95
    · rw [if_neg (not_not.mpr h95), if_neg (not_not.mpr h95)]
      exact wp_parseDigits
    · have hdig : cstrIsDigit c base = true := hc.resolve_right h95
      rw [if_pos h95, if_pos h95, digitToInteger_eq hdig]
      exact wp_parseDigits

/-- What becomes of the digits of a number: an integer, the diagnostic for
digits that are missing, or the assertion of `parse_integer`. -/
inductive Installed (base : Base) (line : Nat) (str : Cstr) : Except Exit Int → Prop
  | value {v : Int} : startsNumber str base = true → integerOf base str.bytes = some v →
    Installed base line str (.ok v)
  | missing : startsNumber str base = false →
    Installed base line str (.error (.error (digitsExpected base) line str.bytes))
  | bad : startsNumber str base = true → integerOf base str.bytes = none →
    Installed base line str (.error (.assertion "0"))

/-- **`token_install_integer`** decodes the lexeme and reads the integer. -/
theorem wp_tokenInstallInteger {token : Token} {l post : List UInt8} {next : UInt8}
    {lexeme : Lexeme} (hl : l ≠ []) (hd : s.text.drop lexeme.start = l ++ next :: post)
    (hlast : lexeme.start + l.length = lexeme.last + 1) (hsize : l.length ≤ s.textSize) :
    wp (tokenInstallInteger token lexeme base) s
      (fun token' t => ∃ str v, Spelled s.memory next l str ∧
        Installed base token.lineNr str (.ok v) ∧
        token' = { token with i := { token.i with value := v } } ∧
        t = { s with pushes := s.pushes + 1 })
      (fun e => ∃ str, Spelled s.memory next l str ∧
        Installed base token.lineNr str (.error e)) := by
  unfold tokenInstallInteger
  simp only [wp_bind]
  refine wp_mono (wp_lexemeToCstring hl hd hlast hsize) ?_ fun _ h => h
  rintro str t ⟨hstr, rfl⟩
  cases hs : startsNumber str base with
  | false =>
    rw [if_neg Bool.false_ne_true]
    exact ⟨str, hstr, .missing hs⟩
  | true =>
    rw [if_pos rfl]
    simp only [wp_bind]
    refine wp_mono (wp_parseInteger hs) ?_ ?_
    · rintro v t ⟨hv, rfl⟩
      exact ⟨str, v, hstr, .value hs hv, rfl, rfl⟩
    · rintro e ⟨hv, rfl⟩
      exact ⟨str, hstr, .bad hs hv⟩

end Dp4c.Lex
