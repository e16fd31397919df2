import Dp4c.Lib.Prog
import Mathlib.Algebra.Group.Nat.Defs

/-! # Characters, C strings and exits (basic.c)

A `char` is a byte. Comparisons of signed `char`s with ASCII constants give
the same answers on the byte, so no sign is modelled. A C string is the list
of its bytes before the terminating NUL; what a function reads goes through
the buffer `s.buf`, which ends with the NUL, so a read past it is visible. -/
namespace Dp4c

/-- The ways a run ends without returning. `error` is `error_` (exit 1) with
its format, line and text, `assertion` is `assert_` (exit 2) with the asserted
expression, `perror` a system call reported and given up on. `fault` is an
access the C language gives no meaning to, and `outOfFuel` is a loop of the
model that reached its bound. -/
inductive Exit where
  | error (format : String) (line : Nat) (text : List UInt8)
  | assertion (expr : String)
  | perror (call : String)
  | outOfMemory
  | fault
  | outOfFuel
deriving DecidableEq, Repr

def cstrIsLetter (c : UInt8) : Bool := (65 ≤ c && c ≤ 90) || (97 ≤ c && c ≤ 122)

/-- `cstr_is_digit` for the four bases it accepts; the last branch of the
source is an assertion that no caller reaches. -/
inductive Base where
  | two | eight | ten | sixteen
deriving DecidableEq, Repr

def Base.val : Base → Nat
  | .two => 2 | .eight => 8 | .ten => 10 | .sixteen => 16

def cstrIsDigit (c : UInt8) : Base → Bool
  | .ten => 48 ≤ c && c ≤ 57
  | .sixteen => (48 ≤ c && c ≤ 57) || (97 ≤ c && c ≤ 102) || (65 ≤ c && c ≤ 70)
  | .eight => 48 ≤ c && c ≤ 55
  | .two => c == 48 || c == 49

/-- The bytes of a C string, the terminating NUL left out. -/
structure Cstr where
  bytes : List UInt8
  noNul : 0 ∉ bytes
deriving DecidableEq

namespace Cstr

theorem noNul_nil : 0 ∉ ([] : List UInt8) := List.not_mem_nil

/-- The memory a C string occupies. -/
def buf (s : Cstr) : List UInt8 := s.bytes ++ [0]

def ofString (s : String) : Cstr :=
  ⟨(s.toList.map fun c => c.toNat.toUInt8).filter (· != 0), by simp⟩

@[ext] theorem ext {a b : Cstr} (h : a.bytes = b.bytes) : a = b := by
  cases a; cases b; simpa using h

end Cstr

/-- The loop of `cstr_match` on what is left of the two buffers, `none` when
it reads past the end of one. -/
def cstrMatchLoop : List UInt8 → List UInt8 → Option Bool
  | a :: as, b :: bs =>
    if a = b then
      match as, bs with
      | a' :: _, b' :: _ => if a' = 0 then some (a' == b') else cstrMatchLoop as bs
      | _, _ => none
    else some false
  | _, _ => none

def cstrMatch (strA strB : Cstr) : Option Bool := cstrMatchLoop strA.buf strB.buf

/-- From a position before the terminator of the first string, the loop
compares the rests. -/
theorem cstrMatchLoop_eq : ∀ (a b : List UInt8), a ≠ [] → 0 ∉ a → 0 ∉ b →
    cstrMatchLoop (a ++ [0]) (b ++ [0]) = some (decide (a = b))
  | [], _, h, _, _ => absurd rfl h
  | x :: a, [], _, hx, _ => by
    have hne : x ≠ 0 := by simp only [List.mem_cons, not_or] at hx; exact Ne.symm hx.1
    simp [cstrMatchLoop, hne]
  | x :: a, y :: b, _, hx, hy => by
    simp only [List.mem_cons, not_or] at hx hy
    by_cases hxy : x = y
    · subst hxy
      cases a with
      | nil =>
        cases b with
        | nil => simp [cstrMatchLoop]
        | cons b' b =>
          have hb : b' ≠ 0 := by simp only [List.mem_cons, not_or] at hy; exact Ne.symm hy.2.1
          simp [cstrMatchLoop, Ne.symm hb]
      | cons a' a =>
        have ha : a' ≠ 0 := by simp only [List.mem_cons, not_or] at hx; exact Ne.symm hx.2.1
        have ih := cstrMatchLoop_eq (a' :: a) b (by simp) hx.2 hy.2
        have hb : b ++ [0] ≠ [] := by simp
        obtain ⟨b', bs, hbs⟩ := List.exists_cons_of_ne_nil hb
        rw [hbs] at ih
        simp only [List.cons_append, hbs, cstrMatchLoop, if_true, ha, if_false]
        simpa [cstrMatchLoop] using ih
    · simp [cstrMatchLoop, hxy]

/-- On a non-empty first string `cstr_match` decides equality. -/
theorem cstrMatch_eq (a b : Cstr) (ha : a.bytes ≠ []) : cstrMatch a b = some (decide (a = b)) := by
  have h := cstrMatchLoop_eq a.bytes b.bytes ha a.noNul b.noNul
  have he : a.bytes = b.bytes ↔ a = b := ⟨Cstr.ext, congrArg Cstr.bytes⟩
  simpa only [cstrMatch, Cstr.buf, he] using h

/-- The loop of `cstr_start_with` on what is left of the two buffers. -/
def cstrStartWithLoop : List UInt8 → List UInt8 → Option Bool
  | a :: as, b :: bs =>
    if a = b then
      match bs with
      | b' :: _ => if b' = 0 then some true else cstrStartWithLoop as bs
      | [] => none
    else some (b == 0)
  | _, _ => none

def cstrStartWith (str start : Cstr) : Option Bool := cstrStartWithLoop str.buf start.buf

/-- From a position before the terminator of the second string, the loop looks for it at the
front of the rest of the first one. -/
theorem cstrStartWithLoop_eq : ∀ (a b : List UInt8), b ≠ [] → 0 ∉ a → 0 ∉ b →
    cstrStartWithLoop (a ++ [0]) (b ++ [0]) = some (decide (b <+: a))
  | _, [], h, _, _ => absurd rfl h
  | [], y :: b, _, _, hy => by
    have hne : y ≠ 0 := by simp only [List.mem_cons, not_or] at hy; exact Ne.symm hy.1
    simp [cstrStartWithLoop, hne, Ne.symm hne]
  | x :: a, y :: b, _, hx, hy => by
    simp only [List.mem_cons, not_or] at hx hy
    by_cases hxy : x = y
    · subst hxy
      cases b with
      | nil => simp [cstrStartWithLoop]
      | cons b' b =>
        have hb : b' ≠ 0 := by simp only [List.mem_cons, not_or] at hy; exact Ne.symm hy.2.1
        have ih := cstrStartWithLoop_eq a (b' :: b) (by simp) hx.2 hy.2
        simp only [List.cons_append] at ih
        simp only [List.cons_append, cstrStartWithLoop, if_true, hb, if_false, ih,
          List.cons_prefix_cons, true_and]
    · have hne : y ≠ 0 := Ne.symm hy.1
      simp [cstrStartWithLoop, hxy, hne, List.cons_prefix_cons, Ne.symm hxy]

/-- Both comparisons answer for their strings and read neither past its terminator. -/
def Compares (a b : Cstr) : Prop :=
  cstrMatch a b = some (decide (a = b)) ∧ cstrStartWith a b = some (decide (b.bytes <+: a.bytes))

/-- The loops step before they test for the terminator, so two empty strings are read past
it; no other strings are. -/
theorem compares_iff (a b : Cstr) : Compares a b ↔ ¬ (a.bytes = [] ∧ b.bytes = []) := by
  constructor
  · rintro ⟨hmatch, -⟩ ⟨ha, hb⟩
    simp [cstrMatch, Cstr.buf, ha, hb, cstrMatchLoop] at hmatch
  · intro hne
    refine ⟨?_, ?_⟩
    · by_cases ha : a.bytes = []
      · -- the first character of the other string is no terminator
        obtain ⟨y, bs, hb⟩ := List.exists_cons_of_ne_nil fun hb => hne ⟨ha, hb⟩
        have hy : y ≠ 0 := fun h => b.noNul (by rw [hb, h]; exact List.mem_cons_self)
        have hab : a ≠ b := fun h => by rw [← h, ha] at hb; cases hb
        simp [cstrMatch, Cstr.buf, ha, hb, cstrMatchLoop, Ne.symm hy, hab]
      · exact cstrMatch_eq a b ha
    · by_cases hb : b.bytes = []
      · obtain ⟨x, as, ha⟩ := List.exists_cons_of_ne_nil fun ha => hne ⟨ha, hb⟩
        have hx : x ≠ 0 := fun h => a.noNul (by rw [ha, h]; exact List.mem_cons_self)
        simp [cstrStartWith, Cstr.buf, ha, hb, cstrStartWithLoop, hx]
      · exact cstrStartWithLoop_eq a.bytes b.bytes hb a.noNul b.noNul

theorem compares_fails : ¬ Compares ⟨[], by decide⟩ ⟨[], by decide⟩ := fun h =>
  nomatch h.1

end Dp4c
