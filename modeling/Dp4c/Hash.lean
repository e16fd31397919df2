import Dp4c.Cstr

/-! # String hashing (hash.c)

All arithmetic is the machine's: `uint32_t` wraps, the product of
`multiply_hash` is taken in 64 bits and cut back to 32. -/
namespace Dp4c

/-- `fold_string`: `K = (P * K + *s) % Q` over the bytes before the NUL. -/
def foldString (string : List UInt8) : UInt32 :=
  string.foldl (fun K s => (257 * K + s.toUInt32) % 4294967029) 0

def multiplyHash (K m : UInt32) : UInt32 :=
  let Ksigma : UInt64 := 2654435769 * K.toUInt64
  Ksigma.toUInt32 >>> (32 - m)

def hashString (string : Cstr) (m : Nat) : Nat :=
  let K := foldString string.bytes
  (multiplyHash K m.toUInt32 % ((1 <<< m.toUInt32) - 1)).toNat

theorem one_shiftLeft_toNat {m : Nat} (h : m < 32) : (1 <<< m.toUInt32 : UInt32).toNat = 2 ^ m := by
  have hm : m.toUInt32.toNat = m := by simp; omega
  rw [UInt32.toNat_shiftLeft, hm, Nat.mod_eq_of_lt h]
  simp only [UInt32.reduceToNat, Nat.one_shiftLeft]
  exact Nat.mod_eq_of_lt (Nat.pow_lt_pow_right (by omega) h)

/-- A hash of width `m` is an index below `2^m - 1`. -/
theorem hashString_lt (string : Cstr) {m : Nat} (h2 : 2 ≤ m) (h : m < 32) :
    hashString string m < 2 ^ m - 1 := by
  have hpow : 2 ^ 2 ≤ 2 ^ m := Nat.pow_le_pow_right (by omega) h2
  have hone := one_shiftLeft_toNat h
  have hsub : ((1 <<< m.toUInt32) - 1 : UInt32).toNat = 2 ^ m - 1 := by
    rw [UInt32.toNat_sub_of_le, hone]
    · rfl
    · rw [UInt32.le_iff_toNat_le, hone]; simp; omega
  unfold hashString
  simp only [UInt32.toNat_mod, hsub]
  exact Nat.mod_lt _ (by omega)

end Dp4c
