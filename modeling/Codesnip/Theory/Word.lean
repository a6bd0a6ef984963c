/-
# Theory.Word -- C's conversions between machine integers

C code that mixes `int`, `unsigned long long`, `size_t` and `ssize_t` converts
silently.  On a 64-bit machine with 32-bit `int` the two conversions that change
a value are: to `int`, which keeps the low 32 bits as two's complement, and from
`int` to an unsigned 64-bit type, which extends the sign.

A value that fits both types keeps its meaning (`toNat_ullOfInt`,
`toInt_intOfUll`), and a difference of two 64-bit values that is cut down to
`int` depends on their low 32 bits alone (`toInt_intOfUll_sub`), whatever the
high bits have become on the way.  A count below `2 ^ 63` survives the way through
`ssize_t` and is subtracted from a `size_t` exactly (`toNat_sub_ssize`).
-/
import Mathlib.Algebra.Group.Nat.Defs
import Mathlib.Data.Int.Order.Basic

namespace Codesnip.Theory.Word

set_option autoImplicit false

/-- `int` to `unsigned long long`: the sign is extended. -/
def ullOfInt (x : Int32) : UInt64 := x.toInt64.toUInt64

/-- `unsigned long long` to `int`: the low 32 bits, as two's complement. -/
def intOfUll (x : UInt64) : Int32 := x.toUInt32.toInt32

/-- `INT_MAX`. -/
def intMax : Nat := 2 ^ 31 - 1

theorem toNat_ullOfInt {x : Int32} (nonneg : 0 ≤ x.toInt) :
    (ullOfInt x).toNat = x.toInt.toNat := by
  have le : (0 : Int64) ≤ x.toInt64 := by
    rw [Int64.le_iff_toInt_le, Int32.toInt_toInt64]
    simpa using nonneg
  rw [ullOfInt, Int64.toNat_toUInt64_of_le le, Int32.toNatClampNeg_toInt64]
  rfl

theorem toInt_ofNat {n : Nat} (fits : n ≤ intMax) : (Int32.ofNat n).toInt = n := by
  unfold intMax at fits
  exact Int32.toInt_ofNat_of_lt (by omega)

theorem intOfUll_eq (x : UInt64) : intOfUll x = Int32.ofNat x.toNat := rfl

theorem toInt_intOfUll {x : UInt64} (fits : x.toNat ≤ intMax) :
    (intOfUll x).toInt = x.toNat := by
  rw [intOfUll_eq, toInt_ofNat fits]

theorem ofNat_pos {n : Nat} (fits : n ≤ intMax) : 0 < Int32.ofNat n ↔ 0 < n := by
  rw [Int32.lt_iff_toInt_lt, toInt_ofNat fits]
  simp

theorem ofNat_sub_one {n : Nat} (pos : 0 < n) (fits : n ≤ intMax) :
    Int32.ofNat n - 1 = Int32.ofNat (n - 1) := by
  apply Int32.toInt_inj.mp
  have one : (1 : Int32).toInt = 1 := rfl
  unfold intMax at fits
  rw [Int32.toInt_sub, toInt_ofNat fits, toInt_ofNat (Nat.le_trans (Nat.sub_le _ _) fits), one,
    Int.bmod_eq_of_le] <;> omega

/-- The successor of a cursor below `n`, reduced modulo `n`. -/
theorem toInt_succ_mod {c n : Int32} (nonneg : 0 ≤ c.toInt) (lt : c.toInt < n.toInt) :
    ((c + 1) % n).toInt = ((c.toInt.toNat + 1) % n.toInt.toNat : Nat) := by
  have one : (1 : Int32).toInt = 1 := rfl
  have top := n.toInt_lt
  have sum : (c + 1).toInt = c.toInt + 1 := by
    rw [Int32.toInt_add, one, Int.bmod_eq_of_le] <;> omega
  have values : ((c.toInt.toNat + 1 : Nat) : Int) = c.toInt + 1 ∧
      (n.toInt.toNat : Int) = n.toInt := by omega
  rw [Int32.toInt_mod, sum, Int.tmod_eq_emod_of_nonneg (by omega), Int.natCast_emod,
    values.1, values.2]

/-- Truncation to `int` and back changes only the high bits. -/
theorem toUInt32_ullOfInt_intOfUll (x : UInt64) :
    (ullOfInt (intOfUll x)).toUInt32 = x.toUInt32 := by
  have keep : ∀ y : Int32, (ullOfInt y).toUInt32 = y.toUInt32 := by
    intro y
    apply UInt32.toBitVec_inj.mp
    apply BitVec.eq_of_getLsbD_eq
    intro i bound
    have wide : i < 64 := by omega
    simp [ullOfInt, BitVec.getElem_signExtend, bound, wide]
  rw [keep, intOfUll, UInt32.toUInt32_toInt32]

/-- **A truncated difference of clock readings is exact** as long as the readings
are at most `INT_MAX` apart, even where the earlier one survives only in its low
32 bits. -/
theorem toInt_intOfUll_sub {now last kept : UInt64} (low : kept.toUInt32 = last.toUInt32)
    (le : last ≤ now) (gap : now.toNat - last.toNat ≤ intMax) :
    (intOfUll (ullOfInt (intOfUll now) - kept)).toInt = (now.toNat - last.toNat : Nat) := by
  have same : intOfUll (ullOfInt (intOfUll now) - kept) = intOfUll (now - last) := by
    have cut : (ullOfInt (intOfUll now) - kept).toUInt32 = (now - last).toUInt32 := by
      rw [UInt64.toUInt32_sub, UInt64.toUInt32_sub, low, toUInt32_ullOfInt_intOfUll]
    exact congrArg UInt32.toInt32 cut
  have value : (now - last).toNat = now.toNat - last.toNat := UInt64.toNat_sub_of_le _ _ le
  rw [same, toInt_intOfUll (by omega), value]

/-! ## `ssize_t` and `size_t` -/

/-- A count that fits `ssize_t` is not negative. -/
theorem ssize_not_neg {count : Nat} (fits : count < 2 ^ 63) : ¬ Int64.ofNat count < 0 := by
  rw [Int64.lt_iff_toInt_lt, Int64.toInt_ofNat_of_lt fits]
  simp

theorem ssize_eq_zero {count : Nat} (fits : count < 2 ^ 63) :
    Int64.ofNat count = 0 ↔ count = 0 := by
  rw [← Int64.toInt_inj, Int64.toInt_ofNat_of_lt fits]
  simp

theorem ssize_ne_neg_one {count : Nat} (fits : count < 2 ^ 63) : Int64.ofNat count ≠ -1 := by
  intro same
  have neg : ¬ Int64.ofNat count < 0 := ssize_not_neg fits
  rw [same] at neg
  exact neg (by decide)

/-- `size -= count` for a count that is not larger. -/
theorem toNat_sub_ssize {size : UInt64} {count : Nat} (le : count ≤ size.toNat) :
    (size - (Int64.ofNat count).toUInt64).toNat = size.toNat - count := by
  have small : count < 2 ^ 64 := Nat.lt_of_le_of_lt le size.toNat_lt
  have value : (UInt64.ofNat count).toNat = count := UInt64.toNat_ofNat_of_lt' small
  have le' : UInt64.ofNat count ≤ size := UInt64.le_iff_toNat_le.mpr (by rwa [value])
  rw [Int64.toUInt64_ofNat', UInt64.toNat_sub_of_le _ _ le', value]

theorem ssize_of_size (size : UInt64) : size.toInt64 = Int64.ofNat size.toNat := by
  rw [← UInt64.toInt64_ofNat', UInt64.ofNat_toNat]

/-- What is done of `size` when `left` is left, as a return value. -/
theorem ssize_sub {size left : UInt64} (le : left.toNat ≤ size.toNat) :
    (size - left).toInt64 = Int64.ofNat (size.toNat - left.toNat) := by
  rw [ssize_of_size, UInt64.toNat_sub_of_le _ _ (UInt64.le_iff_toNat_le.mpr le)]

end Codesnip.Theory.Word
