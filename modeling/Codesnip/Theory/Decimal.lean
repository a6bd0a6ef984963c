/-
# Theory.Decimal -- decimal numerals and what they stand for

`natOf` reads a digit string from the left.  A `Numeral` is a sign, the digits before
and after a point, and an exponent of ten; `value` is the number it stands for.

`value_eq_iff` says when that number is a natural in terms of the digits alone, and
`part_of_mod` when the digits before the point tell it: a number below `M` that they
give modulo `M` they give exactly, and the rest of the numeral adds nothing to it,
whenever no power of ten has a factor in common with `M` after one is taken off.
-/
import Mathlib.Algebra.Field.Rat
import Mathlib.Algebra.Order.Field.Basic
import Mathlib.Algebra.Order.Ring.Unbundled.Rat
import Mathlib.Data.List.Induction
import Mathlib.Data.Nat.Cast.Order.Basic
import Mathlib.Tactic.FieldSimp
import Mathlib.Tactic.Linarith
import Mathlib.Tactic.NormNum
import Mathlib.Tactic.Positivity
import Mathlib.Tactic.Ring

namespace Codesnip.Theory.Decimal

set_option autoImplicit false

def digit (c : Char) : Nat := c.toNat - 48

/-- The number a digit string stands for. -/
def natOf (ds : List Char) : Nat := ds.foldl (fun n c => 10 * n + digit c) 0

theorem digit_lt {c : Char} (isDigit : c.isDigit = true) : digit c < 10 := by
  have bounds : 48 ≤ c.toNat ∧ c.toNat ≤ 57 := by
    simpa [Char.isDigit, UInt32.le_iff_toNat_le] using isDigit
  rw [digit]
  omega

@[simp] theorem natOf_nil : natOf [] = 0 := rfl

theorem natOf_concat (ds : List Char) (c : Char) : natOf (ds ++ [c]) = 10 * natOf ds + digit c := by
  rw [natOf, List.foldl_append]
  rfl

theorem natOf_append (as bs : List Char) :
    natOf (as ++ bs) = natOf as * 10 ^ bs.length + natOf bs := by
  induction bs using List.reverseRecOn with
  | nil => simp
  | append_singleton bs c ih =>
      rw [← List.append_assoc, natOf_concat, natOf_concat, ih, List.length_append,
        List.length_singleton, Nat.pow_succ]
      ring

theorem natOf_lt {ds : List Char} (digits : ∀ c ∈ ds, c.isDigit = true) :
    natOf ds < 10 ^ ds.length := by
  induction ds using List.reverseRecOn with
  | nil => simp
  | append_singleton ds c ih =>
      obtain ⟨digits, last⟩ := List.forall_mem_append.mp digits
      have lt := digit_lt (last c (List.mem_singleton_self c))
      have below := ih digits
      rw [natOf_concat, List.length_append, List.length_singleton, Nat.pow_succ]
      omega

/-! ## Numerals -/

/-- A sign, digits with a point among them, and an exponent of ten. -/
structure Numeral where
  negative : Bool
  int : List Char
  frac : List Char
  exp : Int
  int_digits : ∀ c ∈ int, c.isDigit = true
  frac_digits : ∀ c ∈ frac, c.isDigit = true

namespace Numeral

variable {n : Numeral}

/-- The digits read without the point. -/
def mantissa (n : Numeral) : Nat := natOf (n.int ++ n.frac)

def scale (n : Numeral) : Int := n.exp - n.frac.length

def value (n : Numeral) : ℚ := (if n.negative then -1 else 1) * n.mantissa * 10 ^ n.scale

theorem mantissa_eq (n : Numeral) :
    n.mantissa = natOf n.int * 10 ^ n.frac.length + natOf n.frac := natOf_append _ _

/-- When a numeral stands for a natural, in terms of its digits. -/
theorem value_eq_iff (n : Numeral) (k : Nat) {a b : Nat} (scale : n.scale = a - b) :
    n.value = k ↔ (n.negative = true → n.mantissa = 0) ∧ n.mantissa * 10 ^ a = k * 10 ^ b := by
  have pos : (10 : ℚ) ^ b ≠ 0 := pow_ne_zero b (by norm_num)
  have shifted : n.value * 10 ^ b = (if n.negative then -1 else 1) * (n.mantissa * 10 ^ a) := by
    rw [value, scale, zpow_sub₀ (by norm_num), zpow_natCast, zpow_natCast]
    field_simp
  rw [← mul_left_inj' pos, shifted]
  cases n.negative with
  | false =>
      simp only [Bool.false_eq_true, if_false, false_imp_iff, true_and, one_mul]
      exact_mod_cast Iff.rfl
  | true =>
      simp only [if_true, true_imp_iff]
      constructor
      · intro same
        have nonneg : (0 : ℚ) ≤ n.mantissa * 10 ^ a := by positivity
        have nonneg' : (0 : ℚ) ≤ k * 10 ^ b := by positivity
        have zero : (n.mantissa : ℚ) * 10 ^ a = 0 := by linarith
        have zero' : n.mantissa * 10 ^ a = 0 := by exact_mod_cast zero
        have none : (k : ℚ) * 10 ^ b = 0 := by linarith
        have none' : k * 10 ^ b = 0 := by exact_mod_cast none
        exact ⟨(Nat.mul_eq_zero.mp zero').resolve_right (by positivity), by rw [zero', none']⟩
      · rintro ⟨zero, same⟩
        rw [zero, Nat.zero_mul] at same
        have none : (k : ℚ) * 10 ^ b = 0 := by exact_mod_cast same.symm
        rw [zero, none]
        simp

/-- Shifting to the left can only add to the digits before the point. -/
theorem part_of_shifted {I F k f e : Nat} (same : (I * 10 ^ f + F) * 10 ^ e = k * 10 ^ f) :
    I ≤ k ∧ (I = k → F = 0 ∧ (e = 0 ∨ k = 0)) := by
  have pos : 0 < 10 ^ f := Nat.pow_pos (by decide)
  have grows : I * 10 ^ f + F ≤ (I * 10 ^ f + F) * 10 ^ e :=
    Nat.le_mul_of_pos_right _ (Nat.pow_pos (by decide))
  refine ⟨Nat.le_of_mul_le_mul_right (by omega) pos, ?_⟩
  rintro rfl
  have none : F = 0 := by omega
  subst none
  refine ⟨rfl, ?_⟩
  rcases Nat.eq_zero_or_pos I with zero | some
  · exact .inr zero
  · have one : 10 ^ e = 1 := by
      refine Nat.eq_of_mul_eq_mul_left (Nat.mul_pos some pos) ?_
      rw [Nat.add_zero] at same
      rw [same, Nat.mul_one]
    exact .inl ((Nat.pow_eq_one.mp one).resolve_left (by decide))

theorem value_of_part (frac : natOf n.frac = 0) (shift : n.exp = 0 ∨ natOf n.int = 0)
    (sign : n.negative = true → natOf n.int = 0) : n.value = natOf n.int := by
  have mantissa : n.mantissa = natOf n.int * 10 ^ n.frac.length := by
    rw [mantissa_eq, frac, Nat.add_zero]
  by_cases zero : natOf n.int = 0
  · rw [value, mantissa, zero]
    simp
  · have positive : n.negative = false := by simpa using mt sign zero
    have scale : n.scale = (0 : Nat) - (n.frac.length : Int) := by
      rw [Numeral.scale, shift.resolve_right zero]
      rfl
    rw [n.value_eq_iff _ scale, mantissa, Nat.pow_zero, Nat.mul_one]
    exact ⟨by simp [positive], rfl⟩

/-- A number that the digits before the point give modulo `M` is what they stand for,
and the rest of the numeral adds nothing to it. -/
theorem part_of_mod {M k : Nat} (lt : k < M) (coprime : ∀ j, 0 < j → (10 ^ j - 1).Coprime M)
    (value : n.value = k) (part : natOf n.int % M = k) :
    natOf n.int = k ∧ natOf n.frac = 0 ∧ (n.exp = 0 ∨ k = 0) := by
  cases exp : n.exp with
  | ofNat e =>
      have scale : n.scale = e - n.frac.length := by rw [Numeral.scale, exp]; rfl
      have same := ((n.value_eq_iff k scale).mp value).2
      rw [mantissa_eq] at same
      obtain ⟨le, rest⟩ := part_of_shifted same
      rw [Nat.mod_eq_of_lt (Nat.lt_of_le_of_lt le lt)] at part
      obtain ⟨frac, shift⟩ := rest part
      exact ⟨part, frac, shift.imp_left fun zero => by rw [zero]; rfl⟩
  | negSucc e =>
      have scale : n.scale = (0 : Nat) - ((e + 1 + n.frac.length : Nat) : Int) := by
        rw [Numeral.scale, exp]
        omega
      have same := ((n.value_eq_iff k scale).mp value).2
      rw [mantissa_eq, Nat.pow_zero, Nat.mul_one, Nat.pow_add, ← Nat.mul_assoc] at same
      have below := natOf_lt n.frac_digits
      have frac : natOf n.frac = 0 := by
        have mods := congrArg (· % 10 ^ n.frac.length) same
        simpa [Nat.mod_eq_of_lt below] using mods
      rw [frac, Nat.add_zero] at same
      have whole : natOf n.int = k * 10 ^ (e + 1) :=
        Nat.eq_of_mul_eq_mul_right (Nat.pow_pos (by decide)) same
      -- what was shifted out is a multiple of `M`
      have multiple : M ∣ k * (10 ^ (e + 1) - 1) := by
        rw [Nat.mul_sub, Nat.mul_one, ← whole]
        exact part ▸ Nat.dvd_sub_mod (natOf n.int)
      have zero : k = 0 :=
        Nat.eq_zero_of_dvd_of_lt
          ((coprime (e + 1) (by omega)).symm.dvd_of_dvd_mul_right multiple) lt
      exact ⟨by rw [whole, zero, Nat.zero_mul], frac, .inr zero⟩

end Numeral

end Codesnip.Theory.Decimal
