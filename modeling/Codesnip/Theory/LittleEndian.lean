/-
# Theory.LittleEndian -- numbers as bytes, the lowest first

`bytes n v` are the low `n` bytes of `v`, and `value` reads them back modulo `256 ^ n`
(`value_bytes`).
-/
import Mathlib.Algebra.Group.Nat.Defs
import Mathlib.Data.List.Basic

namespace Codesnip.Theory.LittleEndian

set_option autoImplicit false

def value : List UInt8 → Nat
  | [] => 0
  | byte :: rest => byte.toNat + 256 * value rest

def bytes : Nat → Nat → List UInt8
  | 0, _ => []
  | n + 1, v => UInt8.ofNat v :: bytes n (v / 256)

@[simp] theorem length_bytes (n v : Nat) : (bytes n v).length = n := by
  induction n generalizing v with
  | zero => rfl
  | succ n ih => rw [bytes, List.length_cons, ih]

theorem value_bytes (n v : Nat) : value (bytes n v) = v % 256 ^ n := by
  induction n generalizing v with
  | zero => simp [bytes, value, Nat.mod_one]
  | succ n ih =>
      have low : (UInt8.ofNat v).toNat = v % 256 := UInt8.toNat_ofNat'
      rw [bytes, value, ih, low, Nat.pow_succ', Nat.mod_mul]

theorem value_bytes_of_lt {n v : Nat} (fits : v < 256 ^ n) : value (bytes n v) = v := by
  rw [value_bytes, Nat.mod_eq_of_lt fits]

end Codesnip.Theory.LittleEndian
