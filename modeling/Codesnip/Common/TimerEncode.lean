/-
# Common.TimerEncode -- the delay a new timer encodes

`AddTimer` cuts its 64-bit timeout in a slot and a number of rotations.  The slot is
exact for every timeout: remainder and cursor are below `nslosts_`, so neither the
sum nor the conversion to `int` loses anything.  The quotient is handed over as an
`int` as well, and it is exact only up to `INT_MAX` (`addTimer_encodes_iff`).  The
guard `timeout < 0` refuses nothing, so a negative number converted by the caller
is filed with the rotations its low 32 bits make.
-/
import Codesnip.Common.TimerHeap

namespace Codesnip.Common.Timer

open Codesnip.Theory.Word

set_option autoImplicit false
set_option linter.dupNamespace false

variable {F : Type}

namespace TimeWheel

/-- What `AddTimer` owes: it refuses and changes nothing, or it files a timer whose
slot and rotations are the timeout. -/
def Encodes (w : TimeWheel F) (p : Addr) (timeout : UInt64) (func : F) : Prop :=
  match w.AddTimer p timeout func with
  | .ok (none, w') => w' = w
  | .ok (some q, w') => ∃ t v, w'.heap q = some t ∧ w'.slotAt t.GetSlot = .ok v ∧ q ∈ v ∧
      0 ≤ t.slot_.toInt ∧ t.slot_.toInt < w.nslosts_.toInt ∧ 0 ≤ t.rotations_.toInt ∧
      t.rotations_.toInt * w.nslosts_.toInt +
        (t.slot_.toInt - w.curslot_.toInt) % w.nslosts_.toInt = timeout.toNat
  | .error _ => False

/-- The slot alone encodes the remainder, for every timeout. -/
theorem Sized.slot_encodes {w : TimeWheel F} (sized : w.Sized) (remaining : Nat) :
    ((w.slotOf remaining : Int) - w.curslot_.toInt) % w.nslosts_.toInt =
      (remaining % w.nslots : Nat) := by
  have cur : (w.cursor : Int) = w.curslot_.toInt := Int.toNat_of_nonneg sized.cur_nonneg
  have ahead : (w.cursor : Int) + remaining - w.cursor = remaining := by omega
  rw [slotOf, ← cur, ← sized.nslots_value, Int.natCast_emod, Int.emod_sub_emod, Int.natCast_add,
    ahead, Int.natCast_emod]

/-- A number survives the conversion to `int` exactly up to `INT_MAX`. -/
theorem toInt_ofNat_eq_iff (q : Nat) : (Int32.ofNat q).toInt = q ↔ q ≤ intMax := by
  constructor
  · intro same
    have top := (Int32.ofNat q).toInt_lt
    rw [same] at top
    unfold intMax
    omega
  · exact toInt_ofNat

/-- What is filed encodes the timeout if the quotient survives the conversion. -/
theorem Sized.encodes_iff {w : TimeWheel F} (sized : w.Sized) (p : Addr) (timeout : UInt64)
    (func : F) : w.Encodes p timeout func ↔
      (Int32.ofNat (timeout.toNat / w.nslots)).toInt = (timeout.toNat / w.nslots : Nat) := by
  have slot := toInt_ofNat (sized.slotOf_fits timeout.toNat)
  have below := sized.slotOf_lt timeout.toNat
  have remainder := sized.slot_encodes timeout.toNat
  have size := sized.nslots_value.symm
  have pos : (0 : Int) < w.nslots := by exact_mod_cast sized.nslots_pos
  have whole : ((timeout.toNat / w.nslots : Nat) : Int) * w.nslots +
      (timeout.toNat % w.nslots : Nat) = timeout.toNat := by
    rw [Int.mul_comm]
    exact_mod_cast Nat.div_add_mod timeout.toNat w.nslots
  rw [Encodes, sized.addTimer]
  simp only [heap_filed, Function.update_self, Option.some.injEq, Timer.GetSlot]
  constructor
  · rintro ⟨t, v, rfl, -, -, -, -, -, delay⟩
    rw [slot, remainder, size] at delay
    have quotients := (Int.add_left_inj _).mp (delay.trans whole.symm)
    exact Int.eq_of_mul_eq_mul_right (Int.ne_of_gt pos) quotients
  · intro exact
    have bound : w.slotOf timeout.toNat < w.slots_.length := by rwa [sized.length]
    refine ⟨_, w.slots_[w.slotOf timeout.toNat] ++ [p], rfl, ?_, by simp, ?_, ?_, ?_, ?_⟩
    · apply slotAt_eq
      show (w.slots_.modify _ _)[_]? = _
      rw [sized.ull_slot, List.getElem?_modify_eq, List.getElem?_eq_getElem bound]
      rfl
    · rw [slot]
      exact Int.natCast_nonneg _
    · rw [slot, size]
      exact_mod_cast below
    · rw [exact]
      exact Int.natCast_nonneg _
    · rw [slot, remainder, exact, size]
      exact whole

/-- **`AddTimer` encodes the delay exactly when the quotient fits an `int`.** -/
theorem addTimer_encodes_iff {w : TimeWheel F} (sized : w.Sized) (p : Addr) (timeout : UInt64)
    (func : F) : w.Encodes p timeout func ↔
      timeout.toNat / w.nslosts_.toInt.toNat ≤ intMax := by
  rw [sized.encodes_iff]
  exact toInt_ofNat_eq_iff _

theorem addTimer_encodes_iff_eight :
    (new 8 0 : TimeWheel Nat).Sized ∧ (new 8 0 : TimeWheel Nat).Encodes 1 21 0 := by
  have sized : (new 8 0 : TimeWheel Nat).Sized := new_sized (by decide) 0
  exact ⟨sized, (addTimer_encodes_iff sized 1 21 0).mpr (by decide)⟩

/-- -1 as a timeout is filed with -1 rotations. -/
theorem addTimer_encodes_counterexample :
    (new 8 0 : TimeWheel Nat).Sized ∧ ¬ (new 8 0 : TimeWheel Nat).Encodes 1 (ullOfInt (-1)) 0 := by
  have sized : (new 8 0 : TimeWheel Nat).Sized := new_sized (by decide) 0
  refine ⟨sized, ?_⟩
  rw [sized.encodes_iff]
  decide

end TimeWheel

end Codesnip.Common.Timer
