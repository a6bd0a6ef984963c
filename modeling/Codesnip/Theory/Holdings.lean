/-
# Theory.Holdings -- what a number of parties hold, each at most one thing

`holdings f` lists what the parties hold, party by party.  When one of them takes a thing or
lets go of one, the list changes by that thing, up to its order (`holdings_update`); and a list
without repetitions has every thing with one party (`holdings_inj`).
-/
import Mathlib.Data.List.FinRange
import Mathlib.Logic.Function.Basic

namespace Codesnip.Theory.Holdings

set_option autoImplicit false

universe u

variable {α : Type u} {n : Nat}

def holdings (f : Fin n → Option α) : List α := (List.finRange n).filterMap f

variable {f g : Fin n → Option α} {w : Fin n} {x : α}

theorem mem_holdings : x ∈ holdings f ↔ ∃ w, f w = some x := by
  simp [holdings]

theorem holdings_none : holdings (fun _ : Fin n => (none : Option α)) = [] := by
  simp [holdings]

theorem length_holdings (f : Fin n → Option α) : (holdings f).length ≤ n := by
  have shorter := List.length_filterMap_le f (List.finRange n)
  rwa [List.length_finRange] at shorter

/-- One party's share, and the others'. -/
theorem holdings_perm (f : Fin n → Option α) (w : Fin n) :
    (holdings f).Perm ((f w).toList ++ ((List.finRange n).erase w).filterMap f) := by
  have perm := (List.perm_cons_erase (List.mem_finRange w)).filterMap f
  cases here : f w with
  | none =>
      rw [List.filterMap_cons_none here] at perm
      exact perm
  | some x =>
      rw [List.filterMap_cons_some here] at perm
      exact perm

/-- The others keep what they hold. -/
theorem holdings_update (f : Fin n → Option α) (w : Fin n) (x : Option α) :
    ((f w).toList ++ holdings (Function.update f w x)).Perm (x.toList ++ holdings f) := by
  have others : ((List.finRange n).erase w).filterMap (Function.update f w x) =
      ((List.finRange n).erase w).filterMap f := by
    refine List.filterMap_congr fun v member => ?_
    refine Function.update_of_ne ?_ _ _
    rintro rfl
    exact (List.nodup_finRange n).not_mem_erase member
  have after := holdings_perm (Function.update f w x) w
  rw [Function.update_self, others] at after
  have swap : ((f w).toList ++ (x.toList ++ ((List.finRange n).erase w).filterMap f)).Perm
      (x.toList ++ ((f w).toList ++ ((List.finRange n).erase w).filterMap f)) := by
    rw [← List.append_assoc, ← List.append_assoc]
    exact List.perm_append_comm.append_right _
  have before := holdings_perm f w
  exact ((after.append_left _).trans swap).trans (before.symm.append_left _)

theorem holdings_take (empty : f w = none) (x : α) :
    (holdings (Function.update f w (some x))).Perm (x :: holdings f) := by
  have perm := holdings_update f w (some x)
  rw [empty] at perm
  exact perm

/-- What nobody holds twice is with one party. -/
theorem holdings_inj (distinct : (holdings f).Nodup) {v : Fin n} (here : f v = some x)
    (there : f w = some x) : v = w := by
  by_contra ne
  have perm := holdings_perm f v
  rw [here] at perm
  have alone := (List.nodup_cons.mp (perm.nodup_iff.mp distinct)).1
  have other : w ∈ (List.finRange n).erase v :=
    (List.mem_erase_of_ne (Ne.symm ne)).mpr (List.mem_finRange w)
  exact alone (List.mem_filterMap.mpr ⟨w, other, there⟩)

/-- Who holds less than before. -/
theorem holdings_sublist (less : ∀ w x, f w = some x → g w = some x) :
    (holdings f).Sublist (holdings g) := by
  unfold holdings
  induction List.finRange n with
  | nil => exact List.Sublist.slnil
  | cons w ws ih =>
      cases here : f w with
      | none =>
          rw [List.filterMap_cons_none here, List.filterMap_cons]
          split
          · exact ih
          · exact ih.cons _
      | some x =>
          rw [List.filterMap_cons_some here, List.filterMap_cons_some (less w x here)]
          exact ih.cons_cons x

end Codesnip.Theory.Holdings
