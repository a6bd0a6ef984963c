/-
# Theory.Slots -- a table whose first vacant slot takes the next entry

A table is a list of fixed length, and `held` tells the entries in use from the vacant
ones.  An entry goes into the first vacant slot (`vacancy`) and leaves by being
overwritten with a vacant one.

* `vacancy_lt_iff`: there is a vacant slot exactly if fewer entries are in use than
  there are slots;
* `occupied_fill`, `occupied_clear`: the entries in use, up to their order, after one
  comes or goes;
* `Within.fill`, `Within.clear`: a mark above which every slot is vacant.
-/
import Mathlib.Data.List.Perm.Basic

namespace Codesnip.Theory.Slots

set_option autoImplicit false

universe u

variable {α : Type u} (held : α → Bool)

/-- The entries in use. -/
def occupied (slots : List α) : List α := slots.filter held

/-- The first vacant slot, and the length of a table that has none. -/
def vacancy (slots : List α) : Nat := slots.findIdx fun x => !held x

/-- Every slot above `top` is vacant. -/
def Within (top : Int) (slots : List α) : Prop :=
  ∀ (i : Nat) (x : α), slots[i]? = some x → held x = true → (i : Int) ≤ top

variable {held}

theorem mem_occupied {slots : List α} {x : α} :
    x ∈ occupied held slots ↔ x ∈ slots ∧ held x = true := List.mem_filter

theorem occupied_cons_held {x : α} (holds : held x = true) (slots : List α) :
    occupied held (x :: slots) = x :: occupied held slots := List.filter_cons_of_pos holds

theorem occupied_cons_vacant {x : α} (vacant : held x = false) (slots : List α) :
    occupied held (x :: slots) = occupied held slots :=
  List.filter_cons_of_neg (by simp [vacant])

theorem vacancy_le (slots : List α) : vacancy held slots ≤ slots.length := List.findIdx_le_length

theorem vacancy_vacant {slots : List α} (room : vacancy held slots < slots.length) :
    ∃ x, slots[vacancy held slots]? = some x ∧ held x = false := by
  have here := List.getElem?_eq_getElem room
  have found := List.findIdx_of_getElem?_eq_some (p := fun x => !held x) here
  exact ⟨_, here, by simpa using found⟩

theorem vacancy_first {slots : List α} {x : α} (here : slots[0]? = some x)
    (vacant : held x = false) : vacancy held slots = 0 := by
  cases slots with
  | nil => cases here
  | cons y slots =>
      obtain rfl : y = x := Option.some.inj here
      simp [vacancy, List.findIdx_cons, vacant]

theorem vacancy_lt_iff {slots : List α} :
    vacancy held slots < slots.length ↔ (occupied held slots).length < slots.length := by
  constructor
  · intro room
    obtain ⟨x, here, vacant⟩ := vacancy_vacant room
    refine List.length_filter_lt_length_iff_exists.mpr ⟨x, List.mem_of_getElem? here, ?_⟩
    simp [vacant]
  · intro fewer
    obtain ⟨x, member, vacant⟩ := List.length_filter_lt_length_iff_exists.mp fewer
    exact List.findIdx_lt_length_of_exists ⟨x, member, by simpa using vacant⟩

/-! ## An entry comes or goes -/

/-- The other entries stay. -/
theorem occupied_set {slots : List α} {i : Nat} (inside : i < slots.length) (y : α) :
    (occupied held (slots.set i y)).Perm (occupied held (y :: slots.eraseIdx i)) :=
  (List.set_perm_cons_eraseIdx inside y).filter held

theorem occupied_split {slots : List α} {i : Nat} {x : α} (here : slots[i]? = some x) :
    (occupied held slots).Perm (occupied held (x :: slots.eraseIdx i)) := by
  obtain ⟨inside, rfl⟩ := List.getElem?_eq_some_iff.mp here
  exact (List.getElem_cons_eraseIdx_perm inside).symm.filter held

/-- An entry that is there once is in one slot. -/
theorem slot_unique {slots : List α} (distinct : (occupied held slots).Nodup) {i j : Nat} {x : α}
    (holds : held x = true) (at_i : slots[i]? = some x) (at_j : slots[j]? = some x) : j = i := by
  have split : (occupied held slots).Perm _ := occupied_split at_i
  rw [occupied_cons_held holds] at split
  obtain ⟨once, -⟩ := List.nodup_cons.mp (split.nodup_iff.mp distinct)
  by_contra ne
  have other := List.mem_eraseIdx_iff_getElem?.mpr ⟨j, ne, at_j⟩
  exact once (mem_occupied.mpr ⟨other, holds⟩)

theorem occupied_fill {slots : List α} {i : Nat} {x y : α} (here : slots[i]? = some x)
    (vacant : held x = false) (holds : held y = true) :
    (occupied held (slots.set i y)).Perm (y :: occupied held slots) := by
  obtain ⟨inside, -⟩ := List.getElem?_eq_some_iff.mp here
  have before : (occupied held slots).Perm _ := occupied_split here
  have after : (occupied held (slots.set i y)).Perm _ := occupied_set inside y
  rw [occupied_cons_vacant vacant] at before
  rw [occupied_cons_held holds] at after
  exact after.trans (before.symm.cons y)

theorem occupied_clear {slots : List α} {i : Nat} {x y : α} (here : slots[i]? = some x)
    (holds : held x = true) (vacant : held y = false) :
    (occupied held slots).Perm (x :: occupied held (slots.set i y)) := by
  obtain ⟨inside, -⟩ := List.getElem?_eq_some_iff.mp here
  have before : (occupied held slots).Perm _ := occupied_split here
  have after : (occupied held (slots.set i y)).Perm _ := occupied_set inside y
  rw [occupied_cons_held holds] at before
  rw [occupied_cons_vacant vacant] at after
  exact before.trans (after.symm.cons x)

/-- What a table is filtered for does not see an entry that is passed over replaced by
another one. -/
theorem filter_set {p : α → Bool} {slots : List α} {i : Nat} {x y : α}
    (here : slots[i]? = some x) (passed : p x = false) (passed' : p y = false) :
    (slots.set i y).filter p = slots.filter p := by
  induction slots generalizing i with
  | nil => rfl
  | cons z slots ih =>
      cases i with
      | zero =>
          obtain rfl : z = x := Option.some.inj here
          rw [List.set_cons_zero, List.filter_cons_of_neg (by simp [passed']),
            List.filter_cons_of_neg (by simp [passed])]
      | succ i =>
          rw [List.set_cons_succ, List.filter_cons, List.filter_cons, ih here]

/-! ## The mark -/

theorem Within.fill {top : Int} {slots : List α} (within : Within held top slots) (i : Nat)
    (y : α) : Within held (max i top) (slots.set i y) := by
  intro j x here holds
  by_cases same : i = j
  · omega
  · rw [List.getElem?_set_ne same] at here
    have := within j x here holds
    omega

theorem Within.clear {top : Int} {slots : List α} (within : Within held top slots) (i : Nat)
    {y : α} (vacant : held y = false) : Within held top (slots.set i y) := by
  intro j x here holds
  by_cases same : i = j
  · subst same
    obtain ⟨-, rfl⟩ : i < slots.length ∧ y = x := by
      simpa [List.getElem?_set, and_comm] using here
    rw [vacant] at holds
    cases holds
  · rw [List.getElem?_set_ne same] at here
    exact within j x here holds

end Codesnip.Theory.Slots
