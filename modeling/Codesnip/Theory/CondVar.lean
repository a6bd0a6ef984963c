/-
# Theory.CondVar -- the waiters of a condition variable

A condition variable is the set of threads that sleep on it and have not been
woken.  `wait` adds the caller, `notifyOne` takes out one waiter of the
scheduler's choice (none if there is none), `notifyAll` takes out every one, and a
spurious wake-up takes out any one at any time.  A thread that is out of the set
still has to get its mutex back; that is the monitor's affair.
-/
import Mathlib.Data.Finset.Erase
import Mathlib.Data.Finset.Insert
import Mathlib.Data.Finset.Card

namespace Codesnip.Theory

set_option autoImplicit false
set_option linter.unusedSectionVars false

universe u

/-- The threads asleep and not yet notified. -/
structure CondVar (T : Type u) where
  waiters : Finset T
  deriving DecidableEq

namespace CondVar

variable {T : Type u} [DecidableEq T]

instance : Membership T (CondVar T) := ⟨fun c t => t ∈ c.waiters⟩

instance (c : CondVar T) (t : T) : Decidable (t ∈ c) := inferInstanceAs (Decidable (t ∈ c.waiters))

def empty : CondVar T := ⟨∅⟩

def wait (c : CondVar T) (t : T) : CondVar T := ⟨insert t c.waiters⟩

/-- `t` stops waiting. -/
def wake (c : CondVar T) (t : T) : CondVar T := ⟨c.waiters.erase t⟩

/-- Wake the waiter the scheduler chose; with nobody waiting there is no choice. -/
def notifyOne (c : CondVar T) : Option T → Option (CondVar T)
  | none => if c.waiters = ∅ then some c else none
  | some t => if t ∈ c then some (c.wake t) else none

def notifyAll (_ : CondVar T) : CondVar T := empty

@[simp] theorem not_mem_empty (t : T) : ¬ t ∈ (empty : CondVar T) := Finset.notMem_empty t

@[simp] theorem not_mem_notifyAll (c : CondVar T) (t : T) : ¬ t ∈ c.notifyAll := not_mem_empty t

@[simp] theorem mem_wait {c : CondVar T} {t u : T} : u ∈ c.wait t ↔ u = t ∨ u ∈ c :=
  Finset.mem_insert

@[simp] theorem mem_wake {c : CondVar T} {t u : T} : u ∈ c.wake t ↔ u ≠ t ∧ u ∈ c :=
  Finset.mem_erase

theorem wake_subset {c : CondVar T} {t u : T} (member : u ∈ c.wake t) : u ∈ c :=
  (mem_wake.mp member).2

theorem exists_notifyOne (c : CondVar T) : ∃ choice c', c.notifyOne choice = some c' := by
  by_cases nobody : c.waiters = ∅
  · exact ⟨none, c, if_pos nobody⟩
  · obtain ⟨t, asleep⟩ := Finset.nonempty_of_ne_empty nobody
    exact ⟨some t, c.wake t, if_pos asleep⟩

/-- Either nobody was waiting, or one waiter is woken and the others sleep on. -/
theorem notifyOne_cases {c c' : CondVar T} {choice : Option T}
    (notify : c.notifyOne choice = some c') :
    (choice = none ∧ (∀ t, ¬ t ∈ c) ∧ c' = c) ∨ ∃ t, choice = some t ∧ t ∈ c ∧ c' = c.wake t := by
  cases choice with
  | none =>
      rw [notifyOne] at notify
      split at notify
      · rename_i nobody
        cases notify
        refine Or.inl ⟨rfl, fun t member => ?_, rfl⟩
        rw [show (t ∈ c) = (t ∈ c.waiters) from rfl, nobody] at member
        exact absurd member (Finset.notMem_empty t)
      · cases notify
  | some t =>
      rw [notifyOne] at notify
      split at notify
      · rename_i waiting
        cases notify
        exact Or.inr ⟨t, rfl, waiting, rfl⟩
      · cases notify

theorem notifyOne_subset {c c' : CondVar T} {choice : Option T}
    (notify : c.notifyOne choice = some c') {t : T} (member : t ∈ c') : t ∈ c := by
  rcases notifyOne_cases notify with ⟨-, -, rfl⟩ | ⟨u, -, -, rfl⟩
  · exact member
  · exact wake_subset member

/-- Notifying the only waiter leaves nobody asleep. -/
theorem notifyOne_of_unique {c c' : CondVar T} {choice : Option T}
    (notify : c.notifyOne choice = some c') (unique : ∀ t u, t ∈ c → u ∈ c → t = u) (t : T) :
    ¬ t ∈ c' := by
  rcases notifyOne_cases notify with ⟨-, nobody, rfl⟩ | ⟨u, -, waiting, rfl⟩
  · exact nobody t
  · intro member
    obtain ⟨other, asleep⟩ := mem_wake.mp member
    exact other (unique t u asleep waiting)

/-- One `notifyOne` cannot wake two. -/
theorem notifyOne_leaves {c c' : CondVar T} {choice : Option T}
    (notify : c.notifyOne choice = some c') {t u : T} (distinct : t ≠ u) (first : t ∈ c)
    (second : u ∈ c) : ∃ v, v ∈ c' := by
  rcases notifyOne_cases notify with ⟨-, nobody, -⟩ | ⟨w, -, -, rfl⟩
  · exact absurd first (nobody t)
  · by_cases same : t = w
    · exact ⟨u, mem_wake.mpr ⟨fun h => distinct (same.trans h.symm), second⟩⟩
    · exact ⟨t, mem_wake.mpr ⟨same, first⟩⟩

end CondVar

end Codesnip.Theory
