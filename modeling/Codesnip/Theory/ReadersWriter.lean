/-
# Theory.ReadersWriter -- one writer or any number of readers

What a readers-writer lock is for.  A writer enters in two moves: it announces
itself when nobody else has, which keeps new readers out, and it enters when the
readers that are in have left.

* `Exclusive.step`: a writer that is in shares the lock with nobody;
* `gated`: from the announcement to its leaving the lock stays that writer's, no
  reader enters and the readers only become fewer.
-/
import Codesnip.Theory.Transition
import Mathlib.Data.List.Basic

namespace Codesnip.Theory.ReadersWriter

open Codesnip.Theory.Transition (System)

set_option autoImplicit false

universe u

inductive Phase (T : Type u) where
  | free
  | draining (writer : T)
  | writing (writer : T)
  deriving DecidableEq

/-- `readers` has one entry for each hold; a reader may hold more than once. -/
structure Lock (T : Type u) where
  phase : Phase T
  readers : List T
  deriving DecidableEq

inductive Op (T : Type u) where
  | announce (t : T)
  | enter (t : T)
  | leave (t : T)
  | read (t : T)
  | unread (t : T)
  deriving DecidableEq

/-- The writer that has announced itself or is in. -/
def Phase.owner {T : Type u} : Phase T → Option T
  | .free => none
  | .draining t => some t
  | .writing t => some t

/-- The write holds. -/
def Phase.writers {T : Type u} : Phase T → List T
  | .writing t => [t]
  | _ => []

namespace Lock

variable {T : Type u} [DecidableEq T]

def empty : Lock T := ⟨.free, []⟩

def step (l : Lock T) : Op T → Option (Lock T)
  | .announce t => if l.phase = .free then some { l with phase := .draining t } else none
  | .enter t =>
      if l.phase = .draining t ∧ l.readers = [] then some { l with phase := .writing t } else none
  | .leave t => if l.phase = .writing t then some { l with phase := .free } else none
  | .read t => if l.phase = .free then some { l with readers := t :: l.readers } else none
  | .unread t => if t ∈ l.readers then some { l with readers := l.readers.erase t } else none

end Lock

def system (T : Type u) [DecidableEq T] : System (Lock T) (Op T) :=
  { Init := fun l => l = .empty, step := Lock.step }

namespace Lock

variable {T : Type u} [DecidableEq T]

/-- A writer that is in is alone. -/
def Exclusive (l : Lock T) : Prop := ∀ t, l.phase = .writing t → l.readers = []

/-- The steps, one for each operation. -/
inductive Stepped (l : Lock T) : Op T → Lock T → Prop where
  | announce {t : T} (free : l.phase = .free) :
      Stepped l (.announce t) { l with phase := .draining t }
  | enter {t : T} (announced : l.phase = .draining t) (none : l.readers = []) :
      Stepped l (.enter t) { l with phase := .writing t }
  | leave {t : T} (holds : l.phase = .writing t) : Stepped l (.leave t) { l with phase := .free }
  | read {t : T} (free : l.phase = .free) :
      Stepped l (.read t) { l with readers := t :: l.readers }
  | unread {t : T} (holds : t ∈ l.readers) :
      Stepped l (.unread t) { l with readers := l.readers.erase t }

theorem stepped_of_step {l l' : Lock T} {op : Op T} (step : l.step op = some l') :
    l.Stepped op l' := by
  cases op <;> simp only [Lock.step] at step <;> split at step <;> rename_i cond <;> cases step
  case announce.isTrue => exact .announce cond
  case enter.isTrue => exact .enter cond.1 cond.2
  case leave.isTrue => exact .leave cond
  case read.isTrue => exact .read cond
  case unread.isTrue => exact .unread cond

theorem Exclusive.step {l l' : Lock T} (exclusive : l.Exclusive) {op : Op T}
    (step : l.step op = some l') : l'.Exclusive := by
  intro t writing
  cases stepped_of_step step with
  | announce free => cases writing
  | enter announced none => exact none
  | leave holds => cases writing
  | read free =>
      rw [show l.phase = _ from writing] at free
      cases free
  | unread holds => simp [exclusive t writing]

/-- **An announced writer keeps the lock**, keeps readers out and sees them go, until it
leaves. -/
theorem gated {l l' : Lock T} {t : T} (owner : l.phase.owner = some t) {op : Op T}
    (step : l.step op = some l') (stays : op ≠ .leave t) :
    l'.phase.owner = some t ∧ (∀ u, op ≠ .read u) ∧ l'.readers.length ≤ l.readers.length := by
  cases stepped_of_step step with
  | announce free =>
      rw [free] at owner
      cases owner
  | @enter u announced none =>
      rw [announced] at owner
      exact ⟨owner, fun _ => by simp, Nat.le_refl _⟩
  | @leave u holds =>
      rw [holds] at owner
      exact absurd (congrArg Op.leave (Option.some.inj owner)) stays
  | read free =>
      rw [free] at owner
      cases owner
  | unread holds =>
      refine ⟨owner, fun _ => by simp, ?_⟩
      rw [List.length_erase_of_mem holds]
      exact Nat.sub_le _ _

/-- The same over a whole run. -/
theorem gated_run {l l' : Lock T} {t : T} (owner : l.phase.owner = some t) {ops : List (Op T)}
    (run : (system T).run l ops = some l') (stays : .leave t ∉ ops) :
    l'.phase.owner = some t ∧ (∀ u, .read u ∉ ops) ∧ l'.readers.length ≤ l.readers.length := by
  induction ops generalizing l with
  | nil =>
      cases run
      exact ⟨owner, fun u => by simp, Nat.le_refl _⟩
  | cons op ops ih =>
      obtain ⟨l₁, step, rest⟩ := System.run_cons_some run
      rw [List.mem_cons, not_or] at stays
      obtain ⟨owner₁, kind, fewer⟩ := gated owner step (Ne.symm stays.1)
      obtain ⟨owner', kinds, fewer'⟩ := ih owner₁ rest stays.2
      refine ⟨owner', fun u member => ?_, Nat.le_trans fewer' fewer⟩
      rcases List.mem_cons.mp member with same | member
      · exact kind u same.symm
      · exact kinds u member

end Lock

end Codesnip.Theory.ReadersWriter
