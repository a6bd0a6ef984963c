/-
# Common.ThreadPoolIncoming -- the other side of the conflict in `common/threadpool.h`

The constructor starts `n` workers, which run one lambda, and any threads `S` call
`enqueue`.  Both hold `queue_mutex` over all they do with `stop` and `tasks`, and
`condition.wait` tests its predicate under it, so each section under the mutex is
one step: a worker that gets the mutex at the head of its loop, or back inside
`wait`, tests the predicate and waits, returns, or pops.

`loop` stands before the lock of an iteration.  A worker `asleep` is inside `wait`,
and once it is out of `condition`, notified or woken spuriously, it takes the mutex
back and tests again.  `notifying` has the threads between the end of their section
in `enqueue` and its `notify_one`.  Nothing sets `stop` after the constructor.

Two results: a queued task that somebody sleeps through is covered by a worker about
to look or a `notify_one` about to come (`Covered`), and the tasks pushed are the
tasks popped followed by the queue, each popped one called once by its worker
(`Served`).
-/
import Codesnip.Theory.Transition
import Codesnip.Theory.CondVar
import Mathlib.Data.Fintype.Defs
import Mathlib.Data.Fintype.Basic

namespace Codesnip.Common.ThreadPoolIncoming

open Codesnip.Theory
open Codesnip.Theory.Transition (System)

set_option autoImplicit false
set_option linter.dupNamespace false
set_option linter.unusedSectionVars false

/-- Where a worker is, with its local `task` from the pop to the end of the call. -/
inductive Pc (T : Type) where
  | loop
  | asleep
  | hold (task : T)
  | running (task : T)
  | exited
  deriving DecidableEq, Repr

structure State (n : Nat) (S T : Type) where
  stop : Bool
  tasks : List T
  condition : CondVar (Fin n)
  workers : Fin n → Pc T
  notifying : Finset S

/-- `worker` is the next step of a worker; `notify` is the `notify_one` of an
`enqueue` with the worker it wakes. -/
inductive Action (n : Nat) (S T : Type) where
  | worker (w : Fin n)
  | spurious (w : Fin n)
  | enqueue (c : S) (task : T)
  | notify (c : S) (woken : Option (Fin n))
  deriving DecidableEq, Repr

/-- What a step does to a task. -/
inductive Event (n : Nat) (T : Type) where
  | pushed (task : T)
  | popped (w : Fin n) (task : T)
  | called (w : Fin n) (task : T)
  deriving DecidableEq, Repr

namespace State

variable {n : Nat} {S T : Type}

/-- The constructor has launched its workers. -/
def start (n : Nat) (S T : Type) : State n S T :=
  { stop := false
    tasks := []
    condition := .empty
    workers := fun _ => .loop
    notifying := ∅ }

def put (s : State n S T) (w : Fin n) (pc : Pc T) : State n S T :=
  { s with workers := Function.update s.workers w pc }

/-- The worker's section under `queue_mutex`: the predicate `stop || !tasks.empty()`
fails in the first case, the second returns, the third pops. -/
def locked (s : State n S T) (w : Fin n) : State n S T × Option (Event n T) :=
  match s.stop, s.tasks with
  | false, [] => ({ s.put w .asleep with condition := s.condition.wait w }, none)
  | true, [] => (s.put w .exited, none)
  | _, front :: rest => ({ s.put w (.hold front) with tasks := rest }, some (.popped w front))

def work (s : State n S T) (w : Fin n) : Option (State n S T × Option (Event n T)) :=
  match s.workers w with
  | .loop => some (s.locked w)
  | .asleep => if w ∈ s.condition then none else some (s.locked w)
  | .hold task => some (s.put w (.running task), some (.called w task))
  | .running _ => some (s.put w .loop, none)
  | .exited => none

variable [DecidableEq S]

/-- The section of `enqueue`, which throws on a stopped pool. -/
def enqueue (s : State n S T) (c : S) (task : T) : State n S T × Option (Event n T) :=
  if s.stop then (s, none)
  else ({ s with tasks := s.tasks ++ [task], notifying := insert c s.notifying },
    some (.pushed task))

def step (s : State n S T) : Action n S T → Option (State n S T × Option (Event n T))
  | .worker w => s.work w
  | .spurious w =>
      if w ∈ s.condition then some ({ s with condition := s.condition.wake w }, none) else none
  | .enqueue c task => if c ∈ s.notifying then none else some (s.enqueue c task)
  | .notify c woken =>
      if c ∈ s.notifying then
        (s.condition.notifyOne woken).map fun condition =>
          ({ s with condition, notifying := s.notifying.erase c }, none)
      else none

end State

/-- The pool and what its steps did so far. -/
structure Run (n : Nat) (S T : Type) where
  pool : State n S T
  history : List (Event n T)

namespace Run

variable {n : Nat} {S T : Type}

def start (n : Nat) (S T : Type) : Run n S T := ⟨.start n S T, []⟩

/-- The tasks pushed, in order. -/
def pushed (r : Run n S T) : List T :=
  r.history.filterMap fun | .pushed task => some task | _ => none

/-- The tasks popped, in order. -/
def popped (r : Run n S T) : List T :=
  r.history.filterMap fun | .popped _ task => some task | _ => none

/-- The tasks `w` popped. -/
def poppedBy (r : Run n S T) (w : Fin n) : List T :=
  r.history.filterMap fun | .popped v task => if v = w then some task else none | _ => none

/-- The tasks `w` called. -/
def calledBy (r : Run n S T) (w : Fin n) : List T :=
  r.history.filterMap fun | .called v task => if v = w then some task else none | _ => none

def step [DecidableEq S] (r : Run n S T) (a : Action n S T) : Option (Run n S T) :=
  (r.pool.step a).map fun (pool, event) => ⟨pool, r.history ++ event.toList⟩

end Run

def system (n : Nat) (S T : Type) [DecidableEq S] : System (Run n S T) (Action n S T) :=
  { Init := fun r => r = .start n S T, step := Run.step }

namespace State

variable {n : Nat} {S T : Type} [DecidableEq S]

/-! ## What a step can be -/

/-- About to test the predicate: at the head of the loop, or out of `condition`. -/
def Looks (s : State n S T) (w : Fin n) : Prop :=
  s.workers w = .loop ∨ s.workers w = .asleep ∧ ¬ w ∈ s.condition

inductive Stepped (s : State n S T) :
    Action n S T → State n S T → Option (Event n T) → Prop where
  | sleep {w : Fin n} (looks : s.Looks w) (none : s.tasks = []) :
      Stepped s (.worker w) { s.put w .asleep with condition := s.condition.wait w } .none
  | leave {w : Fin n} (looks : s.Looks w) (none : s.tasks = []) :
      Stepped s (.worker w) (s.put w .exited) .none
  | pop {w : Fin n} {front : T} {rest : List T} (looks : s.Looks w)
      (queue : s.tasks = front :: rest) :
      Stepped s (.worker w) { s.put w (.hold front) with tasks := rest } (some (.popped w front))
  | call {w : Fin n} {task : T} (holds : s.workers w = .hold task) :
      Stepped s (.worker w) (s.put w (.running task)) (some (.called w task))
  | finish {w : Fin n} {task : T} (runs : s.workers w = .running task) :
      Stepped s (.worker w) (s.put w .loop) .none
  | spurious {w : Fin n} (asleep : w ∈ s.condition) :
      Stepped s (.spurious w) { s with condition := s.condition.wake w } .none
  | throw {c : S} {task : T} : Stepped s (.enqueue c task) s .none
  | push {c : S} {task : T} (fresh : c ∉ s.notifying) :
      Stepped s (.enqueue c task)
        { s with tasks := s.tasks ++ [task], notifying := insert c s.notifying }
        (some (.pushed task))
  | notify {c : S} {woken : Option (Fin n)} {condition : CondVar (Fin n)}
      (pending : c ∈ s.notifying) (notified : s.condition.notifyOne woken = some condition) :
      Stepped s (.notify c woken) { s with condition, notifying := s.notifying.erase c } .none

theorem stepped_of_locked {s : State n S T} {w : Fin n} (looks : s.Looks w) :
    s.Stepped (.worker w) (s.locked w).1 (s.locked w).2 := by
  unfold locked
  split
  · exact .sleep looks ‹_›
  · exact .leave looks ‹_›
  · exact .pop looks ‹_›

theorem stepped_of_step {s s' : State n S T} {a : Action n S T} {event : Option (Event n T)}
    (step : s.step a = some (s', event)) : s.Stepped a s' event := by
  cases a with
  | worker w =>
      cases here : s.workers w <;> simp only [State.step, work, here] at step
      case loop =>
          have looked := stepped_of_locked (.inl here : s.Looks w)
          rwa [Option.some.inj step] at looked
      case asleep =>
          split at step
          · cases step
          · rename_i woken
            have looked := stepped_of_locked (.inr ⟨here, woken⟩ : s.Looks w)
            rwa [Option.some.inj step] at looked
      case hold => cases step; exact .call here
      case running => cases step; exact .finish here
      case exited => cases step
  | spurious w =>
      simp only [State.step] at step
      split at step <;> cases step
      exact .spurious ‹_›
  | enqueue c task =>
      simp only [State.step, enqueue] at step
      split at step
      · cases step
      · split at step <;> cases step
        · exact .throw
        · exact .push ‹_›
  | notify c woken =>
      simp only [State.step] at step
      split at step
      · obtain ⟨condition, notified, same⟩ := Option.map_eq_some_iff.mp step
        cases same
        exact .notify ‹_› notified
      · cases step

/-! ## Sleepers and queued tasks -/

instance (s : State n S T) (w : Fin n) : Decidable (s.Looks w) :=
  match here : s.workers w with
  | .loop => isTrue (.inl here)
  | .asleep => decidable_of_iff (¬ w ∈ s.condition) (by simp [Looks, here])
  | .hold _ | .running _ | .exited => isFalse (by simp [Looks, here])

/-- The workers awake without a task. -/
def awake (s : State n S T) : Finset (Fin n) := Finset.univ.filter s.Looks

@[simp] theorem mem_awake {s : State n S T} {w : Fin n} : w ∈ s.awake ↔ s.Looks w := by
  simp [awake]

/-- With a worker asleep un-notified, every queued task has a worker about to look
or a `notify_one` about to come. -/
structure Covered (s : State n S T) : Prop where
  asleep : ∀ w, w ∈ s.condition → s.workers w = .asleep
  covered : ∀ w, w ∈ s.condition → s.tasks.length ≤ s.awake.card + s.notifying.card

@[simp] theorem put_tasks (s : State n S T) (w : Fin n) (pc : Pc T) :
    (s.put w pc).tasks = s.tasks := rfl

@[simp] theorem put_condition (s : State n S T) (w : Fin n) (pc : Pc T) :
    (s.put w pc).condition = s.condition := rfl

@[simp] theorem put_notifying (s : State n S T) (w : Fin n) (pc : Pc T) :
    (s.put w pc).notifying = s.notifying := rfl

@[simp] theorem put_workers_self (s : State n S T) (w : Fin n) (pc : Pc T) :
    (s.put w pc).workers w = pc := by simp [put]

theorem put_workers_of_ne (s : State n S T) {v w : Fin n} (ne : v ≠ w) (pc : Pc T) :
    (s.put w pc).workers v = s.workers v := by simp [put, ne]

theorem start_covered : (start n S T).Covered := by
  constructor <;> simp [start]

/-- A worker that stops looking leaves one fewer. -/
theorem card_awake_of_leaves {s s' : State n S T} {w : Fin n}
    (others : ∀ v, v ≠ w → s.Looks v → s'.Looks v) : s.awake.card ≤ s'.awake.card + 1 := by
  have sub : s.awake ⊆ insert w s'.awake := by
    intro v looks
    rw [Finset.mem_insert, mem_awake]
    by_cases same : v = w
    · exact .inl same
    · exact .inr (others v same (mem_awake.mp looks))
  exact (Finset.card_le_card sub).trans (Finset.card_insert_le w s'.awake)

/-- A worker that starts looking is one more. -/
theorem card_awake_of_joins {s s' : State n S T} {w : Fin n} (fresh : ¬ s.Looks w)
    (joins : s'.Looks w) (others : ∀ v, v ≠ w → s.Looks v → s'.Looks v) :
    s.awake.card + 1 ≤ s'.awake.card := by
  have sub : insert w s.awake ⊆ s'.awake := by
    intro v member
    rw [mem_awake]
    rcases Finset.mem_insert.mp member with rfl | looks
    · exact joins
    · have looks := mem_awake.mp looks
      exact others v (fun same => fresh (same ▸ looks)) looks
  rw [← Finset.card_insert_of_notMem (mem_awake.not.mpr fresh)]
  exact Finset.card_le_card sub

/-- A worker whose own place does not change looks on. -/
theorem Looks.congr {s s' : State n S T} {v : Fin n} (looks : s.Looks v)
    (place : s'.workers v = s.workers v) (condition : v ∈ s'.condition → v ∈ s.condition) :
    s'.Looks v := by
  rcases looks with loop | ⟨asleep, woken⟩
  · exact .inl (place.trans loop)
  · exact .inr ⟨place.trans asleep, fun waits => woken (condition waits)⟩

theorem Covered.not_waiting {s : State n S T} (cov : s.Covered) {w : Fin n} (looks : s.Looks w) :
    ¬ w ∈ s.condition := by
  rcases looks with loop | ⟨-, woken⟩
  · intro waits
    cases loop.symm.trans (cov.asleep w waits)
  · exact woken

/-- The workers on `condition` keep their place when one that is not on it moves. -/
theorem Covered.asleep_put {s : State n S T} (cov : s.Covered) {w : Fin n}
    (awake : ¬ w ∈ s.condition) (pc : Pc T) {v : Fin n} (waits : v ∈ s.condition) :
    (s.put w pc).workers v = .asleep := by
  have ne : v ≠ w := fun same => awake (same ▸ waits)
  rw [put_workers_of_ne s ne, cov.asleep v waits]

theorem Covered.awake_of_pc {s : State n S T} (cov : s.Covered) {w : Fin n} {pc : Pc T}
    (here : s.workers w = pc) (other : pc ≠ .asleep) : ¬ w ∈ s.condition :=
  fun waits => other (here.symm.trans (cov.asleep w waits))

/-- **One step keeps the tasks covered.** -/
theorem Covered.step {s s' : State n S T} {a : Action n S T} {event : Option (Event n T)}
    (cov : s.Covered) (stepped : s.Stepped a s' event) : s'.Covered := by
  cases stepped with
  | @sleep w looks none =>
      constructor
      · intro v waits
        rcases CondVar.mem_wait.mp waits with rfl | before
        · exact put_workers_self s v _
        · exact cov.asleep_put (cov.not_waiting looks) _ before
      · intro v _
        simp [none]
  | @leave w looks none =>
      refine ⟨fun v waits => cov.asleep_put (cov.not_waiting looks) _ waits, fun v _ => ?_⟩
      simp [none]
  | @pop w front rest looks queue =>
      refine ⟨fun v waits => cov.asleep_put (cov.not_waiting looks) _ waits, fun v waits => ?_⟩
      -- the popped task and its popper leave together
      have before := cov.covered v waits
      let s₁ : State n S T := { s.put w (.hold front) with tasks := rest }
      have fewer : s.awake.card ≤ s₁.awake.card + 1 :=
        card_awake_of_leaves fun u ne looks => looks.congr (put_workers_of_ne s ne _) id
      rw [queue, List.length_cons] at before
      show rest.length ≤ s₁.awake.card + s.notifying.card
      omega
  | @call w task holds =>
      have awake := cov.awake_of_pc holds (by simp)
      refine ⟨fun v waits => cov.asleep_put awake _ waits, fun v waits => ?_⟩
      refine (cov.covered v waits).trans (Nat.add_le_add_right (Finset.card_le_card ?_) _)
      intro u looks
      have looks := mem_awake.mp looks
      have ne : u ≠ w := by
        rintro rfl
        simp [Looks, holds] at looks
      exact mem_awake.mpr (looks.congr (put_workers_of_ne s ne _) id)
  | @finish w task runs =>
      have awake := cov.awake_of_pc runs (by simp)
      refine ⟨fun v waits => cov.asleep_put awake _ waits, fun v waits => ?_⟩
      have before := cov.covered v waits
      have more : s.awake.card + 1 ≤ (s.put w .loop).awake.card :=
        card_awake_of_joins (by simp [Looks, runs]) (.inl (put_workers_self s w _))
          fun u ne looks => looks.congr (put_workers_of_ne s ne _) id
      show s.tasks.length ≤ _ + s.notifying.card
      omega
  | @spurious w asleep =>
      refine ⟨fun v waits => cov.asleep v (CondVar.wake_subset waits), fun v waits => ?_⟩
      have before := cov.covered v (CondVar.wake_subset waits)
      let s₁ : State n S T := { s with condition := s.condition.wake w }
      have more : s.awake.card + 1 ≤ s₁.awake.card :=
        card_awake_of_joins (fun looks => cov.not_waiting looks asleep)
          (.inr ⟨cov.asleep w asleep, by simp [s₁]⟩)
          fun u _ looks => looks.congr rfl CondVar.wake_subset
      show s.tasks.length ≤ s₁.awake.card + s.notifying.card
      omega
  | throw => exact cov
  | @push c task fresh =>
      refine ⟨cov.asleep, fun v waits => ?_⟩
      have before := cov.covered v waits
      show (s.tasks ++ [task]).length ≤ s.awake.card + (insert c s.notifying).card
      rw [Finset.card_insert_of_notMem fresh, List.length_append, List.length_singleton]
      omega
  | @notify c woken condition pending notified =>
      rcases CondVar.notifyOne_cases notified with ⟨-, nobody, rfl⟩ | ⟨w, -, asleep, rfl⟩
      · exact ⟨cov.asleep, fun v waits => absurd waits (nobody v)⟩
      · refine ⟨fun v waits => cov.asleep v (CondVar.wake_subset waits), fun v waits => ?_⟩
        -- the notification becomes a worker about to look
        have before := cov.covered v (CondVar.wake_subset waits)
        let s₁ : State n S T :=
          { s with condition := s.condition.wake w, notifying := s.notifying.erase c }
        have more : s.awake.card + 1 ≤ s₁.awake.card :=
          card_awake_of_joins (fun looks => cov.not_waiting looks asleep)
            (.inr ⟨cov.asleep w asleep, by simp [s₁]⟩)
            fun u _ looks => looks.congr rfl CondVar.wake_subset
        have spent := Finset.card_erase_add_one pending
        show s.tasks.length ≤ s₁.awake.card + (s.notifying.erase c).card
        omega

/-- Nobody has to hope for the next `enqueue`: with a task queued and no `notify_one`
to come, some worker is not asleep un-notified. -/
theorem Covered.attended {s : State n S T} (cov : s.Covered) (pos : 0 < n)
    (queued : s.tasks ≠ []) (settled : s.notifying = ∅) : ∃ w, ¬ w ∈ s.condition := by
  by_contra all
  have waits : (⟨0, pos⟩ : Fin n) ∈ s.condition := by
    by_contra awake
    exact all ⟨_, awake⟩
  have covered := cov.covered _ waits
  rw [settled, Finset.card_empty, Nat.add_zero] at covered
  have some : 0 < s.awake.card := Nat.lt_of_lt_of_le (List.length_pos_of_ne_nil queued) covered
  obtain ⟨w, looks⟩ := Finset.card_pos.mp some
  exact all ⟨w, cov.not_waiting (mem_awake.mp looks)⟩

/-- The task a worker has popped and not yet called. -/
def held (s : State n S T) (w : Fin n) : List T :=
  match s.workers w with
  | .hold task => [task]
  | _ => []

theorem held_eq {s s' : State n S T} {w : Fin n} (same : s'.workers w = s.workers w) :
    s'.held w = s.held w := by
  rw [held, same, held]

theorem held_of_looks {s : State n S T} {w : Fin n} (looks : s.Looks w) : s.held w = [] := by
  rcases looks with loop | ⟨asleep, -⟩
  · rw [held, loop]
  · rw [held, asleep]

end State

namespace Run

variable {n : Nat} {S T : Type} [DecidableEq S]

/-- Every task pushed was popped in its turn or is queued, and what a worker popped
it has called, but for the task it holds. -/
structure Served (r : Run n S T) : Prop where
  fifo : r.pushed = r.popped ++ r.pool.tasks
  once : ∀ w, r.poppedBy w = r.calledBy w ++ r.pool.held w

theorem start_served : (start n S T).Served := ⟨rfl, fun _ => rfl⟩

/-- A step that moves no task. -/
theorem Served.idle {r : Run n S T} (served : r.Served) {pool : State n S T}
    (tasks : pool.tasks = r.pool.tasks) (held : ∀ w, pool.held w = r.pool.held w) :
    (⟨pool, r.history ++ (none : Option (Event n T)).toList⟩ : Run n S T).Served := by
  rw [Option.toList_none, List.append_nil]
  exact ⟨by rw [tasks]; exact served.fifo, fun w => by rw [held w]; exact served.once w⟩

/-- A worker that goes somewhere else without a task. -/
theorem held_put {s : State n S T} {w : Fin n} {pc : Pc T} (none : s.held w = [])
    (next : (s.put w pc).held w = []) (v : Fin n) : (s.put w pc).held v = s.held v := by
  by_cases same : v = w
  · rw [same, none, next]
  · exact State.held_eq (State.put_workers_of_ne s same pc)

/-- **One step serves on.** -/
theorem Served.step {r : Run n S T} (served : r.Served) {a : Action n S T} {pool : State n S T}
    {event : Option (Event n T)} (stepped : r.pool.Stepped a pool event) :
    (⟨pool, r.history ++ event.toList⟩ : Run n S T).Served := by
  obtain ⟨fifo, once⟩ := served
  cases stepped with
  | @sleep w looks none =>
      have next : (r.pool.put w .asleep).held w = [] := by simp [State.held]
      exact Served.idle ⟨fifo, once⟩ rfl (held_put (State.held_of_looks looks) next)
  | @leave w looks none =>
      refine Served.idle ⟨fifo, once⟩ rfl ?_
      exact held_put (State.held_of_looks looks) (by simp [State.held])
  | @pop w front rest looks queue =>
      constructor
      · simpa [pushed, popped, queue] using fifo
      · intro v
        have before := once v
        by_cases same : v = w
        · subst same
          rw [State.held_of_looks looks, List.append_nil] at before
          simpa [poppedBy, calledBy, State.held, State.put] using before
        · have kept : ({ r.pool.put w (.hold front) with tasks := rest } : State n S T).held v =
              r.pool.held v := State.held_eq (State.put_workers_of_ne r.pool same _)
          rw [kept]
          simpa [poppedBy, calledBy, Ne.symm same] using before
  | @call w task holds =>
      constructor
      · simpa [pushed, popped] using fifo
      · intro v
        have before := once v
        by_cases same : v = w
        · subst same
          rw [State.held, holds] at before
          simpa [poppedBy, calledBy, State.held, State.put] using before
        · rw [State.held_eq (State.put_workers_of_ne r.pool same _)]
          simpa [poppedBy, calledBy, Ne.symm same] using before
  | @finish w task runs =>
      refine Served.idle ⟨fifo, once⟩ rfl (held_put ?_ (by simp [State.held]))
      rw [State.held, runs]
  | spurious asleep => exact Served.idle ⟨fifo, once⟩ rfl fun _ => rfl
  | throw => exact Served.idle ⟨fifo, once⟩ rfl fun _ => rfl
  | @push c task fresh =>
      constructor
      · show List.filterMap _ (r.history ++ [Event.pushed task]) =
          List.filterMap _ (r.history ++ [Event.pushed task]) ++ (r.pool.tasks ++ [task])
        rw [pushed, popped] at fifo
        rw [List.filterMap_append, List.filterMap_append, fifo]
        simp
      · intro v
        show _ = _ ++ r.pool.held v
        simpa [poppedBy, calledBy] using once v
  | notify pending notified => exact Served.idle ⟨fifo, once⟩ rfl fun _ => rfl

theorem step_some {r r' : Run n S T} {a : Action n S T} (step : r.step a = some r') :
    ∃ pool event, r.pool.Stepped a pool event ∧ r' = ⟨pool, r.history ++ event.toList⟩ := by
  obtain ⟨⟨pool, event⟩, inner, rfl⟩ := Option.map_eq_some_iff.mp step
  exact ⟨pool, event, State.stepped_of_step inner, rfl⟩

theorem reachable_covered {r : Run n S T} (reach : (system n S T).Reachable r) :
    r.pool.Covered := by
  refine reach.induct (P := fun r => r.pool.Covered) ?_ ?_
  · rintro r rfl
    exact State.start_covered
  · intro r a r' cov step
    obtain ⟨pool, event, stepped, rfl⟩ := step_some step
    exact cov.step stepped

theorem reachable_served {r : Run n S T} (reach : (system n S T).Reachable r) : r.Served := by
  refine reach.induct ?_ ?_
  · rintro r rfl
    exact start_served
  · intro r a r' served step
    obtain ⟨pool, event, stepped, rfl⟩ := step_some step
    exact served.step stepped

/-- **No task is slept through and none is lost.**  In every reachable state, if a
worker is asleep un-notified, the queue is no longer than the workers awake without
a task and the `enqueue`s before their `notify_one` together; the tasks pushed are
those popped followed by the queue; and each worker has called what it popped, in
order and once, up to the task it holds, which its next step calls. -/
theorem covered_and_served {r : Run n S T} (reach : (system n S T).Reachable r) :
    ((∃ w, w ∈ r.pool.condition) →
      r.pool.tasks.length ≤ r.pool.awake.card + r.pool.notifying.card) ∧
    r.pushed = r.popped ++ r.pool.tasks ∧
    (∀ w, r.poppedBy w = r.calledBy w ++ r.pool.held w) ∧
    ∀ w task, r.pool.workers w = .hold task → ∃ r', r.step (.worker w) = some r' ∧
      r'.calledBy w = r.calledBy w ++ [task] ∧ r'.pool.held w = [] := by
  have served := reachable_served reach
  refine ⟨fun ⟨w, waits⟩ => (reachable_covered reach).covered w waits, served.fifo, served.once,
    fun w task holds => ?_⟩
  refine ⟨⟨r.pool.put w (.running task), r.history ++ [.called w task]⟩, ?_, ?_, ?_⟩
  · simp [Run.step, State.step, State.work, holds]
  · simp [calledBy]
  · simp [State.held]

/-- A sleeping worker is notified, but the task goes to one that was not asleep. -/
theorem covered_and_served_stolen :
    ∃ r, (system 2 Unit Nat).run (start 2 Unit Nat)
        [.worker 0, .enqueue () 7, .notify () (some 0), .worker 1, .worker 1, .worker 0,
          .enqueue () 8] = some r ∧
      0 ∈ r.pool.condition ∧ r.pool.tasks.length ≤ r.pool.awake.card + r.pool.notifying.card ∧
      r.calledBy 1 = [7] := by
  obtain ⟨r, run, asleep, called⟩ : ∃ r, (system 2 Unit Nat).run (start 2 Unit Nat)
      [.worker 0, .enqueue () 7, .notify () (some 0), .worker 1, .worker 1, .worker 0,
        .enqueue () 8] = some r ∧ 0 ∈ r.pool.condition ∧ r.calledBy 1 = [7] :=
    ⟨_, rfl, by decide, rfl⟩
  have reach : (system 2 Unit Nat).Reachable r := System.Reachable.of_run rfl run
  exact ⟨r, run, asleep, (covered_and_served reach).1 ⟨0, asleep⟩, called⟩

end Run

end Codesnip.Common.ThreadPoolIncoming
