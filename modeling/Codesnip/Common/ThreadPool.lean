/-
# Common.ThreadPool -- the thread pool of `common/threadpool.h` (HEAD side)

`n` workers run `ThreadWorker::operator()`, any threads `S` call `Submit`, and one
thread calls `Shutdown`.  Each statement outside a lock and each section under one
is one step, so an interleaving is a list of `Action`s.

The queue has its own mutex, which no caller holds across a step: the three
`SafeQueue` methods are atomic.  `m_conditional_mutex` is held over several
statements, so it is part of the state, and a worker that waits gives it up in the
step in which it falls asleep.  A worker's `Pc` names the statement it executes
next; `asleep` is inside `wait`, left once the worker is out of
`m_conditional_lock`, notified or woken spuriously, and the mutex is free.

A task is an opaque value, `func` is `none` until something is moved into it, and
nothing is assumed of what `dequeued` holds before its first assignment.  The pool
starts where `Init` has created its threads.
-/
import Codesnip.Theory.Transition
import Codesnip.Theory.CondVar
import Mathlib.Data.Fintype.Pi
import Mathlib.Data.Fintype.Card

namespace Codesnip.Common.ThreadPool

open Codesnip.Theory
open Codesnip.Theory.Transition (System)

set_option autoImplicit false
set_option linter.dupNamespace false
set_option linter.unusedSectionVars false

/-! ## SafeQueue -/

namespace SafeQueue

variable {T : Type}

def empty (m_queue : List T) : Bool := m_queue.isEmpty

def enqueue (m_queue : List T) (t : T) : List T := m_queue ++ [t]

/-- `dequeue(t)`: the answer, what `t` holds after it, and the queue. -/
def dequeue (m_queue : List T) (t : Option T) : Bool × Option T × List T :=
  match m_queue with
  | [] => (false, t, [])
  | front :: rest => (true, some front, rest)

end SafeQueue

/-! ## The pool -/

/-- The statement of `operator()` a worker executes next. -/
inductive Pc where
  | test
  | lock
  | empty
  | wait
  | asleep
  | dequeue
  | unlock
  | branch
  | call
  | running
  | exited
  deriving DecidableEq, Repr

/-- Between taking `m_conditional_mutex` and giving it up. -/
def Pc.inside : Pc → Bool
  | .empty | .wait | .dequeue | .unlock => true
  | _ => false

/-- Between the loop test and `dequeue()`. -/
def Pc.begins : Pc → Bool
  | .lock | .empty | .wait | .asleep | .dequeue => true
  | _ => false

structure Worker (T : Type) where
  pc : Pc
  func : Option T
  dequeued : Bool
  deriving DecidableEq, Repr

/-- Where a thread is in `Submit`: outside, or between enqueue and `notify_one`. -/
inductive Submit where
  | outside
  | notify
  deriving DecidableEq, Repr

/-- Where `Shutdown` is; `join i` joins `m_threads[i]` next. -/
inductive Shutdown where
  | uncalled
  | notifyAll
  | join (i : Nat)
  | returned
  deriving DecidableEq, Repr

structure State (n : Nat) (S T : Type) where
  m_shutdown : Bool
  m_queue : List T
  m_conditional_mutex : Option (Fin n)
  m_conditional_lock : CondVar (Fin n)
  workers : Fin n → Worker T
  submits : S → Submit
  shutdown : Shutdown

/-- `worker` is the next statement of a worker; `notify` is the `notify_one` of a
`Submit` with the worker it wakes. -/
inductive Action (n : Nat) (S T : Type) where
  | worker (w : Fin n)
  | spurious (w : Fin n)
  | enqueue (s : S) (task : T)
  | notify (s : S) (woken : Option (Fin n))
  | shutdown
  deriving DecidableEq, Repr

namespace State

variable {n : Nat} {S T : Type}

def pc (s : State n S T) (w : Fin n) : Pc := (s.workers w).pc

def put (s : State n S T) (w : Fin n) (me : Worker T) : State n S T :=
  { s with workers := Function.update s.workers w me }

@[simp] theorem put_pc_self (s : State n S T) (w : Fin n) (me : Worker T) :
    (s.put w me).pc w = me.pc := by simp [pc, put]

theorem put_pc_of_ne (s : State n S T) {v w : Fin n} (ne : v ≠ w) (me : Worker T) :
    (s.put w me).pc v = s.pc v := by simp [pc, put, ne]

theorem put_workers_of_ne (s : State n S T) {v w : Fin n} (ne : v ≠ w) (me : Worker T) :
    (s.put w me).workers v = s.workers v := by simp [put, ne]

@[simp] theorem put_workers_self (s : State n S T) (w : Fin n) (me : Worker T) :
    (s.put w me).workers w = me := by simp [put]

/-- The next statement of worker `w`. -/
def operatorCall (s : State n S T) (w : Fin n) : Option (State n S T) :=
  let me := s.workers w
  match me.pc with
  | .test => some (s.put w { me with pc := if s.m_shutdown then .exited else .lock })
  | .lock =>
      if s.m_conditional_mutex = none then
        some { s.put w { me with pc := .empty } with m_conditional_mutex := some w }
      else none
  | .empty =>
      some (s.put w { me with pc := if SafeQueue.empty s.m_queue then .wait else .dequeue })
  | .wait =>
      some { s.put w { me with pc := .asleep } with
        m_conditional_mutex := none
        m_conditional_lock := s.m_conditional_lock.wait w }
  | .asleep =>
      if ¬ w ∈ s.m_conditional_lock ∧ s.m_conditional_mutex = none then
        some { s.put w { me with pc := .dequeue } with m_conditional_mutex := some w }
      else none
  | .dequeue =>
      let (dequeued, func, m_queue) := SafeQueue.dequeue s.m_queue me.func
      some { s.put w { pc := .unlock, func, dequeued } with m_queue }
  | .unlock => some { s.put w { me with pc := .branch } with m_conditional_mutex := none }
  | .branch => some (s.put w { me with pc := if me.dequeued then .call else .test })
  | .call => some (s.put w { me with pc := .running })
  | .running => some (s.put w { me with pc := .test })
  | .exited => none

/-- The next statement of `Shutdown`. -/
def shutdownStep (s : State n S T) : Option (State n S T) :=
  match s.shutdown with
  | .uncalled => some { s with m_shutdown := true, shutdown := .notifyAll }
  | .notifyAll =>
      some { s with m_conditional_lock := s.m_conditional_lock.notifyAll, shutdown := .join 0 }
  | .join i =>
      if bound : i < n then
        if s.pc ⟨i, bound⟩ = .exited then some { s with shutdown := .join (i + 1) } else none
      else some { s with shutdown := .returned }
  | .returned => none

variable [DecidableEq S]

def step (s : State n S T) : Action n S T → Option (State n S T)
  | .worker w => s.operatorCall w
  | .spurious w =>
      if w ∈ s.m_conditional_lock then
        some { s with m_conditional_lock := s.m_conditional_lock.wake w }
      else none
  | .enqueue c task =>
      if s.submits c = .outside then
        some { s with
          m_queue := SafeQueue.enqueue s.m_queue task
          submits := Function.update s.submits c .notify }
      else none
  | .notify c woken =>
      if s.submits c = .notify then
        (s.m_conditional_lock.notifyOne woken).map fun m_conditional_lock =>
          { s with m_conditional_lock, submits := Function.update s.submits c .outside }
      else none
  | .shutdown => s.shutdownStep

/-- `Init` has created the threads. -/
def Init (s : State n S T) : Prop :=
  s.m_shutdown = false ∧ s.m_queue = [] ∧ s.m_conditional_mutex = none ∧
    s.m_conditional_lock = .empty ∧
    (∀ w, (s.workers w).pc = .test ∧ (s.workers w).func = none) ∧
    (∀ c, s.submits c = .outside) ∧ s.shutdown = .uncalled

/-- The pool as it stands when every `dequeued` happens to hold `false`. -/
def start (n : Nat) (S T : Type) : State n S T :=
  { m_shutdown := false
    m_queue := []
    m_conditional_mutex := none
    m_conditional_lock := .empty
    workers := fun _ => ⟨.test, none, false⟩
    submits := fun _ => .outside
    shutdown := .uncalled }

end State

def system (n : Nat) (S T : Type) [DecidableEq S] : System (State n S T) (Action n S T) :=
  { Init := State.Init, step := State.step }

namespace State

variable {n : Nat} {S T : Type} [DecidableEq S]

theorem start_init : (start n S T).Init :=
  ⟨rfl, rfl, rfl, rfl, fun _ => ⟨rfl, rfl⟩, fun _ => rfl, rfl⟩

/-! ## What a step can be -/

/-- The steps of worker `w`, one for each way a statement of `operator()` can go. -/
inductive Worked (s : State n S T) (w : Fin n) : State n S T → Prop where
  | leave (pc : s.pc w = .test) (stop : s.m_shutdown = true) :
      Worked s w (s.put w { s.workers w with pc := .exited })
  | enter (pc : s.pc w = .test) (stay : s.m_shutdown = false) :
      Worked s w (s.put w { s.workers w with pc := .lock })
  | lock (pc : s.pc w = .lock) (free : s.m_conditional_mutex = none) :
      Worked s w
        { s.put w { s.workers w with pc := .empty } with m_conditional_mutex := some w }
  | sawEmpty (pc : s.pc w = .empty) (none : s.m_queue = []) :
      Worked s w (s.put w { s.workers w with pc := .wait })
  | sawTask (pc : s.pc w = .empty) (some : s.m_queue ≠ []) :
      Worked s w (s.put w { s.workers w with pc := .dequeue })
  | sleep (pc : s.pc w = .wait) :
      Worked s w
        { s.put w { s.workers w with pc := .asleep } with
          m_conditional_mutex := none
          m_conditional_lock := s.m_conditional_lock.wait w }
  | wakeUp (pc : s.pc w = .asleep) (woken : ¬ w ∈ s.m_conditional_lock)
      (free : s.m_conditional_mutex = none) :
      Worked s w
        { s.put w { s.workers w with pc := .dequeue } with m_conditional_mutex := some w }
  | missed (pc : s.pc w = .dequeue) (none : s.m_queue = []) :
      Worked s w
        { s.put w { pc := .unlock, func := (s.workers w).func, dequeued := false } with
          m_queue := [] }
  | took (pc : s.pc w = .dequeue) {front : T} {rest : List T} (queue : s.m_queue = front :: rest) :
      Worked s w
        { s.put w { pc := .unlock, func := .some front, dequeued := true } with m_queue := rest }
  | unlock (pc : s.pc w = .unlock) :
      Worked s w { s.put w { s.workers w with pc := .branch } with m_conditional_mutex := none }
  | again (pc : s.pc w = .branch) (failed : (s.workers w).dequeued = false) :
      Worked s w (s.put w { s.workers w with pc := .test })
  | takeUp (pc : s.pc w = .branch) (got : (s.workers w).dequeued = true) :
      Worked s w (s.put w { s.workers w with pc := .call })
  | call (pc : s.pc w = .call) : Worked s w (s.put w { s.workers w with pc := .running })
  | finish (pc : s.pc w = .running) : Worked s w (s.put w { s.workers w with pc := .test })

theorem worked_of_operatorCall {s s' : State n S T} {w : Fin n}
    (step : s.operatorCall w = some s') : s.Worked w s' := by
  cases here : s.pc w <;>
    simp only [operatorCall, show (s.workers w).pc = _ from here] at step
  case test =>
    split at step <;> rename_i flag <;> cases step
    · exact .leave here flag
    · exact .enter here (by simpa using flag)
  case lock =>
    split at step <;> rename_i free <;> cases step
    exact .lock here free
  case empty =>
    split at step <;> rename_i answer <;> cases step
    · exact .sawEmpty here (by simpa [SafeQueue.empty] using answer)
    · exact .sawTask here (by simpa [SafeQueue.empty] using answer)
  case wait => cases step; exact .sleep here
  case asleep =>
    split at step <;> rename_i ready <;> cases step
    exact .wakeUp here ready.1 ready.2
  case dequeue =>
    cases queue : s.m_queue with
    | nil =>
        rw [queue] at step
        cases step
        exact .missed here queue
    | cons front rest =>
        rw [queue] at step
        cases step
        exact .took here queue
  case unlock => cases step; exact .unlock here
  case branch =>
    split at step <;> rename_i flag <;> cases step
    · exact .takeUp here flag
    · exact .again here (by simpa using flag)
  case call => cases step; exact .call here
  case running => cases step; exact .finish here
  case exited => cases step

namespace Worked

variable {s s' : State n S T} {v w : Fin n}

theorem pc_of_ne (worked : s.Worked w s') (ne : v ≠ w) : s'.pc v = s.pc v := by
  cases worked <;> exact put_pc_of_ne s ne _

/-- A worker touches neither the flag nor the callers. -/
theorem frame (worked : s.Worked w s') :
    s'.m_shutdown = s.m_shutdown ∧ s'.submits = s.submits ∧ s'.shutdown = s.shutdown := by
  cases worked <;> exact ⟨rfl, rfl, rfl⟩

/-- Only a worker at its `wait` falls asleep. -/
theorem waiters (worked : s.Worked w s') (member : v ∈ s'.m_conditional_lock) :
    v ∈ s.m_conditional_lock ∨ v = w ∧ s.pc w = .wait := by
  cases worked with
  | sleep pc => exact (CondVar.mem_wait.mp member).symm.imp_right fun same => ⟨same, pc⟩
  | _ => exact Or.inl member

/-- A worker goes to its `wait` only after finding the queue empty. -/
theorem queue_of_wait (worked : s.Worked w s') (waits : s'.pc w = .wait) :
    s.pc w = .empty ∧ s.m_queue = [] := by
  cases worked with
  | sawEmpty pc none => exact ⟨pc, none⟩
  | _ => simp [pc, put] at waits

theorem queue_ne (worked : s.Worked w s') (some : s'.m_queue ≠ []) : s.m_queue ≠ [] := by
  cases worked with
  | missed _ _ => exact absurd rfl some
  | took _ queue => simp [queue]
  | _ => exact some

end Worked

/-- The steps of the pool. -/
inductive Stepped (s : State n S T) : Action n S T → State n S T → Prop where
  | worker {w : Fin n} {s' : State n S T} (worked : s.Worked w s') : Stepped s (.worker w) s'
  | spurious {w : Fin n} (asleep : w ∈ s.m_conditional_lock) :
      Stepped s (.spurious w) { s with m_conditional_lock := s.m_conditional_lock.wake w }
  | enqueue {c : S} {task : T} (idle : s.submits c = .outside) :
      Stepped s (.enqueue c task)
        { s with m_queue := s.m_queue ++ [task], submits := Function.update s.submits c .notify }
  | notify {c : S} {woken : Option (Fin n)} {m_conditional_lock : CondVar (Fin n)}
      (pending : s.submits c = .notify)
      (notified : s.m_conditional_lock.notifyOne woken = some m_conditional_lock) :
      Stepped s (.notify c woken)
        { s with m_conditional_lock, submits := Function.update s.submits c .outside }
  | stop (uncalled : s.shutdown = .uncalled) :
      Stepped s .shutdown { s with m_shutdown := true, shutdown := .notifyAll }
  | notifyAll (pending : s.shutdown = .notifyAll) :
      Stepped s .shutdown
        { s with m_conditional_lock := s.m_conditional_lock.notifyAll, shutdown := .join 0 }
  | join {i : Nat} (joining : s.shutdown = .join i) (bound : i < n)
      (exited : s.pc ⟨i, bound⟩ = .exited) :
      Stepped s .shutdown { s with shutdown := .join (i + 1) }
  | returned {i : Nat} (joining : s.shutdown = .join i) (all : n ≤ i) :
      Stepped s .shutdown { s with shutdown := .returned }

theorem stepped_of_step {s s' : State n S T} {a : Action n S T} (step : s.step a = some s') :
    s.Stepped a s' := by
  cases a with
  | worker w => exact .worker (worked_of_operatorCall step)
  | spurious w =>
      simp only [State.step] at step
      split at step <;> cases step
      exact .spurious ‹_›
  | enqueue c task =>
      simp only [State.step] at step
      split at step <;> cases step
      exact .enqueue ‹_›
  | notify c woken =>
      simp only [State.step] at step
      split at step
      · obtain ⟨lock, notified, rfl⟩ := Option.map_eq_some_iff.mp step
        exact .notify ‹_› notified
      · cases step
  | shutdown =>
      simp only [State.step, shutdownStep] at step
      split at step
      · cases step; exact .stop ‹_›
      · cases step; exact .notifyAll ‹_›
      · split at step
        · split at step <;> cases step
          exact .join ‹_› ‹_› ‹_›
        · cases step; exact .returned ‹_› (Nat.le_of_not_lt ‹_›)
      · cases step

/-! ## The mutex and the condition variable -/

/-- What every reachable state keeps: the mutex is held by the one worker inside
its section, only a sleeper waits, and a worker has left only after
`m_shutdown`. -/
structure Coherent (s : State n S T) : Prop where
  owner : ∀ w, s.m_conditional_mutex = some w ↔ (s.pc w).inside = true
  asleep : ∀ w, w ∈ s.m_conditional_lock → s.pc w = .asleep
  called : s.m_shutdown = true ↔ s.shutdown ≠ .uncalled
  exited : ∀ w, s.pc w = .exited → s.m_shutdown = true

theorem init_coherent {s : State n S T} (init : s.Init) : s.Coherent := by
  obtain ⟨stop, -, free, nobody, workers, -, uncalled⟩ := init
  have test : ∀ w, s.pc w = .test := fun w => (workers w).1
  constructor
  · intro w
    simp [free, test w, Pc.inside]
  · intro w member
    rw [nobody] at member
    exact absurd member (CondVar.not_mem_empty w)
  · simp [stop, uncalled]
  · intro w left
    rw [test w] at left
    cases left

/-- A worker's own move keeps coherence when it keeps it for that worker and gives
the mutex to nobody else. -/
theorem Coherent.move {s : State n S T} (coh : s.Coherent) {w : Fin n} {me : Worker T}
    {queue : List T} {mutex : Option (Fin n)} {lock : CondVar (Fin n)}
    (owner : mutex = some w ↔ me.pc.inside = true)
    (others : ∀ v, v ≠ w → (mutex = some v ↔ s.m_conditional_mutex = some v))
    (waiters : ∀ v, v ∈ lock → v = w ∧ me.pc = .asleep ∨ v ≠ w ∧ v ∈ s.m_conditional_lock)
    (left : me.pc = .exited → s.m_shutdown = true) :
    ({ s.put w me with
      m_queue := queue, m_conditional_mutex := mutex, m_conditional_lock := lock } :
        State n S T).Coherent := by
  constructor
  · intro v
    show mutex = some v ↔ ((s.put w me).pc v).inside = true
    by_cases same : v = w
    · rw [same, put_pc_self]
      exact owner
    · rw [put_pc_of_ne s same]
      exact (others v same).trans (coh.owner v)
  · intro v member
    show (s.put w me).pc v = .asleep
    rcases waiters v member with ⟨rfl, slept⟩ | ⟨same, member⟩
    · rw [put_pc_self, slept]
    · rw [put_pc_of_ne s same]
      exact coh.asleep v member
  · exact coh.called
  · intro v out
    change (s.put w me).pc v = .exited at out
    by_cases same : v = w
    · rw [same, put_pc_self] at out
      exact left out
    · rw [put_pc_of_ne s same] at out
      exact coh.exited v out

theorem Coherent.waiters_of_ne {s : State n S T} (coh : s.Coherent) {w : Fin n}
    (awake : s.pc w ≠ .asleep) (v : Fin n) (member : v ∈ s.m_conditional_lock) :
    v ≠ w ∧ v ∈ s.m_conditional_lock :=
  ⟨fun same => awake (same ▸ coh.asleep v member), member⟩

/-- A move that stays inside the section, or outside. -/
theorem Coherent.stay {s : State n S T} (coh : s.Coherent) {w : Fin n} {me : Worker T}
    (queue : List T) (side : me.pc.inside = (s.pc w).inside) (awake : s.pc w ≠ .asleep)
    (left : me.pc = .exited → s.m_shutdown = true) :
    ({ s.put w me with m_queue := queue } : State n S T).Coherent := by
  refine coh.move ?_ (fun _ _ => Iff.rfl) (fun v m => Or.inr (coh.waiters_of_ne awake v m)) left
  rw [side]
  exact coh.owner w

/-- A move into the section. -/
theorem Coherent.acquire {s : State n S T} (coh : s.Coherent) {w : Fin n} {me : Worker T}
    (free : s.m_conditional_mutex = none) (awake : ¬ w ∈ s.m_conditional_lock)
    (inside : me.pc.inside = true) :
    ({ s.put w me with m_conditional_mutex := some w } : State n S T).Coherent := by
  refine coh.move (by simp [inside]) (fun v ne => ?_) (fun v m => ?_) fun out => ?_
  · simp [free, Ne.symm ne]
  · exact Or.inr ⟨fun same => awake (same ▸ m), m⟩
  · rw [out] at inside
    cases inside

/-- A move out of the section, to sleep or not. -/
theorem Coherent.release {s : State n S T} (coh : s.Coherent) {w : Fin n} {me : Worker T}
    {lock : CondVar (Fin n)} (inside : (s.pc w).inside = true) (outside : me.pc.inside = false)
    (waiters : ∀ v, v ∈ lock → v = w ∧ me.pc = .asleep ∨ v ∈ s.m_conditional_lock)
    (stays : me.pc ≠ .exited) :
    ({ s.put w me with m_conditional_mutex := none, m_conditional_lock := lock } :
      State n S T).Coherent := by
  refine coh.move (by simp [outside]) (fun v ne => ?_) (fun v m => ?_) fun out => absurd out stays
  · simp [(coh.owner w).mpr inside, Ne.symm ne]
  · refine (waiters v m).imp_right fun m => coh.waiters_of_ne (fun sleeps => ?_) v m
    rw [sleeps] at inside
    cases inside

theorem Coherent.work {s s' : State n S T} (coh : s.Coherent) {w : Fin n}
    (worked : s.Worked w s') : s'.Coherent := by
  cases worked with
  | leave pc stop => exact coh.stay _ (by rw [pc]; rfl) (by simp [pc]) fun _ => stop
  | enter pc _ | sawEmpty pc _ | sawTask pc _ | again pc _ | takeUp pc _ | call pc | finish pc =>
      exact coh.stay _ (by rw [pc]; rfl) (by simp [pc]) (by simp)
  | missed pc _ => exact coh.stay [] (by rw [pc]; rfl) (by simp [pc]) (by simp)
  | took pc _ => exact coh.stay _ (by rw [pc]; rfl) (by simp [pc]) (by simp)
  | lock pc free =>
      refine coh.acquire free (fun member => ?_) rfl
      simp [coh.asleep w member] at pc
  | wakeUp _ woken free => exact coh.acquire free woken rfl
  | sleep pc =>
      refine coh.release (by rw [pc]; rfl) rfl (fun v m => ?_) (by simp)
      exact (CondVar.mem_wait.mp m).imp_left fun same => ⟨same, rfl⟩
  | unlock pc => exact coh.release (by rw [pc]; rfl) rfl (fun _ => Or.inr) (by simp)

theorem Coherent.step {s s' : State n S T} (coh : s.Coherent) {a : Action n S T}
    (step : s.step a = some s') : s'.Coherent := by
  cases stepped_of_step step with
  | worker worked => exact coh.work worked
  | spurious asleep =>
      exact ⟨coh.owner, fun v m => coh.asleep v (CondVar.wake_subset m), coh.called, coh.exited⟩
  | enqueue idle => exact ⟨coh.owner, coh.asleep, coh.called, coh.exited⟩
  | notify pending notified =>
      exact ⟨coh.owner, fun v m => coh.asleep v (CondVar.notifyOne_subset notified m),
        coh.called, coh.exited⟩
  | stop uncalled => exact ⟨coh.owner, coh.asleep, by simp, fun _ _ => rfl⟩
  | notifyAll pending =>
      refine ⟨coh.owner, fun v m => ?_, ?_, coh.exited⟩
      · exact absurd m (CondVar.not_mem_notifyAll s.m_conditional_lock v)
      · simpa [pending] using coh.called
  | join joining bound exited =>
      exact ⟨coh.owner, coh.asleep, by simpa [joining] using coh.called, coh.exited⟩
  | returned joining all =>
      exact ⟨coh.owner, coh.asleep, by simpa [joining] using coh.called, coh.exited⟩

theorem reachable_coherent {s : State n S T} (reach : (system n S T).Reachable s) : s.Coherent :=
  reach.induct (fun _ => init_coherent) fun _ _ _ coh step => coh.step step

/-- At most one worker is inside the section. -/
theorem Coherent.inside_unique {s : State n S T} (coh : s.Coherent) {v w : Fin n}
    (first : (s.pc v).inside = true) (second : (s.pc w).inside = true) : v = w :=
  Option.some.inj (((coh.owner v).mpr first).symm.trans ((coh.owner w).mpr second))

end State

end Codesnip.Common.ThreadPool
