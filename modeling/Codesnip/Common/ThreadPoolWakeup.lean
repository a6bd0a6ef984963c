/-
# Common.ThreadPoolWakeup -- when a submitted task can be left to sleepers

`Submit` enqueues and notifies without `m_conditional_mutex`, so both can fall
between a worker's `empty()` and its `wait`: the notification wakes nobody and the
worker goes to sleep on a queue that holds a task.

That worker holds the mutex at the time, so no other one can be in the same gap.
With a second worker there is always somebody left who will look at the queue
(`Watched`, the invariant); with a single one there is not (`sole_worker_sleeps`).
-/
import Codesnip.Common.ThreadPool

namespace Codesnip.Common.ThreadPool

open Codesnip.Theory
open Codesnip.Theory.Transition (System)

set_option autoImplicit false
set_option linter.dupNamespace false
set_option linter.unusedSectionVars false

namespace State

variable {n : Nat} {S T : Type}

/-- A queued task that every `Submit` has notified for leaves some worker that is not
asleep un-notified, as long as the pool runs. -/
def Attended (s : State n S T) : Prop :=
  s.m_shutdown = false → s.m_queue ≠ [] → (∀ c, s.submits c = .outside) →
    ∃ w, ¬ w ∈ s.m_conditional_lock

/-- Neither asleep nor about to be. -/
def Awake (s : State n S T) (w : Fin n) : Prop := ¬ w ∈ s.m_conditional_lock ∧ s.pc w ≠ .wait

/-- A queued task has a `notify_one` still to come or a worker awake. -/
def Watched (s : State n S T) : Prop :=
  s.m_shutdown = false → s.m_queue ≠ [] →
    (∃ c, s.submits c = .notify) ∨ ∃ w, s.Awake w

theorem Watched.attended {s : State n S T} (watched : s.Watched) : s.Attended := by
  intro runs some all
  rcases watched runs some with ⟨c, pending⟩ | ⟨w, asleep, -⟩
  · rw [all c] at pending
    cases pending
  · exact ⟨w, asleep⟩

variable [DecidableEq S]

theorem Watched.work {s s' : State n S T} (watched : s.Watched) {w : Fin n}
    (worked : s.Worked w s') : s'.Watched := by
  intro runs some
  obtain ⟨flag, submits, -⟩ := worked.frame
  rw [submits]
  refine (watched (flag ▸ runs) (worked.queue_ne some)).imp_right ?_
  rintro ⟨v, asleep, wait⟩
  have notWaiting : s'.pc v ≠ .wait := by
    by_cases same : v = w
    · subst same
      exact fun waits => worked.queue_ne some (worked.queue_of_wait waits).2
    · rw [worked.pc_of_ne same]
      exact wait
  refine ⟨v, fun member => ?_, notWaiting⟩
  rcases worked.waiters member with member | ⟨rfl, waits⟩
  · exact asleep member
  · exact wait waits

/-- With two workers, one of them is outside the section. -/
theorem Coherent.exists_not_waiting {s : State n S T} (coh : s.Coherent) (two : 2 ≤ n) :
    ∃ w, s.pc w ≠ .wait := by
  apply Classical.byContradiction; intro all
  have waiting : ∀ w, s.pc w = .wait := fun w => Classical.byContradiction fun h => all ⟨w, h⟩
  have same : (⟨0, by omega⟩ : Fin n) = ⟨1, by omega⟩ :=
    coh.inside_unique (by rw [waiting]; rfl) (by rw [waiting]; rfl)
  exact absurd (Fin.mk.inj same) (by decide)

/-- `notify_one` leaves a worker awake: the one it woke, or, with nobody asleep, one
that is not about to sleep. -/
theorem Coherent.awake_of_notify {s : State n S T} (coh : s.Coherent) (two : 2 ≤ n)
    {woken : Option (Fin n)} {lock : CondVar (Fin n)}
    (notified : s.m_conditional_lock.notifyOne woken = some lock) :
    ∃ w, ¬ w ∈ lock ∧ s.pc w ≠ .wait := by
  rcases CondVar.notifyOne_cases notified with ⟨-, nobody, rfl⟩ | ⟨w, -, asleep, rfl⟩
  · obtain ⟨w, wait⟩ := coh.exists_not_waiting two
    exact ⟨w, nobody w, wait⟩
  · refine ⟨w, by simp, ?_⟩
    rw [coh.asleep w asleep]
    decide

theorem Watched.step {s s' : State n S T} (watched : s.Watched) (coh : s.Coherent)
    (two : 2 ≤ n) {a : Action n S T} (step : s.step a = some s') : s'.Watched := by
  cases stepped_of_step step with
  | worker worked => exact watched.work worked
  | spurious asleep =>
      refine fun runs some => (watched runs some).imp_right ?_
      rintro ⟨v, awake, wait⟩
      exact ⟨v, fun member => awake (CondVar.wake_subset member), wait⟩
  | @enqueue c task idle => exact fun _ _ => Or.inl ⟨c, Function.update_self c _ _⟩
  | notify pending notified =>
      obtain ⟨w, awake, wait⟩ := coh.awake_of_notify two notified
      exact fun _ _ => Or.inr ⟨w, awake, wait⟩
  | stop uncalled => exact fun runs => absurd runs (by simp)
  | notifyAll pending =>
      intro runs
      exact absurd (coh.called.mpr (by simp [pending])) (by simpa using runs)
  | join _ _ _ => exact watched
  | returned _ _ => exact watched

theorem reachable_watched {s : State n S T} (two : 2 ≤ n)
    (reach : (system n S T).Reachable s) : s.Watched := by
  have both : s.Coherent ∧ s.Watched := by
    refine reach.induct (P := fun s => s.Coherent ∧ s.Watched) (fun s init => ?_) ?_
    · exact ⟨init_coherent init, fun _ some => absurd init.2.1 some⟩
    · rintro s a s' ⟨coh, watched⟩ step
      exact ⟨coh.step step, watched.step coh two step⟩
  exact both.2

/-- The gap, with one worker: it finds the queue empty, `Submit` enqueues and
notifies, and it goes to sleep. -/
theorem sole_worker_sleeps (c : S) (task : T) :
    ∃ s, (system 1 S T).Reachable s ∧ ¬ s.Attended := by
  obtain ⟨s, run, runs, queue, submits, asleep⟩ :
      ∃ s, (system 1 S T).run (start 1 S T)
          [.worker 0, .worker 0, .worker 0, .enqueue c task, .notify c none, .worker 0] = some s ∧
        s.m_shutdown = false ∧ s.m_queue = [task] ∧ s.submits = (start 1 S T).submits ∧
        0 ∈ s.m_conditional_lock := by
    simp [System.run, system, step, operatorCall, start, put, SafeQueue.empty, SafeQueue.enqueue,
      CondVar.notifyOne, CondVar.empty, CondVar.wait]
    exact Finset.mem_singleton_self 0
  refine ⟨s, System.Reachable.of_run start_init run, fun attended => ?_⟩
  obtain ⟨w, awake⟩ := attended runs (by simp [queue]) fun c => by rw [submits]; rfl
  exact awake (Subsingleton.elim w 0 ▸ asleep)

/-- **A queued task always has a worker exactly when there are two workers.** -/
theorem attended_iff_two [Inhabited S] [Inhabited T] (pos : 1 ≤ n) :
    (∀ s, (system n S T).Reachable s → s.Attended) ↔ 2 ≤ n := by
  constructor
  · intro all
    refine Nat.lt_of_le_of_ne pos fun sole => ?_
    subst sole
    obtain ⟨s, reach, stranded⟩ := sole_worker_sleeps (default : S) (default : T)
    exact stranded (all s reach)
  · exact fun two s reach => (reachable_watched two reach).attended

/-- The pool of eight that the server builds. -/
theorem attended_iff_two_eight :
    (∀ s, (system 8 Unit Unit).Reachable s → s.Attended) ↔ 2 ≤ 8 :=
  attended_iff_two (by decide)

/-- One worker, one `Submit` in the gap. -/
theorem attended_counterexample :
    ∃ s, (system 1 Unit Unit).run (start 1 Unit Unit)
        [.worker 0, .worker 0, .worker 0, .enqueue () (), .notify () none, .worker 0] = some s ∧
      (system 1 Unit Unit).Reachable s ∧ ¬ s.Attended := by
  obtain ⟨s, run, runs, queue, submits, asleep⟩ :
      ∃ s, (system 1 Unit Unit).run (start 1 Unit Unit)
          [.worker 0, .worker 0, .worker 0, .enqueue () (), .notify () none, .worker 0] = some s ∧
        s.m_shutdown = false ∧ s.m_queue = [()] ∧ s.submits () = .outside ∧
        ∀ w, w ∈ s.m_conditional_lock := ⟨_, rfl, rfl, rfl, rfl, by decide⟩
  refine ⟨s, run, System.Reachable.of_run start_init run, fun attended => ?_⟩
  obtain ⟨w, awake⟩ := attended runs (by simp [queue]) fun _ => submits
  exact awake (asleep w)

end State

end Codesnip.Common.ThreadPool
