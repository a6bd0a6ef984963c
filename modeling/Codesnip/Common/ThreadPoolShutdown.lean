/-
# Common.ThreadPoolShutdown -- what `Shutdown` can be sure of

`Shutdown` sets `m_shutdown` and notifies all without `m_conditional_mutex`.  A worker
that has passed the loop test reads the flag only in its next iteration, so if it goes
to sleep after `notify_all` it sleeps on, and its join never returns.

Whether that can happen is decided where the workers stand when `notify_all` runs.
Each worker past the loop test takes at most one more task; one that has not looked
at the queue yet finds it non-empty in every order exactly if there are as many tasks
as such workers (`Safe`).

* `Draining` is the invariant from there on: nobody sleeps, nobody is going to;
* `can_return`: every worker step lowers a rank, so all workers leave and the joins
  return;
* `Doomed.sleeps`: without `Safe` the workers can use up the queue until one of them
  falls asleep.
-/
import Codesnip.Common.ThreadPool
import Mathlib.Algebra.BigOperators.Fin
import Mathlib.Algebra.Order.BigOperators.Group.Finset

namespace Codesnip.Common.ThreadPool

open Codesnip.Theory
open Codesnip.Theory.Transition (System)

set_option autoImplicit false
set_option linter.dupNamespace false
set_option linter.unusedSectionVars false

namespace State

variable {n : Nat} {S T : Type}

/-- No worker is asleep un-notified. -/
def Released (s : State n S T) : Prop := ∀ w, ¬ w ∈ s.m_conditional_lock

/-- The workers that are going to call `dequeue()` in the iteration they are in. -/
def takers (s : State n S T) : Nat := (Finset.univ.filter fun w => (s.pc w).begins).card

/-- No worker is about to sleep, one that is about to ask finds a task, and there is a
task for each worker if one of them has still to take the mutex. -/
structure Safe (s : State n S T) : Prop where
  waits : ∀ w, s.pc w ≠ .wait
  asks : ∀ w, s.pc w = .empty → s.m_queue ≠ []
  locks : ∀ w, s.pc w = .lock → s.takers ≤ s.m_queue.length

variable [DecidableEq S]

/-- Without spurious wake-ups or further tasks, `Shutdown` can return. -/
def CanReturn (s : State n S T) : Prop :=
  ∃ t, (system n S T).Reaches (fun a => a = .shutdown ∨ ∃ w, a = .worker w) s t ∧
    t.shutdown = .returned

/-! ## Tasks still to be taken -/

theorem takers_put_same (s : State n S T) {w : Fin n} {me : Worker T}
    (same : me.pc.begins = (s.pc w).begins) : (s.put w me).takers = s.takers := by
  unfold takers
  congr 1
  apply Finset.filter_congr; intro v _
  by_cases here : v = w
  · rw [here, put_pc_self, same]
  · rw [put_pc_of_ne s here]

theorem takers_put_done (s : State n S T) {w : Fin n} {me : Worker T}
    (before : (s.pc w).begins = true) (after : me.pc.begins = false) :
    (s.put w me).takers + 1 = s.takers := by
  have erased : (Finset.univ.filter fun v => ((s.put w me).pc v).begins) =
      (Finset.univ.filter fun v => (s.pc v).begins).erase w := by
    ext v
    simp only [Finset.mem_filter, Finset.mem_univ, true_and, Finset.mem_erase]
    by_cases here : v = w
    · simp [here, after]
    · simp [here, put_pc_of_ne s here]
  unfold takers
  rw [erased]
  exact Finset.card_erase_add_one (Finset.mem_filter.mpr ⟨Finset.mem_univ w, before⟩)

theorem takers_pos {s : State n S T} {w : Fin n} (begins : (s.pc w).begins = true) :
    0 < s.takers :=
  Finset.card_pos.mpr ⟨w, Finset.mem_filter.mpr ⟨Finset.mem_univ w, begins⟩⟩

namespace Worked

variable {s s' : State n S T} {w : Fin n}

/-- Once `m_shutdown` is set, the takers and the queue change by `dequeue()` only. -/
theorem takers (worked : s.Worked w s') (stop : s.m_shutdown = true) :
    (s'.takers = s.takers ∧ s'.m_queue = s.m_queue) ∨
      s.pc w = .dequeue ∧ s'.takers + 1 = s.takers ∧ s'.m_queue = s.m_queue.tail := by
  cases worked with
  | enter _ stay =>
      rw [stop] at stay
      cases stay
  | missed pc none =>
      exact Or.inr ⟨pc, s.takers_put_done (by rw [pc]; rfl) rfl, by rw [none]; rfl⟩
  | took pc queue =>
      exact Or.inr ⟨pc, s.takers_put_done (by rw [pc]; rfl) rfl, by rw [queue]; rfl⟩
  | leave pc _ | lock pc _ | sawEmpty pc _ | sawTask pc _ | sleep pc | wakeUp pc _ _ | unlock pc
  | again pc _ | takeUp pc _ | call pc | finish pc =>
      exact Or.inl ⟨s.takers_put_same (by rw [pc]; rfl), rfl⟩

/-- A worker comes to its `empty()` from the lock. -/
theorem lock_of_empty (worked : s.Worked w s') (asks : s'.pc w = .empty) : s.pc w = .lock := by
  cases worked with
  | lock pc _ => exact pc
  | _ => simp [pc, put] at asks

/-- A worker comes to the lock from a loop test that found `m_shutdown` false. -/
theorem runs_of_lock (worked : s.Worked w s') (locks : s'.pc w = .lock) : s.m_shutdown = false := by
  cases worked with
  | enter _ stay => exact stay
  | _ => simp [pc, put] at locks

end Worked

/-! ## After `notify_all` -/

structure Draining (s : State n S T) : Prop where
  coherent : s.Coherent
  stop : s.m_shutdown = true
  notified : s.shutdown = .returned ∨ ∃ i, s.shutdown = .join i
  released : s.Released
  safe : s.Safe

theorem Safe.work {s s' : State n S T} (safe : s.Safe) (coh : s.Coherent)
    (stop : s.m_shutdown = true) {w : Fin n} (worked : s.Worked w s') : s'.Safe := by
  have change := worked.takers stop
  refine ⟨fun v waits => ?_, fun v asks => ?_, fun v locks => ?_⟩
  · by_cases same : v = w
    · subst same
      obtain ⟨pc, none⟩ := worked.queue_of_wait waits
      exact safe.asks v pc none
    · exact safe.waits v (worked.pc_of_ne same ▸ waits)
  · by_cases same : v = w
    · subst same
      -- it has the mutex now, and its own task is in the queue
      have locks := worked.lock_of_empty asks
      have enough := safe.locks v locks
      have pos := takers_pos (s := s) (w := v) (by rw [locks]; rfl)
      rcases change with ⟨-, queue⟩ | ⟨pc, -⟩
      · rw [queue]
        exact List.ne_nil_of_length_pos (Nat.lt_of_lt_of_le pos enough)
      · rw [locks] at pc
        cases pc
    · have asked : s.pc v = .empty := worked.pc_of_ne same ▸ asks
      rcases change with ⟨-, queue⟩ | ⟨pc, -⟩
      · rw [queue]
        exact safe.asks v asked
      · exact absurd (coh.inside_unique (by rw [asked]; rfl) (by rw [pc]; rfl)) same
  · by_cases same : v = w
    · subst same
      rw [worked.runs_of_lock locks] at stop
      cases stop
    · have enough := safe.locks v (worked.pc_of_ne same ▸ locks)
      rcases change with ⟨takers, queue⟩ | ⟨-, takers, queue⟩
      · rw [takers, queue]
        exact enough
      · rw [queue, List.length_tail]
        omega

theorem Draining.work {s s' : State n S T} (drain : s.Draining) {w : Fin n}
    (worked : s.Worked w s') : s'.Draining := by
  obtain ⟨flag, -, shutdown⟩ := worked.frame
  refine ⟨drain.coherent.work worked, flag.trans drain.stop, shutdown ▸ drain.notified,
    fun v member => ?_, drain.safe.work drain.coherent drain.stop worked⟩
  rcases worked.waiters member with member | ⟨-, waits⟩
  · exact drain.released v member
  · exact drain.safe.waits w waits

theorem Draining.step {s s' : State n S T} (drain : s.Draining) {a : Action n S T}
    (step : s.step a = some s') : s'.Draining := by
  have coherent := drain.coherent.step step
  have safe := drain.safe
  cases stepped_of_step step with
  | worker worked => exact drain.work worked
  | @spurious w asleep => exact absurd asleep (drain.released w)
  | enqueue idle =>
      refine ⟨coherent, drain.stop, drain.notified, drain.released, safe.waits, ?_, ?_⟩
      · exact fun _ _ => by simp
      · intro w locks
        have enough : s.takers ≤ s.m_queue.length := safe.locks w locks
        show s.takers ≤ (s.m_queue ++ _).length
        rw [List.length_append]
        exact Nat.le_add_right_of_le enough
  | notify pending notified =>
      exact ⟨coherent, drain.stop, drain.notified,
        fun w member => drain.released w (CondVar.notifyOne_subset notified member),
        safe.waits, safe.asks, safe.locks⟩
  | stop uncalled =>
      rcases drain.notified with done | ⟨i, joining⟩
      · rw [uncalled] at done
        cases done
      · rw [uncalled] at joining
        cases joining
  | notifyAll pending =>
      exact ⟨coherent, drain.stop, Or.inr ⟨0, rfl⟩, fun w => by simp, safe.waits, safe.asks,
        safe.locks⟩
  | @join i joining bound exited =>
      exact ⟨coherent, drain.stop, Or.inr ⟨i + 1, rfl⟩, drain.released, safe.waits, safe.asks,
        safe.locks⟩
  | returned joining all =>
      exact ⟨coherent, drain.stop, Or.inl rfl, drain.released, safe.waits, safe.asks, safe.locks⟩

theorem Draining.reaches {s t : State n S T} (drain : s.Draining)
    {ok : Action n S T → Prop} (reach : (system n S T).Reaches ok s t) : t.Draining :=
  System.Reaches.induct reach drain fun _ _ _ drain _ step => drain.step step

/-- `notify_all` from a safe state starts the draining. -/
theorem Safe.draining {s s' : State n S T} (safe : s.Safe) (coh : s.Coherent)
    (pending : s.shutdown = .notifyAll) (step : s.step .shutdown = some s') : s'.Draining := by
  have coherent := coh.step step
  have stop : s.m_shutdown = true := coh.called.mpr (by simp [pending])
  simp only [State.step, shutdownStep, pending] at step
  cases step
  exact ⟨coherent, stop, Or.inr ⟨0, rfl⟩, fun w => by simp, safe.waits, safe.asks, safe.locks⟩

/-! ## The workers leave -/

end State

/-- How far a worker is from leaving, once it must not begin another iteration. -/
def Pc.rank : Pc → Nat
  | .lock => 10
  | .empty => 9
  | .wait => 8
  | .asleep => 7
  | .dequeue => 6
  | .unlock => 5
  | .branch => 4
  | .call => 3
  | .running => 2
  | .test => 1
  | .exited => 0

namespace State

variable {n : Nat} {S T : Type}

def workRank (s : State n S T) : Nat := ∑ w, (s.pc w).rank

/-- The joins still to come. -/
def joinRank (s : State n S T) : Nat :=
  match s.shutdown with
  | .uncalled => n + 3
  | .notifyAll => n + 2
  | .join i => n - i + 1
  | .returned => 0

variable [DecidableEq S]

theorem Worked.rank {s s' : State n S T} {w : Fin n} (worked : s.Worked w s')
    (stop : s.m_shutdown = true) : s'.workRank < s.workRank := by
  have lower : (s'.pc w).rank < (s.pc w).rank := by
    cases worked with
    | enter _ stay =>
        rw [stop] at stay
        cases stay
    | leave pc _ | lock pc _ | sawEmpty pc _ | sawTask pc _ | sleep pc | wakeUp pc _ _
    | missed pc _ | took pc _ | unlock pc | again pc _ | takeUp pc _ | call pc | finish pc =>
        rw [pc]
        simp [State.pc, put, Pc.rank]
  refine Finset.sum_lt_sum (fun v _ => ?_) ⟨w, Finset.mem_univ w, lower⟩
  by_cases same : v = w
  · exact same ▸ Nat.le_of_lt lower
  · rw [worked.pc_of_ne same]

/-- A worker inside the section can always go on. -/
theorem operatorCall_inside {s : State n S T} {w : Fin n} (inside : (s.pc w).inside = true) :
    ∃ s', s.operatorCall w = some s' := by
  cases here : s.pc w <;> rw [here] at inside <;> cases inside <;>
    simp [operatorCall, show (s.workers w).pc = _ from here]

/-- With the mutex free, so can any other that is awake and has not left. -/
theorem operatorCall_free {s : State n S T} {w : Fin n} (free : s.m_conditional_mutex = none)
    (awake : ¬ w ∈ s.m_conditional_lock) (stays : s.pc w ≠ .exited) :
    ∃ s', s.operatorCall w = some s' := by
  cases here : s.pc w <;> simp [operatorCall, show (s.workers w).pc = _ from here, free, awake]
  exact stays here

theorem Coherent.exists_work {s : State n S T} (coh : s.Coherent) (released : s.Released)
    {w : Fin n} (stays : s.pc w ≠ .exited) : ∃ v s', s.operatorCall v = some s' := by
  cases held : s.m_conditional_mutex with
  | none => exact ⟨w, operatorCall_free held (released w) stays⟩
  | some v => exact ⟨v, operatorCall_inside ((coh.owner v).mp held)⟩

/-- **From a draining state `Shutdown` can return.** -/
theorem Draining.can_return {s : State n S T} (drain : s.Draining) : s.CanReturn := by
  suffices lowers : ∀ t : State n S T, t.Draining → t.shutdown = .returned ∨
      ∃ a t', (a = .shutdown ∨ ∃ w, a = .worker w) ∧ t.step a = some t' ∧ t'.Draining ∧
        t'.workRank + t'.joinRank < t.workRank + t.joinRank by
    obtain ⟨t, reach, -, done⟩ := (system n S T).reaches_of_rank _ Draining
      (fun t => t.shutdown = .returned) (fun t => t.workRank + t.joinRank) lowers drain
    exact ⟨t, reach, done⟩
  intro t drain
  rcases drain.notified with done | ⟨i, joining⟩
  · exact Or.inl done
  refine Or.inr ?_
  by_cases left : ∀ w, t.pc w = .exited
  · -- all workers have left, so the next join returns
    by_cases bound : i < n
    · have step : t.step .shutdown = some { t with shutdown := .join (i + 1) } := by
        simp [State.step, shutdownStep, joining, bound, left]
      refine ⟨.shutdown, _, Or.inl rfl, step, drain.step step, ?_⟩
      show t.workRank + (n - (i + 1) + 1) < t.workRank + t.joinRank
      rw [joinRank, joining]
      show t.workRank + (n - (i + 1) + 1) < t.workRank + (n - i + 1)
      omega
    · have step : t.step .shutdown = some { t with shutdown := .returned } := by
        simp [State.step, shutdownStep, joining, bound]
      refine ⟨.shutdown, _, Or.inl rfl, step, drain.step step, ?_⟩
      show t.workRank + 0 < t.workRank + t.joinRank
      rw [joinRank, joining]
      show t.workRank + 0 < t.workRank + (n - i + 1)
      omega
  · obtain ⟨w, stays⟩ := not_forall.mp left
    obtain ⟨v, t', step⟩ := drain.coherent.exists_work drain.released stays
    have worked := worked_of_operatorCall step
    refine ⟨.worker v, t', Or.inr ⟨v, rfl⟩, step, drain.work worked, ?_⟩
    have lower := worked.rank drain.stop
    have same : t'.joinRank = t.joinRank := by rw [joinRank, worked.frame.2.2, joinRank]
    omega

/-! ## Without a safe state -/

/-- A worker is about to sleep, or about to find the queue empty, or waits for the
mutex behind more takers than there are tasks. -/
def Doomed (s : State n S T) : Prop :=
  (∃ w, s.pc w = .wait) ∨ (∃ w, s.pc w = .empty ∧ s.m_queue = []) ∨
    ∃ w, s.pc w = .lock ∧ s.m_queue.length < s.takers

theorem doomed_of_not_safe {s : State n S T} (not : ¬ s.Safe) : s.Doomed := by
  apply Classical.byContradiction
  intro spared
  apply not
  refine ⟨fun w pc => ?_, fun w pc none => ?_, fun w pc => ?_⟩
  · exact spared (Or.inl ⟨w, pc⟩)
  · exact spared (Or.inr (Or.inl ⟨w, pc, none⟩))
  · exact Nat.le_of_not_lt fun few => spared (Or.inr (Or.inr ⟨w, pc, few⟩))

/-- Whatever another worker does, there are too few tasks left for `w`. -/
theorem Worked.few {s s' : State n S T} {v w : Fin n} (worked : s.Worked v s')
    (stop : s.m_shutdown = true) (other : w ≠ v) (pc : s.pc w = .lock)
    (few : s.m_queue.length < s.takers) : s'.Doomed := by
  have pc' : s'.pc w = .lock := (worked.pc_of_ne other).trans pc
  have pos := takers_pos (s := s') (w := w) (by rw [pc']; rfl)
  refine Or.inr (Or.inr ⟨w, pc', ?_⟩)
  rcases worked.takers stop with ⟨takers, queue⟩ | ⟨-, takers, queue⟩
  · rw [takers, queue]
    exact few
  · rw [queue, List.length_tail]
    omega

/-- Alone among the takers, `w` finds the queue empty. -/
theorem takers_le_one {s : State n S T} {w : Fin n}
    (alone : ∀ v, v ≠ w → (s.pc v).begins = false) : s.takers ≤ 1 := by
  apply Finset.card_le_one.mpr; intro u first v second
  have here : ∀ v, v ∈ Finset.univ.filter (fun v => (s.pc v).begins = true) → v = w := by
    intro v member
    apply Classical.byContradiction; intro other
    have begins := (Finset.mem_filter.mp member).2
    rw [alone v other] at begins
    cases begins
  rw [here u first, here v second]

/-- A doomed pool has a sleeper, or some worker's step keeps it doomed. -/
theorem Doomed.next {s : State n S T} (doomed : s.Doomed) (coh : s.Coherent)
    (stop : s.m_shutdown = true) :
    (∃ w, w ∈ s.m_conditional_lock) ∨
      ∃ v s', s.operatorCall v = some s' ∧ (s'.Doomed ∨ ∃ w, w ∈ s'.m_conditional_lock) := by
  rcases doomed with ⟨w, pc⟩ | ⟨w, pc, none⟩ | ⟨w, pc, few⟩
  · refine Or.inr ⟨w, _, by
      simp only [operatorCall, show (s.workers w).pc = _ from pc]; rfl, Or.inr ⟨w, ?_⟩⟩
    exact CondVar.mem_wait.mpr (Or.inl rfl)
  · refine Or.inr ⟨w, _, by
      simp only [operatorCall, show (s.workers w).pc = _ from pc]; rfl, Or.inl ?_⟩
    exact Or.inl ⟨w, by simp [none, SafeQueue.empty]⟩
  -- some other worker goes first, as long as there is one to take a task
  by_cases released : s.Released
  swap
  · exact Or.inl (by simpa [Released] using released)
  refine Or.inr ?_
  cases held : s.m_conditional_mutex with
  | some v =>
      have inside := (coh.owner v).mp held
      obtain ⟨s', step⟩ := operatorCall_inside inside
      have other : w ≠ v := by
        rintro rfl
        rw [pc] at inside
        cases inside
      exact ⟨v, s', step, Or.inl ((worked_of_operatorCall step).few stop other pc few)⟩
  | none =>
      by_cases alone : ∀ v, v ≠ w → (s.pc v).begins = false
      · have none : s.m_queue = [] := by
          have one := takers_le_one alone
          exact List.length_eq_zero_iff.mp (by omega)
        refine ⟨w, _, by
          simp only [operatorCall, show (s.workers w).pc = _ from pc, held, if_true]; rfl,
          Or.inl ?_⟩
        exact Or.inr (Or.inl ⟨w, put_pc_self _ _ _, none⟩)
      · obtain ⟨v, more⟩ := not_forall.mp alone
        obtain ⟨other, begins⟩ := Classical.not_imp.mp more
        have stays : s.pc v ≠ .exited := fun left => begins (by rw [left]; rfl)
        obtain ⟨s', step⟩ := operatorCall_free held (released v) stays
        exact ⟨v, s', step, Or.inl ((worked_of_operatorCall step).few stop (Ne.symm other) pc few)⟩

/-- **From a doomed pool some order of steps ends with a sleeper.** -/
theorem Doomed.sleeps {s : State n S T} (doomed : s.Doomed) (coh : s.Coherent)
    (stop : s.m_shutdown = true) :
    ∃ t, (system n S T).Reaches (fun _ => True) s t ∧ ∃ w, w ∈ t.m_conditional_lock := by
  suffices lowers : ∀ t : State n S T,
      (t.Coherent ∧ t.m_shutdown = true ∧ (t.Doomed ∨ ∃ w, w ∈ t.m_conditional_lock)) →
      (∃ w, w ∈ t.m_conditional_lock) ∨ ∃ a t', True ∧ t.step a = some t' ∧
        (t'.Coherent ∧ t'.m_shutdown = true ∧ (t'.Doomed ∨ ∃ w, w ∈ t'.m_conditional_lock)) ∧
        t'.workRank < t.workRank by
    obtain ⟨t, reach, -, asleep⟩ := (system n S T).reaches_of_rank _ _ _ workRank lowers
      ⟨coh, stop, Or.inl doomed⟩
    exact ⟨t, reach, asleep⟩
  rintro t ⟨coh, stop, doomed | asleep⟩
  · rcases doomed.next coh stop with asleep | ⟨v, t', step, after⟩
    · exact Or.inl asleep
    · have worked := worked_of_operatorCall step
      exact Or.inr ⟨.worker v, t', trivial, step,
        ⟨coh.work worked, worked.frame.1.trans stop, after⟩, worked.rank stop⟩
  · exact Or.inl asleep

/-! ## What `Shutdown` can be sure of -/

/-- **No worker misses the shutdown, exactly from a safe state.**  For `notify_all` run
in a reachable state: in every later state no worker is asleep un-notified and the
joins can all return, if and only if the state it ran in was safe. -/
theorem shutdown_unmissed_iff {s : State n S T} (reach : (system n S T).Reachable s)
    (pending : s.shutdown = .notifyAll) :
    (∀ s', s.step .shutdown = some s' →
      ∀ t, (system n S T).Reaches (fun _ => True) s' t → t.Released ∧ t.CanReturn) ↔ s.Safe := by
  have coh := reachable_coherent reach
  constructor
  · intro unmissed
    apply Classical.byContradiction; intro not
    have stop : s.m_shutdown = true := coh.called.mpr (by simp [pending])
    have step : s.step .shutdown = some
        { s with m_conditional_lock := s.m_conditional_lock.notifyAll, shutdown := .join 0 } := by
      simp only [State.step, shutdownStep, pending]
    have doomed : s.Doomed := doomed_of_not_safe not
    obtain ⟨t, after, w, asleep⟩ := Doomed.sleeps
      (s := { s with m_conditional_lock := s.m_conditional_lock.notifyAll, shutdown := .join 0 })
      doomed (coh.step step) stop
    exact (unmissed _ step t after).1 w asleep
  · intro safe s' step t after
    have drain := (safe.draining coh pending step).reaches after
    exact ⟨drain.released, drain.can_return⟩

/-- `Shutdown` of an idle pool whose worker sleeps. -/
theorem shutdown_unmissed_sleeper :
    ∃ s, (system 1 Unit Unit).run (start 1 Unit Unit)
        [.worker 0, .worker 0, .worker 0, .worker 0, .shutdown] = some s ∧ s.Safe ∧
      ∀ s', s.step .shutdown = some s' → ∀ t, (system 1 Unit Unit).Reaches (fun _ => True) s' t →
        t.Released ∧ t.CanReturn := by
  obtain ⟨s, run, pending, pc⟩ :
      ∃ s, (system 1 Unit Unit).run (start 1 Unit Unit)
          [.worker 0, .worker 0, .worker 0, .worker 0, .shutdown] = some s ∧
        s.shutdown = .notifyAll ∧ ∀ w, s.pc w = .asleep := ⟨_, rfl, rfl, by decide⟩
  have safe : s.Safe := by
    constructor <;> intro w <;> simp [pc]
  have reach := System.Reachable.of_run start_init run
  exact ⟨s, run, safe, (shutdown_unmissed_iff reach pending).mpr safe⟩

/-- A worker between `empty()` and `wait` when `notify_all` runs. -/
theorem shutdown_counterexample :
    ∃ s, (system 1 Unit Unit).run (start 1 Unit Unit)
        [.worker 0, .worker 0, .worker 0, .shutdown, .shutdown, .worker 0] = some s ∧
      (system 1 Unit Unit).Reachable s ∧ s.shutdown = .join 0 ∧ ¬ s.Released := by
  obtain ⟨s, run, joining, asleep⟩ :
      ∃ s, (system 1 Unit Unit).run (start 1 Unit Unit)
          [.worker 0, .worker 0, .worker 0, .shutdown, .shutdown, .worker 0] = some s ∧
        s.shutdown = .join 0 ∧ 0 ∈ s.m_conditional_lock := ⟨_, rfl, rfl, by decide⟩
  exact ⟨s, run, System.Reachable.of_run start_init run, joining, fun released => released 0 asleep⟩

end State

end Codesnip.Common.ThreadPool
