/-
# Common.ThreadPoolDropped -- the tasks that `Shutdown` drops

A worker tests `m_shutdown` once in each iteration, so once the flag is set it goes
through the iteration it is in and leaves.  It takes at most one more task and calls at
most one; what is behind those in the queue, and all that is submitted later, stays there
(`dropped`).  When `Shutdown` has returned, all workers have left, and the queue only grows.
-/
import Codesnip.Common.ThreadPoolHandover
import Codesnip.Common.ThreadPoolShutdown

namespace Codesnip.Common.ThreadPool

open Codesnip.Theory
open Codesnip.Theory.Transition (System)

set_option autoImplicit false
set_option linter.dupNamespace false
set_option linter.unusedSectionVars false

/-- The calls a worker still makes in the iteration it is in, at most. -/
def Pc.ahead (pc : Pc) : Nat := if pc.begins || pc.carries then 1 else 0

namespace State.Worked

variable {n : Nat} {S T : Type} [DecidableEq S] {s s' : State n S T} {w : Fin n}

/-- Once `m_shutdown` is set, nobody comes to have a call ahead, and one that makes it has
none any more. -/
theorem ahead (worked : s.Worked w s') (stop : s.m_shutdown = true) :
    (s'.pc w).ahead + (if s.pc w = .call then 1 else 0) ≤ (s.pc w).ahead := by
  cases worked with
  | enter _ stay =>
      rw [stop] at stay
      cases stay
  | leave pc _ | lock pc _ | sawEmpty pc _ | sawTask pc _ | sleep pc | wakeUp pc _ _ | missed pc _
  | took pc _ | unlock pc | again pc _ | takeUp pc _ | call pc | finish pc =>
      rw [pc]
      simp [State.pc, put, Pc.ahead, Pc.begins, Pc.carries]

end State.Worked

namespace Logged

variable {n : Nat} {S T : Type} [DecidableEq S]

@[simp] theorem recordWorker_enqueued (l : Logged n S T) (w : Fin n) (pool : State n S T) :
    (l.recordWorker w pool).enqueued = l.enqueued := by
  unfold recordWorker
  split
  · split <;> rfl
  all_goals rfl

theorem recordWorker_calls (l : Logged n S T) (w : Fin n) (pool : State n S T) :
    (l.recordWorker w pool).calls = l.calls ++
      if l.pool.pc w = .call then [⟨w, l.iteration w, (l.pool.workers w).func⟩] else [] := by
  unfold recordWorker
  split
  · split <;> simp [*]
  · simp [*]
  · simp [*]
  · simp [*]
  · rename_i other
    rw [if_neg other, List.append_nil]

/-- What has come after `l`: the calls, the tasks submitted and those taken. -/
structure Went (l t : Logged n S T) (called : List (Call n T)) (new taken : List T) : Prop where
  stop : t.pool.m_shutdown = true
  calls : t.calls = l.calls ++ called
  enqueued : t.enqueued = l.enqueued ++ new
  queue : l.pool.m_queue ++ new = taken ++ t.pool.m_queue
  takers : taken.length + t.pool.takers ≤ l.pool.takers
  ahead : ∀ w, (called.filter fun c => c.worker = w).length + (t.pool.pc w).ahead ≤
    (l.pool.pc w).ahead

namespace Went

variable {l t u : Logged n S T} {called called' : List (Call n T)} {new new' taken taken' : List T}

theorem refl (stop : l.pool.m_shutdown = true) : Went l l [] [] [] := by
  refine ⟨stop, ?_, ?_, ?_, ?_, fun w => ?_⟩ <;> simp

theorem trans (first : Went l t called new taken) (second : Went t u called' new' taken') :
    Went l u (called ++ called') (new ++ new') (taken ++ taken') where
  stop := second.stop
  calls := by rw [second.calls, first.calls, List.append_assoc]
  enqueued := by rw [second.enqueued, first.enqueued, List.append_assoc]
  queue := by
    rw [← List.append_assoc, first.queue, List.append_assoc, second.queue, List.append_assoc]
  takers := by
    have := first.takers
    have := second.takers
    rw [List.length_append]
    omega
  ahead w := by
    have := first.ahead w
    have := second.ahead w
    rw [List.filter_append, List.length_append]
    omega

theorem work {w : Fin n} {pool : State n S T} (stop : l.pool.m_shutdown = true)
    (worked : l.pool.Worked w pool) :
    ∃ called taken, Went l (l.recordWorker w pool) called [] taken := by
  have moved := worked.takers stop
  have queue : ∃ taken, l.pool.m_queue = taken ++ pool.m_queue ∧
      taken.length + pool.takers ≤ l.pool.takers := by
    rcases moved with ⟨takers, queue⟩ | ⟨-, takers, queue⟩
    · exact ⟨[], queue.symm, by simp [takers]⟩
    · refine ⟨l.pool.m_queue.take 1, ?_, ?_⟩
      · rw [queue, ← List.drop_one, List.take_append_drop]
      · rw [List.length_take]
        omega
  obtain ⟨taken, queue, takers⟩ := queue
  refine ⟨_, taken, ?_, l.recordWorker_calls w pool, ?_, ?_, ?_, fun v => ?_⟩
  · rw [recordWorker_pool, worked.frame.1, stop]
  · simp
  · rw [recordWorker_pool, List.append_nil, queue]
  · rwa [recordWorker_pool]
  · rw [recordWorker_pool]
    have less := worked.ahead stop
    by_cases same : v = w
    · subst same
      split
      · rename_i call
        rw [if_pos call] at less
        simp only [List.filter_cons, decide_true, if_true, List.filter_nil, List.length_singleton]
        omega
      · rename_i other
        rw [if_neg other] at less
        rw [List.filter_nil, List.length_nil]
        omega
    · rw [worked.pc_of_ne same]
      split
      · simp [Ne.symm same]
      · simp

theorem step {a : Action n S T} (stop : l.pool.m_shutdown = true) (step : l.step a = some t) :
    ∃ called new taken, Went l t called new taken := by
  obtain ⟨pool, inner, rfl⟩ := Option.map_eq_some_iff.mp step
  have idle := Went.refl stop
  cases State.stepped_of_step inner with
  | worker worked =>
      obtain ⟨called, taken, went⟩ := Went.work stop worked
      exact ⟨called, [], taken, went⟩
  | @enqueue c task _ =>
      refine ⟨[], [task], [], stop, ?_, rfl, rfl, ?_, fun w => ?_⟩
      · exact (List.append_nil _).symm
      · exact Nat.le_of_eq (Nat.zero_add _)
      · exact Nat.le_of_eq (Nat.zero_add _)
  | stop _ =>
      exact ⟨[], [], [], rfl, idle.calls, idle.enqueued, idle.queue, idle.takers, idle.ahead⟩
  | spurious _ | notify _ _ | notifyAll _ | join _ _ _ | returned _ _ =>
      exact ⟨[], [], [], stop, idle.calls, idle.enqueued, idle.queue, idle.takers, idle.ahead⟩

theorem of_reaches (stop : l.pool.m_shutdown = true)
    (after : (logged n S T).Reaches (fun _ => True) l t) :
    ∃ called new taken, Went l t called new taken := by
  refine after.induct (P := fun t => ∃ called new taken, Went l t called new taken)
    ⟨[], [], [], .refl stop⟩ ?_
  rintro t a u ⟨called, new, taken, went⟩ - move
  obtain ⟨called', new', taken', went'⟩ := Went.step went.stop move
  exact ⟨_, _, _, went.trans went'⟩

end Went

end Logged

/-! ## When `Shutdown` has returned -/

namespace State

variable {n : Nat} {S T : Type} [DecidableEq S] {s s' : State n S T}

/-- Who has been joined has left. -/
structure Joined (s : State n S T) : Prop where
  stop : s.shutdown ≠ .uncalled → s.m_shutdown = true
  join : ∀ i, s.shutdown = .join i → ∀ w : Fin n, w.val < i → s.pc w = .exited
  returned : s.shutdown = .returned → ∀ w, s.pc w = .exited

theorem Worked.not_exited {w : Fin n} (worked : s.Worked w s') : s.pc w ≠ .exited := by
  intro left
  cases worked with
  | leave pc _ | enter pc _ | lock pc _ | sawEmpty pc _ | sawTask pc _ | sleep pc | wakeUp pc _ _
  | missed pc _ | took pc _ | unlock pc | again pc _ | takeUp pc _ | call pc | finish pc =>
      rw [pc] at left
      cases left

theorem Worked.exited {v w : Fin n} (worked : s.Worked w s') (left : s.pc v = .exited) :
    s'.pc v = .exited := by
  have ne : v ≠ w := by
    rintro rfl
    exact worked.not_exited left
  rw [worked.pc_of_ne ne, left]

theorem Joined.step (joined : s.Joined) {a : Action n S T} (step : s.step a = some s') :
    s'.Joined := by
  obtain ⟨stop, join, returned⟩ := joined
  cases stepped_of_step step with
  | worker worked =>
      obtain ⟨flag, -, same⟩ := worked.frame
      rw [← same] at stop join returned
      refine ⟨flag ▸ stop, fun i here w before => ?_, fun here w => ?_⟩
      · exact worked.exited (join i here w before)
      · exact worked.exited (returned here w)
  | enqueue _ | spurious _ | notify _ _ => exact ⟨stop, join, returned⟩
  | stop _ => exact ⟨fun _ => rfl, nofun, nofun⟩
  | notifyAll pending =>
      have set := stop (by rw [pending]; nofun)
      refine ⟨fun _ => set, ?_, nofun⟩
      rintro i ⟨⟩ w before
      exact absurd before (Nat.not_lt_zero _)
  | @join i joining bound exited =>
      have set := stop (by rw [joining]; nofun)
      refine ⟨fun _ => set, ?_, nofun⟩
      rintro j ⟨⟩ w before
      by_cases last : w.val = i
      · rw [show w = ⟨i, bound⟩ from Fin.ext last]
        exact exited
      · exact join i joining w (by omega)
  | @returned i joining all =>
      have set := stop (by rw [joining]; nofun)
      exact ⟨fun _ => set, nofun, fun _ w => join i joining w (by omega)⟩

theorem reachable_joined (reach : (system n S T).Reachable s) : s.Joined :=
  reach.induct (P := State.Joined)
    (fun s init => by
      obtain ⟨-, -, -, -, -, -, uncalled⟩ := init
      exact ⟨fun called => absurd uncalled called, by simp [uncalled], by simp [uncalled]⟩)
    fun _ _ _ joined step => joined.step step

end State

namespace Logged

variable {n : Nat} {S T : Type} [DecidableEq S] {l t : Logged n S T}

/-- **What `Shutdown` drops.**  In every continuation from where the flag is set each worker
calls at most one task more, at most `takers` more are taken out of the queue, from the front,
and all others stay in it; when `Shutdown` has returned, nothing is taken or called any more. -/
theorem dropped (reach : (logged n S T).Reachable l) (stop : l.pool.m_shutdown = true)
    (after : (logged n S T).Reaches (fun _ => True) l t) :
    ∃ called new taken, t.calls = l.calls ++ called ∧ t.enqueued = l.enqueued ++ new ∧
      l.pool.m_queue ++ new = taken ++ t.pool.m_queue ∧
      (∀ w, (called.filter fun c => c.worker = w).length ≤ 1) ∧
      taken.length ≤ l.pool.takers ∧
      (l.pool.shutdown = .returned → called = [] ∧ taken = []) := by
  obtain ⟨called, new, taken, went⟩ := Went.of_reaches stop after
  have joined := State.reachable_joined (pool_reachable reach)
  have takers := went.takers
  refine ⟨called, new, taken, went.calls, went.enqueued, went.queue, fun w => ?_, by omega,
    fun returned => ?_⟩
  · have ahead := went.ahead w
    have one : (l.pool.pc w).ahead ≤ 1 := by
      rw [Pc.ahead]
      split <;> decide
    omega
  · have left := joined.returned returned
    have nobody : l.pool.takers = 0 := by
      refine Finset.card_eq_zero.mpr (Finset.filter_false_of_mem fun w _ begins => ?_)
      rw [left w] at begins
      cases begins
    constructor
    · refine List.eq_nil_iff_forall_not_mem.mpr fun c member => ?_
      have ahead := went.ahead c.worker
      rw [left c.worker, show Pc.exited.ahead = 0 from rfl] at ahead
      have own : 0 < (called.filter fun d => d.worker = c.worker).length :=
        List.length_pos_of_mem (List.mem_filter.mpr ⟨member, by simp⟩)
      omega
    · exact List.length_eq_zero_iff.mp (by omega)

/-- One worker, in an iteration it began before the flag was set, and two tasks. -/
theorem dropped_second : ∃ l, (logged 1 Unit Nat).run (start 1 Unit Nat)
      [.worker 0, .enqueue () 1, .notify () none, .enqueue () 2, .shutdown] = some l ∧
    ∀ t, (logged 1 Unit Nat).Reaches (fun _ => True) l t → 2 ∈ t.pool.m_queue := by
  have run : (logged 1 Unit Nat).run (start 1 Unit Nat)
    [.worker 0, .enqueue () 1, .notify () none, .enqueue () 2, .shutdown] = some _ := rfl
  refine ⟨_, run, fun t after => ?_⟩
  obtain ⟨called, new, taken, -, -, queue, -, takers, -⟩ :=
    dropped (System.Reachable.of_run start_init run) rfl after
  have one : taken.length ≤ 1 := takers
  have kept : t.pool.m_queue = ([1, 2] ++ new).drop taken.length := by
    rw [show [1, 2] ++ new = taken ++ t.pool.m_queue from queue, List.drop_left]
  rw [kept]
  obtain none | some : taken.length = 0 ∨ taken.length = 1 := by omega
  · simp [none]
  · simp [some]

end Logged

end Codesnip.Common.ThreadPool
