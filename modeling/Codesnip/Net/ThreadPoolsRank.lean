/-
# Net.ThreadPoolsRank -- how much `network_area::ThreadPools` has left to do

`rank` bounds the statements that are left: those of the main thread, of the workers on their
way to `wait`, and of the calls of `Doit` for what is accepted and not dealt with.  A `Doit`
reads at least one byte in every turn but its last, so the streams bound its calls.

Every statement lowers the rank (`rank_work`, `rank_submit`, `rank_notify`).  Only a client
that connects or a worker that wakes up by itself raises it.
-/
import Mathlib
import Codesnip.Net.ThreadPoolsReports

namespace Codesnip.Net.ThreadPools

open Codesnip.Common
open Codesnip.Theory

set_option autoImplicit false
set_option linter.dupNamespace false

/-! ## What is left of a call -/

/-- As many statements has a call for so many bytes at most. -/
def Doit.left (bytes : Nat) : Nat := 3 * bytes + 3

def Doit.rank (h : Doit) : Nat :=
  match h.pc with
  | .Readn => Doit.left h.reader.stream.length
  | .printf ret => if ret = 0 then 2 else 3 * h.reader.stream.length + 5
  | .test ret => if ret = 0 then 1 else 3 * h.reader.stream.length + 4

/-- A `Readn` that is not the last leaves less of the stream. -/
theorem Doit.rank_lt {h h' : Doit} {e : Answers} {main main' : Main} {event : Option Event}
    (sound : (main.peers h.connfd).Sound)
    (step : h.step e main = some (.ok ⟨main', event, some h'⟩)) : h'.rank < h.rank := by
  obtain ⟨connfd, pc, reader⟩ := h
  obtain ⟨N, steady, interrupts⟩ := sound
  cases pc with
  | Readn =>
      have enough : N + 8 < (⟨N + 9, fun _ => 0⟩ : Answers).fuel := Nat.lt_succ_self _
      obtain ⟨errno, before, bytes, read⟩ := step_Readn steady interrupts enough rfl reader
      cases Doit.step_unique step read
      have zero := (toInt32_ofNat (min 8 reader.stream.length) (by omega)).2
      simp only [Doit.rank, Doit.left, List.length_drop]
      split_ifs with ended
      · omega
      · have some : ¬ min 8 reader.stream.length = 0 := fun none => ended (zero.mpr none)
        omega
  | printf ret =>
      cases step
      simp only [Doit.rank]
      split_ifs <;> omega
  | test ret =>
      by_cases zero : ret = 0
      · cases Doit.step_unique step (step_leave (e := e) zero reader)
      · cases Doit.step_unique step (step_again (e := e) zero reader)
        simp only [Doit.rank, Doit.left, if_neg zero]
        omega

namespace Server

variable {listenfd : Int} {s s' : Server} {a : Action}

/-- A bound for the statements of the call for `fd`. -/
def callRank (s : Server) (fd : Int) : Nat := Doit.left (s.main.peers fd).stream.length

/-- A bound for the statements of a worker on its way to `wait`, with the task it has taken. -/
def statements (callRank : Int → Nat) (idle waits : Bool) (call : Option Doit)
    (me : ThreadPool.Worker Int) : Nat :=
  match me.pc with
  | .asleep => if waits then 0 else 13
  -- a task that it is about to take is still counted in the queue
  | .dequeue => if idle then 12 else 3
  | .unlock => if me.dequeued then me.func.elim 0 callRank + 13 else 11
  | .branch => if me.dequeued then me.func.elim 0 callRank + 12 else 10
  | .call => me.func.elim 0 callRank + 11
  | .running => call.elim 0 Doit.rank + 10
  | .test => 9
  | .lock => 8
  | .empty => 7
  | .wait => 6
  | .exited => 0

def workerRank (s : Server) (w : Fin threads) : Nat :=
  statements s.callRank s.pool.m_queue.isEmpty (decide (w ∈ s.pool.m_conditional_lock))
    (s.calls w) (s.pool.workers w)

/-- What is queued, and what the main thread is in the middle of. -/
def queueRank (s : Server) : Nat := (s.pool.m_queue.map fun fd => s.callRank fd + 14).sum

def mainRank (s : Server) : Nat :=
  s.main.connfd.elim 0 (fun fd => s.callRank fd + 29) +
    if s.pool.submits () = .notify then 14 else 0

def rank (s : Server) : Nat := (∑ w, s.workerRank w) + s.queueRank + s.mainRank

/-- What a worker looks at is as it was. -/
theorem workerRank_congr {v : Fin threads} (peers : s'.main.peers = s.main.peers)
    (workers : s'.pool.workers v = s.pool.workers v) (calls : s'.calls v = s.calls v)
    (waits : v ∈ s'.pool.m_conditional_lock ↔ v ∈ s.pool.m_conditional_lock)
    (queue : s.pool.pc v = .dequeue → s'.pool.m_queue.isEmpty = s.pool.m_queue.isEmpty) :
    s'.workerRank v = s.workerRank v := by
  have costs : s'.callRank = s.callRank := by
    funext fd
    rw [callRank, callRank, peers]
  rw [workerRank, workerRank, costs, workers, calls, decide_eq_decide.mpr waits]
  by_cases here : s.pool.pc v = .dequeue
  · rw [queue here]
  · unfold statements
    split
    · rfl
    · exact absurd ‹_› here
    all_goals rfl

/-- Only worker `w` moves. -/
theorem rank_lt_of_worker {w : Fin threads} (others : ∀ v ≠ w, s'.workerRank v = s.workerRank v)
    (less : s'.workerRank w + s'.queueRank + s'.mainRank <
      s.workerRank w + s.queueRank + s.mainRank) : s'.rank < s.rank := by
  have rest : ∑ v ∈ {w}ᶜ, s'.workerRank v = ∑ v ∈ {w}ᶜ, s.workerRank v :=
    Finset.sum_congr rfl fun v member => others v (by simpa using member)
  rw [rank, rank, Fintype.sum_eq_add_sum_compl w, Fintype.sum_eq_add_sum_compl w, rest]
  omega

/-- A worker moves in the pool. -/
theorem rank_pooled (coherent : s.pool.Coherent) {w : Fin threads} (serving : s.Serving doit)
    (idle : s.pool.pc w ≠ .running) {pool : ThreadPool.State threads Unit Int}
    (step : s.pool.operatorCall w = some pool) : rank { s with pool } < s.rank := by
  have worked := ThreadPool.State.worked_of_operatorCall step
  have none : s.calls w = none := by
    by_contra call
    obtain ⟨h, call⟩ := Option.ne_none_iff_exists'.mp call
    exact idle (serving w h call).1
  have main : mainRank { s with pool } = s.mainRank := by
    rw [mainRank, mainRank, worked.frame.2.1]
    rfl
  refine rank_lt_of_worker (w := w) (fun v ne => ?_) ?_
  · refine workerRank_congr rfl (worked.workers_of_ne ne) rfl ?_ fun here => ?_
    · cases worked with
      | sleep pc => simp [ne]
      | _ => exact Iff.rfl
    · cases worked with
      | missed pc none => simp [none]
      | took pc queue =>
          have inside : ∀ {u}, s.pool.pc u = .dequeue → (s.pool.pc u).inside = true := by
            intro u same
            rw [same]
            rfl
          exact absurd (coherent.inside_unique (inside here) (inside pc)) ne
      | _ => rfl
  · rw [main]
    refine Nat.add_lt_add_right ?_ _
    change statements s.callRank pool.m_queue.isEmpty (decide (w ∈ pool.m_conditional_lock))
        (s.calls w) (pool.workers w) + (pool.m_queue.map fun fd => s.callRank fd + 14).sum <
      s.workerRank w + s.queueRank
    rw [workerRank, queueRank, none]
    have queue (me : ThreadPool.Worker Int) : (s.pool.put w me).m_queue = s.pool.m_queue := rfl
    cases worked with
    | leave pc | enter pc | lock pc | call pc =>
        have here : (s.pool.workers w).pc = _ := pc
        simp only [statements, here, queue, ThreadPool.State.put_workers_self, Option.elim_none]
        omega
    | unlock pc =>
        have here : (s.pool.workers w).pc = _ := pc
        simp only [statements, here, queue, ThreadPool.State.put_workers_self]
        split <;> omega
    | wakeUp pc woken =>
        have here : (s.pool.workers w).pc = _ := pc
        simp only [statements, here, queue, ThreadPool.State.put_workers_self, woken, decide_false]
        split <;> simp
    | sawEmpty pc empty | sawTask pc empty =>
        have here : (s.pool.workers w).pc = _ := pc
        simp [statements, here, queue, empty]
    | sleep pc =>
        have here : (s.pool.workers w).pc = _ := pc
        simp [statements, here, queue]
    | missed pc empty =>
        have here : (s.pool.workers w).pc = _ := pc
        simp [statements, here, empty]
    | @took pc front rest order =>
        have here : (s.pool.workers w).pc = _ := pc
        rw [order, List.map_cons, List.sum_cons]
        simp only [statements, here, ThreadPool.State.put_workers_self, Option.elim_some]
        simp only [List.isEmpty_cons, if_true, Bool.false_eq_true, if_false]
        omega
    | again pc flag | takeUp pc flag =>
        have here : (s.pool.workers w).pc = _ := pc
        simp [statements, here, queue, flag]
    | finish pc => exact absurd pc idle

/-- A worker calls `Doit`, goes on in its call or returns from it. -/
theorem rank_called {w : Fin threads} {pool : ThreadPool.State threads Unit Int}
    {call : Option Doit} {log : List Event}
    (workers : ∀ v ≠ w, pool.workers v = s.pool.workers v)
    (queue : pool.m_queue = s.pool.m_queue)
    (waits : pool.m_conditional_lock = s.pool.m_conditional_lock)
    (submits : pool.submits = s.pool.submits)
    (less : statements s.callRank pool.m_queue.isEmpty (decide (w ∈ pool.m_conditional_lock)) call
      (pool.workers w) < s.workerRank w) :
    rank { s with pool, calls := Function.update s.calls w call, log } < s.rank := by
  have main : mainRank { s with pool, calls := Function.update s.calls w call, log } =
      s.mainRank := by
    rw [mainRank, mainRank]
    dsimp only
    rw [submits]
    rfl
  refine rank_lt_of_worker (w := w) (fun v ne => ?_) ?_
  · refine workerRank_congr rfl (workers v ne) (Function.update_of_ne ne _ _) ?_ fun _ => ?_
    · rw [waits]
    · rw [queue]
  · rw [main, queueRank, queueRank]
    dsimp only
    rw [queue]
    refine Nat.add_lt_add_right (Nat.add_lt_add_right ?_ _) _
    rw [workerRank]
    dsimp only
    rw [Function.update_self]
    exact less

/-- Every statement of a worker lowers the rank. -/
theorem rank_work (coherent : s.pool.Coherent) (serving : s.Serving doit)
    (sound : ∀ fd, (s.main.peers fd).Sound) {w : Fin threads} {e : Answers}
    (worked : s.Worked doit e w (.ok s')) : s'.rank < s.rank := by
  cases worked with
  | pool idle step => exact rank_pooled coherent serving idle step
  | @enter pool fd called func step =>
      have here : (s.pool.workers w).pc = _ := called
      simp only [ThreadPool.State.operatorCall, here] at step
      cases step
      refine rank_called (fun v ne => ThreadPool.State.put_workers_of_ne _ ne _) rfl rfl rfl ?_
      rw [workerRank]
      simp [statements, here, func, Doit.rank, doit, callRank]
  | @moved h h' main event running call step =>
      obtain ⟨rfl, -, -⟩ := Doit.moved step
      refine rank_called (fun _ _ => rfl) rfl rfl rfl ?_
      have here : (s.pool.workers w).pc = _ := running
      have less := Doit.rank_lt (sound h.connfd) step
      rw [workerRank]
      simpa [statements, here, call] using less
  | @returned h main event pool running call step pooled =>
      obtain ⟨rfl, -⟩ := Doit.returned step
      have here : (s.pool.workers w).pc = _ := running
      simp only [ThreadPool.State.operatorCall, here] at pooled
      cases pooled
      refine rank_called (fun v ne => ThreadPool.State.put_workers_of_ne _ ne _) rfl rfl rfl ?_
      rw [workerRank]
      simp only [statements, here, call, ThreadPool.State.put_workers_self, Option.elim_some]
      omega

/-- A worker about to look at the queue has less to do if it finds it empty. -/
theorem statements_le (callRank : Int → Nat) (idle waits : Bool) (call : Option Doit)
    (me : ThreadPool.Worker Int) :
    statements callRank false waits call me ≤ statements callRank idle waits call me := by
  unfold statements
  split
  · exact Nat.le_refl _
  · cases idle <;> decide
  all_goals exact Nat.le_refl _

/-- What is handed on has less in front of it than what is accepted. -/
theorem rank_handed {connfd : Int} (here : s.main.connfd = some connfd)
    (idle : s.pool.submits () = .outside) (peers : s'.main.peers = s.main.peers)
    (workers : s'.pool.workers = s.pool.workers) (calls : s'.calls = s.calls)
    (waits : s'.pool.m_conditional_lock = s.pool.m_conditional_lock)
    (queue : s'.pool.m_queue = s.pool.m_queue ++ [connfd]) (none : s'.main.connfd = none)
    (pending : s'.pool.submits () = .notify) : s'.rank < s.rank := by
  have costs : s'.callRank = s.callRank := by
    funext fd
    rw [callRank, callRank, peers]
  have along : ∑ w, s'.workerRank w ≤ ∑ w, s.workerRank w := by
    refine Finset.sum_le_sum fun w _ => ?_
    rw [workerRank, workerRank, costs, workers, calls, waits, queue,
      show (s.pool.m_queue ++ [connfd]).isEmpty = false by simp]
    exact statements_le _ _ _ _ _
  have queued : s'.queueRank = s.queueRank + (s.callRank connfd + 14) := by
    rw [queueRank, queueRank, costs, queue, List.map_append, List.sum_append]
    rfl
  have before : s.mainRank = s.callRank connfd + 29 := by
    rw [mainRank, here, idle]
    rfl
  have after : s'.mainRank = 14 := by
    rw [mainRank, none, pending]
    rfl
  rw [rank, rank, queued, before, after]
  omega

/-- The main thread hands on what it has accepted. -/
theorem rank_submit (step : s.submit = some s') : s'.rank < s.rank := by
  obtain ⟨connfd, here, acts⟩ := Option.bind_eq_some_iff.mp step
  obtain ⟨t, act, rfl⟩ := Option.map_eq_some_iff.mp acts
  obtain ⟨pool, stepped, rfl⟩ := Option.map_eq_some_iff.mp act
  cases ThreadPool.State.stepped_of_step stepped with
  | enqueue idle => exact rank_handed here idle rfl rfl rfl rfl rfl rfl rfl

theorem mainRank_notified (main : s'.main = s.main) (pending : s.pool.submits () = .notify)
    (done : s'.pool.submits () = .outside) : s.mainRank = s'.mainRank + 14 := by
  have costs : s'.callRank = s.callRank := by
    funext fd
    rw [callRank, callRank, main]
  rw [mainRank, mainRank, costs, main, pending, done]
  rfl

/-- `notify_one` is done, and wakes at most one worker up. -/
theorem rank_notify (coherent : s.pool.Coherent) {woken : Option (Fin threads)}
    (step : s.act (.notify () woken) = some s') : s'.rank < s.rank := by
  obtain ⟨pool, stepped, rfl⟩ := Option.map_eq_some_iff.mp step
  cases ThreadPool.State.stepped_of_step stepped with
  | @notify _ _ lock pending notified =>
      have main : s.mainRank = mainRank { s with pool := { s.pool with
          m_conditional_lock := lock
          submits := Function.update s.pool.submits () .outside } } + 14 :=
        mainRank_notified rfl pending rfl
      rcases CondVar.notifyOne_cases notified with ⟨-, -, rfl⟩ | ⟨w, -, asleep, rfl⟩
      · refine rank_lt_of_worker (w := ⟨0, Nat.zero_lt_succ 7⟩) (fun v _ => rfl) ?_
        rw [main]
        exact Nat.add_lt_add_left (Nat.lt_add_of_pos_right (by decide)) _
      · have here : (s.pool.workers w).pc = .asleep := coherent.asleep w asleep
        have slept : s.workerRank w = 0 := by
          simp [workerRank, statements, here, asleep]
        refine rank_lt_of_worker (w := w) (fun v ne => ?_) ?_
        · refine workerRank_congr rfl rfl rfl ?_ fun _ => rfl
          rw [CondVar.mem_wake]
          exact and_iff_right ne
        · rw [main, slept, workerRank]
          simp only [statements, here, CondVar.mem_wake, ne_eq, not_true_eq_false, false_and,
            decide_false, Bool.false_eq_true, if_false]
          change 13 + s.queueRank + _ < _
          omega

end Server

end Codesnip.Net.ThreadPools
