/-
# Net.ThreadPoolsRest -- `network_area::ThreadPools` left to itself

Once nobody connects and no worker wakes up by itself, every step lowers `rank`, so the server
comes to rest.  It is then where nothing is accepted or queued and all workers wait: what would
be left in the queue has a worker that is awake (`Watched`), and a worker in a call can go on
(`Fit.stuck`).

So every connection has been dealt with there, and reported as a whole (`comes_to_rest`).
-/
import Codesnip.Common.ThreadPoolWakeup
import Codesnip.Net.ThreadPoolsRank

namespace Codesnip.Net.ThreadPools

open Codesnip.Common
open Codesnip.Theory
open Codesnip.Theory.Holdings
open Codesnip.Theory.Transition (System)

set_option autoImplicit false
set_option linter.dupNamespace false

namespace Server

variable {listenfd : Int} {s s' : Server} {a : Action}

/-! ## What holds as long as the server runs -/

/-- A pool of more than one worker that nobody shuts down. -/
structure Runs (pool : ThreadPool.State threads Unit Int) : Prop where
  coherent : pool.Coherent
  watched : pool.Watched
  m_shutdown : pool.m_shutdown = false
  loaded : ∀ w, (pool.workers w).Loaded

theorem runs_start : Runs (.start threads Unit Int) where
  coherent := ThreadPool.State.init_coherent ThreadPool.State.start_init
  watched := fun _ some => absurd rfl some
  m_shutdown := rfl
  loaded := fun _ => trivial

theorem Runs.step {pool pool' : ThreadPool.State threads Unit Int} (runs : Runs pool)
    {act : ThreadPool.Action threads Unit Int} (other : act ≠ .shutdown)
    (step : pool.step act = some pool') : Runs pool' := by
  refine ⟨runs.coherent.step step, runs.watched.step runs.coherent (by decide) step, ?_, ?_⟩
  · cases ThreadPool.State.stepped_of_step step with
    | worker worked => exact worked.frame.1.trans runs.m_shutdown
    | spurious | enqueue | notify => exact runs.m_shutdown
    | stop | notifyAll | join | returned => exact absurd rfl other
  · cases ThreadPool.State.stepped_of_step step with
    | worker worked => exact worked.loaded runs.loaded
    | spurious | enqueue | notify => exact runs.loaded
    | stop | notifyAll | join | returned => exact absurd rfl other

theorem Runs.worker {pool pool' : ThreadPool.State threads Unit Int} (runs : Runs pool)
    {w : Fin threads} (step : pool.operatorCall w = some pool') : Runs pool' := by
  have stepped : pool.step (.worker w) = some pool' := step
  exact runs.step (by simp) stepped

/-- The server moves its pool, or leaves it, and does not shut it down. -/
theorem Runs.server (runs : Runs s.pool) (step : s.step listenfd a = some (.ok s')) :
    Runs s'.pool := by
  cases stepped_of_step step with
  | accept => exact runs
  | act _ other stepped => exact runs.step other stepped
  | work work =>
      cases Pool.State.worked_of_work work with
      | moved => exact runs
      | pool _ stepped => exact runs.worker stepped
      | enter _ _ stepped => exact runs.worker stepped
      | returned _ _ _ stepped => exact runs.worker stepped

/-- Who runs `func` is in a call. -/
def Busy (s : Server) : Prop := ∀ w, s.pool.pc w = .running → s.calls w ≠ none

theorem Busy.work (busy : s.Busy) (serving : s.Serving doit) {w : Fin threads} {e : Answers}
    (work : s.work doit e w = some (.ok s')) : s'.Busy := by
  intro v running
  cases call : s.calls w with
  | none =>
      obtain ⟨pool, step, ⟨ne, same⟩ | ⟨called, fd, func, same⟩⟩ :=
        Pool.State.work_outside call work
      all_goals
        obtain rfl := Except.ok.inj same
        have worked := ThreadPool.State.worked_of_operatorCall step
      · by_cases same : v = w
        · subst same
          exact absurd (worked.call_of_running running) ne
        · exact busy v ((worked.pc_of_ne same).symm.trans running)
      · by_cases same : v = w
        · subst same
          simp
        · dsimp only
          rw [Function.update_of_ne same]
          exact busy v ((worked.pc_of_ne same).symm.trans running)
  | some h =>
      rcases Pool.State.work_inside (serving w h call).1 call work with
        ⟨main, event, h', -, rfl⟩ | ⟨main, event, pool, -, step, rfl⟩
      · by_cases same : v = w
        · subst same
          simp
        · dsimp only
          rw [Function.update_of_ne same]
          exact busy v running
      · have worked := ThreadPool.State.worked_of_operatorCall step
        by_cases same : v = w
        · subst same
          have called := worked.call_of_running running
          rw [(serving v h call).1] at called
          cases called
        · dsimp only
          rw [Function.update_of_ne same]
          exact busy v ((worked.pc_of_ne same).symm.trans running)

theorem Busy.step (busy : s.Busy) (serving : s.Serving doit)
    (step : s.step listenfd a = some (.ok s')) : s'.Busy := by
  cases stepped_of_step step with
  | accept => exact busy
  | @act _ act pool connfd idle _ stepped =>
      intro w running
      have acted : s.act act = some { s with pool } :=
        Option.map_eq_some_iff.mpr ⟨pool, stepped, rfl⟩
      exact busy w ((Pool.State.act_pc idle acted w).symm.trans running)
  | work work => exact busy.work serving work

/-- What is dealt with is known to be. -/
def Settled (s : Server) : Prop :=
  ∀ fd ∈ finished s.log, ∃ c, latest fd (connections s.log) = some c ∧ c.handled = true

theorem Serves.accepted_of_finished (serves : s.Serves) {fd : Int}
    (member : fd ∈ finished s.log) : fd ∈ accepted s.log := by
  obtain ⟨taken, placed⟩ := serves.placed
  have there := placed.share.mem_iff.mp (List.mem_append_left _ member)
  rw [placed.order, List.append_assoc]
  exact List.mem_append_left _ there

theorem Settled.step (settled : s.Settled) (serves : s.Serves)
    (step : s.step listenfd a = some (.ok s')) : s'.Settled := by
  intro fd member
  rcases (serves.inv.step step).2 with
    ⟨-, done, ⟨c, found⟩, log⟩ | ⟨-, event, plain, log⟩
  · rw [log, finished_append] at member
    rw [log]
    by_cases same : fd = done
    · subst same
      rw [latest_note s.log fd rfl (by simp), found]
      exact ⟨_, rfl, rfl⟩
    · rw [latest_other s.log same]
      refine settled fd ((List.mem_append.mp member).resolve_right fun here => ?_)
      exact same (List.mem_singleton.mp here)
  · cases event with
    | none =>
        rw [Option.toList_none, List.append_nil] at log
        rw [log] at member ⊢
        exact settled fd member
    | some e =>
        have distinct := (serves.step step).distinct
        rw [log, accepted_append] at distinct
        rw [log, finished_append] at member
        rw [log]
        have plain := plain e rfl
        have old : fd ∈ finished s.log := by
          refine (List.mem_append.mp member).resolve_right fun here => ?_
          cases e with
          | handled => exact plain
          | accept | read | report | close => cases here
        obtain ⟨c, found, handled⟩ := settled fd old
        by_cases same : fd = e.fd
        · subst same
          cases e with
          | accept connfd =>
              have apart := (List.nodup_append.mp distinct).2.2
              exact absurd rfl (apart _ (serves.accepted_of_finished old) _ List.mem_cons_self)
          | read | report =>
              rw [Option.toList_some, latest_note s.log _ rfl (by simp), found]
              exact ⟨_, rfl, handled⟩
          | close | handled => cases plain
        · rw [Option.toList_some, latest_other s.log same]
          exact ⟨c, found, handled⟩

/-- Everything that holds in a run. -/
structure Fit (peers : Int → Peer) (s : Server) : Prop where
  serves : s.Serves
  told : s.Told
  same : s.main.peers = peers
  runs : Runs s.pool
  busy : s.Busy
  settled : s.Settled

section Fit

variable {peers : Int → Peer}

theorem start_fit (peers : Int → Peer) : (start peers).Fit peers where
  serves := .start peers
  told := fun fd c found => by cases found
  same := rfl
  runs := runs_start
  busy := fun w running => by cases running
  settled := fun fd member => by cases member

theorem Fit.step (fit : s.Fit peers) (step : s.step listenfd a = some (.ok s')) :
    s'.Fit peers where
  serves := fit.serves.step step
  told := fit.told.step fit.serves step
  same := (step_peers step).trans fit.same
  runs := fit.runs.server step
  busy := fit.busy.step fit.serves.serving step
  settled := fit.settled.step fit.serves step

theorem fit_of_run {as : List Action}
    (run : (system listenfd).run (.ok (start peers)) as = some (.ok s)) : s.Fit peers := by
  have reaches : (system listenfd).Reaches (fun _ => True) (.ok (start peers)) (.ok s) :=
    System.Reaches.of_run (fun _ _ => trivial) run
  refine reaches.induct (P := Running fun s => s.Fit peers) ?_ ?_ s rfl
  · intro t same
    obtain rfl := Except.ok.inj same
    exact start_fit peers
  · rintro x a x' kept - step t rfl
    obtain ⟨s, rfl, stepped⟩ := live_cases step
    exact (kept s rfl).step stepped

end Fit

end Server

/-! ## What the server does by itself -/

/-- Nobody connects, and no worker wakes up by itself. -/
def Action.own : Action → Bool
  | .submit | .notify _ | .work _ _ => true
  | .accept _ | .spurious _ => false

/-- The server left to itself. -/
def quiet (listenfd : Int) : System (Except Ended Server) Action :=
  { system listenfd with
    step := fun x a => if a.own then (system listenfd).step x a else none }

namespace Server

variable {listenfd : Int} {s s' : Server} {a : Action} {peers : Int → Peer}

/-- No call fails, whatever is interleaved with it. -/
theorem Fit.exists_ok (fit : s.Fit peers) (sound : ∀ fd, (peers fd).Sound) (own : a.own = true)
    {x : Except Ended Server} (step : s.step listenfd a = some x) : ∃ s', x = .ok s' := by
  cases a with
  | accept | spurious => cases own
  | submit | notify =>
      obtain ⟨t, -, rfl⟩ := Option.map_eq_some_iff.mp step
      exact ⟨t, rfl⟩
  | work w e =>
      cases Pool.State.worked_of_work step with
      | pool | enter | moved | returned => exact ⟨_, rfl⟩
      | @ended h _ call failed =>
          obtain ⟨c, found⟩ := fit.serves.inv.serves.calls w h call
          have telling := fit.told _ c found (by rw [fit.same]; exact sound _)
          obtain ⟨rest, reports, -⟩ := telling.serving w h call rfl
          rcases reports.step failed with ⟨_, _, _, same, -⟩ | ⟨same, -⟩ <;> cases same

theorem Fit.rank_lt (fit : s.Fit peers) (sound : ∀ fd, (peers fd).Sound) (own : a.own = true)
    (step : s.step listenfd a = some (.ok s')) : s'.rank < s.rank := by
  cases a with
  | accept | spurious => cases own
  | submit =>
      obtain ⟨t, sent, same⟩ := Option.map_eq_some_iff.mp step
      obtain rfl := Except.ok.inj same
      exact rank_submit sent
  | notify woken =>
      obtain ⟨t, act, same⟩ := Option.map_eq_some_iff.mp step
      obtain rfl := Except.ok.inj same
      exact rank_notify fit.runs.coherent act
  | work w e =>
      refine rank_work fit.runs.coherent fit.serves.serving (fun fd => ?_)
        (Pool.State.worked_of_work step)
      rw [fit.same]
      exact sound fd

/-! ## Where it comes to rest -/

/-- A call of `Doit` can go on, with enough `read`s. -/
theorem exists_step {h : Doit} {main : Main} (sound : (main.peers h.connfd).Sound) :
    ∃ e x, h.step e main = some x := by
  obtain ⟨connfd, pc, reader⟩ := h
  obtain ⟨N, steady, interrupts⟩ := sound
  have enough : N + 8 < (⟨N + 9, fun _ => 0⟩ : Answers).fuel := Nat.lt_succ_self _
  refine ⟨⟨N + 9, fun _ => 0⟩, ?_⟩
  cases pc with
  | Readn =>
      obtain ⟨errno, before, bytes, read⟩ := step_Readn steady interrupts enough rfl reader
      exact ⟨_, read⟩
  | printf ret => exact ⟨_, rfl⟩
  | test ret =>
      by_cases zero : ret = 0
      · exact ⟨_, step_leave zero reader⟩
      · exact ⟨_, step_again zero reader⟩

/-- A worker that cannot go on waits for the mutex or for a notification. -/
theorem Fit.stuck (fit : s.Fit peers) (sound : ∀ fd, (peers fd).Sound) {w : Fin threads}
    (stuck : ∀ e, s.work doit e w = none) :
    (s.pool.pc w = .lock ∨ s.pool.pc w = .asleep ∧ ¬ w ∈ s.pool.m_conditional_lock) ∧
        s.pool.m_conditional_mutex ≠ none ∨
      s.pool.pc w = .asleep ∧ w ∈ s.pool.m_conditional_lock := by
  have still := stuck ⟨0, fun _ => 0⟩
  cases pc : s.pool.pc w with
  | lock =>
      have here : (s.pool.workers w).pc = _ := pc
      simp [Pool.State.work, pc, ThreadPool.State.operatorCall, here] at still
      exact .inl ⟨.inl rfl, still⟩
  | asleep =>
      have here : (s.pool.workers w).pc = _ := pc
      simp [Pool.State.work, pc, ThreadPool.State.operatorCall, here] at still
      by_cases waits : w ∈ s.pool.m_conditional_lock
      · exact .inr ⟨rfl, waits⟩
      · exact .inl ⟨.inr ⟨rfl, waits⟩, still waits⟩
  | exited =>
      have down := fit.runs.coherent.exited w pc
      rw [fit.runs.m_shutdown] at down
      cases down
  | call =>
      have loaded := fit.runs.loaded w
      have here : (s.pool.workers w).pc = _ := pc
      rw [ThreadPool.Worker.Loaded, here] at loaded
      obtain ⟨fd, func⟩ := Option.ne_none_iff_exists'.mp loaded
      simp [Pool.State.work, pc, ThreadPool.State.operatorCall, here, func] at still
  | running =>
      obtain ⟨h, call⟩ := Option.ne_none_iff_exists'.mp (fit.busy w pc)
      have calm : (s.main.peers h.connfd).Sound := by
        rw [fit.same]
        exact sound h.connfd
      obtain ⟨e, x, step⟩ := exists_step calm
      have still := stuck e
      have here : (s.pool.workers w).pc = _ := pc
      rw [Pool.State.work, pc] at still
      simp only [call, Option.bind_some, Pool.State.handle] at still
      rw [show doit.step e h s.main = _ from step] at still
      rcases x with ended | ⟨main, event, _ | h'⟩
      · cases still
      · simp [ThreadPool.State.operatorCall, here] at still
      · cases still
  | test | empty | wait | dequeue | unlock | branch =>
      have here : (s.pool.workers w).pc = _ := pc
      simp [Pool.State.work, pc, ThreadPool.State.operatorCall, here] at still

/-- Nothing is accepted and not submitted, and every worker waits to be notified. -/
def AtRest (s : Server) : Prop :=
  s.main.connfd = none ∧ s.pool.submits () = .outside ∧
    ∀ w, s.pool.pc w = .asleep ∧ w ∈ s.pool.m_conditional_lock

instance (s : Server) : Decidable s.AtRest := inferInstanceAs (Decidable (_ ∧ _ ∧ _))

theorem AtRest.still (rest : s.AtRest) (a : Action) : (quiet listenfd).step (.ok s) a = none := by
  obtain ⟨connfd, outside, asleep⟩ := rest
  cases a with
  | accept | spurious => rfl
  | submit => simp [quiet, system, live, Action.own, Server.step, submit, connfd]
  | notify woken =>
      simp [quiet, system, live, Action.own, Server.step, Pool.State.act, ThreadPool.State.step,
        outside]
  | work w e =>
      have here : (s.pool.workers w).pc = _ := (asleep w).1
      simp [quiet, system, live, Action.own, Server.step, Pool.State.work, asleep w,
        ThreadPool.State.operatorCall, here]

/-- It is at rest where it cannot go on. -/
theorem Fit.rests (fit : s.Fit peers) (sound : ∀ fd, (peers fd).Sound)
    (rest : ∀ a, a.own = true → s.step listenfd a = none) : s.AtRest := by
  have outside : s.pool.submits () = .outside := by
    cases pending : s.pool.submits () with
    | outside => rfl
    | notify =>
        obtain ⟨woken, c, notified⟩ := s.pool.m_conditional_lock.exists_notifyOne
        have still := rest (.notify woken) rfl
        simp [Server.step, Pool.State.act, ThreadPool.State.step, pending, notified] at still
  have connfd : s.main.connfd = none := by
    cases here : s.main.connfd with
    | none => rfl
    | some fd =>
        have still := rest .submit rfl
        simp [Server.step, submit, here, Pool.State.act, ThreadPool.State.step, outside] at still
  have stuck (w : Fin threads) := fit.stuck sound fun e => rest (.work w e) rfl
  have free : s.pool.m_conditional_mutex = none := by
    by_contra taken
    obtain ⟨w, owner⟩ := Option.ne_none_iff_exists'.mp taken
    have inside := (fit.runs.coherent.owner w).mp owner
    rcases stuck w with ⟨lock | ⟨asleep, -⟩, -⟩ | ⟨asleep, -⟩
    · rw [lock] at inside
      cases inside
    · rw [asleep] at inside
      cases inside
    · rw [asleep] at inside
      cases inside
  exact ⟨connfd, outside, fun w => (stuck w).resolve_left fun blocked => blocked.2 free⟩

/-- **The server cannot go on by itself exactly where it is at rest.** -/
theorem Fit.still_iff (fit : s.Fit peers) (sound : ∀ fd, (peers fd).Sound) :
    (∀ a, (quiet listenfd).step (.ok s) a = none) ↔ s.AtRest := by
  refine ⟨fun still => ?_, AtRest.still⟩
  have stays (a : Action) (own : a.own = true) : s.step listenfd a = none := by
    have still := still a
    rw [quiet] at still
    dsimp only at still
    rw [if_pos own] at still
    exact still
  exact fit.rests sound stays

/-- What is queued has a worker that is awake. -/
theorem Fit.queue_of_rest (fit : s.Fit peers) (rest : s.AtRest) : s.pool.m_queue = [] := by
  obtain ⟨-, outside, asleep⟩ := rest
  by_contra some
  rcases fit.runs.watched fit.runs.m_shutdown some with ⟨⟨⟩, pending⟩ | ⟨w, awake, -⟩
  · rw [outside] at pending
    cases pending
  · exact awake (asleep w).2

/-- There every connection has been dealt with. -/
theorem Fit.handled (fit : s.Fit peers) (sound : ∀ fd, (peers fd).Sound)
    (rest : s.AtRest) {c : Connection} (member : c ∈ connections s.log) :
    c.handled = true ∧ (peers c.fd).Tells c.reported := by
  have queue := fit.queue_of_rest rest
  obtain ⟨connfd, -, asleep⟩ := rest
  have distinct : ((connections s.log).map Connection.fd).Nodup := by
    rw [map_fd_connections]
    exact List.nodup_reverse.mpr fit.serves.distinct
  have found := latest_of_mem distinct member
  have held : s.pool.holding = [] := by
    refine List.eq_nil_iff_forall_not_mem.mpr fun fd held => ?_
    obtain ⟨w, held⟩ := mem_holdings.mp held
    rw [ThreadPool.Worker.holding, show (s.pool.workers w).pc = _ from (asleep w).1] at held
    cases held
  have handled : c.handled = true := by
    have there : c.fd ∈ accepted s.log := by
      have mapped := List.mem_map_of_mem (f := Connection.fd) member
      rw [map_fd_connections] at mapped
      exact List.mem_reverse.mp mapped
    obtain ⟨taken, placed⟩ := fit.serves.placed
    have share := placed.share
    rw [placed.order, queue, connfd, List.append_nil, Option.toList_none, List.append_nil] at there
    rw [held, List.append_nil] at share
    obtain ⟨d, same, handled⟩ := fit.settled c.fd (share.mem_iff.mpr there)
    obtain rfl := Option.some.inj (found.symm.trans same)
    exact handled
  have telling := fit.told c.fd c found (by rw [fit.same]; exact sound c.fd)
  have idle : c.fd ∉ s.inService := by
    intro served
    obtain ⟨w, h, call, -⟩ := mem_inService.mp served
    have running := (fit.serves.serving w h call).1
    rw [(asleep w).1] at running
    cases running
  rcases telling.idle idle with ⟨-, fresh⟩ | ⟨-, tells⟩
  · rw [handled] at fresh
    cases fresh
  · rw [fit.same] at tells
    exact ⟨handled, tells⟩

/-- What is left of a server that has not ended. -/
def left : Except Ended Server → Nat
  | .ok s => s.rank
  | .error _ => 0

/-- What the server does by itself does not end it, and leaves less. -/
theorem Fit.goes_on (fit : s.Fit peers) (sound : ∀ fd, (peers fd).Sound)
    {x : Except Ended Server} (step : (quiet listenfd).step (.ok s) a = some x) :
    (∃ t, x = .ok t ∧ t.Fit peers) ∧ left x < s.rank := by
  rw [quiet] at step
  dsimp only at step
  split at step
  · rename_i own
    obtain ⟨t, rfl⟩ := fit.exists_ok sound own step
    exact ⟨⟨t, rfl, fit.step step⟩, fit.rank_lt sound own step⟩
  · cases step

/-- It can go on until it is at rest. -/
theorem Fit.reaches_rest (fit : s.Fit peers) (sound : ∀ fd, (peers fd).Sound) :
    ∃ t, (quiet listenfd).Reaches (fun _ => True) (.ok s) (.ok t) ∧ t.AtRest := by
  have progress : ∀ x : Except Ended Server, (∃ t, x = .ok t ∧ t.Fit peers) →
      (∃ t, x = .ok t ∧ t.AtRest) ∨ ∃ a x', True ∧ (quiet listenfd).step x a = some x' ∧
        (∃ t, x' = .ok t ∧ t.Fit peers) ∧ left x' < left x := by
    rintro x ⟨s, rfl, fit⟩
    by_cases rest : s.AtRest
    · exact .inl ⟨s, rfl, rest⟩
    · have goes : ¬ ∀ a, (quiet listenfd).step (.ok s) a = none := fun still =>
        rest ((fit.still_iff sound).mp still)
      obtain ⟨a, goes⟩ := not_forall.mp goes
      obtain ⟨x', step⟩ := Option.ne_none_iff_exists'.mp goes
      exact .inr ⟨a, x', trivial, step, fit.goes_on sound step⟩
  obtain ⟨x, reaches, -, t, rfl, rest⟩ :=
    System.reaches_of_rank _ (fun _ => True) _ _ left progress ⟨s, rfl, fit⟩
  exact ⟨t, reaches, rest⟩

/-- What serves one client of eight bytes, and then puts all workers to sleep. -/
def service : List Action :=
  eightBytes.tail ++
    (List.finRange threads).flatMap fun w => List.replicate 4 (.work w ⟨10, fun _ => 0⟩)

end Server

end Codesnip.Net.ThreadPools
