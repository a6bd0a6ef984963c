/-
# Net.ThreadPoolsServed -- whom `network_area::ThreadPools` serves, and when

Eight workers take what is accepted in the order in which it comes, and each stays with its
connection until `Doit` has read the end of file.  So an accepted connection is in one place:
with the main thread, in the queue, with one worker, or done with (`Placed`).

`served_in_order` reads off the order of service: what has left the queue is a beginning of
what was accepted, nobody serves a connection twice, and the ninth is not read before one of
the first eight has been left.
-/
import Codesnip.Common.ThreadPoolHeld
import Codesnip.Net.ThreadPools
import Codesnip.Unit.ByteStream

namespace Codesnip.Net

open Codesnip.Common
open Codesnip.Theory.Holdings
open Codesnip.Theory.Transition (System)

set_option autoImplicit false
set_option linter.dupNamespace false

/-- The connections of a log, in the order in which they came. -/
def accepted (log : List Event) : List Int :=
  log.filterMap fun e => match e with
    | .accept connfd => some connfd
    | .read _ _ | .report _ _ | .close _ | .handled _ => none

/-- The connections that are dealt with. -/
def finished (log : List Event) : List Int :=
  log.filterMap fun e => match e with
    | .handled fd => some fd
    | .accept _ | .read _ _ | .report _ _ | .close _ => none

theorem accepted_append (log more : List Event) :
    accepted (log ++ more) = accepted log ++ accepted more := List.filterMap_append

theorem finished_append (log more : List Event) :
    finished (log ++ more) = finished log ++ finished more := List.filterMap_append

/-- What is accepted is known. -/
theorem known_of_accepted {log : List Event} {fd : Int} (member : fd ∈ accepted log) :
    Known log fd := by
  obtain ⟨e, there, here⟩ := List.mem_filterMap.mp member
  cases e with
  | accept connfd =>
      obtain rfl := Option.some.inj here
      obtain ⟨before, after, rfl⟩ := List.append_of_mem there
      have known := known_append (known_accept before connfd) after
      rw [List.append_assoc] at known
      exact known
  | read | report | close | handled => cases here

/-! ## Who is called with what -/

namespace Pool.State

variable {n : Nat} {M H E : Type} {hd : Handler M H E} {s s' : State n M H}

/-- A worker in a call runs `func`, which holds the descriptor of the call. -/
def Serving (hd : Handler M H E) (s : State n M H) : Prop :=
  ∀ w h, s.calls w = some h →
    s.pool.pc w = .running ∧ (s.pool.workers w).func = some (hd.fd h)

theorem start_serving {main : M} : (start n H main).Serving hd := fun _ _ call => by cases call

theorem Serving.holds (serving : s.Serving hd) {w : Fin n} {h : H} (call : s.calls w = some h) :
    (s.pool.workers w).holding = some (hd.fd h) := by
  obtain ⟨running, func⟩ := serving w h call
  rw [ThreadPool.Worker.holding, show (s.pool.workers w).pc = _ from running]
  exact func

theorem func_of_call {w : Fin n} {pool : ThreadPool.State n Unit Int}
    (called : s.pool.pc w = .call) (step : s.pool.operatorCall w = some pool) :
    (pool.workers w).func = (s.pool.workers w).func := by
  simp only [ThreadPool.State.operatorCall, show (s.pool.workers w).pc = _ from called] at step
  cases step
  simp

theorem Serving.others {v w : Fin n} {pool : ThreadPool.State n Unit Int} {h : H}
    (serving : s.Serving hd) (step : s.pool.operatorCall w = some pool) (ne : v ≠ w)
    (call : s.calls v = some h) :
    pool.pc v = .running ∧ (pool.workers v).func = some (hd.fd h) := by
  have same := (ThreadPool.State.worked_of_operatorCall step).workers_of_ne ne
  obtain ⟨running, func⟩ := serving v h call
  rw [ThreadPool.State.pc, same]
  exact ⟨running, func⟩

theorem Serving.work {e : E} {w : Fin n} (serving : s.Serving hd)
    (worked : s.Worked hd e w (.ok s')) : s'.Serving hd := by
  intro v h call
  by_cases same : v = w
  · subst same
    cases worked with
    | pool idle step => exact absurd (serving v h call).1 idle
    | enter called func step =>
        simp only [Function.update_self] at call
        obtain rfl := Option.some.inj call
        refine ⟨running_of_call called step, ?_⟩
        rw [func_of_call called step, hd.fd_enter]
        exact func
    | moved running called step =>
        simp only [Function.update_self] at call
        obtain rfl := Option.some.inj call
        rw [(hd.fd_step _ _ _ _ step).1 _ rfl]
        exact serving v _ called
    | returned => simp at call
  · cases worked with
    | pool idle step => exact serving.others step same call
    | enter called func step =>
        simp only [Function.update_of_ne same] at call
        exact serving.others step same call
    | moved running called step =>
        simp only [Function.update_of_ne same] at call
        exact serving v h call
    | returned running called step pooled =>
        simp only [Function.update_of_ne same] at call
        exact serving.others pooled same call

/-- What an action of the pool puts into the queue. -/
def submitted : ThreadPool.Action n Unit Int → List Int
  | .enqueue _ fd => [fd]
  | .worker _ | .spurious _ | .notify _ _ | .shutdown => []

/-- `Submit` moves no worker. -/
theorem Serving.act {a : ThreadPool.Action n Unit Int} (serving : s.Serving hd)
    (idle : ∀ w, a ≠ .worker w) (step : s.act a = some s') : s'.Serving hd ∧
      s'.pool.holding = s.pool.holding ∧ s'.pool.m_queue = s.pool.m_queue ++ submitted a := by
  obtain ⟨pool, stepped, rfl⟩ := Option.map_eq_some_iff.mp step
  cases ThreadPool.State.stepped_of_step stepped with
  | worker => exact absurd rfl (idle _)
  | enqueue => exact ⟨serving, rfl, rfl⟩
  | _ => exact ⟨serving, rfl, (List.append_nil _).symm⟩

end Pool.State

/-! ## Where the connections are -/

namespace ThreadPools

variable {h h' : Doit} {e : Answers} {main main' : Main} {event : Option Event}

/-- As long as a call goes on, nothing is dealt with. -/
theorem Doit.moved (step : doit.step e h main = some (.ok ⟨main', event, some h'⟩)) :
    main' = main ∧ accepted event.toList = [] ∧ finished event.toList = [] := by
  cases Doit.stepped_of_step step with
  | read | print | again => exact ⟨rfl, rfl, rfl⟩

theorem Doit.returned (step : doit.step e h main = some (.ok ⟨main', event, none⟩)) :
    main' = main ∧ event = some (.handled h.connfd) := by
  cases Doit.stepped_of_step step with
  | leave => exact ⟨rfl, rfl⟩

namespace Server

variable {listenfd : Int} {s s' : Server} {a : Action} {taken : List Int}

/-- The steps that the server outlives.  Of those that the pool takes by itself (`act`), one
passes on what the main thread has accepted. -/
inductive Stepped (listenfd : Int) (s : Server) : Action → Server → Prop where
  | accept {connfd : Int} (none : s.main.connfd = none) (fresh : Fresh listenfd connfd s.log) :
      Stepped listenfd s (.accept (.ok connfd))
        { s with
          main := { s.main with connfd := some connfd }
          log := s.log ++ [.accept connfd] }
  | act {a : Action} {act : ThreadPool.Action threads Unit Int}
      {pool : ThreadPool.State threads Unit Int} {connfd : Option Int}
      (idle : ∀ w, act ≠ .worker w) (runs : act ≠ .shutdown) (step : s.pool.step act = some pool)
      (passes : Pool.State.submitted act ++ connfd.toList = s.main.connfd.toList) :
      Stepped listenfd s a { s with pool, main := { s.main with connfd } }
  | work {w : Fin threads} {e : Answers} {s' : Server} (work : s.work doit e w = some (.ok s')) :
      Stepped listenfd s (.work w e) s'

theorem stepped_of_step (step : s.step listenfd a = some (.ok s')) :
    s.Stepped listenfd a s' := by
  cases a with
  | accept answer =>
      simp only [Server.step] at step
      split at step
      · rename_i able
        obtain ⟨connfd, rfl, rfl⟩ := accept_ok (Option.some.inj step)
        exact .accept able.1 (able.2.2 connfd rfl)
      · cases step
  | submit =>
      obtain ⟨t, sent, same⟩ := Option.map_eq_some_iff.mp step
      obtain rfl := Except.ok.inj same
      obtain ⟨connfd, here, acted⟩ := Option.bind_eq_some_iff.mp sent
      obtain ⟨t, act, rfl⟩ := Option.map_eq_some_iff.mp acted
      obtain ⟨pool, stepped, rfl⟩ := Option.map_eq_some_iff.mp act
      refine .act (by simp) (by simp) stepped ?_
      rw [here]
      rfl
  | notify woken | spurious w =>
      obtain ⟨t, act, same⟩ := Option.map_eq_some_iff.mp step
      obtain rfl := Except.ok.inj same
      obtain ⟨pool, stepped, rfl⟩ := Option.map_eq_some_iff.mp act
      exact .act (by simp) (by simp) stepped rfl
  | work w e => exact .work step

/-- The connections that a call of `Doit` is about. -/
def inService (s : Server) : List Int := holdings fun w => (s.calls w).map Doit.connfd

/-- How many of `fds` are not dealt with. -/
def unfinished (log : List Event) (fds : List Int) : Nat :=
  fds.countP fun fd => fd ∉ finished log

/-- `taken` have left the queue, the first ones accepted, and are dealt with or with a worker. -/
structure Taken (s : Server) (taken : List Int) : Prop where
  order : accepted s.log = taken ++ s.pool.m_queue ++ s.main.connfd.toList
  share : (finished s.log ++ s.pool.holding).Perm taken

/-- Each of `taken` found a worker that none of those before it had; nothing else has happened
to the others but that they were accepted. -/
structure Placed (s : Server) (taken : List Int) : Prop extends Taken s taken where
  room : ∀ i < taken.length, unfinished s.log (taken.take i) < threads
  noted : ∀ e ∈ s.log, e = .accept e.fd ∨ e.fd ∈ taken

theorem start_placed (peers : Int → Peer) : (start peers).Placed [] where
  order := rfl
  share := List.Perm.of_eq ThreadPool.State.start_holding
  room := fun i before => by cases before
  noted := fun e member => by cases member

namespace Placed

/-- Whom a worker serves has left the queue. -/
theorem mem_taken (placed : s.Placed taken) (serving : s.Serving doit) {w : Fin threads}
    {h : Doit} (call : s.calls w = some h) : h.connfd ∈ taken := by
  have there : h.connfd ∈ s.pool.holding := mem_holdings.mpr ⟨w, serving.holds call⟩
  exact placed.share.mem_iff.mp (List.mem_append_right _ there)

/-- What stands in front of a connection that is not dealt with. -/
theorem unfinished_take {log : List Event} {fds : List Int} {i : Nat} (inside : i < fds.length)
    (here : fds[i] ∉ finished log) : unfinished log (fds.take i) < unfinished log fds := by
  have split : fds = fds.take i ++ fds[i] :: fds.drop (i + 1) := by
    rw [← List.drop_eq_getElem_cons, List.take_append_drop]
  have counted : unfinished log fds = unfinished log (fds.take i) +
      (unfinished log (fds.drop (i + 1)) + 1) := by
    conv_lhs => rw [split]
    rw [unfinished, List.countP_append, List.countP_cons_of_pos (by simpa using here)]
    rfl
  omega

/-- At most eight have left the queue and are not dealt with. -/
theorem unfinished_le {log : List Event} {s : ThreadPool.State threads Unit Int}
    (share : (finished log ++ s.holding).Perm taken) : unfinished log taken ≤ threads := by
  have none : (finished log).countP (fun fd => fd ∉ finished log) = 0 := by
    apply List.countP_eq_zero.mpr
    intro fd member
    simpa using member
  rw [unfinished, ← share.countP_eq, List.countP_append, none, Nat.zero_add]
  exact List.countP_le_length.trans (length_holdings _)

/-- A worker moves in the pool. -/
theorem pooled (placed : s.Placed taken) (distinct : (accepted s.log).Nodup) {w : Fin threads}
    (idle : s.pool.pc w ≠ .running) (step : s.pool.operatorCall w = some s'.pool)
    (main : s'.main = s.main) (log : s'.log = s.log) :
    ∃ taken', taken <+: taken' ∧ s'.Placed taken' := by
  rcases (ThreadPool.State.worked_of_operatorCall step).holding with
    ⟨running, -⟩ | ⟨-, more, queue, held⟩
  · exact absurd running idle
  · have swap : (more ++ s.pool.holding).Perm (s.pool.holding ++ more) := List.perm_append_comm
    have all := (held.trans swap).append_left (finished s.log)
    rw [← List.append_assoc] at all
    have share := all.trans (placed.share.append_right _)
    refine ⟨taken ++ more, List.prefix_append _ _, ⟨?_, ?_⟩, fun i inside => ?_,
      fun e member => ?_⟩
    · rw [log, main, placed.order, queue]
      simp only [List.append_assoc]
    · rw [log]
      exact share
    · rw [log]
      by_cases early : i < taken.length
      · rw [List.take_append_of_le_length (Nat.le_of_lt early)]
        exact placed.room i early
      · -- the new one is not dealt with, so it is one of the eight
        refine Nat.lt_of_lt_of_le (unfinished_take inside fun done => ?_) (unfinished_le share)
        rw [List.getElem_append_right (Nat.le_of_not_lt early)] at done
        rw [placed.order, List.append_assoc, queue, List.append_assoc] at distinct
        have apart := (List.nodup_append.mp distinct).2.2
        exact apart _ (placed.share.mem_iff.mp (List.mem_append_left _ done)) _
          (List.mem_append_left _ (List.getElem_mem _)) rfl
    · rw [log] at member
      exact (placed.noted e member).imp_right fun there => List.mem_append_left _ there

/-- Something happens to a connection that has left the queue. -/
theorem note (placed : s.Placed taken) {event : Option Event}
    (own : ∀ e ∈ event, e.fd ∈ taken) (old : accepted event.toList = []) :
    accepted (s.log ++ event.toList) = taken ++ s.pool.m_queue ++ s.main.connfd.toList ∧
      ∀ e ∈ s.log ++ event.toList, e = .accept e.fd ∨ e.fd ∈ taken := by
  constructor
  · rw [accepted_append, old, List.append_nil]
    exact placed.order
  · intro e member
    rcases List.mem_append.mp member with member | member
    · exact placed.noted e member
    · exact .inr (own e (Option.mem_toList.mp member))

/-- What is dealt with leaves no more in front of anybody. -/
theorem room_append (placed : s.Placed taken) (more : List Event) :
    ∀ i < taken.length, unfinished (s.log ++ more) (taken.take i) < threads := by
  intro i inside
  refine Nat.lt_of_le_of_lt (List.countP_mono_left fun fd _ left => ?_) (placed.room i inside)
  rw [decide_eq_true_eq, finished_append] at left
  exact decide_eq_true fun done => left (List.mem_append_left _ done)

/-- A worker goes on in its call, or leaves it and with it the connection. -/
theorem work (placed : s.Placed taken) (serving : s.Serving doit)
    (distinct : (accepted s.log).Nodup) {w : Fin threads} {e : Answers}
    (worked : s.Worked doit e w (.ok s')) : ∃ taken', taken <+: taken' ∧ s'.Placed taken' := by
  cases worked with
  | pool idle step => exact placed.pooled distinct idle step rfl rfl
  | enter called func step => exact placed.pooled distinct (by simp [called]) step rfl rfl
  | @moved h h' main event running call step =>
      have own : ∀ e ∈ event, e.fd ∈ taken := by
        intro e member
        rw [(doit.fd_step _ _ _ _ step).2 e member]
        exact placed.mem_taken serving call
      obtain ⟨rfl, old, going⟩ := Doit.moved step
      obtain ⟨order, noted⟩ := placed.note own old
      refine ⟨taken, List.prefix_rfl, ⟨order, ?_⟩, placed.room_append _, noted⟩
      rw [finished_append, going, List.append_nil]
      exact placed.share
  | @returned h main event pool running call step pooled =>
      obtain ⟨rfl, rfl⟩ := Doit.returned step
      have own : ∀ e ∈ some (Event.handled h.connfd), e.fd ∈ taken := by
        intro e same
        obtain rfl := Option.some.inj same
        exact placed.mem_taken serving call
      obtain ⟨order, noted⟩ := placed.note own rfl
      rcases (ThreadPool.State.worked_of_operatorCall pooled).holding with
        ⟨-, queue, held⟩ | ⟨not, -⟩
      · rw [← queue] at order
        refine ⟨taken, List.prefix_rfl, ⟨order, ?_⟩, placed.room_append _, noted⟩
        rw [(serving w h call).2] at held
        rw [finished_append, List.append_assoc]
        exact (held.append_left _).trans placed.share
      · exact absurd running not

end Placed

/-- No worker accepts. -/
theorem accepted_work {w : Fin threads} {e : Answers} (worked : s.Worked doit e w (.ok s')) :
    accepted s'.log = accepted s.log := by
  cases worked with
  | pool | enter => rfl
  | moved running call step => rw [accepted_append, (Doit.moved step).2.1, List.append_nil]
  | returned running call step pooled =>
      rw [accepted_append, (Doit.returned step).2]
      exact List.append_nil _

/-- What holds as long as the server runs. -/
structure Serves (s : Server) : Prop where
  inv : s.Inv
  serving : s.Serving doit
  unclosed : Pool.Unclosed (connections s.log)
  distinct : (accepted s.log).Nodup
  placed : ∃ taken, s.Placed taken

namespace Serves

theorem start (peers : Int → Peer) : Serves (start peers) where
  inv := ⟨.start, fun fd member => by cases member⟩
  serving := Pool.State.start_serving
  unclosed := fun c member => by cases member
  distinct := List.nodup_nil
  placed := ⟨[], start_placed peers⟩

/-- What `Accept` returns has not been accepted before: it would be open. -/
theorem not_accepted (serves : s.Serves) {connfd : Int} (fresh : Fresh listenfd connfd s.log) :
    connfd ∉ accepted s.log := by
  intro member
  obtain ⟨c, found⟩ := known_of_accepted member
  exact fresh.2.2 ⟨c, found, serves.unclosed c (List.mem_of_find?_eq_some found)⟩

theorem accept (serves : s.Serves) {connfd : Int} (fresh : Fresh listenfd connfd s.log) :
    (accepted (s.log ++ [.accept connfd])).Nodup := by
  rw [accepted_append]
  apply (List.perm_append_singleton connfd (accepted s.log)).nodup_iff.mpr
  exact List.nodup_cons.mpr ⟨serves.not_accepted fresh, serves.distinct⟩

/-- Whom a worker serves has been accepted. -/
theorem accepted_of_call (serves : s.Serves) {w : Fin threads} {h : Doit}
    (call : s.calls w = some h) : h.connfd ∈ accepted s.log := by
  obtain ⟨taken, placed⟩ := serves.placed
  rw [placed.order, List.append_assoc]
  exact List.mem_append_left _ (placed.mem_taken serves.serving call)

/-- `Submit` passes on what the main thread has accepted, or nothing. -/
theorem act {act : ThreadPool.Action threads Unit Int}
    {pool : ThreadPool.State threads Unit Int} {connfd : Option Int} (serves : s.Serves)
    (placed : s.Placed taken) (idle : ∀ w, act ≠ .worker w) (step : s.pool.step act = some pool)
    (passes : Pool.State.submitted act ++ connfd.toList = s.main.connfd.toList) :
    Pool.State.Serving doit { s with pool, main := { s.main with connfd } } ∧
      Placed { s with pool, main := { s.main with connfd } } taken := by
  have acted : s.act act = some { s with pool } := Option.map_eq_some_iff.mpr ⟨pool, step, rfl⟩
  obtain ⟨serving, held, queue⟩ := Pool.State.Serving.act serves.serving idle acted
  refine ⟨serving, ⟨?_, ?_⟩, placed.room, placed.noted⟩
  · have queue : pool.m_queue = s.pool.m_queue ++ Pool.State.submitted act := queue
    rw [placed.order, queue, ← passes]
    simp only [List.append_assoc]
  · have held : pool.holding = s.pool.holding := held
    rw [held]
    exact placed.share

/-- What has left the queue stays in front. -/
theorem place (serves : s.Serves) (placed : s.Placed taken)
    (step : s.step listenfd a = some (.ok s')) : ∃ taken', taken <+: taken' ∧ s'.Placed taken' := by
  cases stepped_of_step step with
  | @accept connfd none fresh =>
      refine ⟨taken, List.prefix_rfl, ⟨?_, ?_⟩, placed.room_append _, ?_⟩
      · have order := placed.order
        rw [none] at order
        show accepted (s.log ++ [.accept connfd]) = taken ++ s.pool.m_queue ++ [connfd]
        rw [accepted_append, order]
        simp [accepted]
      · show (finished (s.log ++ [.accept connfd]) ++ s.pool.holding).Perm taken
        rw [finished_append, show finished [.accept connfd] = [] from rfl, List.append_nil]
        exact placed.share
      · exact List.forall_mem_append.mpr ⟨placed.noted, by simp [Event.fd]⟩
  | act idle _ stepped passes =>
      exact ⟨taken, List.prefix_rfl, (serves.act placed idle stepped passes).2⟩
  | work work =>
      exact placed.work serves.serving serves.distinct (Pool.State.worked_of_work work)

theorem step (serves : s.Serves) (step : s.step listenfd a = some (.ok s')) : s'.Serves := by
  obtain ⟨inv, notes⟩ := serves.inv.step step
  have unclosed := notes.unclosed serves.unclosed
  obtain ⟨taken, placed⟩ := serves.placed
  obtain ⟨taken', -, placed'⟩ := serves.place placed step
  cases stepped_of_step step with
  | accept none fresh =>
      exact ⟨inv, serves.serving, unclosed, serves.accept fresh, taken', placed'⟩
  | act idle _ stepped passes =>
      exact ⟨inv, (serves.act placed idle stepped passes).1, unclosed, serves.distinct, taken',
        placed'⟩
  | work work =>
      have worked := Pool.State.worked_of_work work
      refine ⟨inv, Pool.State.Serving.work serves.serving worked, unclosed, ?_, taken', placed'⟩
      rw [accepted_work worked]
      exact serves.distinct

/-- Whatever is with a worker is with nobody else, and not dealt with. -/
theorem once (serves : s.Serves) : (finished s.log ++ s.pool.holding).Nodup := by
  obtain ⟨-, -, -, distinct, taken, placed⟩ := serves
  rw [placed.order, List.append_assoc] at distinct
  exact placed.share.nodup_iff.mpr (List.nodup_append.mp distinct).1

theorem of_reachable (reach : (system listenfd).Reachable (.ok s)) : s.Serves := by
  refine reach.induct (P := Running Serves) ?_ ?_ s rfl
  · rintro x ⟨peers, rfl⟩ t same
    obtain rfl := Except.ok.inj same
    exact .start peers
  · rintro x a x' serves step t rfl
    obtain ⟨s, rfl, stepped⟩ := live_cases step
    exact (serves s rfl).step stepped

end Serves

/-- A worker in a call holds the descriptor of the call. -/
theorem inService_sublist (serving : s.Serving doit) : s.inService.Sublist s.pool.holding := by
  apply holdings_sublist
  intro w fd here
  obtain ⟨h, call, rfl⟩ := Option.map_eq_some_iff.mp here
  exact serving.holds call

/-- Over a run, what has left the queue stays in front. -/
theorem Serves.places (serves : s.Serves) (placed : s.Placed taken) {t : Server}
    (after : (system listenfd).Reaches (fun _ => True) (.ok s) (.ok t)) :
    ∃ taken', taken <+: taken' ∧ t.Placed taken' := by
  have kept : Running (fun t => t.Serves ∧ ∃ taken', taken <+: taken' ∧ t.Placed taken')
      (.ok t) := by
    refine after.induct ?_ ?_
    · rintro _ ⟨⟩
      exact ⟨serves, taken, List.prefix_rfl, placed⟩
    · rintro x a x' both - step t rfl
      obtain ⟨r, rfl, stepped⟩ := live_cases step
      obtain ⟨serves, taken₁, front, placed⟩ := both r rfl
      obtain ⟨taken₂, front', placed'⟩ := serves.place placed stepped
      exact ⟨serves.step stepped, taken₂, front.trans front', placed'⟩
  exact (kept t rfl).2

/-- **The connections are served in the order in which they come, each once, eight at a time**:
those that have left the queue are the first ones accepted, and stay in front of all that leave
it later; each of them is dealt with or with one worker.  One that is done with is not served
again, no two workers serve the same one, and nothing is read from a connection unless it has
left the queue and fewer than eight of those before it are not done with. -/
theorem served_in_order (reach : (system listenfd).Reachable (.ok s)) :
    ∃ taken, s.Taken taken ∧
      (∀ t, (system listenfd).Reaches (fun _ => True) (.ok s) (.ok t) →
        ∃ taken', taken <+: taken' ∧ t.Taken taken') ∧
      (finished s.log ++ s.pool.holding).Nodup ∧ s.inService.Sublist s.pool.holding ∧
      ∀ e ∈ s.log, e = .accept e.fd ∨
        ∃ i, taken[i]? = some e.fd ∧ unfinished s.log (taken.take i) < threads := by
  have serves := Serves.of_reachable reach
  obtain ⟨taken, placed⟩ := serves.placed
  refine ⟨taken, placed.toTaken, fun t after => ?_, serves.once, inService_sublist serves.serving,
    fun e member => (placed.noted e member).imp_right fun there => ?_⟩
  · obtain ⟨taken', front, placed'⟩ := serves.places placed after
    exact ⟨taken', front, placed'.toTaken⟩
  · obtain ⟨i, inside, here⟩ := List.mem_iff_getElem.mp there
    exact ⟨i, List.getElem?_eq_some_iff.mpr ⟨inside, here⟩, placed.room i inside⟩

/-- Nine clients send one value each; eight workers read it. -/
def nine : List Action :=
  ((List.range 9).flatMap fun k => [.accept (.ok (4 + k)), .submit, .notify none]) ++
    (List.finRange threads).flatMap fun w => List.replicate 8 (.work w ⟨10, fun _ => 0⟩)

/-- The ninth waits. -/
theorem served_in_order_nine : ∃ s taken, (system 3).run
    (.ok (start fun _ => ⟨[7, 0, 0, 0, 0, 0, 0, 0], Unit.SysCallWrap.twoByTwo⟩)) nine =
      some (.ok s) ∧ s.log.length = 17 ∧ s.pool.m_queue = [12] ∧ s.Taken taken ∧
    (∀ t, (system 3).Reaches (fun _ => True) (.ok s) (.ok t) →
      ∃ taken', taken <+: taken' ∧ t.Taken taken') ∧
    (finished s.log ++ s.pool.holding).Nodup ∧ s.inService.Sublist s.pool.holding ∧
    ∀ e ∈ s.log, e = .accept e.fd ∨
      ∃ i, taken[i]? = some e.fd ∧ unfinished s.log (taken.take i) < threads := by
  have ran : ((system 3).run
      (.ok (start fun _ => ⟨[7, 0, 0, 0, 0, 0, 0, 0], Unit.SysCallWrap.twoByTwo⟩)) nine).map
      (fun x => x.toOption.map fun s => (s.log.length, s.pool.m_queue)) =
        some (some (17, [12])) := by decide +kernel
  obtain ⟨x, run, seen⟩ := Option.map_eq_some_iff.mp ran
  cases x with
  | error ended => cases seen
  | ok s =>
      have seen : (s.log.length, s.pool.m_queue) = (17, [12]) := Option.some.inj seen
      have reach : (system 3).Reachable (.ok s) := System.Reachable.of_run ⟨_, rfl⟩ run
      obtain ⟨taken, serves⟩ := served_in_order reach
      exact ⟨s, taken, run, congrArg Prod.fst seen, congrArg Prod.snd seen, serves⟩

end Server

end ThreadPools

end Codesnip.Net
