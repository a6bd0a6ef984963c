/-
# Net.Drain -- whether `EPollServer` leaves unread data behind

An edge is reported once, however much has arrived, and the `DoUseFd` that answers it
reads once, up to 1024 bytes.  `Due fd`: a read of `fd` is still to come, because an edge
is not reported yet, or the event is not submitted, or the task is not called, or the call
has not read.  `Covered`: every connection with unread data is due.

Every step keeps that but one (`Strands`): a read that leaves data while nothing else is
due for its connection.
-/
import Codesnip.Common.ThreadPoolHandover
import Codesnip.Net.EPollServer
import Mathlib.Tactic.FinCases

namespace Codesnip.Common.ThreadPool.State

set_option autoImplicit false
set_option linter.dupNamespace false

/-! ## Tasks on their way -/

variable {n : Nat} {S T : Type}

/-- Worker `w` has taken `task` and not called it yet. -/
def Carries (s : State n S T) (w : Fin n) (task : T) : Prop :=
  (s.pc w).carries = true ∧ (s.workers w).dequeued = true ∧ (s.workers w).func = some task

/-- `task` is submitted and not called yet. -/
def Awaits (s : State n S T) (task : T) : Prop := task ∈ s.m_queue ∨ ∃ w, s.Carries w task

instance [DecidableEq T] (s : State n S T) (w : Fin n) (task : T) :
    Decidable (s.Carries w task) := inferInstanceAs (Decidable (_ ∧ _ ∧ _))

instance [DecidableEq T] (s : State n S T) (task : T) : Decidable (s.Awaits task) :=
  inferInstanceAs (Decidable (_ ∨ ∃ w, s.Carries w task))

variable {s s' t : State n S T} {v w : Fin n} {task : T} {me : Worker T}

theorem carries_self (workers : t.workers = (s.put w me).workers) :
    t.Carries w task ↔ me.pc.carries = true ∧ me.dequeued = true ∧ me.func = some task := by
  simp [Carries, State.pc, workers]

theorem carries_of_ne (workers : t.workers = (s.put w me).workers) (ne : v ≠ w) :
    t.Carries v task ↔ s.Carries v task := by
  simp [Carries, State.pc, workers, put_workers_of_ne s ne me]

theorem Carries.put (carries : s.Carries v task) (workers : t.workers = (s.put w me).workers)
    (own : s.Carries w task → me.pc.carries = true ∧ me.dequeued = true ∧ me.func = some task) :
    t.Awaits task := by
  refine .inr ⟨v, ?_⟩
  by_cases same : v = w
  · subst same
    exact (carries_self workers).mpr (own carries)
  · exact (carries_of_ne workers same).mpr carries

/-- A step of worker `w` loses no task but the one it calls. -/
theorem Worked.awaits (worked : s.Worked w s') (awaits : s.Awaits task) :
    s'.Awaits task ∨ s.pc w = .call ∧ s.Carries w task := by
  rcases awaits with member | ⟨v, carries⟩
  · left
    cases worked with
    | missed pc none =>
        rw [none] at member
        cases member
    | @took pc front rest queue =>
        rw [queue] at member
        rcases List.mem_cons.mp member with rfl | member
        · exact .inr ⟨w, (carries_self rfl).mpr ⟨rfl, rfl, rfl⟩⟩
        · exact .inl member
    | _ => exact .inl member
  · have idle : (s.pc w).carries = false → ¬ s.Carries w task := fun not carries => by
      rw [carries.1] at not
      cases not
    cases worked with
    | unlock pc => exact .inl (carries.put rfl fun own => ⟨rfl, own.2⟩)
    | again pc failed =>
        refine .inl (carries.put rfl fun own => ?_)
        rw [own.2.1] at failed
        cases failed
    | takeUp pc got => exact .inl (carries.put rfl fun own => ⟨rfl, own.2⟩)
    | call pc =>
        by_cases same : v = w
        · subst same
          exact .inr ⟨pc, carries⟩
        · exact .inl (.inr ⟨v, (carries_of_ne rfl same).mpr carries⟩)
    | leave pc | enter pc | lock pc | sawEmpty pc | sawTask pc | sleep pc | wakeUp pc | missed pc
    | took pc | finish pc =>
        refine .inl (carries.put rfl fun own => absurd own (idle ?_))
        rw [pc]
        rfl

/-- `Submit` and a wakeup move no task that is on its way. -/
theorem Stepped.awaits [DecidableEq S] {a : Action n S T} (stepped : s.Stepped a s')
    (idle : ∀ w, a ≠ .worker w) (awaits : s.Awaits task) : s'.Awaits task := by
  cases stepped with
  | worker => exact absurd rfl (idle _)
  | enqueue => exact awaits.imp_left (List.mem_append_left _)
  | _ => exact awaits

end Codesnip.Common.ThreadPool.State

namespace Codesnip.Net.EPollServer

open Codesnip.Common
open Codesnip.Theory.Transition (System)

set_option autoImplicit false
set_option linter.dupNamespace false

namespace Server

variable {listenfd fd : Int} {s s' t : Server} {a : Action} {w : Fin threads}

/-! ## What is still to come -/

/-- A read of `fd` is still to come. -/
inductive Due (fd : Int) (s : Server) : Prop where
  | ready {socket : Socket} (found : s.main.sockets fd = some socket)
      (ready : socket.ready = true)
  | event (member : fd ∈ s.main.events)
  | task (awaits : s.pool.Awaits fd)
  | call {w : Fin threads} {h : DoUseFd} (call : s.calls w = some h) (here : h.fd = fd)
      (pc : h.pc = .Read)

theorem due_iff : Due fd s ↔
    (∃ socket ∈ s.main.sockets fd, socket.ready = true) ∨ fd ∈ s.main.events ∨
      s.pool.Awaits fd ∨ ∃ w, ∃ h ∈ s.calls w, h.fd = fd ∧ h.pc = .Read := by
  constructor
  · intro due
    cases due with
    | ready found ready => exact .inl ⟨_, found, ready⟩
    | event member => exact .inr (.inl member)
    | task awaits => exact .inr (.inr (.inl awaits))
    | call call here pc => exact .inr (.inr (.inr ⟨_, _, call, here, pc⟩))
  · rintro (⟨socket, found, ready⟩ | member | awaits | ⟨w, h, call, here, pc⟩)
    · exact .ready found ready
    · exact .event member
    · exact .task awaits
    · exact .call call here pc

instance (fd : Int) (s : Server) : Decidable (Due fd s) := decidable_of_iff _ due_iff.symm

/-- Every connection with unread data is due. -/
def Covered (s : Server) : Prop :=
  ∀ (fd : Int) (socket : Socket), s.main.sockets fd = some socket → socket.unread ≠ [] → Due fd s

/-- The state without the call of worker `w`. -/
def without (w : Fin threads) (s : Server) : Server :=
  { s with calls := Function.update s.calls w none }

@[simp] theorem without_calls_self (w : Fin threads) (s : Server) :
    (s.without w).calls w = none := Function.update_self ..

/-- The read of worker `w` leaves data, and nothing else is due for that connection. -/
def Strands (s : Server) : Action → Prop
  | .work w e => e.failure = none ∧ ∃ h ∈ s.calls w, h.pc = .Read ∧
      (∃ socket ∈ s.main.sockets h.fd, 1024 < socket.unread.length) ∧ ¬ Due h.fd (s.without w)
  | _ => False

instance (s : Server) : (a : Action) → Decidable (s.Strands a)
  | .work w _ => inferInstanceAs (Decidable (_ ∧ ∃ h ∈ s.calls w, _ ∧ (∃ socket ∈ _, _) ∧ _))
  | .arrive .. | .hangup .. | .wait .. | .accept .. | .submit | .notify .. | .spurious .. =>
      inferInstanceAs (Decidable False)

/-- All events are delivered, and all tasks that were submitted have run. -/
structure Settled (s : Server) : Prop where
  delivered : ∀ (fd : Int) (socket : Socket), s.main.sockets fd = some socket →
    socket.ready = false
  submitted : ∀ fd ∈ s.main.events, s.main.sockets fd = none
  called : ∀ fd, ¬ s.pool.Awaits fd
  returned : ∀ w, s.calls w = none

/-- No connection has unread data. -/
def Drained (s : Server) : Prop :=
  ∀ (fd : Int) (socket : Socket), s.main.sockets fd = some socket → socket.unread = []

theorem Covered.drained (covered : s.Covered) (settled : s.Settled) : s.Drained := by
  intro fd socket found
  by_contra some
  cases covered fd socket found some with
  | ready there ready =>
      rw [settled.delivered fd _ there] at ready
      cases ready
  | event member =>
      rw [settled.submitted fd member] at found
      cases found
  | task awaits => exact settled.called fd awaits
  | call call =>
      rw [settled.returned] at call
      cases call

/-! ## The steps of the peers and of the main thread -/

/-- Only the data of `fd` and the edge of `fd` change. -/
theorem due_put {fd' : Int} {socket : Socket} (ne : fd' ≠ fd) :
    Due fd' { s with main := s.main.put fd socket } ↔ Due fd' s := by
  have same : (s.main.put fd socket).sockets fd' = s.main.sockets fd' := Function.update_of_ne ne ..
  constructor
  · intro due
    cases due with
    | ready found ready => exact .ready (same.symm.trans found) ready
    | event member => exact .event member
    | task awaits => exact .task awaits
    | call call here pc => exact .call call here pc
  · intro due
    cases due with
    | ready found ready => exact .ready (same.trans found) ready
    | event member => exact .event member
    | task awaits => exact .task awaits
    | call call here pc => exact .call call here pc

/-- What arrives or leaves raises an edge. -/
theorem Covered.put {socket : Socket} (covered : s.Covered) (ready : socket.ready = true) :
    Covered { s with main := s.main.put fd socket } := by
  intro fd' socket' found some
  rcases put_sockets found with ⟨rfl, rfl⟩ | ⟨ne, there⟩
  · exact .ready found ready
  · exact (due_put ne).mpr (covered fd' socket' there some)

theorem events_of_wait {answer : Except Int32 (List Int)} {x : Except Ended Server}
    (step : s.step listenfd (.wait answer) = some x) : s.main.events = [] := by
  simp only [Server.step] at step
  unfold wait at step
  split at step
  · rename_i waits
    exact waits.1
  · cases step

theorem Covered.wait (covered : s.Covered) (none : s.main.events = []) (fds : List Int) :
    Covered { s with main := s.main.report fds } := by
  intro fd socket found some
  by_cases member : fd ∈ fds
  · exact .event member
  · have there : s.main.sockets fd = .some socket := by
      simpa only [Main.report, if_neg member] using found
    cases covered fd socket there some with
    | ready => exact .ready found (by simp_all)
    | event member =>
        rw [none] at member
        cases member
    | task awaits => exact .task awaits
    | call call here pc => exact .call call here pc

/-- The event of the listener is no connection's. -/
theorem Covered.accept {connfd : Int} {early : List UInt8} {events : List Int}
    {log : List Event} (covered : s.Covered) (listener : s.main.sockets listenfd = none)
    (here : s.main.events = listenfd :: events) :
    Covered { s with
      main := { s.main with events }.put connfd ⟨early, false, decide (early ≠ [])⟩
      log } := by
  intro fd socket found some
  rcases put_sockets found with ⟨rfl, rfl⟩ | ⟨ne, there⟩
  · exact .ready found (decide_eq_true some)
  · cases covered fd socket there some with
    | ready found' ready => exact .ready found (by simp_all)
    | event member =>
        refine .event ?_
        rw [here] at member
        rcases List.mem_cons.mp member with rfl | member
        · rw [listener] at there
          cases there
        · exact member
    | task awaits => exact .task awaits
    | call call here pc => exact .call call here pc

theorem Due.act {act : ThreadPool.Action threads Unit Int} (due : Due fd s)
    (idle : ∀ w, act ≠ .worker w) (step : s.act act = some t) : Due fd t := by
  obtain ⟨pool, stepped, rfl⟩ := Option.map_eq_some_iff.mp step
  have stepped := ThreadPool.State.stepped_of_step stepped
  cases due with
  | ready found ready => exact .ready found ready
  | event member => exact .event member
  | task awaits => exact .task (stepped.awaits idle awaits)
  | call call here pc => exact .call call here pc

theorem Covered.act {act : ThreadPool.Action threads Unit Int} (covered : s.Covered)
    (idle : ∀ w, act ≠ .worker w) (step : s.act act = some t) : t.Covered := by
  intro fd socket found some
  rw [(Pool.State.act_rest step).2.1] at found
  exact (covered fd socket found some).act idle step

/-- The event becomes a task. -/
theorem Covered.submit {fd : Int} {events : List Int} (covered : s.Covered)
    (here : s.main.events = fd :: events) (act : s.act (.enqueue () fd) = some t) :
    Covered { t with main := { t.main with events } } := by
  intro fd' socket found some
  cases covered.act (by simp) act fd' socket found some with
  | ready found ready => exact .ready found ready
  | event member =>
      rw [(Pool.State.act_rest act).2.1, here] at member
      rcases List.mem_cons.mp member with rfl | member
      · refine .task (.inl ?_)
        obtain ⟨pool, stepped, rfl⟩ := Option.map_eq_some_iff.mp act
        cases ThreadPool.State.stepped_of_step stepped
        exact List.mem_append_right _ List.mem_cons_self
      · exact .event member
  | task awaits => exact .task awaits
  | call call here pc => exact .call call here pc

/-! ## The steps of a worker -/

/-- What a step of worker `w` leaves of what is due: its own call apart, everything. -/
theorem Due.rest (due : Due fd s) (main : t.main = s.main)
    (awaits : s.pool.Awaits fd → Due fd t) {call : Option DoUseFd}
    (calls : t.calls = Function.update s.calls w call)
    (own : ∀ h, s.calls w = some h → h.fd = fd → h.pc ≠ .Read) : Due fd t := by
  cases due with
  | ready found ready => exact .ready (main ▸ found) ready
  | event member => exact .event (main ▸ member)
  | task waiting => exact awaits waiting
  | @call v h there here pc =>
      have ne : v ≠ w := fun same => own h (same ▸ there) here pc
      refine .call (w := v) ?_ here pc
      rw [calls, Function.update_of_ne ne]
      exact there

/-- Worker `w` moves in the pool, and is in no call. -/
theorem Covered.pooled {pool : ThreadPool.State threads Unit Int} (covered : s.Covered)
    (idle : s.calls w = none) (ne : s.pool.pc w ≠ .call)
    (step : s.pool.operatorCall w = some pool) : Covered { s with pool } := by
  have worked := ThreadPool.State.worked_of_operatorCall step
  have calls : s.calls = Function.update s.calls w none := by rw [← idle, Function.update_eq_self]
  intro fd socket found some
  refine (covered fd socket found some).rest rfl (fun awaits => ?_) calls ?_
  · rcases worked.awaits awaits with awaits | ⟨called, -⟩
    · exact .task awaits
    · exact absurd called ne
  · intro h call
    rw [idle] at call
    cases call

/-- Worker `w` calls `DoUseFd`, which is to read. -/
theorem Covered.enter {pool : ThreadPool.State threads Unit Int} {e : Answers} (covered : s.Covered)
    (idle : s.calls w = none) (func : (s.pool.workers w).func = some fd)
    (step : s.pool.operatorCall w = some pool) :
    Covered { s with
      pool
      calls := Function.update s.calls w (some (doUseFd.enter e fd s.main)) } := by
  have worked := ThreadPool.State.worked_of_operatorCall step
  intro fd' socket found some
  refine (covered fd' socket found some).rest (w := w) rfl (fun awaits => ?_) rfl ?_
  · rcases worked.awaits awaits with awaits | ⟨-, carries⟩
    · exact .task awaits
    · obtain rfl := Option.some.inj (func.symm.trans carries.2.2)
      exact .call (Function.update_self ..) rfl rfl
  · intro h call
    rw [idle] at call
    cases call

/-- Worker `w` goes on in a call that has read. -/
theorem Covered.called {h : DoUseFd} {call : Option DoUseFd} (covered : s.Covered)
    (here : s.calls w = some h) (pc : h.pc ≠ .Read) (main : t.main = s.main)
    (calls : t.calls = Function.update s.calls w call)
    (awaits : ∀ fd, s.pool.Awaits fd → t.pool.Awaits fd) : t.Covered := by
  intro fd socket found some
  rw [main] at found
  have due := covered fd socket found some
  refine due.rest main (fun waiting => .task (awaits fd waiting)) calls fun h' there _ => ?_
  obtain rfl := Option.some.inj (here.symm.trans there)
  exact pc

/-- After the read of worker `w`, its call is not due any more. -/
theorem due_read {h h' : DoUseFd} {socket : Socket} {log : List Event}
    (found : s.main.sockets h.fd = some socket) (read : h'.pc ≠ .Read) (bytes : List UInt8) :
    Due fd { s with
      calls := Function.update s.calls w (some h')
      main := s.main.put h.fd { socket with unread := bytes }
      log } ↔ Due fd (s.without w) := by
  have other : ∀ {v : Fin threads} (call call' : Option DoUseFd), v ≠ w →
      Function.update s.calls w call v = Function.update s.calls w call' v := by
    intro v call call' ne
    rw [Function.update_of_ne ne, Function.update_of_ne ne]
  constructor
  · intro due
    cases due with
    | ready found' ready =>
        rcases put_sockets found' with ⟨rfl, rfl⟩ | ⟨-, there⟩
        · exact .ready found ready
        · exact .ready there ready
    | event member => exact .event member
    | task awaits => exact .task awaits
    | @call v h₁ call here pc =>
        by_cases same : v = w
        · subst same
          obtain rfl := Option.some.inj ((Function.update_self v _ s.calls).symm.trans call)
          exact absurd pc read
        · exact .call ((other none _ same).trans call) here pc
  · intro due
    cases due with
    | @ready socket' found' ready =>
        by_cases same : fd = h.fd
        · subst same
          obtain rfl := Option.some.inj (found.symm.trans found')
          exact .ready (Function.update_self ..) ready
        · exact .ready ((Function.update_of_ne same _ s.main.sockets).trans found') ready
    | event member => exact .event member
    | task awaits => exact .task awaits
    | @call v h₁ call here pc =>
        by_cases same : v = w
        · subst same
          rw [without_calls_self] at call
          cases call
        · exact .call ((other (some h') none same).trans call) here pc

/-- **A read keeps what is unread covered exactly if it does not strand it.** -/
theorem Covered.read_iff {h h' : DoUseFd} {socket : Socket} {e : Answers} {log : List Event}
    (covered : s.Covered) (call : s.calls w = some h) (pc : h.pc = .Read)
    (found : s.main.sockets h.fd = some socket) (success : e.failure = none)
    (read : h'.pc ≠ .Read) :
    Covered { s with
      calls := Function.update s.calls w (some h')
      main := s.main.put h.fd { socket with unread := socket.unread.drop 1024 }
      log } ↔ ¬ s.Strands (.work w e) := by
  constructor
  · rintro after ⟨-, h₁, call₁, -, ⟨socket₁, found₁, long⟩, alone⟩
    obtain rfl := Option.some.inj (call.symm.trans call₁)
    obtain rfl := Option.some.inj (found.symm.trans found₁)
    have left : socket.unread.drop 1024 ≠ [] := mt List.drop_eq_nil_iff.mp (Nat.not_le_of_lt long)
    exact alone ((due_read found read _).mp (after h.fd _ (Function.update_self ..) left))
  · intro not fd socket' found' some
    refine (due_read found read _).mpr ?_
    rcases put_sockets found' with ⟨rfl, rfl⟩ | ⟨ne, there⟩
    · by_contra alone
      refine not ⟨success, h, call, pc, ⟨socket, found, ?_⟩, alone⟩
      by_contra short
      exact some (List.drop_of_length_le (Nat.le_of_not_lt short))
    · refine (covered fd socket' there some).rest rfl (fun awaits => .task awaits) rfl ?_
      intro h₁ call₁ here
      obtain rfl := Option.some.inj (call.symm.trans call₁)
      exact absurd here.symm ne

/-- A read goes on exactly if it does not fail. -/
theorem read_ok_iff {h : DoUseFd} {e : Answers} {main : Main}
    {x : Except Ended (Pool.Moved Main DoUseFd)} (pc : h.pc = .Read)
    (step : h.step e main = some x) : (∃ moved, x = .ok moved) ↔ e.failure = none := by
  rw [DoUseFd.step, pc] at step
  obtain ⟨socket, -, next⟩ := Option.bind_eq_some_iff.mp step
  cases failure : e.failure with
  | none =>
      rw [failure] at next
      simp only at next
      split at next <;> cases next
      exact iff_of_true ⟨_, rfl⟩ rfl
  | some errno =>
      rw [failure] at next
      cases next
      simp

/-- Worker `w` is in no call. -/
theorem Covered.outside {e : Answers} (covered : s.Covered) (idle : s.calls w = none)
    (work : s.work doUseFd e w = some (.ok s')) : s'.Covered := by
  obtain ⟨pool, step, ⟨ne, same⟩ | ⟨-, fd, func, same⟩⟩ := Pool.State.work_outside idle work
  · cases same
    exact covered.pooled idle ne step
  · cases same
    exact covered.enter idle func step

/-- Worker `w` returns from a call. -/
theorem Covered.returned {h : DoUseFd} {pool : ThreadPool.State threads Unit Int}
    {log : List Event} (covered : s.Covered) (call : s.calls w = some h) (pc : h.pc ≠ .Read)
    (running : s.pool.pc w = .running) (pooled : s.pool.operatorCall w = some pool) :
    Covered { s with pool, calls := Function.update s.calls w none, log } := by
  refine covered.called call pc rfl rfl fun fd awaits => ?_
  rcases (ThreadPool.State.worked_of_operatorCall pooled).awaits awaits with awaits | ⟨calls, -⟩
  · exact awaits
  · rw [running] at calls
    cases calls

/-- Worker `w` is in a call. -/
theorem Covered.inside_iff {h : DoUseFd} {e : Answers} (covered : s.Covered)
    (call : s.calls w = some h) (running : s.pool.pc w = .running)
    (work : s.work doUseFd e w = some (.ok s')) : s'.Covered ↔ ¬ s.Strands (.work w e) := by
  have harmless : h.pc ≠ .Read → ¬ s.Strands (.work w e) := by
    rintro ne ⟨-, h', there, pc, -⟩
    obtain rfl := Option.some.inj (call.symm.trans there)
    exact ne pc
  rcases Pool.State.work_inside running call work with
    ⟨main, event, h', step, rfl⟩ | ⟨main, event, pool, step, pooled, rfl⟩
  · cases DoUseFd.stepped_of_step step with
    | read pc found =>
        exact covered.read_iff call pc found ((read_ok_iff pc step).mp ⟨_, rfl⟩) (by simp)
    | print pc =>
        have ne : h.pc ≠ .Read := by rw [pc]; simp
        exact iff_of_true (covered.called call ne rfl rfl fun _ => id) (harmless ne)
  · cases DoUseFd.stepped_of_step step with
    | eof pc =>
        have ne : h.pc ≠ .Read := by rw [pc]; simp
        exact iff_of_true (covered.returned call ne running pooled) (harmless ne)
    | leave pc =>
        have ne : h.pc ≠ .Read := by rw [pc]; simp
        exact iff_of_true (covered.returned call ne running pooled) (harmless ne)

/-- What a server keeps: only a worker that runs `func` is in a call, and the listener is
no connection. -/
structure Watched (listenfd : Int) (s : Server) : Prop where
  attended : Pool.State.Attended s
  listener : s.main.sockets listenfd = none

theorem Watched.running {h : DoUseFd} (watched : Watched listenfd s)
    (call : s.calls w = some h) : s.pool.pc w = .running :=
  watched.attended w (by rw [call]; simp)

theorem Covered.work_iff {e : Answers} (watched : Watched listenfd s) (covered : s.Covered)
    (work : s.work doUseFd e w = some (.ok s')) : s'.Covered ↔ ¬ s.Strands (.work w e) := by
  cases call : s.calls w with
  | none =>
      refine iff_of_true (covered.outside call work) ?_
      rintro ⟨-, h, there, -⟩
      rw [call] at there
      cases there
  | some h => exact covered.inside_iff call (watched.running call) work

/-! ## The runs -/

theorem Watched.start : Watched listenfd start := ⟨Pool.State.start_attended, rfl⟩

theorem Watched.act {act : ThreadPool.Action threads Unit Int} (watched : Watched listenfd s)
    (idle : ∀ w, act ≠ .worker w) (step : s.act act = some t) : Watched listenfd t := by
  obtain ⟨calls, main, -⟩ := Pool.State.act_rest step
  constructor
  · intro w called
    rw [calls] at called
    exact (Pool.State.act_pc idle step w).trans (watched.attended w called)
  · rw [main]
    exact watched.listener

/-- What is put in is put in for a connection. -/
theorem Watched.listener_put {socket socket' : Socket} (watched : Watched listenfd s)
    (found : s.main.sockets fd = some socket) :
    (s.main.put fd socket').sockets listenfd = none := by
  have ne : listenfd ≠ fd := fun same => by
    rw [← same, watched.listener] at found
    cases found
  exact (Function.update_of_ne ne _ s.main.sockets).trans watched.listener

theorem Watched.work {e : Answers} (watched : Watched listenfd s)
    (worked : s.Worked doUseFd e w (.ok s')) : Watched listenfd s' := by
  refine ⟨watched.attended.work worked s' rfl, ?_⟩
  cases worked with
  | moved _ _ step =>
      cases DoUseFd.stepped_of_step step with
      | read _ found => exact watched.listener_put found
      | print => exact watched.listener
  | returned _ _ step =>
      cases DoUseFd.stepped_of_step step <;> exact watched.listener
  | _ => exact watched.listener

theorem Watched.step (watched : Watched listenfd s) (stepped : s.Stepped listenfd a (.ok s')) :
    Watched listenfd s' := by
  cases stepped with
  | arrive found => exact ⟨watched.attended, watched.listener_put found⟩
  | hangup found => exact ⟨watched.attended, watched.listener_put found⟩
  | waited =>
      refine ⟨watched.attended, ?_⟩
      simp [Main.report, watched.listener]
  | accepted _ fresh =>
      refine ⟨watched.attended, ?_⟩
      exact (Function.update_of_ne fresh.2.1.symm _ s.main.sockets).trans watched.listener
  | submitted _ _ act =>
      obtain ⟨attended, listener⟩ := watched.act (by simp) act
      exact ⟨attended, listener⟩
  | notified act => exact watched.act (by simp) act
  | woke act => exact watched.act (by simp) act
  | worked worked => exact watched.work worked

/-- **A step keeps what is unread covered exactly if it strands nothing.** -/
theorem Covered.step_iff (watched : Watched listenfd s) (covered : s.Covered)
    (step : s.step listenfd a = some (.ok s')) : s'.Covered ↔ ¬ s.Strands a := by
  cases stepped_of_step step with
  | worked => exact covered.work_iff watched step
  | arrive => exact iff_of_true (covered.put rfl) id
  | hangup => exact iff_of_true (covered.put rfl) id
  | @waited fds => exact iff_of_true (covered.wait (events_of_wait step) fds) id
  | accepted here => exact iff_of_true (covered.accept watched.listener here) id
  | submitted here _ act => exact iff_of_true (covered.submit here act) id
  | notified act => exact iff_of_true (covered.act (by simp) act) id
  | woke act => exact iff_of_true (covered.act (by simp) act) id

/-- A server that a read ends has stranded nothing with it. -/
theorem not_strands_of_error {ended : Ended} (step : s.step listenfd a = some (.error ended)) :
    ¬ s.Strands a := by
  cases stepped_of_step step with
  | waitFailed => exact id
  | acceptFailed => exact id
  | worked worked =>
      rintro ⟨success, h, call, pc, -⟩
      cases worked with
      | ended there read =>
          obtain rfl := Option.some.inj (call.symm.trans there)
          obtain ⟨moved, same⟩ := (read_ok_iff pc read).mpr success
          cases same

theorem start_covered : Covered start := fun _ _ found => by cases found

/-- **What is unread is covered exactly as long as no read strands any of it.** -/
theorem covered_iff {as : List Action} {y : Except Ended Server}
    (run : (system listenfd).run (.ok start) as = some y) :
    (system listenfd).Always (Holds Covered) (.ok start) as ↔
      (system listenfd).Steps (Turns fun s a => ¬ s.Strands a) (.ok start) as := by
  refine System.always_iff_steps (Running (Watched listenfd)) ?_ ?_ ?_ start_covered run
  · rintro x a x' watched step s' rfl
    obtain ⟨s, rfl, stepped⟩ := live_cases step
    exact (watched s rfl).step (stepped_of_step stepped)
  · intro x a x' watched covered step
    obtain ⟨s, rfl, stepped⟩ := live_cases step
    rw [turns_ok]
    match x' with
    | .ok s' => exact Covered.step_iff (watched s rfl) covered stepped
    | .error ended =>
        obtain ⟨⟨exit, rfl⟩, -⟩ := (stepped_of_step stepped).ends
        exact iff_of_true trivial (not_strands_of_error stepped)
  · rintro t same
    obtain rfl := Except.ok.inj same
    exact .start

/-- **When `EPollServer` leaves nothing unread**: in every state of a run in which no read
strands what it leaves. -/
theorem settled_drained (listenfd : Int) (as : List Action) (y : Except Ended Server)
    (run : (system listenfd).run (.ok start) as = some y)
    (drains : (system listenfd).Steps (Turns fun s a => ¬ s.Strands a) (.ok start) as) :
    (system listenfd).Always (Holds fun s => s.Settled → s.Drained) (.ok start) as := by
  have covered := (covered_iff run).mpr drains
  exact covered.mono fun x holds => holds.mono fun s covered => covered.drained

/-- A client connects and sends so many bytes at once, and a worker serves it. -/
def arrives (w : Fin threads) (count : Nat) : List Action :=
  [.wait (.ok [3]), .accept (.ok 4) [] (.ok ()), .arrive 4 (List.replicate count 1),
    .wait (.ok [4]), .submit, .notify none] ++ List.replicate 10 (.work w ⟨fun _ => 0, none⟩)

theorem run_arrives (count : Nat) :
    ∃ s, (system 3).run (.ok start) (arrives 0 (count + 1)) = some (.ok s) ∧ s.Settled ∧
      s.main.sockets 4 = some ⟨(List.replicate (count + 1) 1).drop 1024, false, false⟩ := by
  obtain ⟨s, run, here, others, events, queue, carries, calls⟩ :
      ∃ s, (system 3).run (.ok start) (arrives 0 (count + 1)) = some (.ok s) ∧
        s.main.sockets 4 = some ⟨(List.replicate (count + 1) 1).drop 1024, false, false⟩ ∧
        (∀ fd ≠ 4, s.main.sockets fd = none) ∧ s.main.events = [] ∧ s.pool.m_queue = [] ∧
        (∀ w, (s.pool.pc w).carries = false) ∧ ∀ w, s.calls w = none := by
    refine ⟨_, rfl, rfl, fun fd ne => ?_, rfl, rfl, fun w => ?_, fun w => ?_⟩
    · -- The updates of `sockets`, the last first.
      have apart : fd ∉ [(4 : Int)] := by simpa using ne
      refine (Function.update_of_ne ne _ _).trans ((if_neg apart).trans ?_)
      exact (Function.update_of_ne ne _ _).trans
        ((Function.update_of_ne ne _ _).trans (ite_self none))
    · fin_cases w <;> rfl
    · fin_cases w <;> rfl
  refine ⟨s, run, ⟨fun fd socket found => ?_, ?_, ?_, calls⟩, here⟩
  · by_cases same : fd = 4
    · subst same
      obtain rfl := Option.some.inj (here.symm.trans found)
      rfl
    · rw [others fd same] at found
      cases found
  · simp [events]
  · rintro fd (member | ⟨w, carried, -⟩)
    · rw [queue] at member
      cases member
    · rw [carries w] at carried
      cases carried

theorem settled_drained_eight :
    ∃ s, (system 3).run (.ok start) (arrives 0 8) = some (.ok s) ∧ s.Settled ∧ s.Drained := by
  obtain ⟨s, run, settled, -⟩ := run_arrives 7
  have always := settled_drained 3 (arrives 0 8) (.ok s) run (by decide)
  exact ⟨s, run, settled, always.final run settled⟩

/-- Of 2000 bytes that arrive at once, 976 stay unread. -/
theorem settled_undrained :
    ∃ s, (system 3).run (.ok start) (arrives 0 2000) = some (.ok s) ∧ s.Settled ∧
      ¬ s.Drained := by
  obtain ⟨s, run, settled, here⟩ := run_arrives 1999
  refine ⟨s, run, settled, fun drained => ?_⟩
  have none := drained 4 _ here
  rw [List.drop_replicate, List.replicate_eq_nil_iff] at none
  omega

end Server

end Codesnip.Net.EPollServer
