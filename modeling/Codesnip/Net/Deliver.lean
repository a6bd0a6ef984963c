/-
# Net.Deliver -- whether the event loops report the values sent

`SelectServer` and `PollServer` read and report in one thread, so every read that returns
bytes is reported once, in its order (`Reporting`), and what counts is how the kernel
has cut the stream.  `EPollServer` has its workers read and report on their own: between
the read of one `DoUseFd` and its report, another may read the same connection and report
first, and the end of file is reported as well.
-/
import Codesnip.Net.Report
import Codesnip.Net.SelectServer
import Codesnip.Net.PollServer
import Codesnip.Net.EPollServer

namespace Codesnip.Net

open Codesnip.Theory
open Codesnip.Theory.Transition (System)

set_option autoImplicit false
set_option linter.dupNamespace false

/-! ## SelectServer and PollServer -/

section Loops

variable {σ A : Type} {sys : System (Except Ended σ) A} {permits : σ → A → Prop}
  [∀ s a, Decidable (permits s a)] {iteration : A → σ → Except Ended σ} {log : σ → List Event}

/-- A server reports what it reads if every turn does. -/
theorem reporting_of_reachable (turns : sys.step = turn permits iteration)
    (start : ∀ x, sys.Init x → Running (fun s => Reporting (log s)) x)
    (keep : ∀ a s, Reporting (log s) → Running (fun s' => Reporting (log s')) (iteration a s))
    {s : σ} (reach : sys.Reachable (.ok s)) : Reporting (log s) := by
  refine reach.induct (P := Running fun s => Reporting (log s)) start ?_ s rfl
  intro x a x' running step
  obtain ⟨s, rfl, -, rfl⟩ := turn_cases (turns ▸ step)
  exact keep a s (running s rfl)

end Loops

namespace SelectServer.Server

variable {listenfd : Int} {s : Server}

theorem readClient_reporting (a : Answers) (i : Nat) (sockfd : Int) (s : Server)
    (reporting : Reporting s.log) :
    Running (fun s' => Reporting s'.log) (s.readClient a i sockfd).result := by
  refine Running.any.result_bind fun chunk _ => ?_
  split
  · exact Running.any.result_bind fun _ _ => Holds.running (reporting.finish sockfd)
  · exact Holds.running (reporting.read sockfd ‹_› s.buf)

theorem reachable_reporting (reach : (system listenfd).Reachable (.ok s)) : Reporting s.log := by
  refine reporting_of_reachable rfl ?_ (fun a s reporting => ?_) reach
  · rintro _ ⟨buf, rfl⟩
    exact Running.any.bind fun _ _ => Holds.running Reporting.nil
  · exact EventLoop.turn_running (readClient_reporting a) (fun connfd s reporting =>
      Running.any.bind fun _ _ => Holds.running (reporting.accept connfd)) reporting

end SelectServer.Server

namespace PollServer.Server

variable {listenfd : Int} {s : Server}

theorem newClient_reporting (connfd : Int) (s : Server) (reporting : Reporting s.log) :
    Running (fun s' => Reporting s'.log) (s.newClient connfd) := by
  unfold newClient
  simp only
  split
  · exact fun _ same => by cases same
  · exact Holds.running (reporting.accept connfd)

theorem readClient_reporting (a : Answers) (i : Nat) (entry : Pollfd) (s : Server)
    (reporting : Reporting s.log) :
    Running (fun s' => Reporting s'.log) (s.readClient a i entry).result := by
  refine Running.any.result_bind fun chunk _ => ?_
  split
  · exact Running.any.result_bind fun _ _ => Holds.running (reporting.finish entry.fd)
  · exact Holds.running (reporting.read entry.fd ‹_› s.buf)

theorem reachable_reporting (reach : (system listenfd).Reachable (.ok s)) : Reporting s.log := by
  refine reporting_of_reachable rfl ?_ (fun a s reporting => ?_) reach
  · rintro _ ⟨memory, buf, rfl⟩
    exact Holds.running Reporting.nil
  · rw [← (poll_rest a.poll s).2] at reporting
    exact EventLoop.turn_running (readClient_reporting a) newClient_reporting reporting

end PollServer.Server

/-! ## EPollServer -/

namespace EPollServer

/-- What a call of `DoUseFd` is about to report of `fd`. -/
def DoUseFd.pending (fd : Int) (h : DoUseFd) : Option Int :=
  match h.pc with
  | .printf _ => if h.fd = fd then some (num h.buf) else none
  | _ => none

namespace Server

variable {listenfd : Int} {s s' : Server} {a : Action}

def pending (fd : Int) (s : Server) (w : Fin threads) : Option Int :=
  (s.calls w).bind (DoUseFd.pending fd)

/-- No worker has read from `fd` without having reported it. -/
def Quiet (fd : Int) (s : Server) : Prop := s.pending fd = fun _ => none

instance (fd : Int) (s : Server) : Decidable (s.Quiet fd) :=
  decidable_of_iff (∀ w, s.pending fd w = none) funext_iff.symm

/-- A read of `fd` comes after the reports of the reads before it. -/
def InOrder (fd : Int) (s : Server) : Action → Prop
  | .work w _ => (∃ h ∈ s.calls w, h.fd = fd ∧ h.pc = .Read) → s.Quiet fd
  | _ => True

instance (fd : Int) (s : Server) : (a : Action) → Decidable (InOrder fd s a)
  | .work w _ => inferInstanceAs (Decidable ((∃ h ∈ s.calls w, _ ∧ _) → _))
  | .arrive .. | .hangup .. | .wait .. | .accept .. | .submit | .notify .. | .spurious .. =>
      inferInstanceAs (Decidable True)

/-- The reads are reported in order, up to the one that a worker is about to report. -/
def Ordered (fd : Int) (pending : Fin threads → Option Int) (log : List Event) : Prop :=
  ∀ c ∈ latest fd (connections log),
    (pending = fun _ => none) ∧ List.Forall₂ ReportOf c.received c.reported ∨
      ∃ w n, pending = Function.update (fun _ => none) w (some n) ∧
        List.Forall₂ ReportOf c.received (c.reported ++ [n])

namespace Ordered

variable {fd : Int} {pending : Fin threads → Option Int} {log : List Event}

theorem other (ordered : Ordered fd pending log) {e : Event} (ne : fd ≠ e.fd) :
    Ordered fd pending (log ++ [e]) := by
  rw [Ordered, latest_other log ne]
  exact ordered

theorem accept : Ordered fd (fun _ => none) (log ++ [.accept fd]) := by
  intro c found
  rw [connections_accept] at found
  obtain rfl : c = .new fd := by simpa [latest, Connection.new, eq_comm] using found
  exact .inl ⟨rfl, .nil⟩

theorem handled (ordered : Ordered fd pending log) : Ordered fd pending (log ++ [.handled fd]) := by
  intro c found
  rw [latest_note log fd (e := .handled fd) rfl (by simp)] at found
  obtain ⟨before, there, rfl⟩ := Option.map_eq_some_iff.mp found
  exact ordered before there

/-- Worker `w` reads, with nothing else read and not reported. -/
theorem read (ordered : Ordered fd (fun _ => none) log) {chunk : List UInt8} {n : Int}
    (report : ReportOf chunk n) (w : Fin threads) :
    Ordered fd (Function.update (fun _ => none) w (some n)) (log ++ [.read fd chunk]) := by
  intro c found
  rw [latest_note log fd (e := .read fd chunk) rfl (by simp)] at found
  obtain ⟨before, there, rfl⟩ := Option.map_eq_some_iff.mp found
  refine .inr ⟨w, n, rfl, ?_⟩
  rcases ordered before there with ⟨-, reports⟩ | ⟨v, m, same, -⟩
  · exact List.rel_append reports (.cons report .nil)
  · have some := congrFun same v
    simp at some

/-- It reports what it has read. -/
theorem report (ordered : Ordered fd pending log) {w : Fin threads} {n : Int}
    (mine : pending w = some n) :
    Ordered fd (Function.update pending w none) (log ++ [.report fd n]) := by
  intro c found
  rw [latest_note log fd (e := .report fd n) rfl (by simp)] at found
  obtain ⟨before, there, rfl⟩ := Option.map_eq_some_iff.mp found
  rcases ordered before there with ⟨none, -⟩ | ⟨v, m, same, reports⟩
  · rw [none] at mine
    cases mine
  · rw [same] at mine ⊢
    by_cases here : w = v
    · subst here
      obtain rfl : m = n := by simpa using mine
      exact .inl ⟨by simp, reports⟩
    · simp [here] at mine

end Ordered

theorem pending_of_call {fd : Int} {w : Fin threads} {h : DoUseFd} (call : s.calls w = some h) :
    s.pending fd w = h.pending fd := by
  rw [pending, call, Option.bind_some]

/-- Worker `w` gets to `call`. -/
theorem pending_update (fd : Int) (w : Fin threads) (call : Option DoUseFd) {t : Server}
    (calls : t.calls = Function.update s.calls w call) :
    t.pending fd = Function.update (s.pending fd) w (call.bind (DoUseFd.pending fd)) := by
  funext v
  by_cases same : v = w
  · subst same
    simp [pending, calls]
  · simp [pending, calls, same]

/-- Neither before nor after it has anything to report of `fd`. -/
theorem pending_kept {fd : Int} {w : Fin threads} {call : Option DoUseFd} {t : Server}
    (calls : t.calls = Function.update s.calls w call) (before : s.pending fd w = none)
    (after : call.bind (DoUseFd.pending fd) = none) : t.pending fd = s.pending fd := by
  rw [pending_update fd w call calls, after, ← before, Function.update_eq_self]

/-- What the reports rest on: the connections are watched, none is closed, so none has
the descriptor of another, and `fd` is reported in order. -/
structure Orderly (listenfd fd : Int) (s : Server) : Prop where
  inv : Inv listenfd s
  attended : Pool.State.Attended s
  unclosed : Pool.Unclosed (connections s.log)
  distinct : ((connections s.log).map Connection.fd).Nodup
  ordered : Ordered fd (s.pending fd) s.log

namespace Orderly

variable {fd : Int}

theorem start : Orderly listenfd fd Server.start where
  inv := start_inv
  attended := Pool.State.start_attended
  unclosed := by simp [Server.start, Pool.State.start, Pool.Unclosed]
  distinct := by simp [Server.start, Pool.State.start]
  ordered := by simp [Server.start, Pool.State.start, Ordered, latest]

/-- What `Accept` returns belongs to no connection: it would be open. -/
theorem not_known (orderly : Orderly listenfd fd s) {connfd : Int}
    (fresh : Fresh listenfd connfd s.log) : ¬ Known s.log connfd := by
  rintro ⟨c, found⟩
  exact fresh.2.2 ⟨c, found, orderly.unclosed c (List.mem_of_find?_eq_some found)⟩

/-- Nobody has read from what is not accepted. -/
theorem quiet_of_not_known (orderly : Orderly listenfd fd s) (unknown : ¬ Known s.log fd) :
    s.Quiet fd := by
  funext w
  cases call : s.calls w with
  | none => rw [pending, call, Option.bind_none]
  | some h =>
      have known : Known s.log h.fd := orderly.inv.serves.calls w h call
      have ne : h.fd ≠ fd := fun same => unknown (same ▸ known)
      rw [pending_of_call call, DoUseFd.pending]
      split
      · rw [if_neg ne]
      · rfl

theorem accept (orderly : Orderly listenfd fd s) {connfd : Int}
    (fresh : Fresh listenfd connfd s.log) :
    ((connections (s.log ++ [.accept connfd])).map Connection.fd).Nodup ∧
      Ordered fd (s.pending fd) (s.log ++ [.accept connfd]) := by
  have unknown := orderly.not_known fresh
  constructor
  · rw [connections_accept, List.map_cons, List.nodup_cons]
    refine ⟨fun member => ?_, orderly.distinct⟩
    obtain ⟨c, there, rfl⟩ := List.mem_map.mp member
    exact unknown (known_of_mem there)
  · by_cases same : fd = connfd
    · subst same
      rw [orderly.quiet_of_not_known unknown]
      exact .accept
    · exact orderly.ordered.other same

/-- A statement of `DoUseFd`: worker `w` reads, reports what it has read, or returns. -/
theorem work (orderly : Orderly listenfd fd s) {w : Fin threads} {e : Answers}
    (inOrder : InOrder fd s (.work w e)) (worked : s.Worked doUseFd e w (.ok s')) :
    (connections s'.log).map Connection.fd = (connections s.log).map Connection.fd ∧
      Ordered fd (s'.pending fd) s'.log := by
  have ordered := orderly.ordered
  cases worked with
  | pool => exact ⟨rfl, ordered⟩
  | @enter _ connfd called =>
      have idle : s.calls w = none := by
        by_contra call
        rw [orderly.attended w call] at called
        cases called
      have before : s.pending fd w = none := by rw [pending, idle, Option.bind_none]
      refine ⟨rfl, ?_⟩
      rw [pending_kept rfl before rfl]
      exact ordered
  | @moved h h' main event running call step =>
      have mine : s.pending fd w = h.pending fd := pending_of_call call
      cases DoUseFd.stepped_of_step step with
      | @read socket pc =>
          refine ⟨map_fd_note _ (by simp), ?_⟩
          by_cases same : h.fd = fd
          · subst same
            rw [inOrder ⟨h, call, rfl, pc⟩] at ordered
            rw [pending_update h.fd w _ rfl, inOrder ⟨h, call, rfl, pc⟩]
            simpa [DoUseFd.pending] using ordered.read (num_store h.buf) w
          · have before : s.pending fd w = none := by rw [mine, DoUseFd.pending, pc]
            rw [pending_kept rfl before (by simp [DoUseFd.pending, same])]
            exact ordered.other (Ne.symm same)
      | print pc =>
          refine ⟨map_fd_note _ (by simp), ?_⟩
          rw [DoUseFd.pending, pc] at mine
          by_cases same : h.fd = fd
          · subst same
            rw [pending_update h.fd w _ rfl]
            exact ordered.report (by simpa using mine)
          · rw [pending_kept rfl (by simpa [same] using mine) rfl]
            exact ordered.other (Ne.symm same)
  | @returned h main event pool running call step pooled =>
      have mine : s.pending fd w = h.pending fd := pending_of_call call
      cases DoUseFd.stepped_of_step step with
      | eof pc =>
          rw [DoUseFd.pending, pc] at mine
          refine ⟨map_fd_note _ (by simp), ?_⟩
          rw [pending_kept rfl mine rfl]
          by_cases same : fd = h.fd
          · subst same
            exact ordered.handled
          · exact ordered.other same
      | leave pc =>
          rw [DoUseFd.pending, pc] at mine
          rw [pending_kept rfl mine rfl]
          simpa using ordered

/-- A step that no call notices. -/
theorem rest (orderly : Orderly listenfd fd s) (inv : Inv listenfd s')
    (calls : s'.calls = s.calls) (pc : ∀ w, s'.pool.pc w = s.pool.pc w) (log : s'.log = s.log) :
    Orderly listenfd fd s' where
  inv := inv
  attended := fun w called => (pc w).trans (orderly.attended w (calls ▸ called))
  unclosed := log ▸ orderly.unclosed
  distinct := log ▸ orderly.distinct
  ordered := by
    have pending : s'.pending fd = s.pending fd := by
      funext w
      rw [Server.pending, calls, Server.pending]
    rw [pending, log]
    exact orderly.ordered

theorem step (orderly : Orderly listenfd fd s) (inOrder : InOrder fd s a)
    (stepped : s.Stepped listenfd a (.ok s')) : Orderly listenfd fd s' := by
  obtain ⟨inv, notes⟩ := orderly.inv.step stepped
  have acted : ∀ {act : Common.ThreadPool.Action threads Unit Int} {t : Server},
      s.act act = some t → (∀ w, act ≠ .worker w) → s'.calls = t.calls → s'.pool = t.pool →
      s'.log = t.log → Orderly listenfd fd s' := by
    intro act t step idle calls pool log
    obtain ⟨calls', -, log'⟩ := Pool.State.act_rest step
    exact orderly.rest inv (calls.trans calls')
      (fun w => pool ▸ Pool.State.act_pc idle step w) (log.trans log')
  have unclosed := notes.unclosed orderly.unclosed
  cases stepped with
  | arrive => exact orderly.rest inv rfl (fun _ => rfl) rfl
  | hangup => exact orderly.rest inv rfl (fun _ => rfl) rfl
  | waited => exact orderly.rest inv rfl (fun _ => rfl) rfl
  | accepted here fresh =>
      obtain ⟨distinct, ordered⟩ := orderly.accept fresh
      exact ⟨inv, orderly.attended, unclosed, distinct, ordered⟩
  | submitted here ne act => exact acted act (by simp) rfl rfl rfl
  | notified act => exact acted act (by simp) rfl rfl rfl
  | woke act => exact acted act (by simp) rfl rfl rfl
  | worked worked =>
      obtain ⟨distinct, ordered⟩ := orderly.work inOrder worked
      exact ⟨inv, orderly.attended.work worked s' rfl, unclosed, distinct ▸ orderly.distinct,
        ordered⟩

theorem run {x : Except Ended Server} (orderly : Running (Orderly listenfd fd) x)
    {as : List Action} (run : (system listenfd).run x as = some (.ok s))
    (inOrder : (system listenfd).Steps (Turns (InOrder fd)) x as) : Orderly listenfd fd s := by
  induction as generalizing x with
  | nil =>
      cases run
      exact orderly s rfl
  | cons a as ih =>
      obtain ⟨x', step, rest⟩ := System.run_cons_some run
      refine ih ?_ rest (inOrder.2 x' step)
      rintro s' rfl
      obtain ⟨t, rfl, stepped⟩ := live_cases step
      exact (orderly t rfl).step (turns_ok.mp inOrder.1) (stepped_of_step stepped)

/-- The reads of `fd` are reported as they were made, but for at most the last. -/
theorem reports (orderly : Orderly listenfd fd s) {c : Connection}
    (member : c ∈ connections s.log) (here : c.fd = fd) :
    ∃ rest, List.Forall₂ ReportOf c.received (c.reported ++ rest) ∧ (s.Quiet fd → rest = []) := by
  subst here
  rcases orderly.ordered c (latest_of_mem orderly.distinct member) with
    ⟨-, reports⟩ | ⟨w, n, same, reports⟩
  · exact ⟨[], by simpa using reports, fun _ => rfl⟩
  · refine ⟨[n], reports, fun quiet => ?_⟩
    have none := congrFun (quiet.symm.trans same) w
    simp at none

/-- Where every read returned one value, the values are delivered in order. -/
theorem delivers (orderly : Orderly listenfd fd s) {c : Connection}
    (member : c ∈ connections s.log) (here : c.fd = fd)
    (messages : ∀ chunk ∈ c.received, Message chunk) :
    Delivering c ∧ (s.Quiet fd → Delivers c) := by
  obtain ⟨rest, reports, none⟩ := orderly.reports member here
  refine ⟨fun vs all => ?_, fun quiet vs all => ?_⟩
  · exact ⟨rest, delivered reports messages all⟩
  · obtain rfl := none quiet
    simpa using delivered reports messages all

end Orderly

end Server

end EPollServer

/-! ## What is delivered -/

/-- One value, as the kernel hands it out in one read. -/
def one : Chunk := ⟨sent [1], by decide⟩

/-- A turn in which only `client[0]`, which is 4, is ready. -/
def SelectServer.Server.reads (chunk : Chunk) : SelectServer.Answers where
  nready := 1
  rset := {4}
  accept := .error 11
  read := fun _ => .ok chunk
  close := fun _ => .ok ()

/-- A turn in which only `client[1]` is ready. -/
def PollServer.Server.reads (chunk : Chunk) : PollServer.Answers where
  poll := .ready 1 fun i => if i = 1 then PollServer.POLLRDNORM else 0
  accept := .error 11
  read := fun _ => .ok chunk
  close := fun _ => .ok ()

/-- Worker 0 has got so far with the value 1 of a client. -/
def EPollServer.Server.receives (n : Nat) : List EPollServer.Action :=
  [.wait (.ok [3]), .accept (.ok 4) (sent [1]) (.ok ()), .wait (.ok [4]), .submit, .notify none] ++
    List.replicate n (.work 0 ⟨fun _ => 0, none⟩)

/-- Worker 1 has got so far with the value 2 of that client. -/
def EPollServer.Server.receivesMore (n : Nat) : List EPollServer.Action :=
  [.arrive 4 (sent [2]), .wait (.ok [4]), .submit, .notify none] ++
    List.replicate n (.work 1 ⟨fun _ => 0, none⟩)

theorem PollServer.Server.iteration_reads {listenfd : Int} {s : PollServer.Server} (chunk : Chunk)
    {listener entry : PollServer.Pollfd} (first : s.client[0]? = some listener)
    (here : s.client[1]? = some entry) (nonneg : 0 ≤ entry.fd) (maxi : s.maxi = 1)
    (some : chunk.bytes ≠ []) :
    ∃ s', s.iteration listenfd (reads chunk) = .ok s' ∧ s'.log = s.log ++
      [.read entry.fd chunk.bytes, .report entry.fd (num (s.buf.store 0 chunk.bytes))] := by
  have listens : ¬ (s.poll (reads chunk).poll).2.ListenerReady := by
    simp [ListenerReady, Server.poll, reads, first, maxi]
  have quiet : ¬ (loop listenfd (reads chunk)).listening (s.poll (reads chunk).poll).2 = true :=
    fun ready => listens (of_decide_eq_true ready)
  have entry' : (s.poll (reads chunk).poll).2.client[1]? =
      .some { entry with revents := PollServer.POLLRDNORM } := by
    simp [Server.poll, reads, here, maxi]
  have count : (s.poll (reads chunk).poll).2.maxi.toNat = 1 := by
    simp [(poll_rest _ s).1, maxi]
  have ready : PollServer.POLLRDNORM &&& (PollServer.POLLRDNORM ||| PollServer.POLLERR) ≠ 0 := by
    decide
  have apart : ¬ entry.fd < 0 := by omega
  obtain ⟨t, read, log⟩ : ∃ t, ((s.poll (reads chunk).poll).2.readClient (reads chunk) 1
      { entry with revents := PollServer.POLLRDNORM }).result = .ok t ∧ t.log = s.log ++
        [.read entry.fd chunk.bytes, .report entry.fd (num (s.buf.store 0 chunk.bytes))] :=
    ⟨_, congrArg Sweep.Traced.result (if_neg some), rfl⟩
  refine ⟨t, ?_, log⟩
  rw [iteration, iterationCalls]
  dsimp only
  rw [EventLoop.turn, if_neg quiet, EventLoop.scanClients]
  simp only [loop, count, EventLoop.scan, entry', if_neg apart, if_pos (decide_eq_true ready)]
  rw [Sweep.Traced.bind_ok read]
  rfl

/-- A client connects and sends its value. -/
theorem PollServer.Server.run_reads :
    ∃ s, (PollServer.system 3).run (.ok (start 3 (fun _ => ⟨0, 0, 0⟩) fun _ => 0))
      [connects 4, reads one] = some (.ok s) ∧
      s.log = [.accept 4, .read 4 one.bytes, .report 4 1] := by
  obtain ⟨t, connected, table⟩ := exists_ok_of_map
    (show ((start 3 (fun _ => ⟨0, 0, 0⟩) fun _ => 0).iteration 3 (connects 4)).map
      (fun s => (s.client[0]?, s.client[1]?, s.maxi, s.log)) =
        .ok (some ⟨3, 64, 64⟩, some ⟨4, 64, 0⟩, 1, [.accept 4]) by decide +kernel)
  simp only [Prod.mk.injEq] at table
  obtain ⟨listener, entry, maxi, log⟩ := table
  obtain ⟨s, turned, log'⟩ := iteration_reads one listener entry (by decide) maxi (by decide)
  have permits : (start 3 (fun _ => ⟨0, 0, 0⟩) fun _ => 0).Permits 3 (connects 4) :=
    permits_connects (by decide) (by decide) (by simp [start, Opened, latest])
  have permits' : t.Permits 3 (reads one) := fun _ same => by cases same
  refine ⟨s, ?_, ?_⟩
  · rw [System.run_cons, step_of_permits permits, connected, Option.bind_some, System.run_cons,
      step_of_permits permits', turned]
    rfl
  · have number : num (t.buf.store 0 one.bytes) = 1 := num_store t.buf rfl
    rw [log', log, number]
    rfl

/-- **When the event loops report exactly the values sent**: where every read returns one
value that an `int` can hold, and, for `EPollServer`, where no connection is read before
what was read of it is reported, its end of file included. -/
theorem servers_deliver (listenfd : Int) :
    (∀ s, (SelectServer.system listenfd).Reachable (.ok s) →
      ∀ c ∈ connections s.log, Whole c → Delivers c) ∧
    (∀ s, (PollServer.system listenfd).Reachable (.ok s) →
      ∀ c ∈ connections s.log, Whole c → Delivers c) ∧
    ∀ as s, (EPollServer.system listenfd).run (.ok EPollServer.Server.start) as = some (.ok s) →
      ∀ c ∈ connections s.log,
        (EPollServer.system listenfd).Steps (Turns (EPollServer.Server.InOrder c.fd))
          (.ok EPollServer.Server.start) as →
        (∀ chunk ∈ c.received, Message chunk) →
        Delivering c ∧ (s.Quiet c.fd → Delivers c) := by
  refine ⟨fun s reach c member whole => ?_, fun s reach c member whole => ?_,
    fun as s run c member inOrder messages => ?_⟩
  · exact (SelectServer.Server.reachable_reporting reach c member).delivers whole
  · exact (PollServer.Server.reachable_reporting reach c member).delivers whole
  · have orderly := EPollServer.Server.Orderly.run
      (fun s same => Except.ok.inj same ▸ .start) run inOrder
    exact orderly.delivers member rfl messages

theorem servers_deliver_one :
    (∃ s, (SelectServer.system 3).run (SelectServer.Server.start 3 fun _ => 0)
        [SelectServer.Server.connects 4, SelectServer.Server.reads one] = some (.ok s) ∧
      ∃ c ∈ connections s.log, c.received = [one.bytes] ∧ Delivers c) ∧
    (∃ s, (PollServer.system 3).run
        (.ok (PollServer.Server.start 3 (fun _ => ⟨0, 0, 0⟩) fun _ => 0))
        [PollServer.Server.connects 4, PollServer.Server.reads one] = some (.ok s) ∧
      ∃ c ∈ connections s.log, c.received = [one.bytes] ∧ Delivers c) ∧
    ∃ s, (EPollServer.system 3).run (.ok EPollServer.Server.start)
        (EPollServer.Server.receives 9) = some (.ok s) ∧
      ∃ c ∈ connections s.log, c.received = [one.bytes] ∧ Delivers c := by
  obtain ⟨select, poll, epoll⟩ := servers_deliver 3
  have message : Message one.bytes := ⟨rfl, by decide⟩
  have whole : Whole ⟨4, [one.bytes], [1], false, 0⟩ := by simpa [Whole] using .inr message
  have member : ∀ log, log = [.accept 4, .read 4 one.bytes, .report 4 1] →
      ⟨4, [one.bytes], [1], false, 0⟩ ∈ connections log := by
    rintro _ rfl
    exact List.mem_cons_self
  refine ⟨?_, ?_, ?_⟩
  · obtain ⟨s, run, log⟩ : ∃ s, (SelectServer.system 3).run
        (SelectServer.Server.start 3 fun _ => 0)
        [SelectServer.Server.connects 4, SelectServer.Server.reads one] = some (.ok s) ∧
        s.log = [.accept 4, .read 4 one.bytes, .report 4 1] := ⟨_, rfl, rfl⟩
    exact ⟨s, run, _, member _ log, rfl, select s (.of_run ⟨_, rfl⟩ run) _ (member _ log) whole⟩
  · obtain ⟨s, run, log⟩ := PollServer.Server.run_reads
    exact ⟨s, run, _, member _ log, rfl, poll s (.of_run ⟨_, _, rfl⟩ run) _ (member _ log) whole⟩
  · obtain ⟨s, run, log, quiet⟩ : ∃ s, (EPollServer.system 3).run (.ok EPollServer.Server.start)
        (EPollServer.Server.receives 9) = some (.ok s) ∧
        s.log = [.accept 4, .read 4 one.bytes, .report 4 1] ∧ s.Quiet 4 :=
      ⟨_, rfl, rfl, by decide⟩
    have delivers := epoll _ s run _ (member _ log) (by decide) (by simpa using message)
    exact ⟨s, run, _, member _ log, rfl, delivers.2 quiet⟩

/-- Two values come in one read; two workers have a value each, and the later reports
first. -/
theorem servers_misreport :
    (∃ s, (SelectServer.system 3).run (SelectServer.Server.start 3 fun _ => 0)
        [SelectServer.Server.connects 4, SelectServer.Server.reads ⟨sent [1, 2], by decide⟩] =
          some (.ok s) ∧ ¬ ∀ c ∈ connections s.log, Delivers c) ∧
    ∃ s, (EPollServer.system 3).run (.ok EPollServer.Server.start)
        (EPollServer.Server.receives 8 ++ EPollServer.Server.receivesMore 9 ++
          [.work 0 ⟨fun _ => 0, none⟩]) = some (.ok s) ∧
      s.Quiet 4 ∧ ¬ ∀ c ∈ connections s.log, Delivers c := by
  constructor
  · obtain ⟨s, run, log⟩ : ∃ s, (SelectServer.system 3).run
        (SelectServer.Server.start 3 fun _ => 0)
        [SelectServer.Server.connects 4, SelectServer.Server.reads ⟨sent [1, 2], by decide⟩] =
          some (.ok s) ∧ s.log = [.accept 4, .read 4 (sent [1, 2]), .report 4 1] := ⟨_, rfl, rfl⟩
    refine ⟨s, run, fun delivers => ?_⟩
    rw [log] at delivers
    have reported := delivers _ List.mem_cons_self [1, 2] rfl
    cases reported
  · obtain ⟨s, run, log, quiet⟩ : ∃ s, (EPollServer.system 3).run (.ok EPollServer.Server.start)
        (EPollServer.Server.receives 8 ++ EPollServer.Server.receivesMore 9 ++
          [.work 0 ⟨fun _ => 0, none⟩]) = some (.ok s) ∧
        s.log = [.accept 4, .read 4 (sent [1]), .read 4 (sent [2]), .report 4 2, .report 4 1] ∧
        s.Quiet 4 := ⟨_, rfl, rfl, by decide⟩
    refine ⟨s, run, quiet, fun delivers => ?_⟩
    rw [log] at delivers
    have reported := delivers _ List.mem_cons_self [1, 2] rfl
    cases reported

end Codesnip.Net
