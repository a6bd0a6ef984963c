/-
# Net.Stranded -- what `EPollServer` has stranded stays unread

A read is due only because of an edge, and only the peer raises one.  So once a connection
has unread data and no read of it is due (`Stranded`), that is so in every later state,
whatever the server, the other peers and the kernel do, until its own peer sends more or
hangs up.
-/
import Codesnip.Net.Drain

namespace Codesnip.Common.ThreadPool.State

set_option autoImplicit false
set_option linter.dupNamespace false

variable {n : Nat} {S T : Type} {s s' : State n S T} {v w : Fin n} {task : T}

/-- A worker calls only what it has dequeued. -/
def Dequeued (s : State n S T) : Prop :=
  ∀ w, s.pc w = .call → (s.workers w).dequeued = true

theorem Worked.dequeued (worked : s.Worked w s') (dequeued : s.Dequeued) : s'.Dequeued := by
  have kept : ∀ me : Worker T, (me.pc = .call → me.dequeued = true) →
      ∀ v, (s.put w me).pc v = .call → ((s.put w me).workers v).dequeued = true := by
    intro me mine v called
    by_cases same : v = w
    · subst same
      rw [put_workers_self]
      exact mine ((put_pc_self s v me).symm.trans called)
    · rw [put_workers_of_ne s same]
      exact dequeued v ((put_pc_of_ne s same me).symm.trans called)
  cases worked with
  | takeUp pc got => exact kept _ fun _ => got
  | _ => exact kept _ fun called => by cases called

/-- A step of a worker puts nothing on its way. -/
theorem Worked.awaited (worked : s.Worked w s') (awaits : s'.Awaits task) : s.Awaits task := by
  rcases awaits with member | ⟨v, carries⟩
  · cases worked with
    | missed => cases member
    | took pc queue => exact .inl (queue ▸ List.mem_cons_of_mem _ member)
    | _ => exact .inl member
  · by_cases same : v = w
    · subst same
      cases worked with
      | took pc queue =>
          obtain ⟨-, -, func⟩ := (carries_self rfl).mp carries
          obtain rfl := Option.some.inj func
          exact .inl (queue ▸ List.mem_cons_self)
      | missed pc none =>
          obtain ⟨-, dequeued, -⟩ := (carries_self rfl).mp carries
          cases dequeued
      | unlock pc => exact .inr ⟨v, by rw [pc]; rfl, ((carries_self rfl).mp carries).2⟩
      | takeUp pc got => exact .inr ⟨v, by rw [pc]; rfl, ((carries_self rfl).mp carries).2⟩
      | _ =>
          obtain ⟨carried, -⟩ := (carries_self rfl).mp carries
          cases carried
    · cases worked <;> exact .inr ⟨v, (carries_of_ne rfl same).mp carries⟩

/-- Only `Submit` does. -/
theorem Stepped.awaited [DecidableEq S] {a : Action n S T} (stepped : s.Stepped a s')
    (idle : ∀ w, a ≠ .worker w) (awaits : s'.Awaits task) :
    s.Awaits task ∨ ∃ c, a = .enqueue c task := by
  cases stepped with
  | worker => exact absurd rfl (idle _)
  | @enqueue c task' =>
      rcases awaits with member | carries
      · rcases List.mem_append.mp member with member | member
        · exact .inl (.inl member)
        · exact .inr ⟨c, by rw [List.mem_singleton.mp member]⟩
      · exact .inl (.inr carries)
  | _ => exact .inl awaits

end Codesnip.Common.ThreadPool.State

namespace Codesnip.Net.EPollServer.Server

open Codesnip.Common
open Codesnip.Theory.Transition (System)

set_option autoImplicit false
set_option linter.dupNamespace false

variable {listenfd fd : Int} {s s' t : Server} {a : Action} {w : Fin threads}

/-- Unread data of `fd` that no read is due for. -/
def Stranded (fd : Int) (s : Server) : Prop :=
  (∃ socket, s.main.sockets fd = some socket ∧ socket.unread ≠ []) ∧ ¬ Due fd s

/-- The peer of `fd` sends or hangs up. -/
def Touches (fd : Int) : Action → Prop
  | .arrive fd' _ => fd' = fd
  | .hangup fd' => fd' = fd
  | _ => False

/-- What a server keeps: a connection is watched once, and what is called is dequeued. -/
structure Tended (listenfd : Int) (s : Server) : Prop where
  inv : Inv listenfd s
  unclosed : Pool.Unclosed (connections s.log)
  watched : Watched listenfd s
  dequeued : s.pool.Dequeued

theorem Tended.start : Tended listenfd start where
  inv := start_inv
  unclosed := by simp [Server.start, Pool.State.start, Pool.Unclosed]
  watched := .start
  dequeued := fun _ called => by cases called

theorem dequeued_act {act : ThreadPool.Action threads Unit Int} (dequeued : s.pool.Dequeued)
    (step : s.act act = some t) (idle : ∀ w, act ≠ .worker w) : t.pool.Dequeued := by
  obtain ⟨pool, stepped, rfl⟩ := Option.map_eq_some_iff.mp step
  cases ThreadPool.State.stepped_of_step stepped with
  | worker => exact absurd rfl (idle _)
  | _ => exact dequeued

theorem Tended.step (tended : Tended listenfd s) (stepped : s.Stepped listenfd a (.ok s')) :
    Tended listenfd s' := by
  obtain ⟨inv, notes⟩ := tended.inv.step stepped
  refine ⟨inv, notes.unclosed tended.unclosed, tended.watched.step stepped, ?_⟩
  cases stepped with
  | @submitted _ _ t _ _ act =>
      have kept : t.pool.Dequeued := dequeued_act tended.dequeued act (by simp)
      exact kept
  | notified act => exact dequeued_act tended.dequeued act (by simp)
  | woke act => exact dequeued_act tended.dequeued act (by simp)
  | worked worked =>
      cases worked with
      | pool _ step =>
          exact (ThreadPool.State.worked_of_operatorCall step).dequeued tended.dequeued
      | enter _ _ step =>
          exact (ThreadPool.State.worked_of_operatorCall step).dequeued tended.dequeued
      | moved => exact tended.dequeued
      | returned _ _ _ step =>
          exact (ThreadPool.State.worked_of_operatorCall step).dequeued tended.dequeued
  | _ => exact tended.dequeued

/-! ## No step makes a read due -/

theorem Stranded.keep (stranded : Stranded fd s) (main : t.main = s.main)
    (before : Due fd t → Due fd s) : Stranded fd t :=
  ⟨main ▸ stranded.1, fun due => stranded.2 (before due)⟩

/-- What is put in for another connection, with at most the events there were. -/
theorem Stranded.put {socket : Socket} {fd' : Int} {events : List Int} {log : List Event}
    (stranded : Stranded fd s) (ne : fd ≠ fd') (fewer : ∀ fd ∈ events, fd ∈ s.main.events) :
    Stranded fd { s with main := { s.main with events }.put fd' socket, log } := by
  obtain ⟨⟨socket', found, some⟩, idle⟩ := stranded
  have same : ({ s.main with events }.put fd' socket).sockets fd = s.main.sockets fd :=
    Function.update_of_ne ne ..
  refine ⟨⟨socket', same.trans found, some⟩, fun due => idle ?_⟩
  cases due with
  | ready found ready => exact .ready (same.symm.trans found) ready
  | event member => exact .event (fewer fd member)
  | task awaits => exact .task awaits
  | call call here pc => exact .call call here pc

theorem Stranded.wait {fds : List Int} (stranded : Stranded fd s)
    (listener : s.main.sockets listenfd = none) (reports : s.Reports listenfd fds) :
    Stranded fd { s with main := s.main.report fds } := by
  obtain ⟨⟨socket, found, some⟩, idle⟩ := stranded
  have quiet : fd ∉ fds := fun member => by
    have ne : fd ≠ listenfd := fun same => by
      rw [same, listener] at found
      cases found
    obtain ⟨socket', found', ready⟩ := reports.2.2.2 fd member ne
    exact idle (.ready found' ready)
  have same : (s.main.report fds).sockets fd = s.main.sockets fd := if_neg quiet
  refine ⟨⟨socket, same.trans found, some⟩, fun due => ?_⟩
  cases due with
  | ready found' ready => exact idle (.ready (same.symm.trans found') ready)
  | event member => exact quiet member
  | task awaits => exact idle (.task awaits)
  | call call here pc => exact idle (.call call here pc)

/-- What `Accept` returns is no connection that is there. -/
theorem Tended.ne_of_fresh {connfd : Int} {socket : Socket} (tended : Tended listenfd s)
    (fresh : Fresh listenfd connfd s.log) (found : s.main.sockets fd = some socket) :
    fd ≠ connfd := by
  rintro rfl
  obtain ⟨c, known⟩ := tended.inv.sockets fd socket found
  exact fresh.2.2 ⟨c, known, tended.unclosed c (List.mem_of_find?_eq_some known)⟩

theorem Stranded.act {act : ThreadPool.Action threads Unit Int} (stranded : Stranded fd s)
    (step : s.act act = some t) (idle : ∀ w, act ≠ .worker w) (other : ∀ c, act ≠ .enqueue c fd) :
    Stranded fd t := by
  obtain ⟨pool, stepped, rfl⟩ := Option.map_eq_some_iff.mp step
  have stepped := ThreadPool.State.stepped_of_step stepped
  refine stranded.keep rfl fun due => ?_
  cases due with
  | ready found ready => exact .ready found ready
  | event member => exact .event member
  | task awaits =>
      rcases stepped.awaited idle awaits with awaits | ⟨c, same⟩
      · exact .task awaits
      · exact absurd same (other c)
  | call call here pc => exact .call call here pc

/-- The events that are left are fewer. -/
theorem Stranded.events {events : List Int} (stranded : Stranded fd s)
    (fewer : ∀ fd ∈ events, fd ∈ s.main.events) :
    Stranded fd { s with main := { s.main with events } } := by
  refine ⟨stranded.1, fun due => stranded.2 ?_⟩
  cases due with
  | ready found ready => exact .ready found ready
  | event member => exact .event (fewer fd member)
  | task awaits => exact .task awaits
  | call call here pc => exact .call call here pc

/-- What a step of worker `w` makes due is its own call. -/
theorem Due.before (due : Due fd t) (main : t.main = s.main)
    (awaits : t.pool.Awaits fd → s.pool.Awaits fd) {call : Option DoUseFd}
    (calls : t.calls = Function.update s.calls w call)
    (own : ∀ h, call = some h → h.fd = fd → h.pc = .Read → Due fd s) : Due fd s := by
  cases due with
  | ready found ready => exact .ready (main ▸ found) ready
  | event member => exact .event (main ▸ member)
  | task waiting => exact .task (awaits waiting)
  | @call v h there here pc =>
      rw [calls] at there
      by_cases same : v = w
      · subst same
        rw [Function.update_self] at there
        exact own h there here pc
      · rw [Function.update_of_ne same] at there
        exact .call there here pc

theorem Stranded.outside {e : Answers} (tended : Tended listenfd s) (stranded : Stranded fd s)
    (idle : s.calls w = none) (work : s.work doUseFd e w = some (.ok s')) : Stranded fd s' := by
  have calls : s.calls = Function.update s.calls w none := by rw [← idle, Function.update_eq_self]
  obtain ⟨pool, step, kind⟩ := Pool.State.work_outside idle work
  have worked := ThreadPool.State.worked_of_operatorCall step
  rcases kind with ⟨-, same⟩ | ⟨called, fd', func, same⟩
  · cases same
    exact stranded.keep rfl fun due => due.before rfl worked.awaited calls (by simp)
  · cases same
    refine stranded.keep rfl fun due => due.before rfl worked.awaited rfl fun h call here _ => ?_
    obtain rfl := Option.some.inj call
    -- The task was called because it was on its way.
    refine .task (.inr ⟨w, ?_, tended.dequeued w called, func.trans (congrArg some here)⟩)
    rw [called]
    rfl

theorem Stranded.inside {h : DoUseFd} {e : Answers} (stranded : Stranded fd s)
    (call : s.calls w = some h) (running : s.pool.pc w = .running)
    (work : s.work doUseFd e w = some (.ok s')) : Stranded fd s' := by
  rcases Pool.State.work_inside running call work with
    ⟨main, event, h', step, rfl⟩ | ⟨main, event, pool, step, pooled, rfl⟩
  · cases DoUseFd.stepped_of_step step with
    | read pc found =>
        have ne : fd ≠ h.fd := fun same => stranded.2 (.call call same.symm pc)
        obtain ⟨⟨socket, here, some⟩, idle⟩ := stranded
        refine ⟨⟨socket, (Function.update_of_ne ne ..).trans here, some⟩, fun due => idle ?_⟩
        have rest := (due_read found (by simp) _).mp due
        exact rest.before rfl id rfl (by simp)
    | print =>
        refine stranded.keep rfl fun due => due.before rfl id rfl fun h₁ call₁ _ pc => ?_
        cases call₁
        cases pc
  · have worked := ThreadPool.State.worked_of_operatorCall pooled
    cases DoUseFd.stepped_of_step step <;>
      exact stranded.keep rfl fun due => due.before rfl worked.awaited rfl (by simp)

/-- **What is stranded stays so** in every step but those of its peer. -/
theorem Stranded.step (tended : Tended listenfd s) (stranded : Stranded fd s)
    (apart : ¬ Touches fd a) (step : s.step listenfd a = some (.ok s')) : Stranded fd s' := by
  cases stepped_of_step step with
  | arrive => exact stranded.put (fun same => apart same.symm) fun _ => id
  | hangup => exact stranded.put (fun same => apart same.symm) fun _ => id
  | waited reports => exact stranded.wait tended.watched.listener reports
  | @accepted connfd _ events here fresh =>
      obtain ⟨socket, found, -⟩ := stranded.1
      exact stranded.put (tended.ne_of_fresh fresh found) fun fd member =>
        here ▸ List.mem_cons_of_mem listenfd member
  | @submitted fd' events t here ne act =>
      have other : fd' ≠ fd := by
        rintro rfl
        exact stranded.2 (.event (by simp [here]))
      refine (stranded.act act (by simp) (by simp [other])).events fun fd member => ?_
      rw [(Pool.State.act_rest act).2.1, here]
      exact List.mem_cons_of_mem fd' member
  | notified act => exact stranded.act act (by simp) (by simp)
  | woke act => exact stranded.act act (by simp) (by simp)
  | @worked w =>
      cases call : s.calls w with
      | none => exact stranded.outside tended call step
      | some h => exact stranded.inside call (tended.watched.running call) step

theorem tended_of_reachable (reach : (system listenfd).Reachable (.ok s)) :
    Tended listenfd s := by
  have running : Running (Tended listenfd) (.ok s) := by
    refine reach.induct ?_ ?_
    · rintro _ rfl t same
      obtain rfl := Except.ok.inj same
      exact .start
    · rintro x a x' tended step s' rfl
      obtain ⟨s, rfl, stepped⟩ := live_cases step
      exact (tended s rfl).step (stepped_of_step stepped)
  exact running s rfl

/-- A read that strands something leaves a connection stranded. -/
theorem Strands.stranded (watched : Watched listenfd s) (strands : s.Strands a)
    (step : s.step listenfd a = some (.ok s')) : ∃ fd, Stranded fd s' := by
  cases a with
  | work w e =>
      obtain ⟨-, h, call, pc, ⟨socket, found, long⟩, alone⟩ := strands
      rcases Pool.State.work_inside (watched.running call) call step with
        ⟨main, event, h', moved, rfl⟩ | ⟨main, event, pool, moved, -, -⟩
      · cases DoUseFd.stepped_of_step moved with
        | read _ found' =>
            obtain rfl := Option.some.inj (found.symm.trans found')
            have left : socket.unread.drop 1024 ≠ [] :=
              mt List.drop_eq_nil_iff.mp (Nat.not_le_of_lt long)
            refine ⟨h.fd, ⟨_, Function.update_self .., left⟩, fun due => alone ?_⟩
            exact (due_read found (by simp) _).mp due
        | print printing =>
            rw [pc] at printing
            cases printing
      · cases DoUseFd.stepped_of_step moved with
        | eof leaving =>
            rw [pc] at leaving
            cases leaving
        | leave leaving =>
            rw [pc] at leaving
            cases leaving
  | _ => exact strands.elim

/-- **What a read has stranded stays unread** until its peer does something, whatever else
happens. -/
theorem stays_unread (reach : (system listenfd).Reachable (.ok s)) (strands : s.Strands a)
    (step : s.step listenfd a = some (.ok s')) :
    ∃ fd, ∀ as t, (system listenfd).run (.ok s') as = some (.ok t) →
      (∀ a ∈ as, ¬ Touches fd a) → ¬ t.Drained := by
  have tended := tended_of_reachable reach
  obtain ⟨fd, stranded⟩ := strands.stranded tended.watched step
  refine ⟨fd, fun as t run apart drained => ?_⟩
  have running : Running (fun t => Tended listenfd t ∧ Stranded fd t) (.ok t) := by
    refine (System.Reaches.of_run apart run).induct ?_ ?_
    · rintro t same
      obtain rfl := Except.ok.inj same
      exact ⟨tended.step (stepped_of_step step), stranded⟩
    · rintro x a x' kept apart step t rfl
      obtain ⟨s, rfl, stepped⟩ := live_cases step
      obtain ⟨tended, stranded⟩ := kept s rfl
      exact ⟨tended.step (stepped_of_step stepped), stranded.step tended apart stepped⟩
  obtain ⟨-, ⟨socket, found, some⟩, -⟩ := running t rfl
  exact some (drained fd socket found)

end Codesnip.Net.EPollServer.Server
