/-
# Net.Pool -- a server whose handlers run in a `ThreadPool`

The server is the pool of `common/threadpool.h` with descriptors as tasks, the calls its
workers are in, and the main thread, which alone submits.  A worker moves as in the pool;
between its call of `func` and the return it moves through the `Handler` instead, one
statement that others can notice at a time.

`Serves P`: what the main thread submits is what the handlers are called with, so `P`
holds of every descriptor in the queue, with a worker or with a handler.
-/
import Codesnip.Common.ThreadPool
import Codesnip.Net.Connection

namespace Codesnip.Net.Pool

open Codesnip.Common

set_option autoImplicit false
set_option linter.dupNamespace false

/-- What a handler's statement leaves: the main thread's data and the kernel's, what is
logged, and the rest of the call, if it has not returned. -/
structure Moved (M H : Type) where
  main : M
  event : Option Event
  next : Option H

/-- A function of one descriptor.  `E` is what the kernel and the memory answer. -/
structure Handler (M H E : Type) where
  fd : H → Int
  enter : E → Int → M → H
  step : E → H → M → Option (Except Ended (Moved M H))
  fd_enter : ∀ e connfd main, fd (enter e connfd main) = connfd
  fd_step : ∀ e h main moved, step e h main = some (.ok moved) →
    (∀ h' ∈ moved.next, fd h' = fd h) ∧ ∀ event ∈ moved.event, event.fd = fd h

structure State (n : Nat) (M H : Type) where
  pool : ThreadPool.State n Unit Int
  calls : Fin n → Option H
  main : M
  log : List Event

namespace State

variable {n : Nat} {M H E : Type}

def start (n : Nat) (H : Type) (main : M) : State n M H :=
  { pool := .start n Unit Int
    calls := fun _ => none
    main
    log := [] }

/-- The handler of worker `w` goes on. -/
def handle (hd : Handler M H E) (e : E) (w : Fin n) (h : H) (s : State n M H) :
    Option (Except Ended (State n M H)) :=
  match hd.step e h s.main with
  | none => none
  | some (.error ended) => some (.error ended)
  | some (.ok moved) =>
      match moved.next with
      | some h =>
          some (.ok { s with
            calls := Function.update s.calls w (some h)
            main := moved.main
            log := s.log ++ moved.event.toList })
      | none =>
          (s.pool.operatorCall w).map fun pool =>
            .ok
              { pool
                calls := Function.update s.calls w none
                main := moved.main
                log := s.log ++ moved.event.toList }

/-- The next step of worker `w`. -/
def work (hd : Handler M H E) (e : E) (w : Fin n) (s : State n M H) :
    Option (Except Ended (State n M H)) :=
  match s.pool.pc w with
  | .running => (s.calls w).bind fun h => s.handle hd e w h
  | .call =>
      (s.pool.workers w).func.bind fun fd => (s.pool.operatorCall w).map fun pool =>
        .ok { s with
          pool
          calls := Function.update s.calls w (some (hd.enter e fd s.main)) }
  | _ => (s.pool.operatorCall w).map fun pool => .ok { s with pool }

/-- The steps of `Submit` and the spurious wakeups are the pool's. -/
def act (a : ThreadPool.Action n Unit Int) (s : State n M H) : Option (State n M H) :=
  (s.pool.step a).map fun pool => { s with pool }

/-! ## What a worker's step can be -/

inductive Worked (hd : Handler M H E) (e : E) (w : Fin n) (s : State n M H) :
    Except Ended (State n M H) → Prop where
  | pool {pool : ThreadPool.State n Unit Int} (idle : s.pool.pc w ≠ .running)
      (step : s.pool.operatorCall w = some pool) : Worked hd e w s (.ok { s with pool })
  | enter {pool : ThreadPool.State n Unit Int} {fd : Int} (called : s.pool.pc w = .call)
      (func : (s.pool.workers w).func = some fd) (step : s.pool.operatorCall w = some pool) :
      Worked hd e w s (.ok { s with
        pool
        calls := Function.update s.calls w (some (hd.enter e fd s.main)) })
  | ended {h : H} {ended : Ended} (call : s.calls w = some h)
      (step : hd.step e h s.main = some (.error ended)) : Worked hd e w s (.error ended)
  | moved {h h' : H} {main : M} {event : Option Event} (running : s.pool.pc w = .running)
      (call : s.calls w = some h) (step : hd.step e h s.main = some (.ok ⟨main, event, some h'⟩)) :
      Worked hd e w s (.ok { s with
        calls := Function.update s.calls w (some h')
        main
        log := s.log ++ event.toList })
  | returned {h : H} {main : M} {event : Option Event} {pool : ThreadPool.State n Unit Int}
      (running : s.pool.pc w = .running) (call : s.calls w = some h)
      (step : hd.step e h s.main = some (.ok ⟨main, event, none⟩))
      (pooled : s.pool.operatorCall w = some pool) :
      Worked hd e w s (.ok
        { pool
          calls := Function.update s.calls w none
          main
          log := s.log ++ event.toList })

theorem worked_of_work {hd : Handler M H E} {e : E} {w : Fin n} {s : State n M H}
    {x : Except Ended (State n M H)} (work : s.work hd e w = some x) : s.Worked hd e w x := by
  unfold State.work at work
  split at work
  · rename_i running
    obtain ⟨h, call, handled⟩ := Option.bind_eq_some_iff.mp work
    unfold handle at handled
    split at handled
    · cases handled
    · rename_i ended step
      cases handled
      exact .ended call step
    · rename_i moved step
      obtain ⟨main, event, next⟩ := moved
      cases next with
      | some h' =>
          cases handled
          exact .moved running call step
      | none =>
          obtain ⟨pool, pooled, rfl⟩ := Option.map_eq_some_iff.mp handled
          exact .returned running call step pooled
  · rename_i called
    obtain ⟨fd, func, entered⟩ := Option.bind_eq_some_iff.mp work
    obtain ⟨pool, pooled, rfl⟩ := Option.map_eq_some_iff.mp entered
    exact .enter called func pooled
  · rename_i idle _
    obtain ⟨pool, pooled, rfl⟩ := Option.map_eq_some_iff.mp work
    exact .pool idle pooled

/-- A worker that is in no call moves in the pool, or calls `func`. -/
theorem work_outside {hd : Handler M H E} {e : E} {w : Fin n} {s : State n M H}
    {x : Except Ended (State n M H)} (idle : s.calls w = none) (work : s.work hd e w = some x) :
    ∃ pool, s.pool.operatorCall w = some pool ∧
      (s.pool.pc w ≠ .call ∧ x = .ok { s with pool } ∨
        s.pool.pc w = .call ∧ ∃ fd, (s.pool.workers w).func = some fd ∧ x = .ok { s with
          pool
          calls := Function.update s.calls w (some (hd.enter e fd s.main)) }) := by
  unfold State.work at work
  split at work
  · rw [idle] at work
    cases work
  · rename_i called
    obtain ⟨fd, func, entered⟩ := Option.bind_eq_some_iff.mp work
    obtain ⟨pool, pooled, rfl⟩ := Option.map_eq_some_iff.mp entered
    exact ⟨pool, pooled, .inr ⟨called, fd, func, rfl⟩⟩
  · rename_i ne
    obtain ⟨pool, pooled, rfl⟩ := Option.map_eq_some_iff.mp work
    exact ⟨pool, pooled, .inl ⟨ne, rfl⟩⟩

/-- A worker that is in a call goes on in it. -/
theorem work_inside {hd : Handler M H E} {e : E} {w : Fin n} {s s' : State n M H} {h : H}
    (running : s.pool.pc w = .running) (call : s.calls w = some h)
    (work : s.work hd e w = some (.ok s')) :
    (∃ main event h', hd.step e h s.main = some (.ok ⟨main, event, some h'⟩) ∧ s' = { s with
        calls := Function.update s.calls w (some h')
        main
        log := s.log ++ event.toList }) ∨
      ∃ main event pool, hd.step e h s.main = some (.ok ⟨main, event, none⟩) ∧
        s.pool.operatorCall w = some pool ∧ s' =
          { pool
            calls := Function.update s.calls w none
            main
            log := s.log ++ event.toList } := by
  cases worked_of_work work with
  | pool idle => exact absurd running idle
  | enter called =>
      rw [running] at called
      cases called
  | moved _ there step =>
      obtain rfl := Option.some.inj (call.symm.trans there)
      exact .inl ⟨_, _, _, step, rfl⟩
  | returned _ there step pooled =>
      obtain rfl := Option.some.inj (call.symm.trans there)
      exact .inr ⟨_, _, _, step, pooled, rfl⟩

theorem Worked.log {hd : Handler M H E} {e : E} {w : Fin n} {s s' : State n M H}
    (worked : s.Worked hd e w (.ok s')) : ∃ more, s'.log = s.log ++ more := by
  cases worked with
  | moved => exact ⟨_, rfl⟩
  | returned => exact ⟨_, rfl⟩
  | _ => exact ⟨[], by simp⟩

theorem act_rest {a : ThreadPool.Action n Unit Int} {s s' : State n M H}
    (step : s.act a = some s') : s'.calls = s.calls ∧ s'.main = s.main ∧ s'.log = s.log := by
  obtain ⟨pool, -, rfl⟩ := Option.map_eq_some_iff.mp step
  exact ⟨rfl, rfl, rfl⟩

/-! ## Whose descriptors are served -/

/-- `P` of all descriptors on their way from the main thread to a handler. -/
structure Serves (hd : Handler M H E) (P : Int → Prop) (s : State n M H) : Prop where
  queue : ∀ fd ∈ s.pool.m_queue, P fd
  func : ∀ (w : Fin n) (fd : Int), (s.pool.workers w).func = some fd → P fd
  calls : ∀ (w : Fin n) (h : H), s.calls w = some h → P (hd.fd h)

namespace Serves

variable {hd : Handler M H E} {P Q : Int → Prop} {s : State n M H}

theorem mono (serves : s.Serves hd P) (weaker : ∀ fd, P fd → Q fd) : s.Serves hd Q :=
  ⟨fun fd member => weaker fd (serves.queue fd member),
    fun w fd func => weaker fd (serves.func w fd func),
    fun w h call => weaker _ (serves.calls w h call)⟩

/-- Only the pool and the calls matter. -/
theorem same {s' : State n M H} (serves : s.Serves hd P) (pool : s'.pool = s.pool)
    (calls : s'.calls = s.calls) : s'.Serves hd P :=
  ⟨pool ▸ serves.queue, pool ▸ serves.func, calls ▸ serves.calls⟩

theorem start {main : M} : (start n H main).Serves hd P :=
  ⟨by simp [State.start, ThreadPool.State.start], by simp [State.start, ThreadPool.State.start],
    by simp [State.start]⟩

theorem func_put {pool : ThreadPool.State n Unit Int} {w v : Fin n}
    {me : ThreadPool.Worker Int} {fd : Int} (here : ((pool.put w me).workers v).func = some fd) :
    me.func = some fd ∨ (pool.workers v).func = some fd := by
  by_cases same : v = w
  · subst same
    rw [ThreadPool.State.put_workers_self] at here
    exact .inl here
  · rw [ThreadPool.State.put_workers_of_ne _ same] at here
    exact .inr here

/-- A worker of the pool hands on what is in the queue. -/
theorem pooled {w : Fin n} {pool : ThreadPool.State n Unit Int} (serves : s.Serves hd P)
    (step : s.pool.operatorCall w = some pool) :
    (∀ fd ∈ pool.m_queue, P fd) ∧
      ∀ (v : Fin n) (fd : Int), (pool.workers v).func = some fd → P fd := by
  obtain ⟨queue, func, -⟩ := serves
  have kept : ∀ (me : ThreadPool.Worker Int), me.func = (s.pool.workers w).func →
      ∀ v fd, ((s.pool.put w me).workers v).func = some fd → P fd := fun me same v fd here =>
    (func_put here).elim (fun own => func w fd (same ▸ own)) (func v fd)
  cases ThreadPool.State.worked_of_operatorCall step with
  | missed => exact ⟨by simp, kept _ rfl⟩
  | took pc order =>
      rw [order, List.forall_mem_cons] at queue
      refine ⟨queue.2, fun v fd here => ?_⟩
      rcases func_put here with own | other
      · exact Option.some.inj own ▸ queue.1
      · exact func v fd other
  | _ => exact ⟨queue, kept _ rfl⟩

/-- What the handlers are in the middle of, when worker `w` gets to `h`. -/
theorem update_calls {w : Fin n} {h : H} (serves : s.Serves hd P) (own : P (hd.fd h)) :
    ∀ (v : Fin n) (h' : H), Function.update s.calls w (some h) v = some h' → P (hd.fd h') := by
  intro v h' call
  by_cases same : v = w
  · subst same
    rw [Function.update_self] at call
    exact Option.some.inj call ▸ own
  · rw [Function.update_of_ne same] at call
    exact serves.calls v h' call

theorem work {e : E} {w : Fin n} {x : Except Ended (State n M H)} (serves : s.Serves hd P)
    (worked : s.Worked hd e w x) : Running (Serves hd P) x := by
  rintro s' rfl
  cases worked with
  | pool idle step =>
      obtain ⟨queue, func⟩ := serves.pooled step
      exact ⟨queue, func, serves.calls⟩
  | enter called here step =>
      obtain ⟨queue, func⟩ := serves.pooled step
      refine ⟨queue, func, serves.update_calls ?_⟩
      rw [hd.fd_enter]
      exact serves.func w _ here
  | moved running call step =>
      refine ⟨serves.queue, serves.func, serves.update_calls ?_⟩
      rw [(hd.fd_step _ _ _ _ step).1 _ rfl]
      exact serves.calls w _ call
  | returned running call step pooled =>
      obtain ⟨queue, func⟩ := serves.pooled pooled
      refine ⟨queue, func, fun v h' call' => ?_⟩
      by_cases same : v = w
      · subst same
        simp at call'
      · simp only [Function.update_of_ne same] at call'
        exact serves.calls v h' call'

/-- What is submitted is served. -/
theorem act {a : ThreadPool.Action n Unit Int} {s' : State n M H} (serves : s.Serves hd P)
    (submitted : ∀ (c : Unit) (fd : Int), a = .enqueue c fd → P fd) (idle : ∀ w, a ≠ .worker w)
    (step : s.act a = some s') : s'.Serves hd P := by
  obtain ⟨pool, stepped, rfl⟩ := Option.map_eq_some_iff.mp step
  obtain ⟨queue, func, calls⟩ := serves
  cases ThreadPool.State.stepped_of_step stepped with
  | worker => exact absurd rfl (idle _)
  | @enqueue c fd =>
      refine ⟨fun fd' member => ?_, func, calls⟩
      rcases List.mem_append.mp member with member | member
      · exact queue fd' member
      · exact List.mem_singleton.mp member ▸ submitted c fd rfl
  | _ => exact ⟨queue, func, calls⟩

end Serves

end State

/-! ## Who is in a call -/

namespace State

variable {n : Nat} {M H E : Type} {hd : Handler M H E} {s s' : State n M H}

/-- Only a worker that runs `func` is in a call. -/
def Attended (s : State n M H) : Prop := ∀ w, s.calls w ≠ none → s.pool.pc w = .running

theorem start_attended {main : M} : (start n H main).Attended := fun _ called =>
  absurd rfl called

theorem running_of_call {w : Fin n} {pool : ThreadPool.State n Unit Int}
    (called : s.pool.pc w = .call) (step : s.pool.operatorCall w = some pool) :
    pool.pc w = .running := by
  simp only [ThreadPool.State.operatorCall, show (s.pool.workers w).pc = _ from called] at step
  cases step
  simp

theorem Attended.work {e : E} {w : Fin n} {x : Except Ended (State n M H)}
    (attended : s.Attended) (worked : s.Worked hd e w x) : Running Attended x := by
  have others : ∀ {pool : ThreadPool.State n Unit Int} {v : Fin n},
      s.pool.operatorCall w = some pool → v ≠ w → s.calls v ≠ none → pool.pc v = .running :=
    fun step ne called =>
      ((ThreadPool.State.worked_of_operatorCall step).pc_of_ne ne).trans (attended _ called)
  rintro s' rfl v called
  cases worked with
  | pool idle step =>
      by_cases same : v = w
      · subst same
        exact absurd (attended v called) idle
      · exact others step same called
  | enter call func step =>
      by_cases same : v = w
      · subst same
        exact running_of_call call step
      · simp only [Function.update_of_ne same] at called
        exact others step same called
  | moved running call step =>
      by_cases same : v = w
      · subst same
        exact running
      · simp only [Function.update_of_ne same] at called
        exact attended v called
  | returned running call step pooled =>
      by_cases same : v = w
      · subst same
        simp at called
      · simp only [Function.update_of_ne same] at called
        exact others pooled same called

/-- `Submit` moves no worker. -/
theorem act_pc {a : ThreadPool.Action n Unit Int} (idle : ∀ w, a ≠ .worker w)
    (step : s.act a = some s') (w : Fin n) : s'.pool.pc w = s.pool.pc w := by
  obtain ⟨pool, stepped, rfl⟩ := Option.map_eq_some_iff.mp step
  cases ThreadPool.State.stepped_of_step stepped with
  | worker => exact absurd rfl (idle _)
  | _ => rfl

end State

/-! ## Handlers that close nothing -/

/-- Neither closes a connection nor is through with one. -/
def Plain : Event → Prop
  | .close _ | .handled _ => False
  | _ => True

/-- A step either is through with the end of file of a connection and closes nothing, or
logs at most a plain event. -/
def Notes (log log' : List Event) (finishes : Prop) : Prop :=
  finishes ∧ (∃ fd, Known log fd ∧ log' = log ++ [.handled fd]) ∨
    ¬ finishes ∧ ∃ event : Option Event, (∀ e ∈ event, Plain e) ∧ log' = log ++ event.toList

theorem Notes.nothing {log : List Event} : Notes log log False :=
  .inr ⟨id, none, by simp, by simp⟩

theorem Notes.plain (log : List Event) {e : Event} (plain : Plain e) :
    Notes log (log ++ [e]) False :=
  .inr ⟨id, some e, fun _ same => Option.some.inj same ▸ plain, rfl⟩

def Unclosed (cs : List Connection) : Prop := ∀ c ∈ cs, c.closes = 0

/-- Where nothing is closed, nothing may be dealt with. -/
theorem Unclosed.released_iff {cs : List Connection} (unclosed : Unclosed cs) :
    Released cs ↔ ∀ c ∈ cs, c.handled = false := by
  constructor
  · rintro ⟨closed, -⟩ c member
    cases handled : c.handled with
    | false => rfl
    | true =>
        have once := closed c member handled
        rw [unclosed c member] at once
        cases once
  · refine fun untouched => released_of_closed fun c member handled => ?_
    rw [untouched c member] at handled
    cases handled

theorem Unclosed.append {log : List Event} (unclosed : Unclosed (connections log)) {e : Event}
    (keeps : ∀ fd, e ≠ .close fd) : Unclosed (connections (log ++ [e])) := by
  rw [connections_append]
  cases e with
  | accept connfd => exact List.forall_mem_cons.mpr ⟨rfl, unclosed⟩
  | close fd => exact absurd rfl (keeps fd)
  | _ => exact forall_update unclosed fun c unclosed _ => unclosed

theorem untouched_append {log : List Event}
    (untouched : ∀ c ∈ connections log, c.handled = false) {e : Event} (plain : Plain e) :
    ∀ c ∈ connections (log ++ [e]), c.handled = false := by
  rw [connections_append]
  cases e with
  | accept connfd => exact List.forall_mem_cons.mpr ⟨rfl, untouched⟩
  | handled fd => cases plain
  | _ => exact forall_update untouched fun c untouched _ => untouched

/-- What is dealt with stays in the log. -/
theorem handled_append {log : List Event} {fd : Int} (known : Known log fd) :
    ∃ c ∈ connections (log ++ [.handled fd]), c.handled = true := by
  obtain ⟨c, found⟩ := known
  have found' : latest fd (connections (log ++ [.handled fd])) =
      some { c with handled := true } := by
    rw [connections_append]
    refine (latest_update fun c => c.note_fd (.handled fd)).trans ?_
    rw [found]
    rfl
  exact ⟨_, List.mem_of_find?_eq_some found', rfl⟩

theorem Notes.unclosed {log log' : List Event} {finishes : Prop} (notes : Notes log log' finishes)
    (unclosed : Unclosed (connections log)) : Unclosed (connections log') := by
  rcases notes with ⟨-, fd, -, rfl⟩ | ⟨-, event, plain, rfl⟩
  · exact unclosed.append fun _ same => by cases same
  · cases event with
    | none => simpa using unclosed
    | some e =>
        refine unclosed.append fun fd same => ?_
        subst same
        exact plain _ rfl

/-- A step keeps the descriptors released exactly if it finishes nothing. -/
theorem Notes.released_iff {log log' : List Event} {finishes : Prop}
    (notes : Notes log log' finishes) (unclosed : Unclosed (connections log))
    (released : Released (connections log)) : Released (connections log') ↔ ¬ finishes := by
  have untouched := unclosed.released_iff.mp released
  rw [(notes.unclosed unclosed).released_iff]
  rcases notes with ⟨finishes, fd, known, rfl⟩ | ⟨not, event, plain, rfl⟩
  · obtain ⟨c, member, handled⟩ := handled_append known
    refine iff_of_false (fun all => ?_) fun not => not finishes
    rw [all c member] at handled
    cases handled
  · refine iff_of_true ?_ not
    cases event with
    | none => simpa using untouched
    | some e => exact untouched_append untouched (plain e rfl)

/-- A handler that closes nothing; `eof` holds of a call that has read end of file and
returns next. -/
structure Closeless {M H E : Type} (hd : Handler M H E) (eof : H → Prop) : Prop where
  moved : ∀ {e h main main' event h'}, hd.step e h main = some (.ok ⟨main', event, some h'⟩) →
    ¬ eof h ∧ ∀ event' ∈ event, Plain event'
  returned : ∀ {e h main main' event}, hd.step e h main = some (.ok ⟨main', event, none⟩) →
    eof h ∧ event = some (.handled (hd.fd h)) ∨ ¬ eof h ∧ ∀ event' ∈ event, Plain event'
  ended : ∀ {e h main ended}, hd.step e h main = some (.error ended) →
    ¬ eof h ∧ ∃ exit, ended = .exit exit

namespace State

variable {n : Nat} {M H E : Type} {hd : Handler M H E} {eof : H → Prop} {s : State n M H}

/-- Worker `w` returns from a call that has read end of file. -/
def Finishes (eof : H → Prop) (s : State n M H) (w : Fin n) : Prop :=
  s.pool.pc w = .running ∧ ∃ h ∈ s.calls w, eof h

theorem finishes_iff {w : Fin n} {h : H} (running : s.pool.pc w = .running)
    (call : s.calls w = some h) : s.Finishes eof w ↔ eof h := by
  simp [Finishes, running, call]

theorem Worked.notes {e : E} {w : Fin n} {s' : State n M H} (worked : s.Worked hd e w (.ok s'))
    (closeless : Closeless hd eof) (serves : s.Serves hd (Known s.log)) :
    Notes s.log s'.log (s.Finishes eof w) := by
  cases worked with
  | pool idle step => exact .inr ⟨fun finishes => idle finishes.1, none, by simp, by simp⟩
  | enter called func step =>
      refine .inr ⟨fun finishes => ?_, none, by simp, by simp⟩
      rw [finishes.1] at called
      cases called
  | @moved h h' main event running call step =>
      obtain ⟨not, plain⟩ := closeless.moved step
      exact .inr ⟨mt (finishes_iff running call).mp not, event, plain, rfl⟩
  | @returned h main event pool running call step pooled =>
      rcases closeless.returned step with ⟨finishes, rfl⟩ | ⟨not, plain⟩
      · exact .inl ⟨(finishes_iff running call).mpr finishes, hd.fd h, serves.calls w h call, rfl⟩
      · exact .inr ⟨mt (finishes_iff running call).mp not, event, plain, rfl⟩

theorem Worked.ends {e : E} {w : Fin n} {ended : Ended} (worked : s.Worked hd e w (.error ended))
    (closeless : Closeless hd eof) :
    (∃ exit, ended = .exit exit) ∧ ¬ s.Finishes eof w := by
  cases worked with
  | @ended h _ call step =>
      obtain ⟨not, exit⟩ := closeless.ended step
      refine ⟨exit, ?_⟩
      rintro ⟨-, h', call', finishes⟩
      obtain rfl := Option.some.inj (call.symm.trans call')
      exact not finishes

end State

section Released

open Codesnip.Theory.Transition (System)

variable {n : Nat} {M H A : Type} {sys : System (Except Ended (State n M H)) A}
  {step : State n M H → A → Option (Except Ended (State n M H))} {Inv : State n M H → Prop}
  {Finishes : State n M H → A → Prop}

/-- **A server that closes nothing has released its descriptors exactly as long as no
handler that has read end of file finishes.** -/
theorem always_released_iff (lives : sys.step = live step)
    (keep : ∀ s a s', Inv s → step s a = some (.ok s') →
      Inv s' ∧ Notes s.log s'.log (Finishes s a))
    (ends : ∀ s a ended, Inv s → step s a = some (.error ended) →
      (∃ exit, ended = .exit exit) ∧ ¬ Finishes s a)
    {s : State n M H} (inv : Inv s) (fresh : s.log = []) {as : List A}
    {y : Except Ended (State n M H)} (run : sys.run (.ok s) as = some y) :
    sys.Always (Holds fun s => Released (connections s.log)) (.ok s) as ↔
      sys.Steps (Turns fun s a => ¬ Finishes s a) (.ok s) as := by
  refine System.always_iff_steps (Running fun s => Inv s ∧ Unclosed (connections s.log))
    ?_ ?_ ?_ ?_ run
  · rintro x a x' inv step s' rfl
    obtain ⟨s, rfl, stepped⟩ := live_cases (lives ▸ step)
    obtain ⟨inv, unclosed⟩ := inv s rfl
    obtain ⟨inv', notes⟩ := keep s a s' inv stepped
    exact ⟨inv', notes.unclosed unclosed⟩
  · intro x a x' inv released step
    obtain ⟨s, rfl, stepped⟩ := live_cases (lives ▸ step)
    obtain ⟨inv, unclosed⟩ := inv s rfl
    rw [turns_ok]
    match x' with
    | .ok s' => exact (keep s a s' inv stepped).2.released_iff unclosed released
    | .error ended =>
        obtain ⟨⟨exit, rfl⟩, not⟩ := ends s a ended inv stepped
        exact iff_of_true trivial not
  · rintro t same
    obtain rfl := Except.ok.inj same
    exact ⟨inv, by simp [fresh, Unclosed]⟩
  · simp [Holds, fresh, Released]

end Released

end Codesnip.Net.Pool
