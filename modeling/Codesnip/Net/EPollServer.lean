/-
# Net.EPollServer -- the server `network_area::EPollServer` and its handler `DoUseFd`

The main thread waits for events, accepts a connection when the listener has one, and
submits `DoUseFd` to a pool of sixteen for every other event.  Connections are watched
edge-triggered: an arrival or the peer's hangup makes a connection `ready`, whatever it
was, and `epoll_wait` takes that back when it reports the event.

`DoUseFd` reads once, up to 1024 bytes of what has arrived, and prints what is then in
its buffer, whatever the read returned.  The descriptors stay blocking (`FIONBIO` is
given the address 1): a read waits until something has arrived or the peer is gone.
Nothing closes a descriptor.
-/
import Codesnip.Net.Pool

namespace Codesnip.Net.EPollServer

open Codesnip.Common
open Codesnip.Theory
open Codesnip.Theory.Transition (System)

set_option autoImplicit false
set_option linter.dupNamespace false

def MAX_EVENTS : Nat := 10

/-- A connection in the kernel; `ready` is an edge that is not reported yet. -/
structure Socket where
  unread : List UInt8
  hungup : Bool
  ready : Bool
  deriving DecidableEq, Repr

structure Main where
  /-- `events[n]` to `events[nfds - 1]`. -/
  events : List Int
  sockets : Int → Option Socket

def Main.put (fd : Int) (socket : Socket) (main : Main) : Main :=
  { main with sockets := Function.update main.sockets fd (some socket) }

/-- `epoll_wait` reports `fds`: their edges are taken back. -/
def Main.report (fds : List Int) (main : Main) : Main where
  events := fds
  sockets := fun fd =>
    if fd ∈ fds then (main.sockets fd).map fun socket => { socket with ready := false }
    else main.sockets fd

/-- The statement of `DoUseFd` that comes next. -/
inductive Pc where
  | Read
  | printf (n : Nat)
  | leave (n : Nat)
  deriving DecidableEq, Repr

structure DoUseFd where
  fd : Int
  pc : Pc
  buf : Buffer

/-- What `buf` holds at the call of `DoUseFd`, and the errno of a read that fails. -/
structure Answers where
  memory : Buffer
  failure : Option Int32

def DoUseFd.step (h : DoUseFd) (e : Answers) (main : Main) :
    Option (Except Ended (Pool.Moved Main DoUseFd)) :=
  match h.pc with
  | .Read =>
      (main.sockets h.fd).bind fun socket =>
        match e.failure with
        | some errno => some (.error (.exit ⟨"read erro", errno⟩))
        | none =>
            if socket.unread = [] ∧ socket.hungup = false then none
            else
              let bytes := socket.unread.take 1024
              some (.ok
                { main := main.put h.fd { socket with unread := socket.unread.drop 1024 }
                  event := some (.read h.fd bytes)
                  next := some { h with pc := .printf bytes.length, buf := h.buf.store 0 bytes } })
  | .printf n =>
      some (.ok
        { main
          event := some (.report h.fd (num h.buf))
          next := some { h with pc := .leave n } })
  | .leave n =>
      some (.ok
        { main
          event := if n = 0 then some (.handled h.fd) else none
          next := none })

/-- The steps of `DoUseFd`, one for each way a statement can go. -/
inductive DoUseFd.Stepped (h : DoUseFd) (main : Main) :
    Except Ended (Pool.Moved Main DoUseFd) → Prop where
  | failed {exit : Unit.SysCallWrap.Exit} (pc : h.pc = .Read) :
      Stepped h main (.error (.exit exit))
  | read {socket : Socket} (pc : h.pc = .Read) (found : main.sockets h.fd = some socket) :
      Stepped h main
        (.ok ⟨main.put h.fd { socket with unread := socket.unread.drop 1024 },
          some (.read h.fd (socket.unread.take 1024)),
          some { h with
            pc := .printf (socket.unread.take 1024).length
            buf := h.buf.store 0 (socket.unread.take 1024) }⟩)
  | print {n : Nat} (pc : h.pc = .printf n) :
      Stepped h main
        (.ok ⟨main, some (.report h.fd (num h.buf)), some { h with pc := .leave n }⟩)
  | eof (pc : h.pc = .leave 0) : Stepped h main (.ok ⟨main, some (.handled h.fd), none⟩)
  | leave {n : Nat} (pc : h.pc = .leave n) (some : n ≠ 0) : Stepped h main (.ok ⟨main, none, none⟩)

theorem DoUseFd.stepped_of_step {e : Answers} {h : DoUseFd} {main : Main}
    {x : Except Ended (Pool.Moved Main DoUseFd)} (step : h.step e main = some x) :
    h.Stepped main x := by
  unfold DoUseFd.step at step
  split at step
  · rename_i pc
    obtain ⟨socket, found, next⟩ := Option.bind_eq_some_iff.mp step
    split at next
    · cases next
      exact .failed pc
    · split at next <;> cases next
      exact .read pc found
  · cases step
    exact .print ‹_›
  · rename_i n pc
    cases step
    by_cases zero : n = 0
    · subst zero
      exact .eof pc
    · rw [if_neg zero]
      exact .leave pc zero

def doUseFd : Pool.Handler Main DoUseFd Answers where
  fd := DoUseFd.fd
  enter := fun e fd _ => ⟨fd, .Read, e.memory⟩
  step := fun e h main => h.step e main
  fd_enter := fun _ _ _ => rfl
  fd_step := fun e h main moved step => by
    cases DoUseFd.stepped_of_step step <;> simp [Event.fd]

abbrev threads : Nat := 16

abbrev Server := Pool.State threads Main DoUseFd

/-- `arrive` and `hangup` are the peer's, `wait` is `epoll_wait`, `accept` and `submit`
deal with `events[n]`. -/
inductive Action where
  | arrive (fd : Int) (bytes : List UInt8)
  | hangup (fd : Int)
  | wait (answer : Except Int32 (List Int))
  | accept (answer : Except Int32 Int) (early : List UInt8) (ctl : Except Int32 Unit)
  | submit
  | notify (woken : Option (Fin threads))
  | spurious (w : Fin threads)
  | work (w : Fin threads) (e : Answers)

namespace Server

def arrive (fd : Int) (bytes : List UInt8) (s : Server) : Option Server :=
  (s.main.sockets fd).bind fun socket =>
    let socket' := { socket with unread := socket.unread ++ bytes, ready := true }
    if bytes ≠ [] ∧ socket.hungup = false then some { s with main := s.main.put fd socket' }
    else none

def hangup (fd : Int) (s : Server) : Option Server :=
  (s.main.sockets fd).bind fun socket =>
    let socket' := { socket with hungup := true, ready := true }
    if socket.hungup = false then some { s with main := s.main.put fd socket' } else none

/-- What `epoll_wait` can report. -/
def Reports (listenfd : Int) (s : Server) (fds : List Int) : Prop :=
  fds ≠ [] ∧ fds.length ≤ MAX_EVENTS ∧ fds.Nodup ∧
    ∀ fd ∈ fds, fd ≠ listenfd → ∃ socket ∈ s.main.sockets fd, socket.ready = true

instance (listenfd : Int) (s : Server) (fds : List Int) : Decidable (s.Reports listenfd fds) :=
  inferInstanceAs (Decidable (_ ∧ _ ∧ _ ∧ ∀ fd ∈ fds, fd ≠ listenfd →
    ∃ socket ∈ s.main.sockets fd, socket.ready = true))

/-- `nfds = epoll_wait(..)`. -/
def wait (listenfd : Int) (answer : Except Int32 (List Int)) (s : Server) :
    Option (Except Ended Server) :=
  if s.main.events = [] ∧ s.pool.submits () = .outside then
    match answer with
    | .error _ => some (.error (.exit ⟨"epoll_wait\n", 1⟩))
    | .ok fds =>
        if s.Reports listenfd fds then
          some (.ok { s with main := s.main.report fds })
        else none
  else none

/-- The listener's event; `early` has arrived before the connection is watched. -/
def accept (answer : Except Int32 Int) (early : List UInt8) (ctl : Except Int32 Unit)
    (events : List Int) (s : Server) : Except Ended Server := do
  let connfd ← Accept answer
  ctl.mapError fun _ => .exit ⟨"epoll_ctl: conn_sock\n", 1⟩
  pure { s with
    main := { s.main with events }.put connfd
      { unread := early, hungup := false, ready := early ≠ [] }
    log := s.log ++ [.accept connfd] }

/-- `pool.Submit(DoUseFd, _fd)`, up to its `notify_one`. -/
def submit (fd : Int) (events : List Int) (s : Server) : Option Server :=
  (s.act (.enqueue () fd)).map fun s => { s with main := { s.main with events } }

def step (listenfd : Int) (s : Server) : Action → Option (Except Ended Server)
  | .arrive fd bytes => (s.arrive fd bytes).map .ok
  | .hangup fd => (s.hangup fd).map .ok
  | .wait answer => s.wait listenfd answer
  | .accept answer early ctl =>
      match s.main.events with
      | [] => none
      | fd :: events =>
          if fd = listenfd ∧ s.pool.submits () = .outside ∧
              ∀ connfd ∈ answer.toOption, Fresh listenfd connfd s.log then
            some (s.accept answer early ctl events)
          else none
  | .submit =>
      match s.main.events with
      | [] => none
      | fd :: events => if fd = listenfd then none else (s.submit fd events).map .ok
  | .notify woken => (s.act (.notify () woken)).map .ok
  | .spurious w => (s.act (.spurious w)).map .ok
  | .work w e => s.work doUseFd e w

/-- The pool is initialised and the listener watched. -/
def start : Server := Pool.State.start threads DoUseFd ⟨[], fun _ => none⟩

end Server

def system (listenfd : Int) : System (Except Ended Server) Action :=
  { Init := fun s => s = .ok Server.start
    step := live (Server.step listenfd) }

namespace Server

variable {listenfd : Int} {s s' : Server} {a : Action}

/-! ## What a step can be -/

/-- The steps of the server; those of a worker are the pool's. -/
inductive Stepped (listenfd : Int) (s : Server) : Action → Except Ended Server → Prop where
  | arrive {fd : Int} {bytes : List UInt8} {socket : Socket}
      (found : s.main.sockets fd = some socket) (some : bytes ≠ [])
      (there : socket.hungup = false) :
      Stepped listenfd s (.arrive fd bytes) (.ok { s with
        main := s.main.put fd { socket with unread := socket.unread ++ bytes, ready := true } })
  | hangup {fd : Int} {socket : Socket} (found : s.main.sockets fd = some socket)
      (there : socket.hungup = false) :
      Stepped listenfd s (.hangup fd) (.ok { s with
        main := s.main.put fd { socket with hungup := true, ready := true } })
  | waitFailed {errno : Int32} {exit : Unit.SysCallWrap.Exit} :
      Stepped listenfd s (.wait (.error errno)) (.error (.exit exit))
  | waited {fds : List Int} (reports : s.Reports listenfd fds) :
      Stepped listenfd s (.wait (.ok fds)) (.ok { s with main := s.main.report fds })
  | acceptFailed {answer : Except Int32 Int} {early : List UInt8} {ctl : Except Int32 Unit}
      {exit : Unit.SysCallWrap.Exit} :
      Stepped listenfd s (.accept answer early ctl) (.error (.exit exit))
  | accepted {connfd : Int} {early : List UInt8} {events : List Int}
      (here : s.main.events = listenfd :: events) (fresh : Fresh listenfd connfd s.log) :
      Stepped listenfd s (.accept (.ok connfd) early (.ok ())) (.ok { s with
        main := { s.main with events }.put connfd
          { unread := early, hungup := false, ready := early ≠ [] }
        log := s.log ++ [.accept connfd] })
  | submitted {fd : Int} {events : List Int} {t : Server} (here : s.main.events = fd :: events)
      (ne : fd ≠ listenfd) (act : s.act (.enqueue () fd) = some t) :
      Stepped listenfd s .submit (.ok { t with main := { t.main with events } })
  | notified {woken : Option (Fin threads)} {t : Server}
      (act : s.act (.notify () woken) = some t) : Stepped listenfd s (.notify woken) (.ok t)
  | woke {w : Fin threads} {t : Server} (act : s.act (.spurious w) = some t) :
      Stepped listenfd s (.spurious w) (.ok t)
  | worked {w : Fin threads} {e : Answers} {x : Except Ended Server}
      (worked : s.Worked doUseFd e w x) : Stepped listenfd s (.work w e) x

theorem stepped_of_wait {answer : Except Int32 (List Int)} {x : Except Ended Server}
    (step : s.wait listenfd answer = some x) : s.Stepped listenfd (.wait answer) x := by
  unfold wait at step
  split at step
  · split at step
    · cases step
      exact .waitFailed
    · split at step <;> cases step
      exact .waited ‹_›
  · cases step

theorem stepped_of_accept {answer : Except Int32 Int} {early : List UInt8}
    {ctl : Except Int32 Unit} {events : List Int} (here : s.main.events = listenfd :: events)
    (fresh : ∀ connfd ∈ answer.toOption, Fresh listenfd connfd s.log) :
    s.Stepped listenfd (.accept answer early ctl) (s.accept answer early ctl events) := by
  cases answer with
  | error errno => exact .acceptFailed
  | ok connfd =>
      cases ctl with
      | error errno => exact .acceptFailed
      | ok => exact .accepted here (fresh connfd rfl)

theorem stepped_of_step {x : Except Ended Server} (step : s.step listenfd a = some x) :
    s.Stepped listenfd a x := by
  cases a with
  | arrive fd bytes =>
      obtain ⟨t, arrived, rfl⟩ := Option.map_eq_some_iff.mp step
      obtain ⟨socket, found, put⟩ := Option.bind_eq_some_iff.mp arrived
      simp only at put
      split at put <;> cases put
      rename_i may
      exact .arrive found may.1 may.2
  | hangup fd =>
      obtain ⟨t, left, rfl⟩ := Option.map_eq_some_iff.mp step
      obtain ⟨socket, found, put⟩ := Option.bind_eq_some_iff.mp left
      simp only at put
      split at put <;> cases put
      exact .hangup found ‹_›
  | wait answer => exact stepped_of_wait step
  | accept answer early ctl =>
      simp only [Server.step] at step
      split at step
      · cases step
      · rename_i fd events here
        split at step <;> cases step
        rename_i may
        obtain ⟨rfl, -, fresh⟩ := may
        exact stepped_of_accept here fresh
  | submit =>
      simp only [Server.step] at step
      split at step
      · cases step
      · rename_i fd events here
        split at step
        · cases step
        · obtain ⟨u, submitted, rfl⟩ := Option.map_eq_some_iff.mp step
          obtain ⟨t, act, rfl⟩ := Option.map_eq_some_iff.mp submitted
          exact .submitted here ‹_› act
  | notify woken =>
      obtain ⟨t, act, rfl⟩ := Option.map_eq_some_iff.mp step
      exact .notified act
  | spurious w =>
      obtain ⟨t, act, rfl⟩ := Option.map_eq_some_iff.mp step
      exact .woke act
  | work w e => exact .worked (Pool.State.worked_of_work step)

end Server

/-! ## What is released -/

/-- A call of `DoUseFd` whose read returned 0 is over. -/
def DoUseFd.Eof (h : DoUseFd) : Prop := h.pc = .leave 0

theorem doUseFd_closeless : Pool.Closeless doUseFd DoUseFd.Eof where
  moved step := by
    cases DoUseFd.stepped_of_step step <;> simp_all [DoUseFd.Eof, Pool.Plain]
  returned step := by
    cases DoUseFd.stepped_of_step step with
    | eof pc => exact .inl ⟨pc, rfl⟩
    | leave pc some => exact .inr ⟨by simp [DoUseFd.Eof, pc, some], by simp⟩
  ended step := by
    cases DoUseFd.stepped_of_step step with
    | @failed exit pc => exact ⟨by simp [DoUseFd.Eof, pc], exit, rfl⟩

namespace Server

variable {listenfd : Int} {s s' : Server} {a : Action}

/-- A worker returns from a `DoUseFd` that has read end of file. -/
def Finishes (s : Server) : Action → Prop
  | .work w _ => Pool.State.Finishes DoUseFd.Eof s w
  | _ => False

/-- Only accepted descriptors are watched and on their way. -/
structure Inv (listenfd : Int) (s : Server) : Prop where
  serves : s.Serves doUseFd (Known s.log)
  events : ∀ fd ∈ s.main.events, fd ≠ listenfd → Known s.log fd
  sockets : ∀ (fd : Int) (socket : Socket), s.main.sockets fd = some socket → Known s.log fd

theorem put_sockets {main : Main} {fd fd' : Int} {socket socket' : Socket}
    (found : (main.put fd socket).sockets fd' = some socket') :
    fd' = fd ∧ socket' = socket ∨ fd' ≠ fd ∧ main.sockets fd' = some socket' := by
  by_cases same : fd' = fd
  · subst same
    simp only [Main.put, Function.update_self, Option.some.injEq] at found
    exact .inl ⟨rfl, found.symm⟩
  · simp only [Main.put, Function.update_of_ne same] at found
    exact .inr ⟨same, found⟩

/-- Data for a connection that is watched. -/
theorem Inv.put (inv : Inv listenfd s) {fd : Int} {socket socket' : Socket}
    (found : s.main.sockets fd = some socket) :
    Inv listenfd { s with main := s.main.put fd socket' } := by
  refine ⟨inv.serves.same rfl rfl, inv.events, fun fd' socket'' here => ?_⟩
  rcases put_sockets here with ⟨rfl, -⟩ | ⟨-, there⟩
  · exact inv.sockets _ _ found
  · exact inv.sockets _ _ there

theorem Inv.act {act : Common.ThreadPool.Action threads Unit Int} (inv : Inv listenfd s)
    (submitted : ∀ (c : Unit) (fd : Int), act = .enqueue c fd → Known s.log fd)
    (idle : ∀ w, act ≠ .worker w) (step : s.act act = some s') : Inv listenfd s' := by
  have serves := inv.serves.act submitted idle step
  obtain ⟨-, main, log⟩ := Pool.State.act_rest step
  refine ⟨log ▸ serves, ?_, ?_⟩
  · rw [main, log]
    exact inv.events
  · rw [main, log]
    exact inv.sockets

/-- A worker leaves the events alone and reads from a connection that is watched. -/
theorem Inv.work {w : Fin threads} {e : Answers} (inv : Inv listenfd s)
    (worked : s.Worked doUseFd e w (.ok s')) : Inv listenfd s' := by
  obtain ⟨more, log⟩ := worked.log
  have main : s'.main.events = s.main.events ∧ ∀ (fd : Int) (socket : Socket),
      s'.main.sockets fd = some socket → ∃ before, s.main.sockets fd = some before := by
    cases worked with
    | moved running call step =>
        cases DoUseFd.stepped_of_step step with
        | read pc found =>
            refine ⟨rfl, fun fd socket here => ?_⟩
            rcases put_sockets here with ⟨rfl, -⟩ | ⟨-, there⟩
            · exact ⟨_, found⟩
            · exact ⟨_, there⟩
        | print => exact ⟨rfl, fun fd socket here => ⟨socket, here⟩⟩
    | returned running call step pooled =>
        cases DoUseFd.stepped_of_step step <;> exact ⟨rfl, fun fd socket here => ⟨socket, here⟩⟩
    | _ => exact ⟨rfl, fun fd socket here => ⟨socket, here⟩⟩
  refine ⟨?_, fun fd member ne => ?_, fun fd socket here => ?_⟩
  · rw [log]
    exact (inv.serves.work worked s' rfl).mono fun _ known => known_append known more
  · rw [log]
    exact known_append (inv.events fd (main.1 ▸ member) ne) more
  · obtain ⟨before, there⟩ := main.2 fd socket here
    rw [log]
    exact known_append (inv.sockets fd before there) more

theorem Inv.step (inv : Inv listenfd s) (stepped : s.Stepped listenfd a (.ok s')) :
    Inv listenfd s' ∧ Pool.Notes s.log s'.log (s.Finishes a) := by
  cases stepped with
  | arrive found => exact ⟨inv.put found, .nothing⟩
  | hangup found => exact ⟨inv.put found, .nothing⟩
  | @waited fds reports =>
      refine ⟨⟨inv.serves.same rfl rfl, fun fd member ne => ?_, fun fd socket here => ?_⟩, .nothing⟩
      · obtain ⟨socket, found, -⟩ := reports.2.2.2 fd member ne
        exact inv.sockets fd socket found
      · simp only [Main.report] at here
        split at here
        · obtain ⟨before, found, -⟩ := Option.map_eq_some_iff.mp here
          exact inv.sockets fd before found
        · exact inv.sockets fd socket here
  | @accepted connfd early events here fresh =>
      refine ⟨⟨?_, fun fd member ne => ?_, fun fd socket found => ?_⟩, .plain _ trivial⟩
      · exact (inv.serves.mono fun _ known => known_append known _).same rfl rfl
      · have member : fd ∈ s.main.events := here ▸ List.mem_cons_of_mem listenfd member
        exact known_append (inv.events fd member ne) _
      · rcases put_sockets found with ⟨rfl, -⟩ | ⟨-, there⟩
        · exact known_accept s.log fd
        · exact known_append (inv.sockets fd socket there) _
  | @submitted fd events t here ne act =>
      have known := inv.events fd (by simp [here]) ne
      obtain ⟨serves, watched, sockets⟩ := inv.act
        (fun _ fd' same => by cases same; exact known) (fun w same => by cases same) act
      obtain ⟨-, main, log⟩ := Pool.State.act_rest act
      refine ⟨⟨serves.same rfl rfl, fun fd' member => watched fd' ?_, sockets⟩, ?_⟩
      · rw [main, here]
        exact List.mem_cons_of_mem fd member
      · simp only [log]
        exact .nothing
  | notified act =>
      rw [(Pool.State.act_rest act).2.2]
      exact ⟨inv.act (fun _ fd same => by cases same) (fun w same => by cases same) act, .nothing⟩
  | woke act =>
      rw [(Pool.State.act_rest act).2.2]
      exact ⟨inv.act (fun _ fd same => by cases same) (fun w same => by cases same) act, .nothing⟩
  | worked worked => exact ⟨inv.work worked, worked.notes doUseFd_closeless inv.serves⟩

theorem Stepped.ends {ended : Ended} (stepped : s.Stepped listenfd a (.error ended)) :
    (∃ exit, ended = .exit exit) ∧ ¬ s.Finishes a := by
  cases stepped with
  | waitFailed => exact ⟨⟨_, rfl⟩, id⟩
  | acceptFailed => exact ⟨⟨_, rfl⟩, id⟩
  | worked worked => exact worked.ends doUseFd_closeless

theorem start_inv : Inv listenfd start :=
  ⟨.start, by simp [start, Pool.State.start], by simp [start, Pool.State.start]⟩

/-- **`EPollServer` releases its descriptors exactly as long as no `DoUseFd` that has
read end of file finishes.** -/
theorem released_iff {as : List Action} {y : Except Ended Server}
    (run : (system listenfd).run (.ok start) as = some y) :
    (system listenfd).Always (Holds fun s => Released (connections s.log)) (.ok start) as ↔
      (system listenfd).Steps (Turns fun s a => ¬ Finishes s a) (.ok start) as :=
  Pool.always_released_iff rfl
    (fun s _ _ (inv : Inv listenfd s) step => inv.step (stepped_of_step step))
    (fun _ _ _ _ step => (stepped_of_step step).ends) start_inv rfl run

end Server

end Codesnip.Net.EPollServer
