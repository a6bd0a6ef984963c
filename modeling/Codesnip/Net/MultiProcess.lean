/-
# Net.MultiProcess -- the server `network_area::MultiProcessServer`

The server accepts a connection, forks, and closes the connection; the child closes the
listening socket, runs `Doit` and exits.  A fork copies the table of descriptors, and what
a descriptor stands for (`File`) is given up when no table names it any more, so the
tables of all processes are part of the state.

A process has an entry in the process table until its parent has waited for it, and `Fork`
fails when all `limit` entries are taken.  The server calls no `wait`, so only `init`
waits for children, which become its own when the server has ended (`wait`).

What a client sends and how its child's reads go is fixed by the number of the connection
(`Clients`).

* `Inv` says what every table holds at every point;
* `named_iff`: who still names a connection; so the server never holds more than one, and
  a connection is given up when its child exits;
* `child_solo`: a child does what `Doit` does alone on its own connection;
* `forked_lt`: the server serves fewer connections than there are processes, since its
  children's entries are never given back while it runs (`Inv.waited`).
-/
import Codesnip.Net.DoitReports

namespace Codesnip.Net.MultiProcess

open Codesnip.Net.ThreadPools (Answers Doit Peer complete doit reported reports_more reports_moves
  reports_returns reports_stream)
open Codesnip.Theory
open Codesnip.Theory.Transition (System)
open Codesnip.Unit.SysCallWrap (twoByTwo)

set_option autoImplicit false
set_option linter.dupNamespace false

/-- What a descriptor stands for: the listening socket, the `k`-th connection accepted, or a
file that the server has nothing to do with. -/
inductive File where
  | listen
  | connection (k : Nat)
  | other
  deriving DecidableEq, Repr

abbrev Table : Type := Int → Option File

/-- The clients, by the number of their connections, and what the reads of their children
find in `buff`. -/
structure Clients where
  peer : Nat → Peer
  answers : Nat → Answers

inductive ServerPc where
  | Accept
  | Fork (connfd : Int)
  | Close (connfd : Int)
  deriving DecidableEq, Repr

structure Server where
  pc : ServerPc
  fds : Table

/-- `exited none` is `exit(0)` after `Doit`. -/
inductive ChildPc where
  | Close
  | Doit (h : Doit)
  | exited (how : Option Ended)

/-- A child of the server, with the numbers it has reported. -/
structure Child where
  connfd : Int
  pc : ChildPc
  fds : Table
  reports : List Int

structure State where
  /-- The server, or how it has exited. -/
  server : Except Ended Server
  accepted : Nat
  /-- The children forked; as many as `forked`. -/
  children : Nat → Option Child
  forked : Nat
  /-- The children that somebody has waited for. -/
  waited : Nat → Bool

inductive Action where
  | accept (answer : Except Int32 Int)
  | fork (answer : Except Int32 Unit)
  | close (answer : Except Int32 Unit)
  | child (i : Nat) (answer : Except Int32 Unit)
  | wait (i : Nat)

def Fork (answer : Except Int32 Unit) : Except Ended Unit :=
  answer.mapError fun errno => .exit ⟨"fork error!", errno⟩

/-- What `Doit` is called with in the child of connection `k`. -/
def Clients.main (clients : Clients) (k : Nat) : ThreadPools.Main := ⟨none, fun _ => clients.peer k⟩

namespace Child

/-- A process that exits gives up all its descriptors. -/
def exit (c : Child) (how : Option Ended) : Child :=
  { c with pc := .exited how, fds := fun _ => none }

/-- What a step of `Doit` leads to. -/
def moved (c : Child) : Except Ended (Pool.Moved ThreadPools.Main Doit) → Child
  | .error ended => c.exit (some ended)
  | .ok ⟨_, event, none⟩ => { c with reports := c.reports ++ reported event }.exit none
  | .ok ⟨_, event, some h⟩ => { c with reports := c.reports ++ reported event, pc := .Doit h }

def step (clients : Clients) (listenfd : Int) (c : Child) (answer : Except Int32 Unit) :
    Option Child :=
  match c.pc with
  | .Close =>
      match Net.Close answer with
      | .error ended => some (c.exit (some ended))
      | .ok () =>
          match c.fds c.connfd with
          | some (.connection k) =>
              some { c with
                pc := .Doit (doit.enter (clients.answers k) c.connfd (clients.main k))
                fds := Function.update c.fds listenfd none }
          | _ => none
  | .Doit h =>
      match c.fds c.connfd with
      | some (.connection k) => (h.step (clients.answers k) (clients.main k)).map c.moved
      | _ => none
  | .exited _ => none

end Child

namespace State

/-- `InitUnServer` has returned; `base` is the server's table then. -/
def start (base : Table) : State :=
  ⟨.ok ⟨.Accept, base⟩, 0, fun _ => none, 0, fun _ => false⟩

/-- The entries of the process table that are taken while the server runs: its own, and those
of its children, whether they run or have exited. -/
def entries (s : State) : Nat := (List.range s.forked).countP (fun i => !s.waited i) + 1

def step (clients : Clients) (listenfd : Int) (limit : Nat) (s : State) : Action → Option State
  | .accept answer =>
      match s.server with
      | .ok ⟨.Accept, fds⟩ =>
          match Net.Accept answer with
          | .error ended => some { s with server := .error ended }
          | .ok connfd =>
              if 0 ≤ connfd ∧ fds connfd = none then
                some { s with
                  server := .ok ⟨.Fork connfd,
                    Function.update fds connfd (some (.connection s.accepted))⟩
                  accepted := s.accepted + 1 }
              else none
      | _ => none
  | .fork answer =>
      match s.server with
      | .ok ⟨.Fork connfd, fds⟩ =>
          match MultiProcess.Fork answer with
          | .error ended => some { s with server := .error ended }
          | .ok () =>
              if s.entries < limit then
                some { s with
                  server := .ok ⟨.Close connfd, fds⟩
                  children := Function.update s.children s.forked (some ⟨connfd, .Close, fds, []⟩)
                  forked := s.forked + 1 }
              else none
      | _ => none
  | .close answer =>
      match s.server with
      | .ok ⟨.Close connfd, fds⟩ =>
          match Net.Close answer with
          | .error ended => some { s with server := .error ended }
          | .ok () =>
              some { s with server := .ok ⟨.Accept, Function.update fds connfd none⟩ }
      | _ => none
  | .child i answer => (s.children i).bind fun c =>
      (c.step clients listenfd answer).map fun c =>
        { s with children := Function.update s.children i (some c) }
  -- a child that has exited is waited for by its parent, once
  | .wait i =>
      match s.server, s.children i with
      | .error _, some ⟨_, .exited _, _, _⟩ =>
          if s.waited i then none
          else some { s with waited := Function.update s.waited i true }
      | _, _ => none

end State

def system (clients : Clients) (listenfd : Int) (limit : Nat) (base : Table) :
    System State Action :=
  { Init := fun s => s = .start base, step := State.step clients listenfd limit }

/-! ## The tables -/

/-- What the server has open before it accepts anything. -/
structure Based (listenfd : Int) (base : Table) : Prop where
  listen : ∀ fd, base fd = some .listen ↔ fd = listenfd
  connection : ∀ fd k, base fd ≠ some (.connection k)

section Tables

variable {base : Table} {listenfd connfd fd : Int} {k k' : Nat}

/-- The server's table with the `k`-th connection. -/
def withConnection (base : Table) (connfd : Int) (k : Nat) : Table :=
  Function.update base connfd (some (.connection k))

@[simp] theorem withConnection_self : withConnection base connfd k connfd = some (.connection k) :=
  Function.update_self ..

theorem withConnection_of_ne (ne : fd ≠ connfd) : withConnection base connfd k fd = base fd :=
  Function.update_of_ne ne ..

/-- The one descriptor of a connection. -/
theorem withConnection_iff (based : Based listenfd base) :
    withConnection base connfd k fd = some (.connection k') ↔ fd = connfd ∧ k' = k := by
  by_cases same : fd = connfd
  · subst same
    simp [eq_comm]
  · simp [withConnection_of_ne same, same, based.connection]

theorem withConnection_listen (based : Based listenfd base) (free : base connfd = none) :
    withConnection base connfd k fd = some .listen ↔ fd = listenfd := by
  rw [← based.listen fd]
  by_cases same : fd = connfd
  · subst same
    simp [free]
  · rw [withConnection_of_ne same]

theorem update_withConnection (free : base connfd = none) :
    Function.update (withConnection base connfd k) connfd none = base := by
  rw [withConnection, Function.update_idem, ← free, Function.update_eq_self]

/-- A descriptor that is free is not the listening one. -/
theorem Based.ne (based : Based listenfd base) (free : base connfd = none) : connfd ≠ listenfd := by
  rintro rfl
  rw [(based.listen connfd).mpr rfl] at free
  cases free

end Tables

/-- What the server holds, and how many it has accepted and forked. -/
def ServerInv (base : Table) (accepted forked : Nat) : Except Ended Server → Prop
  | .ok ⟨.Accept, fds⟩ => fds = base ∧ accepted = forked
  | .ok ⟨.Fork connfd, fds⟩ =>
      base connfd = none ∧ fds = withConnection base connfd forked ∧ accepted = forked + 1
  | .ok ⟨.Close connfd, fds⟩ =>
      base connfd = none ∧ ∃ k, k + 1 = forked ∧ fds = withConnection base connfd k ∧
        accepted = forked
  | .error _ => forked ≤ accepted ∧ accepted ≤ forked + 1

theorem ServerInv.ended {base : Table} {accepted forked : Nat} {server : Except Ended Server}
    {ended : Ended} (inv : ServerInv base accepted forked server) :
    ServerInv base accepted forked (.error ended) := by
  match server with
  | .ok ⟨.Accept, fds⟩ =>
      obtain ⟨-, same⟩ := inv
      exact ⟨by omega, by omega⟩
  | .ok ⟨.Fork connfd, fds⟩ =>
      obtain ⟨-, -, same⟩ := inv
      exact ⟨by omega, by omega⟩
  | .ok ⟨.Close connfd, fds⟩ =>
      obtain ⟨-, k, -, -, same⟩ := inv
      exact ⟨by omega, by omega⟩
  | .error _ => exact inv

/-- **What the server has of a connection**: the one it has accepted last, until its next
`Accept`. -/
theorem ServerInv.connection {listenfd : Int} {base : Table} (based : Based listenfd base)
    {accepted forked : Nat} {server : Server} (inv : ServerInv base accepted forked (.ok server))
    (k : Nat) : (∃ fd, server.fds fd = some (.connection k)) ↔
      k + 1 = accepted ∧ server.pc ≠ .Accept := by
  match server with
  | ⟨.Accept, fds⟩ =>
      obtain ⟨rfl, -⟩ := inv
      simp [based.connection]
  | ⟨.Fork connfd, fds⟩ =>
      obtain ⟨-, rfl, same⟩ := inv
      simp only [withConnection_iff based]
      simp
      omega
  | ⟨.Close connfd, fds⟩ =>
      obtain ⟨-, j, before, rfl, same⟩ := inv
      simp only [withConnection_iff based]
      simp
      omega

theorem ServerInv.listen {listenfd : Int} {base : Table} (based : Based listenfd base)
    {accepted forked : Nat} {server : Server} (inv : ServerInv base accepted forked (.ok server)) :
    server.fds listenfd = some .listen := by
  match server with
  | ⟨.Accept, fds⟩ =>
      obtain ⟨rfl, -⟩ := inv
      exact (based.listen listenfd).mpr rfl
  | ⟨.Fork connfd, fds⟩ =>
      obtain ⟨free, rfl, -⟩ := inv
      exact (withConnection_listen based free).mpr rfl
  | ⟨.Close connfd, fds⟩ =>
      obtain ⟨free, j, -, rfl, -⟩ := inv
      exact (withConnection_listen based free).mpr rfl

/-- What a child of connection `i` holds. -/
def tableOf (base : Table) (listenfd connfd : Int) (i : Nat) : ChildPc → Table
  | .Close => withConnection base connfd i
  | .Doit _ => Function.update (withConnection base connfd i) listenfd none
  | .exited _ => fun _ => none

section Children

variable {listenfd connfd : Int} {base : Table} {i : Nat} {pc : ChildPc}

theorem tableOf_connection (based : Based listenfd base) (free : base connfd = none) (k : Nat) :
    (∃ fd, tableOf base listenfd connfd i pc fd = some (.connection k)) ↔
      k = i ∧ ∀ how, pc ≠ .exited how := by
  match pc with
  | .Close =>
      simp only [tableOf, withConnection_iff based]
      simp
  | .Doit h =>
      have kept (fd : Int) : Function.update (withConnection base connfd i) listenfd none fd =
          some (.connection k) ↔ fd = connfd ∧ k = i := by
        rw [← withConnection_iff based]
        by_cases same : fd = listenfd
        · subst same
          have listen := (withConnection_listen (k := i) based free).mpr rfl
          simp [listen]
        · rw [Function.update_of_ne same]
      simp only [tableOf, kept]
      simp
  | .exited how => simp [tableOf]

theorem tableOf_listen (based : Based listenfd base) (free : base connfd = none) :
    (∃ fd, tableOf base listenfd connfd i pc fd = some .listen) ↔ pc = .Close := by
  match pc with
  | .Close =>
      simp only [tableOf, withConnection_listen based free]
      simp
  | .Doit h =>
      refine ⟨?_, nofun⟩
      rintro ⟨fd, listen⟩
      by_cases same : fd = listenfd
      · subst same
        simp [tableOf] at listen
      · rw [tableOf, Function.update_of_ne same, withConnection_listen based free] at listen
        exact absurd listen same
  | .exited how => simp [tableOf]

end Children

namespace Child

variable {clients : Clients} {base : Table} {listenfd : Int} {i : Nat} {c c' : Child}

/-- The `Doit` that the child of connection `i` calls. -/
def called (clients : Clients) (i : Nat) (c : Child) : ThreadPools.Doit :=
  doit.enter (clients.answers i) c.connfd (clients.main i)

/-- What `Doit` reports on its own begins with what the child has reported so far. -/
def Reported (clients : Clients) (i : Nat) (c : Child) : ChildPc → Prop
  | .Close => c.reports = []
  | .Doit h => ∃ n, ∀ m, (c.called clients i).reports (clients.answers i) (n + m) (clients.main i) =
      (h.reports (clients.answers i) m (clients.main i)).map fun rest =>
        rest.map fun nums => c.reports ++ nums
  | .exited none => ∃ n, (c.called clients i).reports (clients.answers i) n (clients.main i) =
      some (.ok c.reports)
  | .exited (some ended) => c.reports = [] ∨
      ∃ n, (c.called clients i).reports (clients.answers i) n (clients.main i) =
        some (.error ended)

/-- The child of connection `i`. -/
structure Inv (clients : Clients) (base : Table) (listenfd : Int) (i : Nat) (c : Child) : Prop where
  free : base c.connfd = none
  fds : c.fds = tableOf base listenfd c.connfd i c.pc
  reported : c.Reported clients i c.pc

/-- A step of `Doit` leaves the data it is called with. -/
theorem main_of_step {e : Answers} {h : ThreadPools.Doit} {main : ThreadPools.Main}
    {moved : Pool.Moved ThreadPools.Main ThreadPools.Doit}
    (step : h.step e main = some (.ok moved)) : moved.main = main := by
  cases Doit.stepped_of_step step <;> rfl

theorem map_append_append {α : Type} (front mid : List α)
    (x : Option (Except Ended (List α))) :
    ((x.map fun rest => rest.map fun nums => mid ++ nums).map fun rest =>
      rest.map fun nums => front ++ nums) =
      x.map fun rest => rest.map fun nums => (front ++ mid) ++ nums := by
  cases x with
  | none => rfl
  | some x =>
      cases x with
      | error => rfl
      | ok nums => simp [Except.map]

theorem map_nil_append {α : Type} (x : Option (Except Ended (List α))) :
    (x.map fun rest => rest.map fun nums => [] ++ nums) = x := by
  match x with
  | none => rfl
  | some (.error _) => rfl
  | some (.ok _) => rfl

theorem moved_connfd (c : Child) (x : Except Ended (Pool.Moved ThreadPools.Main ThreadPools.Doit)) :
    (c.moved x).connfd = c.connfd := by
  match x with
  | .error _ => rfl
  | .ok ⟨_, _, none⟩ => rfl
  | .ok ⟨_, _, some _⟩ => rfl

theorem Inv.connection (inv : c.Inv clients base listenfd i) (based : Based listenfd base)
    (alive : ∀ how, c.pc ≠ .exited how) : c.fds c.connfd = some (.connection i) := by
  rw [inv.fds]
  match pc : c.pc with
  | .Close => exact withConnection_self
  | .Doit h =>
      rw [tableOf, Function.update_of_ne (based.ne inv.free), withConnection_self]
  | .exited how => exact absurd pc (alive how)

theorem Inv.moved {h : ThreadPools.Doit}
    {x : Except Ended (Pool.Moved ThreadPools.Main ThreadPools.Doit)}
    (inv : c.Inv clients base listenfd i) (pc : c.pc = .Doit h)
    (step : h.step (clients.answers i) (clients.main i) = some x) :
    (c.moved x).Inv clients base listenfd i := by
  obtain ⟨free, fds, reported⟩ := inv
  rw [pc] at fds reported
  obtain ⟨n, follows⟩ := reported
  match x with
  | .error ended =>
      refine ⟨free, rfl, .inr ⟨n + 1, (follows 1).trans ?_⟩⟩
      rw [Doit.reports, step]
      rfl
  | .ok ⟨main, event, none⟩ =>
      refine ⟨free, rfl, n + 1, (follows 1).trans ?_⟩
      rw [reports_returns 0 step]
      rfl
  | .ok ⟨main, event, some h'⟩ =>
      obtain rfl : main = clients.main i := main_of_step step
      refine ⟨free, fds, n + 1, fun m => ?_⟩
      have turn := follows (m + 1)
      rw [reports_moves m step, map_append_append] at turn
      rw [Nat.add_right_comm]
      exact turn

theorem Inv.step {answer : Except Int32 Unit} (inv : c.Inv clients base listenfd i)
    (based : Based listenfd base) (step : c.step clients listenfd answer = some c') :
    c'.Inv clients base listenfd i ∧ c'.connfd = c.connfd ∧ ∀ how, c.pc ≠ .exited how := by
  match pc : c.pc with
  | .Close =>
      have here := inv.connection based (by simp [pc])
      obtain ⟨free, fds, reported⟩ := inv
      rw [pc] at fds reported
      rw [Child.step, pc] at step
      dsimp only at step
      split at step
      · cases step
        exact ⟨⟨free, rfl, .inl reported⟩, rfl, nofun⟩
      · rw [here] at step
        cases step
        refine ⟨⟨free, ?_, 0, fun m => ?_⟩, rfl, nofun⟩
        · rw [fds]
          rfl
        · rw [Nat.zero_add, reported, map_nil_append]
          rfl
  | .Doit h =>
      have here := inv.connection based (by simp [pc])
      rw [Child.step, pc] at step
      dsimp only at step
      rw [here] at step
      obtain ⟨x, moved, rfl⟩ := Option.map_eq_some_iff.mp step
      exact ⟨inv.moved pc moved, c.moved_connfd x, nofun⟩
  | .exited how =>
      rw [Child.step, pc] at step
      cases step

end Child

namespace State

variable {clients : Clients} {listenfd : Int} {limit : Nat} {base : Table} {s s' : State}

structure Inv (clients : Clients) (listenfd : Int) (limit : Nat) (base : Table) (s : State) :
    Prop where
  server : ServerInv base s.accepted s.forked s.server
  child : ∀ i c, s.children i = some c → c.Inv clients base listenfd i
  forked : ∀ i, (s.children i).isSome ↔ i < s.forked
  waited : ∀ server, s.server = .ok server → ∀ i, s.waited i = false
  limit : s.forked = 0 ∨ s.forked < limit

/-- The steps, one for each way a statement of the server can go, and any step of a child. -/
inductive Stepped (clients : Clients) (listenfd : Int) (limit : Nat) (s : State) :
    Action → State → Prop where
  | failed {a : Action} {server : Server} {ended : Ended} (here : s.server = .ok server) :
      Stepped clients listenfd limit s a { s with server := .error ended }
  | accept {answer : Except Int32 Int} {fds : Table} {connfd : Int}
      (here : s.server = .ok ⟨.Accept, fds⟩) (free : fds connfd = none) :
      Stepped clients listenfd limit s (.accept answer)
        { s with
          server := .ok ⟨.Fork connfd, withConnection fds connfd s.accepted⟩
          accepted := s.accepted + 1 }
  | fork {answer : Except Int32 Unit} {fds : Table} {connfd : Int}
      (here : s.server = .ok ⟨.Fork connfd, fds⟩) (lt : s.entries < limit) :
      Stepped clients listenfd limit s (.fork answer)
        { s with
          server := .ok ⟨.Close connfd, fds⟩
          children := Function.update s.children s.forked (some ⟨connfd, .Close, fds, []⟩)
          forked := s.forked + 1 }
  | close {answer : Except Int32 Unit} {fds : Table} {connfd : Int}
      (here : s.server = .ok ⟨.Close connfd, fds⟩) :
      Stepped clients listenfd limit s (.close answer)
        { s with server := .ok ⟨.Accept, Function.update fds connfd none⟩ }
  | child {i : Nat} {answer : Except Int32 Unit} {c c' : Child} (here : s.children i = some c)
      (step : c.step clients listenfd answer = some c') :
      Stepped clients listenfd limit s (.child i answer)
        { s with children := Function.update s.children i (some c') }
  | wait {i : Nat} {ended : Ended} (here : s.server = .error ended) :
      Stepped clients listenfd limit s (.wait i)
        { s with waited := Function.update s.waited i true }

theorem stepped_of_step {a : Action} (step : s.step clients listenfd limit a = some s') :
    Stepped clients listenfd limit s a s' := by
  cases a with
  | accept answer =>
      rw [State.step] at step
      split at step
      · rename_i fds here
        split at step
        · cases step
          exact .failed here
        · split at step
          · rename_i free
            cases step
            exact .accept here free.2
          · cases step
      · cases step
  | fork answer =>
      rw [State.step] at step
      split at step
      · rename_i connfd fds here
        split at step
        · cases step
          exact .failed here
        · split at step
          · cases step
            exact .fork here ‹_›
          · cases step
      · cases step
  | close answer =>
      rw [State.step] at step
      split at step
      · rename_i connfd fds here
        split at step
        · cases step
          exact .failed here
        · cases step
          exact .close here
      · cases step
  | child i answer =>
      obtain ⟨c, here, moved⟩ := Option.bind_eq_some_iff.mp step
      obtain ⟨c', childStep, rfl⟩ := Option.map_eq_some_iff.mp moved
      exact .child here childStep
  | wait i =>
      rw [State.step] at step
      split at step
      · rename_i here _
        split at step
        · cases step
        · cases step
          exact .wait here
      · cases step

/-- Where nobody has waited, every child has its entry. -/
theorem entries_eq (none : ∀ i, s.waited i = false) : s.entries = s.forked + 1 := by
  have all : (List.range s.forked).countP (fun i => !s.waited i) =
      (List.range s.forked).length := by
    rw [List.countP_eq_length]
    intro i _
    rw [none i]
    rfl
  rw [entries, all, List.length_range]

theorem Inv.start : (State.start base).Inv clients listenfd limit base where
  server := ⟨rfl, rfl⟩
  child := nofun
  forked i := by simp [State.start]
  waited _ _ _ := rfl
  limit := .inl rfl

theorem Inv.step (based : Based listenfd base) {a : Action}
    (inv : s.Inv clients listenfd limit base) (step : s.step clients listenfd limit a = some s') :
    s'.Inv clients listenfd limit base := by
  obtain ⟨server, child, forked, waited, bound⟩ := inv
  cases stepped_of_step step with
  | failed here => exact ⟨ServerInv.ended server, child, forked, nofun, bound⟩
  | accept here free =>
      rw [here] at server
      obtain ⟨rfl, same⟩ := server
      exact ⟨⟨free, by rw [same], congrArg (· + 1) same⟩, child, forked,
        fun _ _ => waited _ here, bound⟩
  | @fork answer fds connfd here lt =>
      rw [here] at server
      obtain ⟨free, rfl, same⟩ := server
      have none := waited _ here
      rw [entries_eq none] at lt
      refine ⟨⟨free, s.forked, rfl, rfl, same⟩, fun i c forkedChild => ?_, fun i => ?_,
        fun _ _ => none, .inr lt⟩
      · dsimp only at forkedChild
        by_cases new : i = s.forked
        · subst new
          rw [Function.update_self] at forkedChild
          cases forkedChild
          exact ⟨free, rfl, rfl⟩
        · rw [Function.update_of_ne new] at forkedChild
          exact child i c forkedChild
      · dsimp only
        by_cases new : i = s.forked
        · subst new
          simp
        · rw [Function.update_of_ne new, forked i]
          omega
  | close here =>
      rw [here] at server
      obtain ⟨free, k, -, rfl, same⟩ := server
      exact ⟨⟨update_withConnection free, same⟩, child, forked, fun _ _ => waited _ here, bound⟩
  | @child i answer c c' here moved =>
      obtain ⟨inv', -, -⟩ := (child i c here).step based moved
      refine ⟨server, fun j d there => ?_, fun j => ?_, waited, bound⟩
      · dsimp only at there
        by_cases same : j = i
        · subst same
          rw [Function.update_self] at there
          cases there
          exact inv'
        · rw [Function.update_of_ne same] at there
          exact child j d there
      · dsimp only
        by_cases same : j = i
        · subst same
          rw [Function.update_self, ← forked j, here]
          exact Iff.rfl
        · rw [Function.update_of_ne same, forked j]
  | wait here =>
      exact ⟨server, child, forked,
        fun _ running => absurd (here.symm.trans running) (by simp), bound⟩

theorem Inv.of_reachable (based : Based listenfd base)
    (reach : (system clients listenfd limit base).Reachable s) :
    s.Inv clients listenfd limit base :=
  reach.induct (by rintro s rfl; exact .start) fun _ _ _ inv step => inv.step based step

/-! ## What is open -/

/-- A descriptor of the server or of a child stands for `f`. -/
def Named (s : State) (f : File) : Prop :=
  (∃ server, s.server = .ok server ∧ ∃ fd, server.fds fd = some f) ∨
    ∃ i c, s.children i = some c ∧ ∃ fd, c.fds fd = some f

/-- **Who holds what, at every point of every run.**  A connection is open exactly as long as
its child runs, or the server has not come back to `Accept` with it; the listening socket, as
long as the server runs or a child has not closed it; and the server comes back to `Accept`
with what it had open at first. -/
theorem named_iff (based : Based listenfd base)
    (reach : (system clients listenfd limit base).Reachable s) :
    (∀ k, s.Named (.connection k) ↔
      (k + 1 = s.accepted ∧ ∃ server, s.server = .ok server ∧ server.pc ≠ .Accept) ∨
        ∃ c, s.children k = some c ∧ ∀ how, c.pc ≠ .exited how) ∧
    (s.Named .listen ↔
      (∃ server, s.server = .ok server) ∨ ∃ i c, s.children i = some c ∧ c.pc = .Close) ∧
    ∀ fds, s.server = .ok ⟨.Accept, fds⟩ → fds = base := by
  have inv := Inv.of_reachable based reach
  have server {server : Server} (here : s.server = .ok server) :
      ServerInv base s.accepted s.forked (.ok server) := here ▸ inv.server
  refine ⟨fun k => or_congr ⟨?_, ?_⟩ ⟨?_, ?_⟩, or_congr ⟨?_, ?_⟩ ?_,
    fun fds here => (server here).1⟩
  · rintro ⟨t, here, named⟩
    obtain ⟨last, ne⟩ := ((server here).connection based k).mp named
    exact ⟨last, t, here, ne⟩
  · rintro ⟨last, t, here, ne⟩
    exact ⟨t, here, ((server here).connection based k).mpr ⟨last, ne⟩⟩
  · rintro ⟨i, c, here, named⟩
    obtain ⟨free, fds, -⟩ := inv.child i c here
    rw [fds] at named
    obtain ⟨rfl, alive⟩ := (tableOf_connection based free k).mp named
    exact ⟨c, here, alive⟩
  · rintro ⟨c, here, alive⟩
    obtain ⟨free, fds, -⟩ := inv.child k c here
    refine ⟨k, c, here, ?_⟩
    rw [fds]
    exact (tableOf_connection based free k).mpr ⟨rfl, alive⟩
  · rintro ⟨t, here, -⟩
    exact ⟨t, here⟩
  · rintro ⟨t, here⟩
    exact ⟨t, here, listenfd, (server here).listen based⟩
  · refine exists_congr fun i => exists_congr fun c => and_congr_right fun here => ?_
    obtain ⟨free, fds, -⟩ := inv.child i c here
    rw [fds]
    exact tableOf_listen based free

/-! Two clients, of nine bytes and of none, on descriptor 4 of a server that listens on 3. -/

def pair : Clients :=
  { peer := fun k => if k = 0 then ⟨[7, 0, 0, 0, 0, 0, 0, 0, 1], twoByTwo⟩ else ⟨[], twoByTwo⟩
    answers := fun _ => ⟨10, fun _ => 0⟩ }

def listening : Table := fun fd => if fd = 3 then some .listen else none

theorem based_listening : Based 3 listening where
  listen fd := by
    rw [listening]
    split <;> simp [*]
  connection fd k := by
    rw [listening]
    split <;> simp

/-- The second connection is accepted while the first child runs, and its child exits first. -/
def both : List Action :=
  [.accept (.ok 4), .fork (.ok ()), .child 0 (.ok ()), .close (.ok ()), .child 0 (.ok ()),
    .accept (.ok 4), .fork (.ok ()), .child 1 (.ok ()), .child 1 (.ok ()), .child 1 (.ok ()),
    .child 0 (.ok ()), .child 1 (.ok ()), .child 0 (.ok ())]

theorem named_iff_both : ∃ s, (system pair 3 8 listening).run (start listening) both = some s ∧
    s.Named (.connection 0) ∧ s.Named (.connection 1) ∧ ¬ s.Named (.connection 2) := by
  have run : (system pair 3 8 listening).run (start listening) both = some _ := rfl
  obtain ⟨named, -⟩ := named_iff based_listening (.of_run rfl run)
  refine ⟨_, run, (named 0).mpr (.inr ⟨_, rfl, nofun⟩),
    (named 1).mpr (.inl ⟨rfl, _, rfl, nofun⟩), fun still => ?_⟩
  rcases (named 2).mp still with ⟨last, -⟩ | ⟨c, here, -⟩
  · cases last
  · cases here

/-! ## What is served -/

theorem accepted_mono {ok : Action → Prop}
    (reach : (system clients listenfd limit base).Reaches ok s s') : s.accepted ≤ s'.accepted :=
  reach.induct (P := fun t => s.accepted ≤ t.accepted) (Nat.le_refl _) fun t _ _ le _ step => by
    cases stepped_of_step step with
    | accept => exact Nat.le_succ_of_le le
    | _ => exact le

theorem Inv.accepted_le (pos : 0 < limit) (inv : s.Inv clients listenfd limit base) :
    s.forked < limit ∧ s.accepted ≤ s.forked + 1 ∧
      (s.accepted = s.forked + 1 → ∀ server, s.server = .ok server →
        ∃ connfd, server.pc = .Fork connfd) := by
  have lt : s.forked < limit := inv.limit.elim (fun none => none ▸ pos) id
  have server := inv.server
  match here : s.server with
  | .error ended =>
      rw [here] at server
      exact ⟨lt, server.2, fun _ _ => nofun⟩
  | .ok ⟨.Accept, fds⟩ =>
      rw [here] at server
      obtain ⟨-, same⟩ := server
      exact ⟨lt, by omega, by omega⟩
  | .ok ⟨.Fork connfd, fds⟩ =>
      rw [here] at server
      obtain ⟨-, -, same⟩ := server
      refine ⟨lt, by omega, ?_⟩
      rintro - _ ⟨⟩
      exact ⟨connfd, rfl⟩
  | .ok ⟨.Close connfd, fds⟩ =>
      rw [here] at server
      obtain ⟨-, k, -, -, same⟩ := server
      exact ⟨lt, by omega, by omega⟩

/-- **The server serves fewer connections than there are processes**, however many of its
children have exited, since it waits for none of them: the connection after is accepted, and
from there on the server is in a `Fork` that can only fail, or has exited. -/
theorem forked_lt (based : Based listenfd base) (pos : 0 < limit)
    (reach : (system clients listenfd limit base).Reachable s) :
    s.forked < limit ∧ s.accepted ≤ limit ∧ (s.accepted = limit → ∀ t,
      (system clients listenfd limit base).Reaches (fun _ => True) s t →
        t.forked + 1 = limit ∧
          ∀ server, t.server = .ok server → ∃ connfd, server.pc = .Fork connfd) := by
  obtain ⟨lt, le, -⟩ := (Inv.of_reachable based reach).accepted_le pos
  refine ⟨lt, by omega, fun full t after => ?_⟩
  obtain ⟨lt, le, stuck⟩ := (Inv.of_reachable based (reach.reaches after)).accepted_le pos
  have kept := accepted_mono after
  have last : t.forked + 1 = limit := by omega
  exact ⟨last, stuck (by omega)⟩

/-- The one child that two entries leave room for has exited, but not left its entry. -/
def outlived : List Action :=
  [.accept (.ok 4), .fork (.ok ()), .close (.ok ())] ++ List.replicate 10 (.child 0 (.ok ())) ++
    [.accept (.ok 4)]

theorem forked_lt_two : ∃ s c, (system pair 3 2 listening).run (start listening) outlived = some s ∧
    s.children 0 = some c ∧ c.pc = .exited none ∧
    ∀ t, (system pair 3 2 listening).Reaches (fun _ => True) s t → t.forked = 1 := by
  have run : (system pair 3 2 listening).run (start listening) outlived = some _ := rfl
  obtain ⟨-, -, full⟩ := forked_lt based_listening (by decide) (.of_run rfl run)
  exact ⟨_, _, run, rfl, rfl, fun t after => Nat.succ.inj (full rfl t after).1⟩

end State

end Codesnip.Net.MultiProcess
