/-
# Net.PollServer -- the loop of `network_area::PollServer`

One turn is one step, with the kernel's answers to `Poll`, `Accept` and the `read` and
`close` of each descriptor.  `Poll` fails, or fills in the `revents` of the entries it
was given, in any way and with any count.  What `client` holds before it is written is
arbitrary: only the `fd` fields and the entry of the listener are set up.

`Read` ends the process where `read` returns -1, so the branch for `n < 0` is never
taken and not in `readClient`.  When all entries are taken `i` is left at `OPEN_MAX`, and
`client[i].events` is outside the array.

A turn is defined exactly if it accepts no connection while `OPEN_MAX - 1` clients are
connected (`always_iff`).
-/
import Codesnip.Theory.Slots
import Codesnip.Net.Calls
import Codesnip.Net.Connection

namespace Codesnip.Net.PollServer

open Codesnip.Theory
open Codesnip.Theory.Slots (occupied vacancy Within)
open Codesnip.Theory.Sweep
open Codesnip.Theory.Transition (System)

set_option autoImplicit false
set_option linter.dupNamespace false

def OPEN_MAX : Nat := 1024

def POLLRDNORM : Int16 := 0x040

def POLLERR : Int16 := 0x008

structure Pollfd where
  fd : Int
  events : Int16
  revents : Int16
  deriving DecidableEq

structure Server where
  client : List Pollfd
  size : client.length = OPEN_MAX
  maxi : Int
  buf : Buffer
  log : List Event

inductive Polled where
  | failed
  | ready (nready : Int) (revents : Nat → Int16)

/-- The kernel's answers in one turn. -/
structure Answers where
  poll : Polled
  accept : Except Int32 Int
  read : Int → Except Int32 Chunk
  close : Int → Except Int32 Unit

namespace Server

/-- `nready = Poll(client, maxi + 1, INFTIM)`. -/
def poll (answer : Polled) (s : Server) : Int × Server :=
  match answer with
  | .failed => (-1, s)
  | .ready nready revents =>
      (nready, { s with
        client := s.client.mapIdx fun i entry =>
          if i < s.maxi + 1 then { entry with revents := revents i } else entry
        size := by rw [List.length_mapIdx, s.size] })

/-- The descriptors of `client` from 1 on. -/
def fds (s : Server) : List Int := s.client.tail.map Pollfd.fd

/-- The new connection is put into `client[i]`, which held `entry`. -/
def store (connfd : Int) (i : Nat) (entry : Pollfd) (s : Server) : Server :=
  { s with
    client := s.client.set i { entry with fd := connfd, events := POLLRDNORM }
    size := by rw [List.length_set, s.size]
    maxi := max i s.maxi
    log := s.log ++ [.accept connfd] }

def newClient (connfd : Int) (s : Server) : Except Ended Server :=
  let i := 1 + vacancy held s.fds
  match s.client[i]? with
  | none => .error (.undefined (.client i))
  | some entry => .ok (s.store connfd i entry)

/-- `client[i]`, which is `entry`, is ready. -/
def readClient (a : Answers) (i : Nat) (entry : Pollfd) (s : Server) :
    Traced Call Ended Server := do
  let chunk ← .call (.Read entry.fd) (Read (a.read entry.fd))
  let buf := s.buf.store 0 chunk.bytes
  if chunk.bytes = [] then
    .silent (Close (a.close entry.fd))
    pure { s with
      client := s.client.set i { entry with fd := -1 }
      size := by rw [List.length_set, s.size]
      buf
      log := s.log ++ [.read entry.fd [], .close entry.fd, .handled entry.fd] }
  else
    pure { s with
      buf
      log := s.log ++ [.read entry.fd chunk.bytes, .report entry.fd (num buf)] }

theorem calls_readClient (a : Answers) (i : Nat) (entry : Pollfd) (s : Server) :
    (s.readClient a i entry).calls = [.Read entry.fd] := by
  unfold readClient
  cases a.read entry.fd with
  | error errno => rfl
  | ok chunk =>
      rw [Traced.bind_ok (show (Traced.call _ (Read (.ok chunk))).result = .ok chunk from rfl)]
      split
      · cases a.close entry.fd <;> rfl
      · rfl

/-- `client[0].revents & POLLRDNORM`. -/
def ListenerReady (s : Server) : Prop := ∃ entry ∈ s.client[0]?, entry.revents &&& POLLRDNORM ≠ 0

instance (s : Server) : Decidable s.ListenerReady :=
  inferInstanceAs (Decidable (∃ entry ∈ s.client[0]?, entry.revents &&& POLLRDNORM ≠ 0))

/-- The `for (;;)`: `client[0].revents & POLLRDNORM`, then `client[i].revents &
(POLLRDNORM | POLLERR)` for `client[1]` to `client[maxi]`. -/
def loop (listenfd : Int) (a : Answers) : EventLoop Server Pollfd where
  client s i := s.client[i]?
  fd := Pollfd.fd
  first := 1
  count s := s.maxi.toNat
  listenfd := listenfd
  listening s := s.ListenerReady
  ready entry := entry.revents &&& (POLLRDNORM ||| POLLERR) ≠ 0
  accept := a.accept
  newClient := newClient
  readClient := readClient a
  reads := calls_readClient a

/-- One turn of the `for (;;)`, with the calls it makes. -/
def iterationCalls (listenfd : Int) (a : Answers) (s : Server) : Traced Call Ended Server :=
  let (nready, s) := s.poll a.poll
  (loop listenfd a).turn nready s

def iteration (listenfd : Int) (a : Answers) (s : Server) : Except Ended Server :=
  (s.iterationCalls listenfd a).result

/-- `Accept` returns a descriptor that is not open. -/
def Permits (listenfd : Int) (s : Server) (a : Answers) : Prop :=
  ∀ connfd ∈ a.accept.toOption, Fresh listenfd connfd s.log

instance (listenfd : Int) (s : Server) (a : Answers) : Decidable (s.Permits listenfd a) :=
  inferInstanceAs (Decidable (∀ connfd ∈ a.accept.toOption, Fresh listenfd connfd s.log))

/-- Before the loop; `memory` is what `client` held. -/
def start (listenfd : Int) (memory : Nat → Pollfd) (buf : Buffer) : Server where
  client := (List.range OPEN_MAX).map fun i =>
    if i = 0 then { memory i with fd := listenfd, events := POLLRDNORM }
    else { memory i with fd := -1 }
  size := by simp
  maxi := 0
  buf := buf
  log := []

end Server

def system (listenfd : Int) : System (Except Ended Server) Answers :=
  { Init := fun s => ∃ memory buf, s = .ok (Server.start listenfd memory buf)
    step := turn (Server.Permits listenfd) (Server.iteration listenfd) }

namespace Server

variable {listenfd connfd : Int} {s : Server} {a : Answers}

/-! ## The table -/

/-- The table as it should be: `Poll` is given no entry outside `client`, and each
open descriptor has one entry, of those `Poll` is given, with its events. -/
structure Table (s : Server) : Prop where
  maxi_lt : s.maxi + 1 ≤ OPEN_MAX
  stored : ∀ fd, Opened fd (connections s.log) → ∃ (i : Nat) (entry : Pollfd),
    1 ≤ i ∧ (i : Int) ≤ s.maxi ∧ s.client[i]? = some entry ∧ entry.fd = fd ∧
      entry.events = POLLRDNORM ∧
      ∀ (j : Nat) (other : Pollfd), s.client[j]? = some other → other.fd = fd → j = i

structure Inv (listenfd : Int) (s : Server) : Prop where
  tracks : Tracks (occupied held s.fds) (connections s.log)
  listener : ∃ entry, s.client[0]? = some entry ∧ entry.fd = listenfd
  apart : listenfd ∉ occupied held s.fds
  events : ∀ (i : Nat) (entry : Pollfd), 1 ≤ i → s.client[i]? = some entry → 0 ≤ entry.fd →
    entry.events = POLLRDNORM
  within : Within held (s.maxi - 1) s.fds
  maxi : 0 ≤ s.maxi ∧ s.maxi < OPEN_MAX

/-- How many clients are connected. -/
def connected (s : Server) : Nat := (connections s.log).countP Connection.isOpen

theorem fds_getElem? (s : Server) (i : Nat) : s.fds[i]? = s.client[i + 1]?.map Pollfd.fd := by
  simp [fds]

theorem length_fds (s : Server) : s.fds.length = OPEN_MAX - 1 := by simp [fds, s.size]

theorem fds_set {s' : Server} {i : Nat} {entry : Pollfd}
    (set : s'.client = s.client.set (i + 1) entry) : s'.fds = s.fds.set i entry.fd := by
  rw [fds, fds, set]
  cases s.client with
  | nil => rfl
  | cons first rest => simp [List.map_set]

theorem poll_getElem? (answer : Polled) (s : Server) (i : Nat) :
    (s.poll answer).2.client[i]?.map Pollfd.fd = s.client[i]?.map Pollfd.fd ∧
      (s.poll answer).2.client[i]?.map Pollfd.events = s.client[i]?.map Pollfd.events := by
  cases answer with
  | failed => exact ⟨rfl, rfl⟩
  | ready nready revents =>
      cases here : s.client[i]? with
      | none => simp [poll, here]
      | some entry =>
          simp only [poll, List.getElem?_mapIdx, here, Option.map_some]
          split <;> exact ⟨rfl, rfl⟩

/-- `Poll` changes neither a descriptor nor the events asked for. -/
theorem poll_fds (answer : Polled) (s : Server) : (s.poll answer).2.fds = s.fds := by
  apply List.ext_getElem?
  intro i
  rw [fds_getElem?, fds_getElem?, (poll_getElem? answer s (i + 1)).1]

theorem client_sized (s : Server) (i : Nat) (lt : i < OPEN_MAX) :
    ∃ k, (loop listenfd a).client s i = some k :=
  ⟨_, List.getElem?_eq_getElem (s.size.symm ▸ lt)⟩

theorem poll_rest (answer : Polled) (s : Server) :
    (s.poll answer).2.maxi = s.maxi ∧ (s.poll answer).2.log = s.log := by
  cases answer <;> exact ⟨rfl, rfl⟩

namespace Inv

theorem connected_eq (inv : Inv listenfd s) : (occupied held s.fds).length = s.connected :=
  inv.tracks.count

/-- There is room exactly as long as fewer than `OPEN_MAX - 1` clients are connected. -/
theorem room_iff (inv : Inv listenfd s) :
    vacancy held s.fds < OPEN_MAX - 1 ↔ s.connected < OPEN_MAX - 1 := by
  rw [← inv.connected_eq, ← s.length_fds, Slots.vacancy_lt_iff]

theorem poll (inv : Inv listenfd s) (answer : Polled) : Inv listenfd (s.poll answer).2 := by
  obtain ⟨maxi, log⟩ := poll_rest answer s
  obtain ⟨listener, first, is_listener⟩ := inv.listener
  refine ⟨?_, ?_, ?_, fun i entry pos here nonneg => ?_, ?_, maxi ▸ inv.maxi⟩
  · rw [poll_fds, log]
    exact inv.tracks
  · have same := (poll_getElem? answer s 0).1
    rw [first, Option.map_some, Option.map_eq_some_iff] at same
    obtain ⟨entry, here, eq⟩ := same
    exact ⟨entry, here, eq.trans is_listener⟩
  · rw [poll_fds]
    exact inv.apart
  · obtain ⟨fd, events⟩ := poll_getElem? answer s i
    rw [here, Option.map_some, eq_comm, Option.map_eq_some_iff] at fd events
    obtain ⟨before, at_i, eq⟩ := fd
    obtain ⟨before', at_i', eq'⟩ := events
    obtain rfl : before = before' := Option.some.inj (at_i.symm.trans at_i')
    rw [← eq']
    exact inv.events i before pos at_i (eq ▸ nonneg)
  · rw [poll_fds, maxi]
    exact inv.within

/-- The entries from 1 on after an entry is overwritten. -/
theorem events_set (inv : Inv listenfd s) (k : Nat) {entry : Pollfd}
    (events : 0 ≤ entry.fd → entry.events = POLLRDNORM) {i : Nat} {found : Pollfd} (pos : 1 ≤ i)
    (here : (s.client.set k entry)[i]? = some found) (nonneg : 0 ≤ found.fd) :
    found.events = POLLRDNORM := by
  by_cases same : k = i
  · subst same
    obtain ⟨-, rfl⟩ : k < s.client.length ∧ entry = found := by
      simpa [List.getElem?_set, and_comm] using here
    exact events nonneg
  · rw [List.getElem?_set_ne same] at here
    exact inv.events i found pos here nonneg

theorem store {k : Nat} {x : Int} {entry : Pollfd} (inv : Inv listenfd s)
    (free : s.fds[k]? = some x) (vacant : held x = false) (nonneg : 0 ≤ connfd)
    (ne : connfd ≠ listenfd) (closed : ¬ Opened connfd (connections s.log)) :
    Inv listenfd (s.store connfd (1 + k) entry) := by
  have fill := Slots.occupied_fill free vacant ((held_iff connfd).mpr nonneg)
  have fds : (s.store connfd (1 + k) entry).fds = s.fds.set k connfd := by
    have set : (s.store connfd (1 + k) entry).client =
        s.client.set (k + 1) { entry with fd := connfd, events := POLLRDNORM } := by
      rw [Nat.add_comm k]
      rfl
    exact fds_set set
  have lt : k < OPEN_MAX - 1 := by
    rw [← s.length_fds]
    exact (List.getElem?_eq_some_iff.mp free).1
  obtain ⟨listener, first, is_listener⟩ := inv.listener
  obtain ⟨low, high⟩ := inv.maxi
  have apart := inv.apart
  refine ⟨?_, ⟨listener, ?_, is_listener⟩, ?_, fun i found pos here holds => ?_, ?_, ?_⟩
  · rw [fds]
    change Tracks _ (connections (s.log ++ [.accept connfd]))
    rw [connections_accept]
    exact (inv.tracks.accept closed).perm fill.symm
  · exact (List.getElem?_set_ne (by omega)).trans first
  · rw [fds, fill.mem_iff, List.mem_cons]
    exact fun member => member.elim (fun same => ne same.symm) apart
  · exact inv.events_set (1 + k) (fun _ => rfl) pos here holds
  · have within := inv.within.fill k connfd
    rw [fds]
    intro i fd here holds
    have le := within i fd here holds
    simp only [Server.store]
    omega
  · simp only [Server.store]
    omega

/-- With room, the new connection is stored. -/
theorem newClient (inv : Inv listenfd s) (nonneg : 0 ≤ connfd) (ne : connfd ≠ listenfd)
    (closed : ¬ Opened connfd (connections s.log)) (room : s.connected < OPEN_MAX - 1) :
    ∃ s', s.newClient connfd = .ok s' ∧ Inv listenfd s' ∧ s'.log = s.log ++ [.accept connfd] := by
  have inside : vacancy held s.fds < s.fds.length := by
    rw [length_fds]
    exact inv.room_iff.mpr room
  obtain ⟨x, free, vacant⟩ := Slots.vacancy_vacant inside
  obtain ⟨entry, here, -⟩ := Option.map_eq_some_iff.mp ((fds_getElem? s _).symm.trans free)
  rw [Nat.add_comm] at here
  exact ⟨s.store connfd (1 + vacancy held s.fds) entry, by simp only [Server.newClient, here],
    inv.store free vacant nonneg ne closed, rfl⟩

/-- Without, its entry is outside the array. -/
theorem not_newClient (inv : Inv listenfd s) (full : ¬ s.connected < OPEN_MAX - 1) :
    s.newClient connfd = .error (.undefined (.client OPEN_MAX)) := by
  have top : vacancy held s.fds = OPEN_MAX - 1 := by
    have le : vacancy held s.fds ≤ _ := Slots.vacancy_le s.fds
    have ge := mt inv.room_iff.mp full
    rw [length_fds] at le
    omega
  have outside : s.client[1 + (OPEN_MAX - 1)]? = none := by
    rw [List.getElem?_eq_none_iff, s.size]
    decide
  simp only [Server.newClient, top, outside]
  rfl

theorem readClient {k : Nat} {entry : Pollfd} (inv : Inv listenfd s)
    (here : s.client[k + 1]? = some entry) (nonneg : 0 ≤ entry.fd) :
    Holds (Inv listenfd) (s.readClient a (k + 1) entry).result := by
  refine Holds.result_bind holds_wrapper fun chunk _ => ?_
  have slot : s.fds[k]? = some entry.fd := by rw [fds_getElem?, here]; rfl
  split
  · refine Holds.result_bind holds_wrapper fun _ _ => ?_
    have vacant : held (-1) = false := rfl
    have clear := Slots.occupied_clear slot ((held_iff entry.fd).mpr nonneg) vacant
    have tracks := (inv.tracks.perm clear).keep entry.fd
      (f := fun c => { c with received := c.received ++ [[]] }) fun _ => ⟨rfl, rfl, rfl⟩
    have apart := inv.apart
    rw [clear.mem_iff, List.mem_cons, not_or] at apart
    obtain ⟨listener, first, is_listener⟩ := inv.listener
    refine ⟨?_, ⟨listener, (List.getElem?_set_ne (by omega)).trans first, is_listener⟩, ?_,
      fun i found pos here holds => ?_, ?_, inv.maxi⟩
    · rw [fds_set rfl, connections_finish]
      exact tracks.finish
    · rw [fds_set rfl]
      exact apart.2
    · exact inv.events_set (k + 1) (fun negative => absurd negative (by simp)) pos here holds
    · rw [fds_set rfl]
      exact inv.within.clear k vacant
  · refine ⟨?_, inv.listener, inv.apart, inv.events, inv.within, inv.maxi⟩
    rw [connections_report]
    exact inv.tracks.keep entry.fd fun _ => ⟨rfl, rfl, rfl⟩

theorem table (inv : Inv listenfd s) : Table s where
  maxi_lt := by have := inv.maxi.2; omega
  stored fd opened := by
    have member := (inv.tracks.opened fd).mpr opened
    have ne : listenfd ≠ fd := fun same => inv.apart (same ▸ member)
    obtain ⟨member, nonneg⟩ := Slots.mem_occupied.mp member
    obtain ⟨k, slot⟩ := List.getElem?_of_mem member
    obtain ⟨entry, here, rfl⟩ := Option.map_eq_some_iff.mp ((fds_getElem? s k).symm.trans slot)
    have nonneg' := (held_iff entry.fd).mp nonneg
    refine ⟨k + 1, entry, by omega, ?_, here, rfl, inv.events (k + 1) entry (by omega) here nonneg',
      fun j other there same => ?_⟩
    · have le := inv.within k entry.fd slot nonneg
      omega
    · obtain ⟨listener, first, is_listener⟩ := inv.listener
      cases j with
      | zero =>
          obtain rfl := Option.some.inj (first.symm.trans there)
          exact absurd (is_listener.symm.trans same) ne
      | succ j =>
          have slot' : s.fds[j]? = some entry.fd := by
            rw [fds_getElem?, there, Option.map_some, same]
          rw [Slots.slot_unique inv.tracks.distinct nonneg slot slot']

theorem start {memory : Nat → Pollfd} {buf : Buffer} :
    Inv listenfd (Server.start listenfd memory buf) := by
  have vacant : ∀ fd ∈ (Server.start listenfd memory buf).fds, fd = -1 := by
    intro fd member
    obtain ⟨k, slot⟩ := List.getElem?_of_mem member
    obtain ⟨entry, here, rfl⟩ := Option.map_eq_some_iff.mp ((fds_getElem? _ k).symm.trans slot)
    obtain ⟨lt, rfl⟩ := List.getElem?_eq_some_iff.mp here
    simp [Server.start]
  have none : occupied held (Server.start listenfd memory buf).fds = [] := by
    refine List.filter_eq_nil_iff.mpr fun fd member => ?_
    rw [vacant fd member]
    decide
  refine ⟨?_, ⟨{ memory 0 with fd := listenfd, events := POLLRDNORM }, ?_, rfl⟩, ?_,
    fun i entry pos here nonneg => ?_, fun i fd here holds => ?_, Int.le_refl 0, ?_⟩
  · rw [none]
    exact .nil
  · simp [Server.start, OPEN_MAX]
  · simp [none]
  · obtain ⟨lt, rfl⟩ := List.getElem?_eq_some_iff.mp here
    have ne : i ≠ 0 := by omega
    simp [Server.start, ne] at nonneg
  · obtain rfl := vacant fd (List.mem_of_getElem? here)
    cases holds
  · simp [Server.start, OPEN_MAX]

end Inv

/-- The turn accepts a connection. -/
def Accepts (s : Server) (a : Answers) : Prop :=
  (s.poll a.poll).2.ListenerReady ∧ ∃ connfd, a.accept = .ok connfd

/-- It does so only while fewer than `OPEN_MAX - 1` clients are connected. -/
def Room (s : Server) (a : Answers) : Prop := s.Accepts a → s.connected < OPEN_MAX - 1

theorem poll_connected (answer : Polled) (s : Server) :
    (s.poll answer).2.connected = s.connected := by
  rw [connected, connected, (poll_rest answer s).2]

namespace Inv

theorem iteration (inv : Inv listenfd s) (permits : s.Permits listenfd a)
    (room : s.Room a) : Holds (Inv listenfd) (s.iteration listenfd a) := by
  refine EventLoop.turn_holds client_sized (fun s inv => ?_)
    (fun i entry s first inv here nonneg => ?_) (fun listens connfd answer => ?_)
    (inv.poll a.poll)
  · have := inv.maxi
    simp only [loop]
    omega
  · obtain ⟨k, rfl⟩ : ∃ k, i = k + 1 := Nat.exists_eq_add_of_le' first
    exact inv.readClient here nonneg
  · have answer : a.accept = .ok connfd := answer
    obtain ⟨nonneg, ne, closed⟩ := permits connfd (by simp [answer, Except.toOption])
    have room' := room ⟨of_decide_eq_true listens, connfd, answer⟩
    rw [← poll_connected a.poll] at room'
    rw [← (poll_rest a.poll s).2] at closed
    obtain ⟨t, stored, inv', -⟩ := (inv.poll a.poll).newClient nonneg ne closed room'
    show Holds _ ((s.poll a.poll).2.newClient connfd)
    rw [stored]
    exact inv'

theorem not_iteration (inv : Inv listenfd s) (full : ¬ s.Room a) {P : Server → Prop} :
    ¬ Holds P (s.iteration listenfd a) := by
  simp only [Room, not_forall] at full
  obtain ⟨⟨ready, connfd, answer⟩, full⟩ := full
  rw [← poll_connected a.poll] at full
  have listens : (loop listenfd a).listening (s.poll a.poll).2 = true := decide_eq_true ready
  have left : (loop listenfd a).newClient connfd (s.poll a.poll).2 = _ :=
    (inv.poll a.poll).not_newClient full
  rw [Server.iteration, iterationCalls, EventLoop.result_turn listens answer, left]
  exact id

end Inv

/-- **A property of the table holds exactly as long as no connection is accepted while
`OPEN_MAX - 1` clients are connected**, for whatever the invariant implies. -/
theorem always_iff {P : Server → Prop} (implied : ∀ s, Inv listenfd s → P s)
    {memory : Nat → Pollfd} {buf : Buffer} {as : List Answers} {y : Except Ended Server}
    (run : (system listenfd).run (.ok (start listenfd memory buf)) as = some y) :
    (system listenfd).Always (Holds P) (.ok (start listenfd memory buf)) as ↔
      (system listenfd).Steps (Turns Room) (.ok (start listenfd memory buf)) as :=
  Net.always_iff (x := .ok (start listenfd memory buf)) rfl (Turns Room)
    (fun _ _ inv permits room => inv.iteration permits (turns_ok.mp room))
    (fun _ _ inv _ full => inv.not_iteration fun room => full (turns_ok.mpr room)) implied
    Inv.start run

/-- **The table of `PollServer` is right exactly as long as no connection is accepted
while `OPEN_MAX - 1` clients are connected.** -/
theorem clients_stored_iff {memory : Nat → Pollfd} {buf : Buffer} {as : List Answers}
    {y : Except Ended Server}
    (run : (system listenfd).run (.ok (start listenfd memory buf)) as = some y) :
    (system listenfd).Always (Holds Table) (.ok (start listenfd memory buf)) as ↔
      (system listenfd).Steps (Turns Room) (.ok (start listenfd memory buf)) as :=
  always_iff (fun _ inv => inv.table) run

/-- A turn in which only the listener is ready. -/
def connects (connfd : Int) : Answers :=
  { poll := .ready 1 fun i => if i = 0 then POLLRDNORM else 0
    accept := .ok connfd
    read := fun _ => .error 11
    close := fun _ => .ok () }

theorem Inv.ready_connects (inv : Inv listenfd s) :
    (s.poll (connects connfd).poll).2.ListenerReady := by
  obtain ⟨entry, here, -⟩ := inv.listener
  have low : ((0 : Nat) : Int) < s.maxi + 1 := by have := inv.maxi; omega
  have entry' : (s.poll (connects connfd).poll).2.client[0]? =
      some { entry with revents := POLLRDNORM } := by
    simp only [Server.poll, connects, List.getElem?_mapIdx, here, Option.map_some, if_pos low,
      if_true]
  have ready : POLLRDNORM &&& POLLRDNORM ≠ 0 := by decide
  exact ⟨_, entry', ready⟩

theorem permits_connects (nonneg : 0 ≤ connfd) (ne : connfd ≠ listenfd)
    (closed : ¬ Opened connfd (connections s.log)) : s.Permits listenfd (connects connfd) := by
  simpa [Permits, connects, Except.toOption] using ⟨nonneg, ne, closed⟩

theorem step_of_permits (permits : s.Permits listenfd a) :
    (system listenfd).step (.ok s) a = some (s.iteration listenfd a) := if_pos permits

theorem Inv.step_connects (inv : Inv listenfd s) (nonneg : 0 ≤ connfd) (ne : connfd ≠ listenfd)
    (closed : ¬ Opened connfd (connections s.log)) (room : s.connected < OPEN_MAX - 1) :
    ∃ s', (system listenfd).step (.ok s) (connects connfd) = some (.ok s') ∧ Inv listenfd s' ∧
      s'.log = s.log ++ [.accept connfd] := by
  have log := (poll_rest (connects connfd).poll s).2
  have permits := permits_connects nonneg ne closed
  rw [← poll_connected (connects connfd).poll] at room
  rw [← log] at closed
  obtain ⟨t, stored, inv', log'⟩ := (inv.poll _).newClient nonneg ne closed room
  refine ⟨t, ?_, inv', log'.trans (by rw [log])⟩
  have turned : s.iteration listenfd (connects connfd) = .ok t := by
    rw [Server.iteration, iterationCalls,
      EventLoop.result_turn (decide_eq_true inv.ready_connects) rfl]
    change (s.poll (connects connfd).poll).2.newClient connfd >>= _ = _
    rw [stored]
    rfl
  rw [step_of_permits permits, turned]

/-- `n` clients connect one after the other. -/
def clients (n : Nat) : List Answers := (List.range n).map fun k : Nat => connects (4 + k)

theorem clients_succ (n : Nat) : clients (n + 1) = clients n ++ [connects (4 + n)] := by
  rw [clients, List.range_succ, List.map_append]
  rfl

theorem run_clients (memory : Nat → Pollfd) (buf : Buffer) {n : Nat} (le : n ≤ OPEN_MAX - 1) :
    ∃ s, (system 3).run (.ok (start 3 memory buf)) (clients n) = some (.ok s) ∧ Inv 3 s ∧
      s.connected = n ∧ ∀ fd, Opened fd (connections s.log) → fd < 4 + n := by
  induction n with
  | zero => exact ⟨start 3 memory buf, rfl, Inv.start, rfl, by simp [start, Opened, latest]⟩
  | succ n ih =>
      obtain ⟨s, run, inv, connected, below⟩ := ih (by omega)
      have closed : ¬ Opened (4 + n) (connections s.log) := fun opened => by
        have := below _ opened
        omega
      obtain ⟨s', step, inv', log⟩ := inv.step_connects (by omega) (by omega) closed (by omega)
      refine ⟨s', ?_, inv', ?_, fun fd opened => ?_⟩
      · rw [clients_succ]
        refine System.run_append_some run ?_
        simp [System.run, step]
      · rw [Server.connected, log, connections_accept, List.countP_cons]
        change s.connected + 1 = n + 1
        omega
      · rw [log, connections_accept] at opened
        by_cases same : 4 + (n : Int) = fd
        · omega
        · have before : Opened fd (connections s.log) := by
            simpa [Opened, latest, Connection.new, same] using opened
          have := below fd before
          omega

theorem clients_stored_iff_two :
    (system 3).Always (Holds Table) (.ok (start 3 (fun _ => ⟨0, 0, 0⟩) fun _ => 0)) (clients 2) ↔
      (system 3).Steps (Turns Room) (.ok (start 3 (fun _ => ⟨0, 0, 0⟩) fun _ => 0))
        (clients 2) := by
  obtain ⟨s, run, -⟩ := run_clients (fun _ => ⟨0, 0, 0⟩) (fun _ => 0) (n := 2) (by decide)
  exact clients_stored_iff run

/-- One client more than there is room for. -/
theorem clients_left (memory : Nat → Pollfd) (buf : Buffer) {n : Nat} (full : n = OPEN_MAX - 1) :
    ¬ (system 3).Always (Holds Table) (.ok (start 3 memory buf)) (clients (n + 1)) := by
  intro always
  obtain ⟨s, run, inv, connected, below⟩ := run_clients memory buf (Nat.le_of_eq full)
  have closed : ¬ Opened (4 + n) (connections s.log) := fun opened => by
    have := below _ opened
    omega
  have permits : s.Permits 3 (connects (4 + n)) :=
    permits_connects (by omega) (by omega) closed
  rw [clients_succ] at always
  refine inv.not_iteration (fun room => ?_)
    (always.final (System.run_append_some run (by rw [System.run, step_of_permits permits]; rfl)))
  have fewer := room ⟨inv.ready_connects, _, rfl⟩
  omega

theorem too_many_clients :
    ¬ (system 3).Always (Holds Table) (.ok (start 3 (fun _ => ⟨0, 0, 0⟩) fun _ => 0))
      (clients OPEN_MAX) :=
  clients_left (fun _ => ⟨0, 0, 0⟩) (fun _ => 0) rfl

end Server

end Codesnip.Net.PollServer
