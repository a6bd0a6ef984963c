/-
# Net.Reset -- what a failing read does to `network_area::PollServer`

The loop has a branch for a read that fails: a client that is reset is closed and its entry
freed, any other error is only printed.  `serveClient` is the loop's body with that branch,
over the `Read` of `unit/syscallwrap.cpp` as it is written, with the result of `read` in a
`size_t`.  There -1 is `SIZE_MAX`, which the comparison with -1 finds, so the process has
exited before the branch is reached: `serveClient` is `readClient` (`serveClient_eq`), and
no turn recovers from a read that fails (`not_recovers`).
-/
import Codesnip.Net.PollCalls

namespace Codesnip.Net

set_option autoImplicit false
set_option linter.dupNamespace false

/-- The `ssize_t` that `read` returns. -/
def readCount : Except Int32 Chunk → Int64
  | .ok chunk => Int64.ofNat chunk.bytes.length
  | .error _ => -1

/-- What `read` has put into the buffer. -/
def readBytes : Except Int32 Chunk → List UInt8
  | .ok chunk => chunk.bytes
  | .error _ => []

def readErrno : Except Int32 Chunk → Int32
  | .ok _ => 0
  | .error errno => errno

/-- `Read`, which compares its `size_t` with -1 and returns it as a `ssize_t`. -/
def ReadCount (answer : Except Int32 Chunk) : Except Ended Int64 :=
  let n : UInt64 := (readCount answer).toUInt64
  if n = (-1 : Int64).toUInt64 then .error (.exit ⟨"read erro", readErrno answer⟩)
  else .ok n.toInt64

theorem toInt_readCount (chunk : Chunk) : (readCount (.ok chunk)).toInt = chunk.bytes.length := by
  have fits := chunk.fits
  exact Int64.toInt_ofNat_of_lt (by omega)

theorem readCount_ok (chunk : Chunk) : ReadCount (.ok chunk) = .ok (readCount (.ok chunk)) := by
  have count := toInt_readCount chunk
  have ne : (readCount (.ok chunk)).toUInt64 ≠ (-1 : Int64).toUInt64 := by
    intro same
    have minus : readCount (.ok chunk) = -1 := congrArg UInt64.toInt64 same
    rw [minus] at count
    have nonneg := count.symm ▸ Int.natCast_nonneg chunk.bytes.length
    exact absurd nonneg (by decide)
  rw [ReadCount, if_neg ne]
  rfl

theorem readCount_error (errno : Int32) :
    ReadCount (.error errno) = .error (.exit ⟨"read erro", errno⟩) := by
  rw [ReadCount, readCount, if_pos rfl]
  rfl

namespace PollServer.Server

open Codesnip.Theory
open Codesnip.Theory.Slots (occupied vacancy)
open Codesnip.Theory.Sweep
open Codesnip.Theory.Transition (System)

def ECONNRESET : Int32 := 104

theorem size_set (i : Nat) (entry : Pollfd) (s : Server) :
    (s.client.set i { entry with fd := -1 }).length = OPEN_MAX := by
  rw [List.length_set, s.size]

/-- `client[i]`, which is `entry`, is ready. -/
def serveClient (a : Answers) (i : Nat) (entry : Pollfd) (s : Server) : Except Ended Server := do
  let n ← ReadCount (a.read entry.fd)
  let buf := s.buf.store 0 (readBytes (a.read entry.fd))
  if n < 0 then
    if readErrno (a.read entry.fd) = ECONNRESET then
      Close (a.close entry.fd)
      pure { s with
        client := s.client.set i { entry with fd := -1 }
        size := size_set i entry s
        log := s.log ++ [.close entry.fd, .handled entry.fd] }
    else pure s
  else if n = 0 then
    Close (a.close entry.fd)
    pure { s with
      client := s.client.set i { entry with fd := -1 }
      size := size_set i entry s
      buf
      log := s.log ++ [.read entry.fd [], .close entry.fd, .handled entry.fd] }
  else
    pure { s with
      buf
      log := s.log ++
        [.read entry.fd (readBytes (a.read entry.fd)), .report entry.fd (num buf)] }

variable {listenfd fd : Int} {errno : Int32} {s : Server} {a : Answers}

/-- The branch is never taken. -/
theorem serveClient_eq (a : Answers) (i : Nat) (entry : Pollfd) (s : Server) :
    s.serveClient a i entry = (s.readClient a i entry).result := by
  cases answer : a.read entry.fd with
  | error errno =>
      rw [serveClient, readClient, answer, readCount_error]
      rfl
  | ok chunk =>
      have count := toInt_readCount chunk
      have nonneg : ¬ readCount (.ok chunk) < 0 := by
        rw [Int64.lt_iff_toInt_lt, count]
        exact Int.not_lt.mpr (Int.natCast_nonneg _)
      have zero : readCount (.ok chunk) = 0 ↔ chunk.bytes = [] := by
        rw [← Int64.toInt_inj, count, ← List.length_eq_zero_iff]
        exact Int.natCast_eq_zero
      rw [serveClient, readClient, answer, readCount_ok]
      change (if readCount (.ok chunk) < 0 then _ else if readCount (.ok chunk) = 0 then _ else _) =
        (if chunk.bytes = [] then _ else _ : Traced Call Ended Server).result
      rw [if_neg nonneg]
      by_cases empty : chunk.bytes = []
      · rw [if_pos (zero.mpr empty), if_pos empty, Traced.result_bind]
        rfl
      · rw [if_neg (mt zero.mp empty), if_neg empty]
        rfl

/-- The server is through with a failed read of `fd`: it still runs, a client that was reset is
closed and its entry free, the entries of the clients whose reads do not fail or end are what
they were, and every other client that is ready has been read. -/
def Recovers (listenfd : Int) (revents : Nat → Int16) (s : Server) (a : Answers) (fd : Int)
    (errno : Int32) : Prop :=
  ∃ s', s.iteration listenfd a = .ok s' ∧
    (errno = ECONNRESET → ¬ Opened fd (connections s'.log) ∧ fd ∉ occupied held s'.fds) ∧
    (∀ (i : Nat) (other : Pollfd) (chunk : Chunk), 1 ≤ i → s.client[i]? = some other →
      0 ≤ other.fd → a.read other.fd = .ok chunk → chunk.bytes ≠ [] →
      (s'.client[i]?).map (fun entry => (entry.fd, entry.events)) = some (other.fd, other.events)) ∧
    ∀ other ∈ s.readyClients revents, .Read other ∈ (s.iterationCalls listenfd a).calls

theorem readClient_error {i : Nat} {entry : Pollfd} (fails : a.read entry.fd = .error errno) :
    (s.readClient a i entry).result = .error (.exit ⟨"read erro", errno⟩) := by
  rw [readClient, fails]
  rfl

theorem iteration_error (fails : a.read fd = .error errno)
    (called : .Read fd ∈ (s.iterationCalls listenfd a).calls) :
    s.iteration listenfd a = .error (.exit ⟨"read erro", errno⟩) := by
  refine EventLoop.turn_error (fun i entry s same => ?_) called
  obtain rfl : entry.fd = fd := same
  exact readClient_error fails

/-- **No turn in which a read fails recovers from it**: the process exits. -/
theorem not_recovers (listenfd : Int) (revents : Nat → Int16) (s : Server) (a : Answers)
    (fd : Int) (errno : Int32) (fails : a.read fd = .error errno)
    (called : .Read fd ∈ (s.iterationCalls listenfd a).calls) :
    ¬ Recovers listenfd revents s a fd errno := by
  rintro ⟨s', turned, -⟩
  rw [iteration_error fails called] at turned
  cases turned

/-! ## The first client is reset -/

theorem read_first {nready : Int} {revents : Nat → Int16} {entry : Pollfd} (maxi : 1 ≤ s.maxi)
    (here : s.client[1]? = some entry) (nonneg : 0 ≤ entry.fd)
    (polled : a.poll = .ready nready revents) (quiet : revents 0 &&& POLLRDNORM = 0)
    (readable : revents 1 &&& (POLLRDNORM ||| POLLERR) ≠ 0) :
    .Read entry.fd ∈ (s.iterationCalls listenfd a).calls := by
  obtain ⟨count, split⟩ : ∃ count, s.maxi.toNat = count + 1 := ⟨s.maxi.toNat - 1, by omega⟩
  have listener : ¬ (s.poll (.ready nready revents)).2.ListenerReady := by
    rintro ⟨first, at_zero, events⟩
    rw [poll_ready_getElem? s nready revents (by omega)] at at_zero
    obtain ⟨old, -, rfl⟩ := Option.map_eq_some_iff.mp at_zero
    exact events quiet
  have at_one := poll_ready_getElem? s nready revents (i := 1) maxi
  rw [here, Option.map_some] at at_one
  have unready : ¬ (loop listenfd a).listening (s.poll (.ready nready revents)).2 = true :=
    fun ready => listener (of_decide_eq_true ready)
  rw [iterationCalls, polled]
  dsimp only
  rw [EventLoop.turn, if_neg unready, EventLoop.scanClients]
  simp only [loop, (poll_rest _ s).1, split, EventLoop.scan, at_one]
  rw [if_neg (Int.not_lt.mpr nonneg), if_pos (decide_eq_true readable)]
  refine Traced.mem_calls_bind.mpr (.inl ?_)
  rw [calls_readClient]
  exact List.mem_singleton_self _

/-- Where the first entry is vacant, it takes the next client. -/
theorem connects_first {connfd x : Int} (inv : Inv listenfd s) (slot : s.fds[0]? = some x)
    (vacant : held x = false) : ∃ s' entry, s.iteration listenfd (connects connfd) = .ok s' ∧
      1 ≤ s'.maxi ∧ s'.client[1]? = some entry ∧ entry.fd = connfd := by
  have fds := poll_fds (connects connfd).poll s
  have vacancy_zero : vacancy held (s.poll (connects connfd).poll).2.fds = 0 := by
    rw [fds]
    exact Slots.vacancy_first slot vacant
  rw [← fds, fds_getElem?] at slot
  obtain ⟨entry, here, -⟩ := Option.map_eq_some_iff.mp slot
  have inside := (List.getElem?_eq_some_iff.mp here).1
  have stored : (s.poll (connects connfd).poll).2.newClient connfd =
      .ok ((s.poll (connects connfd).poll).2.store connfd 1 entry) := by
    rw [newClient, vacancy_zero]
    simp only [here]
  have turned : s.iteration listenfd (connects connfd) =
      .ok ((s.poll (connects connfd).poll).2.store connfd 1 entry) := by
    rw [iteration, iterationCalls, EventLoop.result_turn (decide_eq_true inv.ready_connects) rfl]
    change (s.poll (connects connfd).poll).2.newClient connfd >>= _ = _
    rw [stored]
    rfl
  exact ⟨_, { entry with fd := connfd, events := POLLRDNORM }, turned, Int.le_max_left _ _,
    List.getElem?_set_self inside, rfl⟩

theorem first_client : ∃ s entry, (system 3).Reachable (.ok s) ∧ 1 ≤ s.maxi ∧
    s.client[1]? = some entry ∧ entry.fd = 4 := by
  have inv : Inv 3 (start 3 (fun _ => ⟨0, 0, 0⟩) fun _ => 0) := Inv.start
  have reachable : (system 3).Reachable (.ok (start 3 (fun _ => ⟨0, 0, 0⟩) fun _ => 0)) :=
    System.Reachable.init ⟨_, _, rfl⟩
  have slot : (start 3 (fun _ => ⟨0, 0, 0⟩) fun _ => 0).fds[0]? = some (-1) := by decide +kernel
  have closed : ¬ Opened 4 (connections []) := by decide
  have permits : (start 3 (fun _ => ⟨0, 0, 0⟩) fun _ => 0).Permits 3 (connects 4) :=
    permits_connects (by decide) (by decide) closed
  obtain ⟨s, entry, turned, maxi, here, fd⟩ := connects_first inv slot rfl
  exact ⟨s, entry, reachable.step ((step_of_permits permits).trans (congrArg some turned)), maxi,
    here, fd⟩

/-- A turn in which the client 4 has been reset. -/
def resets : Answers :=
  { poll := .ready 1 fun i => if i = 1 then POLLRDNORM ||| POLLERR else 0
    accept := .error 11
    read := fun _ => .error ECONNRESET
    close := fun _ => .ok () }

/-- Its failing read takes the server down. -/
theorem not_recovers_reset : ∃ s, (system 3).Reachable (.ok s) ∧ s.Permits 3 resets ∧
    .Read 4 ∈ (s.iterationCalls 3 resets).calls ∧
    ¬ Recovers 3 (fun i => if i = 1 then POLLRDNORM ||| POLLERR else 0) s resets 4 ECONNRESET := by
  obtain ⟨s, entry, reachable, maxi, here, fd⟩ := first_client
  have called : .Read entry.fd ∈ (s.iterationCalls 3 resets).calls :=
    read_first maxi here (by omega) rfl rfl (by decide)
  have permits : s.Permits 3 resets := fun _ answer => by cases answer
  rw [fd] at called
  refine ⟨s, reachable, permits, called, ?_⟩
  rintro ⟨s', turned, -⟩
  rw [iteration_error rfl called] at turned
  cases turned

theorem not_recovers_four : ∃ s, (system 3).Reachable (.ok s) ∧
    ¬ Recovers 3 (fun i => if i = 1 then POLLRDNORM ||| POLLERR else 0) s resets 4 ECONNRESET := by
  obtain ⟨s, entry, reachable, maxi, here, fd⟩ := first_client
  have called : .Read entry.fd ∈ (s.iterationCalls 3 resets).calls :=
    read_first maxi here (by omega) rfl rfl (by decide)
  rw [fd] at called
  exact ⟨s, reachable, not_recovers 3 _ s resets 4 ECONNRESET rfl called⟩

end PollServer.Server

end Codesnip.Net
