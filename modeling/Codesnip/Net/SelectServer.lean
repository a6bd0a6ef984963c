/-
# Net.SelectServer -- the loop of `network_area::SelectServer`

One iteration is one step, with the kernel's answers in it as the action: what `Select`
returns and leaves in `rset`, what `Accept` returns, and what the `read` and the
`close` of each descriptor return.  The answer to `Select` is any subset of the set it
was given with any count, a failure being `allset` itself with -1; `Accept` returns any
descriptor that is not open.

`FD_SET` of a descriptor that the set has no bit for, and an index of `client` outside
the array, are undefined.  A full `client` is neither: the loop then only prints, and
goes on with `i` at `FD_SETSIZE`.

The table is right as long as every descriptor fits the set (`always_iff`), and such
descriptors are too few to fill `client` (`Inv.room`).
-/
import Mathlib.Data.Finset.Insert
import Mathlib.Data.Finset.Erase
import Codesnip.Theory.Slots
import Codesnip.Net.Calls
import Codesnip.Net.Connection

namespace Codesnip.Net.SelectServer

open Codesnip.Theory
open Codesnip.Theory.Slots (occupied vacancy Within)
open Codesnip.Theory.Sweep
open Codesnip.Theory.Transition (System)

set_option autoImplicit false
set_option linter.dupNamespace false

def FD_SETSIZE : Nat := 1024

structure Server where
  client : List Int
  size : client.length = FD_SETSIZE
  allset : Finset Int
  maxi : Int
  maxfd : Int
  buf : Buffer
  log : List Event

/-- The kernel's answers in one iteration. -/
structure Answers where
  nready : Int
  rset : Finset Int
  accept : Except Int32 Int
  read : Int → Except Int32 Chunk
  close : Int → Except Int32 Unit

def FD_SET (fd : Int) (fdset : Finset Int) : Except Ended (Finset Int) :=
  if 0 ≤ fd ∧ fd < FD_SETSIZE then .ok (insert fd fdset) else .error (.undefined (.FD_SET fd))

namespace Server

/-- The new connection; `i` is `FD_SETSIZE` when there are too many clients. -/
def newClient (connfd : Int) (s : Server) : Except Ended Server := do
  let i := vacancy held s.client
  let allset ← FD_SET connfd s.allset
  pure { s with
    client := s.client.set i connfd
    size := by rw [List.length_set, s.size]
    allset
    maxfd := max connfd s.maxfd
    maxi := max i s.maxi
    log := s.log ++ [.accept connfd] }

/-- `client[i]`, which is `sockfd`, is ready. -/
def readClient (a : Answers) (i : Nat) (sockfd : Int) (s : Server) :
    Traced Call Ended Server := do
  let chunk ← .call (.Read sockfd) (Read (a.read sockfd))
  let buf := s.buf.store 0 chunk.bytes
  if chunk.bytes = [] then
    .silent (Close (a.close sockfd))
    pure { s with
      client := s.client.set i (-1)
      size := by rw [List.length_set, s.size]
      allset := s.allset.erase sockfd
      buf
      log := s.log ++ [.read sockfd [], .close sockfd, .handled sockfd] }
  else
    pure { s with
      buf
      log := s.log ++ [.read sockfd chunk.bytes, .report sockfd (num buf)] }

theorem calls_readClient (a : Answers) (i : Nat) (sockfd : Int) (s : Server) :
    (s.readClient a i sockfd).calls = [.Read sockfd] := by
  unfold readClient
  cases a.read sockfd with
  | error errno => rfl
  | ok chunk =>
      rw [Traced.bind_ok (show (Traced.call _ (Read (.ok chunk))).result = .ok chunk from rfl)]
      split
      · cases a.close sockfd <;> rfl
      · rfl

/-- The `for (;;)`: `FD_ISSET(listenfd, &rset)`, then `FD_ISSET(sockfd, &rset)` for
`client[0]` to `client[maxi]`. -/
def loop (listenfd : Int) (a : Answers) : EventLoop Server Int where
  client s i := s.client[i]?
  fd := id
  first := 0
  count s := (s.maxi + 1).toNat
  listenfd := listenfd
  listening _ := listenfd ∈ a.rset
  ready sockfd := sockfd ∈ a.rset
  accept := a.accept
  newClient := newClient
  readClient := readClient a
  reads := calls_readClient a

/-- One turn of the `for (;;)`, with the calls it makes. -/
def iterationCalls (listenfd : Int) (a : Answers) (s : Server) : Traced Call Ended Server :=
  (loop listenfd a).turn a.nready s

def iteration (listenfd : Int) (a : Answers) (s : Server) : Except Ended Server :=
  (s.iterationCalls listenfd a).result

/-- Answers the kernel can give. -/
def Permits (listenfd : Int) (s : Server) (a : Answers) : Prop :=
  a.rset ⊆ s.allset ∧
    (listenfd ∈ a.rset → ∀ connfd ∈ a.accept.toOption, Fresh listenfd connfd s.log)

instance (listenfd : Int) (s : Server) (a : Answers) : Decidable (s.Permits listenfd a) :=
  inferInstanceAs (Decidable (_ ∧ (_ → _)))

/-- Before the loop, `buf` not yet written. -/
def start (listenfd : Int) (buf : Buffer) : Except Ended Server := do
  let allset ← FD_SET listenfd ∅
  pure
    { client := List.replicate FD_SETSIZE (-1)
      size := List.length_replicate
      allset
      maxi := -1
      maxfd := listenfd
      buf
      log := [] }

end Server

def system (listenfd : Int) : System (Except Ended Server) Answers :=
  { Init := fun s => ∃ buf, s = Server.start listenfd buf
    step := turn (Server.Permits listenfd) (Server.iteration listenfd) }

namespace Server

/-! ## The table -/

/-- The table as it should be: the entries of `client` in use are distinct and
are `allset` without the listener, below the marks. -/
structure Table (listenfd : Int) (s : Server) : Prop where
  distinct : (s.client.filter fun fd => 0 ≤ fd).Nodup
  members : ∀ fd, fd ∈ s.client ∧ 0 ≤ fd ↔ fd ∈ s.allset ∧ fd ≠ listenfd
  indices : ∀ (i : Nat) (fd : Int), s.client[i]? = some fd → 0 ≤ fd → (i : Int) ≤ s.maxi
  maxi_lt : s.maxi < FD_SETSIZE
  bounds : ∀ fd ∈ s.allset, fd ≤ s.maxfd ∧ fd < FD_SETSIZE

structure Inv (listenfd : Int) (s : Server) : Prop where
  tracks : Tracks (occupied held s.client) (connections s.log)
  members : ∀ fd, fd ∈ s.allset ↔ fd = listenfd ∨ fd ∈ occupied held s.client
  apart : listenfd ∉ occupied held s.client
  bounds : ∀ fd ∈ s.allset, 0 ≤ fd ∧ fd < FD_SETSIZE ∧ fd ≤ s.maxfd
  within : Within held s.maxi s.client
  maxi_lt : s.maxi < FD_SETSIZE

variable {listenfd connfd sockfd : Int} {s : Server} {a : Answers}

theorem client_sized (s : Server) (i : Nat) (lt : i < FD_SETSIZE) :
    ∃ k, (loop listenfd a).client s i = some k :=
  ⟨_, List.getElem?_eq_getElem (s.size.symm ▸ lt)⟩

namespace Inv

theorem table (inv : Inv listenfd s) : Table listenfd s where
  distinct := inv.tracks.distinct
  members fd := by
    have members := inv.members fd
    have apart := inv.apart
    rw [Slots.mem_occupied, held_iff] at members apart
    rw [members]
    constructor
    · rintro member
      exact ⟨.inr member, fun same => apart (same ▸ member)⟩
    · rintro ⟨rfl | member, ne⟩
      · exact absurd rfl ne
      · exact member
  indices i fd here nonneg := inv.within i fd here ((held_iff fd).mpr nonneg)
  maxi_lt := inv.maxi_lt
  bounds fd member := (inv.bounds fd member).2.symm

/-- The listener and the clients are distinct descriptors below `FD_SETSIZE`. -/
theorem room (inv : Inv listenfd s) : vacancy held s.client < FD_SETSIZE := by
  have distinct : (listenfd :: occupied held s.client).Nodup :=
    List.nodup_cons.mpr ⟨inv.apart, inv.tracks.distinct⟩
  have below : listenfd :: occupied held s.client ⊆ (List.range FD_SETSIZE).map Int.ofNat := by
    intro fd member
    obtain ⟨nonneg, lt, -⟩ := inv.bounds fd ((inv.members fd).mpr (List.mem_cons.mp member))
    exact List.mem_map.mpr ⟨fd.toNat, List.mem_range.mpr (by omega), by simp; omega⟩
  have fewer := (List.subperm_of_subset distinct below).length_le
  rw [List.length_cons, List.length_map, List.length_range] at fewer
  rw [← s.size, Slots.vacancy_lt_iff, s.size]
  omega

theorem newClient (inv : Inv listenfd s) (fresh : Fresh listenfd connfd s.log)
    (lt : connfd < FD_SETSIZE) : Holds (Inv listenfd) (s.newClient connfd) := by
  obtain ⟨nonneg, ne, closed⟩ := fresh
  obtain ⟨x, here, vacant⟩ := Slots.vacancy_vacant (s.size.symm ▸ inv.room)
  have fill := Slots.occupied_fill here vacant ((held_iff connfd).mpr nonneg)
  have bit : FD_SET connfd s.allset = .ok (insert connfd s.allset) := if_pos ⟨nonneg, lt⟩
  have room := inv.room
  simp only [Server.newClient, bit]
  refine ⟨?_, fun fd => ?_, ?_, fun fd member => ?_, inv.within.fill _ _, ?_⟩
  · rw [connections_accept]
    exact (inv.tracks.accept closed).perm fill.symm
  · have members := inv.members fd
    simp only [Finset.mem_insert, fill.mem_iff, List.mem_cons]
    tauto
  · rw [fill.mem_iff, List.mem_cons]
    exact fun member => member.elim (fun same => ne same.symm) inv.apart
  · rcases Finset.mem_insert.mp member with rfl | member
    · exact ⟨nonneg, lt, Int.le_max_left _ _⟩
    · obtain ⟨nonneg, lt, le⟩ := inv.bounds fd member
      exact ⟨nonneg, lt, by simp only; omega⟩
  · have top := inv.maxi_lt
    simp only
    omega

theorem not_newClient (lt : ¬ (0 ≤ connfd ∧ connfd < FD_SETSIZE)) :
    s.newClient connfd = .error (.undefined (.FD_SET connfd)) := by
  simp only [Server.newClient, FD_SET, if_neg lt]
  rfl

theorem readClient {i : Nat} (inv : Inv listenfd s) (here : s.client[i]? = some sockfd)
    (nonneg : 0 ≤ sockfd) :
    Holds (Inv listenfd) (s.readClient a i sockfd).result := by
  refine Holds.result_bind holds_wrapper fun chunk _ => ?_
  split
  · refine Holds.result_bind holds_wrapper fun _ _ => ?_
    have vacant : held (-1) = false := rfl
    have clear := Slots.occupied_clear here ((held_iff sockfd).mpr nonneg) vacant
    have tracks := (inv.tracks.perm clear).keep sockfd
      (f := fun c => { c with received := c.received ++ [[]] }) fun _ => ⟨rfl, rfl, rfl⟩
    obtain ⟨gone, -⟩ := List.nodup_cons.mp tracks.distinct
    have apart := inv.apart
    rw [clear.mem_iff, List.mem_cons, not_or] at apart
    refine ⟨?_, fun fd => ?_, apart.2, fun fd member => ?_, inv.within.clear i vacant, inv.maxi_lt⟩
    · rw [connections_finish]
      exact tracks.finish
    · have members := inv.members fd
      rw [clear.mem_iff, List.mem_cons] at members
      simp only [Finset.mem_erase, members]
      constructor
      · rintro ⟨ne, same | same | member⟩
        · exact .inl same
        · exact absurd same ne
        · exact .inr member
      · rintro (rfl | member)
        · exact ⟨apart.1, .inl rfl⟩
        · exact ⟨fun same => gone (same ▸ member), .inr (.inr member)⟩
    · exact inv.bounds fd (Finset.mem_of_mem_erase member)
  · refine ⟨?_, inv.members, inv.apart, inv.bounds, inv.within, inv.maxi_lt⟩
    rw [connections_report]
    exact inv.tracks.keep sockfd fun _ => ⟨rfl, rfl, rfl⟩

end Inv

/-- The connection of an iteration, if there is one, fits the set. -/
def Fits (listenfd : Int) (a : Answers) : Prop :=
  listenfd ∈ a.rset → ∀ connfd ∈ a.accept.toOption, connfd < FD_SETSIZE

namespace Inv

theorem iteration (inv : Inv listenfd s) (permits : s.Permits listenfd a)
    (fits : Fits listenfd a) : Holds (Inv listenfd) (s.iteration listenfd a) := by
  refine EventLoop.turn_holds client_sized (fun s inv => ?_) (fun i k s _ inv here nonneg => ?_)
    (fun listens connfd answer => ?_) inv
  · have := inv.maxi_lt
    simp only [loop]
    omega
  · exact inv.readClient here nonneg
  · have ready : listenfd ∈ a.rset := of_decide_eq_true listens
    have member : connfd ∈ a.accept.toOption := by
      rw [show a.accept = _ from answer]
      rfl
    exact inv.newClient (permits.2 ready connfd member) (fits ready connfd member)

/-- A connection that does not fit is undefined. -/
theorem not_iteration (misfit : ¬ Fits listenfd a) {P : Server → Prop} :
    ¬ Holds P (s.iteration listenfd a) := by
  simp only [Fits, not_forall] at misfit
  obtain ⟨ready, connfd, answer, ge⟩ := misfit
  have answer : a.accept = .ok connfd := by
    cases accept : a.accept with
    | ok fd => simpa [accept, Except.toOption] using answer
    | error errno => simp [accept, Except.toOption] at answer
  have undefined : s.newClient connfd = _ := not_newClient fun fits => ge fits.2
  have listens : (loop listenfd a).listening s = true := decide_eq_true ready
  have left : (loop listenfd a).newClient connfd s = _ := undefined
  rw [Server.iteration, iterationCalls, EventLoop.result_turn listens answer, left]
  exact id

theorem start {buf : Buffer} (fits : 0 ≤ listenfd ∧ listenfd < FD_SETSIZE) :
    Holds (Inv listenfd) (start listenfd buf) := by
  have bit : FD_SET listenfd ∅ = .ok {listenfd} := if_pos fits
  have vacant : occupied held (List.replicate FD_SETSIZE (-1)) = [] := List.filter_replicate_of_neg
    (by simp [held])
  simp only [Server.start, bit]
  refine ⟨?_, fun fd => ?_, ?_, fun fd member => ?_, fun i fd here holds => ?_, ?_⟩
  · simp only [vacant]
    exact .nil
  · simp [vacant]
  · simp [vacant]
  · obtain rfl := Finset.mem_singleton.mp member
    exact ⟨fits.1, fits.2, le_refl _⟩
  · obtain rfl := List.eq_of_mem_replicate (List.mem_of_getElem? here)
    cases holds
  · simp only [FD_SETSIZE]
    omega

end Inv

theorem not_start {buf : Buffer} {P : Server → Prop}
    (misfit : ¬ (0 ≤ listenfd ∧ listenfd < FD_SETSIZE)) : ¬ Holds P (start listenfd buf) := by
  have bit : FD_SET listenfd ∅ = .error (.undefined (.FD_SET listenfd)) := if_neg misfit
  simp only [start, bit]
  exact id

/-- **A property of the table holds exactly as long as every descriptor fits the
set**, for whatever the invariant implies. -/
theorem always_iff {P : Server → Prop} (implied : ∀ s, Inv listenfd s → P s) {buf : Buffer}
    {as : List Answers} {y : Except Ended Server}
    (run : (system listenfd).run (start listenfd buf) as = some y) :
    (system listenfd).Always (Holds P) (start listenfd buf) as ↔
      (0 ≤ listenfd ∧ listenfd < FD_SETSIZE) ∧ ∀ a ∈ as, Fits listenfd a := by
  by_cases fits : 0 ≤ listenfd ∧ listenfd < FD_SETSIZE
  · rw [← System.steps_actions run, and_iff_right fits]
    exact Net.always_iff rfl (fun _ a => Fits listenfd a)
      (fun s a inv permits fits => inv.iteration permits fits)
      (fun s a _ _ misfit => Inv.not_iteration misfit) implied (Inv.start fits) run
  · exact ⟨fun always => absurd always.here (not_start fits), fun both => absurd both.1 fits⟩

/-- A connection that finds `client` full leaves the table as it was. -/
def Unstored (listenfd : Int) (s : Server) (a : Answers) : Prop :=
  listenfd ∈ a.rset → ∀ connfd ∈ a.accept.toOption,
    FD_SETSIZE ≤ vacancy held s.client →
      Holds (fun s' => s'.client = s.client ∧ s'.allset = s.allset ∧ s'.maxi = s.maxi ∧
        s'.maxfd = s.maxfd) (s.newClient connfd)

/-- **The descriptor table is right exactly as long as every descriptor fits the set**,
and then no connection finds `client` full. -/
theorem table_iff {buf : Buffer} {as : List Answers} {y : Except Ended Server}
    (run : (system listenfd).run (start listenfd buf) as = some y) :
    (system listenfd).Always (Holds (Table listenfd)) (start listenfd buf) as ∧
        (system listenfd).Steps (Turns (Unstored listenfd)) (start listenfd buf) as ↔
      (0 ≤ listenfd ∧ listenfd < FD_SETSIZE) ∧ ∀ a ∈ as, Fits listenfd a := by
  have always := always_iff (fun s inv => inv.table) run
  refine ⟨fun both => always.mp both.1, fun fits => ⟨always.mpr fits, ?_⟩⟩
  refine System.Steps.of_steps (Running (Inv listenfd))
    (fun x a x' inv fits step => (inv.turn rfl
      (fun s a inv permits fits => inv.iteration permits fits) fits step).running)
    ?_ (Inv.start fits.1).running ((System.steps_actions run).mpr fits.2)
  rintro x a inv - s rfl - connfd - full
  have room := (inv s rfl).room
  omega

/-- A turn in which only the listener, 3, is ready. -/
def connects (connfd : Int) : Answers :=
  { nready := 1
    rset := {3}
    accept := .ok connfd
    read := fun _ => .error 11
    close := fun _ => .ok () }

theorem table_iff_two :
    (system 3).Always (Holds (Table 3)) (start 3 fun _ => 0) [connects 4, connects 5] ∧
        (system 3).Steps (Turns (Unstored 3)) (start 3 fun _ => 0) [connects 4, connects 5] ↔
      ((0 : Int) ≤ 3 ∧ (3 : Int) < FD_SETSIZE) ∧ ∀ a ∈ [connects 4, connects 5], Fits 3 a :=
  table_iff rfl

/-- The first descriptor that the set has no bit for. -/
theorem table_left :
    ¬ ((system 3).Always (Holds (Table 3)) (start 3 fun _ => 0) [connects 1024] ∧
      (system 3).Steps (Turns (Unstored 3)) (start 3 fun _ => 0) [connects 1024]) := by
  rintro ⟨⟨-, after⟩, -⟩
  exact after _ rfl

end Server

end Codesnip.Net.SelectServer
