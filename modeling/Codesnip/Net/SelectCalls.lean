/-
# Net.SelectCalls -- which descriptors `network_area::SelectServer` calls `Accept` and `Read` on

The loop over `client` ends at `maxi`, and earlier once `nready` is used up; as long as
`nready` counts the members of `rset` that makes no difference to a scan of the whole table
(`scans_whole`), for what is left in use beyond is not in `rset`.

After a failed `Select` the loop goes on with `rset` as it was before the call, the listener
and all clients, so `Accept` is called (`respects_iff`).
-/
import Mathlib.Data.Finset.Card
import Codesnip.Net.SelectServer

namespace Codesnip.Net.SelectServer.Server

open Codesnip.Theory
open Codesnip.Theory.Slots (occupied vacancy)
open Codesnip.Theory.Sweep
open Codesnip.Theory.Transition (System)

set_option autoImplicit false
set_option linter.dupNamespace false

variable {listenfd connfd : Int} {s : Server} {a : Answers}

/-! ## The whole table -/

/-- The client in `client[i]`, if it is ready. -/
def readyClient (a : Answers) (s : Server) (i : Nat) : Option Int :=
  s.client[i]?.filter fun sockfd => 0 ≤ sockfd ∧ sockfd ∈ a.rset

/-- The loop over all of `client`, without an early end. -/
def wholeScan (a : Answers) (s : Server) : Traced Call Ended Server :=
  sweep (readyClient a) (readClient a) FD_SETSIZE 0 s

def wholeIteration (listenfd : Int) (a : Answers) (s : Server) : Traced Call Ended Server :=
  if listenfd ∈ a.rset then do
    let connfd ← .call (.Accept listenfd) (Accept a.accept)
    let s ← .silent (s.newClient connfd)
    s.wholeScan a
  else s.wholeScan a

/-- The connected clients whose descriptor is in `rset`. -/
def readyClients (a : Answers) (s : Server) : List Int :=
  (occupied held s.client).filter fun sockfd => sockfd ∈ a.rset

/-- A client is read in its entry, which is all of `client` that changes. -/
theorem readClient_client (a : Answers) (i : Nat) (sockfd : Int) (s : Server) :
    Running (fun s' => s'.client = s.client ∨ s'.client = s.client.set i (-1))
      (s.readClient a i sockfd).result := by
  refine Running.any.result_bind fun chunk _ => ?_
  split
  · refine Running.any.result_bind fun _ _ => Holds.running ?_
    exact .inr rfl
  · refine Holds.running ?_
    exact .inl rfl

theorem onward (a : Answers) : Onward (readyClient a) (readClient a) := by
  intro i sockfd s s' _ read j lt
  rcases readClient_client a i sockfd s s' read with same | same
  · rw [readyClient, same, readyClient]
  · rw [readyClient, same, readyClient, List.getElem?_set_ne (by omega)]

/-- What the loop picks is what is ready. -/
theorem pick_loop (listenfd : Int) (a : Answers) : (loop listenfd a).pick = readyClient a := by
  funext s i
  refine congrArg (fun p => (s.client[i]?).filter p) (funext fun sockfd => ?_)
  simp [loop]

theorem picks_readyClient (a : Answers) (s : Server) :
    picks (readyClient a) s FD_SETSIZE 0 = s.readyClients a := by
  have slots := filterMap_slots s.client fun sockfd => decide (0 ≤ sockfd ∧ sockfd ∈ a.rset)
  rw [s.size, List.range_eq_range'] at slots
  rw [picks, readyClients, occupied, List.filter_filter]
  refine slots.trans (List.filter_congr fun sockfd _ => ?_)
  simp [held, Bool.and_comm]

/-- The early end leaves out nothing that is ready. -/
theorem scanClients_eq (inv : Inv listenfd s) {nready : Int}
    (enough : ((s.readyClients a).length : Int) ≤ nready) :
    (loop listenfd a).scanClients nready s = s.wholeScan a := by
  have top := inv.maxi_lt
  obtain ⟨more, split⟩ : ∃ more, FD_SETSIZE = (s.maxi + 1).toNat + more :=
    Nat.exists_eq_add_of_le (by omega)
  have scanned : (loop listenfd a).scan (s.maxi + 1).toNat 0 nready s =
      sweepUpTo (loop listenfd a).pick (readClient a) (s.maxi + 1).toNat 0 nready s :=
    EventLoop.scan_eq client_sized (by omega)
  rw [pick_loop] at scanned
  refine scanned.trans ?_
  rw [wholeScan, split]
  refine sweepUpTo_eq (onward a) more ?_ fun j from_j _ => ?_
  · rw [← picks_readyClient, split] at enough
    have le : (picks (readyClient a) s (s.maxi + 1).toNat 0).length ≤ _ := length_picks_le more
    omega
  · cases here : s.client[j]? with
    | none => rw [readyClient, here]; rfl
    | some sockfd =>
        have vacant : ¬ 0 ≤ sockfd := fun nonneg => by
          have le := inv.within j sockfd here ((held_iff sockfd).mpr nonneg)
          omega
        simp [readyClient, here, vacant]

/-- `rset` has no descriptor that `Accept` returns. -/
theorem not_ready_of_fresh (inv : Inv listenfd s) (permits : s.Permits listenfd a)
    (ready : listenfd ∈ a.rset) (answer : a.accept = .ok connfd) : connfd ∉ a.rset := by
  obtain ⟨nonneg, ne, closed⟩ := permits.2 ready connfd (by simp [answer, Except.toOption])
  intro member
  rcases (inv.members connfd).mp (permits.1 member) with same | member
  · exact ne same
  · exact closed ((inv.tracks.opened connfd).mp member)

/-- A new client is not among those that are ready. -/
theorem readyClients_newClient (unready : connfd ∉ a.rset) (inv : Inv listenfd s) :
    Running (fun s' => s'.readyClients a = s.readyClients a) (s.newClient connfd) := by
  obtain ⟨x, here, vacant⟩ := Slots.vacancy_vacant (s.size.symm ▸ inv.room)
  have same : (occupied held (s.client.set (vacancy held s.client) connfd)).filter
      (fun sockfd => sockfd ∈ a.rset) = s.readyClients a := by
    rw [readyClients, occupied, occupied, List.filter_filter, List.filter_filter]
    exact Slots.filter_set here (by simp [vacant]) (by simp [unready])
  exact Running.any.bind fun allset _ => Holds.running same

/-- Besides the listener, `rset` has at least the clients that are ready. -/
theorem length_readyClients_le (inv : Inv listenfd s) :
    (s.readyClients a).Nodup ∧ (s.readyClients a).length ≤ (a.rset.erase listenfd).card := by
  have distinct : (s.readyClients a).Nodup := inv.tracks.distinct.filter _
  refine ⟨distinct, ?_⟩
  rw [← List.toFinset_card_of_nodup distinct]
  refine Finset.card_le_card fun fd member => ?_
  obtain ⟨held, ready⟩ := List.mem_filter.mp (List.mem_toFinset.mp member)
  refine Finset.mem_erase.mpr ⟨?_, of_decide_eq_true ready⟩
  rintro rfl
  exact inv.apart held

theorem running_start (buf : Buffer) : Running (Inv listenfd) (start listenfd buf) := by
  by_cases fits : 0 ≤ listenfd ∧ listenfd < FD_SETSIZE
  · exact (Inv.start fits).running
  · intro s' same
    have undefined : ¬ Holds (fun _ => True) (start listenfd buf) := not_start fits
    rw [same] at undefined
    exact absurd trivial undefined

theorem running_step {x x' : Except Ended Server} (inv : Running (Inv listenfd) x)
    (step : (system listenfd).step x a = some x') : Running (Inv listenfd) x' :=
  inv.step rfl (fun _ a => Fits listenfd a) (fun _ _ inv permits fits => inv.iteration permits fits)
    (fun _ _ _ _ misfit => Inv.not_iteration misfit) step

/-- What every server that is reached and still runs meets. -/
theorem inv_of_reachable (reachable : (system listenfd).Reachable (.ok s)) : Inv listenfd s := by
  refine reachable.induct ?_ (fun _ _ _ inv step => running_step inv step) s rfl
  rintro x ⟨buf, rfl⟩
  exact running_start buf

theorem inv_newClient (inv : Inv listenfd s) (fresh : Fresh listenfd connfd s.log) :
    Running (Inv listenfd) (s.newClient connfd) := by
  by_cases fits : 0 ≤ connfd ∧ connfd < FD_SETSIZE
  · exact (inv.newClient fresh fits.2).running
  · rw [Inv.not_newClient fits]
    intro s' same
    cases same

theorem wholeScan_quiet (none : s.readyClients a = []) : s.wholeScan a = pure s :=
  sweep_quiet ((picks_readyClient a s).trans none)

theorem reads_wholeScan (a : Answers) (s : Server) : Reads (s.readyClients a) (s.wholeScan a) := by
  have swept := Reads.swept (onward a) id (calls_readClient a) FD_SETSIZE 0 s
  rwa [List.map_id, picks_readyClient] at swept

/-- The shortened loop is a scan of the whole table. -/
theorem iterationCalls_eq (inv : Inv listenfd s) (permits : s.Permits listenfd a)
    (succeeds : a.nready = a.rset.card) :
    s.iterationCalls listenfd a = s.wholeIteration listenfd a := by
  obtain ⟨-, le⟩ := length_readyClients_le (a := a) inv
  rw [iterationCalls, EventLoop.turn, wholeIteration]
  by_cases ready : listenfd ∈ a.rset
  · rw [if_pos ready, if_pos (show (loop listenfd a).listening s = true from decide_eq_true ready)]
    have less := Finset.card_erase_of_mem ready
    have some := Finset.card_pos.mpr ⟨listenfd, ready⟩
    refine Traced.bind_congr fun connfd accepted => Traced.bind_congr fun s' stored => ?_
    have answer : a.accept = .ok connfd := accept_ok accepted
    have fresh := permits.2 ready connfd (by simp [answer, Except.toOption])
    have inv' := inv_newClient inv fresh s' stored
    have same := readyClients_newClient (not_ready_of_fresh inv permits ready answer) inv s' stored
    split
    · refine (wholeScan_quiet ?_).symm
      rw [same]
      exact List.eq_nil_of_length_eq_zero (by omega)
    · exact scanClients_eq inv' (by rw [same]; omega)
  · have quiet : ¬ (loop listenfd a).listening s = true := fun listens =>
      ready (of_decide_eq_true listens)
    rw [if_neg ready, if_neg quiet]
    rw [Finset.erase_eq_of_notMem ready] at le
    exact scanClients_eq inv (by omega)

theorem reads_wholeIteration (inv : Inv listenfd s) (permits : s.Permits listenfd a) :
    Reads (s.readyClients a) (s.wholeIteration listenfd a) := by
  unfold wholeIteration
  split
  · rename_i ready
    refine Reads.after rfl fun connfd accepted => Reads.after rfl fun s' stored => ?_
    have unready := not_ready_of_fresh inv permits ready (accept_ok accepted)
    rw [← readyClients_newClient unready inv s' stored]
    exact reads_wholeScan a s'
  · exact reads_wholeScan a s

/-- **The shortened loop reads what a scan of the whole table reads**: every connected client
in `rset` once, in the order of the table, and nothing else. -/
theorem scans_whole (reachable : (system listenfd).Reachable (.ok s))
    (permits : s.Permits listenfd a) (succeeds : a.nready = a.rset.card) :
    s.iterationCalls listenfd a = s.wholeIteration listenfd a ∧ (s.readyClients a).Nodup ∧
      readFds (s.iterationCalls listenfd a).calls <+: s.readyClients a ∧
      ∀ s', s.iteration listenfd a = .ok s' →
        readFds (s.iterationCalls listenfd a).calls = s.readyClients a := by
  have inv := inv_of_reachable reachable
  have same := iterationCalls_eq inv permits succeeds
  obtain ⟨initial, whole⟩ := reads_wholeIteration inv permits
  refine ⟨same, (length_readyClients_le inv).1, same ▸ initial, fun s' turned => ?_⟩
  rw [iteration, same] at turned
  rw [same]
  exact whole s' turned

/-- A turn in which the listener, 3, and the client 4 are ready. -/
def connectsAndSends : Answers :=
  { nready := 2
    rset := {3, 4}
    accept := .ok 5
    read := fun _ => .ok ⟨[1], by decide⟩
    close := fun _ => .ok () }

theorem scans_whole_four :
    ∃ s, (system 3).Reachable (.ok s) ∧
      readFds (s.iterationCalls 3 connectsAndSends).calls = [4] := by
  have init : (system 3).Init (start 3 fun _ => 0) := ⟨_, rfl⟩
  have connected : (system 3).run (start 3 fun _ => 0) [connects 4] = some (.ok _) := rfl
  have reachable := System.Reachable.of_run init connected
  obtain ⟨-, -, -, whole⟩ := scans_whole (a := connectsAndSends) reachable (by decide) (by decide)
  exact ⟨_, reachable, (whole _ rfl).trans (by decide +kernel)⟩

/-! ## A `Select` that fails -/

/-- After a failure the set is what it was before the call. -/
def Selects (s : Server) (a : Answers) : Prop := a.nready = -1 → a.rset = s.allset

instance (s : Server) (a : Answers) : Decidable (Selects s a) :=
  inferInstanceAs (Decidable (_ → _))

/-- A failed `Select` has no effect on the clients, and otherwise `Accept` and `Read` are called
on descriptors that are ready. -/
def Respects (listenfd : Int) (s : Server) (a : Answers) : Prop :=
  (a.nready = -1 → (s.iterationCalls listenfd a).calls = [] ∧
    ∃ s', s.iteration listenfd a = .ok s' ∧ s'.client = s.client ∧ s'.allset = s.allset ∧
      s'.maxi = s.maxi ∧ s'.maxfd = s.maxfd) ∧
  ∀ fd, .Accept fd ∈ (s.iterationCalls listenfd a).calls ∨
      .Read fd ∈ (s.iterationCalls listenfd a).calls → a.nready ≠ -1 ∧ fd ∈ a.rset

theorem mem_iterationCalls {call : Call} (called : call ∈ (s.iterationCalls listenfd a).calls) :
    ∃ fd, (call = .Accept fd ∨ call = .Read fd) ∧ fd ∈ a.rset := by
  rcases EventLoop.mem_turn called with ⟨rfl, listens⟩ | ⟨sockfd, rfl, ready⟩
  · exact ⟨listenfd, .inl rfl, of_decide_eq_true listens⟩
  · exact ⟨sockfd, .inr rfl, of_decide_eq_true ready⟩

/-- After a failure the listener is in `rset`. -/
theorem accept_of_failed (inv : Inv listenfd s) (failed : a.rset = s.allset) :
    .Accept listenfd ∈ (s.iterationCalls listenfd a).calls := by
  have ready : listenfd ∈ a.rset := by
    rw [failed]
    exact (inv.members listenfd).mpr (.inl rfl)
  rw [iterationCalls, EventLoop.turn,
    if_pos (show (loop listenfd a).listening s = true from decide_eq_true ready)]
  exact Traced.mem_calls_bind.mpr (.inl (List.mem_singleton_self _))

/-- **The clients are let alone by a failed `Select` exactly as long as none fails.** -/
theorem respects_iff (listenfd : Int) (buf : Buffer) (as : List Answers)
    (selects : (system listenfd).Steps (Turns Selects) (start listenfd buf) as) :
    (system listenfd).Steps (Turns (Respects listenfd)) (start listenfd buf) as ↔
      (system listenfd).Steps (Turns fun _ a => a.nready ≠ -1) (start listenfd buf) as := by
  refine System.steps_iff (Running (Inv listenfd)) (fun _ _ _ inv _ step => running_step inv step)
    (fun x a inv selects => ?_) (running_start buf) selects
  refine forall_congr' fun s => forall_congr' fun running => ?_
  constructor
  · rintro ⟨quiet, -⟩ failed
    have called := accept_of_failed (inv s running) (selects s running failed)
    rw [(quiet failed).1] at called
    cases called
  · intro succeeds
    refine ⟨fun failed => absurd failed succeeds, fun fd called => ⟨succeeds, ?_⟩⟩
    rcases called with called | called
    · obtain ⟨fd', same | same, ready⟩ := mem_iterationCalls called
      · cases same
        exact ready
      · cases same
    · obtain ⟨fd', same | same, ready⟩ := mem_iterationCalls called
      · cases same
      · cases same
        exact ready

theorem respects_iff_four :
    (system 3).Steps (Turns (Respects 3)) (start 3 fun _ => 0) [connects 4, connectsAndSends] :=
  (respects_iff 3 (fun _ => 0) [connects 4, connectsAndSends] (by decide)).mpr (by decide)

/-- `Select` is interrupted before any client has connected. -/
def interrupted : Answers :=
  { nready := -1
    rset := {3}
    accept := .error 11
    read := fun _ => .error 11
    close := fun _ => .ok () }

theorem not_respects_interrupted :
    (system 3).Steps (Turns Selects) (start 3 fun _ => 0) [interrupted] ∧
      ¬ (system 3).Steps (Turns (Respects 3)) (start 3 fun _ => 0) [interrupted] := by
  refine ⟨by decide, fun respects => ?_⟩
  have quiet := ((respects.1 _ rfl).1 rfl).1
  cases quiet

end Codesnip.Net.SelectServer.Server
