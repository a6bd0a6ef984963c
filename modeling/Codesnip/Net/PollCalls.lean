/-
# Net.PollCalls -- which descriptors `network_area::PollServer` reads

`Honest` is what `poll` promises: it zeroes the `revents` of the vacant entries and returns how
many it has set.  A slot that is filled in the same turn is then never acted on: below the old
`maxi` its `revents` is zero, and above it `nready` is used up before the loop gets there
(`reads_ready`), whatever the entry held.
-/
import Codesnip.Net.PollServer

namespace Codesnip.Net.PollServer.Server

open Codesnip.Theory
open Codesnip.Theory.Slots (occupied vacancy)
open Codesnip.Theory.Sweep
open Codesnip.Theory.Transition (System)

set_option autoImplicit false
set_option linter.dupNamespace false

variable {listenfd connfd nready : Int} {s : Server} {a : Answers}

/-! ## What `poll` promises -/

/-- `revents` has nothing for a vacant entry, something to read for a client if anything, and
`nready` is how many entries have something. -/
structure Honest (s : Server) (nready : Int) (revents : Nat → Int16) : Prop where
  vacant : ∀ (i : Nat) (entry : Pollfd), (i : Int) ≤ s.maxi → s.client[i]? = some entry →
    entry.fd < 0 → revents i = 0
  readable : ∀ i : Nat, 1 ≤ i → (i : Int) ≤ s.maxi → revents i ≠ 0 →
    revents i &&& (POLLRDNORM ||| POLLERR) ≠ 0
  count : nready = (List.range (s.maxi.toNat + 1)).countP fun i => revents i ≠ 0

/-- The clients of which `revents` says that they can be read. -/
def readyClients (revents : Nat → Int16) (s : Server) : List Int :=
  (List.range' 1 (OPEN_MAX - 1)).filterMap fun i => s.client[i]?.bind fun entry =>
    if 0 ≤ entry.fd ∧ revents i &&& (POLLRDNORM ||| POLLERR) ≠ 0 then some entry.fd else none

/-- The entry `client[i]`, if it is to be read. -/
def readyEntry (s : Server) (i : Nat) : Option Pollfd :=
  s.client[i]?.filter fun entry =>
    0 ≤ entry.fd ∧ entry.revents &&& (POLLRDNORM ||| POLLERR) ≠ 0

theorem readClient_client (a : Answers) (i : Nat) (entry : Pollfd) (s : Server) :
    Running (fun s' => s'.client = s.client ∨ s'.client = s.client.set i { entry with fd := -1 })
      (s.readClient a i entry).result := by
  refine Running.any.result_bind fun chunk _ => ?_
  split
  · refine Running.any.result_bind fun _ _ => Holds.running ?_
    exact .inr rfl
  · refine Holds.running ?_
    exact .inl rfl

theorem onward (a : Answers) : Onward readyEntry (readClient a) := by
  intro i entry s s' _ read j lt
  rcases readClient_client a i entry s s' read with same | same
  · rw [readyEntry, same, readyEntry]
  · rw [readyEntry, same, readyEntry, List.getElem?_set_ne (by omega)]

/-- What the loop picks is what is to be read. -/
theorem pick_loop (listenfd : Int) (a : Answers) : (loop listenfd a).pick = readyEntry := by
  funext s i
  refine congrArg (fun p => (s.client[i]?).filter p) (funext fun entry => ?_)
  simp [loop]

/-- Inside the table the loop is a sweep. -/
theorem scanClients_eq (top : s.maxi < (OPEN_MAX : Int)) :
    (loop listenfd a).scanClients nready s =
      sweepUpTo readyEntry (readClient a) s.maxi.toNat 1 nready s := by
  have some : 0 < OPEN_MAX := by decide
  have scanned : (loop listenfd a).scan s.maxi.toNat 1 nready s =
      sweepUpTo (loop listenfd a).pick (readClient a) s.maxi.toNat 1 nready s :=
    EventLoop.scan_eq client_sized (by omega)
  rw [pick_loop] at scanned
  exact scanned

/-! ## The entries after `poll` -/

section Polled

variable {revents : Nat → Int16}

theorem poll_ready_getElem? (s : Server) (nready : Int) (revents : Nat → Int16) {i : Nat}
    (polled : (i : Int) ≤ s.maxi) : (s.poll (.ready nready revents)).2.client[i]? =
      s.client[i]?.map fun entry => { entry with revents := revents i } := by
  simp only [poll, List.getElem?_mapIdx]
  congr 1
  funext entry
  exact if_pos (by omega)

theorem readyEntry_poll (nready : Int) (revents : Nat → Int16) {i : Nat}
    (polled : (i : Int) ≤ s.maxi) :
    (readyEntry (s.poll (.ready nready revents)).2 i).map Pollfd.fd =
      s.client[i]?.bind fun entry =>
        if 0 ≤ entry.fd ∧ revents i &&& (POLLRDNORM ||| POLLERR) ≠ 0 then some entry.fd
        else none := by
  rw [readyEntry, poll_ready_getElem? s nready revents polled]
  cases s.client[i]? with
  | none => rfl
  | some entry =>
      rw [Option.map_some, Option.bind_some]
      split
      · rename_i ready
        rw [Option.filter_some, if_pos (decide_eq_true ready), Option.map_some]
      · rename_i unready
        rw [Option.filter_some, if_neg (by simpa using unready), Option.map_none]

theorem client_getElem? (inv : Inv listenfd s) {i : Nat} (polled : (i : Int) ≤ s.maxi) :
    ∃ entry, s.client[i]? = some entry := by
  have top := inv.maxi.2
  have lt : i < s.client.length := by rw [s.size]; omega
  exact ⟨_, List.getElem?_eq_getElem lt⟩

/-- All clients are below the mark. -/
theorem le_maxi (inv : Inv listenfd s) {i : Nat} {entry : Pollfd} (pos : 1 ≤ i)
    (here : s.client[i]? = some entry) (nonneg : 0 ≤ entry.fd) : (i : Int) ≤ s.maxi := by
  obtain ⟨k, rfl⟩ : ∃ k, i = k + 1 := ⟨i - 1, by omega⟩
  have slot : s.fds[k]? = some entry.fd := by rw [fds_getElem?, here]; rfl
  have le := inv.within k entry.fd slot ((held_iff entry.fd).mpr nonneg)
  omega

/-- An entry is ready exactly if something is set. -/
theorem isSome_readyEntry (inv : Inv listenfd s) (honest : s.Honest nready revents) {i : Nat}
    (pos : 1 ≤ i) (polled : (i : Int) ≤ s.maxi) :
    (readyEntry (s.poll (.ready nready revents)).2 i).isSome = true ↔ revents i ≠ 0 := by
  obtain ⟨entry, here⟩ := client_getElem? inv polled
  have entries := readyEntry_poll nready revents polled
  rw [here, Option.bind_some] at entries
  rw [← Option.isSome_map (f := Pollfd.fd), entries]
  constructor
  · intro ready none
    rw [none] at ready
    simp at ready
  · intro some
    have nonneg : 0 ≤ entry.fd := by
      by_contra negative
      exact some (honest.vacant i entry polled here (by omega))
    rw [if_pos ⟨nonneg, honest.readable i pos polled some⟩]
    rfl

theorem map_picks (inv : Inv listenfd s) (nready : Int) :
    (picks readyEntry (s.poll (.ready nready revents)).2 s.maxi.toNat 1).map Pollfd.fd =
      s.readyClients revents := by
  obtain ⟨low, high⟩ := inv.maxi
  obtain ⟨more, split⟩ : ∃ more, OPEN_MAX - 1 = s.maxi.toNat + more :=
    Nat.exists_eq_add_of_le (by omega)
  have rest : (List.range' (1 + s.maxi.toNat) more).filterMap (fun i =>
      s.client[i]?.bind fun entry =>
        if 0 ≤ entry.fd ∧ revents i &&& (POLLRDNORM ||| POLLERR) ≠ 0 then some entry.fd
        else none) = [] := by
    refine List.filterMap_eq_nil_iff.mpr fun i member => ?_
    obtain ⟨above, -⟩ := List.mem_range'_1.mp member
    cases here : s.client[i]? with
    | none => rfl
    | some entry =>
        rw [Option.bind_some, if_neg]
        rintro ⟨nonneg, -⟩
        have le := le_maxi inv (by omega) here nonneg
        omega
  rw [readyClients, split, ← List.range'_append_1, List.filterMap_append, rest, List.append_nil,
    picks, List.map_filterMap]
  refine List.filterMap_congr fun i member => readyEntry_poll nready revents ?_
  have lt := (List.mem_range'_1.mp member).2
  omega

theorem length_picks (inv : Inv listenfd s) (honest : s.Honest nready revents) :
    nready = (if revents 0 ≠ 0 then 1 else 0) +
      (picks readyEntry (s.poll (.ready nready revents)).2 s.maxi.toNat 1).length := by
  have ready : (picks readyEntry (s.poll (.ready nready revents)).2 s.maxi.toNat 1).length =
      (List.range' 1 s.maxi.toNat).countP fun i => revents i ≠ 0 := by
    rw [picks, List.length_filterMap_eq_countP]
    refine List.countP_congr fun i member => ?_
    obtain ⟨pos, lt⟩ := List.mem_range'_1.mp member
    rw [isSome_readyEntry inv honest pos (by omega), decide_eq_true_iff]
  have count := honest.count
  rw [List.range_eq_range', List.range'_succ, List.countP_cons, ← ready] at count
  simp only [decide_eq_true_eq] at count
  split at count
  · rename_i some
    rw [if_pos some]
    omega
  · rename_i none
    rw [if_neg none]
    omega

theorem readyClient_slot {i : Nat} {fd : Int} (pos : 1 ≤ i)
    (ready : (s.client[i]?.bind fun entry =>
      if 0 ≤ entry.fd ∧ revents i &&& (POLLRDNORM ||| POLLERR) ≠ 0 then some entry.fd
      else none) = some fd) :
    s.fds[i - 1]? = some fd ∧ 0 ≤ fd := by
  obtain ⟨entry, here, chosen⟩ := Option.bind_eq_some_iff.mp ready
  split at chosen
  · rename_i readable
    cases chosen
    refine ⟨?_, readable.1⟩
    rw [fds_getElem?, Nat.sub_add_cancel pos, here]
    rfl
  · cases chosen

theorem mem_readyClients {fd : Int} (member : fd ∈ s.readyClients revents) :
    fd ∈ occupied held s.fds := by
  obtain ⟨i, inside, ready⟩ := List.mem_filterMap.mp member
  obtain ⟨slot, nonneg⟩ := readyClient_slot (List.mem_range'_1.mp inside).1 ready
  exact Slots.mem_occupied.mpr ⟨List.mem_of_getElem? slot, (held_iff fd).mpr nonneg⟩

theorem readyClients_of_none (none : occupied held s.fds = []) : s.readyClients revents = [] :=
  List.eq_nil_iff_forall_not_mem.mpr fun _ member =>
    List.not_mem_nil (none ▸ mem_readyClients member)

theorem nodup_readyClients (inv : Inv listenfd s) : (s.readyClients revents).Nodup := by
  refine List.pairwise_filterMap.mpr ((List.nodup_range').imp_of_mem ?_)
  intro i j at_i at_j ne fd ready fd' ready' same
  subst same
  obtain ⟨pos, -⟩ := List.mem_range'_1.mp at_i
  obtain ⟨pos', -⟩ := List.mem_range'_1.mp at_j
  obtain ⟨slot, nonneg⟩ := readyClient_slot pos ready
  obtain ⟨slot', -⟩ := readyClient_slot pos' ready'
  have once := Slots.slot_unique inv.tracks.distinct ((held_iff fd).mpr nonneg) slot slot'
  omega

/-- What `poll` leaves in the first vacant entry that it was given. -/
theorem vacancy_poll (honest : s.Honest nready revents) {entry : Pollfd}
    (polled : ((1 + vacancy held (s.poll (.ready nready revents)).2.fds : Nat) : Int) ≤ s.maxi)
    (here : (s.poll (.ready nready revents)).2.client[
      1 + vacancy held (s.poll (.ready nready revents)).2.fds]? = some entry) :
    entry.fd < 0 ∧ entry.revents = 0 := by
  have inside : vacancy held (s.poll (.ready nready revents)).2.fds <
      (s.poll (.ready nready revents)).2.fds.length := by
    have lt := (List.getElem?_eq_some_iff.mp here).1
    rw [size] at lt
    rw [length_fds]
    omega
  obtain ⟨fd, slot, vacant⟩ := Slots.vacancy_vacant inside
  rw [fds_getElem?, Nat.add_comm, here] at slot
  cases slot
  have negative : entry.fd < 0 := by simpa [held] using vacant
  rw [poll_ready_getElem? s nready revents polled] at here
  obtain ⟨old, at_i, rfl⟩ := Option.map_eq_some_iff.mp here
  exact ⟨negative, honest.vacant _ old polled at_i negative⟩

/-- The new client's entry is not acted on. -/
theorem readyEntry_newClient (inv : Inv listenfd s) (honest : s.Honest nready revents) :
    Running (fun s' => s.maxi ≤ s'.maxi ∧ s'.maxi < (OPEN_MAX : Int) ∧
        ∀ i : Nat, (i : Int) ≤ s.maxi →
          readyEntry s' i = readyEntry (s.poll (.ready nready revents)).2 i)
      ((s.poll (.ready nready revents)).2.newClient connfd) := by
  intro s' stored
  rw [newClient] at stored
  split at stored
  · cases stored
  · rename_i entry here
    cases stored
    have inside := (List.getElem?_eq_some_iff.mp here).1
    refine ⟨Int.le_max_right _ _, ?_, fun i polled => ?_⟩
    · have top := inv.maxi.2
      rw [size] at inside
      simp only [store, (poll_rest _ s).1]
      omega
    · by_cases same : 1 + vacancy held (s.poll (.ready nready revents)).2.fds = i
      · subst same
        obtain ⟨negative, quiet⟩ := vacancy_poll honest polled here
        rw [readyEntry, readyEntry, here, store, List.getElem?_set_self inside]
        simp [Option.filter_some, quiet, Int.not_le.mpr negative]
      · rw [readyEntry, readyEntry, store, List.getElem?_set_ne same]

end Polled

theorem running_step {x x' : Except Ended Server} (inv : Running (Inv listenfd) x)
    (step : (system listenfd).step x a = some x') : Running (Inv listenfd) x' :=
  inv.step rfl (Turns Room) (fun _ _ inv permits room => inv.iteration permits (turns_ok.mp room))
    (fun _ _ inv _ full => inv.not_iteration fun room => full (turns_ok.mpr room)) step

/-- What every server that is reached and still runs meets. -/
theorem inv_of_reachable (reachable : (system listenfd).Reachable (.ok s)) : Inv listenfd s := by
  have running : Running (Inv listenfd) (.ok s) := by
    refine reachable.induct ?_ fun _ _ _ inv step => running_step inv step
    rintro x ⟨memory, buf, rfl⟩
    exact Holds.running Inv.start
  exact running s rfl

section Ready

variable {revents : Nat → Int16}

/-- Without a new client. -/
theorem reads_scan (inv : Inv listenfd s) (honest : s.Honest nready revents) :
    Reads (s.readyClients revents)
      ((loop listenfd a).scanClients nready (s.poll (.ready nready revents)).2) := by
  obtain ⟨low, high⟩ := inv.maxi
  have count := length_picks inv honest
  have swept := Reads.swept (onward a) Pollfd.fd (calls_readClient a) s.maxi.toNat 1
    (s.poll (.ready nready revents)).2
  rw [map_picks inv] at swept
  rw [scanClients_eq (by rw [(poll_rest _ s).1]; omega), (poll_rest _ s).1,
    sweepUpTo_eq (onward a) 0 (by split at count <;> omega) (by omega)]
  exact swept

theorem revents_of_listenerReady (inv : Inv listenfd s)
    (listener : (s.poll (.ready nready revents)).2.ListenerReady) : revents 0 ≠ 0 := by
  obtain ⟨entry, here, events⟩ := listener
  rw [poll_ready_getElem? s nready revents (by exact_mod_cast inv.maxi.1)] at here
  obtain ⟨old, -, rfl⟩ := Option.map_eq_some_iff.mp here
  intro none
  exact events (by simp [none])

/-- After a new client, `nready` is used up before its entry. -/
theorem reads_scan_newClient (inv : Inv listenfd s) (honest : s.Honest nready revents)
    (listener : (s.poll (.ready nready revents)).2.ListenerReady) {s' : Server}
    (stored : (s.poll (.ready nready revents)).2.newClient connfd = .ok s') :
    Reads (s.readyClients revents)
      (if nready - 1 ≤ 0 then pure s' else (loop listenfd a).scanClients (nready - 1) s') := by
  obtain ⟨low, high⟩ := inv.maxi
  obtain ⟨le, top, same⟩ := readyEntry_newClient inv honest s' stored
  have count := length_picks inv honest
  rw [if_pos (revents_of_listenerReady inv listener)] at count
  have picks_eq : picks readyEntry s' s.maxi.toNat 1 =
      picks readyEntry (s.poll (.ready nready revents)).2 s.maxi.toNat 1 :=
    picks_congr fun j _ lt => same j (by omega)
  split
  · have none : s.readyClients revents = [] := by
      rw [← map_picks inv nready]
      exact List.map_eq_nil_iff.mpr (List.eq_nil_of_length_eq_zero (by omega))
    rw [none]
    exact .pure s'
  · obtain ⟨more, split⟩ : ∃ more, s'.maxi.toNat = s.maxi.toNat + more :=
      Nat.exists_eq_add_of_le (by omega)
    have swept := Reads.swept (onward a) Pollfd.fd (calls_readClient a) s.maxi.toNat 1 s'
    rw [picks_eq, map_picks inv] at swept
    rw [scanClients_eq top, split,
      sweepUpTo_part (onward a) more (by omega) (by rw [picks_eq]; omega)]
    exact swept

end Ready

/-- **`PollServer` reads exactly the clients that `poll` has reported**, each once and in the
order of the table, and never one that it has stored in the same turn. -/
theorem reads_ready {revents : Nat → Int16} (reachable : (system listenfd).Reachable (.ok s))
    (permits : s.Permits listenfd a) (polled : a.poll = .ready nready revents)
    (honest : s.Honest nready revents) :
    (s.readyClients revents).Nodup ∧
      (∀ connfd ∈ a.accept.toOption, connfd ∉ s.readyClients revents) ∧
      readFds (s.iterationCalls listenfd a).calls <+: s.readyClients revents ∧
      ∀ s', s.iteration listenfd a = .ok s' →
        readFds (s.iterationCalls listenfd a).calls = s.readyClients revents := by
  have inv := inv_of_reachable reachable
  refine ⟨nodup_readyClients inv, fun connfd answer ready => ?_, ?_⟩
  · obtain ⟨-, -, closed⟩ := permits connfd answer
    exact closed ((inv.tracks.opened connfd).mp (mem_readyClients ready))
  rw [iteration, iterationCalls, polled]
  change Reads (s.readyClients revents) _
  dsimp only
  rw [EventLoop.turn]
  split
  · rename_i listens
    have listener : (s.poll (.ready nready revents)).2.ListenerReady := of_decide_eq_true listens
    refine Reads.after rfl fun connfd accepted => Reads.after rfl fun s' stored => ?_
    exact reads_scan_newClient inv honest listener stored
  · exact reads_scan inv honest

theorem honest_connects (inv : Inv listenfd s) (nonneg : 0 ≤ listenfd) :
    s.Honest 1 fun i => if i = 0 then POLLRDNORM else 0 := by
  obtain ⟨listener, first, is_listener⟩ := inv.listener
  refine ⟨fun i entry _ here negative => ?_, fun i pos _ some => ?_, ?_⟩
  · rw [if_neg]
    rintro rfl
    obtain rfl := Option.some.inj (first.symm.trans here)
    omega
  · exact absurd (if_neg (by omega)) some
  · have rest : (List.range' 1 s.maxi.toNat).countP
        (fun i => (if i = 0 then POLLRDNORM else 0) ≠ 0) = 0 := by
      refine List.countP_eq_zero.mpr fun i member => ?_
      have ne : i ≠ 0 := by have := (List.mem_range'_1.mp member).1; omega
      simp [ne]
    rw [List.range_eq_range', List.range'_succ, List.countP_cons, rest]
    rfl

/-- The first client is stored in an entry whose `revents` says by chance that it can be read. -/
theorem reads_ready_first :
    readFds ((start 3 (fun _ => ⟨0, 0, POLLRDNORM⟩) fun _ => 0).iterationCalls 3
      (connects 4)).calls = [] := by
  have inv : Inv 3 (start 3 (fun _ => ⟨0, 0, POLLRDNORM⟩) fun _ => 0) := Inv.start
  have reachable : (system 3).Reachable (.ok (start 3 (fun _ => ⟨0, 0, POLLRDNORM⟩) fun _ => 0)) :=
    System.Reachable.init ⟨_, _, rfl⟩
  have closed : ¬ Opened 4 (connections []) := by decide
  obtain ⟨-, -, initial, -⟩ := reads_ready (a := connects 4) reachable
    (permits_connects (by decide) (by decide) closed) rfl (honest_connects inv (by decide))
  have none : occupied held (start 3 (fun _ => ⟨0, 0, POLLRDNORM⟩) fun _ => 0).fds = [] :=
    List.eq_nil_of_length_eq_zero inv.connected_eq
  rw [readyClients_of_none none] at initial
  exact List.prefix_nil.mp initial

end Codesnip.Net.PollServer.Server
