/-
# Net.Calls -- the calls of `Accept` and `Read` that a server makes

A `Traced` turn of a server keeps the calls on descriptors that it has made when it is over
or the process has ended.  A sweep over the table that reads what it picks has read the
descriptors picked, up to a failure (`Reads.swept`).

`SelectServer` and `PollServer` have one loop, over tables of different entries
(`EventLoop`): it accepts where the listener is ready, then goes through the table and reads
what is ready until `nready` is used up.  Inside the table that is a sweep (`scan_eq`).
-/
import Codesnip.Theory.Sweep
import Codesnip.Net.Loop

namespace Codesnip.Net

open Codesnip.Theory.Sweep

set_option autoImplicit false
set_option linter.dupNamespace false

inductive Call where
  | Accept (sockfd : Int)
  | Read (fd : Int)
  deriving DecidableEq, Repr

def Call.readFd : Call → Option Int
  | .Accept _ => none
  | .Read fd => some fd

/-- The descriptors that are read, in order. -/
def readFds (calls : List Call) : List Int := calls.filterMap Call.readFd

/-- What is read is `fds`, or a first part of it if `x` fails. -/
def Reads {α : Type} (fds : List Int) (x : Traced Call Ended α) : Prop :=
  readFds x.calls <+: fds ∧ ∀ a, x.result = .ok a → readFds x.calls = fds

namespace Reads

variable {α β : Type} {fds : List Int}

theorem pure (a : α) : Reads [] (Pure.pure a) := ⟨List.nil_prefix, fun _ _ => rfl⟩

/-- After a call that reads nothing. -/
theorem after {x : Traced Call Ended α} {f : α → Traced Call Ended β}
    (quiet : readFds x.calls = []) (next : ∀ a, x.result = .ok a → Reads fds (f a)) :
    Reads fds (x >>= f) := by
  cases result : x.result with
  | error e =>
      rw [Traced.bind_error result, Reads, quiet]
      exact ⟨List.nil_prefix, fun _ same => by cases same⟩
  | ok a =>
      have both : readFds (x.calls ++ (f a).calls) = readFds (f a).calls := by
        rw [readFds, List.filterMap_append, ← readFds, quiet]
        rfl
      rw [Traced.bind_ok result, Reads, both]
      exact next a result

/-- A sweep that reads what it picks. -/
theorem swept {σ κ : Type} {pick : σ → Nat → Option κ}
    {visit : Nat → κ → σ → Traced Call Ended σ} (onward : Onward pick visit) (fd : κ → Int)
    (one : ∀ i k s, (visit i k s).calls = [.Read (fd k)]) (count i : Nat) (s : σ) :
    Reads ((picks pick s count i).map fd) (sweep pick visit count i s) := by
  have kept : ∀ ks : List κ, readFds (ks.map fun k => Call.Read (fd k)) = ks.map fd := fun ks => by
    rw [readFds, List.filterMap_map]
    exact congrFun List.filterMap_eq_map ks
  obtain ⟨initial, whole⟩ := calls_sweep onward (fun k => Call.Read (fd k)) one count i s
  refine ⟨?_, fun s' result => ?_⟩
  · have part := initial.filterMap Call.readFd
    rwa [← readFds, ← readFds, kept] at part
  · rw [whole s' result, kept]

end Reads

/-- A wrapper that does not end the process. -/
theorem accept_ok {answer : Except Int32 Int} {connfd : Int}
    (accepted : Accept answer = .ok connfd) : answer = .ok connfd := by
  cases answer with
  | ok fd => exact congrArg Except.ok (Except.ok.inj accepted)
  | error errno => cases accepted

/-! ## The loop over `client` -/

section Result

variable {σ τ : Type} {P : σ → Prop} {R : τ → Prop} {x : Traced Call Ended σ}
  {f : σ → Traced Call Ended τ}

theorem Holds.result_bind (first : Holds P x.result) (next : ∀ s, P s → Holds R (f s).result) :
    Holds R (x >>= f).result := by
  rw [Traced.result_bind]
  exact first.bind next

theorem Running.result_bind (first : Running P x.result)
    (next : ∀ s, P s → Running R (f s).result) : Running R (x >>= f).result := by
  rw [Traced.result_bind]
  exact first.bind next

end Result

/-- What `SelectServer` and `PollServer` fill their `for (;;)` with: the entries of `client` with
their descriptors, the first index of the loop over them and how many there are to go, what the
kernel has reported ready, and what is done with a new connection and with a client that is
ready. -/
structure EventLoop (σ κ : Type) where
  client : σ → Nat → Option κ
  fd : κ → Int
  first : Nat
  count : σ → Nat
  listenfd : Int
  listening : σ → Bool
  ready : κ → Bool
  accept : Except Int32 Int
  newClient : Int → σ → Except Ended σ
  readClient : Nat → κ → σ → Traced Call Ended σ
  reads : ∀ i k s, (readClient i k s).calls = [.Read (fd k)]

namespace EventLoop

variable {σ κ : Type}

/-- The loop over `client` from `i`, with `count` indices to go. -/
def scan (loop : EventLoop σ κ) : (count i : Nat) → (nready : Int) → σ → Traced Call Ended σ
  | 0, _, _, s => pure s
  | count + 1, i, nready, s =>
      match loop.client s i with
      | none => .silent (.error (.undefined (.client i)))
      | some k =>
          if loop.fd k < 0 then loop.scan count (i + 1) nready s
          else if loop.ready k then do
            let s ← loop.readClient i k s
            if nready - 1 ≤ 0 then pure s else loop.scan count (i + 1) (nready - 1) s
          else loop.scan count (i + 1) nready s

def scanClients (loop : EventLoop σ κ) (nready : Int) (s : σ) : Traced Call Ended σ :=
  loop.scan (loop.count s) loop.first nready s

/-- One turn, after the kernel has reported `nready`. -/
def turn (loop : EventLoop σ κ) (nready : Int) (s : σ) : Traced Call Ended σ :=
  if loop.listening s then do
    let connfd ← .call (.Accept loop.listenfd) (Accept loop.accept)
    let s ← .silent (loop.newClient connfd s)
    if nready - 1 ≤ 0 then pure s else loop.scanClients (nready - 1) s
  else loop.scanClients nready s

/-- The entry `client[i]`, if it is to be read. -/
def pick (loop : EventLoop σ κ) (s : σ) (i : Nat) : Option κ :=
  (loop.client s i).filter fun k => 0 ≤ loop.fd k ∧ loop.ready k

variable {loop : EventLoop σ κ} {P : σ → Prop} {n count i : Nat} {nready connfd : Int} {s : σ}

/-- A turn that accepts `connfd`. -/
theorem result_turn (listens : loop.listening s = true) (answer : loop.accept = .ok connfd) :
    (loop.turn nready s).result = loop.newClient connfd s >>= fun s =>
      (if nready - 1 ≤ 0 then pure s else loop.scanClients (nready - 1) s).result := by
  have accepted : (Traced.call (.Accept loop.listenfd) (Accept loop.accept) :
      Traced Call Ended Int).result = .ok connfd := by
    rw [answer]
    rfl
  rw [turn, if_pos listens, Traced.bind_ok accepted]
  exact Traced.result_bind

/-! What the reads and a new connection keep, a turn keeps. -/

section Running

variable (read : ∀ i k s, P s → Running P (loop.readClient i k s).result)
include read

theorem scan_running (holds : P s) : Running P (loop.scan count i nready s).result := by
  induction count generalizing i nready s with
  | zero => exact Holds.running holds
  | succ count ih =>
      rw [scan]
      split
      · exact fun _ same => by cases same
      · split
        · exact ih holds
        · split
          · refine (read _ _ _ holds).result_bind fun s' holds' => ?_
            split
            · exact Holds.running holds'
            · exact ih holds'
          · exact ih holds

theorem turn_running (store : ∀ connfd s, P s → Running P (loop.newClient connfd s))
    (holds : P s) : Running P (loop.turn nready s).result := by
  rw [turn]
  split
  · refine Running.any.result_bind fun connfd _ => ?_
    refine Running.result_bind (store connfd s holds) fun s' holds' => ?_
    split
    · exact Holds.running holds'
    · exact scan_running read holds'
  · exact scan_running read holds

end Running

/-! In a table of `n` entries the loop leaves it nowhere. -/

section Sized

variable (sized : ∀ s i, i < n → ∃ k, loop.client s i = some k)
include sized

theorem scan_holds (read : ∀ i k s, loop.first ≤ i → P s → loop.client s i = some k →
      0 ≤ loop.fd k → Holds P (loop.readClient i k s).result)
    (holds : P s) (first : loop.first ≤ i) (inside : i + count ≤ n) :
    Holds P (loop.scan count i nready s).result := by
  induction count generalizing i nready s with
  | zero => exact holds
  | succ count ih =>
      obtain ⟨k, here⟩ := sized s i (by omega)
      simp only [scan, here]
      split
      · exact ih holds (by omega) (by omega)
      · rename_i nonneg
        split
        · refine (read i k s first holds here (by omega)).result_bind fun s' holds' => ?_
          split
          · exact holds'
          · exact ih holds' (by omega) (by omega)
        · exact ih holds (by omega) (by omega)

theorem turn_holds (bounded : ∀ s, P s → loop.first + loop.count s ≤ n)
    (read : ∀ i k s, loop.first ≤ i → P s → loop.client s i = some k → 0 ≤ loop.fd k →
      Holds P (loop.readClient i k s).result)
    (store : loop.listening s = true → ∀ connfd, loop.accept = .ok connfd →
      Holds P (loop.newClient connfd s))
    (holds : P s) : Holds P (loop.turn nready s).result := by
  have scanned : ∀ {nready s}, P s → Holds P (loop.scanClients nready s).result :=
    fun holds => scan_holds sized read holds (Nat.le_refl _) (bounded _ holds)
  rw [turn]
  split
  · rename_i listens
    refine Holds.result_bind holds_wrapper fun connfd answer => ?_
    refine Holds.result_bind (store listens connfd answer) fun s' holds' => ?_
    split
    · exact holds'
    · exact scanned holds'
  · exact scanned holds

theorem scan_eq (inside : i + count ≤ n) :
    loop.scan count i nready s = sweepUpTo loop.pick loop.readClient count i nready s := by
  induction count generalizing i nready s with
  | zero => rfl
  | succ count ih =>
      obtain ⟨k, here⟩ := sized s i (by omega)
      have next : i + 1 + count ≤ n := by omega
      by_cases ready : 0 ≤ loop.fd k ∧ loop.ready k
      · have picked : loop.pick s i = some k := by simp [pick, here, ready]
        rw [scan, here, sweepUpTo, picked]
        dsimp only
        rw [if_neg (by omega), if_pos ready.2]
        refine Traced.bind_congr fun s' _ => ?_
        split
        · rfl
        · exact ih next
      · have skipped : loop.pick s i = none := by
          simpa [pick, here] using ready
        rw [scan, here, sweepUpTo, skipped, ← ih next]
        dsimp only
        split
        · rfl
        · rw [if_neg]
          exact fun reported => ready ⟨by omega, reported⟩

end Sized

/-! ## What is called -/

theorem mem_scan {call : Call} (called : call ∈ (loop.scan count i nready s).calls) :
    ∃ k, call = .Read (loop.fd k) ∧ loop.ready k = true := by
  induction count generalizing i nready s with
  | zero => cases called
  | succ count ih =>
      rw [scan] at called
      split at called
      · cases called
      · rename_i k _
        split at called
        · exact ih called
        · split at called
          · rename_i ready
            rcases Traced.mem_calls_bind.mp called with here | ⟨s', -, later⟩
            · rw [loop.reads] at here
              exact ⟨k, List.mem_singleton.mp here, ready⟩
            · split at later
              · cases later
              · exact ih later
          · exact ih called

theorem mem_turn {call : Call} (called : call ∈ (loop.turn nready s).calls) :
    call = .Accept loop.listenfd ∧ loop.listening s = true ∨
      ∃ k, call = .Read (loop.fd k) ∧ loop.ready k = true := by
  rw [turn] at called
  split at called
  · rename_i listens
    rcases Traced.mem_calls_bind.mp called with here | ⟨connfd, -, later⟩
    · exact .inl ⟨List.mem_singleton.mp here, listens⟩
    · rcases Traced.mem_calls_bind.mp later with silent | ⟨s', -, later⟩
      · cases silent
      · split at later
        · cases later
        · exact .inr (mem_scan later)
  · exact .inr (mem_scan called)

/-! A failing read ends the turn. -/

section Fails

variable {fd : Int} {ended : Ended}
  (fails : ∀ i k s, loop.fd k = fd → (loop.readClient i k s).result = .error ended)
include fails

theorem scan_error (called : .Read fd ∈ (loop.scan count i nready s).calls) :
    (loop.scan count i nready s).result = .error ended := by
  induction count generalizing i nready s with
  | zero => cases called
  | succ count ih =>
      rw [scan] at called ⊢
      split at called
      · cases called
      · rename_i k _
        split at called
        · rename_i vacant
          rw [if_pos vacant]
          exact ih called
        · rename_i held
          rw [if_neg held]
          split at called
          · rename_i ready
            rw [if_pos ready]
            rcases Traced.mem_calls_bind.mp called with here | ⟨s', read, later⟩
            · rw [loop.reads] at here
              obtain rfl : fd = loop.fd k := by simpa using here
              rw [Traced.bind_error (fails _ _ _ rfl)]
            · rw [Traced.bind_ok read]
              split at later
              · cases later
              · rename_i more
                rw [if_neg more]
                exact ih later
          · rename_i quiet
            rw [if_neg quiet]
            exact ih called

theorem turn_error (called : .Read fd ∈ (loop.turn nready s).calls) :
    (loop.turn nready s).result = .error ended := by
  rw [turn] at called ⊢
  split at called
  · rename_i listens
    rw [if_pos listens]
    rcases Traced.mem_calls_bind.mp called with here | ⟨connfd, accepted, later⟩
    · simp [Traced.call] at here
    · rw [Traced.bind_ok accepted]
      rcases Traced.mem_calls_bind.mp later with silent | ⟨s', stored, later⟩
      · cases silent
      · rw [Traced.bind_ok stored]
        split at later
        · cases later
        · rename_i more
          rw [if_neg more]
          exact scan_error fails later
  · rename_i quiet
    rw [if_neg quiet]
    exact scan_error fails called

end Fails

end EventLoop

end Codesnip.Net
