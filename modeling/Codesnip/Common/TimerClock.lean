/-
# Common.TimerClock -- the wheel driven by the millisecond clock

`TakeAllTimeout` reads the 64-bit clock into an `int`, subtracts the reading kept
in `starttime_`, runs as many ticks as the difference, and keeps the `int`,
sign-extended, for the next call.  The kept value is right only in its low 32
bits; that is enough, since the difference is cut down to them
(`takeAllTimeout_refines`).

`AddTimer` does not read the clock.  It counts from the last reading taken, so a
timer is due `timeout + 1` milliseconds after that reading: never late
(`ticks_follow_clock`), but early by as much as the clock has moved on since
(`stale_reading_fires_early`).  `prompt_never_early` says when that cannot happen.
-/
import Mathlib.Algebra.GroupWithZero.Nat
import Codesnip.Common.TimerRun

namespace Codesnip.Common.Timer

open Codesnip.Theory
open Codesnip.Theory.Word
open Codesnip.Theory.Countdown (Entry)

set_option autoImplicit false
set_option linter.dupNamespace false

inductive Request where
  | AddTimer (p : Addr) (timeout : UInt64)
  | DelTimer (p : Addr)
  | TakeAllTimeout
  deriving DecidableEq, Repr

/-- An `AddTimer` as it was made: when, for how long, and the last reading the
constructor or `TakeAllTimeout` had taken by then. -/
structure Added where
  clock : UInt64
  timeout : UInt64
  last : UInt64
  deriving DecidableEq, Repr

/-- A `TakeAllTimeout`: the clock it read and what each of its ticks called. -/
structure Poll where
  reading : UInt64
  fired : List (List Nat)
  deriving DecidableEq, Repr

/-- A run with the clock: `now` is the clock at the latest request, `last` the
latest reading taken. -/
structure Session where
  run : Run
  now : UInt64
  last : UInt64
  added : List Added
  polls : List Poll

namespace Session

/-- The constructor reads the clock at `now`. -/
def start (nslots : Int32) (now : UInt64) : Session := ⟨.start nslots now, now, now, [], []⟩

/-- A request made when the clock shows `clock`. -/
def step (s : Session) (clock : UInt64) : Request → Except Fault Session
  | .AddTimer p timeout => do
    let run ← s.run.step (.AddTimer p timeout)
    .ok { s with run, now := clock, added := s.added ++ [⟨clock, timeout, s.last⟩] }
  | .DelTimer p => do
    let run ← s.run.step (.DelTimer p)
    .ok { s with run, now := clock }
  | .TakeAllTimeout => do
    let (fired, wheel) ← s.run.wheel.TakeAllTimeout quiet clock
    .ok { s with
      run := { s.run with wheel, fired := s.run.fired ++ fired }
      now := clock
      last := clock
      polls := s.polls ++ [⟨clock, fired⟩] }

def exec (s : Session) : List (UInt64 × Request) → Except Fault Session
  | [] => .ok s
  | (clock, q) :: qs => do (← s.step clock q).exec qs

/-- What holds of the caller and the clock at one request. -/
def Admissible (s : Session) (clock : UInt64) (q : Request) : Prop :=
  s.now ≤ clock ∧
    match q with
    | .AddTimer p timeout => s.run.Admissible (.AddTimer p timeout)
    | .DelTimer p => s.run.Admissible (.DelTimer p)
    | .TakeAllTimeout => clock.toNat - s.last.toNat < 2 ^ 31

instance (s : Session) (clock : UInt64) (q : Request) : Decidable (s.Admissible clock q) := by
  cases q <;> unfold Admissible <;> infer_instance

/-- A timer is added with timeout 0 or at most one millisecond after the last
reading. -/
def Prompt (s : Session) (clock : UInt64) : Request → Prop
  | .AddTimer _ timeout => timeout = 0 ∨ clock.toNat ≤ s.last.toNat + 1
  | _ => True

instance (s : Session) (clock : UInt64) (q : Request) : Decidable (s.Prompt clock q) := by
  cases q <;> unfold Prompt <;> infer_instance

/-- The request as calls on the countdown list. -/
def onList (s : Session) (clock : UInt64) : Request → List (Countdown.Op Addr)
  | .AddTimer p timeout => [.add p timeout.toNat]
  | .DelTimer p => [.del p]
  | .TakeAllTimeout => List.replicate (clock.toNat - s.last.toNat) .tick

/-- `P` holds of every request where it is made. -/
def Along (P : Session → UInt64 → Request → Prop) (s : Session) : List (UInt64 × Request) → Prop
  | [] => True
  | (clock, q) :: qs => P s clock q ∧
      match s.step clock q with
      | .ok s' => s'.Along P qs
      | .error _ => True

instance decidableAlong (P : Session → UInt64 → Request → Prop)
    [∀ s clock q, Decidable (P s clock q)] :
    ∀ (qs : List (UInt64 × Request)) (s : Session), Decidable (s.Along P qs)
  | [], _ => inferInstanceAs (Decidable True)
  | (clock, q) :: qs, s =>
      have : Decidable (match s.step clock q with
          | .ok s' => s'.Along P qs
          | .error _ => True) :=
        match s.step clock q with
        | .ok s' => decidableAlong P qs s'
        | .error _ => inferInstanceAs (Decidable True)
      inferInstanceAs (Decidable (_ ∧ _))

end Session

/-! ## Ticks of one `TakeAllTimeout` -/

theorem TimeWheel.Represents.setStart {F : Type} {w : TimeWheel F} {l : List (Entry Addr F)}
    (rep : w.Represents l) (time : UInt64) :
    ({ w with starttime_ := time } : TimeWheel F).Represents l :=
  ⟨rep.cur_nonneg, rep.cur_lt, rep.slots, rep.objects, rep.fits, rep.distinct⟩

namespace Run

theorem ticks_refines {r : Run} {s : Countdown.State Addr} (ref : r.Refines s) (cnt : Nat) :
    ∃ fired w', r.wheel.Ticks quiet cnt = .ok (fired, w') ∧ fired.length = cnt ∧
      ({ r with wheel := w', fired := r.fired ++ fired } : Run).Refines
        (s.exec (List.replicate cnt .tick)) := by
  induction cnt generalizing r s with
  | zero => exact ⟨[], r.wheel, rfl, rfl, by simpa using ref⟩
  | succ cnt ih =>
      obtain ⟨w₁, first, rep, slots, clock⟩ := TimeWheel.tick_represents ref.wheel
      have ref₁ : ({ r with wheel := w₁, fired := r.fired ++ [Countdown.expired s.pending] } :
          Run).Refines (s.step .tick) :=
        ⟨rep, ref.added, ref.deleted, by simp [Countdown.State.step, ref.fired],
          ref.scheduled.step .tick⟩
      obtain ⟨fired, w', rest, length, ref'⟩ := ih ref₁
      refine ⟨Countdown.expired s.pending :: fired, w', ?_, by simp [length], ?_⟩
      · rw [TimeWheel.Ticks, TimeWheel.TicksWith]
        show (r.wheel.Tick quiet >>= _) = _
        rw [first]
        show (w₁.Ticks quiet cnt >>= _) = _
        rw [rest]
        rfl
      · simpa [List.replicate_succ] using ref'

/-- **No tick is lost to truncation**: with the low 32 bits of the last reading
kept, `TakeAllTimeout` runs as many ticks as the clock has moved on. -/
theorem takeAllTimeout_refines {r : Run} {s : Countdown.State Addr} (ref : r.Refines s)
    {last reading : UInt64} (low : r.wheel.starttime_.toUInt32 = last.toUInt32)
    (le : last ≤ reading) (gap : reading.toNat - last.toNat < 2 ^ 31) :
    ∃ fired w', r.wheel.TakeAllTimeout quiet reading = .ok (fired, w') ∧
      fired.length = reading.toNat - last.toNat ∧ w'.starttime_.toUInt32 = reading.toUInt32 ∧
      ({ r with wheel := w', fired := r.fired ++ fired } : Run).Refines
        (s.exec (List.replicate (reading.toNat - last.toNat) .tick)) := by
  have gap' : reading.toNat - last.toNat ≤ intMax := by unfold intMax; omega
  have cnt := toInt_intOfUll_sub low le gap'
  obtain ⟨fired, w', run, length, ref'⟩ := ticks_refines ref (reading.toNat - last.toNat)
  refine ⟨fired, { w' with starttime_ := ullOfInt (intOfUll reading) }, ?_, length,
    toUInt32_ullOfInt_intOfUll reading, ?_⟩
  · simp only [TimeWheel.TakeAllTimeout, cnt, Int.toNat_natCast, run]
    rfl
  · exact ⟨ref'.wheel.setStart _, ref'.added, ref'.deleted, ref'.fired, ref'.scheduled⟩

end Run

namespace Session

/-- What every session keeps, `s` being the countdown list it runs and `begin` the
constructor's reading. -/
structure Synced (S : Session) (start : UInt64) (s : Countdown.State Addr) : Prop where
  refines : S.run.Refines s
  low : S.run.wheel.starttime_.toUInt32 = S.last.toUInt32
  start_le : start.toNat ≤ S.last.toNat
  last_le : S.last.toNat ≤ S.now.toNat
  elapsed : s.fired.length = S.last.toNat - start.toNat
  polled : S.polls.flatMap Poll.fired = s.fired
  due : s.due = S.added.map fun a => a.last.toNat - start.toNat + a.timeout.toNat
  ordered : ∀ a ∈ S.added, start.toNat ≤ a.last.toNat ∧ a.last.toNat ≤ a.clock.toNat ∧
    a.clock.toNat ≤ S.now.toNat
  onTime : ∀ poll ∈ S.polls, ∀ fs ∈ poll.fired, ∀ k ∈ fs, ∃ a, S.added[k]? = some a ∧
    a.last.toNat + a.timeout.toNat + 1 ≤ poll.reading.toNat ∧
    a.clock.toNat ≤ poll.reading.toNat

theorem start_synced {nslots : Int32} (pos : 0 < nslots.toInt) (now : UInt64) :
    (start nslots now).Synced now .empty := by
  refine ⟨Run.start_refines pos now, rfl, Nat.le_refl _, Nat.le_refl _, ?_, ?_, ?_, ?_, ?_⟩ <;>
    simp [start, Countdown.State.empty]

/-- What one poll fires was due by its reading. -/
theorem fired_by_reading {S : Session} {begin : UInt64} {s s' : Countdown.State Addr}
    (synced : S.Synced begin s) (sched : s'.Scheduled) (due : s'.due = s.due) {reading : UInt64}
    (later : S.now.toNat ≤ reading.toNat) {fired : List (List Nat)}
    (total : s'.fired = s.fired ++ fired)
    (elapsed : s'.fired.length = reading.toNat - begin.toNat) :
    ∀ fs ∈ fired, ∀ k ∈ fs, ∃ a, S.added[k]? = some a ∧
      a.last.toNat + a.timeout.toNat + 1 ≤ reading.toNat ∧ a.clock.toNat ≤ reading.toNat := by
  intro fs member k fires
  obtain ⟨i, found⟩ := List.getElem?_of_mem
    (show fs ∈ s'.fired by rw [total]; exact List.mem_append_right _ member)
  have bound : i < s'.fired.length := (List.getElem?_eq_some_iff.mp found).1
  have when := sched.onTime i fs found k fires
  rw [due, synced.due, List.getElem?_map, Option.map_eq_some_iff] at when
  obtain ⟨a, added, value⟩ := when
  obtain ⟨begun, -, before⟩ := synced.ordered a (List.mem_of_getElem? added)
  exact ⟨a, added, by omega, Nat.le_trans before later⟩

theorem step_synced {S : Session} {begin : UInt64} {s : Countdown.State Addr}
    (synced : S.Synced begin s) {clock : UInt64} {q : Request}
    (admissible : S.Admissible clock q) :
    ∃ S', S.step clock q = .ok S' ∧ S'.Synced begin (s.exec (S.onList clock q)) := by
  obtain ⟨later, caller⟩ := admissible
  have later : S.now.toNat ≤ clock.toNat := UInt64.le_iff_toNat_le.mp later
  have last := synced.last_le
  have earlier : ∀ a ∈ S.added, begin.toNat ≤ a.last.toNat ∧ a.last.toNat ≤ a.clock.toNat ∧
      a.clock.toNat ≤ clock.toNat := by
    intro a member
    obtain ⟨h₁, h₂, h₃⟩ := synced.ordered a member
    exact ⟨h₁, h₂, Nat.le_trans h₃ later⟩
  cases q with
  | AddTimer p timeout =>
      obtain ⟨r', run, ref, -, time⟩ := Run.step_refines synced.refines caller
      refine ⟨{ S with run := r', now := clock, added := S.added ++ [⟨clock, timeout, S.last⟩] },
        by rw [step, run]; rfl, ?_⟩
      refine ⟨ref, time ▸ synced.low, synced.start_le, Nat.le_trans last later, synced.elapsed,
        synced.polled, ?_, ?_, ?_⟩
      · simp [onList, Countdown.State.step, synced.due, synced.elapsed]
      · intro a member
        rcases List.mem_append.mp member with member | new
        · exact earlier a member
        · obtain rfl := List.mem_singleton.mp new
          exact ⟨synced.start_le, Nat.le_trans last later, Nat.le_refl _⟩
      · intro poll member fs inside k fires
        obtain ⟨a, found, bounds⟩ := synced.onTime poll member fs inside k fires
        refine ⟨a, ?_, bounds⟩
        rw [List.getElem?_append_left (List.getElem?_eq_some_iff.mp found).1, found]
  | DelTimer p =>
      obtain ⟨r', run, ref, -, time⟩ := Run.step_refines synced.refines caller
      refine ⟨{ S with run := r', now := clock }, by rw [step, run]; rfl, ?_⟩
      exact ⟨ref, time ▸ synced.low, synced.start_le, Nat.le_trans last later, synced.elapsed,
        synced.polled, synced.due, earlier, synced.onTime⟩
  | TakeAllTimeout =>
      obtain ⟨fired, w', run, length, low, ref⟩ := Run.takeAllTimeout_refines synced.refines
        synced.low (UInt64.le_iff_toNat_le.mpr (Nat.le_trans last later)) caller
      obtain ⟨due, -, total⟩ := Countdown.State.exec_ticks s (clock.toNat - S.last.toNat)
      have started := synced.start_le
      have elapsed : (s.exec (S.onList clock .TakeAllTimeout)).fired.length =
          clock.toNat - begin.toNat := by
        rw [onList, total, synced.elapsed]
        omega
      have fires : (s.exec (S.onList clock .TakeAllTimeout)).fired = s.fired ++ fired := by
        rw [onList, ← ref.fired, synced.refines.fired]
      refine ⟨{ S with
          run := { S.run with wheel := w', fired := S.run.fired ++ fired }
          now := clock
          last := clock
          polls := S.polls ++ [⟨clock, fired⟩] }, by rw [step, run]; rfl, ?_⟩
      refine ⟨ref, low, ?_, Nat.le_refl _, elapsed, ?_, due.trans synced.due, earlier, ?_⟩
      · exact Nat.le_trans started (Nat.le_trans last later)
      · rw [fires, List.flatMap_append, synced.polled]
        simp
      · intro poll member
        rcases List.mem_append.mp member with member | new
        · exact synced.onTime poll member
        · obtain rfl := List.mem_singleton.mp new
          exact fired_by_reading synced ref.scheduled due later fires elapsed

theorem exec_synced {S : Session} {begin : UInt64} {s : Countdown.State Addr}
    (synced : S.Synced begin s) (qs : List (UInt64 × Request)) (legal : S.Along Admissible qs) :
    ∃ S' s', S.exec qs = .ok S' ∧ S'.Synced begin s' := by
  induction qs generalizing S s with
  | nil => exact ⟨S, s, rfl, synced⟩
  | cons head qs ih =>
      obtain ⟨clock, q⟩ := head
      obtain ⟨admissible, rest⟩ := legal
      obtain ⟨S₁, first, synced₁⟩ := step_synced synced admissible
      rw [first] at rest
      obtain ⟨S', s', run, synced'⟩ := ih synced₁ rest
      exact ⟨S', s', by rw [exec, first]; exact run, synced'⟩

/-- A timer fires once the readings are `timeout + 1` past the one it counts from. -/
theorem Synced.fires_once {S : Session} {begin : UInt64} {s : Countdown.State Addr}
    (synced : S.Synced begin s) {k : Nat} {a : Added} (added : S.added[k]? = some a)
    (uncancelled : k ∉ s.deleted)
    (past : a.last.toNat + a.timeout.toNat + 1 ≤ S.last.toNat) :
    (S.polls.flatMap Poll.fired).flatten.count k = 1 := by
  obtain ⟨begun, -⟩ := synced.ordered a (List.mem_of_getElem? added)
  have due : s.due[k]? = some (a.last.toNat - begin.toNat + a.timeout.toNat) := by
    rw [synced.due, List.getElem?_map, added]
    rfl
  rw [synced.polled]
  refine synced.refines.scheduled.count_flatten due uncancelled ?_
  rw [synced.elapsed]
  omega

/-- **The ticks follow the clock, and no timer is late.**  In every session with
readings less than `2 ^ 31` milliseconds apart, as many ticks have run as the last
reading is past the constructor's; and a timer that was not deleted has fired
exactly once when the last reading is `timeout + 1` past the clock it was added at. -/
theorem ticks_follow_clock {nslots : Int32} (pos : 0 < nslots) (now : UInt64)
    (qs : List (UInt64 × Request)) (legal : (start nslots now).Along Admissible qs) :
    ∃ S, (start nslots now).exec qs = .ok S ∧
      (S.polls.map fun poll => poll.fired.length).sum = S.last.toNat - now.toNat ∧
      ∀ (k : Nat) a, S.added[k]? = some a → k ∉ S.run.deleted →
        a.clock.toNat + a.timeout.toNat + 1 ≤ S.last.toNat →
        (S.polls.flatMap Poll.fired).flatten.count k = 1 := by
  have positive : 0 < nslots.toInt := by simpa [Int32.lt_iff_toInt_lt] using pos
  obtain ⟨S, s, run, synced⟩ := exec_synced (start_synced positive now) qs legal
  refine ⟨S, run, ?_, ?_⟩
  · rw [← synced.elapsed, ← synced.polled, List.length_flatMap]
  · intro k a added uncancelled past
    obtain ⟨-, before, -⟩ := synced.ordered a (List.mem_of_getElem? added)
    exact synced.fires_once added (synced.refines.deleted ▸ uncancelled) (by omega)

/-- A constructor's reading below `2 ^ 31` and a later one above it. -/
theorem ticks_follow_clock_wrap :
    ∃ S, (start 4 2147483646).exec
        [(2147483646, .AddTimer 1 1), (2147483649, .TakeAllTimeout)] = .ok S ∧
      (S.polls.map fun poll => poll.fired.length).sum = S.last.toNat - 2147483646 ∧
      (S.polls.flatMap Poll.fired).flatten.count 0 = 1 := by
  have seen : ((start 4 2147483646).exec
      [(2147483646, .AddTimer 1 1), (2147483649, .TakeAllTimeout)]).map
        (fun S => (S.added, S.run.deleted, S.last)) =
      .ok ([⟨2147483646, 1, 2147483646⟩], [], 2147483649) := by decide +kernel
  obtain ⟨S, run, total, fires⟩ := ticks_follow_clock (show (0 : Int32) < 4 by decide) 2147483646
    [(2147483646, .AddTimer 1 1), (2147483649, .TakeAllTimeout)] (by decide +kernel)
  rw [run] at seen
  obtain ⟨added, deleted, last⟩ : S.added = [⟨2147483646, 1, 2147483646⟩] ∧
      S.run.deleted = [] ∧ S.last = 2147483649 := by simpa [Except.map] using seen
  exact ⟨S, run, total, fires 0 ⟨2147483646, 1, 2147483646⟩ (by simp [added]) (by simp [deleted])
    (by rw [last]; decide)⟩

/-! ## Early timers -/

/-- No `TakeAllTimeout` has fired a timer before its timeout had gone by. -/
def NeverEarly (S : Session) : Prop :=
  ∀ poll ∈ S.polls, ∀ fs ∈ poll.fired, ∀ k ∈ fs, ∀ a, S.added[k]? = some a →
    ¬ poll.reading.toNat < a.clock.toNat + a.timeout.toNat

/-- The clock moves on between a poll and an `AddTimer`: the timer of 5 ms added at
10 fires at 12. -/
theorem stale_reading_counterexample :
    ¬ ∀ (nslots : Int32) (now : UInt64) (qs : List (UInt64 × Request)), 0 < nslots →
      (start nslots now).Along Admissible qs → ∀ S, (start nslots now).exec qs = .ok S →
        S.NeverEarly := by
  intro claim
  have seen : ((start 8 0).exec [(10, .AddTimer 1 5), (12, .TakeAllTimeout)]).map
      (fun S => (S.added, S.polls)) = .ok ([⟨10, 5, 0⟩],
        [⟨12, [[], [], [], [], [], [0], [], [], [], [], [], []]⟩]) := by decide +kernel
  have legal : (start 8 0).Along Admissible [(10, .AddTimer 1 5), (12, .TakeAllTimeout)] := by
    decide +kernel
  cases run : (start 8 0).exec [(10, .AddTimer 1 5), (12, .TakeAllTimeout)] with
  | error fault =>
      rw [run] at seen
      cases seen
  | ok S =>
      rw [run] at seen
      obtain ⟨added, polls⟩ : S.added = [⟨10, 5, 0⟩] ∧
          S.polls = [⟨12, [[], [], [], [], [], [0], [], [], [], [], [], []]⟩] := by
        simpa [Except.map] using seen
      have never := claim 8 0 _ (by decide) legal S run
      rw [NeverEarly, polls] at never
      exact never _ (List.mem_singleton.mpr rfl) [0] (by simp) 0 (by simp) ⟨10, 5, 0⟩
        (by simp [added]) (by decide)

section Inversion

variable {S S' : Session} {clock : UInt64}

theorem addTimer_ok {p : Addr} {timeout : UInt64}
    (run : S.step clock (.AddTimer p timeout) = .ok S') :
    ∃ r, S' = { S with
      run := r, now := clock, added := S.added ++ [⟨clock, timeout, S.last⟩] } := by
  rw [step] at run
  cases inner : S.run.step (.AddTimer p timeout) with
  | error fault => rw [inner] at run; cases run
  | ok r => rw [inner] at run; cases run; exact ⟨r, rfl⟩

theorem delTimer_ok {p : Addr} (run : S.step clock (.DelTimer p) = .ok S') :
    ∃ r, S' = { S with run := r, now := clock } := by
  rw [step] at run
  cases inner : S.run.step (.DelTimer p) with
  | error fault => rw [inner] at run; cases run
  | ok r => rw [inner] at run; cases run; exact ⟨r, rfl⟩

theorem takeAllTimeout_ok (run : S.step clock .TakeAllTimeout = .ok S') :
    ∃ r fired, S' = { S with
      run := r, now := clock, last := clock, polls := S.polls ++ [⟨clock, fired⟩] } := by
  rw [step] at run
  cases inner : S.run.wheel.TakeAllTimeout quiet clock with
  | error fault => rw [inner] at run; cases run
  | ok r => rw [inner] at run; cases run; exact ⟨_, r.1, rfl⟩

end Inversion

/-- Every timer added so far was added promptly. -/
def AllPrompt (S : Session) : Prop :=
  ∀ a ∈ S.added, a.timeout = 0 ∨ a.clock.toNat ≤ a.last.toNat + 1

theorem step_allPrompt {S S' : Session} (all : S.AllPrompt) {clock : UInt64} {q : Request}
    (prompt : S.Prompt clock q) (run : S.step clock q = .ok S') : S'.AllPrompt := by
  cases q with
  | AddTimer p timeout =>
      obtain ⟨r, rfl⟩ := addTimer_ok run
      intro a member
      rcases List.mem_append.mp member with member | new
      · exact all a member
      · obtain rfl := List.mem_singleton.mp new
        exact prompt
  | DelTimer p => obtain ⟨r, rfl⟩ := delTimer_ok run; exact all
  | TakeAllTimeout => obtain ⟨r, fired, rfl⟩ := takeAllTimeout_ok run; exact all

theorem exec_allPrompt {S S' : Session} (all : S.AllPrompt) (qs : List (UInt64 × Request))
    (prompt : S.Along Prompt qs) (run : S.exec qs = .ok S') : S'.AllPrompt := by
  induction qs generalizing S with
  | nil => cases run; exact all
  | cons head qs ih =>
      obtain ⟨clock, q⟩ := head
      obtain ⟨first, rest⟩ := prompt
      rw [exec] at run
      cases inner : S.step clock q with
      | error fault => rw [inner] at run; cases run
      | ok S₁ =>
          rw [inner] at run rest
          exact ih (step_allPrompt all first inner) rest run

/-- **A timer added promptly is never early**: with timeout 0, or at most one
millisecond after the last reading. -/
theorem prompt_never_early {nslots : Int32} (pos : 0 < nslots) (now : UInt64)
    (qs : List (UInt64 × Request)) (legal : (start nslots now).Along Admissible qs)
    (prompt : (start nslots now).Along Prompt qs) :
    ∃ S, (start nslots now).exec qs = .ok S ∧ S.NeverEarly := by
  have positive : 0 < nslots.toInt := by simpa [Int32.lt_iff_toInt_lt] using pos
  obtain ⟨S, s, run, synced⟩ := exec_synced (start_synced positive now) qs legal
  have all : S.AllPrompt := exec_allPrompt (by simp [AllPrompt, start]) qs prompt run
  refine ⟨S, run, ?_⟩
  intro poll member fs inside k fires a added
  obtain ⟨a', added', due, after⟩ := synced.onTime poll member fs inside k fires
  obtain rfl := Option.some.inj (added.symm.trans added')
  rcases all a (List.mem_of_getElem? added) with zero | soon
  · rw [zero, UInt64.toNat_zero]
    omega
  · omega

theorem prompt_never_early_poll :
    ∃ S, (start 8 0).exec [(1, .AddTimer 1 5), (12, .TakeAllTimeout)] = .ok S ∧ S.NeverEarly :=
  prompt_never_early (by decide) 0 _ (by decide +kernel) (by decide +kernel)

/-- A timer added when the clock is more than one millisecond past the last reading is
fired early if the next poll falls into the gap this leaves: from `timeout + 1` after that
reading on (`due`), but less than `timeout` after the add (`soon`), and no more ticks away
than an `int` counts (`gap`). -/
theorem stale_reading_fires_early {S : Session} {begin : UInt64} {s : Countdown.State Addr}
    (synced : S.Synced begin s) {clock reading timeout : UInt64} {p : Addr}
    (add : S.Admissible clock (.AddTimer p timeout)) (later : clock ≤ reading)
    (gap : reading.toNat - S.last.toNat < 2 ^ 31)
    (due : S.last.toNat + timeout.toNat + 1 ≤ reading.toNat)
    (soon : reading.toNat < clock.toNat + timeout.toNat) :
    ∃ S', S.exec [(clock, .AddTimer p timeout), (reading, .TakeAllTimeout)] = .ok S' ∧
      ¬ S'.NeverEarly := by
  obtain ⟨S₁, first, synced₁⟩ := step_synced synced add
  obtain ⟨r₁, rfl⟩ := addTimer_ok first
  obtain ⟨S₂, second, synced₂⟩ := step_synced synced₁
    (show Session.Admissible _ reading .TakeAllTimeout from ⟨later, gap⟩)
  obtain ⟨r₂, fired, rfl⟩ := takeAllTimeout_ok second
  refine ⟨_, by rw [exec, first]; show (Session.step _ _ _ >>= _) = _; rw [second]; rfl, ?_⟩
  intro never
  have added : (S.added ++ [(⟨clock, timeout, S.last⟩ : Added)])[S.added.length]? =
      some ⟨clock, timeout, S.last⟩ := by simp
  -- the new timer's number has not been used, so it is neither deleted nor fired before
  have uncancelled : S.added.length ∉ s.deleted := by
    intro gone
    have := synced.refines.scheduled.known _ gone
    rw [synced.due, List.length_map] at this
    omega
  have once : ((S.polls ++ [(⟨reading, fired⟩ : Poll)]).flatMap Poll.fired).flatten.count
      S.added.length = 1 := by
    refine synced₂.fires_once added ?_ due
    obtain ⟨-, kept, -⟩ := Countdown.State.exec_ticks
      (s.exec (S.onList clock (.AddTimer p timeout))) (reading.toNat - S.last.toNat)
    exact fun gone => uncancelled (kept ▸ gone)
  have fires := List.count_pos_iff.mp (Nat.lt_of_lt_of_eq Nat.one_pos once.symm)
  obtain ⟨fs, inside, fires⟩ := List.mem_flatten.mp fires
  obtain ⟨poll, member, inside⟩ := List.mem_flatMap.mp inside
  rcases List.mem_append.mp member with old | new
  · obtain ⟨a, found, -⟩ := synced.onTime poll old fs inside _ fires
    exact absurd (List.getElem?_eq_some_iff.mp found).1 (Nat.lt_irrefl _)
  · obtain rfl := List.mem_singleton.mp new
    exact never _ member fs inside _ fires _ added soon

end Session

end Codesnip.Common.Timer
