/-
# Common.TimerRun -- runs of the timing wheel

A run is a sequence of calls on a fresh wheel.  The `k`-th `AddTimer` registers
the callback `k`, so a timer is known by its number whatever address its object
has, and a run records which timers were deleted and what each `Tick` called.

`Legal` is what a caller owes: `new` answers with an address at which nothing is
alive, `timeout / nslots` fits an `int`, and `DelTimer` gets a timer that is still
pending.  Under it a run never faults and is a run of the countdown list
(`exec_refines`).
-/
import Codesnip.Common.TimerRefine

namespace Codesnip.Common.Timer

open Codesnip.Theory
open Codesnip.Theory.Word
open Codesnip.Theory.Countdown (Entry)

set_option autoImplicit false
set_option linter.dupNamespace false

/-- A call; `AddTimer` also names the address `new` answers with. -/
inductive Call where
  | AddTimer (p : Addr) (timeout : UInt64)
  | DelTimer (p : Addr)
  | Tick
  deriving DecidableEq, Repr

/-- The call on the countdown list. -/
def Call.onList : Call → Countdown.Op Addr
  | .AddTimer p timeout => .add p timeout.toNat
  | .DelTimer p => .del p
  | .Tick => .tick

structure Run where
  wheel : TimeWheel Nat
  added : Nat
  deleted : List Nat
  fired : List (List Nat)

namespace Run

def start (nslots : Int32) (now : UInt64) : Run := ⟨.new nslots now, 0, [], []⟩

def step (r : Run) : Call → Except Fault Run
  | .AddTimer p timeout => do
    let (_, wheel) ← r.wheel.AddTimer p timeout r.added
    .ok { r with wheel, added := r.added + 1 }
  | .DelTimer p => do
    let timer ← r.wheel.deref p
    let wheel ← r.wheel.DelTimer (some p)
    .ok { r with wheel, deleted := r.deleted ++ [timer.func_] }
  | .Tick => do
    let (fired, wheel) ← r.wheel.Tick quiet
    .ok { r with wheel, fired := r.fired ++ [fired] }

def exec (r : Run) : List Call → Except Fault Run
  | [] => .ok r
  | c :: cs => do (← r.step c).exec cs

/-- What the caller owes for one call. -/
def Admissible (r : Run) : Call → Prop
  | .AddTimer p timeout =>
      r.wheel.heap p = none ∧ timeout.toNat / r.wheel.nslosts_.toInt.toNat ≤ intMax
  | .DelTimer p => r.wheel.Pending p
  | .Tick => True

instance (r : Run) (c : Call) : Decidable (r.Admissible c) := by
  cases c <;> unfold Admissible <;> infer_instance

/-- Every call of the run is admissible where it is made. -/
def Legal (r : Run) : List Call → Prop
  | [] => True
  | c :: cs => r.Admissible c ∧
      match r.step c with
      | .ok r' => r'.Legal cs
      | .error _ => True

instance decidableLegal : ∀ (cs : List Call) (r : Run), Decidable (r.Legal cs)
  | [], _ => inferInstanceAs (Decidable True)
  | c :: cs, r =>
      have : Decidable (match r.step c with
          | .ok r' => r'.Legal cs
          | .error _ => True) :=
        match r.step c with
        | .ok r' => decidableLegal cs r'
        | .error _ => inferInstanceAs (Decidable True)
      inferInstanceAs (Decidable (_ ∧ _))

/-- The run `r` is where the run `s` of the countdown list is. -/
structure Refines (r : Run) (s : Countdown.State Addr) : Prop where
  wheel : r.wheel.Represents s.pending
  added : r.added = s.due.length
  deleted : r.deleted = s.deleted
  fired : r.fired = s.fired
  scheduled : s.Scheduled

theorem start_refines {nslots : Int32} (pos : 0 < nslots.toInt) (now : UInt64) :
    (start nslots now).Refines .empty :=
  ⟨TimeWheel.new_represents pos now, rfl, rfl, rfl, Countdown.State.empty_scheduled⟩

/-- Pending in the wheel is pending in the list. -/
theorem pending_iff {F : Type} {w : TimeWheel F} {l : List (Entry Addr F)} (rep : w.Represents l)
    (p : Addr) : w.Pending p ↔ ∃ e ∈ l, e.handle = p := by
  constructor
  · rintro ⟨v, member, inside⟩
    rw [rep.slots] at member
    obtain ⟨i, -, rfl⟩ := List.mem_map.mp member
    obtain ⟨e, bucketed, rfl⟩ := List.mem_map.mp inside
    exact ⟨e, (List.mem_filter.mp bucketed).1, rfl⟩
  · rintro ⟨e, member, rfl⟩
    refine ⟨(w.bucket l (w.slotOf e.remaining)).map Entry.handle, ?_, ?_⟩
    · rw [rep.slots]
      exact List.mem_map.mpr ⟨_, List.mem_range.mpr (rep.sized.slotOf_lt _), rfl⟩
    · exact List.mem_map_of_mem (List.mem_filter.mpr ⟨member, by simp⟩)

/-- **One admissible call is the same call on the list.** -/
theorem step_refines {r : Run} {s : Countdown.State Addr} (ref : r.Refines s) {c : Call}
    (admissible : r.Admissible c) :
    ∃ r', r.step c = .ok r' ∧ r'.Refines (s.step c.onList) ∧
      r'.wheel.nslosts_ = r.wheel.nslosts_ ∧ r'.wheel.starttime_ = r.wheel.starttime_ := by
  cases c with
  | AddTimer p timeout =>
      obtain ⟨fresh, fits⟩ := admissible
      obtain ⟨w', run, rep, slots, clock⟩ :=
        TimeWheel.addTimer_represents ref.wheel fresh fits r.added
      refine ⟨{ r with wheel := w', added := r.added + 1 }, ?_, ?_, slots, clock⟩
      · rw [step, run]
        rfl
      · refine ⟨?_, ?_, ref.deleted, ref.fired, ref.scheduled.step _⟩
        · simpa [Countdown.State.step, Call.onList, ref.added] using rep
        · simp [Countdown.State.step, Call.onList, ref.added]
  | DelTimer p =>
      obtain ⟨e, member, rfl⟩ := (pending_iff ref.wheel p).mp admissible
      obtain ⟨w', run, rep, slots, clock⟩ := TimeWheel.delTimer_represents ref.wheel member
      refine ⟨{ r with wheel := w', deleted := r.deleted ++ [e.callback] }, ?_, ?_, slots, clock⟩
      · rw [step, ref.wheel.deref member, run]
        rfl
      · refine ⟨rep, ref.added, ?_, ref.fired, ref.scheduled.step _⟩
        simp [Countdown.State.step, Call.onList, ref.deleted,
          Countdown.filter_handle ref.wheel.distinct member]
  | Tick =>
      obtain ⟨w', run, rep, slots, clock⟩ := TimeWheel.tick_represents ref.wheel
      refine ⟨{ r with wheel := w', fired := r.fired ++ [Countdown.expired s.pending] },
        ?_, ?_, slots, clock⟩
      · rw [step, run]
        rfl
      · refine ⟨rep, ref.added, ref.deleted, ?_, ref.scheduled.step _⟩
        simp [Countdown.State.step, Call.onList, ref.fired]

theorem exec_refines {r : Run} {s : Countdown.State Addr} (ref : r.Refines s) (cs : List Call)
    (legal : r.Legal cs) :
    ∃ r', r.exec cs = .ok r' ∧ r'.Refines (s.exec (cs.map Call.onList)) ∧
      r'.wheel.nslosts_ = r.wheel.nslosts_ ∧ r'.wheel.starttime_ = r.wheel.starttime_ := by
  induction cs generalizing r s with
  | nil => exact ⟨r, rfl, ref, rfl, rfl⟩
  | cons c cs ih =>
      obtain ⟨admissible, rest⟩ := legal
      obtain ⟨r₁, first, ref₁, slots₁, clock₁⟩ := step_refines ref admissible
      rw [first] at rest
      obtain ⟨r', run, ref', slots', clock'⟩ := ih ref₁ rest
      exact ⟨r', by rw [exec, first]; exact run, ref', slots'.trans slots₁,
        clock'.trans clock₁⟩

/-- **The wheel is a countdown list.**  Over every legal sequence of calls on a
fresh wheel nothing faults, each `Tick` calls what the list's tick fires and in
that order; the `k`-th timer, unless deleted, fires once, in the
`(timeout + 1)`-th `Tick` after its `AddTimer`; and a pending timer stands once
in the slots, where its object says. -/
theorem timewheel_refines_countdown {nslots : Int32} (pos : 0 < nslots) (now : UInt64)
    (cs : List Call) (legal : (start nslots now).Legal cs) :
    ∃ r, (start nslots now).exec cs = .ok r ∧
      r.fired = (Countdown.State.empty.exec (cs.map Call.onList)).fired ∧
      (∀ before p timeout after, cs = before ++ .AddTimer p timeout :: after →
        let k := Countdown.State.adds (before.map Call.onList)
        k ∉ r.deleted → ∀ i, (r.fired.getD i []).count k =
          if i = Countdown.State.ticks (before.map Call.onList) + timeout.toNat ∧
            i < Countdown.State.ticks (cs.map Call.onList) then 1 else 0) ∧
      (∀ fs ∈ r.fired, fs.Pairwise (· < ·)) ∧
      (0 ≤ r.wheel.curslot_ ∧ r.wheel.curslot_ < nslots) ∧
      (∀ p, r.wheel.Pending p ↔
        ∃ e ∈ (Countdown.State.empty.exec (cs.map Call.onList)).pending, e.handle = p) ∧
      ∀ p, r.wheel.Pending p → ∃ t v, r.wheel.heap p = some t ∧
        r.wheel.slotAt t.GetSlot = .ok v ∧ v.count p = 1 ∧ r.wheel.slots_.flatten.count p = 1 := by
  have positive : 0 < nslots.toInt := by simpa [Int32.lt_iff_toInt_lt] using pos
  obtain ⟨r, run, ref, slots, -⟩ := exec_refines (start_refines positive now) cs legal
  refine ⟨r, run, ref.fired, ?_, ?_, ⟨?_, ?_⟩, pending_iff ref.wheel,
    fun p => ref.wheel.placed.pending_once⟩
  · rintro before p timeout after rfl k uncancelled i
    rw [ref.deleted] at uncancelled
    have due := Countdown.State.exec_due (before.map Call.onList) (after.map Call.onList)
      p timeout.toNat
    have total := Countdown.State.exec_fired_length (Countdown.State.empty : Countdown.State Addr)
      ((before ++ .AddTimer p timeout :: after).map Call.onList)
    simp only [Countdown.State.empty, List.length_nil, Nat.zero_add] at total
    rw [ref.fired, ← total]
    refine ref.scheduled.count_fired ?_ uncancelled i
    simpa [Call.onList] using due
  · intro fs member
    rw [ref.fired] at member
    exact ref.scheduled.inOrder fs member
  · simpa [Int32.le_iff_toInt_le] using ref.wheel.cur_nonneg
  · have := ref.wheel.cur_lt
    rw [slots] at this
    exact Int32.lt_iff_toInt_lt.mpr this

/-- A timer of exactly one rotation waits the rotation out. -/
theorem timewheel_refines_countdown_rotation :
    (start 2 0).Legal [.AddTimer 1 2, .Tick, .AddTimer 2 1, .Tick, .Tick] ∧
      ∃ r, (start 2 0).exec [.AddTimer 1 2, .Tick, .AddTimer 2 1, .Tick, .Tick] = .ok r ∧
        r.fired = [[], [], [0, 1]] := by
  have legal : (start 2 0).Legal [.AddTimer 1 2, .Tick, .AddTimer 2 1, .Tick, .Tick] := by
    decide +kernel
  obtain ⟨r, run, fired, -⟩ := timewheel_refines_countdown (by decide) 0 _ legal
  exact ⟨legal, r, run, fired.trans (by decide)⟩

end Run

end Codesnip.Common.Timer
