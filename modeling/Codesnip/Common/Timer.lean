/-
# Common.Timer -- the timing wheel of `common/timer.h`

A `TimeWheel` is a vector of slots, each a vector of pointers to `Timer`
objects, and a cursor that moves on one slot with every tick.  A timer waits in
the slot its timeout ends in and counts down the full rotations still ahead.

The `Timer` objects live in a heap: `heap p` is the live object at address `p`.
`AddTimer` is handed the address `operator new` answers with, so an address can
come back once its object is deleted.  What C++ leaves undefined is a `Fault`:
an index outside the slot vector, a dereference of an object that is not alive,
an iterator outside the vector it walks.  The wheel is built with `nslots > 0`;
below that its remainders divide by zero.

A callback is an opaque value, and `cancels f` lists the handles it passes to
`DelTimer` when it runs; a callback that leaves the wheel alone cancels none
(`quiet`).  `Tick` answers with the callbacks it called, in order.  Its loop takes what
the callbacks do as an argument, so that those that add timers run in the same one.
-/
import Codesnip.Theory.Word
import Mathlib.Logic.Function.Basic

namespace Codesnip.Common.Timer

open Codesnip.Theory.Word

set_option autoImplicit false
set_option linter.dupNamespace false

variable {F : Type}

abbrev Addr := Nat

inductive Fault where
  | slotIndex
  | deadTimer
  | badIterator
  | unfinished
  deriving DecidableEq, Repr

structure Timer (F : Type) where
  rotations_ : Int32
  slot_ : Int32
  func_ : F
  deriving DecidableEq, Repr

namespace Timer

def GetRotations (t : Timer F) : Int32 := t.rotations_

def DecreaseRotations (t : Timer F) : Timer F := { t with rotations_ := t.rotations_ - 1 }

def GetSlot (t : Timer F) : Int32 := t.slot_

end Timer

structure TimeWheel (F : Type) where
  nslosts_ : Int32
  curslot_ : Int32
  starttime_ : UInt64
  slots_ : List (List Addr)
  heap : Addr → Option (Timer F)

/-- Callbacks that do not touch the wheel. -/
def quiet : F → List Addr := fun _ => []

namespace TimeWheel

/-- The constructor, with `now` what `GetCurrentMillisecs()` answers. -/
def new (nslots : Int32) (now : UInt64) : TimeWheel F :=
  { nslosts_ := nslots
    curslot_ := 0
    starttime_ := now
    slots_ := List.replicate (ullOfInt nslots).toNat []
    heap := fun _ => none }

/-! ## Memory -/

/-- `slots_[i]`, read. -/
def slotAt (w : TimeWheel F) (i : Int32) : Except Fault (List Addr) :=
  match w.slots_[(ullOfInt i).toNat]? with
  | some v => .ok v
  | none => .error .slotIndex

/-- `slots_[i]`, replaced. -/
def setSlot (w : TimeWheel F) (i : Int32) (v : List Addr) : TimeWheel F :=
  { w with slots_ := w.slots_.set (ullOfInt i).toNat v }

/-- `*p`, read. -/
def deref (w : TimeWheel F) (p : Addr) : Except Fault (Timer F) :=
  match w.heap p with
  | some t => .ok t
  | none => .error .deadTimer

/-- `*p`, written (also by `new`). -/
def store (w : TimeWheel F) (p : Addr) (t : Timer F) : TimeWheel F :=
  { w with heap := Function.update w.heap p (some t) }

/-- The wheel with nothing alive at `p`. -/
def drop (w : TimeWheel F) (p : Addr) : TimeWheel F :=
  { w with heap := Function.update w.heap p none }

/-- `delete p`. -/
def free (w : TimeWheel F) (p : Addr) : Except Fault (TimeWheel F) :=
  match w.heap p with
  | some _ => .ok (w.drop p)
  | none => .error .deadTimer

/-! ## The interface -/

/-- The destructor: it deletes every timer in the slots. -/
def destroy (w : TimeWheel F) : Except Fault (TimeWheel F) :=
  w.slots_.foldlM (fun w vect => vect.foldlM (fun w timer => w.free timer) w) w

/-- `AddTimer(timeout, fun)`, with `p` the address `new` answers with.  The guard
compares an unsigned value with zero and never holds. -/
def AddTimer (w : TimeWheel F) (p : Addr) (timeout : UInt64) (func : F) :
    Except Fault (Option Addr × TimeWheel F) :=
  if timeout < 0 then .ok (none, w)
  else do
    let slot := intOfUll
      ((ullOfInt w.curslot_ + timeout % ullOfInt w.nslosts_) % ullOfInt w.nslosts_)
    let w := w.store p ⟨intOfUll (timeout / ullOfInt w.nslosts_), slot, func⟩
    let v ← w.slotAt slot
    .ok (some p, w.setSlot slot (v ++ [p]))

/-- `DelTimer(timer)`: `std::find` and `erase` take out the first occurrence. -/
def DelTimer (w : TimeWheel F) : Option Addr → Except Fault (TimeWheel F)
  | none => .ok w
  | some p => do
    let t ← w.deref p
    let v ← w.slotAt t.GetSlot
    if p ∈ v then .ok (w.setSlot t.GetSlot (v.erase p)) else .ok w

/-- `timer->Active()`: the callback runs and cancels what it cancels. -/
def Active (cancels : F → List Addr) (w : TimeWheel F) (t : Timer F) :
    Except Fault (TimeWheel F) :=
  (cancels t.func_).foldlM (fun w p => w.DelTimer (some p)) w

/-- The loop of `Tick`, with `it` a position in `slots_[curslot_]` and `active` what
`timer->Active()` does.  Every round brings the position one closer to the end, so the
slot's length is fuel enough (`Tick` gives one round more, for the test that ends the
loop). -/
def tickLoop (active : TimeWheel F → Timer F → Except Fault (TimeWheel F)) :
    Nat → Nat → TimeWheel F → Except Fault (List F × TimeWheel F)
  | 0, _, _ => .error .unfinished
  | fuel + 1, it, w => do
    let v ← w.slotAt w.curslot_
    if it = v.length then .ok ([], w)
    else match v[it]? with
    | none => .error .badIterator
    | some p => do
      let t ← w.deref p
      if t.GetRotations > 0 then
        tickLoop active fuel (it + 1) (w.store p t.DecreaseRotations)
      else do
        let w ← active w t
        let v ← w.slotAt w.curslot_
        if it < v.length then do
          let w ← (w.setSlot w.curslot_ (v.eraseIdx it)).free p
          let (fired, w) ← tickLoop active fuel it w
          .ok (t.func_ :: fired, w)
        else .error .badIterator

/-- `Tick()`, with callbacks that do what `active` says. -/
def TickWith (active : TimeWheel F → Timer F → Except Fault (TimeWheel F)) (w : TimeWheel F) :
    Except Fault (List F × TimeWheel F) := do
  let v ← w.slotAt w.curslot_
  let (fired, w) ← tickLoop active (v.length + 1) 0 w
  let tmp := w.curslot_ + 1
  .ok (fired, { w with curslot_ := tmp % w.nslosts_ })

/-- `for (int i = 0; i < cnt; ++i) {Tick();}`, with what each tick called. -/
def TicksWith (active : TimeWheel F → Timer F → Except Fault (TimeWheel F)) :
    Nat → TimeWheel F → Except Fault (List (List F) × TimeWheel F)
  | 0, w => .ok ([], w)
  | cnt + 1, w => do
    let (fired, w) ← w.TickWith active
    let (rest, w) ← TicksWith active cnt w
    .ok (fired :: rest, w)

def Tick (cancels : F → List Addr) (w : TimeWheel F) : Except Fault (List F × TimeWheel F) :=
  w.TickWith (Active cancels)

def Ticks (cancels : F → List Addr) (cnt : Nat) (w : TimeWheel F) :
    Except Fault (List (List F) × TimeWheel F) := w.TicksWith (Active cancels) cnt

/-- `TakeAllTimeout()`, with `reading` what `GetCurrentMillisecs()` answers. -/
def TakeAllTimeout (cancels : F → List Addr) (w : TimeWheel F) (reading : UInt64) :
    Except Fault (List (List F) × TimeWheel F) := do
  let now := intOfUll reading
  let cnt := intOfUll (ullOfInt now - w.starttime_)
  let (fired, w) ← w.Ticks cancels cnt.toInt.toNat
  .ok (fired, { w with starttime_ := ullOfInt now })

end TimeWheel

end Codesnip.Common.Timer
