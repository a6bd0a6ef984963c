/-
# Common.RWLock -- the readers-writer lock of `common/rwlock.h`

Every method runs under `mu_` from its first statement to its return, except where it
waits.  So a call is a few atomic sections: from taking `mu_` to giving it up, by
return or by `wait`.  A waiter that is out of its condition variable, notified or woken
spuriously, takes `mu_` back and tests its loop condition again (`resume`).

`Pc` says which loop a thread waits in.  `readers` and `writers` list the holds that are
outstanding, one entry for each; a thread unlocks only a hold it has.  Any thread may
hold several read locks, and nothing stops a holder from asking for more.
-/
import Codesnip.Theory.CondVar
import Codesnip.Theory.ReadersWriter
import Codesnip.Theory.Word

namespace Codesnip.Common.RWLock

open Codesnip.Theory
open Codesnip.Theory.Transition (System)

set_option autoImplicit false
set_option linter.dupNamespace false
set_option linter.unusedSectionVars false

/-- `UINT_MAX`. -/
def max_reader : UInt32 := 4294967295

/-- The loop a thread waits in; `gate` and `drain` are the two of `WLock`. -/
inductive Pc where
  | outside
  | gate
  | drain
  | read
  deriving DecidableEq, Repr

structure RWLock (T : Type) where
  reader_ : CondVar T
  writer_ : CondVar T
  writing_ : Bool
  reader_count_ : UInt32

namespace RWLock

variable {T : Type} [DecidableEq T]

def new : RWLock T :=
  { reader_ := .empty, writer_ := .empty, writing_ := false, reader_count_ := 0 }

/-! Each section leaves the caller `outside`, the call having returned, or in the loop
it waits in. -/

/-- `while(reader_count_>0){ writer_.wait(lock); }` -/
def drain (l : RWLock T) (t : T) : RWLock T × Pc :=
  if l.reader_count_ > 0 then ({ l with writer_ := l.writer_.wait t }, .drain) else (l, .outside)

/-- `WLock` from its first loop on. -/
def WLock (l : RWLock T) (t : T) : RWLock T × Pc :=
  if l.writing_ then ({ l with reader_ := l.reader_.wait t }, .gate)
  else drain { l with writing_ := true } t

def WULock (l : RWLock T) : RWLock T :=
  { l with writing_ := false, reader_ := l.reader_.notifyAll }

def RLock (l : RWLock T) (t : T) : RWLock T × Pc :=
  if l.writing_ = true ∨ l.reader_count_ ≥ max_reader then
    ({ l with reader_ := l.reader_.wait t }, .read)
  else ({ l with reader_count_ := l.reader_count_ + 1 }, .outside)

/-- `woken` is the waiter a `notify_one` wakes, if one is executed. -/
def RUnlock (l : RWLock T) (woken : Option T) : Option (RWLock T) :=
  let l := { l with reader_count_ := l.reader_count_ - 1 }
  if l.writing_ then
    if l.reader_count_ = 0 then
      (l.writer_.notifyOne woken).map fun writer_ => { l with writer_ }
    else if woken = none then some l else none
  else if l.reader_count_ = max_reader - 1 then
    (l.reader_.notifyOne woken).map fun reader_ => { l with reader_ }
  else if woken = none then some l else none

end RWLock

structure State (T : Type) where
  lock : RWLock T
  pc : T → Pc
  readers : List T
  writers : List T

inductive Action (T : Type) where
  | WLock (t : T)
  | WULock (t : T)
  | RLock (t : T)
  | RUnlock (t : T) (woken : Option T)
  | resume (t : T)
  | spurious (t : T)
  deriving DecidableEq, Repr

namespace State

variable {T : Type} [DecidableEq T]

def start (T : Type) : State T := ⟨.new, fun _ => .outside, [], []⟩

/-- A section of `WLock` has run; `outside` means that the call returned. -/
def wrote (s : State T) (t : T) : RWLock T × Pc → State T
  | (lock, pc) =>
      { s with
        lock
        pc := Function.update s.pc t pc
        writers := if pc = .outside then t :: s.writers else s.writers }

/-- A section of `RLock` has run. -/
def read (s : State T) (t : T) : RWLock T × Pc → State T
  | (lock, pc) =>
      { s with
        lock
        pc := Function.update s.pc t pc
        readers := if pc = .outside then t :: s.readers else s.readers }

def step (s : State T) : Action T → Option (State T)
  | .WLock t => if s.pc t = .outside then some (s.wrote t (s.lock.WLock t)) else none
  | .WULock t =>
      if s.pc t = .outside ∧ t ∈ s.writers then
        some { s with lock := s.lock.WULock, writers := s.writers.erase t }
      else none
  | .RLock t => if s.pc t = .outside then some (s.read t (s.lock.RLock t)) else none
  | .RUnlock t woken =>
      if s.pc t = .outside ∧ t ∈ s.readers then
        (s.lock.RUnlock woken).map fun lock => { s with lock, readers := s.readers.erase t }
      else none
  | .resume t =>
      match s.pc t with
      | .outside => none
      | .gate => if t ∈ s.lock.reader_ then none else some (s.wrote t (s.lock.WLock t))
      | .drain => if t ∈ s.lock.writer_ then none else some (s.wrote t (s.lock.drain t))
      | .read => if t ∈ s.lock.reader_ then none else some (s.read t (s.lock.RLock t))
  | .spurious t =>
      if t ∈ s.lock.reader_ then
        some { s with lock := { s.lock with reader_ := s.lock.reader_.wake t } }
      else if t ∈ s.lock.writer_ then
        some { s with lock := { s.lock with writer_ := s.lock.writer_.wake t } }
      else none

end State

def system (T : Type) [DecidableEq T] : System (State T) (Action T) :=
  { Init := fun s => s = .start T, step := State.step }

namespace State

variable {T : Type} [DecidableEq T]

/-! ## What a step can be -/

/-- `t` runs a section of `WLock` from its first loop on. -/
def Gates (s : State T) (t : T) (a : Action T) : Prop :=
  (a = .WLock t ∧ s.pc t = .outside) ∨
    (a = .resume t ∧ s.pc t = .gate ∧ ¬ t ∈ s.lock.reader_)

/-- `t` runs a section of `RLock`. -/
def Reads (s : State T) (t : T) (a : Action T) : Prop :=
  (a = .RLock t ∧ s.pc t = .outside) ∨
    (a = .resume t ∧ s.pc t = .read ∧ ¬ t ∈ s.lock.reader_)

inductive Stepped (s : State T) (a : Action T) : State T → Prop where
  | gateWait {t : T} (gates : s.Gates t a) (busy : s.lock.writing_ = true) :
      Stepped s a
        { s with
          lock := { s.lock with reader_ := s.lock.reader_.wait t }
          pc := Function.update s.pc t .gate }
  | gateDrain {t : T} (gates : s.Gates t a) (free : s.lock.writing_ = false)
      (some : s.lock.reader_count_ ≠ 0) :
      Stepped s a
        { s with
          lock := { s.lock with writing_ := true, writer_ := s.lock.writer_.wait t }
          pc := Function.update s.pc t .drain }
  | gateEnter {t : T} (gates : s.Gates t a) (free : s.lock.writing_ = false)
      (none : s.lock.reader_count_ = 0) :
      Stepped s a
        { s with
          lock := { s.lock with writing_ := true }
          pc := Function.update s.pc t .outside
          writers := t :: s.writers }
  | drainWait {t : T} (resume : a = .resume t) (pc : s.pc t = .drain)
      (awake : ¬ t ∈ s.lock.writer_) (some : s.lock.reader_count_ ≠ 0) :
      Stepped s a
        { s with
          lock := { s.lock with writer_ := s.lock.writer_.wait t }
          pc := Function.update s.pc t .drain }
  | drainEnter {t : T} (resume : a = .resume t) (pc : s.pc t = .drain)
      (awake : ¬ t ∈ s.lock.writer_) (none : s.lock.reader_count_ = 0) :
      Stepped s a
        { s with pc := Function.update s.pc t .outside, writers := t :: s.writers }
  | readWait {t : T} (reads : s.Reads t a)
      (closed : s.lock.writing_ = true ∨ max_reader ≤ s.lock.reader_count_) :
      Stepped s a
        { s with
          lock := { s.lock with reader_ := s.lock.reader_.wait t }
          pc := Function.update s.pc t .read }
  | readEnter {t : T} (reads : s.Reads t a) (free : s.lock.writing_ = false)
      (below : s.lock.reader_count_ < max_reader) :
      Stepped s a
        { s with
          lock := { s.lock with reader_count_ := s.lock.reader_count_ + 1 }
          pc := Function.update s.pc t .outside
          readers := t :: s.readers }
  | unwrite {t : T} (call : a = .WULock t) (pc : s.pc t = .outside) (holds : t ∈ s.writers) :
      Stepped s a { s with lock := s.lock.WULock, writers := s.writers.erase t }
  | unread {t : T} {woken : Option T} {lock : RWLock T} (call : a = .RUnlock t woken)
      (pc : s.pc t = .outside) (holds : t ∈ s.readers)
      (unlocked : s.lock.RUnlock woken = some lock) :
      Stepped s a { s with lock, readers := s.readers.erase t }
  | wakeReader {t : T} (spurious : a = .spurious t) (asleep : t ∈ s.lock.reader_) :
      Stepped s a { s with lock := { s.lock with reader_ := s.lock.reader_.wake t } }
  | wakeWriter {t : T} (spurious : a = .spurious t) (asleep : t ∈ s.lock.writer_) :
      Stepped s a { s with lock := { s.lock with writer_ := s.lock.writer_.wake t } }

theorem not_pos_iff (c : UInt32) : ¬ c > 0 ↔ c = 0 := by
  simp [← UInt32.toNat_inj, UInt32.lt_iff_toNat_lt]

theorem Gates.stepped {s : State T} {t : T} {a : Action T} (gates : s.Gates t a) :
    s.Stepped a (s.wrote t (s.lock.WLock t)) := by
  unfold RWLock.WLock
  split
  · exact .gateWait gates ‹_›
  · rename_i idle
    have free : s.lock.writing_ = false := by simpa using idle
    unfold RWLock.drain
    split
    · rename_i some
      exact .gateDrain gates free fun zero => (not_pos_iff _).mpr zero some
    · rename_i none
      exact .gateEnter gates free ((not_pos_iff _).mp none)

theorem Reads.stepped {s : State T} {t : T} {a : Action T} (reads : s.Reads t a) :
    s.Stepped a (s.read t (s.lock.RLock t)) := by
  unfold RWLock.RLock
  split
  · exact .readWait reads ‹_›
  · rename_i opened
    rw [not_or] at opened
    exact .readEnter reads (by simpa using opened.1) (UInt32.not_le.mp opened.2)

theorem stepped_of_step {s s' : State T} {a : Action T} (step : s.step a = some s') :
    s.Stepped a s' := by
  cases a with
  | WLock t =>
      simp only [State.step] at step
      split at step <;> cases step
      exact Gates.stepped (Or.inl ⟨rfl, ‹_›⟩)
  | RLock t =>
      simp only [State.step] at step
      split at step <;> cases step
      exact Reads.stepped (Or.inl ⟨rfl, ‹_›⟩)
  | WULock t =>
      simp only [State.step] at step
      split at step <;> rename_i can <;> cases step
      exact .unwrite rfl can.1 can.2
  | RUnlock t woken =>
      simp only [State.step] at step
      split at step <;> rename_i can
      · obtain ⟨lock, unlocked, rfl⟩ := Option.map_eq_some_iff.mp step
        exact .unread rfl can.1 can.2 unlocked
      · cases step
  | resume t =>
      simp only [State.step] at step
      split at step
      · cases step
      · split at step <;> cases step
        exact Gates.stepped (Or.inr ⟨rfl, ‹_›, ‹_›⟩)
      · split at step <;> cases step
        rename_i pc awake
        unfold RWLock.drain
        split
        · rename_i some
          exact .drainWait rfl pc awake fun zero => (not_pos_iff _).mpr zero some
        · rename_i none
          exact .drainEnter rfl pc awake ((not_pos_iff _).mp none)
      · split at step <;> cases step
        exact Reads.stepped (Or.inr ⟨rfl, ‹_›, ‹_›⟩)
  | spurious t =>
      simp only [State.step] at step
      split at step
      · cases step
        exact .wakeReader rfl ‹_›
      · split at step <;> cases step
        exact .wakeWriter rfl ‹_›

end State

/-- What `RUnlock` does to the lock, by the branch it takes. -/
theorem RWLock.runlock_cases {T : Type} [DecidableEq T] {l l' : RWLock T} {woken : Option T}
    (unlocked : l.RUnlock woken = some l') :
    l'.writing_ = l.writing_ ∧ l'.reader_count_ = l.reader_count_ - 1 ∧
      ((l.writing_ = true ∧ l.reader_count_ - 1 = 0 ∧ l'.reader_ = l.reader_ ∧
          l.writer_.notifyOne woken = some l'.writer_) ∨
        (l.writing_ = true ∧ l.reader_count_ - 1 ≠ 0 ∧ l'.reader_ = l.reader_ ∧
          l'.writer_ = l.writer_) ∨
        (l.writing_ = false ∧ l.reader_count_ - 1 = max_reader - 1 ∧ l'.writer_ = l.writer_ ∧
          l.reader_.notifyOne woken = some l'.reader_) ∨
        (l.writing_ = false ∧ l.reader_count_ - 1 ≠ max_reader - 1 ∧ l'.reader_ = l.reader_ ∧
          l'.writer_ = l.writer_)) := by
  simp only [RWLock.RUnlock] at unlocked
  split at unlocked
  · rename_i busy
    split at unlocked
    · rename_i zero
      obtain ⟨writer_, notified, rfl⟩ := Option.map_eq_some_iff.mp unlocked
      exact ⟨rfl, rfl, Or.inl ⟨busy, zero, rfl, notified⟩⟩
    · rename_i some
      split at unlocked <;> cases unlocked
      exact ⟨rfl, rfl, Or.inr (Or.inl ⟨busy, some, rfl, rfl⟩)⟩
  · rename_i free
    have free : l.writing_ = false := by simpa using free
    split at unlocked
    · rename_i cap
      obtain ⟨reader_, notified, rfl⟩ := Option.map_eq_some_iff.mp unlocked
      exact ⟨rfl, rfl, Or.inr (Or.inr (Or.inl ⟨free, cap, rfl, notified⟩))⟩
    · rename_i below
      split at unlocked <;> cases unlocked
      exact ⟨rfl, rfl, Or.inr (Or.inr (Or.inr ⟨free, below, rfl, rfl⟩))⟩

end Codesnip.Common.RWLock
