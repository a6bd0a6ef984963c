/-
# Common.RWLockWakeup -- which sleepers of the lock are woken

`Waiting` says who sleeps where: writers before the gate and readers on `reader_`, the
announced writer on `writer_`; and that no writer's wake-up is lost.  From the moment a
writer sets the flag until its `WULock` no reader gets in (`writer_wakeups`).

Readers kept out by the reader cap are woken one at a time, by an `RUnlock` that leaves
the count at `max_reader - 1`.  If two of them sleep there, the second is left asleep
below the cap, and no later `RUnlock` wakes it unless the count rises to the cap again.
That is the only step that loses a reader (`no_reader_lost_iff`).
-/
import Codesnip.Common.RWLockRefine

namespace Codesnip.Common.RWLock

open Codesnip.Theory
open Codesnip.Theory.ReadersWriter (Lock Op Phase)
open Codesnip.Theory.Transition (System)

set_option autoImplicit false
set_option linter.dupNamespace false
set_option linter.unusedSectionVars false

namespace State

variable {T : Type} [DecidableEq T]

/-! ## Who sleeps where -/

structure Waiting (s : State T) : Prop where
  readerSide : ∀ t, t ∈ s.lock.reader_ → s.pc t = .gate ∨ s.pc t = .read
  writerSide : ∀ t, t ∈ s.lock.writer_ → s.pc t = .drain
  gates : ∀ t, t ∈ s.lock.reader_ → s.pc t = .gate → s.lock.writing_ = true
  drains : ∀ t, t ∈ s.lock.writer_ → s.lock.reader_count_ ≠ 0

theorem start_waiting : (start T).Waiting := by
  constructor <;> intro t member <;> exact absurd member (CondVar.not_mem_empty t)

/-- A section `t` runs: only `t` can fall asleep, in the loop it is in. -/
theorem Waiting.run {s : State T} (wait : s.Waiting) {t : T} {p : Pc} {lock : RWLock T}
    {readers writers : List T}
    (readerSide : ∀ u, u ∈ lock.reader_ → u = t ∧ (p = .gate ∨ p = .read) ∨
      u ≠ t ∧ u ∈ s.lock.reader_)
    (writerSide : ∀ u, u ∈ lock.writer_ → u = t ∧ p = .drain ∨ u ≠ t ∧ u ∈ s.lock.writer_)
    (flag : s.lock.writing_ = true ∨ p = .gate → lock.writing_ = true)
    (drains : ∀ u, u ∈ lock.writer_ → lock.reader_count_ ≠ 0) :
    (State.mk lock (Function.update s.pc t p) readers writers).Waiting := by
  refine ⟨fun u member => ?_, fun u member => ?_, fun u member pc => ?_, drains⟩
  · rcases readerSide u member with ⟨rfl, sleeps⟩ | ⟨other, member⟩
    · simpa using sleeps
    · simpa [Function.update_of_ne other] using wait.readerSide u member
  · rcases writerSide u member with ⟨rfl, sleeps⟩ | ⟨other, member⟩
    · simpa using sleeps
    · simpa [Function.update_of_ne other] using wait.writerSide u member
  · rcases readerSide u member with ⟨rfl, -⟩ | ⟨other, member⟩
    · exact flag (Or.inr (by simpa using pc))
    · refine flag (Or.inl (wait.gates u member ?_))
      simpa [Function.update_of_ne other] using pc

theorem Waiting.ne_of_reader {s : State T} (wait : s.Waiting) {t u : T}
    (elsewhere : s.pc t = .outside ∨ s.pc t = .drain) (member : u ∈ s.lock.reader_) : u ≠ t := by
  rintro rfl
  rcases wait.readerSide u member with pc | pc <;> rw [pc] at elsewhere <;> simp at elsewhere

theorem Waiting.ne_of_writer {s : State T} (wait : s.Waiting) {t u : T}
    (elsewhere : s.pc t ≠ .drain) (member : u ∈ s.lock.writer_) : u ≠ t := by
  rintro rfl
  exact elsewhere (wait.writerSide u member)

/-- A thread that runs a section is not asleep on `reader_`. -/
theorem Waiting.gates_awake {s : State T} (wait : s.Waiting) {t u : T} {a : Action T}
    (gates : s.Gates t a) (member : u ∈ s.lock.reader_) : u ≠ t := by
  rcases gates with ⟨-, pc⟩ | ⟨-, -, awake⟩
  · exact wait.ne_of_reader (Or.inl pc) member
  · exact fun same => awake (same ▸ member)

theorem Waiting.reads_awake {s : State T} (wait : s.Waiting) {t u : T} {a : Action T}
    (reads : s.Reads t a) (member : u ∈ s.lock.reader_) : u ≠ t := by
  rcases reads with ⟨-, pc⟩ | ⟨-, -, awake⟩
  · exact wait.ne_of_reader (Or.inl pc) member
  · exact fun same => awake (same ▸ member)

/-- Nobody sleeps on `writer_` but the announced writer. -/
theorem Waiting.announced {s : State T} (wait : s.Waiting) {l : Lock T} (rep : s.Represents l)
    {u : T} (member : u ∈ s.lock.writer_) : l.phase = .draining u :=
  (rep.drain u).mp (wait.writerSide u member)

theorem Waiting.no_writer {s : State T} (wait : s.Waiting) {l : Lock T} (rep : s.Represents l)
    (free : s.lock.writing_ = false) (u : T) : ¬ u ∈ s.lock.writer_ := by
  intro member
  have busy := rep.flag.mpr (by simp [wait.announced rep member])
  rw [free] at busy
  cases busy

theorem Waiting.step {s s' : State T} (wait : s.Waiting) {l : Lock T} (rep : s.Represents l)
    {a : Action T} (step : s.step a = some s') : s'.Waiting := by
  cases stepped_of_step step with
  | gateWait gates busy =>
      refine wait.run (fun u m => ?_) (fun u m => Or.inr ⟨?_, m⟩) (fun _ => busy) wait.drains
      · rcases CondVar.mem_wait.mp m with rfl | m
        · exact Or.inl ⟨rfl, Or.inl rfl⟩
        · exact Or.inr ⟨wait.gates_awake gates m, m⟩
      · exact wait.ne_of_writer gates.not_drain m
  | gateDrain gates free some =>
      refine wait.run (fun u m => Or.inr ⟨wait.gates_awake gates m, m⟩) (fun u m => ?_)
        (fun _ => rfl) (fun _ _ => some)
      rcases CondVar.mem_wait.mp m with rfl | m
      · exact Or.inl ⟨rfl, rfl⟩
      · exact Or.inr ⟨wait.ne_of_writer gates.not_drain m, m⟩
  | gateEnter gates free none =>
      exact wait.run (fun u m => Or.inr ⟨wait.gates_awake gates m, m⟩)
        (fun u m => Or.inr ⟨wait.ne_of_writer gates.not_drain m, m⟩) (fun _ => rfl) wait.drains
  | drainWait resume pc awake some =>
      refine wait.run (fun u m => Or.inr ⟨wait.ne_of_reader (Or.inr pc) m, m⟩) (fun u m => ?_)
        (fun busy => busy.resolve_right (by simp)) (fun _ _ => some)
      rcases CondVar.mem_wait.mp m with rfl | m
      · exact Or.inl ⟨rfl, rfl⟩
      · exact Or.inr ⟨fun same => awake (same ▸ m), m⟩
  | drainEnter resume pc awake none =>
      exact wait.run (fun u m => Or.inr ⟨wait.ne_of_reader (Or.inr pc) m, m⟩)
        (fun u m => Or.inr ⟨fun same => awake (same ▸ m), m⟩)
        (fun busy => busy.resolve_right (by simp)) wait.drains
  | readWait reads closed =>
      refine wait.run (fun u m => ?_) (fun u m => Or.inr ⟨wait.ne_of_writer reads.not_drain m, m⟩)
        (fun busy => busy.resolve_right (by simp)) wait.drains
      rcases CondVar.mem_wait.mp m with rfl | m
      · exact Or.inl ⟨rfl, Or.inr rfl⟩
      · exact Or.inr ⟨wait.reads_awake reads m, m⟩
  | readEnter reads free below =>
      exact wait.run (fun u m => Or.inr ⟨wait.reads_awake reads m, m⟩)
        (fun u m => Or.inr ⟨wait.ne_of_writer reads.not_drain m, m⟩)
        (fun busy => busy.resolve_right (by simp))
        (fun u m => absurd m (wait.no_writer rep free u))
  | unwrite call pc holds =>
      -- the holder is past its second loop, so nobody is in it
      have nobody : ∀ u, ¬ u ∈ s.lock.writer_ := by
        intro u member
        have announced := wait.announced rep member
        rw [rep.writing holds] at announced
        cases announced
      have empty : ∀ u, ¬ u ∈ s.lock.WULock.reader_ := CondVar.not_mem_notifyAll s.lock.reader_
      exact ⟨fun u m => absurd m (empty u), fun u m => absurd m (nobody u),
        fun u m => absurd m (empty u), fun u m => absurd m (nobody u)⟩
  | @unread t woken lock call pc holds unlocked =>
      obtain ⟨flag, count, branch⟩ := RWLock.runlock_cases unlocked
      have unique : ∀ u v, u ∈ s.lock.writer_ → v ∈ s.lock.writer_ → u = v := by
        intro u v first second
        have same := (wait.announced rep first).symm.trans (wait.announced rep second)
        exact Phase.draining.inj same
      have readers : ∀ u, u ∈ lock.reader_ → u ∈ s.lock.reader_ := by
        intro u member
        rcases branch with ⟨-, -, same, -⟩ | ⟨-, -, same, -⟩ | ⟨-, -, -, notified⟩ | ⟨-, -, same, -⟩
        · exact same ▸ member
        · exact same ▸ member
        · exact CondVar.notifyOne_subset notified member
        · exact same ▸ member
      have writers : ∀ u, u ∈ lock.writer_ → u ∈ s.lock.writer_ ∧ lock.reader_count_ ≠ 0 := by
        intro u member
        rcases branch with ⟨-, -, -, notified⟩ | ⟨-, some, -, same⟩ | ⟨free, -, same, -⟩ |
          ⟨free, -, -, same⟩
        · exact absurd member (CondVar.notifyOne_of_unique notified unique u)
        · exact ⟨same ▸ member, by rw [count]; exact some⟩
        · exact absurd (same ▸ member) (wait.no_writer rep free u)
        · exact absurd (same ▸ member) (wait.no_writer rep free u)
      exact ⟨fun u m => wait.readerSide u (readers u m),
        fun u m => wait.writerSide u (writers u m).1,
        fun u m pc => flag.trans (wait.gates u (readers u m) pc), fun u m => (writers u m).2⟩
  | wakeReader spurious asleep =>
      exact ⟨fun u m => wait.readerSide u (CondVar.wake_subset m), wait.writerSide,
        fun u m => wait.gates u (CondVar.wake_subset m), wait.drains⟩
  | wakeWriter spurious asleep =>
      exact ⟨wait.readerSide, fun u m => wait.writerSide u (CondVar.wake_subset m), wait.gates,
        fun u m => wait.drains u (CondVar.wake_subset m)⟩

/-- What every reachable state keeps. -/
def Kept (s : State T) : Prop := (∃ l, s.Represents l) ∧ s.Waiting

theorem Kept.step {s s' : State T} (kept : s.Kept) {a : Action T} (step : s.step a = some s') :
    s'.Kept := by
  obtain ⟨⟨l, rep⟩, wait⟩ := kept
  obtain ⟨_, l', -, rep', -⟩ := step_refines rep step
  exact ⟨⟨l', rep'⟩, wait.step rep step⟩

theorem start_kept : (start T).Kept := ⟨⟨.empty, start_represents⟩, start_waiting⟩

theorem reachable_kept {s : State T} (reach : (system T).Reachable s) : s.Kept :=
  reach.induct (fun _ init => init ▸ start_kept) fun _ _ _ kept step => kept.step step

/-! ## Writers -/

/-- An `RLock` call returns in this step. -/
def Returns (s : State T) (a : Action T) (s' : State T) : Prop :=
  ∃ t, s.Reads t a ∧ s'.pc t = .outside

theorem reads_step {s : State T} {t : T} {a : Action T} (reads : s.Reads t a) :
    s.step a = some (s.read t (s.lock.RLock t)) := by
  rcases reads with ⟨rfl, pc⟩ | ⟨rfl, pc, awake⟩ <;> simp [State.step, pc]
  exact awake

theorem Returns.free {s s' : State T} {a : Action T} (returns : s.Returns a s')
    (step : s.step a = some s') : s.lock.writing_ = false ∧ s'.lock.writing_ = false := by
  obtain ⟨t, reads, pc⟩ := returns
  obtain rfl := Option.some.inj ((reads_step reads).symm.trans step)
  cases busy : s.lock.writing_ <;> simp [State.read, RWLock.RLock, busy] at pc ⊢
  split <;> simp

end State

/-- The thread that moves. -/
def Action.thread {T : Type} : Action T → T
  | .WLock t | .WULock t | .RLock t | .RUnlock t _ | .resume t | .spurious t => t

namespace State

variable {T : Type} [DecidableEq T]

theorem Gates.thread {s : State T} {t : T} {a : Action T} (gates : s.Gates t a) :
    a.thread = t := by
  rcases gates with ⟨rfl, -⟩ | ⟨rfl, -⟩ <;> rfl

/-- The flag is set by the writer that owns the lock from then on. -/
theorem owns_of_set {s s' : State T} {a : Action T} (step : s.step a = some s')
    (free : s.lock.writing_ = false) (set : s'.lock.writing_ = true) :
    s'.Owns a.thread ∧ s'.lock.reader_count_ = s.lock.reader_count_ := by
  cases stepped_of_step step with
  | gateDrain gates _ _ => exact ⟨Or.inr (by simp [gates.thread]), rfl⟩
  | gateEnter gates _ _ => exact ⟨Or.inl (by simp [gates.thread]), rfl⟩
  | unread _ _ _ unlocked =>
      rw [(RWLock.runlock_cases unlocked).1, free] at set
      cases set
  | unwrite _ _ _ => cases set
  | gateWait | drainWait | drainEnter | readWait | readEnter | wakeReader | wakeWriter =>
      exact absurd (show s.lock.writing_ = true from set) (by simp [free])

/-- While `t` owns the lock, a step other than its `WULock` leaves it the owner, returns
no `RLock` and does not raise the count. -/
theorem owned_step {s s' : State T} {l : Lock T} (rep : s.Represents l) {t : T}
    (owns : s.Owns t) {a : Action T} (stays : a ≠ .WULock t) (step : s.step a = some s') :
    (∃ l', s'.Represents l') ∧ s'.Owns t ∧ ¬ s.Returns a s' ∧
      s'.lock.reader_count_ ≤ s.lock.reader_count_ := by
  obtain ⟨ops, l', run, rep', leaves⟩ := step_refines rep step
  obtain ⟨owner, -, fewer⟩ := Lock.gated_run ((rep.owns_iff t).mp owns) run
    fun leave => stays (leaves t leave)
  refine ⟨⟨l', rep'⟩, (rep'.owns_iff t).mpr owner, fun returns => ?_, ?_⟩
  · have busy := rep.writing_iff.mpr ⟨t, owns⟩
    rw [(returns.free step).1] at busy
    cases busy
  · rw [UInt32.le_iff_toNat_le, rep.count, rep'.count]
    exact fewer

/-- **No writer's wake-up is lost, and no reader overtakes a writer.**  In every
reachable state a writer asleep before the gate finds the flag set, one asleep on
`writer_` finds it set and readers in; and from the step in which a writer sets the
flag until its `WULock`, no `RLock` returns and the count never rises. -/
theorem writer_wakeups {s : State T} (reach : (system T).Reachable s) :
    (∀ t, t ∈ s.lock.reader_ → s.pc t = .gate → s.lock.writing_ = true) ∧
      (∀ t, t ∈ s.lock.writer_ → s.lock.writing_ = true ∧ 0 < s.lock.reader_count_) ∧
      ∀ a s₁, s.step a = some s₁ → s.lock.writing_ = false → s₁.lock.writing_ = true →
        ∀ as, .WULock a.thread ∉ as →
          (system T).Steps (fun r b => ∀ r', r.step b = some r' →
            ¬ r.Returns b r' ∧ r'.lock.reader_count_ ≤ r.lock.reader_count_) s (a :: as) := by
  obtain ⟨⟨l, rep⟩, wait⟩ := reachable_kept reach
  refine ⟨wait.gates, fun t asleep => ?_, fun a s₁ step free set as stays => ?_⟩
  · refine ⟨rep.flag.mpr (by simp [wait.announced rep asleep]), ?_⟩
    exact UInt32.pos_iff_ne_zero.mpr (wait.drains t asleep)
  · obtain ⟨owns, count⟩ := owns_of_set step free set
    constructor
    · intro r' step'
      obtain rfl := Option.some.inj (step.symm.trans step')
      refine ⟨fun returns => ?_, by rw [count]; exact UInt32.le_refl _⟩
      rw [(returns.free step).2] at set
      cases set
    · intro s₂ step₂
      obtain rfl := Option.some.inj (step.symm.trans step₂)
      refine System.Steps.of_invariant (fun r => (∃ l, r.Represents l) ∧ r.Owns a.thread)
        (fun b => b ≠ .WULock a.thread) ?_ ?_ ⟨(Kept.step ⟨⟨l, rep⟩, wait⟩ step).1, owns⟩ as
        (fun b member same => stays (same ▸ member))
      · rintro r b r' ⟨⟨k, repr⟩, own⟩ other stepr
        obtain ⟨repr', own', -⟩ := owned_step repr own other stepr
        exact ⟨repr', own'⟩
      · rintro r b ⟨⟨k, repr⟩, own⟩ other r' stepr
        exact (owned_step repr own other stepr).2.2

/-- A writer past the gate, asleep until the reader leaves. -/
theorem writer_wakeups_asleep :
    ∃ s, (system Bool).run (start Bool) [.RLock true, .WLock false] = some s ∧
      false ∈ s.lock.writer_ ∧ s.lock.writing_ = true ∧ 0 < s.lock.reader_count_ := by
  obtain ⟨s, run, asleep⟩ : ∃ s, (system Bool).run (start Bool) [.RLock true, .WLock false] =
      some s ∧ false ∈ s.lock.writer_ := ⟨_, rfl, by decide⟩
  have init : (system Bool).Init (start Bool) := rfl
  exact ⟨s, run, asleep, (writer_wakeups (System.Reachable.of_run init run)).2.1 false asleep⟩

/-! ## Readers -/

/-- A reader asleep un-notified has a reason to sleep. -/
def NoReaderLost (s : State T) : Prop :=
  ∀ t, t ∈ s.lock.reader_ → s.pc t = .read →
    s.lock.writing_ = true ∨ max_reader ≤ s.lock.reader_count_

/-- A read hold is given up at the cap while two threads sleep on `reader_`, of which
`notify_one` wakes one. -/
def WakesOneOfTwo (s : State T) (a : Action T) : Prop :=
  ∃ t woken, a = .RUnlock t woken ∧ s.lock.writing_ = false ∧
    s.lock.reader_count_ = max_reader ∧ ∃ u v, u ≠ v ∧ u ∈ s.lock.reader_ ∧ v ∈ s.lock.reader_

/-- With the flag clear only readers sleep on `reader_`. -/
theorem Waiting.reading {s : State T} (wait : s.Waiting) (free : s.lock.writing_ = false) {u : T}
    (member : u ∈ s.lock.reader_) : s.pc u = .read := by
  refine (wait.readerSide u member).resolve_left fun pc => ?_
  have busy := wait.gates u member pc
  rw [free] at busy
  cases busy

theorem sub_one_eq_cap {c : UInt32} (some : 0 < c.toNat) (cap : c - 1 = max_reader - 1) :
    c = max_reader := by
  have same := congrArg UInt32.toNat cap
  rw [toNat_sub_one some, toNat_sub_one (by decide)] at same
  have bound : 0 < max_reader.toNat := by decide
  exact UInt32.toNat_inj.mp (by omega)

/-- `RUnlock` keeps the readers' reasons, unless it wakes one of two at the cap. -/
theorem NoReaderLost.unlock_iff {s : State T} (kept : s.Kept) (fine : s.NoReaderLost) {t : T}
    {woken : Option T} {lock : RWLock T} (holds : t ∈ s.readers)
    (unlocked : s.lock.RUnlock woken = some lock) :
    ({ s with lock, readers := s.readers.erase t } : State T).NoReaderLost ↔
      ¬ s.WakesOneOfTwo (.RUnlock t woken) := by
  obtain ⟨⟨l, rep⟩, wait⟩ := kept
  obtain ⟨flag, count, branch⟩ := RWLock.runlock_cases unlocked
  have some : 0 < s.lock.reader_count_.toNat := by
    rw [rep.count, ← rep.readers]
    exact List.length_pos_of_mem holds
  have busyOnly : s.lock.writing_ = true → ¬ s.WakesOneOfTwo (.RUnlock t woken) := by
    rintro busy ⟨_, _, -, free, -⟩
    rw [busy] at free
    cases free
  rcases branch with ⟨busy, -, -, -⟩ | ⟨busy, -, -, -⟩ | ⟨free, cap, -, notified⟩ |
    ⟨free, below, same, -⟩
  · exact iff_of_true (fun _ _ _ => Or.inl (flag.trans busy)) (busyOnly busy)
  · exact iff_of_true (fun _ _ _ => Or.inl (flag.trans busy)) (busyOnly busy)
  · have full := sub_one_eq_cap some cap
    have down : ¬ max_reader ≤ lock.reader_count_ := by
      rw [count, full]
      decide
    constructor
    · rintro kept ⟨_, _, -, -, -, u, v, distinct, first, second⟩
      obtain ⟨w, asleep⟩ := CondVar.notifyOne_leaves notified distinct first second
      have pc := wait.reading free (CondVar.notifyOne_subset notified asleep)
      rcases kept w asleep pc with busy | up
      · rw [show lock.writing_ = _ from flag, free] at busy
        cases busy
      · exact down up
    · intro two u asleep _
      have alone : ∀ v w, v ∈ s.lock.reader_ → w ∈ s.lock.reader_ → v = w := by
        intro v w first second
        refine Classical.byContradiction fun distinct => two ?_
        exact ⟨t, woken, rfl, free, full, v, w, distinct, first, second⟩
      exact absurd asleep (CondVar.notifyOne_of_unique notified alone u)
  · -- below the cap nobody was asleep
    have notFull : s.lock.reader_count_ ≠ max_reader := fun full => below (by rw [full])
    refine iff_of_true (fun u asleep pc => ?_) fun ⟨_, _, _, _, full, _⟩ => notFull full
    rcases fine u (same ▸ asleep) pc with busy | up
    · exact Or.inl (flag.trans busy)
    · refine absurd (UInt32.le_antisymm ?_ up) notFull
      rw [UInt32.le_iff_toNat_le, max_reader_toNat]
      exact Nat.le_of_lt_succ s.lock.reader_count_.toNat_lt

theorem NoReaderLost.step_iff {s s' : State T} (kept : s.Kept) (fine : s.NoReaderLost)
    {a : Action T} (step : s.step a = some s') :
    s'.NoReaderLost ↔ ¬ s.WakesOneOfTwo a := by
  obtain ⟨⟨l, rep⟩, wait⟩ := kept
  have drainBusy : ∀ t, s.pc t = .drain → s.lock.writing_ = true := fun t pc =>
    rep.writing_iff.mpr ⟨t, Or.inr pc⟩
  cases stepped_of_step step with
  | @unread t woken lock call pc holds unlocked =>
      rw [call]
      exact fine.unlock_iff ⟨⟨l, rep⟩, wait⟩ holds unlocked
  | gateWait gates busy =>
      refine iff_of_true (fun _ _ _ => Or.inl busy) ?_
      rintro ⟨_, _, rfl, -⟩
      rcases gates with ⟨h, -⟩ | ⟨h, -⟩ <;> cases h
  | gateDrain gates _ _ | gateEnter gates _ _ =>
      refine iff_of_true (fun _ _ _ => Or.inl rfl) ?_
      rintro ⟨_, _, rfl, -⟩
      rcases gates with ⟨h, -⟩ | ⟨h, -⟩ <;> cases h
  | drainWait resume pc _ _ | drainEnter resume pc _ _ =>
      refine iff_of_true (fun _ _ _ => Or.inl (drainBusy _ pc)) ?_
      rintro ⟨_, _, rfl, -⟩
      cases resume
  | @readWait t reads closed =>
      refine iff_of_true (fun u member pc => ?_) ?_
      · exact closed
      · rintro ⟨_, _, rfl, -⟩
        rcases reads with ⟨h, -⟩ | ⟨h, -⟩ <;> cases h
  | @readEnter t reads free below =>
      -- with the flag clear and the count below the cap, nobody was asleep
      refine iff_of_true (fun u member _ => ?_) ?_
      · rcases fine u member (wait.reading free member) with busy | up
        · rw [free] at busy
          cases busy
        · exact absurd below (UInt32.not_lt.mpr up)
      · rintro ⟨_, _, rfl, -⟩
        rcases reads with ⟨h, -⟩ | ⟨h, -⟩ <;> cases h
  | unwrite call _ _ =>
      refine iff_of_true (fun u member => ?_) ?_
      · exact absurd member (CondVar.not_mem_notifyAll s.lock.reader_ u)
      · rintro ⟨_, _, rfl, -⟩
        cases call
  | wakeReader spurious _ =>
      refine iff_of_true (fun u member => fine u (CondVar.wake_subset member)) ?_
      rintro ⟨_, _, rfl, -⟩
      cases spurious
  | wakeWriter spurious _ =>
      refine iff_of_true fine ?_
      rintro ⟨_, _, rfl, -⟩
      cases spurious

/-- **A reader is lost by that step and no other**: a run keeps every sleeping reader's
reason in all its states if and only if it never gives up a hold at the cap with two
threads asleep on `reader_` and no writer. -/
theorem no_reader_lost_iff {s : State T} {as : List (Action T)}
    (run : (system T).run (start T) as = some s) :
    (system T).Always NoReaderLost (start T) as ↔
      (system T).Steps (fun r a => ¬ r.WakesOneOfTwo a) (start T) as := by
  refine System.always_iff_steps Kept (fun _ _ _ kept step => kept.step step)
    (fun _ _ _ kept (fine : NoReaderLost _) step => fine.step_iff kept step) start_kept ?_ run
  exact fun t member => absurd member (CondVar.not_mem_empty t)

/-- A run with no `RUnlock` loses nobody. -/
theorem no_reader_lost_turn :
    (system Bool).Always NoReaderLost (start Bool)
      [.WLock true, .RLock false, .WULock true, .resume false] := by
  obtain ⟨s, run⟩ : ∃ s, (system Bool).run (start Bool)
      [.WLock true, .RLock false, .WULock true, .resume false] = some s := ⟨_, rfl⟩
  refine (no_reader_lost_iff run).mpr (System.Steps.of_invariant (fun _ => True)
    (fun a => ∀ t woken, a ≠ .RUnlock t woken) (fun _ _ _ _ _ _ => trivial) ?_ trivial _
    (fun a member => ?_))
  · rintro r a - other ⟨t, woken, rfl, -⟩
    exact other t woken rfl
  · intro t woken same
    subst same
    simp at member

/-! ## Two readers at the cap -/

theorem step_RLock {s : State T} {t : T} (pc : s.pc t = .outside)
    (free : s.lock.writing_ = false) (below : s.lock.reader_count_ < max_reader) :
    s.step (.RLock t) = some
      { s with
        lock := { s.lock with reader_count_ := s.lock.reader_count_ + 1 }
        readers := t :: s.readers } := by
  have opened : ¬ max_reader ≤ s.lock.reader_count_ := UInt32.not_le.mpr below
  have same : Function.update s.pc t .outside = s.pc := by rw [← pc, Function.update_eq_self]
  simp [State.step, pc, State.read, RWLock.RLock, free, opened, same]

theorem step_RUnlock {s : State T} {t : T} {rest : List T} (pc : s.pc t = .outside)
    (free : s.lock.writing_ = false) (holds : s.readers = t :: rest)
    (some : 0 < s.lock.reader_count_.toNat) (below : s.lock.reader_count_ ≠ max_reader) :
    s.step (.RUnlock t none) = .some
      { s with
        lock := { s.lock with reader_count_ := s.lock.reader_count_ - 1 }
        readers := rest } := by
  have under : s.lock.reader_count_ - 1 ≠ max_reader - 1 :=
    fun cap => below (sub_one_eq_cap some cap)
  simp [State.step, pc, holds, RWLock.RUnlock, free, under]

/-- One thread takes the read lock `k` times. -/
theorem run_RLocks (k : Nat) {s : State T} {t : T} (pc : s.pc t = .outside)
    (free : s.lock.writing_ = false) (room : s.lock.reader_count_.toNat + k ≤ max_reader.toNat) :
    ∃ count : UInt32, count.toNat = s.lock.reader_count_.toNat + k ∧
      (system T).run s (List.replicate k (.RLock t)) = some
        { s with
          lock := { s.lock with reader_count_ := count }
          readers := List.replicate k t ++ s.readers } := by
  induction k generalizing s with
  | zero => exact ⟨s.lock.reader_count_, rfl, rfl⟩
  | succ k ih =>
      have below : s.lock.reader_count_ < max_reader := UInt32.lt_iff_toNat_lt.mpr (by omega)
      have up := toNat_add_one below
      obtain ⟨count, total, run⟩ := ih (s := { s with
        lock := { s.lock with reader_count_ := s.lock.reader_count_ + 1 }
        readers := t :: s.readers }) pc free (by show (_ + 1 : UInt32).toNat + k ≤ _; omega)
      refine ⟨count, ?_, ?_⟩
      · rw [total]
        show (_ + 1 : UInt32).toNat + k = _
        omega
      · have step : (system T).step s (.RLock t) = _ := step_RLock pc free below
        rw [List.replicate_succ, System.run_cons, step]
        refine run.trans ?_
        simp [List.replicate_succ']

/-- And gives it up `k` times, from below the cap. -/
theorem run_RUnlocks (k : Nat) {s : State T} {t : T} {rest : List T} (pc : s.pc t = .outside)
    (free : s.lock.writing_ = false) (holds : s.readers = List.replicate k t ++ rest)
    (enough : k ≤ s.lock.reader_count_.toNat) (below : s.lock.reader_count_ ≠ max_reader) :
    ∃ count : UInt32, count.toNat = s.lock.reader_count_.toNat - k ∧
      (system T).run s (List.replicate k (.RUnlock t none)) = some
        { s with lock := { s.lock with reader_count_ := count }, readers := rest } := by
  induction k generalizing s with
  | zero =>
      refine ⟨s.lock.reader_count_, rfl, ?_⟩
      rw [show rest = s.readers from holds.symm]
      rfl
  | succ k ih =>
      have some : 0 < s.lock.reader_count_.toNat := Nat.lt_of_lt_of_le (Nat.succ_pos k) enough
      have down := toNat_sub_one some
      have under : s.lock.reader_count_ - 1 ≠ max_reader := by
        intro cap
        have bound := s.lock.reader_count_.toNat_lt
        rw [cap, max_reader_toNat] at down
        omega
      obtain ⟨count, total, run⟩ := ih (s := { s with
        lock := { s.lock with reader_count_ := s.lock.reader_count_ - 1 }
        readers := List.replicate k t ++ rest }) pc free rfl
        (by show k ≤ (_ - 1 : UInt32).toNat; omega) under
      refine ⟨count, ?_, ?_⟩
      · rw [total]
        show (_ - 1 : UInt32).toNat - k = _
        omega
      · have step : (system T).step s (.RUnlock t none) = _ :=
          step_RUnlock pc free (by rw [holds]; rfl) some below
        rw [List.replicate_succ, System.run_cons, step]
        exact run

/-- At the cap two more readers fall asleep, and one unlock wakes one of them. -/
theorem run_two_readers {s : State T} {t u v : T} {rest : List T} (outside : ∀ w, s.pc w = .outside)
    (free : s.lock.writing_ = false) (full : s.lock.reader_count_ = max_reader)
    (holds : s.readers = t :: rest) (first : u ≠ t) (second : v ≠ t) (distinct : v ≠ u) :
    (system T).run s [.RLock u, .RLock v, .RUnlock t (some u)] = some
      { s with
        lock := { s.lock with
          reader_ := ((s.lock.reader_.wait u).wait v).wake u
          reader_count_ := max_reader - 1 }
        pc := Function.update (Function.update s.pc u .read) v .read
        readers := rest } := by
  have waiting : u ∈ (s.lock.reader_.wait u).wait v := by simp
  simp [System.run, system, State.step, State.read, RWLock.RLock, RWLock.RUnlock, outside, free,
    full, holds, Function.update_of_ne distinct, Function.update_of_ne (Ne.symm first),
    Function.update_of_ne (Ne.symm second), CondVar.notifyOne, waiting]

/-- **A reader asleep on a free lock**, for any three threads and the reader cap. -/
theorem reader_stranded {t u v : T} (first : u ≠ t) (second : v ≠ t) (distinct : v ≠ u) {k : Nat}
    (cap : k + 1 = max_reader.toNat) :
    ∃ s, (system T).run (start T) (List.replicate (k + 1) (.RLock t) ++
        ([.RLock u, .RLock v, .RUnlock t (some u)] ++
          List.replicate k (.RUnlock t none))) = some s ∧
      s.lock.writing_ = false ∧ s.lock.reader_count_ = 0 ∧ v ∈ s.lock.reader_ ∧ s.pc v = .read := by
  obtain ⟨count, total, locks⟩ := run_RLocks (k + 1) (s := start T) (t := t) rfl rfl
    (by rw [cap]; exact Nat.le_of_eq (Nat.zero_add _))
  have full : count = max_reader := UInt32.toNat_inj.mp (by rw [total, cap]; exact Nat.zero_add _)
  subst full
  have holds : List.replicate (k + 1) t ++ [] = t :: List.replicate k t := by
    simp [List.replicate_succ]
  have two := run_two_readers (s := { start T with
    lock := { RWLock.new with reader_count_ := max_reader }
    readers := List.replicate (k + 1) t ++ [] }) (fun _ => rfl) rfl rfl holds first second distinct
  have left : (max_reader - 1).toNat = k := by
    rw [toNat_sub_one (by decide), ← cap]
    rfl
  obtain ⟨zero, none, unlocks⟩ := run_RUnlocks k (t := t) (s := { start T with
    lock := { (RWLock.new : RWLock T) with
      reader_ := ((CondVar.empty.wait u).wait v).wake u
      reader_count_ := max_reader - 1 }
    pc := Function.update (Function.update (fun _ => .outside) u .read) v .read
    readers := List.replicate k t })
    (by simp [Function.update_of_ne (Ne.symm first), Function.update_of_ne (Ne.symm second)]) rfl
    (show List.replicate k t = List.replicate k t ++ [] from (List.append_nil _).symm)
    (Nat.le_of_eq left.symm) (show max_reader - 1 ≠ max_reader by decide)
  refine ⟨_, System.run_append_some locks (System.run_append_some two unlocks), rfl, ?_, ?_, ?_⟩
  · refine UInt32.toNat_inj.mp (none.trans ?_)
    rw [left, Nat.sub_self]
    rfl
  · exact CondVar.mem_wake.mpr ⟨distinct, CondVar.mem_wait.mpr (Or.inl rfl)⟩
  · exact Function.update_self v _ _

/-- Thread 0 takes `max_reader` read holds, threads 1 and 2 ask for one, and thread 0
gives all of its own up: thread 2 sleeps on. -/
theorem reader_lost_counterexample :
    ∃ s, (system Nat).run (start Nat) (List.replicate (4294967294 + 1) (.RLock 0) ++
        ([.RLock 1, .RLock 2, .RUnlock 0 (some 1)] ++
          List.replicate 4294967294 (.RUnlock 0 none))) = some s ∧
      (system Nat).Reachable s ∧ s.lock.writing_ = false ∧ s.lock.reader_count_ = 0 ∧
      2 ∈ s.lock.reader_ ∧ s.pc 2 = .read ∧ ¬ s.NoReaderLost := by
  obtain ⟨s, run, free, zero, asleep, pc⟩ :=
    reader_stranded (t := 0) (u := 1) (v := 2) (by decide) (by decide) (by decide)
      (show 4294967294 + 1 = max_reader.toNat from rfl)
  have init : (system Nat).Init (start Nat) := rfl
  refine ⟨s, run, System.Reachable.of_run init run, free, zero, asleep, pc, fun fine => ?_⟩
  rcases fine 2 asleep pc with busy | up
  · rw [free] at busy
    cases busy
  · rw [zero] at up
    exact absurd up (by decide)

end State

end Codesnip.Common.RWLock
