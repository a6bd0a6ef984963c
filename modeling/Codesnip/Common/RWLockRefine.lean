/-
# Common.RWLockRefine -- the lock is a readers-writer lock

`Represents` ties the flag, the 32-bit counter and the place of every thread to the
lock of `Theory.ReadersWriter`: the flag says that some writer owns it, the counter is
the number of read holds, and the writer in the second loop of `WLock` is the one that
has announced itself.  Each section of the code is no, one or two operations on it
(`step_refines`), so what holds of every run there holds here.
-/
import Codesnip.Common.RWLock

namespace Codesnip.Common.RWLock

open Codesnip.Theory
open Codesnip.Theory.ReadersWriter (Lock Op Phase)
open Codesnip.Theory.Transition (System)

set_option autoImplicit false
set_option linter.dupNamespace false
set_option linter.unusedSectionVars false

theorem max_reader_toNat : max_reader.toNat = 2 ^ 32 - 1 := rfl

theorem toNat_add_one {c : UInt32} (below : c < max_reader) : (c + 1).toNat = c.toNat + 1 := by
  have bound := UInt32.lt_iff_toNat_lt.mp below
  rw [max_reader_toNat] at bound
  rw [UInt32.toNat_add]
  exact Nat.mod_eq_of_lt (by simpa using by omega)

theorem toNat_sub_one {c : UInt32} (some : 0 < c.toNat) : (c - 1).toNat = c.toNat - 1 := by
  have one : (1 : UInt32) ≤ c := UInt32.le_iff_toNat_le.mpr some
  exact UInt32.toNat_sub_of_le c 1 one

namespace State

variable {T : Type} [DecidableEq T]

/-- The state `s` of the code is the state `l` of the lock it implements. -/
structure Represents (s : State T) (l : Lock T) : Prop where
  flag : s.lock.writing_ = true ↔ l.phase ≠ .free
  count : s.lock.reader_count_.toNat = l.readers.length
  readers : s.readers = l.readers
  writers : s.writers = l.phase.writers
  drain : ∀ u, s.pc u = .drain ↔ l.phase = .draining u
  exclusive : l.Exclusive

theorem start_represents : (start T).Represents .empty := by
  constructor <;> simp [start, RWLock.new, Lock.empty, Phase.writers, Lock.Exclusive]

namespace Represents

variable {s : State T} {l : Lock T}

theorem free (rep : s.Represents l) (idle : s.lock.writing_ = false) : l.phase = .free := by
  apply Classical.byContradiction; intro busy
  rw [rep.flag.mpr busy] at idle
  cases idle

theorem readers_nil (rep : s.Represents l) (zero : s.lock.reader_count_ = 0) : l.readers = [] :=
  List.length_eq_zero_iff.mp (by rw [← rep.count, zero]; rfl)

/-- A thread outside the second loop stays outside it. -/
theorem drain_update (rep : s.Represents l) {t : T} {p : Pc} (before : s.pc t ≠ .drain)
    (after : p ≠ .drain) (u : T) :
    Function.update s.pc t p u = .drain ↔ l.phase = .draining u := by
  by_cases same : u = t
  · subst same
    rw [Function.update_self, ← rep.drain u]
    exact iff_of_false after before
  · rw [Function.update_of_ne same]
    exact rep.drain u

theorem writing (rep : s.Represents l) {t : T} (holds : t ∈ s.writers) :
    l.phase = .writing t := by
  rw [rep.writers] at holds
  cases here : l.phase with
  | writing u =>
      rw [here] at holds
      rw [List.mem_singleton.mp holds]
  | free | draining u =>
      rw [here] at holds
      cases holds

end Represents

theorem Gates.not_drain {s : State T} {t : T} {a : Action T} (gates : s.Gates t a) :
    s.pc t ≠ .drain := by
  rcases gates with ⟨-, pc⟩ | ⟨-, pc, -⟩ <;> rw [pc] <;> decide

theorem Reads.not_drain {s : State T} {t : T} {a : Action T} (reads : s.Reads t a) :
    s.pc t ≠ .drain := by
  rcases reads with ⟨-, pc⟩ | ⟨-, pc, -⟩ <;> rw [pc] <;> decide

/-- **A section of the code is a run of the lock**, in which a writer leaves only by its
`WULock`. -/
theorem step_refines {s s' : State T} {l : Lock T} (rep : s.Represents l) {a : Action T}
    (step : s.step a = some s') :
    ∃ ops l', (ReadersWriter.system T).run l ops = some l' ∧ s'.Represents l' ∧
      ∀ u, .leave u ∈ ops → a = .WULock u := by
  have busy : s.lock.writing_ = true ↔ l.phase ≠ .free := rep.flag
  cases stepped_of_step step with
  | gateWait gates _ =>
      refine ⟨[], l, rfl, ?_, by simp⟩
      exact ⟨busy, rep.count, rep.readers, rep.writers,
        rep.drain_update gates.not_drain (by decide), rep.exclusive⟩
  | @gateDrain t gates idle some =>
      have free := rep.free idle
      refine ⟨[.announce t], { l with phase := .draining t }, ?_, ?_, by simp⟩
      · simp [System.run, ReadersWriter.system, Lock.step, free]
      · refine ⟨by simp, rep.count, rep.readers, by simp [rep.writers, free, Phase.writers], ?_,
          fun _ writing => by simp at writing⟩
        intro u
        by_cases same : u = t
        · simp [same]
        · have out : s.pc u ≠ .drain := fun pc => by simp [(rep.drain u).mp pc] at free
          simp [Function.update_of_ne same, out, Ne.symm same]
  | @gateEnter t gates idle none =>
      have free := rep.free idle
      have nil := rep.readers_nil none
      refine ⟨[.announce t, .enter t], { l with phase := .writing t }, ?_, ?_, by simp⟩
      · simp [System.run, ReadersWriter.system, Lock.step, free, nil]
      · refine ⟨by simp, rep.count, rep.readers, by simp [rep.writers, free, Phase.writers], ?_,
          fun _ _ => nil⟩
        intro u
        rw [rep.drain_update gates.not_drain (by decide) u, free]
        simp
  | drainWait _ pc _ _ =>
      refine ⟨[], l, rfl, ?_, by simp⟩
      rw [← pc, Function.update_eq_self]
      exact ⟨busy, rep.count, rep.readers, rep.writers, rep.drain, rep.exclusive⟩
  | @drainEnter t _ pc _ none =>
      have announced := (rep.drain t).mp pc
      have nil := rep.readers_nil none
      refine ⟨[.enter t], { l with phase := .writing t }, ?_, ?_, by simp⟩
      · simp [System.run, ReadersWriter.system, Lock.step, announced, nil]
      · refine ⟨by simp [busy, announced], rep.count, rep.readers,
          by simp [rep.writers, announced, Phase.writers], ?_, fun _ _ => nil⟩
        intro u
        by_cases same : u = t
        · simp [same]
        · have out : s.pc u ≠ .drain := fun pc => by
            rw [(rep.drain u).mp pc] at announced
            exact same (Phase.draining.inj announced)
          simp [Function.update_of_ne same, out]
  | readWait reads _ =>
      refine ⟨[], l, rfl, ?_, by simp⟩
      exact ⟨busy, rep.count, rep.readers, rep.writers,
        rep.drain_update reads.not_drain (by decide), rep.exclusive⟩
  | @readEnter t reads idle below =>
      have free := rep.free idle
      refine ⟨[.read t], { l with readers := t :: l.readers }, ?_, ?_, by simp⟩
      · simp [System.run, ReadersWriter.system, Lock.step, free]
      · refine ⟨busy, ?_, by simp [rep.readers], rep.writers,
          rep.drain_update reads.not_drain (by decide), fun _ writing => by simp [free] at writing⟩
        exact (toNat_add_one below).trans (by rw [rep.count, List.length_cons])
  | @unwrite t call _ holds =>
      have writing := rep.writing holds
      refine ⟨[.leave t], { l with phase := .free }, ?_, ?_, fun u member => ?_⟩
      · simp [System.run, ReadersWriter.system, Lock.step, writing]
      · refine ⟨by simp [RWLock.WULock], rep.count, rep.readers,
          by simp [rep.writers, writing, Phase.writers], fun u => ?_, fun _ h => by simp at h⟩
        rw [rep.drain u, writing]
        simp
      · rw [call, Op.leave.inj (List.mem_singleton.mp member)]
  | @unread t woken lock _ _ holds unlocked =>
      obtain ⟨flag, count, -⟩ := RWLock.runlock_cases unlocked
      have member : t ∈ l.readers := rep.readers ▸ holds
      have some : 0 < s.lock.reader_count_.toNat := by
        rw [rep.count]
        exact List.length_pos_of_mem member
      have step : l.step (.unread t) = .some { l with readers := l.readers.erase t } :=
        if_pos member
      refine ⟨[.unread t], { l with readers := l.readers.erase t }, ?_, ?_, by simp⟩
      · simp [System.run, ReadersWriter.system, step]
      · refine ⟨by rw [flag]; exact busy, ?_, by simp [rep.readers], rep.writers, rep.drain,
          rep.exclusive.step step⟩
        show lock.reader_count_.toNat = (l.readers.erase t).length
        rw [count, toNat_sub_one some, rep.count, List.length_erase_of_mem member]
  | wakeReader _ _ =>
      exact ⟨[], l, rfl, ⟨busy, rep.count, rep.readers, rep.writers, rep.drain, rep.exclusive⟩,
        by simp⟩
  | wakeWriter _ _ =>
      exact ⟨[], l, rfl, ⟨busy, rep.count, rep.readers, rep.writers, rep.drain, rep.exclusive⟩,
        by simp⟩

theorem reachable_represents {s : State T} (reach : (system T).Reachable s) :
    ∃ l, s.Represents l := by
  refine reach.induct (P := fun s => ∃ l, s.Represents l) ?_ ?_
  · rintro s rfl
    exact ⟨.empty, start_represents⟩
  · rintro s a s' ⟨l, rep⟩ step
    obtain ⟨_, l', -, rep', -⟩ := step_refines rep step
    exact ⟨l', rep'⟩

/-- `t` holds the write lock, or is past the first loop and waits for the readers. -/
def Owns (s : State T) (t : T) : Prop := t ∈ s.writers ∨ s.pc t = .drain

theorem Represents.owns_iff {s : State T} {l : Lock T} (rep : s.Represents l) (t : T) :
    s.Owns t ↔ l.phase.owner = some t := by
  rw [Owns, rep.drain t]
  constructor
  · rintro (holds | announced)
    · rw [rep.writing holds]
      rfl
    · rw [announced]
      rfl
  · intro owner
    cases here : l.phase with
    | free =>
        rw [here] at owner
        cases owner
    | draining u =>
        rw [here] at owner
        exact Or.inr (by rw [Option.some.inj owner])
    | writing u =>
        rw [here] at owner
        refine Or.inl ?_
        rw [rep.writers, here, Option.some.inj owner]
        exact List.mem_singleton_self t

theorem Represents.writing_iff {s : State T} {l : Lock T} (rep : s.Represents l) :
    s.lock.writing_ = true ↔ ∃ t, s.Owns t := by
  simp only [rep.flag, rep.owns_iff]
  cases here : l.phase <;> simp [Phase.owner]

/-- **Exclusion.**  In every reachable state at most one write hold is outstanding, no
read hold beside it, the counter is the number of read holds (so it has never
wrapped), and the flag is set exactly if some one thread holds the write lock or
waits for the readers to leave. -/
theorem exclusive {s : State T} (reach : (system T).Reachable s) :
    s.writers.length ≤ 1 ∧ (s.writers ≠ [] → s.readers = []) ∧
      s.lock.reader_count_.toNat = s.readers.length ∧
      (s.lock.writing_ = true ↔ ∃! t, s.Owns t) := by
  obtain ⟨l, rep⟩ := reachable_represents reach
  refine ⟨?_, fun some => ?_, by rw [rep.readers]; exact rep.count, ?_⟩
  · rw [rep.writers]
    cases l.phase <;> simp [Phase.writers]
  · obtain ⟨t, holds⟩ := List.exists_mem_of_ne_nil _ some
    rw [rep.readers]
    exact rep.exclusive t (rep.writing holds)
  · rw [rep.writing_iff]
    refine ⟨fun ⟨t, owns⟩ => ⟨t, owns, fun u other => ?_⟩, fun ⟨t, owns, _⟩ => ⟨t, owns⟩⟩
    rw [rep.owns_iff] at owns other
    exact Option.some.inj (other.symm.trans owns)

/-- A reader in, a writer waiting for it, and the writer's turn. -/
theorem exclusive_turn :
    ∃ s, (system Bool).run (start Bool)
        [.RLock true, .WLock false, .RUnlock true (some false), .resume false] = some s ∧
      s.writers = [false] ∧ s.writers.length ≤ 1 ∧ (s.writers ≠ [] → s.readers = []) := by
  obtain ⟨s, run, writers⟩ : ∃ s, (system Bool).run (start Bool)
      [.RLock true, .WLock false, .RUnlock true (some false), .resume false] = some s ∧
      s.writers = [false] := ⟨_, rfl, rfl⟩
  have init : (system Bool).Init (start Bool) := rfl
  obtain ⟨one, alone, -⟩ := exclusive (System.Reachable.of_run init run)
  exact ⟨s, run, writers, one, alone⟩

end State

end Codesnip.Common.RWLock
