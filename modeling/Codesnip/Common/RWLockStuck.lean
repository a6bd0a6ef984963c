/-
# Common.RWLockStuck -- holders that call the lock again

Nothing keeps a thread that has the lock from calling it again: a reader that reads in a
nested scope, a reader that wants to write, a writer that calls what takes a read lock.
Once some writer has set the flag, such a call waits for the flag or for the readers, and
the thread that is to release them is the one that waits.

`Stuck` is that state.  No step leaves it, and no call of `WLock` or `RLock` returns in
it (`Stuck.step`).  It is the only way to get stuck: if nobody who holds the lock is
inside a call, the holders can release it one after the other, and the flag is cleared,
without any spurious wakeup (`released_unless_stuck`).
-/
import Codesnip.Common.RWLockWakeup

namespace Codesnip.Common.RWLock

open Codesnip.Theory
open Codesnip.Theory.ReadersWriter (Lock Op Phase)
open Codesnip.Theory.Transition (System)

set_option autoImplicit false
set_option linter.dupNamespace false
set_option linter.unusedSectionVars false

namespace State

variable {T : Type} [DecidableEq T]

/-- `t` has a read lock or the write lock. -/
def HasLock (s : State T) (t : T) : Prop := t ∈ s.readers ∨ t ∈ s.writers

/-- The flag is set, and `h`, which has the lock, waits in one of its calls. -/
structure Stuck (s : State T) (h : T) : Prop where
  busy : s.lock.writing_ = true
  holds : s.HasLock h
  inside : s.pc h ≠ .outside

variable {s s' : State T} {l : Lock T} {h : T}

/-- The announced writer cannot pass readers, and a thread that waits is none that unlocks. -/
theorem Represents.not_enter (rep : s.Represents l) {t : T} (stuck : s.Stuck h)
    (pc : s.pc t = .drain) : s.lock.reader_count_ ≠ 0 := by
  intro none
  have announced := (rep.drain t).mp pc
  rcases stuck.holds with reads | writes
  · rw [rep.readers, rep.readers_nil none] at reads
    cases reads
  · rw [rep.writers, announced] at writes
    cases writes

theorem Represents.not_unwrite (rep : s.Represents l) {t : T} (stuck : s.Stuck h)
    (pc : s.pc t = .outside) : t ∉ s.writers := by
  intro holds
  have writing := rep.writing holds
  rcases stuck.holds with reads | writes
  · rw [rep.readers, rep.exclusive t writing] at reads
    cases reads
  · rw [rep.writers, writing] at writes
    exact stuck.inside (List.mem_singleton.mp writes ▸ pc)

/-- A thread goes from one wait to another. -/
theorem Stuck.moved (stuck : s.Stuck h) {t : T} {p : Pc} {lock : RWLock T}
    (busy : lock.writing_ = true) (waits : p ≠ .outside) :
    ({ s with lock, pc := Function.update s.pc t p } : State T).Stuck h := by
  refine ⟨busy, stuck.holds, ?_⟩
  show Function.update s.pc t p h ≠ .outside
  by_cases same : h = t
  · rw [same, Function.update_self]
    exact waits
  · rw [Function.update_of_ne same]
    exact stuck.inside

/-- **A stuck lock stays stuck**: whatever a thread does, no call returns with the lock. -/
theorem Stuck.step (rep : s.Represents l) (stuck : s.Stuck h) {a : Action T}
    (step : s.step a = some s') :
    s'.Stuck h ∧ s'.writers = s.writers ∧ s'.readers.Sublist s.readers := by
  have busy {P : Prop} (idle : s.lock.writing_ = false) : P := by
    rw [stuck.busy] at idle
    cases idle
  cases stepped_of_step step with
  | gateWait _ _ => exact ⟨stuck.moved stuck.busy (by decide), rfl, .refl _⟩
  | gateDrain _ idle _ => exact busy idle
  | gateEnter _ idle _ => exact busy idle
  | drainWait _ _ _ _ => exact ⟨stuck.moved stuck.busy (by decide), rfl, .refl _⟩
  | drainEnter _ pc _ none => exact absurd none (rep.not_enter stuck pc)
  | readWait _ _ => exact ⟨stuck.moved stuck.busy (by decide), rfl, .refl _⟩
  | readEnter _ idle _ => exact busy idle
  | unwrite _ pc holds => exact absurd holds (rep.not_unwrite stuck pc)
  | @unread t woken lock _ pc _ unlocked =>
      obtain ⟨flag, -⟩ := RWLock.runlock_cases unlocked
      have other : h ≠ t := by
        rintro rfl
        exact stuck.inside pc
      refine ⟨⟨flag.trans stuck.busy, ?_, stuck.inside⟩, rfl, List.erase_sublist⟩
      exact stuck.holds.imp_left (List.mem_erase_of_ne other).mpr
  | wakeReader _ _ => exact ⟨⟨stuck.busy, stuck.holds, stuck.inside⟩, rfl, .refl _⟩
  | wakeWriter _ _ => exact ⟨⟨stuck.busy, stuck.holds, stuck.inside⟩, rfl, .refl _⟩

/-- The same over a whole run. -/
theorem Stuck.reaches {ok : Action T → Prop} (rep : ∃ l, s.Represents l) (stuck : s.Stuck h)
    (after : (system T).Reaches ok s s') :
    s'.Stuck h ∧ s'.writers = s.writers ∧ s'.readers.Sublist s.readers := by
  suffices both : (∃ l, s'.Represents l) ∧
      s'.Stuck h ∧ s'.writers = s.writers ∧ s'.readers.Sublist s.readers from both.2
  refine after.induct (P := fun t => (∃ l, t.Represents l) ∧
    t.Stuck h ∧ t.writers = s.writers ∧ t.readers.Sublist s.readers)
    ⟨rep, stuck, rfl, .refl _⟩ ?_
  rintro t a t' ⟨⟨l, rep⟩, stuck, writers, readers⟩ - step
  obtain ⟨stuck', writers', readers'⟩ := stuck.step rep step
  obtain ⟨_, l', -, rep', -⟩ := step_refines rep step
  exact ⟨⟨l', rep'⟩, stuck', writers'.trans writers, readers'.trans readers⟩

/-! ## The way out -/

/-- All who have the lock are outside its calls. -/
def Apart (s : State T) : Prop := ∀ h, s.HasLock h → s.pc h = .outside

theorem exists_RUnlock (lock : RWLock T) : ∃ woken lock', lock.RUnlock woken = some lock' := by
  simp only [RWLock.RUnlock]
  split
  · split
    · obtain ⟨woken, writer_, notified⟩ := CondVar.exists_notifyOne lock.writer_
      exact ⟨woken, _, Option.map_eq_some_iff.mpr ⟨writer_, notified, rfl⟩⟩
    · exact ⟨none, _, if_pos rfl⟩
  · split
    · obtain ⟨woken, reader_, notified⟩ := CondVar.exists_notifyOne lock.reader_
      exact ⟨woken, _, Option.map_eq_some_iff.mpr ⟨reader_, notified, rfl⟩⟩
    · exact ⟨none, _, if_pos rfl⟩

/-- Reads to be released, and then the writer's way in and out. -/
def releaseRank (s : State T) : Nat :=
  s.readers.length + if s.lock.writing_ = false then 0 else if s.writers = [] then 2 else 1

/-- What a step of the way out leads to. -/
def Onwards (s : State T) : Prop :=
  ∃ a s', (∀ t, a ≠ .spurious t) ∧ s.step a = some s' ∧ s'.Apart ∧ s'.releaseRank < s.releaseRank

theorem Apart.onwards_unwrite (apart : s.Apart) (busy : s.lock.writing_ = true) {w : T}
    (holds : w ∈ s.writers) : s.Onwards := by
  have some : s.writers ≠ [] := List.ne_nil_of_mem holds
  refine ⟨.WULock w, _, ?_, if_pos ⟨apart w (.inr holds), holds⟩, fun h has => ?_, ?_⟩
  · intro u same
    cases same
  · exact apart h (has.imp_right List.mem_of_mem_erase)
  · simp [releaseRank, RWLock.WULock, busy, some]

theorem Apart.onwards_unread (apart : s.Apart) (busy : s.lock.writing_ = true) {r : T}
    (holds : r ∈ s.readers) : s.Onwards := by
  obtain ⟨woken, lock, unlocked⟩ := exists_RUnlock s.lock
  obtain ⟨flag, -⟩ := RWLock.runlock_cases unlocked
  have step : s.step (.RUnlock r woken) = some { s with lock, readers := s.readers.erase r } := by
    simp only [State.step, if_pos (And.intro (apart r (.inl holds)) holds), unlocked]
    rfl
  refine ⟨.RUnlock r woken, _, ?_, step, fun h has => ?_, ?_⟩
  · intro u same
    cases same
  · exact apart h (has.imp_left List.mem_of_mem_erase)
  · have fewer := List.length_erase_of_mem holds
    have pos := List.length_pos_of_mem holds
    simp only [releaseRank, flag, busy, fewer]
    omega

theorem Apart.onwards_enter (kept : s.Kept) (apart : s.Apart) (busy : s.lock.writing_ = true)
    {u : T} (pc : s.pc u = .drain) (none : s.readers = []) (out : s.writers = []) :
    s.Onwards := by
  obtain ⟨⟨l, rep⟩, wait⟩ := kept
  have zero : s.lock.reader_count_ = 0 := by
    rw [← UInt32.toNat_inj, rep.count, ← rep.readers, none]
    rfl
  have awake : ¬ u ∈ s.lock.writer_ := fun asleep => wait.drains u asleep zero
  have drained : s.lock.drain u = (s.lock, .outside) := if_neg (not_pos_iff _ |>.mpr zero)
  have step : s.step (.resume u) = some (s.wrote u (s.lock, .outside)) := by
    simp only [State.step, pc, if_neg awake, drained]
  refine ⟨.resume u, _, ?_, step, fun h has => ?_, ?_⟩
  · intro t same
    cases same
  · show Function.update s.pc u .outside h = .outside
    by_cases same : h = u
    · rw [same, Function.update_self]
    · rw [Function.update_of_ne same]
      have holds : h ∈ s.readers ∨ h ∈ u :: s.writers := has
      exact apart h (holds.imp_right fun member => (List.mem_cons.mp member).resolve_left same)
  · simp [releaseRank, wrote, busy, none, out]

/-- **Somebody can go on** as long as the flag is set. -/
theorem Apart.onwards (kept : s.Kept) (apart : s.Apart) (busy : s.lock.writing_ = true) :
    s.Onwards := by
  obtain ⟨l, rep⟩ := kept.1
  match phase : l.phase with
  | .free => exact absurd phase (rep.flag.mp busy)
  | .writing w =>
      have holds : w ∈ s.writers := by
        rw [rep.writers, phase]
        exact List.mem_singleton_self w
      exact apart.onwards_unwrite busy holds
  | .draining u =>
      have out : s.writers = [] := by
        rw [rep.writers, phase]
        rfl
      match readers : s.readers with
      | [] => exact apart.onwards_enter kept busy ((rep.drain u).mpr phase) readers out
      | r :: rs => exact apart.onwards_unread busy (readers ▸ List.mem_cons_self)

/-- **A lock whose flag is set is released again, unless a thread that has it waits in one of
its calls**: then no call returns with the lock any more. -/
theorem released_unless_stuck (reach : (system T).Reachable s) (busy : s.lock.writing_ = true) :
    ((∀ h, s.HasLock h → s.pc h = .outside) →
      ∃ t, (system T).Reaches (fun a => ∀ u, a ≠ .spurious u) s t ∧ t.lock.writing_ = false) ∧
    ((∃ h, s.HasLock h ∧ s.pc h ≠ .outside) →
      ∀ t, (system T).Reaches (fun _ => True) s t → t.lock.writing_ = true ∧
        t.writers = s.writers ∧ t.readers.Sublist s.readers) := by
  have kept := reachable_kept reach
  constructor
  · intro apart
    have progress : ∀ r : State T, r.Kept ∧ r.Apart → r.lock.writing_ = false ∨
        ∃ a r', (∀ u, a ≠ .spurious u) ∧ (system T).step r a = some r' ∧
          (r'.Kept ∧ r'.Apart) ∧ r'.releaseRank < r.releaseRank := by
      rintro r ⟨kept, apart⟩
      cases flag : r.lock.writing_ with
      | false => exact .inl rfl
      | true =>
          obtain ⟨a, r', awake, step, apart', lower⟩ := apart.onwards kept flag
          exact .inr ⟨a, r', awake, step, ⟨kept.step step, apart'⟩, lower⟩
    obtain ⟨t, after, -, freed⟩ := System.reaches_of_rank (system T) _
      (fun r => r.Kept ∧ r.Apart) _ releaseRank progress ⟨kept, apart⟩
    exact ⟨t, after, freed⟩
  · rintro ⟨h, holds, inside⟩ t after
    obtain ⟨stuck, same⟩ := Stuck.reaches kept.1 ⟨busy, holds, inside⟩ after
    exact ⟨stuck.busy, same⟩

/-- A reader asks again while a writer waits for it. -/
theorem released_unless_stuck_nested : ∃ s,
    (system Bool).run (start Bool) [.RLock true, .WLock false, .RLock true] = some s ∧
      ∀ t, (system Bool).Reaches (fun _ => True) s t → t.writers = [] := by
  have run : (system Bool).run (start Bool) [.RLock true, .WLock false, .RLock true] = some _ := rfl
  obtain ⟨-, stuck⟩ := released_unless_stuck (System.Reachable.of_run rfl run) rfl
  refine ⟨_, run, fun t after => ?_⟩
  obtain ⟨-, writers, -⟩ := stuck ⟨true, .inl (by decide), by decide⟩ t after
  exact writers

end State

end Codesnip.Common.RWLock
