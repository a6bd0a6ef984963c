/-
# Theory.Increment -- threads that add one to a shared counter

An increment is two atomic steps, a read of the counter and a write of what was read plus
one, and the writes of other threads may come between the two.  Thread `t` increments
`quota t` times.

* `Bounded.finished`: when all threads are through, the counter has grown by at least two and at
  most by all the increments, if nobody increments just once;
* `attained`: every value in between is the outcome of some run;
* `ofTable`: the counter of a program whose threads keep what they have done and read in
  states of their own, and what becomes of it when one of them moves.
-/
import Mathlib.Algebra.Order.BigOperators.Group.Finset
import Codesnip.Theory.Transition

namespace Codesnip.Theory.Increment

open Codesnip.Theory.Transition (System)

set_option autoImplicit false

universe u

/-- `held t` is what thread `t` has read and not written back yet. -/
structure Counter (T : Type u) where
  value : Nat
  done : T → Nat
  held : T → Option Nat

inductive Op (T : Type u) where
  | read (t : T)
  | write (t : T)
  deriving DecidableEq

namespace Counter

variable {T : Type u} [DecidableEq T]

def fresh (T : Type u) (start : Nat) : Counter T := ⟨start, fun _ => 0, fun _ => none⟩

/-- Thread `t` reads the counter. -/
def take (s : Counter T) (t : T) : Counter T :=
  { s with held := Function.update s.held t (some s.value) }

/-- Thread `t` writes back what it has seen, plus one. -/
def put (s : Counter T) (t : T) (seen : Nat) : Counter T :=
  { value := seen + 1
    done := Function.update s.done t (s.done t + 1)
    held := Function.update s.held t none }

def step (quota : T → Nat) (s : Counter T) : Op T → Option (Counter T)
  | .read t => if s.held t = none ∧ s.done t < quota t then some (s.take t) else none
  | .write t => (s.held t).map fun seen => s.put t seen

end Counter

def system {T : Type u} [DecidableEq T] (quota : T → Nat) : System (Counter T) (Op T) :=
  { Init := fun s => ∃ start, s = .fresh T start, step := Counter.step quota }

namespace Counter

section Steps

variable {T : Type u} [DecidableEq T] {quota : T → Nat} {s s' : Counter T} {t u : T}
  {seen seen' : Nat}

@[simp] theorem take_value : (s.take t).value = s.value := rfl

@[simp] theorem take_done : (s.take t).done = s.done := rfl

@[simp] theorem take_held_self : (s.take t).held t = some s.value := Function.update_self ..

theorem take_held_of_ne (ne : u ≠ t) : (s.take t).held u = s.held u :=
  Function.update_of_ne ne ..

@[simp] theorem put_value : (s.put t seen).value = seen + 1 := rfl

@[simp] theorem put_done_self : (s.put t seen).done t = s.done t + 1 := Function.update_self ..

theorem put_done_of_ne (ne : u ≠ t) : (s.put t seen).done u = s.done u :=
  Function.update_of_ne ne ..

@[simp] theorem put_held_self : (s.put t seen).held t = none := Function.update_self ..

theorem put_held_of_ne (ne : u ≠ t) : (s.put t seen).held u = s.held u :=
  Function.update_of_ne ne ..

theorem sum_put {S : Finset T} (member : t ∈ S) :
    ∑ u ∈ S, (s.put t seen).done u = ∑ u ∈ S, s.done u + 1 := by
  rw [← Finset.add_sum_erase S _ member, ← Finset.add_sum_erase S s.done member, put_done_self,
    Finset.sum_congr rfl fun u other => put_done_of_ne (Finset.ne_of_mem_erase other)]
  omega

/-- What a thread holds after a read: the counter, if it is the reader. -/
theorem take_held (held : (s.take t).held u = some seen) :
    (u = t ∧ seen = s.value) ∨ s.held u = some seen := by
  by_cases same : u = t
  · subst same
    exact .inl ⟨rfl, (Option.some.inj (take_held_self.symm.trans held)).symm⟩
  · exact .inr ((take_held_of_ne same).symm.trans held)

/-- Who holds something after a write is another thread, as far as it was. -/
theorem put_held (held : (s.put t seen).held u = some seen') :
    u ≠ t ∧ s.held u = some seen' ∧ (s.put t seen).done u = s.done u := by
  have ne : u ≠ t := by
    rintro rfl
    cases put_held_self.symm.trans held
  exact ⟨ne, (put_held_of_ne ne).symm.trans held, put_done_of_ne ne⟩

/-- The steps, one for each operation. -/
inductive Stepped (quota : T → Nat) (s : Counter T) : Op T → Counter T → Prop where
  | read {t : T} (idle : s.held t = none) (more : s.done t < quota t) :
      Stepped quota s (.read t) (s.take t)
  | write {t : T} {seen : Nat} (held : s.held t = some seen) :
      Stepped quota s (.write t) (s.put t seen)

theorem stepped_of_step {op : Op T} (step : s.step quota op = some s') :
    s.Stepped quota op s' := by
  cases op with
  | read t =>
      simp only [Counter.step] at step
      split at step <;> rename_i cond <;> cases step
      exact .read cond.1 cond.2
  | write t =>
      obtain ⟨seen, held, rfl⟩ := Option.map_eq_some_iff.mp step
      exact .write held

abbrev Leads (quota : T → Nat) (s s' : Counter T) : Prop :=
  (system quota).Reaches (fun _ => True) s s'

theorem leads_take (idle : s.held t = none) (more : s.done t < quota t) :
    Leads quota s (s.take t) := by
  have step : (system quota).step s (.read t) = some (s.take t) := if_pos ⟨idle, more⟩
  exact .one trivial step

theorem leads_put (held : s.held t = some seen) : Leads quota s (s.put t seen) := by
  have step : (system quota).step s (.write t) = some (s.put t seen) :=
    congrArg (Option.map fun seen => s.put t seen) held
  exact .one trivial step

end Steps

/-! ## Threads with states of their own -/

section Table

universe v

variable {T : Type u} {L : Type v} (done : L → Nat) (held : L → Option Nat)

/-- A thread that does not exist yet has done nothing. -/
def ofTable (value : Nat) (threads : T → Option L) : Counter T where
  value
  done t := ((threads t).map done).getD 0
  held t := (threads t).bind held

variable {threads : T → Option L} {t : T} {l l' : L}

theorem done_ofTable (value : Nat) (here : threads t = some l) :
    (ofTable done held value threads).done t = done l := by simp [ofTable, here]

theorem held_ofTable (value : Nat) (here : threads t = some l) :
    (ofTable done held value threads).held t = held l := by simp [ofTable, here]

variable [DecidableEq T]

theorem ofTable_update (value value' : Nat) (threads : T → Option L) (t : T) (l' : L) :
    ofTable done held value' (Function.update threads t (some l')) =
      { value := value'
        done := Function.update (ofTable done held value threads).done t (done l')
        held := Function.update (ofTable done held value threads).held t (held l') } := by
  simp only [ofTable, Counter.mk.injEq, true_and]
  constructor <;> funext u <;> by_cases same : u = t
  · subst same
    simp
  · simp [same]
  · subst same
    simp
  · simp [same]

variable {done held} {value : Nat}

/-- A step between two increments. -/
theorem ofTable_quiet (here : threads t = some l) (same : done l' = done l)
    (same' : held l' = held l) :
    ofTable done held value (Function.update threads t (some l')) =
      ofTable done held value threads := by
  rw [ofTable_update done held value, same, same', ← done_ofTable done held value here,
    ← held_ofTable done held value here, Function.update_eq_self, Function.update_eq_self]
  rfl

theorem ofTable_take (here : threads t = some l) (same : done l' = done l)
    (read : held l' = some value) :
    ofTable done held value (Function.update threads t (some l')) =
      (ofTable done held value threads).take t := by
  rw [ofTable_update done held value, same, read, ← done_ofTable done held value here,
    Function.update_eq_self]
  rfl

theorem ofTable_put {seen : Nat} (here : threads t = some l) (more : done l' = done l + 1)
    (wrote : held l' = none) :
    ofTable done held (seen + 1) (Function.update threads t (some l')) =
      (ofTable done held value threads).put t seen := by
  rw [ofTable_update done held value, more, wrote, ← done_ofTable done held value here]
  rfl

end Table

section Bounds

variable {T : Type u} [Fintype T] {quota : T → Nat} {start : Nat} {s s' : Counter T}

/-- The increments done so far. -/
def total (s : Counter T) : Nat := ∑ t, s.done t

/-- Everyone is through. -/
def Finished (quota : T → Nat) (s : Counter T) : Prop := ∀ t, s.done t = quota t

theorem Finished.total_eq (finished : s.Finished quota) : s.total = ∑ t, quota t :=
  Finset.sum_congr rfl fun t _ => finished t

/-- What holds of a counter whatever the threads do. -/
structure Bounded (quota : T → Nat) (start : Nat) (s : Counter T) : Prop where
  done_le : ∀ t, s.done t ≤ quota t
  held_lt : ∀ t seen, s.held t = some seen → s.done t < quota t
  value_le : s.value ≤ start + s.total
  held_le : ∀ t seen, s.held t = some seen → seen ≤ start + s.total
  held_ge : ∀ t seen, s.held t = some seen → start + min 1 (s.done t) ≤ seen
  /-- Who wrote last had read a written value, unless that was its first increment. -/
  last : (s.value = start ∧ ∀ t, s.done t = 0) ∨
    ∃ t, 0 < s.done t ∧ start + min 2 (s.done t) ≤ s.value

theorem Bounded.fresh : (fresh T start).Bounded quota start where
  done_le _ := Nat.zero_le _
  held_lt _ _ held := by cases held
  value_le := Nat.le_add_right _ _
  held_le _ _ held := by cases held
  held_ge _ _ held := by cases held
  last := .inl ⟨rfl, fun _ => rfl⟩

/-- A thread that has written will read a written value. -/
theorem Bounded.value_ge (bounded : s.Bounded quota start) (t : T) :
    start + min 1 (s.done t) ≤ s.value := by
  rcases bounded.last with ⟨value, none⟩ | ⟨u, some, most⟩
  · rw [value, none t]
    rfl
  · omega

variable [DecidableEq T]

theorem total_put {t : T} {seen : Nat} : (s.put t seen).total = s.total + 1 :=
  sum_put (Finset.mem_univ t)

theorem Bounded.take {t : T} (bounded : s.Bounded quota start) (more : s.done t < quota t) :
    (s.take t).Bounded quota start where
  done_le := bounded.done_le
  held_lt u seen held := by
    rcases take_held held with ⟨rfl, -⟩ | before
    · exact more
    · exact bounded.held_lt u seen before
  value_le := bounded.value_le
  held_le u seen held := by
    rcases take_held held with ⟨-, rfl⟩ | before
    · exact bounded.value_le
    · exact bounded.held_le u seen before
  held_ge u seen held := by
    rcases take_held held with ⟨-, rfl⟩ | before
    · exact bounded.value_ge u
    · exact bounded.held_ge u seen before
  last := bounded.last

theorem Bounded.put {t : T} {seen : Nat} (bounded : s.Bounded quota start)
    (held : s.held t = some seen) : (s.put t seen).Bounded quota start where
  done_le u := by
    by_cases same : u = t
    · subst same
      rw [put_done_self]
      exact bounded.held_lt u seen held
    · rw [put_done_of_ne same]
      exact bounded.done_le u
  held_lt u seen' held' := by
    obtain ⟨-, before, same⟩ := put_held held'
    rw [same]
    exact bounded.held_lt u seen' before
  value_le := by
    have := bounded.held_le t seen held
    rw [total_put, put_value]
    omega
  held_le u seen' held' := by
    have := bounded.held_le u seen' (put_held held').2.1
    rw [total_put]
    omega
  held_ge u seen' held' := by
    obtain ⟨-, before, same⟩ := put_held held'
    rw [same]
    exact bounded.held_ge u seen' before
  last := by
    have := bounded.held_ge t seen held
    refine .inr ⟨t, ?_⟩
    rw [put_done_self, put_value]
    omega

theorem Bounded.step {op : Op T} (bounded : s.Bounded quota start)
    (step : s.step quota op = some s') : s'.Bounded quota start := by
  cases stepped_of_step step with
  | read idle more => exact bounded.take more
  | write held => exact bounded.put held

theorem Bounded.of_leads (leads : Leads quota (Counter.fresh T start) s) : s.Bounded quota start :=
  leads.induct .fresh fun _ _ _ bounded _ step => bounded.step step

omit [DecidableEq T] in
/-- **Increments get lost, but not all of them**: two at least remain, if every thread that
increments does so more than once. -/
theorem Bounded.finished (bounded : s.Bounded quota start) (finished : s.Finished quota)
    (twice : ∀ t, quota t ≠ 1) (some : ∃ t, 0 < quota t) :
    start + 2 ≤ s.value ∧ s.value ≤ start + ∑ t, quota t := by
  refine ⟨?_, finished.total_eq ▸ bounded.value_le⟩
  rcases bounded.last with ⟨-, none⟩ | ⟨t, pos, most⟩
  · obtain ⟨t, pos⟩ := some
    have := none t
    rw [finished t] at this
    omega
  · have := twice t
    rw [finished t] at pos most
    omega

/-! ## Every outcome in between -/

omit [Fintype T] in
/-- A read and a write with nothing in between. -/
theorem held_put_take {t : T} (idle : s.held t = none) :
    ((s.take t).put t s.value).held = s.held := by
  funext u
  by_cases same : u = t
  · subst same
    rw [put_held_self, idle]
  · rw [put_held_of_ne same, take_held_of_ne same]

/-- The threads of `S` have done `n` more increments, undisturbed. -/
structure Advanced (quota : T → Nat) (S : Finset T) (n : Nat) (s s' : Counter T) : Prop where
  leads : Leads quota s s'
  value : s'.value = s.value + n
  held : s'.held = s.held
  others : ∀ t, t ∉ S → s'.done t = s.done t
  sum : ∑ t ∈ S, s'.done t = ∑ t ∈ S, s.done t + n

omit [Fintype T] [DecidableEq T] in
/-- Some thread of `S` has increments left. -/
theorem exists_left {S : Finset T} (less : ∑ t ∈ S, s.done t < ∑ t ∈ S, quota t) :
    ∃ t ∈ S, s.done t < quota t := by
  apply Classical.byContradiction
  intro none
  have : ∑ t ∈ S, quota t ≤ ∑ t ∈ S, s.done t :=
    Finset.sum_le_sum fun t member => Nat.le_of_not_lt fun left => none ⟨t, member, left⟩
  omega

omit [Fintype T] in
theorem advance (quota : T → Nat) {S : Finset T} (n : Nat) {s : Counter T}
    (idle : ∀ t ∈ S, s.held t = none)
    (room : ∑ t ∈ S, s.done t + n ≤ ∑ t ∈ S, quota t) : ∃ s', Advanced quota S n s s' := by
  induction n generalizing s with
  | zero => exact ⟨s, .refl s, rfl, rfl, fun _ _ => rfl, rfl⟩
  | succ n ih =>
      obtain ⟨t, member, left⟩ := exists_left (by omega : ∑ t ∈ S, s.done t < ∑ t ∈ S, quota t)
      have held := held_put_take (idle t member)
      have leads : Leads quota s ((s.take t).put t s.value) :=
        (leads_take (idle t member) left).trans (leads_put take_held_self)
      have sum : ∑ u ∈ S, ((s.take t).put t s.value).done u = ∑ u ∈ S, s.done u + 1 :=
        sum_put member
      obtain ⟨s', rest⟩ := ih (s := (s.take t).put t s.value)
        (fun u other => by rw [held]; exact idle u other) (by omega)
      refine ⟨s', leads.trans rest.leads, ?_, rest.held.trans held, fun u other => ?_, ?_⟩
      · rw [rest.value, put_value]
        omega
      · rw [rest.others u other, put_done_of_ne (ne_of_mem_of_not_mem member other).symm, take_done]
      · rw [rest.sum, sum]
        omega

/-- Everyone is through when the increments left are none. -/
theorem finished_of_sum (t : T) (bounded : s.Bounded quota start) (self : s.done t = quota t)
    (rest : ∑ u ∈ Finset.univ.erase t, s.done u = ∑ u ∈ Finset.univ.erase t, quota u) :
    s.Finished quota := by
  intro u
  by_cases same : u = t
  · rw [same, self]
  · exact (Finset.sum_eq_sum_iff_of_le fun u _ => bounded.done_le u).mp rest u
      (Finset.mem_erase.mpr ⟨same, Finset.mem_univ u⟩)

/-- `t` has read the start value and written it back, plus one, over `lost` increments of the
others. -/
theorem overwrite (start : Nat) {t : T} (some : 0 < quota t) {lost : Nat}
    (room : lost ≤ ∑ u ∈ Finset.univ.erase t, quota u) :
    ∃ s, Leads quota (fresh T start) s ∧ s.value = start + 1 ∧ s.done t = 1 ∧
      (∀ u, s.held u = none) ∧ ∑ u ∈ Finset.univ.erase t, s.done u = lost := by
  have idle : ∀ u ∈ Finset.univ.erase t, ((fresh T start).take t).held u = none :=
    fun u other => take_held_of_ne (Finset.ne_of_mem_erase other)
  have zero : ∑ u ∈ Finset.univ.erase t, ((fresh T start).take t).done u = 0 :=
    Finset.sum_eq_zero fun _ _ => rfl
  obtain ⟨s, rest⟩ := advance quota lost idle (by omega)
  have held : s.held t = Option.some start := by
    rw [rest.held, take_held_self]
    rfl
  refine ⟨s.put t start, ?_, put_value, ?_, fun u => ?_, ?_⟩
  · exact ((leads_take rfl some).trans rest.leads).trans (leads_put held)
  · rw [put_done_self, rest.others t (Finset.notMem_erase t _)]
    rfl
  · by_cases same : u = t
    · rw [same, put_held_self]
    · rw [put_held_of_ne same, rest.held]
      exact idle u (Finset.mem_erase.mpr ⟨same, Finset.mem_univ u⟩)
  · rw [Finset.sum_congr rfl fun u other => put_done_of_ne (Finset.ne_of_mem_erase other),
      rest.sum, zero, Nat.zero_add]

/-- One thread goes on alone. -/
theorem advance_one (quota : T → Nat) {t : T} (n : Nat) (idle : s.held t = none)
    (room : s.done t + n ≤ quota t) :
    ∃ s', Leads quota s s' ∧ s'.value = s.value + n ∧ s'.held = s.held ∧
      s'.done t = s.done t + n ∧
      ∑ u ∈ Finset.univ.erase t, s'.done u = ∑ u ∈ Finset.univ.erase t, s.done u := by
  obtain ⟨s', rest⟩ := advance quota (S := {t}) n (by simpa using idle) (by simpa using room)
  refine ⟨s', rest.leads, rest.value, rest.held, by simpa using rest.sum, ?_⟩
  exact Finset.sum_congr rfl fun u other =>
    rest.others u (by simpa using Finset.ne_of_mem_erase other)

/-- `t` overwrites what is lost, and everyone finishes undisturbed. -/
theorem attained_high (start : Nat) {t : T} (some : 0 < quota t) {m : Nat}
    (room : m ≤ ∑ u ∈ Finset.univ.erase t, quota u) :
    ∃ s, Leads quota (fresh T start) s ∧ s.Finished quota ∧ s.value = start + quota t + m := by
  obtain ⟨s, leads, value, self, idle, sum⟩ := overwrite start some
    (Nat.sub_le (∑ u ∈ Finset.univ.erase t, quota u) m)
  obtain ⟨s₁, leads₁, value₁, held₁, self₁, sum₁⟩ := advance_one quota (quota t - 1)
    (idle t) (by omega)
  obtain ⟨s₂, rest⟩ := advance quota (S := Finset.univ.erase t) m
    (fun u _ => by rw [held₁, idle u]) (by omega)
  have all := (leads.trans leads₁).trans rest.leads
  refine ⟨s₂, all, finished_of_sum t (.of_leads all) ?_ ?_, ?_⟩
  · rw [rest.others t (Finset.notMem_erase t _), self₁, self]
    omega
  · rw [rest.sum, sum₁, sum]
    omega
  · rw [rest.value, value₁, value]
    omega

/-- Another thread reads the counter early and writes it back last. -/
theorem attained_low (start : Nat) {t : T} (some : 0 < quota t)
    (others : 0 < ∑ u ∈ Finset.univ.erase t, quota u) {i : Nat} (room : i < quota t) :
    ∃ s, Leads quota (fresh T start) s ∧ s.Finished quota ∧ s.value = start + 2 + i := by
  obtain ⟨s, leads, value, self, idle, sum⟩ := overwrite start some
    (Nat.sub_le (∑ u ∈ Finset.univ.erase t, quota u) 1)
  obtain ⟨s₁, leads₁, value₁, held₁, self₁, sum₁⟩ := advance_one quota i (idle t)
    (by omega)
  obtain ⟨w, other, left⟩ := exists_left
    (by omega : ∑ u ∈ Finset.univ.erase t, s₁.done u < ∑ u ∈ Finset.univ.erase t, quota u)
  have ne : t ≠ w := (Finset.ne_of_mem_erase other).symm
  have idle₁ : ∀ u, s₁.held u = none := fun u => by rw [held₁, idle u]
  obtain ⟨s₂, leads₂, value₂, held₂, self₂, sum₂⟩ := advance_one quota
    (s := s₁.take w) (quota t - 1 - i) (by rw [take_held_of_ne ne, idle₁ t])
    (by rw [take_done]; omega)
  have held : s₂.held w = Option.some s₁.value := by rw [held₂, take_held_self]
  have all := (((leads.trans leads₁).trans (leads_take (idle₁ w) left)).trans leads₂).trans
    (leads_put held)
  refine ⟨s₂.put w s₁.value, all, finished_of_sum t (.of_leads all) ?_ ?_, ?_⟩
  · rw [put_done_of_ne ne, self₂, take_done]
    omega
  · rw [sum_put other, sum₂, take_done]
    omega
  · rw [put_value, value₁, value]
    omega

/-- **Every outcome between two increments and all of them is possible**, if there is more
than one thread. -/
theorem attained (start : Nat) {t u : T} (ne : u ≠ t) (some : 0 < quota t)
    (other : 0 < quota u) {v : Nat}
    (least : start + 2 ≤ v) (most : v ≤ start + ∑ t, quota t) :
    ∃ s, Leads quota (fresh T start) s ∧ s.Finished quota ∧ s.value = v := by
  have split := Finset.add_sum_erase Finset.univ quota (Finset.mem_univ t)
  have rest : quota u ≤ ∑ u ∈ Finset.univ.erase t, quota u :=
    Finset.single_le_sum (fun _ _ => Nat.zero_le _) (Finset.mem_erase.mpr ⟨ne, Finset.mem_univ u⟩)
  rcases Nat.lt_or_ge (v - (start + 2)) (quota t) with low | high
  · obtain ⟨s, leads, finished, value⟩ := attained_low start some (by omega) low
    exact ⟨s, leads, finished, by omega⟩
  · obtain ⟨s, leads, finished, value⟩ := attained_high start some
      (by omega : v - (start + quota t) ≤ ∑ u ∈ Finset.univ.erase t, quota u)
    exact ⟨s, leads, finished, by omega⟩

end Bounds

end Counter

end Codesnip.Theory.Increment
