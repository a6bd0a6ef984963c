/-
# Theory.Countdown -- a list of timers that count down

The plainest timer service: the pending timers stand in one list, in the order
they were added, each with the number of ticks it still has to wait.  A tick
fires every timer that has nothing left to wait, in list order, and takes one
from all the others.

`State` adds the history a run leaves behind: which timers were cancelled, what
each tick fired, and the tick in which each timer falls due.  Timers are
numbered in the order they are added, and the number is the timer's callback, so
a handle may name several timers one after another without confusing them.

* `Scheduled` is the invariant of every run, kept by each operation (`Scheduled.step`);
* `count_fired`: a timer that is not cancelled fires in the tick it is due in,
  exactly once, and in no other;
* `exec_due`: that tick is the one `timeout` ticks after the next.

A callback may add timers when it runs.  It runs within a tick, so what it adds has waited
one tick when that tick is over (`tickAgain`).  A callback that only adds itself again, with
its period, keeps to the multiples of it (`count_ticksAgain`).
-/
import Mathlib.Data.List.Basic
import Mathlib.Data.List.Nodup

namespace Codesnip.Theory.Countdown

set_option autoImplicit false
set_option linter.unusedSectionVars false

universe u v

/-- A pending timer: the handle its owner holds, the callback it carries, and the
ticks it still has to wait. -/
structure Entry (H : Type u) (F : Type v) where
  handle : H
  callback : F
  remaining : Nat
  deriving DecidableEq, Repr

namespace Entry

variable {H : Type u} {F : Type v}

/-- One tick goes by. -/
def elapse (e : Entry H F) : Entry H F := { e with remaining := e.remaining - 1 }

@[simp] theorem elapse_handle (e : Entry H F) : e.elapse.handle = e.handle := rfl
@[simp] theorem elapse_callback (e : Entry H F) : e.elapse.callback = e.callback := rfl
@[simp] theorem elapse_remaining (e : Entry H F) : e.elapse.remaining = e.remaining - 1 := rfl

end Entry

/-! ## The list of pending timers -/

section Pending

variable {H : Type u} {F : Type v}

def add (l : List (Entry H F)) (handle : H) (callback : F) (timeout : Nat) : List (Entry H F) :=
  l ++ [⟨handle, callback, timeout⟩]

def del [DecidableEq H] (l : List (Entry H F)) (handle : H) : List (Entry H F) :=
  l.filter fun e => e.handle ≠ handle

/-- The callbacks a tick fires, in insertion order. -/
def expired (l : List (Entry H F)) : List F :=
  (l.filter fun e => e.remaining = 0).map Entry.callback

def tick (l : List (Entry H F)) : List (Entry H F) :=
  (l.filter fun e => e.remaining ≠ 0).map Entry.elapse

theorem mem_expired {l : List (Entry H F)} {f : F} :
    f ∈ expired l ↔ ∃ e ∈ l, e.remaining = 0 ∧ e.callback = f := by
  simp [expired, and_assoc]

theorem mem_tick {l : List (Entry H F)} {e : Entry H F} :
    e ∈ tick l ↔ ∃ e' ∈ l, e'.remaining ≠ 0 ∧ e'.elapse = e := by
  simp [tick, and_assoc]

theorem mem_del [DecidableEq H] {l : List (Entry H F)} {h : H} {e : Entry H F} :
    e ∈ del l h ↔ e ∈ l ∧ e.handle ≠ h := by
  simp [del]

theorem filter_handle [DecidableEq H] {l : List (Entry H F)}
    (distinct : (l.map Entry.handle).Nodup) {e : Entry H F} (member : e ∈ l) :
    (l.filter fun e' => e'.handle = e.handle) = [e] := by
  induction l with
  | nil => cases member
  | cons head rest ih =>
      obtain ⟨fresh, distinct⟩ := List.nodup_cons.mp distinct
      rcases List.mem_cons.mp member with rfl | member
      · have none : (rest.filter fun e' => e'.handle = e.handle) = [] := by
          apply List.filter_eq_nil_iff.mpr
          intro e' inside
          have : e'.handle ≠ e.handle := fun same =>
            fresh (List.mem_map.mpr ⟨e', inside, same⟩)
          simpa using this
        simp [none]
      · have other : head.handle ≠ e.handle := fun same =>
          fresh (List.mem_map.mpr ⟨e, member, same.symm⟩)
        simp [other, ih distinct member]

theorem tick_callbacks_sublist (l : List (Entry H F)) :
    ((tick l).map Entry.callback).Sublist (l.map Entry.callback) := by
  have same : (tick l).map Entry.callback =
      (l.filter fun e => e.remaining ≠ 0).map Entry.callback := by
    simp [tick]
  rw [same]
  exact List.Sublist.map _ List.filter_sublist

theorem expired_sublist (l : List (Entry H F)) :
    (expired l).Sublist (l.map Entry.callback) :=
  List.Sublist.map _ List.filter_sublist

end Pending

/-! ## Runs and their history -/

inductive Op (H : Type u) where
  | add (handle : H) (timeout : Nat)
  | del (handle : H)
  | tick
  deriving DecidableEq, Repr

/-- The pending timers and what the run has done so far.  Timer `k` is the one
the `k`-th `add` made; `due[k]` is the number of the tick it falls due in, and
`fired[i]` is what tick `i` fired. -/
structure State (H : Type u) where
  pending : List (Entry H Nat)
  due : List Nat
  deleted : List Nat
  fired : List (List Nat)
  deriving DecidableEq, Repr

namespace State

variable {H : Type u} [DecidableEq H]

def empty : State H := ⟨[], [], [], []⟩

def step (s : State H) : Op H → State H
  | .add handle timeout =>
      { s with
        pending := add s.pending handle s.due.length timeout
        due := s.due ++ [s.fired.length + timeout] }
  | .del handle =>
      { s with
        pending := del s.pending handle
        deleted := s.deleted ++
          (s.pending.filter fun e => e.handle = handle).map Entry.callback }
  | .tick => { s with pending := tick s.pending, fired := s.fired ++ [expired s.pending] }

def exec (s : State H) (ops : List (Op H)) : State H := ops.foldl step s

@[simp] theorem exec_nil (s : State H) : s.exec [] = s := rfl

@[simp] theorem exec_cons (s : State H) (op : Op H) (ops : List (Op H)) :
    s.exec (op :: ops) = (s.step op).exec ops := rfl

@[simp] theorem exec_append (s : State H) (a b : List (Op H)) :
    s.exec (a ++ b) = (s.exec a).exec b := by
  simp [exec, List.foldl_append]

/-- What every run keeps.  The pending timers stand in the order of their
numbers, each the right number of ticks away from the tick it is due in; a timer
that fired did so in that tick; and no timer is lost. -/
structure Scheduled (s : State H) : Prop where
  ordered : (s.pending.map Entry.callback).Pairwise (· < ·)
  waiting : ∀ e ∈ s.pending, s.due[e.callback]? = some (s.fired.length + e.remaining)
  kept : ∀ e ∈ s.pending, e.callback ∉ s.deleted
  known : ∀ k ∈ s.deleted, k < s.due.length
  inOrder : ∀ fs ∈ s.fired, fs.Pairwise (· < ·)
  onTime : ∀ (i : Nat) fs, s.fired[i]? = some fs → ∀ k ∈ fs, s.due[k]? = some i
  uncancelled : ∀ fs ∈ s.fired, ∀ k ∈ fs, k ∉ s.deleted
  settled : ∀ k d : Nat, s.due[k]? = some d →
    k ∈ s.deleted ∨ (∃ e ∈ s.pending, e.callback = k) ∨ ∃ fs, s.fired[d]? = some fs ∧ k ∈ fs

theorem empty_scheduled : (empty : State H).Scheduled := by
  constructor <;> simp [empty]

namespace Scheduled

variable {s : State H}

theorem callback_lt (sched : s.Scheduled) {e : Entry H Nat} (member : e ∈ s.pending) :
    e.callback < s.due.length :=
  (List.getElem?_eq_some_iff.mp (sched.waiting e member)).1

theorem add (sched : s.Scheduled) (handle : H) (timeout : Nat) :
    (s.step (.add handle timeout)).Scheduled := by
  have old : ∀ k d : Nat, s.due[k]? = some d →
      (s.due ++ [s.fired.length + timeout])[k]? = some d := by
    intro k d found
    rw [List.getElem?_append_left (List.getElem?_eq_some_iff.mp found).1, found]
  constructor
  · simp only [step, Countdown.add, List.map_append, List.map_cons, List.map_nil,
      List.pairwise_append]
    refine ⟨sched.ordered, List.pairwise_singleton _ _, ?_⟩
    intro a member b last
    obtain ⟨e, inside, rfl⟩ := List.mem_map.mp member
    rw [List.mem_singleton.mp last]
    exact sched.callback_lt inside
  · intro e member
    simp only [step, Countdown.add, List.mem_append, List.mem_singleton] at member
    rcases member with member | rfl
    · exact old _ _ (sched.waiting e member)
    · simp [step]
  · intro e member
    simp only [step, Countdown.add, List.mem_append, List.mem_singleton] at member
    rcases member with member | rfl
    · exact sched.kept e member
    · exact fun gone => absurd (sched.known _ gone) (Nat.lt_irrefl _)
  · intro k gone
    have := sched.known k gone
    simp only [step, List.length_append, List.length_singleton]
    omega
  · exact sched.inOrder
  · exact fun i fs found k inside => old k i (sched.onTime i fs found k inside)
  · exact sched.uncancelled
  · intro k d found
    simp only [step, Countdown.add] at found ⊢
    rw [List.getElem?_append] at found
    split at found
    · rcases sched.settled k d found with gone | ⟨e, member, rfl⟩ | fires
      · exact Or.inl gone
      · exact Or.inr (Or.inl ⟨e, by simp [member], rfl⟩)
      · exact Or.inr (Or.inr fires)
    · rename_i fresh
      have last : k = s.due.length := by
        have := (List.getElem?_eq_some_iff.mp found).1
        simp only [List.length_singleton] at this
        omega
      exact Or.inr (Or.inl ⟨⟨handle, s.due.length, timeout⟩, by simp, last.symm⟩)

theorem del (sched : s.Scheduled) (handle : H) : (s.step (.del handle)).Scheduled := by
  have unique : ∀ e ∈ s.pending, ∀ e' ∈ s.pending, e.callback = e'.callback → e = e' := by
    have distinct : (s.pending.map Entry.callback).Nodup := sched.ordered.imp Nat.ne_of_lt
    exact fun e member e' member' same => List.inj_on_of_nodup_map distinct member member' same
  constructor
  · exact sched.ordered.sublist (List.Sublist.map _ List.filter_sublist)
  · exact fun e member => sched.waiting e (mem_del.mp member).1
  · intro e member
    obtain ⟨inside, other⟩ := mem_del.mp member
    simp only [step, List.mem_append, List.mem_map, List.mem_filter, decide_eq_true_eq]
    rintro (gone | ⟨e', ⟨inside', named⟩, same⟩)
    · exact sched.kept e inside gone
    · exact other (unique e' inside' e inside same ▸ named)
  · intro k gone
    simp only [step, List.mem_append, List.mem_map, List.mem_filter, decide_eq_true_eq] at gone
    rcases gone with gone | ⟨e, ⟨inside, -⟩, rfl⟩
    · exact sched.known k gone
    · exact sched.callback_lt inside
  · exact sched.inOrder
  · exact sched.onTime
  · intro fs member k inside gone
    simp only [step, List.mem_append, List.mem_map, List.mem_filter, decide_eq_true_eq] at gone
    rcases gone with gone | ⟨e, ⟨pending, -⟩, rfl⟩
    · exact sched.uncancelled fs member k inside gone
    · -- a pending timer is due in a tick that is still to come
      obtain ⟨i, found⟩ := List.getElem?_of_mem member
      have due := (sched.waiting e pending).symm.trans (sched.onTime i fs found _ inside)
      have early : i < s.fired.length := (List.getElem?_eq_some_iff.mp found).1
      have := Option.some.inj due
      omega
  · intro k d found
    rcases sched.settled k d found with gone | ⟨e, member, rfl⟩ | fires
    · exact Or.inl (List.mem_append_left _ gone)
    · by_cases named : e.handle = handle
      · exact Or.inl (List.mem_append_right _
          (List.mem_map.mpr ⟨e, List.mem_filter.mpr ⟨member, by simpa using named⟩, rfl⟩))
      · exact Or.inr (Or.inl ⟨e, mem_del.mpr ⟨member, named⟩, rfl⟩)
    · exact Or.inr (Or.inr fires)

theorem tick (sched : s.Scheduled) : (s.step .tick).Scheduled := by
  have later : ∀ (i : Nat) fs, s.fired[i]? = some fs →
      (s.fired ++ [expired s.pending])[i]? = some fs := by
    intro i fs found
    rw [List.getElem?_append_left (List.getElem?_eq_some_iff.mp found).1, found]
  have now : (s.fired ++ [expired s.pending])[s.fired.length]? = some (expired s.pending) := by
    simp
  constructor
  · exact sched.ordered.sublist (tick_callbacks_sublist _)
  · intro e member
    obtain ⟨e', inside, waits, rfl⟩ := mem_tick.mp member
    have := sched.waiting e' inside
    simp only [step, Entry.elapse_callback, Entry.elapse_remaining, List.length_append,
      List.length_singleton, this, Option.some.injEq]
    omega
  · intro e member
    obtain ⟨e', inside, -, rfl⟩ := mem_tick.mp member
    exact sched.kept e' inside
  · exact sched.known
  · intro fs member
    simp only [step, List.mem_append, List.mem_singleton] at member
    rcases member with member | rfl
    · exact sched.inOrder fs member
    · exact sched.ordered.sublist (expired_sublist _)
  · intro i fs found k inside
    simp only [step] at found
    rw [List.getElem?_append] at found
    split at found
    · exact sched.onTime i fs found k inside
    · rename_i fresh
      obtain ⟨bound, rfl⟩ := List.getElem?_eq_some_iff.mp found
      simp only [List.length_singleton] at bound
      have last : i = s.fired.length := by omega
      simp only [List.getElem_singleton] at inside
      obtain ⟨e, member, zero, rfl⟩ := mem_expired.mp inside
      simpa [State.step, zero, last] using sched.waiting e member
  · intro fs member k inside
    simp only [step, List.mem_append, List.mem_singleton] at member
    rcases member with member | rfl
    · exact sched.uncancelled fs member k inside
    · obtain ⟨e, pending, -, rfl⟩ := mem_expired.mp inside
      exact sched.kept e pending
  · intro k d found
    rcases sched.settled k d found with gone | ⟨e, member, rfl⟩ | ⟨fs, fires, inside⟩
    · exact Or.inl gone
    · have due := Option.some.inj ((sched.waiting e member).symm.trans found)
      by_cases zero : e.remaining = 0
      · have here : d = s.fired.length := by omega
        exact Or.inr (Or.inr ⟨_, here ▸ now, mem_expired.mpr ⟨e, member, zero, rfl⟩⟩)
      · exact Or.inr (Or.inl ⟨e.elapse, mem_tick.mpr ⟨e, member, zero, rfl⟩, rfl⟩)
    · exact Or.inr (Or.inr ⟨fs, later d fs fires, inside⟩)

theorem step (sched : s.Scheduled) (op : Op H) : (s.step op).Scheduled := by
  cases op with
  | add handle timeout => exact sched.add handle timeout
  | del handle => exact sched.del handle
  | tick => exact sched.tick

/-- **A timer that is not cancelled fires in the tick it is due in**, exactly
once, and in no other. -/
theorem count_fired (sched : s.Scheduled) {k d : Nat} (due : s.due[k]? = some d)
    (uncancelled : k ∉ s.deleted) (i : Nat) :
    (s.fired.getD i []).count k = if i = d ∧ i < s.fired.length then 1 else 0 := by
  rw [List.getD_eq_getElem?_getD]
  cases found : s.fired[i]? with
  | none =>
      have := List.getElem?_eq_none_iff.mp found
      rw [if_neg (by omega)]
      rfl
  | some fs =>
      have bound := (List.getElem?_eq_some_iff.mp found).1
      have distinct : fs.Nodup :=
        (sched.inOrder fs (List.mem_of_getElem? found)).imp Nat.ne_of_lt
      by_cases here : i = d
      · subst here
        have inside : k ∈ fs := by
          rcases sched.settled k i due with gone | ⟨e, member, rfl⟩ | ⟨fs', fires, inside⟩
          · exact absurd gone uncancelled
          · have := Option.some.inj ((sched.waiting e member).symm.trans due)
            omega
          · rwa [← Option.some.inj (fires.symm.trans found)]
        simp [bound, List.count_eq_one_of_mem distinct inside]
      · have outside : k ∉ fs := by
          intro inside
          exact here (Option.some.inj ((sched.onTime i fs found k inside).symm.trans due))
        simp [here, List.count_eq_zero_of_not_mem outside]

theorem fired_disjoint (sched : s.Scheduled) : s.fired.flatten.Nodup := by
  rw [List.nodup_flatten]
  refine ⟨fun fs member => (sched.inOrder fs member).imp Nat.ne_of_lt, ?_⟩
  rw [List.pairwise_iff_getElem]
  intro i j boundI boundJ before k inI inJ
  have dueI := sched.onTime i _ (List.getElem?_eq_getElem boundI) k inI
  have dueJ := sched.onTime j _ (List.getElem?_eq_getElem boundJ) k inJ
  exact Nat.ne_of_lt before (Option.some.inj (dueI.symm.trans dueJ))

/-- A timer whose tick has gone by and that was not cancelled has fired once. -/
theorem count_flatten (sched : s.Scheduled) {k d : Nat} (due : s.due[k]? = some d)
    (uncancelled : k ∉ s.deleted) (past : d < s.fired.length) : s.fired.flatten.count k = 1 := by
  have once := sched.count_fired due uncancelled d
  rw [if_pos ⟨rfl, past⟩, List.getD_eq_getElem?_getD, List.getElem?_eq_getElem past] at once
  have inside : k ∈ s.fired[d] := by
    apply List.count_pos_iff.mp
    rw [Option.getD_some] at once
    omega
  exact List.count_eq_one_of_mem sched.fired_disjoint
    (List.mem_flatten.mpr ⟨_, List.getElem_mem past, inside⟩)

end Scheduled

/-! ## When a timer is due -/

/-- Ticks among `ops`. -/
def ticks : List (Op H) → Nat
  | [] => 0
  | .tick :: ops => ticks ops + 1
  | _ :: ops => ticks ops

/-- Timers added by `ops`. -/
def adds : List (Op H) → Nat
  | [] => 0
  | .add _ _ :: ops => adds ops + 1
  | _ :: ops => adds ops

theorem exec_fired_length (s : State H) (ops : List (Op H)) :
    (s.exec ops).fired.length = s.fired.length + ticks ops := by
  induction ops generalizing s with
  | nil => rfl
  | cons op rest ih => cases op <;> (simp [ih, step, ticks]; try omega)

theorem exec_due_length (s : State H) (ops : List (Op H)) :
    (s.exec ops).due.length = s.due.length + adds ops := by
  induction ops generalizing s with
  | nil => rfl
  | cons op rest ih => cases op <;> (simp [ih, step, adds]; try omega)

theorem exec_due_prefix (s : State H) (ops : List (Op H)) : s.due <+: (s.exec ops).due := by
  induction ops generalizing s with
  | nil => exact List.prefix_rfl
  | cons op rest ih =>
      refine List.IsPrefix.trans ?_ (ih (s.step op))
      cases op with
      | add handle timeout => exact List.prefix_append _ _
      | del handle => exact List.prefix_rfl
      | tick => exact List.prefix_rfl

theorem exec_ticks (s : State H) (n : Nat) :
    (s.exec (List.replicate n .tick)).due = s.due ∧
      (s.exec (List.replicate n .tick)).deleted = s.deleted ∧
      (s.exec (List.replicate n .tick)).fired.length = s.fired.length + n := by
  induction n generalizing s with
  | zero => exact ⟨rfl, rfl, rfl⟩
  | succ n ih =>
      obtain ⟨due, deleted, length⟩ := ih (s.step .tick)
      refine ⟨due, deleted, ?_⟩
      rw [List.replicate_succ, exec_cons, length]
      simp only [step, List.length_append, List.length_singleton]
      omega

/-- **The tick a timer is due in** is the one `timeout` ticks after the next. -/
theorem exec_due (before after : List (Op H)) (handle : H) (timeout : Nat) :
    ((empty : State H).exec (before ++ .add handle timeout :: after)).due[adds before]? =
      some (ticks before + timeout) := by
  rw [exec_append, exec_cons]
  have born : (((empty : State H).exec before).step (.add handle timeout)).due[adds before]? =
      some (ticks before + timeout) := by
    have length := exec_due_length (empty : State H) before
    have elapsed := exec_fired_length (empty : State H) before
    simp only [empty, List.length_nil, Nat.zero_add] at length elapsed
    simp [step, ← length, empty, elapsed]
  obtain ⟨rest, split⟩ :=
    exec_due_prefix (((empty : State H).exec before).step (.add handle timeout)) after
  rw [← split, List.getElem?_append_left (List.getElem?_eq_some_iff.mp born).1, born]

end State

/-! ## Callbacks that add timers -/

section Again

variable {F : Type v}

/-- The callbacks a tick fires, of timers given by callback and ticks to wait. -/
def dueNow (l : List (F × Nat)) : List F := (l.filter fun e => e.2 = 0).map Prod.fst

/-- A tick, when the callback `f` adds the timers `again f`. -/
def tickAgain (again : F → List (F × Nat)) (l : List (F × Nat)) : List (F × Nat) :=
  (l.filter fun e => e.2 ≠ 0).map (fun e => (e.1, e.2 - 1)) ++
    (dueNow l).flatMap fun f => (again f).map fun e => (e.1, e.2 - 1)

/-- What `cnt` ticks fire, and what is pending then. -/
def ticksAgain (again : F → List (F × Nat)) : (cnt : Nat) → List (F × Nat) →
    List (List F) × List (F × Nat)
  | 0, l => ([], l)
  | cnt + 1, l =>
      (dueNow l :: (ticksAgain again cnt (tickAgain again l)).1,
        (ticksAgain again cnt (tickAgain again l)).2)

/-- Every callback adds itself, with its period. -/
def repeating (period : F → Nat) (f : F) : List (F × Nat) := [(f, period f)]

variable {period : F → Nat} {l : List (F × Nat)}

theorem mem_tickAgain_repeating {f : F} {r : Nat} (member : (f, r) ∈ l) :
    (f, (if r = 0 then period f else r) - 1) ∈ tickAgain (repeating period) l := by
  rw [tickAgain, List.mem_append]
  by_cases due : r = 0
  · subst due
    refine Or.inr (List.mem_flatMap.mpr ⟨f, ?_, ?_⟩)
    · exact List.mem_map.mpr ⟨(f, 0), List.mem_filter.mpr ⟨member, rfl⟩, rfl⟩
    · exact List.mem_singleton_self _
  · rw [if_neg due]
    exact Or.inl (List.mem_map.mpr ⟨(f, r), List.mem_filter.mpr ⟨member, by simpa using due⟩, rfl⟩)

/-- The callbacks stay the same, in another order. -/
theorem tickAgain_repeating_perm (l : List (F × Nat)) :
    ((tickAgain (repeating period) l).map Prod.fst).Perm (l.map Prod.fst) := by
  have added : ((dueNow l).flatMap fun f => (repeating period f).map fun e => (e.1, e.2 - 1)).map
      Prod.fst = (l.filter fun e => e.2 = 0).map Prod.fst := by
    rw [List.map_flatMap]
    simp [repeating, dueNow, List.flatMap_singleton']
  have kept : ((l.filter fun e => e.2 ≠ 0).map fun e => (e.1, e.2 - 1)).map Prod.fst =
      (l.filter fun e => e.2 ≠ 0).map Prod.fst := by
    simp [Function.comp_def]
  rw [tickAgain, List.map_append, added, kept, ← List.map_append]
  refine List.Perm.map _ (List.perm_append_comm.trans ?_)
  simpa using List.filter_append_perm (fun e : F × Nat => decide (e.2 = 0)) l

theorem count_dueNow [DecidableEq F] (distinct : (l.map Prod.fst).Nodup) {f : F} {r : Nat}
    (member : (f, r) ∈ l) : (dueNow l).count f = if r = 0 then 1 else 0 := by
  split
  · rename_i due
    subst due
    refine List.count_eq_one_of_mem (distinct.sublist (List.filter_sublist.map _)) ?_
    exact List.mem_map.mpr ⟨(f, 0), List.mem_filter.mpr ⟨member, rfl⟩, rfl⟩
  · rename_i waits
    refine List.count_eq_zero.mpr fun fires => ?_
    obtain ⟨⟨g, q⟩, inside, rfl⟩ := List.mem_map.mp fires
    obtain ⟨here, due⟩ := List.mem_filter.mp inside
    have same := List.inj_on_of_nodup_map distinct here member rfl
    exact waits ((Prod.mk.inj same).2 ▸ of_decide_eq_true due)

/-- The next time is the same time, one tick later. -/
theorem due_succ_iff {p r i : Nat} (pos : 0 < p) :
    ((if r = 0 then p else r) - 1 ≤ i ∧ p ∣ i - ((if r = 0 then p else r) - 1)) ↔
      (r ≤ i + 1 ∧ p ∣ i + 1 - r) := by
  by_cases due : r = 0
  · subst due
    rw [if_pos rfl, Nat.sub_zero]
    constructor
    · rintro ⟨late, whole⟩
      refine ⟨Nat.zero_le _, ?_⟩
      rw [show i + 1 = i - (p - 1) + p by omega]
      exact Nat.dvd_add whole (Nat.dvd_refl p)
    · rintro ⟨-, whole⟩
      have late := Nat.le_of_dvd (Nat.succ_pos i) whole
      refine ⟨by omega, ?_⟩
      rw [show i - (p - 1) = i + 1 - p by omega]
      exact Nat.dvd_sub whole (Nat.dvd_refl p)
  · rw [if_neg due, show i - (r - 1) = i + 1 - r by omega]
    exact and_congr_left fun _ => by omega

/-- **A repeating timer keeps its period**: it fires in the tick it is due in and in those whole
periods later, once in each, and in no other. -/
theorem count_ticksAgain [DecidableEq F] (pos : ∀ f, 0 < period f) (cnt : Nat)
    (distinct : (l.map Prod.fst).Nodup) {f : F} {r : Nat} (member : (f, r) ∈ l) {i : Nat}
    (inside : i < cnt) :
    ((ticksAgain (repeating period) cnt l).1.getD i []).count f =
      if r ≤ i ∧ period f ∣ i - r then 1 else 0 := by
  induction cnt generalizing l r i with
  | zero => cases inside
  | succ cnt ih =>
      cases i with
      | zero =>
          have now : (r ≤ 0 ∧ period f ∣ 0 - r) ↔ r = 0 := by simp
          simp only [now]
          exact count_dueNow distinct member
      | succ i =>
          have next : (f, (if r = 0 then period f else r) - 1) ∈ tickAgain (repeating period) l :=
            mem_tickAgain_repeating member
          have later := ih ((tickAgain_repeating_perm l).nodup_iff.mpr distinct) next
            (Nat.lt_of_succ_lt_succ inside)
          simp only [due_succ_iff (pos f)] at later
          exact later

end Again

end Codesnip.Theory.Countdown
