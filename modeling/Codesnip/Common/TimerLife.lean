/-
# Common.TimerLife -- the life of a `Timer` object

The wheel creates its timers in `AddTimer` and deletes them in `Tick`, once they have
fired, and in the destructor.  A timer is known by its number: the `k`-th `AddTimer`
registers the callback `k`, and `handles` has the pointer it returned.  The object is
alive as long as the heap has the callback `k` at that pointer (`live`), whatever
came to stand there after it; `freed` records whose objects each call deleted.

Callbacks leave the wheel alone here, `new` answers with an address at which nothing
is alive, and `DelTimer` may get any pointer an `AddTimer` has returned, of a timer
pending, fired or deleted.  `DelTimer` takes a timer out of its slot and nobody
deletes it any more (`freed_once_iff`), and it dereferences a pointer whose object
may have been deleted by `Tick` (`delTimer_safe_iff`).
-/
import Codesnip.Common.TimerTurns
import Codesnip.Theory.Transition

namespace Codesnip.Common.Timer

open Codesnip.Theory.Word
open Codesnip.Theory.Transition (System)

set_option autoImplicit false
set_option linter.dupNamespace false

/-- `DelTimer k` gets the pointer that the `k`-th `AddTimer` returned. -/
inductive LifeCall where
  | AddTimer (p : Addr) (timeout : UInt64)
  | DelTimer (k : Nat)
  | Tick
  deriving DecidableEq, Repr

structure Life where
  wheel : TimeWheel Nat
  handles : List (Option Addr)
  freed : List Nat

namespace Life

def start (nslots : Int32) (now : UInt64) : Life := ⟨.new nslots now, [], []⟩

/-- The pointer of timer `k`. -/
def handle (l : Life) (k : Nat) : Option Addr := l.handles.getD k none

/-- The object of timer `k` is alive. -/
def Live (l : Life) (k : Nat) : Prop :=
  ∃ p t, l.handle k = some p ∧ l.wheel.heap p = some t ∧ t.func_ = k

instance (l : Life) (k : Nat) : Decidable (l.Live k) :=
  match pointer : l.handle k with
  | none => isFalse (by simp [Live, pointer])
  | some p =>
      match object : l.wheel.heap p with
      | none => isFalse (by simp [Live, pointer, object])
      | some t => decidable_of_iff (t.func_ = k) (by simp [Live, pointer, object])

/-- Timer `k` stands in a slot. -/
def Waits (l : Life) (k : Nat) : Prop :=
  l.Live k ∧ ∃ p, l.handle k = some p ∧ l.wheel.Pending p

instance (l : Life) (k : Nat) : Decidable (l.Waits k) :=
  match pointer : l.handle k with
  | none => isFalse (by simp [Waits, Live, pointer])
  | some p => decidable_of_iff (l.Live k ∧ l.wheel.Pending p) (by simp [Waits, pointer])

/-- A call that leaves the wheel `wheel`, and the objects it deleted. -/
def next (l : Life) (wheel : TimeWheel Nat) : Life :=
  { l with
    wheel
    freed := l.freed ++
      (List.range l.handles.length).filter fun k => l.Live k ∧ ¬ { l with wheel }.Live k }

def call (l : Life) : LifeCall → Except Fault Life
  | .AddTimer p timeout => do
    let (timer, wheel) ← l.wheel.AddTimer p timeout l.handles.length
    .ok { l.next wheel with handles := l.handles ++ [timer] }
  | .DelTimer k => do
    let wheel ← l.wheel.DelTimer (l.handle k)
    .ok (l.next wheel)
  | .Tick => do
    let (_, wheel) ← l.wheel.Tick quiet
    .ok (l.next wheel)

/-- The wheel's end. -/
def finish (l : Life) : Except Fault Life := do
  let wheel ← l.wheel.destroy
  .ok (l.next wheel)

/-- What the caller owes. -/
def Admissible (l : Life) : LifeCall → Prop
  | .AddTimer p _ => l.wheel.heap p = none
  | .DelTimer k => k < l.handles.length
  | .Tick => True

instance (l : Life) (c : LifeCall) : Decidable (l.Admissible c) := by
  cases c <;> unfold Admissible <;> infer_instance

end Life

/-- A call that faults has no next state. -/
def life : System Life LifeCall :=
  { Init := fun l => ∃ nslots now, 0 < nslots ∧ l = .start nslots now
    step := fun l c => (l.call c).toOption }

namespace Life

variable {l : Life} {k : Nat} {p : Addr}

/-! ## What every run keeps -/

/-- Every object names a slot and carries the number whose pointer leads to it, and
the objects deleted are those of the numbers given out and not alive. -/
structure Kept (l : Life) : Prop where
  placed : l.wheel.Placed
  known : ∀ p t, l.wheel.heap p = some t → l.wheel.Known p
  own : ∀ p t, l.wheel.heap p = some t → l.handle t.func_ = some p
  pointers : ∀ k, k < l.handles.length → ∃ p, l.handle k = some p
  freed : ∀ k, l.freed.count k = if k < l.handles.length ∧ ¬ l.Live k then 1 else 0

theorem lt_of_handle (pointer : l.handle k = some p) : k < l.handles.length := by
  by_contra outside
  rw [handle, List.getD_eq_getElem?_getD, List.getElem?_eq_none (Nat.le_of_not_lt outside)]
    at pointer
  cases pointer

theorem Live.lt (live : l.Live k) : k < l.handles.length := by
  obtain ⟨p, -, pointer, -⟩ := live
  exact lt_of_handle pointer

theorem start_kept {nslots : Int32} (pos : 0 < nslots) (now : UInt64) :
    (start nslots now).Kept := by
  have positive : 0 < nslots.toInt := by simpa [Int32.lt_iff_toInt_lt] using pos
  refine ⟨TimeWheel.new_placed positive now, ?_, ?_, ?_, ?_⟩ <;>
    simp [start, TimeWheel.new]

theorem count_filter_range (n k : Nat) (keep : Nat → Prop) [DecidablePred keep] :
    ((List.range n).filter fun k => keep k).count k = if k < n ∧ keep k then 1 else 0 := by
  rw [(List.nodup_range.filter _).count]
  simp

/-- A call that makes no object is charged with those it deletes. -/
theorem Kept.next_freed (kept : l.Kept) {wheel : TimeWheel Nat}
    (old : ∀ p t, wheel.heap p = some t →
      ∃ t', l.wheel.heap p = some t' ∧ t'.func_ = t.func_) (k : Nat) :
    (l.next wheel).freed.count k =
      if k < l.handles.length ∧ ¬ ({ l with wheel } : Life).Live k then 1 else 0 := by
  have mono : ({ l with wheel } : Life).Live k → l.Live k := by
    rintro ⟨p, t, pointer, alive, rfl⟩
    obtain ⟨t', object, same⟩ := old p t alive
    exact ⟨p, t', pointer, object, same⟩
  show (l.freed ++ _).count k = _
  rw [List.count_append, kept.freed, count_filter_range]
  by_cases after : ({ l with wheel } : Life).Live k
  · simp [after, mono after]
  · by_cases live : l.Live k <;> simp [after, live]

theorem Kept.next (kept : l.Kept) {wheel : TimeWheel Nat} (placed : wheel.Placed)
    (known : ∀ p t, wheel.heap p = some t → wheel.Known p)
    (old : ∀ p t, wheel.heap p = some t →
      ∃ t', l.wheel.heap p = some t' ∧ t'.func_ = t.func_) :
    (l.next wheel).Kept := by
  refine ⟨placed, known, ?_, kept.pointers, kept.next_freed old⟩
  intro p t alive
  obtain ⟨t', before, same⟩ := old p t alive
  rw [← same]
  exact kept.own p t' before

/-! ## The calls -/

@[simp] theorem next_wheel (l : Life) (wheel : TimeWheel Nat) : (l.next wheel).wheel = wheel := rfl

section Born

/-- The state after `AddTimer`. -/
def born (l : Life) (p : Addr) (timeout : UInt64) : Life :=
  { l.next (l.wheel.filed p timeout l.handles.length) with handles := l.handles ++ [some p] }

variable (l p) (timeout : UInt64)

theorem born_handle_old (old : k < l.handles.length) :
    (l.born p timeout).handle k = l.handle k := by
  show (l.handles ++ [some p]).getD k none = l.handles.getD k none
  rw [List.getD_eq_getElem?_getD, List.getElem?_append_left old, ← List.getD_eq_getElem?_getD]

theorem born_handle_new : (l.born p timeout).handle l.handles.length = some p := by
  show (l.handles ++ [some p]).getD _ none = some p
  simp

theorem born_heap_ne {q : Addr} (other : q ≠ p) :
    (l.born p timeout).wheel.heap q = l.wheel.heap q :=
  Function.update_of_ne other _ _

theorem born_heap_self {t : Timer Nat} (alive : (l.born p timeout).wheel.heap p = some t) :
    t.func_ = l.handles.length := by
  rw [← Option.some.inj ((Function.update_self p _ l.wheel.heap).symm.trans alive)]

theorem born_live_new : (l.born p timeout).Live l.handles.length :=
  ⟨p, _, born_handle_new l p timeout, Function.update_self p _ l.wheel.heap, rfl⟩

variable {l p}

/-- What was alive stands elsewhere. -/
theorem born_alive (fresh : l.wheel.heap p = none) {q : Addr} {t : Timer Nat}
    (alive : l.wheel.heap q = some t) : (l.born p timeout).wheel.heap q = some t := by
  rw [born_heap_ne, alive]
  rintro rfl
  rw [fresh] at alive
  cases alive

theorem born_live_old (fresh : l.wheel.heap p = none) (old : k < l.handles.length) :
    (l.born p timeout).Live k ↔ l.Live k := by
  constructor
  · rintro ⟨q, t, pointer, alive, rfl⟩
    rw [born_handle_old l p timeout old] at pointer
    have other : q ≠ p := by
      rintro rfl
      have := born_heap_self l q timeout alive
      omega
    rw [born_heap_ne l p timeout other] at alive
    exact ⟨q, t, pointer, alive, rfl⟩
  · rintro ⟨q, t, pointer, alive, rfl⟩
    exact ⟨q, t, (born_handle_old l p timeout old).trans pointer,
      born_alive timeout fresh alive, rfl⟩

theorem born_freed (fresh : l.wheel.heap p = none) : (l.born p timeout).freed = l.freed := by
  show l.freed ++ (List.range l.handles.length).filter _ = l.freed
  rw [List.filter_eq_nil_iff.mpr, List.append_nil]
  intro k _ dies
  obtain ⟨⟨q, t, pointer, alive, same⟩, dead⟩ := of_decide_eq_true dies
  exact dead ⟨q, t, pointer, born_alive timeout fresh alive, same⟩

theorem Kept.born (kept : l.Kept) (fresh : l.wheel.heap p = none) : (l.born p timeout).Kept := by
  have placed : (l.born p timeout).wheel.Placed := kept.placed.filed fresh timeout _
  refine ⟨placed, ?_, ?_, ?_, ?_⟩
  · intro q t alive
    by_cases same : q = p
    · subst same
      exact placed.known ((TimeWheel.pending_filed kept.placed.toSized q timeout _).mpr (.inr rfl))
    · rw [born_heap_ne l p timeout same] at alive
      obtain ⟨u, here, range⟩ := kept.known q t alive
      exact ⟨u, born_alive timeout fresh here, range⟩
  · intro q t alive
    by_cases same : q = p
    · subst same
      rw [born_heap_self l q timeout alive]
      exact born_handle_new l q timeout
    · rw [born_heap_ne l p timeout same] at alive
      have pointer := kept.own q t alive
      rw [born_handle_old l p timeout (lt_of_handle pointer), pointer]
  · intro k bound
    have bound : k < l.handles.length + 1 := by simpa [Life.born] using bound
    rcases Nat.lt_succ_iff_lt_or_eq.mp bound with old | rfl
    · rw [born_handle_old l p timeout old]
      exact kept.pointers k old
    · exact ⟨p, born_handle_new l p timeout⟩
  · intro k
    have size : (l.born p timeout).handles.length = l.handles.length + 1 := by simp [Life.born]
    rw [born_freed timeout fresh, kept.freed, size]
    rcases Nat.lt_trichotomy k l.handles.length with old | rfl | beyond
    · simp [old, Nat.lt_succ_of_lt old, born_live_old timeout fresh old]
    · simp [born_live_new l p timeout]
    · have out : ¬ k < l.handles.length ∧ ¬ k < l.handles.length + 1 := by omega
      simp [out.1, out.2]

end Born

theorem Kept.addTimer (kept : l.Kept) (timeout : UInt64) :
    l.call (.AddTimer p timeout) = .ok (l.born p timeout) := by
  rw [call, kept.placed.toSized.addTimer]
  rfl

/-- `DelTimer` of a pointer behind which something is alive. -/
theorem Kept.delTimer (kept : l.Kept) {t : Timer Nat} (pointer : l.handle k = some p)
    (alive : l.wheel.heap p = some t) :
    l.call (.DelTimer k) = .ok (l.next (l.wheel.without [p])) ∧
      (l.next (l.wheel.without [p])).Kept := by
  constructor
  · rw [call, pointer, kept.placed.delTimer (kept.known p t alive)]
    rfl
  · exact kept.next (kept.placed.without [p]) kept.known fun q u here => ⟨u, here, rfl⟩

/-- `DelTimer` of a pointer behind which nothing is alive. -/
theorem call_delTimer_dead (pointer : l.handle k = some p) (dead : l.wheel.heap p = none) :
    l.call (.DelTimer k) = .error .deadTimer := by
  rw [call, pointer, TimeWheel.DelTimer, TimeWheel.deref, dead]
  rfl

theorem Kept.tick (kept : l.Kept) : ∃ wheel : TimeWheel Nat,
    l.call .Tick = .ok (l.next wheel.advance) ∧ (l.next wheel.advance).Kept ∧
      TimeWheel.Looped quiet [] l.wheel.row (l.wheel.called quiet) l.wheel wheel := by
  obtain ⟨wheel, run, looped⟩ := kept.placed.tick_quiet
  have objects : ∀ pt ∈ l.wheel.row, l.wheel.heap pt.1 = some pt.2 :=
    fun pt member => TimeWheel.row_objects member
  have old : ∀ p t, wheel.heap p = some t →
      ∃ u, l.wheel.heap p = some u ∧ t.slot_ = u.slot_ ∧ t.func_ = u.func_ :=
    fun p t alive => looped.origin objects alive
  refine ⟨wheel, by rw [call, run]; rfl, ?_, looped⟩
  refine kept.next looped.placed.advance ?_ ?_
  · intro p t alive
    obtain ⟨u, before, slot, -⟩ := old p t alive
    obtain ⟨u', same, range⟩ := kept.known p u before
    rw [before] at same
    cases same
    refine ⟨t, alive, ?_⟩
    have size : wheel.advance.nslots = l.wheel.nslots :=
      congrArg (fun n : Int32 => n.toInt.toNat) looped.size
    rw [slot, size]
    exact range
  · intro p t alive
    obtain ⟨u, before, -, func⟩ := old p t alive
    exact ⟨u, before, func.symm⟩

/-- **Every call that does not fault keeps the account.** -/
theorem Kept.call {l' : Life} (kept : l.Kept) {c : LifeCall} (admissible : l.Admissible c)
    (step : life.step l c = some l') : l'.Kept := by
  replace step : (l.call c).toOption = some l' := step
  cases c with
  | AddTimer p timeout =>
      rw [kept.addTimer] at step
      cases step
      exact kept.born timeout admissible
  | DelTimer k =>
      obtain ⟨p, pointer⟩ := kept.pointers k admissible
      cases here : l.wheel.heap p with
      | none =>
          rw [call_delTimer_dead pointer here] at step
          cases step
      | some t =>
          obtain ⟨run, kept'⟩ := kept.delTimer pointer here
          rw [run] at step
          cases step
          exact kept'
  | Tick =>
      obtain ⟨wheel, run, kept', -⟩ := kept.tick
      rw [run] at step
      cases step
      exact kept'

/-! ## DelTimer on every handle -/

/-- The call ends, and a `DelTimer` takes its timer out of the slots if it stands in
one and changes nothing otherwise. -/
def Safe (l : Life) (c : LifeCall) : Prop :=
  ∃ l', l.call c = .ok l' ∧
    ∀ k, c = .DelTimer k →
      l'.wheel = if l.Waits k then l.wheel.without (l.handle k).toList else l.wheel

/-- `DelTimer k` finds its own object, or another timer's that stands in no slot. -/
def Unspent (l : Life) : LifeCall → Prop
  | .DelTimer k => l.Live k ∨
      ∃ p, l.handle k = some p ∧ l.wheel.heap p ≠ none ∧ ¬ l.wheel.Pending p
  | _ => True

instance (l : Life) (c : LifeCall) : Decidable (l.Unspent c) :=
  match c with
  | .AddTimer _ _ | .Tick => isTrue trivial
  | .DelTimer k =>
      match pointer : l.handle k with
      | none => decidable_of_iff (l.Live k) (by simp [Unspent, pointer])
      | some p =>
          match object : l.wheel.heap p with
          | none => decidable_of_iff (l.Live k) (by simp [Unspent, pointer, object])
          | some _ =>
              decidable_of_iff (l.Live k ∨ ¬ l.wheel.Pending p) (by simp [Unspent, pointer, object])

theorem waits_iff (pointer : l.handle k = some p) : l.Waits k ↔ l.Live k ∧ l.wheel.Pending p := by
  simp [Waits, pointer]

/-- With something alive behind the pointer `DelTimer` ends, and it is at fault exactly
if it takes another timer out. -/
theorem Kept.safe_iff (kept : l.Kept) {t : Timer Nat} (pointer : l.handle k = some p)
    (alive : l.wheel.heap p = some t) :
    l.Safe (.DelTimer k) ↔ (l.wheel.Pending p → l.Live k) := by
  have run := (kept.delTimer pointer alive).1
  have waits := waits_iff pointer
  constructor
  · rintro ⟨l', step, proper⟩ pending
    rw [run] at step
    cases step
    by_contra other
    have same := proper k rfl
    rw [if_neg fun both => other (waits.mp both).1] at same
    have after : (l.wheel.without [p]).Pending p := by
      rwa [← next_wheel l (l.wheel.without [p]), same]
    exact (TimeWheel.pending_without.mp after).2 (by simp)
  · intro mine
    refine ⟨_, run, fun j same => ?_⟩
    cases same
    by_cases pending : l.wheel.Pending p
    · rw [if_pos (waits.mpr ⟨mine pending, pending⟩), pointer]
      rfl
    · rw [if_neg fun both => pending (waits.mp both).2]
      exact TimeWheel.without_of_not_pending pending

theorem Kept.safe_iff_unspent (kept : l.Kept) {c : LifeCall} (admissible : l.Admissible c) :
    l.Safe c ↔ l.Unspent c := by
  cases c with
  | AddTimer p timeout =>
      exact ⟨fun _ => trivial, fun _ => ⟨_, kept.addTimer timeout, fun _ no => by cases no⟩⟩
  | Tick =>
      obtain ⟨wheel, run, -⟩ := kept.tick
      exact ⟨fun _ => trivial, fun _ => ⟨_, run, fun _ no => by cases no⟩⟩
  | DelTimer k =>
      obtain ⟨p, pointer⟩ := kept.pointers k admissible
      cases here : l.wheel.heap p with
      | none =>
          constructor
          · rintro ⟨l', step, -⟩
            rw [call_delTimer_dead pointer here] at step
            cases step
          · rintro (⟨q, t, same, alive, -⟩ | ⟨q, same, alive, -⟩) <;>
              (rw [pointer] at same; cases same; simp [here] at alive)
      | some t =>
          rw [kept.safe_iff pointer here]
          simp only [Unspent, pointer, Option.some.injEq, exists_eq_left', here, ne_eq,
            reduceCtorEq, not_false_eq_true, true_and]
          tauto

theorem Kept.steps_safe_iff (kept : l.Kept) {cs : List LifeCall}
    (legal : life.Steps Admissible l cs) : life.Steps Safe l cs ↔ life.Steps Unspent l cs :=
  System.steps_iff Kept (fun _ _ _ kept admissible step => kept.call admissible step)
    (fun _ _ kept admissible => kept.safe_iff_unspent admissible) kept legal

/-- **`DelTimer` is safe exactly on the handles of live timers**, or of timers whose
address has come to another one that stands in no slot: a run in which `DelTimer`
gets any handle is one of safe calls exactly if every `DelTimer` meets this where it
is made. -/
theorem delTimer_safe_iff {nslots : Int32} (pos : 0 < nslots) (now : UInt64) (cs : List LifeCall)
    (legal : life.Steps Admissible (start nslots now) cs) :
    life.Steps Safe (start nslots now) cs ↔ life.Steps Unspent (start nslots now) cs :=
  (start_kept pos now).steps_safe_iff legal

/-- A timer is deleted twice by its handle, another one is fired and its address used
again. -/
theorem delTimer_safe_iff_twice :
    life.Steps Admissible (start 2 0)
        [.AddTimer 1 5, .DelTimer 0, .DelTimer 0, .AddTimer 2 0, .Tick, .AddTimer 2 1,
          .DelTimer 2] ∧
      life.Steps Safe (start 2 0)
        [.AddTimer 1 5, .DelTimer 0, .DelTimer 0, .AddTimer 2 0, .Tick, .AddTimer 2 1,
          .DelTimer 2] := by
  have legal : life.Steps Admissible (start 2 0)
      [.AddTimer 1 5, .DelTimer 0, .DelTimer 0, .AddTimer 2 0, .Tick, .AddTimer 2 1,
        .DelTimer 2] := by decide +kernel
  exact ⟨legal, (delTimer_safe_iff (by decide) 0 _ legal).mpr (by decide +kernel)⟩

/-- A timer fires and is deleted by its handle after that: the object is gone, or the
one that came to its address is taken out. -/
theorem delTimer_safe_counterexample :
    life.Steps Admissible (start 2 0) [.AddTimer 1 0, .Tick, .DelTimer 0] ∧
      ¬ life.Steps Safe (start 2 0) [.AddTimer 1 0, .Tick, .DelTimer 0] ∧
    life.Steps Admissible (start 2 0) [.AddTimer 1 0, .Tick, .AddTimer 1 7, .DelTimer 0] ∧
      ¬ life.Steps Safe (start 2 0) [.AddTimer 1 0, .Tick, .AddTimer 1 7, .DelTimer 0] := by
  have kept : (start 2 0).Kept := start_kept (by decide) 0
  have gone : life.Steps Admissible (start 2 0) [.AddTimer 1 0, .Tick, .DelTimer 0] := by
    decide +kernel
  have reused : life.Steps Admissible (start 2 0)
      [.AddTimer 1 0, .Tick, .AddTimer 1 7, .DelTimer 0] := by decide +kernel
  refine ⟨gone, fun safe => ?_, reused, fun safe => ?_⟩
  · exact absurd ((kept.steps_safe_iff gone).mp safe) (by decide +kernel)
  · exact absurd ((kept.steps_safe_iff reused).mp safe) (by decide +kernel)

/-! ## Deleting every timer once -/

/-- As before, but `DelTimer` gets timers that stand in a slot. -/
def Cancels (l : Life) : LifeCall → Prop
  | .DelTimer k => l.Waits k
  | c => l.Admissible c

instance (l : Life) (c : LifeCall) : Decidable (l.Cancels c) := by
  cases c <;> unfold Cancels <;> infer_instance

/-- Every live timer stands in a slot. -/
def Owned (l : Life) : Prop := ∀ k, l.Live k → l.Waits k

theorem Kept.owned_born (kept : l.Kept) (fresh : l.wheel.heap p = none) (timeout : UInt64) :
    (l.born p timeout).Owned ↔ l.Owned := by
  have pending := fun q => TimeWheel.pending_filed (q := q) kept.placed.toSized p timeout
    l.handles.length
  constructor
  · intro owned k live
    obtain ⟨-, q, pointer, waits⟩ := owned k ((born_live_old timeout fresh live.lt).mpr live)
    rw [born_handle_old l p timeout live.lt] at pointer
    refine ⟨live, q, pointer, ((pending q).mp waits).resolve_right ?_⟩
    rintro rfl
    obtain ⟨q', t, pointer', alive, -⟩ := live
    rw [pointer] at pointer'
    cases pointer'
    rw [fresh] at alive
    cases alive
  · intro owned k live
    have bound : k < l.handles.length + 1 := by simpa [Life.born] using live.lt
    rcases Nat.lt_succ_iff_lt_or_eq.mp bound with old | rfl
    · obtain ⟨-, q, pointer, waits⟩ := owned k ((born_live_old timeout fresh old).mp live)
      exact ⟨live, q, (born_handle_old l p timeout old).trans pointer, (pending q).mpr (.inl waits)⟩
    · exact ⟨live, p, born_handle_new l p timeout, (pending p).mpr (.inr rfl)⟩

theorem Kept.owned_tick (kept : l.Kept) {wheel : TimeWheel Nat}
    (looped : TimeWheel.Looped quiet [] l.wheel.row (l.wheel.called quiet) l.wheel wheel) :
    (l.next wheel.advance).Owned ↔ l.Owned := by
  have objects : ∀ pt ∈ l.wheel.row, l.wheel.heap pt.1 = some pt.2 :=
    fun pt member => TimeWheel.row_objects member
  constructor
  · intro owned k live
    obtain ⟨p, t, pointer, alive, same⟩ := live
    refine ⟨⟨p, t, pointer, alive, same⟩, p, pointer, ?_⟩
    by_cases fired : p ∈ (l.wheel.called quiet).map TimeWheel.Turn.handle
    · obtain ⟨turn, member, rfl⟩ := List.mem_map.mp fired
      exact kept.placed.called_pending member
    · obtain ⟨t', after, -, func⟩ := looped.object objects alive fired
      obtain ⟨-, q, pointer', waits⟩ := owned k ⟨p, t', pointer, after, func.trans same⟩
      cases pointer.symm.trans pointer'
      exact (looped.pending_iff.mp waits).1
  · rintro owned k ⟨p, t, pointer, alive, same⟩
    have unfired : p ∉ (l.wheel.called quiet).map TimeWheel.Turn.handle := by
      intro fired
      obtain ⟨turn, member, rfl⟩ := List.mem_map.mp fired
      rw [next_wheel, TimeWheel.heap_advance, looped.freed turn member] at alive
      cases alive
    have before : l.Live k := by
      obtain ⟨u, here, -, func⟩ := looped.origin objects alive
      exact ⟨p, u, pointer, here, func.symm.trans same⟩
    obtain ⟨-, q, pointer', waits⟩ := owned k before
    cases pointer.symm.trans pointer'
    exact ⟨⟨p, t, pointer, alive, same⟩, p, pointer,
      looped.pending_iff.mpr ⟨waits, unfired, by simp⟩⟩

/-- A call of a legal run ends, and what it leaves is owned exactly if all was and the
call is no `DelTimer`. -/
theorem Kept.cancels (kept : l.Kept) {c : LifeCall} (cancels : l.Cancels c) :
    ∃ l', life.step l c = some l' ∧ l'.Kept ∧ (l'.Owned ↔ l.Owned ∧ ∀ k, c ≠ .DelTimer k) := by
  cases c with
  | AddTimer p timeout =>
      refine ⟨_, congrArg Except.toOption (kept.addTimer timeout), kept.born timeout cancels, ?_⟩
      simp [kept.owned_born cancels timeout]
  | DelTimer k =>
      obtain ⟨live, p, pointer, waits⟩ := cancels
      obtain ⟨p', t, pointer', alive, same⟩ := live
      cases pointer.symm.trans pointer'
      obtain ⟨run, kept'⟩ := kept.delTimer pointer alive
      refine ⟨_, congrArg Except.toOption run, kept', ⟨fun owned => ?_,
        fun ⟨_, no⟩ => absurd rfl (no k)⟩⟩
      -- the object lives on, out of every slot
      obtain ⟨-, q, again, after⟩ := owned k ⟨p, t, pointer, alive, same⟩
      cases pointer.symm.trans again
      exact absurd (List.mem_singleton_self p) (TimeWheel.pending_without.mp after).2
  | Tick =>
      obtain ⟨wheel, run, kept', looped⟩ := kept.tick
      refine ⟨_, congrArg Except.toOption run, kept', ?_⟩
      simp [kept.owned_tick looped]

theorem Kept.run (kept : l.Kept) {cs : List LifeCall} (legal : life.Steps Cancels l cs) :
    ∃ l', life.run l cs = some l' ∧ l'.Kept ∧ (l'.Owned ↔ l.Owned ∧ ∀ k, .DelTimer k ∉ cs) := by
  induction cs generalizing l with
  | nil => exact ⟨l, rfl, kept, by simp⟩
  | cons c cs ih =>
      obtain ⟨l₁, step, kept₁, owned₁⟩ := kept.cancels legal.1
      obtain ⟨l', run, kept', owned'⟩ := ih kept₁ (legal.2 l₁ step)
      refine ⟨l', by rw [System.run_cons, step]; exact run, kept', ?_⟩
      rw [owned', owned₁, and_assoc, ← forall_and]
      simp only [List.mem_cons, not_or, ne_eq, eq_comm]

/-- After the destructor each timer was deleted once if it had been owned to the end. -/
theorem Kept.finish (kept : l.Kept) : ∃ l', l.finish = .ok l' ∧
    l'.handles = l.handles ∧ ∀ k, l'.freed.count k =
      if k < l.handles.length ∧ (l.Live k → l.Waits k) then 1 else 0 := by
  refine ⟨l.next l.wheel.destroyed, by rw [Life.finish, kept.placed.destroy]; rfl, rfl,
    fun k => ?_⟩
  rw [kept.next_freed]
  · congr 2
    rw [eq_iff_iff, not_iff_comm, Classical.not_imp]
    constructor
    · rintro ⟨⟨p, t, pointer, alive, same⟩, unowned⟩
      have out : ¬ l.wheel.Pending p := fun pending =>
        unowned ⟨⟨p, t, pointer, alive, same⟩, p, pointer, pending⟩
      exact ⟨p, t, pointer, TimeWheel.destroyed_alive.mpr ⟨alive, out⟩, same⟩
    · rintro ⟨p, t, pointer, alive, same⟩
      obtain ⟨alive, out⟩ := TimeWheel.destroyed_alive.mp alive
      refine ⟨⟨p, t, pointer, alive, same⟩, ?_⟩
      rintro ⟨-, q, again, pending⟩
      cases pointer.symm.trans again
      exact out pending
  · intro p t alive
    exact ⟨t, (TimeWheel.destroyed_alive.mp alive).1, rfl⟩

theorem start_owned (nslots : Int32) (now : UInt64) : (start nslots now).Owned := by
  rintro k ⟨p, t, pointer, -⟩
  simp [start, handle] at pointer

/-- **Every timer is deleted exactly once exactly if none is cancelled.**  For a run of
`AddTimer`, `Tick` and `DelTimer` on pending timers: the calls and the destructor end
and leave every timer deleted once, if and only if the run has no `DelTimer`. -/
theorem freed_once_iff {nslots : Int32} (pos : 0 < nslots) (now : UInt64) (cs : List LifeCall)
    (legal : life.Steps Cancels (start nslots now) cs) :
    (∃ l l', life.run (start nslots now) cs = some l ∧ l.finish = .ok l' ∧
      ∀ k, k < l'.handles.length → l'.freed.count k = 1) ↔ ∀ k, .DelTimer k ∉ cs := by
  obtain ⟨l, run, kept, owned⟩ := (start_kept pos now).run legal
  obtain ⟨l', finish, handles, freed⟩ := kept.finish
  rw [← owned.trans (and_iff_right (start_owned nslots now))]
  constructor
  · rintro ⟨l₁, l₁', run₁, finish₁, once⟩ k live
    cases run.symm.trans run₁
    cases finish.symm.trans finish₁
    by_contra unowned
    have := once k (by rw [handles]; exact live.lt)
    rw [freed, if_neg fun both => unowned (both.2 live)] at this
    cases this
  · intro owned
    refine ⟨l, l', run, finish, fun k bound => ?_⟩
    rw [handles] at bound
    rw [freed, if_pos ⟨bound, owned k⟩]

/-- One timer fires, one is left to the destructor; an address is used again. -/
theorem freed_once_iff_three :
    life.Steps Cancels (start 2 0) [.AddTimer 1 0, .Tick, .AddTimer 1 7, .AddTimer 2 0] ∧
      ∃ l l', life.run (start 2 0) [.AddTimer 1 0, .Tick, .AddTimer 1 7, .AddTimer 2 0] = some l ∧
        l.finish = .ok l' ∧ ∀ k, k < l'.handles.length → l'.freed.count k = 1 := by
  have legal : life.Steps Cancels (start 2 0)
      [.AddTimer 1 0, .Tick, .AddTimer 1 7, .AddTimer 2 0] := by decide +kernel
  exact ⟨legal, (freed_once_iff (by decide) 0 _ legal).mpr (by simp)⟩

/-- A cancelled timer is never deleted. -/
theorem freed_once_counterexample :
    life.Steps Cancels (start 2 0) [.AddTimer 1 5, .DelTimer 0] ∧
      ¬ ∃ l l', life.run (start 2 0) [.AddTimer 1 5, .DelTimer 0] = some l ∧
        l.finish = .ok l' ∧ ∀ k, k < l'.handles.length → l'.freed.count k = 1 := by
  have legal : life.Steps Cancels (start 2 0) [.AddTimer 1 5, .DelTimer 0] := by decide +kernel
  refine ⟨legal, ?_⟩
  rintro ⟨l, l', run, finish, once⟩
  cases run
  cases finish
  exact absurd (once 0 (by decide)) (by decide +kernel)

end Life

end Codesnip.Common.Timer
