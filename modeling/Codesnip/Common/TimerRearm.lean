/-
# Common.TimerRearm -- callbacks that add timers

A callback runs inside `Tick` and may call `AddTimer`: a periodic timer adds itself again.
The cursor has not moved on yet, so what is added with a timeout of `T` ticks runs in the
`T`-th tick after this one, where outside of `Tick` it would be the one after that.

If `T` is a multiple of `nslots`, the new timer goes into the slot that is walked, and
`push_back` may move the vector under the iterator; this is a `Fault` here.  Otherwise the
wheel is the countdown list whose callbacks add timers (`ticks_again`), and periodic timers
keep their period for ever (`ticks_periodic`).
-/
import Mathlib.Data.Set.Finite.Basic
import Mathlib.Order.Lattice.Nat
import Codesnip.Common.TimerRefine

namespace Codesnip.Common.Timer

open Codesnip.Theory
open Codesnip.Theory.Word
open Codesnip.Theory.Countdown (Entry)

set_option autoImplicit false
set_option linter.dupNamespace false

variable {F : Type}

/-- The calls of `AddTimer` that a callback makes when it runs. -/
abbrev Again (F : Type) : Type := F → List (UInt64 × F)

/-- The address `operator new` answers with. -/
abbrev Alloc (F : Type) : Type := TimeWheel F → Addr

namespace TimeWheel

/-- `AddTimer` in a callback: the slot that is walked must stay as it is. -/
def addInTick (alloc : Alloc F) (w : TimeWheel F) (request : UInt64 × F) :
    Except Fault (TimeWheel F) := do
  let (_, w') ← w.AddTimer (alloc w) request.1 request.2
  if w'.slots_[(ullOfInt w.curslot_).toNat]? = w.slots_[(ullOfInt w.curslot_).toNat]? then .ok w'
  else .error .badIterator

/-- `timer->Active()`, of a callback that adds timers. -/
def ActiveAgain (alloc : Alloc F) (again : Again F) (w : TimeWheel F) (t : Timer F) :
    Except Fault (TimeWheel F) := (again t.func_).foldlM (addInTick alloc) w

def TickAgain (alloc : Alloc F) (again : Again F) (w : TimeWheel F) :
    Except Fault (List F × TimeWheel F) := w.TickWith (ActiveAgain alloc again)

def TicksAgain (alloc : Alloc F) (again : Again F) (cnt : Nat) (w : TimeWheel F) :
    Except Fault (List (List F) × TimeWheel F) := w.TicksWith (ActiveAgain alloc again) cnt

/-! ## The list the wheel represents meanwhile -/

section Meanwhile

variable {w : TimeWheel F} {l : List (Entry Addr F)}

/-- Changes of entries that leave them in their slots. -/
theorem bucket_map {g : Entry Addr F → Entry Addr F}
    (handle : ∀ e ∈ l, (g e).handle = e.handle)
    (slot : ∀ e ∈ l, w.slotOf (g e).remaining = w.slotOf e.remaining) (i : Nat) :
    (w.bucket (l.map g) i).map Entry.handle = (w.bucket l i).map Entry.handle := by
  rw [bucket, bucket, List.filter_map, List.map_map]
  have same : (l.filter ((fun e => decide (w.slotOf e.remaining = i)) ∘ g)) =
      l.filter fun e => decide (w.slotOf e.remaining = i) :=
    List.filter_congr fun e member => by simp [slot e member]
  rw [same]
  exact List.map_congr_left fun e inside => handle e (List.mem_filter.mp inside).1

/-- The entry with handle `p` after `DecreaseRotations`. -/
def lowered (n : Nat) (p : Addr) (e : Entry Addr F) : Entry Addr F :=
  if e.handle = p then { e with remaining := e.remaining - n } else e

@[simp] theorem lowered_handle (n : Nat) (p : Addr) (e : Entry Addr F) :
    (lowered n p e).handle = e.handle := by
  rw [lowered]
  split <;> rfl

/-- A rotation less, in the slot of the cursor. -/
theorem Represents.wait (rep : w.Represents l) {e : Entry Addr F} (member : e ∈ l)
    (here : w.slotOf e.remaining = w.cursor) (waits : e.remaining ≠ 0) :
    (w.store e.handle (w.encode e).DecreaseRotations).Represents
      (l.map (lowered w.nslots e.handle)) := by
  have whole := (slotOf_eq_cursor rep _).mp here
  have least := Nat.le_of_dvd (Nat.pos_of_ne_zero waits) (Nat.dvd_of_mod_eq_zero whole)
  have positive := rep.sized.nslots_pos
  have slot : w.slotOf (e.remaining - w.nslots) = w.slotOf e.remaining := by
    rw [here, slotOf_eq_cursor rep, ← Nat.mod_eq_sub_mod least, whole]
  have rotations : e.remaining / w.nslots = (e.remaining - w.nslots) / w.nslots + 1 :=
    Nat.div_eq_sub_div positive least
  have turns : 0 < e.remaining / w.nslots := rotations ▸ Nat.succ_pos _
  have self : lowered w.nslots e.handle e = { e with remaining := e.remaining - w.nslots } :=
    if_pos rfl
  have other {e' : Entry Addr F} (ne : e'.handle ≠ e.handle) :
      lowered w.nslots e.handle e' = e' := if_neg ne
  have split {e' : Entry Addr F} (inside : e' ∈ l) : e' = e ∨ e'.handle ≠ e.handle := by
    by_cases same : e'.handle = e.handle
    · exact .inl (handle_inj rep inside member same)
    · exact .inr same
  refine ⟨rep.cur_nonneg, rep.cur_lt, ?_, ?_, ?_, ?_⟩
  · refine rep.slots.trans (List.map_congr_left fun i _ => ?_)
    refine (bucket_map (fun e' _ => lowered_handle _ _ e') (fun e' inside => ?_) i).symm
    rcases split inside with rfl | ne
    · rw [self, slot]
    · rw [other ne]
  · intro e' inside
    obtain ⟨e₀, before, rfl⟩ := List.mem_map.mp inside
    rw [heap_store, lowered_handle]
    show Function.update w.heap _ _ _ = some (w.encode _)
    rcases split before with rfl | ne
    · rw [Function.update_self, self, Timer.DecreaseRotations]
      simp only [encode, slot]
      rw [ofNat_sub_one turns (rep.fits e₀ member), rotations, Nat.add_sub_cancel]
    · rw [Function.update_of_ne ne, other ne, rep.objects e₀ before]
  · intro e' inside
    obtain ⟨e₀, before, rfl⟩ := List.mem_map.mp inside
    rw [nslots_store]
    rcases split before with rfl | ne
    · rw [self]
      exact Nat.le_trans (Nat.div_le_div_right (Nat.sub_le _ _)) (rep.fits e₀ member)
    · rw [other ne]
      exact rep.fits e₀ before
  · rw [List.map_map, show Entry.handle ∘ lowered w.nslots e.handle = Entry.handle from
      funext fun e' => lowered_handle _ _ e']
    exact rep.distinct

theorem Represents.drop (rep : w.Represents l) {p : Addr} (absent : ∀ e ∈ l, e.handle ≠ p) :
    (w.drop p).Represents l := by
  refine ⟨rep.cur_nonneg, rep.cur_lt, rep.slots, fun e member => ?_, rep.fits, rep.distinct⟩
  rw [heap_drop, Function.update_of_ne (absent e member)]
  exact rep.objects e member

/-- The timer at the iterator is erased and deleted. -/
theorem Represents.erase (rep : w.Represents l) {e : Entry Addr F} (member : e ∈ l)
    {pre post : List Addr}
    (slot : w.slots_[(ullOfInt w.curslot_).toNat]? = some (pre ++ e.handle :: post)) :
    ((w.setSlot w.curslot_ ((pre ++ e.handle :: post).eraseIdx pre.length)).drop
        e.handle).Represents (Countdown.del l e.handle) ∧
      (w.setSlot w.curslot_ ((pre ++ e.handle :: post).eraseIdx pre.length)).slots_[
        (ullOfInt w.curslot_).toNat]? = some (pre ++ post) := by
  obtain ⟨erased, left⟩ := rep.placed.erase slot
  obtain ⟨w₁, run, rep₁, -⟩ := delTimer_represents rep member
  have pending : w.Pending e.handle := ⟨_, List.mem_of_getElem? slot, by simp⟩
  rw [rep.placed.delTimer (rep.placed.known pending)] at run
  cases run
  rw [erased]
  exact ⟨rep₁.drop fun e' inside => (Countdown.mem_del.mp inside).2, left⟩

/-! ## Adding in a callback -/

/-- Only finitely many objects are alive. -/
def Small (w : TimeWheel F) : Prop := {p | w.heap p ≠ none}.Finite

theorem Small.store (small : w.Small) (p : Addr) (t : Timer F) : (w.store p t).Small := by
  refine (small.insert p).subset fun q alive => ?_
  by_cases same : q = p
  · exact .inl same
  · refine .inr fun dead => alive ?_
    rw [heap_store, Function.update_of_ne same, dead]

theorem Small.drop (small : w.Small) (p : Addr) : (w.drop p).Small := by
  refine small.subset fun q alive dead => alive ?_
  by_cases same : q = p
  · rw [same, heap_drop, Function.update_self]
  · rw [heap_drop, Function.update_of_ne same, dead]

/-- `new` answers with an address at which nothing is alive. -/
def Allocates (alloc : Alloc F) : Prop := ∀ w : TimeWheel F, w.Small → w.heap (alloc w) = none

/-- The timeout of a request, in a wheel of `n` slots: it does not end in the slot that is
walked, and its rotations fit. -/
def Fine (n : Nat) (request : UInt64 × F) : Prop :=
  request.1.toNat % n ≠ 0 ∧ request.1.toNat / n ≤ intMax

/-- What the callbacks leave as it was. -/
structure Beside (w w' : TimeWheel F) : Prop where
  curslot : w'.curslot_ = w.curslot_
  size : w'.nslosts_ = w.nslosts_
  clock : w'.starttime_ = w.starttime_
  slot : w'.slots_[(ullOfInt w.curslot_).toNat]? = w.slots_[(ullOfInt w.curslot_).toNat]?
  old : ∀ p t, w.heap p = some t → w'.heap p = some t

theorem Beside.refl (w : TimeWheel F) : Beside w w := ⟨rfl, rfl, rfl, rfl, fun _ _ => id⟩

theorem Beside.trans {w₁ w₂ : TimeWheel F} (first : Beside w w₁) (second : Beside w₁ w₂) :
    Beside w w₂ where
  curslot := second.curslot.trans first.curslot
  size := second.size.trans first.size
  clock := second.clock.trans first.clock
  slot := by
    have slot := second.slot
    rw [first.curslot] at slot
    exact slot.trans first.slot
  old p t alive := second.old p t (first.old p t alive)

/-- An entry without its handle. -/
def bare (e : Entry Addr F) : F × Nat := (e.callback, e.remaining)

theorem Represents.addInTick {alloc : Alloc F} (new : Allocates alloc) (rep : w.Represents l)
    (small : w.Small) {request : UInt64 × F} (fine : Fine w.nslots request) :
    ∃ w' p, addInTick alloc w request = .ok w' ∧
      w'.Represents (l ++ [⟨p, request.2, request.1.toNat⟩]) ∧ w'.Small ∧ Beside w w' := by
  have fresh := new w small
  obtain ⟨w', run, rep', -⟩ := addTimer_represents rep fresh fine.2 request.2
  have filed := rep.sized.addTimer (alloc w) request.1 request.2
  rw [filed] at run
  obtain rfl := (Prod.mk.inj (Except.ok.inj run)).2
  have elsewhere : w.slotOf request.1.toNat ≠ w.cursor := fun here =>
    fine.1 ((slotOf_eq_cursor rep _).mp here)
  have slot : (w.filed (alloc w) request.1 request.2).slots_[(ullOfInt w.curslot_).toNat]? =
      w.slots_[(ullOfInt w.curslot_).toNat]? := by
    rw [rep.sized.ull_cursor]
    exact List.getElem?_modify_ne _ _ elsewhere
  refine ⟨_, alloc w, ?_, rep', ?_, rfl, rfl, rfl, slot, fun p t alive => ?_⟩
  · rw [TimeWheel.addInTick, filed]
    exact if_pos slot
  · exact small.store (alloc w) _
  · have ne : p ≠ alloc w := by
      rintro rfl
      rw [fresh] at alive
      cases alive
    rw [heap_filed, Function.update_of_ne ne, alive]

theorem Represents.adds {alloc : Alloc F} (new : Allocates alloc) (requests : List (UInt64 × F))
    (rep : w.Represents l) (small : w.Small) (fine : ∀ r ∈ requests, Fine w.nslots r) :
    ∃ w' added, requests.foldlM (TimeWheel.addInTick alloc) w = .ok w' ∧
      w'.Represents (l ++ added) ∧ w'.Small ∧ Beside w w' ∧
      added.map bare = requests.map fun r => (r.2, r.1.toNat) := by
  induction requests generalizing w l with
  | nil => exact ⟨w, [], rfl, by rwa [List.append_nil], small, .refl w, rfl⟩
  | cons request requests ih =>
      obtain ⟨first, fine⟩ := List.forall_mem_cons.mp fine
      obtain ⟨w₁, p, run, rep₁, small₁, beside₁⟩ := rep.addInTick new small first
      have size : w₁.nslots = w.nslots := by rw [nslots, beside₁.size, nslots]
      obtain ⟨w', added, rest, rep', small', beside', bares⟩ := ih rep₁ small₁ (size ▸ fine)
      refine ⟨w', ⟨p, request.2, request.1.toNat⟩ :: added, ?_, ?_, small',
        beside₁.trans beside', ?_⟩
      · rw [List.foldlM_cons, run]
        exact rest
      · rwa [List.append_assoc, List.singleton_append] at rep'
      · rw [List.map_cons, bares, List.map_cons]
        rfl

/-! ## The loop -/

/-- The callbacks of the timers that have their turn. -/
def spent (todo : List (Entry Addr F)) : List F :=
  (todo.filter fun e => e.remaining = 0).map Entry.callback

/-- What the loop makes of an entry, with `todo` before it. -/
def settled (n : Nat) (todo : List (Entry Addr F)) (e : Entry Addr F) : Option (Entry Addr F) :=
  if e.handle ∈ todo.map Entry.handle then
    if e.remaining = 0 then none else some { e with remaining := e.remaining - n }
  else some e

def settle (n : Nat) (todo l : List (Entry Addr F)) : List (Entry Addr F) :=
  l.filterMap (settled n todo)

section Settle

variable {n : Nat} {e : Entry Addr F} {todo : List (Entry Addr F)}

/-- Entries that are not met stay. -/
theorem settle_absent {added : List (Entry Addr F)}
    (absent : ∀ e ∈ added, e.handle ∉ todo.map Entry.handle) : settle n todo added = added := by
  rw [settle, List.filterMap_congr (g := some) fun e member => ?_, List.filterMap_some]
  exact if_neg (absent e member)

theorem settle_nil (l : List (Entry Addr F)) : settle n [] l = l :=
  settle_absent fun _ _ => List.not_mem_nil

theorem settle_append (l₁ l₂ : List (Entry Addr F)) :
    settle n todo (l₁ ++ l₂) = settle n todo l₁ ++ settle n todo l₂ := List.filterMap_append

/-- The loop has gone over an entry that waits on. -/
theorem settle_wait (unique : ∀ e' ∈ l, e'.handle = e.handle → e' = e)
    (once : e.handle ∉ todo.map Entry.handle) (waits : e.remaining ≠ 0) :
    settle n todo (l.map (lowered n e.handle)) = settle n (e :: todo) l := by
  rw [settle, settle, List.filterMap_map]
  refine List.filterMap_congr fun e' inside => ?_
  rw [Function.comp_apply, settled, settled, lowered_handle]
  by_cases same : e'.handle = e.handle
  · obtain rfl := unique e' inside same
    simp [once, waits, lowered]
  · simp [same, lowered]

theorem del_append (l₁ l₂ : List (Entry Addr F)) (p : Addr) :
    Countdown.del (l₁ ++ l₂) p = Countdown.del l₁ p ++ Countdown.del l₂ p := List.filter_append ..

theorem del_absent {added : List (Entry Addr F)} {p : Addr}
    (absent : ∀ e ∈ added, e.handle ≠ p) : Countdown.del added p = added :=
  List.filter_eq_self.mpr fun e member => by simpa using absent e member

/-- The loop has called an entry. -/
theorem settle_fire (unique : ∀ e' ∈ l, e'.handle = e.handle → e' = e) (due : e.remaining = 0) :
    settle n todo (Countdown.del l e.handle) = settle n (e :: todo) l := by
  rw [settle, settle, Countdown.del, List.filterMap_filter]
  refine List.filterMap_congr fun e' inside => ?_
  by_cases same : e'.handle = e.handle
  · obtain rfl := unique e' inside same
    simp [settled, due]
  · simp [settled, same]

end Settle

/-- What stands in the slot of the cursor ends there. -/
theorem Represents.inSlot (rep : w.Represents l) {v : List Addr} {e : Entry Addr F}
    (slot : w.slots_[(ullOfInt w.curslot_).toNat]? = some v) (inside : e.handle ∈ v)
    (member : e ∈ l) : w.slotOf e.remaining = w.cursor := by
  rw [rep.sized.ull_cursor] at slot
  rw [rep.bucketed slot] at inside
  obtain ⟨e', bucketed, same⟩ := List.mem_map.mp inside
  obtain ⟨member', here⟩ := List.mem_filter.mp bucketed
  rw [← handle_inj rep member' member same]
  exact of_decide_eq_true here

/-- What a callback's requests are on the list. -/
def onList (again : Again F) (f : F) : List (F × Nat) := (again f).map fun r => (r.2, r.1.toNat)

/-- What the loop leaves, from where `todo` is still before it. -/
structure Walked (again : Again F) (todo l : List (Entry Addr F)) (w w' : TimeWheel F)
    (added : List (Entry Addr F)) : Prop where
  represents : w'.Represents (settle w.nslots todo l ++ added)
  small : w'.Small
  bares : added.map bare = (spent todo).flatMap (onList again)
  curslot : w'.curslot_ = w.curslot_
  size : w'.nslosts_ = w.nslosts_
  clock : w'.starttime_ = w.starttime_

/-- **The loop of `Tick`** calls the timers that have their turn, takes them out, and puts what
they add behind all others; the rest of the slot has one rotation less. -/
theorem Represents.tickLoop {alloc : Alloc F} {again : Again F} {n : Nat} (new : Allocates alloc)
    (fine : ∀ f, ∀ r ∈ again f, Fine n r) (todo : List (Entry Addr F)) (fuel : Nat)
    (enough : todo.length < fuel) (kept : List Addr) (w : TimeWheel F) (l : List (Entry Addr F))
    (rep : w.Represents l) (small : w.Small) (size : w.nslots = n)
    (slot : w.slots_[(ullOfInt w.curslot_).toNat]? = some (kept ++ todo.map Entry.handle))
    (inside : ∀ e ∈ todo, e ∈ l) :
    ∃ w' added,
      TimeWheel.tickLoop (ActiveAgain alloc again) fuel kept.length w = .ok (spent todo, w') ∧
      Walked again todo l w w' added := by
  induction todo generalizing fuel kept w l with
  | nil =>
      obtain ⟨fuel, rfl⟩ : ∃ m, fuel = m + 1 := ⟨fuel - 1, by simp at enough; omega⟩
      rw [List.map_nil, List.append_nil] at slot
      refine ⟨w, [], tickLoop_end fuel slot, ?_, small, rfl, rfl, rfl, rfl⟩
      rwa [settle_nil, List.append_nil]
  | cons e todo ih =>
      obtain ⟨fuel, rfl⟩ : ∃ m, fuel = m + 1 := ⟨fuel - 1, by simp at enough; omega⟩
      obtain ⟨member, inside⟩ := List.forall_mem_cons.mp inside
      rw [List.map_cons] at slot
      have enough : todo.length < fuel := Nat.lt_of_succ_lt_succ enough
      have nodup : (kept ++ e.handle :: todo.map Entry.handle).Nodup :=
        rep.placed.distinct _ _ slot
      have once : e.handle ∉ todo.map Entry.handle :=
        (List.nodup_cons.mp (List.nodup_append.mp nodup).2.1).1
      have unique : ∀ e' ∈ l, e'.handle = e.handle → e' = e :=
        fun e' there same => handle_inj rep there member same
      have apart : ∀ e' ∈ todo, e'.handle ≠ e.handle :=
        fun e' there same => once (same ▸ List.mem_map_of_mem there)
      have here := rep.inSlot slot (by simp) member
      have at_it : (kept ++ e.handle :: todo.map Entry.handle)[kept.length]? = some e.handle := by
        simp
      have alive := rep.objects e member
      by_cases waits : e.remaining = 0
      · have due : ¬ (w.encode e).rotations_ > 0 := fun turns =>
          (rotations_pos rep member here).mp turns waits
        obtain ⟨w₁, added₁, called, rep₁, small₁, beside, bares₁⟩ :=
          rep.adds new (again e.callback) small (size ▸ fine e.callback)
        have slot₁ := beside.slot.trans slot
        rw [← beside.curslot] at slot₁
        have member₁ : e ∈ l ++ added₁ := List.mem_append_left _ member
        have fresh : ∀ a ∈ added₁, ∀ e' ∈ l, a.handle ≠ e'.handle := by
          have distinct := rep₁.distinct
          rw [List.map_append] at distinct
          exact fun a new e' old same => (List.nodup_append.mp distinct).2.2 _
            (List.mem_map_of_mem old) _ (List.mem_map_of_mem new) same.symm
        obtain ⟨rep₂, slot₂⟩ := rep₁.erase member₁ slot₁
        have inside₂ : ∀ e' ∈ todo, e' ∈ Countdown.del (l ++ added₁) e.handle := fun e' there =>
          Countdown.mem_del.mpr ⟨List.mem_append_left _ (inside e' there), apart e' there⟩
        have size₁ : w₁.nslots = n := by rw [nslots, beside.size, ← size, nslots]
        obtain ⟨w', added₂, run, walked⟩ := ih fuel enough kept _ _ rep₂
          (Small.drop small₁ e.handle) size₁ slot₂ inside₂
        have unmet : ∀ a ∈ added₁, a.handle ∉ todo.map Entry.handle := fun a new met => by
          obtain ⟨e', there, same⟩ := List.mem_map.mp met
          exact fresh a new e' (inside e' there) same.symm
        have total : settle n todo (Countdown.del (l ++ added₁) e.handle) ++ added₂ =
            settle n (e :: todo) l ++ (added₁ ++ added₂) := by
          rw [del_append, del_absent fun a new => fresh a new e member, settle_append,
            settle_fire unique waits, settle_absent unmet, List.append_assoc]
        refine ⟨w', added₁ ++ added₂, ?_, ?_, walked.small, ?_,
          walked.curslot.trans beside.curslot, walked.size.trans beside.size,
          walked.clock.trans beside.clock⟩
        · rw [tickLoop_fire fuel slot at_it alive due called slot₁ (by simp) (beside.old _ _ alive),
            run]
          simp [spent, waits, Except.map, encode]
        · rw [size, ← total, ← size₁]
          exact walked.represents
        · rw [List.map_append, bares₁, walked.bares]
          simp [spent, waits, onList]
      · have rep₁ := rep.wait member here waits
        have slot₁ : (w.store e.handle (w.encode e).DecreaseRotations).slots_[
            (ullOfInt w.curslot_).toNat]? =
              some ((kept ++ [e.handle]) ++ todo.map Entry.handle) := by
          rw [List.append_assoc]
          exact slot
        have small₁ := small.store e.handle (w.encode e).DecreaseRotations
        have inside₁ : ∀ e' ∈ todo, e' ∈ l.map (lowered w.nslots e.handle) := fun e' there =>
          List.mem_map.mpr ⟨e', inside e' there, if_neg (apart e' there)⟩
        obtain ⟨w', added, run, walked⟩ := ih fuel enough (kept ++ [e.handle]) _ _ rep₁ small₁ size
          slot₁ inside₁
        refine ⟨w', added, ?_, ?_, walked.small, ?_, walked.curslot, walked.size, walked.clock⟩
        · rw [tickLoop_wait fuel slot at_it alive ((rotations_pos rep member here).mpr waits)]
          rw [List.length_append, List.length_singleton] at run
          rw [run]
          simp [spent, waits]
        · have rep' := walked.represents
          rw [nslots_store] at rep'
          rwa [settle_wait unique once waits] at rep'
        · rw [walked.bares]
          simp [spent, waits]

/-! ## The tick -/

/-- An entry seen from the next place of the cursor: in its slot, there is a rotation more. -/
def turned (w : TimeWheel F) (e : Entry Addr F) : Entry Addr F :=
  if w.slotOf e.remaining = w.cursor then { e with remaining := e.remaining + (w.nslots - 1) }
  else e.elapse

@[simp] theorem turned_handle (w : TimeWheel F) (e : Entry Addr F) :
    (w.turned e).handle = e.handle := by
  rw [turned]
  split <;> rfl

theorem turned_callback (w : TimeWheel F) (e : Entry Addr F) :
    (w.turned e).callback = e.callback := by
  rw [turned]
  split <;> rfl

theorem Represents.turned_slot (rep : w.Represents l) (e : Entry Addr F) :
    w.advance.slotOf (w.turned e).remaining = w.slotOf e.remaining := by
  have pos := rep.sized.nslots_pos
  rw [turned]
  split
  · rw [slotOf, rep.sized.advance_cursor, nslots_advance, Nat.mod_add_mod, slotOf]
    rw [show w.cursor + 1 + (e.remaining + (w.nslots - 1)) = w.cursor + e.remaining + w.nslots by
      omega, Nat.add_mod_right]
  · rename_i elsewhere
    have waits : e.remaining ≠ 0 := fun due => elsewhere ((due_iff rep _).mp due).1
    exact advance_slotOf rep waits

theorem Represents.turned_rotations (rep : w.Represents l) (e : Entry Addr F) :
    (w.turned e).remaining / w.nslots = e.remaining / w.nslots := by
  have pos := rep.sized.nslots_pos
  rw [turned]
  split
  · rename_i here
    have whole := (slotOf_eq_cursor rep _).mp here
    obtain ⟨k, same⟩ := Nat.dvd_of_mod_eq_zero whole
    rw [same, Nat.mul_add_div pos, Nat.div_eq_of_lt (by omega), Nat.add_zero,
      Nat.mul_div_cancel_left _ pos]
  · rename_i elsewhere
    have waits : e.remaining ≠ 0 := fun due => elsewhere ((due_iff rep _).mp due).1
    rw [Entry.elapse_remaining, rotations_pred rep waits, if_neg elsewhere]

theorem Represents.advance (rep : w.Represents l) : w.advance.Represents (l.map w.turned) := by
  refine ⟨rep.sized.advance.cur_nonneg, rep.sized.advance.cur_lt, ?_, ?_, ?_, ?_⟩
  · refine rep.slots.trans (List.map_congr_left fun i _ => ?_)
    rw [bucket, bucket, List.filter_map, List.map_map]
    have same : l.filter ((fun e => decide (w.advance.slotOf e.remaining = i)) ∘ w.turned) =
        l.filter fun e => decide (w.slotOf e.remaining = i) :=
      List.filter_congr fun e _ => by simp [rep.turned_slot e]
    rw [same]
    exact List.map_congr_left fun e _ => (turned_handle w e).symm
  · intro e inside
    obtain ⟨e, member, rfl⟩ := List.mem_map.mp inside
    rw [heap_advance, turned_handle, rep.objects e member, encode, encode, rep.turned_slot,
      nslots_advance, rep.turned_rotations, turned_callback]
  · intro e inside
    obtain ⟨e, member, rfl⟩ := List.mem_map.mp inside
    rw [nslots_advance, rep.turned_rotations]
    exact rep.fits e member
  · rw [List.map_map, show Entry.handle ∘ w.turned = Entry.handle from
      funext fun e => turned_handle w e]
    exact rep.distinct

/-- The loop over the whole slot, and the cursor moved on, is the tick of the list. -/
theorem Represents.settle_turned (rep : w.Represents l) :
    (settle w.nslots (w.bucket l w.cursor) l).map w.turned = Countdown.tick l := by
  have pos := rep.sized.nslots_pos
  rw [settle, List.map_filterMap, Countdown.tick, ← List.filterMap_eq_filter, List.map_filterMap]
  refine List.filterMap_congr fun e member => ?_
  have met : e.handle ∈ (w.bucket l w.cursor).map Entry.handle ↔
      w.slotOf e.remaining = w.cursor := by
    constructor
    · intro inside
      obtain ⟨e', bucketed, same⟩ := List.mem_map.mp inside
      obtain ⟨member', here⟩ := List.mem_filter.mp bucketed
      rw [← handle_inj rep member' member same]
      exact of_decide_eq_true here
    · exact fun here => List.mem_map_of_mem (List.mem_filter.mpr ⟨member, by simpa using here⟩)
  by_cases here : w.slotOf e.remaining = w.cursor
  · rw [settled, if_pos (met.mpr here)]
    by_cases due : e.remaining = 0
    · simp [due, Option.guard]
    · have whole := (slotOf_eq_cursor rep _).mp here
      have least := Nat.le_of_dvd (Nat.pos_of_ne_zero due) (Nat.dvd_of_mod_eq_zero whole)
      have there : w.slotOf (e.remaining - w.nslots) = w.cursor := by
        rw [slotOf_eq_cursor rep, ← Nat.mod_eq_sub_mod least, whole]
      have back : e.remaining - w.nslots + (w.nslots - 1) = e.remaining - 1 := by omega
      simp [due, Option.guard, turned, there, Entry.elapse, back]
  · have waits : e.remaining ≠ 0 := fun due => here ((due_iff rep _).mp due).1
    rw [settled, if_neg (met.not.mpr here)]
    simp [waits, Option.guard, turned, here]

theorem spent_bucket (rep : w.Represents l) :
    spent (w.bucket l w.cursor) = Countdown.expired l := by
  rw [spent, bucket, List.filter_filter, Countdown.expired]
  refine congrArg (List.map Entry.callback) (List.filter_congr fun e _ => ?_)
  by_cases due : e.remaining = 0
  · simp [due, ((due_iff rep 0).mp rfl).1]
  · simp [due]

/-- **`Tick` is the list's tick**, and what the callbacks have added has waited for it. -/
theorem Represents.tickAgain {alloc : Alloc F} {again : Again F} {n : Nat} (new : Allocates alloc)
    (fine : ∀ f, ∀ r ∈ again f, Fine n r) (rep : w.Represents l) (small : w.Small)
    (size : w.nslots = n) :
    ∃ w' l', w.TickAgain alloc again = .ok (Countdown.dueNow (l.map bare), w') ∧
      w'.Represents l' ∧ w'.Small ∧ w'.nslots = n ∧
      l'.map bare = Countdown.tickAgain (onList again) (l.map bare) := by
  have slot : w.slots_[(ullOfInt w.curslot_).toNat]? =
      some ([] ++ (w.bucket l w.cursor).map Entry.handle) := by
    rw [rep.sized.ull_cursor, rep.slots, List.getElem?_map,
      List.getElem?_range rep.sized.cursor_lt]
    rfl
  obtain ⟨w', added, run, walked⟩ := Represents.tickLoop new fine (w.bucket l w.cursor)
    (((w.bucket l w.cursor).map Entry.handle).length + 1) (by simp) [] w l rep small size slot
    fun e inside => (List.mem_filter.mp inside).1
  have fired : Countdown.dueNow (l.map bare) = spent (w.bucket l w.cursor) := by
    rw [spent_bucket rep, Countdown.dueNow, Countdown.expired, List.filter_map, List.map_map]
    rfl
  have rep' := walked.represents.advance
  have size' : w'.nslots = n := by rw [nslots, walked.size, ← size, nslots]
  have turned' : w'.turned = w.turned := by
    funext e
    rw [turned, turned, slotOf, slotOf, size', size, cursor, cursor, walked.curslot]
  rw [List.map_append, turned', rep.settle_turned] at rep'
  refine ⟨w'.advance, _, ?_, rep', walked.small, size', ?_⟩
  · rw [TickAgain, TickWith, slotAt_eq slot, fired]
    show (TimeWheel.tickLoop _ _ ([] : List Addr).length w >>= _) = _
    rw [List.nil_append, run]
    rfl
  · have elapsed : ∀ e ∈ added, bare (w.turned e) = (e.callback, e.remaining - 1) := by
      intro e inside
      have asked : bare e ∈ added.map bare := List.mem_map_of_mem inside
      rw [walked.bares] at asked
      obtain ⟨f, -, asked⟩ := List.mem_flatMap.mp asked
      obtain ⟨request, member, same⟩ := List.mem_map.mp asked
      have remaining : request.1.toNat = e.remaining := congrArg Prod.snd same
      have elsewhere : w.slotOf e.remaining ≠ w.cursor := fun here => by
        refine (fine f request member).1 ?_
        rw [remaining, ← size]
        exact (slotOf_eq_cursor rep _).mp here
      rw [turned, if_neg elsewhere]
      rfl
    have first : (Countdown.tick l).map bare =
        ((l.map bare).filter fun e => e.2 ≠ 0).map fun e => (e.1, e.2 - 1) := by
      rw [Countdown.tick, List.filter_map, List.map_map, List.map_map]
      rfl
    have second : (added.map w.turned).map bare =
        (added.map bare).map fun e => (e.1, e.2 - 1) := by
      rw [List.map_map, List.map_map]
      exact List.map_congr_left elapsed
    rw [List.map_append, first, second, walked.bares, List.map_flatMap, Countdown.tickAgain, fired]

/-- **The wheel is a countdown list whose callbacks add timers.** -/
theorem Represents.ticksAgain {alloc : Alloc F} {again : Again F} {n : Nat}
    (new : Allocates alloc) (fine : ∀ f, ∀ r ∈ again f, Fine n r) (rep : w.Represents l)
    (small : w.Small) (size : w.nslots = n) (cnt : Nat) :
    ∃ w' l', w.TicksAgain alloc again cnt =
        .ok ((Countdown.ticksAgain (onList again) cnt (l.map bare)).1, w') ∧
      w'.Represents l' ∧
      l'.map bare = (Countdown.ticksAgain (onList again) cnt (l.map bare)).2 := by
  induction cnt generalizing w l with
  | zero => exact ⟨w, l, rfl, rep, rfl⟩
  | succ cnt ih =>
      obtain ⟨w₁, l₁, run, rep₁, small₁, size₁, bares₁⟩ := rep.tickAgain new fine small size
      obtain ⟨w', l', rest, rep', bares'⟩ := ih rep₁ small₁ size₁
      rw [bares₁] at rest bares'
      refine ⟨w', l', ?_, rep', bares'⟩
      rw [TicksAgain, TicksWith]
      show (w.TickAgain alloc again >>= _) = _
      rw [run]
      show (w₁.TicksAgain alloc again cnt >>= _) = _
      rw [rest]
      rfl

end Meanwhile

/-! ## From a fresh wheel -/

/-- Calls of `AddTimer` one after another, outside of `Tick`. -/
def addAll (alloc : Alloc F) (requests : List (UInt64 × F)) (w : TimeWheel F) :
    Except Fault (TimeWheel F) :=
  requests.foldlM (fun w r => (w.AddTimer (alloc w) r.1 r.2).map Prod.snd) w

theorem Represents.addAll {alloc : Alloc F} (new : Allocates alloc)
    (requests : List (UInt64 × F)) {w : TimeWheel F} {l : List (Entry Addr F)}
    (rep : w.Represents l) (small : w.Small)
    (fits : ∀ r ∈ requests, r.1.toNat / w.nslots ≤ intMax) :
    ∃ w' added, w.addAll alloc requests = .ok w' ∧ w'.Represents (l ++ added) ∧ w'.Small ∧
      w'.nslots = w.nslots ∧ added.map bare = requests.map fun r => (r.2, r.1.toNat) := by
  induction requests generalizing w l with
  | nil => exact ⟨w, [], rfl, by rwa [List.append_nil], small, rfl, rfl⟩
  | cons request requests ih =>
      obtain ⟨first, fits⟩ := List.forall_mem_cons.mp fits
      obtain ⟨w₁, run, rep₁, size, -⟩ := addTimer_represents rep (new w small) first request.2
      have size : w₁.nslots = w.nslots := by rw [nslots, size, nslots]
      have filed := rep.sized.addTimer (alloc w) request.1 request.2
      rw [filed] at run
      obtain rfl := (Prod.mk.inj (Except.ok.inj run)).2
      obtain ⟨w', added, rest, rep', small', size', bares⟩ :=
        ih rep₁ (small.store (alloc w) _) (size ▸ fits)
      refine ⟨w', ⟨alloc w, request.2, request.1.toNat⟩ :: added, ?_, ?_, small',
        size'.trans size, ?_⟩
      · rw [TimeWheel.addAll, List.foldlM_cons, filed]
        exact rest
      · rwa [Countdown.add, List.append_assoc, List.singleton_append] at rep'
      · rw [List.map_cons, bares, List.map_cons]
        rfl

/-- Timers added to a fresh wheel, and then `cnt` ticks. -/
def session (alloc : Alloc F) (again : Again F) (nslots : Int32) (now : UInt64)
    (requests : List (UInt64 × F)) (cnt : Nat) : Except Fault (List (List F) × TimeWheel F) := do
  (← (new nslots now).addAll alloc requests).TicksAgain alloc again cnt

section Session

variable {alloc : Alloc F} {nslots : Int32}

/-- The wheel after the first calls. -/
theorem addAll_new (allocates : Allocates alloc) (pos : 0 < nslots) (now : UInt64)
    (requests : List (UInt64 × F))
    (fits : ∀ r ∈ requests, r.1.toNat / nslots.toInt.toNat ≤ intMax) :
    ∃ w l, (new nslots now).addAll alloc requests = .ok w ∧ w.Represents l ∧ w.Small ∧
      w.nslots = nslots.toInt.toNat ∧ l.map bare = requests.map fun r => (r.2, r.1.toNat) := by
  have positive : 0 < nslots.toInt := by simpa [Int32.lt_iff_toInt_lt] using pos
  have none : (new nslots now : TimeWheel F).Small := by simp [Small, new]
  obtain ⟨w, added, run, rep, small, size, bares⟩ :=
    (new_represents positive now).addAll allocates requests none fits
  exact ⟨w, added, run, rep, small, size, bares⟩

/-- **What a wheel fires whose callbacks add timers** is what the countdown list fires, over any
number of ticks and whatever the callbacks add, as long as no timeout they ask for ends in the
slot that is walked; and what is pending then is what is on the list. -/
theorem ticks_again {again : Again F} (allocates : Allocates alloc) (pos : 0 < nslots)
    (now : UInt64) (requests : List (UInt64 × F)) (cnt : Nat)
    (fits : ∀ r ∈ requests, r.1.toNat / nslots.toInt.toNat ≤ intMax)
    (fine : ∀ f, ∀ r ∈ again f, Fine nslots.toInt.toNat r) :
    ∃ w l, session alloc again nslots now requests cnt =
        .ok ((Countdown.ticksAgain (onList again) cnt
          (requests.map fun r => (r.2, r.1.toNat))).1, w) ∧
      w.Represents l ∧ l.map bare = (Countdown.ticksAgain (onList again) cnt
        (requests.map fun r => (r.2, r.1.toNat))).2 := by
  obtain ⟨w₁, l₁, run, rep, small, size, bares⟩ := addAll_new allocates pos now requests fits
  obtain ⟨w, l, ticked, rep', bares'⟩ := rep.ticksAgain allocates fine small size cnt
  rw [bares] at ticked bares'
  refine ⟨w, l, ?_, rep', bares'⟩
  rw [session, run]
  exact ticked

/-- **Periodic timers keep their period**: a timer whose callback adds it again fires in the
tick it was first due in and in those whole periods later, once in each and in no other, beside
any number of others and over any number of ticks. -/
theorem ticks_periodic [DecidableEq F] (allocates : Allocates alloc) (pos : 0 < nslots)
    (now : UInt64) (period : F → UInt64) (requests : List (UInt64 × F)) (cnt : Nat)
    (fits : ∀ r ∈ requests, r.1.toNat / nslots.toInt.toNat ≤ intMax)
    (fine : ∀ f, Fine nslots.toInt.toNat (period f, f))
    (distinct : (requests.map Prod.snd).Nodup) :
    ∃ fired w, session alloc (fun f => [(period f, f)]) nslots now requests cnt = .ok (fired, w) ∧
      ∀ r ∈ requests, ∀ i < cnt, (fired.getD i []).count r.2 =
        if r.1.toNat ≤ i ∧ (period r.2).toNat ∣ i - r.1.toNat then 1 else 0 := by
  obtain ⟨w₁, l₁, run, rep, small, size, bares⟩ := addAll_new allocates pos now requests fits
  have fineAll : ∀ f, ∀ r ∈ [(period f, f)], Fine nslots.toInt.toNat r := fun f r member =>
    List.mem_singleton.mp member ▸ fine f
  obtain ⟨w, l, ticked, -⟩ := rep.ticksAgain allocates fineAll small size cnt
  rw [bares] at ticked
  refine ⟨_, w, by rw [session, run]; exact ticked, fun r member i inside => ?_⟩
  have some : ∀ f, 0 < (period f).toNat := fun f => Nat.pos_of_ne_zero fun zero => by
    have waits : (period f).toNat % nslots.toInt.toNat ≠ 0 := (fine f).1
    rw [zero, Nat.zero_mod] at waits
    exact waits rfl
  have apart : ((requests.map fun r => (r.2, r.1.toNat)).map Prod.fst).Nodup := by
    rw [List.map_map]
    exact distinct
  exact Countdown.count_ticksAgain some cnt apart (List.mem_map_of_mem member) inside

end Session

/-- The first address at which nothing is alive. -/
noncomputable def firstFit : Alloc F := fun w => sInf {p | w.heap p = none}

theorem allocates_firstFit : Allocates (firstFit : Alloc F) := fun w small => by
  have free : {p | w.heap p = none}.Nonempty := by
    obtain ⟨p, dead⟩ := small.infinite_compl.nonempty
    exact ⟨p, not_not.mp dead⟩
  exact Nat.sInf_mem free

/-- A callback that starts two others, each of which starts one more. -/
theorem ticks_again_spread : ∃ w l,
    session firstFit (fun f => if f < 2 then [(5, f + 1), (2, 7)] else []) 4 0 [(1, 0)] 9 =
      .ok ([[], [0], [], [7], [], [], [1], [], [7]], w) ∧
    w.Represents l ∧ l.map bare = [(2, 2)] := by
  have pos : (0 : Int32) < 4 := by decide
  have fits : ∀ r ∈ [((1 : UInt64), 0)], r.1.toNat / (4 : Int32).toInt.toNat ≤ intMax := by
    intro r member
    rw [List.mem_singleton.mp member]
    decide
  have fine : ∀ f : ℕ, ∀ r ∈ if f < 2 then [((5 : UInt64), f + 1), (2, 7)] else [],
      Fine (4 : Int32).toInt.toNat r := by
    have five : (5 : UInt64).toNat % (4 : Int32).toInt.toNat ≠ 0 ∧
        (5 : UInt64).toNat / (4 : Int32).toInt.toNat ≤ intMax := by decide
    have two : (2 : UInt64).toNat % (4 : Int32).toInt.toNat ≠ 0 ∧
        (2 : UInt64).toNat / (4 : Int32).toInt.toNat ≤ intMax := by decide
    intro f r member
    split at member
    · rcases List.mem_pair.mp member with rfl | rfl
      · exact five
      · exact two
    · cases member
  exact ticks_again allocates_firstFit pos 0 [(1, 0)] 9 fits fine

/-- A period of six ticks on a wheel of four slots, beside one of three. -/
theorem ticks_periodic_six : ∃ fired w,
    session firstFit (fun f => [(if f then 6 else 3, f)]) 4 0 [(5, true), (1, false)] 20 =
      .ok (fired, w) ∧
    (fired.getD 17 []).count true = 1 ∧ (fired.getD 18 []).count true = 0 := by
  have pos : (0 : Int32) < 4 := by decide
  have fits : ∀ r ∈ [((5 : UInt64), true), (1, false)],
      r.1.toNat / (4 : Int32).toInt.toNat ≤ intMax := by
    intro r member
    rcases List.mem_pair.mp member with rfl | rfl
    · decide
    · decide
  have fine : ∀ f : Bool, Fine (4 : Int32).toInt.toNat (if f then (6 : UInt64) else 3, f) := by
    intro f
    cases f
    · exact ⟨by decide, by decide⟩
    · exact ⟨by decide, by decide⟩
  obtain ⟨fired, w, run, counts⟩ :=
    ticks_periodic allocates_firstFit pos 0 _ [(5, true), (1, false)] 20 fits fine (by decide)
  refine ⟨fired, w, run, ?_, ?_⟩
  · exact counts (5, true) (by decide) 17 (by decide)
  · exact counts (5, true) (by decide) 18 (by decide)

end TimeWheel

end Codesnip.Common.Timer
