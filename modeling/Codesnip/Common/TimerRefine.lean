/-
# Common.TimerRefine -- the wheel is a countdown list

A timer with `remaining` ticks to wait stands in the slot `remaining` places
ahead of the cursor and has `remaining / nslots` rotations left.  So a wheel is
determined by its cursor and the list of pending timers: `Represents w l` says
that `w` is the wheel of the list `l`, slot by slot and object by object.

`addTimer_represents`, `delTimer_represents` and `tick_represents`: each operation
of the wheel is the operation of the same name on the list, and the wheel's `Tick`
calls exactly what the list's `tick` fires.
-/
import Codesnip.Common.TimerTurns
import Codesnip.Theory.Countdown

namespace Codesnip.Common.Timer

open Codesnip.Theory
open Codesnip.Theory.Word
open Codesnip.Theory.Countdown (Entry)

set_option autoImplicit false
set_option linter.dupNamespace false

variable {F : Type}

namespace TimeWheel

/-- The object of a pending timer. -/
def encode (w : TimeWheel F) (e : Entry Addr F) : Timer F :=
  ⟨Int32.ofNat (e.remaining / w.nslots), Int32.ofNat (w.slotOf e.remaining), e.callback⟩

/-- The pending timers whose slot is `i`, in insertion order. -/
def bucket (w : TimeWheel F) (l : List (Entry Addr F)) (i : Nat) : List (Entry Addr F) :=
  l.filter fun e => w.slotOf e.remaining = i

/-- The wheel `w` holds exactly the pending timers `l`. -/
structure Represents (w : TimeWheel F) (l : List (Entry Addr F)) : Prop where
  cur_nonneg : 0 ≤ w.curslot_.toInt
  cur_lt : w.curslot_.toInt < w.nslosts_.toInt
  slots : w.slots_ = (List.range w.nslots).map fun i => (w.bucket l i).map Entry.handle
  objects : ∀ e ∈ l, w.heap e.handle = some (w.encode e)
  fits : ∀ e ∈ l, e.remaining / w.nslots ≤ intMax
  distinct : (l.map Entry.handle).Nodup

theorem modify_range_map {α : Type} (n i : Nat) (f : Nat → α) (g : α → α) :
    ((List.range n).map f).modify i g = (List.range n).map (Function.update f i (g (f i))) := by
  apply List.ext_getElem?
  intro j
  rw [List.getElem?_modify]
  by_cases same : i = j
  · subst same
    by_cases bound : i < n <;> simp [bound]
  · have other : ¬ j = i := fun h => same h.symm
    by_cases bound : j < n <;> simp [same, other, bound]

namespace Represents

variable {w : TimeWheel F} {l : List (Entry Addr F)}

theorem sized (rep : w.Represents l) : w.Sized :=
  ⟨rep.cur_nonneg, rep.cur_lt, by rw [rep.slots, List.length_map, List.length_range]⟩

/-- What is in a slot is an entry of its bucket. -/
theorem bucketed (rep : w.Represents l) {i : Nat} {v : List Addr} (slot : w.slots_[i]? = some v) :
    v = (w.bucket l i).map Entry.handle := by
  rw [rep.slots, List.getElem?_map] at slot
  obtain ⟨j, here, rfl⟩ := Option.map_eq_some_iff.mp slot
  obtain ⟨bound, rfl⟩ := List.getElem?_eq_some_iff.mp here
  simp

theorem placed (rep : w.Represents l) : w.Placed := by
  refine ⟨rep.sized, ?_, ?_⟩
  · intro i v p slot member
    rw [rep.bucketed slot] at member
    obtain ⟨e, inside, rfl⟩ := List.mem_map.mp member
    obtain ⟨member, index⟩ := List.mem_filter.mp inside
    exact ⟨w.encode e, rep.objects e member,
      (rep.sized.ull_slot _).trans (of_decide_eq_true index)⟩
  · intro i v slot
    rw [rep.bucketed slot]
    exact rep.distinct.sublist (List.Sublist.map _ List.filter_sublist)

theorem deref (rep : w.Represents l) {e : Entry Addr F} (member : e ∈ l) :
    w.deref e.handle = .ok (w.encode e) := by
  simp only [TimeWheel.deref, rep.objects e member]

end Represents

theorem new_represents {nslots : Int32} (pos : 0 < nslots.toInt) (now : UInt64) :
    (new nslots now : TimeWheel F).Represents [] := by
  refine ⟨?_, ?_, ?_, by simp, by simp, by simp⟩
  · simp [new]
  · simpa [new] using pos
  · have size : (ullOfInt nslots).toNat = nslots.toInt.toNat := toNat_ullOfInt (by omega)
    simp [new, size, bucket, TimeWheel.nslots]

/-! ## AddTimer -/

theorem bucket_add (w : TimeWheel F) (l : List (Entry Addr F)) (p : Addr) (f : F)
    (timeout i : Nat) :
    w.bucket (Countdown.add l p f timeout) i =
      w.bucket l i ++ if w.slotOf timeout = i then [⟨p, f, timeout⟩] else [] := by
  by_cases here : w.slotOf timeout = i <;> simp [bucket, Countdown.add, here]

theorem addTimer_represents {w : TimeWheel F} {l : List (Entry Addr F)} (rep : w.Represents l)
    {p : Addr} (fresh : w.heap p = none) {timeout : UInt64}
    (fits : timeout.toNat / w.nslots ≤ intMax) (f : F) :
    ∃ w', w.AddTimer p timeout f = .ok (some p, w') ∧
      w'.Represents (Countdown.add l p f timeout.toNat) ∧
      w'.nslosts_ = w.nslosts_ ∧ w'.starttime_ = w.starttime_ := by
  have outside : ∀ e ∈ l, e.handle ≠ p := by
    intro e member same
    have := rep.objects e member
    rw [same, fresh] at this
    cases this
  refine ⟨_, rep.sized.addTimer p timeout f, ⟨rep.cur_nonneg, rep.cur_lt, ?_, ?_, ?_, ?_⟩, rfl, rfl⟩
  · show w.slots_.modify _ _ =
      (List.range w.nslots).map fun i => (w.bucket (Countdown.add l p f timeout.toNat) i).map
        Entry.handle
    rw [rep.slots, modify_range_map]
    apply List.map_congr_left
    intro i _
    by_cases here : i = w.slotOf timeout.toNat
    · simp [here, bucket_add]
    · simp [here, bucket_add, show ¬ w.slotOf timeout.toNat = i from fun h => here h.symm]
  · intro e member
    show _ = some (w.encode e)
    simp only [Countdown.add, List.mem_append, List.mem_singleton] at member
    rcases member with member | rfl
    · simpa [outside e member] using rep.objects e member
    · simp [encode]
  · intro e member
    simp only [Countdown.add, List.mem_append, List.mem_singleton] at member
    rcases member with member | rfl
    · exact rep.fits e member
    · exact fits
  · simp only [Countdown.add, List.map_append, List.map_cons, List.map_nil,
      List.nodup_append, rep.distinct, List.nodup_singleton, true_and]
    intro a member b last same
    obtain ⟨e, inside, rfl⟩ := List.mem_map.mp member
    exact outside e inside (same.trans (List.mem_singleton.mp last))

/-! ## DelTimer -/

theorem handle_inj {w : TimeWheel F} {l : List (Entry Addr F)} (rep : w.Represents l)
    {e e' : Entry Addr F} (member : e ∈ l) (member' : e' ∈ l) (same : e.handle = e'.handle) :
    e = e' :=
  List.inj_on_of_nodup_map rep.distinct member member' same

theorem bucket_del (w : TimeWheel F) (l : List (Entry Addr F)) (p : Addr) (i : Nat) :
    w.bucket (Countdown.del l p) i = (w.bucket l i).filter fun e => e.handle ≠ p := by
  simp [bucket, Countdown.del, Bool.and_comm]

theorem delTimer_represents {w : TimeWheel F} {l : List (Entry Addr F)} (rep : w.Represents l)
    {e : Entry Addr F} (member : e ∈ l) :
    ∃ w', w.DelTimer (some e.handle) = .ok w' ∧ w'.Represents (Countdown.del l e.handle) ∧
      w'.nslosts_ = w.nslosts_ ∧ w'.starttime_ = w.starttime_ := by
  have known : w.Known e.handle := by
    refine ⟨w.encode e, rep.objects e member, ?_⟩
    show (ullOfInt (Int32.ofNat _)).toNat < _
    rw [rep.sized.ull_slot]
    exact rep.sized.slotOf_lt _
  refine ⟨_, rep.placed.delTimer known, ⟨rep.cur_nonneg, rep.cur_lt, ?_, ?_, ?_, ?_⟩, rfl, rfl⟩
  · show w.slots_.map _ = (List.range w.nslots).map fun i =>
      (w.bucket (Countdown.del l e.handle) i).map Entry.handle
    rw [rep.slots, List.map_map]
    apply List.map_congr_left
    intro i _
    rw [Function.comp_apply, bucket_del, List.filter_map]
    congr 1
    apply List.filter_congr
    intro e' _
    simp
  · exact fun e' member' => rep.objects e' (Countdown.mem_del.mp member').1
  · exact fun e' member' => rep.fits e' (Countdown.mem_del.mp member').1
  · exact rep.distinct.sublist (List.Sublist.map _ List.filter_sublist)

/-! ## Tick -/

section Advance

variable {w : TimeWheel F} {l : List (Entry Addr F)}

/-- A timer that waits on stays in its slot. -/
theorem advance_slotOf (rep : w.Represents l) {remaining : Nat} (waits : remaining ≠ 0) :
    w.advance.slotOf (remaining - 1) = w.slotOf remaining := by
  rw [slotOf, rep.sized.advance_cursor, nslots_advance, Nat.mod_add_mod, slotOf]
  congr 1
  omega

theorem slotOf_eq_cursor (rep : w.Represents l) (remaining : Nat) :
    w.slotOf remaining = w.cursor ↔ remaining % w.nslots = 0 := by
  have low := rep.sized.cursor_lt
  have below := Nat.mod_lt remaining rep.sized.nslots_pos
  rw [slotOf, Nat.add_mod_eq_ite, Nat.mod_eq_of_lt low]
  split <;> omega

/-- Timers due now are those of the cursor's slot without rotations left. -/
theorem due_iff (rep : w.Represents l) (remaining : Nat) :
    remaining = 0 ↔ w.slotOf remaining = w.cursor ∧ remaining / w.nslots = 0 := by
  rw [slotOf_eq_cursor rep]
  constructor
  · rintro rfl
    simp
  · rintro ⟨slot, rotations⟩
    have := Nat.div_add_mod remaining w.nslots
    rw [slot, rotations] at this
    omega

/-- Waiting one tick takes a rotation exactly when the cursor is at the timer's slot. -/
theorem rotations_pred (rep : w.Represents l) {remaining : Nat} (waits : remaining ≠ 0) :
    (remaining - 1) / w.nslots =
      if w.slotOf remaining = w.cursor then remaining / w.nslots - 1
      else remaining / w.nslots := by
  obtain ⟨r, rfl⟩ := Nat.exists_eq_succ_of_ne_zero waits
  simp only [slotOf_eq_cursor rep, Nat.succ_eq_add_one, Nat.add_sub_cancel, Nat.succ_div,
    Nat.dvd_iff_mod_eq_zero]
  split <;> simp

theorem bucket_tick (rep : w.Represents l) (i : Nat) :
    (w.advance.bucket (Countdown.tick l) i).map Entry.handle =
      ((w.bucket l i).filter fun e => e.remaining ≠ 0).map Entry.handle := by
  have same : (l.filter fun e => e.remaining ≠ 0).filter
      ((fun e => decide (w.advance.slotOf e.remaining = i)) ∘ Entry.elapse) =
      (w.bucket l i).filter fun e => e.remaining ≠ 0 := by
    rw [bucket, List.filter_filter, List.filter_filter]
    apply List.filter_congr
    intro e _
    by_cases waits : e.remaining = 0
    · simp [waits]
    · simp [waits, advance_slotOf rep waits]
  rw [bucket, Countdown.tick, List.filter_map, same, List.map_map]
  rfl

/-- The cursor's slot as pointers with the objects they point to. -/
def current (w : TimeWheel F) (l : List (Entry Addr F)) : List (Addr × Timer F) :=
  (w.bucket l w.cursor).map fun e => (e.handle, w.encode e)

theorem current_handles (w : TimeWheel F) (l : List (Entry Addr F)) :
    (w.current l).map Prod.fst = (w.bucket l w.cursor).map Entry.handle := by
  simp [current, Function.comp_def]

theorem rotations_pos (rep : w.Represents l) {e : Entry Addr F} (member : e ∈ l)
    (slot : w.slotOf e.remaining = w.cursor) :
    (w.encode e).rotations_ > 0 ↔ e.remaining ≠ 0 := by
  have fits := rep.fits e member
  have due := due_iff rep e.remaining
  rw [gt_iff_lt, encode, ofNat_pos fits, Nat.pos_iff_ne_zero]
  exact ⟨fun h z => h ((due.mp z).2), fun h z => h (due.mpr ⟨slot, z⟩)⟩

theorem row_eq (rep : w.Represents l) : w.row = w.current l := by
  have slot : w.slots_[w.cursor]? = some ((w.bucket l w.cursor).map Entry.handle) := by
    rw [rep.slots, List.getElem?_map, List.getElem?_range rep.sized.cursor_lt]
    rfl
  have alive : ∀ e ∈ w.bucket l w.cursor, w.heap e.handle = some (w.encode e) :=
    fun e inside => rep.objects e (List.mem_filter.mp inside).1
  rw [row, List.getD_eq_getElem?_getD, slot, Option.getD_some, List.filterMap_map, current]
  apply List.filterMap_eq_map_iff_forall_eq_some.mpr
  intro e inside
  simp [alive e inside]

theorem current_fired (rep : w.Represents l) :
    ((w.current l).filter fun pt => ¬ pt.2.rotations_ > 0).map (fun pt => pt.2.func_) =
      Countdown.expired l := by
  rw [current, List.filter_map, List.map_map, bucket, List.filter_filter, Countdown.expired]
  refine congrArg (List.map Entry.callback) (List.filter_congr fun e member => ?_)
  simp only [Function.comp_apply]
  by_cases slot : w.slotOf e.remaining = w.cursor
  · simp [slot, rotations_pos rep member slot]
  · have : e.remaining ≠ 0 := fun zero => slot ((due_iff rep _).mp zero).1
    simp [slot, this]

/-- A timer that waits on loses a rotation in the cursor's slot, and nothing elsewhere. -/
theorem advance_encode (rep : w.Represents l) {e : Entry Addr F} (member : e ∈ l)
    (waits : e.remaining ≠ 0) :
    w.advance.encode e.elapse =
      if w.slotOf e.remaining = w.cursor then (w.encode e).DecreaseRotations else w.encode e := by
  have next : w.advance.encode e.elapse = ⟨Int32.ofNat ((e.remaining - 1) / w.nslots),
      Int32.ofNat (w.slotOf e.remaining), e.callback⟩ := by
    simp [encode, advance_slotOf rep waits]
  rw [next, rotations_pred rep waits]
  by_cases here : w.slotOf e.remaining = w.cursor
  · have pos : 0 < e.remaining / w.nslots :=
      Nat.pos_of_ne_zero fun zero => waits ((due_iff rep _).mpr ⟨here, zero⟩)
    rw [if_pos here, if_pos here, Timer.DecreaseRotations, encode,
      ofNat_sub_one pos (rep.fits e member)]
  · rw [if_neg here, if_neg here]
    rfl

theorem mem_current (rep : w.Represents l) {e : Entry Addr F} (member : e ∈ l) :
    e.handle ∈ (w.current l).map Prod.fst ↔ w.slotOf e.remaining = w.cursor := by
  rw [current_handles]
  constructor
  · intro walked
    obtain ⟨e', inside, same⟩ := List.mem_map.mp walked
    obtain ⟨member', slot⟩ := List.mem_filter.mp inside
    rw [← handle_inj rep member' member same]
    exact of_decide_eq_true slot
  · exact fun here => List.mem_map_of_mem (List.mem_filter.mpr ⟨member, by simpa using here⟩)

/-- The timers that have their turn are those due. -/
theorem mem_called (rep : w.Represents l) {e : Entry Addr F} (member : e ∈ l) :
    e.handle ∈ (w.called quiet).map Turn.handle ↔ e.remaining = 0 := by
  have turns : (w.called quiet).map Turn.handle =
      ((w.current l).filter fun pt => ¬ pt.2.rotations_ > 0).map Prod.fst := by
    rw [← row_eq rep, ← turns_quiet [] w.row, List.map_map]
    rfl
  rw [turns]
  constructor
  · intro inside
    obtain ⟨pt, due, same⟩ := List.mem_map.mp inside
    obtain ⟨here, spent⟩ := List.mem_filter.mp due
    obtain ⟨e', bucketed, rfl⟩ := List.mem_map.mp here
    obtain ⟨member', slot⟩ := List.mem_filter.mp bucketed
    obtain rfl := handle_inj rep member' member same
    by_contra waits
    exact of_decide_eq_true spent ((rotations_pos rep member (of_decide_eq_true slot)).mpr waits)
  · intro due
    have slot := ((due_iff rep _).mp due).1
    refine List.mem_map.mpr ⟨(e.handle, w.encode e), List.mem_filter.mpr ⟨?_, ?_⟩, rfl⟩
    · exact List.mem_map_of_mem (List.mem_filter.mpr ⟨member, by simpa using slot⟩)
    · simpa [rotations_pos rep member slot] using due

theorem called_fired (rep : w.Represents l) :
    ((w.called quiet).map fun turn => turn.timer.func_) = Countdown.expired l := by
  rw [← current_fired rep, ← row_eq rep, ← turns_quiet [] w.row, List.map_map]
  rfl

/-- **`Tick` is the list's tick**: it calls the callbacks of the entries without
ticks left, in insertion order, and the wheel it leaves is the wheel of the rest. -/
theorem tick_represents (rep : w.Represents l) :
    ∃ w', w.Tick quiet = .ok (Countdown.expired l, w') ∧ w'.Represents (Countdown.tick l) ∧
      w'.nslosts_ = w.nslosts_ ∧ w'.starttime_ = w.starttime_ := by
  obtain ⟨w', run, looped⟩ := rep.placed.tick_quiet
  rw [called_fired rep] at run
  have moved : w'.advance = { w.advance with slots_ := w'.slots_, heap := w'.heap } := by
    rw [advance, advance, looped.size, looped.curslot, looped.clock]
  refine ⟨w'.advance, run, ?_, looped.size, looped.clock⟩
  rw [moved]
  refine ⟨rep.sized.advance.cur_nonneg, rep.sized.advance.cur_lt, ?_, ?_, ?_, ?_⟩
  · show w'.slots_ = (List.range w.nslots).map fun i =>
      (w.advance.bucket (Countdown.tick l) i).map Entry.handle
    rw [looped.slots, rep.slots, List.map_map]
    apply List.map_congr_left
    intro i _
    rw [bucket_tick rep, Function.comp_apply, List.filter_map]
    congr 1
    apply List.filter_congr
    intro e inside
    simp [mem_called rep (List.mem_filter.mp inside).1, -List.mem_map]
  · intro e member
    obtain ⟨e, inside, waits, rfl⟩ := Countdown.mem_tick.mp member
    show w'.heap e.handle = some (w.advance.encode e.elapse)
    rw [advance_encode rep inside waits]
    by_cases here : w.slotOf e.remaining = w.cursor
    · have met : (e.handle, w.encode e) ∈ w.row := by
        rw [row_eq rep]
        exact List.mem_map_of_mem (List.mem_filter.mpr ⟨inside, by simpa using here⟩)
      rcases looped.kept _ met ((mem_called rep inside).not.mpr waits) with ⟨gone, -⟩ | ⟨-, after⟩
      · simp at gone
      · rw [if_pos here]
        exact after
    · rw [if_neg here, looped.others, rep.objects e inside]
      rw [row_eq rep]
      exact fun met => here ((mem_current rep inside).mp met)
  · intro e member
    obtain ⟨e, inside, -, rfl⟩ := Countdown.mem_tick.mp member
    exact Nat.le_trans (Nat.div_le_div_right (Nat.sub_le _ _)) (rep.fits e inside)
  · have handles : (Countdown.tick l).map Entry.handle =
        (l.filter fun e => e.remaining ≠ 0).map Entry.handle := by
      simp [Countdown.tick, Function.comp_def]
    rw [handles]
    exact rep.distinct.sublist (List.Sublist.map _ List.filter_sublist)

end Advance

end TimeWheel

end Codesnip.Common.Timer
