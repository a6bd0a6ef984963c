/-
# Common.TimerHeap -- the pointers of the wheel and the objects behind them

`Placed w` is what the wheel's own pointers keep for every timeout: a pointer in a
slot points to a live object that names this slot, and no slot has it twice.  Each
call is one equation on a placed wheel: `AddTimer` appends to one slot and makes an
object (`filed`), `DelTimer` takes its pointer out of every slot and deletes nothing
(`without`), the destructor deletes what stands in a slot (`destroyed`).  What `Tick` does
is said in `Common.TimerTurns`.
-/
import Codesnip.Common.Timer
import Mathlib.Data.List.Nodup

namespace Codesnip.Common.Timer

open Codesnip.Theory.Word

set_option autoImplicit false
set_option linter.dupNamespace false

variable {F : Type}

namespace TimeWheel

def nslots (w : TimeWheel F) : Nat := w.nslosts_.toInt.toNat

def cursor (w : TimeWheel F) : Nat := w.curslot_.toInt.toNat

/-- The slot in which `remaining` ticks from now end. -/
def slotOf (w : TimeWheel F) (remaining : Nat) : Nat := (w.cursor + remaining) % w.nslots

section Frame

variable (w : TimeWheel F) (i : Int32) (v : List Addr) (p : Addr) (t : Timer F)

@[simp] theorem nslots_setSlot : (w.setSlot i v).nslots = w.nslots := rfl
@[simp] theorem nslots_store : (w.store p t).nslots = w.nslots := rfl
@[simp] theorem slotOf_setSlot : (w.setSlot i v).slotOf = w.slotOf := rfl
@[simp] theorem slotOf_store : (w.store p t).slotOf = w.slotOf := rfl
@[simp] theorem heap_setSlot : (w.setSlot i v).heap = w.heap := rfl
@[simp] theorem heap_store : (w.store p t).heap = Function.update w.heap p (some t) := rfl
@[simp] theorem heap_drop : (w.drop p).heap = Function.update w.heap p none := rfl
@[simp] theorem slots_store : (w.store p t).slots_ = w.slots_ := rfl
@[simp] theorem slots_drop : (w.drop p).slots_ = w.slots_ := rfl
@[simp] theorem slots_setSlot :
    (w.setSlot i v).slots_ = w.slots_.set (ullOfInt i).toNat v := rfl

end Frame

/-! ## A wheel of the right size -/

/-- The cursor is in range, and the slot vector has `nslosts_` slots. -/
structure Sized (w : TimeWheel F) : Prop where
  cur_nonneg : 0 ≤ w.curslot_.toInt
  cur_lt : w.curslot_.toInt < w.nslosts_.toInt
  length : w.slots_.length = w.nslots

theorem nslots_le (w : TimeWheel F) : w.nslots ≤ intMax := by
  have := w.nslosts_.toInt_lt
  unfold nslots intMax
  omega

namespace Sized

variable {w : TimeWheel F}

theorem nslots_pos (sized : w.Sized) : 0 < w.nslots := by
  have := sized.cur_nonneg
  have := sized.cur_lt
  unfold nslots
  omega

theorem nslots_value (sized : w.Sized) : (w.nslots : Int) = w.nslosts_.toInt := by
  have := sized.cur_nonneg
  have := sized.cur_lt
  unfold nslots
  omega

theorem cursor_lt (sized : w.Sized) : w.cursor < w.nslots := by
  have := sized.cur_nonneg
  have := sized.cur_lt
  unfold nslots cursor
  omega

theorem slotOf_lt (sized : w.Sized) (remaining : Nat) : w.slotOf remaining < w.nslots :=
  Nat.mod_lt _ sized.nslots_pos

theorem slotOf_fits (sized : w.Sized) (remaining : Nat) : w.slotOf remaining ≤ intMax :=
  Nat.le_of_lt (Nat.lt_of_lt_of_le (sized.slotOf_lt remaining) (nslots_le w))

theorem ull_nslots (sized : w.Sized) : (ullOfInt w.nslosts_).toNat = w.nslots := by
  have := sized.cur_nonneg
  have := sized.cur_lt
  exact toNat_ullOfInt (by omega)

theorem ull_cursor (sized : w.Sized) : (ullOfInt w.curslot_).toNat = w.cursor :=
  toNat_ullOfInt sized.cur_nonneg

theorem ull_slot (sized : w.Sized) (remaining : Nat) :
    (ullOfInt (Int32.ofNat (w.slotOf remaining))).toNat = w.slotOf remaining := by
  have value := toInt_ofNat (sized.slotOf_fits remaining)
  rw [toNat_ullOfInt (by omega), value, Int.toNat_natCast]

/-- The index `AddTimer` computes in `unsigned long long` is the slot ahead of the
cursor in which the timeout ends. -/
theorem addTimer_slot (sized : w.Sized) (timeout : UInt64) :
    intOfUll ((ullOfInt w.curslot_ + timeout % ullOfInt w.nslosts_) % ullOfInt w.nslosts_) =
      Int32.ofNat (w.slotOf timeout.toNat) := by
  have sum : (ullOfInt w.curslot_ + timeout % ullOfInt w.nslosts_).toNat =
      w.cursor + timeout.toNat % w.nslots := by
    have := sized.cursor_lt
    have := Nat.mod_lt timeout.toNat sized.nslots_pos
    have bound := nslots_le w
    unfold intMax at bound
    rw [UInt64.toNat_add, UInt64.toNat_mod, sized.ull_nslots, sized.ull_cursor, Nat.mod_eq_of_lt]
    omega
  rw [intOfUll_eq, UInt64.toNat_mod, sum, sized.ull_nslots, slotOf, Nat.add_mod_mod]

/-- The quotient handed over as an `int` is the number of full rotations. -/
theorem addTimer_rotations (sized : w.Sized) (timeout : UInt64) :
    intOfUll (timeout / ullOfInt w.nslosts_) = Int32.ofNat (timeout.toNat / w.nslots) := by
  rw [intOfUll_eq, UInt64.toNat_div, sized.ull_nslots]

end Sized

/-- The wheel after `AddTimer`, for a wheel of the right size. -/
def filed (w : TimeWheel F) (p : Addr) (timeout : UInt64) (f : F) : TimeWheel F :=
  { w with
    slots_ := w.slots_.modify (w.slotOf timeout.toNat) fun v => v ++ [p]
    heap := Function.update w.heap p (some ⟨Int32.ofNat (timeout.toNat / w.nslots),
      Int32.ofNat (w.slotOf timeout.toNat), f⟩) }

@[simp] theorem heap_filed (w : TimeWheel F) (p : Addr) (timeout : UInt64) (f : F) :
    (w.filed p timeout f).heap = Function.update w.heap p
      (some ⟨Int32.ofNat (timeout.toNat / w.nslots), Int32.ofNat (w.slotOf timeout.toNat), f⟩) :=
  rfl

theorem slotAt_eq {w : TimeWheel F} {i : Int32} {v : List Addr}
    (found : w.slots_[(ullOfInt i).toNat]? = some v) : w.slotAt i = .ok v := by
  simp only [slotAt, found]

theorem new_sized {nslots : Int32} (pos : 0 < nslots.toInt) (now : UInt64) :
    (new nslots now : TimeWheel F).Sized := by
  refine ⟨by simp [new], by simpa [new] using pos, ?_⟩
  have size : (ullOfInt nslots).toNat = nslots.toInt.toNat := toNat_ullOfInt (by omega)
  simp [new, size, TimeWheel.nslots]

theorem set_eq_modify {α : Type} (l : List α) (f : α → α) {i : Nat} (bound : i < l.length) :
    l.set i (f l[i]) = l.modify i f := by
  apply List.ext_getElem?
  intro j
  rw [List.getElem?_set, List.getElem?_modify]
  by_cases same : i = j
  · subst same
    simp [bound]
  · simp [same]

/-- `AddTimer` is `filed`: the guard never holds and the slot index is in range. -/
theorem Sized.addTimer {w : TimeWheel F} (sized : w.Sized) (p : Addr) (timeout : UInt64) (f : F) :
    w.AddTimer p timeout f = .ok (some p, w.filed p timeout f) := by
  have unsigned : ¬ timeout < 0 := by simp [UInt64.lt_iff_toNat_lt]
  have bound : w.slotOf timeout.toNat < w.slots_.length := by
    rw [sized.length]
    exact sized.slotOf_lt _
  have found (t : Timer F) : (w.store p t).slotAt (Int32.ofNat (w.slotOf timeout.toNat)) =
      .ok w.slots_[w.slotOf timeout.toNat] := by
    apply slotAt_eq
    rw [sized.ull_slot]
    exact List.getElem?_eq_getElem bound
  simp only [AddTimer, unsigned, if_false]
  rw [sized.addTimer_slot, sized.addTimer_rotations, found]
  show Except.ok (some p, _) = _
  rw [filed, ← set_eq_modify _ _ bound, setSlot, sized.ull_slot]
  rfl

/-! ## Pointers and objects -/

/-- A pointer in a slot points to a live object that names this slot, and no slot has
it twice. -/
structure Placed (w : TimeWheel F) : Prop extends Sized w where
  home : ∀ (i : Nat) (v : List Addr) (p : Addr), w.slots_[i]? = some v → p ∈ v →
    ∃ t, w.heap p = some t ∧ (ullOfInt t.slot_).toNat = i
  distinct : ∀ (i : Nat) (v : List Addr), w.slots_[i]? = some v → v.Nodup

/-- The object at `p` is alive and names a slot of the wheel. -/
def Known (w : TimeWheel F) (p : Addr) : Prop :=
  ∃ t, w.heap p = some t ∧ (ullOfInt t.slot_).toNat < w.nslots

/-- `p` is in some slot. -/
def Pending (w : TimeWheel F) (p : Addr) : Prop := ∃ v ∈ w.slots_, p ∈ v

instance (w : TimeWheel F) (p : Addr) : Decidable (w.Pending p) :=
  inferInstanceAs (Decidable (∃ v ∈ w.slots_, p ∈ v))

/-- The wheel with the pointers `ps` taken out of its slots. -/
def without (w : TimeWheel F) (ps : List Addr) : TimeWheel F :=
  { w with slots_ := w.slots_.map fun v => v.filter fun q => q ∉ ps }

theorem filter_absent {ps v : List Addr} (absent : ∀ p ∈ ps, p ∉ v) :
    v.filter (fun q => q ∉ ps) = v := by
  apply List.filter_eq_self.mpr
  intro q member
  simpa using fun inside => absent q inside member

@[simp] theorem heap_without (w : TimeWheel F) (ps : List Addr) : (w.without ps).heap = w.heap :=
  rfl

@[simp] theorem slots_without (w : TimeWheel F) (ps : List Addr) :
    (w.without ps).slots_ = w.slots_.map fun v => v.filter fun q => q ∉ ps := rfl

@[simp] theorem without_nil (w : TimeWheel F) : w.without [] = w := by
  have whole : (fun v : List Addr => v.filter fun q => q ∉ []) = id := by
    funext v
    simp
  rw [without, whole, List.map_id]

@[simp] theorem curslot_without (w : TimeWheel F) (ps : List Addr) :
    (w.without ps).curslot_ = w.curslot_ := rfl

theorem without_append (w : TimeWheel F) (ps qs : List Addr) :
    (w.without ps).without qs = w.without (ps ++ qs) := by
  simp [without, Function.comp_def, List.filter_filter, Bool.and_comm]

theorem new_placed {nslots : Int32} (pos : 0 < nslots.toInt) (now : UInt64) :
    (new nslots now : TimeWheel F).Placed := by
  refine ⟨new_sized pos now, ?_, ?_⟩
  · intro i v p slot member
    rw [List.eq_of_mem_replicate (List.mem_of_getElem? slot)] at member
    cases member
  · intro i v slot
    rw [List.eq_of_mem_replicate (List.mem_of_getElem? slot)]
    exact List.nodup_nil

theorem pending_filed {w : TimeWheel F} (sized : w.Sized) (p : Addr) (timeout : UInt64) (f : F)
    {q : Addr} : (w.filed p timeout f).Pending q ↔ w.Pending q ∨ q = p := by
  have bound : w.slotOf timeout.toNat < w.slots_.length := by
    rw [sized.length]
    exact sized.slotOf_lt _
  have slots : ∀ i : Nat, (w.filed p timeout f).slots_[i]? =
      w.slots_[i]?.map fun v => if w.slotOf timeout.toNat = i then v ++ [p] else v := by
    intro i
    rw [filed, List.getElem?_modify]
    rfl
  constructor
  · rintro ⟨v, slot, member⟩
    obtain ⟨i, here⟩ := List.mem_iff_getElem?.mp slot
    rw [slots] at here
    obtain ⟨v', before, rfl⟩ := Option.map_eq_some_iff.mp here
    have old : v' ∈ w.slots_ := List.mem_of_getElem? before
    split at member
    · rcases List.mem_append.mp member with inside | new
      · exact .inl ⟨v', old, inside⟩
      · exact .inr (List.mem_singleton.mp new)
    · exact .inl ⟨v', old, member⟩
  · rintro (⟨v, slot, member⟩ | rfl)
    · obtain ⟨i, here⟩ := List.mem_iff_getElem?.mp slot
      refine ⟨_, List.mem_of_getElem? ((slots i).trans (by rw [here]; rfl)), ?_⟩
      split
      · exact List.mem_append_left _ member
      · exact member
    · refine ⟨_, List.mem_of_getElem?
        ((slots (w.slotOf timeout.toNat)).trans (by rw [List.getElem?_eq_getElem bound]; rfl)), ?_⟩
      simp

namespace Placed

variable {w : TimeWheel F}

/-- What is in a slot is alive and names that slot. -/
theorem known (placed : w.Placed) {p : Addr} (pending : w.Pending p) : w.Known p := by
  obtain ⟨v, slot, member⟩ := pending
  obtain ⟨i, here⟩ := List.mem_iff_getElem?.mp slot
  obtain ⟨t, alive, index⟩ := placed.home i v p here member
  refine ⟨t, alive, ?_⟩
  rw [index, ← placed.length]
  exact (List.getElem?_eq_some_iff.mp here).1

/-- No pointer is twice in all the slots together. -/
theorem flatten_nodup (placed : w.Placed) : w.slots_.flatten.Nodup := by
  rw [List.nodup_flatten]
  constructor
  · intro v member
    obtain ⟨i, slot⟩ := List.mem_iff_getElem?.mp member
    exact placed.distinct i v slot
  · rw [List.pairwise_iff_getElem]
    intro i j inI inJ less p memI memJ
    obtain ⟨t, alive, indexI⟩ := placed.home i _ p (List.getElem?_eq_getElem inI) memI
    obtain ⟨t', alive', indexJ⟩ := placed.home j _ p (List.getElem?_eq_getElem inJ) memJ
    rw [alive] at alive'
    cases alive'
    omega

/-- A pending timer is alive, and its pointer occurs once in all the slots: in the
slot its object names. -/
theorem pending_once (placed : w.Placed) {p : Addr} (pending : w.Pending p) :
    ∃ t v, w.heap p = some t ∧ w.slotAt t.GetSlot = .ok v ∧ v.count p = 1 ∧
      w.slots_.flatten.count p = 1 := by
  obtain ⟨v, slot, member⟩ := pending
  obtain ⟨i, here⟩ := List.mem_iff_getElem?.mp slot
  obtain ⟨t, alive, index⟩ := placed.home i v p here member
  exact ⟨t, v, alive, slotAt_eq (index ▸ here),
    List.count_eq_one_of_mem (placed.distinct i v here) member,
    List.count_eq_one_of_mem placed.flatten_nodup (List.mem_flatten.mpr ⟨v, slot, member⟩)⟩

theorem without (placed : w.Placed) (ps : List Addr) : (w.without ps).Placed := by
  have slots : ∀ (i : Nat) (v : List Addr), (w.without ps).slots_[i]? = some v →
      ∃ v' : List Addr, w.slots_[i]? = some v' ∧ v = v'.filter fun q => q ∉ ps := by
    intro i v slot
    rw [slots_without, List.getElem?_map] at slot
    obtain ⟨v', before, same⟩ := Option.map_eq_some_iff.mp slot
    exact ⟨v', before, same.symm⟩
  refine ⟨⟨placed.cur_nonneg, placed.cur_lt, ?_⟩, ?_, ?_⟩
  · rw [slots_without, List.length_map]
    exact placed.length
  · intro i v p slot member
    obtain ⟨v', before, rfl⟩ := slots i v slot
    exact placed.home i v' p before (List.mem_filter.mp member).1
  · intro i v slot
    obtain ⟨v', before, rfl⟩ := slots i v slot
    exact (placed.distinct i v' before).filter _

/-- Taking a pointer out of the one slot it can be in. -/
theorem set_filter (placed : w.Placed) {p : Addr} {t : Timer F} (alive : w.heap p = some t)
    {v : List Addr} (slot : w.slots_[(ullOfInt t.slot_).toNat]? = some v) :
    w.slots_.set (ullOfInt t.slot_).toNat (v.filter fun q => q ∉ [p]) = (w.without [p]).slots_ := by
  apply List.ext_getElem?
  intro i
  rw [List.getElem?_set, slots_without, List.getElem?_map]
  have bound := (List.getElem?_eq_some_iff.mp slot).1
  by_cases here : (ullOfInt t.slot_).toNat = i
  · subst here
    rw [if_pos rfl, if_pos bound, slot]
    rfl
  · rw [if_neg here]
    cases other : w.slots_[i]? with
    | none => rfl
    | some v' =>
        have absent : p ∉ v' := by
          intro member
          obtain ⟨t', alive', index⟩ := placed.home i v' p other member
          rw [alive] at alive'
          cases alive'
          exact here index
        rw [Option.map_some, filter_absent (by simpa using absent)]

/-- **`DelTimer` takes its pointer out of the slots** and leaves the object alive. -/
theorem delTimer (placed : w.Placed) {p : Addr} (known : w.Known p) :
    w.DelTimer (some p) = .ok (w.without [p]) := by
  obtain ⟨t, alive, range⟩ := known
  obtain ⟨v, slot⟩ : ∃ v, w.slots_[(ullOfInt t.slot_).toNat]? = some v :=
    ⟨_, List.getElem?_eq_getElem (by rwa [placed.length])⟩
  have taken := placed.set_filter alive slot
  have erased : v.filter (fun q => q ∉ [p]) = v.erase p := by
    rw [(placed.distinct _ v slot).erase_eq_filter]
    apply List.filter_congr
    intro q _
    by_cases same : q = p <;> simp [same]
  simp only [DelTimer, deref, alive]
  show (w.slotAt t.slot_ >>= _) = _
  rw [slotAt_eq slot]
  show ite _ _ _ = _
  by_cases present : p ∈ v
  · rw [if_pos present, ← erased]
    exact congrArg (fun slots => Except.ok { w with slots_ := slots }) taken
  · have same : w.slots_.set (ullOfInt t.slot_).toNat v = w.slots_ := by
      obtain ⟨bound, value⟩ := List.getElem?_eq_some_iff.mp slot
      rw [← value]
      exact List.set_getElem_self bound
    rw [if_neg present]
    rw [erased, List.erase_of_not_mem present, same] at taken
    exact congrArg (fun slots => Except.ok { w with slots_ := slots }) taken

/-- A callback takes out what it cancels. -/
theorem active (cancels : F → List Addr) (placed : w.Placed) (t : Timer F)
    (known : ∀ p ∈ cancels t.func_, w.Known p) :
    Active cancels w t = .ok (w.without (cancels t.func_)) := by
  rw [Active]
  generalize cancels t.func_ = ps at known ⊢
  induction ps generalizing w with
  | nil => rw [without_nil]; rfl
  | cons p ps ih =>
      rw [List.foldlM_cons, placed.delTimer (known p List.mem_cons_self)]
      show List.foldlM _ _ _ = _
      rw [ih (placed.without [p]) fun q member => known q (List.mem_cons_of_mem p member),
        without_append]
      rfl

/-- A live object keeps its slot when only its rotations change. -/
theorem decrease (placed : w.Placed) {p : Addr} {t : Timer F} (alive : w.heap p = some t) :
    (w.store p t.DecreaseRotations).Placed := by
  refine ⟨⟨placed.cur_nonneg, placed.cur_lt, placed.length⟩, ?_, placed.distinct⟩
  intro i v q slot member
  obtain ⟨u, here, index⟩ := placed.home i v q slot member
  by_cases same : q = p
  · subst same
    rw [alive] at here
    cases here
    exact ⟨t.DecreaseRotations, by simp, index⟩
  · exact ⟨u, by simpa [same] using here, index⟩

/-- Deleting an object that no slot points to. -/
theorem drop (placed : w.Placed) {p : Addr} (gone : ∀ v ∈ w.slots_, p ∉ v) : (w.drop p).Placed := by
  refine ⟨⟨placed.cur_nonneg, placed.cur_lt, placed.length⟩, ?_, placed.distinct⟩
  intro i v q slot member
  obtain ⟨u, here, index⟩ := placed.home i v q slot member
  have other : q ≠ p := by
    rintro rfl
    exact gone v (List.mem_of_getElem? slot) member
  exact ⟨u, by simpa [other] using here, index⟩

end Placed

namespace Known

variable {w : TimeWheel F} {p q : Addr}

theorem decrease {t : Timer F} (known : w.Known q) (alive : w.heap p = some t) :
    (w.store p t.DecreaseRotations).Known q := by
  obtain ⟨u, here, range⟩ := known
  by_cases same : q = p
  · subst same
    rw [alive] at here
    cases here
    exact ⟨t.DecreaseRotations, by simp, range⟩
  · exact ⟨u, by simpa [same] using here, range⟩

theorem drop (ps : List Addr) (known : w.Known q) (other : q ≠ p) :
    ((w.without ps).drop p).Known q := by
  obtain ⟨u, here, range⟩ := known
  exact ⟨u, by simpa [other] using here, range⟩

end Known

namespace Placed

variable {w : TimeWheel F}

/-- A new object, in the one slot it names. -/
theorem filed (placed : w.Placed) {p : Addr} (fresh : w.heap p = none) (timeout : UInt64) (f : F) :
    (w.filed p timeout f).Placed := by
  have sized := placed.toSized
  have slots : ∀ (i : Nat) (v : List Addr), (w.filed p timeout f).slots_[i]? = some v →
      ∃ v', w.slots_[i]? = some v' ∧ v = v' ++ if w.slotOf timeout.toNat = i then [p] else [] := by
    intro i v slot
    rw [TimeWheel.filed, List.getElem?_modify] at slot
    obtain ⟨v', before, same⟩ := Option.map_eq_some_iff.mp slot
    refine ⟨v', before, same.symm.trans ?_⟩
    split <;> simp
  have outside : ∀ (i : Nat) (v : List Addr), w.slots_[i]? = some v → p ∉ v := by
    intro i v slot member
    obtain ⟨t, alive, -⟩ := placed.home i v p slot member
    rw [fresh] at alive
    cases alive
  refine ⟨⟨placed.cur_nonneg, placed.cur_lt, ?_⟩, ?_, ?_⟩
  · rw [TimeWheel.filed, List.length_modify]
    exact placed.length
  · intro i v q slot member
    obtain ⟨v', before, rfl⟩ := slots i v slot
    rcases List.mem_append.mp member with old | new
    · obtain ⟨u, here, index⟩ := placed.home i v' q before old
      have other : q ≠ p := fun same => outside i v' before (same ▸ old)
      exact ⟨u, by simpa [other] using here, index⟩
    · split at new
      · rename_i here
        obtain rfl := List.mem_singleton.mp new
        exact ⟨_, Function.update_self q _ w.heap, (sized.ull_slot _).trans here⟩
      · cases new
  · intro i v slot
    obtain ⟨v', before, rfl⟩ := slots i v slot
    have distinct := placed.distinct i v' before
    split
    · refine List.nodup_append.mpr ⟨distinct, List.nodup_singleton p, ?_⟩
      intro a old b new same
      exact outside i v' before (List.mem_singleton.mp new ▸ same ▸ old)
    · simpa using distinct

end Placed

/-! ## The destructor -/

theorem free_each (ps : List Addr) (w : TimeWheel F) (distinct : ps.Nodup)
    (alive : ∀ p ∈ ps, w.heap p ≠ none) :
    ps.foldlM (fun w timer => w.free timer) w =
      .ok { w with heap := fun p => if p ∈ ps then none else w.heap p } := by
  induction ps generalizing w with
  | nil => simp [pure, Except.pure]
  | cons p ps ih =>
      obtain ⟨fresh, rest⟩ := List.nodup_cons.mp distinct
      obtain ⟨t, here⟩ := Option.ne_none_iff_exists'.mp (alive p List.mem_cons_self)
      have freed : w.free p = .ok (w.drop p) := by simp only [free, here]
      rw [List.foldlM_cons, freed]
      show List.foldlM _ (w.drop p) ps = _
      rw [ih (w.drop p) rest]
      · congr 2
        funext q
        by_cases same : q = p <;> simp [same]
      · intro q member
        have other : q ≠ p := fun same => fresh (same ▸ member)
        simpa [other] using alive q (List.mem_cons_of_mem p member)

theorem foldlM_flatten {α β ε : Type} (f : β → α → Except ε β) (vs : List (List α)) (b : β) :
    vs.foldlM (fun b v => v.foldlM f b) b = vs.flatten.foldlM f b := by
  induction vs generalizing b with
  | nil => rfl
  | cons v vs ih =>
      rw [List.foldlM_cons, List.flatten_cons, List.foldlM_append]
      exact congrArg (v.foldlM f b >>= ·) (funext ih)

/-- The wheel without the objects that stand in its slots. -/
def destroyed (w : TimeWheel F) : TimeWheel F :=
  { w with heap := fun p => if w.Pending p then none else w.heap p }

theorem destroyed_alive {w : TimeWheel F} {p : Addr} {t : Timer F} :
    w.destroyed.heap p = some t ↔ w.heap p = some t ∧ ¬ w.Pending p := by
  by_cases pending : w.Pending p <;> simp [destroyed, pending]

/-- The destructor deletes exactly the pending timers, each once. -/
theorem Placed.destroy {w : TimeWheel F} (placed : w.Placed) : w.destroy = .ok w.destroyed := by
  have pending : ∀ p, p ∈ w.slots_.flatten ↔ w.Pending p := fun p => List.mem_flatten
  rw [TimeWheel.destroy, foldlM_flatten, free_each _ _ placed.flatten_nodup]
  · simp only [pending, destroyed]
  · intro p member
    obtain ⟨t, alive, -⟩ := placed.known ((pending p).mp member)
    simp [alive]

end TimeWheel

end Codesnip.Common.Timer
