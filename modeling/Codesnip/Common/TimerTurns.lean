/-
# Common.TimerTurns -- what `Tick` does

A `Turn` is a timer `Tick` calls: one that has no rotations left when the iterator
comes to it and was not cancelled by an earlier turn.  As long as no callback
cancels its own timer or one that the iterator has passed (`Forward`), the
iterator stays where it was and `Tick` fires the turns, frees them, takes them and
what they cancelled out of the slots, and takes one rotation from the others
(`Placed.tick`).
-/
import Codesnip.Common.TimerHeap

namespace Codesnip.Common.Timer

open Codesnip.Theory.Word

set_option autoImplicit false
set_option linter.dupNamespace false

variable {F : Type}

namespace TimeWheel

/-! ## Turns -/

/-- A timer called by `Tick`, with those that the iterator has passed in the slot. -/
structure Turn (F : Type) where
  behind : List Addr
  handle : Addr
  timer : Timer F

/-- The turns of the timers `es`, those of `behind` being past and `gone` being
cancelled.  A cancelled timer is out of the slot when the iterator comes to where it stood. -/
def turns (cancels : F → List Addr) :
    (behind gone : List Addr) → List (Addr × Timer F) → List (Turn F)
  | _, _, [] => []
  | behind, gone, (p, t) :: es =>
      if p ∈ gone then turns cancels behind gone es
      else if t.rotations_ > 0 then turns cancels (behind ++ [p]) gone es
      else ⟨behind, p, t⟩ :: turns cancels (behind ++ [p]) (gone ++ cancels t.func_) es

/-- No turn cancels its own timer or one before it. -/
def Forward (cancels : F → List Addr) (ts : List (Turn F)) : Prop :=
  ∀ turn ∈ ts, ∀ c ∈ cancels turn.timer.func_, c ∉ turn.behind ∧ c ≠ turn.handle

/-- What the turns cancel. -/
def cancelled (cancels : F → List Addr) (ts : List (Turn F)) : List Addr :=
  ts.flatMap fun turn => cancels turn.timer.func_

theorem behind_subset {cancels : F → List Addr} {behind gone : List Addr}
    {es : List (Addr × Timer F)} {turn : Turn F} (member : turn ∈ turns cancels behind gone es) :
    behind ⊆ turn.behind := by
  induction es generalizing behind gone with
  | nil => cases member
  | cons pt es ih =>
      rw [turns] at member
      split at member
      · exact ih member
      split at member
      · exact List.Subset.trans (List.subset_append_left _ _) (ih member)
      · rcases List.mem_cons.mp member with rfl | member
        · exact List.Subset.refl _
        · exact List.Subset.trans (List.subset_append_left _ _) (ih member)

theorem turn_mem {cancels : F → List Addr} {behind gone : List Addr}
    {es : List (Addr × Timer F)} {turn : Turn F} (member : turn ∈ turns cancels behind gone es) :
    (turn.handle, turn.timer) ∈ es := by
  induction es generalizing behind gone with
  | nil => cases member
  | cons pt es ih =>
      rw [turns] at member
      split at member
      · exact List.mem_cons_of_mem _ (ih member)
      split at member
      · exact List.mem_cons_of_mem _ (ih member)
      · rcases List.mem_cons.mp member with rfl | member
        · exact List.mem_cons_self
        · exact List.mem_cons_of_mem _ (ih member)

/-! ## The loop of `Tick` -/

section Round

variable {active : TimeWheel F → Timer F → Except Fault (TimeWheel F)} {it : Nat}
  {w w₁ : TimeWheel F} {v v₁ : List Addr} {p : Addr} {t : Timer F}

theorem tickLoop_end (fuel : Nat) (slot : w.slots_[(ullOfInt w.curslot_).toNat]? = some v) :
    tickLoop active (fuel + 1) v.length w = .ok ([], w) := by
  rw [tickLoop, slotAt_eq slot]
  exact if_pos rfl

theorem tickLoop_wait (fuel : Nat) (slot : w.slots_[(ullOfInt w.curslot_).toNat]? = some v)
    (here : v[it]? = some p) (alive : w.heap p = some t) (waits : t.rotations_ > 0) :
    tickLoop active (fuel + 1) it w =
      tickLoop active fuel (it + 1) (w.store p t.DecreaseRotations) := by
  have bound : it ≠ v.length := Nat.ne_of_lt (List.getElem?_eq_some_iff.mp here).1
  rw [tickLoop, slotAt_eq slot]
  show ite _ _ _ = _
  rw [if_neg bound, here]
  simp only [deref, alive]
  exact if_pos waits

theorem tickLoop_fire (fuel : Nat) (slot : w.slots_[(ullOfInt w.curslot_).toNat]? = some v)
    (here : v[it]? = some p) (alive : w.heap p = some t) (due : ¬ t.rotations_ > 0)
    (called : active w t = .ok w₁)
    (slot₁ : w₁.slots_[(ullOfInt w₁.curslot_).toNat]? = some v₁) (inside : it < v₁.length)
    (alive₁ : w₁.heap p = some t) :
    tickLoop active (fuel + 1) it w =
      (tickLoop active fuel it ((w₁.setSlot w₁.curslot_ (v₁.eraseIdx it)).drop p)).map
        fun r => (t.func_ :: r.1, r.2) := by
  have bound : it < v.length := (List.getElem?_eq_some_iff.mp here).1
  rw [tickLoop, slotAt_eq slot]
  show ite _ _ _ = _
  rw [if_neg (Nat.ne_of_lt bound), here]
  simp only [deref, alive]
  show (if t.rotations_ > 0 then _ else _) = _
  rw [if_neg due, called]
  show (w₁.slotAt w₁.curslot_ >>= _) = _
  rw [slotAt_eq slot₁]
  show ite _ _ _ = _
  rw [if_pos inside]
  simp only [free, heap_setSlot, alive₁]
  show (tickLoop _ _ _ _ >>= _) = _
  cases tickLoop active fuel it ((w₁.setSlot w₁.curslot_ (v₁.eraseIdx it)).drop p) <;> rfl

end Round

section Loop

variable {cancels : F → List Addr}

/-- Erasing at the iterator takes out the pointer that stands there. -/
theorem Placed.erase {w : TimeWheel F} (placed : w.Placed) {pre post : List Addr} {p : Addr}
    (slot : w.slots_[(ullOfInt w.curslot_).toNat]? = some (pre ++ p :: post)) :
    w.setSlot w.curslot_ ((pre ++ p :: post).eraseIdx pre.length) = w.without [p] ∧
      (w.without [p]).slots_[(ullOfInt w.curslot_).toNat]? = some (pre ++ post) := by
  obtain ⟨t, alive, index⟩ := placed.home _ _ p slot (by simp)
  have distinct := placed.distinct _ _ slot
  have taken := placed.set_filter alive (index.symm ▸ slot)
  have left : (pre ++ p :: post).eraseIdx pre.length = pre ++ post := by
    rw [List.eraseIdx_append_of_length_le (Nat.le_refl _), Nat.sub_self, List.eraseIdx_cons_zero]
  have filtered : (pre ++ p :: post).filter (fun q => q ∉ [p]) = pre ++ post := by
    have apart : p ∉ pre ∧ p ∉ post := by
      obtain ⟨-, later, between⟩ := List.nodup_append.mp distinct
      exact ⟨fun member => between p member p List.mem_cons_self rfl, (List.nodup_cons.mp later).1⟩
    rw [List.filter_append, List.filter_cons, filter_absent (by simpa using apart.1),
      filter_absent (by simpa using apart.2)]
    simp
  rw [index, filtered] at taken
  constructor
  · rw [setSlot, left]
    exact congrArg (fun slots => { w with slots_ := slots }) taken
  · rw [← taken, List.getElem?_set_self (List.getElem?_eq_some_iff.mp slot).1]

/-- One turn: the callback cancels nothing behind the iterator, so what is erased and
deleted is the timer that was called. -/
theorem Placed.turn {w : TimeWheel F} (placed : w.Placed) {pre post : List Addr} {p : Addr}
    {t : Timer F} (slot : w.slots_[(ullOfInt w.curslot_).toNat]? = some (pre ++ p :: post))
    (here : w.heap p = some t) (due : ¬ t.rotations_ > 0)
    (known : ∀ c ∈ cancels t.func_, w.Known c)
    (ahead : ∀ c ∈ cancels t.func_, c ∉ pre ∧ c ≠ p) (fuel : Nat) :
    ∃ w₁ : TimeWheel F, w₁ = (w.without (cancels t.func_ ++ [p])).drop p ∧ w₁.Placed ∧
      w₁.slots_[(ullOfInt w₁.curslot_).toNat]? =
        some (pre ++ post.filter fun q => q ∉ cancels t.func_) ∧
      tickLoop (Active cancels) (fuel + 1) pre.length w =
        (tickLoop (Active cancels) fuel pre.length w₁).map fun r => (t.func_ :: r.1, r.2) := by
  have called := placed.active cancels t known
  have slot₁ : (w.without (cancels t.func_)).slots_[
      (ullOfInt (w.without (cancels t.func_)).curslot_).toNat]? =
      some (pre ++ p :: post.filter fun q => q ∉ cancels t.func_) := by
    have keep : pre.filter (fun q => q ∉ cancels t.func_) = pre :=
      filter_absent fun q cancel => (ahead q cancel).1
    have self : p ∉ cancels t.func_ := fun cancel => (ahead p cancel).2 rfl
    rw [slots_without, List.getElem?_map, curslot_without, slot, Option.map_some,
      List.filter_append, keep, List.filter_cons, if_pos (by simpa using self)]
  obtain ⟨erased, left⟩ := (placed.without (cancels t.func_)).erase slot₁
  rw [without_append] at erased left
  refine ⟨_, rfl, (placed.without _).drop ?_, left, ?_⟩
  · intro v member inside
    obtain ⟨v', -, rfl⟩ := List.mem_map.mp member
    simp at inside
  · rw [tickLoop_fire fuel slot (by simp) here due called slot₁ (by simp) here, erased]

/-- The timers of `es` that are not cancelled yet. -/
def standing (gone : List Addr) (es : List (Addr × Timer F)) : List Addr :=
  (es.filter fun pt => pt.1 ∉ gone).map Prod.fst

/-- What the loop makes of `w`, given the timers `es` before it and its turns `ts`. -/
structure Looped (cancels : F → List Addr) (gone : List Addr) (es : List (Addr × Timer F))
    (ts : List (Turn F)) (w w' : TimeWheel F) : Prop where
  placed : w'.Placed
  size : w'.nslosts_ = w.nslosts_
  curslot : w'.curslot_ = w.curslot_
  clock : w'.starttime_ = w.starttime_
  slots : w'.slots_ = w.slots_.map fun v =>
    v.filter fun q => q ∉ ts.map Turn.handle ∧ q ∉ cancelled cancels ts
  freed : ∀ turn ∈ ts, w'.heap turn.handle = none
  kept : ∀ pt ∈ es, pt.1 ∉ ts.map Turn.handle →
    pt.1 ∈ gone ++ cancelled cancels ts ∧ w'.heap pt.1 = some pt.2 ∨
      pt.2.rotations_ > 0 ∧ w'.heap pt.1 = some pt.2.DecreaseRotations
  others : ∀ p, p ∉ es.map Prod.fst → w'.heap p = w.heap p

theorem mem_map_filter (slots : List (List Addr)) (keep : Addr → Prop) [DecidablePred keep]
    {p : Addr} : (∃ v ∈ slots.map fun v => v.filter fun q => keep q, p ∈ v) ↔
      (∃ v ∈ slots, p ∈ v) ∧ keep p := by
  constructor
  · rintro ⟨v, member, inside⟩
    obtain ⟨v', before, rfl⟩ := List.mem_map.mp member
    obtain ⟨here, kept⟩ := List.mem_filter.mp inside
    exact ⟨⟨v', before, here⟩, of_decide_eq_true kept⟩
  · rintro ⟨⟨v, before, here⟩, kept⟩
    exact ⟨_, List.mem_map_of_mem before, List.mem_filter.mpr ⟨here, decide_eq_true kept⟩⟩

theorem pending_without {w : TimeWheel F} {ps : List Addr} {p : Addr} :
    (w.without ps).Pending p ↔ w.Pending p ∧ p ∉ ps :=
  mem_map_filter w.slots_ (fun q => q ∉ ps)

theorem without_of_not_pending {w : TimeWheel F} {p : Addr} (absent : ¬ w.Pending p) :
    w.without [p] = w := by
  have whole : w.slots_.map (fun v => v.filter fun q => q ∉ [p]) = w.slots_.map id := by
    apply List.map_congr_left
    intro v member
    have absent : p ∉ v := fun inside => absent ⟨v, member, inside⟩
    exact filter_absent (by simpa using absent)
  rw [List.map_id] at whole
  exact congrArg (fun slots => { w with slots_ := slots }) whole

namespace Looped

variable {gone : List Addr} {es : List (Addr × Timer F)} {ts : List (Turn F)}
  {w w' : TimeWheel F} {p : Addr} {t : Timer F}

theorem nil (placed : w.Placed) : Looped cancels gone [] [] w w := by
  refine ⟨placed, rfl, rfl, rfl, ?_, by simp, by simp, fun _ _ => rfl⟩
  have whole : (fun v : List Addr => v.filter fun q =>
      q ∉ ([] : List (Turn F)).map Turn.handle ∧ q ∉ cancelled cancels ([] : List (Turn F))) =
      id := by
    funext v
    simp [cancelled]
  rw [whole, List.map_id]

/-- A cancelled timer is not met. -/
theorem pass (looped : Looped cancels gone es ts w w') (inside : p ∈ gone)
    (alive : w.heap p = some t) (distinct : p ∉ es.map Prod.fst) :
    Looped cancels gone ((p, t) :: es) ts w w' := by
  refine { looped with kept := ?_, others := ?_ }
  · intro pt member unfired
    rcases List.mem_cons.mp member with rfl | member
    · exact .inl ⟨List.mem_append_left _ inside, (looped.others p distinct).trans alive⟩
    · exact looped.kept pt member unfired
  · intro q outside
    exact looped.others q fun member => outside (List.mem_cons_of_mem p member)

/-- A timer with rotations left loses one. -/
theorem wait (looped : Looped cancels gone es ts (w.store p t.DecreaseRotations) w')
    (waits : t.rotations_ > 0) (distinct : p ∉ es.map Prod.fst) :
    Looped cancels gone ((p, t) :: es) ts w w' := by
  refine { looped with kept := ?_, others := ?_ }
  · intro pt member unfired
    rcases List.mem_cons.mp member with rfl | member
    · exact .inr ⟨waits, by simpa using looped.others p distinct⟩
    · exact looped.kept pt member unfired
  · intro q outside
    have other : q ≠ p := fun same => outside (same ▸ List.mem_cons_self)
    have after := looped.others q fun member => outside (List.mem_cons_of_mem p member)
    simpa [other] using after

/-- A timer without rotations left has its turn. -/
theorem fire {behind : List Addr}
    (looped : Looped cancels (gone ++ cancels t.func_) es ts
      ((w.without (cancels t.func_ ++ [p])).drop p) w')
    (distinct : p ∉ es.map Prod.fst) :
    Looped cancels gone ((p, t) :: es) (⟨behind, p, t⟩ :: ts) w w' := by
  refine ⟨looped.placed, looped.size, looped.curslot, looped.clock, ?_, ?_, ?_, ?_⟩
  · rw [looped.slots, slots_drop, slots_without, List.map_map]
    apply List.map_congr_left
    intro v _
    rw [Function.comp_apply, List.filter_filter]
    apply List.filter_congr
    intro q _
    rw [← Bool.decide_and, decide_eq_decide]
    simp only [cancelled, List.flatMap_cons, List.map_cons, List.mem_append, List.mem_cons,
      List.not_mem_nil, or_false, not_or]
    tauto
  · intro turn member
    rcases List.mem_cons.mp member with rfl | member
    · simpa using looped.others p distinct
    · exact looped.freed turn member
  · intro pt member unfired
    rw [List.map_cons, List.mem_cons, not_or] at unfired
    rcases List.mem_cons.mp member with rfl | member
    · exact absurd rfl unfired.1
    · rw [cancelled, List.flatMap_cons, ← List.append_assoc]
      exact looped.kept pt member unfired.2
  · intro q outside
    have other : q ≠ p := fun same => outside (same ▸ List.mem_cons_self)
    have after := looped.others q fun member => outside (List.mem_cons_of_mem p member)
    simpa [other] using after

end Looped

/-- An object that was not deleted keeps all but its rotations. -/
theorem Looped.object {gone : List Addr} {ts : List (Turn F)} {w w' : TimeWheel F} {p : Addr}
    {t : Timer F} {es : List (Addr × Timer F)} (looped : Looped cancels gone es ts w w')
    (objects : ∀ pt ∈ es, w.heap pt.1 = some pt.2) (alive : w.heap p = some t)
    (unfired : p ∉ ts.map Turn.handle) :
    ∃ t', w'.heap p = some t' ∧ t'.slot_ = t.slot_ ∧ t'.func_ = t.func_ := by
  by_cases met : p ∈ es.map Prod.fst
  · obtain ⟨pt, member, rfl⟩ := List.mem_map.mp met
    rw [objects pt member] at alive
    cases alive
    rcases looped.kept pt member unfired with ⟨-, after⟩ | ⟨-, after⟩
    · exact ⟨_, after, rfl, rfl⟩
    · exact ⟨_, after, rfl, rfl⟩
  · exact ⟨t, (looped.others p met).trans alive, rfl, rfl⟩

/-- The loop makes no object. -/
theorem Looped.dead {gone : List Addr} {ts : List (Turn F)} {w w' : TimeWheel F} {p : Addr}
    {es : List (Addr × Timer F)} (looped : Looped cancels gone es ts w w')
    (objects : ∀ pt ∈ es, w.heap pt.1 = some pt.2) (dead : w.heap p = none) :
    w'.heap p = none := by
  rw [looped.others p, dead]
  intro met
  obtain ⟨pt, member, rfl⟩ := List.mem_map.mp met
  rw [objects pt member] at dead
  cases dead

/-- Every object left was there before, but for its rotations. -/
theorem Looped.origin {gone : List Addr} {ts : List (Turn F)} {w w' : TimeWheel F} {p : Addr}
    {t : Timer F} {es : List (Addr × Timer F)} (looped : Looped cancels gone es ts w w')
    (objects : ∀ pt ∈ es, w.heap pt.1 = some pt.2) (alive : w'.heap p = some t) :
    ∃ u, w.heap p = some u ∧ t.slot_ = u.slot_ ∧ t.func_ = u.func_ := by
  cases before : w.heap p with
  | none =>
      rw [looped.dead objects before] at alive
      cases alive
  | some u =>
      have unfired : p ∉ ts.map Turn.handle := by
        intro fired
        obtain ⟨turn, member, rfl⟩ := List.mem_map.mp fired
        rw [looped.freed turn member] at alive
        cases alive
      obtain ⟨t', after, slot, func⟩ := looped.object objects before unfired
      cases alive.symm.trans after
      exact ⟨u, rfl, slot, func⟩

theorem Looped.pending_iff {gone : List Addr} {ts : List (Turn F)} {w w' : TimeWheel F} {p : Addr}
    {es : List (Addr × Timer F)} (looped : Looped cancels gone es ts w w') :
    w'.Pending p ↔ w.Pending p ∧ p ∉ ts.map Turn.handle ∧ p ∉ cancelled cancels ts := by
  rw [Pending, looped.slots, mem_map_filter, Pending]

theorem standing_gone {gone : List Addr} {p : Addr} (inside : p ∈ gone) (t : Timer F)
    (es : List (Addr × Timer F)) : standing gone ((p, t) :: es) = standing gone es := by
  simp [standing, inside]

theorem standing_cons {gone : List Addr} {p : Addr} (outside : p ∉ gone) (t : Timer F)
    (es : List (Addr × Timer F)) : standing gone ((p, t) :: es) = p :: standing gone es := by
  simp [standing, outside]

theorem standing_append (gone cs : List Addr) (es : List (Addr × Timer F)) :
    standing (gone ++ cs) es = (standing gone es).filter fun q => q ∉ cs := by
  rw [standing, standing, List.filter_map, List.filter_filter]
  congr 1
  apply List.filter_congr
  intro pt _
  by_cases inside : pt.1 ∈ cs <;> simp [inside]

/-- The loop of `Tick`, with the timers `pre` behind the iterator and `es` before it:
the timers take their turns.  By induction on `es`; a turn cancels nothing that
stands behind it, so the iterator keeps its place. -/
theorem Placed.tickLoop (es : List (Addr × Timer F)) :
    ∀ (fuel : Nat) (behind gone pre : List Addr) (w : TimeWheel F), w.Placed →
      w.slots_[(ullOfInt w.curslot_).toNat]? = some (pre ++ standing gone es) →
      es.length ≤ fuel → (es.map Prod.fst).Nodup → pre ⊆ behind →
      (∀ pt ∈ es, w.heap pt.1 = some pt.2) → Forward cancels (turns cancels behind gone es) →
      (∀ turn ∈ turns cancels behind gone es, ∀ c ∈ cancels turn.timer.func_, w.Known c) →
      ∃ w', TimeWheel.tickLoop (Active cancels) (fuel + 1) pre.length w =
          .ok ((turns cancels behind gone es).map fun turn => turn.timer.func_, w') ∧
        Looped cancels gone es (turns cancels behind gone es) w w' := by
  induction es with
  | nil =>
      intro fuel behind gone pre w placed slot _ _ _ _ _ _
      refine ⟨w, ?_, Looped.nil placed⟩
      simpa [turns, standing] using tickLoop_end fuel slot
  | cons pt es ih =>
      intro fuel behind gone pre w placed slot enough distinct within alive forward known
      obtain ⟨p, t⟩ := pt
      obtain ⟨fresh, rest⟩ := List.nodup_cons.mp distinct
      have here : w.heap p = some t := alive (p, t) List.mem_cons_self
      have later : ∀ pt ∈ es, w.heap pt.1 = some pt.2 :=
        fun pt member => alive pt (List.mem_cons_of_mem _ member)
      have apart : ∀ pt ∈ es, pt.1 ≠ p := by
        intro pt member same
        exact fresh (List.mem_map.mpr ⟨pt, member, same⟩)
      have wider : pre ⊆ behind ++ [p] := List.Subset.trans within (List.subset_append_left _ _)
      by_cases inside : p ∈ gone
      · have same : turns cancels behind gone ((p, t) :: es) = turns cancels behind gone es := by
          rw [turns, if_pos inside]
        rw [same] at forward known ⊢
        rw [standing_gone inside] at slot
        obtain ⟨w', run, looped⟩ := ih fuel behind gone pre w placed slot
          (Nat.le_of_succ_le enough) rest within later forward known
        exact ⟨w', run, looped.pass inside here fresh⟩
      · obtain ⟨fuel, rfl⟩ : ∃ k, fuel = k + 1 := ⟨fuel - 1, by simp at enough; omega⟩
        have enough : es.length ≤ fuel := by simpa using enough
        rw [standing_cons inside] at slot
        have met : (pre ++ p :: standing gone es)[pre.length]? = some p := by simp
        by_cases waits : t.rotations_ > 0
        · have same : turns cancels behind gone ((p, t) :: es) =
              turns cancels (behind ++ [p]) gone es := by
            rw [turns, if_neg inside, if_pos waits]
          rw [same] at forward known ⊢
          have nested : pre ++ [p] ⊆ behind ++ [p] :=
            List.append_subset.mpr ⟨wider, List.subset_append_right _ _⟩
          obtain ⟨w', run, looped⟩ := ih fuel (behind ++ [p]) gone (pre ++ [p])
            (w.store p t.DecreaseRotations) (placed.decrease here) (by simpa [store] using slot)
            enough rest nested
            (fun pt member => by simpa [apart pt member] using later pt member) forward
            (fun turn member c cancel => (known turn member c cancel).decrease here)
          refine ⟨w', ?_, looped.wait waits fresh⟩
          rw [tickLoop_wait _ slot met here waits]
          simpa using run
        · have same : turns cancels behind gone ((p, t) :: es) = ⟨behind, p, t⟩ ::
              turns cancels (behind ++ [p]) (gone ++ cancels t.func_) es := by
            rw [turns, if_neg inside, if_neg waits]
          rw [same] at forward known ⊢
          have mine := forward _ List.mem_cons_self
          obtain ⟨w₁, rfl, placed₁, slot₁, turned⟩ := placed.turn slot here waits
            (known _ List.mem_cons_self)
            (fun c cancel => ⟨fun member => (mine c cancel).1 (within member), (mine c cancel).2⟩)
            (fuel + 1)
          rw [← standing_append] at slot₁
          obtain ⟨w', run, looped⟩ := ih fuel (behind ++ [p]) (gone ++ cancels t.func_) pre
            ((w.without (cancels t.func_ ++ [p])).drop p) placed₁ slot₁ enough rest wider
            (fun pt member => by simpa [apart pt member] using later pt member)
            (fun turn member => forward turn (List.mem_cons_of_mem _ member))
            (fun turn member c cancel => by
              have self : c ≠ p := by
                rintro rfl
                exact (forward turn (List.mem_cons_of_mem _ member) c cancel).1
                  (behind_subset member (by simp))
              exact (known turn (List.mem_cons_of_mem _ member) c cancel).drop _ self)
          refine ⟨w', ?_, looped.fire fresh⟩
          rw [turned, run]
          rfl

/-! ## Tick -/

/-- The timers in the cursor's slot. -/
def row (w : TimeWheel F) : List (Addr × Timer F) :=
  (w.slots_.getD w.cursor []).filterMap fun p => (w.heap p).map fun t => (p, t)

/-- The turns of the next `Tick`. -/
def called (w : TimeWheel F) (cancels : F → List Addr) : List (Turn F) := turns cancels [] [] w.row

/-- The wheel after `Tick` has moved the cursor on. -/
def advance (w : TimeWheel F) : TimeWheel F :=
  { w with curslot_ := (w.curslot_ + 1) % w.nslosts_ }

@[simp] theorem nslots_advance (w : TimeWheel F) : w.advance.nslots = w.nslots := rfl

@[simp] theorem heap_advance (w : TimeWheel F) : w.advance.heap = w.heap := rfl

@[simp] theorem slots_advance (w : TimeWheel F) : w.advance.slots_ = w.slots_ := rfl

@[simp] theorem pending_advance {w : TimeWheel F} {p : Addr} :
    w.advance.Pending p ↔ w.Pending p := Iff.rfl

theorem row_objects {w : TimeWheel F} {pt : Addr × Timer F} (member : pt ∈ w.row) :
    w.heap pt.1 = some pt.2 := by
  obtain ⟨p, -, found⟩ := List.mem_filterMap.mp member
  obtain ⟨t, alive, rfl⟩ := Option.map_eq_some_iff.mp found
  exact alive

/-- The row is the cursor's slot, every pointer with its object. -/
theorem Placed.row_slot {w : TimeWheel F} (placed : w.Placed) :
    w.slots_[w.cursor]? = some (w.row.map Prod.fst) := by
  have bound : w.cursor < w.slots_.length := by
    rw [placed.length]
    exact placed.cursor_lt
  have slot : w.slots_[w.cursor]? = some w.slots_[w.cursor] := List.getElem?_eq_getElem bound
  have alive : ∀ p ∈ w.slots_[w.cursor], ∃ t, w.heap p = some t := by
    intro p member
    obtain ⟨t, here, -⟩ := placed.known ⟨_, List.getElem_mem bound, member⟩
    exact ⟨t, here⟩
  rw [slot, row, List.getD_eq_getElem?_getD, slot, Option.getD_some]
  generalize w.slots_[w.cursor] = v at alive ⊢
  congr 1
  induction v with
  | nil => rfl
  | cons p v ih =>
      obtain ⟨t, here⟩ := alive p List.mem_cons_self
      rw [List.filterMap_cons, here, Option.map_some, List.map_cons]
      exact congrArg (p :: ·) (ih fun q member => alive q (List.mem_cons_of_mem p member))

/-- A timer that has its turn stands in a slot. -/
theorem Placed.called_pending {w : TimeWheel F} (placed : w.Placed) {turn : Turn F}
    (member : turn ∈ w.called cancels) : w.Pending turn.handle :=
  ⟨_, List.mem_of_getElem? placed.row_slot, List.mem_map_of_mem (turn_mem member)⟩

theorem Sized.advance_curslot {w : TimeWheel F} (sized : w.Sized) :
    w.advance.curslot_.toInt = ((w.cursor + 1) % w.nslots : Nat) :=
  toInt_succ_mod sized.cur_nonneg sized.cur_lt

theorem Sized.advance_cursor {w : TimeWheel F} (sized : w.Sized) :
    w.advance.cursor = (w.cursor + 1) % w.nslots := by
  rw [cursor, sized.advance_curslot, Int.toNat_natCast]

theorem Sized.advance {w : TimeWheel F} (sized : w.Sized) : w.advance.Sized := by
  have below := Nat.mod_lt (w.cursor + 1) sized.nslots_pos
  refine ⟨?_, ?_, sized.length⟩
  · rw [sized.advance_curslot]
    omega
  · show w.advance.curslot_.toInt < w.nslosts_.toInt
    rw [sized.advance_curslot, ← sized.nslots_value]
    exact_mod_cast below

theorem Placed.advance {w : TimeWheel F} (placed : w.Placed) : w.advance.Placed :=
  ⟨placed.toSized.advance, placed.home, placed.distinct⟩

/-- **What `Tick` does** when its callbacks cancel forward: it calls the timers whose
turn comes, and leaves the wheel of `Looped` with the cursor moved on. -/
theorem Placed.tick {w : TimeWheel F} (placed : w.Placed)
    (forward : Forward cancels (w.called cancels))
    (known : ∀ turn ∈ w.called cancels, ∀ c ∈ cancels turn.timer.func_, w.Known c) :
    ∃ w', w.Tick cancels =
        .ok ((w.called cancels).map fun turn => turn.timer.func_, w'.advance) ∧
      Looped cancels [] w.row (w.called cancels) w w' := by
  have slot := placed.row_slot
  rw [← placed.ull_cursor] at slot
  have whole : standing [] w.row = w.row.map Prod.fst := by simp [standing]
  have distinct := placed.distinct _ _ slot
  obtain ⟨w', run, looped⟩ := Placed.tickLoop w.row (w.row.map Prod.fst).length [] [] [] w placed
    (by rw [whole]; exact slot) (by simp) distinct (List.Subset.refl _)
    (fun pt member => row_objects member) forward known
  refine ⟨w', ?_, looped⟩
  rw [Tick, TickWith, slotAt_eq slot]
  show (TimeWheel.tickLoop (Active cancels) _ ([] : List Addr).length w >>= _) = _
  rw [run]
  rfl

end Loop

/-! ## Callbacks that leave the wheel alone -/

/-- Their turns are the timers without rotations left. -/
theorem turns_quiet (behind : List Addr) (es : List (Addr × Timer F)) :
    (turns quiet behind [] es).map (fun turn => (turn.handle, turn.timer)) =
      es.filter fun pt => ¬ pt.2.rotations_ > 0 := by
  induction es generalizing behind with
  | nil => rfl
  | cons pt es ih =>
      obtain ⟨p, t⟩ := pt
      by_cases waits : t.rotations_ > 0
      · simpa [turns, waits, quiet] using ih (behind ++ [p])
      · have due : t.rotations_ ≤ 0 := Int32.not_lt.mp waits
        simpa [turns, waits, due, quiet] using ih (behind ++ [p])

@[simp] theorem cancelled_quiet (ts : List (Turn F)) : cancelled quiet ts = [] := by
  simp [cancelled, quiet]

theorem Placed.tick_quiet {w : TimeWheel F} (placed : w.Placed) :
    ∃ w', w.Tick quiet = .ok ((w.called quiet).map fun turn => turn.timer.func_, w'.advance) ∧
      Looped quiet [] w.row (w.called quiet) w w' :=
  placed.tick (by intro turn _ c cancel; cases cancel) (by intro turn _ c cancel; cases cancel)

end TimeWheel

end Codesnip.Common.Timer
