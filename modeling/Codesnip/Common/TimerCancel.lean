/-
# Common.TimerCancel -- callbacks that cancel timers

`Tick` calls a callback between reading an iterator and erasing through it, and the
callback may call `DelTimer`, on its own timer or on another pending one.  Each
`Tick` of a run comes with what its callbacks cancel: the `k`-th `AddTimer` registers
the callback `k`, so this says for every timer what its callback does in that `Tick`.

`Survives` is what the timers are owed: those due and not cancelled before their turn
are called once, the others stay where they are and count down, and no freed timer is
left in a slot.  It holds in every run in which no callback that is called cancels
its own timer or one that the iterator has passed in the slot (`timers_survive`); one
that does moves the timers under the iterator, and the wrong one is erased.  A timer
cancelled ahead of the iterator is not passed, so cancelling it once more is harmless.
-/
import Codesnip.Common.TimerTurns
import Codesnip.Theory.Transition

namespace Codesnip.Common.Timer

open Codesnip.Theory.Word
open Codesnip.Theory.Transition (System)

set_option autoImplicit false
set_option linter.dupNamespace false

namespace TimeWheel

variable {F : Type} {cancels : F → List Addr}

/-! ## Who has a turn -/

theorem turns_sublist (behind gone : List Addr) (es : List (Addr × Timer F)) :
    ((turns cancels behind gone es).map fun turn => (turn.handle, turn.timer)).Sublist es := by
  induction es generalizing behind gone with
  | nil => exact List.Sublist.refl []
  | cons pt es ih =>
      rw [turns]
      split
      · exact (ih _ _).cons pt
      split
      · exact (ih _ _).cons pt
      · exact (ih _ _).cons_cons pt

theorem called_sublist (w : TimeWheel F) (cancels : F → List Addr) :
    ((w.called cancels).map fun turn => (turn.handle, turn.timer)).Sublist w.row :=
  turns_sublist [] [] w.row

theorem turn_due {behind gone : List Addr} {es : List (Addr × Timer F)} {turn : Turn F}
    (member : turn ∈ turns cancels behind gone es) : ¬ turn.timer.rotations_ > 0 := by
  induction es generalizing behind gone with
  | nil => cases member
  | cons pt es ih =>
      rw [turns] at member
      split at member
      · exact ih member
      split at member
      · exact ih member
      · rename_i due
        rcases List.mem_cons.mp member with rfl | member
        · exact due
        · exact ih member

/-- A due timer has its turn if no turn before it cancels it. -/
theorem turn_of_due {p : Addr} {t : Timer F} (due : ¬ t.rotations_ > 0)
    (before : List (Addr × Timer F)) {behind gone : List Addr} {after : List (Addr × Timer F)}
    (outside : p ∉ gone)
    (spared : ∀ turn ∈ turns cancels behind gone (before ++ (p, t) :: after),
      (turn.handle, turn.timer) ∈ before → p ∉ cancels turn.timer.func_) :
    ∃ turn ∈ turns cancels behind gone (before ++ (p, t) :: after),
      turn.handle = p ∧ turn.timer = t := by
  induction before generalizing behind gone with
  | nil =>
      rw [List.nil_append, turns, if_neg outside, if_neg due]
      exact ⟨_, List.mem_cons_self, rfl, rfl⟩
  | cons qu before ih =>
      rw [List.cons_append, turns] at spared ⊢
      split
      · rename_i passes
        rw [if_pos passes] at spared
        exact ih outside fun turn member early =>
          spared turn member (List.mem_cons_of_mem _ early)
      rename_i still
      rw [if_neg still] at spared
      split
      · rename_i waits
        rw [if_pos waits] at spared
        exact ih outside fun turn member early =>
          spared turn member (List.mem_cons_of_mem _ early)
      · rename_i called
        rw [if_neg called] at spared
        have mine := spared _ List.mem_cons_self List.mem_cons_self
        have still : p ∉ gone ++ cancels qu.2.func_ := by
          rw [List.mem_append]
          rintro (inside | cancel)
          · exact outside inside
          · exact mine cancel
        obtain ⟨turn, member, found⟩ := ih still fun turn member early =>
          spared turn (List.mem_cons_of_mem _ member) (List.mem_cons_of_mem _ early)
        exact ⟨turn, List.mem_cons_of_mem _ member, found⟩

/-! ## What timers are owed -/

/-- A `Tick` whose callbacks cancel what `cancels` says ends and calls every due timer
that no timer called before it has cancelled, once, and nothing else; a timer not
called and not cancelled stays in its slot, with one rotation less if the cursor was
there; and what is in a slot is alive. -/
def Survives (w : TimeWheel F) (cancels : F → List Addr) [DecidableEq F] : Prop :=
  ∃ fired w', w.Tick cancels = .ok (fired, w') ∧
    (∀ before p t after, w.row = before ++ (p, t) :: after → ¬ t.rotations_ > 0 →
      (∀ qu ∈ before, qu.2.func_ ∈ fired → p ∉ cancels qu.2.func_) →
        fired.count t.func_ = 1) ∧
    (∀ f ∈ fired, ∃ pt ∈ w.row, pt.2.func_ = f ∧ ¬ pt.2.rotations_ > 0) ∧
    (∀ i v p t, w.slots_[i]? = some v → p ∈ v → w.heap p = some t → t.func_ ∉ fired →
      (∀ f ∈ fired, p ∉ cancels f) → ∃ v', w'.slots_[i]? = some v' ∧ p ∈ v' ∧
        w'.heap p = some (if i = w.cursor then t.DecreaseRotations else t)) ∧
    ∀ p, w'.Pending p → ∃ t, w'.heap p = some t

/-- No two live timers have one callback. -/
def Distinct (w : TimeWheel F) : Prop :=
  ∀ p q t u, w.heap p = some t → w.heap q = some u → t.func_ = u.func_ → p = q

theorem row_distinct {w : TimeWheel F} (placed : w.Placed) (distinct : w.Distinct) :
    (w.row.map fun pt => pt.2.func_).Nodup := by
  have handles : (w.row.map Prod.fst).Nodup := placed.distinct _ _ placed.row_slot
  rw [List.Nodup, List.pairwise_map] at handles ⊢
  refine handles.imp_of_mem fun {pt qu} first second other same => ?_
  exact other (distinct _ _ _ _ (row_objects first) (row_objects second) same)

/-- **One `Tick` in which nothing is cancelled behind the iterator.** -/
theorem Placed.survives [DecidableEq F] {w : TimeWheel F} (placed : w.Placed)
    (distinct : w.Distinct)
    (known : ∀ turn ∈ w.called cancels, ∀ c ∈ cancels turn.timer.func_, w.Pending c)
    (forward : Forward cancels (w.called cancels)) : w.Survives cancels := by
  obtain ⟨w', run, looped⟩ := placed.tick forward fun turn member c cancel =>
    placed.known (known turn member c cancel)
  have objects : ∀ turn ∈ w.called cancels, (turn.handle, turn.timer) ∈ w.row :=
    fun turn member => turn_mem member
  refine ⟨_, _, run, ?_, ?_, ?_, ?_⟩
  · intro before p t after split due spared
    have once : ((w.called cancels).map fun turn => turn.timer.func_).Nodup := by
      have sub := (called_sublist w cancels).map fun pt => pt.2.func_
      rw [List.map_map] at sub
      exact sub.nodup (row_distinct placed distinct)
    have early : ∀ turn ∈ turns cancels [] [] (before ++ (p, t) :: after),
        (turn.handle, turn.timer) ∈ before → p ∉ cancels turn.timer.func_ := by
      intro turn member early
      rw [← split] at member
      exact spared _ early (List.mem_map.mpr ⟨turn, member, rfl⟩)
    obtain ⟨turn, member, -, rfl⟩ := turn_of_due due before List.not_mem_nil early
    rw [← split] at member
    exact List.count_eq_one_of_mem once (List.mem_map_of_mem member)
  · intro f fired
    obtain ⟨turn, member, rfl⟩ := List.mem_map.mp fired
    exact ⟨_, objects turn member, rfl, turn_due member⟩
  · intro i v p t slot inside alive uncalled spared
    have unfired : p ∉ (w.called cancels).map Turn.handle := by
      intro fired
      obtain ⟨turn, member, rfl⟩ := List.mem_map.mp fired
      have same := (row_objects (objects turn member)).symm.trans alive
      cases same
      exact uncalled (List.mem_map.mpr ⟨turn, member, rfl⟩)
    have kept : p ∉ cancelled cancels (w.called cancels) := by
      intro inside
      obtain ⟨turn, member, cancel⟩ := List.mem_flatMap.mp inside
      exact spared _ (List.mem_map.mpr ⟨turn, member, rfl⟩) cancel
    refine ⟨v.filter fun q => q ∉ (w.called cancels).map Turn.handle ∧
      q ∉ cancelled cancels (w.called cancels), ?_, ?_, ?_⟩
    · rw [slots_advance, looped.slots, List.getElem?_map, slot]
      rfl
    · exact List.mem_filter.mpr ⟨inside, decide_eq_true ⟨unfired, kept⟩⟩
    · rw [heap_advance]
      by_cases here : i = w.cursor
      · subst here
        have met : (p, t) ∈ w.row := by
          rw [placed.row_slot] at slot
          cases slot
          obtain ⟨pt, member, rfl⟩ := List.mem_map.mp inside
          have same := (row_objects member).symm.trans alive
          cases same
          exact member
        rcases looped.kept _ met unfired with ⟨gone, -⟩ | ⟨-, after⟩
        · exact absurd (by simpa using gone) kept
        · rw [if_pos rfl]
          exact after
      · rw [if_neg here, looped.others, alive]
        intro met
        obtain ⟨t', alive', index⟩ := placed.home i v p slot inside
        obtain ⟨t'', alive'', index'⟩ := placed.home _ _ p placed.row_slot met
        cases alive'.symm.trans alive''
        exact here (index.symm.trans index')
  · intro p pending
    obtain ⟨t, alive, -⟩ := looped.placed.advance.known pending
    exact ⟨t, alive⟩

end TimeWheel

/-! ## Runs -/

/-- `Tick` comes with what the callbacks cancel in it. -/
inductive CancelCall where
  | AddTimer (p : Addr) (timeout : UInt64)
  | DelTimer (p : Addr)
  | Tick (cancels : Nat → List Addr)

/-- A wheel and the number of the next timer. -/
structure Numbered where
  wheel : TimeWheel Nat
  added : Nat

namespace Numbered

def start (nslots : Int32) (now : UInt64) : Numbered := ⟨.new nslots now, 0⟩

def call (r : Numbered) : CancelCall → Except Fault Numbered
  | .AddTimer p timeout => do
    let (_, wheel) ← r.wheel.AddTimer p timeout r.added
    .ok ⟨wheel, r.added + 1⟩
  | .DelTimer p => do
    let wheel ← r.wheel.DelTimer (some p)
    .ok { r with wheel }
  | .Tick cancels => do
    let (_, wheel) ← r.wheel.Tick cancels
    .ok { r with wheel }

/-- What the caller owes: a fresh address, and handles of pending timers, also where a
callback cancels. -/
def Admissible (r : Numbered) : CancelCall → Prop
  | .AddTimer p _ => r.wheel.heap p = none
  | .DelTimer p => r.wheel.Pending p
  | .Tick cancels => ∀ turn ∈ r.wheel.called cancels, ∀ c ∈ cancels turn.timer.func_,
      r.wheel.Pending c

/-- No callback that is called cancels its own timer or one that was still in the slot when
the iterator passed it. -/
def Ahead (r : Numbered) : CancelCall → Prop
  | .Tick cancels => TimeWheel.Forward cancels (r.wheel.called cancels)
  | _ => True

instance (r : Numbered) (c : CancelCall) : Decidable (r.Admissible c) := by
  cases c <;> unfold Admissible <;> infer_instance

instance (r : Numbered) (c : CancelCall) : Decidable (r.Ahead c) := by
  cases c <;> unfold Ahead <;> first | infer_instance | (unfold TimeWheel.Forward; infer_instance)

/-- What the caller is owed. -/
def Meets (r : Numbered) : CancelCall → Prop
  | .Tick cancels => r.wheel.Survives cancels
  | c => ∃ r', r.call c = .ok r'

end Numbered

/-- A call that faults has no next state. -/
def numbered : System Numbered CancelCall :=
  { Init := fun r => ∃ nslots now, 0 < nslots ∧ r = .start nslots now
    step := fun r c => (r.call c).toOption }

namespace Numbered

/-- The timers alive have different callbacks, all given out already. -/
structure Sound (r : Numbered) : Prop where
  placed : r.wheel.Placed
  distinct : r.wheel.Distinct
  numbers : ∀ p t, r.wheel.heap p = some t → t.func_ < r.added

theorem start_sound {nslots : Int32} (pos : 0 < nslots) (now : UInt64) :
    (start nslots now).Sound := by
  have positive : 0 < nslots.toInt := by simpa [Int32.lt_iff_toInt_lt] using pos
  refine ⟨TimeWheel.new_placed positive now, ?_, ?_⟩
  · intro p q t u alive
    cases alive
  · intro p t alive
    cases alive

/-- A call that makes no object. -/
theorem Sound.frame {r : Numbered} (sound : r.Sound) {wheel : TimeWheel Nat}
    (placed : wheel.Placed) (old : ∀ p t, wheel.heap p = some t →
      ∃ u, r.wheel.heap p = some u ∧ u.func_ = t.func_) : Sound { r with wheel } := by
  refine ⟨placed, ?_, ?_⟩
  · intro p q t u alive alive' same
    obtain ⟨t', before, func⟩ := old p t alive
    obtain ⟨u', before', func'⟩ := old q u alive'
    exact sound.distinct p q t' u' before before' (func.trans (same.trans func'.symm))
  · intro p t alive
    obtain ⟨u, before, func⟩ := old p t alive
    exact func ▸ sound.numbers p u before

theorem Sound.addTimer {r : Numbered} (sound : r.Sound) {p : Addr}
    (fresh : r.wheel.heap p = none) (timeout : UInt64) :
    Sound ⟨r.wheel.filed p timeout r.added, r.added + 1⟩ := by
  have kinds : ∀ q t, (r.wheel.filed p timeout r.added).heap q = some t →
      q = p ∧ t.func_ = r.added ∨ r.wheel.heap q = some t := by
    intro q t alive
    by_cases same : q = p
    · subst same
      rw [TimeWheel.heap_filed, Function.update_self] at alive
      exact .inl ⟨rfl, by rw [← Option.some.inj alive]⟩
    · exact .inr (by simpa [same] using alive)
  refine ⟨sound.placed.filed fresh timeout _, ?_, ?_⟩
  · intro q q' t u alive alive' same
    rcases kinds q t alive with ⟨rfl, new⟩ | old <;>
      rcases kinds q' u alive' with ⟨rfl, new'⟩ | old'
    · rfl
    · have := sound.numbers q' u old'
      omega
    · have := sound.numbers q t old
      omega
    · exact sound.distinct q q' t u old old' same
  · intro q t alive
    rcases kinds q t alive with ⟨-, new⟩ | old
    · show t.func_ < r.added + 1
      omega
    · exact Nat.lt_succ_of_lt (sound.numbers q t old)

/-- **One call** that cancels nothing behind the iterator keeps the wheel sound and
gives the caller what is owed. -/
theorem Sound.call {r : Numbered} (sound : r.Sound) {c : CancelCall}
    (admissible : r.Admissible c) (ahead : r.Ahead c) :
    r.Meets c ∧ ∀ r', numbered.step r c = some r' → r'.Sound := by
  cases c with
  | AddTimer p timeout =>
      have run : r.call (.AddTimer p timeout) =
          .ok ⟨r.wheel.filed p timeout r.added, r.added + 1⟩ := by
        rw [Numbered.call, sound.placed.toSized.addTimer]
        rfl
      refine ⟨⟨_, run⟩, fun r' step => ?_⟩
      cases (congrArg Except.toOption run).symm.trans step
      exact sound.addTimer admissible timeout
  | DelTimer p =>
      have run : r.call (.DelTimer p) = .ok { r with wheel := r.wheel.without [p] } := by
        rw [Numbered.call, sound.placed.delTimer (sound.placed.known admissible)]
        rfl
      refine ⟨⟨_, run⟩, fun r' step => ?_⟩
      cases (congrArg Except.toOption run).symm.trans step
      exact sound.frame (sound.placed.without [p]) fun q t alive => ⟨t, alive, rfl⟩
  | Tick cancels =>
      refine ⟨sound.placed.survives sound.distinct admissible ahead, fun r' step => ?_⟩
      obtain ⟨wheel, run, looped⟩ := sound.placed.tick ahead fun turn member c cancel =>
        sound.placed.known (admissible turn member c cancel)
      have run : r.call (.Tick cancels) = .ok { r with wheel := wheel.advance } := by
        rw [Numbered.call, run]
        rfl
      cases (congrArg Except.toOption run).symm.trans step
      refine sound.frame looped.placed.advance fun p t alive => ?_
      obtain ⟨u, before, -, func⟩ :=
        looped.origin (fun pt member => TimeWheel.row_objects member) alive
      exact ⟨u, before, func.symm⟩

/-- **Timers survive callbacks that cancel ahead**: in every run in which no callback
that is called cancels its own timer or one that the iterator has passed in the slot, every
`Tick` gives the timers what they are owed. -/
theorem timers_survive {nslots : Int32} (pos : 0 < nslots) (now : UInt64) (cs : List CancelCall)
    (legal : numbered.Steps Admissible (start nslots now) cs)
    (ahead : numbered.Steps Ahead (start nslots now) cs) :
    numbered.Steps Meets (start nslots now) cs := by
  have both : numbered.Steps (fun r c => r.Admissible c ∧ r.Ahead c) (start nslots now) cs :=
    System.steps_and.mpr ⟨legal, ahead⟩
  exact System.Steps.of_steps Sound
    (fun r c r' sound met step => (sound.call met.1 met.2).2 r' step)
    (fun r c sound met => (sound.call met.1 met.2).1) (start_sound pos now) both

/-- Three timers in one slot, the first waiting, and a `Tick` in which the callback of
the second cancels `c`. -/
def threeInARow (c : Addr) : List CancelCall :=
  [.AddTimer 1 2, .AddTimer 2 0, .AddTimer 3 0, .Tick fun k => if k = 1 then [c] else []]

/-- The second cancels the third. -/
theorem timers_survive_third :
    numbered.Steps Admissible (start 2 0) (threeInARow 3) ∧
      numbered.Steps Ahead (start 2 0) (threeInARow 3) ∧
      numbered.Steps Meets (start 2 0) (threeInARow 3) := by
  have legal : numbered.Steps Admissible (start 2 0) (threeInARow 3) := by decide +kernel
  have ahead : numbered.Steps Ahead (start 2 0) (threeInARow 3) := by decide +kernel
  exact ⟨legal, ahead, timers_survive (by decide) 0 _ legal ahead⟩

/-- The second cancels the first: the third is erased in the place of the second, whose
pointer stays behind. -/
theorem timers_survive_counterexample :
    numbered.Steps Admissible (start 2 0) (threeInARow 1) ∧
      ¬ numbered.Steps Meets (start 2 0) (threeInARow 1) := by
  have legal : numbered.Steps Admissible (start 2 0) (threeInARow 1) := by decide +kernel
  refine ⟨legal, fun meets => ?_⟩
  obtain ⟨fired, wheel, run, -, -, -, alive⟩ := (((meets.2 _ rfl).2 _ rfl).2 _ rfl).1
  cases run
  obtain ⟨t, here⟩ := alive 2 (by decide +kernel)
  cases here

end Numbered

end Codesnip.Common.Timer
