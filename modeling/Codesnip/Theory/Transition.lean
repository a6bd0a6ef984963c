/-
# Theory.Transition -- systems that take one atomic step at a time

A `System` is a set of initial states and a step function: an action either is
refused or leads to one next state.  Several threads are one system whose actions
say which thread moves, so an interleaving is a list of actions.

* `Reachable.induct` is the invariant rule: what holds at the start and is kept by
  every step holds in every reachable state;
* `Reaches.induct` is the same rule for what one state leads to, with the steps
  limited to those that meet a condition;
* `always_iff_steps`: when each step keeps `P` exactly if it meets `Q`, a run stays
  in `P` exactly if all its steps meet `Q`;
* `Reaches.lift`: a system that can follow every step of another one can follow its runs;
* `length_le_of_rank`: when every step lowers a rank, runs are no longer than that;
* `reaches_of_rank`: when every step from an unfinished state lowers a rank and one
  can always be taken, a finished state is reached.
-/
import Mathlib.Logic.Relation

namespace Codesnip.Theory.Transition

set_option autoImplicit false

universe u v

structure System (S : Type u) (A : Type v) where
  Init : S → Prop
  step : S → A → Option S

namespace System

variable {S : Type u} {A : Type v} (sys : System S A)

/-- The state a list of actions leads to, if every one of them can be taken. -/
def run (s : S) : List A → Option S
  | [] => some s
  | a :: as => (sys.step s a).bind fun s' => run s' as

theorem run_cons (s : S) (a : A) (as : List A) :
    sys.run s (a :: as) = (sys.step s a).bind fun s' => sys.run s' as := rfl

theorem run_append (s : S) (as bs : List A) :
    sys.run s (as ++ bs) = (sys.run s as).bind fun s' => sys.run s' bs := by
  induction as generalizing s with
  | nil => rfl
  | cons a as ih =>
      rw [List.cons_append, run_cons, run_cons]
      cases sys.step s a with
      | none => rfl
      | some s' => exact ih s'

theorem run_cons_some {sys : System S A} {s t : S} {a : A} {as : List A}
    (run : sys.run s (a :: as) = some t) : ∃ s', sys.step s a = some s' ∧ sys.run s' as = some t :=
  Option.bind_eq_some_iff.mp run

theorem run_append_some {sys : System S A} {s t u : S} {as bs : List A}
    (first : sys.run s as = some t) (second : sys.run t bs = some u) :
    sys.run s (as ++ bs) = some u := by
  rw [run_append, first]
  exact second

/-! ## Reachable states -/

/-- One step by an action that meets `ok`. -/
def Moves (ok : A → Prop) (s s' : S) : Prop := ∃ a, ok a ∧ sys.step s a = some s'

/-- `s'` is reached from `s` by actions that meet `ok`. -/
def Reaches (ok : A → Prop) : S → S → Prop := Relation.ReflTransGen (sys.Moves ok)

def Reachable (s : S) : Prop := ∃ s₀, sys.Init s₀ ∧ sys.Reaches (fun _ => True) s₀ s

variable {sys}

theorem Reaches.refl {ok : A → Prop} (s : S) : sys.Reaches ok s s := Relation.ReflTransGen.refl

theorem Reaches.trans {ok : A → Prop} {s t u : S} (first : sys.Reaches ok s t)
    (second : sys.Reaches ok t u) : sys.Reaches ok s u :=
  Relation.ReflTransGen.trans first second

theorem Reaches.step {ok : A → Prop} {s t u : S} {a : A} (before : sys.Reaches ok s t)
    (meets : ok a) (step : sys.step t a = some u) : sys.Reaches ok s u :=
  Relation.ReflTransGen.tail before ⟨a, meets, step⟩

theorem Reaches.one {ok : A → Prop} {s t : S} {a : A} (meets : ok a)
    (step : sys.step s a = some t) : sys.Reaches ok s t :=
  (Reaches.refl s).step meets step

theorem Reaches.mono {ok ok' : A → Prop} {s t : S} (reach : sys.Reaches ok s t)
    (weaker : ∀ a, ok a → ok' a) : sys.Reaches ok' s t :=
  Relation.ReflTransGen.mono (fun _ _ ⟨a, meets, step⟩ => ⟨a, weaker a meets, step⟩) _ _ reach

theorem Reaches.of_run {ok : A → Prop} {s t : S} {as : List A} (meets : ∀ a ∈ as, ok a)
    (run : sys.run s as = some t) : sys.Reaches ok s t := by
  induction as generalizing s with
  | nil => cases run; exact Reaches.refl _
  | cons a as ih =>
      obtain ⟨s', step, rest⟩ := run_cons_some run
      exact (Reaches.one (meets a List.mem_cons_self) step).trans
        (ih (fun b member => meets b (List.mem_cons_of_mem a member)) rest)

/-- What one state leads to: `P` holds there and is kept by every allowed step. -/
theorem Reaches.induct {ok : A → Prop} {P : S → Prop} {s t : S} (reach : sys.Reaches ok s t)
    (start : P s) (keep : ∀ s a s', P s → ok a → sys.step s a = some s' → P s') : P t := by
  induction reach with
  | refl => exact start
  | tail _ move ih =>
      obtain ⟨a, meets, step⟩ := move
      exact keep _ a _ ih meets step

theorem Reachable.init {s : S} (init : sys.Init s) : sys.Reachable s := ⟨s, init, Reaches.refl s⟩

theorem Reachable.reaches {ok : A → Prop} {s t : S} (reach : sys.Reachable s)
    (after : sys.Reaches ok s t) : sys.Reachable t := by
  obtain ⟨s₀, init, before⟩ := reach
  exact ⟨s₀, init, before.trans (after.mono fun _ _ => trivial)⟩

theorem Reachable.step {s s' : S} {a : A} (reach : sys.Reachable s)
    (step : sys.step s a = some s') : sys.Reachable s' :=
  reach.reaches (Reaches.one trivial step : sys.Reaches (fun _ => True) s s')

theorem Reachable.of_run {s₀ s : S} {as : List A} (init : sys.Init s₀)
    (run : sys.run s₀ as = some s) : sys.Reachable s :=
  (Reachable.init init).reaches
    (Reaches.of_run (fun _ _ => trivial) run : sys.Reaches (fun _ => True) s₀ s)

/-- **The invariant rule.** -/
theorem Reachable.induct {P : S → Prop} {s : S} (reach : sys.Reachable s)
    (start : ∀ s, sys.Init s → P s) (keep : ∀ s a s', P s → sys.step s a = some s' → P s') :
    P s := by
  obtain ⟨s₀, init, after⟩ := reach
  exact after.induct (start s₀ init) fun s a s' holds _ step => keep s a s' holds step

/-! ## What holds along a run -/

variable (sys) in
/-- `P` holds in every state of the run. -/
def Always (P : S → Prop) (s : S) : List A → Prop
  | [] => P s
  | a :: as => P s ∧ ∀ s', sys.step s a = some s' → Always P s' as

variable (sys) in
/-- `Q` holds of every step of the run. -/
def Steps (Q : S → A → Prop) (s : S) : List A → Prop
  | [] => True
  | a :: as => Q s a ∧ ∀ s', sys.step s a = some s' → Steps Q s' as

theorem Always.here {P : S → Prop} {s : S} {as : List A} (always : sys.Always P s as) : P s := by
  cases as with
  | nil => exact always
  | cons a as => exact always.1

theorem Always.final {P : S → Prop} {s t : S} {as : List A} (always : sys.Always P s as)
    (run : sys.run s as = some t) : P t := by
  induction as generalizing s with
  | nil => cases run; exact always
  | cons a as ih =>
      obtain ⟨s', step, rest⟩ := run_cons_some run
      exact ih (always.2 s' step) rest

theorem Always.mono {P P' : S → Prop} {s : S} {as : List A} (always : sys.Always P s as)
    (weaker : ∀ s, P s → P' s) : sys.Always P' s as := by
  induction as generalizing s with
  | nil => exact weaker s always
  | cons a as ih => exact ⟨weaker s always.1, fun s' step => ih (always.2 s' step)⟩

instance decidableSteps (Q : S → A → Prop) [∀ s a, Decidable (Q s a)] :
    ∀ (as : List A) (s : S), Decidable (sys.Steps Q s as)
  | [], _ => inferInstanceAs (Decidable True)
  | a :: as, s =>
      match here : sys.step s a with
      | none => decidable_of_iff (Q s a) (by simp [Steps, here])
      | some s' =>
          have := decidableSteps Q as s'
          decidable_of_iff (Q s a ∧ sys.Steps Q s' as) (by simp [Steps, here])

/-- Conditions that agree in every state an invariant allows. -/
theorem steps_iff (Inv : S → Prop) {ok P Q : S → A → Prop}
    (keep : ∀ s a s', Inv s → ok s a → sys.step s a = some s' → Inv s')
    (exact : ∀ s a, Inv s → ok s a → (P s a ↔ Q s a)) {s : S} (inv : Inv s) {as : List A}
    (allowed : sys.Steps ok s as) : sys.Steps P s as ↔ sys.Steps Q s as := by
  induction as generalizing s with
  | nil => exact Iff.rfl
  | cons a as ih =>
      refine and_congr (exact s a inv allowed.1) ?_
      refine forall_congr' fun s' => forall_congr' fun step => ?_
      exact ih (keep s a s' inv allowed.1 step) (allowed.2 s' step)

theorem steps_and {P Q : S → A → Prop} {s : S} {as : List A} :
    sys.Steps (fun s a => P s a ∧ Q s a) s as ↔ sys.Steps P s as ∧ sys.Steps Q s as := by
  induction as generalizing s with
  | nil => simp [Steps]
  | cons a as ih =>
      simp only [Steps, ih]
      constructor
      · rintro ⟨⟨first, second⟩, rest⟩
        exact ⟨⟨first, fun s' step => (rest s' step).1⟩, second, fun s' step => (rest s' step).2⟩
      · rintro ⟨⟨first, rest⟩, second, rest'⟩
        exact ⟨⟨first, second⟩, fun s' step => ⟨rest s' step, rest' s' step⟩⟩

/-- Steps that meet `ok` meet `Q`, as long as they keep the invariant. -/
theorem Steps.of_steps (Inv : S → Prop) {ok Q : S → A → Prop}
    (keep : ∀ s a s', Inv s → ok s a → sys.step s a = some s' → Inv s')
    (met : ∀ s a, Inv s → ok s a → Q s a) {s : S} (inv : Inv s) {as : List A}
    (allowed : sys.Steps ok s as) : sys.Steps Q s as := by
  induction as generalizing s with
  | nil => trivial
  | cons a as ih =>
      exact ⟨met s a inv allowed.1, fun s' step =>
        ih (keep s a s' inv allowed.1 step) (allowed.2 s' step)⟩

theorem Steps.of_forall {ok : A → Prop} {as : List A} (meets : ∀ a ∈ as, ok a) (s : S) :
    sys.Steps (fun _ a => ok a) s as := by
  induction as generalizing s with
  | nil => trivial
  | cons a as ih =>
      obtain ⟨first, rest⟩ := List.forall_mem_cons.mp meets
      exact ⟨first, fun s' _ => ih rest s'⟩

theorem Steps.of_invariant (P : S → Prop) (ok : A → Prop) {Q : S → A → Prop}
    (keep : ∀ s a s', P s → ok a → sys.step s a = some s' → P s')
    (met : ∀ s a, P s → ok a → Q s a) {s : S} (start : P s) (as : List A)
    (allowed : ∀ a ∈ as, ok a) : sys.Steps Q s as :=
  .of_steps P keep met start (.of_forall allowed s)

/-- A condition on the actions alone, along a run that can be taken. -/
theorem steps_actions {ok : A → Prop} {s t : S} {as : List A} (run : sys.run s as = some t) :
    sys.Steps (fun _ a => ok a) s as ↔ ∀ a ∈ as, ok a := by
  refine ⟨fun steps => ?_, fun meets => .of_forall meets s⟩
  induction as generalizing s with
  | nil => simp
  | cons a as ih =>
      obtain ⟨s', step, rest⟩ := run_cons_some run
      exact List.forall_mem_cons.mpr ⟨steps.1, ih rest (steps.2 s' step)⟩

/-- **A property that a step keeps exactly when it meets `Q`** holds along a run
exactly when all the run's steps meet `Q`. -/
theorem always_iff_steps (Inv : S → Prop) {P : S → Prop} {Q : S → A → Prop}
    (keep : ∀ s a s', Inv s → sys.step s a = some s' → Inv s')
    (exact : ∀ s a s', Inv s → P s → sys.step s a = some s' → (P s' ↔ Q s a))
    {s t : S} (inv : Inv s) (start : P s) {as : List A} (run : sys.run s as = some t) :
    sys.Always P s as ↔ sys.Steps Q s as := by
  induction as generalizing s with
  | nil => exact ⟨fun _ => trivial, fun _ => start⟩
  | cons a as ih =>
      obtain ⟨s', step, rest⟩ := run_cons_some run
      have here := exact s a s' inv start step
      constructor
      · rintro ⟨-, after⟩
        have kept : P s' := (after s' step).here
        refine ⟨here.mp kept, fun s₁ step₁ => ?_⟩
        obtain rfl := Option.some.inj (step.symm.trans step₁)
        exact (ih (keep s a s' inv step) kept rest).mp (after s' step)
      · rintro ⟨meets, after⟩
        refine ⟨start, fun s₁ step₁ => ?_⟩
        obtain rfl := Option.some.inj (step.symm.trans step₁)
        exact (ih (keep s a s' inv step) (here.mpr meets) rest).mpr (after s' step)

/-! ## Two systems -/

section Simulation

universe u' v'

variable {S' : Type u'} {A' : Type v'} {sys' : System S' A'}

/-- **What can follow every step can follow every run.** -/
theorem Reaches.lift (Follows : S → S' → Prop) {ok : A' → Prop}
    (follow : ∀ s s' a t', Follows s s' → sys'.step s' a = some t' →
      ∃ t, sys.Reaches (fun _ => True) s t ∧ Follows t t')
    {s : S} {s' t' : S'} (start : Follows s s') (reach : sys'.Reaches ok s' t') :
    ∃ t, sys.Reaches (fun _ => True) s t ∧ Follows t t' :=
  reach.induct (P := fun t' => ∃ t, sys.Reaches (fun _ => True) s t ∧ Follows t t')
    ⟨s, .refl s, start⟩ fun r' a t' before _ step => by
      obtain ⟨r, reach, follows⟩ := before
      obtain ⟨t, after, follows'⟩ := follow r r' a t' follows step
      exact ⟨t, reach.trans after, follows'⟩

end Simulation

/-! ## Progress -/

/-- **A rank that every step lowers** bounds the runs. -/
theorem length_le_of_rank (Inv : S → Prop) (rank : S → Nat)
    (keep : ∀ s a s', Inv s → sys.step s a = some s' → Inv s' ∧ rank s' < rank s)
    {s t : S} (inv : Inv s) {as : List A} (run : sys.run s as = some t) :
    Inv t ∧ as.length + rank t ≤ rank s := by
  induction as generalizing s with
  | nil =>
      cases run
      exact ⟨inv, by simp⟩
  | cons a as ih =>
      obtain ⟨s', step, rest⟩ := run_cons_some run
      obtain ⟨inv', lower⟩ := keep s a s' inv step
      obtain ⟨inv'', bound⟩ := ih inv' rest
      refine ⟨inv'', ?_⟩
      rw [List.length_cons]
      omega

variable (sys) in
/-- **A rank that some allowed step lowers** as long as the work is not done. -/
theorem reaches_of_rank (ok : A → Prop) (Inv Done : S → Prop) (rank : S → Nat)
    (progress : ∀ s, Inv s → Done s ∨
      ∃ a s', ok a ∧ sys.step s a = some s' ∧ Inv s' ∧ rank s' < rank s)
    {s : S} (inv : Inv s) : ∃ t, sys.Reaches ok s t ∧ Inv t ∧ Done t := by
  induction measure : rank s using Nat.strongRecOn generalizing s with
  | ind n ih =>
      rcases progress s inv with done | ⟨a, s', meets, step, inv', lower⟩
      · exact ⟨s, Reaches.refl s, inv, done⟩
      · obtain ⟨t, reach, inv'', done⟩ := ih (rank s') (measure ▸ lower) inv' rfl
        exact ⟨t, (Reaches.one meets step).trans reach, inv'', done⟩

end System

end Codesnip.Theory.Transition
