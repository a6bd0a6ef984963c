/-
# Theory.Sweep -- loops over the slots of a table that stop once enough is done

A `Traced` computation may fail, and keeps the calls it has made until then.

`sweep` goes through the indices of a table and visits what `pick` finds there; `sweepUpTo`
does so until a number of visits it was given is used up.  When a visit leaves the later
slots as they are (`Onward`), the number is enough if it is at least the number of picks
(`sweepUpTo_eq`), and a number that is exactly that of a first part keeps the loop from all
that comes after it (`sweepUpTo_part`).  What is called is what is picked (`calls_sweep`).
-/
import Mathlib.Data.List.Basic

namespace Codesnip.Theory.Sweep

set_option autoImplicit false

variable {ω ε α β σ κ : Type}

/-- A result, and the calls made for it. -/
structure Traced (ω ε α : Type) where
  calls : List ω
  result : Except ε α

namespace Traced

instance : Monad (Traced ω ε) where
  pure a := ⟨[], .ok a⟩
  bind x f :=
    match x.result with
    | .ok a => ⟨x.calls ++ (f a).calls, (f a).result⟩
    | .error e => ⟨x.calls, .error e⟩

/-- The call `c`, which has the result `x`. -/
def call (c : ω) (x : Except ε α) : Traced ω ε α := ⟨[c], x⟩

def silent (x : Except ε α) : Traced ω ε α := ⟨[], x⟩

@[simp] theorem calls_pure (a : α) : (pure a : Traced ω ε α).calls = [] := rfl

@[simp] theorem result_pure (a : α) : (pure a : Traced ω ε α).result = .ok a := rfl

variable {x : Traced ω ε α} {f g : α → Traced ω ε β}

theorem bind_ok {a : α} (ok : x.result = .ok a) :
    x >>= f = ⟨x.calls ++ (f a).calls, (f a).result⟩ := by
  show (match x.result with | .ok a => _ | .error e => _) = _
  rw [ok]

theorem bind_error {e : ε} (error : x.result = .error e) :
    x >>= f = ⟨x.calls, .error e⟩ := by
  show (match x.result with | .ok a => _ | .error e => _) = _
  rw [error]

@[simp] theorem result_bind :
    (x >>= f).result = x.result >>= fun a => (f a).result := by
  cases result : x.result with
  | ok a => rw [bind_ok result]; rfl
  | error e => rw [bind_error result]; rfl

theorem mem_calls_bind {c : ω} :
    c ∈ (x >>= f).calls ↔ c ∈ x.calls ∨ ∃ a, x.result = .ok a ∧ c ∈ (f a).calls := by
  cases result : x.result with
  | ok a => simp [bind_ok result]
  | error e => simp [bind_error result]

theorem bind_congr (same : ∀ a, x.result = .ok a → f a = g a) : x >>= f = x >>= g := by
  cases result : x.result with
  | ok a => rw [bind_ok result, bind_ok result, same a result]
  | error e => rw [bind_error result, bind_error result]

end Traced

section Sweep

variable (pick : σ → Nat → Option κ) (visit : Nat → κ → σ → Traced ω ε σ)

/-- The indices from `i`, with `count` to go. -/
def sweep : (count i : Nat) → σ → Traced ω ε σ
  | 0, _, s => pure s
  | count + 1, i, s =>
      match pick s i with
      | none => sweep count (i + 1) s
      | some k => visit i k s >>= sweep count (i + 1)

def sweepUpTo : (count i : Nat) → (ready : Int) → σ → Traced ω ε σ
  | 0, _, _, s => pure s
  | count + 1, i, ready, s =>
      match pick s i with
      | none => sweepUpTo count (i + 1) ready s
      | some k => visit i k s >>= fun s =>
          if ready - 1 ≤ 0 then pure s else sweepUpTo count (i + 1) (ready - 1) s

def picks (s : σ) (count i : Nat) : List κ := (List.range' i count).filterMap (pick s)

/-- A visit leaves the slots behind its own as they are. -/
def Onward : Prop :=
  ∀ i k s s', pick s i = some k → (visit i k s).result = .ok s' →
    ∀ j, i < j → pick s' j = pick s j

variable {pick visit} {s s' : σ} {count i : Nat} {ready : Int}

theorem picks_none (none : pick s i = none) :
    picks pick s (count + 1) i = picks pick s count (i + 1) := by
  rw [picks, List.range'_succ, List.filterMap_cons_none none, picks]

theorem picks_some {k : κ} (some : pick s i = some k) :
    picks pick s (count + 1) i = k :: picks pick s count (i + 1) := by
  rw [picks, List.range'_succ, List.filterMap_cons_some some, picks]

theorem picks_eq_nil_iff :
    picks pick s count i = [] ↔ ∀ j, i ≤ j → j < i + count → pick s j = none := by
  simp [picks, List.filterMap_eq_nil_iff, List.mem_range'_1]

theorem length_picks_le (more : Nat) :
    (picks pick s count i).length ≤ (picks pick s (count + more) i).length := by
  rw [picks, picks, ← List.range'_append_1, List.filterMap_append, List.length_append]
  exact Nat.le_add_right _ _

theorem picks_congr (same : ∀ j, i ≤ j → j < i + count → pick s' j = pick s j) :
    picks pick s' count i = picks pick s count i :=
  List.filterMap_congr fun j member =>
    same j (List.mem_range'_1.mp member).1 (List.mem_range'_1.mp member).2

/-- Every slot of a table is looked at. -/
theorem filterMap_slots (slots : List κ) (p : κ → Bool) :
    (List.range slots.length).filterMap (fun i => slots[i]?.filter p) = slots.filter p := by
  induction slots with
  | nil => rfl
  | cons k slots ih =>
      have rest : ((List.range slots.length).map Nat.succ).filterMap
          (fun i => (k :: slots)[i]?.filter p) = slots.filter p := by
        rw [List.filterMap_map]
        exact ih
      rw [List.length_cons, List.range_succ_eq_map]
      cases holds : p k with
      | true =>
          rw [List.filterMap_cons_some (b := k) (by simp [holds]), rest,
            List.filter_cons_of_pos holds]
      | false =>
          rw [List.filterMap_cons_none (by simp [holds]), rest,
            List.filter_cons_of_neg (by simp [holds])]

theorem sweep_quiet (none : picks pick s count i = []) : sweep pick visit count i s = pure s := by
  induction count generalizing i with
  | zero => rfl
  | succ count ih =>
      have here := picks_eq_nil_iff.mp none i (Nat.le_refl i) (by omega)
      rw [sweep, here]
      exact ih (by rwa [picks_none here] at none)

/-- A number that is enough for all picks changes nothing, and there may be further slots
in which there is nothing to pick. -/
theorem sweepUpTo_eq (onward : Onward pick visit) (more : Nat)
    (enough : ((picks pick s count i).length : Int) ≤ ready)
    (rest : ∀ j, i + count ≤ j → j < i + count + more → pick s j = none) :
    sweepUpTo pick visit count i ready s = sweep pick visit (count + more) i s := by
  induction count generalizing i ready s with
  | zero =>
      rw [Nat.zero_add, sweep_quiet]
      · rfl
      · exact picks_eq_nil_iff.mpr rest
  | succ count ih =>
      rw [Nat.succ_add]
      cases here : pick s i with
      | none =>
          rw [picks_none here] at enough
          rw [sweepUpTo, sweep, here]
          exact ih enough fun j from_j below => rest j (by omega) (by omega)
      | some k =>
          rw [picks_some here, List.length_cons] at enough
          rw [sweepUpTo, sweep, here]
          refine Traced.bind_congr fun s' visited => ?_
          have same := onward i k s s' here visited
          have later : picks pick s' count (i + 1) = picks pick s count (i + 1) :=
            picks_congr fun j lt _ => same j lt
          have rest' : ∀ j, i + 1 + count ≤ j → j < i + 1 + count + more → pick s' j = none := by
            intro j from_j below
            rw [same j (by omega)]
            exact rest j (by omega) (by omega)
          split
          · have used : picks pick s' count (i + 1) = [] := by
              rw [later]
              exact List.eq_nil_of_length_eq_zero (by omega)
            have quiet : picks pick s' (count + more) (i + 1) = [] := by
              refine picks_eq_nil_iff.mpr fun j from_j below => ?_
              by_cases first : j < i + 1 + count
              · exact picks_eq_nil_iff.mp used j from_j first
              · exact rest' j (by omega) (by omega)
            rw [sweep_quiet quiet]
          · exact ih (by rw [later]; omega) rest'

/-- A number that is used up by a first part keeps the loop from the rest. -/
theorem sweepUpTo_part (onward : Onward pick visit) (more : Nat) (pos : 0 < ready)
    (exact : ((picks pick s count i).length : Int) = ready) :
    sweepUpTo pick visit (count + more) i ready s = sweep pick visit count i s := by
  induction count generalizing i ready s with
  | zero =>
      rw [picks] at exact
      simp at exact
      omega
  | succ count ih =>
      rw [Nat.succ_add]
      cases here : pick s i with
      | none =>
          rw [picks_none here] at exact
          rw [sweepUpTo, sweep, here]
          exact ih pos exact
      | some k =>
          rw [picks_some here, List.length_cons] at exact
          rw [sweepUpTo, sweep, here]
          refine Traced.bind_congr fun s' visited => ?_
          have same := onward i k s s' here visited
          have later : picks pick s' count (i + 1) = picks pick s count (i + 1) :=
            picks_congr fun j lt _ => same j lt
          split
          · rw [sweep_quiet]
            rw [later]
            exact List.eq_nil_of_length_eq_zero (by omega)
          · exact ih (by omega) (by rw [later]; omega)

/-- **What is called is what is picked**, up to a failure. -/
theorem calls_sweep (onward : Onward pick visit) (call : κ → ω)
    (one : ∀ i k s, (visit i k s).calls = [call k]) (count i : Nat) (s : σ) :
    (sweep pick visit count i s).calls <+: (picks pick s count i).map call ∧
      ∀ s', (sweep pick visit count i s).result = .ok s' →
        (sweep pick visit count i s).calls = (picks pick s count i).map call := by
  induction count generalizing i s with
  | zero => exact ⟨List.nil_prefix, fun _ _ => rfl⟩
  | succ count ih =>
      cases here : pick s i with
      | none =>
          rw [picks_none here, sweep, here]
          exact ih (i + 1) s
      | some k =>
          rw [picks_some here, sweep, here, List.map_cons]
          dsimp only
          cases visited : (visit i k s).result with
          | error e =>
              rw [Traced.bind_error visited, one]
              exact ⟨⟨_, rfl⟩, fun s' same => by cases same⟩
          | ok s' =>
              have later : picks pick s' count (i + 1) = picks pick s count (i + 1) :=
                picks_congr fun j lt _ => onward i k s s' here visited j lt
              obtain ⟨initial, whole⟩ := ih (i + 1) s'
              rw [later] at initial whole
              rw [Traced.bind_ok visited, one]
              exact ⟨(List.prefix_cons_inj _).mpr initial, fun t result => by
                rw [whole t result]
                rfl⟩

end Sweep

end Codesnip.Theory.Sweep
