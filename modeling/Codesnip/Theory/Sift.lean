/-
# Theory.Sift -- take some elements out of a list and fold them into a state

`sift take store` goes through a list from the left: what `take` recognises is put into
the state by `store`, which may fail, and the rest is kept in its order.  A program that
takes out the first match, puts it away and starts over computes this (`sift_first`).
Where failing does not depend on the state, it is a search for the first failure and then a
fold (`sift_fold`).
-/
import Mathlib.Data.List.Basic

namespace Codesnip.Theory.Sift

set_option autoImplicit false

section Sift

variable {α β γ σ ε : Type} {take : α → Option β} {store : β → σ → Except ε σ}

def sift (take : α → Option β) (store : β → σ → Except ε σ) :
    List α → σ → Except ε (List α × σ)
  | [], s => .ok ([], s)
  | a :: as, s =>
      match take a with
      | none => (sift take store as s).map fun (kept, s) => (a :: kept, s)
      | some b => (store b s).bind fun s => sift take store as s

@[simp] theorem sift_nil (s : σ) : sift take store [] s = .ok ([], s) := rfl

theorem sift_none {a : α} (none : take a = none) (as : List α) (s : σ) :
    sift take store (a :: as) s = (sift take store as s).map fun (kept, s) => (a :: kept, s) := by
  rw [sift, none]

theorem sift_some {a : α} {b : β} (some : take a = some b) (as : List α) (s : σ) :
    sift take store (a :: as) s = (store b s).bind fun s => sift take store as s := by
  rw [sift, some]

/-- What stands in front of the first match is kept. -/
theorem sift_append_none {pre : List α} (none : ∀ a ∈ pre, take a = none) (as : List α) (s : σ) :
    sift take store (pre ++ as) s =
      (sift take store as s).map fun (kept, s) => (pre ++ kept, s) := by
  induction pre with
  | nil =>
      rw [List.nil_append]
      cases sift take store as s <;> rfl
  | cons a pre ih =>
      obtain ⟨first, rest⟩ := List.forall_mem_cons.mp none
      rw [List.cons_append, sift_none first, ih rest]
      cases sift take store as s <;> rfl

theorem sift_of_none {as : List α} (none : ∀ a ∈ as, take a = none) (s : σ) :
    sift take store as s = .ok (as, s) := by
  have whole : sift take store (as ++ []) s = _ := sift_append_none none [] s
  simpa [Except.map] using whole

/-- **Taking out the first match and starting over.** -/
theorem sift_first {pre : List α} (none : ∀ a ∈ pre, take a = none) {a : α} {b : β}
    (some : take a = some b) (post : List α) (s : σ) :
    sift take store (pre ++ a :: post) s =
      (store b s).bind fun s => sift take store (pre ++ post) s := by
  rw [sift_append_none none, sift_some some]
  cases store b s with
  | error e => rfl
  | ok s => exact (sift_append_none none post s).symm

theorem sift_append (as bs : List α) (s : σ) :
    sift take store (as ++ bs) s = (sift take store as s).bind fun (kept, s) =>
      (sift take store bs s).map fun (kept', s) => (kept ++ kept', s) := by
  induction as generalizing s with
  | nil =>
      rw [List.nil_append, sift_nil]
      show _ = (sift take store bs s).map _
      cases sift take store bs s <;> rfl
  | cons a as ih =>
      cases found : take a with
      | none =>
          rw [List.cons_append, sift_none found, sift_none found, ih]
          cases sift take store as s with
          | error e => rfl
          | ok first =>
              show ((sift take store bs first.2).map _).map _ = (sift take store bs first.2).map _
              cases sift take store bs first.2 <;> rfl
      | some b =>
          rw [List.cons_append, sift_some found, sift_some found]
          cases store b s with
          | error e => rfl
          | ok s => exact ih s

/-- The rest is kept in its order. -/
theorem kept_eq {as kept : List α} {s s' : σ} (sifted : sift take store as s = .ok (kept, s')) :
    kept = as.filter fun a => (take a).isNone := by
  induction as generalizing kept s with
  | nil =>
      cases sifted
      rfl
  | cons a as ih =>
      cases found : take a with
      | none =>
          rw [sift_none found] at sifted
          cases rest : sift take store as s with
          | error e =>
              rw [rest] at sifted
              cases sifted
          | ok result =>
              rw [rest] at sifted
              cases sifted
              rw [List.filter_cons_of_pos (by simp [found]), ← ih rest]
      | some b =>
          rw [sift_some found] at sifted
          cases stored : store b s with
          | error e =>
              rw [stored] at sifted
              cases sifted
          | ok s =>
              rw [stored] at sifted
              rw [List.filter_cons_of_neg (by simp [found]), ← ih sifted]

/-- Nothing fails if no match fails. -/
theorem exists_ok {as : List α}
    (stores : ∀ a ∈ as, ∀ b, take a = some b → ∀ s, ∃ s', store b s = .ok s') (s : σ) :
    ∃ result, sift take store as s = .ok result := by
  induction as generalizing s with
  | nil => exact ⟨_, rfl⟩
  | cons a as ih =>
      obtain ⟨first, rest⟩ := List.forall_mem_cons.mp stores
      cases found : take a with
      | none =>
          obtain ⟨result, sifted⟩ := ih rest s
          exact ⟨_, by rw [sift_none found, sifted]; rfl⟩
      | some b =>
          obtain ⟨s', stored⟩ := first b found s
          obtain ⟨result, sifted⟩ := ih rest s'
          exact ⟨result, by rw [sift_some found, stored]; exact sifted⟩

/-- A part of the state that every match either sets or leaves alone is left alone or ends
as the last match that sets it has set it. -/
theorem last_set {get : σ → γ} {sets : β → Option γ}
    (step : ∀ b s s', store b s = .ok s' → get s' = (sets b).getD (get s)) {as kept : List α}
    {s s' : σ} (sifted : sift take store as s = .ok (kept, s')) :
    (∀ a ∈ as, (take a).bind sets = none) ∧ get s' = get s ∨
      ∃ before a after, as = before ++ a :: after ∧ (take a).bind sets = some (get s') ∧
        ∀ a ∈ after, (take a).bind sets = none := by
  induction as generalizing kept s with
  | nil =>
      cases sifted
      exact .inl ⟨by simp, rfl⟩
  | cons a as ih =>
      cases found : take a with
      | none =>
          rw [sift_none found] at sifted
          cases rest : sift take store as s with
          | error e =>
              rw [rest] at sifted
              cases sifted
          | ok result =>
              rw [rest] at sifted
              cases sifted
              rcases ih rest with ⟨none, same⟩ | ⟨before, a', after, rfl, last⟩
              · exact .inl ⟨List.forall_mem_cons.mpr ⟨by simp [found], none⟩, same⟩
              · exact .inr ⟨a :: before, a', after, rfl, last⟩
      | some b =>
          rw [sift_some found] at sifted
          cases stored : store b s with
          | error e =>
              rw [stored] at sifted
              cases sifted
          | ok t =>
              rw [stored] at sifted
              have moved := step b s t stored
              rcases ih sifted with ⟨none, same⟩ | ⟨before, a', after, rfl, last⟩
              · rw [moved] at same
                cases set : sets b with
                | none =>
                    rw [set] at same
                    exact .inl ⟨List.forall_mem_cons.mpr ⟨by simp [found, set], none⟩, same⟩
                | some c =>
                    rw [set] at same
                    exact .inr ⟨[], a, as, rfl, by simp [found, set, same], none⟩
              · exact .inr ⟨a :: before, a', after, rfl, last⟩

/-- **Where failing does not depend on the state**, the first match that fails is what is
left, and else the fold of all of them. -/
theorem sift_fold (fails : β → Option ε) (put : σ → β → σ)
    (fail : ∀ b e, fails b = some e → ∀ s, store b s = .error e)
    (stored : ∀ b, fails b = none → ∀ s, store b s = .ok (put s b)) (as : List α) (s : σ) :
    sift take store as s = match as.findSome? fun a => (take a).bind fails with
      | some e => .error e
      | none => .ok (as.filter fun a => (take a).isNone, (as.filterMap take).foldl put s) := by
  induction as generalizing s with
  | nil => rfl
  | cons a as ih =>
      cases found : take a with
      | none =>
          rw [sift_none found, ih, List.findSome?_cons, found, Option.bind_none]
          rw [List.filter_cons_of_pos (by simp [found]), List.filterMap_cons_none found]
          cases as.findSome? fun a => (take a).bind fails <;> rfl
      | some b =>
          rw [sift_some found, List.findSome?_cons, found, Option.bind_some]
          cases failed : fails b with
          | some e => rw [fail b e failed]; rfl
          | none =>
              rw [stored b failed, List.filter_cons_of_neg (by simp [found]),
                List.filterMap_cons_some found]
              exact ih (put s b)

end Sift

/-- A part of a fold's state is as the last element that sets it has set it. -/
theorem get_foldl {β γ σ : Type} (put : σ → β → σ) (get : σ → γ) (sets : β → Option γ)
    (step : ∀ s b, get (put s b) = (sets b).getD (get s)) (bs : List β) (s : σ) :
    get (bs.foldl put s) = (bs.filterMap sets).getLast?.getD (get s) := by
  induction bs generalizing s with
  | nil => rfl
  | cons b bs ih =>
      rw [List.foldl_cons, ih, step]
      cases set : sets b with
      | none => rw [List.filterMap_cons_none set, Option.getD_none]
      | some c =>
          rw [List.filterMap_cons_some set, List.getLast?_cons, Option.getD_some, Option.getD_some]

end Codesnip.Theory.Sift
