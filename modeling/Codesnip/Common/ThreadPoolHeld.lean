/-
# Common.ThreadPoolHeld -- the tasks that the workers of a pool have taken

A worker holds a task from the `dequeue()` that moved it into `func` until the call of `func`
returns.  `Worked.holding` says what one statement of a worker does to the tasks: it takes the
first one from the queue, it lets go of the one it has called, or all of them stay where they
are.
-/
import Codesnip.Common.ThreadPool
import Codesnip.Theory.Holdings

namespace Codesnip.Common.ThreadPool

open Codesnip.Theory.Holdings

set_option autoImplicit false
set_option linter.dupNamespace false
set_option linter.unusedSectionVars false

/-- The task that a worker has taken and is not through with. -/
def Worker.holding {T : Type} (me : Worker T) : Option T :=
  match me.pc with
  | .unlock | .branch => if me.dequeued then me.func else none
  | .call | .running => me.func
  | .test | .lock | .empty | .wait | .asleep | .dequeue | .exited => none

/-- What a worker is about to call is there. -/
def Worker.Loaded {T : Type} (me : Worker T) : Prop :=
  match me.pc with
  | .unlock | .branch => me.dequeued = true → me.func ≠ none
  | .call | .running => me.func ≠ none
  | .test | .lock | .empty | .wait | .asleep | .dequeue | .exited => True

namespace State

variable {n : Nat} {S T : Type} [DecidableEq S] {s s' : State n S T} {v w : Fin n}

def holding (s : State n S T) : List T := holdings fun w => (s.workers w).holding

theorem start_holding : (start n S T).holding = [] := holdings_none

theorem holding_put (s : State n S T) (w : Fin n) (me : Worker T) :
    (s.put w me).holding =
      holdings (Function.update (fun v => (s.workers v).holding) w me.holding) := by
  have same := Function.comp_update Worker.holding s.workers w me
  rw [holding, ← Function.comp_def, ← Function.comp_def Worker.holding s.workers, ← same]
  rfl

/-- A worker that holds what it held. -/
theorem holding_put_same {me : Worker T} (same : me.holding = (s.workers w).holding) :
    (s.put w me).holding = s.holding := by
  rw [holding_put, same, Function.update_eq_self w fun v => (s.workers v).holding]
  rfl

namespace Worked

theorem workers_of_ne (worked : s.Worked w s') (ne : v ≠ w) : s'.workers v = s.workers v := by
  cases worked <;> exact put_workers_of_ne s ne _

/-- A statement of `operator()`: the end of a call, or at most one task taken. -/
theorem holding (worked : s.Worked w s') :
    s.pc w = .running ∧ s'.m_queue = s.m_queue ∧
        ((s.workers w).func.toList ++ s'.holding).Perm s.holding ∨
      s.pc w ≠ .running ∧ ∃ taken, s.m_queue = taken ++ s'.m_queue ∧
        s'.holding.Perm (taken ++ s.holding) := by
  have stays {me : Worker T} {t : State n S T} (pc : s.pc w ≠ .running)
      (queue : s.m_queue = t.m_queue) (workers : t.workers = (s.put w me).workers)
      (same : me.holding = (s.workers w).holding) : s.pc w ≠ .running ∧
        ∃ taken, s.m_queue = taken ++ t.m_queue ∧ t.holding.Perm (taken ++ s.holding) := by
    refine ⟨pc, [], queue, ?_⟩
    rw [State.holding, workers]
    exact List.Perm.of_eq (holding_put_same same)
  have holds {pc : Pc} (here : s.pc w = pc) :
      (s.workers w).holding = Worker.holding { s.workers w with pc } := by
    rw [← here]
    rfl
  cases worked with
  | finish pc =>
      refine .inl ⟨pc, rfl, ?_⟩
      have before : (s.workers w).holding = (s.workers w).func := holds pc
      rw [holding_put, ← before]
      exact holdings_update (fun v => (s.workers v).holding) w none
  | @took pc front rest queue =>
      refine .inr ⟨by simp [pc], [front], queue, ?_⟩
      have before : (s.workers w).holding = none := holds pc
      have perm := holdings_take (f := fun v => (s.workers v).holding) before front
      exact (List.Perm.of_eq (holding_put s w _)).trans perm
  | missed pc none => exact .inr (stays (by simp [pc]) none rfl (holds pc).symm)
  | takeUp pc got =>
      refine .inr (stays (by simp [pc]) rfl rfl ?_)
      rw [holds pc]
      exact (if_pos got).symm
  | again pc failed =>
      refine .inr (stays (by simp [pc]) rfl rfl ?_)
      rw [holds pc]
      exact (if_neg (by simp [failed])).symm
  | leave pc | enter pc | lock pc | sawEmpty pc | sawTask pc | sleep pc | wakeUp pc | unlock pc
  | call pc => exact .inr (stays (by simp [pc]) rfl rfl (holds pc).symm)

theorem loaded (loaded : ∀ v, (s.workers v).Loaded) (worked : s.Worked w s') :
    ∀ v, (s'.workers v).Loaded := by
  intro v
  by_cases same : v = w
  · subst same
    have here := loaded v
    unfold Worker.Loaded at here
    cases worked with
    | missed pc none =>
        rw [put_workers_self]
        intro no
        cases no
    | took pc queue =>
        rw [put_workers_self]
        intro _ no
        cases no
    | unlock pc =>
        rw [show (s.workers v).pc = _ from pc] at here
        rw [put_workers_self]
        exact here
    | takeUp pc got =>
        rw [show (s.workers v).pc = _ from pc] at here
        rw [put_workers_self]
        exact here got
    | call pc =>
        rw [show (s.workers v).pc = _ from pc] at here
        rw [put_workers_self]
        exact here
    | leave | enter | lock | sawEmpty | sawTask | sleep | wakeUp | again | finish =>
        rw [put_workers_self]
        trivial
  · rw [worked.workers_of_ne same]
    exact loaded v

/-- Only a call of `func` leads into it. -/
theorem call_of_running (worked : s.Worked w s') (running : s'.pc w = .running) :
    s.pc w = .call := by
  cases worked with
  | call pc => exact pc
  | _ => simp [pc, put] at running

end Worked

end State

end Codesnip.Common.ThreadPool
