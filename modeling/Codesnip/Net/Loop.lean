/-
# Net.Loop -- how the servers of `net/net.cpp` run and end

A server is a `for (;;)` whose turn is one step, taken with the kernel's answers to the
calls of that turn.  It ends in two ways: a wrapper of `unit/syscallwrap.cpp` whose call
fails ends the process, and a turn may do what C++ does not define.  `Holds P` says that
`P` holds if the server still runs, and that nothing undefined happened.

`always_iff`: when a turn is defined exactly if it meets `Q`, and then keeps the
invariant, a run is right exactly as long as all its turns meet `Q`.
-/
import Codesnip.Theory.Transition
import Codesnip.Unit.SysCallWrap

namespace Codesnip.Net

open Codesnip.Theory.Transition (System)
open Codesnip.Unit.SysCallWrap (Exit)

set_option autoImplicit false
set_option linter.dupNamespace false

/-- A descriptor that a `fd_set` has no bit for, an index outside an array. -/
inductive Undefined where
  | FD_SET (fd : Int)
  | client (i : Int)
  deriving DecidableEq, Repr

inductive Ended where
  | exit (exit : Exit)
  | undefined (what : Undefined)
  deriving DecidableEq, Repr

def Holds {σ : Type} (P : σ → Prop) : Except Ended σ → Prop
  | .ok s => P s
  | .error (.exit _) => True
  | .error (.undefined _) => False

namespace Holds

variable {σ τ : Type} {P Q : σ → Prop}

theorem mono {x : Except Ended σ} (holds : Holds P x) (weaker : ∀ s, P s → Q s) : Holds Q x := by
  match x with
  | .ok s => exact weaker s holds
  | .error (.exit _) => trivial
  | .error (.undefined _) => exact holds

theorem bind {R : τ → Prop} {x : Except Ended σ} {f : σ → Except Ended τ} (first : Holds P x)
    (next : ∀ s, P s → Holds R (f s)) : Holds R (x >>= f) := by
  match x with
  | .ok s => exact next s first
  | .error (.exit _) => trivial
  | .error (.undefined _) => exact first

end Holds

theorem exists_ok_of_map {σ τ : Type} {x : Except Ended σ} {f : σ → τ} {y : τ}
    (mapped : x.map f = .ok y) : ∃ s, x = .ok s ∧ f s = y := by
  match x with
  | .ok s => exact ⟨s, rfl, Except.ok.inj mapped⟩
  | .error _ => cases mapped

/-! ## The wrappers

A wrapper whose call fails ends the process.  The status kept here is the errno of that call;
the source reads `errno` again behind `perror`, which may have changed it. -/

/-- What a `read` of at most 1024 bytes returns. -/
structure Chunk where
  bytes : List UInt8
  fits : bytes.length ≤ 1024
  deriving DecidableEq

/-- `accept`, interrupted or not, answers with a descriptor or an errno. -/
def Accept (answer : Except Int32 Int) : Except Ended Int :=
  answer.mapError fun errno => .exit ⟨"accept error!\n", errno⟩

def Read (answer : Except Int32 Chunk) : Except Ended Chunk :=
  answer.mapError fun errno => .exit ⟨"read erro", errno⟩

def Close (answer : Except Int32 Unit) : Except Ended Unit :=
  answer.mapError fun errno => .exit ⟨"close error!", errno⟩

theorem holds_wrapper {α : Type} {answer : Except Int32 α} {exit : Int32 → Exit} :
    Holds (fun a => answer = .ok a) (answer.mapError fun errno => .exit (exit errno)) := by
  cases answer with
  | ok a => rfl
  | error errno => trivial

/-! ## The loop -/

section Loop

variable {σ A : Type}

/-- A server that has ended takes no step. -/
def live (step : σ → A → Option (Except Ended σ)) : Except Ended σ → A → Option (Except Ended σ)
  | .ok s, a => step s a
  | .error _, _ => none

/-- One turn of a server's loop, with answers that the kernel can give. -/
def turn (permits : σ → A → Prop) [∀ s a, Decidable (permits s a)]
    (iteration : A → σ → Except Ended σ) : Except Ended σ → A → Option (Except Ended σ) :=
  live fun s a => if permits s a then some (iteration a s) else none

theorem live_cases {step : σ → A → Option (Except Ended σ)} {x x' : Except Ended σ} {a : A}
    (stepped : live step x a = some x') : ∃ s, x = .ok s ∧ step s a = some x' := by
  match x with
  | .ok s => exact ⟨s, rfl, stepped⟩
  | .error _ => cases stepped

variable {sys : System (Except Ended σ) A} {permits : σ → A → Prop}
  [∀ s a, Decidable (permits s a)] {iteration : A → σ → Except Ended σ}

theorem turn_cases {x x' : Except Ended σ} {a : A}
    (step : turn permits iteration x a = some x') :
    ∃ s, x = .ok s ∧ permits s a ∧ x' = iteration a s := by
  obtain ⟨s, rfl, stepped⟩ := live_cases step
  split at stepped
  · exact ⟨s, rfl, ‹_›, (Option.some.inj stepped).symm⟩
  · cases stepped

/-- The invariant of a server that runs. -/
def Running (Inv : σ → Prop) (x : Except Ended σ) : Prop := ∀ s, x = .ok s → Inv s

/-- A turn of a server that runs. -/
def Turns (Q : σ → A → Prop) (x : Except Ended σ) (a : A) : Prop := ∀ s, x = .ok s → Q s a

@[simp] theorem turns_ok {Q : σ → A → Prop} {s : σ} {a : A} : Turns Q (.ok s) a ↔ Q s a := by
  refine ⟨fun turns => turns s rfl, fun meets t same => ?_⟩
  obtain rfl := Except.ok.inj same
  exact meets

instance {Q : σ → A → Prop} [∀ s a, Decidable (Q s a)] (x : Except Ended σ) (a : A) :
    Decidable (Turns Q x a) :=
  match x with
  | .ok _ => decidable_of_iff _ turns_ok.symm
  | .error _ => .isTrue fun _ same => nomatch same

theorem Holds.running {Inv : σ → Prop} {x : Except Ended σ} (holds : Holds Inv x) :
    Running Inv x := by
  rintro s rfl
  exact holds

theorem Running.bind {τ : Type} {P : σ → Prop} {R : τ → Prop} {x : Except Ended σ}
    {f : σ → Except Ended τ} (first : Running P x) (next : ∀ s, P s → Running R (f s)) :
    Running R (x >>= f) := by
  match x with
  | .ok s => exact next s (first s rfl)
  | .error _ => exact fun _ same => by cases same

theorem Running.any {x : Except Ended σ} : Running (fun _ => True) x := fun _ _ => trivial

/-- A turn that meets `Q` keeps the invariant. -/
theorem Running.turn (turns : sys.step = turn permits iteration) {Inv : σ → Prop}
    {Q : Except Ended σ → A → Prop}
    (keep : ∀ s a, Inv s → permits s a → Q (.ok s) a → Holds Inv (iteration a s))
    {x x' : Except Ended σ} {a : A} (inv : Running Inv x) (meets : Q x a)
    (step : sys.step x a = some x') : Holds Inv x' := by
  obtain ⟨s, rfl, permitted, rfl⟩ := turn_cases (turns ▸ step)
  exact keep s a (inv s rfl) permitted meets

section Undefined

variable {Inv : σ → Prop} (turns : sys.step = Net.turn permits iteration)
  (Q : Except Ended σ → A → Prop)
  (keep : ∀ s a, Inv s → permits s a → Q (.ok s) a → Holds Inv (iteration a s))
  (leave : ∀ s a, Inv s → permits s a → ¬ Q (.ok s) a → ¬ Holds (fun _ => True) (iteration a s))
include turns keep leave

/-- A server that still runs has done nothing undefined. -/
theorem Running.step {x x' : Except Ended σ} {a : A} (inv : Running Inv x)
    (step : sys.step x a = some x') : Running Inv x' := by
  by_cases meets : Q x a
  · exact (inv.turn turns keep meets step).running
  · obtain ⟨s, rfl, permitted, rfl⟩ := turn_cases (turns ▸ step)
    intro s' same
    refine absurd ?_ (leave s a (inv s rfl) permitted meets)
    rw [same]
    trivial

/-- **A server is right exactly as long as its turns meet `Q`**. -/
theorem always_iff {P : σ → Prop} (implied : ∀ s, Inv s → P s) {x y : Except Ended σ}
    (start : Holds Inv x) {as : List A} (run : sys.run x as = some y) :
    sys.Always (Holds P) x as ↔ sys.Steps Q x as := by
  refine System.always_iff_steps (Running Inv) (fun _ _ _ inv step =>
    inv.step turns Q keep leave step) ?_ start.running (start.mono implied) run
  intro x a x' inv _ step
  constructor
  · intro holds
    obtain ⟨s, rfl, permitted, rfl⟩ := turn_cases (turns ▸ step)
    by_contra fails
    exact leave s a (inv s rfl) permitted fails (holds.mono fun _ _ => trivial)
  · exact fun meets => (inv.turn turns keep meets step).mono implied

end Undefined

end Loop

end Codesnip.Net
