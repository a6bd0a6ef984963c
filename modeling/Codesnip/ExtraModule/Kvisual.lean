/-
# ExtraModule.Kvisual -- loading and unloading `extra_module/kvisual`

The module puts eight kretprobes and three tracepoint probes into the kernel's
registries and is to take them out again.  A registry is a set of probes: those of
the module, under the names of `iovisual.c`, and those of others, `X`.

The kernel answers every registration.  `register_kretprobes` adds the whole slice of
the array or nothing, `register_trace_*` adds its probe or nothing, and what is
unregistered is taken out if it is there.  `kvisual_init` gives up when the
kretprobes fail and only warns when a tracepoint does.

`kvisual_exit` unregisters `iopath_kps`, the array of kprobes, which has no elements;
`iopath_kretps` is not touched.  So the tracepoints are balanced and the kretprobes
stay behind with every unload (`balanced_iff`).
-/
import Codesnip.Theory.Transition
import Mathlib.Data.Finset.Basic
import Mathlib.Data.Finset.Insert
import Mathlib.Data.Finset.SDiff

namespace Codesnip.ExtraModule.Kvisual

open Codesnip.Theory.Transition (System)

set_option autoImplicit false
set_option linter.dupNamespace false
set_option linter.unusedSectionVars false

/-! ## The registries -/

inductive Kretprobe (X : Type) where
  | do_sys_openat2_kretp
  | ext4_file_write_iter_kretp
  | generic_perform_write_kretp
  | grab_cache_page_write_begin_kretp
  | iov_iter_copy_from_user_kretp
  | submit_bh_kretp
  | submit_bio_kretp
  | scsi_queue_rq_kretp
  | other (x : X)
  deriving DecidableEq, Repr

/-- A probe function at its tracepoint. -/
inductive TraceProbe (X : Type) where
  | ext4_da_write_begin_trace
  | ext4_da_write_end_trace
  | block_getrq_trace
  | other (x : X)
  deriving DecidableEq, Repr

structure Registries (X : Type) where
  kprobes : Finset X
  kretprobes : Finset (Kretprobe X)
  tracepoints : Finset (TraceProbe X)
  deriving DecidableEq

/-- How the kernel answers a registration; `fail` is `-errno`. -/
inductive Answer where
  | ok
  | fail (errno : Nat) (pos : 0 < errno)
  deriving DecidableEq, Repr

def Answer.ret : Answer → Int
  | .ok => 0
  | .fail errno _ => -errno

def IO_DYNAMIC_KPROBE_NUM : Nat := 0

def IO_DYNAMIC_KRETPROBE_NUM : Nat := 8

section Registration

variable {X : Type} [DecidableEq X]

def register_kretprobes (answer : Answer) (rps : List (Kretprobe X)) (num : Nat)
    (r : Registries X) : Int × Registries X :=
  (answer.ret, match answer with
    | .ok => { r with kretprobes := r.kretprobes ∪ (rps.take num).toFinset }
    | .fail _ _ => r)

def unregister_kprobes (kps : List X) (num : Nat) (r : Registries X) : Registries X :=
  { r with kprobes := r.kprobes \ (kps.take num).toFinset }

def register_trace (answer : Answer) (probe : TraceProbe X) (r : Registries X) :
    Int × Registries X :=
  (answer.ret, match answer with
    | .ok => { r with tracepoints := insert probe r.tracepoints }
    | .fail _ _ => r)

def unregister_trace (probe : TraceProbe X) (r : Registries X) : Registries X :=
  { r with tracepoints := r.tracepoints.erase probe }

/-! ## The module -/

def iopath_kps : List X := []

def iopath_kretps : List (Kretprobe X) :=
  [.do_sys_openat2_kretp, .ext4_file_write_iter_kretp, .generic_perform_write_kretp,
    .grab_cache_page_write_begin_kretp, .iov_iter_copy_from_user_kretp, .submit_bh_kretp,
    .submit_bio_kretp, .scsi_queue_rq_kretp]

/-- The kernel's answers to one `kvisual_init`. -/
structure Answers where
  kretprobes : Answer
  ext4_da_write_begin : Answer
  ext4_da_write_end : Answer
  block_getrq : Answer
  deriving DecidableEq, Repr

/-- The registries, and the `ret` of each `WARN_ON`. -/
def register_static_io_trace (answers : Answers) (r : Registries X) : List Int × Registries X :=
  let (ret₁, r) := register_trace answers.ext4_da_write_begin .ext4_da_write_begin_trace r
  let (ret₂, r) := register_trace answers.ext4_da_write_end .ext4_da_write_end_trace r
  let (ret₃, r) := register_trace answers.block_getrq .block_getrq_trace r
  ([ret₁, ret₂, ret₃], r)

def unregister_static_io_trace (r : Registries X) : Registries X :=
  let r := unregister_trace .ext4_da_write_begin_trace r
  let r := unregister_trace .ext4_da_write_end_trace r
  unregister_trace .block_getrq_trace r

/-- What the module writes to the kernel's log. -/
inductive Message where
  | registerFailed (ret : Int)
  | warning (ret : Int)
  | welcome
  | exit
  deriving DecidableEq, Repr

def kvisual_init (answers : Answers) (r : Registries X) : Int × List Message × Registries X :=
  let (ret, r) := register_kretprobes answers.kretprobes iopath_kretps IO_DYNAMIC_KRETPROBE_NUM r
  if ret < 0 then (ret, [.registerFailed ret], r)
  else
    let (rets, r) := register_static_io_trace answers r
    (0, (rets.filter fun ret => ret ≠ 0).map .warning ++ [.welcome], r)

def kvisual_exit (r : Registries X) : List Message × Registries X :=
  let r := unregister_kprobes iopath_kps IO_DYNAMIC_KPROBE_NUM r
  ([.exit], unregister_static_io_trace r)

end Registration

/-- The kernel: a module that is loaded is not loaded again, and only a module that is
loaded is unloaded. -/
structure State (X : Type) where
  registries : Registries X
  loaded : Bool
  log : List Message

inductive Action where
  | load (answers : Answers)
  | unload
  deriving DecidableEq, Repr

namespace State

variable {X : Type} [DecidableEq X]

def step (s : State X) : Action → Option (State X)
  | .load answers =>
      if s.loaded then none
      else
        let (ret, log, registries) := kvisual_init answers s.registries
        some { registries, loaded := ret = 0, log := s.log ++ log }
  | .unload =>
      if s.loaded then
        let (log, registries) := kvisual_exit s.registries
        some { registries, loaded := false, log := s.log ++ log }
      else none

/-- The module has not been loaded yet. -/
def start (prior : Registries X) : State X := ⟨prior, false, []⟩

end State

/-- Nothing of the module is in the registries. -/
def Foreign {X : Type} (r : Registries X) : Prop :=
  (∀ probe ∈ r.kretprobes, ∃ x, probe = .other x) ∧ ∀ probe ∈ r.tracepoints, ∃ x, probe = .other x

def system (X : Type) [DecidableEq X] : System (State X) Action :=
  { Init := fun s => ∃ prior, Foreign prior ∧ s = .start prior
    step := State.step }

/-! ## What load and unload do -/

section Registration

variable {X : Type} [DecidableEq X]

@[simp] theorem register_trace_kprobes (answer : Answer) (probe : TraceProbe X) (r : Registries X) :
    (register_trace answer probe r).2.kprobes = r.kprobes := by
  cases answer <;> rfl

@[simp] theorem register_trace_kretprobes (answer : Answer) (probe : TraceProbe X)
    (r : Registries X) : (register_trace answer probe r).2.kretprobes = r.kretprobes := by
  cases answer <;> rfl

@[simp] theorem mem_register_trace {answer : Answer} {probe q : TraceProbe X} {r : Registries X} :
    q ∈ (register_trace answer probe r).2.tracepoints ↔
      answer = .ok ∧ q = probe ∨ q ∈ r.tracepoints := by
  cases answer <;> simp [register_trace]

/-- Registering the tracepoints touches no others. -/
theorem register_static_others (answers : Answers) (r : Registries X) :
    (register_static_io_trace answers r).2.kprobes = r.kprobes ∧
      (register_static_io_trace answers r).2.kretprobes = r.kretprobes ∧
      ∀ x, .other x ∈ (register_static_io_trace answers r).2.tracepoints ↔
        .other x ∈ r.tracepoints := by
  simp [register_static_io_trace]

/-- Without the module's three, whichever of them were there. -/
theorem mem_unregister_static {q : TraceProbe X} {r : Registries X} :
    q ∈ (unregister_static_io_trace r).tracepoints ↔ q ∈ r.tracepoints ∧ ∃ x, q = .other x := by
  cases q <;> simp [unregister_static_io_trace, unregister_trace]

/-- A `kvisual_init` that fails changes nothing. -/
theorem init_failed {answers : Answers} {errno : Nat} {pos : 0 < errno}
    (failed : answers.kretprobes = .fail errno pos) (r : Registries X) :
    kvisual_init answers r = (-(errno : Int), [.registerFailed (-(errno : Int))], r) := by
  have negative : -(errno : Int) < 0 := by omega
  simp only [kvisual_init, register_kretprobes, failed, Answer.ret]
  rw [if_pos negative]

/-- One that succeeds has registered all the kretprobes. -/
theorem init_ok {answers : Answers} (ok : answers.kretprobes = .ok) (r : Registries X) :
    ∃ log, kvisual_init answers r = (0, log, (register_static_io_trace answers
      { r with kretprobes := r.kretprobes ∪ iopath_kretps.toFinset }).2) := by
  simp only [kvisual_init, register_kretprobes, ok, Answer.ret]
  rw [if_neg (Int.lt_irrefl 0)]
  exact ⟨_, rfl⟩

/-- `kvisual_exit` takes out the tracepoint probes and no kretprobe. -/
theorem exit_registries (r : Registries X) :
    (kvisual_exit r).2.kprobes = r.kprobes ∧ (kvisual_exit r).2.kretprobes = r.kretprobes ∧
      ∀ q, q ∈ (kvisual_exit r).2.tracepoints ↔ q ∈ r.tracepoints ∧ ∃ x, q = .other x :=
  ⟨by simp [kvisual_exit, unregister_static_io_trace, unregister_trace, unregister_kprobes,
      iopath_kps], rfl, fun _ => mem_unregister_static⟩

end Registration

namespace State

variable {X : Type} [DecidableEq X] {prior : Registries X} {s s' : State X}

/-- Between load and unload the module's entries are the only new ones, and its
kretprobes are there; unloaded, it has no tracepoint. -/
structure Kept (prior : Registries X) (s : State X) : Prop where
  kprobes : s.registries.kprobes = prior.kprobes
  kretprobes : ∀ x, .other x ∈ s.registries.kretprobes ↔ .other x ∈ prior.kretprobes
  tracepoints : ∀ x, .other x ∈ s.registries.tracepoints ↔ .other x ∈ prior.tracepoints
  inside : s.loaded = true → ∀ probe ∈ iopath_kretps, probe ∈ s.registries.kretprobes
  outside : s.loaded = false → ∀ probe ∈ s.registries.tracepoints, ∃ x, probe = .other x

theorem start_kept (foreign : Foreign prior) : (start prior).Kept prior :=
  ⟨rfl, fun _ => Iff.rfl, fun _ => Iff.rfl, by simp [start], fun _ => foreign.2⟩

theorem not_mem_iopath_kretps (x : X) : .other x ∉ (iopath_kretps : List (Kretprobe X)) := by
  simp [iopath_kretps]

/-- The steps: a load that fails, a load that succeeds, an unload. -/
inductive Stepped (s : State X) : Action → State X → Prop where
  | failed {answers : Answers} {log : List Message} (out : s.loaded = false) :
      Stepped s (.load answers) ⟨s.registries, false, log⟩
  | loaded {answers : Answers} {log : List Message} (out : s.loaded = false) :
      Stepped s (.load answers) ⟨(register_static_io_trace answers { s.registries with
        kretprobes := s.registries.kretprobes ∪ iopath_kretps.toFinset }).2, true, log⟩
  | unloaded {log : List Message} (loaded : s.loaded = true) :
      Stepped s .unload ⟨(kvisual_exit s.registries).2, false, log⟩

theorem stepped_of_step {a : Action} (step : s.step a = some s') : s.Stepped a s' := by
  cases a with
  | load answers =>
      simp only [State.step] at step
      split at step
      · cases step
      · rename_i out
        have out : s.loaded = false := by simpa using out
        cases answer : answers.kretprobes with
        | ok =>
            obtain ⟨log, done⟩ := init_ok answer s.registries
            rw [done] at step
            cases step
            exact .loaded out
        | fail errno pos =>
            rw [init_failed answer] at step
            have negative : ¬ -(errno : Int) = 0 := by omega
            simp only [negative, decide_false, Option.some.injEq] at step
            cases step
            exact .failed out
  | unload =>
      simp only [State.step] at step
      split at step
      · cases step
        exact .unloaded ‹_›
      · cases step

theorem Kept.step {a : Action} (kept : s.Kept prior) (stepped : s.Stepped a s') :
    s'.Kept prior := by
  cases stepped with
  | failed out =>
      exact ⟨kept.kprobes, kept.kretprobes, kept.tracepoints, by simp, fun _ => kept.outside out⟩
  | @loaded answers log out =>
      obtain ⟨kprobes, kretprobes, traces⟩ := register_static_others answers { s.registries with
        kretprobes := s.registries.kretprobes ∪ iopath_kretps.toFinset }
      refine ⟨kprobes.trans kept.kprobes, fun x => ?_,
        fun x => (traces x).trans (kept.tracepoints x), fun _ probe member => ?_, by simp⟩
      · rw [kretprobes, Finset.mem_union, List.mem_toFinset, kept.kretprobes]
        simp [not_mem_iopath_kretps]
      · rw [kretprobes, Finset.mem_union, List.mem_toFinset]
        exact .inr member
  | unloaded loaded =>
      obtain ⟨kprobes, kretprobes, traces⟩ := exit_registries s.registries
      refine ⟨kprobes.trans kept.kprobes, fun x => ?_, fun x => ?_, by simp, fun _ q member => ?_⟩
      · rw [kretprobes, kept.kretprobes]
      · rw [traces, kept.tracepoints]
        simp
      · exact ((traces q).mp member).2

/-- Unloaded, the registries are as they were before the module. -/
def Balanced (prior : Registries X) (s : State X) : Prop :=
  s.loaded = false → s.registries = prior

/-- A step leaves the registries balanced exactly if it is no unload. -/
theorem Kept.step_balanced_iff (foreign : Foreign prior) {a : Action} (kept : s.Kept prior)
    (balanced : s.Balanced prior) (stepped : s.Stepped a s') :
    s'.Balanced prior ↔ a ≠ .unload := by
  cases stepped with
  | failed out => exact ⟨fun _ => by simp, fun _ _ => balanced out⟩
  | loaded out => exact ⟨fun _ => by simp, fun _ no => by cases no⟩
  | unloaded loaded =>
      refine ⟨fun same => ?_, fun no => absurd rfl no⟩
      -- the kretprobes are still there
      have member : .do_sys_openat2_kretp ∈ (kvisual_exit s.registries).2.kretprobes :=
        kept.inside loaded _ (by simp [iopath_kretps])
      have same : (kvisual_exit s.registries).2 = prior := same rfl
      rw [same] at member
      obtain ⟨x, no⟩ := foreign.1 _ member
      cases no

/-- **Load and unload are balanced exactly as long as the module is not unloaded**, for
every content of the registries before it and all the kernel's answers. -/
theorem balanced_iff (foreign : Foreign prior) {as : List Action}
    (run : (system X).run (start prior) as = some s) :
    (system X).Always (Balanced prior) (start prior) as ↔ .unload ∉ as := by
  have steps : (system X).Steps (fun _ a => a ≠ .unload) (start prior) as ↔ .unload ∉ as := by
    rw [System.steps_actions run]
    exact ⟨fun all member => all _ member rfl, fun no a member same => no (same ▸ member)⟩
  rw [← steps]
  exact System.always_iff_steps (Kept prior)
    (fun s a s' kept step => kept.step (stepped_of_step step))
    (fun s a s' kept balanced step =>
      kept.step_balanced_iff foreign balanced (stepped_of_step step))
    (start_kept foreign) (fun _ => rfl) run

/-- What the witness and the counterexample start from. -/
def nothing : Registries Unit := ⟨∅, ∅, ∅⟩

theorem nothing_foreign : Foreign nothing := by simp [Foreign, nothing]

/-- The kretprobes are refused, and then a tracepoint. -/
def refused : List Action :=
  [.load ⟨.fail 12 (by decide), .ok, .ok, .ok⟩, .load ⟨.ok, .ok, .fail 17 (by decide), .ok⟩]

theorem balanced_iff_refused :
    (system Unit).Always (Balanced nothing) (start nothing) refused ↔ .unload ∉ refused :=
  balanced_iff nothing_foreign rfl

/-- Loaded and unloaded once, the module has left its kretprobes. -/
theorem kretprobes_left :
    ¬ (system Unit).Always (Balanced nothing) (start nothing)
        [.load ⟨.ok, .ok, .ok, .ok⟩, .unload] := by
  rintro ⟨-, loaded⟩
  obtain ⟨-, unloaded⟩ := loaded _ rfl
  have same := unloaded _ rfl rfl
  have left : (.do_sys_openat2_kretp : Kretprobe Unit) ∈ nothing.kretprobes := by
    rw [← same]
    decide
  cases left

end State

end Codesnip.ExtraModule.Kvisual
