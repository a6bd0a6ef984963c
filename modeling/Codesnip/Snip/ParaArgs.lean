/-
# Snip.ParaArgs -- checking the command and calling it, `Snip::ParaArgs` of `snip.cpp`

`snip_to_func` maps the commands to function pointers; its `operator[]` puts a null pointer
in for a key that it does not have.  The command is checked before `ProcessOptArgs`
rewrites `argv` and is read again for the call, so it is the one that was checked unless an
option stands in front of it (`dispatches_iff`).
-/
import Codesnip.Snip.ProcessOptArgs

namespace Codesnip.Snip

open Codesnip.Theory.Sift
open Codesnip.Unit.Unit

set_option autoImplicit false
set_option linter.dupNamespace false

/-- The functions of `SysCall` that a command calls. -/
inductive SnipFunc where
  | LWP
  | Net
  | IPC
  | SyncMutex
  | FS
  deriving DecidableEq, Repr

/-- Null is `none`. -/
abbrev SnipFuncPtr := Option SnipFunc

abbrev Funcs := List (List Char × SnipFuncPtr)

/-- The commands that the constructor registers. -/
def snip_to_func : Funcs :=
  [("lwp".toList, some .LWP), ("net".toList, some .Net), ("ipc".toList, some .IPC),
    ("sm".toList, some .SyncMutex), ("fs".toList, some .FS)]

def count (funcs : Funcs) (name : List Char) : Nat := if (funcs.lookup name).isSome then 1 else 0

/-- `operator[]`, and the map after it. -/
def subscript (funcs : Funcs) (name : List Char) : SnipFuncPtr × Funcs :=
  match funcs.lookup name with
  | some func => (func, funcs)
  | none => (none, funcs ++ [(name, none)])

def ARG_NUM : Nat := 2

/-- What `ParaArgs` ends with: the usage text, or the call through `snip_to_func[argv[1]]`
with the map after the `operator[]`. -/
inductive Parsed where
  | ErrUse (snip : Snip)
  | calls (name : List Char) (func : SnipFuncPtr) (funcs : Funcs) (snip : Snip)
  deriving DecidableEq, Repr

def call (argv : Argv) (snip : Snip) (funcs : Funcs) : Except Thrown Parsed :=
  match argv.getD 1 none with
  | none => .error .logic_error
  | some name => .ok (.calls name (subscript funcs name).1 (subscript funcs name).2 snip)

def ParaArgs (fuel argc : Nat) (argv : Argv) (snip : Snip) (funcs : Funcs) :
    Option (Except Thrown Parsed) :=
  if argc < ARG_NUM then some (.ok (.ErrUse snip))
  else
    match argv.getD 1 none with
    | none => some (.error .logic_error)
    | some name =>
        if count funcs name = 0 then some (.ok (.ErrUse snip))
        else if argc > 2 then
          match ProcessOptArgs fuel argc argv snip with
          | none => none
          | some (.error thrown) => some (.error thrown)
          | some (.ok (argc, argv, snip)) =>
              if argc ≠ ARG_NUM then some (.ok (.ErrUse snip))
              else some (call argv snip funcs)
        else some (call argv snip funcs)

/-! ## The command that is called -/

/-- If the call is reached, `argv[1]` is the string that was checked, a command, and the
map gets no new key. -/
def Dispatches (fuel : Nat) (args : List (List Char)) (rest : Argv) (snip : Snip) : Prop :=
  ∀ name func funcs snip',
    ParaArgs fuel args.length (args.map some ++ rest) snip snip_to_func =
        some (.ok (.calls name func funcs snip')) →
      args[1]? = some name ∧ (name, func) ∈ snip_to_func ∧ funcs = snip_to_func

/-- An option stands in front of the command, and one more argument that is none and is not
the command behind it. -/
def Misled (args : List (List Char)) : Prop :=
  ∃ o command tail y, args = o :: command :: tail ∧ (∃ t v, IsOption o t v) ∧
    count snip_to_func command ≠ 0 ∧ nonOptions tail = [y] ∧ y ≠ command

theorem subscript_registered {funcs : Funcs} {name : List Char}
    (registered : count funcs name ≠ 0) :
    (name, (subscript funcs name).1) ∈ funcs ∧ (subscript funcs name).2 = funcs := by
  rw [count] at registered
  split at registered
  · obtain ⟨func, found⟩ := Option.isSome_iff_exists.mp ‹_›
    obtain ⟨before, after, split, -⟩ := List.lookup_eq_some_iff.mp found
    rw [subscript, found, split]
    exact ⟨List.mem_append_right _ (List.mem_cons_self ..), rfl⟩
  · exact absurd rfl registered

/-- No command is an option. -/
theorem not_isOption_of_registered {name : List Char} (registered : count snip_to_func name ≠ 0) :
    ¬ ∃ t v, IsOption name t v := by
  have member := (subscript_registered registered).1
  have plain : ∀ entry ∈ snip_to_func, '=' ∉ entry.1 := by decide +kernel
  rintro ⟨t, v, key, rfl, -⟩
  exact plain _ member (by simp)

section Call

variable {fuel : Nat} {a b name : List Char} {tail : List (List Char)} {rest : Argv}
  {snip : Snip}

theorem paraArgs_unregistered (unknown : count snip_to_func name = 0) :
    ParaArgs fuel (a :: name :: tail).length ((a :: name :: tail).map some ++ rest) snip
      snip_to_func = some (.ok (.ErrUse snip)) := by
  have second : ((a :: name :: tail).map some ++ rest).getD 1 none = some name := rfl
  rw [ParaArgs, if_neg (by simp [ARG_NUM]), second]
  dsimp only
  rw [if_pos unknown]

theorem paraArgs_two (registered : count snip_to_func name ≠ 0) :
    ParaArgs fuel 2 ([a, name].map some ++ rest) snip snip_to_func =
      some (.ok (.calls name (subscript snip_to_func name).1 (subscript snip_to_func name).2
        snip)) := by
  have second : ([a, name].map some ++ rest).getD 1 none = some name := rfl
  rw [ParaArgs, if_neg (by decide), second]
  dsimp only
  rw [if_neg registered, if_neg (by decide)]
  rfl

/-- With further arguments, the command is the second of those that are no options. -/
theorem paraArgs_more (rest : Argv) (snip : Snip) (registered : count snip_to_func name ≠ 0)
    (convertible : Convertible (a :: name :: b :: tail))
    (enough : (tail.length + 3) * (tail.length + 3) + (tail.length + 3) < fuel) :
    ∃ snip', ParaArgs fuel (tail.length + 3) ((a :: name :: b :: tail).map some ++ rest) snip
        snip_to_func =
      match nonOptions (a :: name :: b :: tail) with
      | [_, name] => some (.ok (.calls name (subscript snip_to_func name).1
          (subscript snip_to_func name).2 snip'))
      | _ => some (.ok (.ErrUse snip')) := by
  obtain ⟨snip', sifted⟩ := sift_ok convertible snip
  have ended : ProcessOptArgs fuel (tail.length + 3) ((a :: name :: b :: tail).map some ++ rest)
      snip = _ := processOptArgs_eq (a :: name :: b :: tail) rest snip enough
  have second : ((a :: name :: b :: tail).map some ++ rest).getD 1 none = some name := rfl
  rw [sifted] at ended
  refine ⟨snip', ?_⟩
  rw [ParaArgs, if_neg (by simp [ARG_NUM]), second]
  dsimp only
  rw [if_neg registered, if_pos (by omega)]
  rw [ended]
  match nonOptions (a :: name :: b :: tail) with
  | [] => rfl
  | [x] => rfl
  | [x, y] => rfl
  | x :: y :: z :: others => rfl

/-- The string that was checked is called. -/
theorem dispatches_of_calls {args : List (List Char)} (registered : count snip_to_func name ≠ 0)
    (second : args[1]? = some name) {snip' : Snip}
    (result : ParaArgs fuel args.length (args.map some ++ rest) snip snip_to_func =
      some (.ok (.calls name (subscript snip_to_func name).1 (subscript snip_to_func name).2
        snip'))) : Dispatches fuel args rest snip := by
  intro name' func funcs snip'' calls
  cases result.symm.trans calls
  exact ⟨second, subscript_registered registered⟩

theorem dispatches_of_errUse {args : List (List Char)} {snip' : Snip}
    (result : ParaArgs fuel args.length (args.map some ++ rest) snip snip_to_func =
      some (.ok (.ErrUse snip'))) : Dispatches fuel args rest snip := by
  intro name func funcs snip'' calls
  cases result.symm.trans calls

end Call

theorem nonOptions_option {a : List Char} (option : ∃ t v, IsOption a t v)
    (args : List (List Char)) : nonOptions (a :: args) = nonOptions args :=
  List.filter_cons_of_neg (by simpa using option)

theorem nonOptions_other {a : List Char} (other : ¬ ∃ t v, IsOption a t v)
    (args : List (List Char)) : nonOptions (a :: args) = a :: nonOptions args :=
  List.filter_cons_of_pos (by simpa using other)

section Misled

variable {args : List (List Char)} {rest : Argv} {snip : Snip} {fuel : Nat}

theorem not_dispatches (convertible : Convertible args)
    (enough : args.length * args.length + args.length < fuel) (misled : Misled args) :
    ¬ Dispatches fuel args rest snip := by
  obtain ⟨o, command, tail, y, rfl, option, registered, others, other⟩ := misled
  cases tail with
  | nil => cases others
  | cons b tail =>
      obtain ⟨snip', result⟩ := paraArgs_more rest snip registered convertible enough
      rw [nonOptions_option option, nonOptions_other (not_isOption_of_registered registered),
        others] at result
      intro dispatches
      obtain ⟨second, -⟩ := dispatches _ _ _ _ result
      exact other (Option.some.inj second).symm

theorem dispatches_of_not_misled (convertible : Convertible args)
    (enough : args.length * args.length + args.length < fuel) (led : ¬ Misled args) :
    Dispatches fuel args rest snip := by
  match args with
  | [] => exact dispatches_of_errUse rfl
  | [a] => exact dispatches_of_errUse rfl
  | a :: name :: tail =>
      by_cases registered : count snip_to_func name = 0
      · refine dispatches_of_errUse (paraArgs_unregistered registered)
      · match tail with
        | [] => exact dispatches_of_calls registered rfl (paraArgs_two registered)
        | b :: tail =>
            obtain ⟨snip', result⟩ := paraArgs_more rest snip registered convertible enough
            have plain := not_isOption_of_registered registered
            by_cases option : ∃ t v, IsOption a t v
            · rw [nonOptions_option option, nonOptions_other plain] at result
              match others : nonOptions (b :: tail) with
              | [] =>
                  rw [others] at result
                  exact dispatches_of_errUse result
              | [y] =>
                  rw [others] at result
                  have same : y = name := by
                    by_contra other
                    exact led ⟨a, name, b :: tail, y, rfl, option, registered, others, other⟩
                  rw [same] at result
                  exact dispatches_of_calls registered rfl result
              | y :: z :: more =>
                  rw [others] at result
                  exact dispatches_of_errUse result
            · rw [nonOptions_other option, nonOptions_other plain] at result
              match others : nonOptions (b :: tail) with
              | [] =>
                  rw [others] at result
                  exact dispatches_of_calls registered rfl result
              | y :: more =>
                  rw [others] at result
                  exact dispatches_of_errUse result

end Misled

/-- **The command that was checked is the one that is called, unless an option stands in
front of it.** -/
theorem dispatches_iff (args : List (List Char)) (rest : Argv) (snip : Snip) (fuel : Nat)
    (convertible : Convertible args) (enough : args.length * args.length + args.length < fuel) :
    Dispatches fuel args rest snip ↔ ¬ Misled args :=
  ⟨fun dispatches misled => not_dispatches convertible enough misled dispatches,
    dispatches_of_not_misled convertible enough⟩

theorem dispatches_iff_net :
    Dispatches 13 ["snip".toList, "net".toList, "servert=2".toList] [none] ⟨0, 1, 2, 0⟩ := by
  refine (dispatches_iff _ [none] ⟨0, 1, 2, 0⟩ 13 (by decide +kernel) (by decide)).mpr ?_
  rintro ⟨o, command, tail, y, split, option, -⟩
  cases split
  exact absurd option (by decide +kernel)

/-- `foo` is looked up in the place of `lwp`. -/
theorem not_dispatches_foo :
    ¬ Dispatches 13 ["servert=1".toList, "lwp".toList, "foo".toList] [none] ⟨0, 1, 2, 0⟩ := by
  refine not_dispatches (by decide +kernel) (by decide) ?_
  exact ⟨_, "lwp".toList, ["foo".toList], "foo".toList, rfl, by decide +kernel⟩

end Codesnip.Snip
