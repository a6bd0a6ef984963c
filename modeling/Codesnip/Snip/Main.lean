/-
# Snip.Main -- what a command line runs (`codesnip.cpp`, the `switch`es of `SysCall`)

`main` hands its arguments to `ParaArgs` with the settings of the constructor.  The function
that is called reads the setting it goes by: `RunNetwork`, `IPC` and `RunFs` have a case for
every value of their enumeration and print an error for the others.

`main_meant` reads the outcome off the command line, without arrays and without starting over:
an option may stand anywhere behind the command, of several of one kind the last one holds,
and the first value that `std::stoi` does not convert ends the program.
-/
import Codesnip.Snip.ParaArgs

namespace Codesnip.Snip

open Codesnip.Theory.Sift
open Codesnip.Unit.Unit

set_option autoImplicit false
set_option linter.dupNamespace false

inductive ServerT where
  | MULTI_P
  | SINGLE_P_MULTI_T
  | SELECT
  | POLL
  | EPOLL
  deriving DecidableEq, Repr

inductive IpcT where
  | PIPE
  | NAMED_PIPE
  | SIGNAL
  | MSG_QUEUE
  | SEMAPHORE
  | SHARED_MEMORY
  | SOCKETS
  deriving DecidableEq, Repr

inductive FsapiT where
  | INOTIFY
  deriving DecidableEq, Repr

/-- The enumerators in the order of their values. -/
def server_t : List ServerT := [.MULTI_P, .SINGLE_P_MULTI_T, .SELECT, .POLL, .EPOLL]

def ipc_t : List IpcT :=
  [.PIPE, .NAMED_PIPE, .SIGNAL, .MSG_QUEUE, .SEMAPHORE, .SHARED_MEMORY, .SOCKETS]

def fsapi_t : List FsapiT := [.INOTIFY]

/-- What a function of `SysCall` comes to. -/
inductive Work where
  | ForkProAndCreateT
  | CompareSpinAndMutex
  | MultiProcessServer
  | ThreadPools
  | SelectServer
  | PollServer
  | EPollServer
  | LookPipe
  | LookNamedPipe
  | LookSignal
  | LookMsgQueue
  | LookSemaphore
  | LookSharedMemory
  | LookSockets
  | Inotify
  | error (text : String)
  deriving DecidableEq, Repr

/-- In the parent; the child runs `Client` in any case. -/
def RunNetwork (snip : Snip) : Work :=
  match server_t[snip.server_type.toNat]? with
  | some .MULTI_P => .MultiProcessServer
  | some .SINGLE_P_MULTI_T => .ThreadPools
  | some .SELECT => .SelectServer
  | some .POLL => .PollServer
  | some .EPOLL => .EPollServer
  | none => .error "net type error"

def IPC (snip : Snip) : Work :=
  match ipc_t[snip.ipc_type.toNat]? with
  | some .PIPE => .LookPipe
  | some .NAMED_PIPE => .LookNamedPipe
  | some .SIGNAL => .LookSignal
  | some .MSG_QUEUE => .LookMsgQueue
  | some .SEMAPHORE => .LookSemaphore
  | some .SHARED_MEMORY => .LookSharedMemory
  | some .SOCKETS => .LookSockets
  | none => .error "ipc type error"

def RunFs (snip : Snip) : Work :=
  match fsapi_t[snip.fsapi_type.toNat]? with
  | some .INOTIFY => .Inotify
  | none => .error "net type error"

def SysCall (snip : Snip) : SnipFunc → Work
  | .LWP => .ForkProAndCreateT
  | .Net => RunNetwork snip
  | .IPC => IPC snip
  | .SyncMutex => .CompareSpinAndMutex
  | .FS => RunFs snip

/-- How `main` ends, if no exception does; `null` is a call through a null pointer. -/
inductive Ended where
  | ErrUse
  | null
  | runs (work : Work)
  deriving DecidableEq, Repr

def Parsed.ended : Parsed → Ended
  | .ErrUse _ => .ErrUse
  | .calls _ none _ _ => .null
  | .calls _ (some func) _ snip => .runs (SysCall snip func)

/-- The settings of the constructor. -/
def GetInstance : Snip := ⟨0, 1, 2, 0⟩

def main (fuel : Nat) (args : List (List Char)) : Option (Except Thrown Ended) :=
  (ParaArgs fuel args.length (args.map some ++ [none]) GetInstance snip_to_func).map fun parsed =>
    parsed.map Parsed.ended

/-! ## What the command line says -/

/-- The exception of a value that is no `int`. -/
def fails (option : InputT × List Char) : Option Thrown :=
  match stoi option.2 with
  | .ok _ => none
  | .error thrown => some thrown

/-- The last option of the kind, or the default. -/
def chosen (t : InputT) (args : List (List Char)) : UInt8 :=
  ((args.filterMap optionOf).filterMap (sets t)).getLast?.getD (GetInstance.get t)

def settings (args : List (List Char)) : Snip :=
  ⟨chosen .SERVSE_T args, chosen .BLOCK_IO_T args, chosen .IPC_T args, chosen .FS_T args⟩

/-- What the strings behind the program's name are to do: a command and its arguments. -/
def meant : List (List Char) → Except Thrown Ended
  | [] => .ok .ErrUse
  | command :: args =>
      match (snip_to_func.lookup command).join with
      | none => .ok .ErrUse
      | some func =>
          match args.findSome? fun a => (optionOf a).bind fails with
          | some thrown => .error thrown
          | none =>
              .ok (if nonOptions args = [] then .runs (SysCall (settings args) func) else .ErrUse)

/-! ## What `main` does -/

/-- The assignment of an option whose value is converted. -/
def put (snip : Snip) (option : InputT × List Char) : Snip :=
  match stoi option.2 with
  | .ok v => snip.set v option.1
  | .error _ => snip

theorem store_of_fails {option : InputT × List Char} {thrown : Thrown}
    (failed : fails option = some thrown) (snip : Snip) : store option snip = .error thrown := by
  unfold fails at failed
  split at failed
  · cases failed
  · rename_i converted
    cases failed
    rw [store, converted]
    rfl

theorem store_of_converts {option : InputT × List Char} (converts : fails option = none)
    (snip : Snip) : store option snip = .ok (put snip option) := by
  unfold fails at converts
  split at converts
  · rename_i converted
    rw [store, put, converted]
    rfl
  · cases converts

theorem get_put (t : InputT) (snip : Snip) (option : InputT × List Char) :
    (put snip option).get t = (sets t option).getD (snip.get t) := by
  unfold put sets
  cases stoi option.2 with
  | error thrown =>
      show snip.get t = _
      split <;> rfl
  | ok v =>
      show (snip.set v option.1).get t = _
      rw [Snip.get_set]
      by_cases same : t = option.1
      · simp [same, Except.toOption]
      · simp [same, Ne.symm same]

theorem foldl_put (args : List (List Char)) :
    (args.filterMap optionOf).foldl put GetInstance = settings args := by
  have get : ∀ t, ((args.filterMap optionOf).foldl put GetInstance).get t = chosen t args :=
    fun t => get_foldl put (fun snip => snip.get t) (sets t) (get_put t) _ GetInstance
  rw [settings, ← get, ← get, ← get, ← get]
  rfl

/-- The loop goes by the first failure and the last options. -/
theorem sift_options (args : List (List Char)) :
    sift optionOf store args GetInstance =
      match args.findSome? fun a => (optionOf a).bind fails with
      | some thrown => .error thrown
      | none => .ok (nonOptions args, settings args) := by
  have folds : sift optionOf store args GetInstance = _ :=
    sift_fold fails put (fun _ _ failed => store_of_fails failed)
      (fun _ converts => store_of_converts converts) args GetInstance
  rw [nonOptions_eq, foldl_put] at folds
  refine folds.trans ?_
  cases args.findSome? fun a => (optionOf a).bind fails <;> rfl

section Main

variable {fuel : Nat} {a command : List Char} {tail : List (List Char)} {rest : Argv}

theorem lookup_registered (registered : count snip_to_func command ≠ 0) :
    ∃ func, (subscript snip_to_func command).1 = some func ∧
      (snip_to_func.lookup command).join = some func := by
  have functions : ∀ entry ∈ snip_to_func, entry.2.isSome = true := by decide
  rw [count] at registered
  split at registered
  · obtain ⟨pointer, found⟩ := Option.isSome_iff_exists.mp ‹_›
    obtain ⟨before, after, split, -⟩ := List.lookup_eq_some_iff.mp found
    have member : (command, pointer) ∈ snip_to_func := by
      rw [split]
      exact List.mem_append_right _ (List.mem_cons_self ..)
    obtain ⟨func, rfl⟩ := Option.isSome_iff_exists.mp (functions _ member)
    rw [subscript, found]
    exact ⟨func, rfl, rfl⟩
  · exact absurd rfl registered

theorem lookup_unregistered (unknown : count snip_to_func command = 0) :
    snip_to_func.lookup command = none := by
  rw [count] at unknown
  split at unknown
  · cases unknown
  · exact Option.not_isSome_iff_eq_none.mp ‹_›

/-- With further arguments, `ParaArgs` goes by what the loop has sifted. -/
theorem paraArgs_sifted (registered : count snip_to_func command ≠ 0) {b : List Char}
    (enough : (tail.length + 3) * (tail.length + 3) + (tail.length + 3) < fuel) :
    ParaArgs fuel (tail.length + 3) ((a :: command :: b :: tail).map some ++ rest) GetInstance
        snip_to_func =
      some (match sift optionOf store (a :: command :: b :: tail) GetInstance with
      | .error thrown => .error thrown
      | .ok ([_, name], snip) => .ok (.calls name (subscript snip_to_func name).1
          (subscript snip_to_func name).2 snip)
      | .ok (_, snip) => .ok (.ErrUse snip)) := by
  have ended : ProcessOptArgs fuel (tail.length + 3) ((a :: command :: b :: tail).map some ++ rest)
      GetInstance = _ := processOptArgs_eq (a :: command :: b :: tail) rest GetInstance enough
  have second : ((a :: command :: b :: tail).map some ++ rest).getD 1 none = some command := rfl
  rw [ParaArgs, if_neg (by simp [ARG_NUM]), second]
  dsimp only
  rw [if_neg registered, if_pos (by omega), ended]
  rcases sift optionOf store (a :: command :: b :: tail) GetInstance with
    thrown | ⟨_ | ⟨x, _ | ⟨y, _ | ⟨z, others⟩⟩⟩, snip⟩
  all_goals rfl

/-- A known command that stands alone is called. -/
theorem main_alone (registered : count snip_to_func command ≠ 0) :
    main fuel [a, command] = some (meant [command]) := by
  obtain ⟨func, called, found⟩ := lookup_registered registered
  rw [meant, found, main]
  show (ParaArgs fuel 2 ([a, command].map some ++ [none]) GetInstance snip_to_func).map _ = _
  rw [paraArgs_two registered, called]
  rfl

/-- Behind a known command the arguments decide. -/
theorem main_sifted (own : ¬ ∃ t v, IsOption a t v)
    (registered : count snip_to_func command ≠ 0) {b : List Char}
    (enough : (tail.length + 3) * (tail.length + 3) + (tail.length + 3) < fuel) :
    main fuel (a :: command :: b :: tail) = some (meant (command :: b :: tail)) := by
  obtain ⟨func, called, found⟩ := lookup_registered registered
  have plain := not_isOption_of_registered registered
  rw [meant, found, main]
  dsimp only
  show (ParaArgs fuel (tail.length + 3) _ GetInstance snip_to_func).map _ = _
  rw [paraArgs_sifted registered enough, sift_options]
  have first : optionOf a = none := optionOf_eq_none_iff.mpr own
  have second : optionOf command = none := optionOf_eq_none_iff.mpr plain
  have failing : ((a :: command :: b :: tail).findSome? fun a => (optionOf a).bind fails) =
      (b :: tail).findSome? fun a => (optionOf a).bind fails := by
    rw [List.findSome?_cons, List.findSome?_cons, first, second]
    rfl
  have set : settings (a :: command :: b :: tail) = settings (b :: tail) := by
    simp only [settings, chosen, List.filterMap_cons_none first, List.filterMap_cons_none second]
  rw [failing, set, nonOptions_other own, nonOptions_other plain]
  cases (b :: tail).findSome? fun a => (optionOf a).bind fails with
  | some thrown => rfl
  | none =>
      cases nonOptions (b :: tail) with
      | nil =>
          show some (Except.ok (Parsed.ended (.calls _ _ _ _))) = _
          rw [called]
          rfl
      | cons x others => rfl

/-- **What a command line runs**: the function of its command with the last option of each
kind, if there is a command and it is known, no value fails to convert and nothing but
options follows. -/
theorem main_meant (args : List (List Char)) (own : ¬ ∃ t v, IsOption a t v)
    (enough : (args.length + 1) * (args.length + 1) + (args.length + 1) < fuel) :
    main fuel (a :: args) = some (meant args) := by
  cases args with
  | nil => rfl
  | cons command tail =>
      by_cases registered : count snip_to_func command = 0
      · rw [meant, lookup_unregistered registered, main, paraArgs_unregistered registered]
        rfl
      · cases tail with
        | nil => exact main_alone registered
        | cons b tail => exact main_sifted own registered enough

end Main

/-- The second `servert=` holds, and a byte of it. -/
theorem main_meant_last : main 31 ["snip".toList, "net".toList, "servert=2".toList,
    "ipct=1".toList, "servert=260".toList] = some (.ok (.runs .EPollServer)) := by
  have own : ¬ ∃ t v, IsOption "snip".toList t v := by decide +kernel
  have found : (snip_to_func.lookup "net".toList).join = some .Net := by decide +kernel
  have converted : (["servert=2".toList, "ipct=1".toList, "servert=260".toList].findSome?
    fun a => (optionOf a).bind fails) = none := by decide +kernel
  have others : nonOptions ["servert=2".toList, "ipct=1".toList, "servert=260".toList] = [] := by
    decide +kernel
  have last : settings ["servert=2".toList, "ipct=1".toList, "servert=260".toList] =
    ⟨4, 1, 1, 0⟩ := by decide +kernel
  rw [main_meant _ own (by decide), meant, found]
  dsimp only
  rw [converted, others, last]
  rfl

end Codesnip.Snip
