/-
# Snip.ProcessOptArgs -- the options of the command line, `ProcessOptArgs` of `snip.cpp`

`argv` is an array of pointers to strings, the null pointer being `none`.  The loop goes
through it from the front; at an option it stores the value, closes the gap with
`AdjustArgs` and starts over.  It takes fuel, `none` being a loop that has not ended yet.

Whatever the options are, the loop sifts them out of the arguments (`loop_eq`): those
that are none stay in front in their order, null pointers follow, and the values are
stored from the left, the last of a kind remaining.
-/
import Codesnip.Theory.Sift
import Codesnip.Unit.Unit

namespace Codesnip.Snip

open Codesnip.Theory.Sift
open Codesnip.Unit.Unit

set_option autoImplicit false
set_option linter.dupNamespace false

inductive InputT where
  | SERVSE_T
  | BLOCK_IO_T
  | IPC_T
  | FS_T
  deriving DecidableEq, Repr

/-- The settings of the `Snip` singleton. -/
structure Snip where
  server_type : UInt8
  blockio_type : UInt8
  ipc_type : UInt8
  fsapi_type : UInt8
  deriving DecidableEq, Repr

def para_num : List (List Char × InputT) :=
  [("servert=".toList, .SERVSE_T), ("blockiot=".toList, .BLOCK_IO_T), ("ipct=".toList, .IPC_T),
    ("fsapit=".toList, .FS_T)]

abbrev Argv := List (Option (List Char))

/-! ## AdjustArgs -/

/-- `for (; j < argc; j++, i++) argv[i] = argv[j]`, with `count` turns to go. -/
def shift : (count i j : Nat) → Argv → Nat × Argv
  | 0, i, _, argv => (i, argv)
  | count + 1, i, j, argv => shift count (i + 1) (j + 1) (argv.set i (argv.getD j none))

/-- `argc` and `argv` after it. -/
def AdjustArgs (i : Int) (argv : Argv) (argc del : Nat) : Nat × Argv :=
  if 0 ≤ i then
    let j := i.toNat + del
    let (i, argv) := shift (argc - j) i.toNat j argv
    (argc - del, argv.set i none)
  else (argc, argv)

/-! ## ProcessOptArgs -/

/-- What an argument sets, and to what; `none` where the loop goes on. -/
def optionOf (para : List Char) : Option (InputT × List Char) :=
  match para.idxOf? '=' with
  | none => none
  | some p =>
      if p ≥ para.length - 1 then none
      else
        match para_num.lookup (para.take (p + 1)) with
        | none => none
        | some t =>
            let len := para.drop (p + 1)
            if StringIsDigit len then some (t, len) else none

/-- The `switch`: the assignment keeps the low byte. -/
def Snip.set (snip : Snip) (v : Int) : InputT → Snip
  | .SERVSE_T => { snip with server_type := UInt8.ofInt v }
  | .BLOCK_IO_T => { snip with blockio_type := UInt8.ofInt v }
  | .IPC_T => { snip with ipc_type := UInt8.ofInt v }
  | .FS_T => { snip with fsapi_type := UInt8.ofInt v }

def Snip.get (snip : Snip) : InputT → UInt8
  | .SERVSE_T => snip.server_type
  | .BLOCK_IO_T => snip.blockio_type
  | .IPC_T => snip.ipc_type
  | .FS_T => snip.fsapi_type

@[simp] theorem Snip.get_set (snip : Snip) (v : Int) (t t' : InputT) :
    (snip.set v t).get t' = if t' = t then UInt8.ofInt v else snip.get t' := by
  cases t <;> cases t' <;> rfl

def store (option : InputT × List Char) (snip : Snip) : Except Thrown Snip :=
  (stoi option.2).map fun v => snip.set v option.1

/-- What `ProcessOptArgs` returns, `argv` and the settings, unless an exception escapes. -/
abbrev Processed := Except Thrown (Nat × Argv × Snip)

def loop : (fuel i argc : Nat) → Argv → Snip → Option Processed
  | 0, _, _, _, _ => none
  | fuel + 1, i, argc, argv, snip =>
      if i < argc then
        match argv.getD i none with
        | none => some (.error .logic_error)
        | some para =>
            match optionOf para with
            | none => loop fuel (i + 1) argc argv snip
            | some option =>
                match store option snip with
                | .error thrown => some (.error thrown)
                | .ok snip =>
                    let (argc, argv) := AdjustArgs i argv argc 1
                    loop fuel 0 argc argv snip
      else some (.ok (argc, argv, snip))

def ProcessOptArgs (fuel argc : Nat) (argv : Argv) (snip : Snip) : Option Processed :=
  loop fuel 0 argc argv snip

/-! ## The loop sifts -/

theorem shift_eq (pre post rest : Argv) (x : Option (List Char)) :
    ∃ y, shift post.length pre.length (pre.length + 1) (pre ++ x :: (post ++ rest)) =
      (pre.length + post.length, pre ++ post ++ y :: rest) := by
  induction post generalizing pre x with
  | nil => exact ⟨x, by simp [shift]⟩
  | cons p post ih =>
      obtain ⟨y, shifted⟩ := ih (pre ++ [p]) p
      refine ⟨y, ?_⟩
      have moved : (pre ++ x :: (p :: post ++ rest)).set pre.length p =
          (pre ++ [p]) ++ p :: (post ++ rest) := by simp
      have here : (pre ++ x :: (p :: post ++ rest)).getD (pre.length + 1) none = p := by simp
      rw [List.length_append, List.length_singleton] at shifted
      rw [List.length_cons, shift, here, moved, shifted]
      simp only [List.append_assoc, List.singleton_append, Prod.mk.injEq, and_true]
      omega

/-- The gap is closed, and what was the last place holds no argument. -/
theorem adjustArgs_eq (pre post rest : Argv) (x : Option (List Char)) :
    AdjustArgs pre.length (pre ++ x :: (post ++ rest)) (pre.length + (post.length + 1)) 1 =
      (pre.length + post.length, pre ++ post ++ none :: rest) := by
  obtain ⟨y, shifted⟩ := shift_eq pre post rest x
  have count : pre.length + (post.length + 1) - (pre.length + 1) = post.length := by omega
  have last : (pre ++ post ++ y :: rest).set (pre.length + post.length) none =
      pre ++ post ++ none :: rest := by
    rw [← List.length_append]
    simp
  simp only [AdjustArgs, Int.natCast_nonneg, if_true, Int.toNat_natCast, count, shifted, last]
  rfl

/-- `argv` after `ProcessOptArgs` has kept these arguments of `argc`. -/
def array (argc : Nat) (kept : List (List Char)) (rest : Argv) : Argv :=
  kept.map some ++ List.replicate (argc - kept.length) none ++ rest

def processed (argc : Nat) (rest : Argv) (sifted : Except Thrown (List (List Char) × Snip)) :
    Processed :=
  sifted.map fun (kept, snip) => (kept.length, array argc kept rest, snip)

/-- A place given up inside the old `argc` stays a null pointer. -/
theorem array_none {argc : Nat} {kept : List (List Char)} (le : kept.length ≤ argc) (rest : Argv) :
    array argc kept (none :: rest) = array (argc + 1) kept rest := by
  rw [array, array, Nat.succ_sub le, List.replicate_succ']
  simp only [List.append_assoc, List.singleton_append]

theorem processed_none {argc : Nat} {args : List (List Char)} {snip : Snip} (rest : Argv)
    (le : args.length ≤ argc) :
    processed argc (none :: rest) (sift optionOf store args snip) =
      processed (argc + 1) rest (sift optionOf store args snip) := by
  cases sifted : sift optionOf store args snip with
  | error thrown => rfl
  | ok result =>
      obtain ⟨kept, snip⟩ := result
      have few : kept.length ≤ args.length := by
        rw [kept_eq sifted]
        exact List.length_filter_le _ args
      simp only [processed, Except.map, array_none (few.trans le)]

section Loop

variable {fuel i argc : Nat} {argv : Argv} {para : List Char}

theorem loop_pass {snip : Snip} (lt : i < argc) (here : argv.getD i none = some para)
    (found : optionOf para = none) :
    loop (fuel + 1) i argc argv snip = loop fuel (i + 1) argc argv snip := by
  rw [loop, if_pos lt, here]
  dsimp only
  rw [found]

theorem loop_take {snip : Snip} {option : InputT × List Char} (lt : i < argc)
    (here : argv.getD i none = some para) (found : optionOf para = some option) :
    loop (fuel + 1) i argc argv snip =
      match store option snip with
      | .error thrown => some (.error thrown)
      | .ok snip => loop fuel 0 (AdjustArgs i argv argc 1).1 (AdjustArgs i argv argc 1).2 snip := by
  rw [loop, if_pos lt, here]
  dsimp only
  rw [found]

/-- **The loop sifts out the options.** -/
theorem loop_eq (pre post : List (List Char)) (rest : Argv) (snip : Snip)
    (passed : ∀ a ∈ pre, optionOf a = none)
    (enough : (pre ++ post).length * (pre ++ post).length + post.length < fuel) :
    loop fuel pre.length (pre ++ post).length ((pre ++ post).map some ++ rest) snip =
      some (processed (pre ++ post).length rest (sift optionOf store (pre ++ post) snip)) := by
  induction fuel generalizing pre post snip rest with
  | zero => exact absurd enough (Nat.not_lt_zero _)
  | succ fuel ih =>
      cases post with
      | nil =>
          rw [List.append_nil, loop, if_neg (Nat.lt_irrefl _), sift_of_none passed]
          simp [processed, Except.map, array]
      | cons para post =>
          have inside : pre.length < (pre ++ para :: post).length := by simp
          have here : ((pre ++ para :: post).map some ++ rest).getD pre.length none =
              some para := by simp
          cases found : optionOf para with
          | none =>
              have further := ih (pre ++ [para]) post rest snip
              have next : (pre ++ [para]).length = pre.length + 1 := by simp
              rw [List.append_assoc, List.singleton_append, next] at further
              rw [List.length_cons] at enough
              rw [loop_pass inside here found]
              refine further (List.forall_mem_append.mpr ⟨passed, ?_⟩) (by omega)
              exact List.forall_mem_singleton.mpr found
          | some option =>
              rw [loop_take inside here found, sift_first passed found]
              cases stored : store option snip with
              | error thrown => rfl
              | ok snip =>
                  have gap := adjustArgs_eq (pre.map some) (post.map some) rest (some para)
                  simp only [List.length_map, ← List.map_append] at gap
                  have count : (pre ++ para :: post).length = (pre ++ post).length + 1 := by
                    simp only [List.length_append, List.length_cons]
                    omega
                  have array_eq : (pre ++ para :: post).map some ++ rest =
                      pre.map some ++ some para :: (post.map some ++ rest) := by simp
                  have less : (pre ++ post).length * (pre ++ post).length + (pre ++ post).length <
                      fuel := by
                    rw [count] at enough
                    rw [List.length_cons] at enough
                    linarith
                  have again := ih [] (pre ++ post) (none :: rest) snip (by simp) less
                  simp only [List.nil_append, List.length_nil] at again
                  rw [processed_none rest (Nat.le_refl _)] at again
                  have closed : AdjustArgs pre.length ((pre ++ para :: post).map some ++ rest)
                      (pre ++ para :: post).length 1 =
                        ((pre ++ post).length, (pre ++ post).map some ++ none :: rest) := by
                    rw [array_eq, List.length_append, List.length_cons, List.length_append]
                    exact gap
                  rw [closed]
                  dsimp only
                  rw [again, ← count]
                  rfl

/-- `ProcessOptArgs` comes to its end. -/
theorem processOptArgs_eq (args : List (List Char)) (rest : Argv) (snip : Snip)
    (enough : args.length * args.length + args.length < fuel) :
    ProcessOptArgs fuel args.length (args.map some ++ rest) snip =
      some (processed args.length rest (sift optionOf store args snip)) :=
  loop_eq [] args rest snip (by simp) enough

end Loop

/-! ## Options -/

/-- The text up to the first `=` is a key, and the rest passes `StringIsDigit`. -/
def IsOption (para : List Char) (t : InputT) (v : List Char) : Prop :=
  ∃ name, para = name ++ '=' :: v ∧ '=' ∉ name ∧ (name ++ ['='], t) ∈ para_num ∧ v ≠ [] ∧
    StringIsDigit v = true

theorem lookup_para_num {key : List Char} {t : InputT} :
    para_num.lookup key = some t ↔ (key, t) ∈ para_num := by
  constructor
  · intro found
    obtain ⟨before, after, split, -⟩ := List.lookup_eq_some_iff.mp found
    rw [split]
    exact List.mem_append_right _ (List.mem_cons_self ..)
  · intro member
    simp only [para_num, List.mem_cons, Prod.mk.injEq, List.not_mem_nil, or_false] at member
    rcases member with ⟨rfl, rfl⟩ | ⟨rfl, rfl⟩ | ⟨rfl, rfl⟩ | ⟨rfl, rfl⟩ <;> rfl

theorem optionOf_split {name v : List Char} (first : '=' ∉ name) :
    optionOf (name ++ '=' :: v) =
      if v = [] then none
      else (para_num.lookup (name ++ ['='])).bind fun t =>
        if StringIsDigit v then some (t, v) else none := by
  have place : (name ++ '=' :: v).idxOf? '=' = some name.length := by
    refine List.idxOf?_eq_some_iff.mpr ⟨by simp, by simp, fun j lt same => first ?_⟩
    rw [List.getElem_append_left lt] at same
    exact same ▸ List.getElem_mem lt
  have key : (name ++ '=' :: v).take (name.length + 1) = name ++ ['='] := by
    simp [List.take_append]
  have value : (name ++ '=' :: v).drop (name.length + 1) = v := by simp
  have last : name.length ≥ (name ++ '=' :: v).length - 1 ↔ v = [] := by
    rw [List.length_append, List.length_cons, ← List.length_eq_zero_iff]
    omega
  rw [optionOf, place]
  dsimp only
  rw [key, value]
  simp only [last]
  congr 1
  cases para_num.lookup (name ++ ['=']) <;> rfl

theorem optionOf_eq_some_iff {para v : List Char} {t : InputT} :
    optionOf para = some (t, v) ↔ IsOption para t v := by
  constructor
  · intro found
    by_cases member : '=' ∈ para
    · obtain ⟨name, v', rfl, first⟩ := List.eq_append_cons_of_mem member
      rw [optionOf_split first] at found
      split at found
      · cases found
      · obtain ⟨t', key, chosen⟩ := Option.bind_eq_some_iff.mp found
        split at chosen
        · cases chosen
          exact ⟨name, rfl, first, lookup_para_num.mp key, ‹_›, ‹_›⟩
        · cases chosen
    · rw [optionOf, List.idxOf?_eq_none_iff.mpr member] at found
      cases found
  · rintro ⟨name, rfl, first, key, some, accepted⟩
    rw [optionOf_split first, if_neg some, lookup_para_num.mpr key, Option.bind_some,
      if_pos accepted]

theorem isSome_optionOf_iff {para : List Char} :
    (optionOf para).isSome = true ↔ ∃ t v, IsOption para t v := by
  simp only [Option.isSome_iff_exists, Prod.exists, optionOf_eq_some_iff]

theorem optionOf_eq_none_iff {para : List Char} :
    optionOf para = none ↔ ¬ ∃ t v, IsOption para t v := by
  rw [← isSome_optionOf_iff, Option.not_isSome_iff_eq_none]

instance (para : List Char) : Decidable (∃ t v, IsOption para t v) :=
  decidable_of_iff _ isSome_optionOf_iff

def nonOptions (args : List (List Char)) : List (List Char) :=
  args.filter fun a => ¬ ∃ t v, IsOption a t v

/-- `std::stoi` converts every option's value. -/
def Convertible (args : List (List Char)) : Prop :=
  ∀ a ∈ args, ∀ t v, IsOption a t v → ∃ k, stoi v = .ok k

theorem convertible_iff {args : List (List Char)} :
    (∀ a ∈ args, ∀ option ∈ optionOf a, (stoi option.2).isOk = true) ↔ Convertible args := by
  have ok_iff : ∀ v, (stoi v).isOk = true ↔ ∃ k, stoi v = .ok k := by
    intro v
    cases stoi v <;> simp [Except.isOk, Except.toBool]
  simp only [Convertible, Option.mem_def, Prod.forall, optionOf_eq_some_iff, ok_iff]

instance (args : List (List Char)) : Decidable (Convertible args) :=
  decidable_of_iff _ convertible_iff

theorem store_ok {args : List (List Char)} (convertible : Convertible args) :
    ∀ a ∈ args, ∀ option, optionOf a = some option →
      ∀ snip, ∃ snip', store option snip = .ok snip' := by
  rintro a member ⟨t, v⟩ found snip
  obtain ⟨k, converted⟩ := convertible a member t v (optionOf_eq_some_iff.mp found)
  exact ⟨snip.set k t, by rw [store, converted]; rfl⟩

theorem nonOptions_eq (args : List (List Char)) :
    (args.filter fun a => (optionOf a).isNone) = nonOptions args := by
  refine List.filter_congr fun a _ => Bool.eq_iff_iff.mpr ?_
  rw [Option.isNone_iff_eq_none, decide_eq_true_iff, optionOf_eq_none_iff]

theorem sift_ok {args : List (List Char)} (convertible : Convertible args) (snip : Snip) :
    ∃ snip', sift optionOf store args snip = .ok (nonOptions args, snip') := by
  obtain ⟨⟨kept, snip'⟩, sifted⟩ := exists_ok (store_ok convertible) snip
  have others := (kept_eq sifted).trans (nonOptions_eq args)
  subst others
  exact ⟨snip', sifted⟩

/-- What an option sets the setting of a kind to. -/
def sets (t : InputT) (option : InputT × List Char) : Option UInt8 :=
  if option.1 = t then (stoi option.2).toOption.map UInt8.ofInt else none

theorem store_get (t : InputT) (option : InputT × List Char) (snip snip' : Snip)
    (stored : store option snip = .ok snip') :
    snip'.get t = (sets t option).getD (snip.get t) := by
  unfold sets
  cases converted : stoi option.2 with
  | error thrown =>
      rw [store, converted] at stored
      cases stored
  | ok k =>
      rw [store, converted] at stored
      cases stored
      rw [Snip.get_set]
      by_cases same : t = option.1
      · simp [same, Except.toOption]
      · simp [same, Ne.symm same]

theorem sets_eq_some_iff {a : List Char} {t : InputT} {c : UInt8} :
    (optionOf a).bind (sets t) = some c ↔
      ∃ v k, IsOption a t v ∧ stoi v = .ok k ∧ c = UInt8.ofInt k := by
  simp only [Option.bind_eq_some_iff, Prod.exists, optionOf_eq_some_iff]
  constructor
  · rintro ⟨t', v, option, set⟩
    unfold sets at set
    split at set
    · rename_i same
      cases same
      cases converted : stoi v with
      | error thrown =>
          rw [converted] at set
          cases set
      | ok k =>
          rw [converted] at set
          cases set
          exact ⟨v, k, option, converted, rfl⟩
    · cases set
  · rintro ⟨v, k, option, converted, rfl⟩
    exact ⟨t, v, option, by rw [sets, if_pos rfl, converted]; rfl⟩

theorem sets_eq_none_iff {args : List (List Char)} {a : List Char} {t : InputT}
    (convertible : Convertible args) (member : a ∈ args) :
    (optionOf a).bind (sets t) = none ↔ ∀ v, ¬ IsOption a t v := by
  rw [Option.eq_none_iff_forall_not_mem]
  constructor
  · intro none v option
    obtain ⟨k, converted⟩ := convertible a member t v option
    exact none _ (sets_eq_some_iff.mpr ⟨v, k, option, converted, rfl⟩)
  · intro none c set
    obtain ⟨v, -, option, -⟩ := sets_eq_some_iff.mp set
    exact none v option

/-- **`ProcessOptArgs` keeps the other arguments in their order and stores the last option
of each kind.** -/
theorem processOptArgs_filters (args : List (List Char)) (rest : Argv) (snip : Snip) (fuel : Nat)
    (convertible : Convertible args) (enough : args.length * args.length + args.length < fuel) :
    ∃ snip', ProcessOptArgs fuel args.length (args.map some ++ rest) snip =
        some (.ok ((nonOptions args).length, (nonOptions args).map some ++
          List.replicate (args.length - (nonOptions args).length) none ++ rest, snip')) ∧
      ∀ t, (∀ a ∈ args, ∀ v, ¬ IsOption a t v) ∧ snip'.get t = snip.get t ∨
        ∃ before a after v k, args = before ++ a :: after ∧ IsOption a t v ∧
          (∀ a ∈ after, ∀ v, ¬ IsOption a t v) ∧ stoi v = .ok k ∧
          snip'.get t = UInt8.ofInt k := by
  obtain ⟨snip', sifted⟩ := sift_ok convertible snip
  refine ⟨snip', ?_, fun t => ?_⟩
  · rw [processOptArgs_eq args rest snip enough, sifted]
    rfl
  · rcases last_set (store_get t) sifted with ⟨none, same⟩ | ⟨before, a, after, split, set, last⟩
    · exact .inl ⟨fun a member => (sets_eq_none_iff convertible member).mp (none a member), same⟩
    · obtain ⟨v, k, option, converted, value⟩ := sets_eq_some_iff.mp set
      refine .inr ⟨before, a, after, v, k, split, option, fun a' member => ?_, converted, value⟩
      refine (sets_eq_none_iff convertible ?_).mp (last a' member)
      rw [split]
      exact List.mem_append_right _ (List.mem_cons_of_mem _ member)

theorem processOptArgs_filters_five :
    ∃ snip', ProcessOptArgs 31 5 ([some "snip".toList, some "servert=2".toList, some "x=".toList,
        some "servert=260".toList, some "ipct=4".toList] ++ [none]) ⟨0, 1, 2, 0⟩ =
      some (.ok (2, [some "snip".toList, some "x=".toList, none, none, none, none], snip')) := by
  obtain ⟨snip', result, -⟩ := processOptArgs_filters ["snip".toList, "servert=2".toList,
    "x=".toList, "servert=260".toList, "ipct=4".toList] [none] ⟨0, 1, 2, 0⟩ 31
    (by decide +kernel) (by decide)
  have others : nonOptions ["snip".toList, "servert=2".toList, "x=".toList, "servert=260".toList,
      "ipct=4".toList] = ["snip".toList, "x=".toList] := by decide +kernel
  rw [others] at result
  exact ⟨snip', result⟩

end Codesnip.Snip
