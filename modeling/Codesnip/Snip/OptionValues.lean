/-
# Snip.OptionValues -- which option values are stored as they are written

`StringIsDigit` accepts every floating-point numeral, `std::stoi` converts the digits it
begins with, and the assignment keeps the low byte.  What is stored is what the value
denotes exactly for the `Plain` ones (`stored_iff`): a point is followed by zeros only, an
exponent shifts nothing, and the number fits a byte.
-/
import Mathlib.Data.Nat.Prime.Basic
import Codesnip.Snip.ProcessOptArgs

namespace Codesnip.Snip

open Codesnip.Theory.Decimal
open Codesnip.Theory.Sift
open Codesnip.Unit.Unit

set_option autoImplicit false
set_option linter.dupNamespace false

/-! ## Values -/

/-- The digits before the point are the whole number, and a byte holds it. -/
def Plain (v : List Char) : Prop :=
  ∃ d rest, numeral v = some (d, rest) ∧ d.int ≠ [] ∧ natOf d.frac = 0 ∧
    (d.exp = 0 ∨ natOf d.int = 0) ∧ natOf d.int ≤ 255 ∧ (d.negative = true → natOf d.int = 0)

theorem numeral_of_stringIsDigit {v : List Char} (accepted : StringIsDigit v = true) :
    ∃ d rest, numeral v = some (d, rest) ∧ rest.all isspace = true := by
  rw [StringIsDigit] at accepted
  split at accepted
  · cases accepted
  · rename_i d rest found
    split at accepted
    · cases accepted
    · exact ⟨d, rest, found, accepted⟩

theorem coprime_byte (j : Nat) (pos : 0 < j) : (10 ^ j - 1).Coprime 256 := by
  have even : Even (10 ^ j) := (Nat.even_pow.mpr ⟨by decide, by omega⟩)
  have odd : Odd (10 ^ j - 1) := Nat.Even.sub_odd (Nat.pow_pos (by decide)) even odd_one
  exact Nat.Coprime.pow_right 8 (Nat.coprime_two_right.mpr odd)

theorem toNat_ofInt (n : Nat) : (UInt8.ofInt n).toNat = n % 256 := by
  simp [UInt8.ofInt]
  omega

/-- Only zero denotes a natural with a minus in front. -/
theorem int_of_negative {d : Numeral} {k : Nat} (value : d.value = k)
    (negative : d.negative = true) : natOf d.int = 0 := by
  have scale : d.scale = (d.scale.toNat : Int) - ((-d.scale).toNat : Int) := by omega
  have zero := ((d.value_eq_iff k scale).mp value).1 negative
  rw [d.mantissa_eq] at zero
  exact (Nat.mul_eq_zero.mp (Nat.eq_zero_of_add_eq_zero_right zero)).resolve_right
    (Nat.pow_pos (by decide)).ne'

theorem signed {d : Numeral} (sign : d.negative = true → natOf d.int = 0) :
    (if d.negative then -(natOf d.int : Int) else natOf d.int) = natOf d.int := by
  split
  · rw [sign ‹_›]
    rfl
  · rfl

/-- What is stored is what the value denotes. -/
theorem stored_iff {v : List Char} (accepted : StringIsDigit v = true) :
    (∃ k ≤ 255, Denotes v k ∧ ∃ i, stoi v = .ok i ∧ (UInt8.ofInt i).toNat = k) ↔ Plain v := by
  obtain ⟨d, rest, found, space⟩ := numeral_of_stringIsDigit accepted
  constructor
  · rintro ⟨k, le, ⟨d', rest', found', -, value⟩, i, converted, stored⟩
    cases found.symm.trans found'
    rw [stoi_of_numeral found] at converted
    split at converted
    · cases converted
    · rename_i int
      simp only [signed (int_of_negative value)] at converted
      split at converted
      · cases converted
        rw [toNat_ofInt] at stored
        obtain ⟨whole, frac, shift⟩ :=
          d.part_of_mod (Nat.lt_succ_of_le le) coprime_byte value stored
        exact ⟨d, rest, found, int, frac, shift.imp_right whole.trans, whole.trans_le le,
          int_of_negative value⟩
      · cases converted
  · rintro ⟨d', rest', found', int, frac, shift, le, sign⟩
    cases found.symm.trans found'
    refine ⟨natOf d.int, le, ⟨d, rest, found, space, d.value_of_part frac shift sign⟩,
      natOf d.int, ?_, ?_⟩
    · rw [stoi_of_numeral found, if_neg int]
      simp only [signed sign]
      exact if_pos (by omega)
    · rw [toNat_ofInt]
      exact Nat.mod_eq_of_lt (by omega)

/-! ## The law -/

/-- The call with these arguments and the null pointer behind them.  The fuel is enough. -/
def called (args : List (List Char)) (snip : Snip) : Option Processed :=
  ProcessOptArgs (args.length * args.length + args.length + 1) args.length
    (args.map some ++ [none]) snip

/-- `v` is given as the value of a recognised option. -/
def Gives (a : List Char) (t : InputT) (v : List Char) : Prop :=
  ∃ name, a = name ++ '=' :: v ∧ '=' ∉ name ∧ (name ++ ['='], t) ∈ para_num

/-- Behind the arguments `pre`, the option's value is stored as it is written, or the
argument is left in `argv` and the settings keep their values. -/
def StoredOrLeft (pre : List (List Char)) (a : List Char) (t : InputT) (v : List Char)
    (snip : Snip) : Prop :=
  ∃ n argv s n' argv' s', called pre snip = some (.ok (n, argv, s)) ∧
    called (pre ++ [a]) snip = some (.ok (n', argv', s')) ∧
    ((∃ k ≤ 255, Denotes v k ∧ (s'.get t).toNat = k) ∨ argv'[n]? = some (some a) ∧ s' = s)

def Lawful (args : List (List Char)) (snip : Snip) : Prop :=
  ∀ pre a post t v, args = pre ++ a :: post → Gives a t v → StoredOrLeft pre a t v snip

theorem called_eq_ok_iff {args : List (List Char)} {snip s : Snip} {n : Nat} {argv : Argv} :
    called args snip = some (.ok (n, argv, s)) ↔
      ∃ kept, sift optionOf store args snip = .ok (kept, s) ∧ n = kept.length ∧
        argv = array args.length kept [none] := by
  rw [called, processOptArgs_eq args [none] snip (Nat.lt_succ_self _)]
  cases sift optionOf store args snip with
  | error thrown => simp [processed, Except.map]
  | ok result =>
      obtain ⟨kept, s'⟩ := result
      simp only [processed, Except.map, Option.some.injEq, Except.ok.injEq, Prod.mk.injEq]
      constructor
      · rintro ⟨rfl, rfl, rfl⟩
        exact ⟨kept, ⟨rfl, rfl⟩, rfl, rfl⟩
      · rintro ⟨kept', ⟨rfl, rfl⟩, rfl, rfl⟩
        exact ⟨rfl, rfl, rfl⟩

/-- A null pointer stands behind the arguments that are kept. -/
theorem array_end (argc : Nat) (kept : List (List Char)) :
    (array argc kept [none])[kept.length]? = some none := by
  have filled : array argc kept [none] =
      kept.map some ++ List.replicate (argc - kept.length + 1) none := by
    rw [List.replicate_succ', array, List.append_assoc]
  rw [filled, List.getElem?_append_right (by simp), List.length_map, Nat.sub_self]
  rfl

theorem isOption_of_gives {a v : List Char} {t : InputT} (gives : Gives a t v)
    (accepted : StringIsDigit v = true) : IsOption a t v := by
  obtain ⟨name, split, first, key⟩ := gives
  refine ⟨name, split, first, key, ?_, accepted⟩
  rintro rfl
  cases accepted

theorem optionOf_of_rejected {a v : List Char} {t : InputT} (gives : Gives a t v)
    (rejected : StringIsDigit v ≠ true) : optionOf a = none := by
  obtain ⟨name, rfl, first, key⟩ := gives
  rw [optionOf_split first, lookup_para_num.mpr key, Option.bind_some, if_neg rejected, ite_self]

section Step

variable {pre kept : List (List Char)} {a v : List Char} {t : InputT} {snip s : Snip}

theorem sift_taken (sifted : sift optionOf store pre snip = .ok (kept, s))
    (found : optionOf a = some (t, v)) :
    sift optionOf store (pre ++ [a]) snip = (stoi v).map fun i => (kept, s.set i t) := by
  rw [sift_append, sifted]
  show (sift optionOf store [a] s).map _ = _
  rw [sift_some found, store]
  cases stoi v with
  | error thrown => rfl
  | ok i => simp [Except.map, Except.bind]

theorem sift_left (sifted : sift optionOf store pre snip = .ok (kept, s))
    (found : optionOf a = none) :
    sift optionOf store (pre ++ [a]) snip = .ok (kept ++ [a], s) := by
  rw [sift_append, sifted]
  show (sift optionOf store [a] s).map _ = _
  rw [sift_none found]
  rfl

theorem gives_of_isOption (option : IsOption a t v) : Gives a t v ∧ StringIsDigit v = true := by
  obtain ⟨name, split, first, key, -, accepted⟩ := option
  exact ⟨⟨name, split, first, key⟩, accepted⟩

theorem plain_of_stored (option : IsOption a t v) (law : StoredOrLeft pre a t v snip) :
    Plain v := by
  obtain ⟨n, argv, s, n', argv', s', before, after, stored⟩ := law
  obtain ⟨kept, sifted, rfl, -⟩ := called_eq_ok_iff.mp before
  obtain ⟨kept', sifted', rfl, rfl⟩ := called_eq_ok_iff.mp after
  rw [sift_taken sifted (optionOf_eq_some_iff.mpr option)] at sifted'
  cases converted : stoi v with
  | error thrown =>
      rw [converted] at sifted'
      cases sifted'
  | ok i =>
      rw [converted] at sifted'
      cases sifted'
      rcases stored with ⟨k, le, denotes, value⟩ | ⟨left, -⟩
      · rw [Snip.get_set, if_pos rfl] at value
        exact (stored_iff (gives_of_isOption option).2).mp ⟨k, le, denotes, i, converted, value⟩
      · rw [array_end] at left
        cases left

theorem stored_of_plain (sifted : sift optionOf store pre snip = .ok (kept, s))
    (option : IsOption a t v) (plain : Plain v) : StoredOrLeft pre a t v snip := by
  obtain ⟨k, le, denotes, i, converted, value⟩ :=
    (stored_iff (gives_of_isOption option).2).mpr plain
  have after := sift_taken sifted (optionOf_eq_some_iff.mpr option)
  rw [converted] at after
  exact ⟨_, _, s, _, _, s.set i t, called_eq_ok_iff.mpr ⟨kept, sifted, rfl, rfl⟩,
    called_eq_ok_iff.mpr ⟨kept, after, rfl, rfl⟩, .inl ⟨k, le, denotes, by simp [value]⟩⟩

theorem left_of_rejected (sifted : sift optionOf store pre snip = .ok (kept, s))
    (found : optionOf a = none) : StoredOrLeft pre a t v snip :=
  ⟨_, _, s, _, _, s, called_eq_ok_iff.mpr ⟨kept, sifted, rfl, rfl⟩,
    called_eq_ok_iff.mpr ⟨kept ++ [a], sift_left sifted found, rfl, rfl⟩,
    .inr ⟨by simp [array], rfl⟩⟩

end Step

/-- **The law holds exactly when every value that `StringIsDigit` accepts is plain.** -/
theorem lawful_iff (args : List (List Char)) (snip : Snip) :
    Lawful args snip ↔
      ∀ a ∈ args, ∀ t v, Gives a t v → StringIsDigit v = true → Plain v := by
  constructor
  · intro law a member t v gives accepted
    obtain ⟨pre, post, split⟩ := List.append_of_mem member
    exact plain_of_stored (isOption_of_gives gives accepted) (law pre a post t v split gives)
  · rintro plain pre a post t v rfl gives
    have convertible : Convertible pre := by
      intro b member t v option
      obtain ⟨gives, accepted⟩ := gives_of_isOption option
      obtain ⟨k, -, -, i, converted, -⟩ := (stored_iff accepted).mpr
        (plain b (List.mem_append_left _ member) t v gives accepted)
      exact ⟨i, converted⟩
    obtain ⟨⟨kept, s⟩, sifted⟩ := exists_ok (store_ok convertible) snip
    by_cases accepted : StringIsDigit v = true
    · refine stored_of_plain sifted (isOption_of_gives gives accepted) ?_
      exact plain a (List.mem_append_right _ (List.mem_cons_self ..)) t v gives accepted
    · exact left_of_rejected sifted (optionOf_of_rejected gives accepted)

/-- A number above 255 loses its high bits, and digits after a point alone make `std::stoi`
throw. -/
theorem not_lawful_out_of_range :
    ¬ Lawful ["net".toList, "servert=300".toList] ⟨0, 1, 2, 0⟩ ∧
      ¬ Lawful ["net".toList, "servert=.5".toList] ⟨0, 1, 2, 0⟩ := by
  constructor
  · intro law
    have stored := law ["net".toList] _ [] .SERVSE_T "300".toList rfl
      ⟨"servert".toList, by decide +kernel⟩
    obtain ⟨d, rest, found, -, -, -, le, -⟩ :=
      plain_of_stored ⟨"servert".toList, by decide +kernel⟩ stored
    have int : (numeral "300".toList).map (fun p => natOf p.1.int) = some 300 := by
      decide +kernel
    rw [found] at int
    have value : natOf d.int = 300 := Option.some.inj int
    omega
  · intro law
    have stored := law ["net".toList] _ [] .SERVSE_T ".5".toList rfl
      ⟨"servert".toList, by decide +kernel⟩
    obtain ⟨d, rest, found, digits, -⟩ :=
      plain_of_stored ⟨"servert".toList, by decide +kernel⟩ stored
    have int : (numeral ".5".toList).map (fun p => p.1.int) = some [] := by decide +kernel
    rw [found] at int
    exact digits (Option.some.inj int)

end Codesnip.Snip
