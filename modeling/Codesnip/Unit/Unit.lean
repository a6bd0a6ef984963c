/-
# Unit.Unit -- `StringIsDigit` of `unit/unit.cpp`, and `std::stoi`

A `std::string` is the list of its characters.  Both readers are those of the C++
standard library in the "C" locale.  `sin >> d` skips white space and reads the longest
text that continues a decimal floating-point numeral; it fails where that text is no
numeral (no digits, an exponent without digits) and where the number rounds to an
infinity.  `sin >> c` then fails exactly if only white space is left.  `std::stoi` skips
white space and converts the longest integer it finds there, and throws where it finds
none or an `int` cannot hold it.

So the two part where a numeral goes on after its first digits (`stoi_of_numeral`).
-/
import Codesnip.Theory.Decimal

namespace Codesnip.Unit.Unit

open Codesnip.Theory.Decimal

set_option autoImplicit false
set_option linter.dupNamespace false

def isspace (c : Char) : Bool := c = ' ' ∨ 9 ≤ c.toNat ∧ c.toNat ≤ 13

/-- An optional sign, and what follows. -/
def sign : List Char → Bool × List Char
  | '-' :: s => (true, s)
  | '+' :: s => (false, s)
  | s => (false, s)

/-- The digits after a point, if there is one. -/
def fraction : List Char → List Char
  | '.' :: s => s.takeWhile Char.isDigit
  | _ => []

def afterFraction : List Char → List Char
  | '.' :: s => s.dropWhile Char.isDigit
  | s => s

/-- The exponent, if there is one. -/
def exponent : List Char → Option (Int × List Char)
  | [] => some (0, [])
  | c :: s =>
      if c = 'e' ∨ c = 'E' then
        let (negative, s) := sign s
        let ds := s.takeWhile Char.isDigit
        if ds = [] then none
        else some (if negative then -natOf ds else natOf ds, s.dropWhile Char.isDigit)
      else some (0, c :: s)

theorem isDigit_of_mem_takeWhile {c : Char} {s : List Char}
    (member : c ∈ s.takeWhile Char.isDigit) : c.isDigit = true :=
  List.all_eq_true.mp List.all_takeWhile c member

theorem isDigit_of_mem_fraction {c : Char} {s : List Char} (member : c ∈ fraction s) :
    c.isDigit = true := by
  unfold fraction at member
  split at member
  · exact isDigit_of_mem_takeWhile member
  · cases member

/-- The numeral at the head of a text, and what follows. -/
def numeral (s : List Char) : Option (Numeral × List Char) :=
  let (negative, s) := sign (s.dropWhile isspace)
  let int := s.takeWhile Char.isDigit
  let frac := fraction (s.dropWhile Char.isDigit)
  if int = [] ∧ frac = [] then none
  else (exponent (afterFraction (s.dropWhile Char.isDigit))).map fun (exp, s) =>
    ({ negative, int, frac, exp
       int_digits := fun _ => isDigit_of_mem_takeWhile
       frac_digits := fun _ => isDigit_of_mem_fraction }, s)

/-- From half a place above the largest `double` on, a number rounds to an infinity. -/
def Overflows (n : Numeral) : Prop :=
  (2 ^ 1024 - 2 ^ 970) * 10 ^ (-n.scale).toNat ≤ n.mantissa * 10 ^ n.scale.toNat

instance (n : Numeral) : Decidable (Overflows n) := inferInstanceAs (Decidable (_ ≤ _))

def StringIsDigit (str : List Char) : Bool :=
  match numeral str with
  | none => false
  | some (d, rest) => if Overflows d then false else rest.all isspace

/-- The exceptions that reach these functions. -/
inductive Thrown where
  | invalid_argument
  | out_of_range
  | logic_error
  deriving DecidableEq, Repr

/-- `std::stoi`, with the base 10. -/
def stoi (str : List Char) : Except Thrown Int :=
  let (negative, s) := sign (str.dropWhile isspace)
  let ds := s.takeWhile Char.isDigit
  if ds = [] then .error .invalid_argument
  else
    let v : Int := if negative then -natOf ds else natOf ds
    if -2 ^ 31 ≤ v ∧ v < 2 ^ 31 then .ok v else .error .out_of_range

/-- `str` is a numeral, white space apart, and stands for `k`. -/
def Denotes (str : List Char) (k : Nat) : Prop :=
  ∃ d rest, numeral str = some (d, rest) ∧ rest.all isspace = true ∧ d.value = k

example : StringIsDigit " -1.5e3 ".toList = true ∧ StringIsDigit "1e".toList = false ∧
    StringIsDigit "0x10".toList = false ∧ StringIsDigit "1e400".toList = false := by decide +kernel

/-- `std::stoi` converts the digits before the point. -/
theorem stoi_of_numeral {str rest : List Char} {d : Numeral}
    (found : numeral str = some (d, rest)) :
    stoi str =
      if d.int = [] then .error .invalid_argument
      else
        let v : Int := if d.negative then -natOf d.int else natOf d.int
        if -2 ^ 31 ≤ v ∧ v < 2 ^ 31 then .ok v else .error .out_of_range := by
  simp only [numeral] at found
  split at found
  · cases found
  · obtain ⟨tail, -, same⟩ := Option.map_eq_some_iff.mp found
    cases same
    rfl

end Codesnip.Unit.Unit
