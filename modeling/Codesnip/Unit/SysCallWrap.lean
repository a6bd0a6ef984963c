/-
# Unit.SysCallWrap -- `readn` and `writen` of `unit/syscallwrap.cpp`

The system calls are the kernel's: `ReadCalls` and `WriteCalls` say how it answers each
call, knowing its earlier answers, the bytes asked for and, for a read, the bytes the
stream still holds.  A call either moves some bytes or returns -1 and sets `errno`.
It never moves more than asked or than there are, and at least one if it can; a read
of a stream that has ended moves none.

`nread` and `nwritten` are `ssize_t`, the sizes `size_t`, and an `EINTR` is patched to a
count of 0 before the subtraction.  Pointers are offsets from `vptr`.  No C object is
larger than `PTRDIFF_MAX`, which `Size` records.  The loops take fuel, `none` being a
loop that has not ended yet.
-/
import Mathlib.Algebra.Group.Nat.Defs
import Codesnip.Theory.Buffer

namespace Codesnip.Unit.SysCallWrap

open Codesnip.Theory

set_option autoImplicit false
set_option linter.dupNamespace false

/-- `errno`, as far as the code tells its values apart. -/
inductive Errno where
  | EINTR
  | other (code : Nat)
  deriving DecidableEq, Repr

/-- What a system call did. -/
inductive Outcome where
  | done (count : Nat)
  | fail (errno : Errno)
  deriving DecidableEq, Repr

/-- The size of an object in memory. -/
structure Size where
  val : UInt64
  fits : val.toNat < 2 ^ 63

structure ReadCalls where
  outcome : (before : List Outcome) → (asked left : Nat) → Outcome
  ranged : ∀ before asked left count, outcome before asked left = .done count →
    count ≤ asked ∧ count ≤ left ∧ (0 < asked → 0 < left → 0 < count)

structure WriteCalls where
  outcome : (before : List Outcome) → (asked : Nat) → Outcome
  ranged : ∀ before asked count, outcome before asked = .done count →
    count ≤ asked ∧ (0 < asked → 0 < count)

/-- The reading process and its descriptor: the bytes still to come, the memory at
`vptr`, and the calls made. -/
structure Reader where
  stream : List UInt8
  memory : Buffer
  errno : Errno
  calls : List Outcome

structure Writer where
  sent : List UInt8
  errno : Errno
  calls : List Outcome

/-- `perror` and `exit`. -/
structure Exit where
  message : String
  status : Int32
  deriving DecidableEq, Repr

def read (k : ReadCalls) (s : Reader) (ptr : Nat) (nbytes : UInt64) : Int64 × Reader :=
  match k.outcome s.calls nbytes.toNat s.stream.length with
  | .done count =>
      (Int64.ofNat count,
        { s with
          stream := s.stream.drop count
          memory := s.memory.store ptr (s.stream.take count)
          calls := s.calls ++ [.done count] })
  | .fail errno => (-1, { s with errno, calls := s.calls ++ [.fail errno] })

def write (k : WriteCalls) (memory : Buffer) (s : Writer) (ptr : Nat) (nbytes : UInt64) :
    Int64 × Writer :=
  match k.outcome s.calls nbytes.toNat with
  | .done count =>
      (Int64.ofNat count,
        { s with sent := s.sent ++ memory.load ptr count, calls := s.calls ++ [.done count] })
  | .fail errno => (-1, { s with errno, calls := s.calls ++ [.fail errno] })

/-- The loop of `readn`. -/
def readnLoop (k : ReadCalls) (n : UInt64) : Nat → UInt64 → Nat → Reader → Option (Int64 × Reader)
  | 0, _, _, _ => none
  | fuel + 1, nleft, ptr, s =>
      if nleft > 0 then
        let (nread, s) := read k s ptr nleft
        let next := fun nread : Int64 =>
          readnLoop k n fuel (nleft - nread.toUInt64) (ptr + nread.toInt.toNat) s
        if nread < 0 then
          if s.errno = .EINTR then next 0 else some (-1, s)
        else if nread = 0 then some ((n - nleft).toInt64, s)
        else next nread
      else some ((n - nleft).toInt64, s)

def readn (k : ReadCalls) (fuel : Nat) (n : UInt64) (s : Reader) : Option (Int64 × Reader) :=
  readnLoop k n fuel n 0 s

def Readn (k : ReadCalls) (fuel : Nat) (nbytes : UInt64) (s : Reader) :
    Option (Except Exit (Int64 × Reader)) :=
  (readn k fuel nbytes s).map fun (ret, s) =>
    if ret < 0 then .error ⟨"read error", ret.toInt32⟩ else .ok (ret, s)

/-- The loop of `writen`. -/
def writenLoop (k : WriteCalls) (memory : Buffer) (n : Int64) :
    Nat → UInt64 → Nat → Writer → Option (Int64 × Writer)
  | 0, _, _, _ => none
  | fuel + 1, nleft, ptr, s =>
      if nleft ≠ 0 then
        let (nwritten, s) := write k memory s ptr nleft
        let next := fun nwritten : Int64 =>
          writenLoop k memory n fuel (nleft - nwritten.toUInt64) (ptr + nwritten.toInt.toNat) s
        if nwritten < 0 then
          if s.errno = .EINTR then next 0 else some (-1, s)
        else next nwritten
      else some ((n.toUInt64 - nleft).toInt64, s)

def writen (k : WriteCalls) (fuel : Nat) (memory : Buffer) (n : Int64) (s : Writer) :
    Option (Int64 × Writer) :=
  writenLoop k memory n fuel n.toUInt64 0 s

def Writen (k : WriteCalls) (fuel : Nat) (memory : Buffer) (nbytes : UInt64) (s : Writer) :
    Option (Except Exit Writer) :=
  (writen k fuel memory nbytes.toInt64 s).map fun (ret, s) =>
    if ret.toUInt64 ≠ nbytes then .error ⟨"write error", -1⟩ else .ok s

end Codesnip.Unit.SysCallWrap
