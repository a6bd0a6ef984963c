/-
# Theory.Buffer -- memory seen from a pointer

A `Buffer` is the memory around a pointer: the byte at each offset.  `load` reads a
run of bytes and `store` overwrites one and leaves every other byte as it was.  A
long transfer done in pieces is the transfer done at once (`load_add`,
`store_store`).
-/
import Mathlib.Data.List.Basic

namespace Codesnip.Theory

set_option autoImplicit false

/-- The byte at each offset. -/
abbrev Buffer := Nat → UInt8

namespace Buffer

def load (memory : Buffer) (offset count : Nat) : List UInt8 :=
  (List.range count).map fun i => memory (offset + i)

def store (memory : Buffer) (offset : Nat) (bytes : List UInt8) : Buffer := fun i =>
  if offset ≤ i then bytes[i - offset]?.getD (memory i) else memory i

@[simp] theorem length_load (memory : Buffer) (offset count : Nat) :
    (memory.load offset count).length = count := by
  simp [load]

@[simp] theorem load_zero (memory : Buffer) (offset : Nat) : memory.load offset 0 = [] := rfl

theorem load_add (memory : Buffer) (offset first second : Nat) :
    memory.load offset (first + second) =
      memory.load offset first ++ memory.load (offset + first) second := by
  simp [load, List.range_add, Nat.add_assoc]

@[simp] theorem store_nil (memory : Buffer) (offset : Nat) : memory.store offset [] = memory := by
  funext i
  simp [store]

/-- Nothing is stored outside the bytes' place. -/
theorem store_outside (memory : Buffer) {offset i : Nat} {bytes : List UInt8}
    (outside : i < offset ∨ offset + bytes.length ≤ i) :
    memory.store offset bytes i = memory i := by
  unfold store
  split
  · rw [List.getElem?_eq_none (by omega)]
    rfl
  · rfl

theorem store_inside (memory : Buffer) {offset i : Nat} {bytes : List UInt8} {byte : UInt8}
    (inside : bytes[i]? = some byte) : memory.store offset bytes (offset + i) = byte := by
  simp [store, inside]

theorem load_store (memory : Buffer) (offset : Nat) (bytes : List UInt8) :
    (memory.store offset bytes).load offset bytes.length = bytes := by
  apply List.ext_getElem?
  intro i
  by_cases inside : i < bytes.length
  · have found : bytes[i]? = some bytes[i] := List.getElem?_eq_getElem inside
    simp [load, inside, store_inside memory found]
  · rw [List.getElem?_eq_none (by simpa using inside),
      List.getElem?_eq_none (by simpa using inside)]

/-- Two pieces stored one after the other. -/
theorem store_store (memory : Buffer) (offset : Nat) (first second : List UInt8) :
    (memory.store offset first).store (offset + first.length) second =
      memory.store offset (first ++ second) := by
  funext i
  by_cases before : i < offset
  · rw [store_outside _ (Or.inl (by omega)), store_outside _ (Or.inl before),
      store_outside _ (Or.inl before)]
  by_cases here : i < offset + first.length
  · rw [store_outside _ (Or.inl here)]
    have inside : i - offset < first.length := by omega
    simp [store, Nat.le_of_not_lt before, List.getElem?_append_left inside, inside]
  · have past : first.length ≤ i - offset := by omega
    have shift : i - (offset + first.length) = i - offset - first.length := by omega
    simp [store, Nat.le_of_not_lt before, Nat.le_of_not_lt here, List.getElem?_append_right past,
      shift, List.getElem?_eq_none past]

end Buffer

end Codesnip.Theory
