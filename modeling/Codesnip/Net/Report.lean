/-
# Net.Report -- what the event loops of `net/net.cpp` report of a connection

A client sends 64-bit values, eight bytes each (`sent`).  The servers that read up to
1024 bytes at a time report one number for every read, the low 32 bits of what is then
at the start of the buffer, so a read of eight bytes is reported by its own `low`
(`num_store`), and one of another length by anything.

A connection delivers its values if the numbers reported are the values received
(`Delivers`).  It does where every read returned exactly one value that an `int` can hold
(`delivered`).
-/
import Mathlib.Data.List.Forall2
import Codesnip.Net.Connection

namespace Codesnip.Net

open Codesnip.Theory

set_option autoImplicit false

/-- What `SingleClient` writes. -/
def sent (vs : List UInt64) : List UInt8 := vs.flatMap fun v => LittleEndian.bytes 8 v.toNat

/-- Whatever values the bytes received so far are, these have been reported.  It asks nothing
of a connection at a point where they are no whole number of values. -/
def Delivers (c : Connection) : Prop :=
  ∀ vs, c.received.flatten = sent vs → c.reported = vs.map fun v => (v.toNat : Int)

/-- What has been reported so far are the first of the values received. -/
def Delivering (c : Connection) : Prop :=
  ∀ vs, c.received.flatten = sent vs → c.reported <+: vs.map fun v => (v.toNat : Int)

/-- The number reported of an eight-byte read. -/
def low (chunk : List UInt8) : Int :=
  (Word.intOfUll (UInt64.ofNat (LittleEndian.value chunk))).toInt

/-- `n` may be reported of a read. -/
def ReportOf (chunk : List UInt8) (n : Int) : Prop := chunk.length = 8 → n = low chunk

/-- One value that an `int` can hold. -/
def Message (chunk : List UInt8) : Prop := chunk.length = 8 ∧ LittleEndian.value chunk < 2 ^ 31

theorem num_store (buf : Buffer) {chunk : List UInt8} :
    ReportOf chunk (num (buf.store 0 chunk)) := by
  intro whole
  have loaded := buf.load_store 0 chunk
  rw [whole] at loaded
  rw [num, loaded, low]

theorem low_eq {chunk : List UInt8} (message : Message chunk) :
    low chunk = LittleEndian.value chunk := by
  obtain ⟨-, fits⟩ := message
  have value : (UInt64.ofNat (LittleEndian.value chunk)).toNat = LittleEndian.value chunk :=
    UInt64.toNat_ofNat_of_lt' (Nat.lt_trans fits (by decide))
  rw [low, Word.toInt_intOfUll (by rw [value, Word.intMax]; omega), value]

/-- Reads of one value each are reported by their values. -/
theorem delivered {chunks : List (List UInt8)} {nums : List Int}
    (reports : List.Forall₂ ReportOf chunks nums) (messages : ∀ chunk ∈ chunks, Message chunk)
    {vs : List UInt64} (all : chunks.flatten = sent vs) :
    nums = vs.map fun v => (v.toNat : Int) := by
  induction reports generalizing vs with
  | nil =>
      cases vs with
      | nil => rfl
      | cons v vs =>
          have sizes := congrArg List.length all
          simp only [sent, List.flatMap_cons, List.length_append, LittleEndian.length_bytes,
            List.flatten_nil, List.length_nil] at sizes
          omega
  | @cons chunk n chunks nums report reports ih =>
      obtain ⟨message, messages⟩ := List.forall_mem_cons.mp messages
      cases vs with
      | nil =>
          have sizes := congrArg List.length all
          simp only [sent, List.flatMap_nil, List.flatten_cons, List.length_append, message.1,
            List.length_nil] at sizes
          omega
      | cons v vs =>
          obtain ⟨first, rest⟩ := List.append_inj all (by simp [message.1])
          have lt : v.toNat < 256 ^ 8 := v.toNat_lt
          have value : LittleEndian.value chunk = v.toNat := by
            rw [first, LittleEndian.value_bytes_of_lt lt]
          rw [report message.1, low_eq message, value, ih messages rest, List.map_cons]

/-! ## Servers that report every read but the last -/

/-- The reads that returned bytes are reported, once and in order. -/
def Reports (c : Connection) : Prop :=
  List.Forall₂ ReportOf (c.received.filter fun chunk => chunk ≠ []) c.reported

/-- Every read returned one value, or the end of file. -/
def Whole (c : Connection) : Prop := ∀ chunk ∈ c.received, chunk = [] ∨ Message chunk

theorem Reports.delivers {c : Connection} (reports : Reports c) (whole : Whole c) :
    Delivers c := by
  intro vs all
  refine delivered reports (fun chunk member => ?_) ?_
  · obtain ⟨member, some⟩ := List.mem_filter.mp member
    exact (whole chunk member).resolve_left (by simpa using some)
  · rw [List.flatten_filter_ne_nil]
    exact all

/-- Every connection of the log is reported. -/
def Reporting (log : List Event) : Prop := ∀ c ∈ connections log, Reports c

namespace Reporting

variable {log : List Event}

theorem nil : Reporting [] := by simp [Reporting]

theorem accept (reporting : Reporting log) (connfd : Int) :
    Reporting (log ++ [.accept connfd]) := by
  rw [Reporting, connections_accept]
  exact List.forall_mem_cons.mpr ⟨.nil, reporting⟩

theorem read (reporting : Reporting log) (fd : Int) {chunk : List UInt8} (some : chunk ≠ [])
    (buf : Buffer) :
    Reporting (log ++ [.read fd chunk, .report fd (num (buf.store 0 chunk))]) := by
  rw [Reporting, connections_report]
  refine forall_update reporting fun c reports _ => ?_
  have kept : [chunk].filter (fun chunk => chunk ≠ []) = [chunk] := by simp [some]
  rw [Reports, List.filter_append, kept]
  exact List.rel_append reports (.cons (num_store buf) .nil)

theorem finish (reporting : Reporting log) (fd : Int) :
    Reporting (log ++ [.read fd [], .close fd, .handled fd]) := by
  rw [Reporting, connections_finish]
  refine forall_update (forall_update reporting fun c reports _ => ?_) fun c reports _ => reports
  simpa [Reports] using reports

end Reporting

end Codesnip.Net
