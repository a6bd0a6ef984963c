/-
# Net.DoitReports -- what `network_area::Doit` reports of the stream it reads

`reports` runs a call of `Doit` on its own, with the steps it is given, and collects the
numbers it prints until it returns.

It prints `buff` after every `Readn`, and tests what `Readn` returned only then.  So after
the values of the stream it prints `buff` once more for the end of file, and before that
once for bytes left over, which overwrite only a part of it (`doit_reports`).
-/
import Codesnip.Unit.ByteStream
import Codesnip.Net.ThreadPools

namespace Codesnip.Net.ThreadPools

open Codesnip.Theory
open Codesnip.Unit.SysCallWrap (ReadCalls Reader Readn Readn_steady Size)

set_option autoImplicit false
set_option linter.dupNamespace false

/-- The number a step reports, if there is one. -/
def reported : Option Event → List Int
  | some (.report _ num) => [num]
  | _ => []

/-- What a call of `Doit` reports until it returns, if it does in so many steps. -/
def Doit.reports (e : Answers) : (steps : Nat) → Main → Doit → Option (Except Ended (List Int))
  | 0, _, _ => none
  | steps + 1, main, h =>
      match h.step e main with
      | none => none
      | some (.error ended) => some (.error ended)
      | some (.ok moved) =>
          match moved.next with
          | none => some (.ok (reported moved.event))
          | some h => (h.reports e steps moved.main).map fun rest =>
              rest.map fun nums => reported moved.event ++ nums

/-- The number that eight bytes stand for. -/
def valueNum (bytes : List UInt8) : Int :=
  (UInt64.ofNat (LittleEndian.value bytes)).toInt64.toInt

/-- The first `count` values of a stream. -/
def values : (count : Nat) → List UInt8 → List Int
  | 0, _ => []
  | count + 1, stream => valueNum (stream.take 8) :: values count (stream.drop 8)

/-- The complete values of a stream. -/
def complete (stream : List UInt8) : List Int := values (stream.length / 8) stream

theorem buffNum_store (memory : Buffer) {bytes : List UInt8} (whole : bytes.length = 8) :
    buffNum (memory.store 0 bytes) = valueNum bytes := by
  have loaded := memory.load_store 0 bytes
  rw [whole] at loaded
  rw [buffNum, loaded, valueNum]

/-- What `Readn` returned, in the `int` it is put into. -/
theorem toInt32_ofNat : ∀ count < 9, ¬ (Int64.ofNat count).toInt32 < 0 ∧
    ((Int64.ofNat count).toInt32 = 0 ↔ count = 0) := by decide

section Reports

variable {k : ReadCalls} {N : Nat} {e : Answers} {main : Main} {connfd : Int}

theorem step_Readn (steady : k.Steady) (interrupts : k.Interrupts N) (enough : N + 8 < e.fuel)
    (calls : (main.peers connfd).calls = k) (reader : Reader) :
    ∃ errno before bytes, Doit.step ⟨connfd, .Readn, reader⟩ e main =
      some (.ok ⟨main, some (.read connfd bytes),
        some ⟨connfd, .printf (Int64.ofNat (min 8 reader.stream.length)).toInt32,
          { stream := reader.stream.drop 8
            memory := reader.memory.store 0 (reader.stream.take 8)
            errno, calls := before }⟩⟩) := by
  obtain ⟨errno, before, read⟩ := Readn_steady steady interrupts ⟨8, by decide⟩ reader enough
  have returned := (toInt32_ofNat (min 8 reader.stream.length) (by omega)).1
  refine ⟨errno, before,
    reader.stream.take (Int64.ofNat (min 8 reader.stream.length)).toInt.toNat, ?_⟩
  rw [← calls] at read
  rw [Doit.step]
  dsimp only
  rw [show Readn (main.peers connfd).calls e.fuel 8 reader = _ from read]
  exact congrArg some (if_neg returned)

theorem reports_moves {h h' : Doit} {main main' : Main} {event : Option Event} (steps : Nat)
    (step : h.step e main = some (.ok ⟨main', event, some h'⟩)) :
    h.reports e (steps + 1) main = (h'.reports e steps main').map fun rest =>
      rest.map fun nums => reported event ++ nums := by
  rw [Doit.reports, step]

theorem reports_returns {h : Doit} {main main' : Main} {event : Option Event} (steps : Nat)
    (step : h.step e main = some (.ok ⟨main', event, none⟩)) :
    h.reports e (steps + 1) main = some (.ok (reported event)) := by
  rw [Doit.reports, step]

/-- More steps than the call needs change nothing. -/
theorem reports_more {h : Doit} {steps : Nat} {x : Except Ended (List Int)}
    (done : h.reports e steps main = some x) (more : Nat) :
    h.reports e (steps + more) main = some x := by
  induction steps generalizing h main x with
  | zero => cases done
  | succ steps ih =>
      rw [Nat.add_right_comm, Doit.reports]
      rw [Doit.reports] at done
      match moved : h.step e main with
      | none =>
          rw [moved] at done
          cases done
      | some (.error ended) =>
          rw [moved] at done
          exact done
      | some (.ok ⟨main', event, none⟩) =>
          rw [moved] at done
          exact done
      | some (.ok ⟨main', event, some h'⟩) =>
          rw [moved] at done
          dsimp only at done ⊢
          obtain ⟨rest, ran, rfl⟩ := Option.map_eq_some_iff.mp done
          rw [ih ran]
          rfl

theorem step_leave {ret : Int32} (zero : ret = 0) (reader : Reader) :
    Doit.step ⟨connfd, .test ret, reader⟩ e main =
      some (.ok ⟨main, some (.handled connfd), none⟩) := if_pos zero

theorem step_again {ret : Int32} (ne : ret ≠ 0) (reader : Reader) :
    Doit.step ⟨connfd, .test ret, reader⟩ e main =
      some (.ok ⟨main, none, some ⟨connfd, .Readn, reader⟩⟩) := if_neg ne

/-- One turn of the loop. -/
theorem reports_turn (steady : k.Steady) (interrupts : k.Interrupts N) (enough : N + 8 < e.fuel)
    (calls : (main.peers connfd).calls = k) (reader : Reader) (steps : Nat) :
    ∃ errno before, Doit.reports e (steps + 3) main ⟨connfd, .Readn, reader⟩ =
      if reader.stream = [] then some (.ok [buffNum reader.memory])
      else (Doit.reports e steps main ⟨connfd, .Readn,
        { stream := reader.stream.drop 8
          memory := reader.memory.store 0 (reader.stream.take 8)
          errno, calls := before }⟩).map fun rest =>
        rest.map fun nums => buffNum (reader.memory.store 0 (reader.stream.take 8)) :: nums := by
  obtain ⟨errno, before, bytes, read⟩ := step_Readn steady interrupts enough calls reader
  have zero := (toInt32_ofNat (min 8 reader.stream.length) (by omega)).2
  refine ⟨errno, before, ?_⟩
  rw [reports_moves (steps + 2) read, reports_moves (steps + 1) rfl]
  by_cases empty : reader.stream = []
  · have returned : (Int64.ofNat (min 8 reader.stream.length)).toInt32 = 0 :=
      zero.mpr (by rw [empty]; rfl)
    rw [reports_returns steps (step_leave returned _), if_pos empty, empty, List.take_nil,
      Buffer.store_nil]
    rfl
  · have pos := List.length_pos_of_ne_nil empty
    have returned : (Int64.ofNat (min 8 reader.stream.length)).toInt32 ≠ 0 := fun same => by
      have := zero.mp same
      omega
    rw [reports_moves steps (step_again returned _), if_neg empty]
    cases Doit.reports e steps main _ with
    | none => rfl
    | some rest => cases rest <;> rfl

/-- The values, and what `buff` holds at the end once or twice more. -/
theorem reports_stream (steady : k.Steady) (interrupts : k.Interrupts N)
    (enough : N + 8 < e.fuel) (calls : (main.peers connfd).calls = k) {count : Nat} (steps : Nat)
    (reader : Reader) (whole : reader.stream.length / 8 = count) (long : 3 * (count + 2) ≤ steps) :
    ∃ num, Doit.reports e steps main ⟨connfd, .Readn, reader⟩ =
      some (.ok (values count reader.stream ++
        List.replicate (if reader.stream.length % 8 = 0 then 1 else 2) num)) := by
  induction count generalizing reader steps with
  | zero =>
      obtain ⟨steps, rfl⟩ : ∃ n, steps = n + 3 + 3 := ⟨steps - 6, by omega⟩
      obtain ⟨errno, before, turn⟩ :=
        reports_turn steady interrupts enough calls reader (steps + 3)
      rw [turn]
      split
      · rename_i empty
        refine ⟨buffNum reader.memory, ?_⟩
        rw [empty]
        rfl
      · rename_i some
        have pos := List.length_pos_of_ne_nil some
        have dropped : reader.stream.drop 8 = [] := List.drop_of_length_le (by omega)
        obtain ⟨errno', before', turn'⟩ := reports_turn steady interrupts enough calls
          ⟨reader.stream.drop 8, reader.memory.store 0 (reader.stream.take 8), errno, before⟩ steps
        rw [turn', if_pos dropped, if_neg (by omega)]
        exact ⟨_, rfl⟩
  | succ count ih =>
      obtain ⟨steps, rfl⟩ : ∃ n, steps = n + 3 := ⟨steps - 3, by omega⟩
      obtain ⟨errno, before, turn⟩ := reports_turn steady interrupts enough calls reader steps
      have length := List.length_drop (i := 8) (l := reader.stream)
      obtain ⟨num, rest⟩ := ih steps
        ⟨reader.stream.drop 8, reader.memory.store 0 (reader.stream.take 8), errno, before⟩
        (by dsimp only; omega) (by omega)
      refine ⟨num, ?_⟩
      have some : reader.stream ≠ [] := by
        rintro empty
        rw [empty] at whole
        cases whole
      have first : (reader.stream.take 8).length = 8 := by
        rw [List.length_take]
        omega
      have left : reader.stream.length % 8 = (reader.stream.drop 8).length % 8 := by omega
      rw [turn, if_neg some, rest, buffNum_store _ first, left]
      rfl

/-- A stream of complete values: the values, and the last of them again for the end of file. -/
theorem reports_whole (steady : k.Steady) (interrupts : k.Interrupts N)
    (enough : N + 8 < e.fuel) (calls : (main.peers connfd).calls = k) {count : Nat} (steps : Nat)
    (reader : Reader) (whole : reader.stream.length = 8 * count) (long : 3 * (count + 1) ≤ steps) :
    Doit.reports e steps main ⟨connfd, .Readn, reader⟩ =
      some (.ok (values count reader.stream ++
        [(values count reader.stream).getLastD (buffNum reader.memory)])) := by
  induction count generalizing reader steps with
  | zero =>
      obtain ⟨steps, rfl⟩ : ∃ n, steps = n + 3 := ⟨steps - 3, by omega⟩
      obtain ⟨errno, before, turn⟩ := reports_turn steady interrupts enough calls reader steps
      rw [turn, if_pos (List.length_eq_zero_iff.mp whole)]
      rfl
  | succ count ih =>
      obtain ⟨steps, rfl⟩ : ∃ n, steps = n + 3 := ⟨steps - 3, by omega⟩
      obtain ⟨errno, before, turn⟩ := reports_turn steady interrupts enough calls reader steps
      have rest := ih steps
        ⟨reader.stream.drop 8, reader.memory.store 0 (reader.stream.take 8), errno, before⟩
        (by rw [List.length_drop]; omega) (by omega)
      have some : reader.stream ≠ [] := by
        rintro empty
        rw [empty] at whole
        cases whole
      have first : (reader.stream.take 8).length = 8 := by
        rw [List.length_take]
        omega
      rw [turn, if_neg some, rest, buffNum_store _ first, values, List.getLastD_cons]
      rfl

/-- **`Doit` reports the values of the stream, and then more**: what is left in `buff`, once for
the end of file, and once before for bytes that are no complete value. -/
theorem doit_reports (main : Main) (connfd : Int) (e : Answers) (N steps : Nat)
    (steady : (main.peers connfd).calls.Steady)
    (interrupts : (main.peers connfd).calls.Interrupts N) (enough : N + 8 < e.fuel)
    (long : 3 * ((main.peers connfd).stream.length / 8 + 2) ≤ steps) :
    (∃ num, (doit.enter e connfd main).reports e steps main =
      some (.ok (complete (main.peers connfd).stream ++
        List.replicate (if (main.peers connfd).stream.length % 8 = 0 then 1 else 2) num))) ∧
      (doit.enter e connfd main).reports e steps main ≠
        some (.ok (complete (main.peers connfd).stream)) := by
  obtain ⟨num, reports⟩ := reports_stream steady interrupts enough rfl steps
    (doit.enter e connfd main).reader rfl long
  refine ⟨⟨num, reports⟩, fun same => ?_⟩
  have more := List.append_right_eq_self.mp
    (Except.ok.inj (Option.some.inj (reports.symm.trans same)))
  split at more <;> cases more

end Reports

/-- What the client with descriptor 4 sends. -/
def sends (stream : List UInt8) : Main := ⟨none, fun _ => ⟨stream, Unit.SysCallWrap.twoByTwo⟩⟩

theorem doit_reports_nine :
    ∃ num, (doit.enter ⟨10, fun _ => 0⟩ 4 (sends [7, 0, 0, 0, 0, 0, 0, 0, 1])).reports
        ⟨10, fun _ => 0⟩ 9 (sends [7, 0, 0, 0, 0, 0, 0, 0, 1]) = some (.ok [7, num, num]) := by
  obtain ⟨⟨num, reports⟩, -⟩ := doit_reports (sends [7, 0, 0, 0, 0, 0, 0, 0, 1]) 4
    ⟨10, fun _ => 0⟩ 1 9 Unit.SysCallWrap.twoByTwo_steady Unit.SysCallWrap.twoByTwo_interrupts
    (by decide) (by decide)
  exact ⟨num, reports⟩

/-- A client that sends nothing is reported with what `buff` held at the call. -/
theorem doit_reports_nothing_sent :
    (doit.enter ⟨10, fun _ => 0⟩ 4 (sends [])).reports ⟨10, fun _ => 0⟩ 6 (sends []) ≠
      some (.ok (complete [])) := by
  have reports : (doit.enter ⟨10, fun _ => 0⟩ 4 (sends [])).reports ⟨10, fun _ => 0⟩ 6 (sends []) =
      some (.ok [0]) := rfl
  rw [reports]
  intro same
  cases same

end Codesnip.Net.ThreadPools
