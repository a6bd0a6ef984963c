/-
# Net.Client -- the clients of `net/net.cpp`

`Client` starts eight threads that run `SingleClient` and joins them.  Each connects and
sends the shared `auto_increment_value_in_net` four times, adding one to it after each.
Nothing guards the counter, and `Writen` is given its address: every `write` takes its
bytes from what the counter holds at that moment, so the bytes of one message can come
from several values.

* `counter` reads a state as the counter of `Theory.Increment`; `left_iff` says what the 32
  increments can leave;
* `InPlace` is what is true of every byte sent, torn or not, and makes every message one
  of the values the counter goes through (`values_sent`);
* `reports_sent`: what the server's `Doit` makes of a client's stream.
-/
import Codesnip.Theory.Increment
import Codesnip.Theory.LittleEndian
import Codesnip.Net.DoitReports

namespace Codesnip.Net.Client

open Codesnip.Theory
open Codesnip.Theory.Increment (Counter Op)
open Codesnip.Theory.Transition (System)

set_option autoImplicit false
set_option linter.dupNamespace false

/-- The clients that `Client` starts. -/
abbrev thread_n : Nat := 8

/-- The statement of `SingleClient` that comes next.  `Writen off` has sent `off` of its
eight bytes; `load` and `store` are `auto_increment_value_in_net++`. -/
inductive Pc where
  | Socket
  | Connect
  | Writen (off : Nat)
  | load
  | store (seen : UInt64)
  | times
  | Close
  | returned
  deriving DecidableEq, Repr

structure Thread where
  times : Int
  pc : Pc
  /-- The bytes sent so far. -/
  stream : List UInt8
  deriving DecidableEq, Repr

def EINTR : Int32 := 4

/-- One statement, or one `write` of `Writen`, with what the kernel answers to it. -/
def SingleClient (value : UInt64) (th : Thread) (answer : Except Int32 Nat) :
    Option (Except Ended (UInt64 × Thread)) :=
  match th.pc with
  | .Socket =>
      match answer with
      | .ok _ => some (.ok (value, { th with pc := .Connect }))
      | .error _ => some (.error (.exit ⟨"socket init error!", 0⟩))
  | .Connect =>
      match answer with
      | .ok _ => some (.ok (value, { th with pc := .Writen 0 }))
      | .error errno => some (.error (.exit ⟨"connect error!\n", errno⟩))
  | .Writen off =>
      match answer with
      | .ok count =>
          if 0 < count ∧ off + count ≤ 8 then
            some (.ok (value,
              { th with
                pc := if off + count = 8 then .load else .Writen (off + count)
                stream := th.stream ++ ((LittleEndian.bytes 8 value.toNat).drop off).take count }))
          else none
      | .error errno =>
          if errno = EINTR then some (.ok (value, th))
          else some (.error (.exit ⟨"write error", -1⟩))
  | .load => some (.ok (value, { th with pc := .store value }))
  | .store seen => some (.ok (seen + 1, { th with pc := .times }))
  | .times =>
      some (.ok (value,
        { th with
          times := th.times - 1
          pc := if th.times - 1 < 0 then .Close else .Writen 0 }))
  | .Close =>
      some ((Net.Close (answer.map fun _ => ())).map fun _ => (value, { th with pc := .returned }))
  | .returned => none

structure State where
  auto_increment_value_in_net : UInt64
  /-- The threads started so far. -/
  threads : Fin thread_n → Option Thread
  /-- The threads started and those joined, together. -/
  main : Nat

inductive Action where
  | main
  | thread (t : Fin thread_n) (answer : Except Int32 Nat)

namespace State

def start : State := ⟨8888, fun _ => none, 0⟩

def set (s : State) (t : Fin thread_n) (th : Thread) (value : UInt64) : State :=
  { s with
    auto_increment_value_in_net := value
    threads := Function.update s.threads t (some th) }

/-- The two loops of `Client`. -/
def Client (s : State) : Option State :=
  if more : s.main < thread_n then
    some { s.set ⟨s.main, more⟩ ⟨3, .Socket, []⟩ s.auto_increment_value_in_net with
      main := s.main + 1 }
  else if more : s.main - thread_n < thread_n then
    if (s.threads ⟨s.main - thread_n, more⟩).map Thread.pc = some .returned then
      some { s with main := s.main + 1 }
    else none
  else none

def step (s : State) : Action → Option (Except Ended State)
  | .main => s.Client.map .ok
  | .thread t answer => (s.threads t).bind fun th =>
      (SingleClient s.auto_increment_value_in_net th answer).map fun moved =>
        moved.map fun (value, th) => s.set t th value

end State

def system : System (Except Ended State) Action :=
  { Init := fun s => s = .ok .start, step := live State.step }

/-! ## The shared counter -/

abbrev quota : Fin thread_n → Nat := fun _ => 4

namespace Thread

/-- The increments a thread has written. -/
def done (th : Thread) : Nat := (3 - th.times).toNat + if th.pc = .times then 1 else 0

def held (th : Thread) : Option Nat :=
  match th.pc with
  | .store seen => some seen.toNat
  | _ => none

/-- `times` and the number of bytes sent, by the place in the loop. -/
def InRange (th : Thread) : Prop :=
  match th.pc with
  | .Socket | .Connect => th.times = 3 ∧ th.stream.length = 0
  | .Writen off =>
      0 ≤ th.times ∧ th.times ≤ 3 ∧ off < 8 ∧ (th.stream.length : Int) = 8 * (3 - th.times) + off
  | .load | .store _ | .times =>
      0 ≤ th.times ∧ th.times ≤ 3 ∧ (th.stream.length : Int) = 8 * (4 - th.times)
  | .Close | .returned => th.times = -1 ∧ th.stream.length = 32

end Thread

/-- The steps of a client that does not exit: those that leave the counter alone, with what
they send, and the two of `auto_increment_value_in_net++`. -/
inductive Stepped (value : UInt64) (th : Thread) : UInt64 → Thread → Prop where
  | quiet {th' : Thread} (same : th'.done = th.done) (held : th'.held = th.held)
      (stream : th'.stream = th.stream ∨ ∃ off count, th.pc = .Writen off ∧ off + count ≤ 8 ∧
        th'.stream =
          th.stream ++ ((LittleEndian.bytes 8 value.toNat).drop off).take count) :
      Stepped value th value th'
  | load (pc : th.pc = .load) : Stepped value th value { th with pc := .store value }
  | store {seen : UInt64} (pc : th.pc = .store seen) :
      Stepped value th (seen + 1) { th with pc := .times }

/-- What one `write` adds to the stream. -/
theorem length_piece {value : UInt64} {off count : Nat} (le : off + count ≤ 8) :
    (((LittleEndian.bytes 8 value.toNat).drop off).take count).length = count := by
  rw [List.length_take, List.length_drop, LittleEndian.length_bytes]
  omega

theorem stepped_of_step {value value' : UInt64} {th th' : Thread} {answer : Except Int32 Nat}
    (range : th.InRange) (step : SingleClient value th answer = some (.ok (value', th'))) :
    th'.InRange ∧ th.pc ≠ .returned ∧ Stepped value th value' th' := by
  obtain ⟨times, pc, stream⟩ := th
  cases pc with
  | Socket =>
      cases answer <;> cases step
      exact ⟨range, nofun, .quiet rfl rfl (.inl rfl)⟩
  | Connect =>
      cases answer <;> cases step
      obtain ⟨three, empty⟩ : times = 3 ∧ stream.length = 0 := range
      refine ⟨?_, nofun, .quiet rfl rfl (.inl rfl)⟩
      simp only [Thread.InRange]
      omega
  | Writen off =>
      cases answer with
      | ok count =>
          simp only [SingleClient] at step
          split at step <;> rename_i cond <;> cases step
          simp only [Thread.InRange] at range
          by_cases whole : off + count = 8
          · rw [if_pos whole]
            refine ⟨?_, nofun, .quiet rfl rfl (.inr ⟨off, count, rfl, cond.2, rfl⟩)⟩
            simp only [Thread.InRange, List.length_append, length_piece cond.2]
            omega
          · rw [if_neg whole]
            refine ⟨?_, nofun, .quiet rfl rfl (.inr ⟨off, count, rfl, cond.2, rfl⟩)⟩
            simp only [Thread.InRange, List.length_append, length_piece cond.2]
            omega
      | error errno =>
          simp only [SingleClient] at step
          split at step <;> cases step
          exact ⟨range, nofun, .quiet rfl rfl (.inl rfl)⟩
  | load =>
      cases step
      exact ⟨range, nofun, .load rfl⟩
  | store seen =>
      cases step
      exact ⟨range, nofun, .store rfl⟩
  | times =>
      cases step
      simp only [Thread.InRange] at range
      by_cases last : times - 1 < 0
      · simp only [if_pos last, Thread.InRange]
        refine ⟨by omega, nofun, .quiet ?_ rfl (.inl rfl)⟩
        simp only [Thread.done, reduceCtorEq, if_true, if_false]
        omega
      · simp only [if_neg last, Thread.InRange]
        refine ⟨by omega, nofun, .quiet ?_ rfl (.inl rfl)⟩
        simp only [Thread.done, reduceCtorEq, if_true, if_false]
        omega
  | Close =>
      cases answer <;> cases step
      exact ⟨range, nofun, .quiet rfl rfl (.inl rfl)⟩
  | returned => cases step

/-- A thread with an increment under way has not done them all. -/
theorem Thread.InRange.done_lt {th : Thread} (range : th.InRange)
    (some : th.pc = .load ∨ th.held ≠ none ∨ ∃ off, th.pc = .Writen off) : th.done < 4 := by
  obtain ⟨times, pc, stream⟩ := th
  cases pc <;> simp_all [Thread.InRange, Thread.done, Thread.held] <;> omega

/-! ## The bytes of the messages -/

/-- What is true of byte `i` of a stream whose values are from 8888 to 8919: they differ only
in the lowest byte. -/
def InPlace (i : Nat) (b : UInt8) : Prop :=
  if i % 8 = 0 then 184 ≤ b.toNat ∧ b.toNat ≤ 215
  else b.toNat = if i % 8 = 1 then 34 else 0

instance (i : Nat) (b : UInt8) : Decidable (InPlace i b) :=
  inferInstanceAs (Decidable (if i % 8 = 0 then 184 ≤ b.toNat ∧ b.toNat ≤ 215
    else b.toNat = if i % 8 = 1 then 34 else 0))

theorem inPlace_mod {i j : Nat} {b : UInt8} (same : i % 8 = j % 8) :
    InPlace i b ↔ InPlace j b := by
  rw [InPlace, InPlace, same]

theorem inPlace_bytes {v : Nat} (least : 8888 ≤ v) (most : v ≤ 8919) {j : Nat} (inside : j < 8)
    {b : UInt8} (here : (LittleEndian.bytes 8 v)[j]? = some b) : InPlace j b := by
  have all : ∀ d < 32, ∀ j < 8, ∀ b ∈ (LittleEndian.bytes 8 (8888 + d))[j]?, InPlace j b := by
    decide +kernel
  obtain ⟨d, rfl⟩ := Nat.exists_eq_add_of_le least
  exact all d (by omega) j inside b here

/-- All bytes of a stream are in place. -/
def AllInPlace (stream : List UInt8) : Prop := ∀ i b, stream[i]? = some b → InPlace i b

/-- A piece of such a value, sent where the stream is at that place of a message. -/
theorem AllInPlace.append {stream : List UInt8} (all : AllInPlace stream) {v off count : Nat}
    (least : 8888 ≤ v) (most : v ≤ 8919) (aligned : stream.length % 8 = off)
    (le : off + count ≤ 8) :
    AllInPlace (stream ++ ((LittleEndian.bytes 8 v).drop off).take count) := by
  intro i b here
  rcases Nat.lt_or_ge i stream.length with before | after
  · exact all i b ((List.getElem?_append_left before).symm.trans here)
  · rw [List.getElem?_append_right after, List.getElem?_take] at here
    split at here
    · rename_i inside
      rw [List.getElem?_drop] at here
      have place := inPlace_bytes least most (by omega) here
      exact (inPlace_mod (by omega)).mp place
    · cases here

theorem AllInPlace.drop {stream : List UInt8} (all : AllInPlace stream) :
    AllInPlace (stream.drop 8) := by
  intro i b here
  rw [List.getElem?_drop] at here
  exact (inPlace_mod (by omega)).mp (all (8 + i) b here)

/-- Eight bytes in place are one of the values. -/
theorem AllInPlace.value {stream : List UInt8} (all : AllInPlace stream)
    (long : 8 ≤ stream.length) :
    8888 ≤ ThreadPools.valueNum (stream.take 8) ∧ ThreadPools.valueNum (stream.take 8) ≤ 8919 := by
  match stream, long with
  | b₀ :: b₁ :: b₂ :: b₃ :: b₄ :: b₅ :: b₆ :: b₇ :: rest, _ =>
      have low : 184 ≤ b₀.toNat ∧ b₀.toNat ≤ 215 := all 0 b₀ rfl
      have second : b₁.toNat = 34 := all 1 b₁ rfl
      have high : b₂.toNat = 0 ∧ b₃.toNat = 0 ∧ b₄.toNat = 0 ∧ b₅.toNat = 0 ∧ b₆.toNat = 0 ∧
          b₇.toNat = 0 :=
        ⟨all 2 b₂ rfl, all 3 b₃ rfl, all 4 b₄ rfl, all 5 b₅ rfl, all 6 b₆ rfl, all 7 b₇ rfl⟩
      have value : LittleEndian.value [b₀, b₁, b₂, b₃, b₄, b₅, b₆, b₇] = b₀.toNat + 8704 := by
        simp only [LittleEndian.value]
        omega
      have num : ThreadPools.valueNum [b₀, b₁, b₂, b₃, b₄, b₅, b₆, b₇] =
          (b₀.toNat + 8704 : Nat) := by
        rw [ThreadPools.valueNum, value]
        exact Int64.toInt_ofNat_of_lt (by omega)
      simp only [List.take_succ_cons, List.take_zero, num]
      omega

theorem AllInPlace.values {count : Nat} {stream : List UInt8} (all : AllInPlace stream)
    (long : 8 * count ≤ stream.length) :
    (ThreadPools.values count stream).length = count ∧
      ∀ num ∈ ThreadPools.values count stream, 8888 ≤ num ∧ num ≤ 8919 := by
  induction count generalizing stream with
  | zero => exact ⟨rfl, nofun⟩
  | succ count ih =>
      obtain ⟨length, rest⟩ := ih all.drop (by rw [List.length_drop]; omega)
      refine ⟨congrArg Nat.succ length, fun num member => ?_⟩
      rcases List.mem_cons.mp member with rfl | member
      · exact all.value (by omega)
      · exact rest num member

/-! ## Every run of the clients -/

namespace State

variable {s s' : State} {t u : Fin thread_n} {th th' : Thread} {value : UInt64}

@[simp] theorem set_self : (s.set t th value).threads t = some th := Function.update_self ..

theorem set_of_ne (ne : u ≠ t) : (s.set t th value).threads u = s.threads u :=
  Function.update_of_ne ne ..

theorem set_some (here : (s.set t th value).threads u = some th') :
    (u = t ∧ th' = th) ∨ s.threads u = some th' := by
  by_cases same : u = t
  · subst same
    exact .inl ⟨rfl, (Option.some.inj (set_self.symm.trans here)).symm⟩
  · exact .inr ((set_of_ne same).symm.trans here)

def counter (s : State) : Counter (Fin thread_n) :=
  .ofTable Thread.done Thread.held s.auto_increment_value_in_net.toNat s.threads

structure Inv (s : State) : Prop where
  main_le : s.main ≤ 2 * thread_n
  unborn : ∀ t, s.main ≤ t.val → s.threads t = none
  joined : ∀ t, t.val + thread_n < s.main → (s.threads t).map Thread.pc = some .returned
  inRange : ∀ t th, s.threads t = some th → th.InRange
  inPlace : ∀ t th, s.threads t = some th → AllInPlace th.stream

theorem Inv.start : start.Inv where
  main_le := Nat.zero_le _
  unborn _ _ := rfl
  joined _ joined := by cases joined
  inRange _ _ here := by cases here
  inPlace _ _ here := by cases here

/-- One thread is started or moves, neither unborn nor joined. -/
theorem Inv.set (inv : s.Inv) {main : Nat} (main_le : main ≤ 2 * thread_n) (range : th.InRange)
    (place : AllInPlace th.stream)
    (unborn : ∀ u : Fin thread_n, main ≤ u.val → u ≠ t ∧ s.main ≤ u.val)
    (joined : ∀ u : Fin thread_n, u.val + thread_n < main → u ≠ t ∧ u.val + thread_n < s.main) :
    Inv { s.set t th value with main } where
  main_le := main_le
  unborn u above := by
    obtain ⟨ne, before⟩ := unborn u above
    exact (Function.update_of_ne ne ..).trans (inv.unborn u before)
  joined u below := by
    obtain ⟨ne, before⟩ := joined u below
    have same : (s.set t th value).threads u = s.threads u := set_of_ne ne
    exact (congrArg (Option.map Thread.pc) same).trans (inv.joined u before)
  inRange u th' here := by
    have here : (s.set t th value).threads u = some th' := here
    rcases set_some here with ⟨-, rfl⟩ | before
    · exact range
    · exact inv.inRange u th' before
  inPlace u th' here := by
    have here : (s.set t th value).threads u = some th' := here
    rcases set_some here with ⟨-, rfl⟩ | before
    · exact place
    · exact inv.inPlace u th' before

/-- `Client` itself does not touch the counter. -/
theorem Inv.client (inv : s.Inv) (step : s.Client = some s') :
    s'.Inv ∧ s'.counter = s.counter := by
  unfold Client at step
  split at step
  · rename_i more
    cases step
    have none : s.threads ⟨s.main, more⟩ = none := inv.unborn _ (le_refl _)
    constructor
    · refine inv.set (by omega) ⟨rfl, rfl⟩ nofun (fun u above => ⟨?_, by omega⟩)
        fun u below => absurd below (by omega)
      rintro rfl
      exact absurd above (Nat.not_succ_le_self _)
    · have same : (s.set ⟨s.main, more⟩ ⟨3, .Socket, []⟩ s.auto_increment_value_in_net).counter =
          s.counter := by
        rw [counter, State.set,
          Counter.ofTable_update _ _ s.auto_increment_value_in_net.toNat]
        simp [counter, Counter.ofTable, none, Thread.done, Thread.held]
      exact same
  · rename_i started
    split at step
    · rename_i more
      split at step <;> rename_i returned <;> cases step
      refine ⟨⟨by dsimp only; omega, fun u above => ?_, fun u below => ?_, inv.inRange,
        inv.inPlace⟩, rfl⟩
      · have above : s.main + 1 ≤ u.val := above
        exact inv.unborn u (by omega)
      · have below : u.val + thread_n < s.main + 1 := below
        by_cases last : u.val + thread_n = s.main
        · have same : u = ⟨s.main - thread_n, more⟩ := Fin.ext (by dsimp only; omega)
          rw [same]
          exact returned
        · exact inv.joined u (by omega)
    · cases step

theorem total_le (bounded : Counter.Bounded quota 8888 s.counter) : s.counter.total ≤ 32 :=
  (Finset.sum_le_sum fun t _ => bounded.done_le t).trans (by decide)

theorem total_lt (bounded : Counter.Bounded quota 8888 s.counter)
    (more : s.counter.done t < 4) : s.counter.total < 32 :=
  lt_of_lt_of_le (Finset.sum_lt_sum (fun t _ => bounded.done_le t) ⟨t, Finset.mem_univ t, more⟩)
    (by decide)

theorem value_succ {seen : UInt64} (most : seen.toNat ≤ 9000) :
    (seen + 1).toNat = seen.toNat + 1 := by
  rw [UInt64.toNat_add]
  exact Nat.mod_eq_of_lt (by simpa using by omega)

theorem done_eq (here : s.threads t = some th) : s.counter.done t = th.done :=
  Counter.done_ofTable _ _ _ here

theorem held_eq (here : s.threads t = some th) : s.counter.held t = th.held :=
  Counter.held_ofTable _ _ _ here

/-- A client that moves is at most one step of the counter. -/
theorem counter_thread {value' : UInt64} (bounded : Counter.Bounded quota 8888 s.counter)
    (here : s.threads t = some th) (range : th.InRange)
    (stepped : Stepped s.auto_increment_value_in_net th value' th') :
    Counter.Leads quota s.counter (s.set t th' value').counter := by
  cases stepped with
  | quiet done held stream =>
      have same : (s.set t th' s.auto_increment_value_in_net).counter = s.counter :=
        Counter.ofTable_quiet here done held
      exact same ▸ .refl _
  | load pc =>
      have idle : s.counter.held t = none := by rw [held_eq here, Thread.held, pc]
      have more : s.counter.done t < quota t := by
        rw [done_eq here]
        exact range.done_lt (.inl pc)
      have took : (s.set t { th with pc := .store s.auto_increment_value_in_net }
          s.auto_increment_value_in_net).counter = s.counter.take t :=
        Counter.ofTable_take here (by simp [Thread.done, pc]) rfl
      exact took ▸ Counter.leads_take idle more
  | @store seen pc =>
      have held : s.counter.held t = some seen.toNat := by rw [held_eq here, Thread.held, pc]
      have most := bounded.held_le t _ held
      have succ := value_succ (by have := total_le bounded; omega : seen.toNat ≤ 9000)
      have wrote : (s.set t { th with pc := .times } (seen + 1)).counter =
          s.counter.put t seen.toNat := by
        rw [counter, State.set, succ]
        exact Counter.ofTable_put here (by simp [Thread.done, pc]) rfl
      exact wrote ▸ Counter.leads_put held

/-- A client that sends something sends a value the counter goes through. -/
theorem inPlace_thread {value' : UInt64} (bounded : Counter.Bounded quota 8888 s.counter)
    (here : s.threads t = some th) (range : th.InRange) (place : AllInPlace th.stream)
    (stepped : Stepped s.auto_increment_value_in_net th value' th') :
    AllInPlace th'.stream := by
  cases stepped with
  | quiet done held stream =>
      rcases stream with same | ⟨off, count, pc, le, more⟩
      · rw [same]
        exact place
      · have least : 8888 + min 1 (s.counter.done t) ≤ s.auto_increment_value_in_net.toNat :=
          bounded.value_ge t
        have most : s.auto_increment_value_in_net.toNat ≤ 8888 + s.counter.total := bounded.value_le
        have room := total_lt bounded (done_eq here ▸ range.done_lt (.inr (.inr ⟨off, pc⟩)))
        rw [more]
        refine place.append (by omega) (by omega) ?_ le
        rw [Thread.InRange, pc] at range
        omega
  | load pc => exact place
  | store pc => exact place

theorem step_counter {a : Action} (inv : s.Inv)
    (leads : Counter.Leads quota (Counter.fresh (Fin thread_n) 8888) s.counter)
    (step : s.step a = some (.ok s')) :
    s'.Inv ∧ Counter.Leads quota s.counter s'.counter := by
  cases a with
  | main =>
      obtain ⟨t, client, same⟩ := Option.map_eq_some_iff.mp step
      obtain rfl := Except.ok.inj same
      obtain ⟨inv', same⟩ := inv.client client
      exact ⟨inv', same ▸ .refl _⟩
  | thread t answer =>
      obtain ⟨th, here, moved⟩ := Option.bind_eq_some_iff.mp step
      obtain ⟨answered, client, same⟩ := Option.map_eq_some_iff.mp moved
      obtain ⟨⟨value', th'⟩, rfl, rfl⟩ := exists_ok_of_map same
      have bounded := Counter.Bounded.of_leads leads
      have inRange := inv.inRange t th here
      obtain ⟨range, running, stepped⟩ := stepped_of_step inRange client
      refine ⟨inv.set inv.main_le range ?_ (fun u above => ⟨?_, above⟩) fun u below => ⟨?_, below⟩,
        counter_thread bounded here inRange stepped⟩
      · exact inPlace_thread bounded here inRange (inv.inPlace t th here) stepped
      · rintro rfl
        cases (inv.unborn u above).symm.trans here
      · rintro rfl
        have returned := inv.joined u below
        rw [here] at returned
        exact running (Option.some.inj returned)

theorem start_counter : start.counter = Counter.fresh (Fin thread_n) 8888 := rfl

/-- What holds of every state of the clients' process. -/
theorem inv_of_reachable (reach : system.Reachable (.ok s)) :
    s.Inv ∧ Counter.Leads quota (Counter.fresh (Fin thread_n) 8888) s.counter := by
  have all := reach.induct
    (P := fun x => ∀ s, x = .ok s → s.Inv ∧
      Counter.Leads quota (Counter.fresh (Fin thread_n) 8888) s.counter)
    (fun x init s same => by
      obtain rfl : s = .start := Except.ok.inj (same.symm.trans init)
      exact ⟨.start, start_counter ▸ .refl _⟩)
    (fun x a x' holds step s' same => by
      obtain ⟨s, rfl, step⟩ := live_cases step
      subst same
      obtain ⟨inv, leads⟩ := holds s rfl
      obtain ⟨inv', more⟩ := step_counter inv leads step
      exact ⟨inv', leads.trans more⟩)
  exact all s rfl

/-! ## What the clients leave -/

/-- All clients have returned when `Client` does. -/
theorem Inv.finished (inv : s.Inv) (main : s.main = 2 * thread_n) : s.counter.Finished quota := by
  intro t
  have last := t.isLt
  obtain ⟨th, here, pc⟩ := Option.map_eq_some_iff.mp (inv.joined t (by omega))
  have range := inv.inRange t th here
  rw [Thread.InRange, pc] at range
  rw [done_eq here, Thread.done, pc, range.1]
  rfl

/-- Where a client is when its next increment, or the second half of one, is due. -/
def duePc (done : Nat) : Option Nat → Pc
  | some seen => .store (.ofNat seen)
  | none => if done < 4 then .load else .returned

/-- All clients are started, and each is where the counter is next touched. -/
structure Follows (s : State) (c : Counter (Fin thread_n)) : Prop where
  value : c.value = s.auto_increment_value_in_net.toNat
  bounded : c.Bounded quota 8888
  main : s.main = thread_n
  due : ∀ t, ∃ th, s.threads t = some th ∧ th.times = 3 - c.done t ∧
    th.pc = duePc (c.done t) (c.held t)

theorem set_set {value' : UInt64} :
    (s.set t th value).set t th' value' = s.set t th' value' := by
  simp [set]

theorem reaches_thread (answer : Except Int32 Nat) (here : s.threads t = some th)
    (client : SingleClient s.auto_increment_value_in_net th answer = some (.ok (value, th'))) :
    system.Reaches (fun _ => True) (.ok s) (.ok (s.set t th' value)) := by
  have step : system.step (.ok s) (.thread t answer) = some (.ok (s.set t th' value)) := by
    simp only [system, live, State.step, here, client, Option.bind_some, Option.map_some]
    rfl
  exact .one trivial step

theorem reaches_client (client : s.Client = some s') :
    system.Reaches (fun _ => True) (.ok s) (.ok s') := by
  have step : system.step (.ok s) .main = some (.ok s') := by
    simp only [system, live, State.step, client, Option.map_some]
  exact .one trivial step

/-- A client writes the counter back and comes to its next increment, or to its end. -/
theorem reaches_store {times : Int} {seen : UInt64} {stream : List UInt8}
    (here : s.threads t = some ⟨times, .store seen, stream⟩) :
    ∃ th', system.Reaches (fun _ => True) (.ok s) (.ok (s.set t th' (seen + 1))) ∧
      th'.times = times - 1 ∧ th'.pc = if times - 1 < 0 then .returned else .load := by
  have stored := reaches_thread (.ok 0) here rfl
  have counted := stored.trans (reaches_thread (.ok 0) set_self rfl)
  rw [set_set] at counted
  by_cases last : times - 1 < 0
  · simp only [if_pos last] at counted ⊢
    have closed := counted.trans (reaches_thread (.ok 0) set_self rfl)
    rw [set_set] at closed
    exact ⟨_, closed, rfl, rfl⟩
  · simp only [if_neg last] at counted ⊢
    have sent := counted.trans (reaches_thread (.ok 8) set_self rfl)
    rw [set_set] at sent
    exact ⟨_, sent, rfl, rfl⟩

variable {c c' : Counter (Fin thread_n)}

theorem Follows.set (follows : s.Follows c) (bounded : c'.Bounded quota 8888)
    (kept : c'.value = value.toNat) (times : th.times = 3 - c'.done t)
    (pc : th.pc = duePc (c'.done t) (c'.held t))
    (others : ∀ u, u ≠ t → c'.done u = c.done u ∧ c'.held u = c.held u) :
    (s.set t th value).Follows c' where
  value := kept
  bounded := bounded
  main := follows.main
  due u := by
    by_cases same : u = t
    · subst same
      exact ⟨th, set_self, times, pc⟩
    · rw [set_of_ne same, (others u same).1, (others u same).2]
      exact follows.due u

theorem Follows.step {op : Op (Fin thread_n)} (follows : s.Follows c)
    (step : (Theory.Increment.system quota).step c op = some c') :
    ∃ s', system.Reaches (fun _ => True) (.ok s) (.ok s') ∧ s'.Follows c' := by
  have bounded := follows.bounded.step step
  cases Counter.stepped_of_step step with
  | @read t idle more =>
      obtain ⟨⟨times, pc, stream⟩, here, left, at_pc⟩ := follows.due t
      dsimp only at left at_pc
      rw [idle, duePc, if_pos more] at at_pc
      subst at_pc
      refine ⟨_, reaches_thread (.ok 0) here rfl, follows.set bounded follows.value left ?_
        fun u ne => ⟨rfl, Counter.take_held_of_ne ne⟩⟩
      rw [Counter.take_held_self, follows.value, duePc, UInt64.ofNat_toNat]
  | @write t seen held =>
      have most := follows.bounded.held_le t seen held
      have room := follows.bounded.held_lt t seen held
      have total : c.total ≤ 32 :=
        (Finset.sum_le_sum fun t _ => follows.bounded.done_le t).trans (by decide)
      obtain ⟨⟨times, pc, stream⟩, here, left, at_pc⟩ := follows.due t
      dsimp only at left at_pc
      rw [held, duePc] at at_pc
      subst at_pc
      have fits : seen < 2 ^ 64 := by omega
      have seen' : (UInt64.ofNat seen).toNat = seen := UInt64.toNat_ofNat_of_lt' fits
      obtain ⟨th', reach, times', pc'⟩ := reaches_store here
      refine ⟨_, reach, follows.set bounded ?_ ?_ ?_ fun u ne =>
        ⟨Counter.put_done_of_ne ne, Counter.put_held_of_ne ne⟩⟩
      · rw [Counter.put_value, value_succ (by omega), seen']
      · rw [Counter.put_done_self, times', left]
        omega
      · rw [Counter.put_done_self, Counter.put_held_self, pc', duePc]
        by_cases more : c.done t + 1 < 4
        · rw [if_pos more, if_neg (by omega)]
        · rw [if_neg more, if_pos (by omega)]

/-- The first `k` clients are started and have sent their first message. -/
theorem starts (k : Nat) (le : k ≤ thread_n) :
    ∃ s, system.Reaches (fun _ => True) (.ok start) (.ok s) ∧ s.main = k ∧
      s.auto_increment_value_in_net = 8888 ∧ (∀ t, k ≤ t.val → s.threads t = none) ∧
      ∀ t, t.val < k → ∃ stream, s.threads t = some ⟨3, .load, stream⟩ := by
  induction k with
  | zero => exact ⟨start, .refl _, rfl, rfl, fun _ _ => rfl, nofun⟩
  | succ k ih =>
      obtain ⟨s, reach, rfl, value, unborn, ready⟩ := ih (Nat.le_of_succ_le le)
      have created : s.Client = some { s.set ⟨s.main, le⟩ ⟨3, .Socket, []⟩
          s.auto_increment_value_in_net with main := s.main + 1 } := dif_pos le
      have new : State.threads { s.set ⟨s.main, le⟩ ⟨3, .Socket, []⟩
          s.auto_increment_value_in_net with main := s.main + 1 } ⟨s.main, le⟩ =
            some ⟨3, .Socket, []⟩ := Function.update_self ..
      have socket := (reach.trans (reaches_client created)).trans (reaches_thread (.ok 0) new rfl)
      have connected := socket.trans (reaches_thread (.ok 0) set_self rfl)
      have sent := connected.trans (reaches_thread (.ok 8) set_self rfl)
      refine ⟨_, sent, rfl, value, fun t above => ?_, fun t below => ?_⟩
      · have ne : t ≠ ⟨s.main, le⟩ := by
          rintro rfl
          exact absurd above (Nat.not_succ_le_self _)
        rw [set_of_ne ne, set_of_ne ne, set_of_ne ne]
        exact (Function.update_of_ne ne ..).trans (unborn t (Nat.le_of_succ_le above))
      · by_cases same : t = ⟨s.main, le⟩
        · rw [same]
          exact ⟨_, set_self⟩
        · have before : t.val < s.main :=
            lt_of_le_of_ne (Nat.le_of_lt_succ below) fun eq => same (Fin.ext eq)
          obtain ⟨stream, here⟩ := ready t before
          refine ⟨stream, ?_⟩
          rw [set_of_ne same, set_of_ne same, set_of_ne same]
          exact (Function.update_of_ne same ..).trans here

/-- The same, of a process that may have ended. -/
def Runs (x : Except Ended State) (c : Counter (Fin thread_n)) : Prop :=
  ∃ s, x = .ok s ∧ s.Follows c

theorem Runs.step {x : Except Ended State} {op : Op (Fin thread_n)} (runs : Runs x c)
    (step : (Theory.Increment.system quota).step c op = some c') :
    ∃ x', system.Reaches (fun _ => True) x x' ∧ Runs x' c' := by
  obtain ⟨s, rfl, follows⟩ := runs
  obtain ⟨s', reach, follows'⟩ := follows.step step
  exact ⟨.ok s', reach, s', rfl, follows'⟩

theorem follows_fresh : ∃ s, system.Reaches (fun _ => True) (.ok start) (.ok s) ∧
    s.Follows (Counter.fresh (Fin thread_n) 8888) := by
  obtain ⟨s, reach, main, value, -, ready⟩ := starts thread_n (le_refl _)
  refine ⟨s, reach, by rw [value]; rfl, .fresh, main, fun t => ?_⟩
  obtain ⟨stream, here⟩ := ready t t.isLt
  exact ⟨_, here, rfl, rfl⟩

/-- `Client` has joined the first `k` clients. -/
theorem joins (main : s.main = thread_n)
    (returned : ∀ t, (s.threads t).map Thread.pc = some .returned) (k : Nat) (le : k ≤ thread_n) :
    system.Reaches (fun _ => True) (.ok s) (.ok { s with main := thread_n + k }) := by
  induction k with
  | zero => exact main ▸ .refl _
  | succ k ih =>
      have inside : thread_n + k - thread_n < thread_n := by omega
      have join : Client { s with main := thread_n + k } =
          some { s with main := thread_n + k + 1 } := by
        rw [Client, dif_neg (by dsimp only; omega), dif_pos inside]
        exact if_pos (returned _)
      exact (ih (by omega)).trans (reaches_client join)

theorem Follows.leaves (follows : s.Follows c) (finished : c.Finished quota) :
    system.Reaches (fun _ => True) (.ok s) (.ok { s with main := 2 * thread_n }) := by
  refine joins follows.main (fun t => ?_) thread_n (le_refl _)
  have idle : c.held t = none := by
    cases held : c.held t with
    | none => rfl
    | some seen =>
        have := follows.bounded.held_lt t seen held
        rw [finished t] at this
        omega
  obtain ⟨th, here, -, pc⟩ := follows.due t
  rw [idle, finished t] at pc
  rw [here, Option.map_some, pc]
  rfl

/-- **From client to server.**  Whatever the other clients do, and however the kernel cuts what
is sent and what is read, `Doit` reports four numbers for a client that is through, each a
value that the counter went through, and then the last of them again. -/
theorem reports_sent (reach : system.Reachable (.ok s)) (here : s.threads t = some th)
    (returned : th.pc = .returned) (main : ThreadPools.Main) (connfd : Int)
    (sent : (main.peers connfd).stream = th.stream) (e : ThreadPools.Answers) (N steps : Nat)
    (steady : (main.peers connfd).calls.Steady)
    (interrupts : (main.peers connfd).calls.Interrupts N) (enough : N + 8 < e.fuel)
    (long : 15 ≤ steps) :
    ∃ a b c d, (ThreadPools.doit.enter e connfd main).reports e steps main =
      some (.ok [a, b, c, d, d]) ∧ ∀ num ∈ [a, b, c, d], 8888 ≤ num ∧ num ≤ 8919 := by
  obtain ⟨inv, -⟩ := inv_of_reachable reach
  have range := inv.inRange t th here
  rw [Thread.InRange, returned] at range
  have whole : (main.peers connfd).stream.length = 8 * 4 := by rw [sent, range.2]
  have reports := ThreadPools.reports_whole steady interrupts enough rfl steps
    (ThreadPools.doit.enter e connfd main).reader whole long
  have place : AllInPlace (main.peers connfd).stream := sent ▸ inv.inPlace t th here
  obtain ⟨length, inside⟩ := place.values whole.ge
  match listed : ThreadPools.values 4 (main.peers connfd).stream, length with
  | [a, b, c, d], _ =>
      refine ⟨a, b, c, d, ?_, listed ▸ inside⟩
      have stream : (ThreadPools.doit.enter e connfd main).reader.stream =
          (main.peers connfd).stream := rfl
      rw [stream, listed] at reports
      exact reports

theorem thread_n_pos : 0 < thread_n := by decide

/-- One client alone, whose first message takes two writes. -/
def alone : List Action :=
  .main :: ([.ok 0, .ok 0, .ok 3, .ok 5, .ok 0, .ok 0, .ok 0, .ok 8, .ok 0, .ok 0, .ok 0, .ok 8,
    .ok 0, .ok 0, .ok 0, .ok 8, .ok 0, .ok 0, .ok 0, .ok 0].map (.thread ⟨0, thread_n_pos⟩))

/-- What it sends. -/
def aloneSent : List UInt8 :=
  [184, 34, 0, 0, 0, 0, 0, 0, 185, 34, 0, 0, 0, 0, 0, 0, 186, 34, 0, 0, 0, 0, 0, 0,
    187, 34, 0, 0, 0, 0, 0, 0]

theorem alone_returns : ∃ s, system.run (.ok start) alone = some (.ok s) ∧
    s.threads 0 = some ⟨-1, .returned, aloneSent⟩ :=
  ⟨_, rfl, by decide +kernel⟩

theorem reports_sent_alone :
    ∃ a b c d, (ThreadPools.doit.enter ⟨10, fun _ => 0⟩ 4 (ThreadPools.sends aloneSent)).reports
        ⟨10, fun _ => 0⟩ 15 (ThreadPools.sends aloneSent) = some (.ok [a, b, c, d, d]) ∧
      ∀ num ∈ [a, b, c, d], 8888 ≤ num ∧ num ≤ 8919 := by
  obtain ⟨s, run, here⟩ := alone_returns
  exact reports_sent (System.Reachable.of_run rfl run) here rfl (ThreadPools.sends aloneSent) 4
    rfl ⟨10, fun _ => 0⟩ 1 15 Unit.SysCallWrap.twoByTwo_steady
    Unit.SysCallWrap.twoByTwo_interrupts (by decide) (by decide)

end State

end Codesnip.Net.Client
