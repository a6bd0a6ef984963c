/-
# Unit.ByteStream -- `readn` undoes `writen`

Whatever counts the kernel answers with and however often a signal interrupts, a loop
moves the next bytes of the stream to or from the next place in memory.  `Received` and
`Delivered` say what a run of calls has moved, and add up (`Received.trans`).

* `readnLoop_spec`, `writenLoop_spec`: what a loop has moved when it ends, and that it
  answers -1 exactly if a call failed with another errno than `EINTR`;
* `readnLoop_ends`, `writenLoop_ends`: with at most `N` interrupts it has ended after
  `N` plus the size, in calls;
* `readn_inverts_writen`: the messages of one side arrive whole on the other.
-/
import Mathlib.Data.List.Forall2
import Codesnip.Theory.Word
import Codesnip.Unit.SysCallWrap

namespace Codesnip.Unit.SysCallWrap

open Codesnip.Theory
open Codesnip.Theory.Word

set_option autoImplicit false
set_option linter.dupNamespace false

/-- A call failed for another reason than a signal. -/
def Failed (calls : List Outcome) : Prop := ∃ code, .fail (.other code) ∈ calls

/-- The kernel interrupts at most `N` calls. -/
def ReadCalls.Interrupts (k : ReadCalls) (N : Nat) : Prop :=
  ∀ before asked left, k.outcome before asked left = .fail .EINTR →
    before.count (.fail .EINTR) < N

def WriteCalls.Interrupts (k : WriteCalls) (N : Nat) : Prop :=
  ∀ before asked, k.outcome before asked = .fail .EINTR → before.count (.fail .EINTR) < N

/-- No call fails but by a signal. -/
def ReadCalls.Steady (k : ReadCalls) : Prop :=
  ∀ before asked left code, k.outcome before asked left ≠ .fail (.other code)

def WriteCalls.Steady (k : WriteCalls) : Prop :=
  ∀ before asked code, k.outcome before asked ≠ .fail (.other code)

/-! ## What the calls move -/

/-- From `s` to `s'` the calls moved `count` bytes of the stream to `ptr`. -/
structure Received (s s' : Reader) (ptr count : Nat) (calls : List Outcome) : Prop where
  calls : s'.calls = s.calls ++ calls
  count_le : count ≤ s.stream.length
  stream : s'.stream = s.stream.drop count
  memory : s'.memory = s.memory.store ptr (s.stream.take count)

/-- From `s` to `s'` the calls sent `count` bytes from `ptr`. -/
structure Delivered (memory : Buffer) (s s' : Writer) (ptr count : Nat) (calls : List Outcome) :
    Prop where
  calls : s'.calls = s.calls ++ calls
  sent : s'.sent = s.sent ++ memory.load ptr count

namespace Received

theorem refl (s : Reader) (ptr : Nat) : Received s s ptr 0 [] :=
  ⟨by simp, Nat.zero_le _, by simp, by simp⟩

theorem trans {s s₁ s₂ : Reader} {ptr c₁ c₂ : Nat} {calls₁ calls₂ : List Outcome}
    (first : Received s s₁ ptr c₁ calls₁) (second : Received s₁ s₂ (ptr + c₁) c₂ calls₂) :
    Received s s₂ ptr (c₁ + c₂) (calls₁ ++ calls₂) := by
  have le := second.count_le
  rw [first.stream, List.length_drop] at le
  have le₁ := first.count_le
  refine ⟨by rw [second.calls, first.calls, List.append_assoc], by omega,
    by rw [second.stream, first.stream, List.drop_drop], ?_⟩
  have joined := s.memory.store_store ptr (s.stream.take c₁) ((s.stream.drop c₁).take c₂)
  rw [List.length_take, Nat.min_eq_left le₁] at joined
  rw [second.memory, first.memory, first.stream, joined, List.take_add]

end Received

namespace Delivered

variable {memory : Buffer}

theorem refl (s : Writer) (ptr : Nat) : Delivered memory s s ptr 0 [] := ⟨by simp, by simp⟩

theorem trans {s s₁ s₂ : Writer} {ptr c₁ c₂ : Nat} {calls₁ calls₂ : List Outcome}
    (first : Delivered memory s s₁ ptr c₁ calls₁)
    (second : Delivered memory s₁ s₂ (ptr + c₁) c₂ calls₂) :
    Delivered memory s s₂ ptr (c₁ + c₂) (calls₁ ++ calls₂) :=
  ⟨by rw [second.calls, first.calls, List.append_assoc],
    by rw [second.sent, first.sent, List.append_assoc, Buffer.load_add]⟩

end Delivered

/-- A `read` moves bytes or fails; it moves none only at the end of the stream. -/
theorem read_cases (k : ReadCalls) (s : Reader) (ptr : Nat) (nbytes : UInt64) :
    (∃ count, (read k s ptr nbytes).1 = Int64.ofNat count ∧
      Received s (read k s ptr nbytes).2 ptr count [.done count] ∧ count ≤ nbytes.toNat ∧
      (0 < nbytes.toNat → 0 < s.stream.length → 0 < count)) ∨
    ∃ errno, k.outcome s.calls nbytes.toNat s.stream.length = .fail errno ∧
      (read k s ptr nbytes).1 = -1 ∧ (read k s ptr nbytes).2.errno = errno ∧
      Received s (read k s ptr nbytes).2 ptr 0 [.fail errno] := by
  unfold read
  cases answer : k.outcome s.calls nbytes.toNat s.stream.length with
  | done count =>
      obtain ⟨asked, left, some⟩ := k.ranged _ _ _ _ answer
      exact Or.inl ⟨count, rfl, ⟨rfl, left, rfl, rfl⟩, asked, some⟩
  | fail errno => exact Or.inr ⟨errno, rfl, rfl, rfl, ⟨rfl, Nat.zero_le _, rfl, by simp⟩⟩

theorem write_cases (k : WriteCalls) (memory : Buffer) (s : Writer) (ptr : Nat)
    (nbytes : UInt64) :
    (∃ count, (write k memory s ptr nbytes).1 = Int64.ofNat count ∧
      Delivered memory s (write k memory s ptr nbytes).2 ptr count [.done count] ∧
      count ≤ nbytes.toNat ∧ (0 < nbytes.toNat → 0 < count)) ∨
    ∃ errno, k.outcome s.calls nbytes.toNat = .fail errno ∧
      (write k memory s ptr nbytes).1 = -1 ∧ (write k memory s ptr nbytes).2.errno = errno ∧
      Delivered memory s (write k memory s ptr nbytes).2 ptr 0 [.fail errno] := by
  unfold write
  cases answer : k.outcome s.calls nbytes.toNat with
  | done count =>
      obtain ⟨asked, some⟩ := k.ranged _ _ _ answer
      exact Or.inl ⟨count, rfl, ⟨rfl, rfl⟩, asked, some⟩
  | fail errno => exact Or.inr ⟨errno, rfl, rfl, rfl, ⟨rfl, by simp⟩⟩

/-! ## The loops -/

theorem failed_append {calls more : List Outcome} :
    Failed (calls ++ more) ↔ Failed calls ∨ Failed more := by
  simp only [Failed, List.mem_append, exists_or]

theorem not_failed_nil : ¬ Failed [] := by
  rintro ⟨code, member⟩
  cases member

theorem not_failed_done (count : Nat) : ¬ Failed [.done count] := by
  rintro ⟨code, member⟩
  cases List.mem_singleton.mp member

theorem not_failed_interrupt : ¬ Failed [.fail .EINTR] := by
  rintro ⟨code, member⟩
  cases List.mem_singleton.mp member

/-- How the loop of `readn` ends with `nleft` of `n` to go: it has received some bytes,
and a call failed, or it received all of them, or all there were. -/
structure ReadnEnds (k : ReadCalls) (n nleft : UInt64) (ptr : Nat) (s : Reader) (ret : Int64)
    (s' : Reader) (count : Nat) (calls : List Outcome) : Prop where
  moved : Received s s' ptr count calls
  within : count ≤ nleft.toNat
  ended : (ret = -1 ∧ Failed calls ∧ ¬ k.Steady) ∨
    (ret = Int64.ofNat (n.toNat - nleft.toNat + count) ∧ ¬ Failed calls ∧
      (count = nleft.toNat ∨ count = s.stream.length))

structure WritenEnds (k : WriteCalls) (memory : Buffer) (n nleft : UInt64) (ptr : Nat)
    (s : Writer) (ret : Int64) (s' : Writer) (count : Nat) (calls : List Outcome) : Prop where
  moved : Delivered memory s s' ptr count calls
  ended : (ret = -1 ∧ Failed calls ∧ ¬ k.Steady) ∨
    (ret = Int64.ofNat n.toNat ∧ ¬ Failed calls ∧ count = nleft.toNat)

/-- A call that did not fail, before the rest of the loop. -/
theorem ReadnEnds.after {k : ReadCalls} {n nleft : UInt64} {ptr count : Nat} {s s₁ s' : Reader}
    {ret : Int64} {calls : List Outcome} (moved : Received s s₁ ptr count calls)
    (fine : ¬ Failed calls) (within : count ≤ nleft.toNat) (le : nleft.toNat ≤ n.toNat)
    {count' : Nat} {calls' : List Outcome}
    (rest : ReadnEnds k n (nleft - (Int64.ofNat count).toUInt64) (ptr + count) s₁ ret s' count'
      calls') :
    ReadnEnds k n nleft ptr s ret s' (count + count') (calls ++ calls') := by
  have left := toNat_sub_ssize within
  have room := moved.count_le
  obtain ⟨moved', within', ended⟩ := rest
  rw [left] at within' ended
  rw [moved.stream, List.length_drop] at ended
  refine ⟨moved.trans moved', by omega, ?_⟩
  rcases ended with ⟨rfl, failed⟩ | ⟨rfl, fine', full⟩
  · exact Or.inl ⟨rfl, failed_append.mpr (Or.inr failed.1), failed.2⟩
  · refine Or.inr ⟨?_, fun failed => (failed_append.mp failed).elim fine fine', by omega⟩
    congr 1
    omega

theorem WritenEnds.after {k : WriteCalls} {memory : Buffer} {n nleft : UInt64} {ptr count : Nat}
    {s s₁ s' : Writer} {ret : Int64} {calls : List Outcome}
    (moved : Delivered memory s s₁ ptr count calls) (fine : ¬ Failed calls)
    (within : count ≤ nleft.toNat) {count' : Nat} {calls' : List Outcome}
    (rest : WritenEnds k memory n (nleft - (Int64.ofNat count).toUInt64) (ptr + count) s₁ ret s'
      count' calls') :
    WritenEnds k memory n nleft ptr s ret s' (count + count') (calls ++ calls') := by
  have left := toNat_sub_ssize within
  obtain ⟨moved', ended⟩ := rest
  rw [left] at ended
  refine ⟨moved.trans moved', ?_⟩
  rcases ended with ⟨rfl, failed⟩ | ⟨rfl, fine', full⟩
  · exact Or.inl ⟨rfl, failed_append.mpr (Or.inr failed.1), failed.2⟩
  · exact Or.inr ⟨rfl, fun failed => (failed_append.mp failed).elim fine fine', by omega⟩

/-- **What `readn` has done when it ends.** -/
theorem readnLoop_spec {k : ReadCalls} {n : UInt64} (fits : n.toNat < 2 ^ 63) (fuel : Nat) :
    ∀ {nleft : UInt64} {ptr : Nat} {s : Reader} {ret : Int64} {s' : Reader},
      nleft.toNat ≤ n.toNat → readnLoop k n fuel nleft ptr s = some (ret, s') →
      ∃ count calls, ReadnEnds k n nleft ptr s ret s' count calls := by
  induction fuel with
  | zero => intro nleft ptr s ret s' le run; cases run
  | succ fuel ih =>
      intro nleft ptr s ret s' le run
      rw [readnLoop] at run
      by_cases more : nleft > 0
      swap
      · -- nothing left to ask for
        rw [if_neg more] at run
        obtain ⟨rfl, rfl⟩ := Prod.mk.inj (Option.some.inj run)
        have zero : nleft.toNat = 0 :=
          Nat.eq_zero_of_not_pos fun pos => more (UInt64.lt_iff_toNat_lt.mpr pos)
        exact ⟨0, [], .refl _ _, Nat.zero_le _,
          Or.inr ⟨ssize_sub le, not_failed_nil, Or.inl zero.symm⟩⟩
      rw [if_pos more] at run
      have asked : 0 < nleft.toNat := UInt64.lt_iff_toNat_lt.mp more
      rcases read_cases k s ptr nleft with ⟨count, value, moved, within, some⟩ |
        ⟨errno, answer, value, set, moved⟩
      · have small : count < 2 ^ 63 := by omega
        simp only [value, if_neg (ssize_not_neg small), ssize_eq_zero small] at run
        by_cases none : count = 0
        · -- end of file
          rw [if_pos none] at run
          obtain ⟨rfl, rfl⟩ := Prod.mk.inj (Option.some.inj run)
          subst none
          have ended : 0 = s.stream.length := Eq.symm (Nat.eq_zero_of_not_pos fun left =>
            Nat.lt_irrefl 0 (some asked left))
          exact ⟨0, _, moved, Nat.zero_le _,
            Or.inr ⟨ssize_sub le, not_failed_done 0, Or.inr ended⟩⟩
        · rw [if_neg none, Int64.toInt_ofNat_of_lt small, Int.toNat_natCast] at run
          have left := toNat_sub_ssize within
          obtain ⟨count', calls, rest⟩ := ih (by rw [left]; omega) run
          exact ⟨_, _, rest.after moved (not_failed_done count) within le⟩
      · simp only [value, show (-1 : Int64) < 0 from by decide, if_true, set] at run
        cases errno with
        | EINTR =>
            -- the patched count of 0 changes nothing
            have left := toNat_sub_ssize (Nat.zero_le nleft.toNat)
            obtain ⟨count', calls, rest⟩ :=
              ih (show (nleft - (Int64.ofNat 0).toUInt64).toNat ≤ n.toNat by omega) run
            exact ⟨_, _, rest.after moved not_failed_interrupt (Nat.zero_le _) le⟩
        | other code =>
            obtain ⟨rfl, rfl⟩ := Prod.mk.inj (Option.some.inj run)
            exact ⟨0, _, moved, Nat.zero_le _,
              Or.inl ⟨rfl, ⟨code, List.mem_singleton_self _⟩, fun steady => steady _ _ _ _ answer⟩⟩

/-- **What `writen` has done when it ends.** -/
theorem writenLoop_spec {k : WriteCalls} {memory : Buffer} {n : Int64}
    (fits : n.toUInt64.toNat < 2 ^ 63) (fuel : Nat) :
    ∀ {nleft : UInt64} {ptr : Nat} {s : Writer} {ret : Int64} {s' : Writer},
      nleft.toNat ≤ n.toUInt64.toNat → writenLoop k memory n fuel nleft ptr s = some (ret, s') →
      ∃ count calls, WritenEnds k memory n.toUInt64 nleft ptr s ret s' count calls := by
  induction fuel with
  | zero => intro nleft ptr s ret s' le run; cases run
  | succ fuel ih =>
      intro nleft ptr s ret s' le run
      rw [writenLoop] at run
      by_cases more : nleft ≠ 0
      swap
      · rw [if_neg more] at run
        obtain ⟨rfl, rfl⟩ := Prod.mk.inj (Option.some.inj run)
        have zero : nleft.toNat = 0 := by rw [Classical.not_not.mp more]; rfl
        refine ⟨0, [], .refl _ _, Or.inr ⟨?_, not_failed_nil, zero.symm⟩⟩
        rw [ssize_sub le, zero, Nat.sub_zero]
      rw [if_pos more] at run
      rcases write_cases k memory s ptr nleft with ⟨count, value, moved, within, -⟩ |
        ⟨errno, answer, value, set, moved⟩
      · have small : count < 2 ^ 63 := by omega
        simp only [value, if_neg (ssize_not_neg small)] at run
        rw [Int64.toInt_ofNat_of_lt small, Int.toNat_natCast] at run
        have left := toNat_sub_ssize within
        obtain ⟨count', calls, rest⟩ := ih (by rw [left]; omega) run
        exact ⟨_, _, rest.after moved (not_failed_done count) within⟩
      · simp only [value, show (-1 : Int64) < 0 from by decide, if_true, set] at run
        cases errno with
        | EINTR =>
            have left := toNat_sub_ssize (Nat.zero_le nleft.toNat)
            obtain ⟨count', calls, rest⟩ :=
              ih (show (nleft - (Int64.ofNat 0).toUInt64).toNat ≤ n.toUInt64.toNat by omega) run
            exact ⟨_, _, rest.after moved not_failed_interrupt (Nat.zero_le _)⟩
        | other code =>
            obtain ⟨rfl, rfl⟩ := Prod.mk.inj (Option.some.inj run)
            exact ⟨0, _, moved,
              Or.inl ⟨rfl, ⟨code, List.mem_singleton_self _⟩, fun steady => steady _ _ _ answer⟩⟩

/-! ## The loops end -/

theorem count_done (calls : List Outcome) (count : Nat) :
    (calls ++ [Outcome.done count]).count (.fail .EINTR) = calls.count (.fail .EINTR) := by
  rw [List.count_append, List.count_singleton, if_neg (by simp), Nat.add_zero]

theorem count_interrupt (calls : List Outcome) :
    (calls ++ [Outcome.fail .EINTR]).count (.fail .EINTR) = calls.count (.fail .EINTR) + 1 := by
  rw [List.count_append, List.count_singleton_self]

/-- The interrupts still to come and the bytes still to move bound the calls. -/
theorem readnLoop_ends {k : ReadCalls} {N : Nat} (interrupts : k.Interrupts N) {n : UInt64}
    (fits : n.toNat < 2 ^ 63) (fuel : Nat) :
    ∀ {nleft : UInt64} {ptr : Nat} {s : Reader}, nleft.toNat ≤ n.toNat →
      N - s.calls.count (.fail .EINTR) + nleft.toNat < fuel →
      ∃ result, readnLoop k n fuel nleft ptr s = some result := by
  induction fuel with
  | zero => intro nleft ptr s le enough; exact absurd enough (Nat.not_lt_zero _)
  | succ fuel ih =>
      intro nleft ptr s le enough
      rw [readnLoop]
      split
      swap
      · exact ⟨_, rfl⟩
      rcases read_cases k s ptr nleft with ⟨count, value, moved, within, -⟩ |
        ⟨errno, answer, value, set, moved⟩
      · have small : count < 2 ^ 63 := by omega
        simp only [value, if_neg (ssize_not_neg small), ssize_eq_zero small]
        split
        · exact ⟨_, rfl⟩
        · have left := toNat_sub_ssize within
          refine ih (by omega) ?_
          rw [moved.calls, left, count_done]
          omega
      · simp only [value, show (-1 : Int64) < 0 from by decide, if_true, set]
        split
        · rename_i interrupted
          subst interrupted
          have fewer := interrupts _ _ _ answer
          have left := toNat_sub_ssize (Nat.zero_le nleft.toNat)
          refine ih (show (nleft - (Int64.ofNat 0).toUInt64).toNat ≤ n.toNat by omega) ?_
          show _ + (nleft - (Int64.ofNat 0).toUInt64).toNat < fuel
          rw [moved.calls, left, count_interrupt]
          omega
        · exact ⟨_, rfl⟩

theorem writenLoop_ends {k : WriteCalls} {N : Nat} (interrupts : k.Interrupts N) {memory : Buffer}
    {n : Int64} (fits : n.toUInt64.toNat < 2 ^ 63) (fuel : Nat) :
    ∀ {nleft : UInt64} {ptr : Nat} {s : Writer}, nleft.toNat ≤ n.toUInt64.toNat →
      N - s.calls.count (.fail .EINTR) + nleft.toNat < fuel →
      ∃ result, writenLoop k memory n fuel nleft ptr s = some result := by
  induction fuel with
  | zero => intro nleft ptr s le enough; exact absurd enough (Nat.not_lt_zero _)
  | succ fuel ih =>
      intro nleft ptr s le enough
      rw [writenLoop]
      by_cases more : nleft ≠ 0
      swap
      · exact ⟨_, if_neg more⟩
      rw [if_pos more]
      have asked : 0 < nleft.toNat := Nat.pos_of_ne_zero fun zero =>
        more (UInt64.toNat_inj.mp zero)
      rcases write_cases k memory s ptr nleft with ⟨count, value, moved, within, some⟩ |
        ⟨errno, answer, value, set, moved⟩
      · have small : count < 2 ^ 63 := by omega
        have progress := some asked
        have left := toNat_sub_ssize within
        simp only [value, if_neg (ssize_not_neg small)]
        refine ih (by omega) ?_
        rw [moved.calls, left, count_done]
        omega
      · simp only [value, show (-1 : Int64) < 0 from by decide, if_true, set]
        split
        · rename_i interrupted
          subst interrupted
          have fewer := interrupts _ _ answer
          have left := toNat_sub_ssize (Nat.zero_le nleft.toNat)
          refine ih (show (nleft - (Int64.ofNat 0).toUInt64).toNat ≤ n.toUInt64.toNat by omega) ?_
          show _ + (nleft - (Int64.ofNat 0).toUInt64).toNat < fuel
          rw [moved.calls, left, count_interrupt]
          omega
        · exact ⟨_, rfl⟩

/-! ## A single call -/

theorem readn_ends {k : ReadCalls} {N : Nat} (interrupts : k.Interrupts N) (n : Size) (s : Reader)
    {fuel : Nat} (enough : N + n.val.toNat < fuel) : ∃ result, readn k fuel n.val s = some result :=
  readnLoop_ends interrupts n.fits fuel (Nat.le_refl _) (by omega)

theorem writen_ends {k : WriteCalls} {N : Nat} (interrupts : k.Interrupts N) (memory : Buffer)
    (n : Size) (s : Writer) {fuel : Nat} (enough : N + n.val.toNat < fuel) :
    ∃ result, writen k fuel memory n.val.toInt64 s = some result :=
  writenLoop_ends interrupts n.fits fuel (Nat.le_refl _) (by rw [UInt64.toUInt64_toInt64]; omega)

/-- `readn` answers -1 exactly if one of its calls failed. -/
theorem readn_failed {k : ReadCalls} {n : Size} {fuel : Nat} {s s' : Reader} {ret : Int64}
    (run : readn k fuel n.val s = some (ret, s')) :
    ∃ calls, s'.calls = s.calls ++ calls ∧ (ret = -1 ↔ Failed calls) := by
  obtain ⟨count, calls, ends⟩ := readnLoop_spec n.fits fuel (Nat.le_refl _) run
  refine ⟨calls, ends.moved.calls, ?_⟩
  rcases ends.ended with ⟨rfl, failed, -⟩ | ⟨rfl, fine, -⟩
  · exact iff_of_true rfl failed
  · have small : n.val.toNat - n.val.toNat + count < 2 ^ 63 := by
      have := ends.within
      have := n.fits
      omega
    exact iff_of_false (ssize_ne_neg_one small) fine

theorem writen_failed {k : WriteCalls} {memory : Buffer} {n : Size} {fuel : Nat} {s s' : Writer}
    {ret : Int64} (run : writen k fuel memory n.val.toInt64 s = some (ret, s')) :
    ∃ calls, s'.calls = s.calls ++ calls ∧ (ret = -1 ↔ Failed calls) := by
  obtain ⟨count, calls, ends⟩ := writenLoop_spec n.fits fuel (Nat.le_refl _) run
  refine ⟨calls, ends.moved.calls, ?_⟩
  rcases ends.ended with ⟨rfl, failed, -⟩ | ⟨rfl, fine, -⟩
  · exact iff_of_true rfl failed
  · exact iff_of_false (ssize_ne_neg_one n.fits) fine

/-- **`Readn` without failures**: as much of the stream as was asked for, or all of it. -/
theorem Readn_steady {k : ReadCalls} (steady : k.Steady) {N : Nat} (interrupts : k.Interrupts N)
    (n : Size) (s : Reader) {fuel : Nat} (enough : N + n.val.toNat < fuel) :
    ∃ errno calls, Readn k fuel n.val s =
      some (.ok (Int64.ofNat (min n.val.toNat s.stream.length),
        { stream := s.stream.drop n.val.toNat
          memory := s.memory.store 0 (s.stream.take n.val.toNat)
          errno, calls })) := by
  obtain ⟨⟨ret, s'⟩, run⟩ := readn_ends interrupts n s enough
  obtain ⟨count, calls, moved, within, ended⟩ := readnLoop_spec n.fits fuel (Nat.le_refl _) run
  refine ⟨s'.errno, s'.calls, ?_⟩
  rcases ended with ⟨-, -, unsteady⟩ | ⟨rfl, -, full⟩
  · exact absurd steady unsteady
  have room := moved.count_le
  have most : count = min n.val.toNat s.stream.length := by omega
  have small : min n.val.toNat s.stream.length < 2 ^ 63 := by
    have := n.fits
    omega
  have dropped : s'.stream = s.stream.drop n.val.toNat := by
    rw [moved.stream, most, ← List.drop_eq_drop_min]
  have stored : s'.memory = s.memory.store 0 (s.stream.take n.val.toNat) := by
    rw [moved.memory, most, ← List.take_eq_take_min]
  rw [Readn, run, Option.map_some, Nat.sub_self, Nat.zero_add, most, ← dropped, ← stored]
  exact congrArg some (if_neg (ssize_not_neg small))

/-- **`Writen` without failures** sends the whole message. -/
theorem Writen_steady {k : WriteCalls} (steady : k.Steady) {N : Nat}
    (interrupts : k.Interrupts N) (memory : Buffer) (n : Size) (s : Writer) {fuel : Nat}
    (enough : N + n.val.toNat < fuel) :
    ∃ errno calls, Writen k fuel memory n.val s =
      some (.ok { sent := s.sent ++ memory.load 0 n.val.toNat, errno, calls }) := by
  obtain ⟨⟨ret, s'⟩, run⟩ := writen_ends interrupts memory n s enough
  obtain ⟨count, calls, moved, ended⟩ := writenLoop_spec n.fits fuel (Nat.le_refl _) run
  refine ⟨s'.errno, s'.calls, ?_⟩
  rcases ended with ⟨-, -, unsteady⟩ | ⟨rfl, -, full⟩
  · exact absurd steady unsteady
  have sent : s'.sent = s.sent ++ memory.load 0 n.val.toNat := by
    rw [moved.sent, full, UInt64.toUInt64_toInt64]
  have whole : (Int64.ofNat n.val.toNat).toUInt64 = n.val := by
    rw [← ssize_of_size, UInt64.toUInt64_toInt64]
  rw [Writen, run, Option.map_some, UInt64.toUInt64_toInt64, ← sent]
  exact congrArg some (if_neg (Classical.not_not.mpr whole))

/-! ## Messages -/

/-- A message in the sender's memory. -/
structure Message where
  memory : Buffer
  size : Size

def Message.bytes (m : Message) : List UInt8 := m.memory.load 0 m.size.val.toNat

@[simp] theorem Message.length_bytes (m : Message) : m.bytes.length = m.size.val.toNat := by
  simp [Message.bytes]

/-- `Writen` for each message in turn. -/
def sendAll (k : WriteCalls) (fuel : Nat) : List Message → Writer → Option (Except Exit Writer)
  | [], s => some (.ok s)
  | m :: messages, s =>
      match Writen k fuel m.memory m.size.val s with
      | some (.ok s) => sendAll k fuel messages s
      | stopped => stopped

/-- `Readn` for each size in turn, into a buffer of its own: what it returned and what
the buffer then holds. -/
def receiveAll (k : ReadCalls) (fuel : Nat) :
    List (Size × Buffer) → Reader → Option (Except Exit (List (Int64 × Buffer) × Reader))
  | [], s => some (.ok ([], s))
  | (size, memory) :: requests, s =>
      match Readn k fuel size.val { s with memory } with
      | some (.ok (ret, s)) =>
          (receiveAll k fuel requests s).map
            (Except.map fun (got, s') => ((ret, s.memory) :: got, s'))
      | some (.error e) => some (.error e)
      | none => none

/-- Enough fuel for each of the messages. -/
def Fuelled (N fuel : Nat) (messages : List Message) : Prop :=
  ∀ m ∈ messages, N + m.size.val.toNat < fuel

theorem sendAll_steady {k : WriteCalls} (steady : k.Steady) {N : Nat}
    (interrupts : k.Interrupts N) {fuel : Nat} (messages : List Message) :
    ∀ s : Writer, Fuelled N fuel messages →
      ∃ errno calls, sendAll k fuel messages s =
        some (.ok { sent := s.sent ++ messages.flatMap Message.bytes, errno, calls }) := by
  induction messages with
  | nil => exact fun s _ => ⟨s.errno, s.calls, by simp [sendAll]⟩
  | cons m messages ih =>
      intro s enough
      obtain ⟨errno, calls, one⟩ :=
        Writen_steady steady interrupts m.memory m.size s (enough m List.mem_cons_self)
      obtain ⟨errno', calls', rest⟩ := ih { sent := s.sent ++ m.bytes, errno, calls }
        fun m member => enough m (List.mem_cons_of_mem _ member)
      refine ⟨errno', calls', ?_⟩
      simp only [sendAll, one]
      rw [show m.memory.load 0 m.size.val.toNat = m.bytes from rfl, rest, List.flatMap_cons,
        List.append_assoc]

/-- What is read of a stream that begins with the messages. -/
theorem receiveAll_steady {k : ReadCalls} (steady : k.Steady) {N : Nat}
    (interrupts : k.Interrupts N) {fuel : Nat} (jobs : List (Message × Buffer)) :
    ∀ (s : Reader) (after : List UInt8), Fuelled N fuel (jobs.map Prod.fst) →
      s.stream = (jobs.map Prod.fst).flatMap Message.bytes ++ after →
      ∃ s', receiveAll k fuel (jobs.map fun job => (job.1.size, job.2)) s =
        some (.ok (jobs.map fun job => (job.1.size.val.toInt64, job.2.store 0 job.1.bytes), s')) ∧
        s'.stream = after := by
  induction jobs with
  | nil => exact fun s after _ stream => ⟨s, rfl, stream⟩
  | cons job jobs ih =>
      obtain ⟨m, buffer⟩ := job
      intro s after enough stream
      obtain ⟨errno, calls, one⟩ := Readn_steady steady interrupts m.size
        { s with memory := buffer } (enough m List.mem_cons_self)
      have next : s.stream = m.bytes ++ ((jobs.map Prod.fst).flatMap Message.bytes ++ after) := by
        rw [stream, List.map_cons, List.flatMap_cons, List.append_assoc]
      have size := m.length_bytes
      have whole : min m.size.val.toNat s.stream.length = m.size.val.toNat := by
        rw [next, List.length_append, size]
        omega
      have taken : s.stream.take m.size.val.toNat = m.bytes := by
        rw [next, ← size, List.take_left]
      have dropped : s.stream.drop m.size.val.toNat =
          (jobs.map Prod.fst).flatMap Message.bytes ++ after := by
        rw [next, ← size, List.drop_left]
      simp only [whole, taken, dropped, ← ssize_of_size] at one
      obtain ⟨s', rest, left⟩ := ih
        { stream := _, memory := buffer.store 0 m.bytes, errno, calls } after
        (fun m member => enough m (List.mem_cons_of_mem _ member)) rfl
      refine ⟨s', ?_, left⟩
      simp only [List.map_cons, receiveAll, one, rest]
      rfl

/-- The bytes stand at the start of `after`, which otherwise is `before`. -/
structure Placed (before after : Buffer) (bytes : List UInt8) : Prop where
  held : after.load 0 bytes.length = bytes
  rest : ∀ i, bytes.length ≤ i → after i = before i

theorem placed_store (memory : Buffer) (bytes : List UInt8) :
    Placed memory (memory.store 0 bytes) bytes :=
  ⟨memory.load_store 0 bytes, fun _ past =>
    memory.store_outside (Or.inr (by rwa [Nat.zero_add]))⟩

/-- A `Readn` into the job's buffer got its message. -/
structure Arrived (job : Message × Buffer) (got : Int64 × Buffer) : Prop where
  ret : got.1.toInt = job.1.size.val.toNat
  placed : Placed job.2 got.2 job.1.bytes

/-- **`Readn` undoes `Writen`.**  Both loops end, and answer -1 exactly if a call fails
with another errno than `EINTR`; where none does, every message arrives whole and in its
place, and the end of the stream cuts a request short at the bytes there are. -/
theorem readn_inverts_writen {w : WriteCalls} {r : ReadCalls} {N : Nat} (wN : w.Interrupts N)
    (rN : r.Interrupts N) :
    (∀ (memory : Buffer) (n : Size) (s : Writer),
      (∀ fuel, N + n.val.toNat < fuel →
        ∃ result, writen w fuel memory n.val.toInt64 s = some result) ∧
      ∀ fuel ret s', writen w fuel memory n.val.toInt64 s = some (ret, s') →
        ∃ calls, s'.calls = s.calls ++ calls ∧ (ret = -1 ↔ Failed calls)) ∧
    (∀ (n : Size) (s : Reader),
      (∀ fuel, N + n.val.toNat < fuel → ∃ result, readn r fuel n.val s = some result) ∧
      ∀ fuel ret s', readn r fuel n.val s = some (ret, s') →
        ∃ calls, s'.calls = s.calls ++ calls ∧ (ret = -1 ↔ Failed calls)) ∧
    (w.Steady → r.Steady →
      ∀ (jobs : List (Message × Buffer)) (out : Writer) (inp : Reader) (fuel : Nat),
      Fuelled N fuel (jobs.map Prod.fst) → out.sent = [] →
      ∃ out' got inp', sendAll w fuel (jobs.map Prod.fst) out = some (.ok out') ∧
        receiveAll r fuel (jobs.map fun job => (job.1.size, job.2))
          { inp with stream := out'.sent } = some (.ok (got, inp')) ∧
        List.Forall₂ Arrived jobs got ∧ inp'.stream = []) ∧
    (r.Steady → ∀ (n : Size) (s : Reader) (fuel : Nat), N + n.val.toNat < fuel →
      s.stream.length < n.val.toNat →
      ∃ ret s', Readn r fuel n.val s = some (.ok (ret, s')) ∧ ret.toInt = s.stream.length ∧
        Placed s.memory s'.memory s.stream ∧ s'.stream = []) := by
  refine ⟨fun memory n s => ⟨fun _ => writen_ends wN memory n s, fun _ _ _ => writen_failed⟩,
    fun n s => ⟨fun _ => readn_ends rN n s, fun _ _ _ => readn_failed⟩, ?messages, ?endOfFile⟩
  case messages =>
    intro wSteady rSteady jobs out inp fuel enough fresh
    obtain ⟨errno, calls, sent⟩ := sendAll_steady wSteady wN (jobs.map Prod.fst) out enough
    rw [fresh, List.nil_append] at sent
    obtain ⟨inp', received, stream⟩ := receiveAll_steady rSteady rN jobs
      { inp with stream := (jobs.map Prod.fst).flatMap Message.bytes } [] enough
      (List.append_nil _).symm
    refine ⟨_, _, inp', sent, received, ?_, stream⟩
    refine List.forall₂_map_right_iff.mpr (List.forall₂_same.mpr fun job _ => ?_)
    refine ⟨?_, placed_store job.2 job.1.bytes⟩
    show job.1.size.val.toInt64.toInt = job.1.size.val.toNat
    rw [ssize_of_size, Int64.toInt_ofNat_of_lt job.1.size.fits]
  case endOfFile =>
    intro steady n s fuel enough short
    obtain ⟨errno, calls, read⟩ := Readn_steady steady rN n s enough
    have small := n.fits
    rw [Nat.min_eq_right (Nat.le_of_lt short), List.take_of_length_le (Nat.le_of_lt short),
      List.drop_of_length_le (Nat.le_of_lt short)] at read
    refine ⟨_, _, read, Int64.toInt_ofNat_of_lt (by omega), placed_store s.memory s.stream, rfl⟩

/-! Two kernels that interrupt the first call, and then move one byte and two at a time. -/

def oneByOne : WriteCalls where
  outcome := fun before asked => if before = [] then .fail .EINTR else .done (min 1 asked)
  ranged := by
    intro before asked count answer
    split at answer
    · cases answer
    · cases answer
      omega

def twoByTwo : ReadCalls where
  outcome := fun before asked left =>
    if before = [] then .fail .EINTR else .done (min 2 (min asked left))
  ranged := by
    intro before asked left count answer
    split at answer
    · cases answer
    · cases answer
      omega

theorem oneByOne_interrupts : oneByOne.Interrupts 1 := by
  intro before asked answer
  by_cases first : before = []
  · simp [first]
  · simp [oneByOne, first] at answer

theorem twoByTwo_interrupts : twoByTwo.Interrupts 1 := by
  intro before asked left answer
  by_cases first : before = []
  · simp [first]
  · simp [twoByTwo, first] at answer

theorem oneByOne_steady : oneByOne.Steady := by
  intro before asked code answer
  by_cases first : before = [] <;> simp [oneByOne, first] at answer

theorem twoByTwo_steady : twoByTwo.Steady := by
  intro before asked left code answer
  by_cases first : before = [] <;> simp [twoByTwo, first] at answer

/-- The bytes 7, 8, 9. -/
def sevenEightNine : Message := ⟨fun i => 7 + UInt8.ofNat i, 3, by decide⟩

theorem readn_inverts_writen_interrupted :
    ∃ out got inp,
      sendAll oneByOne 5 [sevenEightNine] ⟨[], .EINTR, []⟩ = some (.ok out) ∧
      receiveAll twoByTwo 5 [(⟨3, by decide⟩, fun _ => 0)]
        ⟨out.sent, fun _ => 0, .EINTR, []⟩ = some (.ok (got, inp)) ∧
      got.map (fun g => (g.1.toInt, g.2.load 0 3)) = [(3, [7, 8, 9])] ∧ inp.stream = [] := by
  obtain ⟨-, -, messages, -⟩ := readn_inverts_writen oneByOne_interrupts twoByTwo_interrupts
  have enough : Fuelled 1 5 [sevenEightNine] := by
    intro m member
    rw [List.mem_singleton.mp member]
    decide
  obtain ⟨out, got, inp, sent, received, arrived, stream⟩ :=
    messages oneByOne_steady twoByTwo_steady [(sevenEightNine, fun _ => 0)] ⟨[], .EINTR, []⟩
      ⟨[], fun _ => 0, .EINTR, []⟩ 5 enough rfl
  refine ⟨out, got, inp, sent, received, ?_, stream⟩
  obtain ⟨g, rest, one, none, rfl⟩ := List.forall₂_cons_left_iff.mp arrived
  obtain rfl := List.forall₂_nil_left_iff.mp none
  have bytes : g.2.load 0 3 = [7, 8, 9] := one.placed.held.trans (by decide)
  have ret : g.1.toInt = 3 := one.ret.trans (by decide)
  rw [List.map_cons, List.map_nil, bytes, ret]

end Codesnip.Unit.SysCallWrap
