/-
# Net.ThreadPools -- the server `network_area::ThreadPools` and its handler `Doit`

The main thread accepts a connection and submits `Doit` with its descriptor to a pool of
eight.  What each client sends before it closes, and how the kernel cuts it into reads,
is fixed by the `Peer` of its descriptor.

`Doit` reads eight bytes with `Readn`, prints what is then in `buff`, and leaves its loop
if `Readn` returned 0.  `Readn` reads a descriptor and a buffer that no other thread
uses, so it is one step.  Neither `Doit` nor the main thread closes the descriptor.
-/
import Codesnip.Net.Pool

namespace Codesnip.Net.ThreadPools

open Codesnip.Common
open Codesnip.Theory
open Codesnip.Theory.Transition (System)
open Codesnip.Unit.SysCallWrap (ReadCalls Reader Readn)

set_option autoImplicit false
set_option linter.dupNamespace false

structure Peer where
  stream : List UInt8
  calls : ReadCalls

structure Main where
  /-- Accepted and not yet submitted. -/
  connfd : Option Int
  peers : Int → Peer

/-- The statement of `Doit` that comes next. -/
inductive Pc where
  | Readn
  | printf (ret : Int32)
  | test (ret : Int32)
  deriving DecidableEq, Repr

/-- A call of `Doit`; `buff` is the reader's memory. -/
structure Doit where
  connfd : Int
  pc : Pc
  reader : Reader

/-- How many `read`s a `Readn` is given, and what `buff` holds at the call of `Doit`. -/
structure Answers where
  fuel : Nat
  memory : Buffer

/-- The number that `%ld` prints of `buff`. -/
def buffNum (buff : Buffer) : Int :=
  (UInt64.ofNat (LittleEndian.value (buff.load 0 8))).toInt64.toInt

def Doit.step (h : Doit) (e : Answers) (main : Main) :
    Option (Except Ended (Pool.Moved Main Doit)) :=
  match h.pc with
  | .Readn =>
      (Readn (main.peers h.connfd).calls e.fuel 8 h.reader).map fun answer =>
        match answer with
        | .error exit => .error (.exit exit)
        | .ok (count, reader) =>
            let ret := count.toInt32
            if ret < 0 then .error (.exit ⟨"", -1⟩)
            else
              .ok
                { main
                  event := some (.read h.connfd (h.reader.stream.take count.toInt.toNat))
                  next := some { h with pc := .printf ret, reader } }
  | .printf ret =>
      some (.ok
        { main
          event := some (.report h.connfd (buffNum h.reader.memory))
          next := some { h with pc := .test ret } })
  | .test ret =>
      if ret = 0 then some (.ok { main, event := some (.handled h.connfd), next := none })
      else some (.ok { main, event := none, next := some { h with pc := .Readn } })

/-- The steps of `Doit`, one for each way a statement can go. -/
inductive Doit.Stepped (h : Doit) (main : Main) : Except Ended (Pool.Moved Main Doit) → Prop where
  | failed {exit : Unit.SysCallWrap.Exit} (pc : h.pc = .Readn) :
      Stepped h main (.error (.exit exit))
  | read {bytes : List UInt8} {ret : Int32} {reader : Reader} (pc : h.pc = .Readn) :
      Stepped h main
        (.ok ⟨main, some (.read h.connfd bytes), some { h with pc := .printf ret, reader }⟩)
  | print {ret : Int32} {num : Int} (pc : h.pc = .printf ret) :
      Stepped h main (.ok ⟨main, some (.report h.connfd num), some { h with pc := .test ret }⟩)
  | leave (pc : h.pc = .test 0) : Stepped h main (.ok ⟨main, some (.handled h.connfd), none⟩)
  | again {ret : Int32} (pc : h.pc = .test ret) (ne : ret ≠ 0) :
      Stepped h main (.ok ⟨main, none, some { h with pc := .Readn }⟩)

theorem Doit.stepped_of_step {e : Answers} {h : Doit} {main : Main}
    {x : Except Ended (Pool.Moved Main Doit)} (step : h.step e main = some x) :
    h.Stepped main x := by
  unfold Doit.step at step
  split at step
  · rename_i pc
    obtain ⟨answer, -, rfl⟩ := Option.map_eq_some_iff.mp step
    split
    · exact .failed pc
    · simp only
      split
      · exact .failed pc
      · exact .read pc
  · cases step
    exact .print ‹_›
  · rename_i ret pc
    split at step <;> rename_i zero <;> cases step
    · subst zero
      exact .leave pc
    · exact .again pc zero

def doit : Pool.Handler Main Doit Answers where
  fd := Doit.connfd
  enter := fun e connfd main =>
    { connfd
      pc := .Readn
      reader :=
        { stream := (main.peers connfd).stream
          memory := e.memory
          errno := .other 0
          calls := [] } }
  step := fun e h main => h.step e main
  fd_enter := fun _ _ _ => rfl
  fd_step := fun e h main moved step => by
    cases Doit.stepped_of_step step <;> simp [Event.fd]

abbrev threads : Nat := 8

abbrev Server := Pool.State threads Main Doit

inductive Action where
  | accept (answer : Except Int32 Int)
  | submit
  | notify (woken : Option (Fin threads))
  | spurious (w : Fin threads)
  | work (w : Fin threads) (e : Answers)

namespace Server

/-- `pool.Submit(Doit, un->connfd)`, up to its `notify_one`. -/
def submit (s : Server) : Option Server :=
  s.main.connfd.bind fun connfd => (s.act (.enqueue () connfd)).map fun s =>
    { s with main := { s.main with connfd := none } }

/-- `un->connfd = Accept(..)`. -/
def accept (answer : Except Int32 Int) (s : Server) : Except Ended Server := do
  let connfd ← Accept answer
  pure { s with
    main := { s.main with connfd := some connfd }
    log := s.log ++ [.accept connfd] }

def step (listenfd : Int) (s : Server) : Action → Option (Except Ended Server)
  | .accept answer =>
      if s.main.connfd = none ∧ s.pool.submits () = .outside ∧
          ∀ connfd ∈ answer.toOption, Fresh listenfd connfd s.log then
        some (s.accept answer)
      else none
  | .submit => s.submit.map .ok
  | .notify woken => (s.act (.notify () woken)).map .ok
  | .spurious w => (s.act (.spurious w)).map .ok
  | .work w e => s.work doit e w

/-- The pool is initialised. -/
def start (peers : Int → Peer) : Server := Pool.State.start threads Doit ⟨none, peers⟩

end Server

def system (listenfd : Int) : System (Except Ended Server) Action :=
  { Init := fun s => ∃ peers, s = .ok (Server.start peers)
    step := live (Server.step listenfd) }

/-! ## What is released -/

/-- A call of `Doit` leaves its loop. -/
def Doit.Eof (h : Doit) : Prop := h.pc = .test 0

theorem doit_closeless : Pool.Closeless doit Doit.Eof where
  moved step := by
    cases Doit.stepped_of_step step with
    | again pc ne => simp [Doit.Eof, pc, ne]
    | _ => simp_all [Doit.Eof, Pool.Plain]
  returned step := by
    cases Doit.stepped_of_step step with
    | leave pc => exact .inl ⟨pc, rfl⟩
  ended step := by
    cases Doit.stepped_of_step step with
    | @failed exit pc => exact ⟨by simp [Doit.Eof, pc], exit, rfl⟩

namespace Server

variable {listenfd : Int} {s s' : Server} {a : Action}

/-- A worker returns from a `Doit` that has read end of file. -/
def Finishes (s : Server) : Action → Prop
  | .work w _ => Pool.State.Finishes Doit.Eof s w
  | _ => False

/-- Only accepted descriptors are on their way. -/
structure Inv (s : Server) : Prop where
  serves : s.Serves doit (Known s.log)
  connfd : ∀ fd ∈ s.main.connfd, Known s.log fd

theorem accept_ok {answer : Except Int32 Int} (accept : s.accept answer = .ok s') :
    ∃ connfd, answer = .ok connfd ∧ s' = { s with
      main := { s.main with connfd := some connfd }
      log := s.log ++ [.accept connfd] } := by
  cases answer with
  | ok connfd => exact ⟨connfd, rfl, (Except.ok.inj accept).symm⟩
  | error errno => cases accept

/-- `Doit` does not touch the main thread's data. -/
theorem worked_main {w : Fin threads} {e : Answers} (worked : s.Worked doit e w (.ok s')) :
    s'.main = s.main := by
  cases worked with
  | moved running call step => cases Doit.stepped_of_step step <;> rfl
  | returned running call step pooled => cases Doit.stepped_of_step step; rfl
  | _ => rfl

theorem Inv.act {act : Common.ThreadPool.Action threads Unit Int} (inv : s.Inv)
    (submitted : ∀ (c : Unit) (fd : Int), act = .enqueue c fd → Known s.log fd)
    (idle : ∀ w, act ≠ .worker w) (step : s.act act = some s') : s'.Inv := by
  have serves := inv.serves.act submitted idle step
  obtain ⟨-, main, log⟩ := Pool.State.act_rest step
  exact ⟨log ▸ serves, by rw [main, log]; exact inv.connfd⟩

theorem Inv.accept {answer : Except Int32 Int} (inv : s.Inv)
    (accept : s.accept answer = .ok s') : s'.Inv ∧ Pool.Notes s.log s'.log False := by
  obtain ⟨connfd, -, rfl⟩ := accept_ok accept
  refine ⟨⟨?_, fun fd same => ?_⟩, .plain _ trivial⟩
  · exact (inv.serves.mono fun _ known => known_append known _).same rfl rfl
  · exact Option.some.inj same ▸ known_accept s.log connfd

theorem Inv.work {w : Fin threads} {e : Answers} (inv : s.Inv)
    (worked : s.Worked doit e w (.ok s')) : s'.Inv := by
  obtain ⟨more, log⟩ := worked.log
  refine ⟨?_, ?_⟩
  · rw [log]
    exact (inv.serves.work worked s' rfl).mono fun _ known => known_append known more
  · rw [log, worked_main worked]
    exact fun fd member => known_append (inv.connfd fd member) more

theorem Inv.step (inv : s.Inv) (step : s.step listenfd a = some (.ok s')) :
    s'.Inv ∧ Pool.Notes s.log s'.log (s.Finishes a) := by
  cases a with
  | accept answer =>
      simp only [Server.step] at step
      split at step
      · exact inv.accept (Option.some.inj step)
      · cases step
  | submit =>
      obtain ⟨t, submitted, same⟩ := Option.map_eq_some_iff.mp step
      obtain rfl := Except.ok.inj same
      obtain ⟨connfd, here, acted⟩ := Option.bind_eq_some_iff.mp submitted
      obtain ⟨t, act, rfl⟩ := Option.map_eq_some_iff.mp acted
      have inv' := inv.act (fun _ fd same => by cases same; exact inv.connfd _ here)
        (fun w same => by cases same) act
      refine ⟨⟨inv'.serves.same rfl rfl, by simp⟩, ?_⟩
      simp only [(Pool.State.act_rest act).2.2]
      exact .nothing
  | notify woken =>
      obtain ⟨t, act, same⟩ := Option.map_eq_some_iff.mp step
      obtain rfl := Except.ok.inj same
      rw [(Pool.State.act_rest act).2.2]
      exact ⟨inv.act (fun _ fd same => by cases same) (fun w same => by cases same) act, .nothing⟩
  | spurious w =>
      obtain ⟨t, act, same⟩ := Option.map_eq_some_iff.mp step
      obtain rfl := Except.ok.inj same
      rw [(Pool.State.act_rest act).2.2]
      exact ⟨inv.act (fun _ fd same => by cases same) (fun w same => by cases same) act, .nothing⟩
  | work w e =>
      have worked := Pool.State.worked_of_work step
      exact ⟨inv.work worked, worked.notes doit_closeless inv.serves⟩

theorem step_ends {ended : Ended} (step : s.step listenfd a = some (.error ended)) :
    (∃ exit, ended = .exit exit) ∧ ¬ s.Finishes a := by
  cases a with
  | accept answer =>
      simp only [Server.step] at step
      split at step
      · cases answer with
        | ok connfd => cases step
        | error errno =>
            cases step
            exact ⟨⟨_, rfl⟩, id⟩
      · cases step
  | work w e => exact (Pool.State.worked_of_work step).ends doit_closeless
  | _ =>
      obtain ⟨t, -, same⟩ := Option.map_eq_some_iff.mp step
      cases same

/-- **`ThreadPools` releases its descriptors exactly as long as no `Doit` that has read
end of file finishes.** -/
theorem released_iff {peers : Int → Peer} {as : List Action} {y : Except Ended Server}
    (run : (system listenfd).run (.ok (start peers)) as = some y) :
    (system listenfd).Always (Holds fun s => Released (connections s.log)) (.ok (start peers)) as ↔
      (system listenfd).Steps (Turns fun s a => ¬ Finishes s a) (.ok (start peers)) as :=
  Pool.always_released_iff rfl (fun s _ _ (inv : Inv s) step => inv.step step)
    (fun _ _ _ _ step => step_ends step) ⟨.start, by simp [Pool.State.start]⟩ rfl run

end Server

end Codesnip.Net.ThreadPools
