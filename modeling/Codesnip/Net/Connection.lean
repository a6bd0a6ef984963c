/-
# Net.Connection -- what the servers of `net/net.cpp` do to their connections

A server's calls and reports are logged as `Event`s, and `connections` says what a log
amounts to, connection by connection, the newest first.  The kernel gives a descriptor
out again once it is closed, so an event belongs to the latest connection with its
descriptor (`latest`).  `handled` is logged where the code that has read the end of
file of a connection is through with it.

`Tracks fds log`: the descriptors `fds` are the open ones, each once.
-/
import Mathlib.Data.List.Perm.Basic
import Codesnip.Theory.LittleEndian
import Codesnip.Theory.Buffer
import Codesnip.Theory.Word
import Codesnip.Net.Loop

namespace Codesnip.Net

open Codesnip.Theory

set_option autoImplicit false
set_option linter.dupNamespace false

/-- `static_cast<int>(*reinterpret_cast<uint64_t*>(buf))`. -/
def num (buf : Buffer) : Int :=
  (Word.intOfUll (UInt64.ofNat (LittleEndian.value (buf.load 0 8)))).toInt

/-- An entry of `client` that is not available. -/
def held (fd : Int) : Bool := 0 ≤ fd

@[simp] theorem held_iff (fd : Int) : held fd = true ↔ 0 ≤ fd := by simp [held]

/-! ## Connections -/

inductive Event where
  | accept (connfd : Int)
  | read (fd : Int) (bytes : List UInt8)
  | report (fd : Int) (num : Int)
  | close (fd : Int)
  | handled (fd : Int)
  deriving DecidableEq, Repr

def Event.fd : Event → Int
  | .accept fd | .read fd _ | .report fd _ | .close fd | .handled fd => fd

/-- One connection: what each read returned, the numbers reported, whether its end of
file is dealt with, and how often it was closed. -/
structure Connection where
  fd : Int
  received : List (List UInt8)
  reported : List Int
  handled : Bool
  closes : Nat
  deriving DecidableEq, Repr

namespace Connection

def new (connfd : Int) : Connection := ⟨connfd, [], [], false, 0⟩

def isOpen (c : Connection) : Bool := c.closes = 0

def note (c : Connection) : Event → Connection
  | .accept _ => c
  | .read _ bytes => { c with received := c.received ++ [bytes] }
  | .report _ num => { c with reported := c.reported ++ [num] }
  | .close _ => { c with closes := c.closes + 1 }
  | .handled _ => { c with handled := true }

@[simp] theorem note_fd (c : Connection) (e : Event) : (c.note e).fd = c.fd := by
  cases e <;> rfl

end Connection

/-- The latest connection with descriptor `fd`. -/
def latest (fd : Int) (cs : List Connection) : Option Connection := cs.find? fun c => c.fd = fd

/-- Change the latest connection with descriptor `fd`. -/
def update (fd : Int) (f : Connection → Connection) : List Connection → List Connection
  | [] => []
  | c :: cs => if c.fd = fd then f c :: cs else c :: update fd f cs

def Event.apply (cs : List Connection) : Event → List Connection
  | .accept connfd => .new connfd :: cs
  | e => update e.fd (fun c => c.note e) cs

def connections (log : List Event) : List Connection := log.foldl Event.apply []

@[simp] theorem connections_nil : connections [] = [] := rfl

theorem connections_append (log more : List Event) :
    connections (log ++ more) = more.foldl Event.apply (connections log) := List.foldl_append

/-- `fd` is open: its latest connection has not been closed. -/
def Opened (fd : Int) (cs : List Connection) : Prop := ∃ c ∈ latest fd cs, c.closes = 0

instance (fd : Int) (cs : List Connection) : Decidable (Opened fd cs) :=
  inferInstanceAs (Decidable (∃ c ∈ latest fd cs, c.closes = 0))

/-- A descriptor that `accept` can return. -/
def Fresh (listenfd connfd : Int) (log : List Event) : Prop :=
  0 ≤ connfd ∧ connfd ≠ listenfd ∧ ¬ Opened connfd (connections log)

instance (listenfd connfd : Int) (log : List Event) : Decidable (Fresh listenfd connfd log) :=
  inferInstanceAs (Decidable (_ ∧ _ ∧ _))

section Update

variable {fd : Int} {f : Connection → Connection} {cs : List Connection}

theorem latest_update (keeps : ∀ c, (f c).fd = c.fd) :
    latest fd (update fd f cs) = (latest fd cs).map f := by
  induction cs with
  | nil => rfl
  | cons c cs ih =>
      by_cases same : c.fd = fd
      · simp [latest, update, same, keeps]
      · simpa [latest, update, same] using ih

theorem latest_update_ne {other : Int} (ne : other ≠ fd) (keeps : ∀ c, (f c).fd = c.fd) :
    latest other (update fd f cs) = latest other cs := by
  induction cs with
  | nil => rfl
  | cons c cs ih =>
      by_cases same : c.fd = fd
      · subst same
        simp [latest, update, keeps, ne.symm]
      · by_cases here : c.fd = other
        · subst here
          simp [latest, update, same]
        · simpa [latest, update, same, here] using ih

theorem update_of_none (none : latest fd cs = none) : update fd f cs = cs := by
  induction cs with
  | nil => rfl
  | cons c cs ih =>
      by_cases same : c.fd = fd
      · simp [latest, same] at none
      · have rest := ih (by simpa [latest, same] using none)
        simp [update, same, rest]

/-- What the latest connection is turned into, and the others as they are. -/
theorem forall_update {P : Connection → Prop} (all : ∀ c ∈ cs, P c)
    (one : ∀ c, P c → latest fd cs = some c → P (f c)) : ∀ c ∈ update fd f cs, P c := by
  induction cs with
  | nil => exact all
  | cons c cs ih =>
      obtain ⟨first, rest⟩ := List.forall_mem_cons.mp all
      by_cases same : c.fd = fd
      · have here := one c first (by simp [latest, same])
        simpa [update, same] using ⟨here, rest⟩
      · have there := ih rest fun d holds found => one d holds (by simpa [latest, same] using found)
        simpa [update, same] using ⟨first, there⟩

theorem countP_update (p : Connection → Bool) {c : Connection} (found : latest fd cs = some c) :
    (update fd f cs).countP p + (if p c then 1 else 0) =
      cs.countP p + (if p (f c) then 1 else 0) := by
  induction cs with
  | nil => cases found
  | cons d cs ih =>
      by_cases same : d.fd = fd
      · obtain rfl : d = c := by simpa [latest, same] using found
        simp only [update, same, if_true, List.countP_cons]
        omega
      · have rest := ih (by simpa [latest, same] using found)
        simp only [update, same, if_false, List.countP_cons]
        omega

theorem map_fd_update (keeps : ∀ c, (f c).fd = c.fd) :
    (update fd f cs).map Connection.fd = cs.map Connection.fd := by
  induction cs with
  | nil => rfl
  | cons c cs ih =>
      by_cases same : c.fd = fd
      · simp [update, same, keeps]
      · simpa [update, same] using ih

/-- Where no descriptor occurs twice, every connection is the latest with its own. -/
theorem latest_of_mem (distinct : (cs.map Connection.fd).Nodup) {c : Connection}
    (member : c ∈ cs) : latest c.fd cs = some c := by
  induction cs with
  | nil => cases member
  | cons d cs ih =>
      obtain ⟨gone, distinct⟩ := List.nodup_cons.mp distinct
      rcases List.mem_cons.mp member with rfl | member
      · simp [latest]
      · have ne : d.fd ≠ c.fd := fun same => gone (same ▸ List.mem_map_of_mem member)
        simpa [latest, ne] using ih distinct member

theorem update_update {g : Connection → Connection} (keeps : ∀ c, (f c).fd = c.fd) :
    update fd g (update fd f cs) = update fd (fun c => g (f c)) cs := by
  induction cs with
  | nil => rfl
  | cons c cs ih =>
      by_cases same : c.fd = fd
      · simp [update, same, keeps]
      · simpa [update, same] using ih

end Update

/-! ## What the servers log -/

theorem connections_accept (log : List Event) (connfd : Int) :
    connections (log ++ [.accept connfd]) = .new connfd :: connections log := by
  rw [connections_append]
  rfl

/-- A read that is reported. -/
theorem connections_report (log : List Event) (fd : Int) (bytes : List UInt8) (num : Int) :
    connections (log ++ [.read fd bytes, .report fd num]) =
      update fd (fun c => { c with
        received := c.received ++ [bytes]
        reported := c.reported ++ [num] }) (connections log) := by
  rw [connections_append]
  exact update_update fun c => c.note_fd (.read fd bytes)

/-- A read at the end of file. -/
theorem connections_finish (log : List Event) (fd : Int) :
    connections (log ++ [.read fd [], .close fd, .handled fd]) =
      update fd (fun c => { c with closes := c.closes + 1, handled := true })
        (update fd (fun c => { c with received := c.received ++ [[]] }) (connections log)) := by
  rw [connections_append]
  exact update_update fun c => c.note_fd (.close fd)

/-- An event that belongs to the latest connection with its descriptor. -/
theorem latest_note (log : List Event) (fd : Int) {e : Event} (here : e.fd = fd)
    (old : ∀ connfd, e ≠ .accept connfd) :
    latest fd (connections (log ++ [e])) = (latest fd (connections log)).map fun c => c.note e := by
  subst here
  rw [connections_append]
  cases e with
  | accept connfd => exact absurd rfl (old connfd)
  | _ => exact latest_update fun c => c.note_fd _

theorem latest_other (log : List Event) {e : Event} {fd : Int} (ne : fd ≠ e.fd) :
    latest fd (connections (log ++ [e])) = latest fd (connections log) := by
  rw [connections_append]
  cases e with
  | accept connfd =>
      have apart : ¬ (Connection.new connfd).fd = fd := fun same => ne same.symm
      simp [Event.apply, latest, apart]
  | _ => exact latest_update_ne ne fun c => c.note_fd _

theorem map_fd_note (log : List Event) {e : Event} (old : ∀ connfd, e ≠ .accept connfd) :
    (connections (log ++ [e])).map Connection.fd = (connections log).map Connection.fd := by
  rw [connections_append]
  cases e with
  | accept connfd => exact absurd rfl (old connfd)
  | _ => exact map_fd_update fun c => c.note_fd _

/-- `fd` has been returned by `Accept`. -/
def Known (log : List Event) (fd : Int) : Prop := ∃ c, latest fd (connections log) = some c

theorem known_of_mem {log : List Event} {c : Connection} (member : c ∈ connections log) :
    Known log c.fd :=
  Option.isSome_iff_exists.mp (List.find?_isSome.mpr ⟨c, member, by simp⟩)

theorem known_accept (log : List Event) (connfd : Int) :
    Known (log ++ [.accept connfd]) connfd := by
  rw [Known, connections_accept]
  exact ⟨.new connfd, by simp [latest, Connection.new]⟩

theorem known_append {log : List Event} {fd : Int} (known : Known log fd) (more : List Event) :
    Known (log ++ more) fd := by
  induction more generalizing log with
  | nil => simpa using known
  | cons e more ih =>
      have noted : Known (log ++ [e]) fd := by
        obtain ⟨c, found⟩ := known
        by_cases same : fd = e.fd
        · subst same
          cases e with
          | accept connfd => exact known_accept log connfd
          | _ => exact ⟨_, by rw [latest_note log _ rfl (by simp), found]; rfl⟩
        · exact ⟨c, by rw [latest_other log same, found]⟩
      simpa using ih noted

/-! ## Descriptors and connections -/

/-- `fds` are the open descriptors, and what is dealt with is closed once. -/
structure Tracks (fds : List Int) (cs : List Connection) : Prop where
  distinct : fds.Nodup
  opened : ∀ fd, fd ∈ fds ↔ Opened fd cs
  count : fds.length = cs.countP Connection.isOpen
  settled : ∀ c ∈ cs, c.closes = if c.handled then 1 else 0

/-- What is dealt with is closed exactly once, so no more descriptors are open than
connections are left to deal with. -/
def Released (cs : List Connection) : Prop :=
  (∀ c ∈ cs, c.handled = true → c.closes = 1) ∧
    cs.countP Connection.isOpen ≤ cs.countP fun c => !c.handled

theorem released_of_closed {cs : List Connection}
    (closed : ∀ c ∈ cs, c.handled = true → c.closes = 1) : Released cs := by
  refine ⟨closed, List.countP_mono_left fun c member isOpen => ?_⟩
  cases handled : c.handled with
  | false => rfl
  | true =>
      have once := closed c member handled
      simp [Connection.isOpen, once] at isOpen

namespace Tracks

variable {fds : List Int} {cs : List Connection}

theorem nil : Tracks [] [] := ⟨List.nodup_nil, by simp [Opened, latest], rfl, by simp⟩

theorem perm {fds' : List Int} (tracks : Tracks fds cs) (perm : fds.Perm fds') :
    Tracks fds' cs :=
  ⟨perm.nodup_iff.mp tracks.distinct, fun fd => perm.mem_iff.symm.trans (tracks.opened fd),
    perm.length_eq.symm.trans tracks.count, tracks.settled⟩

theorem released (tracks : Tracks fds cs) : Released cs :=
  released_of_closed fun c member handled => by simpa [handled] using tracks.settled c member

theorem accept {connfd : Int} (tracks : Tracks fds cs) (fresh : ¬ Opened connfd cs) :
    Tracks (connfd :: fds) (.new connfd :: cs) := by
  refine ⟨List.nodup_cons.mpr ⟨fun member => fresh ((tracks.opened connfd).mp member),
    tracks.distinct⟩, fun fd => ?_, ?_, ?_⟩
  · by_cases same : connfd = fd
    · simp [Opened, latest, Connection.new, same]
    · have other := tracks.opened fd
      simpa [Opened, latest, Connection.new, same, Ne.symm same] using other
  · simp [tracks.count, Connection.isOpen, Connection.new]
  · exact List.forall_mem_cons.mpr ⟨rfl, tracks.settled⟩

/-- An event that neither closes a connection nor is through with it. -/
theorem keep (fd : Int) {f : Connection → Connection} (tracks : Tracks fds cs)
    (same : ∀ c, (f c).fd = c.fd ∧ (f c).closes = c.closes ∧ (f c).handled = c.handled) :
    Tracks fds (update fd f cs) := by
  have keeps : ∀ c, (f c).fd = c.fd := fun c => (same c).1
  refine ⟨tracks.distinct, fun other => ?_, ?_, ?_⟩
  · rw [tracks.opened]
    by_cases here : other = fd
    · simp [Opened, here, latest_update keeps, (same _).2.1]
    · simp [Opened, latest_update_ne here keeps]
  · rw [tracks.count]
    cases found : latest fd cs with
    | none => rw [update_of_none found]
    | some c =>
        have counts := countP_update (f := f) Connection.isOpen found
        have isOpen : (f c).isOpen = c.isOpen := by simp [Connection.isOpen, (same c).2.1]
        rw [isOpen] at counts
        omega
  · exact forall_update tracks.settled fun c settled _ => by
      rw [(same c).2.1, (same c).2.2, settled]

/-- The end of file is dealt with and the descriptor closed. -/
theorem finish {fd : Int} (tracks : Tracks (fd :: fds) cs) :
    Tracks fds (update fd (fun c => { c with closes := c.closes + 1, handled := true }) cs) := by
  obtain ⟨gone, distinct⟩ := List.nodup_cons.mp tracks.distinct
  obtain ⟨c, found, isOpen⟩ := (tracks.opened fd).mp List.mem_cons_self
  have found : latest fd cs = some c := found
  refine ⟨distinct, fun other => ?_, ?_, ?_⟩
  · by_cases here : other = fd
    · subst here
      simp [gone, Opened, latest_update, found]
    · have others := tracks.opened other
      simpa [Opened, latest_update_ne here, here] using others
  · have counts := countP_update (f := fun c => { c with closes := c.closes + 1, handled := true })
      Connection.isOpen found
    have total := tracks.count
    simp only [Connection.isOpen, isOpen, List.length_cons] at counts total
    simp at counts
    omega
  · refine forall_update tracks.settled fun d settled latest => ?_
    obtain rfl : c = d := Option.some.inj (found.symm.trans latest)
    simp [isOpen]

end Tracks

end Codesnip.Net
