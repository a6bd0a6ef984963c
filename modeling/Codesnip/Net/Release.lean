/-
# Net.Release -- whether the servers of `net/net.cpp` release their descriptors

`SelectServer` and `PollServer` close a descriptor where they read its end of file, so
they release all of them as long as nothing undefined happens.  The pooled servers leave
that to `Doit` and `DoUseFd`, which do not: they have released all descriptors only as
long as none of these has finished.  (`MultiProcessServer`, which shares `Doit`, closes
in the parent.)
-/
import Codesnip.Net.SelectServer
import Codesnip.Net.PollServer
import Codesnip.Net.ThreadPools
import Codesnip.Net.EPollServer

namespace Codesnip.Net

open Codesnip.Unit.SysCallWrap (ReadCalls)

set_option autoImplicit false

/-- The descriptors of a server with this log are released. -/
def Releases (log : List Event) : Prop := Released (connections log)

/-- **When the servers release their descriptors**, mode by mode, for all runs. -/
theorem servers_released_iff (listenfd : Int) :
    (∀ peers as y,
      (ThreadPools.system listenfd).run (.ok (ThreadPools.Server.start peers)) as = some y →
      ((ThreadPools.system listenfd).Always (Holds fun s => Releases s.log)
          (.ok (ThreadPools.Server.start peers)) as ↔
        (ThreadPools.system listenfd).Steps (Turns fun s a => ¬ ThreadPools.Server.Finishes s a)
          (.ok (ThreadPools.Server.start peers)) as)) ∧
    (∀ buf as y,
      (SelectServer.system listenfd).run (SelectServer.Server.start listenfd buf) as = some y →
      ((SelectServer.system listenfd).Always (Holds fun s => Releases s.log)
          (SelectServer.Server.start listenfd buf) as ↔
        (0 ≤ listenfd ∧ listenfd < SelectServer.FD_SETSIZE) ∧
          ∀ a ∈ as, SelectServer.Server.Fits listenfd a)) ∧
    (∀ memory buf as y,
      (PollServer.system listenfd).run (.ok (PollServer.Server.start listenfd memory buf)) as =
        some y →
      ((PollServer.system listenfd).Always (Holds fun s => Releases s.log)
          (.ok (PollServer.Server.start listenfd memory buf)) as ↔
        (PollServer.system listenfd).Steps (Turns PollServer.Server.Room)
          (.ok (PollServer.Server.start listenfd memory buf)) as)) ∧
    ∀ as y, (EPollServer.system listenfd).run (.ok EPollServer.Server.start) as = some y →
      ((EPollServer.system listenfd).Always (Holds fun s => Releases s.log)
          (.ok EPollServer.Server.start) as ↔
        (EPollServer.system listenfd).Steps (Turns fun s a => ¬ EPollServer.Server.Finishes s a)
          (.ok EPollServer.Server.start) as) :=
  ⟨fun _ _ _ run => ThreadPools.Server.released_iff run,
    fun _ _ _ run => SelectServer.Server.always_iff (fun _ inv => inv.tracks.released) run,
    fun _ _ _ _ run => PollServer.Server.always_iff (fun _ inv => inv.tracks.released) run,
    fun _ _ run => EPollServer.Server.released_iff run⟩

/-- The kernel hands out all that there is. -/
def whole : ReadCalls where
  outcome := fun _ asked left => .done (min asked left)
  ranged := by
    intro before asked left count same
    cases same
    omega

/-- A client connects and closes, and worker 0 serves it with so many steps. -/
def served (n : Nat) : List ThreadPools.Action :=
  [.accept (.ok 4), .submit, .notify none] ++ List.replicate n (.work 0 ⟨1, fun _ => 0⟩)

theorem servers_released_iff_running :
    ((ThreadPools.system 3).Always (Holds fun s => Releases s.log)
        (.ok (ThreadPools.Server.start fun _ => ⟨[], whole⟩)) (served 9) ↔
      (ThreadPools.system 3).Steps (Turns fun s a => ¬ ThreadPools.Server.Finishes s a)
        (.ok (ThreadPools.Server.start fun _ => ⟨[], whole⟩)) (served 9)) ∧
    ((SelectServer.system 3).Always (Holds fun s => Releases s.log)
        (SelectServer.Server.start 3 fun _ => 0) [SelectServer.Server.connects 4] ↔
      ((0 : Int) ≤ 3 ∧ (3 : Int) < SelectServer.FD_SETSIZE) ∧
        ∀ a ∈ [SelectServer.Server.connects 4], SelectServer.Server.Fits 3 a) ∧
    ((PollServer.system 3).Always (Holds fun s => Releases s.log)
        (.ok (PollServer.Server.start 3 (fun _ => ⟨0, 0, 0⟩) fun _ => 0))
        (PollServer.Server.clients 2) ↔
      (PollServer.system 3).Steps (Turns PollServer.Server.Room)
        (.ok (PollServer.Server.start 3 (fun _ => ⟨0, 0, 0⟩) fun _ => 0))
        (PollServer.Server.clients 2)) ∧
    ((EPollServer.system 3).Always (Holds fun s => Releases s.log) (.ok EPollServer.Server.start)
        [.wait (.ok [3]), .accept (.ok 4) [] (.ok ())] ↔
      (EPollServer.system 3).Steps (Turns fun s a => ¬ EPollServer.Server.Finishes s a)
        (.ok EPollServer.Server.start) [.wait (.ok [3]), .accept (.ok 4) [] (.ok ())]) := by
  obtain ⟨pooled, select, poll, epoll⟩ := servers_released_iff 3
  obtain ⟨s, clients, -⟩ := PollServer.Server.run_clients (fun _ => ⟨0, 0, 0⟩) (fun _ => 0)
    (n := 2) (by decide)
  exact ⟨pooled _ _ _ rfl, select _ _ _ rfl, poll _ _ _ _ clients, epoll _ _ rfl⟩

/-- `Doit` has read end of file and returned, and the descriptor is open. -/
theorem doit_leaks :
    ¬ (ThreadPools.system 3).Always (Holds fun s => Releases s.log)
      (.ok (ThreadPools.Server.start fun _ => ⟨[], whole⟩)) (served 10) := by
  intro always
  obtain ⟨s, run, log⟩ : ∃ s, (ThreadPools.system 3).run
      (.ok (ThreadPools.Server.start fun _ => ⟨[], whole⟩)) (served 10) = some (.ok s) ∧
      s.log = [.accept 4, .read 4 [], .report 4 0, .handled 4] := ⟨_, rfl, rfl⟩
  have released : Releases s.log := always.final run
  rw [log] at released
  have once := released.1 _ List.mem_cons_self rfl
  cases once

end Codesnip.Net
