/-
# Common.ThreadPoolHandover -- each task is handed over once, in order

A run with its history: the tasks enqueued, one entry for every `dequeue()` call
with the answer `empty()` gave in the same section, and one for every call of
`func`.  The loop iterations of a worker are numbered, so an entry is known by its
worker and its iteration.  The history only records; `exists_logged` says that every
run of the pool has one.

`Handed` is what each worker keeps: what it took is what it called, in the same
iterations, and the task it is about to call.  The mutex invariant of
`Common.ThreadPool` makes the queue stay non-empty between `empty()` and
`dequeue()`: producers bypass the mutex, but they only append.
-/
import Codesnip.Common.ThreadPool

namespace Codesnip.Common.ThreadPool

open Codesnip.Theory
open Codesnip.Theory.Transition (System)

set_option autoImplicit false
set_option linter.dupNamespace false
set_option linter.unusedSectionVars false

/-- A `dequeue()` call: what `empty()` answered in its section, what it answered
itself, and the task it moved out. -/
structure Dequeue (n : Nat) (T : Type) where
  worker : Fin n
  iteration : Nat
  empty : Bool
  dequeued : Bool
  moved : Option T
  deriving DecidableEq, Repr

/-- A call of `func`. -/
structure Call (n : Nat) (T : Type) where
  worker : Fin n
  iteration : Nat
  func : Option T
  deriving DecidableEq, Repr

/-- A task taken out of the queue. -/
structure Take (n : Nat) (T : Type) where
  worker : Fin n
  iteration : Nat
  task : T
  deriving DecidableEq, Repr

def Take.call {n : Nat} {T : Type} (d : Take n T) : Call n T := ⟨d.worker, d.iteration, some d.task⟩

/-- `answer w` is what `empty()` last answered to worker `w`. -/
structure Logged (n : Nat) (S T : Type) where
  pool : State n S T
  iteration : Fin n → Nat
  answer : Fin n → Bool
  enqueued : List T
  dequeues : List (Dequeue n T)
  calls : List (Call n T)

namespace Logged

variable {n : Nat} {S T : Type}

/-- The tasks dequeued so far, in order. -/
def taken (l : Logged n S T) : List (Take n T) :=
  l.dequeues.filterMap fun d => d.moved.map fun task => ⟨d.worker, d.iteration, task⟩

/-- The statement worker `w` executes, recorded. -/
def recordWorker (l : Logged n S T) (w : Fin n) (pool : State n S T) : Logged n S T :=
  match l.pool.pc w with
  | .test =>
      if l.pool.m_shutdown then { l with pool }
      else { l with pool, iteration := Function.update l.iteration w (l.iteration w + 1) }
  | .empty =>
      { l with pool, answer := Function.update l.answer w (SafeQueue.empty l.pool.m_queue) }
  | .dequeue =>
      let (dequeued, moved, _) := SafeQueue.dequeue l.pool.m_queue none
      { l with
        pool
        dequeues := l.dequeues ++ [⟨w, l.iteration w, l.answer w, dequeued, moved⟩] }
  | .call => { l with pool, calls := l.calls ++ [⟨w, l.iteration w, (l.pool.workers w).func⟩] }
  | _ => { l with pool }

def record (l : Logged n S T) (a : Action n S T) (pool : State n S T) : Logged n S T :=
  match a with
  | .worker w => l.recordWorker w pool
  | .enqueue _ task => { l with pool, enqueued := l.enqueued ++ [task] }
  | _ => { l with pool }

def Init (l : Logged n S T) : Prop :=
  l.pool.Init ∧ (∀ w, l.iteration w = 0) ∧ l.enqueued = [] ∧ l.dequeues = [] ∧ l.calls = []

def start (n : Nat) (S T : Type) : Logged n S T :=
  { pool := .start n S T
    iteration := fun _ => 0
    answer := fun _ => false
    enqueued := []
    dequeues := []
    calls := [] }

variable [DecidableEq S]

def step (l : Logged n S T) (a : Action n S T) : Option (Logged n S T) :=
  (l.pool.step a).map (l.record a)

end Logged

def logged (n : Nat) (S T : Type) [DecidableEq S] : System (Logged n S T) (Action n S T) :=
  { Init := Logged.Init, step := Logged.step }

namespace Logged

variable {n : Nat} {S T : Type} [DecidableEq S]

theorem start_init : (start n S T).Init :=
  ⟨State.start_init, fun _ => rfl, rfl, rfl, rfl⟩

@[simp] theorem recordWorker_pool (l : Logged n S T) (w : Fin n) (pool : State n S T) :
    (l.recordWorker w pool).pool = pool := by
  unfold recordWorker
  split
  · split <;> rfl
  all_goals rfl

@[simp] theorem record_pool (l : Logged n S T) (a : Action n S T) (pool : State n S T) :
    (l.record a pool).pool = pool := by
  cases a with
  | worker w => exact recordWorker_pool l w pool
  | _ => rfl

theorem pool_reachable {l : Logged n S T} (reach : (logged n S T).Reachable l) :
    (system n S T).Reachable l.pool := by
  refine reach.induct (P := fun l => (system n S T).Reachable l.pool)
    (fun l init => System.Reachable.init (s := l.pool) init.1) fun l a l' before step => ?_
  obtain ⟨pool, inner, rfl⟩ := Option.map_eq_some_iff.mp step
  rw [record_pool]
  exact before.step inner

/-- Every reachable state of the pool has a history. -/
theorem exists_logged {s : State n S T} (reach : (system n S T).Reachable s) :
    ∃ l, (logged n S T).Reachable l ∧ l.pool = s := by
  refine reach.induct (P := fun s => ∃ l, (logged n S T).Reachable l ∧ l.pool = s) ?_ ?_
  · intro s init
    exact ⟨{ start n S T with pool := s }, .init ⟨init, fun _ => rfl, rfl, rfl, rfl⟩, rfl⟩
  · rintro _ a s' ⟨l, before, rfl⟩ step
    exact ⟨l.record a s', before.step (congrArg (Option.map (l.record a)) step),
      record_pool l a s'⟩

/-! ## What each worker took and called -/

def takenBy (l : Logged n S T) (w : Fin n) : List (Call n T) :=
  (l.taken.filter fun d => d.worker = w).map Take.call

def calledBy (l : Logged n S T) (w : Fin n) : List (Call n T) :=
  l.calls.filter fun c => c.worker = w

end Logged

/-- Between `dequeue()` and the call of `func`. -/
def Pc.carries : Pc → Bool
  | .unlock | .branch | .call => true
  | _ => false

/-- The task a worker in iteration `k` has taken and not yet called. -/
def Worker.held {n : Nat} {T : Type} (me : Worker T) (w : Fin n) (k : Nat) : List (Call n T) :=
  if me.pc.carries && me.dequeued then [⟨w, k, me.func⟩] else []

/-- What worker `w` keeps in iteration `k`, its part of the history being `taken`
and `called`. -/
structure Handed {n : Nat} {T : Type} (me : Worker T) (w : Fin n) (k : Nat) (answer : Bool)
    (queue : List T) (taken called : List (Call n T)) : Prop where
  once : taken = called ++ me.held w k
  earlier : ∀ c ∈ taken, c.iteration ≤ k
  fresh : me.pc.begins = true → ∀ c ∈ taken, c.iteration < k
  calling : me.pc = .call → me.dequeued = true
  sawEmpty : me.pc = .wait ∨ me.pc = .asleep → answer = true
  answered : me.pc = .dequeue → answer = false → queue ≠ []

namespace Handed

variable {n : Nat} {T : Type} {me me' : Worker T} {w : Fin n} {k : Nat} {answer : Bool}
  {queue queue' : List T} {taken called : List (Call n T)}

theorem queue_ne (handed : Handed me w k answer queue taken called)
    (kept : me.pc = .dequeue → queue ≠ [] → queue' ≠ []) :
    Handed me w k answer queue' taken called :=
  { handed with answered := fun pc no => kept pc (handed.answered pc no) }

/-- A step in which `w` neither takes nor calls anything. -/
theorem move (handed : Handed me w k answer queue taken called)
    (held : me'.held w k = me.held w k) (begins : me'.pc.begins = true → me.pc.begins = true)
    (calling : me'.pc = .call → me'.dequeued = true) {answer' : Bool}
    (sawEmpty : me'.pc = .wait ∨ me'.pc = .asleep → answer' = true)
    (answered : me'.pc = .dequeue → answer' = false → queue ≠ []) :
    Handed me' w k answer' queue taken called :=
  { once := by rw [held]; exact handed.once
    earlier := handed.earlier
    fresh := fun b => handed.fresh (begins b)
    calling
    sawEmpty
    answered }

/-- The loop test begins the next iteration. -/
theorem enter (handed : Handed me w k answer queue taken called) (pc : me.pc = .test) :
    Handed { me with pc := .lock } w (k + 1) answer queue taken called := by
  have once := handed.once
  simp only [Worker.held, pc, Pc.carries, Bool.false_and, Bool.false_eq_true, if_false] at once
  refine ⟨?_, fun c member => Nat.le_succ_of_le (handed.earlier c member), fun _ c member => ?_,
    by simp, by simp, by simp⟩
  · simpa [Worker.held, Pc.carries] using once
  · exact Nat.lt_succ_of_le (handed.earlier c member)

theorem missed (handed : Handed me w k answer queue taken called) (pc : me.pc = .dequeue) :
    Handed { pc := .unlock, func := me.func, dequeued := false } w k answer queue' taken
      called := by
  have once := handed.once
  simp only [Worker.held, pc, Pc.carries, Bool.false_and, Bool.false_eq_true, if_false] at once
  exact ⟨by simpa [Worker.held] using once, handed.earlier, by simp [Pc.begins], by simp, by simp,
    by simp⟩

/-- `dequeue()` adds a task to what `w` took and makes it the one `w` holds. -/
theorem took (handed : Handed me w k answer queue taken called) (pc : me.pc = .dequeue) (task : T) :
    Handed { pc := .unlock, func := some task, dequeued := true } w k answer queue'
      (taken ++ [⟨w, k, some task⟩]) called := by
  have once := handed.once
  simp only [Worker.held, pc, Pc.carries, Bool.false_and, Bool.false_eq_true, if_false,
    List.append_nil] at once
  refine ⟨by simp [Worker.held, Pc.carries, once], fun c member => ?_, by simp [Pc.begins],
    by simp, by simp, by simp⟩
  rcases List.mem_append.mp member with member | new
  · exact handed.earlier c member
  · obtain rfl := List.mem_singleton.mp new
    exact Nat.le_refl k

/-- `func()` calls the task `w` holds. -/
theorem call (handed : Handed me w k answer queue taken called) (pc : me.pc = .call) :
    Handed { me with pc := .running } w k answer queue taken (called ++ [⟨w, k, me.func⟩]) := by
  have once := handed.once
  simp only [Worker.held, pc, Pc.carries, handed.calling pc, Bool.and_self, if_true] at once
  refine ⟨?_, handed.earlier, by simp [Pc.begins], by simp, by simp, by simp⟩
  simpa [Worker.held, Pc.carries] using once

end Handed

namespace Logged

variable {n : Nat} {S T : Type} [DecidableEq S]

/-- What the history keeps along every run. -/
structure Accounted (l : Logged n S T) : Prop where
  coherent : l.pool.Coherent
  fifo : l.enqueued = l.taken.map Take.task ++ l.pool.m_queue
  distinct : (l.taken.map fun d => (d.worker, d.iteration)).Nodup
  sure : ∀ d ∈ l.dequeues, d.empty = false → d.dequeued = true
  handed : ∀ w, Handed (l.pool.workers w) w (l.iteration w) (l.answer w) l.pool.m_queue
    (l.takenBy w) (l.calledBy w)

theorem init_accounted {l : Logged n S T} (init : l.Init) : l.Accounted := by
  obtain ⟨begun, zero, enqueued, dequeues, calls⟩ := init
  have taken : l.taken = [] := by simp [Logged.taken, dequeues]
  have coherent := State.init_coherent begun
  obtain ⟨-, queue, -, -, workers, -⟩ := begun
  refine ⟨coherent, by simp [enqueued, taken, queue], by simp [taken],
    by simp [dequeues], fun w => ?_⟩
  have test : (l.pool.workers w).pc = .test := (workers w).1
  constructor <;> simp [takenBy, calledBy, taken, calls, Worker.held, test, Pc.carries, Pc.begins]

/-- A worker's step keeps the account of the others: nothing of theirs changes, and
none of them is between `empty()` and `dequeue()` when a task is taken. -/
theorem Accounted.others {l : Logged n S T} (acc : l.Accounted) {w v : Fin n} (ne : v ≠ w)
    {queue : List T} (taking : queue = l.pool.m_queue ∨ l.pool.pc w = .dequeue) :
    Handed (l.pool.workers v) v (l.iteration v) (l.answer v) queue (l.takenBy v)
      (l.calledBy v) := by
  refine (acc.handed v).queue_ne fun pc some => ?_
  rcases taking with rfl | taking
  · exact some
  · refine absurd (acc.coherent.inside_unique ?_ ?_) ne
    · rw [State.pc, pc]; rfl
    · rw [taking]; rfl

/-- A step of `w` that takes and calls nothing. -/
theorem Accounted.quiet {l : Logged n S T} (acc : l.Accounted) {w : Fin n} {pool : State n S T}
    {me : Worker T} {answer : Bool} (coherent : pool.Coherent)
    (workers : pool.workers = Function.update l.pool.workers w me)
    (queue : pool.m_queue = l.pool.m_queue)
    (handed : Handed me w (l.iteration w) answer l.pool.m_queue (l.takenBy w) (l.calledBy w)) :
    ({ l with pool, answer := Function.update l.answer w answer } : Logged n S T).Accounted := by
  refine ⟨coherent, by rw [queue]; exact acc.fifo, acc.distinct, acc.sure, fun v => ?_⟩
  show Handed (pool.workers v) v (l.iteration v) (Function.update l.answer w answer v) pool.m_queue
    (l.takenBy v) (l.calledBy v)
  rw [workers, queue]
  by_cases same : v = w
  · subst same
    simpa using handed
  · simpa [same] using acc.handed v

theorem taken_append (l : Logged n S T) (d : Dequeue n T) (pool : State n S T) :
    ({ l with pool, dequeues := l.dequeues ++ [d] } : Logged n S T).taken =
      l.taken ++ (d.moved.map fun task => (⟨d.worker, d.iteration, task⟩ : Take n T)).toList := by
  cases moved : d.moved <;> simp [taken, moved]

/-- A worker's entries in the history after one more of worker `w`. -/
theorem filter_append_worker {β : Type} (worker : β → Fin n) (entries : List β) (e : β)
    (v : Fin n) :
    (entries ++ [e]).filter (fun d => worker d = v) =
      entries.filter (fun d => worker d = v) ++ if worker e = v then [e] else [] := by
  by_cases same : worker e = v <;> simp [List.filter_append, same]

theorem Accounted.enter {l : Logged n S T} (acc : l.Accounted) {w : Fin n}
    (pc : l.pool.pc w = .test) (stay : l.pool.m_shutdown = false) :
    ({ l with
      pool := l.pool.put w { l.pool.workers w with pc := .lock }
      iteration := Function.update l.iteration w (l.iteration w + 1) } :
        Logged n S T).Accounted := by
  refine ⟨acc.coherent.work (.enter pc stay), acc.fifo, acc.distinct, acc.sure, fun v => ?_⟩
  show Handed ((l.pool.put w _).workers v) v (Function.update l.iteration w _ v) (l.answer v)
    l.pool.m_queue (l.takenBy v) (l.calledBy v)
  by_cases same : v = w
  · subst same
    simpa using (acc.handed v).enter pc
  · rw [State.put_workers_of_ne _ same, Function.update_of_ne same]
    exact acc.handed v

theorem Accounted.missed {l : Logged n S T} (acc : l.Accounted) {w : Fin n}
    (pc : l.pool.pc w = .dequeue) (none : l.pool.m_queue = []) :
    ({ l with
      pool := { l.pool.put w
        { pc := .unlock, func := (l.pool.workers w).func, dequeued := false } with m_queue := [] }
      dequeues := l.dequeues ++ [⟨w, l.iteration w, l.answer w, false, .none⟩] } :
        Logged n S T).Accounted := by
  have same := l.taken_append ⟨w, l.iteration w, l.answer w, false, .none⟩
    { l.pool.put w { pc := .unlock, func := (l.pool.workers w).func, dequeued := false } with
      m_queue := [] }
  simp only [Option.map_none, Option.toList_none, List.append_nil] at same
  refine ⟨acc.coherent.work (.missed pc none), ?_, ?_, ?_, fun v => ?_⟩
  · rw [same]
    simpa [none] using acc.fifo
  · rw [same]
    exact acc.distinct
  · intro d member asked
    rcases List.mem_append.mp member with member | new
    · exact acc.sure d member asked
    · -- `empty()` had answered true, or the queue would still hold a task
      obtain rfl := List.mem_singleton.mp new
      exact absurd none ((acc.handed w).answered pc asked)
  · show Handed ((l.pool.put w _).workers v) v (l.iteration v) (l.answer v) [] _ (l.calledBy v)
    rw [takenBy, same]
    by_cases here : v = w
    · subst here
      rw [State.put_workers_self]
      exact (acc.handed v).missed pc
    · rw [State.put_workers_of_ne _ here]
      exact acc.others here (Or.inr pc)

theorem Accounted.took {l : Logged n S T} (acc : l.Accounted) {w : Fin n}
    (pc : l.pool.pc w = .dequeue) {front : T} {rest : List T}
    (queue : l.pool.m_queue = front :: rest) :
    ({ l with
      pool := { l.pool.put w { pc := .unlock, func := some front, dequeued := true } with
        m_queue := rest }
      dequeues := l.dequeues ++ [⟨w, l.iteration w, l.answer w, true, some front⟩] } :
        Logged n S T).Accounted := by
  have more := l.taken_append ⟨w, l.iteration w, l.answer w, true, some front⟩
    { l.pool.put w { pc := .unlock, func := some front, dequeued := true } with m_queue := rest }
  simp only [Option.map_some, Option.toList_some] at more
  refine ⟨acc.coherent.work (.took pc queue), ?_, ?_, ?_, fun v => ?_⟩
  · rw [more]
    simpa [queue] using acc.fifo
  · rw [more, List.map_append, List.nodup_append]
    refine ⟨acc.distinct, by simp, ?_⟩
    intro key member key' new same
    -- what `w` took before, it took in an earlier iteration
    obtain ⟨d, inside, rfl⟩ := List.mem_map.mp member
    simp only [List.map_cons, List.map_nil, List.mem_singleton] at new
    rw [new] at same
    have worker : d.worker = w := congrArg Prod.fst same
    have before := (acc.handed w).fresh (by rw [show (l.pool.workers w).pc = _ from pc]; rfl) d.call
      (List.mem_map_of_mem (List.mem_filter.mpr ⟨inside, by simpa using worker⟩))
    exact absurd (congrArg Prod.snd same) (Nat.ne_of_lt before)
  · intro d member asked
    rcases List.mem_append.mp member with member | new
    · exact acc.sure d member asked
    · obtain rfl := List.mem_singleton.mp new
      rfl
  · show Handed ((l.pool.put w _).workers v) v (l.iteration v) (l.answer v) rest _ (l.calledBy v)
    rw [takenBy, more, filter_append_worker Take.worker, List.map_append]
    by_cases here : v = w
    · subst here
      rw [State.put_workers_self, if_pos rfl]
      exact (acc.handed v).took pc front
    · rw [State.put_workers_of_ne _ here, if_neg (Ne.symm here), List.map_nil, List.append_nil]
      exact acc.others here (Or.inr pc)

theorem Accounted.call {l : Logged n S T} (acc : l.Accounted) {w : Fin n}
    (pc : l.pool.pc w = .call) :
    ({ l with
      pool := l.pool.put w { l.pool.workers w with pc := .running }
      calls := l.calls ++ [⟨w, l.iteration w, (l.pool.workers w).func⟩] } :
        Logged n S T).Accounted := by
  refine ⟨acc.coherent.work (.call pc), acc.fifo, acc.distinct, acc.sure, fun v => ?_⟩
  show Handed ((l.pool.put w _).workers v) v (l.iteration v) (l.answer v) l.pool.m_queue
    (l.takenBy v) _
  rw [calledBy, filter_append_worker Call.worker]
  by_cases here : v = w
  · subst here
    rw [State.put_workers_self, if_pos rfl]
    exact (acc.handed v).call pc
  · rw [State.put_workers_of_ne _ here, if_neg (Ne.symm here), List.append_nil]
    exact acc.handed v

/-- The pc moves on, and the task `w` holds, if any, stays where it is. -/
theorem Accounted.pass {l : Logged n S T} (acc : l.Accounted) {w : Fin n} {pool : State n S T}
    (worked : l.pool.Worked w pool) (next : Pc) (answer : Bool)
    (workers : pool.workers =
      Function.update l.pool.workers w { l.pool.workers w with pc := next })
    (queue : pool.m_queue = l.pool.m_queue)
    (held : (next.carries && (l.pool.workers w).dequeued) =
      ((l.pool.pc w).carries && (l.pool.workers w).dequeued))
    (begins : next.begins = true → (l.pool.pc w).begins = true)
    (calling : next = .call → (l.pool.workers w).dequeued = true)
    (sawEmpty : next = .wait ∨ next = .asleep → answer = true)
    (answered : next = .dequeue → answer = false → l.pool.m_queue ≠ []) :
    ({ l with pool, answer := Function.update l.answer w answer } : Logged n S T).Accounted := by
  refine acc.quiet (acc.coherent.work worked) workers queue ?_
  refine (acc.handed w).move ?_ begins calling sawEmpty answered
  simp only [Worker.held]
  rw [held]
  rfl

theorem Accounted.work {l : Logged n S T} (acc : l.Accounted) {w : Fin n} {s' : State n S T}
    (worked : l.pool.Worked w s') : (l.recordWorker w s').Accounted := by
  have asked : Function.update l.answer w (l.answer w) = l.answer :=
    Function.update_eq_self w l.answer
  have sawEmpty := (acc.handed w).sawEmpty
  have step := worked
  cases worked with
  | leave pc stop =>
      have pass := acc.pass step .exited (l.answer w) rfl rfl (by rw [pc]; rfl)
        (by simp [Pc.begins]) (by simp) (by simp) (by simp)
      simpa [recordWorker, pc, stop, asked] using pass
  | enter pc stay => simpa [recordWorker, pc, stay] using acc.enter pc stay
  | lock pc free =>
      have pass := acc.pass step .empty (l.answer w) rfl rfl (by rw [pc]; rfl)
        (by simp [pc, Pc.begins]) (by simp) (by simp) (by simp)
      simpa [recordWorker, pc, asked] using pass
  | sawEmpty pc none =>
      have pass := acc.pass step .wait (SafeQueue.empty l.pool.m_queue) rfl rfl (by rw [pc]; rfl)
        (by simp [pc, Pc.begins]) (by simp) (by simp [SafeQueue.empty, none]) (by simp)
      simpa [recordWorker, pc] using pass
  | sawTask pc some =>
      have pass := acc.pass step .dequeue (SafeQueue.empty l.pool.m_queue) rfl rfl
        (by rw [pc]; rfl) (by simp [pc, Pc.begins]) (by simp) (by simp) (fun _ _ => some)
      simpa [recordWorker, pc] using pass
  | sleep pc =>
      have pass := acc.pass step .asleep (l.answer w) rfl rfl (by rw [pc]; rfl)
        (by simp [pc, Pc.begins]) (by simp) (fun _ => sawEmpty (.inl pc)) (by simp)
      simpa [recordWorker, pc, asked] using pass
  | wakeUp pc woken free =>
      -- a sleeper had been told the queue is empty, so nothing is promised to it
      have pass := acc.pass step .dequeue (l.answer w) rfl rfl (by rw [pc]; rfl)
        (by simp [pc, Pc.begins]) (by simp) (by simp) (by simp [sawEmpty (.inr pc)])
      simpa [recordWorker, pc, asked] using pass
  | missed pc none => simpa [recordWorker, pc, none, SafeQueue.dequeue] using acc.missed pc none
  | took pc queue => simpa [recordWorker, pc, queue, SafeQueue.dequeue] using acc.took pc queue
  | unlock pc =>
      have pass := acc.pass step .branch (l.answer w) rfl rfl (by rw [pc]; rfl)
        (by simp [Pc.begins]) (by simp) (by simp) (by simp)
      simpa [recordWorker, pc, asked] using pass
  | again pc failed =>
      have pass := acc.pass step .test (l.answer w) rfl rfl (by simp [failed])
        (by simp [Pc.begins]) (by simp) (by simp) (by simp)
      simpa [recordWorker, pc, asked] using pass
  | takeUp pc got =>
      have pass := acc.pass step .call (l.answer w) rfl rfl (by rw [pc]; rfl)
        (by simp [Pc.begins]) (fun _ => got) (by simp) (by simp)
      simpa [recordWorker, pc, asked] using pass
  | call pc => simpa [recordWorker, pc] using acc.call pc
  | finish pc =>
      have pass := acc.pass step .test (l.answer w) rfl rfl (by rw [pc]; rfl)
        (by simp [Pc.begins]) (by simp) (by simp) (by simp)
      simpa [recordWorker, pc, asked] using pass

/-- A step that leaves the workers and the queue alone. -/
theorem Accounted.idle {l : Logged n S T} (acc : l.Accounted) {pool : State n S T}
    (coherent : pool.Coherent) (workers : pool.workers = l.pool.workers)
    (queue : pool.m_queue = l.pool.m_queue) : ({ l with pool } : Logged n S T).Accounted := by
  refine ⟨coherent, by rw [queue]; exact acc.fifo, acc.distinct, acc.sure, fun w => ?_⟩
  show Handed (pool.workers w) w _ _ pool.m_queue (l.takenBy w) (l.calledBy w)
  rw [workers, queue]
  exact acc.handed w

theorem Accounted.step {l l' : Logged n S T} (acc : l.Accounted) {a : Action n S T}
    (step : l.step a = some l') : l'.Accounted := by
  obtain ⟨pool, inner, rfl⟩ := Option.map_eq_some_iff.mp step
  have coherent := acc.coherent.step inner
  cases State.stepped_of_step inner with
  | worker worked => exact acc.work worked
  | enqueue idle =>
      refine ⟨coherent, ?_, acc.distinct, acc.sure, fun w => ?_⟩
      · show l.enqueued ++ _ = l.taken.map Take.task ++ (l.pool.m_queue ++ _)
        rw [acc.fifo, List.append_assoc]
      · exact (acc.handed w).queue_ne fun _ _ => by simp
  | spurious _ => exact acc.idle coherent rfl rfl
  | notify _ _ => exact acc.idle coherent rfl rfl
  | stop _ => exact acc.idle coherent rfl rfl
  | notifyAll _ => exact acc.idle coherent rfl rfl
  | join _ _ _ => exact acc.idle coherent rfl rfl
  | returned _ _ => exact acc.idle coherent rfl rfl

theorem reachable_accounted {l : Logged n S T} (reach : (logged n S T).Reachable l) :
    l.Accounted :=
  reach.induct (fun _ => init_accounted) fun _ _ _ acc step => acc.step step

/-- The task worker `w` has dequeued and not yet called. -/
def held (l : Logged n S T) (w : Fin n) : List (Call n T) :=
  (l.pool.workers w).held w (l.iteration w)

/-- Occurrences of `b` come from the elements `p` holds of. -/
theorem count_map_filter {α β : Type} [BEq β] [LawfulBEq β] (f : α → β) {p : α → Bool} {b : β}
    (whole : ∀ a, f a = b → p a = true) (entries : List α) :
    ((entries.filter p).map f).count b = (entries.map f).count b := by
  rw [List.count_eq_countP, List.count_eq_countP, List.countP_map, List.countP_map,
    List.countP_filter]
  apply List.countP_congr; intro a _
  simpa using whole a

/-- No worker calls twice in one iteration, as it does not dequeue twice. -/
theorem Accounted.calls_distinct {l : Logged n S T} (acc : l.Accounted) :
    (l.calls.map fun c => (c.worker, c.iteration)).Nodup := by
  apply List.nodup_iff_count_le_one.mpr; rintro ⟨w, k⟩
  have called := count_map_filter (fun c : Call n T => (c.worker, c.iteration)) (b := (w, k))
    (p := fun c => c.worker = w) (by simp +contextual) l.calls
  have taken := count_map_filter (fun d : Take n T => (d.worker, d.iteration)) (b := (w, k))
    (p := fun d => d.worker = w) (by simp +contextual) l.taken
  have once := congrArg (List.map fun c : Call n T => (c.worker, c.iteration)) (acc.handed w).once
  rw [takenBy, List.map_map, List.map_append] at once
  calc (l.calls.map fun c => (c.worker, c.iteration)).count (w, k)
      = ((l.calledBy w).map fun c => (c.worker, c.iteration)).count (w, k) := called.symm
    _ ≤ ((l.taken.filter fun d => d.worker = w).map
          fun d => (d.worker, d.iteration)).count (w, k) := by
        rw [show (fun d : Take n T => (d.worker, d.iteration)) =
          (fun c : Call n T => (c.worker, c.iteration)) ∘ Take.call from rfl, once,
          List.count_append]
        exact Nat.le_add_right _ _
    _ = (l.taken.map fun d => (d.worker, d.iteration)).count (w, k) := taken
    _ ≤ 1 := List.nodup_iff_count_le_one.mp acc.distinct (w, k)

/-- What the history of a run says: the tasks enqueued are those dequeued followed by
the queue; a worker dequeues at most once in an iteration and calls at most once in
it; what it dequeued is what it called, in the same iterations, followed by the one
task it still holds, so no `func` is called that was not dequeued in that iteration;
and `dequeue()` succeeds whenever `empty()` answered false in its section. -/
structure HandedOver (l : Logged n S T) : Prop where
  fifo : l.enqueued = l.taken.map Take.task ++ l.pool.m_queue
  distinct : (l.taken.map fun d => (d.worker, d.iteration)).Nodup
  calledOnce : (l.calls.map fun c => (c.worker, c.iteration)).Nodup
  handed : ∀ w, (l.taken.filter fun d => d.worker = w).map Take.call =
    (l.calls.filter fun c => c.worker = w) ++ l.held w
  genuine : ∀ c ∈ l.calls, ∃ d ∈ l.taken, d.call = c
  sure : ∀ d ∈ l.dequeues, d.empty = false → d.dequeued = true

/-- **Every task is handed over once, in order**, in every reachable state. -/
theorem handed_over_once {l : Logged n S T} (reach : (logged n S T).Reachable l) :
    l.HandedOver := by
  have acc := reachable_accounted reach
  refine ⟨acc.fifo, acc.distinct, acc.calls_distinct, fun w => (acc.handed w).once,
    fun c member => ?_, acc.sure⟩
  have inside : c ∈ l.takenBy c.worker := by
    rw [(acc.handed c.worker).once]
    exact List.mem_append_left _ (List.mem_filter.mpr ⟨member, by simp⟩)
  obtain ⟨d, taken, same⟩ := List.mem_map.mp inside
  exact ⟨d, (List.mem_filter.mp taken).1, same⟩

/-- Two workers and one task: worker 0 sleeps, is notified and serves it, while
worker 1 finds the mutex free only after. -/
theorem handed_over_once_run :
    ∃ l, (logged 2 Unit Nat).run (start 2 Unit Nat)
        [.worker 0, .worker 0, .worker 0, .worker 0, .enqueue () 7, .worker 1,
          .notify () (some 0), .worker 0, .worker 0, .worker 0, .worker 0, .worker 0] = some l ∧
      l.calls = [⟨0, 1, some 7⟩] ∧ l.HandedOver := by
  obtain ⟨l, run, calls⟩ : ∃ l, (logged 2 Unit Nat).run (start 2 Unit Nat)
      [.worker 0, .worker 0, .worker 0, .worker 0, .enqueue () 7, .worker 1,
        .notify () (some 0), .worker 0, .worker 0, .worker 0, .worker 0, .worker 0] = some l ∧
      l.calls = [⟨0, 1, some 7⟩] := ⟨_, rfl, rfl⟩
  exact ⟨l, run, calls, handed_over_once (System.Reachable.of_run start_init run)⟩

end Logged

end Codesnip.Common.ThreadPool
