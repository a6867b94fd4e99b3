/-!
# The thread pool

`ThreadPool.cpp`. A step is one critical section under `mutex_`, one notification, one return
or exception of a task, or one join; steps of all threads interleave freely. The task of the
`k`-th call of `trySubmit` is the number `k`.
-/

namespace VCache

structure ThreadPool where
  maxQueuedTasks : Nat
  tasks : List Nat := []
  stopping : Bool := false
  taskExceptions : Nat := 0

namespace ThreadPool

def kUnboundedQueue : Nat := 0

/-- Where a worker is in `workerLoop`. -/
inductive Worker where
  /-- About to take the lock. -/
  | ready
  /-- In `wait`, until it is woken. -/
  | asleep
  | running (task : Nat)
  | catching (task : Nat)
  | exited
deriving DecidableEq, Repr

/-- Where a call of `shutdown` is: about to notify, joining the workers in turn, or done. -/
inductive Shutdown where
  | notifying
  | joining (next : Nat)
  | returned
deriving DecidableEq, Repr

def trySubmit (p : ThreadPool) (task : Nat) : ThreadPool × Bool :=
  if p.stopping then (p, false)
  else if p.maxQueuedTasks ≠ kUnboundedQueue ∧ p.tasks.length ≥ p.maxQueuedTasks then (p, false)
  else ({ p with tasks := p.tasks ++ [task] }, true)

/-- The critical section of a worker: the test of `wait`, and what follows it. -/
def enter (p : ThreadPool) : ThreadPool × Worker :=
  if !(p.stopping || !p.tasks.isEmpty) then (p, .asleep)
  else match p.tasks with
    | [] => (p, .exited)
    | task :: rest => ({ p with tasks := rest }, .running task)

namespace Worker

def wake : Worker → Worker
  | .asleep => .ready
  | w => w

def task : Worker → Option Nat
  | .running task => some task
  | .catching task => some task
  | _ => none

def inside : Worker → Option Nat
  | .running task => some task
  | _ => none

/-- The task whose exception a worker has not counted yet. -/
def uncounted : Worker → Option Nat
  | .catching task => some task
  | _ => none

end Worker

/-- A pool, its threads and its callers. `notifies` calls of `trySubmit` have still to notify. A
joined worker stays listed as `exited`, where a later `shutdown` passes over it. The last four
fields record what has happened: what each `trySubmit` returned, and which tasks have been
taken, are over, and threw. -/
structure System where
  pool : ThreadPool
  workers : List Worker
  notifies : Nat := 0
  shutdowns : List Shutdown := []
  results : List Bool := []
  started : List Nat := []
  finished : List Nat := []
  threw : List Nat := []

namespace System

def new (threadCount maxQueuedTasks : Nat) : System where
  pool := { maxQueuedTasks }
  workers := List.replicate (if threadCount = 0 then 1 else threadCount) .ready

def submit (s : System) : System :=
  let r := s.pool.trySubmit s.results.length
  { s with
    pool := r.1
    results := s.results ++ [r.2]
    notifies := if r.2 then s.notifies + 1 else s.notifies }

def shutdown (s : System) : System :=
  { s with pool := { s.pool with stopping := true }, shutdowns := s.shutdowns ++ [.notifying] }

/-- What comes from outside the pool: calls, and wake-ups without a reason. -/
inductive Call : System → System → Prop where
  | submit (s : System) : Call s s.submit
  | shutdown (s : System) : Call s s.shutdown
  | wakeup {s : System} {l r : List Worker} : s.workers = l ++ .asleep :: r →
      Call s { s with workers := l ++ .ready :: r }

/-- The steps of the pool itself. -/
inductive Work : System → System → Prop where
  | notifyOne {s : System} {n : Nat} {l r : List Worker} : s.notifies = n + 1 →
      s.workers = l ++ .asleep :: r →
      Work s { s with workers := l ++ .ready :: r, notifies := n }
  | notifyNobody {s : System} {n : Nat} : s.notifies = n + 1 → .asleep ∉ s.workers →
      Work s { s with notifies := n }
  | enter {s : System} {l r : List Worker} : s.workers = l ++ .ready :: r →
      Work s { s with
        pool := s.pool.enter.1
        workers := l ++ s.pool.enter.2 :: r
        started := s.started ++ s.pool.enter.2.inside.toList }
  | taskReturn {s : System} {task : Nat} {l r : List Worker} :
      s.workers = l ++ .running task :: r →
      Work s { s with workers := l ++ .ready :: r, finished := s.finished ++ [task] }
  | taskThrow {s : System} {task : Nat} {l r : List Worker} :
      s.workers = l ++ .running task :: r →
      Work s { s with workers := l ++ .catching task :: r, threw := s.threw ++ [task] }
  | count {s : System} {task : Nat} {l r : List Worker} : s.workers = l ++ .catching task :: r →
      Work s { s with
        pool := { s.pool with taskExceptions := s.pool.taskExceptions + 1 }
        workers := l ++ .ready :: r
        finished := s.finished ++ [task] }
  | notifyAll {s : System} {l r : List Shutdown} : s.shutdowns = l ++ .notifying :: r →
      Work s { s with workers := s.workers.map Worker.wake, shutdowns := l ++ .joining 0 :: r }
  | join {s : System} {k : Nat} {l r : List Shutdown} : s.shutdowns = l ++ .joining k :: r →
      s.workers[k]? = some .exited →
      Work s { s with shutdowns := l ++ .joining (k + 1) :: r }
  | shutdownReturn {s : System} {k : Nat} {l r : List Shutdown} :
      s.shutdowns = l ++ .joining k :: r → s.workers.length ≤ k →
      Work s { s with shutdowns := l ++ .returned :: r }

inductive Works : Nat → System → System → Prop where
  | refl (s : System) : Works 0 s s
  | step {n : Nat} {s s' s'' : System} : Work s s' → Works n s' s'' → Works (n + 1) s s''

inductive Reachable (threadCount maxQueuedTasks : Nat) : System → Prop where
  | start : Reachable threadCount maxQueuedTasks (new threadCount maxQueuedTasks)
  | call {s s' : System} : Reachable threadCount maxQueuedTasks s → Call s s' →
      Reachable threadCount maxQueuedTasks s'
  | work {s s' : System} : Reachable threadCount maxQueuedTasks s → Work s s' →
      Reachable threadCount maxQueuedTasks s'

/-- The tasks accepted, in order. -/
def accepted (s : System) : List Nat :=
  (List.range s.results.length).filter fun k => s.results[k]? == some true

/-- The tasks in the hands of workers. -/
def held (s : System) : List Nat := s.workers.filterMap Worker.task

end System

end ThreadPool

end VCache
