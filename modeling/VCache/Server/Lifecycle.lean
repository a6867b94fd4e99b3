import Mathlib.Logic.Function.Basic
import Mathlib.Logic.Relation
import VCache.Pool.Model
import VCache.Server.Connection

/-!
# The life of a server

`Server::run`, `stop`, `serveConnection` and `shutdownActiveConnections` over the pool and the
descriptor table of the process. A step is one critical section under `connectionsMutex_`, one
access of `running_`, one system call, or one step of the pool; steps of all threads interleave
freely. The `k`-th connection accepted is the task `k` of the pool.
-/

namespace VCache.Server

open ThreadPool (Worker Shutdown)

/-- What a descriptor number stands for in the table of the process. -/
inductive File where
  | connection (k : Nat)
  /-- Anything else: the listening socket, the pipe, a snapshot. -/
  | foreign
deriving DecidableEq, Repr

/-- How far a connection has come. -/
inductive Stage where
  | accepted
  /-- `trySubmit` returned false. -/
  | refused
  /-- The pool has it, and `serveConnection` has not registered it yet. -/
  | queued
  /-- In `activeConnections_`, before the test of `running_`. -/
  | registered
  /-- In `handleConnection`, before the loop. -/
  | entering
  /-- At the head of the loop of `handleConnection`. -/
  | testing
  | receiving
  /-- Behind `recv`: executing lines and sending replies. -/
  | working
  /-- Behind `handleConnection`, before the last critical section. -/
  | leaving
  /-- `handleConnection` threw, and `serveConnection` with it. -/
  | thrown
  | closed
deriving DecidableEq, Repr

namespace Stage

/-- A worker is in `serveConnection` and has registered the connection. -/
def inside : Stage → Bool
  | .registered | .entering | .testing | .receiving | .working | .leaving => true
  | _ => false

def listed : Stage → Bool
  | .thrown => true
  | s => s.inside

/-- Taken by the pool and not closed. -/
def served : Stage → Bool
  | .queued => true
  | s => s.listed

end Stage

/-- One move of `handleConnection` that finds `running_` as given, short of an exception. -/
inductive Handles (running : Bool) : Stage → Stage → Prop where
  | start : Handles running .entering .testing
  | proceed : running = true → Handles running .testing .receiving
  | stopped : running = false → Handles running .testing .leaving
  | received : Handles running .receiving .working
  | interrupted : Handles running .receiving .testing
  /-- `recv` returned `0` or failed. -/
  | disconnected : Handles running .receiving .leaving
  | again : Handles running .working .testing
  /-- A reply could not be sent, or the request is too large. -/
  | dropped : Handles running .working .leaving

/-- Where `handleConnection` may throw: its buffers and the commands allocate. -/
def Stage.mayThrow : Stage → Bool
  | .entering | .working => true
  | _ => false

/-- A connection `accept` has returned. `shut` records a `shutdown(SHUT_RDWR)`, `closes` counts
the calls of `close`. -/
structure Conn where
  fd : Nat
  stage : Stage := .accepted
  shut : Bool := false
  closes : Nat := 0
deriving DecidableEq, Repr

inductive Loop where
  | idle
  | testing
  | polling
  | accepting
  | submitting
  /-- Between the failed `trySubmit` and the `close` of connection `k`. -/
  | refusing (k : Nat)
  /-- Behind the loop. -/
  | stopping
  | sweeping
  | draining
  | joining
  /-- `shutdown` of the pool has returned. The sweeper and the scheduler are stopped next. -/
  | drained
deriving DecidableEq, Repr

/-- `shutdownActiveConnections` has returned. -/
def Loop.swept : Loop → Bool
  | .draining | .joining | .drained => true
  | _ => false

inductive PollResult where
  | interrupted
  | failed
  /-- The pipe is looked at first. -/
  | ready (listening : Bool)
deriving DecidableEq, Repr

/-- The server: its pool, its flag, its bytes in the shutdown pipe and the calls of `stop` that
still have to write one, its connections, and the descriptor table. -/
structure World where
  pool : ThreadPool.System
  running : Bool := false
  pipe : Nat := 0
  stops : Nat := 0
  loop : Loop := .idle
  conns : List Conn := []
  activeConnections : List Nat := []
  files : Nat → Option File

namespace World

def new (threadCount maxQueuedTasks : Nat) (files : Nat → Option File) : World where
  pool := .new threadCount maxQueuedTasks
  files := files

def afterPoll (w : World) : PollResult → Loop
  | .interrupted => .testing
  | .failed => .stopping
  | .ready listening =>
    if w.pipe ≠ 0 then .stopping else if listening then .accepting else .testing

def move (w : World) (k : Nat) (stage : Stage) : World :=
  { w with conns := w.conns.modify k fun c => { c with stage } }

/-- `close` of the descriptor `fd`, by whoever has connection `k`. -/
def close (w : World) (k fd : Nat) : World :=
  { w with
    conns := w.conns.modify k fun c => { c with stage := .closed, closes := c.closes + 1 }
    files := Function.update w.files fd none }

/-- The kernel takes any number that is free. -/
def accept (w : World) (fd : Nat) : World :=
  { w with
    loop := .submitting
    conns := w.conns ++ [{ fd }]
    files := Function.update w.files fd (some (.connection w.conns.length)) }

def submit (w : World) : World :=
  let k := w.pool.results.length
  let taken := (w.pool.pool.trySubmit k).2
  { w.move k (if taken then .queued else .refused) with
    pool := w.pool.submit
    loop := if taken then .testing else .refusing k }

/-- Connection `k` after `shutdown` of every registered number. A number stands for what the
table says, not for the connection that was registered under it. -/
def shutdown (w : World) (k : Nat) (c : Conn) : Conn :=
  if w.activeConnections.any fun fd => w.files fd == some (.connection k) then
    { c with shut := true }
  else c

def shutdownActiveConnections (w : World) : World := { w with conns := w.conns.mapIdx w.shutdown }

/-- The steps of the thread in `run`. -/
inductive Run : World → World → Prop where
  | begin {w : World} : w.loop = .idle → Run w { w with running := true, loop := .testing }
  | test {w : World} : w.loop = .testing →
      Run w { w with loop := if w.running then .polling else .stopping }
  | poll {w : World} (result : PollResult) : w.loop = .polling →
      Run w { w with loop := w.afterPoll result }
  | accept {w : World} {fd : Nat} : w.loop = .accepting → w.files fd = none → Run w (w.accept fd)
  /-- `accept` failed: `EINTR`, `ECONNABORTED`, `EMFILE` and `ENFILE` are `transient`. -/
  | acceptFailed {w : World} (transient : Bool) : w.loop = .accepting →
      Run w { w with loop := if transient then .testing else .stopping }
  | submit {w : World} : w.loop = .submitting → Run w w.submit
  | refuse {w : World} {k : Nat} {c : Conn} : w.loop = .refusing k → w.conns[k]? = some c →
      Run w { w.close k c.fd with loop := .testing }
  | clearFlag {w : World} : w.loop = .stopping →
      Run w { w with running := false, loop := .sweeping }
  | sweep {w : World} : w.loop = .sweeping →
      Run w { w.shutdownActiveConnections with loop := .draining }
  | shutdown {w : World} : w.loop = .draining →
      Run w { w with pool := w.pool.shutdown, loop := .joining }
  | drained {w : World} : w.loop = .joining → .returned ∈ w.pool.shutdowns →
      Run w { w with loop := .drained }

/-- The steps of a worker in `serveConnection`. -/
inductive Serve (k : Nat) (c : Conn) : World → World → Prop where
  | register {w : World} : c.stage = .queued →
      Serve k c w { w.move k .registered with
        activeConnections := w.activeConnections.insert c.fd }
  | check {w : World} : c.stage = .registered →
      Serve k c w (w.move k (if w.running then .entering else .leaving))
  | handle {w : World} {stage : Stage} : Handles w.running c.stage stage →
      Serve k c w (w.move k stage)
  | throw {w : World} : c.stage.mayThrow = true → Serve k c w (w.move k .thrown)
  | close {w : World} : c.stage = .leaving →
      Serve k c w { w.close k c.fd with
        activeConnections := w.activeConnections.filter (· != c.fd) }

inductive Step : World → World → Prop where
  | run {w w' : World} : Run w w' → Step w w'
  | serve {w w' : World} {k : Nat} {c : Conn} : .running k ∈ w.pool.workers →
      w.conns[k]? = some c → Serve k c w w' → Step w w'
  /-- `stop`, from any thread at any moment, before it writes to the pipe. -/
  | stop (w : World) : Step w { w with running := false, stops := w.stops + 1 }
  | wake {w : World} {n : Nat} : w.stops = n + 1 → Step w { w with pipe := w.pipe + 1, stops := n }
  | taskReturn {w : World} {k : Nat} {c : Conn} {l r : List Worker} :
      w.pool.workers = l ++ .running k :: r → w.conns[k]? = some c → c.stage = .closed →
      Step w { w with pool := { w.pool with
        workers := l ++ .ready :: r, finished := w.pool.finished ++ [k] } }
  | taskThrow {w : World} {k : Nat} {c : Conn} {l r : List Worker} :
      w.pool.workers = l ++ .running k :: r → w.conns[k]? = some c → c.stage = .thrown →
      Step w { w with pool := { w.pool with
        workers := l ++ .catching k :: r, threw := w.pool.threw ++ [k] } }
  /-- A step of the pool in which no task ends. -/
  | work {w : World} {pool : ThreadPool.System} : ThreadPool.System.Work w.pool pool →
      (w.pool.workers.filterMap Worker.inside).length
        ≤ (pool.workers.filterMap Worker.inside).length →
      Step w { w with pool }
  | wakeup {w : World} {l r : List Worker} : w.pool.workers = l ++ .asleep :: r →
      Step w { w with pool := { w.pool with workers := l ++ .ready :: r } }
  /-- The rest of the process opens and closes descriptors of its own. -/
  | open {w : World} {fd : Nat} : w.files fd = none →
      Step w { w with files := Function.update w.files fd (some .foreign) }
  | closeForeign {w : World} {fd : Nat} : w.files fd = some .foreign →
      Step w { w with files := Function.update w.files fd none }

inductive Reachable (threadCount maxQueuedTasks : Nat) : World → Prop where
  | start {files : Nat → Option File} : (∀ fd k, files fd ≠ some (.connection k)) →
      Reachable threadCount maxQueuedTasks (new threadCount maxQueuedTasks files)
  | step {w w' : World} : Reachable threadCount maxQueuedTasks w → Step w w' →
      Reachable threadCount maxQueuedTasks w'

end World

/-! ### The handler takes these moves -/

/-- The stage of a connection whose handler waits in the phase. -/
def Phase.stage : Phase → Stage
  | .receiving => .testing
  | .sending _ _ => .working
  | .finished => .leaving

theorem Handles.of_working (running : Bool) (phase : Phase) :
    Relation.ReflTransGen (Handles running) .working phase.stage := by
  cases phase with
  | receiving => exact .single .again
  | sending => exact .refl
  | finished => exact .single .dropped

/-- What the handler does with the result of a call is a sequence of moves. -/
theorem Handler.resume_handles {σ : Type} (maxRequestBytes : Nat)
    (exec : Nat → σ → Bytes → σ × Option Bytes) (h : Handler σ) (result : SysResult) :
    Relation.ReflTransGen (Handles (result != .stopped)) h.phase.stage
      (h.resume maxRequestBytes exec result).phase.stage := by
  cases hp : h.phase with
  | sending rest drop => exact Handles.of_working _ _
  | finished =>
    have hsame : h.resume maxRequestBytes exec result = h := by simp [resume, hp]
    rw [hsame, hp]
  | receiving =>
    cases result with
    | received chunk =>
      refine .head (.proceed rfl) (.head .received ?_)
      exact Handles.of_working _ _
    | interrupted =>
      have hsame : h.resume maxRequestBytes exec .interrupted = h := by simp [resume, hp]
      rw [hsame, hp]
    | stopped =>
      simp only [resume, hp, Phase.stage]
      exact .single (.stopped rfl)
    | closed | failed | accepted =>
      simp only [resume, hp, Phase.stage]
      exact .head (.proceed rfl) (.single .disconnected)

end VCache.Server
