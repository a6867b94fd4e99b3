import VCache.Lib.Finish
import VCache.Server.Shutdown

/-!
# `run` gets rid of its clients

Once a call of `stop` has written its byte, `run` needs nobody's help to come to the end of
`shutdown` of the pool. Clients may go on sending, stay silent or never read their replies: the
sweep shuts their sockets down, and from then on neither `recv` nor `send` waits. An `accept`
behind a `poll` that has found a client is taken not to wait either.
-/

namespace VCache

open Lib
open ThreadPool (Worker)
open ThreadPool.System (Work)

theorem ThreadPool.System.Work.lengths {s s' : ThreadPool.System} (h : Work s s') :
    s'.workers.length = s.workers.length ∧ s'.shutdowns.length = s.shutdowns.length := by
  cases h with
  | notifyOne _ hw | enter hw | taskReturn hw | taskThrow hw | count hw => simp [hw]
  | notifyNobody _ _ => exact ⟨rfl, rfl⟩
  | notifyAll hc => simp [hc]
  | join hc _ | shutdownReturn hc _ => simp [hc]

/-- A step of the pool in which a task ends, or one in which none does. -/
theorem ThreadPool.System.Work.ends_or_keeps {s s' : ThreadPool.System} (h : Work s s') :
    (∃ k, .running k ∈ s.workers) ∨
      (s.workers.filterMap Worker.inside).length ≤ (s'.workers.filterMap Worker.inside).length := by
  cases h with
  | @taskReturn task _ _ hw | @taskThrow task _ _ hw => exact .inl ⟨task, by rw [hw]; simp⟩
  | notifyNobody _ _ | join _ _ | shutdownReturn _ _ => exact .inr (Nat.le_refl _)
  | notifyOne _ hw | count hw =>
    refine .inr ?_
    simp [hw, List.filterMap_cons, Worker.inside]
  | enter hw =>
    refine .inr ?_
    simp only [hw, ThreadPool.filterMap_replace, List.length_append, Worker.inside]
    exact Nat.add_le_add_right (Nat.add_le_add_left (Nat.zero_le _) _) _
  | notifyAll hc =>
    refine .inr (Nat.le_of_eq ?_)
    rw [List.filterMap_map]
    congr 2
    funext w
    exact w.inside_wake.symm

theorem ThreadPool.System.cost_submit (s : ThreadPool.System) : s.submit.cost ≤ s.cost + 5 := by
  rcases submit_cases s with he | ⟨-, -, he⟩
  · rw [he]
    exact Nat.le_add_right ..
  · rw [he]
    simp only [cost, List.length_append, List.length_singleton]
    omega

theorem ThreadPool.System.cost_shutdown (s : ThreadPool.System) :
    s.shutdown.cost = s.cost + (2 * s.workers.length + 3) := by
  simp only [shutdown, cost, List.map_append, List.sum_append, List.map_cons, List.map_nil,
    List.sum_cons, List.sum_nil, ThreadPool.Shutdown.cost]
  omega

namespace Server

/-- In `recv`, or in a `send` that may have to wait for the client. -/
def Stage.onSocket : Stage → Bool
  | .receiving | .working => true
  | _ => false

theorem Handles.onSocket {stage stage' : Stage} (h : Handles false stage stage')
    (hon : stage'.onSocket = true) : stage.onSocket = true := by
  cases h with
  | proceed hr => cases hr
  | received => rfl
  | _ => cases hon

/-- It is the client's turn. -/
def Conn.waits (c : Conn) : Bool := c.stage.onSocket && !c.shut

/-- The moves of a connection still to come. While `running_` is set its client decides. -/
def Stage.cost (running : Bool) : Stage → Nat
  | .accepted => 9
  | .queued => 8
  | .registered => 7
  | .entering => 6
  | .receiving => 5
  | .working => if running then 5 else 4
  | .testing => if running then 5 else 3
  | .leaving => 2
  | .refused => 1
  | .thrown | .closed => 0

theorem Stage.cost_false_le (running : Bool) (stage : Stage) :
    stage.cost false ≤ stage.cost running := by
  cases running <;> cases stage <;> decide

theorem Stage.cost_pos_of_mayThrow {stage : Stage} (h : stage.mayThrow = true) (running : Bool) :
    0 < stage.cost running := by
  cases running <;> cases stage <;> first | decide | cases h

theorem Handles.cost_le {running : Bool} {stage stage' : Stage} (h : Handles running stage stage') :
    stage'.cost running ≤ stage.cost running := by
  cases h with
  | proceed hr => rw [hr]; decide
  | stopped hr => rw [hr]; decide
  | _ => cases running <;> decide

theorem Handles.cost_lt {running : Bool} {stage stage' : Stage} (h : Handles running stage stage')
    (hrun : stage = .testing ∨ stage.onSocket = true → running = false) :
    stage'.cost running < stage.cost running := by
  cases h with
  | start => cases running <;> decide
  | proceed hr => cases hr.symm.trans (hrun (.inl rfl))
  | stopped hr =>
    rw [hr]
    decide
  | _ =>
    rw [hrun (.inr rfl)]
    decide

/-- The moves of `run` still to come, with what they add to the pool and the connections. -/
def Loop.cost (running : Bool) (threads : Nat) : Loop → Nat
  | .idle => 0
  | .accepting => 2 * threads + 26
  | .submitting => 2 * threads + 16
  | .refusing _ => 2 * threads + 11
  | .testing => 2 * threads + if running then 10 else 8
  | .polling => 2 * threads + 9
  | .stopping => 2 * threads + 7
  | .sweeping => 2 * threads + 6
  | .draining => 2 * threads + 5
  | .joining => 1
  | .drained => 0

namespace World

/-- What the server does by itself. -/
inductive Goes : World → World → Prop where
  | run {w w' : World} : Run w w' → w.loop ≠ .idle →
      (w.loop = .polling → w.running = true → w'.loop ≠ .testing) → Goes w w'
  | serve {w w' : World} {k : Nat} {c : Conn} : .running k ∈ w.pool.workers →
      w.conns[k]? = some c → Serve k c w w' → c.waits = false →
      (c.stage = .testing → w.running = false) → Goes w w'
  | pool {w : World} {pool : ThreadPool.System} : Step w { w with pool } → Work w.pool pool →
      Goes w { w with pool }

/-- What clients do, the callers of `stop`, and the rest of the process. -/
inductive Others : World → World → Prop where
  | client {w w' : World} {k : Nat} {c : Conn} : .running k ∈ w.pool.workers →
      w.conns[k]? = some c → Serve k c w w' →
      c.waits = true ∨ c.stage = .testing ∧ w.running = true → Others w w'
  | stop (w : World) : Others w { w with running := false, stops := w.stops + 1 }
  | wake {w : World} {n : Nat} : w.stops = n + 1 →
      Others w { w with pipe := w.pipe + 1, stops := n }
  | file {w : World} {files : Nat → Option File} : Step w { w with files } →
      Others w { w with files }

/-- What there may be any number of: a signal in `poll` while `running_` is set, and a wakeup
without a reason. -/
inductive Disturbs : World → World → Prop where
  | signal {w : World} : w.loop = .polling → w.running = true →
      Disturbs w { w with loop := .testing }
  | wakeup {w : World} {l r : List Worker} : w.pool.workers = l ++ .asleep :: r →
      Disturbs w { w with pool := { w.pool with workers := l ++ .ready :: r } }

variable {w w' : World} {threadCount maxQueuedTasks : Nat}

theorem Goes.step (h : Goes w w') : Step w w' := by
  cases h with
  | run hs _ _ => exact .run hs
  | serve hr hc hs _ _ => exact .serve hr hc hs
  | pool hs _ => exact hs

theorem Others.step (h : Others w w') : Step w w' := by
  cases h with
  | client hr hc hs _ => exact .serve hr hc hs
  | stop => exact .stop w
  | wake hn => exact .wake hn
  | file hs => exact hs

/-! ### What holds behind the sweep -/

/-- `shutdownActiveConnections` reaches whatever waits for a client, and nothing is shut down
before it. -/
structure Shut (w : World) : Prop where
  reached : w.loop.swept = true → ∀ c ∈ w.conns, c.stage.onSocket = true → c.shut = true
  late : ∀ c ∈ w.conns, c.shut = true → w.loop.swept = true
  joins : w.loop = .joining → w.pool.shutdowns ≠ []

theorem mem_modify {l : List Conn} {f : Conn → Conn} {k : Nat} {c : Conn}
    (h : c ∈ l.modify k f) : (∃ c₀, l[k]? = some c₀ ∧ c = f c₀) ∨ c ∈ l := by
  obtain ⟨j, hj⟩ := List.mem_iff_getElem?.1 h
  rcases getElem?_modify_iff.1 hj with ⟨rfl, c₀, hc₀, rfl⟩ | ⟨-, hj⟩
  · exact .inl ⟨c₀, hc₀, rfl⟩
  · exact .inr (List.mem_iff_getElem?.2 ⟨j, hj⟩)

theorem Shut.loop (h : Shut w) (hl : w.loop.swept = false) (hl' : w'.loop.swept = false)
    (hconns : ∀ c ∈ w'.conns, c.shut = false ∨ ∃ c₀ ∈ w.conns, c₀.shut = c.shut) : Shut w' := by
  refine ⟨fun hs => ?_, fun c hc hshut => ?_, fun hj => ?_⟩
  · cases hl'.symm.trans hs
  · rcases hconns c hc with hno | ⟨c₀, hc₀, he⟩
    · cases hno.symm.trans hshut
    · cases hl.symm.trans (h.late c₀ hc₀ (he.trans hshut))
  · rw [hj] at hl'
    cases hl'

theorem Shut.turn (h : Shut w) (hl : w.loop.swept = false) {running : Bool} {loop : Loop}
    (hl' : loop.swept = false) : Shut { w with running, loop } :=
  h.loop hl hl' fun c hc => .inr ⟨c, hc, rfl⟩

/-- The sweep finds a connection under its own number. -/
theorem Shut.sweep (hi : Inv w) : Shut { w.shutdownActiveConnections with loop := .draining } := by
  refine ⟨fun _ c' hm hon => ?_, fun _ _ _ => rfl, fun hj => (by cases hj)⟩
  obtain ⟨j, hj⟩ := List.mem_iff_getElem?.1 hm
  obtain ⟨c, hc, rfl⟩ := getElem?_shutdown.1 hj
  have hlist : c.stage.listed = true := by
    obtain ⟨shut, hs⟩ := w.shutdown_eq j c
    rw [hs] at hon
    cases hstage : c.stage <;> rw [hstage] at hon <;> first | rfl | cases hon
  have hfile := (hi.tracked j c hc).opened (Stage.ne_closed_of_listed hlist)
  have hany : (w.activeConnections.any fun fd => w.files fd == some (.connection j)) = true :=
    List.any_eq_true.2 ⟨c.fd, (hi.active c.fd).2 ⟨j, c, hc, rfl, hlist⟩, by simp [hfile]⟩
  rw [World.shutdown, if_pos hany]

theorem Shut.run (hs : Run w w') (hi : Inv w) (h : Shut w) : Shut w' := by
  cases hs with
  | begin hl | clearFlag hl => exact h.turn (by rw [hl]; rfl) rfl
  | test hl =>
    refine h.turn (by rw [hl]; rfl) ?_
    split <;> rfl
  | poll result hl =>
    refine h.turn (by rw [hl]; rfl) ?_
    cases result with
    | interrupted | failed => rfl
    | ready listening =>
      simp only [afterPoll]
      split
      · rfl
      · split <;> rfl
  | accept hl _ =>
    refine h.loop (by rw [hl]; rfl) rfl fun c hc => ?_
    rcases List.mem_append.1 hc with hc | hc
    · exact .inr ⟨c, hc, rfl⟩
    · rw [List.mem_singleton.1 hc]
      exact .inl rfl
  | acceptFailed transient hl =>
    refine h.turn (by rw [hl]; rfl) ?_
    split <;> rfl
  | submit hl =>
    refine h.loop (by rw [hl]; rfl) ?_ fun c hc => .inr ?_
    · rcases w.submit_loop with hl' | hl' <;> rw [hl'] <;> rfl
    · rcases mem_modify hc with ⟨c₀, hc₀, rfl⟩ | hc
      · exact ⟨c₀, List.mem_of_getElem? hc₀, rfl⟩
      · exact ⟨c, hc, rfl⟩
  | refuse hl _ =>
    refine h.loop (by rw [hl]; rfl) rfl fun c hc => .inr ?_
    rcases mem_modify hc with ⟨c₀, hc₀, rfl⟩ | hc
    · exact ⟨c₀, List.mem_of_getElem? hc₀, rfl⟩
    · exact ⟨c, hc, rfl⟩
  | sweep hl => exact .sweep hi
  | shutdown hl =>
    exact ⟨fun _ => h.reached (by rw [hl]; rfl), fun _ _ _ => rfl,
      fun _ => by simp [ThreadPool.System.shutdown]⟩
  | drained hl _ =>
    exact ⟨fun _ => h.reached (by rw [hl]; rfl), fun _ _ _ => rfl, fun hj => (by cases hj)⟩

theorem Shut.moved (h : Shut w) {k : Nat} {c : Conn} {f : Conn → Conn} (hc : w.conns[k]? = some c)
    (hshut : (f c).shut = c.shut)
    (hon : w.loop.swept = true → (f c).stage.onSocket = true → c.stage.onSocket = true)
    (hloop : w'.loop = w.loop) (hpool : w'.pool = w.pool) (hconns : w'.conns = w.conns.modify k f) :
    Shut w' := by
  refine ⟨fun hs c' hc' hon' => ?_, fun c' hc' hs => ?_, fun hj => ?_⟩
  · rw [hloop] at hs
    rw [hconns] at hc'
    rcases mem_modify hc' with ⟨c₀, hc₀, rfl⟩ | hc'
    · cases hc.symm.trans hc₀
      rw [hshut]
      exact h.reached hs c (List.mem_of_getElem? hc) (hon hs hon')
    · exact h.reached hs c' hc' hon'
  · rw [hloop]
    rw [hconns] at hc'
    rcases mem_modify hc' with ⟨c₀, hc₀, rfl⟩ | hc'
    · cases hc.symm.trans hc₀
      exact h.late c (List.mem_of_getElem? hc) (hshut.symm.trans hs)
    · exact h.late c' hc' hs
  · rw [hpool]
    exact h.joins (hloop.symm.trans hj)

theorem Shut.serve {k : Nat} {c : Conn} (hs : Serve k c w w') (hc : w.conns[k]? = some c)
    (hi : Inv w) (h : Shut w) : Shut w' := by
  cases hs with
  | register _ => exact h.moved hc rfl (fun _ he => by cases he) rfl rfl rfl
  | check _ =>
    refine h.moved hc rfl (fun _ he => ?_) rfl rfl rfl
    simp only at he
    split at he <;> cases he
  | handle hm =>
    refine h.moved hc rfl (fun hs he => ?_) rfl rfl rfl
    have hflag := hi.flag (Loop.flagDown_of_swept hs)
    rw [hflag] at hm
    exact hm.onSocket he
  | throw _ => exact h.moved hc rfl (fun _ he => by cases he) rfl rfl rfl
  | close _ => exact h.moved hc rfl (fun _ he => by cases he) rfl rfl rfl

theorem Step.shut (hs : Step w w') (hi : Inv w) (h : Shut w) : Shut w' := by
  cases hs with
  | run hs => exact h.run hs hi
  | serve _ hc hs => exact h.serve hs hc hi
  | work hs hin =>
    refine ⟨h.reached, h.late, fun hj hnil => h.joins hj (List.length_eq_zero_iff.1 ?_)⟩
    rw [← hs.lengths.2, hnil, List.length_nil]
  | _ => exact ⟨h.reached, h.late, h.joins⟩

theorem Reachable.shut (h : Reachable threadCount maxQueuedTasks w) : Shut w := by
  induction h with
  | start => exact ⟨(fun _ c hc => by cases hc), (fun c hc => by cases hc), fun hj => by cases hj⟩
  | step hr hs ih => exact hs.shut hr.inv ih

/-! ### What is left to do -/

def ahead (w : World) : Nat := (w.conns.map fun c => c.stage.cost w.running).sum

def cost (w : World) : Nat := w.loop.cost w.running w.pool.workers.length + w.ahead + w.pool.cost

theorem ahead_modify {k : Nat} {c : Conn} {f : Conn → Conn} (hc : w.conns[k]? = some c)
    (hconns : w'.conns = w.conns.modify k f) (hrun : w'.running = w.running) :
    w'.ahead + c.stage.cost w.running = w.ahead + (f c).stage.cost w.running := by
  rw [ahead, ahead, hconns, hrun]
  exact sum_map_modify hc

theorem ahead_stop {conns : List Conn} :
    (conns.map fun c => c.stage.cost false).sum ≤ (conns.map fun c => c.stage.cost w.running).sum :=
  List.sum_le_sum fun c _ => c.stage.cost_false_le w.running

theorem ahead_sweep (w : World) : w.shutdownActiveConnections.ahead = w.ahead := by
  have hsame : ∀ k c, (w.shutdown k c).stage = c.stage := by
    intro k c
    obtain ⟨shut, hs⟩ := w.shutdown_eq k c
    rw [hs]
  refine congrArg List.sum (List.ext_getElem? fun j => ?_)
  simp only [shutdownActiveConnections, List.getElem?_map, List.getElem?_mapIdx]
  cases w.conns[j]? <;> simp [hsame]

theorem Inv.ahead_submit (h : Inv w) (hl : w.loop = .submitting) : w.submit.ahead < w.ahead := by
  obtain ⟨-, c, hc, hstage⟩ := h.pending hl
  have hmoved : w.submit.ahead + _ = _ := ahead_modify hc rfl rfl
  have hto : Stage.cost w.running
      (if (w.pool.pool.trySubmit w.pool.results.length).2 then .queued else .refused) ≤ 8 := by
    split
    · exact Nat.le_refl 8
    · exact Nat.le_add_left 1 7
  simp only [hstage] at hmoved
  have hfrom : Stage.cost w.running .accepted = 9 := rfl
  omega

theorem Run.cost_lt (hs : Run w w') (hi : Inv w) (hl : w.loop ≠ .idle) (hpipe : w.pipe ≠ 0)
    (hno : w.loop = .polling → w.running = true → w'.loop ≠ .testing) : w'.cost < w.cost := by
  cases hs with
  | begin hl' => exact absurd hl' hl
  | test hl => cases hr : w.running <;> simp [cost, ahead, hl, hr, Loop.cost]
  | poll result hl =>
    cases result with
    | interrupted =>
      cases hr : w.running with
      | true => exact absurd rfl (hno hl hr)
      | false => simp [cost, ahead, hl, hr, Loop.cost, afterPoll]
    | failed => simp [cost, ahead, hl, Loop.cost, afterPoll]
    | ready listening => simp [cost, ahead, hl, Loop.cost, afterPoll, hpipe]
  | @accept fd hl _ =>
    have hmore : (w.accept fd).ahead = w.ahead + 9 := by
      simp only [ahead, World.accept, List.map_append, List.sum_append]
      rfl
    simp only [cost, hmore, hl]
    simp only [World.accept, Loop.cost]
    omega
  | acceptFailed transient hl =>
    cases transient <;> cases hr : w.running <;> simp [cost, ahead, hl, hr, Loop.cost]
  | submit hl =>
    have hnext : w.submit.cost = w.submit.loop.cost w.running w.pool.workers.length +
        w.submit.ahead + w.pool.submit.cost := rfl
    have hto : w.submit.loop.cost w.running w.pool.workers.length ≤
        2 * w.pool.workers.length + 11 := by
      rcases w.submit_loop with hl' | hl' <;> rw [hl'] <;> cases w.running <;> simp [Loop.cost]
    have hahead := hi.ahead_submit hl
    have hpool := w.pool.cost_submit
    have hfrom : Loop.cost w.running w.pool.workers.length .submitting =
      2 * w.pool.workers.length + 16 := rfl
    rw [hnext, cost, hl]
    omega
  | @refuse k c hl hc =>
    have hmoved : World.ahead { w.close k c.fd with loop := .testing } + _ = _ :=
      ahead_modify hc rfl rfl
    have hstage := (hi.tracked k c hc).refused.2 hl
    simp only [hstage, Stage.cost] at hmoved
    simp only [cost, hl, Loop.cost]
    cases hr : w.running <;> simp [World.close, hr] at hmoved ⊢ <;> omega
  | clearFlag hl =>
    have hle := @ahead_stop w w.conns
    simp only [cost, hl, Loop.cost, ahead]
    omega
  | sweep hl =>
    have hnext : World.cost { w.shutdownActiveConnections with loop := .draining } =
        2 * w.pool.workers.length + 5 + w.shutdownActiveConnections.ahead + w.pool.cost := rfl
    rw [hnext, ahead_sweep, cost, hl]
    simp only [Loop.cost]
    omega
  | shutdown hl =>
    have hnext : World.cost { w with pool := w.pool.shutdown, loop := .joining } =
        1 + w.ahead + w.pool.shutdown.cost := rfl
    rw [hnext, ThreadPool.System.cost_shutdown, cost, hl]
    simp only [Loop.cost]
    omega
  | drained hl _ => simp [cost, ahead, hl, Loop.cost]

theorem Serve.moves {k : Nat} {c : Conn} (hs : Serve k c w w') :
    ∃ f : Conn → Conn, w'.conns = w.conns.modify k f ∧
      (w'.running = w.running ∧ w'.loop = w.loop ∧ w'.pool = w.pool) ∧
      ((f c).stage.cost w.running < c.stage.cost w.running ∨
        Handles w.running c.stage (f c).stage) := by
  cases hs with
  | register hstage =>
    refine ⟨_, rfl, ⟨rfl, rfl, rfl⟩, .inl ?_⟩
    rw [hstage]
    exact Nat.lt_succ_self 7
  | check hstage =>
    refine ⟨_, rfl, ⟨rfl, rfl, rfl⟩, .inl ?_⟩
    rw [hstage]
    show Stage.cost w.running (if w.running then .entering else .leaving) < 7
    split <;> exact Nat.lt_of_sub_eq_succ rfl
  | handle hm => exact ⟨_, rfl, ⟨rfl, rfl, rfl⟩, .inr hm⟩
  | throw hm => exact ⟨_, rfl, ⟨rfl, rfl, rfl⟩, .inl (Stage.cost_pos_of_mayThrow hm _)⟩
  | close hstage =>
    refine ⟨_, rfl, ⟨rfl, rfl, rfl⟩, .inl ?_⟩
    rw [hstage]
    exact Nat.two_pos

theorem Serve.cost_le {k : Nat} {c : Conn} (hs : Serve k c w w') (hc : w.conns[k]? = some c) :
    w'.cost ≤ w.cost ∧
      ((c.stage = .testing ∨ c.stage.onSocket = true → w.running = false) → w'.cost < w.cost) := by
  obtain ⟨f, hconns, ⟨hrun, hloop, hpool⟩, hstage⟩ := hs.moves
  have hmoved := ahead_modify hc hconns hrun
  rw [cost, cost, hrun, hloop, hpool]
  rcases hstage with hlt | hm
  · exact ⟨by omega, fun _ => by omega⟩
  · have hle := hm.cost_le
    refine ⟨by omega, fun hno => ?_⟩
    have hlt := hm.cost_lt hno
    omega

theorem Goes.cost_lt (hg : Goes w w') (h : Reachable threadCount maxQueuedTasks w)
    (hpipe : w.pipe ≠ 0) : w'.cost < w.cost := by
  cases hg with
  | run hs hl hno => exact hs.cost_lt h.inv hl hpipe hno
  | @serve _ k c _ hc hs hwaits htest =>
    refine (hs.cost_le hc).2 fun hstage => ?_
    rcases hstage with ht | hon
    · exact htest ht
    · have hshut : c.shut = true := by simpa [Conn.waits, hon] using hwaits
      have hswept := h.shut.late c (List.mem_of_getElem? hc) hshut
      exact h.inv.flag (Loop.flagDown_of_swept hswept)
  | pool _ hw =>
    have hlt := hw.cost_lt
    simp only [cost, ahead, hw.lengths.1]
    omega

theorem Others.cost_le (ho : Others w w') : w'.cost ≤ w.cost := by
  cases ho with
  | client _ hc hs _ => exact (hs.cost_le hc).1
  | stop =>
    have hahead := @ahead_stop w w.conns
    have hloop : w.loop.cost false w.pool.workers.length ≤
        w.loop.cost w.running w.pool.workers.length := by
      cases w.running <;> cases w.loop <;> simp [Loop.cost]
    simp only [cost, ahead]
    omega
  | wake _ | file _ => exact Nat.le_refl _

theorem afterPoll_ne_idle (w : World) (result : PollResult) : w.afterPoll result ≠ .idle := by
  cases result with
  | interrupted | failed => simp [afterPoll]
  | ready listening =>
    simp only [afterPoll]
    split
    · simp
    · split <;> simp

theorem Step.forward (hs : Step w w') :
    (w.loop ≠ .idle → w'.loop ≠ .idle) ∧ w.pipe ≤ w'.pipe := by
  cases hs with
  | run hs =>
    refine ⟨fun hl hl' => ?_, ?_⟩
    · cases hs with
      | test _ => cases hr : w.running <;> rw [hr] at hl' <;> cases hl'
      | poll result _ => exact afterPoll_ne_idle w result hl'
      | acceptFailed transient _ => cases transient <;> cases hl'
      | submit _ => rcases w.submit_loop with hn | hn <;> cases hn.symm.trans hl'
      | _ => cases hl'
    · cases hs <;> exact Nat.le_refl _
  | serve _ _ hs => cases hs <;> exact ⟨id, Nat.le_refl _⟩
  | wake _ => exact ⟨id, Nat.le_succ _⟩
  | _ => exact ⟨id, Nat.le_refl _⟩

theorem Step.drained (hs : Step w w') (hl : w.loop = .drained) : w'.loop = .drained := by
  cases hs with
  | run hs =>
    cases hs with
    | begin h | test h | poll _ h | accept h _ | acceptFailed _ h | submit h | refuse h _
    | clearFlag h | sweep h | shutdown h | drained h _ => cases hl.symm.trans h
  | serve _ _ hs => cases hs <;> exact hl
  | _ => exact hl

/-! ### Somebody can go on -/

theorem Reachable.exists_conn (h : Reachable threadCount maxQueuedTasks w) {k : Nat}
    (hk : .running k ∈ w.pool.workers) : ∃ c, w.conns[k]? = some c := by
  have hheld : k ∈ w.pool.held := List.mem_filterMap.2 ⟨_, hk, rfl⟩
  have haccepted : k ∈ w.pool.accepted := by
    rw [h.pool.inv.1.perm.mem_iff]
    simp [hheld]
  have hlt := (List.getElem?_eq_some_iff.1 (ThreadPool.System.mem_accepted.1 haccepted)).1
  have hlength := h.inv.length
  exact ⟨_, List.getElem?_eq_getElem (Nat.lt_of_lt_of_le hlt (by omega))⟩

theorem exists_serve {k : Nat} {c : Conn} (hflag : w.running = false)
    (hserved : c.stage.served = true) (hne : c.stage ≠ .thrown) : ∃ w', Serve k c w w' := by
  have handle : ∀ {s s' : Stage}, c.stage = s → Handles w.running s s' → ∃ w', Serve k c w w' := by
    rintro s s' rfl hm
    exact ⟨_, .handle hm⟩
  cases hstage : c.stage with
  | queued => exact ⟨_, .register hstage⟩
  | registered => exact ⟨_, .check hstage⟩
  | entering => exact handle hstage .start
  | testing => exact handle hstage (.stopped hflag)
  | receiving => exact handle hstage .disconnected
  | working => exact handle hstage .dropped
  | leaving => exact ⟨_, .close hstage⟩
  | thrown => exact absurd hstage hne
  | accepted | refused | closed => rw [hstage] at hserved; cases hserved

theorem Reachable.goes_running (h : Reachable threadCount maxQueuedTasks w)
    (hl : w.loop = .joining) {k : Nat} (hk : .running k ∈ w.pool.workers) : ∃ w', Goes w w' := by
  have hswept : w.loop.swept = true := by rw [hl]; rfl
  have hflag := h.inv.flag (Loop.flagDown_of_swept hswept)
  obtain ⟨c, hc⟩ := h.exists_conn hk
  have ht := h.inv.tracked k c hc
  have serves : c.stage.served = true → c.stage ≠ .thrown → ∃ w', Goes w w' := by
    intro hserved hne
    obtain ⟨w', hs⟩ : ∃ w', Serve k c w w' := exists_serve hflag hserved hne
    refine ⟨w', .serve hk hc hs ?_ fun _ => hflag⟩
    cases hon : c.stage.onSocket with
    | false => simp [Conn.waits, hon]
    | true => simp [Conn.waits, h.shut.reached hswept c (List.mem_of_getElem? hc) hon]
  obtain ⟨l, r, hw⟩ := List.append_of_mem hk
  cases hstage : c.stage with
  | accepted => cases hl.symm.trans (ht.accepted.1 hstage).1
  | refused => cases hl.symm.trans (ht.refused.1 hstage)
  | closed => exact ⟨_, .pool (.taskReturn hw hc hstage) (.taskReturn hw)⟩
  | thrown => exact ⟨_, .pool (.taskThrow hw hc hstage) (.taskThrow hw)⟩
  | _ => exact serves (by rw [hstage]; rfl) (by simp [hstage])

/-- `run` waits for the pool only while somebody can go on. -/
theorem Reachable.goes_joining (h : Reachable threadCount maxQueuedTasks w)
    (hl : w.loop = .joining) : ∃ w', Goes w w' := by
  obtain ⟨-, hthreads, hattended⟩ := h.pool.inv
  by_cases hr : .returned ∈ w.pool.shutdowns
  · exact ⟨_, .run (.drained hl hr) (by simp [hl]) (by simp [hl])⟩
  · obtain ⟨c, hc⟩ := List.exists_mem_of_ne_nil _ (h.shut.joins hl)
    have hunsettled : ¬ w.pool.Settled := fun hs => hr (hs.2.2 c hc ▸ hc)
    obtain ⟨pool, hwork⟩ := ThreadPool.System.exists_work hthreads hattended hunsettled
    rcases hwork.ends_or_keeps with ⟨k, hk⟩ | hkeeps
    · exact h.goes_running hl hk
    · exact ⟨_, .pool (.work hwork hkeeps) hwork⟩

theorem Reachable.goes (h : Reachable threadCount maxQueuedTasks w) (hidle : w.loop ≠ .idle)
    (hnot : w.loop ≠ .drained) (hpipe : w.pipe ≠ 0) : ∃ w', Goes w w' := by
  cases hl : w.loop with
  | idle => exact absurd hl hidle
  | drained => exact absurd hl hnot
  | testing => exact ⟨_, .run (.test hl) hidle (by simp [hl])⟩
  | polling =>
    exact ⟨_, .run (.poll (.ready false) hl) hidle fun _ _ => by simp [afterPoll, hpipe]⟩
  | accepting => exact ⟨_, .run (.acceptFailed true hl) hidle (by simp [hl])⟩
  | submitting => exact ⟨_, .run (.submit hl) hidle (by simp [hl])⟩
  | refusing k =>
    have hc := List.getElem?_eq_getElem (h.inv.refusing k hl)
    exact ⟨_, .run (.refuse hl hc) hidle (by simp [hl])⟩
  | stopping => exact ⟨_, .run (.clearFlag hl) hidle (by simp [hl])⟩
  | sweeping => exact ⟨_, .run (.sweep hl) hidle (by simp [hl])⟩
  | draining => exact ⟨_, .run (.shutdown hl) hidle (by simp [hl])⟩
  | joining => exact h.goes_joining hl

theorem Run.sorts (hs : Run w w') (hidle : w.loop ≠ .idle) : Goes w w' ∨ Disturbs w w' := by
  by_cases hnext : w.loop = .polling → w.running = true → w'.loop ≠ .testing
  · exact .inl (.run hs hidle hnext)
  · simp only [Classical.not_imp, not_not] at hnext
    obtain ⟨hl, hrun, hl'⟩ := hnext
    cases hs with
    | poll result _ =>
      have he : w.afterPoll result = .testing := hl'
      rw [he]
      exact .inr (.signal hl hrun)
    | begin h | test h | accept h _ | acceptFailed _ h | submit h | refuse h _ | clearFlag h
    | sweep h | shutdown h | drained h _ => cases hl.symm.trans h

theorem Step.sorts (hs : Step w w') (hidle : w.loop ≠ .idle) :
    Goes w w' ∨ Others w w' ∨ Disturbs w w' := by
  cases hs with
  | run hs => exact (hs.sorts hidle).imp_right .inr
  | @serve _ k c hr hc hs =>
    by_cases hturn : c.waits = true ∨ c.stage = .testing ∧ w.running = true
    · exact .inr (.inl (.client hr hc hs hturn))
    · obtain ⟨hwaits, htest⟩ := not_or.1 hturn
      refine .inl (.serve hr hc hs (Bool.eq_false_iff.2 hwaits) fun hstage => ?_)
      exact Bool.eq_false_iff.2 fun hrun => htest ⟨hstage, hrun⟩
  | stop => exact .inr (.inl (.stop w))
  | wake hn => exact .inr (.inl (.wake hn))
  | taskReturn hw hc hstage => exact .inl (.pool (.taskReturn hw hc hstage) (.taskReturn hw))
  | taskThrow hw hc hstage => exact .inl (.pool (.taskThrow hw hc hstage) (.taskThrow hw))
  | work hw hin => exact .inl (.pool (.work hw hin) hw)
  | wakeup hw => exact .inr (.inr (.wakeup hw))
  | «open» hfd => exact .inr (.inl (.file (.open hfd)))
  | closeForeign hfd => exact .inr (.inl (.file (.closeForeign hfd)))

/-- **`run` shuts its pool down.** Once `stop` has written its byte there are boundedly many steps
of the server before `shutdown` of the pool has returned, whatever the clients do or fail to do
meanwhile. Apart from these steps and those of others there are only signals and wakeups without
a reason. -/
theorem run_drains (h : Reachable threadCount maxQueuedTasks w) (hidle : w.loop ≠ .idle)
    (hpipe : w.pipe ≠ 0) :
    FinishesAmid Others Goes (fun w => w.loop = .drained) w.cost w ∧
      ∀ w', Step w w' → Goes w w' ∨ Others w w' ∨ Disturbs w w' := by
  refine ⟨finishesAmid_of_measure (I := fun w => Reachable threadCount maxQueuedTasks w ∧
    w.loop ≠ .idle ∧ w.pipe ≠ 0) ?_ ?_ ?_ ⟨h, hidle, hpipe⟩, fun w' hs => hs.sorts hidle⟩
  · rintro w w' ⟨h, hidle, hpipe⟩ hg
    obtain ⟨hloop, hle⟩ := hg.step.forward
    exact ⟨⟨h.step hg.step, hloop hidle, by omega⟩, hg.cost_lt h hpipe⟩
  · rintro w w' ⟨h, hidle, hpipe⟩ ho
    obtain ⟨hloop, hle⟩ := ho.step.forward
    exact ⟨⟨h.step ho.step, hloop hidle, by omega⟩, ho.cost_le⟩
  · rintro w ⟨h, hidle, hpipe⟩ hnot
    exact h.goes hidle hnot hpipe

/-- A client that stays silent does not keep the pool up. -/
theorem run_drains_silent : ∃ w, Reachable 1 0 w ∧ w.loop = .testing ∧ w.pipe = 1 ∧
    w.conns = [{ fd := 3, stage := .receiving }] ∧
    FinishesAmid Others Goes (fun w => w.loop = .drained) w.cost w := by
  have h := (reachable_waiting.step (.stop _)).step (@Step.wake _ 0 rfl)
  exact ⟨_, h, rfl, rfl, rfl, (run_drains h (by decide) (by decide)).1⟩

end World

end Server

end VCache
