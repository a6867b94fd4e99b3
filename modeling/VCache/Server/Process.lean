import VCache.Background.Scheduler
import VCache.Background.Sweeper
import VCache.Server.Return

/-!
# `run` returns

Behind the shutdown of its pool `run` stops the sweeper and then the scheduler, where there are
any. Their threads may be asleep, in the middle of a pass or of a save, or in a queue at the
mutex of the store.

Each part goes its own way until it is its turn. The sweeper and the scheduler see the database
from where they are: what everybody else does to it is among the steps of others there. With the
workers gone nobody begins another save, so whoever is in one gets through.
-/

namespace VCache

open Lib

namespace Server

open ExpirationSweeper (Sweeping)
open SnapshotScheduler (Scheduling)

/-- What `run` is at: its loop and the pool, one of the two calls of `stop`, or nothing more. -/
inductive Turn where
  | pool
  | sweeper
  | scheduler
  | returned
deriving DecidableEq

/-- The server with its background threads, where the configuration has them. -/
structure Process where
  world : World
  sweeper : Option Sweeping
  scheduler : Option Scheduling
  turn : Turn := .pool

namespace Process

section

variable (configured me : Nat) (interval : Int)

/-- What `run` does behind its loop. It goes on from a call of `stop` when that has returned. -/
inductive Calls (p : Process) : Process → Prop where
  | stopSweeper {sweeper : Option Sweeping} : p.turn = .pool → p.world.loop = .drained →
      Option.Rel (fun s s' => s.moveTimer configured .stop = some s') p.sweeper sweeper →
      Calls p { p with sweeper, turn := .sweeper }
  | stopScheduler {scheduler : Option Scheduling} : p.turn = .sweeper →
      (∀ s, p.sweeper = some s → s.timer.owner = .idle) →
      Option.Rel (fun c c' => c.moveTimer me interval .stop = some c') p.scheduler scheduler →
      Calls p { p with scheduler, turn := .scheduler }
  | «return» : p.turn = .scheduler → (∀ c, p.scheduler = some c → c.timer.owner = .idle) →
      Calls p { p with turn := .returned }

/-- Nobody but `run` calls `stop`, so an owner at rest stays so. Nobody but a worker and the
scheduler begins to save. -/
inductive Step (p : Process) : Process → Prop where
  | calls {p' : Process} : Calls configured me interval p p' → Step p p'
  | world {world : World} : p.world.Step world → Step p { p with world }
  | sweeper {s s' : Sweeping} : p.sweeper = some s → Sweeping.Step configured s s' →
      (s.timer.owner = .idle → s'.timer.owner = .idle) → Step p { p with sweeper := some s' }
  | scheduler {c c' : Scheduling} : p.scheduler = some c → Scheduling.Step me interval c c' →
      (c.timer.owner = .idle → c'.timer.owner = .idle) →
      ((∃ k, .running k ∈ p.world.pool.workers) ∨ Scheduling.NoNewSaves me c c') →
      Step p { p with scheduler := some c' }

inductive Reachable (threadCount maxQueuedTasks : Nat) : Process → Prop where
  | start {world : World} {sweeper : Option Sweeping} {scheduler : Option Scheduling} :
      world.Reachable threadCount maxQueuedTasks →
      (∀ s, sweeper = some s → s.Reachable configured ∧ s.timer.owner = .idle) →
      (∀ c, scheduler = some c → c.Reachable me interval ∧ c.timer.owner = .idle) →
      Reachable threadCount maxQueuedTasks { world, sweeper, scheduler }
  | step {p p' : Process} : Reachable threadCount maxQueuedTasks p →
      Step configured me interval p p' → Reachable threadCount maxQueuedTasks p'

/-- What takes `run` on: its own steps, the server's until the pool is down, and then those of
the thread that is to be joined. -/
inductive Goes (p : Process) : Process → Prop where
  | calls {p' : Process} : Calls configured me interval p p' → Goes p p'
  | world {world : World} : p.turn = .pool → p.world.Goes world → Goes p { p with world }
  | sweeper {s s' : Sweeping} : p.turn = .sweeper → p.sweeper = some s →
      s.timer.owner ≠ .idle → Sweeping.Prompt configured s s' → Goes p { p with sweeper := some s' }
  | scheduler {c c' : Scheduling} : p.turn = .scheduler → p.scheduler = some c →
      c.timer.owner ≠ .idle → Scheduling.Prompt me interval c c' →
      Goes p { p with scheduler := some c' }

/-- Everything that goes on beside it. -/
inductive Others (p : Process) : Process → Prop where
  | clients {world : World} : p.turn = .pool → p.world.Others world → Others p { p with world }
  | late {world : World} : p.turn ≠ .pool → p.world.Step world → Others p { p with world }
  | sweeper {s s' : Sweeping} : p.sweeper = some s → Sweeping.Step configured s s' →
      (s.timer.owner = .idle → s'.timer.owner = .idle) →
      (p.turn = .sweeper → s.timer.owner ≠ .idle → Sweeping.Others configured s s' ∨ s' = s) →
      Others p { p with sweeper := some s' }
  | scheduler {c c' : Scheduling} : p.scheduler = some c → Scheduling.Step me interval c c' →
      (c.timer.owner = .idle → c'.timer.owner = .idle) →
      ((∃ k, .running k ∈ p.world.pool.workers) ∨ Scheduling.NoNewSaves me c c') →
      (p.turn = .scheduler → c.timer.owner ≠ .idle →
        Scheduling.Others me interval c c' ∨ c' = c) →
      Others p { p with scheduler := some c' }

end

def Disturbs (p p' : Process) : Prop :=
  p.turn = .pool ∧ ∃ world, p.world.Disturbs world ∧ p' = { p with world }

/-! ### Runs -/

section

variable {α : Type} {r : α → α → Prop} {o : Option α}

theorem exists_rel (h : ∀ a, o = some a → ∃ b, r a b) : ∃ o', Option.Rel r o o' := by
  cases o with
  | none => exact ⟨none, .none⟩
  | some a =>
    obtain ⟨b, hb⟩ := h a rfl
    exact ⟨some b, .some hb⟩

theorem exists_of_rel {b : α} (h : Option.Rel r o (some b)) : ∃ a, o = some a ∧ r a b := by
  cases h with
  | some h => exact ⟨_, rfl, h⟩

end

structure Inv (configured me : Nat) (interval : Int) (threadCount maxQueuedTasks : Nat)
    (p : Process) : Prop where
  world : p.world.Reachable threadCount maxQueuedTasks
  sweeper : ∀ s, p.sweeper = some s →
    s.Reachable configured ∧ (p.turn ≠ .sweeper → s.timer.owner = .idle)
  scheduler : ∀ c, p.scheduler = some c →
    c.Reachable me interval ∧ (p.turn ≠ .scheduler → c.timer.owner = .idle)
  drained : p.turn ≠ .pool → p.world.loop = .drained

variable {configured me threadCount maxQueuedTasks : Nat} {interval : Int} {p p' : Process}

theorem Calls.inv (hs : Calls configured me interval p p')
    (h : Inv configured me interval threadCount maxQueuedTasks p) :
    Inv configured me interval threadCount maxQueuedTasks p' := by
  cases hs with
  | stopSweeper ht hl hm =>
    refine ⟨h.world, fun s' he => ?_, fun c hc => ?_, fun _ => hl⟩
    · cases he
      obtain ⟨s, hsome, hm⟩ := exists_of_rel hm
      exact ⟨(h.sweeper s hsome).1.step (.timer .stop (by simp) hm), fun hne => absurd rfl hne⟩
    · exact ⟨(h.scheduler c hc).1, fun _ => (h.scheduler c hc).2 (by simp [ht])⟩
  | stopScheduler ht hrest hm =>
    refine ⟨h.world, fun s hs => ⟨(h.sweeper s hs).1, fun _ => hrest s hs⟩, fun c' he => ?_,
      fun _ => h.drained (by simp [ht])⟩
    cases he
    obtain ⟨c, hsome, hm⟩ := exists_of_rel hm
    exact ⟨(h.scheduler c hsome).1.step (.timer .stop (by simp) hm), fun hne => absurd rfl hne⟩
  | «return» ht hrest =>
    exact ⟨h.world, fun s hs => ⟨(h.sweeper s hs).1, fun _ => (h.sweeper s hs).2 (by simp [ht])⟩,
      fun c hc => ⟨(h.scheduler c hc).1, fun _ => hrest c hc⟩, fun _ => h.drained (by simp [ht])⟩

theorem Step.inv (hs : Step configured me interval p p')
    (h : Inv configured me interval threadCount maxQueuedTasks p) :
    Inv configured me interval threadCount maxQueuedTasks p' := by
  cases hs with
  | calls hc => exact hc.inv h
  | world hw =>
    exact ⟨h.world.step hw, h.sweeper, h.scheduler, fun ht => hw.drained (h.drained ht)⟩
  | sweeper hsome hs hrest =>
    obtain ⟨hr, hidle⟩ := h.sweeper _ hsome
    refine ⟨h.world, fun s' he => ?_, h.scheduler, h.drained⟩
    cases he
    exact ⟨hr.step hs, fun ht => hrest (hidle ht)⟩
  | scheduler hsome hs hrest _ =>
    obtain ⟨hr, hidle⟩ := h.scheduler _ hsome
    refine ⟨h.world, h.sweeper, fun c' he => ?_, h.drained⟩
    cases he
    exact ⟨hr.step hs, fun ht => hrest (hidle ht)⟩

theorem Reachable.inv (h : Reachable configured me interval threadCount maxQueuedTasks p) :
    Inv configured me interval threadCount maxQueuedTasks p := by
  induction h with
  | start hw hs hc =>
    exact ⟨hw, fun s he => ⟨(hs s he).1, fun _ => (hs s he).2⟩,
      fun c he => ⟨(hc c he).1, fun _ => (hc c he).2⟩, fun ht => absurd rfl ht⟩
  | step _ hs ih => exact hs.inv ih

/-- Behind the shutdown of the pool nobody is left to begin a save. -/
theorem Inv.no_worker (h : Inv configured me interval threadCount maxQueuedTasks p)
    (ht : p.turn ≠ .pool) : ¬∃ k, .running k ∈ p.world.pool.workers := by
  rintro ⟨k, hk⟩
  cases h.world.pool.inv.2.1.returned (h.world.inv.drained (h.drained ht)) _ hk

theorem Goes.step (hg : Goes configured me interval p p') : Step configured me interval p p' := by
  cases hg with
  | calls hc => exact .calls hc
  | world _ hw => exact .world hw.step
  | sweeper _ hsome ho hs => exact .sweeper hsome hs.step fun he => absurd he ho
  | scheduler _ hsome ho hs =>
    exact .scheduler hsome hs.step (fun he => absurd he ho) (.inr hs.noNewSaves)

theorem Others.step (ho : Others configured me interval p p') :
    Step configured me interval p p' := by
  cases ho with
  | clients _ hw => exact .world hw.step
  | late _ hw => exact .world hw
  | sweeper hsome hs hrest _ => exact .sweeper hsome hs hrest
  | scheduler hsome hs hrest hnew _ => exact .scheduler hsome hs hrest hnew

theorem Step.sorts (hs : Step configured me interval p p')
    (h : Inv configured me interval threadCount maxQueuedTasks p) (hidle : p.world.loop ≠ .idle) :
    Goes configured me interval p p' ∨ Others configured me interval p p' ∨ Disturbs p p' := by
  cases hs with
  | calls hc => exact .inl (.calls hc)
  | world hw =>
    by_cases ht : p.turn = .pool
    · rcases hw.sorts hidle with hg | ho | hd
      · exact .inl (.world ht hg)
      · exact .inr (.inl (.clients ht ho))
      · exact .inr (.inr ⟨ht, _, hd, rfl⟩)
    · exact .inr (.inl (.late ht hw))
  | @sweeper s s' hsome hs hrest =>
    by_cases hprompt : p.turn = .sweeper ∧ s.timer.owner ≠ .idle ∧ Sweeping.Prompt configured s s'
    · exact .inl (.sweeper hprompt.1 hsome hprompt.2.1 hprompt.2.2)
    · refine .inr (.inl (.sweeper hsome hs hrest fun ht hown => ?_))
      exact (hs.sorts (h.sweeper s hsome).1.inv hown).resolve_left fun hp => hprompt ⟨ht, hown, hp⟩
  | @scheduler c c' hsome hs hrest hnew =>
    by_cases hprompt : p.turn = .scheduler ∧ c.timer.owner ≠ .idle ∧
        Scheduling.Prompt me interval c c'
    · exact .inl (.scheduler hprompt.1 hsome hprompt.2.1 hprompt.2.2)
    · refine .inr (.inl (.scheduler hsome hs hrest hnew fun ht hown => ?_))
      obtain ⟨found, hsaves⟩ := (h.scheduler c hsome).1.saves.inv
      have hnone := hnew.resolve_left (h.no_worker (by simp [ht]))
      exact (hs.sorts hsaves hown hnone).resolve_left fun hp => hprompt ⟨ht, hown, hp⟩

/-! ### To the end of the sweeper -/

/-- What is ahead of `run` before it comes to the scheduler. -/
def front (p : Process) : Nat ×ₗ WithBot Nat :=
  match p.turn with
  | .pool => toLex (1, ↑p.world.cost)
  | _ => toLex (0, p.sweeper.elim ⊥ fun s => s.timer.owner.pending s.cost)

structure Front (configured me : Nat) (interval : Int) (threadCount maxQueuedTasks : Nat)
    (p : Process) : Prop extends Inv configured me interval threadCount maxQueuedTasks p where
  turn : p.turn = .pool ∨ p.turn = .sweeper
  begun : p.world.loop ≠ .idle
  called : p.world.pipe ≠ 0

theorem Front.move (h : Front configured me interval threadCount maxQueuedTasks p) {world : World}
    (hw : p.world.Step world) :
    Front configured me interval threadCount maxQueuedTasks { p with world } := by
  obtain ⟨hloop, hle⟩ := hw.forward
  have hpipe := Nat.lt_of_lt_of_le (Nat.pos_of_ne_zero h.called) hle
  exact ⟨(Step.world hw).inv h.toInv, h.turn, hloop h.begun, Nat.pos_iff_ne_zero.1 hpipe⟩

theorem Goes.front (hg : Goes configured me interval p p')
    (h : Front configured me interval threadCount maxQueuedTasks p) :
    Inv configured me interval threadCount maxQueuedTasks p' ∧ p'.turn = .scheduler ∨
      Front configured me interval threadCount maxQueuedTasks p' ∧ p'.front < p.front := by
  have hinv := hg.step.inv h.toInv
  cases hg with
  | calls hc =>
    cases hc with
    | stopSweeper ht hl hm =>
      refine .inr ⟨⟨hinv, .inr rfl, h.begun, h.called⟩, ?_⟩
      simp only [Process.front, ht]
      exact Prod.Lex.toLex_lt_toLex.2 (.inl Nat.one_pos)
    | stopScheduler _ _ _ => exact .inl ⟨hinv, rfl⟩
    | «return» ht _ => rcases h.turn with he | he <;> cases ht.symm.trans he
  | world ht hw =>
    refine .inr ⟨h.move hw.step, ?_⟩
    simp only [Process.front, ht]
    have hlt := hw.cost_lt h.world h.called
    exact Prod.Lex.toLex_lt_toLex.2 (.inr ⟨rfl, WithBot.coe_lt_coe.2 hlt⟩)
  | sweeper ht hsome ho hs =>
    refine .inr ⟨⟨hinv, h.turn, h.begun, h.called⟩, ?_⟩
    simp only [Process.front, ht, hsome, Option.elim_some]
    have hlt := hs.cost_lt (h.sweeper _ hsome).1.inv
    exact Prod.Lex.toLex_lt_toLex.2 (.inr ⟨rfl, Periodic.Owner.pending_lt ho hlt⟩)
  | scheduler ht _ _ _ => rcases h.turn with he | he <;> cases ht.symm.trans he

theorem Others.front (ho : Others configured me interval p p')
    (h : Front configured me interval threadCount maxQueuedTasks p) :
    Front configured me interval threadCount maxQueuedTasks p' ∧ p'.front ≤ p.front := by
  have hinv := ho.step.inv h.toInv
  cases ho with
  | clients ht hw =>
    refine ⟨h.move hw.step, ?_⟩
    simp only [Process.front, ht]
    exact Prod.Lex.toLex_le_toLex.2 (.inr ⟨rfl, WithBot.coe_le_coe.2 hw.cost_le⟩)
  | late ht hw =>
    refine ⟨h.move hw, ?_⟩
    simp only [Process.front, h.turn.resolve_left ht, le_refl]
  | sweeper hsome hs hrest hother =>
    refine ⟨⟨hinv, h.turn, h.begun, h.called⟩, ?_⟩
    rcases h.turn with ht | ht <;> simp only [Process.front, ht, hsome, Option.elim_some, le_refl]
    refine Prod.Lex.toLex_le_toLex.2 (.inr ⟨rfl, Periodic.Owner.pending_le hrest fun hown => ?_⟩)
    rcases hother ht hown with hothers | rfl
    · exact (hothers.inv (h.sweeper _ hsome).1.inv).2
    · exact Nat.le_refl _
  | scheduler _ _ _ _ _ =>
    exact ⟨⟨hinv, h.turn, h.begun, h.called⟩, le_refl _⟩

theorem Front.goes (h : Front configured me interval threadCount maxQueuedTasks p) :
    ∃ p', Goes configured me interval p p' := by
  rcases h.turn with ht | ht
  · by_cases hl : p.world.loop = .drained
    · obtain ⟨sweeper, hm⟩ := @exists_rel _ (fun s s' => s.moveTimer configured .stop = some s')
        p.sweeper fun s hsome => by
          have hidle := (h.sweeper s hsome).2 (by simp [ht])
          simp [Sweeping.moveTimer, Periodic.Timer.perform, hidle]
      exact ⟨_, .calls (.stopSweeper ht hl hm)⟩
    · obtain ⟨world, hw⟩ := h.world.goes h.begun hl h.called
      exact ⟨_, .world ht hw⟩
  · by_cases hrest : ∀ s, p.sweeper = some s → s.timer.owner = .idle
    · obtain ⟨scheduler, hm⟩ := @exists_rel _
        (fun c c' => c.moveTimer me interval .stop = some c') p.scheduler fun c hsome => by
          have hidle := (h.scheduler c hsome).2 (by simp [ht])
          simp [Scheduling.moveTimer, Periodic.Timer.perform, hidle]
      exact ⟨_, .calls (.stopScheduler ht hrest hm)⟩
    · simp only [not_forall] at hrest
      obtain ⟨s, hsome, ho⟩ := hrest
      obtain ⟨s', hs⟩ : ∃ s', Sweeping.Prompt configured s s' := (h.sweeper s hsome).1.inv.prompt ho
      exact ⟨_, .sweeper ht hsome ho hs⟩

/-! ### To the end of the scheduler -/

/-- What is ahead of `run` then, with the threads in `F` as the only ones that save. -/
def back (F : Finset Nat) (p : Process) : Nat ×ₗ WithBot ((Nat ×ₗ Nat) ×ₗ Nat) :=
  match p.turn with
  | .returned => toLex (0, ⊥)
  | _ => toLex (1, p.scheduler.elim ⊥ fun c => c.timer.owner.pending (c.cost F))

structure Back (configured me : Nat) (interval : Int) (threadCount maxQueuedTasks : Nat)
    (F : Finset Nat) (p : Process) : Prop
    extends Inv configured me interval threadCount maxQueuedTasks p where
  turn : p.turn = .scheduler ∨ p.turn = .returned
  among : p.turn = .scheduler → ∀ c, p.scheduler = some c → c.timer.owner ≠ .idle →
    Scheduling.Among me F c

variable {F : Finset Nat}

theorem Goes.back (hg : Goes configured me interval p p')
    (h : Back configured me interval threadCount maxQueuedTasks F p) :
    Back configured me interval threadCount maxQueuedTasks F p' ∧ p'.back F < p.back F := by
  have hinv := hg.step.inv h.toInv
  cases hg with
  | calls hc =>
    cases hc with
    | stopSweeper ht _ _ | stopScheduler ht _ _ =>
      rcases h.turn with he | he <;> cases ht.symm.trans he
    | «return» ht _ =>
      refine ⟨⟨hinv, .inr rfl, fun he => by cases he⟩, ?_⟩
      simp only [Process.back, ht]
      exact Prod.Lex.toLex_lt_toLex.2 (.inl Nat.one_pos)
  | world ht _ | sweeper ht _ _ _ => rcases h.turn with he | he <;> cases ht.symm.trans he
  | scheduler ht hsome ho hs =>
    obtain ⟨hamong, hlt⟩ := hs.next (h.among ht _ hsome ho)
    refine ⟨⟨hinv, h.turn, fun _ c' he _ => ?_⟩, ?_⟩
    · cases he
      exact hamong
    · simp only [Process.back, ht, hsome, Option.elim_some]
      exact Prod.Lex.toLex_lt_toLex.2 (.inr ⟨rfl, Periodic.Owner.pending_lt ho hlt⟩)

theorem Others.back (ho : Others configured me interval p p')
    (h : Back configured me interval threadCount maxQueuedTasks F p) :
    Back configured me interval threadCount maxQueuedTasks F p' ∧ p'.back F ≤ p.back F := by
  have hinv := ho.step.inv h.toInv
  cases ho with
  | clients _ _ | late _ _ | sweeper _ _ _ _ => exact ⟨⟨hinv, h.turn, h.among⟩, le_refl _⟩
  | @scheduler c c' hsome hs hrest hnew hother =>
    have hnext : p.turn = .scheduler → c.timer.owner ≠ .idle →
        Scheduling.Among me F c' ∧ c'.cost F ≤ c.cost F := by
      intro ht hown
      have hamong := h.among ht c hsome hown
      rcases hother ht hown with hothers | rfl
      · exact hothers.next hamong
      · exact ⟨hamong, le_refl _⟩
    refine ⟨⟨hinv, h.turn, fun ht d he hown => ?_⟩, ?_⟩
    · cases he
      exact (hnext ht fun he => hown (hrest he)).1
    · rcases h.turn with ht | ht <;> simp only [Process.back, ht, hsome, Option.elim_some, le_refl]
      exact Prod.Lex.toLex_le_toLex.2
        (.inr ⟨rfl, Periodic.Owner.pending_le hrest fun hown => (hnext ht hown).2⟩)

theorem Back.goes (h : Back configured me interval threadCount maxQueuedTasks F p)
    (hnot : p.turn ≠ .returned) : ∃ p', Goes configured me interval p p' := by
  have ht := h.turn.resolve_right hnot
  by_cases hrest : ∀ c, p.scheduler = some c → c.timer.owner = .idle
  · exact ⟨_, .calls (.return ht hrest)⟩
  · simp only [not_forall] at hrest
    obtain ⟨c, hsome, ho⟩ := hrest
    obtain ⟨c', hs⟩ : ∃ c', Scheduling.Prompt me interval c c' := (h.among ht c hsome ho).prompt ho
    exact ⟨_, .scheduler ht hsome ho hs⟩

theorem Inv.ends_back (h : Inv configured me interval threadCount maxQueuedTasks p)
    (ht : p.turn = .scheduler ∨ p.turn = .returned) :
    EndsAmid (Others configured me interval) (Goes configured me interval)
      (fun p => p.turn = .returned) p := by
  obtain ⟨F, hF⟩ : ∃ F, ∀ c, p.scheduler = some c → Scheduling.Among me F c := by
    cases hsome : p.scheduler with
    | none => exact ⟨∅, fun c he => by cases he⟩
    | some c =>
      obtain ⟨F, hF⟩ := (h.scheduler c hsome).1.among
      exact ⟨F, fun d he => by cases he; exact hF⟩
  exact endsAmid_of_measure (m := Process.back F) (fun _ _ hi hg => hg.back hi)
    (fun _ _ hi ho => ho.back hi) (fun _ hi hnot => hi.goes hnot)
    ⟨h, ht, fun _ c hc _ => hF c hc⟩

/-- **`run` returns.** Once `stop` has written its byte there are only finitely many steps that
take `run` on, whatever the clients do or fail to do, however busy the database is and whoever
is in the middle of a save; and where there are no more of them it has returned. Apart from these
steps and those of others there are only signals and wakeups without a reason. -/
theorem run_returns (h : Reachable configured me interval threadCount maxQueuedTasks p)
    (hidle : p.world.loop ≠ .idle) (hpipe : p.world.pipe ≠ 0) :
    EndsAmid (Others configured me interval) (Goes configured me interval)
        (fun p => p.turn = .returned) p ∧
      ∀ p', Step configured me interval p p' →
        Goes configured me interval p p' ∨ Others configured me interval p p' ∨ Disturbs p p' := by
  refine ⟨?_, fun p' hs => hs.sorts h.inv hidle⟩
  have hfront : p.turn = .pool ∨ p.turn = .sweeper →
      EndsAmid (Others configured me interval) (Goes configured me interval)
        (fun p => p.turn = .returned) p := fun ht =>
    endsAmid_until (m := Process.front) (fun _ he => he.1.ends_back (.inl he.2))
      (fun _ _ hi hg => hg.front hi) (fun _ _ hi ho => ho.front hi) (fun _ hi _ => hi.goes)
      ⟨h.inv, ht, hidle, hpipe⟩
  cases ht : p.turn with
  | pool => exact hfront (.inl ht)
  | sweeper => exact hfront (.inr ht)
  | scheduler => exact h.inv.ends_back (.inl ht)
  | returned => exact h.inv.ends_back (.inr ht)

/-- A client stays silent, the sweeper is in the middle of a pass and the scheduler of a save. -/
theorem run_returns_busy : ∃ p s c, Reachable 16 7 1000 1 0 p ∧ p.turn = .pool ∧
    p.world.conns = [{ fd := 3, stage := .receiving }] ∧
    p.sweeper = some s ∧ s.timer.thread = some .working ∧
    p.scheduler = some c ∧ c.saves.holder = some 7 ∧
    EndsAmid (Others 16 7 1000) (Goes 16 7 1000) (fun p => p.turn = .returned) p := by
  obtain ⟨s, hs, hsrest, hpass⟩ : ∃ s, Sweeping.Reachable 16 s ∧ s.timer.owner = .idle ∧
      s.timer.thread = some .working := by
    have hchecked := ((((@Sweeping.Reachable.new 16 1 1 _ rfl 0).step
      (.timer .start (by simp) rfl)).step (.timer .owner (by simp) rfl)).step
      (.timer .owner (by simp) rfl)).step (.timer .check (by simp) rfl)
    exact ⟨_, hchecked.step (.timer .timeout (by simp) rfl), rfl, rfl⟩
  obtain ⟨c, hc, hcrest, hsave⟩ : ∃ c, Scheduling.Reachable 7 1000 c ∧ c.timer.owner = .idle ∧
      c.saves.holder = some 7 := by
    have hchecked := ((((.new (@Database.Watched.Reachable.new 1 1 _ rfl 0)
      (fun _ h => by cases h) : Scheduling.Reachable 7 1000
        ⟨⟨_, ⟨bytes "d", ⟨none, none⟩, 0, none, []⟩, _, _, _, _⟩, _⟩).step
      (.timer .start (by simp) rfl)).step (.timer .owner (by simp) rfl)).step
      (.timer .owner (by simp) rfl)).step (.timer .check (by simp) rfl)
    exact ⟨_, (hchecked.step (.timer .timeout (by simp) rfl)).step
      (.own (a := .lock 7) rfl (by simp) rfl rfl), rfl, rfl⟩
  have hw := (World.reachable_waiting.step (.stop _)).step (@World.Step.wake _ 0 rfl)
  have hr : Reachable 16 7 1000 1 0 ⟨_, some s, some c, .pool⟩ :=
    .start hw (fun _ he => Option.some.inj he ▸ ⟨hs, hsrest⟩)
      fun _ he => Option.some.inj he ▸ ⟨hc, hcrest⟩
  exact ⟨_, s, c, hr, rfl, rfl, rfl, hpass, rfl, hsave,
    (run_returns hr (by rintro ⟨⟩) Nat.one_ne_zero).1⟩

end Process

end Server

end VCache
