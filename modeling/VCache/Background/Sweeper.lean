import VCache.Database.Coherence
import VCache.Lib.Periodic

/-!
# The expiration sweeper

`ExpirationSweeper.h`, `ExpirationSweeper.cpp`: a thread on a timer whose work is
`removeExpired(bucketsPerPass)`. A pass goes from shard to shard and holds one lock at a
time, so calls of others come in between.

Starting and stopping is safe in any order and `stop` does not wait for the interval. The
counter of reclaimed entries is what the passes took out, whoever else is at the database.
-/

namespace VCache

open Lib Lib.Periodic Database

namespace ExpirationSweeper

structure Counters where
  totalReclaimed : Nat := 0
  passes : Nat := 0
deriving DecidableEq

/-- What the loop does with the number `removeExpired` returns. -/
def record (reclaimed : Nat) : List (Counters → Counters) :=
  [fun k => { k with totalReclaimed := k.totalReclaimed + reclaimed },
    fun k => { k with passes := k.passes + 1 }]

/-- The constructor's correction of the configuration. -/
def bucketsPerPass (configured : Nat) : Nat := if configured = 0 then 1 else configured

/-- A sweeper on a database that others use as well. `call` is the pass under way, `taken`
the number of entries its passes have taken out. -/
structure Sweeping where
  watch : Watched
  timer : Timer Counters Nat
  call : Option Call := none
  taken : Nat := 0

namespace Sweeping

/-- A thread that has waited to the end begins a pass. -/
def callAfter (configured : Nat) (s : Sweeping) (a : Periodic.Action Nat)
    (timer : Timer Counters Nat) : Option Call :=
  match a, timer.thread with
  | .timeout, some .working =>
    some (Call.of s.watch.sys.db.shards.length (.removeExpired (bucketsPerPass configured)))
  | _, _ => s.call

def moveTimer (configured : Nat) (s : Sweeping) (a : Periodic.Action Nat) : Option Sweeping :=
  (s.timer.perform record a).map fun timer =>
    { s with timer, call := callAfter configured s a timer }

def advance (s : Sweeping) : Option Sweeping :=
  s.call.map fun call =>
    { s with
      watch := s.watch.goOn call
      call := some (call.advance s.watch.sys.db s.watch.sys.clock).2
      taken := s.taken + (s.watch.sys.db.size - (s.watch.goOn call).sys.db.size) }

def finish (s : Sweeping) : Option Sweeping :=
  match s.call with
  | some (.returned (.count reclaimed)) =>
    (s.timer.perform record (.work reclaimed)).map fun timer => { s with timer, call := none }
  | _ => none

inductive Step (configured : Nat) : Sweeping → Sweeping → Prop where
  | background {s : Sweeping} {watch : Watched} : s.watch.Step watch →
      Step configured s { s with watch }
  | timer {s s' : Sweeping} (a : Periodic.Action Nat) : (∀ r, a ≠ .work r) →
      s.moveTimer configured a = some s' → Step configured s s'
  | advance {s s' : Sweeping} : s.advance = some s' → Step configured s s'
  | finish {s s' : Sweeping} : s.finish = some s' → Step configured s s'

inductive Reachable (configured : Nat) : Sweeping → Prop where
  | new {n shardCount : UInt64} {db : Database} (h : Database.new n shardCount = some db)
      (clock : Int) :
      Reachable configured { watch := { sys := { db, clock } }, timer := { counters := {} } }
  | step {s s' : Sweeping} : Reachable configured s → Step configured s s' → Reachable configured s'

/-! ### A pass -/

/-- The entries a call has counted so far. -/
def removedSoFar : Option Call → Nat
  | some (.removeExpired _ _ removed) => removed
  | some (.returned (.count removed)) => removed
  | _ => 0

/-- The call of a pass: at one of its shards, or returned. -/
inductive OnPass : Call → Prop where
  | visiting (perShard next removed : Nat) : OnPass (.removeExpired perShard next removed)
  | returned (removed : Nat) : OnPass (.returned (.count removed))

theorem onPass_of (shards configured : Nat) :
    OnPass (Call.of shards (.removeExpired (bucketsPerPass configured))) ∧
      removedSoFar (some (Call.of shards (.removeExpired (bucketsPerPass configured)))) = 0 := by
  have hpos : bucketsPerPass configured ≠ 0 := by
    unfold bucketsPerPass
    split <;> omega
  rw [Call.of, if_neg hpos]
  exact ⟨.visiting .., rfl⟩

theorem OnPass.made {call : Call} (h : OnPass call) : call.Made := by
  intro op he
  cases h <;> cases he

theorem OnPass.limitless {call : Call} (h : OnPass call) : call.Limitless := by
  intro bytes next he
  cases h <;> cases he

theorem size_setShard {db : Database} {i : Nat} {shard : Shard} (hs : db.shards[i]? = some shard)
    (shard' : Shard) :
    (db.setShard i shard').size + shard.table.size = db.size + shard'.table.size :=
  sum_map_set hs

/-- What a pass counts at a shard is what it takes out there. -/
theorem OnPass.advance {call : Call} (h : OnPass call) {db : Database} (hdb : db.AllValid)
    (now : Int) :
    OnPass (call.advance db now).2 ∧
      removedSoFar (some (call.advance db now).2) + (call.advance db now).1.size =
        removedSoFar (some call) + db.size := by
  cases h with
  | visiting perShard next removed =>
    simp only [Call.advance]
    split
    next => exact ⟨.returned removed, rfl⟩
    next shard hs =>
      refine ⟨.visiting .., ?_⟩
      have hsize := Shard.sweep_size (hdb next shard hs).holds perShard now
      have hset := size_setShard hs (shard.sweep perShard now).1
      simp only [removedSoFar]
      omega
  | returned removed => exact ⟨.returned removed, rfl⟩

/-! ### Runs -/

structure Inv (s : Sweeping) : Prop where
  watch : s.watch.Inv
  timer : Periodic.Reachable record {} s.timer
  working : s.call.isSome = true ↔ s.timer.thread = some .working
  pass : ∀ call, s.call = some call → OnPass call
  taken : s.taken = s.timer.results.sum + removedSoFar s.call

variable {configured : Nat} {s s' : Sweeping}

theorem Inv.none_of_not_working (h : s.Inv) (ht : s.timer.thread ≠ some .working) :
    s.call = none :=
  Option.not_isSome_iff_eq_none.1 fun hc => ht (h.working.1 hc)

theorem Inv.moveTimer {a : Periodic.Action Nat} (h : s.Inv) (hwork : ∀ r, a ≠ .work r)
    (hs : s.moveTimer configured a = some s') : s'.Inv := by
  obtain ⟨timer, ht, rfl⟩ := Option.map_eq_some_iff.1 hs
  have hr := h.timer.step a ht
  have hresults := results_perform ht hwork
  by_cases htime : a = .timeout
  · subst htime
    simp only [Timer.perform] at ht
    split at ht
    next hsleep =>
      have hcall := h.none_of_not_working (by rw [hsleep]; simp)
      have htaken := h.taken
      rw [hcall] at htaken
      cases ht
      cases hstop : s.timer.stopRequested with
      | true =>
        simp only [callAfter, Timer.test, hstop, if_true] at hr ⊢
        exact ⟨h.watch, hr, by simp [hcall], fun call hc => absurd (hcall.symm.trans hc) (by simp),
          by simpa [hcall] using htaken⟩
      | false =>
        obtain ⟨hpass, hzero⟩ := onPass_of s.watch.sys.db.shards.length configured
        simp only [callAfter, Timer.test, hstop, Bool.false_eq_true, if_false] at hr ⊢
        refine ⟨h.watch, hr, by simp, fun call hc => ?_, ?_⟩
        · cases hc
          exact hpass
        · exact htaken.trans (congrArg _ hzero.symm)
    next => cases ht
  · have hcall : callAfter configured s a timer = s.call := by
      unfold callAfter
      split
      next => exact absurd rfl htime
      next => rfl
    rw [hcall]
    refine ⟨h.watch, hr, h.working.trans (h.timer.inv.working_iff ht hwork htime).symm, h.pass, ?_⟩
    show s.taken = timer.results.sum + removedSoFar s.call
    rw [hresults]
    exact h.taken

theorem Inv.advance (h : s.Inv) (hs : s.advance = some s') : s'.Inv := by
  obtain ⟨call, hc, rfl⟩ := Option.map_eq_some_iff.1 hs
  have hon := h.pass call hc
  obtain ⟨hnext, hsize⟩ := hon.advance h.watch.coherent.valid s.watch.sys.clock
  have hgrow : removedSoFar (some call) ≤
      removedSoFar (some (call.advance s.watch.sys.db s.watch.sys.clock).2) := by
    cases hon with
    | visiting perShard next removed =>
      simp only [Call.advance]
      split
      next => exact Nat.le_refl _
      next => exact Nat.le_add_right _ _
    | returned removed => exact Nat.le_refl _
  refine ⟨h.watch.goOn hon.made hon.limitless, h.timer, ?_, fun call' hc' => ?_, ?_⟩
  · exact ⟨fun _ => h.working.1 (by rw [hc]; rfl), fun _ => rfl⟩
  · cases hc'
    exact hnext
  · have htaken := h.taken
    rw [hc] at htaken
    dsimp only [Watched.goOn]
    omega

theorem Inv.finish (h : s.Inv) (hs : s.finish = some s') : s'.Inv := by
  unfold Sweeping.finish at hs
  split at hs
  next reclaimed hc =>
    obtain ⟨timer, ht, rfl⟩ := Option.map_eq_some_iff.1 hs
    have hr := h.timer.step _ ht
    have hw := h.working.1 (by rw [hc]; rfl)
    simp only [Timer.perform, hw] at ht
    cases ht
    refine ⟨h.watch, hr, by simp, fun call hn => (by cases hn), ?_⟩
    have htaken := h.taken
    rw [hc] at htaken
    simpa [removedSoFar] using htaken
  next => cases hs

theorem Step.inv (hs : Step configured s s') (h : s.Inv) : s'.Inv := by
  cases hs with
  | background hw => exact ⟨hw.inv h.watch, h.timer, h.working, h.pass, h.taken⟩
  | timer a hwork hm => exact h.moveTimer hwork hm
  | advance ha => exact h.advance ha
  | finish hf => exact h.finish hf

theorem Reachable.inv (h : Reachable configured s) : s.Inv := by
  induction h with
  | new hnew clock =>
    refine ⟨(Watched.Reachable.new hnew clock).inv, .start, by simp, fun call hc => ?_, rfl⟩
    cases hc
  | step _ hs ih => exact hs.inv ih

theorem total_record (rs : List Nat) (k : Counters) : total record k rs =
    { totalReclaimed := k.totalReclaimed + rs.sum, passes := k.passes + rs.length } := by
  induction rs generalizing k with
  | nil => rfl
  | cons r rs ih =>
    refine (ih _).trans ?_
    simp only [applyAll, record, List.foldl_cons, List.foldl_nil, List.sum_cons, List.length_cons,
      Counters.mk.injEq]
    omega

/-- **A sweeper can be started and stopped at will, and it counts what it takes.** Whatever
calls others make and however they interleave with a pass, no thread is ever overwritten;
once `stop` has returned no pass is under way; and between passes `totalReclaimed` is the
number of entries that the passes took out of the database. -/
theorem counts_what_it_takes (h : Reachable configured s) :
    s.timer.crashed = false ∧
      (s.timer.owner = .idle → s.timer.running = false →
        s.timer.thread = none ∧ s.call = none) ∧
      (s.call = none → s.timer.unrecorded = [] →
        s.timer.counters = ⟨s.taken, s.timer.results.length⟩) := by
  have hi := h.inv
  obtain ⟨hsafe, hstopped, hcounted⟩ := hi.timer.safe
  refine ⟨hsafe, fun ho hr => ?_, fun hcall hu => ?_⟩
  · have hnone := hstopped ho hr
    exact ⟨hnone, hi.none_of_not_working (by rw [hnone]; simp)⟩
  · have htaken := hi.taken
    rw [hcall] at htaken
    rw [hcounted hu, total_record, htaken]
    simp [removedSoFar]

/-- A key lapses, a pass takes it out, and the sweeper is stopped. -/
theorem counts_what_it_takes_one : ∃ s, Reachable 16 s ∧ s.taken = 1 ∧ s.timer.running = false ∧
    s.timer.thread = none ∧ s.timer.counters = ⟨1, 1⟩ := by
  have hset := ((@Reachable.new 16 1 1 _ rfl 0).step
    (.background (.call (.setFor [107] [118] 5)))).step (.background (.advance (c := 0) rfl))
  have hpass := (((((hset.step (.background (.tick (t := 6 * second) (by decide)))).step
    (.timer .start (by simp) rfl)).step (.timer .owner (by simp) rfl)).step
    (.timer .owner (by simp) rfl)).step (.timer .check (by simp) rfl)).step
    (.timer .timeout (by simp) rfl)
  have hdone := ((((hpass.step (.advance rfl)).step (.advance rfl)).step (.finish rfl)).step
    (.timer .record (by simp) rfl)).step (.timer .record (by simp) rfl)
  have hr := (((((hdone.step (.timer .record (by simp) rfl)).step
    (.timer .stop (by simp) rfl)).step (.timer .owner (by simp) rfl)).step
    (.timer .check (by simp) rfl)).step (.timer .owner (by simp) rfl)).step
    (.timer .owner (by simp) rfl)
  obtain ⟨-, hstopped, hcounted⟩ := counts_what_it_takes hr
  exact ⟨_, hr, by decide +kernel, rfl, (hstopped rfl rfl).1,
    (hcounted (hstopped rfl rfl).2 rfl).trans (by decide +kernel)⟩

/-! ### Stopping -/

/-- What the sweeper and its owner do while no time passes and nobody calls. -/
inductive Prompt (configured : Nat) : Sweeping → Sweeping → Prop where
  | timer {s s' : Sweeping} {a : Periodic.Action Nat} : s.timer.Prompt a → (∀ r, a ≠ .work r) →
      s.moveTimer configured a = some s' → Prompt configured s s'
  | visit {s s' : Sweeping} {perShard next removed : Nat} :
      s.call = some (.removeExpired perShard next removed) → s.advance = some s' →
      Prompt configured s s'
  | finish {s s' : Sweeping} : s.finish = some s' → Prompt configured s s'

/-- What else may go on: calls on the database, and time passes for the thread. -/
def Others (configured : Nat) (s s' : Sweeping) : Prop :=
  (∃ watch, s.watch.Step watch ∧ s' = { s with watch }) ∨
    s.timer.owner ≠ .idle ∧
      ∃ a, (a = .wake ∨ a = .timeout) ∧ s.moveTimer configured a = some s'

def ahead (shards : Nat) : Option Call → Nat
  | some (.removeExpired _ next _) => shards - next + 1
  | _ => 0

def cost (s : Sweeping) : Nat := s.timer.cost 2 + ahead s.watch.sys.db.shards.length s.call

theorem length_record (reclaimed : Nat) : (record reclaimed).length ≤ 2 := Nat.le_refl 2

theorem Prompt.cost_lt (hs : Prompt configured s s') (h : s.Inv) : s'.cost < s.cost := by
  cases hs with
  | @timer a hprompt hwork hm =>
    obtain ⟨timer, ht, rfl⟩ := Option.map_eq_some_iff.1 hm
    have hlt := h.timer.inv.cost_lt length_record hprompt ht
    have hcall : callAfter configured s a timer = s.call := by
      unfold callAfter
      split
      next => exact hprompt.elim
      next => rfl
    simp only [cost, hcall]
    omega
  | @visit perShard next removed hc ha =>
    simp only [Sweeping.advance, hc, Option.map_some, Option.some.injEq] at ha
    subst ha
    have hcount := (h.watch.keeps_goOn (.removeExpired perShard next removed)).count
    simp only [cost, hc, hcount]
    simp only [Call.advance]
    split
    next => simp [ahead]
    next hs =>
      have := (List.getElem?_eq_some_iff.1 hs).1
      simp only [ahead]
      omega
  | finish hf =>
    unfold Sweeping.finish at hf
    split at hf
    next hc =>
      obtain ⟨timer, ht, rfl⟩ := Option.map_eq_some_iff.1 hf
      have hlt := h.timer.inv.cost_lt length_record (a := .work _) trivial ht
      simp only [cost, hc, ahead]
      omega
    next => cases hf

theorem Prompt.step (hs : Prompt configured s s') : Step configured s s' := by
  cases hs with
  | timer _ hwork hm => exact .timer _ hwork hm
  | visit _ ha => exact .advance ha
  | finish hf => exact .finish hf

theorem Inv.prompt (h : s.Inv) (ho : s.timer.owner ≠ .idle) : ∃ s', Prompt configured s s' := by
  rcases h.timer.inv.prompt ho with hw | ⟨a, timer, hprompt, hwork, ht⟩
  · obtain ⟨call, hc⟩ := Option.isSome_iff_exists.1 (h.working.2 hw)
    cases h.pass call hc with
    | visiting perShard next removed => exact ⟨_, .visit hc (by rw [Sweeping.advance, hc]; rfl)⟩
    | returned removed =>
      exact ⟨_, .finish (by simp only [Sweeping.finish, hc, Timer.perform, hw]; rfl)⟩
  · exact ⟨_, .timer hprompt hwork (by rw [Sweeping.moveTimer, ht]; rfl)⟩

theorem Others.inv (ho : Others configured s s') (h : s.Inv) :
    s'.Inv ∧ s'.cost ≤ s.cost := by
  rcases ho with ⟨watch, hw, rfl⟩ | ⟨hown, a, ha, hm⟩
  · refine ⟨⟨hw.inv h.watch, h.timer, h.working, h.pass, h.taken⟩, Nat.le_of_eq ?_⟩
    simp only [cost, hw.count h.watch]
  · have hwork : ∀ r, a ≠ .work r := by rcases ha with rfl | rfl <;> simp
    refine ⟨(Step.timer a hwork hm).inv h, ?_⟩
    obtain ⟨timer, ht, rfl⟩ := Option.map_eq_some_iff.1 hm
    obtain ⟨hended, hle⟩ := h.timer.inv.elapse hown ha ht
    have hcall : callAfter configured s a timer = s.call := by
      unfold callAfter
      split
      next hw => cases hended.symm.trans hw
      next => rfl
    simp only [cost, hcall]
    exact Nat.add_le_add_right hle _

theorem Step.sorts (hs : Step configured s s') (h : s.Inv) (ho : s.timer.owner ≠ .idle) :
    Prompt configured s s' ∨ Others configured s s' ∨ s' = s := by
  cases hs with
  | background hw => exact .inr (.inl (.inl ⟨_, hw, rfl⟩))
  | timer a hwork hm =>
    cases a with
    | start | stop => simp [Sweeping.moveTimer, Timer.perform, ho] at hm
    | owner | check | record =>
      refine .inl (.timer ?_ hwork hm)
      exact trivial
    | wake => exact .inr (.inl (.inr ⟨ho, .wake, .inl rfl, hm⟩))
    | timeout => exact .inr (.inl (.inr ⟨ho, .timeout, .inr rfl, hm⟩))
    | work r => exact absurd rfl (hwork r)
  | advance ha =>
    obtain ⟨call, hc, rfl⟩ := Option.map_eq_some_iff.1 ha
    cases h.pass call hc with
    | visiting perShard next removed => exact .inl (.visit hc ha)
    | returned removed =>
      obtain ⟨watch, timer, call, taken⟩ := s
      cases hc
      exact .inr (.inr (congrArg (Sweeping.mk _ _ _) (by simp [Watched.goOn, Call.advance])))
  | finish hf => exact .inl (.finish hf)

/-- **`stop` returns**, without waiting for the interval and however busy the database is:
whatever others do to it meanwhile, after boundedly many steps of the owner and the thread the
owner is at rest. -/
theorem stop_returns (h : Reachable configured s) :
    FinishesAmid (Others configured) (Prompt configured) (fun s => s.timer.owner = .idle)
      s.cost s :=
  finishesAmid_of_measure (fun _ _ hi hs => ⟨hs.step.inv hi, hs.cost_lt hi⟩)
    (fun _ _ hi ho => ho.inv hi) (fun _ hi ho => hi.prompt ho) h.inv

/-- A sweeper that is stopped in the middle of a pass. -/
theorem stop_returns_midway : ∃ s, Reachable 16 s ∧ s.timer.owner = .joining ∧
    s.timer.thread = some .working ∧
    FinishesAmid (Others 16) (Prompt 16) (fun s => s.timer.owner = .idle) s.cost s := by
  have hpass := ((((@Reachable.new 16 1 1 _ rfl 0).step (.timer .start (by simp) rfl)).step
    (.timer .owner (by simp) rfl)).step (.timer .owner (by simp) rfl)).step
    (.timer .check (by simp) rfl)
  have hr := ((hpass.step (.timer .timeout (by simp) rfl)).step (.timer .stop (by simp) rfl)).step
    (.timer .owner (by simp) rfl)
  exact ⟨_, hr, rfl, rfl, stop_returns hr⟩

end Sweeping

end ExpirationSweeper

end VCache
