import VCache.Lib.Periodic
import VCache.Snapshot.Progress

/-!
# The snapshot scheduler

`SnapshotScheduler.h`, `SnapshotScheduler.cpp`: a thread on a timer whose work is a save. It
shares the store with the command `SAVE`, so it may have to wait for the mutex, and the
database with everybody.

Starting and stopping is safe in any order, and the counters report what became of the saves
of this thread, whoever else saves at the same time.
-/

namespace VCache

open Lib Lib.Periodic Database SnapshotStore

namespace SnapshotScheduler

structure Counters where
  attempts : Nat := 0
  failures : Nat := 0
  lastError : Bytes := []
deriving DecidableEq

/-- What the loop does with the outcome of a save. -/
def record (outcome : SaveOutcome) : List (Counters → Counters) :=
  (fun k => { k with attempts := k.attempts + 1 }) ::
    if outcome.ok then []
    else [fun k => { k with failures := k.failures + 1 },
      fun k => { k with lastError := outcome.error }]

/-- The scheduler at its store, as the thread `me`. -/
structure Scheduling where
  saves : Saves
  timer : Timer Counters SaveOutcome

namespace Scheduling

variable (me : Nat) (interval : Int)

/-- A thread that has waited to the end calls `save`. -/
def savesAfter (s : Scheduling) (a : Periodic.Action SaveOutcome)
    (timer : Timer Counters SaveOutcome) : Saves :=
  match a, timer.thread with
  | .timeout, some .working => s.saves.setStage me .waiting
  | _, _ => s.saves

/-- The timer moves. Without an interval `start` does nothing. -/
def moveTimer (s : Scheduling) (a : Periodic.Action SaveOutcome) : Option Scheduling :=
  match a with
  | .start =>
    if interval ≤ 0 then some s
    else (s.timer.perform record .start).map fun timer => { s with timer }
  | a => (s.timer.perform record a).map fun timer => { saves := savesAfter me s a timer, timer }

/-- The thread is behind a step of its save. Where the save has returned, it goes on with the
outcome. -/
def afterStep (s : Scheduling) (saves : Saves) : Option Scheduling :=
  match saves.stage me with
  | .outside =>
    let outcome := (saves.returned.getLast?.map (·.2)).getD {}
    (s.timer.perform record (.work outcome)).map fun timer => { saves, timer }
  | _ => some { s with saves }

inductive Step (s : Scheduling) : Scheduling → Prop where
  | background {watch : Watched} : s.saves.watch.Step watch →
      Step s { s with saves := { s.saves with watch } }
  | others {saves : Saves} {a : SnapshotStore.Action} : a.thread ≠ me →
      s.saves.perform a = some saves → Step s { s with saves }
  | timer {s' : Scheduling} (a : Periodic.Action SaveOutcome) : (∀ r, a ≠ .work r) →
      s.moveTimer me interval a = some s' → Step s s'
  | own {saves : Saves} {s' : Scheduling} {a : SnapshotStore.Action} : a.thread = me →
      (∀ t, a ≠ .call t) → s.saves.perform a = some saves → s.afterStep me saves = some s' →
      Step s s'

inductive Reachable : Scheduling → Prop where
  | new {watch : Watched} {path : Bytes} {disk : Disk} : watch.Reachable → Durable disk.target →
      Reachable { saves := { watch, store := { path, disk } }, timer := { counters := {} } }
  | step {s s' : Scheduling} : Reachable s → Step me interval s s' → Reachable s'

def outcomes (s : Scheduling) : List SaveOutcome :=
  (s.saves.returned.filter (·.1 = me)).map (·.2)

structure Inv (s : Scheduling) : Prop where
  timer : Periodic.Reachable record {} s.timer
  working : s.saves.stage me ≠ .outside ↔ s.timer.thread = some .working
  results : s.timer.results = s.outcomes me

variable {me interval} {s s' : Scheduling}

theorem moveTimer_eq {a : Periodic.Action SaveOutcome} (ha : a ≠ .start) :
    s.moveTimer me interval a =
      (s.timer.perform record a).map fun timer => { saves := savesAfter me s a timer, timer } := by
  cases a with
  | start => exact absurd rfl ha
  | _ => rfl

theorem savesAfter_eq {a : Periodic.Action SaveOutcome} {timer : Timer Counters SaveOutcome}
    (h : a = .timeout → timer.thread ≠ some .working) : savesAfter me s a timer = s.saves := by
  unfold savesAfter
  split
  next hw => exact absurd hw (h rfl)
  next => rfl

theorem Inv.outside (h : Inv me s) (ht : s.timer.thread ≠ some .working) :
    s.saves.stage me = .outside :=
  not_not.1 fun hs => ht (h.working.1 hs)

theorem Inv.move (h : Inv me s) {a : Periodic.Action SaveOutcome}
    {timer : Timer Counters SaveOutcome} (ht : s.timer.perform record a = some timer)
    (hwork : ∀ r, a ≠ .work r) (htime : a ≠ .timeout) : Inv me { s with timer } :=
  ⟨h.timer.step a ht, h.working.trans (h.timer.inv.working_iff ht hwork htime).symm,
    (results_perform ht hwork).trans h.results⟩

theorem Inv.timeout (h : Inv me s) {timer : Timer Counters SaveOutcome}
    (ht : s.timer.perform record .timeout = some timer) :
    Inv me { saves := savesAfter me s .timeout timer, timer } := by
  have hr := h.timer.step _ ht
  simp only [Timer.perform] at ht
  split at ht
  next hsleep =>
    have hout := h.outside (by rw [hsleep]; simp)
    cases ht
    cases hstop : s.timer.stopRequested with
    | true =>
      simp only [savesAfter, Timer.test, hstop, if_true] at hr ⊢
      exact ⟨hr, by simp [hout], h.results⟩
    | false =>
      simp only [savesAfter, Timer.test, hstop, Bool.false_eq_true, if_false] at hr ⊢
      exact ⟨hr, by simp [Saves.setStage], h.results⟩
  next => cases ht

theorem Inv.moveTimer (h : Inv me s) {a : Periodic.Action SaveOutcome}
    (hwork : ∀ r, a ≠ .work r) (hs : s.moveTimer me interval a = some s') : Inv me s' := by
  by_cases hstart : a = .start
  · subst hstart
    simp only [Scheduling.moveTimer] at hs
    split at hs
    next => cases hs; exact h
    next =>
      obtain ⟨timer, ht, rfl⟩ := Option.map_eq_some_iff.1 hs
      exact h.move ht (by simp) (by simp)
  · rw [moveTimer_eq hstart] at hs
    obtain ⟨timer, ht, rfl⟩ := Option.map_eq_some_iff.1 hs
    by_cases htime : a = .timeout
    · subst htime
      exact h.timeout ht
    · rw [savesAfter_eq fun he => absurd he htime]
      exact h.move ht hwork htime

theorem Inv.own (h : Inv me s) {saves : Saves} {a : SnapshotStore.Action}
    (ha : a.thread = me) (hcall : ∀ t, a ≠ .call t) (hs : s.saves.perform a = some saves)
    (hafter : s.afterStep me saves = some s') : Inv me s' := by
  obtain ⟨hin, hcases⟩ := Saves.perform_own hs hcall
  rw [ha] at hin hcases
  have hw := h.working.1 hin
  have hresults := h.results
  unfold afterStep at hafter
  rcases hcases with ⟨hstill, hreturned⟩ | ⟨hout, outcome, hreturned⟩
  · split at hafter
    next hout => exact absurd hout hstill
    next =>
      cases hafter
      refine ⟨h.timer, ⟨fun _ => hw, fun _ => hstill⟩, ?_⟩
      unfold outcomes at hresults ⊢
      rw [hresults, hreturned]
  · simp only [hout, hreturned, List.getLast?_concat, Option.map_some, Option.getD_some] at hafter
    obtain ⟨timer, ht, rfl⟩ := Option.map_eq_some_iff.1 hafter
    have hr := h.timer.step _ ht
    simp only [Timer.perform, hw] at ht
    cases ht
    refine ⟨hr, by simp [hout], ?_⟩
    unfold outcomes at hresults ⊢
    rw [hreturned, List.filter_append, List.map_append, ← hresults]
    simp

theorem Step.inv (hs : Step me interval s s') (h : Inv me s) : Inv me s' := by
  cases hs with
  | background _ => exact ⟨h.timer, h.working, h.results⟩
  | others ha hp =>
    obtain ⟨hstage, hreturned⟩ := Saves.perform_other hp ha
    refine ⟨h.timer, ?_, ?_⟩
    · show _ ≠ _ ↔ _
      rw [hstage]
      exact h.working
    · have hresults := h.results
      unfold outcomes at hresults ⊢
      rw [hresults, hreturned]
  | timer a hwork hm => exact h.moveTimer hwork hm
  | own ha hcall hp hafter => exact h.own ha hcall hp hafter

theorem Reachable.inv (h : Reachable me interval s) : Inv me s := by
  induction h with
  | new _ _ => exact ⟨.start, by simp, rfl⟩
  | step _ hs ih => exact hs.inv ih

def summary (os : List SaveOutcome) : Counters where
  attempts := os.length
  failures := os.countP (!·.ok)
  lastError := ((os.filter (!·.ok)).getLast?.map (·.error)).getD []

theorem total_record (os : List SaveOutcome) : total record {} os = summary os := by
  induction os using List.reverseRecOn with
  | nil => rfl
  | append_singleton os o ih =>
    have hstep : total record {} (os ++ [o]) = applyAll (record o) (total record {} os) := by
      unfold total
      rw [List.foldl_append]
      rfl
    rw [hstep, ih]
    cases ho : o.ok <;> simp [summary, record, applyAll, ho, List.countP_append, List.filter_append]

/-- **A scheduler can be started and stopped at will, and reports what became of its saves.**
Whoever else saves and whatever is done to the database, no thread is ever overwritten; once
`stop` has returned the thread is gone and no save of its is under way; and between saves the
counters are the number of its saves, how many failed, and the text of the last failure. -/
theorem reports_its_saves (h : Reachable me interval s) :
    s.timer.crashed = false ∧
      (s.timer.owner = .idle → s.timer.running = false →
        s.timer.thread = none ∧ s.saves.stage me = .outside) ∧
      (s.timer.unrecorded = [] → s.timer.counters = summary (s.outcomes me)) := by
  have hi := h.inv
  obtain ⟨hsafe, hstopped, hcounted⟩ := hi.timer.safe
  refine ⟨hsafe, fun ho hr => ?_, fun hu => ?_⟩
  · have hnone := hstopped ho hr
    exact ⟨hnone, hi.outside (by rw [hnone]; simp)⟩
  · rw [hcounted hu, total_record, hi.results]

/-- A save that cannot open its file, and the scheduler is stopped. -/
theorem reports_its_saves_failed : ∃ s, Reachable 7 1000 s ∧ s.timer.running = false ∧
    s.saves.stage 7 = .outside ∧
    s.timer.counters = ⟨1, 1, bytes "cannot open 'd.tmp': no space"⟩ := by
  have hstart := ((((Reachable.new (@Watched.Reachable.new 1 1 _ rfl 0) (fun _ h => by cases h) :
    Reachable 7 1000 ⟨⟨_, ⟨bytes "d", ⟨none, none⟩, 0, none, []⟩, _, _, _, _⟩, _⟩).step
    (.timer .start (by simp) rfl)).step (.timer .owner (by simp) rfl)).step
    (.timer .owner (by simp) rfl)).step (.timer .check (by simp) rfl)
  have hlisted := (((hstart.step (.timer .timeout (by simp) rfl)).step
    (.own (a := .lock 7) rfl (by simp) rfl rfl)).step
    (.own (a := .visit 7) rfl (by simp) rfl rfl)).step (.own (a := .visit 7) rfl (by simp) rfl rfl)
  have hfailed := ((((hlisted.step
    (.own (a := .encode 7 fun _ => ⟨0, 0⟩) rfl (by simp) rfl rfl)).step
    (.own (a := .resume 7 (.failed (bytes "no space"))) rfl (by simp) rfl rfl)).step
    (.timer .record (by simp) rfl)).step (.timer .record (by simp) rfl)).step
    (.timer .record (by simp) rfl)
  have hr := (((((hfailed.step (.timer .record (by simp) rfl)).step
    (.timer .stop (by simp) rfl)).step (.timer .owner (by simp) rfl)).step
    (.timer .check (by simp) rfl)).step (.timer .owner (by simp) rfl)).step
    (.timer .owner (by simp) rfl)
  obtain ⟨-, hstopped, hcounted⟩ := reports_its_saves hr
  exact ⟨_, hr, rfl, (hstopped rfl rfl).2, (hcounted rfl).trans (by decide +kernel)⟩

/-! ### Stopping -/

/-- What the scheduler, its owner and all that save do while no time passes and nobody calls. -/
inductive Prompt (me : Nat) (interval : Int) (s : Scheduling) : Scheduling → Prop where
  | timer {s' : Scheduling} {a : Periodic.Action SaveOutcome} : s.timer.Prompt a →
      (∀ r, a ≠ .work r) → s.moveTimer me interval a = some s' → Prompt me interval s s'
  | others {saves : Saves} {a : SnapshotStore.Action} : a.thread ≠ me →
      s.saves.MovesBy a saves → Prompt me interval s { s with saves }
  | own {saves : Saves} {s' : Scheduling} {a : SnapshotStore.Action} : a.thread = me →
      s.saves.MovesBy a saves → s.afterStep me saves = some s' → Prompt me interval s s'

/-- What else may go on: calls on the database, interruptions, and time passes for the thread. -/
def Others (me : Nat) (interval : Int) (s s' : Scheduling) : Prop :=
  (∃ saves, s.saves.Others saves ∧ s' = { s with saves }) ∨
    s.timer.owner ≠ .idle ∧
      ∃ a, (a = .wake ∨ a = .timeout) ∧ s.moveTimer me interval a = some s'

theorem length_record (outcome : SaveOutcome) : (record outcome).length ≤ 3 := by
  unfold record
  split <;> simp

/-- What is kept: the threads in `F` are the only ones that save. -/
structure Among (me : Nat) (F : Finset Nat) (s : Scheduling) : Prop where
  inv : Inv me s
  saves : ∃ found, s.saves.Inv found
  finite : ∀ t, s.saves.stage t ≠ .outside → t ∈ F

def cost (F : Finset Nat) (s : Scheduling) : (Nat ×ₗ Nat) ×ₗ Nat :=
  toLex (s.saves.work F, s.timer.cost 3)

variable {F : Finset Nat}

theorem cost_lt_of_saves (hlt : s'.saves.work F < s.saves.work F) : s'.cost F < s.cost F :=
  Prod.Lex.toLex_lt_toLex.2 (.inl hlt)

theorem saves_afterStep {saves : Saves} (h : s.afterStep me saves = some s') :
    s'.saves = saves := by
  unfold afterStep at h
  split at h
  next =>
    obtain ⟨timer, -, rfl⟩ := Option.map_eq_some_iff.1 h
    rfl
  next => cases h; rfl

theorem Prompt.step (hs : Prompt me interval s s') : Step me interval s s' := by
  cases hs with
  | timer _ hwork hm => exact .timer _ hwork hm
  | others ha hm => exact .others ha hm.performs
  | own ha hm hafter => exact .own ha hm.saving hm.performs hafter

theorem Prompt.next (hs : Prompt me interval s s') (h : Among me F s) :
    Among me F s' ∧ s'.cost F < s.cost F := by
  have hinv := hs.step.inv h.inv
  obtain ⟨found, hsaves⟩ := h.saves
  have moved : ∀ {a : SnapshotStore.Action} {saves : Saves}, s.saves.MovesBy a saves →
      s'.saves = saves → Among me F s' ∧ s'.cost F < s.cost F := by
    rintro a saves hm rfl
    exact ⟨⟨hinv, ⟨found, hsaves.perform hm.performs⟩, hm.finite h.finite⟩,
      cost_lt_of_saves (hm.work_lt hsaves h.finite)⟩
  cases hs with
  | @timer _ a hprompt hwork hm =>
    rw [moveTimer_eq (by rintro rfl; exact hprompt)] at hm
    obtain ⟨timer, ht, rfl⟩ := Option.map_eq_some_iff.1 hm
    have hsame : savesAfter me s a timer = s.saves :=
      savesAfter_eq (by rintro rfl; exact hprompt.elim)
    rw [hsame] at hinv ⊢
    exact ⟨⟨hinv, ⟨found, hsaves⟩, h.finite⟩,
      Prod.Lex.toLex_lt_toLex.2 (.inr ⟨rfl, h.inv.timer.inv.cost_lt length_record hprompt ht⟩)⟩
  | others ha hm => exact moved hm rfl
  | own ha hm hafter => exact moved hm (saves_afterStep hafter)

theorem Others.next (ho : Others me interval s s') (h : Among me F s) :
    Among me F s' ∧ s'.cost F ≤ s.cost F := by
  obtain ⟨found, hsaves⟩ := h.saves
  rcases ho with ⟨saves, hother, rfl⟩ | ⟨hown, a, ha, hm⟩
  · obtain ⟨hi, hstage, hreturned, hwork⟩ := hother.inv hsaves (F := F)
    have hinv := h.inv
    refine ⟨⟨⟨hinv.timer, ?_, ?_⟩, ⟨found, hi⟩, hstage ▸ h.finite⟩, ?_⟩
    · show saves.stage me ≠ _ ↔ _
      rw [hstage]
      exact hinv.working
    · show _ = (saves.returned.filter _).map _
      rw [hreturned]
      exact hinv.results
    · unfold cost
      rw [hwork]
  · have hinv := (Step.timer a (by rcases ha with rfl | rfl <;> simp) hm).inv h.inv
    rw [moveTimer_eq (by rcases ha with rfl | rfl <;> simp)] at hm
    obtain ⟨timer, ht, rfl⟩ := Option.map_eq_some_iff.1 hm
    obtain ⟨hended, hle⟩ := h.inv.timer.inv.elapse hown ha ht
    have hsame : savesAfter me s a timer = s.saves :=
      savesAfter_eq fun _ hw => by cases hended.symm.trans hw
    rw [hsame] at hinv ⊢
    exact ⟨⟨hinv, ⟨found, hsaves⟩, h.finite⟩, Prod.Lex.toLex_le_toLex.2 (.inr ⟨rfl, hle⟩)⟩

theorem Among.prompt (h : Among me F s) (ho : s.timer.owner ≠ .idle) :
    ∃ s', Prompt me interval s s' := by
  rcases h.inv.timer.inv.prompt ho with hw | ⟨a, timer, hprompt, hwork, ht⟩
  · obtain ⟨found, hsaves⟩ := h.saves
    obtain ⟨saves, a, hm⟩ := hsaves.moves fun hall => h.inv.working.2 hw (hall me)
    by_cases ha : a.thread = me
    · have hafter : (s.afterStep me saves).isSome = true := by
        unfold afterStep
        split
        next => simp only [Timer.perform, hw]; rfl
        next => rfl
      obtain ⟨s', hs'⟩ := Option.isSome_iff_exists.1 hafter
      exact ⟨s', .own ha hm hs'⟩
    · exact ⟨_, .others ha hm⟩
  · have hm : s.moveTimer me interval a = some { saves := savesAfter me s a timer, timer } := by
      rw [moveTimer_eq (by rintro rfl; exact hprompt), ht]
      rfl
    exact ⟨_, .timer hprompt hwork hm⟩

theorem Inv.saves_timeout (h : Inv me s) {timer : Timer Counters SaveOutcome}
    (ht : s.timer.perform record .timeout = some timer) :
    savesAfter me s .timeout timer = s.saves ∨
      s.saves.Step (savesAfter me s .timeout timer) := by
  unfold savesAfter
  split
  next =>
    refine .inr (.perform (.call me) ?_)
    have hout : s.saves.stage me = .outside := by
      simp only [Timer.perform] at ht
      split at ht
      next hsleep => exact h.outside (by rw [hsleep]; simp)
      next => cases ht
    rw [Saves.perform, hout]
  next => exact .inl rfl

theorem Step.saves (hs : Step me interval s s') (h : Inv me s) :
    s'.saves = s.saves ∨ s.saves.Step s'.saves := by
  cases hs with
  | background hw => exact .inr (.background hw)
  | others _ hp => exact .inr (.perform _ hp)
  | own _ _ hp hafter =>
    rw [saves_afterStep hafter]
    exact .inr (.perform _ hp)
  | timer a hwork hm =>
    by_cases hstart : a = .start
    · subst hstart
      simp only [moveTimer] at hm
      split at hm
      next => cases hm; exact .inl rfl
      next =>
        obtain ⟨timer, -, rfl⟩ := Option.map_eq_some_iff.1 hm
        exact .inl rfl
    · rw [moveTimer_eq hstart] at hm
      obtain ⟨timer, ht, rfl⟩ := Option.map_eq_some_iff.1 hm
      by_cases htime : a = .timeout
      · subst htime
        exact h.saves_timeout ht
      · exact .inl (savesAfter_eq fun he => absurd he htime)

theorem Reachable.saves (h : Reachable me interval s) : s.saves.Reachable := by
  induction h with
  | new hw hd => exact .new hw hd
  | step hr hs ih =>
    rcases hs.saves hr.inv with he | hstep
    · exact he ▸ ih
    · exact ih.step hstep

theorem Reachable.among (h : Reachable me interval s) : ∃ F, Among me F s := by
  obtain ⟨F, hF⟩ := h.saves.finite
  exact ⟨F, h.inv, h.saves.inv, hF⟩

/-- Nobody but this thread begins to save. -/
def NoNewSaves (me : Nat) (s s' : Scheduling) : Prop :=
  ∀ t, t ≠ me → s.saves.stage t = .outside → s'.saves.stage t = .outside

theorem Prompt.noNewSaves (hs : Prompt me interval s s') : NoNewSaves me s s' := by
  cases hs with
  | @timer _ a hprompt hwork hm =>
    rw [moveTimer_eq (by rintro rfl; exact hprompt)] at hm
    obtain ⟨timer, -, rfl⟩ := Option.map_eq_some_iff.1 hm
    have hsame : savesAfter me s a timer = s.saves :=
      savesAfter_eq (by rintro rfl; exact hprompt.elim)
    rw [hsame]
    exact fun _ _ ho => ho
  | others _ hm => exact fun _ _ ho => hm.outside ho
  | own _ hm hafter =>
    intro t _ ho
    rw [saves_afterStep hafter]
    exact hm.outside ho

theorem Step.sorts (hs : Step me interval s s') {found : Option File}
    (hsaves : s.saves.Inv found) (ho : s.timer.owner ≠ .idle) (hnew : NoNewSaves me s s') :
    Prompt me interval s s' ∨ Others me interval s s' ∨ s' = s := by
  cases hs with
  | background hw => exact .inr (.inl (.inl ⟨_, .inl ⟨_, hw, rfl⟩, rfl⟩))
  | @others saves a ha hp =>
    have hcall : ∀ t, a ≠ .call t := by
      rintro t rfl
      have hout := hnew t ha
      simp only [Saves.perform] at hp
      split at hp
      next ht =>
        cases hp
        simp [Saves.setStage, ht] at hout
      next => cases hp
    rcases hsaves.sorts hp hcall with hm | rfl
    · exact .inl (.others ha hm)
    · exact .inr (.inr rfl)
  | timer a hwork hm =>
    cases a with
    | start =>
      simp only [moveTimer, Timer.perform, if_neg ho] at hm
      split at hm
      next => cases hm; exact .inr (.inr rfl)
      next => cases hm
    | stop => simp [moveTimer, Timer.perform, ho] at hm
    | owner | check | record =>
      refine .inl (.timer ?_ hwork hm)
      exact trivial
    | wake => exact .inr (.inl (.inr ⟨ho, .wake, .inl rfl, hm⟩))
    | timeout => exact .inr (.inl (.inr ⟨ho, .timeout, .inr rfl, hm⟩))
    | work r => exact absurd rfl (hwork r)
  | @own saves _ a ha hcall hp hafter =>
    rcases hsaves.sorts hp hcall with hm | rfl
    · exact .inl (.own ha hm hafter)
    · have hin := (Saves.perform_own hp hcall).1
      rw [ha] at hin
      unfold afterStep at hafter
      split at hafter
      next hout => exact absurd hout hin
      next => cases hafter; exact .inr (.inr rfl)

/-- **`stop` returns**, without waiting for the interval, though the thread may be in the
middle of a save or wait for its turn behind others: whatever is done to the database
meanwhile, there are only finitely many more steps of the owner and of those that save, and
where no more can be made the owner is at rest. -/
theorem stop_waits_for_the_save (h : Reachable me interval s) :
    EndsAmid (Others me interval) (Prompt me interval) (fun s => s.timer.owner = .idle) s := by
  obtain ⟨F, ha⟩ := h.among
  exact endsAmid_of_measure (fun _ _ hi hs => hs.next hi) (fun _ _ hi ho => ho.next hi)
    (fun _ hi ho => hi.prompt ho) ha

/-- The scheduler is stopped while its thread waits for somebody else's save. -/
theorem stop_waits_for_the_save_behind : ∃ s, Reachable 7 1000 s ∧ s.timer.owner = .joining ∧
    s.saves.holder = some 0 ∧ s.saves.stage 7 = .waiting ∧
    EndsAmid (Others 7 1000) (Prompt 7 1000) (fun s => s.timer.owner = .idle) s := by
  have hstart := ((((Reachable.new (@Watched.Reachable.new 1 1 _ rfl 0) (fun _ h => by cases h) :
    Reachable 7 1000 ⟨⟨_, ⟨bytes "d", ⟨none, none⟩, 0, none, []⟩, _, _, _, _⟩, _⟩).step
    (.timer .start (by simp) rfl)).step (.timer .owner (by simp) rfl)).step
    (.timer .owner (by simp) rfl)).step (.timer .check (by simp) rfl)
  have hbehind := ((hstart.step (.others (a := .call 0) (by decide) rfl)).step
    (.others (a := .lock 0) (by decide) rfl)).step (.timer .timeout (by simp) rfl)
  have hr := (hbehind.step (.timer .stop (by simp) rfl)).step (.timer .owner (by simp) rfl)
  exact ⟨_, hr, rfl, rfl, rfl, stop_waits_for_the_save hr⟩

end Scheduling

end SnapshotScheduler

end VCache
