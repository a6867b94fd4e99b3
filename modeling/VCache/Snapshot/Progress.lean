import Mathlib.Data.Prod.Lex
import VCache.Lib.Finish
import VCache.Snapshot.Saves

/-!
# Every save returns

Threads that save take turns at the mutex. How much there is to write is known only when the
database has been listed, so there is no bound beforehand; but whoever is inside gets on with
every system call that is not interrupted, and then it is the next one's turn.
-/

namespace VCache

open Function Lib Database

namespace SnapshotStore

/-- The result takes a save on. The others are an interruption, and what the call does not
return. -/
def Phase.accepts : Phase → SysResult → Bool
  | .writing _, .wrote count => decide (0 < count)
  | .opening, .ok | .flushing, .ok | .replacing, .ok | .discarding _, .ok => true
  | _, .failed _ => true
  | _, _ => false

/-- The calls to come, for so many bytes. -/
def Phase.ahead (length : Nat) : Phase → Nat
  | .opening => length + 5
  | .writing written => length - written + 4
  | .flushing => 3
  | .replacing => 2
  | .discarding _ => 1

def ahead (s : SnapshotStore) : Nat :=
  match s.saving with
  | none => 0
  | some job => job.phase.ahead job.encoded.length

theorem ahead_writeMore (s : SnapshotStore) (job : Saving) (written : Nat) :
    (s.writeMore job written).ahead ≤ job.encoded.length - written + 4 := by
  unfold writeMore
  split
  next => exact Nat.le_refl _
  next =>
    show 3 ≤ _
    omega

theorem ahead_advance {s : SnapshotStore} {job : Saving} (hp : Prepared job s.disk.temp)
    (hs : s.saving = some job) {result : SysResult} (ha : job.phase.accepts result = true) :
    (s.advance job result).ahead < s.ahead := by
  obtain ⟨entries, encoded, before, countBefore, phase⟩ := job
  have hnow : s.ahead = phase.ahead encoded.length := by rw [ahead, hs]
  rw [hnow]
  cases phase with
  | opening =>
    cases result with
    | ok => exact Nat.lt_of_le_of_lt (ahead_writeMore ..) (Nat.lt_succ_self _)
    | failed why => exact Nat.succ_pos _
    | wrote _ | interrupted => cases ha
  | writing written =>
    cases result with
    | wrote count =>
      have hcount : 0 < count := of_decide_eq_true ha
      have hlt : written < encoded.length := hp.1
      refine Nat.lt_of_le_of_lt (ahead_writeMore ..) ?_
      simp only [Phase.ahead]
      omega
    | failed why => exact Nat.succ_lt_succ (Nat.succ_pos _)
    | ok | interrupted => cases ha
  | flushing | replacing =>
    cases result with
    | ok | failed _ => exact Nat.lt_of_sub_eq_succ rfl
    | wrote _ | interrupted => cases ha
  | discarding error =>
    cases result with
    | ok | failed _ => exact Nat.one_pos
    | wrote _ | interrupted => cases ha

theorem advance_of_not_accepts {s : SnapshotStore} {job : Saving} (hp : Prepared job s.disk.temp)
    (hs : s.saving = some job) {result : SysResult} (ha : job.phase.accepts result = false) :
    s.advance job result = s := by
  obtain ⟨path, ⟨target, temp⟩, saveCount, saving, outcomes⟩ := s
  obtain ⟨entries, encoded, before, countBefore, phase⟩ := job
  cases hs
  cases phase with
  | writing written =>
    cases result with
    | wrote count =>
      obtain ⟨hlt, htemp⟩ : written < encoded.length ∧ _ := hp
      obtain rfl : count = 0 := Nat.eq_zero_of_not_pos (of_decide_eq_false ha)
      cases htemp
      simp [advance, writeMore, setTemp, goTo, hlt]
    | failed _ => cases ha
    | ok | interrupted => rfl
  | opening | flushing | replacing | discarding _ =>
    cases result with
    | ok | failed _ => cases ha
    | wrote _ | interrupted => rfl

/-- The sections to come until there is something to write. -/
def Stage.ahead (shards : Nat) : Stage → Nat
  | .outside | .writing _ => 0
  | .waiting => shards + 3
  | .taking (.snapshot next _) _ => shards - next + 2
  | .taking _ _ => 1

namespace Saves

/-- Somebody who is saving gets on. -/
structure MovesBy (a : Action) (s s' : Saves) : Prop where
  saving : ∀ t, a ≠ .call t
  accepted : ∀ t result, a = .resume t result →
    ∃ job, s.store.saving = some job ∧ job.phase.accepts result = true
  performs : s.perform a = some s'

def Moves (s s' : Saves) : Prop := ∃ a, MovesBy a s s'

/-- What else may go on: calls on the database, and interruptions. -/
def Others (s s' : Saves) : Prop :=
  (∃ watch, s.watch.Step watch ∧ s' = { s with watch }) ∨
    ∃ t, s.perform (.resume t .interrupted) = some s'

inductive Reachable : Saves → Prop where
  | new {watch : Watched} {path : Bytes} {disk : Disk} : watch.Reachable → Durable disk.target →
      Reachable { watch, store := { path, disk } }
  | step {s s' : Saves} : Reachable s → s.Step s' → Reachable s'

theorem Reachable.inv {s : Saves} (h : Reachable s) : ∃ found, Inv found s := by
  induction h with
  | @new watch path disk hw hd =>
    exact ⟨disk.target, hw.inv, fun t => by simp [Stage.inside], fun t => trivial, hd, rfl,
      fun b hb => by cases hb⟩
  | step _ hs ih =>
    obtain ⟨found, hi⟩ := ih
    exact ⟨found, hs.inv hi⟩

theorem perform_stage {s s' : Saves} {a : Action} (hs : s.perform a = some s') :
    ∃ stage, s'.stage = update s.stage a.thread stage := by
  cases a with
  | resume t result =>
    simp only [perform] at hs
    split at hs
    next b hb =>
      cases hs
      unfold afterCall
      split
      next => exact ⟨s.stage t, (update_eq_self ..).symm⟩
      next => exact ⟨_, rfl⟩
    next => cases hs
  | call t | lock t | visit t | encode t _ =>
    simp only [perform] at hs
    split at hs
    next => cases hs; exact ⟨_, rfl⟩
    next => cases hs

theorem Reachable.finite {s : Saves} (h : Reachable s) :
    ∃ F : Finset Nat, ∀ t, s.stage t ≠ .outside → t ∈ F := by
  induction h with
  | new _ _ => exact ⟨∅, fun t ht => absurd rfl ht⟩
  | step _ hs ih =>
    obtain ⟨F, hF⟩ := ih
    cases hs with
    | background _ => exact ⟨F, hF⟩
    | perform a ha =>
      obtain ⟨stage, hstage⟩ := perform_stage ha
      refine ⟨insert a.thread F, ?_⟩
      rw [hstage]
      exact mem_of_update (fun t ht => Finset.mem_insert_of_mem (hF t ht))
        (Finset.mem_insert_self ..)

/-- The work of the threads in `F`: the listing first, and then the writing. -/
def work (F : Finset Nat) (s : Saves) : Nat ×ₗ Nat :=
  toLex (∑ t ∈ F, (s.stage t).ahead s.watch.sys.db.shards.length, s.store.ahead)

section

variable {found : Option File} {s s' : Saves} {F : Finset Nat}

theorem work_lt_of_stage {t : Nat} {stage : Stage} (ht : t ∈ F)
    (hstage : s'.stage = update s.stage t stage)
    (hcount : s'.watch.sys.db.shards.length = s.watch.sys.db.shards.length)
    (hlt : stage.ahead s.watch.sys.db.shards.length <
      (s.stage t).ahead s.watch.sys.db.shards.length) : work F s' < work F s := by
  refine Prod.Lex.toLex_lt_toLex.2 (.inl ?_)
  simp only [hstage, hcount]
  exact @sum_update_lt _ _ _ F s.stage t stage (Stage.ahead _) ht hlt

theorem work_lt_of_resume (h : Inv found s) {t : Nat} {b : Basis} (ht : s.stage t = .writing b)
    {job : Saving} (hjob : s.store.saving = some job) {result : SysResult}
    (ha : job.phase.accepts result = true) :
    work F (s.afterCall t b (s.store.resume result)) < work F s := by
  have hagrees := h.agrees t
  rw [ht] at hagrees
  obtain ⟨-, job', hjob', -, hp⟩ := hagrees
  obtain rfl := Option.some.inj (hjob.symm.trans hjob')
  have hlt := ahead_advance hp hjob ha
  rw [resume_eq hjob]
  refine Prod.Lex.toLex_lt_toLex.2 (.inr ?_)
  unfold afterCall
  split
  next => exact ⟨rfl, hlt⟩
  next =>
    refine ⟨Finset.sum_congr rfl fun u _ => ?_, hlt⟩
    show Stage.ahead _ (update s.stage t .outside u) = _
    by_cases hu : u = t
    · rw [hu, update_self, ht]
      rfl
    · rw [update_of_ne hu]

theorem MovesBy.work_lt {a : Action} (hm : MovesBy a s s') (h : Inv found s)
    (hF : ∀ t, s.stage t ≠ .outside → t ∈ F) : work F s' < work F s := by
  obtain ⟨hcall, hresult, hs⟩ := hm
  have hin := hF a.thread (perform_own hs hcall).1
  cases a with
  | call t => exact absurd rfl (hcall t)
  | lock t =>
    simp only [perform] at hs
    split at hs
    next ht _ =>
      cases hs
      refine work_lt_of_stage hin rfl rfl ?_
      rw [Action.thread, ht]
      exact Nat.lt_succ_self _
    next => cases hs
  | visit t =>
    simp only [perform] at hs
    split at hs
    next next result moments ht =>
      cases hs
      refine work_lt_of_stage hin rfl (h.watch.keeps_goOn _).count ?_
      rw [Action.thread, ht]
      simp only [Call.advance]
      split
      next => simp [Stage.ahead]
      next hs =>
        have := (List.getElem?_eq_some_iff.1 hs).1
        simp only [Stage.ahead]
        omega
    next => cases hs
  | encode t readings =>
    simp only [perform] at hs
    split at hs
    next entries moments ht =>
      cases hs
      refine work_lt_of_stage hin rfl rfl ?_
      rw [Action.thread, ht]
      exact Nat.one_pos
    next => cases hs
  | resume t result =>
    obtain ⟨job, hjob, ha⟩ := hresult t result rfl
    simp only [perform] at hs
    split at hs
    next b ht => cases hs; exact work_lt_of_resume h ht hjob ha
    next => cases hs

theorem Inv.moves_inside (h : Inv found s) {t : Nat} (ht : (s.stage t).inside = true) :
    ∃ s', Moves s s' := by
  have hagrees := h.agrees t
  cases hst : s.stage t with
  | outside | waiting => rw [hst] at ht; cases ht
  | taking call moments =>
    rw [hst] at hagrees
    have hunder : Underway _ _ _ .snapshot call := hagrees
    cases hunder with
    | key hop => cases hop
    | snapshot _ =>
      exact ⟨_, .visit t, by simp, by simp, by rw [Saves.perform, hst]⟩
    | done hdone =>
      cases hdone with
      | key hop => cases hop
      | snapshot _ =>
        exact ⟨_, .encode t fun _ => ⟨0, 0⟩, by simp, by simp, by rw [Saves.perform, hst]⟩
  | writing b =>
    rw [hst] at hagrees
    obtain ⟨-, job, hjob, -⟩ := hagrees
    refine ⟨_, .resume t (.failed []), by simp, fun u result he => ?_, by rw [Saves.perform, hst]⟩
    cases he
    exact ⟨job, hjob, by cases job.phase <;> rfl⟩

/-- **No deadlock.** -/
theorem Inv.moves (h : Inv found s) (hs : ¬ ∀ t, s.stage t = .outside) : ∃ s', Moves s s' := by
  cases hh : s.holder with
  | some t => exact h.moves_inside ((h.exclusive t).2 hh)
  | none =>
    obtain ⟨t, ht⟩ := not_forall.1 hs
    have hout : (s.stage t).inside = false := h.not_inside (by rw [hh]; simp)
    cases hst : s.stage t with
    | outside => exact absurd hst ht
    | waiting => exact ⟨_, .lock t, by simp, by simp, by rw [Saves.perform, hst, hh]⟩
    | taking _ _ | writing _ => rw [hst] at hout; cases hout

theorem MovesBy.outside {a : Action} (hm : MovesBy a s s') {t : Nat} (ht : s.stage t = .outside) :
    s'.stage t = .outside := by
  obtain ⟨stage, hstage⟩ := perform_stage hm.performs
  have hne : t ≠ a.thread := by
    rintro rfl
    exact (perform_own hm.performs hm.saving).1 ht
  rw [hstage, update_of_ne hne, ht]

theorem MovesBy.finite {a : Action} (hm : MovesBy a s s')
    (hF : ∀ t, s.stage t ≠ .outside → t ∈ F) : ∀ t, s'.stage t ≠ .outside → t ∈ F :=
  fun t ht => hF t fun ho => ht (hm.outside ho)

theorem Inv.afterCall_of_not_accepts (h : Inv found s) {t : Nat} {b : Basis}
    (ht : s.stage t = .writing b) {result : SysResult}
    (ha : ∀ job, s.store.saving = some job → job.phase.accepts result = false) :
    s.afterCall t b (s.store.resume result) = s := by
  have hagrees := h.agrees t
  rw [ht] at hagrees
  obtain ⟨-, job, hjob, -, hp⟩ := hagrees
  rw [resume_eq hjob, advance_of_not_accepts hp hjob (ha job hjob), afterCall, hjob]

theorem Inv.sorts (h : Inv found s) {a : Action} (hs : s.perform a = some s')
    (hcall : ∀ t, a ≠ .call t) : MovesBy a s s' ∨ s' = s := by
  cases a with
  | call t => exact absurd rfl (hcall t)
  | resume t result =>
    by_cases ha : ∃ job, s.store.saving = some job ∧ job.phase.accepts result = true
    · refine .inl ⟨hcall, fun u result' he => ?_, hs⟩
      cases he
      exact ha
    · simp only [Saves.perform] at hs
      split at hs
      next b ht =>
        cases hs
        refine .inr (h.afterCall_of_not_accepts ht fun job hjob => ?_)
        exact Bool.eq_false_iff.2 fun hacc => ha ⟨job, hjob, hacc⟩
      next => cases hs
  | lock t | visit t | encode t _ => exact .inl ⟨hcall, fun _ _ he => (by cases he), hs⟩

theorem Others.inv (ho : Others s s') (h : Inv found s) :
    Inv found s' ∧ s'.stage = s.stage ∧ s'.returned = s.returned ∧ work F s' = work F s := by
  rcases ho with ⟨watch, hw, rfl⟩ | ⟨t, ht⟩
  · refine ⟨h.background hw, rfl, rfl, ?_⟩
    unfold work
    rw [hw.count h.watch]
  · simp only [perform] at ht
    split at ht
    next b hst =>
      cases ht
      rw [h.afterCall_of_not_accepts hst fun job _ => by cases job.phase <;> rfl]
      exact ⟨h, rfl, rfl, rfl⟩
    next => cases ht

end

/-- **Every save returns.** From wherever the threads that save are, with no new ones, whatever
is done to the database meanwhile and however often system calls are interrupted: there are
only finitely many more steps, and where no more can be made all saves have returned. -/
theorem saves_return {s : Saves} (h : Reachable s) :
    EndsAmid Others Moves (fun s => ∀ t, s.stage t = .outside) s := by
  obtain ⟨F, hF⟩ := h.finite
  obtain ⟨found, hi⟩ := h.inv
  refine endsAmid_of_measure (I := fun s => Inv found s ∧ ∀ t, s.stage t ≠ .outside → t ∈ F)
    (m := work F) ?_ ?_ (fun s hi hs => hi.1.moves hs) ⟨hi, hF⟩
  · rintro s s' ⟨hi, hF⟩ ⟨a, hm⟩
    exact ⟨⟨hi.perform hm.performs, hm.finite hF⟩, hm.work_lt hi hF⟩
  · rintro s s' ⟨hi, hF⟩ ho
    obtain ⟨hi', hstage, -, hwork⟩ := ho.inv hi (F := F)
    exact ⟨⟨hi', hstage ▸ hF⟩, le_of_eq hwork⟩

/-- One thread writes and another one waits. -/
theorem saves_return_two : ∃ s, Reachable s ∧ s.holder = some 0 ∧ s.stage 1 = .waiting ∧
    s.store.saving.isSome = true ∧
    EndsAmid Others Moves (fun s => ∀ t, s.stage t = .outside) s := by
  have hcalled := ((Reachable.new (@Watched.Reachable.new 1 1 _ rfl 0) (fun _ h => by cases h) :
    Reachable ⟨_, ⟨bytes "d", ⟨none, none⟩, 0, none, []⟩, _, _, _, _⟩).step
    (.perform (.call 0) rfl)).step (.perform (.call 1) rfl)
  have hr := (((hcalled.step (.perform (.lock 0) rfl)).step (.perform (.visit 0) rfl)).step
    (.perform (.visit 0) rfl)).step (.perform (.encode 0 fun _ => ⟨0, 0⟩) rfl)
  exact ⟨_, hr, rfl, rfl, rfl, saves_return hr⟩

end Saves

end SnapshotStore

end VCache
