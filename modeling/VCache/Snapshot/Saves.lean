import VCache.Database.Moments
import VCache.Snapshot.Crash

/-!
# Saving while the database is in use

`SnapshotStore::save` as it runs. Any number of threads may ask for a save: the command
`SAVE`, the scheduler, the end of the program. They take turns under `mutex_`. The one that
has it lists the database shard by shard, with other calls in between, encodes what it has
got and goes through the system calls.

At every moment the snapshot file is the whole encoding of one such listing.
-/

namespace VCache

open Function Lib Database

namespace SnapshotStore

/-- What a save encodes: a listing, the moments it was taken at, whether there had been a
limit, and the readings of the clocks. -/
structure Basis where
  entries : List Entry
  moments : List Moment
  limited : Bool
  encodedAt : Int
  readings : Nat → Snapshot.Reading

def Basis.encoded (b : Basis) : Bytes := Snapshot.encode b.entries b.encodedAt b.readings

/-- The file that holds it. -/
def Basis.file (b : Basis) : File := ⟨b.encoded, true⟩

/-- The entries were there at moments of the save, and none is missing that was there at all
of them. -/
def Basis.Sound (b : Basis) : Prop := Listed (fun _ => True) b.limited b.moments b.entries

/-- Where a thread is in `save`. -/
inductive Stage where
  | outside
  | waiting
  | taking (call : Call) (moments : List Moment)
  | writing (basis : Basis)

def Stage.inside : Stage → Bool
  | .outside | .waiting => false
  | .taking _ _ | .writing _ => true

/-- A store in use. `basis` is what the snapshot file was made from, if a save made it. -/
structure Saves where
  watch : Watched
  store : SnapshotStore
  stage : Nat → Stage := fun _ => .outside
  holder : Option Nat := none
  basis : Option Basis := none
  returned : List (Nat × SaveOutcome) := []

inductive Action where
  | call (t : Nat)
  | lock (t : Nat)
  /-- `snapshot` reads its next shard, or returns. -/
  | visit (t : Nat)
  | encode (t : Nat) (readings : Nat → Snapshot.Reading)
  | resume (t : Nat) (result : SysResult)

def Action.thread : Action → Nat
  | .call t | .lock t | .visit t | .encode t _ | .resume t _ => t

namespace Saves

def setStage (s : Saves) (t : Nat) (stage : Stage) : Saves :=
  { s with stage := update s.stage t stage }

/-- What the saving thread does when a system call returns. At the end of the save it lets go
of the mutex. -/
def afterCall (s : Saves) (t : Nat) (b : Basis) (store : SnapshotStore) : Saves :=
  match store.saving with
  | some _ => { s with store }
  | none =>
    let outcome := store.outcomes.getLastD {}
    { s with
      store
      stage := update s.stage t .outside
      holder := none
      basis := if outcome.ok then some b else s.basis
      returned := s.returned ++ [(t, outcome)] }

def perform (s : Saves) : Action → Option Saves
  | .call t =>
    match s.stage t with
    | .outside => some (s.setStage t .waiting)
    | _ => none
  | .lock t =>
    match s.stage t, s.holder with
    | .waiting, none =>
      some { s with
             holder := some t
             stage := update s.stage t
               (.taking (Call.of s.watch.sys.db.shards.length .snapshot) []) }
    | _, _ => none
  | .visit t =>
    match s.stage t with
    | .taking (.snapshot next result) moments =>
      some { s with
             watch := s.watch.goOn (.snapshot next result)
             stage := update s.stage t
               (.taking ((Call.snapshot next result).advance s.watch.sys.db s.watch.sys.clock).2
                 (moments ++ [s.watch.moment])) }
    | _ => none
  | .encode t readings =>
    match s.stage t with
    | .taking (.returned (.entries entries)) moments =>
      some { s with
             store := s.store.beginWrite entries s.watch.sys.clock readings
             stage := update s.stage t
               (.writing ⟨entries, moments, s.watch.limited, s.watch.sys.clock, readings⟩) }
    | _ => none
  | .resume t result =>
    match s.stage t with
    | .writing b => some (s.afterCall t b (s.store.resume result))
    | _ => none

inductive Step (s : Saves) : Saves → Prop where
  | background {watch : Watched} : s.watch.Step watch → Step s { s with watch }
  | perform {s' : Saves} (a : Action) : s.perform a = some s' → Step s s'

end Saves

/-! ### Runs -/

/-- What is known about a thread from where it is. -/
def Stage.Agrees (watch : Watched) (store : SnapshotStore) : Stage → Prop
  | .outside | .waiting => True
  | .taking call moments =>
    Underway watch.sys.db.shardIndexFor watch.limited moments .snapshot call
  | .writing b => b.Sound ∧ ∃ job, store.saving = some job ∧ job.encoded = b.encoded ∧
      Prepared job store.disk.temp

theorem Stage.agrees_of_not_inside {stage : Stage} {watch : Watched} {store : SnapshotStore}
    (h : stage.inside = false) : stage.Agrees watch store := by
  cases stage with
  | outside | waiting => trivial
  | taking _ _ | writing _ => cases h

namespace Saves

structure Inv (found : Option File) (s : Saves) : Prop where
  watch : s.watch.Inv
  exclusive : ∀ t, (s.stage t).inside = true ↔ s.holder = some t
  agrees : ∀ t, (s.stage t).Agrees s.watch s.store
  durable : Durable s.store.disk.target
  file : s.store.disk.target = (s.basis.map Basis.file).or found
  sound : ∀ b, s.basis = some b → b.Sound

variable {found : Option File} {s s' : Saves} {t : Nat}

theorem Inv.not_inside (h : Inv found s) {t' : Nat} (ht : s.holder ≠ some t') :
    (s.stage t').inside = false :=
  Bool.eq_false_iff.2 fun hin => ht ((h.exclusive t').1 hin)

theorem inv_of_moved (halone : ∀ t' ≠ t, (s.stage t').inside = false)
    {stage : Stage} (hstage : s'.stage = update s.stage t stage)
    (hholder : s'.holder = if stage.inside then some t else none)
    (hagrees : stage.Agrees s'.watch s'.store) (hwatch : s'.watch.Inv)
    (hdurable : Durable s'.store.disk.target)
    (hfile : s'.store.disk.target = (s'.basis.map Basis.file).or found)
    (hsound : ∀ b, s'.basis = some b → b.Sound) : Inv found s' := by
  refine ⟨hwatch, ?_, ?_, hdurable, hfile, hsound⟩
  · rw [hstage, hholder]
    refine (forall_update_iff _ fun t' st => Stage.inside st = true ↔ _ = some t').2
      ⟨?_, fun t' ht' => ?_⟩
    · cases stage.inside <;> simp
    · rw [halone t' ht']
      cases stage.inside <;> simp [Ne.symm ht']
  · rw [hstage]
    exact (forall_update_iff _ fun _ st => Stage.Agrees s'.watch s'.store st).2
      ⟨hagrees, fun t' ht' => Stage.agrees_of_not_inside (halone t' ht')⟩

theorem Inv.alone (h : Inv found s) (ht : (s.stage t).inside = true) :
    ∀ t' ≠ t, (s.stage t').inside = false := by
  intro t' hne
  refine h.not_inside fun hh => hne ?_
  exact Option.some.inj (hh.symm.trans ((h.exclusive t).1 ht))

theorem Inv.background (h : Inv found s) {watch : Watched} (hw : s.watch.Step watch) :
    Inv found { s with watch } := by
  obtain ⟨hroute, b, hb⟩ := hw.shape h.watch
  refine ⟨hw.inv h.watch, h.exclusive, fun t => ?_, h.durable, h.file, h.sound⟩
  have ht := h.agrees t
  show (s.stage t).Agrees watch s.store
  cases hst : s.stage t with
  | taking call moments =>
    rw [hst] at ht
    unfold Stage.Agrees at ht ⊢
    rw [hroute, hb]
    exact ht.weaken b
  | writing basis => rw [hst] at ht; exact ht
  | outside | waiting => trivial

theorem Inv.wait (h : Inv found s) (ht : s.stage t = .outside) :
    Inv found (s.setStage t .waiting) := by
  refine ⟨h.watch, ?_, ?_, h.durable, h.file, h.sound⟩
  · refine (forall_update_iff _ fun t' st => Stage.inside st = true ↔ s.holder = some t').2
      ⟨?_, fun t' _ => h.exclusive t'⟩
    have hout := h.exclusive t
    rw [ht] at hout
    exact hout
  · exact (forall_update_iff _ fun _ st => Stage.Agrees s.watch s.store st).2
      ⟨trivial, fun t' _ => h.agrees t'⟩

theorem Inv.resume (h : Inv found s) {b : Basis} (ht : s.stage t = .writing b)
    (result : SysResult) : Inv found (s.afterCall t b (s.store.resume result)) := by
  have halone := h.alone (t := t) (by rw [ht]; rfl)
  have hagrees := h.agrees t
  rw [ht] at hagrees
  obtain ⟨hsound, job, hjob, hencoded, hprepared⟩ := hagrees
  rw [resume_eq hjob]
  rcases advance_cases hprepared hjob result with ⟨phase, hg⟩ | ⟨outcome, ho⟩
  · simp only [afterCall, hg.saving]
    have hself : s.stage = update s.stage t (.writing b) := by rw [← ht, update_eq_self]
    refine inv_of_moved halone hself ((h.exclusive t).1 (by rw [ht]; rfl)) ?_ h.watch ?_ ?_ h.sound
    · exact ⟨hsound, _, hg.saving, hencoded, hg.temp⟩
    · rw [hg.target]
      exact h.durable
    · rw [hg.target]
      exact h.file
  · simp only [afterCall, ho.saving, ho.outcomes, List.getLastD_concat]
    refine inv_of_moved halone rfl rfl trivial h.watch ?_ ?_ fun b' hb' => ?_
    · exact ho.durable h.durable
    · show (s.store.advance job result).disk.target = _
      cases hok : outcome.ok with
      | true =>
        rw [(ho.replaced hok).1, hencoded]
        rfl
      | false => exact (ho.failed hok).1.trans h.file
    · dsimp only at hb'
      split at hb'
      next => cases hb'; exact hsound
      next => exact h.sound b' hb'

theorem Inv.perform (h : Inv found s) {a : Action} (hs : s.perform a = some s') : Inv found s' := by
  cases a with
  | call t =>
    simp only [Saves.perform] at hs
    split at hs
    next ht => cases hs; exact h.wait ht
    next => cases hs
  | lock t =>
    simp only [Saves.perform] at hs
    split at hs
    next _ hfree =>
      cases hs
      refine inv_of_moved (fun t' _ => h.not_inside (by rw [hfree]; simp)) rfl rfl ?_ h.watch
        h.durable h.file h.sound
      exact .snapshot .start
    next => cases hs
  | visit t =>
    simp only [Saves.perform] at hs
    split at hs
    next next result moments ht =>
      cases hs
      have hunder := h.agrees t
      rw [ht] at hunder
      obtain ⟨hmade, hfree⟩ := Underway.made hunder
      have hin : (s.stage t).inside = true := by rw [ht]; rfl
      refine inv_of_moved (h.alone hin) rfl ((h.exclusive t).1 hin) ?_
        (h.watch.goOn hmade hfree) h.durable h.file h.sound
      show Underway (s.watch.goOn (.snapshot next result)).sys.db.shardIndexFor s.watch.limited
        _ _ _
      rw [(h.watch.keeps_goOn _).route]
      exact Underway.advance hunder h.watch.coherent
    next => cases hs
  | encode t readings =>
    simp only [Saves.perform] at hs
    split at hs
    next entries moments ht =>
      cases hs
      have hunder := h.agrees t
      rw [ht] at hunder
      have hin : (s.stage t).inside = true := by rw [ht]; rfl
      refine inv_of_moved (h.alone hin) rfl ((h.exclusive t).1 hin) ?_ h.watch h.durable h.file
        h.sound
      exact ⟨Underway.listed hunder, _, rfl, rfl, trivial⟩
    next => cases hs
  | resume t result =>
    simp only [Saves.perform] at hs
    split at hs
    next b ht => cases hs; exact h.resume ht result
    next => cases hs

/-- What one thread does is nothing to another: where that is, and what it was told. -/
theorem perform_other {a : Action} (hs : s.perform a = some s') (ht : a.thread ≠ t) :
    s'.stage t = s.stage t ∧
      s'.returned.filter (·.1 = t) = s.returned.filter (·.1 = t) := by
  have hstage : ∀ u stage, u ≠ t → update s.stage u stage t = s.stage t :=
    fun u stage hu => update_of_ne (Ne.symm hu) ..
  cases a with
  | resume u result =>
    simp only [Saves.perform] at hs
    split at hs
    next b hb =>
      cases hs
      unfold afterCall
      split
      next => exact ⟨rfl, rfl⟩
      next =>
        have hu : u ≠ t := ht
        refine ⟨hstage u _ ht, ?_⟩
        rw [List.filter_append, List.filter_cons_of_neg (by simpa using hu), List.filter_nil,
          List.append_nil]
    next => cases hs
  | call u | lock u | visit u | encode u _ =>
    simp only [Saves.perform] at hs
    split at hs
    next => cases hs; exact ⟨hstage u _ ht, rfl⟩
    next => cases hs

theorem perform_own {a : Action} (hs : s.perform a = some s') (hcall : ∀ u, a ≠ .call u) :
    s.stage a.thread ≠ .outside ∧
      ((s'.stage a.thread ≠ .outside ∧ s'.returned = s.returned) ∨
        (s'.stage a.thread = .outside ∧
          ∃ outcome, s'.returned = s.returned ++ [(a.thread, outcome)])) := by
  cases a with
  | call u => exact absurd rfl (hcall u)
  | resume u result =>
    simp only [Saves.perform] at hs
    split at hs
    next b hb =>
      cases hs
      refine ⟨by rw [Action.thread, hb]; simp, ?_⟩
      unfold afterCall
      split
      next => exact .inl ⟨by rw [Action.thread, hb]; simp, rfl⟩
      next => exact .inr ⟨update_self .., _, rfl⟩
    next => cases hs
  | lock u | visit u | encode u _ =>
    simp only [Saves.perform] at hs
    split at hs
    next =>
      cases hs
      refine ⟨?_, .inl ⟨?_, rfl⟩⟩
      · simp only [Action.thread, *]
        simp
      · simp only [Action.thread, update_self]
        simp
    next => cases hs

theorem Step.inv (hs : Step s s') (h : Inv found s) : Inv found s' := by
  cases hs with
  | background hw => exact h.background hw
  | perform a ha => exact h.perform ha

end Saves

end SnapshotStore

end VCache
