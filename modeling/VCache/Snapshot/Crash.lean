import VCache.Snapshot.Store

/-!
# Saving against crashes

The snapshot file changes in one call only, the `rename`, and then to the whole encoding,
which is durable by then.
-/

namespace VCache

namespace SnapshotStore

/-- What is in the temporary file when the save waits in a call. -/
def Prepared (job : Saving) (temp : Option File) : Prop :=
  match job.phase with
  | .writing written => written < job.encoded.length ∧ temp = some ⟨job.encoded.take written, false⟩
  | .flushing => temp = some ⟨job.encoded, false⟩
  | .replacing => temp = some ⟨job.encoded, true⟩
  | _ => True

/-- A save leaves the snapshot file and the counter alone until it renames. -/
structure Untouched (s : SnapshotStore) (job : Saving) : Prop where
  target : s.disk.target = job.before
  count : s.saveCount = job.countBefore
  temp : Prepared job s.disk.temp
  encoded : ∃ (db : Database) (now : Nat → Int) (encodedAt : Int)
      (readings : Nat → Snapshot.Reading),
    job.encoded = Snapshot.encode (db.snapshot now) encodedAt readings ∧
      job.entries = (db.snapshot now).length

structure Inv (s : SnapshotStore) : Prop where
  durable : Durable s.disk.target
  untouched : ∀ job, s.saving = some job → Untouched s job

/-- How a call ends a save. -/
def Ends (s s' : SnapshotStore) (job : Saving) (result : SysResult) : Prop :=
  ∃ outcome, s'.saving = none ∧ s'.outcomes = s.outcomes ++ [outcome] ∧
    (outcome.ok = true →
      s'.disk = ⟨some ⟨job.encoded, true⟩, none⟩ ∧ s'.saveCount = job.countBefore + 1 ∧
      outcome.bytesWritten = job.encoded.length ∧ outcome.entriesWritten = job.entries) ∧
    (outcome.ok = false →
      s'.disk.target = job.before ∧ s'.saveCount = job.countBefore ∧
      ((job.phase = .opening ∧ s'.disk.temp = s.disk.temp) ∨
        ∃ error, job.phase = .discarding error ∧ (result = .ok → s'.disk.temp = none)))

variable {s s' : SnapshotStore} {job : Saving} {result : SysResult}

/-! ### One call -/

/-- The save is under way and has left the snapshot file and the counter alone. -/
structure GoesOn (s s' : SnapshotStore) (job : Saving) (phase : Phase) : Prop where
  saving : s'.saving = some { job with phase := phase }
  outcomes : s'.outcomes = s.outcomes
  target : s'.disk.target = s.disk.target
  count : s'.saveCount = s.saveCount
  temp : Prepared { job with phase := phase } s'.disk.temp

/-- The save is over. The encoding is in place and counted, or the snapshot file and the counter
are as they were. -/
structure IsOver (s s' : SnapshotStore) (job : Saving) (result : SysResult)
    (outcome : SaveOutcome) : Prop where
  saving : s'.saving = none
  outcomes : s'.outcomes = s.outcomes ++ [outcome]
  replaced : outcome.ok = true →
    s'.disk = ⟨some ⟨job.encoded, true⟩, none⟩ ∧ s'.saveCount = s.saveCount + 1 ∧
      outcome.bytesWritten = job.encoded.length ∧ outcome.entriesWritten = job.entries
  failed : outcome.ok = false →
    s'.disk.target = s.disk.target ∧ s'.saveCount = s.saveCount ∧
      ((job.phase = .opening ∧ s'.disk.temp = s.disk.temp) ∨
        ∃ error, job.phase = .discarding error ∧ (result = .ok → s'.disk.temp = none))

theorem goesOn_writeMore {written : Nat} {temp : Option File}
    (ht : temp = some ⟨job.encoded.take written, false⟩) :
    ∃ phase, GoesOn s ((s.setTemp temp).writeMore job written) job phase := by
  unfold SnapshotStore.writeMore
  split
  next hlt => exact ⟨.writing written, rfl, rfl, rfl, rfl, hlt, ht⟩
  next hge =>
    refine ⟨.flushing, rfl, rfl, rfl, rfl, ?_⟩
    show temp = some ⟨job.encoded, false⟩
    rw [ht, List.take_of_length_le (by omega)]

/-- **What a system call can do to a save.** -/
theorem advance_cases (hp : Prepared job s.disk.temp) (hs : s.saving = some job)
    (result : SysResult) :
    (∃ phase, GoesOn s (s.advance job result) job phase) ∨
      ∃ outcome, IsOver s (s.advance job result) job result outcome := by
  obtain ⟨entries, encoded, before, countBefore, phase⟩ := job
  have stays : GoesOn s s ⟨entries, encoded, before, countBefore, phase⟩ phase :=
    ⟨hs, rfl, rfl, rfl, hp⟩
  cases phase with
  | opening =>
    cases result with
    | ok => exact .inl (goesOn_writeMore rfl)
    | failed why =>
      exact .inr ⟨_, rfl, rfl, (fun hok => by cases hok), fun _ => ⟨rfl, rfl, .inl ⟨rfl, rfl⟩⟩⟩
    | wrote _ | interrupted => exact .inl ⟨_, stays⟩
  | writing written =>
    cases result with
    | wrote count =>
      refine .inl (goesOn_writeMore ?_)
      rw [hp.2]
      simp only [Option.map_some, Option.getD_some, ← List.take_add]
    | failed why => exact .inl ⟨_, rfl, rfl, rfl, rfl, trivial⟩
    | ok | interrupted => exact .inl ⟨_, stays⟩
  | flushing =>
    cases result with
    | ok =>
      refine .inl ⟨.replacing, rfl, rfl, rfl, rfl, ?_⟩
      show s.disk.temp.map (fun file => { file with synced := true }) = some ⟨encoded, true⟩
      rw [show s.disk.temp = some ⟨encoded, false⟩ from hp]
      rfl
    | failed why => exact .inl ⟨_, rfl, rfl, rfl, rfl, trivial⟩
    | wrote _ | interrupted => exact .inl ⟨_, stays⟩
  | replacing =>
    cases result with
    | ok =>
      refine .inr ⟨_, rfl, rfl, fun _ => ⟨?_, rfl, rfl, rfl⟩, (fun hok => by cases hok)⟩
      show (⟨s.disk.temp, none⟩ : Disk) = _
      rw [show s.disk.temp = some ⟨encoded, true⟩ from hp]
    | failed why => exact .inl ⟨_, rfl, rfl, rfl, rfl, trivial⟩
    | wrote _ | interrupted => exact .inl ⟨_, stays⟩
  | discarding error =>
    cases result with
    | ok =>
      exact .inr ⟨_, rfl, rfl, (fun hok => by cases hok),
        fun _ => ⟨rfl, rfl, .inr ⟨error, rfl, fun _ => rfl⟩⟩⟩
    | failed why =>
      exact .inr ⟨_, rfl, rfl, (fun hok => by cases hok),
        fun _ => ⟨rfl, rfl, .inr ⟨error, rfl, fun hr => by cases hr⟩⟩⟩
    | wrote _ | interrupted => exact .inl ⟨_, stays⟩

theorem Untouched.goesOn {phase : Phase} (h : Untouched s job) (hg : GoesOn s s' job phase) :
    Untouched s' { job with phase := phase } :=
  ⟨hg.target.trans h.target, hg.count.trans h.count, hg.temp, h.encoded⟩

theorem Untouched.ends {outcome : SaveOutcome} (h : Untouched s job)
    (ho : IsOver s s' job result outcome) : Ends s s' job result := by
  refine ⟨outcome, ho.saving, ho.outcomes, fun hok => ?_, fun hno => ?_⟩
  · rw [← h.count]
    exact ho.replaced hok
  · rw [← h.target, ← h.count]
    exact ho.failed hno

theorem IsOver.durable {outcome : SaveOutcome} (ho : IsOver s s' job result outcome)
    (h : Durable s.disk.target) : Durable s'.disk.target := by
  cases hok : outcome.ok with
  | true =>
    rw [(ho.replaced hok).1]
    intro f hf
    cases hf
    rfl
  | false =>
    rw [(ho.failed hok).1]
    exact h

/-! ### Runs -/

theorem resume_eq (hs : s.saving = some job) (result : SysResult) :
    s.resume result = s.advance job result := by
  rw [resume, hs]

theorem Inv.resume (h : Inv s) (result : SysResult) : Inv (s.resume result) := by
  cases hs : s.saving with
  | none =>
    rw [SnapshotStore.resume, hs]
    exact h
  | some job =>
    have hu := h.untouched job hs
    rw [resume_eq hs]
    rcases advance_cases hu.temp hs result with ⟨phase, hg⟩ | ⟨outcome, ho⟩
    · refine ⟨hg.target ▸ h.durable, fun j hj => ?_⟩
      cases hj.symm.trans hg.saving
      exact hu.goesOn hg
    · refine ⟨ho.durable h.durable, fun j hj => ?_⟩
      rw [ho.saving] at hj
      cases hj

theorem Durable.survives {file file' : Option File} (h : Durable file) (hs : Survives file file') :
    file' = file := by
  cases file with
  | none => exact hs
  | some file =>
    simp only [Survives, h file rfl, if_true] at hs
    exact hs

theorem Reachable.inv (h : Reachable s) : Inv s := by
  induction h with
  | start hd => exact ⟨hd, fun _ hj => by cases hj⟩
  | @save s db now encodedAt readings _ _ ih =>
    refine ⟨ih.durable, fun job hj => ?_⟩
    cases hj
    exact ⟨rfl, rfl, trivial, db, now, encodedAt, readings, rfl, rfl⟩
  | resume _ ih => exact ih.resume _
  | @crash s disk _ hc ih =>
    refine ⟨?_, fun _ hj => by cases hj⟩
    show Durable disk.target
    rw [ih.durable.survives hc.target]
    exact ih.durable

/-- At every moment, and after a crash at that moment, the snapshot file is the one the running
save found. The call that ends a save leaves it so and the counter as well, or has put the
whole encoding in its place. A failed save leaves no temporary file once `unlink` succeeds;
one whose `open` fails leaves the temporary file as it was. -/
theorem save_replaces_whole_file {s : SnapshotStore} (h : Reachable s) :
    (∀ job, s.saving = some job → s.disk.target = job.before ∧ s.saveCount = job.countBefore ∧
      ∃ (db : Database) (now : Nat → Int) (encodedAt : Int) (readings : Nat → Snapshot.Reading),
        job.encoded = Snapshot.encode (db.snapshot now) encodedAt readings ∧
          job.entries = (db.snapshot now).length) ∧
    (∀ disk, Crash s.disk disk → disk.target = s.disk.target) ∧
    (∀ job result, s.saving = some job →
      ((s.resume result).outcomes = s.outcomes ∧
        (s.resume result).disk.target = s.disk.target ∧ (s.resume result).saving ≠ none) ∨
      Ends s (s.resume result) job result) := by
  have hinv := h.inv
  refine ⟨fun job hs => ?_, fun disk hc => hinv.durable.survives hc.target,
    fun job result hs => ?_⟩
  · obtain ⟨ht, hcount, -, hencoded⟩ := hinv.untouched job hs
    exact ⟨ht, hcount, hencoded⟩
  · have hu := hinv.untouched job hs
    rw [resume_eq hs]
    rcases advance_cases hu.temp hs result with ⟨phase, hg⟩ | ⟨outcome, ho⟩
    · exact .inl ⟨hg.outcomes, hg.target, by simp [hg.saving]⟩
    · exact .inr (hu.ends ho)

/-- A first save next to a temporary file from an earlier crash. -/
def stale : SnapshotStore :=
  ({ path := bytes "dump.vcache", disk := ⟨none, some ⟨[86], true⟩⟩ } : SnapshotStore).beginSave
    Database.single (fun _ => 0) 0 fun _ => ⟨0, 0⟩

theorem stale_reachable : Reachable stale := .save (.start fun _ h => by cases h) rfl

/-- `open` fails, and the temporary file is still there though no `unlink` has failed. -/
theorem failed_open_leaves_temp : ¬ ∀ (s : SnapshotStore) (job : Saving) (result : SysResult),
    Reachable s → s.saving = some job →
    (∀ error why, job.phase = .discarding error → result ≠ .failed why) →
    ∀ outcome, (s.resume result).outcomes = s.outcomes ++ [outcome] → outcome.ok = false →
      (s.resume result).disk.temp = none := by
  intro h
  have := h stale _ (.failed (bytes "Too many open files")) stale_reachable rfl
    (fun _ _ hp => by cases hp) _ rfl rfl
  cases this

theorem save_replaces_whole_file_stale : ∃ job, stale.saving = some job ∧
    Ends stale (stale.resume (.failed [])) job (.failed []) := by
  obtain ⟨-, -, hcall⟩ := save_replaces_whole_file stale_reachable
  rcases hcall _ (.failed []) rfl with ⟨-, -, hnone⟩ | hend
  · exact absurd rfl hnone
  · exact ⟨_, rfl, hend⟩

end SnapshotStore

end VCache
