import VCache.Database.Sweep
import VCache.Snapshot.Crash
import VCache.Snapshot.Oversize

/-!
# What a save reports

A save counts the entries of its snapshot; the file has those of them that are still live
when the encoder reads the clock. The two numbers are one unless a key lapses in between.
-/

namespace VCache

namespace SnapshotStore

open Snapshot VCache.Lib

def run (s : SnapshotStore) (results : List SysResult) : SnapshotStore := results.foldl resume s

variable {s : SnapshotStore}

theorem run_idle (hs : s.saving = none) : ∀ results, s.run results = s
  | [] => rfl
  | result :: results => by
    have : s.resume result = s := by rw [resume, hs]
    rw [run, List.foldl_cons, this]
    exact run_idle hs results

theorem run_saved : ∀ (results : List SysResult) {s : SnapshotStore} {job : Saving},
    s.saving = some job → Prepared job s.disk.temp → ∀ {outcome : SaveOutcome},
    (s.run results).outcomes = s.outcomes ++ [outcome] → outcome.ok = true →
    (s.run results).disk.target = some ⟨job.encoded, true⟩ ∧
      outcome.bytesWritten = job.encoded.length ∧ outcome.entriesWritten = job.entries
  | [], s, job, _, _, outcome, hout, _ => by
    have := congrArg List.length hout
    simp [SnapshotStore.run] at this
  | result :: results, s, job, hs, hp, outcome, hout, hok => by
    have hstep : s.run (result :: results) = (s.advance job result).run results := by
      rw [SnapshotStore.run, List.foldl_cons, resume_eq hs]
      rfl
    rw [hstep] at hout ⊢
    rcases advance_cases hp hs result with ⟨phase, hg⟩ | ⟨outcome', ho⟩
    · exact run_saved results hg.saving hg.temp (by rw [hout, hg.outcomes]) hok
    · -- nothing follows the call that ends the save
      rw [run_idle ho.saving] at hout ⊢
      obtain rfl : outcome' = outcome := by simpa using ho.outcomes.symm.trans hout
      obtain ⟨hdisk, -, hbytes, hcount⟩ := ho.replaced hok
      exact ⟨by rw [hdisk], hbytes, hcount⟩

theorem length_unexpired_iff (entries : List Entry) (now : Int) :
    entries.length = (unexpired entries now).length ↔
      ∀ e ∈ entries, e.isExpiredAt now = false := by
  unfold unexpired
  rw [eq_comm, List.length_filter_eq_length_iff]
  simp

/-- **What a successful save reports.** The length it reports is that of the file. The number
of entries it reports is the one in the header and the number of records exactly when no
entry of the snapshot lapses before the encoder reads the clock. -/
theorem save_reports_iff (s : SnapshotStore) (db : Database) (now : Nat → Int) (encodedAt : Int)
    (readings : Nat → Reading) (hcount : (db.snapshot now).length < 2 ^ 64)
    (results : List SysResult) (outcome : SaveOutcome)
    (hend : ((s.beginSave db now encodedAt readings).run results).outcomes =
      s.outcomes ++ [outcome]) (hok : outcome.ok = true) :
    ∃ file records,
      ((s.beginSave db now encodedAt readings).run results).disk.target = some file ∧
      file.data = fileOf records ∧
      records = recordsOf readings 0 (unexpired (db.snapshot now) encodedAt) ∧
      outcome.bytesWritten = file.data.length ∧
      (readLE file.data (kMagicLength + 2) 8 = some (outcome.entriesWritten, kHeaderLength) ∧
          outcome.entriesWritten = records.length ↔
        ∀ e ∈ db.snapshot now, e.isExpiredAt encodedAt = false) := by
  have hjob : (s.beginSave db now encodedAt readings).saving = some
      { entries := (db.snapshot now).length
        encoded := encode (db.snapshot now) encodedAt readings
        before := s.disk.target
        countBefore := s.saveCount } := rfl
  obtain ⟨htarget, hbytes, hentries⟩ := run_saved results hjob trivial hend hok
  have hlen : (recordsOf readings 0 (unexpired (db.snapshot now) encodedAt)).length =
      (unexpired (db.snapshot now) encodedAt).length := recordsOf_length ..
  have hc : (recordsOf readings 0 (unexpired (db.snapshot now) encodedAt)).length < 2 ^ 64 := by
    rw [hlen]
    exact Nat.lt_of_le_of_lt (List.length_filter_le _ _) hcount
  refine ⟨_, _, htarget, encode_eq .., rfl, hbytes, ?_⟩
  dsimp only at hentries
  rw [← length_unexpired_iff, hentries]
  dsimp only
  rw [encode_eq, (readLE_fileOf hc).2.1, hlen]
  constructor
  · rintro ⟨-, h⟩
    exact h
  · intro h
    exact ⟨by rw [h], h⟩

/-- A first save of a key that lives for a second from time zero, the encoder reading the
clock at `encodedAt`. -/
def saveAt (encodedAt : Int) : SnapshotStore :=
  ({ path := bytes "dump.vcache", disk := ⟨none, none⟩ } : SnapshotStore).beginSave
    Database.lapsing (fun _ => 0) encodedAt fun _ => ⟨0, 0⟩

/-- The key is live in the snapshot and has lapsed when the encoder reads the clock: one entry
is reported, the header counts none and no record follows. -/
theorem save_reports_lapsed :
    ((saveAt (2 * Database.second)).run [.ok, .wrote 24, .ok, .ok]).outcomes =
      [{ ok := true, entriesWritten := 1, bytesWritten := 24 }] ∧
    ∃ file, ((saveAt (2 * Database.second)).run [.ok, .wrote 24, .ok, .ok]).disk.target =
        some file ∧
      file.data = fileOf [] ∧ readLE file.data (kMagicLength + 2) 8 = some (0, kHeaderLength) := by
  refine ⟨by decide +kernel, ⟨fileOf [], true⟩, by decide +kernel, rfl, by decide +kernel⟩

/-- With the second not yet over the report is right. -/
theorem save_reports_iff_live :
    ∃ file, ((saveAt 0).run [.ok, .wrote 42, .ok, .ok]).disk.target = some file ∧
      readLE file.data (kMagicLength + 2) 8 = some (1, kHeaderLength) ∧ 42 = file.data.length := by
  obtain ⟨file, records, htarget, -, -, hbytes, hiff⟩ := save_reports_iff
    { path := bytes "dump.vcache", disk := ⟨none, none⟩ } Database.lapsing (fun _ => 0) 0
    (fun _ => ⟨0, 0⟩) (by decide +kernel) [.ok, .wrote 42, .ok, .ok]
    { ok := true, entriesWritten := 1, bytesWritten := 42 } (by decide +kernel) rfl
  exact ⟨file, htarget, (hiff.2 (by decide +kernel)).1, hbytes⟩

end SnapshotStore

end VCache
