import VCache.Database.Model
import VCache.Snapshot.Format

/-!
# The snapshot store

`SnapshotStore::save` and `writeAll`. A save runs from one system call to the next, like the
handler of a connection; `resume` is what it does with a result. `close` changes no file and
its result is not looked at, so it is not a call of its own here.

A file has the bytes a reader sees and a mark that `fsync` has made them durable. `rename` is
atomic, also against a crash.
-/

namespace VCache

structure SaveOutcome where
  ok : Bool := false
  entriesWritten : Nat := 0
  bytesWritten : Nat := 0
  error : Bytes := []
deriving DecidableEq, Repr

namespace SnapshotStore

structure File where
  data : Bytes
  synced : Bool
deriving DecidableEq, Repr

/-- The two paths of a store, `path_` and `path_ + ".tmp"`. -/
structure Disk where
  target : Option File
  temp : Option File
deriving DecidableEq, Repr

/-- The system call a save waits in. -/
inductive Phase where
  | opening
  | writing (written : Nat)
  | flushing
  | replacing
  /-- `unlink` after a failure. -/
  | discarding (error : Bytes)
deriving DecidableEq, Repr

/-- A save under way. `before` and `countBefore` record what it found. -/
structure Saving where
  entries : Nat
  encoded : Bytes
  before : Option File
  countBefore : Nat
  phase : Phase := .opening
deriving DecidableEq, Repr

inductive SysResult where
  | ok
  | wrote (count : Nat)
  | interrupted
  | failed (why : Bytes)
deriving DecidableEq, Repr

end SnapshotStore

/-- A store and its two files. `outcomes` records what the saves of this process returned. -/
structure SnapshotStore where
  path : Bytes
  disk : SnapshotStore.Disk
  saveCount : Nat := 0
  saving : Option SnapshotStore.Saving := none
  outcomes : List SaveOutcome := []
deriving DecidableEq, Repr

namespace SnapshotStore

def tempPath (s : SnapshotStore) : Bytes := s.path ++ bytes ".tmp"

def describeErrno (what : String) (path why : Bytes) : Bytes :=
  bytes what ++ bytes " '" ++ path ++ bytes "': " ++ why

/-- `save` from the encoding up to its first system call. -/
def beginWrite (s : SnapshotStore) (entries : List Entry) (encodedAt : Int)
    (readings : Nat → Snapshot.Reading) : SnapshotStore :=
  let job : Saving :=
    { entries := entries.length
      encoded := Snapshot.encode entries encodedAt readings
      before := s.disk.target
      countBefore := s.saveCount }
  { s with saving := some job }

/-- A save that nobody interrupts while it lists the database. -/
def beginSave (s : SnapshotStore) (db : Database) (now : Nat → Int) (encodedAt : Int)
    (readings : Nat → Snapshot.Reading) : SnapshotStore :=
  s.beginWrite (db.snapshot now) encodedAt readings

def finish (s : SnapshotStore) (outcome : SaveOutcome) : SnapshotStore :=
  { s with saving := none, outcomes := s.outcomes ++ [outcome] }

def goTo (s : SnapshotStore) (job : Saving) (phase : Phase) : SnapshotStore :=
  { s with saving := some { job with phase := phase } }

def setTemp (s : SnapshotStore) (temp : Option File) : SnapshotStore :=
  { s with disk := { s.disk with temp := temp } }

/-- The head of the loop of `writeAll`. -/
def writeMore (s : SnapshotStore) (job : Saving) (written : Nat) : SnapshotStore :=
  if written < job.encoded.length then s.goTo job (.writing written) else s.goTo job .flushing

/-- What the save does with the result of the call it waits in. -/
def advance (s : SnapshotStore) (job : Saving) (result : SysResult) : SnapshotStore :=
  match job.phase, result with
  | .opening, .ok => (s.setTemp (some ⟨[], false⟩)).writeMore job 0
  | .opening, .failed why => s.finish { error := describeErrno "cannot open" s.tempPath why }
  | .writing written, .wrote count =>
    let sofar := (s.disk.temp.map File.data).getD []
    let data := sofar ++ (job.encoded.drop written).take count
    (s.setTemp (some ⟨data, false⟩)).writeMore job (written + count)
  | .writing _, .failed why =>
    s.goTo job (.discarding (describeErrno "cannot write" s.tempPath why))
  | .flushing, .ok =>
    (s.setTemp (s.disk.temp.map fun file => { file with synced := true })).goTo job .replacing
  | .flushing, .failed why =>
    s.goTo job (.discarding (describeErrno "cannot flush" s.tempPath why))
  | .replacing, .ok =>
    finish { s with disk := ⟨s.disk.temp, none⟩, saveCount := s.saveCount + 1 }
      { ok := true, entriesWritten := job.entries, bytesWritten := job.encoded.length }
  | .replacing, .failed why =>
    s.goTo job (.discarding (describeErrno "cannot replace" s.path why))
  | .discarding error, .ok => (s.setTemp none).finish { error := error }
  | .discarding error, .failed _ => s.finish { error := error }
  | _, _ => s

def resume (s : SnapshotStore) (result : SysResult) : SnapshotStore :=
  match s.saving with
  | none => s
  | some job => s.advance job result

/-! ### Crashes -/

/-- What may be found of a file after a crash: bytes that were not durable can be anything. -/
def Survives (file file' : Option File) : Prop :=
  match file with
  | none => file' = none
  | some file => if file.synced then file' = some file else ∀ f ∈ file', f.synced = true

structure Crash (disk disk' : Disk) : Prop where
  target : Survives disk.target disk'.target
  temp : Survives disk.temp disk'.temp

/-- The file is on disk as a reader sees it. -/
def Durable (file : Option File) : Prop := ∀ f ∈ file, f.synced = true

/-- Saves with any results, one at a time, and crashes at any moment. After a crash a new
process works on what is left. -/
inductive Reachable : SnapshotStore → Prop where
  | start {path : Bytes} {disk : Disk} : Durable disk.target → Reachable { path, disk }
  | save {s : SnapshotStore} {db : Database} {now : Nat → Int} {encodedAt : Int}
      {readings : Nat → Snapshot.Reading} : Reachable s → s.saving = none →
      Reachable (s.beginSave db now encodedAt readings)
  | resume {s : SnapshotStore} {result : SysResult} : Reachable s → Reachable (s.resume result)
  | crash {s : SnapshotStore} {disk : Disk} : Reachable s → Crash s.disk disk →
      Reachable { path := s.path, disk }

end SnapshotStore

end VCache
