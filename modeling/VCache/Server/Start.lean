import VCache.Snapshot.Load

/-!
# Starting a server

`Server::start` and `closeSockets`. The snapshot is restored before there is a socket, and a
file that cannot be read or trusted keeps the server from starting. Whatever fails, nothing
is left open and no thread runs.
-/

namespace VCache

/-- What `start` reads of the configuration. -/
structure ServerConfig where
  bindAddress : Bytes := bytes "127.0.0.1"
  /-- In milliseconds, like `saveInterval`. -/
  sweepInterval : Int := 100
  snapshotPath : Bytes := []
  saveInterval : Int := 0
  restoreOnStart : Bool := true
  maxMemoryBytes : Nat := 0

namespace Server

/-- What the system calls of `start` come to. A failure comes with its text. -/
structure StartCalls where
  refused : Option Bytes
  reads : List SnapshotStore.ReadResult
  clocks : SnapshotStore.LoadClocks
  socket : Except Bytes Nat
  setsockopt : Except Bytes Unit
  addressValid : Bool
  bind : Except Bytes Unit
  listen : Except Bytes Unit
  getsockname : Except Bytes Nat
  pipe : Except Bytes (Nat × Nat)

/-- The members `start` sets. `descriptors` are those it has opened and nobody has closed. -/
structure Setup where
  database : Database
  /-- There is a `store_`. -/
  persistent : Bool := false
  listenFd : Option Nat := none
  shutdownPipe : List Nat := []
  boundPort : Nat := 0
  restoredEntryCount : Nat := 0
  pool : Bool := false
  sweeper : Bool := false
  scheduler : Bool := false
  error : Bytes := []
  descriptors : List Nat := []

def describeErrno (what : String) (why : Bytes) : Bytes :=
  bytes what ++ bytes " failed: " ++ why

namespace Setup

def closeSockets (s : Setup) : Setup :=
  { s with
    descriptors := s.descriptors.filter fun fd => fd ∉ s.listenFd ∧ fd ∉ s.shutdownPipe
    listenFd := none
    shutdownPipe := [] }

/-- `start` gives up with open sockets. -/
def fail (s : Setup) (error : Bytes) : Setup := closeSockets { s with error }

/-- A system call that has to succeed. -/
def attempt {α : Type} (s : Setup) (what : String) (result : Except Bytes α)
    (next : α → Except Setup Setup) : Except Setup Setup :=
  match result with
  | .error why => .error (s.fail (describeErrno what why))
  | .ok a => next a

/-- `start` up to the socket. -/
def restoreSnapshot (config : ServerConfig) (disk : SnapshotStore.Disk) (calls : StartCalls)
    (s : Setup) : Option (Except Setup Setup) :=
  if config.snapshotPath = [] then some (.ok s)
  else if config.restoreOnStart = false then some (.ok { s with persistent := true })
  else
    let store : SnapshotStore := { path := config.snapshotPath, disk }
    (store.load s.database calls.refused calls.reads calls.clocks).map fun r =>
      if r.2.status = .failed then
        .error { s with
          database := r.1
          error :=
            bytes "cannot load snapshot '" ++ config.snapshotPath ++ bytes "': " ++ r.2.error }
      else
        .ok { s with
          database := r.1
          persistent := true
          restoredEntryCount := r.2.entriesLoaded }

def openSockets (config : ServerConfig) (calls : StartCalls) (s : Setup) : Except Setup Setup :=
  match calls.socket with
  | .error why => .error { s with error := describeErrno "socket" why }
  | .ok fd =>
    let s := { s with listenFd := some fd, descriptors := fd :: s.descriptors }
    s.attempt "setsockopt(SO_REUSEADDR)" calls.setsockopt fun _ =>
      if calls.addressValid = false then
        .error (s.fail (bytes "invalid bind address: " ++ config.bindAddress))
      else
        s.attempt "bind" calls.bind fun _ =>
          s.attempt "listen" calls.listen fun _ =>
            s.attempt "getsockname" calls.getsockname fun port =>
              let s := { s with boundPort := port }
              s.attempt "pipe" calls.pipe fun ends =>
                .ok { s with
                  shutdownPipe := [ends.1, ends.2]
                  descriptors := ends.1 :: ends.2 :: s.descriptors }

def launch (config : ServerConfig) (s : Setup) : Setup :=
  { s with
    pool := true
    sweeper := decide (0 < config.sweepInterval)
    scheduler := s.persistent && decide (0 < config.saveInterval) }

end Setup

/-- `start`; an error is a `false` that is returned. The result is `none` as long as there are
reads to come. -/
def start (config : ServerConfig) (disk : SnapshotStore.Disk) (calls : StartCalls)
    (db : Database) : Option (Except Setup Setup) :=
  ((Setup.restoreSnapshot config disk calls
    { database := db.setMaxMemory config.maxMemoryBytes }).map fun r =>
      r.bind fun s => (s.openSockets config calls).map (Setup.launch config))

/-! ### What is left open -/

variable {config : ServerConfig} {disk : SnapshotStore.Disk} {calls : StartCalls}

/-- No socket, no thread. -/
structure Setup.Bare (s : Setup) : Prop where
  descriptors : s.descriptors = []
  listenFd : s.listenFd = none
  shutdownPipe : s.shutdownPipe = []
  threads : s.pool = false ∧ s.sweeper = false ∧ s.scheduler = false

/-- The sockets are all there and the pipe, and `descriptors` has nothing else. -/
structure Setup.Serving (s : Setup) : Prop where
  sockets : ∃ fd i o, s.listenFd = some fd ∧ s.shutdownPipe = [i, o] ∧ s.descriptors = [i, o, fd]
  pool : s.pool = true

/-- What a database is restored to. -/
inductive Restores (config : ServerConfig) (disk : SnapshotStore.Disk) (calls : StartCalls)
    (db : Database) : Database → Prop where
  | off : config.snapshotPath = [] ∨ config.restoreOnStart = false →
      Restores config disk calls db db
  | loaded {db' : Database} {outcome : LoadOutcome} : outcome.status ≠ .failed →
      SnapshotStore.load { path := config.snapshotPath, disk } db calls.refused calls.reads
        calls.clocks = some (db', outcome) → Restores config disk calls db db'

/-- What there is after a part of `start`: nothing open, or what `next` says. -/
def BareOr (next : Setup → Prop) : Except Setup Setup → Prop
  | .error s => s.Bare
  | .ok s => next s

theorem Setup.Bare.restoreSnapshot {s : Setup} (h : s.Bare) {r : Except Setup Setup}
    (hs : s.restoreSnapshot config disk calls = some r) :
    BareOr (fun s' => s'.Bare ∧ Restores config disk calls s.database s'.database) r := by
  unfold Setup.restoreSnapshot at hs
  split at hs
  next hpath =>
    cases hs
    exact ⟨h, .off (.inl hpath)⟩
  next =>
    split at hs
    next hoff =>
      cases hs
      exact ⟨⟨h.descriptors, h.listenFd, h.shutdownPipe, h.threads⟩, .off (.inr hoff)⟩
    next =>
      obtain ⟨loaded, hload, rfl⟩ := Option.map_eq_some_iff.1 hs
      by_cases hfailed : loaded.2.status = .failed
      · rw [if_pos hfailed]
        exact ⟨h.descriptors, h.listenFd, h.shutdownPipe, h.threads⟩
      · rw [if_neg hfailed]
        exact ⟨⟨h.descriptors, h.listenFd, h.shutdownPipe, h.threads⟩, .loaded hfailed hload⟩

theorem Setup.Bare.fail {s : Setup} (h : s.Bare) (fd port : Nat) (error : Bytes) :
    (Setup.fail { s with
      listenFd := some fd, descriptors := fd :: s.descriptors, boundPort := port } error).Bare := by
  refine ⟨?_, rfl, rfl, h.threads⟩
  simp [Setup.fail, closeSockets, h.descriptors]

theorem attempt_cases {α : Type} {s : Setup} {what : String} {result : Except Bytes α}
    {next : α → Except Setup Setup} {P : Except Setup Setup → Prop}
    (herror : ∀ error, P (.error (s.fail error))) (hok : ∀ a, P (next a)) :
    P (s.attempt what result next) := by
  unfold Setup.attempt
  cases result with
  | error why => exact herror _
  | ok a => exact hok a

theorem Setup.Bare.openSockets {s : Setup} (h : s.Bare) :
    BareOr (fun s' => (s'.launch config).Serving ∧ s'.database = s.database)
      (s.openSockets config calls) := by
  unfold Setup.openSockets
  cases calls.socket with
  | error why => exact ⟨h.descriptors, h.listenFd, h.shutdownPipe, h.threads⟩
  | ok fd =>
    have hfail := fun port error => h.fail fd port error
    dsimp only
    refine attempt_cases (hfail _) fun _ => ?_
    split
    next => exact hfail _ _
    next =>
      refine attempt_cases (hfail _) fun _ => attempt_cases (hfail _) fun _ =>
        attempt_cases (hfail _) fun port => attempt_cases (hfail _) fun ends => ?_
      exact ⟨⟨⟨fd, ends.1, ends.2, rfl, rfl, by rw [h.descriptors]; rfl⟩, rfl⟩, rfl⟩

/-- **Starting is all or nothing.** If `start` returns true, the server listens, the pipe is
open, and the database holds what the snapshot held; if it returns false, it has closed all it
opened and started no thread. -/
theorem start_cases {db : Database} {r : Except Setup Setup}
    (h : start config disk calls db = some r) :
    BareOr (fun s => s.Serving ∧
      Restores config disk calls (db.setMaxMemory config.maxMemoryBytes) s.database) r := by
  obtain ⟨restored, hr, rfl⟩ := Option.map_eq_some_iff.1 h
  have hbare : Setup.Bare { database := db.setMaxMemory config.maxMemoryBytes } :=
    ⟨rfl, rfl, rfl, rfl, rfl, rfl⟩
  have hrestored := hbare.restoreSnapshot hr
  cases restored with
  | error s => exact hrestored
  | ok s =>
    have hopen : BareOr _ (s.openSockets config calls) := hrestored.1.openSockets
    show BareOr _ ((s.openSockets config calls).map (Setup.launch config))
    cases hs : s.openSockets config calls with
    | error s' => rw [hs] at hopen; exact hopen
    | ok s' =>
      rw [hs] at hopen
      refine ⟨hopen.1, ?_⟩
      show Restores config disk calls _ s'.database
      rw [hopen.2]
      exact hrestored.2

/-! ### The database a server starts with -/

theorem Restores.inv {disk : SnapshotStore.Disk} {calls : StartCalls} {db db' : Database}
    (h : Restores config disk calls db db') (hdb : db.Inv) :
    db'.Inv ∧ db'.maxMemoryBytes = db.maxMemoryBytes := by
  cases h with
  | off _ => exact ⟨hdb, rfl⟩
  | loaded hne hload =>
    rcases SnapshotStore.load_cases hload with
      ⟨-, rfl, -⟩ | ⟨hfailed, -⟩ | ⟨-, file, entries, -, -, hr⟩
    · exact ⟨hdb, rfl⟩
    · exact absurd hfailed hne
    · have hdb' : db' = (db.restore entries calls.clocks.restoredAt).1 := congrArg Prod.fst hr
      have hstep := hdb.step (.restore entries) fun _ => calls.clocks.restoredAt
      have hshape := @Database.sameShape_step db (.restore entries) (by simp)
        fun _ => calls.clocks.restoredAt
      rw [hdb']
      exact ⟨hstep, hshape.limit⟩

theorem Restores.decodes {disk : SnapshotStore.Disk} {calls : StartCalls} {db db' : Database}
    {file : SnapshotStore.File} (h : Restores config disk calls db db')
    (hpath : config.snapshotPath ≠ []) (hon : config.restoreOnStart = true)
    (hfile : disk.target = some file) :
    ∃ now readings entries, Snapshot.decode file.data now readings = .ok entries := by
  cases h with
  | off hoff =>
    rcases hoff with hoff | hoff
    · exact absurd hoff hpath
    · cases hon.symm.trans hoff
  | loaded hne hload =>
    rcases SnapshotStore.load_cases hload with
      ⟨-, -, hnone⟩ | ⟨hfailed, -⟩ | ⟨-, file', entries, htarget, hok, -⟩
    · cases hfile.symm.trans hnone
    · exact absurd hfailed hne
    · cases hfile.symm.trans htarget
      exact ⟨_, _, entries, hok⟩

end Server

end VCache
