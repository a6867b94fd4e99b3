import VCache.Database.Sweep
import VCache.Server.Start
import VCache.Snapshot.Saves

/-!
# A server across crashes and restarts

The program with a snapshot file, run after run. It starts, serves and saves, and is killed,
loses power, or comes to its end, where `main` makes a last save. Then it may be started again.

- Whenever the program is down, the file is the whole encoding of a listing that one save
  made, and a start brings its entries back.
- After a last save that succeeded, these are all entries the database held.
- A file that cannot be decoded is never overwritten.
-/

namespace VCache.Lifetime

open Lib Database SnapshotStore
open Server (Setup StartCalls start_cases)
open Snapshot (unexpired Datable)

/-- The machine, between the runs of the program and during one. -/
inductive Site where
  | down (disk : Disk) (basis : Option Basis)
  | up (s : Saves)
  | closing (s : Saves)

namespace Site

def disk : Site → Disk
  | .down disk _ => disk
  | .up s | .closing s => s.store.disk

/-- What the snapshot file was made from, if a save made it. -/
def basis : Site → Option Basis
  | .down _ basis => basis
  | .up s | .closing s => s.basis

end Site

def opened (config : ServerConfig) (disk : Disk) (basis : Option Basis) (setup : Setup)
    (clock : Int) : Saves where
  watch :=
    { sys := { db := setup.database, clock }
      map := setup.database.bindings
      limited := decide (config.maxMemoryBytes ≠ 0) }
  store := { path := config.snapshotPath, disk }
  basis

namespace Site

variable (config : ServerConfig)

inductive Step : Site → Site → Prop where
  | start {disk : Disk} {basis : Option Basis} {n shardCount : UInt64} {db : Database}
      {calls : StartCalls} {setup : Setup} (clock : Int) : Database.new n shardCount = some db →
      Server.start config disk calls db = some (.ok setup) → setup.persistent = true →
      Step (.down disk basis) (.up (opened config disk basis setup clock))
  /-- `start` returns false and `main` ends. -/
  | refused {disk : Disk} {basis : Option Basis} {n shardCount : UInt64} {db : Database}
      {calls : StartCalls} {setup : Setup} : Database.new n shardCount = some db →
      Server.start config disk calls db = some (.error setup) →
      Step (.down disk basis) (.down disk basis)
  | run {s s' : Saves} : s.Step s' → Step (.up s) (.up s')
  /-- `run` has joined the workers and stopped the sweeper and the scheduler. -/
  | returned {s : Saves} : (∀ t, s.stage t = .outside) →
      (∀ call ∈ s.watch.sys.calls, ∃ a, call = .returned a) →
      Step (.up s) (.closing { s with returned := [] })
  | tick {s : Saves} {t : Int} : s.watch.sys.clock ≤ t →
      Step (.closing s) (.closing { s with
        watch := { s.watch with sys := { s.watch.sys with clock := t } } })
  | save {s s' : Saves} {a : SnapshotStore.Action} : a.thread = 0 → s.perform a = some s' →
      Step (.closing s) (.closing s')
  /-- The program ends, in its own time or killed. -/
  | ended {site : Site} : Step site (.down site.disk site.basis)
  | crash {site : Site} {disk : Disk} : Crash site.disk disk → Step site (.down disk site.basis)

inductive Reachable (found : Option File) : Site → Prop where
  | start {disk : Disk} : Durable disk.target → disk.target = found →
      Reachable found (.down disk none)
  | step {site site' : Site} : Reachable found site → Step config site site' →
      Reachable found site'

end Site

variable {config : ServerConfig}

theorem watched_opened {disk : Disk} {basis : Option Basis} {n shardCount : UInt64}
    {db : Database} {calls : StartCalls} {setup : Setup} {clock : Int}
    (hnew : Database.new n shardCount = some db)
    (hstart : Server.start config disk calls db = some (.ok setup)) :
    (opened config disk basis setup clock).watch.Inv := by
  have hset := (fresh_of_new hnew).inv.step (.setMaxMemory config.maxMemoryBytes) fun _ => 0
  obtain ⟨hinv, hlimit⟩ := (start_cases hstart).2.inv hset
  refine ⟨⟨hinv.valid, fun k b hb => hb, fun hl => ?_, fun _ k => .inl rfl⟩,
    fun call hc => (by cases hc), fun _ call hc => (by cases hc)⟩
  have hzero : setup.database.maxMemoryBytes = 0 :=
    hlimit.trans (show config.maxMemoryBytes = 0 by simpa [opened] using hl)
  refine ⟨fun i shard hs => ?_, hzero⟩
  rw [hinv.sliced i shard hs, hzero]
  rfl

/-! ### The last save -/

/-- The listing has what the database holds of the keys it has covered, but for what has
lapsed. -/
structure ListsAll (db : Database) (clock : Int) (covered : Bytes → Prop) (es : List Entry) :
    Prop where
  held : ∀ e ∈ es, db.lookup e.key = some e
  all : ∀ e, covered e.key → db.lookup e.key = some e → e.isExpiredAt clock = false → e ∈ es

theorem ListsAll.start (db : Database) (clock : Int) (route : Bytes → Nat) :
    ListsAll db clock (route · < 0) [] :=
  ⟨fun e he => (by cases he), fun _ h => absurd h (Nat.not_lt_zero _)⟩

theorem ListsAll.tick {db : Database} {clock t : Int} {covered : Bytes → Prop} {es : List Entry}
    (h : ListsAll db clock covered es) (ht : clock ≤ t) : ListsAll db t covered es :=
  ⟨h.held, fun e hc hl hx => h.all e hc hl (Entry.isExpiredAt_anti ht hx)⟩

theorem ListsAll.visit {db : Database} {clock : Int} {next : Nat} {es : List Entry} {shard : Shard}
    (h : ListsAll db clock (db.shardIndexFor · < next) es) (hdb : db.AllValid)
    (hs : db.shards[next]? = some shard) :
    ListsAll db clock (db.shardIndexFor · < next + 1)
      (es ++ shard.table.entriesWhere fun entry => !entry.isExpiredAt clock) := by
  have hscan := fun e => System.mem_scan (s := ⟨db, [], clock⟩) hdb hs (e := e)
  refine ⟨fun e he => ?_, fun e hk hl hx => List.mem_append.2 ?_⟩
  · rcases List.mem_append.1 he with he | he
    · exact h.held e he
    · exact ((hscan e).1 he).2.1
  · rcases Nat.lt_succ_iff_lt_or_eq.1 hk with hk | hk
    · exact .inl (h.all e hk hl hx)
    · exact .inr ((hscan e).2 ⟨hk, hl, hx⟩)

/-- How far the last save has come. -/
def LastSave (db : Database) (clock : Int) : Stage → Prop
  | .outside | .waiting => True
  | .taking (.snapshot next es) _ => ListsAll db clock (db.shardIndexFor · < next) es
  | .taking (.returned (.entries es)) _ => ListsAll db clock (fun _ => True) es
  | .taking _ _ => False
  | .writing b => ListsAll db b.encodedAt (fun _ => True) b.entries

/-- Nobody but `main` is left. If a save of its succeeded, the file has all the database has. -/
structure Closing (s : Saves) : Prop where
  alone : ∀ t ≠ 0, s.stage t = .outside
  stage : LastSave s.watch.sys.db s.watch.sys.clock (s.stage 0)
  saved : ∀ r ∈ s.returned, r.2.ok = true → ∃ b, s.basis = some b ∧
    ListsAll s.watch.sys.db b.encodedAt (fun _ => True) b.entries

theorem LastSave.tick {db : Database} {clock t : Int} {stage : Stage}
    (h : LastSave db clock stage) (ht : clock ≤ t) : LastSave db t stage := by
  cases stage with
  | outside | waiting => trivial
  | writing b => exact h
  | taking call moments =>
    cases call with
    | snapshot next es => exact ListsAll.tick h ht
    | returned a =>
      cases a with
      | entries es => exact ListsAll.tick h ht
      | _ => exact h.elim
    | _ => exact h.elim

theorem advance_snapshot (db : Database) (clock : Int) (next : Nat) (es : List Entry) :
    ((Call.snapshot next es).advance db clock).1 = db := by
  simp only [Call.advance]
  split <;> rfl

theorem LastSave.visit {db : Database} {clock : Int} {next : Nat} {es : List Entry}
    {moments : List Moment} (h : LastSave db clock (.taking (.snapshot next es) moments))
    (hdb : db.AllValid) (moments' : List Moment) :
    LastSave db clock (.taking ((Call.snapshot next es).advance db clock).2 moments') := by
  have hlists : ListsAll db clock (db.shardIndexFor · < next) es := h
  cases hs : db.shards[next]? with
  | none =>
    rw [System.lists_snapshot.finish hs]
    exact ⟨hlists.held, fun e _ => hlists.all e
      (Nat.lt_of_lt_of_le (db.shardIndexFor_lt e.key) (List.getElem?_eq_none_iff.1 hs))⟩
  | some shard =>
    rw [System.lists_snapshot.visit hs]
    exact hlists.visit hdb hs

theorem Closing.resume {s : Saves} {b : Basis} (h : Closing s) (ht : s.stage 0 = .writing b)
    (store : SnapshotStore) : Closing (s.afterCall 0 b store) := by
  have hlast := h.stage
  rw [ht] at hlast
  unfold Saves.afterCall
  split
  next => exact ⟨h.alone, h.stage, h.saved⟩
  next =>
    refine ⟨fun t hne => ?_, ?_, fun r hr hok => ?_⟩
    · exact (Function.update_of_ne hne ..).trans (h.alone t hne)
    · show LastSave _ _ (Function.update s.stage 0 .outside 0)
      rw [Function.update_self]
      trivial
    · dsimp only at hr ⊢
      by_cases hdone : (store.outcomes.getLastD {}).ok = true
      · rw [if_pos hdone]
        exact ⟨b, rfl, hlast⟩
      · rw [if_neg hdone]
        rcases List.mem_append.1 hr with hr | hr
        · exact h.saved r hr hok
        · rw [List.mem_singleton.1 hr] at hok
          exact absurd hok hdone

theorem Closing.perform {s s' : Saves} {found : Option File} {a : SnapshotStore.Action}
    (h : Closing s) (hi : s.Inv found) (ha : a.thread = 0) (hs : s.perform a = some s') :
    Closing s' := by
  have hlast := h.stage
  have halone : ∀ stage t, t ≠ 0 → Function.update s.stage 0 stage t = .outside :=
    fun stage t hne => (Function.update_of_ne hne ..).trans (h.alone t hne)
  cases a with
  | call t =>
    obtain rfl : t = 0 := ha
    simp only [Saves.perform] at hs
    split at hs
    next =>
      cases hs
      refine ⟨halone _, ?_, h.saved⟩
      show LastSave _ _ (Function.update s.stage 0 .waiting 0)
      rw [Function.update_self]
      trivial
    next => cases hs
  | lock t =>
    obtain rfl : t = 0 := ha
    simp only [Saves.perform] at hs
    split at hs
    next =>
      cases hs
      refine ⟨halone _, ?_, h.saved⟩
      show LastSave _ _ (Function.update s.stage 0 _ 0)
      rw [Function.update_self]
      exact ListsAll.start ..
    next => cases hs
  | visit t =>
    obtain rfl : t = 0 := ha
    simp only [Saves.perform] at hs
    split at hs
    next next result moments ht =>
      cases hs
      rw [ht] at hlast
      have hdb : (s.watch.goOn (.snapshot next result)).sys.db = s.watch.sys.db :=
        advance_snapshot ..
      refine ⟨halone _, ?_, ?_⟩
      · show LastSave (s.watch.goOn (.snapshot next result)).sys.db s.watch.sys.clock
          (Function.update s.stage 0 _ 0)
        rw [Function.update_self, hdb]
        exact hlast.visit hi.watch.coherent.valid _
      · dsimp only
        rw [hdb]
        exact h.saved
    next => cases hs
  | encode t readings =>
    obtain rfl : t = 0 := ha
    simp only [Saves.perform] at hs
    split at hs
    next entries moments ht =>
      cases hs
      rw [ht] at hlast
      refine ⟨halone _, ?_, h.saved⟩
      show LastSave _ _ (Function.update s.stage 0 _ 0)
      rw [Function.update_self]
      exact hlast
    next => cases hs
  | resume t result =>
    obtain rfl : t = 0 := ha
    simp only [Saves.perform] at hs
    split at hs
    next b ht => cases hs; exact h.resume ht _
    next => cases hs

/-! ### Runs -/

namespace Site

/-- The snapshot file is durable, and what a save made of a listing or as it was found. -/
structure Kept (found : Option File) (disk : Disk) (basis : Option Basis) : Prop where
  durable : Durable disk.target
  file : disk.target = (basis.map Basis.file).or found
  sound : ∀ b, basis = some b → b.Sound

def Inv (found : Option File) : Site → Prop
  | .down disk basis => Kept found disk basis
  | .up s => s.Inv found
  | .closing s => s.Inv found ∧ Closing s

variable {found : Option File} {site site' : Site}

theorem Inv.kept (h : Inv found site) : Kept found site.disk site.basis := by
  cases site with
  | down disk basis => exact h
  | up s => exact ⟨h.durable, h.file, h.sound⟩
  | closing s => exact ⟨h.1.durable, h.1.file, h.1.sound⟩

theorem Kept.crash {disk disk' : Disk} {basis : Option Basis} (h : Kept found disk basis)
    (hc : Crash disk disk') : Kept found disk' basis := by
  have hsame := h.durable.survives hc.target
  exact ⟨hsame ▸ h.durable, hsame ▸ h.file, h.sound⟩

theorem Step.inv (hs : Step config site site') (h : Inv found site) : Inv found site' := by
  cases hs with
  | start clock hnew hstart _ =>
    exact ⟨watched_opened hnew hstart, fun t => by simp [opened, Stage.inside], fun t => trivial,
      h.durable, h.file, h.sound⟩
  | refused _ _ => exact h
  | run hstep => exact hstep.inv h
  | @returned s hout hcalls =>
    refine ⟨⟨h.watch, h.exclusive, h.agrees, h.durable, h.file, h.sound⟩, fun t _ => hout t, ?_,
      fun r hr => (by cases hr)⟩
    show LastSave _ _ (s.stage 0)
    rw [hout 0]
    trivial
  | tick ht =>
    exact ⟨h.1.background (.tick ht), h.2.alone, h.2.stage.tick ht, h.2.saved⟩
  | save ha hp => exact ⟨h.1.perform hp, h.2.perform h.1 ha hp⟩
  | ended => exact h.kept
  | crash hc => exact h.kept.crash hc

theorem Reachable.inv (h : Reachable config found site) : Inv found site := by
  induction h with
  | start hd hf => exact ⟨hd, hf, fun b hb => by cases hb⟩
  | step _ hs ih => exact hs.inv ih

/-! ### Restarts -/

/-- What the format can hold: short enough fields, and moments of expiry in range. -/
structure Loadable (b : Basis) : Prop where
  count : b.entries.length < 2 ^ 64
  fields : ∀ e ∈ b.entries, e.key.length ≤ Snapshot.kMaxFieldLength ∧
    e.value.length ≤ Snapshot.kMaxFieldLength
  dates : ∀ i e, (unexpired b.entries b.encodedAt)[i]? = some e → Datable (b.readings i) e

/-- The file of this length is read without a failure, and the clocks go forward. -/
structure Readable (length : Nat) (calls : StartCalls) : Prop where
  allowed : calls.refused = none
  reads : Suffice length calls.reads
  clocks : ∀ i, calls.clocks.decodedAt ≤ (calls.clocks.readings i).steady

/-- The database has the entries that were encoded, their expiry carried over to the new
clocks, but for those that have lapsed; and it has nothing else. -/
structure Brings (b : Basis) (clocks : LoadClocks) (db : Database) : Prop where
  back : ∀ i e, (unexpired b.entries b.encodedAt)[i]? = some e →
    db.lookup e.key = (Snapshot.reloaded (b.readings i) (clocks.readings i) e).filter
      fun e' => !e'.isExpiredAt clocks.restoredAt
  nothingElse : ∀ k, (∀ e ∈ unexpired b.entries b.encodedAt, e.key ≠ k) → db.lookup k = none

/-- The part of `start` that restores the snapshot, for a new database. -/
def restart (config : ServerConfig) (disk : Disk) (calls : StartCalls) (db : Database) :
    Option (Except Setup Setup) :=
  Setup.restoreSnapshot config disk calls { database := db.setMaxMemory config.maxMemoryBytes }

/-- A file that a save wrote is loaded. -/
theorem Kept.load {disk : Disk} {b : Basis} {calls : StartCalls} (h : Kept found disk (some b))
    (hb : Loadable b) (hcalls : Readable b.encoded.length calls) (path : Bytes) (db : Database) :
    SnapshotStore.load { path, disk } db calls.refused calls.reads calls.clocks =
      some ((db.restore (Snapshot.reloadFrom b.readings calls.clocks.readings 0
          (unexpired b.entries b.encodedAt)) calls.clocks.restoredAt).1,
        { status := .loaded
          entriesLoaded := (db.restore (Snapshot.reloadFrom b.readings calls.clocks.readings 0
            (unexpired b.entries b.encodedAt)) calls.clocks.restoredAt).2 }) := by
  have hfile : disk.target = some ⟨b.encoded, true⟩ := h.file
  have hdecode : Snapshot.decode b.encoded calls.clocks.decodedAt calls.clocks.readings = _ :=
    Snapshot.decode_encode hb.count hb.fields hb.dates hcalls.clocks
  simp only [SnapshotStore.load, hcalls.allowed, hfile, hcalls.reads.readWholeFile, hdecode]

theorem Kept.brings_back {disk : Disk} {b : Basis} {calls : StartCalls} {n shardCount : UInt64}
    {db : Database} (h : Kept found disk (some b)) (hpath : config.snapshotPath ≠ [])
    (hon : config.restoreOnStart = true) (hb : Loadable b)
    (hcalls : Readable b.encoded.length calls) (hnew : Database.new n shardCount = some db) :
    ∃ s, restart config disk calls db = some (.ok s) ∧ Brings b calls.clocks s.database := by
  have hdb : (db.setMaxMemory config.maxMemoryBytes).Inv :=
    (fresh_of_new hnew).inv.step (.setMaxMemory config.maxMemoryBytes) fun _ => 0
  have hdistinct : Keyed.Distinct (·.key) (unexpired b.entries b.encodedAt) :=
    (h.sound b rfl).distinct.sublist List.filter_sublist
  obtain ⟨hback, hnone⟩ := Snapshot.lookup_restore_reloadFrom hdb hdistinct b.readings
    calls.clocks.readings calls.clocks.restoredAt
  have hrestart : restart config disk calls db = some (.ok
      { database := ((db.setMaxMemory config.maxMemoryBytes).restore (Snapshot.reloadFrom b.readings
          calls.clocks.readings 0 (unexpired b.entries b.encodedAt)) calls.clocks.restoredAt).1
        persistent := true
        restoredEntryCount := ((db.setMaxMemory config.maxMemoryBytes).restore (Snapshot.reloadFrom
          b.readings calls.clocks.readings 0 (unexpired b.entries b.encodedAt))
            calls.clocks.restoredAt).2 }) := by
    simp only [restart, Setup.restoreSnapshot, if_neg hpath, hon, Bool.true_eq_false, if_false,
      h.load hb hcalls, Option.map_some, reduceCtorEq]
  exact ⟨_, hrestart, hback, hnone⟩

/-- **A crash loses no more than the time since the last save.** When the program has gone down
after a save that succeeded, at whatever moment and however it went, the file is the whole
encoding of what that save listed; a start that can read it does not fail on it, and brings
all of it back. -/
theorem restart_recovers {disk : Disk} {b : Basis} {calls : StartCalls} {n shardCount : UInt64}
    {db : Database} (h : Reachable config found (.down disk (some b)))
    (hpath : config.snapshotPath ≠ []) (hon : config.restoreOnStart = true) (hb : Loadable b)
    (hcalls : Readable b.encoded.length calls) (hnew : Database.new n shardCount = some db) :
    disk.target = some b.file ∧ b.Sound ∧
      ∃ s, restart config disk calls db = some (.ok s) ∧ Brings b calls.clocks s.database := by
  have hkept : Kept found disk (some b) := h.inv
  exact ⟨hkept.file, hkept.sound b rfl, hkept.brings_back hpath hon hb hcalls hnew⟩

theorem key_of_lookup {db : Database} (h : db.AllValid) {k : Bytes} {e : Entry}
    (hl : db.lookup k = some e) : e.key = k := by
  have hholds := (h _ _ (db.shards_shardFor k)).holds
  rw [Database.lookup, hholds.find_eq] at hl
  exact Keyed.key_of_lookup hl

/-- A server with a snapshot file. -/
def persistentConfig : ServerConfig := { snapshotPath := bytes "dump.vcache" }

/-- Every system call succeeds; the clocks stand still. -/
def smooth (reads : List ReadResult) : StartCalls where
  refused := none
  reads := reads
  clocks := ⟨0, fun _ => ⟨0, 0⟩, 0⟩
  socket := .ok 3
  setsockopt := .ok ()
  addressValid := true
  bind := .ok ()
  listen := .ok ()
  getsockname := .ok 6379
  pipe := .ok (4, 5)

theorem loadable_single {b : Basis} {key value : Bytes} (h : b.entries = [⟨key, value, none⟩])
    (hk : key.length ≤ 9) (hv : value.length ≤ 9) : Loadable b := by
  have hmem : ∀ e ∈ b.entries, e = ⟨key, value, none⟩ := by simp [h]
  refine ⟨by rw [h]; show 1 < 2 ^ 64; decide, fun e he => ?_, fun i e he x hx => ?_⟩
  · rw [hmem e he]
    exact ⟨Nat.le_trans hk (by decide), Nat.le_trans hv (by decide)⟩
  · rw [hmem e (List.mem_of_mem_filter (List.mem_of_getElem? he))] at hx
    cases hx

theorem readable_smooth {length : Nat} (h : length < 99) :
    Readable length (smooth (List.replicate 99 (.got 7))) :=
  ⟨rfl, ⟨fun why hw => (by cases List.eq_of_mem_replicate hw), h⟩, fun _ => Int.le_refl 0⟩

/-- A key is set and saved, and the program is killed. -/
theorem restart_recovers_one : ∃ disk b db, Reachable persistentConfig none (.down disk (some b)) ∧
    b.entries = [⟨[107], [118], none⟩] ∧ Database.new 1 4 = some db ∧
    ∃ s, restart persistentConfig disk (smooth (List.replicate 99 (.got 7))) db = some (.ok s) ∧
      s.database.lookup [107] = some ⟨[107], [118], none⟩ := by
  have hup := Reachable.step
    (@Reachable.start persistentConfig none ⟨none, none⟩ (fun _ h => by cases h) rfl)
    (@Step.start persistentConfig _ none 1 1 _ (smooth []) _ 0 rfl rfl rfl)
  have hset := (hup.step (.run (.background (.call (.set [107] [118]))))).step
    (.run (.background (.advance (c := 0) rfl)))
  have htaken := ((((hset.step (.run (.perform (.call 0) rfl))).step
    (.run (.perform (.lock 0) rfl))).step (.run (.perform (.visit 0) rfl))).step
    (.run (.perform (.visit 0) rfl))).step (.run (.perform (.encode 0 fun _ => ⟨0, 0⟩) rfl))
  have hsaved := (((htaken.step (.run (.perform (.resume 0 .ok) rfl))).step
    (.run (.perform (.resume 0 (.wrote 99)) rfl))).step (.run (.perform (.resume 0 .ok) rfl))).step
    (.run (.perform (.resume 0 .ok) rfl))
  have hkilled : ∀ site, Reachable persistentConfig none site →
      site.basis.map (fun b => (b.entries, b.encodedAt, b.encoded.length)) =
        some ([⟨[107], [118], none⟩], 0, 42) →
      ∃ disk b, Reachable persistentConfig none (.down disk (some b)) ∧
        b.entries = [⟨[107], [118], none⟩] ∧ b.encodedAt = 0 ∧ b.encoded.length = 42 := by
    intro site h hb
    obtain ⟨b, hb, he⟩ := Option.map_eq_some_iff.1 hb
    simp only [Prod.mk.injEq] at he
    exact ⟨site.disk, b, hb ▸ h.step .ended, he⟩
  obtain ⟨disk, b, hdown, hentries, hclock, hlength⟩ := hkilled _ hsaved (by decide +kernel)
  obtain ⟨-, -, s, hs, hback, -⟩ := restart_recovers hdown (by decide) rfl
    (loadable_single hentries (by decide) (by decide)) (readable_smooth (by omega))
    (rfl : Database.new 1 4 = some _)
  refine ⟨disk, b, _, hdown, hentries, rfl, s, hs, ?_⟩
  refine (hback 0 ⟨[107], [118], none⟩ ?_).trans rfl
  rw [hentries, hclock]
  rfl

theorem mem_unexpired {db : Database} {b : Basis}
    (h : ListsAll db b.encodedAt (fun _ => True) b.entries) (hdb : db.AllValid) {k : Bytes}
    {e : Entry} :
    db.live b.encodedAt k = some e ↔ e ∈ unexpired b.entries b.encodedAt ∧ e.key = k := by
  unfold Database.live unexpired
  rw [Option.filter_eq_some_iff, List.mem_filter]
  constructor
  · rintro ⟨hl, hx⟩
    obtain rfl := key_of_lookup hdb hl
    exact ⟨⟨h.all e trivial hl (by simpa using hx), hx⟩, rfl⟩
  · rintro ⟨⟨he, hx⟩, rfl⟩
    exact ⟨h.held e he, hx⟩

/-- **A deliberate restart loses nothing.** When `run` has returned and the save of `main` has
succeeded, the next start brings back every entry the database showed when it was saved. -/
theorem clean_restart {s : Saves} {outcome : SaveOutcome} {t : Nat} {n shardCount : UInt64}
    {db : Database} (h : Reachable config found (.closing s))
    (hpath : config.snapshotPath ≠ []) (hon : config.restoreOnStart = true)
    (hr : (t, outcome) ∈ s.returned) (hok : outcome.ok = true)
    (hnew : Database.new n shardCount = some db) :
    ∃ b, s.basis = some b ∧ ∀ calls, Loadable b → Readable b.encoded.length calls →
      ∃ s', restart config s.store.disk calls db = some (.ok s') ∧
        (∀ k e, s.watch.sys.db.live b.encodedAt k = some e → ∃ i, s'.database.lookup k =
          (Snapshot.reloaded (b.readings i) (calls.clocks.readings i) e).filter
            fun e' => !e'.isExpiredAt calls.clocks.restoredAt) ∧
        ∀ k, s.watch.sys.db.live b.encodedAt k = none → s'.database.lookup k = none := by
  obtain ⟨hi, hclosing⟩ := h.inv
  obtain ⟨b, hb, hall⟩ := hclosing.saved _ hr hok
  have hmem := fun k e => mem_unexpired hall hi.watch.coherent.valid (k := k) (e := e)
  refine ⟨b, hb, fun calls hload hcalls => ?_⟩
  have hkept : Kept found s.store.disk (some b) :=
    ⟨hi.durable, hb ▸ hi.file, fun b' hb' => hi.sound b' (hb.trans hb')⟩
  obtain ⟨s', hs', hback, hnone⟩ := hkept.brings_back hpath hon hload hcalls hnew
  refine ⟨s', hs', fun k e he => ?_, fun k hk => hnone k fun e he hkey => ?_⟩
  · obtain ⟨hin, rfl⟩ := (hmem k e).1 he
    obtain ⟨i, hi⟩ := List.mem_iff_getElem?.1 hin
    exact ⟨i, hback i e hi⟩
  · rw [(hmem k e).2 ⟨he, hkey⟩] at hk
    cases hk

/-- A key is set, the server is stopped and saves; then it is started again. -/
theorem clean_restart_one : ∃ s db, Reachable persistentConfig none (.closing s) ∧
    s.returned.map (·.2.ok) = [true] ∧ Database.new 1 4 = some db ∧
    ∃ s', restart persistentConfig s.store.disk (smooth (List.replicate 99 (.got 7))) db =
      some (.ok s') ∧ s'.database.lookup [107] = some ⟨[107], [118], none⟩ := by
  have hup := Reachable.step
    (@Reachable.start persistentConfig none ⟨none, none⟩ (fun _ h => by cases h) rfl)
    (@Step.start persistentConfig _ none 1 1 _ (smooth []) _ 0 rfl rfl rfl)
  have hset := (hup.step (.run (.background (.call (.set [107] [118]))))).step
    (.run (.background (.advance (c := 0) rfl)))
  have hclosing := hset.step (.returned (fun _ => rfl)
    fun call hc => ⟨_, List.mem_singleton.1 hc⟩)
  have htaken := ((((hclosing.step (.save (a := .call 0) rfl rfl)).step
    (.save (a := .lock 0) rfl rfl)).step (.save (a := .visit 0) rfl rfl)).step
    (.save (a := .visit 0) rfl rfl)).step (.save (a := .encode 0 fun _ => ⟨0, 0⟩) rfl rfl)
  have hsaved := (((htaken.step (.save (a := .resume 0 .ok) rfl rfl)).step
    (.save (a := .resume 0 (.wrote 99)) rfl rfl)).step (.save (a := .resume 0 .ok) rfl rfl)).step
    (.save (a := .resume 0 .ok) rfl rfl)
  have hfacts : ∃ s, Reachable persistentConfig none (.closing s) ∧
      s.basis.map (fun b => (b.entries, b.encodedAt, b.encoded.length)) =
        some ([⟨[107], [118], none⟩], 0, 42) ∧
      s.returned.map (·.2.ok) = [true] ∧
      s.watch.sys.db.live 0 [107] = some ⟨[107], [118], none⟩ :=
    ⟨_, hsaved, by decide +kernel, by decide +kernel, by decide +kernel⟩
  obtain ⟨s, h, hb, hr, hlive⟩ := hfacts
  obtain ⟨r, hmem, hok⟩ := List.mem_map.1 (hr ▸ List.mem_singleton.2 rfl : true ∈ _)
  obtain ⟨b, hbasis, hback⟩ := clean_restart h (by decide) rfl hmem hok
    (rfl : Database.new 1 4 = some _)
  rw [hbasis, Option.map_some] at hb
  simp only [Option.some.injEq, Prod.mk.injEq] at hb
  obtain ⟨s', hs', hkeys, -⟩ := hback _ (loadable_single hb.1 (by decide) (by decide))
    (readable_smooth (by omega))
  obtain ⟨i, hi⟩ := hkeys [107] _ (by rw [hb.2.1]; exact hlive)
  exact ⟨s, _, h, hr, rfl, s', hs', hi⟩

/-- **A damaged snapshot is never overwritten.** As long as the file cannot be decoded, no start
succeeds, however often it is tried and whatever happens in between; the file stays. -/
theorem damaged_is_kept {disk : Disk} {basis : Option Basis} {file : File}
    (hpath : config.snapshotPath ≠ []) (hon : config.restoreOnStart = true)
    (hfile : disk.target = some file) (hsynced : file.synced = true)
    (hbad : ∀ now readings, ∃ error, Snapshot.decode file.data now readings = .error error)
    {site : Site} (h : Relation.ReflTransGen (Step config) (.down disk basis) site) :
    ∃ disk', site = .down disk' basis ∧ disk'.target = some file := by
  induction h with
  | refl => exact ⟨disk, rfl, hfile⟩
  | tail _ hs ih =>
    obtain ⟨disk', rfl, hfile'⟩ := ih
    cases hs with
    | start clock hnew hstart _ =>
      obtain ⟨now, readings, entries, hok⟩ := (start_cases hstart).2.decodes hpath hon hfile'
      obtain ⟨error, herror⟩ := hbad now readings
      cases herror.symm.trans hok
    | refused _ _ => exact ⟨disk', rfl, hfile'⟩
    | ended => exact ⟨disk', rfl, hfile'⟩
    | @crash _ disk'' hc =>
      have hdurable : Durable disk'.target := fun f hf => by
        rw [hfile'] at hf
        cases hf
        exact hsynced
      exact ⟨disk'', rfl, (hdurable.survives hc.target).trans hfile'⟩

/-- An empty file is no snapshot: a server that finds one does not start. -/
theorem damaged_is_kept_empty : ∃ site, Relation.ReflTransGen (Step persistentConfig)
    (.down ⟨some ⟨[], true⟩, none⟩ none) site ∧
    ∃ disk, site = .down disk none ∧ disk.target = some ⟨[], true⟩ := by
  have hrun : Relation.ReflTransGen (Step persistentConfig)
      (.down ⟨some ⟨[], true⟩, none⟩ none) _ :=
    .single (@Step.refused persistentConfig _ none 1 1 _ (smooth [.got 0]) _ rfl rfl)
  exact ⟨_, hrun, damaged_is_kept (by decide) rfl rfl rfl (fun _ _ => ⟨_, rfl⟩) hrun⟩

end Site

end VCache.Lifetime
