import VCache.Database.Concurrent
import VCache.Lib.Atomic

/-!
# A shard and its locks

`shard.mutex` is a shared mutex: a `ReadLock` lets other readers in, a `WriteLock` nobody. A
`get` that finds its key still has to move it to the front of the recency list. It does so
among the other readers, under the table's own `lruMutex_`, and while it does the list is in
pieces.

A step is one acquisition, one look at the table, one half of a move, or one release; the
steps of all threads interleave freely. Readers see the buckets only, so a look at them is one
step however long it takes. A writer is alone, and so is its use of `lruMutex_`.
-/

namespace VCache

open Function VCache.Lib

namespace Database

/-! ### What is done under the lock -/

/-- The sections under a `ReadLock`. -/
inductive Reading where
  | get (key : Bytes)
  | existsKey (key : Bytes)
  | ttl (key : Bytes)
  | keys
  | snapshot
  | size
  | empty
  | bucketCount
  | memoryUsage
  | evictedCount
deriving DecidableEq

/-- The sections under a `WriteLock`; `restore` is the one for a single entry. -/
inductive Writing where
  | set (key value : Bytes)
  | setFor (key value : Bytes) (ttl : Int)
  | del (key : Bytes)
  | removeExpired (perShard : Nat)
  | clear
  | setMaxMemory (perShard : Nat)
  | restore (entry : Entry)
deriving DecidableEq

inductive Section where
  | reading (r : Reading)
  | writing (w : Writing)
deriving DecidableEq

/-- What a section reads besides the shard: `maxMemoryBytes_` and the clock. -/
structure Readings where
  limit : Nat
  now : Int

/-- A `get` that has copied the value of its key and has the key to touch. -/
structure Hit where
  key : Bytes
  value : Bytes
  now : Int
deriving DecidableEq

namespace Reading

/-- The use of a key that a section has to record. -/
def hit (r : Reading) (now : Int) (shard : Shard) : Option Hit :=
  match r with
  | .get key =>
    match shard.table.find key with
    | none => none
    | some entry =>
      if entry.isExpiredAt now then none
      else if shard.maxMemoryBytes ≠ 0 then some ⟨key, entry.value, now⟩
      else none
  | _ => none

def answer (r : Reading) (now : Int) (shard : Shard) : Answer :=
  match r with
  | .get key =>
    match shard.table.find key with
    | none => .value none
    | some entry => .value (if entry.isExpiredAt now then none else some entry.value)
  | .existsKey key =>
    match shard.table.find key with
    | none => .flag false
    | some entry => .flag (!entry.isExpiredAt now)
  | .ttl key =>
    match shard.table.find key with
    | none => .seconds none
    | some entry =>
      match entry.expiration with
      | none => .seconds none
      | some expiration =>
        let remaining := expiration - now
        .seconds (if remaining ≤ 0 then none else some (ceilSeconds remaining))
  | .keys => .keys (shard.table.keysWhere fun entry => !entry.isExpiredAt now)
  | .snapshot => .entries (shard.table.entriesWhere fun entry => !entry.isExpiredAt now)
  | .size => .count shard.table.size
  | .empty => .flag (shard.table.size == 0)
  | .bucketCount => .count shard.table.bucketCount
  | .memoryUsage => .count shard.table.memoryUsage
  | .evictedCount => .count shard.evicted

def apply (r : Reading) (now : Int) (shard : Shard) : Shard × Answer :=
  match r.hit now shard with
  | some hit => ({ shard with table := (shard.table.touch hit.key).1 }, .value (some hit.value))
  | none => (shard, r.answer now shard)

end Reading

namespace Writing

def setWith (limit : Nat) (shard : Shard) (key value : Bytes) (expiration : Option Int) :
    Shard × Answer :=
  if limit ≠ 0 ∧ limit < HashTable.footprintEstimate key value then (shard, .outcome .rejected)
  else
    let r := shard.write key value expiration
    (r.1.evictToFit, .outcome (if r.2 then .inserted else .updated))

def apply (w : Writing) (r : Readings) (shard : Shard) : Shard × Answer :=
  match w with
  | .set key value => setWith r.limit shard key value none
  | .setFor key value life => setWith r.limit shard key value (some (expiryAfter r.now life))
  | .del key =>
    match shard.table.find key with
    | none => (shard, .flag false)
    | some entry =>
      ({ shard with table := (shard.table.remove key).1 }, .flag (!entry.isExpiredAt r.now))
  | .removeExpired perShard => (shard.sweep perShard r.now).map id .count
  | .clear => (shard.clear, .done)
  | .setMaxMemory perShard => (shard.limitTo perShard, .done)
  | .restore entry => ((shard.write entry.key entry.value entry.expiration).1, .done)

end Writing

def Section.apply (sec : Section) (r : Readings) (shard : Shard) : Shard × Answer :=
  match sec with
  | .reading x => x.apply r.now shard
  | .writing x => x.apply r shard

/-! ### Threads at the locks -/

/-- Where a thread is in its section. -/
inductive Phase where
  | outside
  | waiting (sec : Section)
  | reading (r : Reading)
  | touching (hit : Hit)
  /-- In `touch`, with the node, before `lruMutex_`. -/
  | found (hit : Hit) (node : Ptr)
  | promoting (hit : Hit) (node : Ptr)
  /-- Between `lruUnlink` and `lruPushFront`. -/
  | unlinked (hit : Hit) (node : Ptr)
  | writing (w : Writing)
  /-- `fitsWithinLimit` has loaded the limit. -/
  | loaded (w : Writing) (limit : Nat)
  | leaving (sec : Section) (answer : Answer)
deriving DecidableEq

/-- A shard, its locks and the threads at them. `seenAt` is the clock at each point of the
history. -/
structure Locked where
  shard : Shard
  clock : Int
  limit : Nat
  phase : Nat → Phase := fun _ => .outside
  readers : List Nat := []
  writer : Option Nat := none
  lruHolder : Option Nat := none
  history : List (Atomic.Seen Section Answer) := []
  seenAt : List Int := []

namespace Locked

def moveTo (s : Locked) (t : Nat) (p : Phase) : Locked := { s with phase := update s.phase t p }

def see (s : Locked) (x : Atomic.Seen Section Answer) : Locked :=
  { s with history := s.history ++ [x], seenAt := s.seenAt ++ [s.clock] }

/-- Let go of the lock of a section. -/
def unlock (s : Locked) (t : Nat) : Section → Locked
  | .reading _ => { s with readers := s.readers.erase t }
  | .writing _ => { s with writer := none }

def leave (s : Locked) (t : Nat) (hit : Hit) : Locked :=
  s.moveTo t (.leaving (.reading (.get hit.key)) (.value (some hit.value)))

/-- What a thread does next; `none` while it has to wait for a lock. -/
def advance (s : Locked) (t : Nat) : Option Locked :=
  match s.phase t with
  | .outside => none
  | .waiting (.reading r) =>
    if s.writer.isSome then none
    else some { s.moveTo t (.reading r) with readers := t :: s.readers }
  | .waiting (.writing w) =>
    if s.writer.isSome || !s.readers.isEmpty then none
    else some { s.moveTo t (.writing w) with writer := some t }
  | .reading r =>
    match r.hit s.clock s.shard with
    | some hit => some (s.moveTo t (.touching hit))
    | none => some (s.moveTo t (.leaving (.reading r) (r.answer s.clock s.shard)))
  | .touching hit =>
    match s.shard.table.findNode hit.key with
    | none => some (s.leave t hit)
    | some node => some (s.moveTo t (.found hit node))
  | .found hit node =>
    if s.lruHolder.isSome then none
    else some { s.moveTo t (.promoting hit node) with lruHolder := some t }
  | .promoting hit node =>
    if s.shard.table.lruHead = some node then some { s.leave t hit with lruHolder := none }
    else some { s.moveTo t (.unlinked hit node) with
                shard := { s.shard with table := s.shard.table.lruUnlink node } }
  | .unlinked hit node =>
    some { s.leave t hit with
           lruHolder := none
           shard := { s.shard with table := s.shard.table.lruPushFront node } }
  | .writing w => some (s.moveTo t (.loaded w s.limit))
  | .loaded w limit =>
    let r := w.apply ⟨limit, s.clock⟩ s.shard
    some { s.moveTo t (.leaving (.writing w) r.2) with shard := r.1 }
  | .leaving sec answer => some (((s.moveTo t .outside).unlock t sec).see (.returned t answer))

inductive Action where
  | tick (now : Int)
  | store (bytes : Nat)
  | call (t : Nat) (sec : Section)
  | advance (t : Nat)

def perform (s : Locked) : Action → Option Locked
  | .tick now => if s.clock ≤ now then some { s with clock := now } else none
  | .store bytes => some { s with limit := bytes }
  | .call t sec =>
    if s.phase t = .outside then some ((s.moveTo t (.waiting sec)).see (.called t sec)) else none
  | .advance t => s.advance t

/-- A shard nobody has been at yet, and whatever comes of it. -/
inductive Reachable (start : Shard) : Locked → Prop where
  | start (clock : Int) (limit : Nat) : Reachable start { shard := start, clock, limit }
  | step {s s' : Locked} (a : Action) : Reachable start s → s.perform a = some s' →
      Reachable start s'

theorem Reachable.performs {start : Shard} {s s' : Locked} (h : Reachable start s) :
    ∀ {as : List Action}, as.foldlM perform s = some s' → Reachable start s'
  | [], has => Option.some.inj has ▸ h
  | a :: as, has => by
    rw [List.foldlM_cons, Option.bind_eq_bind, Option.bind_eq_some_iff] at has
    obtain ⟨m, hm, has⟩ := has
    exact (h.step a hm).performs has

end Locked

/-! ### Calls go from section to section -/

/-- The section of an operation on one key. -/
def Op.section : Op → Option (Bytes × Section)
  | .get key => some (key, .reading (.get key))
  | .existsKey key => some (key, .reading (.existsKey key))
  | .ttl key => some (key, .reading (.ttl key))
  | .set key value => some (key, .writing (.set key value))
  | .setFor key value life => some (key, .writing (.setFor key value life))
  | .del key => some (key, .writing (.del key))
  | _ => none

/-- The shard and the section a call comes to next; `none` when it has no more. -/
def Call.next (db : Database) : Call → Option (Nat × Section)
  | .atKey op => op.section.map fun x => (db.shardIndexFor x.1, x.2)
  | .keys next _ => if next < db.shards.length then some (next, .reading .keys) else none
  | .snapshot next _ => if next < db.shards.length then some (next, .reading .snapshot) else none
  | .removeExpired perShard next _ =>
    if next < db.shards.length then some (next, .writing (.removeExpired perShard)) else none
  | .clear next => if next < db.shards.length then some (next, .writing .clear) else none
  | .setMaxMemory bytes next =>
    if next < db.shards.length then
      some (next, .writing (.setMaxMemory (sliceOf bytes db.shards.length)))
    else none
  | .restoreClear _ next => if next < db.shards.length then some (next, .writing .clear) else none
  | .restorePut time (entry :: _) _ =>
    if entry.isExpiredAt time then none
    else some (db.shardIndexFor entry.key, .writing (.restore entry))
  | .restorePut _ [] _ | .returned _ => none

end Database

end VCache
