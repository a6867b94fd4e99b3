import VCache.Lib.Checked
import VCache.Table.Spec

/-!
# The database

`Database.h`, `Database.cpp`. The keyspace is split over shards, each a hash table
with a sweep cursor, an eviction counter and a slice of the memory limit.

The clock is an argument. An operation that visits the shards one by one reads it once
for each shard: `now i` is the reading taken in shard `i`.
-/

namespace VCache

inductive SetOutcome where
  | inserted
  | updated
  | rejected
deriving DecidableEq, Repr

structure Shard where
  table : HashTable
  sweepCursor : Nat := 0
  evicted : Nat := 0
  /-- This shard's slice; `0` is unlimited. -/
  maxMemoryBytes : Nat := 0

namespace Shard

/-- The loop of `evictToFit`. Every round but the last takes an entry out, so `size`
rounds are enough. -/
def evictLoop : Nat → Shard → Shard
  | 0, shard => shard
  | fuel + 1, shard =>
    if shard.table.memoryUsage > shard.maxMemoryBytes ∧ shard.table.size > 1 then
      match shard.table.evictOldest with
      | (_, none) => shard
      | (table, some _) => evictLoop fuel { shard with table, evicted := shard.evicted + 1 }
    else shard

def evictToFit (shard : Shard) : Shard :=
  if shard.maxMemoryBytes = 0 then shard else evictLoop shard.table.size shard

/-- `put`, and the expiration on top of it when there is one. -/
def write (shard : Shard) (key value : Bytes) (expiration : Option Int) : Shard × Bool :=
  let r := shard.table.put key value
  match expiration with
  | none => ({ shard with table := r.1 }, r.2)
  | some _ => ({ shard with table := r.1.setExpiration key expiration }, r.2)

def clear (shard : Shard) : Shard := { shard with table := shard.table.clear, sweepCursor := 0 }

/-- What `removeExpired` does to one shard. -/
def sweep (shard : Shard) (perShard : Nat) (now : Int) : Shard × Nat :=
  let buckets := shard.table.bucketCount
  if buckets = 0 then (shard, 0)
  else
    let cursor := if shard.sweepCursor ≥ buckets then 0 else shard.sweepCursor
    let scanned := min perShard buckets
    let r := shard.table.removeIf cursor scanned fun entry => entry.isExpiredAt now
    ({ shard with table := r.1, sweepCursor := (cursor + scanned) % buckets }, r.2)

/-- What `setMaxMemory` does to one shard. -/
def limitTo (shard : Shard) (slice : Nat) : Shard :=
  evictToFit { shard with maxMemoryBytes := slice }

end Shard

/-- The mask selects a shard that exists. -/
structure Database where
  shards : List Shard
  shardMask : Nat := 0
  shardShift : Nat := 0
  maxMemoryBytes : Nat := 0
  mask_lt : shardMask < shards.length

namespace Database

/-! ### Construction -/

/-- `while (result < n) result *= 2`, cut off after `fuel` tests. -/
def doubleUntil (n : UInt64) : Nat → UInt64 → Option UInt64
  | 0, _ => none
  | fuel + 1, result => if result < n then doubleUntil n fuel (result * 2) else some result

/-- The rounding of `Database.cpp`; `none` when its loop does not end. After 64
doublings the result is `0` for good. -/
def roundUpToPowerOfTwo (n : UInt64) : Option UInt64 := doubleUntil n 65 1

/-- `while ((1 << bits) < n) ++bits`, cut off after `fuel` tests. -/
def countBits (n : Nat) : Nat → Nat → Nat
  | 0, bits => bits
  | fuel + 1, bits => if 2 ^ bits < n then countBits n fuel (bits + 1) else bits

/-- For `n ≤ 2^63`, where no shift reaches the width of the word. -/
def log2OfPowerOfTwo (n : UInt64) : Nat := countBits n.toNat 64 0

/-- The constructor, once the number of shards is settled. -/
def ofShards (initialBucketCount shards : UInt64) (h : 0 < shards.toNat) : Database where
  shards := List.replicate shards.toNat
    { table := HashTable.new (max (initialBucketCount / shards) 1) }
  shardMask := if 1 < shards then shards.toNat - 1 else 0
  shardShift := if 1 < shards then 64 - log2OfPowerOfTwo shards else 0
  mask_lt := by rw [List.length_replicate]; split <;> omega

/-- `Database(initialBucketCount, shardCount)`; `none` when the call does not return. -/
def new (initialBucketCount shardCount : UInt64) : Option Database :=
  match roundUpToPowerOfTwo (max shardCount 1) with
  | none => none
  | some shards =>
    if h : 0 < shards.toNat then some (ofShards initialBucketCount shards h) else none

/-- The smallest database: one shard, one bucket. -/
def single : Database := ofShards 1 1 (by decide)

/-! ### Routing -/

def shardIndexFor (db : Database) (key : Bytes) : Nat :=
  if db.shardMask = 0 then 0
  else ((HashTable.hashKey key).toNat >>> db.shardShift) &&& db.shardMask

theorem shardIndexFor_lt (db : Database) (key : Bytes) :
    db.shardIndexFor key < db.shards.length := by
  have h := db.mask_lt
  unfold shardIndexFor
  split
  · omega
  · exact Nat.lt_of_le_of_lt Nat.and_le_right h

def shardFor (db : Database) (key : Bytes) : Shard :=
  db.shards.get ⟨db.shardIndexFor key, db.shardIndexFor_lt key⟩

def setShard (db : Database) (i : Nat) (shard : Shard) : Database :=
  { db with shards := db.shards.set i shard, mask_lt := by simpa using db.mask_lt }

/-- The database after a visit to each shard in turn. -/
def mapShards (db : Database) (f : Nat → Shard → Shard) : Database :=
  { db with shards := db.shards.mapIdx f, mask_lt := by simpa using db.mask_lt }

/-! ### Operations -/

def fitsWithinLimit (db : Database) (key value : Bytes) : Bool :=
  if db.maxMemoryBytes = 0 then true
  else decide (HashTable.footprintEstimate key value ≤ db.maxMemoryBytes)

def setWith (db : Database) (key value : Bytes) (expiration : Option Int) :
    Database × SetOutcome :=
  if !db.fitsWithinLimit key value then (db, .rejected)
  else
    let r := (db.shardFor key).write key value expiration
    (db.setShard (db.shardIndexFor key) r.1.evictToFit, if r.2 then .inserted else .updated)

def set (db : Database) (key value : Bytes) : Database × SetOutcome := db.setWith key value none

def second : Int := 1000000000

/-- `Clock::now() + ttl`, in nanoseconds of 64 bits. The language leaves a sum that does not fit
undefined, the machine wraps it around. -/
def expiryAfter (now ttl : Int) : Int := Lib.wrap64 (now + Lib.wrap64 (ttl * second))

/-- Neither the lifetime in nanoseconds nor the moment of expiry overflows. -/
def LifetimeFits (now ttl : Int) : Prop :=
  Lib.IsInt64 (ttl * second) ∧ Lib.IsInt64 (now + ttl * second)

instance (now ttl : Int) : Decidable (LifetimeFits now ttl) := inferInstanceAs (Decidable (_ ∧ _))

theorem LifetimeFits.expiryAfter_eq {now ttl : Int} (h : LifetimeFits now ttl) :
    expiryAfter now ttl = now + ttl * second := by
  rw [expiryAfter, Lib.wrap64_eq_self h.1, Lib.wrap64_eq_self h.2]

def setFor (db : Database) (key value : Bytes) (ttl : Int) (now : Int) : Database × SetOutcome :=
  db.setWith key value (some (expiryAfter now ttl))

def get (db : Database) (key : Bytes) (now : Int) : Database × Option Bytes :=
  let shard := db.shardFor key
  match shard.table.find key with
  | none => (db, none)
  | some entry =>
    if entry.isExpiredAt now then (db, none)
    else if shard.maxMemoryBytes ≠ 0 then
      (db.setShard (db.shardIndexFor key) { shard with table := (shard.table.touch key).1 },
        some entry.value)
    else (db, some entry.value)

/-- `std::chrono::ceil<std::chrono::seconds>`. -/
def ceilSeconds (d : Int) : Int :=
  let t := d.tdiv second
  if t * second < d then t + 1 else t

def ttl (db : Database) (key : Bytes) (now : Int) : Option Int :=
  match (db.shardFor key).table.find key with
  | none => none
  | some entry =>
    match entry.expiration with
    | none => none
    | some expiration =>
      let remaining := expiration - now
      if remaining ≤ 0 then none else some (ceilSeconds remaining)

def del (db : Database) (key : Bytes) (now : Int) : Database × Bool :=
  let shard := db.shardFor key
  match shard.table.find key with
  | none => (db, false)
  | some entry =>
    let wasLive := !entry.isExpiredAt now
    (db.setShard (db.shardIndexFor key) { shard with table := (shard.table.remove key).1 }, wasLive)

def existsKey (db : Database) (key : Bytes) (now : Int) : Bool :=
  match (db.shardFor key).table.find key with
  | none => false
  | some entry => !entry.isExpiredAt now

def keys (db : Database) (now : Nat → Int) : List Bytes :=
  (db.shards.mapIdx fun i shard =>
    shard.table.keysWhere fun entry => !entry.isExpiredAt (now i)).flatten

def snapshot (db : Database) (now : Nat → Int) : List Entry :=
  (db.shards.mapIdx fun i shard =>
    shard.table.entriesWhere fun entry => !entry.isExpiredAt (now i)).flatten

def size (db : Database) : Nat := (db.shards.map fun shard => shard.table.size).sum

def empty (db : Database) : Bool := db.shards.all fun shard => shard.table.size == 0

def bucketCount (db : Database) : Nat := (db.shards.map fun shard => shard.table.bucketCount).sum

def memoryUsage (db : Database) : Nat := (db.shards.map fun shard => shard.table.memoryUsage).sum

def evictedCount (db : Database) : Nat := (db.shards.map fun shard => shard.evicted).sum

def shardCount (db : Database) : Nat := db.shards.length

def removeExpired (db : Database) (maxBuckets : Nat) (now : Nat → Int) : Database × Nat :=
  if maxBuckets = 0 then (db, 0)
  else
    let perShard := max (maxBuckets / db.shards.length) 1
    (db.mapShards fun i shard => (shard.sweep perShard (now i)).1,
      (db.shards.mapIdx fun i shard => (shard.sweep perShard (now i)).2).sum)

def clear (db : Database) : Database := db.mapShards fun _ shard => shard.clear

/-- One round of the loop of `restore`. -/
def restoreEntry (now : Int) (r : Database × Nat) (entry : Entry) : Database × Nat :=
  if entry.isExpiredAt now then r
  else
    let shard := ((r.1.shardFor entry.key).write entry.key entry.value entry.expiration).1
    (r.1.setShard (r.1.shardIndexFor entry.key) shard, r.2 + 1)

def restore (db : Database) (entries : List Entry) (now : Int) : Database × Nat :=
  entries.foldl (restoreEntry now) (db.clear, 0)

/-- A shard's part of a limit. -/
def sliceOf (bytes shards : Nat) : Nat := if bytes = 0 then 0 else max (bytes / shards) 1

def setMaxMemory (db : Database) (bytes : Nat) : Database :=
  let perShard := sliceOf bytes db.shards.length
  { db.mapShards fun _ shard => shard.limitTo perShard with maxMemoryBytes := bytes }

def maxMemory (db : Database) : Nat := db.maxMemoryBytes

/-! ### Operations as data -/

inductive Op where
  | set (key value : Bytes)
  | setFor (key value : Bytes) (ttl : Int)
  | get (key : Bytes)
  | ttl (key : Bytes)
  | existsKey (key : Bytes)
  | del (key : Bytes)
  | keys
  | snapshot
  | removeExpired (maxBuckets : Nat)
  | clear
  | setMaxMemory (bytes : Nat)
  | restore (entries : List Entry)
deriving DecidableEq

inductive Answer where
  | outcome (o : SetOutcome)
  | value (v : Option Bytes)
  | seconds (s : Option Int)
  | flag (b : Bool)
  | keys (ks : List Bytes)
  | entries (es : List Entry)
  | count (n : Nat)
  | done
deriving DecidableEq

/-- Run one operation. One that reads the clock once reads `now 0`. -/
def step (db : Database) (op : Op) (now : Nat → Int) : Database × Answer :=
  match op with
  | .set key value => (db.set key value).map id .outcome
  | .setFor key value ttl => (db.setFor key value ttl (now 0)).map id .outcome
  | .get key => (db.get key (now 0)).map id .value
  | .ttl key => (db, .seconds (db.ttl key (now 0)))
  | .existsKey key => (db, .flag (db.existsKey key (now 0)))
  | .del key => (db.del key (now 0)).map id .flag
  | .keys => (db, .keys (db.keys now))
  | .snapshot => (db, .entries (db.snapshot now))
  | .removeExpired maxBuckets => (db.removeExpired maxBuckets now).map id .count
  | .clear => (db.clear, .done)
  | .setMaxMemory bytes => (db.setMaxMemory bytes, .done)
  | .restore entries => (db.restore entries (now 0)).map id .count

end Database

end VCache
