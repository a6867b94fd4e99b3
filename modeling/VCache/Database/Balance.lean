import VCache.Database.Memory
import VCache.Database.Reads
import VCache.Lib.Machine
import VCache.Lib.Sums

/-!
# No entry is lost or counted twice

An entry comes in with an insertion and leaves by eviction, by a sweep or by a deletion.
Each shard keeps its own books; over any run they balance.
-/

namespace VCache

open VCache.Lib

/-! ## One shard's books -/

namespace Shard

def stock (s : Shard) : Nat := s.table.size + s.evicted

theorem CutsAt.le {s : Shard} {es : List Entry} {m : Nat} (h : s.CutsAt es m) : m ≤ es.length := by
  unfold CutsAt at h
  split at h
  · omega
  · exact h.le

theorem stock_evictToFit {s : Shard} {es : List Entry} (h : s.table.Holds es) :
    s.evictToFit.stock = s.stock := by
  obtain ⟨m, hm, h1, -, h2⟩ := evictToFit_spec h
  have hle := hm.le
  have hsize := h1.size_eq
  rw [List.length_take, Nat.min_eq_left hle] at hsize
  have hevicted := congrArg Shard.evicted h2
  dsimp only at hevicted
  rw [stock, stock, hsize, hevicted, h.size_eq]
  omega

theorem stock_write {s : Shard} {es : List Entry} (h : s.table.Holds es) (key value : Bytes)
    (x : Option Int) :
    (s.write key value x).1.stock = s.stock + if (s.write key value x).2 then 1 else 0 := by
  obtain ⟨h1, h2, -⟩ := write_spec h key value x
  have hlen := h.distinct.length_without key
  have hevicted : (s.write key value x).1.evicted = s.evicted := by rw [write_frame]
  rw [stock, stock, h1.size_eq, h2, hevicted, h.size_eq, Keyed.push, List.length_cons]
  cases hl : Keyed.lookup (·.key) key es with
  | none =>
    rw [hl, if_neg (by simp)] at hlen
    rw [if_pos Option.isNone_none]
    dsimp only
    omega
  | some e =>
    rw [hl, if_pos Option.isSome_some] at hlen
    rw [if_neg (by simp)]
    dsimp only
    omega

theorem stock_afterGet {s : Shard} {es : List Entry} (h : s.table.Holds es) (key : Bytes)
    (now : Int) : (s.afterGet key now).stock = s.stock := by
  have hevicted : (s.afterGet key now).evicted = s.evicted := by
    unfold afterGet
    split
    · rfl
    · split <;> rfl
  obtain ⟨h1, -, -⟩ := afterGet_spec h key now
  rw [stock, stock, hevicted, h1.size_eq, h.size_eq]
  split
  · rw [(Keyed.promote_perm h.distinct key).length_eq]
  · rfl

theorem stock_afterDel {s : Shard} {es : List Entry} (h : s.table.Holds es) (key : Bytes) :
    (s.afterDel key).stock + (if (s.table.find key).isSome then 1 else 0) = s.stock := by
  have hevicted : (s.afterDel key).evicted = s.evicted := by
    unfold afterDel
    split <;> rfl
  have hlen := h.distinct.length_without key
  rw [stock, stock, hevicted, (afterDel_spec h key).1.size_eq, h.size_eq, h.find_eq]
  omega

theorem stock_sweep {s : Shard} {es : List Entry} (h : s.table.Holds es) (perShard : Nat)
    (now : Int) : (s.sweep perShard now).1.stock + (s.sweep perShard now).2 = s.stock := by
  have hsize := sweep_size h perShard now
  have hevicted : (s.sweep perShard now).1.evicted = s.evicted := by
    unfold sweep
    dsimp only
    split <;> rfl
  unfold stock
  omega

theorem stock_limitTo {s : Shard} {es : List Entry} (h : s.table.Holds es) (slice : Nat) :
    (s.limitTo slice).stock = s.stock :=
  stock_evictToFit (s := { s with maxMemoryBytes := slice }) h

end Shard

/-! ## The books of the database -/

namespace Database

/-- The operations that leave the keyspace to insertions, evictions, sweeps and deletions. -/
def Op.Counted : Op → Prop
  | .clear | .restore _ => False
  | _ => True

def insertedBy (db : Database) (x : Op × (Nat → Int)) : Nat :=
  if (db.stepOn x).2 = .outcome .inserted then 1 else 0

def sweptBy (db : Database) (x : Op × (Nat → Int)) : Nat :=
  match x.1 with
  | .removeExpired maxBuckets => (db.removeExpired maxBuckets x.2).2
  | _ => 0

/-- `1` for a deletion that finds its key stored, expired or not. -/
def deletedBy (db : Database) (x : Op × (Nat → Int)) : Nat :=
  match x.1 with
  | .del key => if (db.lookup key).isSome then 1 else 0
  | _ => 0

theorem size_add_evictedCount (db : Database) :
    db.size + db.evictedCount = (db.shards.map Shard.stock).sum :=
  List.sum_map_add.symm

theorem stock_setShard (db : Database) (key : Bytes) (s : Shard) :
    ((db.setShard (db.shardIndexFor key) s).shards.map Shard.stock).sum + (db.shardFor key).stock =
      (db.shards.map Shard.stock).sum + s.stock :=
  sum_map_set (db.shards_shardFor key)

theorem stock_mapShards {db : Database} {f : Nat → Shard → Shard} {out : Nat → Shard → Nat}
    (h : ∀ i s, db.shards[i]? = some s → (f i s).stock + out i s = s.stock) :
    ((db.mapShards f).shards.map Shard.stock).sum + (db.shards.mapIdx out).sum =
      (db.shards.map Shard.stock).sum := by
  show ((db.shards.mapIdx f).map Shard.stock).sum + _ = _
  rw [map_mapIdx]
  exact sum_mapIdx_add h

theorem setWith_balance {db : Database} (h : db.Inv) (key value : Bytes) (x : Option Int) :
    ((db.setWith key value x).1.shards.map Shard.stock).sum =
      (db.shards.map Shard.stock).sum +
        if Answer.outcome (db.setWith key value x).2 = .outcome .inserted then 1 else 0 := by
  have hholds := (h.shardFor key).holds
  have hwrite := Shard.stock_write hholds key value x
  have hfit := Shard.stock_evictToFit (Shard.write_spec hholds key value x).1
  have hset := db.stock_setShard key ((db.shardFor key).write key value x).1.evictToFit
  unfold setWith
  split
  · rfl
  · dsimp only
    by_cases hi : ((db.shardFor key).write key value x).2 = true
    · rw [if_pos hi] at hwrite
      rw [if_pos (congrArg Answer.outcome (if_pos hi))]
      omega
    · rw [if_neg hi] at hwrite
      rw [if_neg (by simp [hi])]
      omega

theorem step_balance {db : Database} (h : db.Inv) (x : Op × (Nat → Int)) (hop : x.1.Counted) :
    ((db.stepOn x).1.size + (db.stepOn x).1.evictedCount) + (db.sweptBy x + db.deletedBy x) =
      (db.size + db.evictedCount) + db.insertedBy x := by
  obtain ⟨op, now⟩ := x
  rw [size_add_evictedCount, size_add_evictedCount]
  have hkeep : (db.shards.map Shard.stock).sum + (0 + 0) =
      (db.shards.map Shard.stock).sum + 0 := rfl
  cases op with
  | set key value => exact setWith_balance h key value none
  | setFor key value ttl => exact setWith_balance h key value _
  | get key =>
    have hset := db.stock_setShard key ((db.shardFor key).afterGet key (now 0))
    rw [Shard.stock_afterGet (h.shardFor key).holds, ← get_fst] at hset
    exact Nat.add_right_cancel hset
  | del key =>
    have hset := db.stock_setShard key ((db.shardFor key).afterDel key)
    have hdel := Shard.stock_afterDel (h.shardFor key).holds key
    rw [← del_fst db key (now 0)] at hset
    show ((db.del key (now 0)).1.shards.map Shard.stock).sum +
      (0 + if (db.lookup key).isSome then 1 else 0) = (db.shards.map Shard.stock).sum + 0
    unfold lookup
    omega
  | removeExpired maxBuckets =>
    show ((db.removeExpired maxBuckets now).1.shards.map Shard.stock).sum +
      ((db.removeExpired maxBuckets now).2 + 0) = (db.shards.map Shard.stock).sum + 0
    unfold removeExpired
    split
    · rfl
    · exact stock_mapShards fun i s hs => Shard.stock_sweep (h.valid i s hs).holds _ (now i)
  | setMaxMemory bytes =>
    have hmap := @stock_mapShards db (fun _ shard => shard.limitTo (sliceOf bytes db.shards.length))
      (fun _ _ => 0) fun i s hs => Shard.stock_limitTo (h.valid i s hs).holds _
    have hzero : (db.shards.mapIdx fun _ _ => 0).sum = 0 := List.sum_eq_zero fun n hn => by
      obtain ⟨i, -, hi⟩ := List.mem_mapIdx.1 hn
      exact hi.symm
    rw [hzero] at hmap
    exact hmap
  | ttl _ => exact hkeep
  | existsKey _ => exact hkeep
  | keys => exact hkeep
  | snapshot => exact hkeep
  | clear => exact hop.elim
  | restore _ => exact hop.elim

/-- The stored entries that have expired when `keys` comes to their shard. -/
def expired (db : Database) (now : Nat → Int) : List Entry :=
  (db.shards.mapIdx fun i shard =>
    shard.entries.filter fun entry => entry.isExpiredAt (now i)).flatten

theorem Inv.size_eq {db : Database} (h : db.Inv) (now : Nat → Int) :
    db.size = (db.keys now).length + (db.expired now).length := by
  unfold keys expired size
  rw [List.length_flatten, List.length_flatten, map_mapIdx, map_mapIdx]
  refine (sum_mapIdx_add fun i s hs => ?_).symm
  have hholds := (h.valid i s hs).holds
  rw [hholds.size_eq, HashTable.keysWhere_eq, List.length_map,
    (hholds.entriesWhere_perm _).length_eq, Nat.add_comm]
  exact (List.length_eq_length_filter_add _).symm

theorem fresh_books {n shardCount : UInt64} {db : Database} (h : new n shardCount = some db) :
    db.size + db.evictedCount = 0 := by
  rw [size_add_evictedCount]
  refine List.sum_eq_zero fun k hk => ?_
  obtain ⟨s, hs, rfl⟩ := List.mem_map.1 hk
  obtain ⟨i, hi⟩ := List.mem_iff_getElem?.1 hs
  obtain ⟨shards, hpos, rfl⟩ := exists_ofShards h
  rw [ofShards_shards hi]
  show (HashTable.new _).size + 0 = 0
  rw [(HashTable.new_holds _).size_eq]; rfl

/-- **No entry is lost or counted twice**: every insertion is still stored, evicted, swept
or deleted, and what is stored is listed or has expired. -/
theorem no_entry_lost (n shardCount : UInt64) (db : Database) (hnew : new n shardCount = some db)
    (ops : List (Op × (Nat → Int))) (hops : ∀ x ∈ ops, x.1.Counted) :
    Machine.tally stepOn insertedBy db ops =
      (Machine.run stepOn db ops).size + (Machine.run stepOn db ops).evictedCount +
        Machine.tally stepOn sweptBy db ops + Machine.tally stepOn deletedBy db ops ∧
    ∀ now, (Machine.run stepOn db ops).size =
      ((Machine.run stepOn db ops).keys now).length +
        ((Machine.run stepOn db ops).expired now).length := by
  have hinv := (fresh_of_new hnew).inv
  have hstep : ∀ (db : Database) x, db.Inv → (db.stepOn x).1.Inv := fun _ x h => h.step x.1 x.2
  constructor
  · have hbal := Machine.tally_balance (fun db => db.size + db.evictedCount) hstep
      (fun _ x h hx => step_balance h x hx) ops hinv hops
    have hzero := fresh_books hnew
    rw [Machine.tally_add] at hbal
    omega
  · exact fun now => (Machine.run_invariant hstep ops hinv).size_eq now

/-- Room for one entry: the second write evicts the first, a sweep and a deletion follow. -/
def busyRun : List (Op × (Nat → Int)) :=
  [(.setMaxMemory 200, fun _ => 0), (.set [1] [], fun _ => 0), (.setFor [2] [] 1, fun _ => 0),
    (.removeExpired 8, fun _ => 2000000000), (.set [3] [], fun _ => 0), (.del [3], fun _ => 0)]

theorem no_entry_lost_busyRun :
    Machine.tally stepOn insertedBy single busyRun = 3 ∧
      (Machine.run stepOn single busyRun).size + (Machine.run stepOn single busyRun).evictedCount +
        Machine.tally stepOn sweptBy single busyRun +
        Machine.tally stepOn deletedBy single busyRun = 3 := by
  have hthree : Machine.tally stepOn insertedBy single busyRun = 3 := by decide +kernel
  have h := (no_entry_lost 1 1 single rfl busyRun (by simp [busyRun, Op.Counted])).1
  exact ⟨hthree, h.symm.trans hthree⟩

end Database

end VCache
