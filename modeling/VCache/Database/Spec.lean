import VCache.Database.Model
import VCache.Lib.Sharded

/-!
# What the database's operations do

A shard's contents are its stored entries, latest use first. Every operation is
described by what it makes of each shard's contents.
-/

namespace VCache

open VCache.Lib

/-! ## Shards -/

/-- Bytes in use for some entries and a bucket array. -/
def usageOf (buckets : Nat) (es : List Entry) : Nat :=
  (es.map Entry.footprint).sum + buckets * HashTable.sizeofNodePtr

namespace Shard

def entries (shard : Shard) : List Entry := shard.table.entries

/-- A shard whose table is well formed and holds only keys routed to it. -/
structure Valid (route : Bytes → Nat) (i : Nat) (shard : Shard) : Prop where
  table : shard.table.RepInv
  routed : ∀ e ∈ shard.entries, route e.key = i

theorem Valid.holds {route : Bytes → Nat} {i : Nat} {s : Shard} (h : s.Valid route i) :
    s.table.Holds s.entries :=
  h.table.holds

theorem Valid.of_holds {route : Bytes → Nat} {i : Nat} {s : Shard} {es : List Entry}
    (h : s.table.Holds es) (hes : ∀ e ∈ es, route e.key = i) : s.Valid route i :=
  ⟨h.repInv, fun e he => hes e (by rwa [entries, h.entries_eq] at he)⟩

theorem write_spec {s : Shard} {es : List Entry} (h : s.table.Holds es) (key value : Bytes)
    (expiration : Option Int) :
    (s.write key value expiration).1.table.Holds
        (Keyed.push (·.key) { key, value, expiration } es) ∧
      (s.write key value expiration).2 = (Keyed.lookup (·.key) key es).isNone ∧
      (s.write key value expiration).1.table.bucketCount =
        HashTable.grownTo (Keyed.without (·.key) key es).length.succ
          (HashTable.usableBuckets s.table.bucketCount) := by
  obtain ⟨h1, h2, h3⟩ := h.put key value
  cases expiration with
  | none => exact ⟨h1, h2, h3⟩
  | some e =>
    obtain ⟨h4, h5⟩ := h1.setExpiration key (some e)
    refine ⟨?_, h2, h5.trans h3⟩
    have : Keyed.adjust (·.key) key (fun a : Entry => { a with expiration := some e })
        ({ key, value } :: Keyed.without (·.key) key es) =
        Keyed.push (·.key) { key, value, expiration := some e } es := by
      rw [Keyed.push, Keyed.adjust, List.map_cons, if_pos rfl]
      congr 1
      refine List.map_congr_left (fun a ha => ?_) |>.trans (List.map_id _)
      rw [if_neg (Keyed.mem_without.1 ha).2]; rfl
    rw [this] at h4
    exact h4

theorem write_frame (s : Shard) (key value : Bytes) (expiration : Option Int) :
    (s.write key value expiration).1 =
      { s with table := (s.write key value expiration).1.table } := by
  unfold write
  cases expiration <;> rfl

/-- `m` is where eviction stops in a list of `n` entries, the first `j` of which cost
`cost j`: the longest part within the limit, or a single entry. -/
structure Cut (cost : Nat → Nat) (limit n m : Nat) : Prop where
  le : m ≤ n
  pos : 1 ≤ n → 1 ≤ m
  fits : cost m ≤ limit ∨ m ≤ 1
  longest : ∀ j, m < j → j ≤ n → limit < cost j

theorem Cut.whole {cost : Nat → Nat} {limit n : Nat} (h : cost n ≤ limit ∨ n ≤ 1) :
    Cut cost limit n n :=
  ⟨Nat.le_refl n, id, h, fun j h1 h2 => by omega⟩

theorem Cut.succ {cost cost' : Nat → Nat} {limit n m : Nat} (h : Cut cost limit n m)
    (hcost : ∀ j, j ≤ n → cost j = cost' j) (hn : 1 ≤ n) (hover : limit < cost' (n + 1)) :
    Cut cost' limit (n + 1) m where
  le := Nat.le_succ_of_le h.le
  pos := fun _ => h.pos hn
  fits := by
    rw [← hcost m h.le]
    exact h.fits
  longest := by
    intro j h1 h2
    by_cases hj : j = n + 1
    · rw [hj]; exact hover
    · rw [← hcost j (by omega)]
      exact h.longest j h1 (by omega)

theorem evictLoop_spec : ∀ (fuel : Nat) {s : Shard} {es : List Entry}, s.table.Holds es →
    es.length ≤ fuel →
    ∃ m, Cut (fun j => usageOf s.table.bucketCount (es.take j)) s.maxMemoryBytes es.length m ∧
      (evictLoop fuel s).table.Holds (es.take m) ∧
      (evictLoop fuel s).table.bucketCount = s.table.bucketCount ∧
      evictLoop fuel s =
        { s with table := (evictLoop fuel s).table, evicted := s.evicted + (es.length - m) }
  | 0, s, es, h, hfuel => by
    obtain rfl : es = [] := List.length_eq_zero_iff.1 (by omega)
    exact ⟨0, .whole (.inr (by omega)), h, rfl, rfl⟩
  | fuel + 1, s, es, h, hfuel => by
    have husage : s.table.memoryUsage = usageOf s.table.bucketCount es := h.memoryUsage_eq
    have hsize := h.size_eq
    unfold evictLoop
    split
    next hg =>
      obtain ⟨h1, h2, h3⟩ := h.evictOldest
      have hne : es ≠ [] := by rintro rfl; simp at hsize; omega
      rw [List.getLast?_eq_some_getLast hne] at h2
      cases hev : s.table.evictOldest with
      | mk table victim =>
        rw [hev] at h1 h2 h3
        simp only [Option.map_some] at h1 h2 h3
        subst h2
        have hlen : es.length = es.dropLast.length + 1 := by
          rw [List.length_dropLast]; omega
        have htake : ∀ j, j ≤ es.dropLast.length → es.dropLast.take j = es.take j := by
          intro j hj
          rw [List.dropLast_eq_take, List.take_take, Nat.min_eq_left (by omega)]
        obtain ⟨m, hc, h4, h5, h6⟩ := evictLoop_spec fuel
          (s := { s with table := table, evicted := s.evicted + 1 }) h1 (by omega)
        have hm := hc.le
        refine ⟨m, ?_, htake m hm ▸ h4, h5.trans h3, ?_⟩
        · rw [hlen]
          refine hc.succ (fun j hj => by rw [h3, htake j hj]) (by omega) ?_
          rw [← hlen, List.take_length, ← husage]
          exact hg.1
        · have : s.evicted + 1 + (es.dropLast.length - m) = s.evicted + (es.length - m) := by
            omega
          rw [this] at h6
          exact h6
    next hg =>
      refine ⟨es.length, .whole ?_, ?_, rfl, ?_⟩
      · rw [List.take_length, ← husage]; omega
      · rw [List.take_length]; exact h
      · rw [Nat.sub_self]; rfl

/-- Where `evictToFit` cuts the entries of a shard. -/
def CutsAt (s : Shard) (es : List Entry) (m : Nat) : Prop :=
  if s.maxMemoryBytes = 0 then m = es.length
  else Cut (fun j => usageOf s.table.bucketCount (es.take j)) s.maxMemoryBytes es.length m

theorem evictToFit_spec {s : Shard} {es : List Entry} (h : s.table.Holds es) :
    ∃ m, s.CutsAt es m ∧ s.evictToFit.table.Holds (es.take m) ∧
      s.evictToFit.table.bucketCount = s.table.bucketCount ∧
      s.evictToFit =
        { s with table := s.evictToFit.table, evicted := s.evicted + (es.length - m) } := by
  unfold evictToFit CutsAt
  split
  · refine ⟨es.length, rfl, ?_, rfl, ?_⟩
    · rw [List.take_length]; exact h
    · rw [Nat.sub_self]; rfl
  · exact evictLoop_spec _ h (by rw [h.size_eq])

theorem CutsAt.pos {s : Shard} {es : List Entry} {m : Nat} (h : s.CutsAt es m)
    (hes : es ≠ []) : 1 ≤ m := by
  have := List.length_pos_of_ne_nil hes
  unfold CutsAt at h
  split at h
  · omega
  · exact h.pos (by omega)

/-- What a write leaves in a shard, whether it has to evict or not. -/
theorem evictToFit_write_spec {s : Shard} {es : List Entry} (h : s.table.Holds es)
    (key value : Bytes) (expiration : Option Int) :
    ∃ m, 1 ≤ m ∧ (s.write key value expiration).1.CutsAt
        (Keyed.push (·.key) { key, value, expiration } es) m ∧
      (s.write key value expiration).1.evictToFit.table.Holds
        ((Keyed.push (·.key) { key, value, expiration } es).take m) := by
  obtain ⟨h1, -, -⟩ := write_spec h key value expiration
  obtain ⟨m, hm, h2, -⟩ := evictToFit_spec h1
  exact ⟨m, hm.pos (by simp [Keyed.push]), hm, h2⟩

theorem Valid.store {route : Bytes → Nat} {i : Nat} {s : Shard} (h : s.Valid route i)
    {key : Bytes} (hk : route key = i) (value : Bytes) (expiration : Option Int) :
    (s.write key value expiration).1.evictToFit.Valid route i := by
  obtain ⟨m, -, -, h1⟩ := evictToFit_write_spec h.holds key value expiration
  refine .of_holds h1 fun e he => ?_
  rcases List.mem_cons.1 (List.mem_of_mem_take he) with rfl | he
  · exact hk
  · exact h.routed e (Keyed.mem_without.1 he).1

theorem clear_spec {s : Shard} {es : List Entry} (h : s.table.Holds es) :
    s.clear.table.Holds [] ∧ s.clear.table.bucketCount = s.table.bucketCount :=
  h.clear

theorem sweep_spec {s : Shard} {es : List Entry} (h : s.table.Holds es) (perShard : Nat)
    (now : Int) :
    ∃ gone : Entry → Bool, (∀ e, gone e → e.isExpiredAt now) ∧
      (s.sweep perShard now).1.table.Holds (es.filter fun e => !gone e) ∧
      (s.sweep perShard now).1.table.bucketCount = s.table.bucketCount := by
  unfold sweep
  by_cases hb : s.table.bucketCount = 0
  · rw [if_pos hb]
    exact ⟨fun _ => false, by simp, by simpa using h, rfl⟩
  · rw [if_neg hb]
    obtain ⟨h1, h2, -⟩ := h.removeIf
      (if s.sweepCursor ≥ s.table.bucketCount then 0 else s.sweepCursor)
      (min perShard s.table.bucketCount) fun entry => entry.isExpiredAt now
    exact ⟨_, fun e he => (Bool.and_eq_true_iff.1 he).2, h1, h2⟩

theorem sweep_size {s : Shard} {es : List Entry} (h : s.table.Holds es) (perShard : Nat)
    (now : Int) :
    (s.sweep perShard now).1.table.size + (s.sweep perShard now).2 = s.table.size := by
  unfold sweep
  by_cases hb : s.table.bucketCount = 0
  · rw [if_pos hb]; rfl
  · rw [if_neg hb]
    exact (h.removeIf _ _ _).2.2

theorem sweep_frame (s : Shard) (perShard : Nat) (now : Int) :
    (s.sweep perShard now).1.maxMemoryBytes = s.maxMemoryBytes := by
  unfold sweep
  dsimp only
  split <;> rfl

def afterGet (s : Shard) (key : Bytes) (now : Int) : Shard :=
  match s.table.find key with
  | none => s
  | some entry =>
    if entry.isExpiredAt now ∨ s.maxMemoryBytes = 0 then s
    else { s with table := (s.table.touch key).1 }

def afterDel (s : Shard) (key : Bytes) : Shard :=
  match s.table.find key with
  | none => s
  | some _ => { s with table := (s.table.remove key).1 }

/-- What `restore` does to the shard that the given entries are routed to. -/
def afterRestore (s : Shard) (es : List Entry) : Shard :=
  es.foldl (fun s e => (s.write e.key e.value e.expiration).1) s.clear

theorem afterGet_spec {s : Shard} {es : List Entry} (h : s.table.Holds es) (key : Bytes)
    (now : Int) :
    (s.afterGet key now).table.Holds
        (if s.maxMemoryBytes ≠ 0 ∧
            ∃ e, Keyed.lookup (·.key) key es = some e ∧ ¬ e.isExpiredAt now then
          Keyed.promote (·.key) key es else es) ∧
      (s.afterGet key now).table.bucketCount = s.table.bucketCount ∧
      (s.afterGet key now).maxMemoryBytes = s.maxMemoryBytes := by
  unfold afterGet
  rw [h.find_eq key]
  cases hf : Keyed.lookup (·.key) key es with
  | none => simpa [hf] using h
  | some e =>
    by_cases hc : e.isExpiredAt now ∨ s.maxMemoryBytes = 0
    · have : ¬ (s.maxMemoryBytes ≠ 0 ∧ ¬ e.isExpiredAt now) := by
        rcases hc with hc | hc <;> simp [hc]
      simp only [Option.some.injEq, exists_eq_left']
      rw [if_pos hc, if_neg this]; exact ⟨h, rfl, rfl⟩
    · simp only [Option.some.injEq, exists_eq_left']
      rw [if_neg hc, if_pos ⟨fun h0 => hc (.inr h0), fun h0 => hc (.inl h0)⟩]
      obtain ⟨h1, h2⟩ := h.touch key
      exact ⟨h1, h2, rfl⟩

theorem afterDel_spec {s : Shard} {es : List Entry} (h : s.table.Holds es) (key : Bytes) :
    (s.afterDel key).table.Holds (Keyed.without (·.key) key es) ∧
      (s.afterDel key).table.bucketCount = s.table.bucketCount ∧
      (s.afterDel key).maxMemoryBytes = s.maxMemoryBytes := by
  unfold afterDel
  rw [h.find_eq key]
  cases hf : Keyed.lookup (·.key) key es with
  | none => rw [Keyed.without_eq_self hf]; exact ⟨h, rfl, rfl⟩
  | some e =>
    obtain ⟨h1, -, h3⟩ := h.remove key
    exact ⟨h1, h3, rfl⟩

def pushAll (es : List Entry) (written : List Entry) : List Entry :=
  written.foldl (fun es e => Keyed.push (·.key) e es) es

theorem writeAll_spec : ∀ (written : List Entry) {s : Shard} {es : List Entry}, s.table.Holds es →
    (written.foldl (fun s e => (s.write e.key e.value e.expiration).1) s).table.Holds
        (pushAll es written) ∧
      (written.foldl (fun s e => (s.write e.key e.value e.expiration).1) s).maxMemoryBytes =
        s.maxMemoryBytes
  | [], _, _, h => ⟨h, rfl⟩
  | e :: written, s, es, h => by
    obtain ⟨h1, -, -⟩ := write_spec h e.key e.value e.expiration
    obtain ⟨h2, h3⟩ := writeAll_spec written h1
    exact ⟨h2, h3.trans (by rw [write_frame])⟩

theorem afterRestore_spec {s : Shard} {es : List Entry} (h : s.table.Holds es)
    (written : List Entry) :
    (s.afterRestore written).table.Holds (pushAll [] written) ∧
      (s.afterRestore written).maxMemoryBytes = s.maxMemoryBytes :=
  writeAll_spec written h.clear.1

theorem mem_pushAll : ∀ (written : List Entry) {es : List Entry} {e : Entry},
    e ∈ pushAll es written → e ∈ es ∨ e ∈ written
  | [], _, _, h => .inl h
  | a :: written, es, e, h => by
    rcases mem_pushAll written h with h | h
    · rcases List.mem_cons.1 h with rfl | h
      · exact .inr List.mem_cons_self
      · exact .inl (Keyed.mem_without.1 h).1
    · exact .inr (List.mem_cons_of_mem _ h)

/-- The shard has lost entries or moved them, and keeps its bucket array and its slice. -/
structure Thins (s s' : Shard) : Prop where
  holds : ∃ es, s'.table.Holds es ∧ es.Subperm s.entries
  bucketCount : s'.table.bucketCount = s.table.bucketCount
  slice : s'.maxMemoryBytes = s.maxMemoryBytes

theorem Thins.refl {s : Shard} (h : s.table.Holds s.entries) : s.Thins s :=
  ⟨⟨_, h, .refl _⟩, rfl, rfl⟩

theorem thins_afterGet {s : Shard} (h : s.table.Holds s.entries) (key : Bytes) (now : Int) :
    s.Thins (s.afterGet key now) := by
  obtain ⟨h1, h2, h3⟩ := afterGet_spec h key now
  refine ⟨⟨_, h1, ?_⟩, h2, h3⟩
  split
  · exact (Keyed.promote_perm h.distinct key).subperm
  · exact .refl _

theorem thins_afterDel {s : Shard} (h : s.table.Holds s.entries) (key : Bytes) :
    s.Thins (s.afterDel key) := by
  obtain ⟨h1, h2, h3⟩ := afterDel_spec h key
  exact ⟨⟨_, h1, List.filter_sublist.subperm⟩, h2, h3⟩

theorem thins_sweep {s : Shard} (h : s.table.Holds s.entries) (perShard : Nat) (now : Int) :
    s.Thins (s.sweep perShard now).1 := by
  obtain ⟨gone, -, h1, h2⟩ := sweep_spec h perShard now
  exact ⟨⟨_, h1, List.filter_sublist.subperm⟩, h2, sweep_frame ..⟩

theorem thins_clear {s : Shard} (h : s.table.Holds s.entries) : s.Thins s.clear := by
  obtain ⟨h1, h2⟩ := clear_spec h
  exact ⟨⟨_, h1, List.nil_subperm⟩, h2, rfl⟩

theorem Valid.thins {route : Bytes → Nat} {i : Nat} {s s' : Shard} (h : s.Valid route i)
    (ht : s.Thins s') : s'.Valid route i := by
  obtain ⟨es, hes, hsub⟩ := ht.holds
  exact .of_holds hes fun e he => h.routed e (hsub.subset he)

end Shard

namespace Database

@[simp] theorem setShard_length (db : Database) (i : Nat) (s : Shard) :
    (db.setShard i s).shards.length = db.shards.length := List.length_set

@[simp] theorem mapShards_length (db : Database) (f : Nat → Shard → Shard) :
    (db.mapShards f).shards.length = db.shards.length := List.length_mapIdx

@[simp] theorem setShard_shardIndexFor (db : Database) (i : Nat) (s : Shard) :
    (db.setShard i s).shardIndexFor = db.shardIndexFor := by
  funext key; unfold shardIndexFor; rfl

@[simp] theorem mapShards_shardIndexFor (db : Database) (f : Nat → Shard → Shard) :
    (db.mapShards f).shardIndexFor = db.shardIndexFor := by
  funext key; unfold shardIndexFor; rfl

theorem shards_shardFor (db : Database) (key : Bytes) :
    db.shards[db.shardIndexFor key]? = some (db.shardFor key) := by
  rw [List.getElem?_eq_getElem (db.shardIndexFor_lt key), shardFor, List.get_eq_getElem]

/-- What an operation does to shard `i`: it depends on that shard alone. -/
def onShard (route : Bytes → Nat) (limit shards : Nat) (op : Op) (now : Nat → Int) (i : Nat)
    (s : Shard) : Shard :=
  let store (key value : Bytes) (expiration : Option Int) : Shard :=
    if route key = i ∧ (limit = 0 ∨ HashTable.footprintEstimate key value ≤ limit) then
      (s.write key value expiration).1.evictToFit
    else s
  match op with
  | .set key value => store key value none
  | .setFor key value ttl => store key value (some (expiryAfter (now 0) ttl))
  | .get key => if route key = i then s.afterGet key (now 0) else s
  | .del key => if route key = i then s.afterDel key else s
  | .removeExpired maxBuckets =>
    if maxBuckets = 0 then s else (s.sweep (max (maxBuckets / shards) 1) (now i)).1
  | .clear => s.clear
  | .setMaxMemory bytes => s.limitTo (sliceOf bytes shards)
  | .restore es => s.afterRestore
      (es.filter fun e => !e.isExpiredAt (now 0) && decide (route e.key = i))
  | .ttl _ | .existsKey _ | .keys | .snapshot => s

theorem shards_setShard (db : Database) (key : Bytes) (f : Shard → Shard) (i : Nat) :
    (db.setShard (db.shardIndexFor key) (f (db.shardFor key))).shards[i]? =
      (db.shards[i]?).map fun s => if db.shardIndexFor key = i then f s else s := by
  have hs := db.shards_shardFor key
  have hlt := db.shardIndexFor_lt key
  generalize db.shardIndexFor key = j at hs hlt ⊢
  show (db.shards.set j _)[i]? = _
  rw [List.getElem?_set]
  by_cases h : j = i
  · subst h; rw [if_pos rfl, if_pos hlt, hs, Option.map_some, if_pos rfl]
  · rw [if_neg h]; simp [h]

theorem shards_mapShards (db : Database) (f : Nat → Shard → Shard) (i : Nat) :
    (db.mapShards f).shards[i]? = (db.shards[i]?).map (f i) :=
  List.getElem?_mapIdx

theorem setShard_self (db : Database) (key : Bytes) :
    db.setShard (db.shardIndexFor key) (db.shardFor key) = db := by
  have h : db.shards.set (db.shardIndexFor key) (db.shardFor key) = db.shards := by
    rw [shardFor, List.get_eq_getElem]; exact List.set_getElem_self _
  unfold setShard
  simp only [h]

theorem setWith_shards (db : Database) (key value : Bytes) (expiration : Option Int) (i : Nat) :
    (db.setWith key value expiration).1.shards[i]? =
      (db.shards[i]?).map fun s =>
        if db.shardIndexFor key = i ∧ (db.maxMemoryBytes = 0 ∨
            HashTable.footprintEstimate key value ≤ db.maxMemoryBytes) then
          (s.write key value expiration).1.evictToFit
        else s := by
  have hfit : db.fitsWithinLimit key value = true ↔ (db.maxMemoryBytes = 0 ∨
      HashTable.footprintEstimate key value ≤ db.maxMemoryBytes) := by
    unfold fitsWithinLimit
    split <;> simp [*]
  unfold setWith
  by_cases h : db.fitsWithinLimit key value = true
  · simp only [h, Bool.not_true, Bool.false_eq_true, if_false]
    rw [db.shards_setShard key fun s => (s.write key value expiration).1.evictToFit]
    simp only [hfit.1 h, and_true]
  · simp only [h, Bool.not_false, if_true]
    simp only [mt hfit.2 h, and_false, if_false, Option.map_id']

theorem get_fst (db : Database) (key : Bytes) (now : Int) :
    (db.get key now).1 =
      db.setShard (db.shardIndexFor key) ((db.shardFor key).afterGet key now) := by
  unfold get Shard.afterGet
  dsimp only
  cases (db.shardFor key).table.find key with
  | none => exact (db.setShard_self key).symm
  | some e =>
    by_cases he : e.isExpiredAt now = true <;>
      by_cases hm : (db.shardFor key).maxMemoryBytes = 0 <;> simp [he, hm, setShard_self]

theorem del_fst (db : Database) (key : Bytes) (now : Int) :
    (db.del key now).1 = db.setShard (db.shardIndexFor key) ((db.shardFor key).afterDel key) := by
  unfold del Shard.afterDel
  dsimp only
  cases (db.shardFor key).table.find key with
  | none => exact (db.setShard_self key).symm
  | some e => rfl

/-! ### Every operation works shard by shard -/

/-- Same shards, same routing, same limit. -/
structure SameShape (db db' : Database) : Prop where
  route : db'.shardIndexFor = db.shardIndexFor
  count : db'.shards.length = db.shards.length
  limit : db'.maxMemoryBytes = db.maxMemoryBytes

theorem SameShape.refl (db : Database) : db.SameShape db := ⟨rfl, rfl, rfl⟩

theorem SameShape.trans {db db' db'' : Database} (h : db.SameShape db')
    (h' : db'.SameShape db'') : db.SameShape db'' :=
  ⟨h'.route.trans h.route, h'.count.trans h.count, h'.limit.trans h.limit⟩

theorem sameShape_setShard (db : Database) (i : Nat) (s : Shard) :
    db.SameShape (db.setShard i s) :=
  ⟨setShard_shardIndexFor .., setShard_length .., rfl⟩

theorem sameShape_mapShards (db : Database) (f : Nat → Shard → Shard) :
    db.SameShape (db.mapShards f) :=
  ⟨mapShards_shardIndexFor .., mapShards_length .., rfl⟩

theorem sameShape_setWith (db : Database) (key value : Bytes) (expiration : Option Int) :
    db.SameShape (db.setWith key value expiration).1 := by
  unfold setWith
  split
  · exact .refl db
  · exact sameShape_setShard ..

theorem sameShape_restoreEntry (now : Int) (r : Database × Nat) (e : Entry) :
    r.1.SameShape (restoreEntry now r e).1 := by
  unfold restoreEntry
  split
  · exact .refl _
  · exact sameShape_setShard ..

theorem sameShape_restoreLoop (now : Int) : ∀ (es : List Entry) (r : Database × Nat),
    r.1.SameShape (es.foldl (restoreEntry now) r).1
  | [], _ => .refl _
  | e :: es, r => (sameShape_restoreEntry now r e).trans (sameShape_restoreLoop now es _)

theorem restoreLoop_shards (now : Int) (i : Nat) : ∀ (es : List Entry) (r : Database × Nat),
    (es.foldl (restoreEntry now) r).1.shards[i]? = (r.1.shards[i]?).map fun s =>
      (es.filter fun e => !e.isExpiredAt now && decide (r.1.shardIndexFor e.key = i)).foldl
        (fun s e => (s.write e.key e.value e.expiration).1) s
  | [], r => by simp
  | e :: es, r => by
    rw [List.foldl_cons, restoreLoop_shards now i es, (sameShape_restoreEntry now r e).route]
    unfold restoreEntry
    by_cases he : e.isExpiredAt now = true
    · simp [he]
    · rw [if_neg he, r.1.shards_setShard e.key fun s => (s.write e.key e.value e.expiration).1,
        Option.map_map]
      congr 1
      funext s
      by_cases hi : r.1.shardIndexFor e.key = i <;> simp [he, hi]

theorem sameShape_step (db : Database) {op : Op} (hop : ∀ bytes, op ≠ .setMaxMemory bytes)
    (now : Nat → Int) : db.SameShape (db.step op now).1 := by
  cases op with
  | set key value => exact db.sameShape_setWith key value none
  | setFor key value ttl => exact db.sameShape_setWith key value _
  | get key =>
    show db.SameShape (db.get key (now 0)).1
    rw [get_fst]
    exact sameShape_setShard ..
  | del key =>
    show db.SameShape (db.del key (now 0)).1
    rw [del_fst]
    exact sameShape_setShard ..
  | removeExpired maxBuckets =>
    show db.SameShape (db.removeExpired maxBuckets now).1
    unfold removeExpired
    split
    · exact .refl db
    · exact sameShape_mapShards ..
  | clear => exact sameShape_mapShards ..
  | setMaxMemory bytes => exact absurd rfl (hop bytes)
  | restore es =>
    exact (db.sameShape_mapShards _).trans (sameShape_restoreLoop (now 0) es (db.clear, 0))
  | ttl _ => exact .refl db
  | existsKey _ => exact .refl db
  | keys => exact .refl db
  | snapshot => exact .refl db

theorem step_shape (db : Database) (op : Op) (now : Nat → Int) :
    (db.step op now).1.shardIndexFor = db.shardIndexFor ∧
      (db.step op now).1.shards.length = db.shards.length ∧
      (db.step op now).1.maxMemoryBytes =
        match op with
        | .setMaxMemory bytes => bytes
        | _ => db.maxMemoryBytes := by
  by_cases hop : ∃ bytes, op = .setMaxMemory bytes
  · obtain ⟨bytes, rfl⟩ := hop
    exact ⟨by funext key; unfold shardIndexFor; rfl, mapShards_length .., rfl⟩
  · have hno : ∀ bytes, op ≠ .setMaxMemory bytes := fun bytes h => hop ⟨bytes, h⟩
    obtain ⟨h1, h2, h3⟩ := db.sameShape_step hno now
    refine ⟨h1, h2, h3.trans ?_⟩
    cases op with
    | setMaxMemory bytes => exact absurd rfl (hno bytes)
    | _ => rfl

/-- **The database is the product of its shards**: what an operation makes of a shard
depends on nothing in the others. -/
theorem step_shards (db : Database) (op : Op) (now : Nat → Int) (i : Nat) :
    (db.step op now).1.shards[i]? = (db.shards[i]?).map
      (onShard db.shardIndexFor db.maxMemoryBytes db.shards.length op now i) := by
  cases op with
  | set key value => exact db.setWith_shards key value none i
  | setFor key value ttl => exact db.setWith_shards key value _ i
  | get key =>
    show (db.get key (now 0)).1.shards[i]? = _
    rw [get_fst, db.shards_setShard key (·.afterGet key (now 0))]; rfl
  | del key =>
    show (db.del key (now 0)).1.shards[i]? = _
    rw [del_fst, db.shards_setShard key (·.afterDel key)]; rfl
  | removeExpired maxBuckets =>
    show (db.removeExpired maxBuckets now).1.shards[i]? = _
    unfold removeExpired onShard
    by_cases h : maxBuckets = 0
    · simp only [h, if_true, Option.map_id']
    · simp only [h, if_false]; exact shards_mapShards ..
  | clear => exact shards_mapShards ..
  | setMaxMemory bytes => exact shards_mapShards ..
  | restore es =>
    show (es.foldl (restoreEntry (now 0)) (db.clear, 0)).1.shards[i]? = _
    rw [restoreLoop_shards, clear, shards_mapShards, Option.map_map, mapShards_shardIndexFor]; rfl
  | ttl _ => exact Option.map_id'.symm
  | existsKey _ => exact Option.map_id'.symm
  | keys => exact Option.map_id'.symm
  | snapshot => exact Option.map_id'.symm

theorem step_shardFor (db : Database) (op : Op) (now : Nat → Int) (key : Bytes) :
    (db.step op now).1.shardFor key =
      onShard db.shardIndexFor db.maxMemoryBytes db.shards.length op now (db.shardIndexFor key)
        (db.shardFor key) := by
  have h := (db.step op now).1.shards_shardFor key
  rw [(db.step_shape op now).1, step_shards, shards_shardFor, Option.map_some] at h
  exact (Option.some.inj h).symm

/-! ### Valid databases -/

/-- Every shard's table is well formed and holds only keys routed to it, and every slice
comes from the limit. -/
structure Inv (db : Database) : Prop where
  valid : ∀ (i : Nat) (s : Shard), db.shards[i]? = some s → s.Valid db.shardIndexFor i
  sliced : ∀ (i : Nat) (s : Shard), db.shards[i]? = some s →
    s.maxMemoryBytes = sliceOf db.maxMemoryBytes db.shards.length

theorem Inv.shardFor {db : Database} (h : db.Inv) (key : Bytes) :
    (db.shardFor key).Valid db.shardIndexFor (db.shardIndexFor key) :=
  h.valid _ _ (db.shards_shardFor key)

/-- What an operation can do to a shard. -/
inductive ShardStep (route : Bytes → Nat) (shards : Nat) (now : Nat → Int) (i : Nat)
    (s : Shard) : Op → Shard → Prop where
  | thin {op : Op} {s' : Shard} : (∀ bytes, op ≠ .setMaxMemory bytes) → s.Thins s' →
      ShardStep route shards now i s op s'
  | store {op : Op} {key : Bytes} (value : Bytes) (expiration : Option Int) :
      (∀ bytes, op ≠ .setMaxMemory bytes) → route key = i →
      ShardStep route shards now i s op (s.write key value expiration).1.evictToFit
  | limit (bytes : Nat) : ShardStep route shards now i s (.setMaxMemory bytes)
      (s.limitTo (sliceOf bytes shards))
  | restore (es : List Entry) : ShardStep route shards now i s (.restore es)
      (s.afterRestore (es.filter fun e => !e.isExpiredAt (now 0) && decide (route e.key = i)))

theorem onShard_step {route : Bytes → Nat} {i : Nat} {s : Shard} (h : s.Valid route i)
    (limit shards : Nat) (op : Op) (now : Nat → Int) :
    ShardStep route shards now i s op (onShard route limit shards op now i s) := by
  have hkeep := Shard.Thins.refl h.holds
  cases op with
  | set key value =>
    unfold onShard; dsimp only
    split
    next hk => exact .store value none (by simp) hk.1
    next => exact .thin (by simp) hkeep
  | setFor key value ttl =>
    unfold onShard; dsimp only
    split
    next hk => exact .store value _ (by simp) hk.1
    next => exact .thin (by simp) hkeep
  | get key =>
    unfold onShard; dsimp only
    split
    next => exact .thin (by simp) (Shard.thins_afterGet h.holds key (now 0))
    next => exact .thin (by simp) hkeep
  | del key =>
    unfold onShard; dsimp only
    split
    next => exact .thin (by simp) (Shard.thins_afterDel h.holds key)
    next => exact .thin (by simp) hkeep
  | removeExpired maxBuckets =>
    unfold onShard; dsimp only
    split
    next => exact .thin (by simp) hkeep
    next => exact .thin (by simp) (Shard.thins_sweep h.holds _ (now i))
  | clear => exact .thin (by simp) (Shard.thins_clear h.holds)
  | setMaxMemory bytes => exact .limit bytes
  | restore es => exact .restore es
  | ttl _ => exact .thin (by simp) hkeep
  | existsKey _ => exact .thin (by simp) hkeep
  | keys => exact .thin (by simp) hkeep
  | snapshot => exact .thin (by simp) hkeep

theorem ShardStep.valid {route : Bytes → Nat} {shards i : Nat} {now : Nat → Int} {s s' : Shard}
    {op : Op} (hstep : ShardStep route shards now i s op s') (h : s.Valid route i) :
    s'.Valid route i := by
  cases hstep with
  | thin _ ht => exact h.thins ht
  | store value expiration _ hk => exact h.store hk value expiration
  | limit bytes =>
    obtain ⟨m, -, h1, -⟩ := Shard.evictToFit_spec
      (s := { s with maxMemoryBytes := sliceOf bytes shards }) h.holds
    exact .of_holds h1 fun e he => h.routed e (List.mem_of_mem_take he)
  | restore es =>
    refine .of_holds (Shard.afterRestore_spec h.holds _).1 fun e he => ?_
    rcases Shard.mem_pushAll _ he with he | he
    · cases he
    · have := (List.mem_filter.1 he).2
      simp only [Bool.and_eq_true, decide_eq_true_eq] at this
      exact this.2

/-- The slice an operation leaves: only `setMaxMemory` changes it. -/
def sliceAfter (shards old : Nat) : Op → Nat
  | .setMaxMemory bytes => sliceOf bytes shards
  | _ => old

theorem sliceAfter_eq {op : Op} (hop : ∀ bytes, op ≠ .setMaxMemory bytes) (shards old : Nat) :
    sliceAfter shards old op = old := by
  cases op with
  | setMaxMemory bytes => exact absurd rfl (hop bytes)
  | _ => rfl

theorem ShardStep.slice {route : Bytes → Nat} {shards i : Nat} {now : Nat → Int} {s s' : Shard}
    {op : Op} (hstep : ShardStep route shards now i s op s') (h : s.Valid route i) :
    s'.maxMemoryBytes = sliceAfter shards s.maxMemoryBytes op := by
  cases hstep with
  | thin hop ht => rw [ht.slice, sliceAfter_eq hop]
  | store value expiration hop hk =>
    obtain ⟨m, -, -, -, hf⟩ := Shard.evictToFit_spec
      (Shard.write_spec h.holds _ value expiration).1
    rw [hf, Shard.write_frame, sliceAfter_eq hop]
  | limit bytes =>
    obtain ⟨m, -, -, -, hf⟩ := Shard.evictToFit_spec
      (s := { s with maxMemoryBytes := sliceOf bytes shards }) h.holds
    show (Shard.evictToFit { s with maxMemoryBytes := sliceOf bytes shards }).maxMemoryBytes = _
    rw [hf]
    rfl
  | restore es => exact (Shard.afterRestore_spec h.holds _).2

theorem Inv.step {db : Database} (h : db.Inv) (op : Op) (now : Nat → Int) :
    (db.step op now).1.Inv := by
  obtain ⟨h1, h2, h3⟩ := db.step_shape op now
  refine ⟨fun i s hs => ?_, fun i s hs => ?_⟩
  · rw [step_shards] at hs
    obtain ⟨s₀, hs₀, rfl⟩ := Option.map_eq_some_iff.1 hs
    rw [h1]
    exact (onShard_step (h.valid i s₀ hs₀) ..).valid (h.valid i s₀ hs₀)
  · rw [step_shards] at hs
    obtain ⟨s₀, hs₀, rfl⟩ := Option.map_eq_some_iff.1 hs
    rw [h2, h3, (onShard_step (h.valid i s₀ hs₀) ..).slice (h.valid i s₀ hs₀)]
    cases op <;> first | rfl | exact h.sliced i s₀ hs₀

/-! ### Construction -/

theorem doubleUntil_pow {n : UInt64} (hn : n.toNat ≤ 2 ^ 63) :
    ∀ (fuel j : Nat) (r : UInt64), r.toNat = 2 ^ j → j ≤ 63 → 63 - j < fuel →
      ∃ k r', doubleUntil n fuel r = some r' ∧ r'.toNat = 2 ^ k ∧ k ≤ 63 ∧ n.toNat ≤ 2 ^ k ∧
        ∀ i, j ≤ i → i < k → 2 ^ i < n.toNat
  | 0, j, r, _, _, hf => by omega
  | fuel + 1, j, r, hr, hj, hf => by
    unfold doubleUntil
    by_cases h : r < n
    · have hlt : 2 ^ j < n.toNat := by rw [← hr]; exact UInt64.lt_iff_toNat_lt.1 h
      have hj' : j < 63 := (Nat.pow_lt_pow_iff_right (by omega)).1 (Nat.lt_of_lt_of_le hlt hn)
      have hpow : 2 ^ (j + 1) ≤ 2 ^ 63 := Nat.pow_le_pow_right (by omega) (by omega)
      have hr' : (r * 2).toNat = 2 ^ (j + 1) := by
        rw [UInt64.toNat_mul, hr, Nat.pow_succ]
        exact Nat.mod_eq_of_lt (by rw [Nat.pow_succ] at hpow; show 2 ^ j * 2 < 2 ^ 64; omega)
      obtain ⟨k, r', h1, h2, h3, h4, h5⟩ :=
        doubleUntil_pow hn fuel (j + 1) (r * 2) hr' (by omega) (by omega)
      rw [if_pos h]
      refine ⟨k, r', h1, h2, h3, h4, fun i hi hik => ?_⟩
      by_cases hij : i = j
      · rw [hij]; exact hlt
      · exact h5 i (by omega) hik
    · rw [if_neg h]
      refine ⟨j, r, rfl, hr, hj, ?_, fun i h1 h2 => by omega⟩
      rw [← hr]
      exact Nat.le_of_not_lt fun h' => h (UInt64.lt_iff_toNat_lt.2 h')

/-- The rounding returns the least power of two that is not below its argument. -/
theorem roundUpToPowerOfTwo_pow {n : UInt64} (hn : n.toNat ≤ 2 ^ 63) :
    ∃ k r, roundUpToPowerOfTwo n = some r ∧ r.toNat = 2 ^ k ∧ k ≤ 63 ∧ n.toNat ≤ 2 ^ k ∧
      ∀ i, i < k → 2 ^ i < n.toNat := by
  obtain ⟨k, r, h1, h2, h3, h4, h5⟩ := doubleUntil_pow hn 65 0 1 (by decide) (by omega) (by omega)
  exact ⟨k, r, h1, h2, h3, h4, fun i hi => h5 i (by omega) hi⟩

theorem ofShards_shards {n shards : UInt64} {h : 0 < shards.toNat} {i : Nat} {s : Shard}
    (hs : (ofShards n shards h).shards[i]? = some s) :
    s = { table := HashTable.new (max (n / shards) 1) } := by
  unfold ofShards at hs
  rw [List.getElem?_replicate] at hs
  split at hs
  · exact (Option.some.inj hs).symm
  · cases hs

/-- A new database: empty, valid and without a limit. -/
structure Fresh (db : Database) : Prop where
  inv : db.Inv
  empty : ∀ (i : Nat) (s : Shard), db.shards[i]? = some s → s.entries = []
  unlimited : db.maxMemoryBytes = 0

theorem ofShards_fresh (n shards : UInt64) (h : 0 < shards.toNat) :
    (ofShards n shards h).Fresh := by
  have hnew := HashTable.new_holds (max (n / shards) 1)
  refine ⟨⟨fun i s hs => ?_, fun i s hs => ?_⟩, fun i s hs => ?_, rfl⟩
  · rw [ofShards_shards hs]; exact .of_holds hnew fun e he => by cases he
  · rw [ofShards_shards hs]; rfl
  · rw [ofShards_shards hs]; exact hnew.entries_eq

/-- The databases a program can get hold of: any operations, at any readings of the
clock. -/
inductive Reachable : Database → Prop where
  | new {n shardCount : UInt64} {db : Database} (h : new n shardCount = some db) : Reachable db
  | step {db : Database} (h : Reachable db) (op : Op) (now : Nat → Int) :
      Reachable (db.step op now).1

theorem exists_ofShards {n shardCount : UInt64} {db : Database} (h : new n shardCount = some db) :
    ∃ shards hpos, db = ofShards n shards hpos := by
  unfold new at h
  split at h
  · cases h
  · split at h
    · exact ⟨_, _, (Option.some.inj h).symm⟩
    · cases h

theorem fresh_of_new {n shardCount : UInt64} {db : Database} (h : new n shardCount = some db) :
    db.Fresh := by
  obtain ⟨shards, hpos, rfl⟩ := exists_ofShards h
  exact ofShards_fresh ..

theorem Reachable.inv {db : Database} (h : db.Reachable) : db.Inv := by
  induction h with
  | new h => exact (fresh_of_new h).inv
  | step _ op now ih => exact ih.step op now

end Database

end VCache
