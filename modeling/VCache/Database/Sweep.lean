import Mathlib.Algebra.Order.Floor.Div
import VCache.Database.Reads
import VCache.Lib.Cycle
import VCache.Lib.Sums

/-!
# Sweeping

A call of `removeExpired` scans a window of each shard's buckets, from where the last call
stopped. Calls in a row lay their windows end to end around the bucket array, so enough of
them visit every bucket; on the way they take out expired entries only.
-/

namespace VCache

open VCache.Lib

theorem Entry.isExpiredAt_mono {e : Entry} {t t' : Int} (ht : t ≤ t') (h : e.isExpiredAt t = true) :
    e.isExpiredAt t' = true := by
  unfold Entry.isExpiredAt at *
  cases hx : e.expiration with
  | none => rw [hx] at h; cases h
  | some x => rw [hx] at h; simp at h ⊢; omega

theorem Entry.isExpiredAt_anti {e : Entry} {t t' : Int} (hle : t ≤ t')
    (h : e.isExpiredAt t' = false) : e.isExpiredAt t = false := by
  cases hx : e.isExpiredAt t with
  | false => rfl
  | true => rw [Entry.isExpiredAt_mono hle hx] at h; cases h

/-! ## The buckets of one scan -/

namespace HashTable

/-- The window of `removeIf`, in the order of its loop. -/
def visits (t : HashTable) (firstBucket bucketsToScan : Nat) : List Nat :=
  (List.range (min bucketsToScan t.bucketCount)).map fun offset =>
    (firstBucket + offset) % t.bucketCount

def scanBucket (predicate : Entry → Bool) (r : HashTable × Nat) (index : Nat) : HashTable × Nat :=
  let scanned := removeIfChain predicate index r.1 (r.1.chain index)
  (scanned.1, r.2 + scanned.2)

theorem removeIfChain_bucketCount (pred : Entry → Bool) (i : Nat) :
    ∀ (c : List Ptr) (t : HashTable),
      (removeIfChain pred i t c).1.buckets.length = t.buckets.length
  | [], _ => rfl
  | p :: c, t => by
    unfold removeIfChain
    split
    · exact (removeIfChain_bucketCount pred i c _).trans (detach_bucketCount t i p)
    · exact removeIfChain_bucketCount pred i c t

theorem removeIfLoop_eq_foldl (pred : Entry → Bool) (first : Nat) :
    ∀ (count offset : Nat) (t : HashTable) (n : Nat),
      ((List.range' offset count).map fun o => (first + o) % t.buckets.length).foldl
          (scanBucket pred) (t, n) =
        ((removeIfLoop pred first offset count t).1,
          n + (removeIfLoop pred first offset count t).2)
  | 0, _, _, _ => rfl
  | count + 1, offset, t, n => by
    have hcount := removeIfChain_bucketCount pred ((first + offset) % t.buckets.length)
      (t.chain ((first + offset) % t.buckets.length)) t
    have ih := removeIfLoop_eq_foldl pred first count (offset + 1)
      (removeIfChain pred ((first + offset) % t.buckets.length) t
        (t.chain ((first + offset) % t.buckets.length))).1
    rw [hcount] at ih
    rw [List.range'_succ, List.map_cons, List.foldl_cons, scanBucket, ih, removeIfLoop,
      Nat.add_assoc]

/-- `removeIf` goes through the buckets of its window. -/
theorem removeIf_eq_foldl (t : HashTable) (first count : Nat) (pred : Entry → Bool) :
    t.removeIf first count pred = (t.visits first count).foldl (scanBucket pred) (t, 0) := by
  unfold removeIf visits
  split
  next hnone =>
    have hzero : min count t.bucketCount = 0 := by
      simp only [Bool.or_eq_true, List.isEmpty_iff, beq_iff_eq] at hnone
      rcases hnone with hnone | hnone
      · rw [bucketCount, hnone]
        exact Nat.min_zero count
      · rw [hnone]
        exact Nat.zero_min _
    rw [hzero]
    rfl
  next =>
    rw [List.range_eq_range', bucketCount, removeIfLoop_eq_foldl]
    simp only [Nat.zero_add]

theorem visits_nodup (t : HashTable) (first count : Nat) : (t.visits first count).Nodup := by
  refine List.Nodup.map_on (fun o ho o' ho' h => ?_) List.nodup_range
  have hle := Nat.min_le_right count t.bucketCount
  rw [List.mem_range] at ho ho'
  exact offset_inj first (by omega) (by omega) h

end HashTable

/-! ## One shard -/

namespace Shard

def start (s : Shard) : Nat := if s.sweepCursor ≥ s.table.bucketCount then 0 else s.sweepCursor

def visits (s : Shard) (perShard : Nat) : List Nat :=
  s.table.visits s.start (min perShard s.table.bucketCount)

theorem sweep_eq_foldl (s : Shard) (perShard : Nat) (now : Int) :
    ((s.sweep perShard now).1.table, (s.sweep perShard now).2) =
      (s.visits perShard).foldl (HashTable.scanBucket fun entry => entry.isExpiredAt now)
        (s.table, 0) := by
  unfold sweep visits
  dsimp only
  split
  next hzero => simp [HashTable.visits, hzero]
  next => exact HashTable.removeIf_eq_foldl ..

/-- Sweeps in a row, one for each reading of the clock. -/
def sweeps (perShard : Nat) (s : Shard) : List Int → Shard
  | [] => s
  | now :: times => sweeps perShard (s.sweep perShard now).1 times

theorem sweep_window {s : Shard} {es : List Entry} (h : s.table.Holds es)
    (hb : s.table.bucketCount ≠ 0) (perShard : Nat) (now : Int) :
    (s.sweep perShard now).1.table.Holds (es.filter fun e =>
        !(HashTable.inWindow s.start 0 (min perShard s.table.bucketCount) s.table.bucketCount
          (s.table.bucketIndexFor e.key) && e.isExpiredAt now)) ∧
      (s.sweep perShard now).1.start =
        (s.start + min perShard s.table.bucketCount) % s.table.bucketCount := by
  obtain ⟨h1, h2, -⟩ := h.removeIf s.start (min perShard s.table.bucketCount)
    fun entry => entry.isExpiredAt now
  rw [Nat.min_eq_left (Nat.min_le_right perShard s.table.bucketCount)] at h1
  unfold sweep
  rw [if_neg hb]
  refine ⟨h1, ?_⟩
  have hlt := Nat.mod_lt (s.start + min perShard s.table.bucketCount) (Nat.pos_of_ne_zero hb)
  rw [start]
  exact (if_neg (by dsimp only; rw [← start, h2]; omega)).trans rfl

theorem sweeps_sublist (perShard : Nat) : ∀ (times : List Int) {s : Shard} {es : List Entry},
    s.table.Holds es → (sweeps perShard s times).table.Holds (sweeps perShard s times).entries ∧
      (sweeps perShard s times).entries.Sublist es
  | [], s, es, h => by
    rw [show (sweeps perShard s []).entries = es from h.entries_eq]
    exact ⟨h, .refl _⟩
  | now :: times, s, es, h => by
    obtain ⟨gone, -, h1, -⟩ := sweep_spec h perShard now
    obtain ⟨h2, h3⟩ := sweeps_sublist perShard times h1
    exact ⟨h2, h3.trans List.filter_sublist⟩

theorem mem_sweeps (perShard : Nat) {e : Entry} : ∀ (times : List Int) {s : Shard}
    {es : List Entry}, s.table.Holds es → e ∈ es → (∀ t ∈ times, e.isExpiredAt t = false) →
    e ∈ (sweeps perShard s times).entries
  | [], s, es, h, he, _ => by
    rw [show (sweeps perShard s []).entries = es from h.entries_eq]
    exact he
  | now :: times, s, es, h, he, ht => by
    obtain ⟨gone, hgone, h1, -⟩ := sweep_spec h perShard now
    refine mem_sweeps perShard times h1 (List.mem_filter.2 ⟨he, ?_⟩) fun t ht' =>
      ht t (List.mem_cons_of_mem _ ht')
    have hlive := ht now List.mem_cons_self
    cases hg : gone e with
    | false => rfl
    | true => rw [hgone e hg] at hlive; cases hlive

/-- An entry that has expired throughout does not survive the sweep whose window its bucket
is in. -/
theorem not_mem_sweeps (perShard : Nat) {e : Entry} : ∀ (times : List Int) {s : Shard}
    {es : List Entry}, s.table.Holds es → s.table.bucketCount ≠ 0 →
    (∀ t ∈ times, e.isExpiredAt t = true) →
    (∃ j, j < times.length ∧ ∃ o, o < min perShard s.table.bucketCount ∧
      (s.start + j * min perShard s.table.bucketCount + o) % s.table.bucketCount =
        s.table.bucketIndexFor e.key) →
    e ∉ (sweeps perShard s times).entries
  | [], s, es, h, hb, ht, ⟨j, hj, _⟩ => absurd hj (Nat.not_lt_zero j)
  | now :: times, s, es, h, hb, ht, ⟨j, hj, o, ho, hwin⟩ => by
    obtain ⟨h1, hstart⟩ := sweep_window h hb perShard now
    have hcount := (sweep_spec h perShard now).choose_spec.2.2
    have hslot : (s.sweep perShard now).1.table.bucketIndexFor e.key =
        s.table.bucketIndexFor e.key := congrArg (HashTable.slotFor · e.key) hcount
    cases j with
    | zero =>
      intro hmem
      have hkept := (sweeps_sublist perShard times h1).2.subset hmem
      have hin : HashTable.inWindow s.start 0 (min perShard s.table.bucketCount)
          s.table.bucketCount (s.table.bucketIndexFor e.key) = true := by
        unfold HashTable.inWindow
        rw [List.any_eq_true]
        rw [Nat.zero_mul, Nat.add_zero] at hwin
        exact ⟨o, by simpa using ho, by simp [hwin]⟩
      have := (List.mem_filter.1 hkept).2
      rw [hin, ht now List.mem_cons_self] at this
      cases this
    | succ j =>
      refine not_mem_sweeps perShard times h1 (by rw [hcount]; exact hb)
        (fun t ht' => ht t (List.mem_cons_of_mem _ ht')) ⟨j, by simpa using hj, o, ?_, ?_⟩
      · rw [hcount]; exact ho
      · rw [hcount, hslot, hstart, ← hwin, Nat.add_assoc, Nat.mod_add_mod]
        congr 1
        rw [Nat.succ_mul]
        omega

end Shard

/-! ## The database -/

namespace Database

def largestBucketCount (db : Database) : Nat :=
  (db.shards.map fun shard => shard.table.bucketCount).foldr max 0

/-- Calls of `removeExpired` in a row, and what they return. -/
def sweeps (maxBuckets : Nat) (db : Database) : List (Nat → Int) → Database × List Nat
  | [] => (db, [])
  | now :: calls =>
    let r := db.removeExpired maxBuckets now
    let rest := sweeps maxBuckets r.1 calls
    (rest.1, r.2 :: rest.2)

/-- The buckets a call may scan in each shard. -/
def perShard (db : Database) (maxBuckets : Nat) : Nat := max (maxBuckets / db.shardCount) 1

/-- What consecutive sweeps do, in the words of a caller. -/
structure Reclaims (db : Database) (maxBuckets : Nat) (calls : List (Nat → Int)) : Prop where
  reclaimed : ∀ e : Entry,
    (∀ first, calls.head? = some first → e.isExpiredAt (first (db.shardIndexFor e.key)) = true) →
    (db.sweeps maxBuckets calls).1.lookup e.key ≠ some e
  kept : ∀ e : Entry, db.lookup e.key = some e →
    (∀ last, calls.getLast? = some last →
      e.isExpiredAt (last (db.shardIndexFor e.key)) = false) →
    (db.sweeps maxBuckets calls).1.lookup e.key = some e
  /-- A call visits some buckets of each shard, and none of them twice. -/
  once : ∀ before now after, calls = before ++ now :: after →
    ∀ (i : Nat) (s : Shard), (db.sweeps maxBuckets before).1.shards[i]? = some s →
      (s.visits (db.perShard maxBuckets)).Nodup ∧
        ((s.sweep (db.perShard maxBuckets) (now i)).1.table,
            (s.sweep (db.perShard maxBuckets) (now i)).2) =
          (s.visits (db.perShard maxBuckets)).foldl
            (HashTable.scanBucket fun entry => entry.isExpiredAt (now i)) (s.table, 0)
  order : ∀ (i : Nat) (s s' : Shard), db.shards[i]? = some s →
    (db.sweeps maxBuckets calls).1.shards[i]? = some s' → s'.entries.Sublist s.entries
  counted : (db.sweeps maxBuckets calls).2.sum + (db.sweeps maxBuckets calls).1.size = db.size

section
variable {maxBuckets : Nat} (hm : maxBuckets ≠ 0)
include hm

theorem removeExpired_shards (db : Database) (now : Nat → Int) (i : Nat) :
    (db.removeExpired maxBuckets now).1.shards[i]? =
      (db.shards[i]?).map fun s => (s.sweep (db.perShard maxBuckets) (now i)).1 := by
  unfold removeExpired
  rw [if_neg hm]
  exact db.shards_mapShards ..

theorem removeExpired_shape (db : Database) (now : Nat → Int) :
    db.SameShape (db.removeExpired maxBuckets now).1 := by
  unfold removeExpired
  rw [if_neg hm]
  exact sameShape_mapShards ..

theorem sweeps_shards : ∀ (calls : List (Nat → Int)) (db : Database) (i : Nat),
    (db.sweeps maxBuckets calls).1.shards[i]? =
      (db.shards[i]?).map fun s => s.sweeps (db.perShard maxBuckets) (calls.map (· i))
  | [], db, i => Option.map_id'.symm
  | now :: calls, db, i => by
    have hshape := removeExpired_shape hm db now
    have hper :
        (db.removeExpired maxBuckets now).1.perShard maxBuckets = db.perShard maxBuckets := by
      unfold perShard shardCount
      rw [hshape.count]
    show ((db.removeExpired maxBuckets now).1.sweeps maxBuckets calls).1.shards[i]? = _
    rw [sweeps_shards calls, hper, removeExpired_shards hm, Option.map_map]
    rfl

theorem sweeps_route : ∀ (calls : List (Nat → Int)) (db : Database) (key : Bytes),
    (db.sweeps maxBuckets calls).1.shardIndexFor key = db.shardIndexFor key
  | [], _, _ => rfl
  | now :: calls, db, key =>
    (sweeps_route calls _ key).trans (congrFun (removeExpired_shape hm db now).route key)

end

theorem sweeps_inv (maxBuckets : Nat) : ∀ (calls : List (Nat → Int)) {db : Database}, db.Inv →
    (db.sweeps maxBuckets calls).1.Inv
  | [], _, h => h
  | now :: calls, _, h => sweeps_inv maxBuckets calls (h.step (.removeExpired maxBuckets) now)

theorem Inv.lookup_sweeps {db : Database} (h : db.Inv) {maxBuckets : Nat} (hm : maxBuckets ≠ 0)
    (calls : List (Nat → Int)) (e : Entry) :
    (db.sweeps maxBuckets calls).1.lookup e.key = some e ↔
      e ∈ ((db.shardFor e.key).sweeps (db.perShard maxBuckets)
        (calls.map (· (db.shardIndexFor e.key)))).entries := by
  rw [(sweeps_inv maxBuckets calls h).lookup_iff]
  have hs := (db.sweeps maxBuckets calls).1.shards_shardFor e.key
  rw [sweeps_route hm, sweeps_shards hm, shards_shardFor, Option.map_some] at hs
  rw [Option.some.inj hs]

theorem Inv.removeExpired_counted {db : Database} (h : db.Inv) (maxBuckets : Nat)
    (now : Nat → Int) :
    (db.removeExpired maxBuckets now).1.size + (db.removeExpired maxBuckets now).2 = db.size := by
  unfold removeExpired
  split
  · rfl
  · dsimp only [size, mapShards]
    rw [map_mapIdx]
    exact sum_mapIdx_add fun i s hs => Shard.sweep_size (h.valid i s hs).holds _ _

theorem sweeps_counted (maxBuckets : Nat) : ∀ (calls : List (Nat → Int)) {db : Database}, db.Inv →
    (db.sweeps maxBuckets calls).2.sum + (db.sweeps maxBuckets calls).1.size = db.size
  | [], db, _ => Nat.zero_add db.size
  | now :: calls, db, h => by
    have hfirst := h.removeExpired_counted maxBuckets now
    have hrest := sweeps_counted maxBuckets calls (h.step (.removeExpired maxBuckets) now)
    show (_ :: _ : List Nat).sum + _ = _
    rw [List.sum_cons, Nat.add_assoc]
    exact (congrArg _ hrest).trans ((Nat.add_comm ..).trans hfirst)

theorem bucketCount_le_largest {db : Database} {s : Shard} (hs : s ∈ db.shards) :
    s.table.bucketCount ≤ db.largestBucketCount := by
  unfold largestBucketCount
  have hmem : s.table.bucketCount ∈ db.shards.map fun shard => shard.table.bucketCount :=
    List.mem_map_of_mem hs
  revert hmem
  generalize db.shards.map (fun shard => shard.table.bucketCount) = counts
  intro hmem
  induction counts with
  | nil => cases hmem
  | cons c counts ih =>
    rw [List.foldr_cons]
    rcases List.mem_cons.1 hmem with rfl | hmem
    · exact Nat.le_max_left ..
    · exact (ih hmem).trans (Nat.le_max_right ..)

/-- Windows of `p` buckets, as many as it takes for the largest shard, cover each shard. -/
theorem windows_cover {b largest p n : Nat} (hb : b ≠ 0) (hle : b ≤ largest) (hp : 0 < p)
    (hn : largest ⌈/⌉ p ≤ n) : b ≤ n * min p b := by
  rw [ceilDiv_le_iff_le_mul hp] at hn
  rcases Nat.le_total p b with h | h
  · rw [Nat.min_eq_left h, Nat.mul_comm]; omega
  · have hpos : 0 < n := Nat.pos_of_ne_zero fun h0 => by rw [h0, Nat.mul_zero] at hn; omega
    rw [Nat.min_eq_right h]
    exact Nat.le_mul_of_pos_left b hpos

theorem Inv.sweeps_reclaimed {db : Database} (h : db.Inv) {maxBuckets : Nat}
    (hm : maxBuckets ≠ 0) {calls : List (Nat → Int)}
    (hcalls : db.largestBucketCount ⌈/⌉ db.perShard maxBuckets ≤ calls.length) {e : Entry}
    (hx : ∀ now ∈ calls, e.isExpiredAt (now (db.shardIndexFor e.key)) = true) :
    (db.sweeps maxBuckets calls).1.lookup e.key ≠ some e := by
  rw [Ne, h.lookup_sweeps hm]
  intro hmem
  have hholds := (h.shardFor e.key).holds
  have hin := (Shard.sweeps_sublist _ _ hholds).2.subset hmem
  have hb := (hholds.load (List.ne_nil_of_mem hin)).1
  obtain ⟨⟨l, hl, -⟩, -⟩ := id hholds
  have hslot : (db.shardFor e.key).table.bucketIndexFor e.key <
      (db.shardFor e.key).table.bucketCount :=
    hl.toStored.slot_lt (by simpa [HashTable.bucketCount] using hb) e.key
  have hcover := windows_cover hb
    (bucketCount_le_largest (List.mem_of_getElem? (db.shards_shardFor e.key)))
    (Nat.le_max_right (maxBuckets / db.shardCount) 1) hcalls
  refine Shard.not_mem_sweeps _ _ hholds hb (fun t ht => ?_) ?_ hmem
  · obtain ⟨now, hnow, rfl⟩ := List.mem_map.1 ht
    exact hx now hnow
  · obtain ⟨j, hj, o, ho, hwin⟩ := exists_window (db.shardFor e.key).start hslot hcover
    exact ⟨j, by simpa using hj, o, ho, hwin⟩

theorem Inv.sweeps_kept {db : Database} (h : db.Inv) {maxBuckets : Nat} (hm : maxBuckets ≠ 0)
    {calls : List (Nat → Int)} {e : Entry} (he : db.lookup e.key = some e)
    (hx : ∀ now ∈ calls, e.isExpiredAt (now (db.shardIndexFor e.key)) = false) :
    (db.sweeps maxBuckets calls).1.lookup e.key = some e := by
  rw [h.lookup_sweeps hm]
  refine Shard.mem_sweeps _ _ (h.shardFor e.key).holds (h.lookup_iff.1 he) fun t ht => ?_
  obtain ⟨now, hnow, rfl⟩ := List.mem_map.1 ht
  exact hx now hnow

/-- **Sweeping reclaims everything expired and nothing else**: `⌈B / p⌉` calls in a row, with
`p` buckets a shard and the largest shard `B` buckets long. -/
theorem sweeps_reclaim {db : Database} (hdb : db.Reachable) {maxBuckets : Nat}
    (hm : 1 ≤ maxBuckets) {calls : List (Nat → Int)}
    (hcalls : db.largestBucketCount ⌈/⌉ db.perShard maxBuckets ≤ calls.length)
    (hclock : calls.Pairwise fun now now' => ∀ i, now i ≤ now' i) :
    db.Reclaims maxBuckets calls := by
  have h := hdb.inv
  have hm0 : maxBuckets ≠ 0 := by omega
  refine ⟨fun e hfirst => h.sweeps_reclaimed hm0 hcalls fun now hnow => ?_,
    fun e he hlast => h.sweeps_kept hm0 he fun now hnow => ?_,
    fun _ now _ _ i s _ => ⟨s.table.visits_nodup .., s.sweep_eq_foldl ..⟩,
    fun i s s' hs hs' => ?_, sweeps_counted maxBuckets calls h⟩
  · -- expired at the first call, so at all of them
    cases calls with
    | nil => cases hnow
    | cons first rest =>
      rcases List.mem_cons.1 hnow with rfl | hrest
      · exact hfirst now rfl
      · exact Entry.isExpiredAt_mono ((List.pairwise_cons.1 hclock).1 now hrest _)
          (hfirst first rfl)
  · -- live at the last call, so at all of them
    cases hl : calls.getLast? with
    | none =>
      rw [List.getLast?_eq_none_iff.1 hl] at hnow
      cases hnow
    | some last =>
      refine Entry.isExpiredAt_anti ?_ (hlast last hl)
      obtain ⟨init, rfl⟩ := List.getLast?_eq_some_iff.1 hl
      rcases List.mem_append.1 hnow with hinit | htail
      · exact (List.pairwise_append.1 hclock).2.2 now hinit last (by simp) _
      · rw [List.mem_singleton.1 htail]
  · rw [sweeps_shards hm0, hs, Option.map_some] at hs'
    obtain rfl := Option.some.inj hs'
    exact (Shard.sweeps_sublist _ _ (h.valid i s hs).holds).2

/-- One shard, one key that lives for a second from time zero. -/
def lapsing : Database := (single.setFor [107] [118] 1 0).1

theorem lapsing_reachable : lapsing.Reachable :=
  .step (@Reachable.new 1 1 _ rfl) (.setFor [107] [118] 1) fun _ => 0

/-- Its two buckets, scanned one at a time after the second is over. -/
theorem sweeps_reclaim_lapsing :
    lapsing.Reclaims 1 [fun _ => 2 * second, fun _ => 3 * second] :=
  sweeps_reclaim lapsing_reachable (Nat.le_refl 1) (by decide +kernel)
    (List.pairwise_pair.2 fun _ => by decide)

/-! ## What a write sees of the sweeper -/

/-- Both forms of `set`: with a TTL in seconds, or without. -/
def setAt (db : Database) (key value : Bytes) (ttl : Option Int) (now : Int) :
    Database × SetOutcome :=
  match ttl with
  | none => db.set key value
  | some ttl => db.setFor key value ttl now

theorem Inv.setWith_outcome {db : Database} (h : db.Inv) (key value : Bytes) (x : Option Int) :
    (db.setWith key value x).2 =
      if db.fitsWithinLimit key value then
        if (db.lookup key).isNone then .inserted else .updated
      else .rejected := by
  unfold setWith
  cases hfit : db.fitsWithinLimit key value with
  | false => rfl
  | true =>
    obtain ⟨-, hflag, -⟩ := Shard.write_spec (h.shardFor key).holds key value x
    rw [← h.lookup_eq] at hflag
    simp only [Bool.not_true, Bool.false_eq_true, if_false, if_true, hflag]

theorem Inv.setAt_outcome {db : Database} (h : db.Inv) (key value : Bytes) (ttl : Option Int)
    (now : Int) :
    (db.setAt key value ttl now).2 =
      if db.fitsWithinLimit key value then
        if (db.lookup key).isNone then .inserted else .updated
      else .rejected := by
  cases ttl with
  | none => exact h.setWith_outcome key value none
  | some ttl => exact h.setWith_outcome key value _

theorem sweeps_fits {maxBuckets : Nat} (hm : maxBuckets ≠ 0) (key value : Bytes) :
    ∀ (calls : List (Nat → Int)) (db : Database),
      (db.sweeps maxBuckets calls).1.fitsWithinLimit key value = db.fitsWithinLimit key value
  | [], _ => rfl
  | now :: calls, db => by
    refine (sweeps_fits hm key value calls _).trans ?_
    unfold fitsWithinLimit
    rw [(removeExpired_shape hm db now).limit]

theorem Inv.lookup_of_sweeps {db : Database} (h : db.Inv) {maxBuckets : Nat} (hm : maxBuckets ≠ 0)
    {calls : List (Nat → Int)} {key : Bytes} {e : Entry}
    (he : (db.sweeps maxBuckets calls).1.lookup key = some e) : db.lookup key = some e := by
  obtain rfl := (sweeps_inv maxBuckets calls h).key_of_lookup he
  rw [h.lookup_sweeps hm] at he
  exact h.lookup_iff.2 ((Shard.sweeps_sublist _ _ (h.shardFor e.key).holds).2.subset he)

theorem Inv.lookup_sweeps_eq {db : Database} (h : db.Inv) {maxBuckets : Nat} (hm : maxBuckets ≠ 0)
    {calls : List (Nat → Int)} {key : Bytes} {now : Int}
    (hcalls : ∀ call ∈ calls, ∀ i, call i ≤ now)
    (hlive : ∀ e, db.lookup key = some e → e.isExpiredAt now = false) :
    (db.sweeps maxBuckets calls).1.lookup key = db.lookup key := by
  cases he : db.lookup key with
  | none =>
    cases he' : (db.sweeps maxBuckets calls).1.lookup key with
    | none => rfl
    | some e => rw [h.lookup_of_sweeps hm he'] at he; cases he
  | some e =>
    have hnot := hlive e he
    obtain rfl := h.key_of_lookup he
    exact h.sweeps_kept hm he fun call hcall => Entry.isExpiredAt_anti (hcalls call hcall _) hnot

theorem Inv.exists_sweeps {db : Database} (h : db.Inv) {e : Entry} {now : Int}
    (hx : e.isExpiredAt now = true) :
    ∃ calls, (∀ call ∈ calls, ∀ i, call i ≤ now) ∧
      (db.sweeps 1 calls).1.lookup e.key ≠ some e := by
  refine ⟨List.replicate (db.largestBucketCount ⌈/⌉ db.perShard 1) fun _ => now, ?_, ?_⟩
  · intro call hcall i
    rw [List.eq_of_mem_replicate hcall]
  · apply h.sweeps_reclaimed (by decide) (Nat.le_of_eq List.length_replicate.symm)
    intro call hcall
    rw [List.eq_of_mem_replicate hcall]
    exact hx

/-- A write that is let in agrees with `exists`, and cannot tell how far the sweeper has
come, exactly when no expired entry is stored under its key. -/
theorem setAt_agrees_iff {db : Database} (hdb : db.Reachable) (key value : Bytes)
    (ttl : Option Int) (now : Int) (hset : (db.setAt key value ttl now).2 ≠ .rejected) :
    ((((db.setAt key value ttl now).2 = .updated ↔ db.existsKey key now = true) ∧
        ((db.setAt key value ttl now).2 = .inserted ↔ db.existsKey key now = false)) ↔
      ∀ e, db.lookup key = some e → e.isExpiredAt now = false) ∧
    ((∀ maxBuckets calls, 1 ≤ maxBuckets → (∀ call ∈ calls, ∀ i, call i ≤ now) →
        ((db.sweeps maxBuckets calls).1.setAt key value ttl now).2 =
          (db.setAt key value ttl now).2) ↔
      ∀ e, db.lookup key = some e → e.isExpiredAt now = false) := by
  have h := hdb.inv
  have hout := h.setAt_outcome key value ttl now
  have hfit : db.fitsWithinLimit key value = true := by
    cases hf : db.fitsWithinLimit key value with
    | true => rfl
    | false => rw [hf] at hout; exact absurd hout hset
  rw [hfit, if_pos rfl] at hout
  refine ⟨?_, fun hsame e he => ?_, fun hlive maxBuckets calls hm hcalls => ?_⟩
  · rw [hout, existsKey_eq, live]
    cases he : db.lookup key with
    | none => simp
    | some e => cases hx : e.isExpiredAt now <;> simp [Option.filter, hx]
  · cases hx : e.isExpiredAt now with
    | false => rfl
    | true =>
      obtain rfl := h.key_of_lookup he
      obtain ⟨calls, hcalls, hgone⟩ := h.exists_sweeps hx
      have hnone : (db.sweeps 1 calls).1.lookup e.key = none := by
        cases he' : (db.sweeps 1 calls).1.lookup e.key with
        | none => rfl
        | some e' =>
          have := h.lookup_of_sweeps (by decide) he'
          rw [he] at this
          obtain rfl := Option.some.inj this
          exact absurd he' hgone
      have hs := hsame 1 calls (Nat.le_refl 1) hcalls
      rw [(sweeps_inv 1 calls h).setAt_outcome, sweeps_fits (by decide), hfit, if_pos rfl, hout,
        hnone, he] at hs
      cases hs
  · have hm0 : maxBuckets ≠ 0 := by omega
    rw [(sweeps_inv maxBuckets calls h).setAt_outcome, sweeps_fits hm0, hfit, if_pos rfl, hout,
      h.lookup_sweeps_eq hm0 hcalls hlive]

/-- A key whose second is over, before the sweeper comes by: `exists` denies it and `set`
reports an update. After the sweep the same `set` reports an insertion. -/
theorem setAt_disagrees : lapsing.Reachable ∧ lapsing.existsKey [107] (2 * second) = false ∧
    (lapsing.setAt [107] [119] none (2 * second)).2 = .updated ∧
    ((lapsing.sweeps 2 [fun _ => 2 * second]).1.setAt [107] [119] none (2 * second)).2 =
      .inserted := by
  refine ⟨lapsing_reachable, ?_⟩
  decide +kernel

/-- While the second lasts they agree. -/
theorem setAt_agrees_iff_lapsing :
    ((lapsing.setAt [107] [119] (some 5) 0).2 = .updated ↔ lapsing.existsKey [107] 0 = true) ∧
      ((lapsing.setAt [107] [119] (some 5) 0).2 = .inserted ↔ lapsing.existsKey [107] 0 = false) :=
  (setAt_agrees_iff lapsing_reachable [107] [119] (some 5) 0 (by decide +kernel)).1.2 (by
    intro e he
    have : lapsing.lookup [107] = some ⟨[107], [118], some second⟩ := by decide +kernel
    rw [this] at he
    obtain rfl := Option.some.inj he
    decide)

end Database

end VCache
