import Mathlib.Order.Bounds.Basic
import VCache.Database.Recency

/-!
# Eviction

`evictToFit` keeps the longest part of the recency list that the slice has room for, and
never less than its head. A write puts its own key at the head, so it is there to be read
when the call returns.
-/

namespace VCache

open VCache.Lib

namespace Shard

/-! ## The loop ends by itself -/

def overLimit (s : Shard) : Prop :=
  s.table.memoryUsage > s.maxMemoryBytes ∧ s.table.size > 1

/-- As many rounds as there are entries are enough: more change nothing. -/
theorem evictLoop_succ : ∀ (fuel : Nat) {s : Shard} {es : List Entry}, s.table.Holds es →
    es.length ≤ fuel → evictLoop (fuel + 1) s = evictLoop fuel s
  | 0, s, es, h, hfuel => by
    have hsize := h.size_eq
    simp only [evictLoop]
    exact if_neg (by omega)
  | fuel + 1, s, es, h, hfuel => by
    rw [evictLoop, evictLoop]
    split
    next hg =>
      obtain ⟨h1, -, -⟩ := h.evictOldest
      cases hev : s.table.evictOldest with
      | mk table victim =>
        rw [hev] at h1
        cases victim with
        | none => rfl
        | some v => exact evictLoop_succ fuel h1 (by rw [List.length_dropLast]; omega)
    next => rfl

theorem evictLoop_of_le {s : Shard} {es : List Entry} (h : s.table.Holds es) {fuel : Nat}
    (hf : s.table.size ≤ fuel) : evictLoop fuel s = evictLoop s.table.size s := by
  induction fuel, hf using Nat.le_induction with
  | base => rfl
  | succ fuel hf ih => rw [evictLoop_succ fuel h (by rw [← h.size_eq]; exact hf), ih]

/-! ## Where it cuts -/

/-- How many of the latest entries fit into the limit. -/
def fitting (cost : Nat → Nat) (limit n : Nat) : Set Nat :=
  {j | 1 ≤ j ∧ j ≤ n ∧ cost j ≤ limit}

theorem Cut.greatest {cost : Nat → Nat} {limit n m : Nat} (h : Cut cost limit n m) (hn : 1 ≤ n) :
    IsGreatest (fitting cost limit n) m ∨ fitting cost limit n = ∅ ∧ m = 1 := by
  have hpos := h.pos hn
  by_cases hc : cost m ≤ limit
  · refine .inl ⟨⟨hpos, h.le, hc⟩, fun j hj => ?_⟩
    by_contra hlt
    exact Nat.not_le_of_gt (h.longest j (Nat.lt_of_not_le hlt) hj.2.1) hj.2.2
  · have hm : m = 1 := by have := h.fits; omega
    refine .inr ⟨Set.eq_empty_iff_forall_notMem.2 fun j hj => ?_, hm⟩
    by_cases hj1 : j = m
    · exact hc (hj1 ▸ hj.2.2)
    · exact Nat.not_le_of_gt (h.longest j (by have := hj.1; omega) hj.2.1) hj.2.2

/-- **Eviction is exact.** It ends, and leaves the longest part of the recency list that
fits, or its head. -/
theorem evictToFit_exact (s : Shard) (h : s.table.RepInv) (hslice : s.maxMemoryBytes ≠ 0)
    (hn : s.entries ≠ []) :
    (∀ fuel, s.table.size ≤ fuel → evictLoop fuel s = s.evictToFit) ∧ ¬ s.evictToFit.overLimit ∧
    ∃ m,
      (IsGreatest (fitting (fun j => usageOf s.table.bucketCount (s.entries.take j))
          s.maxMemoryBytes s.entries.length) m ∨
        fitting (fun j => usageOf s.table.bucketCount (s.entries.take j)) s.maxMemoryBytes
          s.entries.length = ∅ ∧ m = 1) ∧
      s.evictToFit.table.RepInv ∧ s.evictToFit.entries = s.entries.take m ∧
      s.evictToFit.table.bucketCount = s.table.bucketCount ∧
      s.evictToFit = { s with table := s.evictToFit.table
                              evicted := s.evicted + (s.entries.length - m) } := by
  have hes : s.table.Holds s.entries := h.holds
  have hloop : s.evictToFit = evictLoop s.table.size s := by rw [evictToFit, if_neg hslice]
  obtain ⟨m, hcut, hholds, hbuckets, hframe⟩ := evictToFit_spec hes
  rw [CutsAt, if_neg hslice] at hcut
  refine ⟨fun fuel hf => ?_, ?_, m, ?_, hholds.repInv, hholds.entries_eq, hbuckets, hframe⟩
  · rw [hloop, evictLoop_of_le hes hf]
  · rintro ⟨h1, h2⟩
    have husage : s.evictToFit.table.memoryUsage =
        usageOf s.table.bucketCount (s.entries.take m) := by
      rw [← hbuckets]; exact hholds.memoryUsage_eq
    have hsize := hholds.size_eq
    rw [List.length_take] at hsize
    rw [husage, hframe] at h1
    have := hcut.fits
    dsimp only at h1 this
    omega
  · exact hcut.greatest (List.length_pos_of_ne_nil hn)

def crowded : Shard where
  table := ((((HashTable.new 1).put [1] []).1.put [2] []).1.put [3] []).1
  maxMemoryBytes := 400

theorem evictToFit_exact_crowded :
    ¬ crowded.evictToFit.overLimit ∧ ∃ m, crowded.evictToFit.entries = crowded.entries.take m ∧
      crowded.evictToFit.table.bucketCount = 4 := by
  obtain ⟨-, h1, m, -, -, h2, h3, -⟩ := evictToFit_exact crowded
    ((((HashTable.new_holds 1).put [1] []).1.put [2] []).1.put [3] []).1.repInv (by decide)
    (by decide +kernel)
  exact ⟨h1, m, h2, h3.trans (by decide +kernel)⟩

end Shard

/-! ## What a write reports -/

namespace Database

theorem setWith_shardFor {db : Database} {key value : Bytes} {x : Option Int}
    (h : (db.setWith key value x).2 ≠ .rejected) (k : Bytes) :
    (db.setWith key value x).1.shardFor k =
      if db.shardIndexFor key = db.shardIndexFor k then
        ((db.shardFor k).write key value x).1.evictToFit
      else db.shardFor k := by
  have hfit := Decidable.not_not.1 (mt (db.setWith_rejected_iff key value x).2 h)
  have hs := (db.setWith key value x).1.shards_shardFor k
  rw [(db.sameShape_setWith key value x).route, setWith_shards, shards_shardFor] at hs
  simp only [hfit, and_true, Option.map_some] at hs
  exact (Option.some.inj hs).symm

theorem lookup_setWith {db : Database} (hdb : db.Inv) {key value : Bytes} {x : Option Int}
    (h : (db.setWith key value x).2 ≠ .rejected) :
    (db.setWith key value x).1.lookup key = some ⟨key, value, x⟩ := by
  obtain ⟨m, hm, -, hholds⟩ :=
    Shard.evictToFit_write_spec (hdb.shardFor key).holds key value x
  rw [lookup, setWith_shardFor h, if_pos rfl, hholds.find_eq]
  obtain ⟨m, rfl⟩ : ∃ n, m = n + 1 := ⟨m - 1, by omega⟩
  rw [Keyed.push, List.take_succ_cons, Keyed.lookup_cons, if_pos rfl]

theorem lookup_of_setWith {db : Database} (hdb : db.Inv) {key value k : Bytes} {x : Option Int}
    {e : Entry} (h : (db.setWith key value x).2 ≠ .rejected) (hk : k ≠ key)
    (he : (db.setWith key value x).1.lookup k = some e) : db.lookup k = some e := by
  rw [lookup, setWith_shardFor h] at he
  split at he
  next =>
    have hv := hdb.shardFor k
    obtain ⟨m, -, -, hholds⟩ := Shard.evictToFit_write_spec hv.holds key value x
    rw [hholds.find_eq] at he
    have hkey : e.key = k := Keyed.key_of_lookup he
    rw [hdb.lookup_eq, hv.holds.distinct.lookup_iff]
    refine ⟨?_, hkey⟩
    rcases List.mem_cons.1 (List.mem_of_mem_take (Keyed.mem_of_lookup he)) with rfl | hmem
    · exact absurd hkey.symm hk
    · exact (Keyed.mem_without.1 hmem).1
  next => exact he

/-- The outcome of a write that tells what has happened. The key can be read back at the
instants at which the entry has not expired. -/
structure TellsTruth (db : Database) (key value : Bytes) (readable : Int → Prop)
    (r : Database × SetOutcome) : Prop where
  rejected_iff : r.2 = .rejected ↔
    db.maxMemoryBytes ≠ 0 ∧ HashTable.footprintEstimate key value > db.maxMemoryBytes
  unchanged : r.2 = .rejected → r.1 = db
  reads : r.2 ≠ .rejected → ∀ t, readable t → (r.1.get key t).2 = some value
  elsewhere : r.2 ≠ .rejected → ∀ i, i ≠ db.shardIndexFor key → r.1.shards[i]? = db.shards[i]?
  others : r.2 ≠ .rejected → ∀ k e, k ≠ key → r.1.lookup k = some e → db.lookup k = some e

theorem setWith_tellsTruth {db : Database} (hdb : db.Inv) (key value : Bytes) (x : Option Int) :
    db.TellsTruth key value (fun t => ∀ e, x = some e → t < e) (db.setWith key value x) where
  rejected_iff := by
    rw [setWith_rejected_iff, not_or, Nat.not_le]
  unchanged := by
    intro h
    unfold setWith at h ⊢
    split
    · rfl
    next hfit => rw [if_neg hfit] at h; dsimp only at h; split at h <;> cases h
  reads := by
    intro h t ht
    rw [get_value, live, lookup_setWith hdb h, Option.filter_some, if_pos]
    · rfl
    · cases x with
      | none => rfl
      | some e => simpa [Entry.isExpiredAt] using ht e rfl
  elsewhere := by
    intro h i hi
    rw [setWith_shards]
    simp only [show ¬ db.shardIndexFor key = i from fun heq => hi heq.symm, false_and, if_false,
      Option.map_id']
  others := fun h k e hk he => lookup_of_setWith hdb h hk he

/-- **A write's outcome tells the truth**, without a lifetime and with any. With one that the
clock can count, the key can be read back until the lifetime is over; otherwise until the moment
that the overflow leaves of it. -/
theorem set_tells_truth (db : Database) (hdb : db.Reachable) (key value : Bytes) :
    db.TellsTruth key value (fun _ => True) (db.set key value) ∧
      (∀ ttl now, LifetimeFits now ttl →
        db.TellsTruth key value (fun t => t < now + ttl * second) (db.setFor key value ttl now)) ∧
      ∀ ttl now, db.TellsTruth key value (fun t => t < expiryAfter now ttl)
        (db.setFor key value ttl now) := by
  have hfor : ∀ ttl now, db.TellsTruth key value (fun t => t < expiryAfter now ttl)
      (db.setFor key value ttl now) := by
    intro ttl now
    obtain ⟨h1, h2, h3, h4, h5⟩ := setWith_tellsTruth hdb.inv key value (some (expiryAfter now ttl))
    exact ⟨h1, h2, fun h t ht => h3 h t fun e he => Option.some.inj he ▸ ht, h4, h5⟩
  refine ⟨?_, fun ttl now hfits => ?_, hfor⟩
  · obtain ⟨h1, h2, h3, h4, h5⟩ := setWith_tellsTruth hdb.inv key value none
    exact ⟨h1, h2, fun h t _ => h3 h t fun e he => (by cases he), h4, h5⟩
  · rw [← hfits.expiryAfter_eq]
    exact hfor ttl now

def tight : Database := (single.step (.setMaxMemory 200) fun _ => 0).1

theorem set_tells_truth_tight :
    ((tight.setFor [107] [118] 1 5).1.get [107] 6).2 = some [118] ∧
      (tight.set [107] (List.replicate 200 118)).1 = tight := by
  have hdb : tight.Reachable := .step (@Reachable.new 1 1 _ rfl) _ _
  have h1 := (set_tells_truth tight hdb [107] [118]).2.1 1 5 (by decide)
  have h2 := (set_tells_truth tight hdb [107] (List.replicate 200 118)).1
  exact ⟨h1.reads (by decide +kernel) 6 (by decide),
    h2.unchanged (h2.rejected_iff.2 (by decide +kernel))⟩

/-- A lifetime of 9223372037 seconds overflows: the write is reported as done, and the key cannot
be read back. -/
theorem set_tells_truth_overflow :
    single.Reachable ∧ (single.setFor [107] [118] 9223372037 0).2 = .inserted ∧
      ((single.setFor [107] [118] 9223372037 0).1.get [107] 0).2 = none :=
  ⟨@Reachable.new 1 1 _ rfl, by decide +kernel, by decide +kernel⟩

end Database

end VCache
