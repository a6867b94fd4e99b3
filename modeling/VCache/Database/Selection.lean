import VCache.Database.Routing
import VCache.Lib.BitFields
import VCache.Table.Hash

/-!
# Shard and bucket of a hash

The shard is numbered by the top bits of the hash and the bucket by the low ones. While the
two fields do not overlap, every pair of shard and bucket has the same number of hashes, and
every hash is the hash of some key.
-/

namespace VCache

open VCache.Lib

/-- `bucketIndexFor`, from the hash on. -/
def HashTable.bucketIndexOf (t : HashTable) (hash : UInt64) : Nat :=
  hash.toNat &&& (t.buckets.length - 1)

theorem HashTable.bucketIndexOf_hashKey (t : HashTable) (key : Bytes) :
    t.bucketIndexOf (HashTable.hashKey key) = t.bucketIndexFor key := rfl

theorem HashTable.bucketIndexOf_eq {t : HashTable} {b : Nat} (hb : t.bucketCount = 2 ^ b)
    (hash : UInt64) : t.bucketIndexOf hash = hash.toNat % 2 ^ b := by
  rw [bucketIndexOf, show t.buckets.length = 2 ^ b from hb, Nat.and_two_pow_sub_one_eq_mod]

namespace Database

/-- `shardIndexFor`, from the hash on. -/
def shardIndexOf (db : Database) (hash : UInt64) : Nat :=
  if db.shardMask = 0 then 0 else (hash.toNat >>> db.shardShift) &&& db.shardMask

theorem shardIndexOf_hashKey (db : Database) (key : Bytes) :
    db.shardIndexOf (HashTable.hashKey key) = db.shardIndexFor key := rfl

/-- The top bits number the shards; of a single shard there are none to take. -/
theorem shardIndexFor_eq_shiftRight (buckets : UInt64) {r : UInt64} (h : 0 < r.toNat) {s : Nat}
    (hr : r.toNat = 2 ^ s) (key : Bytes) :
    (ofShards buckets r h).shardIndexFor key = (HashTable.hashKey key).toNat >>> (64 - s) := by
  have hs : s < 64 := by
    have hlt := r.toNat_lt
    rw [hr] at hlt
    exact (Nat.pow_lt_pow_iff_right (by omega)).1 hlt
  rcases Nat.eq_zero_or_pos s with rfl | hpos
  · -- the shift is bypassed, and shifting out the whole word gives the same
    have hlen : (ofShards buckets r h).shards.length = 2 ^ 0 :=
      List.length_replicate.trans hr
    have hindex := shardIndexFor_lt (ofShards buckets r h) key
    have htop := shiftRight_lt (HashTable.hashKey key) (Nat.zero_le 64)
    omega
  · have h1 : 1 < r.toNat := by
      rw [hr]
      exact Nat.one_lt_two_pow (by omega)
    obtain ⟨hshift, hindex⟩ := shardIndexFor_ofShards buckets h hr (by omega) h1
    rw [hindex, hshift]

theorem Reachable.shardIndexFor_eq {db : Database} (hdb : db.Reachable) {s : Nat}
    (hs : db.shardCount = 2 ^ s) (key : Bytes) :
    db.shardIndexFor key = (HashTable.hashKey key).toNat >>> (64 - s) := by
  induction hdb with
  | new h =>
    obtain ⟨r, hpos, rfl⟩ := exists_ofShards h
    exact shardIndexFor_eq_shiftRight _ hpos (List.length_replicate.symm.trans hs) key
  | @step db _ op now ih =>
    obtain ⟨hroute, hlen, -⟩ := db.step_shape op now
    rw [hroute]
    exact ih (hlen.symm.trans hs)

theorem Reachable.shardIndexOf_eq {db : Database} (hdb : db.Reachable) {s : Nat}
    (hs : db.shardCount = 2 ^ s) (hash : UInt64) :
    db.shardIndexOf hash = hash.toNat >>> (64 - s) := by
  obtain ⟨key, rfl⟩ := HashTable.hashKey_surjective hash
  rw [shardIndexOf_hashKey, hdb.shardIndexFor_eq hs]

/-- **Shard and bucket are independent.** Every pair of a shard and a bucket is selected by
the same number of hashes, and so by some key: the keys of one shard reach all its buckets. -/
theorem selection_independent {db : Database} (hdb : db.Reachable) {s b : Nat}
    (hs : db.shardCount = 2 ^ s) {t : HashTable} (hb : t.bucketCount = 2 ^ b) (hsb : s + b ≤ 64)
    {i j : Nat} (hi : i < 2 ^ s) (hj : j < 2 ^ b) :
    {hash | db.shardIndexOf hash = i ∧ t.bucketIndexOf hash = j}.ncard = 2 ^ (64 - s - b) ∧
      ∃ key, db.shardIndexFor key = i ∧ t.bucketIndexFor key = j := by
  have hcount : {hash | db.shardIndexOf hash = i ∧ t.bucketIndexOf hash = j}.ncard =
      2 ^ (64 - s - b) := by
    simp only [hdb.shardIndexOf_eq hs, HashTable.bucketIndexOf_eq hb]
    exact BitFields.ncard_word_fields hsb hi hj
  refine ⟨hcount, ?_⟩
  have hpos : {hash | db.shardIndexOf hash = i ∧ t.bucketIndexOf hash = j}.ncard ≠ 0 := by
    rw [hcount]
    exact (Nat.two_pow_pos _).ne'
  obtain ⟨hash, hshard, hbucket⟩ := Set.nonempty_of_ncard_ne_zero hpos
  obtain ⟨key, rfl⟩ := HashTable.hashKey_surjective hash
  rw [shardIndexOf_hashKey] at hshard
  rw [HashTable.bucketIndexOf_hashKey] at hbucket
  exact ⟨key, hshard, hbucket⟩

/-- Four shards of four buckets, and a single shard, where no bits number the shard. -/
theorem selection_independent_four :
    (∃ db, new 16 4 = some db ∧ {hash | db.shardIndexOf hash = 3 ∧
      (HashTable.new 4).bucketIndexOf hash = 1}.ncard = 2 ^ 60) ∧
    {hash | single.shardIndexOf hash = 0 ∧
      (HashTable.new 4).bucketIndexOf hash = 1}.ncard = 2 ^ 62 := by
  have hfour : new 16 4 = some (ofShards 16 4 (by decide)) := rfl
  have hone : new 1 1 = some single := rfl
  have hbuckets : (HashTable.new 4).bucketCount = 2 ^ 2 := by decide
  refine ⟨⟨_, hfour, ?_⟩, ?_⟩
  · exact (selection_independent (.new hfour) (s := 2) (by decide) hbuckets (by decide)
      (by decide) (by decide)).1
  · exact (selection_independent (.new hone) (s := 0) (by decide) hbuckets (by decide)
      (by decide) (by decide)).1

end Database

end VCache
