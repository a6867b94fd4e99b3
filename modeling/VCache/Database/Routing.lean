import VCache.Database.Spec

/-!
# Rounding and routing

The table rounds a size up by smearing bits, the database by doubling. Both land on the
least power of two, so the masks made from it take remainders and the shift made from its
exponent leaves exactly a shard number of the hash.
-/

namespace VCache

open VCache.Lib

namespace Database

theorem countBits_pow {k : Nat} : ∀ (fuel bits : Nat), bits ≤ k → k < bits + fuel →
    countBits (2 ^ k) fuel bits = k
  | 0, bits, h1, h2 => by omega
  | fuel + 1, bits, h1, h2 => by
    unfold countBits
    by_cases h : 2 ^ bits < 2 ^ k
    · have hlt : bits < k := (Nat.pow_lt_pow_iff_right (by omega)).1 h
      rw [if_pos h]
      exact countBits_pow fuel (bits + 1) (by omega) (by omega)
    · rw [if_neg h]
      exact Nat.le_antisymm h1 (Nat.le_of_not_lt fun hlt => h (Nat.pow_lt_pow_right (by omega) hlt))

theorem log2OfPowerOfTwo_pow {r : UInt64} {k : Nat} (hr : r.toNat = 2 ^ k) (hk : k ≤ 63) :
    log2OfPowerOfTwo r = k := by
  unfold log2OfPowerOfTwo
  rw [hr]
  exact countBits_pow 64 0 (by omega) (by omega)

theorem roundUpToPowerOfTwo_both {n : UInt64} (hn : n.toNat ≤ 2 ^ 63) :
    ∃ k, k ≤ 63 ∧ (HashTable.roundUpToPowerOfTwo n).toNat = 2 ^ k ∧
      roundUpToPowerOfTwo n = some (HashTable.roundUpToPowerOfTwo n) ∧
      n.toNat ≤ 2 ^ k ∧ ∀ i, i < k → 2 ^ i < n.toNat := by
  obtain ⟨k, r, hr, hk, hk63, hle, hmin⟩ := roundUpToPowerOfTwo_pow hn
  obtain ⟨j, -, hj, hjle⟩ := HashTable.roundUpToPowerOfTwo_pow n hn
  have hjmin : ∀ i, i < j → 2 ^ i < n.toNat := fun i hi =>
    HashTable.roundUpToPowerOfTwo_least n hn (by rw [hj]; exact Nat.pow_lt_pow_right (by omega) hi)
  have hjk : j = k := by
    rcases Nat.lt_trichotomy j k with h | h | h
    · have := hmin j h; omega
    · exact h
    · have := hjmin k h; omega
  subst hjk
  refine ⟨j, hk63, hj, ?_, hle, hmin⟩
  rw [hr, UInt64.toNat_inj.1 (hk.trans hj.symm)]

theorem roundUpToPowerOfTwo_max (n : UInt64) :
    roundUpToPowerOfTwo (max n 1) = roundUpToPowerOfTwo n := by
  rw [show max n 1 = if n ≤ 1 then 1 else n from rfl]
  split
  · next h =>
    rw [UInt64.le_iff_toNat_le] at h
    obtain h0 | h1 : n.toNat = 0 ∨ n.toNat = 1 := by simp at h; omega
    · rw [show n = 0 from UInt64.toNat_inj.1 h0]; decide
    · rw [show n = 1 from UInt64.toNat_inj.1 h1]
  · rfl

theorem shiftRight_lt (hash : UInt64) {k : Nat} (hk : k ≤ 64) :
    hash.toNat >>> (64 - k) < 2 ^ k := by
  rw [Nat.shiftRight_eq_div_pow, Nat.div_lt_iff_lt_mul (Nat.two_pow_pos _), ← Nat.pow_add]
  rw [show k + (64 - k) = 64 by omega]
  exact hash.toNat_lt

/-- With more than one shard the mask only repeats what the shift did. -/
theorem shardIndexFor_ofShards (buckets : UInt64) {r : UInt64} (h : 0 < r.toNat) {k : Nat}
    (hr : r.toNat = 2 ^ k) (hk : k ≤ 63) (h1 : 1 < r.toNat) :
    (ofShards buckets r h).shardShift = 64 - k ∧
      ∀ key, (ofShards buckets r h).shardIndexFor key =
        (HashTable.hashKey key).toNat >>> (ofShards buckets r h).shardShift := by
  have h1' : 1 < r := UInt64.lt_iff_toNat_lt.2 h1
  have hshift : (ofShards buckets r h).shardShift = 64 - k := by
    show (if 1 < r then 64 - log2OfPowerOfTwo r else 0) = 64 - k
    rw [if_pos h1', log2OfPowerOfTwo_pow hr hk]
  have hmask : (ofShards buckets r h).shardMask = 2 ^ k - 1 := by
    show (if 1 < r then r.toNat - 1 else 0) = 2 ^ k - 1
    rw [if_pos h1', hr]
  refine ⟨hshift, fun key => ?_⟩
  unfold shardIndexFor
  rw [hmask, hshift, if_neg (by omega), Nat.and_two_pow_sub_one_eq_mod]
  exact Nat.mod_eq_of_lt (shiftRight_lt _ (by omega))

/-- The two roundings agree on the least power of two, its exponent is counted exactly, a
mask made from it is a remainder, and the shift made from it names a shard. -/
theorem roundings_agree (n : UInt64) (hn : n.toNat ≤ 2 ^ 63) :
    ∃ (r : UInt64) (k : Nat), HashTable.roundUpToPowerOfTwo n = r ∧
      roundUpToPowerOfTwo n = some r ∧ r.toNat = 2 ^ k ∧
      IsLeast {p | (∃ i, p = 2 ^ i) ∧ max n.toNat 1 ≤ p} r.toNat ∧
      log2OfPowerOfTwo r = k ∧
      (∀ x : Nat, x &&& (r.toNat - 1) = x % r.toNat) ∧
      ∀ buckets : UInt64, ∃ db, new buckets n = some db ∧ db.shards.length = r.toNat ∧
        (r.toNat = 1 → ∀ key, db.shardIndexFor key = 0) ∧
        (1 < r.toNat → db.shardShift = 64 - k ∧
          (∀ hash : UInt64, hash.toNat >>> db.shardShift < db.shards.length) ∧
          ∀ key, db.shardIndexFor key = (HashTable.hashKey key).toNat >>> db.shardShift) := by
  obtain ⟨k, hk63, hk, hagree, hle, hmin⟩ := roundUpToPowerOfTwo_both hn
  have hpos : 0 < (HashTable.roundUpToPowerOfTwo n).toNat := by rw [hk]; exact Nat.two_pow_pos k
  refine ⟨_, k, rfl, hagree, hk, ?_, log2OfPowerOfTwo_pow hk hk63, fun x => ?_, fun buckets => ?_⟩
  · rw [hk]
    apply isLeast_two_pow (P := fun p => max n.toNat 1 ≤ p)
    · have := Nat.two_pow_pos k
      omega
    · intro i hi
      have := hmin i hi
      omega
  · rw [hk, Nat.and_two_pow_sub_one_eq_mod]
  · have hlen : (ofShards buckets _ hpos).shards.length =
        (HashTable.roundUpToPowerOfTwo n).toNat := List.length_replicate
    refine ⟨ofShards buckets _ hpos, ?_, hlen, fun h1 key => ?_, fun h1 => ?_⟩
    · unfold new
      rw [roundUpToPowerOfTwo_max, hagree]
      exact dif_pos hpos
    · have := shardIndexFor_lt (ofShards buckets _ hpos) key
      omega
    · obtain ⟨hshift, hindex⟩ := shardIndexFor_ofShards buckets hpos hk hk63 h1
      refine ⟨hshift, fun hash => ?_, hindex⟩
      rw [hlen, hk, hshift]
      exact shiftRight_lt hash (by omega)

/-- Five shards are rounded to eight, numbered by the top three bits. -/
theorem roundings_agree_five : (5 : UInt64).toNat ≤ 2 ^ 63 ∧
    ∃ (r : UInt64) (k : Nat), HashTable.roundUpToPowerOfTwo 5 = r ∧
      roundUpToPowerOfTwo 5 = some r ∧ r = 8 ∧ k = 3 ∧ log2OfPowerOfTwo r = k ∧
      ∃ db, new 16 5 = some db ∧ db.shards.length = 8 ∧ db.shardShift = 61 := by
  obtain ⟨r, k, h1, h2, -, -, h5, -, h7⟩ := roundings_agree 5 (by decide)
  have hr : r = 8 := h1.symm.trans (by decide)
  have hk : k = 3 := by rw [← h5, hr]; decide
  obtain ⟨db, hdb, hlen, -, hmany⟩ := h7 16
  rw [hr] at hlen hmany
  refine ⟨by decide, r, k, h1, h2, hr, hk, h5, db, hdb, hlen, ?_⟩
  rw [(hmany (by decide)).1, hk]

end Database

end VCache
