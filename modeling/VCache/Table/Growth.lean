import Mathlib.Tactic.Linarith
import VCache.Table.Inv

/-!
# Bucket counts and rehashing

`roundUpToPowerOfTwo` is exact on 64-bit words, the loop of `resize` ends at the least
power of two that respects the load factor, and relinking the nodes under a new mask
keeps the invariant and everything else.
-/

namespace VCache

open Function VCache.Lib

namespace HashTable

/-! ## Rounding up -/

theorem roundUpToPowerOfTwo_toNat (n : UInt64) :
    (roundUpToPowerOfTwo n).toNat = if n ≤ 1 then 1 else 2 ^ (n.toNat - 1).size % 2 ^ 64 := by
  unfold roundUpToPowerOfTwo
  by_cases hn : n ≤ 1
  · simp [hn]
  · simp only [hn, if_false]
    have h1 : 1 ≤ n := by
      rw [UInt64.le_iff_toNat_le] at hn ⊢
      simp at hn ⊢; omega
    have hsub : (n - 1).toNat = n.toNat - 1 := UInt64.toNat_sub_of_le _ _ h1
    generalize hm : n - 1 = m at hsub
    rw [UInt64.toNat_add]
    simp only [UInt64.toNat_or, UInt64.toNat_shiftRight, UInt64.reduceToNat, Nat.reduceMod]
    have hs := (((((smeared_self m.toNat).step).step).step).step).step.step
    rw [hs.eq m.toNat_lt, hsub, Nat.sub_add_cancel (Nat.two_pow_pos _)]

theorem roundUpToPowerOfTwo_pow (n : UInt64) (hn : n.toNat ≤ 2 ^ 63) :
    ∃ k, k ≤ 63 ∧ (roundUpToPowerOfTwo n).toNat = 2 ^ k ∧ n.toNat ≤ 2 ^ k := by
  rw [roundUpToPowerOfTwo_toNat]
  by_cases h1 : n ≤ 1
  · refine ⟨0, by omega, by simp [h1], ?_⟩
    rw [UInt64.le_iff_toNat_le] at h1
    simpa using h1
  · have hsz : (n.toNat - 1).size ≤ 63 := Nat.size_le.2 (by omega)
    refine ⟨(n.toNat - 1).size, hsz, ?_, ?_⟩
    · rw [if_neg h1, Nat.mod_eq_of_lt]
      exact Nat.pow_lt_pow_right (by omega) (by omega)
    · have := Nat.lt_size_self (n.toNat - 1)
      omega

theorem roundUpToPowerOfTwo_least (n : UInt64) (hn : n.toNat ≤ 2 ^ 63) {i : Nat}
    (hi : 2 ^ i < (roundUpToPowerOfTwo n).toNat) : 2 ^ i < n.toNat := by
  have hpos := Nat.two_pow_pos i
  rw [roundUpToPowerOfTwo_toNat] at hi
  by_cases h1 : n ≤ 1
  · rw [if_pos h1] at hi; omega
  · have hsz : (n.toNat - 1).size ≤ 63 := Nat.size_le.2 (by omega)
    rw [if_neg h1, Nat.mod_eq_of_lt (Nat.pow_lt_pow_right (by omega) (by omega))] at hi
    have := Nat.lt_size.1 ((Nat.pow_lt_pow_iff_right (by omega)).1 hi)
    omega

/-- Beyond `2^63` the rounding wraps to zero. -/
theorem roundUpToPowerOfTwo_beyond (n : UInt64) (hn : 2 ^ 63 < n.toNat) :
    (roundUpToPowerOfTwo n).toNat = 0 := by
  have hlt := n.toNat_lt
  have hsz : (n.toNat - 1).size = 64 := by
    apply le_antisymm
    · exact Nat.size_le.2 (by omega)
    · exact Nat.lt_size.2 (by omega)
  have h1 : ¬ n ≤ 1 := by rw [UInt64.le_iff_toNat_le]; simp; omega
  rw [roundUpToPowerOfTwo_toNat, if_neg h1, hsz, Nat.mod_self]

theorem roundUpToPowerOfTwo_pow_or_zero (n : UInt64) :
    (∃ k, (roundUpToPowerOfTwo n).toNat = 2 ^ k) ∨ (roundUpToPowerOfTwo n).toNat = 0 := by
  by_cases hn : n.toNat ≤ 2 ^ 63
  · obtain ⟨k, -, hk, -⟩ := roundUpToPowerOfTwo_pow n hn
    exact .inl ⟨k, hk⟩
  · exact .inr (roundUpToPowerOfTwo_beyond n (by omega))

/-! ## The doubling loop -/

/-- From a power of two the loop ends at the least later one that fits. -/
theorem doubleUntilFits_pow (size : Nat) :
    ∀ (fuel j m : Nat), j ≤ m → m < j + fuel → 4 * size ≤ 3 * 2 ^ m →
      (∀ i, j ≤ i → i < m → 3 * 2 ^ i < 4 * size) →
      doubleUntilFits size fuel (2 ^ j) = some (2 ^ m) := by
  intro fuel
  induction fuel with
  | zero => intro j m h1 h2; omega
  | succ fuel ih =>
    intro j m hjm hm hfit hleast
    unfold doubleUntilFits exceedsLoadFactor
    by_cases hj : j = m
    · subst hj
      rw [if_neg (by simpa using hfit)]
    · rw [if_pos (by simpa using hleast j (le_refl j) (by omega)), ← Nat.pow_succ]
      exact ih (j + 1) m (by omega) (by omega) hfit fun i h1 h2 => hleast i (by omega) h2

theorem four_mul_le_three_pow (n : Nat) : 4 * n ≤ 3 * 2 ^ n := by
  induction n with
  | zero => simp
  | succ n ih =>
    have : 1 ≤ 2 ^ n := Nat.one_le_two_pow
    rw [Nat.pow_succ]
    rcases n with _ | n
    · simp
    · rw [Nat.pow_succ] at *; omega

theorem exists_least_fit (size j : Nat) :
    ∃ m, j ≤ m ∧ m < j + (size + 1) ∧ 4 * size ≤ 3 * 2 ^ m ∧
      ∀ i, j ≤ i → i < m → 3 * 2 ^ i < 4 * size := by
  have hsize : 4 * size ≤ 3 * 2 ^ (j + size) :=
    (four_mul_le_three_pow size).trans
      (Nat.mul_le_mul_left 3 (Nat.pow_le_pow_right (by omega) (by omega)))
  have hfit : ∃ d, 4 * size ≤ 3 * 2 ^ (j + d) := ⟨size, hsize⟩
  have hle : Nat.find hfit ≤ size := Nat.find_min' hfit hsize
  refine ⟨j + Nat.find hfit, by omega, by omega, Nat.find_spec hfit, fun i h1 h2 => ?_⟩
  have := Nat.find_min hfit (m := i - j) (by omega)
  rw [show j + (i - j) = i by omega] at this
  omega

theorem resizeTarget_pow (size : Nat) {j : Nat} {n : UInt64}
    (hn : (roundUpToPowerOfTwo n).toNat = 2 ^ j) :
    ∃ m, j ≤ m ∧ resizeTarget size n = some (2 ^ m) ∧ 4 * size ≤ 3 * 2 ^ m ∧
      ∀ i, j ≤ i → i < m → 3 * 2 ^ i < 4 * size := by
  obtain ⟨m, h1, h2, h3, h4⟩ := exists_least_fit size j
  exact ⟨m, h1, by rw [resizeTarget, hn]; exact doubleUntilFits_pow size _ j m h1 h2 h3 h4, h3, h4⟩

/-! ## Relinking -/

theorem relink_entryAt (t : HashTable) (n : Nat) : (t.relink n).entryAt = t.entryAt := by
  unfold relink; split <;> rfl

theorem relink_size (t : HashTable) (n : Nat) : (t.relink n).size = t.size := by
  unfold relink; split <;> rfl

theorem relink_entryBytes (t : HashTable) (n : Nat) : (t.relink n).entryBytes = t.entryBytes := by
  unfold relink; split <;> rfl

theorem relink_links (t : HashTable) (n : Nat) : (t.relink n).links = t.links := by
  unfold relink; split <;> rfl

theorem relink_footprintAt (t : HashTable) (n : Nat) :
    (t.relink n).footprintAt = t.footprintAt := by
  unfold relink; split <;> rfl

theorem relink_spec (t : HashTable) {n : Nat} (hn : ∃ k, n = 2 ^ k)
    (hp : Placed (fun p => t.bucketIndexFor (t.entryAt p).key) t.buckets) :
    (t.relink n).buckets.length = n ∧ (t.relink n).nodes.Perm t.nodes ∧
      Placed (fun p => (t.relink n).bucketIndexFor ((t.relink n).entryAt p).key)
        (t.relink n).buckets := by
  have hlt : ∀ p, slotFor n (t.entryAt p).key < n := fun p => and_mask_lt hn _
  by_cases e : n = t.buckets.length
  · have er : t.relink n = t := by unfold relink; rw [if_pos e]
    rw [er]; exact ⟨e.symm, List.Perm.refl _, hp⟩
  · have eb : (t.relink n).buckets =
        rehash (fun p => slotFor n (t.entryAt p).key) n t.buckets := by
      unfold relink; rw [if_neg e]
    have hl : (t.relink n).buckets.length = n := by rw [eb]; exact rehash_length hlt _
    refine ⟨hl, ?_, ?_⟩
    · rw [nodes_eq, eb]; exact rehash_perm hlt _
    · simp only [bucketIndexFor, hl, relink_entryAt]
      rw [eb]; exact rehash_placed hlt _

theorem Inv.relink {t : HashTable} {l : List Ptr} (h : Inv t l) {n : Nat} (hn : ∃ k, n = 2 ^ k) :
    Inv (t.relink n) l := by
  obtain ⟨hlen, hnodes, hplaced⟩ := relink_spec t hn h.placed
  refine ⟨⟨.inr (by rwa [hlen]), hplaced, ?_, ?_, ?_, ?_⟩, ?_, h.perm.trans hnodes.symm⟩
  · rw [relink_entryAt]; exact h.keys.perm hnodes.symm
  · rw [relink_size, hnodes.length_eq]; exact h.size
  · rw [relink_entryBytes, relink_footprintAt, (hnodes.map _).sum_eq]; exact h.bytes
  · intro p hp
    rw [relink_footprintAt, relink_entryAt]
    exact h.footprint p (hnodes.mem_iff.1 hp)
  · rw [relink_links]; exact h.linked

/-! ## Growth -/

theorem resizeTarget_double {size k : Nat} (hover : 3 * 2 ^ k < 4 * size)
    (hprev : 4 * (size - 1) ≤ 3 * 2 ^ k) :
    resizeTarget size (UInt64.ofNat (2 ^ k * 2)) = some (2 ^ k * 2) := by
  have hpos : 1 ≤ 2 ^ k := Nat.one_le_two_pow
  have hfit : 4 * size ≤ 3 * 2 ^ (k + 1) := by rw [Nat.pow_succ]; omega
  -- the rounded argument is `2^(k+1)`, or `1` where that wraps
  obtain ⟨j, hjk, hj⟩ : ∃ j, j ≤ k + 1 ∧
      (roundUpToPowerOfTwo (UInt64.ofNat (2 ^ k * 2))).toNat = 2 ^ j := by
    by_cases hk : k + 1 ≤ 63
    · have hlt : 2 ^ (k + 1) ≤ 2 ^ 63 := Nat.pow_le_pow_right (by omega) hk
      have e : (UInt64.ofNat (2 ^ k * 2)).toNat = 2 ^ (k + 1) := by
        rw [UInt64.toNat_ofNat', ← Nat.pow_succ, Nat.mod_eq_of_lt (by omega)]
      have h1 : ¬ UInt64.ofNat (2 ^ k * 2) ≤ 1 := by
        rw [UInt64.le_iff_toNat_le, e, Nat.pow_succ]; simp; omega
      refine ⟨k + 1, le_refl _, ?_⟩
      rw [roundUpToPowerOfTwo_toNat, if_neg h1, e]
      have hs : (2 ^ (k + 1) - 1).size = k + 1 := by
        apply le_antisymm
        · exact Nat.size_le.2 (by have := Nat.two_pow_pos (k + 1); omega)
        · rw [Nat.succ_le_iff, Nat.lt_size, Nat.pow_succ]; omega
      rw [hs, Nat.mod_eq_of_lt (by omega)]
    · have e : UInt64.ofNat (2 ^ k * 2) = 0 := by
        apply UInt64.toNat_inj.1
        rw [UInt64.toNat_ofNat', ← Nat.pow_succ]
        exact Nat.mod_eq_zero_of_dvd (Nat.pow_dvd_pow 2 (by omega))
      exact ⟨0, by omega, by rw [e]; decide⟩
  obtain ⟨m, h1, h2, h3, h4⟩ := resizeTarget_pow size hj
  have hm : m = k + 1 := by
    rcases Nat.lt_trichotomy m (k + 1) with hlt | rfl | hgt
    · have : 2 ^ m ≤ 2 ^ k := Nat.pow_le_pow_right (by omega) (by omega)
      omega
    · rfl
    · have := h4 (k + 1) hjk hgt
      omega
  rw [h2, hm, Nat.pow_succ]

/-- The bucket count of a table of `buckets` buckets once it holds `size` entries. -/
def grownTo (size buckets : Nat) : Nat :=
  if exceedsLoadFactor size buckets then buckets * 2 else buckets

theorem growIfNeeded_eq {t : HashTable} (hb : ∃ k, t.buckets.length = 2 ^ k)
    (hprev : 4 * (t.size - 1) ≤ 3 * t.buckets.length) :
    t.growIfNeeded = t.relink (grownTo t.size t.buckets.length) := by
  obtain ⟨k, hk⟩ := hb
  unfold growIfNeeded grownTo
  by_cases hover : exceedsLoadFactor t.size t.buckets.length
  · rw [if_pos hover, if_pos hover, resize, hk, resizeTarget_double (by
      rw [← hk]; simpa [exceedsLoadFactor] using hover) (by rw [← hk]; exact hprev)]
    rfl
  · rw [if_neg hover, if_neg hover]
    unfold relink; rw [if_pos rfl]

theorem grownTo_pow (size : Nat) {n : Nat} (hn : ∃ k, n = 2 ^ k) : ∃ k, grownTo size n = 2 ^ k := by
  obtain ⟨k, rfl⟩ := hn
  unfold grownTo
  split
  · exact ⟨k + 1, rfl⟩
  · exact ⟨k, rfl⟩

theorem grownTo_fits {size n : Nat} (hn : ∃ k, n = 2 ^ k) (hprev : 4 * (size - 1) ≤ 3 * n) :
    4 * size ≤ 3 * grownTo size n := by
  obtain ⟨k, rfl⟩ := hn
  have hpos : 1 ≤ 2 ^ k := Nat.one_le_two_pow
  unfold grownTo exceedsLoadFactor
  split
  · omega
  · next h => simpa using h

end HashTable

end VCache
