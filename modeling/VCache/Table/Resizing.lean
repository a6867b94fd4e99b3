import VCache.Table.Spec

/-!
# When `resize` returns

The loop of `resize` doubles a 64-bit word. Below `2^53` entries no doubling wraps, so the
loop on words and the loop on numbers make the same tests. What can wrap is the rounding in
front of it: beyond `2^63` it gives zero, and zero doubled is zero.
-/

namespace VCache

namespace HashTable

/-- The doubling loop of `resize` on the machine word, cut off after `fuel` tests. -/
def doubleUntilFitsWord (size : Nat) : Nat → UInt64 → Option UInt64
  | 0, _ => none
  | fuel + 1, target =>
    if exceedsLoadFactor size target.toNat then doubleUntilFitsWord size fuel (target * 2)
    else some target

/-! ### Words and numbers -/

theorem double_toNat {size : Nat} (hsize : size < 2 ^ 53) {target : UInt64}
    (hover : exceedsLoadFactor size target.toNat = true) :
    (target * 2).toNat = target.toNat * 2 := by
  have hlt : 3 * target.toNat < 4 * size := of_decide_eq_true hover
  rw [UInt64.toNat_mul]
  apply Nat.mod_eq_of_lt
  rw [show (2 : UInt64).toNat = 2 from rfl]
  omega

theorem doubleUntilFitsWord_toNat {size : Nat} (hsize : size < 2 ^ 53) (fuel : Nat) :
    ∀ target : UInt64, (doubleUntilFitsWord size fuel target).map UInt64.toNat =
      doubleUntilFits size fuel target.toNat := by
  induction fuel with
  | zero => intro target; rfl
  | succ fuel ih =>
    intro target
    unfold doubleUntilFitsWord doubleUntilFits
    by_cases hover : exceedsLoadFactor size target.toNat = true
    · rw [if_pos hover, if_pos hover, ih, double_toNat hsize hover]
    · rw [if_neg hover, if_neg hover]
      rfl

/-! ### Fuel -/

theorem doubleUntilFits_mono {size fuel fuel' target b : Nat} (hle : fuel ≤ fuel')
    (h : doubleUntilFits size fuel target = some b) :
    doubleUntilFits size fuel' target = some b := by
  induction fuel generalizing fuel' target with
  | zero => cases h
  | succ fuel ih =>
    obtain ⟨k, rfl⟩ : ∃ k, fuel' = k + 1 := ⟨fuel' - 1, by omega⟩
    unfold doubleUntilFits at h ⊢
    by_cases hover : exceedsLoadFactor size target = true
    · rw [if_pos hover] at h ⊢
      exact ih (by omega) h
    · rw [if_neg hover] at h ⊢
      exact h

/-- From zero the loop of a table with entries never ends. -/
theorem doubleUntilFits_zero {size : Nat} (hpos : 0 < size) (fuel : Nat) :
    doubleUntilFits size fuel 0 = none := by
  induction fuel with
  | zero => rfl
  | succ fuel ih =>
    have hover : exceedsLoadFactor size 0 = true := decide_eq_true (by omega)
    rw [doubleUntilFits, if_pos hover]
    exact ih

/-- The cut-off of `resizeTarget` is late enough: a loop that ends at all ends before it. -/
theorem resizeTarget_of_ends {size fuel b : Nat} {n : UInt64}
    (h : doubleUntilFits size fuel (roundUpToPowerOfTwo n).toNat = some b) :
    resizeTarget size n = some b := by
  by_cases hle : fuel ≤ size + 1
  · exact doubleUntilFits_mono hle h
  · rcases roundUpToPowerOfTwo_pow_or_zero n with ⟨j, hj⟩ | hzero
    · obtain ⟨m, -, e, -, -⟩ := resizeTarget_pow size hj
      have e' := doubleUntilFits_mono (by omega : size + 1 ≤ fuel) e
      rw [e, ← e', h]
    · rw [hzero] at h
      rcases Nat.eq_zero_or_pos size with rfl | hpos
      · obtain ⟨k, rfl⟩ : ∃ k, fuel = k + 1 := ⟨fuel - 1, by omega⟩
        rw [resizeTarget, hzero, ← h]
        rfl
      · rw [doubleUntilFits_zero hpos] at h
        cases h

theorem resizeTarget_eq_some_iff {size : Nat} (hsize : size < 2 ^ 53) (n : UInt64) (b : Nat) :
    resizeTarget size n = some b ↔ ∃ fuel target,
      doubleUntilFitsWord size fuel (roundUpToPowerOfTwo n) = some target ∧ target.toNat = b := by
  constructor
  · intro h
    rw [resizeTarget, ← doubleUntilFitsWord_toNat hsize, Option.map_eq_some_iff] at h
    obtain ⟨target, h1, h2⟩ := h
    exact ⟨_, target, h1, h2⟩
  · rintro ⟨fuel, target, h, rfl⟩
    have e := doubleUntilFitsWord_toNat hsize fuel (roundUpToPowerOfTwo n)
    rw [h] at e
    exact resizeTarget_of_ends e.symm

/-! ### The arguments `resize` returns for -/

theorem resizeTarget_isSome_iff (size : Nat) (n : UInt64) :
    (∃ b, resizeTarget size n = some b) ↔ n.toNat ≤ 2 ^ 63 ∨ size = 0 := by
  by_cases hn : n.toNat ≤ 2 ^ 63
  · obtain ⟨j, -, hj, -⟩ := roundUpToPowerOfTwo_pow n hn
    obtain ⟨m, -, e, -, -⟩ := resizeTarget_pow size hj
    exact ⟨fun _ => .inl hn, fun _ => ⟨_, e⟩⟩
  · rw [resizeTarget, roundUpToPowerOfTwo_beyond n (by omega)]
    rcases Nat.eq_zero_or_pos size with rfl | hpos
    · exact ⟨fun _ => .inr rfl, fun _ => ⟨0, rfl⟩⟩
    · rw [doubleUntilFits_zero hpos]
      constructor
      · rintro ⟨b, hb⟩
        cases hb
      · intro h
        omega

theorem resizeTarget_eq_pow {size b : Nat} {n : UInt64} (hpos : 0 < size)
    (h : resizeTarget size n = some b) : ∃ k, b = 2 ^ k := by
  rcases roundUpToPowerOfTwo_pow_or_zero n with ⟨j, hj⟩ | hzero
  · obtain ⟨m, -, e, -, -⟩ := resizeTarget_pow size hj
    rw [e] at h
    exact ⟨m, (Option.some.inj h).symm⟩
  · rw [resizeTarget, hzero, doubleUntilFits_zero hpos] at h
    cases h

/-- **`resize` and its loop.** For a well-formed table of fewer than `2^53` entries the
target computation ends, with a power of two if there are entries, exactly when the count
asked for is at most `2^63` or the table is empty. -/
theorem resize_ends_iff (t : HashTable) (h : t.RepInv) (hsize : t.size < 2 ^ 53) (n : UInt64) :
    (∃ fuel target, doubleUntilFitsWord t.size fuel (roundUpToPowerOfTwo n) = some target ∧
      (t.nodes ≠ [] → ∃ k, target.toNat = 2 ^ k)) ↔ n.toNat ≤ 2 ^ 63 ∨ t.nodes = [] := by
  obtain ⟨⟨l, hl⟩, -⟩ := h
  have hempty : t.size = 0 ↔ t.nodes = [] := by rw [hl.size, List.length_eq_zero_iff]
  rw [← hempty, ← resizeTarget_isSome_iff]
  constructor
  · rintro ⟨fuel, target, e, -⟩
    exact ⟨_, (resizeTarget_eq_some_iff hsize n _).2 ⟨fuel, target, e, rfl⟩⟩
  · rintro ⟨b, hb⟩
    obtain ⟨fuel, target, e, rfl⟩ := (resizeTarget_eq_some_iff hsize n b).1 hb
    refine ⟨fuel, target, e, fun hne => ?_⟩
    exact resizeTarget_eq_pow (Nat.pos_of_ne_zero (mt hempty.1 hne)) hb

/-- A table that has grown, asked for nine buckets. -/
theorem resize_ends_iff_nine : ∃ fuel target,
    doubleUntilFitsWord crowd.size fuel (roundUpToPowerOfTwo 9) = some target ∧
      ∃ k, target.toNat = 2 ^ k := by
  obtain ⟨fuel, target, e, hk⟩ :=
    (resize_ends_iff crowd crowd_repInv (by decide +kernel) 9).2 (.inl (by decide))
  exact ⟨fuel, target, e, hk (by decide +kernel)⟩

/-- A table with one entry, asked for `2^63 + 1` buckets: the rounded count is zero, and the
loop goes on for ever. -/
theorem resize_beyond_never_ends : ((new 1).put [107] [118]).1.RepInv ∧
    ((new 1).put [107] [118]).1.size = 1 ∧ (9223372036854775809 : UInt64).toNat = 2 ^ 63 + 1 ∧
    ∀ fuel, doubleUntilFitsWord ((new 1).put [107] [118]).1.size fuel
      (roundUpToPowerOfTwo 9223372036854775809) = none := by
  have hsize : ((new 1).put [107] [118]).1.size = 1 := by decide
  have hzero : roundUpToPowerOfTwo 9223372036854775809 = 0 := by decide
  refine ⟨((new_holds 1).put [107] [118]).1.repInv, hsize, rfl, fun fuel => ?_⟩
  have e := doubleUntilFitsWord_toNat (by decide : 1 < 2 ^ 53) fuel 0
  rw [UInt64.toNat_zero, doubleUntilFits_zero Nat.one_pos, Option.map_eq_none_iff] at e
  rw [hsize, hzero]
  exact e

end HashTable

end VCache
