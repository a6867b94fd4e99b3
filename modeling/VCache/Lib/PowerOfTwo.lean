import Mathlib.Data.Nat.Bitwise
import Mathlib.Data.Nat.Size
import Mathlib.Order.Bounds.Basic

/-!
# Powers of two in machine words

`smear` steps copy set bits downwards: after the steps `1, 2, 4, …, 2^k` a bit is
set iff one of the `2^(k+1)` bits from it upwards was. Six steps fill a 64-bit
word below its top bit, which rounds up to a power of two.
-/

namespace VCache.Lib

/-- Bit `i` of `x` is set iff one of the `w` bits of `m` from `i` upwards is. -/
def Smeared (m w x : Nat) : Prop := ∀ i, x.testBit i = true ↔ ∃ j, j < w ∧ m.testBit (i + j) = true

theorem smeared_self (m : Nat) : Smeared m 1 m := by
  intro i
  constructor
  · intro h; exact ⟨0, by omega, h⟩
  · rintro ⟨j, hj, h⟩
    obtain rfl : j = 0 := by omega
    exact h

theorem Smeared.step {m w x : Nat} (h : Smeared m w x) : Smeared m (w + w) (x ||| x >>> w) := by
  intro i
  simp only [Nat.testBit_or, Nat.testBit_shiftRight, Bool.or_eq_true, h i, h (w + i)]
  constructor
  · rintro (⟨j, hj, hb⟩ | ⟨j, hj, hb⟩)
    · exact ⟨j, by omega, hb⟩
    · exact ⟨w + j, by omega, by rwa [show i + (w + j) = w + i + j by omega]⟩
  · rintro ⟨j, hj, hb⟩
    by_cases hjw : j < w
    · exact .inl ⟨j, hjw, hb⟩
    · exact .inr ⟨j - w, by omega, by rwa [show w + i + (j - w) = i + j by omega]⟩

/-- Smeared over its whole width, a number is all ones below its size. -/
theorem Smeared.eq {m w x : Nat} (h : Smeared m w x) (hm : m < 2 ^ w) : x = 2 ^ m.size - 1 := by
  apply Nat.eq_of_testBit_eq
  intro i
  rw [Nat.testBit_two_pow_sub_one, Bool.eq_iff_iff, h i, decide_eq_true_iff]
  constructor
  · rintro ⟨j, -, hb⟩
    rw [Nat.lt_size]
    have := Nat.ge_two_pow_of_testBit hb
    exact le_trans (Nat.pow_le_pow_right (by omega) (by omega)) this
  · intro hi
    have hne : m ≠ 0 := by rintro rfl; simp at hi
    have hs : m.size = m.log2 + 1 := by
      apply le_antisymm
      · rw [Nat.size_le]; exact Nat.lt_log2_self
      · rw [Nat.succ_le_iff, Nat.lt_size]; exact Nat.log2_self_le hne
    have hw : m.size ≤ w := Nat.size_le.2 hm
    refine ⟨m.log2 - i, by omega, ?_⟩
    rw [show i + (m.log2 - i) = m.log2 by omega]
    exact Nat.testBit_log2 hne

theorem isLeast_two_pow {P : Nat → Prop} {k : Nat} (hk : P (2 ^ k))
    (hmin : ∀ i, i < k → ¬ P (2 ^ i)) : IsLeast {p | (∃ i, p = 2 ^ i) ∧ P p} (2 ^ k) := by
  refine ⟨⟨⟨k, rfl⟩, hk⟩, ?_⟩
  rintro _ ⟨⟨i, rfl⟩, hi⟩
  apply Nat.pow_le_pow_right (by omega)
  exact Nat.le_of_not_lt fun hlt => hmin i hlt hi

theorem and_mask_lt {n : Nat} (h : ∃ k, n = 2 ^ k) (x : Nat) : x &&& (n - 1) < n := by
  obtain ⟨k, rfl⟩ := h
  rw [Nat.and_two_pow_sub_one_eq_mod]
  exact Nat.mod_lt _ (Nat.two_pow_pos k)

end VCache.Lib
