import Mathlib.Dynamics.PeriodicPts.Lemmas

/-!
# Invertible steps on words

The steps hash functions are made of: multiplication by an odd constant, a xor with the
word's own upper half, and absorbing a byte. None of them loses anything. What is closed
under an injective step of a finite type is closed under its inverse.
-/

namespace VCache.Lib.Mixing

open Function

variable {c d : UInt64}

theorem mul_bijective (h : c * d = 1) : Bijective fun w : UInt64 => w * c := by
  have hcd : ∀ w : UInt64, w * c * d = w := fun w => by rw [UInt64.mul_assoc, h, UInt64.mul_one]
  have hdc : ∀ w : UInt64, w * d * c = w := fun w => by
    rw [UInt64.mul_assoc, UInt64.mul_comm d, h, UInt64.mul_one]
  constructor
  · intro a b hab
    rw [← hcd a, ← hcd b]
    exact congrArg (· * d) hab
  · intro w
    exact ⟨w * d, hdc w⟩

/-- Two shifts by half the width or more leave nothing. -/
theorem xorShift_involutive {k : UInt64} (hk : 32 ≤ k.toNat % 64) :
    Involutive fun w : UInt64 => w ^^^ (w >>> k) := by
  intro w
  have hgone : w.toNat >>> (k.toNat % 64) >>> (k.toNat % 64) = 0 := by
    rw [← Nat.shiftRight_add, Nat.shiftRight_eq_div_pow]
    apply Nat.div_eq_of_lt
    exact Nat.lt_of_lt_of_le w.toNat_lt (Nat.pow_le_pow_right (by omega) (by omega))
  apply UInt64.toNat_inj.1
  simp only [UInt64.toNat_xor, UInt64.toNat_shiftRight]
  rw [Nat.shiftRight_xor_distrib, hgone, Nat.xor_zero, Nat.xor_assoc, Nat.xor_self, Nat.xor_zero]

/-! ### Absorbing a byte -/

def absorb (c w : UInt64) (byte : UInt8) : UInt64 := (w ^^^ byte.toUInt64) * c

theorem absorb_injective (h : c * d = 1) (byte : UInt8) : Injective fun w => absorb c w byte := by
  intro a b hab
  exact (UInt64.xor_left_inj _).1 ((mul_bijective h).injective hab)

theorem absorb_byte_injective (h : c * d = 1) (w : UInt64) : Injective (absorb c w) := by
  intro a b hab
  exact UInt8.toUInt64_inj.1 ((UInt64.xor_right_inj _).1 ((mul_bijective h).injective hab))

theorem xor_byte (v : UInt64) (byte : UInt8) :
    256 * v ^^^ byte.toUInt64 = 256 * v + byte.toUInt64 := by
  have hbyte : byte.toNat < 2 ^ 8 := byte.toNat_lt
  have hword : (256 * v).toNat = 2 ^ 8 * (v.toNat % 2 ^ 56) := by
    rw [UInt64.toNat_mul]
    show 256 * v.toNat % 2 ^ 64 = _
    omega
  have hxor : 2 ^ 8 * (v.toNat % 2 ^ 56) ^^^ byte.toNat =
      2 ^ 8 * (v.toNat % 2 ^ 56) + byte.toNat := by
    apply Nat.eq_of_testBit_eq
    intro i
    rw [Nat.testBit_two_pow_mul_add _ hbyte, Nat.testBit_xor, Nat.testBit_two_pow_mul]
    split
    next hi => simp [Nat.not_le.2 hi]
    next hi =>
      have hhigh : byte.toNat.testBit i = false := Nat.testBit_lt_two_pow
        (Nat.lt_of_lt_of_le hbyte (Nat.pow_le_pow_right (by omega) (by omega)))
      simp [hhigh, Nat.le_of_not_lt hi]
  apply UInt64.toNat_inj.1
  rw [UInt64.toNat_xor, UInt64.toNat_add, hword, UInt8.toNat_toUInt64, hxor]
  omega

theorem exists_byte (w : UInt64) :
    ∃ (v : UInt64) (byte : UInt8), w = 256 * v ^^^ byte.toUInt64 := by
  refine ⟨w / 256, w.toUInt8, ?_⟩
  rw [xor_byte]
  apply UInt64.toNat_inj.1
  have hlt := w.toNat_lt
  rw [UInt64.toNat_add, UInt64.toNat_mul, UInt64.toNat_div, UInt8.toNat_toUInt64,
    UInt64.toNat_toUInt8]
  show w.toNat = (256 * (w.toNat / 256) % 2 ^ 64 + w.toNat % 2 ^ 8) % 2 ^ 64
  omega

/-! ### Going back -/

theorem finite_word : Finite UInt64 := .of_injective _ fun _ _ => UInt64.toFin_inj.1

/-- The orbit of `x` comes back to it. -/
theorem mem_of_apply_mem {α : Type*} (hfin : Finite α) {f : α → α} (hf : Injective f) {R : Set α}
    (hR : Set.MapsTo f R R) {x : α} (h : f x ∈ R) : x ∈ R := by
  obtain ⟨n, hn, hperiod⟩ := hf.mem_periodicPts x
  obtain ⟨m, rfl⟩ : ∃ m, n = m + 1 := ⟨n - 1, by omega⟩
  have hback : f^[m] (f x) = x := hperiod
  rw [← hback]
  exact hR.iterate m h

end VCache.Lib.Mixing
