import VCache.Lib.Damage
import VCache.Lib.Mixing
import VCache.Table.Model

/-!
# The key hash

FNV-1a absorbs a key byte by byte, and the avalanche mixes the result. Every step can be
undone. So the avalanche merges no two values, a change of one byte shows in the hash, and
every word is the hash of some key.
-/

namespace VCache

open VCache.Lib

namespace HashTable

/-! ### The avalanche -/

theorem avalanche_bijective : Function.Bijective avalanche := by
  have hshift : Function.Bijective fun w : UInt64 => w ^^^ (w >>> 33) :=
    (Mixing.xorShift_involutive (by decide)).bijective
  have hfirst : Function.Bijective fun w : UInt64 => w * 0xff51afd7ed558ccd :=
    Mixing.mul_bijective (d := 0x4f74430c22a54005) (by decide)
  have hsecond : Function.Bijective fun w : UInt64 => w * 0xc4ceb9fe1a85ec53 :=
    Mixing.mul_bijective (d := 0x9cb4b2f8129337db) (by decide)
  exact hshift.comp (hsecond.comp (hshift.comp (hfirst.comp hshift)))

theorem hashKey_eq_iff (a b : Bytes) :
    hashKey a = hashKey b ↔ fnv1a kFnvOffsetBasis a = fnv1a kFnvOffsetBasis b :=
  avalanche_bijective.injective.eq_iff

/-! ### FNV-1a -/

theorem kFnvPrime_unit : kFnvPrime * 0xce965057aff6957b = 1 := by decide

theorem fnv1a_eq_foldl (hash : UInt64) (key : Bytes) :
    fnv1a hash key = key.foldl (Mixing.absorb kFnvPrime) hash := rfl

theorem fnv1a_damaged {i : Nat} {a b : Bytes} (h : Damage.At i a b) (hash : UInt64) :
    fnv1a hash a ≠ fnv1a hash b := by
  rw [fnv1a_eq_foldl, fnv1a_eq_foldl]
  exact h.foldl_ne (Mixing.absorb_injective kFnvPrime_unit)
    (Mixing.absorb_byte_injective kFnvPrime_unit) hash

/-- **The hash loses nothing of FNV-1a**, which tells any two keys apart that differ in one
byte. -/
theorem hashKey_faithful :
    Function.Bijective avalanche ∧
    (∀ a b, hashKey a = hashKey b ↔ fnv1a kFnvOffsetBasis a = fnv1a kFnvOffsetBasis b) ∧
    ∀ a b : Bytes, b.length = a.length → (∃! i : Nat, a[i]? ≠ b[i]?) → hashKey a ≠ hashKey b := by
  refine ⟨avalanche_bijective, hashKey_eq_iff, fun a b hlen hone heq => ?_⟩
  obtain ⟨i, hat⟩ := Damage.exists_at hlen hone
  exact fnv1a_damaged hat _ ((hashKey_eq_iff a b).1 heq)

/-- Two bytes that sign extension would have mixed with the bits above them. -/
theorem hashKey_faithful_high : hashKey [0x61, 0x80, 0x62] ≠ hashKey [0x61, 0xff, 0x62] := by
  refine hashKey_faithful.2.2 _ _ rfl ⟨1, by decide, fun j hj => ?_⟩
  rcases j with _ | _ | _ | j
  · exact absurd rfl hj
  · rfl
  · exact absurd rfl hj
  · exact absurd rfl hj

/-! ### Every word is a hash -/

/-- The states FNV-1a can be in after some key. -/
def reached : Set UInt64 := Set.range (fnv1a kFnvOffsetBasis)

theorem absorb_mem_reached_iff (w : UInt64) (byte : UInt8) :
    Mixing.absorb kFnvPrime w byte ∈ reached ↔ w ∈ reached := by
  have hstep : Set.MapsTo (fun w => Mixing.absorb kFnvPrime w byte) reached reached := by
    rintro _ ⟨key, rfl⟩
    refine ⟨key ++ [byte], ?_⟩
    rw [fnv1a_eq_foldl, List.foldl_append]
    rfl
  refine ⟨fun h => ?_, fun h => hstep h⟩
  exact Mixing.mem_of_apply_mem Mixing.finite_word (Mixing.absorb_injective kFnvPrime_unit byte)
    hstep h

theorem mul_mem_reached_iff (w : UInt64) : w * kFnvPrime ∈ reached ↔ w ∈ reached := by
  have h := absorb_mem_reached_iff w 0
  rwa [Mixing.absorb, show (0 : UInt8).toUInt64 = 0 from rfl, UInt64.xor_zero] at h

theorem xor_mem_reached_iff (w : UInt64) (byte : UInt8) :
    w ^^^ byte.toUInt64 ∈ reached ↔ w ∈ reached := by
  rw [← mul_mem_reached_iff]
  exact absorb_mem_reached_iff w byte

/-- With the low byte free, the upper bytes can be counted up in steps of an odd number: a
byte `1` in front of the multiplication adds the upper part of the prime. -/
theorem step_mem_reached_iff (v : UInt64) :
    256 * (v + 0x100000001) ∈ reached ↔ 256 * v ∈ reached := by
  have hunit := kFnvPrime_unit
  obtain ⟨u, rfl⟩ : ∃ u, v = u * kFnvPrime := ⟨v * 0xce965057aff6957b, by grind⟩
  have hone : (1 : UInt8).toUInt64 = 1 := rfl
  have hprime : kFnvPrime = 256 * 0x100000001 + (179 : UInt8).toUInt64 := rfl
  calc 256 * (u * kFnvPrime + 0x100000001) ∈ reached
      ↔ 256 * (u * kFnvPrime + 0x100000001) + (179 : UInt8).toUInt64 ∈ reached := by
        rw [← Mixing.xor_byte, xor_mem_reached_iff]
    _ ↔ (256 * u + 1) * kFnvPrime ∈ reached := by
        rw [show (256 * u + 1) * kFnvPrime =
          256 * (u * kFnvPrime + 0x100000001) + (179 : UInt8).toUInt64 by grind]
    _ ↔ 256 * u ∈ reached := by
        rw [mul_mem_reached_iff, ← hone, ← Mixing.xor_byte, xor_mem_reached_iff]
    _ ↔ 256 * (u * kFnvPrime) ∈ reached := by
        rw [← mul_mem_reached_iff, UInt64.mul_assoc]

theorem steps_mem_reached_iff (v : UInt64) (k : Nat) :
    256 * (v + UInt64.ofNat k * 0x100000001) ∈ reached ↔ 256 * v ∈ reached := by
  induction k with
  | zero => rw [show UInt64.ofNat 0 = 0 from rfl, UInt64.zero_mul, UInt64.add_zero]
  | succ k ih =>
    have hsucc : v + UInt64.ofNat (k + 1) * 0x100000001 =
        v + UInt64.ofNat k * 0x100000001 + 0x100000001 := by
      rw [UInt64.ofNat_add]
      grind
    rw [hsucc, step_mem_reached_iff, ih]

theorem upper_mem_reached_iff (v : UInt64) : 256 * v ∈ reached ↔ 0 ∈ reached := by
  have hunit : (0x100000001 : UInt64) * 0xffffffff00000001 = 1 := by decide
  rw [← steps_mem_reached_iff v (-v * 0xffffffff00000001).toNat, UInt64.ofNat_toNat]
  rw [show 256 * (v + -v * 0xffffffff00000001 * 0x100000001) = 0 by grind]

theorem mem_reached_iff_zero (w : UInt64) : w ∈ reached ↔ 0 ∈ reached := by
  obtain ⟨v, byte, rfl⟩ := Mixing.exists_byte w
  rw [xor_mem_reached_iff, upper_mem_reached_iff]

theorem mem_reached (w : UInt64) : w ∈ reached := by
  have hstart : kFnvOffsetBasis ∈ reached := ⟨[], rfl⟩
  exact (mem_reached_iff_zero w).2 ((mem_reached_iff_zero _).1 hstart)

/-- **Every word is the hash of some key.** -/
theorem hashKey_surjective : Function.Surjective hashKey := by
  intro w
  obtain ⟨mixed, rfl⟩ := avalanche_bijective.surjective w
  obtain ⟨key, rfl⟩ := mem_reached mixed
  exact ⟨key, rfl⟩

end HashTable

end VCache
