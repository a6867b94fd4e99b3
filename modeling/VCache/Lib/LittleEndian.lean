import Mathlib.Data.Nat.Bitwise
import Mathlib.Tactic.Ring

/-!
# Little-endian bytes

`split w n` is the low `w` bytes of `n`, least significant first. `combine` puts bytes
together again with shifts and disjunctions, which for bytes amounts to base 256.
-/

namespace VCache.Lib.LittleEndian

/-- The low `w` bytes of `n`. -/
def split (w n : Nat) : List UInt8 :=
  (List.range w).map fun i => UInt8.ofNat ((n >>> (8 * i)) &&& 0xff)

/-- Or the bytes into `v`, the first one shifted by `8 * i`. -/
def combineFrom (i v : Nat) : List UInt8 → Nat
  | [] => v
  | b :: bs => combineFrom (i + 1) (v ||| (b.toNat <<< (8 * i))) bs

def combine (bs : List UInt8) : Nat := combineFrom 0 0 bs

@[simp] theorem length_split (w n : Nat) : (split w n).length = w := by
  simp [split]

theorem split_succ (w n : Nat) : split (w + 1) n = UInt8.ofNat (n % 256) :: split w (n / 256) := by
  unfold split
  rw [List.range_succ_eq_map, List.map_cons, List.map_map]
  congr 1
  · rw [Nat.mul_zero, Nat.shiftRight_zero, show 0xff = 2 ^ 8 - 1 by rfl,
      Nat.and_two_pow_sub_one_eq_mod]
  · refine List.map_congr_left fun i _ => ?_
    rw [Function.comp_apply, Nat.shiftRight_eq_div_pow, Nat.shiftRight_eq_div_pow,
      Nat.div_div_eq_div_mul, show 8 * i.succ = 8 + 8 * i by omega, Nat.pow_add]

theorem combineFrom_eq {i v : Nat} (h : v < 2 ^ (8 * i)) :
    ∀ w n, combineFrom i v (split w n) = v + 2 ^ (8 * i) * (n % 256 ^ w) := by
  intro w
  induction w generalizing i v with
  | zero => intro n; simp [split, combineFrom, Nat.mod_one]
  | succ w ih =>
    intro n
    have hb : (UInt8.ofNat (n % 256)).toNat = n % 256 := by
      rw [UInt8.toNat_ofNat']; omega
    rw [split_succ, combineFrom, hb, Nat.or_comm, ← Nat.shiftLeft_add_eq_or_of_lt h,
      Nat.shiftLeft_eq, ih, Nat.pow_succ', Nat.mod_mul, show 8 * (i + 1) = 8 * i + 8 by omega,
      Nat.pow_add]
    · ring
    · have : n % 256 < 256 := Nat.mod_lt _ (by omega)
      have := Nat.mul_le_mul_right (2 ^ (8 * i)) (show n % 256 ≤ 255 by omega)
      rw [show 8 * (i + 1) = 8 * i + 8 by omega, Nat.pow_add]
      omega

theorem combine_split {w n : Nat} (h : n < 256 ^ w) : combine (split w n) = n := by
  rw [combine, combineFrom_eq (by simp), Nat.mod_eq_of_lt h]
  omega

theorem exists_split : ∀ bs : List UInt8, ∃ n, n < 256 ^ bs.length ∧ split bs.length n = bs
  | [] => ⟨0, by simp, rfl⟩
  | b :: bs => by
    obtain ⟨n, hn, hs⟩ := exists_split bs
    have hb : b.toNat < 256 := b.toNat_lt
    refine ⟨b.toNat + 256 * n, ?_, ?_⟩
    · rw [List.length_cons, Nat.pow_succ]
      omega
    · rw [List.length_cons, split_succ, show (b.toNat + 256 * n) % 256 = b.toNat by omega,
        show (b.toNat + 256 * n) / 256 = n by omega, hs, UInt8.ofNat_toNat]

theorem combine_lt (bs : List UInt8) : combine bs < 256 ^ bs.length := by
  obtain ⟨n, hn, hs⟩ := exists_split bs
  rw [← hs, combine_split hn, length_split]
  exact hn

theorem split_combine (bs : List UInt8) : split bs.length (combine bs) = bs := by
  obtain ⟨n, hn, hs⟩ := exists_split bs
  have hc : combine bs = n := by rw [← hs, combine_split hn]
  rw [hc, hs]

theorem split_inj {w m n : Nat} (hm : m < 256 ^ w) (hn : n < 256 ^ w) (h : split w m = split w n) :
    m = n := by
  rw [← combine_split hm, h, combine_split hn]

end VCache.Lib.LittleEndian
