import Mathlib.Data.Set.Card

/-!
# Two fields of a number

A number read as a high field, a gap of size `G` and a low field of size `B`. Every pair of
high and low values belongs to exactly `G` numbers.
-/

namespace VCache.Lib.BitFields

/-- The number with the fields `i`, `m`, `j`, from the top. -/
def join (G B i m j : Nat) : Nat := (i * G + m) * B + j

theorem join_div {G B i m j : Nat} (hm : m < G) (hj : j < B) : join G B i m j / (B * G) = i := by
  rw [← Nat.div_div_eq_div_mul, join, Nat.mul_comm _ B, Nat.mul_add_div (by omega),
    Nat.div_eq_of_lt hj, Nat.add_zero, Nat.mul_comm i, Nat.mul_add_div (by omega),
    Nat.div_eq_of_lt hm, Nat.add_zero]

theorem join_mod {G B i m j : Nat} (hj : j < B) : join G B i m j % B = j := by
  rw [join, Nat.mul_comm _ B, Nat.mul_add_mod, Nat.mod_eq_of_lt hj]

theorem join_injective {G B i j : Nat} (hj : j < B) :
    Function.Injective fun m => join G B i m j := by
  intro m m' h
  have h' : (i * G + m) * B = (i * G + m') * B := Nat.add_right_cancel h
  have := Nat.eq_of_mul_eq_mul_right (by omega) h'
  omega

theorem join_fields (G B x : Nat) : join G B (x / (B * G)) (x / B % G) (x % B) = x := by
  rw [join, ← Nat.div_div_eq_div_mul, Nat.div_add_mod', Nat.div_add_mod']

theorem fields_eq_image {G B i j : Nat} (hG : 0 < G) (hj : j < B) :
    {x | x / (B * G) = i ∧ x % B = j} = (fun m => join G B i m j) '' Finset.range G := by
  ext x
  constructor
  · rintro ⟨rfl, rfl⟩
    exact ⟨x / B % G, Finset.mem_coe.2 (Finset.mem_range.2 (Nat.mod_lt _ hG)), join_fields G B x⟩
  · rintro ⟨m, hm, rfl⟩
    rw [Finset.mem_coe, Finset.mem_range] at hm
    exact ⟨join_div hm hj, join_mod hj⟩

theorem ncard_fields {G B i j : Nat} (hG : 0 < G) (hj : j < B) :
    {x | x / (B * G) = i ∧ x % B = j}.ncard = G := by
  rw [fields_eq_image hG hj, Set.ncard_image_of_injective _ (join_injective hj),
    Set.ncard_coe_finset, Finset.card_range]

theorem ncard_word {P : Nat → Prop} (hP : ∀ x, P x → x < 2 ^ 64) :
    {w : UInt64 | P w.toNat}.ncard = {x | P x}.ncard := by
  have himage : UInt64.toNat '' {w | P w.toNat} = {x | P x} := by
    ext x
    constructor
    · rintro ⟨w, hw, rfl⟩
      exact hw
    · intro hx
      have hx64 : (UInt64.ofNat x).toNat = x := UInt64.toNat_ofNat_of_lt' (hP x hx)
      refine ⟨UInt64.ofNat x, ?_, hx64⟩
      show P (UInt64.ofNat x).toNat
      rw [hx64]
      exact hx
  rw [← himage, Set.ncard_image_of_injective]
  exact fun _ _ => UInt64.toNat_inj.1

/-- **Two fields of a word.** The top `s` bits and the low `b` bits of a word are any given
pair of values for exactly `2 ^ (64 - s - b)` words. -/
theorem ncard_word_fields {s b i j : Nat} (hsb : s + b ≤ 64) (hi : i < 2 ^ s) (hj : j < 2 ^ b) :
    {w : UInt64 | w.toNat >>> (64 - s) = i ∧ w.toNat % 2 ^ b = j}.ncard = 2 ^ (64 - s - b) := by
  have hsplit : 2 ^ (64 - s) = 2 ^ b * 2 ^ (64 - s - b) := by
    rw [← Nat.pow_add, show b + (64 - s - b) = 64 - s by omega]
  rw [ncard_word (P := fun x => x >>> (64 - s) = i ∧ x % 2 ^ b = j)]
  · simp only [Nat.shiftRight_eq_div_pow, hsplit]
    exact ncard_fields (Nat.two_pow_pos _) hj
  · rintro x ⟨rfl, -⟩
    rw [Nat.shiftRight_eq_div_pow, Nat.div_lt_iff_lt_mul (Nat.two_pow_pos _), ← Nat.pow_add,
      show s + (64 - s) = 64 by omega] at hi
    exact hi

end VCache.Lib.BitFields
