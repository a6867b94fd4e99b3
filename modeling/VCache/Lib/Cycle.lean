import Mathlib.Data.Nat.ModEq

/-!
# Windows on a cycle

Positions on a cycle of `b` places, counted from a start and taken modulo `b`. Windows of
`s` places laid end to end cover the cycle as soon as together they are `b` long.
-/

namespace VCache.Lib

theorem exists_offset {b i : Nat} (c : Nat) (hi : i < b) : ∃ o, o < b ∧ (c + o) % b = i := by
  have hc : c % b < b := Nat.mod_lt _ (by omega)
  by_cases h : c % b ≤ i
  · refine ⟨i - c % b, by omega, ?_⟩
    rw [← Nat.mod_add_mod, show c % b + (i - c % b) = i by omega, Nat.mod_eq_of_lt hi]
  · refine ⟨i + b - c % b, by omega, ?_⟩
    rw [← Nat.mod_add_mod, show c % b + (i + b - c % b) = i + b by omega, Nat.add_mod_right,
      Nat.mod_eq_of_lt hi]

theorem offset_inj {b o o' : Nat} (c : Nat) (ho : o < b) (ho' : o' < b)
    (h : (c + o) % b = (c + o') % b) : o = o' := by
  have hmod : o ≡ o' [MOD b] := Nat.ModEq.add_left_cancel' c h
  exact hmod.eq_of_lt_of_lt ho ho'

/-- `n` windows of `s` places, end to end from `c`, reach every place. -/
theorem exists_window {b s n i : Nat} (c : Nat) (hi : i < b) (hcover : b ≤ n * s) :
    ∃ j, j < n ∧ ∃ o, o < s ∧ (c + j * s + o) % b = i := by
  obtain ⟨o, ho, e⟩ := exists_offset c hi
  have hs : 0 < s := Nat.pos_of_ne_zero fun h0 => by rw [h0, Nat.mul_zero] at hcover; omega
  refine ⟨o / s, (Nat.div_lt_iff_lt_mul hs).2 (by omega), o % s, Nat.mod_lt _ hs, ?_⟩
  rw [Nat.add_assoc, Nat.mul_comm, Nat.div_add_mod, e]

/-! ## A hand that goes round -/

/-- The last `n` places that the hand has passed are clean. -/
def Behind (b : Nat) (clean : Nat → Prop) (hand n : Nat) : Prop :=
  ∃ c, hand % b = (c + n) % b ∧ ∀ o, o < n → clean ((c + o) % b)

section

variable {b hand n : Nat} {clean clean' : Nat → Prop}

theorem Behind.start : Behind b clean hand 0 :=
  ⟨hand, rfl, fun _ ho => absurd ho (Nat.not_lt_zero _)⟩

theorem Behind.mono (h : Behind b clean hand n) (hc : ∀ i, clean i → clean' i) :
    Behind b clean' hand n := by
  obtain ⟨c, hhand, hclean⟩ := h
  exact ⟨c, hhand, fun o ho => hc _ (hclean o ho)⟩

theorem Behind.pass {k : Nat} (h : Behind b clean hand n)
    (hk : ∀ o, o < k → clean ((hand + o) % b)) : Behind b clean ((hand + k) % b) (n + k) := by
  obtain ⟨c, hhand, hclean⟩ := h
  refine ⟨c, ?_, fun o ho => ?_⟩
  · rw [Nat.mod_mod, ← Nat.mod_add_mod, hhand, Nat.mod_add_mod, Nat.add_assoc]
  · rcases Nat.lt_or_ge o n with hlt | hge
    · exact hclean o hlt
    · have hplace : (c + o) % b = (hand + (o - n)) % b := by
        rw [← Nat.mod_add_mod hand, hhand, Nat.mod_add_mod]
        congr 1
        omega
      rw [hplace]
      exact hk (o - n) (by omega)

theorem Behind.all (h : Behind b clean hand n) (hn : b ≤ n) {i : Nat} (hi : i < b) : clean i := by
  obtain ⟨c, -, hclean⟩ := h
  obtain ⟨o, ho, rfl⟩ := exists_offset c hi
  exact hclean o (Nat.lt_of_lt_of_le ho hn)

end

end VCache.Lib
