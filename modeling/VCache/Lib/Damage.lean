import Mathlib.Logic.Function.Basic

/-!
# Damage to one element

Two lists of one length that differ at one position share what stands in front of it and
what follows. A fold whose step is injective, in the state for every element and in the
element for every state, tells them apart.
-/

namespace VCache.Lib.Damage

/-- The lists differ at one position and nowhere else. -/
structure At {α : Type} (i : Nat) (xs ys : List α) : Prop where
  length : ys.length = xs.length
  differ : xs[i]? ≠ ys[i]?
  same : ∀ j, j ≠ i → xs[j]? = ys[j]?

variable {α σ : Type} {i n : Nat} {xs ys : List α}

theorem exists_at (hlen : ys.length = xs.length) (hone : ∃! i : Nat, xs[i]? ≠ ys[i]?) :
    ∃ i, At i xs ys := by
  obtain ⟨i, hi, huniq⟩ := hone
  exact ⟨i, hlen, hi, fun j hj => by_contra fun hne => hj (huniq j hne)⟩

theorem At.lt (h : At i xs ys) : i < xs.length := by
  by_contra hge
  exact h.differ (by rw [List.getElem?_eq_none (by omega),
    List.getElem?_eq_none (by rw [h.length]; omega)])

theorem At.ne (h : At i xs ys) : xs ≠ ys := by
  rintro rfl
  exact h.differ rfl

theorem At.take_eq (h : At i xs ys) (hi : n ≤ i) : xs.take n = ys.take n := by
  refine List.ext_getElem? fun j => ?_
  by_cases hj : j < n
  · rw [List.getElem?_take_of_lt hj, List.getElem?_take_of_lt hj, h.same j (by omega)]
  · rw [List.getElem?_take_eq_none (by omega), List.getElem?_take_eq_none (by omega)]

theorem At.drop_eq (h : At i xs ys) (hi : i < n) : xs.drop n = ys.drop n := by
  refine List.ext_getElem? fun j => ?_
  rw [List.getElem?_drop, List.getElem?_drop, h.same (n + j) (by omega)]

theorem At.take (h : At i xs ys) (hi : i < n) : At i (xs.take n) (ys.take n) where
  length := by rw [List.length_take, List.length_take, h.length]
  differ := by
    rw [List.getElem?_take_of_lt hi, List.getElem?_take_of_lt hi]
    exact h.differ
  same := fun j hj => by
    by_cases hn : j < n
    · rw [List.getElem?_take_of_lt hn, List.getElem?_take_of_lt hn, h.same j hj]
    · rw [List.getElem?_take_eq_none (by omega), List.getElem?_take_eq_none (by omega)]

theorem At.exists_eq (h : At i xs ys) :
    ∃ a b, a ≠ b ∧ xs = xs.take i ++ a :: xs.drop (i + 1) ∧
      ys = xs.take i ++ b :: xs.drop (i + 1) := by
  have hx := h.lt
  have hy : i < ys.length := by rw [h.length]; exact hx
  refine ⟨xs[i], ys[i], fun hab => h.differ ?_, ?_, ?_⟩
  · rw [List.getElem?_eq_getElem hx, List.getElem?_eq_getElem hy, hab]
  · rw [← List.drop_eq_getElem_cons hx, List.take_append_drop]
  · rw [h.take_eq (Nat.le_refl i), h.drop_eq (Nat.lt_succ_self i), ← List.drop_eq_getElem_cons hy,
      List.take_append_drop]

theorem foldl_injective {step : σ → α → σ} (hs : ∀ a, Function.Injective fun s => step s a) :
    ∀ xs : List α, Function.Injective fun s => xs.foldl step s
  | [], _, _, h => h
  | a :: xs, _, _, h => hs a (foldl_injective hs xs h)

theorem At.foldl_ne {step : σ → α → σ} (h : At i xs ys)
    (hs : ∀ a, Function.Injective fun s => step s a) (ha : ∀ s, Function.Injective (step s))
    (s : σ) : xs.foldl step s ≠ ys.foldl step s := by
  obtain ⟨a, b, hab, hx, hy⟩ := h.exists_eq
  intro heq
  rw [hx, hy, List.foldl_append, List.foldl_append, List.foldl_cons, List.foldl_cons] at heq
  exact hab (ha _ (foldl_injective hs _ heq))

end VCache.Lib.Damage
