import Mathlib.Algebra.BigOperators.Group.List.Basic
import Mathlib.Algebra.GroupWithZero.Nat

/-!
# Sums over the parts of a list

How a sum over the elements of a list changes when one of them is replaced or all of them
are, in terms of what happens to each, and what a loop over the elements gathers.
-/

namespace VCache.Lib

variable {α β : Type}

theorem sum_map_set {f : α → Nat} {a b : α} : ∀ {l : List α} {i : Nat}, l[i]? = some a →
    ((l.set i b).map f).sum + f a = (l.map f).sum + f b
  | c :: l, 0, h => by
    obtain rfl := Option.some.inj h
    simp only [List.set_cons_zero, List.map_cons, List.sum_cons]
    omega
  | c :: l, i + 1, h => by
    have ih := sum_map_set (f := f) (b := b) (l := l) (i := i) h
    simp only [List.set_cons_succ, List.map_cons, List.sum_cons]
    omega

theorem map_mapIdx {g : Nat → α → β} {f : β → Nat} :
    ∀ l : List α, (l.mapIdx g).map f = l.mapIdx fun i a => f (g i a)
  | [] => rfl
  | a :: l => by rw [List.mapIdx_cons, List.map_cons, List.mapIdx_cons, map_mapIdx l]

theorem sum_mapIdx_add {l : List α} {p q : Nat → α → Nat} {f : α → Nat}
    (h : ∀ i a, l[i]? = some a → p i a + q i a = f a) :
    (l.mapIdx p).sum + (l.mapIdx q).sum = (l.map f).sum := by
  induction l generalizing p q with
  | nil => rfl
  | cons a l ih =>
    have h0 := h 0 a rfl
    have ih := ih (p := fun i => p (i + 1)) (q := fun i => q (i + 1)) fun i b hb => h (i + 1) b hb
    simp only [List.mapIdx_cons, List.map_cons, List.sum_cons]
    omega

/-! ## Loops that gather -/

theorem mapIdx_const (f : α → β) : ∀ l : List α, l.mapIdx (fun _ => f) = l.map f
  | [] => rfl
  | a :: l => by rw [List.mapIdx_cons, mapIdx_const f l, List.map_cons]

theorem foldl_append_eq (f : α → List β) : ∀ (l : List α) (acc : List β),
    l.foldl (fun acc a => acc ++ f a) acc = acc ++ (l.map f).flatten
  | [], acc => by simp
  | a :: l, acc => by rw [List.foldl_cons, foldl_append_eq f l]; simp

theorem foldl_add_eq (f : α → Nat) : ∀ (l : List α) (acc : Nat),
    l.foldl (fun acc a => acc + f a) acc = acc + (l.map f).sum
  | [], acc => by simp
  | a :: l, acc => by rw [List.foldl_cons, foldl_add_eq f l]; simp; omega

end VCache.Lib
