/-!
# Items off a stream

A format that is read off a stream one item at a time: what has arrived holds an item, or too
little of one, or something that is none. If more to come does not change an item that is
there, then the items read are those of the whole stream, however it arrives.
-/

namespace VCache.Lib

variable {ι β : Type}

inductive Taken (ι β : Type) where
  | item (i : ι) (rest : List β)
  | more
  | bad

variable (take : List β → Taken ι β)

/-- The first so many items. -/
def takeMany : Nat → List β → Option (List ι × List β)
  | 0, s => some ([], s)
  | k + 1, s =>
    match take s with
    | .item i rest => (takeMany k rest).map fun p => (i :: p.1, p.2)
    | _ => none

/-- What arrives later does not change an item. -/
def Steady : Prop := ∀ s i rest, take s = .item i rest → ∀ t, take (s ++ t) = .item i (rest ++ t)

variable {take} {k : Nat} {s t rest rest' : List β} {i : ι} {is is' : List ι}

theorem takeMany_cons (h : take s = .item i rest) (k : Nat) :
    takeMany take (k + 1) s = (takeMany take k rest).map fun p => (i :: p.1, p.2) := by
  rw [takeMany, h]

theorem takeMany_append (hsteady : Steady take) (h : takeMany take k s = some (is, rest))
    (t : List β) : takeMany take k (s ++ t) = some (is, rest ++ t) := by
  induction k generalizing s is with
  | zero => cases h; rfl
  | succ k ih =>
    rw [takeMany] at h
    split at h
    next i after hs =>
      obtain ⟨p, hp, he⟩ := Option.map_eq_some_iff.1 h
      cases he
      rw [takeMany_cons (hsteady s i after hs t), ih hp]
      rfl
    next => cases h

theorem takeMany_snoc (h : takeMany take k s = some (is, rest)) (hi : take rest = .item i rest') :
    takeMany take (k + 1) s = some (is ++ [i], rest') := by
  induction k generalizing s is with
  | zero =>
    cases h
    rw [takeMany_cons hi]
    rfl
  | succ k ih =>
    rw [takeMany] at h
    split at h
    next j after hs =>
      obtain ⟨p, hp, he⟩ := Option.map_eq_some_iff.1 h
      cases he
      rw [takeMany_cons hs, ih hp]
      rfl
    next => cases h

theorem takeMany_items {l : List (ι × List β)} (h : ∀ p ∈ l, ∀ t, take (p.2 ++ t) = .item p.1 t)
    (t : List β) : takeMany take l.length (l.flatMap (·.2) ++ t) = some (l.map (·.1), t) := by
  induction l with
  | nil => rfl
  | cons p l ih =>
    have hp := h p (.head _) (l.flatMap (·.2) ++ t)
    rw [List.flatMap_cons, List.append_assoc, List.length_cons, takeMany_cons hp,
      ih fun q hq => h q (.tail _ hq)]
    rfl

/-- Where a stream ends behind its items, no others can be read off it. -/
theorem takeMany_prefix {m : Nat} (h : takeMany take k s = some (is, rest))
    (h' : takeMany take m s = some (is', rest')) (hend : ∀ i r, take rest' ≠ .item i r) :
    is <+: is' := by
  induction m generalizing k s is is' with
  | zero =>
    cases h'
    cases k with
    | zero => cases h; exact List.prefix_rfl
    | succ k =>
      rw [takeMany] at h
      split at h
      next i after hs => exact absurd hs (hend i after)
      next => cases h
  | succ m ih =>
    cases k with
    | zero => cases h; exact List.nil_prefix
    | succ k =>
      rw [takeMany] at h h'
      split at h
      next i after hs =>
        rw [hs] at h'
        obtain ⟨p, hp, he⟩ := Option.map_eq_some_iff.1 h
        obtain ⟨p', hp', he'⟩ := Option.map_eq_some_iff.1 h'
        cases he
        cases he'
        exact List.prefix_cons_iff.2 (.inr ⟨p.1, rfl, ih hp hp'⟩)
      next => cases h

end VCache.Lib
