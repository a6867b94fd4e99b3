import Mathlib.Data.List.Basic
import Mathlib.Data.List.Nodup
import Mathlib.Data.List.Perm.Basic

/-!
# Bucket arrays

A bucket array is a list of chains. `Placed h bs` says every element `a` sits in
chain `h a`. Insertion goes to the front of one chain, removal drops elements
of one chain, and `rehash` moves every element, chain by chain, into fresh
chains chosen by another index function. Each has a lemma for `Placed` and one
for the elements held, `bs.flatten`.
-/

namespace VCache.Lib

variable {α : Type}

/-- Every element sits in the chain its index names. -/
def Placed (h : α → Nat) (bs : List (List α)) : Prop :=
  ∀ i c, bs[i]? = some c → ∀ a ∈ c, h a = i

theorem placed_replicate (h : α → Nat) (n : Nat) : Placed h (List.replicate n []) := by
  intro i c e a ha
  rw [List.getElem?_replicate] at e
  split at e
  · cases e; cases ha
  · cases e

theorem Placed.mem_iff {h : α → Nat} {bs : List (List α)} (hp : Placed h bs) {a : α} :
    a ∈ bs.flatten ↔ ∃ c, bs[h a]? = some c ∧ a ∈ c := by
  constructor
  · intro ha
    obtain ⟨c, hc, hac⟩ := List.mem_flatten.1 ha
    obtain ⟨i, hi⟩ := List.mem_iff_getElem?.1 hc
    have := hp i c hi a hac
    exact ⟨c, this ▸ hi, hac⟩
  · rintro ⟨c, hc, hac⟩
    exact List.mem_flatten.2 ⟨c, List.mem_of_getElem? hc, hac⟩

theorem Placed.congr {h h' : α → Nat} {bs : List (List α)} (hp : Placed h bs)
    (e : ∀ a ∈ bs.flatten, h' a = h a) : Placed h' bs := by
  intro i c hc a ha
  rw [e a (List.mem_flatten.2 ⟨c, List.mem_of_getElem? hc, ha⟩)]
  exact hp i c hc a ha

theorem Placed.modify {h : α → Nat} {bs : List (List α)} {i : Nat} {f : List α → List α}
    (hp : Placed h bs) (hf : ∀ c, bs[i]? = some c → ∀ a ∈ f c, a ∈ c ∨ h a = i) :
    Placed h (bs.modify i f) := by
  intro j c hc a ha
  rw [List.getElem?_modify] at hc
  obtain ⟨c₀, hc₀, rfl⟩ := Option.map_eq_some_iff.1 hc
  by_cases hij : i = j
  · subst hij
    simp only [if_true] at ha
    rcases hf c₀ hc₀ a ha with h1 | h1
    · exact hp i c₀ hc₀ a h1
    · exact h1
  · simp only [hij, if_false] at ha
    exact hp j c₀ hc₀ a ha

/-! ## Insertion -/

theorem flatten_modify_cons {bs : List (List α)} {i : Nat} (hi : i < bs.length) (a : α) :
    (bs.modify i (a :: ·)).flatten.Perm (a :: bs.flatten) := by
  obtain ⟨l₁, c, l₂, rfl, -, e⟩ := List.exists_of_modify (a :: ·) hi
  rw [e]
  simp only [List.flatten_append, List.flatten_cons, List.cons_append]
  exact List.perm_middle

theorem Placed.modify_cons {h : α → Nat} {bs : List (List α)} (hp : Placed h bs) (a : α) :
    Placed h (bs.modify (h a) (a :: ·)) :=
  hp.modify fun _ _ _ hb => (List.mem_cons.1 hb).elim (fun e => .inr (e ▸ rfl)) .inl

/-! ## Removal -/

section
variable [DecidableEq α]

theorem flatten_modify_erase {h : α → Nat} {bs : List (List α)} (hp : Placed h bs) {a : α}
    (ha : a ∈ bs.flatten) : (bs.modify (h a) (·.erase a)).flatten.Perm (bs.flatten.erase a) := by
  obtain ⟨c, hc, hac⟩ := hp.mem_iff.1 ha
  obtain ⟨hi, rfl⟩ := List.getElem?_eq_some_iff.1 hc
  obtain ⟨l₁, c, l₂, e₁, e₂, e⟩ := List.exists_of_modify (·.erase a) hi
  rw [e]
  have hc' : bs[h a] = c := by simp [e₁, ← e₂]
  rw [hc'] at hac
  rw [e₁]
  simp only [List.flatten_append, List.flatten_cons]
  have p1 : (l₁.flatten ++ (c.erase a ++ l₂.flatten)).Perm
      (c.erase a ++ (l₁.flatten ++ l₂.flatten)) := by
    rw [← List.append_assoc, ← List.append_assoc]
    exact (List.perm_append_comm).append_right _
  have p2 : (l₁.flatten ++ (c ++ l₂.flatten)).Perm (c ++ (l₁.flatten ++ l₂.flatten)) := by
    rw [← List.append_assoc, ← List.append_assoc]
    exact (List.perm_append_comm).append_right _
  refine p1.trans ((p2.erase a).trans ?_).symm
  rw [List.erase_append_left _ hac]

theorem Placed.modify_erase {h : α → Nat} {bs : List (List α)} (hp : Placed h bs) (i : Nat)
    (a : α) : Placed h (bs.modify i (·.erase a)) :=
  hp.modify fun _ _ _ hb => .inl (List.mem_of_mem_erase hb)

end

/-! ## Rehashing -/

/-- Move every element, chain by chain, to the front of its chain among `n` new ones. -/
def rehash (h : α → Nat) (n : Nat) (bs : List (List α)) : List (List α) :=
  bs.flatten.foldl (fun acc a => acc.modify (h a) (a :: ·)) (List.replicate n [])

theorem foldl_insert_spec {h : α → Nat} {n : Nat} (hn : ∀ a, h a < n) :
    ∀ (l : List α) (bs : List (List α)), bs.length = n → Placed h bs →
      (l.foldl (fun acc a => acc.modify (h a) (a :: ·)) bs).length = n ∧
      Placed h (l.foldl (fun acc a => acc.modify (h a) (a :: ·)) bs) ∧
      (l.foldl (fun acc a => acc.modify (h a) (a :: ·)) bs).flatten.Perm (l ++ bs.flatten)
  | [], bs, hl, hp => ⟨hl, hp, List.Perm.refl _⟩
  | a :: l, bs, hl, hp => by
    obtain ⟨h1, h2, h3⟩ := foldl_insert_spec hn l (bs.modify (h a) (a :: ·)) (by simpa using hl)
      (hp.modify_cons a)
    refine ⟨h1, h2, h3.trans ?_⟩
    exact ((flatten_modify_cons (hl ▸ hn a) a).append_left l).trans List.perm_middle

theorem rehash_length {h : α → Nat} {n : Nat} (hn : ∀ a, h a < n) (bs : List (List α)) :
    (rehash h n bs).length = n :=
  (foldl_insert_spec hn _ _ (List.length_replicate) (placed_replicate h n)).1

theorem rehash_placed {h : α → Nat} {n : Nat} (hn : ∀ a, h a < n) (bs : List (List α)) :
    Placed h (rehash h n bs) :=
  (foldl_insert_spec hn _ _ (List.length_replicate) (placed_replicate h n)).2.1

theorem rehash_perm {h : α → Nat} {n : Nat} (hn : ∀ a, h a < n) (bs : List (List α)) :
    (rehash h n bs).flatten.Perm bs.flatten := by
  have := (foldl_insert_spec hn bs.flatten _ (List.length_replicate) (placed_replicate h n)).2.2
  simpa [rehash] using this

end VCache.Lib
