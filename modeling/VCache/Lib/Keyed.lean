import Mathlib.Data.List.Basic
import Mathlib.Data.List.Nodup
import Mathlib.Data.List.Perm.Basic

/-!
# Keyed lists

A list whose elements carry distinct keys is a finite map that also remembers an
order. `lookup` reads it, `without` drops a key; the order of what stays is never
changed by either.
-/

namespace VCache.Lib.Keyed

def Distinct {α κ : Type} (key : α → κ) (l : List α) : Prop := (l.map key).Nodup

section
variable {α κ : Type} {key : α → κ}

theorem Distinct.eq_of_key {l : List α} (h : Distinct key l) {a b : α} (ha : a ∈ l) (hb : b ∈ l)
    (e : key a = key b) : a = b :=
  List.inj_on_of_nodup_map h ha hb e

theorem Distinct.perm {l l' : List α} (h : Distinct key l) (p : l.Perm l') : Distinct key l' :=
  (p.map key).nodup_iff.1 h

theorem Distinct.sublist {l l' : List α} (h : Distinct key l) (p : l'.Sublist l) :
    Distinct key l' :=
  List.Nodup.sublist (p.map key) h

theorem Distinct.append_routed {l l' : List α} {route : κ → Nat} {n : Nat} (h : Distinct key l)
    (h' : Distinct key l') (hl : ∀ a ∈ l, route (key a) < n) (hl' : ∀ a ∈ l', route (key a) = n) :
    Distinct key (l ++ l') := by
  unfold Distinct
  rw [List.map_append]
  refine List.Nodup.append h h' fun k h1 h2 => ?_
  obtain ⟨a, ha, rfl⟩ := List.mem_map.1 h1
  obtain ⟨b, hb, hab⟩ := List.mem_map.1 h2
  have := hl' b hb
  rw [hab] at this
  exact Nat.ne_of_lt (hl a ha) this

theorem Distinct.filterMap {f : α → Option α} (hf : ∀ a b, f a = some b → key b = key a) :
    ∀ {l : List α}, Distinct key l → Distinct key (l.filterMap f)
  | [], _ => List.nodup_nil
  | a :: l, h => by
    obtain ⟨ha, hl⟩ := List.nodup_cons.1 h
    have ih := Distinct.filterMap hf hl
    rw [List.filterMap_cons]
    cases e : f a with
    | none => exact ih
    | some b =>
      refine List.nodup_cons.2 ⟨fun hm => ha ?_, ih⟩
      obtain ⟨c, hc, hk⟩ := List.mem_map.1 hm
      obtain ⟨a', ha', e'⟩ := List.mem_filterMap.1 hc
      exact List.mem_map.2 ⟨a', ha', by rw [← hf a' c e', hk, hf a b e]⟩

end

variable {α κ : Type} [DecidableEq κ] (key : α → κ)

def lookup (k : κ) (l : List α) : Option α := l.find? fun a => decide (key a = k)

def without (k : κ) (l : List α) : List α := l.filter fun a => decide (key a ≠ k)

variable {key}

theorem lookup_cons (k : κ) (a : α) (l : List α) :
    lookup key k (a :: l) = if key a = k then some a else lookup key k l := by
  simp only [lookup, List.find?_cons]
  by_cases h : key a = k <;> simp [h]

theorem mem_of_lookup {k : κ} {a : α} {l : List α} (h : lookup key k l = some a) : a ∈ l :=
  List.mem_of_find?_eq_some h

theorem key_of_lookup {k : κ} {a : α} {l : List α} (h : lookup key k l = some a) : key a = k := by
  simpa using List.find?_some h

theorem lookup_eq_none_iff {k : κ} {l : List α} :
    lookup key k l = none ↔ ∀ a ∈ l, key a ≠ k := by
  simp [lookup]

theorem Distinct.lookup_iff {l : List α} (h : Distinct key l) {k : κ} {a : α} :
    lookup key k l = some a ↔ a ∈ l ∧ key a = k := by
  constructor
  · intro e; exact ⟨mem_of_lookup e, key_of_lookup e⟩
  · rintro ⟨ha, rfl⟩
    cases e : lookup key (key a) l with
    | none => exact absurd rfl (lookup_eq_none_iff.1 e a ha)
    | some b => rw [h.eq_of_key (mem_of_lookup e) ha (key_of_lookup e)]

theorem Distinct.lookup_perm {l l' : List α} (h : Distinct key l) (p : l.Perm l') (k : κ) :
    lookup key k l = lookup key k l' := by
  cases e : lookup key k l' with
  | none =>
    rw [lookup_eq_none_iff] at e ⊢
    exact fun a ha => e a (p.mem_iff.1 ha)
  | some a =>
    obtain ⟨ha, hk⟩ := (h.perm p).lookup_iff.1 e
    exact h.lookup_iff.2 ⟨p.mem_iff.2 ha, hk⟩

theorem Distinct.without {l : List α} (h : Distinct key l) (k : κ) :
    Distinct key (without key k l) :=
  h.sublist List.filter_sublist

theorem mem_without {k : κ} {a : α} {l : List α} :
    a ∈ without key k l ↔ a ∈ l ∧ key a ≠ k := by
  simp [without]

theorem without_eq_self {k : κ} {l : List α} (h : lookup key k l = none) : without key k l = l := by
  rw [lookup_eq_none_iff] at h
  exact List.filter_eq_self.2 fun a ha => by simpa using h a ha

theorem lookup_without (k k' : κ) (l : List α) :
    lookup key k' (without key k l) = if k' = k then none else lookup key k' l := by
  induction l with
  | nil => simp [without, lookup]
  | cons a l ih =>
    unfold without at ih ⊢
    by_cases h : key a = k
    · simp only [List.filter_cons, h, ne_eq, not_true, decide_false, Bool.false_eq_true, if_false]
      rw [ih, lookup_cons, h]
      by_cases hk : k' = k
      · simp [hk]
      · simp [hk, Ne.symm hk]
    · simp only [List.filter_cons, ne_eq, h, not_false_eq_true, decide_true, if_true]
      rw [lookup_cons, ih, lookup_cons]
      by_cases hk : k' = k
      · simp [hk, h]
      · simp [hk]

theorem Distinct.cons_without {l : List α} (h : Distinct key l) (a : α) :
    Distinct key (a :: Keyed.without key (key a) l) := by
  refine List.nodup_cons.2 ⟨?_, h.without (key a)⟩
  intro hm
  obtain ⟨b, hb, e⟩ := List.mem_map.1 hm
  exact (mem_without.1 hb).2 e

theorem Distinct.cons_without_perm {l : List α} (h : Distinct key l) {a : α} (ha : a ∈ l) :
    (a :: Keyed.without key (key a) l).Perm l := by
  refine (List.perm_ext_iff_of_nodup (h.cons_without a).of_map h.of_map).2 fun b => ?_
  rw [List.mem_cons, mem_without]
  refine ⟨?_, fun hb => ?_⟩
  · rintro (rfl | ⟨hb, -⟩)
    · exact ha
    · exact hb
  · by_cases e : key b = key a
    · exact .inl (h.eq_of_key hb ha e)
    · exact .inr ⟨hb, e⟩

theorem Distinct.length_without {l : List α} (h : Distinct key l) (k : κ) :
    (Keyed.without key k l).length + (if (lookup key k l).isSome then 1 else 0) = l.length := by
  cases hl : lookup key k l with
  | none => rw [without_eq_self hl]; rfl
  | some a =>
    obtain rfl := key_of_lookup hl
    exact (h.cons_without_perm (mem_of_lookup hl)).length_eq

theorem Distinct.lookup_filter {l : List α} (h : Distinct key l) (p : α → Bool) (k : κ) :
    lookup key k (l.filter p) = (lookup key k l).filter p := by
  cases e : lookup key k l with
  | none =>
    rw [lookup_eq_none_iff] at e
    simp only [Option.filter_none, lookup_eq_none_iff]
    exact fun a ha => e a (List.mem_of_mem_filter ha)
  | some a =>
    obtain ⟨ha, hk⟩ := h.lookup_iff.1 e
    by_cases hp : p a
    · rw [Option.filter_some_pos hp]
      exact (h.sublist List.filter_sublist).lookup_iff.2 ⟨List.mem_filter.2 ⟨ha, hp⟩, hk⟩
    · rw [Option.filter_some_neg (by simpa using hp), lookup_eq_none_iff]
      intro b hb e'
      obtain ⟨hb, hpb⟩ := List.mem_filter.1 hb
      rw [h.eq_of_key hb ha (e'.trans hk.symm)] at hpb
      exact hp hpb

theorem Distinct.lookup_filterMap {l : List α} {f : α → Option α}
    (hf : ∀ a b, f a = some b → key b = key a) (h : Distinct key l) (k : κ) :
    lookup key k (l.filterMap f) = (lookup key k l).bind f := by
  refine Option.ext fun b => ?_
  rw [(h.filterMap hf).lookup_iff, List.mem_filterMap, Option.bind_eq_some_iff]
  refine ⟨?_, ?_⟩
  · rintro ⟨⟨a, ha, e⟩, hk⟩
    exact ⟨a, h.lookup_iff.2 ⟨ha, (hf a b e).symm.trans hk⟩, e⟩
  · rintro ⟨a, ha, e⟩
    obtain ⟨ha, hk⟩ := h.lookup_iff.1 ha
    exact ⟨⟨a, ha, e⟩, (hf a b e).trans hk⟩

theorem lookup_filter_of_key {k : κ} {p : α → Bool} (h : ∀ a, key a = k → p a = true) :
    ∀ l : List α, lookup key k (l.filter p) = lookup key k l
  | [] => rfl
  | a :: l => by
    rw [List.filter_cons]
    split
    · rw [lookup_cons, lookup_cons, lookup_filter_of_key h l]
    next hp => rw [lookup_cons, if_neg fun e => hp (h a e), lookup_filter_of_key h l]

/-! ## Insertion, promotion and adjustment -/

variable (key)

/-- Put an element in front, in place of any other with its key. -/
def push (a : α) (l : List α) : List α := a :: without key (key a) l

/-- Move the element with key `k` to the front. -/
def promote (k : κ) (l : List α) : List α :=
  match lookup key k l with
  | some a => a :: without key k l
  | none => l

/-- Change the element with key `k` in place. -/
def adjust (k : κ) (f : α → α) (l : List α) : List α := l.map fun a => if key a = k then f a else a

variable {key}

theorem lookup_push (a : α) (k : κ) (l : List α) :
    lookup key k (push key a l) = if k = key a then some a else lookup key k l := by
  unfold push
  rw [lookup_cons, lookup_without]
  by_cases h : k = key a
  · rw [if_pos h.symm, if_pos h]
  · rw [if_neg (Ne.symm h), if_neg h, if_neg h]

/-- After a list of insertions the last one with a key counts. -/
theorem lookup_pushes (k : κ) : ∀ (as l : List α),
    lookup key k (as.foldl (fun l a => push key a l) l) =
      (lookup key k as.reverse).or (lookup key k l)
  | [], _ => rfl
  | a :: as, l => by
    rw [List.foldl_cons, lookup_pushes k as, lookup_push, List.reverse_cons]
    unfold lookup
    rw [List.find?_append]
    cases as.reverse.find? fun a => decide (key a = k) with
    | some b => rfl
    | none =>
      by_cases h : key a = k
      · simp [h]
      · simp [h, Ne.symm h]

theorem promote_perm {l : List α} (h : Distinct key l) (k : κ) : (promote key k l).Perm l := by
  unfold promote
  cases e : lookup key k l with
  | none => exact .refl l
  | some a =>
    obtain rfl := key_of_lookup e
    exact h.cons_without_perm (mem_of_lookup e)

end VCache.Lib.Keyed
