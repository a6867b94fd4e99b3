import Mathlib.Data.List.Basic
import Mathlib.Data.List.Induction
import Mathlib.Data.List.Nodup
import Mathlib.Logic.Function.Basic

/-!
# Intrusive doubly linked lists

`Links α` holds the `prev`/`next` pointers of nodes `α` and the two ends of a
list threaded through them. `L.Linked l` says the pointers spell out exactly
`l`, first to last. `pushFront` and `unlink` are the two pointer updates; each
has one lemma giving the list it spells out afterwards.
-/

namespace VCache.Lib

open Function

/-- The pointers of a doubly linked list threaded through nodes `α`. -/
structure Links (α : Type) where
  prev : α → Option α
  next : α → Option α
  head : Option α
  tail : Option α

namespace Links

section
variable {α : Type}

/-- The pointers spell out `l`: the ends are `l`'s ends, every node points back to
the one before it and on to the one after it, and no node occurs twice. -/
structure Linked (L : Links α) (l : List α) : Prop where
  head : L.head = l.head?
  tail : L.tail = l.getLast?
  node : ∀ (l₁ l₂ : List α) (a : α), l = l₁ ++ a :: l₂ →
    L.prev a = l₁.getLast? ∧ L.next a = l₂.head?
  nodup : l.Nodup

/-- The nodes met by following `next` from `a`, at most `n` of them. -/
def walk (L : Links α) : Nat → Option α → List α
  | 0, _ => []
  | _ + 1, none => []
  | n + 1, some a => a :: walk L n (L.next a)

theorem walk_suffix {L : Links α} {l : List α} (h : L.Linked l) :
    ∀ (l₂ l₁ : List α), l = l₁ ++ l₂ → ∀ n, l₂.length ≤ n → L.walk n l₂.head? = l₂
  | [], _, _, n, _ => by cases n <;> rfl
  | a :: l₂, l₁, e, 0, hn => by simp at hn
  | a :: l₂, l₁, e, n + 1, hn => by
    simp only [List.head?_cons, walk, (h.node _ _ _ e).2]
    rw [walk_suffix h l₂ (l₁ ++ [a]) (by simp [e]) n (by simpa using hn)]

theorem Linked.walk_eq {L : Links α} {l : List α} (h : L.Linked l) {n : Nat}
    (hn : l.length ≤ n) : L.walk n L.head = l := by
  rw [h.head]; exact walk_suffix h l [] rfl n hn

theorem linked_nil {L : Links α} (hh : L.head = none) (ht : L.tail = none) : L.Linked [] where
  head := hh
  tail := ht
  node _ _ _ e := by simp at e
  nodup := List.nodup_nil

end

section
variable {α : Type} [DecidableEq α]

/-- Put `a` in front of the list. -/
def pushFront (L : Links α) (a : α) : Links α where
  prev :=
    match L.head with
    | some h => update (update L.prev a none) h (some a)
    | none => update L.prev a none
  next := update L.next a L.head
  head := some a
  tail := match L.tail with
    | some t => some t
    | none => some a

/-- Take `a` out of the list, joining its neighbours. -/
def unlink (L : Links α) (a : α) : Links α where
  prev :=
    match L.next a with
    | some n => update (update L.prev n (L.prev a)) a none
    | none => update L.prev a none
  next :=
    match L.prev a with
    | some p => update (update L.next p (L.next a)) a none
    | none => update L.next a none
  head := if L.prev a = none ∧ L.head = some a then L.next a else L.head
  tail := if L.next a = none ∧ L.tail = some a then L.prev a else L.tail

theorem pushFront_prev_of_ne {L : Links α} {a b : α} (hb : b ≠ a) :
    (L.pushFront a).prev b = if L.head = some b then some a else L.prev b := by
  unfold pushFront
  cases e : L.head with
  | none => simp [update_of_ne hb]
  | some h =>
    by_cases hbh : b = h
    · subst hbh; simp
    · simp [update_of_ne hbh, update_of_ne hb, Ne.symm hbh]

theorem Linked.pushFront {L : Links α} {l : List α} {a : α} (h : L.Linked l) (ha : a ∉ l) :
    (L.pushFront a).Linked (a :: l) where
  head := rfl
  tail := by
    simp only [Links.pushFront, h.tail]
    cases l with
    | nil => rfl
    | cons b l => rw [List.getLast?_cons_cons]; cases e : (b :: l).getLast? <;> simp_all
  node l₁ l₂ b e := by
    rcases l₁ with _ | ⟨c, l₁⟩
    · obtain ⟨rfl, rfl⟩ := List.cons.inj e
      refine ⟨?_, by simp [Links.pushFront, h.head]⟩
      simp only [Links.pushFront, h.head]
      cases l with
      | nil => simp
      | cons b l => simp [update_of_ne (show a ≠ b by rintro rfl; simp at ha)]
    · obtain ⟨rfl, rfl⟩ := List.cons.inj e
      have hba : b ≠ a := by rintro rfl; simp at ha
      obtain ⟨hp, hn⟩ := h.node _ _ _ rfl
      refine ⟨?_, by rw [← hn]; simp [Links.pushFront, update_of_ne hba]⟩
      rw [pushFront_prev_of_ne hba, h.head]
      cases l₁ with
      | nil => simp
      | cons d l₁ =>
        have hdb : d ≠ b := by
          rintro rfl
          have := h.nodup
          simp at this
        simp [hp, hdb]
  nodup := List.nodup_cons.2 ⟨ha, h.nodup⟩

theorem unlink_prev_of_ne {L : Links α} {a b : α} (hb : b ≠ a) :
    (L.unlink a).prev b = if L.next a = some b then L.prev a else L.prev b := by
  unfold unlink
  cases e : L.next a with
  | none => simp [update_of_ne hb]
  | some n =>
    by_cases hbn : b = n
    · subst hbn; simp [update_of_ne hb]
    · simp [update_of_ne hb, update_of_ne hbn, Ne.symm hbn]

theorem unlink_next_of_ne {L : Links α} {a b : α} (hb : b ≠ a) :
    (L.unlink a).next b = if L.prev a = some b then L.next a else L.next b := by
  unfold unlink
  cases e : L.prev a with
  | none => simp [update_of_ne hb]
  | some n =>
    by_cases hbn : b = n
    · subst hbn; simp [update_of_ne hb]
    · simp [update_of_ne hb, update_of_ne hbn, Ne.symm hbn]

theorem Linked.unlink_node {L : Links α} {l₁ l₂ m₁ m₂ : List α} {a b : α}
    (h : L.Linked (l₁ ++ a :: l₂)) (e : l₁ ++ l₂ = m₁ ++ b :: m₂) :
    (L.unlink a).prev b = m₁.getLast? ∧ (L.unlink a).next b = m₂.head? := by
  obtain ⟨hp, hn⟩ := h.node _ _ _ rfl
  obtain ⟨ha, hnd⟩ := List.nodup_cons.1 (List.nodup_middle.1 h.nodup)
  have hdisj : ∀ b, b ∈ l₁ → b ∈ l₂ → False := fun b h1 h2 =>
    (List.nodup_append.1 hnd).2.2 b h1 b h2 rfl
  have hba : b ≠ a := by
    rintro rfl
    exact ha (by simp [e])
  rw [unlink_prev_of_ne hba, unlink_next_of_ne hba, hp, hn]
  rcases List.append_eq_append_iff.1 e with ⟨c, e₁, e₂⟩ | ⟨c, e₁, e₂⟩
  · subst e₁; subst e₂
    have hb₂ : b ∈ c ++ b :: m₂ := by simp
    obtain ⟨hp', hn'⟩ := h.node (l₁ ++ a :: c) m₂ b (by simp)
    rw [if_neg (fun hl => hdisj b (List.mem_of_getLast? hl) hb₂)]
    refine ⟨?_, hn'⟩
    cases c with
    | nil => simp
    | cons d c =>
      have hdb : d ≠ b := by rintro rfl; simp_all [List.nodup_append]
      simp only [List.cons_append, List.head?_cons, Option.some.injEq, hdb, if_false, hp']
      simp [List.getLast?_append, List.getLast?_cons_cons]
  · cases c with
    | nil =>
      simp only [List.nil_append] at e₂
      subst e₂
      simp only [List.append_nil] at e₁
      subst e₁
      have hb₂ : b ∈ b :: m₂ := by simp
      obtain ⟨-, hn'⟩ := h.node (l₁ ++ [a]) m₂ b (by simp)
      rw [if_neg (fun hl => hdisj b (List.mem_of_getLast? hl) hb₂)]
      exact ⟨by simp, hn'⟩
    | cons d c =>
      obtain ⟨rfl, rfl⟩ : b = d ∧ m₂ = c ++ l₂ := by simpa using e₂
      subst e₁
      have hb₁ : b ∈ m₁ ++ b :: c := by simp
      obtain ⟨hp', hn'⟩ := h.node m₁ (c ++ a :: l₂) b (by simp)
      rw [if_neg (fun hl => hdisj b hb₁ (List.mem_of_head? hl))]
      refine ⟨hp', ?_⟩
      cases c using List.reverseRecOn with
      | nil => simp
      | append_singleton c d =>
        have hdb : d ≠ b := by rintro rfl; simp_all [List.nodup_append]
        rw [hn', if_neg]
        · cases c <;> simp
        · simp [List.getLast?_append, List.getLast?_cons, hdb]

theorem Linked.unlink_split {L : Links α} {l₁ l₂ : List α} {a : α}
    (h : L.Linked (l₁ ++ a :: l₂)) : (L.unlink a).Linked (l₁ ++ l₂) := by
  obtain ⟨hp, hn⟩ := h.node _ _ _ rfl
  obtain ⟨ha, hnd⟩ := List.nodup_cons.1 (List.nodup_middle.1 h.nodup)
  obtain ⟨ha₁, ha₂⟩ : a ∉ l₁ ∧ a ∉ l₂ := by simpa using ha
  refine ⟨?_, ?_, fun m₁ m₂ b e => h.unlink_node e, hnd⟩
  · simp only [unlink, hp, hn, h.head]
    cases l₁ with
    | nil => simp
    | cons b l₁ =>
      have hb : b ≠ a := by rintro rfl; simp at ha₁
      simp [hb]
  · simp only [unlink, hp, hn, h.tail]
    cases l₂ using List.reverseRecOn with
    | nil => simp
    | append_singleton l₂ b =>
      have hb : b ≠ a := by rintro rfl; simp at ha₂
      simp [List.getLast?_append, List.getLast?_cons, hb]

/-- Unlinking a listed node leaves the others, in order. -/
theorem Linked.unlink {L : Links α} {l : List α} {a : α} (h : L.Linked l) (ha : a ∈ l) :
    (L.unlink a).Linked (l.erase a) := by
  obtain ⟨l₁, l₂, rfl⟩ := List.append_of_mem ha
  have ha₁ : a ∉ l₁ := fun hm =>
    (List.nodup_cons.1 (List.nodup_middle.1 h.nodup)).1 (List.mem_append_left _ hm)
  rw [List.erase_append_right _ ha₁, List.erase_cons_head]
  exact h.unlink_split

end

end Links

end VCache.Lib
