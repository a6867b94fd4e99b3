import VCache.Table.Model

/-!
# The recency pointers of a table

The pointer code of the recency list is the list library's `pushFront` and `unlink`
on the table's `links`, and changes nothing else (`Relinked`).
-/

namespace VCache

open Function VCache.Lib

namespace HashTable

def footprintAt (t : HashTable) (p : Ptr) : Nat := (t.heap p).footprint

/-- `t'` differs from `t` in recency pointers only. -/
structure Relinked (t t' : HashTable) : Prop where
  buckets : t'.buckets = t.buckets
  size : t'.size = t.size
  entryBytes : t'.entryBytes = t.entryBytes
  entryAt : t'.entryAt = t.entryAt
  footprintAt : t'.footprintAt = t.footprintAt

theorem Relinked.refl (t : HashTable) : Relinked t t := ⟨rfl, rfl, rfl, rfl, rfl⟩

theorem Relinked.trans {t t' t'' : HashTable} (h : Relinked t t') (h' : Relinked t' t'') :
    Relinked t t'' :=
  ⟨h'.1.trans h.1, h'.2.trans h.2, h'.3.trans h.3, h'.4.trans h.4, h'.5.trans h.5⟩

theorem setPrev_relinked (t : HashTable) (p : Ptr) (q : Option Ptr) :
    Relinked t (t.setPrev p q) := by
  refine ⟨rfl, rfl, rfl, ?_, ?_⟩ <;> funext x <;> by_cases h : x = p <;>
    simp_all [setPrev, store, HashTable.entryAt, HashTable.footprintAt, update]

theorem setNext_relinked (t : HashTable) (p : Ptr) (q : Option Ptr) :
    Relinked t (t.setNext p q) := by
  refine ⟨rfl, rfl, rfl, ?_, ?_⟩ <;> funext x <;> by_cases h : x = p <;>
    simp_all [setNext, store, HashTable.entryAt, HashTable.footprintAt, update]

theorem setHead_relinked (t : HashTable) (q : Option Ptr) : Relinked t (t.setHead q) :=
  ⟨rfl, rfl, rfl, rfl, rfl⟩

theorem setTail_relinked (t : HashTable) (q : Option Ptr) : Relinked t (t.setTail q) :=
  ⟨rfl, rfl, rfl, rfl, rfl⟩

theorem lruPushFront_relinked (t : HashTable) (p : Ptr) : Relinked t (t.lruPushFront p) := by
  have h1 : Relinked t ((t.setPrev p none).setNext p t.lruHead) :=
    (setPrev_relinked t p none).trans (setNext_relinked _ _ _)
  unfold lruPushFront
  dsimp only
  generalize hs : (t.setPrev p none).setNext p (t.setPrev p none).lruHead = s at *
  have hts : Relinked t s := hs ▸ h1
  cases s.lruHead with
  | none =>
    dsimp only
    have h2 := hts.trans (setHead_relinked s (some p))
    split
    · exact h2.trans (setTail_relinked _ _)
    · exact h2
  | some head =>
    dsimp only
    have h2 := (hts.trans (setPrev_relinked s head (some p))).trans (setHead_relinked _ (some p))
    split
    · exact h2.trans (setTail_relinked _ _)
    · exact h2

theorem skipForward_relinked (t : HashTable) (p : Ptr) : Relinked t (t.skipForward p) := by
  unfold skipForward
  split
  · exact setNext_relinked _ _ _
  · split
    · exact setHead_relinked _ _
    · exact .refl t

theorem skipBackward_relinked (t : HashTable) (p : Ptr) : Relinked t (t.skipBackward p) := by
  unfold skipBackward
  split
  · exact setPrev_relinked _ _ _
  · split
    · exact setTail_relinked _ _
    · exact .refl t

theorem lruUnlink_relinked (t : HashTable) (p : Ptr) : Relinked t (t.lruUnlink p) := by
  unfold lruUnlink
  exact (skipForward_relinked t p).trans <| (skipBackward_relinked _ p).trans <|
    (setPrev_relinked _ p none).trans (setNext_relinked _ p none)

/-! ## The pointers themselves -/

@[simp] theorem setPrev_links (t : HashTable) (p : Ptr) (q : Option Ptr) :
    (t.setPrev p q).links = { t.links with prev := update t.links.prev p q } := by
  simp only [setPrev, store, links, Links.mk.injEq, and_true]
  constructor <;> funext x <;> by_cases h : x = p <;> simp_all [update]

@[simp] theorem setNext_links (t : HashTable) (p : Ptr) (q : Option Ptr) :
    (t.setNext p q).links = { t.links with next := update t.links.next p q } := by
  simp only [setNext, store, links, Links.mk.injEq, and_true]
  constructor <;> funext x <;> by_cases h : x = p <;> simp_all [update]

@[simp] theorem setHead_links (t : HashTable) (q : Option Ptr) :
    (t.setHead q).links = { t.links with head := q } := rfl

@[simp] theorem setTail_links (t : HashTable) (q : Option Ptr) :
    (t.setTail q).links = { t.links with tail := q } := rfl

@[simp] theorem links_head (t : HashTable) : t.links.head = t.lruHead := rfl

@[simp] theorem links_tail (t : HashTable) : t.links.tail = t.lruTail := rfl

@[simp] theorem setPrev_lruHead (t : HashTable) (p : Ptr) (q : Option Ptr) :
    (t.setPrev p q).lruHead = t.lruHead := rfl

@[simp] theorem setPrev_lruTail (t : HashTable) (p : Ptr) (q : Option Ptr) :
    (t.setPrev p q).lruTail = t.lruTail := rfl

@[simp] theorem setNext_lruHead (t : HashTable) (p : Ptr) (q : Option Ptr) :
    (t.setNext p q).lruHead = t.lruHead := rfl

@[simp] theorem setNext_lruTail (t : HashTable) (p : Ptr) (q : Option Ptr) :
    (t.setNext p q).lruTail = t.lruTail := rfl

@[simp] theorem setHead_lruTail (t : HashTable) (q : Option Ptr) :
    (t.setHead q).lruTail = t.lruTail := rfl

theorem lruPushFront_links (t : HashTable) (p : Ptr) :
    (t.lruPushFront p).links = t.links.pushFront p := by
  unfold lruPushFront Links.pushFront
  cases hh : t.lruHead <;> cases ht : t.lruTail <;> simp [hh, ht]

theorem skipForward_links (t : HashTable) (p : Ptr) :
    (t.skipForward p).links = { t.links with
      next := match t.links.prev p with
        | some q => update t.links.next q (t.links.next p)
        | none => t.links.next
      head := if t.links.prev p = none ∧ t.links.head = some p then t.links.next p
        else t.links.head } := by
  have hp : t.links.prev p = (t.heap p).lruPrev := rfl
  unfold skipForward
  cases e : (t.heap p).lruPrev with
  | none =>
    rw [e] at hp
    by_cases hh : t.lruHead = some p
    · rw [if_pos hh]; simp [hp, hh]; rfl
    · rw [if_neg hh]; simp [hp, hh]; rfl
  | some q =>
    rw [e] at hp
    simp [hp]
    rfl

theorem skipBackward_links (t : HashTable) (p : Ptr) :
    (t.skipBackward p).links = { t.links with
      prev := match t.links.next p with
        | some q => update t.links.prev q (t.links.prev p)
        | none => t.links.prev
      tail := if t.links.next p = none ∧ t.links.tail = some p then t.links.prev p
        else t.links.tail } := by
  have hp : t.links.next p = (t.heap p).lruNext := rfl
  unfold skipBackward
  cases e : (t.heap p).lruNext with
  | none =>
    rw [e] at hp
    by_cases hh : t.lruTail = some p
    · rw [if_pos hh]; simp [hp, hh]; rfl
    · rw [if_neg hh]; simp [hp, hh]; rfl
  | some q =>
    rw [e] at hp
    simp [hp]
    rfl

theorem lruUnlink_links (t : HashTable) (p : Ptr) :
    (t.lruUnlink p).links = t.links.unlink p := by
  unfold lruUnlink Links.unlink
  simp only [setNext_links, setPrev_links, skipBackward_links, skipForward_links]
  generalize t.links = L
  cases hp : L.prev p with
  | none => cases hn : L.next p <;> simp [hn]
  | some q =>
    by_cases hq : q = p
    · subst hq
      cases hn : L.next q <;> simp
    · cases hn : L.next p <;> simp [hn, update_of_ne (Ne.symm hq)]

end HashTable

end VCache
