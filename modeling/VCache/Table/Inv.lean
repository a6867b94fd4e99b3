import Mathlib.Algebra.BigOperators.Group.List.Basic
import VCache.Lib.Keyed
import VCache.Lib.PowerOfTwo
import VCache.Table.Lru

/-!
# The representation invariant

`Stored t`: the chains and the counters of `t` agree. `Inv t l`: moreover the recency
pointers spell out `l`, which lists every chained node once. Each primitive update of
the table has one lemma giving the invariant afterwards and the new recency list.
-/

namespace VCache

open Function VCache.Lib

namespace HashTable

/-- The chains and the counters agree. -/
structure Stored (t : HashTable) : Prop where
  /-- The bucket count is a power of two, or there are no buckets. -/
  buckets : t.buckets = [] ∨ ∃ k, t.buckets.length = 2 ^ k
  /-- Every node sits in the bucket its key's hash selects. -/
  placed : Placed (fun p => t.bucketIndexFor (t.entryAt p).key) t.buckets
  keys : Keyed.Distinct (fun p => (t.entryAt p).key) t.nodes
  size : t.size = t.nodes.length
  bytes : t.entryBytes = (t.nodes.map t.footprintAt).sum
  footprint : ∀ p ∈ t.nodes,
    t.footprintAt p = footprintEstimate (t.entryAt p).key (t.entryAt p).value

/-- The invariant of a table whose recency list is `l`. -/
structure Inv (t : HashTable) (l : List Ptr) : Prop extends Stored t where
  linked : t.links.Linked l
  perm : l.Perm t.nodes

/-- The table is not over its load factor. -/
def WithinLoad (t : HashTable) : Prop := t.buckets ≠ [] → 4 * t.size ≤ 3 * t.buckets.length

theorem nodes_eq (t : HashTable) : t.nodes = t.buckets.flatten := rfl

theorem Stored.relinked {t t' : HashTable} (h : Stored t) (r : Relinked t t') : Stored t' where
  buckets := by rw [r.buckets]; exact h.buckets
  placed := by
    have := h.placed
    simp only [bucketIndexFor, r.buckets, r.entryAt] at this ⊢
    exact this
  keys := by have := h.keys; rwa [nodes_eq, r.entryAt, r.buckets]
  size := by rw [r.size, nodes_eq, r.buckets]; exact h.size
  bytes := by rw [r.entryBytes, nodes_eq, r.buckets, r.footprintAt]; exact h.bytes
  footprint := by
    have := h.footprint
    rw [nodes_eq, r.buckets, r.footprintAt, r.entryAt]
    exact this

theorem Relinked.nodes {t t' : HashTable} (r : Relinked t t') : t'.nodes = t.nodes := by
  rw [nodes_eq, r.buckets, nodes_eq]

theorem Stored.nodup {t : HashTable} (h : Stored t) : t.nodes.Nodup := List.Nodup.of_map _ h.keys

theorem Inv.nodup {t : HashTable} {l : List Ptr} (h : Inv t l) : l.Nodup := h.linked.nodup

theorem Inv.mem_iff {t : HashTable} {l : List Ptr} (h : Inv t l) {p : Ptr} : p ∈ l ↔ p ∈ t.nodes :=
  h.perm.mem_iff

theorem Inv.length {t : HashTable} {l : List Ptr} (h : Inv t l) : t.size = l.length := by
  rw [h.size, h.perm.length_eq]

theorem Inv.recency_eq {t : HashTable} {l : List Ptr} (h : Inv t l) : t.recency = l :=
  h.linked.walk_eq (by rw [h.length])

theorem Stored.length_pow {t : HashTable} (h : Stored t) (hb : t.buckets ≠ []) :
    ∃ k, t.buckets.length = 2 ^ k :=
  h.buckets.resolve_left hb

theorem Stored.slot_lt {t : HashTable} (h : Stored t) (hb : t.buckets ≠ []) (key : Bytes) :
    t.bucketIndexFor key < t.buckets.length :=
  and_mask_lt (h.length_pow hb) _

/-! ## Lookup -/

theorem mem_chain {t : HashTable} {i : Nat} {p : Ptr} :
    p ∈ t.chain i ↔ ∃ c, t.buckets[i]? = some c ∧ p ∈ c := by
  unfold chain
  cases t.buckets[i]? <;> simp

theorem Stored.mem_nodes {t : HashTable} (h : Stored t) {p : Ptr} :
    p ∈ t.nodes ↔ p ∈ t.chain (t.bucketIndexFor (t.entryAt p).key) := by
  rw [mem_chain]; exact h.placed.mem_iff

theorem Stored.find_chain {t : HashTable} (h : Stored t) {key : Bytes} {p : Ptr} :
    ((t.chain (t.bucketIndexFor key)).find? fun p => (t.entryAt p).key == key) = some p ↔
      p ∈ t.nodes ∧ (t.entryAt p).key = key := by
  have hsome : ∀ q, ((t.chain (t.bucketIndexFor key)).find? fun p => (t.entryAt p).key == key) =
      some q → q ∈ t.nodes ∧ (t.entryAt q).key = key := by
    intro q e
    have hk : (t.entryAt q).key = key := by simpa using List.find?_some e
    exact ⟨h.mem_nodes.2 (hk ▸ List.mem_of_find?_eq_some e), hk⟩
  refine ⟨hsome p, ?_⟩
  rintro ⟨hp, hk⟩
  have hc : p ∈ t.chain (t.bucketIndexFor key) := hk ▸ h.mem_nodes.1 hp
  cases e : (t.chain (t.bucketIndexFor key)).find? fun p => (t.entryAt p).key == key with
  | none =>
    have := List.find?_eq_none.1 e p hc
    simp [hk] at this
  | some q =>
    obtain ⟨hq, hk'⟩ := hsome q e
    rw [h.keys.eq_of_key hq hp (hk'.trans hk.symm)]

theorem Stored.findNode_iff {t : HashTable} (h : Stored t) {key : Bytes} {p : Ptr} :
    t.findNode key = some p ↔ p ∈ t.nodes ∧ (t.entryAt p).key = key := by
  unfold findNode
  by_cases hb : t.buckets = []
  · simp [hb, nodes]
  · rw [if_neg (by simpa using hb)]
    exact h.find_chain

theorem Stored.findNode_none {t : HashTable} (h : Stored t) {key : Bytes} :
    t.findNode key = none ↔ ∀ p ∈ t.nodes, (t.entryAt p).key ≠ key := by
  rw [Option.eq_none_iff_forall_ne_some]
  constructor
  · intro hn p hp e; exact hn p (h.findNode_iff.2 ⟨hp, e⟩)
  · intro hn p e
    obtain ⟨hp, hk⟩ := h.findNode_iff.1 e
    exact hn p hp hk

/-! ## Recency updates -/

theorem Inv.promote {t : HashTable} {l : List Ptr} (h : Inv t l) {p : Ptr} (hp : p ∈ l) :
    Inv ((t.lruUnlink p).lruPushFront p) (p :: l.erase p) := by
  have r := (lruUnlink_relinked t p).trans (lruPushFront_relinked _ p)
  refine ⟨h.toStored.relinked r, ?_, ?_⟩
  · rw [lruPushFront_links, lruUnlink_links]
    exact (h.linked.unlink hp).pushFront h.nodup.not_mem_erase
  · rw [r.nodes]
    exact (List.perm_cons_erase hp).symm.trans h.perm

/-! ## Removal -/

section
variable (t : HashTable) (i : Nat) (p : Ptr)

theorem splice_buckets_length : (t.splice i p).buckets.length = t.buckets.length :=
  List.length_modify ..

theorem splice_entryAt : (t.splice i p).entryAt = t.entryAt := rfl

theorem splice_footprintAt : (t.splice i p).footprintAt = t.footprintAt := rfl

theorem splice_links : (t.splice i p).links = t.links := rfl

theorem splice_size : (t.splice i p).size = t.size - 1 := rfl

theorem splice_entryBytes : (t.splice i p).entryBytes = t.entryBytes - t.footprintAt p := rfl

end

theorem splice_nodes {t : HashTable} (h : Stored t) {p : Ptr} (hp : p ∈ t.nodes) {i : Nat}
    (hi : t.bucketIndexFor (t.entryAt p).key = i) :
    (t.splice i p).nodes.Perm (t.nodes.erase p) := by
  have := flatten_modify_erase h.placed hp
  rw [hi] at this
  exact this

theorem Stored.splice {t : HashTable} (h : Stored t) {p : Ptr} (hp : p ∈ t.nodes) {i : Nat}
    (hi : t.bucketIndexFor (t.entryAt p).key = i) : Stored (t.splice i p) := by
  have hnodes := splice_nodes h hp hi
  refine ⟨?_, ?_, ?_, ?_, ?_, ?_⟩
  · rcases h.buckets with hb | ⟨k, hk⟩
    · left; simp [HashTable.splice, hb]
    · right; exact ⟨k, (splice_buckets_length ..).trans hk⟩
  · have := h.placed.modify_erase i p
    simp only [bucketIndexFor, splice_buckets_length]
    exact this
  · rw [splice_entryAt]
    exact (h.keys.sublist List.erase_sublist).perm hnodes.symm
  · rw [hnodes.length_eq, List.length_erase_of_mem hp, ← h.size, splice_size]
  · have e := List.sum_map_erase t.footprintAt hp
    rw [splice_footprintAt, (hnodes.map _).sum_eq, splice_entryBytes, h.bytes]
    omega
  · intro q hq
    rw [splice_footprintAt, splice_entryAt]
    exact h.footprint q (List.mem_of_mem_erase (hnodes.mem_iff.1 hq))

theorem Inv.detach {t : HashTable} {l : List Ptr} (h : Inv t l) {p : Ptr} (hp : p ∈ t.nodes)
    {i : Nat} (hi : t.bucketIndexFor (t.entryAt p).key = i) : Inv (t.detach i p) (l.erase p) := by
  have r := lruUnlink_relinked (t.splice i p) p
  refine ⟨(h.toStored.splice hp hi).relinked r, ?_, ?_⟩
  · rw [HashTable.detach, lruUnlink_links, splice_links]
    exact h.linked.unlink (h.mem_iff.2 hp)
  · rw [HashTable.detach, r.nodes]
    exact (h.perm.erase p).trans (splice_nodes h.toStored hp hi).symm

theorem detach_entryAt (t : HashTable) (i : Nat) (p : Ptr) :
    (t.detach i p).entryAt = t.entryAt := by
  unfold HashTable.detach
  rw [(lruUnlink_relinked _ p).entryAt, splice_entryAt]

theorem detach_bucketCount (t : HashTable) (i : Nat) (p : Ptr) :
    (t.detach i p).buckets.length = t.buckets.length := by
  unfold HashTable.detach
  rw [(lruUnlink_relinked _ p).buckets, splice_buckets_length]

/-! ## Overwriting -/

section
variable (t : HashTable) (p : Ptr) (key value : Bytes)

theorem rewrite_entryAt :
    (t.rewrite p key value).entryAt =
      update t.entryAt p { t.entryAt p with value := value, expiration := none } := by
  funext q
  by_cases h : q = p <;> simp_all [rewrite, store, entryAt, update]

theorem rewrite_footprintAt :
    (t.rewrite p key value).footprintAt =
      update t.footprintAt p (footprintEstimate key value) := by
  funext q
  by_cases h : q = p <;> simp_all [rewrite, store, footprintAt, update]

theorem rewrite_links : (t.rewrite p key value).links = t.links := by
  simp only [rewrite, store, links, Links.mk.injEq, and_true]
  constructor <;> funext q <;> by_cases h : q = p <;> simp_all [update]

theorem rewrite_nodes : (t.rewrite p key value).nodes = t.nodes := rfl

theorem rewrite_key (q : Ptr) : ((t.rewrite p key value).entryAt q).key = (t.entryAt q).key := by
  rw [rewrite_entryAt]
  by_cases h : q = p <;> simp [h, update]

end

theorem Stored.rewrite {t : HashTable} (h : Stored t) {p : Ptr} (hp : p ∈ t.nodes)
    {key : Bytes} (hk : (t.entryAt p).key = key) (value : Bytes) :
    Stored (t.rewrite p key value) where
  buckets := h.buckets
  placed := by
    refine Placed.congr h.placed fun q _ => ?_
    simp only [rewrite_key]; rfl
  keys := by
    have : (fun q => ((t.rewrite p key value).entryAt q).key) = fun q => (t.entryAt q).key :=
      funext (rewrite_key t p key value)
    rw [this]; exact h.keys
  size := h.size
  bytes := by
    have hnot : p ∉ t.nodes.erase p := h.nodup.not_mem_erase
    have e : (t.rewrite p key value).entryBytes =
        t.entryBytes - t.footprintAt p + footprintEstimate key value := rfl
    rw [e, rewrite_footprintAt, rewrite_nodes, h.bytes, ← List.sum_map_erase t.footprintAt hp,
      ← List.sum_map_erase (update t.footprintAt p _) hp, update_self]
    have : (t.nodes.erase p).map (update t.footprintAt p (footprintEstimate key value)) =
        (t.nodes.erase p).map t.footprintAt :=
      List.map_congr_left fun q hq => update_of_ne (ne_of_mem_of_not_mem hq hnot) _ _
    rw [this]; omega
  footprint := by
    intro q hq
    rw [rewrite_footprintAt, rewrite_entryAt]
    by_cases hqp : q = p
    · subst hqp; simp [hk]
    · rw [update_of_ne hqp, update_of_ne hqp]; exact h.footprint q hq

theorem Inv.overwrite {t : HashTable} {l : List Ptr} (h : Inv t l) {p : Ptr} (hp : p ∈ t.nodes)
    {key : Bytes} (hk : (t.entryAt p).key = key) (value : Bytes) :
    Inv (t.overwrite p key value) (p :: l.erase p) := by
  have hi : Inv (t.rewrite p key value) l :=
    ⟨h.toStored.rewrite hp hk value, by rw [rewrite_links]; exact h.linked, h.perm⟩
  exact hi.promote (h.mem_iff.2 hp)

theorem overwrite_entryAt (t : HashTable) (p : Ptr) (key value : Bytes) :
    (t.overwrite p key value).entryAt =
      update t.entryAt p { t.entryAt p with value := value, expiration := none } := by
  unfold overwrite
  rw [(lruPushFront_relinked _ p).entryAt, (lruUnlink_relinked _ p).entryAt, rewrite_entryAt]

/-! ## Expirations -/

section
variable (t : HashTable) (p : Ptr) (e : Option Int)

theorem retime_entryAt :
    (t.retime p e).entryAt = update t.entryAt p { t.entryAt p with expiration := e } := by
  funext q
  by_cases h : q = p <;> simp_all [retime, store, entryAt, update]

theorem retime_footprintAt : (t.retime p e).footprintAt = t.footprintAt := by
  funext q
  by_cases h : q = p <;> simp_all [retime, store, footprintAt, update]

theorem retime_links : (t.retime p e).links = t.links := by
  simp only [retime, store, links, Links.mk.injEq, and_true]
  constructor <;> funext q <;> by_cases h : q = p <;> simp_all [update]

theorem retime_key (q : Ptr) : ((t.retime p e).entryAt q).key = (t.entryAt q).key := by
  rw [retime_entryAt]
  by_cases h : q = p <;> simp [h, update]

theorem retime_value (q : Ptr) : ((t.retime p e).entryAt q).value = (t.entryAt q).value := by
  rw [retime_entryAt]
  by_cases h : q = p <;> simp [h, update]

end

theorem Inv.retime {t : HashTable} {l : List Ptr} (h : Inv t l) (p : Ptr) (e : Option Int) :
    Inv (t.retime p e) l where
  buckets := h.buckets
  placed := by simp only [retime_key]; exact h.placed
  keys := by simp only [retime_key]; exact h.keys
  size := h.size
  bytes := by rw [retime_footprintAt]; exact h.bytes
  footprint := by
    intro q hq
    rw [retime_footprintAt, retime_key, retime_value]
    exact h.footprint q hq
  linked := by rw [retime_links]; exact h.linked
  perm := h.perm

/-! ## Insertion -/

theorem freshPtr_not_mem (t : HashTable) : t.freshPtr ∉ t.nodes := by
  have bound : ∀ (l : List Nat), ∀ p ∈ l, p ≤ l.foldr max 0 := by
    intro l
    induction l with
    | nil => simp
    | cons a l ih =>
      intro p hp
      rcases List.mem_cons.1 hp with rfl | hp
      · exact Nat.le_max_left ..
      · exact Nat.le_trans (ih p hp) (Nat.le_max_right ..)
  intro hm
  exact absurd (bound _ _ hm) (by unfold freshPtr; exact Nat.not_succ_le_self _)

section
variable (t : HashTable) (i : Nat) (p : Ptr) (key value : Bytes)

theorem addNode_entryAt :
    (t.addNode i p key value).entryAt = update t.entryAt p { key := key, value := value } := by
  funext q
  by_cases h : q = p <;> simp_all [addNode, store, entryAt, update]

theorem addNode_footprintAt :
    (t.addNode i p key value).footprintAt =
      update t.footprintAt p (footprintEstimate key value) := by
  funext q
  by_cases h : q = p <;> simp_all [addNode, store, footprintAt, update]

theorem addNode_buckets : (t.addNode i p key value).buckets = t.buckets.modify i (p :: ·) := rfl

theorem addNode_buckets_length : (t.addNode i p key value).buckets.length = t.buckets.length := by
  rw [addNode_buckets, List.length_modify]

end

theorem addNode_linked {t : HashTable} {l : List Ptr} (h : t.links.Linked l) {p : Ptr} (hp : p ∉ l)
    (i : Nat) (key value : Bytes) : (t.addNode i p key value).links.Linked l where
  head := h.head
  tail := h.tail
  node l₁ l₂ a e := by
    have ha : a ≠ p := by rintro rfl; exact hp (by simp [e])
    have := h.node l₁ l₂ a e
    simpa [links, addNode, store, update_of_ne ha] using this
  nodup := h.nodup

theorem Stored.addNode {t : HashTable} (h : Stored t) {p : Ptr} (hp : p ∉ t.nodes)
    {key : Bytes} (hk : ∀ q ∈ t.nodes, (t.entryAt q).key ≠ key) {i : Nat}
    (hi : t.bucketIndexFor key = i) (hlt : i < t.buckets.length) (value : Bytes) :
    Stored (t.addNode i p key value) ∧ (t.addNode i p key value).nodes.Perm (p :: t.nodes) := by
  have hnodes : (t.addNode i p key value).nodes.Perm (p :: t.nodes) := flatten_modify_cons hlt p
  have hent : ∀ q ∈ t.nodes, (t.addNode i p key value).entryAt q = t.entryAt q := fun q hq => by
    rw [addNode_entryAt, update_of_ne (ne_of_mem_of_not_mem hq hp)]
  have hentp : (t.addNode i p key value).entryAt p = { key := key, value := value } := by
    rw [addNode_entryAt, update_self]
  have hfp : ∀ q ∈ t.nodes, (t.addNode i p key value).footprintAt q = t.footprintAt q :=
    fun q hq => by rw [addNode_footprintAt, update_of_ne (ne_of_mem_of_not_mem hq hp)]
  have hfpp : (t.addNode i p key value).footprintAt p = footprintEstimate key value := by
    rw [addNode_footprintAt, update_self]
  refine ⟨⟨?_, ?_, ?_, ?_, ?_, ?_⟩, hnodes⟩
  · rcases h.buckets with hb | ⟨k, hk⟩
    · rw [hb] at hlt; simp at hlt
    · right; exact ⟨k, (addNode_buckets_length ..).trans hk⟩
  · rw [addNode_buckets]
    simp only [bucketIndexFor, addNode_buckets_length]
    refine Placed.modify (Placed.congr h.placed fun q hq => ?_) fun c _ q hq => ?_
    · rw [hent q hq]; rfl
    · rcases List.mem_cons.1 hq with rfl | hq
      · right; rw [hentp]; exact hi
      · exact .inl hq
  · refine Keyed.Distinct.perm ?_ hnodes.symm
    unfold Keyed.Distinct
    rw [List.map_cons, List.nodup_cons]
    refine ⟨?_, ?_⟩
    · rw [hentp]
      intro hm
      obtain ⟨q, hq, e⟩ := List.mem_map.1 hm
      rw [hent q hq] at e
      exact hk q hq e
    · rw [List.map_congr_left (g := fun q => (t.entryAt q).key) fun q hq => by rw [hent q hq]]
      exact h.keys
  · rw [hnodes.length_eq, List.length_cons, ← h.size]; rfl
  · rw [(hnodes.map _).sum_eq, List.map_cons, List.sum_cons, hfpp, List.map_congr_left hfp,
      ← h.bytes, Nat.add_comm]
    rfl
  · intro q hq
    rcases List.mem_cons.1 (hnodes.mem_iff.1 hq) with rfl | hq
    · rw [hfpp, hentp]
    · rw [hfp q hq, hent q hq]; exact h.footprint q hq

theorem Inv.insertNew {t : HashTable} {l : List Ptr} (h : Inv t l) {key : Bytes}
    (hk : ∀ q ∈ t.nodes, (t.entryAt q).key ≠ key) {i : Nat}
    (hi : t.bucketIndexFor key = i) (hlt : i < t.buckets.length) (value : Bytes) :
    Inv (t.insertNew i key value) (t.freshPtr :: l) := by
  have hp := freshPtr_not_mem t
  have hpl : t.freshPtr ∉ l := fun hm => hp (h.mem_iff.1 hm)
  obtain ⟨hst, hnodes⟩ := h.toStored.addNode hp hk hi hlt value
  have r := lruPushFront_relinked (t.addNode i t.freshPtr key value) t.freshPtr
  refine ⟨hst.relinked r, ?_, ?_⟩
  · rw [HashTable.insertNew, lruPushFront_links]
    exact (addNode_linked h.linked hpl i key value).pushFront hpl
  · rw [HashTable.insertNew, r.nodes]
    exact (h.perm.cons _).trans hnodes.symm

theorem insertNew_entryAt (t : HashTable) (i : Nat) (key value : Bytes) :
    (t.insertNew i key value).entryAt =
      update t.entryAt t.freshPtr { key := key, value := value } := by
  unfold insertNew
  rw [(lruPushFront_relinked _ _).entryAt, addNode_entryAt]

theorem insertNew_size (t : HashTable) (i : Nat) (key value : Bytes) :
    (t.insertNew i key value).size = t.size + 1 := by
  unfold insertNew
  rw [(lruPushFront_relinked _ _).size]; rfl

theorem insertNew_bucketCount (t : HashTable) (i : Nat) (key value : Bytes) :
    (t.insertNew i key value).buckets.length = t.buckets.length := by
  unfold insertNew
  rw [(lruPushFront_relinked _ _).buckets, addNode_buckets_length]

end HashTable

end VCache
