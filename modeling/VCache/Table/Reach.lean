import Mathlib.Algebra.Order.BigOperators.Group.List
import VCache.Table.Spec

/-!
# Reachable tables

`Reachable t`: some sequence of public operations, from a constructor call, leads to
`t`. Every reachable table is well formed.
-/

namespace VCache

open VCache.Lib

namespace HashTable

/-- The tables a program can get hold of. -/
inductive Reachable : HashTable → Prop where
  | new (n : UInt64) (hn : n.toNat ≤ 2 ^ 63) : Reachable (new n)
  | put {t : HashTable} (key value : Bytes) (h : Reachable t) : Reachable (t.put key value).1
  | setExpiration {t : HashTable} (key : Bytes) (e : Option Int) (h : Reachable t) :
      Reachable (t.setExpiration key e)
  | remove {t : HashTable} (key : Bytes) (h : Reachable t) : Reachable (t.remove key).1
  | touch {t : HashTable} (key : Bytes) (h : Reachable t) : Reachable (t.touch key).1
  | evictOldest {t : HashTable} (h : Reachable t) : Reachable t.evictOldest.1
  | removeIf {t : HashTable} (first count : Nat) (pred : Entry → Bool) (h : Reachable t) :
      Reachable (t.removeIf first count pred).1
  | resize {t t' : HashTable} (n : UInt64) (hn : n.toNat ≤ 2 ^ 63) (h : Reachable t)
      (e : t.resize n = some t') : Reachable t'
  | clear {t : HashTable} (h : Reachable t) : Reachable t.clear
  | moveConstruct {t : HashTable} (h : Reachable t) : Reachable t.moveConstruct.1
  | moveConstructFrom {t : HashTable} (h : Reachable t) : Reachable t.moveConstruct.2
  | moveAssign {this other : HashTable} (h : Reachable this) (h' : Reachable other) :
      Reachable (this.moveAssign other).1
  | moveAssignFrom {this other : HashTable} (h : Reachable this) (h' : Reachable other) :
      Reachable (this.moveAssign other).2

/-- What a table looks like at every moment between two operations. -/
structure WellFormed (t : HashTable) : Prop where
  /-- The bucket count is a power of two; a moved-from table has neither buckets nor entries. -/
  bucketCount : (∃ k, t.buckets.length = 2 ^ k) ∨ (t.buckets = [] ∧ t.size = 0)
  placed : ∀ i c, t.buckets[i]? = some c → ∀ p ∈ c,
    (hashKey (t.entryAt p).key).toNat &&& (t.buckets.length - 1) = i
  keys_nodup : t.keys.Nodup
  size_eq : t.size = t.nodes.length
  entryBytes_eq : t.entryBytes = (t.nodes.map t.footprintAt).sum
  footprint_eq : ∀ p ∈ t.nodes,
    t.footprintAt p = footprintEstimate (t.entryAt p).key (t.entryAt p).value
  /-- Taking distinct chained nodes off `entryBytes` one by one never goes below zero. -/
  no_underflow : ∀ c : List Ptr, c.Nodup → (∀ p ∈ c, p ∈ t.nodes) →
    (c.map t.footprintAt).sum ≤ t.entryBytes
  load : 0 < t.buckets.length → 4 * t.size ≤ 3 * t.buckets.length
  recency : ∃ l, t.links.Linked l ∧ l.Perm t.nodes
  resizes : ∀ n : UInt64, n.toNat ≤ 2 ^ 63 → ∃ t', t.resize n = some t'

theorem Stored.sum_le {t : HashTable} (h : Stored t) {c : List Ptr} (hc : c.Nodup)
    (hsub : ∀ p ∈ c, p ∈ t.nodes) : (c.map t.footprintAt).sum ≤ t.entryBytes := by
  obtain ⟨c', hperm, hs⟩ := List.subperm_of_subset hc hsub
  rw [h.bytes, ← (hperm.map _).sum_eq]
  exact (hs.map t.footprintAt).sum_le_sum fun _ _ => Nat.zero_le _

theorem RepInv.wellFormed {t : HashTable} (h : t.RepInv) : t.WellFormed := by
  obtain ⟨l, hl⟩ := h.1
  exact {
    bucketCount := hl.buckets.symm.imp_right fun hb => ⟨hb, by rw [hl.size, nodes, hb]; rfl⟩
    placed := hl.placed
    keys_nodup := hl.keys
    size_eq := hl.size
    entryBytes_eq := hl.bytes
    footprint_eq := hl.footprint
    no_underflow := fun _ hc hsub => hl.toStored.sum_le hc hsub
    load := fun hb => h.2 (List.ne_nil_of_length_pos hb)
    recency := ⟨l, hl.linked, hl.perm⟩
    resizes := fun _ hn => let ⟨t', e, _⟩ := h.holds.resize hn; ⟨t', e⟩ }

theorem Reachable.repInv {t : HashTable} (h : Reachable t) : t.RepInv := by
  induction h with
  | new n _ => exact (new_holds n).repInv
  | put key value _ ih => exact (ih.holds.put key value).1.repInv
  | setExpiration key e _ ih => exact (ih.holds.setExpiration key e).1.repInv
  | remove key _ ih => exact (ih.holds.remove key).1.repInv
  | touch key _ ih => exact (ih.holds.touch key).1.repInv
  | evictOldest _ ih => exact ih.holds.evictOldest.1.repInv
  | removeIf first count pred _ ih => exact (ih.holds.removeIf first count pred).1.repInv
  | resize n hn _ e ih =>
    obtain ⟨t', e', h'⟩ := ih.holds.resize hn
    obtain rfl : _ = t' := Option.some.inj (e.symm.trans e')
    exact h'.repInv
  | clear _ ih => exact ih.holds.clear.1.repInv
  | moveConstruct _ ih => exact ih
  | moveConstructFrom _ _ => exact (movedFrom_holds _).repInv
  | moveAssign _ _ _ ih' => exact ih'
  | moveAssignFrom _ _ _ _ => exact (movedFrom_holds _).repInv

/-- **Every reachable table is well formed.** -/
theorem reachable_wellFormed {t : HashTable} (h : Reachable t) : t.WellFormed := h.repInv.wellFormed

theorem reachable_wellFormed_put : crowd.WellFormed ∧ crowd.bucketCount = 8 ∧
    (crowd.chain 4).map (fun p => (crowd.entryAt p).key) = [[1], [4]] :=
  ⟨reachable_wellFormed (.put _ _ (.put _ _ (.put _ _ (.put _ _ (.new 1 (by decide)))))),
    crowd_chain⟩

end HashTable

end VCache
