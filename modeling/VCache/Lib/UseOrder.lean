import Mathlib.Data.List.Nodup

/-!
# Keys in the order of their last use

A log lists uses of keys, the latest first. `OrderedByUse log ks`: the keys `ks` are
distinct, each has been used, and they stand in the order of their last use.
-/

namespace VCache.Lib

variable {κ : Type} [DecidableEq κ]

structure OrderedByUse (log ks : List κ) : Prop where
  nodup : ks.Nodup
  used : ∀ k ∈ ks, k ∈ log
  ordered : ks.Pairwise fun a b => log.idxOf a < log.idxOf b

namespace OrderedByUse

theorem nil (log : List κ) : OrderedByUse log [] := ⟨List.nodup_nil, by simp, .nil⟩

theorem sublist {log ks ks' : List κ} (h : OrderedByUse log ks) (hs : ks'.Sublist ks) :
    OrderedByUse log ks' :=
  ⟨h.nodup.sublist hs, fun k hk => h.used k (hs.subset hk), h.ordered.sublist hs⟩

theorem idxOf_cons {k a : κ} (log : List κ) (h : a ≠ k) : (k :: log).idxOf a = log.idxOf a + 1 := by
  rw [List.idxOf_cons_ne _ (Ne.symm h)]

theorem other {log ks : List κ} (h : OrderedByUse log ks) {k : κ} (hk : k ∉ ks) :
    OrderedByUse (k :: log) ks := by
  refine ⟨h.nodup, fun a ha => List.mem_cons_of_mem k (h.used a ha), ?_⟩
  refine h.ordered.imp_of_mem fun ha hb hab => ?_
  rw [idxOf_cons log (ne_of_mem_of_not_mem ha hk), idxOf_cons log (ne_of_mem_of_not_mem hb hk)]
  omega

theorem use {log ks : List κ} (h : OrderedByUse log ks) (k : κ) :
    OrderedByUse (k :: log) (k :: ks.filter (· ≠ k)) := by
  have hk : k ∉ ks.filter (· ≠ k) := by simp
  have hrest := (h.sublist (List.filter_sublist (p := (· ≠ k)))).other hk
  refine ⟨List.nodup_cons.2 ⟨hk, hrest.nodup⟩,
    List.forall_mem_cons.2 ⟨List.mem_cons_self, hrest.used⟩,
    List.pairwise_cons.2 ⟨fun a ha => ?_, hrest.ordered⟩⟩
  rw [List.idxOf_cons_self, idxOf_cons log (ne_of_mem_of_not_mem ha hk)]
  omega

end OrderedByUse

end VCache.Lib
