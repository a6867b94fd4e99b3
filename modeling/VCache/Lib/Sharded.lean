import VCache.Lib.Buckets
import VCache.Lib.Keyed

/-!
# Keyed lists split over parts

When every element sits in the part its key is routed to, and no part holds a key
twice, the parts together are one keyed list, and a lookup needs only one part.
-/

namespace VCache.Lib

open Keyed

variable {α κ : Type} {key : α → κ} {route : κ → Nat} {bs : List (List α)}

theorem Placed.distinct (hp : Placed (fun a => route (key a)) bs)
    (hd : ∀ b ∈ bs, Distinct key b) : Distinct key bs.flatten := by
  unfold Distinct
  rw [List.map_flatten, List.nodup_flatten]
  refine ⟨?_, ?_⟩
  · intro l hl
    obtain ⟨b, hb, rfl⟩ := List.mem_map.1 hl
    exact hd b hb
  · rw [List.pairwise_map, List.pairwise_iff_getElem]
    intro i j hi hj hij k h1 h2
    obtain ⟨a, ha, rfl⟩ := List.mem_map.1 h1
    obtain ⟨b, hb, e⟩ := List.mem_map.1 h2
    have e1 : route (key a) = i := hp i _ (List.getElem?_eq_getElem hi) a ha
    have e2 : route (key b) = j := hp j _ (List.getElem?_eq_getElem hj) b hb
    rw [e] at e2
    omega

end VCache.Lib
