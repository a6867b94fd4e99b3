import Mathlib.Algebra.Order.BigOperators.Group.List
import VCache.Database.Spec
import VCache.Lib.Machine

/-!
# The memory ceiling

A shard is capped when it is within its slice or holds at most one entry. Every
operation leaves every shard capped except `restore`, which writes without evicting:
there the entries restored decide.
-/

namespace VCache

open VCache.Lib VCache.Lib.Machine

namespace Shard

/-- Within the slice, or down to one entry. -/
def Capped (s : Shard) : Prop :=
  s.maxMemoryBytes ≠ 0 → s.table.memoryUsage ≤ s.maxMemoryBytes ∨ s.table.size ≤ 1

theorem usageOf_mono {b : Nat} {es es' : List Entry} (h : es'.Subperm es) :
    usageOf b es' ≤ usageOf b es := by
  obtain ⟨l, hp, hs⟩ := h
  unfold usageOf
  rw [← (hp.map Entry.footprint).sum_eq]
  have := (hs.map Entry.footprint).sum_le_sum fun _ _ => Nat.zero_le _
  omega

/-- A shard stays capped when it keeps its bucket array and loses entries, or moves them. -/
theorem Capped.of_subperm {s s' : Shard} {es es' : List Entry} (hc : s.Capped)
    (h : s.table.Holds es) (h' : s'.table.Holds es') (hsub : es'.Subperm es)
    (hb : s'.table.bucketCount = s.table.bucketCount)
    (hm : s'.maxMemoryBytes = s.maxMemoryBytes) : s'.Capped := by
  intro h0
  rw [hm] at h0 ⊢
  have hu : s.table.memoryUsage = usageOf s.table.bucketCount es := h.memoryUsage_eq
  have hu' : s'.table.memoryUsage = usageOf s'.table.bucketCount es' := h'.memoryUsage_eq
  have hmono := usageOf_mono (b := s.table.bucketCount) hsub
  have hlen := hsub.length_le
  rw [h'.size_eq, hu', hb]
  rcases hc h0 with h1 | h1
  · left; omega
  · right; rw [h.size_eq] at h1; omega

theorem evictToFit_capped {s : Shard} {es : List Entry} (h : s.table.Holds es) :
    s.evictToFit.Capped := by
  obtain ⟨m, hcut, h1, h2, hf⟩ := evictToFit_spec h
  intro h0
  have hm : s.evictToFit.maxMemoryBytes = s.maxMemoryBytes := by rw [hf]
  rw [hm] at h0 ⊢
  unfold CutsAt at hcut
  rw [if_neg h0] at hcut
  have hu : s.evictToFit.table.memoryUsage = usageOf s.evictToFit.table.bucketCount (es.take m) :=
    h1.memoryUsage_eq
  rw [h1.size_eq, hu, h2, List.length_take]
  rcases hcut.fits with hfit | hle
  · exact .inl hfit
  · exact .inr (by omega)

/-! ## Restored shards -/

/-- The bucket count of a table with `b` buckets once `n` keys have been put into it. -/
def bucketsAfter (b : Nat) : Nat → Nat
  | 0 => b
  | n + 1 => HashTable.grownTo (n + 1) (HashTable.usableBuckets (bucketsAfter b n))

theorem write_bucketsAfter {s : Shard} {es : List Entry} (h : s.table.Holds es) {b : Nat}
    (hb : s.table.bucketCount = bucketsAfter b es.length) (key value : Bytes) (e : Option Int) :
    (s.write key value e).1.table.bucketCount =
      bucketsAfter b (Keyed.push (·.key) { key, value, expiration := e } es).length := by
  rw [(write_spec h key value e).2.2, Keyed.push, List.length_cons]
  cases hf : Keyed.lookup (·.key) key es with
  | none => rw [Keyed.without_eq_self hf, hb]; rfl
  | some a =>
    obtain rfl := Keyed.key_of_lookup hf
    have hlen := (h.distinct.cons_without_perm (Keyed.mem_of_lookup hf)).length_eq
    obtain ⟨h1, h2⟩ := h.load (List.ne_nil_of_mem (Keyed.mem_of_lookup hf))
    rw [List.length_cons] at hlen
    rw [Nat.succ_eq_add_one, hlen, HashTable.usableBuckets, if_neg h1, ← hb]
    unfold HashTable.grownTo HashTable.exceedsLoadFactor
    rw [if_neg]
    simp only [decide_eq_true_eq]; omega

theorem writeAll_bucketsAfter {b : Nat} : ∀ (written : List Entry) {s : Shard} {es : List Entry},
    s.table.Holds es → s.table.bucketCount = bucketsAfter b es.length →
    (written.foldl (fun s e => (s.write e.key e.value e.expiration).1) s).table.bucketCount =
      bucketsAfter b (pushAll es written).length
  | [], _, _, _, hb => hb
  | e :: written, _, _, h, hb =>
    writeAll_bucketsAfter written (write_spec h e.key e.value e.expiration).1
      (write_bucketsAfter h hb e.key e.value e.expiration)

/-- What a restored shard uses: the entries that were kept, and a bucket array grown for
that many. -/
theorem afterRestore_usage {s : Shard} {es : List Entry} (h : s.table.Holds es)
    (written : List Entry) :
    (s.afterRestore written).table.size = (pushAll [] written).length ∧
      (s.afterRestore written).table.memoryUsage =
        usageOf (bucketsAfter s.table.bucketCount (pushAll [] written).length)
          (pushAll [] written) := by
  obtain ⟨h1, h2⟩ := h.clear
  have h3 := (afterRestore_spec h written).1
  refine ⟨h3.size_eq, ?_⟩
  have hu : (s.afterRestore written).table.memoryUsage =
      usageOf (s.afterRestore written).table.bucketCount (pushAll [] written) := h3.memoryUsage_eq
  rw [hu]
  congr 1
  exact writeAll_bucketsAfter written h1 h2

end Shard

namespace Database

/-- The ceiling: every shard is within its slice or holds at most one entry; and when all
are within their slices, the database is within its limit, if that has a byte for each shard. -/
structure WithinCeiling (db : Database) : Prop where
  shards : db.maxMemory ≠ 0 → ∀ s ∈ db.shards,
    s.table.memoryUsage ≤ max (db.maxMemory / db.shardCount) 1 ∨ s.table.size ≤ 1
  total : db.maxMemory ≠ 0 → db.shardCount ≤ db.maxMemory →
    (∀ s ∈ db.shards, s.table.memoryUsage ≤ max (db.maxMemory / db.shardCount) 1) →
    db.memoryUsage ≤ db.maxMemory

theorem memoryUsage_le_of_slices (db : Database) (hN : db.shardCount ≤ db.maxMemory)
    (h : ∀ s ∈ db.shards, s.table.memoryUsage ≤ max (db.maxMemory / db.shardCount) 1) :
    db.memoryUsage ≤ db.maxMemory := by
  have hpos : 0 < db.shardCount := Nat.lt_of_le_of_lt (Nat.zero_le _) db.mask_lt
  have hdiv : max (db.maxMemory / db.shardCount) 1 = db.maxMemory / db.shardCount :=
    Nat.max_eq_left (Nat.div_pos hN hpos)
  have hsum := List.sum_le_card_nsmul (db.shards.map fun s => s.table.memoryUsage)
    (db.maxMemory / db.shardCount) (by
      intro x hx
      obtain ⟨s, hs, rfl⟩ := List.mem_map.1 hx
      rw [← hdiv]; exact h s hs)
  rw [List.length_map] at hsum
  exact Nat.le_trans hsum (Nat.mul_div_le db.maxMemory db.shardCount)

theorem Inv.slice_eq {db : Database} (h : db.Inv) {i : Nat} {s : Shard}
    (hs : db.shards[i]? = some s) (h0 : db.maxMemory ≠ 0) :
    s.maxMemoryBytes = max (db.maxMemory / db.shardCount) 1 := by
  rw [h.sliced i s hs, sliceOf, if_neg (show db.maxMemoryBytes ≠ 0 from h0)]; rfl

theorem Inv.slice_ne_zero_iff {db : Database} (h : db.Inv) {i : Nat} {s : Shard}
    (hs : db.shards[i]? = some s) : s.maxMemoryBytes ≠ 0 ↔ db.maxMemory ≠ 0 := by
  refine ⟨fun hm h0 => ?_, fun h0 => ?_⟩
  · rw [h.sliced i s hs, show db.maxMemoryBytes = 0 from h0] at hm
    exact hm rfl
  · rw [h.slice_eq hs h0]
    have := Nat.le_max_right (db.maxMemory / db.shardCount) 1
    omega

theorem Inv.withinCeiling_iff {db : Database} (h : db.Inv) :
    db.WithinCeiling ↔ ∀ (i : Nat) (s : Shard), db.shards[i]? = some s → s.Capped := by
  refine ⟨fun hw i s hs hm => ?_,
    fun hc => ⟨fun h0 s hs => ?_, fun _ => memoryUsage_le_of_slices db⟩⟩
  · have h0 := (h.slice_ne_zero_iff hs).1 hm
    rw [h.slice_eq hs h0]
    exact hw.shards h0 s (List.mem_of_getElem? hs)
  · obtain ⟨i, hi⟩ := List.mem_iff_getElem?.1 hs
    rw [← h.slice_eq hi h0]
    exact hc i s hi ((h.slice_ne_zero_iff hi).2 h0)

/-! ## Steps -/

/-- What `restore` keeps of the given entries in shard `i`: the unexpired ones routed
there, the last one for each key. -/
def keptIn (db : Database) (es : List Entry) (now : Int) (i : Nat) : List Entry :=
  Shard.pushAll [] (es.filter fun e => !e.isExpiredAt now && decide (db.shardIndexFor e.key = i))

/-- The entries restored fit: under a limit, what each shard keeps is a single entry or
within the slice, together with a bucket array grown for it. -/
def RestoreFits (db : Database) (es : List Entry) (now : Int) : Prop :=
  db.maxMemory ≠ 0 → ∀ (i : Nat) (s : Shard), db.shards[i]? = some s →
    usageOf (Shard.bucketsAfter s.table.bucketCount (db.keptIn es now i).length)
        (db.keptIn es now i) ≤ max (db.maxMemory / db.shardCount) 1 ∨
      (db.keptIn es now i).length ≤ 1

/-- The condition on a step: none, except for a restore. -/
def StepFits (db : Database) (x : Op × (Nat → Int)) : Prop :=
  match x.1 with
  | .restore es => db.RestoreFits es (x.2 0)
  | _ => True

def stepOn (db : Database) (x : Op × (Nat → Int)) : Database × Answer := db.step x.1 x.2

theorem ShardStep.capped {route : Bytes → Nat} {shards i : Nat} {now : Nat → Int} {s s' : Shard}
    {op : Op} (hstep : ShardStep route shards now i s op s') (hv : s.Valid route i)
    (hc : s.Capped) (hop : ∀ es, op ≠ .restore es) : s'.Capped := by
  cases hstep with
  | thin _ ht =>
    obtain ⟨es, hes, hsub⟩ := ht.holds
    exact hc.of_subperm hv.holds hes hsub ht.bucketCount ht.slice
  | store value expiration _ _ =>
    exact Shard.evictToFit_capped (Shard.write_spec hv.holds _ value expiration).1
  | limit bytes =>
    exact Shard.evictToFit_capped (s := { s with maxMemoryBytes := sliceOf bytes shards }) hv.holds
  | restore es => exact absurd rfl (hop es)

theorem Inv.restored_capped_iff {db : Database} (h : db.Inv) (es : List Entry) (now : Nat → Int)
    {i : Nat} {s : Shard} (hs : db.shards[i]? = some s) :
    (onShard db.shardIndexFor db.maxMemoryBytes db.shards.length (.restore es) now i s).Capped ↔
      (s.maxMemoryBytes ≠ 0 →
        usageOf (Shard.bucketsAfter s.table.bucketCount (db.keptIn es (now 0) i).length)
          (db.keptIn es (now 0) i) ≤ s.maxMemoryBytes ∨
        (db.keptIn es (now 0) i).length ≤ 1) := by
  obtain ⟨h1, h2⟩ := Shard.afterRestore_usage (h.valid i s hs).holds
    (es.filter fun e => !e.isExpiredAt (now 0) && decide (db.shardIndexFor e.key = i))
  unfold Shard.Capped
  rw [(onShard_step (h.valid i s hs) ..).slice (h.valid i s hs)]
  show (s.maxMemoryBytes ≠ 0 → (Shard.afterRestore _ _).table.memoryUsage ≤ _ ∨
    (Shard.afterRestore _ _).table.size ≤ 1) ↔ _
  rw [h1, h2]
  rfl

theorem restore_withinCeiling_iff {db : Database} (h : db.Inv) (es : List Entry) (now : Nat → Int) :
    (db.step (.restore es) now).1.WithinCeiling ↔ db.RestoreFits es (now 0) := by
  rw [(h.step _ _).withinCeiling_iff]
  refine ⟨fun hc h0 i s hs => ?_, fun hf i s' hs' => ?_⟩
  · have hs' := db.step_shards (.restore es) now i
    rw [hs, Option.map_some] at hs'
    have hcap := (h.restored_capped_iff es now hs).1 (hc i _ hs') ((h.slice_ne_zero_iff hs).2 h0)
    rw [h.slice_eq hs h0] at hcap
    exact hcap
  · rw [step_shards] at hs'
    obtain ⟨s, hs, rfl⟩ := Option.map_eq_some_iff.1 hs'
    refine (h.restored_capped_iff es now hs).2 fun hm => ?_
    have h0 := (h.slice_ne_zero_iff hs).1 hm
    rw [h.slice_eq hs h0]
    exact hf h0 i s hs

/-- A step keeps the ceiling exactly when it is not a restore of too much. -/
theorem step_withinCeiling_iff {db : Database} (h : db.Inv) (hw : db.WithinCeiling)
    (x : Op × (Nat → Int)) : (db.stepOn x).1.WithinCeiling ↔ db.StepFits x := by
  obtain ⟨op, now⟩ := x
  by_cases hop : ∃ es, op = .restore es
  · obtain ⟨es, rfl⟩ := hop
    exact restore_withinCeiling_iff h es now
  · have hfits : db.StepFits (op, now) := by
      unfold StepFits
      cases op <;> first | trivial | exact absurd ⟨_, rfl⟩ hop
    refine iff_of_true ?_ hfits
    unfold stepOn
    rw [(h.step op now).withinCeiling_iff]
    intro i s' hs'
    rw [step_shards] at hs'
    obtain ⟨s, hs, rfl⟩ := Option.map_eq_some_iff.1 hs'
    exact (onShard_step (h.valid i s hs) ..).capped (h.valid i s hs)
      (h.withinCeiling_iff.1 hw i s hs) fun es he => hop ⟨es, he⟩

theorem Fresh.withinCeiling {db : Database} (h : db.Fresh) : db.WithinCeiling :=
  ⟨fun h0 => absurd h.unlimited h0, fun h0 => absurd h.unlimited h0⟩

/-- **The ceiling holds in every state of a run exactly when every restore in it fits.** -/
theorem ceiling_iff_restores_fit {n shardCount : UInt64} {db : Database}
    (h : new n shardCount = some db) (ops : List (Op × (Nat → Int))) :
    Always stepOn WithinCeiling db ops ↔ StepsMeet stepOn StepFits db ops :=
  always_iff_stepsMeet (fun _ x hI => hI.step x.1 x.2)
    (fun _ x hI hP => step_withinCeiling_iff hI hP x) ops (fresh_of_new h).inv
    (fresh_of_new h).withinCeiling

/-- A limit of one byte, then a snapshot of two small entries: both stay. -/
theorem restore_ignores_limit :
    ∃ db, new 1 1 = some db ∧ ¬ Always stepOn WithinCeiling db
      [(.setMaxMemory 1, fun _ => 0),
        (.restore [⟨[97], [120], none⟩, ⟨[98], [121], none⟩], fun _ => 0)] := by
  refine ⟨single, rfl, fun ⟨_, _, h⟩ => ?_⟩
  have := h.shards (by decide +kernel) _ (List.mem_cons_self ..)
  revert this
  decide +kernel

/-- A single restored entry always fits. -/
theorem ceiling_iff_restores_fit_single :
    Always stepOn WithinCeiling single
      [(.setMaxMemory 1, fun _ => 0), (.restore [⟨[97], [120], none⟩], fun _ => 0)] := by
  refine (@ceiling_iff_restores_fit 1 1 single rfl _).2 ⟨trivial, ?_, trivial⟩
  intro _ i s _
  right
  unfold keptIn
  rw [List.filter_cons]
  split <;> simp [Shard.pushAll, Keyed.push, Keyed.without]

end Database

end VCache
