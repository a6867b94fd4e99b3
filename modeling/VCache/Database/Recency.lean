import VCache.Database.Reads
import VCache.Lib.Machine
import VCache.Lib.UseOrder

/-!
# The recency list is the order of use

A use of a key is a `set` of it that was not rejected, a restore of it, or a `get` that
returned a value under a limit. The log of a run lists the uses, the latest first.
Each shard's recency list names its stored keys in the order of their last use in the
log, and no step moves keys it does not use past each other.
-/

namespace VCache

open VCache.Lib VCache.Lib.Machine

def Shard.recencyKeys (s : Shard) : List Bytes := s.entries.map (·.key)

theorem Shard.recencyKeys_eq {s : Shard} {es : List Entry} (h : s.table.Holds es) :
    s.recencyKeys = es.map (·.key) := by
  rw [Shard.recencyKeys, Shard.entries, h.entries_eq]

theorem map_without (k : Bytes) (es : List Entry) :
    (Keyed.without (·.key) k es).map (·.key) = (es.map (·.key)).filter (· ≠ k) := by
  rw [Keyed.without, List.filter_map]; rfl

theorem map_push (e : Entry) (es : List Entry) :
    (Keyed.push (·.key) e es).map (·.key) = e.key :: (es.map (·.key)).filter (· ≠ e.key) := by
  rw [Keyed.push, List.map_cons, map_without]

namespace Database

/-- The keys an operation uses, the latest first. -/
def usesOf (db : Database) (x : Op × (Nat → Int)) : List Bytes :=
  match x.1 with
  | .set key value => if (db.set key value).2 = .rejected then [] else [key]
  | .setFor key value ttl => if (db.setFor key value ttl (x.2 0)).2 = .rejected then [] else [key]
  | .get key =>
    if (db.get key (x.2 0)).2.isSome ∧ (db.shardFor key).maxMemoryBytes ≠ 0 then [key] else []
  | .restore es => ((es.filter fun e => !e.isExpiredAt (x.2 0)).map (·.key)).reverse
  | _ => []

def stepUses (db : Database) (x : Op × (Nat → Int)) : Database × List Bytes :=
  ((db.step x.1 x.2).1, db.usesOf x)

def useLog (db : Database) (ops : List (Op × (Nat → Int))) : List Bytes :=
  (answers stepUses db ops).reverse.flatten

/-! ## One step -/

/-- What a step does to the recency list of a shard. -/
structure Follows (log : List Bytes) (uses ks ks' : List Bytes) : Prop where
  ordered : OrderedByUse log ks → OrderedByUse (uses ++ log) ks'
  unmoved : (ks'.filter (· ∉ uses)).Sublist ks

theorem Follows.of_sublist {log ks ks' : List Bytes} (h : ks'.Sublist ks) :
    Follows log [] ks ks' :=
  ⟨fun ho => ho.sublist h, List.filter_sublist.trans h⟩

theorem Follows.of_other {log ks : List Bytes} {k : Bytes} (h : k ∉ ks) : Follows log [k] ks ks :=
  ⟨fun ho => ho.other h, List.filter_sublist⟩

theorem Follows.of_use {log ks ks' : List Bytes} {k : Bytes}
    (h : ks'.Sublist (k :: ks.filter (· ≠ k))) : Follows log [k] ks ks' := by
  refine ⟨fun ho => (ho.use k).sublist h, ((h.filter _).trans ?_)⟩
  rw [List.filter_cons_of_neg (by simp)]
  exact List.filter_sublist.trans List.filter_sublist

theorem Follows.of_store {log : List Bytes} {route : Bytes → Nat} {i : Nat} {s : Shard}
    (hv : s.Valid route i) (key value : Bytes) (e : Option Int) :
    Follows log [key] s.recencyKeys
      (if route key = i then (s.write key value e).1.evictToFit else s).recencyKeys := by
  split
  next hk =>
    obtain ⟨m, -, -, h1⟩ := Shard.evictToFit_write_spec hv.holds key value e
    refine .of_use ?_
    rw [Shard.recencyKeys_eq h1, Shard.recencyKeys, ← map_push { key, value, expiration := e }]
    exact (List.take_sublist m _).map _
  next hk =>
    refine .of_other fun hm => hk ?_
    obtain ⟨a, ha, rfl⟩ := List.mem_map.1 hm
    exact hv.routed a ha

theorem setWith_rejected_iff (db : Database) (key value : Bytes) (e : Option Int) :
    (db.setWith key value e).2 = .rejected ↔ ¬ (db.maxMemoryBytes = 0 ∨
      HashTable.footprintEstimate key value ≤ db.maxMemoryBytes) := by
  unfold setWith fitsWithinLimit
  by_cases h0 : db.maxMemoryBytes = 0
  · simp only [h0, if_true, Bool.not_true, Bool.false_eq_true, if_false, true_or, not_true,
      iff_false]
    split <;> simp
  · by_cases hf : HashTable.footprintEstimate key value ≤ db.maxMemoryBytes
    · simp only [h0, hf, if_false, decide_true, Bool.not_true, Bool.false_eq_true, or_true,
        not_true, iff_false]
      split <;> simp
    · simp [h0, hf]

theorem Follows.of_setWith {db : Database} {log : List Bytes} {i : Nat} {s : Shard}
    (hv : s.Valid db.shardIndexFor i) (key value : Bytes) (e : Option Int) :
    Follows log (if (db.setWith key value e).2 = .rejected then [] else [key]) s.recencyKeys
      (if db.shardIndexFor key = i ∧ (db.maxMemoryBytes = 0 ∨
          HashTable.footprintEstimate key value ≤ db.maxMemoryBytes) then
        (s.write key value e).1.evictToFit else s).recencyKeys := by
  by_cases hr : (db.setWith key value e).2 = .rejected
  · have hn := (db.setWith_rejected_iff key value e).1 hr
    simp only [hr, hn, and_false, if_true, if_false]
    exact .of_sublist (.refl _)
  · have hf := Decidable.not_not.1 (mt (db.setWith_rejected_iff key value e).2 hr)
    simp only [hr, hf, and_true, if_false]
    exact .of_store hv key value e

theorem get_isSome_iff {db : Database} (h : db.Inv) (key : Bytes) (now : Int) :
    (db.get key now).2.isSome ↔ ∃ e,
      Keyed.lookup (·.key) key (db.shardFor key).entries = some e ∧ ¬ e.isExpiredAt now := by
  rw [get_value, Option.isSome_map, live, h.lookup_eq]
  cases Keyed.lookup (·.key) key (db.shardFor key).entries with
  | none => simp
  | some e => by_cases he : e.isExpiredAt now = true <;> simp [Option.filter, he]

theorem Follows.of_get {db : Database} (h : db.Inv) {log : List Bytes} {i : Nat} {s : Shard}
    (hs : db.shards[i]? = some s) (key : Bytes) (now : Int) :
    Follows log
      (if (db.get key now).2.isSome ∧ (db.shardFor key).maxMemoryBytes ≠ 0 then [key] else [])
      s.recencyKeys (if db.shardIndexFor key = i then s.afterGet key now else s).recencyKeys := by
  have hv := h.valid i s hs
  by_cases hk : db.shardIndexFor key = i
  · obtain rfl : db.shardFor key = s := by
      have := db.shards_shardFor key
      rw [hk, hs] at this
      exact (Option.some.inj this).symm
    have h1 := (Shard.afterGet_spec hv.holds key now).1
    rw [if_pos hk, Shard.recencyKeys_eq h1]
    have hiff := get_isSome_iff h key now
    by_cases hu : (db.get key now).2.isSome ∧ (db.shardFor key).maxMemoryBytes ≠ 0
    · rw [if_pos hu, if_pos ⟨hu.2, hiff.1 hu.1⟩]
      obtain ⟨e, he, -⟩ := hiff.1 hu.1
      refine .of_use ?_
      have hek := Keyed.key_of_lookup he
      simp only [Keyed.promote, he, List.map_cons, map_without, hek, Shard.recencyKeys]
      exact List.Sublist.refl _
    · rw [if_neg hu, if_neg fun hu' => hu ⟨hiff.2 hu'.2, hu'.1⟩]
      exact .of_sublist (.refl _)
  · rw [if_neg hk]
    split
    · refine .of_other fun hm => hk ?_
      obtain ⟨a, ha, rfl⟩ := List.mem_map.1 hm
      exact hv.routed a ha
    · exact .of_sublist (.refl _)

theorem pushAll_ordered {route : Bytes → Nat} {i : Nat} {now : Int} :
    ∀ (es : List Entry) {acc : List Entry} {log : List Bytes}, (∀ e ∈ acc, route e.key = i) →
      OrderedByUse log (acc.map (·.key)) →
      OrderedByUse (((es.filter fun e => !e.isExpiredAt now).map (·.key)).reverse ++ log)
        ((Shard.pushAll acc
          (es.filter fun e => !e.isExpiredAt now && decide (route e.key = i))).map (·.key))
  | [], _, _, _, ho => ho
  | e :: es, acc, log, hacc, ho => by
    by_cases he : e.isExpiredAt now = true
    · simp only [List.filter_cons, he, Bool.not_true, Bool.false_eq_true, if_false, Bool.false_and]
      exact pushAll_ordered es hacc ho
    · simp only [List.filter_cons, he, Bool.not_false, if_true, Bool.true_and, List.map_cons,
        List.reverse_cons, List.append_assoc, List.singleton_append]
      by_cases hi : route e.key = i
      · simp only [hi, decide_true, if_true]
        have hacc' : ∀ a ∈ Keyed.push (·.key) e acc, route a.key = i := by
          intro a ha
          rcases List.mem_cons.1 ha with rfl | ha
          · exact hi
          · exact hacc a (Keyed.mem_without.1 ha).1
        exact pushAll_ordered es hacc' (by rw [map_push]; exact ho.use e.key)
      · simp only [hi, decide_false, Bool.false_eq_true, if_false]
        refine pushAll_ordered es hacc (ho.other fun hm => hi ?_)
        obtain ⟨a, ha, hk⟩ := List.mem_map.1 hm
        rw [← hk]; exact hacc a ha

theorem Follows.of_restore {route : Bytes → Nat} {log : List Bytes} {i : Nat} {s : Shard}
    (hv : s.Valid route i) (es : List Entry) (now : Int) :
    Follows log ((es.filter fun e => !e.isExpiredAt now).map (·.key)).reverse s.recencyKeys
      (s.afterRestore
        (es.filter fun e => !e.isExpiredAt now && decide (route e.key = i))).recencyKeys := by
  have h1 := (Shard.afterRestore_spec hv.holds
    (es.filter fun e => !e.isExpiredAt now && decide (route e.key = i))).1
  rw [Shard.recencyKeys_eq h1]
  refine ⟨fun _ => pushAll_ordered es (by simp) (.nil log), ?_⟩
  rw [List.filter_eq_nil_iff.2]
  · exact List.nil_sublist _
  · intro k hk
    obtain ⟨e, he, rfl⟩ := List.mem_map.1 hk
    rcases Shard.mem_pushAll _ he with he | he
    · cases he
    · obtain ⟨hm, hp⟩ := List.mem_filter.1 he
      have : e.key ∈ ((es.filter fun e => !e.isExpiredAt now).map (·.key)).reverse :=
        List.mem_reverse.2 (List.mem_map_of_mem
          (List.mem_filter.2 ⟨hm, (Bool.and_eq_true_iff.1 hp).1⟩))
      simp [this]

theorem onShard_follows {db : Database} (h : db.Inv) (log : List Bytes) (x : Op × (Nat → Int))
    {i : Nat} {s : Shard} (hs : db.shards[i]? = some s) :
    Follows log (db.usesOf x) s.recencyKeys
      (onShard db.shardIndexFor db.maxMemoryBytes db.shards.length x.1 x.2 i s).recencyKeys := by
  obtain ⟨op, now⟩ := x
  have hv := h.valid i s hs
  cases op with
  | set key value => exact .of_setWith hv key value none
  | setFor key value ttl => exact .of_setWith hv key value _
  | get key => exact .of_get h hs key (now 0)
  | restore es => exact .of_restore hv es (now 0)
  | del key =>
    unfold onShard; dsimp only
    split
    · refine .of_sublist ?_
      rw [Shard.recencyKeys_eq (Shard.afterDel_spec hv.holds key).1, map_without]
      exact List.filter_sublist
    · exact .of_sublist (.refl _)
  | removeExpired maxBuckets =>
    unfold onShard; dsimp only
    split
    · exact .of_sublist (.refl _)
    · obtain ⟨gone, -, h1, -⟩ :=
        Shard.sweep_spec hv.holds (max (maxBuckets / db.shards.length) 1) (now i)
      refine .of_sublist ?_
      rw [Shard.recencyKeys_eq h1]
      exact List.filter_sublist.map _
  | clear =>
    refine .of_sublist ?_
    show (s.clear.recencyKeys).Sublist _
    rw [Shard.recencyKeys_eq (Shard.clear_spec hv.holds).1]
    exact List.nil_sublist _
  | setMaxMemory bytes =>
    obtain ⟨m, -, h1, -⟩ := Shard.evictToFit_spec
      (s := { s with maxMemoryBytes := sliceOf bytes db.shards.length }) hv.holds
    refine .of_sublist ?_
    show (Shard.recencyKeys (Shard.evictToFit _)).Sublist _
    rw [Shard.recencyKeys_eq h1]
    exact (List.take_sublist m _).map _
  | ttl _ => exact .of_sublist (.refl _)
  | existsKey _ => exact .of_sublist (.refl _)
  | keys => exact .of_sublist (.refl _)
  | snapshot => exact .of_sublist (.refl _)

/-! ## Runs -/

/-- Every shard lists its keys in the order of their last use. -/
def InUseOrder (log : List Bytes) (db : Database) : Prop :=
  ∀ (i : Nat) (s : Shard), db.shards[i]? = some s → OrderedByUse log s.recencyKeys

theorem InUseOrder.step {log : List Bytes} {db : Database} (ho : InUseOrder log db) (h : db.Inv)
    (x : Op × (Nat → Int)) : InUseOrder (db.usesOf x ++ log) (db.stepUses x).1 := by
  intro i s' hs'
  rw [stepUses, step_shards] at hs'
  obtain ⟨s, hs, rfl⟩ := Option.map_eq_some_iff.1 hs'
  exact (onShard_follows h log x hs).ordered (ho i s hs)

theorem Inv.run {db : Database} (h : db.Inv) (ops : List (Op × (Nat → Int))) :
    (Machine.run stepUses db ops).Inv :=
  run_invariant (fun _ x hs => hs.step x.1 x.2) ops h

theorem InUseOrder.run : ∀ (ops : List (Op × (Nat → Int))) {log : List Bytes} {db : Database},
    InUseOrder log db → db.Inv →
    InUseOrder (db.useLog ops ++ log) (Machine.run stepUses db ops)
  | [], _, _, ho, _ => ho
  | x :: ops, log, db, ho, h => by
    have ih := InUseOrder.run ops (ho.step h x) (h.step x.1 x.2)
    rw [← List.append_assoc] at ih
    rw [show db.useLog (x :: ops) = (db.stepUses x).1.useLog ops ++ db.usesOf x by
      simp [useLog, answers, stepUses]]
    exact ih

/-- **The recency list is the order of use.** After any run, the list that runs from
`lruHead` to `lruTail` names the stored keys of the shard, each once, in the order of
their last use; and the next step keeps the keys it does not use in order. -/
theorem recency_is_use_order {n shardCount : UInt64} {db : Database}
    (h : new n shardCount = some db) (ops : List (Op × (Nat → Int))) {i : Nat} {s : Shard}
    (hs : (run stepUses db ops).shards[i]? = some s) :
    (∃ l, s.table.links.Linked l ∧ s.recencyKeys = l.map fun p => (s.table.entryAt p).key) ∧
      s.recencyKeys.Perm s.table.keys ∧
      OrderedByUse (db.useLog ops) s.recencyKeys ∧
      ∀ x s', (((run stepUses db ops).step x.1 x.2).1.shards[i]? = some s') →
        (s'.recencyKeys.filter (· ∉ (run stepUses db ops).usesOf x)).Sublist s.recencyKeys := by
  have hf := fresh_of_new h
  have hstart : InUseOrder [] db := by
    intro j t ht
    rw [Shard.recencyKeys, hf.empty j t ht]; exact .nil []
  have hrun := hstart.run ops hf.inv
  have hinv := hf.inv.run ops
  rw [List.append_nil] at hrun
  obtain ⟨⟨l, hl, he⟩, -⟩ := (hinv.valid i s hs).holds
  have hkeys : s.recencyKeys = l.map fun p => (s.table.entryAt p).key := by
    rw [Shard.recencyKeys, ← he, List.map_map]; rfl
  refine ⟨⟨l, hl.linked, hkeys⟩, ?_, hrun i s hs, fun x s' hs' => ?_⟩
  · rw [hkeys]; exact hl.perm.map _
  · rw [step_shards, hs, Option.map_some] at hs'
    obtain rfl := Option.some.inj hs'
    exact (onShard_follows hinv [] x hs).unmoved

/-- Two keys under a limit, the older of which is read. -/
def readOlder : List (Op × (Nat → Int)) :=
  [(.set [97] [120], fun _ => 0), (.set [98] [121], fun _ => 0),
    (.setMaxMemory 9999, fun _ => 0), (.get [97], fun _ => 0)]

theorem recency_is_use_order_readOlder :
    ∃ s, (run stepUses single readOlder).shards[0]? = some s ∧
      s.recencyKeys = [[97], [98]] ∧ OrderedByUse [[97], [98], [97]] s.recencyKeys := by
  have hlog : single.useLog readOlder = [[97], [98], [97]] := by decide +kernel
  have hkeys : ((run stepUses single readOlder).shards[0]?).map
      Shard.recencyKeys = some [[97], [98]] := by decide +kernel
  obtain ⟨s, hs, hk⟩ := Option.map_eq_some_iff.1 hkeys
  have h := @recency_is_use_order 1 1 single rfl readOlder 0 s hs
  rw [hlog] at h
  exact ⟨s, hs, hk, h.2.2.1⟩

end Database

end VCache
