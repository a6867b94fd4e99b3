import VCache.Database.Spec

/-!
# What the database answers

The entry stored under a key, and the entry that is live at an instant. Every answer
of a read is a function of the live entries.
-/

namespace VCache

open VCache.Lib

namespace Database

/-- The entry stored under a key, expired or not. -/
def lookup (db : Database) (key : Bytes) : Option Entry := (db.shardFor key).table.find key

/-- The entry a reader at `now` can see. -/
def live (db : Database) (now : Int) (key : Bytes) : Option Entry :=
  (db.lookup key).filter fun e => !e.isExpiredAt now

theorem Inv.lookup_eq {db : Database} (h : db.Inv) (key : Bytes) :
    db.lookup key = Keyed.lookup (·.key) key (db.shardFor key).entries :=
  (h.shardFor key).holds.find_eq key

theorem Inv.key_of_lookup {db : Database} (h : db.Inv) {key : Bytes} {e : Entry}
    (he : db.lookup key = some e) : e.key = key := by
  rw [h.lookup_eq] at he
  exact Keyed.key_of_lookup he

theorem Inv.lookup_iff {db : Database} (h : db.Inv) {e : Entry} :
    db.lookup e.key = some e ↔ e ∈ (db.shardFor e.key).entries := by
  rw [h.lookup_eq, (h.shardFor e.key).holds.distinct.lookup_iff]
  exact and_iff_left rfl

theorem Inv.mem_of_lookup {db : Database} (h : db.Inv) {key : Bytes} {e : Entry}
    (he : db.lookup key = some e) : e ∈ (db.shards.map Shard.entries).flatten := by
  obtain rfl := h.key_of_lookup he
  exact List.mem_flatten.2
    ⟨_, List.mem_map_of_mem (List.mem_of_getElem? (db.shards_shardFor e.key)), h.lookup_iff.1 he⟩

/-! ## Single keys -/

theorem get_value (db : Database) (key : Bytes) (now : Int) :
    (db.get key now).2 = (db.live now key).map (·.value) := by
  unfold get live lookup
  dsimp only
  cases (db.shardFor key).table.find key with
  | none => rfl
  | some e =>
    by_cases he : e.isExpiredAt now = true <;>
      by_cases hm : (db.shardFor key).maxMemoryBytes = 0 <;> simp [he, hm, Option.filter]

theorem existsKey_eq (db : Database) (key : Bytes) (now : Int) :
    db.existsKey key now = (db.live now key).isSome := by
  unfold existsKey live lookup
  cases (db.shardFor key).table.find key with
  | none => rfl
  | some e => by_cases he : e.isExpiredAt now = true <;> simp [he, Option.filter]

theorem del_eq (db : Database) (key : Bytes) (now : Int) :
    (db.del key now).2 = (db.live now key).isSome := by
  unfold del live lookup
  dsimp only
  cases (db.shardFor key).table.find key with
  | none => rfl
  | some e => by_cases he : e.isExpiredAt now = true <;> simp [he, Option.filter]

theorem ttl_eq (db : Database) (key : Bytes) (now : Int) :
    db.ttl key now =
      ((db.live now key).bind (·.expiration)).map fun e => ceilSeconds (e - now) := by
  unfold ttl live lookup
  cases (db.shardFor key).table.find key with
  | none => rfl
  | some e =>
    cases he : e.expiration with
    | none => simp [Option.filter, Entry.isExpiredAt, he]
    | some x =>
      by_cases hx : x ≤ now
      · simp [Option.filter, Entry.isExpiredAt, he, hx]
      · simp [Option.filter, Entry.isExpiredAt, he, hx]

/-! ## Scans -/

def scans (db : Database) (now : Nat → Int) : List (List Entry) :=
  db.shards.mapIdx fun i shard => shard.table.entriesWhere fun entry => !entry.isExpiredAt (now i)

theorem scans_get {db : Database} {now : Nat → Int} {i : Nat} {es : List Entry}
    (h : (db.scans now)[i]? = some es) :
    ∃ s, db.shards[i]? = some s ∧
      es = s.table.entriesWhere fun entry => !entry.isExpiredAt (now i) := by
  unfold scans at h
  rw [List.getElem?_mapIdx] at h
  obtain ⟨s, hs, rfl⟩ := Option.map_eq_some_iff.1 h
  exact ⟨s, hs, rfl⟩

theorem Inv.scans_perm {db : Database} (h : db.Inv) {now : Nat → Int} {i : Nat}
    {es : List Entry} (he : (db.scans now)[i]? = some es) :
    ∃ s, db.shards[i]? = some s ∧ es.Perm (s.entries.filter fun e => !e.isExpiredAt (now i)) := by
  obtain ⟨s, hs, rfl⟩ := scans_get he
  exact ⟨s, hs, (h.valid i s hs).holds.entriesWhere_perm _⟩

theorem Inv.scans_placed {db : Database} (h : db.Inv) (now : Nat → Int) :
    Placed (fun e : Entry => db.shardIndexFor e.key) (db.scans now) := by
  intro i es he e hm
  obtain ⟨s, hs, hp⟩ := h.scans_perm he
  exact (h.valid i s hs).routed e (List.mem_of_mem_filter (hp.mem_iff.1 hm))

theorem Inv.scans_distinct {db : Database} (h : db.Inv) (now : Nat → Int) :
    ∀ es ∈ db.scans now, Keyed.Distinct (·.key) es := by
  intro es hes
  obtain ⟨i, hi⟩ := List.mem_iff_getElem?.1 hes
  obtain ⟨s, hs, hp⟩ := h.scans_perm hi
  exact ((h.valid i s hs).holds.distinct.sublist List.filter_sublist).perm hp.symm

theorem Inv.snapshot_distinct {db : Database} (h : db.Inv) (now : Nat → Int) :
    Keyed.Distinct (·.key) (db.snapshot now) :=
  (h.scans_placed now).distinct (h.scans_distinct now)

theorem Inv.mem_snapshot {db : Database} (h : db.Inv) {now : Nat → Int} {e : Entry} :
    e ∈ db.snapshot now ↔
      db.lookup e.key = some e ∧ e.isExpiredAt (now (db.shardIndexFor e.key)) = false := by
  rw [h.lookup_iff]
  show e ∈ (db.scans now).flatten ↔ _
  rw [(h.scans_placed now).mem_iff]
  have hs := db.shards_shardFor e.key
  have hf := (h.shardFor e.key).holds.entriesWhere_perm
    fun x => !x.isExpiredAt (now (db.shardIndexFor e.key))
  unfold scans
  rw [List.getElem?_mapIdx, hs]
  simp only [Option.map_some, Option.some.injEq, exists_eq_left', hf.mem_iff, List.mem_filter,
    Bool.not_eq_true']

theorem keys_eq (db : Database) (now : Nat → Int) :
    db.keys now = (db.snapshot now).map (·.key) := by
  unfold keys snapshot
  rw [List.map_flatten]
  congr 1
  refine List.ext_getElem? fun i => ?_
  rw [List.getElem?_map, List.getElem?_mapIdx, List.getElem?_mapIdx, Option.map_map]
  simp only [HashTable.keysWhere_eq]
  rfl

theorem Inv.keys_nodup {db : Database} (h : db.Inv) (now : Nat → Int) : (db.keys now).Nodup := by
  rw [keys_eq]; exact h.snapshot_distinct now

theorem Inv.mem_snapshot_const {db : Database} (h : db.Inv) {now : Int} {e : Entry} :
    e ∈ db.snapshot (fun _ => now) ↔ db.live now e.key = some e := by
  rw [h.mem_snapshot, live, Option.filter_eq_some_iff]
  simp

theorem Inv.lookup_snapshot {db : Database} (h : db.Inv) (now : Int) (key : Bytes) :
    Keyed.lookup (·.key) key (db.snapshot fun _ => now) = db.live now key := by
  refine Option.ext fun e => ?_
  rw [(h.snapshot_distinct _).lookup_iff, h.mem_snapshot_const]
  refine ⟨?_, fun he => ?_⟩
  · rintro ⟨he, rfl⟩; exact he
  · obtain rfl := h.key_of_lookup (Option.filter_eq_some_iff.1 he).1
    exact ⟨he, rfl⟩

theorem Inv.mem_keys {db : Database} (h : db.Inv) {now : Int} {key : Bytes} :
    key ∈ db.keys (fun _ => now) ↔ (db.live now key).isSome := by
  rw [keys_eq, List.mem_map, Option.isSome_iff_exists]
  refine ⟨?_, ?_⟩
  · rintro ⟨e, he, rfl⟩
    exact ⟨e, h.mem_snapshot_const.1 he⟩
  · rintro ⟨e, he⟩
    obtain rfl := h.key_of_lookup (Option.filter_eq_some_iff.1 he).1
    exact ⟨e, h.mem_snapshot_const.2 he, rfl⟩

/-! ## After a restore -/

/-- A restore leaves under a key the last unexpired entry given for it, and nothing of
what was stored before. -/
theorem Inv.lookup_restore {db : Database} (h : db.Inv) (es : List Entry) (now : Int)
    (key : Bytes) :
    (db.restore es now).1.lookup key =
      Keyed.lookup (·.key) key (es.filter fun e => !e.isExpiredAt now).reverse := by
  have hv := h.shardFor key
  have hs := db.step_shardFor (.restore es) (fun _ => now) key
  unfold lookup
  rw [show (db.restore es now).1.shardFor key = _ from hs]
  show (Shard.afterRestore _ _).table.find key = _
  rw [(Shard.afterRestore_spec hv.holds _).1.find_eq, Shard.pushAll, Keyed.lookup_pushes,
    ← List.filter_filter, List.filter_comm, ← List.filter_reverse, Keyed.lookup_filter_of_key]
  · exact Option.or_none
  · rintro e rfl; exact decide_eq_true rfl

end Database

end VCache
