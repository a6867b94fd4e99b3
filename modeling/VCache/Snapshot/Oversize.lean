import VCache.Database.Refinement
import VCache.Snapshot.Accepted

/-!
# What was saved and cannot be loaded

The encoder writes fields of any length, the decoder refuses one of more than
`kMaxFieldLength` bytes. A file with such a field is refused, and with it every other key.
-/

namespace VCache

open VCache.Lib

namespace Snapshot

theorem forall_recordsOf {readings : Nat → Reading} {p : Bytes → Bytes → Prop} :
    ∀ {i : Nat} {es : List Entry}, (∀ r ∈ recordsOf readings i es, p r.key r.value) ↔
      ∀ e ∈ es, p e.key e.value
  | _, [] => by simp [recordsOf]
  | i, e :: es => by
    rw [recordsOf, List.forall_mem_cons, List.forall_mem_cons, forall_recordsOf]
    rfl

theorem rawExpiry_recordsOf {readings : Nat → Reading} :
    ∀ {i : Nat} {es : List Entry}, ∀ r ∈ recordsOf readings i es, r.rawExpiry < 2 ^ 64
  | _, [], r, hr => by cases hr
  | i, e :: es, r, hr => by
    rcases List.mem_cons.1 hr with rfl | hr
    · exact toUInt64_lt _
    · exact rawExpiry_recordsOf r hr

/-- With lengths that the length fields can hold, only the records themselves can be read. -/
theorem IsFileOf.of_sized {rs rs' : List Record} (hc : rs.length < 2 ^ 64)
    (hs : ∀ r ∈ rs, r.Sized) (h : IsFileOf (fileOf rs) rs') : rs' = rs :=
  (payload_append_inj h.count hc (fun r hr => (h.fits r hr).sized) hs h.eq.symm).1

theorem decode_fileOf_iff {rs : List Record} (hc : rs.length < 2 ^ 64) (hs : ∀ r ∈ rs, r.Sized)
    (now : Int) (readings : Nat → Reading) :
    (∃ entries, decode (fileOf rs) now readings = .ok entries) ↔
      ∀ r ∈ rs, r.key.length ≤ kMaxFieldLength ∧ r.value.length ≤ kMaxFieldLength := by
  constructor
  · rintro ⟨entries, h⟩
    obtain ⟨rs', hfile, -⟩ := decode_ok_iff.1 h
    obtain rfl := hfile.of_sized hc hs
    exact fun r hr => ⟨(hfile.fits r hr).key, (hfile.fits r hr).value⟩
  · intro h
    exact ⟨_, decode_fileOf (fun r hr => ⟨(h r hr).1, (h r hr).2, (hs r hr).rawExpiry⟩) hc now
      readings⟩

/-- **A saved file can be loaded** if no key and no value that is written is longer than
`kMaxFieldLength`. As long as the lengths fit their four bytes, it can be loaded only then. -/
theorem saved_loadable_iff (entries : List Entry) (hcount : entries.length < 2 ^ 64)
    (now now' : Int) (readings readings' : Nat → Reading) :
    ((∀ e ∈ unexpired entries now,
        e.key.length ≤ kMaxFieldLength ∧ e.value.length ≤ kMaxFieldLength) →
      ∃ loaded, decode (encode entries now readings) now' readings' = .ok loaded) ∧
    ((∀ e ∈ unexpired entries now, e.key.length < 2 ^ 32 ∧ e.value.length < 2 ^ 32) →
      (∃ loaded, decode (encode entries now readings) now' readings' = .ok loaded) →
      ∀ e ∈ unexpired entries now,
        e.key.length ≤ kMaxFieldLength ∧ e.value.length ≤ kMaxFieldLength) := by
  have hc : (recordsOf readings 0 (unexpired entries now)).length < 2 ^ 64 := by
    rw [recordsOf_length]
    exact Nat.lt_of_le_of_lt (List.length_filter_le _ _) hcount
  have hiff : (∀ e ∈ unexpired entries now, e.key.length < 2 ^ 32 ∧ e.value.length < 2 ^ 32) →
      ((∃ loaded, decode (encode entries now readings) now' readings' = .ok loaded) ↔
        ∀ e ∈ unexpired entries now,
          e.key.length ≤ kMaxFieldLength ∧ e.value.length ≤ kMaxFieldLength) := by
    intro hsized
    have hfit : ∀ r ∈ recordsOf readings 0 (unexpired entries now), r.Sized := fun r hr =>
      have hr' := (forall_recordsOf
        (p := fun k v => k.length < 2 ^ 32 ∧ v.length < 2 ^ 32)).2 hsized r hr
      ⟨hr'.1, hr'.2, rawExpiry_recordsOf r hr⟩
    rw [encode_eq, decode_fileOf_iff hc hfit]
    exact forall_recordsOf
      (p := fun k v => k.length ≤ kMaxFieldLength ∧ v.length ≤ kMaxFieldLength)
  refine ⟨fun h => (hiff fun e he => ?_).2 h, fun hsized => (hiff hsized).1⟩
  have hmax : kMaxFieldLength < 2 ^ 32 := by decide
  exact ⟨Nat.lt_of_le_of_lt (h e he).1 hmax, Nat.lt_of_le_of_lt (h e he).2 hmax⟩

theorem saved_loadable_iff_oneKey :
    ∃ loaded, decode (encode [⟨[107], [118], none⟩] 0 fun _ => ⟨0, 0⟩) 0 (fun _ => ⟨0, 0⟩) =
      .ok loaded :=
  (saved_loadable_iff [⟨[107], [118], none⟩] (by decide) 0 0 _ _).1 (by decide)

/-- A database with one key, and no limit. -/
def oneValue (value : Bytes) : Database :=
  (Database.single.step (.set [107] value) fun _ => 0).1

theorem oneValue_reachable (value : Bytes) : (oneValue value).Reachable :=
  .step single_reachable _ _

theorem oneValue_lookup (value k : Bytes) :
    (oneValue value).lookup k = if k = [107] then some ⟨[107], value, none⟩ else none := by
  have hfresh : Database.single.Fresh := Database.ofShards_fresh ..
  have hnone : Database.single.lookup k = none := by
    rw [hfresh.inv.lookup_eq, hfresh.empty _ _ (Database.single.shards_shardFor k)]; rfl
  rcases @Database.lookup_step _ hfresh.inv hfresh.unlimited (.set [107] value) trivial 0 k with
    h | ⟨h, -⟩
  · rw [hnone] at h; exact h
  · cases h

theorem oneValue_snapshot (value : Bytes) :
    (oneValue value).snapshot (fun _ => 0) = [⟨[107], value, none⟩] := by
  have hinv := (oneValue_reachable value).inv
  have hnodup : ((oneValue value).snapshot fun _ => 0).Nodup :=
    List.Nodup.of_map Entry.key (hinv.snapshot_distinct fun _ => 0)
  refine List.perm_singleton.1 ((List.perm_ext_iff_of_nodup hnodup (List.nodup_singleton _)).2 ?_)
  intro e
  rw [hinv.mem_snapshot, oneValue_lookup, List.mem_singleton]
  constructor
  · rintro ⟨h, -⟩
    split at h
    · exact (Option.some.inj h).symm
    · cases h
  · rintro rfl
    exact ⟨if_pos rfl, rfl⟩

theorem oneValue_not_loadable {value : Bytes} (hmax : kMaxFieldLength < value.length)
    (hlt : value.length < 2 ^ 32) (loaded : List Entry) :
    decode (encode ((oneValue value).snapshot fun _ => 0) 0 fun _ => ⟨0, 0⟩) 0 (fun _ => ⟨0, 0⟩) ≠
      .ok loaded := by
  intro h
  rw [oneValue_snapshot, encode_eq] at h
  have hsized : ∀ r ∈ [(⟨[107], value, 0⟩ : Record)], r.Sized := by
    intro r hr
    rw [List.mem_singleton.1 hr]
    exact ⟨by simp, hlt, by simp⟩
  have hfits := (decode_fileOf_iff (by simp) hsized _ _).1 ⟨loaded, h⟩
  exact absurd (hfits _ List.mem_cons_self).2 (Nat.not_le_of_gt hmax)

/-- A value of one byte too many is stored and saved, and the file is refused. -/
theorem oversize_value_not_loadable :
    ∃ db : Database, db.Reachable ∧
      db.snapshot (fun _ => 0) = [⟨[107], List.replicate (kMaxFieldLength + 1) 118, none⟩] ∧
      ∀ loaded, decode (encode (db.snapshot fun _ => 0) 0 fun _ => ⟨0, 0⟩) 0 (fun _ => ⟨0, 0⟩) ≠
        .ok loaded := by
  have hlen : (List.replicate (kMaxFieldLength + 1) (118 : UInt8)).length = kMaxFieldLength + 1 :=
    List.length_replicate
  refine ⟨oneValue _, oneValue_reachable _, oneValue_snapshot _, ?_⟩
  exact oneValue_not_loadable (by omega) (by unfold kMaxFieldLength at hlen ⊢; omega)

end Snapshot

end VCache
