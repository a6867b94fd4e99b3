import VCache.Database.Reads
import VCache.Snapshot.Format

/-!
# Saving and loading

`decode` reads back, record by record, what `encode` has written. What is left of the
keyspace afterwards is every entry, with its lifetime cut to whole milliseconds of wall
time, less those whose time has passed.
-/

namespace VCache

open VCache.Lib

namespace Snapshot

/-! ## Reading what stands at an offset -/

theorem readLE_of_drop {data rest : Bytes} {offset w n : Nat} (ho : offset ≤ data.length)
    (h : data.drop offset = LittleEndian.split w n ++ rest) (hn : n < 256 ^ w) :
    readLE data offset w = some (n, offset + w) ∧ offset + w ≤ data.length ∧
      data.drop (offset + w) = rest := by
  have hlen := congrArg List.length h
  rw [List.length_drop, List.length_append, LittleEndian.length_split] at hlen
  have hw : (LittleEndian.split w n).length = w := LittleEndian.length_split w n
  refine ⟨?_, by omega, ?_⟩
  · unfold readLE
    rw [if_neg (by omega), h, List.take_left' hw, LittleEndian.combine_split hn]
  · rw [← List.drop_drop, h, List.drop_left' hw]

def fieldBytes (field : Bytes) : Bytes := LittleEndian.split 4 field.length ++ field

theorem readField_of_drop {data rest field : Bytes} {offset : Nat} (payloadLength i : Nat)
    (invalid : String) (ho : offset ≤ data.length) (h : data.drop offset = fieldBytes field ++ rest)
    (hf : field.length ≤ kMaxFieldLength)
    (hp : offset + (fieldBytes field).length ≤ payloadLength) :
    readField data payloadLength offset i invalid =
        .ok (field, offset + (fieldBytes field).length) ∧
      offset + (fieldBytes field).length ≤ data.length ∧
      data.drop (offset + (fieldBytes field).length) = rest := by
  unfold fieldBytes at h hp ⊢
  rw [List.append_assoc] at h
  rw [List.length_append, LittleEndian.length_split] at hp ⊢
  obtain ⟨h1, h2, h3⟩ := readLE_of_drop ho h (by unfold kMaxFieldLength at hf; omega)
  have hlen := congrArg List.length h3
  rw [List.length_drop, List.length_append] at hlen
  refine ⟨?_, by omega, ?_⟩
  · unfold readField
    rw [h1]
    dsimp only
    rw [if_neg (by omega), if_neg (by omega), h3, List.take_left, Nat.add_assoc]
  · rw [← Nat.add_assoc, ← List.drop_drop, h3, List.drop_left]

/-! ## Records -/

def recordOf (now : Reading) (entry : Entry) : Record :=
  ⟨entry.key, entry.value, toUInt64 (expiresAt now entry)⟩

def recordBytes (record : Record) : Bytes :=
  fieldBytes record.key ++ (fieldBytes record.value ++ LittleEndian.split 8 record.rawExpiry)

theorem encodeEntry_eq (now : Reading) (out : Bytes) (entry : Entry) :
    encodeEntry now out entry = out ++ recordBytes (recordOf now entry) := by
  simp [encodeEntry, appendLE, recordBytes, recordOf, fieldBytes, List.append_assoc]

/-- A record whose fields can be read back. -/
structure Record.Fits (record : Record) : Prop where
  key : record.key.length ≤ kMaxFieldLength
  value : record.value.length ≤ kMaxFieldLength
  rawExpiry : record.rawExpiry < 2 ^ 64

theorem readRecord_of_drop {data rest : Bytes} {record : Record} {offset : Nat}
    (payloadLength i : Nat) (hr : record.Fits) (ho : offset ≤ data.length)
    (h : data.drop offset = recordBytes record ++ rest)
    (hp : offset + (recordBytes record).length ≤ payloadLength) :
    readRecord data payloadLength offset i =
        .ok (record, offset + (recordBytes record).length) ∧
      offset + (recordBytes record).length ≤ data.length ∧
      data.drop (offset + (recordBytes record).length) = rest := by
  unfold recordBytes at h hp ⊢
  simp only [List.append_assoc] at h
  simp only [List.length_append, LittleEndian.length_split] at hp ⊢
  obtain ⟨h1, h2, h3⟩ := readField_of_drop payloadLength i " has an invalid key length" ho h hr.key
    (by omega)
  obtain ⟨h4, h5, h6⟩ := readField_of_drop payloadLength i " has an invalid value length" h2 h3
    hr.value (by omega)
  obtain ⟨h7, h8, h9⟩ := readLE_of_drop h5 h6 (by have := hr.rawExpiry; omega)
  simp only [← Nat.add_assoc]
  refine ⟨?_, h8, h9⟩
  unfold readRecord
  rw [h1]; dsimp only
  rw [h4]; dsimp only
  rw [h7]

def recordsOf (readings : Nat → Reading) : Nat → List Entry → List Record
  | _, [] => []
  | i, entry :: entries => recordOf (readings i) entry :: recordsOf readings (i + 1) entries

theorem recordsOf_length (readings : Nat → Reading) :
    ∀ (i : Nat) (entries : List Entry), (recordsOf readings i entries).length = entries.length
  | _, [] => rfl
  | i, _ :: entries => by rw [recordsOf, List.length_cons, recordsOf_length, List.length_cons]

theorem encodeLoop_eq (readings : Nat → Reading) : ∀ (i : Nat) (out : Bytes) (entries : List Entry),
    encodeLoop readings i out entries =
      out ++ ((recordsOf readings i entries).map recordBytes).flatten
  | _, out, [] => by simp [encodeLoop, recordsOf]
  | i, out, e :: es => by
    rw [encodeLoop, encodeLoop_eq, encodeEntry_eq, recordsOf, List.map_cons, List.flatten_cons,
      List.append_assoc]

/-- What the loop makes of the records from `i` on. -/
def loadFrom (now : Int) (readings : Nat → Reading) : Nat → List Record → List Entry
  | _, [] => []
  | i, r :: rs => (loadRecord now (readings i) r).toList ++ loadFrom now readings (i + 1) rs

theorem decodeLoop_of_drop {data rest : Bytes} (payloadLength : Nat) (now : Int)
    (readings : Nat → Reading) : ∀ (records : List Record) (i offset : Nat),
    (∀ r ∈ records, r.Fits) → offset ≤ data.length →
    data.drop offset = (records.map recordBytes).flatten ++ rest →
    offset + ((records.map recordBytes).flatten).length = payloadLength →
    decodeLoop data payloadLength now readings records.length i offset =
      .ok (loadFrom now readings i records, payloadLength)
  | [], i, offset, _, _, _, hp => by
    simp only [List.map_nil, List.flatten_nil, List.length_nil, Nat.add_zero] at hp
    rw [← hp]; rfl
  | r :: rs, i, offset, hr, ho, h, hp => by
    simp only [List.map_cons, List.flatten_cons, List.append_assoc, List.length_append] at h hp
    obtain ⟨h1, h2, h3⟩ := readRecord_of_drop payloadLength i
      (hr r List.mem_cons_self) ho h (by omega)
    have ih := decodeLoop_of_drop payloadLength now readings rs (i + 1) _
      (fun r' hr' => hr r' (List.mem_cons_of_mem _ hr')) h2 h3 (by omega)
    rw [List.length_cons, decodeLoop, h1]; dsimp only
    rw [ih]; rfl

/-! ## Files -/

/-- Everything in front of the checksum. -/
def payload (records : List Record) : Bytes :=
  kMagic ++ (LittleEndian.split 2 kFormatVersion ++
    (LittleEndian.split 8 records.length ++ (records.map recordBytes).flatten))

def fileOf (records : List Record) : Bytes :=
  payload records ++ LittleEndian.split 8 (checksumOf (payload records)).toNat

theorem encode_eq (entries : List Entry) (now : Int) (readings : Nat → Reading) :
    encode entries now readings =
      fileOf (recordsOf readings 0 (unexpired entries now)) := by
  simp only [encode, fileOf, payload, appendLE, encodeLoop_eq, recordsOf_length, List.append_assoc]

theorem payload_length (records : List Record) :
    (payload records).length = 16 + ((records.map recordBytes).flatten).length := by
  simp only [payload, List.length_append, LittleEndian.length_split]
  rw [show kMagic.length = 6 from rfl]; omega

theorem fileOf_length (records : List Record) :
    (fileOf records).length = (payload records).length + kChecksumLength := by
  rw [fileOf, List.length_append, LittleEndian.length_split]
  rfl

theorem drop_fileOf (records : List Record) :
    (fileOf records).drop kMagicLength =
      LittleEndian.split 2 kFormatVersion ++ (LittleEndian.split 8 records.length ++
        ((records.map recordBytes).flatten ++
          LittleEndian.split 8 (checksumOf (payload records)).toNat)) := by
  unfold fileOf payload
  simp only [List.append_assoc]
  exact List.drop_left

theorem records_end (records : List Record) :
    kHeaderLength + ((records.map recordBytes).flatten).length =
      (fileOf records).length - kChecksumLength := by
  have hlen := fileOf_length records
  have hpl := payload_length records
  have hk : kHeaderLength = 16 ∧ kChecksumLength = 8 := ⟨rfl, rfl⟩
  omega

theorem readLE_fileOf {records : List Record} (hc : records.length < 2 ^ 64) :
    readLE (fileOf records) kMagicLength 2 = some (kFormatVersion, kMagicLength + 2) ∧
      readLE (fileOf records) (kMagicLength + 2) 8 = some (records.length, kHeaderLength) ∧
      kHeaderLength ≤ (fileOf records).length ∧
      (fileOf records).drop kHeaderLength = (records.map recordBytes).flatten ++
        LittleEndian.split 8 (checksumOf (payload records)).toNat := by
  have hle : kMagicLength ≤ (fileOf records).length := by
    rw [fileOf_length, payload_length, show kMagicLength = 6 from rfl]
    omega
  obtain ⟨hversion, hle', hdrop⟩ := readLE_of_drop hle (drop_fileOf records) (by decide)
  exact ⟨hversion, readLE_of_drop hle' hdrop hc⟩

theorem readHeader_fileOf {records : List Record} (hc : records.length < 2 ^ 64) :
    readHeader (fileOf records) = .ok (records.length, kHeaderLength) ∧
      kHeaderLength ≤ (fileOf records).length ∧
      (fileOf records).drop kHeaderLength = (records.map recordBytes).flatten ++
        LittleEndian.split 8 (checksumOf (payload records)).toNat := by
  have hlen := fileOf_length records
  have hpl := payload_length records
  have hk : kMagicLength = 6 ∧ kHeaderLength = 16 ∧ kChecksumLength = 8 := ⟨rfl, rfl, rfl⟩
  have hmagic : (fileOf records).take kMagicLength = kMagic := by
    unfold fileOf payload
    rw [List.append_assoc]; exact List.take_left
  have hsum : (checksumOf (payload records)).toNat < 256 ^ 8 := UInt64.toNat_lt _
  have hend : (fileOf records).drop (payload records).length =
      LittleEndian.split 8 (checksumOf (payload records)).toNat ++ [] := by
    rw [List.append_nil]; exact List.drop_left
  obtain ⟨c1, -, -⟩ := readLE_of_drop (by omega) hend hsum
  obtain ⟨v1, n1, n2, n3⟩ := readLE_fileOf hc
  refine ⟨?_, n2, n3⟩
  unfold readHeader
  rw [if_neg (by omega), if_neg (by rw [hmagic]; simp)]
  dsimp only
  rw [show (fileOf records).length - kChecksumLength = (payload records).length by omega, c1]
  dsimp only
  rw [show (fileOf records).take (payload records).length = payload records from List.take_left,
    if_neg (by simp), v1]
  dsimp only
  rw [if_neg (by simp), n1]

/-- **Every well-formed file is accepted**, with the entries of its records. -/
theorem decode_fileOf {records : List Record} (hr : ∀ r ∈ records, r.Fits)
    (hc : records.length < 2 ^ 64) (now : Int) (readings : Nat → Reading) :
    decode (fileOf records) now readings = .ok (loadFrom now readings 0 records) := by
  obtain ⟨hheader, hle, hdrop⟩ := readHeader_fileOf hc
  have hloop := decodeLoop_of_drop ((fileOf records).length - kChecksumLength) now readings
    records 0 _ hr hle hdrop (records_end records)
  rw [decode, hheader]
  dsimp only
  rw [hloop, finish, if_neg (by simp)]

/-! ## Lifetimes -/

/-- What becomes of an entry saved at `before` and loaded at `after`: its moment of expiry
on the wall clock, in whole milliseconds, decides. -/
def reloaded (before after : Reading) (entry : Entry) : Option Entry :=
  match entry.expiration with
  | none => some entry
  | some expiry =>
    let t := (before.wall + (expiry - before.steady)) / 1000000 * 1000000
    if after.wall < t then
      some { entry with expiration := some (after.steady + (t - after.wall)) }
    else none

theorem reloaded_key {before after : Reading} {e e' : Entry}
    (h : reloaded before after e = some e') : e'.key = e.key := by
  unfold reloaded at h
  split at h
  · cases h; rfl
  · dsimp only at h
    split at h
    · cases h; rfl
    · cases h

theorem reloaded_unexpired {before after : Reading} {e e' : Entry}
    (h : reloaded before after e = some e') : e'.isExpiredAt after.steady = false := by
  unfold reloaded at h
  split at h
  next hx => cases h; simp [Entry.isExpiredAt, hx]
  next x hx =>
    dsimp only at h
    split at h
    next hlt => cases h; simp only [Entry.isExpiredAt, decide_eq_false_iff_not]; omega
    next => cases h

/-- An entry that expires does not come back as persistent: its lifetime shrinks by the
time that has passed and by less than a millisecond more. -/
theorem reloaded_lifetime {before after : Reading} {e e' : Entry} {x : Int}
    (hx : e.expiration = some x) (h : reloaded before after e = some e') :
    ∃ x', e'.expiration = some x' ∧
      x' - after.steady ≤ (x - before.steady) - (after.wall - before.wall) ∧
      (x - before.steady) - (after.wall - before.wall) - (x' - after.steady) < 1000000 := by
  unfold reloaded at h
  rw [hx] at h
  dsimp only at h
  split at h
  · cases h
    exact ⟨_, rfl, by omega, by omega⟩
  · cases h

theorem toInt64_toUInt64 {n : Int} (h0 : 0 ≤ n) (h : n < 2 ^ 63) : toInt64 (toUInt64 n) = n := by
  unfold toInt64 toUInt64
  rw [Int.emod_eq_of_lt h0 (by omega), if_pos (by omega)]
  exact Int.toNat_of_nonneg h0

theorem toUInt64_lt (n : Int) : toUInt64 n < 2 ^ 64 := by
  unfold toUInt64
  omega

theorem loadRecord_recordOf {before after : Reading} {e : Entry} (hw : 1000000 ≤ before.wall)
    (hx : ∀ x, e.expiration = some x →
      before.steady < x ∧ before.wall + (x - before.steady) < 2 ^ 63) :
    loadRecord after.steady after (recordOf before e) = reloaded before after e := by
  obtain ⟨key, value, expiration⟩ := e
  cases expiration with
  | none => rfl
  | some x =>
    obtain ⟨h1, h2⟩ := hx x rfl
    have hq : (before.wall + (x - before.steady)).tdiv 1000000 =
        (before.wall + (x - before.steady)) / 1000000 :=
      Int.tdiv_eq_ediv_of_nonneg (by omega)
    unfold loadRecord recordOf reloaded expiresAt toWallClockMillis millisecond
    dsimp only
    rw [hq, toInt64_toUInt64 (by omega) (by omega), if_pos (by omega)]
    unfold fromWallClockMillis millisecond
    dsimp only
    by_cases ht : after.wall < (before.wall + (x - before.steady)) / 1000000 * 1000000
    · rw [if_neg (by omega), if_pos ht, Option.map_some, Option.filter_some, if_pos]
      simp only [Entry.isExpiredAt, Bool.not_eq_true', decide_eq_false_iff_not]
      omega
    · rw [if_pos (by omega), if_neg ht]; rfl

theorem loadFrom_recordsOf {before after : Reading} {es : List Entry}
    (h : ∀ e ∈ es, loadRecord after.steady after (recordOf before e) = reloaded before after e) :
    ∀ i, loadFrom after.steady (fun _ => after) i (recordsOf (fun _ => before) i es) =
      es.filterMap (reloaded before after) := by
  induction es with
  | nil => intro i; rfl
  | cons e es ih =>
    intro i
    rw [recordsOf, loadFrom, h e List.mem_cons_self, List.filterMap_cons,
      ih (fun e' he' => h e' (List.mem_cons_of_mem _ he'))]
    cases reloaded before after e <;> rfl

/-! ## The keyspace after a save and a load -/

theorem recordsOf_fits {readings : Nat → Reading} :
    ∀ {i : Nat} {es : List Entry}, (∀ e ∈ es, e.key.length ≤ kMaxFieldLength ∧
      e.value.length ≤ kMaxFieldLength) → ∀ r ∈ recordsOf readings i es, r.Fits
  | _, [], _, r, hr => by cases hr
  | i, e :: es, h, r, hr => by
    rcases List.mem_cons.1 hr with rfl | hr
    · obtain ⟨h1, h2⟩ := h e List.mem_cons_self
      exact ⟨h1, h2, toUInt64_lt _⟩
    · exact recordsOf_fits (fun e' he' => h e' (List.mem_cons_of_mem _ he')) r hr

/-- **Saving and loading preserves the keyspace.** -/
theorem save_load_keyspace (db target : Database) (before after : Reading)
    (hdb : db.Reachable) (htarget : target.Reachable)
    (hcount : (db.snapshot fun _ => before.steady).length < 2 ^ 64)
    (hfields : ∀ key e, db.lookup key = some e →
      e.key.length ≤ kMaxFieldLength ∧ e.value.length ≤ kMaxFieldLength)
    (hwall : 1000000 ≤ before.wall)
    (hrange : ∀ key e x, db.lookup key = some e → e.expiration = some x →
      before.wall + (x - before.steady) < 2 ^ 63) :
    ∃ entries,
      decode (encode (db.snapshot fun _ => before.steady) before.steady fun _ => before)
        after.steady (fun _ => after) = .ok entries ∧
      (∀ key, (target.restore entries after.steady).1.lookup key =
        (db.live before.steady key).bind (reloaded before after)) ∧
      ∀ key e x e', db.live before.steady key = some e → e.expiration = some x →
        (target.restore entries after.steady).1.lookup key = some e' →
        ∃ x', e'.expiration = some x' ∧
          x' - after.steady ≤ (x - before.steady) - (after.wall - before.wall) ∧
          (x - before.steady) - (after.wall - before.wall) - (x' - after.steady) < 1000000 := by
  have hinv := hdb.inv
  have hlive : ∀ e ∈ db.snapshot fun _ => before.steady,
      db.lookup e.key = some e ∧ e.isExpiredAt before.steady = false := fun e he =>
    hinv.mem_snapshot.1 he
  have hall : ((db.snapshot fun _ => before.steady).filter
      fun e => !e.isExpiredAt before.steady) = db.snapshot fun _ => before.steady :=
    List.filter_eq_self.2 fun e he => by rw [(hlive e he).2]; rfl
  have hload : ∀ e ∈ db.snapshot fun _ => before.steady,
      loadRecord after.steady after (recordOf before e) = reloaded before after e := by
    intro e he
    obtain ⟨h1, h2⟩ := hlive e he
    refine loadRecord_recordOf hwall fun x hx => ⟨?_, hrange e.key e x h1 hx⟩
    simpa [Entry.isExpiredAt, hx] using h2
  have hdec : decode (encode (db.snapshot fun _ => before.steady) before.steady fun _ => before)
      after.steady (fun _ => after) =
      .ok ((db.snapshot fun _ => before.steady).filterMap (reloaded before after)) := by
    rw [encode_eq, unexpired, hall, decode_fileOf, loadFrom_recordsOf hload]
    · exact recordsOf_fits fun e he => hfields e.key e (hlive e he).1
    · rw [recordsOf_length]; exact hcount
  have hlookup : ∀ key, (target.restore ((db.snapshot fun _ => before.steady).filterMap
      (reloaded before after)) after.steady).1.lookup key =
      (db.live before.steady key).bind (reloaded before after) := by
    intro key
    have hd := hinv.snapshot_distinct fun _ => before.steady
    have hkey : ∀ e e', reloaded before after e = some e' → e'.key = e.key :=
      fun _ _ => reloaded_key
    rw [htarget.inv.lookup_restore, List.filter_eq_self.2, ← hinv.lookup_snapshot,
      ← hd.lookup_filterMap hkey]
    · exact ((hd.filterMap hkey).lookup_perm (List.reverse_perm _).symm key).symm
    · intro e' he'
      obtain ⟨e, -, he⟩ := List.mem_filterMap.1 he'
      rw [reloaded_unexpired he]; rfl
  refine ⟨_, hdec, hlookup, fun key e x e' he hx he' => ?_⟩
  rw [hlookup, he, Option.bind_some] at he'
  exact reloaded_lifetime hx he'

/-- One key with five seconds to live. -/
def oneKey : Database :=
  (Database.single.step (.setFor [107] [118] 5) fun _ => 0).1

theorem single_reachable : Database.single.Reachable :=
  @Database.Reachable.new 1 1 _ rfl

theorem oneKey_reachable : oneKey.Reachable := .step single_reachable _ _

theorem oneKey_lookup {key : Bytes} {e : Entry} (h : oneKey.lookup key = some e) :
    e = ⟨[107], [118], some 5000000000⟩ := by
  have hm := oneKey_reachable.inv.mem_of_lookup h
  rw [show oneKey.shards.map Shard.entries = [[⟨[107], [118], some 5000000000⟩]] from rfl] at hm
  simpa using hm

theorem save_load_keyspace_oneKey :
    ∃ entries, decode (encode (oneKey.snapshot fun _ => 2) 2 fun _ => ⟨2, 7000000⟩)
        9 (fun _ => ⟨9, 8000000⟩) = .ok entries ∧
      ∀ key, (Database.single.restore entries 9).1.lookup key =
        (oneKey.live 2 key).bind (reloaded ⟨2, 7000000⟩ ⟨9, 8000000⟩) := by
  obtain ⟨entries, h1, h2, -⟩ := save_load_keyspace oneKey Database.single
    ⟨2, 7000000⟩ ⟨9, 8000000⟩ oneKey_reachable single_reachable (by decide +kernel)
    (fun _ _ h => by rw [oneKey_lookup h]; decide) (by decide)
    (fun _ _ _ h hx => by rw [oneKey_lookup h] at hx; cases hx; decide)
  exact ⟨entries, h1, h2⟩

end Snapshot

end VCache
