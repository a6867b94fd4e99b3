import VCache.Lib.Checked
import VCache.Snapshot.RoundTrip

/-!
# The clock arithmetic of the decoder

`Snapshot.decode` computes expiries with exact integers; the code does with `std::int64_t`.
Here the decoder is written out with checked operations, `none` standing for a signed
overflow. It agrees with the exact one on the files whose expiries can be placed, and
overflows on all others.
-/

namespace VCache

open VCache.Lib

namespace Snapshot

/-! ### The records -/

/-- The records the loop reads, up to the first that is malformed. -/
def readRecords (data : Bytes) (payloadLength : Nat) : Nat → Nat → Nat → List Record
  | 0, _, _ => []
  | entryCount + 1, i, offset =>
    match readRecord data payloadLength offset i with
    | .error _ => []
    | .ok (record, offset) => record :: readRecords data payloadLength entryCount (i + 1) offset

/-- The records a run of the decoder reads. -/
def recordsRead (data : Bytes) : List Record :=
  match readHeader data with
  | .error _ => []
  | .ok (entryCount, offset) =>
    readRecords data (data.length - kChecksumLength) entryCount 0 offset

theorem readRecords_of_drop {data rest : Bytes} (payloadLength : Nat) :
    ∀ (records : List Record) (i offset : Nat), (∀ r ∈ records, r.Fits) → offset ≤ data.length →
    data.drop offset = (records.map recordBytes).flatten ++ rest →
    offset + ((records.map recordBytes).flatten).length ≤ payloadLength →
    readRecords data payloadLength records.length i offset = records
  | [], _, _, _, _, _, _ => rfl
  | r :: rs, i, offset, hr, ho, h, hp => by
    simp only [List.map_cons, List.flatten_cons, List.append_assoc, List.length_append] at h hp
    obtain ⟨h1, h2, h3⟩ := readRecord_of_drop payloadLength i
      (hr r List.mem_cons_self) ho h (by omega)
    rw [List.length_cons, readRecords, h1]
    dsimp only
    rw [readRecords_of_drop payloadLength rs (i + 1) _
      (fun r' hr' => hr r' (List.mem_cons_of_mem _ hr')) h2 h3 (by omega)]

theorem recordsRead_fileOf {records : List Record} (hr : ∀ r ∈ records, r.Fits)
    (hc : records.length < 2 ^ 64) : recordsRead (fileOf records) = records := by
  obtain ⟨hheader, hle, hdrop⟩ := readHeader_fileOf hc
  rw [recordsRead, hheader]
  exact readRecords_of_drop _ records 0 _ hr hle hdrop (records_end records).le

/-! ### The decoder with checked arithmetic -/

namespace Checked

open Lib.Checked

def fromWallClockMillis (now : Reading) (millis : Int) : Option (Option Int) := do
  let wall ← mul millis millisecond
  let remaining ← sub wall now.wall
  if remaining ≤ 0 then
    return none
  let expiry ← add now.steady remaining
  return some expiry

def loadRecord (now : Int) (reading : Reading) (record : Record) : Option (Option Entry) := do
  let expiresAtMillis := toInt64 record.rawExpiry
  let entry : Option Entry ←
    if expiresAtMillis ≠ 0 then
      (fromWallClockMillis reading expiresAtMillis).map (Option.map fun expiry =>
        { key := record.key, value := record.value, expiration := some expiry })
    else some (some { key := record.key, value := record.value })
  return entry.filter fun entry => !entry.isExpiredAt now

def decodeLoop (data : Bytes) (payloadLength : Nat) (now : Int) (readings : Nat → Reading) :
    Nat → Nat → Nat → Option (Except Bytes (List Entry × Nat))
  | 0, _, offset => some (.ok ([], offset))
  | entryCount + 1, i, offset =>
    match readRecord data payloadLength offset i with
    | .error e => some (.error e)
    | .ok (record, offset) =>
      match loadRecord now (readings i) record with
      | none => none
      | some entry =>
        match decodeLoop data payloadLength now readings entryCount (i + 1) offset with
        | none => none
        | some (.error e) => some (.error e)
        | some (.ok (entries, offset)) => some (.ok (entry.toList ++ entries, offset))

/-- `none` when the clock arithmetic overflows on the way. -/
def decode (data : Bytes) (now : Int) (readings : Nat → Reading) :
    Option (Except Bytes (List Entry)) :=
  match readHeader data with
  | .error e => some (.error e)
  | .ok (entryCount, offset) =>
    (decodeLoop data (data.length - kChecksumLength) now readings entryCount 0 offset).map
      (finish data)

end Checked

/-! ### Where it overflows -/

/-- Both clocks are between `0` and `2^61` nanoseconds. -/
structure Reading.InRange (reading : Reading) : Prop where
  steady : 0 ≤ reading.steady ∧ reading.steady ≤ 2305843009213693952
  wall : 0 ≤ reading.wall ∧ reading.wall ≤ 2305843009213693952

/-- The moments that can be placed: not too long before now on the wall clock, in the range of
both clocks. -/
def Placeable (now : Reading) (millis : Int) : Prop :=
  now.wall - 9223372036854775808 ≤ millis * millisecond ∧
    millis * millisecond ≤ 9223372036854775807 + min 0 (now.wall - now.steady)

instance (now : Reading) (millis : Int) : Decidable (Placeable now millis) :=
  inferInstanceAs (Decidable (_ ∧ _))

/-- The expiry of the record can be placed, if it has one. -/
def Record.Convertible (reading : Reading) (record : Record) : Prop :=
  toInt64 record.rawExpiry ≠ 0 → Placeable reading (toInt64 record.rawExpiry)

instance (reading : Reading) (record : Record) : Decidable (record.Convertible reading) :=
  inferInstanceAs (Decidable (_ → _))

variable {now : Int} {reading : Reading} {readings : Nat → Reading}

/-- What is computed on the way to an expiry. A moment that has passed is not placed on the
steady clock. -/
theorem placeable_iff (h : reading.InRange) (millis : Int) :
    Placeable reading millis ↔
      IsInt64 (millis * millisecond) ∧ IsInt64 (millis * millisecond - reading.wall) ∧
        (¬ millis * millisecond - reading.wall ≤ 0 →
          IsInt64 (reading.steady + (millis * millisecond - reading.wall))) := by
  obtain ⟨⟨hs, hs'⟩, hw, hw'⟩ := h
  unfold Placeable IsInt64
  omega

theorem fromWallClockMillis_checked (h : reading.InRange) (millis : Int) :
    Checked.fromWallClockMillis reading millis =
      if Placeable reading millis then some (fromWallClockMillis reading millis) else none := by
  have hp := placeable_iff h millis
  unfold Checked.fromWallClockMillis fromWallClockMillis Lib.Checked.mul Lib.Checked.sub
    Lib.Checked.add
  simp only [Lib.Checked.bind_result]
  by_cases hwall : IsInt64 (millis * millisecond)
  · by_cases hrem : IsInt64 (millis * millisecond - reading.wall)
    · rw [if_pos hwall, if_pos hrem]
      by_cases hpast : millis * millisecond - reading.wall ≤ 0
      · rw [if_pos hpast, if_pos hpast, if_pos (hp.2 ⟨hwall, hrem, fun hn => absurd hpast hn⟩)]
        rfl
      · rw [if_neg hpast, if_neg hpast]
        refine if_congr ?_ rfl rfl
        exact ⟨fun hplace => hp.2 ⟨hwall, hrem, fun _ => hplace⟩, fun h => (hp.1 h).2.2 hpast⟩
    · rw [if_pos hwall, if_neg hrem, if_neg fun h => hrem (hp.1 h).2.1]
  · rw [if_neg hwall, if_neg fun h => hwall (hp.1 h).1]

theorem loadRecord_checked (h : reading.InRange) (now : Int) (record : Record) :
    Checked.loadRecord now reading record =
      if record.Convertible reading then some (loadRecord now reading record) else none := by
  unfold Checked.loadRecord loadRecord
  dsimp only
  by_cases h0 : toInt64 record.rawExpiry ≠ 0
  · rw [if_pos h0, if_pos h0, fromWallClockMillis_checked h]
    by_cases hp : Placeable reading (toInt64 record.rawExpiry)
    · have hc : record.Convertible reading := fun _ => hp
      rw [if_pos hp, if_pos hc]
      rfl
    · have hc : ¬ record.Convertible reading := fun hc => hp (hc h0)
      rw [if_neg hp, if_neg hc]
      rfl
  · have hc : record.Convertible reading := fun hne => absurd hne h0
    rw [if_neg h0, if_neg h0, if_pos hc]
    rfl

theorem decodeLoop_checked (hreadings : ∀ i, (readings i).InRange) (data : Bytes)
    (payloadLength : Nat) (now : Int) : ∀ entryCount i offset : Nat,
    Checked.decodeLoop data payloadLength now readings entryCount i offset =
      if ∀ p ∈ (readRecords data payloadLength entryCount i offset).zipIdx i,
        p.1.Convertible (readings p.2) then
        some (decodeLoop data payloadLength now readings entryCount i offset)
      else none
  | 0, i, offset => by
    rw [if_pos fun p hp => by cases hp]
    rfl
  | entryCount + 1, i, offset => by
    unfold Checked.decodeLoop decodeLoop readRecords
    cases readRecord data payloadLength offset i with
    | error e => rw [if_pos fun p hp => by cases hp]
    | ok found =>
      obtain ⟨record, offset'⟩ := found
      simp only [List.zipIdx_cons, List.forall_mem_cons]
      rw [loadRecord_checked (hreadings i), decodeLoop_checked hreadings data payloadLength now
        entryCount (i + 1) offset']
      by_cases hr : record.Convertible (readings i)
      · by_cases hrs : ∀ p ∈ (readRecords data payloadLength entryCount (i + 1) offset').zipIdx
            (i + 1), p.1.Convertible (readings p.2)
        · simp only [if_pos hr, if_pos hrs, if_pos (And.intro hr hrs)]
          cases decodeLoop data payloadLength now readings entryCount (i + 1) offset' <;> rfl
        · simp only [if_pos hr, if_neg hrs, if_neg fun h : _ ∧ _ => hrs h.2]
      · simp only [if_neg hr, if_neg fun h : _ ∧ _ => hr h.1]

theorem decode_checked (data : Bytes) (now : Int) (hreadings : ∀ i, (readings i).InRange) :
    Checked.decode data now readings =
      if ∀ p ∈ (recordsRead data).zipIdx, p.1.Convertible (readings p.2) then
        some (decode data now readings)
      else none := by
  unfold Checked.decode recordsRead decode
  cases readHeader data with
  | error e => rw [if_pos fun p hp => by cases hp]
  | ok header =>
    obtain ⟨entryCount, offset⟩ := header
    dsimp only
    rw [decodeLoop_checked hreadings]
    split <;> rfl

/-- The decoder overflows exactly on the files in which it reads an expiry that cannot be
placed. On all others each expiry is placed where exact arithmetic puts it. -/
theorem decode_in_range_iff (data : Bytes) (now : Int) (readings : Nat → Reading)
    (hreadings : ∀ i, (readings i).InRange) :
    (Checked.decode data now readings = some (decode data now readings) ↔
      ∀ p ∈ (recordsRead data).zipIdx, p.1.Convertible (readings p.2)) ∧
    (Checked.decode data now readings = none ↔
      ∃ p ∈ (recordsRead data).zipIdx, ¬ p.1.Convertible (readings p.2)) := by
  rw [decode_checked data now hreadings]
  split
  next hall =>
    refine ⟨⟨fun _ => hall, fun _ => rfl⟩, (fun h => by cases h), ?_⟩
    rintro ⟨p, hp, hn⟩
    exact absurd (hall p hp) hn
  next hnot =>
    refine ⟨⟨(fun h => by cases h), fun hall => absurd hall hnot⟩, fun _ => ?_, fun _ => rfl⟩
    simpa using hnot

theorem fits_small {rawExpiry : Nat} (h : rawExpiry < 2 ^ 64) :
    ∀ r ∈ [(⟨[107], [118], rawExpiry⟩ : Record)], r.Fits := by
  intro r hr
  cases List.mem_singleton.1 hr
  exact ⟨by show 1 ≤ _; decide, by show 1 ≤ _; decide, h⟩

/-- A key that expires `10^13` milliseconds after the epoch: the file is sound, and placing the
expiry overflows. -/
theorem decode_overflows :
    Checked.decode (fileOf [⟨[107], [118], 10000000000000⟩]) 0 (fun _ => ⟨0, 0⟩) = none ∧
      decode (fileOf [⟨[107], [118], 10000000000000⟩]) 0 (fun _ => ⟨0, 0⟩) =
        .ok [⟨[107], [118], some 10000000000000000000⟩] := by
  have hfits := fits_small (by decide : 10000000000000 < 2 ^ 64)
  constructor
  · rw [decode_checked _ _ fun _ => ⟨by decide, by decide⟩, recordsRead_fileOf hfits (by decide)]
    decide
  · rw [decode_fileOf hfits (by decide)]
    rfl

theorem decode_in_range_iff_soon :
    Checked.decode (fileOf [⟨[107], [118], 5000⟩]) 7 (fun _ => ⟨7, 1000000000⟩) =
      some (.ok [⟨[107], [118], some 4000000007⟩]) := by
  have hfits := fits_small (by decide : 5000 < 2 ^ 64)
  rw [(decode_in_range_iff _ 7 (fun _ => ⟨7, 1000000000⟩) fun _ => ⟨by decide, by decide⟩).1.2
    (by rw [recordsRead_fileOf hfits (by decide)]; decide), decode_fileOf hfits (by decide)]
  rfl

end Snapshot

end VCache
