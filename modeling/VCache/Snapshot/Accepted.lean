import VCache.Snapshot.RoundTrip

/-!
# What the decoder accepts

Each reader that succeeds has found its value written at the offset. So a file that is
accepted consists of the header, as many records as it announces, and the checksum.
-/

namespace VCache

open VCache.Lib

namespace Snapshot

/-! ## What has been read stands at the offset -/

theorem readLE_sound {data : Bytes} {offset offset' w n : Nat}
    (h : readLE data offset w = some (n, offset')) :
    offset' = offset + w ∧ offset' ≤ data.length ∧ n < 256 ^ w ∧
      data.drop offset = LittleEndian.split w n ++ data.drop offset' := by
  unfold readLE at h
  split at h
  · cases h
  next hle =>
    cases h
    have hlen : ((data.drop offset).take w).length = w := by
      rw [List.length_take, List.length_drop]; omega
    have hlt := LittleEndian.combine_lt ((data.drop offset).take w)
    have hsplit := LittleEndian.split_combine ((data.drop offset).take w)
    rw [hlen] at hlt hsplit
    refine ⟨rfl, by omega, hlt, ?_⟩
    rw [hsplit, ← List.drop_drop, List.take_append_drop]

theorem readField_sound {data field : Bytes} {payloadLength offset offset' i : Nat}
    {invalid : String} (hp : payloadLength ≤ data.length)
    (h : readField data payloadLength offset i invalid = .ok (field, offset')) :
    field.length ≤ kMaxFieldLength ∧ offset' = offset + (fieldBytes field).length ∧
      offset' ≤ data.length ∧ data.drop offset = fieldBytes field ++ data.drop offset' := by
  unfold readField at h
  split at h
  · cases h
  next length o hread =>
    obtain ⟨rfl, hle, -, hdrop⟩ := readLE_sound hread
    split at h
    · cases h
    next hmax =>
      split at h
      · cases h
      next hpay =>
        cases h
        have hlen : ((data.drop (offset + 4)).take length).length = length := by
          rw [List.length_take, List.length_drop]; omega
        unfold fieldBytes
        rw [List.length_append, LittleEndian.length_split, hlen]
        refine ⟨by omega, by omega, by omega, ?_⟩
        rw [hdrop, List.append_assoc, ← List.drop_drop (i := length), List.take_append_drop]

theorem readRecord_sound {data : Bytes} {record : Record} {payloadLength offset offset' i : Nat}
    (hp : payloadLength ≤ data.length)
    (h : readRecord data payloadLength offset i = .ok (record, offset')) :
    record.Fits ∧ offset' = offset + (recordBytes record).length ∧ offset' ≤ data.length ∧
      data.drop offset = recordBytes record ++ data.drop offset' := by
  unfold readRecord at h
  split at h
  · cases h
  next key o hkey =>
    obtain ⟨hk, rfl, -, hdrop⟩ := readField_sound hp hkey
    split at h
    · cases h
    next value o hvalue =>
      obtain ⟨hv, rfl, -, hdrop'⟩ := readField_sound hp hvalue
      split at h
      · cases h
      next rawExpiry o hread =>
        obtain ⟨rfl, hle, hlt, hdrop''⟩ := readLE_sound hread
        cases h
        refine ⟨⟨hk, hv, by omega⟩, ?_, hle, ?_⟩
        · simp only [recordBytes, List.length_append, LittleEndian.length_split]
          omega
        · rw [hdrop, hdrop', hdrop'']
          simp only [recordBytes, List.append_assoc]

theorem decodeLoop_sound {data : Bytes} {payloadLength : Nat} {now : Int}
    {readings : Nat → Reading} (hp : payloadLength ≤ data.length) :
    ∀ {entryCount i offset offset' : Nat} {entries : List Entry}, offset ≤ data.length →
      decodeLoop data payloadLength now readings entryCount i offset = .ok (entries, offset') →
      ∃ records : List Record, records.length = entryCount ∧ (∀ r ∈ records, r.Fits) ∧
        entries = loadFrom now readings i records ∧
        offset' = offset + ((records.map recordBytes).flatten).length ∧ offset' ≤ data.length ∧
        data.drop offset = (records.map recordBytes).flatten ++ data.drop offset'
  | 0, i, offset, offset', entries, ho, h => by
    rw [decodeLoop] at h
    cases h
    exact ⟨[], rfl, by simp, rfl, rfl, ho, rfl⟩
  | entryCount + 1, i, offset, offset', entries, ho, h => by
    rw [decodeLoop] at h
    split at h
    · cases h
    next record o hread =>
      obtain ⟨hr, rfl, hle, hdrop⟩ := readRecord_sound hp hread
      split at h
      · cases h
      next es o hloop =>
        cases h
        obtain ⟨records, hlen, hfits, rfl, rfl, hle', hdrop'⟩ := decodeLoop_sound hp hle hloop
        refine ⟨record :: records, by rw [List.length_cons, hlen], ?_, rfl, ?_, hle', ?_⟩
        · exact List.forall_mem_cons.2 ⟨hr, hfits⟩
        · rw [List.map_cons, List.flatten_cons, List.length_append]
          omega
        · rw [hdrop, hdrop', List.map_cons, List.flatten_cons, List.append_assoc]

/-! ## Accepted files -/

theorem readHeader_inv {data : Bytes} {entryCount offset : Nat}
    (h : readHeader data = .ok (entryCount, offset)) :
    24 ≤ data.length ∧ data.take kMagicLength = kMagic ∧
      (∃ o, readLE data (data.length - 8) 8 =
        some ((checksumOf (data.take (data.length - 8))).toNat, o)) ∧
      readLE data 6 2 = some (kFormatVersion, 8) ∧
      readLE data 8 8 = some (entryCount, 16) ∧ offset = 16 := by
  unfold readHeader at h
  split at h
  · cases h
  rename_i hshort
  split at h
  · cases h
  rename_i hmagic
  dsimp only at h
  split at h
  · cases h
  rename_i sum o hsum
  split at h
  · cases h
  rename_i heq
  split at h
  · cases h
  rename_i version o' hversion
  split at h
  · cases h
  rename_i hv
  obtain ⟨rfl, -⟩ := readLE_sound hversion
  split at h
  · cases h
  rename_i header hcount
  cases h
  obtain ⟨rfl, -⟩ := readLE_sound hcount
  refine ⟨Nat.le_of_not_lt hshort, Decidable.not_not.1 hmagic, ⟨o, ?_⟩, ?_, hcount, rfl⟩
  · rw [Decidable.not_not.1 heq] at hsum
    exact hsum
  · rw [Decidable.not_not.1 hv] at hversion
    exact hversion

theorem finish_inv {data : Bytes} {r : Except Bytes (List Entry × Nat)} {entries : List Entry}
    (h : finish data r = .ok entries) : r = .ok (entries, data.length - kChecksumLength) := by
  cases r with
  | error e => cases h
  | ok r =>
    obtain ⟨es, last⟩ := r
    unfold finish at h
    dsimp only at h
    split at h
    · cases h
    next hend =>
      rw [← Except.ok.inj h, Decidable.not_not.1 hend]

theorem decode_inv {data : Bytes} {now : Int} {readings : Nat → Reading} {entries : List Entry}
    (h : decode data now readings = .ok entries) :
    24 ≤ data.length ∧ data.take kMagicLength = kMagic ∧
      (∃ o, readLE data (data.length - 8) 8 =
        some ((checksumOf (data.take (data.length - 8))).toNat, o)) ∧
      ∃ entryCount, readLE data 6 2 = some (kFormatVersion, 8) ∧
        readLE data 8 8 = some (entryCount, 16) ∧
        decodeLoop data (data.length - 8) now readings entryCount 0 16 =
          .ok (entries, data.length - 8) := by
  unfold decode at h
  cases hheader : readHeader data with
  | error e => rw [hheader] at h; cases h
  | ok header =>
    obtain ⟨entryCount, offset⟩ := header
    obtain ⟨hlen, hmagic, hsum, hversion, hcount, rfl⟩ := readHeader_inv hheader
    rw [hheader] at h
    exact ⟨hlen, hmagic, hsum, entryCount, hversion, hcount, finish_inv h⟩

/-- **Only well-formed files are accepted.** -/
theorem decode_sound {data : Bytes} {now : Int} {readings : Nat → Reading} {entries : List Entry}
    (h : decode data now readings = .ok entries) :
    ∃ records : List Record, (∀ r ∈ records, r.Fits) ∧ records.length < 2 ^ 64 ∧
      data = fileOf records ∧ entries = loadFrom now readings 0 records := by
  obtain ⟨hlen, hmagic, ⟨o, hsum⟩, entryCount, hversion, hcount, hloop⟩ := decode_inv h
  obtain ⟨-, -, -, hv⟩ := readLE_sound hversion
  obtain ⟨-, -, hlt, hc⟩ := readLE_sound hcount
  obtain ⟨rfl, -, -, hs⟩ := readLE_sound hsum
  obtain ⟨records, rfl, hfits, rfl, hend, -, hr⟩ :=
    decodeLoop_sound (by omega) (by omega) hloop
  refine ⟨records, hfits, by omega, ?_, rfl⟩
  have hpayload : data.take (data.length - 8) ++ data.drop (data.length - 8) =
      payload records ++ data.drop (data.length - 8) := by
    rw [List.take_append_drop, payload]
    simp only [List.append_assoc]
    rw [← hr, ← hc, ← hv, ← hmagic]
    exact (List.take_append_drop kMagicLength data).symm
  have htake := List.append_cancel_right hpayload
  rw [htake] at hs
  rw [fileOf, ← List.take_append_drop (data.length - 8) data, htake, hs, List.drop_of_length_le,
    List.append_nil]
  omega

/-- The format: the file of records that fit, no more than the count can say. -/
structure IsFileOf (x : Bytes) (records : List Record) : Prop where
  fits : ∀ r ∈ records, r.Fits
  count : records.length < 2 ^ 64
  eq : x = fileOf records

theorem decode_ok_iff {x : Bytes} {now : Int} {readings : Nat → Reading} {entries : List Entry} :
    decode x now readings = .ok entries ↔
      ∃ records, IsFileOf x records ∧ entries = loadFrom now readings 0 records := by
  constructor
  · intro h
    obtain ⟨records, hfits, hcount, hx, he⟩ := decode_sound h
    exact ⟨records, ⟨hfits, hcount, hx⟩, he⟩
  · rintro ⟨records, ⟨hfits, hcount, rfl⟩, rfl⟩
    exact decode_fileOf hfits hcount now readings

/-! ## The entries of a file -/

/-- The expiry of a record has passed: on the wall clock when it is converted, or on the
steady clock before that. -/
def lapsed (now : Int) (reading : Reading) (record : Record) : Bool :=
  record.rawExpiry ≠ 0 &&
    (decide (toInt64 record.rawExpiry * millisecond ≤ reading.wall) ||
      decide (reading.steady + (toInt64 record.rawExpiry * millisecond - reading.wall) ≤ now))

/-- The entry of a record that has not lapsed. -/
def entryOf (reading : Reading) (record : Record) : Entry where
  key := record.key
  value := record.value
  expiration :=
    if record.rawExpiry = 0 then none
    else some (reading.steady + (toInt64 record.rawExpiry * millisecond - reading.wall))

/-- The entries of the records from `i` on, less those that have lapsed. -/
def survivors (now : Int) (readings : Nat → Reading) : Nat → List Record → List Entry
  | _, [] => []
  | i, r :: rs =>
    if lapsed now (readings i) r then survivors now readings (i + 1) rs
    else entryOf (readings i) r :: survivors now readings (i + 1) rs

/-- On a steady clock that does not run back, the wall clock decides. -/
theorem lapsed_iff {now : Int} {reading : Reading} (h : now ≤ reading.steady) (r : Record) :
    lapsed now reading r = true ↔
      r.rawExpiry ≠ 0 ∧ toInt64 r.rawExpiry * millisecond ≤ reading.wall := by
  simp only [lapsed, Bool.and_eq_true, Bool.or_eq_true, decide_eq_true_eq]
  refine and_congr_right fun _ => ⟨?_, Or.inl⟩
  omega

theorem toInt64_eq_zero {n : Nat} (h : n < 2 ^ 64) : toInt64 n = 0 ↔ n = 0 := by
  unfold toInt64
  split <;> omega

theorem loadRecord_eq {now : Int} {reading : Reading} {r : Record} (hr : r.rawExpiry < 2 ^ 64) :
    loadRecord now reading r =
      if lapsed now reading r then none else some (entryOf reading r) := by
  obtain ⟨key, value, rawExpiry⟩ := r
  unfold loadRecord lapsed entryOf
  dsimp only
  by_cases h0 : rawExpiry = 0
  · subst h0; rfl
  · have hz : toInt64 rawExpiry ≠ 0 := fun h => h0 ((toInt64_eq_zero hr).1 h)
    rw [if_pos hz, if_neg h0]
    unfold fromWallClockMillis
    dsimp only
    by_cases hw : toInt64 rawExpiry * millisecond ≤ reading.wall
    · rw [if_pos (by omega)]; simp [h0, hw]
    · rw [if_neg (by omega), Option.map_some, Option.filter_some]
      by_cases hs : reading.steady + (toInt64 rawExpiry * millisecond - reading.wall) ≤ now
      · simp [Entry.isExpiredAt, h0, hs]
      · simp [Entry.isExpiredAt, h0, hw, hs]

theorem loadFrom_eq {now : Int} {readings : Nat → Reading} :
    ∀ {rs : List Record} (i : Nat), (∀ r ∈ rs, r.Fits) →
      loadFrom now readings i rs = survivors now readings i rs
  | [], _, _ => rfl
  | r :: rs, i, h => by
    rw [loadFrom, survivors, loadRecord_eq (h r List.mem_cons_self).rawExpiry,
      loadFrom_eq (i + 1) fun q hq => h q (List.mem_cons_of_mem _ hq)]
    split <;> rfl

/-! ### Files without expiries -/

theorem survivors_persistent {now : Int} {readings : Nat → Reading} :
    ∀ {rs : List Record} (i : Nat), (∀ r ∈ rs, r.rawExpiry = 0) →
      survivors now readings i rs = rs.map fun r => ⟨r.key, r.value, none⟩
  | [], _, _ => rfl
  | r :: rs, i, h => by
    have h0 := h r List.mem_cons_self
    rw [survivors, if_neg (by simp [lapsed, h0]), List.map_cons,
      survivors_persistent (i + 1) fun q hq => h q (List.mem_cons_of_mem _ hq), entryOf, if_pos h0]

theorem recordsOf_persistent {readings : Nat → Reading} :
    ∀ {rs : List Record} (i : Nat), (∀ r ∈ rs, r.rawExpiry = 0) →
      recordsOf readings i (rs.map fun r => ⟨r.key, r.value, none⟩) = rs
  | [], _, _ => rfl
  | r :: rs, i, h => by
    rw [List.map_cons, recordsOf,
      recordsOf_persistent (i + 1) fun q hq => h q (List.mem_cons_of_mem _ hq)]
    obtain ⟨key, value, rawExpiry⟩ := r
    cases h ⟨key, value, rawExpiry⟩ List.mem_cons_self
    rfl

theorem encode_persistent {rs : List Record} (h : ∀ r ∈ rs, r.rawExpiry = 0) (now : Int)
    (readings : Nat → Reading) :
    encode (rs.map fun r => ⟨r.key, r.value, none⟩) now readings = fileOf rs := by
  rw [encode_eq, unexpired, List.filter_eq_self.2, recordsOf_persistent 0 h]
  intro e he
  obtain ⟨r, -, rfl⟩ := List.mem_map.1 he
  rfl

/-! ## Records delimit themselves -/

/-- A record whose length fields hold its lengths. -/
structure Record.Sized (record : Record) : Prop where
  key : record.key.length < 2 ^ 32
  value : record.value.length < 2 ^ 32
  rawExpiry : record.rawExpiry < 2 ^ 64

theorem Record.Fits.sized {r : Record} (h : r.Fits) : r.Sized := by
  obtain ⟨hk, hv, hr⟩ := h
  unfold kMaxFieldLength at hk hv
  exact ⟨by omega, by omega, hr⟩

theorem split_append_inj {w m n : Nat} {t t' : Bytes} (hm : m < 256 ^ w) (hn : n < 256 ^ w)
    (h : LittleEndian.split w m ++ t = LittleEndian.split w n ++ t') : m = n ∧ t = t' := by
  obtain ⟨h1, h2⟩ := List.append_inj h
    (by rw [LittleEndian.length_split, LittleEndian.length_split])
  exact ⟨LittleEndian.split_inj hm hn h1, h2⟩

theorem fieldBytes_append_inj {f g t t' : Bytes} (hf : f.length < 2 ^ 32) (hg : g.length < 2 ^ 32)
    (h : fieldBytes f ++ t = fieldBytes g ++ t') : f = g ∧ t = t' := by
  unfold fieldBytes at h
  rw [List.append_assoc, List.append_assoc] at h
  obtain ⟨hlen, h⟩ := split_append_inj (by omega) (by omega) h
  exact List.append_inj h hlen

theorem recordBytes_append_inj {r r' : Record} {t t' : Bytes} (hr : r.Sized) (hr' : r'.Sized)
    (h : recordBytes r ++ t = recordBytes r' ++ t') : r = r' ∧ t = t' := by
  unfold recordBytes at h
  simp only [List.append_assoc] at h
  obtain ⟨hk, h⟩ := fieldBytes_append_inj hr.key hr'.key h
  obtain ⟨hv, h⟩ := fieldBytes_append_inj hr.value hr'.value h
  obtain ⟨he, ht⟩ := split_append_inj (by have := hr.rawExpiry; omega)
    (by have := hr'.rawExpiry; omega) h
  obtain ⟨key, value, rawExpiry⟩ := r
  cases hk; cases hv; cases he
  exact ⟨rfl, ht⟩

theorem records_append_inj : ∀ {rs rs' : List Record} {t t' : Bytes}, rs.length = rs'.length →
    (∀ r ∈ rs, r.Sized) → (∀ r ∈ rs', r.Sized) →
    (rs.map recordBytes).flatten ++ t = (rs'.map recordBytes).flatten ++ t' → rs = rs' ∧ t = t'
  | [], [], _, _, _, _, _, h => ⟨rfl, h⟩
  | r :: rs, r' :: rs', t, t', hlen, hs, hs', h => by
    simp only [List.map_cons, List.flatten_cons, List.append_assoc] at h
    obtain ⟨hr, htail⟩ := recordBytes_append_inj (hs r List.mem_cons_self)
      (hs' r' List.mem_cons_self) h
    obtain ⟨hrs, ht⟩ := records_append_inj (Nat.succ.inj hlen)
      (fun q hq => hs q (List.mem_cons_of_mem _ hq))
      (fun q hq => hs' q (List.mem_cons_of_mem _ hq)) htail
    exact ⟨by rw [hr, hrs], ht⟩

theorem payload_append_inj {rs rs' : List Record} {t t' : Bytes} (hc : rs.length < 2 ^ 64)
    (hc' : rs'.length < 2 ^ 64) (hs : ∀ r ∈ rs, r.Sized) (hs' : ∀ r ∈ rs', r.Sized)
    (h : payload rs ++ t = payload rs' ++ t') : rs = rs' ∧ t = t' := by
  unfold payload at h
  simp only [List.append_assoc] at h
  have h := List.append_cancel_left (List.append_cancel_left h)
  obtain ⟨hlen, h⟩ := split_append_inj (by omega) (by omega) h
  exact records_append_inj hlen hs hs' h

/-- A file has one reading. -/
theorem IsFileOf.unique {x : Bytes} {rs rs' : List Record} (h : IsFileOf x rs)
    (h' : IsFileOf x rs') : rs = rs' := by
  have heq := h.eq.symm.trans h'.eq
  exact (payload_append_inj h.count h'.count (fun r hr => (h.fits r hr).sized)
    (fun r hr => (h'.fits r hr).sized) heq).1

/-! ## Truncated and extended files -/

/-- The shape of a file but for the value of its checksum: any eight bytes may end it. -/
structure Framed (x : Bytes) (records : List Record) (stored : Bytes) : Prop where
  fits : ∀ r ∈ records, r.Fits
  count : records.length < 2 ^ 64
  width : stored.length = kChecksumLength
  eq : x = payload records ++ stored

theorem IsFileOf.framed {x : Bytes} {records : List Record} (h : IsFileOf x records) :
    Framed x records (LittleEndian.split 8 (checksumOf (payload records)).toNat) :=
  ⟨h.fits, h.count, LittleEndian.length_split _ _, h.eq⟩

theorem Framed.append_eq_nil {x z c c' : Bytes} {rs rs' : List Record} (h : Framed x rs c)
    (h' : Framed (x ++ z) rs' c') : z = [] := by
  have heq : payload rs ++ (c ++ z) = payload rs' ++ c' := by
    rw [← List.append_assoc, ← h.eq, h'.eq]
  obtain ⟨-, ht⟩ := payload_append_inj h.count h'.count (fun r hr => (h.fits r hr).sized)
    (fun r hr => (h'.fits r hr).sized) heq
  have hlen := congrArg List.length ht
  rw [List.length_append, h.width, h'.width] at hlen
  exact List.eq_nil_of_length_eq_zero (by omega)

theorem decode_framed {x : Bytes} {now : Int} {readings : Nat → Reading} {entries : List Entry}
    (h : decode x now readings = .ok entries) : ∃ records stored, Framed x records stored := by
  obtain ⟨records, hx, -⟩ := decode_ok_iff.1 h
  exact ⟨records, _, hx.framed⟩

theorem decode_rejects {x : Bytes} (h : ∀ records stored, ¬ Framed x records stored) (now : Int)
    (readings : Nat → Reading) : ∃ e, decode x now readings = .error e := by
  cases hd : decode x now readings with
  | error e => exact ⟨e, rfl⟩
  | ok entries =>
    obtain ⟨records, stored, hx⟩ := decode_framed hd
    exact absurd hx (h records stored)

/-- **Truncated and extended files are rejected**, whatever their last bytes: with some bytes
taken off or put on, an accepted file has lost its shape. -/
theorem accepted_prefix_free (x : Bytes) (now : Int) (readings : Nat → Reading)
    (entries : List Entry) (h : decode x now readings = .ok entries) :
    (∀ y z, x = y ++ z → z ≠ [] →
      (∀ now' readings', ∃ e, decode y now' readings' = .error e) ∧
        ∀ records stored, ¬ Framed y records stored) ∧
    ∀ z, z ≠ [] →
      (∀ now' readings', ∃ e, decode (x ++ z) now' readings' = .error e) ∧
        ∀ records stored, ¬ Framed (x ++ z) records stored := by
  obtain ⟨records, stored, hx⟩ := decode_framed h
  constructor
  · intro y z hy hz
    have hn : ∀ rs c, ¬ Framed y rs c := fun rs c hf => hz (hf.append_eq_nil (hy ▸ hx))
    exact ⟨decode_rejects hn, hn⟩
  · intro z hz
    have hn : ∀ rs c, ¬ Framed (x ++ z) rs c := fun rs c hf => hz (hx.append_eq_nil hf)
    exact ⟨decode_rejects hn, hn⟩

/-- A key that stays, and one with an empty value that expires at some time. -/
def twoRecords : List Record := [⟨[107], [118], 0⟩, ⟨[10], [], 1700000000000⟩]

theorem decode_twoRecords (now : Int) (readings : Nat → Reading) :
    decode (fileOf twoRecords) now readings = .ok (loadFrom now readings 0 twoRecords) := by
  refine decode_fileOf (fun r hr => ?_) (by decide) now readings
  simp only [twoRecords, List.mem_cons, List.not_mem_nil, or_false] at hr
  rcases hr with rfl | rfl <;> exact ⟨by decide, by decide, by decide⟩

/-- The file of two records, cut in the second one and doubled. -/
theorem accepted_prefix_free_records :
    ∃ e e', decode ((fileOf twoRecords).take 40) 3 (fun _ => ⟨3, 4⟩) = .error e ∧
      decode (fileOf twoRecords ++ fileOf twoRecords) 3 (fun _ => ⟨3, 4⟩) = .error e' := by
  have h := accepted_prefix_free (fileOf twoRecords) 0 (fun _ => ⟨0, 0⟩) _ (decode_twoRecords ..)
  obtain ⟨e, he⟩ := (h.1 _ _ (List.take_append_drop 40 (fileOf twoRecords)).symm
    (by decide +kernel)).1 3 fun _ => ⟨3, 4⟩
  obtain ⟨e', he'⟩ := (h.2 (fileOf twoRecords) (by decide +kernel)).1 3 fun _ => ⟨3, 4⟩
  exact ⟨e, e', he, he'⟩

end Snapshot

end VCache
