import VCache.Snapshot.Accepted

/-!
# The decoder on 64-bit words

`snapshot::decode` with the types of `Persistence.cpp`: offsets, lengths and the count are
64-bit words, and the entry loop counts up to whatever the file claims. A read outside the
data is a fault, and so are a sum of lengths that wraps and an entry loop that outlasts its
fuel. For data of any size a string can have there is no fault, and the result is that of
`decode`.
-/

namespace VCache

open VCache.Lib

namespace Snapshot

namespace Words

def size (data : Bytes) : UInt64 := UInt64.ofNat data.length

/-- `none` when the byte lies outside the data. -/
def byteAt (data : Bytes) (i : UInt64) : Option UInt8 := data[i.toNat]?

/-- `none` when some of the bytes lie outside the data. -/
def bytesAt (data : Bytes) (offset length : UInt64) : Option Bytes :=
  if offset.toNat + length.toNat ≤ data.length then
    some ((data.drop offset.toNat).take length.toNat)
  else none

/-- `none` when the sum wraps. -/
def plus (a b : UInt64) : Option UInt64 :=
  if a.toNat + b.toNat < 2 ^ 64 then some (a + b) else none

def checksumLoop (data : Bytes) : Nat → UInt64 → UInt64 → Option UInt64
  | 0, _, hash => some hash
  | n + 1, i, hash =>
    match byteAt data i with
    | none => none
    | some byte => checksumLoop data n (i + 1) ((hash ^^^ byte.toUInt64) * 0x100000001b3)

def checksumOf (data : Bytes) (length : UInt64) : Option UInt64 :=
  checksumLoop data length.toNat 0 0xcbf29ce484222325

/-- The loop of `readLE`, `n` bytes before its end. -/
def readLoop (data : Bytes) (offset : UInt64) : Nat → UInt64 → UInt64 → Option UInt64
  | 0, _, value => some value
  | n + 1, i, value =>
    match byteAt data (offset + i) with
    | none => none
    | some byte => readLoop data offset n (i + 1) (value ||| (byte.toUInt64 <<< (8 * i)))

/-- `some none` when the data is truncated. -/
def readLE (data : Bytes) (offset byteCount : UInt64) : Option (Option (UInt64 × UInt64)) :=
  match plus offset byteCount with
  | none => none
  | some past =>
    if past > size data then some none
    else
      match readLoop data offset byteCount.toNat 0 0 with
      | none => none
      | some value => some (some (value, past))

def readField (data : Bytes) (payloadLength offset i : UInt64) (invalid : String) :
    Option (Except Bytes (Bytes × UInt64)) :=
  match readLE data offset 4 with
  | none => none
  | some none => some (.error (entryError i.toNat invalid))
  | some (some (length, offset)) =>
    if length > UInt64.ofNat kMaxFieldLength then some (.error (entryError i.toNat invalid))
    else
      match plus offset length with
      | none => none
      | some past =>
        if past > payloadLength then some (.error (entryError i.toNat " is truncated"))
        else
          match bytesAt data offset length with
          | none => none
          | some field => some (.ok (field, past))

def readRecord (data : Bytes) (payloadLength offset i : UInt64) :
    Option (Except Bytes (Record × UInt64)) :=
  match readField data payloadLength offset i " has an invalid key length" with
  | none => none
  | some (.error e) => some (.error e)
  | some (.ok (key, offset)) =>
    match readField data payloadLength offset i " has an invalid value length" with
    | none => none
    | some (.error e) => some (.error e)
    | some (.ok (value, offset)) =>
      match readLE data offset 8 with
      | none => none
      | some none => some (.error (entryError i.toNat " is missing its expiry"))
      | some (some (rawExpiry, offset)) => some (.ok (⟨key, value, rawExpiry.toNat⟩, offset))

/-- The entry loop from entry `i` on; the first argument is its fuel. -/
def decodeLoop (data : Bytes) (payloadLength : UInt64) (now : Int) (readings : Nat → Reading)
    (entryCount : UInt64) : Nat → UInt64 → UInt64 → Option (Except Bytes (List Entry × UInt64))
  | 0, _, _ => none
  | fuel + 1, i, offset =>
    if i < entryCount then
      match readRecord data payloadLength offset i with
      | none => none
      | some (.error e) => some (.error e)
      | some (.ok (record, offset)) =>
        match decodeLoop data payloadLength now readings entryCount fuel (i + 1) offset with
        | none => none
        | some (.error e) => some (.error e)
        | some (.ok (entries, offset)) =>
          some (.ok ((loadRecord now (readings i.toNat) record).toList ++ entries, offset))
    else some (.ok ([], offset))

def decode (fuel : Nat) (data : Bytes) (now : Int) (readings : Nat → Reading) :
    Option (Except Bytes (List Entry)) :=
  if size data < UInt64.ofNat (kHeaderLength + kChecksumLength) then
    some (.error (bytes "snapshot is too short to be valid"))
  else
    match bytesAt data 0 (UInt64.ofNat kMagicLength) with
    | none => none
    | some magic =>
      if magic ≠ kMagic then
        some (.error (bytes "snapshot has the wrong magic bytes -- not a VCache snapshot"))
      else
        let payloadLength := size data - UInt64.ofNat kChecksumLength
        match readLE data payloadLength 8 with
        | none => none
        | some none => some (.error (bytes "snapshot is missing its checksum"))
        | some (some (storedChecksum, _)) =>
          match checksumOf data payloadLength with
          | none => none
          | some checksum =>
            if storedChecksum ≠ checksum then
              some (.error (bytes "snapshot checksum mismatch -- the file is corrupt"))
            else
              match readLE data (UInt64.ofNat kMagicLength) 2 with
              | none => none
              | some none => some (.error (bytes "snapshot is truncated in its header"))
              | some (some (version, offset)) =>
                if version ≠ UInt64.ofNat kFormatVersion then
                  some (.error (bytes "snapshot format version " ++ decimal version.toNat ++
                    bytes " is not supported (expected " ++ decimal kFormatVersion ++ bytes ")"))
                else
                  match readLE data offset 8 with
                  | none => none
                  | some none => some (.error (bytes "snapshot is truncated in its header"))
                  | some (some (entryCount, offset)) =>
                    match decodeLoop data payloadLength now readings entryCount fuel 0 offset with
                    | none => none
                    | some (.error e) => some (.error e)
                    | some (.ok (entries, offset)) =>
                      if offset ≠ payloadLength then
                        some (.error (bytes "snapshot has trailing bytes after the last entry"))
                      else some (.ok entries)

/-! ## Words as numbers -/

theorem toNat_ofNat {n : Nat} (h : n < 2 ^ 64) : (UInt64.ofNat n).toNat = n :=
  UInt64.toNat_ofNat_of_lt' h

theorem ofNat_lt_iff {a b : Nat} (ha : a < 2 ^ 64) (hb : b < 2 ^ 64) :
    UInt64.ofNat a < UInt64.ofNat b ↔ a < b := by
  rw [UInt64.lt_iff_toNat_lt, toNat_ofNat ha, toNat_ofNat hb]

theorem ofNat_eq_word_iff {a : Nat} {w : UInt64} (ha : a < 2 ^ 64) :
    UInt64.ofNat a = w ↔ a = w.toNat := by
  rw [← UInt64.toNat_inj, toNat_ofNat ha]

theorem ofNat_eq_iff {a b : Nat} (ha : a < 2 ^ 64) (hb : b < 2 ^ 64) :
    UInt64.ofNat a = UInt64.ofNat b ↔ a = b := by
  rw [ofNat_eq_word_iff ha, toNat_ofNat hb]

theorem ofNat_succ (i : Nat) : UInt64.ofNat i + 1 = UInt64.ofNat (i + 1) :=
  (UInt64.ofNat_add i 1).symm

theorem plus_ofNat {a b : Nat} (h : a + b < 2 ^ 64) :
    plus (UInt64.ofNat a) (UInt64.ofNat b) = some (UInt64.ofNat (a + b)) := by
  unfold plus
  rw [toNat_ofNat (by omega), toNat_ofNat (by omega), if_pos h, UInt64.ofNat_add]

theorem toNat_or_shift (v : UInt64) (b : UInt8) {i : Nat} (hi : i < 8) :
    (v ||| (b.toUInt64 <<< (8 * UInt64.ofNat i))).toNat = v.toNat ||| (b.toNat <<< (8 * i)) := by
  have h8 : (8 * UInt64.ofNat i).toNat = 8 * i := by
    rw [UInt64.toNat_mul, toNat_ofNat (by omega)]
    exact Nat.mod_eq_of_lt (by show 8 * i < _; omega)
  have hb : b.toNat <<< (8 * i) < 2 ^ 64 := by
    rw [Nat.shiftLeft_eq]
    calc b.toNat * 2 ^ (8 * i) < 2 ^ 8 * 2 ^ (8 * i) :=
          Nat.mul_lt_mul_of_pos_right b.toNat_lt (Nat.two_pow_pos _)
      _ = 2 ^ (8 + 8 * i) := (Nat.pow_add 2 8 (8 * i)).symm
      _ ≤ 2 ^ 64 := Nat.pow_le_pow_right (by omega) (by omega)
  rw [UInt64.toNat_or, UInt64.toNat_shiftLeft, h8, Nat.mod_eq_of_lt (show 8 * i < 64 by omega),
    UInt8.toNat_toUInt64, Nat.mod_eq_of_lt hb]

theorem byteAt_ofNat {data : Bytes} {i : Nat} (hi : i < data.length) (hd : data.length < 2 ^ 64) :
    ∃ b, byteAt data (UInt64.ofNat i) = some b ∧ data.drop i = b :: data.drop (i + 1) := by
  refine ⟨data[i], ?_, List.drop_eq_getElem_cons hi⟩
  unfold byteAt
  rw [toNat_ofNat (by omega), List.getElem?_eq_getElem hi]

theorem bytesAt_ofNat {data : Bytes} {offset length : Nat} (h : offset + length ≤ data.length)
    (hd : data.length < 2 ^ 64) :
    bytesAt data (UInt64.ofNat offset) (UInt64.ofNat length) =
      some ((data.drop offset).take length) := by
  unfold bytesAt
  rw [toNat_ofNat (by omega), toNat_ofNat (by omega), if_pos h]

/-! ## Simulation -/

section

variable {data : Bytes} (hd : data.length < 2 ^ 63)
include hd

theorem readLoop_ofNat {offset : Nat} : ∀ (n i : Nat) (v : UInt64), i + n ≤ 8 →
    offset + i + n ≤ data.length →
    readLoop data (UInt64.ofNat offset) n (UInt64.ofNat i) v =
      some (UInt64.ofNat (LittleEndian.combineFrom i v.toNat ((data.drop (offset + i)).take n)))
  | 0, i, v, _, _ => by
    rw [readLoop, List.take_zero, LittleEndian.combineFrom, UInt64.ofNat_toNat]
  | n + 1, i, v, hi, ho => by
    obtain ⟨b, hb, hdrop⟩ := byteAt_ofNat (show offset + i < data.length by omega) (by omega)
    rw [readLoop, ← UInt64.ofNat_add, hb]
    dsimp only
    rw [ofNat_succ, readLoop_ofNat n (i + 1) _ (by omega) (by omega), hdrop, List.take_succ_cons,
      LittleEndian.combineFrom, toNat_or_shift v b (by omega), Nat.add_assoc]

theorem checksumLoop_ofNat : ∀ (n i : Nat) (hash : UInt64), i + n ≤ data.length →
    checksumLoop data n (UInt64.ofNat i) hash =
      some (((data.drop i).take n).foldl
        (fun hash byte => (hash ^^^ byte.toUInt64) * 0x100000001b3) hash)
  | 0, i, hash, _ => by rw [checksumLoop, List.take_zero, List.foldl_nil]
  | n + 1, i, hash, hi => by
    obtain ⟨b, hb, hdrop⟩ := byteAt_ofNat (show i < data.length by omega) (by omega)
    rw [checksumLoop, hb]
    dsimp only
    rw [ofNat_succ, checksumLoop_ofNat n (i + 1) _ (by omega), hdrop, List.take_succ_cons,
      List.foldl_cons]

theorem checksumOf_ofNat {length : Nat} (h : length ≤ data.length) :
    checksumOf data (UInt64.ofNat length) = some (Snapshot.checksumOf (data.take length)) := by
  unfold checksumOf
  rw [toNat_ofNat (by omega)]
  exact checksumLoop_ofNat hd length 0 _ (by omega)

theorem readLE_ofNat {offset w : Nat} (hw : w ≤ 8) (ho : offset ≤ data.length) :
    readLE data (UInt64.ofNat offset) (UInt64.ofNat w) =
      some ((Snapshot.readLE data offset w).map fun r =>
        (UInt64.ofNat r.1, UInt64.ofNat r.2)) := by
  unfold readLE Snapshot.readLE size
  rw [plus_ofNat (by omega)]
  dsimp only
  by_cases h : offset + w > data.length
  · rw [if_pos ((ofNat_lt_iff (by omega) (by omega)).2 h), if_pos h]; rfl
  · rw [if_neg (fun hlt => h ((ofNat_lt_iff (by omega) (by omega)).1 hlt)), if_neg h,
      toNat_ofNat (by omega)]
    rw [show (0 : UInt64) = UInt64.ofNat 0 from rfl,
      readLoop_ofNat hd w 0 _ (by omega) (by omega)]
    rfl

theorem readField_ofNat {payloadLength offset i : Nat} {invalid : String}
    (hp : payloadLength ≤ data.length) (ho : offset ≤ data.length) (hi : i < 2 ^ 64) :
    readField data (UInt64.ofNat payloadLength) (UInt64.ofNat offset) (UInt64.ofNat i) invalid =
      some ((Snapshot.readField data payloadLength offset i invalid).map fun r =>
        (r.1, UInt64.ofNat r.2)) := by
  unfold readField Snapshot.readField
  rw [show (4 : UInt64) = UInt64.ofNat 4 from rfl, readLE_ofNat hd (by omega) ho, toNat_ofNat hi]
  cases hread : Snapshot.readLE data offset 4 with
  | none => rfl
  | some r =>
    obtain ⟨length, o⟩ := r
    obtain ⟨rfl, ho', hlt, -⟩ := readLE_sound hread
    simp only [Option.map_some]
    rw [if_congr (ofNat_lt_iff (by decide) (by omega)) rfl rfl, plus_ofNat (by omega)]
    dsimp only
    by_cases hmax : length > kMaxFieldLength
    · rw [if_pos hmax, if_pos hmax]; rfl
    · rw [if_neg hmax, if_neg hmax, if_congr (ofNat_lt_iff (by omega) (by omega)) rfl rfl]
      by_cases hpay : offset + 4 + length > payloadLength
      · rw [if_pos hpay, if_pos hpay]; rfl
      · rw [if_neg hpay, if_neg hpay, bytesAt_ofNat (by omega) (by omega)]; rfl

theorem readRecord_ofNat {payloadLength offset i : Nat} (hp : payloadLength ≤ data.length)
    (ho : offset ≤ data.length) (hi : i < 2 ^ 64) :
    readRecord data (UInt64.ofNat payloadLength) (UInt64.ofNat offset) (UInt64.ofNat i) =
      some ((Snapshot.readRecord data payloadLength offset i).map fun r =>
        (r.1, UInt64.ofNat r.2)) := by
  unfold readRecord Snapshot.readRecord
  rw [readField_ofNat hd hp ho hi]
  cases hkey : Snapshot.readField data payloadLength offset i " has an invalid key length" with
  | error e => rfl
  | ok r =>
    obtain ⟨key, o⟩ := r
    obtain ⟨-, -, ho, -⟩ := readField_sound hp hkey
    simp only [Except.map]
    rw [readField_ofNat hd hp ho hi]
    cases hvalue : Snapshot.readField data payloadLength o i " has an invalid value length" with
    | error e => rfl
    | ok r =>
      obtain ⟨value, o'⟩ := r
      obtain ⟨-, -, ho, -⟩ := readField_sound hp hvalue
      simp only [Except.map]
      rw [show (8 : UInt64) = UInt64.ofNat 8 from rfl, readLE_ofNat hd (by omega) ho]
      cases hread : Snapshot.readLE data o' 8 with
      | none => simp only [Option.map_none]; rw [toNat_ofNat hi]
      | some r =>
        obtain ⟨rawExpiry, o''⟩ := r
        obtain ⟨-, -, hlt, -⟩ := readLE_sound hread
        simp only [Option.map_some]
        rw [toNat_ofNat (by omega)]

theorem decodeLoop_ofNat {payloadLength total : Nat} {now : Int} {readings : Nat → Reading}
    (hp : payloadLength ≤ data.length) (ht : total < 2 ^ 64) :
    ∀ (fuel entryCount i offset : Nat), i + entryCount = total → offset ≤ data.length →
      data.length - offset < fuel →
      decodeLoop data (UInt64.ofNat payloadLength) now readings (UInt64.ofNat total) fuel
          (UInt64.ofNat i) (UInt64.ofNat offset) =
        some ((Snapshot.decodeLoop data payloadLength now readings entryCount i offset).map
          fun r => (r.1, UInt64.ofNat r.2))
  | 0, _, _, _, _, _, hf => absurd hf (Nat.not_lt_zero _)
  | fuel + 1, 0, i, offset, hi, ho, hf => by
    rw [decodeLoop, if_neg, Snapshot.decodeLoop]
    · rfl
    · rw [ofNat_lt_iff (by omega) ht]; omega
  | fuel + 1, entryCount + 1, i, offset, hi, ho, hf => by
    rw [decodeLoop, if_pos ((ofNat_lt_iff (by omega) ht).2 (by omega)), Snapshot.decodeLoop,
      readRecord_ofNat hd hp ho (by omega), toNat_ofNat (by omega)]
    cases hread : Snapshot.readRecord data payloadLength offset i with
    | error e => rfl
    | ok r =>
      obtain ⟨record, o⟩ := r
      obtain ⟨-, ho', hle, -⟩ := readRecord_sound hp hread
      have hmove : offset < o := by
        simp only [recordBytes, List.length_append, LittleEndian.length_split] at ho'
        omega
      simp only [Except.map]
      rw [ofNat_succ,
        decodeLoop_ofNat hp ht fuel entryCount (i + 1) o (by omega) hle (by omega)]
      cases Snapshot.decodeLoop data payloadLength now readings entryCount (i + 1) o with
      | error e => rfl
      | ok r => rfl

/-- **No fault**: no read outside the data, no sum that wraps, no endless entry loop. -/
theorem decode_eq (now : Int) (readings : Nat → Reading) {fuel : Nat} (hf : data.length < fuel) :
    decode fuel data now readings = some (Snapshot.decode data now readings) := by
  unfold decode Snapshot.decode readHeader finish size
  rw [if_congr (ofNat_lt_iff (by omega) (by decide)) rfl rfl]
  by_cases hshort : data.length < kHeaderLength + kChecksumLength
  · rw [if_pos hshort, if_pos hshort]
  have hlen : 24 ≤ data.length := Nat.le_of_not_lt hshort
  have hm : kMagicLength = 6 := rfl
  have hc : kChecksumLength = 8 := rfl
  rw [if_neg hshort, if_neg hshort, show (0 : UInt64) = UInt64.ofNat 0 from rfl,
    bytesAt_ofNat (by omega) (by omega), List.drop_zero]
  dsimp only
  by_cases hmagic : data.take kMagicLength ≠ kMagic
  · rw [if_pos hmagic, if_pos hmagic]
  have hpayload : UInt64.ofNat data.length - UInt64.ofNat kChecksumLength =
      UInt64.ofNat (data.length - kChecksumLength) := (UInt64.ofNat_sub (by omega)).symm
  rw [if_neg hmagic, if_neg hmagic, hpayload, show (8 : UInt64) = UInt64.ofNat 8 from rfl,
    readLE_ofNat hd (by omega) (by omega), checksumOf_ofNat hd (by omega)]
  rcases hsum : Snapshot.readLE data (data.length - kChecksumLength) 8 with _ | ⟨stored, o⟩
  · rfl
  obtain ⟨-, -, hlt, -⟩ := readLE_sound hsum
  simp only [Option.map_some]
  rw [if_congr (not_congr (show UInt64.ofNat stored =
      Snapshot.checksumOf (data.take (data.length - kChecksumLength)) ↔ _ from
    ofNat_eq_word_iff (by omega))) rfl rfl]
  split
  · rfl
  rw [show (2 : UInt64) = UInt64.ofNat 2 from rfl, readLE_ofNat hd (by omega) (by omega)]
  rcases hversion : Snapshot.readLE data kMagicLength 2 with _ | ⟨version, o⟩
  · rfl
  obtain ⟨rfl, ho, hlt, -⟩ := readLE_sound hversion
  simp only [Option.map_some]
  rw [if_congr (not_congr (ofNat_eq_iff (by omega) (by decide))) rfl rfl, toNat_ofNat (by omega)]
  split
  · rfl
  rw [readLE_ofNat hd (by omega) ho]
  rcases hcount : Snapshot.readLE data (kMagicLength + 2) 8 with _ | ⟨entryCount, o⟩
  · rfl
  obtain ⟨rfl, ho, hlt, -⟩ := readLE_sound hcount
  simp only [Option.map_some]
  rw [decodeLoop_ofNat hd (by omega) (by omega) fuel entryCount 0 _ (by omega) ho (by omega)]
  rcases hloop : Snapshot.decodeLoop data (data.length - kChecksumLength) now readings entryCount 0
      (kMagicLength + 2 + 8) with e | ⟨entries, o⟩
  · rfl
  obtain ⟨-, -, -, -, -, ho', -⟩ := decodeLoop_sound (by omega) ho hloop
  simp only [Except.map]
  rw [if_congr (not_congr (ofNat_eq_iff (by omega) (by omega))) rfl rfl]
  split <;> rfl

end

end Words

/-- **The decoder accepts exactly the format**, and its entries are those of the file in
order, less the lapsed ones. On words it runs to the end without a fault. A file without
expiries is what its entries are encoded as. -/
theorem decode_exact (x : Bytes) (now : Int) (readings : Nat → Reading) :
    (∀ entries, decode x now readings = .ok entries ↔
      ∃ records, IsFileOf x records ∧ entries = survivors now readings 0 records) ∧
    (∀ i r, now ≤ (readings i).steady → (lapsed now (readings i) r = true ↔
      r.rawExpiry ≠ 0 ∧ toInt64 r.rawExpiry * millisecond ≤ (readings i).wall)) ∧
    (x.length < 2 ^ 63 → ∀ fuel, x.length < fuel →
      Words.decode fuel x now readings = some (decode x now readings)) ∧
    ∀ entries records, decode x now readings = .ok entries → IsFileOf x records →
      (∀ r ∈ records, r.rawExpiry = 0) →
      ∀ now' readings', encode entries now' readings' = x := by
  have hiff : ∀ entries, decode x now readings = .ok entries ↔
      ∃ records, IsFileOf x records ∧ entries = survivors now readings 0 records := by
    intro entries
    rw [decode_ok_iff]
    refine exists_congr fun records => and_congr_right fun hx => ?_
    rw [loadFrom_eq 0 hx.fits]
  refine ⟨hiff, fun i r h => lapsed_iff h r, fun hd fuel hf => Words.decode_eq hd now readings hf,
    fun entries records h hx h0 now' readings' => ?_⟩
  obtain ⟨records', hx', rfl⟩ := (hiff entries).1 h
  rw [hx'.unique hx, survivors_persistent 0 h0, encode_persistent h0, hx.eq]

/-- A file of one record. -/
theorem decode_exact_oneRecord :
    Words.decode 100 (fileOf [⟨[107], [118], 0⟩]) 2 (fun _ => ⟨3, 4⟩) =
        some (decode (fileOf [⟨[107], [118], 0⟩]) 2 fun _ => ⟨3, 4⟩) ∧
      (lapsed 2 ⟨3, 4⟩ ⟨[107], [118], 0⟩ = true ↔ False) ∧
      encode [⟨[107], [118], none⟩] 5 (fun _ => ⟨6, 7⟩) = fileOf [⟨[107], [118], 0⟩] := by
  have hfile : IsFileOf (fileOf [⟨[107], [118], 0⟩]) [⟨[107], [118], 0⟩] :=
    ⟨fun r hr => by rw [List.mem_singleton.1 hr]; exact ⟨by decide, by decide, by decide⟩,
      by decide, rfl⟩
  obtain ⟨-, hlapsed, hwords, hencode⟩ :=
    decode_exact (fileOf [⟨[107], [118], 0⟩]) 2 fun _ => ⟨3, 4⟩
  refine ⟨hwords (by decide) 100 (by decide), ?_, ?_⟩
  · rw [hlapsed 0 ⟨[107], [118], 0⟩ (by decide)]; simp
  · exact hencode _ _ (decode_fileOf hfile.fits hfile.count _ _) hfile
      (fun r hr => by rw [List.mem_singleton.1 hr]) 5 _

end Snapshot

end VCache
