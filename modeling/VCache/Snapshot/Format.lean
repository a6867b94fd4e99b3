import VCache.Basic
import VCache.Lib.Decimal
import VCache.Lib.LittleEndian

/-!
# The snapshot format

`snapshot::encode` and `snapshot::decode` of `Persistence.cpp`. Offsets and lengths are
natural numbers. A 64-bit word is a number below `2^64`.

Both clocks are taken to tick in nanoseconds. Each conversion between them reads both;
`readings i` are the two readings taken for entry `i`.
-/

namespace VCache

open VCache.Lib

namespace Snapshot

def kMagic : Bytes := bytes "VCACHE"

def kMagicLength : Nat := kMagic.length

def kFormatVersion : Nat := 1

def kMaxFieldLength : Nat := 512 * 1024 * 1024

def kHeaderLength : Nat := kMagicLength + 2 + 8

def kChecksumLength : Nat := 8

/-- FNV-1a. -/
def checksumOf (data : Bytes) : UInt64 :=
  data.foldl (fun hash byte => (hash ^^^ byte.toUInt64) * 0x100000001b3) 0xcbf29ce484222325

def appendLE (out : Bytes) (value byteCount : Nat) : Bytes :=
  out ++ LittleEndian.split byteCount value

def readLE (data : Bytes) (offset byteCount : Nat) : Option (Nat × Nat) :=
  if offset + byteCount > data.length then none
  else some (LittleEndian.combine ((data.drop offset).take byteCount), offset + byteCount)

/-- `static_cast<std::uint64_t>` of a signed number. -/
def toUInt64 (n : Int) : Nat := (n % 2 ^ 64).toNat

/-- `static_cast<std::int64_t>` of a 64-bit word. -/
def toInt64 (n : Nat) : Int := if n < 2 ^ 63 then n else n - 2 ^ 64

/-! ### Clocks -/

/-- A reading of the steady clock and one of the wall clock. -/
structure Reading where
  steady : Int
  wall : Int

def millisecond : Int := 1000000

def toWallClockMillis (now : Reading) (expiry : Int) : Int :=
  (now.wall + (expiry - now.steady)).tdiv millisecond

/-- `none` when the moment has passed. -/
def fromWallClockMillis (now : Reading) (millis : Int) : Option Int :=
  let remaining := millis * millisecond - now.wall
  if remaining ≤ 0 then none else some (now.steady + remaining)

/-! ### Encoding -/

/-- The expiry field of an entry: milliseconds since the epoch, `0` for none. -/
def expiresAt (now : Reading) (entry : Entry) : Int :=
  match entry.expiration with
  | some expiry => toWallClockMillis now expiry
  | none => 0

def encodeEntry (now : Reading) (out : Bytes) (entry : Entry) : Bytes :=
  let out := appendLE out entry.key.length 4
  let out := out ++ entry.key
  let out := appendLE out entry.value.length 4
  let out := out ++ entry.value
  appendLE out (toUInt64 (expiresAt now entry)) 8

def encodeLoop (readings : Nat → Reading) : Nat → Bytes → List Entry → Bytes
  | _, out, [] => out
  | i, out, entry :: live => encodeLoop readings (i + 1) (encodeEntry (readings i) out entry) live

def unexpired (entries : List Entry) (now : Int) : List Entry :=
  entries.filter fun entry => !entry.isExpiredAt now

def encode (entries : List Entry) (now : Int) (readings : Nat → Reading) : Bytes :=
  let out := appendLE kMagic kFormatVersion 2
  let live := unexpired entries now
  let out := appendLE out live.length 8
  let out := encodeLoop readings 0 out live
  appendLE out (checksumOf out).toNat 8

/-! ### Decoding -/

structure Record where
  key : Bytes
  value : Bytes
  rawExpiry : Nat

def entryError (i : Nat) (what : String) : Bytes :=
  bytes "snapshot entry " ++ decimal i ++ bytes what

def readField (data : Bytes) (payloadLength offset i : Nat) (invalid : String) :
    Except Bytes (Bytes × Nat) :=
  match readLE data offset 4 with
  | none => .error (entryError i invalid)
  | some (length, offset) =>
    if length > kMaxFieldLength then .error (entryError i invalid)
    else if offset + length > payloadLength then .error (entryError i " is truncated")
    else .ok ((data.drop offset).take length, offset + length)

def readRecord (data : Bytes) (payloadLength offset i : Nat) : Except Bytes (Record × Nat) :=
  match readField data payloadLength offset i " has an invalid key length" with
  | .error e => .error e
  | .ok (key, offset) =>
    match readField data payloadLength offset i " has an invalid value length" with
    | .error e => .error e
    | .ok (value, offset) =>
      match readLE data offset 8 with
      | none => .error (entryError i " is missing its expiry")
      | some (rawExpiry, offset) => .ok ({ key, value, rawExpiry }, offset)

/-- The entry a record stands for; `none` when it has expired. -/
def loadRecord (now : Int) (reading : Reading) (record : Record) : Option Entry :=
  let expiresAtMillis := toInt64 record.rawExpiry
  let entry : Option Entry :=
    if expiresAtMillis ≠ 0 then
      (fromWallClockMillis reading expiresAtMillis).map fun expiry =>
        { key := record.key, value := record.value, expiration := some expiry }
    else some { key := record.key, value := record.value }
  entry.filter fun entry => !entry.isExpiredAt now

/-- The entries and the offset after the last record. -/
def decodeLoop (data : Bytes) (payloadLength : Nat) (now : Int) (readings : Nat → Reading) :
    Nat → Nat → Nat → Except Bytes (List Entry × Nat)
  | 0, _, offset => .ok ([], offset)
  | entryCount + 1, i, offset =>
    match readRecord data payloadLength offset i with
    | .error e => .error e
    | .ok (record, offset) =>
      match decodeLoop data payloadLength now readings entryCount (i + 1) offset with
      | .error e => .error e
      | .ok (entries, offset) =>
        .ok ((loadRecord now (readings i) record).toList ++ entries, offset)

/-- The checks in front of the loop: the entry count, and the offset of the first record. -/
def readHeader (data : Bytes) : Except Bytes (Nat × Nat) :=
  if data.length < kHeaderLength + kChecksumLength then
    .error (bytes "snapshot is too short to be valid")
  else if data.take kMagicLength ≠ kMagic then
    .error (bytes "snapshot has the wrong magic bytes -- not a VCache snapshot")
  else
    let payloadLength := data.length - kChecksumLength
    match readLE data payloadLength 8 with
    | none => .error (bytes "snapshot is missing its checksum")
    | some (storedChecksum, _) =>
      if storedChecksum ≠ (checksumOf (data.take payloadLength)).toNat then
        .error (bytes "snapshot checksum mismatch -- the file is corrupt")
      else
        match readLE data kMagicLength 2 with
        | none => .error (bytes "snapshot is truncated in its header")
        | some (version, offset) =>
          if version ≠ kFormatVersion then
            .error (bytes "snapshot format version " ++ decimal version ++
              bytes " is not supported (expected " ++ decimal kFormatVersion ++ bytes ")")
          else
            match readLE data offset 8 with
            | none => .error (bytes "snapshot is truncated in its header")
            | some header => .ok header

/-- What the decoder makes of the loop's result. -/
def finish (data : Bytes) : Except Bytes (List Entry × Nat) → Except Bytes (List Entry)
  | .error e => .error e
  | .ok (entries, offset) =>
    if offset ≠ data.length - kChecksumLength then
      .error (bytes "snapshot has trailing bytes after the last entry")
    else .ok entries

def decode (data : Bytes) (now : Int) (readings : Nat → Reading) : Except Bytes (List Entry) :=
  match readHeader data with
  | .error e => .error e
  | .ok (entryCount, offset) => finish data
      (decodeLoop data (data.length - kChecksumLength) now readings entryCount 0 offset)

end Snapshot

end VCache
