import VCache.Lib.Damage
import VCache.Lib.Mixing
import VCache.Snapshot.Accepted

/-!
# A damaged byte

FNV-1a is injective in its state for every byte and in the byte for every state, since its
multiplier is odd. So the checksum of a payload with one byte replaced is another one, and
a file with one byte replaced anywhere is not accepted.
-/

namespace VCache

open VCache.Lib

namespace Snapshot

def checksumStep (hash : UInt64) (byte : UInt8) : UInt64 :=
  (hash ^^^ byte.toUInt64) * 0x100000001b3

theorem multiplier_unit : (0x100000001b3 : UInt64) * 0xce965057aff6957b = 1 := by decide

theorem checksumStep_injective (byte : UInt8) :
    Function.Injective fun hash => checksumStep hash byte :=
  Mixing.absorb_injective multiplier_unit byte

theorem checksumStep_byte_injective (hash : UInt64) : Function.Injective (checksumStep hash) :=
  Mixing.absorb_byte_injective multiplier_unit hash

theorem checksumOf_damaged {i : Nat} {x y : Bytes} (h : Damage.At i x y) :
    checksumOf x ≠ checksumOf y :=
  h.foldl_ne checksumStep_injective checksumStep_byte_injective _

theorem IsFileOf.checksum {x : Bytes} {records : List Record} (h : IsFileOf x records) :
    x.drop (x.length - 8) = LittleEndian.split 8 (checksumOf (x.take (x.length - 8))).toNat := by
  have hn : x.length - 8 = (payload records).length := by
    rw [h.eq, fileOf, List.length_append, LittleEndian.length_split]; omega
  rw [hn, h.eq, fileOf, List.take_left, List.drop_left]

/-- In the payload the damage shows in the checksum; in the checksum, in itself. -/
theorem IsFileOf.not_damaged {i : Nat} {x y : Bytes} {rs rs' : List Record} (hx : IsFileOf x rs)
    (hy : IsFileOf y rs') : ¬ Damage.At i x y := by
  intro h
  have hcx := hx.checksum
  have hcy := hy.checksum
  rw [h.length] at hcy
  by_cases hi : i < x.length - 8
  · have hsum : (checksumOf (x.take (x.length - 8))).toNat =
        (checksumOf (y.take (x.length - 8))).toNat := by
      refine LittleEndian.split_inj (w := 8) (UInt64.toNat_lt _) (UInt64.toNat_lt _) ?_
      rw [← hcx, ← hcy, h.drop_eq hi]
    exact checksumOf_damaged (h.take hi) (UInt64.toNat_inj.1 hsum)
  · have htake := h.take_eq (Nat.le_of_not_lt hi)
    refine h.ne ?_
    rw [← List.take_append_drop (x.length - 8) x, ← List.take_append_drop (x.length - 8) y, hcx,
      hcy, htake]

/-- **A single damaged byte is detected.** -/
theorem damaged_byte_rejected (x y : Bytes) (now now' : Int) (readings readings' : Nat → Reading)
    (entries : List Entry) (h : decode x now readings = .ok entries) (hlen : y.length = x.length)
    (hone : ∃! i : Nat, x[i]? ≠ y[i]?) : ∃ e, decode y now' readings' = .error e := by
  cases hd : decode y now' readings' with
  | error e => exact ⟨e, rfl⟩
  | ok entries' =>
    obtain ⟨i, hat⟩ := Damage.exists_at hlen hone
    obtain ⟨rs, hx, -⟩ := decode_ok_iff.1 h
    obtain ⟨rs', hy, -⟩ := decode_ok_iff.1 hd
    exact absurd hat (hx.not_damaged hy)

/-- The file of two records, with another byte in the first key. -/
theorem damaged_byte_rejected_key :
    ∃ e, decode ((fileOf twoRecords).set 20 106) 3 (fun _ => ⟨3, 4⟩) = .error e := by
  refine damaged_byte_rejected (fileOf twoRecords) _ 0 3 (fun _ => ⟨0, 0⟩) _ _
    (decode_twoRecords ..) (List.length_set ..) ⟨20, by decide +kernel, fun j hj => ?_⟩
  by_contra hne
  exact hj (List.getElem?_set_ne (fun h => hne h.symm)).symm

end Snapshot

end VCache
