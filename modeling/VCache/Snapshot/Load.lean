import VCache.Snapshot.RoundTrip
import VCache.Snapshot.Store

/-!
# Loading a snapshot

`SnapshotStore::load` and `readWholeFile`. However the kernel cuts the file into reads, what
is decoded is the whole file or nothing. A load that fails leaves the database as it was, and
one of a file that a save wrote brings back its entries, their moments of expiry carried from
clock to clock.
-/

namespace VCache

open Lib

inductive LoadStatus where
  | loaded
  | notFound
  | failed
deriving DecidableEq, Repr

structure LoadOutcome where
  status : LoadStatus := .notFound
  entriesLoaded : Nat := 0
  error : Bytes := []
deriving DecidableEq, Repr

namespace SnapshotStore

def kReadBufferLength : Nat := 64 * 1024

/-- What a `read` comes to. -/
inductive ReadResult where
  /-- Up to `more + 1` bytes: none only at the end of the file. -/
  | got (more : Nat)
  | interrupted
  | failed (why : Bytes)
deriving DecidableEq, Repr

/-- The loop of `readWholeFile` with `out` read so far. The result is `none` as long as there
are reads to come. -/
def readWholeFile (data out : Bytes) : List ReadResult → Option (Except Bytes Bytes)
  | [] => none
  | .got more :: results =>
    let chunk := (data.drop out.length).take (min (more + 1) kReadBufferLength)
    if chunk = [] then some (.ok out) else readWholeFile data (out ++ chunk) results
  | .interrupted :: results => readWholeFile data out results
  | .failed why :: _ => some (.error why)

/-- The clocks a load reads: one reading for all, one for each record, and that of `restore`. -/
structure LoadClocks where
  decodedAt : Int
  readings : Nat → Snapshot.Reading
  restoredAt : Int

/-- `load`; `refused` is why `open` fails on a file that is there. -/
def load (s : SnapshotStore) (db : Database) (refused : Option Bytes) (reads : List ReadResult)
    (clocks : LoadClocks) : Option (Database × LoadOutcome) :=
  match refused with
  | some why =>
    some (db, { status := .failed, error := describeErrno "cannot open" s.path why })
  | none =>
    match s.disk.target with
    | none => some (db, { status := .notFound })
    | some file =>
      match readWholeFile file.data [] reads with
      | none => none
      | some (.error why) =>
        some (db, { status := .failed, error := describeErrno "cannot read" s.path why })
      | some (.ok data) =>
        match Snapshot.decode data clocks.decodedAt clocks.readings with
        | .error error => some (db, { status := .failed, error })
        | .ok entries =>
          let r := db.restore entries clocks.restoredAt
          some (r.1, { status := .loaded, entriesLoaded := r.2 })

/-! ### Reading -/

theorem readWholeFile_cases (data : Bytes) : ∀ (results : List ReadResult) (out : Bytes),
    out <+: data →
    readWholeFile data out results = none ∨
      (∃ why, .failed why ∈ results ∧ readWholeFile data out results = some (.error why)) ∨
      readWholeFile data out results = some (.ok data)
  | [], _, _ => .inl rfl
  | .got more :: results, out, h => by
    obtain ⟨rest, rfl⟩ := h
    rw [readWholeFile, List.drop_left]
    split
    next hempty =>
      have hpos : 0 < min (more + 1) kReadBufferLength :=
        Nat.lt_min.2 ⟨Nat.succ_pos more, by decide⟩
      have : rest = [] := (List.take_eq_nil_iff.1 hempty).resolve_left (Nat.ne_of_gt hpos)
      exact .inr (.inr (by rw [this, List.append_nil]))
    next =>
      rcases readWholeFile_cases (out ++ rest) results (out ++ rest.take _)
        ((List.prefix_append_right_inj out).2 (List.take_prefix _ rest)) with h | ⟨why, hw, h⟩ | h
      · exact .inl h
      · exact .inr (.inl ⟨why, List.mem_cons_of_mem _ hw, h⟩)
      · exact .inr (.inr h)
  | .interrupted :: results, out, h => by
    rcases readWholeFile_cases data results out h with h | ⟨why, hw, h⟩ | h
    · exact .inl h
    · exact .inr (.inl ⟨why, List.mem_cons_of_mem _ hw, h⟩)
    · exact .inr (.inr h)
  | .failed why :: results, _, _ => .inr (.inl ⟨why, List.mem_cons_self, rfl⟩)

/-- A read that brings something or ends the file. -/
def ReadResult.productive : ReadResult → Bool
  | .got _ => true
  | _ => false

/-- Reads that do not fail come to an end: each one that is not interrupted brings a byte. -/
theorem readWholeFile_ends (data : Bytes) : ∀ (results : List ReadResult) (out : Bytes),
    (∀ why, .failed why ∉ results) → out.length ≤ data.length →
    data.length < out.length + results.countP ReadResult.productive →
    readWholeFile data out results ≠ none
  | [], out, _, hle, hlen => by
    rw [List.countP_nil] at hlen
    omega
  | .got more :: results, out, hok, hle, hlen => by
    rw [List.countP_cons_of_pos rfl] at hlen
    rw [readWholeFile]
    split
    next => exact Option.some_ne_none _
    next hchunk =>
      have hpos := List.length_pos_iff.2 hchunk
      refine readWholeFile_ends data results _
        (fun why hw => hok why (List.mem_cons_of_mem _ hw)) ?_ ?_
      · rw [List.length_append, List.length_take, List.length_drop]
        omega
      · rw [List.length_append]
        omega
  | .interrupted :: results, out, hok, hle, hlen => by
    rw [List.countP_cons_of_neg (by simp [ReadResult.productive])] at hlen
    exact readWholeFile_ends data results out (fun why hw => hok why (List.mem_cons_of_mem _ hw))
      hle hlen
  | .failed why :: results, _, hok, _, _ => absurd List.mem_cons_self (hok why)

/-- Reads that bring in a file of this length. -/
structure Suffice (length : Nat) (reads : List ReadResult) : Prop where
  sound : ∀ why, .failed why ∉ reads
  enough : length < reads.countP ReadResult.productive

theorem Suffice.readWholeFile {data : Bytes} {reads : List ReadResult}
    (h : Suffice data.length reads) : readWholeFile data [] reads = some (.ok data) := by
  rcases readWholeFile_cases data reads [] (List.nil_prefix) with hnone | ⟨why, hw, -⟩ | hok
  · refine absurd hnone (readWholeFile_ends data reads [] h.sound (Nat.zero_le _) ?_)
    rw [List.length_nil, Nat.zero_add]
    exact h.enough
  · exact absurd hw (h.sound why)
  · exact hok

/-! ### What a load does -/

/-- **All or nothing.** A load leaves the database as it was, or the file decodes as a whole
and the database holds what it decodes to. -/
theorem load_cases {s : SnapshotStore} {db db' : Database} {refused : Option Bytes}
    {reads : List ReadResult} {clocks : LoadClocks} {outcome : LoadOutcome}
    (h : s.load db refused reads clocks = some (db', outcome)) :
    (outcome.status = .notFound ∧ db' = db ∧ s.disk.target = none) ∨
    (outcome.status = .failed ∧ db' = db) ∨
    (outcome.status = .loaded ∧ ∃ file entries, s.disk.target = some file ∧
      Snapshot.decode file.data clocks.decodedAt clocks.readings = .ok entries ∧
      (db', outcome.entriesLoaded) = db.restore entries clocks.restoredAt) := by
  unfold load at h
  split at h
  next => cases h; exact .inr (.inl ⟨rfl, rfl⟩)
  next =>
    split at h
    next htarget => cases h; exact .inl ⟨rfl, rfl, htarget⟩
    next file htarget =>
      rcases readWholeFile_cases file.data reads [] List.nil_prefix with hr | ⟨why, -, hr⟩ | hr <;>
        rw [hr] at h
      · cases h
      · cases h; exact .inr (.inl ⟨rfl, rfl⟩)
      · dsimp only at h
        split at h
        next => cases h; exact .inr (.inl ⟨rfl, rfl⟩)
        next entries hdecode =>
          cases h
          exact .inr (.inr ⟨rfl, file, entries, htarget, hdecode, rfl⟩)

end SnapshotStore

namespace Snapshot

/-! ### From clock to clock -/

/-- The entries that come back, entry `i` saved at `before i` and loaded at `after i`. -/
def reloadFrom (before after : Nat → Reading) : Nat → List Entry → List Entry
  | _, [] => []
  | i, e :: es => (reloaded (before i) (after i) e).toList ++ reloadFrom before after (i + 1) es

/-- The moment of expiry on the wall clock is after the first millisecond and in range. -/
def Datable (before : Reading) (e : Entry) : Prop :=
  ∀ x, e.expiration = some x →
    millisecond < before.wall + (x - before.steady) ∧ before.wall + (x - before.steady) < 2 ^ 63

theorem loadRecord_earlier {now : Int} {reading : Reading} (hnow : now ≤ reading.steady)
    (record : Record) :
    loadRecord now reading record = loadRecord reading.steady reading record := by
  unfold loadRecord fromWallClockMillis
  dsimp only
  split
  · split
    next => rfl
    next hpos =>
      rw [Option.map_some, Option.filter_some, Option.filter_some, if_pos, if_pos]
      all_goals simp only [Entry.isExpiredAt, Bool.not_eq_true', decide_eq_false_iff_not]
      all_goals omega
  · rfl

/-- An earlier reading that gives the same moment of expiry gives the same record, and the same
comes back. -/
theorem loadRecord_datable {now : Int} {before after : Reading} {e : Entry}
    (hnow : now ≤ after.steady) (h : Datable before e) :
    loadRecord now after (recordOf before e) = reloaded before after e := by
  rw [loadRecord_earlier hnow]
  obtain ⟨key, value, expiration⟩ := e
  cases expiration with
  | none => rfl
  | some x =>
    obtain ⟨hlow, hhigh⟩ := h x rfl
    unfold millisecond at hlow
    have hwall : before.wall + (x - before.steady) - 1 + (x - (x - 1)) =
        before.wall + (x - before.steady) := by omega
    have hload := @loadRecord_recordOf ⟨x - 1, before.wall + (x - before.steady) - 1⟩ after
      ⟨key, value, some x⟩ (by dsimp only; omega) fun y hy => by cases hy; dsimp only; omega
    simpa only [recordOf, expiresAt, toWallClockMillis, reloaded, hwall] using hload

theorem loadFrom_datable {now : Int} {before after : Nat → Reading}
    (hnow : ∀ i, now ≤ (after i).steady) : ∀ (es : List Entry) (i : Nat),
    (∀ j e, es[j]? = some e → Datable (before (i + j)) e) →
    loadFrom now after i (recordsOf before i es) = reloadFrom before after i es
  | [], _, _ => rfl
  | e :: es, i, h => by
    have hfirst : Datable (before i) e := h 0 e rfl
    rw [recordsOf, loadFrom, reloadFrom, loadRecord_datable (hnow i) hfirst]
    refine congrArg _ (loadFrom_datable hnow es (i + 1) fun j e' he' => ?_)
    have := h (j + 1) e' he'
    rwa [show i + 1 + j = i + (j + 1) by omega]

theorem mem_reloadFrom {before after : Nat → Reading} {e' : Entry} : ∀ {es : List Entry} {i : Nat},
    e' ∈ reloadFrom before after i es ↔
      ∃ j e, es[j]? = some e ∧ reloaded (before (i + j)) (after (i + j)) e = some e'
  | [], i => by simp [reloadFrom]
  | e :: es, i => by
    rw [reloadFrom, List.mem_append, Option.mem_toList, mem_reloadFrom]
    constructor
    · rintro (h | ⟨j, e₁, hj, h⟩)
      · exact ⟨0, e, rfl, h⟩
      · exact ⟨j + 1, e₁, hj, by rwa [show i + (j + 1) = i + 1 + j by omega]⟩
    · rintro ⟨j, e₁, hj, h⟩
      cases j with
      | zero => cases hj; exact .inl h
      | succ j => exact .inr ⟨j, e₁, hj, by rwa [show i + 1 + j = i + (j + 1) by omega]⟩

theorem keys_reloadFrom (before after : Nat → Reading) : ∀ (es : List Entry) (i : Nat),
    ((reloadFrom before after i es).map (·.key)).Sublist (es.map (·.key))
  | [], _ => .slnil
  | e :: es, i => by
    rw [reloadFrom, List.map_append, List.map_cons]
    cases h : reloaded (before i) (after i) e with
    | none => exact (keys_reloadFrom before after es (i + 1)).cons _
    | some e' =>
      rw [Option.toList_some, List.map_singleton, reloaded_key h]
      exact (keys_reloadFrom before after es (i + 1)).cons_cons _

theorem lookup_reloadFrom {before after : Nat → Reading} {es : List Entry}
    (hd : Keyed.Distinct (·.key) es) {i : Nat} {e : Entry} (hi : es[i]? = some e) :
    Keyed.lookup (·.key) e.key (reloadFrom before after 0 es) =
      reloaded (before i) (after i) e := by
  have hd' : Keyed.Distinct (·.key) (reloadFrom before after 0 es) :=
    List.Nodup.sublist (keys_reloadFrom before after es 0) hd
  refine Option.ext fun e' => ?_
  rw [hd'.lookup_iff, mem_reloadFrom]
  constructor
  · rintro ⟨⟨j, e₁, hj, h⟩, hkey⟩
    rw [Nat.zero_add] at h
    have hsame : e₁.key = e.key := (reloaded_key h).symm.trans hkey
    obtain rfl := hd.eq_of_key (List.mem_of_getElem? hj) (List.mem_of_getElem? hi) hsame
    have hlt := (List.getElem?_eq_some_iff.1 hj).1
    obtain rfl := (List.getElem?_inj hlt hd.of_map).1 (hj.trans hi.symm)
    exact h
  · intro h
    exact ⟨⟨i, e, hi, by rwa [Nat.zero_add]⟩, reloaded_key h⟩

theorem decode_encode {entries : List Entry} {encodedAt now : Int} {before after : Nat → Reading}
    (hcount : entries.length < 2 ^ 64)
    (hfields : ∀ e ∈ entries, e.key.length ≤ kMaxFieldLength ∧ e.value.length ≤ kMaxFieldLength)
    (hdates : ∀ i e, (unexpired entries encodedAt)[i]? = some e → Datable (before i) e)
    (hnow : ∀ i, now ≤ (after i).steady) :
    decode (encode entries encodedAt before) now after =
      .ok (reloadFrom before after 0 (unexpired entries encodedAt)) := by
  have hsub : (unexpired entries encodedAt).Sublist entries := List.filter_sublist
  rw [encode_eq, decode_fileOf, loadFrom_datable hnow _ 0]
  · intro j e he
    rw [Nat.zero_add]
    exact hdates j e he
  · exact recordsOf_fits fun e he => hfields e (hsub.subset he)
  · rw [recordsOf_length]
    exact Nat.lt_of_le_of_lt hsub.length_le hcount

theorem lookup_restore_reloadFrom {db : Database} (hdb : db.Inv) {es : List Entry}
    (hd : Keyed.Distinct (·.key) es) (before after : Nat → Reading) (now : Int) :
    (∀ i e, es[i]? = some e → (db.restore (reloadFrom before after 0 es) now).1.lookup e.key =
      (reloaded (before i) (after i) e).filter fun e' => !e'.isExpiredAt now) ∧
    ∀ k, (∀ e ∈ es, e.key ≠ k) →
      (db.restore (reloadFrom before after 0 es) now).1.lookup k = none := by
  have hkeys := keys_reloadFrom before after es 0
  have hd' : Keyed.Distinct (·.key) (reloadFrom before after 0 es) := List.Nodup.sublist hkeys hd
  have hlookup : ∀ k, (db.restore (reloadFrom before after 0 es) now).1.lookup k =
      (Keyed.lookup (·.key) k (reloadFrom before after 0 es)).filter
        fun e' => !e'.isExpiredAt now := by
    intro k
    rw [hdb.lookup_restore, ← hd'.lookup_filter]
    exact ((hd'.sublist List.filter_sublist).lookup_perm (List.reverse_perm _).symm k).symm
  refine ⟨fun i e hi => ?_, fun k hk => ?_⟩
  · rw [hlookup, lookup_reloadFrom hd hi]
  · rw [hlookup, Keyed.lookup_eq_none_iff.2, Option.filter_none]
    intro e' he' hkey
    obtain ⟨e, he, hee⟩ := List.mem_map.1 (hkeys.subset (List.mem_map_of_mem he'))
    exact hk e he (hee.trans hkey)

end Snapshot

end VCache
