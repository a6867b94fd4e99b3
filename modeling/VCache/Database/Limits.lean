import VCache.Database.Scans

/-!
# Concurrent changes of the limit

`setMaxMemory` goes from shard to shard and stores the limit last, and nothing keeps two of
its calls in step. Each shard has the slice of the call that passed it last, and the limit
is that of the call that stored it last. They belong together where these are alike.
-/

namespace VCache

open VCache.Lib

namespace Database

/-! ### Who changes a limit -/

structure SameLimits (db db' : Database) : Prop where
  count : db'.shards.length = db.shards.length
  slices : ∀ i : Nat, (db'.shards[i]?).map (·.maxMemoryBytes) =
    (db.shards[i]?).map (·.maxMemoryBytes)
  limit : db'.maxMemoryBytes = db.maxMemoryBytes

theorem SameLimits.refl (db : Database) : db.SameLimits db := ⟨rfl, fun _ => rfl, rfl⟩

theorem slices_setShard {db : Database} {i : Nat} {s : Shard} (hs : db.shards[i]? = some s)
    (s' : Shard) (j : Nat) :
    ((db.setShard i s').shards[j]?).map (·.maxMemoryBytes) =
      if j = i then some s'.maxMemoryBytes else (db.shards[j]?).map (·.maxMemoryBytes) := by
  have hlt := (List.getElem?_eq_some_iff.1 hs).1
  show ((db.shards.set i s')[j]?).map (·.maxMemoryBytes) = _
  rw [List.getElem?_set]
  by_cases hji : j = i
  · rw [if_pos hji.symm, if_pos hji, if_pos hlt]
    rfl
  · rw [if_neg (Ne.symm hji), if_neg hji]

theorem sameLimits_setShard {db : Database} {i : Nat} {s s' : Shard}
    (hs : db.shards[i]? = some s) (h : s'.maxMemoryBytes = s.maxMemoryBytes) :
    db.SameLimits (db.setShard i s') := by
  refine ⟨setShard_length .., fun j => ?_, rfl⟩
  rw [slices_setShard hs]
  split
  next hji => rw [hji, hs, h]; rfl
  next => rfl

theorem AllValid.sameLimits_step {db : Database} (h : db.AllValid) {op : Op}
    (hop : ∀ bytes, op ≠ .setMaxMemory bytes) (now : Nat → Int) :
    db.SameLimits (db.step op now).1 := by
  obtain ⟨-, hcount, hlimit⟩ := db.sameShape_step hop now
  refine ⟨hcount, fun i => ?_, hlimit⟩
  rw [step_shards]
  cases hs : db.shards[i]? with
  | none => rfl
  | some s =>
    have hv := h i s hs
    simp only [Option.map_some, (onShard_step hv ..).slice hv, sliceAfter_eq hop]

theorem sameLimits_restoreEntry (db : Database) (now : Int) (stored : Nat) (e : Entry) :
    db.SameLimits (restoreEntry now (db, stored) e).1 := by
  unfold restoreEntry
  split
  · exact .refl db
  · exact sameLimits_setShard (db.shards_shardFor e.key) (by rw [Shard.write_frame])

namespace Call

/-- Where a `setMaxMemory` call stands, and the limit it is to set: it comes to shard `next`,
or, behind the last one, to the store of the limit. -/
def passes : Call → Option (Nat × Nat)
  | .setMaxMemory bytes next => some (next, bytes)
  | _ => none

/-- A call as it comes about with so many shards. -/
def Placed (shards : Nat) : Call → Prop
  | .atKey op => ∀ bytes, op ≠ .setMaxMemory bytes
  | .setMaxMemory _ next => next ≤ shards
  | _ => True

theorem placed_of (shards : Nat) (op : Op) : (Call.of shards op).Placed shards := by
  cases op with
  | setMaxMemory bytes => exact Nat.zero_le _
  | removeExpired maxBuckets =>
    unfold Call.of
    dsimp only
    split <;> trivial
  | set | setFor | get | ttl | existsKey | del => intro bytes h; cases h
  | keys | snapshot | clear | restore => trivial

theorem Placed.advance {db : Database} {call : Call} (h : call.Placed db.shards.length)
    (now : Int) : (call.advance db now).2.Placed db.shards.length := by
  cases call with
  | setMaxMemory bytes next =>
    simp only [Call.advance]
    split
    next => trivial
    next s hs => exact (List.getElem?_eq_some_iff.1 hs).1
  | restorePut time entries stored => cases entries <;> trivial
  | atKey op => trivial
  | returned answer => trivial
  | _ => simp only [Call.advance]; split <;> trivial

theorem Placed.sameLimits {db : Database} {call : Call} (h : call.Placed db.shards.length)
    (hv : db.AllValid) (hpass : call.passes = none) (now : Int) :
    db.SameLimits (call.advance db now).1 := by
  cases call with
  | atKey op => exact hv.sameLimits_step h fun _ => now
  | keys next result => simp only [Call.advance]; split <;> exact .refl db
  | snapshot next result => simp only [Call.advance]; split <;> exact .refl db
  | removeExpired perShard next removed =>
    simp only [Call.advance]
    split
    next => exact .refl db
    next s hs => exact sameLimits_setShard hs (s.sweep_frame perShard now)
  | clear next =>
    simp only [Call.advance]
    split
    next => exact .refl db
    next s hs => exact sameLimits_setShard hs rfl
  | setMaxMemory bytes next => cases hpass
  | restoreClear entries next =>
    simp only [Call.advance]
    split
    next => exact .refl db
    next s hs => exact sameLimits_setShard hs rfl
  | restorePut time entries stored =>
    cases entries with
    | nil => exact .refl db
    | cons e entries => exact sameLimits_restoreEntry db time stored e
  | returned answer => exact .refl db

end Call

theorem slice_limitTo {route : Bytes → Nat} {i : Nat} {s : Shard}
    (h : s.Valid route i) (bytes shards : Nat) :
    (s.limitTo (sliceOf bytes shards)).maxMemoryBytes = sliceOf bytes shards :=
  (@ShardStep.limit route shards (fun _ => 0) i s bytes).slice h

namespace System

/-! ### Runs with the passes of `setMaxMemory` -/

/-- The systems that come of a new database, with what its `setMaxMemory` calls have passed on
the way, the latest first. -/
inductive Runs : List (Nat × Nat) → System → Prop where
  | new {n shardCount : UInt64} {db : Database} (h : new n shardCount = some db) (clock : Int) :
      Runs [] { db, clock }
  | tick {log : List (Nat × Nat)} {s : System} {t : Int} : Runs log s → s.clock ≤ t →
      Runs log { s with clock := t }
  | call {log : List (Nat × Nat)} {s : System} (op : Op) : Runs log s →
      Runs log { s with calls := s.calls ++ [Call.of s.db.shards.length op] }
  | advance {log : List (Nat × Nat)} {s : System} {c : Nat} {call : Call} : Runs log s →
      s.calls[c]? = some call →
      Runs (call.passes.toList ++ log)
        { s with db := (call.advance s.db s.clock).1
                 calls := s.calls.set c (call.advance s.db s.clock).2 }

/-- Every reachable system has such a run. -/
theorem reachable_iff_runs {s : System} : s.Reachable ↔ ∃ log, Runs log s := by
  constructor
  · intro h
    induction h with
    | new h clock => exact ⟨_, .new h clock⟩
    | step _ hstep ih =>
      obtain ⟨log, hr⟩ := ih
      cases hstep with
      | tick ht => exact ⟨_, hr.tick ht⟩
      | call op => exact ⟨_, hr.call op⟩
      | advance hc => exact ⟨_, hr.advance hc⟩
  · rintro ⟨log, hr⟩
    induction hr with
    | new h clock => exact .new h clock
    | tick _ ht ih => exact ih.step (.tick ht)
    | call op _ ih => exact ih.step (.call op)
    | advance _ hc ih => exact ih.step (.advance hc)

/-- The limit that the last call to pass place `i` was to set. -/
def limitAt (log : List (Nat × Nat)) (i : Nat) : Nat := (log.lookup i).getD 0

theorem limitAt_cons (log : List (Nat × Nat)) (i next bytes : Nat) :
    limitAt ((next, bytes) :: log) i = if i = next then bytes else limitAt log i := by
  unfold limitAt
  rw [List.lookup_cons]
  by_cases h : i = next
  · rw [if_pos h, beq_iff_eq.2 h]
    rfl
  · rw [if_neg h, beq_eq_false_iff_ne.2 h]

/-- Every slice and the limit come from the last call to pass. -/
structure Follows (log : List (Nat × Nat)) (s : System) : Prop where
  slices : ∀ (i : Nat) (shard : Shard), s.db.shards[i]? = some shard →
    shard.maxMemoryBytes = sliceOf (limitAt log i) s.db.shards.length
  stored : s.db.maxMemoryBytes = limitAt log s.db.shards.length
  placed : ∀ call ∈ s.calls, call.Placed s.db.shards.length

variable {log : List (Nat × Nat)} {s : System}

theorem Follows.sameLimits (h : Follows log s) {db : Database} {calls : List Call}
    (hsame : s.db.SameLimits db) (hcalls : ∀ call ∈ calls, call.Placed s.db.shards.length) :
    Follows log { s with db, calls } := by
  obtain ⟨hslices, hstored, -⟩ := h
  obtain ⟨hcount, hsl, hlimit⟩ := hsame
  refine ⟨fun i shard hs => ?_, ?_, fun call hm => ?_⟩
  · have hi := hsl i
    rw [show db.shards[i]? = some shard from hs] at hi
    obtain ⟨shard₀, hs₀, he⟩ := Option.map_eq_some_iff.1 hi.symm
    show _ = sliceOf _ db.shards.length
    rw [hcount, ← hslices i shard₀ hs₀, he]
  · show db.maxMemoryBytes = limitAt log db.shards.length
    rw [hlimit, hcount, hstored]
  · show call.Placed db.shards.length
    rw [hcount]
    exact hcalls call hm

theorem Follows.limit (h : Follows log s) (hv : s.db.AllValid) {bytes next : Nat} {shard : Shard}
    (hs : s.db.shards[next]? = some shard) {calls : List Call}
    (hcalls : ∀ call ∈ calls, call.Placed s.db.shards.length) :
    Follows ((next, bytes) :: log) { s with
      db := s.db.setShard next (shard.limitTo (sliceOf bytes s.db.shards.length)), calls } := by
  obtain ⟨hslices, hstored, -⟩ := h
  have hlt := (List.getElem?_eq_some_iff.1 hs).1
  have hcount : (s.db.setShard next
      (shard.limitTo (sliceOf bytes s.db.shards.length))).shards.length = s.db.shards.length :=
    setShard_length ..
  refine ⟨fun i shard' hi => ?_, ?_, fun call hm => ?_⟩
  · have hsl := slices_setShard hs (shard.limitTo (sliceOf bytes s.db.shards.length)) i
    rw [show (s.db.setShard next _).shards[i]? = some shard' from hi, Option.map_some] at hsl
    show _ = sliceOf _ (s.db.setShard next _).shards.length
    rw [hcount, limitAt_cons]
    split
    next he =>
      rw [if_pos he] at hsl
      rw [Option.some.inj hsl, slice_limitTo (hv next shard hs)]
    next he =>
      rw [if_neg he] at hsl
      obtain ⟨shard₀, hs₀, he₀⟩ := Option.map_eq_some_iff.1 hsl.symm
      rw [← hslices i shard₀ hs₀, he₀]
  · show s.db.maxMemoryBytes = limitAt _ (s.db.setShard next _).shards.length
    rw [hcount, limitAt_cons, if_neg (by omega), hstored]
  · show call.Placed (s.db.setShard next _).shards.length
    rw [hcount]
    exact hcalls call hm

theorem Follows.store (h : Follows log s) (bytes : Nat) {calls : List Call}
    (hcalls : ∀ call ∈ calls, call.Placed s.db.shards.length) :
    Follows ((s.db.shards.length, bytes) :: log)
      { s with db := { s.db with maxMemoryBytes := bytes }, calls } := by
  refine ⟨fun i shard hi => ?_, ?_, hcalls⟩
  · have hlt : i < s.db.shards.length := (List.getElem?_eq_some_iff.1 hi).1
    rw [limitAt_cons, if_neg (by omega)]
    exact h.slices i shard hi
  · show bytes = limitAt _ s.db.shards.length
    rw [limitAt_cons, if_pos rfl]

theorem Follows.pass (h : Follows log s) (hv : s.db.AllValid) {bytes next : Nat}
    (hnext : next ≤ s.db.shards.length) {calls : List Call}
    (hcalls : ∀ call ∈ calls, call.Placed s.db.shards.length) :
    Follows ((next, bytes) :: log)
      { s with db := ((Call.setMaxMemory bytes next).advance s.db s.clock).1, calls } := by
  simp only [Call.advance]
  cases hs : s.db.shards[next]? with
  | none =>
    obtain rfl : next = s.db.shards.length :=
      Nat.le_antisymm hnext (List.getElem?_eq_none_iff.1 hs)
    exact h.store bytes hcalls
  | some shard => exact h.limit hv hs hcalls

theorem Runs.follows (h : Runs log s) : Follows log s := by
  induction h with
  | new h clock =>
    have hfresh := fresh_of_new h
    refine ⟨fun i shard hs => ?_, hfresh.unlimited, fun call hm => by cases hm⟩
    rw [hfresh.inv.sliced i shard hs, hfresh.unlimited]
    rfl
  | tick _ _ ih => exact ⟨ih.slices, ih.stored, ih.placed⟩
  | call op _ ih =>
    refine ⟨ih.slices, ih.stored, fun call hm => ?_⟩
    rcases List.mem_append.1 hm with hm | hm
    · exact ih.placed call hm
    · cases List.mem_singleton.1 hm
      exact Call.placed_of _ op
  | @advance log s c call hr hc ih =>
    have hv := (reachable_iff_runs.2 ⟨log, hr⟩).allValid
    have hp := ih.placed call (List.mem_of_getElem? hc)
    have hcalls : ∀ q ∈ s.calls.set c (call.advance s.db s.clock).2,
        q.Placed s.db.shards.length := by
      intro q hq
      rcases List.mem_or_eq_of_mem_set hq with hq | rfl
      · exact ih.placed q hq
      · exact hp.advance s.clock
    cases hpass : call.passes with
    | none => exact ih.sameLimits (hp.sameLimits hv hpass s.clock) hcalls
    | some place =>
      obtain ⟨next, bytes⟩ := place
      cases call with
      | setMaxMemory bytes' next' =>
        cases hpass
        exact ih.pass hv hp hcalls
      | _ => cases hpass

/-! ### Agreement -/

/-- Every slice is the one derived from the limit that `maxMemory` reports. -/
def SlicesAgree (db : Database) : Prop :=
  ∀ (i : Nat) (shard : Shard), db.shards[i]? = some shard →
    shard.maxMemoryBytes = sliceOf db.maxMemory db.shardCount

/-- The limits that have passed place `i`, the latest first. -/
def passing (log : List (Nat × Nat)) (i : Nat) : List Nat :=
  (log.filter fun place => place.1 = i).map (·.2)

theorem limitAt_eq_head (log : List (Nat × Nat)) (i : Nat) :
    limitAt log i = (passing log i).head?.getD 0 := by
  induction log with
  | nil => rfl
  | cons place log ih =>
    obtain ⟨next, bytes⟩ := place
    rw [limitAt_cons, ih]
    unfold passing
    rw [List.filter_cons]
    by_cases h : i = next
    · rw [if_pos h, if_pos (by simpa using h.symm)]
      rfl
    · rw [if_neg h, if_neg (by simpa using Ne.symm h)]

/-- The slices agree with the limit just where the last call to pass each shard was to set the
same slice as the last one to store its limit. That is so if no call overtakes another, so
that all places see the limits in the same order. -/
theorem slices_agree_iff_last (h : Runs log s) :
    (SlicesAgree s.db ↔ ∀ i < s.db.shardCount,
      sliceOf (limitAt log i) s.db.shardCount =
        sliceOf (limitAt log s.db.shardCount) s.db.shardCount) ∧
    ((∀ i < s.db.shardCount, passing log i = passing log s.db.shardCount) →
      SlicesAgree s.db ∧ s.db.maxMemory = (passing log s.db.shardCount).head?.getD 0) := by
  obtain ⟨hslices, hstored, -⟩ := h.follows
  have hiff : SlicesAgree s.db ↔ ∀ i < s.db.shardCount,
      sliceOf (limitAt log i) s.db.shardCount =
        sliceOf (limitAt log s.db.shardCount) s.db.shardCount := by
    unfold SlicesAgree maxMemory
    rw [hstored]
    constructor
    · intro hagree i hi
      have hs : s.db.shards[i]? = some s.db.shards[i] := List.getElem?_eq_getElem hi
      exact (hslices i _ hs).symm.trans (hagree i _ hs)
    · intro hlast i shard hs
      have hlt : i < s.db.shardCount := (List.getElem?_eq_some_iff.1 hs).1
      exact (hslices i shard hs).trans (hlast i hlt)
  refine ⟨hiff, fun horder => ⟨hiff.2 fun i hi => ?_, ?_⟩⟩
  · rw [limitAt_eq_head, limitAt_eq_head, horder i hi]
  · rw [← limitAt_eq_head]
    exact hstored

/-- Two calls have been made, on one shard. -/
def twoLimits : System :=
  { db := single, calls := [.setMaxMemory 100 0, .setMaxMemory 200 0], clock := 0 }

theorem twoLimits_runs : Runs [] twoLimits :=
  .call (.setMaxMemory 200) (.call (.setMaxMemory 100) (@Runs.new 1 1 _ rfl 0))

theorem Runs.turn (h : Runs log s) {c : Nat} {call : Call} (hc : s.calls[c]? = some call) :
    Runs (call.passes.toList ++ log) (s.turn c) := by
  unfold System.turn
  rw [hc]
  exact h.advance hc

/-- The second call overtakes the first between the shard and the limit. Both have returned, the
limit is `100`, and the slice is that of `200`. -/
theorem slices_disagree : ∃ log s, Runs log s ∧ (∀ call ∈ s.calls, call = .returned .done) ∧
    s.db.maxMemory = 100 ∧ s.db.shards.map (·.maxMemoryBytes) = [200] := by
  have hrun := (((twoLimits_runs.turn (c := 0) rfl).turn (c := 1) rfl).turn (c := 1) rfl).turn
    (c := 0) rfl
  exact ⟨_, _, hrun, by decide +kernel, by decide +kernel, by decide +kernel⟩

/-- Both calls are under way at once, and come to the limit in the order in which they came to
the shard. -/
theorem slices_agree_iff_last_order :
    SlicesAgree ((((twoLimits.turn 0).turn 1).turn 0).turn 1).db ∧
      ((((twoLimits.turn 0).turn 1).turn 0).turn 1).db.maxMemory = 200 := by
  have hrun := (((twoLimits_runs.turn (c := 0) rfl).turn (c := 1) rfl).turn (c := 0) rfl).turn
    (c := 1) rfl
  exact (slices_agree_iff_last hrun).2 (by decide +kernel)

end System

end Database

end VCache
