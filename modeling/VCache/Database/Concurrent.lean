import VCache.Database.Spec
import VCache.Lib.Sums
import VCache.Lib.Trace

/-!
# The database under concurrent calls

Every access to a shard happens in a critical section under that shard's lock. A call on a
key is one critical section; `keys`, `snapshot`, `removeExpired`, `clear`, `setMaxMemory`
and `restore` go from shard to shard and hold one lock at a time, so other calls come in
between. A system is the database with any number of calls under way, each at its own
place, and the steady clock, which every critical section reads for itself. A call that
nobody interrupts does what its operation does.
-/

namespace VCache

open VCache.Lib

namespace Database

/-- A call under way. One that goes from shard to shard stands in front of shard `next`. -/
inductive Call where
  | atKey (op : Op)
  | keys (next : Nat) (result : List Bytes)
  | snapshot (next : Nat) (result : List Entry)
  | removeExpired (perShard next removed : Nat)
  | clear (next : Nat)
  | setMaxMemory (bytes next : Nat)
  | restoreClear (entries : List Entry) (next : Nat)
  | restorePut (now : Int) (entries : List Entry) (stored : Nat)
  | returned (answer : Answer)
deriving DecidableEq

namespace Call

def of (shards : Nat) : Op → Call
  | .keys => .keys 0 []
  | .snapshot => .snapshot 0 []
  | .removeExpired maxBuckets =>
    if maxBuckets = 0 then .returned (.count 0)
    else .removeExpired (max (maxBuckets / shards) 1) 0 0
  | .clear => .clear 0
  | .setMaxMemory bytes => .setMaxMemory bytes 0
  | .restore entries => .restoreClear entries 0
  | op => .atKey op

/-- The next critical section of a call, or its return. -/
def advance (db : Database) (now : Int) : Call → Database × Call
  | .atKey op => (db.step op fun _ => now).map id .returned
  | .keys next result =>
    match db.shards[next]? with
    | none => (db, .returned (.keys result))
    | some shard =>
      (db, .keys (next + 1)
        (result ++ shard.table.keysWhere fun entry => !entry.isExpiredAt now))
  | .snapshot next result =>
    match db.shards[next]? with
    | none => (db, .returned (.entries result))
    | some shard =>
      (db, .snapshot (next + 1)
        (result ++ shard.table.entriesWhere fun entry => !entry.isExpiredAt now))
  | .removeExpired perShard next removed =>
    match db.shards[next]? with
    | none => (db, .returned (.count removed))
    | some shard =>
      let r := shard.sweep perShard now
      (db.setShard next r.1, .removeExpired perShard (next + 1) (removed + r.2))
  | .clear next =>
    match db.shards[next]? with
    | none => (db, .returned .done)
    | some shard => (db.setShard next shard.clear, .clear (next + 1))
  | .setMaxMemory bytes next =>
    match db.shards[next]? with
    | none => ({ db with maxMemoryBytes := bytes }, .returned .done)
    | some shard =>
      (db.setShard next (shard.limitTo (sliceOf bytes db.shards.length)),
        .setMaxMemory bytes (next + 1))
  | .restoreClear entries next =>
    match db.shards[next]? with
    | none => (db, .restorePut now entries 0)
    | some shard => (db.setShard next shard.clear, .restoreClear entries (next + 1))
  | .restorePut _ [] stored => (db, .returned (.count stored))
  | .restorePut time (entry :: entries) stored =>
    (restoreEntry time (db, stored) entry).map id fun stored => .restorePut time entries stored
  | .returned answer => (db, .returned answer)

end Call

structure System where
  db : Database
  calls : List Call := []
  clock : Int

namespace System

/-- Time passes, a call is made, or a call comes to its next critical section. -/
inductive Step : System → System → Prop where
  | tick {s : System} {t : Int} : s.clock ≤ t → Step s { s with clock := t }
  | call {s : System} (op : Op) :
      Step s { s with calls := s.calls ++ [Call.of s.db.shards.length op] }
  | advance {s : System} {c : Nat} {call : Call} : s.calls[c]? = some call →
      Step s { s with db := (call.advance s.db s.clock).1
                      calls := s.calls.set c (call.advance s.db s.clock).2 }

inductive Reachable : System → Prop where
  | new {n shardCount : UInt64} {db : Database} (h : new n shardCount = some db) (clock : Int) :
      Reachable { db, clock }
  | step {s s' : System} : Reachable s → Step s s' → Reachable s'

end System

/-! ## What no critical section breaks -/

/-- Every shard's table is well formed and holds only keys routed to it. -/
def AllValid (db : Database) : Prop :=
  ∀ (i : Nat) (s : Shard), db.shards[i]? = some s → s.Valid db.shardIndexFor i

/-- Valid still, with the same shards for the same keys. -/
structure Keeps (db db' : Database) : Prop where
  valid : db'.AllValid
  route : db'.shardIndexFor = db.shardIndexFor
  count : db'.shards.length = db.shards.length

theorem Keeps.refl {db : Database} (h : db.AllValid) : db.Keeps db := ⟨h, rfl, rfl⟩

theorem AllValid.setShard {db : Database} (h : db.AllValid) {i : Nat} {s : Shard}
    (hs : s.Valid db.shardIndexFor i) : db.Keeps (db.setShard i s) := by
  refine ⟨fun j s' hj => ?_, setShard_shardIndexFor .., setShard_length ..⟩
  rw [setShard_shardIndexFor]
  have hset : (db.shards.set i s)[j]? = some s' := hj
  rw [List.getElem?_set] at hset
  split at hset
  next hij =>
    split at hset
    · subst hij
      exact Option.some.inj hset ▸ hs
    · cases hset
  next => exact h j s' hset

theorem AllValid.step {db : Database} (h : db.AllValid) (op : Op) (now : Nat → Int) :
    db.Keeps (db.step op now).1 := by
  obtain ⟨h1, h2, -⟩ := db.step_shape op now
  refine ⟨fun i s hs => ?_, h1, h2⟩
  rw [step_shards] at hs
  obtain ⟨s₀, hs₀, rfl⟩ := Option.map_eq_some_iff.1 hs
  rw [h1]
  exact (onShard_step (h i s₀ hs₀) ..).valid (h i s₀ hs₀)

theorem AllValid.restoreEntry {db : Database} (h : db.AllValid) (now : Int) (stored : Nat)
    (e : Entry) : db.Keeps (Database.restoreEntry now (db, stored) e).1 := by
  unfold Database.restoreEntry
  split
  · exact .refl h
  · have hv := h _ _ (db.shards_shardFor e.key)
    refine h.setShard (.of_holds (Shard.write_spec hv.holds e.key e.value e.expiration).1 ?_)
    intro x hx
    rcases List.mem_cons.1 hx with rfl | hx
    · rfl
    · exact hv.routed x (Keyed.mem_without.1 hx).1

/-- **Every critical section keeps the shards valid.** -/
theorem AllValid.advance {db : Database} (h : db.AllValid) (now : Int) (call : Call) :
    db.Keeps (call.advance db now).1 := by
  have hclear : ∀ {i s}, db.shards[i]? = some s → db.Keeps (db.setShard i s.clear) :=
    fun hs => h.setShard ((h _ _ hs).thins (Shard.thins_clear (h _ _ hs).holds))
  cases call with
  | atKey op => exact h.step op fun _ => now
  | keys next result => simp only [Call.advance]; split <;> exact .refl h
  | snapshot next result => simp only [Call.advance]; split <;> exact .refl h
  | removeExpired perShard next removed =>
    simp only [Call.advance]
    split
    next => exact .refl h
    next s hs => exact h.setShard ((h _ _ hs).thins (Shard.thins_sweep (h _ _ hs).holds ..))
  | clear next =>
    simp only [Call.advance]
    split
    next => exact .refl h
    next s hs => exact hclear hs
  | setMaxMemory bytes next =>
    simp only [Call.advance]
    split
    next => exact ⟨h, rfl, rfl⟩
    next s hs =>
      exact h.setShard (ShardStep.valid (@ShardStep.limit _ _ (fun _ => now) _ _ bytes) (h _ _ hs))
  | restoreClear entries next =>
    simp only [Call.advance]
    split
    next => exact .refl h
    next s hs => exact hclear hs
  | restorePut time entries stored =>
    cases entries with
    | nil => exact .refl h
    | cons e entries => exact h.restoreEntry time stored e
  | returned answer => exact .refl h

theorem System.Step.keeps {s s' : System} (hstep : s.Step s') (h : s.db.AllValid) :
    s.db.Keeps s'.db := by
  cases hstep with
  | tick _ => exact .refl h
  | call op => exact .refl h
  | advance _ => exact h.advance _ _

theorem System.Reachable.allValid {s : System} (h : s.Reachable) : s.db.AllValid := by
  induction h with
  | new h _ => exact (fresh_of_new h).inv.valid
  | step _ hstep ih => exact (hstep.keeps ih).valid

/-! ## A call with nobody in between -/

/-- Some critical sections of one call, one right after the other. -/
def Call.solo (now : Int) (k : Nat) (db : Database) (call : Call) : Database × Call :=
  (fun r : Database × Call => r.2.advance r.1 now)^[k] (db, call)

theorem Call.solo_succ (now : Int) (k : Nat) (db : Database) (call : Call) :
    Call.solo now (k + 1) db call =
      Call.solo now k (call.advance db now).1 (call.advance db now).2 :=
  Function.iterate_succ_apply ..

theorem Call.solo_add (now : Int) (j k : Nat) (db : Database) (call : Call) :
    Call.solo now (j + k) db call =
      Call.solo now j (Call.solo now k db call).1 (Call.solo now k db call).2 :=
  Function.iterate_add_apply ..

/-- The shards from `next` on after a visit. -/
def visitFrom (db : Database) (next : Nat) (f : Shard → Shard) : Database :=
  { db with shards := db.shards.take next ++ (db.shards.drop next).map f
            mask_lt := by
              have := db.mask_lt
              simp only [List.length_append, List.length_take, List.length_map, List.length_drop]
              omega }

/-- A call that does `f` to each shard in turn and gathers `g`. -/
structure Visits {β : Type} (now : Int) (shards : Nat) (f : Shard → Shard) (g : β → Shard → β)
    (mk : Nat → β → Call) : Prop where
  visit : ∀ {db : Database} {next : Nat} {acc : β} {s : Shard}, db.shards.length = shards →
    db.shards[next]? = some s →
    (mk next acc).advance db now = (db.setShard next (f s), mk (next + 1) (g acc s))

theorem Visits.solo {β : Type} {now : Int} {shards : Nat} {f : Shard → Shard} {g : β → Shard → β}
    {mk : Nat → β → Call} (h : Visits now shards f g mk) :
    ∀ (k : Nat) {db : Database} {next : Nat} {acc : β}, db.shards.length = shards →
      next + k = shards →
      Call.solo now k db (mk next acc) =
        (db.visitFrom next f, mk shards ((db.shards.drop next).foldl g acc))
  | 0, db, next, acc, hlen, hk => by
    have hdrop : db.shards.drop next = [] := List.drop_of_length_le (by omega)
    have htake : db.shards.take next = db.shards := List.take_of_length_le (by omega)
    obtain rfl : next = shards := by omega
    simp only [visitFrom, hdrop, htake, List.map_nil, List.append_nil, List.foldl_nil]
    rfl
  | k + 1, db, next, acc, hlen, hk => by
    have hlt : next < db.shards.length := by omega
    have hs := List.getElem?_eq_getElem hlt
    have hdrop := List.drop_eq_getElem_cons hlt
    rw [Call.solo_succ, h.visit hlen hs, h.solo k (by rw [setShard_length, hlen]) (by omega)]
    have hshards : (db.setShard next (f db.shards[next])).shards =
        db.shards.set next (f db.shards[next]) := rfl
    have hdrop' : (db.shards.set next (f db.shards[next])).drop (next + 1) =
        db.shards.drop (next + 1) := List.drop_set_of_lt (Nat.lt_succ_self next)
    have htake' : (db.shards.set next (f db.shards[next])).take (next + 1) =
        db.shards.take next ++ [f db.shards[next]] := by
      rw [List.take_succ_eq_append_getElem (by simpa using hlt),
        List.take_set_of_le (Nat.le_refl _)]
      simp
    simp only [visitFrom, hshards, hdrop', htake', hdrop, List.map_cons, List.foldl_cons,
      List.append_assoc, List.singleton_append]
    rfl

theorem visitFrom_zero (db : Database) (f : Shard → Shard) :
    db.visitFrom 0 f = db.mapShards fun _ => f := by
  simp only [visitFrom, mapShards, mapIdx_const, List.take_zero, List.drop_zero, List.nil_append]

theorem setShard_get {db : Database} {i : Nat} {s : Shard} (h : db.shards[i]? = some s) :
    db.setShard i s = db := by
  obtain ⟨hlt, rfl⟩ := List.getElem?_eq_some_iff.1 h
  simp only [setShard, List.set_getElem_self]

theorem mapShards_id (db : Database) : (db.mapShards fun _ shard => shard) = db := by
  simp only [mapShards, mapIdx_const, List.map_id']

theorem Visits.all {β : Type} {now : Int} {db : Database} {f : Shard → Shard} {g : β → Shard → β}
    {mk : Nat → β → Call} (h : Visits now db.shards.length f g mk) (acc : β) :
    Call.solo now db.shards.length db (mk 0 acc) =
      (db.mapShards fun _ => f, mk db.shards.length (db.shards.foldl g acc)) := by
  rw [h.solo _ rfl (Nat.zero_add _), visitFrom_zero, List.drop_zero]

section

variable (db : Database) (now : Int)

theorem visits_keys (n : Nat) : Visits now n id
    (fun acc s => acc ++ s.table.keysWhere fun entry => !entry.isExpiredAt now) Call.keys where
  visit := fun _ hs => by simp only [Call.advance, hs, id, setShard_get hs]

theorem visits_snapshot (n : Nat) : Visits now n id
    (fun acc s => acc ++ s.table.entriesWhere fun entry => !entry.isExpiredAt now)
    Call.snapshot where
  visit := fun _ hs => by simp only [Call.advance, hs, id, setShard_get hs]

theorem visits_removeExpired (n perShard : Nat) : Visits now n
    (fun s => (s.sweep perShard now).1) (fun removed s => removed + (s.sweep perShard now).2)
    (Call.removeExpired perShard) where
  visit := fun _ hs => by simp only [Call.advance, hs]

theorem visits_clear (n : Nat) : Visits now n Shard.clear (fun (_ : Unit) _ => ())
    (fun next _ => .clear next) where
  visit := fun _ hs => by simp only [Call.advance, hs]

theorem visits_setMaxMemory (n bytes : Nat) : Visits now n
    (fun s => s.limitTo (sliceOf bytes n)) (fun (_ : Unit) _ => ())
    (fun next _ => .setMaxMemory bytes next) where
  visit := fun hlen hs => by simp only [Call.advance, hs, hlen]

theorem visits_restoreClear (n : Nat) (entries : List Entry) : Visits now n Shard.clear
    (fun (_ : Unit) _ => ()) (fun next _ => .restoreClear entries next) where
  visit := fun _ hs => by simp only [Call.advance, hs]

theorem solo_restorePut : ∀ (entries : List Entry) (db : Database) (stored : Nat),
    Call.solo now (1 + entries.length) db (.restorePut now entries stored) =
      ((entries.foldl (restoreEntry now) (db, stored)).1,
        .returned (.count (entries.foldl (restoreEntry now) (db, stored)).2))
  | [], db, stored => rfl
  | e :: entries, db, stored => by
    rw [List.length_cons, ← Nat.add_assoc, Call.solo_succ]
    exact solo_restorePut entries (restoreEntry now (db, stored) e).1 _

theorem solo_last {call : Call} {r : Database × Call} {k : Nat}
    (h : Call.solo now k db call = r) :
    Call.solo now (1 + k) db call = r.2.advance r.1 now := by
  rw [Call.solo_add, h]
  rfl

/-- **A call with nobody in between does what its operation does.** -/
theorem solo_eq_step (op : Op) :
    ∃ k, Call.solo now k db (Call.of db.shards.length op) =
      ((db.step op fun _ => now).1, .returned (db.step op fun _ => now).2) := by
  have hend : ∀ (f : Shard → Shard),
      (db.mapShards fun _ => f).shards[db.shards.length]? = none := fun f =>
    List.getElem?_eq_none (by rw [mapShards_length])
  cases op with
  | keys =>
    refine ⟨_, (solo_last db now ((visits_keys now _).all [])).trans ?_⟩
    simp only [Call.advance, hend, foldl_append_eq, step, keys, mapIdx_const, List.nil_append]
    exact congrArg (·, _) db.mapShards_id
  | snapshot =>
    refine ⟨_, (solo_last db now ((visits_snapshot now _).all [])).trans ?_⟩
    simp only [Call.advance, hend, foldl_append_eq, step, snapshot, mapIdx_const, List.nil_append]
    exact congrArg (·, _) db.mapShards_id
  | removeExpired maxBuckets =>
    by_cases h0 : maxBuckets = 0
    · exact ⟨0, by simp only [Call.of, step, removeExpired, h0, if_true]; rfl⟩
    · simp only [Call.of, if_neg h0]
      refine ⟨_, (solo_last db now ((visits_removeExpired now _ _).all 0)).trans ?_⟩
      simp only [Call.advance, hend, foldl_add_eq, step, removeExpired, if_neg h0, mapIdx_const,
        Nat.zero_add]
      rfl
  | clear =>
    refine ⟨_, (solo_last db now ((visits_clear now _).all ())).trans ?_⟩
    simp only [Call.advance, hend]
    rfl
  | setMaxMemory bytes =>
    refine ⟨_, (solo_last db now ((visits_setMaxMemory now _ bytes).all ())).trans ?_⟩
    simp only [Call.advance, hend]
    rfl
  | restore entries =>
    have hclear := solo_last db now ((visits_restoreClear now _ entries).all ())
    simp only [Call.advance, hend] at hclear
    refine ⟨(1 + entries.length) + (1 + db.shards.length), ?_⟩
    rw [Call.solo_add, show Call.of db.shards.length (.restore entries) = .restoreClear entries 0
      from rfl, hclear, solo_restorePut]
    rfl
  | set key value => exact ⟨1, rfl⟩
  | setFor key value ttl => exact ⟨1, rfl⟩
  | get key => exact ⟨1, rfl⟩
  | ttl key => exact ⟨1, rfl⟩
  | existsKey key => exact ⟨1, rfl⟩
  | del key => exact ⟨1, rfl⟩

end

end Database

end VCache
