import Mathlib.Algebra.Order.Floor.Ring
import Mathlib.Data.Rat.Floor
import Mathlib.Tactic.Linarith
import VCache.Database.Reads
import VCache.Lib.Machine

/-!
# The database is a finite map with expiry

Without a memory limit, a database of any number of shards and buckets answers like a
map from keys to a value and an optional expiry, in which an entry is absent from the
instant of its expiry on. Sweeps, growth and routing cannot be seen in the answers.
-/

namespace VCache

open VCache.Lib VCache.Lib.Machine Database

/-- What the database is for: keys bound to a value and an optional expiry. -/
abbrev KeyMap := Bytes → Option (Bytes × Option Int)

namespace KeyMap

def empty : KeyMap := fun _ => none

def bind (m : KeyMap) (key value : Bytes) (expiry : Option Int) : KeyMap :=
  Function.update m key (some (value, expiry))

def erase (m : KeyMap) (key : Bytes) : KeyMap := Function.update m key none

/-- The binding of a key, absent from the instant of its expiry on. -/
def live (m : KeyMap) (now : Int) (key : Bytes) : Option (Bytes × Option Int) :=
  (m key).filter fun b => b.2.all fun e => decide (now < e)

/-- Remaining lifetime in seconds, rounded up. -/
def ttl (m : KeyMap) (now : Int) (key : Bytes) : Option Int :=
  ((m.live now key).bind (·.2)).map fun e => ⌈((e - now : Int) : ℚ) / 1000000000⌉

def next (m : KeyMap) : Op × Int → KeyMap
  | (.set key value, _) => m.bind key value none
  | (.setFor key value ttl, now) => m.bind key value (some (now + ttl * 1000000000))
  | (.del key, _) => m.erase key
  | (.clear, _) => empty
  | _ => m

/-- The answers that fit the map. -/
def Allows (m : KeyMap) : Op × Int → Answer → Prop
  | (.get key, now), a => a = .value ((m.live now key).map (·.1))
  | (.existsKey key, now), a => a = .flag (m.live now key).isSome
  | (.ttl key, now), a => a = .seconds (m.ttl now key)
  | (.del key, now), a => a = .flag (m.live now key).isSome
  | (.keys, now), a => ∃ ks, a = .keys ks ∧ ks.Nodup ∧ ∀ k, k ∈ ks ↔ (m.live now k).isSome
  | (.snapshot, now), a => ∃ es, a = .entries es ∧ (es.map (·.key)).Nodup ∧
      ∀ e, e ∈ es ↔ m.live now e.key = some (e.value, e.expiration)
  | (.set _ _, _), a | (.setFor _ _ _, _), a => ∃ o, a = .outcome o ∧ o ≠ .rejected
  | (.removeExpired _, _), a | (.restore _, _), a => ∃ n, a = .count n
  | (.clear, _), a | (.setMaxMemory _, _), a => a = .done

def spec : Spec KeyMap (Op × Int) Answer := ⟨next, Allows⟩

end KeyMap

namespace Database

/-- The operations on the keyspace alone. -/
def Op.OnKeyspace : Op → Prop
  | .setMaxMemory _ | .restore _ => False
  | _ => True

def Op.isSweep : Op → Bool
  | .removeExpired _ => true
  | _ => false

def stepAt (db : Database) (x : Op × Int) : Database × Answer := db.step x.1 fun _ => x.2

/-- The operation gives no key a moment of expiry that the clock cannot count. -/
def Op.InRange (now : Int) : Op → Prop
  | .setFor _ _ life => LifetimeFits now life
  | _ => True

/-- A run of operations on the keyspace whose instants never decrease. -/
structure Timely (ops : List (Op × Int)) : Prop where
  keyspace : ∀ x ∈ ops, x.1.OnKeyspace
  inRange : ∀ x ∈ ops, x.1.InRange x.2
  ordered : ops.Pairwise fun x y => x.2 ≤ y.2

/-! ## What a step does to the stored entries -/

theorem Inv.unlimited {db : Database} (h : db.Inv) (h0 : db.maxMemoryBytes = 0) (key : Bytes) :
    (db.shardFor key).maxMemoryBytes = 0 := by
  rw [h.sliced _ _ (db.shards_shardFor key), h0]; rfl

theorem lookup_store {route : Bytes → Nat} {s : Shard} {k : Bytes} (hv : s.Valid route (route k))
    (h : s.maxMemoryBytes = 0) (key value : Bytes) (e : Option Int) :
    (if route key = route k ∧ (0 = 0 ∨ HashTable.footprintEstimate key value ≤ 0) then
        (s.write key value e).1.evictToFit else s).table.find k =
      if k = key then some { key, value, expiration := e } else s.table.find k := by
  by_cases hr : route key = route k
  · have hfit : (s.write key value e).1.evictToFit = (s.write key value e).1 :=
      if_pos (by rw [Shard.write_frame]; exact h)
    rw [if_pos ⟨hr, .inl rfl⟩, hfit, (Shard.write_spec hv.holds key value e).1.find_eq,
      Keyed.lookup_push, hv.holds.find_eq]
  · rw [if_neg (fun h => hr h.1), if_neg]
    intro hk; rw [hk] at hr; exact hr rfl

theorem lookup_erase {route : Bytes → Nat} {s : Shard} {k : Bytes} (hv : s.Valid route (route k))
    (key : Bytes) :
    (if route key = route k then s.afterDel key else s).table.find k =
      if k = key then none else s.table.find k := by
  by_cases hk : k = key
  · subst hk
    rw [if_pos rfl, if_pos rfl, (Shard.afterDel_spec hv.holds k).1.find_eq, Keyed.lookup_without,
      if_pos rfl]
  · rw [if_neg hk]
    split
    · rw [(Shard.afterDel_spec hv.holds key).1.find_eq, Keyed.lookup_without, if_neg hk,
        hv.holds.find_eq]
    · rfl

theorem lookup_sweep {route : Bytes → Nat} {s : Shard} {i : Nat} {k : Bytes} (hv : s.Valid route i)
    (perShard : Nat) (now : Int) :
    (s.sweep perShard now).1.table.find k = s.table.find k ∨
      ((s.sweep perShard now).1.table.find k = none ∧
        ∃ e, s.table.find k = some e ∧ e.isExpiredAt now) := by
  obtain ⟨gone, hg, h1, -⟩ := Shard.sweep_spec hv.holds perShard now
  rw [h1.find_eq, hv.holds.distinct.lookup_filter, hv.holds.find_eq]
  cases hf : Keyed.lookup (·.key) k s.entries with
  | none => exact .inl rfl
  | some e =>
    by_cases he : gone e
    · exact .inr ⟨by simp [he], e, rfl, hg e he⟩
    · exact .inl (by simp [he])

/-- The entry an operation leaves under `k`, sweeps apart. -/
def leaves (k : Bytes) (old : Option Entry) : Op × Int → Option Entry
  | (.set key value, _) => if k = key then some { key, value } else old
  | (.setFor key value ttl, now) =>
    if k = key then some { key, value, expiration := some (expiryAfter now ttl) } else old
  | (.del key, _) => if k = key then none else old
  | (.clear, _) => none
  | _ => old

theorem lookup_step {db : Database} (h : db.Inv) (h0 : db.maxMemoryBytes = 0) {op : Op}
    (hop : op.OnKeyspace) (now : Int) (k : Bytes) :
    (db.stepAt (op, now)).1.lookup k = leaves k (db.lookup k) (op, now) ∨
      (op.isSweep ∧ (db.stepAt (op, now)).1.lookup k = none ∧
        ∃ e, db.lookup k = some e ∧ e.isExpiredAt now) := by
  have hv := h.shardFor k
  have hs := h.unlimited h0 k
  unfold stepAt lookup
  rw [step_shardFor, h0]
  generalize db.shardFor k = s at hv hs ⊢
  cases op with
  | set key value => exact .inl (lookup_store hv hs key value none)
  | setFor key value ttl => exact .inl (lookup_store hv hs key value _)
  | get key =>
    left
    unfold onShard leaves; dsimp only
    split
    · rw [(Shard.afterGet_spec hv.holds key now).1.find_eq, hv.holds.find_eq, if_neg (by simp [hs])]
    · rfl
  | del key => exact .inl (lookup_erase hv key)
  | removeExpired maxBuckets =>
    unfold onShard leaves; dsimp only
    split
    · exact .inl rfl
    · exact (lookup_sweep hv _ now).imp_right fun hgone => ⟨rfl, hgone⟩
  | clear =>
    left
    show (s.clear.table.find k) = none
    rw [(Shard.clear_spec hv.holds).1.find_eq]; rfl
  | setMaxMemory _ => exact hop.elim
  | restore _ => exact hop.elim
  | ttl _ => exact .inl rfl
  | existsKey _ => exact .inl rfl
  | keys => exact .inl rfl
  | snapshot => exact .inl rfl

/-! ## Simulation -/

end Database

def Entry.binding (e : Entry) : Bytes × Option Int := (e.value, e.expiration)

theorem Entry.not_isExpiredAt (e : Entry) (now : Int) :
    (!e.isExpiredAt now) = e.expiration.all fun x => decide (now < x) := by
  unfold Entry.isExpiredAt
  cases h : e.expiration with
  | none => simp
  | some x =>
    by_cases hx : x ≤ now
    · simp [hx]
    · simp [hx, Int.not_le.1 hx]

namespace Database

/-- The map holds what the database holds; in addition it may hold entries that a sweep
has reclaimed, which are past their expiry. -/
structure Tracks (now : Int) (db : Database) (m : KeyMap) : Prop where
  inv : db.Inv
  unlimited : db.maxMemoryBytes = 0
  same : ∀ k, (db.lookup k).map Entry.binding = m k ∨
    (db.lookup k = none ∧ ∃ v e, m k = some (v, some e) ∧ e ≤ now)

theorem leaves_binding {k : Bytes} {old : Option Entry} {m : KeyMap} (x : Op × Int)
    (hx : x.1.InRange x.2) (h : old.map Entry.binding = m k) :
    (leaves k old x).map Entry.binding = m.next x k := by
  obtain ⟨op, now⟩ := x
  cases op with
  | set key value =>
    unfold leaves KeyMap.next KeyMap.bind
    by_cases hk : k = key
    · subst hk; simp [Entry.binding]
    · simp [hk, h]
  | setFor key value ttl =>
    have hexpiry := LifetimeFits.expiryAfter_eq (show LifetimeFits now ttl from hx)
    unfold leaves KeyMap.next KeyMap.bind
    by_cases hk : k = key
    · subst hk; simp [Entry.binding, hexpiry, second]
    · simp [hk, h]
  | del key =>
    unfold leaves KeyMap.next KeyMap.erase
    by_cases hk : k = key
    · subst hk; simp
    · simp [hk, h]
  | clear => rfl
  | _ => exact h

theorem Tracks.live_eq {t now : Int} {db : Database} {m : KeyMap} (h : db.Tracks t m)
    (ht : t ≤ now) (k : Bytes) : (db.live now k).map Entry.binding = m.live now k := by
  unfold Database.live KeyMap.live
  rcases h.same k with hs | ⟨hn, v, e, hm, he⟩
  · rw [← hs]
    cases db.lookup k with
    | none => rfl
    | some e =>
      simp only [Option.filter_some, Option.map_some, e.not_isExpiredAt now, Entry.binding]
      split <;> rfl
  · have : ¬ now < e := Int.not_lt.2 (Int.le_trans he ht)
    rw [hn, hm]; simp [Option.filter, this]

/-- `std::chrono::ceil` rounds up. -/
theorem ceilSeconds_eq {d : Int} (hd : 0 < d) : ceilSeconds d = ⌈(d : ℚ) / 1000000000⌉ := by
  have hdiv := Int.tmod_add_tdiv_mul d second
  have hmod := Int.tmod_lt_of_pos d (b := second) (by decide)
  have hnn := Int.tmod_nonneg second hd.le
  unfold ceilSeconds
  unfold second at *
  dsimp only
  symm
  rw [Int.ceil_eq_iff]
  split
  next h =>
    have h1 : (((d.tdiv 1000000000 * 1000000000 : Int)) : ℚ) < d := by exact_mod_cast h
    have h2 : (d : ℚ) ≤ ((d.tdiv 1000000000 + 1) * 1000000000 : Int) := by
      exact_mod_cast (by omega)
    push_cast at h1 h2 ⊢
    constructor
    · rw [lt_div_iff₀ (by norm_num)]; linarith
    · rw [div_le_iff₀ (by norm_num)]; linarith
  next h =>
    have h1 : (d : ℚ) = (d.tdiv 1000000000 * 1000000000 : Int) := by exact_mod_cast (by omega)
    push_cast at h1 ⊢
    constructor
    · rw [lt_div_iff₀ (by norm_num)]; linarith
    · rw [div_le_iff₀ (by norm_num)]; linarith

theorem Tracks.ttl_eq {t now : Int} {db : Database} {m : KeyMap} (h : db.Tracks t m)
    (ht : t ≤ now) (k : Bytes) : db.ttl k now = m.ttl now k := by
  rw [Database.ttl_eq, KeyMap.ttl, ← h.live_eq ht]
  unfold Database.live
  cases db.lookup k with
  | none => rfl
  | some e =>
    rw [Option.filter_some, e.not_isExpiredAt]
    cases he : e.expiration with
    | none => simp [Entry.binding, he]
    | some x =>
      by_cases hx : now < x
      · simp [Entry.binding, he, hx, ceilSeconds_eq (Int.sub_pos_of_lt hx)]
      · simp [hx]

theorem Tracks.answer {t now : Int} {db : Database} {m : KeyMap} (h : db.Tracks t m)
    (ht : t ≤ now) {op : Op} (hop : op.OnKeyspace) :
    m.Allows (op, now) (db.stepAt (op, now)).2 := by
  have hlive := h.live_eq ht
  have hset : ∀ key value e, (db.setWith key value e).2 ≠ .rejected := by
    intro key value e
    unfold setWith fitsWithinLimit
    simp only [if_pos h.unlimited, Bool.not_true, Bool.false_eq_true, if_false]
    split <;> simp
  cases op with
  | set key value => exact ⟨_, rfl, hset key value none⟩
  | setFor key value ttl => exact ⟨_, rfl, hset key value _⟩
  | get key =>
    show Answer.value (db.get key now).2 = _
    rw [get_value, ← hlive key, Option.map_map]; rfl
  | ttl key =>
    show Answer.seconds (db.ttl key now) = _
    rw [h.ttl_eq ht]
  | existsKey key =>
    show Answer.flag (db.existsKey key now) = _
    rw [existsKey_eq, ← hlive key, Option.isSome_map]
  | del key =>
    show Answer.flag (db.del key now).2 = _
    rw [del_eq, ← hlive key, Option.isSome_map]
  | keys =>
    refine ⟨_, rfl, h.inv.keys_nodup _, fun k => ?_⟩
    rw [h.inv.mem_keys, ← hlive k, Option.isSome_map]
  | snapshot =>
    refine ⟨_, rfl, h.inv.snapshot_distinct _, fun e => ?_⟩
    rw [h.inv.mem_snapshot_const, ← hlive e.key]
    refine ⟨fun he => by rw [he]; rfl, fun he => ?_⟩
    obtain ⟨e', he', hb⟩ := Option.map_eq_some_iff.1 he
    have hk := h.inv.key_of_lookup (Option.filter_eq_some_iff.1 he').1
    obtain ⟨k, v, x⟩ := e
    obtain ⟨k', v', x'⟩ := e'
    simp only [Entry.binding, Prod.mk.injEq] at hb hk
    obtain ⟨rfl, rfl⟩ := hb
    subst hk
    exact he'
  | removeExpired maxBuckets => exact ⟨_, rfl⟩
  | clear => rfl
  | setMaxMemory _ => exact hop.elim
  | restore _ => exact hop.elim

theorem leaves_none (k : Bytes) (m : KeyMap) (x : Op × Int) (hx : x.1.InRange x.2) :
    (leaves k none x).map Entry.binding = m.next x k ∨
      (leaves k none x = none ∧ m.next x k = m k) := by
  obtain ⟨op, now⟩ := x
  cases op with
  | set key value =>
    unfold leaves KeyMap.next KeyMap.bind
    by_cases hk : k = key
    · subst hk; left; simp [Entry.binding]
    · right; simp [hk]
  | setFor key value ttl =>
    have hexpiry := LifetimeFits.expiryAfter_eq (show LifetimeFits now ttl from hx)
    unfold leaves KeyMap.next KeyMap.bind
    by_cases hk : k = key
    · subst hk; left; simp [Entry.binding, hexpiry, second]
    · right; simp [hk]
  | del key =>
    unfold leaves KeyMap.next KeyMap.erase
    by_cases hk : k = key
    · subst hk; left; simp
    · right; simp [hk]
  | clear => exact .inl rfl
  | _ => exact .inr ⟨rfl, rfl⟩

theorem Tracks.step {t now : Int} {db : Database} {m : KeyMap} (h : db.Tracks t m)
    (ht : t ≤ now) {op : Op} (hop : op.OnKeyspace) (hx : op.InRange now) :
    (db.stepAt (op, now)).1.Tracks now (m.next (op, now)) := by
  refine ⟨h.inv.step op _, ?_, fun k => ?_⟩
  · show (db.step op fun _ => now).1.maxMemoryBytes = 0
    rw [(db.step_shape op _).2.2]
    cases op <;> first | exact h.unlimited | exact hop.elim
  · rcases lookup_step h.inv h.unlimited hop now k with hl | ⟨hsw, hl, e, he, hlapsed⟩
    · rw [hl]
      rcases h.same k with hs | ⟨hn, v, e, hm, he⟩
      · exact .inl (leaves_binding _ hx hs)
      · rw [hn]
        rcases leaves_none k m (op, now) hx with h1 | ⟨h1, h2⟩
        · exact .inl h1
        · exact .inr ⟨h1, v, e, h2.trans hm, Int.le_trans he ht⟩
    · right
      have hm : m k = some e.binding := by
        rcases h.same k with hs | ⟨hn, -⟩
        · rw [← hs, he]; rfl
        · rw [hn] at he; cases he
      have hnext : m.next (op, now) = m := by cases op <;> first | rfl | cases hsw
      unfold Entry.isExpiredAt at hlapsed
      cases hexp : e.expiration with
      | none => rw [hexp] at hlapsed; cases hlapsed
      | some x =>
        rw [hexp] at hlapsed
        refine ⟨hl, e.value, x, ?_, by simpa using hlapsed⟩
        rw [hnext, hm, Entry.binding, hexp]

/-! ## Runs -/

def answersTo (db : Database) (ops : List (Op × Int)) : List Answer := answers stepAt db ops

theorem Fresh.tracks {db : Database} (h : db.Fresh) (t : Int) : db.Tracks t KeyMap.empty := by
  refine ⟨h.inv, h.unlimited, fun k => .inl ?_⟩
  rw [h.inv.lookup_eq, h.empty _ _ (db.shards_shardFor k)]; rfl

theorem Fresh.explained {db : Database} (h : db.Fresh) {ops : List (Op × Int)} (ht : Timely ops) :
    KeyMap.spec.Explains KeyMap.empty ops (db.answersTo ops) := by
  have hsim : ∀ (t : Int) (db : Database) (m : KeyMap) (x : Op × Int), Tracks t db m → t ≤ x.2 →
      x.1.OnKeyspace ∧ x.1.InRange x.2 →
      KeyMap.spec.Allows m x (db.stepAt x).2 ∧ Tracks x.2 (db.stepAt x).1 (KeyMap.spec.next m x) :=
    fun t db m x hR hx hop => ⟨hR.answer hx hop.1, hR.step hx hop.1 hop.2⟩
  cases ops with
  | nil => trivial
  | cons x ops =>
    obtain ⟨hle, -⟩ := List.pairwise_cons.1 ht.ordered
    exact Spec.explains_of_simulation hsim (x :: ops) (h.tracks x.2)
      (List.forall_mem_cons.2 ⟨Int.le_refl _, hle⟩) ht.ordered
      fun y hy => ⟨ht.keyspace y hy, ht.inRange y hy⟩

end Database

end VCache
