import VCache.Database.Linearize
import VCache.Database.Refinement

/-!
# What concurrent calls make of the keyspace

Beside a run of concurrent calls a map is kept of what the critical sections wrote: a `set`
binds its key when it has its shard, a `clear` forgets the keys of one shard after the other,
a `restore` binds one entry after the other. Sweeps, reads and evictions leave the map alone.

Whatever the interleaving, an answer that finds something finds what the map has. As long as
nobody has asked for a memory limit nothing else is lost either, and the answers are those of
the map.
-/

namespace VCache

open VCache.Lib

def Shard.bindings (shard : Shard) : KeyMap := fun k => (shard.table.find k).map Entry.binding

namespace Database

def bindings (db : Database) : KeyMap := fun k => (db.lookup k).map Entry.binding

/-! ### A section and the map -/

def Section.key : Section → Option Bytes
  | .writing (.set key _) | .writing (.setFor key _ _) | .writing (.del key) => some key
  | .writing (.restore entry) => some entry.key
  | _ => none

/-- What a section in shard `i` writes. -/
def Section.on (sec : Section) (r : Readings) (route : Bytes → Nat) (i : Nat) (m : KeyMap) :
    KeyMap :=
  match sec with
  | .writing (.set key value) =>
    if r.limit ≠ 0 ∧ r.limit < HashTable.footprintEstimate key value then m
    else m.bind key value none
  | .writing (.setFor key value life) =>
    if r.limit ≠ 0 ∧ r.limit < HashTable.footprintEstimate key value then m
    else m.bind key value (some (expiryAfter r.now life))
  | .writing (.del key) => m.erase key
  | .writing .clear => fun k => if route k = i then none else m k
  | .writing (.restore entry) => m.bind entry.key entry.value entry.expiration
  | _ => m

section

variable {r : Readings} {route : Bytes → Nat} {i : Nat} {m : KeyMap} {k : Bytes}

theorem Section.on_cases (sec : Section) (r : Readings) (route : Bytes → Nat) (i : Nat)
    (k : Bytes) :
    (∀ m, sec.on r route i m k = m k) ∨ ∃ b, ∀ m, sec.on r route i m k = b := by
  have hupdate : ∀ key b, (∀ m : KeyMap, Function.update m key b k = m k) ∨
      ∃ b', ∀ m : KeyMap, Function.update m key b k = b' := by
    intro key b
    by_cases hk : k = key
    · exact .inr ⟨b, fun m => by rw [hk, Function.update_self]⟩
    · exact .inl fun m => Function.update_of_ne hk ..
  unfold Section.on
  split
  · split
    · exact .inl fun m => rfl
    · exact hupdate ..
  · split
    · exact .inl fun m => rfl
    · exact hupdate ..
  · exact hupdate ..
  · split
    · exact .inr ⟨none, fun m => rfl⟩
    · exact .inl fun m => rfl
  · exact hupdate ..
  · exact .inl fun m => rfl

theorem Section.on_congr (sec : Section) {m' : KeyMap} (h : m k = m' k) :
    sec.on r route i m k = sec.on r route i m' k := by
  rcases sec.on_cases r route i k with hs | ⟨b, hs⟩
  · rw [hs, hs, h]
  · rw [hs, hs]

theorem Section.on_elsewhere (sec : Section) (hsec : ∀ key, sec.key = some key → route key = i)
    (hk : route k ≠ i) : sec.on r route i m k = m k := by
  have hupdate : ∀ key b, route key = i → Function.update m key b k = m k := by
    intro key b hkey
    refine Function.update_of_ne ?_ ..
    rintro rfl
    exact hk hkey
  unfold Section.on
  split
  · split
    · rfl
    · exact hupdate _ _ (hsec _ rfl)
  · split
    · rfl
    · exact hupdate _ _ (hsec _ rfl)
  · exact hupdate _ _ (hsec _ rfl)
  · exact if_neg hk
  · exact hupdate _ _ (hsec _ rfl)
  · rfl

end

/-! ### A section and the shard -/

theorem lookup_take (k : Bytes) (es : List Entry) (n : Nat) :
    Keyed.lookup (·.key) k (es.take n) = Keyed.lookup (·.key) k es ∨
      Keyed.lookup (·.key) k (es.take n) = none := by
  cases h : Keyed.lookup (·.key) k (es.take n) with
  | none => exact .inr rfl
  | some e =>
    left
    unfold Keyed.lookup at h ⊢
    conv_rhs => rw [← List.take_append_drop n es]
    rw [List.find?_append, h]
    rfl

theorem find_evictToFit {s : Shard} {es : List Entry} (h : s.table.Holds es) (k : Bytes) :
    s.evictToFit.table.find k = s.table.find k ∨
      (s.evictToFit.table.find k = none ∧ s.evictToFit.maxMemoryBytes ≠ 0) := by
  by_cases h0 : s.maxMemoryBytes = 0
  · left
    unfold Shard.evictToFit
    rw [if_pos h0]
  · obtain ⟨m, -, h1, -, h2⟩ := Shard.evictToFit_spec h
    rw [h1.find_eq, h.find_eq]
    refine (lookup_take k es m).imp_right fun hn => ⟨hn, ?_⟩
    rw [h2]
    exact h0

theorem evictToFit_slice {s : Shard} {es : List Entry} (h : s.table.Holds es) :
    s.evictToFit.maxMemoryBytes = s.maxMemoryBytes := by
  obtain ⟨m, -, -, -, hframe⟩ := Shard.evictToFit_spec h
  rw [hframe]

theorem Section.apply_slice (sec : Section) (r : Readings) {shard : Shard} {es : List Entry}
    (h : shard.table.Holds es) :
    (sec.apply r shard).1.maxMemoryBytes =
      match sec with
      | .writing (.setMaxMemory perShard) => perShard
      | _ => shard.maxMemoryBytes := by
  have hset : ∀ key value e,
      (Writing.setWith r.limit shard key value e).1.maxMemoryBytes = shard.maxMemoryBytes := by
    intro key value e
    unfold Writing.setWith
    split
    · rfl
    · rw [evictToFit_slice (Shard.write_spec h key value e).1, Shard.write_frame]
  cases sec with
  | reading x => exact (Reading.apply_sameBuckets ..).maxMemoryBytes
  | writing w =>
    cases w with
    | set key value => exact hset ..
    | setFor key value life => exact hset ..
    | del key =>
      simp only [Section.apply, Writing.apply]
      split <;> rfl
    | removeExpired perShard => exact Shard.sweep_frame ..
    | clear => rfl
    | setMaxMemory perShard =>
      exact evictToFit_slice (s := { shard with maxMemoryBytes := perShard }) h
    | restore entry =>
      simp only [Section.apply, Writing.apply]
      rw [Shard.write_frame]

theorem Section.apply_del (key : Bytes) (r : Readings) (shard : Shard) :
    ((Section.writing (.del key)).apply r shard).1 = shard.afterDel key := by
  simp only [Section.apply, Writing.apply, Shard.afterDel]
  split <;> simp only [*]

/-- Why a key may be gone that the map still has: there is a limit, or it had lapsed. -/
def Forgets (slice : Nat) (old : Option Entry) (now : Int) (on : KeyMap → KeyMap) (k : Bytes) :
    Prop :=
  slice ≠ 0 ∨ (∃ e, old = some e ∧ e.isExpiredAt now = true) ∧ ∀ m, on m k = m k

theorem find_write {s : Shard} {es : List Entry} (h : s.table.Holds es) (key value : Bytes)
    (x : Option Int) (k : Bytes) : (s.write key value x).1.bindings k =
      s.bindings.bind key value x k := by
  unfold Shard.bindings KeyMap.bind
  rw [(Shard.write_spec h key value x).1.find_eq, Keyed.lookup_push]
  by_cases hk : k = key
  · rw [if_pos hk, hk, Function.update_self]
    rfl
  · rw [if_neg hk, Function.update_of_ne hk, h.find_eq]

/-- **A section does to its shard what it does to the map**, but for what is forgotten. -/
theorem Section.bindings_apply {route : Bytes → Nat} {i : Nat} {shard : Shard}
    (hv : shard.Valid route i) (sec : Section) (r : Readings) {k : Bytes} (hk : route k = i) :
    (sec.apply r shard).1.bindings k = sec.on r route i shard.bindings k ∨
      ((sec.apply r shard).1.bindings k = none ∧ Forgets (sec.apply r shard).1.maxMemoryBytes
        (shard.table.find k) r.now (sec.on r route i) k) := by
  have hset : ∀ key value x,
      (Writing.setWith r.limit shard key value x).1.bindings k =
          (if r.limit ≠ 0 ∧ r.limit < HashTable.footprintEstimate key value then shard.bindings
            else shard.bindings.bind key value x) k ∨
        ((Writing.setWith r.limit shard key value x).1.bindings k = none ∧
          (Writing.setWith r.limit shard key value x).1.maxMemoryBytes ≠ 0) := by
    intro key value x
    unfold Writing.setWith
    split
    · exact .inl rfl
    · rw [← find_write hv.holds]
      have h1 := (Shard.write_spec hv.holds key value x).1
      rcases find_evictToFit h1 k with h | ⟨h, hs⟩
      · exact .inl (congrArg (Option.map Entry.binding) h)
      · exact .inr ⟨by simp only [Shard.bindings, h, Option.map_none], hs⟩
  cases sec with
  | reading x =>
    exact .inl (congrArg (Option.map Entry.binding) ((Reading.apply_sameBuckets ..).find k))
  | writing w =>
    cases w with
    | set key value =>
      rcases hset key value none with h | ⟨h, hs⟩
      · refine .inl (h.trans ?_)
        simp only [Section.on]
      · exact .inr ⟨h, .inl hs⟩
    | setFor key value life =>
      rcases hset key value (some (expiryAfter r.now life)) with h | ⟨h, hs⟩
      · refine .inl (h.trans ?_)
        simp only [Section.on]
      · exact .inr ⟨h, .inl hs⟩
    | del key =>
      left
      simp only [Section.apply_del, Shard.bindings, Section.on, KeyMap.erase]
      rw [(Shard.afterDel_spec hv.holds key).1.find_eq, Keyed.lookup_without]
      by_cases hkey : k = key
      · rw [if_pos hkey, hkey, Function.update_self]
        rfl
      · rw [if_neg hkey, Function.update_of_ne hkey]
        exact congrArg (Option.map Entry.binding) (hv.holds.find_eq k).symm
    | removeExpired perShard =>
      rcases lookup_sweep hv perShard r.now with h | ⟨h, e, he, hx⟩
      · exact .inl (congrArg (Option.map Entry.binding) h)
      · exact .inr ⟨congrArg (Option.map Entry.binding) h, .inr ⟨⟨e, he, hx⟩, fun m => rfl⟩⟩
    | clear =>
      left
      simp only [Section.apply, Writing.apply, Section.on, Shard.bindings, hk, if_true]
      rw [(Shard.clear_spec hv.holds).1.find_eq]
      rfl
    | setMaxMemory perShard =>
      rcases find_evictToFit (s := { shard with maxMemoryBytes := perShard }) hv.holds k with
        h | ⟨h, hs⟩
      · exact .inl (congrArg (Option.map Entry.binding) h)
      · exact .inr ⟨congrArg (Option.map Entry.binding) h, .inl hs⟩
    | restore entry => exact .inl (find_write hv.holds ..)

/-! ### A call and the map -/

/-- What the next section of a call writes. -/
def Call.on (db : Database) (now : Int) (call : Call) (m : KeyMap) : KeyMap :=
  match call.next db with
  | none => m
  | some (i, sec) => sec.on ⟨db.maxMemoryBytes, now⟩ db.shardIndexFor i m

theorem Call.on_cases (db : Database) (now : Int) (call : Call) (k : Bytes) :
    (∀ m, call.on db now m k = m k) ∨ ∃ b, ∀ m, call.on db now m k = b := by
  unfold Call.on
  cases call.next db with
  | none => exact .inl fun m => rfl
  | some x => exact x.2.on_cases ..

theorem Call.next_routed {db : Database} {call : Call} {i : Nat} {sec : Section}
    (h : call.next db = some (i, sec)) (key : Bytes) (hkey : sec.key = some key) :
    db.shardIndexFor key = i := by
  cases call with
  | atKey op => cases op <;> cases h <;> cases hkey <;> rfl
  | restorePut time entries stored =>
    cases entries with
    | nil => cases h
    | cons entry entries =>
      simp only [Call.next] at h
      split at h
      · cases h
      · cases h
        cases hkey
        rfl
  | returned answer => cases h
  | _ =>
    simp only [Call.next, Option.ite_none_right_eq_some, Option.some.injEq] at h
    obtain ⟨-, h⟩ := h
    cases h
    cases hkey

theorem lookup_eq_find {db : Database} {i : Nat} {shard : Shard} {k : Bytes}
    (hs : db.shards[i]? = some shard) (hk : db.shardIndexFor k = i) :
    db.lookup k = shard.table.find k := by
  have hfor := db.shards_shardFor k
  rw [hk, hs] at hfor
  rw [lookup, ← Option.some.inj hfor]

theorem bindings_setShard {db : Database} {i : Nat} {shard shard' : Shard} {k : Bytes}
    (hs : db.shards[i]? = some shard) :
    (db.setShard i shard').bindings k =
      if db.shardIndexFor k = i then shard'.bindings k else db.bindings k := by
  have hlt := (List.getElem?_eq_some_iff.1 hs).1
  unfold bindings
  split
  next hk =>
    rw [@lookup_eq_find (db.setShard i shard') i shard' k (List.getElem?_set_self hlt)
      ((congrFun (setShard_shardIndexFor ..) k).trans hk)]
    rfl
  next hk =>
    have hfor := db.shards_shardFor k
    rw [@lookup_eq_find (db.setShard i shard') (db.shardIndexFor k) (db.shardFor k) k
      ((List.getElem?_set_ne (Ne.symm hk)).trans hfor) (congrFun (setShard_shardIndexFor ..) k)]
    rfl

/-- **A step of a call does to the database what it does to the map**, but for what is lost. -/
theorem AllValid.bindings_advance {db : Database} (h : db.AllValid) (now : Int) {call : Call}
    (hmade : call.Made) (k : Bytes) :
    (call.advance db now).1.bindings k = call.on db now db.bindings k ∨
      ((call.advance db now).1.bindings k = none ∧
        Forgets ((call.advance db now).1.shardFor k).maxMemoryBytes (db.lookup k) now
          (call.on db now) k) := by
  cases hnext : call.next db with
  | none =>
    left
    obtain ⟨limit, hdb, -⟩ := hmade.advance_none now hnext
    simp only [Call.on, hnext, hdb]
    rfl
  | some x =>
    obtain ⟨i, sec⟩ := x
    obtain ⟨shard, hs, hdb⟩ := Call.advance_section now hnext
    have hon : call.on db now = sec.on ⟨db.maxMemoryBytes, now⟩ db.shardIndexFor i := by
      unfold Call.on
      rw [hnext]
    rw [hon, hdb, bindings_setShard hs]
    split
    next hk =>
      have hfind := lookup_eq_find hs hk
      have hsame : shard.bindings k = db.bindings k := by rw [bindings, hfind]; rfl
      rcases sec.bindings_apply (h i shard hs) ⟨db.maxMemoryBytes, now⟩ hk with hb | ⟨hb, hf⟩
      · exact .inl (hb.trans (sec.on_congr hsame))
      · refine .inr ⟨hb, ?_⟩
        have hfor : ((db.setShard i
            (sec.apply ⟨db.maxMemoryBytes, now⟩ shard).1).shardFor k) =
            (sec.apply ⟨db.maxMemoryBytes, now⟩ shard).1 := by
          have := shards_shardFor (db.setShard i (sec.apply ⟨db.maxMemoryBytes, now⟩ shard).1) k
          rw [setShard_shardIndexFor, hk] at this
          exact Option.some.inj (this.symm.trans
            (List.getElem?_set_self (List.getElem?_eq_some_iff.1 hs).1))
        rw [hfor, hfind]
        exact hf
    next hk => exact .inl (sec.on_elsewhere (Call.next_routed hnext) hk).symm

theorem Fresh.bindings {db : Database} (h : db.Fresh) : db.bindings = KeyMap.empty := by
  funext k
  have hs := db.shards_shardFor k
  rw [Database.bindings, lookup, (h.inv.valid _ _ hs).holds.find_eq, h.empty _ _ hs]
  rfl

/-! ### The map beside the database -/

def Op.limits : Op → Bool
  | .setMaxMemory bytes => bytes != 0
  | _ => false

structure Unlimited (db : Database) : Prop where
  slices : ∀ (i : Nat) (shard : Shard), db.shards[i]? = some shard → shard.maxMemoryBytes = 0
  limit : db.maxMemoryBytes = 0

/-- The map holds what the database holds. What else it holds was evicted, or has lapsed. -/
structure Coherent (db : Database) (clock : Int) (limited : Bool) (m : KeyMap) : Prop where
  valid : db.AllValid
  sound : ∀ k b, db.bindings k = some b → m k = some b
  unlimited : limited = false → db.Unlimited
  exact : limited = false → ∀ k, db.bindings k = m k ∨
    (db.bindings k = none ∧ ∃ v x, m k = some (v, some x) ∧ x ≤ clock)

def Call.Limitless (call : Call) : Prop := ∀ bytes next, call = .setMaxMemory bytes next → bytes = 0

theorem Call.next_slice {db : Database} {call : Call} {i perShard : Nat}
    (h : call.next db = some (i, .writing (.setMaxMemory perShard))) :
    ∃ bytes n, call = .setMaxMemory bytes n ∧ perShard = sliceOf bytes db.shards.length := by
  cases call with
  | atKey op => cases op <;> cases h
  | restorePut time entries stored =>
    cases entries with
    | nil => cases h
    | cons entry entries =>
      simp only [Call.next] at h
      split at h <;> cases h
  | returned answer => cases h
  | setMaxMemory bytes n =>
    simp only [Call.next, Option.ite_none_right_eq_some, Option.some.injEq, Prod.mk.injEq,
      Section.writing.injEq, Writing.setMaxMemory.injEq] at h
    exact ⟨bytes, n, rfl, h.2.2.symm⟩
  | _ =>
    simp only [Call.next, Option.ite_none_right_eq_some, Option.some.injEq] at h
    obtain ⟨-, h⟩ := h
    cases h

theorem Call.Limitless.advance {call : Call} (hcall : call.Limitless) (db : Database) (now : Int) :
    (call.advance db now).2.Limitless := by
  intro bytes n h
  cases call with
  | restorePut time entries stored => cases entries <;> cases h
  | atKey op => cases h
  | returned answer => cases h
  | setMaxMemory bytes' n' =>
    simp only [Call.advance] at h
    split at h
    · cases h
    · cases h
      exact hcall bytes n' rfl
  | _ =>
    simp only [Call.advance] at h
    split at h <;> cases h

theorem Call.limitless_of {op : Op} (h : op.limits = false) (shards : Nat) :
    (Call.of shards op).Limitless := by
  intro bytes n hcall
  cases op with
  | setMaxMemory bytes' =>
    cases hcall
    simpa [Op.limits] using h
  | removeExpired maxBuckets =>
    simp only [Call.of] at hcall
    split at hcall <;> cases hcall
  | _ => cases hcall

theorem Unlimited.advance {db : Database} (h : db.Unlimited) (hv : db.AllValid) {call : Call}
    (hmade : call.Made) (hcall : call.Limitless) (now : Int) :
    (call.advance db now).1.Unlimited := by
  cases hnext : call.next db with
  | none =>
    obtain ⟨limit, hdb, hlimit⟩ := hmade.advance_none now hnext
    rw [hdb]
    refine ⟨h.slices, ?_⟩
    rcases hlimit with rfl | ⟨n, rfl⟩
    · exact h.limit
    · exact hcall limit n rfl
  | some x =>
    obtain ⟨i, sec⟩ := x
    obtain ⟨shard', hs, hdb⟩ := Call.advance_section now hnext
    rw [hdb]
    refine ⟨fun j shard hj => ?_, h.limit⟩
    by_cases hij : i = j
    · subst hij
      have hset := (List.getElem?_set_self (List.getElem?_eq_some_iff.1 hs).1).symm.trans hj
      rw [← Option.some.inj hset, Section.apply_slice _ _ (hv i shard' hs).holds]
      split
      next perShard =>
        obtain ⟨bytes, n, rfl, rfl⟩ := Call.next_slice hnext
        rw [hcall bytes n rfl]
        rfl
      next => exact h.slices i shard' hs
    · exact h.slices j shard ((List.getElem?_set_ne hij).symm.trans hj)

section

variable {db : Database} {clock : Int} {limited : Bool} {m : KeyMap}

theorem Coherent.tick (h : db.Coherent clock limited m) {t : Int} (ht : clock ≤ t) :
    db.Coherent t limited m := by
  refine ⟨h.valid, h.sound, h.unlimited, fun hl k => (h.exact hl k).imp_right fun hk => ?_⟩
  obtain ⟨hn, v, x, hm, hx⟩ := hk
  exact ⟨hn, v, x, hm, Int.le_trans hx ht⟩

theorem Coherent.weaken (h : db.Coherent clock limited m) (b : Bool) :
    db.Coherent clock (limited || b) m :=
  ⟨h.valid, h.sound, fun hl => h.unlimited (Bool.or_eq_false_iff.1 hl).1,
    fun hl => h.exact (Bool.or_eq_false_iff.1 hl).1⟩

/-- **The map follows every step of a call.** -/
theorem Coherent.advance (h : db.Coherent clock limited m) {call : Call} (hmade : call.Made)
    (hcall : limited = false → call.Limitless) :
    (call.advance db clock).1.Coherent clock limited (call.on db clock m) := by
  have hstep := h.valid.bindings_advance clock hmade
  have hon := call.on_cases db clock
  refine ⟨(h.valid.advance _ _).valid, fun k b hb => ?_,
    fun hl => (h.unlimited hl).advance h.valid hmade (hcall hl) clock, fun hl k => ?_⟩
  · rcases hstep k with he | ⟨hn, -⟩
    · rw [he] at hb
      rcases hon k with hsame | ⟨b', hset⟩
      · rw [hsame] at hb ⊢
        exact h.sound k b hb
      · rw [hset] at hb ⊢
        exact hb
    · rw [hn] at hb
      cases hb
  · rcases hstep k with he | ⟨hn, hgone⟩
    · rw [he]
      rcases hon k with hsame | ⟨b', hset⟩
      · rw [hsame, hsame]
        exact h.exact hl k
      · rw [hset, hset]
        exact .inl rfl
    · -- without a limit only a sweep forgets
      rcases hgone with hslice | ⟨⟨e, he, hx⟩, hsame⟩
      · have hfree := (h.unlimited hl).advance h.valid hmade (hcall hl) clock
        exact absurd (hfree.slices _ _ (shards_shardFor ..)) hslice
      · refine .inr ⟨hn, ?_⟩
        have hmap := h.sound k e.binding (by rw [bindings, he]; rfl)
        rw [hsame, hmap]
        cases hexp : e.expiration with
        | none => simp [Entry.isExpiredAt, hexp] at hx
        | some x =>
          refine ⟨e.value, x, by rw [Entry.binding, hexp], ?_⟩
          simpa [Entry.isExpiredAt, hexp] using hx

end

theorem Fresh.coherent {db : Database} (h : db.Fresh) (clock : Int) :
    db.Coherent clock false KeyMap.empty := by
  have hempty := h.bindings
  refine ⟨h.inv.valid, fun k b hb => ?_, fun _ => ⟨fun i shard hs => ?_, h.unlimited⟩,
    fun _ k => .inl (congrFun hempty k)⟩
  · cases (congrFun hempty k).symm.trans hb
  · rw [h.inv.sliced i shard hs, h.unlimited]
    rfl

end Database

/-! ### Answers and the map -/

/-- The answers that find something find what the map has. -/
def KeyMap.Vouches (m : KeyMap) : Database.Op × Int → Database.Answer → Prop
  | (.get key, now), .value (some v) => (m.live now key).map (·.1) = some v
  | (.existsKey key, now), .flag true | (.del key, now), .flag true =>
    (m.live now key).isSome = true
  | (.ttl key, now), .seconds (some n) => m.ttl now key = some n
  | _, _ => True

namespace Database

section

variable {db : Database} {clock : Int} {limited : Bool} {m : KeyMap}

theorem Coherent.live (h : db.Coherent clock limited m) {now : Int} {k : Bytes} {e : Entry}
    (he : db.live now k = some e) : m.live now k = some e.binding := by
  obtain ⟨hl, hx⟩ := Option.filter_eq_some_iff.1 he
  refine Option.filter_eq_some_iff.2 ⟨h.sound k _ (by rw [bindings, hl]; rfl), ?_⟩
  rw [← hx, e.not_isExpiredAt]
  rfl

theorem Coherent.vouches (h : db.Coherent clock limited m) (op : Op) (now : Int) :
    m.Vouches (op, now) (db.step op fun _ => now).2 := by
  have hsome : ∀ key, (db.live now key).isSome = true → (m.live now key).isSome = true := by
    intro key hs
    obtain ⟨e, he⟩ := Option.isSome_iff_exists.1 hs
    rw [h.live he]
    rfl
  cases op with
  | get key =>
    change m.Vouches (.get key, now) (.value (db.get key now).2)
    rw [get_value]
    cases he : db.live now key with
    | none => trivial
    | some e =>
      change (m.live now key).map (·.1) = some e.value
      rw [h.live he]
      rfl
  | existsKey key =>
    change m.Vouches (.existsKey key, now) (.flag (db.existsKey key now))
    rw [existsKey_eq]
    cases he : (db.live now key).isSome with
    | false => trivial
    | true => exact hsome key he
  | del key =>
    change m.Vouches (.del key, now) (.flag (db.del key now).2)
    rw [del_eq]
    cases he : (db.live now key).isSome with
    | false => trivial
    | true => exact hsome key he
  | ttl key =>
    change m.Vouches (.ttl key, now) (.seconds (db.ttl key now))
    cases ht : db.ttl key now with
    | none => trivial
    | some n =>
      change m.ttl now key = some n
      rw [ttl_eq] at ht
      obtain ⟨x, hx, rfl⟩ := Option.map_eq_some_iff.1 ht
      obtain ⟨e, he, hx⟩ := Option.bind_eq_some_iff.1 hx
      have hlive := (Option.filter_eq_some_iff.1 he).2
      rw [e.not_isExpiredAt, hx] at hlive
      rw [KeyMap.ttl, h.live he, ceilSeconds_eq (Int.sub_pos_of_lt (of_decide_eq_true hlive))]
      simp only [Entry.binding, hx, Option.bind_some, Option.map_some]
  | _ => trivial

theorem Coherent.tracks (h : db.Coherent clock limited m) (hl : limited = false) :
    db.Tracks clock m where
  inv := by
    refine ⟨h.valid, fun i shard hs => ?_⟩
    rw [(h.unlimited hl).slices i shard hs, (h.unlimited hl).limit]
    rfl
  unlimited := (h.unlimited hl).limit
  same := fun k => (h.exact hl k).imp_right fun hk => ⟨Option.map_eq_none_iff.1 hk.1, hk.2⟩

theorem Coherent.allows (h : db.Coherent clock limited m) (hl : limited = false) {op : Op}
    {x : Bytes × Section} (hop : op.section = some x) :
    m.Allows (op, clock) (db.step op fun _ => clock).2 :=
  (h.tracks hl).answer (Int.le_refl _) (by cases op <;> trivial)

end

/-! ### Runs and the map -/

/-- A system, the map of what was written, and whether a limit was ever asked for. -/
structure Watched where
  sys : System
  map : KeyMap := KeyMap.empty
  limited : Bool := false

namespace Watched

inductive Step : Watched → Watched → Prop where
  | tick {w : Watched} {t : Int} : w.sys.clock ≤ t →
      Step w { w with sys := { w.sys with clock := t } }
  | call {w : Watched} (op : Op) :
      Step w { w with
        sys := { w.sys with calls := w.sys.calls ++ [Call.of w.sys.db.shards.length op] }
        limited := w.limited || op.limits }
  | advance {w : Watched} {c : Nat} {call : Call} : w.sys.calls[c]? = some call →
      Step w { w with
        sys := { w.sys with
          db := (call.advance w.sys.db w.sys.clock).1
          calls := w.sys.calls.set c (call.advance w.sys.db w.sys.clock).2 }
        map := call.on w.sys.db w.sys.clock w.map }

inductive Reachable : Watched → Prop where
  | new {n shardCount : UInt64} {db : Database} (h : new n shardCount = some db) (clock : Int) :
      Reachable { sys := { db, clock } }
  | step {w w' : Watched} : Reachable w → Step w w' → Reachable w'

/-- Watching gets in the way of nothing. -/
theorem exists_of_reachable {s : System} (h : s.Reachable) :
    ∃ w : Watched, w.Reachable ∧ w.sys = s := by
  induction h with
  | new h clock => exact ⟨_, .new h clock, rfl⟩
  | step _ hs ih =>
    obtain ⟨w, hw, rfl⟩ := ih
    cases hs with
    | tick hle => exact ⟨_, hw.step (.tick hle), rfl⟩
    | call op => exact ⟨_, hw.step (.call op), rfl⟩
    | advance hc => exact ⟨_, hw.step (.advance hc), rfl⟩

structure Inv (w : Watched) : Prop where
  coherent : w.sys.db.Coherent w.sys.clock w.limited w.map
  made : ∀ call ∈ w.sys.calls, call.Made
  limitless : w.limited = false → ∀ call ∈ w.sys.calls, call.Limitless

theorem Step.inv {w w' : Watched} (hs : Step w w') (h : w.Inv) : w'.Inv := by
  cases hs with
  | tick hle => exact ⟨h.coherent.tick hle, h.made, h.limitless⟩
  | call op =>
    refine ⟨h.coherent.weaken op.limits, fun call hmem => ?_, fun hl call hmem => ?_⟩
    · rcases List.mem_append.1 hmem with hmem | hmem
      · exact h.made call hmem
      · rw [List.mem_singleton.1 hmem]
        exact Call.made_of w.sys.db.shards.length op
    · obtain ⟨hl, hop⟩ := Bool.or_eq_false_iff.1 hl
      rcases List.mem_append.1 hmem with hmem | hmem
      · exact h.limitless hl call hmem
      · rw [List.mem_singleton.1 hmem]
        exact Call.limitless_of hop w.sys.db.shards.length
  | @advance c call hc =>
    have hmem := List.mem_of_getElem? hc
    refine ⟨h.coherent.advance (h.made call hmem) fun hl => h.limitless hl call hmem,
      fun call' hmem' => ?_, fun hl call' hmem' => ?_⟩
    · rcases List.mem_or_eq_of_mem_set hmem' with hmem' | rfl
      · exact h.made call' hmem'
      · exact Call.made_advance call w.sys.db w.sys.clock
    · rcases List.mem_or_eq_of_mem_set hmem' with hmem' | rfl
      · exact h.limitless hl call' hmem'
      · exact (h.limitless hl call hmem).advance w.sys.db w.sys.clock

/-- A call that somebody keeps for themselves goes on. -/
def goOn (w : Watched) (call : Call) : Watched :=
  { w with
    sys := { w.sys with db := (call.advance w.sys.db w.sys.clock).1 }
    map := call.on w.sys.db w.sys.clock w.map }

theorem Inv.goOn {w : Watched} (h : w.Inv) {call : Call} (hmade : call.Made)
    (hfree : call.Limitless) : (w.goOn call).Inv :=
  ⟨h.coherent.advance hmade fun _ => hfree, h.made, h.limitless⟩

theorem Inv.keeps_goOn {w : Watched} (h : w.Inv) (call : Call) :
    w.sys.db.Keeps (w.goOn call).sys.db :=
  h.coherent.valid.advance w.sys.clock call

theorem Step.shape {w w' : Watched} (hs : Step w w') (h : w.Inv) :
    w'.sys.db.shardIndexFor = w.sys.db.shardIndexFor ∧ ∃ b, w'.limited = (w.limited || b) := by
  cases hs with
  | tick _ => exact ⟨rfl, false, (Bool.or_false _).symm⟩
  | call op => exact ⟨rfl, op.limits, rfl⟩
  | advance _ => exact ⟨(h.coherent.valid.advance _ _).route, false, (Bool.or_false _).symm⟩

theorem Step.count {w w' : Watched} (hs : Step w w') (h : w.Inv) :
    w'.sys.db.shards.length = w.sys.db.shards.length := by
  cases hs with
  | tick _ => rfl
  | call _ => rfl
  | advance _ => exact (h.coherent.valid.advance _ _).count

theorem Reachable.inv {w : Watched} (h : w.Reachable) : w.Inv := by
  induction h with
  | new hnew clock =>
    exact ⟨(fresh_of_new hnew).coherent clock, fun call hc => (by cases hc),
      fun _ call hc => (by cases hc)⟩
  | step _ hs ih => exact hs.inv ih

end Watched

end Database

end VCache
