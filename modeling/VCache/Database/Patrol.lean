import VCache.Database.Audit
import VCache.Database.Sweep

/-!
# Sweeping while other calls go on

Sweeps go round a shard's buckets a few at a time. Between two of them others write, delete,
evict and clear, and the table may double under the hand. Whatever happens, once the sweeps
since some moment have scanned twice as many buckets as the shard has by now, less those it
had then, nothing is left in it that had expired at that moment.

Behind the hand there is a stretch of buckets without such entries. Writes bring none, and a
table that doubles has to be gone over again, but all scans of the smaller tables together are
fewer than its buckets.
-/

namespace VCache

open VCache.Lib

namespace Shard

def Clean (t₀ : Int) (s : Shard) (i : Nat) : Prop :=
  ∀ e ∈ s.entries, s.table.bucketIndexFor e.key = i → e.isExpiredAt t₀ = false

/-- How far sweeps have come that had `b₀` buckets before them at `t₀` and have scanned `scanned`
since: nothing of then is left, or a stretch behind the hand is clean. -/
def Patrolled (t₀ : Int) (b₀ scanned : Nat) (s : Shard) : Prop :=
  (∀ e ∈ s.entries, e.isExpiredAt t₀ = false) ∨
    ∃ n, Behind s.table.bucketCount (s.Clean t₀) s.start n ∧
      scanned + b₀ ≤ n + s.table.bucketCount

section

variable {t₀ : Int} {b₀ scanned : Nat} {s s' : Shard}

theorem Patrolled.begin (t₀ : Int) (s : Shard) : s.Patrolled t₀ s.table.bucketCount 0 :=
  .inr ⟨0, .start, Nat.le_refl _⟩

theorem bucketIndexFor_lt (h : s.table.Holds s.entries) {e : Entry} (he : e ∈ s.entries) :
    s.table.bucketIndexFor e.key < s.table.bucketCount := by
  have hb := (h.load (List.ne_nil_of_mem he)).1
  obtain ⟨⟨l, hl, -⟩, -⟩ := id h
  exact hl.toStored.slot_lt (by simpa [HashTable.bucketCount] using hb) e.key

/-- The hand has been all the way round. -/
theorem clean_of_behind {n : Nat} (h : s.table.Holds s.entries)
    (hn : Behind s.table.bucketCount (s.Clean t₀) s.start n) (hle : s.table.bucketCount ≤ n) :
    ∀ e ∈ s.entries, e.isExpiredAt t₀ = false :=
  fun e he => hn.all hle (bucketIndexFor_lt h he) e he rfl

theorem Patrolled.done (h : s.Patrolled t₀ b₀ scanned) (hholds : s.table.Holds s.entries)
    (hdone : 2 * s.table.bucketCount ≤ scanned + b₀) :
    ∀ e ∈ s.entries, e.isExpiredAt t₀ = false := by
  rcases h with h | ⟨n, hn, hle⟩
  · exact h
  · exact clean_of_behind hholds hn (by omega)

theorem Patrolled.stay (h : s.Patrolled t₀ b₀ scanned) (hholds : s.table.Holds s.entries)
    (hmem : ∀ e ∈ s'.entries, e ∈ s.entries ∨ e.isExpiredAt t₀ = false)
    (hb : s'.table.bucketCount = s.table.bucketCount ∨
      2 * s.table.bucketCount ≤ s'.table.bucketCount)
    (hcursor : s'.sweepCursor = s.sweepCursor) : s'.Patrolled t₀ b₀ scanned := by
  have hall : (∀ e ∈ s.entries, e.isExpiredAt t₀ = false) → s'.Patrolled t₀ b₀ scanned :=
    fun hclean => .inl fun e he => (hmem e he).elim (hclean e) id
  rcases h with h | ⟨n, hn, hle⟩
  · exact hall h
  · rcases hb with hb | hb
    · have hslot : s'.table.bucketIndexFor = s.table.bucketIndexFor := by
        funext key
        exact congrArg (HashTable.slotFor · key) hb
      have hstart : s'.start = s.start := by rw [start, start, hcursor, hb]
      refine .inr ⟨n, ?_, by rw [hb]; exact hle⟩
      rw [hstart, hb]
      refine hn.mono fun i hi e he hslot' => ?_
      rcases hmem e he with he | hlive
      · exact hi e he (by rw [← hslot']; exact congrFun hslot.symm e.key)
      · exact hlive
    · -- a larger table: once around is needed again, unless that was done before
      rcases Nat.lt_or_ge n s.table.bucketCount with hlt | hge
      · exact .inr ⟨0, .start, by omega⟩
      · exact hall (clean_of_behind hholds hn hge)

theorem Patrolled.sweep (h : s.Patrolled t₀ b₀ scanned) (hholds : s.table.Holds s.entries)
    (perShard : Nat) {now : Int} (hnow : t₀ ≤ now) :
    (s.sweep perShard now).1.Patrolled t₀ b₀ (scanned + min perShard s.table.bucketCount) := by
  by_cases hb : s.table.bucketCount = 0
  · left
    intro e he
    obtain ⟨es, hes, hsub⟩ := (thins_sweep hholds perShard now).holds
    rw [entries, hes.entries_eq] at he
    exact absurd hb (hholds.load (List.ne_nil_of_mem (hsub.subset he))).1
  · obtain ⟨h1, hstart⟩ := sweep_window hholds hb perShard now
    have hcount := (thins_sweep hholds perShard now).bucketCount
    have hslot : (s.sweep perShard now).1.table.bucketIndexFor = s.table.bucketIndexFor := by
      funext key
      exact congrArg (HashTable.slotFor · key) hcount
    have hmem : ∀ e ∈ (s.sweep perShard now).1.entries, e ∈ s.entries ∧
        (HashTable.inWindow s.start 0 (min perShard s.table.bucketCount) s.table.bucketCount
          (s.table.bucketIndexFor e.key) && e.isExpiredAt now) = false := by
      intro e he
      rw [entries, h1.entries_eq, List.mem_filter, Bool.not_eq_true'] at he
      exact he
    rcases h with h | ⟨n, hn, hle⟩
    · exact .inl fun e he => h e (hmem e he).1
    · refine .inr ⟨n + min perShard s.table.bucketCount, ?_, by rw [hcount]; omega⟩
      rw [hcount, hstart]
      refine Behind.pass (hn.mono fun i hi e he hi' => ?_) fun o ho e he hi' => ?_
      · exact hi e (hmem e he).1 (by rw [← hi', hslot])
      · -- in the window
        have hin : HashTable.inWindow s.start 0 (min perShard s.table.bucketCount)
            s.table.bucketCount (s.table.bucketIndexFor e.key) = true := by
          unfold HashTable.inWindow
          rw [List.any_eq_true]
          exact ⟨o, by simpa using ho, by rw [← hi', hslot]; simp⟩
        have hlive := (hmem e he).2
        rw [hin, Bool.true_and] at hlive
        exact Entry.isExpiredAt_anti hnow hlive

end

theorem write_bucketCount {s : Shard} {es : List Entry} (h : s.table.Holds es) (key value : Bytes)
    (x : Option Int) : (s.write key value x).1.table.bucketCount = s.table.bucketCount ∨
      2 * s.table.bucketCount ≤ (s.write key value x).1.table.bucketCount := by
  rw [(write_spec h key value x).2.2]
  unfold HashTable.grownTo HashTable.usableBuckets
  split <;> split <;> omega

end Shard

namespace Database

/-! ### Sections -/

section

variable {sec : Section} {r : Readings} {s s' : Shard}

theorem Section.Does.mem (h : sec.Does r s s') (hholds : s.table.Holds s.entries) {e : Entry}
    (he : e ∈ s'.entries) : e ∈ s.entries ∨ sec.written r = some e := by
  have hpush : ∀ {a : Entry}, e ∈ Keyed.push (·.key) a s.entries → e ∈ s.entries ∨ e = a := by
    intro a ha
    rcases List.mem_cons.1 ha with rfl | ha
    · exact .inr rfl
    · exact .inl (Keyed.mem_without.1 ha).1
  cases h with
  | thin ht =>
    obtain ⟨es, hes, hsub⟩ := ht.holds
    rw [Shard.entries, hes.entries_eq] at he
    exact .inl (hsub.subset he)
  | @store a ha =>
    obtain ⟨m, -, -, hes⟩ := Shard.evictToFit_write_spec hholds a.key a.value a.expiration
    rw [Shard.entries, hes.entries_eq] at he
    exact (hpush (List.mem_of_mem_take he)).imp_right fun he => by rw [he]; exact ha
  | @limit slice _ =>
    obtain ⟨m, -, hes, -⟩ := Shard.evictToFit_spec (s := { s with maxMemoryBytes := slice }) hholds
    have he' : e ∈ (Shard.evictToFit { s with maxMemoryBytes := slice }).table.entries := he
    rw [hes.entries_eq] at he'
    exact .inl (List.mem_of_mem_take he')
  | @restore a ha =>
    rw [Shard.entries, (Shard.write_spec hholds a.key a.value a.expiration).1.entries_eq] at he
    exact (hpush he).imp_right fun he => by rw [he, ha]; rfl

theorem Section.Does.bucketCount (h : sec.Does r s s') (hholds : s.table.Holds s.entries) :
    s'.table.bucketCount = s.table.bucketCount ∨
      2 * s.table.bucketCount ≤ s'.table.bucketCount := by
  cases h with
  | thin ht => exact .inl ht.bucketCount
  | @store a _ =>
    obtain ⟨-, -, -, hb, -⟩ := Shard.evictToFit_spec
      (Shard.write_spec hholds a.key a.value a.expiration).1
    rw [hb]
    exact Shard.write_bucketCount hholds a.key a.value a.expiration
  | @limit slice _ =>
    obtain ⟨-, -, -, hb, -⟩ :=
      Shard.evictToFit_spec (s := { s with maxMemoryBytes := slice }) hholds
    exact .inl hb
  | @restore a _ => exact Shard.write_bucketCount hholds a.key a.value a.expiration

end

theorem Section.apply_cursor {s : Shard} (h : s.table.Holds s.entries) {sec : Section}
    (hsweep : ∀ perShard, sec ≠ .writing (.removeExpired perShard)) (hclear : sec ≠ .writing .clear)
    (r : Readings) : (sec.apply r s).1.sweepCursor = s.sweepCursor := by
  have hfit : ∀ {s : Shard} {es : List Entry}, s.table.Holds es →
      s.evictToFit.sweepCursor = s.sweepCursor := by
    intro s es hes
    obtain ⟨m, -, -, -, hframe⟩ := Shard.evictToFit_spec hes
    rw [hframe]
  have hwrite : ∀ key value x, (s.write key value x).1.sweepCursor = s.sweepCursor := by
    intro key value x
    rw [Shard.write_frame]
  have hset : ∀ key value x,
      (Writing.setWith r.limit s key value x).1.sweepCursor = s.sweepCursor := by
    intro key value x
    unfold Writing.setWith
    split
    · rfl
    · exact (hfit (Shard.write_spec h key value x).1).trans (hwrite key value x)
  cases sec with
  | reading x =>
    show (x.apply r.now s).1.sweepCursor = _
    unfold Reading.apply
    split <;> rfl
  | writing w =>
    cases w with
    | set key value => exact hset key value none
    | setFor key value life => exact hset key value _
    | del key =>
      rw [Section.apply_del, Shard.afterDel]
      split <;> rfl
    | removeExpired perShard => exact absurd rfl (hsweep perShard)
    | clear => exact absurd rfl hclear
    | setMaxMemory slice => exact hfit (s := { s with maxMemoryBytes := slice }) h
    | restore entry => exact hwrite entry.key entry.value entry.expiration

/-- **A section keeps what the sweeps have achieved**, if it writes nothing that had expired. -/
theorem Section.patrolled {t₀ : Int} {b₀ scanned : Nat} {s : Shard}
    (h : s.Patrolled t₀ b₀ scanned) (hholds : s.table.Holds s.entries) (sec : Section)
    {r : Readings} (hnow : t₀ ≤ r.now)
    (hnew : ∀ e, sec.written r = some e → e.isExpiredAt t₀ = false) :
    (sec.apply r s).1.Patrolled t₀ b₀ (scanned + sec.scans s) := by
  by_cases hsweep : ∃ perShard, sec = .writing (.removeExpired perShard)
  · obtain ⟨perShard, rfl⟩ := hsweep
    exact h.sweep hholds perShard hnow
  · have hscans : sec.scans s = 0 := by
      unfold Section.scans
      split
      next perShard => exact absurd ⟨perShard, rfl⟩ hsweep
      next => rfl
    rw [hscans, Nat.add_zero]
    by_cases hclear : sec = .writing .clear
    · subst hclear
      left
      intro e he
      have hentries := (Shard.clear_spec hholds).1.entries_eq
      have he' : e ∈ s.clear.table.entries := he
      rw [hentries] at he'
      cases he'
    · have hdoes := sec.does hholds r
      refine h.stay hholds (fun e he => (hdoes.mem hholds he).imp_right (hnew e))
        (hdoes.bucketCount hholds) (Section.apply_cursor hholds ?_ hclear r)
      exact fun perShard hp => hsweep ⟨perShard, hp⟩

/-! ### Calls -/

/-- The operation writes nothing that has expired already: the lifetime is positive, and counted
from any moment up to the horizon it ends within the range of the clock. -/
def Op.Lasting (horizon : Int) (op : Op) : Prop :=
  ∀ key value life, op = .setFor key value life → 0 < life ∧ LifetimeFits horizon life

/-- A `restore` that has begun to write has read the clock at `t₀` or later. -/
def Call.Current (t₀ : Int) (call : Call) : Prop :=
  ∀ time entries stored, call = .restorePut time entries stored → t₀ ≤ time

section

variable {op : Op} {call : Call} {t₀ now horizon : Int} {db : Database}

theorem Call.current_of (t₀ : Int) (shards : Nat) (op : Op) :
    (Call.of shards op).Current t₀ := by
  intro time entries stored h
  cases op with
  | removeExpired maxBuckets =>
    simp only [Call.of] at h
    split at h <;> cases h
  | _ => cases h

theorem Call.Current.advance (h : call.Current t₀) (db : Database) (hnow : t₀ ≤ now) :
    (call.advance db now).2.Current t₀ := by
  intro time entries stored he
  cases call with
  | atKey op => cases he
  | returned answer => cases he
  | restorePut time' entries' stored' =>
    cases entries' with
    | nil => cases he
    | cons e entries' =>
      cases he
      exact h time _ _ rfl
  | restoreClear entries' next =>
    simp only [Call.advance] at he
    split at he
    · cases he
      exact hnow
    · cases he
  | _ =>
    simp only [Call.advance] at he
    split at he <;> cases he

theorem Call.For.written_live (hfor : Call.For op call) (hop : op.Lasting horizon)
    (hcur : call.Current t₀) (hstart : IsInt64 t₀) {r : Readings} (hnow : t₀ ≤ r.now)
    (hend : r.now ≤ horizon) {i : Nat} {sec : Section}
    (hnext : call.next db = some (i, sec)) {e : Entry} (he : sec.written r = some e) :
    e.isExpiredAt t₀ = false := by
  cases hfor with
  | atKey hx =>
    simp only [Call.next, hx, Option.map_some, Option.some.injEq] at hnext
    cases hnext
    cases op with
    | set key value =>
      cases hx
      cases he
      rfl
    | setFor key value life =>
      cases hx
      cases he
      obtain ⟨hlife, hproduct, hsum⟩ := hop key value life rfl
      have hfits : LifetimeFits r.now life := by
        refine ⟨hproduct, ?_⟩
        unfold IsInt64 second at *
        omega
      refine decide_eq_false fun hle => ?_
      rw [hfits.expiryAfter_eq] at hle
      unfold second at hle
      omega
    | _ => cases hx <;> cases he
  | @restorePut _ left time stored =>
    cases left with
    | nil => cases hnext
    | cons a left =>
      simp only [Call.next] at hnext
      split at hnext
      · cases hnext
      next hlive =>
        cases hnext
        cases he
        exact Entry.isExpiredAt_anti (hcur time _ _ rfl) (by simpa using hlive)
  | returned => cases hnext
  | _ =>
    simp only [Call.next, Option.ite_none_right_eq_some, Option.some.injEq] at hnext
    obtain ⟨-, hnext⟩ := hnext
    cases hnext
    cases he

end

/-! ### Runs -/

namespace Audited

/-- What holds in every state that comes after `a₀`. -/
structure Since (horizon : Int) (a₀ a : Audited) : Prop where
  inv : a.Inv (Op.Lasting horizon)
  later : a₀.clock ≤ a.clock
  current : ∀ x ∈ a.calls, x.2.Current a₀.clock
  route : a.db.shardIndexFor = a₀.db.shardIndexFor
  patrolled : ∀ (i : Nat) (s : Shard), a.db.shards[i]? = some s →
    ∀ s₀, a₀.db.shards[i]? = some s₀ →
      s.Patrolled a₀.clock s₀.table.bucketCount (a.scanned i)

variable {horizon : Int}

theorem Since.begin {a : Audited} (hinv : a.Inv (Op.Lasting horizon))
    (hcur : ∀ x ∈ a.calls, x.2.Current a.clock) :
    Since horizon a { a with scanned := fun _ => 0 } where
  inv := ⟨hinv.valid, hinv.calls⟩
  later := Int.le_refl _
  current := hcur
  route := rfl
  patrolled := fun i s hs s₀ hs₀ => by
    obtain rfl := Option.some.inj (hs.symm.trans hs₀)
    exact .begin a.clock s

theorem Since.step {a₀ a a' : Audited} (h : Since horizon a₀ a)
    (hs : Step (Op.Lasting horizon) a a') (hstart : IsInt64 a₀.clock) (hend : a.clock ≤ horizon) :
    Since horizon a₀ a' := by
  have hinv := hs.inv h.inv
  cases hs with
  | tick hle => exact ⟨hinv, Int.le_trans h.later hle, h.current, h.route, h.patrolled⟩
  | call op _ =>
    refine ⟨hinv, h.later, fun x hx => ?_, h.route, h.patrolled⟩
    rcases List.mem_append.1 hx with hx | hx
    · exact h.current x hx
    · rw [List.mem_singleton.1 hx]
      exact Call.current_of a₀.clock _ op
  | @advance c op call hc =>
    obtain ⟨hfor, hop⟩ := h.inv.calls _ (List.mem_of_getElem? hc)
    have hcur := h.current _ (List.mem_of_getElem? hc)
    refine ⟨hinv, h.later, fun x hx => ?_,
      (h.inv.valid.advance a.clock call).route.trans h.route, ?_⟩
    · rcases List.mem_or_eq_of_mem_set hx with hx | rfl
      · exact h.current x hx
      · exact hcur.advance a.db h.later
    · refine hfor.shards (P := fun i s => ∀ s₀, a₀.db.shards[i]? = some s₀ →
          s.Patrolled a₀.clock s₀.table.bucketCount (a.scanned i))
        (Q := fun i s => ∀ s₀, a₀.db.shards[i]? = some s₀ →
          s.Patrolled a₀.clock s₀.table.bucketCount (call.scanned a.db a.scanned i))
        h.patrolled (fun j s hother hp s₀ hs₀ => ?_) fun i sec s hnext hi hp s₀ hs₀ => ?_
      · have hsame : call.scanned a.db a.scanned j = a.scanned j := by
          unfold Call.scanned
          split
          next => rfl
          next i sec hnext => exact if_neg (hother i sec hnext)
        rw [hsame]
        exact hp s₀ hs₀
      · have hmore : call.scanned a.db a.scanned i = a.scanned i + sec.scans s := by
          unfold Call.scanned
          simp only [hnext, hi, if_true, Option.map_some, Option.getD_some]
        rw [hmore]
        exact Section.patrolled (hp s₀ hs₀) (h.inv.valid i s hi).holds sec h.later
          fun e he => hfor.written_live hop hcur hstart h.later hend hnext he

theorem Step.clock_le {may : Op → Prop} {a a' : Audited} (hs : Step may a a') :
    a.clock ≤ a'.clock := by
  cases hs with
  | tick hle => exact hle
  | call _ _ => exact Int.le_refl _
  | advance _ => exact Int.le_refl _

theorem Since.of_run {a₀ a : Audited} (h : Reachable (Op.Lasting horizon) a₀)
    (hcur : ∀ x ∈ a₀.calls, x.2.Current a₀.clock) (hstart : IsInt64 a₀.clock)
    (hrun : Relation.ReflTransGen (Step (Op.Lasting horizon)) { a₀ with scanned := fun _ => 0 } a)
    (hend : a.clock ≤ horizon) : Since horizon a₀ a := by
  induction hrun with
  | refl => exact .begin h.inv hcur
  | tail _ hs ih =>
    have hbefore := Int.le_trans hs.clock_le hend
    exact (ih hbefore).step hs hstart hbefore

/-- **Expired entries are reclaimed whatever else goes on.** Count the buckets that sweeps scan
from some moment on, while others write, delete, evict, list, clear and restore, and tables
grow. When the count for a shard, with the buckets it had at that moment, has come to twice the
buckets it has, no key of that shard holds an entry that had expired at that moment. -/
theorem sweeps_keep_up {a₀ a : Audited} (h : Reachable (Op.Lasting horizon) a₀)
    (hcur : ∀ x ∈ a₀.calls, x.2.Current a₀.clock) (hstart : IsInt64 a₀.clock)
    (hrun : Relation.ReflTransGen (Step (Op.Lasting horizon)) { a₀ with scanned := fun _ => 0 } a)
    (hend : a.clock ≤ horizon) {key : Bytes}
    (hdone : 2 * (a.db.shardFor key).table.bucketCount ≤
      a.scanned (a₀.db.shardIndexFor key) + (a₀.db.shardFor key).table.bucketCount)
    {e : Entry} (he : a.db.lookup key = some e) : e.isExpiredAt a₀.clock = false := by
  have hsince := Since.of_run h hcur hstart hrun hend
  have hs := a.db.shards_shardFor key
  have hs₀ := a₀.db.shards_shardFor key
  rw [hsince.route] at hs
  have hholds := (hsince.inv.valid _ _ hs).holds
  have hmem : e ∈ (a.db.shardFor key).entries := by
    rw [lookup, hholds.find_eq] at he
    exact Keyed.mem_of_lookup he
  exact (hsince.patrolled _ _ hs _ hs₀).done hholds hdone e hmem

/-- Two buckets and a key whose second is over. -/
def overdue : Audited where
  db := ((Call.atKey (.setFor [1] [] 1)).advance single 0).1
  calls := [(.setFor [1] [] 1, ((Call.atKey (.setFor [1] [] 1)).advance single 0).2)]
  clock := 2 * second
  scanned := (Call.atKey (.setFor [1] [] 1)).scanned single fun _ => 0

theorem overdue_reachable : Reachable (Op.Lasting (9 * second)) overdue := by
  have hset : Op.Lasting (9 * second) (.setFor [1] [] 1) := fun _ _ life h => by cases h; decide
  exact .step (.step (.step (@Reachable.new (Op.Lasting (9 * second)) 1 1 _ rfl 0) (.call _ hset))
    (.advance (c := 0) rfl)) (.tick (t := 2 * second) (by decide))

/-- A write doubles the table before the sweeps come. -/
theorem sweeps_keep_up_doubled : ∃ (a : Audited) (e : Entry),
    (overdue.db.lookup [1]).any (·.isExpiredAt overdue.clock) = true ∧
    (overdue.db.shardFor [2]).table.bucketCount = 2 ∧ (a.db.shardFor [2]).table.bucketCount = 4 ∧
    a.db.lookup [1] = none ∧ a.db.lookup [2] = some e ∧ e.isExpiredAt overdue.clock = false := by
  have hset : Op.Lasting (9 * second) (.set [2] []) := fun _ _ _ h => by cases h
  have hsweep : Op.Lasting (9 * second) (.removeExpired 8) := fun _ _ _ h => by cases h
  have hrun := Relation.ReflTransGen.tail (.tail (.tail (.tail (.tail (.tail
    (.refl (r := Step (Op.Lasting (9 * second))) (a := { overdue with scanned := fun _ => 0 }))
    (.call _ hset)) (.advance (c := 1) rfl)) (.call _ hsweep)) (.advance (c := 2) rfl))
    (.call _ hsweep)) (.advance (c := 3) rfl)
  have hcur : ∀ x ∈ overdue.calls, x.2.Current overdue.clock := by
    intro x hx time entries stored he
    rw [List.mem_singleton.1 hx] at he
    cases he
  obtain ⟨a, hrun, hend, hgrown, hgone, hfound, hdone⟩ : ∃ a,
      Relation.ReflTransGen (Step (Op.Lasting (9 * second)))
        { overdue with scanned := fun _ => 0 } a ∧ a.clock ≤ 9 * second ∧
      (a.db.shardFor [2]).table.bucketCount = 4 ∧
      a.db.lookup [1] = none ∧ a.db.lookup [2] = some ⟨[2], [], none⟩ ∧
      2 * (a.db.shardFor [2]).table.bucketCount ≤ a.scanned (overdue.db.shardIndexFor [2]) +
        (overdue.db.shardFor [2]).table.bucketCount :=
    ⟨_, hrun, by decide, by decide +kernel, by decide +kernel, by decide +kernel,
      by decide +kernel⟩
  exact ⟨a, _, by decide +kernel, by decide +kernel, hgrown, hgone, hfound,
    sweeps_keep_up overdue_reachable hcur (by decide) hrun hend hdone hfound⟩

end Audited

end Database

end VCache
