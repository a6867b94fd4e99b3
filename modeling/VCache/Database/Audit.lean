import VCache.Database.Balance
import VCache.Database.Coherence

/-!
# The books while calls overlap

Calls go from shard to shard, and others come in between. What one section can do to its shard
is said once. The memory ceiling and the balance of the entries follow from it for every run.

An audited system keeps beside each call what it was made for, and counts what no caller is
told: expired entries that a deletion takes out, and the buckets that sweeps scan.
-/

namespace VCache

open VCache.Lib

namespace Database

/-! ### What a section can do -/

def Section.written (sec : Section) (r : Readings) : Option Entry :=
  match sec with
  | .writing (.set key value) => some ⟨key, value, none⟩
  | .writing (.setFor key value life) => some ⟨key, value, some (expiryAfter r.now life)⟩
  | .writing (.restore entry) => some entry
  | _ => none

/-- What a section can do to a shard. -/
inductive Section.Does (sec : Section) (r : Readings) (s : Shard) : Shard → Prop where
  | thin {s' : Shard} : s.Thins s' → Does sec r s s'
  | store {e : Entry} : sec.written r = some e →
      Does sec r s (s.write e.key e.value e.expiration).1.evictToFit
  | limit {slice : Nat} : sec = .writing (.setMaxMemory slice) → Does sec r s (s.limitTo slice)
  | restore {e : Entry} : sec = .writing (.restore e) →
      Does sec r s (s.write e.key e.value e.expiration).1

theorem Reading.apply_thins {s : Shard} (h : s.table.Holds s.entries) (x : Reading) (now : Int) :
    s.Thins (x.apply now s).1 := by
  unfold Reading.apply
  split
  next hit _ =>
    obtain ⟨h1, h2⟩ := h.touch hit.key
    exact ⟨⟨_, h1, (Keyed.promote_perm h.distinct hit.key).subperm⟩, h2, rfl⟩
  next => exact .refl h

theorem Section.does {s : Shard} (h : s.table.Holds s.entries) (sec : Section) (r : Readings) :
    sec.Does r s (sec.apply r s).1 := by
  have hset : ∀ key value x, sec.written r = some ⟨key, value, x⟩ →
      sec.Does r s (Writing.setWith r.limit s key value x).1 := by
    intro key value x hw
    unfold Writing.setWith
    split
    · exact .thin (.refl h)
    · exact .store hw
  cases sec with
  | reading x => exact .thin (x.apply_thins h r.now)
  | writing w =>
    cases w with
    | set key value => exact hset key value none rfl
    | setFor key value life => exact hset key value _ rfl
    | del key =>
      rw [Section.apply_del]
      exact .thin (Shard.thins_afterDel h key)
    | removeExpired perShard => exact .thin (Shard.thins_sweep h perShard r.now)
    | clear => exact .thin (Shard.thins_clear h)
    | setMaxMemory slice => exact .limit rfl
    | restore entry => exact .restore rfl

/-- Only a restored entry can put a shard over its slice. -/
theorem Section.Does.capped {sec : Section} {r : Readings} {s s' : Shard} (h : sec.Does r s s')
    (hholds : s.table.Holds s.entries) (hc : s.Capped)
    (hsec : ∀ e, sec ≠ .writing (.restore e)) : s'.Capped := by
  cases h with
  | thin ht =>
    obtain ⟨es, hes, hsub⟩ := ht.holds
    exact hc.of_subperm hholds hes hsub ht.bucketCount ht.slice
  | @store e _ =>
    exact Shard.evictToFit_capped (Shard.write_spec hholds e.key e.value e.expiration).1
  | @limit slice _ =>
    exact Shard.evictToFit_capped (s := { s with maxMemoryBytes := slice }) hholds
  | @restore e he => exact absurd he (hsec e)

/-! ### Entries in and out of a shard -/

/-- The entries that a section reports removed, and the one that a deletion finds. -/
def Section.removed (sec : Section) (r : Readings) (s : Shard) : Nat :=
  match sec with
  | .writing (.del key) => if (s.table.find key).isSome then 1 else 0
  | .writing (.removeExpired perShard) => (s.sweep perShard r.now).2
  | _ => 0

def Answer.inserted (a : Answer) : Nat := if a = .outcome .inserted then 1 else 0

theorem Reading.inserted_apply (x : Reading) (now : Int) (s : Shard) :
    (x.apply now s).2.inserted = 0 := by
  unfold Reading.apply
  split
  · rfl
  · cases x with
    | get key => simp only [Reading.answer]; split <;> rfl
    | existsKey key => simp only [Reading.answer]; split <;> rfl
    | ttl key =>
      simp only [Reading.answer]
      split
      · rfl
      · split <;> rfl
    | _ => rfl

/-- **A section keeps the books of its shard**, unless it clears it or restores an entry. -/
theorem Section.stock {s : Shard} (h : s.table.Holds s.entries) {sec : Section}
    (hclear : sec ≠ .writing .clear) (hrestore : ∀ e, sec ≠ .writing (.restore e))
    (r : Readings) :
    (sec.apply r s).1.stock + sec.removed r s = s.stock + (sec.apply r s).2.inserted := by
  have hset : ∀ key value x, (Writing.setWith r.limit s key value x).1.stock + 0 =
      s.stock + (Writing.setWith r.limit s key value x).2.inserted := by
    intro key value x
    have hwrite := Shard.stock_write h key value x
    have hfit := Shard.stock_evictToFit (Shard.write_spec h key value x).1
    unfold Writing.setWith
    split
    · rfl
    · dsimp only
      rw [hfit, hwrite]
      cases (s.write key value x).2 <;> rfl
  cases sec with
  | reading x =>
    have hsame := x.apply_sameBuckets r.now s
    show (x.apply r.now s).1.stock + 0 = s.stock + (x.apply r.now s).2.inserted
    rw [x.inserted_apply, Shard.stock, Shard.stock, hsame.table.size, hsame.evicted]
  | writing w =>
    cases w with
    | set key value => exact hset key value none
    | setFor key value life => exact hset key value _
    | del key =>
      have hanswer : ((Section.writing (.del key)).apply r s).2.inserted = 0 := by
        simp only [Section.apply, Writing.apply]
        split <;> rfl
      rw [Section.apply_del, hanswer]
      exact Shard.stock_afterDel h key
    | removeExpired perShard => exact Shard.stock_sweep h perShard r.now
    | clear => exact absurd rfl hclear
    | setMaxMemory slice => exact congrArg (· + 0) (Shard.stock_limitTo h slice)
    | restore entry => exact absurd rfl (hrestore entry)

/-! ### Calls and what they were made for -/

/-- A call at one of the stages of an operation. -/
inductive Call.For : Op → Call → Prop where
  | atKey {op : Op} {x : Bytes × Section} : op.section = some x → For op (.atKey op)
  | keys {next : Nat} {result : List Bytes} : For .keys (.keys next result)
  | snapshot {next : Nat} {result : List Entry} : For .snapshot (.snapshot next result)
  | removeExpired {maxBuckets perShard next removed : Nat} :
      For (.removeExpired maxBuckets) (.removeExpired perShard next removed)
  | clear {next : Nat} : For .clear (.clear next)
  | setMaxMemory {bytes next : Nat} : For (.setMaxMemory bytes) (.setMaxMemory bytes next)
  | restoreClear {entries : List Entry} {next : Nat} :
      For (.restore entries) (.restoreClear entries next)
  | restorePut {entries left : List Entry} {now : Int} {stored : Nat} :
      For (.restore entries) (.restorePut now left stored)
  | returned {op : Op} {answer : Answer} : For op (.returned answer)

theorem Call.for_of (shards : Nat) (op : Op) : Call.For op (Call.of shards op) := by
  cases op with
  | removeExpired maxBuckets =>
    simp only [Call.of]
    split
    · exact .returned
    · exact .removeExpired
  | keys => exact .keys
  | snapshot => exact .snapshot
  | clear => exact .clear
  | setMaxMemory bytes => exact .setMaxMemory
  | restore entries => exact .restoreClear
  | _ => exact .atKey rfl

theorem Call.For.advance {op : Op} {call : Call} (h : Call.For op call) (db : Database)
    (now : Int) : Call.For op (call.advance db now).2 := by
  cases h with
  | atKey _ => exact .returned
  | @restorePut entries left time stored =>
    cases left with
    | nil => exact .returned
    | cons e left => exact .restorePut
  | returned => exact .returned
  | keys => simp only [Call.advance]; split <;> first | exact .returned | exact .keys
  | snapshot => simp only [Call.advance]; split <;> first | exact .returned | exact .snapshot
  | removeExpired =>
    simp only [Call.advance]
    split <;> first | exact .returned | exact .removeExpired
  | clear => simp only [Call.advance]; split <;> first | exact .returned | exact .clear
  | setMaxMemory =>
    simp only [Call.advance]
    split <;> first | exact .returned | exact .setMaxMemory
  | restoreClear =>
    simp only [Call.advance]
    split <;> first | exact .restorePut | exact .restoreClear

theorem Call.For.made {op : Op} {call : Call} (h : Call.For op call) : call.Made := by
  intro op' he
  cases h with
  | atKey hop =>
    cases he
    rw [hop]
    exact Option.some_ne_none _
  | _ => cases he

theorem Call.For.next {op : Op} {call : Call} (h : Call.For op call) {db : Database} {i : Nat}
    {sec : Section} (hnext : call.next db = some (i, sec)) :
    ((∀ es, op ≠ .restore es) → ∀ e, sec ≠ .writing (.restore e)) ∧
      (op.Counted → sec ≠ .writing .clear) := by
  cases h with
  | atKey hop =>
    simp only [Call.next, hop, Option.map_some, Option.some.injEq] at hnext
    cases hnext
    refine ⟨fun _ e he => ?_, fun _ he => ?_⟩ <;> cases op <;> cases hop <;> cases he
  | @restorePut entries left time stored =>
    exact ⟨fun hne => absurd rfl (hne entries), fun hc => hc.elim⟩
  | returned => cases hnext
  | restoreClear => exact ⟨fun hne => absurd rfl (hne _), fun hc => hc.elim⟩
  | clear =>
    simp only [Call.next, Option.ite_none_right_eq_some, Option.some.injEq] at hnext
    obtain ⟨-, hnext⟩ := hnext
    cases hnext
    exact ⟨fun _ e he => (by cases he), fun hc => hc.elim⟩
  | _ =>
    simp only [Call.next, Option.ite_none_right_eq_some, Option.some.injEq] at hnext
    obtain ⟨-, hnext⟩ := hnext
    cases hnext
    exact ⟨fun _ e he => (by cases he), fun _ he => by cases he⟩

/-! ### Audited runs -/

/-- The buckets of its shard that a section scans for expired entries. -/
def Section.scans (sec : Section) (s : Shard) : Nat :=
  match sec with
  | .writing (.removeExpired perShard) => min perShard s.table.bucketCount
  | _ => 0

/-- The count of scanned buckets after the next section of a call. -/
def Call.scanned (db : Database) (call : Call) (n : Nat → Nat) (j : Nat) : Nat :=
  match call.next db with
  | none => n j
  | some (i, sec) => if i = j then n j + ((db.shards[i]?).map sec.scans).getD 0 else n j

/-- `1` for a deletion that finds its key expired: it takes the entry out and answers `false`. -/
def Call.lapsed (db : Database) (now : Int) : Call → Nat
  | .atKey (.del key) => if (db.lookup key).any (·.isExpiredAt now) then 1 else 0
  | _ => 0

structure Audited where
  db : Database
  calls : List (Op × Call) := []
  clock : Int
  lapsed : Nat := 0
  scanned : Nat → Nat := fun _ => 0

namespace Audited

def sys (a : Audited) : System := ⟨a.db, a.calls.map (·.2), a.clock⟩

/-- The steps of a system in which only some operations are called. -/
inductive Step (may : Op → Prop) : Audited → Audited → Prop where
  | tick {a : Audited} {t : Int} : a.clock ≤ t → Step may a { a with clock := t }
  | call {a : Audited} (op : Op) : may op →
      Step may a { a with calls := a.calls ++ [(op, Call.of a.db.shards.length op)] }
  | advance {a : Audited} {c : Nat} {op : Op} {call : Call} : a.calls[c]? = some (op, call) →
      Step may a { a with
        db := (call.advance a.db a.clock).1
        calls := a.calls.set c (op, (call.advance a.db a.clock).2)
        lapsed := a.lapsed + call.lapsed a.db a.clock
        scanned := call.scanned a.db a.scanned }

inductive Reachable (may : Op → Prop) : Audited → Prop where
  | new {n shardCount : UInt64} {db : Database} (h : new n shardCount = some db) (clock : Int) :
      Reachable may { db, clock }
  | step {a a' : Audited} : Reachable may a → Step may a a' → Reachable may a'

theorem Step.sys {may : Op → Prop} {a a' : Audited} (h : Step may a a') : a.sys.Step a'.sys := by
  cases h with
  | tick hle => exact .tick hle
  | call op _ =>
    rw [show (Audited.sys { a with calls := a.calls ++ [(op, Call.of a.db.shards.length op)] }) =
      { a.sys with calls := a.sys.calls ++ [Call.of a.db.shards.length op] } by
        simp only [Audited.sys, List.map_append, List.map_cons, List.map_nil]]
    exact .call op
  | @advance c op call hc =>
    have hcall : a.sys.calls[c]? = some call := by
      simp only [Audited.sys, List.getElem?_map, hc, Option.map_some]
    have hstep := System.Step.advance hcall
    have hset : (a.calls.set c (op, (call.advance a.db a.clock).2)).map (·.2) =
        (a.calls.map (·.2)).set c (call.advance a.db a.clock).2 := List.map_set
    simp only [Audited.sys, hset]
    exact hstep

/-- Audited runs are runs of the system. -/
theorem Reachable.sys {may : Op → Prop} {a : Audited} (h : Reachable may a) :
    a.sys.Reachable := by
  induction h with
  | new h clock => exact .new h clock
  | step _ hs ih => exact ih.step hs.sys

/-- Every run of the system can be audited. -/
theorem exists_of_reachable {s : System} (h : s.Reachable) :
    ∃ a, Reachable (fun _ => True) a ∧ a.sys = s := by
  induction h with
  | new h clock => exact ⟨_, .new h clock, rfl⟩
  | step _ hs ih =>
    obtain ⟨a, ha, rfl⟩ := ih
    cases hs with
    | tick hle => exact ⟨_, ha.step (.tick hle), rfl⟩
    | call op =>
      refine ⟨_, ha.step (.call op trivial), ?_⟩
      simp only [Audited.sys, List.map_append, List.map_cons, List.map_nil]
    | @advance c call hc =>
      simp only [Audited.sys, List.getElem?_map, Option.map_eq_some_iff] at hc
      obtain ⟨⟨op, call'⟩, hc, rfl⟩ := hc
      refine ⟨_, ha.step (.advance hc), ?_⟩
      simp only [Audited.sys, List.map_set]

structure Inv (may : Op → Prop) (a : Audited) : Prop where
  valid : a.db.AllValid
  calls : ∀ x ∈ a.calls, Call.For x.1 x.2 ∧ may x.1

theorem Step.inv {may : Op → Prop} {a a' : Audited} (hs : Step may a a') (h : a.Inv may) :
    a'.Inv may := by
  cases hs with
  | tick _ => exact ⟨h.valid, h.calls⟩
  | call op hop =>
    refine ⟨h.valid, fun x hx => ?_⟩
    rcases List.mem_append.1 hx with hx | hx
    · exact h.calls x hx
    · rw [List.mem_singleton.1 hx]
      exact ⟨Call.for_of _ op, hop⟩
  | @advance c op call hc =>
    obtain ⟨hfor, hop⟩ := h.calls _ (List.mem_of_getElem? hc)
    refine ⟨(h.valid.advance a.clock call).valid, fun x hx => ?_⟩
    rcases List.mem_or_eq_of_mem_set hx with hx | rfl
    · exact h.calls x hx
    · exact ⟨hfor.advance a.db a.clock, hop⟩

theorem Reachable.inv {may : Op → Prop} {a : Audited} (h : Reachable may a) : a.Inv may := by
  induction h with
  | new h _ => exact ⟨(fresh_of_new h).inv.valid, fun x hx => by cases hx⟩
  | step _ hs ih => exact hs.inv ih

end Audited

/-! ### The ceiling -/

theorem Call.For.shards {op : Op} {call : Call} (hfor : Call.For op call) {db : Database}
    {now : Int} {P Q : Nat → Shard → Prop} (h : ∀ i s, db.shards[i]? = some s → P i s)
    (hkeep : ∀ j s, (∀ i sec, call.next db = some (i, sec) → i ≠ j) → P j s → Q j s)
    (hsec : ∀ i sec s, call.next db = some (i, sec) → db.shards[i]? = some s → P i s →
      Q i (sec.apply ⟨db.maxMemoryBytes, now⟩ s).1) :
    ∀ i s, (call.advance db now).1.shards[i]? = some s → Q i s := by
  intro j s hj
  cases hnext : call.next db with
  | none =>
    obtain ⟨limit, hdb, -⟩ := hfor.made.advance_none now hnext
    rw [hdb] at hj
    refine hkeep j s (fun i sec hi => ?_) (h j s hj)
    rw [hnext] at hi
    cases hi
  | some x =>
    obtain ⟨i, sec⟩ := x
    obtain ⟨s₀, hs₀, hdb⟩ := Call.advance_section now hnext
    rw [hdb] at hj
    have hset : (db.shards.set i (sec.apply ⟨db.maxMemoryBytes, now⟩ s₀).1)[j]? = some s := hj
    rw [List.getElem?_set] at hset
    split at hset
    next hij =>
      subst hij
      rw [if_pos (List.getElem?_eq_some_iff.1 hs₀).1] at hset
      rw [← Option.some.inj hset]
      exact hsec i sec s₀ hnext hs₀ (h i s₀ hs₀)
    next hij =>
      refine hkeep j s (fun i' sec' hi' => ?_) (h j s hset)
      rw [hnext] at hi'
      cases hi'
      exact hij

def AllCapped (db : Database) : Prop :=
  ∀ (i : Nat) (s : Shard), db.shards[i]? = some s → s.Capped

def Op.Frugal (op : Op) : Prop := ∀ es, op ≠ .restore es

namespace Audited

theorem Step.capped {a a' : Audited} (hs : Step Op.Frugal a a') (hinv : a.Inv Op.Frugal)
    (h : a.db.AllCapped) : a'.db.AllCapped := by
  cases hs with
  | tick _ => exact h
  | call _ _ => exact h
  | advance hc =>
    obtain ⟨hfor, hop⟩ := hinv.calls _ (List.mem_of_getElem? hc)
    refine hfor.shards (Q := fun _ => Shard.Capped) h (fun _ _ _ hcap => hcap)
      fun i sec s hnext hi hcap => ?_
    have hholds := (hinv.valid i s hi).holds
    exact (sec.does hholds _).capped hholds hcap ((hfor.next hnext).1 hop)

/-- **The memory ceiling holds whatever calls overlap**, as long as nothing is restored. Every
shard is within the slice it has, or down to one entry, between any two sections of any calls.
When the slices are those of the limit, the ceiling is that of the limit. -/
theorem ceiling_while_calls_overlap {a : Audited} (h : Reachable Op.Frugal a) :
    a.db.AllCapped ∧
      ((∀ (i : Nat) (s : Shard), a.db.shards[i]? = some s →
          s.maxMemoryBytes = sliceOf a.db.maxMemoryBytes a.db.shards.length) →
        a.db.WithinCeiling) := by
  have hcapped : a.db.AllCapped := by
    induction h with
    | new hnew _ =>
      have hfresh := fresh_of_new hnew
      exact hfresh.inv.withinCeiling_iff.1 hfresh.withinCeiling
    | step hr hs ih => exact hs.capped hr.inv ih
  refine ⟨hcapped, fun hslices => ?_⟩
  have hdb : a.db.Inv := ⟨h.inv.valid, hslices⟩
  exact hdb.withinCeiling_iff.2 hcapped

/-- Two writers and a limit that comes in between: the second write evicts the first. -/
theorem ceiling_while_calls_overlap_writers : ∃ a : Audited, Reachable Op.Frugal a ∧
    a.db.evictedCount = 1 ∧ a.db.AllCapped := by
  have hset : ∀ key value, Op.Frugal (.set key value) := fun _ _ _ h => by cases h
  have hlimit : Op.Frugal (.setMaxMemory 200) := fun _ h => by cases h
  have hr := Reachable.step (.step (.step (.step (.step (.step (.step (@Reachable.new Op.Frugal
    1 1 _ rfl 0) (.call _ (hset [1] []))) (.call _ hlimit)) (.call _ (hset [2] [])))
    (.advance (c := 0) rfl)) (.advance (c := 1) rfl)) (.advance (c := 2) rfl))
    (.advance (c := 1) rfl)
  exact ⟨_, hr, by decide +kernel, (ceiling_while_calls_overlap hr).1⟩

end Audited

/-! ### The balance -/

/-- What a call has reported to have taken out so far. -/
def Call.debit : Op → Call → Nat
  | .del _, .returned (.flag true) => 1
  | .removeExpired _, .removeExpired _ _ removed => removed
  | .removeExpired _, .returned (.count removed) => removed
  | _, _ => 0

def Call.credit : Call → Nat
  | .returned answer => answer.inserted
  | _ => 0

def stock (db : Database) : Nat := (db.shards.map Shard.stock).sum

theorem stock_section {db : Database} {call : Call} {now : Int} (hv : db.AllValid) {i : Nat}
    {sec : Section} (hnext : call.next db = some (i, sec)) (hclear : sec ≠ .writing .clear)
    (hrestore : ∀ e, sec ≠ .writing (.restore e)) :
    ∃ s, db.shards[i]? = some s ∧
      (call.advance db now).1.stock + sec.removed ⟨db.maxMemoryBytes, now⟩ s =
        db.stock + (sec.apply ⟨db.maxMemoryBytes, now⟩ s).2.inserted := by
  obtain ⟨s, hs, hdb⟩ := Call.advance_section now hnext
  refine ⟨s, hs, ?_⟩
  have hsum := sum_map_set (f := Shard.stock)
    (b := (sec.apply ⟨db.maxMemoryBytes, now⟩ s).1) hs
  have hsec := Section.stock (hv i s hs).holds hclear hrestore ⟨db.maxMemoryBytes, now⟩
  have hstock : (call.advance db now).1.stock = ((db.shards.set i
      (sec.apply ⟨db.maxMemoryBytes, now⟩ s).1).map Shard.stock).sum := by rw [hdb]; rfl
  unfold stock at hstock ⊢
  omega

theorem debit_answer {op : Op} {key : Bytes} {sec : Section} (hx : op.section = some (key, sec))
    (db : Database) (now : Int) :
    Call.debit op (.returned (sec.apply ⟨db.maxMemoryBytes, now⟩ (db.shardFor key)).2) +
        (Call.atKey op).lapsed db now =
      sec.removed ⟨db.maxMemoryBytes, now⟩ (db.shardFor key) := by
  cases op with
  | del key' =>
    cases hx
    simp only [Call.lapsed, Section.removed, Section.apply, Writing.apply, lookup]
    split
    next h => simp only [h]; rfl
    next entry h => cases hx : entry.isExpiredAt now <;> simp [Call.debit, h, hx]
  | _ => cases hx <;> rfl

/-- **A step of a call keeps the books**: what it puts in and takes out is what its caller is
told, but for expired entries that a deletion finds. -/
theorem Call.For.books {op : Op} {call : Call} (hfor : Call.For op call) (hop : op.Counted)
    {db : Database} (hv : db.AllValid) (now : Int) :
    (call.advance db now).1.stock + Call.debit op (call.advance db now).2 + call.lapsed db now +
        call.credit =
      db.stock + Call.debit op call + (call.advance db now).2.credit := by
  have hsec : ∀ {i : Nat} {sec : Section}, call.next db = some (i, sec) →
      ∃ s, db.shards[i]? = some s ∧
        (call.advance db now).1.stock + sec.removed ⟨db.maxMemoryBytes, now⟩ s =
          db.stock + (sec.apply ⟨db.maxMemoryBytes, now⟩ s).2.inserted := by
    intro i sec hnext
    obtain ⟨hrestore, hclear⟩ := hfor.next hnext
    refine stock_section hv hnext (hclear hop) (hrestore ?_)
    rintro es rfl
    exact hop
  cases hfor with
  | @atKey _ x hx =>
    obtain ⟨key, sec⟩ := x
    have hnext : (Call.atKey op).next db = some (db.shardIndexFor key, sec) := by
      simp only [Call.next, hx, Option.map_some]
    obtain ⟨s, hs, hstock⟩ := hsec hnext
    rw [db.shards_shardFor key] at hs
    obtain rfl := Option.some.inj hs
    have hanswer : ((Call.atKey op).advance db now).2 =
        .returned (sec.apply ⟨db.maxMemoryBytes, now⟩ (db.shardFor key)).2 := by
      simp only [Call.advance, step_section hx, Prod.map_snd, id]
    rw [hanswer]
    have hremoved := debit_answer hx db now
    have hdebit : Call.debit op (.atKey op) = 0 := by cases op <;> rfl
    simp only [Call.credit, hdebit]
    omega
  | keys =>
    simp only [Call.advance]
    split <;> rfl
  | snapshot =>
    simp only [Call.advance]
    split <;> rfl
  | @removeExpired maxBuckets perShard next removed =>
    cases hs : db.shards[next]? with
    | none =>
      simp only [Call.advance, hs]
      rfl
    | some s =>
      have hlt := (List.getElem?_eq_some_iff.1 hs).1
      obtain ⟨s', hs', hstock⟩ := hsec (i := next) (if_pos hlt)
      obtain rfl := Option.some.inj (hs.symm.trans hs')
      have hcall : ((Call.removeExpired perShard next removed).advance db now).2 =
          .removeExpired perShard (next + 1) (removed + (s.sweep perShard now).2) := by
        simp only [Call.advance, hs]
      have hzero : ((Section.writing (.removeExpired perShard)).apply ⟨db.maxMemoryBytes, now⟩
          s).2.inserted = 0 := rfl
      rw [hcall]
      simp only [Call.debit, Call.lapsed, Call.credit]
      simp only [Section.removed, hzero] at hstock
      omega
  | @setMaxMemory bytes next =>
    cases hs : db.shards[next]? with
    | none =>
      simp only [Call.advance, hs]
      rfl
    | some s =>
      have hlt := (List.getElem?_eq_some_iff.1 hs).1
      obtain ⟨s', hs', hstock⟩ := hsec (i := next) (if_pos hlt)
      have hcall : ((Call.setMaxMemory bytes next).advance db now).2 =
          .setMaxMemory bytes (next + 1) := by
        simp only [Call.advance, hs]
      rw [hcall]
      exact hstock
  | clear => exact hop.elim
  | restoreClear => exact hop.elim
  | restorePut => exact hop.elim
  | returned => rfl

namespace Audited

/-- What callers were told to be inserted, and what they were told to be removed. -/
def credits (a : Audited) : Nat := (a.calls.map fun x => x.2.credit).sum

def debits (a : Audited) : Nat := (a.calls.map fun x => Call.debit x.1 x.2).sum

theorem Step.books {a a' : Audited} (hs : Step Op.Counted a a') (hinv : a.Inv Op.Counted)
    (h : a.credits = a.db.stock + a.debits + a.lapsed) :
    a'.credits = a'.db.stock + a'.debits + a'.lapsed := by
  cases hs with
  | tick _ => exact h
  | call op _ =>
    have hnew : (Call.of a.db.shards.length op).credit = 0 ∧
        Call.debit op (Call.of a.db.shards.length op) = 0 := by
      cases op with
      | removeExpired maxBuckets =>
        simp only [Call.of]
        split <;> exact ⟨rfl, rfl⟩
      | _ => exact ⟨rfl, rfl⟩
    simp only [credits, debits, List.map_append, List.map_cons, List.map_nil, List.sum_append,
      List.sum_cons, List.sum_nil, hnew.1, hnew.2] at h ⊢
    omega
  | @advance c op call hc =>
    obtain ⟨hfor, hop⟩ := hinv.calls _ (List.mem_of_getElem? hc)
    have hstep := hfor.books hop hinv.valid a.clock
    have hcredit := sum_map_set (f := fun x : Op × Call => x.2.credit)
      (b := (op, (call.advance a.db a.clock).2)) hc
    have hdebit := sum_map_set (f := fun x : Op × Call => Call.debit x.1 x.2)
      (b := (op, (call.advance a.db a.clock).2)) hc
    simp only [credits, debits] at h ⊢
    dsimp only at hstep hcredit hdebit
    omega

/-- **What the callers are told adds up, whatever calls overlap.** Every insertion that was
reported is stored, was evicted, was reported removed by a sweep or a deletion, or had expired
when it was deleted. When all calls have returned, the reports are all there is. -/
theorem reports_add_up {a : Audited} (h : Reachable Op.Counted a) :
    a.credits = a.db.size + a.db.evictedCount + a.debits + a.lapsed := by
  rw [size_add_evictedCount]
  induction h with
  | new hnew clock =>
    have hzero := fresh_books hnew
    rw [size_add_evictedCount] at hzero
    simp only [credits, debits, List.map_nil, List.sum_nil, hzero, Nat.add_zero]
  | step hr hs ih => exact hs.books hr.inv ih

/-- A deletion and a sweep that overlap, of a key whose second is over. -/
theorem reports_add_up_lapsed : ∃ a : Audited, Reachable Op.Counted a ∧ a.lapsed = 1 ∧
    a.credits = a.db.size + a.db.evictedCount + a.debits + a.lapsed := by
  have hr := Reachable.step (.step (.step (.step (.step (.step (.step (@Reachable.new Op.Counted
    1 1 _ rfl 0) (.call (.setFor [1] [] 1) trivial)) (.advance (c := 0) rfl))
    (.call (.removeExpired 1) trivial)) (.call (.del [1]) trivial))
    (.tick (t := 2 * second) (by decide))) (.advance (c := 2) rfl)) (.advance (c := 1) rfl)
  exact ⟨_, hr, by decide +kernel, reports_add_up hr⟩

end Audited

end Database

end VCache
