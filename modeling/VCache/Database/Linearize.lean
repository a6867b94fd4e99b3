import VCache.Database.Locking
import VCache.Lib.Finish
import Mathlib.Algebra.BigOperators.Group.Finset.Basic
import Mathlib.Algebra.Order.BigOperators.Group.Finset

/-!
# The sections of a shard are atomic

Whatever the interleaving, what the threads see of a shard is explained by the sections having
been carried out one at a time. A writer takes effect when it writes and a look when it is
made. A `get` that touches its key takes effect when the key is moved, which may be after
other readers have come and gone and after the clock has moved on; the clock it used is one
it read during the call.

Two facts carry this. The locks keep writers apart from everybody and moves apart from each
other. Moves change recency pointers only, so a reader finds what it would find between them.
-/

namespace VCache

open Function VCache.Lib

theorem HashTable.Relinked.findNode {t t' : HashTable} (r : t.Relinked t') (key : Bytes) :
    t'.findNode key = t.findNode key := by
  unfold HashTable.findNode HashTable.chain HashTable.bucketIndexFor
  rw [r.buckets, r.entryAt]

namespace Database

/-! ### Shards that differ in recency -/

/-- The same shard up to the recency pointers. -/
structure SameBuckets (a b : Shard) : Prop where
  table : a.table.Relinked b.table
  evicted : b.evicted = a.evicted
  maxMemoryBytes : b.maxMemoryBytes = a.maxMemoryBytes

theorem SameBuckets.refl (a : Shard) : SameBuckets a a := ⟨.refl _, rfl, rfl⟩

theorem sameBuckets_unlink (a : Shard) (node : Ptr) :
    SameBuckets a { a with table := a.table.lruUnlink node } :=
  ⟨HashTable.lruUnlink_relinked .., rfl, rfl⟩

theorem sameBuckets_touch (a : Shard) (key : Bytes) :
    SameBuckets a { a with table := (a.table.touch key).1 } := by
  refine ⟨?_, rfl, rfl⟩
  unfold HashTable.touch
  split
  · exact .refl _
  · split
    · exact .refl _
    · exact (HashTable.lruUnlink_relinked ..).trans (HashTable.lruPushFront_relinked ..)

section

variable {a b : Shard} (h : SameBuckets a b)
include h

theorem SameBuckets.find (key : Bytes) : b.table.find key = a.table.find key := by
  unfold HashTable.find
  rw [h.table.findNode, h.table.entryAt]

theorem SameBuckets.hit (r : Reading) (now : Int) : r.hit now b = r.hit now a := by
  cases r with
  | get key => simp only [Reading.hit, h.find, h.maxMemoryBytes]
  | _ => rfl

theorem SameBuckets.answer (r : Reading) (now : Int) : r.answer now b = r.answer now a := by
  have hn := h.table.nodes
  have he := h.table.entryAt
  cases r with
  | get key => simp only [Reading.answer, h.find]
  | existsKey key => simp only [Reading.answer, h.find]
  | ttl key => simp only [Reading.answer, h.find]
  | keys => simp only [Reading.answer, HashTable.keysWhere, hn, he]
  | snapshot => simp only [Reading.answer, HashTable.entriesWhere, hn, he]
  | size => simp only [Reading.answer, h.table.size]
  | empty => simp only [Reading.answer, h.table.size]
  | bucketCount => simp only [Reading.answer, HashTable.bucketCount, h.table.buckets]
  | memoryUsage =>
    simp only [Reading.answer, HashTable.memoryUsage, h.table.buckets, h.table.entryBytes]
  | evictedCount => simp only [Reading.answer, h.evicted]

end

theorem Reading.findNode_of_hit {key : Bytes} {now : Int} {shard : Shard} {hit : Hit}
    (h : (Reading.get key).hit now shard = some hit) :
    ∃ node, shard.table.findNode key = some node := by
  unfold Reading.hit HashTable.find at h
  cases hn : shard.table.findNode key with
  | none => simp [hn] at h
  | some node => exact ⟨node, rfl⟩

theorem Reading.eq_of_hit {r : Reading} {now : Int} {shard : Shard} {hit : Hit}
    (h : r.hit now shard = some hit) : r = .get hit.key ∧ hit.now = now := by
  cases r with
  | get key =>
    simp only [Reading.hit] at h
    split at h
    · cases h
    · split at h
      · cases h
      · split at h
        · cases h
          exact ⟨rfl, rfl⟩
        · cases h
  | _ => cases h

theorem Reading.apply_sameBuckets (r : Reading) (now : Int) (shard : Shard) :
    SameBuckets shard (r.apply now shard).1 := by
  unfold Reading.apply
  split
  · exact sameBuckets_touch ..
  · exact .refl _

namespace Phase

def shares : Phase → Bool
  | .reading _ | .touching _ | .found .. | .promoting .. | .unlinked ..
  | .leaving (.reading _) _ => true
  | _ => false

def excludes : Phase → Bool
  | .writing _ | .loaded .. | .leaving (.writing _) _ => true
  | _ => false

def promotes : Phase → Bool
  | .promoting .. | .unlinked .. => true
  | _ => false

/-- The recency list lacks the thread's node. -/
def midway : Phase → Bool
  | .unlinked .. => true
  | _ => false

/-- The use the thread is about to record. -/
def use : Phase → Option Hit
  | .touching hit | .found hit _ | .promoting hit _ | .unlinked hit _ => some hit
  | _ => none

def target : Phase → Option (Hit × Ptr)
  | .found hit node | .promoting hit node | .unlinked hit node => some (hit, node)
  | _ => none

/-- What can be said of the thread from outside, if its call is the one at `since`. -/
def status (since : Nat) : Phase → Atomic.Status Section Answer
  | .outside => .idle
  | .waiting sec => .called sec since
  | .reading r => .called (.reading r) since
  | .touching hit | .found hit _ | .promoting hit _ | .unlinked hit _ =>
    .called (.reading (.get hit.key)) since
  | .writing w | .loaded w _ => .called (.writing w) since
  | .leaving sec answer => .answered sec since answer

/-- How many moves the thread has left at most. -/
def cost : Phase → Nat
  | .outside => 0
  | .leaving .. => 1
  | .unlinked .. | .loaded .. => 2
  | .promoting .. | .writing _ => 3
  | .found .. => 4
  | .touching _ => 5
  | .reading _ => 6
  | .waiting _ => 7

theorem use_of_target {p : Phase} {x : Hit × Ptr} (h : p.target = some x) :
    p.use = some x.1 := by
  cases p <;> first | cases h; rfl | cases h

theorem since_of_called {p : Phase} {sec : Section} {since i : Nat}
    (h : p.status since = .called sec i) : i = since := by
  cases p <;> first | (cases h; rfl) | cases h

theorem promotes_of_midway {p : Phase} (h : p.midway = true) : p.promotes = true := by
  cases p <;> first | rfl | cases h

theorem midway_of_use {p : Phase} (h : p.use = none) : p.midway = false := by
  cases p <;> first | rfl | cases h

theorem shares_of_use {p : Phase} {hit : Hit} (h : p.use = some hit) : p.shares = true := by
  cases p <;> first | rfl | cases h

end Phase

namespace Locked

variable {s s' : Locked} {t : Nat} {start : Shard}

/-! ### The moves of a thread -/

/-- `advance`, case by case. -/
inductive Move (s : Locked) (t : Nat) : Locked → Prop where
  | lockShared {r : Reading} : s.phase t = .waiting (.reading r) → s.writer = none →
      Move s t { s.moveTo t (.reading r) with readers := t :: s.readers }
  | lockExclusive {w : Writing} : s.phase t = .waiting (.writing w) → s.writer = none →
      s.readers = [] → Move s t { s.moveTo t (.writing w) with writer := some t }
  | use {r : Reading} {hit : Hit} : s.phase t = .reading r → r.hit s.clock s.shard = some hit →
      Move s t (s.moveTo t (.touching hit))
  | look {r : Reading} : s.phase t = .reading r → r.hit s.clock s.shard = none →
      Move s t (s.moveTo t (.leaving (.reading r) (r.answer s.clock s.shard)))
  | lost {hit : Hit} : s.phase t = .touching hit → s.shard.table.findNode hit.key = none →
      Move s t (s.leave t hit)
  | found {hit : Hit} {node : Ptr} : s.phase t = .touching hit →
      s.shard.table.findNode hit.key = some node → Move s t (s.moveTo t (.found hit node))
  | lockLru {hit : Hit} {node : Ptr} : s.phase t = .found hit node → s.lruHolder = none →
      Move s t { s.moveTo t (.promoting hit node) with lruHolder := some t }
  | first {hit : Hit} {node : Ptr} : s.phase t = .promoting hit node →
      s.shard.table.lruHead = some node → Move s t { s.leave t hit with lruHolder := none }
  | unlink {hit : Hit} {node : Ptr} : s.phase t = .promoting hit node →
      s.shard.table.lruHead ≠ some node →
      Move s t { s.moveTo t (.unlinked hit node) with
                 shard := { s.shard with table := s.shard.table.lruUnlink node } }
  | push {hit : Hit} {node : Ptr} : s.phase t = .unlinked hit node →
      Move s t { s.leave t hit with
                 lruHolder := none
                 shard := { s.shard with table := s.shard.table.lruPushFront node } }
  | load {w : Writing} : s.phase t = .writing w → Move s t (s.moveTo t (.loaded w s.limit))
  | write {w : Writing} {limit : Nat} : s.phase t = .loaded w limit →
      Move s t { s.moveTo t (.leaving (.writing w) (w.apply ⟨limit, s.clock⟩ s.shard).2) with
                 shard := (w.apply ⟨limit, s.clock⟩ s.shard).1 }
  | leave {sec : Section} {answer : Answer} : s.phase t = .leaving sec answer →
      Move s t (((s.moveTo t .outside).unlock t sec).see (.returned t answer))

theorem move_of_advance (h : s.advance t = some s') : Move s t s' := by
  unfold advance at h
  split at h
  next => cases h
  next r hp =>
    split at h
    · cases h
    next hw => cases h; exact .lockShared hp (by simpa using hw)
  next w hp =>
    split at h
    · cases h
    next hw =>
      cases h
      simp only [Bool.or_eq_true, not_or, Bool.not_eq_true, Bool.not_eq_false',
        List.isEmpty_iff, Option.isSome_eq_false_iff, Option.isNone_iff_eq_none] at hw
      exact .lockExclusive hp hw.1 hw.2
  next r hp =>
    split at h
    next hit hh => cases h; exact .use hp hh
    next hh => cases h; exact .look hp hh
  next hit hp =>
    split at h
    next hn => cases h; exact .lost hp hn
    next node hn => cases h; exact .found hp hn
  next hit node hp =>
    split at h
    · cases h
    next hl => cases h; exact .lockLru hp (by simpa using hl)
  next hit node hp =>
    split at h
    next hh => cases h; exact .first hp hh
    next hh => cases h; exact .unlink hp hh
  next hit node hp => cases h; exact .push hp
  next w hp => cases h; exact .load hp
  next w limit hp => cases h; exact .write hp
  next sec answer hp => cases h; exact .leave hp

/-! ### The locks -/

/-- A lock is held by the threads whose phase says so. -/
def HeldBy (phase : Nat → Phase) (flag : Phase → Bool) (holds : Nat → Prop) : Prop :=
  ∀ t, holds t ↔ flag (phase t) = true

section

variable {phase : Nat → Phase} {flag : Phase → Bool} {holds holds' : Nat → Prop} {p : Phase}

theorem HeldBy.keep (h : HeldBy phase flag holds) (hp : flag p = flag (phase t)) :
    HeldBy (update phase t p) flag holds := by
  intro t'
  by_cases ht : t' = t
  · rw [ht, update_self, hp]
    exact h t
  · rw [update_of_ne ht]
    exact h t'

theorem HeldBy.take (h : HeldBy phase flag holds) (hp : flag p = true)
    (hholds : ∀ t', holds' t' ↔ t' = t ∨ holds t') : HeldBy (update phase t p) flag holds' := by
  intro t'
  rw [hholds]
  by_cases ht : t' = t
  · rw [ht, update_self, hp]
    simp
  · rw [update_of_ne ht, or_iff_right ht]
    exact h t'

theorem HeldBy.give (h : HeldBy phase flag holds) (hp : flag p = false)
    (hholds : ∀ t', holds' t' ↔ t' ≠ t ∧ holds t') : HeldBy (update phase t p) flag holds' := by
  intro t'
  rw [hholds]
  by_cases ht : t' = t
  · rw [ht, update_self, hp]
    simp
  · rw [update_of_ne ht, and_iff_right ht]
    exact h t'

end

/-- The locks are held by the threads inside, and keep them apart. -/
structure Locks (s : Locked) : Prop where
  readers : HeldBy s.phase Phase.shares (· ∈ s.readers)
  nodup : s.readers.Nodup
  writer : HeldBy s.phase Phase.excludes (s.writer = some ·)
  lruHolder : HeldBy s.phase Phase.promotes (s.lruHolder = some ·)
  apart : s.writer ≠ none → s.readers = []

theorem some_eq_take {x : Option Nat} (h : x = none) (t t' : Nat) :
    some t = some t' ↔ t' = t ∨ x = some t' := by
  subst h
  simp [eq_comm]

theorem none_eq_give {x : Option Nat} (h : x = some t) (t' : Nat) :
    none = some t' ↔ t' ≠ t ∧ x = some t' := by
  subst h
  simp [eq_comm]

theorem Locks.keep (h : Locks s) {p q : Phase} (hq : s.phase t = q)
    (hp : s'.phase = update s.phase t p)
    (hflags : p.shares = q.shares ∧ p.excludes = q.excludes ∧ p.promotes = q.promotes)
    (hsame : s'.readers = s.readers ∧ s'.writer = s.writer ∧ s'.lruHolder = s.lruHolder) :
    Locks s' := by
  subst hq
  obtain ⟨h1, h2, h3⟩ := hflags
  obtain ⟨e1, e2, e3⟩ := hsame
  refine ⟨?_, e1 ▸ h.nodup, ?_, ?_, fun hne => e1.trans (h.apart (e2 ▸ hne))⟩
  · rw [hp, e1]; exact h.readers.keep h1
  · rw [hp, e2]; exact h.writer.keep h2
  · rw [hp, e3]; exact h.lruHolder.keep h3

theorem Move.locks (hm : Move s t s') (h : Locks s) : Locks s' := by
  cases hm with
  | use hp _ | look hp _ | lost hp _ | found hp _ | unlink hp _ | load hp | write hp =>
    exact h.keep hp rfl ⟨rfl, rfl, rfl⟩ ⟨rfl, rfl, rfl⟩
  | lockShared hp hw =>
    refine ⟨h.readers.take rfl fun t' => List.mem_cons, ?_, h.writer.keep (by rw [hp]; rfl),
      h.lruHolder.keep (by rw [hp]; rfl), fun hne => absurd hw hne⟩
    refine List.nodup_cons.2 ⟨fun hmem => ?_, h.nodup⟩
    have := (h.readers t).1 hmem
    rw [hp] at this
    cases this
  | lockExclusive hp hw hr =>
    exact ⟨h.readers.keep (by rw [hp]; rfl), h.nodup, h.writer.take rfl (some_eq_take hw t),
      h.lruHolder.keep (by rw [hp]; rfl), fun _ => hr⟩
  | lockLru hp hl =>
    exact ⟨h.readers.keep (by rw [hp]; rfl), h.nodup, h.writer.keep (by rw [hp]; rfl),
      h.lruHolder.take rfl (some_eq_take hl t), h.apart⟩
  | first hp _ | push hp =>
    have hl := (h.lruHolder t).2 (by rw [hp]; rfl)
    exact ⟨h.readers.keep (by rw [hp]; rfl), h.nodup, h.writer.keep (by rw [hp]; rfl),
      h.lruHolder.give rfl (none_eq_give hl), h.apart⟩
  | @leave sec answer hp =>
    cases sec with
    | reading r =>
      refine ⟨h.readers.give rfl fun t' => h.nodup.mem_erase_iff, h.nodup.erase t,
        h.writer.keep (by rw [hp]; rfl), h.lruHolder.keep (by rw [hp]; rfl), fun hne => ?_⟩
      show s.readers.erase t = []
      rw [h.apart hne]
      rfl
    | writing w =>
      have hw := (h.writer t).2 (by rw [hp]; rfl)
      exact ⟨h.readers.keep (by rw [hp]; rfl), h.nodup, h.writer.give rfl (none_eq_give hw),
        h.lruHolder.keep (by rw [hp]; rfl), fun hne => absurd rfl hne⟩

theorem Locks.perform {a : Action} (h : Locks s) (hs : s.perform a = some s') : Locks s' := by
  cases a with
  | tick now =>
    simp only [Locked.perform, Option.ite_none_right_eq_some, Option.some.injEq] at hs
    obtain ⟨-, rfl⟩ := hs
    exact ⟨h.readers, h.nodup, h.writer, h.lruHolder, h.apart⟩
  | store bytes =>
    cases hs
    exact ⟨h.readers, h.nodup, h.writer, h.lruHolder, h.apart⟩
  | call t sec =>
    simp only [Locked.perform, Option.ite_none_right_eq_some, Option.some.injEq] at hs
    obtain ⟨hp, rfl⟩ := hs
    exact h.keep hp rfl ⟨rfl, rfl, rfl⟩ ⟨rfl, rfl, rfl⟩
  | advance t => exact (move_of_advance hs).locks h

theorem Reachable.locks (h : Reachable start s) : Locks s := by
  induction h with
  | start clock limit =>
    exact ⟨fun t => by simp [Phase.shares], .nil, fun t => by simp [Phase.excludes],
      fun t => by simp [Phase.promotes], fun _ => rfl⟩
  | step a _ hs ih => exact ih.perform hs

theorem Locks.promotes_unique (h : Locks s) {t' : Nat} (h1 : (s.phase t).promotes = true)
    (h2 : (s.phase t').promotes = true) : t' = t := by
  have e1 := (h.lruHolder t).2 h1
  have e2 := (h.lruHolder t').2 h2
  exact Option.some.inj (e2.symm.trans e1)

theorem Locks.alone (h : Locks s) (hw : (s.phase t).excludes = true) (t' : Nat) :
    (s.phase t').use = none := by
  cases hu : (s.phase t').use with
  | none => rfl
  | some hit =>
    have hmem := (h.readers t').2 (Phase.shares_of_use hu)
    rw [h.apart (by rw [(h.writer t).2 hw]; exact Option.some_ne_none t)] at hmem
    cases hmem

/-! ### The shard between moves -/

/-- `abs` is the shard as it was before the move under way, if there is one. -/
structure Shows (s : Locked) (abs : Shard) : Prop where
  whole : (∀ t, (s.phase t).midway = false) → s.shard = abs
  half : ∀ t hit node, s.phase t = .unlinked hit node → abs.table.lruHead ≠ some node ∧
    s.shard = { abs with table := abs.table.lruUnlink node }

theorem shows_of_whole {abs : Shard} (hs : s.shard = abs) (hn : ∀ t, (s.phase t).midway = false) :
    Shows s abs := by
  refine ⟨fun _ => hs, fun t hit node hp => ?_⟩
  have := hn t
  rw [hp] at this
  cases this

theorem Shows.sameBuckets {abs : Shard} (h : Shows s abs) : SameBuckets abs s.shard := by
  by_cases hn : ∀ t, (s.phase t).midway = false
  · rw [h.whole hn]
    exact .refl _
  · push Not at hn
    obtain ⟨t, ht⟩ := hn
    cases hp : s.phase t with
    | unlinked hit node =>
      rw [(h.half t hit node hp).2]
      exact sameBuckets_unlink ..
    | _ => rw [hp] at ht; exact absurd rfl ht

theorem Shows.moveTo {abs : Shard} {p : Phase} (h : Shows s abs)
    (hp : s'.phase = update s.phase t p) (hs : s'.shard = s.shard)
    (h1 : (s.phase t).midway = false) (h2 : p.midway = false) : Shows s' abs := by
  refine ⟨fun hn => ?_, fun t' hit node ht' => ?_⟩
  · rw [hs]
    refine h.whole fun t' => ?_
    have := hn t'
    rw [hp] at this
    by_cases ht : t' = t
    · rw [ht, h1]
    · rwa [update_of_ne ht] at this
  · rw [hs]
    rw [hp] at ht'
    by_cases ht : t' = t
    · rw [ht, update_self] at ht'
      rw [ht'] at h2
      cases h2
    · rw [update_of_ne ht] at ht'
      exact h.half t' hit node ht'

theorem Locks.nobody_midway (h : Locks s) (h1 : (s.phase t).promotes = true)
    (h2 : (s.phase t).midway = false) (t' : Nat) : (s.phase t').midway = false := by
  refine Bool.eq_false_iff.2 fun hm => ?_
  rw [h.promotes_unique h1 (Phase.promotes_of_midway hm), h2] at hm
  cases hm

theorem Locks.nobody_left (h : Locks s) {p : Phase} (h1 : (s.phase t).promotes = true)
    (hp : s'.phase = update s.phase t p) (h2 : p.midway = false) (t' : Nat) :
    (s'.phase t').midway = false := by
  by_cases ht : t' = t
  · rw [hp, ht, update_self, h2]
  · refine Bool.eq_false_iff.2 fun hm => ht (h.promotes_unique h1 (Phase.promotes_of_midway ?_))
    rwa [hp, update_of_ne ht] at hm

/-! ### The atomic shard -/

abbrev Object := Atomic.Object Shard Section Readings Answer

/-- The clock a section used is one it read between its call and its effect. -/
structure Timely (s : Locked) (e : Atomic.Effect Section Readings Answer) : Prop where
  called : ∃ x, s.seenAt[e.called]? = some x ∧ x ≤ e.env.now
  past : e.env.now ≤ s.clock
  later : ∀ i x, e.position ≤ i → s.seenAt[i]? = some x → e.env.now ≤ x

/-- A thread still has the use of its key to record. -/
structure Uses (s : Locked) (o : Object) (t : Nat) (hit : Hit) : Prop where
  stands : (Reading.get hit.key).hit hit.now o.state = some hit
  past : hit.now ≤ s.clock
  since : ∀ sec i, o.status t = .called sec i → ∃ x, s.seenAt[i]? = some x ∧ x ≤ hit.now

structure Follows (s : Locked) (o : Object) : Prop where
  history : o.history = s.history
  length : s.seenAt.length = s.history.length
  past : ∀ x ∈ s.seenAt, x ≤ s.clock
  status : ∀ t, ∃ since, o.status t = (s.phase t).status since
  since : ∀ t sec i, o.status t = .called sec i → i < s.history.length
  uses : ∀ t hit, (s.phase t).use = some hit → Uses s o t hit
  target : ∀ t x, (s.phase t).target = some x → o.state.table.findNode x.1.key = some x.2
  shows : Shows s o.state
  timely : ∀ e ∈ o.log, Timely s e

variable {o : Object}

theorem Timely.congr {e : Atomic.Effect Section Readings Answer} (h : Timely s e)
    (h1 : s'.seenAt = s.seenAt) (h2 : s.clock ≤ s'.clock) : Timely s' e :=
  ⟨h1 ▸ h.called, Int.le_trans h.past h2, h1 ▸ h.later⟩

theorem getElem?_see {α : Type} {l : List α} {a x : α} {i : Nat} (h : (l ++ [a])[i]? = some x) :
    l[i]? = some x ∨ x = a := by
  rcases Nat.lt_trichotomy i l.length with hi | rfl | hi
  · rw [List.getElem?_append_left hi] at h
    exact .inl h
  · rw [List.getElem?_concat_length] at h
    exact .inr (Option.some.inj h).symm
  · rw [List.getElem?_eq_none (by rw [List.length_append, List.length_singleton]; omega)] at h
    cases h

theorem getElem?_see_of_some {α : Type} {l : List α} {a x : α} {i : Nat} (h : l[i]? = some x) :
    (l ++ [a])[i]? = some x := by
  rw [List.getElem?_append_left (List.getElem?_eq_some_iff.1 h).1]
  exact h

theorem Follows.seenAt {sec : Section} {i : Nat} (h : Follows s o)
    (hc : o.status t = .called sec i) :
    ∃ x, s.seenAt[i]? = some x ∧ x ≤ s.clock := by
  have hlt : i < s.seenAt.length := by
    rw [h.length]
    exact h.since t sec i hc
  exact ⟨_, List.getElem?_eq_getElem hlt, h.past _ (List.getElem_mem hlt)⟩

theorem Follows.tick (h : Follows s o) (hsame : s'.phase = s.phase ∧ s'.shard = s.shard ∧
    s'.history = s.history ∧ s'.seenAt = s.seenAt) (hc : s.clock ≤ s'.clock) : Follows s' o := by
  obtain ⟨e1, e2, e3, e4⟩ := hsame
  refine ⟨h.history.trans e3.symm, by rw [e3, e4]; exact h.length, ?_, by rw [e1]; exact h.status,
    by rw [e3]; exact h.since, fun t hit hu => ?_, by rw [e1]; exact h.target, ?_,
    fun e he => (h.timely e he).congr e4 hc⟩
  · rw [e4]
    exact fun x hx => Int.le_trans (h.past x hx) hc
  · have hu' := h.uses t hit (e1 ▸ hu)
    exact ⟨hu'.stands, Int.le_trans hu'.past hc, e4 ▸ hu'.since⟩
  · exact ⟨by rw [e1, e2]; exact h.shows.whole, by rw [e1, e2]; exact h.shows.half⟩

theorem Follows.stay {p : Phase} (h : Follows s o) (hp : s'.phase = update s.phase t p)
    (hsame : s'.history = s.history ∧ s'.seenAt = s.seenAt ∧ s'.clock = s.clock)
    (hstatus : ∀ since, p.status since = (s.phase t).status since)
    (huses : ∀ hit, p.use = some hit → Uses s o t hit)
    (htarget : ∀ x, p.target = some x → o.state.table.findNode x.1.key = some x.2)
    (hshows : Shows s' o.state) : Follows s' o := by
  obtain ⟨e1, e2, e3⟩ := hsame
  refine ⟨h.history.trans e1.symm, by rw [e1, e2]; exact h.length, by rw [e2, e3]; exact h.past,
    fun t' => ?_, by rw [e1]; exact h.since, fun t' hit hu => ?_, fun t' x hx => ?_, hshows,
    fun e he => (h.timely e he).congr e2 (le_of_eq e3.symm)⟩
  · obtain ⟨since, hst⟩ := h.status t'
    refine ⟨since, hst.trans ?_⟩
    by_cases ht : t' = t
    · rw [hp, ht, update_self, hstatus]
    · rw [hp, update_of_ne ht]
  · have hu' : Uses s o t' hit := by
      by_cases ht : t' = t
      · rw [hp, ht, update_self] at hu
        exact ht ▸ huses hit hu
      · rw [hp, update_of_ne ht] at hu
        exact h.uses t' hit hu
    exact ⟨hu'.stands, e3 ▸ hu'.past, e2 ▸ hu'.since⟩
  · by_cases ht : t' = t
    · rw [hp, ht, update_self] at hx
      exact htarget x hx
    · rw [hp, update_of_ne ht] at hx
      exact h.target t' x hx

theorem Follows.act {sec : Section} {since : Nat} (env : Readings) (h : Follows s o)
    (hcalled : o.status t = .called sec since)
    (hp : s'.phase = update s.phase t (.leaving sec (sec.apply env o.state).2))
    (hsame : s'.history = s.history ∧ s'.seenAt = s.seenAt ∧ s'.clock = s.clock)
    (hkeep : SameBuckets o.state (sec.apply env o.state).1 ∨ ∀ t', (s.phase t').use = none)
    (hpast : env.now ≤ s.clock) (hsince : ∃ x, s.seenAt[since]? = some x ∧ x ≤ env.now)
    (hshows : Shows s' (sec.apply env o.state).1) :
    ∃ o', (o' = o ∨ Atomic.Step Section.apply o o') ∧ Follows s' o' := by
  obtain ⟨e1, e2, e3⟩ := hsame
  refine ⟨_, .inr (.act env hcalled), h.history.trans e1.symm, by rw [e1, e2]; exact h.length,
    by rw [e2, e3]; exact h.past, fun t' => ?_, fun t' sec' i hc => ?_, fun t' hit hu => ?_,
    fun t' x hx => ?_, hshows, fun e he => ?_⟩
  · by_cases ht : t' = t
    · rw [hp, ht]
      exact ⟨since, by simp only [update_self]; rfl⟩
    · rw [hp]
      simp only [update_of_ne ht]
      exact h.status t'
  · rw [e1]
    by_cases ht : t' = t
    · simp only [ht, update_self] at hc
      cases hc
    · simp only [update_of_ne ht] at hc
      exact h.since t' sec' i hc
  · by_cases ht : t' = t
    · rw [hp, ht, update_self] at hu
      cases hu
    · rw [hp, update_of_ne ht] at hu
      have hu' := h.uses t' hit hu
      refine ⟨?_, e3 ▸ hu'.past, ?_⟩
      · rcases hkeep with hkeep | hkeep
        · exact (hkeep.hit ..).trans hu'.stands
        · rw [hkeep t'] at hu
          cases hu
      · simp only [update_of_ne ht, e2]
        exact hu'.since
  · by_cases ht : t' = t
    · rw [hp, ht, update_self] at hx
      cases hx
    · rw [hp, update_of_ne ht] at hx
      rcases hkeep with hkeep | hkeep
      · exact (hkeep.table.findNode _).trans (h.target t' x hx)
      · have hu := hkeep t'
        rw [Phase.use_of_target hx] at hu
        cases hu
  · rcases List.mem_append.1 he with he | he
    · exact (h.timely e he).congr e2 (le_of_eq e3.symm)
    · rw [List.mem_singleton.1 he]
      refine ⟨by rw [e2]; exact hsince, by rw [e3]; exact hpast, fun i x hi hx => ?_⟩
      have hlt := (List.getElem?_eq_some_iff.1 hx).1
      have hlen := h.length
      rw [e2] at hlt
      have hi' : o.history.length ≤ i := hi
      rw [h.history] at hi'
      omega

theorem Follows.see {p : Phase} {x : Atomic.Seen Section Answer}
    {status : Atomic.Status Section Answer}
    (h : Follows s o) (hp : s'.phase = update s.phase t p)
    (hhist : s'.history = s.history ++ [x] ∧ s'.seenAt = s.seenAt ++ [s.clock])
    (hsame : s'.clock = s.clock ∧ s'.shard = s.shard)
    (hstatus : status = p.status s.history.length) (huse : p.use = none)
    (hmid : (s.phase t).midway = false) :
    Follows s' { o with status := update o.status t status, history := o.history ++ [x] } := by
  obtain ⟨e1, e2⟩ := hhist
  obtain ⟨e3, e4⟩ := hsame
  have htarget : p.target = none := by
    cases ht : p.target with
    | none => rfl
    | some y => rw [Phase.use_of_target ht] at huse; cases huse
  refine ⟨by rw [e1, h.history],
    by rw [e1, e2, List.length_append, List.length_append, h.length]; rfl,
    ?_, fun t' => ?_, fun t' sec i hc => ?_, fun t' hit hu => ?_, fun t' y hy => ?_, ?_,
    fun e he => ?_⟩
  · rw [e2, e3]
    intro y hy
    rcases List.mem_append.1 hy with hy | hy
    · exact h.past y hy
    · exact le_of_eq (List.mem_singleton.1 hy)
  · by_cases ht : t' = t
    · rw [hp, ht]
      exact ⟨s.history.length, by simp only [update_self]; exact hstatus⟩
    · rw [hp]
      simp only [update_of_ne ht]
      exact h.status t'
  · rw [e1, List.length_append, List.length_singleton]
    by_cases ht : t' = t
    · simp only [ht, update_self] at hc
      have := Phase.since_of_called (hstatus.symm.trans hc)
      omega
    · simp only [update_of_ne ht] at hc
      have := h.since t' sec i hc
      omega
  · by_cases ht : t' = t
    · rw [hp, ht, update_self, huse] at hu
      cases hu
    · rw [hp, update_of_ne ht] at hu
      have hu' := h.uses t' hit hu
      refine ⟨hu'.stands, e3 ▸ hu'.past, fun sec i hc => ?_⟩
      simp only [update_of_ne ht] at hc
      obtain ⟨y, hy, hle⟩ := hu'.since sec i hc
      exact ⟨y, by rw [e2]; exact getElem?_see_of_some hy, hle⟩
  · by_cases ht : t' = t
    · rw [hp, ht, update_self, htarget] at hy
      cases hy
    · rw [hp, update_of_ne ht] at hy
      exact h.target t' y hy
  · exact h.shows.moveTo hp e4 hmid (Phase.midway_of_use huse)
  · have ht := h.timely e he
    obtain ⟨y, hy, hle⟩ := ht.called
    refine ⟨⟨y, by rw [e2]; exact getElem?_see_of_some hy, hle⟩, e3 ▸ ht.past, fun i z hi hz => ?_⟩
    rw [e2] at hz
    rcases getElem?_see hz with hz | rfl
    · exact ht.later i z hi hz
    · exact ht.past

theorem Follows.goOn {p q : Phase} (h : Follows s o) (hq : s.phase t = q)
    (hp : s'.phase = update s.phase t p)
    (hsame : s'.history = s.history ∧ s'.seenAt = s.seenAt ∧ s'.clock = s.clock)
    (hshard : s'.shard = s.shard) (hstatus : ∀ since, p.status since = q.status since)
    (hmid : q.midway = false ∧ p.midway = false)
    (huses : ∀ hit, p.use = some hit → Uses s o t hit)
    (htarget : ∀ x, p.target = some x → o.state.table.findNode x.1.key = some x.2) :
    ∃ o', (o' = o ∨ Atomic.Step Section.apply o o') ∧ Follows s' o' := by
  subst hq
  exact ⟨o, .inl rfl, h.stay hp hsame hstatus huses htarget
    (h.shows.moveTo hp hshard hmid.1 hmid.2)⟩

theorem Move.follows (hm : Move s t s') (hl : Locks s) (h : Follows s o) :
    ∃ o', (o' = o ∨ Atomic.Step Section.apply o o') ∧ Follows s' o' := by
  obtain ⟨since, hstatus⟩ := h.status t
  cases hm with
  | lockShared hp _ | lockExclusive hp _ _ | load hp =>
    exact h.goOn hp rfl ⟨rfl, rfl, rfl⟩ rfl (fun _ => rfl) ⟨rfl, rfl⟩ (fun _ e => by cases e)
      fun _ e => by cases e
  | @use r hit hp hh =>
    obtain ⟨rfl, hnow⟩ := Reading.eq_of_hit hh
    refine h.goOn hp rfl ⟨rfl, rfl, rfl⟩ rfl (fun _ => rfl) ⟨rfl, rfl⟩ (fun hit' e => ?_)
      fun _ e => by cases e
    cases e
    rw [h.shows.sameBuckets.hit] at hh
    refine ⟨by rw [hnow]; exact hh, le_of_eq hnow, fun sec i hc => ?_⟩
    rw [hnow]
    exact h.seenAt hc
  | @look r hp hh =>
    rw [hp] at hstatus
    have hsame := h.shows.sameBuckets
    rw [hsame.hit] at hh
    have happly : Section.apply (.reading r) ⟨s.limit, s.clock⟩ o.state =
        (o.state, r.answer s.clock s.shard) := by
      simp only [Section.apply, Reading.apply, hh, hsame.answer]
    refine h.act ⟨s.limit, s.clock⟩ hstatus (by rw [happly]; rfl) ⟨rfl, rfl, rfl⟩
      (.inl (Reading.apply_sameBuckets ..)) (Int.le_refl _) (h.seenAt hstatus) ?_
    rw [happly]
    exact h.shows.moveTo rfl rfl (by rw [hp]; rfl) rfl
  | @lost hit hp hn =>
    have hu := h.uses t hit (by rw [hp]; rfl)
    obtain ⟨node, hnode⟩ := Reading.findNode_of_hit hu.stands
    rw [h.shows.sameBuckets.table.findNode, hnode] at hn
    cases hn
  | @found hit node hp hn =>
    refine h.goOn hp rfl ⟨rfl, rfl, rfl⟩ rfl (fun _ => rfl) ⟨rfl, rfl⟩ (fun hit' e => ?_)
      fun x e => ?_
    · cases e
      exact h.uses t hit (by rw [hp]; rfl)
    · cases e
      rw [← h.shows.sameBuckets.table.findNode]
      exact hn
  | @lockLru hit node hp _ =>
    refine h.goOn hp rfl ⟨rfl, rfl, rfl⟩ rfl (fun _ => rfl) ⟨rfl, rfl⟩ (fun hit' e => ?_)
      fun x e => ?_
    · cases e
      exact h.uses t hit (by rw [hp]; rfl)
    · cases e
      exact h.target t (hit, node) (by rw [hp]; rfl)
  | @first hit node hp hh =>
    have hu := h.uses t hit (by rw [hp]; rfl)
    have hnode := h.target t (hit, node) (by rw [hp]; rfl)
    have hpr : (s.phase t).promotes = true := by rw [hp]; rfl
    have hwhole := h.shows.whole (hl.nobody_midway hpr (by rw [hp]; rfl))
    rw [hwhole] at hh
    rw [hp] at hstatus
    have happly : Section.apply (.reading (.get hit.key)) ⟨s.limit, hit.now⟩ o.state =
        (o.state, .value (some hit.value)) := by
      simp only [Section.apply, Reading.apply, hu.stands, HashTable.touch, hnode, hh, if_true]
    refine h.act ⟨s.limit, hit.now⟩ hstatus (by rw [happly]; rfl) ⟨rfl, rfl, rfl⟩
      (.inl (Reading.apply_sameBuckets ..)) hu.past (hu.since _ _ hstatus) ?_
    rw [happly]
    exact shows_of_whole hwhole (hl.nobody_left hpr rfl rfl)
  | @unlink hit node hp hh =>
    have hwhole := h.shows.whole (hl.nobody_midway (by rw [hp]; rfl) (by rw [hp]; rfl))
    refine ⟨o, .inl rfl, h.stay rfl ⟨rfl, rfl, rfl⟩ (fun _ => by rw [hp]; rfl)
      (fun hit' e => ?_) (fun x e => ?_) ⟨fun hn => ?_, fun t' hit' node' hp' => ?_⟩⟩
    · cases e
      exact h.uses t hit (by rw [hp]; rfl)
    · cases e
      exact h.target t (hit, node) (by rw [hp]; rfl)
    · have hmid := hn t
      change (update s.phase t (.unlinked hit node) t).midway = false at hmid
      rw [update_self] at hmid
      cases hmid
    · change update s.phase t (.unlinked hit node) t' = .unlinked hit' node' at hp'
      by_cases ht : t' = t
      · rw [ht, update_self] at hp'
        cases hp'
        rw [← hwhole]
        exact ⟨hh, rfl⟩
      · rw [update_of_ne ht] at hp'
        exact absurd (hl.promotes_unique (by rw [hp]; rfl) (by rw [hp']; rfl)) ht
  | @push hit node hp =>
    have hu := h.uses t hit (by rw [hp]; rfl)
    have hnode := h.target t (hit, node) (by rw [hp]; rfl)
    obtain ⟨hh, hhalf⟩ := h.shows.half t hit node hp
    rw [hp] at hstatus
    have happly : Section.apply (.reading (.get hit.key)) ⟨s.limit, hit.now⟩ o.state =
        ({ s.shard with table := s.shard.table.lruPushFront node }, .value (some hit.value)) := by
      simp only [Section.apply, Reading.apply, hu.stands, HashTable.touch, hnode, hh, if_false,
        hhalf]
    refine h.act ⟨s.limit, hit.now⟩ hstatus (by rw [happly]; rfl) ⟨rfl, rfl, rfl⟩
      (.inl (Reading.apply_sameBuckets ..)) hu.past (hu.since _ _ hstatus) ?_
    rw [happly]
    exact shows_of_whole rfl (hl.nobody_left (by rw [hp]; rfl) rfl rfl)
  | @write w limit hp =>
    have halone := hl.alone (t := t) (by rw [hp]; rfl)
    have hwhole := h.shows.whole fun t' => Phase.midway_of_use (halone t')
    rw [hp] at hstatus
    refine h.act ⟨limit, s.clock⟩ hstatus (by rw [← hwhole]; rfl) ⟨rfl, rfl, rfl⟩ (.inr halone)
      (Int.le_refl _) (h.seenAt hstatus) (shows_of_whole (by rw [← hwhole]; rfl) fun t' => ?_)
    show (update s.phase t (.leaving (.writing w) _) t').midway = false
    by_cases ht : t' = t
    · rw [ht, update_self]
      rfl
    · rw [update_of_ne ht]
      exact Phase.midway_of_use (halone t')
  | @leave sec answer hp =>
    rw [hp] at hstatus
    refine ⟨_, .inr (.return hstatus), h.see (p := .outside) ?_ ?_ ?_ rfl rfl (by rw [hp]; rfl)⟩
    all_goals cases sec <;> first | rfl | exact ⟨rfl, rfl⟩

theorem Follows.perform {a : Action} (h : Follows s o) (hl : Locks s)
    (hs : s.perform a = some s') :
    ∃ o', (o' = o ∨ Atomic.Step Section.apply o o') ∧ Follows s' o' := by
  cases a with
  | tick now =>
    simp only [Locked.perform, Option.ite_none_right_eq_some, Option.some.injEq] at hs
    obtain ⟨hle, rfl⟩ := hs
    exact ⟨o, .inl rfl, h.tick ⟨rfl, rfl, rfl, rfl⟩ hle⟩
  | store bytes =>
    cases hs
    exact ⟨o, .inl rfl, h.tick ⟨rfl, rfl, rfl, rfl⟩ (Int.le_refl _)⟩
  | call t sec =>
    simp only [Locked.perform, Option.ite_none_right_eq_some, Option.some.injEq] at hs
    obtain ⟨hp, rfl⟩ := hs
    obtain ⟨since, hstatus⟩ := h.status t
    rw [hp] at hstatus
    refine ⟨_, .inr (.call sec hstatus), h.see (p := .waiting sec) rfl ⟨rfl, rfl⟩ ⟨rfl, rfl⟩ ?_ rfl
      (by rw [hp]; rfl)⟩
    rw [h.history]
    rfl
  | advance t => exact (move_of_advance hs).follows hl h

/-- **The locked shard implements the atomic one.** -/
theorem Reachable.follows (h : Reachable start s) :
    ∃ o, Atomic.Reachable Section.apply start o ∧ Follows s o := by
  induction h with
  | start clock limit =>
    exact ⟨_, .start, rfl, rfl, fun x hx => (by cases hx), fun t => ⟨0, rfl⟩,
      fun t sec i hc => (by cases hc), fun t hit hu => (by cases hu), fun t x hx => (by cases hx),
      shows_of_whole rfl fun _ => rfl, fun e he => (by cases he)⟩
  | step a hr hs ih =>
    obtain ⟨o, ho, hf⟩ := ih
    obtain ⟨o', hor, hf'⟩ := hf.perform hr.locks hs
    rcases hor with rfl | hstep
    · exact ⟨o', ho, hf'⟩
    · exact ⟨o', ho.step hstep, hf'⟩

/-- **The sections of a shard are linearizable.** Some log of sections, each between its call
and its return and with a clock read in between, gives every answer when it is replayed, and
gives the shard whenever no key is being moved. -/
theorem linearizable (h : Reachable start s) :
    ∃ log abs, Atomic.Explains Section.apply start s.history log abs ∧ (∀ e ∈ log, Timely s e) ∧
      (s.lruHolder = none → s.shard = abs) := by
  obtain ⟨o, ho, hf⟩ := h.follows
  refine ⟨o.log, o.state, hf.history ▸ ho.explains, hf.timely, fun hfree => ?_⟩
  refine hf.shows.whole fun t => Bool.eq_false_iff.2 fun hm => ?_
  have := (h.locks.lruHolder t).2 (Phase.promotes_of_midway hm)
  rw [hfree] at this
  cases this

/-- Two keys under a limit, the second used last. -/
def twoKeys : Shard where
  table := (((HashTable.new 2).put (bytes "a") (bytes "1")).1.put (bytes "b") (bytes "2")).1
  maxMemoryBytes := 4096

/-- Two readers at once: the second one seeks its node while the first one's is off the list. -/
theorem linearizable_twoKeys : ∃ s, Reachable twoKeys s ∧
    s.history = [.called 0 (.reading (.get (bytes "a"))), .called 1 (.reading (.get (bytes "b"))),
      .returned 0 (.value (some (bytes "1"))), .returned 1 (.value (some (bytes "2")))] ∧
    ∃ log abs, Atomic.Explains Section.apply twoKeys s.history log abs ∧
      (∀ e ∈ log, Timely s e) ∧ (s.lruHolder = none → s.shard = abs) := by
  have hrun : (List.foldlM perform { shard := twoKeys, clock := 0, limit := 4096 }
      [.call 0 (.reading (.get (bytes "a"))), .call 1 (.reading (.get (bytes "b"))),
        .advance 0, .advance 1, .advance 0, .advance 1, .advance 0, .advance 0, .advance 0,
        .advance 1, .tick 5, .advance 0, .advance 0, .advance 1, .advance 1, .advance 1,
        .advance 1]).map (·.history) =
      some [.called 0 (.reading (.get (bytes "a"))), .called 1 (.reading (.get (bytes "b"))),
        .returned 0 (.value (some (bytes "1"))), .returned 1 (.value (some (bytes "2")))] := by
    decide +kernel
  obtain ⟨s, hs, hh⟩ := Option.map_eq_some_iff.1 hrun
  have hr := (@Reachable.start twoKeys 0 4096).performs hs
  exact ⟨s, hr, hh, linearizable hr⟩

/-! ### Everybody gets through -/

theorem Move.cost (hm : Move s t s') :
    ∃ p, s'.phase = update s.phase t p ∧ p.cost < (s.phase t).cost := by
  cases hm with
  | @leave sec answer hp =>
    refine ⟨.outside, ?_, by rw [hp]; simp [Phase.cost]⟩
    cases sec <;> rfl
  | lockShared hp _ | lockExclusive hp _ _ | use hp _ | look hp _ | lost hp _ | found hp _
  | lockLru hp _ | first hp _ | unlink hp _ | push hp | load hp | write hp =>
    exact ⟨_, rfl, by rw [hp]; simp [Phase.cost]⟩

theorem Reachable.finite (h : Reachable start s) :
    ∃ F : Finset Nat, ∀ t, s.phase t ≠ .outside → t ∈ F := by
  induction h with
  | start clock limit => exact ⟨∅, fun t ht => absurd rfl ht⟩
  | @step s s' a _ hs ih =>
    obtain ⟨F, hF⟩ := ih
    have hone : ∃ t p, s'.phase = update s.phase t p ∨ s'.phase = s.phase := by
      cases a with
      | tick now =>
        simp only [Locked.perform, Option.ite_none_right_eq_some, Option.some.injEq] at hs
        obtain ⟨-, rfl⟩ := hs
        exact ⟨0, .outside, .inr rfl⟩
      | store bytes =>
        cases hs
        exact ⟨0, .outside, .inr rfl⟩
      | call t sec =>
        simp only [Locked.perform, Option.ite_none_right_eq_some, Option.some.injEq] at hs
        obtain ⟨-, rfl⟩ := hs
        exact ⟨t, _, .inl rfl⟩
      | advance t =>
        obtain ⟨p, hp, -⟩ := (move_of_advance hs).cost
        exact ⟨t, p, .inl hp⟩
    obtain ⟨t, p, hp⟩ := hone
    refine ⟨insert t F, fun t' ht' => ?_⟩
    by_cases ht : t' = t
    · exact ht ▸ Finset.mem_insert_self ..
    · refine Finset.mem_insert_of_mem (hF t' ?_)
      rcases hp with hp | hp
      · rwa [hp, update_of_ne ht] at ht'
      · rwa [hp] at ht'

end Locked

/-! ### Calls go from section to section -/

theorem setWith_eq (db : Database) (key value : Bytes) (expiration : Option Int) :
    (db.setWith key value expiration).map id Answer.outcome =
      (Writing.setWith db.maxMemoryBytes (db.shardFor key) key value expiration).map
        (db.setShard (db.shardIndexFor key)) id := by
  unfold setWith Writing.setWith fitsWithinLimit
  have hself := setShard_get (db.shards_shardFor key)
  by_cases h0 : db.maxMemoryBytes = 0
  · simp [h0]
  · by_cases hfit : HashTable.footprintEstimate key value ≤ db.maxMemoryBytes
    · simp [h0, hfit, Nat.not_lt.2 hfit]
    · simp [h0, hfit, Nat.lt_of_not_le hfit, hself]

theorem step_section {db : Database} {now : Int} {op : Op} {key : Bytes} {sec : Section}
    (h : op.section = some (key, sec)) : db.step op (fun _ => now) =
      (sec.apply ⟨db.maxMemoryBytes, now⟩ (db.shardFor key)).map
        (db.setShard (db.shardIndexFor key)) id := by
  have hself := setShard_get (db.shards_shardFor key)
  cases op with
  | set key value => cases h; exact db.setWith_eq key value none
  | setFor key value life => cases h; exact db.setWith_eq key value _
  | get key =>
    cases h
    simp only [step, get, Section.apply, Reading.apply, Reading.hit, Reading.answer]
    cases (db.shardFor key).table.find key with
    | none => simp [hself]
    | some entry =>
      by_cases he : entry.isExpiredAt now = true
      · simp [he, hself]
      · by_cases hm : (db.shardFor key).maxMemoryBytes = 0
        · simp [he, hm, hself]
        · simp [he, hm]
  | ttl key =>
    cases h
    simp only [step, ttl, Section.apply, Reading.apply, Reading.hit, Reading.answer]
    cases (db.shardFor key).table.find key with
    | none => simp [hself]
    | some entry =>
      cases hx : entry.expiration with
      | none => simp [hx, hself]
      | some x => simp [hx, hself]
  | existsKey key =>
    cases h
    simp only [step, existsKey, Section.apply, Reading.apply, Reading.hit, Reading.answer]
    cases (db.shardFor key).table.find key with
    | none => simp [hself]
    | some entry => simp [hself]
  | del key =>
    cases h
    simp only [step, del, Section.apply, Writing.apply]
    cases (db.shardFor key).table.find key with
    | none => simp [hself]
    | some entry => simp
  | keys | snapshot | removeExpired _ | clear | setMaxMemory _ | restore _ => cases h

/-- **Each step of a call is a section on one shard.** -/
theorem Call.advance_section {db : Database} {call : Call} {i : Nat} {sec : Section} (now : Int)
    (h : call.next db = some (i, sec)) : ∃ shard, db.shards[i]? = some shard ∧
      (call.advance db now).1 =
        db.setShard i (sec.apply ⟨db.maxMemoryBytes, now⟩ shard).1 := by
  have hread : ∀ {i : Nat} {shard : Shard} {r : Reading}, db.shards[i]? = some shard →
      r.hit now shard = none → db = db.setShard i (r.apply now shard).1 := by
    intro i shard r hs hr
    simp only [Reading.apply, hr]
    exact (setShard_get hs).symm
  cases call with
  | atKey op =>
    simp only [Call.next, Option.map_eq_some_iff] at h
    obtain ⟨x, hx, he⟩ := h
    cases he
    refine ⟨db.shardFor x.1, db.shards_shardFor x.1, ?_⟩
    simp only [Call.advance, step_section hx]
    rfl
  | keys next result =>
    simp only [Call.next, Option.ite_none_right_eq_some, Option.some.injEq] at h
    obtain ⟨hlt, he⟩ := h
    cases he
    have hs := List.getElem?_eq_getElem hlt
    refine ⟨_, hs, ?_⟩
    simp only [Call.advance, hs]
    exact hread hs rfl
  | snapshot next result =>
    simp only [Call.next, Option.ite_none_right_eq_some, Option.some.injEq] at h
    obtain ⟨hlt, he⟩ := h
    cases he
    have hs := List.getElem?_eq_getElem hlt
    refine ⟨_, hs, ?_⟩
    simp only [Call.advance, hs]
    exact hread hs rfl
  | removeExpired perShard next removed =>
    simp only [Call.next, Option.ite_none_right_eq_some, Option.some.injEq] at h
    obtain ⟨hlt, he⟩ := h
    cases he
    have hs := List.getElem?_eq_getElem hlt
    exact ⟨_, hs, by simp only [Call.advance, hs]; rfl⟩
  | clear next =>
    simp only [Call.next, Option.ite_none_right_eq_some, Option.some.injEq] at h
    obtain ⟨hlt, he⟩ := h
    cases he
    have hs := List.getElem?_eq_getElem hlt
    exact ⟨_, hs, by simp only [Call.advance, hs]; rfl⟩
  | setMaxMemory bytes next =>
    simp only [Call.next, Option.ite_none_right_eq_some, Option.some.injEq] at h
    obtain ⟨hlt, he⟩ := h
    cases he
    have hs := List.getElem?_eq_getElem hlt
    exact ⟨_, hs, by simp only [Call.advance, hs]; rfl⟩
  | restoreClear entries next =>
    simp only [Call.next, Option.ite_none_right_eq_some, Option.some.injEq] at h
    obtain ⟨hlt, he⟩ := h
    cases he
    have hs := List.getElem?_eq_getElem hlt
    exact ⟨_, hs, by simp only [Call.advance, hs]; rfl⟩
  | restorePut time entries stored =>
    cases entries with
    | nil => cases h
    | cons entry entries =>
      simp only [Call.next] at h
      split at h
      · cases h
      next hx =>
        cases h
        refine ⟨_, db.shards_shardFor entry.key, ?_⟩
        simp only [Call.advance, restoreEntry, if_neg hx]
        rfl
  | returned answer => cases h

/-- A call on one key is one that is made on one key. -/
def Call.Made (call : Call) : Prop := ∀ op, call = .atKey op → op.section ≠ none

theorem Call.made_of (shards : Nat) (op : Op) : (Call.of shards op).Made := by
  intro op' h
  cases op with
  | removeExpired maxBuckets =>
    simp only [Call.of] at h
    split at h <;> cases h
  | _ => cases h <;> exact Option.some_ne_none _

theorem Call.made_advance (call : Call) (db : Database) (now : Int) :
    (call.advance db now).2.Made := by
  intro op h
  cases call with
  | restorePut time entries stored => cases entries <;> cases h
  | atKey op => cases h
  | returned answer => cases h
  | _ =>
    simp only [Call.advance] at h
    split at h <;> cases h

theorem Call.Made.advance_none {db : Database} {call : Call} (hmade : call.Made) (now : Int)
    (h : call.next db = none) :
    ∃ limit, (call.advance db now).1 = { db with maxMemoryBytes := limit } ∧
      (limit = db.maxMemoryBytes ∨ ∃ n, call = .setMaxMemory limit n) := by
  have hend : ∀ {next : Nat} {x : Nat × Section},
      (if next < db.shards.length then some x else none) = none → db.shards[next]? = none := by
    intro next x hx
    refine List.getElem?_eq_none (Nat.le_of_not_lt fun hlt => ?_)
    rw [if_pos hlt] at hx
    cases hx
  cases call with
  | atKey op => exact absurd (Option.map_eq_none_iff.1 h) (hmade op rfl)
  | restorePut time entries stored =>
    refine ⟨db.maxMemoryBytes, ?_, .inl rfl⟩
    cases entries with
    | nil => rfl
    | cons entry entries =>
      simp only [Call.next] at h
      split at h
      next hx => simp only [Call.advance, restoreEntry, if_pos hx]; rfl
      next => cases h
  | returned answer => exact ⟨db.maxMemoryBytes, rfl, .inl rfl⟩
  | setMaxMemory bytes n => exact ⟨bytes, by simp only [Call.advance, hend h], .inr ⟨n, rfl⟩⟩
  | _ => exact ⟨db.maxMemoryBytes, by simp only [Call.advance, hend h], .inl rfl⟩

end Database

end VCache
