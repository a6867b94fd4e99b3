import VCache.Database.Concurrent
import VCache.Database.Reads

/-!
# Listings under concurrent calls

`keys` and `snapshot` read the shards one after the other while other calls write to them.
No key changes its shard, so each is read at one moment, the one at which its shard is
read. The list has no key twice, shows nothing that was not there at some moment of the
call, and misses nothing that was there all along.
-/

namespace VCache

open VCache.Lib

namespace Database

theorem AllValid.lookup_iff {db : Database} (h : db.AllValid) {i : Nat} {s : Shard} {e : Entry}
    (hs : db.shards[i]? = some s) (he : db.shardIndexFor e.key = i) :
    db.lookup e.key = some e ↔ e ∈ s.entries := by
  have hfor := db.shards_shardFor e.key
  rw [he, hs] at hfor
  have hholds := (h i s hs).holds
  rw [lookup, ← Option.some.inj hfor, hholds.find_eq, hholds.distinct.lookup_iff]
  exact and_iff_left rfl

namespace System

/-- The entry is stored and has not expired. -/
def Shows (s : System) (e : Entry) : Prop :=
  s.db.lookup e.key = some e ∧ e.isExpiredAt s.clock = false

theorem mem_scan {s : System} (h : s.db.AllValid) {i : Nat} {shard : Shard}
    (hs : s.db.shards[i]? = some shard) {e : Entry} :
    (e ∈ shard.table.entriesWhere fun entry => !entry.isExpiredAt s.clock) ↔
      s.db.shardIndexFor e.key = i ∧ s.Shows e := by
  rw [((h i shard hs).holds.entriesWhere_perm _).mem_iff, List.mem_filter, Bool.not_eq_true']
  constructor
  · rintro ⟨he, hx⟩
    have hi := (h i shard hs).routed e he
    exact ⟨hi, (h.lookup_iff hs hi).2 he, hx⟩
  · rintro ⟨hi, he, hx⟩
    exact ⟨(h.lookup_iff hs hi).1 he, hx⟩

/-- What a listing has of the shards in front of `next`, after the states `seen`. -/
structure Scanned (route : Bytes → Nat) (seen : List System) (next : Nat) (es : List Entry) :
    Prop where
  distinct : Keyed.Distinct (·.key) es
  visited : ∀ e ∈ es, route e.key < next
  shown : ∀ e ∈ es, ∃ s ∈ seen, s.Shows e
  complete : ∀ e, route e.key < next → (∀ s ∈ seen, s.Shows e) → e ∈ es

section

variable {route : Bytes → Nat} {seen : List System} {next : Nat} {es : List Entry}

theorem Scanned.start (route : Bytes → Nat) (seen : List System) : Scanned route seen 0 [] :=
  ⟨List.nodup_nil, fun e he => (by cases he), fun e he => (by cases he),
    fun e he => absurd he (Nat.not_lt_zero _)⟩

theorem Scanned.later (h : Scanned route seen next es) (s : System) :
    Scanned route (s :: seen) next es where
  distinct := h.distinct
  visited := h.visited
  shown := fun e he => by
    obtain ⟨s', hs', hshow⟩ := h.shown e he
    exact ⟨s', List.mem_cons_of_mem _ hs', hshow⟩
  complete := fun e he hall => h.complete e he fun s' hs' => hall s' (List.mem_cons_of_mem _ hs')

theorem Scanned.visit (h : Scanned route seen next es) {s : System} (hmem : s ∈ seen)
    (hv : s.db.AllValid) (hroute : s.db.shardIndexFor = route) {shard : Shard}
    (hs : s.db.shards[next]? = some shard) :
    Scanned route seen (next + 1)
      (es ++ shard.table.entriesWhere fun entry => !entry.isExpiredAt s.clock) := by
  have hscan := fun e => mem_scan hv hs (e := e)
  rw [hroute] at hscan
  have hperm := (hv next shard hs).holds.entriesWhere_perm fun entry => !entry.isExpiredAt s.clock
  refine ⟨?_, fun e he => ?_, fun e he => ?_, fun e he hall => ?_⟩
  · exact h.distinct.append_routed
      (((hv next shard hs).holds.distinct.sublist List.filter_sublist).perm hperm.symm) h.visited
      fun e he => ((hscan e).1 he).1
  · rcases List.mem_append.1 he with he | he
    · exact Nat.lt_succ_of_lt (h.visited e he)
    · rw [((hscan e).1 he).1]
      exact Nat.lt_succ_self next
  · rcases List.mem_append.1 he with he | he
    · exact h.shown e he
    · exact ⟨s, hmem, ((hscan e).1 he).2⟩
  · rcases Nat.lt_succ_iff_lt_or_eq.1 he with he | he
    · exact List.mem_append_left _ (h.complete e he hall)
    · exact List.mem_append_right _ ((hscan e).2 ⟨he, hall s hmem⟩)

end

/-! ## A listing among other calls -/

/-- A call that lists the entries it finds, in one form or another. -/
structure Lists (under : Nat → List Entry → Call) (done : List Entry → Call) : Prop where
  visit : ∀ {db : Database} {now : Int} {next : Nat} {es : List Entry} {shard : Shard},
    db.shards[next]? = some shard → (under next es).advance db now =
      (db, under (next + 1) (es ++ shard.table.entriesWhere fun entry => !entry.isExpiredAt now))
  finish : ∀ {db : Database} {now : Int} {next : Nat} {es : List Entry},
    db.shards[next]? = none → (under next es).advance db now = (db, done es)
  rest : ∀ {db : Database} {now : Int} {es : List Entry},
    (done es).advance db now = (db, done es)

theorem lists_snapshot : Lists Call.snapshot fun es => .returned (.entries es) where
  visit := fun h => by simp only [Call.advance, h]
  finish := fun h => by simp only [Call.advance, h]
  rest := rfl

theorem lists_keys : Lists (fun next es => .keys next (es.map (·.key)))
    fun es => .returned (.keys (es.map (·.key))) where
  visit := fun h => by simp only [Call.advance, h, HashTable.keysWhere_eq, List.map_append]
  finish := fun h => by simp only [Call.advance, h]
  rest := rfl

/-- Where a listing stands: at work, with what it has so far, or returned. -/
def Listing (under : Nat → List Entry → Call) (done : List Entry → Call) (route : Bytes → Nat)
    (seen : List System) (c : Nat) (s : System) : Prop :=
  (∃ next es, s.calls[c]? = some (under next es) ∧ Scanned route seen next es) ∨
    ∃ es, s.calls[c]? = some (done es)

section

variable {under : Nat → List Entry → Call} {done : List Entry → Call} {route : Bytes → Nat}
  {seen : List System} {c : Nat} {s s' : System}

theorem Listing.advance (hl : Lists under done) (h : Listing under done route seen c s)
    (hmem : s ∈ seen) (hv : s.db.AllValid) (hroute : s.db.shardIndexFor = route) {call : Call}
    (hc : s.calls[c]? = some call) :
    (∃ next es, (call.advance s.db s.clock).2 = under next es ∧ Scanned route seen next es) ∨
      ∃ es, (call.advance s.db s.clock).2 = done es := by
  rcases h with ⟨next, es, hcall, hscan⟩ | ⟨es, hcall⟩
  · rw [hcall] at hc
    cases hc
    cases hs : s.db.shards[next]? with
    | none => exact .inr ⟨es, by rw [hl.finish hs]⟩
    | some shard => exact .inl ⟨next + 1, _, by rw [hl.visit hs], hscan.visit hmem hv hroute hs⟩
  · rw [hcall] at hc
    cases hc
    exact .inr ⟨es, by rw [hl.rest]⟩

theorem Listing.step (hl : Lists under done) (h : Listing under done route seen c s)
    (hmem : s ∈ seen) (hv : s.db.AllValid) (hroute : s.db.shardIndexFor = route)
    (hstep : s.Step s') : Listing under done route (s' :: seen) c s' := by
  have hsame : s'.calls[c]? = s.calls[c]? → Listing under done route (s' :: seen) c s' := by
    intro hc
    rcases h with ⟨next, es, hcall, hscan⟩ | ⟨es, hcall⟩
    · exact .inl ⟨next, es, hc.trans hcall, hscan.later s'⟩
    · exact .inr ⟨es, hc.trans hcall⟩
  have hlt : c < s.calls.length := by
    rcases h with ⟨_, _, hcall, -⟩ | ⟨_, hcall⟩ <;> exact (List.getElem?_eq_some_iff.1 hcall).1
  cases hstep with
  | tick _ => exact hsame rfl
  | call op => exact hsame (List.getElem?_append_left hlt)
  | @advance c' call hc =>
    by_cases hcc : c' = c
    · subst hcc
      have hset := List.getElem?_set_self (a := (call.advance s.db s.clock).2) hlt
      rcases h.advance hl hmem hv hroute hc with ⟨next, es, hcall, hscan⟩ | ⟨es, hcall⟩
      · exact .inl ⟨next, es, hset.trans (congrArg some hcall), hscan.later _⟩
      · exact .inr ⟨es, hset.trans (congrArg some hcall)⟩
    · exact hsame (List.getElem?_set_ne hcc)

theorem listing_of_trace (hl : Lists under done) {s₀ : System} (h₀ : s₀.db.AllValid)
    (hstart : s₀.calls[c]? = some (under 0 [])) (ht : Trace Step s₀ seen s) :
    s₀.db.Keeps s.db ∧ Listing under done s₀.db.shardIndexFor seen c s := by
  induction ht with
  | start => exact ⟨.refl h₀, .inl ⟨0, [], hstart, .start _ _⟩⟩
  | step ht hstep ih =>
    obtain ⟨hkeeps, hlisting⟩ := ih
    have hnext := hstep.keeps hkeeps.valid
    exact ⟨⟨hnext.valid, hnext.route.trans hkeeps.route, hnext.count.trans hkeeps.count⟩,
      hlisting.step hl ht.last_mem hkeeps.valid hkeeps.route hstep⟩

end

/-- A list of entries that is right for each key: no key twice, every entry there at some
moment, every entry that was there at all moments. -/
structure Consistent (seen : List System) (es : List Entry) : Prop where
  distinct : (es.map (·.key)).Nodup
  shown : ∀ e ∈ es, ∃ s ∈ seen, s.Shows e
  complete : ∀ e, (∀ s ∈ seen, s.Shows e) → e ∈ es

/-- With the last shard behind it, every key has been visited. -/
theorem Scanned.consistent {s : System} {seen : List System} {next : Nat} {es : List Entry}
    (h : Scanned s.db.shardIndexFor seen next es) (hnext : s.db.shards[next]? = none) :
    Consistent seen es :=
  ⟨h.distinct, h.shown, fun e hall => h.complete e
    (Nat.lt_of_lt_of_le (s.db.shardIndexFor_lt e.key) (List.getElem?_eq_none_iff.1 hnext)) hall⟩

theorem scan_consistent {under : Nat → List Entry → Call} {done : List Entry → Call}
    (hl : Lists under done) {s₀ s : System} (h₀ : s₀.Reachable) {seen : List System} {c : Nat}
    (hstart : s₀.calls[c]? = some (under 0 [])) (ht : Trace Step s₀ seen s) {call : Call}
    (hcall : s.calls[c]? = some call) (hdone : ∀ es, call ≠ done es) :
    ∃ next es, call = under next es ∧ (s.db.shards[next]? = none → Consistent seen es) := by
  obtain ⟨hkeeps, hlisting⟩ := listing_of_trace hl h₀.allValid hstart ht
  rw [← hkeeps.route] at hlisting
  rcases hlisting with ⟨next, es, hunder, hscan⟩ | ⟨es, hret⟩
  · exact ⟨next, es, Option.some.inj (hcall.symm.trans hunder), hscan.consistent⟩
  · exact absurd (Option.some.inj (hcall.symm.trans hret)) (hdone es)

/-- **A listing is right for each key, whatever comes in between.** The trace goes from the
state in which call `c` has just been made to the one out of which it returns. -/
theorem listings_consistent (s₀ s : System) (seen : List System) (c next : Nat)
    (h₀ : s₀.Reachable) (ht : Trace Step s₀ seen s) :
    (∀ part es, s₀.calls[c]? = some (.snapshot 0 []) → s.calls[c]? = some (.snapshot next part) →
      ((Call.snapshot next part).advance s.db s.clock).2 = .returned (.entries es) →
      Consistent seen es) ∧
    ∀ part ks, s₀.calls[c]? = some (.keys 0 []) → s.calls[c]? = some (.keys next part) →
      ((Call.keys next part).advance s.db s.clock).2 = .returned (.keys ks) →
      ∃ es, ks = es.map (·.key) ∧ Consistent seen es := by
  constructor
  · intro part es hstart hlast hret
    obtain ⟨n, es', hcall, hcons⟩ := scan_consistent lists_snapshot h₀ hstart ht hlast
      (fun _ h => by cases h)
    cases hcall
    cases hs : s.db.shards[next]? with
    | none =>
      rw [lists_snapshot.finish hs] at hret
      cases hret
      exact hcons hs
    | some shard => rw [lists_snapshot.visit hs] at hret; cases hret
  · intro part ks hstart hlast hret
    obtain ⟨n, es, hcall, hcons⟩ := scan_consistent lists_keys h₀ hstart ht hlast
      (fun _ h => by cases h)
    cases hcall
    cases hs : s.db.shards[next]? with
    | none =>
      rw [lists_keys.finish hs] at hret
      cases hret
      exact ⟨es, rfl, hcons hs⟩
    | some shard => rw [lists_keys.visit hs] at hret; cases hret

/-- A system after call `c` has come to its next critical section. -/
def turn (s : System) (c : Nat) : System :=
  match s.calls[c]? with
  | none => s
  | some call =>
    { s with db := (call.advance s.db s.clock).1
             calls := s.calls.set c (call.advance s.db s.clock).2 }

theorem step_turn {s : System} {c : Nat} (h : c < s.calls.length) : s.Step (s.turn c) := by
  unfold turn
  rw [List.getElem?_eq_getElem h]
  exact .advance (List.getElem?_eq_getElem h)

/-- A key is stored, and a snapshot and its deletion are called for. -/
def threeCalls : System :=
  { db := single
    calls := [Call.of 1 (.set [107] [118]), Call.of 1 .snapshot, Call.of 1 (.del [107])]
    clock := 0 }

/-- The key is deleted after its shard has been read. -/
theorem listings_consistent_threeCalls :
    ∃ seen, Consistent seen [⟨[107], [118], none⟩] ∧ (threeCalls.turn 0).turn 1 ∈ seen := by
  have h₀ : (threeCalls.turn 0).Reachable :=
    .step (.step (.step (.step (@Reachable.new 1 1 _ rfl 0) (.call (.set [107] [118])))
      (.call .snapshot)) (.call (.del [107]))) (step_turn (by decide))
  have ht := Trace.step
    (Trace.step .start (step_turn (s := threeCalls.turn 0) (c := 1) (by decide)))
    (step_turn (s := (threeCalls.turn 0).turn 1) (c := 2) (by decide))
  refine ⟨_, (listings_consistent _ _ _ 1 1 h₀ ht).1 [⟨[107], [118], none⟩] _ (by decide +kernel)
    (by decide +kernel) (by decide +kernel), ?_⟩
  exact List.mem_cons_of_mem _ List.mem_cons_self

end System

end Database

end VCache
