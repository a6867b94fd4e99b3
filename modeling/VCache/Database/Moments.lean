import VCache.Database.Coherence
import VCache.Database.Scans

/-!
# Answers and the moments of a call

A call has each of its shards at a moment. What it answers is explained by the keyspace at
those moments: an operation on a key by one of them, a listing by all of them together.
-/

namespace VCache

open Lib

namespace Database

structure Moment where
  now : Int
  map : KeyMap

def Watched.moment (w : Watched) : Moment := ⟨w.sys.clock, w.map⟩

/-- The entries were bound at moments of the call. Without a limit none of the keys `covered`
is missing that was bound to the same at all of them. -/
structure Listed (covered : Bytes → Prop) (limited : Bool) (moments : List Moment)
    (es : List Entry) : Prop where
  distinct : Keyed.Distinct (·.key) es
  visited : ∀ e ∈ es, covered e.key
  shown : ∀ e ∈ es, ∃ m ∈ moments, m.map.live m.now e.key = some e.binding
  complete : limited = false → ∀ k b, covered k → (∀ m ∈ moments, m.map.live m.now k = some b) →
    ∃ e ∈ es, e.key = k ∧ e.binding = b

/-- The answer fits the keyspace at the moments of the call. -/
inductive Explained (limited : Bool) (moments : List Moment) : Op → Answer → Prop where
  | key {op : Op} {x : Bytes × Section} {a : Answer} {m : Moment} : op.section = some x →
      m ∈ moments → m.map.Vouches (op, m.now) a →
      (limited = false → m.map.Allows (op, m.now) a) → Explained limited moments op a
  | keys {es : List Entry} : Listed (fun _ => True) limited moments es →
      Explained limited moments .keys (.keys (es.map (·.key)))
  | snapshot {es : List Entry} : Listed (fun _ => True) limited moments es →
      Explained limited moments .snapshot (.entries es)

/-- A call made for an operation, at one of its stages. -/
inductive Underway (route : Bytes → Nat) (limited : Bool) (moments : List Moment) :
    Op → Call → Prop where
  | key {op : Op} {x : Bytes × Section} : op.section = some x →
      Underway route limited moments op (.atKey op)
  | keys {next : Nat} {es : List Entry} : Listed (route · < next) limited moments es →
      Underway route limited moments .keys (.keys next (es.map (·.key)))
  | snapshot {next : Nat} {es : List Entry} : Listed (route · < next) limited moments es →
      Underway route limited moments .snapshot (.snapshot next es)
  | done {op : Op} {a : Answer} : Explained limited moments op a →
      Underway route limited moments op (.returned a)

section

variable {covered : Bytes → Prop} {route : Bytes → Nat} {limited : Bool} {moments : List Moment}
  {es : List Entry} {op : Op} {a : Answer} {call : Call} {db : Database} {clock : Int} {m : KeyMap}

theorem Listed.start : Listed (route · < 0) limited [] [] :=
  ⟨List.nodup_nil, fun e he => (by cases he), fun e he => (by cases he),
    fun _ k b hk => absurd hk (Nat.not_lt_zero _)⟩

theorem Listed.later (h : Listed covered limited moments es) (x : Moment) :
    Listed covered limited (moments ++ [x]) es where
  distinct := h.distinct
  visited := h.visited
  shown := fun e he => by
    obtain ⟨y, hy, hl⟩ := h.shown e he
    exact ⟨y, List.mem_append_left _ hy, hl⟩
  complete := fun hl k b hk hall =>
    h.complete hl k b hk fun y hy => hall y (List.mem_append_left _ hy)

theorem Listed.weaken (h : Listed covered limited moments es) (b : Bool) :
    Listed covered (limited || b) moments es :=
  ⟨h.distinct, h.visited, h.shown, fun hl => h.complete (Bool.or_eq_false_iff.1 hl).1⟩

theorem Listed.visit {next : Nat} {shard : Shard}
    (h : Listed (db.shardIndexFor · < next) limited moments es)
    (hc : db.Coherent clock limited m) (hs : db.shards[next]? = some shard) :
    Listed (db.shardIndexFor · < next + 1) limited (moments ++ [⟨clock, m⟩])
      (es ++ shard.table.entriesWhere fun entry => !entry.isExpiredAt clock) := by
  have hscan := fun e => System.mem_scan (s := ⟨db, [], clock⟩) hc.valid hs (e := e)
  have hlast : (⟨clock, m⟩ : Moment) ∈ moments ++ [⟨clock, m⟩] :=
    List.mem_append_right _ (List.mem_singleton.2 rfl)
  have hholds := (hc.valid next shard hs).holds
  have hperm := hholds.entriesWhere_perm fun entry => !entry.isExpiredAt clock
  refine ⟨?_, fun e he => ?_, fun e he => ?_, fun hl k b hk hall => ?_⟩
  · exact h.distinct.append_routed ((hholds.distinct.sublist List.filter_sublist).perm hperm.symm)
      h.visited fun e he => ((hscan e).1 he).1
  · rcases List.mem_append.1 he with he | he
    · exact Nat.lt_succ_of_lt (h.visited e he)
    · exact Nat.lt_succ_of_le (Nat.le_of_eq ((hscan e).1 he).1)
  · rcases List.mem_append.1 he with he | he
    · exact (h.later _).shown e he
    · obtain ⟨-, hlookup, hx⟩ := (hscan e).1 he
      refine ⟨_, hlast, hc.live (Option.filter_eq_some_iff.2 ⟨hlookup, ?_⟩)⟩
      rw [show e.isExpiredAt clock = false from hx]
      rfl
  · rcases Nat.lt_succ_iff_lt_or_eq.1 hk with hk | hk
    · obtain ⟨e, he, hb⟩ := (h.later _).complete hl k b hk hall
      exact ⟨e, List.mem_append_left _ he, hb⟩
    · have hlive := (hc.tracks hl).live_eq (Int.le_refl _) k
      rw [show m.live clock k = some b from hall _ hlast] at hlive
      obtain ⟨e, he, hb⟩ := Option.map_eq_some_iff.1 hlive
      obtain ⟨hlookup, hx⟩ := Option.filter_eq_some_iff.1 he
      obtain rfl := (hc.tracks hl).inv.key_of_lookup hlookup
      refine ⟨e, List.mem_append_right _ ((hscan e).2 ⟨hk, hlookup, ?_⟩), rfl, hb⟩
      rwa [Bool.not_eq_true'] at hx

theorem Listed.all {next : Nat} (h : Listed (db.shardIndexFor · < next) limited moments es)
    (hs : db.shards[next]? = none) : Listed (fun _ => True) limited moments es where
  distinct := h.distinct
  visited := fun _ _ => trivial
  shown := h.shown
  complete := fun hl k b _ => h.complete hl k b
    (Nat.lt_of_lt_of_le (db.shardIndexFor_lt k) (List.getElem?_eq_none_iff.1 hs))

theorem Explained.later (h : Explained limited moments op a) (x : Moment) :
    Explained limited (moments ++ [x]) op a := by
  cases h with
  | key hop hm hv ha => exact .key hop (List.mem_append_left _ hm) hv ha
  | keys h => exact .keys (h.later x)
  | snapshot h => exact .snapshot (h.later x)

theorem Explained.weaken (h : Explained limited moments op a) (b : Bool) :
    Explained (limited || b) moments op a := by
  cases h with
  | key hop hm hv ha => exact .key hop hm hv fun hl => ha (Bool.or_eq_false_iff.1 hl).1
  | keys h => exact .keys (h.weaken b)
  | snapshot h => exact .snapshot (h.weaken b)

theorem Underway.weaken (h : Underway route limited moments op call) (b : Bool) :
    Underway route (limited || b) moments op call := by
  cases h with
  | key hop => exact .key hop
  | keys h => exact .keys (h.weaken b)
  | snapshot h => exact .snapshot (h.weaken b)
  | done h => exact .done (h.weaken b)

/-- **A call that goes on is explained by one moment more.** -/
theorem Underway.advance (h : Underway db.shardIndexFor limited moments op call)
    (hc : db.Coherent clock limited m) :
    Underway db.shardIndexFor limited (moments ++ [⟨clock, m⟩]) op (call.advance db clock).2 := by
  have hlast : (⟨clock, m⟩ : Moment) ∈ moments ++ [⟨clock, m⟩] :=
    List.mem_append_right _ (List.mem_singleton.2 rfl)
  cases h with
  | key hop =>
    exact .done (.key hop hlast (hc.vouches op clock) fun hl => hc.allows hl hop)
  | @keys next es h =>
    cases hs : db.shards[next]? with
    | none =>
      rw [System.lists_keys.finish hs]
      exact .done (.keys ((h.all hs).later _))
    | some shard =>
      rw [System.lists_keys.visit hs]
      exact .keys (h.visit hc hs)
  | @snapshot next es h =>
    cases hs : db.shards[next]? with
    | none =>
      rw [System.lists_snapshot.finish hs]
      exact .done (.snapshot ((h.all hs).later _))
    | some shard =>
      rw [System.lists_snapshot.visit hs]
      exact .snapshot (h.visit hc hs)
  | done h => exact .done (h.later _)

theorem Underway.listed
    (h : Underway route limited moments .snapshot (.returned (.entries es))) :
    Listed (fun _ => True) limited moments es := by
  cases h with
  | done h =>
    cases h with
    | key hop => cases hop
    | snapshot h => exact h

theorem Underway.made (h : Underway route limited moments op call) :
    call.Made ∧ call.Limitless := by
  cases h with
  | key hop =>
    refine ⟨fun op' e => ?_, fun _ _ e => by cases e⟩
    cases e
    rw [hop]
    exact Option.some_ne_none _
  | keys _ | snapshot _ | done _ => exact ⟨fun _ e => (by cases e), fun _ _ e => by cases e⟩

end

end Database

end VCache
