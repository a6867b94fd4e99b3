import Mathlib.Data.Multiset.Defs
import VCache.Lib.Cycle
import VCache.Table.Spec

/-!
# Rehashing cannot be seen

`resize` moves every node to another chain and changes nothing a caller can ask for. What
a table answers is a function of the entries it holds, in recency order: `Op.answers`. So
a run of calls gives the same answers with any requests to resize put in or left out.
-/

namespace VCache

open VCache.Lib

namespace HashTable

/-! ## One call -/

theorem Inv.nodes_relink {t : HashTable} {l : List Ptr} (h : t.Inv l) {m : Nat} :
    (t.relink (2 ^ m)).nodes.Perm t.nodes ∧ (t.relink (2 ^ m)).recency = t.recency := by
  refine ⟨(relink_spec t ⟨m, rfl⟩ h.placed).2.1, ?_⟩
  rw [(h.relink ⟨m, rfl⟩).recency_eq, h.recency_eq]

/-- The bucket count `resize` settles on is the least that serves the request and the load. -/
theorem resizeTarget_isLeast (size : Nat) {n : UInt64} (hn : n.toNat ≤ 2 ^ 63) :
    ∃ m, resizeTarget size n = some (2 ^ m) ∧
      IsLeast {b | (∃ k, b = 2 ^ k) ∧ (n.toNat ≤ b ∧ 4 * size ≤ 3 * b)} (2 ^ m) := by
  obtain ⟨j, -, hj, hle⟩ := roundUpToPowerOfTwo_pow n hn
  obtain ⟨m, hjm, htarget, hfit, hmin⟩ := resizeTarget_pow size hj
  refine ⟨m, htarget, isLeast_two_pow (P := fun b => n.toNat ≤ b ∧ 4 * size ≤ 3 * b) ⟨?_, hfit⟩ ?_⟩
  · exact hle.trans (Nat.pow_le_pow_right (by omega) hjm)
  · rintro i him ⟨hni, hsi⟩
    rcases Nat.lt_or_ge i j with hij | hij
    · have hlt : 2 ^ i < 2 ^ j := Nat.pow_lt_pow_right (by omega) hij
      have := roundUpToPowerOfTwo_least n hn (by rw [hj]; exact hlt)
      omega
    · have := hmin i hij him
      omega

theorem isLeast_le {size n b : Nat} (hn : n ≤ 2 ^ 62) (hs : size < 2 ^ 53)
    (h : IsLeast {b | (∃ k, b = 2 ^ k) ∧ (n ≤ b ∧ 4 * size ≤ 3 * b)} b) : b ≤ 2 ^ 62 :=
  h.2 ⟨⟨62, rfl⟩, hn, by omega⟩

/-! ## Runs -/

/-- The calls of a table. `removeIf` is the call that goes over all the buckets, from any
of them. -/
inductive Op where
  | put (key value : Bytes)
  | setExpiration (key : Bytes) (expiration : Option Int)
  | find (key : Bytes)
  | touch (key : Bytes)
  | remove (key : Bytes)
  | evictOldest
  | removeIf (firstBucket : Nat) (predicate : Entry → Bool)
  | clear
  | keys
  | size
  | entryBytes
  | mostRecentKey
  | leastRecentKey
  | resize (newBucketCount : UInt64)

/-- What a call returns. Keys come in no particular order. -/
inductive Answer where
  | flag (b : Bool)
  | entry (e : Option Entry)
  | key (k : Option Bytes)
  | count (n : Nat)
  | keys (ks : Multiset Bytes)

/-- One call, and what it returns; `none` when it does not return. -/
def step (t : HashTable) : Op → Option (HashTable × List Answer)
  | .put key value => some ((t.put key value).1, [.flag (t.put key value).2])
  | .setExpiration key expiration => some (t.setExpiration key expiration, [])
  | .find key => some (t, [.entry (t.find key)])
  | .touch key => some ((t.touch key).1, [.flag (t.touch key).2])
  | .remove key => some ((t.remove key).1, [.flag (t.remove key).2])
  | .evictOldest => some (t.evictOldest.1, [.key t.evictOldest.2])
  | .removeIf first pred =>
    some ((t.removeIf first t.bucketCount pred).1, [.count (t.removeIf first t.bucketCount pred).2])
  | .clear => some (t.clear, [])
  | .keys => some (t, [.keys t.keys])
  | .size => some (t, [.count t.size])
  | .entryBytes => some (t, [.count t.entryBytes])
  | .mostRecentKey => some (t, [.key t.mostRecentKey])
  | .leastRecentKey => some (t, [.key t.leastRecentKey])
  | .resize n => (t.resize n).map fun t' => (t', [])

def run : HashTable → List Op → Option (HashTable × List Answer)
  | t, [] => some (t, [])
  | t, op :: ops =>
    match t.step op with
    | none => none
    | some (t', answers) => (run t' ops).map fun r => (r.1, answers ++ r.2)

/-- The entries after a call. -/
def Op.after (es : List Entry) : Op → List Entry
  | .put key value => { key := key, value := value } :: Keyed.without (·.key) key es
  | .setExpiration key expiration =>
    Keyed.adjust (·.key) key (fun e => { e with expiration := expiration }) es
  | .touch key => Keyed.promote (·.key) key es
  | .remove key => Keyed.without (·.key) key es
  | .evictOldest => es.dropLast
  | .removeIf _ pred => es.filter fun e => !pred e
  | .clear => []
  | _ => es

/-- The answer of a call to a table that holds `es`. -/
def Op.answers (es : List Entry) : Op → List Answer
  | .put key _ => [.flag (Keyed.lookup (·.key) key es).isNone]
  | .find key => [.entry (Keyed.lookup (·.key) key es)]
  | .touch key => [.flag (Keyed.lookup (·.key) key es).isSome]
  | .remove key => [.flag (Keyed.lookup (·.key) key es).isSome]
  | .evictOldest => [.key (es.getLast?.map (·.key))]
  | .removeIf _ pred => [.count (es.filter pred).length]
  | .keys => [.keys (es.map (·.key))]
  | .size => [.count es.length]
  | .entryBytes => [.count (es.map Entry.footprint).sum]
  | .mostRecentKey => [.key (es.head?.map (·.key))]
  | .leastRecentKey => [.key (es.getLast?.map (·.key))]
  | .setExpiration .. | .clear | .resize _ => []

/-- A request to resize stays within the range of the bucket count. -/
def Op.InRange : Op → Prop
  | .resize n => n.toNat ≤ 2 ^ 62
  | _ => True

def Op.isResize : Op → Bool
  | .resize _ => true
  | _ => false

theorem Holds.keys_perm {t : HashTable} {es : List Entry} (h : t.Holds es) :
    t.keys.Perm (es.map (·.key)) := by
  obtain ⟨⟨l, hl, rfl⟩, -⟩ := h
  rw [List.map_map]
  exact hl.perm.symm.map _

theorem Holds.mostRecentKey_eq {t : HashTable} {es : List Entry} (h : t.Holds es) :
    t.mostRecentKey = es.head?.map (·.key) := by
  obtain ⟨⟨l, hl, rfl⟩, -⟩ := h
  have hhead : t.lruHead = l.head? := hl.linked.head
  rw [mostRecentKey, hhead, List.head?_map, Option.map_map]
  rfl

theorem Holds.leastRecentKey_eq {t : HashTable} {es : List Entry} (h : t.Holds es) :
    t.leastRecentKey = es.getLast?.map (·.key) := by
  obtain ⟨⟨l, hl, rfl⟩, -⟩ := h
  have htail : t.lruTail = l.getLast? := hl.linked.tail
  rw [leastRecentKey, htail, List.getLast?_map, Option.map_map]
  rfl

theorem Holds.touch_flag {t : HashTable} {es : List Entry} (h : t.Holds es) (key : Bytes) :
    (t.touch key).2 = (Keyed.lookup (·.key) key es).isSome := by
  rw [← h.find_eq key]
  unfold HashTable.touch find
  cases t.findNode key with
  | none => rfl
  | some p =>
    simp only [Option.map_some, Option.isSome_some]
    split <;> rfl

theorem Holds.removeIf_all {t : HashTable} {es : List Entry} (h : t.Holds es) (first : Nat)
    (pred : Entry → Bool) :
    (t.removeIf first t.bucketCount pred).1.Holds (es.filter fun e => !pred e) ∧
      (t.removeIf first t.bucketCount pred).2 = (es.filter pred).length := by
  obtain ⟨h1, -, h3⟩ := h.removeIf first t.bucketCount pred
  have hin : ∀ e ∈ es, inWindow first 0 (min t.bucketCount t.bucketCount) t.bucketCount
      (t.bucketIndexFor e.key) = true := by
    intro e he
    have hb := (h.load (List.ne_nil_of_mem he)).1
    obtain ⟨⟨l, hl, -⟩, -⟩ := id h
    have hlt : t.bucketIndexFor e.key < t.bucketCount :=
      hl.toStored.slot_lt (by simpa [bucketCount] using hb) e.key
    obtain ⟨o, ho, ho'⟩ := exists_offset first hlt
    unfold inWindow
    rw [List.any_eq_true]
    exact ⟨o, by simpa using ho, by simp [ho']⟩
  have hfilter : (es.filter fun e => !(inWindow first 0 (min t.bucketCount t.bucketCount)
      t.bucketCount (t.bucketIndexFor e.key) && pred e)) = es.filter fun e => !pred e :=
    List.filter_congr fun e he => by rw [hin e he, Bool.true_and]
  rw [hfilter] at h1
  refine ⟨h1, ?_⟩
  have hsum := List.length_eq_length_filter_add (l := es) pred
  rw [h1.size_eq, h.size_eq] at h3
  omega

theorem Holds.step {t : HashTable} {es : List Entry} (h : t.Holds es) {op : Op}
    (hop : op.InRange) :
    ∃ t', t.step op = some (t', op.answers es) ∧ t'.Holds (op.after es) := by
  cases op with
  | put key value =>
    obtain ⟨h1, h2, -⟩ := h.put key value
    exact ⟨_, by rw [HashTable.step, h2, Op.answers], h1⟩
  | setExpiration key expiration => exact ⟨_, rfl, (h.setExpiration key expiration).1⟩
  | find key => exact ⟨t, by rw [HashTable.step, h.find_eq, Op.answers], h⟩
  | touch key => exact ⟨_, by rw [HashTable.step, h.touch_flag, Op.answers], (h.touch key).1⟩
  | remove key =>
    obtain ⟨h1, h2, -⟩ := h.remove key
    exact ⟨_, by rw [HashTable.step, h2, Op.answers], h1⟩
  | evictOldest =>
    obtain ⟨h1, h2, -⟩ := h.evictOldest
    exact ⟨_, by rw [HashTable.step, h2, Op.answers], h1⟩
  | removeIf first pred =>
    obtain ⟨h1, h2⟩ := h.removeIf_all first pred
    exact ⟨_, by rw [HashTable.step, h2, Op.answers], h1⟩
  | clear => exact ⟨_, rfl, h.clear.1⟩
  | keys =>
    refine ⟨t, ?_, h⟩
    rw [HashTable.step, Op.answers, Multiset.coe_eq_coe.2 h.keys_perm]
  | size => exact ⟨t, by rw [HashTable.step, h.size_eq, Op.answers], h⟩
  | entryBytes => exact ⟨t, by rw [HashTable.step, h.entryBytes_eq, Op.answers], h⟩
  | mostRecentKey => exact ⟨t, by rw [HashTable.step, h.mostRecentKey_eq, Op.answers], h⟩
  | leastRecentKey => exact ⟨t, by rw [HashTable.step, h.leastRecentKey_eq, Op.answers], h⟩
  | resize n =>
    have hn : n.toNat ≤ 2 ^ 63 := by have : n.toNat ≤ 2 ^ 62 := hop; omega
    obtain ⟨t', e, h'⟩ := h.resize hn
    exact ⟨t', by rw [HashTable.step, e]; rfl, h'⟩

/-- The entries and the answers of a whole run. -/
def Op.trace (es : List Entry) : List Op → List Entry × List Answer
  | [] => (es, [])
  | op :: ops => ((trace (op.after es) ops).1, op.answers es ++ (trace (op.after es) ops).2)

theorem Holds.run : ∀ (ops : List Op) {t : HashTable} {es : List Entry}, t.Holds es →
    (∀ op ∈ ops, op.InRange) →
    ∃ t', t.run ops = some (t', (Op.trace es ops).2) ∧ t'.Holds (Op.trace es ops).1
  | [], t, es, h, _ => ⟨t, rfl, h⟩
  | op :: ops, t, es, h, hops => by
    obtain ⟨t₁, e₁, h₁⟩ := h.step (hops op (by simp))
    obtain ⟨t', e, h'⟩ := Holds.run ops h₁ fun o ho => hops o (by simp [ho])
    refine ⟨t', ?_, h'⟩
    rw [HashTable.run, e₁]
    simp only [e]
    rfl

/-- On the list of entries a request to resize does nothing at all. -/
theorem Op.trace_filter : ∀ (ops : List Op) (es : List Entry),
    Op.trace es (ops.filter fun op => !op.isResize) = Op.trace es ops
  | [], _ => rfl
  | op :: ops, es => by
    have ih := Op.trace_filter ops
    cases hr : op.isResize with
    | true =>
      obtain ⟨n, rfl⟩ : ∃ n, op = .resize n := by
        cases op with
        | resize n => exact ⟨n, rfl⟩
        | _ => cases hr
      exact ih es
    | false =>
      rw [List.filter_cons_of_pos (by simp [hr])]
      simp only [trace, ih]

/-- **Rehashing is invisible.** One call keeps what every lookup finds, the counters and the
recency list, and settles on the least bucket count that serves; and in any run of calls the
requests to resize can be left out without changing an answer. -/
theorem resize_invisible (t : HashTable) (h : t.RepInv) :
    (∀ n : UInt64, n.toNat ≤ 2 ^ 62 → t.size < 2 ^ 53 → ∃ t', t.resize n = some t' ∧ t'.RepInv ∧
      (∀ key, t'.find key = t.find key) ∧ t'.keys.Perm t.keys ∧ t'.size = t.size ∧
      t'.entryBytes = t.entryBytes ∧ t'.recency = t.recency ∧ t'.entries = t.entries ∧
      IsLeast {b | (∃ k, b = 2 ^ k) ∧ (n.toNat ≤ b ∧ 4 * t.size ≤ 3 * b)} t'.bucketCount ∧
      t'.bucketCount ≤ 2 ^ 62) ∧
    ∀ ops : List Op, (∀ op ∈ ops, op.InRange) →
      ∃ t₁ t₂ answers, t.run ops = some (t₁, answers) ∧
        t.run (ops.filter fun op => !op.isResize) = some (t₂, answers) ∧
        t₁.entries = t₂.entries := by
  refine ⟨fun n hn hs => ?_, fun ops hops => ?_⟩
  · have hn63 : n.toNat ≤ 2 ^ 63 := by omega
    obtain ⟨m, htarget, hleast⟩ := resizeTarget_isLeast t.size hn63
    obtain ⟨t', e, h'⟩ := h.holds.resize hn63
    obtain ⟨⟨l, hl⟩, -⟩ := id h
    obtain rfl : t.relink (2 ^ m) = t' := by
      rw [HashTable.resize, htarget] at e
      exact Option.some.inj e
    obtain ⟨hnodes, hrecency⟩ := hl.nodes_relink (m := m)
    have hcount : (t.relink (2 ^ m)).bucketCount = 2 ^ m :=
      (relink_spec t ⟨m, rfl⟩ hl.placed).1
    refine ⟨_, e, h'.repInv, fun key => ?_, ?_, relink_size t _, relink_entryBytes t _, hrecency,
      h'.entries_eq, ?_, ?_⟩
    · rw [h'.find_eq, h.holds.find_eq]
    · rw [keys, relink_entryAt]
      exact hnodes.map _
    · rw [hcount]; exact hleast
    · rw [hcount]; exact isLeast_le hn hs hleast
  · obtain ⟨t₁, e₁, h₁⟩ := Holds.run ops h.holds hops
    obtain ⟨t₂, e₂, h₂⟩ := Holds.run (ops.filter fun op => !op.isResize) h.holds
      fun op hop => hops op (List.mem_filter.1 hop).1
    rw [Op.trace_filter] at e₂ h₂
    exact ⟨t₁, t₂, _, e₁, e₂, h₁.entries_eq.trans h₂.entries_eq.symm⟩

/-- Eight buckets, one with two keys in it, and nine are asked for. -/
theorem resize_invisible_nine : ∃ t' : HashTable, crowd.resize 9 = some t' ∧
    crowd.bucketCount = 8 ∧ 9 ≤ t'.bucketCount ∧ t'.bucketCount ≤ 16 ∧
    (∀ key, t'.find key = crowd.find key) ∧ t'.keys.Perm crowd.keys ∧
    t'.entries = crowd.entries := by
  obtain ⟨t', h1, -, hfind, hkeys, -, -, -, hentries, hleast, -⟩ :=
    (resize_invisible crowd crowd_repInv).1 9 (by decide) (by decide +kernel)
  have hsixteen := hleast.2 ⟨⟨4, rfl⟩, by decide, by decide +kernel⟩
  exact ⟨t', h1, crowd_chain.1, hleast.1.2.1, hsixteen, hfind, hkeys, hentries⟩

end HashTable

end VCache
