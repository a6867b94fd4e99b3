import VCache.Table.Growth

/-!
# What a table holds

Seen from outside, a table is the list of its entries in recency order, latest use
first: `t.Holds es`. Every operation of the table is an operation on that list; the
bucket array only decides the order in which `keys` and its like enumerate.
-/

namespace VCache

open Function VCache.Lib

/-- The bytes an entry is accounted for. -/
def Entry.footprint (e : Entry) : Nat := HashTable.footprintEstimate e.key e.value

namespace HashTable

/-- The representation invariant: chains, counters and recency pointers agree, and the
table is within its load factor. -/
def RepInv (t : HashTable) : Prop := (∃ l, t.Inv l) ∧ t.WithinLoad

def entries (t : HashTable) : List Entry := t.recency.map t.entryAt

/-- `t` is well formed and holds `es`, latest use first. -/
def Holds (t : HashTable) (es : List Entry) : Prop :=
  (∃ l, t.Inv l ∧ l.map t.entryAt = es) ∧ t.WithinLoad

theorem Holds.repInv {t : HashTable} {es : List Entry} (h : t.Holds es) : t.RepInv :=
  let ⟨⟨l, hl, _⟩, hw⟩ := h
  ⟨⟨l, hl⟩, hw⟩

theorem RepInv.holds {t : HashTable} (h : t.RepInv) : t.Holds t.entries :=
  let ⟨⟨l, hl⟩, hw⟩ := h
  ⟨⟨l, hl, by rw [entries, hl.recency_eq]⟩, hw⟩

theorem Holds.entries_eq {t : HashTable} {es : List Entry} (h : t.Holds es) : t.entries = es := by
  obtain ⟨⟨l, hl, rfl⟩, -⟩ := h
  rw [entries, hl.recency_eq]

/-! ## Reading -/

theorem Inv.distinct {t : HashTable} {l : List Ptr} (h : t.Inv l) :
    Keyed.Distinct (·.key) (l.map t.entryAt) := by
  have := h.keys.perm h.perm.symm
  simpa [Keyed.Distinct, Function.comp_def] using this

theorem Holds.distinct {t : HashTable} {es : List Entry} (h : t.Holds es) :
    Keyed.Distinct (·.key) es := by
  obtain ⟨⟨l, hl, rfl⟩, -⟩ := h
  exact hl.distinct

theorem Holds.size_eq {t : HashTable} {es : List Entry} (h : t.Holds es) : t.size = es.length := by
  obtain ⟨⟨l, hl, rfl⟩, -⟩ := h
  rw [hl.length, List.length_map]

theorem Holds.entryBytes_eq {t : HashTable} {es : List Entry} (h : t.Holds es) :
    t.entryBytes = (es.map Entry.footprint).sum := by
  obtain ⟨⟨l, hl, rfl⟩, -⟩ := h
  rw [hl.bytes, List.map_map, ← (hl.perm.map _).sum_eq]
  congr 1
  exact List.map_congr_left fun p hp => hl.footprint p (hl.mem_iff.1 hp)

theorem Holds.memoryUsage_eq {t : HashTable} {es : List Entry} (h : t.Holds es) :
    t.memoryUsage = (es.map Entry.footprint).sum + t.bucketCount * sizeofNodePtr := by
  rw [memoryUsage, h.entryBytes_eq, bucketCount]

theorem Holds.load {t : HashTable} {es : List Entry} (h : t.Holds es) (hes : es ≠ []) :
    t.bucketCount ≠ 0 ∧ 4 * es.length ≤ 3 * t.bucketCount := by
  have hs := h.size_eq
  have hpos := List.length_pos_of_ne_nil hes
  obtain ⟨⟨l, hl, -⟩, hw⟩ := h
  have hb : t.buckets ≠ [] := by
    intro hb
    have := hl.size
    rw [nodes, hb, List.flatten_nil, List.length_nil] at this
    omega
  have := hw hb
  exact ⟨by simpa [bucketCount] using hb, by rw [← hs]; exact this⟩

theorem Holds.find_eq {t : HashTable} {es : List Entry} (h : t.Holds es) (key : Bytes) :
    t.find key = Keyed.lookup (·.key) key es := by
  have hd := h.distinct
  obtain ⟨⟨l, hl, rfl⟩, -⟩ := h
  unfold find
  cases e : t.findNode key with
  | none =>
    rw [hl.toStored.findNode_none] at e
    symm
    simp only [Option.map_none, Keyed.lookup_eq_none_iff, List.mem_map]
    rintro _ ⟨p, hp, rfl⟩
    exact e p (hl.mem_iff.1 hp)
  | some p =>
    obtain ⟨hp, hk⟩ := hl.toStored.findNode_iff.1 e
    symm
    exact hd.lookup_iff.2 ⟨List.mem_map_of_mem (hl.mem_iff.2 hp), hk⟩

theorem Holds.entriesWhere_perm {t : HashTable} {es : List Entry} (h : t.Holds es)
    (pred : Entry → Bool) : (t.entriesWhere pred).Perm (es.filter pred) := by
  obtain ⟨⟨l, hl, rfl⟩, -⟩ := h
  rw [List.filter_map]
  exact ((hl.perm.symm.filter _).map _)

theorem keysWhere_eq (t : HashTable) (pred : Entry → Bool) :
    t.keysWhere pred = (t.entriesWhere pred).map (·.key) := by
  simp [keysWhere, entriesWhere, Function.comp_def]

/-! ## Lists of nodes and lists of entries -/

theorem Inv.map_erase {t : HashTable} {l : List Ptr} (h : t.Inv l) {p : Ptr} (hp : p ∈ l) :
    (l.erase p).map t.entryAt = Keyed.without (·.key) (t.entryAt p).key (l.map t.entryAt) := by
  rw [h.nodup.erase_eq_filter, Keyed.without, List.filter_map]
  congr 1
  refine List.filter_congr fun q hq => ?_
  have hkeys := h.keys.perm h.perm.symm
  by_cases e : q = p
  · simp [e]
  · have : (t.entryAt q).key ≠ (t.entryAt p).key := fun e' => e (hkeys.eq_of_key hq hp e')
    simp [e, this]

/-! ## Construction -/

theorem blank_inv {n : Nat} (hn : n = 0 ∨ ∃ k, n = 2 ^ k) : (blank n).Inv [] := by
  have hnodes : (blank n).nodes = [] := by simp [nodes, blank]
  refine ⟨⟨?_, placed_replicate _ n, ?_, ?_, ?_, ?_⟩, Links.linked_nil rfl rfl, ?_⟩
  · rcases hn with rfl | hk
    · left; rfl
    · right; simpa [blank] using hk
  · rw [hnodes]; exact List.nodup_nil
  · rw [hnodes]; rfl
  · rw [hnodes]; rfl
  · intro p hp; rw [hnodes] at hp; cases hp
  · rw [hnodes]

theorem new_holds (n : UInt64) : (new n).Holds [] := by
  have hn := (roundUpToPowerOfTwo_pow_or_zero n).symm
  exact ⟨⟨[], blank_inv hn, rfl⟩, fun _ => by simp [new, blank]⟩

/-! ## Writing -/

theorem Inv.ensureBuckets {t : HashTable} {l : List Ptr} (h : t.Inv l) :
    t.ensureBuckets.Inv l ∧ t.ensureBuckets.buckets ≠ [] ∧
      t.ensureBuckets.entryAt = t.entryAt ∧ t.ensureBuckets.nodes = t.nodes := by
  unfold HashTable.ensureBuckets
  by_cases hb : t.buckets = []
  · have hn : t.nodes = [] := by simp [nodes, hb]
    have hl : l = [] := List.Perm.nil_eq (by simpa [hn] using h.perm.symm) |>.symm
    rw [if_pos (by simp [hb])]
    have hn' : ({ t with buckets := List.replicate kDefaultBucketCount [] } : HashTable).nodes =
        [] := by simp [nodes]
    refine ⟨⟨⟨.inr ⟨4, rfl⟩, placed_replicate _ _, ?_, ?_, ?_, ?_⟩, h.linked, ?_⟩,
      by simp [kDefaultBucketCount], rfl, hn'.trans hn.symm⟩
    · rw [hn']; exact List.nodup_nil
    · rw [hn']; exact h.size.trans (by rw [hn])
    · rw [hn']; exact h.bytes.trans (by rw [hn]; rfl)
    · intro p hp; rw [hn'] at hp; cases hp
    · rw [hn', hl]
  · rw [if_neg (by simpa using hb)]
    exact ⟨h, hb, rfl, rfl⟩

/-- The bucket count `put` works with. -/
def usableBuckets (n : Nat) : Nat := if n = 0 then kDefaultBucketCount else n

theorem ensureBuckets_bucketCount (t : HashTable) :
    t.ensureBuckets.buckets.length = usableBuckets t.bucketCount := by
  unfold ensureBuckets usableBuckets bucketCount
  cases hb : t.buckets <;> simp [hb]

theorem ensureBuckets_size (t : HashTable) : t.ensureBuckets.size = t.size := by
  unfold ensureBuckets; split <;> rfl

theorem Holds.ensureBuckets {t : HashTable} {es : List Entry} (h : t.Holds es) :
    t.ensureBuckets.Holds es ∧ t.ensureBuckets.buckets ≠ [] := by
  obtain ⟨⟨l, hl, rfl⟩, hw⟩ := h
  obtain ⟨hl', hb, hent, -⟩ := hl.ensureBuckets
  refine ⟨⟨⟨l, hl', by rw [hent]⟩, fun _ => ?_⟩, hb⟩
  rw [ensureBuckets_size]
  by_cases hb : t.buckets = []
  · have hsize : t.size = 0 := by rw [hl.size, nodes, hb]; rfl
    omega
  · have hload := hw hb
    unfold HashTable.ensureBuckets
    rw [if_neg (by simpa using hb)]
    exact hload

theorem overwrite_buckets (t : HashTable) (p : Ptr) (key value : Bytes) :
    (t.overwrite p key value).buckets = t.buckets := by
  unfold overwrite
  rw [(lruPushFront_relinked _ p).buckets, (lruUnlink_relinked _ p).buckets]
  rfl

theorem overwrite_size (t : HashTable) (p : Ptr) (key value : Bytes) :
    (t.overwrite p key value).size = t.size := by
  unfold overwrite
  rw [(lruPushFront_relinked _ p).size, (lruUnlink_relinked _ p).size]
  rfl

theorem Inv.map_overwrite {t : HashTable} {l : List Ptr} (h : t.Inv l) {p : Ptr} (hp : p ∈ l)
    {key : Bytes} (hk : (t.entryAt p).key = key) (value : Bytes) :
    (p :: l.erase p).map (t.overwrite p key value).entryAt =
      { key := key, value := value } :: Keyed.without (·.key) key (l.map t.entryAt) := by
  subst hk
  have hnot := h.nodup.not_mem_erase (a := p)
  rw [List.map_cons, overwrite_entryAt, update_self, ← h.map_erase hp,
    List.map_congr_left fun q hq => update_of_ne (ne_of_mem_of_not_mem hq hnot) _ _]

theorem Inv.map_insertNew {t : HashTable} {l : List Ptr} (h : t.Inv l) (i : Nat) {key : Bytes}
    (hk : Keyed.lookup (·.key) key (l.map t.entryAt) = none) (value : Bytes) :
    (t.freshPtr :: l).map (t.insertNew i key value).entryAt =
      { key := key, value := value } :: Keyed.without (·.key) key (l.map t.entryAt) := by
  have hnot : t.freshPtr ∉ l := fun hm => freshPtr_not_mem t (h.mem_iff.1 hm)
  rw [List.map_cons, insertNew_entryAt, update_self, Keyed.without_eq_self hk,
    List.map_congr_left fun q hq => update_of_ne (ne_of_mem_of_not_mem hq hnot) _ _]

theorem Holds.overwrite {t : HashTable} {es : List Entry} (h : t.Holds es) (hb : t.buckets ≠ [])
    {p : Ptr} {key : Bytes} (hp : p ∈ t.nodes) (hk : (t.entryAt p).key = key) (value : Bytes) :
    (t.overwrite p key value).Holds
        ({ key := key, value := value } :: Keyed.without (·.key) key es) ∧
      (Keyed.lookup (·.key) key es).isNone = false ∧
      (t.overwrite p key value).bucketCount =
        grownTo (Keyed.without (·.key) key es).length.succ t.buckets.length := by
  have hd := h.distinct
  obtain ⟨⟨l, hl, rfl⟩, hw⟩ := h
  have hpl := hl.mem_iff.2 hp
  have hi := hl.overwrite hp hk value
  have hmap := hl.map_overwrite hpl hk value
  have hload := hw hb
  refine ⟨⟨⟨_, hi, hmap⟩, fun _ => ?_⟩, ?_, ?_⟩
  · rw [overwrite_size, overwrite_buckets]; exact hload
  · rw [hd.lookup_iff.2 ⟨List.mem_map_of_mem hpl, hk⟩]; rfl
  · have hnew : (Keyed.without (·.key) key (l.map t.entryAt)).length.succ = t.size := by
      rw [← overwrite_size t p key value, hi.length,
        ← List.length_map (t.overwrite p key value).entryAt, hmap]
      rfl
    rw [hnew, bucketCount, overwrite_buckets, grownTo, if_neg]
    simpa [exceedsLoadFactor] using hload

theorem Holds.insertNew {t : HashTable} {es : List Entry} (h : t.Holds es) (hb : t.buckets ≠ [])
    {key : Bytes} (hk : ∀ q ∈ t.nodes, (t.entryAt q).key ≠ key) (value : Bytes) :
    (t.insertNew (t.bucketIndexFor key) key value).growIfNeeded.Holds
        ({ key := key, value := value } :: Keyed.without (·.key) key es) ∧
      (Keyed.lookup (·.key) key es).isNone = true ∧
      (t.insertNew (t.bucketIndexFor key) key value).growIfNeeded.bucketCount =
        grownTo (Keyed.without (·.key) key es).length.succ t.buckets.length := by
  obtain ⟨⟨l, hl, rfl⟩, hw⟩ := h
  have hlook : Keyed.lookup (·.key) key (l.map t.entryAt) = none := by
    rw [Keyed.lookup_eq_none_iff]
    intro a ha
    obtain ⟨q, hq, rfl⟩ := List.mem_map.1 ha
    exact hk q (hl.mem_iff.1 hq)
  have hi := hl.insertNew hk rfl (hl.toStored.slot_lt hb key) value
  have hmap := hl.map_insertNew (t.bucketIndexFor key) hlook value
  have hsize := insertNew_size t (t.bucketIndexFor key) key value
  have hcount := insertNew_bucketCount t (t.bucketIndexFor key) key value
  generalize t.insertNew (t.bucketIndexFor key) key value = r at *
  have hpow : ∃ k, r.buckets.length = 2 ^ k := by rw [hcount]; exact hl.length_pow hb
  have hprev : 4 * (r.size - 1) ≤ 3 * r.buckets.length := by
    rw [hsize, hcount, Nat.add_sub_cancel]; exact hw hb
  have hgrown := grownTo_pow r.size hpow
  have hlen := (relink_spec r hgrown hi.placed).1
  rw [growIfNeeded_eq hpow hprev]
  refine ⟨⟨⟨_, hi.relink hgrown, ?_⟩, fun _ => ?_⟩, ?_, ?_⟩
  · rw [relink_entryAt]; exact hmap
  · rw [relink_size, hlen]; exact grownTo_fits hpow hprev
  · rw [hlook]; rfl
  · have hnew : (Keyed.without (·.key) key (l.map t.entryAt)).length.succ = r.size := by
      rw [hi.length, ← List.length_map r.entryAt, hmap]; rfl
    rw [bucketCount, hlen, hnew, hcount]

/-- `put` moves the key to the front with its new value and no TTL, says whether the key
was new, and doubles the buckets if the load factor asks for it. -/
theorem Holds.put {t : HashTable} {es : List Entry} (h : t.Holds es) (key value : Bytes) :
    (t.put key value).1.Holds ({ key := key, value := value } :: Keyed.without (·.key) key es) ∧
      (t.put key value).2 = (Keyed.lookup (·.key) key es).isNone ∧
      (t.put key value).1.bucketCount =
        grownTo (Keyed.without (·.key) key es).length.succ (usableBuckets t.bucketCount) := by
  obtain ⟨h', hb⟩ := h.ensureBuckets
  obtain ⟨⟨l, hl, -⟩, -⟩ := id h'
  rw [← ensureBuckets_bucketCount]
  unfold HashTable.put
  simp only
  generalize t.ensureBuckets = s at *
  cases e : (s.chain (s.bucketIndexFor key)).find? fun p => (s.entryAt p).key == key with
  | some p =>
    obtain ⟨hp, hk⟩ := hl.toStored.find_chain.1 e
    obtain ⟨h1, h2, h3⟩ := h'.overwrite hb hp hk value
    exact ⟨h1, h2.symm, h3⟩
  | none =>
    have hk : ∀ q ∈ s.nodes, (s.entryAt q).key ≠ key := by
      intro q hq e'
      have := hl.toStored.find_chain.2 ⟨hq, e'⟩
      rw [e] at this
      cases this
    obtain ⟨h1, h2, h3⟩ := h'.insertNew hb hk value
    exact ⟨h1, h2.symm, h3⟩

theorem Holds.setExpiration {t : HashTable} {es : List Entry} (h : t.Holds es) (key : Bytes)
    (e : Option Int) :
    (t.setExpiration key e).Holds
        (Keyed.adjust (·.key) key (fun a => { a with expiration := e }) es) ∧
      (t.setExpiration key e).bucketCount = t.bucketCount := by
  obtain ⟨⟨l, hl, rfl⟩, hw⟩ := h
  unfold HashTable.setExpiration
  cases hf : t.findNode key with
  | none =>
    rw [hl.toStored.findNode_none] at hf
    refine ⟨⟨⟨l, hl, ?_⟩, hw⟩, rfl⟩
    unfold Keyed.adjust
    rw [List.map_map]
    refine List.map_congr_left fun p hp => ?_
    simp [hf p (hl.mem_iff.1 hp)]
  | some p =>
    obtain ⟨hp, hk⟩ := hl.toStored.findNode_iff.1 hf
    have hpl := hl.mem_iff.2 hp
    refine ⟨⟨⟨l, hl.retime p e, ?_⟩, hw⟩, rfl⟩
    unfold Keyed.adjust
    rw [List.map_map]
    refine List.map_congr_left fun q hq => ?_
    rw [retime_entryAt]
    by_cases hqp : q = p
    · subst hqp; simp [hk]
    · have : (t.entryAt q).key ≠ key := fun e' =>
        hqp ((hl.keys.perm hl.perm.symm).eq_of_key hq hpl (e'.trans hk.symm))
      simp [update_of_ne hqp, this]

theorem Holds.touch {t : HashTable} {es : List Entry} (h : t.Holds es) (key : Bytes) :
    (t.touch key).1.Holds (Keyed.promote (·.key) key es) ∧
      (t.touch key).1.bucketCount = t.bucketCount := by
  have hfind := h.find_eq key
  obtain ⟨⟨l, hl, rfl⟩, hw⟩ := h
  unfold HashTable.touch Keyed.promote
  rw [← hfind, find]
  cases hf : t.findNode key with
  | none => exact ⟨⟨⟨l, hl, rfl⟩, hw⟩, rfl⟩
  | some p =>
    obtain ⟨hp, hk⟩ := hl.toStored.findNode_iff.1 hf
    have hpl := hl.mem_iff.2 hp
    simp only [Option.map_some]
    have hmap : (p :: l.erase p).map t.entryAt =
        t.entryAt p :: Keyed.without (·.key) key (l.map t.entryAt) := by
      rw [List.map_cons, hl.map_erase hpl, hk]
    by_cases hh : t.lruHead = some p
    · -- already in front: unlinking and pushing would give the same list
      have hlp : l = p :: l.erase p := by
        have : l.head? = some p := by rw [← hl.linked.head]; exact hh
        obtain ⟨l', rfl⟩ := List.head?_eq_some_iff.1 this
        simp
      rw [if_pos hh, ← hmap, ← hlp]
      exact ⟨⟨⟨l, hl, rfl⟩, hw⟩, rfl⟩
    · rw [if_neg hh]
      have r := (lruUnlink_relinked t p).trans (lruPushFront_relinked _ p)
      refine ⟨⟨⟨_, hl.promote hpl, by rw [r.entryAt]; exact hmap⟩, ?_⟩, by
        simp only [bucketCount, r.buckets]⟩
      intro hne
      rw [r.size, r.buckets]
      rw [r.buckets] at hne
      exact hw hne

/-! ## Removing -/

theorem WithinLoad.of_le {t t' : HashTable} (h : t.WithinLoad)
    (hb : t'.buckets.length = t.buckets.length) (hs : t'.size ≤ t.size) : t'.WithinLoad := by
  intro hne
  have hne' : t.buckets ≠ [] := by
    intro e; rw [e] at hb; exact hne (List.length_eq_zero_iff.1 (by simpa using hb))
  have := h hne'
  omega

theorem detach_size_le (t : HashTable) (i : Nat) (p : Ptr) : (t.detach i p).size ≤ t.size := by
  unfold HashTable.detach
  rw [(lruUnlink_relinked _ p).size, splice_size]; omega

theorem Holds.remove {t : HashTable} {es : List Entry} (h : t.Holds es) (key : Bytes) :
    (t.remove key).1.Holds (Keyed.without (·.key) key es) ∧
      (t.remove key).2 = (Keyed.lookup (·.key) key es).isSome ∧
      (t.remove key).1.bucketCount = t.bucketCount := by
  have hfind := h.find_eq key
  obtain ⟨⟨l, hl, rfl⟩, hw⟩ := h
  rw [← hfind]
  unfold find
  cases hf : t.findNode key with
  | none =>
    have hnone : t.remove key = (t, false) := by
      unfold HashTable.remove
      unfold findNode at hf
      split
      · rfl
      · next hb => rw [if_neg hb] at hf; simp only [hf]
    have hlook : Keyed.lookup (·.key) key (l.map t.entryAt) = none := by rw [← hfind, find, hf]; rfl
    rw [hnone, Keyed.without_eq_self hlook]
    exact ⟨⟨⟨l, hl, rfl⟩, hw⟩, rfl, rfl⟩
  | some p =>
    obtain ⟨hp, hk⟩ := hl.toStored.findNode_iff.1 hf
    have hsome : t.remove key = (t.detach (t.bucketIndexFor key) p, true) := by
      unfold HashTable.remove
      unfold findNode at hf
      split
      · next hb => rw [if_pos hb] at hf; cases hf
      · next hb => rw [if_neg hb] at hf; simp only [hf]
    have hd := hl.detach hp (i := t.bucketIndexFor key) (by rw [hk])
    rw [hsome]
    refine ⟨⟨⟨_, hd, ?_⟩, hw.of_le (detach_bucketCount ..) (detach_size_le ..)⟩, rfl,
      detach_bucketCount ..⟩
    rw [detach_entryAt, hl.map_erase (hl.mem_iff.2 hp), hk]

theorem without_getLast {es : List Entry} (h : Keyed.Distinct (·.key) es) {e : Entry}
    (he : es.getLast? = some e) : Keyed.without (·.key) e.key es = es.dropLast := by
  obtain ⟨l, rfl⟩ := List.getLast?_eq_some_iff.1 he
  have hl : ∀ a ∈ l, a.key ≠ e.key := by
    intro a ha e'
    have := (List.nodup_append.1 (by simpa [Keyed.Distinct] using h)).2.2 a.key
      (List.mem_map_of_mem ha) e.key (by simp)
    exact this e'
  rw [List.dropLast_concat, Keyed.without, List.filter_append, List.filter_eq_self.2]
  · simp
  · intro a ha; simpa using hl a ha

theorem Holds.evictOldest {t : HashTable} {es : List Entry} (h : t.Holds es) :
    t.evictOldest.1.Holds es.dropLast ∧ t.evictOldest.2 = es.getLast?.map (·.key) ∧
      t.evictOldest.1.bucketCount = t.bucketCount := by
  have htail : t.lruTail.map t.entryAt = es.getLast? := by
    obtain ⟨⟨l, hl, rfl⟩, -⟩ := h
    rw [List.getLast?_map, ← hl.linked.tail]; rfl
  unfold HashTable.evictOldest
  cases ht : t.lruTail with
  | none =>
    rw [ht] at htail
    have hes : es = [] := List.getLast?_eq_none_iff.1 htail.symm
    subst hes
    exact ⟨h, rfl, rfl⟩
  | some p =>
    rw [ht] at htail
    obtain ⟨h1, -, h3⟩ := h.remove (t.entryAt p).key
    rw [without_getLast h.distinct htail.symm] at h1
    exact ⟨h1, by rw [← htail]; rfl, h3⟩

theorem Holds.clear {t : HashTable} {es : List Entry} (h : t.Holds es) :
    t.clear.Holds [] ∧ t.clear.bucketCount = t.bucketCount := by
  obtain ⟨⟨l, hl, rfl⟩, -⟩ := h
  have hlen : t.clear.buckets.length = t.buckets.length := by simp [HashTable.clear, lruClear]
  have hb : t.clear.buckets = List.replicate t.buckets.length [] := by
    simp [HashTable.clear, lruClear, setHead, setTail]
  have hn : t.clear.nodes = [] := by rw [nodes, hb]; simp
  refine ⟨⟨⟨[], ⟨⟨?_, ?_, ?_, ?_, ?_, ?_⟩, Links.linked_nil rfl rfl, ?_⟩, rfl⟩, ?_⟩, hlen⟩
  · rcases hl.buckets with e | ⟨k, hk⟩
    · left; rw [hb, e]; rfl
    · right; exact ⟨k, hlen.trans hk⟩
  · rw [hb]; exact placed_replicate _ _
  · rw [hn]; exact List.nodup_nil
  · rw [hn]; rfl
  · rw [hn]; rfl
  · intro p hp; rw [hn] at hp; cases hp
  · rw [hn]
  · intro _; simp [HashTable.clear]

/-! ## Sweeping -/

theorem filter_stay_cons (pred : Ptr → Bool) (p : Ptr) (c l : List Ptr) :
    (l.filter fun q => !(decide (q ∈ p :: c) && pred q)) =
      (l.filter fun q => !(decide (q = p) && pred p)).filter
        fun q => !(decide (q ∈ c) && pred q) := by
  rw [List.filter_filter]
  refine List.filter_congr fun q _ => ?_
  by_cases hqp : q = p
  · subst hqp
    cases pred q <;> simp
  · simp [hqp]

theorem removeIfChain_inv (pred : Entry → Bool) (i : Nat) :
    ∀ (c : List Ptr) (t : HashTable) (l : List Ptr), t.Inv l → c.Nodup →
      (∀ p ∈ c, p ∈ t.nodes ∧ t.bucketIndexFor (t.entryAt p).key = i) →
      (removeIfChain pred i t c).1.Inv
        (l.filter fun p => !(decide (p ∈ c) && pred (t.entryAt p))) ∧
      (removeIfChain pred i t c).1.entryAt = t.entryAt ∧
      (removeIfChain pred i t c).1.buckets.length = t.buckets.length ∧
      (removeIfChain pred i t c).1.size + (removeIfChain pred i t c).2 = t.size := by
  intro c
  induction c with
  | nil => intro t l h _ _; simpa [removeIfChain] using h
  | cons p c ih =>
    intro t l h hnd hc
    obtain ⟨hp, hpi⟩ := hc p (by simp)
    obtain ⟨hpc, hnd'⟩ := List.nodup_cons.1 hnd
    unfold removeIfChain
    by_cases hpred : pred (t.entryAt p)
    · have hd := h.detach hp hpi
      have hent := detach_entryAt t i p
      have hlen := detach_bucketCount t i p
      obtain ⟨h1, h2, h3, h4⟩ := ih (t.detach i p) (l.erase p) hd hnd' fun q hq => by
        have hqp : q ≠ p := ne_of_mem_of_not_mem hq hpc
        obtain ⟨hqn, hqi⟩ := hc q (by simp [hq])
        refine ⟨hd.mem_iff.1 ((List.mem_erase_of_ne hqp).2 (h.mem_iff.2 hqn)), ?_⟩
        rw [bucketIndexFor, hlen, hent]; exact hqi
      have hsz : (t.detach i p).size + 1 = t.size := by
        have := List.length_pos_of_mem (h.mem_iff.2 hp)
        rw [hd.length, h.length, List.length_erase_of_mem (h.mem_iff.2 hp)]; omega
      simp only [hpred, if_true]
      refine ⟨?_, h2.trans hent, h3.trans hlen, by omega⟩
      have hstay : (l.filter fun q => !(decide (q = p) && pred (t.entryAt p))) = l.erase p := by
        rw [h.nodup.erase_eq_filter]
        refine List.filter_congr fun q _ => ?_
        simp [hpred, bne, Bool.beq_eq_decide_eq]
      rw [filter_stay_cons, hstay, ← hent]
      exact h1
    · obtain ⟨h1, h2, h3, h4⟩ := ih t l h hnd' fun q hq => hc q (by simp [hq])
      simp only [hpred, Bool.false_eq_true, if_false]
      refine ⟨?_, h2, h3, h4⟩
      have hstay : (l.filter fun q => !(decide (q = p) && pred (t.entryAt p))) = l := by
        simp [hpred]
      rw [filter_stay_cons, hstay]
      exact h1

theorem Stored.chain_nodup {t : HashTable} (h : Stored t) (i : Nat) : (t.chain i).Nodup := by
  unfold chain
  cases e : t.buckets[i]? with
  | none => exact List.nodup_nil
  | some c => exact h.nodup.sublist (List.sublist_flatten_of_mem (List.mem_of_getElem? e))

theorem Stored.mem_chain_iff {t : HashTable} (h : Stored t) {i : Nat} {p : Ptr} :
    p ∈ t.chain i ↔ p ∈ t.nodes ∧ t.bucketIndexFor (t.entryAt p).key = i := by
  constructor
  · intro hp
    obtain ⟨c, hc, hpc⟩ := mem_chain.1 hp
    exact ⟨List.mem_flatten.2 ⟨c, List.mem_of_getElem? hc, hpc⟩, h.placed i c hc p hpc⟩
  · rintro ⟨hp, rfl⟩; exact h.mem_nodes.1 hp

theorem Holds.removeIfChain {t : HashTable} {es : List Entry} (h : t.Holds es)
    (pred : Entry → Bool) (i : Nat) {slot : Bytes → Nat} (hslot : t.bucketIndexFor = slot) :
    (HashTable.removeIfChain pred i t (t.chain i)).1.Holds
        (es.filter fun e => !(decide (slot e.key = i) && pred e)) ∧
      (HashTable.removeIfChain pred i t (t.chain i)).1.bucketCount = t.bucketCount ∧
      (HashTable.removeIfChain pred i t (t.chain i)).1.size +
        (HashTable.removeIfChain pred i t (t.chain i)).2 = t.size := by
  obtain ⟨⟨l, hl, rfl⟩, hw⟩ := h
  obtain ⟨h1, h2, h3, h4⟩ := removeIfChain_inv pred i (t.chain i) t l hl
    (hl.toStored.chain_nodup i) fun p hp => hl.toStored.mem_chain_iff.1 hp
  refine ⟨⟨⟨_, h1, ?_⟩, hw.of_le h3 (by omega)⟩, h3, h4⟩
  rw [h2, List.filter_map]
  congr 1
  refine List.filter_congr fun p hp => ?_
  have : decide (p ∈ t.chain i) = decide (slot (t.entryAt p).key = i) := by
    rw [decide_eq_decide, hl.toStored.mem_chain_iff, hslot]
    exact ⟨fun h => h.2, fun h => ⟨hl.mem_iff.1 hp, h⟩⟩
  rw [this]; rfl

/-- Bucket `i` is among the `count` buckets that follow `first + offset`, wrapping. -/
def inWindow (first offset count buckets i : Nat) : Bool :=
  (List.range' offset count).any fun o => i == (first + o) % buckets

theorem inWindow_succ (first offset count buckets i : Nat) :
    inWindow first offset (count + 1) buckets i =
      (decide (i = (first + offset) % buckets) || inWindow first (offset + 1) count buckets i) := by
  unfold inWindow
  rw [List.range'_succ, List.any_cons]
  rfl

theorem Holds.removeIfLoop (pred : Entry → Bool) (first : Nat) {slot : Bytes → Nat} :
    ∀ (count offset : Nat) {t : HashTable} {es : List Entry}, t.Holds es →
      t.bucketIndexFor = slot →
      (HashTable.removeIfLoop pred first offset count t).1.Holds (es.filter fun e =>
          !(inWindow first offset count t.bucketCount (slot e.key) && pred e)) ∧
        (HashTable.removeIfLoop pred first offset count t).1.bucketCount = t.bucketCount ∧
        (HashTable.removeIfLoop pred first offset count t).1.size +
          (HashTable.removeIfLoop pred first offset count t).2 = t.size := by
  intro count
  induction count with
  | zero =>
    intro offset t es h _
    refine ⟨?_, rfl, rfl⟩
    simpa [HashTable.removeIfLoop, inWindow] using h
  | succ count ih =>
    intro offset t es h hslot
    obtain ⟨h1, h2, h3⟩ := h.removeIfChain pred ((first + offset) % t.buckets.length) hslot
    unfold HashTable.removeIfLoop
    simp only
    generalize HashTable.removeIfChain pred ((first + offset) % t.buckets.length) t
      (t.chain ((first + offset) % t.buckets.length)) = r at *
    have hslot' : r.1.bucketIndexFor = slot := by
      rw [← hslot]; funext k
      rw [bucketIndexFor, bucketIndexFor]; exact congrArg (slotFor · k) h2
    obtain ⟨h4, h5, h6⟩ := ih (offset + 1) h1 hslot'
    refine ⟨?_, h5.trans h2, by omega⟩
    rw [List.filter_filter, h2] at h4
    convert h4 using 1
    refine List.filter_congr fun e _ => ?_
    rw [inWindow_succ, bucketCount]
    cases decide (slot e.key = (first + offset) % t.buckets.length) <;>
      cases inWindow first (offset + 1) count t.buckets.length (slot e.key) <;>
      cases pred e <;> rfl

/-- `removeIf` drops the matching entries of the scanned buckets and counts them. -/
theorem Holds.removeIf {t : HashTable} {es : List Entry} (h : t.Holds es) (first count : Nat)
    (pred : Entry → Bool) :
    (t.removeIf first count pred).1.Holds (es.filter fun e =>
        !(inWindow first 0 (min count t.bucketCount) t.bucketCount (t.bucketIndexFor e.key) &&
          pred e)) ∧
      (t.removeIf first count pred).1.bucketCount = t.bucketCount ∧
      (t.removeIf first count pred).1.size + (t.removeIf first count pred).2 = t.size := by
  unfold HashTable.removeIf
  split
  · next hz =>
    have hmin : min count t.bucketCount = 0 := by
      simp only [Bool.or_eq_true, List.isEmpty_iff, beq_iff_eq] at hz
      rcases hz with hb | hc
      · simp [bucketCount, hb]
      · simp [hc]
    refine ⟨?_, rfl, rfl⟩
    simpa [hmin, inWindow] using h
  · exact Holds.removeIfLoop pred first _ 0 h rfl

/-! ## Resizing and moving -/

/-- `resize` to at most `2^63` buckets returns, holding the same entries in the same order. -/
theorem Holds.resize {t : HashTable} {es : List Entry} (h : t.Holds es) {n : UInt64}
    (hn : n.toNat ≤ 2 ^ 63) : ∃ t', t.resize n = some t' ∧ t'.Holds es := by
  obtain ⟨⟨l, hl, rfl⟩, -⟩ := h
  obtain ⟨j, -, hj, -⟩ := roundUpToPowerOfTwo_pow n hn
  obtain ⟨m, -, h2, h3, -⟩ := resizeTarget_pow t.size hj
  refine ⟨t.relink (2 ^ m), by rw [HashTable.resize, h2]; rfl, ⟨l, hl.relink ⟨m, rfl⟩, ?_⟩, ?_⟩
  · rw [relink_entryAt]
  · intro _
    rw [relink_size, (relink_spec t ⟨m, rfl⟩ hl.placed).1]; exact h3

theorem movedFrom_holds (t : HashTable) : t.movedFrom.Holds [] := by
  have hn : t.movedFrom.nodes = [] := rfl
  refine ⟨⟨[], ⟨⟨.inl rfl, ?_, ?_, rfl, rfl, ?_⟩, Links.linked_nil rfl rfl, by rw [hn]⟩, rfl⟩, ?_⟩
  · intro i c hc; simp [movedFrom] at hc
  · rw [hn]; exact List.nodup_nil
  · intro p hp; rw [hn] at hp; cases hp
  · intro hne; exact absurd rfl hne

/-- Four keys in a table that has grown three times, two of them in one chain. -/
def crowd : HashTable :=
  ((((new 1).put [1] [118]).1.put [2] [118]).1.put [3] [118]).1.put [4] [118] |>.1

theorem crowd_repInv : crowd.RepInv :=
  (((((new_holds 1).put [1] [118]).1.put [2] [118]).1.put [3] [118]).1.put [4] [118]).1.repInv

theorem crowd_chain : crowd.bucketCount = 8 ∧
    (crowd.chain 4).map (fun p => (crowd.entryAt p).key) = [[1], [4]] := by
  decide +kernel

end HashTable

end VCache
