import VCache.Basic
import VCache.Lib.Buckets
import VCache.Lib.Links

/-!
# The hash table

`HashTable.h`, `HashTable.cpp`. Nodes live at addresses. A bucket is the chain of
`unique_ptr`s it owns, so a chain is the list of its nodes' addresses and a node is
alive exactly while some chain holds it. The recency list runs through the nodes'
raw `lruPrev`/`lruNext` pointers.

Counters are natural numbers. The load factor test is `size > buckets * 0.75`; it is
written in whole numbers, which is what the `double` comparison computes while
`size < 2^53`.
-/

namespace VCache

open Function VCache.Lib

/-- The address of a node. -/
abbrev Ptr := Nat

structure Node where
  entry : Entry
  lruPrev : Option Ptr := none
  lruNext : Option Ptr := none
  footprint : Nat := 0

structure HashTable where
  /-- The chains, each from its head. -/
  buckets : List (List Ptr)
  /-- The memory behind the addresses. Only nodes on a chain are alive. -/
  heap : Ptr → Node
  size : Nat := 0
  entryBytes : Nat := 0
  lruHead : Option Ptr := none
  lruTail : Option Ptr := none

namespace HashTable

def kDefaultBucketCount : Nat := 16

def kAllocationSlack : Nat := 48

/-- `sizeof(Node)`: two strings, the optional time, three pointers and the footprint. -/
def sizeofNode : Nat := 32 + 32 + 16 + 3 * 8 + 8

/-- `sizeof(std::unique_ptr<Node>)`. -/
def sizeofNodePtr : Nat := 8

def kFnvOffsetBasis : UInt64 := 0xcbf29ce484222325

def kFnvPrime : UInt64 := 0x100000001b3

/-- The FNV-1a loop, from a given state. -/
def fnv1a (hash : UInt64) (key : Bytes) : UInt64 :=
  key.foldl (fun hash ch => (hash ^^^ ch.toUInt64) * kFnvPrime) hash

/-- The splitmix64 finalizer at the end of `hashKey`. -/
def avalanche (hash : UInt64) : UInt64 :=
  let hash := hash ^^^ (hash >>> 33)
  let hash := hash * 0xff51afd7ed558ccd
  let hash := hash ^^^ (hash >>> 33)
  let hash := hash * 0xc4ceb9fe1a85ec53
  hash ^^^ (hash >>> 33)

def hashKey (key : Bytes) : UInt64 := avalanche (fnv1a kFnvOffsetBasis key)

def roundUpToPowerOfTwo (n : UInt64) : UInt64 :=
  if n ≤ 1 then 1
  else
    let n := n - 1
    let n := n ||| (n >>> 1)
    let n := n ||| (n >>> 2)
    let n := n ||| (n >>> 4)
    let n := n ||| (n >>> 8)
    let n := n ||| (n >>> 16)
    let n := n ||| (n >>> 32)
    n + 1

/-- A table with no nodes and no memory behind it. -/
def blank (bucketCount : Nat) : HashTable where
  buckets := List.replicate bucketCount []
  heap _ := { entry := { key := [], value := [] } }

def new (initialBucketCount : UInt64) : HashTable :=
  blank (roundUpToPowerOfTwo initialBucketCount).toNat

def footprintEstimate (key value : Bytes) : Nat :=
  sizeofNode + kAllocationSlack + key.length + value.length

def bucketCount (t : HashTable) : Nat := t.buckets.length

def memoryUsage (t : HashTable) : Nat := t.entryBytes + t.buckets.length * sizeofNodePtr

def entryAt (t : HashTable) (p : Ptr) : Entry := (t.heap p).entry

def nodes (t : HashTable) : List Ptr := t.buckets.flatten

def chain (t : HashTable) (i : Nat) : List Ptr := (t.buckets[i]?).getD []

/-- The slot a key falls into, for any number of buckets. -/
def slotFor (bucketCount : Nat) (key : Bytes) : Nat := (hashKey key).toNat &&& (bucketCount - 1)

def bucketIndexFor (t : HashTable) (key : Bytes) : Nat := slotFor t.buckets.length key

def findNode (t : HashTable) (key : Bytes) : Option Ptr :=
  if t.buckets.isEmpty then none
  else (t.chain (t.bucketIndexFor key)).find? fun p => (t.entryAt p).key == key

def store (t : HashTable) (p : Ptr) (node : Node) : HashTable :=
  { t with heap := update t.heap p node }

/-! ### The recency list -/

def setPrev (t : HashTable) (p : Ptr) (q : Option Ptr) : HashTable :=
  t.store p { t.heap p with lruPrev := q }

def setNext (t : HashTable) (p : Ptr) (q : Option Ptr) : HashTable :=
  t.store p { t.heap p with lruNext := q }

def setHead (t : HashTable) (q : Option Ptr) : HashTable := { t with lruHead := q }

def setTail (t : HashTable) (q : Option Ptr) : HashTable := { t with lruTail := q }

def lruPushFront (t : HashTable) (node : Ptr) : HashTable :=
  let t := t.setPrev node none
  let t := t.setNext node t.lruHead
  let t := match t.lruHead with
    | some head => t.setPrev head (some node)
    | none => t
  let t := t.setHead (some node)
  match t.lruTail with
  | none => t.setTail (some node)
  | some _ => t

/-- First half of `lruUnlink`: what leads to `node` from the front leads past it. -/
def skipForward (t : HashTable) (node : Ptr) : HashTable :=
  match (t.heap node).lruPrev with
  | some prev => t.setNext prev (t.heap node).lruNext
  | none => if t.lruHead = some node then t.setHead (t.heap node).lruNext else t

/-- Second half of `lruUnlink`: what leads to `node` from the back leads past it. -/
def skipBackward (t : HashTable) (node : Ptr) : HashTable :=
  match (t.heap node).lruNext with
  | some next => t.setPrev next (t.heap node).lruPrev
  | none => if t.lruTail = some node then t.setTail (t.heap node).lruPrev else t

def lruUnlink (t : HashTable) (node : Ptr) : HashTable :=
  let t := t.skipForward node
  let t := t.skipBackward node
  let t := t.setPrev node none
  t.setNext node none

def lruClear (t : HashTable) : HashTable := (t.setHead none).setTail none

/-- The recency list read from `lruHead`, latest use first. -/
def links (t : HashTable) : Links Ptr where
  prev p := (t.heap p).lruPrev
  next p := (t.heap p).lruNext
  head := t.lruHead
  tail := t.lruTail

def recency (t : HashTable) : List Ptr := t.links.walk t.size t.lruHead

def touch (t : HashTable) (key : Bytes) : HashTable × Bool :=
  match t.findNode key with
  | none => (t, false)
  | some node =>
    if t.lruHead = some node then (t, true)
    else ((t.lruUnlink node).lruPushFront node, true)

def mostRecentKey (t : HashTable) : Option Bytes := t.lruHead.map fun p => (t.entryAt p).key

def leastRecentKey (t : HashTable) : Option Bytes := t.lruTail.map fun p => (t.entryAt p).key

/-! ### Growth -/

def exceedsLoadFactor (size buckets : Nat) : Bool := decide (3 * buckets < 4 * size)

/-- The doubling loop of `resize`, cut off after `fuel` tests. From a positive target
`size + 1` tests are enough; from `0` no number is. -/
def doubleUntilFits (size : Nat) : Nat → Nat → Option Nat
  | 0, _ => none
  | fuel + 1, target =>
    if exceedsLoadFactor size target then doubleUntilFits size fuel (target * 2) else some target

/-- The bucket count `resize` settles on; `none` when its loop does not end. -/
def resizeTarget (size : Nat) (newBucketCount : UInt64) : Option Nat :=
  doubleUntilFits size (size + 1) (roundUpToPowerOfTwo newBucketCount).toNat

/-- The rehash at the end of `resize`: relink every node under the new mask. -/
def relink (t : HashTable) (target : Nat) : HashTable :=
  if target = t.buckets.length then t
  else { t with buckets := rehash (fun p => slotFor target (t.entryAt p).key) target t.buckets }

/-- `none` when the call does not return. -/
def resize (t : HashTable) (newBucketCount : UInt64) : Option HashTable :=
  (resizeTarget t.size newBucketCount).map t.relink

def growIfNeeded (t : HashTable) : HashTable :=
  if exceedsLoadFactor t.size t.buckets.length then
    (t.resize (UInt64.ofNat (t.buckets.length * 2))).getD t
  else t

/-! ### Operations -/

/-- An address no live node has. -/
def freshPtr (t : HashTable) : Ptr := t.nodes.foldr max 0 + 1

/-- Give a node a new value, without a TTL, and account for it. -/
def rewrite (t : HashTable) (node : Ptr) (key value : Bytes) : HashTable :=
  let old := t.heap node
  let updated := footprintEstimate key value
  let t := t.store node
    { old with
      entry := { old.entry with value := value, expiration := none }
      footprint := updated }
  { t with entryBytes := t.entryBytes - old.footprint + updated }

/-- The overwrite branch of `put`. -/
def overwrite (t : HashTable) (node : Ptr) (key value : Bytes) : HashTable :=
  ((t.rewrite node key value).lruUnlink node).lruPushFront node

/-- Make a node at `raw`, put it in front of chain `index` and account for it. -/
def addNode (t : HashTable) (index : Nat) (raw : Ptr) (key value : Bytes) : HashTable :=
  let footprint := footprintEstimate key value
  let t := t.store raw { entry := { key := key, value := value }, footprint := footprint }
  { t with
    entryBytes := t.entryBytes + footprint
    buckets := t.buckets.modify index (raw :: ·)
    size := t.size + 1 }

/-- The insertion branch of `put`, up to the growth test. -/
def insertNew (t : HashTable) (index : Nat) (key value : Bytes) : HashTable :=
  (t.addNode index t.freshPtr key value).lruPushFront t.freshPtr

/-- A table without buckets gets the default number of them. -/
def ensureBuckets (t : HashTable) : HashTable :=
  if t.buckets.isEmpty then { t with buckets := List.replicate kDefaultBucketCount [] } else t

def put (t : HashTable) (key value : Bytes) : HashTable × Bool :=
  let t := t.ensureBuckets
  let index := t.bucketIndexFor key
  match (t.chain index).find? fun p => (t.entryAt p).key == key with
  | some node => (t.overwrite node key value, false)
  | none => ((t.insertNew index key value).growIfNeeded, true)

def find (t : HashTable) (key : Bytes) : Option Entry := (t.findNode key).map t.entryAt

def get (t : HashTable) (key : Bytes) : Option Bytes := (t.find key).map (·.value)

def contains (t : HashTable) (key : Bytes) : Bool := (t.find key).isSome

def retime (t : HashTable) (node : Ptr) (expiration : Option Int) : HashTable :=
  let old := t.heap node
  t.store node { old with entry := { old.entry with expiration := expiration } }

/-- `find(key)->expiration = expiration`. -/
def setExpiration (t : HashTable) (key : Bytes) (expiration : Option Int) : HashTable :=
  match t.findNode key with
  | none => t
  | some node => t.retime node expiration

/-- Splice a node out of chain `i` and take it off the counters. -/
def splice (t : HashTable) (i : Nat) (victim : Ptr) : HashTable :=
  { t with
    buckets := t.buckets.modify i (·.erase victim)
    size := t.size - 1
    entryBytes := t.entryBytes - (t.heap victim).footprint }

/-- The removal shared by `remove` and `removeIf`: splice, then leave the recency list. -/
def detach (t : HashTable) (i : Nat) (victim : Ptr) : HashTable :=
  (t.splice i victim).lruUnlink victim

def remove (t : HashTable) (key : Bytes) : HashTable × Bool :=
  if t.buckets.isEmpty then (t, false)
  else
    let index := t.bucketIndexFor key
    match (t.chain index).find? fun p => (t.entryAt p).key == key with
    | some victim => (t.detach index victim, true)
    | none => (t, false)

def evictOldest (t : HashTable) : HashTable × Option Bytes :=
  match t.lruTail with
  | none => (t, none)
  | some tail =>
    let victimKey := (t.entryAt tail).key
    ((t.remove victimKey).1, some victimKey)

def clear (t : HashTable) : HashTable :=
  { t.lruClear with buckets := t.buckets.map fun _ => [], size := 0, entryBytes := 0 }

/-- The walk of `removeIf` along one chain. A removed node takes nothing else off the
chain, so the walk goes on with the nodes that followed it. -/
def removeIfChain (predicate : Entry → Bool) (index : Nat) (t : HashTable) :
    List Ptr → HashTable × Nat
  | [] => (t, 0)
  | p :: rest =>
    if predicate (t.entryAt p) then
      let r := removeIfChain predicate index (t.detach index p) rest
      (r.1, r.2 + 1)
    else removeIfChain predicate index t rest

/-- The outer loop of `removeIf`: `count` buckets from `first`, wrapping. -/
def removeIfLoop (predicate : Entry → Bool) (first : Nat) :
    Nat → Nat → HashTable → HashTable × Nat
  | _, 0, t => (t, 0)
  | offset, count + 1, t =>
    let index := (first + offset) % t.buckets.length
    let r := removeIfChain predicate index t (t.chain index)
    let s := removeIfLoop predicate first (offset + 1) count r.1
    (s.1, r.2 + s.2)

def removeIf (t : HashTable) (firstBucket bucketsToScan : Nat) (predicate : Entry → Bool) :
    HashTable × Nat :=
  if t.buckets.isEmpty || bucketsToScan == 0 then (t, 0)
  else removeIfLoop predicate firstBucket 0 (min bucketsToScan t.buckets.length) t

def keys (t : HashTable) : List Bytes := t.nodes.map fun p => (t.entryAt p).key

def keysWhere (t : HashTable) (predicate : Entry → Bool) : List Bytes :=
  (t.nodes.filter fun p => predicate (t.entryAt p)).map fun p => (t.entryAt p).key

def entriesWhere (t : HashTable) (predicate : Entry → Bool) : List Entry :=
  (t.nodes.filter fun p => predicate (t.entryAt p)).map t.entryAt

/-! ### Moves -/

/-- The state a move leaves its source in: no buckets, no nodes. -/
def movedFrom (t : HashTable) : HashTable :=
  { t with buckets := [], size := 0, entryBytes := 0, lruHead := none, lruTail := none }

/-- `HashTable(HashTable&& other)`: the new table and what is left of `other`. -/
def moveConstruct (other : HashTable) : HashTable × HashTable := (other, other.movedFrom)

/-- `this = std::move(other)` for two different tables: `this` and `other` afterwards. -/
def moveAssign (this other : HashTable) : HashTable × HashTable :=
  let this := this.clear
  ({ this with
      buckets := other.buckets, heap := other.heap, size := other.size
      entryBytes := other.entryBytes, lruHead := other.lruHead, lruTail := other.lruTail },
    other.movedFrom)

end HashTable

end VCache
