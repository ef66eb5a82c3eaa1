import Mathlib.Data.List.AList
import Sglang.MemCache.RadixKey

/-! The radix cache.

Nodes live in a heap addressed by the ids `TreeNode.counter` hands out, so that a
reference held outside the tree (a request's `last_node`) keeps its meaning when a
lookup splits the node. A deleted node stays in the heap, unreachable. The loops of
the source carry fuel; running out of it, a failed assertion and a raised
exception are all `none`. `RadixWalk` and `RadixLoops` show that none happens.

One clock reading `now` stands for the `time.monotonic()` calls of an operation.
`value` is never `None` in this class, so `evicted` is false and not modelled; host
values, hashes and events belong to the hierarchical cache and the event queue. -/
namespace Sglang.MemCache
open Prefix

abbrev NodeId := Nat

/-- An index into the KV pool. -/
abbrev Slot := Nat

structure TreeNode where
  children : AList fun _ : ChildKey => NodeId := ∅
  parent : Option NodeId := none
  key : RadixKey := {tokenIds := []}
  value : List Slot := []
  lockRef : Int := 0
  lastAccessTime : Int
  creationTime : Int
  hitCount : Int := 0
  priority : Int := 0

inductive EvictionPolicy where
  | lru | lfu | fifo | mru | filo | priority | slru
deriving DecidableEq, Repr

/-- The priority a strategy gives a node, compared from the left; smaller goes first. -/
def EvictionPolicy.getPriority : EvictionPolicy → TreeNode → List Int
  | .lru, x => [x.lastAccessTime]
  | .lfu, x => [x.hitCount, x.lastAccessTime]
  | .fifo, x => [x.creationTime]
  | .mru, x => [-x.lastAccessTime]
  | .filo, x => [-x.creationTime]
  | .priority, x => [x.priority, x.lastAccessTime]
  | .slru, x => [if x.hitCount ≥ 2 then 1 else 0, x.lastAccessTime]

structure CacheInitParams where
  pageSize : Nat
  pageSize_pos : 0 < pageSize
  isEagle : Bool := false
  disable : Bool := false
  disableFinishedInsert : Bool := false
  evictionPolicy : EvictionPolicy := .lru

structure RadixCache extends CacheInitParams where
  nodes : NodeId → TreeNode
  counter : Nat
  rootNode : NodeId
  evictableSize : Int
  protectedSize : Int
  evictableLeaves : List NodeId

structure MatchResult where
  deviceIndices : List Slot
  lastDeviceNode : NodeId
deriving DecidableEq

/-- What `insert` is asked. A value, when there is one, covers the key: it is paired
with the raw tokens, or already with the units. -/
structure InsertParams where
  key : RadixKey
  value : Option (List Slot)
  chunked : Bool := false
  priority : Int := 0
  covers : ∀ v, value = some v → key.len ≤ v.length

namespace RadixCache

section
variable (c : RadixCache)

def modifyNode (n : NodeId) (f : TreeNode → TreeNode) : RadixCache :=
  {c with nodes := Function.update c.nodes n (f (c.nodes n))}

/-- A fresh `TreeNode`. -/
def addNode (x : TreeNode) : RadixCache :=
  {c with nodes := Function.update c.nodes c.counter x, counter := c.counter + 1}

section
variable (now : Int)

def touch (n : NodeId) : RadixCache :=
  c.modifyNode n fun x => {x with lastAccessTime := now}

def reset : RadixCache :=
  { c.addNode {lockRef := 1, lastAccessTime := now, creationTime := now, priority := -(2 ^ 63 - 1)} with
    rootNode := c.counter
    evictableSize := 0
    protectedSize := 0
    evictableLeaves := [] }

/-- `RadixCache(params)`. -/
def create (params : CacheInitParams) (now : Int) : RadixCache :=
  reset ⟨params, fun _ => {lastAccessTime := 0, creationTime := 0}, 0, 0, 0, 0, []⟩ now

def updateLeafStatus (n : NodeId) : RadixCache :=
  if (c.nodes n).lockRef > 0 then {c with evictableLeaves := c.evictableLeaves.erase n}
  else if (c.nodes n).children.entries ≠ [] then
    {c with evictableLeaves := c.evictableLeaves.erase n}
  else if n ∈ c.evictableLeaves then c
  else {c with evictableLeaves := n :: c.evictableLeaves}

/-- The upper part of a node becomes a new node between it and its parent; the lower part
keeps the node's identity. -/
def splitNode (child : NodeId) (splitLen : Nat) : Option (RadixCache × NodeId) :=
  let x := c.nodes child
  match x.parent with
  | none => none
  | some parent =>
    let newNode := c.counter
    let c := c.addNode
      { children := AList.singleton ((x.key.since splitLen).childKey c.pageSize) child
        parent := some parent
        key := x.key.upto splitLen
        value := x.value.take splitLen
        lockRef := x.lockRef
        lastAccessTime := now
        creationTime := now
        hitCount := x.hitCount
        priority := x.priority }
    let c := c.modifyNode child fun x =>
      {x with parent := some newNode, key := x.key.since splitLen, value := x.value.drop splitLen}
    let c := c.modifyNode parent fun y =>
      {y with children := y.children.insert (x.key.childKey c.pageSize) newNode}
    some (c, newNode)

/-! ### Lookup -/

/-- The loop of `_match_prefix_helper` at `node`, with `key` still to match. -/
def matchPrefixHelper (now : Int) :
    Nat → RadixCache → NodeId → RadixKey → List Slot → Option (RadixCache × List Slot × NodeId)
  | fuel, c, node, key, value =>
    if key.len = 0 then some (c, value, node)
    else match (c.nodes node).children.lookup (key.childKey c.pageSize), fuel with
    | none, _ => some (c, value, node)
    | some _, 0 => none
    | some child, fuel + 1 =>
      let c := c.touch now child
      match (c.nodes child).key.match key c.pageSize with
      | none => none
      | some prefixLen =>
        if prefixLen < (c.nodes child).key.len then
          (c.splitNode now child prefixLen).map fun (c, newNode) =>
            (c, value ++ (c.nodes newNode).value, newNode)
        else
          matchPrefixHelper now fuel c child (key.since prefixLen) (value ++ (c.nodes child).value)

def matchPrefix (key : RadixKey) : Option (RadixCache × MatchResult) :=
  let (key, _) := key.maybeToBigramView c.isEagle none
  if c.disable || key.len = 0 then some (c, ⟨[], c.rootNode⟩)
  else
    let key := key.pageAligned c.pageSize
    if key.len = 0 then some (c, ⟨[], c.rootNode⟩)
    else
      (matchPrefixHelper now key.len (c.touch now c.rootNode) c.rootNode key []).map
        fun (c, value, node) => (c, ⟨value, node⟩)

/-! ### Insertion -/

def incHitCount (n : NodeId) (chunked : Bool) : RadixCache :=
  if chunked then c else c.modifyNode n fun x => {x with hitCount := x.hitCount + 1}

def raisePriority (n : NodeId) (priority : Int) : RadixCache :=
  c.modifyNode n fun x => {x with priority := max x.priority priority}

/-- The loop of `_insert_helper`: the node reached, what is left of key and value, and the
length found. -/
def insertLoop (now priority : Int) (chunked : Bool) :
    Nat → RadixCache → NodeId → RadixKey → List Slot →
    Nat → Option (RadixCache × NodeId × RadixKey × List Slot × Nat)
  | fuel, c, node, key, value, total =>
    if key.len = 0 then some (c, node, key, value, total)
    else match (c.nodes node).children.lookup (key.childKey c.pageSize), fuel with
    | none, _ => some (c, node, key, value, total)
    | some _, 0 => none
    | some node, fuel + 1 =>
      let c := c.touch now node
      match (c.nodes node).key.match key c.pageSize with
      | none => none
      | some prefixLen =>
        let key := key.since prefixLen
        let value := value.drop prefixLen
        if prefixLen < (c.nodes node).key.len then
          match c.splitNode now node prefixLen with
          | none => none
          | some (c, newNode) =>
            let c := (c.raisePriority newNode priority).incHitCount newNode chunked
            insertLoop now priority chunked fuel c newNode key value (total + prefixLen)
        else
          let c := (c.raisePriority node priority).incHitCount node chunked
          insertLoop now priority chunked fuel c node key value (total + prefixLen)

/-- The new leaf of `_insert_helper`. -/
def addLeaf (now priority : Int) (chunked : Bool) (node : NodeId) (key : RadixKey)
    (value : List Slot) : RadixCache :=
  let newNode := c.counter
  let c :=
    c.addNode
    { parent := some node, key, value, lastAccessTime := now, creationTime := now, priority }
  let c := c.incHitCount newNode chunked
  let c := c.modifyNode node fun x =>
    {x with children := x.children.insert (key.childKey c.pageSize) newNode}
  let c := {c with evictableSize := c.evictableSize + key.len}
  (c.updateLeafStatus node).updateLeafStatus newNode

def insertHelper (key : RadixKey) (value : List Slot) (priority : Int) (chunked : Bool) :
    Option (RadixCache × Nat) :=
  let c := (c.touch now c.rootNode).raisePriority c.rootNode priority
  if key.len = 0 then some (c, 0)
  else
    (insertLoop now priority chunked key.len c c.rootNode key value 0).map
      fun (c, node, key, value, total) =>
        (if key.len = 0 then c else c.addLeaf now priority chunked node key value, total)

/-- The key and the value as `insert` stores them. -/
def insertArgs (params : InsertParams) : RadixKey × List Slot :=
  let (key, value) := params.key.maybeToBigramView c.isEagle params.value
  let key := key.pageAligned c.pageSize
  match value with
  | some value => (key, value.take key.len)
  -- debug and test fallback: the token ids themselves
  | none => (key, (key.tokenIds.take key.len).map Int.toNat)

def insert (params : InsertParams) : Option (RadixCache × Nat) :=
  if c.disable then some (c, 0)
  else
    let (key, value) := c.insertArgs params
    c.insertHelper now key value params.priority params.chunked

end

/-! ### Locks -/

/-- One round of the loops of `inc_lock_ref` and `dec_lock_ref`: a node whose count is `edge`
crosses between the evictable and the protected part, and the count moves by `step`. -/
def bumpLock (edge step : Int) (c : RadixCache) (node : NodeId) : RadixCache :=
  let x := c.nodes node
  let c :=
    if x.lockRef = edge then
      { c with
        evictableSize := c.evictableSize - step * x.key.len
        protectedSize := c.protectedSize + step * x.key.len }
    else c
  (c.modifyNode node fun x => {x with lockRef := x.lockRef + step}).updateLeafStatus node

/-- The two loops, from a node up to the root. -/
def lockRefLoop (edge step : Int) : Nat → RadixCache → NodeId → Int → Option (RadixCache × Int)
  | fuel, c, node, delta =>
    if node = c.rootNode then some (c, delta)
    else match (c.nodes node).parent, fuel with
    | some parent, fuel + 1 =>
      let delta := if (c.nodes node).lockRef = edge then delta - step * (c.nodes node).key.len
        else delta
      lockRefLoop edge step fuel (bumpLock edge step c node) parent delta
    | _, _ => none

def incLockRef (node : NodeId) : Option (RadixCache × Int) :=
  if c.disable then some (c, 0) else lockRefLoop 0 1 c.counter c node 0

def decLockRef (node : NodeId) : Option (RadixCache × Int) :=
  if c.disable then some (c, 0) else lockRefLoop 1 (-1) c.counter c node 0

/-! ### Eviction -/

/-- An entry of the eviction heap. Ties of the priority are broken by the nodes' own order,
the last access time, which is kept at the end of the list compared. -/
abbrev HeapEntry := List Int × NodeId

def heapEntry (n : NodeId) : HeapEntry :=
  (c.evictionPolicy.getPriority (c.nodes n) ++ [(c.nodes n).lastAccessTime], n)

/-- A least entry and the rest. -/
def heappop : List HeapEntry → Option (HeapEntry × List HeapEntry)
  | [] => none
  | e :: rest =>
    let least := rest.foldl (fun best e => if e.1 < best.1 then e else best) e
    some (least, (e :: rest).erase least)

def deleteLeaf (node : NodeId) : Option RadixCache :=
  let x := c.nodes node
  match x.parent with
  | none => none
  | some parent =>
    let key := x.key.childKey c.pageSize
    if (c.nodes parent).children.lookup key ≠ some node then none
    else
      let c := c.modifyNode parent fun y => {y with children := y.children.erase key}
      let c :=
        { c with
          evictableSize := c.evictableSize - x.key.len
          evictableLeaves := c.evictableLeaves.erase node }
      some (c.updateLeafStatus parent)

/-- The loop of `evict`: the values freed so far are `freed`, in the order of the calls. -/
def evictLoop (numTokens : Nat) : Nat → RadixCache → List HeapEntry → Nat → List (List Slot) →
    Option (RadixCache × Nat × List (List Slot))
  | fuel, c, heap, numEvicted, freed =>
    if numEvicted < numTokens then
      match heappop heap, fuel with
      | none, _ => some (c, numEvicted, freed)
      | some _, 0 => none
      | some ((_, x), heap), fuel + 1 =>
        let value := (c.nodes x).value
        match (c.nodes x).parent, c.deleteLeaf x with
        | some parent, some c =>
          let heap :=
            if (c.nodes parent).children.entries = [] ∧ (c.nodes parent).lockRef = 0
            then heap ++ [c.heapEntry parent] else heap
          evictLoop numTokens fuel c heap (numEvicted + value.length) (freed ++ [value])
        | _, _ => none
    else some (c, numEvicted, freed)

/-- The cache after `evict`, the number of tokens evicted and the values handed to the
allocator's `free`. -/
def evict (numTokens : Nat) : Option (RadixCache × Nat × List (List Slot)) :=
  if c.disable then some (c, 0, [])
  else evictLoop numTokens c.counter c (c.evictableLeaves.map c.heapEntry) 0 []

end

end RadixCache

end Sglang.MemCache
