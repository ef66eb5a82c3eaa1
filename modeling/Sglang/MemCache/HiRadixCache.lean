import Mathlib.Data.List.AList
import Sglang.MemCache.RadixKey

/-! The hierarchical radix cache: device, host and storage.

The memory of the tiers is kept by value: a node holds the KV entries themselves, and an entry says
for which namespace and which tokens it was computed. A node that is deleted keeps its fields. Locks
and the order of eviction only restrict which of the steps below are taken; they are left out. Keys
are read in tokens.

A page is stored under a hash of its tokens and of the hash before it. Without collisions the hash
is the list of the pages that went into it. -/
namespace Sglang.MemCache.Hierarchical
open Prefix

abbrev NodeId := Nat

/-- The KV entry of a token, computed for a namespace after the tokens before it. -/
structure Kv where
  computedFor : Option String
  tokenIds : List TokenId
  deriving DecidableEq

abbrev Hash := List (List TokenId)

/-- `get_hash_str`. -/
def getHashStr (tokenIds : List TokenId) (priorHash : Option Hash) : Hash :=
  priorHash.getD [] ++ [tokenIds]

/-- The hashes of the pages of `tokenIds`, each with the one before it; `fuel` bounds the number of
pages. -/
def pageHashes (pageSize : Nat) : Nat → List TokenId → Option Hash → List Hash
  | 0, _, _ => []
  | fuel + 1, tokenIds, priorHash =>
    if tokenIds.length = 0 then []
    else
      let hash := getHashStr (tokenIds.take pageSize) priorHash
      hash :: pageHashes pageSize fuel (tokenIds.drop pageSize) (some hash)

structure TreeNode where
  children : AList fun _ : ChildKey => NodeId := ∅
  parent : Option NodeId := none
  key : RadixKey
  value : Option (List Kv) := none
  hostValue : Option (List Kv) := none
  hashValue : List Hash := []

namespace TreeNode

section
variable (x : TreeNode)

def evicted : Bool := x.value.isNone

def backuped : Bool := x.hostValue.isSome

/-- The node that a split puts above `x`. -/
def upper (splitLen splitPages : Nat) (children : AList fun _ : ChildKey => NodeId) : TreeNode where
  children := children
  parent := x.parent
  key := x.key.upto splitLen
  value := x.value.map (·.take splitLen)
  hostValue := x.hostValue.map (·.take splitLen)
  hashValue := x.hashValue.take splitPages

/-- What a split leaves of `x`. -/
def lower (splitLen splitPages : Nat) (newNode : NodeId) : TreeNode where
  children := x.children
  parent := some newNode
  key := x.key.since splitLen
  value := x.value.map (·.drop splitLen)
  hostValue := x.hostValue.map (·.drop splitLen)
  hashValue := x.hashValue.drop splitPages

/-- A node that is evicted gets the recomputed entries. -/
def refill (value : List Kv) : TreeNode := if x.evicted then { x with value := some value } else x

def getLastHashValue : Option Hash := x.hashValue.getLast?

end

end TreeNode

/-- A request, with the KV entries of its row. -/
structure Req where
  extraKey : Option String
  fillIds : List TokenId
  row : List Kv := []
  lastHostNode : NodeId
  hostHitLength : Nat := 0

/-- A prefetch, with the hashes of the pages that the storage has and the pages that have arrived.
-/
structure PrefetchOperation where
  req : Nat
  lastHostNode : NodeId
  tokenIds : List TokenId
  lastHash : Option Hash
  hashValue : List Hash := []
  completedPages : Nat := 0
  fetched : List Kv := []

/-- Pages on their way to the storage. -/
structure StorageOperation where
  hashValue : List Hash
  content : List Kv

structure HiRadixCache where
  pageSize : Nat
  nodes : NodeId → TreeNode
  counter : Nat
  rootNode : NodeId
  storage : Hash → Option (List Kv)
  reqs : List Req
  ongoingPrefetch : List PrefetchOperation
  ongoingBackup : List StorageOperation

namespace HiRadixCache

section
variable (c : HiRadixCache)

def modifyNode (n : NodeId) (f : TreeNode → TreeNode) : HiRadixCache :=
  { c with nodes := Function.update c.nodes n (f (c.nodes n)) }

def addNode (x : TreeNode) : HiRadixCache :=
  { c with nodes := Function.update c.nodes c.counter x, counter := c.counter + 1 }

def create (pageSize : Nat) : HiRadixCache where
  pageSize := pageSize
  nodes _ := { key := { tokenIds := [] }, value := some [], hostValue := some [] }
  counter := 1
  rootNode := 0
  storage _ := none
  reqs := []
  ongoingPrefetch := []
  ongoingBackup := []

/-! ### The tree -/

/-- `_split_node`: the upper part of a node becomes a new node above it. -/
def splitNode (child : NodeId) (splitLen : Nat) : Option (HiRadixCache × NodeId) :=
  let x := c.nodes child
  x.parent.map fun parent =>
    let newNode := c.counter
    let splitPages := splitLen / c.pageSize
    let children := AList.singleton ((x.key.since splitLen).childKey c.pageSize) child
    let c' :=
      (c.addNode (x.upper splitLen splitPages children)).modifyNode child fun _ =>
      x.lower splitLen splitPages newNode
    (c'.modifyNode parent
      fun y => { y with children := y.children.insert (x.key.childKey c.pageSize) newNode },
      newNode)

/-- The child that the loops go down to: none at the end of the key. -/
def nextChild (node : NodeId) (key : RadixKey) : Option NodeId :=
  if key.len = 0 then none else (c.nodes node).children.lookup (key.childKey c.pageSize)

/-- The loop of `_match_prefix_helper`; `none` is the `ValueError` of keys of two namespaces. -/
def matchPrefixHelper :
    Nat → HiRadixCache → NodeId → RadixKey → List Kv → Option (HiRadixCache × List Kv × NodeId)
  | fuel, c, node, key, value =>
    match c.nextChild node key, fuel with
    | none, _ => some (c, value, node)
    | some _, 0 => none
    | some child, fuel + 1 =>
      ((c.nodes child).key.match key c.pageSize).bind fun prefixLen =>
        if prefixLen < (c.nodes child).key.len then
          (c.splitNode child prefixLen).map fun (c, newNode) =>
            (c, value ++ (c.nodes newNode).value.getD [], newNode)
        else matchPrefixHelper fuel c child (key.since prefixLen)
          (value ++ (c.nodes child).value.getD [])

/-- The length on the host of the evicted nodes from `n` upwards. -/
def hostHitLength (c : HiRadixCache) : Nat → NodeId → Option Nat
  | 0, _ => none
  | fuel + 1, n =>
    if (c.nodes n).evicted then
      match (c.nodes n).hostValue, (c.nodes n).parent with
      | some hostValue, some parent => (c.hostHitLength fuel parent).map (hostValue.length + ·)
      | _, _ => none
    else some 0

/-- The first node from `n` upwards that is backed up. -/
def lastHostNode (c : HiRadixCache) : Nat → NodeId → Option NodeId
  | 0, _ => none
  | fuel + 1, n =>
    if (c.nodes n).backuped then some n else (c.nodes n).parent.bind (c.lastHostNode fuel)

structure MatchResult where
  deviceIndices : List Kv
  lastHostNode : NodeId
  hostHitLength : Nat

def matchPrefix (key : RadixKey) : Option (HiRadixCache × MatchResult) :=
  if key.len = 0 then some (c, ⟨[], c.rootNode, 0⟩)
  else
    let key := key.pageAligned c.pageSize
    (matchPrefixHelper key.len c c.rootNode key []).bind fun (c, value, node) =>
      (c.hostHitLength c.counter node).bind fun hostHitLength =>
        (c.lastHostNode c.counter node).map fun lastHostNode =>
          (c, ⟨value, lastHostNode, hostHitLength⟩)

/-- The loop of `insert`: the node reached and what is left of key and value. -/
def insertLoop :
    Nat → HiRadixCache → NodeId → RadixKey → List Kv → Option
    (HiRadixCache × NodeId × RadixKey × List Kv)
  | fuel, c, node, key, value =>
    match c.nextChild node key, fuel with
    | none, _ => some (c, node, key, value)
    | some _, 0 => none
    | some child, fuel + 1 =>
      ((c.nodes child).key.match key c.pageSize).bind fun prefixLen =>
        (if prefixLen < (c.nodes child).key.len then
          c.splitNode child prefixLen else some (c, child)).bind fun (c, reached) =>
          let c := c.modifyNode reached (·.refill (value.take prefixLen))
          insertLoop fuel c reached (key.since prefixLen) (value.drop prefixLen)

/-- `compute_node_hash_values` for a new node below `parent`. -/
def computeNodeHashValues (parent : NodeId) (key : RadixKey) : List Hash :=
  let p := c.nodes parent
  let parentHash := if 0 < p.key.len then p.hashValue.getLast? else none
  pageHashes c.pageSize key.tokenIds.length key.tokenIds parentHash

def addLeaf (parent : NodeId) (x : TreeNode) : HiRadixCache :=
  let newNode := c.counter
  (c.addNode x).modifyNode parent fun y =>
    { y with children := y.children.insert (x.key.childKey c.pageSize) newNode }

def insert (key : RadixKey) (value : List Kv) : Option HiRadixCache :=
  let key := key.pageAligned c.pageSize
  let value := value.take key.len
  (insertLoop key.len c c.rootNode key value).map fun (c, node, key, value) =>
    if key.len = 0 then c
    else c.addLeaf node
      { parent := some node, key := key, value := some value, hashValue := c.computeNodeHashValues node key }

/-- The loop of `_insert_helper_host`. -/
def insertHostLoop : Nat → HiRadixCache → NodeId → RadixKey → List Kv → List Hash →
    Option (HiRadixCache × NodeId × RadixKey × List Kv × List Hash)
  | fuel, c, node, key, hostValue, hashValue =>
    match c.nextChild node key, fuel with
    | none, _ => some (c, node, key, hostValue, hashValue)
    | some _, 0 => none
    | some child, fuel + 1 =>
      ((c.nodes child).key.match key c.pageSize).bind fun prefixLen =>
        (if prefixLen < (c.nodes child).key.len then
          c.splitNode child prefixLen else some (c, child)).bind fun (c, reached) =>
          insertHostLoop fuel c reached (key.since prefixLen) (hostValue.drop prefixLen)
            (hashValue.drop (prefixLen / c.pageSize))

def insertHelperHost (node : NodeId) (key : RadixKey) (hostValue : List Kv)
    (hashValue : List Hash) :
    Option HiRadixCache :=
  (insertHostLoop key.len c node key hostValue hashValue).map
    fun (c, node, key, hostValue, hashValue) =>
    if key.len = 0 then c
    else c.addLeaf node
      { parent := some node, key := key, hostValue := some hostValue, hashValue := hashValue }

/-- The entries that `load_back` brings to the device for the evicted nodes from `n` upwards. -/
def loadBack : Nat → HiRadixCache → NodeId → Option (HiRadixCache × List Kv)
  | 0, _, _ => none
  | fuel + 1, c, n =>
    if (c.nodes n).evicted then
      match (c.nodes n).hostValue, (c.nodes n).parent with
      | some hostValue, some parent =>
        (loadBack fuel c parent).map fun (c, loaded) =>
          (c.modifyNode n fun x => { x with value := some hostValue }, loaded ++ hostValue)
      | _, _ => none
    else some (c, [])

/-- Take a node out of the tree. -/
def deleteLeaf (n : NodeId) : HiRadixCache :=
  let x := c.nodes n
  match x.parent with
  | some parent => c.modifyNode parent fun y =>
    { y with children := y.children.erase (x.key.childKey c.pageSize) }
  | none => c

/-! ### The tiers -/

/-- The storage operation that the backup of a node queues. -/
def writeBackupStorage (n : NodeId) : Option HiRadixCache :=
  (c.nodes n).hostValue.map fun hostValue =>
    { c with ongoingBackup := ⟨(c.nodes n).hashValue, hostValue⟩ :: c.ongoingBackup }

/-- Store the first `count` pages of an operation. -/
def pageBackup (op : StorageOperation) (count : Nat) : HiRadixCache :=
  let set (storage : Hash → Option (List Kv)) (page : Hash × Nat) (h : Hash) :=
    if h = page.1 then some ((op.content.drop (page.2 * c.pageSize)).take c.pageSize) else storage h
  { c with storage := (op.hashValue.zipIdx.take count).foldl set c.storage }

/-! ### Requests -/

section
variable (r : Nat)

/-- `init_next_round_input`: the last token is not looked up. -/
def initNextRoundInput : Option HiRadixCache :=
  c.reqs[r]?.bind fun req =>
    (c.matchPrefix
      { tokenIds := req.fillIds.take (req.fillIds.length - 1), extraKey := req.extraKey }).map
      fun (c, result) =>
      { c with reqs := c.reqs.set r { req with
          row := result.deviceIndices, lastHostNode := result.lastHostNode, hostHitLength :=
            result.hostHitLength } }

/-- `init_load_back`. -/
def initLoadBack : Option HiRadixCache :=
  c.reqs[r]?.bind fun req =>
    (loadBack c.counter c req.lastHostNode).map fun (c, loaded) =>
      { c with reqs := c.reqs.set r { req with row := req.row ++ loaded } }

/-- The forward pass computes the entries that are missing. -/
def extend : Option HiRadixCache :=
  c.reqs[r]?.map fun req =>
    let computed := (List.range' req.row.length (req.fillIds.length - req.row.length)).map fun i =>
      (⟨req.extraKey, req.fillIds.take (i + 1)⟩ : Kv)
    { c with reqs := c.reqs.set r { req with row := req.row ++ computed } }

def appendToken (token : TokenId) : Option HiRadixCache :=
  c.reqs[r]?.map fun req =>
    { c with reqs := c.reqs.set r { req with fillIds := req.fillIds ++ [token] } }

/-- `cache_finished_req` and the insertion of `cache_unfinished_req`. -/
def cacheReq : Option HiRadixCache :=
  c.reqs[r]?.bind fun req =>
    c.insert { tokenIds := req.fillIds.take req.row.length, extraKey := req.extraKey } req.row

/-- The rest of `cache_unfinished_req`: the row takes the entries of the tree. -/
def rematchReq : Option HiRadixCache :=
  c.reqs[r]?.bind fun req =>
    (c.matchPrefix { tokenIds := req.fillIds.take req.row.length, extraKey := req.extraKey }).map
      fun (c, result) =>
      { c with reqs := c.reqs.set r { req with
          row := result.deviceIndices ++ req.row.drop result.deviceIndices.length, lastHostNode :=
            result.lastHostNode } }

/-- What `_prefetch_kvcache` asks for, in whole pages. -/
def newInputTokens (req : Req) : List TokenId :=
  let tokens := req.fillIds.drop (req.row.length + req.hostHitLength)
  tokens.take (floor c.pageSize tokens.length)

/-- `prefetch_from_storage`, as `_prefetch_kvcache` calls it after the lookup. -/
def prefetchFromStorage : Option HiRadixCache :=
  c.reqs[r]?.map fun req =>
    let operation :=
      { req := r
        lastHostNode := req.lastHostNode
        tokenIds := c.newInputTokens req
        lastHash := (c.nodes req.lastHostNode).getLastHashValue }
    { c with ongoingPrefetch := operation :: c.ongoingPrefetch }

end

def setPrefetch (i : Nat) (op : PrefetchOperation) : HiRadixCache :=
  { c with ongoingPrefetch := c.ongoingPrefetch.set i op }

/-- `_storage_hit_query`: the pages that the storage has, up to the first that it does not have. It
comes before the transfer. -/
def storageHitQuery (i : Nat) : Option HiRadixCache :=
  c.ongoingPrefetch[i]?.bind fun op =>
    let hashes := pageHashes c.pageSize op.tokenIds.length op.tokenIds op.lastHash
    if op.completedPages = 0 then
      some (c.setPrefetch i { op with hashValue := hashes.takeWhile fun h => (c.storage h).isSome })
    else none

/-- One page of `_page_transfer`. -/
def pageTransfer (i : Nat) : Option HiRadixCache :=
  c.ongoingPrefetch[i]?.bind fun op =>
    op.hashValue[op.completedPages]?.bind fun hash =>
      (c.storage hash).map fun page =>
        c.setPrefetch i
          { op with completedPages := op.completedPages + 1, fetched := op.fetched ++ page }

/-- `check_prefetch_progress`: what has arrived is inserted with the extra key of the node it hangs
on. -/
def checkPrefetchProgress (i : Nat) : Option HiRadixCache :=
  c.ongoingPrefetch[i]?.bind fun op =>
    let completed := op.completedPages * c.pageSize
    let key : RadixKey :=
      { tokenIds := op.tokenIds.take completed, extraKey := (c.nodes op.lastHostNode).key.extraKey }
    (c.insertHelperHost op.lastHostNode key (op.fetched.take completed)
      (op.hashValue.take op.completedPages)).map
      fun c => { c with ongoingPrefetch := c.ongoingPrefetch.eraseIdx i }

end

end HiRadixCache

/-! ### Runs -/

inductive Event
  | request (extraKey : Option String) (fillIds : List TokenId)
  | initNextRoundInput (r : Nat)
  | initLoadBack (r : Nat)
  | extend (r : Nat)
  | appendToken (r : Nat) (token : TokenId)
  | cacheReq (r : Nat)
  | rematchReq (r : Nat)
  | writeBackup (n : NodeId)
  | writeBackupStorage (n : NodeId)
  | pageBackup (i count : Nat)
  | evictBackuped (n : NodeId)
  | evictRegular (n : NodeId)
  | evictHost (n : NodeId)
  | prefetchFromStorage (r : Nat)
  | storageHitQuery (i : Nat)
  | pageTransfer (i : Nat)
  | checkPrefetchProgress (i : Nat)
  | revokePrefetch (i : Nat)

namespace HiRadixCache

/-- `none` is a step that cannot be taken. -/
def step (c : HiRadixCache) : Event → Option HiRadixCache
  | .request extraKey fillIds =>
    some { c with reqs := c.reqs ++ [⟨extraKey, fillIds, [], c.rootNode, 0⟩] }
  | .initNextRoundInput r => c.initNextRoundInput r
  | .initLoadBack r => c.initLoadBack r
  | .extend r => c.extend r
  | .appendToken r token => c.appendToken r token
  | .cacheReq r => c.cacheReq r
  | .rematchReq r => c.rematchReq r
  | .writeBackup n => (c.nodes n).value.map fun value => c.modifyNode n fun x =>
    { x with hostValue := some value }
  | .writeBackupStorage n => if n < c.counter then c.writeBackupStorage n else none
  | .pageBackup i count => c.ongoingBackup[i]?.map fun op =>
    { c.pageBackup op count with ongoingBackup := c.ongoingBackup.eraseIdx i }
  | .evictBackuped n =>
    if n ≠ c.rootNode ∧ (c.nodes n).backuped then
      some (c.modifyNode n fun x => { x with value := none }) else none
  | .evictRegular n =>
    if n ≠ c.rootNode ∧ (c.nodes n).children.entries = [] then some (c.deleteLeaf n) else none
  | .evictHost n => if n ≠ c.rootNode ∧ (c.nodes n).evicted then some (c.deleteLeaf n) else none
  | .prefetchFromStorage r => c.prefetchFromStorage r
  | .storageHitQuery i => c.storageHitQuery i
  | .pageTransfer i => c.pageTransfer i
  | .checkPrefetchProgress i => c.checkPrefetchProgress i
  | .revokePrefetch i => some { c with ongoingPrefetch := c.ongoingPrefetch.eraseIdx i }

end HiRadixCache

end Sglang.MemCache.Hierarchical
