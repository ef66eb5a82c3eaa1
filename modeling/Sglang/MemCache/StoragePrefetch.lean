import Mathlib.Data.List.Range

/-! Host memory and the prefetches from storage.

The scheduler allocates host memory for a prefetch and queues the operation. The prefetch thread
asks the storage how much of it is there, releases what is not, and hands the operation to the I/O
thread, which counts the pages it has read and releases the rest when it stops. Memory is released
through a queue that the scheduler drains. Meanwhile the scheduler may terminate the operation, and
the pages read so far go into the tree.

A step is what a thread does between two accesses to shared data. The tree is seen as the host
memory of its nodes: which nodes are evicted and how much of a prefetched prefix is in the tree
already are inputs. Queues are the stages of the operations, served in any order and by any number
of threads. -/
namespace Sglang.MemCache.StoragePrefetch

abbrev Slot := Nat

abbrev Rid := Nat

/-- Where an operation is. -/
inductive Stage
  /-- In the prefetch queue. -/
  | queued
  /-- The prefetch thread gives the operation up: it tells the scheduler and releases the pages. -/
  | revoking (sent : Bool) (pages : List (List Slot))
  /-- The prefetch thread releases the pages that are not in the storage. -/
  | trimming (hitCount : Nat) (pages : List (List Slot))
  /-- In the buffer between the threads. -/
  | buffered
  /-- The I/O thread reads pages. -/
  | transferring (remaining : Nat)
  /-- The I/O thread releases the pages it has not read. -/
  | releasing (pages : List (List Slot))
  | done
deriving DecidableEq

/-- A prefetch operation; `indices` is the scheduler's record of its memory. -/
structure Operation where
  requestId : Rid
  indices : List Slot
  hostIndices : List Slot
  completedTokens : Nat := 0
  terminated : Bool := false
  /-- The number of hashes. -/
  hashPages : Nat := 0
  /-- Whether the scheduler has it in `ongoing_prefetch`. -/
  ongoing : Bool := true
  stage : Stage := .queued
deriving DecidableEq

structure Config where
  size : Nat
  pageSize : Nat
  prefetchThreshold : Nat
  pageSize_pos : 0 < pageSize

def splitPages (pageSize : Nat) : Nat → List Slot → List (List Slot)
  | 0, _ => []
  | fuel + 1, slots =>
    if slots = [] then [] else slots.take pageSize :: splitPages pageSize fuel (slots.drop pageSize)

section
variable (cfg : Config)

/-- The pages in which memory is released. -/
def pagesOf (slots : List Slot) : List (List Slot) := splitPages cfg.pageSize slots.length slots

/-! ### The threads -/

/-- Whether the prefetch thread is done with an operation. -/
def Stage.pastPrefetchThread : Stage → Bool
  | .queued | .revoking _ _ | .trimming _ _ => false
  | _ => true

section
variable (op : Operation)

/-- The operation is terminated and its record deleted. -/
def Operation.settled : Operation := { op with terminated := true, ongoing := false }

/-- The prefetch thread knows how many tokens are stored. The controller wants a page of them at
least. -/
def Operation.answer (hitCount : Nat) : Operation :=
  if hitCount < max cfg.prefetchThreshold cfg.pageSize then
    { op with stage := .revoking false (pagesOf cfg op.hostIndices) }
  else
    { op with hashPages := hitCount / cfg.pageSize, stage := .trimming hitCount (pagesOf cfg (op.hostIndices.drop hitCount)) }

/-- The operation goes to the I/O thread. -/
def Operation.forward (hitCount : Nat) : Operation :=
  { op with hostIndices := op.hostIndices.take hitCount, stage := .buffered }

/-- The I/O thread stops reading. -/
def Operation.stop : Operation :=
  { op with stage := .releasing (pagesOf cfg (op.hostIndices.drop op.completedTokens)) }

/-- `increment`, unless the operation is terminated. -/
def Operation.increment (remaining n : Nat) : Operation :=
  if op.terminated then op.stop cfg
  else
    { op with completedTokens := op.completedTokens + n * cfg.pageSize, stage := .transferring (remaining - n) }

/-- The stage after the next page is put into the release queue. -/
def Stage.nextPage : Stage → Option (List Slot × Stage)
  | .revoking true (page :: pages) => some (page, .revoking true pages)
  | .trimming hitCount (page :: pages) => some (page, .trimming hitCount pages)
  | .releasing (page :: pages) => some (page, .releasing pages)
  | _ => none

/-- A step of a thread on an operation. -/
inductive Work
  | answer (hitCount : Nat)
  | sendRevoke
  | putPage
  | forward
  | get
  | increment (n : Nat)
  /-- A page that cannot be read. -/
  | fail
  | finish
deriving DecidableEq

/-- The operation after a step, and what is put into the release and the revoke queue. -/
def Operation.work : Work → Option (Operation × List (List Slot) × List Rid)
  | .answer hitCount =>
    if op.stage = .queued ∧ hitCount ≤ op.hostIndices.length then
      some (op.answer cfg hitCount, [], []) else none
  | .sendRevoke =>
    match op.stage with
    | .revoking false pages => some ({ op with stage := .revoking true pages }, [], [op.requestId])
    | _ => none
  | .putPage => op.stage.nextPage.map fun (page, stage) => ({ op with stage }, [page], [])
  | .forward =>
    match op.stage with
    | .trimming hitCount [] => some (op.forward hitCount, [], [])
    | _ => none
  | .get =>
    if op.stage = .buffered then some ({ op with stage := .transferring op.hashPages }, [], [])
      else none
  | .increment n =>
    match op.stage with
    | .transferring remaining =>
      if n ≤ remaining then some (op.increment cfg remaining n, [], []) else none
    | _ => none
  | .fail =>
    match op.stage with
    | .transferring _ => some ({ op with terminated := true }.stop cfg, [], [])
    | _ => none
  | .finish =>
    match op.stage with
    | .transferring 0 => some (op.stop cfg, [], [])
    | .revoking true [] => some ({ op with stage := .done }, [], [])
    | .releasing [] => some ({ op with stage := .done }, [], [])
    | _ => none

end

end

structure HostCache where
  freeSlots : List Slot
  /-- The host values of the tree's nodes. -/
  nodes : List (List Slot)
  hostMemReleaseQueue : List (List Slot)
  prefetchRevokeQueue : List Rid
  ops : List Operation
deriving DecidableEq

namespace HostCache

def create (cfg : Config) : HostCache := ⟨List.range cfg.size, [], [], [], []⟩

/-! ### The host pool -/

section
variable (s : HostCache)

def alloc (needSize : Nat) : Option (List Slot × HostCache) :=
  if s.freeSlots.length < needSize then none
  else some (s.freeSlots.take needSize, { s with freeSlots := s.freeSlots.drop needSize })

def free (slots : List Slot) : HostCache := { s with freeSlots := s.freeSlots ++ slots }

section
variable (cfg : Config)

def appendHostMemRelease (s : HostCache) (slots : List Slot) : HostCache :=
  { s with hostMemReleaseQueue := s.hostMemReleaseQueue ++ pagesOf cfg slots }

/-! ### The tree -/

/-- The chosen nodes are deleted. -/
def evictHost (victim : List Slot → Bool) : HostCache :=
  { s with nodes := s.nodes.filter (!victim ·) }.free (s.nodes.filter victim).flatten

/-- Memory, after an eviction if there is none. -/
def allocOrEvict (needSize : Nat) (victim : List Slot → Bool) : Option (List Slot) × HostCache :=
  match s.alloc needSize with
  | some (slots, s) => (some slots, s)
  | none =>
    let s := s.evictHost victim
    match s.alloc needSize with
    | some (slots, s) => (some slots, s)
    | none => (none, s)

def addNode (slots : List Slot) : HostCache := { s with nodes := s.nodes ++ [slots] }

/-- `write_backup` of a node of `length` tokens. -/
def writeBackup (length : Nat) (victim : List Slot → Bool) : HostCache :=
  match s.allocOrEvict length victim with
  | (some slots, s) => s.addNode slots
  | (none, s) => s

/-- `_split_node`. -/
def splitNode (i splitLen : Nat) : HostCache :=
  match s.nodes[i]? with
  | some slots =>
    { s with nodes := s.nodes.set i (slots.take splitLen) }.addNode (slots.drop splitLen)
  | none => s

/-! ### The scheduler -/

def prefetchFromStorage (s : HostCache) (requestId : Rid) (prefetchLength : Nat)
    (victim : List Slot → Bool) : HostCache :=
  if prefetchLength < cfg.prefetchThreshold then s
  else
    match s.allocOrEvict prefetchLength victim with
    | (some slots, s) =>
      { s with ops := s.ops ++ [{ requestId, indices := slots, hostIndices := slots }] }
    | (none, s) => s

/-- `check_prefetch_progress`, for an operation that may be terminated: other ranks have read
`minCompletedTokens` at least, and `matchedLength` tokens of these are in the tree. -/
def checkPrefetchProgress (s : HostCache) (i : Nat) (op : Operation)
    (minCompletedTokens matchedLength : Nat) :
    HostCache :=
  let s := { s with ops := s.ops.set i (Operation.settled op) }
  let written := op.indices.take minCompletedTokens
  let s := if matchedLength < written.length then s.addNode (written.drop matchedLength) else s
  (s.free (op.indices.take matchedLength)).appendHostMemRelease cfg
    ((op.indices.take op.completedTokens).drop minCompletedTokens)

/-- `release_aborted_request`. -/
def releaseAbortedRequest (s : HostCache) (i : Nat) (op : Operation) : HostCache :=
  { s with ops := s.ops.set i (Operation.settled op) }.appendHostMemRelease cfg
    (op.indices.take op.completedTokens)

/-- The next revocation drops the record of its request. -/
def drainRevoke : HostCache :=
  match s.prefetchRevokeQueue with
  | [] => s
  | requestId :: queue =>
    { s with
      prefetchRevokeQueue := queue
      ops := s.ops.map fun op => if op.requestId = requestId then { op with ongoing := false }
        else op }

def drainRelease (n : Nat) : HostCache :=
  { s with hostMemReleaseQueue := s.hostMemReleaseQueue.drop n }.free
    (s.hostMemReleaseQueue.take n).flatten

/-- `reset`: the pool and the tree are new, and so is the buffer between the threads. The records of
the scheduler, the release queue and the work of the I/O thread stay. -/
def reset (s : HostCache) : HostCache :=
  { s with
    freeSlots := List.range cfg.size
    nodes := []
    prefetchRevokeQueue := []
    ops := s.ops.map fun op => if op.stage = .buffered then { op with stage := .done } else op }

end

/-! ### Events -/

inductive Event
  | backup (length : Nat) (victim : List Slot → Bool)
  | evict (victim : List Slot → Bool)
  | split (i splitLen : Nat)
  | prefetch (requestId : Rid) (length : Nat) (victim : List Slot → Bool)
  | check (i minCompletedTokens matchedLength : Nat)
  | terminate (i : Nat)
  | abort (i : Nat)
  | drainRevoke
  | drainRelease (n : Nat)
  | reset
  | work (i : Nat) (work : Work)

/-- What a thread has done with an operation. -/
def update (i : Nat) : Operation × List (List Slot) × List Rid → HostCache
  | (op, pages, revoked) =>
    { s with
      ops := s.ops.set i op
      hostMemReleaseQueue := s.hostMemReleaseQueue ++ pages
      prefetchRevokeQueue := s.prefetchRevokeQueue ++ revoked }

/-- The operation that the scheduler has a record of. -/
def ongoingOp (i : Nat) : Option Operation := s.ops[i]?.filter (·.ongoing)

end

/-- A request has one record at a time. A reset waits for the prefetch thread, which empties its
queue. -/
def step (cfg : Config) (s : HostCache) : Event → Option HostCache
  | .backup length victim => some (s.writeBackup length victim)
  | .evict victim => some (s.evictHost victim)
  | .split i splitLen => some (s.splitNode i splitLen)
  | .prefetch requestId length victim =>
    if ∀ op ∈ s.ops, op.ongoing = true → op.requestId ≠ requestId then
      some (s.prefetchFromStorage cfg requestId length victim) else none
  | .check i minCompletedTokens matchedLength =>
    (s.ongoingOp i).bind fun op =>
      if matchedLength ≤ minCompletedTokens ∧ minCompletedTokens ≤ op.completedTokens then
        some (s.checkPrefetchProgress cfg i op minCompletedTokens matchedLength)
      else none
  | .terminate i => (s.ongoingOp i).map fun op =>
    { s with ops := s.ops.set i { op with terminated := true } }
  | .abort i => (s.ongoingOp i).map fun op => s.releaseAbortedRequest cfg i op
  | .drainRevoke => some s.drainRevoke
  | .drainRelease n => some (s.drainRelease n)
  | .reset => if ∀ op ∈ s.ops, op.stage.pastPrefetchThread then some (s.reset cfg) else none
  | .work i work => s.ops[i]?.bind fun op => (Operation.work cfg op work).map (s.update i)

end HostCache

end Sglang.MemCache.StoragePrefetch
