import Sglang.Lib.Runs
import Sglang.MemCache.Allocator

/-! The KV memory of requests, as the scheduler drives it.

A request is admitted with the slots its prefix has in the radix cache, gets slots of
its own when it is extended or decoded, hands prefixes to the cache while it runs and
when it finishes, and gives the rest back. The functions here are those of `Req`, of
`mem_cache/common.py` and the two `cache_*_req` methods of the cache.

A request carries its own row of `req_to_token`: the first `kv_allocated_len` entries,
from the time the row is assigned. A raised exception or a failed assertion is `none`. -/
namespace Sglang.Managers
open MemCache Prefix

/-- Embeddings to place at token positions; a vector is given by the bits of its components. -/
structure PositionalEmbeds where
  embeds : List (List Nat)
  positions : List Nat
deriving DecidableEq

structure ServerArgs where
  stripThinkingCache : Bool := false
  /-- Whether `speculative_algorithm` is set. -/
  speculative : Bool := false

structure Req where
  originInputIds : List TokenId
  outputIds : List TokenId := []
  fillIds : List TokenId := []
  extraKey : Option String := none
  priority : Option Int := none
  returnLogprob : Bool := false
  logprobStartLen : Int := -1
  positionalEmbedOverrides : Option PositionalEmbeds := none
  reasoningTokens : Nat := 0
  row : Option (List Slot) := none
  prefixIndices : List Slot := []
  lastNode : NodeId := 0
  cacheProtectedLen : Nat := 0
  kvCommittedLen : Nat := 0
  kvAllocatedLen : Nat := 0
deriving DecidableEq

namespace Req

section
variable (r : Req)

/-- `origin_input_ids + output_ids`. -/
def tokens : List TokenId := r.originInputIds ++ r.outputIds

/-- The slots a request goes on from: its row, or before it has one the matched prefix. -/
def slots : List Slot := r.row.getD r.prefixIndices

lemma slots_of_row {r : Req} {row : List Slot} (hrow : r.row = some row) : r.slots = row := by
  rw [slots, hrow]
  rfl

/-- With thinking stripped only the prompt is reported as committed. -/
def cacheCommitLen (args : ServerArgs) : Nat :=
  if args.stripThinkingCache && r.reasoningTokens > 0 then
    min r.kvCommittedLen r.originInputIds.length
  else r.kvCommittedLen

lemma cacheCommitLen_le (r : Req) (args : ServerArgs) :
    r.cacheCommitLen args ≤ r.kvCommittedLen := by
  unfold cacheCommitLen
  split
  · exact min_le_left _ _
  · exact le_refl _

/-- How much of the input may be looked up: at least one token is left to compute, and those whose
log-probabilities are asked for. -/
def maxPrefixLen (r : Req) : Nat :=
  let maxPrefixLen : Int := r.tokens.length - 1
  let maxPrefixLen :=
    if r.returnLogprob && r.logprobStartLen ≥ 0 then min maxPrefixLen r.logprobStartLen
    else maxPrefixLen
  maxPrefixLen.toNat

def initNextRoundInput (now : Int) (c : RadixCache) : Option (RadixCache × Req) :=
  -- overrides change what a token computes, so nothing is looked up for them
  let tokenIds := if r.positionalEmbedOverrides.isSome then [] else r.tokens.take r.maxPrefixLen
  (c.matchPrefix now {tokenIds, extraKey := r.extraKey}).map fun (c, m) =>
    (c, { r with
      fillIds := r.tokens
      prefixIndices := m.deviceIndices
      lastNode := m.lastDeviceNode
      cacheProtectedLen := m.deviceIndices.length })

/-- What `add_one_req` and `add_chunked_req` leave of the input for this round. -/
def truncateTo (n : Nat) : Req := {r with fillIds := r.tokens.take n}

/-- Whether a request can go into an extend batch with `n` tokens of input: it was just admitted,
or its last chunk was cached. -/
def CanExtend (n : Nat) : Prop :=
  r.prefixIndices.length < n ∧ n ≤ r.tokens.length ∧
    (r.row = none ∨ r.prefixIndices.length = r.kvAllocatedLen)

end

instance (r : Req) (n : Nat) : Decidable (r.CanExtend n) := inferInstanceAs (Decidable (_ ∧ _ ∧ _))

/-- Whether a request can be released: the tokens of its committed slots are known, and where its
thinking is stripped it was last prefilled from the prompt alone. -/
def CanFinish (r : Req) (args : ServerArgs) : Prop :=
  r.kvCommittedLen ≤ r.tokens.length ∧
    (args.stripThinkingCache = true → 0 < r.reasoningTokens →
    r.fillIds.length ≤ r.originInputIds.length)

instance (r : Req) (args : ServerArgs) : Decidable (r.CanFinish args) :=
  inferInstanceAs (Decidable (_ ∧ (_ → _ → _)))

/-- The row and the lengths after an extend allocation. -/
def extended (r : Req) (out : List Slot) : Req :=
  { r with
    row := some (r.prefixIndices ++ out)
    kvCommittedLen := r.fillIds.length
    kvAllocatedLen := r.fillIds.length }

/-- The row and the lengths after a decode allocation. -/
def decoded (r : Req) (out : List Slot) : Req :=
  { r with
    row := r.row.map fun row => row.take r.kvCommittedLen ++ out
    kvCommittedLen := r.kvCommittedLen + 1
    kvAllocatedLen := r.kvAllocatedLen + 1 }

end Req

/-! ### Allocation -/

/-- The last element as `alloc_for_extend` and `get_last_loc` read it. -/
def lastLoc (l : List Slot) : Int := (l.getLast?.map Int.ofNat).getD (-1)

section
variable (c : RadixCache)

def evictFromTreeCache (a : KvAllocator) (numTokens : Nat) : Option (RadixCache × KvAllocator) :=
  if a.availableSize < numTokens then
    (c.evict numTokens).map fun (c, _, freed) => (c, freed.foldl .free a)
  else some (c, a)

/-- The slots each request of an extend batch gets. -/
def allocForExtend (a : KvAllocator) (batch : List Req) :
    Option (RadixCache × KvAllocator × List (List Slot)) := do
  let extendLens := batch.map fun r => r.fillIds.length - r.prefixIndices.length
  if c.pageSize = 1 then
    let (c, a) ← evictFromTreeCache c a extendLens.sum
    let (a, out) ← a.alloc extendLens.sum
    some (c, a, KvAllocator.splitLens extendLens out)
  else
    let (c, a) ← evictFromTreeCache c a (extendLens.sum + batch.length * a.pageSize)
    let args :=
      batch.map fun r => ⟨r.prefixIndices.length, r.fillIds.length, lastLoc r.prefixIndices⟩
    let (a, outs) ← a.allocExtend args extendLens.sum
    some (c, a, outs)

/-- The slot each request of a decode batch gets. -/
def allocForDecode (a : KvAllocator) (batch : List Req) :
    Option (RadixCache × KvAllocator × List Slot) := do
  if c.pageSize = 1 then
    let (c, a) ← evictFromTreeCache c a batch.length
    let (a, out) ← a.alloc batch.length
    some (c, a, out)
  else
    let (c, a) ← evictFromTreeCache c a (batch.length * a.pageSize)
    let args := batch.map fun r => (r.kvCommittedLen + 1, lastLoc (r.slots.take r.kvCommittedLen))
    let (a, out) ← a.allocDecode args
    some (c, a, out)

/-! ### Caching -/

/-- The key the cache files a request's tokens under. -/
def radixKey (tokenIds : List TokenId) (extraKey : Option String) : RadixKey :=
  RadixKey.pageAligned {tokenIds, extraKey, isBigram := c.isEagle} c.pageSize

end

/-- The insertion of `cache_finished_req` and `cache_unfinished_req`: the slots of the units of the
key, and the number of them that were there. -/
def insertSlots (now : Int) (chunked : Bool) (r : Req) (c : RadixCache)
    (key : RadixKey) (kvIndices : List Slot) :
    Option (RadixCache × Nat) :=
  let values := kvIndices.take key.len
  if h : key.len ≤ values.length then
    c.insert now
      { key, value := some values, chunked, priority := r.priority.getD 0
        covers := fun _ hv => Option.some.inj hv ▸ h }
  else none

/-- A slice of a row is overwritten. -/
def writeSlice (row : List Slot) (start stop : Nat) (values : List Slot) : List Slot :=
  if start ≤ stop then row.take start ++ values ++ row.drop stop else row

/-- The row and the prefix after `cache_unfinished_req` looked its key up again. -/
def Req.rematched (r : Req) (m : MatchResult) (row : List Slot) : Req :=
  let newIndices := m.deviceIndices
  { r with
    row :=
      some (writeSlice row r.cacheProtectedLen newIndices.length
      (newIndices.drop r.cacheProtectedLen))
    cacheProtectedLen := newIndices.length
    -- a partial page, or the last token of a bigram view, is not in the tree
    prefixIndices := newIndices ++ (row.take r.fillIds.length).drop newIndices.length
    lastNode := m.lastDeviceNode }

def cacheUnfinishedReq (now : Int) (chunked : Bool) (c : RadixCache) (a : KvAllocator) (r : Req) :
    Option (RadixCache × KvAllocator × Req) := do
  if c.disable then some (c, a, r)
  else
    let row ← r.row
    let kvIndices := row.take r.fillIds.length
    let key := radixKey c r.fillIds r.extraKey
    let (c, newPrefixLen) ← insertSlots now chunked r c key kvIndices
    -- what the tree had already is given back
    let a := a.free ((kvIndices.take newPrefixLen).drop r.cacheProtectedLen)
    let (c, m) ← c.matchPrefix now key
    guard (m.deviceIndices.length = key.len)
    let (c, _) ← c.decLockRef r.lastNode
    let (c, _) ← c.incLockRef m.lastDeviceNode
    some (c, a, r.rematched m row)

/-- The first half of `cache_finished_req`: the cache, and up to where the slots are given back. -/
def insertFinished (now : Int) (isInsert : Bool) (r : Req) (c : RadixCache)
    (key : RadixKey) (kvIndices : List Slot) :
    Option (RadixCache × Nat) :=
  if isInsert && !c.disableFinishedInsert then insertSlots now false r c key kvIndices
  else some (c, key.len)

def cacheFinishedReq (now : Int) (args : ServerArgs) (isInsert : Bool)
    (c : RadixCache) (a : KvAllocator) (r : Req) (row : List Slot) :
    Option (RadixCache × KvAllocator) := do
  let kvCommittedLen := r.cacheCommitLen args
  if c.disable then some (c, a.free (row.take kvCommittedLen))
  else
    let tokenIds := r.tokens.take kvCommittedLen
    let kvIndices := row.take tokenIds.length
    let key := radixKey c tokenIds r.extraKey
    let (c, freed) ← insertFinished now isInsert r c key kvIndices
    let a := a.free ((kvIndices.take freed).drop r.cacheProtectedLen)
    -- the unaligned tail
    let a := a.free (kvIndices.drop key.len)
    let (c, _) ← c.decLockRef r.lastNode
    some (c, a)

def releaseKvCache (now : Int) (args : ServerArgs) (isInsert : Bool) (c : RadixCache)
    (a : KvAllocator) (r : Req) :
    Option (RadixCache × KvAllocator) := do
  let row ← r.row
  let (c, a) ← cacheFinishedReq now args isInsert c a r row
  let startP := r.cacheCommitLen args
  let endP := r.kvAllocatedLen
  guard (args.speculative || args.stripThinkingCache || startP = endP)
  let startP := if c.pageSize > 1 then ceil c.pageSize startP else startP
  some (c, if startP < endP then a.free ((row.take endP).drop startP) else a)

/-! ### The server -/

/-- The cache, the allocator and the live requests. -/
structure Server where
  args : ServerArgs
  cache : RadixCache
  allocator : KvAllocator
  reqs : List Req := []
  /-- The overrides under which the KV entry of a slot was computed. -/
  kvSource : Slot → Option PositionalEmbeds := fun _ => none

namespace Server

def create (args : ServerArgs) (params : CacheInitParams) (size : Nat)
    (needSort : Bool) (now : Int) : Server where
  args := args
  cache := .create params now
  allocator := .create size params.pageSize needSort

/-- The forward pass fills the slots each request got. -/
def computed (source : Slot → Option PositionalEmbeds) (batch : List Req)
    (outs : List (List Slot)) :
    Slot → Option PositionalEmbeds :=
  (batch.zip outs).foldl (fun source p s => if s ∈ p.2 then
    p.1.positionalEmbedOverrides else source s) source

/-- What the scheduler does to the memory. Results are processed inside a free group, where
requests only finish. -/
inductive Step (s : Server) : Server → Prop
  /-- The scheduling policy looks a key up and locks nothing. -/
  | lookup {now : Int} {key : RadixKey} {c : RadixCache} {m : MatchResult} :
    s.cache.matchPrefix now key = some (c, m) → Step s {s with cache := c}
  | addOneReq {now : Int} {r r' : Req} {c c' : RadixCache} {delta : Int} :
    s.allocator.isNotInFreeGroup = true → r.row = none →
      r.initNextRoundInput now s.cache = some (c, r') →
      c.incLockRef r'.lastNode = some (c', delta) →
      Step s {s with cache := c', reqs := r' :: s.reqs}
  | extend {batch : List (Req × Nat)} {rest : List Req} {c : RadixCache}
      {a : KvAllocator} {outs : List (List Slot)} :
    s.allocator.isNotInFreeGroup = true → s.reqs.Perm (batch.map (·.1) ++ rest) →
      (∀ p ∈ batch, p.1.CanExtend p.2) →
      allocForExtend s.cache s.allocator (batch.map fun p => p.1.truncateTo p.2) =
      some (c, a, outs) →
      Step s { s with
        cache := c
        allocator := a
        reqs := List.zipWith Req.extended (batch.map fun p => p.1.truncateTo p.2) outs ++ rest
        kvSource := computed s.kvSource (batch.map (·.1)) outs }
  | decode {batch rest : List Req} {c : RadixCache} {a : KvAllocator} {out : List Slot} :
    s.allocator.isNotInFreeGroup = true → s.reqs.Perm (batch ++ rest) →
      (∀ r ∈ batch, r.row ≠ none) →
      allocForDecode s.cache s.allocator batch = some (c, a, out) →
      Step s { s with
        cache := c
        allocator := a
        reqs := List.zipWith Req.decoded batch (out.map ([·])) ++ rest
        kvSource := computed s.kvSource batch (out.map ([·])) }
  | output {r : Req} {rest : List Req} (ts : List TokenId) (reasoning : Nat) :
      s.reqs.Perm (r :: rest) →
    Step s
    {s with reqs := {r with outputIds := r.outputIds ++ ts, reasoningTokens := reasoning} :: rest}
  | cacheUnfinished {now : Int} {chunked : Bool} {r r' : Req} {rest : List Req}
      {c : RadixCache} {a : KvAllocator} :
    s.allocator.isNotInFreeGroup = true → s.reqs.Perm (r :: rest) →
      cacheUnfinishedReq now chunked s.cache s.allocator r = some (c, a, r') →
      Step s {s with cache := c, allocator := a, reqs := r' :: rest}
  | finish {now : Int} {isInsert : Bool} {r : Req} {rest : List Req} {c : RadixCache}
      {a : KvAllocator} :
    s.reqs.Perm (r :: rest) → r.CanFinish s.args →
      releaseKvCache now s.args isInsert s.cache s.allocator r = some (c, a) →
      Step s {s with cache := c, allocator := a, reqs := rest}
  | evict {numTokens n : Nat} {c : RadixCache} {freed : List (List Slot)} :
    s.allocator.isNotInFreeGroup = true → s.cache.evict numTokens = some (c, n, freed) →
      Step s {s with cache := c, allocator := freed.foldl .free s.allocator}
  | freeGroupBegin : s.allocator.isNotInFreeGroup = true →
      Step s {s with allocator := s.allocator.freeGroupBegin}
  | freeGroupEnd : s.allocator.isNotInFreeGroup = false →
      Step s {s with allocator := s.allocator.freeGroupEnd}

abbrev Run (start : Server) : List Server → Prop := Runs.Run Step start

end Server

end Sglang.Managers
