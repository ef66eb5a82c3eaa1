import Sglang.Managers.ReqMemory

/-! The memory of the next decode step.

Before a decode step the scheduler estimates what the batch will allocate (`check_decode_mem`),
evicts for it and, where that is not enough, takes requests out of the batch (`retract_decode`). The
estimate is written apart from the allocations it is for: one token per request, the draft and the
verify slots of EAGLE, or the slots that overlapped speculation keeps ahead.

The requests of the batch keep their places while some of them are retracted: a request is named by
its index, and a released one is reset in place. -/
namespace Sglang.Managers
open MemCache Prefix Pages

/-- The speculative settings; `speculative_eagle_topk` is at least one. -/
structure SpecArgs where
  numSteps : Nat
  topk : Nat
  numDraftTokens : Nat
  topk_pos : 0 < topk

/-- How the batch decodes. -/
inductive DecodeMode
  | plain
  | eagle (spec : SpecArgs)
  | overlap (spec : SpecArgs)

def DecodeMode.speculative : DecodeMode → Bool
  | plain => false
  | eagle _ => true
  | overlap _ => true

/-- `n or 1`. -/
def orOne (n : Nat) : Nat := if n = 0 then 1 else n

/-- `none` is the `NotImplementedError`. -/
def getAllocLenPerDecode (spec : SpecArgs) (pageSize : Nat) : Option Nat :=
  if pageSize = 1 ∨ orOne spec.topk = 1 then
    some (max (orOne spec.numSteps * orOne spec.topk) spec.numDraftTokens) else none

structure ScheduleBatch where
  mode : DecodeMode
  stripThinkingCache : Bool
  /-- `SGLANG_RETRACT_DECODE_STEPS`. -/
  retractDecodeSteps : Nat
  cache : RadixCache
  allocator : KvAllocator
  reqs : List Req

namespace ScheduleBatch

section
variable (b : ScheduleBatch)

def args : ServerArgs := ⟨b.stripThinkingCache, b.mode.speculative⟩

def pageSize (b : ScheduleBatch) : Nat := b.allocator.pageSize

/-! ### The estimate -/

/-- The estimate for EAGLE without overlap, per request: a branch of the draft may start in a page
that is copied. -/
def specTokensPerReq (spec : SpecArgs) (pageSize : Nat) : Nat :=
  let lenPerTopk := orOne spec.numSteps
  let specTopk := orOne spec.topk
  let (lenPerTopk, specTokens) :=
    if pageSize > 1 ∧ specTopk > 1 then
      (ceil pageSize (lenPerTopk + pageSize), ceil pageSize spec.numDraftTokens)
    else if pageSize > 1 then (ceil pageSize lenPerTopk, ceil pageSize spec.numDraftTokens)
    else (lenPerTopk, spec.numDraftTokens)
  max (lenPerTopk * specTopk) specTokens

def newTokensRequiredNextDecode (requests : List Req) : Option Nat :=
  match b.mode with
  | .plain => some (requests.countP (fun r => r.kvCommittedLen % b.pageSize == 0) * b.pageSize)
  | .overlap spec => (getAllocLenPerDecode spec b.pageSize).map fun allocLen =>
      (requests.map fun r =>
        let x := r.kvCommittedLen + 2 * allocLen - r.kvAllocatedLen
        ceil b.pageSize (r.kvAllocatedLen + x) - ceil b.pageSize r.kvAllocatedLen).sum
  | .eagle spec => some (specTokensPerReq spec b.pageSize * requests.length)

/-- The batch after `evict_from_tree_cache`. -/
def evictFor (numTokens : Nat) : Option ScheduleBatch :=
  (evictFromTreeCache b.cache b.allocator numTokens).map fun (c, a) =>
    { b with cache := c, allocator := a }

def select (indices : List Nat) : List Req := indices.filterMap (b.reqs[·]?)

def checkDecodeMem (selectedIndices : Option (List Nat)) : Option (ScheduleBatch × Bool) := do
  let numTokens ← b.newTokensRequiredNextDecode (selectedIndices.elim b.reqs b.select)
  let b ← b.evictFor numTokens
  some (b, decide (b.allocator.availableSize ≥ numTokens))

end

/-! ### Retraction -/

end ScheduleBatch

/-- The fields of a request that `reset_for_retract` and the return of its row change. -/
def Req.resetForRetract (r : Req) : Req :=
  { r with row := none, prefixIndices := [], lastNode := 0, kvAllocatedLen := 0, kvCommittedLen := 0 }

namespace ScheduleBatch

section
variable (b : ScheduleBatch)

def releaseReq (now : Int) (idx remainingReqCount : Nat) : Option ScheduleBatch := do
  let req ← b.reqs[idx]?
  let (c, a) ← releaseKvCache now b.args false b.cache b.allocator req
  let b ← { b with cache := c, allocator := a }.evictFor (remainingReqCount * b.retractDecodeSteps)
  some { b with reqs := b.reqs.set idx req.resetForRetract }

/-- The key of the retraction order, longest output first. -/
def retractKey (i : Nat) : Nat × Int :=
  let req := b.reqs[i]?.getD { originInputIds := [] }
  (req.outputIds.length, -req.originInputIds.length)

def sortedIndices : List Nat :=
  if b.mode.speculative then List.range b.reqs.length
  else (List.range b.reqs.length).mergeSort fun i j =>
    decide ((b.retractKey j).1 < (b.retractKey i).1 ∨
      (b.retractKey j).1 = (b.retractKey i).1 ∧ (b.retractKey j).2 ≤ (b.retractKey i).2)

/-- Whether the loop of `retract_decode` can stop; its first round is taken without asking. -/
def canStop (firstIter : Bool) (indices : List Nat) : Option (ScheduleBatch × Bool) :=
  if firstIter then some (b, false) else b.checkDecodeMem (some indices)

/-- The loop of `retract_decode`; the indices are taken from the end of `sorted_indices`, here from
the head. -/
def retractLoop (now : Int) :
    Bool → List Nat → ScheduleBatch → List Nat → Option (ScheduleBatch × List Nat × List Nat)
  | _, [], _, _ => none
  | firstIter, idx :: rest, b, retracted => do
    let (b, enough) ← b.canStop firstIter (idx :: rest).reverse
    if enough then some (b, idx :: rest, retracted)
    else if rest = [] then some (b, [idx], retracted)
    else
      let b ← b.releaseReq now idx rest.length
      retractLoop now false rest b (retracted ++ [idx])

/-- What `retract_decode` leaves of the batch, by index. -/
structure Retraction where
  keep : List Nat
  retracted : List Nat
  aborted : List Nat

/-- `filter_batch` with the indices to keep. -/
def filterBatch (keepIndices : List Nat) : ScheduleBatch :=
  if keepIndices.length = b.reqs.length then b else { b with reqs := b.select keepIndices }

def retractDecode (now : Int) : Option (ScheduleBatch × Retraction) := do
  let (b, left, retracted) ← retractLoop now true b.sortedIndices.reverse b []
  let sortedIndices := left.reverse
  if sortedIndices.length ≤ 1 then
    let (b, enough) ← b.checkDecodeMem (some sortedIndices)
    if enough then some (b.filterBatch sortedIndices, ⟨sortedIndices, retracted, []⟩)
    else
      let lastIdx ← sortedIndices.getLast?
      let b ← b.releaseReq now lastIdx 0
      some (b.filterBatch sortedIndices.dropLast, ⟨sortedIndices.dropLast, retracted, [lastIdx]⟩)
  else some (b.filterBatch sortedIndices, ⟨sortedIndices, retracted, []⟩)

/-! ### The allocations -/

/-- `alloc_token_slots`: the slots, with the allocator before and after they are taken. -/
def allocTokenSlots (numTokens : Nat) : Option (ScheduleBatch × KvAllocator × List Slot) := do
  let b ← b.evictFor numTokens
  let (a, out) ← b.allocator.alloc numTokens
  some (b, a, out)

def allocPagedTokenSlotsExtend (args : List ExtendArgs) (extendNumTokens : Nat) :
    Option (ScheduleBatch × KvAllocator × List (List Slot)) := do
  let b ← b.evictFor (extendNumTokens + args.length * b.pageSize)
  let (a, outs) ← b.allocator.allocExtend args extendNumTokens
  some (b, a, outs)

/-- The end of the committed slots of a request, and where it wants to get. -/
def extendTo (seqLen : Req → Nat) (r : Req) : ExtendArgs :=
  ⟨r.kvCommittedLen, seqLen r, lastLoc (r.slots.take r.kvCommittedLen)⟩

section
variable (spec : SpecArgs)

/-- The end of the draft pages of a request whose last page is copied for every branch. -/
def draftSeqLen (pageSize : Nat) (r : Req) : Nat :=
  let numNewPagesPerTopk := (r.kvCommittedLen % pageSize + spec.numSteps + pageSize - 1) / pageSize
  r.kvCommittedLen / pageSize * pageSize + numNewPagesPerTopk * (pageSize * spec.topk)

/-- `_draft_preprocess_decode`: the draft slots, which are given back at once. -/
def draftPreprocessDecode : Option ScheduleBatch :=
  if b.pageSize = 1 then do
    let (b, a, _) ← b.allocTokenSlots (b.reqs.length * (spec.numSteps * spec.topk))
    some { b with allocator := a.restoreState b.allocator }
  else if spec.topk = 1 then do
    let args := b.reqs.map (extendTo fun r => r.kvCommittedLen + spec.numSteps)
    let (b, a, _) ← b.allocPagedTokenSlotsExtend args (b.reqs.length * spec.numSteps)
    some { b with allocator := a.restoreState b.allocator }
  else do
    let args := b.reqs.map (extendTo (draftSeqLen spec b.pageSize))
    let (b, a, _) ← b.allocPagedTokenSlotsExtend args (args.map fun r => r.seqLen - r.preLen).sum
    some { b with allocator := a.restoreState b.allocator }

/-- Write the slots that a request got behind the slots before them. -/
def writeRow (start : Nat) (r : Req) (out : List Slot) : Req :=
  { r with row := r.row.map fun row => row.take start ++ out }

/-- `prepare_for_verify`. -/
def prepareForVerify : Option ScheduleBatch :=
  if b.pageSize = 1 then do
    let (b, a, out) ← b.allocTokenSlots (b.reqs.length * spec.numDraftTokens)
    let outs := KvAllocator.splitLens (b.reqs.map fun _ => spec.numDraftTokens) out
    some { b with allocator := a, reqs := List.zipWith (fun r => writeRow r.kvCommittedLen r) b.reqs outs }
  else do
    let args := b.reqs.map (extendTo fun r => r.kvCommittedLen + spec.numDraftTokens)
    let (b, a, outs) ← b.allocPagedTokenSlotsExtend args (b.reqs.length * spec.numDraftTokens)
    some { b with allocator := a, reqs := List.zipWith (fun r => writeRow r.kvCommittedLen r) b.reqs outs }

/-- The lengths after the over-allocation of `prepare_for_decode`. -/
def overallocated (allocLen : Nat) (r : Req) (out : List Slot) : Req :=
  { writeRow r.kvAllocatedLen r out with
    kvAllocatedLen := r.kvCommittedLen + 2 * allocLen, kvCommittedLen := r.kvCommittedLen + 1 }

/-- `EagleDraftInputV2Mixin.prepare_for_decode`. A request that has more than the slots to be kept
ahead would be cut; the model stops there. -/
def prepareForDecodeV2 : Option ScheduleBatch := do
  let allocLen ← getAllocLenPerDecode spec b.pageSize
  guard (∀ r ∈ b.reqs, r.kvAllocatedLen ≤ r.kvCommittedLen + 2 * allocLen)
  let xs := b.reqs.map fun r => r.kvCommittedLen + 2 * allocLen - r.kvAllocatedLen
  if b.pageSize = 1 then
    let (b, a, out) ← b.allocTokenSlots xs.sum
    some { b with allocator := a, reqs := List.zipWith (overallocated allocLen) b.reqs (KvAllocator.splitLens xs out) }
  else
    let args :=
      b.reqs.map fun r => ⟨r.kvAllocatedLen, r.kvCommittedLen + 2 * allocLen,
      lastLoc (r.slots.take r.kvAllocatedLen)⟩
    let (b, a, outs) ← b.allocPagedTokenSlotsExtend args xs.sum
    some { b with allocator := a, reqs := List.zipWith (overallocated allocLen) b.reqs outs }

end

/-- The allocations of the next decode step. -/
def nextDecode : Option ScheduleBatch :=
  match b.mode with
  | .plain => (allocForDecode b.cache b.allocator b.reqs).map fun (c, a, out) =>
      { b with cache := c, allocator := a, reqs := List.zipWith Req.decoded b.reqs (out.map ([·])) }
  | .eagle spec => (b.draftPreprocessDecode spec).bind (·.prepareForVerify spec)
  | .overlap spec => b.prepareForDecodeV2 spec

end

end ScheduleBatch

end Sglang.Managers
