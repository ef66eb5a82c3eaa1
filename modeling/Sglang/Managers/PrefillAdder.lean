import Sglang.Dllm.PrefillAdder

/-! Admission of prefills.

In one scheduling pass `PrefillAdder` looks at the waiting requests one after the other. Each
request first looks its prefix up; `add_one_req` then admits it whole, admits a chunk of it, or
turns it away, by what is left of the token budgets and of the slots that are free or evictable. The
prefix of an admitted request is locked, which makes less evictable; a refused one's is locked only
while it is looked at. Offsets are rational numbers, since what running requests may still produce
is weighed by a ratio. -/
namespace Sglang.Managers
open MemCache
open Dllm (AddReqResult)

/-- A waiting or a running request, as admission sees it. -/
structure PrefillReq extends Req where
  maxNewTokens : Nat := 128
  ignoreEos : Bool := false
  extendInputLen : Nat := 0
deriving DecidableEq

namespace PrefillReq

def initNextRoundInput (r : PrefillReq) (now : Int) (c : RadixCache) :
    Option (RadixCache × PrefillReq) :=
  (r.toReq.initNextRoundInput now c).map fun (c, q) =>
    (c, {r with toReq := q, extendInputLen := q.fillIds.length - q.prefixIndices.length})

/-- Only the next `truncLen` tokens of the input are left for this round. -/
def truncate (r : PrefillReq) (truncLen : Nat) : PrefillReq :=
  {r with fillIds := r.fillIds.take (r.prefixIndices.length + truncLen), extendInputLen := truncLen}

end PrefillReq

/-- `IGNORE_EOS_RESERVE_TOKENS`. -/
def ignoreEosReserveTokens : Nat := 1

structure PrefillAdder where
  pageSize : Nat
  clipMaxNewTokens : Nat := 4096
  runningBatch : List PrefillReq
  newTokenRatio : ℚ≥0
  remInputTokens : Int
  remChunkTokens : Option Int
  remTotalTokenOffset : ℚ
  curRemTokenOffset : ℚ
  /-- Of each request the tokens it has left to produce and the tokens it occupies. -/
  reqStates : Option (List (ℚ × Nat)) := none
  canRunList : List PrefillReq := []
  newChunkedReq : Option PrefillReq := none
  logHitTokens : Nat := 0
  logInputTokens : Int := 0
  contextParallel : Bool := false
  prefillMaxRequests : Option Nat := none

/-- What a pass is set up with. -/
structure AdderParams where
  clipMaxNewTokens : Nat := 4096
  runningBatch : List PrefillReq := []
  newTokenRatio : ℚ≥0 := 0
  remInputTokens : Int
  remChunkTokens : Option Int := none
  numMixedDecodeTokens : Nat := 0
  contextParallel : Bool := false
  prefillMaxRequests : Option Nat := none

namespace AdderParams

def runningRequestTotalTokenOffset (p : AdderParams) (r : PrefillReq) : ℚ :=
  min ((r.maxNewTokens : Int) - r.outputIds.length) p.clipMaxNewTokens * p.newTokenRatio

/-- `PrefillAdder.__init__`. -/
def adder (p : AdderParams) (pageSize : Nat) : PrefillAdder where
  pageSize := pageSize
  clipMaxNewTokens := p.clipMaxNewTokens
  runningBatch := p.runningBatch
  newTokenRatio := p.newTokenRatio
  remInputTokens := p.remInputTokens - p.numMixedDecodeTokens
  remChunkTokens := p.remChunkTokens.map (· - p.numMixedDecodeTokens)
  remTotalTokenOffset :=
    p.numMixedDecodeTokens + (p.runningBatch.map p.runningRequestTotalTokenOffset).sum
  curRemTokenOffset := p.numMixedDecodeTokens
  contextParallel := p.contextParallel
  prefillMaxRequests := p.prefillMaxRequests

end AdderParams

/-- The slots that are free or can be made free. -/
def availableAndEvictable (c : RadixCache) (a : KvAllocator) : Int :=
  a.availableSize + c.evictableSize

namespace PrefillAdder

section
variable (self : PrefillAdder)

section
variable (c : RadixCache)

section
variable (a : KvAllocator)

def remTotalTokens : ℚ :=
  availableAndEvictable c a - self.remTotalTokenOffset

def curRemTokens : ℚ :=
  availableAndEvictable c a - self.curRemTokenOffset

def ceilPagedTokens (tokens : Int) : Int := -(-tokens / self.pageSize) * self.pageSize

def budgetState : AddReqResult :=
  if self.remTotalTokens c a ≤ 0 ∨ self.curRemTokens c a ≤ 0 then .noToken
  else if self.remInputTokens ≤ 0 then .other
  else if self.remChunkTokens.any (· ≤ 0) then .other
  else .continue

def updatePrefillBudget (prefixLen : Nat) (extendInputLen : Int) (maxNewTokens : Nat) :
    PrefillAdder :=
  let extendInputLen := self.ceilPagedTokens extendInputLen
  let pageOverhead := self.pageSize
  { self with
    remTotalTokenOffset := self.remTotalTokenOffset + (extendInputLen + maxNewTokens + pageOverhead)
    curRemTokenOffset := self.curRemTokenOffset + (extendInputLen + pageOverhead)
    remInputTokens := self.remInputTokens - extendInputLen
    remChunkTokens := self.remChunkTokens.map (· - extendInputLen)
    logHitTokens := self.logHitTokens + prefixLen
    logInputTokens := self.logInputTokens + extendInputLen }

/-! ### Requests that ignore the end of the text -/

/-- The tokens a request has left to produce and those it occupies; none if nothing is left. -/
def reqState (r : PrefillReq) : Option (ℚ × Nat) :=
  let newTokenRatio : ℚ := if r.ignoreEos then 1 else self.newTokenRatio
  let tokensLeft := r.maxNewTokens * newTokenRatio - r.outputIds.length
  if tokensLeft ≤ 0 then none else some (tokensLeft, r.originInputIds.length + r.outputIds.length)

/-- `add_req_state` with `insert_sort`. When no entry is as large, the loop variable stays at the
last one, and the new entry goes in front of it. -/
def insertState (states : List (ℚ × Nat)) (s : ℚ × Nat) : List (ℚ × Nat) :=
  let i := (states.findIdx? (s.1 ≤ ·.1)).getD (states.length - 1)
  states.insertIdx i s

section
variable (req : PrefillReq)

def addReqState : List (ℚ × Nat) :=
  match self.reqStates with
  | none =>
    ((req :: self.runningBatch ++ self.canRunList).filterMap self.reqState).mergeSort (·.1 ≤ ·.1)
  | some states => (self.reqState req).elim states (insertState states)

/-- Whether some request would find no room when those before it are done. -/
def runsOut (curRemTokens : ℚ) : List (ℚ × Nat) → Nat → Bool
  | [], _ => false
  | (tokensLeft, tokensOccupied) :: rest, tokensFreed =>
    let bs := rest.length + 1
    let minFreeTokens := curRemTokens + tokensFreed - tokensLeft * bs
    minFreeTokens ≤ ignoreEosReserveTokens * bs || runsOut curRemTokens rest
      (tokensFreed + tokensOccupied)

def addOneReqIgnoreEos : PrefillAdder × AddReqResult :=
  let pagedInput := self.ceilPagedTokens req.extendInputLen
  if pagedInput > min (self.curRemTokens c a) (self.remTotalTokens c a) then (self, .noToken)
  else
    let states := self.addReqState req
    let self := {self with reqStates := some states}
    if runsOut (self.curRemTokens c a - pagedInput) states 0 then (self, .noToken)
    else
      match self.remChunkTokens.filter (· < (req.extendInputLen : Int)) with
      | none =>
        let self := {self with canRunList := self.canRunList ++ [req]}
        let self :=
          self.updatePrefillBudget 0 req.extendInputLen (min req.maxNewTokens self.clipMaxNewTokens)
        (self, self.budgetState c a)
      | some truncLen =>
        if truncLen ≤ 0 then (self, .other)
        else
          -- the input is cut from its start, as there is no prefix
          let req :=
            {req with fillIds := req.fillIds.take truncLen.toNat, extendInputLen := truncLen.toNat}
          let self := {self with canRunList := self.canRunList ++ [req], newChunkedReq := some req}
          let self := self.updatePrefillBudget 0 truncLen 0
          (self, self.budgetState c a)

/-! ### Other requests -/

/-- The length of a chunk: whole pages, and whole units of the alignment if there is one. -/
def chunkLen (remChunkTokens : Int) (truncationAlignSize : Option ℕ+) : Option Int :=
  let truncLen := remChunkTokens / self.pageSize * self.pageSize
  if truncLen ≤ 0 then none
  else
    match truncationAlignSize with
    | none => some truncLen
    | some align => if truncLen < align then none else some (align * (truncLen / align))

/-- What happens while the prefix is locked; the result, if the request is turned away. -/
def addLocked (totalTokens : Nat) (truncationAlignSize : Option ℕ+) :
    Option (RadixCache × PrefillAdder × Option AddReqResult) := do
  let inputTokens := self.ceilPagedTokens req.extendInputLen
  if totalTokens ≥ self.remTotalTokens c a then some (c, self, some .noToken)
  else if inputTokens ≥ self.remInputTokens ∧ self.canRunList ≠ [] then some (c, self, some .other)
  else
    match self.remChunkTokens.filter (· < inputTokens) with
    | none =>
      let self := {self with canRunList := self.canRunList ++ [req]}
      let (c, _) ← c.incLockRef req.lastNode
      some (c, self.updatePrefillBudget req.prefixIndices.length inputTokens
        (min req.maxNewTokens self.clipMaxNewTokens), none)
    | some remChunkTokens =>
      match self.chunkLen remChunkTokens truncationAlignSize with
      | none => some (c, self, some .other)
      | some truncLen =>
        let req := req.truncate truncLen.toNat
        let self := {self with canRunList := self.canRunList ++ [req], newChunkedReq := some req}
        let (c, _) ← c.incLockRef req.lastNode
        some (c, self.updatePrefillBudget req.prefixIndices.length truncLen 0, none)

/-- `add_one_req`; `allowPrefill` is what the prefill delayer answers, if there is one. -/
def addOneReq (allowPrefill : Bool) (truncationAlignSize : Option ℕ+) :
    Option (RadixCache × PrefillAdder × AddReqResult) := do
  if !allowPrefill then some (c, self, .other)
  else if self.contextParallel && self.canRunList.length ≥ 1 then some (c, self, .other)
  else if self.prefillMaxRequests.any (self.canRunList.length ≥ ·) then some (c, self, .other)
  else if req.ignoreEos && c.disable then some (c, self.addOneReqIgnoreEos c a req)
  else
    let maxNew := min (req.maxNewTokens - req.outputIds.length) self.clipMaxNewTokens
    let totalTokens := req.extendInputLen + maxNew + self.pageSize
    if totalTokens ≥ self.remTotalTokens c a then some (c, self, .noToken)
    else if self.ceilPagedTokens req.extendInputLen ≥ self.remInputTokens ∧
      self.canRunList ≠ [] then
      some (c, self, .other)
    else
      let (c, _) ← c.incLockRef req.lastNode
      let (c, self, refused) ← self.addLocked c a req totalTokens truncationAlignSize
      let (c, _) ← c.decLockRef req.lastNode
      some (c, self, refused.getD (self.budgetState c a))

end

end

end

/-! ### A scheduling pass -/

/-- A waiting request whose turn has come. -/
structure Offer where
  now : Int
  req : PrefillReq
  allowPrefill : Bool := true
  truncationAlignSize : Option ℕ+ := none

/-- A request looks its prefix up and is offered to the adder. -/
def offer (a : KvAllocator) (s : RadixCache × PrefillAdder) (o : Offer) :
    Option (RadixCache × PrefillAdder) := do
  let (c, req) ← o.req.initNextRoundInput o.now s.1
  let (c, self, _) ← s.2.addOneReq c a req o.allowPrefill o.truncationAlignSize
  some (c, self)

def pass (a : KvAllocator) (s : RadixCache × PrefillAdder) (offers : List Offer) :
    Option (RadixCache × PrefillAdder) :=
  offers.foldlM (offer a) s

/-- The page-rounded extend lengths of the admitted requests. -/
def pagedExtendLens : Int :=
  (self.canRunList.map fun r => self.ceilPagedTokens r.extendInputLen).sum

end

end PrefillAdder

end Sglang.Managers
