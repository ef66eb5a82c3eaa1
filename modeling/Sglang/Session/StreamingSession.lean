import Sglang.Lib.OrderedDict

/-! Streaming sessions: requests that append to each other and keep their memory in between.

The session has a flag for its active request. It is set by `createReq` and cleared by the cache
when a request of the session is saved or dropped; the scheduler only moves requests between its
queues. Requests and sessions are objects, here numbers: a request keeps its session when the
session is closed and another one is opened under the same id. -/
namespace Sglang.Sessions

/-! ### Requests, sessions and slots -/

/-- `FINISH_ABORT`, or a stop that the request reached by itself. -/
inductive FinishReason
  | abort (message : String)
  | stopped
  deriving DecidableEq, Repr

/-- Where the scheduler has a request. -/
inductive Stage
  | grammarQueue
  | waitingQueue
  | running
  | gone
  deriving DecidableEq, Repr

structure Req where
  rid : String
  session : Option Nat := none
  originInputIds : List Nat
  outputIds : List Nat := []
  maxNewTokens : Nat
  toFinish : Option String := none
  finishedReason : Option FinishReason := none
  finishedLen : Option Nat := none
  reqPoolIdx : Option Nat := none
  kvCommittedLen : Nat := 0
  kvAllocatedLen : Nat := 0
  cacheProtectedLen : Nat := 0
  stage : Stage := .waitingQueue
  /-- Whether `createReq` refused the request. -/
  rejected : Bool := false

section
variable (req : Req)

def Req.finished : Bool := req.finishedReason.isSome

def Req.setFinishWithAbort (errorMsg : String) : Req :=
  { req with originInputIds := [0], toFinish := some errorMsg }

/-- With the error of a check the request runs for one step; without it may wait for its grammar. -/
def Req.queued (invalid : Option String) (grammar : Bool) : Req :=
  match invalid with
  | some errorMsg => req.setFinishWithAbort errorMsg
  | none => { req with stage := if grammar then .grammarQueue else .waitingQueue }

/-- A request is active on its session if it was not refused and has neither finished nor been
aborted. -/
def Req.activeOn : Option Nat :=
  if req.rejected ∨ req.finished ∨ req.stage = .gone then none else req.session

def Req.row : Option Nat := if req.stage = .gone then none else req.reqPoolIdx

def Req.detach : Req := { req with session := none }

structure Session where
  sessionId : String
  reqNodes : Option Nat := none
  closeOnFinish : Bool := false
  inflight : Bool := false

structure SessionSlot where
  reqPoolIdx : Option Nat := none
  kvCommittedLen : Nat := 0
  kvAllocatedLen : Nat := 0
  cacheProtectedLen : Nat := 0

section
variable (slot : SessionSlot)

/-- `_free_tail`: what lies behind the prefix is freed from the row. -/
def SessionSlot.freeTail (prefixLen : Nat) : SessionSlot :=
  { slot with kvAllocatedLen := prefixLen, kvCommittedLen := min slot.kvCommittedLen prefixLen }

def SessionSlot.restoreToReq (req : Req) : Req :=
  { req with
    reqPoolIdx := slot.reqPoolIdx
    kvCommittedLen := slot.kvCommittedLen
    kvAllocatedLen := slot.kvAllocatedLen
    cacheProtectedLen := slot.cacheProtectedLen }

/-- A slot for the memory of a first request. -/
def SessionSlot.ephemeral : SessionSlot :=
  { reqPoolIdx := req.reqPoolIdx, kvAllocatedLen := req.kvAllocatedLen, cacheProtectedLen := req.cacheProtectedLen }

/-- With all that the request has allocated. -/
def SessionSlot.cover (req : Req) : SessionSlot :=
  { slot with kvAllocatedLen := max slot.kvAllocatedLen req.kvAllocatedLen }

def SessionSlot.saveFromReq (req : Req) (isFirst : Bool) : SessionSlot where
  reqPoolIdx := req.reqPoolIdx
  kvCommittedLen := req.kvCommittedLen
  kvAllocatedLen := req.kvAllocatedLen
  cacheProtectedLen := if isFirst then req.cacheProtectedLen else slot.cacheProtectedLen

end

/-- Without the tokens behind `finished_len`. -/
def Req.trimOvershoot : Req :=
  let finishedLen := req.finishedLen.getD req.outputIds.length
  let target := req.originInputIds.length + finishedLen
  { req with
    outputIds := req.outputIds.take finishedLen
    kvCommittedLen := min req.kvCommittedLen target
    kvAllocatedLen := min req.kvAllocatedLen target }

def Req.dropRow : Req := { req with reqPoolIdx := none }

end

/-- What a client sends. -/
structure GenerateInput where
  rid : String
  inputIds : List Nat
  maxNewTokens : Nat
  replace : Bool := false
  dropPreviousOutput : Bool := false
  offset : Nat := 0

/-- A part of a row of `req_to_token`, whose memory `release_session` gives back. -/
structure Released where
  row : Nat
  start : Nat
  stop : Nat
  deriving DecidableEq, Repr

structure Scheduler where
  sessions : OrderedDict String Nat := {}
  objects : Nat → Session := fun _ => ⟨"", none, false, false⟩
  nextSession : Nat := 0
  reqs : Nat → Option Req := fun _ => none
  nextReq : Nat := 0
  slots : String → Option SessionSlot := fun _ => none
  freeSlots : List Nat
  bosTokenId : Option Nat := none

namespace Scheduler

section
variable (s : Scheduler)

def setReq (r : Nat) (req : Req) : Scheduler :=
  { s with reqs := fun i => if i = r then some req else s.reqs i }

def setSession (o : Nat) (session : Session) : Scheduler :=
  { s with objects := fun i => if i = o then session else s.objects i }

section
variable (sessionId : String)

def setSlot (slot : Option SessionSlot) : Scheduler :=
  { s with slots := fun i => if i = sessionId then slot else s.slots i }

/-! ### The session -/

def openSession : Scheduler :=
  if (s.sessions.get? sessionId).isSome then s
  else { s.setSession s.nextSession { sessionId := sessionId } with
    sessions := s.sessions.set sessionId s.nextSession, nextSession := s.nextSession + 1 }

/-- Why a request is refused. -/
def rejection (session : Session) (input : GenerateInput) : Option String :=
  if session.inflight then some "Streaming session already has an active request."
  else if input.replace then some "Streaming sessions do not support replace."
  else if input.dropPreviousOutput then
    some "Streaming sessions do not support drop_previous_output."
  else if input.offset ≠ 0 then some "Streaming sessions do not support offset."
  else none

/-- The input of an appended request, without its `bos` token. -/
def appendIds (last : Req) (inputIds : List Nat) : List Nat :=
  last.originInputIds ++ last.outputIds.take last.maxNewTokens ++
    if inputIds.head? = s.bosTokenId ∧ s.bosTokenId.isSome then inputIds.tail else inputIds

def createReq (o : Nat) (input : GenerateInput) : Scheduler × Req :=
  let session := s.objects o
  match rejection session input with
  | some message =>
    let req : Req :=
      { rid := input.rid, session := some o, originInputIds := input.inputIds, maxNewTokens := input.maxNewTokens, rejected := true }
    (s, req.setFinishWithAbort message)
  | none =>
    let inputIds := match session.reqNodes.bind s.reqs with
      | some last => s.appendIds last input.inputIds
      | none => input.inputIds
    (s.setSession o { session with inflight := true },
      { rid := input.rid, session := some o, originInputIds := inputIds, maxNewTokens := input.maxNewTokens })

def finishReq (o r : Nat) : Scheduler :=
  let session := s.objects o
  let s := match session.reqNodes with
    | some prev =>
      { s with reqs := fun i => if i = prev then (s.reqs i).map Req.detach else s.reqs i }
    | none => s
  s.setSession o { session with inflight := false, reqNodes := some r }

def abortReq (o : Nat) : Scheduler := s.setSession o { s.objects o with inflight := false }

/-! ### The cache -/

def releaseSession : Scheduler × List Released :=
  match s.slots sessionId with
  | none => (s, [])
  | some slot =>
    let s := s.setSlot sessionId none
    match slot.reqPoolIdx with
    | some row =>
      ({ s with freeSlots := s.freeSlots ++ [row] },
        [⟨row, slot.cacheProtectedLen, slot.kvAllocatedLen⟩])
    | none => (s, [])

/-- The slot of the request's session, with its key. A request that is to be aborted is detached
from its session. -/
def findActiveSlot (r : Nat) (req : Req) : Scheduler × Option (String × SessionSlot) :=
  match req.session with
  | none => (s, none)
  | some o =>
    let sessionId := (s.objects o).sessionId
    match s.slots sessionId with
    | none => (s, none)
    | some slot =>
      if slot.reqPoolIdx.isNone then (s, none)
      else if req.toFinish.isSome then ((s.abortReq o).setReq r req.detach, none)
      else (s, some (sessionId, slot))

/-- `init_next_round_input`. Without an active slot the radix tree is asked, which finds `hit`
tokens; `none` is the failed assertion that the prefix has not shrunk. -/
def initNextRoundInput (r hit : Nat) : Option Scheduler :=
  (s.reqs r).bind fun req =>
    match s.findActiveSlot r req with
    | (s, none) => (s.reqs r).map fun req => s.setReq r { req with cacheProtectedLen := hit }
    | (s, some (sessionId, slot)) =>
      let prefixLen :=
        min slot.kvCommittedLen (req.originInputIds.length + req.outputIds.length - 1)
      if prefixLen < slot.cacheProtectedLen then none
      else
        let slot := slot.freeTail prefixLen
        some ((s.setReq r (slot.restoreToReq req)).setSlot sessionId (some slot))

/-- An aborted request takes the memory of its session with it. -/
def dropSlot (r o : Nat) (req : Req) : Scheduler × List Released :=
  let sessionId := (s.objects o).sessionId
  let slot := ((s.slots sessionId).getD (.ephemeral req)).cover req
  let (s, released) := (s.setSlot sessionId (some slot)).releaseSession sessionId
  ((s.setReq r req.dropRow).abortReq o, released)

/-- A finished request leaves its row to the slot. -/
def saveSlot (r o : Nat) (req : Req) : Scheduler :=
  let sessionId := (s.objects o).sessionId
  let req := req.trimOvershoot
  let slot := ((s.slots sessionId).getD {}).saveFromReq req (s.slots sessionId).isNone
  ((s.setReq r req.dropRow).setSlot sessionId (some slot)).finishReq o r

/-- `try_cache_finished_req` for a request of a session. -/
def tryCacheFinishedReq (r o : Nat) (req : Req) : Scheduler × List Released :=
  match req.finishedReason with
  | some (.abort _) => s.dropSlot r o req
  | _ => (s.saveSlot r o req, [])

/-- `release_kv_cache`: a request without a session gives its row back. -/
def releaseKvCache (r : Nat) (req : Req) : Scheduler × List Released :=
  match req.session with
  | some o => s.tryCacheFinishedReq r o req
  | none => ({ s.setReq r req.dropRow with freeSlots := s.freeSlots ++ req.reqPoolIdx.toList }, [])

/-! ### The scheduler -/

def addReq (req : Req) : Scheduler := { s.setReq s.nextReq req with nextReq := s.nextReq + 1 }

/-- `handle_generate_request`; `invalid` is the error of a later check of the request. -/
def handleGenerateRequest (sessionId : Option String) (input : GenerateInput)
    (invalid : Option String) (grammar : Bool) : Scheduler :=
  let plain : Req :=
    { rid := input.rid, originInputIds := input.inputIds, maxNewTokens := input.maxNewTokens }
  let (s, req) := match sessionId with
    | none => (s, plain)
    | some sessionId =>
      match s.sessions.get? sessionId with
      | none =>
        (s, plain.setFinishWithAbort s!"Invalid request: session id {sessionId} does not exist")
      | some o =>
        if (s.objects o).closeOnFinish then
          (s,
            plain.setFinishWithAbort s!"Invalid request: close was requested for session {sessionId}")
        else s.createReq o input
  s.addReq (req.queued invalid grammar)

/-- A row for a request that has none; the length is that of the prefix and the extension. A row is
reused only with something in it. -/
def prepareForExtend (r seqLen : Nat) : Option Scheduler :=
  (s.reqs r).bind fun req =>
    let started :=
      { req with stage := .running, kvCommittedLen := seqLen, kvAllocatedLen := seqLen }
    match req.reqPoolIdx, s.freeSlots with
    | some _, _ => if req.kvCommittedLen = 0 then none else some (s.setReq r started)
    | none, row :: freeSlots =>
      some { s.setReq r { started with reqPoolIdx := some row } with freeSlots := freeSlots }
    | none, [] => none

/-- One request of `get_new_batch_prefill`: it is matched, and then runs or not. -/
def schedule (r hit : Nat) (admitted : Option Nat) : Option Scheduler :=
  if (s.reqs r).any (·.stage = .waitingQueue) then
    (s.initNextRoundInput r hit).bind fun s =>
      match admitted with
      | some seqLen => s.prepareForExtend r seqLen
      | none => some s
  else none

/-- New tokens of a running request; `stopped` is what `check_finished` finds, with `finished_len`.
-/
def processBatchResult (r : Nat) (tokens : List Nat) (kvLen : Nat) (stopped : Option (Option Nat)) :
    Option (Scheduler × List Released) :=
  (s.reqs r).bind fun req =>
    if req.stage = .running then
      let req :=
        { req with outputIds := req.outputIds ++ tokens, kvCommittedLen := kvLen, kvAllocatedLen := kvLen }
      some (match req.toFinish, stopped with
        | some message, _ =>
          s.releaseKvCache r
            { req with finishedReason := some (.abort message), toFinish := none, stage := .gone }
        | none, some finishedLen =>
          s.releaseKvCache r
            { req with finishedReason := some .stopped, finishedLen := finishedLen, stage := .gone }
        | none, none => (s.setReq r req, []))
    else none

structure AbortReq where
  abortAll : Bool := false
  rid : String := ""

def AbortReq.selects (a : AbortReq) (req : Req) : Bool :=
  a.abortAll || a.rid.toList.isPrefixOf req.rid.toList

def abortRequest (a : AbortReq) : Scheduler :=
  { s with reqs := fun r => (s.reqs r).map fun req =>
      if a.selects req then
        match req.stage with
        | .waitingQueue => { req with stage := .gone }
        | .grammarQueue => req.setFinishWithAbort "Aborted by AbortReq."
        | .running => if req.finished then req else { req with toFinish := some "Aborted" }
        | .gone => req
      else req }

/-- `release_req`; the last request of a batch that does not fit is aborted instead of queued again.
-/
def retract (r : Nat) (abort : Bool) : Option (Scheduler × List Released) :=
  (s.reqs r).bind fun req =>
    if req.stage = .running then
      let req :=
        if abort then
        { req with toFinish := some "Out of memory even after retracting all other requests in the decode batch. Aborting the last request." } else req
      let (s, released) := s.releaseKvCache r req
      (s.reqs r).map fun req =>
        (s.setReq r { req with
          kvCommittedLen := 0, kvAllocatedLen := 0, stage :=
            if abort then .gone else .waitingQueue }, released)
    else none

/-! ### Closing -/

/-- Whether the last request of the session is unfinished. -/
def hasUnfinishedNode (o : Nat) : Bool :=
  ((s.objects o).reqNodes.bind s.reqs).any fun req => !req.finished

def closeSession : Scheduler × List Released :=
  match s.sessions.get? sessionId with
  | none => (s, [])
  | some o =>
    let session := s.objects o
    if session.inflight || s.hasUnfinishedNode o then
      (s.setSession o { session with closeOnFinish := true }, [])
    else
      let s := match session.reqNodes with
        | some prev =>
          { s with reqs := fun i => if i = prev then (s.reqs i).map Req.detach else s.reqs i }
        | none => s
      let (s, released) := s.releaseSession sessionId
      ({ s with sessions := s.sessions.erase sessionId }, released)

/-- Close one session after the other. -/
def closeAll (close : Scheduler → String → Scheduler × List Released) (s : Scheduler)
    (ids : List String) :
    Scheduler × List Released :=
  ids.foldl (fun (s, released) sessionId =>
    let (s, more) := close s sessionId
    (s, released ++ more)) (s, [])

/-- A deferred close; the mark is taken off first. -/
def closeDeferred : Scheduler × List Released :=
  match s.sessions.get? sessionId with
  | none => (s, [])
  | some o => (s.setSession o { s.objects o with closeOnFinish := false }).closeSession sessionId

end

def maybeReap (timedOut : String → Bool) : Scheduler × List Released :=
  let pending :=
    s.sessions.items.filter fun p => (s.objects p.2).closeOnFinish && !s.hasUnfinishedNode p.2
  let (s, released) := closeAll closeDeferred s (pending.map (·.1))
  let (s, more) := closeAll closeSession s ((s.sessions.items.map (·.1)).filter timedOut)
  (s, released ++ more)

end

end Scheduler

/-! ### Runs -/

inductive Event
  | openSession (sessionId : String)
  | generate (sessionId : Option String) (input : GenerateInput) (invalid : Option String)
      (grammar : Bool)
  | grammarReady (r : Nat)
  /-- `_add_request_to_queue` refuses a request, for its priority or because the queue is full, or a
  request with a higher priority takes its place in the queue. -/
  | drop (r : Nat)
  /-- The lookup for a prefetch, for a request on its way to the queue. -/
  | prefetch (r hit : Nat)
  | schedule (r hit : Nat) (admitted : Option Nat)
  | result (r : Nat) (tokens : List Nat) (kvLen : Nat) (stopped : Option (Option Nat))
  | abort (a : Scheduler.AbortReq)
  | retract (r : Nat) (abort : Bool)
  | close (sessionId : String)
  | reap (timedOut : String → Bool)

namespace Scheduler

/-- One step, with the memory that `release_session` frees; `none` is an event that cannot happen.
-/
def step (s : Scheduler) : Event → Option (Scheduler × List Released)
  | .openSession sessionId => some (s.openSession sessionId, [])
  | .generate sessionId input invalid grammar =>
    some (s.handleGenerateRequest sessionId input invalid grammar, [])
  | .grammarReady r => (s.reqs r).bind fun req =>
      if req.stage = .grammarQueue then some (s.setReq r { req with stage := .waitingQueue }, [])
        else none
  | .drop r => (s.reqs r).bind fun req =>
      if req.stage = .waitingQueue then some (s.setReq r { req with stage := .gone }, []) else none
  | .prefetch r hit =>
    if (s.reqs r).any (·.stage = .waitingQueue) then (s.initNextRoundInput r hit).map (·, [])
      else none
  | .schedule r hit admitted => (s.schedule r hit admitted).map (·, [])
  | .result r tokens kvLen stopped => s.processBatchResult r tokens kvLen stopped
  | .abort a => some (s.abortRequest a, [])
  | .retract r abort => s.retract r abort
  | .close sessionId => some (s.closeSession sessionId)
  | .reap timedOut => some (s.maybeReap timedOut)

/-- The session on which a request is active. -/
def activeOn (s : Scheduler) (r : Nat) : Option Nat := (s.reqs r).bind Req.activeOn

/-- The row of a request that has not left. -/
def rowOf (s : Scheduler) (r : Nat) : Option Nat := (s.reqs r).bind Req.row

def isRunning (s : Scheduler) (r : Nat) : Bool := (s.reqs r).any (·.stage = .running)

end Scheduler

end Sglang.Sessions
