/-! The orchestrator of the disaggregated diffusion pipeline.

A request passes an encoder, a denoiser and a decoder. The server gives an instance work only while
it counts free buffer slots for it; between two stages the sender pushes its output to the receiver.
What the roles answer is owed by them (`Duty`): each answer is sent at most once and arrives at any
time, also after the request has timed out. -/
namespace Sglang.Diffusion

abbrev RequestId := String

inductive RoleType
  | encoder
  | denoiser
  | decoder
  deriving DecidableEq, Repr

/-! ### Requests -/

inductive RequestState
  | pending
  | encoderWaiting
  | encoderRunning
  | encoderDone
  | denoisingWaiting
  | denoisingRunning
  | denoisingDone
  | decoderWaiting
  | decoderRunning
  | done
  | failed
  | timedOut
  deriving DecidableEq, Repr

namespace RequestState

def isTerminal : RequestState → Bool
  | done | failed | timedOut => true
  | _ => false

def validTransitions : RequestState → List RequestState
  | pending => [encoderWaiting, encoderRunning]
  | encoderWaiting => [encoderRunning]
  | encoderRunning => [encoderDone]
  | encoderDone => [denoisingWaiting, denoisingRunning]
  | denoisingWaiting => [denoisingRunning]
  | denoisingRunning => [denoisingDone]
  | denoisingDone => [decoderWaiting, decoderRunning]
  | decoderWaiting => [decoderRunning]
  | decoderRunning => [done]
  | done | failed | timedOut => []

/-- Failure is reached from every active state. -/
def allows (old new : RequestState) : Bool :=
  if new = failed ∨ new = timedOut then !old.isTerminal else new ∈ old.validTransitions

end RequestState

structure RequestRecord where
  state : RequestState := .pending
  instanceOf : RoleType → Option Nat := fun _ => none

abbrev RequestTracker := RequestId → Option RequestRecord

/-- `none` is the `ValueError` of an unknown request or a transition that is not allowed. -/
def RequestTracker.transition (t : RequestTracker) (requestId : RequestId) (newState : RequestState)
    (assign : RoleType → Option Nat) : Option RequestTracker :=
  (t requestId).bind fun record =>
    if record.state.allows newState then
      some fun q => if q = requestId then
        some { state := newState, instanceOf := fun role => (assign role).or (record.instanceOf role) } else t q
    else none

/-! ### Dispatch policies -/

inductive DispatchPolicy
  | roundRobin (next : Nat)
  | maxFreeSlotsFirst (tiebreak : Nat)

/-- The loop of `RoundRobin.select_with_capacity`, with the number of rounds left. -/
def roundRobinLoop (freeSlots : List Int) : Nat → Nat → Option Nat × Nat
  | 0, next => (none, next)
  | rounds + 1, next =>
    let after := (next + 1) % freeSlots.length
    if 0 < freeSlots.getD next 0 then (some next, after) else roundRobinLoop freeSlots rounds after

/-- One round of the loop of `MaxFreeSlotsFirst.select_with_capacity`. -/
def maxFreeStep (freeSlots : List Int) (tiebreak : Nat) (best : Option Nat × Int) (i : Nat) :
    Option Nat × Int :=
  let free := freeSlots.getD i 0
  if best.2 < free then (some i, free)
  else if free = best.2 ∧ 0 < best.2 ∧ i = tiebreak % freeSlots.length then (some i, best.2)
  else best

def DispatchPolicy.selectWithCapacity (p : DispatchPolicy) (freeSlots : List Int) :
    Option Nat × DispatchPolicy :=
  match p with
  | roundRobin next =>
    let (chosen, next) := roundRobinLoop freeSlots freeSlots.length next
    (chosen, roundRobin next)
  | maxFreeSlotsFirst tiebreak =>
    (((List.range freeSlots.length).foldl (maxFreeStep freeSlots tiebreak) (none, 0)).1,
      maxFreeSlotsFirst (tiebreak + 1))

/-! ### The server -/

/-- What a role owes: the output of a stage, a receive slot, or the push of its output. -/
inductive DutyKind
  | encode
  | allocate
  | push
  | denoise
  | decode
  deriving DecidableEq, Repr

structure Duty where
  requestId : RequestId
  kind : DutyKind
  deriving DecidableEq, Repr

structure DiffusionServer where
  tracker : RequestTracker
  pending : RequestId → Bool
  freeSlots : RoleType → List Int
  tta : RoleType → List RequestId
  transferState : RequestId → Bool
  policy : RoleType → DispatchPolicy

namespace DiffusionServer

section
variable (s : DiffusionServer)

section
variable (requestId : RequestId)

section
variable (newState : RequestState)

/-- `try: transition(..) except ValueError: pass`. -/
def transitionWith (assign : RoleType → Option Nat) :
    DiffusionServer :=
  { s with tracker := (s.tracker.transition requestId newState assign).getD s.tracker }

def transition : DiffusionServer :=
  s.transitionWith requestId newState fun _ => none

/-- With the instance that the request is sent to. -/
def transitionTo (role : RoleType) (idx : Nat) :
    DiffusionServer :=
  s.transitionWith requestId newState fun q => if q = role then some idx else none

end

def remove : DiffusionServer :=
  { s with tracker := fun q => if q = requestId then none else s.tracker q }

section
variable (role : RoleType)

def addFreeSlots (idx : Nat) (n : Int) : DiffusionServer :=
  { s with freeSlots := fun q => if q = role then (s.freeSlots q).modify idx (· + n) else s.freeSlots q }

/-- Give back the slot of the request's instance. -/
def freeInstance (requestId : RequestId) : DiffusionServer :=
  match (s.tracker requestId).bind (·.instanceOf role) with
  | some idx => s.addFreeSlots role idx 1
  | none => s

def enqueue (requestId : RequestId) : DiffusionServer :=
  { s with tta := fun q => if q = role then s.tta q ++ [requestId] else s.tta q }

def setPending (b : Bool) : DiffusionServer :=
  { s with pending := fun q => if q = requestId then b else s.pending q }

def setTransferState (b : Bool) : DiffusionServer :=
  { s with transferState := fun q => if q = requestId then b else s.transferState q }

def handleClientRequest : DiffusionServer :=
  if (s.tracker requestId).isSome then s
  else
    let s := { s with tracker := fun q => if q = requestId then some {} else s.tracker q }
    ((s.setPending requestId true).transition requestId .encoderWaiting).enqueue .encoder requestId

/-- The answer to the client is left out; without a pending client there is none. -/
def completeWithError : DiffusionServer :=
  ((s.transition requestId .failed).setPending requestId false).remove requestId

def handleRoleErrorFrames : DiffusionServer := s.completeWithError requestId

def handleDecoderResultFrames (error : Bool) : DiffusionServer :=
  let s := s.freeInstance .decoder requestId
  let s := s.transition requestId (if error then .failed else .done)
  let pending := s.pending requestId
  let s := (s.setPending requestId false).remove requestId
  if pending then s.setTransferState requestId false else s

/-- The stage that a request of a role runs in. -/
def running : RoleType → RequestState
  | .encoder => .encoderRunning
  | .denoiser => .denoisingRunning
  | .decoder => .decoderRunning

def dispatchToEncoder (idx : Nat) : DiffusionServer × List Duty :=
  ((s.addFreeSlots .encoder idx (-1)).transitionTo requestId .encoderRunning .encoder idx,
    [⟨requestId, .encode⟩])

/-- `fast` says whether the receiver has a large enough preallocated slot: then the sender pushes at
once. -/
def transferDispatch (requestId : RequestId) (idx : Nat) (fast : Bool) :
    DiffusionServer × List Duty :=
  ((s.addFreeSlots role idx (-1)).transitionTo requestId (running role) role idx,
    [⟨requestId, if fast then .push else .allocate⟩])

/-- One round of `_drain_encoder_tta`, `_drain_denoiser_tta` or `_drain_decoder_tta`. -/
def drain (fast : Bool) : Option (DiffusionServer × List Duty) :=
  match s.tta role with
  | [] => none
  | requestId :: rest =>
    match (s.policy role).selectWithCapacity (s.freeSlots role) with
    | (none, _) => none
    | (some idx, policy) =>
      let s := { s with
        policy := fun q => if q = role then policy else s.policy q
        tta := fun q => if q = role then rest else s.tta q }
      some (match role with
        | .encoder => s.dispatchToEncoder requestId idx
        | role => s.transferDispatch role requestId idx fast)

end

def handleTransferStaged : DiffusionServer :=
  let s := (s.setTransferState requestId true).transition requestId .encoderDone
  (s.transition requestId .denoisingWaiting).enqueue .denoiser requestId

def handleTransferAllocated : List Duty :=
  if s.transferState requestId then [⟨requestId, .push⟩] else []

/-- The slot of the sender is given back, and the receiver is told that the data is there. -/
def handleTransferPushed : DiffusionServer × List Duty :=
  if s.transferState requestId then
    match (s.tracker requestId).map RequestRecord.state with
    | some .denoisingRunning | some .denoisingWaiting =>
      (s.freeInstance .encoder requestId, [⟨requestId, .denoise⟩])
    | some .denoisingDone => (s.freeInstance .encoder requestId, [])
    | some .decoderRunning | some .decoderWaiting =>
      (s.freeInstance .denoiser requestId, [⟨requestId, .decode⟩])
    | _ => (s, [])
  else (s, [])

def handleTransferDoneDenoiser (error stagedForDecoder : Bool) : DiffusionServer :=
  if error then (s.freeInstance .denoiser requestId).completeWithError requestId
  else
    let s := s.transition requestId .denoisingDone
    if s.transferState requestId && stagedForDecoder then
      (s.transition requestId .decoderWaiting).enqueue .decoder requestId
    else s.freeInstance .denoiser requestId

def handleTransferDoneDecoder (error : Bool) : DiffusionServer :=
  let s := s.freeInstance .decoder requestId
  let s := if error then s.completeWithError requestId
    else ((s.transition requestId .done).setPending requestId false).remove requestId
  s.setTransferState requestId false

def freeSlotForRecord (record : RequestRecord) : DiffusionServer :=
  match record.state with
  | .encoderRunning | .encoderDone => s.freeInstance .encoder requestId
  | .denoisingRunning | .denoisingDone => s.freeInstance .denoiser requestId
  | .decoderRunning => s.freeInstance .decoder requestId
  | _ => s

def handleTimeout : DiffusionServer :=
  (match s.tracker requestId with
    | some record => s.freeSlotForRecord requestId record
    | none => s).completeWithError requestId

def handleTimeouts (timedOut : List RequestId) : DiffusionServer :=
  let s := timedOut.foldl handleTimeout s
  { s with tta := fun role => (s.tta role).filter (· ∉ timedOut) }

def isActive : Bool :=
  (s.tracker requestId).any fun record => !record.state.isTerminal

end

end

end DiffusionServer

/-! ### Runs -/

inductive Event
  | clientRequest (requestId : RequestId)
  | drain (role : RoleType) (fast : Bool)
  | staged (requestId : RequestId)
  | roleError (requestId : RequestId) (kind : DutyKind)
  | allocated (requestId : RequestId)
  | pushed (requestId : RequestId)
  | denoiserDone (requestId : RequestId) (error stagedForDecoder : Bool)
  | decoderDone (requestId : RequestId) (error : Bool)
  | decoderResult (requestId : RequestId) (error : Bool)
  | timeouts (requestIds : List RequestId)

/-- The server and what the roles owe it. -/
structure System where
  server : DiffusionServer
  owed : List Duty

namespace System

/-- A role does what it owes; its message is handled by the server. -/
def answer (s : System) (requestId : RequestId) (kind : DutyKind)
    (handle : DiffusionServer → DiffusionServer × List Duty) :
    Option System :=
  if ⟨requestId, kind⟩ ∈ s.owed then
    let (server, duties) := handle s.server
    some ⟨server, s.owed.erase ⟨requestId, kind⟩ ++ duties⟩
  else none

/-- `none` is an event that cannot happen. An error result stands for the output of an encoder or a
denoiser. -/
def step (s : System) : Event → Option System
  | .clientRequest requestId => some { s with server := s.server.handleClientRequest requestId }
  | .drain role fast => (s.server.drain role fast).map fun (server, duties) =>
    ⟨server, s.owed ++ duties⟩
  | .staged requestId => s.answer requestId .encode fun t => (t.handleTransferStaged requestId, [])
  | .roleError requestId kind =>
    if kind = .encode ∨ kind = .denoise then s.answer requestId kind fun t =>
      (t.handleRoleErrorFrames requestId, []) else none
  | .allocated requestId => s.answer requestId .allocate fun t =>
    (t, t.handleTransferAllocated requestId)
  | .pushed requestId => s.answer requestId .push fun t => t.handleTransferPushed requestId
  | .denoiserDone requestId error stagedForDecoder =>
    s.answer requestId .denoise fun t =>
      (t.handleTransferDoneDenoiser requestId error stagedForDecoder, [])
  | .decoderDone requestId error => s.answer requestId .decode fun t =>
    (t.handleTransferDoneDecoder requestId error, [])
  | .decoderResult requestId error => s.answer requestId .decode fun t =>
    (t.handleDecoderResultFrames requestId error, [])
  | .timeouts requestIds =>
    if requestIds.Nodup ∧ ∀ r ∈ requestIds, s.server.isActive r = true then
      some { s with server := s.server.handleTimeouts requestIds }
    else none

end System

/-- The instances of a role, their capacity, and the dispatch policy. -/
structure Config where
  instances : RoleType → Nat
  capacity : RoleType → Nat
  policy : RoleType → DispatchPolicy

def System.create (c : Config) : System where
  server :=
    { tracker := fun _ => none
      pending := fun _ => false
      freeSlots := fun role => List.replicate (c.instances role) (c.capacity role)
      tta := fun _ => []
      transferState := fun _ => false
      policy := c.policy }
  owed := []

/-- The slots that a request in the given state holds. Between two stages the sender's slot is held
until its output is pushed. -/
def RequestRecord.slots (record : RequestRecord) (transferring : Bool) : List (RoleType × Nat) :=
  let slot role := (record.instanceOf role).toList.map (role, ·)
  match record.state with
  | .encoderRunning | .encoderDone | .denoisingWaiting => slot .encoder
  | .denoisingRunning => if transferring then slot .encoder ++ slot .denoiser else slot .denoiser
  | .denoisingDone | .decoderWaiting => slot .denoiser
  | .decoderRunning => if transferring then slot .denoiser ++ slot .decoder else slot .decoder
  | _ => []

namespace System

/-- The push of the request's data is still owed. -/
def transferring (s : System) (requestId : RequestId) : Bool :=
  decide (⟨requestId, .allocate⟩ ∈ s.owed) || decide (⟨requestId, .push⟩ ∈ s.owed)

/-- The slots of a live request. -/
def held (s : System) (requestId : RequestId) : List (RoleType × Nat) :=
  match s.server.tracker requestId with
  | some record => record.slots (s.transferring requestId)
  | none => []

/-- A live request occupies the instance. -/
def Occupies (s : System) (role : RoleType) (idx : Nat) (requestId : RequestId) : Prop :=
  (role, idx) ∈ s.held requestId

end System

end Sglang.Diffusion
