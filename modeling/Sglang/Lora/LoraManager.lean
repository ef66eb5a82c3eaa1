import Sglang.Lora.MemPool

/-! The adapters of a batch: the manager, the overlapped loader and the scheduler's choice of
requests.

Whether a batch fits is decided request by request while it is formed; the slots are filled later,
for the batch as a whole, or ahead of it by the overlapped loader. What the prefill adder answers
for a request, and whether a load in flight is complete, are inputs of a pass over the waiting
queue. A Python set is a list without duplicates, iterated in the order `arrange` puts it in. -/
namespace Sglang.Lora

/-! ### The manager -/

structure LoraManager where
  pool : LoraMemoryPool
  /-- The loaded adapters. -/
  refs : List LoraRef
  numPinnedLoras : Nat

namespace LoraManager

def maxLorasPerBatch (m : LoraManager) : Nat := m.pool.maxLorasPerBatch

/-- The pinned adapters of a batch; each of its adapters is to be loaded. -/
def pinnedLorasInBatch (refs : List LoraRef) : List Uid → Except LoraError Nat
  | [] => .ok 0
  | none :: uids => pinnedLorasInBatch refs uids
  | some id :: uids =>
    match refs.find? (·.loraId = id) with
    | none => .error .loraRefNotFound
    | some ref => (pinnedLorasInBatch refs uids).map (· + ref.pinned.toNat)

def validateLoraBatch (m : LoraManager) (uids : List Uid) : Except LoraError Bool :=
  if m.maxLorasPerBatch < uids.length then .ok false
  else if m.numPinnedLoras = 0 then .ok true
  else
    match pinnedLorasInBatch m.refs uids with
    | .error e => .error e
    | .ok pinned =>
      if m.numPinnedLoras < pinned then .error .pinnedExceedsTotal
      else .ok (decide ((uids.length : Int) - pinned ≤ m.maxLorasPerBatch - m.numPinnedLoras))

def fetchNewLoras (arrange : List Uid → List Uid) (m : LoraManager)
    (newLoras runningLoras : List Uid) : Except LoraError LoraManager :=
  let curUids := (newLoras ++ runningLoras).dedup
  if m.maxLorasPerBatch < curUids.length then .error .tooManyLoras
  else
    match m.pool.prepareLoraBatch (arrange curUids) m.refs with
    | .error e => .error e
    | .ok pool => .ok { m with pool := pool }

/-- The slot of each request of a batch: whose weights it holds when the batch runs. -/
def prepareLoraBatch (m : LoraManager) : List Uid → Except LoraError (List (Uid × Option Uid))
  | [] => .ok []
  | uid :: uids =>
    match m.pool.uidToBufferId uid with
    | none => .error .notInPool
    | some bufferId =>
      if isLoaded m.refs uid then (prepareLoraBatch m uids).map
        ((uid, m.pool.buffers bufferId) :: ·) else .error .adapterMissing

/-- `load_lora_adapter`; too many pinned adapters are refused. -/
def loadLoraAdapter (m : LoraManager) (ref : LoraRef) : LoraManager :=
  if ref.pinned ∧ m.maxLorasPerBatch - 1 ≤ m.numPinnedLoras then m
  else { m with refs := m.refs ++ [ref], numPinnedLoras := m.numPinnedLoras + ref.pinned.toNat }

/-- The slot of the adapter stays as it is. -/
def unloadLoraAdapter (m : LoraManager) (ref : LoraRef) : LoraManager :=
  { m with refs := m.refs.erase ref, numPinnedLoras := m.numPinnedLoras - ref.pinned.toNat }

def create (arrange : List Uid → List Uid) (maxLorasPerBatch : Nat) (policy : EvictionPolicy) :
    Except LoraError LoraManager :=
  fetchNewLoras arrange ⟨.create maxLorasPerBatch policy, [], 0⟩ [none] []

end LoraManager

/-! ### The overlapped loader -/

/-- `try_overlap_load_lora`; the answer is whether the adapter has been loaded. -/
def tryOverlapLoadLora (arrange : List Uid → List Uid) (done : Uid → Bool)
    (m : LoraManager) (loadEvents : List Uid) (uid : Uid) (runningLoras : List Uid) :
    Except LoraError (LoraManager × List Uid × Bool) :=
  if uid ∈ loadEvents then
    if done uid then .ok (m, loadEvents.erase uid, true) else .ok (m, loadEvents, false)
  else
    let lorasToBeLoaded := (runningLoras ++ loadEvents).dedup
    match m.validateLoraBatch (uid :: lorasToBeLoaded).dedup with
    | .error e => .error e
    | .ok false => .ok (m, loadEvents, false)
    | .ok true =>
      match m.fetchNewLoras arrange [uid] lorasToBeLoaded with
      | .error e => .error e
      | .ok m => .ok (m, loadEvents ++ [uid], false)

/-! ### The scheduler -/

structure Req where
  rid : Nat
  loraId : Uid
deriving DecidableEq

/-- What happens to a waiting request that has passed the adapter check. -/
inductive Decision
  /-- Its prefetch is under way. -/
  | skip
  /-- The batch is full. -/
  | stop
  | add
  | addLast
  /-- It is added with a part of its input. -/
  | addChunked
  /-- The adder refuses it. -/
  | reject
deriving DecidableEq

/-- What the adder does with a request carried over from earlier rounds. -/
inductive ChunkStep
  | last
  | truncated
  | postponed
deriving DecidableEq

structure LoraScheduler where
  manager : LoraManager
  enableLoraOverlapLoading : Bool
  waitingQueue : List Req
  runningBatch : List Req
  /-- The last batch of prefills, until the next pass merges it into the running batch. -/
  lastBatch : List Req
  /-- The requests of the running batch that have finished and are not filtered out yet. -/
  finished : List Req
  chunkedReq : Option Req
  loadEvents : List Uid
  /-- The adapters of the last batch and whose weights their slots held. -/
  lastRun : List (Uid × Option Uid)

/-- A pass over the waiting queue. -/
structure Pass where
  manager : LoraManager
  loadEvents : List Uid
  runningLoras : List Uid
  canRunList : List Req
  newChunkedReq : Option Req

namespace Pass

/-- The adapter check for a request whose adapter is not among those counted so far. -/
def checkLora (arrange : List Uid → List Uid) (done : Uid → Bool) (overlap : Bool)
    (p : Pass) (uid : Uid) : Except LoraError (Pass × Bool) :=
  if uid ∈ p.runningLoras then .ok (p, true)
  else if overlap then
    (tryOverlapLoadLora arrange done p.manager p.loadEvents uid p.runningLoras).map
      fun (m, loadEvents, loaded) =>
      ({ p with manager := m, loadEvents := loadEvents }, loaded)
  else (p.manager.validateLoraBatch (uid :: p.runningLoras)).map fun fits => (p, fits)

def count (p : Pass) (uid : Uid) : Pass :=
  { p with runningLoras := if uid ∈ p.runningLoras then p.runningLoras else p.runningLoras ++ [uid] }

def add (p : Pass) (req : Req) : Pass :=
  { p.count req.loraId with canRunList := p.canRunList ++ [req] }

def addWaiting (arrange : List Uid → List Uid) (done : Uid → Bool) (overlap : Bool) :
    List (Req × Decision) → Pass → Except LoraError Pass
  | [], p => .ok p
  | (req, decision) :: rest, p =>
    match p.checkLora arrange done overlap req.loraId with
    | .error e => .error e
    | .ok (p, false) => addWaiting arrange done overlap rest p
    | .ok (p, true) =>
      match decision with
      | .skip => addWaiting arrange done overlap rest p
      | .stop => .ok p
      | .add => addWaiting arrange done overlap rest (p.add req)
      | .addLast => .ok (p.add req)
      | .addChunked => .ok { p.add req with newChunkedReq := some req }
      | .reject => .ok (p.count req.loraId)

end Pass

namespace LoraScheduler

def create (manager : LoraManager) (enableLoraOverlapLoading : Bool) : LoraScheduler :=
  ⟨manager, enableLoraOverlapLoading, [], [], [], [], none, [], []⟩

section
variable (arrange : List Uid → List Uid)

section
variable (s : LoraScheduler)

/-- The adapters of a batch are brought in, unless the overlapped loader has done it, and the batch
runs. -/
def runBatch (batch : List Req) : Except LoraError LoraScheduler :=
  match if s.enableLoraOverlapLoading then .ok s.manager
    else s.manager.fetchNewLoras arrange (batch.map (·.loraId)).dedup [] with
  | .error e => .error e
  | .ok manager => (manager.prepareLoraBatch (batch.map (·.loraId))).map fun run =>
    { s with manager := manager, lastRun := run }

/-- The request carried over is the first of a new batch. -/
def startPass (chunk : ChunkStep) : Pass :=
  ⟨s.manager, s.loadEvents, (s.runningBatch.map (·.loraId)).dedup,
    if chunk = .postponed then [] else s.chunkedReq.toList, none⟩

/-- What is left of the request carried over. -/
def chunkLeft (chunk : ChunkStep) : Option Req := if chunk = .last then none else s.chunkedReq

/-- The running batch without the finished requests, as `filter_batch` leaves it. -/
def filterBatch : LoraScheduler :=
  { s with runningBatch := s.runningBatch.filter (· ∉ s.finished), finished := [] }

/-- A batch of prefills, mixed with the running batch or not, and merged into it when it has run but
for the request that is not complete. Finished requests are counted like the others: they are
filtered out only before the batch is mixed with the running one. -/
def prefill (done : Uid → Bool) (decisions : Req → Decision) (chunk : ChunkStep) (mixed : Bool) :
    Except LoraError LoraScheduler :=
  match Pass.addWaiting arrange done s.enableLoraOverlapLoading
    (s.waitingQueue.map fun req => (req, decisions req)) (s.startPass chunk) with
  | .error e => .error e
  | .ok p =>
    let s' := { s with manager := p.manager, loadEvents := p.loadEvents, lastBatch := [] }
    if p.canRunList = [] then .ok { s' with chunkedReq := s.chunkLeft chunk }
    else
      let chunked := p.newChunkedReq <|> s.chunkLeft chunk
      let s' := if mixed then s'.filterBatch else s'
      let batch := if mixed then p.canRunList ++ s'.runningBatch else p.canRunList
      ({ s' with
        waitingQueue := s.waitingQueue.filter (· ∉ p.canRunList)
        runningBatch := s'.runningBatch ++ p.canRunList.filter (some · ≠ chunked)
        lastBatch := batch
        chunkedReq := chunked } : LoraScheduler).runBatch arrange batch

inductive Event
  | arrive (req : Req)
  | abort (req : Req)
  | load (ref : LoraRef)
  | unload (ref : LoraRef)
  | prefill (done : Uid → Bool) (decisions : Req → Decision) (chunk : ChunkStep) (mixed : Bool)
  | decode
  | retract (reqs : List Req)
  | finish (reqs : List Req)

/-- The requests in the queue and in the batches, finished or not. -/
def present : List Req := s.waitingQueue ++ s.runningBatch ++ s.chunkedReq.toList

/-- The requests that have not finished. -/
def live : List Req :=
  s.waitingQueue ++ s.runningBatch.filter (· ∉ s.finished) ++ s.chunkedReq.toList

/-- The events that the rest of the system allows: adapter IDs are new, a request comes with a
loaded adapter, and an adapter that a live request uses is not unloaded. -/
def Enabled : Event → Prop
  | .arrive req =>
    isLoaded s.manager.refs req.loraId = true ∧ ∀ req' ∈ s.present, req'.rid ≠ req.rid
  | .load ref =>
    isLoaded s.manager.refs (some ref.loraId) = false ∧ some ref.loraId ∉ s.manager.pool.residents ∧
      some ref.loraId ∉ s.loadEvents
  | .unload ref => ref ∈ s.manager.refs ∧ ∀ req ∈ s.live, req.loraId ≠ some ref.loraId
  | .prefill _ decisions chunk _ =>
    s.chunkLeft chunk ≠ none → ∀ req ∈ s.waitingQueue, decisions req ≠ .addChunked
  | _ => True

end

instance (s : LoraScheduler) (e : Event) : Decidable (s.Enabled e) :=
  match e with
  | .arrive _ => inferInstanceAs (Decidable (_ ∧ _))
  | .abort _ => inferInstanceAs (Decidable True)
  | .load _ => inferInstanceAs (Decidable (_ ∧ _))
  | .unload _ => inferInstanceAs (Decidable (_ ∧ _))
  | .prefill _ _ _ _ => inferInstanceAs (Decidable (_ → _))
  | .decode => inferInstanceAs (Decidable True)
  | .retract _ => inferInstanceAs (Decidable True)
  | .finish _ => inferInstanceAs (Decidable True)

/-- A request that finishes in the last batch of prefills is filtered out when that batch is merged.
Any other one stays in the running batch until the next decode. -/
def step (s : LoraScheduler) : Event → Except LoraError LoraScheduler
  | .arrive req => .ok { s with waitingQueue := s.waitingQueue ++ [req] }
  | .abort req => .ok { s with waitingQueue := s.waitingQueue.erase req }
  | .load ref => .ok { s with manager := s.manager.loadLoraAdapter ref }
  | .unload ref => .ok { s with manager := s.manager.unloadLoraAdapter ref }
  | .prefill done decisions chunk mixed => s.prefill arrange done decisions chunk mixed
  | .decode =>
    let s := { s.filterBatch with lastBatch := [] }
    if s.runningBatch = [] then .ok s else s.runBatch arrange s.runningBatch
  | .retract reqs =>
    let s := s.filterBatch
    .ok { s with
      waitingQueue := s.waitingQueue ++ s.runningBatch.filter (· ∈ reqs)
      runningBatch := s.runningBatch.filter (· ∉ reqs)
      lastBatch := [] }
  | .finish reqs =>
    let running := s.runningBatch.filter fun req => ¬(req ∈ reqs ∧ req ∈ s.lastBatch)
    .ok { s with runningBatch := running, finished := s.finished ++ running.filter (· ∈ reqs) }

end

/-- A server that handles a list of events; `none` if one of them is not allowed. -/
def play (arrange : List Uid → List Uid) :
    List Event → LoraScheduler → Option (Except LoraError LoraScheduler)
  | [], s => some (.ok s)
  | e :: events, s =>
    if s.Enabled e then
      match s.step arrange e with
      | .error error => some (.error error)
      | .ok s => s.play arrange events
    else none

end LoraScheduler

end Sglang.Lora
