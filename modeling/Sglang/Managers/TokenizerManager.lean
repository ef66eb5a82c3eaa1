import Mathlib.Data.List.Basic

/-! The request states and the adapter references of the tokenizer manager.

`generate_request` makes a state for every request of a call, takes a reference to its adapter,
sends it to the scheduler and waits. The messages of the scheduler, the waiting coroutines, the
release tasks and the loading and unloading of adapters run between any two of its steps, so each
step is an event of its own. An adapter is unloaded in two steps: it is unregistered, and the
scheduler is told when its counter has come down to zero.

A request state is an object that outlives its entry in `rid_to_state`; its `holder` is the party
that acts on the request next. -/
namespace Sglang.Managers.Tokenizer

open Function

abbrev Rid := Nat

abbrev StateId := Nat

abbrev CallId := Nat

abbrev LoraId := Nat

abbrev LoraName := Nat

structure LoraRef where
  loraId : LoraId
  loraName : LoraName
  pinned : Bool
deriving DecidableEq

inductive FinishReason
  | stop
  | abort (statusCode : Option Nat)
deriving DecidableEq

namespace FinishReason

def badRequest : FinishReason → Bool
  | abort (some 400) => true
  | _ => false

/-- `SERVICE_UNAVAILABLE` or `INTERNAL_SERVER_ERROR`. -/
def serverError : FinishReason → Bool
  | abort (some 503) => true
  | abort (some 500) => true
  | _ => false

end FinishReason

/-- Who acts on a request next. -/
inductive Holder
  | call (c : CallId)
  | scheduler
  | waiter
  | nobody
deriving DecidableEq

/-- A `ReqState` with the fields of its request object that are read. -/
structure ReqState where
  rid : Rid
  loraPath : Option LoraName
  loraId : Option LoraId := none
  isStream : Bool := false
  /-- The finish reason of the last output, once the request has finished. -/
  finishReason : Option FinishReason := none
  /-- Whether the coroutine that waits for the response is still there. -/
  waiting : Bool := false
  holder : Holder
deriving DecidableEq

/-- How far a call of `generate_request` has come. -/
inductive Pc
  | resolving
  /-- The adapters are looked up and the counters of the first `k` taken. -/
  | incrementing (k : Nat)
  /-- The first `k` requests are sent. -/
  | sending (k : Nat)
  /-- Parallel sampling: the common prefix of the first `k` inputs is cached, and the request for
  the next may run. -/
  | caching (k : Nat) (request : Option StateId)
  | waiting
  | failed
deriving DecidableEq

structure Call where
  batchSize : Nat
  parallelSampleNum : Nat
  /-- The states that were made for `obj.rid`. -/
  items : List StateId
  /-- `obj.lora_path`, one for each sample. -/
  loraPath : Option (List (Option LoraName))
  loraId : List (Option LoraId) := []
  pc : Pc := .resolving
deriving DecidableEq

/-- The requests that a call has not sent. -/
def Call.unsent (call : Call) : List StateId :=
  match call.pc with
  | .resolving => call.items
  | .incrementing _ => call.items
  | .sending k => call.items.drop k
  | .caching _ _ => call.items
  | .waiting => []
  | .failed => []

structure TokenizerManager where
  enableLora : Bool
  maxLoadedLoras : Option Nat
  ridToState : Rid → Option StateId
  states : StateId → ReqState
  numStates : Nat
  calls : CallId → Call
  numCalls : Nat
  /-- The adapters, the most recently used last. -/
  registry : List LoraRef
  counters : LoraId → Option Int
  /-- The releases that are under way. -/
  releaseTasks : List (StateId × LoraId)
  /-- The adapter that is unregistered and not yet unloaded; the update lock is held as long. -/
  unloading : Option LoraId
  /-- The adapters that the scheduler was told to unload. -/
  unloaded : List LoraId
  /-- The entries deleted from `rid_to_state` and the references taken and dropped so far. -/
  removals : List StateId
  acquires : List (StateId × LoraId)
  releases : List (StateId × LoraId)

namespace TokenizerManager

def create (enableLora : Bool) (maxLoadedLoras : Option Nat) : TokenizerManager where
  enableLora := enableLora
  maxLoadedLoras := maxLoadedLoras
  ridToState _ := none
  states _ := ⟨0, none, none, false, none, false, .nobody⟩
  numStates := 0
  calls _ := ⟨0, 0, [], none, [], .failed⟩
  numCalls := 0
  registry := []
  counters _ := none
  releaseTasks := []
  unloading := none
  unloaded := []
  removals := []
  acquires := []
  releases := []

section
variable (m : TokenizerManager)

section
variable (s : StateId)

def modifyState (f : ReqState → ReqState) : TokenizerManager :=
  { m with states := update m.states s (f (m.states s)) }

section
variable (c : CallId)

def setPc (pc : Pc) : TokenizerManager :=
  { m with calls := update m.calls c { m.calls c with pc := pc } }

/-! ### Requests -/

/-- A new entry of `rid_to_state`. -/
def addState (state : ReqState) : TokenizerManager :=
  { m with
    ridToState := update m.ridToState state.rid (some m.numStates)
    states := update m.states m.numStates state
    numStates := m.numStates + 1 }

/-- `_init_req_state`; the flag says whether a request ID was in use, which ends it. -/
def initReqState (c : CallId) (isStream : Bool) :
    List (Rid × Option LoraName) → TokenizerManager → TokenizerManager × Bool
  | [], m => (m, false)
  | (rid, loraPath) :: items, m =>
    if (m.ridToState rid).isSome then (m, true)
    else initReqState c isStream items (m.addState { rid, loraPath, isStream, holder := .call c })

/-- The requests of a call that ends early and has not sent them are nobody's. -/
def abandon (states : List StateId) : TokenizerManager :=
  states.foldl (fun m s => m.modifyState s fun state => { state with holder := .nobody }) m

/-- An exception of a call. -/
def failCall : TokenizerManager := (m.abandon (m.calls c).unsent).setPc c .failed

def addCall (call : Call) : TokenizerManager :=
  { m with calls := update m.calls m.numCalls call, numCalls := m.numCalls + 1 }

/-- A call up to the first point where others run. -/
def generateRequest (batchSize parallelSampleNum : Nat) (rids : List Rid)
    (loraPath : Option (List (Option LoraName))) (isStream : Bool) : TokenizerManager :=
  let items := rids.zip ((loraPath.getD []) ++ List.replicate rids.length none)
  let (m', duplicate) := initReqState m.numCalls isStream items m
  let states := List.range' m.numStates (m'.numStates - m.numStates)
  let m' := m'.addCall { batchSize, parallelSampleNum, items := states, loraPath }
  if duplicate then m'.failCall m.numCalls else m'

/-- Where a call goes on when the adapters are resolved. -/
def resolved (call : Call) : Pc :=
  if call.parallelSampleNum = 1 then .sending 0 else .caching 0 none

/-! ### Adapters -/

/-- `_lookup`: the ID of an adapter, which becomes the most recently used. -/
def lookupName (registry : List LoraRef) (name : LoraName) : Option (List LoraRef × LoraId) :=
  (registry.find? (·.loraName = name)).map fun ref => (registry.erase ref ++ [ref], ref.loraId)

def lookupAll : List (Option LoraName) → List LoraRef → Option (List LoraRef × List (Option LoraId))
  | [], registry => some (registry, [])
  | none :: names, registry => (lookupAll names registry).map fun (registry, ids) =>
    (registry, none :: ids)
  | some name :: names, registry => do
    let (registry, id) ← lookupName registry name
    let (registry, ids) ← lookupAll names registry
    some (registry, some id :: ids)

/-- The part of `acquire` under the lock. -/
def acquireLookup : TokenizerManager :=
  match (m.calls c).loraPath with
  | none => m.setPc c (resolved (m.calls c))
  | some [] => m.setPc c (resolved (m.calls c))
  | some names =>
    if m.enableLora then
      match lookupAll names m.registry with
      | none => m.failCall c
      | some (registry, ids) =>
        { m with
          registry := registry
          calls := update m.calls c { m.calls c with loraId := ids, pc := .incrementing 0 } }
    else m.failCall c

/-- The adapters of the request objects of a call are known. -/
def setLoraIds (m : TokenizerManager) : List (StateId × Option LoraId) → TokenizerManager
  | [] => m
  | (s, id) :: rest => (m.modifyState s fun state => { state with loraId := id }).setLoraIds rest

def incrementCounter (id : LoraId) (count : Int) : TokenizerManager :=
  { m with counters := update m.counters id (some (count + 1)), acquires := m.acquires ++ [(s, id)] }

/-- The next counter of `acquire`; a counter that is gone is a `KeyError`. -/
def acquireIncrement (k : Nat) : TokenizerManager :=
  let call := m.calls c
  match call.loraId[k]? with
  | none => (m.setLoraIds (call.items.zip call.loraId)).setPc c (resolved call)
  | some none => m.setPc c (.incrementing (k + 1))
  | some (some id) =>
    match m.counters id with
    | none => m.failCall c
    | some count =>
      (m.setPc c (.incrementing (k + 1))).incrementCounter (call.items.getD k m.numStates) id count

/-! ### Sending -/

/-- The next request of a call is sent and waited for. -/
def sendOneRequest (k : Nat) : TokenizerManager :=
  match (m.calls c).items[k]? with
  | none => m.setPc c .waiting
  | some s =>
    (m.modifyState s fun state => { state with holder := .scheduler, waiting := true }).setPc c
      (.sending (k + 1))

/-- A request of parallel sampling: a copy of the object of `s` under a new request ID, sent at
once. -/
def sendCopy (rid : Rid) : TokenizerManager :=
  m.addState
    { m.states s with rid := rid, finishReason := none, waiting := true, holder := .scheduler }

/-- The request that caches the common prefix of the next input. -/
def cachePrefix (k : Nat) (rid : Rid) : TokenizerManager :=
  match (m.calls c).items[k]? with
  | none => m.failCall c
  | some s => (m.sendCopy s rid).setPc c (.caching k (some m.numStates))

def deleteState (rid : Rid) : TokenizerManager :=
  match m.ridToState rid with
  | none => m
  | some s => { m with ridToState := update m.ridToState rid none, removals := m.removals ++ [s] }

/-- The samples of every input, with the state of the input deleted. -/
def expand (rids : List (List Rid)) : TokenizerManager :=
  let inputs := (m.calls c).items.take (m.calls c).batchSize
  let m := (inputs.zip rids).foldl (fun m (s, rids) =>
    ((rids.foldl (fun m rid => m.sendCopy s rid) m).deleteState (m.states s).rid).modifyState s
      fun state => { state with holder := .nobody }) m
  (m.abandon ((m.calls c).items.drop (m.calls c).batchSize)).setPc c .waiting

end

/-! ### Responses -/

/-- What is due for the adapter of a request. -/
def releaseLora : TokenizerManager :=
  match m.enableLora, (m.states s).loraPath, (m.states s).loraId with
  | true, some _, some id => { m with releaseTasks := m.releaseTasks ++ [(s, id)] }
  | _, _, _ => m

/-- `_handle_batch_output` for a request that has finished. -/
def handleBatchOutput (sent : StateId) (reason : FinishReason) : TokenizerManager :=
  let rid := (m.states sent).rid
  let m' := m.modifyState sent fun state => { state with holder := .nobody }
  match m.ridToState rid with
  | none => m'
  | some s =>
    ((m'.modifyState s fun state =>
    { state with finishReason := some reason }).deleteState rid).releaseLora s

/-- `_handle_abort_req`; without a state it is a `KeyError`. -/
def handleAbortReq (sent : StateId) (statusCode : Option Nat) : Option TokenizerManager :=
  (m.ridToState (m.states sent).rid).map fun s =>
    (m.modifyState sent fun state =>
      { state with holder := if state.waiting then .waiter else .nobody }).modifyState s
      fun state => { state with finishReason := some (.abort statusCode) }

/-- `_handle_abort_finish_reason`. -/
def handleAbortFinishReason (reason : FinishReason) : TokenizerManager :=
  if reason.badRequest then m
  else if reason.serverError then (m.deleteState (m.states s).rid).releaseLora s
  else m

/-- Whether the end of the waiting is an exception. -/
def raises (isStream : Bool) (reason : FinishReason) : Bool :=
  !isStream && (reason.badRequest || reason.serverError)

/-- A call that caches a prefix goes on after its response. -/
def resumeCall (failed : Bool) (m : TokenizerManager) (c : CallId) : TokenizerManager :=
  match (m.calls c).pc with
  | .caching k (some request) =>
    if request = s then if failed then m.failCall c else m.setPc c (.caching (k + 1) none) else m
  | _ => m

def resumeCalls (failed : Bool) : TokenizerManager :=
  (List.range m.numCalls).foldl (resumeCall s failed) m

/-- The coroutine of a finished request takes its output and ends. -/
def wakeWaiter (reason : FinishReason) : TokenizerManager :=
  ((m.handleAbortFinishReason s reason).modifyState s fun state =>
    { state with waiting := false, holder := if state.holder = .waiter then .nobody else state.holder }).resumeCalls s
      (raises (m.states s).isStream reason)

end

/-- One release; a counter that is gone is a `KeyError` of the task. -/
def runRelease (use : StateId × LoraId) : TokenizerManager :=
  { m with
    releaseTasks := m.releaseTasks.erase use
    counters := update m.counters use.2 ((m.counters use.2).map (· - 1))
    releases := m.releases ++ [use] }

/-! ### Loading and unloading -/

/-- `register`; a name that is there is a `ValueError`. -/
def register (ref : LoraRef) : TokenizerManager :=
  if m.registry.any (·.loraName = ref.loraName) then m
  else { m with registry := m.registry ++ [ref], counters := update m.counters ref.loraId (some 0) }

def unregister (name : LoraName) : TokenizerManager :=
  match m.registry.find? (·.loraName = name) with
  | none => m
  | some ref => { m with registry := m.registry.erase ref, unloading := some ref.loraId }

/-- The end of `wait_for_unload`, and the message to the scheduler. -/
def sendUnload (id : LoraId) : TokenizerManager :=
  { m with counters := update m.counters id none, unloading := none, unloaded := m.unloaded ++ [id] }

def lruLoraName : Option LoraName := (m.registry.find? (!·.pinned)).map (·.loraName)

/-! ### Events -/

inductive Event
  | generateRequest (batchSize parallelSampleNum : Nat) (rids : List Rid)
      (loraPath : Option (List (Option LoraName))) (isStream : Bool)
  | acquireLookup (c : CallId)
  | acquireIncrement (c : CallId)
  | sendOneRequest (c : CallId)
  | cachePrefix (c : CallId) (rid : Rid)
  | expand (c : CallId) (rids : List (List Rid))
  /-- An error in the validation or the tokenization of a call. -/
  | fail (c : CallId)
  | batchOutput (s : StateId) (reason : FinishReason)
  | abortReq (s : StateId) (statusCode : Option Nat)
  | wake (s : StateId)
  /-- The client has gone: the coroutine ends, and the scheduler is asked to abort the request. -/
  | disconnect (s : StateId)
  | release (use : StateId × LoraId)
  | load (ref : LoraRef)
  | unload (name : LoraName)
  | evictLru
  | unloadReady
deriving DecidableEq

/-- Request and adapter IDs that are generated are new. -/
def newRids (rids : List Rid) : Prop :=
  rids.Nodup ∧ ∀ rid ∈ rids, ∀ s < m.numStates, (m.states s).rid ≠ rid

end

instance (m : TokenizerManager) (rids : List Rid) : Decidable (m.newRids rids) :=
  inferInstanceAs (Decidable (_ ∧ _))

/-- A step; `none` where the event is not possible. -/
def step (m : TokenizerManager) : Event → Option TokenizerManager
  | .generateRequest batchSize parallelSampleNum rids loraPath isStream =>
    some (m.generateRequest batchSize parallelSampleNum rids loraPath isStream)
  | .acquireLookup c =>
    if c < m.numCalls ∧ (m.calls c).pc = .resolving then some (m.acquireLookup c) else none
  | .acquireIncrement c =>
    match (m.calls c).pc with
    | .incrementing k => if c < m.numCalls then some (m.acquireIncrement c k) else none
    | _ => none
  | .sendOneRequest c =>
    match (m.calls c).pc with
    | .sending k => if c < m.numCalls then some (m.sendOneRequest c k) else none
    | _ => none
  | .cachePrefix c rid =>
    match (m.calls c).pc with
    | .caching k none =>
      if c < m.numCalls ∧ k < (m.calls c).batchSize ∧ m.newRids [rid] then
        some (m.cachePrefix c k rid) else none
    | _ => none
  | .expand c rids =>
    match (m.calls c).pc with
    | .caching k none =>
      if c < m.numCalls ∧ k = (m.calls c).batchSize ∧ rids.length = k ∧
        (∀ row ∈ rids, row.length = (m.calls c).parallelSampleNum) ∧ m.newRids rids.flatten then
        some (m.expand c rids)
      else none
    | _ => none
  | .fail c => if c < m.numCalls ∧ (m.calls c).unsent ≠ [] then some (m.failCall c) else none
  | .batchOutput s reason =>
    if s < m.numStates ∧ (m.states s).holder = .scheduler then some (m.handleBatchOutput s reason)
      else none
  | .abortReq s statusCode =>
    if s < m.numStates ∧ (m.states s).holder = .scheduler then m.handleAbortReq s statusCode
      else none
  | .wake s =>
    match (m.states s).finishReason with
    | some reason =>
      if s < m.numStates ∧ (m.states s).waiting then some (m.wakeWaiter s reason) else none
    | none => none
  | .disconnect s =>
    if s < m.numStates ∧ (m.states s).waiting ∧ (m.states s).finishReason = none then
      some (m.modifyState s fun state => { state with waiting := false })
    else none
  | .release use => if use ∈ m.releaseTasks then some (m.runRelease use) else none
  | .load ref =>
    if m.unloading = none ∧ m.counters ref.loraId = none ∧ ref.loraId ∉ m.unloaded then
      some (m.register ref) else none
  | .unload name => if m.unloading = none then some (m.unregister name) else none
  | .evictLru =>
    match m.lruLoraName, m.maxLoadedLoras with
    | some name, some max =>
      if m.unloading = none ∧ max < m.registry.length then some (m.unregister name) else none
    | _, _ => none
  | .unloadReady =>
    match m.unloading with
    | none => none
    | some id => if m.counters id = some 0 then some (m.sendUnload id) else none

end TokenizerManager

end Sglang.Managers.Tokenizer
