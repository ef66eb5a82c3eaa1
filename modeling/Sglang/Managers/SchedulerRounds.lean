import Mathlib.Algebra.Ring.Rat
import Mathlib.Data.List.Sort

/-! Rounds of the scheduler: the places a request can be in and the moves between them.

A request is in the waiting queue or the grammar queue, or it is active: the chunked request, in the
last prefill batch, or in the running batch. A round merges the last prefill batch into the running
batch, tries to form a new prefill batch from the waiting queue, preempting running requests of
lower priority if it may, and otherwise decodes the running batch, retracting requests when memory
runs out. The result of a batch is processed at once, or one round later with overlap.

Memory is not modelled: what the prefill adder answers, whether the batch is full and which requests
a retraction takes are inputs of a round. `none` is an exception. -/
namespace Sglang.Managers.Rounds

open Function

abbrev Rid := Nat

structure Config where
  priority : Rid → Option Int
  enablePriorityScheduling : Bool
  scheduleLowPriorityValuesFirst : Bool
  abortOnPriorityWhenDisabled : Bool
  maxQueuedRequests : Option Nat
  enablePriorityPreemption : Bool
  preemptionThreshold : Int
  enableOverlap : Bool

structure Scheduler where
  waitingQueue : List Rid
  grammarQueue : List Rid
  chunkedReq : Option Rid
  runningBatch : List Rid
  /-- The last batch, if it was a prefill. -/
  lastBatch : List Rid
  /-- The batches whose results are not processed, the oldest first, with whether they are prefills.
  -/
  resultQueue : List (Bool × List Rid)
  accepted : List Rid
  /-- The requests reported finished or aborted. -/
  reported : List Rid
  finished : Rid → Bool
  isRetracted : Rid → Bool
  isChunked : Rid → Int
  waitQueueEntryTime : Rid → Nat
  clock : Nat

namespace Scheduler

def create : Scheduler where
  waitingQueue := []
  grammarQueue := []
  chunkedReq := none
  runningBatch := []
  lastBatch := []
  resultQueue := []
  accepted := []
  reported := []
  finished _ := false
  isRetracted _ := false
  isChunked _ := 0
  waitQueueEntryTime _ := 0
  clock := 0

def report (s : Scheduler) (req : Rid) : Scheduler := { s with reported := s.reported ++ [req] }

/-! ### The waiting queue -/

section
variable (cfg : Config)

/-- The priority of a request, the default one if it has none. -/
def priorityOf (req : Rid) : Int :=
  (cfg.priority req).getD (if cfg.scheduleLowPriorityValuesFirst then
    2 ^ 63 - 1 else -(2 ^ 63 - 1) - 1)

def direction : Int := if cfg.scheduleLowPriorityValuesFirst then 1 else -1

section
variable (s : Scheduler)

/-- The order of the requests to be aborted: later is worse. -/
def worse (a b : Rid) : Bool :=
  let keyA := direction cfg * priorityOf cfg a
  let keyB := direction cfg * priorityOf cfg b
  keyB < keyA || keyA = keyB && s.waitQueueEntryTime b < s.waitQueueEntryTime a

/-- The first of the worst requests of the queue. -/
def abortCandidate : Option Rid :=
  match s.waitingQueue with
  | [] => none
  | req :: queue =>
    some (queue.foldl (fun best req => if worse cfg s req best then req else best) req)

/-- The end of `_add_request_to_queue`. -/
def enqueue (req : Rid) : Scheduler :=
  { s with
    waitingQueue := s.waitingQueue ++ [req]
    waitQueueEntryTime := update s.waitQueueEntryTime req s.clock
    clock := s.clock + 1 }

/-- The request is added, or it or a worse one of the queue is aborted. -/
def addRequestToQueue (req : Rid) : Option Scheduler :=
  if !cfg.enablePriorityScheduling && (cfg.priority req).isSome &&
    cfg.abortOnPriorityWhenDisabled then some (s.report req)
  else
    match cfg.maxQueuedRequests with
    | none => some (s.enqueue req)
    | some limit =>
      if s.waitingQueue.length + 1 ≤ limit then some (s.enqueue req)
      else if cfg.enablePriorityScheduling then
        (s.abortCandidate cfg).map fun candidate =>
          if direction cfg * priorityOf cfg req < direction cfg * priorityOf cfg candidate then
            ({ s with waitingQueue := s.waitingQueue.erase candidate }.report candidate).enqueue req
          else s.report req
      else some (s.report req)

def addRequestsToQueue (reqs : List Rid) : Option Scheduler := reqs.foldlM (addRequestToQueue cfg) s

/-! ### Batches -/

/-- The unfinished requests of the last prefill batch join the running batch, the chunked request
apart. -/
def mergeLastBatch : Scheduler :=
  { s with
    runningBatch :=
      s.runningBatch ++ s.lastBatch.filter fun req => !s.finished req && some req ≠ s.chunkedReq
    lastBatch := [] }

/-- `filter_batch` of the running batch. -/
def filterRunning : Scheduler :=
  { s with runningBatch := s.runningBatch.filter fun req => !s.finished req }

/-- `release_req`, for requests that leave the running batch. -/
def releaseReqs (reqs : List Rid) : Scheduler :=
  { s with
    runningBatch := s.runningBatch.filter (· ∉ reqs)
    isRetracted := fun req => if req ∈ reqs then true else s.isRetracted req
    isChunked := fun req => if req ∈ reqs then 0 else s.isChunked req }

/-! ### Preemption -/

/-- What `preempt_to_schedule` reads of the adder. -/
structure Budget where
  /-- `req.extend_input_len + min(max_new_tokens, CLIP) - rem_total_tokens`. -/
  minTokensToRemove : ℚ
  totalTokenOffset : Rid → ℚ

/-- The order in which running requests are preempted. -/
def preemptedBefore (a b : Rid) : Prop :=
  let keyA := priorityOf cfg a * -direction cfg
  let keyB := priorityOf cfg b * -direction cfg
  keyA < keyB ∨ keyA = keyB ∧ s.waitQueueEntryTime b ≤ s.waitQueueEntryTime a

end

end

instance (cfg : Config) (s : Scheduler) : DecidableRel (preemptedBefore cfg s) :=
  fun _ _ => inferInstanceAs (Decidable (_ ∨ _))

section
variable (cfg : Config)

/-- Whether the priority difference meets the threshold. -/
def outranks (req runningReq : Rid) : Bool :=
  cfg.preemptionThreshold < (priorityOf cfg req - priorityOf cfg runningReq) * -direction cfg

/-- The requests to be preempted and the tokens still missing. -/
def collectPreemptible (cfg : Config) (budget : Budget) (req : Rid) : List Rid → ℚ → List Rid × ℚ
  | [], missing => ([], missing)
  | runningReq :: rest, missing =>
    if outranks cfg req runningReq then
      let missing := missing - budget.totalTokenOffset runningReq
      if missing ≤ 0 then ([runningReq], missing)
      else
        let (reqs, missing) := collectPreemptible cfg budget req rest missing
        (runningReq :: reqs, missing)
    else ([], missing)

/-- The preempted requests, if preemption makes room. -/
def preemptToSchedule (s : Scheduler) (budget : Budget) (req : Rid) : Option (List Rid) :=
  let valid :=
    (s.runningBatch.filter fun runningReq => !s.finished runningReq).insertionSort
    (preemptedBefore cfg s)
  let (reqs, missing) := collectPreemptible cfg budget req valid budget.minTokensToRemove
  if reqs = [] ∨ 0 < missing then none else some reqs

/-! ### A prefill pass -/

/-- What the adder does with a request. -/
inductive AddReqResult
  | added
  /-- Added, and the budget is used up. -/
  | addedLast
  /-- Added with a part of its input. -/
  | addedChunked
  | refused
deriving DecidableEq

/-- What the other checks say about a waiting request. -/
structure Answer where
  loraFits : Bool := true
  batchIsFull : Bool := false
  budget : Budget
  prefetchDone : Bool := true
  result : AddReqResult

/-- What the adder does with the chunked request. -/
inductive ChunkStep
  | last
  | truncated
  /-- It is kept for later (hybrid attention without room). -/
  | postponed
deriving DecidableEq

structure Adder where
  canRunList : List Rid
  preemptList : List Rid
  newChunkedReq : Option Rid

def Adder.add (adder : Adder) (req : Rid) : Adder :=
  { adder with canRunList := adder.canRunList ++ [req] }

/-- The adder after a request that is tried, and whether the loop goes on. -/
def Adder.addOneReq (adder : Adder) (req : Rid) (answer : Answer) : Adder × Bool :=
  if answer.prefetchDone then
    match answer.result with
    | .added => (adder.add req, true)
    | .addedLast => (adder.add req, false)
    | .addedChunked => ({ adder.add req with newChunkedReq := some req }, false)
    | .refused => (adder, false)
  else (adder, true)

/-- One waiting request: the scheduler and the adder after it, and whether the loop goes on. -/
def tryAdd (req : Rid) (answer : Answer) (s : Scheduler) (adder : Adder) :
    Scheduler × Adder × Bool :=
  if !answer.loraFits then (s, adder, true)
  else if answer.batchIsFull then
    if cfg.enablePriorityPreemption then
      match s.preemptToSchedule cfg answer.budget req with
      | none => (s, adder, false)
      | some reqs =>
        (s.releaseReqs reqs,
          { adder with preemptList := adder.preemptList ++ reqs }.addOneReq req answer)
    else (s, adder, false)
  else (s, adder.addOneReq req answer)

def addWaiting (cfg : Config) (answers : Rid → Answer) :
    List Rid → Scheduler → Adder → Scheduler × Adder
  | [], s, adder => (s, adder)
  | req :: queue, s, adder =>
    match tryAdd cfg req (answers req) s adder with
    | (s, adder, true) => addWaiting cfg answers queue s adder
    | (s, adder, false) => (s, adder)

/-- The inputs of a round. -/
structure Round where
  /-- The requests whose grammars are ready. -/
  readyGrammars : List Rid := []
  /-- Whether a pass over the waiting queue is made at all. -/
  pass : Bool := true
  /-- `calc_priority`: the order in which a pass meets the waiting requests. -/
  calcPriority : List Rid → List Rid := fun reqs => reqs
  calcPriority_perm : ∀ reqs, (calcPriority reqs).Perm reqs := by exact fun reqs => .refl reqs
  chunk : ChunkStep := .last
  answers : Rid → Answer
  /-- The order in which the preempted requests are put back. -/
  arrange : List Rid → List Rid := fun reqs => reqs
  arrange_perm : ∀ reqs, (arrange reqs).Perm reqs := by exact fun reqs => .refl reqs
  /-- Whether the new batch is mixed with the running one. -/
  mixed : Bool := false
  /-- Whether the running batch is left alone because it only had prefills to do. -/
  prefillOnly : Bool := false
  /-- The requests that a retraction takes, and those it aborts. -/
  retracted : List Rid := []
  aborted : List Rid := []

/-- The adder with the chunked request, which stays one unless this is its last chunk. -/
def addChunkedReq (s : Scheduler) (chunk : ChunkStep) : Scheduler × Adder :=
  ({ s with chunkedReq := if chunk = .last then none else s.chunkedReq },
    ⟨if chunk = .postponed then [] else s.chunkedReq.toList, [], none⟩)

/-- The batch is launched: its requests are no longer retracted ones. -/
def launchPrefill (s : Scheduler) (reqs : List Rid) : Scheduler :=
  { s with
    lastBatch := reqs
    resultQueue := s.resultQueue ++ [(true, reqs)]
    isRetracted := fun req => if req ∈ reqs then false else s.isRetracted req }

section
variable (round : Round)

/-- What a pass does with the requests it has chosen. -/
def commitPrefill (s : Scheduler) (adder : Adder) : Option Scheduler := do
  let s := { s with waitingQueue := s.waitingQueue.filter (· ∉ adder.canRunList) }
  let s ← s.addRequestsToQueue cfg (round.arrange adder.preemptList)
  guard (adder.newChunkedReq = none ∨ s.chunkedReq = none)
  let chunkedReq := adder.newChunkedReq <|> s.chunkedReq
  let s := { s with
    chunkedReq := chunkedReq
    isChunked := fun req => if some req = chunkedReq then s.isChunked req + 1 else s.isChunked req }
  if round.mixed then
    let s := s.filterRunning
    some ({ s with runningBatch := [] }.launchPrefill (adder.canRunList ++ s.runningBatch))
  else some (s.launchPrefill adder.canRunList)

/-- `get_new_batch_prefill`; the flag says whether there is a new batch. Requests that were
preempted are put back only then. -/
def getNewBatchPrefill (s : Scheduler) : Option (Scheduler × Bool) := do
  let s ← addRequestsToQueue cfg
    { s with grammarQueue := s.grammarQueue.filter (· ∉ round.readyGrammars) }
    (s.grammarQueue.filter (· ∈ round.readyGrammars))
  if round.pass then
    let s := { s with waitingQueue := round.calcPriority s.waitingQueue }
    let (s, adder) := s.addChunkedReq round.chunk
    let (s, adder) := addWaiting cfg round.answers s.waitingQueue s adder
    if adder.canRunList = [] then some (s, false)
    else (commitPrefill cfg round s adder).map (·, true)
  else some (s, false)

/-! ### Decoding -/

/-- `update_running_batch` and the launch of what is left. -/
def updateRunningBatch (s : Scheduler) : Option Scheduler := do
  let s := s.filterRunning
  let retracted := s.runningBatch.filter (· ∈ round.retracted)
  let aborted := s.runningBatch.filter fun req => req ∉ round.retracted ∧ req ∈ round.aborted
  let s := s.releaseReqs (retracted ++ aborted)
  let s := { s with reported := s.reported ++ aborted }
  let s ← s.addRequestsToQueue cfg retracted
  if s.runningBatch = [] then some s
    else some { s with resultQueue := s.resultQueue ++ [(false, s.runningBatch)] }

/-- `get_next_batch_to_run` and the launch of the batch. -/
def nextRound (s : Scheduler) : Option Scheduler := do
  let s := s.mergeLastBatch
  let s := if round.prefillOnly then s.filterRunning else s
  let (s, newBatch) ← s.getNewBatchPrefill cfg round
  if newBatch then some s
  else if s.runningBatch ≠ [] ∧ !round.prefillOnly then s.updateRunningBatch cfg round
  else some s

end

/-! ### Results -/

/-- The result for one request: a chunk that is not the last, or a token with which it may finish.
-/
def processReq (prefill : Bool) (finishes : Rid → Bool) (s : Scheduler) (req : Rid) : Scheduler :=
  if (prefill || cfg.enableOverlap) && (s.finished req || s.isRetracted req) then s
  else if prefill && decide (0 < s.isChunked req) then
    { s with isChunked := update s.isChunked req (s.isChunked req - 1) }
  else if finishes req then { s with finished := update s.finished req true }.report req
  else s

def processBatchResult (finishes : Rid → Bool) (s : Scheduler) : Scheduler :=
  match s.resultQueue with
  | [] => s
  | (prefill, reqs) :: rest =>
    reqs.foldl (processReq cfg prefill finishes) { s with resultQueue := rest }

/-! ### Events -/

inductive Event
  | arrive (req : Rid) (grammar : Bool)
  | abortWaiting (req : Rid)
  | round (round : Round)
  | result (finishes : Rid → Bool)

/-- Request IDs are new; without overlap a result is processed before the next round, with it the
one before. -/
def Enabled (s : Scheduler) : Event → Prop
  | .arrive req _ => req ∉ s.accepted
  | .abortWaiting req => req ∈ s.waitingQueue
  | .round _ => s.resultQueue.length ≤ if cfg.enableOverlap then 1 else 0
  | .result _ => True

end

instance (cfg : Config) (s : Scheduler) : (e : Event) → Decidable (Enabled cfg s e)
  | .arrive req _ => inferInstanceAs (Decidable (req ∉ s.accepted))
  | .abortWaiting req => inferInstanceAs (Decidable (req ∈ s.waitingQueue))
  | .round _ =>
    inferInstanceAs (Decidable (s.resultQueue.length ≤ if cfg.enableOverlap then 1 else 0))
  | .result _ => inferInstanceAs (Decidable True)

def step (cfg : Config) (s : Scheduler) : Event → Option Scheduler
  | .arrive req grammar =>
    let s := { s with accepted := s.accepted ++ [req] }
    if grammar then some { s with grammarQueue := s.grammarQueue ++ [req] }
      else s.addRequestToQueue cfg req
  | .abortWaiting req => some ({ s with waitingQueue := s.waitingQueue.erase req }.report req)
  | .round round => s.nextRound cfg round
  | .result finishes => some (s.processBatchResult cfg finishes)

/-- A step that may be taken. -/
def enabledStep (cfg : Config) (s : Scheduler) (e : Event) : Option Scheduler :=
  if Enabled cfg s e then s.step cfg e else none

end Scheduler

end Sglang.Managers.Rounds
