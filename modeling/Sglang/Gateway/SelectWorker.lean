import Mathlib.Algebra.GroupWithZero.Nat
import Mathlib.Data.List.MinMax
import Sglang.Gateway.Worker
import Sglang.Lib.OrderedDict

/-! How a load balancing policy picks a worker.

A policy is given a list of workers and answers with the place of one of them. What a call reads of
a worker is its health, its circuit breaker and its load. Random numbers, hashes and the results of
floating point comparisons are parameters. -/
namespace Sglang.Gateway

inductive CircuitState
  | closed
  | opened
  | halfOpen
deriving DecidableEq

def CircuitState.canExecute : CircuitState → Bool
  | closed => true
  | opened => false
  | halfOpen => true

/-- A worker as a call finds it. -/
structure LiveWorker extends Worker where
  isHealthy : Bool := true
  circuitBreaker : CircuitState := .closed
  load : Nat := 0
  routingKeyLoad : Nat := 0

namespace LiveWorker

def isAvailable (w : LiveWorker) : Bool := w.isHealthy && w.circuitBreaker.canExecute

end LiveWorker

section
variable (workers : List LiveWorker)

def getHealthyWorkerIndices : List Nat :=
  (workers.zipIdx.filter fun (w, _) => w.isAvailable).map (·.2)

/-- The workers that are healthy, whatever their circuit breakers say. -/
def healthyWorkers : List (LiveWorker × Nat) := workers.zipIdx.filter fun (w, _) => w.isHealthy

def findWorkerIndexByUrl (url : String) : Option Nat := workers.findIdx? (·.url = url)

def loadAt (i : Nat) : Nat := (workers[i]?.map (·.load)).getD 0

def urlAt (i : Nat) : String := (workers[i]?.map (·.url)).getD ""

def normalizeModelKey (modelId : String) : String := if modelId = "" then "unknown" else modelId

/-! ### Requests -/

/-- A header's value, if it is a readable string. -/
structure HeaderValue where
  toStr : Option String

abbrev HeaderMap := String → Option HeaderValue

section
variable (headers : Option HeaderMap)

def extractHeaderValue (name : String) : Option String :=
  ((headers.bind (· name)).bind (·.toStr)).filter (· ≠ "")

def extractTargetWorker : Option String := extractHeaderValue headers "x-smg-target-worker"

def extractRoutingKey : Option String := extractHeaderValue headers "x-smg-routing-key"

end

structure SelectWorkerInfo where
  requestText : Option (List Char) := none
  tokens : Option (List UInt32) := none
  headers : Option HeaderMap := none
  hashRing : Option HashRing := none

/-- What a call draws and when it is made. -/
structure Moment where
  rng : Nat → Nat
  now : Nat

/-- One of some indices. -/
def randomSelect (moment : Moment) (indices : List Nat) : Option Nat :=
  indices[moment.rng 0 % indices.length]?

/-! ### Random, round robin, power of two -/

def selectRandom (moment : Moment) : Option Nat :=
  randomSelect moment (getHealthyWorkerIndices workers)

end

def selectRoundRobin (counter : UInt64) (workers : List LiveWorker) : UInt64 × Option Nat :=
  let healthyIndices := getHealthyWorkerIndices workers
  if healthyIndices = [] then (counter, none)
  else (counter + 1, healthyIndices[counter.toNat % healthyIndices.length]?)

def selectPowerOfTwo (cachedLoads : OrderedDict String Int) (workers : List LiveWorker)
    (moment : Moment) : Option Nat :=
  let healthyIndices := getHealthyWorkerIndices workers
  let n := healthyIndices.length
  if n ≤ 1 then healthyIndices[0]?
  else do
    let idx1 := moment.rng 0 % n
    -- the second one is another one
    let idx2 := (idx1 + 1 + moment.rng 1 % (n - 1)) % n
    let workerIdx1 ← healthyIndices[idx1]?
    let workerIdx2 ← healthyIndices[idx2]?
    let (load1, load2) :=
      match cachedLoads.get? (urlAt workers workerIdx1), cachedLoads.get?
      (urlAt workers workerIdx2) with
      | some t1, some t2 => (t1, t2)
      | _, _ => ((loadAt workers workerIdx1 : Int), (loadAt workers workerIdx2 : Int))
    some (if load1 ≤ load2 then workerIdx1 else workerIdx2)

/-! ### Manual -/

inductive ManualAssignmentMode
  | random
  | minLoad
  | minGroup
deriving DecidableEq

def maxCandidateWorkers : Nat := 2

structure ManualNode where
  candiWorkerUrls : List String
  lastAccess : Nat

def ManualNode.pushBounded (node : ManualNode) (url : String) : ManualNode :=
  {node with candiWorkerUrls := node.candiWorkerUrls.drop (node.candiWorkerUrls.length - (maxCandidateWorkers - 1)) ++ [url]}

/-- The lowest value so far and the indices that have it. -/
def minCandidates (value : Nat → Nat) (acc : Option Nat × List Nat) (i : Nat) :
    Option Nat × List Nat :=
  match acc.1 with
  | none => (some (value i), [i])
  | some lowest =>
    if value i < lowest then (some (value i), [i])
    else if value i = lowest then (some lowest, acc.2 ++ [i])
    else acc

def selectMinBy (moment : Moment) (indices : List Nat) (value : Nat → Nat) : Option Nat :=
  randomSelect moment (indices.foldl (minCandidates value) (none, [])).2

section
variable (mode : ManualAssignmentMode)

def selectNewWorker (workers : List LiveWorker) (healthyIndices : List Nat) (moment : Moment) :
    Option Nat :=
  match mode with
  | .random => randomSelect moment healthyIndices
  | .minLoad => selectMinBy moment healthyIndices (loadAt workers)
  | .minGroup => selectMinBy moment healthyIndices fun i =>
    (workers[i]?.map (·.routingKeyLoad)).getD 0

def findHealthyWorker (urls : List String) (workers : List LiveWorker) (healthyIndices : List Nat) :
    Option Nat :=
  urls.findSome? fun url => (findWorkerIndexByUrl workers url).filter (· ∈ healthyIndices)

def selectByRoutingId (routingMap : OrderedDict String ManualNode) (workers : List LiveWorker)
    (routingId : String) (healthyIndices : List Nat) (moment : Moment) :
    OrderedDict String ManualNode × Option Nat :=
  match routingMap.get? routingId with
  | some node =>
    let node := {node with lastAccess := moment.now}
    match findHealthyWorker node.candiWorkerUrls workers healthyIndices with
    | some idx => (routingMap.set routingId node, some idx)
    | none =>
      match selectNewWorker mode workers healthyIndices moment with
      | some idx => (routingMap.set routingId (node.pushBounded (urlAt workers idx)), some idx)
      | none => (routingMap, none)
  | none =>
    match selectNewWorker mode workers healthyIndices moment with
    | some idx => (routingMap.set routingId ⟨[urlAt workers idx], moment.now⟩, some idx)
    | none => (routingMap, none)

def selectManual (routingMap : OrderedDict String ManualNode) (workers : List LiveWorker)
    (info : SelectWorkerInfo) (moment : Moment) : OrderedDict String ManualNode × Option Nat :=
  let healthyIndices := getHealthyWorkerIndices workers
  if healthyIndices = [] then (routingMap, none)
  else
    match extractRoutingKey info.headers with
    | some routingId => selectByRoutingId mode routingMap workers routingId healthyIndices moment
    | none => (routingMap, randomSelect moment healthyIndices)

end

/-! ### Consistent hashing -/

/-- A decimal number of 64 bits, with an optional sign. -/
def parseUsize (s : String) : Option Nat :=
  let digits := match s.toList with
    | '+' :: rest => rest
    | digits => digits
  if digits ≠ [] ∧ digits.all Char.isDigit then
    let n := digits.foldl (fun n c => n * 10 + (c.toNat - '0'.toNat)) 0
    if n < 2 ^ 64 then some n else none
  else none

section
variable (blake3 : List UInt8 → UInt64)

section
variable (workers : List LiveWorker)

/-- The last healthy worker with a URL. -/
def healthyUrlToIdx : OrderedDict String Nat :=
  (healthyWorkers workers).foldl (fun d (w, i) => d.set w.url i) {}

def findByConsistentHash (info : SelectWorkerInfo) (key : String) : Option Nat :=
  let urlToIdx := healthyUrlToIdx workers
  if urlToIdx.items = [] then none
  else
    match info.hashRing with
    | some ring =>
      (ring.findHealthyUrl blake3 key fun url => (urlToIdx.get? url).isSome).bind urlToIdx.get?
    | none =>
      let healthyIndices := (urlToIdx.items.map (·.2)).mergeSort (· ≤ ·)
      healthyIndices[(HashRing.hashPosition blake3 key).toNat % healthyIndices.length]?

/-- A key from headers that stay the same for a client. -/
def implicitKey (headers : Option HeaderMap) : Option String :=
  headers.bind fun h =>
    ((((h "authorization").or (h "x-forwarded-for")).or (h "cookie")).bind (·.toStr)).filter
      (· ≠ "")

def selectConsistentHashing (info : SelectWorkerInfo) (moment : Moment) : Option Nat :=
  if workers = [] then none
  else
    match extractTargetWorker info.headers with
    | some idxStr => (parseUsize idxStr).filter fun idx => workers[idx]?.any (·.isHealthy)
    | none =>
      match (extractRoutingKey info.headers).or (implicitKey info.headers) with
      | some key => findByConsistentHash blake3 workers info key
      | none => randomSelect moment ((healthyWorkers workers).map (·.2))

end

end

/-! ### Prefix hash -/

structure PrefixHashConfig where
  prefixTokenCount : Nat := 256
  /-- Whether a load is at most the average of a total over some workers, times the load factor. -/
  withinLoadFactor : Nat → Nat → Nat → Bool

section
variable (blake3 xxh3 : List UInt8 → UInt64)

/-- Four bytes, the lowest first. -/
def tokenBytes (token : UInt32) : List UInt8 :=
  (List.range 4).map fun i => (token >>> UInt32.ofNat (8 * i)).toUInt8

section
variable (config : PrefixHashConfig)

def computePrefixHash (tokens : List UInt32) : UInt64 :=
  xxh3 ((tokens.take config.prefixTokenCount).flatMap tokenBytes)

/-- Sixteen hexadecimal digits. -/
def ringKey (prefixHash : UInt64) : String :=
  let digits := Nat.toDigits 16 prefixHash.toNat
  String.ofList (List.replicate (16 - digits.length) '0' ++ digits)

def loadOk (workerLoad totalLoad numWorkers : Nat) : Bool :=
  totalLoad = 0 ∨ numWorkers = 0 ∨ config.withinLoadFactor workerLoad (totalLoad + 1) numWorkers

def healthyUrlMap (workers : List LiveWorker) : OrderedDict String (LiveWorker × Nat) :=
  (healthyWorkers workers).foldl (fun d (w, i) => d.set w.url (w, i)) {}

def leastLoaded (workers : List (LiveWorker × Nat)) : Option Nat :=
  (workers.argmin (·.1.load)).map (·.2)

def findWorkerWithLoadBalance (workers : List LiveWorker) (info : SelectWorkerInfo)
    (prefixHash : UInt64) : Option Nat :=
  let healthy := healthyWorkers workers
  let totalLoad := (healthy.map (·.1.load)).sum
  let ok := fun w : LiveWorker => loadOk config w.load totalLoad healthy.length
  let initial := info.hashRing.bind fun ring =>
    (ring.findHealthyUrl blake3 (ringKey prefixHash)
      fun url => ((healthyUrlMap workers).get? url).isSome).bind
      (healthyUrlMap workers).get?
  match initial with
  | some (worker, idx) =>
    if ok worker then some idx
    else
      -- a worker of acceptable load, else the one from the ring all the same
      match leastLoaded (healthy.filter fun (w, _) => ok w) with
      | some idx => some idx
      | none => some idx
  | none => leastLoaded healthy

def selectPrefixHash (workers : List LiveWorker) (info : SelectWorkerInfo) : Option Nat :=
  if workers = [] then none
  else
    match info.tokens with
    | some (token :: tokens) =>
      findWorkerWithLoadBalance blake3 config workers info
        (computePrefixHash xxh3 config (token :: tokens))
    | _ => none

end

end

end Sglang.Gateway
