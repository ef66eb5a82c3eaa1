import Sglang.Gateway.Worker
import Sglang.Lib.SecondaryIndex

/-! The worker registry.

Workers are kept by id; further maps find them by model, type, connection mode and URL, and there is
a hash ring for every model. An id is a number here that no worker had before. -/
namespace Sglang.Gateway

abbrev WorkerId := Nat

/-- The workers and the indexes over them. -/
structure WorkerRegistry where
  workers : OrderedDict WorkerId Worker := {}
  modelIndex : OrderedDict String (List Worker) := {}
  hashRings : OrderedDict String HashRing := {}
  typeWorkers : OrderedDict WorkerType (List WorkerId) := {}
  connectionWorkers : OrderedDict ConnectionMode (List WorkerId) := {}
  urlToId : OrderedDict String WorkerId := {}
  /-- Ids from here on are not used. -/
  freshId : WorkerId := 0

namespace WorkerRegistry

section
variable (blake3 : List UInt8 → UInt64)

section
variable (r : WorkerRegistry)

/-- A ring is built from what the model index has. -/
def rebuildHashRing (modelId : String) : WorkerRegistry :=
  match r.modelIndex.get? modelId with
  | some workers => {r with hashRings := r.hashRings.set modelId (HashRing.new blake3 workers)}
  | none => {r with hashRings := r.hashRings.erase modelId}

section
variable (url : String)

/-- The id of a URL: the one it has, or a new one. -/
def idFor : WorkerId := (r.urlToId.get? url).getD r.freshId

/-- The indexes get the worker whether or not its URL is new. -/
def register (worker : Worker) : WorkerRegistry × WorkerId :=
  let workerId := r.idFor worker.url
  let r := { r with
    workers := r.workers.set workerId worker
    urlToId := r.urlToId.set worker.url workerId
    modelIndex := r.modelIndex.push worker.modelId worker
    freshId := max r.freshId (workerId + 1) }
  let r := r.rebuildHashRing blake3 worker.modelId
  ({ r with
     typeWorkers := r.typeWorkers.push worker.workerType workerId
     connectionWorkers := r.connectionWorkers.push worker.connectionMode workerId }, workerId)

def reserveIdForUrl : WorkerRegistry × WorkerId :=
  let workerId := r.idFor url
  ({r with urlToId := r.urlToId.set url workerId, freshId := max r.freshId (workerId + 1)},
    workerId)

/-- The worker leaves the map and the indexes. -/
def remove (workerId : WorkerId) : WorkerRegistry × Option Worker :=
  match r.workers.get? workerId with
  | none => (r, none)
  | some worker =>
    let r := { r with
      workers := r.workers.erase workerId
      urlToId := r.urlToId.erase worker.url
      modelIndex := r.modelIndex.retain worker.modelId fun w => w.url ≠ worker.url }
    let r := r.rebuildHashRing blake3 worker.modelId
    ({ r with
       typeWorkers := r.typeWorkers.retain worker.workerType (· ≠ workerId)
       connectionWorkers :=
         r.connectionWorkers.retain worker.connectionMode (· ≠ workerId) }, some worker)

def removeByUrl : WorkerRegistry × Option Worker :=
  match r.urlToId.get? url with
  | none => (r, none)
  | some workerId => {r with urlToId := r.urlToId.erase url}.remove blake3 workerId

def get (r : WorkerRegistry) (workerId : WorkerId) : Option Worker := r.workers.get? workerId

def getByUrl : Option Worker := (r.urlToId.get? url).bind r.get

end

def getByModel (modelId : String) : List Worker := r.modelIndex.list modelId

def getHashRing (modelId : String) : Option HashRing := r.hashRings.get? modelId

/-- Regular workers and the others. -/
def getWorkerDistribution : Nat × Nat :=
  let regularCount := (r.typeWorkers.list .regular).length
  (regularCount, r.workers.items.length - regularCount)

/-! ### Histories -/

/-- What callers do to a registry. -/
inductive Op
  | register (worker : Worker)
  | reserveIdForUrl (url : String)
  | remove (workerId : WorkerId)
  | removeByUrl (url : String)

def step : Op → WorkerRegistry
  | .register worker => (r.register blake3 worker).1
  | .reserveIdForUrl url => (r.reserveIdForUrl url).1
  | .remove workerId => (r.remove blake3 workerId).1
  | .removeByUrl url => (r.removeByUrl blake3 url).1

end

def runOps (ops : List Op) : WorkerRegistry := ops.foldl (step blake3) {}

end

end WorkerRegistry

end Sglang.Gateway
