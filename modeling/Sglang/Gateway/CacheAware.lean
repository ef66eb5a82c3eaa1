import Sglang.Gateway.SelectWorker
import Sglang.Gateway.TreeRuns

/-! The cache aware policy.

Each model has a routing tree whose tenants are the URLs of workers. A request goes to the worker
that had most of its text if loads are balanced and that is enough of it, else to the worker of the
lowest load; a worker that is found in the tree and cannot be used is removed from it. -/
namespace Sglang.Gateway

structure CacheAwareConfig where
  /-- Whether the share of matched characters is above the threshold. -/
  aboveCacheThreshold : Nat → Nat → Bool
  balanceAbsThreshold : Nat := 32
  /-- Whether a load is above another one times the relative threshold. -/
  aboveRelThreshold : Nat → Nat → Bool

abbrev Trees := OrderedDict String Tree

namespace Trees

/-- The tree of a model takes a text, and is made if it is not there. -/
def insert (trees : Trees) (key : String) (text : List Char) (url : String) : Option Trees :=
  (((trees.get? key).getD .new).insert text url).map (trees.set key)

section
variable (trees : Trees)

/-- The workers' URLs go to the trees of their models. -/
def initWorkers (workers : List LiveWorker) : Option Trees :=
  workers.foldlM (fun trees w => insert trees (normalizeModelKey w.modelId) [] w.url) trees

def addWorker (w : LiveWorker) : Option Trees := insert trees (normalizeModelKey w.modelId) [] w.url

def addWorkerByUrl (url modelId : String) : Option Trees := insert trees modelId [] url

/-- The tree of a model changes if it is there. -/
def updateTree (key : String) (f : Tree → Option Tree) : Option Trees :=
  match trees.get? key with
  | some tree => (f tree).map (trees.set key)
  | none => some trees

/-- All trees change. -/
def updateAll (f : Tree → Option Tree) : Option Trees :=
  trees.items.foldlM (fun trees (key, _) => updateTree trees key f) trees

def removeWorker (w : LiveWorker) : Option Trees :=
  updateTree trees (normalizeModelKey w.modelId) (·.removeTenant w.url)

def removeWorkerByUrl (url : String) : Option Trees := updateAll trees (·.removeTenant url)

def evictCache (tie : List Tree.EvictionEntry → Nat) (maxSize : Nat) : Option Trees :=
  updateAll trees (·.evictTenantBySize tie maxSize)

/-- A text that another gateway put into its tree. -/
def applyRemoteInsert (modelId : String) (text : List Char) (tenant : TenantId) : Option Trees :=
  insert trees (normalizeModelKey modelId) text tenant

/-- A tenant that another gateway removed. -/
def applyRemoteRemove (modelId : String) (tenant : TenantId) : Option Trees :=
  let key := normalizeModelKey modelId
  (((trees.get? key).getD .new).removeTenant tenant).map (trees.set key)

end

end Trees

def minLoadIndex (workers : List LiveWorker) (healthyIndices : List Nat) : Option Nat :=
  healthyIndices.argmin (loadAt workers)

section
variable (config : CacheAwareConfig)

def isImbalanced (workers : List LiveWorker) : Bool :=
  let loads := workers.map (·.load)
  let maxLoad := loads.foldl max 0
  let minLoad := loads.min?.getD 0
  maxLoad - minLoad > config.balanceAbsThreshold && config.aboveRelThreshold maxLoad minLoad

def selectWorkerMinLoad (trees : Trees) (workers : List LiveWorker)
    (requestText : Option (List Char)) (healthyIndices : List Nat) (modelId : String) :
    Option (Trees × Option Nat) :=
  match minLoadIndex workers healthyIndices with
  | none => some (trees, none)
  | some idx =>
    match requestText with
    | none => some (trees, some idx)
    | some text => (trees.updateTree modelId (·.insert text (urlAt workers idx))).map (·, some idx)

/-- The worker for a match in the tree. -/
def matchedWorker (workers : List LiveWorker) (healthyIndices : List Nat)
    (result : Tree.PrefixMatchResult) : Option Nat :=
  if config.aboveCacheThreshold result.matchedCharCount result.inputCharCount then
    (findWorkerIndexByUrl workers result.tenant).filter fun idx => workers[idx]?.any (·.isHealthy)
  else minLoadIndex workers healthyIndices

def selectCacheAware (trees : Trees) (workers : List LiveWorker) (info : SelectWorkerInfo)
    (moment : Moment) : Option (Trees × Option Nat) :=
  match getHealthyWorkerIndices workers with
  | [] => some (trees, none)
  | first :: rest =>
    let healthyIndices := first :: rest
    let modelId := normalizeModelKey ((workers[first]?.map (·.modelId)).getD "")
    if isImbalanced config workers then
      selectWorkerMinLoad trees workers info.requestText healthyIndices modelId
    else
      let text := info.requestText.getD []
      match trees.get? modelId with
      | none => some (trees, randomSelect moment healthyIndices)
      | some tree => do
        let (tree, result) ← tree.prefixMatchWithCounts text
        match matchedWorker config workers healthyIndices result with
        | some idx =>
          let tree ← tree.insert text (urlAt workers idx)
          some (trees.set modelId tree, some idx)
        | none =>
          -- the worker is gone or unhealthy
          let tree ← if config.aboveCacheThreshold result.matchedCharCount
            result.inputCharCount then
            tree.removeTenant result.tenant else some tree
          some (trees.set modelId tree, some first)

end

end Sglang.Gateway
