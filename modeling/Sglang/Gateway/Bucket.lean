import Sglang.Gateway.SelectWorker

/-! The bucket policy.

Each model has a bucket: the lengths of requests are cut into ranges, one for each URL, and how many
characters went to each URL within a time window is counted. The counts decide when loads differ too
much, the ranges otherwise. What is chosen is a URL; the worker is looked up by it. -/
namespace Sglang.Gateway

def usizeMax : Nat := 2 ^ 64 - 1

structure Boundary where
  url : String
  low : Nat
  high : Nat
deriving DecidableEq

structure SequencerRequest where
  id : Nat
  charCnt : Nat
  timestamp : Nat
  prefillWorkerUrl : String

structure Bucket where
  lMax : Nat := 4096
  bucketCnt : Nat := 0
  prefillWorkerUrls : List String := []
  loadTotal : Nat := 0
  period : Nat
  bucketLoad : Nat := 0
  boundary : List Boundary := []
  requestList : List SequencerRequest := []
  tReqLoads : OrderedDict Nat Nat := {}
  charsPerUrl : OrderedDict String Nat := {}
  /-- The next request's id. -/
  nextId : Nat := 0

namespace Bucket

/-- Ranges of one length, the last one without an end. Without a gap the end of the first range
wraps around. -/
def initBoundary (gap : Nat) (urls : List String) : List Boundary :=
  urls.zipIdx.map fun (url, i) =>
    ⟨url, i * gap, if i + 1 = urls.length then
      usizeMax else ((i + 1) * gap + usizeMax) % (usizeMax + 1)⟩

section
variable (b : Bucket)

def initPrefillWorkerUrls (urls : List String) : Bucket :=
  let b := { b with
    bucketCnt := urls.length
    prefillWorkerUrls := urls
    charsPerUrl := urls.foldl (fun d url => d.set url 0) {} }
  if urls = [] then {b with boundary := []}
  else {b with lMax := usizeMax, boundary := initBoundary (b.lMax / urls.length) urls}

def addPrefillUrl (url : String) : Bucket :=
  b.initPrefillWorkerUrls (if url ∈ b.prefillWorkerUrls then
    b.prefillWorkerUrls else b.prefillWorkerUrls ++ [url])

/-- The ranges stay when the last URL is removed. -/
def removePrefillUrl (url : String) : Bucket :=
  let urls := b.prefillWorkerUrls.filter (· ≠ url)
  let b :=
    {b with prefillWorkerUrls := urls, charsPerUrl := b.charsPerUrl.erase url, bucketCnt := urls.length}
  if urls = [] then b else b.initPrefillWorkerUrls urls

/-- Whether a request is out of the window; one from the future is. -/
def expired (now : Nat) (r : SequencerRequest) : Bool :=
  !(r.timestamp ≤ now && now - r.timestamp ≤ b.period)

/-- A request that is out of the window counts no more. -/
def forget (r : SequencerRequest) : Bucket :=
  { b with
    tReqLoads := b.tReqLoads.erase r.id
    charsPerUrl := match b.charsPerUrl.get? r.prefillWorkerUrl with
      | some count => b.charsPerUrl.set r.prefillWorkerUrl (count - r.charCnt)
      | none => b.charsPerUrl }

def postProcessRequest (now charCnt : Nat) (prefillUrl : String) : Bucket :=
  let b :=
    {b with charsPerUrl := b.charsPerUrl.set prefillUrl ((b.charsPerUrl.get? prefillUrl).getD 0 + charCnt)}
  let removed := b.requestList.takeWhile (b.expired now)
  let kept := b.requestList.dropWhile (b.expired now)
  let removedLoad := (removed.map (·.charCnt)).sum
  let b := removed.foldl forget b
  { b with
    tReqLoads := b.tReqLoads.set b.nextId charCnt
    requestList := kept ++ [⟨b.nextId, charCnt, now, prefillUrl⟩]
    loadTotal := min usizeMax (b.loadTotal - removedLoad + charCnt)
    nextId := b.nextId + 1 }

/-- The range of a length, by bisection. -/
def findBoundaryLoop (boundary : List Boundary) (charCount : Nat) : Nat → Nat → Nat → Option String
  | 0, _, _ => none
  | fuel + 1, left, right =>
    if left < right then
      let mid := left + (right - left) / 2
      match boundary[mid]? with
      | some range =>
        if charCount < range.low then findBoundaryLoop boundary charCount fuel left mid
        else if charCount > range.high then findBoundaryLoop boundary charCount fuel (mid + 1) right
        else some range.url
      | none => none
    else none

def findBoundary (charCount : Nat) : Option String :=
  findBoundaryLoop b.boundary charCount (b.boundary.length + 1) 0 b.boundary.length

/-! ### New ranges -/

def updateWorkersCnt : Bucket :=
  let added :=
    b.prefillWorkerUrls.foldl (fun d url => if (d.get? url).isSome then
    d else d.set url 0) b.charsPerUrl
  let stale :=
    b.charsPerUrl.items.filter fun (url, count) => url ∉ b.prefillWorkerUrls && count == 0
  {b with bucketCnt := b.prefillWorkerUrls.length, charsPerUrl := stale.foldl (fun d (url, _) => d.erase url) added}

/-- The load at which a sum of loads gets to a bucket's share, and the loads after it. -/
def fillBucket (share : Nat) : List Nat → Nat → Option (Nat × List Nat)
  | [], _ => none
  | load :: rest, sum =>
    if sum + load ≥ share then some (load, rest) else fillBucket share rest (sum + load)

/-- The ranges of URLs above a bound. The last URL has what is left, however its loads add up. -/
def adjustLoop (share : Nat) : List String → List Nat → Nat → List Boundary
  | [], _, _ => []
  | [url], _, upperBound => [⟨url, upperBound, usizeMax⟩]
  | url :: next :: urls, loads, upperBound =>
    match fillBucket share loads 0 with
    | some (load, rest) =>
      let high := if load ≤ upperBound then upperBound + share else load
      ⟨url, upperBound, high⟩ :: adjustLoop share (next :: urls) rest (high + 1)
    | none =>
      ⟨url, upperBound, upperBound + share⟩ :: adjustLoop share (next :: urls) []
        (upperBound + share + 1)

def adjustBoundary : Bucket :=
  if b.tReqLoads.items = [] then b
  else
    let b := b.updateWorkersCnt
    if b.bucketCnt = 0 then b
    else
      let share := b.loadTotal / b.bucketCnt
      if share ≤ 2 * b.bucketLoad ∧ b.bucketLoad ≤ 2 * share ∧ b.bucketLoad ≠ 0 then b
      else
        let histLoad := (b.tReqLoads.items.map (·.2)).mergeSort (· ≤ ·)
        {b with bucketLoad := share, boundary := adjustLoop share b.prefillWorkerUrls histLoad 0}

/-- The URLs that a bucket can name. -/
def urls : List String := b.boundary.map (·.url) ++ b.charsPerUrl.items.map (·.1)

end

end Bucket

structure BucketConfig where
  balanceAbsThreshold : Nat := 32
  /-- Whether a load is above another one times the relative threshold. -/
  aboveRelThreshold : Nat → Nat → Bool
  bucketAdjustIntervalSecs : Nat := 5

def BucketConfig.newBucket (config : BucketConfig) : Bucket :=
  {period := config.bucketAdjustIntervalSecs * 1000}

abbrev Buckets := OrderedDict String Bucket

namespace Buckets

/-- The bucket of a model is changed, and made if it is not there. -/
def update (config : BucketConfig) (buckets : Buckets) (modelKey : String) (f : Bucket → Bucket) :
    Buckets :=
  buckets.set modelKey (f ((buckets.get? modelKey).getD config.newBucket))

/-- Workers by model, in the order of the models. -/
def byModel (workers : List LiveWorker) : OrderedDict String (List String) :=
  workers.foldl (fun d w =>
    let key := normalizeModelKey w.modelId
    d.set key ((d.get? key).getD [] ++ [w.url])) {}

def initPrefillWorkerUrls (config : BucketConfig) (buckets : Buckets) (workers : List LiveWorker) :
    Buckets :=
  (byModel workers).items.foldl (fun buckets (key, urls) =>
    update config buckets key (·.initPrefillWorkerUrls urls)) buckets

def addPrefillUrl (config : BucketConfig) (buckets : Buckets) (w : LiveWorker) : Buckets :=
  update config buckets (normalizeModelKey w.modelId) (·.addPrefillUrl w.url)

def removePrefillUrl (config : BucketConfig) (buckets : Buckets) (w : LiveWorker) : Buckets :=
  let key := normalizeModelKey w.modelId
  if (buckets.get? key).isSome then update config buckets key (·.removePrefillUrl w.url)
    else buckets

def adjustBoundaries (config : BucketConfig) (buckets : Buckets) : Buckets :=
  buckets.items.foldl (fun buckets (key, _) => update config buckets key (·.adjustBoundary)) buckets

end Buckets

/-- The URL that a bucket chooses. -/
def Bucket.chooseUrl (config : BucketConfig) (b : Bucket) (workers : List LiveWorker)
    (healthyIndices : List Nat) (charCount : Nat) (moment : Moment) : String :=
  let loads := b.charsPerUrl.items.map (·.2)
  let maxLoad := loads.foldl max 0
  let minLoad := loads.min?.getD 0
  let randomUrl := ((randomSelect moment healthyIndices).map (urlAt workers)).getD ""
  if maxLoad - minLoad > config.balanceAbsThreshold ∧ config.aboveRelThreshold maxLoad minLoad then
    ((b.charsPerUrl.items.argmin (·.2)).map (·.1)).getD randomUrl
  else
    match b.findBoundary charCount with
    | some url => if url ≠ "" then url else randomUrl
    | none => randomUrl

def selectBucket (config : BucketConfig) (buckets : Buckets) (workers : List LiveWorker)
    (info : SelectWorkerInfo) (moment : Moment) : Buckets × Option Nat :=
  match getHealthyWorkerIndices workers with
  | [] => (buckets, none)
  | first :: rest =>
    let charCount := (info.requestText.map List.length).getD 0
    let modelKey := normalizeModelKey ((workers[first]?.map (·.modelId)).getD "")
    match buckets.get? modelKey with
    | some b =>
      let prefillUrl := b.chooseUrl config workers (first :: rest) charCount moment
      (buckets.set modelKey (b.postProcessRequest moment.now charCount prefillUrl),
        findWorkerIndexByUrl workers prefillUrl)
    | none =>
      (buckets, (randomSelect moment (first :: rest)).bind
        fun i => findWorkerIndexByUrl workers (urlAt workers i))

end Sglang.Gateway
