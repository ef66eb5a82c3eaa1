import Sglang.Lib.Runs
import Sglang.Gateway.Availability

/-! The load balancing policies over their histories.

A policy is created from its configuration and is told about workers, loads and other gateways
between the requests it answers; background tasks evict, forget and adjust. -/
namespace Sglang.Gateway

open List

inductive PolicyConfig
  | random
  | roundRobin
  | powerOfTwo
  | cacheAware (config : CacheAwareConfig)
  | bucket (config : BucketConfig)
  | manual (assignmentMode : ManualAssignmentMode)
  | consistentHashing
  | prefixHash (config : PrefixHashConfig)

/-- A policy with its state. -/
inductive Policy
  | random
  | roundRobin (counter : UInt64)
  | powerOfTwo (cachedLoads : OrderedDict String Int)
  | cacheAware (config : CacheAwareConfig) (trees : Trees)
  | bucket (config : BucketConfig) (buckets : Buckets)
  | manual (assignmentMode : ManualAssignmentMode) (routingMap : OrderedDict String ManualNode)
  | consistentHashing
  | prefixHash (config : PrefixHashConfig)

/-- What happens to a policy. -/
inductive PolicyOp
  | selectWorker (workers : List LiveWorker) (info : SelectWorkerInfo) (moment : Moment)
  | updateLoads (loads : OrderedDict String Int)
  | reset
  | initWorkers (workers : List LiveWorker)
  | addWorker (w : LiveWorker)
  | addWorkerByUrl (url modelId : String)
  | removeWorker (w : LiveWorker)
  | removeWorkerByUrl (url : String)
  | applyRemoteInsert (modelId : String) (text : List Char) (tenant : TenantId)
  | applyRemoteRemove (modelId : String) (tenant : TenantId)
  | evictCache (tie : List Tree.EvictionEntry → Nat) (maxSize : Nat)
  | evictIdle (now maxIdle : Nat)
  | adjustBoundaries

namespace Policy

def createFromConfig : PolicyConfig → Policy
  | .random => random
  | .roundRobin => roundRobin 0
  | .powerOfTwo => powerOfTwo {}
  | .cacheAware config => cacheAware config {}
  | .bucket config => bucket config {}
  | .manual assignmentMode => manual assignmentMode {}
  | .consistentHashing => consistentHashing
  | .prefixHash config => prefixHash config

section
variable (blake3 xxh3 : List UInt8 → UInt64)

def selectWorker (p : Policy) (workers : List LiveWorker) (info : SelectWorkerInfo)
    (moment : Moment) :
    Option (Policy × Option Nat) :=
  match p with
  | random => some (random, selectRandom workers moment)
  | roundRobin counter =>
    let (counter, choice) := selectRoundRobin counter workers
    some (roundRobin counter, choice)
  | powerOfTwo cachedLoads => some (p, selectPowerOfTwo cachedLoads workers moment)
  | cacheAware config trees =>
    (selectCacheAware config trees workers info moment).map fun (trees, choice) =>
      (cacheAware config trees, choice)
  | bucket config buckets =>
    let (buckets, choice) := selectBucket config buckets workers info moment
    some (bucket config buckets, choice)
  | manual assignmentMode routingMap =>
    let (routingMap, choice) := selectManual assignmentMode routingMap workers info moment
    some (manual assignmentMode routingMap, choice)
  | consistentHashing => some (p, selectConsistentHashing blake3 workers info moment)
  | prefixHash config => some (p, selectPrefixHash blake3 xxh3 config workers info)

/-- Routing keys that nobody used for some time are forgotten. -/
def forgetIdle (routingMap : OrderedDict String ManualNode) (now maxIdle : Nat) :
    OrderedDict String ManualNode :=
  routingMap.items.foldl (fun d (key, node) => if now - node.lastAccess < maxIdle then
    d else d.erase key) routingMap

/-- What a cache aware policy makes of an operation. -/
def stepTrees (trees : Trees) : PolicyOp → Option Trees
  | .initWorkers workers => trees.initWorkers workers
  | .addWorker w => trees.addWorker w
  | .addWorkerByUrl url modelId => trees.addWorkerByUrl url modelId
  | .removeWorker w => trees.removeWorker w
  | .removeWorkerByUrl url => trees.removeWorkerByUrl url
  | .applyRemoteInsert modelId text tenant => trees.applyRemoteInsert modelId text tenant
  | .applyRemoteRemove modelId tenant => trees.applyRemoteRemove modelId tenant
  | .evictCache tie maxSize => trees.evictCache tie maxSize
  | _ => some trees

def stepBuckets (config : BucketConfig) (buckets : Buckets) : PolicyOp → Buckets
  | .initWorkers workers => buckets.initPrefillWorkerUrls config workers
  | .addWorker w => buckets.addPrefillUrl config w
  | .removeWorker w => buckets.removePrefillUrl config w
  | .adjustBoundaries => buckets.adjustBoundaries config
  | _ => buckets

def step (p : Policy) (op : PolicyOp) : Option Policy :=
  match op with
  | .selectWorker workers info moment => (p.selectWorker blake3 xxh3 workers info moment).map (·.1)
  | op =>
    match p, op with
    | roundRobin _, .reset => some (roundRobin 0)
    | powerOfTwo _, .updateLoads loads => some (powerOfTwo loads)
    | cacheAware config trees, op => (stepTrees trees op).map (cacheAware config)
    | bucket config buckets, op => some (bucket config (stepBuckets config buckets op))
    | manual assignmentMode routingMap, .evictIdle now maxIdle =>
      some (manual assignmentMode (forgetIdle routingMap now maxIdle))
    | p, _ => some p

def runOps (p : Policy) (ops : List PolicyOp) : Option Policy := ops.foldlM (step blake3 xxh3) p

end

/-! ### The states of a policy -/

def Sound : Policy → Prop
  | cacheAware _ trees => TreesSound trees
  | _ => True

lemma sound_createFromConfig (config : PolicyConfig) : (createFromConfig config).Sound := by
  cases config with
  | cacheAware config => exact fun key tree h => (nomatch h)
  | _ => trivial

end Policy

variable {trees : Trees}

section
variable (h : TreesSound trees)
include h

lemma TreesSound.getD_new (key : String) : ∃ g, ((trees.get? key).getD .new).Sound g := by
  cases htree : trees.get? key with
  | none => exact ⟨_, Tree.sound_new⟩
  | some tree => exact h key tree htree

lemma TreesSound.insert (key : String) (text : List Char) (url : String) :
    ∃ trees', trees.insert key text url = some trees' ∧ TreesSound trees' := by
  obtain ⟨g, hg⟩ := h.getD_new key
  obtain ⟨t', g', heq, hg'⟩ := insert_sound text url _ g hg
  exact ⟨_, by rw [Trees.insert, heq]; rfl, h.set hg'⟩

lemma TreesSound.updateAll {f : Tree → Option Tree}
    (hf : ∀ t g, t.Sound g → ∃ t' g', f t = some t' ∧ t'.Sound g') :
    ∃ trees', trees.updateAll f = some trees' ∧ TreesSound trees' :=
  Runs.foldlM_invariant (fun _ item h => TreesSound.updateTree h item.1 hf) trees.items h

lemma TreesSound.stepTrees (op : PolicyOp) :
    ∃ trees', Policy.stepTrees trees op = some trees' ∧ TreesSound trees' := by
  cases op with
  | initWorkers workers =>
    exact Runs.foldlM_invariant (fun _ w h => TreesSound.insert h _ _ _) workers h
  | addWorker w => exact h.insert (normalizeModelKey w.modelId) [] w.url
  | addWorkerByUrl url modelId => exact h.insert modelId [] url
  | removeWorker w => exact h.updateTree _ (removeTenant_sound w.url)
  | removeWorkerByUrl url => exact h.updateAll (removeTenant_sound url)
  | applyRemoteInsert modelId text tenant => exact h.insert _ _ _
  | applyRemoteRemove modelId tenant =>
    obtain ⟨g, hg⟩ := h.getD_new (normalizeModelKey modelId)
    obtain ⟨t', g', heq, hg'⟩ := removeTenant_sound tenant _ g hg
    exact ⟨_, by rw [Policy.stepTrees, Trees.applyRemoteRemove]; simp only [heq]; rfl, h.set hg'⟩
  | evictCache tie maxSize =>
    refine h.updateAll fun t g hg => ?_
    obtain ⟨t', g', heq, hg', _⟩ := Tree.evictTenantBySize_spec hg tie maxSize
    exact ⟨t', g', heq, hg'⟩
  | _ => exact ⟨trees, rfl, h⟩

end

namespace Policy
variable (blake3 xxh3 : List UInt8 → UInt64) {p : Policy}

/-! ### What a policy asks of a list of workers -/

/-- With these workers a policy picks available ones only. -/
def Careful (workers : List LiveWorker) : Policy → Prop
  | random | roundRobin _ | powerOfTwo _ | manual _ _ => True
  | cacheAware _ _ | consistentHashing | prefixHash _ => HealthyExecute workers
  | bucket _ buckets =>
    UrlsDistinct workers ∧ ∀ b, bucketOf buckets workers = some b →
      ∀ url ∈ b.urls, Names workers url

/-- A request that a policy answers if a worker is available. -/
def Answers (workers : List LiveWorker) (info : SelectWorkerInfo) : Policy → Prop
  | random | roundRobin _ | powerOfTwo _ | manual _ _ | cacheAware _ _ => True
  | consistentHashing => extractTargetWorker info.headers = none ∧
    -- without a key the ring is not asked
    (((extractRoutingKey info.headers).or (implicitKey info.headers)).isSome →
      ∀ ring, info.hashRing = some ring → ∃ w ∈ workers, w.isHealthy ∧ w.url ∈ ring.urls)
  | prefixHash _ => ∃ tokens, info.tokens = some tokens ∧ tokens ≠ []
  | bucket config buckets => Careful workers (bucket config buckets)

lemma selectWorker_spec (h : p.Sound) (workers : List LiveWorker) (info : SelectWorkerInfo)
    (moment : Moment) :
    ∃ p' choice, p.selectWorker blake3 xxh3 workers info moment = some (p', choice) ∧ p'.Sound ∧
      (Careful workers p → ∀ i, choice = some i → i ∈ getHealthyWorkerIndices workers) ∧
      (Answers workers info p → getHealthyWorkerIndices workers ≠ [] → choice.isSome) := by
  cases p with
  | random =>
    exact ⟨_, _, rfl, trivial, fun _ => (randomSelect_picks _ _).mem,
      fun _ => (randomSelect_picks _ _).isSome⟩
  | roundRobin counter =>
    exact ⟨_, _, rfl, trivial, fun _ => (selectRoundRobin_picks counter).mem,
      fun _ => (selectRoundRobin_picks counter).isSome⟩
  | powerOfTwo loads =>
    exact ⟨_, _, rfl, trivial, fun _ => (selectPowerOfTwo_picks loads).mem,
      fun _ => (selectPowerOfTwo_picks loads).isSome⟩
  | cacheAware config trees =>
    obtain ⟨trees', choice, heq, h', hhealthy, hsome⟩ :=
      @selectCacheAware_spec workers moment info trees config h
    exact ⟨cacheAware config trees', choice,
      by rw [selectWorker, heq]; rfl, h', fun hexec i hi => hexec.mem (hhealthy i hi), fun _ => hsome⟩
  | bucket config buckets =>
    have hpicks : Careful workers (bucket config buckets) → _ :=
      fun hc => @selectBucket_picks workers moment info config buckets hc.1 hc.2
    exact ⟨_, _, rfl, trivial, fun hc => (hpicks hc).mem, fun hc => (hpicks hc).isSome⟩
  | manual mode routingMap =>
    exact ⟨_, _, rfl, trivial, fun _ => (selectManual_picks mode routingMap).mem,
      fun _ => (selectManual_picks mode routingMap).isSome⟩
  | consistentHashing =>
    refine ⟨_, _, rfl, trivial,
      fun hexec i hi => hexec.mem (selectConsistentHashing_healthy blake3 hi), fun hans hne => ?_⟩
    obtain ⟨htarget, hring⟩ := hans
    by_cases hasked : ((extractRoutingKey info.headers).or (implicitKey info.headers)).isSome ∧
      info.hashRing.isSome
    · obtain ⟨hkey, hinfo⟩ := hasked
      obtain ⟨ring, hinfo⟩ := Option.isSome_iff_exists.mp hinfo
      obtain ⟨w, hmem, hw, hurl⟩ := hring hkey ring hinfo
      obtain ⟨i, hget⟩ := getElem?_of_mem hmem
      refine isSome_selectConsistentHashing blake3 hget hw htarget fun _ ring' heq => ?_
      rwa [← Option.some.inj (hinfo.symm.trans heq)]
    · obtain ⟨i, hi⟩ := exists_mem_of_ne_nil _ hne
      obtain ⟨w, hget, hw⟩ := healthyAt_of_mem hi
      refine isSome_selectConsistentHashing blake3 hget hw htarget fun hkey ring heq => ?_
      exact absurd ⟨hkey, heq ▸ rfl⟩ hasked
  | prefixHash config =>
    refine ⟨_, _, rfl, trivial,
      fun hexec i hi => hexec.mem (selectPrefixHash_healthy blake3 xxh3 config hi), fun hans hne =>
      ?_⟩
    obtain ⟨i, hi⟩ := exists_mem_of_ne_nil _ hne
    exact isSome_selectPrefixHash blake3 xxh3 config (healthyAt_of_mem hi) hans

lemma Sound.step (h : p.Sound) (op : PolicyOp) :
    ∃ p', p.step blake3 xxh3 op = some p' ∧ p'.Sound := by
  by_cases hselect : ∃ workers info moment, op = .selectWorker workers info moment
  · obtain ⟨workers, info, moment, rfl⟩ := hselect
    obtain ⟨p', choice, heq, h', _⟩ := selectWorker_spec blake3 xxh3 h workers info moment
    exact ⟨p', by rw [Policy.step, heq]; rfl, h'⟩
  cases p with
  | cacheAware config trees =>
    obtain ⟨trees', heq, h'⟩ := TreesSound.stepTrees h op
    refine ⟨cacheAware config trees', ?_, h'⟩
    cases op with
    | selectWorker workers info moment => exact absurd ⟨workers, info, moment, rfl⟩ hselect
    | _ => exact congrArg (Option.map (cacheAware config)) heq
  | _ =>
    cases op with
    | selectWorker workers info moment => exact absurd ⟨workers, info, moment, rfl⟩ hselect
    | _ => exact ⟨_, rfl, trivial⟩

lemma Sound.runOps : ∀ {p : Policy}, p.Sound → ∀ ops :
    List PolicyOp, ∃ p', p.runOps blake3 xxh3 ops = some p' ∧ p'.Sound
  | p, h, [] => ⟨p, rfl, h⟩
  | p, h, op :: ops => by
    obtain ⟨p1, heq, h1⟩ := h.step blake3 xxh3 op
    obtain ⟨p', heq', h'⟩ := h1.runOps ops
    refine ⟨p', ?_, h'⟩
    rw [Policy.runOps, foldlM_cons, heq]
    exact heq'

/-- **Availability.** After any history a policy that is given careful input picks available workers
only, and one that is given a request it answers picks a worker whenever one is available. -/
theorem policies_respect_availability (config : PolicyConfig) (ops : List PolicyOp)
    (workers : List LiveWorker) (info : SelectWorkerInfo) (moment : Moment) :
    ∃ p, (createFromConfig config).runOps blake3 xxh3 ops = some p ∧
      ∃ p' choice, p.selectWorker blake3 xxh3 workers info moment = some (p', choice) ∧
        (Careful workers p → ∀ i, choice = some i → i ∈ getHealthyWorkerIndices workers) ∧
        (Answers workers info p → getHealthyWorkerIndices workers ≠ [] → choice.isSome) := by
  obtain ⟨p, hrun, h⟩ := (sound_createFromConfig config).runOps blake3 xxh3 ops
  obtain ⟨p', choice, heq, _, hmem, hsome⟩ := selectWorker_spec blake3 xxh3 h workers info moment
  exact ⟨p, hrun, p', choice, heq, hmem, hsome⟩

/-- A worker that takes requests. -/
def readyWorker : LiveWorker where
  object := 0
  url := "http://w1:8000"
  modelId := "m"
  workerType := .regular
  connectionMode := .http

/-- A healthy worker whose circuit breaker is open. -/
def trippedWorker : LiveWorker := {readyWorker with circuitBreaker := .opened}

def secondWorker : LiveWorker := {readyWorker with object := 1, url := "http://w2:8000"}

/-- A worker is gone after a request, and the bucket answers for the two that are left. -/
def bucketHistory : List PolicyOp :=
  let third : LiveWorker := {readyWorker with object := 2, url := "http://w3:8000"}
  [.initWorkers [readyWorker, secondWorker, third],
    .selectWorker [readyWorker, secondWorker, third] {requestText := some ['a', 'b']}
    ⟨fun _ => 0, 0⟩, .removeWorker third]

/-- The URLs that a bucket policy knows for a list of workers. -/
def knownUrls (workers : List LiveWorker) : Policy → Option (List String)
  | bucket _ buckets => (bucketOf buckets workers).map (·.urls)
  | _ => none

lemma knownUrls_bucketHistory :
    ((createFromConfig (.bucket ⟨32, fun _ _ => false, 5⟩)).runOps (fun _ => 0)
    (fun _ => 0) bucketHistory).bind
      (knownUrls [readyWorker, secondWorker]) = some ["http://w1:8000",
      "http://w2:8000", "http://w1:8000", "http://w2:8000"] := by
  decide +kernel

theorem bucket_answers_after_removal : ∃ p p' choice,
    (createFromConfig (.bucket ⟨32, fun _ _ => false, 5⟩)).runOps (fun _ => 0)
    (fun _ => 0) bucketHistory = some p ∧
      p.selectWorker (fun _ => 0) (fun _ => 0) [readyWorker, secondWorker]
      {requestText := some ['a']} ⟨fun _ => 0, 1⟩ =
        some (p', choice) ∧
      (∀ i, choice = some i → i ∈ getHealthyWorkerIndices [readyWorker, secondWorker]) ∧
        choice.isSome := by
  obtain ⟨p, hrun, p', choice, heq, hmem, hsome⟩ :=
    policies_respect_availability (fun _ => 0) (fun _ => 0)
    (.bucket ⟨32, fun _ _ => false, 5⟩) bucketHistory [readyWorker, secondWorker]
      {requestText := some ['a']} ⟨fun _ => 0, 1⟩
  have hcareful : Careful [readyWorker, secondWorker] p ∧
      Answers [readyWorker, secondWorker] {requestText := some ['a']} p := by
    have hurls := knownUrls_bucketHistory
    rw [hrun, Option.bind_some] at hurls
    cases p with
    | bucket config buckets =>
      suffices h : Careful [readyWorker, secondWorker] (bucket config buckets) from ⟨h, h⟩
      refine ⟨by unfold UrlsDistinct; decide, fun b hb url hurl => ?_⟩
      rw [knownUrls, hb, Option.map_some] at hurls
      have hnames : ∀ url ∈ ["http://w1:8000", "http://w2:8000", "http://w1:8000",
        "http://w2:8000"],
          Names [readyWorker, secondWorker] url := by
        unfold Names
        decide
      exact hnames url (Option.some.inj hurls ▸ hurl)
    | _ => cases hurls
  exact ⟨p, p', choice, hrun, heq, hmem hcareful.1, hsome hcareful.2 (by decide)⟩

/-- Prefix hash has no worker for a request without tokens and bucket none if it knows a worker that
is gone. Consistent hashing and cache aware do not ask circuit breakers. -/
theorem no_tokens_no_worker :
    (getHealthyWorkerIndices [readyWorker] = [0] ∧
      ((createFromConfig (.prefixHash ⟨256, fun _ _ _ => true⟩)).selectWorker
      (fun _ => 0) (fun _ => 0) [readyWorker] {}
        ⟨fun _ => 0, 0⟩).map (·.2) = some none ∧
      (((createFromConfig (.bucket ⟨32, fun _ _ => false, 5⟩)).runOps (fun _ => 0)
      (fun _ => 0) [.initWorkers [secondWorker]]).bind
        fun p => (p.selectWorker (fun _ => 0) (fun _ => 0) [readyWorker] {} ⟨fun _ => 0, 0⟩).map
        (·.2)) = some none) ∧
    (getHealthyWorkerIndices [trippedWorker] = [] ∧
      ((createFromConfig .consistentHashing).selectWorker (fun _ => 0)
      (fun _ => 0) [trippedWorker] {}
        ⟨fun _ => 0, 0⟩).map (·.2) = some (some 0)) ∧
    getHealthyWorkerIndices [secondWorker, trippedWorker] = [0] ∧
      (((createFromConfig (.cacheAware ⟨fun _ _ => true, 32, fun _ _ => false⟩)).runOps
      (fun _ => 0) (fun _ => 0)
        [.addWorker trippedWorker, .applyRemoteInsert "m" ['a'] "http://w1:8000"]).bind fun p =>
          (p.selectWorker (fun _ => 0) (fun _ => 0) [secondWorker, trippedWorker]
            {requestText := some ['a']}
            ⟨fun _ => 0, 0⟩).map (·.2)) = some (some 1) := by
  decide +kernel

/-- What calls in a row with the same workers are answered. -/
def roundRobinChoices (workers : List LiveWorker) : Nat → UInt64 → List (Option Nat)
  | 0, _ => []
  | calls + 1, counter =>
    let (counter, choice) := selectRoundRobin counter workers
    choice :: roundRobinChoices workers calls counter

lemma roundRobinChoices_eq {workers : List LiveWorker} {healthy : List Nat}
    (hh : getHealthyWorkerIndices workers = healthy) (hne : healthy ≠ [])
    {calls : Nat} {counter : UInt64} (h : counter.toNat + calls ≤ 2 ^ 64) :
    roundRobinChoices workers calls counter = (range calls).map fun call =>
    healthy[(call + counter.toNat) % healthy.length]? := by
  induction calls generalizing counter with
  | zero => rfl
  | succ calls ih =>
    simp only [roundRobinChoices, selectRoundRobin, hh, if_neg hne, range_succ_eq_map,
      map_cons, List.map_map, Nat.zero_add]
    refine congrArg _ ?_
    cases calls with
    | zero => rfl
    | succ calls =>
      have hnext : (counter + 1).toNat = counter.toNat + 1 := by
        rw [UInt64.toNat_add, UInt64.toNat_one]
        exact Nat.mod_eq_of_lt (by omega)
      rw [ih (by omega), hnext]
      refine map_congr_left fun call _ => ?_
      rw [Function.comp_apply, Nat.succ_add_eq_add_succ]

/-- **Round robin is fair.** As long as the counter does not wrap around, as many calls in a row as
workers are available give each of them one request. -/
theorem round_robin_fair (workers : List LiveWorker) (counter : UInt64) : let healthy := getHealthyWorkerIndices workers
    counter.toNat + healthy.length ≤ 2 ^ 64 →
      roundRobinChoices workers healthy.length counter ~ healthy.map some := by
  intro healthy h
  by_cases hne : healthy = []
  · rw [hne]
    exact .nil
  -- the answers are the available workers from the counter's place on
  have hrotate : roundRobinChoices workers healthy.length counter =
      (healthy.rotate counter.toNat).map some := by
    rw [roundRobinChoices_eq rfl hne h]
    refine ext_getElem (by simp) fun i hi _ => ?_
    simp [getElem_rotate, Nat.mod_lt _ (length_pos_iff.mpr hne), healthy]
  rw [hrotate]
  exact (rotate_perm _ _).map _

theorem round_robin_fair_two :
    roundRobinChoices [readyWorker, trippedWorker, readyWorker] 2 7 ~ [some 0, some 2] :=
  round_robin_fair [readyWorker, trippedWorker, readyWorker] 7 (by decide)

end Policy

end Sglang.Gateway
