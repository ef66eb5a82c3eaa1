import Sglang.Gateway.Bucket
import Sglang.Gateway.CacheAware

/-! Which workers the policies pick.

Random, round robin, power of two and manual pick among the available workers, and always find one
if there is one. The others have paths of their own: cache aware, consistent hashing and prefix hash
ask for health only, and the bucket policy for nothing but the URL. -/
namespace Sglang.Gateway

open List Option OrderedDict

variable {workers : List LiveWorker} {i : Nat} {w : LiveWorker} {moment : Moment}
  {info : SelectWorkerInfo} {key : String}

/-- A choice among indices, if there are any. -/
structure Picks (indices : List Nat) (choice : Option Nat) : Prop where
  mem : ∀ i, choice = some i → i ∈ indices
  isSome : indices ≠ [] → choice.isSome

lemma mem_getHealthyWorkerIndices : i ∈ getHealthyWorkerIndices workers ↔
    ∃ w, workers[i]? = some w ∧ w.isAvailable := by
  simp only [getHealthyWorkerIndices, List.mem_map, List.mem_filter, Prod.exists,
    List.mem_zipIdx_iff_getElem?, exists_eq_right]

lemma mem_healthyWorkers : (w, i) ∈ healthyWorkers workers ↔
    workers[i]? = some w ∧ w.isHealthy := by
  simp only [healthyWorkers, mem_filter, mem_zipIdx_iff_getElem?]

/-- An index modulo the length picks. -/
lemma getElem?_mod_picks (indices : List Nat) (n : Nat) :
    Picks indices indices[n % indices.length]? := by
  refine ⟨fun i hi => mem_of_getElem? hi, fun hne => ?_⟩
  rw [getElem?_eq_getElem (Nat.mod_lt n (length_pos_iff.mpr hne))]
  rfl

lemma randomSelect_picks (moment : Moment) (indices : List Nat) :
    Picks indices (randomSelect moment indices) :=
  getElem?_mod_picks indices _

/-- Picking from some is picking from more. -/
lemma Picks.mono {indices indices' : List Nat} {choice : Option Nat} (h : Picks indices choice)
    (hsub : indices ⊆ indices') (hne : indices' ≠ [] → indices ≠ []) : Picks indices' choice :=
  ⟨fun i hi => hsub (h.mem i hi), fun hne' => h.isSome (hne hne')⟩

/-! ### Random, round robin, power of two -/

lemma selectRoundRobin_picks (counter : UInt64) :
    Picks (getHealthyWorkerIndices workers) (selectRoundRobin counter workers).2 := by
  rw [selectRoundRobin]
  split
  · next hempty => exact ⟨fun i hi => (nomatch hi), fun hne => absurd hempty hne⟩
  · exact getElem?_mod_picks _ _

lemma selectPowerOfTwo_picks (cachedLoads : OrderedDict String Int) :
    Picks (getHealthyWorkerIndices workers) (selectPowerOfTwo cachedLoads workers moment) := by
  rw [selectPowerOfTwo]
  generalize getHealthyWorkerIndices workers = indices
  split
  · refine ⟨fun i hi => mem_of_getElem? hi, fun hne => ?_⟩
    rw [getElem?_eq_getElem (length_pos_iff.mpr hne)]
    rfl
  rename_i hlen
  have hpos : 0 < indices.length := by omega
  obtain ⟨idx1, h1⟩ :=
    isSome_iff_exists.mp ((getElem?_mod_picks indices (moment.rng 0)).isSome
    (length_pos_iff.mp hpos))
  obtain ⟨idx2, h2⟩ := isSome_iff_exists.mp ((getElem?_mod_picks indices
    (moment.rng 0 % indices.length + 1 + moment.rng 1 % (indices.length - 1))).isSome
      (length_pos_iff.mp hpos))
  have hmem : ∀ (p : Prop) [Decidable p], (if p then idx1 else idx2) ∈ indices := by
    intro p _
    split
    · exact mem_of_getElem? h1
    · exact mem_of_getElem? h2
  simp only [h1, h2, bind_eq_bind, bind_some]
  refine ⟨fun i hi => ?_, fun _ => rfl⟩
  rw [← some.inj hi]
  exact hmem _

/-! ### Manual -/

/-- The minimum is among the indices. -/
lemma minCandidates_mem (value : Nat → Nat) (indices : List Nat) : ∀ acc : Option Nat × List Nat,
    ∀ i ∈ (indices.foldl (minCandidates value) acc).2, i ∈ acc.2 ∨ i ∈ indices := by
  induction indices with
  | nil => exact fun acc i hi => .inl hi
  | cons j indices ih =>
    intro acc i hi
    rcases ih _ i hi with hacc | hrest
    · have hstep : i ∈ acc.2 ∨ i = j := by
        rw [minCandidates] at hacc
        split at hacc
        · exact .inr (mem_singleton.mp hacc)
        · split_ifs at hacc
          · exact .inr (mem_singleton.mp hacc)
          · exact (mem_append.mp hacc).imp_right mem_singleton.mp
          · exact .inl hacc
      exact hstep.imp_right fun (heq : i = j) => heq ▸ mem_cons_self
    · exact .inr (mem_cons_of_mem _ hrest)

lemma minCandidates_ne_nil (value : Nat → Nat) (indices : List Nat) : ∀ acc : Option Nat × List Nat,
    (acc.1.isSome → acc.2 ≠ []) → indices ≠ [] ∨ acc.1.isSome →
    (indices.foldl (minCandidates value) acc).2 ≠ [] := by
  induction indices with
  | nil => exact fun acc hacc hsome => hacc (hsome.resolve_left fun h => h rfl)
  | cons j indices ih =>
    intro acc hacc _
    have hstep : (minCandidates value acc j).1.isSome ∧ (minCandidates value acc j).2 ≠ [] := by
      rw [minCandidates]
      split
      · exact ⟨rfl, cons_ne_nil _ _⟩
      · next lowest hlowest =>
        split_ifs
        · exact ⟨rfl, cons_ne_nil _ _⟩
        · exact ⟨rfl, append_ne_nil_of_right_ne_nil _ (cons_ne_nil _ _)⟩
        · exact ⟨hlowest ▸ rfl, hacc (hlowest ▸ rfl)⟩
    exact ih _ (fun _ => hstep.2) (.inr hstep.1)

lemma selectMinBy_picks (indices : List Nat) (value : Nat → Nat) :
    Picks indices (selectMinBy moment indices value) := by
  refine (randomSelect_picks _ _).mono (fun i hi => ?_) fun hne => ?_
  · exact (minCandidates_mem value indices (none, []) i hi).resolve_left not_mem_nil
  · exact minCandidates_ne_nil value indices (none, []) (fun h => (nomatch h)) (.inl hne)

section
variable (mode : ManualAssignmentMode)

lemma selectNewWorker_picks (indices : List Nat) :
    Picks indices (selectNewWorker mode workers indices moment) := by
  cases mode with
  | random => exact randomSelect_picks _ _
  | minLoad => exact selectMinBy_picks _ _
  | minGroup => exact selectMinBy_picks _ _

lemma selectByRoutingId_picks (routingMap : OrderedDict String ManualNode) (routingId : String)
    (indices : List Nat) :
    Picks indices (selectByRoutingId mode routingMap workers routingId indices moment).2 := by
  have hnew := @selectNewWorker_picks workers moment mode indices
  rw [selectByRoutingId]
  split
  · next node _ =>
    dsimp only
    split
    · next idx hidx =>
      refine ⟨fun i hi => ?_, fun _ => rfl⟩
      rw [← some.inj hi]
      obtain ⟨url, _, hurl⟩ := exists_of_findSome?_eq_some hidx
      exact of_decide_eq_true (filter_eq_some_iff.mp hurl).2
    · split
      · next idx hidx => exact hidx ▸ hnew
      · next hidx => exact hidx ▸ hnew
  · split
    · next idx hidx => exact hidx ▸ hnew
    · next hidx => exact hidx ▸ hnew

/-- A routing key keeps its worker while that is available. -/
lemma selectManual_picks (routingMap : OrderedDict String ManualNode) :
    Picks (getHealthyWorkerIndices workers)
    (selectManual mode routingMap workers info moment).2 := by
  rw [selectManual]
  split
  · next hempty => exact ⟨fun i hi => (nomatch hi), fun hne => absurd hempty hne⟩
  · split
    · exact selectByRoutingId_picks _ _ _ _
    · exact randomSelect_picks _ _

end

/-! ### Consistent hashing, prefix hash -/

/-- A healthy worker's circuit breaker lets requests through. -/
def HealthyExecute (workers : List LiveWorker) : Prop :=
  ∀ w ∈ workers, w.isHealthy → w.circuitBreaker.canExecute

/-- The worker at a place is healthy. -/
def HealthyAt (workers : List LiveWorker) (i : Nat) : Prop :=
  ∃ w : LiveWorker, workers[i]? = some w ∧ w.isHealthy

/-- A healthy worker that may execute is available. -/
lemma HealthyExecute.mem (h : HealthyExecute workers) (hi : HealthyAt workers i) :
    i ∈ getHealthyWorkerIndices workers := by
  obtain ⟨w, hget, hw⟩ := hi
  refine mem_getHealthyWorkerIndices.mpr ⟨w, hget, ?_⟩
  rw [LiveWorker.isAvailable, hw, h w (mem_of_getElem? hget) hw]
  rfl

lemma healthyAt_of_mem (hi : i ∈ getHealthyWorkerIndices workers) : HealthyAt workers i := by
  obtain ⟨w, hget, hw⟩ := mem_getHealthyWorkerIndices.mp hi
  exact ⟨w, hget, (Bool.and_eq_true_iff.mp hw).1⟩

lemma healthyAt_of_any (h : workers[i]?.any (·.isHealthy)) : HealthyAt workers i := by
  cases hget : workers[i]? with
  | none => simp [hget] at h
  | some w => exact ⟨w, hget, by simpa [hget] using h⟩

lemma get?_healthyUrlToIdx {url : String} (h : (healthyUrlToIdx workers).get? url = some i) :
    ∃ w, workers[i]? = some w ∧ w.isHealthy ∧ w.url = url := by
  rcases get?_foldl_set _ _ h with ⟨⟨w, j⟩, hmem, hurl, rfl⟩ | hnone
  · obtain ⟨hget, hw⟩ := mem_healthyWorkers.mp hmem
    exact ⟨w, hget, hw, hurl⟩
  · cases hnone

section
variable (blake3 xxh3 : List UInt8 → UInt64)

lemma findByConsistentHash_healthy (h : findByConsistentHash blake3 workers info key = some i) :
    HealthyAt workers i := by
  rw [findByConsistentHash] at h
  split at h
  · cases h
  split at h
  · obtain ⟨url, _, hget⟩ := bind_eq_some_iff.mp h
    obtain ⟨w, hw, hhealthy, _⟩ := get?_healthyUrlToIdx hget
    exact ⟨w, hw, hhealthy⟩
  · have hmem := mem_mergeSort.mp (mem_of_getElem? h)
    obtain ⟨url, hget⟩ := mem_map_snd_iff.mp hmem
    obtain ⟨w, hw, hhealthy, _⟩ := get?_healthyUrlToIdx hget
    exact ⟨w, hw, hhealthy⟩

lemma isSome_findByConsistentHash (hget : workers[i]? = some w) (hw : w.isHealthy)
    (hring : ∀ ring, info.hashRing = some ring → w.url ∈ ring.urls) :
    (findByConsistentHash blake3 workers info key).isSome := by
  have hsome : ((healthyUrlToIdx workers).get? w.url).isSome :=
    isSome_get?_foldl_set _ _ (.inl ⟨(w, i), mem_healthyWorkers.mpr ⟨hget, hw⟩, rfl⟩)
  obtain ⟨j, hj⟩ := isSome_iff_exists.mp hsome
  have hne : (healthyUrlToIdx workers).items ≠ [] := by
    intro hnil
    cases (items_eq_nil_iff.mp hnil w.url).symm.trans hj
  rw [findByConsistentHash]
  rw [if_neg hne]
  split
  · next ring heq =>
    have hfind :
        (ring.findHealthyUrl blake3 key
        fun url => ((healthyUrlToIdx workers).get? url).isSome).isSome :=
      find?_isSome.mpr ⟨w.url, HashRing.mem_walk.mpr (hring ring heq), hsome⟩
    obtain ⟨url, hurl⟩ := isSome_iff_exists.mp hfind
    rw [hurl, bind_some]
    have hhealthy := find?_some hurl
    exact hhealthy
  · refine (getElem?_mod_picks _ _).isSome fun hnil => hne ?_
    have hlen := congrArg List.length hnil
    rw [length_mergeSort, length_map] at hlen
    exact length_eq_zero_iff.mp hlen

/-- Consistent hashing asks for health only. -/
lemma selectConsistentHashing_healthy
    (h : selectConsistentHashing blake3 workers info moment = some i) :
    HealthyAt workers i := by
  rw [selectConsistentHashing] at h
  split at h
  · cases h
  · split at h
    · exact healthyAt_of_any (filter_eq_some_iff.mp h).2
    · split at h
      · exact findByConsistentHash_healthy blake3 h
      · obtain ⟨⟨w, j⟩, hmem, rfl⟩ := mem_map.mp ((randomSelect_picks _ _).mem i h)
        exact ⟨w, mem_healthyWorkers.mp hmem⟩

/-- Without a target the client's key or a random number picks a worker. A key with a ring needs a
healthy worker on the ring. -/
lemma isSome_selectConsistentHashing (hget : workers[i]? = some w) (hw : w.isHealthy)
    (htarget : extractTargetWorker info.headers = none)
    (hring : ((extractRoutingKey info.headers).or (implicitKey info.headers)).isSome →
      ∀ ring, info.hashRing = some ring → w.url ∈ ring.urls) :
    (selectConsistentHashing blake3 workers info moment).isSome := by
  have hne : workers ≠ [] := fun hnil => by simp [hnil] at hget
  rw [selectConsistentHashing, if_neg hne, htarget]
  dsimp only
  split
  · rename_i key hkey
    exact isSome_findByConsistentHash blake3 hget hw (hring (hkey ▸ rfl))
  · refine (randomSelect_picks _ _).isSome fun hnil => ?_
    have hmem := mem_map_of_mem (f := (·.2)) (mem_healthyWorkers.mpr ⟨hget, hw⟩)
    rw [hnil] at hmem
    cases hmem

lemma leastLoaded_healthy {l : List (LiveWorker × Nat)} (hl : l ⊆ healthyWorkers workers)
    (h : leastLoaded l = some i) :
    HealthyAt workers i := by
  obtain ⟨⟨w, j⟩, hmin, rfl⟩ := map_eq_some_iff.mp h
  exact ⟨w, mem_healthyWorkers.mp (hl (argmin_mem hmin))⟩

lemma get?_healthyUrlMap {url : String} (h : (healthyUrlMap workers).get? url = some (w, i)) :
    HealthyAt workers i := by
  rcases get?_foldl_set _ _ h with ⟨⟨w', j⟩, hmem, _, heq⟩ | hnone
  · cases heq
    exact ⟨_, mem_healthyWorkers.mp hmem⟩
  · cases hnone

section
variable (config : PrefixHashConfig)

lemma findWorkerWithLoadBalance_healthy {prefixHash : UInt64}
    (h : findWorkerWithLoadBalance blake3 config workers info prefixHash = some i) : HealthyAt workers i := by
  rw [findWorkerWithLoadBalance] at h
  split at h
  · next worker idx hinitial =>
    obtain ⟨ring, _, hring⟩ := bind_eq_some_iff.mp hinitial
    obtain ⟨url, _, hget⟩ := bind_eq_some_iff.mp hring
    have hidx := get?_healthyUrlMap hget
    split at h
    · exact some.inj h ▸ hidx
    · split at h
      · next least hleast => exact some.inj h ▸ leastLoaded_healthy (fun p hp => (mem_filter.mp hp).1) hleast
      · exact some.inj h ▸ hidx
  · exact leastLoaded_healthy (List.Subset.refl _) h

lemma isSome_findWorkerWithLoadBalance {prefixHash : UInt64} (hi : HealthyAt workers i) :
    (findWorkerWithLoadBalance blake3 config workers info prefixHash).isSome := by
  obtain ⟨w, hw⟩ := hi
  rw [findWorkerWithLoadBalance]
  split
  · split_ifs
    · rfl
    · split <;> rfl
  · rw [leastLoaded, isSome_map, isSome_iff_ne_none]
    intro hnone
    have hmem := mem_healthyWorkers.mpr hw
    rw [argmin_eq_none.mp hnone] at hmem
    cases hmem

lemma selectPrefixHash_healthy (h : selectPrefixHash blake3 xxh3 config workers info = some i) :
    HealthyAt workers i := by
  rw [selectPrefixHash] at h
  split at h
  · cases h
  · split at h
    · exact findWorkerWithLoadBalance_healthy blake3 config h
    · cases h

lemma isSome_selectPrefixHash (hi : HealthyAt workers i)
    (htokens : ∃ tokens, info.tokens = some tokens ∧ tokens ≠ []) :
    (selectPrefixHash blake3 xxh3 config workers info).isSome := by
  obtain ⟨tokens, htokens, hne⟩ := htokens
  have hworkers : workers ≠ [] := by
    rintro rfl
    obtain ⟨w, hget, _⟩ := hi
    cases hget
  rw [selectPrefixHash, if_neg hworkers, htokens]
  cases tokens with
  | nil => exact absurd rfl hne
  | cons token tokens => exact isSome_findWorkerWithLoadBalance blake3 config hi

end

end

/-! ### Bucket -/

/-- A URL names an available worker; of several workers that have it the first one counts. -/
def Names (workers : List LiveWorker) (url : String) : Prop :=
  ∃ i ∈ getHealthyWorkerIndices workers, findWorkerIndexByUrl workers url = some i

/-- The workers have different URLs. -/
def UrlsDistinct (workers : List LiveWorker) : Prop := (workers.map (·.url)).Nodup

/-- A URL of its own names its worker. -/
lemma UrlsDistinct.names (h : UrlsDistinct workers) (hi : i ∈ getHealthyWorkerIndices workers) :
    Names workers (urlAt workers i) := by
  obtain ⟨w, hget, _⟩ := mem_getHealthyWorkerIndices.mp hi
  obtain ⟨hlt, rfl⟩ := List.getElem?_eq_some_iff.mp hget
  refine ⟨i, hi, List.findIdx?_eq_some_iff_getElem.mpr ⟨hlt, ?_, fun j hj hurl => ?_⟩⟩
  · simp [urlAt, hget]
  · refine nodup_iff_getElem?_ne_getElem?.mp h j i hj (by rwa [length_map]) ?_
    have hjlt : j < workers.length := by omega
    simpa [urlAt, hget, getElem?_map, getElem?_eq_getElem hjlt] using hurl

lemma findBoundaryLoop_mem (boundary : List Boundary) (charCount : Nat) :
    ∀ (fuel left right : Nat) {url : String},
    Bucket.findBoundaryLoop boundary charCount fuel left right = some url →
    url ∈ boundary.map (·.url)
  | 0, _, _, _, h => nomatch h
  | fuel + 1, left, right, url, h => by
    rw [Bucket.findBoundaryLoop] at h
    split at h
    · dsimp only at h
      split at h
      · next range hrange =>
        split_ifs at h
        · exact findBoundaryLoop_mem boundary charCount fuel _ _ h
        · exact findBoundaryLoop_mem boundary charCount fuel _ _ h
        · exact some.inj h ▸ mem_map_of_mem (mem_of_getElem? hrange)
      · cases h
    · cases h

/-- What a bucket chooses is one of its URLs, or the URL of an available worker. -/
lemma chooseUrl_spec (config : BucketConfig) (b : Bucket) {indices : List Nat}
    (hne : indices ≠ []) (charCount : Nat) :
    b.chooseUrl config workers indices charCount moment ∈ b.urls ∨
      ∃ i ∈ indices, b.chooseUrl config workers indices charCount moment = urlAt workers i := by
  obtain ⟨i, hi⟩ := isSome_iff_exists.mp ((randomSelect_picks moment indices).isSome hne)
  have hmem := (randomSelect_picks moment indices).mem i hi
  rw [Bucket.chooseUrl]
  simp only [hi, map_some, getD_some]
  split
  · cases hmin : b.charsPerUrl.items.argmin (·.2) with
    | none => exact .inr ⟨i, hmem, rfl⟩
    | some item =>
      exact .inl (mem_append_right _ (mem_map_of_mem (argmin_mem hmin)))
  · split
    · next url hurl =>
      split
      · exact .inl (mem_append_left _ (findBoundaryLoop_mem _ _ _ _ _ hurl))
      · exact .inr ⟨i, hmem, rfl⟩
    · exact .inr ⟨i, hmem, rfl⟩

/-- The bucket that is asked for a list of workers. -/
def bucketOf (buckets : Buckets) (workers : List LiveWorker) : Option Bucket :=
  (getHealthyWorkerIndices workers).head?.bind fun first =>
    buckets.get? (normalizeModelKey ((workers[first]?.map (·.modelId)).getD ""))

/-- The chosen URL names an available worker. -/
lemma selectBucket_picks (config : BucketConfig) {buckets : Buckets}
    (hdistinct : UrlsDistinct workers)
    (hnames : ∀ b, bucketOf buckets workers = some b → ∀ url ∈ b.urls, Names workers url) :
    Picks (getHealthyWorkerIndices workers)
    (selectBucket config buckets workers info moment).2 := by
  have hnamed : ∀ {url : String}, Names workers url →
      Picks (getHealthyWorkerIndices workers) (findWorkerIndexByUrl workers url) := by
    rintro url ⟨i, hi, hfind⟩
    rw [hfind]
    exact ⟨fun j hj => some.inj hj ▸ hi, fun _ => rfl⟩
  rw [selectBucket]
  split
  · next hempty => exact ⟨fun i hi => (nomatch hi), fun hne => absurd hempty hne⟩
  rename_i first rest heq
  dsimp only
  have hbucket :
      bucketOf buckets workers = buckets.get?
      (normalizeModelKey ((workers[first]?.map (·.modelId)).getD "")) := by
    rw [bucketOf, heq]
    rfl
  split
  · next b hb =>
    rcases @chooseUrl_spec workers moment config b (first :: rest) (cons_ne_nil _ _)
      ((info.requestText.map List.length).getD 0) with hmem | ⟨i, hi, hurl⟩
    · exact hnamed (hnames b (hbucket.trans hb) _ hmem)
    · rw [hurl]
      exact hnamed (hdistinct.names (heq ▸ hi))
  · obtain ⟨i, hi⟩ :=
      isSome_iff_exists.mp ((randomSelect_picks moment (first :: rest)).isSome (cons_ne_nil _ _))
    rw [hi, bind_some]
    exact hnamed (hdistinct.names (heq ▸ (randomSelect_picks moment _).mem i hi))

/-! ### Cache aware -/

/-- All trees are sound. -/
def TreesSound (trees : Trees) : Prop := ∀ key tree, trees.get? key = some tree → ∃ g, tree.Sound g

variable {trees : Trees}

lemma TreesSound.set (h : TreesSound trees) {tree : Tree} {g : Tree.Shape} (ht : tree.Sound g) :
    TreesSound (trees.set key tree) := by
  intro key' tree' hget
  rw [get?_set] at hget
  split at hget
  · exact some.inj hget ▸ ⟨g, ht⟩
  · exact h key' tree' hget

lemma TreesSound.updateTree (h : TreesSound trees) (key : String) {f : Tree → Option Tree}
    (hf : ∀ t g, t.Sound g → ∃ t' g', f t = some t' ∧ t'.Sound g') :
    ∃ trees', trees.updateTree key f = some trees' ∧ TreesSound trees' := by
  rw [Trees.updateTree]
  split
  · next tree htree =>
    obtain ⟨g, hg⟩ := h key tree htree
    obtain ⟨tree', g', heq, hg'⟩ := hf tree g hg
    exact ⟨_, by rw [heq]; rfl, h.set hg'⟩
  · exact ⟨trees, rfl, h⟩

lemma insert_sound (text : List Char) (url : String) (t : Tree) (g : Tree.Shape) (h : t.Sound g) :
    ∃ t' g', t.insert text url = some t' ∧ t'.Sound g' := by
  obtain ⟨t', g', heq, h', _⟩ := Tree.insert_spec h text url
  exact ⟨t', g', heq, h'⟩

lemma removeTenant_sound (url : String) (t : Tree) (g : Tree.Shape) (h : t.Sound g) :
    ∃ t' g', t.removeTenant url = some t' ∧ t'.Sound g' := by
  obtain ⟨t', g', heq, h', _⟩ := Tree.removeTenant_spec h url
  exact ⟨t', g', heq, h'⟩

lemma minLoadIndex_picks (indices : List Nat) : Picks indices (minLoadIndex workers indices) := by
  refine ⟨fun i hi => argmin_mem hi, fun hne => isSome_iff_ne_none.mpr fun hnone => ?_⟩
  exact hne (argmin_eq_none.mp hnone)

/-- The worker with the least load gets the text. -/
lemma selectWorkerMinLoad_spec (h : TreesSound trees) (requestText : Option (List Char))
    (indices : List Nat) (modelId : String) :
    ∃ trees' choice, selectWorkerMinLoad trees workers requestText indices modelId =
    some (trees', choice) ∧
      TreesSound trees' ∧ Picks indices choice := by
  have hpicks := @minLoadIndex_picks workers indices
  rw [selectWorkerMinLoad]
  split
  · next hnone => exact ⟨trees, none, rfl, h, hnone ▸ hpicks⟩
  · next idx hidx =>
    split
    · exact ⟨trees, some idx, rfl, h, hidx ▸ hpicks⟩
    · next text =>
      obtain ⟨trees', heq, h'⟩ := h.updateTree modelId (insert_sound text (urlAt workers idx))
      exact ⟨trees', some idx, by rw [heq]; rfl, h', hidx ▸ hpicks⟩

/-- The choice is a healthy worker, and an available one if healthy workers take requests. -/
lemma matchedWorker_healthy (config : CacheAwareConfig) {indices : List Nat}
    (hindices : ∀ i ∈ indices, HealthyAt workers i) {result : Tree.PrefixMatchResult}
    (h : matchedWorker config workers indices result = some i) : HealthyAt workers i := by
  rw [matchedWorker] at h
  split at h
  · exact healthyAt_of_any (filter_eq_some_iff.mp h).2
  · exact hindices i (minLoadIndex_picks indices |>.mem i h)

/-- The choice is healthy, and there is one if a worker is available. -/
lemma selectCacheAware_spec (config : CacheAwareConfig) (h : TreesSound trees) :
    ∃ trees' choice, selectCacheAware config trees workers info moment = some (trees', choice) ∧
    TreesSound trees' ∧
      (∀ i, choice = some i → HealthyAt workers i) ∧
      (getHealthyWorkerIndices workers ≠ [] → choice.isSome) := by
  have hhealthy : ∀ i ∈ getHealthyWorkerIndices workers, HealthyAt workers i :=
    fun i hi => healthyAt_of_mem hi
  have hpicks : ∀ choice, Picks (getHealthyWorkerIndices workers) choice →
      (∀ i, choice = some i → HealthyAt workers i) ∧
      (getHealthyWorkerIndices workers ≠ [] → choice.isSome) :=
    fun choice hp => ⟨fun i hi => hhealthy i (hp.mem i hi), hp.isSome⟩
  rw [selectCacheAware]
  split
  · next hempty => exact ⟨trees, none, rfl, h, fun i hi => (nomatch hi),
      fun hne => absurd hempty hne⟩
  rename_i first rest heq
  rw [heq] at hhealthy hpicks ⊢
  dsimp only
  split
  · obtain ⟨trees', choice, hsel, h', hp⟩ :=
      selectWorkerMinLoad_spec h info.requestText (first :: rest) _
    exact ⟨trees', choice, hsel, h', hpicks choice hp⟩
  split
  · exact ⟨trees, _, rfl, h, hpicks _ (randomSelect_picks _ _)⟩
  rename_i tree htree
  obtain ⟨g, hg⟩ := h _ tree htree
  obtain ⟨t1, result, hmatch, hg1⟩ := Tree.prefixMatchWithCounts_spec hg (info.requestText.getD [])
  rw [hmatch]
  simp only [bind_eq_bind, bind_some]
  split
  · next idx hidx =>
    obtain ⟨t', g', hinsert, hg'⟩ :=
      insert_sound (info.requestText.getD []) (urlAt workers idx) t1 g hg1
    rw [hinsert, bind_some]
    refine ⟨_, _, rfl, h.set hg', fun i hi => ?_, fun _ => rfl⟩
    exact some.inj hi ▸ matchedWorker_healthy config hhealthy hidx
  · have hfirst : ∀ i, some first = some i → HealthyAt workers i :=
      fun i hi => some.inj hi ▸ hhealthy first mem_cons_self
    split
    · obtain ⟨t', g', hremove, hg'⟩ := removeTenant_sound result.tenant t1 g hg1
      rw [hremove, bind_some]
      exact ⟨_, _, rfl, h.set hg', hfirst, fun _ => rfl⟩
    · exact ⟨_, _, rfl, h.set hg1, hfirst, fun _ => rfl⟩

end Sglang.Gateway
