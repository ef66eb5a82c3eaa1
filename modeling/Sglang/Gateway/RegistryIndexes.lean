import Sglang.Gateway.WorkerRegistry

/-! The indexes of the worker registry.

`register` appends to the indexes also when it replaces a worker, and what it appended for the old
worker stays. Over a whole history the indexes agree with the workers exactly as long as no URL is
registered that has a worker. -/
namespace Sglang.Gateway

open List Option OrderedDict WorkerRegistry HashRing Worker

namespace WorkerRegistry
variable {blake3 : List UInt8 → UInt64} {r : WorkerRegistry} {worker : Worker}
  {workerId : WorkerId} {url modelId : String}

/-- The indexes describe the workers. -/
structure Agrees (r : WorkerRegistry) : Prop where
  models : Indexed r.workers Worker.modelId (fun _ w => w) r.modelIndex
  types : Indexed r.workers workerType (fun id _ => id) r.typeWorkers
  connections : Indexed r.workers connectionMode (fun id _ => id) r.connectionWorkers
  rings : ∀ modelId url, (∃ ring, r.getHashRing modelId = some ring ∧ url ∈ ring.urls) ↔
    ∃ id w, r.get id = some w ∧ w.modelId = modelId ∧ w.url = url
  urls : ∀ id w, r.get id = some w → r.urlToId.get? w.url = some id

/-- What keeps them so. -/
structure Inv (blake3 : List UInt8 → UInt64) (r : WorkerRegistry) : Prop where
  models : Indexed r.workers Worker.modelId (fun _ w => w) r.modelIndex
  types : Indexed r.workers workerType (fun id _ => id) r.typeWorkers
  connections : Indexed r.workers connectionMode (fun id _ => id) r.connectionWorkers
  rings : ∀ modelId, r.getHashRing modelId = (r.modelIndex.get? modelId).map (new blake3)
  urls : ∀ id w, r.get id = some w → r.urlToId.get? w.url = some id
  injective : ∀ url url' id, r.urlToId.get? url = some id → r.urlToId.get? url' = some id →
    url = url'
  fresh : ∀ url id, r.urlToId.get? url = some id → id < r.freshId

lemma Inv.agrees (h : Inv blake3 r) : r.Agrees := by
  refine ⟨h.models, h.types, h.connections, fun modelId url => ?_, h.urls⟩
  have hmem := (h.models modelId).2
  rw [h.rings modelId]
  constructor
  · rintro ⟨ring, hring, hurl⟩
    obtain ⟨workers, hworkers, rfl⟩ := map_eq_some_iff.mp hring
    obtain ⟨w, hw, rfl⟩ := (mem_urls_new blake3).mp hurl
    rw [list, hworkers] at hmem
    obtain ⟨id, _, hget, hmodel, rfl⟩ := (hmem w).mp hw
    exact ⟨id, _, hget, hmodel, rfl⟩
  · rintro ⟨id, w, hget, hmodel, rfl⟩
    have hw := (hmem w).mpr ⟨id, w, hget, hmodel, rfl⟩
    rw [list] at hw
    cases hworkers : r.modelIndex.get? modelId with
    | none =>
      rw [hworkers] at hw
      cases hw
    | some workers =>
      rw [hworkers] at hw
      exact ⟨_, rfl, (mem_urls_new blake3).mpr ⟨w, hw, rfl⟩⟩

lemma inv_empty : Inv blake3 {} :=
  ⟨fun _ => ⟨.nil, fun _ => ⟨nofun, nofun⟩⟩, fun _ => ⟨.nil, fun _ => ⟨nofun, nofun⟩⟩,
    fun _ => ⟨.nil, fun _ => ⟨nofun, nofun⟩⟩,
    fun _ => rfl, nofun, nofun, nofun⟩

/-! ### Steps -/

lemma rebuildHashRing_spec (blake3 : List UInt8 → UInt64) (r : WorkerRegistry) (modelId : String) :
    ∃ rings,
    r.rebuildHashRing blake3 modelId = {r with hashRings := rings} ∧
    ∀ modelId', rings.get? modelId' =
      if modelId' = modelId then (r.modelIndex.get? modelId).map (new blake3)
      else r.hashRings.get? modelId' := by
  unfold rebuildHashRing
  cases h : r.modelIndex.get? modelId with
  | none => exact ⟨_, rfl, fun _ => OrderedDict.get?_erase⟩
  | some workers => exact ⟨_, rfl, fun _ => OrderedDict.get?_set⟩

section
variable (h : Inv blake3 r)
include h

/-- The rings follow the model index when one model changes and its ring is rebuilt. -/
lemma Inv.rings_of_rebuilt {index : OrderedDict String (List Worker)}
    {rings : OrderedDict String HashRing}
    (hindex : ∀ modelId', modelId' ≠ modelId → index.get? modelId' = r.modelIndex.get? modelId')
    (hrings : ∀ modelId', rings.get? modelId' =
      if modelId' = modelId then (index.get? modelId).map (new blake3)
      else r.hashRings.get? modelId')
    (modelId' : String) : rings.get? modelId' = (index.get? modelId').map (new blake3) := by
  rw [hrings]
  split
  · next heq => rw [heq]
  · next hne =>
    rw [hindex _ hne]
    exact h.rings modelId'

lemma Inv.get_idFor (hurl : r.getByUrl url = none) : r.get (r.idFor url) = none := by
  unfold getByUrl at hurl
  unfold idFor
  cases hid : r.urlToId.get? url with
  | some id =>
    rw [hid] at hurl
    exact hurl
  | none =>
    rw [getD_none, eq_none_iff_forall_ne_some]
    intro w hw
    exact absurd (h.fresh _ _ (h.urls _ _ hw)) (lt_irrefl _)

lemma Inv.idFor_injective {url' : String} (hurl' : r.urlToId.get? url' = some (r.idFor url)) :
    url' = url := by
  unfold idFor at hurl'
  cases hid : r.urlToId.get? url with
  | some id =>
    rw [hid] at hurl'
    exact h.injective _ _ _ hurl' hid
  | none =>
    rw [hid, getD_none] at hurl'
    exact absurd (h.fresh _ _ hurl') (lt_irrefl _)

lemma Inv.urlToId_set (url : String) :
    (∀ u u' id, (r.urlToId.set url (r.idFor url)).get? u = some id →
    (r.urlToId.set url (r.idFor url)).get? u' = some id → u = u') ∧
    ∀ u id, (r.urlToId.set url (r.idFor url)).get? u = some id → id < max r.freshId
    (r.idFor url + 1) := by
  constructor
  · intro u u' id hu hu'
    rw [OrderedDict.get?_set] at hu hu'
    split at hu <;> split at hu'
    · next hu1 hu2 => exact hu1.trans hu2.symm
    · next hu1 _ =>
      rw [hu1, h.idFor_injective (hu'.trans hu.symm)]
    · next _ hu1 =>
      rw [hu1, h.idFor_injective (hu.trans hu'.symm)]
    · exact h.injective u u' id hu hu'
  · intro u id hu
    rw [OrderedDict.get?_set] at hu
    split at hu
    · exact some.inj hu ▸ lt_of_lt_of_le (Nat.lt_succ_self _) (le_max_right _ _)
    · exact lt_of_lt_of_le (h.fresh u id hu) (le_max_left _ _)

lemma Inv.register (hurl : r.getByUrl worker.url = none) :
    Inv blake3 (r.register blake3 worker).1 := by
  have hnew := h.get_idFor hurl
  -- no worker has the URL
  have hworker : ∀ id w, r.get id = some w → w ≠ worker := by
    rintro id w hget rfl
    rw [getByUrl, h.urls id w hget] at hurl
    cases hget.symm.trans hurl
  have hid : ∀ id w, r.get id = some w → id ≠ r.idFor worker.url := by
    rintro id w hget rfl
    cases hget.symm.trans hnew
  obtain ⟨hinjective, hfresh⟩ := h.urlToId_set worker.url
  unfold WorkerRegistry.register
  simp only
  obtain ⟨rings, heq, hrings⟩ := rebuildHashRing_spec blake3 { r with
    workers := r.workers.set (r.idFor worker.url) worker
    urlToId := r.urlToId.set worker.url (r.idFor worker.url)
    modelIndex := r.modelIndex.push worker.modelId worker
    freshId := max r.freshId (r.idFor worker.url + 1) } worker.modelId
  rw [heq]
  refine ⟨h.models.push hnew hworker, h.types.push hnew hid, h.connections.push hnew hid,
    h.rings_of_rebuilt (fun m hm => ?_) hrings, fun id w hget => ?_, hinjective, hfresh⟩
  · exact OrderedDict.get?_set.trans (if_neg hm)
  · rw [get, OrderedDict.get?_set] at hget
    rw [OrderedDict.get?_set]
    split at hget
    · next hid' =>
      cases hget
      rw [if_pos rfl, hid']
    · have hw := h.urls id w hget
      rw [if_neg, hw]
      intro heq
      rw [getByUrl, ← heq, hw] at hurl
      cases hget.symm.trans hurl

lemma Inv.not_agrees_register (hurl : r.getByUrl worker.url ≠ none) :
    ¬(r.register blake3 worker).1.Agrees := by
  obtain ⟨old, hold⟩ := ne_none_iff_exists'.mp hurl
  obtain ⟨id, hid, hget⟩ := bind_eq_some_iff.mp hold
  have hidFor : r.idFor worker.url = id := by rw [idFor, hid, getD_some]
  intro hagrees
  have htypes := hagrees.types
  unfold WorkerRegistry.register at htypes
  simp only at htypes
  obtain ⟨rings, heq, _⟩ := rebuildHashRing_spec blake3 { r with
    workers := r.workers.set (r.idFor worker.url) worker
    urlToId := r.urlToId.set worker.url (r.idFor worker.url)
    modelIndex := r.modelIndex.push worker.modelId worker
    freshId := max r.freshId (r.idFor worker.url + 1) } worker.modelId
  rw [heq, hidFor] at htypes
  exact h.types.not_push_of_some hget htypes

lemma Inv.reserveIdForUrl (url : String) : Inv blake3 (r.reserveIdForUrl url).1 := by
  obtain ⟨hinjective, hfresh⟩ := h.urlToId_set url
  refine ⟨h.models, h.types, h.connections, h.rings, fun id w hget => ?_, hinjective, hfresh⟩
  have hw := h.urls id w hget
  show (r.urlToId.set url (r.idFor url)).get? w.url = some id
  rw [OrderedDict.get?_set]
  split
  · next heq => rw [idFor, ← heq, hw, getD_some]
  · exact hw

/-- A worker is taken out of the indexes; its URL may be unknown already. -/
lemma Inv.remove_of_erased (hget : r.get workerId = some worker)
    {urlToId : OrderedDict String WorkerId}
    (herased : urlToId.erase worker.url = r.urlToId.erase worker.url) :
    Inv blake3 ({r with urlToId := urlToId}.remove blake3 workerId).1 := by
  unfold WorkerRegistry.remove
  simp only [show r.workers.get? workerId = some worker from hget, herased]
  obtain ⟨rings, heq, hrings⟩ := rebuildHashRing_spec blake3 { r with
    workers := r.workers.erase workerId
    urlToId := r.urlToId.erase worker.url
    modelIndex :=
      r.modelIndex.retain worker.modelId fun w => decide (w.url ≠ worker.url) } worker.modelId
  rw [heq]
  -- the worker is the only one with its URL
  have hurl : ∀ id w, r.get id = some w → (w.url ≠ worker.url ↔ id ≠ workerId) := by
    intro id w hget'
    refine not_congr ⟨fun heq => ?_, fun heq => ?_⟩
    · have hw := h.urls id w hget'
      rw [heq, h.urls workerId worker hget] at hw
      exact (some.inj hw).symm
    · subst heq
      rw [some.inj (hget.symm.trans hget')]
  refine ⟨h.models.retain hget fun id w hget' _ => ?_, h.types.retain hget fun id w hget' _ => ?_,
    h.connections.retain hget fun id w hget' _ => ?_, h.rings_of_rebuilt (fun m hm => ?_) hrings,
    fun id w hget' => ?_,
    fun u u' id hu hu' => ?_, fun u id hu => ?_⟩
  · exact decide_eq_true_iff.trans (hurl id w hget')
  · exact decide_eq_true_iff
  · exact decide_eq_true_iff
  · exact OrderedDict.get?_retain_of_ne hm
  · obtain ⟨hne, hget'⟩ := OrderedDict.get?_erase_eq_some.mp hget'
    exact OrderedDict.get?_erase_eq_some.mpr ⟨(hurl id w hget').mpr hne, h.urls id w hget'⟩
  · exact h.injective u u' id (OrderedDict.get?_erase_eq_some.mp hu).2
      (OrderedDict.get?_erase_eq_some.mp hu').2
  · exact h.fresh u id (OrderedDict.get?_erase_eq_some.mp hu).2

lemma Inv.remove (workerId : WorkerId) : Inv blake3 (r.remove blake3 workerId).1 := by
  cases hget : r.get workerId with
  | some worker => exact h.remove_of_erased hget rfl
  | none =>
    unfold WorkerRegistry.remove
    rw [show r.workers.get? workerId = none from hget]
    exact h

lemma Inv.removeByUrl (url : String) : Inv blake3 (r.removeByUrl blake3 url).1 := by
  unfold WorkerRegistry.removeByUrl
  cases hid : r.urlToId.get? url with
  | none => exact h
  | some workerId =>
    cases hget : r.get workerId with
    | some worker =>
      obtain rfl := h.injective _ _ _ hid (h.urls workerId worker hget)
      exact h.remove_of_erased hget (by simp [OrderedDict.erase])
    | none =>
      -- an id that was only reserved
      unfold WorkerRegistry.remove
      simp only [show r.workers.get? workerId = none from hget]
      refine ⟨h.models, h.types, h.connections, h.rings, fun id w hget' => ?_,
        fun u u' id hu hu' => ?_, fun u id hu => ?_⟩
      · have hw := h.urls id w hget'
        refine OrderedDict.get?_erase_eq_some.mpr ⟨?_, hw⟩
        rintro rfl
        cases hid.symm.trans hw
        cases hget.symm.trans hget'
      · exact h.injective u u' id (OrderedDict.get?_erase_eq_some.mp hu).2
          (OrderedDict.get?_erase_eq_some.mp hu').2
      · exact h.fresh u id (OrderedDict.get?_erase_eq_some.mp hu).2

end

/-! ### Histories -/

/-- No URL is registered that has a worker. -/
def Fresh (r : WorkerRegistry) : Op → Prop
  | .register worker => r.getByUrl worker.url = none
  | _ => True

def AllFresh (blake3 : List UInt8 → UInt64) : WorkerRegistry → List Op → Prop
  | _, [] => True
  | r, op :: ops => r.Fresh op ∧ AllFresh blake3 (r.step blake3 op) ops

lemma Inv.step (h : Inv blake3 r) {op : Op} (hfresh : r.Fresh op) :
    Inv blake3 (r.step blake3 op) := by
  cases op with
  | register worker => exact h.register hfresh
  | reserveIdForUrl url => exact h.reserveIdForUrl url
  | remove workerId => exact h.remove workerId
  | removeByUrl url => exact h.removeByUrl url

lemma Inv.fresh_of_agrees (h : Inv blake3 r) {op : Op} (hagrees : (r.step blake3 op).Agrees) :
    r.Fresh op := by
  cases op with
  | register worker =>
    by_contra hurl
    exact h.not_agrees_register hurl hagrees
  | _ => trivial

lemma Inv.agrees_iff (h : Inv blake3 r) (ops : List Op) :
    (∀ done, done <+: ops → (done.foldl (WorkerRegistry.step blake3) r).Agrees) ↔
    AllFresh blake3 r ops := by
  induction ops generalizing r with
  | nil =>
    refine ⟨fun _ => trivial, fun _ done hdone => ?_⟩
    rw [prefix_nil.mp hdone]
    exact h.agrees
  | cons op ops ih =>
    constructor
    · intro hall
      have hfresh := h.fresh_of_agrees (hall [op] (prefix_append [op] ops))
      refine ⟨hfresh, (ih (h.step hfresh)).mp fun done hdone => ?_⟩
      exact hall (op :: done) ((prefix_cons_inj op).mpr hdone)
    · rintro ⟨hfresh, hrest⟩ done hdone
      cases done with
      | nil => exact h.agrees
      | cons op' done =>
        obtain ⟨rfl, hrestDone⟩ := cons_prefix_cons.mp hdone
        exact (ih (h.step hfresh)).mpr hrest done hrestDone

/-- **The indexes of the registry.** In every state of a history the indexes describe the workers,
exactly if every registration in it is of a URL that has no worker then. -/
theorem indexes_agree_iff (blake3 : List UInt8 → UInt64) (ops : List Op) :
    (∀ done, done <+: ops → (runOps blake3 done).Agrees) ↔ AllFresh blake3 {} ops :=
  inv_empty.agrees_iff ops

/-- A worker, and the one its properties are updated to. -/
def firstWorker : Worker := ⟨0, "http://w1:8000", "model", .regular, .http⟩

def updatedWorker : Worker := {firstWorker with object := 1}

/-- After an update the model has the replaced worker too, and there are two regular workers out of
one. -/
theorem replaced_worker_stays :
    ¬(runOps (fun _ => 0) [.register firstWorker, .register updatedWorker]).Agrees ∧
      (runOps (fun _ => 0) [.register firstWorker, .register updatedWorker]).workers.items =
      [(0, updatedWorker)] ∧
      (runOps (fun _ => 0) [.register firstWorker, .register updatedWorker]).getByModel "model" =
      [firstWorker, updatedWorker] ∧
      (runOps (fun _ => 0) [.register firstWorker, .register updatedWorker]).getWorkerDistribution =
      (2, 0) := by
  refine ⟨fun h => ?_, by decide +kernel, by decide +kernel, by decide +kernel⟩
  exact absurd (h.types .regular).1 (by decide +kernel)

end WorkerRegistry

end Sglang.Gateway
