import Sglang.Lib.Runs
import Sglang.Lora.LoraManager

/-! Batches always fit, and their slots hold their adapters.

What has to stay within the slots is the set of adapters that are held (by the running batch, by the
request carried over and by loads in flight) together with the pinned adapters in the pool. A check
of the scheduler bounds it by counting every pinned adapter that is loaded. The check leaves out the
adapter of the request carried over, so a run keeps the bound if, whenever there is such a request,
its adapter is one of the running batch, or no waiting request brings in a further one, or all of
them fit. A load in flight must not outlive its adapter. -/
namespace Sglang.Lora

open List Option LoraManager

variable {m m' : LoraManager} {refs : List LoraRef} {held : Finset Uid}
  {arrange : List Uid → List Uid} {ref : LoraRef}

/-! ### The check -/

section Check

variable {uids : List Uid}

/-- The pinned adapters that are loaded. -/
def pinnedUids (refs : List LoraRef) : Finset Uid :=
  ((refs.filter (·.pinned)).map fun ref => some ref.loraId).toFinset

/-- The manager's count of pinned adapters is right. -/
structure LoraManager.Counted (m : LoraManager) : Prop where
  nodup : (m.refs.map (·.loraId)).Nodup
  pinned : m.numPinnedLoras = m.refs.countP (·.pinned)

lemma find?_of_mem (hnodup : (refs.map (·.loraId)).Nodup) (href : ref ∈ refs) :
    refs.find? (·.loraId = ref.loraId) = some ref := by
  induction refs with
  | nil => cases href
  | cons ref' refs ih =>
    rw [map_cons, nodup_cons] at hnodup
    rcases mem_cons.mp href with rfl | href
    · simp
    · have hne : ref'.loraId ≠ ref.loraId := fun heq => hnodup.1 (heq ▸ mem_map_of_mem href)
      simpa [hne] using ih hnodup.2 href

lemma mem_pinnedUids (hnodup : (refs.map (·.loraId)).Nodup) {uid : Uid} :
    uid ∈ pinnedUids refs ↔ isPinned refs uid = true := by
  simp only [pinnedUids, List.mem_toFinset, List.mem_map, List.mem_filter]
  constructor
  · rintro ⟨ref, ⟨href, hpinned⟩, rfl⟩
    simpa [isPinned, find?_of_mem hnodup href] using hpinned
  · intro hpinned
    cases uid with
    | none => simp [isPinned] at hpinned
    | some id =>
      cases hfind : refs.find? (·.loraId = id) with
      | none => simp [isPinned, hfind] at hpinned
      | some ref =>
        have hid : ref.loraId = id := by simpa using find?_some hfind
        exact ⟨ref, ⟨List.mem_of_find?_eq_some hfind, by simpa [isPinned, hfind] using hpinned⟩,
          by rw [hid]⟩

lemma LoraManager.Counted.card_pinnedUids (h : m.Counted) :
    (pinnedUids m.refs).card = m.numPinnedLoras := by
  have hnodup : ((m.refs.filter (·.pinned)).map fun ref => some ref.loraId).Nodup := by
    have hids : ((m.refs.filter (·.pinned)).map (·.loraId)).Nodup :=
      h.nodup.sublist (filter_sublist.map _)
    simpa [Function.comp_def] using hids.map (some_injective _)
  rw [pinnedUids, toFinset_card_of_nodup hnodup, length_map, h.pinned, countP_eq_length_filter]

lemma pinnedLorasInBatch_eq (hloaded : ∀ uid ∈ uids, isLoaded refs uid = true) :
    pinnedLorasInBatch refs uids = .ok (uids.countP (isPinned refs ·)) := by
  induction uids with
  | nil => rfl
  | cons uid uids ih =>
    have hrest := ih fun uid' huid' => hloaded uid' (mem_cons_of_mem _ huid')
    cases uid with
    | none => simp [pinnedLorasInBatch, hrest, isPinned]
    | some id =>
      have hid : (refs.find? (·.loraId = id)).isSome := by
        simpa [isLoaded] using hloaded (some id) mem_cons_self
      obtain ⟨ref, hfind⟩ := isSome_iff_exists.mp hid
      cases hpinned :
        ref.pinned <;> simp [pinnedLorasInBatch, hrest, isPinned, hfind, hpinned, Except.map]

lemma card_union_pinnedUids (h : m.Counted) (hnodup : uids.Nodup) :
    (uids.toFinset ∪ pinnedUids m.refs).card + uids.countP
    (isPinned m.refs ·) = uids.length + m.numPinnedLoras := by
  have hinter : uids.toFinset ∩ pinnedUids m.refs = (uids.filter (isPinned m.refs ·)).toFinset := by
    ext uid
    simp [mem_pinnedUids h.nodup]
  have hcard := Finset.card_union_add_card_inter uids.toFinset (pinnedUids m.refs)
  rwa [hinter, toFinset_card_of_nodup (hnodup.filter _), ← countP_eq_length_filter,
    h.card_pinnedUids,
    toFinset_card_of_nodup hnodup] at hcard

/-- The check does not fail, and what passes it fits beside all pinned adapters. -/
lemma LoraManager.Counted.validateLoraBatch (h : m.Counted) (hnodup : uids.Nodup)
    (hloaded : ∀ uid ∈ uids, isLoaded m.refs uid = true) :
    ∃ fits, m.validateLoraBatch uids = .ok fits ∧
    (fits = true ↔ (uids.toFinset ∪ pinnedUids m.refs).card ≤ m.maxLorasPerBatch) := by
  have hcard := card_union_pinnedUids h hnodup
  have hpinned : uids.countP (isPinned m.refs ·) ≤ m.numPinnedLoras := by
    have hsub : uids.toFinset ⊆ uids.toFinset ∪ pinnedUids m.refs := Finset.subset_union_left
    have hle := Finset.card_le_card hsub
    rw [toFinset_card_of_nodup hnodup] at hle
    omega
  have hlen : uids.countP (isPinned m.refs ·) ≤ uids.length := countP_le_length
  unfold LoraManager.validateLoraBatch
  split
  · exact ⟨false, rfl, by simp; omega⟩
  split
  · exact ⟨true, rfl, by simp; omega⟩
  rw [pinnedLorasInBatch_eq hloaded]
  simp only [if_neg (not_lt.mpr hpinned)]
  refine ⟨_, rfl, ?_⟩
  rw [decide_eq_true_iff]
  omega

end Check

/-! ### Bringing adapters in -/

/-- What `fetch_new_loras` does for a set of adapters. -/
structure Fetched (m m' : LoraManager) (curUids : Finset Uid) : Prop where
  refs : m'.refs = m.refs
  pinned : m'.numPinnedLoras = m.numPinnedLoras
  max : m'.maxLorasPerBatch = m.maxLorasPerBatch
  valid : m'.pool.Valid
  loaded : ∀ uid ∈ curUids, uid ∈ m'.pool.residents
  subset : ∀ uid ∈ m'.pool.residents, uid ∈ m.pool.residents ∨ uid ∈ curUids
  stays : ∀ uid ∈ m.pool.residents, uid ∈ curUids ∨ isPinned m.refs uid = true ∨
    (m.pool.residents ∪ curUids).card ≤ m.maxLorasPerBatch → uid ∈ m'.pool.residents

lemma fits_mono {pool : LoraMemoryPool} {held' : Finset Uid} (h : pool.Fits refs held')
    (hsub : held ⊆ held') :
    pool.Fits refs held := (Finset.card_le_card (Finset.union_subset_union_left hsub)).trans h

lemma fits_of_check {pool : LoraMemoryPool} (hnodup : (refs.map (·.loraId)).Nodup)
    (h : (held ∪ pinnedUids refs).card ≤ pool.maxLorasPerBatch) : pool.Fits refs held := by
  refine (Finset.card_le_card (Finset.union_subset_union_right ?_)).trans h
  intro uid huid
  exact (mem_pinnedUids hnodup).mpr (Finset.mem_filter.mp huid).2

lemma Fetched.fits {curUids : Finset Uid} (h : Fetched m m' curUids)
    (hfits : m.pool.Fits m.refs held) (hsub : curUids ⊆ held) :
    m'.pool.Fits m'.refs held := by
  refine le_of_le_of_eq ((Finset.card_le_card ?_).trans hfits) h.max.symm
  intro uid huid
  rcases Finset.mem_union.mp huid with hmem | hmem
  · exact Finset.mem_union_left _ hmem
  · obtain ⟨hres, hpinned⟩ := Finset.mem_filter.mp hmem
    rcases h.subset uid hres with hold | hnew
    · exact Finset.mem_union_right _ (Finset.mem_filter.mpr ⟨hold, h.refs ▸ hpinned⟩)
    · exact Finset.mem_union_left _ (hsub hnew)

lemma fetchNewLoras_ok (harrange : ∀ l, (arrange l).Perm l) (hvalid : m.pool.Valid)
    {newLoras runningLoras : List Uid}
    (hfits : m.pool.Fits m.refs (newLoras ++ runningLoras).toFinset)
    (hloaded : ∀ uid ∈ newLoras ++ runningLoras, isLoaded m.refs uid = true) :
    ∃ m', m.fetchNewLoras arrange newLoras runningLoras = .ok m' ∧ Fetched m m'
    (newLoras ++ runningLoras).toFinset := by
  have hperm := harrange (newLoras ++ runningLoras).dedup
  have hmem : ∀ uid, uid ∈ arrange (newLoras ++ runningLoras).dedup ↔
    uid ∈ newLoras ++ runningLoras := fun uid => by
    rw [hperm.mem_iff, mem_dedup]
  have hset : (arrange (newLoras ++ runningLoras).dedup).toFinset =
      (newLoras ++ runningLoras).toFinset := by
    ext uid
    rw [List.mem_toFinset, List.mem_toFinset, hmem]
  have hlen : ¬ m.maxLorasPerBatch < (newLoras ++ runningLoras).dedup.length := by
    rw [not_lt, ← List.card_toFinset]
    exact (Finset.card_le_card Finset.subset_union_left).trans hfits
  obtain ⟨pool, hprepare, h⟩ :=
    hvalid.prepareLoraBatch (hset.symm ▸ hfits) fun uid huid _ => hloaded uid ((hmem uid).mp huid)
  refine ⟨{ m with pool := pool }, ?_, rfl, rfl, h.max, h.valid, fun uid huid => h.loaded uid ?_,
    fun uid huid => ?_, fun uid huid hkeep => ?_⟩
  · simp only [fetchNewLoras, if_neg hlen, hprepare]
  · rwa [hmem, ← List.mem_toFinset]
  · exact (h.subset uid huid).imp_right fun hnew => by rwa [List.mem_toFinset, ← hmem]
  · refine h.stays uid huid (hkeep.imp (fun hcur => ?_) (·.imp_right fun hroom => ?_))
    · rwa [hmem, ← List.mem_toFinset]
    · rwa [hset]

lemma prepareLoraBatch_ok (hvalid : m.pool.Valid) {uids : List Uid}
    (hres : ∀ uid ∈ uids, uid ∈ m.pool.residents)
    (hloaded : ∀ uid ∈ uids, isLoaded m.refs uid = true) :
    m.prepareLoraBatch uids = .ok (uids.map fun uid => (uid, some uid)) := by
  induction uids with
  | nil => rfl
  | cons uid uids ih =>
    obtain ⟨b, hb⟩ := isSome_iff_exists.mp (hvalid.mem_residents.mp (hres uid mem_cons_self))
    have hrest :=
      ih (fun uid' h => hres uid' (mem_cons_of_mem _ h)) fun uid' h =>
      hloaded uid' (mem_cons_of_mem _ h)
    simp [prepareLoraBatch, hb, hloaded uid mem_cons_self, hrest, hvalid.weights uid b hb,
      Except.map]

/-! ### The invariant -/

namespace LoraScheduler

section
variable (s : LoraScheduler)

/-- The adapter of the request carried over. -/
def chunkUids : List Uid := s.chunkedReq.toList.map (·.loraId)

/-- The adapters that must not be displaced. -/
def heldUids : List Uid := s.runningBatch.map (·.loraId) ++ s.chunkUids ++ s.loadEvents

structure Inv (s : LoraScheduler) : Prop where
  counted : s.manager.Counted
  valid : s.manager.pool.Valid
  loaded : ∀ req ∈ s.present, isLoaded s.manager.refs req.loraId = true
  loading : ∀ uid ∈ s.loadEvents, isLoaded s.manager.refs uid = true
  fits : s.manager.pool.Fits s.manager.refs s.heldUids.toFinset
  resident : s.enableLoraOverlapLoading = true → ∀ uid ∈ s.heldUids, uid ∈ s.manager.pool.residents
  quiet : s.enableLoraOverlapLoading = false → s.loadEvents = []
  runFits : (s.lastRun.map (·.1)).dedup.length ≤ s.manager.maxLorasPerBatch
  runHolds : ∀ slot ∈ s.lastRun, slot.2 = some slot.1

/-- There are free slots for all adapters that the waiting requests lack. -/
def Room : Prop :=
  (s.manager.pool.residents ∪ (s.waitingQueue.map (·.loraId)).toFinset).card ≤
    s.manager.maxLorasPerBatch

/-- The request carried over does not make the check of the others wrong. -/
def ChunkCounted : Prop :=
  ∀ chunked, s.chunkedReq = some chunked → chunked.loraId ∈ s.runningBatch.map (·.loraId) ∨
    (∀ req ∈ s.waitingQueue, req.loraId ∈ s.runningBatch.map (·.loraId) ∨
    req.loraId = chunked.loraId) ∨
    s.enableLoraOverlapLoading = false ∧ s.manager.validateLoraBatch
      (chunked.loraId :: (s.runningBatch ++ s.waitingQueue).map (·.loraId)).dedup = .ok true ∨
    s.enableLoraOverlapLoading = true ∧ s.Room

/-- The steps in which the adapters are counted as they are used. -/
def Tame : Event → Prop
  | .unload ref =>
    some ref.loraId ∉ s.loadEvents ∧ ∀ req ∈ s.runningBatch, req.loraId ≠ some ref.loraId
  | .prefill _ _ _ _ => s.ChunkCounted
  | _ => True

end

/-- What a pass keeps. -/
structure PassOk (s : LoraScheduler) (p : Pass) : Prop where
  refs : p.manager.refs = s.manager.refs
  pinned : p.manager.numPinnedLoras = s.manager.numPinnedLoras
  max : p.manager.maxLorasPerBatch = s.manager.maxLorasPerBatch
  valid : p.manager.pool.Valid
  loading : ∀ uid ∈ p.loadEvents, isLoaded s.manager.refs uid = true
  fits : p.manager.pool.Fits s.manager.refs (p.runningLoras ++ s.chunkUids ++ p.loadEvents).toFinset
  resident : s.enableLoraOverlapLoading = true →
    ∀ uid ∈ p.runningLoras ++ s.chunkUids ++ p.loadEvents, uid ∈ p.manager.pool.residents
  quiet : s.enableLoraOverlapLoading = false → p.loadEvents = []
  nodup : p.runningLoras.Nodup
  running : ∀ uid ∈ s.runningBatch.map (·.loraId), uid ∈ p.runningLoras
  source : ∀ uid ∈ p.runningLoras, uid ∈ (s.runningBatch ++ s.waitingQueue).map (·.loraId)
  chosen : ∀ req ∈ p.canRunList, req ∈ s.waitingQueue ∧ req.loraId ∈ p.runningLoras ∨
    s.chunkedReq = some req
  newChunk : ∀ req, p.newChunkedReq = some req → req ∈ s.waitingQueue ∧ req.loraId ∈ p.runningLoras
  stays : ∀ uid ∈ s.manager.pool.residents, isPinned s.manager.refs uid = true →
    uid ∈ p.manager.pool.residents
  subset : ∀ uid ∈ p.manager.pool.residents, uid ∈ s.manager.pool.residents ∨
    uid ∈ s.waitingQueue.map (·.loraId)

section Step

variable {s : LoraScheduler} {p : Pass} {done : Uid → Bool}

section
variable (h : s.PassOk p)
include h

lemma PassOk.counted (hinv : s.Inv) : p.manager.Counted :=
  ⟨h.refs ▸ hinv.counted.nodup, by rw [h.pinned, h.refs, hinv.counted.pinned]⟩

variable {uid : Uid}

omit h in
lemma Inv.loaded_of_source (h : s.Inv)
    (huid : uid ∈ (s.runningBatch ++ s.waitingQueue).map (·.loraId)) :
    isLoaded s.manager.refs uid = true := by
  obtain ⟨req, hreq, rfl⟩ := mem_map.mp huid
  refine h.loaded req ?_
  simp only [present, mem_append] at hreq ⊢
  exact .inl hreq.symm

/-- What is known once a request has passed the check. -/
structure Passed (s : LoraScheduler) (p : Pass) (uid : Uid) : Prop where
  fits :
    p.manager.pool.Fits s.manager.refs
    (uid :: (p.runningLoras ++ s.chunkUids ++ p.loadEvents)).toFinset
  resident : s.enableLoraOverlapLoading = true → uid ∈ p.manager.pool.residents

lemma PassOk.passed_of_mem (huid : uid ∈ p.runningLoras) : Passed s p uid := by
  refine ⟨fits_mono h.fits ?_, fun hoverlap => h.resident hoverlap uid (by simp [huid])⟩
  intro uid' huid'
  rw [List.mem_toFinset, List.mem_cons] at huid'
  rw [List.mem_toFinset]
  rcases huid' with rfl | huid'
  · simp [huid]
  · exact huid'

variable {req : Req}

omit h in
lemma PassOk.source_of_waiting (hreq : req ∈ s.waitingQueue) :
    req.loraId ∈ (s.runningBatch ++ s.waitingQueue).map (·.loraId) :=
  mem_map_of_mem (mem_append_right _ hreq)

section
variable (hchunk : s.ChunkCounted) (hreq : req ∈ s.waitingQueue)
  (hnew : req.loraId ∉ p.runningLoras)
include hchunk hreq hnew

/-- For a new adapter, the one of the request carried over is counted, or everything fits. -/
lemma PassOk.chunk_cases : (∀ uid ∈ s.chunkUids, uid ∈ req.loraId :: p.runningLoras) ∨
    s.enableLoraOverlapLoading = false ∧ s.manager.validateLoraBatch
      (s.chunkUids ++ (s.runningBatch ++ s.waitingQueue).map (·.loraId)).dedup = .ok true ∨
    s.enableLoraOverlapLoading = true ∧ s.Room := by
  unfold chunkUids
  cases hc : s.chunkedReq with
  | none => exact .inl nofun
  | some chunked =>
    simp only [toList_some, map_singleton, forall_mem_singleton]
    rcases hchunk chunked hc with hrunning | hwaiting | hall
    · exact .inl (mem_cons_of_mem _ (h.running _ hrunning))
    · rcases hwaiting req hreq with hrunning | heq
      · exact absurd (h.running _ hrunning) hnew
      · exact .inl (heq ▸ mem_cons_self)
    · exact .inr hall

lemma PassOk.validate (hinv : s.Inv) (hoverlap : s.enableLoraOverlapLoading = false) :
    ∃ fits, p.manager.validateLoraBatch (req.loraId :: p.runningLoras) = .ok fits ∧
    (fits = true → Passed s p req.loraId) := by
  have hsource := PassOk.source_of_waiting hreq
  obtain ⟨fits, heq, hiff⟩ :=
    (h.counted hinv).validateLoraBatch (nodup_cons.mpr ⟨hnew, h.nodup⟩) (fun uid huid => by
    rw [h.refs]
    rcases mem_cons.mp huid with rfl | huid
    · exact hinv.loaded_of_source hsource
    · exact hinv.loaded_of_source (h.source uid huid))
  refine ⟨fits, heq, fun hfits => ⟨?_, fun htrue => absurd (hoverlap.symm.trans htrue) (by simp)⟩⟩
  rw [h.refs] at hiff
  rw [h.quiet hoverlap, append_nil]
  rcases h.chunk_cases hchunk hreq hnew with hcounted | ⟨-, hall⟩ | ⟨htrue, -⟩
  · refine fits_mono (fits_of_check hinv.counted.nodup (hiff.mp hfits)) fun uid huid => ?_
    rw [List.mem_toFinset] at huid ⊢
    rcases mem_cons.mp huid with rfl | huid
    · exact mem_cons_self
    · rcases mem_append.mp huid with huid | huid
      · exact mem_cons_of_mem _ huid
      · exact hcounted uid huid
  · obtain ⟨fits', heq', hiff'⟩ := hinv.counted.validateLoraBatch
      (nodup_dedup (s.chunkUids ++ (s.runningBatch ++ s.waitingQueue).map (·.loraId)))
        (fun uid huid => by
        rcases mem_append.mp (mem_dedup.mp huid) with huid | huid
        · obtain ⟨req', hreq', rfl⟩ := mem_map.mp huid
          exact hinv.loaded req' (mem_append_right _ hreq')
        · exact hinv.loaded_of_source huid)
    cases hall.symm.trans heq'
    refine fits_mono (fits_of_check hinv.counted.nodup (le_of_le_of_eq (hiff'.mp rfl) h.max.symm))
      fun uid huid => ?_
    rw [List.mem_toFinset] at huid ⊢
    rw [mem_dedup, mem_append]
    rcases mem_cons.mp huid with rfl | huid
    · exact .inr hsource
    · rcases mem_append.mp huid with huid | huid
      · exact .inr (h.source uid huid)
      · exact .inl huid
  · cases hoverlap.symm.trans htrue

/-- With overlapped loading, what is held is in the pool after an adapter has been brought in, the
adapter of the request carried over included. -/
lemma PassOk.resident_fetched (hoverlap : s.enableLoraOverlapLoading = true) {toLoad : List Uid}
    (htoLoad : ∀ uid, uid ∈ toLoad ↔ uid ∈ p.runningLoras ∨ uid ∈ p.loadEvents)
    (hm : Fetched p.manager m ([req.loraId] ++ toLoad).toFinset) :
    ∀ uid ∈ p.runningLoras ++ s.chunkUids ++ (p.loadEvents ++ [req.loraId]),
    uid ∈ m.pool.residents := by
  have hcur : ∀ uid, uid = req.loraId ∨ uid ∈ p.runningLoras ∨ uid ∈ p.loadEvents →
      uid ∈ m.pool.residents :=
    fun uid huid => hm.loaded uid (mem_toFinset.mpr (by simpa [htoLoad] using huid))
  intro uid huid
  simp only [mem_append, mem_singleton] at huid
  rcases huid with (huid | huid) | huid | huid
  · exact hcur uid (.inr (.inl huid))
  · rcases h.chunk_cases hchunk hreq hnew with hcounted | ⟨hfalse, -⟩ | ⟨-, hroom⟩
    · exact hcur uid ((mem_cons.mp (hcounted uid huid)).imp_right .inl)
    · cases hfalse.symm.trans hoverlap
    · have hres := h.resident hoverlap
      refine hm.stays uid (hres uid (by simp [huid])) (.inr (.inr (le_of_le_of_eq ?_ h.max.symm)))
      refine (Finset.card_le_card (Finset.union_subset (fun uid' huid' => ?_)
        fun uid' huid' => ?_)).trans hroom
      · simpa using h.subset uid' huid'
      · simp only [List.mem_toFinset, mem_append, mem_singleton, htoLoad] at huid'
        rcases huid' with rfl | huid'
        · exact Finset.mem_union_right _ (mem_toFinset.mpr (mem_map_of_mem hreq))
        · have hmem := hres uid'
            (huid'.elim (fun huid' => mem_append_left _ (mem_append_left _ huid'))
              (mem_append_right _))
          simpa using h.subset uid' hmem
  · exact hcur uid (.inr (.inr huid))
  · exact hcur uid (.inl huid)

lemma PassOk.tryOverlapLoadLora (hinv : s.Inv) (harrange : ∀ l, (arrange l).Perm l)
    (hoverlap : s.enableLoraOverlapLoading = true) :
    ∃ m loadEvents loaded,
    tryOverlapLoadLora arrange done p.manager p.loadEvents req.loraId p.runningLoras =
    .ok (m, loadEvents, loaded) ∧
      s.PassOk { p with manager := m, loadEvents := loadEvents } ∧
      (loaded = true → Passed s { p with manager := m, loadEvents := loadEvents } req.loraId) := by
  unfold Sglang.Lora.tryOverlapLoadLora
  by_cases hloading : req.loraId ∈ p.loadEvents
  · rw [if_pos hloading]
    by_cases hdone : done req.loraId = true
    · rw [if_pos hdone]
      have hsub : p.loadEvents.erase req.loraId ⊆ p.loadEvents := erase_subset
      have hheld :
        ∀ uid ∈ req.loraId :: (p.runningLoras ++ s.chunkUids ++ p.loadEvents.erase req.loraId),
          uid ∈ p.runningLoras ++ s.chunkUids ++ p.loadEvents := by
        intro uid huid
        rcases mem_cons.mp huid with rfl | huid
        · exact mem_append_right _ hloading
        · exact (mem_append.mp huid).elim (mem_append_left _) fun huid =>
            mem_append_right _ (hsub huid)
      have hfits : p.manager.pool.Fits s.manager.refs
          (req.loraId :: (p.runningLoras ++ s.chunkUids ++ p.loadEvents.erase req.loraId)).toFinset :=
        fits_mono h.fits fun uid huid => mem_toFinset.mpr (hheld uid (mem_toFinset.mp huid))
      refine ⟨_, _, _, rfl, { h with
        loading := fun uid huid => h.loading uid (hsub huid)
        fits := fits_mono hfits fun uid huid => by
          rw [List.mem_toFinset] at huid ⊢
          exact mem_cons_of_mem _ huid
        resident := fun ho uid huid => h.resident ho uid (hheld uid (mem_cons_of_mem _ huid))
        quiet :=
          fun ho => absurd (ho.symm.trans hoverlap) (by simp) }, fun _ => ⟨hfits, fun ho => ?_⟩⟩
      exact h.resident ho _ (mem_append_right _ hloading)
    · rw [if_neg hdone]
      exact ⟨_, _, _, rfl, h, nofun⟩
  rw [if_neg hloading]
  set toLoad := (p.runningLoras ++ p.loadEvents).dedup with htoLoad
  have hmemLoad : ∀ uid, uid ∈ toLoad ↔ uid ∈ p.runningLoras ∨ uid ∈ p.loadEvents := fun uid => by
    rw [htoLoad, mem_dedup, mem_append]
  have hisLoaded : ∀ uid ∈ req.loraId :: toLoad, isLoaded s.manager.refs uid = true := by
    intro uid huid
    rcases mem_cons.mp huid with rfl | huid
    · exact hinv.loaded_of_source (PassOk.source_of_waiting hreq)
    · exact ((hmemLoad uid).mp huid).elim (fun hmem => hinv.loaded_of_source (h.source uid hmem))
        (h.loading uid)
  obtain ⟨fits, heq, hiff⟩ :=
    (h.counted hinv).validateLoraBatch (nodup_dedup (req.loraId :: toLoad))
    (fun uid huid => h.refs.symm ▸ hisLoaded uid (mem_dedup.mp huid))
  simp only [heq]
  cases fits with
  | false => exact ⟨_, _, _, rfl, h, nofun⟩
  | true =>
    have hfits : p.manager.pool.Fits p.manager.refs ([req.loraId] ++ toLoad).toFinset := by
      rw [h.refs]
      refine fits_mono (fits_of_check hinv.counted.nodup (h.refs ▸ hiff.mp rfl)) fun uid huid => ?_
      rw [List.mem_toFinset, List.mem_dedup]
      exact mem_toFinset.mp huid
    obtain ⟨m, hfetch, hm⟩ :=
      fetchNewLoras_ok harrange h.valid hfits fun uid huid => h.refs.symm ▸ hisLoaded uid huid
    simp only [hfetch]
    have hres := h.resident_fetched hchunk hreq hnew hoverlap hmemLoad hm
    refine ⟨_, _, _, rfl, { h with
      refs := hm.refs.trans h.refs
      pinned := hm.pinned.trans h.pinned
      max := hm.max.trans h.max
      valid := hm.valid
      loading := fun uid huid => ?_
      fits := hm.valid.fits_of_resident fun uid huid => hres uid (mem_toFinset.mp huid)
      resident := fun _ => hres
      quiet := fun ho => absurd (ho.symm.trans hoverlap) (by simp)
      stays := fun uid huid hpinned => hm.stays uid (h.stays uid huid hpinned)
        (.inr (.inl (h.refs.symm ▸ hpinned)))
      subset := fun uid huid => ?_ }, nofun⟩
    · rcases mem_append.mp huid with huid | huid
      · exact h.loading uid huid
      · exact hisLoaded uid (mem_singleton.mp huid ▸ mem_cons_self)
    · rcases hm.subset uid huid with hold | hnew
      · exact h.subset uid hold
      · simp only [List.mem_toFinset, mem_append, mem_singleton, hmemLoad] at hnew
        rcases hnew with rfl | hnew
        · exact .inr (mem_map_of_mem hreq)
        · refine h.subset uid (h.resident hoverlap uid ?_)
          exact hnew.elim (fun hnew => mem_append_left _ (mem_append_left _ hnew))
            (mem_append_right _)

end

lemma PassOk.checkLora (hinv : s.Inv) (hchunk : s.ChunkCounted) (harrange : ∀ l, (arrange l).Perm l)
    (hreq : req ∈ s.waitingQueue) :
    ∃ p' passed, p.checkLora arrange done s.enableLoraOverlapLoading req.loraId = .ok (p', passed) ∧
    s.PassOk p' ∧
      (passed = true → Passed s p' req.loraId) := by
  unfold Pass.checkLora
  by_cases hmem : req.loraId ∈ p.runningLoras
  · exact ⟨p, true, if_pos hmem, h, fun _ => h.passed_of_mem hmem⟩
  rw [if_neg hmem]
  cases hoverlap : s.enableLoraOverlapLoading with
  | true =>
    obtain ⟨m, loadEvents, loaded, heq, hok, hpassed⟩ :=
      h.tryOverlapLoadLora hchunk hreq hmem hinv harrange hoverlap
    exact ⟨_, loaded, by rw [if_pos rfl, heq]; rfl, hok, hpassed⟩
  | false =>
    obtain ⟨fits, heq, hpassed⟩ := h.validate hchunk hreq hmem hinv hoverlap
    exact ⟨p, fits, by rw [if_neg (by simp), heq]; rfl, h, hpassed⟩

omit h in
lemma mem_count {uid uid' : Uid} : uid' ∈ (p.count uid).runningLoras ↔
    uid' ∈ p.runningLoras ∨ uid' = uid := by
  unfold Pass.count
  split
  · rename_i hmem
    exact ⟨.inl, fun h => h.elim (·) fun heq => heq ▸ hmem⟩
  · simp

lemma PassOk.count (hpassed : Passed s p uid)
    (hsource : uid ∈ (s.runningBatch ++ s.waitingQueue).map (·.loraId)) :
    s.PassOk (p.count uid) := by
  have hheld : ∀ uid', uid' ∈ (p.count uid).runningLoras ++ s.chunkUids ++ p.loadEvents →
      uid' ∈ uid :: (p.runningLoras ++ s.chunkUids ++ p.loadEvents) := by
    intro uid' huid'
    simp only [mem_append, mem_count, mem_cons] at huid' ⊢
    tauto
  refine { h with
    fits :=
      fits_mono hpassed.fits fun uid' huid' => mem_toFinset.mpr (hheld uid' (mem_toFinset.mp huid'))
    resident := fun ho uid' huid' => ?_
    nodup := ?_
    running := fun uid' huid' => mem_count.mpr (.inl (h.running uid' huid'))
    source := fun uid' huid' => (mem_count.mp huid').elim (h.source uid') fun heq => heq ▸ hsource
    chosen :=
      fun req hreq => (h.chosen req hreq).imp_left fun hc => ⟨hc.1, mem_count.mpr (.inl hc.2)⟩
    newChunk :=
      fun req hreq => ⟨(h.newChunk req hreq).1, mem_count.mpr (.inl (h.newChunk req hreq).2)⟩ }
  · rcases mem_cons.mp (hheld uid' huid') with rfl | huid'
    · exact hpassed.resident ho
    · exact h.resident ho uid' huid'
  · unfold Pass.count
    split
    · exact h.nodup
    · rename_i hmem
      exact nodup_append.mpr ⟨h.nodup, nodup_singleton _,
        fun a ha b hb heq => hmem (mem_singleton.mp hb ▸ heq ▸ ha)⟩

lemma PassOk.add (hreq : req ∈ s.waitingQueue) (hpassed : Passed s p req.loraId) :
    s.PassOk (p.add req) := by
  refine { h.count hpassed (PassOk.source_of_waiting hreq) with chosen := fun req' hreq' => ?_ }
  rcases mem_append.mp hreq' with hreq' | hreq'
  · exact (h.count hpassed (PassOk.source_of_waiting hreq)).chosen req' hreq'
  · rw [mem_singleton.mp hreq']
    exact .inl ⟨hreq, mem_count.mpr (.inr rfl)⟩

end

lemma PassOk.addWaiting (hinv : s.Inv) (hchunk : s.ChunkCounted)
    (harrange : ∀ l, (arrange l).Perm l) (queue : List (Req × Decision))
    (hqueue : ∀ item ∈ queue, item.1 ∈ s.waitingQueue) (h : s.PassOk p) :
    ∃ p', Pass.addWaiting arrange done s.enableLoraOverlapLoading queue p = .ok p' ∧
    s.PassOk p' := by
  induction queue generalizing p with
  | nil => exact ⟨p, rfl, h⟩
  | cons item rest ih =>
    obtain ⟨req, decision⟩ := item
    have hreq : req ∈ s.waitingQueue := hqueue (req, decision) mem_cons_self
    have hrest : ∀ item ∈ rest, item.1 ∈ s.waitingQueue :=
      fun item hitem => hqueue item (mem_cons_of_mem _ hitem)
    obtain ⟨p1, passed, hcheck, h1, hpassed⟩ :
      ∃ p1 passed, p.checkLora arrange done s.enableLoraOverlapLoading req.loraId =
      .ok (p1, passed) ∧
        s.PassOk p1 ∧ (passed = true → Passed s p1 req.loraId) :=
        h.checkLora hinv hchunk harrange hreq
    cases passed with
    | false =>
      simp only [Pass.addWaiting, hcheck]
      exact ih hrest h1
    | true =>
      have hadd := h1.add hreq (hpassed rfl)
      simp only [Pass.addWaiting, hcheck]
      cases decision with
      | skip => exact ih hrest h1
      | stop => exact ⟨_, rfl, h1⟩
      | add => exact ih hrest hadd
      | addLast => exact ⟨_, rfl, hadd⟩
      | addChunked =>
        refine ⟨_, rfl, { hadd with newChunk := fun req' heq => ?_ }⟩
        cases heq
        exact ⟨hreq, mem_count.mpr (.inr rfl)⟩
      | reject => exact ⟨_, rfl, h1.count (hpassed rfl) (PassOk.source_of_waiting hreq)⟩

/-! ### Batches -/

/-- A pinned adapter in the pool is there as long as it is loaded. -/
def PinnedStay (s s' : LoraScheduler) : Prop :=
  ∀ uid ∈ s.manager.pool.residents, isPinned s.manager.refs uid = true →
    isPinned s'.manager.refs uid = true → uid ∈ s'.manager.pool.residents

/-- A batch of requests that hold their adapters runs, each with its own. -/
lemma Inv.runBatch (h : s.Inv) (harrange : ∀ l, (arrange l).Perm l) {batch : List Req}
    (hlive : ∀ req ∈ batch, req ∈ s.present) (hheld : ∀ req ∈ batch, req.loraId ∈ s.heldUids) :
    ∃ s', s.runBatch arrange batch = .ok s' ∧ s'.Inv ∧ s.PinnedStay s' := by
  have hloaded : ∀ uid ∈ batch.map (·.loraId), isLoaded s.manager.refs uid = true := by
    intro uid huid
    obtain ⟨req, hreq, rfl⟩ := mem_map.mp huid
    exact h.loaded req (hlive req hreq)
  have hsub : (batch.map (·.loraId)).toFinset ⊆ s.heldUids.toFinset := by
    intro uid huid
    obtain ⟨req, hreq, rfl⟩ := mem_map.mp (mem_toFinset.mp huid)
    exact mem_toFinset.mpr (hheld req hreq)
  have hcard : (batch.map (·.loraId)).dedup.length ≤ s.manager.maxLorasPerBatch := by
    rw [← List.card_toFinset]
    exact (Finset.card_le_card (hsub.trans Finset.subset_union_left)).trans h.fits
  -- with overlapped loading nothing is left to be brought in
  obtain ⟨m, hm, hfetched⟩ : ∃ m, (if s.enableLoraOverlapLoading then .ok s.manager
      else s.manager.fetchNewLoras arrange (batch.map (·.loraId)).dedup []) = .ok m ∧
        Fetched s.manager m (batch.map (·.loraId)).toFinset := by
    cases hoverlap : s.enableLoraOverlapLoading with
    | true =>
      refine ⟨s.manager, rfl, rfl, rfl, rfl, h.valid, fun uid huid => ?_,
        fun _ huid => .inl huid, fun _ huid _ => huid⟩
      exact h.resident hoverlap uid (mem_toFinset.mp (hsub huid))
    | false =>
      have hset :
          ((batch.map Req.loraId).dedup ++ []).toFinset = (batch.map Req.loraId).toFinset := by
        ext uid
        simp
      rw [← hset]
      refine fetchNewLoras_ok harrange h.valid (hset ▸ fits_mono h.fits hsub) fun uid huid =>
        hloaded uid ?_
      simpa using huid
  have hprepare :
      m.prepareLoraBatch (batch.map (·.loraId)) =
      .ok ((batch.map (·.loraId)).map fun uid => (uid, some uid)) :=
    prepareLoraBatch_ok hfetched.valid (fun uid huid => hfetched.loaded uid (mem_toFinset.mpr huid))
      (hfetched.refs.symm ▸ hloaded)
  refine ⟨{ s with manager := m, lastRun := (batch.map (·.loraId)).map fun uid => (uid, some uid) },
    ?_, ?_, ?_⟩
  · simp only [LoraScheduler.runBatch, hm, hprepare]
    rfl
  · exact {
      counted :=
        ⟨hfetched.refs.symm ▸ h.counted.nodup,
        by simp only [hfetched.pinned, hfetched.refs, h.counted.pinned]⟩
      valid := hfetched.valid
      loaded := fun req hreq => by
        simp only [hfetched.refs]
        exact h.loaded req hreq
      loading := fun uid huid => by
        simp only [hfetched.refs]
        exact h.loading uid huid
      fits := hfetched.fits h.fits hsub
      resident := fun ho uid huid => by
        have hsame : m = s.manager := by
          rw [if_pos ho] at hm
          exact (Except.ok.inj hm).symm
        rw [hsame]
        exact h.resident ho uid huid
      quiet := h.quiet
      runFits := by
        simp only [List.map_map, Function.comp_def]
        exact hcard.trans hfetched.max.ge
      runHolds := fun slot hslot => by
        obtain ⟨uid, -, rfl⟩ := List.mem_map.mp hslot
        rfl }
  · exact fun uid huid hpinned _ => hfetched.stays uid huid (.inr (.inl hpinned))

variable {s' : LoraScheduler}

lemma PassOk.inv (h : s.PassOk p) (hinv : s.Inv) (hmanager : s'.manager = p.manager)
    (hevents : s'.loadEvents = p.loadEvents)
    (hoverlap : s'.enableLoraOverlapLoading = s.enableLoraOverlapLoading)
    (hrun : s'.lastRun = s.lastRun) (hlive : ∀ req ∈ s'.present, req ∈ s.present)
    (hheld : ∀ uid ∈ s'.heldUids, uid ∈ p.runningLoras ++ s.chunkUids ++ p.loadEvents) :
    s'.Inv where
  counted := hmanager ▸ h.counted hinv
  valid := hmanager ▸ h.valid
  loaded req hreq := by
    rw [hmanager, h.refs]
    exact hinv.loaded req (hlive req hreq)
  loading uid huid := by
    rw [hmanager, h.refs]
    exact h.loading uid (hevents ▸ huid)
  fits := by
    rw [hmanager, h.refs]
    exact fits_mono h.fits fun uid huid => mem_toFinset.mpr (hheld uid (mem_toFinset.mp huid))
  resident ho uid huid := hmanager ▸ h.resident (hoverlap ▸ ho) uid (hheld uid huid)
  quiet ho := hevents ▸ h.quiet (hoverlap ▸ ho)
  runFits := by
    rw [hmanager, hrun, h.max]
    exact hinv.runFits
  runHolds := hrun ▸ hinv.runHolds

lemma Inv.startPass (h : s.Inv) (chunk : ChunkStep) : s.PassOk (s.startPass chunk) := by
  have hmem : ∀ uid, uid ∈ (s.startPass chunk).runningLoras ↔ uid ∈ s.runningBatch.map (·.loraId) :=
    fun uid => mem_dedup
  have hheld : ∀ uid, uid ∈ (s.startPass chunk).runningLoras ++ s.chunkUids ++ s.loadEvents →
      uid ∈ s.heldUids := by
    intro uid huid
    simpa only [heldUids, mem_append, hmem] using huid
  exact {
    refs := rfl
    pinned := rfl
    max := rfl
    valid := h.valid
    loading := h.loading
    fits := fits_mono h.fits fun uid huid => mem_toFinset.mpr (hheld uid (mem_toFinset.mp huid))
    resident := fun ho uid huid => h.resident ho uid (hheld uid huid)
    quiet := h.quiet
    nodup := nodup_dedup _
    running := fun uid huid => (hmem uid).mpr huid
    source := fun uid huid => by
      rw [map_append]
      exact mem_append_left _ ((hmem uid).mp huid)
    chosen := fun req hreq => by
      simp only [LoraScheduler.startPass] at hreq
      split at hreq
      · cases hreq
      · exact .inr (by simpa using hreq)
    newChunk := nofun
    stays := fun uid huid _ => huid
    subset := fun _ huid => .inl huid }

lemma chunkLeft_mem {chunk : ChunkStep} (h : s.chunkLeft chunk = some req) :
    s.chunkedReq = some req := by
  unfold chunkLeft at h
  split at h
  · cases h
  · exact h

/-- A mixed batch takes requests out of the running batch and nothing else. -/
lemma exists_filtered (s : LoraScheduler) (m : LoraManager) (loadEvents : List Uid) (mixed : Bool) :
    ∃ running finished, (if mixed then
        { s with manager := m, loadEvents := loadEvents, lastBatch := [] : LoraScheduler }.filterBatch
      else { s with manager := m, loadEvents := loadEvents, lastBatch := [] }) =
        { s with
          manager := m
          loadEvents := loadEvents
          lastBatch := []
          runningBatch := running
          finished := finished } ∧ ∀ req ∈ running, req ∈ s.runningBatch := by
  cases mixed with
  | false => exact ⟨_, _, rfl, fun _ hreq => hreq⟩
  | true => exact ⟨_, _, rfl, fun _ hreq => mem_of_mem_filter hreq⟩

lemma Inv.prefill (h : s.Inv) (harrange : ∀ l, (arrange l).Perm l) (hchunk : s.ChunkCounted)
    (decisions : Req → Decision) (chunk : ChunkStep) (mixed : Bool) :
    ∃ s', s.prefill arrange done decisions chunk mixed = .ok s' ∧ s'.Inv ∧ s.PinnedStay s' := by
  obtain ⟨p, hpass, hp⟩ : ∃ p, Pass.addWaiting arrange done s.enableLoraOverlapLoading
      (s.waitingQueue.map fun req => (req, decisions req)) (s.startPass chunk) = .ok p ∧
        s.PassOk p := by
    refine PassOk.addWaiting h hchunk harrange _ (fun item hitem => ?_) (h.startPass chunk)
    obtain ⟨req, hreq, rfl⟩ := mem_map.mp hitem
    exact hreq
  unfold LoraScheduler.prefill
  simp only [hpass]
  by_cases hnil : p.canRunList = []
  · rw [if_pos hnil]
    refine ⟨_, rfl, hp.inv h rfl rfl rfl rfl (fun req hreq => ?_) fun uid huid => ?_,
      fun uid huid hpinned _ => hp.stays uid huid hpinned⟩
    · simp only [present, mem_append, mem_toList] at hreq ⊢
      exact hreq.imp_right chunkLeft_mem
    · simp only [heldUids, chunkUids, mem_append, List.mem_map, mem_toList] at huid ⊢
      rcases huid with (⟨req, hreq, rfl⟩ | ⟨req, hreq, rfl⟩) | huid
      · exact .inl (.inl (hp.running _ (mem_map_of_mem hreq)))
      · exact .inl (.inr ⟨req, chunkLeft_mem hreq, rfl⟩)
      · exact .inr huid
  rw [if_neg hnil]
  -- what a mixed batch filters out of the running batch does not matter to the slots
  obtain ⟨running, finished, hfiltered, hrunning⟩ := s.exists_filtered p.manager p.loadEvents mixed
  rw [hfiltered]
  set chunked := p.newChunkedReq <|> s.chunkLeft chunk with hchunked
  have hchunked' : ∀ req, chunked = some req →
      (req ∈ s.waitingQueue ∧ req.loraId ∈ p.runningLoras) ∨ s.chunkedReq = some req := by
    intro req hreq
    rw [hchunked, orElse_eq_some] at hreq
    exact hreq.imp (hp.newChunk req) fun hleft => chunkLeft_mem hleft.2
  set s1 : LoraScheduler := { s with
    manager := p.manager
    loadEvents := p.loadEvents
    waitingQueue := s.waitingQueue.filter (· ∉ p.canRunList)
    runningBatch := running ++ p.canRunList.filter (some · ≠ chunked)
    finished := finished
    lastBatch := if mixed then p.canRunList ++ running else p.canRunList
    chunkedReq := chunked } with hs1
  have hlive : ∀ req, (req ∈ s.waitingQueue ∧ req.loraId ∈ p.runningLoras) ∨
      s.chunkedReq = some req → req ∈ s.present := by
    intro req hreq
    simp only [present, mem_append, mem_toList]
    exact hreq.imp (fun h => .inl h.1) id
  have hheldOf : ∀ req, (req ∈ s.waitingQueue ∧ req.loraId ∈ p.runningLoras) ∨
    s.chunkedReq = some req →
      req.loraId ∈ p.runningLoras ++ s.chunkUids ++ p.loadEvents := by
    intro req hreq
    simp only [chunkUids, mem_append, List.mem_map, mem_toList]
    exact .inl (hreq.imp (fun h => h.2) fun h => ⟨req, h, rfl⟩)
  have hinv1 : s1.Inv := by
    refine hp.inv h rfl rfl rfl rfl (fun req hreq => ?_) fun uid huid => ?_
    · simp only [hs1, present, mem_append, mem_filter, mem_toList] at hreq
      rcases hreq with (hreq | hreq | hreq) | hreq
      · simp [present, hreq.1]
      · simp [present, hrunning req hreq]
      · exact hlive req (hp.chosen req hreq.1)
      · exact hlive req (hchunked' req hreq)
    · simp only [hs1, heldUids, chunkUids, mem_append, List.mem_map, List.mem_filter,
        mem_toList] at huid
      rcases huid with (⟨req, hreq, rfl⟩ | ⟨req, hreq, rfl⟩) | huid
      · rcases hreq with hreq | hreq
        · exact mem_append_left _
            (mem_append_left _ (hp.running _ (mem_map_of_mem (hrunning req hreq))))
        · exact hheldOf req (hp.chosen req hreq.1)
      · exact hheldOf req (hchunked' req hreq)
      · exact mem_append_right _ huid
  have hmember : ∀ req ∈ (if mixed then p.canRunList ++ running else p.canRunList),
      req ∈ s1.runningBatch ∨ s1.chunkedReq = some req := by
    intro req hreq
    have hcases : req ∈ p.canRunList ∨ req ∈ running := by
      split at hreq
      · exact mem_append.mp hreq
      · exact .inl hreq
    by_cases hreqChunk : some req = chunked
    · exact .inr hreqChunk.symm
    · refine .inl (mem_append.mpr (hcases.symm.imp_right fun hcan => ?_))
      exact mem_filter.mpr ⟨hcan, by simpa using hreqChunk⟩
  obtain ⟨s', hrun, hinv', hstay⟩ := hinv1.runBatch harrange (fun req hreq => by
      simp only [present, mem_append, mem_toList]
      exact (hmember req hreq).imp_left .inr) (fun req hreq => by
      simp only [heldUids, chunkUids, mem_append, List.mem_map, mem_toList]
      exact .inl ((hmember req hreq).imp (fun h => ⟨req, h, rfl⟩) fun h => ⟨req, h, rfl⟩))
  refine ⟨s', hrun, hinv', fun uid huid hpinned hpinned' => hstay uid
    (hp.stays uid huid hpinned) ?_ hpinned'⟩
  rw [show s1.manager.refs = s.manager.refs from hp.refs]
  exact hpinned

/-! ### The other events -/

lemma Inv.mono (h : s.Inv) (hmanager : s'.manager = s.manager)
    (hevents : s'.loadEvents = s.loadEvents)
    (hoverlap : s'.enableLoraOverlapLoading = s.enableLoraOverlapLoading)
    (hrun : s'.lastRun = s.lastRun)
    (hlive : ∀ req ∈ s'.present, isLoaded s.manager.refs req.loraId = true)
    (hheld : ∀ uid ∈ s'.heldUids, uid ∈ s.heldUids) : s'.Inv where
  counted := hmanager ▸ h.counted
  valid := hmanager ▸ h.valid
  loaded req hreq := hmanager ▸ hlive req hreq
  loading uid huid := hmanager ▸ h.loading uid (hevents ▸ huid)
  fits :=
    hmanager ▸ fits_mono h.fits fun uid huid => mem_toFinset.mpr (hheld uid (mem_toFinset.mp huid))
  resident ho uid huid := hmanager ▸ h.resident (hoverlap ▸ ho) uid (hheld uid huid)
  quiet ho := hevents ▸ h.quiet (hoverlap ▸ ho)
  runFits := hmanager ▸ hrun ▸ h.runFits
  runHolds := hrun ▸ h.runHolds

/-- Requests leave the running batch, for the waiting queue or for good. -/
lemma Inv.shrink (h : s.Inv) (hmanager : s'.manager = s.manager)
    (hevents : s'.loadEvents = s.loadEvents)
    (hoverlap : s'.enableLoraOverlapLoading = s.enableLoraOverlapLoading)
    (hrun : s'.lastRun = s.lastRun) (hchunked : s'.chunkedReq = s.chunkedReq)
    (hrunning : s'.runningBatch ⊆ s.runningBatch)
    (hwaiting : ∀ req ∈ s'.waitingQueue, req ∈ s.waitingQueue ∨ req ∈ s.runningBatch) : s'.Inv := by
  refine h.mono hmanager hevents hoverlap hrun (fun req hreq => h.loaded req ?_) fun uid huid => ?_
  · simp only [present, mem_append, hchunked] at hreq ⊢
    rcases hreq with (hreq | hreq) | hreq
    · exact .inl (hwaiting req hreq)
    · exact .inl (.inr (hrunning hreq))
    · exact .inr hreq
  · simp only [heldUids, chunkUids, mem_append, List.mem_map, hchunked, hevents] at huid ⊢
    exact huid.imp_left (·.imp_left fun ⟨req, hreq, heq⟩ => ⟨req, hrunning hreq, heq⟩)

lemma PinnedStay.of_manager (h : s'.manager = s.manager) : s.PinnedStay s' :=
  fun _ huid _ _ => h ▸ huid

/-- A change of the loaded adapters after which those that are held are still loaded, and no adapter
in the pool has become pinned. -/
lemma Inv.setRefs (h : s.Inv) (hcounted : m.Counted) (hpool : m.pool = s.manager.pool)
    (hloaded : ∀ uid, isLoaded s.manager.refs uid = true →
    (uid ∈ s.loadEvents ∨ ∃ req ∈ s.present, req.loraId = uid) → isLoaded m.refs uid = true)
    (hpinned : ∀ uid ∈ s.manager.pool.residents, isPinned m.refs uid = true →
    isPinned s.manager.refs uid = true) :
    ({ s with manager := m } : LoraScheduler).Inv where
  counted := hcounted
  valid := hpool ▸ h.valid
  loaded req hreq := hloaded _ (h.loaded req hreq) (.inr ⟨req, hreq, rfl⟩)
  loading uid huid := hloaded uid (h.loading uid huid) (.inl huid)
  fits := by
    have hsub :
        s.manager.pool.residents.filter (isPinned m.refs ·) ⊆ s.manager.pool.residents.filter
        (isPinned s.manager.refs ·) := by
      intro uid huid
      obtain ⟨hres, hp⟩ := Finset.mem_filter.mp huid
      exact Finset.mem_filter.mpr ⟨hres, hpinned uid hres hp⟩
    have hunion : s.heldUids.toFinset ∪ s.manager.pool.residents.filter (isPinned m.refs ·) ⊆
        s.heldUids.toFinset ∪ s.manager.pool.residents.filter (isPinned s.manager.refs ·) :=
          Finset.union_subset_union_right hsub
    have hfits := (Finset.card_le_card hunion).trans h.fits
    rw [← hpool] at hfits
    exact hfits
  resident ho uid huid := by
    simp only [hpool]
    exact h.resident ho uid huid
  quiet := h.quiet
  runFits := by
    simp only [LoraManager.maxLorasPerBatch, hpool]
    exact h.runFits
  runHolds := h.runHolds

lemma Inv.load (h : s.Inv) (hnew : isLoaded s.manager.refs (some ref.loraId) = false)
    (hout : some ref.loraId ∉ s.manager.pool.residents) :
    ({ s with manager := s.manager.loadLoraAdapter ref } : LoraScheduler).Inv := by
  unfold loadLoraAdapter
  split
  · exact h
  have hids : ∀ ref' ∈ s.manager.refs, ref'.loraId ≠ ref.loraId := by simpa [isLoaded] using hnew
  refine h.setRefs ⟨?_, ?_⟩ rfl (fun uid huid _ => ?_) fun uid huid hpinned => ?_
  · rw [map_append, map_singleton, nodup_append]
    refine ⟨h.counted.nodup, nodup_singleton _, fun id hid id' hid' heq => ?_⟩
    obtain ⟨ref', href', rfl⟩ := mem_map.mp hid
    exact hids ref' href' (heq.trans (mem_singleton.mp hid'))
  · rw [countP_append, ← h.counted.pinned, countP_singleton]
    cases ref.pinned <;> simp
  · cases uid with
    | none => rfl
    | some id =>
      simp only [isLoaded, any_append] at huid ⊢
      simp [huid]
  · cases uid with
    | none => exact hpinned
    | some id =>
      have hne : ref.loraId ≠ id := fun heq => hout (heq ▸ huid)
      simpa [isPinned, find?_append, hne] using hpinned

lemma Inv.unload (h : s.Inv) (href : ref ∈ s.manager.refs)
    (hfree : ∀ req ∈ s.present, req.loraId ≠ some ref.loraId)
    (hidle : some ref.loraId ∉ s.loadEvents) :
    ({ s with manager := s.manager.unloadLoraAdapter ref } : LoraScheduler).Inv := by
  have hperm := perm_cons_erase href
  have hnodup : ((s.manager.refs.erase ref).map (·.loraId)).Nodup :=
    h.counted.nodup.sublist (erase_sublist.map _)
  refine h.setRefs ⟨hnodup, ?_⟩ rfl (fun uid huid hkept => ?_) fun uid _ hpinned => ?_
  · have hcount := hperm.countP_eq (·.pinned)
    rw [countP_cons] at hcount
    simp only [unloadLoraAdapter, h.counted.pinned, hcount]
    cases ref.pinned <;> simp
  · cases uid with
    | none => rfl
    | some id =>
      have hne : ref.loraId ≠ id := by
        rintro rfl
        rcases hkept with hmem | ⟨req, hreq, heq⟩
        · exact hidle hmem
        · exact hfree req hreq heq
      simp only [isLoaded, List.any_eq_true, decide_eq_true_eq] at huid ⊢
      obtain ⟨ref', href', hid⟩ := huid
      refine ⟨ref', (List.mem_erase_of_ne ?_).mpr href', hid⟩
      rintro rfl
      exact hne hid
  · have hmem := (mem_pinnedUids hnodup).mpr hpinned
    refine (mem_pinnedUids h.counted.nodup).mp ?_
    simp only [pinnedUids, List.mem_toFinset] at hmem ⊢
    exact (List.Sublist.map _ (List.erase_sublist.filter _)).subset hmem

/-- Every event that is allowed and tame is handled without an error. -/
lemma Inv.step (h : s.Inv) (harrange : ∀ l, (arrange l).Perm l) {e : Event}
    (henabled : s.Enabled e) (htame : s.Tame e) :
    ∃ s', s.step arrange e = .ok s' ∧ s'.Inv ∧ s.PinnedStay s' := by
  cases e with
  | arrive req =>
    refine ⟨_, rfl, h.mono rfl rfl rfl rfl (fun req' hreq' => ?_) fun _ huid => huid,
      .of_manager rfl⟩
    simp only [present, mem_append, mem_singleton] at hreq'
    rcases hreq' with ((hreq' | rfl) | hreq') | hreq'
    · exact h.loaded req' (by simp [present, hreq'])
    · exact henabled.1
    · exact h.loaded req' (by simp [present, hreq'])
    · exact h.loaded req' (mem_append_right _ hreq')
  | abort req =>
    refine ⟨_, rfl, h.mono rfl rfl rfl rfl (fun req' hreq' => h.loaded req' ?_) fun _ huid => huid,
      .of_manager rfl⟩
    simp only [present, mem_append] at hreq' ⊢
    exact hreq'.imp_left (·.imp_left mem_of_mem_erase)
  | load ref =>
    refine ⟨_, rfl, h.load henabled.1 henabled.2.1, fun uid huid _ _ => ?_⟩
    simp only [loadLoraAdapter]
    split
    · exact huid
    · exact huid
  | unload ref =>
    have hfree : ∀ req ∈ s.present, req.loraId ≠ some ref.loraId := by
      intro req hreq
      simp only [present, mem_append] at hreq
      rcases hreq with (hreq | hreq) | hreq
      · exact henabled.2 req (by simp [live, hreq])
      · exact htame.2 req hreq
      · exact henabled.2 req (mem_append_right _ hreq)
    exact ⟨_, rfl, h.unload henabled.1 hfree htame.1, fun uid huid _ _ => huid⟩
  | prefill done decisions chunk mixed => exact h.prefill harrange htame decisions chunk mixed
  | decode =>
    have hfiltered : ({ s.filterBatch with lastBatch := [] } : LoraScheduler).Inv :=
      h.shrink rfl rfl rfl rfl rfl filter_sublist.subset fun _ hreq => .inl hreq
    by_cases hnil : s.filterBatch.runningBatch = []
    · exact ⟨_, if_pos hnil, hfiltered, .of_manager rfl⟩
    · have hheld : ∀ req ∈ s.filterBatch.runningBatch,
          req.loraId ∈ ({ s.filterBatch with lastBatch := [] } : LoraScheduler).heldUids :=
          fun req hreq => by
        simp only [heldUids, mem_append]
        exact .inl (.inl (mem_map_of_mem hreq))
      obtain ⟨s', hrun, hs'⟩ :=
        hfiltered.runBatch harrange (fun req hreq => by simp [present, hreq]) hheld
      exact ⟨s', (if_neg hnil).trans hrun, hs'⟩
  | retract reqs =>
    refine ⟨_, rfl, h.shrink rfl rfl rfl rfl rfl (fun req hreq => ?_) fun req hreq => ?_,
      .of_manager rfl⟩
    · exact mem_of_mem_filter (mem_of_mem_filter hreq)
    · exact (mem_append.mp hreq).imp_right fun hreq => mem_of_mem_filter (mem_of_mem_filter hreq)
  | finish reqs =>
    exact ⟨_, rfl, h.shrink rfl rfl rfl rfl rfl filter_sublist.subset fun _ hreq => .inl hreq,
      .of_manager rfl⟩

end Step

/-! ### Runs -/

lemma Inv.create (harrange : ∀ l, (arrange l).Perm l) {maxLorasPerBatch : Nat}
    {policy : EvictionPolicy} (hm : LoraManager.create arrange maxLorasPerBatch policy = .ok m)
    (overlap : Bool) : (create m overlap).Inv := by
  have hmax : 1 ≤ maxLorasPerBatch := by
    by_contra hzero
    have hlt :
        (⟨.create maxLorasPerBatch policy, [], 0⟩ : LoraManager).maxLorasPerBatch <
        ([none] ++ [] : List Uid).dedup.length := by
      simp only [LoraManager.maxLorasPerBatch, LoraMemoryPool.create]
      simpa using hzero
    simp only [LoraManager.create, fetchNewLoras, if_pos hlt, reduceCtorEq] at hm
  have hvalid := LoraMemoryPool.Valid.create maxLorasPerBatch policy
  have hresidents : (LoraMemoryPool.create maxLorasPerBatch policy).residents = ∅ := by
    ext uid
    rw [hvalid.mem_residents]
    simp [LoraMemoryPool.create]
  have hfits : (LoraMemoryPool.create maxLorasPerBatch policy).Fits []
      ([none] ++ [] : List Uid).toFinset := by
    rw [LoraMemoryPool.Fits, hresidents]
    exact hmax
  obtain ⟨m', hm', hfetched⟩ : ∃ m', LoraManager.create arrange maxLorasPerBatch policy = .ok m' ∧
      Fetched ⟨.create maxLorasPerBatch policy, [], 0⟩ m' ([none] ++ [] : List Uid).toFinset :=
    fetchNewLoras_ok harrange hvalid hfits (by simp [isLoaded])
  obtain rfl : m' = m := Except.ok.inj (hm'.symm.trans hm)
  have hrefs : m'.refs = [] := hfetched.refs
  refine ⟨⟨by simp [LoraScheduler.create, hrefs], by simp [LoraScheduler.create, hrefs, hfetched.pinned]⟩, hfetched.valid,
    by simp [LoraScheduler.create, present], by simp [LoraScheduler.create], ?_, by simp [LoraScheduler.create, heldUids, chunkUids],
    fun _ => rfl, Nat.zero_le _, by simp [LoraScheduler.create]⟩
  have hnone : m'.pool.residents.filter (isPinned m'.refs ·) = ∅ := by
    refine Finset.filter_eq_empty_iff.mpr fun uid _ => ?_
    cases uid <;> simp [isPinned, hrefs]
  change (∅ ∪ m'.pool.residents.filter (isPinned m'.refs ·)).card ≤ _
  rw [hnone]
  exact Nat.zero_le _

/-- A step that counts the adapters as they are used. -/
def TameStep (arrange : List Uid → List Uid) (s s' : LoraScheduler) : Prop :=
  ∃ e, s.Enabled e ∧ s.Tame e ∧ s.step arrange e = .ok s'

/-- The last batch used as many adapters as there are slots at most, each slot held the adapter of
its request, and whatever comes next is handled without an error and without the eviction of a
pinned adapter. -/
structure Fitting (arrange : List Uid → List Uid) (s : LoraScheduler) : Prop where
  distinct : (s.lastRun.map (·.1)).dedup.length ≤ s.manager.maxLorasPerBatch
  weights : ∀ slot ∈ s.lastRun, slot.2 = some slot.1
  next : ∀ e, s.Enabled e → s.Tame e → ∃ s', s.step arrange e = .ok s' ∧ s.PinnedStay s'

theorem lora_batches_fit {arrange : List Uid → List Uid} (harrange : ∀ l, (arrange l).Perm l)
    {maxLorasPerBatch : Nat} {policy : EvictionPolicy} {m : LoraManager}
    (hm : LoraManager.create arrange maxLorasPerBatch policy = .ok m) (overlap : Bool)
    {history : List LoraScheduler} (hrun : Runs.Run (TameStep arrange) (create m overlap) history) :
    ∀ s ∈ history, s.Fitting arrange := by
  have hinv : ∀ s ∈ history, s.Inv := by
    refine hrun.invariant (Inv.create harrange hm overlap) ?_
    rintro s s' h ⟨e, henabled, htame, hstep⟩
    obtain ⟨s'', heq, h', -⟩ := h.step harrange henabled htame
    exact Except.ok.inj (heq.symm.trans hstep) ▸ h'
  intro s hs
  refine ⟨(hinv s hs).runFits, (hinv s hs).runHolds, fun e henabled htame => ?_⟩
  obtain ⟨s', heq, -, hstay⟩ := (hinv s hs).step harrange henabled htame
  exact ⟨s', heq, hstay⟩

def serve (maxLorasPerBatch : Nat) (overlap : Bool) (events : List Event) :
    Option (Except LoraError LoraScheduler) :=
  match LoraManager.create id maxLorasPerBatch .lru with
  | .error error => some (.error error)
  | .ok m => (create m overlap).play id events

/-- A pass in which every load is complete and every request that passes the check is added. -/
def passAll : Event := .prefill (fun _ => true) (fun _ => .add) .last false

/-- A pass in which no load is complete. -/
def passLoading : Event := .prefill (fun _ => false) (fun _ => .add) .last false

/-- A pass that adds a part of the first request. -/
def passChunk : Event := .prefill (fun _ => true) (fun _ => .addChunked) .last false

lemma TameStep.extend {s s' start : LoraScheduler} {past : List LoraScheduler}
    (hrun : Runs.Run (TameStep arrange) start (s :: past)) (e : Event)
    (henabled : s.Enabled e) (htame : s.Tame e) (hstep : s.step arrange e = .ok s') :
    Runs.Run (TameStep arrange) start (s' :: s :: past) := hrun.cons ⟨e, henabled, htame, hstep⟩

/-- Two slots, one of them with the base model. -/
def twoSlots : LoraManager := ⟨(LoraMemoryPool.create 2 .lru).loadWeights none 0, [], 0⟩

open TameStep

/-- Two requests with a pinned adapter that is loaded while the scheduler goes on, the first of them
in two chunks. -/
theorem lora_batches_fit_chunked : ∃ history, LoraManager.create id 2 .lru = .ok twoSlots ∧
    Runs.Run (TameStep id) (create twoSlots true) history ∧
    (∃ s ∈ history, s.lastRun = [(some 1, some (some 1)), (some 1, some (some 1))]) ∧
    ∀ s ∈ history, s.Fitting id := by
  have hload :=
    extend (.nil : Runs.Run (TameStep id) (create twoSlots true) _) (.load ⟨1, true⟩)
    (by decide) trivial rfl
  have harrive :=
    extend (extend hload (.arrive ⟨0, some 1⟩) (by decide) trivial rfl)
    (.arrive ⟨1, some 1⟩) (by decide) trivial rfl
  have hstarted := extend harrive passLoading (by decide) nofun rfl
  have hchunk := extend hstarted passChunk (by decide) nofun rfl
  have hlast :=
    extend hchunk passAll (by decide) (fun chunked h => .inr (.inl fun req hreq => .inr (by
    cases h
    rw [mem_singleton.mp hreq]))) rfl
  have hboth := extend (extend hlast passAll (by decide) nofun rfl) .decode trivial trivial rfl
  have hm : LoraManager.create id 2 .lru = .ok twoSlots := rfl
  exact ⟨_, hm, hboth, ⟨_, mem_cons_self, rfl⟩, lora_batches_fit (fun l => .refl l) hm true hboth⟩

/-- The adapter of a request carried over is not counted: the batch of its last chunk has an adapter
too many, and with overlapped loading its adapter is evicted before that chunk runs. A load that was
started for an aborted request outlives its adapter, and the check for the next request fails on it.
So it does on the adapter of a request that has finished and is still in the running batch. -/
theorem lora_batches_do_not_fit :
    serve 1 false [.load ⟨1, false⟩, .load ⟨2, false⟩, .arrive ⟨0, some 1⟩,
    passChunk, .arrive ⟨1, some 2⟩, passAll] =
      some (.error .tooManyLoras) ∧
    serve 1 true [.load ⟨1, false⟩, .load ⟨2, false⟩, .arrive ⟨0, some 1⟩,
    passChunk, passChunk, .arrive ⟨1, some 2⟩, passAll] =
      some (.error .notInPool) ∧
    serve 2 true [.load ⟨1, false⟩, .load ⟨3, true⟩, .arrive ⟨0, some 1⟩,
    passAll, .abort ⟨0, some 1⟩, .unload ⟨1, false⟩,
      .load ⟨2, false⟩, .arrive ⟨1, some 2⟩, passAll] = some (.error .loraRefNotFound) ∧
    serve 2 false [.load ⟨1, false⟩, .load ⟨2, true⟩, .arrive ⟨0, some 1⟩,
    passAll, .decode, .finish [⟨0, some 1⟩],
      .unload ⟨1, false⟩, .arrive ⟨1, some 2⟩, passAll] = some (.error .loraRefNotFound) :=
  ⟨rfl, rfl, rfl, rfl⟩

end LoraScheduler

end Sglang.Lora
