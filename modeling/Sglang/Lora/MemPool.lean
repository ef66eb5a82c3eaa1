import Mathlib.Data.Finset.Card

/-! The memory pool of the adapters: a fixed number of buffer slots, each with the weights of one
adapter.

Before a batch runs its adapters are brought into the slots. An empty slot is taken first; then an
adapter that the batch does not use and that is not pinned is evicted, chosen by the eviction
policy. The base model is the adapter `none`, with a slot of its own. -/
namespace Sglang.Lora

open List Function

abbrev LoraId := Nat

abbrev Uid := Option LoraId

/-- An adapter as the engine knows it. -/
structure LoraRef where
  loraId : LoraId
  pinned : Bool
deriving DecidableEq

/-- The assertions and exceptions of the adapter code. -/
inductive LoraError
  | tooManyLoras
  | loraRefNotFound
  | pinnedExceedsTotal
  | noAvailableSlot
  | noVictim
  | adapterMissing
  | notInPool
deriving DecidableEq

instance (uid : Uid) (uids : List Uid) : Decidable (uid ∈ uids) := inferInstance

/-- Whether an adapter is loaded and pinned. -/
def isPinned (refs : List LoraRef) (uid : Uid) : Bool :=
  match uid with
  | none => false
  | some id => ((refs.find? (·.loraId = id)).map (·.pinned)).getD false

def isLoaded (refs : List LoraRef) (uid : Uid) : Bool :=
  match uid with
  | none => true
  | some id => refs.any (·.loraId = id)

/-! ### Eviction policies -/

inductive EvictionPolicy
  | lru
  | fifo
deriving DecidableEq

/-- The order of use after an adapter was used. -/
def markUsed (policy : EvictionPolicy) (order : List LoraId) (uid : Uid) : List LoraId :=
  match uid with
  | none => order
  | some id =>
    match policy with
    | .lru => order.erase id ++ [id]
    | .fifo => if id ∈ order then order else order ++ [id]

/-- The first candidate in that order. -/
def selectVictim (order : List LoraId) (candidates : List Uid) : Except LoraError Uid :=
  match order.find? (some · ∈ candidates) with
  | some id => .ok (some id)
  | none => if none ∈ candidates then .ok none else .error .noVictim

def removeTracked (order : List LoraId) (uid : Uid) : List LoraId :=
  match uid with
  | none => order
  | some id => order.erase id

variable {order : List LoraId}

lemma mem_markUsed {policy : EvictionPolicy} {uid : Uid} {id : LoraId} :
    id ∈ markUsed policy order uid ↔ id ∈ order ∨ uid = some id := by
  cases uid with
  | none => simp [markUsed]
  | some id' =>
    cases policy with
    | lru =>
      by_cases heq : id = id'
      · simp [markUsed, heq]
      · simp [markUsed, mem_erase_of_ne heq, heq, Ne.symm heq]
    | fifo =>
      simp only [markUsed]
      split
      · refine ⟨.inl, fun h => h.elim (·) fun heq => ?_⟩
        rwa [← Option.some.inj heq]
      · simp [eq_comm]

lemma mem_foldl_markUsed {policy : EvictionPolicy} (uids : List Uid) {id : LoraId} :
    id ∈ uids.foldl (markUsed policy) order ↔ id ∈ order ∨ some id ∈ uids := by
  induction uids generalizing order with
  | nil => simp
  | cons uid uids ih =>
    rw [foldl_cons, ih, mem_markUsed, mem_cons, or_assoc, @eq_comm _ uid]

/-- A victim is found if the adapters among the candidates are tracked. -/
lemma selectVictim_ok {candidates : List Uid} (hne : candidates ≠ [])
    (htracked : ∀ id, some id ∈ candidates → id ∈ order) :
    ∃ uid ∈ candidates, selectVictim order candidates = .ok uid := by
  unfold selectVictim
  split
  · rename_i id hfind
    exact ⟨some id, by simpa using find?_some hfind, rfl⟩
  rename_i hnone
  obtain ⟨uid, huid⟩ := exists_mem_of_ne_nil _ hne
  have hbase : uid = none := by
    cases uid with
    | none => rfl
    | some id => exact absurd huid (by simpa using find?_eq_none.mp hnone id (htracked id huid))
  subst hbase
  exact ⟨none, huid, if_pos huid⟩

/-! ### The pool -/

/-- The slots, and which adapter is in each. -/
structure LoraMemoryPool where
  maxLorasPerBatch : Nat
  policy : EvictionPolicy
  /-- The adapters that the policy tracks, the first to be evicted first. -/
  order : List LoraId
  uidToBufferId : Uid → Option Nat
  /-- `none` is an empty slot. -/
  bufferIdToUid : List (Option Uid)
  /-- Whose weights a slot holds. -/
  buffers : Nat → Option Uid

namespace LoraMemoryPool

def create (maxLorasPerBatch : Nat) (policy : EvictionPolicy) : LoraMemoryPool where
  maxLorasPerBatch := maxLorasPerBatch
  policy := policy
  order := []
  uidToBufferId _ := none
  bufferIdToUid := replicate maxLorasPerBatch none
  buffers _ := none

section
variable (pool : LoraMemoryPool)

section
variable (curUids : List Uid)

section
variable (refs : List LoraRef)

def candidates : List Uid :=
  (pool.bufferIdToUid.filterMap fun uid => uid).filter fun uid => uid ∉ curUids ∧
    ¬ isPinned refs uid

/-- Adapters are evicted before the base model. -/
def candidatesToUse (candidates : List Uid) : List Uid :=
  if candidates.filter (·.isSome) = [] then candidates else candidates.filter (·.isSome)

def evict (victim : Uid) (bufferId : Nat) : LoraMemoryPool :=
  { pool with
    order := removeTracked pool.order victim
    uidToBufferId := update pool.uidToBufferId victim none
    bufferIdToUid := pool.bufferIdToUid.set bufferId none }

/-- An empty slot, or one whose adapter may go. -/
def getAvailableBufferSlot : Except LoraError (LoraMemoryPool × Nat) :=
  match pool.bufferIdToUid.findIdx? (·.isNone) with
  | some bufferId => .ok (pool, bufferId)
  | none =>
    if pool.candidates curUids refs = [] then .error .noAvailableSlot
    else
      match selectVictim pool.order (candidatesToUse (pool.candidates curUids refs)) with
      | .error e => .error e
      | .ok victim =>
        match pool.uidToBufferId victim with
        | none => .error .notInPool
        | some bufferId => .ok (pool.evict victim bufferId, bufferId)

def loadWeights (uid : Uid) (bufferId : Nat) : LoraMemoryPool :=
  { pool with
    uidToBufferId := update pool.uidToBufferId uid (some bufferId)
    bufferIdToUid := pool.bufferIdToUid.set bufferId (some uid)
    buffers := update pool.buffers bufferId (some uid) }

/-- The body of the loop over the adapters of a batch. -/
def loadUid (pool : LoraMemoryPool) (uid : Uid) : Except LoraError LoraMemoryPool :=
  if (pool.uidToBufferId uid).isSome then .ok pool
  else
    match pool.getAvailableBufferSlot curUids refs with
    | .error e => .error e
    | .ok (pool, bufferId) =>
      if isLoaded refs uid then .ok (pool.loadWeights uid bufferId) else .error .adapterMissing

/-- All adapters of a batch get slots. -/
def prepareLoraBatch : Except LoraError LoraMemoryPool :=
  curUids.foldlM (loadUid curUids refs)
    { pool with order := curUids.foldl (markUsed pool.policy) pool.order }

end

end

/-! ### What the pool keeps -/

/-- The two tables agree, a slot has the weights of its adapter, and the policy tracks every adapter
in a slot. -/
structure Valid (pool : LoraMemoryPool) : Prop where
  length : pool.bufferIdToUid.length = pool.maxLorasPerBatch
  linked : ∀ uid b, pool.uidToBufferId uid = some b ↔ pool.bufferIdToUid[b]? = some (some uid)
  weights : ∀ uid b, pool.uidToBufferId uid = some b → pool.buffers b = some uid
  tracked : ∀ id, (pool.uidToBufferId (some id)).isSome → id ∈ pool.order

lemma Valid.create (maxLorasPerBatch : Nat) (policy : EvictionPolicy) :
    (create maxLorasPerBatch policy).Valid where
  length := by simp [LoraMemoryPool.create]
  linked uid b := by simp [LoraMemoryPool.create, getElem?_replicate]
  weights _ _ h := by simp [LoraMemoryPool.create] at h
  tracked _ h := by simp [LoraMemoryPool.create] at h

/-- The adapters in the slots. -/
def residents : Finset Uid := (pool.bufferIdToUid.filterMap fun uid => uid).toFinset

end

variable {pool pool' : LoraMemoryPool} {curUids : List Uid} {refs : List LoraRef} {uid : Uid}

lemma Valid.mem_residents (h : pool.Valid) :
    uid ∈ pool.residents ↔ (pool.uidToBufferId uid).isSome := by
  simp only [residents, mem_toFinset, mem_filterMap, Option.isSome_iff_exists, h.linked]
  constructor
  · rintro ⟨slot, hmem, rfl⟩
    exact List.getElem?_of_mem hmem
  · rintro ⟨b, hb⟩
    exact ⟨some uid, mem_of_getElem? hb, rfl⟩

lemma Valid.nodup (h : pool.Valid) : (pool.bufferIdToUid.filterMap fun uid => uid).Nodup := by
  have hslots : pool.bufferIdToUid.Pairwise fun a b => a.isSome → a ≠ b := by
    refine pairwise_iff_getElem.mpr fun i j hi hj hij hsome heq => ?_
    obtain ⟨uid, huid⟩ := Option.isSome_iff_exists.mp hsome
    have hi' := (h.linked uid i).mpr (by rw [List.getElem?_eq_getElem hi, huid])
    have hj' := (h.linked uid j).mpr (by rw [List.getElem?_eq_getElem hj, ← heq, huid])
    exact hij.ne (Option.some.inj (hi'.symm.trans hj'))
  refine hslots.filterMap _ ?_
  rintro a b hab uid rfl uid' rfl heq
  exact hab rfl (congrArg some heq)

/-- A pool without an empty slot holds as many adapters as it has slots. -/
lemma Valid.card_residents (h : pool.Valid)
    (hfull : pool.bufferIdToUid.findIdx? (·.isNone) = none) :
    pool.residents.card = pool.maxLorasPerBatch := by
  rw [residents, toFinset_card_of_nodup h.nodup, ← h.length]
  have hall : ∀ slot ∈ pool.bufferIdToUid, slot.isSome := fun slot hslot => by
    simpa using findIdx?_eq_none_iff.mp hfull slot hslot
  rw [length_filterMap_eq_countP, countP_eq_length]
  exact hall

lemma mem_candidates :
    uid ∈ pool.candidates curUids refs ↔ uid ∈ pool.residents ∧ uid ∉ curUids ∧
    isPinned refs uid = false := by
  simp [candidates, residents]

/-- The adapters that a batch may not displace: its own and the pinned ones. -/
def Fits (pool : LoraMemoryPool) (refs : List LoraRef) (curUids : Finset Uid) : Prop :=
  (curUids ∪ pool.residents.filter (isPinned refs ·)).card ≤ pool.maxLorasPerBatch

/-- Adapters that are in the pool fit. -/
lemma Valid.fits_of_resident (h : pool.Valid) {held : Finset Uid} (hres : held ⊆ pool.residents) :
    pool.Fits refs held := by
  have hle : pool.residents.card ≤ pool.maxLorasPerBatch :=
    (toFinset_card_le _).trans ((length_filterMap_le _ _).trans h.length.le)
  exact (Finset.card_le_card (Finset.union_subset hres (Finset.filter_subset _ _))).trans hle

/-- The adapters that stay when a batch is brought in: its own, the pinned ones, and all of them if
the pool has room for what it lacks of the batch. -/
def Keeps (pool : LoraMemoryPool) (curUids : List Uid) (refs : List LoraRef) (uid : Uid) : Prop :=
  uid ∈ curUids ∨ isPinned refs uid = true ∨
    (pool.residents ∪ curUids.toFinset).card ≤ pool.maxLorasPerBatch

/-- If they fit, a full pool without all adapters of the batch has a candidate. -/
lemma Valid.candidates_ne_nil (h : pool.Valid) (hfits : pool.Fits refs curUids.toFinset)
    (hcur : uid ∈ curUids) (hout : uid ∉ pool.residents)
    (hfull : pool.bufferIdToUid.findIdx? (·.isNone) = none) :
    pool.candidates curUids refs ≠ [] := by
  intro hnil
  have hsub : insert uid pool.residents ⊆ curUids.toFinset ∪ pool.residents.filter
      (isPinned refs ·) := by
    intro uid' huid'
    rcases Finset.mem_insert.mp huid' with rfl | hres
    · exact Finset.mem_union_left _ (mem_toFinset.mpr hcur)
    · by_contra hno
      rw [Finset.mem_union, Finset.mem_filter, not_or, mem_toFinset] at hno
      have hmem : uid' ∈ pool.candidates curUids refs :=
        mem_candidates.mpr ⟨hres, hno.1, by simpa [hres] using hno.2⟩
      simp [hnil] at hmem
  have hcard := (Finset.card_le_card hsub).trans hfits
  rw [Finset.card_insert_of_notMem hout, h.card_residents hfull] at hcard
  exact absurd hcard (Nat.not_succ_le_self _)

/-- A full pool has no room for a further adapter. -/
lemma Valid.not_room (h : pool.Valid) (hcur : uid ∈ curUids) (hout : uid ∉ pool.residents)
    (hfull : pool.bufferIdToUid.findIdx? (·.isNone) = none) :
    ¬(pool.residents ∪ curUids.toFinset).card ≤ pool.maxLorasPerBatch := by
  have hsub : insert uid pool.residents ⊆ pool.residents ∪ curUids.toFinset :=
    Finset.insert_subset (Finset.mem_union_right _ (mem_toFinset.mpr hcur)) Finset.subset_union_left
  have hcard := Finset.card_le_card hsub
  rw [Finset.card_insert_of_notMem hout, h.card_residents hfull] at hcard
  omega

lemma mem_candidatesToUse {candidates : List Uid} (h : uid ∈ candidatesToUse candidates) :
    uid ∈ candidates := by
  unfold candidatesToUse at h
  split at h
  · exact h
  · exact (mem_filter.mp h).1

lemma candidatesToUse_ne_nil {candidates : List Uid} (h : candidates ≠ []) :
    candidatesToUse candidates ≠ [] := by
  unfold candidatesToUse
  split
  · exact h
  · assumption

lemma getElem?_set_of_lt {α : Type*} {l : List α} {b b' : Nat} {x : α} (hb : b < l.length) :
    (l.set b x)[b']? = if b = b' then some x else l[b']? := by
  rw [getElem?_set]
  simp [hb]

/-- A slot to be filled: it is empty, and only adapters that may be displaced have left. -/
structure Freed (pool : LoraMemoryPool) (curUids : List Uid) (refs : List LoraRef)
    (pool' : LoraMemoryPool) (b : Nat) : Prop where
  valid : pool'.Valid
  empty : pool'.bufferIdToUid[b]? = some none
  max : pool'.maxLorasPerBatch = pool.maxLorasPerBatch
  policy : pool'.policy = pool.policy
  subset : ∀ uid b, pool'.uidToBufferId uid = some b → pool.uidToBufferId uid = some b
  stays : ∀ uid, pool.Keeps curUids refs uid → pool'.uidToBufferId uid = pool.uidToBufferId uid
  tracked : ∀ id, some id ∈ curUids → id ∈ pool.order → id ∈ pool'.order

lemma Valid.evict (h : pool.Valid) {victim : Uid} {b : Nat}
    (hb : pool.uidToBufferId victim = some b) (hvictim : ¬pool.Keeps curUids refs victim) :
    Freed pool curUids refs (pool.evict victim b) b := by
  have hcur : victim ∉ curUids := fun hmem => hvictim (.inl hmem)
  have hslot := (h.linked victim b).mp hb
  have hblt : b < pool.bufferIdToUid.length := (List.getElem?_eq_some_iff.mp hslot).1
  let pool1 := pool.evict victim b
  have hother : ∀ uid ≠ victim, pool1.uidToBufferId uid = pool.uidToBufferId uid := fun uid hne =>
    update_of_ne hne _ _
  have hself : pool1.uidToBufferId victim = none := update_self _ _ _
  have horder : ∀ id, some id ≠ victim → id ∈ pool.order → id ∈ pool1.order := by
    intro id hne hid
    cases victim with
    | none => exact hid
    | some id' => exact (mem_erase_of_ne fun heq => hne (congrArg some heq)).mpr hid
  refine ⟨⟨?_, fun uid b' => ?_, fun uid b' hb' => ?_, fun id hid => ?_⟩,
    ?_, rfl, rfl, fun uid b' hb' => ?_, fun uid huid => ?_,
    fun id hid hmem => horder id (fun heq => hcur (heq ▸ hid)) hmem⟩
  · exact length_set.trans h.length
  · rw [show pool1.bufferIdToUid[b']? = if b = b' then some none else pool.bufferIdToUid[b']? from
      getElem?_set_of_lt hblt]
    by_cases huid : uid = victim
    · subst huid
      have hout : b ≠ b' → pool.bufferIdToUid[b']? ≠ some (some uid) := by
        rw [Ne, Ne, ← h.linked, hb, Option.some.injEq]
        exact id
      rw [hself]
      split
      · simp
      · rename_i hne
        simpa using hout hne
    · rw [hother uid huid, h.linked]
      split
      · rename_i heq
        rw [← heq, hslot]
        simpa using Ne.symm huid
      · rfl
  · by_cases huid : uid = victim
    · rw [huid, hself] at hb'
      cases hb'
    · rw [hother uid huid] at hb'
      exact h.weights uid b' hb'
  · by_cases huid : some id = victim
    · rw [huid, hself] at hid
      cases hid
    · rw [hother _ huid] at hid
      exact horder id huid (h.tracked id hid)
  · simp [LoraMemoryPool.evict, hblt]
  · by_cases huid : uid = victim
    · rw [huid, hself] at hb'
      cases hb'
    · rwa [hother uid huid] at hb'
  · refine hother uid ?_
    rintro rfl
    exact hvictim huid

lemma Valid.getAvailableBufferSlot (h : pool.Valid) (hfits : pool.Fits refs curUids.toFinset)
    (hcur : uid ∈ curUids) (hout : pool.uidToBufferId uid = none) :
    ∃ pool' b, pool.getAvailableBufferSlot curUids refs = .ok (pool', b) ∧
    Freed pool curUids refs pool' b := by
  unfold LoraMemoryPool.getAvailableBufferSlot
  cases hfind : pool.bufferIdToUid.findIdx? (·.isNone) with
  | some b =>
    obtain ⟨hlt, hnone, -⟩ := findIdx?_eq_some_iff_getElem.mp hfind
    refine ⟨pool, b, rfl, h, ?_, rfl, rfl, fun _ _ hb => hb, fun _ _ => rfl, fun _ _ hid => hid⟩
    rw [List.getElem?_eq_getElem hlt, Option.isNone_iff_eq_none.mp hnone]
  | none =>
    have hnotMem : uid ∉ pool.residents := by simp [h.mem_residents, hout]
    have hne := h.candidates_ne_nil hfits hcur hnotMem hfind
    obtain ⟨victim, hvictim, hselect⟩ := selectVictim_ok (candidatesToUse_ne_nil hne) fun id hid =>
      h.tracked id (h.mem_residents.mp (mem_candidates.mp (mem_candidatesToUse hid)).1)
    obtain ⟨hres, hnotCur, hpinned⟩ := mem_candidates.mp (mem_candidatesToUse hvictim)
    obtain ⟨b, hb⟩ := Option.isSome_iff_exists.mp (h.mem_residents.mp hres)
    refine ⟨pool.evict victim b, b, ?_, h.evict hb ?_⟩
    · simp only [if_neg hne, hselect, hb]
    · rintro (hmem | htrue | hroom)
      · exact hnotCur hmem
      · simp [hpinned] at htrue
      · exact h.not_room hcur hnotMem hfind hroom

/-- What bringing adapters in does: they are in the pool, and those of the batch and the pinned ones
have stayed. -/
structure Loaded (pool : LoraMemoryPool) (curUids : List Uid) (refs : List LoraRef)
    (uids : List Uid) (pool' : LoraMemoryPool) : Prop where
  valid : pool'.Valid
  max : pool'.maxLorasPerBatch = pool.maxLorasPerBatch
  loaded : ∀ uid ∈ uids, uid ∈ pool'.residents
  subset : ∀ uid ∈ pool'.residents, uid ∈ pool.residents ∨ uid ∈ uids
  stays : ∀ uid ∈ pool.residents, pool.Keeps curUids refs uid → uid ∈ pool'.residents
  tracked : ∀ id, some id ∈ curUids → id ∈ pool.order → id ∈ pool'.order

lemma Valid.loadUid (h : pool.Valid) (hfits : pool.Fits refs curUids.toFinset)
    (hcur : uid ∈ curUids) (htracked : ∀ id, some id ∈ curUids → id ∈ pool.order)
    (hloaded : uid ∉ pool.residents → isLoaded refs uid = true) :
    ∃ pool', loadUid curUids refs pool uid = .ok pool' ∧ Loaded pool curUids refs [uid] pool' := by
  unfold LoraMemoryPool.loadUid
  by_cases hin : (pool.uidToBufferId uid).isSome
  · refine ⟨pool, if_pos hin, h, rfl, ?_, fun _ hmem => .inl hmem, fun _ hmem _ => hmem,
      fun _ _ hid => hid⟩
    intro uid' huid'
    rw [mem_singleton.mp huid', h.mem_residents]
    exact hin
  rw [if_neg hin]
  have hnone : pool.uidToBufferId uid = none := by simpa using hin
  obtain ⟨pool1, b, hslot, hfreed⟩ := h.getAvailableBufferSlot hfits hcur hnone
  have hblt : b < pool1.bufferIdToUid.length := (List.getElem?_eq_some_iff.mp hfreed.empty).1
  have hisLoaded := hloaded (by simp [h.mem_residents, hnone])
  simp only [hslot, hisLoaded, if_true]
  set pool2 := pool1.loadWeights uid b
  have hother : ∀ uid' ≠ uid, pool2.uidToBufferId uid' = pool1.uidToBufferId uid' := fun uid' hne =>
    update_of_ne hne _ _
  have hself : pool2.uidToBufferId uid = some b := update_self _ _ _
  have hnotB : ∀ uid', pool1.uidToBufferId uid' ≠ some b := fun uid' heq => by
    have hslot' := (hfreed.valid.linked uid' b).mp heq
    simp [hfreed.empty] at hslot'
  have hvalid : pool2.Valid := by
    refine ⟨?_, fun uid' b' => ?_, fun uid' b' hb' => ?_, fun id hid => ?_⟩
    · exact length_set.trans hfreed.valid.length
    · rw [show pool2.bufferIdToUid[b']? = if b = b' then
        some (some uid) else pool1.bufferIdToUid[b']? from
        getElem?_set_of_lt hblt]
      by_cases huid : uid' = uid
      · subst huid
        have hout : pool1.bufferIdToUid[b']? ≠ some (some uid') := by
          rw [Ne, ← hfreed.valid.linked, hfreed.stays uid' (.inl hcur), hnone]
          nofun
        rw [hself, Option.some.injEq]
        split
        · simpa
        · simpa [hout]
      · rw [hother uid' huid, hfreed.valid.linked]
        split
        · rename_i heq
          rw [← heq, hfreed.empty]
          simpa using Ne.symm huid
        · rfl
    · by_cases huid : uid' = uid
      · subst huid
        rw [hself] at hb'
        rw [← Option.some.inj hb']
        exact update_self _ _ _
      · rw [hother uid' huid] at hb'
        have hne : b' ≠ b := fun heq => hnotB uid' (heq ▸ hb')
        exact (update_of_ne hne _ _).trans (hfreed.valid.weights uid' b' hb')
    · by_cases huid : some id = uid
      · exact hfreed.tracked id (huid ▸ hcur) (htracked id (huid ▸ hcur))
      · rw [hother _ huid] at hid
        exact hfreed.valid.tracked id hid
  refine ⟨_, rfl, hvalid, hfreed.max, ?_, fun uid' huid' => ?_, fun uid' huid' hkeep => ?_,
    hfreed.tracked⟩
  · intro uid' huid'
    rw [mem_singleton.mp huid', hvalid.mem_residents, hself]
    rfl
  · by_cases huid : uid' = uid
    · exact .inr (by simp [huid])
    · rw [hvalid.mem_residents, hother uid' huid] at huid'
      obtain ⟨b', hb'⟩ := Option.isSome_iff_exists.mp huid'
      exact .inl (h.mem_residents.mpr (by simp [hfreed.subset uid' b' hb']))
  · rw [hvalid.mem_residents]
    by_cases huid : uid' = uid
    · rw [huid, hself]
      rfl
    · rw [hother uid' huid, hfreed.stays uid' hkeep]
      exact h.mem_residents.mp huid'

lemma Loaded.fits (h : Loaded pool curUids refs [uid] pool') (hcur : uid ∈ curUids)
    (hfits : pool.Fits refs curUids.toFinset) :
    pool'.Fits refs curUids.toFinset := by
  refine le_of_le_of_eq (le_trans (Finset.card_le_card ?_) hfits) h.max.symm
  intro uid' huid'
  rcases Finset.mem_union.mp huid' with hmem | hmem
  · exact Finset.mem_union_left _ hmem
  · obtain ⟨hres, hpinned⟩ := Finset.mem_filter.mp hmem
    rcases h.subset uid' hres with hold | hnew
    · exact Finset.mem_union_right _ (Finset.mem_filter.mpr ⟨hold, hpinned⟩)
    · exact Finset.mem_union_left _ (mem_toFinset.mpr (mem_singleton.mp hnew ▸ hcur))

lemma Loaded.keeps (h : Loaded pool curUids refs [uid] pool') (hcur : uid ∈ curUids) {kept : Uid}
    (hkeep : pool.Keeps curUids refs kept) : pool'.Keeps curUids refs kept := by
  refine hkeep.imp_right (·.imp_right fun hroom => ?_)
  refine le_of_le_of_eq (le_trans (Finset.card_le_card ?_) hroom) h.max.symm
  refine Finset.union_subset (fun uid' huid' => ?_) Finset.subset_union_right
  rcases h.subset uid' huid' with hold | hnew
  · exact Finset.mem_union_left _ hold
  · exact Finset.mem_union_right _ (mem_toFinset.mpr (mem_singleton.mp hnew ▸ hcur))

lemma Valid.foldlM_loadUid (uids : List Uid) (h : pool.Valid)
    (hfits : pool.Fits refs curUids.toFinset) (hsub : ∀ uid ∈ uids, uid ∈ curUids)
    (htracked : ∀ id, some id ∈ curUids → id ∈ pool.order)
    (hloaded : ∀ uid ∈ uids, uid ∉ pool.residents → isLoaded refs uid = true) :
    ∃ pool', uids.foldlM (LoraMemoryPool.loadUid curUids refs) pool = .ok pool' ∧
    Loaded pool curUids refs uids pool' := by
  induction uids generalizing pool with
  | nil =>
    exact ⟨pool, rfl, h, rfl, nofun, fun _ hmem => .inl hmem, fun _ hmem _ => hmem,
      fun _ _ hid => hid⟩
  | cons uid uids ih =>
    have hcur := hsub uid mem_cons_self
    obtain ⟨pool1, hstep, h1⟩ := h.loadUid hfits hcur htracked (hloaded uid mem_cons_self)
    obtain ⟨pool', hrest, h'⟩ :=
      ih h1.valid (h1.fits hcur hfits) (fun uid' hmem => hsub uid' (mem_cons_of_mem _ hmem))
      (fun id hid => h1.tracked id hid (htracked id hid)) fun uid' hmem hout =>
        hloaded uid' (mem_cons_of_mem _ hmem) fun hin =>
          hout (h1.stays uid' hin (.inl (hsub uid' (mem_cons_of_mem _ hmem))))
    refine ⟨pool', ?_, h'.valid, h'.max.trans h1.max, fun uid' hmem => ?_,
      fun uid' hmem => ?_, fun uid' hmem hkeep => ?_,
      fun id hid hmem => h'.tracked id hid (h1.tracked id hid hmem)⟩
    · rw [foldlM_cons, hstep]
      exact hrest
    · rcases mem_cons.mp hmem with rfl | hmem
      · exact h'.stays _ (h1.loaded _ (mem_singleton_self _)) (.inl hcur)
      · exact h'.loaded uid' hmem
    · rcases h'.subset uid' hmem with hmem | hmem
      · exact (h1.subset uid' hmem).imp_right fun hmem =>
          mem_cons.mpr (.inl (mem_singleton.mp hmem))
      · exact .inr (mem_cons_of_mem _ hmem)
    · exact h'.stays uid' (h1.stays uid' hmem hkeep) (h1.keeps hcur hkeep)

/-- A batch whose adapters fit beside the pinned ones is brought in. -/
lemma Valid.prepareLoraBatch (h : pool.Valid) (hfits : pool.Fits refs curUids.toFinset)
    (hloaded : ∀ uid ∈ curUids, uid ∉ pool.residents → isLoaded refs uid = true) :
    ∃ pool', pool.prepareLoraBatch curUids refs = .ok pool' ∧
    Loaded pool curUids refs curUids pool' := by
  set pool0 : LoraMemoryPool :=
    { pool with order := curUids.foldl (markUsed pool.policy) pool.order } with hpool0
  have hvalid0 : pool0.Valid :=
    ⟨h.length, h.linked, h.weights,
    fun id hid => (mem_foldl_markUsed _).mpr (.inl (h.tracked id hid))⟩
  obtain ⟨pool', hprepare, h'⟩ := hvalid0.foldlM_loadUid curUids hfits (fun _ hmem => hmem)
    (fun id hid => (mem_foldl_markUsed _).mpr (.inr hid)) hloaded
  exact ⟨pool', hprepare, h'.valid, h'.max, h'.loaded, h'.subset, h'.stays, fun id hid hmem =>
    h'.tracked id hid ((mem_foldl_markUsed _).mpr (.inl hmem))⟩

end LoraMemoryPool

end Sglang.Lora
