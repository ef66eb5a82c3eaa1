import Sglang.Dllm.PrefillAdder
import Sglang.Managers.KvOwnership

/-! KV accounting of diffusion requests.

A request's prompt is cached by one extend pass. From then on every round gives it slots for a whole
block, the algorithm decides how many tokens of the block are kept, and the scheduler gives the
slots of the others back, inside a free group. The tree cache never holds anything of a diffusion
request: what it owns is its row. -/
namespace Sglang.Dllm

open Option hiding guard
open List
open MemCache Managers Pages Runs DllmReq RadixCache KvAllocator PrefillAdder.Call

inductive Algorithm
  | fastDiffuser
  | linearSpec
  | tidar
deriving DecidableEq, Repr

structure DllmConfig where
  algorithm : Algorithm
  blockSize : Nat
  maskId : MemCache.TokenId
  maxRunningRequests : Nat
  blockSize_pos : 0 < blockSize := by decide

/-- The scheduler's state between rounds. -/
structure DllmServer where
  args : ServerArgs
  config : DllmConfig
  cache : RadixCache
  allocator : KvAllocator
  reqs : List DllmReq := []

namespace DllmReq

section
variable (r : DllmReq)

/-- `init_prompt_cache_input`, with the root as the request's node. -/
def initPromptCacheInput (root : NodeId) : DllmReq :=
  { r with
    fillIds := r.originInputIds
    prefixIndices := []
    extendInputLen := r.originInputIds.length
    lastNode := root }

section
variable (config : DllmConfig)

/-- `_prepare_staging_reqs`. -/
def prepareStaging : DllmReq :=
  let fillIds := r.tokens ++ replicate config.blockSize config.maskId
  let prefixIndices := r.slots.take r.kvCommittedLen
  {r with fillIds, prefixIndices, extendInputLen := fillIds.length - prefixIndices.length}

/-- `prepare_for_extend`: the row and the lengths after the allocation. -/
def extended (r : DllmReq) (out : List Slot) : DllmReq := {r with toReq := r.toReq.extended out}

/-- What TiDAR leaves of the slots of a block: it gave all of them back, and those of the tokens it
accepted stand in the row instead. -/
def replaced (kept : List Slot) : DllmReq := {r with row := some (r.prefixIndices ++ kept)}

/-- The slots of rejected tokens are dropped from a row, and handed to the allocator unless the
algorithm has done so. -/
def reject (rejected : Nat) (a : KvAllocator) : Option (KvAllocator × DllmReq) := do
  guard (rejected ≤ r.kvCommittedLen)
  let freeStart := r.kvCommittedLen - rejected
  let freeIndices := (r.slots.take r.kvCommittedLen).drop freeStart
  let a := if config.algorithm = .tidar then a else a.free freeIndices
  some (a,
    {r with row := r.row.map (·.take freeStart), kvCommittedLen := freeStart, kvAllocatedLen := freeStart})

/-- The tokens of a block are appended; the slots of the rest of the block are dropped. -/
def accept (tokens : List MemCache.TokenId) (a : KvAllocator) : Option (KvAllocator × DllmReq) :=
  let r := {r with outputIds := r.outputIds ++ tokens}
  if tokens.length < config.blockSize then r.reject config (config.blockSize - tokens.length) a
    else some (a, r)

/-- An empty block is dropped as a whole. -/
def settle (tokens : List MemCache.TokenId) (a : KvAllocator) : Option (KvAllocator × DllmReq) :=
  if tokens = [] then r.reject config config.blockSize a else r.accept config tokens a

end

end

end DllmReq

namespace DllmServer

def create (args : ServerArgs) (config : DllmConfig) (params : CacheInitParams)
    (size : Nat) (needSort : Bool) (now : Int) :
    DllmServer where
  args := args
  config := config
  cache := .create params now
  allocator := .create size params.pageSize needSort

/-- `process_batch_result_dllm` for one request, with the tokens of its block. `check_finished` ends
the request at its length limit, or if it finds another reason in the tokens (`stopped`). -/
def processOne (args : ServerArgs) (config : DllmConfig) (now : Int) (c : RadixCache)
    (a : KvAllocator) (r : DllmReq) (tokens : List MemCache.TokenId) (stopped : Bool) :
    Option (RadixCache × KvAllocator × Option DllmReq) := do
  let (a, r) ← r.settle config tokens a
  if (stopped ∨ r.maxNewTokens ≤ r.outputIds.length) ∧ tokens ≠ [] then
    let (c, a) ← releaseKvCache now args false c a r.toReq
    some (c, a, none)
  else some (c, a, some r)

/-- The loop over the batch. -/
def processAll (args : ServerArgs) (config : DllmConfig) (now : Int) :
    List (DllmReq × List MemCache.TokenId × Bool) → RadixCache → KvAllocator →
    Option (RadixCache × KvAllocator × List DllmReq)
  | [], c, a => some (c, a, [])
  | (r, tokens, stopped) :: batch, c, a => do
    let (c, a, r) ← processOne args config now c a r tokens stopped
    let (c, a, rs) ← processAll args config now batch c a
    some (c, a, r.toList ++ rs)

/-- The slots a request may be given: free, or evictable from the tree. -/
def availableAndEvictable (s : DllmServer) : Nat :=
  (s.allocator.availableSize + s.cache.evictableSize).toNat

/-- The admission of staged requests. -/
def stagingCalls (s : DllmServer) (batch : List DllmReq) : List PrefillAdder.Call :=
  batch.map fun r => .staging s.availableAndEvictable (r.prepareStaging s.config)

/-- What TiDAR's run does to the slots: of the blocks it was given and what it took from the
allocator only the slots of accepted tokens are kept. -/
structure TidarRun (a : KvAllocator) (outs : List (List Slot)) (a' : KvAllocator)
    (kept : List (List Slot)) : Prop where
  holdings : a.holdings + (outs.flatten : List Slot) = a'.holdings + (kept.flatten : List Slot)
  frame : a'.pageSize = a.pageSize ∧ a'.isNotInFreeGroup = a.isNotInFreeGroup ∧
    a'.freeGroup = a.freeGroup

/-- The requests and the allocator after the algorithm ran on a batch. -/
inductive Ran (config : DllmConfig) (a : KvAllocator) (batch : List DllmReq)
    (outs : List (List Slot)) :
    KvAllocator → List (DllmReq × List MemCache.TokenId × Bool) → Prop
  | keep {results : List (List MemCache.TokenId × Bool)} :
    config.algorithm ≠ .tidar → results.length = batch.length →
    (∀ p ∈ results, p.1.length ≤ config.blockSize) →
    Ran config a batch outs a ((zipWith extended batch outs).zip results)
  | tidar {results : List (List MemCache.TokenId × Bool)} {a' : KvAllocator}
      {kept : List (List Slot)} :
    config.algorithm = .tidar → results.length = batch.length →
      (∀ p ∈ results, p.1.length ≤ config.blockSize) →
    TidarRun a outs a' kept → kept.map length = results.map (·.1.length) →
    Ran config a batch outs a' ((zipWith replaced (zipWith extended batch outs) kept).zip results)

/-- A round. `admits` restricts the admissions: with `fun _ _ => True` these are all rounds. -/
inductive Step (admits : PrefillAdder → List PrefillAdder.Call → Prop) (s : DllmServer) :
    DllmServer → Prop
  /-- New requests have their prompts cached. -/
  | prompt {batch : List DllmReq} {c : RadixCache} {a : KvAllocator} {outs : List (List Slot)} :
    (∀ r ∈ batch, r.row = none ∧ r.outputIds = [] ∧ r.cacheProtectedLen = 0) →
    allocForExtend s.cache s.allocator
    (batch.map fun r => (r.initPromptCacheInput s.cache.rootNode).toReq) = some (c, a, outs) →
    Step admits s { s with
      cache := c
      allocator := a
      reqs :=
        (zipWith extended (batch.map fun r => r.initPromptCacheInput s.cache.rootNode) outs).map
        (fun r => {r with fillIds := []}) ++ s.reqs }
  /-- Staged requests are denoised. A request that is refused changes nothing, so the batch is those
  that are not. -/
  | block {batch rest : List DllmReq} {adder : PrefillAdder} {remInput : Int}
      {offset : ℚ} {c c' : RadixCache} {a a' a'' : KvAllocator}
    {outs : List (List Slot)} {results : List (DllmReq × List MemCache.TokenId × Bool)}
      {reqs : List DllmReq} {now : Int} :
    adder =
      .create s.cache.pageSize s.config.blockSize s.config.maxRunningRequests remInput offset →
    s.reqs.Perm (batch ++ rest) → admits adder (s.stagingCalls batch) →
    (adder.admitAll (s.stagingCalls batch)).canRunList.length = batch.length →
    allocForExtend s.cache s.allocator
    ((adder.admitAll (s.stagingCalls batch)).canRunList.map (·.toReq)) = some (c, a, outs) →
    Ran s.config a (adder.admitAll (s.stagingCalls batch)).canRunList outs a' results →
    processAll s.args s.config now results c a'.freeGroupBegin = some (c', a'', reqs) →
    Step admits s {s with cache := c', allocator := a''.freeGroupEnd, reqs := reqs ++ rest}

/-! ### The empty tree -/

/-- Nothing was ever inserted. -/
structure IsEmpty (c : RadixCache) : Prop where
  counter : c.counter = 1
  root : c.rootNode = 0
  leaves : c.evictableLeaves = []
  page : c.pageSize = 1

variable {size : Nat} {c c' : RadixCache} {a a' : KvAllocator} {g g' : Shape}
  {locks : List NodeId} {owned : Multiset Nat} {reqs : List DllmReq}

lemma lock_root (h : Pool size c a g locks owned) :
    Pool size c a g (c.rootNode :: locks) owned := by
  obtain ⟨c', d, heq, hpool, _⟩ := h.lock h.sound.wf.root_mem
  have hsame : c.incLockRef c.rootNode = some (c, 0) := by
    unfold incLockRef
    split
    · rfl
    · exact lockRefLoop_root _ _ _ _ _
  obtain rfl : c = c' := congrArg Prod.fst (some.inj (hsame.symm.trans heq))
  exact hpool

lemma decLockRef_root (c : RadixCache) : c.decLockRef c.rootNode = some (c, 0) := by
  unfold decLockRef
  split
  · rfl
  · exact lockRefLoop_root _ _ _ _ _

namespace IsEmpty

lemma evictFromTreeCache (hc : IsEmpty c) (a : KvAllocator) (n : Nat) :
    evictFromTreeCache c a n = some (c, a) := by
  have hevict : c.evict n = some (c, 0, []) := by
    unfold evict
    split
    · rfl
    · rw [hc.leaves, map_nil, evictLoop.eq_def]
      simp [heappop]
  unfold Managers.evictFromTreeCache
  split
  · rw [hevict]
    rfl
  · rfl

lemma allocForExtend (hc : IsEmpty c) (hpage : a.pageSize = 1) {outs : List (List Slot)}
    (h : allocForExtend c a (reqs.map (·.toReq)) = some (c', a', outs)) :
    c' = c ∧ a.Handed a' (fun r : DllmReq => r.prefixIndices)
      (fun r => r.prefixIndices.length + (r.fillIds.length - r.prefixIndices.length))
      reqs outs := by
  unfold Managers.allocForExtend at h
  simp only [hc.page, if_true, hc.evictFromTreeCache, Option.bind_eq_bind,
    Option.bind_some, List.map_map] at h
  obtain ⟨⟨a1, out⟩, halloc, h⟩ := bind_eq_some_iff.mp h
  cases h
  exact ⟨rfl, handed_splitLens hpage _ halloc⟩

lemma nodePages (hc : IsEmpty c) (h : Pool size c a g locks owned) : c.nodePages g = 0 := by
  have hlive : g.live.erase c.tree.root = ∅ := by
    refine Finset.eq_empty_of_forall_notMem fun n hn => ?_
    obtain ⟨hne, hn⟩ := Finset.mem_erase.mp hn
    have hlt := h.sound.wf.lt_counter n hn
    rw [show c.tree.counter = c.counter from rfl, hc.counter] at hlt
    exact hne ((Nat.lt_one_iff.mp hlt).trans hc.root.symm)
  rw [RadixCache.nodePages, RadixCache.nodeSum, hlive, Finset.sum_empty]

end IsEmpty

/-! ### Requests -/

/-- A request between rounds: a slot for every token, and no more. -/
structure Kept (root : NodeId) (r : DllmReq) : Prop where
  row : ∃ row, r.row = some row ∧ row.length = r.tokens.length
  committed : r.kvCommittedLen = r.tokens.length
  allocated : r.kvAllocatedLen = r.tokens.length
  node : r.lastNode = root
  unshared : r.cacheProtectedLen = 0

/-- A request whose block was computed: slots for the block, or with TiDAR for what it accepted. -/
structure Pending (config : DllmConfig) (root : NodeId) (r : DllmReq)
    (tokens : List MemCache.TokenId) : Prop where
  row : ∃ row, r.row = some row ∧
    row.length = r.tokens.length + if config.algorithm = .tidar then tokens.length
    else config.blockSize
  committed : r.kvCommittedLen = r.tokens.length + config.blockSize
  allocated : r.kvAllocatedLen = r.tokens.length + config.blockSize
  le : tokens.length ≤ config.blockSize
  node : r.lastNode = root
  unshared : r.cacheProtectedLen = 0

variable {config : DllmConfig} {root : NodeId} {r : DllmReq} {tokens : List MemCache.TokenId}

/-- The row is cut to the tokens that are kept, and the rest of it is given back. -/
lemma reject_spec {rejected n : Nat} {row : List Slot} (hone : c.pageSize = 1)
    (h : Pool size c a g locks ((r.slots : List Slot) + owned)) (hrow : r.row = some row)
    (hcommitted : r.kvCommittedLen = n + rejected)
    (hlen : row.length = if config.algorithm = .tidar then n else n + rejected) : ∃ a',
    r.reject config rejected a =
    some (a', {r with row := some (row.take n), kvCommittedLen := n, kvAllocatedLen := n}) ∧
      (row.take n).length = n ∧ Pool size c a' g locks ((row.take n : List Slot) + owned) ∧
      a'.isNotInFreeGroup = a.isNotInFreeGroup := by
  have hslots := Req.slots_of_row hrow
  rw [hslots] at h
  simp only [reject, guard, hcommitted, Nat.le_add_left, if_true, bind_eq_bind,
    hslots, hrow, Nat.add_sub_cancel]
  by_cases halg : config.algorithm = .tidar
  · rw [if_pos halg] at hlen
    have hall : row.take n = row := by rw [← hlen, take_length]
    refine ⟨a, ?_, by rw [hall, hlen], by rw [hall]; exact h, rfl⟩
    simp [halg]
  · rw [if_neg halg] at hlen
    refine ⟨a.free (row.drop n), ?_, by rw [length_take]; omega, ?_, (a.free_frame _).2⟩
    · have hfreed : (row.take (n + rejected)).drop n = row.drop n := by rw [← hlen, take_length]
      simp [halg, hfreed]
    · refine Pool.free (hone ▸ paged_one _) ?_
      rw [hone, pageSet_one, add_right_comm, Multiset.coe_add, take_append_drop]
      exact h

lemma settle_spec (hone : c.pageSize = 1) (hr : Pending config root r tokens)
    (h : Pool size c a g locks ((r.slots : List Slot) + owned)) : ∃ a' r',
    r.settle config tokens a = some (a', r') ∧ Kept root r' ∧ r'.tokens = r.tokens ++ tokens ∧
      Pool size c a' g locks ((r'.slots : List Slot) + owned) ∧
      a'.isNotInFreeGroup = a.isNotInFreeGroup := by
  obtain ⟨row, hrow, hlen⟩ := hr.row
  have htokens : ({r with outputIds := r.outputIds ++ tokens} : DllmReq).tokens =
    r.tokens ++ tokens := (append_assoc _ _ _).symm
  have hle := hr.le
  -- cutting the row to the tokens that are kept
  have hcut : ∀ r1 : DllmReq, r1 = {r with outputIds := r.outputIds ++ tokens} →
      ∃ a' r', r1.reject config (config.blockSize - tokens.length) a = some (a', r') ∧
      Kept root r' ∧
        r'.tokens = r.tokens ++ tokens ∧ Pool size c a' g locks ((r'.slots : List Slot) + owned) ∧
        a'.isNotInFreeGroup = a.isNotInFreeGroup := by
    rintro _ rfl
    obtain ⟨a', heq, hlen', hpool, hgroup⟩ := @reject_spec size c a g locks owned config
      {r with outputIds := r.outputIds ++ tokens} (config.blockSize - tokens.length)
      (r.tokens.length + tokens.length) row hone h hrow
        (by rw [show _ = r.kvCommittedLen from rfl, hr.committed]; omega)
      (by rw [hlen]; split <;> omega)
    have hlen'' : (r.tokens ++ tokens).length = r.tokens.length + tokens.length := length_append
    refine ⟨a', _, heq, ⟨⟨_, rfl, ?_⟩, ?_, ?_, hr.node, hr.unshared⟩, htokens, hpool, hgroup⟩
    · exact hlen'.trans (hlen''.symm.trans (congrArg _ htokens.symm))
    · exact hlen''.symm.trans (congrArg _ htokens.symm)
    · exact hlen''.symm.trans (congrArg _ htokens.symm)
  unfold settle
  split
  · next hnil =>
    subst hnil
    exact hcut r (by rw [append_nil])
  unfold accept
  split
  · exact hcut _ rfl
  rename_i hfull
  have hfull : tokens.length = config.blockSize := by omega
  have hlen'' : (r.tokens ++ tokens).length = r.tokens.length + tokens.length := length_append
  refine ⟨a, _, rfl, ⟨⟨row, hrow, ?_⟩, ?_, ?_, hr.node, hr.unshared⟩, htokens, h, rfl⟩
  · rw [htokens, hlen'', hlen, hfull, ite_self]
  · rw [htokens, hlen'', hfull]
    exact hr.committed
  · rw [htokens, hlen'', hfull]
    exact hr.allocated

/-! ### Finishing -/

lemma releaseKvCache_quiet {r : Req} {now d : Int} {args : ServerArgs}
    (hd : c.decLockRef r.lastNode = some (c, d))
    (h : releaseKvCache now args false c a r = some (c', a')) :
    c' = c ∧ a'.isNotInFreeGroup = a.isNotInFreeGroup := by
  unfold releaseKvCache at h
  simp only [bind_eq_bind] at h
  obtain ⟨row, hrow, hbody⟩ := bind_eq_some_iff.mp h
  obtain ⟨⟨c1, a1⟩, hfin, hrest⟩ := bind_eq_some_iff.mp hbody
  obtain ⟨_, _, hlast⟩ := bind_eq_some_iff.mp hrest
  have hquiet : c1 = c ∧ a1.isNotInFreeGroup = a.isNotInFreeGroup := by
    unfold cacheFinishedReq at hfin
    split at hfin
    · cases hfin
      exact ⟨rfl, (a.free_frame _).2⟩
    · simp only [insertFinished, Bool.false_and, Bool.false_eq_true, if_false,
        bind_eq_bind, bind_some, hd] at hfin
      cases hfin
      exact ⟨rfl, ((free_frame _ _).2).trans (a.free_frame _).2⟩
  obtain ⟨hc', ha'⟩ := Prod.mk.inj (some.inj hlast)
  refine ⟨hc'.symm.trans hquiet.1, ?_⟩
  have hfree : ∀ (n m : Nat) (l : List Slot), (if n < m then a1.free l else a1).isNotInFreeGroup =
      a.isNotInFreeGroup := by
    intro n m l
    split
    · exact ((free_frame _ _).2).trans hquiet.2
    · exact hquiet.2
  rw [← ha']
  exact hfree _ _ _

lemma Kept.placed (hone : c.pageSize = 1) (hr : Kept c.rootNode r)
    (h : Pool size c a g locks owned) :
    Placed c g {r.toReq with fillIds := [], prefixIndices := []} := by
  obtain ⟨row, hrow, hlen⟩ := hr.row
  have hwf := h.sound.wf
  have hnode : r.lastNode = c.tree.root := hr.node
  have hpath : g.path r.lastNode = [] := hnode ▸ hwf.root_path
  refine ⟨?_, ?_, ?_, ?_, .inl hnode, hone ▸ paged_one _, nil_prefix, ?_, ?_⟩
  · exact hnode ▸ hwf.root_mem
  · rw [hpath, show _ = r.cacheProtectedLen from rfl, hr.unshared, take_zero]
  · rw [hpath]
    exact hr.unshared.symm
  · rw [show _ = r.lastNode from rfl, hnode, hwf.root_vals, show _ = r.cacheProtectedLen from
      rfl, hr.unshared, take_zero]
  · intro hnone
    exact absurd (hrow.symm.trans hnone) (some_ne_none _)
  · intro row' hrow'
    cases hrow.symm.trans hrow'
    refine ⟨hlen.trans hr.committed.symm, hr.allocated.trans hr.committed.symm,
      nil_prefix, Nat.zero_le _, ?_⟩
    exact hr.unshared.le.trans (Nat.zero_le _)

lemma release_spec (hc : IsEmpty c) (hr : Kept c.rootNode r)
    (h : Pool size c a g (r.lastNode :: locks) ((r.slots : List Slot) + owned))
    (now : Int) (args : ServerArgs) :
    ∃ a' g', releaseKvCache now args false c a r.toReq = some (c, a') ∧
    Pool size c a' g' locks owned ∧
      a'.isNotInFreeGroup = a.isNotInFreeGroup := by
  obtain ⟨row, hrow, hlen⟩ := hr.row
  have hfin : Req.CanFinish {r.toReq with fillIds := [], prefixIndices := []} args :=
    ⟨hr.committed.le, fun _ _ => Nat.zero_le _⟩
  have hslots := Req.slots_of_row hrow
  have hown : Req.ownPages c.pageSize {r.toReq with fillIds := [], prefixIndices := []} =
      (r.slots : List Slot) := by
    rw [Req.ownPages, hc.page, pageSet_one, show _ = r.cacheProtectedLen from
      rfl, hr.unshared, drop_zero, hslots,
      Req.slots, show _ = some row from hrow, getD_some]
  rw [← hown] at h
  obtain ⟨c', a', g', heq, hpool, _⟩ :=
    releaseKvCache_spec h (hr.placed hc.page h) hrow hfin now false
  change releaseKvCache now _ false c a r.toReq = _ at heq
  obtain ⟨rfl, hgroup⟩ := releaseKvCache_quiet (hr.node ▸ decLockRef_root c) heq
  exact ⟨a', g', heq, hpool, hgroup⟩

/-! ### Processing a batch -/

/-- The slots in the rows of some requests. -/
def slotsOf (reqs : List DllmReq) : Multiset Slot :=
  (reqs.map fun r => (r.slots : Multiset Slot)).sum

lemma slotsOf_cons (r : DllmReq) (reqs : List DllmReq) :
    slotsOf (r :: reqs) = (r.slots : Multiset Slot) + slotsOf reqs := by
  simp [slotsOf]

lemma slotsOf_append (reqs reqs' : List DllmReq) :
    slotsOf (reqs ++ reqs') = slotsOf reqs + slotsOf reqs' := by
  simp [slotsOf]

lemma slotsOf_perm {reqs' : List DllmReq} (h : reqs.Perm reqs') : slotsOf reqs = slotsOf reqs' :=
  (h.map _).sum_eq

lemma processOne_spec (hc : IsEmpty c) (hr : Pending config c.rootNode r tokens)
    (h : Pool size c a g (r.lastNode :: locks) ((r.slots : List Slot) + owned))
    (args : ServerArgs) (now : Int) (stopped : Bool) : ∃ a' o g',
    processOne args config now c a r tokens stopped = some (c, a', o) ∧
    (∀ r' ∈ o, Kept c.rootNode r') ∧
      Pool size c a' g' (o.toList.map (·.lastNode) ++ locks) (slotsOf o.toList + owned) ∧
      a'.isNotInFreeGroup = a.isNotInFreeGroup := by
  obtain ⟨a1, r1, hsettle, hkept, _, hpool, hgroup⟩ := settle_spec hc.page hr h
  have hnode : r1.lastNode = r.lastNode := hkept.node.trans hr.node.symm
  unfold processOne
  simp only [hsettle, bind_eq_bind, bind_some]
  split
  · rw [← hnode] at hpool
    obtain ⟨a2, g2, hrelease, hpool2, hgroup2⟩ := release_spec hc hkept hpool now args
    refine ⟨a2, none, g2, by rw [hrelease]; rfl, nofun, ?_, hgroup2.trans hgroup⟩
    simpa [slotsOf] using hpool2
  · refine ⟨a1, some r1, g, rfl, fun r' hr' => some.inj hr' ▸ hkept, ?_, hgroup⟩
    simpa [slotsOf, hnode] using hpool

/-- The loop ends, and leaves every request that goes on a slot for each of its tokens. -/
lemma processAll_spec (hc : IsEmpty c) {batch : List (DllmReq × List MemCache.TokenId × Bool)}
    (hbatch : ∀ p ∈ batch, Pending config c.rootNode p.1 p.2.1)
    (h : Pool size c a g (batch.map (·.1.lastNode) ++ locks) (slotsOf (batch.map (·.1)) + owned))
    (args : ServerArgs) (now : Int) : ∃ a' rs g',
    processAll args config now batch c a = some (c, a', rs) ∧ (∀ r ∈ rs, Kept c.rootNode r) ∧
      Pool size c a' g' (rs.map (·.lastNode) ++ locks) (slotsOf rs + owned) ∧
      a'.isNotInFreeGroup = a.isNotInFreeGroup := by
  induction batch generalizing a g locks owned with
  | nil => exact ⟨a, [], g, rfl, nofun, by simpa using h, rfl⟩
  | cons p batch ih =>
    obtain ⟨r, tokens, stopped⟩ := p
    obtain ⟨hr, hbatch⟩ := forall_mem_cons.mp hbatch
    simp only [map_cons, slotsOf_cons, add_assoc, cons_append] at h
    obtain ⟨a1, o, g1, hone, hkept, hpool, hgroup⟩ := processOne_spec hc hr h args now stopped
    -- what the request still owns is part of the frame of the rest of the loop
    have hpool :
      Pool size c a1 g1 (batch.map (·.1.lastNode) ++ (o.toList.map (·.lastNode) ++ locks))
        (slotsOf (batch.map (·.1)) + (slotsOf o.toList + owned)) := by
      rw [add_left_comm]
      refine hpool.perm ?_
      rw [← append_assoc, ← append_assoc]
      exact perm_append_comm.append_right _
    obtain ⟨a2, rs, g2, hall, hrs, hpool2, hgroup2⟩ := ih hbatch hpool
    refine ⟨a2, o.toList ++ rs, g2, ?_, ?_, ?_, hgroup2.trans hgroup⟩
    · simp [processAll, hone, hall]
    · intro r' hr'
      obtain hr' | hr' := mem_append.mp hr'
      · exact hkept r' (mem_toList.mp hr')
      · exact hrs r' hr'
    · rw [slotsOf_append, add_comm (slotsOf _), add_assoc, map_append]
      refine hpool2.perm ?_
      rw [← append_assoc]
      exact perm_append_comm.append_right _

/-! ### Rounds -/

/-- What every round keeps. -/
structure Inv (size : Nat) (s : DllmServer) : Prop where
  empty : IsEmpty s.cache
  outside : s.allocator.isNotInFreeGroup = true
  pool : ∃ g, Pool size s.cache s.allocator g (s.reqs.map (·.lastNode)) (slotsOf s.reqs)
  kept : ∀ r ∈ s.reqs, Kept s.cache.rootNode r

variable {batch : List DllmReq} {outs : List (List Slot)}

lemma slotsOf_zipWith {f : DllmReq → List Slot → DllmReq}
    (hf : ∀ r out, (f r out).slots = r.prefixIndices ++ out) (hlen : outs.length = batch.length) :
    slotsOf (zipWith f batch outs) =
      (batch.map fun r => (r.prefixIndices : Multiset Slot)).sum + (outs.flatten : List Slot) := by
  induction batch generalizing outs with
  | nil =>
    obtain rfl := eq_nil_of_length_eq_zero hlen
    rfl
  | cons r batch ih =>
    cases outs with
    | nil => cases hlen
    | cons out outs =>
      rw [zipWith_cons_cons, slotsOf_cons, hf, ih (Nat.succ.inj hlen), map_cons, sum_cons,
        flatten_cons, ← Multiset.coe_add, ← Multiset.coe_add]
      abel

/-- An extend batch whose prefixes are owned: its requests own the slots they are handed as well. -/
lemma extend_spec (hc : IsEmpty c) (hopen : a.isNotInFreeGroup = true)
    (h : Pool size c a g locks ((reqs.map fun r => (r.prefixIndices : Multiset Slot)).sum + owned))
    (hreqs : ∀ r ∈ reqs, r.prefixIndices.length ≤ r.fillIds.length)
    (heq : allocForExtend c a (reqs.map (·.toReq)) = some (c', a', outs)) :
    c' = c ∧ a'.isNotInFreeGroup = true ∧ outs.length = reqs.length ∧
      (∀ p ∈ reqs.zip outs, (p.1.prefixIndices ++ p.2).length = p.1.fillIds.length) ∧
      ∃ g', Pool size c a' g' locks
        ((reqs.map fun r => (r.prefixIndices : Multiset Slot)).sum + (outs.flatten : List Slot) +
        owned) := by
  obtain ⟨rfl, hhanded⟩ := hc.allocForExtend (h.page.trans hc.page) heq
  obtain ⟨ps, htook, hsum⟩ := hhanded.took
  have hflat : (ps : Multiset Slot) = (outs.flatten : List Slot) := by
    have hslots := @slotsOf_zipWith reqs outs extended (fun _ _ => rfl) hhanded.length
    rw [slotsOf, map_zipWith, ← map_uncurry_zip_eq_zipWith] at hslots
    rw [h.page, hc.page] at hsum
    simp only [pageSet_one] at hsum
    exact (add_left_cancel (hslots.symm.trans hsum)).symm
  refine ⟨rfl, htook.group.1.trans hopen, hhanded.length, fun p hp => ?_, g, ?_⟩
  · have hle := hreqs p.1 (of_mem_zip hp).1
    rw [hhanded.seqLen p hp]
    omega
  · have hpool := h.took htook
    rw [hflat, add_right_comm] at hpool
    exact hpool

/-- A request that goes into a denoising batch: a block after its tokens, which all have slots. -/
structure Staged (config : DllmConfig) (root : NodeId) (r : DllmReq) : Prop where
  cached : r.prefixIndices.length = r.tokens.length
  fill : r.fillIds.length = r.tokens.length + config.blockSize
  node : r.lastNode = root
  unshared : r.cacheProtectedLen = 0

lemma Staged.pending {out : List Slot} (hr : Staged config root r)
    (hle : tokens.length ≤ config.blockSize)
    (hout : out.length = if config.algorithm = .tidar then tokens.length else config.blockSize) :
    Pending config root (r.extended out) tokens := by
  refine ⟨⟨_, rfl, ?_⟩, hr.fill, hr.fill, hle, hr.node, hr.unshared⟩
  rw [length_append, hr.cached, hout]
  rfl

lemma pending_of_mem {results : List (List MemCache.TokenId × Bool)}
    (hstaged : ∀ r ∈ batch, Staged config root r) (hresults : results.length = batch.length)
    (hle : ∀ p ∈ results, p.1.length ≤ config.blockSize)
    (houts : outs.map length = results.map fun p => if config.algorithm = .tidar then
    p.1.length else config.blockSize) :
    ∀ p ∈ (zipWith extended batch outs).zip results, Pending config root p.1 p.2.1 := by
  intro p hp
  obtain ⟨i, hi, rfl⟩ := mem_iff_getElem.mp hp
  rw [length_zip, length_zipWith] at hi
  simp only [getElem_zip, getElem_zipWith]
  refine (hstaged _ (getElem_mem _)).pending (hle _ (getElem_mem _)) ?_
  have hlen := congrArg (·[i]?) houts
  simpa [getElem?_eq_getElem (show i < outs.length by omega),
    getElem?_eq_getElem (show i < results.length by omega)] using hlen

lemma zipWith_replaced {kept : List (List Slot)} (houts : outs.length = batch.length) :
    zipWith replaced (zipWith extended batch outs) kept =
      zipWith extended batch kept := by
  refine ext_getElem ?_ fun i _ _ => ?_
  · simp only [length_zipWith]
    omega
  · simp only [getElem_zipWith]
    rfl

/-- The algorithm's part of a round, for whichever party frees what it does not keep. -/
lemma ran_spec {results : List (DllmReq × List MemCache.TokenId × Bool)}
    (hstaged : ∀ r ∈ batch, Staged config root r) (houts : outs.length = batch.length)
    (hlens : ∀ p ∈ batch.zip outs, (p.1.prefixIndices ++ p.2).length = p.1.fillIds.length)
    (h : Pool size c a g locks
    ((batch.map fun r => (r.prefixIndices : Multiset Slot)).sum + (outs.flatten : List Slot) +
    owned))
    (hran : Ran config a batch outs a' results) :
    (∀ p ∈ results, Pending config root p.1 p.2.1) ∧ results.map (·.1.lastNode) = batch.map
    (·.lastNode) ∧
      Pool size c a' g locks (slotsOf (results.map (·.1)) + owned) ∧
      a'.isNotInFreeGroup = a.isNotInFreeGroup := by
  have hnodes : ∀ (xs : List (List Slot)) (res : List (List MemCache.TokenId × Bool)),
    xs.length = batch.length →
      res.length = batch.length →
      ((zipWith extended batch xs).zip res).map (·.1.lastNode) = batch.map (·.lastNode) := by
    intro xs res hxs hres
    refine ext_getElem (by simp [hxs, hres]) fun i _ _ => ?_
    simp only [getElem_map, getElem_zip, getElem_zipWith]
    rfl
  cases hran with
  | @keep res halg hresults hle =>
    have hfst := @map_fst_zip _ _ (zipWith extended batch outs) res (by rw [length_zipWith]; omega)
    refine ⟨pending_of_mem hstaged hresults hle ?_, ?_, ?_, rfl⟩
    · refine ext_getElem (by simp [houts, hresults]) fun i hi _ => ?_
      rw [length_map] at hi
      have hstage := hstaged _ (getElem_mem (show i < batch.length by omega))
      have hlen : (batch[i].prefixIndices ++ outs[i]).length = batch[i].fillIds.length :=
        hlens (batch[i], outs[i]) (mem_iff_getElem.mpr ⟨i, by rw [length_zip]; omega, by simp⟩)
      rw [length_append, hstage.cached, hstage.fill] at hlen
      simp only [getElem_map, if_neg halg]
      omega
    · exact hnodes outs res houts hresults
    · rw [hfst, slotsOf_zipWith (fun _ _ => rfl) houts]
      exact h
  | @tidar res _ kept halg hresults hle hrun hkept =>
    have hkeptLen : kept.length = batch.length := by
      rw [← hresults, ← length_map (f := length), hkept, length_map]
    rw [zipWith_replaced houts]
    have hfst := @map_fst_zip _ _ (zipWith extended batch kept) res (by rw [length_zipWith]; omega)
    refine ⟨pending_of_mem hstaged hresults hle ?_, ?_, ?_, hrun.frame.2.1⟩
    · simpa only [if_pos halg] using hkept
    · exact hnodes kept res hkeptLen hresults
    · rw [hfst, slotsOf_zipWith (fun _ _ => rfl) hkeptLen]
      refine ⟨h.sound, h.vals, hrun.frame.1.trans h.page, ?_, ?_⟩
      · intro hgroup
        rw [hrun.frame.1, hrun.frame.2.2]
        exact h.group (hrun.frame.2.1.symm.trans hgroup)
      · rw [← h.pages]
        -- the slots of the blocks are exchanged for those kept
        have hmove := hrun.holdings
        calc _ = (a'.holdings + (kept.flatten : List Slot)) + c.nodePages g +
              ((batch.map fun r => (r.prefixIndices : Multiset Slot)).sum + owned) := by abel
          _ = _ := by
            rw [← hmove]
            abel

variable {s s' : DllmServer}

lemma Kept.staged (hr : Kept root r) : Staged config root (r.prepareStaging config) := by
  obtain ⟨row, hrow, hlen⟩ := hr.row
  refine ⟨?_, ?_, hr.node, hr.unshared⟩
  · show (r.slots.take r.kvCommittedLen).length = r.tokens.length
    rw [Req.slots, hrow, getD_some, length_take, hr.committed, hlen, Nat.min_self]
  · exact length_append.trans (congrArg _ length_replicate)

lemma Kept.prefixIndices (hr : Kept root r) :
    (r.prepareStaging config).prefixIndices = r.slots := by
  obtain ⟨row, hrow, hlen⟩ := hr.row
  show r.slots.take r.kvCommittedLen = r.slots
  rw [Req.slots, hrow, getD_some, hr.committed, ← hlen, take_length]

lemma Kept.isBlock (hr : Kept root r) (free : Nat) :
    (staging free (r.prepareStaging config)).IsBlock config.blockSize := by
  have hstaged : Staged config root (r.prepareStaging config) := hr.staged
  refine ⟨hstaged.fill, hstaged.cached, ?_⟩
  show (r.prepareStaging config).fillIds.length - (r.prepareStaging config).prefixIndices.length =
    config.blockSize
  rw [hstaged.fill, hstaged.cached, Nat.add_sub_cancel_left]

lemma isNotInFreeGroup_freeGroupEnd (a : KvAllocator) : a.freeGroupEnd.isNotInFreeGroup = true := by
  unfold freeGroupEnd
  simp only
  split
  · rfl
  · exact (free_frame _ _).2

section
variable {adder : PrefillAdder} {remInput : Int} {offset : ℚ}
  (hadder : adder =
  .create s.cache.pageSize s.config.blockSize s.config.maxRunningRequests remInput offset)
  (hfit : adder.AllFit (s.stagingCalls batch))
  (hlen : (adder.admitAll (s.stagingCalls batch)).canRunList.length = batch.length)
include hadder hfit hlen

/-- Staged requests that fit and are all admitted run as they were staged. -/
lemma canRunList_staging (hkept : ∀ r ∈ batch, Kept root r) :
    (adder.admitAll (s.stagingCalls batch)).canRunList = batch.map (·.prepareStaging s.config) := by
  have hcalls : s.stagingCalls batch = (batch.map (·.prepareStaging s.config)).map
      (staging s.availableAndEvictable) := by
    rw [stagingCalls, List.map_map]
    rfl
  have hsize : adder.dllmBlockSize = s.config.blockSize := by rw [hadder]; rfl
  have hempty : adder.canRunList = [] := by rw [hadder]; rfl
  rw [hcalls] at hfit hlen ⊢
  have hblock : ∀ req ∈ batch.map (·.prepareStaging s.config),
      (staging s.availableAndEvictable req).IsBlock adder.dllmBlockSize := by
    intro req hreq
    obtain ⟨r, hr, rfl⟩ := mem_map.mp hreq
    exact hsize ▸ (hkept r hr).isBlock _
  obtain ⟨added, hadded, hsub⟩ :=
    PrefillAdder.admitAll_staging (hsize ▸ s.config.blockSize_pos) hblock hfit
  rw [hempty, nil_append] at hadded
  rw [hadded] at hlen ⊢
  exact hsub.eq_of_length (hlen.trans (length_map _).symm)

/-- A denoising round of requests that fit goes through, and keeps the invariant. -/
lemma Inv.block (hi : Inv size s) {rest : List DllmReq}
    {results : List (DllmReq × List MemCache.TokenId × Bool)} (hperm : s.reqs.Perm (batch ++ rest))
    (halloc : allocForExtend s.cache s.allocator
    ((adder.admitAll (s.stagingCalls batch)).canRunList.map (·.toReq)) =
      some (c, a, outs))
    (hran : Ran s.config a (adder.admitAll (s.stagingCalls batch)).canRunList outs a' results)
    (now : Int) : ∃ a'' reqs,
    processAll s.args s.config now results c a'.freeGroupBegin = some (c, a'', reqs) ∧
      Inv size {s with cache := c, allocator := a''.freeGroupEnd, reqs := reqs ++ rest} := by
  obtain ⟨hc, hopen, ⟨g, hpool⟩, hkept⟩ := hi
  have hbatch : ∀ r ∈ batch, Kept s.cache.rootNode r :=
    fun r hr => hkept r (hperm.mem_iff.mpr (mem_append_left _ hr))
  have hstaged : ∀ r ∈ batch.map (·.prepareStaging s.config),
      Staged s.config s.cache.rootNode r := by
    intro r' hr'
    obtain ⟨r, hr, rfl⟩ := mem_map.mp hr'
    exact (hbatch r hr).staged
  rw [canRunList_staging hadder hfit hlen hbatch] at halloc hran
  -- the batch continues from the slots it has
  have hslots :
    ((batch.map (·.prepareStaging s.config)).map fun r => (r.prefixIndices : Multiset Slot)).sum =
      slotsOf batch := by
    rw [slotsOf, List.map_map]
    refine congrArg List.sum (map_congr_left fun r hr => ?_)
    exact congrArg _ (hbatch r hr).prefixIndices
  have hpool : Pool size s.cache s.allocator g (batch.map (·.lastNode) ++ rest.map (·.lastNode))
      (((batch.map (·.prepareStaging s.config)).map
        fun r => (r.prefixIndices : Multiset Slot)).sum + slotsOf rest) := by
    rw [hslots, ← slotsOf_append, ← slotsOf_perm hperm, ← map_append]
    exact hpool.perm (hperm.map _)
  obtain ⟨rfl, hopen1, houts, hlens, g1, hpool1⟩ := extend_spec hc hopen hpool
    (fun r hr => by rw [(hstaged r hr).cached, (hstaged r hr).fill]; exact Nat.le_add_right _ _)
      halloc
  obtain ⟨hpending, hnodes, hpool2, hopen2⟩ := ran_spec hstaged houts hlens hpool1 hran
  have hopen3 : a'.isNotInFreeGroup = true := hopen2.trans hopen1
  have hpool3 := hpool2.freeGroupBegin hopen3
  rw [List.map_map] at hnodes
  rw [show batch.map (·.lastNode) = results.map (·.1.lastNode) from hnodes.symm] at hpool3
  obtain ⟨a'', reqs, g4, hall, hreqs, hpool4, hopen4⟩ :=
    processAll_spec hc hpending hpool3 s.args now
  refine ⟨a'', reqs, hall, hc, isNotInFreeGroup_freeGroupEnd a'', ⟨g4, ?_⟩, ?_⟩
  · have hend := hpool4.freeGroupEnd hopen4
    rw [← slotsOf_append, ← map_append] at hend
    exact hend
  · intro r hr
    obtain hr | hr := mem_append.mp hr
    · exact hreqs r hr
    · exact hkept r (hperm.mem_iff.mpr (mem_append_right _ hr))

end

lemma lock_roots {ls : List NodeId} (h : Pool size c a g locks owned)
    (hls : ∀ l ∈ ls, l = c.rootNode) :
    Pool size c a g (ls ++ locks) owned := by
  induction ls with
  | nil => exact h
  | cons l ls ih =>
    obtain ⟨rfl, hrest⟩ := forall_mem_cons.mp hls
    exact lock_root (ih hrest)

lemma Inv.prompt (hi : Inv size s)
    (hnew : ∀ r ∈ batch, r.row = none ∧ r.outputIds = [] ∧ r.cacheProtectedLen = 0)
    (halloc : allocForExtend s.cache s.allocator
      (batch.map fun r => (r.initPromptCacheInput s.cache.rootNode).toReq) = some (c, a, outs)) :
    Inv size { s with
      cache := c
      allocator := a
      reqs :=
        (zipWith extended (batch.map fun r => r.initPromptCacheInput s.cache.rootNode) outs).map
        (fun r => {r with fillIds := []}) ++ s.reqs } := by
  obtain ⟨hc, hopen, ⟨g, hpool⟩, hkept⟩ := hi
  generalize hprompts : (batch.map fun r => r.initPromptCacheInput s.cache.rootNode) = prompts
  have hprompt : ∀ r ∈ prompts, r.prefixIndices = [] ∧ r.fillIds = r.tokens ∧
    r.lastNode = s.cache.rootNode ∧
      r.cacheProtectedLen = 0 := by
    intro r' hr'
    rw [← hprompts] at hr'
    obtain ⟨r, hr, rfl⟩ := mem_map.mp hr'
    obtain ⟨_, hout, hprot⟩ := hnew r hr
    refine ⟨rfl, ?_, rfl, hprot⟩
    show r.originInputIds = r.originInputIds ++ r.outputIds
    rw [hout, append_nil]
  have hnone : (prompts.map fun r => (r.prefixIndices : Multiset Slot)).sum = 0 := by
    refine sum_eq_zero fun l hl => ?_
    obtain ⟨r, hr, rfl⟩ := mem_map.mp hl
    rw [(hprompt r hr).1]
    rfl
  have hpool' : Pool size s.cache s.allocator g (s.reqs.map (·.lastNode))
      ((prompts.map fun r => (r.prefixIndices : Multiset Slot)).sum + slotsOf s.reqs) := by
    rw [hnone, zero_add]
    exact hpool
  have halloc : allocForExtend s.cache s.allocator (prompts.map (·.toReq)) = some (c, a, outs) := by
    rw [← hprompts, List.map_map]
    exact halloc
  obtain ⟨rfl, hopen1, houts, hlens, g1, hpool1⟩ := extend_spec hc hopen hpool'
    (fun r hr => by rw [(hprompt r hr).1]; exact Nat.zero_le _) halloc
  have hcached : ∀ r ∈ (zipWith extended prompts outs).map (fun r => {r with fillIds := []}),
      Kept s.cache.rootNode r := by
    intro r' hr'
    obtain ⟨r'', hr'', rfl⟩ := mem_map.mp hr'
    rw [← map_uncurry_zip_eq_zipWith] at hr''
    obtain ⟨⟨r, out⟩, hp, rfl⟩ := mem_map.mp hr''
    obtain ⟨hpre, hfill, hnode, hprot⟩ := hprompt r (of_mem_zip hp).1
    have hlen : (r.prefixIndices ++ out).length = r.tokens.length := hfill ▸ hlens _ hp
    exact ⟨⟨_, rfl, hlen⟩, congrArg _ hfill, congrArg _ hfill, hnode, hprot⟩
  refine ⟨hc, hopen1, ⟨g1, ?_⟩, ?_⟩
  · show Pool size s.cache a g1 _ _
    rw [slotsOf_append, map_append]
    refine lock_roots ?_ ?_
    · have hslots : slotsOf ((zipWith extended prompts outs).map fun r => {r with fillIds := []}) =
          slotsOf (zipWith extended prompts outs) := by
        rw [slotsOf, List.map_map]
        rfl
      rw [hslots, slotsOf_zipWith (fun _ _ => rfl) houts]
      exact hpool1
    · intro l hl
      obtain ⟨r, hr, rfl⟩ := mem_map.mp hl
      exact (hcached r hr).node
  · intro r hr
    obtain hr | hr := mem_append.mp hr
    · exact hcached r hr
    · exact hkept r hr

lemma Step.inv (hi : Inv size s) (hstep : Step (fun adder calls => adder.AllFit calls) s s') :
    Inv size s' := by
  cases hstep with
  | prompt hnew halloc => exact hi.prompt hnew halloc
  | block hadder hperm hfit hlen halloc hran hall =>
    obtain ⟨a'', reqs, hall', hi'⟩ := hi.block hadder hfit hlen hperm halloc hran _
    cases hall.symm.trans hall'
    exact hi'

/-! ### Whole runs -/

/-- The books of the scheduler between rounds. -/
structure Accounted (size : Nat) (s : DllmServer) : Prop where
  lens : ∀ r ∈ s.reqs, r.kvCommittedLen = r.originInputIds.length + r.outputIds.length ∧
    r.kvAllocatedLen = r.kvCommittedLen ∧ ∃ row, r.row = some row ∧ row.length = r.kvCommittedLen
  /-- Every slot of the pool is in the free lists or in the row of a live request, once. -/
  owners : ∀ slot, (s.allocator.freePages ++ s.allocator.releasePages).count slot +
    (s.reqs.map fun r => r.slots.count slot).sum = if 1 ≤ slot ∧ slot ≤ size then 1 else 0
  outside : s.allocator.isNotInFreeGroup = true

/-- Whatever the algorithm returns for a batch that fits is processed without an error. -/
def Processes (s : DllmServer) : Prop :=
  ∀ {batch rest : List DllmReq} {adder : PrefillAdder} {remInput : Int}
    {offset : ℚ} {c : RadixCache} {a a' : KvAllocator}
    {outs : List (List Slot)} {results : List (DllmReq × List MemCache.TokenId × Bool)} (now : Int),
    adder =
    .create s.cache.pageSize s.config.blockSize s.config.maxRunningRequests remInput offset →
    s.reqs.Perm (batch ++ rest) → adder.AllFit (s.stagingCalls batch) →
    (adder.admitAll (s.stagingCalls batch)).canRunList.length = batch.length →
    allocForExtend s.cache s.allocator
    ((adder.admitAll (s.stagingCalls batch)).canRunList.map (·.toReq)) = some (c, a, outs) →
    Ran s.config a (adder.admitAll (s.stagingCalls batch)).canRunList outs a' results →
    (processAll s.args s.config now results c a'.freeGroupBegin).isSome

lemma count_slotsOf (reqs : List DllmReq) (slot : Slot) :
    (slotsOf reqs).count slot = (reqs.map fun r => r.slots.count slot).sum := by
  induction reqs with
  | nil => rfl
  | cons r reqs ih =>
    rw [slotsOf_cons, Multiset.count_add, ih, map_cons, sum_cons, Multiset.coe_count]

lemma Inv.accounted (hi : Inv size s) : Accounted size s := by
  obtain ⟨g, hpool⟩ := hi.pool
  refine ⟨fun r hr => ?_, fun slot => ?_, hi.outside⟩
  · have hr := hi.kept r hr
    have hlen : r.tokens.length = r.originInputIds.length + r.outputIds.length := length_append
    obtain ⟨row, hrow, hrowLen⟩ := hr.row
    exact ⟨hr.committed.trans hlen, hr.allocated.trans hr.committed.symm,
      row, hrow, hrowLen.trans hr.committed.symm⟩
  · have hcount := congrArg (Multiset.count slot) hpool.pages
    rw [hi.empty.nodePages hpool, add_zero, Multiset.count_add, count_slotsOf, holdings, pending,
      if_pos hi.outside, add_zero, Multiset.coe_add, Multiset.coe_count,
      count_poolPages, hi.empty.page,
      Nat.div_one] at hcount
    exact hcount

lemma Inv.processes (hi : Inv size s) : Processes s := by
  intro batch rest adder remInput offset c a a' outs results now hadder hperm hfit hlen halloc hran
  obtain ⟨a'', reqs, hall, _⟩ := hi.block hadder hfit hlen hperm halloc hran now
  rw [hall]
  rfl

lemma inv_create (args : ServerArgs) (config : DllmConfig) {params : CacheInitParams}
    (hone : params.pageSize = 1) (size : Nat) (needSort : Bool) (now : Int) :
    Inv size (create args config params size needSort now) := by
  obtain ⟨g, hi⟩ := Server.inv_create args params size needSort now
  exact ⟨⟨rfl, rfl, rfl, hone⟩, rfl, ⟨g, hi.pool⟩, nofun⟩

/-- **KV accounting across rounds.** In every run whose denoising batches are made of whole blocks,
each request has a slot for each of its tokens, and each slot one owner; so a request that finishes
has given back its slots, once, and no others. -/
theorem run_accounted {args : ServerArgs} {config : DllmConfig} {params : CacheInitParams}
    (hone : params.pageSize = 1) {size : Nat} {needSort : Bool} {now : Int}
    {history : List DllmServer}
    (hrun : Run (Step fun adder calls => adder.AllFit calls)
    (create args config params size needSort now) history) :
    ∀ s ∈ history, Accounted size s ∧ Processes s := by
  intro s hs
  have hi : Inv size s :=
    hrun.invariant (inv_create args config hone size needSort now)
    (fun _ _ hi hstep => hstep.inv hi) s hs
  exact ⟨hi.accounted, hi.processes⟩

/-- A server of one request at a time, with slots that are pages. -/
def small (blockSize size : Nat) (h : 0 < blockSize) : DllmServer :=
  create {}
    {algorithm := .linearSpec, blockSize, maskId := 0, maxRunningRequests := 1, blockSize_pos := h}
    {pageSize := 1, pageSize_pos := by decide} size false 0

/-- A prompt of two tokens, for two more. -/
def newReq : DllmReq where
  originInputIds := [5, 6]
  maxNewTokens := 2

section
variable (s : DllmServer)

/-- The server after the prompt of `newReq`, and what it admits then. -/
def prompted
    (h : (allocForExtend s.cache s.allocator [(newReq.initPromptCacheInput s.cache.rootNode).toReq]).isSome) :
    DllmServer :=
  { s with
    cache := (get _ h).1
    allocator := (get _ h).2.1
    reqs := (zipWith extended [newReq.initPromptCacheInput s.cache.rootNode] (get _ h).2.2).map
      (fun r => {r with fillIds := []}) ++ s.reqs }

def adderOf : PrefillAdder :=
  .create s.cache.pageSize s.config.blockSize s.config.maxRunningRequests 100 0

def admitted : List DllmReq := ((adderOf s).admitAll (s.stagingCalls s.reqs)).canRunList

/-- A round of all requests of a server. -/
def denoised (results : List (List MemCache.TokenId × Bool)) : Option DllmServer := do
  let (c, a, outs) ← allocForExtend s.cache s.allocator (s.admitted.map (·.toReq))
  let (c, a, reqs) ← processAll s.args s.config 0
    ((zipWith extended s.admitted outs).zip results) c a.freeGroupBegin
  some {s with cache := c, allocator := a.freeGroupEnd, reqs}

end

variable {admits : PrefillAdder → List PrefillAdder.Call → Prop}

lemma step_prompted
    (h : (allocForExtend s.cache s.allocator [(newReq.initPromptCacheInput s.cache.rootNode).toReq]).isSome) :
    Step admits s (s.prompted h) :=
  @Step.prompt _ s [newReq] _ _ _ (forall_mem_singleton.mpr ⟨rfl, rfl, rfl⟩) (some_get h).symm

lemma step_denoised {results : List (List MemCache.TokenId × Bool)}
    (hadmits : admits (adderOf s) (s.stagingCalls s.reqs))
    (hok : s.config.algorithm ≠ .tidar ∧ s.admitted.length = s.reqs.length ∧
    results.length = s.reqs.length ∧
      ∀ p ∈ results, p.1.length ≤ s.config.blockSize) (h : s.denoised results = some s') :
      Step admits s s' := by
  obtain ⟨halg, hlen, hres, hle⟩ := hok
  unfold denoised at h
  simp only [bind_eq_bind] at h
  obtain ⟨⟨c, a, outs⟩, halloc, hrest⟩ := bind_eq_some_iff.mp h
  obtain ⟨⟨c', a', reqs⟩, hall, hlast⟩ := bind_eq_some_iff.mp hrest
  have hstep :
      Step admits s {s with cache := c', allocator := a'.freeGroupEnd, reqs := reqs ++ []} :=
    .block rfl (.of_eq (append_nil _).symm) hadmits hlen halloc
      (.keep halg (hres.trans hlen.symm) hle) hall
  rw [append_nil] at hstep
  exact some.inj hlast ▸ hstep

/-- One token of the first block is kept, then a whole block takes the request to its limit. -/
theorem run_accounted_two_blocks : ∃ history,
    Run (Step fun adder calls => adder.AllFit calls) (small 2 8 (by decide)) history ∧
    history.length = 4 ∧
      ∀ s ∈ history, Accounted 8 s ∧ Processes s := by
  let s0 := small 2 8 (by decide)
  have h1 :
      (allocForExtend s0.cache s0.allocator
      [(newReq.initPromptCacheInput s0.cache.rootNode).toReq]).isSome := by
    decide +kernel
  let s1 := s0.prompted h1
  have h2 : (s1.denoised [([7], false)]).isSome := by decide +kernel +revert
  let s2 := get _ h2
  have h3 : (s2.denoised [([8, 9], false)]).isSome := by decide +kernel +revert
  have hrun : Run (Step fun adder calls => adder.AllFit calls) s0 [get _ h3, s2, s1, s0] :=
    ((Run.nil.cons (step_prompted h1)).cons
      (@step_denoised s1 s2 _ [([7], false)] (by decide +kernel +revert)
        (by decide +kernel +revert) (some_get h2).symm)).cons
      (@step_denoised s2 _ _ [([8, 9], false)] (by decide +kernel +revert)
        (by decide +kernel +revert) (some_get h3).symm)
  exact ⟨_, hrun, rfl, run_accounted rfl hrun⟩

/-- With three free slots a block of four is cut to three. One token of it is kept, the slots of
three are given back, and the request, which goes on, is left without a slot for the token. -/
theorem uncommitted_of_cut_block : ∃ history s r,
    Run (Step fun _ _ => True) (small 4 5 (by decide)) history ∧ s ∈ history ∧ r ∈ s.reqs ∧
      r.kvCommittedLen = 2 ∧ r.originInputIds.length + r.outputIds.length = 3 := by
  let s0 := small 4 5 (by decide)
  have h1 :
      (allocForExtend s0.cache s0.allocator
      [(newReq.initPromptCacheInput s0.cache.rootNode).toReq]).isSome := by
    decide +kernel
  let s1 := s0.prompted h1
  have h2 : (s1.denoised [([7], false)]).isSome := by decide +kernel +revert
  let s2 := get _ h2
  have hbad : ∃ r ∈ s2.reqs, r.kvCommittedLen = 2 ∧
      r.originInputIds.length + r.outputIds.length = 3 := by
    decide +kernel +revert
  have hrun : Run (Step fun _ _ => True) s0 [s2, s1, s0] := (Run.nil.cons (step_prompted h1)).cons
    (@step_denoised s1 s2 _ [([7], false)] trivial (by decide +kernel +revert) (some_get h2).symm)
  obtain ⟨r, hr, hbad⟩ := hbad
  exact ⟨_, s2, r, hrun, mem_cons_self, hr, hbad⟩

end DllmServer

end Sglang.Dllm
