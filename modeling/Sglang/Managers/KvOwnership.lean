import Mathlib.Algebra.Order.BigOperators.Group.Finset
import Mathlib.Tactic.LinearCombination
import Sglang.Managers.ReqOwnership
import Sglang.MemCache.RadixEviction

/-! Whole runs of a server.

In every state of every run each page of the pool has one owner: the allocator, one
node of the tree, or the part of one live request's row behind its
`cache_protected_len`. The sizes the runtime checker adds up follow. -/
namespace Sglang.Managers

open List Option
open MemCache Prefix Pages RadixCache Req

namespace Server

/-- The pages owned by live requests. -/
def ownPages (page : Nat) (reqs : List Req) : Multiset Nat := (reqs.map (·.ownPages page)).sum

/-- What every step keeps. -/
structure Inv (size : Nat) (params : CacheInitParams) (s : Server) (g : Shape) : Prop where
  params : s.cache.toCacheInitParams = params
  pool : Pool size s.cache s.allocator g (s.reqs.map (·.lastNode))
    (ownPages s.cache.pageSize s.reqs)
  placed : ∀ r ∈ s.reqs, Placed s.cache g r

variable {size : Nat} {params : CacheInitParams} {s s' : Server} {g : Shape} {reqs : List Req}

lemma ownPages_perm {page : Nat} {reqs' : List Req} (h : reqs.Perm reqs') :
    ownPages page reqs = ownPages page reqs' := (h.map _).sum_eq

lemma ownPages_cons (page : Nat) (r : Req) (rest : List Req) :
    ownPages page (r :: rest) = r.ownPages page + ownPages page rest := by
  simp [ownPages]

lemma ownPages_append (page : Nat) (rs rest : List Req) :
    ownPages page (rs ++ rest) = ownPages page rs + ownPages page rest := by
  simp [ownPages]

lemma Inv.perm (hi : Inv size params s g) (hp : s.reqs.Perm reqs) :
    Inv size params {s with reqs := reqs} g := by
  refine ⟨hi.params, ?_, fun r hr => hi.placed r (hp.mem_iff.mpr hr)⟩
  rw [← ownPages_perm hp]
  exact hi.pool.perm (hp.map _)

/-- Locked nodes keep what they stand for, so the requests that did not move stay placed. -/
lemma placed_of_keeps {c : RadixCache} {a : KvAllocator} {g' : Shape} {rest : List Req}
    {locks : List NodeId} {owned : Multiset Nat} (hplaced : ∀ r ∈ rest, Placed s.cache g r)
    (hk : s.cache.Keeps g c g') (hpool : Pool size c a g' locks owned)
    (hlocks : ∀ r ∈ rest, r.lastNode ∈ locks) : ∀ r ∈ rest, Placed c g' r :=
  fun r hr => (hplaced r hr).keeps hk (hpool.sound.locks.live _ (hlocks r hr))

lemma inv_create (args : ServerArgs) (params : CacheInitParams) (size : Nat)
    (needSort : Bool) (now : Int) :
    ∃ g, Inv size params (create args params size needSort now) g := by
  have hs :=
    sound_reset ⟨params, fun _ => {lastAccessTime := 0, creationTime := 0}, 0, 0, 0, 0, []⟩ now
  refine ⟨_, rfl, ⟨hs, ?_, rfl, nofun, ?_⟩, nofun⟩
  · intro n _
    exact .nil params.pageSize_pos
  · have hnodes : nodePages (create args params size needSort now).cache (emptyShape 0) = 0 := by
      unfold nodePages nodeSum
      rw [show (emptyShape 0).live.erase (create args params size needSort now).cache.tree.root =
        ∅ from Finset.erase_singleton 0]
      rfl
    rw [show nodePages (create args params size needSort now).cache _ = 0 from hnodes]
    rw [show (create args params size needSort now).cache.pageSize = params.pageSize from rfl]
    simp [create, KvAllocator.create, KvAllocator.holdings, KvAllocator.pending,
      ownPages, poolPages]

section Steps
variable {rest : List Req} {r r' : Req} {c c' : RadixCache} {a a' : KvAllocator}
  {g' : Shape} {now delta : Int}
  {source : Slot → Option PositionalEmbeds}

section
variable (hi : Inv size params s g)
include hi

lemma inv_of_keeps (hk : s.cache.Keeps g c g')
    (hpool : Pool size c a g' (reqs.map (·.lastNode)) (ownPages s.cache.pageSize reqs))
    (hplaced : ∀ r ∈ reqs, Placed c g' r) :
    Inv size params {s with cache := c, allocator := a, reqs := reqs, kvSource := source} g' := by
  refine ⟨hk.params.trans hi.params, ?_, hplaced⟩
  rw [pageSize_of_params hk.params]
  exact hpool

lemma Inv.lookup {key : RadixKey} {m : MatchResult}
    (heq : s.cache.matchPrefix now key = some (c, m)) :
    ∃ g', Inv size params {s with cache := c} g' := by
  obtain ⟨c1, _, g', heq1, hpool, hk, hsub, _⟩ := hi.pool.lookup now key
  cases heq1.symm.trans heq
  exact ⟨g',
    inv_of_keeps hi hk hpool (placed_of_keeps hi.placed hk hpool fun r hr => mem_map_of_mem hr)⟩

lemma Inv.addOneReq (hrow : r.row = none) (heq : r.initNextRoundInput now s.cache = some (c, r'))
    (hlock : c.incLockRef r'.lastNode = some (c', delta)) :
    ∃ g', Inv size params {s with cache := c', reqs := r' :: s.reqs} g' := by
  obtain ⟨c1, r1, c2, d, g', heq1, hlock1, hpool, hplaced, hk⟩ := addOneReq_spec hi.pool hrow now
  cases heq1.symm.trans heq
  cases hlock1.symm.trans hlock
  refine ⟨g', inv_of_keeps hi hk (by rw [ownPages_cons]; exact hpool)
    (forall_mem_cons.mpr ⟨hplaced, ?_⟩)⟩
  exact placed_of_keeps hi.placed hk hpool fun r hr => mem_cons_of_mem _ (mem_map_of_mem hr)

lemma Inv.cacheUnfinished {chunked : Bool} (hp : s.reqs.Perm (r :: rest))
    (heq : cacheUnfinishedReq now chunked s.cache s.allocator r = some (c, a, r')) :
    ∃ g', Inv size params {s with cache := c, allocator := a, reqs := r' :: rest} g' := by
  have hi' := hi.perm hp
  obtain ⟨hr, hrest⟩ := forall_mem_cons.mp hi'.placed
  have hpool := hi'.pool
  simp only [ownPages_cons] at hpool
  cases hrow : r.row with
  | none =>
    by_cases hdis : s.cache.disable = true
    · obtain ⟨rfl, rfl, rfl⟩ : s.cache = c ∧ s.allocator = a ∧ r = r' := by
        simpa [cacheUnfinishedReq, hdis] using heq
      exact ⟨g, hi'⟩
    · simp [cacheUnfinishedReq, hdis, hrow] at heq
  | some row =>
    obtain ⟨c1, a1, r1, g', heq1, hpool', hplaced, hk⟩ :=
      cacheUnfinishedReq_spec hpool hr hrow now chunked
    cases heq1.symm.trans heq
    refine ⟨g', inv_of_keeps hi hk (by rw [ownPages_cons]; exact hpool')
      (forall_mem_cons.mpr ⟨hplaced, ?_⟩)⟩
    exact placed_of_keeps hrest hk hpool' fun r hr => mem_cons_of_mem _ (mem_map_of_mem hr)

lemma Inv.finish {isInsert : Bool} (hp : s.reqs.Perm (r :: rest)) (hfin : r.CanFinish s.args)
    (heq : releaseKvCache now s.args isInsert s.cache s.allocator r = some (c, a)) :
    ∃ g', Inv size params {s with cache := c, allocator := a, reqs := rest} g' := by
  obtain ⟨_, hpool, hplaced⟩ := hi.perm hp
  obtain ⟨hr, hrest⟩ := forall_mem_cons.mp hplaced
  simp only [ownPages_cons] at hpool
  cases hrow : r.row with
  | none => simp [releaseKvCache, hrow] at heq
  | some row =>
    obtain ⟨c1, a1, g', heq1, hpool', hk⟩ := releaseKvCache_spec hpool hr hrow hfin now isInsert
    cases heq1.symm.trans heq
    exact ⟨g',
      inv_of_keeps hi hk hpool' (placed_of_keeps hrest hk hpool' fun r hr => mem_map_of_mem hr)⟩

lemma Inv.evict {numTokens n : Nat} {freed : List (List Slot)}
    (heq : s.cache.evict numTokens = some (c, n, freed)) :
    ∃ g', Inv size params {s with cache := c, allocator := freed.foldl .free s.allocator} g' := by
  obtain ⟨c1, n1, freed1, g', heq1, hpool, hk⟩ := hi.pool.evict numTokens
  cases heq1.symm.trans heq
  exact ⟨g',
    inv_of_keeps hi hk hpool (placed_of_keeps hi.placed hk hpool fun r hr => mem_map_of_mem hr)⟩

/-- A batch that moved on to new slots, for both kinds of allocation. -/
lemma inv_of_handed {slots : Req → List Slot} {seqLen : Req → Nat} {batch : List Req}
    {outs : List (List Slot)} {next : Req → List Slot → Req} {old : List Req}
    (hk : s.cache.Keeps g c g')
    (hpool : Pool size c a g' (s.reqs.map (·.lastNode)) (ownPages s.cache.pageSize s.reqs))
    (hh : a.Handed a' slots seqLen batch outs) (hp : s.reqs.Perm (old ++ rest))
    (hold : old.map (·.lastNode) = batch.map (·.lastNode) ∧ ownPages s.cache.pageSize old =
      (batch.map fun r => pageSet s.cache.pageSize ((slots r).drop r.cacheProtectedLen)).sum)
    (hreq : ∀ r ∈ batch, Paged s.cache.pageSize (slots r) ∧ s.cache.pageSize ∣ r.cacheProtectedLen ∧
      r.cacheProtectedLen ≤ (slots r).length)
    (hnext : ∀ p ∈ batch.zip outs, Placed c g' (next p.1 p.2) ∧
    (next p.1 p.2).lastNode = p.1.lastNode ∧
      (next p.1 p.2).ownPages s.cache.pageSize = pageSet s.cache.pageSize
      ((slots p.1 ++ p.2).drop p.1.cacheProtectedLen)) :
    Inv size params
    {s with cache := c, allocator := a', reqs := zipWith next batch outs ++ rest, kvSource := source} g' := by
  have hpage : a.pageSize = s.cache.pageSize := by rw [hpool.page, pageSize_of_params hk.params]
  have hzip : zipWith next batch outs = (batch.zip outs).map fun p => next p.1 p.2 :=
    map_uncurry_zip_eq_zipWith.symm
  obtain ⟨ps, htook, hsum⟩ := ownPages_handed hh hpool.page_pos (by rw [hpage]; exact hreq)
  rw [hpage] at hsum
  have hlocks : (zipWith next batch outs).map (·.lastNode) = old.map (·.lastNode) := by
    rw [hold.1, hzip, List.map_map]
    conv_rhs => rw [← List.map_fst_zip hh.length.ge, List.map_map]
    exact map_congr_left fun p hm => (hnext p hm).2.1
  have hown : ownPages s.cache.pageSize (zipWith next batch outs) =
      ownPages s.cache.pageSize old + ps := by
    rw [hold.2, ← hsum, ownPages, hzip, List.map_map]
    exact congrArg List.sum (map_congr_left fun p hm => (hnext p hm).2.2)
  have hrest : ∀ r ∈ rest, Placed s.cache g r := fun r hr =>
    hi.placed r (hp.mem_iff.mpr (mem_append_right _ hr))
  have hpool' := (hpool.perm (hp.map (·.lastNode))).took htook
  refine inv_of_keeps hi hk ?_ fun r hr => ?_
  · rw [ownPages_perm hp, ownPages_append, map_append] at hpool'
    rw [ownPages_append, hown, map_append, hlocks, add_right_comm]
    exact hpool'
  · rcases mem_append.mp hr with hr | hr
    · rw [hzip] at hr
      obtain ⟨p, hm, rfl⟩ := mem_map.mp hr
      exact (hnext p hm).1
    · refine placed_of_keeps hrest hk hpool' (fun r hr => mem_map_of_mem ?_) r hr
      exact mem_append_right _ hr

lemma Inv.extend {batch : List (Req × Nat)} {outs : List (List Slot)}
    (hp : s.reqs.Perm (batch.map (·.1) ++ rest)) (hcan : ∀ p ∈ batch, p.1.CanExtend p.2)
    (heq : allocForExtend s.cache s.allocator (batch.map fun p => p.1.truncateTo p.2) =
    some (c, a, outs)) :
    ∃ g', Inv size params { s with
      cache := c
      allocator := a
      reqs := zipWith extended (batch.map fun p => p.1.truncateTo p.2) outs ++ rest
      kvSource := source } g' := by
  have hplaced : ∀ p ∈ batch, Placed s.cache g p.1 := fun p hm =>
    hi.placed _ (hp.mem_iff.mpr (mem_append_left _ (mem_map_of_mem hm)))
  have hslots : ∀ p ∈ batch, p.1.slots = p.1.prefixIndices :=
    fun p hm => (hplaced p hm).slots_eq (hcan p hm)
  have hreq : ∀ r ∈ batch.map fun p => p.1.truncateTo p.2, Paged s.cache.pageSize r.prefixIndices ∧
      s.cache.pageSize ∣ r.cacheProtectedLen ∧ r.cacheProtectedLen ≤ r.prefixIndices.length := by
    intro r hr
    obtain ⟨p, hm, rfl⟩ := mem_map.mp hr
    have hpr := hplaced p hm
    have hpaged := hpr.paged
    have hle := hpr.le_slots hi.pool.sound.wf
    rw [hslots p hm] at hpaged hle
    exact ⟨hpaged, hpr.dvd hi.pool.sound.wf, hle⟩
  have hfill : ∀ p ∈ batch, (p.1.truncateTo p.2).fillIds.length = p.2 := by
    intro p hm
    show (p.1.tokens.take p.2).length = p.2
    rw [length_take, min_eq_left (hcan p hm).2.1]
  have hlens : ∀ r ∈ batch.map fun p => p.1.truncateTo p.2,
      r.prefixIndices.length ≤ r.fillIds.length := by
    intro r hr
    obtain ⟨p, hm, rfl⟩ := mem_map.mp hr
    rw [hfill p hm]
    exact (hcan p hm).1.le
  obtain ⟨a1, g', hpool, hk, hh⟩ :=
    allocForExtend_spec hi.pool (fun r hr => ⟨(hreq r hr).1, hlens r hr⟩) heq
  have hpage : a1.pageSize = s.cache.pageSize := by rw [hpool.page, pageSize_of_params hk.params]
  refine ⟨g', inv_of_handed hi hk hpool hh hp ⟨?_, ?_⟩ hreq fun p hm => ?_⟩
  · rw [List.map_map, List.map_map]
    rfl
  · rw [ownPages, List.map_map, List.map_map]
    refine congrArg List.sum (map_congr_left fun p hm => ?_)
    show pageSet s.cache.pageSize (p.1.slots.drop p.1.cacheProtectedLen) = _
    rw [hslots p hm]
    rfl
  · have hpaged := hh.paged p hm
    have hlen := hh.seqLen p hm
    obtain ⟨q, hq, hqp⟩ := mem_map.mp (of_mem_zip hm).1
    rw [← hqp] at hpaged hlen ⊢
    rw [hpage, ← pageSize_of_params hk.params] at hpaged
    have hmem : q.1.lastNode ∈ g'.live := hpool.sound.locks.live _
      (mem_map_of_mem (hp.mem_iff.mpr (mem_append_left _ (mem_map_of_mem hq))))
    exact ⟨((hplaced q hq).keeps hk hmem).extended hpool.sound.wf (hcan q hq) hpaged
      (hlen.trans (hfill q hq)), rfl, rfl⟩

lemma Inv.decode {batch : List Req} {out : List Slot} (hp : s.reqs.Perm (batch ++ rest))
    (hrow : ∀ r ∈ batch, r.row ≠ none)
    (heq : allocForDecode s.cache s.allocator batch = some (c, a, out)) :
    ∃ g', Inv size params { s with
      cache := c
      allocator := a
      reqs := zipWith decoded batch (out.map ([·])) ++ rest
      kvSource := source } g' := by
  have hplaced : ∀ r ∈ batch, Placed s.cache g r := fun r hr =>
    hi.placed r (hp.mem_iff.mpr (mem_append_left _ hr))
  have hlens : ∀ r ∈ batch, r.slots.length = r.kvCommittedLen := by
    intro r hr
    obtain ⟨row, hrow⟩ := ne_none_iff_exists'.mp (hrow r hr)
    rw [slots, hrow]
    exact ((hplaced r hr).row row hrow).1
  have hreq : ∀ r ∈ batch, Paged s.cache.pageSize r.slots ∧ s.cache.pageSize ∣ r.cacheProtectedLen ∧
      r.cacheProtectedLen ≤ r.slots.length := fun r hr =>
    ⟨(hplaced r hr).paged, (hplaced r hr).dvd hi.pool.sound.wf,
      (hplaced r hr).le_slots hi.pool.sound.wf⟩
  obtain ⟨a1, g', hpool, hk, hh⟩ :=
    allocForDecode_spec hi.pool (fun r hr => ⟨(hreq r hr).1, hlens r hr⟩) heq
  have hpage : a1.pageSize = s.cache.pageSize := by rw [hpool.page, pageSize_of_params hk.params]
  refine ⟨g', inv_of_handed hi hk hpool hh hp ⟨rfl, rfl⟩ hreq fun p hm => ?_⟩
  obtain ⟨hr, hout⟩ := of_mem_zip hm
  obtain ⟨row, hrow⟩ := ne_none_iff_exists'.mp (hrow p.1 hr)
  have hslots := slots_of_row hrow
  have hpaged := hh.paged p hm
  rw [hpage, ← pageSize_of_params hk.params, hslots] at hpaged
  have hmem : p.1.lastNode ∈ g'.live :=
    hpool.sound.locks.live _ (mem_map_of_mem (hp.mem_iff.mpr (mem_append_left _ hr)))
  have hone : p.2.length = 1 := by
    obtain ⟨x, _, hx⟩ := mem_map.mp hout
    rw [← hx]
    rfl
  obtain ⟨hslots', hplaced'⟩ :=
    ((hplaced p.1 hr).keeps hk hmem).decoded hpool.sound.wf hrow hpaged hone
  refine ⟨hplaced', rfl, ?_⟩
  rw [Req.ownPages, hslots', hslots]
  rfl

end

end Steps

lemma Step.inv (hstep : Step s s') (hi : Inv size params s g) : ∃ g', Inv size params s' g' := by
  cases hstep with
  | lookup heq => exact hi.lookup heq
  | addOneReq _ hrow heq hlock => exact hi.addOneReq hrow heq hlock
  | extend _ hp hcan heq => exact hi.extend hp hcan heq
  | decode _ hp hrow heq => exact hi.decode hp hrow heq
  | @output r rest ts reasoning hp =>
    have hi := hi.perm hp
    obtain ⟨hr, hrest⟩ := forall_mem_cons.mp hi.placed
    exact ⟨g, hi.params, hi.pool, forall_mem_cons.mpr ⟨hr.output ts reasoning, hrest⟩⟩
  | cacheUnfinished _ hp heq => exact hi.cacheUnfinished hp heq
  | finish hp hfin heq => exact hi.finish hp hfin heq
  | evict _ heq => exact hi.evict heq
  | freeGroupBegin hopen => exact ⟨g, hi.params, hi.pool.freeGroupBegin hopen, hi.placed⟩
  | freeGroupEnd hopen => exact ⟨g, hi.params, hi.pool.freeGroupEnd hopen, hi.placed⟩

/-! ### Owners -/

/-- The nodes of the tree but the root. -/
noncomputable def valueNodes (s : Server) : Finset NodeId :=
  s.cache.treeNodes.erase s.cache.rootNode

/-- The pages of the values of the tree. -/
noncomputable def treePages (s : Server) : Multiset Nat :=
  ∑ n ∈ s.valueNodes, pageSet s.cache.pageSize (s.cache.nodes n).value

/-- How many owners a page has: the allocator, node values, and private parts of rows. -/
noncomputable def pageOwners (s : Server) (p : Nat) : Nat :=
  s.allocator.holdings.count p + s.treePages.count p + (ownPages s.cache.pageSize s.reqs).count p

/-- How often a slot stands in node values and private parts of rows. -/
noncomputable def slotCount (s : Server) (slot : Slot) : Nat :=
  ∑ n ∈ s.valueNodes, (s.cache.nodes n).value.count slot + (s.reqs.map
    fun r => (r.slots.drop r.cacheProtectedLen).count slot).sum

/-- The slots live requests hold privately, in whole pages, as the runtime checker counts them. -/
def uncachedSize (s : Server) : Nat :=
  (s.reqs.map fun r => ceil s.cache.pageSize (r.slots.length - r.cacheProtectedLen)).sum

section
variable (hi : Inv size params s g)
include hi

lemma Inv.treePages : s.treePages = s.cache.nodePages g := by
  unfold Server.treePages valueNodes
  rw [hi.pool.sound.treeNodes]
  rfl

lemma Inv.pageOwners (p : Nat) : s.pageOwners p = if 1 ≤ p ∧ p ≤ size / s.cache.pageSize then 1
    else 0 := by
  have hcount := congrArg (Multiset.count p) hi.pool.pages
  rw [Multiset.count_add, Multiset.count_add] at hcount
  rw [Server.pageOwners, hi.treePages, hcount, count_poolPages]

lemma Inv.value_paged {n : NodeId} (hn : n ∈ s.valueNodes) :
    Paged s.cache.pageSize (s.cache.nodes n).value ∧
    (s.cache.nodes n).value.length = (s.cache.nodes n).key.len ∧
      s.cache.pageSize ∣ (s.cache.nodes n).key.len := by
  unfold valueNodes at hn
  rw [hi.pool.sound.treeNodes] at hn
  obtain ⟨hroot, hn⟩ := Finset.mem_erase.mp hn
  obtain ⟨p, e⟩ := hi.pool.sound.wf.edge n hn hroot
  exact ⟨hi.pool.vals.value hi.pool.sound.wf hn e, e.value_len, e.aligned⟩

end

lemma count_ownPages (page : Nat) (reqs : List Req) (p : Nat) :
    (ownPages page reqs).count p = (reqs.map fun r => (r.ownPages page).count p).sum := by
  induction reqs with
  | nil => simp [ownPages]
  | cons r reqs ih => rw [ownPages_cons, Multiset.count_add, ih, map_cons, sum_cons]

section
variable (hi : Inv size params s g)
include hi

lemma Inv.slotCount_le (slot : Slot) :
    s.slotCount slot + s.allocator.holdings.count (slot / s.cache.pageSize) ≤ 1 := by
  have hnodes : ∑ n ∈ s.valueNodes, (s.cache.nodes n).value.count slot ≤ s.treePages.count
      (slot / s.cache.pageSize) := by
    rw [Server.treePages, Multiset.count_sum']
    exact Finset.sum_le_sum fun n hn => (hi.value_paged hn).1.count_le slot
  have hrows : (s.reqs.map fun r => (r.slots.drop r.cacheProtectedLen).count slot).sum ≤
      (ownPages s.cache.pageSize s.reqs).count (slot / s.cache.pageSize) := by
    rw [count_ownPages]
    exact sum_le_sum fun r hr =>
      ((hi.placed r hr).paged.drop s.cache.pageSize_pos
        ((hi.placed r hr).dvd hi.pool.sound.wf)).count_le slot
  have howners := hi.pageOwners (slot / s.cache.pageSize)
  rw [Server.pageOwners] at howners
  rw [Server.slotCount]
  split at howners <;> omega

omit hi in
lemma uncachedSize_eq (s : Server) :
    s.uncachedSize = (ownPages s.cache.pageSize s.reqs).card * s.cache.pageSize := by
  rw [uncachedSize]
  induction s.reqs with
  | nil => simp [ownPages]
  | cons r rs ih =>
    rw [map_cons, sum_cons, ih, ownPages_cons, Multiset.card_add, add_mul,
      Req.ownPages, card_pageSet, length_drop, ceil_eq]

lemma Inv.sizes :
    (s.allocator.availableSize : Int) + s.allocator.pending.card * s.cache.pageSize +
    s.cache.evictableSize +
      s.cache.protectedSize + s.uncachedSize =
      (size / s.cache.pageSize * s.cache.pageSize : Nat) := by
  have hcard := congrArg Multiset.card hi.pool.pages
  simp only [Multiset.card_add, KvAllocator.holdings, poolPages, Multiset.coe_card,
    length_map, length_range] at hcard
  have hcache := hi.pool.sound.sizes
  rw [uncachedSize_eq, ← hcard, KvAllocator.availableSize, hi.pool.page]
  push_cast at hcache ⊢
  linear_combination hcache

lemma Inv.shared {r : Req} (hr : r ∈ s.reqs) {slot : Slot}
    (hslot : slot ∈ r.slots.take r.cacheProtectedLen) :
    ∃ n ∈ s.valueNodes, slot ∈ (s.cache.nodes n).value := by
  rw [← (hi.placed r hr).vals] at hslot
  obtain ⟨n, hn, hroot, hmem⟩ := mem_vals hi.pool.sound.wf (hi.placed r hr).mem hslot
  refine ⟨n, ?_, hmem⟩
  rw [valueNodes, hi.pool.sound.treeNodes]
  exact Finset.mem_erase.mpr ⟨hroot, hn⟩

/-- Every page has one owner, and what follows from it. -/
structure KvOwnership (size : Nat) (s : Server) : Prop where
  /-- Exactly one owner for every page of the pool, none for page 0 and beyond. -/
  pageOwners : ∀ p, s.pageOwners p = if 1 ≤ p ∧ p ≤ size / s.cache.pageSize then 1 else 0
  /-- No slot is in two places, or in one and free. -/
  slotCount : ∀ slot, s.slotCount slot + s.allocator.holdings.count (slot / s.cache.pageSize) ≤ 1
  /-- What a row protects is in the tree. -/
  shared : ∀ r ∈ s.reqs, ∀ slot ∈ r.slots.take r.cacheProtectedLen, ∃ n ∈ s.valueNodes,
    slot ∈ (s.cache.nodes n).value
  sizes :
    (s.allocator.availableSize : Int) + s.allocator.pending.card * s.cache.pageSize +
    s.cache.evictableSize +
    s.cache.protectedSize + s.uncachedSize = (size / s.cache.pageSize * s.cache.pageSize : Nat)
  /-- Caching and releasing a request never fail. -/
  cache : ∀ r ∈ s.reqs, r.row ≠ none → ∀ now chunked,
    (cacheUnfinishedReq now chunked s.cache s.allocator r).isSome
  release : ∀ r ∈ s.reqs, r.row ≠ none → r.CanFinish s.args → ∀ now isInsert,
    (releaseKvCache now s.args isInsert s.cache s.allocator r).isSome

lemma Inv.kvOwnership : KvOwnership size s := by
  have hactive : ∀ r ∈ s.reqs, ∃ locks owned, Pool size s.cache s.allocator g (r.lastNode :: locks)
      (r.ownPages s.cache.pageSize + owned) := by
    intro r hr
    obtain ⟨before, after, hsplit⟩ := append_of_mem hr
    have hpool := (hi.perm (hsplit ▸ perm_middle)).pool
    simp only [ownPages_cons] at hpool
    exact ⟨_, _, hpool⟩
  refine ⟨hi.pageOwners, hi.slotCount_le, fun r hr slot => hi.shared hr, hi.sizes, ?_, ?_⟩
  · intro r hr hrow now chunked
    obtain ⟨row, hrow⟩ := ne_none_iff_exists'.mp hrow
    obtain ⟨locks, owned, hpool⟩ := hactive r hr
    obtain ⟨c, a, r', g', heq, _⟩ := cacheUnfinishedReq_spec hpool (hi.placed r hr) hrow now chunked
    rw [heq]
    rfl
  · intro r hr hrow hfin now isInsert
    obtain ⟨row, hrow⟩ := ne_none_iff_exists'.mp hrow
    obtain ⟨locks, owned, hpool⟩ := hactive r hr
    obtain ⟨c, a, g', heq, _⟩ := releaseKvCache_spec hpool (hi.placed r hr) hrow hfin now isInsert
    rw [heq]
    rfl

end

/-- **KV ownership over whole runs.** In every state of every run of a server, each page of the pool
is owned by exactly one of the allocator, one node of the tree and one live request. -/
theorem run_kvOwnership {args : ServerArgs} {params : CacheInitParams}
    {size : Nat} {needSort : Bool} {now : Int} {history : List Server}
    (hrun : Run (create args params size needSort now) history) :
    ∀ s ∈ history, s.cache.pageSize = params.pageSize ∧ KvOwnership size s := by
  intro s hs
  obtain ⟨g, hi⟩ : ∃ g, Inv size params s g :=
    hrun.invariant (P := fun s => ∃ g, Inv size params s g)
      (inv_create args params size needSort now)
      (fun _ _ ⟨_, hi⟩ hstep => hstep.inv hi) s hs
  exact ⟨congrArg CacheInitParams.pageSize hi.params, hi.kvOwnership⟩

/-- Two requests with the same prompt: the second is admitted on the page the first has cached, and
the first finishes. -/
theorem run_kvOwnership_shared_prompt : ∃ history,
    Run (create {} {pageSize := 2, pageSize_pos := by decide} 8 false 0) history ∧
    history.length = 6 ∧
      ∀ s ∈ history, s.cache.pageSize = 2 ∧ KvOwnership 8 s := by
  let start := create {} {pageSize := 2, pageSize_pos := by decide} 8 false 0
  have hrun : (do
      let r ← initNextRoundInput {originInputIds := [5, 6, 7]} 1 start.cache
      let rLocked ← r.1.incLockRef r.2.lastNode
      let alloc ← allocForExtend rLocked.1 start.allocator [r.2.truncateTo 3]
      let reqs := zipWith extended [r.2.truncateTo 3] alloc.2.2 ++ []
      let req := (r.2.truncateTo 3).extended (alloc.2.2.headD [])
      let kept ← cacheUnfinishedReq 2 false alloc.1 alloc.2.1 req
      let q ← initNextRoundInput {originInputIds := [5, 6, 8]} 3 kept.1
      let qLocked ← q.1.incLockRef q.2.lastNode
      let _ ← releaseKvCache 4 {} true qLocked.1 kept.2.1 kept.2.2
      guard ((∀ p ∈ [(r.2, 3)], p.1.CanExtend p.2) ∧ alloc.2.1.isNotInFreeGroup = true ∧
        reqs.Perm [req] ∧
        kept.2.1.isNotInFreeGroup = true ∧ kept.2.2.kvCommittedLen ≤ kept.2.2.tokens.length)) =
        some () := by decide +kernel
  simp only [bind_eq_bind, bind_eq_some_iff, Prod.exists] at hrun
  obtain ⟨_, r, h1, _, _, h2, _, _, _, h3, _, _, kept, h4, _, q, h5, _, _, h6, _, _, h7, hguard⟩ :=
    hrun
  obtain ⟨hcan, hopen, hreq, hopen', hlen⟩ := (guard_eq_some' _).mp hguard
  have run1 : Run start _ := .cons .nil (.addOneReq rfl rfl h1 h2)
  have run2 := run1.cons (@Step.extend _ [(r, 3)] [] _ _ _ rfl (.refl _) hcan h3)
  have run3 := run2.cons (.cacheUnfinished hopen hreq h4)
  have run4 := run3.cons (.addOneReq hopen' rfl h5 h6)
  have run5 := run4.cons (.finish (.swap _ _ _) ⟨hlen, nofun⟩ h7)
  exact ⟨_, run5, rfl, run_kvOwnership run5⟩

/-- **An idle server can give all its memory back.** Without requests nothing of the tree is
protected, and evicting what is evictable leaves the whole pool to the allocator. -/
theorem run_drains {args : ServerArgs} {params : CacheInitParams} {size : Nat}
    {needSort : Bool} {now : Int} {history : List Server}
    (hrun : Run (create args params size needSort now) history) {s : Server}
    (hs : s ∈ history) (hidle : s.reqs = []) (hopen : s.allocator.isNotInFreeGroup = true) :
    ∃ c n freed, s.cache.protectedSize = 0 ∧
      s.cache.evict s.cache.evictableSize.toNat = some (c, n, freed) ∧ c.evictableSize = 0 ∧
      (freed.foldl .free s.allocator).availableSize = size / params.pageSize * params.pageSize := by
  obtain ⟨g, hi⟩ : ∃ g, Inv size params s g :=
    hrun.invariant (P := fun s => ∃ g, Inv size params s g)
      (inv_create args params size needSort now)
      (fun _ _ ⟨_, hi⟩ hstep => hstep.inv hi) s hs
  have hsound := hi.pool.sound
  -- no request, no lock
  have hprotected : s.cache.protectedSize = 0 := by
    rw [hsound.books.protected_]
    refine Finset.sum_eq_zero fun m hm => if_neg ?_
    obtain ⟨hroot, hm⟩ := Finset.mem_erase.mp hm
    simp [hsound.locks.count m hm hroot, hidle]
  obtain ⟨c, _, freed, heq, -⟩ :=
    evict_spec s.cache.evictableSize.toNat hsound.wf hsound.books.leafSound
  obtain ⟨g', hs', he⟩ := hsound.evict heq
  obtain ⟨hdrop, hprot⟩ := he.sizes hsound.wf
  have hcache := hs'.sizes
  have hzero : c.evictableSize = 0 := (hsound.evict_exhausts heq).elim (by omega) id
  refine ⟨c, _, freed, hprotected, heq, hzero, ?_⟩
  have hclosed : (freed.foldl .free s.allocator).isNotInFreeGroup = true :=
    foldlRecOn (motive := (KvAllocator.isNotInFreeGroup · = true)) freed _ hopen fun a ha l _ =>
      (a.free_frame l).2.trans ha
  obtain ⟨_, hi'⟩ := hi.evict heq
  have hsizes := hi'.sizes
  rw [show c.pageSize = params.pageSize from congrArg CacheInitParams.pageSize hi'.params] at hsizes
  simp [hzero, hprot, hprotected, uncachedSize, hidle, KvAllocator.pending, hclosed] at hsizes
  exact_mod_cast hsizes

/-- A request that has finished has left a page in the tree. -/
theorem run_drains_after_request :
    ∃ history s, Run (create {} {pageSize := 2, pageSize_pos := by decide} 8 false 0) history ∧
    s ∈ history ∧ s.cache.evictableSize = 2 ∧ ∃ c n freed, s.cache.evict 2 = some (c, n, freed) ∧
      (freed.foldl .free s.allocator).availableSize = 8 := by
  let start := create {} {pageSize := 2, pageSize_pos := by decide} 8 false 0
  have hrun : (do
      let r ← initNextRoundInput {originInputIds := [5, 6]} 1 start.cache
      let locked ← r.1.incLockRef r.2.lastNode
      let alloc ← allocForExtend locked.1 start.allocator [r.2.truncateTo 2]
      let req := (r.2.truncateTo 2).extended (alloc.2.2.headD [])
      let done ← releaseKvCache 2 {} true alloc.1 alloc.2.1 req
      guard ((∀ p ∈ [(r.2, 2)], p.1.CanExtend p.2) ∧
        (zipWith extended [r.2.truncateTo 2] alloc.2.2 ++ []).Perm [req] ∧
        req.kvCommittedLen ≤ req.tokens.length ∧ done.2.isNotInFreeGroup = true ∧
        done.1.evictableSize = 2)) = some () := by
    decide +kernel
  simp only [bind_eq_bind, bind_eq_some_iff, Prod.exists] at hrun
  obtain ⟨_, r, h1, _, _, h2, _, _, _, h3, c, a, h4, hguard⟩ := hrun
  obtain ⟨hcan, hreq, hlen, hopen, hsize⟩ := (guard_eq_some' _).mp hguard
  have run1 : Run start _ := .cons .nil (.addOneReq rfl rfl h1 h2)
  have run2 := run1.cons (@Step.extend _ [(r, 2)] [] _ _ _ rfl (.refl _) hcan h3)
  have run3 := run2.cons (.finish hreq ⟨hlen, nofun⟩ h4)
  obtain ⟨c', n, freed, -, heq, -, hfree⟩ := run_drains run3 mem_cons_self rfl hopen
  rw [show c.evictableSize = 2 from hsize] at heq
  exact ⟨_, _, run3, mem_cons_self, hsize, c', n, freed, heq, hfree⟩

/-- How many owners a slot has when slots are counted one by one. -/
noncomputable def slotOwners (s : Server) (slot : Slot) : Nat :=
  (s.allocator.freePages ++ s.allocator.releasePages).count
    (slot / s.cache.pageSize) + s.slotCount slot

lemma valueNodes_of_root_only (h : s.cache.counter = 1 ∧ s.cache.rootNode = 0) :
    s.valueNodes = ∅ := by
  classical
  refine Finset.eq_empty_of_forall_notMem fun n hn => ?_
  obtain ⟨hne, hn⟩ := Finset.mem_erase.mp hn
  rw [treeNodes, Finset.mem_filter, Finset.mem_range, h.1] at hn
  exact hne ((Nat.lt_one_iff.mp hn.1).trans h.2.symm)

/-- With pages of two slots a request of one token leaves the second slot of its page to nobody, and
the slots counted one by one do not add up to the pool. -/
theorem slotOwners_of_partial_page : ∃ history s,
    Run (create {} {pageSize := 2, pageSize_pos := by decide} 4 false 0) history ∧
    s ∈ history ∧ s.slotOwners 3 = 0 ∧
      (s.allocator.availableSize : Int) + s.cache.evictableSize + s.cache.protectedSize +
        (s.reqs.map fun r => (r.slots.drop r.cacheProtectedLen).length).sum ≠ 4 := by
  let start := create {} {pageSize := 2, pageSize_pos := by decide} 4 false 0
  have hrun : (do
      let r ← initNextRoundInput {originInputIds := [5]} 1 start.cache
      let locked ← r.1.incLockRef r.2.lastNode
      let alloc ← allocForExtend locked.1 start.allocator [r.2.truncateTo 1]
      let reqs := zipWith extended [r.2.truncateTo 1] alloc.2.2 ++ []
      guard ((∀ p ∈ [(r.2, 1)], p.1.CanExtend p.2) ∧ (alloc.1.counter = 1 ∧ alloc.1.rootNode = 0) ∧
        (alloc.2.1.freePages ++ alloc.2.1.releasePages).count (3 / alloc.1.pageSize) = 0 ∧
        (reqs.map fun r : Req => (r.slots.drop r.cacheProtectedLen).count 3).sum = 0 ∧
        (alloc.2.1.availableSize : Int) + alloc.1.evictableSize + alloc.1.protectedSize +
          (reqs.map fun r : Req => (r.slots.drop r.cacheProtectedLen).length).sum ≠ 4)) =
          some () := by decide +kernel
  simp only [bind_eq_bind, bind_eq_some_iff, Prod.exists] at hrun
  obtain ⟨_, r, h1, _, _, h2, _, _, _, h3, hguard⟩ := hrun
  obtain ⟨hcan, hroot, hfree, hrows, hsizes⟩ := (guard_eq_some' _).mp hguard
  have run1 : Run start _ := .cons .nil (.addOneReq rfl rfl h1 h2)
  have run2 := run1.cons (@Step.extend _ [(r, 1)] [] _ _ _ rfl (.refl _) hcan h3)
  refine ⟨_, _, run2, mem_cons_self, ?_, hsizes⟩
  rw [slotOwners, slotCount, valueNodes_of_root_only hroot, Finset.sum_empty, zero_add]
  exact Nat.add_eq_zero_iff.mpr ⟨hfree, hrows⟩

end Server

end Sglang.Managers
