import Sglang.MemCache.RadixPages
import Sglang.Managers.ReqMemory

/-! Who owns the pages of the KV pool.

`Pool` says that the allocator, the tree and the requests together own every page of
the pool, once; what the requests own privately is its last argument. Each primitive
then is a rule that moves pages between the three: an allocation gives pages to the
requests, a free takes them back, an insertion moves them into the tree, an eviction
from the tree to the allocator. What the request functions do follows from the rules. -/
namespace Sglang.Managers

open List
open MemCache Prefix Pages RadixCache

/-- All pages but page 0. -/
def poolPages (size page : Nat) : Multiset Nat :=
  ((List.range (size / page)).map (· + 1) : List Nat)

lemma nodup_poolPages (size page : Nat) : (poolPages size page).Nodup :=
  Multiset.coe_nodup.mpr (nodup_range.map fun _ _ h => Nat.succ.inj h)

/-- Every page of the pool is there once; page 0 is not one of them. -/
lemma count_poolPages (size page p : Nat) :
    (poolPages size page).count p = if 1 ≤ p ∧ p ≤ size / page then 1 else 0 := by
  rw [Multiset.count_eq_of_nodup (nodup_poolPages _ _)]
  refine if_congr ?_ rfl rfl
  simp only [poolPages, Multiset.mem_coe, mem_map, mem_range]
  constructor
  · rintro ⟨i, hi, rfl⟩
    omega
  · rintro ⟨hpos, hle⟩
    exact ⟨p - 1, by omega, by omega⟩

/-- A pool of `size` slots, with the locks on the tree and the pages that requests own. -/
structure Pool (size : Nat) (c : RadixCache) (a : KvAllocator) (g : Shape)
    (locks : List NodeId) (owned : Multiset Nat) : Prop where
  sound : c.Sound g locks
  vals : c.ValsPaged g
  page : a.pageSize = c.pageSize
  group : a.GroupPaged
  pages : a.holdings + c.nodePages g + owned = poolPages size c.pageSize

/-- A lookup's result: the node that stands for the longest part of the key, and its slots. -/
structure Found (c : RadixCache) (g : Shape) (key : RadixKey) (r : MatchResult) : Prop where
  mem : r.lastDeviceNode ∈ g.live
  le : r.deviceIndices.length ≤ key.len
  path : g.path r.lastDeviceNode = key.iter.take r.deviceIndices.length
  vals : g.vals r.lastDeviceNode = r.deviceIndices
  ns : r.lastDeviceNode = c.tree.root ∨ (c.tree.node r.lastDeviceNode).key.ns = key.ns
  longest : ∀ n ∈ g.live, g.path n <+: key.iter →
    (n = c.tree.root ∨ (c.tree.node n).key.ns = key.ns) →
    (g.path n).length ≤ r.deviceIndices.length

namespace Pool
variable {size : Nat} {c c' : RadixCache} {a a' : KvAllocator} {g g' : Shape} {locks : List NodeId}
  {owned : Multiset Nat}

section
variable (h : Pool size c a g locks owned)
include h

/-- Pages are not empty. -/
lemma page_pos : 0 < a.pageSize := by
  rw [h.page]
  exact c.pageSize_pos

/-- No page is free, in the tree and with a request at once. -/
lemma nodup : (a.holdings + c.nodePages g + owned).Nodup := by
  rw [h.pages]
  exact nodup_poolPages _ _

/-- The order of the locks does not matter. -/
lemma perm {locks' : List NodeId} (hp : locks.Perm locks') : Pool size c a g locks' owned :=
  ⟨h.sound.perm hp, h.vals, h.page, h.group, h.pages⟩

/-- Pages that are taken from the allocator are with the requests. -/
lemma took {ps : List Nat} (ht : a.Took a' ps) : Pool size c a' g locks (owned + ps) := by
  refine ⟨h.sound, h.vals, ht.pageSize.trans h.page, ht.groupPaged h.group, ?_⟩
  rw [← h.pages, ht.holdings]
  abel

end

/-- Slots that are freed go back to the allocator with their pages. -/
lemma free {l : List Slot} (hl : Paged c.pageSize l)
    (h : Pool size c a g locks (owned + pageSet c.pageSize l)) :
    Pool size c (a.free l) g locks owned := by
  have hnd : (pageSet a.pageSize l).Nodup := by
    rw [h.page]
    refine Multiset.nodup_of_le ?_ h.nodup
    exact (Multiset.le_add_left _ _).trans (Multiset.le_add_left _ _)
  rw [← h.page] at hl
  refine ⟨h.sound, h.vals, (a.free_frame l).1.trans h.page, a.groupPaged_free h.group hl, ?_⟩
  rw [← h.pages, KvAllocator.holdings_free h.page_pos hl hnd, h.page]
  abel

/-- Lists of slots that are freed one after the other. -/
lemma freeAll {freed : List (List Slot)} (hl : ∀ l ∈ freed, Paged c.pageSize l)
    (h : Pool size c a g locks (owned + (freed.map (pageSet c.pageSize)).sum)) :
    Pool size c (freed.foldl .free a) g locks owned := by
  induction freed generalizing a with
  | nil => simpa using h
  | cons l freed ih =>
    obtain ⟨hl, hfreed⟩ := forall_mem_cons.mp hl
    refine ih hfreed (free hl ?_)
    rwa [map_cons, sum_cons, add_comm (pageSet _ _), ← add_assoc] at h

section
variable (h : Pool size c a g locks owned)
include h

/-- A group of frees begins with nothing in it. -/
lemma freeGroupBegin (hopen : a.isNotInFreeGroup = true) :
    Pool size c a.freeGroupBegin g locks owned := by
  obtain ⟨hheld, hgroup⟩ := a.holdings_freeGroupBegin hopen
  exact ⟨h.sound, h.vals, h.page, hgroup, by rw [hheld]; exact h.pages⟩

/-- At its end the group goes to the free pages. -/
lemma freeGroupEnd (hopen : a.isNotInFreeGroup = false) :
    Pool size c a.freeGroupEnd g locks owned := by
  have hnd : a.holdings.Nodup :=
    Multiset.nodup_of_le ((Multiset.le_add_right _ _).trans (Multiset.le_add_right _ _)) h.nodup
  obtain ⟨hheld, hgroup⟩ := a.holdings_freeGroupEnd h.page_pos hopen h.group hnd
  exact ⟨h.sound, h.vals, a.pageSize_freeGroupEnd.trans h.page, hgroup,
    by rw [hheld]; exact h.pages⟩

/-! ### The tree -/

/-- The tree may be reshaped under the pool. -/
lemma reshape (hon : c.disable = false) (hr : c.Reshape g c' g') :
    Pool size c' a g' locks owned := by
  obtain ⟨hvals, hpages⟩ := hr.pages h.sound.wf h.vals
  exact ⟨h.sound.reshape hon hr, hvals, h.page.trans (pageSize_of_params hr.params).symm, h.group,
    by rw [hpages, pageSize_of_params hr.params]; exact h.pages⟩

end

variable {n : NodeId}

section
variable (h : Pool size c a g locks owned)
include h

/-- Locks come and go without moving pages. -/
lemma relock {locks' : List NodeId} (hs : c'.Sound g locks')
    (hk : c.Keeps g c' g ∧ c'.nodePages g = c.nodePages g ∧ (ValsPaged c g → ValsPaged c' g)) :
    Pool size c' a g locks' owned := by
  obtain ⟨hk, hpages, hvals⟩ := hk
  exact ⟨hs, hvals h.vals, h.page.trans (pageSize_of_params hk.params).symm, h.group,
    by rw [hpages, pageSize_of_params hk.params]; exact h.pages⟩

/-- A lookup, which may split a node. -/
lemma lookup (now : Int) (key : RadixKey) :
    ∃ c' r g', c.matchPrefix now key = some (c', r) ∧ Pool size c' a g' locks owned ∧
    c.Keeps g c' g' ∧
      g.live ⊆ g'.live ∧ Found c' g' (key.view c.isEagle) r := by
  have hwf := h.sound.wf
  by_cases hdis : c.disable = true
  · refine ⟨c, _, g, matchPrefix_off now key hdis, h, .refl c g, Finset.Subset.refl _, hwf.root_mem,
      Nat.zero_le _, hwf.root_path, hwf.root_vals, .inl rfl, ?_⟩
    intro n hn _ _
    rw [h.sound.off hdis] at hn
    rw [Finset.mem_singleton.mp hn, hwf.root_path]
    exact le_refl 0
  · have hon : c.disable = false := by simpa using hdis
    obtain ⟨c', r, g', len, heq, hm⟩ := matchPrefix_spec now key hwf hon
    have hwf' := hm.reshape.wellFormed hwf
    have hlen : r.deviceIndices.length = len := by
      rw [← hm.vals, hwf'.length_vals hm.mem, hm.path, length_take, RadixKey.length_iter,
        min_eq_left hm.le]
    refine ⟨c', r, g', heq, h.reshape hon hm.reshape, hm.reshape.keeps hwf,
      hm.reshape.live_subset, hm.mem,
      hlen.trans_le hm.le, by rw [hlen]; exact hm.path, hm.vals, hm.ns, ?_⟩
    intro n hn hpre hns
    rcases Nat.eq_zero_or_pos (g'.path n).length with hz | hpos
    · omega
    · obtain ⟨hroot, page, hholds⟩ := holds_path hwf' hn hpos
      rw [hns.resolve_left hroot] at hholds
      rw [hlen]
      exact hm.longest _ page ((hm.reshape.holds hwf _ _ _).mp hholds) hpre

/-- What is inserted goes from a request to the tree, but for the part that the tree has already. -/
lemma insert (hon : c.disable = false) (now : Int) (params : InsertParams)
    (hslots : Paged c.pageSize params.slots) :
    ∃ c' g' len, c.insert now params = some (c', len) ∧
      c.Inserted g (params.key.view c.isEagle) params.slots c' g' len ∧ c.pageSize ∣ len ∧
      ∀ owned', owned = owned' + pageSet c.pageSize
        ((params.slots.take (floor c.pageSize (params.key.view c.isEagle).len)).drop len) →
        Pool size c' a g' locks owned' := by
  obtain ⟨c', g', len, heq, hi⟩ := insert_spec now params h.sound.wf hon
  obtain ⟨hdvd, hvals, hpages⟩ := hi.pages h.sound.wf h.vals hslots
  refine ⟨c', g', len, heq, hi, hdvd, fun owned' howned => ?_⟩
  refine ⟨h.sound.inserted hon hi, hvals, h.page.trans (pageSize_of_params hi.params).symm,
    h.group, ?_⟩
  rw [hpages, pageSize_of_params hi.params, ← h.pages, howned]
  abel

/-- Pages of evicted nodes are freed. -/
lemma evict (numTokens : Nat) :
    ∃ c' n freed g', c.evict numTokens = some (c', n, freed) ∧ Pool size c'
    (freed.foldl .free a) g' locks owned ∧
      c.Keeps g c' g' := by
  obtain ⟨c', g', freed, heq, he⟩ := evict_spec numTokens h.sound.wf h.sound.books.leafSound
  obtain ⟨g'', hs, he'⟩ := h.sound.evict heq
  obtain ⟨hfreed, hvals, hpages⟩ := he'.pages h.sound.wf h.vals
  have hpage := pageSize_of_params he'.params
  refine ⟨c', _, freed, g'', heq, freeAll (by rw [hpage]; exact hfreed) ?_, he'.keeps⟩
  refine ⟨hs, hvals, h.page.trans hpage.symm, h.group, ?_⟩
  rw [hpage, ← h.pages, ← hpages]
  abel

/-- The eviction that an allocation asks for. -/
lemma evictFromTreeCache (numTokens : Nat) :
    ∃ c' a' g', Managers.evictFromTreeCache c a numTokens = some (c', a') ∧
    Pool size c' a' g' locks owned ∧ c.Keeps g c' g' := by
  unfold Managers.evictFromTreeCache
  split
  · obtain ⟨c', n, freed, g', heq, h', hk⟩ := h.evict numTokens
    exact ⟨c', _, g', by rw [heq]; rfl, h', hk⟩
  · exact ⟨c, a, g, rfl, h, .refl c g⟩

/-- A request locks the path to a node. -/
lemma lock (hn : n ∈ g.live) :
    ∃ c' d, c.incLockRef n = some (c', d) ∧ Pool size c' a g (n :: locks) owned ∧
    c.Keeps g c' g := by
  obtain ⟨c', d, heq, hs, -, hk⟩ := h.sound.exists_lock hn
  exact ⟨c', d, heq, h.relock hs hk, hk.1⟩

end

/-- It unlocks a path it has locked. -/
lemma unlock (h : Pool size c a g (n :: locks) owned) :
    ∃ c' d, c.decLockRef n = some (c', d) ∧ Pool size c' a g locks owned ∧ c.Keeps g c' g := by
  obtain ⟨c', d, heq, hs, -, hk⟩ := h.sound.exists_unlock
  exact ⟨c', d, heq, h.relock hs hk, hk.1⟩

end Pool

end Sglang.Managers
