import Sglang.Managers.DecodeMemory
import Sglang.Managers.KvOwnership

/-! The decode memory check is sufficient.

The estimate bounds the pages of every allocation of the next step, request by request
(`specTokensPerReq_*`), and between the check and the allocations pages are only given back:
evictions and releases never take a page from the allocator (`Frees`). What a released request had
is with the allocator or in the tree afterwards, and stays with one of the two. -/
namespace Sglang.Managers

open Option hiding guard
open List
open MemCache Prefix Pages KvAllocator RadixCache ScheduleBatch

/-! ### The estimate -/

variable {page : Nat}

section Estimate
lemma le_orOne (n : Nat) : n ≤ orOne n := by
  unfold orOne
  split <;> omega

lemma numNewPages_mul_le {rs : List ExtendArgs} {k : Nat}
    (h : ∀ r ∈ rs, (count page r.seqLen - count page r.preLen) * page ≤ k) :
    numNewPages page rs * page ≤ k * rs.length := by
  induction rs with
  | nil => simp [numNewPages]
  | cons r rs ih =>
    obtain ⟨hr, hrs⟩ := forall_mem_cons.mp h
    have hrest := ih hrs
    simp only [numNewPages, map_cons, sum_cons, length_cons, add_mul, Nat.mul_succ] at hrest ⊢
    omega

lemma growth_le (hp : 0 < page) (s n : Nat) :
    (count page (s + n) - count page s) * page ≤ ceil page n := by
  have hcount := count_sub_le hp (s + n) s
  rw [Nat.add_sub_cancel_left] at hcount
  exact Nat.mul_le_mul_right page hcount

namespace ScheduleBatch

/-- With pages of one slot the estimate covers the draft and the verify slots. -/
lemma specTokensPerReq_one (spec : SpecArgs) :
    spec.numSteps * spec.topk ≤ specTokensPerReq spec 1 ∧
    spec.numDraftTokens ≤ specTokensPerReq spec 1 := by
  have hsteps := Nat.mul_le_mul (le_orOne spec.numSteps) (le_orOne spec.topk)
  simp only [specTokensPerReq, lt_irrefl, gt_iff_lt, false_and, if_false]
  omega

lemma specTokensPerReq_verify (hp : 1 < page) (spec : SpecArgs) :
    ceil page spec.numDraftTokens ≤ specTokensPerReq spec page := by
  simp only [specTokensPerReq, gt_iff_lt, hp, true_and, if_true]
  split <;> exact le_max_right _ _

lemma specTokensPerReq_chain (hp : 1 < page) {spec : SpecArgs} (hone : spec.topk = 1) :
    ceil page spec.numSteps ≤ specTokensPerReq spec page := by
  have hmono : ceil page spec.numSteps ≤ ceil page (orOne spec.numSteps) :=
    Nat.mul_le_mul_right page (count_mono (by omega) (le_orOne _))
  have htopk : orOne spec.topk = 1 := by rw [hone]; rfl
  simp only [specTokensPerReq, htopk, gt_iff_lt, hp, lt_irrefl, and_false,
    if_false, if_true, mul_one]
  omega

/-- Several branches copy the page that is begun, each of them. -/
lemma specTokensPerReq_branches (hp : 1 < page) {spec : SpecArgs} (hmany : spec.topk ≠ 1)
    (r : Req) :
    (count page (draftSeqLen spec page r) - count page r.kvCommittedLen) * page ≤
    specTokensPerReq spec page := by
  have hpos : 0 < page := by omega
  have htopk : orOne spec.topk = spec.topk := if_neg spec.topk_pos.ne'
  have hbranch : 1 < spec.topk := by
    have := spec.topk_pos
    omega
  let newPages := count page (r.kvCommittedLen % page + spec.numSteps)
  have hseq :
      draftSeqLen spec page r = (r.kvCommittedLen / page + newPages * spec.topk) * page := by
    show r.kvCommittedLen / page * page + newPages * (page * spec.topk) = _
    rw [add_mul, mul_assoc, mul_comm page]
  have hfloor : r.kvCommittedLen / page ≤ count page r.kvCommittedLen :=
    Nat.div_le_div_right (by omega)
  have hnew : newPages ≤ count page (orOne spec.numSteps + page) := by
    have hmod := Nat.mod_lt r.kvCommittedLen hpos
    have := le_orOne spec.numSteps
    exact count_mono hpos (by omega)
  have hdiff :
      count page (draftSeqLen spec page r) - count page r.kvCommittedLen ≤
      newPages * spec.topk := by
    rw [hseq, count_mul hpos]
    omega
  calc (count page (draftSeqLen spec page r) - count page r.kvCommittedLen) * page
      ≤ newPages * spec.topk * page := Nat.mul_le_mul_right page hdiff
    _ ≤ count page (orOne spec.numSteps + page) * spec.topk * page :=
        Nat.mul_le_mul_right page (Nat.mul_le_mul_right spec.topk hnew)
    _ = ceil page (orOne spec.numSteps + page) * spec.topk := by rw [ceil_eq, Nat.mul_right_comm]
    _ ≤ specTokensPerReq spec page := by
        simp only [specTokensPerReq, htopk, gt_iff_lt, hp, hbranch, and_self, if_true]
        exact le_max_left _ _

end ScheduleBatch

end Estimate

/-! ### What is only given back -/

/-- A tree and an allocator that can be used, whoever owns what. -/
structure Memory (c : RadixCache) (a : KvAllocator) (g : Shape) (locks : List NodeId) : Prop where
  sound : c.Sound g locks
  vals : c.ValsPaged g
  page : a.pageSize = c.pageSize
  ready : a.Ready

/-- The page is with the allocator or in the tree. -/
def Kept (c : RadixCache) (a : KvAllocator) (g : Shape) (page : Nat) : Prop :=
  page ∈ a.pages ∨ page ∈ c.nodePages g

/-- The steps that give pages back and take none. -/
structure Frees (c : RadixCache) (a : KvAllocator) (g : Shape) (c' : RadixCache)
    (a' : KvAllocator) (g' : Shape) : Prop where
  keeps : c.Keeps g c' g'
  live : g'.live ⊆ g.live
  size : a.pages.length ≤ a'.pages.length
  kept : ∀ p, Kept c a g p → Kept c' a' g' p

variable {locks : List NodeId}

section Frees
variable {c c' c'' : RadixCache} {a a' a'' : KvAllocator} {g g' g'' : Shape}

lemma Frees.refl (c : RadixCache) (a : KvAllocator) (g : Shape) : Frees c a g c a g :=
  ⟨.refl c g, Finset.Subset.refl _, le_refl _, fun _ h => h⟩

lemma Frees.trans (h : Frees c a g c' a' g') (h' : Frees c' a' g' c'' a'' g'') :
    Frees c a g c'' a'' g'' where
  keeps := h.keeps.trans h'.keeps fun _ _ hn => h'.live hn
  live := h'.live.trans h.live
  size := h.size.trans h'.size
  kept p hp := h'.kept p (h.kept p hp)

lemma mem_pageSet (hp : 0 < page) {l : List Slot} (hl : Paged page l) {p : Nat}
    (h : p ∈ pageSet page l) :
    ∃ s ∈ l, s / page = p := mem_map.mp ((IsPaged.mem_iff hp hl).mpr h)

lemma mem_sum_pageSet {p : Nat} {ls : List (List Slot)} (h : p ∈ (ls.map (pageSet page)).sum) :
    ∃ l ∈ ls, p ∈ pageSet page l := by
  induction ls with
  | nil => exact absurd h (Multiset.notMem_zero p)
  | cons l ls ih =>
    rw [map_cons, sum_cons] at h
    rcases Multiset.mem_add.mp h with h | h
    · exact ⟨l, mem_cons_self, h⟩
    · obtain ⟨l', hl', h⟩ := ih h
      exact ⟨l', mem_cons_of_mem _ hl', h⟩

lemma Memory.free (h : Memory c a g locks) (l : List Slot) :
    Memory c (a.free l) g locks ∧ Frees c a g c (a.free l) g ∧ ∀ s ∈ l, Kept c
    (a.free l) g (s / c.pageSize) := by
  obtain ⟨hready, hsize, hmem⟩ := h.ready.free l
  refine ⟨⟨h.sound, h.vals, (a.free_frame l).1.trans h.page, hready⟩,
    ⟨.refl c g, Finset.Subset.refl _, hsize,
    fun p hp => hp.imp (fun hp => (hmem p).mpr (.inl hp)) id⟩, fun s hs => ?_⟩
  exact .inl ((hmem _).mpr (.inr ⟨s, hs, by rw [h.page]⟩))

lemma Memory.freeAll (h : Memory c a g locks) (freed : List (List Slot)) :
    Memory c (freed.foldl .free a) g locks ∧ Frees c a g c (freed.foldl .free a) g ∧
      ∀ l ∈ freed, ∀ s ∈ l, Kept c (freed.foldl .free a) g (s / c.pageSize) := by
  induction freed generalizing a with
  | nil => exact ⟨h, .refl c a g, nofun⟩
  | cons l freed ih =>
    obtain ⟨hm, hf, hl⟩ := h.free l
    obtain ⟨hm', hf', hrest⟩ := ih hm
    exact ⟨hm', hf.trans hf', forall_mem_cons.mpr ⟨fun s hs => hf'.kept _ (hl s hs), hrest⟩⟩

lemma Memory.evict (h : Memory c a g locks) (numTokens : Nat) :
    ∃ c' a' g', evictFromTreeCache c a numTokens = some (c', a') ∧ Memory c' a' g' locks ∧
    Frees c a g c' a' g' := by
  unfold evictFromTreeCache
  split
  · obtain ⟨c', g', freed, heq, -⟩ := evict_spec numTokens h.sound.wf h.sound.books.leafSound
    obtain ⟨g', hs, he⟩ := h.sound.evict heq
    obtain ⟨hpaged, hvals, hpages⟩ := he.pages h.sound.wf h.vals
    have hpage := pageSize_of_params he.params
    have hm : Memory c' a g' locks := ⟨hs, hvals, h.page.trans hpage.symm, h.ready⟩
    obtain ⟨hm', hf', hfreed⟩ := hm.freeAll freed
    refine ⟨c', _, g', by rw [heq]; rfl, hm', he.keeps, ?_, hf'.size, fun p hp => ?_⟩
    · exact he.live_subset
    · rcases hp with hp | hp
      · exact hf'.kept p (.inl hp)
      · rw [← hpages] at hp
        rcases Multiset.mem_add.mp hp with hp | hp
        · obtain ⟨l, hl, hp⟩ := mem_sum_pageSet hp
          obtain ⟨s, hs, rfl⟩ := mem_pageSet c.pageSize_pos (hpaged l hl) hp
          exact hpage ▸ hfreed l hl s hs
        · exact hf'.kept p (.inr hp)
  · exact ⟨c, a, g, rfl, h, .refl c a g⟩

lemma Memory.unlock {n : NodeId} (h : Memory c a g (n :: locks)) :
    ∃ c' d, c.decLockRef n = some (c', d) ∧ Memory c' a g locks ∧ Frees c a g c' a g := by
  obtain ⟨c', d, heq, hs, -, hk, hpages, hvals⟩ := h.sound.exists_unlock
  refine ⟨c', d, heq, ⟨hs, hvals h.vals, h.page.trans (pageSize_of_params hk.params).symm, h.ready⟩,
    hk, Finset.Subset.refl _, le_refl _, fun p hp => ?_⟩
  unfold Kept
  rwa [hpages]

lemma Memory.perm {locks' : List NodeId} (h : Memory c a g locks) (hp : locks.Perm locks') :
    Memory c a g locks' :=
  ⟨h.sound.perm hp, h.vals, h.page, h.ready⟩

end Frees

/-! ### Releasing a request -/

/-- How far the slots of a request may reach beyond the committed ones. -/
def DecodeMode.ahead (mode : DecodeMode) (pageSize : Nat) : Nat :=
  match mode with
  | .overlap spec => 2 * (getAllocLenPerDecode spec pageSize).getD 0
  | _ => 0

/-- A request of the running batch: its row starts with the slots of its node and runs through
pages, and its lengths are exact. -/
structure Running (mode : DecodeMode) (c : RadixCache) (g : Shape) (r : Req) : Prop where
  mem : r.lastNode ∈ g.live
  length : (g.path r.lastNode).length = r.cacheProtectedLen
  vals : g.vals r.lastNode = r.slots.take r.cacheProtectedLen
  paged : Paged c.pageSize r.slots
  row : ∃ row, r.row = some row ∧ row.length = r.kvAllocatedLen
  committed : r.kvCommittedLen ≤ r.kvAllocatedLen
  known : r.kvCommittedLen ≤ r.tokens.length
  ahead : r.kvAllocatedLen ≤ r.kvCommittedLen + mode.ahead c.pageSize

section Release
variable {mode : DecodeMode} {c c' : RadixCache} {a a' : KvAllocator} {g g' : Shape} {r : Req}

section
variable (h : Running mode c g r)
include h

lemma Running.keeps (hk : c.Keeps g c' g') (hmem : r.lastNode ∈ g'.live) :
    Running mode c' g' r := by
  obtain ⟨hpath, hvals, -⟩ := hk.label r.lastNode h.mem hmem
  have hpage := pageSize_of_params hk.params
  refine ⟨hmem, ?_, ?_, ?_, h.row, h.committed, h.known, ?_⟩
  · rw [hpath]
    exact h.length
  · rw [hvals]
    exact h.vals
  · rw [hpage]
    exact h.paged
  · rw [hpage]
    exact h.ahead

lemma Running.shared (hm : Memory c a g locks) {s : Slot}
    (hs : s ∈ r.slots.take r.cacheProtectedLen) :
    Kept c a g (s / c.pageSize) := by
  rw [← h.vals] at hs
  obtain ⟨n, hn, hroot, hs⟩ := mem_vals hm.sound.wf h.mem hs
  obtain ⟨p, hedge⟩ := hm.sound.wf.edge n hn hroot
  refine .inr (Multiset.mem_sum.mpr ⟨n, Finset.mem_erase.mpr ⟨hroot, hn⟩, ?_⟩)
  exact (hm.vals.value hm.sound.wf hn hedge).div_mem hs

/-- What `cache_finished_req` does to a request that is not inserted: the slots up to the reported
length are given back, but for those that the tree has. -/
lemma Running.cacheFinished (hm : Memory c a g (r.lastNode :: locks)) (args : ServerArgs)
    (now : Int) {row : List Slot} (hrow : r.row = some row) :
    ∃ c' a', cacheFinishedReq now args false c a r row = some (c', a') ∧
    Memory c' a' g locks ∧ Frees c a g c' a' g ∧
      ∀ q ∈ pageSet c.pageSize (row.take (r.cacheCommitLen args)), Kept c' a' g q := by
  have hslots := Req.slots_of_row hrow
  have hpos := c.pageSize_pos
  have hpaged : Paged c.pageSize row := hslots ▸ h.paged
  have htokens : r.cacheCommitLen args ≤ r.tokens.length := (r.cacheCommitLen_le args).trans h.known
  generalize hn : r.cacheCommitLen args = n at *
  have htake : Paged c.pageSize (row.take n) := hpaged.take hpos n
  unfold cacheFinishedReq
  simp only [hn]
  by_cases hdis : c.disable = true
  · rw [if_pos hdis]
    obtain ⟨hm1, hf1, hkept⟩ := hm.free (row.take n)
    obtain ⟨c', d, heq, hm2, -⟩ := hm1.unlock
    obtain ⟨rfl, -⟩ : c = c' ∧ 0 = d := by simpa [decLockRef, hdis] using heq
    refine ⟨c, _, rfl, hm2, hf1, fun q hq => ?_⟩
    obtain ⟨s, hs, rfl⟩ := mem_pageSet hpos htake hq
    exact hkept s hs
  rw [if_neg hdis]
  have hlen : (r.tokens.take n).length = n := by rw [length_take, min_eq_left htokens]
  let k := alignedLen c n
  have hk : c.pageSize ∣ k := dvd_floor _ _
  have hprot : c.pageSize ∣ r.cacheProtectedLen := by
    rw [← h.length]
    exact hm.sound.wf.page_dvd_path h.mem
  obtain ⟨hm1, hf1, hkept1⟩ := hm.free (((row.take n).take k).drop r.cacheProtectedLen)
  obtain ⟨hm2, hf2, hkept2⟩ := hm1.free ((row.take n).drop k)
  obtain ⟨c', d, heq, hm3, hf3⟩ := hm2.unlock
  refine ⟨c', _, ?_, hm3, hf1.trans (hf2.trans hf3), fun q hq => hf3.kept q ?_⟩
  · simp [insertFinished, hlen, radixKey_len, heq, k]
  · -- the tail, the part behind the protected slots, and these
    rw [← htake.pageSet_split hpos hk, ← (htake.take hpos k).pageSet_split hpos hprot] at hq
    rcases Multiset.mem_add.mp hq with hq | hq
    · rcases Multiset.mem_add.mp hq with hq | hq
      · obtain ⟨s, hs, rfl⟩ := mem_pageSet hpos ((htake.take hpos k).take hpos _) hq
        refine (hf1.trans hf2).kept _ (h.shared hm ?_)
        rw [hslots]
        rw [take_take, take_take] at hs
        exact mem_of_mem_take (i := min k n) (by rwa [take_take, Nat.min_comm, ← Nat.min_assoc])
      · obtain ⟨s, hs, rfl⟩ := mem_pageSet hpos ((htake.take hpos k).drop hpos hprot) hq
        exact hf2.kept _ (hkept1 s hs)
    · obtain ⟨s, hs, rfl⟩ := mem_pageSet hpos (htake.drop hpos hk) hq
      exact hkept2 s hs

/-- A request that is released without insertion leaves all its slots to the allocator and the tree.
-/
lemma Running.release (hm : Memory c a g (r.lastNode :: locks)) (strip : Bool) (now : Int) :
    ∃ c' a', releaseKvCache now ⟨strip, mode.speculative⟩ false c a r = some (c', a') ∧
    Memory c' a' g locks ∧
      Frees c a g c' a' g ∧ ∀ s ∈ r.slots, Kept c' a' g (s / c.pageSize) := by
  obtain ⟨row, hrow, hrowLen⟩ := h.row
  have hslots := Req.slots_of_row hrow
  have hpos := c.pageSize_pos
  have hpaged : Paged c.pageSize row := hslots ▸ h.paged
  obtain ⟨c', a', heq, hm1, hf1, hkept1⟩ := h.cacheFinished hm ⟨strip, mode.speculative⟩ now hrow
  have hcommit := r.cacheCommitLen_le ⟨strip, mode.speculative⟩
  have hpage := pageSize_of_params hf1.keeps.params
  have hguard :
      mode.speculative || strip ||
      decide (r.cacheCommitLen ⟨strip, mode.speculative⟩ = r.kvAllocatedLen) := by
    cases hspec : mode.speculative with
    | true => rfl
    | false =>
      cases strip with
      | true => rfl
      | false =>
        have hahead : mode.ahead c.pageSize = 0 := by cases mode <;> first | rfl | cases hspec
        have hlen : r.cacheCommitLen ⟨false, false⟩ = r.kvAllocatedLen := by
          have := h.ahead
          have := h.committed
          rw [show r.cacheCommitLen ⟨false, false⟩ = r.kvCommittedLen from rfl]
          omega
        simp [hlen]
  generalize hn : r.cacheCommitLen ⟨strip, mode.speculative⟩ = n at *
  have hstart : (if c'.pageSize > 1 then ceil c'.pageSize n else n) = ceil c.pageSize n := by
    rw [hpage]
    split
    · rfl
    · rw [show c.pageSize = 1 by omega, ceil_one]
  have hend :
    (if ceil c.pageSize n < r.kvAllocatedLen then
    a'.free ((row.take r.kvAllocatedLen).drop (ceil c.pageSize n)) else a') =
      a'.free (row.drop (ceil c.pageSize n)) := by
    rw [take_of_length_le (by omega)]
    split
    · rfl
    · rw [drop_eq_nil_of_le (by omega)]
      rfl
  obtain ⟨hm2, hf2, hkept2⟩ := hm1.free (row.drop (ceil c.pageSize n))
  refine ⟨c', a'.free (row.drop (ceil c.pageSize n)), ?_, hm2, hf1.trans hf2, fun s hs => ?_⟩
  · simp [releaseKvCache, hrow, heq, guard, hguard, hstart, hend, hn]
  · rw [hslots] at hs
    have hq := hpaged.div_mem hs
    have hle : n ≤ row.length := by
      have := h.committed
      omega
    rw [← hpaged.pageSet_ceil hpos hle] at hq
    rcases Multiset.mem_add.mp hq with hq | hq
    · exact hf2.kept _ (hkept1 _ hq)
    · obtain ⟨t, ht, heq⟩ := mem_pageSet hpos (hpaged.drop hpos (dvd_mul_left _ _)) hq
      have ht := hkept2 t ht
      rw [hpage] at ht
      exact heq ▸ ht

end

end Release

/-! ### The next step -/

namespace ScheduleBatch
variable {b : ScheduleBatch} {g : Shape}

section
variable (hm : Memory b.cache b.allocator g locks)
include hm

lemma evictFor_spec (numTokens : Nat) :
    ∃ c a g', b.evictFor numTokens = some { b with cache := c, allocator := a } ∧
    Memory c a g' locks ∧
      Frees b.cache b.allocator g c a g' ∧ a.pageSize = b.pageSize := by
  obtain ⟨c, a, g', heq, hm', hf⟩ := hm.evict numTokens
  refine ⟨c, a, g', by rw [evictFor, heq]; rfl, hm', hf, ?_⟩
  rw [hm'.page, pageSize_of_params hf.keeps.params]
  exact hm.page.symm

lemma pageSize_pos : 0 < b.pageSize := by
  rw [pageSize, hm.page]
  exact b.cache.pageSize_pos

variable {n : Nat}

lemma allocTokenSlots_spec (hn : n / b.pageSize ≤ b.allocator.pages.length) :
    ∃ c a g' a' out, b.allocTokenSlots n = some ({ b with cache := c, allocator := a }, a', out) ∧
    Memory c a g' locks ∧
      Frees b.cache b.allocator g c a g' ∧ a'.restoreState a = a := by
  obtain ⟨c, a, g', heq, hm', hf, hpage⟩ := evictFor_spec hm n
  obtain ⟨⟨a', out⟩, halloc⟩ := isSome_iff_exists.mp (hm'.ready.alloc_isSome (n := n) (by
    rw [hpage]
    exact hn.trans hf.size))
  refine ⟨c, a, g', a', out, ?_, hm', hf, restoreState_alloc halloc⟩
  simp [allocTokenSlots, heq, halloc]

lemma allocPagedTokenSlotsExtend_spec {rs : List ExtendArgs}
    (hn : n = (rs.map fun r => r.seqLen - r.preLen).sum)
    (hroom : numNewPages b.pageSize rs * b.pageSize ≤ b.allocator.availableSize) :
    ∃ c a g' a' outs, b.allocPagedTokenSlotsExtend rs n =
    some ({ b with cache := c, allocator := a }, a', outs) ∧
      Memory c a g' locks ∧ Frees b.cache b.allocator g c a g' ∧ a'.restoreState a = a := by
  obtain ⟨c, a, g', heq, hm', hf, hpage⟩ := evictFor_spec hm (n + rs.length * b.pageSize)
  have hpages : numNewPages b.pageSize rs ≤ b.allocator.pages.length := by
    rw [availableSize_eq] at hroom
    exact Nat.le_of_mul_le_mul_right hroom (pageSize_pos hm)
  obtain ⟨⟨a', outs⟩, halloc⟩ := isSome_iff_exists.mp (hm'.ready.allocExtend_isSome
    (by rw [hm'.page]; exact c.pageSize_pos) hn (by rw [hpage]; exact hpages.trans hf.size))
  refine ⟨c, a, g', a', outs, ?_, hm', hf, restoreState_allocExtend halloc⟩
  simp [allocPagedTokenSlotsExtend, heq, halloc]

end

lemma numNewPages_extendTo_le {k : Nat} {seqLen : Req → Nat}
    (hroom : k * b.reqs.length ≤ b.allocator.availableSize)
    (hseq : ∀ r ∈ b.reqs,
    (count b.pageSize (seqLen r) - count b.pageSize r.kvCommittedLen) * b.pageSize ≤ k) :
    numNewPages b.pageSize
    (b.reqs.map (extendTo seqLen)) * b.pageSize ≤ b.allocator.availableSize := by
  refine (numNewPages_mul_le (k := k) (forall_mem_map.mpr hseq)).trans ?_
  rwa [length_map]

lemma sum_extendTo (seqLen : Req → Nat) (n : Nat) (h : ∀ r, seqLen r = r.kvCommittedLen + n)
    (reqs : List Req) :
    reqs.length * n = ((reqs.map (extendTo seqLen)).map fun r => r.seqLen - r.preLen).sum := by
  have hone : ((fun r : ExtendArgs => r.seqLen - r.preLen) ∘ extendTo seqLen) = fun _ => n := by
    funext r
    simp [extendTo, h r]
  rw [List.map_map, hone, map_const', sum_replicate, smul_eq_mul]

lemma length_mul_le_pages {tokens : Nat} {perReq : Nat → Nat} (hone : b.pageSize = 1)
    (hle : tokens ≤ perReq 1)
    (hroom : perReq b.pageSize * b.reqs.length ≤ b.allocator.availableSize) :
    b.reqs.length * tokens / b.pageSize ≤ b.allocator.pages.length := by
  rw [hone] at hroom ⊢
  rw [availableSize_eq, show b.allocator.pageSize = 1 from hone, mul_comm] at hroom
  have := Nat.mul_le_mul_left b.reqs.length hle
  rw [Nat.div_one]
  omega

section
variable (hm : Memory b.cache b.allocator g locks)
include hm

section
variable (spec : SpecArgs)
  (hroom : specTokensPerReq spec b.pageSize * b.reqs.length ≤ b.allocator.availableSize)
include hroom

/-- The draft slots are found, and given back: the allocator is as it was after the eviction. -/
lemma draftPreprocessDecode_spec :
    ∃ c a g', b.draftPreprocessDecode spec = some { b with cache := c, allocator := a } ∧
    Memory c a g' locks ∧
      Frees b.cache b.allocator g c a g' := by
  have hpos := pageSize_pos hm
  unfold draftPreprocessDecode
  split
  · next hone =>
    obtain ⟨c, a, g', a', out, heq, hm', hf, hrestore⟩ :=
      allocTokenSlots_spec hm (length_mul_le_pages hone (specTokensPerReq_one spec).1 hroom)
    exact ⟨c, a, g', by simp [heq, hrestore], hm', hf⟩
  rename_i hpage
  have hlt : 1 < b.pageSize := by omega
  split
  · next hone =>
    have hfit :
      ∀ r ∈ b.reqs,
      (count b.pageSize (r.kvCommittedLen + spec.numSteps) - count b.pageSize r.kvCommittedLen) *
        b.pageSize ≤ specTokensPerReq spec b.pageSize := fun r _ =>
      (growth_le hpos _ _).trans (specTokensPerReq_chain hlt hone)
    obtain ⟨c, a, g', a', out, heq, hm', hf, hrestore⟩ := allocPagedTokenSlotsExtend_spec hm
      (sum_extendTo _ spec.numSteps (fun _ => rfl) b.reqs) (numNewPages_extendTo_le hroom hfit)
    exact ⟨c, a, g', by simp [heq, hrestore], hm', hf⟩
  · next hmany =>
    obtain ⟨c, a, g', a', out, heq, hm', hf, hrestore⟩ := allocPagedTokenSlotsExtend_spec hm rfl
      (numNewPages_extendTo_le hroom fun r _ => specTokensPerReq_branches hlt hmany r)
    rw [List.map_map] at heq
    exact ⟨c, a, g', by simp [heq, hrestore], hm', hf⟩

lemma prepareForVerify_isSome : (b.prepareForVerify spec).isSome := by
  have hpos := pageSize_pos hm
  unfold prepareForVerify
  split
  · next hone =>
    obtain ⟨c, a, g', a', out, heq, -⟩ :=
      allocTokenSlots_spec hm (length_mul_le_pages hone (specTokensPerReq_one spec).2 hroom)
    simp [heq]
  · next hpage =>
    have hlt : 1 < b.pageSize := by omega
    have hfit :
      ∀ r ∈ b.reqs,
      (count b.pageSize
      (r.kvCommittedLen + spec.numDraftTokens) - count b.pageSize r.kvCommittedLen) *
        b.pageSize ≤ specTokensPerReq spec b.pageSize :=
          fun r _ => (growth_le hpos _ _).trans (specTokensPerReq_verify hlt spec)
    obtain ⟨c, a, g', a', out, heq, -⟩ := allocPagedTokenSlotsExtend_spec hm
      (sum_extendTo _ spec.numDraftTokens (fun _ => rfl) b.reqs)
        (numNewPages_extendTo_le hroom hfit)
    simp [heq]

end

lemma allocForDecode_isSome
    (hroom : b.reqs.countP (fun r => r.kvCommittedLen % b.pageSize == 0) * b.pageSize ≤
    b.allocator.availableSize) :
    (allocForDecode b.cache b.allocator b.reqs).isSome := by
  have hpage : b.cache.pageSize = b.pageSize := hm.page.symm
  have hpages :
      b.reqs.countP (fun r => r.kvCommittedLen % b.pageSize == 0) ≤ b.allocator.pages.length := by
    rw [availableSize_eq] at hroom
    exact Nat.le_of_mul_le_mul_right hroom (pageSize_pos hm)
  unfold allocForDecode
  split
  · next hone =>
    obtain ⟨c, a, g', heq, hm', hf⟩ := hm.evict b.reqs.length
    have hone' : a.pageSize = 1 := by rw [hm'.page, pageSize_of_params hf.keeps.params, hone]
    have hall : b.reqs.countP (fun r => r.kvCommittedLen % b.pageSize == 0) = b.reqs.length := by
      rw [← hpage, hone, countP_eq_length]
      exact fun r _ => by simp [Nat.mod_one]
    obtain ⟨⟨a', out⟩, halloc⟩ :=
      isSome_iff_exists.mp (hm'.ready.alloc_isSome (n := b.reqs.length) (by
      rw [hone', Nat.div_one, ← hall]
      exact hpages.trans hf.size))
    simp [heq, halloc]
  · next hmany =>
    obtain ⟨c, a, g', heq, hm', hf⟩ := hm.evict (b.reqs.length * b.allocator.pageSize)
    have hpage' : a.pageSize = b.pageSize := by
      rw [hm'.page, pageSize_of_params hf.keeps.params, hpage]
    have hlt : 1 < b.pageSize := by
      have := pageSize_pos hm
      omega
    let args := b.reqs.map fun r => (r.kvCommittedLen + 1, lastLoc (r.slots.take r.kvCommittedLen))
    have hcount : args.countP (fun r => r.1 % a.pageSize == 1) = b.reqs.countP
        (fun r => r.kvCommittedLen % b.pageSize == 0) := by
      rw [countP_map]
      refine countP_congr fun r _ => ?_
      simp only [Function.comp_apply, beq_iff_eq, hpage', succ_mod_eq_one hlt]
    obtain ⟨⟨a', out⟩, halloc⟩ :=
      isSome_iff_exists.mp (hm'.ready.allocDecode_isSome (hcount.trans_le (hpages.trans hf.size)))
    simp only [heq, bind_eq_bind, bind_some]
    rw [show (b.reqs.map fun r => (r.kvCommittedLen + 1, lastLoc (r.slots.take r.kvCommittedLen))) =
      args from rfl, halloc]
    rfl

/-- What overlapped speculation keeps ahead is what the estimate counts. -/
lemma prepareForDecodeV2_isSome (spec : SpecArgs) {allocLen : Nat}
    (hlen : getAllocLenPerDecode spec b.pageSize = some allocLen)
    (hahead : ∀ r ∈ b.reqs, r.kvAllocatedLen ≤ r.kvCommittedLen + 2 * allocLen)
    (hroom : (b.reqs.map fun r => ceil b.pageSize
    (r.kvAllocatedLen + (r.kvCommittedLen + 2 * allocLen - r.kvAllocatedLen)) -
      ceil b.pageSize r.kvAllocatedLen).sum ≤ b.allocator.availableSize) :
      (b.prepareForDecodeV2 spec).isSome := by
  have hguard : (∀ r ∈ b.reqs, r.kvAllocatedLen ≤ r.kvCommittedLen + 2 * allocLen) = True :=
    eq_true hahead
  have hsum :
    (b.reqs.map fun r => ceil b.pageSize
    (r.kvAllocatedLen + (r.kvCommittedLen + 2 * allocLen - r.kvAllocatedLen)) -
      ceil b.pageSize r.kvAllocatedLen) = b.reqs.map fun r =>
        ceil b.pageSize (r.kvCommittedLen + 2 * allocLen) - ceil b.pageSize r.kvAllocatedLen :=
    map_congr_left fun r hr => by rw [Nat.add_sub_cancel' (hahead r hr)]
  rw [hsum] at hroom
  unfold prepareForDecodeV2
  simp only [hlen, bind_eq_bind, bind_some, guard, hguard, if_true]
  split
  · next hone =>
    have hn :
        (b.reqs.map fun r => r.kvCommittedLen + 2 * allocLen - r.kvAllocatedLen).sum / b.pageSize ≤
        b.allocator.pages.length := by
      rw [hone, Nat.div_one]
      rw [availableSize_eq, show b.allocator.pageSize = 1 from hone, mul_one, hone] at hroom
      simpa only [ceil_one] using hroom
    obtain ⟨c, a, g', a', out, heq, -⟩ := allocTokenSlots_spec hm hn
    simp [heq]
  · let args := b.reqs.map fun r =>
      (⟨r.kvAllocatedLen, r.kvCommittedLen + 2 * allocLen,
        lastLoc (r.slots.take r.kvAllocatedLen)⟩ : ExtendArgs)
    have hxs : (b.reqs.map fun r => r.kvCommittedLen + 2 * allocLen - r.kvAllocatedLen).sum =
        (args.map fun r => r.seqLen - r.preLen).sum := by
      rw [List.map_map]
      rfl
    have hnew : numNewPages b.pageSize args * b.pageSize ≤ b.allocator.availableSize := by
      refine le_trans (le_of_eq ?_) hroom
      rw [numNewPages, List.map_map, ← sum_map_mul_right]
      refine congrArg List.sum (map_congr_left fun r _ => ?_)
      rw [Function.comp_apply, Nat.sub_mul]
      rfl
    obtain ⟨c, a, g', a', outs, heq, -⟩ := allocPagedTokenSlotsExtend_spec hm hxs hnew
    rw [show (b.reqs.map fun r =>
      (⟨r.kvAllocatedLen, r.kvCommittedLen + 2 * allocLen,
        lastLoc (r.slots.take r.kvAllocatedLen)⟩ : ExtendArgs)) = args from rfl]
    simp [heq]

/-- **A batch that fits the estimate gets all the slots of its next step.** -/
theorem nextDecode_isSome (hrun : ∀ r ∈ b.reqs, Running b.mode b.cache g r)
    (hn : b.newTokensRequiredNextDecode b.reqs = some n) (hroom : n ≤ b.allocator.availableSize) :
    b.nextDecode.isSome := by
  unfold newTokensRequiredNextDecode at hn
  unfold nextDecode
  cases hmode : b.mode with
  | plain =>
    simp only [hmode, some.injEq] at hn
    subst hn
    simpa using allocForDecode_isSome hm hroom
  | eagle spec =>
    simp only [hmode, some.injEq] at hn
    subst hn
    obtain ⟨c, a, g', heq, hm', hf⟩ := draftPreprocessDecode_spec hm spec hroom
    have hpage : a.pageSize = b.pageSize := by
      rw [hm'.page, pageSize_of_params hf.keeps.params]
      exact hm.page.symm
    simp only [heq, bind_some]
    refine prepareForVerify_isSome hm' spec ?_
    show specTokensPerReq spec a.pageSize * b.reqs.length ≤ a.availableSize
    rw [hpage]
    refine hroom.trans ?_
    rw [availableSize_eq, availableSize_eq, hpage]
    exact Nat.mul_le_mul_right _ hf.size
  | overlap spec =>
    simp only [hmode] at hn
    obtain ⟨allocLen, hlen, rfl⟩ := map_eq_some_iff.mp hn
    refine prepareForDecodeV2_isSome hm spec hlen (fun r hr => ?_) hroom
    have hahead := (hrun r hr).ahead
    rw [hmode, DecodeMode.ahead, ← hm.page,
      show getAllocLenPerDecode spec b.allocator.pageSize = some allocLen from hlen] at hahead
    exact hahead

end

/-! ### Retraction -/

/-- The estimate exists: overlapped speculation has it for one branch, or for pages of one slot. -/
def Implemented (b : ScheduleBatch) : Prop :=
  ∀ spec, b.mode = .overlap spec → (getAllocLenPerDecode spec b.pageSize).isSome

/-- The requests at the indices are still running; the other locks on the tree are not of the batch.
-/
structure Stands (b : ScheduleBatch) (g : Shape) (indices : List Nat) (others : List NodeId) :
    Prop where
  memory : Memory b.cache b.allocator g ((b.select indices).map (·.lastNode) ++ others)
  running : ∀ i ∈ indices, ∃ r, b.reqs[i]? = some r ∧ Running b.mode b.cache g r

/-- What the steps of a retraction leave: the settings, the requests that stay, and every page that
was given back. -/
structure Moves (b : ScheduleBatch) (g : Shape) (b' : ScheduleBatch) (g' : Shape)
    (stay : List Nat) : Prop where
  mode : b'.mode = b.mode
  page : b'.pageSize = b.pageSize
  length : b'.reqs.length = b.reqs.length
  reqs : ∀ i ∈ stay, b'.reqs[i]? = b.reqs[i]?
  frees : Frees b.cache b.allocator g b'.cache b'.allocator g'

section Retract
variable {b' : ScheduleBatch} {g' : Shape} {indices : List Nat} {others : List NodeId}

lemma Moves.trans {b'' : ScheduleBatch} {g'' : Shape} {stay stay' : List Nat}
    (h : Moves b g b' g' stay) (h' : Moves b' g' b'' g'' stay') (hsub : stay' ⊆ stay) :
    Moves b g b'' g'' stay' where
  mode := h'.mode.trans h.mode
  page := h'.page.trans h.page
  length := h'.length.trans h.length
  reqs i hi := (h'.reqs i hi).trans (h.reqs i (hsub hi))
  frees := h.frees.trans h'.frees

lemma Moves.implemented {stay : List Nat} (h : Moves b g b' g' stay) :
    b'.Implemented ↔ b.Implemented := by
  unfold Implemented
  rw [h.mode, h.page]

lemma implemented_of_newTokensRequired {requests : List Req}
    (h : b.newTokensRequiredNextDecode requests = some n) :
    b.Implemented := by
  intro spec hspec
  simp only [newTokensRequiredNextDecode, hspec] at h
  obtain ⟨allocLen, hlen, -⟩ := map_eq_some_iff.mp h
  exact isSome_of_mem hlen

lemma implemented_of_checkDecodeMem {selected : Option (List Nat)} {answer : ScheduleBatch × Bool}
    (h : b.checkDecodeMem selected = some answer) : b.Implemented := by
  obtain ⟨n, hn, -⟩ := bind_eq_some_iff.mp h
  exact implemented_of_newTokensRequired hn

lemma newTokensRequired_isSome (himpl : b.Implemented) (requests : List Req) :
    ∃ n, b.newTokensRequiredNextDecode requests = some n := by
  unfold newTokensRequiredNextDecode
  split
  · exact ⟨_, rfl⟩
  · next spec hspec =>
    obtain ⟨allocLen, hlen⟩ := isSome_iff_exists.mp (himpl spec hspec)
    exact ⟨_, by rw [hlen]; rfl⟩
  · exact ⟨_, rfl⟩

lemma newTokensRequired_nil (himpl : b.Implemented) :
    ∃ n, b.newTokensRequiredNextDecode [] = some n ∧ n ≤ b.allocator.availableSize := by
  obtain ⟨n, hn⟩ := newTokensRequired_isSome himpl []
  refine ⟨n, hn, Nat.le_trans (Nat.le_of_eq ?_) (Nat.zero_le _)⟩
  unfold newTokensRequiredNextDecode at hn
  split at hn
  · simpa using hn.symm
  · obtain ⟨_, -, hn⟩ := map_eq_some_iff.mp hn
    exact hn.symm
  · simpa using hn.symm

lemma Stands.evictFor (h : Stands b g indices others) (numTokens : Nat) :
    ∃ b' g', b.evictFor numTokens = some b' ∧ Stands b' g' indices others ∧
    Moves b g b' g' indices ∧ b'.reqs = b.reqs := by
  obtain ⟨c, a, g', heq, hm, hf, hpage⟩ := evictFor_spec h.memory numTokens
  refine ⟨_, g', heq, ⟨hm, fun i hi => ?_⟩, ⟨rfl, hpage, rfl, fun _ _ => rfl, hf⟩, rfl⟩
  obtain ⟨r, hr, hrun⟩ := h.running i hi
  exact ⟨r, hr,
    hrun.keeps hf.keeps
    (hm.sound.locks.live _ (mem_append_left _ (mem_map_of_mem (mem_filterMap.mpr ⟨i, hi, hr⟩))))⟩

/-- The check answers, and its answer is right: the estimate is available. -/
lemma Stands.checkDecodeMem (h : Stands b g indices others) (himpl : b.Implemented)
    (selected : Option (List Nat)) :
    ∃ b' g' n, b.newTokensRequiredNextDecode (selected.elim b.reqs b.select) = some n ∧
      b.checkDecodeMem selected = some (b', decide (n ≤ b'.allocator.availableSize)) ∧
      Stands b' g' indices others ∧
      Moves b g b' g' indices ∧ b'.reqs = b.reqs := by
  obtain ⟨n, hn⟩ := newTokensRequired_isSome himpl (selected.elim b.reqs b.select)
  obtain ⟨b', g', heq, hstands, hmoves, hreqs⟩ := h.evictFor n
  refine ⟨b', g', n, hn, ?_, hstands, hmoves, hreqs⟩
  simp [ScheduleBatch.checkDecodeMem, hn, heq]

lemma newTokensRequired_congr (hmode : b'.mode = b.mode) (hpage : b'.pageSize = b.pageSize)
    (requests : List Req) :
    b'.newTokensRequiredNextDecode requests = b.newTokensRequiredNextDecode requests := by
  unfold newTokensRequiredNextDecode
  rw [hmode, hpage]

/-- A request is released: its slots are with the allocator or the tree, the other requests stay. -/
lemma Stands.releaseReq {idx : Nat} {rest : List Nat} (h : Stands b g (idx :: rest) others)
    (hnew : idx ∉ rest) (now : Int) (remaining : Nat) :
    ∃ b' g', b.releaseReq now idx remaining = some b' ∧ Stands b' g' rest others ∧
    Moves b g b' g' rest ∧
      ∀ r, b.reqs[idx]? = some r → ∀ s ∈ r.slots, Kept b'.cache b'.allocator g'
      (s / b.pageSize) := by
  obtain ⟨r, hr, hrun⟩ := h.running idx mem_cons_self
  have hlocks : (b.select (idx :: rest)).map (·.lastNode) ++ others =
      r.lastNode :: ((b.select rest).map (·.lastNode) ++ others) := by
    rw [select, filterMap_cons_some hr]
    rfl
  have hm := h.memory
  rw [hlocks] at hm
  obtain ⟨c1, a1, heq1, hm1, hf1, hkept⟩ := hrun.release hm b.stripThinkingCache now
  have hpage1 : a1.pageSize = b.pageSize := by
    rw [hm1.page, pageSize_of_params hf1.keeps.params]
    exact h.memory.page.symm
  have hstands1 : Stands { b with cache := c1, allocator := a1 } g rest others := by
    refine ⟨hm1, fun i hi => ?_⟩
    obtain ⟨q, hq, hqrun⟩ := h.running i (mem_cons_of_mem _ hi)
    exact ⟨q, hq, hqrun.keeps hf1.keeps hqrun.mem⟩
  obtain ⟨b2, g2, heq2, hstands2, hmoves2, hreqs2⟩ :=
    hstands1.evictFor (remaining * b.retractDecodeSteps)
  have hstay : ∀ i ∈ rest, (b2.reqs.set idx r.resetForRetract)[i]? = b.reqs[i]? := by
    intro i hi
    rw [getElem?_set_ne (fun heq : idx = i => hnew (heq ▸ hi)), hreqs2]
  have hselect :
      ({ b2 with reqs := b2.reqs.set idx r.resetForRetract } : ScheduleBatch).select rest =
      b2.select rest := by
    refine filterMap_congr fun i hi => (hstay i hi).trans ?_
    rw [hreqs2]
  refine ⟨{ b2 with reqs := b2.reqs.set idx r.resetForRetract }, g2, ?_,
    ⟨?_, fun i hi => ?_⟩, ?_, ?_⟩
  · have hargs : b.args = ⟨b.stripThinkingCache, b.mode.speculative⟩ := rfl
    simp [ScheduleBatch.releaseReq, hr, hargs, heq1, heq2]
  · rw [hselect]
    exact hstands2.memory
  · obtain ⟨q, hq, hqrun⟩ := hstands2.running i hi
    rw [hreqs2] at hq
    exact ⟨q, (hstay i hi).trans hq, hqrun⟩
  · refine ⟨hmoves2.mode, hmoves2.page.trans hpage1, ?_, hstay, hf1.trans hmoves2.frees⟩
    rw [length_set, hreqs2]
  · intro q hq s hs
    cases hr.symm.trans hq
    have := hmoves2.frees.kept _ (hkept s hs)
    rwa [← h.memory.page] at this

/-- The loop of `retract_decode` ends: it has taken requests off one end, and with more than one
left the estimate for those is available. -/
lemma retractLoop_spec (now : Int) (firstIter : Bool) (himpl : b.Implemented)
    (hne : indices ≠ []) (hnodup : indices.Nodup) (h : Stands b g indices others)
    (done : List Nat) :
    ∃ b' g' left out, retractLoop now firstIter indices b done = some (b', left, done ++ out) ∧
    indices = out ++ left ∧ left ≠ [] ∧
      Stands b' g' left others ∧ Moves b g b' g' left ∧
      (∀ i ∈ out, ∀ r, b.reqs[i]? = some r → ∀ s ∈ r.slots,
      Kept b'.cache b'.allocator g' (s / b.pageSize)) ∧
      (left.length ≤ 1 ∨
        ∃ n, b'.newTokensRequiredNextDecode (b'.select left.reverse) = some n ∧
        n ≤ b'.allocator.availableSize) := by
  induction indices generalizing b g done firstIter with
  | nil => exact absurd rfl hne
  | cons idx rest ih =>
    -- the check, where it is made, only evicts
    obtain ⟨b1, g1, enough, hcheck, hstands1, hmoves1, hreqs1, hright⟩ : ∃ b1 g1 enough,
        b.canStop firstIter (idx :: rest).reverse = some (b1, enough) ∧
        Stands b1 g1 (idx :: rest) others ∧ Moves b g b1 g1 (idx :: rest) ∧ b1.reqs = b.reqs ∧
        (enough = true → ∃ n, b1.newTokensRequiredNextDecode (b1.select (idx :: rest).reverse) =
        some n ∧
          n ≤ b1.allocator.availableSize) := by
      cases firstIter with
      | true =>
        exact ⟨b, g, false, rfl, h, ⟨rfl, rfl, rfl, fun _ _ => rfl, .refl _ _ _⟩, rfl, nofun⟩
      | false =>
        obtain ⟨b1, g1, n, hn, heq, hstands1, hmoves1, hreqs1⟩ :=
          h.checkDecodeMem himpl (some (idx :: rest).reverse)
        refine ⟨b1, g1, _, heq, hstands1, hmoves1, hreqs1,
          fun henough => ⟨n, ?_, of_decide_eq_true henough⟩⟩
        rw [newTokensRequired_congr hmoves1.mode hmoves1.page, select, hreqs1]
        exact hn
    rw [retractLoop]
    simp only [hcheck, bind_eq_bind, bind_some]
    by_cases henough : enough = true
    · rw [if_pos henough]
      refine ⟨b1, g1, idx :: rest, [],
        by rw [append_nil], rfl, hne, hstands1, hmoves1, nofun, .inr (hright henough)⟩
    rw [if_neg henough]
    by_cases hlast : rest = []
    · subst hlast
      rw [if_pos rfl]
      exact ⟨b1, g1, [idx], [],
        by rw [append_nil], rfl, hne, hstands1, hmoves1, nofun, .inl (le_refl _)⟩
    rw [if_neg hlast]
    obtain ⟨hnew, hrest⟩ := nodup_cons.mp hnodup
    obtain ⟨b2, g2, heq2, hstands2, hmoves2, hkept2⟩ := hstands1.releaseReq hnew now rest.length
    have hmoves12 := hmoves1.trans hmoves2 (subset_cons_self _ _)
    obtain ⟨b', g', left, out, heq', hsplit, hleft, hstands', hmoves', hkept', hroom⟩ :=
      ih false (hmoves12.implemented.mpr himpl) hlast hrest hstands2 (done ++ [idx])
    refine ⟨b', g', left, idx :: out, ?_, by rw [hsplit]; rfl, hleft, hstands', ?_, ?_, hroom⟩
    · simp only [heq2, bind_some, heq', append_assoc]
      rfl
    · exact hmoves12.trans hmoves' (hsplit ▸ subset_append_right _ _)
    · intro i hi r hr s hs
      rcases mem_cons.mp hi with rfl | hi
      · have := hmoves'.frees.kept _ (hkept2 r (hreqs1 ▸ hr) s hs)
        rwa [hmoves1.page] at this
      · have hstay := hmoves12.reqs i (hsplit ▸ mem_append_left _ hi)
        have := hkept' i hi r (hstay.trans hr) s hs
        rwa [hmoves12.page] at this

/-- A retraction asks for the estimate, of the whole batch or of what is left after the first
request. -/
lemma Stands.implemented_of_retractDecode {now : Int} {result : ScheduleBatch × Retraction}
    (h : Stands b g b.sortedIndices.reverse others) (hnodup : b.sortedIndices.reverse.Nodup)
    (hret : b.retractDecode now = some result) : b.Implemented := by
  obtain ⟨⟨b1, left, out⟩, hloop, hrest⟩ := bind_eq_some_iff.mp hret
  cases hsorted : b.sortedIndices.reverse with
  | nil =>
    rw [hsorted] at hloop
    cases hloop
  | cons idx rest =>
    rw [hsorted] at h hloop hnodup
    simp only [retractLoop, canStop, bind_eq_bind, if_true, bind_some,
      Bool.false_eq_true, if_false] at hloop
    split at hloop
    · cases hloop
      simp only [reverse_singleton, length_singleton, le_refl, if_true] at hrest
      obtain ⟨answer, hcheck, -⟩ := bind_eq_some_iff.mp hrest
      exact implemented_of_checkDecodeMem hcheck
    · next hmore =>
      obtain ⟨b2, g2, heq2, -, hmoves2, -⟩ := h.releaseReq (nodup_cons.mp hnodup).1 now rest.length
      rw [heq2, bind_some] at hloop
      cases rest with
      | nil => exact absurd rfl hmore
      | cons second rest =>
        obtain ⟨answer, hcheck, -⟩ := bind_eq_some_iff.mp hloop
        exact hmoves2.implemented.mp (implemented_of_checkDecodeMem hcheck)

lemma newTokensRequired_perm {reqs reqs' : List Req} (h : reqs.Perm reqs') :
    b.newTokensRequiredNextDecode reqs = b.newTokensRequiredNextDecode reqs' := by
  unfold newTokensRequiredNextDecode
  split
  · rw [h.countP_eq]
  · next spec _ =>
    cases getAllocLenPerDecode spec b.pageSize with
    | none => rfl
    | some allocLen => exact congrArg some (h.map _).sum_eq
  · rw [h.length_eq]

lemma select_range (b : ScheduleBatch) : b.select (range b.reqs.length) = b.reqs := by
  rw [select]
  generalize b.reqs = reqs
  induction reqs using reverseRecOn with
  | nil => rfl
  | append_singleton reqs r ih =>
    have hold : (range reqs.length).filterMap ((reqs ++ [r])[·]?) = reqs := by
      refine Eq.trans (filterMap_congr fun i hi => ?_) ih
      exact getElem?_append_left (mem_range.mp hi)
    rw [length_append, length_singleton, range_succ, filterMap_append, hold, filterMap_cons_some
      getElem?_concat_length, filterMap_nil]

lemma select_perm (h : indices.Perm (range b.reqs.length)) : (b.select indices).Perm b.reqs := by
  have hperm := h.filterMap (b.reqs[·]?)
  rwa [show (range b.reqs.length).filterMap (b.reqs[·]?) = b.reqs from select_range b] at hperm

lemma filterBatch_perm {out : List Nat} (h : (indices ++ out).Perm (range b.reqs.length)) :
    (b.filterBatch indices).reqs.Perm (b.select indices) := by
  unfold filterBatch
  split
  · next hlen =>
    have hout : out = [] := by
      have := h.length_eq
      rw [length_append, length_range] at this
      exact eq_nil_of_length_eq_zero (by omega)
    rw [hout, append_nil] at h
    exact (select_perm h).symm
  · exact .refl _

lemma filterBatch_frame (b : ScheduleBatch) (indices : List Nat) :
    (b.filterBatch indices).mode = b.mode ∧ (b.filterBatch indices).cache = b.cache ∧
      (b.filterBatch indices).allocator = b.allocator := by
  unfold filterBatch
  split <;> exact ⟨rfl, rfl, rfl⟩

/-- The step after a retraction: the requests that are kept fit the estimate. -/
lemma Stands.nextDecode_filterBatch (h : Stands b g indices others) {out : List Nat}
    (hall : (indices ++ out).Perm (range b.reqs.length))
    (hn : b.newTokensRequiredNextDecode (b.select indices) = some n)
    (hroom : n ≤ b.allocator.availableSize) : (b.filterBatch indices).nextDecode.isSome := by
  obtain ⟨hmode, hcache, halloc⟩ := b.filterBatch_frame indices
  have hperm := filterBatch_perm hall
  refine nextDecode_isSome (g := g) (n := n) (by rw [hcache, halloc]; exact h.memory)
    (fun r hr => ?_) ?_ (by rwa [halloc])
  · obtain ⟨i, hi, hr⟩ := mem_filterMap.mp (hperm.mem_iff.mp hr)
    obtain ⟨q, hq, hrun⟩ := h.running i hi
    cases hq.symm.trans hr
    rw [hmode, hcache]
    exact hrun
  · rw [newTokensRequired_perm hperm,
      newTokensRequired_congr hmode (congrArg KvAllocator.pageSize halloc)]
    exact hn

lemma Stands.perm {indices' : List Nat} (h : Stands b g indices others)
    (hp : indices.Perm indices') : Stands b g indices' others where
  memory := h.memory.perm (((hp.filterMap (b.reqs[·]?)).map _).append_right others)
  running i hi := h.running i (hp.mem_iff.mpr hi)

/-- A page that is with the allocator or in the tree. -/
def Holds (b : ScheduleBatch) (page : Nat) : Prop :=
  page ∈ b.allocator.freePages ++ b.allocator.releasePages ∨
    ∃ n ∈ b.cache.treeNodes, ∃ s ∈ (b.cache.nodes n).value, s / b.pageSize = page

lemma Stands.holds (h : Stands b g indices others) (hkept : Kept b.cache b.allocator g page) :
    b.Holds page := by
  refine hkept.imp id fun hpage => ?_
  obtain ⟨n, hn, hpage⟩ := Multiset.mem_sum.mp hpage
  obtain ⟨hroot, hn⟩ := Finset.mem_erase.mp hn
  obtain ⟨p, hedge⟩ := h.memory.sound.wf.edge n hn hroot
  obtain ⟨s, hs, hpage⟩ :=
    mem_pageSet b.cache.pageSize_pos (h.memory.vals.value h.memory.sound.wf hn hedge) hpage
  refine ⟨n, h.memory.sound.treeNodes ▸ hn, s, hs, ?_⟩
  rw [← hpage, pageSize, h.memory.page]

/-- The end of a retraction: `keep` fits the estimate, what the requests at `gone` had was given
back. -/
lemma Stands.settled {keep gone : List Nat} (h' : Stands b' g' keep others)
    (hmoves : Moves b g b' g' keep) (hall : (keep ++ gone).Perm (range b.reqs.length))
    (hroom : ∃ n, b'.newTokensRequiredNextDecode (b'.select keep) = some n ∧
    n ≤ b'.allocator.availableSize)
    (hkept : ∀ i ∈ gone, ∀ r, b.reqs[i]? = some r → ∀ s ∈ r.slots,
    Kept b'.cache b'.allocator g' (s / b.pageSize)) :
    (b'.filterBatch keep).nextDecode.isSome ∧ (b'.filterBatch keep).reqs.Perm (b.select keep) ∧
      ∀ i ∈ gone, ∀ r, b.reqs[i]? = some r → ∀ s ∈ r.slots, (b'.filterBatch keep).Holds
      (s / (b'.filterBatch keep).pageSize) := by
  obtain ⟨n, hn, hle⟩ := hroom
  rw [← hmoves.length] at hall
  obtain ⟨-, hcache, halloc⟩ := b'.filterBatch_frame keep
  refine ⟨h'.nextDecode_filterBatch hall hn hle, ?_, fun i hi r hr s hs => ?_⟩
  · rw [show b.select keep = b'.select keep from
      filterMap_congr fun i hi => (hmoves.reqs i hi).symm]
    exact filterBatch_perm hall
  · have hholds := h'.holds (hkept i hi r hr s hs)
    rw [← hmoves.page] at hholds
    unfold Holds pageSize at hholds ⊢
    rwa [hcache, halloc]

lemma sortedIndices_perm (b : ScheduleBatch) : b.sortedIndices.Perm (range b.reqs.length) := by
  unfold sortedIndices
  split
  · exact .refl _
  · exact mergeSort_perm _ _

/-- What a retraction leaves: the next step gets its slots, every request is in one of the three
lists, the batch has those that are kept, and the slots of the others are with the allocator or in
the tree. -/
structure Retracted (b b' : ScheduleBatch) (res : Retraction) : Prop where
  next : b'.nextDecode.isSome
  parts : (res.keep ++ res.retracted ++ res.aborted).Perm (range b.reqs.length)
  kept : b'.reqs.Perm (b.select res.keep)
  returned : ∀ i ∈ res.retracted ++ res.aborted, ∀ r, b.reqs[i]? = some r →
    ∀ s ∈ r.slots, b'.Holds (s / b'.pageSize)

/-- A retraction ends wherever the settings have an estimate. -/
lemma Stands.retractDecode (now : Int) (himpl : b.Implemented) (hne : b.reqs ≠ [])
    (h : Stands b g b.sortedIndices.reverse others) :
    ∃ b' res, b.retractDecode now = some (b', res) ∧ Retracted b b' res := by
  have hall : b.sortedIndices.reverse.Perm (range b.reqs.length) :=
    (reverse_perm _).trans b.sortedIndices_perm
  have hnodup : b.sortedIndices.reverse.Nodup := hall.nodup_iff.mpr nodup_range
  have hsome : b.sortedIndices.reverse ≠ [] := by
    intro hnil
    rw [hnil] at hall
    exact hne (eq_nil_of_length_eq_zero (by simpa using hall.length_eq.symm))
  obtain ⟨b1, g1, left, out, hloop, hsplit, hleft, hstands1, hmoves1, hkept1, hroom1⟩ :=
    retractLoop_spec now true himpl hsome hnodup h []
  rw [nil_append] at hloop
  have hparts : (left.reverse ++ out).Perm (range b.reqs.length) := by
    refine List.Perm.trans ?_ hall
    rw [hsplit]
    exact ((reverse_perm left).append_right out).trans perm_append_comm
  unfold ScheduleBatch.retractDecode
  simp only [hloop, bind_eq_bind, bind_some]
  have hstands1 := hstands1.perm (reverse_perm left).symm
  have hmoves1 : Moves b g b1 g1 left.reverse :=
    { hmoves1 with reqs := fun i hi => hmoves1.reqs i (mem_reverse.mp hi) }
  by_cases hlast : left.reverse.length ≤ 1
  · rw [if_pos hlast]
    obtain ⟨b2, g2, n, hn, hcheck, hstands2, hmoves2, hreqs2⟩ :=
      hstands1.checkDecodeMem (hmoves1.implemented.mpr himpl) (some left.reverse)
    have hmoves := hmoves1.trans hmoves2 (List.Subset.refl _)
    have hkept2 : ∀ i ∈ out, ∀ r, b.reqs[i]? = some r → ∀ s ∈ r.slots,
        Kept b2.cache b2.allocator g2 (s / b.pageSize) :=
      fun i hi r hr s hs => hmoves2.frees.kept _ (hkept1 i hi r hr s hs)
    simp only [hcheck, bind_some, decide_eq_true_eq]
    by_cases henough : n ≤ b2.allocator.availableSize
    · rw [if_pos henough]
      have hroom : b2.newTokensRequiredNextDecode (b2.select left.reverse) = some n := by
        rw [newTokensRequired_congr hmoves2.mode hmoves2.page, select, hreqs2]
        exact hn
      obtain ⟨hnext, hperm, hholds⟩ := hstands2.settled hmoves hparts ⟨n, hroom, henough⟩ hkept2
      exact ⟨_, _, rfl, hnext, (append_nil _).symm ▸ hparts, hperm, (append_nil out).symm ▸ hholds⟩
    rw [if_neg henough]
    -- the last request does not fit either
    obtain ⟨idx, rfl⟩ : ∃ idx, left = [idx] := by
      cases left with
      | nil => exact absurd rfl hleft
      | cons idx rest =>
        rw [length_reverse, length_cons] at hlast
        exact ⟨idx, by rw [eq_nil_of_length_eq_zero (by omega : rest.length = 0)]⟩
    obtain ⟨b3, g3, heq3, hstands3, hmoves3, hkept3⟩ := hstands2.releaseReq not_mem_nil now 0
    have hmoves' := hmoves.trans hmoves3 (nil_subset _)
    have hparts' : (out ++ [idx]).Perm (range b.reqs.length) := perm_append_comm.trans hparts
    have hkept' : ∀ i ∈ out ++ [idx], ∀ r, b.reqs[i]? = some r → ∀ s ∈ r.slots,
        Kept b3.cache b3.allocator g3 (s / b.pageSize) := by
      intro i hi r hr s hs
      rcases mem_append.mp hi with hi | hi
      · exact hmoves3.frees.kept _ (hkept2 i hi r hr s hs)
      · obtain rfl := mem_singleton.mp hi
        have := hkept3 r ((hmoves.reqs i mem_cons_self).trans hr) s hs
        rwa [hmoves.page] at this
    obtain ⟨hnext, hperm, hholds⟩ := hstands3.settled hmoves' hparts'
      (newTokensRequired_nil (hmoves'.implemented.mpr himpl)) hkept'
    exact ⟨b3.filterBatch [], ⟨[], out, [idx]⟩, by simp [heq3], hnext, hparts', hperm, hholds⟩
  · rw [if_neg hlast]
    have hroom := hroom1.resolve_left (by rwa [length_reverse] at hlast)
    obtain ⟨hnext, hperm, hholds⟩ := hstands1.settled hmoves1 hparts hroom hkept1
    exact ⟨_, _, rfl, hnext, (append_nil _).symm ▸ hparts, hperm, (append_nil out).symm ▸ hholds⟩

end Retract

/-! ### Exact batches -/

/-- A running batch in an exact state: the allocator, the tree and the requests, those of the batch
and the others, own every page once, and the lengths of the requests are right. -/
structure Exact (size : Nat) (others : List Req) (g : Shape) (b : ScheduleBatch) : Prop where
  pool : Pool size b.cache b.allocator g ((b.reqs ++ others).map (·.lastNode))
    (Server.ownPages b.cache.pageSize (b.reqs ++ others))
  ready : b.allocator.Ready
  running : ∀ r ∈ b.reqs, Running b.mode b.cache g r

lemma Exact.stands {size : Nat} {others : List Req} (h : Exact size others g b) {indices : List Nat}
    (hall : indices.Perm (range b.reqs.length)) : Stands b g indices (others.map (·.lastNode)) := by
  have hmemory : Memory b.cache b.allocator g ((b.reqs ++ others).map (·.lastNode)) :=
    ⟨h.pool.sound, h.pool.vals, h.pool.page, h.ready⟩
  rw [map_append] at hmemory
  refine ⟨hmemory.perm (((select_perm hall).symm.map _).append_right _), fun i hi => ?_⟩
  have hlt := mem_range.mp (hall.mem_iff.mp hi)
  exact ⟨_, getElem?_eq_getElem hlt, h.running _ (getElem_mem hlt)⟩

/-- A server between its steps, decoding without overlapped speculation, is in such a state. -/
lemma Exact.of_inv {size : Nat} {params : CacheInitParams} {s : Server}
    (hi : Server.Inv size params s g) {batch others : List Req}
    (hreqs : s.reqs.Perm (batch ++ others)) (hready : s.allocator.Ready)
    (hknown : ∀ r ∈ batch, r.row ≠ none ∧ r.kvCommittedLen ≤ r.tokens.length)
    (mode : DecodeMode) (strip : Bool) (steps : Nat) :
    Exact size others g ⟨mode, strip, steps, s.cache, s.allocator, batch⟩ := by
  obtain ⟨-, hpool, hplaced⟩ := hi.perm hreqs
  refine ⟨hpool, hready, fun r hr => ?_⟩
  have hr' := hplaced r (mem_append_left _ hr)
  obtain ⟨hrow, hlen⟩ := hknown r hr
  obtain ⟨row, hrow⟩ := ne_none_iff_exists'.mp hrow
  obtain ⟨hcommitted, halloc, -⟩ := hr'.row row hrow
  exact ⟨hr'.mem, hr'.length, hr'.vals, hr'.paged, ⟨row, hrow, hcommitted.trans halloc.symm⟩,
    halloc.ge, hlen,
    halloc.le.trans (Nat.le_add_right _ _)⟩

/-- **The decode memory check is sufficient.** A batch for which `check_decode_mem` answers yes gets
all the slots of its next decode step, and so does what `retract_decode` leaves; it returns wherever
the settings have an estimate. -/
theorem decode_mem_sufficient {size : Nat} {others : List Req} (h : Exact size others g b)
    (now : Int) :
    (∀ b', b.checkDecodeMem none = some (b', true) → b'.nextDecode.isSome) ∧
    (∀ b' res, b.retractDecode now = some (b', res) → Retracted b b' res) ∧
    (b.reqs ≠ [] → ((b.retractDecode now).isSome ↔ b.Implemented)) := by
  have hperm := (reverse_perm _).trans b.sortedIndices_perm
  have hstands := h.stands hperm
  refine ⟨fun b' hcheck => ?_, fun b' res hret => ?_, fun hne => ⟨fun hsome => ?_, fun himpl => ?_⟩⟩
  · obtain ⟨b1, g1, n, hn, hcheck1, hstands1, hmoves1, hreqs1⟩ :=
      (h.stands (.refl _)).checkDecodeMem (implemented_of_checkDecodeMem hcheck) none
    obtain ⟨rfl, henough⟩ := Prod.mk.inj (some.inj (hcheck1.symm.trans hcheck))
    refine nextDecode_isSome hstands1.memory (fun r hr => ?_) ?_ (of_decide_eq_true henough)
    · obtain ⟨i, hi, rfl⟩ := mem_iff_getElem.mp hr
      obtain ⟨q, hq, hrun⟩ := hstands1.running i (mem_range.mpr (hreqs1 ▸ hi))
      rwa [some.inj ((getElem?_eq_getElem hi).symm.trans hq)]
    · rw [newTokensRequired_congr hmoves1.mode hmoves1.page, hreqs1]
      exact hn
  · have himpl := hstands.implemented_of_retractDecode (hperm.nodup_iff.mpr nodup_range) hret
    have hne : b.reqs ≠ [] := by
      intro hnil
      have hempty : b.sortedIndices.reverse = [] :=
        eq_nil_of_length_eq_zero (by simpa [hnil] using hperm.length_eq)
      rw [retractDecode, hempty] at hret
      cases hret
    obtain ⟨b1, res1, heq, hleft⟩ := hstands.retractDecode now himpl hne
    cases heq.symm.trans hret
    exact hleft
  · obtain ⟨result, hret⟩ := isSome_iff_exists.mp hsome
    exact hstands.implemented_of_retractDecode (hperm.nodup_iff.mpr nodup_range) hret
  · obtain ⟨b1, res1, heq, -⟩ := hstands.retractDecode now himpl hne
    exact isSome_of_mem heq

/-- Two prompts fill the pool of four slots: one request is retracted, and the other gets its draft
and verify slots. -/
theorem decode_mem_sufficient_two_prompts : ∃ b g b' res, Exact 4 [] g b ∧ b.reqs.length = 2 ∧
    b.retractDecode 3 = some (b', res) ∧ res.keep.length = 1 ∧ Retracted b b' res := by
  let start := Server.create {} {pageSize := 1, pageSize_pos := by decide} 4 false 0
  have hrun : (do
      let r ← Req.initNextRoundInput {originInputIds := [5, 6]} 1 start.cache
      let rLocked ← r.1.incLockRef r.2.lastNode
      let q ← Req.initNextRoundInput {originInputIds := [7, 8]} 2 rLocked.1
      let qLocked ← q.1.incLockRef q.2.lastNode
      let batch := [(q.2, 2), (r.2, 2)]
      let alloc ← allocForExtend qLocked.1 start.allocator (batch.map fun p => p.1.truncateTo p.2)
      let reqs := zipWith Req.extended (batch.map fun p => p.1.truncateTo p.2) alloc.2.2
      let out ← ScheduleBatch.retractDecode ⟨.eagle ⟨1, 1, 2, Nat.one_pos⟩,
        false, 20, alloc.1, alloc.2.1, reqs⟩ 3
      guard ((∀ p ∈ batch, p.1.CanExtend p.2) ∧ alloc.2.1.isNotInFreeGroup = true ∧
        alloc.2.1.releasePages = [] ∧ reqs.length = 2 ∧
        (∀ r ∈ reqs, r.row ≠ none ∧ r.kvCommittedLen ≤ r.tokens.length) ∧
        out.2.keep.length = 1)) = some () := by
    decide +kernel
  simp only [bind_eq_bind, bind_eq_some_iff, Prod.exists] at hrun
  obtain ⟨c1, r, h1, c2, d2, h2, c3, q, h3, c4, d4, h4, c5, a, outs, h5, b', res, hret, hguard⟩ :=
    hrun
  obtain ⟨hcan, hclosed, hsorted, htwo, hknown, hone⟩ := (guard_eq_some' _).mp hguard
  obtain ⟨g, hi⟩ := Server.inv_create {} {pageSize := 1, pageSize_pos := by decide} 4 false 0
  obtain ⟨g1, hi1⟩ := (Server.Step.addOneReq rfl rfl h1 h2).inv hi
  obtain ⟨g2, hi2⟩ := (Server.Step.addOneReq rfl rfl h3 h4).inv hi1
  obtain ⟨g3, hi3⟩ := (@Server.Step.extend _ _ [] _ _ _ rfl (.refl _) hcan h5).inv hi2
  have hexact :=
    Exact.of_inv hi3 (.refl _) ⟨hclosed, fun _ => hsorted⟩ hknown
    (.eagle ⟨1, 1, 2, Nat.one_pos⟩) false 20
  exact ⟨_, g3, b', res, hexact, htwo, hret, hone, (decode_mem_sufficient hexact 3).2.1 b' res hret⟩

end ScheduleBatch

end Sglang.Managers
