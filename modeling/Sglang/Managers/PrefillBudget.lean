import Mathlib.Tactic.Linarith
import Mathlib.Tactic.Positivity
import Sglang.Managers.KvOwnership
import Sglang.Managers.PrefillAdder

/-! Admission never over-commits.

Each admission is charged its page-rounded length and one page more, so the offsets stay above what
was admitted. A request is compared with what is left after its prefix is locked, and a later lock
of another prefix is followed by another comparison. So what was admitted fits into the slots that
are free or evictable, and `alloc_for_extend`, which evicts what it needs, finds room. -/
namespace Sglang.Managers

open List Option
open MemCache Prefix Pages
open KvAllocator RadixCache AdderParams CacheInitParams

open Dllm (AddReqResult)

/-! ### Room in the pool -/

lemma sum_ceil_le {page : Nat} (hp : 0 < page) (ns : List Nat) :
    (ns.map (ceil page)).sum ≤ ns.sum + ns.length * page := by
  induction ns with
  | nil => simp
  | cons n ns ih =>
    have := count_mul_lt hp n
    rw [map_cons, sum_cons, sum_cons, length_cons, Nat.succ_mul, ceil_eq]
    omega

/-- Pages are released to the free list at once, or are sorted in when they are needed. -/
structure Settled (a : KvAllocator) : Prop where
  isNotInFreeGroup : a.isNotInFreeGroup = true
  releasePages : a.needSort = false → a.releasePages = []

variable {size : Nat} {c c' : RadixCache} {a a' : KvAllocator} {g g' : Shape} {locks : List NodeId}
  {owned : Multiset Nat} {req : PrefillReq}

namespace Settled

lemma iff_ready : Settled a ↔ a.Ready := ⟨fun h => ⟨h.1, h.2⟩, fun h => ⟨h.1, h.2⟩⟩

lemma free (h : Settled a) (l : List Slot) : Settled (a.free l) :=
  iff_ready.mpr ((iff_ready.mp h).free l).1

lemma freeAll (h : Settled a) (freed : List (List Slot)) : Settled (freed.foldl .free a) := by
  induction freed generalizing a with
  | nil => exact h
  | cons l freed ih => exact ih (h.free l)

lemma alloc_isSome (h : Settled a) {needSize : Nat} (hroom : needSize ≤ a.availableSize) :
    (a.alloc needSize).isSome := by
  rw [availableSize_eq, mul_comm] at hroom
  exact (iff_ready.mp h).alloc_isSome (Nat.div_le_of_le_mul hroom)

lemma allocExtend_isSome (h : Settled a) {args : List ExtendArgs} {n : Nat} (hp : 0 < a.pageSize)
    (hn : n = (args.map fun r => r.seqLen - r.preLen).sum)
    (hroom : (args.map fun r => ceil a.pageSize (r.seqLen - r.preLen)).sum ≤ a.availableSize) :
    (a.allocExtend args n).isSome := by
  rw [availableSize_eq] at hroom
  refine (iff_ready.mp h).allocExtend_isSome hp hn
    (Nat.le_of_mul_le_mul_right (le_trans ?_ hroom) hp)
  rw [numNewPages, ← sum_map_mul_right]
  exact sum_le_sum fun r _ => Nat.mul_le_mul_right _ (count_sub_le hp _ _)

end Settled

namespace Pool

section
variable (h : Pool size c a g locks owned)
include h

/-- Free, evictable, protected and privately owned slots make up the pool. -/
lemma sizes (hopen : a.isNotInFreeGroup = true) :
    availableAndEvictable c a + c.protectedSize + (owned.card * c.pageSize : Nat) =
    (size / c.pageSize * c.pageSize : Nat) := by
  have hcard := congrArg Multiset.card h.pages
  have hcache := h.sound.sizes
  simp only [Multiset.card_add, holdings, pending, hopen, if_true, poolPages,
    Multiset.coe_card, length_map, length_range, add_zero] at hcard
  rw [availableAndEvictable, availableSize, h.page, ← hcard]
  push_cast at hcache ⊢
  linarith

/-- Eviction makes the room it is asked for, or all there can be. -/
lemma evictFromTreeCache_room (hs : Settled a) (numTokens : Nat) :
    ∃ c' a' g', Managers.evictFromTreeCache c a numTokens = some (c', a') ∧
    Pool size c' a' g' locks owned ∧
      Settled a' ∧ c'.toCacheInitParams = c.toCacheInitParams ∧
      (numTokens ≤ a'.availableSize ∨ availableAndEvictable c a ≤ a'.availableSize) := by
  unfold Managers.evictFromTreeCache
  split
  · obtain ⟨c', n, freed, g', heq, h', hk⟩ := h.evict numTokens
    obtain ⟨g'', hs'', he⟩ := h.sound.evict heq
    have hfreed := hs.freeAll freed
    obtain ⟨hevict, hprot⟩ := he.sizes h.sound.wf
    have hsizes := h.sizes hs.isNotInFreeGroup
    have hsizes' := h'.sizes hfreed.isNotInFreeGroup
    obtain ⟨_, _, _, heq', -⟩ := evict_spec numTokens h.sound.wf h.sound.books.leafSound
    cases heq'.symm.trans heq
    refine ⟨c', _, g', by rw [heq]; rfl, h', hfreed, hk.params, ?_⟩
    rw [pageSize_of_params hk.params, hprot] at hsizes'
    have hsame : availableAndEvictable c' (freed.foldl .free a) = availableAndEvictable c a := by
      linarith
    unfold availableAndEvictable at hsame ⊢
    rcases h.sound.evict_exhausts heq with hle | hzero
    · exact .inl (by omega)
    · exact .inr (by omega)
  · next hroom => exact ⟨c, a, g, rfl, h, hs, rfl, .inl (Nat.le_of_not_lt hroom)⟩

/-- **Extend lengths that fit when rounded up to pages can be allocated.** -/
theorem allocForExtend_isSome (hs : Settled a) {batch : List Req}
    (hroom : ((batch.map fun r => ceil c.pageSize (r.fillIds.length - r.prefixIndices.length)).sum : Int) ≤
      availableAndEvictable c a) : (allocForExtend c a batch).isSome := by
  unfold allocForExtend
  by_cases hone : c.pageSize = 1
  · obtain ⟨c', a', g', heq, h', hs', hparams, hle⟩ :=
      h.evictFromTreeCache_room hs
        (batch.map fun r => r.fillIds.length - r.prefixIndices.length).sum
    simp only [hone, ceil_one] at hroom
    obtain ⟨out, hout⟩ := isSome_iff_exists.mp (hs'.alloc_isSome (by omega :
      (batch.map fun r => r.fillIds.length - r.prefixIndices.length).sum ≤ a'.availableSize))
    rw [if_pos hone, heq]
    simp [hout]
  · obtain ⟨c', a', g', heq, h', hs', hparams, hle⟩ := h.evictFromTreeCache_room hs
      ((batch.map fun r => r.fillIds.length - r.prefixIndices.length).sum +
        batch.length * a.pageSize)
    have hpage : a'.pageSize = c.pageSize := h'.page.trans (pageSize_of_params hparams)
    have hceil :=
      sum_ceil_le c.pageSize_pos (batch.map fun r => r.fillIds.length - r.prefixIndices.length)
    have hext :
      (a'.allocExtend (batch.map fun r => ⟨r.prefixIndices.length, r.fillIds.length,
      lastLoc r.prefixIndices⟩)
        (batch.map fun r => r.fillIds.length - r.prefixIndices.length).sum).isSome := by
      refine hs'.allocExtend_isSome h'.page_pos (by rw [List.map_map]; rfl) ?_
      rw [List.map_map, hpage]
      rw [List.map_map, List.length_map, ← h.page] at hceil
      simp only [Function.comp_def, h.page] at hceil ⊢
      rw [h.page] at hle
      omega
    obtain ⟨out, hout⟩ := isSome_iff_exists.mp hext
    rw [if_neg hone, heq]
    simp [hout]

lemma lookup_evictableSize {now : Int} {key : RadixKey} {r : MatchResult}
    (heq : c.matchPrefix now key = some (c', r)) :
    c'.evictableSize = c.evictableSize ∧ (c.disable = true → r.deviceIndices = []) := by
  by_cases hdis : c.disable = true
  · rw [matchPrefix_off now key hdis] at heq
    cases heq
    exact ⟨rfl, fun _ => rfl⟩
  · obtain ⟨c'', r', g', len, heq', hm⟩ := matchPrefix_spec now key h.sound.wf (by simpa using hdis)
    rw [heq] at heq'
    cases heq'
    exact ⟨hm.reshape.evictableSize, fun hd => absurd hd hdis⟩

lemma tree_incLockRef {n : NodeId} {d : Int} (hn : n ∈ g.live)
    (heq : c.incLockRef n = some (c', d)) : c'.tree = c.tree := by
  obtain ⟨_, _, heq', _, htree, _⟩ := h.sound.exists_lock hn
  cases heq.symm.trans heq'
  exact htree

end

lemma tree_decLockRef {n : NodeId} {d : Int} (h : Pool size c a g (n :: locks) owned)
    (heq : c.decLockRef n = some (c', d)) :
    c'.tree = c.tree := by
  obtain ⟨_, _, heq', _, htree, _⟩ := h.sound.exists_unlock
  cases heq.symm.trans heq'
  exact htree

end Pool

lemma Pool.initNextRoundInput (h : Pool size c a g locks owned) (r : PrefillReq) (now : Int) :
    ∃ c' r' g', r.initNextRoundInput now c = some (c', r') ∧ Pool size c' a g' locks owned ∧
      c'.toCacheInitParams = c.toCacheInitParams ∧ c'.evictableSize = c.evictableSize ∧
      r'.lastNode ∈ g'.live ∧
      r'.extendInputLen = r'.fillIds.length - r'.prefixIndices.length ∧
      (c.disable = true → r'.prefixIndices = []) := by
  unfold PrefillReq.initNextRoundInput Req.initNextRoundInput
  dsimp only
  generalize (if r.positionalEmbedOverrides.isSome = true then
    [] else r.tokens.take r.maxPrefixLen) = ts
  obtain ⟨c', m, g', heq, h', hk, _, hfound⟩ :=
    h.lookup now {tokenIds := ts, extraKey := r.extraKey}
  obtain ⟨hsize, hoff⟩ := h.lookup_evictableSize heq
  exact ⟨c', _, g', by rw [heq]; rfl, h', hk.params, hsize, hfound.mem, rfl, hoff⟩

/-! ### The offsets -/

lemma ceilPagedTokens_natCast {self : PrefillAdder} (hp : 0 < self.pageSize) (n : Nat) :
    self.ceilPagedTokens n = (ceil self.pageSize n : Nat) := by
  have hge := le_count_mul hp n
  have hlt := count_mul_lt hp n
  have hdiv : -(n : Int) / self.pageSize = -(count self.pageSize n : Nat) := by
    refine ((Int.ediv_emod_unique (r := (count self.pageSize n * self.pageSize : Nat) - (n : Int))
      (by omega)).mpr ?_).1
    refine ⟨?_, by omega, by omega⟩
    push_cast
    ring
  rw [PrefillAdder.ceilPagedTokens, hdiv, neg_neg, ceil_eq]
  rfl

namespace PrefillAdder
variable {p : PrefillAdder}

/-- The offsets are above what was admitted, with a page for each request. -/
structure Charged (p : PrefillAdder) : Prop where
  page_pos : 0 < p.pageSize
  lens : ∀ r ∈ p.canRunList, r.extendInputLen = r.fillIds.length - r.prefixIndices.length
  total : ((p.pagedExtendLens + p.canRunList.length * p.pageSize : Int) : ℚ) ≤ p.remTotalTokenOffset
  cur : ((p.pagedExtendLens + p.canRunList.length * p.pageSize : Int) : ℚ) ≤ p.curRemTokenOffset
  states : ∀ s ∈ p.reqStates.getD [], 0 < s.1

lemma pagedExtendLens_append (r : PrefillReq) (q : Option PrefillReq) (prefixLen : Nat)
    (ext : Int) (maxNew : Nat) :
    ({p with canRunList := p.canRunList ++ [r], newChunkedReq := q}.updatePrefillBudget prefixLen ext
      maxNew).pagedExtendLens = p.pagedExtendLens + p.ceilPagedTokens r.extendInputLen := by
  show ((p.canRunList ++ [r]).map fun r => p.ceilPagedTokens r.extendInputLen).sum = _
  rw [map_append, sum_append, map_singleton, sum_singleton]
  rfl

variable {r : PrefillReq}

lemma Charged.append (h : Charged p) {q : Option PrefillReq} {prefixLen maxNew : Nat} {ext : Int}
    (hlen : r.extendInputLen = r.fillIds.length - r.prefixIndices.length)
    (hext : p.ceilPagedTokens ext = p.ceilPagedTokens r.extendInputLen) :
    Charged
    ({p with canRunList := p.canRunList ++ [r], newChunkedReq := q}.updatePrefillBudget prefixLen ext maxNew) := by
  refine ⟨h.page_pos, ?_, ?_, ?_, h.states⟩
  · intro x hx
    rcases mem_append.mp hx with hx | hx
    · exact h.lens x hx
    · rw [mem_singleton.mp hx]
      exact hlen
  · have htotal := h.total
    rw [pagedExtendLens_append]
    show (((_ + _) + ((p.canRunList ++ [r]).length : Int) * (p.pageSize : Int) : Int) : ℚ) ≤
      p.remTotalTokenOffset + ((p.ceilPagedTokens ext : Int) + maxNew + p.pageSize)
    rw [hext]
    push_cast [length_append, length_singleton] at htotal ⊢
    linarith
  · have hcur := h.cur
    rw [pagedExtendLens_append]
    show (((_ + _) + ((p.canRunList ++ [r]).length : Int) * (p.pageSize : Int) : Int) : ℚ) ≤
      p.curRemTokenOffset + ((p.ceilPagedTokens ext : Int) + p.pageSize)
    rw [hext]
    push_cast [length_append, length_singleton] at hcur ⊢
    linarith

/-- What was admitted fits; only a request that ignores the end of the text and has nothing left to
produce may fill the pool to the last slot, and only without a prefix cache. -/
def Fits (p : PrefillAdder) (c : RadixCache) (a : KvAllocator) : Prop :=
  p.pagedExtendLens ≤ availableAndEvictable c a ∧
    ((c.disable = false ∨ ∀ r ∈ p.canRunList, r.ignoreEos = true →
    r.outputIds.length < r.maxNewTokens) →
      p.pagedExtendLens < availableAndEvictable c a)

lemma Charged.fits_append (h : Charged p) {q : Option PrefillReq}
    {prefixLen maxNew : Nat} {ext : Int}
    (hle : p.ceilPagedTokens r.extendInputLen ≤ p.remTotalTokens c a)
    (hlt : (c.disable = false ∨ (r.ignoreEos = true → r.outputIds.length < r.maxNewTokens)) →
      p.ceilPagedTokens r.extendInputLen < p.remTotalTokens c a ∨
      p.ceilPagedTokens r.extendInputLen < p.curRemTokens c a) :
    ({p with canRunList := p.canRunList ++ [r], newChunkedReq := q}.updatePrefillBudget prefixLen ext maxNew).Fits c a := by
  have hpages : (0 : ℚ) ≤ p.canRunList.length * p.pageSize := by positivity
  have htotal := h.total
  have hcur := h.cur
  push_cast at htotal hcur
  unfold remTotalTokens at hle hlt
  unfold curRemTokens at hlt
  unfold Fits
  rw [pagedExtendLens_append]
  refine ⟨?_, fun hleft => ?_⟩
  · rw [← Int.cast_le (R := ℚ)]
    push_cast
    linarith
  · rw [← Int.cast_lt (R := ℚ)]
    push_cast
    rcases hlt
      (hleft.imp_right fun hall => hall r
      (mem_append_right _ (mem_singleton.mpr rfl))) with hlt | hlt
    all_goals linarith

/-! ### Requests that ignore the end of the text -/

lemma reqState_pos {s : ℚ × Nat} (hs : p.reqState r = some s) : 0 < s.1 := by
  unfold reqState at hs
  generalize (if r.ignoreEos = true then (1 : ℚ) else p.newTokenRatio) = ratio at hs
  dsimp only at hs
  split at hs
  · cases hs
  · next hpos =>
    cases hs
    exact lt_of_not_ge hpos

variable {states : List (ℚ × Nat)}

lemma addReqState_pos (h : Charged p) (req : PrefillReq) : ∀ s ∈ p.addReqState req, 0 < s.1 := by
  intro s hs
  have hstates := h.states
  unfold addReqState at hs
  cases hp : p.reqStates with
  | none =>
    simp only [hp, mem_mergeSort, mem_filterMap] at hs
    obtain ⟨r, _, hr⟩ := hs
    exact reqState_pos hr
  | some states =>
    rw [hp] at hs hstates
    cases hr : p.reqState req with
    | none =>
      simp only [hr, Option.elim] at hs
      exact hstates s hs
    | some t =>
      simp only [hr, Option.elim] at hs
      rcases eq_or_mem_of_mem_insertIdx hs with rfl | hs
      · exact reqState_pos hr
      · exact hstates s hs

lemma addReqState_ne_nil (hsome : (p.reqState req).isSome) : p.addReqState req ≠ [] := by
  obtain ⟨t, ht⟩ := isSome_iff_exists.mp hsome
  unfold addReqState
  cases hp : p.reqStates with
  | none =>
    refine ne_nil_of_mem (a := t) ?_
    simp only [mem_mergeSort, mem_filterMap]
    exact ⟨req, by simp, ht⟩
  | some states =>
    simp only [ht, Option.elim]
    unfold insertState
    refine ne_nil_of_mem (a := t) ((mem_insertIdx ?_).mpr (.inl rfl))
    cases hi : states.findIdx? (t.1 ≤ ·.1) with
    | none => exact Nat.sub_le _ _
    | some i => exact (findIdx?_eq_some_iff_getElem.mp hi).1.le

/-- With a request that has tokens left, something is left over. -/
lemma lt_of_not_runsOut {cur : ℚ} (hne : states ≠ []) (hpos : ∀ s ∈ states, 0 < s.1)
    (hruns : runsOut cur states 0 = false) : 0 < cur := by
  obtain ⟨⟨left, occupied⟩, rest, rfl⟩ := exists_cons_of_ne_nil hne
  have hleft : 0 < left := hpos _ mem_cons_self
  rw [runsOut, Bool.or_eq_false_iff, decide_eq_false_iff_not, not_le] at hruns
  have hfree := hruns.1
  have hmul : 0 ≤ left * (rest.length + 1 : Nat) := by positivity
  have hbs : (0 : ℚ) ≤ ignoreEosReserveTokens * (rest.length + 1 : Nat) := by positivity
  rw [Nat.cast_zero, add_zero] at hfree
  linarith

lemma addOneReqIgnoreEos_spec (h : Charged p)
    (hfits : p.canRunList ≠ [] → p.Fits c a) (hdis : c.disable = true)
    (hignore : req.ignoreEos = true)
    (hlen : req.extendInputLen = req.fillIds.length - req.prefixIndices.length)
    (hpre : req.prefixIndices = []) :
    Charged (p.addOneReqIgnoreEos c a req).1 ∧
      ((p.addOneReqIgnoreEos c a req).1.canRunList ≠ [] →
      (p.addOneReqIgnoreEos c a req).1.Fits c a) ∧
      (p.addOneReqIgnoreEos c a req).1.pageSize = p.pageSize := by
  unfold addOneReqIgnoreEos
  dsimp only
  split
  · exact ⟨h, hfits, rfl⟩
  next hinput =>
  have hstates := addReqState_pos h req
  generalize hst : p.addReqState req = states at hstates
  have h' : Charged {p with reqStates := some states} := { h with states := hstates }
  split
  · exact ⟨h', hfits, rfl⟩
  next hruns =>
  have hle : p.ceilPagedTokens req.extendInputLen ≤ p.remTotalTokens c a :=
    (not_lt.mp hinput).trans (min_le_right _ _)
  have hlt (hleft : req.outputIds.length < req.maxNewTokens) :
      p.ceilPagedTokens req.extendInputLen < p.curRemTokens c a := by
    have hsome : (p.reqState req).isSome := by simp [reqState, hignore, hleft]
    have hne := hst ▸ addReqState_ne_nil hsome
    have hpos := lt_of_not_runsOut hne hstates (by simpa using hruns)
    exact sub_pos.mp hpos
  split
  · refine ⟨h'.append hlen rfl, fun _ => h'.fits_append hle fun hleft => .inr (hlt ?_), rfl⟩
    exact hleft.elim (fun hon => by rw [hdis] at hon; cases hon) fun hleft => hleft hignore
  rename_i truncLen htrunc
  obtain ⟨hrem, hshort⟩ := filter_eq_some_iff.mp htrunc
  have hshort : truncLen < req.extendInputLen := by simpa using hshort
  split
  · exact ⟨h', hfits, rfl⟩
  next hpos =>
  -- the chunk is shorter, also when it is rounded up
  obtain ⟨n, rfl⟩ := Int.eq_ofNat_of_zero_le (not_le.mp hpos).le
  have hmono : p.ceilPagedTokens n ≤ p.ceilPagedTokens req.extendInputLen := by
    rw [ceilPagedTokens_natCast h.page_pos, ceilPagedTokens_natCast h.page_pos]
    exact_mod_cast Nat.mul_le_mul_right _ (count_mono h.page_pos (by omega))
  have hmono : ((p.ceilPagedTokens n : Int) : ℚ) ≤ p.ceilPagedTokens req.extendInputLen :=
    Int.cast_le.mpr hmono
  refine ⟨h'.append ?_ rfl, fun _ => h'.fits_append (hmono.trans hle)
    fun hleft => .inr (hmono.trans_lt (hlt ?_)), rfl⟩
  · show n = (req.fillIds.take n).length - req.prefixIndices.length
    rw [hpre, length_nil] at hlen ⊢
    rw [length_take]
    omega
  · exact hleft.elim (fun hon => by rw [hdis] at hon; cases hon) fun hleft => hleft hignore

/-! ### Other requests -/

lemma chunkLen_spec (hp : 0 < p.pageSize) {ext : Nat} {rem truncLen : Int} {align : Option ℕ+}
    (hrem : rem < p.ceilPagedTokens ext) (hchunk : p.chunkLen rem align = some truncLen) :
    0 ≤ truncLen ∧ truncLen < ext := by
  have hwhole : 0 < rem / p.pageSize * p.pageSize →
      rem / p.pageSize * p.pageSize < (ext : Int) := by
    intro hpos
    have hk : 0 ≤ rem / p.pageSize := by
      by_contra hneg
      nlinarith
    obtain ⟨k, hk⟩ := Int.eq_ofNat_of_zero_le hk
    have hle := Int.ediv_mul_le rem (Int.natCast_ne_zero.mpr hp.ne')
    rw [ceilPagedTokens_natCast hp] at hrem
    rw [hk] at hle ⊢
    have hlt : k * p.pageSize < count p.pageSize ext * p.pageSize := by
      rw [ceil_eq] at hrem
      zify
      push_cast at hrem
      linarith
    have hlt := Nat.lt_of_mul_lt_mul_right hlt
    have := (count_le hp).not.mp (not_le.mpr hlt)
    zify at this
    linarith
  unfold chunkLen at hchunk
  dsimp only at hchunk
  split at hchunk
  · cases hchunk
  rename_i hpos
  have hpos := not_le.mp hpos
  have hlt := hwhole hpos
  generalize rem / p.pageSize * p.pageSize = whole at hchunk hpos hlt
  cases align with
  | none =>
    cases hchunk
    exact ⟨hpos.le, hlt⟩
  | some align =>
    dsimp only at hchunk
    split at hchunk
    · cases hchunk
    · cases hchunk
      have halign : (0 : Int) < align := by exact_mod_cast align.pos
      have hle := Int.mul_ediv_self_le (x := whole) halign.ne'
      exact ⟨mul_nonneg halign.le (Int.ediv_nonneg hpos.le halign.le), by omega⟩

section
variable {totalTokens : Nat} {align : Option ℕ+}

/-- The body of the `with` statement: the request is turned away and nothing changes, or it is
admitted, fits, and has a lock of its own. -/
lemma addLocked_spec (h : Charged p) (hpool : Pool size c a g locks owned)
    (hnode : req.lastNode ∈ g.live)
    (hlen : req.extendInputLen = req.fillIds.length - req.prefixIndices.length)
    (htotal : req.extendInputLen + p.pageSize ≤ totalTokens) :
    (∃ result, p.addLocked c a req totalTokens align = some (c, p, some result)) ∨
    ∃ c' d p', c.incLockRef req.lastNode = some (c', d) ∧
      p.addLocked c a req totalTokens align = some (c', p', none) ∧ Charged p' ∧ p'.Fits c a ∧
      p'.pageSize = p.pageSize := by
  obtain ⟨c', d, hlock, _⟩ := hpool.lock hnode
  unfold addLocked
  dsimp only
  split
  · exact .inl ⟨_, rfl⟩
  next hroom =>
  split
  · exact .inl ⟨_, rfl⟩
  -- the page that is kept back covers the rounding
  have hlt : (p.ceilPagedTokens req.extendInputLen : ℚ) < p.remTotalTokens c a := by
    have hceil := count_mul_lt h.page_pos req.extendInputLen
    rw [ceilPagedTokens_natCast h.page_pos, ceil_eq]
    refine lt_of_le_of_lt ?_ (not_le.mp hroom)
    exact_mod_cast hceil.le.trans htotal
  split
  · refine .inr ⟨c', d, _, hlock,
      by rw [hlock]; rfl, h.append hlen ?_, h.fits_append hlt.le fun _ => .inl hlt, rfl⟩
    rw [ceilPagedTokens_natCast h.page_pos, ceilPagedTokens_natCast h.page_pos,
      ceil_eq, ceil_eq, count_mul h.page_pos]
  rename_i rem hfilter
  obtain ⟨_, hshort⟩ := filter_eq_some_iff.mp hfilter
  cases hchunk : p.chunkLen rem align with
  | none => exact .inl ⟨_, rfl⟩
  | some truncLen =>
    obtain ⟨hpos, hcut⟩ := chunkLen_spec h.page_pos (by simpa using hshort) hchunk
    obtain ⟨n, rfl⟩ := Int.eq_ofNat_of_zero_le hpos
    have hmono : (p.ceilPagedTokens n : ℚ) ≤ p.ceilPagedTokens req.extendInputLen := by
      rw [ceilPagedTokens_natCast h.page_pos, ceilPagedTokens_natCast h.page_pos]
      exact_mod_cast Nat.mul_le_mul_right _ (count_mono h.page_pos (by omega))
    have hfit := hmono.trans_lt hlt
    refine .inr ⟨c', d, _, hlock, by simp only [PrefillReq.truncate, hlock]; rfl,
      h.append (r := req.truncate n) ?_ rfl, h.fits_append hfit.le fun _ => .inl hfit, rfl⟩
    show n = (req.fillIds.take (req.prefixIndices.length + n)).length - req.prefixIndices.length
    rw [length_take]
    omega

/-- What holds between the calls of a pass. -/
structure Between (size : Nat) (owned : Multiset Nat) (a : KvAllocator) (params : CacheInitParams)
    (s : RadixCache × PrefillAdder) : Prop where
  pool : ∃ g locks, Pool size s.1 a g locks owned
  params : s.1.toCacheInitParams = params
  page : s.2.pageSize = s.1.pageSize
  charged : Charged s.2
  fits : s.2.canRunList ≠ [] → s.2.Fits s.1 a

lemma Fits.congr (h : p.Fits c a) (hsize : c'.evictableSize = c.evictableSize)
    (hparams : c'.toCacheInitParams = c.toCacheInitParams) : p.Fits c' a := by
  have hdis : c'.disable = c.disable := congrArg disable hparams
  unfold Fits availableAndEvictable at h ⊢
  rwa [hsize, hdis]

variable {params : CacheInitParams}

/-- **One call keeps what is admitted within what is free or evictable.** -/
theorem Between.addOneReq (h : Between size owned a params (c, p))
    (hpool : Pool size c a g locks owned) (hnode : req.lastNode ∈ g.live)
    (hlen : req.extendInputLen = req.fillIds.length - req.prefixIndices.length)
    (hoff : c.disable = true → req.prefixIndices = []) (allowPrefill : Bool) (align : Option ℕ+) :
    ∃ c' p' result, p.addOneReq c a req allowPrefill align = some (c', p', result) ∧
    Between size owned a params (c', p') := by
  have hrefused (result : AddReqResult) :
    ∃ c' p' result', some (c, p, result) = some (c', p', result') ∧
      Between size owned a params (c', p') := ⟨c, p, result, rfl, h⟩
  unfold PrefillAdder.addOneReq
  split
  · exact hrefused _
  split
  · exact hrefused _
  split
  · exact hrefused _
  split
  · next hignore =>
    obtain ⟨hignore, hdis⟩ := Bool.and_eq_true_iff.mp hignore
    obtain ⟨hcharged, hfits, hpage⟩ :=
      addOneReqIgnoreEos_spec h.charged h.fits hdis hignore hlen (hoff hdis)
    exact ⟨c, _, _, rfl, h.pool, h.params, hpage.trans h.page, hcharged, hfits⟩
  dsimp only
  split
  · exact hrefused _
  split
  · exact hrefused _
  obtain ⟨c1, d1, hlock1, hpool1, hk1⟩ := hpool.lock hnode
  have htree1 := hpool.tree_incLockRef hnode hlock1
  generalize htotal :
    req.extendInputLen + min (req.maxNewTokens - req.outputIds.length) p.clipMaxNewTokens +
    p.pageSize =
    totalTokens
  have hle : req.extendInputLen + p.pageSize ≤ totalTokens := by omega
  rcases @addLocked_spec _ _ _ _ _ _ _ _ _ align h.charged hpool1 hnode hlen hle with
    ⟨result, hadd⟩ | ⟨c2, d2, p', hlock2, hadd, hcharged, hfits, hpage⟩
  · -- the lock is given back, and as much is evictable as before
    obtain ⟨c2, d2, hunlock, hpool2, hk2⟩ := hpool1.unlock
    have htree2 := hpool1.tree_decLockRef hunlock
    have hparams := hk2.params.trans hk1.params
    have hsize := hpool.sound.evictableSize_eq hpool2.sound (htree2.trans htree1) (List.Perm.refl _)
    refine ⟨c2, p, result,
      by simp [hlock1, hadd, hunlock], ⟨g, locks, hpool2⟩, hparams.trans h.params,
      h.page.trans (pageSize_of_params hparams).symm, h.charged, fun hne =>
      (h.fits hne).congr hsize hparams⟩
  · -- the lock of the request itself stays
    obtain ⟨_, _, hlock2', hpool2, hk2⟩ := hpool1.lock hnode
    rw [hlock2] at hlock2'
    cases hlock2'
    obtain ⟨c3, d3, hunlock, hpool3, hk3⟩ := hpool2.unlock
    have htree2 := hpool1.tree_incLockRef hnode hlock2
    have htree3 := hpool2.tree_decLockRef hunlock
    have hparams1 := hk3.params.trans hk2.params
    have hparams := hparams1.trans hk1.params
    have hsize :=
      hpool1.sound.evictableSize_eq hpool3.sound (htree3.trans htree2) (List.Perm.refl _)
    refine ⟨c3, p', _,
      by simp only [hlock1, hadd, hunlock, bind_eq_bind, bind_some]; rfl, ⟨g, _, hpool3⟩, hparams.trans h.params,
      (hpage.trans h.page).trans (pageSize_of_params hparams).symm, hcharged,
      fun _ => hfits.congr hsize hparams1⟩

variable {s : RadixCache × PrefillAdder}

lemma Between.offer (o : Offer) (h : Between size owned a params s) :
    ∃ s', PrefillAdder.offer a s o = some s' ∧ Between size owned a params s' := by
  obtain ⟨c, p⟩ := s
  obtain ⟨g, locks, hpool⟩ := h.pool
  obtain ⟨c1, req, g', heq, hpool1, hparams, hsize, hnode, hlen, hoff⟩ :=
    hpool.initNextRoundInput o.req o.now
  have hdis : c1.disable = c.disable := congrArg disable hparams
  have h1 : Between size owned a params (c1, p) := ⟨⟨g', locks, hpool1⟩, hparams.trans h.params,
    h.page.trans (pageSize_of_params hparams).symm, h.charged, fun hne =>
    (h.fits hne).congr hsize hparams⟩
  obtain ⟨c', p', result, hadd, h'⟩ :=
    h1.addOneReq hpool1 hnode hlen (fun hd => hoff (hdis ▸ hd)) o.allowPrefill
    o.truncationAlignSize
  exact ⟨(c', p'), by simp [PrefillAdder.offer, heq, hadd], h'⟩

lemma Between.pass (offers : List Offer) (h : Between size owned a params s) :
    ∃ s', PrefillAdder.pass a s offers = some s' ∧ Between size owned a params s' :=
  Runs.foldlM_invariant (fun _ o h => Between.offer o h) offers h

end

/-! ### A whole pass -/

section
variable {params : AdderParams} {pageSize : Nat} (hp : 0 < pageSize)
  (hrunning : ∀ r ∈ params.runningBatch, r.outputIds.length ≤ r.maxNewTokens)
include hrunning

lemma sum_nonneg_of_running :
    0 ≤ (params.runningBatch.map params.runningRequestTotalTokenOffset).sum := by
  refine sum_nonneg fun x hx => ?_
  obtain ⟨r, hr, rfl⟩ := mem_map.mp hx
  have hleft :
      (0 : Int) ≤ min ((r.maxNewTokens : Int) - r.outputIds.length) params.clipMaxNewTokens :=
    le_min (sub_nonneg.mpr (Int.ofNat_le.mpr (hrunning r hr))) (Int.natCast_nonneg _)
  exact mul_nonneg (Int.cast_nonneg hleft) params.newTokenRatio.2

include hp

lemma charged_adder : Charged (params.adder pageSize) := by
  have hsum := sum_nonneg_of_running hrunning
  have hmixed : (0 : ℚ) ≤ params.numMixedDecodeTokens := Nat.cast_nonneg _
  refine ⟨hp, fun r hr => (nomatch hr), ?_, ?_, fun s hs => (nomatch hs)⟩
  all_goals simp only [adder, pagedExtendLens, map_nil, sum_nil, length_nil]
  all_goals push_cast
  all_goals linarith

end

end PrefillAdder

/-- A cache and an allocator whose sizes are exact: with what requests own privately they make up a
pool, and no free is pending. -/
structure ExactPool (c : RadixCache) (a : KvAllocator) : Prop where
  settled : Settled a
  pool : ∃ size g locks owned, Pool size c a g locks owned

lemma exactPool_create (params : CacheInitParams) (size : Nat) (needSort : Bool) (now : Int) :
    ExactPool (.create params now) (.create size params.pageSize needSort) := by
  obtain ⟨g, hi⟩ := Server.inv_create {} params size needSort now
  exact ⟨⟨rfl, fun _ => rfl⟩, size, g, _, _, hi.pool⟩

open PrefillAdder in
/-- **Admission never over-commits.** After any calls of a pass, the page-rounded extend lengths of
the admitted requests are at most the slots that are free or still evictable, and less unless,
without a prefix cache, a request that ignores the end of the text and has nothing left to produce
was admitted; `alloc_for_extend` finds room for them in any case. -/
theorem admission_never_overcommits {c : RadixCache} {a : KvAllocator}
    (h : ExactPool c a) (params : AdderParams)
    (hrunning : ∀ r ∈ params.runningBatch, r.outputIds.length ≤ r.maxNewTokens)
    (offers : List Offer) :
    ∃ c' p, pass a (c, params.adder c.pageSize) offers = some (c', p) ∧
      (p.canRunList ≠ [] → p.pagedExtendLens ≤ availableAndEvictable c' a ∧
        ((c.disable = false ∨ ∀ r ∈ p.canRunList, r.ignoreEos = true →
        r.outputIds.length < r.maxNewTokens) →
          p.pagedExtendLens < availableAndEvictable c' a) ∧
        (allocForExtend c' a (p.canRunList.map (·.toReq))).isSome) := by
  obtain ⟨hsettled, size, g, locks, owned, hpool⟩ := h
  have hstart : Between size owned a c.toCacheInitParams (c, params.adder c.pageSize) :=
    ⟨⟨g, locks, hpool⟩, rfl, rfl, charged_adder c.pageSize_pos hrunning, fun hne => absurd rfl hne⟩
  obtain ⟨⟨c', p⟩, heq, hend⟩ := hstart.pass offers
  refine ⟨c', p, heq, fun hne => ?_⟩
  obtain ⟨hle, hlt⟩ := hend.fits hne
  have hdis : c'.disable = c.disable := congrArg disable hend.params
  refine ⟨hle, hdis ▸ hlt, ?_⟩
  obtain ⟨g', locks', hpool'⟩ := hend.pool
  refine hpool'.allocForExtend_isSome hsettled (le_trans (le_of_eq ?_) hle)
  have hpage : p.pageSize = c'.pageSize := hend.page
  rw [pagedExtendLens, List.map_map, Nat.cast_list_sum, List.map_map]
  refine congrArg List.sum (map_congr_left fun r hr => ?_)
  rw [ceilPagedTokens_natCast hend.charged.page_pos, hend.charged.lens r hr, hpage]
  rfl

open PrefillAdder in
/-- Two requests in a pool of sixteen slots; the second one is cut to the page that is left of the
chunk. -/
theorem admission_never_overcommits_chunked : let params : CacheInitParams :=
  {pageSize := 2, pageSize_pos := by decide}
    let a := create 16 2 false
    let offers : List Offer := [{now := 1, req := {originInputIds := [1, 2, 3], maxNewTokens := 1}},
      {now := 2, req := {originInputIds := [1, 2, 4, 5, 6], maxNewTokens := 1}}]
    ∃ c' p,
      pass a (.create params 0, adder {remInputTokens := 100, remChunkTokens := some 6} 2) offers =
      some (c', p) ∧
      p.canRunList.map (·.extendInputLen) = [3, 2] ∧
      p.pagedExtendLens < availableAndEvictable c' a ∧
      (allocForExtend c' a (p.canRunList.map (·.toReq))).isSome := by
  intro params a offers
  have hnil : ∀ r ∈ ([] : List PrefillReq), r.outputIds.length ≤ r.maxNewTokens := nofun
  obtain ⟨c', p, heq, hfits⟩ := admission_never_overcommits (exactPool_create params 16 false 0)
    {remInputTokens := 100, remChunkTokens := some 6} hnil offers
  have hlens : (pass a (.create params 0, adder {remInputTokens := 100, remChunkTokens := some 6} 2)
      offers).map (fun s => s.2.canRunList.map (·.extendInputLen)) = some [3, 2] := by
        decide +kernel
  have hlens : p.canRunList.map (·.extendInputLen) = [3, 2] :=
    some.inj ((congrArg (Option.map _) heq).symm.trans hlens)
  have hne : p.canRunList ≠ [] := by
    intro hnil
    rw [hnil] at hlens
    cases hlens
  obtain ⟨_, hlt, halloc⟩ := hfits hne
  exact ⟨c', p, heq, hlens, hlt (.inl rfl), halloc⟩

open PrefillAdder in
/-- Without a prefix cache, a request of 50 tokens that ignores the end of the text and asks for no
new token takes all of a pool of one page. -/
theorem ignore_eos_fills_pool : let params : CacheInitParams :=
  {pageSize := 64, pageSize_pos := by decide, disable := true}
    let a := create 64 64 false
    ExactPool (.create params 0) a ∧
    ∃ c' p, pass a (.create params 0, adder {remInputTokens := 16384} 64)
        [{now := 1, req := {originInputIds := replicate 50 7, maxNewTokens := 0, ignoreEos := true}}] = some (c', p) ∧
      p.canRunList ≠ [] ∧ ¬ p.pagedExtendLens < availableAndEvictable c' a := by
  intro params a
  refine ⟨exactPool_create params 64 false 0, ?_⟩
  have hany : (pass a (.create params 0, adder {remInputTokens := 16384} 64)
      [{now := 1, req := {originInputIds := replicate 50 7, maxNewTokens := 0, ignoreEos := true}}]).any
      (fun s => decide (s.2.canRunList ≠ [] ∧
        ¬ s.2.pagedExtendLens < availableAndEvictable s.1 a)) = true := by
    decide +kernel
  obtain ⟨⟨c', p⟩, heq, hp⟩ := (any_eq_true _ _).mp hany
  exact ⟨c', p, heq, of_decide_eq_true hp⟩

end Sglang.Managers
