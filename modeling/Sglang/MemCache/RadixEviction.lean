import Mathlib.Data.Finset.Max
import Sglang.MemCache.RadixRuns

/-! How much eviction frees.

The heap has all leaves that may be evicted, so the loop ends with as much as it was asked for or
with no such leaf. A node that is not locked has a leaf under it that is not locked either: without
such leaves everything is locked. -/
namespace Sglang.MemCache

open List Option

namespace RadixCache
variable {c c₁ c' : RadixCache} {g g' : Shape} {locks : List NodeId}

/-- All leaves that may be evicted are in the heap. -/
def HeapComplete (c : RadixCache) (heap : List HeapEntry) : Prop :=
  ∀ n ∈ c.evictableLeaves, n ∈ heap.map Prod.snd

variable {heap : List HeapEntry}

lemma HeapComplete.next {p n : NodeId} (hall : HeapComplete c heap) (hb : Books c g)
    (hb1 : Books c₁ (g.prune n)) (hc : IsPrune c c₁ p n) {e : HeapEntry} (hen : e.2 = n) :
    HeapComplete c₁ (nextHeap c₁ p (heap.erase e)) := by
  intro m hm
  have hbooks := (hb1.leaves m).mp hm
  rw [hc.leaves hb.nodup] at hm
  by_cases hmp : m = p
  · subst hmp
    exact mem_map.mpr ⟨_, mem_nextHeap.mpr (.inr ⟨⟨hbooks.2.2.1, hbooks.2.2.2⟩, rfl⟩), rfl⟩
  · rw [if_neg hmp] at hm
    obtain ⟨x, hx, rfl⟩ := mem_map.mp (hall m hm.2)
    refine mem_map_of_mem (mem_nextHeap.mpr (.inl ((mem_erase_of_ne fun hxe => hm.1 ?_).mpr hx)))
    rw [hxe, hen]

variable {freed : List (List Slot)} {numEvicted : Nat} {numTokens : Nat}

/-- The loop ends with as much as it was asked for, or with nothing left to evict. -/
lemma Evicting.exhausts
    (he : Evicting numTokens c g heap numEvicted c' g' freed) (h : WellFormed c.tree g)
    (hb : Books c g) (hall : HeapComplete c heap) :
    numTokens ≤ numEvicted + (freed.map length).sum ∨ c'.evictableLeaves = [] := by
  induction he with
  | enough hle => exact .inl (Nat.le_add_right_of_le hle)
  | empty => exact .inr (eq_nil_iff_forall_not_mem.mpr fun n hn => absurd (hall n hn) not_mem_nil)
  | step _ _ hleaf hr _ hc _ ih =>
    have hb1 := hb.prune h hr ((hb.leaves _).mp hleaf).2.2.2 hc
    rw [map_cons, sum_cons, ← add_assoc]
    exact ih (by rw [hc.tree]; exact h.prune hr) hb1 (hall.next hb hb1 hc rfl)

lemma heapComplete_leaves (c : RadixCache) :
    HeapComplete c (c.evictableLeaves.map c.heapEntry) := by
  intro m hm
  rw [List.map_map]
  exact mem_map.mpr ⟨m, hm, rfl⟩

/-! ### What is left -/

/-- Under a node that is not locked there is a leaf that may be evicted. -/
lemma Sound.exists_evictableLeaf (hs : Sound c g locks) {n : NodeId} (hn : n ∈ g.live)
    (hroot : n ≠ c.tree.root) (hfree : c.lockRef n = 0) : ∃ m, m ∈ c.evictableLeaves := by
  have hwf := hs.wf
  -- the deepest node at or under it
  obtain ⟨m, hm, hdeep⟩ :=
    Finset.exists_max_image (g.live.filter fun m => Covers c.tree g n m)
    (fun m => (g.path m).length)
    ⟨n, Finset.mem_filter.mpr ⟨hn, WellFormed.covers_self c.tree g n⟩⟩
  obtain ⟨hm, hcov⟩ := Finset.mem_filter.mp hm
  have hmroot : m ≠ c.tree.root := by
    rintro rfl
    have hle := hcov.2.length_le
    rw [hwf.root_path, length_nil] at hle
    obtain ⟨p, e⟩ := hwf.edge n hn hroot
    have := e.length_path_lt
    omega
  refine ⟨m, (hs.books.leaves m).mpr ⟨hm, hmroot, ?_, ?_⟩⟩
  · by_contra hsome
    obtain ⟨⟨k, m'⟩, hmem⟩ := exists_mem_of_ne_nil _ hsome
    have hk : (c.tree.node m).children.lookup k = some m' := AList.mem_lookup_iff.mpr hmem
    obtain ⟨hm', _, e, _⟩ := hwf.edge_of_lookup hm hk
    have hcov' := (hwf.covers_edge hn hm' hroot e).mpr (.inr hcov)
    have hle := hdeep m' (Finset.mem_filter.mpr ⟨hm', hcov'⟩)
    have := e.length_path_lt
    omega
  · -- a lock at or under it is a lock at or under the node
    rw [hs.locks.count n hn hroot] at hfree
    rw [hs.locks.count m hm hmroot]
    have hmono : locks.countP (fun l => Covers c.tree g m l) ≤ locks.countP fun l =>
        Covers c.tree g n l := by
      refine countP_mono_left fun l _ hl => ?_
      simp only [decide_eq_true_eq] at hl ⊢
      exact ⟨hcov.1.trans hl.1, hcov.2.trans hl.2⟩
    omega

lemma Sound.evictableSize_eq_zero (hs : Sound c g locks) (hnil : c.evictableLeaves = []) :
    c.evictableSize = 0 := by
  rw [hs.books.evictable]
  refine Finset.sum_eq_zero fun n hn => if_neg fun hfree => ?_
  obtain ⟨hroot, hn⟩ := Finset.mem_erase.mp hn
  obtain ⟨m, hm⟩ := hs.exists_evictableLeaf hn hroot hfree
  rw [hnil] at hm
  cases hm

/-- Evicted tokens were evictable, and the protected ones stay. -/
lemma Evicted.sizes (he : Evicted c g c' g' freed) (h : WellFormed c.tree g) :
    c'.evictableSize + (freed.map length).sum = c.evictableSize ∧
    c'.protectedSize = c.protectedSize := by
  induction he with
  | done => simp
  | @step c c₁ c' g g' p n freed hleaf hr hc he ih =>
    obtain ⟨hsize, hprot⟩ := ih (by rw [hc.tree]; exact h.prune hr)
    have hlen : (c.nodes n).value.length = (c.nodes n).key.len := hr.edge.value_len
    refine ⟨?_, hprot.trans hc.protectedSize⟩
    have := hc.evictableSize
    rw [map_cons, sum_cons, hlen, Nat.cast_add]
    omega

/-- **Eviction frees what it is asked for, or everything evictable.** -/
theorem Sound.evict_exhausts {n : Nat} (hs : Sound c g locks)
    (heq : c.evict numTokens = some (c', n, freed)) : numTokens ≤ n ∨ c'.evictableSize = 0 := by
  obtain ⟨c₁, g', fs, heq', he⟩ := evict_steps numTokens hs.wf hs.books.leafSound
  cases heq'.symm.trans heq
  split at he
  · next hdis =>
    obtain ⟨rfl, -, -⟩ := he
    refine .inr (hs.evictableSize_eq_zero (eq_nil_iff_forall_not_mem.mpr fun m hm => ?_))
    obtain ⟨hm, hroot, _⟩ := (hs.books.leaves m).mp hm
    rw [hs.off hdis] at hm
    exact hroot (Finset.mem_singleton.mp hm)
  · obtain ⟨g', hs', -⟩ := hs.evict heq
    have hend := he.exhausts hs.wf hs.books (heapComplete_leaves c)
    rw [zero_add] at hend
    exact hend.imp_right hs'.evictableSize_eq_zero

/-! ### Which nodes go -/

/-- What the strategy says of a node. -/
def priorityOf (c : RadixCache) (n : NodeId) : List Int := c.evictionPolicy.getPriority (c.nodes n)

/-- The nodes an eviction removes, in order. Each is an unlocked leaf when its turn comes, so all
its children went before, and no leaf that could be evicted then has a smaller priority. -/
inductive Removed : RadixCache → List NodeId → RadixCache → Prop
  | done {c : RadixCache} : Removed c [] c
  | step {c c₁ c' : RadixCache} {n : NodeId} {rest : List NodeId} :
    c.InTree n → n ≠ c.rootNode → c.lockRef n = 0 → (c.nodes n).children.entries = [] →
      (∀ m ∈ c.evictableLeaves, c.priorityOf n ≤ c.priorityOf m) → c.deleteLeaf n = some c₁ →
      Removed c₁ rest c' →
      Removed c (n :: rest) c'

lemma deleteLeaf_frame {n : NodeId} (h : c.deleteLeaf n = some c₁) :
    (∀ m, (c₁.nodes m).value = (c.nodes m).value) ∧ ∀ m, c₁.heapEntry m = c.heapEntry m := by
  unfold deleteLeaf at h
  simp only at h
  split at h
  · cases h
  rename_i p _
  split at h
  · cases h
  have hnodes : ∀ (d : RadixCache) (k : NodeId), (d.updateLeafStatus k).nodes = d.nodes ∧
      (d.updateLeafStatus k).evictionPolicy = d.evictionPolicy := by
    intro d k
    unfold updateLeafStatus
    split_ifs <;> exact ⟨rfl, rfl⟩
  cases h
  constructor
  · intro m
    rw [(hnodes _ _).1]
    by_cases hm : m = p <;> simp [modifyNode, hm]
  · intro m
    unfold heapEntry
    rw [(hnodes _ _).1, (hnodes _ _).2]
    by_cases hm : m = p
    · subst hm
      cases hp : c.evictionPolicy <;> simp [modifyNode, EvictionPolicy.getPriority, hp]
    · simp [modifyNode, hm]

lemma foldl_least_le (heap : List HeapEntry) (x : HeapEntry) :
    (heap.foldl (fun best e => if e.1 < best.1 then e else best) x).1 ≤ x.1 ∧
      ∀ e ∈ heap, (heap.foldl (fun best e => if e.1 < best.1 then e else best) x).1 ≤ e.1 := by
  induction heap generalizing x with
  | nil => exact ⟨le_refl _, fun _ h => (by cases h)⟩
  | cons y heap ih =>
    rw [foldl_cons]
    split
    · rename_i hlt
      obtain ⟨hx, hrest⟩ := ih y
      exact ⟨hx.trans hlt.le, forall_mem_cons.mpr ⟨hx, hrest⟩⟩
    · rename_i hge
      obtain ⟨hx, hrest⟩ := ih x
      exact ⟨hx, forall_mem_cons.mpr ⟨hx.trans (not_lt.mp hge), hrest⟩⟩

lemma heappop_le {heap rest : List HeapEntry} {e : HeapEntry} (hp : heappop heap = some (e, rest)) :
    ∀ x ∈ heap, e.1 ≤ x.1 := by
  cases heap with
  | nil => cases hp
  | cons x heap =>
    cases hp
    obtain ⟨hx, hrest⟩ := foldl_least_le heap x
    exact forall_mem_cons.mpr ⟨hx, hrest⟩

lemma append_lt_append {p q : List Int} (a b : Int) (hlen : q.length = p.length)
    (h : List.Lex (· < ·) q p) :
    List.Lex (· < ·) (q ++ [b]) (p ++ [a]) := by
  induction h with
  | nil => cases hlen
  | cons _ ih => exact .cons (ih (Nat.succ.inj hlen))
  | rel h => exact .rel h

/-- What a run of the loop removes: distinct nodes of the tree, whose values are handed to the
allocator one after the other. -/
structure Removal (c : RadixCache) (g : Shape) (removed : List NodeId)
    (c' : RadixCache) (freed : List (List Slot)) : Prop where
  steps : Removed c removed c'
  freed : freed = removed.map fun n => (c.nodes n).value
  nodup : removed.Nodup
  live : ∀ n ∈ removed, n ∈ g.live

lemma Removal.cons {n p : NodeId} {removed : List NodeId}
    (hrest : Removal c₁ (g.prune n) removed c' freed) (h : WellFormed c.tree g)
    (hr : CanPrune c.tree g p n) (hroot : n ≠ c.tree.root) (hlock : c.lockRef n = 0)
    (hleast : ∀ m ∈ c.evictableLeaves, c.priorityOf n ≤ c.priorityOf m)
    (hdel : c.deleteLeaf n = some c₁) :
    Removal c g (n :: removed) c' ((c.nodes n).value :: freed) where
  steps := .step ((inTree_iff h).mpr hr.mem) hroot hlock hr.leaf hleast hdel hrest.steps
  freed := by
    rw [hrest.freed, map_cons]
    exact congrArg _ (map_congr_left fun m _ => (deleteLeaf_frame hdel).1 m)
  nodup := by
    refine nodup_cons.mpr ⟨fun hmem => ?_, hrest.nodup⟩
    exact Finset.notMem_erase n g.live (hrest.live n hmem)
  live := forall_mem_cons.mpr ⟨hr.mem, fun m hm => Finset.mem_of_mem_erase (hrest.live m hm)⟩

/-- The loop takes leaves of least priority: the heap has the leaves with the priorities they have
now. -/
lemma Evicting.removal
    (he : Evicting numTokens c g heap numEvicted c' g' freed) (h : WellFormed c.tree g)
    (hb : Books c g) (hall : HeapComplete c heap) (hcur : ∀ e ∈ heap, e = c.heapEntry e.2) :
    ∃ removed, Removal c g removed c' freed := by
  induction he with
  | enough => exact ⟨[], .done, rfl, .nil, fun _ h => (by cases h)⟩
  | empty => exact ⟨[], .done, rfl, .nil, fun _ h => (by cases h)⟩
  | @step c c₁ c' g g' heap e p numEvicted freed hpop hmem hleaf hr hdel hc _ ih =>
    obtain ⟨hn, hroot, hnil, hlock⟩ := (hb.leaves e.2).mp hleaf
    have hb1 := hb.prune h hr hlock hc
    have hcur1 : ∀ x ∈ nextHeap c₁ p (heap.erase e), x = c₁.heapEntry x.2 := by
      intro x hx
      obtain hx | ⟨-, rfl⟩ := mem_nextHeap.mp hx
      · rw [(deleteLeaf_frame hdel).2]
        exact hcur x (mem_of_mem_erase hx)
      · rfl
    have hleast : ∀ m ∈ c.evictableLeaves, c.priorityOf e.2 ≤ c.priorityOf m := by
      intro m hm
      obtain ⟨x, hx, rfl⟩ := mem_map.mp (hall m hm)
      have hxle := heappop_le hpop x hx
      rw [hcur x hx, hcur e hmem] at hxle
      refine not_lt.mp fun hlt => not_lt.mpr hxle (append_lt_append _ _ ?_ hlt)
      cases c.evictionPolicy <;> rfl
    obtain ⟨removed, hrest⟩ :=
      ih (by rw [hc.tree]; exact h.prune hr) hb1 (hall.next hb hb1 hc rfl) hcur1
    exact ⟨e.2 :: removed, hrest.cons h hr hroot hlock hleast hdel⟩

lemma Sound.evict_removal {n : Nat} (hs : Sound c g locks)
    (heq : c.evict numTokens = some (c', n, freed)) : ∃ removed, Removal c g removed c' freed := by
  obtain ⟨c₁, g', fs, heq', he⟩ := evict_steps numTokens hs.wf hs.books.leafSound
  cases heq'.symm.trans heq
  split at he
  · obtain ⟨rfl, -, rfl⟩ := he
    exact ⟨[], .done, rfl, .nil, fun _ h => (by cases h)⟩
  · refine he.removal hs.wf hs.books (heapComplete_leaves c) fun e he => ?_
    obtain ⟨m, _, rfl⟩ := mem_map.mp he
    rfl

/-- Distinct nodes whose values have nothing in common hand in every index once. -/
lemma Removal.nodup_freed {removed : List NodeId} (hr : Removal c g removed c' freed)
    (h : WellFormed c.tree g) (hvalue : ∀ n, c.InTree n → (c.nodes n).value.Nodup)
    (hdisjoint : ∀ m n, c.InTree m → c.InTree n → m ≠ n →
    (c.nodes m).value.Disjoint (c.nodes n).value) :
    freed.flatten.Nodup := by
  rw [hr.freed, List.nodup_flatten, List.forall_mem_map, List.pairwise_map]
  refine ⟨fun n hn => hvalue n ((inTree_iff h).mpr (hr.live n hn)), ?_⟩
  refine hr.nodup.imp_of_mem fun hm hn hne => ?_
  exact hdisjoint _ _ ((inTree_iff h).mpr (hr.live _ hm)) ((inTree_iff h).mpr (hr.live _ hn)) hne

/-- What an eviction may and must do. -/
structure EvictsExactly (c : RadixCache) (numTokens : Nat) (c' : RadixCache)
    (numEvicted : Nat) (freed : List (List Slot)) (removed : List NodeId) : Prop where
  /-- Unlocked leaves of least priority go, one after the other. -/
  order : Removed c removed c'
  once : removed.Nodup
  handed : freed = removed.map fun n => (c.nodes n).value
  /-- Where the nodes' values have no index in common, every index is freed once. -/
  indices : (∀ n, c.InTree n → (c.nodes n).value.Nodup) →
    (∀ m n, c.InTree m → c.InTree n → m ≠ n → (c.nodes m).value.Disjoint (c.nodes n).value) →
    freed.flatten.Nodup
  drop : c'.evictableSize + numEvicted = c.evictableSize
  enough : min (numTokens : Int) c.evictableSize ≤ numEvicted

/-- **Eviction is exact and safe** in every state that a run with balanced locks reaches. -/
theorem lockedRun_evicts_exactly {start : Int} {locks : List NodeId} {c : RadixCache}
    (hrun : LockedRun start locks c) (numTokens : Nat) :
    ∃ c' numEvicted freed removed, c.evict numTokens = some (c', numEvicted, freed) ∧
      EvictsExactly c numTokens c' numEvicted freed removed := by
  obtain ⟨g, hs⟩ := lockedRun_sound hrun
  obtain ⟨c', g', freed, heq, he⟩ := evict_spec numTokens hs.wf hs.books.leafSound
  obtain ⟨removed, hremoval⟩ := hs.evict_removal heq
  have hdrop : c'.evictableSize + ((freed.map length).sum : Nat) = c.evictableSize :=
    (he.sizes hs.wf).1
  refine ⟨c', _, freed, removed, heq, hremoval.steps, hremoval.nodup, hremoval.freed,
    hremoval.nodup_freed hs.wf, hdrop, ?_⟩
  obtain hle | hzero := hs.evict_exhausts heq
  · exact (min_le_left _ _).trans (by exact_mod_cast hle)
  · rw [hzero, zero_add] at hdrop
    exact (min_le_right _ _).trans hdrop.ge

/-- Two entries; the one used longer ago goes, as a whole. -/
theorem lockedRun_evicts_exactly_oldest :
    ∃ locks c c' numEvicted freed removed, LockedRun 0 locks c ∧
    c.evict 1 = some (c', numEvicted, freed) ∧ freed = [[10, 11, 12, 13]] ∧
    EvictsExactly c 1 c' numEvicted freed removed := by
  have h1 : ((create {pageSize := 2, pageSize_pos := by decide} 0).insert 1
      ⟨{tokenIds := [1, 2, 3, 4]}, some [10, 11, 12, 13], false, 0,
        by simp [RadixKey.len]⟩).isSome := by
    decide +kernel
  have h2 :
      (insert (get _ h1).1 2 ⟨{tokenIds := [5, 6]}, some [14, 15], false,
      0, by simp [RadixKey.len]⟩).isSome := by
    decide +kernel +revert
  have hfreed : (evict (get _ h2).1 1).map (fun r => r.2.2) = some [[10, 11, 12, 13]] := by
    decide +kernel +revert
  have run := ((LockedRun.reset _).insert (eq_some_get h1)).insert (eq_some_get h2)
  obtain ⟨c', numEvicted, freed, removed, heq, hexact⟩ := lockedRun_evicts_exactly run 1
  have hsame := (congrArg (Option.map fun r => r.2.2) heq).symm.trans hfreed
  exact ⟨_, _, c', numEvicted, freed, removed, run, heq, some.inj hsame, hexact⟩

lemma Reshape.evictableSize (hr : Reshape c g c' g') : c'.evictableSize = c.evictableSize := by
  induction hr with
  | quiet hq => exact hq.evictableSize
  | split _ hc => exact hc.evictableSize
  | trans _ _ ih ih' => exact ih'.trans ih

lemma Sound.evictableSize_eq {locks' : List NodeId} (hs : Sound c g locks) (hs' : Sound c' g locks')
    (htree : c'.tree = c.tree) (hp : locks.Perm locks') : c'.evictableSize = c.evictableSize := by
  rw [hs.books.evictable, hs'.books.evictable]
  unfold sizeWhere nodeSum
  rw [htree]
  refine Finset.sum_congr rfl fun n hn => ?_
  obtain ⟨hroot, hn⟩ := Finset.mem_erase.mp hn
  rw [hs.locks.count n hn hroot, hs'.locks.count n hn (by rw [htree]; exact hroot),
    htree, hp.countP_eq]

end RadixCache

end Sglang.MemCache
