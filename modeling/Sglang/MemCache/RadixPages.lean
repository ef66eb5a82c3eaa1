import Mathlib.Algebra.BigOperators.Ring.Finset
import Sglang.Lib.Pages
import Sglang.MemCache.RadixRuns

/-! The pages a radix cache owns.

The slots of a node's value run through whole pages, so a tree owns a multiset of
pages. Reshaping moves none of them, an insertion adds those of the new leaf and an
eviction hands out those of the values it frees. Meanwhile nodes that stay keep
what they stand for, which is what a request's `last_node` relies on. -/
namespace Sglang.MemCache

open List
open Prefix Pages Shape

namespace RadixCache
variable {c c' : RadixCache} {g g' : Shape}

/-- What the nodes stand for runs through pages. -/
def ValsPaged (c : RadixCache) (g : Shape) : Prop := ∀ n ∈ g.live, Paged c.pageSize (g.vals n)

/-- The pages of the values of the tree. -/
def nodePages (c : RadixCache) (g : Shape) : Multiset Nat :=
  c.nodeSum g fun _ _ value => pageSet c.pageSize value

/-- Nodes that stay keep what they stand for. -/
structure Keeps (c : RadixCache) (g : Shape) (c' : RadixCache) (g' : Shape) : Prop where
  params : c'.toCacheInitParams = c.toCacheInitParams
  root : c'.tree.root = c.tree.root
  label : ∀ n ∈ g.live, n ∈ g'.live → g'.path n = g.path n ∧ g'.vals n = g.vals n ∧
    (c'.tree.node n).key.ns = (c.tree.node n).key.ns

lemma Keeps.refl (c : RadixCache) (g : Shape) : Keeps c g c g :=
  ⟨rfl, rfl, fun _ _ _ => ⟨rfl, rfl, rfl⟩⟩

lemma Keeps.trans {c'' : RadixCache} {g'' : Shape} (hk : Keeps c g c' g')
    (hk' : Keeps c' g' c'' g'') (hsub : ∀ n ∈ g.live, n ∈ g''.live → n ∈ g'.live) :
    Keeps c g c'' g'' := by
  refine ⟨hk'.params.trans hk.params, hk'.root.trans hk.root, fun n hn hn'' => ?_⟩
  obtain ⟨hpath, hvals, hns⟩ := hk.label n hn (hsub n hn hn'')
  obtain ⟨hpath', hvals', hns'⟩ := hk'.label n (hsub n hn hn'') hn''
  exact ⟨hpath'.trans hpath, hvals'.trans hvals, hns'.trans hns⟩

lemma ValsPaged.value {p n : NodeId} (hv : ValsPaged c g) (h : WellFormed c.tree g)
    (hn : n ∈ g.live) (e : Edge c.tree g p n) : Paged c.pageSize (c.tree.node n).value := by
  have hdrop := (hv n hn).drop c.pageSize_pos (n := (g.vals p).length) (by
    rw [h.length_vals e.mem]
    exact h.page_dvd_path e.mem)
  rwa [e.vals, drop_left] at hdrop

variable {n : NodeId} {locks : List NodeId}

lemma mem_vals {t : Tree} (h : WellFormed t g) (hn : n ∈ g.live) {slot : Slot}
    (hs : slot ∈ g.vals n) :
    ∃ m ∈ g.live, m ≠ t.root ∧ slot ∈ (t.node m).value := by
  refine h.induction (P := fun n => slot ∈ g.vals n → _) (fun hs => ?_)
    (fun p n hn hroot e hp hs => ?_) hn hs
  · rw [h.root_vals] at hs
    cases hs
  · rw [e.vals] at hs
    rcases mem_append.mp hs with hs | hs
    · exact hp hs
    · exact ⟨n, hn, hroot, hs⟩

lemma Sound.sizes (hs : Sound c g locks) :
    c.evictableSize + c.protectedSize = ((c.nodePages g).card * c.pageSize : Nat) := by
  rw [hs.books.evictable, hs.books.protected_]
  unfold sizeWhere nodePages nodeSum
  rw [← Finset.sum_add_distrib, Multiset.card_sum, Finset.sum_mul, Nat.cast_sum]
  refine Finset.sum_congr rfl fun n hn => ?_
  obtain ⟨hroot, hn⟩ := Finset.mem_erase.mp hn
  obtain ⟨p, e⟩ := hs.wf.edge n hn hroot
  dsimp only
  rw [card_pageSet, e.value_len, count_mul_of_dvd c.pageSize_pos e.aligned]
  have hlock := hs.books.nonneg n hn
  by_cases hz : c.lockRef n = 0
  · rw [if_pos hz, if_neg (by omega), add_zero]
  · rw [if_neg hz, if_pos (by omega), zero_add]

/-! ### Through the changes -/

lemma pageSize_of_params (h : c'.toCacheInitParams = c.toCacheInitParams) :
    c'.pageSize = c.pageSize :=
  congrArg CacheInitParams.pageSize h

lemma Reshape.keeps (hr : Reshape c g c' g') (h : WellFormed c.tree g) : Keeps c g c' g' :=
  ⟨hr.params, hr.root, fun _ hn _ => hr.label h hn⟩

lemma Reshape.pages (hr : Reshape c g c' g') (h : WellFormed c.tree g) (hv : ValsPaged c g) :
    ValsPaged c' g' ∧ c'.nodePages g' = c.nodePages g := by
  induction hr with
  | quiet hq =>
    unfold ValsPaged nodePages
    rw [pageSize_of_params hq.params, nodeSum_quiet _ hq]
    exact ⟨hv, rfl⟩
  | @split c c' g p n s hs hc =>
    have hpage := pageSize_of_params hc.params
    constructor
    · intro m hm
      rw [hpage]
      rcases mem_split.mp hm with rfl | hm
      · have htake := (hv n hs.mem).take c.pageSize_pos ((g.vals p).length + s)
        rwa [hs.edge.vals, take_length_add_append, ← split_vals_new (t := c.tree)] at htake
      · rw [split_vals (h.ne_counter hm)]
        exact hv m hm
    · unfold nodePages
      rw [hpage]
      exact nodeSum_split _ h hs hc
        ((hv.value h hs.mem hs.edge).pageSet_split c.pageSize_pos hs.dvd)
  | trans hr _ ih ih' =>
    obtain ⟨hv1, heq1⟩ := ih h hv
    obtain ⟨hv2, heq2⟩ := ih' (hr.wellFormed h) hv1
    exact ⟨hv2, heq2.trans heq1⟩

variable {slots : List Slot} {key : RadixKey} {len : Nat}

section
variable (hi : Inserted c g key slots c' g' len)
include hi

lemma Inserted.keeps (h : WellFormed c.tree g) : Keeps c g c' g' ∧ g.live ⊆ g'.live := by
  obtain ⟨c1, g1, node, hr, _, _, _, ⟨_, rfl, rfl⟩ | ⟨key', value', _, _, _, hcan, hgraft, rfl⟩⟩ :=
    hi.grown
  · exact ⟨hr.keeps h, hr.live_subset⟩
  · have h1 := hr.wellFormed h
    have hsub : g1.live ⊆ (g1.graft c1.tree node key' value').live :=
      fun n hn => mem_graft.mpr (.inr hn)
    refine ⟨(hr.keeps h).trans ⟨hgraft.params, by rw [hgraft.tree]; rfl, fun n hn _ => ?_⟩
      fun n hn _ => hr.live_subset hn, hr.live_subset.trans hsub⟩
    have hc := h1.ne_counter hn
    exact ⟨graft_path hc, graft_vals hc, by rw [hgraft.tree, (Tree.graft_other _ _ _ _ hc).1]⟩

/-- **An insertion adds the pages of the part of the slots that was missing.** -/
theorem Inserted.pages (h : WellFormed c.tree g) (hv : ValsPaged c g)
    (hslots : Paged c.pageSize slots) :
    c.pageSize ∣ len ∧ ValsPaged c' g' ∧ c'.nodePages g' =
      c.nodePages g + pageSet c.pageSize ((slots.take (floor c.pageSize key.len)).drop len) := by
  have hle := hi.le.trans (floor_le _ _)
  obtain ⟨c1, g1, node, hr, hmem, hpath, _, hgrown⟩ := hi.grown
  have h1 := hr.wellFormed h
  obtain ⟨hv1, hpages⟩ := hr.pages h hv
  have hpage1 := pageSize_of_params hr.params
  have hlen : (g1.path node).length = len := by
    rw [hpath, length_take, RadixKey.length_iter, min_eq_left hle]
  have hdvd : c.pageSize ∣ len := by
    have := h1.page_dvd_path hmem
    rwa [hlen, hr.pageSize] at this
  refine ⟨hdvd, ?_⟩
  rcases hgrown with ⟨hfull, rfl, rfl⟩ | ⟨key', value', _, _, hvalue, hcan, hgraft, rfl⟩
  · refine ⟨hv1, ?_⟩
    rw [hpages, drop_eq_nil_of_le (by rw [length_take, hfull]; omega),
      pageSet_nil c.pageSize_pos, add_zero]
  have hpage := pageSize_of_params hgraft.params
  have hnew : Paged c.pageSize value' := by
    rw [hvalue]
    exact (hslots.take c.pageSize_pos _).drop c.pageSize_pos hdvd
  constructor
  · intro m hm
    rw [hpage, hpage1]
    rcases mem_graft.mp hm with rfl | hm
    · rw [graft_vals_new]
      have hnode := hv1 node hmem
      rw [hpage1] at hnode
      refine hnode.append c.pageSize_pos ?_ hnew
      rw [h1.length_vals hmem, hlen]
      exact hdvd
    · rw [graft_vals (h1.ne_counter hm), ← hpage1]
      exact hv1 m hm
  · rw [← hvalue, ← hpages]
    unfold nodePages
    rw [hpage, nodeSum_graft _ h1 hcan hgraft, hpage1]

lemma Inserted.whole
    (h : WellFormed c.tree g) :
    ∃ n ∈ g'.live, g'.path n = key.iter.take (floor c.pageSize key.len) ∧
      (n = c'.tree.root ∨ (c'.tree.node n).key.ns = key.ns) := by
  obtain ⟨c1, g1, node, hr, hmem, hpath, hns, hgrown⟩ := hi.grown
  rcases hgrown with ⟨hfull, rfl, rfl⟩ | ⟨key', value', hiter, hns', _, hcan, hgraft, rfl⟩
  · exact ⟨node, hmem, by rw [hpath, hfull], hns⟩
  · refine ⟨c1.tree.counter, mem_graft.mpr (.inl rfl), ?_, .inr ?_⟩
    · rw [graft_path_new, hpath, hiter, ← min_eq_left hi.le, ← take_take,
        min_eq_left hi.le, take_append_drop]
    · rw [hgraft.tree, Tree.graft_new (hr.wellFormed h) hcan]
      exact hns'

end

lemma holds_path {t : Tree} (h : WellFormed t g) (hn : n ∈ g.live) (hpos : 0 < (g.path n).length) :
    n ≠ t.root ∧ ∃ page, Holds t (t.node n).key.ns (g.path n) page := by
  have hroot : n ≠ t.root := by
    rintro rfl
    rw [h.root_path] at hpos
    exact lt_irrefl 0 hpos
  exact ⟨hroot, _, h.holds_iff.mpr ⟨n, hn, hroot, rfl, prefix_rfl,
    ⟨length_pos_iff.mp hpos, h.page_dvd_path hn⟩, rfl⟩⟩

lemma Evicted.keeps {freed : List (List Slot)} (he : Evicted c g c' g' freed) :
    Keeps c g c' g' := by
  induction he with
  | done => exact .refl _ _
  | @step c c1 c' g g' p n freed _ hr hc he ih =>
    refine Keeps.trans ⟨hc.params, by rw [hc.tree]; rfl, fun m _ _ => ?_⟩ ih fun m _ hm =>
      he.live_subset hm
    exact ⟨rfl, rfl, by rw [hc.tree, (Tree.prune_other _ _ _ _).1]⟩

/-- **An eviction gives out the pages of the values it frees.** -/
theorem Evicted.pages {freed : List (List Slot)} (he : Evicted c g c' g' freed)
    (h : WellFormed c.tree g) (hv : ValsPaged c g) :
    (∀ l ∈ freed, Paged c.pageSize l) ∧ ValsPaged c' g' ∧
      (freed.map (pageSet c.pageSize)).sum + c'.nodePages g' = c.nodePages g := by
  induction he with
  | done => exact ⟨fun l hl => absurd hl not_mem_nil, hv, by simp⟩
  | @step c c1 c' g g' p n freed _ hr hc _ ih =>
    have hpage := pageSize_of_params hc.params
    have hv1 : ValsPaged c1 (g.prune n) := by
      intro m hm
      rw [hpage]
      exact hv m (mem_prune.mp hm).2
    obtain ⟨hfreed, hv', hsum⟩ := ih (by rw [hc.tree]; exact h.prune hr) hv1
    rw [hpage] at hfreed hsum
    have hprune := nodeSum_prune (fun _ _ value => pageSet c.pageSize value) h hr hc
    refine ⟨forall_mem_cons.mpr ⟨hv.value h hr.mem hr.edge, hfreed⟩, hv', ?_⟩
    rw [map_cons, sum_cons, add_assoc, hsum, nodePages, hpage]
    exact hprune

lemma Climb.pages {edge step : Int} (hc : Climb edge step g c n c') :
    Keeps c g c' g ∧ c'.nodePages g = c.nodePages g ∧ (ValsPaged c g → ValsPaged c' g) := by
  have hpage := pageSize_of_params hc.params
  refine ⟨⟨hc.params, by rw [hc.tree], fun n _ _ => ⟨rfl, rfl, by rw [hc.tree]⟩⟩, ?_, ?_⟩
  · unfold nodePages nodeSum
    rw [hc.tree, hpage]
  · intro hv
    unfold ValsPaged
    rw [hpage]
    exact hv

lemma Sound.exists_lock (hs : Sound c g locks) (hn : n ∈ g.live) :
    ∃ c' d, c.incLockRef n = some (c', d) ∧
    Sound c' g (n :: locks) ∧ c'.tree = c.tree ∧ Keeps c g c' g ∧ c'.nodePages g = c.nodePages g ∧
    (ValsPaged c g → ValsPaged c' g) := by
  by_cases hdis : c.disable = true
  · have heq : c.incLockRef n = some (c, 0) := by simp [incLockRef, hdis]
    exact ⟨c, 0, heq, hs.lock hn heq, rfl, .refl c g, rfl, id⟩
  · obtain ⟨c', d, heq, hc⟩ := incLockRef_spec hs.wf hn (by simpa using hdis)
    exact ⟨c', d, heq, hs.lock hn heq, hc.tree, hc.pages⟩

lemma Sound.exists_unlock (hs : Sound c g (n :: locks)) : ∃ c' d, c.decLockRef n = some (c', d) ∧
    Sound c' g locks ∧ c'.tree = c.tree ∧ Keeps c g c' g ∧ c'.nodePages g = c.nodePages g ∧
    (ValsPaged c g → ValsPaged c' g) := by
  have hmem : n ∈ n :: locks := mem_cons_self
  rw [← erase_cons_head n locks]
  by_cases hdis : c.disable = true
  · have heq : c.decLockRef n = some (c, 0) := by simp [decLockRef, hdis]
    exact ⟨c, 0, heq, hs.unlock hmem heq, rfl, .refl c g, rfl, id⟩
  · obtain ⟨c', d, heq, hc⟩ := decLockRef_spec hs.wf (hs.locks.live n hmem) (by simpa using hdis)
    exact ⟨c', d, heq, hs.unlock hmem heq, hc.tree, hc.pages⟩

end RadixCache

end Sglang.MemCache
