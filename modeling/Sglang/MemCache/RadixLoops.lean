import Sglang.MemCache.RadixBooks

/-! Locks and eviction.

`Climb` is what the lock loops do, one node after the other up to the root; `Evicted`
is what the eviction loop does, one leaf after the other. Both loops return within
their fuel. -/
namespace Sglang.MemCache

open List Function
open Prefix PrefixMap WellFormed

namespace RadixCache
variable {c c₁ c' : RadixCache} {g g' : Shape}

/-! ### Climbing to the root -/

/-- The counts of a node and of all nodes above it move, from the node up. -/
inductive Climb (edge step : Int) (g : Shape) : RadixCache → NodeId → RadixCache → Prop
  | top {c : RadixCache} : Climb edge step g c c.tree.root c
  | up {c c₁ c' : RadixCache} {p n : NodeId} : n ∈ g.live → n ≠ c.tree.root → Edge c.tree g p n →
    IsBump edge step c c₁ n → Climb edge step g c₁ p c' → Climb edge step g c n c'

namespace Climb
variable {edge step : Int} {n : NodeId}

section
variable (hc : Climb edge step g c n c')
include hc

lemma params : c'.toCacheInitParams = c.toCacheInitParams := by
  induction hc with
  | top => rfl
  | up _ _ _ hb _ ih => exact ih.trans hb.params

lemma tree : c'.tree = c.tree := by
  induction hc with
  | top => rfl
  | up _ _ _ hb _ ih => exact ih.trans hb.tree

lemma leafSound (hl : LeafSound c g) : LeafSound c' g := by
  induction hc with
  | top => exact hl
  | up hn hroot _ hb _ ih => exact ih (hl.bump hn hroot hb)

/-- A climb moves the counts of the nodes that cover its start, by one step each. -/
lemma lockRef (h : WellFormed c.tree g) {m : NodeId} (hm : m ∈ g.live) :
    c'.lockRef m = c.lockRef m + if m ≠ c.tree.root ∧ Covers c.tree g m n then step else 0 := by
  induction hc with
  | @top c =>
    rw [if_neg, add_zero]
    rintro ⟨hroot, _, hpath⟩
    have := h.length_path_pos hm hroot
    rw [h.root_path, prefix_nil] at hpath
    rw [hpath] at this
    exact lt_irrefl _ this
  | @up c c₁ c' p n hn hroot e hb _ ih =>
    have h1 : WellFormed c₁.tree g := by rwa [hb.tree]
    rw [ih h1, hb.tree, hb.lockRef]
    by_cases hmroot : m = c.tree.root
    · have hmn : m ≠ n := fun hmn => hroot (hmn.symm.trans hmroot)
      rw [update_of_ne hmn]
      simp [hmroot]
    · by_cases hmn : m = n
      · subst hmn
        have hself := covers_self c.tree g m
        have hnot := not_covers_parent e
        simp [hmroot, hself, hnot]
      · rw [update_of_ne hmn]
        simp [h.covers_edge hm hn hmroot e, hmn, hmroot]

/-- The books are right after all nodes of a path are bumped. -/
lemma books (h : WellFormed c.tree g) (hb : Books c g)
    (hok : ∀ m ∈ g.live, m ≠ c.tree.root → Covers c.tree g m n →
    Books.MayBump edge step (c.lockRef m)) :
    Books c' g := by
  induction hc with
  | top => exact hb
  | @up c c₁ c' p n hn hroot e hbump _ ih =>
    have h1 : WellFormed c₁.tree g := by rwa [hbump.tree]
    refine ih h1 (hb.bump hn hroot (hok n hn hroot (covers_self _ _ n)) hbump) ?_
    intro m hm hmroot hcov
    rw [hbump.tree] at hmroot hcov
    have hmn : m ≠ n := by
      rintro rfl
      exact not_covers_parent e hcov
    rw [hbump.lockRef, update_of_ne hmn]
    exact hok m hm hmroot ((h.covers_edge hm hn hmroot e).mpr (.inr hcov))

end

end Climb

/-- How many nodes a climb visits. -/
def depth (t : Tree) (g : Shape) (n : NodeId) : Nat :=
  (g.live.filter fun m => m ≠ t.root ∧ Covers t g m n).card

variable {p n : NodeId} {t : Tree}

/-- The parent is nearer to the root, so the loop ends. -/
lemma depth_lt (h : WellFormed t g) (hn : n ∈ g.live) (e : Edge t g p n) :
    depth t g p < depth t g n := by
  apply Finset.card_lt_card
  rw [Finset.ssubset_iff_of_subset]
  · refine ⟨n, ?_, ?_⟩
    · exact Finset.mem_filter.mpr ⟨hn, h.ne_root e, covers_self t g n⟩
    · intro hin
      exact not_covers_parent e (Finset.mem_filter.mp hin).2.2
  · intro m hm
    obtain ⟨hm, hroot, hcov⟩ := Finset.mem_filter.mp hm
    exact Finset.mem_filter.mpr ⟨hm, hroot, (h.covers_edge hm hn hroot e).mpr (.inr hcov)⟩

lemma card_live_le (h : WellFormed t g) : g.live.card ≤ t.counter := by
  have hsub : g.live ⊆ Finset.range t.counter :=
    fun n hn => Finset.mem_range.mpr (h.lt_counter n hn)
  exact (Finset.card_le_card hsub).trans_eq (Finset.card_range _)

lemma depth_le (h : WellFormed t g) (n : NodeId) : depth t g n ≤ t.counter :=
  (Finset.card_filter_le _ _).trans (card_live_le h)

lemma lockRefLoop_root (edge step : Int) (fuel : Nat) (c : RadixCache) (delta : Int) :
    lockRefLoop edge step fuel c c.tree.root delta = some (c, delta) := by
  unfold lockRefLoop
  exact if_pos rfl

/-- With enough fuel the loop bumps the nodes up to the root. -/
lemma lockRefLoop_spec (edge step : Int) (fuel : Nat) (delta : Int) (h : WellFormed c.tree g)
    (hn : n ∈ g.live) (hfuel : depth c.tree g n ≤ fuel) :
    ∃ c' delta', lockRefLoop edge step fuel c n delta = some (c', delta') ∧
    Climb edge step g c n c' := by
  induction fuel generalizing c n delta with
  | zero =>
    by_cases hroot : n = c.tree.root
    · subst hroot
      exact ⟨c, delta, lockRefLoop_root edge step _ c delta, .top⟩
    · obtain ⟨p, e⟩ := h.edge n hn hroot
      have := depth_lt h hn e
      omega
  | succ fuel ih =>
    by_cases hroot : n = c.tree.root
    · subst hroot
      exact ⟨c, delta, lockRefLoop_root edge step _ c delta, .top⟩
    obtain ⟨p, e⟩ := h.edge n hn hroot
    have hlt := depth_lt h hn e
    have hb := bumpLock_spec edge step c n
    have hparent : (c.nodes n).parent = some p := e.parent
    obtain ⟨c', delta', heq, hc⟩ := ih (c := bumpLock edge step c n) (n := p)
      (if (c.nodes n).lockRef = edge then delta - step * (c.nodes n).key.len else delta)
      (by rwa [hb.tree]) e.mem (by rw [hb.tree]; omega)
    refine ⟨c', delta', ?_, .up hn hroot e hb hc⟩
    unfold lockRefLoop
    rw [if_neg (show ¬ n = c.rootNode from hroot), hparent]
    exact heq

/-- `inc_lock_ref` bumps the path of a node. -/
lemma incLockRef_spec (h : WellFormed c.tree g) (hn : n ∈ g.live) (hon : c.disable = false) :
    ∃ c' delta, c.incLockRef n = some (c', delta) ∧ Climb 0 1 g c n c' := by
  rw [incLockRef, hon]
  exact lockRefLoop_spec 0 1 c.counter 0 h hn (depth_le h n)

lemma decLockRef_spec (h : WellFormed c.tree g) (hn : n ∈ g.live) (hon : c.disable = false) :
    ∃ c' delta, c.decLockRef n = some (c', delta) ∧ Climb 1 (-1) g c n c' := by
  rw [decLockRef, hon]
  exact lockRefLoop_spec 1 (-1) c.counter 0 h hn (depth_le h n)

/-! ### Eviction -/

/-- Leaves of the leaf set are removed one after the other; their values are freed. -/
inductive Evicted : RadixCache → Shape → RadixCache → Shape → List (List Slot) → Prop
  | done {c : RadixCache} {g : Shape} : Evicted c g c g []
  | step {c c₁ c' : RadixCache} {g g' : Shape} {p n : NodeId} {freed : List (List Slot)} :
    n ∈ c.evictableLeaves → CanPrune c.tree g p n → IsPrune c c₁ p n →
      Evicted c₁ (g.prune n) c' g' freed →
      Evicted c g c' g' ((c.nodes n).value :: freed)

namespace Evicted
variable {freed : List (List Slot)}

section
variable (he : Evicted c g c' g' freed)
include he

lemma params : c'.toCacheInitParams = c.toCacheInitParams := by
  induction he with
  | done => rfl
  | step _ _ hc _ ih => exact ih.trans hc.params

/-- Evictions keep the tree well formed. -/
lemma wellFormed (h : WellFormed c.tree g) : WellFormed c'.tree g' := by
  induction he with
  | done => exact h
  | step _ hr hc _ ih => exact ih (by rw [hc.tree]; exact h.prune hr)

lemma root : c'.tree.root = c.tree.root := by
  induction he with
  | done => rfl
  | step _ _ hc _ ih => rw [ih, hc.tree]; rfl

lemma live_subset : g'.live ⊆ g.live := by
  induction he with
  | done => exact fun _ hm => hm
  | step _ _ _ _ ih => exact fun _ hm => (Shape.mem_prune.mp (ih hm)).2

/-- What is stored after evictions was stored before. -/
lemma holds (h : WellFormed c.tree g) {ns : Namespace} {u : List KeyUnit}
    {page : List Slot} (hh : Holds c'.tree ns u page) : Holds c.tree ns u page := by
  induction he with
  | done => exact hh
  | step _ hr hc _ ih =>
    have h1 := h.prune hr
    rw [← hc.tree] at h1
    have := ih h1 hh
    rw [hc.tree] at this
    obtain ⟨q, hq, hroot, hns, hu, hpages, rfl⟩ := (h.prune hr).holds_iff.mp this
    rw [(Tree.prune_other _ _ _ q).1] at hns
    exact h.holds_iff.mpr ⟨q, (Shape.mem_prune.mp hq).2, hroot, hns, hu, hpages, rfl⟩

lemma leafSound (hl : LeafSound c g) : LeafSound c' g' := by
  induction he with
  | done => exact hl
  | step _ hr hc _ ih => exact ih (hl.prune hr hc)

lemma books (h : WellFormed c.tree g) (hb : Books c g) : Books c' g' := by
  induction he with
  | done => exact hb
  | step hleaf hr hc _ ih =>
    exact ih (by rw [hc.tree]; exact h.prune hr) (hb.prune h hr ((hb.leaves _).mp hleaf).2.2.2 hc)

lemma lockCount {locks : List NodeId} (h : WellFormed c.tree g) (hb : Books c g)
    (hk : LockCount c g locks) : LockCount c' g' locks := by
  induction he with
  | done => exact hk
  | step hleaf hr hc _ ih =>
    have hlock := ((hb.leaves _).mp hleaf).2.2.2
    exact ih (by rw [hc.tree]; exact h.prune hr) (hb.prune h hr hlock hc) (hk.prune h hr hlock hc)

end

end Evicted

lemma foldl_least_mem (rest : List HeapEntry) (e : HeapEntry) :
    rest.foldl (fun best e => if e.1 < best.1 then e else best) e ∈ e :: rest := by
  induction rest generalizing e with
  | nil => exact mem_singleton.mpr rfl
  | cons x rest ih =>
    rw [foldl_cons]
    have := ih (if x.1 < e.1 then x else e)
    rcases mem_cons.mp this with heq | hmem
    · rw [heq]
      split <;> simp
    · exact mem_cons_of_mem _ (mem_cons_of_mem _ hmem)

variable {e : HeapEntry}

/-- The heap gives one of its entries. -/
lemma heappop_spec {heap rest : List HeapEntry} (hp : heappop heap = some (e, rest)) :
    e ∈ heap ∧ rest = heap.erase e := by
  cases heap with
  | nil => cases hp
  | cons x heap =>
    cases hp
    exact ⟨foldl_least_mem heap x, rfl⟩

variable {heap : List HeapEntry}

/-- What the eviction heap holds: distinct leaves of the leaf set. -/
structure HeapSound (c : RadixCache) (heap : List HeapEntry) : Prop where
  mem : ∀ e ∈ heap, e.2 ∈ c.evictableLeaves
  nodup : (heap.map Prod.snd).Nodup

/-- The heap after a leaf is removed: its parent comes in if it is a leaf now. -/
def nextHeap (c : RadixCache) (p : NodeId) (heap : List HeapEntry) : List HeapEntry :=
  if (c.nodes p).children.entries = [] ∧ (c.nodes p).lockRef = 0 then heap ++ [c.heapEntry p]
    else heap

lemma mem_nextHeap :
    e ∈ nextHeap c p heap ↔ e ∈ heap ∨
    ((c.nodes p).children.entries = [] ∧ (c.nodes p).lockRef = 0) ∧ e = c.heapEntry p := by
  unfold nextHeap
  split <;> simp_all

section

variable (hs : HeapSound c heap) (hl : LeafSound c g)
  (hr : CanPrune c.tree g p n) (hc : IsPrune c c₁ p n) (he : e ∈ heap) (hen : e.2 = n)
include hs hl hr hc he hen

lemma HeapSound.erase : HeapSound c₁ (heap.erase e) ∧ p ∉ (heap.erase e).map Prod.snd := by
  have hperm := perm_cons_erase he
  have hnd : ((e :: heap.erase e).map Prod.snd).Nodup := (hperm.map Prod.snd).nodup_iff.mp hs.nodup
  rw [map_cons, nodup_cons] at hnd
  have hbusy : p ∉ c.evictableLeaves := fun hp =>
    entries_ne_nil hr.edge.lookup (hl.leaf p hp).2.2
  have hother : ∀ x ∈ heap.erase e, x.2 ≠ n ∧ x.2 ≠ p ∧ x.2 ∈ c.evictableLeaves := by
    intro x hx
    have hmem := hs.mem x (mem_of_mem_erase hx)
    refine ⟨?_, fun hxp => hbusy (hxp ▸ hmem), hmem⟩
    intro hxn
    exact hnd.1 (mem_map.mpr ⟨x, hx, hxn.trans hen.symm⟩)
  refine ⟨⟨?_, hnd.2⟩, ?_⟩
  · intro x hx
    obtain ⟨hxn, hxp, hmem⟩ := hother x hx
    rw [hc.leaves hl.nodup, if_neg hxp]
    exact ⟨hxn, hmem⟩
  · intro hp
    obtain ⟨x, hx, hxp⟩ := mem_map.mp hp
    exact (hother x hx).2.1 hxp

/-- The heap is right after the parent of an evicted leaf may have joined it. -/
lemma HeapSound.next : HeapSound c₁ (nextHeap c₁ p (heap.erase e)) := by
  obtain ⟨hs1, hp⟩ := hs.erase hl hr hc he hen
  refine ⟨fun x hx => ?_, ?_⟩
  · obtain hx | ⟨hidle, rfl⟩ := mem_nextHeap.mp hx
    · exact hs1.mem x hx
    · show p ∈ c₁.evictableLeaves
      rw [hc.leaves hl.nodup, if_pos rfl]
      exact ⟨le_of_eq hidle.2, hidle.1⟩
  · unfold nextHeap
    split
    · rw [map_append, nodup_append]
      refine ⟨hs1.nodup, nodup_singleton _, ?_⟩
      intro a ha b hb hab
      obtain rfl : b = p := mem_singleton.mp hb
      exact hp (hab ▸ ha)
    · exact hs1.nodup

end

/-- The eviction loop, one removal after the other: it ends with enough tokens or an empty heap. -/
inductive Evicting (numTokens : Nat) :
    RadixCache → Shape → List HeapEntry → Nat → RadixCache → Shape → List (List Slot) → Prop
  | enough {c : RadixCache} {g : Shape} {heap : List HeapEntry} {numEvicted : Nat} :
    numTokens ≤ numEvicted →
    Evicting numTokens c g heap numEvicted c g []
  | empty {c : RadixCache} {g : Shape} {numEvicted : Nat} :
      Evicting numTokens c g [] numEvicted c g []
  | step {c c₁ c' : RadixCache} {g g' : Shape} {heap : List HeapEntry}
      {e : HeapEntry} {p : NodeId} {numEvicted : Nat}
      {freed : List (List Slot)} :
    heappop heap = some (e, heap.erase e) → e ∈ heap → e.2 ∈ c.evictableLeaves →
      CanPrune c.tree g p e.2 → c.deleteLeaf e.2 = some c₁ →
      IsPrune c c₁ p e.2 →
      Evicting numTokens c₁ (g.prune e.2) (nextHeap c₁ p (heap.erase e))
      (numEvicted + (c.nodes e.2).value.length) c' g' freed →
      Evicting numTokens c g heap numEvicted c' g' ((c.nodes e.2).value :: freed)

lemma Evicting.evicted {numTokens numEvicted : Nat} {freed : List (List Slot)}
    (h : Evicting numTokens c g heap numEvicted c' g' freed) : Evicted c g c' g' freed := by
  induction h with
  | enough => exact .done
  | empty => exact .done
  | step _ _ hleaf hr _ hc _ ih => exact .step hleaf hr hc ih

/-- **The eviction loop returns, having removed leaves only.** -/
theorem evictLoop_spec (numTokens fuel : Nat) (numEvicted : Nat)
    (freed : List (List Slot)) (h : WellFormed c.tree g) (hl : LeafSound c g)
    (hs : HeapSound c heap) (hfuel : g.live.card ≤ fuel) :
    ∃ c' g' fs, evictLoop numTokens fuel c heap numEvicted freed =
        some (c', numEvicted + (fs.map List.length).sum, freed ++ fs) ∧
        Evicting numTokens c g heap numEvicted c' g' fs := by
  induction fuel generalizing c g heap numEvicted freed with
  | zero =>
    have := Finset.card_pos.mpr ⟨_, h.root_mem⟩
    omega
  | succ fuel ih =>
    unfold evictLoop
    by_cases hmore : numEvicted < numTokens
    · rw [if_pos hmore]
      cases hpop : heappop heap with
      | none =>
        cases heap with
        | nil => exact ⟨c, g, [], by simp, .empty⟩
        | cons e heap => cases hpop
      | some er =>
        obtain ⟨e, rest⟩ := er
        obtain ⟨hmem, rfl⟩ := heappop_spec hpop
        have hleaf := hs.mem _ hmem
        obtain ⟨hn, hroot, hnil⟩ := hl.leaf e.2 hleaf
        obtain ⟨p, edge⟩ := h.edge e.2 hn hroot
        have hr : CanPrune c.tree g p e.2 := ⟨hn, edge, hnil⟩
        obtain ⟨c₁, hdel, hc⟩ := deleteLeaf_spec hr
        have h1 : WellFormed c₁.tree (g.prune e.2) := by rw [hc.tree]; exact h.prune hr
        have hparent : (c.nodes e.2).parent = some p := edge.parent
        have hcard : (g.prune e.2).live.card ≤ fuel := by
          have := Finset.card_erase_of_mem hn
          simp only [Shape.prune]
          omega
        obtain ⟨c', g', fs, heq, he⟩ := ih (numEvicted + (c.nodes e.2).value.length)
          (freed ++ [(c.nodes e.2).value]) h1 (hl.prune hr hc) (hs.next hl hr hc hmem rfl) hcard
        refine ⟨c', g', (c.nodes e.2).value :: fs, ?_, .step hpop hmem hleaf hr hdel hc he⟩
        simp only [hparent, hdel]
        rw [nextHeap] at heq
        rw [heq, map_cons, sum_cons, append_assoc, add_assoc]
        rfl
    · rw [if_neg hmore]
      exact ⟨c, g, [], by simp, .enough (Nat.le_of_not_lt hmore)⟩

lemma heapSound_leaves (hl : LeafSound c g) : HeapSound c (c.evictableLeaves.map c.heapEntry) := by
  refine ⟨?_, ?_⟩
  · intro e he
    obtain ⟨n, hn, rfl⟩ := mem_map.mp he
    exact hn
  · rw [map_map]
    exact (map_id' c.evictableLeaves).symm ▸ hl.nodup

lemma evict_steps (numTokens : Nat) (h : WellFormed c.tree g) (hl : LeafSound c g) :
    ∃ c' g' fs, c.evict numTokens = some (c', (fs.map List.length).sum, fs) ∧
      if c.disable then c' = c ∧ g' = g ∧ fs = [] else Evicting numTokens c g
      (c.evictableLeaves.map c.heapEntry) 0 c' g' fs := by
  unfold evict
  split
  · exact ⟨c, g, [], rfl, rfl, rfl, rfl⟩
  · obtain ⟨c', g', fs, heq, he⟩ :=
      evictLoop_spec numTokens c.counter 0 [] h hl (heapSound_leaves hl) (card_live_le h)
    exact ⟨c', g', fs, by rw [heq, zero_add, nil_append], he⟩

/-- An eviction takes leaves until the tokens are found or no leaf is left. -/
lemma evict_spec (numTokens : Nat) (h : WellFormed c.tree g) (hl : LeafSound c g) :
    ∃ c' g' fs, c.evict numTokens = some (c', (fs.map List.length).sum, fs) ∧
    Evicted c g c' g' fs := by
  obtain ⟨c', g', fs, heq, he⟩ := evict_steps numTokens h hl
  refine ⟨c', g', fs, heq, ?_⟩
  split at he
  · obtain ⟨rfl, rfl, rfl⟩ := he
    exact .done
  · exact he.evicted

end RadixCache

end Sglang.MemCache
