import Mathlib.Algebra.BigOperators.Group.Finset.Basic
import Sglang.MemCache.RadixWalk

/-! The bookkeeping of a radix cache.

Beside the tree a cache keeps the set of leaves it may evict, the sizes of its
evictable and its protected part, and a lock count per node. `LeafSound` is what
eviction needs of the leaf set whatever the locks are; `Books` says that leaf set and
sizes are exact; `LockCount` says that a node's count is the number of outstanding
locks at or under it. Each is kept by each of the five changes. -/
namespace Sglang.MemCache

open List Function Finset
open Prefix PrefixMap Shape Sglang.MemCache.Tree

/-- A node is at or above a locked node, in labels. -/
def Covers (t : Tree) (g : Shape) (n l : NodeId) : Prop :=
  (t.node n).key.ns = (t.node l).key.ns ∧ g.path n <+: g.path l

instance (t : Tree) (g : Shape) (n l : NodeId) : Decidable (Covers t g n l) :=
  inferInstanceAs (Decidable (_ ∧ _))

variable {t : Tree} {g : Shape} {p n m l : NodeId} {s : Nat} {key : RadixKey} {value : List Slot}

lemma entries_ne_nil {k : ChildKey} (h : (t.node p).children.lookup k = some n) :
    (t.node p).children.entries ≠ [] := by
  intro hnil
  rw [lookup_of_leaf hnil] at h
  cases h

namespace WellFormed

/-- Away from the root, being above and covering are the same. -/
lemma subtree_iff_covers (h : WellFormed t g) (hn : n ∈ g.live) (hl : l ∈ g.live)
    (hroot : n ≠ t.root) : Subtree t n l ↔ Covers t g n l := by
  constructor
  · intro hs
    obtain ⟨_, hpath, _, hns⟩ := h.subtree_spec hn hs
    exact ⟨hns.resolve_left hroot, hpath⟩
  · rintro ⟨hns, hpath⟩
    exact h.subtree_of_prefix hn hl hpath (.inr hns)

/-- Above a node are the node itself and what is above its parent. -/
lemma covers_edge (h : WellFormed t g) (hm : m ∈ g.live) (hn : n ∈ g.live)
    (hroot : m ≠ t.root) (e : Edge t g p n) : Covers t g m n ↔ m = n ∨ Covers t g m p := by
  constructor
  · intro hc
    have hs := (h.subtree_iff_covers hm hn hroot).mpr hc
    cases hs.cases_tail with
    | inl heq => exact .inl heq.symm
    | inr hq =>
      obtain ⟨q, hmq, k, hk⟩ := hq
      obtain ⟨hq, _⟩ := h.subtree_spec hm hmq
      obtain ⟨_, _, eq, _⟩ := h.edge_of_lookup hq hk
      obtain rfl := e.parent_unique eq.parent
      exact .inr ((h.subtree_iff_covers hm hq hroot).mp hmq)
  · rintro (rfl | hc)
    · exact ⟨rfl, prefix_rfl⟩
    · exact (h.subtree_iff_covers hm hn hroot).mp
        (((h.subtree_iff_covers hm e.mem hroot).mpr hc).tail ⟨_, e.lookup⟩)

/-- A node is not above its parent. -/
lemma not_covers_parent (e : Edge t g p n) : ¬ Covers t g n p := by
  rintro ⟨_, hpath⟩
  have := hpath.length_le
  have := e.length_path_lt
  omega

lemma covers_self (t : Tree) (g : Shape) (n : NodeId) : Covers t g n n := ⟨rfl, prefix_rfl⟩

end WellFormed

/-! ### Covering through the changes -/

lemma covers_prune : Covers (t.prune p n) (g.prune n) m l ↔ Covers t g m l := by
  unfold Covers
  rw [(prune_other t p n m).1, (prune_other t p n l).1]
  rfl

section Changes
variable (h : WellFormed t g)
include h

/-- A split leaves what was above a node above it. -/
lemma covers_split_old (hs : CanSplit t g p n s) (hm : m ∈ g.live)
    (hl : l ∈ g.live) : Covers (t.split p n s) (g.split t p n s) m l ↔ Covers t g m l := by
  have hm := h.ne_counter hm
  have hl := h.ne_counter hl
  unfold Covers
  rw [hs.ns_eq hm, hs.ns_eq hl, split_path hm, split_path hl]

/-- The upper part is above whatever the node was above. -/
lemma covers_split_new (hs : CanSplit t g p n s) (hl : l ∈ g.live) :
    Covers (t.split p n s) (g.split t p n s) t.counter l ↔ Covers t g n l := by
  have h' := h.split hs
  have hc : t.counter ∈ (g.split t p n s).live := mem_split.mpr (.inl rfl)
  have hn : n ∈ (g.split t p n s).live := mem_split.mpr (.inr hs.mem)
  have hl' : l ∈ (g.split t p n s).live := mem_split.mpr (.inr hl)
  have hcroot : t.counter ≠ (t.split p n s).root := (h.ne_counter h.root_mem).symm
  rw [← covers_split_old h hs hs.mem hl, ← h'.subtree_iff_covers hc hl' hcroot,
    ← h'.subtree_iff_covers hn hl' (h.ne_root hs.edge)]
  constructor
  · intro hsub
    cases hsub.cases_head with
    | inl heq => exact absurd heq.symm (h.ne_counter hl)
    | inr hm =>
      -- the old node is the only child of the new one
      obtain ⟨m, ⟨k, hk⟩, hml⟩ := hm
      rw [split_new h hs, lookup_singleton_ite] at hk
      split at hk
      · cases hk
        exact hml
      · cases hk
  · intro hsub
    exact .head ⟨_, (hs.edge_lower h).lookup⟩ hsub

lemma covers_graft_old (hm : m ∈ g.live) (hl : l ∈ g.live) :
    Covers (t.graft p key value) (g.graft t p key value) m l ↔ Covers t g m l := by
  have hm := h.ne_counter hm
  have hl := h.ne_counter hl
  unfold Covers
  rw [(graft_other t p key value hm).1, (graft_other t p key value hl).1,
    graft_path hm, graft_path hl]

/-- A new leaf is above nothing that was there. -/
lemma not_covers_graft_new (ha : CanGraft t g p key value)
    (hl : l ∈ g.live) : ¬ Covers (t.graft p key value) (g.graft t p key value) t.counter l := by
  rintro ⟨hns, hpath⟩
  have hlc := h.ne_counter hl
  rw [graft_new h ha, (graft_other t p key value hlc).1] at hns
  rw [graft_path_new, graft_path hlc] at hpath
  have hlen : (g.path p ++ key.iter).length = (g.path p).length + key.len := by
    rw [length_append, RadixKey.length_iter]
  have hpos := ha.len_pos
  have hroot : l ≠ t.root := by
    rintro rfl
    have := hpath.length_le
    rw [h.root_path, hlen, length_nil] at this
    omega
  have hpages : IsPages t.pageSize (g.path p ++ key.iter) := by
    refine ⟨?_, ?_⟩
    · intro hnil
      rw [hnil, length_nil] at hlen
      omega
    · rw [hlen]
      exact Nat.dvd_add (h.page_dvd_path ha.mem) ha.aligned
  have :=
    h.stuck ha.mem ha.ns ha.free (h.holds_iff.mpr ⟨l, hl, hroot, hns.symm,
    hpath, hpages, rfl⟩) prefix_rfl
  omega

/-! ### Childlessness through the changes -/

/-- A split makes no leaf and takes none. -/
lemma childless_split (hs : CanSplit t g p n s) (hm : m ∈ g.live) :
    ((t.split p n s).node m).children.entries = [] ↔ (t.node m).children.entries = [] := by
  have hc := h.ne_counter hm
  by_cases hmp : m = p
  · subst hmp
    constructor
    · intro hnil
      have hl := (hs.edge_upper h).lookup
      exact absurd hnil (entries_ne_nil hl)
    · intro hnil
      exact absurd hnil (entries_ne_nil hs.edge.lookup)
  · by_cases hmn : m = n
    · rw [hmn, Tree.split_lower hs]
    · simp [Tree.split, hc, hmp, hmn]

/-- A graft makes its parent an inner node and leaves the other leaves. -/
lemma childless_graft (ha : CanGraft t g p key value) (hm : m ∈ g.live) :
    ((t.graft p key value).node m).children.entries = [] ↔
    m ≠ p ∧ (t.node m).children.entries = [] := by
  have hc := h.ne_counter hm
  by_cases hmp : m = p
  · subst hmp
    have hl := (ha.edge_new h).lookup
    simp [entries_ne_nil hl]
  · simp [Tree.graft, hc, hmp]

lemma childless_graft_new (ha : CanGraft t g p key value) :
    ((t.graft p key value).node t.counter).children.entries = [] := by
  rw [graft_new h ha]
  rfl

end Changes

namespace RadixCache
variable {c c' : RadixCache} {edge step : Int}

/-! ### Leaves that may be evicted -/

/-- The leaf set holds childless nodes of the tree. -/
structure LeafSound (c : RadixCache) (g : Shape) : Prop where
  root_lock : c.lockRef c.tree.root = 1
  nodup : c.evictableLeaves.Nodup
  leaf : ∀ n ∈ c.evictableLeaves, n ∈ g.live ∧ n ≠ c.tree.root ∧
    (c.tree.node n).children.entries = []

namespace LeafSound

section
variable (hl : LeafSound c g)
include hl

/-- Changes that the tree does not see keep the set of leaves right. -/
lemma quiet (hq : Quiet c c') : LeafSound c' g := by
  refine ⟨?_, ?_, ?_⟩
  · rw [hq.lockRef, hq.tree]
    exact hl.root_lock
  · rw [hq.evictableLeaves]
    exact hl.nodup
  · rw [hq.evictableLeaves, hq.tree]
    exact hl.leaf

/-- Both parts of a split leaf are accounted for. -/
lemma split (h : WellFormed c.tree g)
    (hs : CanSplit c.tree g p n s) (hc : IsSplit c c' p n s) :
    LeafSound c' (g.split c.tree p n s) := by
  have hroot : c.tree.root ≠ c.counter := h.ne_counter h.root_mem
  refine ⟨?_, ?_, ?_⟩
  · rw [hc.lockRef, hc.tree]
    exact (update_of_ne hroot ..).trans hl.root_lock
  · rw [hc.evictableLeaves]
    exact hl.nodup
  · intro m hm
    rw [hc.evictableLeaves] at hm
    obtain ⟨hlive, hmroot, hnil⟩ := hl.leaf m hm
    rw [hc.tree]
    exact ⟨mem_split.mpr (.inr hlive), hmroot, (childless_split h hs hlive).mpr hnil⟩

lemma reshape {g' : Shape} (h : WellFormed c.tree g) (hr : Reshape c g c' g') :
    LeafSound c' g' := by
  induction hr with
  | quiet hq => exact hl.quiet hq
  | split hs hc => exact hl.split h hs hc
  | trans hr _ ih ih' => exact ih' (ih hl h) (hr.wellFormed h)

/-- The new leaf may join the set, its parent leaves it. -/
lemma graft (h : WellFormed c.tree g) (ha : CanGraft c.tree g p key value)
    (hc : IsGraft c c' p key value) :
    LeafSound c' (g.graft c.tree p key value) := by
  have hroot : c.tree.root ≠ c.counter := h.ne_counter h.root_mem
  refine ⟨?_, hc.nodup hl.nodup, ?_⟩
  · rw [hc.lockRef, hc.tree]
    exact (update_of_ne hroot ..).trans hl.root_lock
  · intro m hm
    rw [hc.tree]
    rcases (hc.leaves hl.nodup m).mp hm with rfl | ⟨hmp, hm⟩
    · exact ⟨mem_graft.mpr (.inl rfl), Ne.symm hroot, childless_graft_new h ha⟩
    · obtain ⟨hlive, hmroot, hnil⟩ := hl.leaf m hm
      exact ⟨mem_graft.mpr (.inr hlive), hmroot, (childless_graft h ha hlive).mpr ⟨hmp, hnil⟩⟩

/-- The parent of an evicted leaf may become one. -/
lemma prune (hr : CanPrune c.tree g p n) (hc : IsPrune c c' p n) : LeafSound c' (g.prune n) := by
  refine ⟨?_, hc.nodup hl.nodup, ?_⟩
  · rw [hc.lockRef, hc.tree]
    exact hl.root_lock
  · intro m hm
    rw [hc.leaves hl.nodup] at hm
    split at hm
    · next hmp =>
      subst hmp
      refine ⟨mem_prune.mpr ⟨WellFormed.ne_of_edge hr.edge, hr.edge.mem⟩, ?_, hm.2⟩
      rintro hroot
      have hlock := hm.1
      rw [hroot, hc.lockRef, hc.tree, show (c.tree.prune m n).root = c.tree.root from
        rfl, hl.root_lock] at hlock
      omega
    · next hmp =>
      obtain ⟨hlive, hmroot, hnil⟩ := hl.leaf m hm.2
      rw [hc.tree]
      exact ⟨mem_prune.mpr ⟨hm.1, hlive⟩, hmroot, by simpa [Tree.prune, hmp] using hnil⟩

/-- A lock takes its node out of the set, the last unlock puts it back. -/
lemma bump (hn : n ∈ g.live) (hroot : n ≠ c.tree.root)
    (hc : IsBump edge step c c' n) : LeafSound c' g := by
  refine ⟨?_, hc.nodup hl.nodup, ?_⟩
  · rw [hc.lockRef, hc.tree]
    exact (update_of_ne (Ne.symm hroot) ..).trans hl.root_lock
  · intro m hm
    rw [hc.leaves hl.nodup] at hm
    split at hm
    · next hmn =>
      subst hmn
      exact ⟨hn, by rw [hc.tree]; exact hroot, hm.2⟩
    · rw [hc.tree]
      exact hl.leaf m hm

end

end LeafSound

/-! ### Sums over the nodes -/

/-- What the nodes under the root add up to, each weighed by its lock count, key and value. -/
def nodeSum {M : Type*} [AddCommMonoid M] (c : RadixCache) (g : Shape)
    (w : Int → RadixKey → List Slot → M) : M :=
  ∑ n ∈ g.live.erase c.tree.root, w (c.lockRef n) (c.tree.node n).key (c.tree.node n).value

section Sums
variable {M : Type*} [AddCommMonoid M] (w : Int → RadixKey → List Slot → M)

lemma nodeSum_quiet (hq : Quiet c c') : c'.nodeSum g w = c.nodeSum g w := by
  unfold nodeSum
  rw [hq.tree, hq.lockRef]

lemma erase_insert_root (h : WellFormed t g) :
    (Insert.insert t.counter g.live).erase t.root = Insert.insert t.counter (g.live.erase t.root) ∧
      t.counter ∉ g.live.erase t.root :=
  ⟨erase_insert_of_ne (h.ne_counter h.root_mem).symm,
    fun hin => h.ne_counter (mem_of_mem_erase hin) rfl⟩

/-- A sum over nodes does not change in a split if the two parts weigh what the node did. -/
lemma nodeSum_split (h : WellFormed c.tree g) (hs : CanSplit c.tree g p n s)
    (hc : IsSplit c c' p n s)
    (hw : w (c.lockRef n) ((c.tree.node n).key.upto s) ((c.tree.node n).value.take s) +
      w (c.lockRef n) ((c.tree.node n).key.since s) ((c.tree.node n).value.drop s) =
        w (c.lockRef n) (c.tree.node n).key (c.tree.node n).value) :
    c'.nodeSum (g.split c.tree p n s) w = c.nodeSum g w := by
  obtain ⟨hset, hnew⟩ := erase_insert_root h
  have hmem : n ∈ g.live.erase c.tree.root := mem_erase.mpr ⟨h.ne_root hs.edge, hs.mem⟩
  have hlock : c'.lockRef c.tree.counter = c.lockRef n := hc.lockRef_new
  unfold nodeSum
  have hset' : (g.split c.tree p n s).live.erase c'.tree.root = Insert.insert c.tree.counter
      (g.live.erase c.tree.root) := by
    rw [hc.tree]
    exact hset
  rw [hset', sum_insert hnew, ← add_sum_erase _ _ hmem, ← add_sum_erase _ _ hmem, ← add_assoc]
  congr 1
  · rw [hlock, hc.lockRef_old (h.ne_counter hs.mem), hc.tree, split_new h hs, Tree.split_lower hs]
    exact hw
  · apply sum_congr rfl
    intro m hm
    obtain ⟨hmn, hm⟩ := mem_erase.mp hm
    have hmc := h.ne_counter (mem_of_mem_erase hm)
    obtain ⟨hkey, _, hvalue⟩ := split_other c.tree p s hmc hmn
    rw [hc.lockRef_old hmc, hc.tree, hkey, hvalue]

/-- A graft adds the weight of the new leaf. -/
lemma nodeSum_graft (h : WellFormed c.tree g)
    (ha : CanGraft c.tree g p key value) (hc : IsGraft c c' p key value) :
    c'.nodeSum (g.graft c.tree p key value) w = c.nodeSum g w + w 0 key value := by
  obtain ⟨hset, hnew⟩ := erase_insert_root h
  have hlock : c'.lockRef c.tree.counter = 0 := hc.lockRef_new
  unfold nodeSum
  have hset' : (g.graft c.tree p key value).live.erase c'.tree.root = Insert.insert c.tree.counter
      (g.live.erase c.tree.root) := by
    rw [hc.tree]
    exact hset
  rw [hset', sum_insert hnew, add_comm, hlock, hc.tree, graft_new h ha]
  congr 1
  apply sum_congr rfl
  intro m hm
  have hmc := h.ne_counter (mem_of_mem_erase hm)
  obtain ⟨hkey, _, hvalue⟩ := graft_other c.tree p key value hmc
  rw [hc.lockRef_old hmc, hkey, hvalue]

/-- Eviction takes off the weight of the leaf. -/
lemma nodeSum_prune (h : WellFormed c.tree g) (hr : CanPrune c.tree g p n) (hc : IsPrune c c' p n) :
    w (c.lockRef n) (c.tree.node n).key (c.tree.node n).value + c'.nodeSum
    (g.prune n) w = c.nodeSum g w := by
  have hmem : n ∈ g.live.erase c.tree.root := mem_erase.mpr ⟨h.ne_root hr.edge, hr.mem⟩
  have hset : (g.prune n).live.erase c'.tree.root = (g.live.erase c.tree.root).erase n := by
    rw [hc.tree]
    exact erase_right_comm
  unfold nodeSum
  rw [hset, ← add_sum_erase _ _ hmem]
  congr 1
  apply sum_congr rfl
  intro m _
  obtain ⟨hkey, _, hvalue⟩ := prune_other c.tree p n m
  rw [hc.lockRef, hc.tree, hkey, hvalue]

/-- A lock changes the weight of one node. -/
lemma nodeSum_bump (hn : n ∈ g.live) (hroot : n ≠ c.tree.root) (hc : IsBump edge step c c' n) :
    w (c.lockRef n) (c.tree.node n).key (c.tree.node n).value + c'.nodeSum g w =
      w (c.lockRef n + step) (c.tree.node n).key (c.tree.node n).value + c.nodeSum g w := by
  have hmem : n ∈ g.live.erase c.tree.root := mem_erase.mpr ⟨hroot, hn⟩
  unfold nodeSum
  rw [hc.tree, hc.lockRef, ← add_sum_erase _ _ hmem, ← add_sum_erase _ _ hmem,
    update_self, add_left_comm]
  congr 2
  apply sum_congr rfl
  intro m hm
  rw [update_of_ne (ne_of_mem_erase hm)]

end Sums

/-- The units of the nodes whose lock count is as said. -/
def sizeWhere (c : RadixCache) (g : Shape) (P : Int → Prop) [DecidablePred P] : Int :=
  c.nodeSum g fun k key _ => if P k then (key.len : Int) else 0

variable (P : Int → Prop) [DecidablePred P]

/-- The sizes of locked and of unlocked nodes survive a split. -/
lemma sizeWhere_split (h : WellFormed c.tree g)
    (hs : CanSplit c.tree g p n s) (hc : IsSplit c c' p n s) :
    c'.sizeWhere (g.split c.tree p n s) P = c.sizeWhere g P := by
  apply nodeSum_split _ h hs hc
  rw [RadixKey.len_upto, RadixKey.len_since]
  split
  · omega
  · rfl

lemma sizeWhere_prune (h : WellFormed c.tree g)
    (hr : CanPrune c.tree g p n) (hc : IsPrune c c' p n) :
    (if P (c.lockRef n) then ((c.tree.node n).key.len : Int) else 0) + c'.sizeWhere (g.prune n) P =
      c.sizeWhere g P :=
  nodeSum_prune (fun k key _ => if P k then (key.len : Int) else 0) h hr hc

lemma sizeWhere_bump (hn : n ∈ g.live)
    (hroot : n ≠ c.tree.root) (hc : IsBump edge step c c' n) :
    (if P (c.lockRef n) then ((c.tree.node n).key.len : Int) else 0) + c'.sizeWhere g P =
      (if P (c.lockRef n + step) then ((c.tree.node n).key.len : Int) else 0) + c.sizeWhere g P :=
  nodeSum_bump (fun k key _ => if P k then (key.len : Int) else 0) hn hroot hc

/-! ### Exact books -/

/-- Leaf set and sizes are exact. -/
structure Books (c : RadixCache) (g : Shape) : Prop where
  root_lock : c.lockRef c.tree.root = 1
  nonneg : ∀ n ∈ g.live, 0 ≤ c.lockRef n
  evictable : c.evictableSize = c.sizeWhere g (· = 0)
  protected_ : c.protectedSize = c.sizeWhere g (0 < ·)
  nodup : c.evictableLeaves.Nodup
  leaves : ∀ n, n ∈ c.evictableLeaves ↔ n ∈ g.live ∧ n ≠ c.tree.root ∧
    (c.tree.node n).children.entries = [] ∧ c.lockRef n = 0

namespace Books

section
variable (hb : Books c g)
include hb

lemma leafSound : LeafSound c g :=
  ⟨hb.root_lock, hb.nodup, fun n hn =>
    have ⟨hlive, hroot, hnil, _⟩ := (hb.leaves n).mp hn
    ⟨hlive, hroot, hnil⟩⟩

/-- The books are right after a change that the tree does not see. -/
lemma quiet (hq : Quiet c c') : Books c' g := by
  refine ⟨?_, ?_, ?_, ?_, ?_, ?_⟩
  · rw [hq.lockRef, hq.tree]; exact hb.root_lock
  · rw [hq.lockRef]; exact hb.nonneg
  · rw [hq.evictableSize, sizeWhere, nodeSum_quiet _ hq]; exact hb.evictable
  · rw [hq.protectedSize, sizeWhere, nodeSum_quiet _ hq]; exact hb.protected_
  · rw [hq.evictableLeaves]; exact hb.nodup
  · rw [hq.evictableLeaves, hq.tree, hq.lockRef]; exact hb.leaves

section
variable (h : WellFormed c.tree g)
include h

/-- They are right after a split. -/
lemma split (hs : CanSplit c.tree g p n s) (hc : IsSplit c c' p n s) :
    Books c' (g.split c.tree p n s) := by
  have hl := hb.leafSound.split h hs hc
  refine ⟨hl.root_lock, ?_, ?_, ?_, hl.nodup, ?_⟩
  · intro m hm
    rcases mem_split.mp hm with rfl | hm
    · exact (hb.nonneg n hs.mem).trans_eq hc.lockRef_new.symm
    · rw [hc.lockRef_old (h.ne_counter hm)]
      exact hb.nonneg m hm
  · rw [hc.evictableSize, sizeWhere_split _ h hs hc]
    exact hb.evictable
  · rw [hc.protectedSize, sizeWhere_split _ h hs hc]
    exact hb.protected_
  · intro m
    rw [hc.evictableLeaves, hb.leaves, hc.tree]
    constructor
    · rintro ⟨hlive, hroot, hnil, hlock⟩
      refine ⟨mem_split.mpr (.inr hlive), hroot, (childless_split h hs hlive).mpr hnil, ?_⟩
      rw [hc.lockRef_old (h.ne_counter hlive)]
      exact hlock
    · rintro ⟨hlive, hroot, hnil, hlock⟩
      rcases mem_split.mp hlive with rfl | hlive
      · exact absurd hnil (by rw [Tree.split_new h hs]; simp)
      · rw [hc.lockRef_old (h.ne_counter hlive)] at hlock
        exact ⟨hlive, hroot, (childless_split h hs hlive).mp hnil, hlock⟩

lemma reshape {g' : Shape} (hr : Reshape c g c' g') : Books c' g' := by
  induction hr with
  | quiet hq => exact hb.quiet hq
  | split hs hc => exact hb.split h hs hc
  | trans hr _ ih ih' => exact ih' (ih hb h) (hr.wellFormed h)

/-- A graft adds its length to the evictable size. -/
lemma graft (ha : CanGraft c.tree g p key value) (hc : IsGraft c c' p key value) :
    Books c' (g.graft c.tree p key value) := by
  have hl := hb.leafSound.graft h ha hc
  refine ⟨hl.root_lock, ?_, ?_, ?_, hl.nodup, ?_⟩
  · intro m hm
    rcases mem_graft.mp hm with rfl | hm
    · exact hc.lockRef_new.ge
    · rw [hc.lockRef_old (h.ne_counter hm)]
      exact hb.nonneg m hm
  · rw [hc.evictableSize, sizeWhere, nodeSum_graft _ h ha hc, hb.evictable]
    rfl
  · rw [hc.protectedSize, sizeWhere, nodeSum_graft _ h ha hc, hb.protected_]
    simp [sizeWhere]
  · intro m
    rw [hc.leaves hb.nodup, hb.leaves, hc.tree]
    constructor
    · rintro (rfl | ⟨hmp, hlive, hroot, hnil, hlock⟩)
      · exact ⟨mem_graft.mpr (.inl rfl), (h.ne_counter h.root_mem).symm,
          childless_graft_new h ha, hc.lockRef_new⟩
      · refine ⟨mem_graft.mpr (.inr hlive), hroot, (childless_graft h ha hlive).mpr ⟨hmp, hnil⟩, ?_⟩
        rw [hc.lockRef_old (h.ne_counter hlive)]
        exact hlock
    · rintro ⟨hlive, hroot, hnil, hlock⟩
      rcases mem_graft.mp hlive with rfl | hlive
      · exact .inl rfl
      · rw [hc.lockRef_old (h.ne_counter hlive)] at hlock
        obtain ⟨hmp, hnil⟩ := (childless_graft h ha hlive).mp hnil
        exact .inr ⟨hmp, hlive, hroot, hnil, hlock⟩

/-- Eviction takes the length of an unlocked leaf off the evictable size. -/
lemma prune (hr : CanPrune c.tree g p n) (hlock : c.lockRef n = 0) (hc : IsPrune c c' p n) :
    Books c' (g.prune n) := by
  have hl := hb.leafSound.prune hr hc
  refine ⟨hl.root_lock, ?_, ?_, ?_, hl.nodup, ?_⟩
  · intro m hm
    rw [hc.lockRef]
    exact hb.nonneg m (mem_prune.mp hm).2
  · have hsum := sizeWhere_prune (· = 0) h hr hc
    rw [if_pos hlock] at hsum
    rw [hc.evictableSize, hb.evictable, ← hsum]
    exact add_sub_cancel_left _ _
  · have hsum := sizeWhere_prune (0 < ·) h hr hc
    rw [if_neg (by omega), zero_add] at hsum
    rw [hc.protectedSize, hb.protected_, hsum]
  · intro m
    constructor
    · intro hm
      obtain ⟨hlive, hroot, hnil⟩ := hl.leaf m hm
      refine ⟨hlive, hroot, hnil, ?_⟩
      rw [hc.leaves hb.nodup] at hm
      split at hm
      · next hmp =>
        have hle : c'.lockRef m ≤ 0 := hmp ▸ hm.1
        have hge := hb.nonneg m (mem_prune.mp hlive).2
        rw [hc.lockRef] at hle ⊢
        omega
      · rw [hc.lockRef]
        exact ((hb.leaves m).mp hm.2).2.2.2
    · rintro ⟨hlive, hroot, hnil, hzero⟩
      obtain ⟨hmn, hlive⟩ := mem_prune.mp hlive
      rw [hc.leaves hb.nodup]
      split
      · next hmp => exact hmp ▸ ⟨hzero.le, hnil⟩
      · next hmp =>
        rw [hc.tree] at hroot hnil
        simp only [Tree.prune, update_of_ne hmp] at hnil
        rw [hc.lockRef] at hzero
        exact ⟨hmn, (hb.leaves m).mpr ⟨hlive, hroot, hnil, hzero⟩⟩

end

end

/-- Locking moves a count up from 0; unlocking moves a positive count down, past 1. -/
def MayBump (edge step count : Int) : Prop :=
  (edge = 0 ∧ step = 1) ∨ (edge = 1 ∧ step = -1 ∧ 1 ≤ count)

/-- A first lock moves the length of a node to the protected size, the last unlock moves it back. -/
lemma bump (hb : Books c g) (hn : n ∈ g.live) (hroot : n ≠ c.tree.root)
    (hok : MayBump edge step (c.lockRef n)) (hc : IsBump edge step c c' n) : Books c' g := by
  have hl := hb.leafSound.bump hn hroot hc
  have hpos := hb.nonneg n hn
  have hnew : c'.lockRef n = c.lockRef n + step := by rw [hc.lockRef, update_self]
  have hold : ∀ m, m ≠ n → c'.lockRef m = c.lockRef m := fun m hm => by
    rw [hc.lockRef, update_of_ne hm]
  refine ⟨hl.root_lock, ?_, ?_, ?_, hl.nodup, ?_⟩
  · intro m hm
    by_cases hmn : m = n
    · rw [hmn, hnew]
      rcases hok with ⟨_, rfl⟩ | ⟨_, rfl, _⟩ <;> omega
    · rw [hold m hmn]
      exact hb.nonneg m hm
  · have hsum := sizeWhere_bump (· = 0) hn hroot hc
    have hlen : (c.nodes n).key = (c.tree.node n).key := rfl
    rw [hc.evictableSize, hb.evictable, hlen]
    rcases hok with ⟨rfl, rfl⟩ | ⟨rfl, rfl, _⟩ <;> split_ifs at hsum ⊢ <;> omega
  · have hsum := sizeWhere_bump (0 < ·) hn hroot hc
    have hlen : (c.nodes n).key = (c.tree.node n).key := rfl
    rw [hc.protectedSize, hb.protected_, hlen]
    rcases hok with ⟨rfl, rfl⟩ | ⟨rfl, rfl, _⟩ <;> split_ifs at hsum ⊢ <;> omega
  · intro m
    rw [hc.leaves hb.nodup, hc.tree]
    by_cases hmn : m = n
    · subst hmn
      rw [if_pos rfl]
      have hkids : (c'.nodes m).children = (c.tree.node m).children := by rw [← hc.tree]; rfl
      constructor
      · rintro ⟨hle, hnil⟩
        rw [hkids] at hnil
        refine ⟨hn, hroot, hnil, ?_⟩
        rw [hnew] at hle ⊢
        rcases hok with ⟨_, rfl⟩ | ⟨_, rfl, _⟩ <;> omega
      · rintro ⟨_, _, hnil, hzero⟩
        exact ⟨hzero.le, by rw [hkids]; exact hnil⟩
    · rw [if_neg hmn, hb.leaves, hold m hmn]

end Books

/-! ### Lock counts -/

/-- Every count is the number of locks at or under the node. -/
structure LockCount (c : RadixCache) (g : Shape) (locks : List NodeId) : Prop where
  live : ∀ l ∈ locks, l ∈ g.live
  count : ∀ n ∈ g.live, n ≠ c.tree.root → c.lockRef n = locks.countP fun l => Covers c.tree g n l

namespace LockCount
variable {locks : List NodeId}

section
variable (hk : LockCount c g locks)
include hk

lemma quiet (hq : Quiet c c') : LockCount c' g locks := by
  refine ⟨hk.live, ?_⟩
  rw [hq.lockRef, hq.tree]
  exact hk.count

/-- The upper part of a split node is on the paths of the same locks. -/
lemma split (h : WellFormed c.tree g)
    (hs : CanSplit c.tree g p n s) (hc : IsSplit c c' p n s) :
    LockCount c' (g.split c.tree p n s) locks := by
  refine ⟨fun l hl => mem_split.mpr (.inr (hk.live l hl)), ?_⟩
  intro m hm hroot
  rw [hc.tree] at hroot ⊢
  rcases mem_split.mp hm with rfl | hm
  · rw [show c.tree.counter = c.counter from rfl, hc.lockRef_new,
      hk.count n hs.mem (h.ne_root hs.edge)]
    refine congrArg Nat.cast (countP_congr fun l hl => ?_)
    simp only [decide_eq_true_eq]
    exact (covers_split_new h hs (hk.live l hl)).symm
  · rw [hc.lockRef_old (h.ne_counter hm), hk.count m hm hroot]
    refine congrArg Nat.cast (countP_congr fun l hl => ?_)
    simp only [decide_eq_true_eq]
    exact (covers_split_old h hs hm (hk.live l hl)).symm

lemma reshape {g' : Shape} (h : WellFormed c.tree g) (hr : Reshape c g c' g') :
    LockCount c' g' locks := by
  induction hr with
  | quiet hq => exact hk.quiet hq
  | split hs hc => exact hk.split h hs hc
  | trans hr _ ih ih' => exact ih' (ih hk h) (hr.wellFormed h)

/-- No lock is below a new leaf. -/
lemma graft (h : WellFormed c.tree g) (ha : CanGraft c.tree g p key value)
    (hc : IsGraft c c' p key value) :
    LockCount c' (g.graft c.tree p key value) locks := by
  refine ⟨fun l hl => mem_graft.mpr (.inr (hk.live l hl)), ?_⟩
  intro m hm hroot
  rw [hc.tree] at hroot ⊢
  rcases mem_graft.mp hm with rfl | hm
  · rw [show c.tree.counter = c.counter from rfl, hc.lockRef_new]
    refine (congrArg Nat.cast (countP_eq_zero.mpr fun l hl => ?_)).symm
    simp only [decide_eq_true_eq]
    exact not_covers_graft_new h ha (hk.live l hl)
  · rw [hc.lockRef_old (h.ne_counter hm), hk.count m hm hroot]
    refine congrArg Nat.cast (countP_congr fun l hl => ?_)
    simp only [decide_eq_true_eq]
    exact (covers_graft_old h hm (hk.live l hl)).symm

/-- No request has locked a node whose counter is zero. -/
lemma not_mem (hn : n ∈ g.live) (hroot : n ≠ c.tree.root) (hlock : c.lockRef n = 0) :
    n ∉ locks := by
  intro hin
  have hcount := hk.count n hn hroot
  rw [hlock] at hcount
  have := countP_eq_zero.mp (Int.ofNat_eq_zero.mp hcount.symm) n hin
  simp only [decide_eq_true_eq] at this
  exact this (WellFormed.covers_self _ _ n)

/-- An unlocked leaf is on the path of no lock. -/
lemma prune (h : WellFormed c.tree g) (hr : CanPrune c.tree g p n) (hlock : c.lockRef n = 0)
    (hc : IsPrune c c' p n) :
    LockCount c' (g.prune n) locks := by
  have hfree := hk.not_mem hr.mem (h.ne_root hr.edge) hlock
  refine ⟨fun l hl => mem_prune.mpr ⟨fun hln => hfree (hln ▸ hl), hk.live l hl⟩, ?_⟩
  intro m hm hroot
  rw [hc.tree] at hroot ⊢
  rw [hc.lockRef, hk.count m (mem_prune.mp hm).2 hroot]
  refine congrArg Nat.cast (countP_congr fun l hl => ?_)
  simp only [decide_eq_true_eq]
  exact covers_prune.symm

end

end LockCount

end RadixCache

end Sglang.MemCache
