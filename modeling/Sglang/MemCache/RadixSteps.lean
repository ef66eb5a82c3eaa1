import Sglang.MemCache.RadixEntries

/-! What the code of a radix cache can do to a cache, piece by piece.

Five changes make up every operation: a quiet update of clocks and counters, a split,
a new leaf, a lost leaf, and a lock count that moves. For each, a structure says what
becomes of the tree, the lock counts, the two sizes and the leaf set, and one lemma
says that the code does just that. Every invariant is proved against these structures
and never against the code. -/
namespace Sglang.MemCache

open Function
open Prefix PrefixMap

namespace RadixCache

/-- The lock counter of a node. -/
def lockRef (c : RadixCache) (n : NodeId) : Int := (c.nodes n).lockRef

/-- Only clocks, hit counts and priorities change. -/
structure Quiet (c c' : RadixCache) : Prop where
  params : c'.toCacheInitParams = c.toCacheInitParams
  tree : c'.tree = c.tree
  lockRef : c'.lockRef = c.lockRef
  evictableSize : c'.evictableSize = c.evictableSize
  protectedSize : c'.protectedSize = c.protectedSize
  evictableLeaves : c'.evictableLeaves = c.evictableLeaves

lemma Quiet.refl (c : RadixCache) : Quiet c c := ⟨rfl, rfl, rfl, rfl, rfl, rfl⟩

lemma Quiet.trans {c d e : RadixCache} (h : Quiet c d) (h' : Quiet d e) : Quiet c e :=
  ⟨h'.params.trans h.params, h'.tree.trans h.tree, h'.lockRef.trans h.lockRef,
    h'.evictableSize.trans h.evictableSize, h'.protectedSize.trans h.protectedSize,
    h'.evictableLeaves.trans h.evictableLeaves⟩

section
variable (c : RadixCache)

section
variable (n : NodeId)

section
variable (f : TreeNode → TreeNode)

/-- A change of one node is a change of one node of the tree, without what the tree does not see. -/
lemma tree_modifyNode :
    (c.modifyNode n f).tree = {c.tree with node := update c.tree.node n (f (c.nodes n)).core} := by
  simp only [tree, modifyNode, Tree.mk.injEq, true_and]
  exact Function.comp_update TreeNode.core c.nodes n _

lemma lockRef_modifyNode : (c.modifyNode n f).lockRef = update c.lockRef n
    (f (c.nodes n)).lockRef :=
  Function.comp_update TreeNode.lockRef c.nodes n _

/-- A new node is the next one in the tree. -/
lemma tree_addNode (x : TreeNode) :
    (c.addNode x).tree =
    {c.tree with counter := c.counter + 1, node := update c.tree.node c.counter x.core} := by
  simp only [tree, addNode, Tree.mk.injEq, true_and]
  exact Function.comp_update TreeNode.core c.nodes c.counter _

/-- A change that the tree and the locks do not see. -/
lemma quiet_modifyNode (hcore : ∀ x, (f x).core = x.core) (hlock : ∀ x, (f x).lockRef = x.lockRef) :
    Quiet c (c.modifyNode n f) := by
  refine ⟨rfl, ?_, ?_, rfl, rfl, rfl⟩
  · rw [tree_modifyNode, hcore, show (c.nodes n).core = c.tree.node n from rfl, update_eq_self]
  · rw [lockRef_modifyNode, hlock, show (c.nodes n).lockRef = c.lockRef n from rfl, update_eq_self]

end

lemma quiet_touch (now : Int) (n : NodeId) : Quiet c (c.touch now n) :=
  quiet_modifyNode c n _ (fun _ => rfl) fun _ => rfl

lemma quiet_raisePriority (priority : Int) : Quiet c (c.raisePriority n priority) :=
  quiet_modifyNode c n _ (fun _ => rfl) fun _ => rfl

lemma quiet_incHitCount (chunked : Bool) : Quiet c (c.incHitCount n chunked) := by
  unfold incHitCount
  split
  · exact Quiet.refl c
  · exact quiet_modifyNode c n _ (fun _ => rfl) fun _ => rfl

end

end

/-- A node is split; the new node takes over its lock count. -/
structure IsSplit (c c' : RadixCache) (p n : NodeId) (s : Nat) : Prop where
  params : c'.toCacheInitParams = c.toCacheInitParams
  tree : c'.tree = c.tree.split p n s
  lockRef : c'.lockRef = update c.lockRef c.counter (c.lockRef n)
  evictableSize : c'.evictableSize = c.evictableSize
  protectedSize : c'.protectedSize = c.protectedSize
  evictableLeaves : c'.evictableLeaves = c.evictableLeaves

variable {c c' : RadixCache} {p n : NodeId} {s : Nat} {g : Shape}

/-- The upper part of a split node has the first slots. -/
lemma IsSplit.value_new (hc : IsSplit c c' p n s) (h : WellFormed c.tree g)
    (hs : CanSplit c.tree g p n s) :
    (c'.nodes c.counter).value = (c.nodes n).value.take s := by
  show (c'.tree.node c.tree.counter).value = _
  rw [hc.tree, Tree.split_new h hs]
  rfl

/-- The upper part of a split node has its locks. -/
lemma IsSplit.lockRef_new (hc : IsSplit c c' p n s) : c'.lockRef c.counter = c.lockRef n := by
  rw [hc.lockRef, update_self]

lemma IsSplit.lockRef_old {p n m : NodeId} (hc : IsSplit c c' p n s) (hm : m ≠ c.counter) :
    c'.lockRef m = c.lockRef m := by
  rw [hc.lockRef, update_of_ne hm]

/-- A split that is possible succeeds and does what `IsSplit` says. -/
lemma splitNode_spec (h : WellFormed c.tree g) (hs : CanSplit c.tree g p n s) (now : Int) :
    ∃ c', c.splitNode now n s = some (c', c.counter) ∧ IsSplit c c' p n s := by
  have hparent : (c.nodes n).parent = some p := hs.edge.parent
  have hpn : p ≠ n := WellFormed.ne_of_edge hs.edge
  have hn : n ≠ c.counter := h.ne_counter hs.mem
  have hp : p ≠ c.counter := h.ne_counter hs.edge.mem
  simp only [splitNode, hparent, Option.some.injEq, Prod.mk.injEq, and_true, exists_eq_left']
  refine ⟨rfl, ?_, ?_, rfl, rfl, rfl⟩
  · simp only [tree, Tree.split, modifyNode, addNode]
    congr 1
    funext m
    simp only [update_apply, hn, hp, hpn, if_false]
    split_ifs <;> simp_all [TreeNode.core]
  · funext m
    simp only [RadixCache.lockRef, modifyNode, addNode, update_apply, hn, hp, hpn, if_false]
    split_ifs <;> simp_all

/-! ### Leaves -/

/-- Whether a node belongs in `evictable_leaves`. -/
def Idle (c : RadixCache) (n : NodeId) : Prop := c.lockRef n ≤ 0 ∧ (c.nodes n).children.entries = []

/-- Only the set of evictable leaves changes. -/
lemma updateLeafStatus_eq (c : RadixCache) (n : NodeId) :
    c.updateLeafStatus n = {c with evictableLeaves := (c.updateLeafStatus n).evictableLeaves} := by
  unfold updateLeafStatus
  split_ifs <;> rfl

lemma quiet_updateLeafStatus (c : RadixCache) (n : NodeId) :
    (c.updateLeafStatus n).toCacheInitParams = c.toCacheInitParams ∧
    (c.updateLeafStatus n).tree = c.tree ∧
      (c.updateLeafStatus n).lockRef = c.lockRef ∧
      (c.updateLeafStatus n).evictableSize = c.evictableSize ∧
      (c.updateLeafStatus n).protectedSize = c.protectedSize := by
  rw [updateLeafStatus_eq]
  exact ⟨rfl, rfl, rfl, rfl, rfl⟩

lemma nodup_updateLeafStatus (hnd : c.evictableLeaves.Nodup) (n : NodeId) :
    (c.updateLeafStatus n).evictableLeaves.Nodup := by
  unfold updateLeafStatus
  split_ifs with hlock hchild hmem
  · exact hnd.erase n
  · exact hnd.erase n
  · exact hnd
  · exact List.nodup_cons.mpr ⟨hmem, hnd⟩

/-- Afterwards the node is in the set exactly if it is an idle leaf; the other nodes are as before.
-/
lemma mem_updateLeafStatus (hnd : c.evictableLeaves.Nodup) (n m : NodeId) :
    m ∈ (c.updateLeafStatus n).evictableLeaves ↔ if m = n then Idle c n
    else m ∈ c.evictableLeaves := by
  unfold updateLeafStatus Idle lockRef
  split_ifs with hlock hmn hchild hmn hmem hmn hmn
  all_goals first | subst hmn | skip
  all_goals simp_all [List.Nodup.mem_erase_iff]

/-- A leaf is added. -/
structure IsGraft (c c' : RadixCache) (p : NodeId) (key : RadixKey) (value : List Slot) : Prop where
  params : c'.toCacheInitParams = c.toCacheInitParams
  tree : c'.tree = c.tree.graft p key value
  lockRef : c'.lockRef = update c.lockRef c.counter 0
  evictableSize : c'.evictableSize = c.evictableSize + key.len
  protectedSize : c'.protectedSize = c.protectedSize
  nodup : c.evictableLeaves.Nodup → c'.evictableLeaves.Nodup
  leaves : c.evictableLeaves.Nodup → ∀ m, m ∈ c'.evictableLeaves ↔
    m = c.counter ∨ (m ≠ p ∧ m ∈ c.evictableLeaves)

/-- A new leaf is not locked. -/
lemma IsGraft.lockRef_new {key : RadixKey} {value : List Slot}
    (hc : IsGraft c c' p key value) : c'.lockRef c.counter = 0 := by
  rw [hc.lockRef, update_self]

lemma IsGraft.lockRef_old {p m : NodeId} {key : RadixKey} {value : List Slot}
    (hc : IsGraft c c' p key value) (hm : m ≠ c.counter) : c'.lockRef m = c.lockRef m := by
  rw [hc.lockRef, update_of_ne hm]

/-- A leaf is removed. -/
structure IsPrune (c c' : RadixCache) (p n : NodeId) : Prop where
  params : c'.toCacheInitParams = c.toCacheInitParams
  tree : c'.tree = c.tree.prune p n
  lockRef : c'.lockRef = c.lockRef
  evictableSize : c'.evictableSize = c.evictableSize - (c.nodes n).key.len
  protectedSize : c'.protectedSize = c.protectedSize
  nodup : c.evictableLeaves.Nodup → c'.evictableLeaves.Nodup
  leaves : c.evictableLeaves.Nodup → ∀ m, m ∈ c'.evictableLeaves ↔ if m = p then Idle c' p
    else m ≠ n ∧ m ∈ c.evictableLeaves

/-- The lock count of one node moves. -/
structure IsBump (edge step : Int) (c c' : RadixCache) (n : NodeId) : Prop where
  params : c'.toCacheInitParams = c.toCacheInitParams
  tree : c'.tree = c.tree
  lockRef : c'.lockRef = update c.lockRef n (c.lockRef n + step)
  evictableSize : c'.evictableSize = c.evictableSize - if c.lockRef n = edge then
    step * (c.nodes n).key.len else 0
  protectedSize : c'.protectedSize = c.protectedSize + if c.lockRef n = edge then
    step * (c.nodes n).key.len else 0
  nodup : c.evictableLeaves.Nodup → c'.evictableLeaves.Nodup
  leaves : c.evictableLeaves.Nodup → ∀ m, m ∈ c'.evictableLeaves ↔ if m = n then Idle c' n
    else m ∈ c.evictableLeaves

/-- What `insert` does for the rest of a key is a graft. -/
lemma addLeaf_spec (hp : p ≠ c.counter) (now priority : Int) (chunked : Bool)
    (key : RadixKey) (value : List Slot) :
    IsGraft c (c.addLeaf now priority chunked p key value) p key value := by
  -- the cache with the new node, and then with the parent's new entry
  let x : TreeNode :=
    {parent := some p, key, value, lastAccessTime := now, creationTime := now, priority}
  let c1 := (c.addNode x).incHitCount c.counter chunked
  let c2 :=
    c1.modifyNode p fun y =>
    {y with children := y.children.insert (key.childKey c.pageSize) c.counter}
  let c3 : RadixCache := {c2 with evictableSize := c2.evictableSize + key.len}
  have hq : Quiet (c.addNode x) c1 := quiet_incHitCount _ _ _
  have heq :
      c.addLeaf now priority chunked p key value =
      (c3.updateLeafStatus p).updateLeafStatus c.counter := by
    have hpage : c1.pageSize = c.pageSize := congrArg CacheInitParams.pageSize hq.params
    simp only [addLeaf, c3, c2, ← hpage]
    rfl
  have hcore : (c1.nodes p).core = c.tree.node p := by
    show c1.tree.node p = _
    rw [hq.tree, tree_addNode]
    exact update_of_ne hp ..
  have htree : c3.tree = c.tree.graft p key value := by
    show c2.tree = _
    rw [tree_modifyNode, hq.tree, tree_addNode, Tree.graft, ← hcore]
    rfl
  have hlock : c3.lockRef = update c.lockRef c.counter 0 := by
    show c2.lockRef = _
    rw [lockRef_modifyNode, show (c1.nodes p).lockRef = c1.lockRef p from
      rfl, update_eq_self, hq.lockRef]
    exact Function.comp_update TreeNode.lockRef c.nodes c.counter _
  obtain ⟨hpar1, htree1, hlock1, hev1, hpr1⟩ := quiet_updateLeafStatus c3 p
  obtain ⟨hpar2, htree2, hlock2, hev2, hpr2⟩ :=
    quiet_updateLeafStatus (c3.updateLeafStatus p) c.counter
  have hleaves : c3.evictableLeaves = c.evictableLeaves := hq.evictableLeaves
  rw [heq]
  refine ⟨hpar2.trans (hpar1.trans hq.params), htree2.trans (htree1.trans htree),
    hlock2.trans (hlock1.trans hlock), ?_, ?_, ?_, ?_⟩
  · rw [hev2, hev1]
    exact congrArg (· + (key.len : Int)) hq.evictableSize
  · exact hpr2.trans (hpr1.trans hq.protectedSize)
  · intro hnd
    exact nodup_updateLeafStatus (nodup_updateLeafStatus (hleaves ▸ hnd) _) _
  · intro hnd m
    rw [mem_updateLeafStatus (nodup_updateLeafStatus (hleaves ▸ hnd) _),
      mem_updateLeafStatus (hleaves ▸ hnd), hleaves]
    have hnew : Idle (c3.updateLeafStatus p) c.counter := by
      refine ⟨?_, ?_⟩
      · rw [hlock1, hlock, update_self]
      · show ((c3.updateLeafStatus p).tree.node c.counter).children.entries = []
        rw [htree1, htree]
        simp [Tree.graft, Ne.symm hp, show c.tree.counter = c.counter from rfl]
    have hbusy : ¬ Idle c3 p := by
      rintro ⟨_, hkids⟩
      have hkids : (c3.tree.node p).children.entries = [] := hkids
      rw [htree] at hkids
      simp only [Tree.graft, update_self] at hkids
      simp [AList.entries_insert] at hkids
    by_cases hm : m = c.counter
    · simp [hm, hnew]
    · by_cases hmp : m = p
      · simp [hmp, hp, hbusy]
      · simp [hm, hmp]

/-- One node on the way of `inc_lock_ref` or `dec_lock_ref`. -/
lemma bumpLock_spec (edge step : Int) (c : RadixCache) (n : NodeId) :
    IsBump edge step c (bumpLock edge step c n) n := by
  -- the sizes first, then the count, then the leaf status
  let c1 : RadixCache :=
    if c.lockRef n = edge then
      { c with
        evictableSize := c.evictableSize - step * (c.nodes n).key.len
        protectedSize := c.protectedSize + step * (c.nodes n).key.len }
    else c
  let c2 := c1.modifyNode n fun x => {x with lockRef := x.lockRef + step}
  have hsame : c1.nodes = c.nodes ∧ c1.toCacheInitParams = c.toCacheInitParams ∧ c1.tree = c.tree ∧
      c1.lockRef = c.lockRef ∧ c1.evictableLeaves = c.evictableLeaves := by
    simp only [c1]
    split <;> exact ⟨rfl, rfl, rfl, rfl, rfl⟩
  obtain ⟨hnodes, hparams, htree, hlock, hleaves⟩ := hsame
  have htree2 : c2.tree = c.tree := by
    rw [tree_modifyNode, ← htree]
    exact congrArg (fun f => {c1.tree with node := f}) (update_eq_self n c1.tree.node)
  have hlock2 : c2.lockRef = update c.lockRef n (c.lockRef n + step) := by
    rw [lockRef_modifyNode, hlock, hnodes]
    rfl
  obtain ⟨hpar3, htree3, hlock3, hev3, hpr3⟩ := quiet_updateLeafStatus c2 n
  show IsBump edge step c (c2.updateLeafStatus n) n
  refine ⟨hpar3.trans hparams, htree3.trans htree2, hlock3.trans hlock2,
    hev3.trans ?_, hpr3.trans ?_, ?_, ?_⟩
  · show c1.evictableSize = _
    simp only [c1]
    split <;> simp
  · show c1.protectedSize = _
    simp only [c1]
    split <;> simp
  · intro hnd
    exact nodup_updateLeafStatus (hleaves ▸ hnd) n
  · intro hnd m
    have hidle : Idle (c2.updateLeafStatus n) n ↔ Idle c2 n := by
      rw [updateLeafStatus_eq]
      rfl
    rw [mem_updateLeafStatus (hleaves ▸ hnd), hidle]
    exact Iff.of_eq (congrArg (fun l => if m = n then Idle c2 n else m ∈ l) hleaves)

/-- An evicted leaf is cut off, and nothing else changes. -/
lemma deleteLeaf_spec (hr : CanPrune c.tree g p n) :
    ∃ c', c.deleteLeaf n = some c' ∧ IsPrune c c' p n := by
  have hparent : (c.nodes n).parent = some p := hr.edge.parent
  have hlookup : (c.nodes p).children.lookup ((c.nodes n).key.childKey c.pageSize) = some n :=
    hr.edge.lookup
  let c1 :=
    c.modifyNode p fun y =>
    {y with children := y.children.erase ((c.nodes n).key.childKey c.pageSize)}
  let c2 : RadixCache :=
    { c1 with
      evictableSize := c1.evictableSize - (c.nodes n).key.len
      evictableLeaves := c1.evictableLeaves.erase n }
  have heq : c.deleteLeaf n = some (c2.updateLeafStatus p) := by
    simp only [deleteLeaf, hparent, hlookup, ne_eq, not_true_eq_false, if_false]
    rfl
  have htree : c2.tree = c.tree.prune p n := by
    show c1.tree = _
    rw [tree_modifyNode]
    rfl
  have hlock : c2.lockRef = c.lockRef := by
    show c1.lockRef = _
    rw [lockRef_modifyNode]
    exact update_eq_self p c.lockRef
  obtain ⟨hpar3, htree3, hlock3, hev3, hpr3⟩ := quiet_updateLeafStatus c2 p
  refine ⟨_, heq, hpar3, htree3.trans htree, hlock3.trans hlock, hev3, hpr3, ?_, ?_⟩
  · intro hnd
    exact nodup_updateLeafStatus (hnd.erase n) p
  · intro hnd m
    have hidle : Idle (c2.updateLeafStatus p) p ↔ Idle c2 p := by
      rw [updateLeafStatus_eq]
      rfl
    have herase : m ∈ c2.evictableLeaves ↔ m ≠ n ∧ m ∈ c.evictableLeaves := hnd.mem_erase_iff
    rw [mem_updateLeafStatus (hnd.erase n), hidle, herase]

/-- What a walk down the tree can do to a cache and its labels. -/
inductive Reshape : RadixCache → Shape → RadixCache → Shape → Prop
  | quiet {c c' : RadixCache} {g : Shape} : Quiet c c' → Reshape c g c' g
  | split {c c' : RadixCache} {g : Shape} {p n : NodeId} {s : Nat} :
    CanSplit c.tree g p n s → IsSplit c c' p n s → Reshape c g c' (g.split c.tree p n s)
  | trans {c d e : RadixCache} {g g' g'' : Shape} :
      Reshape c g d g' → Reshape d g' e g'' → Reshape c g e g''

namespace Reshape
variable {g' : Shape}

section
variable (hr : Reshape c g c' g')
include hr

lemma params : c'.toCacheInitParams = c.toCacheInitParams := by
  induction hr with
  | quiet h => exact h.params
  | split _ h => exact h.params
  | trans _ _ ih ih' => exact ih'.trans ih

lemma root : c'.tree.root = c.tree.root := by
  induction hr with
  | quiet h => rw [h.tree]
  | split _ h => rw [h.tree]; rfl
  | trans _ _ ih ih' => exact ih'.trans ih

lemma pageSize : c'.tree.pageSize = c.tree.pageSize := by
  show c'.pageSize = c.pageSize
  rw [hr.params]

/-- Reshaping keeps the tree well formed. -/
lemma wellFormed (h : WellFormed c.tree g) : WellFormed c'.tree g' := by
  induction hr with
  | quiet hq => rwa [hq.tree]
  | split hs hq => rw [hq.tree]; exact h.split hs
  | trans _ _ ih ih' => exact ih' (ih h)

/-- Reshaping keeps every node. -/
lemma live_subset : g.live ⊆ g'.live := by
  induction hr with
  | quiet _ => exact fun _ h => h
  | split _ _ => exact fun _ h => Shape.mem_split.mpr (.inr h)
  | trans _ _ ih ih' => exact ih.trans ih'

/-- The nodes that were there keep their keys and slots. -/
lemma label (h : WellFormed c.tree g) (hn : n ∈ g.live) :
    g'.path n = g.path n ∧ g'.vals n = g.vals n ∧
    (c'.tree.node n).key.ns = (c.tree.node n).key.ns := by
  induction hr with
  | quiet hq => exact ⟨rfl, rfl, by rw [hq.tree]⟩
  | split hs hq =>
    have hc := h.ne_counter hn
    exact ⟨Shape.split_path hc, Shape.split_vals hc, by rw [hq.tree, hs.ns_eq hc]⟩
  | trans hr _ ih ih' =>
    obtain ⟨hpath, hvals, hns⟩ := ih h hn
    obtain ⟨hpath', hvals', hns'⟩ := ih' (hr.wellFormed h) (hr.live_subset hn)
    exact ⟨hpath'.trans hpath, hvals'.trans hvals, hns'.trans hns⟩

/-- Reshaping does not change what is stored. -/
lemma holds (h : WellFormed c.tree g) (ns : Namespace) (u : List KeyUnit)
    (page : List Slot) : Holds c'.tree ns u page ↔ Holds c.tree ns u page := by
  induction hr with
  | quiet hq => rw [hq.tree]
  | split hs hq => rw [hq.tree]; exact holds_split h hs ns u page
  | trans hr _ ih ih' => exact (ih' (hr.wellFormed h)).trans (ih h)

/-- The two trees are the same map from keys to slots. -/
lemma prefixMap (h : WellFormed c.tree g) : c'.tree.prefixMap = c.tree.prefixMap :=
  WellFormed.prefixMap_congr h (hr.wellFormed h) (hr.holds h)

end

end Reshape

end RadixCache

end Sglang.MemCache
