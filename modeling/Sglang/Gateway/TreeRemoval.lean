import Mathlib.Data.Finset.Max
import Sglang.Gateway.TreeTenants

/-! Tenants that leave the routing tree.

A tenant leaves the tree node by node, from the ends of its texts upwards. Where it leaves, a node
that has no other tenant has no children either, and is taken out. -/
namespace Sglang.Gateway

open List Option Finset OrderedDict

namespace Tree
variable {t t' : Tree} {g g' : Shape} {n m p : NodeId} {tenant tenant' : TenantId}

/-- A tenant's texts end at a node. -/
structure TenantLeaf (t : Tree) (g : Shape) (tenant : TenantId) (n : NodeId) : Prop where
  mem : n ∈ g.live
  has : t.hasTenant n tenant
  noChild : ∀ m ∈ g.live, m ≠ root → g.parent m = n → ¬t.hasTenant m tenant

lemma Shaped.hasChildWithTenant_iff (h : Shaped t.core t.fresh g) (hn : n ∈ g.live) :
    t.hasChildWithTenant n tenant ↔ ∃ m ∈ g.live, m ≠ root ∧ g.parent m = n ∧
    t.hasTenant m tenant := by
  simp only [hasChildWithTenant, childIds, List.any_eq_true, mem_map_snd_iff]
  constructor
  · rintro ⟨m, ⟨c, hget⟩, hhas⟩
    obtain ⟨hm, hroot, hparent, _⟩ := h.of_child n hn c m hget
    exact ⟨m, hm, hroot, hparent, hhas⟩
  · rintro ⟨m, hm, hroot, rfl, hhas⟩
    obtain ⟨c, _, hget⟩ := h.child m hm hroot
    exact ⟨m, ⟨c, hget⟩, hhas⟩

/-- A leaf of a tenant is what the code looks for. -/
lemma Owned.tenantLeaf_iff (h : t.Owned g) :
    TenantLeaf t g tenant n ↔ n ∈ g.live ∧
    (t.hasTenant n tenant && !t.hasChildWithTenant n tenant) = true := by
  rw [Bool.and_eq_true, Bool.not_eq_true', Bool.eq_false_iff]
  constructor
  · rintro ⟨hn, hhas, hno⟩
    refine ⟨hn, hhas, fun hchild => ?_⟩
    obtain ⟨m, hm, hroot, hparent, hmt⟩ := (h.shaped.hasChildWithTenant_iff hn).mp hchild
    exact hno m hm hroot hparent hmt
  · rintro ⟨hn, hhas, hno⟩
    exact ⟨hn, hhas,
      fun m hm hroot hparent hmt =>
      hno ((h.shaped.hasChildWithTenant_iff hn).mpr ⟨m, hm, hroot, hparent, hmt⟩)⟩

/-- A tenant that has a node has a leaf. -/
lemma Owned.exists_tenantLeaf (h : t.Owned g) (hn : n ∈ g.live) (hhas : t.hasTenant n tenant) :
    ∃ m, TenantLeaf t g tenant m := by
  obtain ⟨m, hm, hmax⟩ :=
    (g.live.filter fun m => t.hasTenant m tenant).exists_max_image (fun m => (g.path m).length)
    ⟨n, mem_filter.mpr ⟨hn, hhas⟩⟩
  obtain ⟨hm, hmt⟩ := mem_filter.mp hm
  refine ⟨m, hm, hmt, fun m' hm' hroot hparent hmt' => ?_⟩
  have hle := hmax m' (mem_filter.mpr ⟨hm', hmt'⟩)
  have hlt := h.shaped.valid.length_lt m' hm' (h.shaped.root_eq ▸ hroot)
  rw [hparent] at hlt
  omega

lemma Owned.children_eq_none (h : t.Owned g) (hleaf : TenantLeaf t g tenant n)
    (honly : ∀ tenant', t.hasTenant n tenant' → tenant' = tenant) (c : Char) :
    (t.core n).children.get? c = none := by
  by_contra hsome
  obtain ⟨m, hget⟩ := ne_none_iff_exists'.mp hsome
  obtain ⟨hm, hroot, hparent, _⟩ := h.shaped.of_child n hleaf.mem c m hget
  obtain ⟨tenant', hmt⟩ := h.used m hm hroot
  have hn := h.up m hm hroot tenant' hmt
  rw [hparent] at hn
  exact hleaf.noChild m hm hroot hparent (honly tenant' hn ▸ hmt)

/-! ### A tenant leaves a node -/

lemma core_dropTenant : (t.dropTenant n tenant).core = t.core := core_modifyNode rfl

lemma hasTenant_dropTenant : (t.dropTenant n tenant).hasTenant m tenant' =
    if m = n ∧ tenant' = tenant then false else t.hasTenant m tenant' := by
  rw [hasTenant, dropTenant, nodes_modifyNode]
  by_cases hm : m = n
  · rw [if_pos hm, Node.hasTenant, get?_erase, hm]
    by_cases heq : tenant' = tenant
    · rw [if_pos heq, if_pos ⟨rfl, heq⟩]
      rfl
    · rw [if_neg heq, if_neg fun hand => heq hand.2]
      rfl
  · rw [if_neg hm, if_neg fun hand => hm hand.1]
    rfl

lemma length_dropTenant (hhas : t.hasTenant n tenant) (m : NodeId) :
    ((t.dropTenant n tenant).nodes m).tenantLastAccessTime.items.length + (if m = n then 1 else 0) =
      (t.nodes m).tenantLastAccessTime.items.length := by
  rw [dropTenant, nodes_modifyNode]
  by_cases hm : m = n
  · rw [if_pos hm, if_pos hm, hm]
    exact length_erase hhas
  · rw [if_neg hm, if_neg hm, add_zero]

section
variable (h : t.Owned g)
include h

/-- A tenant that is gone from a node where its texts ended leaves the tenants of the others in
order. -/
lemma Owned.up_dropTenant (hleaf : TenantLeaf t g tenant n) (hm : m ∈ g.live) (hroot : m ≠ root)
    (hhas : (t.dropTenant n tenant).hasTenant m tenant') :
    (t.dropTenant n tenant).hasTenant (g.parent m) tenant' := by
  rw [hasTenant_dropTenant] at hhas ⊢
  split at hhas
  · cases hhas
  · rw [if_neg]
    · exact h.up m hm hroot tenant' hhas
    · rintro ⟨hparent, rfl⟩
      exact hleaf.noChild m hm hroot hparent hhas

lemma Owned.dead_dropTenant (hm : m ∉ g.live) : ¬(t.dropTenant n tenant).hasTenant m tenant' := by
  rw [hasTenant_dropTenant]
  split
  · exact Bool.false_ne_true
  · exact h.dead m hm tenant'

lemma Owned.used_dropTenant (hm : m ∈ g.live) (hroot : m ≠ root) (hne : m ≠ n) :
    ∃ tenant', (t.dropTenant n tenant).hasTenant m tenant' := by
  obtain ⟨tenant', hhas⟩ := h.used m hm hroot
  refine ⟨tenant', ?_⟩
  rwa [hasTenant_dropTenant, if_neg fun hand => hne hand.1]

/-- The node stays: it is the root, or it has another tenant. -/
lemma detachTenant_of_kept
    (hkept : n = root ∨ ∃ tenant', (t.dropTenant n tenant).hasTenant n tenant') :
    t.detachTenant n tenant = t.dropTenant n tenant := by
  have hcore : ((t.dropTenant n tenant).nodes n).core = t.core n := congrFun core_dropTenant n
  rw [detachTenant]
  split
  · next hempty =>
    rcases hkept with rfl | ⟨tenant', hhas⟩
    · have hparent : ((t.dropTenant root tenant).nodes root).parent = none :=
        (congrArg NodeCore.parent hcore).trans h.shaped.parent_root
      rw [hparent]
    · exact absurd hhas (items_eq_nil_iff_hasTenant.mp hempty.2 tenant')
  · rfl

lemma detachTenant_of_empty (hleaf : TenantLeaf t g tenant n) (hroot : n ≠ root)
    (hempty : ∀ tenant', ¬(t.dropTenant n tenant).hasTenant n tenant') :
    ∃ c, (t.core n).text.head? = some c ∧
      (∀ c', (t.core n).children.get? c' = none) ∧ t.detachTenant n tenant =
        (t.dropTenant n tenant).modifyNode (g.parent n) fun x =>
        {x with children := x.children.erase c} := by
  set t₁ := t.dropTenant n tenant
  have hcore : (t₁.nodes n).core = t.core n := congrFun core_dropTenant n
  obtain ⟨c, hc, _⟩ := h.shaped.child n hleaf.mem hroot
  have honly : ∀ tenant', t.hasTenant n tenant' → tenant' = tenant := by
    intro tenant' hhas
    by_contra hne
    apply hempty tenant'
    rwa [hasTenant_dropTenant, if_neg fun hand => hne hand.2]
  have hnone := h.children_eq_none hleaf honly
  have hchildren : (t₁.nodes n).children.items = [] := by
    rw [items_eq_nil_iff]
    intro c'
    rw [show (t₁.nodes n).children = (t.core n).children from congrArg NodeCore.children hcore]
    exact hnone c'
  have hparent : (t₁.nodes n).parent = some (g.parent n) :=
    (congrArg NodeCore.parent hcore).trans (h.shaped.parent_eq n hleaf.mem hroot)
  have htext : (t₁.nodes n).text.text.head? = some c :=
    (congrArg (fun core => core.text.head?) hcore).trans hc
  refine ⟨c, hc, hnone, ?_⟩
  rw [detachTenant]
  rw [if_pos ⟨hchildren, items_eq_nil_iff_hasTenant.mpr hempty⟩, hparent, htext]

end

/-- The nodes of a tenant. -/
def holders (t : Tree) (g : Shape) (tenant : TenantId) : Finset NodeId :=
  g.live.filter fun n => t.hasTenant n tenant

lemma mem_holders : n ∈ t.holders g tenant ↔ n ∈ g.live ∧ t.hasTenant n tenant := mem_filter

lemma size_eq : t.size g tenant = ∑ n ∈ t.holders g tenant, (t.core n).text.length :=
  (sum_filter _ _).symm

/-- What changes when a tenant leaves a node where its texts end. -/
structure Detached (t : Tree) (g : Shape) (n : NodeId) (tenant : TenantId)
    (t' : Tree) (g' : Shape) : Prop where
  live : g'.live = g.live ∨ g'.live = g.live.erase n ∧
    ∀ tenant', ¬(t.dropTenant n tenant).hasTenant n tenant'
  parent : g'.parent = g.parent
  path : g'.path = g.path
  tenants :
    ∀ m, (t'.nodes m).tenantLastAccessTime = ((t.dropTenant n tenant).nodes m).tenantLastAccessTime
  text : ∀ m, (t'.core m).text = (t.core m).text
  parentNode : ∀ m, (t'.core m).parent = (t.core m).parent
  counts : t'.tenantCharCount = t.tenantCharCount
  fresh : t'.fresh = t.fresh

lemma hasTenant_of_tenants
    (h : (t'.nodes m).tenantLastAccessTime = (t.nodes m).tenantLastAccessTime) :
    t'.hasTenant m tenant = t.hasTenant m tenant := congrArg (fun d => (d.get? tenant).isSome) h

/-- A tenant leaves one of its leaves, and a node without tenants is gone. -/
lemma detachTenant_spec (h : t.Owned g) (hleaf : TenantLeaf t g tenant n) :
    ∃ g', (t.detachTenant n tenant).Owned g' ∧ Detached t g n tenant
    (t.detachTenant n tenant) g' := by
  set t₁ := t.dropTenant n tenant
  by_cases hempty : n ≠ root ∧ ∀ tenant', ¬t₁.hasTenant n tenant'
  · obtain ⟨hroot, hempty⟩ := hempty
    obtain ⟨c, hc, hnone, heq⟩ := detachTenant_of_empty h hleaf hroot hempty
    have hnodes : ∀ m, (t.detachTenant n tenant).nodes m = if m = g.parent n then
        {t₁.nodes (g.parent n) with
          children := (t₁.nodes (g.parent n)).children.erase c}
        else t₁.nodes m := fun m => heq ▸ nodes_modifyNode _
    have hcore : ∀ m, (t.detachTenant n tenant).core m = if m = g.parent n then
        {t.core (g.parent n) with children := (t.core (g.parent n)).children.erase c}
          else t.core m := by
      intro m
      rw [core, hnodes, ← @core_dropTenant t n tenant]
      split <;> rfl
    have htenants : ∀ m, ((t.detachTenant n tenant).nodes m).tenantLastAccessTime =
        (t₁.nodes m).tenantLastAccessTime := by
      intro m
      rw [hnodes]
      split
      · next heq => rw [heq]
      · rfl
    have hfresh : (t.detachTenant n tenant).fresh = t.fresh := by rw [heq]; rfl
    have hlive : ∀ m, m ∈ (g.prune n).live ↔ m ≠ n ∧ m ∈ g.live := fun m => mem_erase
    refine ⟨g.prune n, ⟨hfresh ▸ h.shaped.prune hleaf.mem hroot hnone hc hcore, ?_, ?_, ?_⟩,
      ⟨Or.inr ⟨rfl, hempty⟩, rfl, rfl, htenants, ?_, ?_, by rw [heq]; rfl, hfresh⟩⟩
    · intro m hm hmroot tenant' hhas
      rw [hasTenant_of_tenants (htenants _)] at hhas ⊢
      exact h.up_dropTenant hleaf ((hlive m).mp hm).2 hmroot hhas
    · intro m hm hmroot
      obtain ⟨hne, hm⟩ := (hlive m).mp hm
      obtain ⟨tenant', hhas⟩ := @Owned.used_dropTenant t g n m tenant h hm hmroot hne
      exact ⟨tenant', (hasTenant_of_tenants (htenants _)).trans hhas⟩
    · intro m hm tenant'
      rw [hasTenant_of_tenants (htenants _)]
      by_cases hmn : m = n
      · exact hmn ▸ hempty tenant'
      · exact h.dead_dropTenant fun hlivem => hm ((hlive m).mpr ⟨hmn, hlivem⟩)
    · intro m
      rw [hcore]
      split
      · next heq => rw [heq]
      · rfl
    · intro m
      rw [hcore]
      split
      · next heq => rw [heq]
      · rfl
  · have hkept : n = root ∨ ∃ tenant', t₁.hasTenant n tenant' := by
      by_contra hno
      rw [not_or, not_exists] at hno
      exact hempty hno
    rw [detachTenant_of_kept h hkept]
    refine ⟨g,
      ⟨by rw [core_dropTenant]; exact h.shaped, fun m hm hmroot tenant' => h.up_dropTenant hleaf hm hmroot,
      fun m hm hmroot => ?_, fun m hm tenant' => h.dead_dropTenant hm⟩,
      ⟨Or.inl rfl, rfl, rfl, fun _ => rfl,
      fun _ => by rw [core_dropTenant], fun _ => by rw [core_dropTenant], rfl, rfl⟩⟩
    by_cases hmn : m = n
    · subst hmn
      exact hkept.resolve_left hmroot
    · exact h.used_dropTenant hm hmroot hmn

section Detached
variable (h : Detached t g n tenant t' g')
include h

lemma Detached.hasTenant (m : NodeId) (tenant' : TenantId) : t'.hasTenant m tenant' =
    if m = n ∧ tenant' = tenant then false else t.hasTenant m tenant' :=
  (hasTenant_of_tenants (h.tenants m)).trans hasTenant_dropTenant

lemma Detached.mem_and_has : (m ∈ g'.live ∧ t'.hasTenant m tenant') ↔
    (m ∈ g.live ∧ t.hasTenant m tenant') ∧ ¬(m = n ∧ tenant' = tenant) := by
  have hhas : t'.hasTenant m tenant' = true ↔ t.hasTenant m tenant' = true ∧
      ¬(m = n ∧ tenant' = tenant) := by
    rw [h.hasTenant]
    split
    · next heq => simp [heq]
    · next hne => simp [hne]
  rcases h.live with hlive | ⟨hlive, hempty⟩
  · rw [hlive, hhas, and_assoc]
  rw [hlive, mem_erase, hhas]
  have hne : t.hasTenant m tenant' = true → ¬(m = n ∧ tenant' = tenant) → m ≠ n := by
    rintro hm hneg rfl
    apply hempty tenant'
    rw [hasTenant_dropTenant, if_neg hneg]
    exact hm
  tauto

/-- The other tenants have the same texts. -/
lemma Detached.strings_of_ne (hne : tenant' ≠ tenant) :
    t'.strings g' tenant' = t.strings g tenant' := by
  ext s
  have hiff : ∀ m, (m ∈ g'.live ∧ t'.hasTenant m tenant' = true) ↔
      (m ∈ g.live ∧ t.hasTenant m tenant' = true) := by
    intro m
    rw [h.mem_and_has, and_iff_left fun hand => hne hand.2]
  simp only [mem_strings, h.path, ← and_assoc, hiff]

lemma Detached.strings_subset : t'.strings g' tenant' ⊆ t.strings g tenant' := by
  intro s hs
  obtain ⟨m, hm, hhas, hpre⟩ := mem_strings.mp hs
  obtain ⟨⟨hm, hhas⟩, _⟩ := h.mem_and_has.mp ⟨hm, hhas⟩
  exact mem_strings.mpr ⟨m, hm, hhas, h.path ▸ hpre⟩

lemma Detached.holders : t'.holders g' tenant' =
    if tenant' = tenant then (t.holders g tenant).erase n else t.holders g tenant' := by
  ext m
  rw [mem_holders, h.mem_and_has]
  split
  · next heq => rw [mem_erase, mem_holders, heq, and_comm, and_iff_left rfl]
  · next hne => rw [mem_holders, and_iff_left fun hand => hne hand.2]

lemma Detached.size_of_ne (hne : tenant' ≠ tenant) : t'.size g' tenant' = t.size g tenant' := by
  rw [size_eq, size_eq, h.holders, if_neg hne]
  exact sum_congr rfl fun m _ => by rw [h.text]

/-- The size of the tenant shrinks by the text of the node. -/
lemma Detached.size_add (hleaf : TenantLeaf t g tenant n) :
    t'.size g' tenant + (t.core n).text.length = t.size g tenant := by
  rw [size_eq, size_eq, h.holders, if_pos rfl]
  simp only [h.text]
  exact sum_erase_add _ _ (mem_holders.mpr ⟨hleaf.mem, hleaf.has⟩)

lemma Detached.card_holders (hleaf : TenantLeaf t g tenant n) :
    (t'.holders g' tenant).card + 1 = (t.holders g tenant).card := by
  rw [h.holders, if_pos rfl]
  exact card_erase_add_one (mem_holders.mpr ⟨hleaf.mem, hleaf.has⟩)

lemma Detached.charCount (tenant' : TenantId) : t'.charCount tenant' = t.charCount tenant' := by
  rw [Tree.charCount, Tree.charCount, h.counts]

end Detached

section
variable (ht : t.Owned g) (ht' : t'.Owned g') (hleaf : TenantLeaf t g tenant n)
  (h : Detached t g n tenant t' g')
include ht ht' hleaf h

/-- The parent may become a leaf of the tenant. -/
lemma Detached.newLeafAbove_eq_some :
    t'.newLeafAbove n tenant = some m ↔ n ≠ root ∧ m = g.parent n ∧ TenantLeaf t' g' tenant m := by
  have hparent : (t'.nodes n).parent = (t.core n).parent := h.parentNode n
  rw [newLeafAbove, hparent, filter_eq_some_iff]
  by_cases hroot : n = root
  · subst hroot
    rw [ht.shaped.parent_root]
    simp
  have hp : g.parent n ∈ g'.live := by
    have hold := ht.shaped.parent_mem n hleaf.mem hroot
    rcases h.live with hlive | ⟨hlive, _⟩
    · rwa [hlive]
    · rw [hlive]
      exact mem_erase.mpr ⟨ht.shaped.parent_ne hleaf.mem hroot, hold⟩
  rw [ht.shaped.parent_eq n hleaf.mem hroot, some_inj, ht'.tenantLeaf_iff]
  constructor
  · rintro ⟨rfl, hnew⟩
    exact ⟨hroot, rfl, hp, hnew⟩
  · rintro ⟨_, rfl, _, hnew⟩
    exact ⟨rfl, hnew⟩

/-- The texts end where they ended before, but for the node that the tenant left and its parent. -/
lemma Detached.tenantLeaf_iff :
    TenantLeaf t' g' tenant m ↔ (TenantLeaf t g tenant m ∧ m ≠ n) ∨
    t'.newLeafAbove n tenant = some m := by
  rw [h.newLeafAbove_eq_some ht ht' hleaf]
  constructor
  · intro hm
    obtain ⟨⟨hlive, hhas⟩, hne⟩ := h.mem_and_has.mp ⟨hm.mem, hm.has⟩
    have hne : m ≠ n := fun heq => hne ⟨heq, rfl⟩
    by_cases hp : n ≠ root ∧ m = g.parent n
    · exact .inr ⟨hp.1, hp.2, hm⟩
    · refine .inl ⟨⟨hlive, hhas, fun m' hm' hroot hparent hmt => ?_⟩, hne⟩
      have hne' : m' ≠ n := by
        rintro rfl
        exact hp ⟨hroot, hparent.symm⟩
      obtain ⟨hm', hmt⟩ := h.mem_and_has.mpr ⟨⟨hm', hmt⟩, fun hand => hne' hand.1⟩
      exact hm.noChild m' hm' hroot (h.parent ▸ hparent) hmt
  · rintro (⟨hm, hne⟩ | ⟨_, _, hm⟩)
    · obtain ⟨hlive, hhas⟩ := h.mem_and_has.mpr ⟨⟨hm.mem, hm.has⟩, fun hand => hne hand.1⟩
      refine ⟨hlive, hhas, fun m' hm' hroot hparent hmt => ?_⟩
      obtain ⟨⟨hm', hmt⟩, _⟩ := h.mem_and_has.mp ⟨hm', hmt⟩
      exact hm.noChild m' hm' hroot (h.parent ▸ hparent) hmt
    · exact hm

end

/-! ### Removal -/

/-- One tenant is emptied. -/
structure Emptied (t : Tree) (g : Shape) (tenant : TenantId) (t' : Tree) (g' : Shape) : Prop where
  holders : t'.holders g' tenant = ∅
  strings : ∀ tenant' ≠ tenant, t'.strings g' tenant' = t.strings g tenant'
  sizes : ∀ tenant' ≠ tenant, t'.size g' tenant' = t.size g tenant'
  counts : t'.tenantCharCount = t.tenantCharCount

/-- The loop takes a tenant off every node. -/
lemma removeLoop_spec :
    ∀ {fuel : Nat} {t : Tree} {g : Shape} {queue : List NodeId}, t.Owned g → queue.Nodup →
    (∀ m, m ∈ queue ↔ TenantLeaf t g tenant m) → (t.holders g tenant).card ≤ fuel →
    ∃ t' g', removeLoop tenant fuel t queue = some t' ∧ t'.Owned g' ∧ Emptied t g tenant t' g' := by
  intro fuel
  -- the queue has the nodes where the tenant's texts end, each once
  induction fuel with
  | zero =>
    intro t g queue h _ hmem hfuel
    have hnone : t.holders g tenant = ∅ := card_eq_zero.mp (Nat.le_zero.mp hfuel)
    have hqueue : queue = [] := by
      refine eq_nil_iff_forall_not_mem.mpr fun m hm => ?_
      have hleaf := (hmem m).mp hm
      exact (eq_empty_iff_forall_notMem.mp hnone m) (mem_holders.mpr ⟨hleaf.mem, hleaf.has⟩)
    subst hqueue
    exact ⟨t, g, rfl, h, hnone, fun _ _ => rfl, fun _ _ => rfl, rfl⟩
  | succ fuel ih =>
    intro t g queue h hnodup hmem hfuel
    cases queue with
    | nil =>
      have hnone : t.holders g tenant = ∅ := by
        refine eq_empty_iff_forall_notMem.mpr fun n hn => ?_
        obtain ⟨hn, hhas⟩ := mem_holders.mp hn
        obtain ⟨m, hleaf⟩ := h.exists_tenantLeaf hn hhas
        cases (hmem m).mpr hleaf
      exact ⟨t, g, rfl, h, hnone, fun _ _ => rfl, fun _ _ => rfl, rfl⟩
    | cons curr queue =>
      have hleaf := (hmem curr).mp mem_cons_self
      obtain ⟨g1, h1, hd⟩ := detachTenant_spec h hleaf
      obtain ⟨hcurr, hnodup⟩ := nodup_cons.mp hnodup
      rw [removeLoop]
      generalize t.detachTenant curr tenant = t1 at h1 hd
      have hiff := fun m => hd.tenantLeaf_iff (m := m) h h1 hleaf
      have hmem' : ∀ m, m ∈ queue ++ (t1.newLeafAbove curr tenant).toList ↔
          TenantLeaf t1 g1 tenant m := by
        intro m
        rw [mem_append, Option.mem_toList, hiff, ← hmem, List.mem_cons]
        constructor
        · rintro (hm | hm)
          · exact .inl ⟨.inr hm, fun heq => hcurr (heq ▸ hm)⟩
          · exact .inr hm
        · rintro (⟨heq | hm, hne⟩ | hm)
          · exact absurd heq hne
          · exact .inl hm
          · exact .inr hm
      -- the parent had a child with the tenant until now
      have hnodup' : (queue ++ (t1.newLeafAbove curr tenant).toList).Nodup := by
        refine nodup_append'.mpr ⟨hnodup, ?_, fun m hm hnew => ?_⟩
        · cases t1.newLeafAbove curr tenant <;> simp
        obtain ⟨hroot, rfl, _⟩ := (hd.newLeafAbove_eq_some h h1 hleaf).mp (mem_toList.mp hnew)
        exact ((hmem _).mp (mem_cons_of_mem _ hm)).noChild curr hleaf.mem hroot rfl hleaf.has
      have hcard := hd.card_holders hleaf
      obtain ⟨t', g', hloop, h', he⟩ := ih h1 hnodup' hmem' (by omega)
      exact ⟨t', g', hloop, h', he.holders,
        fun tenant' hne => (he.strings tenant' hne).trans (hd.strings_of_ne hne),
        fun tenant' hne => (he.sizes tenant' hne).trans (hd.size_of_ne hne),
        he.counts.trans hd.counts⟩

/-- The traversal meets each node once. -/
lemma Shaped.traverse (h : Shaped t.core t.fresh g) :
    ∃ visited, t.traverse = some visited ∧ visited.Nodup ∧ ∀ n, n ∈ visited ↔ n ∈ g.live := by
  have hmem : ∀ p ∈ g.live, ∀ n, n ∈ t.childIds p ↔ n ∈ g.live ∧ n ≠ g.root ∧ g.parent n = p := by
    intro p hp n
    rw [childIds, mem_map_snd_iff, h.root_eq]
    constructor
    · rintro ⟨c, hget⟩
      obtain ⟨hn, hroot, hparent, _⟩ := h.of_child p hp c n hget
      exact ⟨hn, hroot, hparent⟩
    · rintro ⟨hn, hroot, rfl⟩
      obtain ⟨c, _, hget⟩ := h.child n hn hroot
      exact ⟨c, hget⟩
  have hnodup : ∀ p ∈ g.live, (t.childIds p).Nodup := by
    intro p hp
    refine nodup_map_snd fun c c' n hget hget' => ?_
    obtain ⟨_, _, _, hhead⟩ := h.of_child p hp c n hget
    obtain ⟨_, _, _, hhead'⟩ := h.of_child p hp c' n hget'
    exact some.inj (hhead.symm.trans hhead')
  have hchildren : g.IsChildren fun n => (t.childIds n).reverse :=
    ⟨fun p hp => nodup_reverse.mpr (hnodup p hp), fun p hp n => mem_reverse.trans (hmem p hp n)⟩
  have hfuel : g.live.card ≤ t.fresh := by
    have hsub : g.live ⊆ Finset.range t.fresh := fun n hn => Finset.mem_range.mpr (h.lt_fresh n hn)
    exact (card_le_card hsub).trans_eq (card_range _)
  have hwalk := h.valid.stackWalk_root hchildren hfuel
  rwa [h.root_eq] at hwalk

lemma sum_visited {visited : List NodeId} (hnodup : visited.Nodup)
    (hmem : ∀ n, n ∈ visited ↔ n ∈ g.live) (f : NodeId → Nat) :
    (visited.map f).sum = ∑ n ∈ g.live, f n := by
  have hlive : visited.toFinset = g.live := ext fun n => mem_toFinset.trans (hmem n)
  rw [← hlive, sum_toFinset f hnodup]

/-- Afterwards the tenant has no text, and the others have theirs. -/
lemma removeTenant_spec (h : t.Sound g) (tenant : TenantId) :
    ∃ t' g', t.removeTenant tenant = some t' ∧ t'.Sound g' ∧
    ∀ tenant', t'.strings g' tenant' = if tenant' = tenant then ∅ else t.strings g tenant' := by
  obtain ⟨visited, hvisited, hnodup, hmem⟩ := h.shaped.traverse
  have hcard : (t.holders g tenant).card ≤ t.fresh := by
    have hsub : t.holders g tenant ⊆ range t.fresh :=
      fun n hn => Finset.mem_range.mpr (h.shaped.lt_fresh n (mem_holders.mp hn).1)
    exact (card_le_card hsub).trans_eq (card_range _)
  have hleaves :
    ∀ m, m ∈ visited.filter (fun n => t.hasTenant n tenant && !t.hasChildWithTenant n tenant) ↔
      TenantLeaf t g tenant m := by
    intro m
    rw [List.mem_filter, hmem, h.toOwned.tenantLeaf_iff]
  obtain ⟨t1, g1, hloop, h1, he⟩ := removeLoop_spec h.toOwned (hnodup.filter _) hleaves hcard
  refine ⟨{t1 with tenantCharCount := t1.tenantCharCount.erase tenant},
    g1, ?_, ⟨⟨h1.shaped, h1.up, h1.used, h1.dead⟩, ?_⟩, ?_⟩
  · rw [removeTenant, hvisited]
    simp [hloop]
  · intro tenant'
    rw [charCount, get?_erase]
    by_cases heq : tenant' = tenant
    · rw [if_pos heq, heq]
      have hsize : t1.size g1 tenant = 0 := by rw [size_eq, he.holders, sum_empty]
      exact hsize.symm
    · rw [if_neg heq, he.counts]
      exact (h.counts tenant').trans (he.sizes tenant' heq).symm
  · intro tenant'
    split
    · next heq =>
      refine Set.eq_empty_iff_forall_notMem.mpr fun s hs => ?_
      obtain ⟨n, hn, hhas, _⟩ := mem_strings.mp hs
      exact eq_empty_iff_forall_notMem.mp he.holders n (mem_holders.mpr ⟨hn, heq ▸ hhas⟩)
    · next hne => exact he.strings tenant' hne

/-! ### Eviction -/

/-- How many tenants the nodes have together. -/
def tenancies (t : Tree) (g : Shape) : Nat :=
  ∑ n ∈ g.live, (t.nodes n).tenantLastAccessTime.items.length

lemma Detached.tenancies (hleaf : TenantLeaf t g tenant n) (h : Detached t g n tenant t' g') :
    t'.tenancies g' + 1 = t.tenancies g := by
  have hone : ∑ m ∈ g.live, (if m = n then 1 else 0) = 1 := by
    rw [sum_ite_eq', if_pos hleaf.mem]
  have hsum : ∑ m ∈ g.live, (t'.nodes m).tenantLastAccessTime.items.length + 1 = t.tenancies g := by
    rw [← hone, ← sum_add_distrib, Tree.tenancies]
    refine sum_congr rfl fun m _ => ?_
    rw [h.tenants]
    exact length_dropTenant hleaf.has m
  rw [← hsum, Tree.tenancies, Nat.add_right_cancel_iff]
  rcases h.live with hlive | ⟨hlive, hempty⟩
  · rw [hlive]
  · rw [hlive, ← sum_erase_add _ _ hleaf.mem]
    have hnil : (t'.nodes n).tenantLastAccessTime.items = [] := by
      rw [h.tenants]
      exact items_eq_nil_iff_hasTenant.mpr hempty
    rw [hnil, length_nil, add_zero]

lemma popEntry_spec (tie : List EvictionEntry → Nat) (pq : List EvictionEntry) :
    popEntry tie pq = none ∨ ∃ e pq', popEntry tie pq = some (e, pq') ∧
    pq'.length + 1 = pq.length := by
  rw [popEntry]
  generalize hlowest : ((List.range pq.length).filter fun i =>
    pq.all fun e => decide ((pq[i]?.map (·.timestamp)).getD 0 ≤ e.timestamp)) = lowest
  cases hi : lowest[tie pq % lowest.length]? with
  | none => exact .inl rfl
  | some i =>
    have hmem : i ∈ lowest := mem_of_getElem? hi
    rw [← hlowest, mem_filter, List.mem_range] at hmem
    refine .inr ⟨pq[i], pq.eraseIdx i, ?_, ?_⟩
    · rw [bind_some, getElem?_eq_getElem hmem.1, map_some]
    · rw [length_eraseIdx, if_pos hmem.1]
      omega

lemma subCharCount_frame (k : Nat) :
    (t.subCharCount tenant k).nodes = t.nodes ∧ (t.subCharCount tenant k).fresh = t.fresh := by
  rw [subCharCount]
  split <;> exact ⟨rfl, rfl⟩

lemma charCount_subCharCount (k : Nat) : (t.subCharCount tenant k).charCount tenant' =
    if tenant' = tenant then t.charCount tenant - k else t.charCount tenant' := by
  rw [subCharCount, charCount, charCount, charCount]
  cases hcount : t.tenantCharCount.get? tenant with
  | none =>
    by_cases heq : tenant' = tenant
    · rw [if_pos heq, heq]
      rw [hcount, getD_none, Nat.zero_sub]
    · rw [if_neg heq]
  | some count =>
    rw [get?_set]
    split <;> rfl

/-- One round of the eviction. -/
lemma Sound.evict (h : t.Sound g) (hleaf : TenantLeaf t g tenant n)
    (heq : (t.subCharCount tenant (t.nodes n).text.charCount).detachTenant n tenant = t') :
    ∃ g', t'.Sound g' ∧
      (∀ tenant', t'.strings g' tenant' ⊆ t.strings g tenant') ∧
      t'.tenancies g' + 1 = t.tenancies g := by
  generalize ht1 : t.subCharCount tenant (t.nodes n).text.charCount = t1 at heq
  have hnodes : t1.nodes = t.nodes := ht1 ▸ (subCharCount_frame _).1
  have hcore : t1.core = t.core := by
    funext m
    rw [core, core, hnodes]
  have htenants : ∀ m tenant', t1.hasTenant m tenant' = t.hasTenant m tenant' := by
    intro m tenant'
    rw [hasTenant, hasTenant, hnodes]
  have h1 : t1.Owned g := h.toOwned.congr htenants hcore (ht1 ▸ (subCharCount_frame _).2)
  have hleaf1 : TenantLeaf t1 g tenant n := by
    refine ⟨hleaf.mem, (htenants _ _).trans hleaf.has, fun m hm hroot hparent => ?_⟩
    rw [htenants]
    exact hleaf.noChild m hm hroot hparent
  obtain ⟨g', h', hd⟩ := detachTenant_spec h1 hleaf1
  rw [heq] at h' hd
  refine ⟨g', ⟨h', fun tenant' => ?_⟩, fun tenant' => ?_, ?_⟩
  · rw [hd.charCount, ← ht1, charCount_subCharCount, h.counts, h.counts,
      ← size_congr htenants hcore]
    split
    · next heq =>
      have hsize := hd.size_add hleaf1
      rw [heq, (t.nodes n).text.charCount_eq]
      rw [hcore] at hsize
      exact Nat.sub_eq_of_eq_add hsize.symm
    · next hne => exact (hd.size_of_ne hne).symm
  · rw [← strings_congr htenants]
    exact hd.strings_subset
  · rw [hd.tenancies hleaf1, tenancies, tenancies, hnodes]

/-- The loop ends, and no tenant has a text that it did not have. -/
lemma evictLoop_spec {tie : List EvictionEntry → Nat} {maxSize : Nat} :
    ∀ {fuel : Nat} {t : Tree} {g : Shape}
    {pq : List EvictionEntry}, t.Sound g → pq.length + t.tenancies g ≤ fuel →
    ∃ t' g', evictLoop tie maxSize fuel t pq = some t' ∧ t'.Sound g' ∧
    ∀ tenant, t'.strings g' tenant ⊆ t.strings g tenant := by
  intro fuel
  induction fuel with
  | zero =>
    intro t g pq h hfuel
    rcases popEntry_spec tie pq with hpop | ⟨e, pq', _, hlen⟩
    · refine ⟨t, g, ?_, h, fun _ => subset_rfl⟩
      rw [evictLoop, hpop]
    · omega
  | succ fuel ih =>
    intro t g pq h hfuel
    rcases popEntry_spec tie pq with hpop | ⟨e, pq', hpop, hlen⟩
    · refine ⟨t, g, ?_, h, fun _ => subset_rfl⟩
      rw [evictLoop, hpop]
    rw [evictLoop, hpop]
    dsimp only
    split_ifs with hsmall hstill
    · exact ih h (by omega)
    · exact ih h (by omega)
    · -- a node outside the tree has no tenants, so the entry is of a node of the tree
      have hstill : (t.hasTenant e.node e.tenant && !t.hasChildWithTenant e.node e.tenant) =
          true := by
        simpa using hstill
      have hhas := (Bool.and_eq_true_iff.mp hstill).1
      have hlive : e.node ∈ g.live := by
        by_contra hdead
        exact h.dead e.node hdead e.tenant hhas
      have hleaf := h.toOwned.tenantLeaf_iff.mpr ⟨hlive, hstill⟩
      generalize ht1 :
        (t.subCharCount e.tenant (t.nodes e.node).text.charCount).detachTenant e.node e.tenant = t1
      obtain ⟨g1, h1, hsub, htenancies⟩ := h.evict hleaf ht1
      generalize ((t1.newLeafAbove e.node e.tenant).bind fun parent =>
        t1.evictionEntry parent e.tenant) = pushed
      have hpushed : pushed.toList.length ≤ 1 := by cases pushed <;> simp
      have hfuel' : (pq' ++ pushed.toList).length + t1.tenancies g1 ≤ fuel := by
        rw [length_append]
        omega
      obtain ⟨t', g', hloop, h', hsub'⟩ := ih h1 hfuel'
      exact ⟨t', g', hloop, h', fun tenant => (hsub' tenant).trans (hsub tenant)⟩

lemma evictTenantBySize_spec (h : t.Sound g) (tie : List EvictionEntry → Nat) (maxSize : Nat) :
    ∃ t' g', t.evictTenantBySize tie maxSize = some t' ∧ t'.Sound g' ∧
    ∀ tenant, t'.strings g' tenant ⊆ t.strings g tenant := by
  obtain ⟨visited, hvisited, hnodup, hmem⟩ := h.shaped.traverse
  have hsum : (visited.map fun n => (t.nodes n).tenantLastAccessTime.items.length).sum =
    t.tenancies g := sum_visited hnodup hmem _
  rw [evictTenantBySize, hvisited, bind_eq_bind, bind_some, hsum]
  exact evictLoop_spec h le_rfl

/-! ### Sizes -/

/-- The counters are the sizes. -/
lemma getUsedSizePerTenant_spec (h : t.Sound g) :
    ∃ used, t.getUsedSizePerTenant = some used ∧ ∀ tenant, used tenant = t.charCount tenant := by
  obtain ⟨visited, hvisited, hnodup, hmem⟩ := h.shaped.traverse
  refine ⟨_, by rw [getUsedSizePerTenant, hvisited]; rfl, fun tenant => ?_⟩
  refine (sum_visited hnodup hmem _).trans ?_
  rw [h.counts, size]
  refine sum_congr rfl fun n _ => ?_
  rw [(t.nodes n).text.charCount_eq]
  rfl

/-- The count of a tenant is the number of its non-empty strings. -/
lemma Sound.charCount_eq_ncard (h : t.Sound g) (tenant : TenantId) :
    t.charCount tenant = {s ∈ t.strings g tenant | s ≠ []}.ncard := by
  have hup : ∀ n ∈ g.live, n ≠ g.root → t.hasTenant n tenant = true →
      t.hasTenant (g.parent n) tenant = true :=
    fun n hn hroot => h.up n hn (h.shaped.root_eq ▸ hroot) tenant
  have hempty : t.part tenant root = 0 := by
    rw [part, h.shaped.text_root, length_nil, ite_self]
  rw [strings, h.shaped.valid.ncard_words hup, h.counts, size, h.shaped.root_eq,
    ← sum_erase_add _ _ h.shaped.root_mem, hempty, add_zero, sum_filter]
  refine sum_congr rfl fun n hn => ?_
  obtain ⟨hroot, hn⟩ := mem_erase.mp hn
  rw [h.shaped.ownLength hn hroot]
  rfl

end Tree

end Sglang.Gateway
