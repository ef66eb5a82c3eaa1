import Sglang.MemCache.RadixSteps

/-! Walking down a radix tree.

Lookups and insertions go down from the root along a key and may split a node at the
end. One lemma per loop of the source says that the walk returns, within its fuel,
and where it ends: at the longest prefix that is there. -/
namespace Sglang.MemCache

open List Option
open Prefix PrefixMap RadixKey

variable {t : Tree} {g : Shape} {node child : NodeId} {key : RadixKey} {u : List KeyUnit}

/-! ### One step down -/

namespace WellFormed

/-- If something longer than a node's label is there, a child of the node leads to it. -/
lemma child_toward (h : WellFormed t g) (hn : node ∈ g.live) {ns : Namespace}
    (hns : node = t.root ∨ (t.node node).key.ns = ns) {page : List Slot}
    (hh : Holds t ns u page) (hu : g.path node <+: u) (hlt : (g.path node).length < u.length) :
    ∃ m x, Edge t g node m ∧ (t.node m).key.ns = ns ∧
      (g.path node ++ (t.node m).key.iter.take t.pageSize) <+: u ∧ g.path m <+: g.path x ∧
      u <+: g.path x := by
  obtain ⟨x, hx, _, hxns, hux, hpages, _⟩ := h.holds_iff.mp hh
  have hsub := h.subtree_of_prefix hn hx (hu.trans hux) (hns.imp_right fun hn => hn.trans hxns.symm)
  cases hsub.cases_head with
  | inl heq =>
    have := hux.length_le
    rw [heq] at hlt
    omega
  | inr hm =>
    obtain ⟨m, ⟨k, hk⟩, hmx⟩ := hm
    obtain ⟨hmem, hmroot, e, _⟩ := h.edge_of_lookup hn hk
    obtain ⟨_, hmpath, _, hmns⟩ := h.subtree_spec hmem hmx
    refine ⟨m, x, e, (hmns.resolve_left hmroot).trans hxns, ?_, hmpath, hux⟩
    refine prefix_of_prefix_length_le (e.page_prefix.trans hmpath) hux ?_
    have := add_page_le (h.page_dvd_path hn) hpages.2 hlt
    rw [length_append, length_take]
    omega

/-- A child that starts with a page of the key is the one the key's first page names. -/
lemma lookup_of_page (h : WellFormed t g) {node m : NodeId} (e : Edge t g node m)
    (hns : (t.node m).key.ns = key.ns) (hpage : (t.node m).key.iter.take t.pageSize <+: key.iter) :
    (t.node node).children.lookup (key.childKey t.pageSize) = some m := by
  have hlen : ((t.node m).key.iter.take t.pageSize).length = t.pageSize := by
    rw [length_take, length_iter, min_eq_left e.page_le]
  have hle : t.pageSize ≤ key.len := by
    rw [← hlen, ← length_iter]
    exact hpage.length_le
  rw [← e.lookup]
  congr 1
  refine (childKey_eq_iff _ _ _ h.page_pos hle e.page_le).mpr ⟨hns.symm, ?_⟩
  rw [prefix_iff_eq_take, hlen] at hpage
  exact hpage.symm

/-- What the loops find at the child under the key's first page. -/
structure Descent (t : Tree) (g : Shape) (node child : NodeId) (key : RadixKey) (len : Nat) :
    Prop where
  mem : child ∈ g.live
  edge : Edge t g node child
  ns : (t.node child).key.ns = key.ns
  pos : 0 < len
  dvd : t.pageSize ∣ len
  le : len ≤ (t.node child).key.len
  le_key : len ≤ key.len
  agree : (t.node child).key.iter.take len = key.iter.take len
  longest : len < (t.node child).key.len → ∀ u page, Holds t key.ns u page →
    u <+: g.path node ++ key.iter → u.length ≤ (g.path node).length + len

variable (h : WellFormed t g) (hn : node ∈ g.live)
  (hns : node = t.root ∨ (t.node node).key.ns = key.ns)
include h hn hns

/-- With no child under the key's first page, nothing longer is there. -/
lemma stuck (hnone : (t.node node).children.lookup (key.childKey t.pageSize) = none)
    {page : List Slot} (hh : Holds t key.ns u page) (hu : u <+: g.path node ++ key.iter) :
    u.length ≤ (g.path node).length := by
  by_contra hlt
  have hlt := Nat.lt_of_not_le hlt
  have hpre := prefix_of_prefix_length_le (prefix_append _ _) hu hlt.le
  obtain ⟨m, _, e, hmns, hpage, _, _⟩ := h.child_toward hn hns hh hpre hlt
  have := h.lookup_of_page e hmns ((prefix_append_right_inj _).mp (hpage.trans hu))
  rw [hnone] at this
  cases this

lemma descent (hpos : 0 < key.len) (hdvd : t.pageSize ∣ key.len)
    (hchild : (t.node node).children.lookup (key.childKey t.pageSize) = some child) :
    ∃ len, (t.node child).key.match key t.pageSize = some len ∧ Descent t g node child key len := by
  obtain ⟨hmem, _, e, hkey⟩ := h.edge_of_lookup hn hchild
  have hpage : t.pageSize ≤ key.len := Nat.le_of_dvd hpos hdvd
  obtain ⟨hcns, hfirst⟩ := (childKey_eq_iff _ _ _ h.page_pos e.page_le hpage).mp hkey
  have hmatch := match_eq _ _ _ h.page_pos hcns e.aligned hdvd
  have hle := common_le_left (t.node child).key.iter key.iter
  have hle' := common_le_right (t.node child).key.iter key.iter
  rw [length_iter] at hle hle'
  have hfloor := floor_le t.pageSize (common (t.node child).key.iter key.iter)
  have hone : t.pageSize ≤ common (t.node child).key.iter key.iter := by
    apply le_common_of_take_eq _ _ _ _ _ hfirst
    · rw [length_iter]; exact e.page_le
    · rw [length_iter]; exact hpage
  refine ⟨_, hmatch, hmem, e, hcns, ?_, dvd_floor _ _, hfloor.trans hle, hfloor.trans hle', ?_, ?_⟩
  · exact lt_of_lt_of_le h.page_pos (le_floor (dvd_refl _) hone)
  · exact take_eq_of_le_common _ _ _ hfloor
  · intro hlt u page hh hu
    by_contra hlong
    have hpre := prefix_of_prefix_length_le (prefix_append _ _) hu (by omega)
    obtain ⟨m, x, em, hmns, hmpage, hmx, hux⟩ := h.child_toward hn hns hh hpre (by omega)
    have hm := h.lookup_of_page em hmns ((prefix_append_right_inj _).mp (hmpage.trans hu))
    rw [hchild] at hm
    cases hm
    -- the child and the key agree as far as both the child and `u` go
    have hpages := hh.dvd
    have hbase := h.page_dvd_path hn
    have hj : min (u.length - (g.path node).length) (t.node child).key.len ≤ common
        (t.node child).key.iter key.iter := by
      have hul := hu.length_le
      rw [length_append, length_iter] at hul
      apply le_common_of_take_eq
      · rw [length_iter]; omega
      · rw [length_iter]; omega
      · exact take_eq_of_shared (e.path ▸ hmx) hux hu (by rw [length_iter]; omega) (by omega)
    have hjd : t.pageSize ∣ min (u.length - (g.path node).length) (t.node child).key.len := by
      rcases le_total (u.length - (g.path node).length) (t.node child).key.len with hc | hc
      · rw [min_eq_left hc]
        exact Nat.dvd_sub hpages hbase
      · rw [min_eq_right hc]
        exact e.aligned
    have := le_floor hjd hj
    omega

end WellFormed

/-- The slots an insertion offers, from the first unit on. -/
def InsertParams.slots (params : InsertParams) : List Slot :=
  params.value.getD (params.key.tokenIds.map Int.toNat)

namespace RadixCache

/-! ### Walking down -/

/-- A walk from `node` along the first `len` units of `key` that ends at `node'`. -/
structure Walk (c : RadixCache) (g : Shape) (node : NodeId) (key : RadixKey)
    (c' : RadixCache) (g' : Shape) (node' : NodeId) (len : Nat) : Prop where
  reshape : Reshape c g c' g'
  mem : node' ∈ g'.live
  le : len ≤ key.len
  path : g'.path node' = g.path node ++ key.iter.take len
  vals : g.vals node <+: g'.vals node'
  ns : node' = c'.tree.root ∨ (c'.tree.node node').key.ns = key.ns

/-- Nothing that is there follows the key beyond `len` units. -/
def Longest (t : Tree) (g : Shape) (node : NodeId) (key : RadixKey) (len : Nat) : Prop :=
  ∀ u page, Holds t key.ns u page → u <+: g.path node ++ key.iter →
    u.length ≤ (g.path node).length + len

section Walk
variable {c c₁ c' : RadixCache} {g₁ g' : Shape} {node₁ node' : NodeId} {key₁ : RadixKey}
  {len len₁ len' : Nat}

lemma Walk.here (hq : Quiet c c') (hn : node ∈ g.live)
    (hns : node = c.tree.root ∨ (c.tree.node node).key.ns = key.ns) :
    Walk c g node key c' g node 0 :=
  ⟨.quiet hq, hn, Nat.zero_le _, by simp, prefix_rfl, by rw [hq.tree]; exact hns⟩

section
variable (w : Walk c g node key c₁ g₁ node₁ len₁) (hiter : key₁.iter = key.iter.drop len₁)
  (hns : key₁.ns = key.ns)
include w hiter hns

lemma Walk.trans (w' : Walk c₁ g₁ node₁ key₁ c' g' node' len') :
    Walk c g node key c' g' node' (len₁ + len') := by
  have hlen : key₁.len = key.len - len₁ := by
    rw [← length_iter, hiter, length_drop, length_iter]
  have hle := w.le
  have hle' := w'.le
  refine ⟨w.reshape.trans w'.reshape, w'.mem,
    by omega, ?_, w.vals.trans w'.vals, by rw [← hns]; exact w'.ns⟩
  rw [w'.path, w.path, hiter, append_assoc, take_add]

lemma Walk.longest (h : WellFormed c.tree g) (hl : Longest c₁.tree g₁ node₁ key₁ len') :
    Longest c.tree g node key (len₁ + len') := by
  intro u page hh hu
  have := hl u page (by rw [hns]; exact (w.reshape.holds h _ _ _).mpr hh) (by
    rw [w.path, hiter, append_assoc, take_append_drop]
    exact hu)
  rw [w.path, length_append, length_take, length_iter] at this
  omega

end

lemma longest_zero (hkey : key.len = 0) (t : Tree) : Longest t g node key 0 := by
  intro u page _ hu
  have := hu.length_le
  rw [length_append, length_iter] at this
  omega

lemma Walk.full (hd : WellFormed.Descent c.tree g node child key len)
    (hfull : ¬ len < (c.tree.node child).key.len) (hq : Quiet c c') :
    Walk c g node key c' g child len := by
  have hlen : len = (c.tree.node child).key.len := le_antisymm hd.le (not_lt.mp hfull)
  refine ⟨.quiet hq, hd.mem, hd.le_key, ?_, ?_, .inr ?_⟩
  · rw [hd.edge.path, ← hd.agree, take_of_length_le (by rw [length_iter, hlen])]
  · rw [hd.edge.vals]
    exact prefix_append _ _
  · rw [hq.tree]
    exact hd.ns

section
variable (h : WellFormed c.tree g) (hd : WellFormed.Descent c.tree g node child key len)
include h hd

/-- Down to the upper part of a child whose key is matched in part. -/
lemma Walk.upper (hs : CanSplit c.tree g node child len) (hc : IsSplit c c' node child len) :
    Walk c g node key c' (g.split c.tree node child len) c.counter len := by
  refine ⟨.split hs hc, Shape.mem_split.mpr (.inl rfl), hd.le_key, ?_, ?_, .inr ?_⟩
  · rw [← hd.agree]
    exact Shape.split_path_new
  · rw [show (g.split c.tree node child len).vals c.counter = _ from Shape.split_vals_new]
    exact prefix_append _ _
  · rw [hc.tree]
    show ((c.tree.split node child len).node c.tree.counter).key.ns = key.ns
    rw [Tree.split_new h hs, ns_upto, hd.ns]

/-- A child whose key is matched in part is split, and the walk goes to its upper part. -/
lemma Walk.split (hpart : len < (c.tree.node child).key.len) (hn : node ∈ g.live)
    (hns : node = c.tree.root ∨ (c.tree.node node).key.ns = key.ns) (now : Int) :
    ∃ c' g', (c.touch now child).splitNode now child len = some (c', c.counter) ∧
      g'.vals c.counter = g.vals node ++ (c'.nodes c.counter).value ∧
      Walk c g node key c' g' c.counter len := by
  have hq := quiet_touch c now child
  set c₁ := c.touch now child
  have h1 : WellFormed c₁.tree g := by rwa [hq.tree]
  have hd1 : WellFormed.Descent c₁.tree g node child key len := by rwa [hq.tree]
  have hs : CanSplit c₁.tree g node child len :=
    ⟨hd1.mem, hd1.edge, hd1.pos, by rwa [hq.tree], hd1.dvd⟩
  obtain ⟨c', hsplit, hc'⟩ := splitNode_spec h1 hs now
  have w0 : Walk c g node key c₁ g node 0 := .here hq hn hns
  have w := w0.trans (by simp) rfl (Walk.upper h1 hd1 hs hc')
  rw [zero_add] at w
  refine ⟨c', _, hsplit, ?_, w⟩
  exact Shape.split_vals_new.trans (congrArg _ (hc'.value_new h1 hs).symm)

end

lemma prefix_pageAligned {pageSize : Nat} (hu : u <+: key.iter)
    (hd : pageSize ∣ u.length) : u <+: (key.pageAligned pageSize).iter := by
  rw [iter_pageAligned]
  refine prefix_of_prefix_length_le hu ( take_prefix _ _) ?_
  have := le_floor hd (le_trans hu.length_le (le_of_eq key.length_iter))
  have := floor_le pageSize key.len
  rw [length_take, length_iter]
  omega

lemma Walk.then_quiet (w : Walk c g node key c₁ g₁ node₁ len) (hq : Quiet c₁ c') :
    Walk c g node key c' g₁ node₁ len :=
  ⟨w.reshape.trans (.quiet hq), w.mem, w.le, w.path, w.vals, by rw [hq.tree]; exact w.ns⟩

/-- A walk from the root along the aligned part of a key follows the key. -/
lemma Walk.from_root (h : WellFormed c.tree g)
    (w : Walk c g c.rootNode (key.pageAligned c.pageSize) c' g' node' len)
    (hl : Longest c.tree g c.rootNode (key.pageAligned c.pageSize) len) :
    len ≤ floor c.pageSize key.len ∧ g'.path node' = key.iter.take len ∧
      (node' = c'.tree.root ∨ (c'.tree.node node').key.ns = key.ns) ∧
      ∀ u page, Holds c.tree key.ns u page → u <+: key.iter → u.length ≤ len := by
  have hroot : g.path c.rootNode = [] := h.root_path
  have hle := w.le
  have hns := w.ns
  rw [len_pageAligned] at hle
  rw [ns_pageAligned] at hns
  refine ⟨hle, ?_, hns, ?_⟩
  · rw [w.path, hroot, nil_append, iter_pageAligned, take_take, min_eq_left hle]
  · intro u page hh hu
    have :=
      hl u page (by rw [ns_pageAligned]; exact hh)
      (by rw [hroot, nil_append]; exact prefix_pageAligned hu hh.dvd)
    rwa [hroot, length_nil, zero_add] at this

end Walk

/-! ### Lookup -/

section Loops
variable {c : RadixCache} {g : Shape} {node child : NodeId} {key : RadixKey} {len : Nat}

section
variable (now : Int)

lemma touch_key (n : NodeId) : ((c.touch now n).nodes n).key = (c.nodes n).key := by
  simp [touch, modifyNode]

lemma touch_value (n : NodeId) : ((c.touch now n).nodes n).value = (c.nodes n).value := by
  simp [touch, modifyNode]

section
variable (fuel : Nat) (value : List Slot)

lemma matchPrefixHelper_stop
    (h : key.len = 0 ∨ (c.nodes node).children.lookup (key.childKey c.pageSize) = none) :
    matchPrefixHelper now fuel c node key value = some (c, value, node) := by
  unfold matchPrefixHelper
  rcases h with h | h
  · rw [if_pos h]
  · rw [h, ite_self]

lemma matchPrefixHelper_some (hkey : key.len ≠ 0)
    (hk : (c.nodes node).children.lookup (key.childKey c.pageSize) = some child)
    (hm : (c.nodes child).key.match key c.pageSize = some len) :
    matchPrefixHelper now (fuel + 1) c node key value =
      if len < (c.nodes child).key.len then
        ((c.touch now child).splitNode now child len).map fun (c, newNode) =>
          (c, value ++ (c.nodes newNode).value, newNode)
      else
        matchPrefixHelper now fuel (c.touch now child) child (key.since len)
          (value ++ (c.nodes child).value) := by
  have hpage : (c.touch now child).pageSize = c.pageSize := rfl
  conv_lhs => unfold matchPrefixHelper
  rw [if_neg hkey, hk]
  simp only [touch_key, touch_value, hpage, hm]

/-- **The lookup loop ends at the longest prefix that is there, with its slots.** -/
theorem matchPrefixHelper_spec (h : WellFormed c.tree g)
    (hn : node ∈ g.live) (hns : node = c.tree.root ∨ (c.tree.node node).key.ns = key.ns)
    (hdvd : c.tree.pageSize ∣ key.len) (hfuel : key.len ≤ fuel) :
    ∃ c' g' node' len,
      matchPrefixHelper now fuel c node key value =
      some (c', value ++ (g'.vals node').drop (g.vals node).length, node') ∧
      Walk c g node key c' g' node' len ∧ Longest c.tree g node key len := by
  induction fuel generalizing c node key value with
  | zero =>
    have hkey : key.len = 0 := Nat.le_zero.mp hfuel
    refine ⟨c, g, node, 0, ?_, .here (.refl c) hn hns, longest_zero hkey _⟩
    rw [matchPrefixHelper_stop now 0 value (.inl hkey), drop_length, append_nil]
  | succ fuel ih =>
    by_cases hkey : key.len = 0
    · refine ⟨c, g, node, 0, ?_, .here (.refl c) hn hns, longest_zero hkey _⟩
      rw [matchPrefixHelper_stop now _ value (.inl hkey), drop_length, append_nil]
    cases hchild : (c.tree.node node).children.lookup (key.childKey c.tree.pageSize) with
    | none =>
      refine ⟨c, g, node, 0, ?_, .here (.refl c) hn hns,
        fun u page hh hu => h.stuck hn hns hchild hh hu⟩
      rw [matchPrefixHelper_stop now _ value (.inr hchild), drop_length, append_nil]
    | some child =>
      obtain ⟨len, hmatch, hd⟩ := h.descent hn hns (pos_of_ne_zero hkey) hdvd hchild
      have hq := quiet_touch c now child
      have h1 : WellFormed (c.touch now child).tree g := by rwa [hq.tree]
      rw [matchPrefixHelper_some now fuel value hkey hchild hmatch]
      by_cases hpart : len < (c.nodes child).key.len
      · obtain ⟨c', g', hsplit, hvals, w⟩ := Walk.split h hd hpart hn hns now
        refine ⟨c', g', c.counter, len, ?_, w, hd.longest hpart⟩
        rw [if_pos hpart, hsplit, hvals, drop_left]
        rfl
      · have w := Walk.full hd hpart hq
        have hiter : (key.since len).iter = key.iter.drop len := iter_since key len
        obtain ⟨c', g', node', len', heq, w', hl⟩ :=
          @ih _ _ (key.since len) (value ++ (c.nodes child).value)
          h1 hd.mem (.inr (by rw [hq.tree, ns_since]; exact hd.ns))
          (by rw [hq.tree, len_since]; exact Nat.dvd_sub hdvd hd.dvd)
          (by have := hd.pos; rw [len_since]; omega)
        refine ⟨c', g', node', len + len', ?_, w.trans hiter (ns_since key len) w',
          w.longest hiter (ns_since key len) h hl⟩
        obtain ⟨rest, hrest⟩ := w'.vals
        have hvals : g.vals child = g.vals node ++ (c.nodes child).value := hd.edge.vals
        rw [if_neg hpart, heq, ← hrest, drop_left, hvals, append_assoc, append_assoc, drop_left]

end

end

/-- What a lookup returns: the node at the end of the longest prefix that is there, and its slots.
-/
structure Matched (c : RadixCache) (g : Shape) (key : RadixKey) (c' : RadixCache) (g' : Shape)
    (r : MatchResult) (len : Nat) : Prop where
  reshape : Reshape c g c' g'
  mem : r.lastDeviceNode ∈ g'.live
  le : len ≤ key.len
  path : g'.path r.lastDeviceNode = key.iter.take len
  vals : g'.vals r.lastDeviceNode = r.deviceIndices
  ns : r.lastDeviceNode = c'.tree.root ∨ (c'.tree.node r.lastDeviceNode).key.ns = key.ns
  longest : ∀ u page, Holds c.tree key.ns u page → u <+: key.iter → u.length ≤ len

lemma matchPrefix_off (now : Int) (key : RadixKey) (hoff : c.disable = true) :
    c.matchPrefix now key = some (c, ⟨[], c.rootNode⟩) := by
  simp [matchPrefix, hoff]

lemma matchPrefix_spec (now : Int) (key : RadixKey) (h : WellFormed c.tree g)
    (hon : c.disable = false) :
    ∃ c' r g' len, c.matchPrefix now key = some (c', r) ∧ Matched c g
    (key.view c.isEagle) c' g' r len := by
  have heq : c.matchPrefix now key = if c.disable || (key.view c.isEagle).len = 0 then
    some (c, ⟨[], c.rootNode⟩)
      else if ((key.view c.isEagle).pageAligned c.pageSize).len = 0 then some (c, ⟨[], c.rootNode⟩)
      else (matchPrefixHelper now ((key.view c.isEagle).pageAligned c.pageSize).len
        (c.touch now c.rootNode)
        c.rootNode ((key.view c.isEagle).pageAligned c.pageSize) []).map fun p =>
          (p.1, ⟨p.2.1, p.2.2⟩) := rfl
  rw [heq]
  generalize key.view c.isEagle = k
  by_cases hempty : (k.pageAligned c.pageSize).len = 0
  · refine ⟨c, _, g, 0,
      by rw [if_pos hempty, ite_self], .quiet (.refl c), h.root_mem, Nat.zero_le _, h.root_path, h.root_vals, .inl rfl,
      fun u page hh hu => ?_⟩
    have := (prefix_pageAligned hu hh.dvd).length_le
    have := hh.length_pos
    have hp : (k.pageAligned c.tree.pageSize).iter.length = 0 := by rw [length_iter]; exact hempty
    omega
  have hkey : ¬ (c.disable || decide (k.len = 0)) = true := by
    have hle := floor_le c.pageSize k.len
    rw [len_pageAligned] at hempty
    simp only [hon, Bool.false_or, decide_eq_true_eq]
    omega
  have hq := quiet_touch c now c.rootNode
  have h1 : WellFormed (c.touch now c.rootNode).tree g := by rwa [hq.tree]
  have hdvd : c.pageSize ∣ (k.pageAligned c.pageSize).len := by
    rw [len_pageAligned]
    exact dvd_floor _ _
  have hmem : c.rootNode ∈ g.live := h.root_mem
  obtain ⟨c', g', node', len, heq, w, hl⟩ :=
    matchPrefixHelper_spec now _ [] h1 hmem (.inl rfl) hdvd (le_refl _)
  have w' : Walk c g c.rootNode (k.pageAligned c.pageSize) c' g' node' len :=
    ⟨(Reshape.quiet hq).trans w.reshape, w.mem, w.le, w.path, w.vals, w.ns⟩
  obtain ⟨hle, hpath, hns, hlong⟩ := w'.from_root h (by rwa [hq.tree] at hl)
  refine ⟨c', ⟨g'.vals node', node'⟩, g', len, ?_, w'.reshape, w'.mem,
    hle.trans (floor_le _ _), hpath, rfl, hns, hlong⟩
  have hroot : g.vals c.rootNode = [] := h.root_vals
  rw [if_neg hkey, if_neg hempty, heq, hroot]
  rfl

/-! ### Insertion -/

section
variable (now priority : Int)

section
variable (chunked : Bool)

section
variable (fuel : Nat) (value : List Slot) (total : Nat)

lemma insertLoop_stop
    (h : key.len = 0 ∨ (c.nodes node).children.lookup (key.childKey c.pageSize) = none) :
    insertLoop now priority chunked fuel c node key value total =
    some (c, node, key, value, total) := by
  unfold insertLoop
  rcases h with h | h
  · rw [if_pos h]
  · rw [h, ite_self]

lemma insertLoop_some (hkey : key.len ≠ 0)
    (hk : (c.nodes node).children.lookup (key.childKey c.pageSize) = some child)
    (hm : (c.nodes child).key.match key c.pageSize = some len) :
    insertLoop now priority chunked (fuel + 1) c node key value total =
      if len < (c.nodes child).key.len then
        ((c.touch now child).splitNode now child len).bind fun (c, newNode) =>
          insertLoop now priority chunked fuel
            ((c.raisePriority newNode priority).incHitCount newNode chunked)
            newNode (key.since len) (value.drop len) (total + len)
      else
        insertLoop now priority chunked fuel
          (((c.touch now child).raisePriority child priority).incHitCount child chunked) child
          (key.since len) (value.drop len) (total + len) := by
  have hpage : (c.touch now child).pageSize = c.pageSize := rfl
  conv_lhs => unfold insertLoop
  rw [if_neg hkey, hk]
  simp only [touch_key, hpage, hm]
  cases (c.touch now child).splitNode now child len <;> rfl

end

/-- Where the insertion loop stops: key and value are used up as far as the walk went. -/
structure Stopped (c : RadixCache) (node : NodeId) (key : RadixKey) (len : Nat) (key' : RadixKey) :
    Prop where
  iter : key'.iter = key.iter.drop len
  ns : key'.ns = key.ns
  free : key'.len = 0 ∨ (c.tree.node node).children.lookup (key'.childKey c.tree.pageSize) = none

/-- **The insertion loop ends at the longest prefix that is there.** -/
theorem insertLoop_spec (fuel : Nat) (value : List Slot) (total : Nat)
    (h : WellFormed c.tree g) (hn : node ∈ g.live)
    (hns : node = c.tree.root ∨ (c.tree.node node).key.ns = key.ns)
    (hdvd : c.tree.pageSize ∣ key.len) (hfuel : key.len ≤ fuel) :
    ∃ c' g' node' key' len,
      insertLoop now priority chunked fuel c node key value total =
      some (c', node', key', value.drop len, total + len) ∧
      Walk c g node key c' g' node' len ∧ Longest c.tree g node key len ∧
      Stopped c' node' key len key' := by
  induction fuel generalizing c g node key value total with
  | zero =>
    have hkey : key.len = 0 := Nat.le_zero.mp hfuel
    exact ⟨c, g, node, key, 0, insertLoop_stop now priority chunked 0 value total (.inl hkey),
      .here (.refl c) hn hns,
      longest_zero hkey _, rfl, rfl, .inl hkey⟩
  | succ fuel ih =>
    by_cases hkey : key.len = 0
    · exact ⟨c, g, node, key, 0, insertLoop_stop now priority chunked _ value total (.inl hkey),
        .here (.refl c) hn hns, longest_zero hkey _, rfl, rfl, .inl hkey⟩
    cases hchild : (c.tree.node node).children.lookup (key.childKey c.tree.pageSize) with
    | none =>
      exact ⟨c, g, node, key, 0, insertLoop_stop now priority chunked _ value total (.inr hchild),
        .here (.refl c) hn hns, fun u page hh hu => h.stuck hn hns hchild hh hu,
        rfl, rfl, .inr hchild⟩
    | some child =>
      obtain ⟨len, hmatch, hd⟩ := h.descent hn hns (pos_of_ne_zero hkey) hdvd hchild
      have hq := quiet_touch c now child
      have hiter : (key.since len).iter = key.iter.drop len := iter_since key len
      have hsince : (key.since len).ns = key.ns := ns_since key len
      -- either way the walk goes on from a node whose label ends at `len`
      have next : ∀ {c₁ : RadixCache} {g₁ : Shape} {node₁ : NodeId},
          Walk c g node key c₁ g₁ node₁ len → ∃ c' g' node' key' len',
            insertLoop now priority chunked fuel c₁ node₁ (key.since len)
            (value.drop len) (total + len) =
              some (c', node', key', value.drop len', total + len') ∧
            Walk c g node key c' g' node' len' ∧ Longest c.tree g node key len' ∧
            Stopped c' node' key len' key' := by
        intro c₁ g₁ node₁ w
        obtain ⟨c', g', node', key', len', heq, w', hl, hstop⟩ := @ih c₁ g₁ node₁ (key.since len)
          (value.drop len) (total + len) (w.reshape.wellFormed h) w.mem (by rw [hsince]; exact w.ns)
          (by rw [w.reshape.pageSize, len_since]; exact Nat.dvd_sub hdvd hd.dvd)
          (by have := hd.pos; rw [len_since]; omega)
        refine ⟨c', g', node', key', len + len', ?_, w.trans hiter hsince w',
          w.longest hiter hsince h hl,
          ?_, hstop.ns.trans hsince, hstop.free⟩
        · rw [heq, drop_drop, add_assoc]
        · rw [hstop.iter, hiter, drop_drop]
      rw [insertLoop_some now priority chunked fuel value total hkey hchild hmatch]
      by_cases hpart : len < (c.nodes child).key.len
      · obtain ⟨c₁, _, hsplit, -, w⟩ := Walk.split h hd hpart hn hns now
        rw [if_pos hpart, hsplit]
        exact next
          (w.then_quiet ((quiet_raisePriority _ _ priority).trans (quiet_incHitCount _ _ chunked)))
      · rw [if_neg hpart]
        exact next
          ((Walk.full hd hpart hq).then_quiet
          ((quiet_raisePriority _ _ priority).trans (quiet_incHitCount _ _ chunked)))

end

end

lemma insertArgs_eq (c : RadixCache) (params : InsertParams) :
    c.insertArgs params = ((params.key.view c.isEagle).pageAligned c.pageSize,
      params.slots.take (floor c.pageSize (params.key.view c.isEagle).len)) := by
  have hfst := maybeToBigramView_fst params.key c.isEagle params.value
  have hsnd :=
    params.key.maybeToBigramView_snd c.isEagle params.value
    (floor_le c.pageSize (params.key.view c.isEagle).len)
  unfold insertArgs InsertParams.slots
  generalize params.key.maybeToBigramView c.isEagle params.value = kv at *
  obtain ⟨k, v⟩ := kv
  obtain rfl : k = params.key.view c.isEagle := hfst
  cases hv : params.value with
  | none =>
    obtain rfl : v = none := by simpa [hv] using hsnd
    simp [len_pageAligned, take_tokenIds_pageAligned, tokenIds_view]
  | some w =>
    obtain ⟨w', rfl, hw⟩ : ∃ w', v = some w' ∧ _ := by simpa [hv] using hsnd
    simp [len_pageAligned, hw]

lemma le_slots (params : InsertParams) (isEagle : Bool) :
    (params.key.view isEagle).len ≤ params.slots.length := by
  refine (len_view_le _ _).trans ?_
  unfold InsertParams.slots
  cases hv : params.value with
  | none =>
    rw [getD_none, length_map]
    exact params.key.len_le_tokenIds
  | some v => exact params.covers v hv

/-- What an insertion does: a walk to the longest prefix that is there, and a leaf for the rest of
the whole pages. -/
structure Inserted (c : RadixCache) (g : Shape) (key : RadixKey) (slots : List Slot)
    (c' : RadixCache) (g' : Shape) (len : Nat) : Prop where
  le : len ≤ floor c.pageSize key.len
  longest : ∀ u page, Holds c.tree key.ns u page → u <+: key.iter → u.length ≤ len
  grown : ∃ c₁ g₁ node, Reshape c g c₁ g₁ ∧ node ∈ g₁.live ∧ g₁.path node = key.iter.take len ∧
    (node = c₁.tree.root ∨ (c₁.tree.node node).key.ns = key.ns) ∧
    ((len = floor c.pageSize key.len ∧ c' = c₁ ∧ g' = g₁) ∨
      ∃ key' value', key'.iter = (key.iter.take (floor c.pageSize key.len)).drop len ∧
      key'.ns = key.ns ∧
        value' = (slots.take (floor c.pageSize key.len)).drop len ∧
        CanGraft c₁.tree g₁ node key' value' ∧
        IsGraft c₁ c' node key' value' ∧ g' = g₁.graft c₁.tree node key' value')

lemma insert_spec (now : Int) (params : InsertParams) (h : WellFormed c.tree g)
    (hon : c.disable = false) :
    ∃ c' g' len, c.insert now params = some (c', len) ∧ Inserted c g
    (params.key.view c.isEagle) params.slots c' g' len := by
  have hslots := le_slots params c.isEagle
  rw [insert, hon, insertArgs_eq]
  simp only [Bool.false_eq_true, if_false]
  generalize params.key.view c.isEagle = k at *
  generalize params.slots = slots at *
  have hfloor := floor_le c.pageSize k.len
  have hlen := k.len_pageAligned c.pageSize
  unfold insertHelper
  set c₀ := (c.touch now c.rootNode).raisePriority c.rootNode params.priority
  have hq : Quiet c c₀ := (quiet_touch c now _).trans (quiet_raisePriority _ _ _)
  have hroot : c₀.rootNode = c.rootNode := rfl
  set k' := k.pageAligned c.pageSize
  by_cases hempty : k'.len = 0
  · refine ⟨_, g, 0,
      by rw [if_pos hempty], Nat.zero_le _, ?_, _, g, c.rootNode, .quiet hq, h.root_mem, h.root_path,
      .inl rfl, .inl ⟨by omega, rfl, rfl⟩⟩
    intro u page hh hu
    have := (prefix_pageAligned hu hh.dvd).length_le
    rw [length_iter] at this
    exact this.trans (le_of_eq hempty)
  have hdvd : c.pageSize ∣ k'.len := hlen ▸ dvd_floor _ _
  obtain ⟨c₁, g₁, node, key', len, heq, w, hl, hstop⟩ :=
    insertLoop_spec now params.priority params.chunked
    k'.len (slots.take (floor c.pageSize k.len)) 0
    (show WellFormed c₀.tree g by rwa [hq.tree]) (show c.rootNode ∈ g.live from
      h.root_mem) (.inl rfl) hdvd (le_refl _)
  have w' : Walk c g c.rootNode k' c₁ g₁ node len :=
    ⟨(Reshape.quiet hq).trans w.reshape, w.mem, w.le, w.path, w.vals, w.ns⟩
  obtain ⟨hle, hpath, hns, hlong⟩ := w'.from_root h (by rwa [hq.tree] at hl)
  have hiter : key'.iter = (k.iter.take (floor c.pageSize k.len)).drop len := by
    rw [hstop.iter, iter_pageAligned]
  have hlen' : key'.len = floor c.pageSize k.len - len := by
    rw [← length_iter, hiter, length_drop, length_take, length_iter]
    omega
  have hns' : key'.ns = k.ns := hstop.ns.trans (k.ns_pageAligned _)
  by_cases hrest : key'.len = 0
  · refine ⟨c₁, g₁, len, ?_, hle, hlong, c₁, g₁, node, w'.reshape, w'.mem,
      hpath, hns, .inl ⟨by omega, rfl, rfl⟩⟩
    rw [if_neg hempty, hroot, heq]
    simp [hrest]
  have hcan : CanGraft c₁.tree g₁ node key' ((slots.take (floor c.pageSize k.len)).drop len) := by
    refine ⟨w'.mem, hstop.free.resolve_left hrest,
      by rw [hns']; exact hns, pos_of_ne_zero hrest, ?_, ?_⟩
    · rw [w'.reshape.pageSize, hlen']
      have hp := (w'.reshape.wellFormed h).page_dvd_path w'.mem
      rw [hpath, length_take, length_iter, min_eq_left (hle.trans hfloor),
        w'.reshape.pageSize] at hp
      exact Nat.dvd_sub (dvd_floor _ _) hp
    · rw [length_drop, length_take, hlen']
      omega
  refine ⟨_, _, len, ?_, hle, hlong, c₁, g₁, node, w'.reshape, w'.mem,
    hpath, hns, .inr ⟨key', _, hiter, hns', rfl,
    hcan, addLeaf_spec
    ((w'.reshape.wellFormed h).ne_counter w'.mem) now params.priority params.chunked key' _,
    rfl⟩⟩
  rw [if_neg hempty, hroot, heq]
  simp [hrest]

end Loops

end RadixCache

end Sglang.MemCache
