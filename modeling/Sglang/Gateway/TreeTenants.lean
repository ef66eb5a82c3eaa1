import Sglang.Gateway.TreeShape

/-! The tenants of the routing tree.

The tenants of a node are among those of its parent, so that the texts of a tenant are a set of
strings with all their prefixes; a node other than the root has a tenant, and one that is not in the
tree has none. The counts are the sizes of these sets. -/
namespace Sglang.Gateway

open List Option Function Prefix OrderedDict Finset

namespace Tree

def core (t : Tree) (n : NodeId) : NodeCore := (t.nodes n).core

/-- The texts of a tenant, with all their prefixes. -/
def strings (t : Tree) (g : Shape) (tenant : TenantId) : Set (List Char) :=
  g.words fun n => t.hasTenant n tenant

/-- How many characters of a tenant a node has. -/
def part (t : Tree) (tenant : TenantId) (n : NodeId) : Nat :=
  if t.hasTenant n tenant then (t.core n).text.length else 0

/-- How many characters the nodes of a tenant have. -/
def size (t : Tree) (g : Shape) (tenant : TenantId) : Nat := ∑ n ∈ g.live, t.part tenant n

structure Owned (t : Tree) (g : Shape) : Prop where
  shaped : Shaped t.core t.fresh g
  up : ∀ n ∈ g.live, n ≠ root → ∀ tenant, t.hasTenant n tenant → t.hasTenant (g.parent n) tenant
  used : ∀ n ∈ g.live, n ≠ root → ∃ tenant, t.hasTenant n tenant
  dead : ∀ n, n ∉ g.live → ∀ tenant, ¬t.hasTenant n tenant

structure Sound (t : Tree) (g : Shape) : Prop extends Owned t g where
  counts : ∀ tenant, t.charCount tenant = t.size g tenant

variable {t t' : Tree} {g g' : Shape} {n m p : NodeId} {tenant tenant' : TenantId}

lemma mem_strings {s : List Char} :
    s ∈ t.strings g tenant ↔ ∃ n ∈ g.live, t.hasTenant n tenant = true ∧ s <+: g.path n := Iff.rfl

/-! ### The parts of a tree after an update -/

lemma nodes_modifyNode (f : Node → Node) : (t.modifyNode n f).nodes m = if m = n then f (t.nodes n)
    else t.nodes m :=
  update_apply _ _ _ _

lemma core_modifyNode {f : Node → Node} (hf : (f (t.nodes n)).core = (t.nodes n).core) :
    (t.modifyNode n f).core = t.core := by
  funext m
  rw [core, nodes_modifyNode]
  split
  · next h => rw [hf, h]; rfl
  · rfl

lemma core_setTenant (epoch : Nat) : (t.setTenant n tenant epoch).core = t.core :=
  core_modifyNode rfl

lemma hasTenant_setTenant (epoch : Nat) : (t.setTenant n tenant epoch).hasTenant m tenant' =
    if m = n ∧ tenant' = tenant then true else t.hasTenant m tenant' := by
  rw [hasTenant, setTenant, nodes_modifyNode]
  by_cases hm : m = n
  · subst hm
    rw [if_pos rfl, Node.hasTenant, get?_set]
    by_cases htenant : tenant' = tenant
    · rw [if_pos htenant, if_pos ⟨rfl, htenant⟩]
      rfl
    · rw [if_neg htenant, if_neg fun h => htenant h.2]
      rfl
  · rw [if_neg hm, if_neg fun h => hm h.1]
    rfl

lemma charCount_addCharCount (k : Nat) : (t.addCharCount tenant k).charCount tenant' =
    if tenant' = tenant then t.charCount tenant + k else t.charCount tenant' := by
  rw [charCount, addCharCount, get?_set]
  split <;> rfl

/-! ### What depends on the tenants only -/

section
variable (htenants : ∀ n tenant, t'.hasTenant n tenant = t.hasTenant n tenant)
include htenants

lemma Owned.congr (h : t.Owned g) (hcore : t'.core = t.core) (hfresh : t'.fresh = t.fresh) :
    t'.Owned g := by
  refine ⟨by rw [hcore, hfresh]; exact h.shaped, ?_, ?_, ?_⟩
  · simpa only [htenants] using h.up
  · simpa only [htenants] using h.used
  · simpa only [htenants] using h.dead

lemma strings_congr : t'.strings g = t.strings g := by
  funext tenant
  simp only [strings, htenants]

lemma size_congr (hcore : t'.core = t.core) : t'.size g = t.size g := by
  funext tenant
  simp only [size, part, htenants, hcore]

lemma Sound.congr (h : t.Sound g) (hcore : t'.core = t.core) (hfresh : t'.fresh = t.fresh)
    (hcounts : ∀ tenant, t'.charCount tenant = t.charCount tenant) : t'.Sound g := by
  refine ⟨h.toOwned.congr htenants hcore hfresh, fun tenant => ?_⟩
  rw [hcounts, h.counts, size_congr htenants hcore]

end

lemma hasTenant_accessTenant (hn : t.hasTenant n tenant) :
    (t.accessTenant n tenant).hasTenant m tenant' = t.hasTenant m tenant' := by
  refine (hasTenant_setTenant _).trans ?_
  split
  · next h => rw [h.1, h.2, hn]
  · rfl

lemma Sound.accessTenant (h : t.Sound g) (hn : t.hasTenant n tenant) :
    (t.accessTenant n tenant).Sound g :=
  h.congr (fun _ _ => hasTenant_accessTenant hn) (core_setTenant _) rfl fun _ => rfl

/-- The strings of tenants as a text is added to one of them. -/
def Added (before after : TenantId → Set (List Char)) (tenant : TenantId) (text : List Char) :
    Prop :=
  ∀ tenant', after tenant' = if tenant' = tenant then before tenant ∪ {s | s <+: text}
    else before tenant'

lemma Added.trans {a b c : TenantId → Set (List Char)} {text text' : List Char}
    (h : Added a b tenant text) (h' : Added b c tenant text') (hpre : text <+: text') :
    Added a c tenant text' := by
  intro tenant'
  rw [h']
  split
  · have hsub : {s | s <+: text} ⊆ {s | s <+: text'} := fun s hs => List.IsPrefix.trans hs hpre
    rw [h, if_pos rfl, Set.union_assoc, Set.union_eq_right.mpr hsub]
  · next hne => rw [h, if_neg hne]

lemma Owned.added (h : t.Owned g) (hn : n ∈ g.live) (hcore : t'.core = t.core)
    (hfresh : t'.fresh = t.fresh) (hup : n ≠ root → t.hasTenant (g.parent n) tenant)
    (htenants : ∀ m tenant', t'.hasTenant m tenant' = if m = n ∧ tenant' = tenant then
    true else t.hasTenant m tenant') :
    t'.Owned g ∧ Added (t.strings g) (t'.strings g) tenant (g.path n) := by
  have hmono : ∀ m tenant', t.hasTenant m tenant' → t'.hasTenant m tenant' := by
    intro m tenant' hm
    rw [htenants]
    split
    · rfl
    · exact hm
  refine ⟨⟨by rw [hcore, hfresh]; exact h.shaped, ?_, ?_, ?_⟩, ?_⟩
  · intro m hm hroot tenant' hmt
    rw [htenants] at hmt
    split at hmt
    · next heq => exact hmono _ _ (heq.1 ▸ heq.2 ▸ hup (heq.1 ▸ hroot))
    · exact hmono _ _ (h.up m hm hroot tenant' hmt)
  · intro m hm hroot
    obtain ⟨tenant', ht⟩ := h.used m hm hroot
    exact ⟨tenant', hmono _ _ ht⟩
  · intro m hm tenant'
    rw [htenants, if_neg]
    · exact h.dead m hm tenant'
    · rintro ⟨rfl, _⟩
      exact hm hn
  · intro tenant'
    ext s
    by_cases heq : tenant' = tenant
    · subst heq
      rw [if_pos rfl, Set.mem_union, mem_strings, mem_strings]
      constructor
      · rintro ⟨m, hm, hmt, hs⟩
        rw [htenants] at hmt
        split at hmt
        · next heq => exact .inr (heq.1 ▸ hs)
        · exact .inl ⟨m, hm, hmt, hs⟩
      · rintro (⟨m, hm, hmt, hs⟩ | hs)
        · exact ⟨m, hm, hmono _ _ hmt, hs⟩
        · exact ⟨n, hn, by rw [htenants, if_pos ⟨rfl, rfl⟩], hs⟩
    · rw [if_neg heq, mem_strings, mem_strings]
      refine exists_congr fun m => and_congr_right fun hm => ?_
      rw [htenants, if_neg fun hand => heq hand.2]

lemma part_congr (hhas : t'.hasTenant m tenant = t.hasTenant n tenant)
    (htext : (t'.core m).text = (t.core n).text) :
    t'.part tenant m = t.part tenant n := by
  rw [part, part, hhas, htext]

lemma size_add_part (hn : n ∈ g.live)
    (hrest : ∀ m ∈ g.live, m ≠ n → t'.part tenant m = t.part tenant m) :
    t'.size g tenant + t.part tenant n = t.size g tenant + t'.part tenant n := by
  have hsum : ∑ m ∈ g.live.erase n, t'.part tenant m = ∑ m ∈ g.live.erase n, t.part tenant m := by
    refine sum_congr rfl fun m hm => ?_
    obtain ⟨hne, hm⟩ := mem_erase.mp hm
    exact hrest m hm hne
  rw [size, size, ← add_sum_erase g.live _ hn, ← add_sum_erase g.live (t.part tenant) hn, hsum]
  omega

/-! ### Insertion -/

lemma added_self (hn : n ∈ g.live) (hhas : t.hasTenant n tenant) :
    Added (t.strings g) (t.strings g) tenant (g.path n) := by
  intro tenant'
  split
  · next heq =>
    rw [heq, eq_comm, Set.union_eq_left]
    exact fun s hs => ⟨n, hn, hhas, hs⟩
  · rfl

lemma text_core (n : NodeId) : (t.core n).text.length = (t.nodes n).text.charCount :=
  (t.nodes n).text.charCount_eq.symm

lemma added_accessTenant (hn : n ∈ g.live) (hhas : t.hasTenant n tenant) :
    Added (t.strings g) ((t.accessTenant n tenant).strings g) tenant (g.path n ++ []) := by
  rw [append_nil, strings_congr fun _ _ => hasTenant_accessTenant hhas]
  exact added_self hn hhas

/-- A node gets a tenant that its parent has. -/
lemma attachTenant_spec (h : t.Sound g) (hn : n ∈ g.live)
    (hup : n ≠ root → t.hasTenant (g.parent n) tenant) :
    (t.attachTenant n tenant).Sound g ∧ (t.attachTenant n tenant).hasTenant n tenant ∧
      Added (t.strings g) ((t.attachTenant n tenant).strings g) tenant (g.path n) := by
  unfold attachTenant
  split
  · next hhas =>
    exact ⟨h, hhas, added_self hn hhas⟩
  rename_i hhas
  set t₁ := (t.addCharCount tenant (t.nodes n).text.charCount).setTenant n tenant 0
  have hcore : t₁.core = t.core := core_setTenant 0
  have htenants : ∀ m tenant', t₁.hasTenant m tenant' = if m = n ∧ tenant' = tenant then true
      else t.hasTenant m tenant' :=
    fun _ _ => hasTenant_setTenant 0
  obtain ⟨howned, hadded⟩ := h.toOwned.added hn hcore rfl hup htenants
  refine ⟨⟨howned, fun tenant' => ?_⟩, by rw [htenants, if_pos ⟨rfl, rfl⟩], hadded⟩
  have hcount : t₁.charCount tenant' =
      if tenant' = tenant then t.charCount tenant + (t.nodes n).text.charCount
      else t.charCount tenant' := charCount_addCharCount _
  rw [hcount]
  by_cases heq : tenant' = tenant
  · subst heq
    have hsize := @size_add_part t _ g n tenant' hn fun m _ hne =>
      part_congr ((htenants m tenant').trans (if_neg fun hand => hne hand.1))
        (congrArg (fun core => (core m).text) hcore)
    rw [part, part, if_neg hhas, if_pos ((htenants n tenant').trans (if_pos ⟨rfl, rfl⟩)),
      hcore, text_core] at hsize
    rw [if_pos rfl, h.counts]
    omega
  · rw [if_neg heq, h.counts]
    refine sum_congr rfl fun m _ =>
      (part_congr ?_ (congrArg (fun core => (core m).text) hcore)).symm
    exact (htenants m tenant').trans (if_neg fun hand => heq hand.2)

lemma nodes_addNode_setChild {x : Node} {c : Char} (hp : p ≠ t.fresh) :
    ((t.addNode x).setChild p c t.fresh).nodes m =
      if m = t.fresh then x else if m = p then
      {t.nodes p with children := (t.nodes p).children.set c t.fresh} else t.nodes m := by
  rw [setChild, nodes_modifyNode, addNode]
  simp only [update_apply, if_neg hp]
  by_cases hm : m = t.fresh
  · rw [if_pos hm, if_neg fun h => hp (h.symm.trans hm), if_pos hm]
  · rw [if_neg hm, if_neg hm]

/-- The rest of a text becomes a leaf. -/
lemma newLeaf_spec (h : t.Sound g) (hp : p ∈ g.live) (hhas : t.hasTenant p tenant)
    {c : Char} {text : List Char} (htext : text.head? = some c)
    (hvacant : (t.nodes p).children.get? c = none) :
    (t.newLeaf tenant p c text).Sound (g.leaf t.fresh p text) ∧
      Added (t.strings g) ((t.newLeaf tenant p c text).strings (g.leaf t.fresh p text)) tenant
      (g.path p ++ text) := by
  have hpf := h.shaped.ne_fresh hp
  generalize ht' : t.newLeaf tenant p c text = t'
  have hnodes : ∀ m, t'.nodes m = if m = t.fresh then
      { text := .new text, parent := some p, lastTenant := some tenant,
        tenantLastAccessTime := ({} : OrderedDict TenantId Nat).set tenant t.epoch }
      else if m = p then {t.nodes p with children := (t.nodes p).children.set c t.fresh}
        else t.nodes m := by
    intro m
    rw [← ht']
    exact @nodes_addNode_setChild {t with epoch := t.epoch + 1} m p _ c hpf
  have hcore : ∀ m, t'.core m = if m = t.fresh then ⟨{}, text, some p⟩
      else if m = p then {t.core p with children := (t.core p).children.set c t.fresh}
        else t.core m := by
    intro m
    rw [core, hnodes]
    split
    · rfl
    · split <;> rfl
  have htenants : ∀ m tenant', t'.hasTenant m tenant' = if m = t.fresh then
      decide (tenant' = tenant) else t.hasTenant m tenant' := by
    intro m tenant'
    rw [hasTenant, hnodes]
    split
    · rw [Node.hasTenant, get?_set]
      by_cases heq : tenant' = tenant <;> simp [heq, get?]
    · split
      · next hm => rw [hm]; rfl
      · rfl
  have hold : ∀ m ∈ g.live, ∀ tenant', t'.hasTenant m tenant' = t.hasTenant m tenant' :=
    fun m hm tenant' =>
    (htenants m tenant').trans (if_neg (h.shaped.ne_fresh hm))
  have hnew : ∀ tenant', t'.hasTenant t.fresh tenant' = decide (tenant' = tenant) := fun tenant' =>
    (htenants _ tenant').trans (if_pos rfl)
  set g' := g.leaf t.fresh p text
  have hlive : ∀ m, m ∈ g'.live ↔ m = t.fresh ∨ m ∈ g.live := fun m => mem_insert
  have hparent : ∀ m ∈ g.live, g'.parent m = g.parent m :=
    fun m hm => update_of_ne (h.shaped.ne_fresh hm) _ _
  have hparentNew : g'.parent t.fresh = p := update_self _ _ _
  have hpath : ∀ m ∈ g.live, g'.path m = g.path m :=
    fun m hm => update_of_ne (h.shaped.ne_fresh hm) _ _
  have hpathNew : g'.path t.fresh = g.path p ++ text := update_self _ _ _
  have hfresh : t'.fresh = t.fresh + 1 := by rw [← ht']; rfl
  refine ⟨⟨⟨?_, fun m hm hroot tenant' hmt => ?_, fun m hm hroot => ?_, fun m hm tenant' => ?_⟩,
    fun tenant' => ?_⟩, fun tenant' => ?_⟩
  · rw [hfresh]
    exact h.shaped.leaf hp htext hvacant hcore
  · obtain rfl | hm := (hlive m).mp hm
    · rw [hnew, decide_eq_true_iff] at hmt
      rw [hparentNew, hold p hp, hmt]
      exact hhas
    · rw [hold m hm] at hmt
      rw [hparent m hm, hold _ (h.shaped.parent_mem m hm hroot)]
      exact h.up m hm hroot tenant' hmt
  · obtain rfl | hm := (hlive m).mp hm
    · exact ⟨tenant, by rw [hnew, decide_eq_true rfl]⟩
    · obtain ⟨tenant', ht⟩ := h.used m hm hroot
      exact ⟨tenant', by rw [hold m hm]; exact ht⟩
  · rw [hlive, not_or] at hm
    rw [htenants, if_neg hm.1]
    exact h.dead m hm.2 tenant'
  · have hcount : t'.charCount tenant' = if tenant' = tenant then t.charCount tenant + text.length
        else t.charCount tenant' := by
      rw [← ht']
      exact charCount_addCharCount (t := t) text.length
    have hsize : t'.size g' tenant' = t'.part tenant' t.fresh + t.size g tenant' := by
      refine (sum_insert h.shaped.fresh_notMem).trans (congrArg _ (sum_congr rfl fun m hm => ?_))
      refine part_congr (hold m hm tenant') ?_
      rw [hcore, if_neg (h.shaped.ne_fresh hm)]
      split
      · next heq => rw [heq]
      · rfl
    rw [hcount, hsize]
    by_cases heq : tenant' = tenant
    · rw [if_pos heq, part, if_pos (by rw [hnew, decide_eq_true heq]),
        hcore, if_pos rfl, heq, h.counts, add_comm]
    · rw [if_neg heq, part, if_neg (by rw [hnew, decide_eq_true_iff]; exact heq),
        h.counts, zero_add]
  · ext s
    have hmem : s ∈ t'.strings g' tenant' ↔
        s ∈ t.strings g tenant' ∨ tenant' = tenant ∧ s <+: g.path p ++ text := by
      rw [mem_strings, mem_strings]
      constructor
      · rintro ⟨m, hm, hmt, hs⟩
        obtain rfl | hm := (hlive m).mp hm
        · exact .inr ⟨of_decide_eq_true (hnew tenant' ▸ hmt), hpathNew ▸ hs⟩
        · exact .inl ⟨m, hm, hold m hm tenant' ▸ hmt, hpath m hm ▸ hs⟩
      · rintro (⟨m, hm, hmt, hs⟩ | ⟨heq, hs⟩)
        · exact ⟨m, (hlive m).mpr (.inr hm), (hold m hm tenant').trans hmt, (hpath m hm).symm ▸ hs⟩
        · exact ⟨t.fresh, (hlive _).mpr (.inl rfl),
            by rw [hnew, decide_eq_true heq], hpathNew.symm ▸ hs⟩
    rw [hmem]
    split
    · next heq => simp [heq]
    · next hne => simp [hne]

variable {k : Nat}

lemma splitNode_eq {c d : Char} (hn : n ≠ t.fresh) (hp : p ≠ t.fresh) (hnp : n ≠ p)
    (hd : ((t.nodes n).text.splitAtChar k).2.text.head? = some d) :
    ∃ t', t.splitNode p c n k = some (t', t.fresh) ∧
      t'.fresh = t.fresh + 1 ∧ t'.tenantCharCount = t.tenantCharCount ∧
      ∀ m, t'.nodes m = if m = n then
      {t.nodes n with text := ((t.nodes n).text.splitAtChar k).2, parent := some t.fresh}
        else if m = t.fresh then
          { text := ((t.nodes n).text.splitAtChar k).1, parent := some p,
            tenantLastAccessTime := (t.nodes n).tenantLastAccessTime, lastTenant :=
            (t.nodes n).lastTenant,
            children := ({} : OrderedDict Char NodeId).set d n }
        else if m = p then {t.nodes p with children := (t.nodes p).children.set c t.fresh}
          else t.nodes m := by
  unfold splitNode
  simp only [hd, map_some]
  refine ⟨_, rfl, rfl, rfl, fun m => ?_⟩
  rw [nodes_modifyNode, nodes_addNode_setChild hp, nodes_addNode_setChild hp, if_neg hn, if_neg hnp]

/-- Both parts of a split node have its tenants. -/
lemma splitNode_spec (h : t.Sound g) (hn : n ∈ g.live) (hroot : n ≠ root) {c : Char} (hpos : 0 < k)
    (hlt : k < (t.nodes n).text.charCount) (hc : (t.core n).text.head? = some c) : ∃ t',
    t.splitNode (g.parent n) c n k = some (t', t.fresh) ∧ t'.Sound
    (g.split t.fresh n ((t.core n).text.take k)) ∧
      t'.strings (g.split t.fresh n ((t.core n).text.take k)) = t.strings g ∧
      ∀ m ∈ g.live, ∀ tenant, t'.hasTenant m tenant = t.hasTenant m tenant := by
  have hnf := h.shaped.ne_fresh hn
  have hp := h.shaped.parent_mem n hn hroot
  have hpf := h.shaped.ne_fresh hp
  have hpn := h.shaped.parent_ne hn hroot
  have hcount : (t.nodes n).text.charCount = (t.core n).text.length := (text_core n).symm
  obtain ⟨htake, hdrop⟩ := splitAtChar_eq (t.nodes n).text k
  obtain ⟨d, hd⟩ : ∃ d, ((t.core n).text.drop k).head? = some d := by
    rw [head?_drop]
    exact ⟨_, getElem?_eq_getElem (by omega)⟩
  obtain ⟨t', heq, hfresh, hcounts, hnodes⟩ :=
    splitNode_eq (c := c) hnf hpf hpn.symm ((congrArg List.head? hdrop).trans hd)
  have hcore : ∀ m, t'.core m = if m = n then
    ⟨(t.core n).children, (t.core n).text.drop k, some t.fresh⟩
      else if m = t.fresh then ⟨({} : OrderedDict Char NodeId).set d n,
        (t.core n).text.take k, some (g.parent n)⟩
      else if m = g.parent n then
        {t.core (g.parent n) with children := (t.core (g.parent n)).children.set c t.fresh}
      else t.core m := by
    intro m
    rw [core, hnodes]
    split
    · rw [Node.core, hdrop]
      rfl
    · split
      · rw [Node.core, htake]
        rfl
      · split <;> rfl
  have htenants : ∀ m tenant, t'.hasTenant m tenant = if m = t.fresh then t.hasTenant n tenant
      else t.hasTenant m tenant := by
    intro m tenant
    rw [hasTenant, hnodes]
    by_cases hmn : m = n
    · rw [if_pos hmn, if_neg (hmn ▸ hnf), hmn]
      rfl
    rw [if_neg hmn]
    by_cases hmf : m = t.fresh
    · rw [if_pos hmf, if_pos hmf]
      rfl
    · rw [if_neg hmf, if_neg hmf]
      split
      · next hm => rw [hm]; rfl
      · rfl
  have hold : ∀ m ∈ g.live, ∀ tenant, t'.hasTenant m tenant = t.hasTenant m tenant :=
    fun m hm tenant =>
    (htenants m tenant).trans (if_neg (h.shaped.ne_fresh hm))
  have hnew : ∀ tenant, t'.hasTenant t.fresh tenant = t.hasTenant n tenant := fun tenant =>
    (htenants _ tenant).trans (if_pos rfl)
  have hshaped : Shaped t'.core t'.fresh (g.split t.fresh n ((t.core n).text.take k)) := by
    rw [hfresh]
    refine h.shaped.split hn hroot (take_append_drop k _).symm ?_ hd hcore
    rw [head?_take, if_neg (by omega)]
    exact hc
  generalize hg' : g.split t.fresh n ((t.core n).text.take k) = g' at hshaped ⊢
  have hlive : ∀ m, m ∈ g'.live ↔ m = t.fresh ∨ m ∈ g.live := fun m => hg' ▸ mem_insert
  have hparentNew : g'.parent t.fresh = g.parent n := hg' ▸ update_self _ _ _
  have hparentSelf : g'.parent n = t.fresh := hg' ▸ (update_of_ne hnf _ _).trans (update_self _ _ _)
  have hparent : ∀ m ∈ g.live, m ≠ n → g'.parent m = g.parent m := fun m hm hmn =>
    hg' ▸ (update_of_ne (h.shaped.ne_fresh hm) _ _).trans (update_of_ne hmn _ _)
  have hpath : ∀ m ∈ g.live, g'.path m = g.path m :=
    fun m hm => hg' ▸ update_of_ne (h.shaped.ne_fresh hm) _ _
  have hpathNew : g'.path t.fresh <+: g.path n := by
    rw [← hpath n hn, ← hparentSelf]
    exact hshaped.valid.path_parent n ((hlive n).mpr (.inr hn)) (hshaped.root_eq ▸ hroot)
  refine ⟨t', heq,
    ⟨⟨hshaped, fun m hm hmroot tenant hmt => ?_, fun m hm hmroot => ?_, fun m hm tenant => ?_⟩,
    fun tenant => ?_⟩, ?_, hold⟩
  · obtain rfl | hm := (hlive m).mp hm
    · rw [hnew] at hmt
      rw [hparentNew, hold _ hp]
      exact h.up n hn hroot tenant hmt
    · rw [hold m hm] at hmt
      by_cases hmn : m = n
      · rw [hmn, hparentSelf, hnew]
        exact hmn ▸ hmt
      · rw [hparent m hm hmn, hold _ (h.shaped.parent_mem m hm hmroot)]
        exact h.up m hm hmroot tenant hmt
  · obtain rfl | hm := (hlive m).mp hm
    · obtain ⟨tenant, ht⟩ := h.used n hn hroot
      exact ⟨tenant, (hnew tenant).trans ht⟩
    · obtain ⟨tenant, ht⟩ := h.used m hm hmroot
      exact ⟨tenant, (hold m hm tenant).trans ht⟩
  · rw [hlive, not_or] at hm
    rw [htenants, if_neg hm.1]
    exact h.dead m hm.2 tenant
  · have hsum : t'.size g' tenant = t'.part tenant t.fresh + t'.size g tenant := by
      rw [← hg']
      exact sum_insert h.shaped.fresh_notMem
    have hone := @size_add_part t t' g n tenant hn fun m hm hmn => by
      refine part_congr (hold m hm tenant) ?_
      rw [hcore, if_neg hmn, if_neg (h.shaped.ne_fresh hm)]
      split
      · next hm => rw [hm]
      · rfl
    -- the two parts of the text are the text
    have hparts : t'.part tenant t.fresh + t'.part tenant n = t.part tenant n := by
      rw [part, part, part, hnew, hold n hn, hcore, hcore, if_neg hnf.symm, if_pos rfl, if_pos rfl]
      split
      · rw [length_take, length_drop]
        omega
      · rfl
    rw [charCount, hcounts, ← charCount, h.counts, hsum]
    omega
  · funext tenant
    ext s
    rw [mem_strings, mem_strings]
    constructor
    · rintro ⟨m, hm, hmt, hs⟩
      obtain rfl | hm := (hlive m).mp hm
      · exact ⟨n, hn, hnew tenant ▸ hmt, hs.trans hpathNew⟩
      · exact ⟨m, hm, hold m hm tenant ▸ hmt, hpath m hm ▸ hs⟩
    · rintro ⟨m, hm, hmt, hs⟩
      exact ⟨m, (hlive m).mpr (.inr hm), (hold m hm tenant).trans hmt, (hpath m hm).symm ▸ hs⟩

variable {core : NodeId → NodeCore} {fresh : NodeId}

/-- A child under the first character of a text shares that much of it at least. -/
lemma Shaped.toward_child (h : Shaped t.core t.fresh g) (hp : p ∈ g.live)
    {c : Char} (rest : List Char) (hget : (t.nodes p).children.get? c = some n) :
    0 < common (c :: rest) (t.core n).text ∧ common (c :: rest)
    (t.core n).text ≤ (t.core n).text.length ∧
      (c :: rest).take (common (c :: rest) (t.core n).text) = (t.core n).text.take
      (common (c :: rest) (t.core n).text) ∧
      (t.nodes n).text.charCount = (t.core n).text.length ∧
      sharedPrefixCount (c :: rest) (t.nodes n).text.text = common (c :: rest) (t.core n).text := by
  obtain ⟨_, _, _, hhead⟩ := h.of_child p hp c n hget
  obtain ⟨rest', htext⟩ := head?_eq_some_iff.mp hhead
  refine ⟨?_, common_le_right _ _, take_eq_of_le_common _ _ _ (le_refl _),
    (text_core n).symm, sharedPrefixCount_eq _ _⟩
  rw [htext, common, if_pos rfl]
  exact Nat.succ_pos _

/-- The loop adds the text and its beginnings. -/
lemma insertLoop_spec (h : t.Sound g) (hp : p ∈ g.live) (hhas : t.hasTenant p tenant)
    {remaining : List Char} {fuel : Nat} (hfuel : remaining.length ≤ fuel) :
    ∃ t' g', insertLoop tenant fuel t p remaining = some t' ∧ t'.Sound g' ∧
      Added (t.strings g) (t'.strings g') tenant (g.path p ++ remaining) := by
  induction fuel generalizing t g p remaining with
  | zero =>
    obtain rfl := length_eq_zero_iff.mp (Nat.le_zero.mp hfuel)
    exact ⟨_, g, rfl, h.accessTenant hhas, added_accessTenant hp hhas⟩
  | succ fuel ih =>
    cases remaining with
    | nil => exact ⟨_, g, rfl, h.accessTenant hhas, added_accessTenant hp hhas⟩
    | cons c rest =>
      cases hget : (t.nodes p).children.get? c with
      | none =>
        obtain ⟨hsound, hadded⟩ := @newLeaf_spec t g p tenant h hp hhas c (c :: rest) rfl hget
        refine ⟨_, _, ?_, hsound, hadded⟩
        simp only [insertLoop, hget]
      | some n =>
        obtain ⟨hpos, hle, htake, hcount, hshared⟩ := h.shaped.toward_child hp rest hget
        obtain ⟨hn, hroot, rfl, hhead⟩ := h.shaped.of_child p hp c n hget
        generalize hk : common (c :: rest) (t.core n).text = k at *
        have hrest : ((c :: rest).drop k).length ≤ fuel := by
          rw [length_drop]
          omega
        by_cases hlt : k < (t.nodes n).text.charCount
        · obtain ⟨t1, hsplit, hsound, hstrings, hold⟩ := splitNode_spec h hn hroot hpos hlt hhead
          set g₁ := g.split t.fresh n ((t.core n).text.take k)
          have hnew : t.fresh ∈ g₁.live := mem_insert_self _ _
          have hparent : g₁.parent t.fresh = g.parent n := update_self _ _ _
          have hpath : g₁.path t.fresh = g.path (g.parent n) ++ (c :: rest).take k := by
            rw [htake]
            exact update_self _ _ _
          obtain ⟨hattach, hhas', hadded⟩ :=
            @attachTenant_spec t1 _ t.fresh tenant hsound hnew fun _ => by
            rw [hparent, hold _ hp]
            exact hhas
          obtain ⟨t', g', hloop, hsound', hadded'⟩ := ih hattach hnew hhas' hrest
          rw [hpath, append_assoc, take_append_drop] at hadded'
          rw [hpath, hstrings] at hadded
          refine ⟨t', g', ?_, hsound', hadded.trans hadded' ?_⟩
          · simp only [insertLoop, hget, hshared, if_pos hlt, hsplit, advanceByChars_eq,
              hloop, bind_eq_bind, bind_some]
          · exact (prefix_append_right_inj _).mpr ( take_prefix _ _)
        · obtain ⟨hattach, hhas', hadded⟩ := attachTenant_spec h hn fun _ => hhas
          obtain ⟨t', g', hloop, hsound', hadded'⟩ := ih hattach hn hhas' hrest
          have hpath : g.path n = g.path (g.parent n) ++ (c :: rest).take k := by
            rw [h.shaped.path_eq n hn hroot, htake, take_of_length_le (by omega)]
          rw [hpath, append_assoc, take_append_drop] at hadded'
          rw [hpath] at hadded
          refine ⟨t', g', ?_, hsound', hadded.trans hadded' ?_⟩
          · simp only [insertLoop, hget, hshared, if_neg hlt, advanceByChars_eq, hloop]
          · exact (prefix_append_right_inj _).mpr ( take_prefix _ _)

lemma Sound.added_root (h : t.Sound g) (hcore : t'.core = t.core) (hfresh : t'.fresh = t.fresh)
    (htenants : ∀ m tenant', t'.hasTenant m tenant' = if m = root ∧ tenant' = tenant then
    true else t.hasTenant m tenant')
    (hcounts : ∀ tenant', t'.charCount tenant' = t.charCount tenant') :
    t'.Sound g ∧ Added (t.strings g) (t'.strings g) tenant [] := by
  have hroot := h.shaped.root_mem
  obtain ⟨howned, hadded⟩ := h.toOwned.added hroot hcore hfresh (fun hne => absurd rfl hne) htenants
  rw [h.shaped.path_root] at hadded
  refine ⟨⟨howned, fun tenant' => ?_⟩, hadded⟩
  have hpart : ∀ x : Tree, x.core = t.core → x.part tenant' root = 0 := by
    intro x hx
    rw [part, hx, h.shaped.text_root]
    exact ite_self _
  have hsize := @size_add_part t t' g root tenant' hroot fun m _ hm =>
    part_congr ((htenants m tenant').trans (if_neg fun hand => hm hand.1))
      (congrArg (fun core => (core m).text) hcore)
  rw [hpart t rfl, hpart t' hcore] at hsize
  rw [hcounts, h.counts]
  omega

lemma getD_orInsertZero (d : OrderedDict TenantId Nat) :
    ((orInsertZero d tenant).get? tenant').getD 0 = (d.get? tenant').getD 0 := by
  unfold orInsertZero
  split
  · rfl
  rename_i hnone
  rw [get?_set]
  split
  · next heq =>
    rw [not_isSome_iff_eq_none] at hnone
    rw [heq, hnone]
    rfl
  · rfl

lemma isSome_orInsertZero (d : OrderedDict TenantId Nat) :
    ((orInsertZero d tenant).get? tenant').isSome = if tenant' = tenant then true
    else (d.get? tenant').isSome := by
  unfold orInsertZero
  split
  · next hsome =>
    split
    · next heq => rw [heq, hsome]
    · rfl
  · rw [get?_set]
    split <;> rfl

/-- **Insertion.** A text and its prefixes are added to a tenant. -/
theorem insert_spec (h : t.Sound g) (text : List Char) (tenant : TenantId) : ∃ t' g',
    t.insert text tenant = some t' ∧ t'.Sound g' ∧ Added (t.strings g)
    (t'.strings g') tenant text := by
  have hroot := h.shaped.root_mem
  have hcore : (t.ensureTenant tenant).core = t.core :=
    core_modifyNode
      (f := fun x =>
      {x with tenantLastAccessTime := orInsertZero x.tenantLastAccessTime tenant}) rfl
  have htenants : ∀ m tenant', (t.ensureTenant tenant).hasTenant m tenant' =
      if m = root ∧ tenant' = tenant then true else t.hasTenant m tenant' := by
    intro m tenant'
    have hnodes : (t.ensureTenant tenant).nodes m = if m = root then
        {t.nodes root with tenantLastAccessTime := orInsertZero (t.nodes root).tenantLastAccessTime tenant} else t.nodes m :=
      nodes_modifyNode (t := t) fun x =>
        {x with tenantLastAccessTime := orInsertZero x.tenantLastAccessTime tenant}
    rw [hasTenant, hnodes]
    by_cases hm : m = root
    · rw [if_pos hm, Node.hasTenant, isSome_orInsertZero, hm]
      simp only [true_and]
      rfl
    · rw [if_neg hm, if_neg fun hand => hm hand.1]
      rfl
  generalize ht1 : t.ensureTenant tenant = t1 at *
  obtain ⟨hsound, hadded⟩ := h.added_root hcore (by rw [← ht1]; rfl) htenants fun tenant' => by
    rw [← ht1]
    exact getD_orInsertZero _
  have hhas : t1.hasTenant root tenant := (htenants root tenant).trans (if_pos ⟨rfl, rfl⟩)
  obtain ⟨t', g', hloop, hsound', hadded'⟩ :=
    insertLoop_spec hsound hroot hhas (le_refl text.length)
  rw [h.shaped.path_root, nil_append] at hadded'
  exact ⟨t', g', by rw [insert, ht1, hloop], hsound', hadded.trans hadded' nil_prefix⟩

/-! ### Matching -/

/-- If a letter after a node's word is in the tree, it is in a child. -/
lemma Shaped.child_of_words (h : Shaped core fresh g) {P : NodeId → Prop}
    (hup : ∀ n ∈ g.live, n ≠ root → P n → P (g.parent n)) (hp : p ∈ g.live)
    {c : Char} (hword : g.path p ++ [c] ∈ g.words P) :
    ∃ n, (core p).children.get? c = some n ∧ P n := by
  obtain ⟨n, hn, hPn⟩ :=
    (h.valid.mem_words_iff (h.root_eq ▸ hup)
    (append_ne_nil_of_right_ne_nil _ (cons_ne_nil c []))).mp hword
  have hroot : n ≠ root := h.root_eq ▸ hn.ne_root
  have hparent := h.valid.parent_of_covers hp hn
  obtain ⟨c', hc', hget⟩ := h.child n hn.mem hroot
  have hletter := h.getElem?_path hn.mem hroot
  rw [hparent, hc', prefix_iff_getElem?.mp hn.isPrefix (g.path p).length (by simp)] at hletter
  have : c = c' := by simpa using hletter
  rw [hparent] at hget
  exact ⟨n, this ▸ hget, hPn⟩

/-- Where the text leaves a child's text, it leaves the tree. -/
lemma Shaped.length_le_of_mem_words (h : Shaped core fresh g) {P : NodeId → Prop}
    (hn : n ∈ g.live) (hroot : n ≠ root) {remaining s : List Char}
    (hpos : 0 < common remaining (core n).text)
    (hlt : common remaining (core n).text < (core n).text.length) (hs : s ∈ g.words P)
    (hpre : s <+: g.path (g.parent n) ++ remaining) :
    s.length ≤ (g.path (g.parent n)).length + common remaining (core n).text := by
  by_contra hlong
  have htake := take_eq_of_le_common remaining (core n).text _ (le_refl _)
  have hpath := h.path_eq n hn hroot
  have hlen := hpre.length_le
  rw [length_append] at hlen
  generalize hk : common remaining (core n).text = k at *
  have hword {i : Nat} (hi : i ≤ k + 1) : g.path (g.parent n) ++ remaining.take i <+: s := by
    refine prefix_of_prefix_length_le ((prefix_append_right_inj _).mpr ( take_prefix i _)) hpre ?_
    rw [length_append, length_take]
    omega
  -- the node has the letters in common, so whatever is found behind them is under it
  have hcover : g.Covers n (g.path (g.parent n) ++ remaining.take k) := by
    refine ⟨hn, h.root_eq ▸ hroot, ?_, ?_⟩
    · rw [length_append, length_take]
      omega
    · rw [hpath, htake]
      exact (prefix_append_right_inj _).mpr ( take_prefix _ _)
  obtain ⟨x, hx, -, hsx⟩ := hs
  obtain ⟨m, hm, hmx⟩ :=
    h.valid.exists_covers hx (ne_nil_of_length_pos (Nat.zero_lt_of_lt hcover.parent_lt))
    ((hword (Nat.le_succ k)).trans hsx)
  rw [← h.valid.eq_of_covers hcover hm, hpath] at hmx
  have hin := prefix_of_prefix_length_le ((hword le_rfl).trans hsx) hmx (by
    rw [length_append, length_append, length_take]
    omega)
  rw [prefix_append_right_inj] at hin
  have hcommon := le_common_of_take_eq remaining (core n).text (k + 1) (by omega) (by omega) (by
    rw [prefix_iff_eq_take.mp hin, length_take, min_eq_left (by omega)])
  omega

/-- What a match ends with: a text on the way to a node of the kind, and no longer one. -/
structure Matched (g : Shape) (P : NodeId → Prop) (prev : NodeId) (remaining : List Char)
    (curr : NodeId) (k : Nat) : Prop where
  mem : curr ∈ g.live
  enter : curr = root ∨ P curr
  found : k ≠ 0 → g.path prev ++ remaining.take k ∈ g.words P
  longest : ∀ s ∈ g.words P, s <+: g.path prev ++ remaining → s.length ≤ (g.path prev).length + k

lemma matchLoop_spec (h : Shaped t.core t.fresh g) {enter : Node → Bool}
    (hup : ∀ n ∈ g.live, n ≠ root → enter (t.nodes n) → enter (t.nodes (g.parent n)))
    (hp : p ∈ g.live) (henter : p = root ∨ enter (t.nodes p)) {remaining : List Char}
    {fuel : Nat} (hfuel : remaining.length ≤ fuel) (start : Nat) :
    ∃ curr k, matchLoop enter t fuel p remaining start = some (curr, start + k) ∧
      Matched g (fun n => enter (t.nodes n)) p remaining curr k := by
  -- nothing after the node is in the tree
  have hstop : ∀ {p : NodeId} {remaining : List Char}, p ∈ g.live → p = root ∨ enter (t.nodes p) →
      (∀ c ∈ remaining.head?, ∀ n, (t.core p).children.get? c = some n → ¬enter (t.nodes n)) →
      Matched g (fun n => enter (t.nodes n)) p remaining p 0 := by
    intro p remaining hp henter hno
    refine ⟨hp, henter, fun hne => absurd rfl hne, fun s hs hpre => ?_⟩
    by_contra hlong
    cases remaining with
    | nil =>
      have := hpre.length_le
      rw [append_nil] at this
      omega
    | cons c rest =>
      have hword : g.path p ++ [c] <+: s := by
        refine prefix_of_prefix_length_le ((prefix_append_right_inj _).mpr ⟨rest, rfl⟩) hpre ?_
        rw [length_append, length_singleton]
        omega
      obtain ⟨n, hget, hn⟩ := h.child_of_words hup hp (LabelledTree.words_prefixClosed hs hword)
      exact hno c rfl n hget hn
  induction fuel generalizing p remaining start with
  | zero =>
    obtain rfl := length_eq_zero_iff.mp (Nat.le_zero.mp hfuel)
    exact ⟨p, 0, rfl, hstop hp henter nofun⟩
  | succ fuel ih =>
    cases remaining with
    | nil => exact ⟨p, 0, rfl, hstop hp henter nofun⟩
    | cons c rest =>
      cases hget : (t.nodes p).children.get? c with
      | none =>
        refine ⟨p, 0, by simp [matchLoop, hget], hstop hp henter ?_⟩
        rintro _ ⟨⟩ n hn
        cases hn.symm.trans hget
      | some n =>
        by_cases hen : enter (t.nodes n)
        · obtain ⟨hpos, hle, htake, hcount, hshared⟩ := h.toward_child hp rest hget
          obtain ⟨hn, hroot, rfl, hhead⟩ := h.of_child p hp c n hget
          by_cases hall : common (c :: rest) (t.core n).text = (t.nodes n).text.charCount
          · generalize hk : common (c :: rest) (t.core n).text = k at *
            have hpath : g.path n = g.path (g.parent n) ++ (c :: rest).take k := by
              rw [h.path_eq n hn hroot, htake, take_of_length_le (by omega)]
            have hwhole : g.path n ++ (c :: rest).drop k = g.path (g.parent n) ++ (c :: rest) := by
              rw [hpath, append_assoc, take_append_drop]
            have hklen : k ≤ (c :: rest).length := hk ▸ common_le_left _ _
            have hdrop : ((c :: rest).drop k).length ≤ fuel := by
              rw [length_drop]
              omega
            obtain ⟨curr, k', hloop, hmatched⟩ := ih hn (.inr hen) hdrop (start + k)
            refine ⟨curr, k + k', ?_, hmatched.mem, hmatched.enter, fun _ => ?_,
              fun s hs hpre => ?_⟩
            · simp only [matchLoop, hget, hen, if_true, hshared, if_pos hall,
                advanceByChars_eq, hloop, add_assoc]
            · by_cases hk' : k' = 0
              · rw [hk', add_zero, ← hpath]
                exact ⟨n, hn, hen, prefix_rfl⟩
              · have hfound := hmatched.found hk'
                rwa [hpath, append_assoc, ← take_add] at hfound
            · have hle := hmatched.longest s hs (hwhole ▸ hpre)
              rw [hpath, length_append, length_take] at hle
              omega
          · have hlt : common (c :: rest) (t.core n).text < (t.core n).text.length := by omega
            refine ⟨n, common (c :: rest) (t.core n).text, ?_, hn, .inr hen,
              fun _ => ?_, fun s hs hpre => ?_⟩
            · simp only [matchLoop, hget, hen, if_true, hshared, if_neg hall]
            · refine ⟨n, hn, hen, ?_⟩
              rw [h.path_eq n hn hroot, htake]
              exact (prefix_append_right_inj _).mpr ( take_prefix _ _)
            · exact h.length_le_of_mem_words hn hroot hpos hlt hs hpre
        · refine ⟨p, 0, by simp [matchLoop, hget, hen], hstop hp henter ?_⟩
          rintro _ ⟨⟩ n' hn'
          cases hget.symm.trans hn'
          exact hen

/-- A text is the longest in a set that another one begins with. -/
structure Longest (S : Set (List Char)) (text found : List Char) : Prop where
  isPrefix : found <+: text
  mem : S.Nonempty → found ∈ S
  empty : S = ∅ → found = []
  longest : ∀ s ∈ S, s <+: text → s <+: found

/-- **Matching.** The longest text of a tenant is found, and no tenant's texts change. -/
theorem prefixMatchTenant_spec (h : t.Sound g) (text : List Char) (tenant : TenantId) : ∃ t' found,
    t.prefixMatchTenant text tenant = some (t', found) ∧ t'.Sound g ∧ t'.strings g = t.strings g ∧
      Longest (t.strings g tenant) text found := by
  obtain ⟨curr, k, hloop, hmatched⟩ := @matchLoop_spec t g root h.shaped (·.hasTenant tenant)
    (fun n hn hroot => h.up n hn hroot tenant) h.shaped.root_mem (.inl rfl) text _
      (le_refl text.length) 0
  have hroot := h.shaped.path_root
  have hlongest : Longest (t.strings g tenant) text (takeChars text k) := by
    refine ⟨ take_prefix _ _, fun hne => ?_, fun hempty => ?_, fun s hs hpre => ?_⟩
    · by_cases hk : k = 0
      · obtain ⟨s, hs⟩ := hne
        rw [hk]
        exact LabelledTree.words_prefixClosed hs nil_prefix
      · have hfound := hmatched.found hk
        rwa [hroot, nil_append] at hfound
    · by_contra hne
      have hk : k ≠ 0 := by
        rintro rfl
        exact hne rfl
      have hfound := hmatched.found hk
      rw [hroot, nil_append] at hfound
      exact (hempty ▸ hfound : text.take k ∈ (∅ : Set (List Char)))
    · have hle := hmatched.longest s hs (by rwa [hroot, nil_append])
      rw [hroot] at hle
      refine prefix_of_prefix_length_le hpre ( take_prefix _ _) ?_
      have := hpre.length_le
      rw [takeChars, length_take]
      simp only [length_nil, zero_add] at hle
      omega
  rw [prefixMatchTenant, hloop, map_some]
  by_cases hhas : t.hasTenant curr tenant
  · exact ⟨_, _, rfl,
      by rw [if_pos hhas]; exact h.accessTenant hhas, by rw [if_pos hhas]; exact strings_congr fun _ _ => hasTenant_accessTenant hhas,
      by rw [zero_add]; exact hlongest⟩
  · exact ⟨_, _, rfl,
      by rw [if_neg hhas]; exact h, by rw [if_neg hhas], by rw [zero_add]; exact hlongest⟩

lemma items_eq_nil_iff_hasTenant : (t.nodes n).tenantLastAccessTime.items = [] ↔
    ∀ tenant, ¬t.hasTenant n tenant := by
  rw [items_eq_nil_iff]
  refine forall_congr' fun tenant => ?_
  rw [hasTenant, Node.hasTenant, Bool.not_eq_true, isSome_eq_false_iff, isNone_iff_eq_none]

/-- A node's tenant is one that it has, unless it has none. -/
lemma tenantOf_spec (h : t.Sound g) (heq : t.tenantOf n = (t', tenant)) : t'.Sound g ∧
    (t'.hasTenant n tenant ∨ ∀ tenant', ¬t'.hasTenant n tenant') := by
  rw [tenantOf] at heq
  split at heq
  · next tenant' hlast =>
    cases heq
    exact ⟨h, .inl (filter_eq_some_iff.mp hlast).2⟩
  dsimp only at heq
  obtain ⟨rfl, htenant⟩ := Prod.mk.inj heq
  have htenants :
    ∀ (last : TenantId) m tenant',
    (t.modifyNode n fun x => {x with lastTenant := some last}).hasTenant m tenant' =
      t.hasTenant m tenant' := by
    intro last m tenant'
    rw [hasTenant, nodes_modifyNode]
    split
    · next hm => rw [hm]; rfl
    · rfl
  refine ⟨h.congr (htenants _) (core_modifyNode rfl) rfl fun _ => rfl, ?_⟩
  simp only [htenants]
  cases hitems : (t.nodes n).tenantLastAccessTime.items with
  | nil => exact .inr (items_eq_nil_iff_hasTenant.mp hitems)
  | cons item items =>
    have hmem : item ∈ (t.nodes n).tenantLastAccessTime.items := hitems ▸ mem_cons_self
    simp only [hitems, head?_cons, map_some, getD_some] at htenant
    exact .inl (htenant ▸ isSome_iff_exists.mpr ⟨item.2, mem_items_iff.mp hmem⟩)

lemma Sound.touch (h : t.Sound g) (hn : n ∈ g.live)
    (hhas : t.hasTenant n tenant ∨ ∀ tenant', ¬t.hasTenant n tenant') :
    (t.touch n tenant).Sound g := by
  rw [Tree.touch]
  split
  · rcases hhas with hhas | hnone
    · exact h.accessTenant hhas
    · have hroot : n = root := by
        by_contra hroot
        obtain ⟨tenant', htenant'⟩ := h.used n hn hroot
        exact hnone tenant' htenant'
      subst hroot
      have hadded : (t.accessTenant root tenant).Sound g ∧ _ :=
        h.added_root (core_setTenant t.epoch) rfl (fun _ _ => hasTenant_setTenant t.epoch) fun _ =>
          rfl
      exact hadded.1
  · exact h.congr (fun _ _ => by rfl) rfl rfl fun _ => rfl

/-- A match succeeds and leaves the tree sound. -/
lemma prefixMatchWithCounts_spec (h : t.Sound g) (text : List Char) : ∃ t' result,
    t.prefixMatchWithCounts text = some (t', result) ∧ t'.Sound g := by
  obtain ⟨curr, k, hloop, hmatched⟩ := @matchLoop_spec t g root h.shaped (fun _ => true)
    (fun _ _ _ _ => rfl) h.shaped.root_mem (.inl rfl) text _ (le_refl text.length) 0
  rw [prefixMatchWithCounts, hloop, map_some]
  obtain ⟨h1, hhas⟩ := tenantOf_spec (n := curr) h rfl
  exact ⟨_, _, rfl, h1.touch hmatched.mem hhas⟩

end Tree

end Sglang.Gateway
