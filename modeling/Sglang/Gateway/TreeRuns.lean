import Sglang.Gateway.TreeRemoval

/-! The routing tree as a set of texts for each tenant.

The nodes that are reached from the root spell texts, and what a tenant has are the texts of its
nodes with all their prefixes. Every history of operations is one of these sets: inserting adds a
text and its prefixes, matching finds the longest prefix, removing empties one set. -/
namespace Sglang.Gateway

/-- A set of texts for each tenant, with all their prefixes. -/
@[ext]
structure TenantTexts where
  strings : TenantId → Set (List Char)
  closed : ∀ tenant, ∀ s ∈ strings tenant, ∀ s', s' <+: s → s' ∈ strings tenant

namespace TenantTexts

def empty : TenantTexts where
  strings _ := ∅
  closed _ _ h := absurd h (Set.notMem_empty _)

/-- How many texts of a tenant are not empty. -/
noncomputable def count (texts : TenantTexts) (tenant : TenantId) : Nat :=
  {s ∈ texts.strings tenant | s ≠ []}.ncard

end TenantTexts

/-- What is asked of the tree. The order in which the heap yields entries of the same age is open.
-/
inductive TreeOp
  | insert (text : List Char) (tenant : TenantId)
  | prefixMatchTenant (text : List Char) (tenant : TenantId)
  | removeTenant (tenant : TenantId)
  | evictTenantBySize (tie : List Tree.EvictionEntry → Nat) (maxSize : Nat)

namespace TenantTexts

/-- What an operation may do to the texts, and what it may answer. -/
def Step (before : TenantTexts) (answer : Option (List Char)) (after : TenantTexts) : TreeOp → Prop
  | .insert text tenant => answer = none ∧ Tree.Added before.strings after.strings tenant text
  | .prefixMatchTenant text tenant =>
    after.strings = before.strings ∧ ∃ found, answer = some found ∧
      Tree.Longest (before.strings tenant) text found
  | .removeTenant tenant =>
    answer = none ∧ ∀ tenant', after.strings tenant' = if tenant' = tenant then ∅
      else before.strings tenant'
  | .evictTenantBySize _ _ => answer = none ∧ ∀ tenant, after.strings tenant ⊆ before.strings tenant

/-- A history of operations with their answers. -/
inductive History : TenantTexts → List TreeOp → List (Option (List Char)) → TenantTexts → Prop
  | nil (texts : TenantTexts) : History texts [] [] texts
  | cons {before after last : TenantTexts} {op : TreeOp} {ops : List TreeOp}
      {answer : Option (List Char)}
      {answers : List (Option (List Char))} :
      before.Step answer after op → History after ops answers last →
        History before (op :: ops) (answer :: answers) last

end TenantTexts

namespace Tree
variable {t t' : Tree} {g g' : Shape} {n p : NodeId} {tenant : TenantId}

def step (t : Tree) : TreeOp → Option (Tree × Option (List Char))
  | .insert text tenant => (t.insert text tenant).map (·, none)
  | .prefixMatchTenant text tenant => (t.prefixMatchTenant text tenant).map fun (t, found) =>
    (t, some found)
  | .removeTenant tenant => (t.removeTenant tenant).map (·, none)
  | .evictTenantBySize tie maxSize => (t.evictTenantBySize tie maxSize).map (·, none)

def runOps (t : Tree) : List TreeOp → Option (Tree × List (Option (List Char)))
  | [] => some (t, [])
  | op :: ops => do
    let (t, answer) ← t.step op
    let (t, answers) ← t.runOps ops
    some (t, answer :: answers)

/-! ### The texts of a tree -/

/-- A node is reached from the root by a text. -/
inductive Spells (t : Tree) : NodeId → List Char → Prop
  | root : Spells t root []
  | child {p n : NodeId} {w : List Char} {c : Char} :
      Spells t p w → (t.nodes p).children.get? c = some n →
    Spells t n (w ++ (t.nodes n).text.text)

def texts (t : Tree) : TenantTexts where
  strings tenant := {s | ∃ n w, t.Spells n w ∧ t.hasTenant n tenant ∧ s <+: w}
  closed := by
    rintro tenant s ⟨n, w, hspells, hhas, hpre⟩ s' hs'
    exact ⟨n, w, hspells, hhas, hs'.trans hpre⟩

lemma Shaped.of_spells (h : Shaped t.core t.fresh g) {w : List Char} (hspells : t.Spells n w) :
    n ∈ g.live ∧ g.path n = w := by
  induction hspells with
  | root => exact ⟨h.root_mem, h.path_root⟩
  | @child p n w c hp hget ih =>
    obtain ⟨hn, hroot, hparent, _⟩ := h.of_child p ih.1 c n hget
    refine ⟨hn, ?_⟩
    rw [h.path_eq n hn hroot, hparent, ih.2]
    rfl

lemma Shaped.spells (h : Shaped t.core t.fresh g) (hn : n ∈ g.live) : t.Spells n (g.path n) := by
  -- the parent of a node is reached by a shorter text
  induction hlen : (g.path n).length using Nat.strong_induction_on generalizing n with
  | _ len ih =>
    by_cases hroot : n = root
    · rw [hroot, h.path_root]
      exact .root
    · obtain ⟨c, _, hget⟩ := h.child n hn hroot
      have hlt := h.valid.length_lt n hn (h.root_eq ▸ hroot)
      rw [h.path_eq n hn hroot]
      exact .child (ih _ (hlen ▸ hlt) (h.parent_mem n hn hroot) rfl) hget

lemma Shaped.texts_eq (h : Shaped t.core t.fresh g) : t.texts.strings = t.strings g := by
  funext tenant
  ext s
  rw [mem_strings]
  constructor
  · rintro ⟨n, w, hspells, hhas, hpre⟩
    obtain ⟨hn, rfl⟩ := h.of_spells hspells
    exact ⟨n, hn, hhas, hpre⟩
  · rintro ⟨n, hn, hhas, hpre⟩
    exact ⟨n, g.path n, h.spells hn, hhas, hpre⟩

/-! ### Runs -/

def Shape.new : Shape := ⟨{root}, root, fun _ => root, fun _ => []⟩

lemma sound_new : Tree.new.Sound .new := by
  have honly : ∀ n ∈ Shape.new.live, n = root := fun n hn => Finset.mem_singleton.mp hn
  have hnone {P : NodeId → Prop} : ∀ n ∈ Shape.new.live, n ≠ root → P n :=
    fun n hn hroot => absurd (honly n hn) hroot
  refine ⟨⟨⟨rfl, Finset.mem_singleton_self _, rfl, rfl, rfl, ?_, hnone, hnone, hnone, hnone, ?_⟩,
    hnone, hnone, ?_⟩, fun tenant => ?_⟩
  · intro n hn
    rw [honly n hn]
    exact Nat.one_pos
  · intro p _ c n hget
    cases hget
  · intro n _ tenant hhas
    cases hhas
  · rw [size]
    exact (Finset.sum_eq_zero fun n _ => rfl).symm

lemma texts_new : Tree.new.texts = .empty := by
  refine TenantTexts.ext (funext fun tenant => Set.eq_empty_iff_forall_notMem.mpr ?_)
  rintro s ⟨n, w, _, hhas, _⟩
  cases hhas

lemma Sound.step (h : t.Sound g) (op : TreeOp) :
    ∃ t' answer g', t.step op = some (t', answer) ∧ t'.Sound g' ∧
    t.texts.Step answer t'.texts op := by
  cases op with
  | insert text tenant =>
    obtain ⟨t', g', heq, h', hadded⟩ := insert_spec h text tenant
    refine ⟨t', none, g', by rw [Tree.step, heq]; rfl, h', rfl, ?_⟩
    rw [h.shaped.texts_eq, h'.shaped.texts_eq]
    exact hadded
  | prefixMatchTenant text tenant =>
    obtain ⟨t', found, heq, h', hsame, hlongest⟩ := prefixMatchTenant_spec h text tenant
    refine ⟨t', some found, g, by rw [Tree.step, heq]; rfl, h', ?_, found, rfl, ?_⟩
    · rw [h.shaped.texts_eq, h'.shaped.texts_eq, hsame]
    · rw [h.shaped.texts_eq]
      exact hlongest
  | removeTenant tenant =>
    obtain ⟨t', g', heq, h', hempty⟩ := removeTenant_spec h tenant
    refine ⟨t', none, g', by rw [Tree.step, heq]; rfl, h', rfl, ?_⟩
    rw [h.shaped.texts_eq, h'.shaped.texts_eq]
    exact hempty
  | evictTenantBySize tie maxSize =>
    obtain ⟨t', g', heq, h', hsub⟩ := evictTenantBySize_spec h tie maxSize
    refine ⟨t', none, g', by rw [Tree.step, heq]; rfl, h', rfl, ?_⟩
    rw [h.shaped.texts_eq, h'.shaped.texts_eq]
    exact hsub

lemma Sound.runOps : ∀ {t : Tree} {g : Shape}, t.Sound g → ∀ ops : List TreeOp,
    ∃ t' answers g', t.runOps ops = some (t', answers) ∧ t'.Sound g' ∧
    TenantTexts.History t.texts ops answers t'.texts
  | t, g, h, [] => ⟨t, [], g, rfl, h, .nil _⟩
  | t, g, h, op :: ops => by
    obtain ⟨t1, answer, g1, hstep, h1, habs⟩ := h.step op
    obtain ⟨t', answers, g', hrun, h', hhistory⟩ := h1.runOps ops
    refine ⟨t', answer :: answers, g', ?_, h', .cons habs hhistory⟩
    rw [Tree.runOps, hstep]
    simp [hrun]

/-- **The routing tree keeps a set of texts for each tenant.** Every history of operations returns,
does to the sets what its operations do, and leaves counts that are their numbers of non-empty
texts. -/
theorem routing_tree_refines_texts (ops : List TreeOp) :
    ∃ t answers, Tree.new.runOps ops = some (t, answers) ∧
    TenantTexts.History .empty ops answers t.texts ∧
    (∀ tenant, t.charCount tenant = t.texts.count tenant) ∧
      ∃ used, t.getUsedSizePerTenant = some used ∧ ∀ tenant, used tenant = t.charCount tenant := by
  obtain ⟨t, answers, g, hrun, h, hhistory⟩ := sound_new.runOps ops
  refine ⟨t, answers, hrun, texts_new ▸ hhistory, fun tenant => ?_, getUsedSizePerTenant_spec h⟩
  rw [TenantTexts.count, h.shaped.texts_eq]
  exact h.charCount_eq_ncard tenant

end Tree

end Sglang.Gateway
