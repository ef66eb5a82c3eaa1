import Mathlib.Data.Finset.Basic
import Sglang.MemCache.RadixCache

/-! The tree inside a radix cache.

`Tree` is what is left of a cache without clocks, priorities, hit counts, locks and
sizes. A `Shape` labels its nodes with what they stand for: the units and the slots
on the way from the root to the end of the node. `WellFormed` says that the labels
are right, that dictionaries and parent pointers agree, and that keys are whole,
non-empty pages. Labels never change while a node is in the tree: a split only adds
a label, so whatever is said in labels (who is above whom, what is stored under a
prefix) survives it without further argument. -/
namespace Sglang.MemCache

open List Option Function
open Prefix RadixKey AList

section Dict
variable {α β : Type} [DecidableEq α]

lemma lookup_insert_ite (d : AList fun _ : α => β) (k a : α) (b : β) :
    (d.insert a b).lookup k = if k = a then some b else d.lookup k := by
  by_cases h : k = a
  · rw [if_pos h, h, lookup_insert]
  · rw [if_neg h, lookup_insert_ne h]

lemma lookup_erase_ite (d : AList fun _ : α => β) (k a : α) :
    (d.erase a).lookup k = if k = a then none else d.lookup k := by
  by_cases h : k = a
  · rw [if_pos h, h, lookup_erase]
  · rw [if_neg h, lookup_erase_ne h]

lemma lookup_singleton_ite (k a : α) (b : β) :
    (singleton a b : AList fun _ : α => β).lookup k = if k = a then some b else none := by
  rw [← insert_empty, lookup_insert_ite, lookup_empty]

end Dict

/-- The fields of a node that make the tree. -/
structure NodeCore where
  children : AList fun _ : ChildKey => NodeId
  parent : Option NodeId
  key : RadixKey
  value : List Slot

def TreeNode.core (x : TreeNode) : NodeCore := ⟨x.children, x.parent, x.key, x.value⟩

structure Tree where
  pageSize : Nat
  root : NodeId
  counter : Nat
  node : NodeId → NodeCore

def RadixCache.tree (c : RadixCache) : Tree :=
  ⟨c.pageSize, c.rootNode, c.counter, fun n => (c.nodes n).core⟩

/-- The nodes of a tree and what each stands for. -/
structure Shape where
  live : Finset NodeId
  path : NodeId → List KeyUnit
  vals : NodeId → List Slot

/-- A node hanging under another. -/
structure Edge (t : Tree) (g : Shape) (p n : NodeId) : Prop where
  mem : p ∈ g.live
  parent : (t.node n).parent = some p
  lookup : (t.node p).children.lookup ((t.node n).key.childKey t.pageSize) = some n
  path : g.path n = g.path p ++ (t.node n).key.iter
  vals : g.vals n = g.vals p ++ (t.node n).value
  ns : p = t.root ∨ (t.node p).key.ns = (t.node n).key.ns
  len_pos : 0 < (t.node n).key.len
  aligned : t.pageSize ∣ (t.node n).key.len
  value_len : (t.node n).value.length = (t.node n).key.len

structure WellFormed (t : Tree) (g : Shape) : Prop where
  page_pos : 0 < t.pageSize
  root_mem : t.root ∈ g.live
  root_path : g.path t.root = []
  root_vals : g.vals t.root = []
  lt_counter : ∀ n ∈ g.live, n < t.counter
  edge : ∀ n ∈ g.live, n ≠ t.root → ∃ p, Edge t g p n
  child : ∀ p ∈ g.live, ∀ k n, (t.node p).children.lookup k = some n →
    n ∈ g.live ∧ n ≠ t.root ∧ (t.node n).parent = some p ∧ (t.node n).key.childKey t.pageSize = k

/-- One node is in another's dictionary. -/
def IsChild (t : Tree) (p n : NodeId) : Prop := ∃ k, (t.node p).children.lookup k = some n

/-- The nodes at and under a node. -/
def Subtree (t : Tree) : NodeId → NodeId → Prop := Relation.ReflTransGen (IsChild t)

variable {t : Tree} {g : Shape} {p n q : NodeId}

namespace Edge

section
variable (e : Edge t g p n)
include e

lemma page_le : t.pageSize ≤ (t.node n).key.len := Nat.le_of_dvd e.len_pos e.aligned

lemma length_path : (g.path n).length = (g.path p).length + (t.node n).key.len := by
  rw [e.path, length_append, length_iter]

lemma length_path_lt : (g.path p).length < (g.path n).length := by
  have := e.length_path
  have := e.len_pos
  omega

/-- The key of a parent begins that of its child. -/
lemma path_prefix : g.path p <+: g.path n := by
  rw [e.path]
  exact prefix_append _ _

lemma page_prefix : (g.path p ++ (t.node n).key.iter.take t.pageSize) <+: g.path n := by
  rw [e.path]
  exact (prefix_append_right_inj _).mpr ( take_prefix _ _)

lemma parent_unique (h : (t.node n).parent = some q) : q = p :=
  some.inj (h.symm.trans e.parent)

end

end Edge

namespace WellFormed

section
variable (h : WellFormed t g)
include h

/-- Children are live, below their parent and under their own key. -/
lemma edge_of_lookup {k : ChildKey} (hp : p ∈ g.live) (hk : (t.node p).children.lookup k = some n) :
    n ∈ g.live ∧ n ≠ t.root ∧ Edge t g p n ∧ (t.node n).key.childKey t.pageSize = k := by
  obtain ⟨hn, hroot, hparent, hkey⟩ := h.child p hp k n hk
  obtain ⟨q, e⟩ := h.edge n hn hroot
  obtain rfl := e.parent_unique hparent
  exact ⟨hn, hroot, e, hkey⟩

lemma length_path_pos (hn : n ∈ g.live) (hroot : n ≠ t.root) : 0 < (g.path n).length := by
  obtain ⟨p, e⟩ := h.edge n hn hroot
  have := e.length_path_lt
  omega

/-- What the root has and an edge hands down, every node has. -/
lemma induction {P : NodeId → Prop} (hroot : P t.root)
    (hedge : ∀ p n, n ∈ g.live → n ≠ t.root → Edge t g p n → P p → P n) (hn : n ∈ g.live) :
    P n := by
  induction hlen : (g.path n).length using Nat.strong_induction_on generalizing n with
  | _ len ih =>
    by_cases heq : n = t.root
    · rw [heq]
      exact hroot
    · obtain ⟨p, e⟩ := h.edge n hn heq
      exact hedge p n hn heq e (ih _ (hlen ▸ e.length_path_lt) e.mem rfl)

/-- A path has a slot for each unit. -/
lemma length_vals (hn : n ∈ g.live) : (g.vals n).length = (g.path n).length := by
  refine h.induction (P := fun n => (g.vals n).length = (g.path n).length) ?_
    (fun p n _ _ e hp => ?_) hn
  · rw [h.root_path, h.root_vals]
    rfl
  · rw [e.vals, length_append, hp, e.value_len, e.length_path]

lemma page_dvd_path (hn : n ∈ g.live) : t.pageSize ∣ (g.path n).length := by
  refine h.induction (P := fun n => t.pageSize ∣ (g.path n).length) ?_ (fun p n _ _ e hp => ?_) hn
  · rw [h.root_path]
    exact dvd_zero _
  · rw [e.length_path]
    exact Nat.dvd_add hp e.aligned

end

/-! ### Above and below -/

section
variable (h : WellFormed t g) {a : NodeId}
include h

/-- Under a node the labels extend its labels, in its namespace. -/
lemma subtree_spec (ha : a ∈ g.live) (hs : Subtree t a n) :
    n ∈ g.live ∧ g.path a <+: g.path n ∧ g.vals a <+: g.vals n ∧
    (a = t.root ∨ (t.node a).key.ns = (t.node n).key.ns) := by
  induction hs with
  | refl => exact ⟨ha, prefix_rfl, prefix_rfl, .inr rfl⟩
  | @tail m n _ hmn ih =>
    obtain ⟨hm, hpath, hvals, hns⟩ := ih
    obtain ⟨k, hk⟩ := hmn
    obtain ⟨hn, _, e, _⟩ := h.edge_of_lookup hm hk
    refine ⟨hn, hpath.trans e.path_prefix, hvals.trans ?_, ?_⟩
    · rw [e.vals]
      exact prefix_append _ _
    · rcases hns with rfl | hns
      · exact .inl rfl
      · rcases e.ns with rfl | hns'
        · -- only the root's label is empty
          by_cases hroot : a = t.root
          · exact .inl hroot
          · have hpos := h.length_path_pos ha hroot
            rw [h.root_path, prefix_nil] at hpath
            simp [hpath] at hpos
        · exact .inr (hns.trans hns')

lemma subtree_root (hn : n ∈ g.live) : Subtree t t.root n :=
  h.induction .refl (fun _ _ _ _ e hp => hp.tail ⟨_, e.lookup⟩) hn

/-- Two children of a node on the way to one label are one child. -/
lemma child_unique {b : NodeId} {u : List KeyUnit} (ea : Edge t g p a)
    (eb : Edge t g p b) (hns : (t.node a).key.ns = (t.node b).key.ns)
    (ha : (g.path p ++ (t.node a).key.iter.take t.pageSize) <+: u)
    (hb : (g.path p ++ (t.node b).key.iter.take t.pageSize) <+: u) : a = b := by
  have hpage : (t.node a).key.iter.take t.pageSize = (t.node b).key.iter.take t.pageSize := by
    have hla : ((t.node a).key.iter.take t.pageSize).length = t.pageSize := by
      rw [length_take, length_iter, min_eq_left ea.page_le]
    have hlb : ((t.node b).key.iter.take t.pageSize).length = t.pageSize := by
      rw [length_take, length_iter, min_eq_left eb.page_le]
    have := prefix_of_prefix_length_le ha hb (by simp only [length_append, hla, hlb]; omega)
    exact (prefix_append_right_inj _).mp this |>.eq_of_length (by rw [hla, hlb])
  have hkey := (childKey_eq_iff _ _ t.pageSize h.page_pos ea.page_le eb.page_le).mpr ⟨hns, hpage⟩
  have := ea.lookup
  rw [hkey, eb.lookup] at this
  exact (some.inj this).symm

/-- **A node is above every node whose label extends its own.** -/
theorem subtree_of_prefix (ha : a ∈ g.live) (hn : n ∈ g.live)
    (hpath : g.path a <+: g.path n) (hns : a = t.root ∨ (t.node a).key.ns = (t.node n).key.ns) :
    Subtree t a n := by
  induction hlen : (g.path a).length using Nat.strong_induction_on generalizing a with
  | _ len ih =>
    by_cases hroot : a = t.root
    · rw [hroot]
      exact h.subtree_root hn
    have hns : (t.node a).key.ns = (t.node n).key.ns := hns.resolve_left hroot
    obtain ⟨p, e⟩ := h.edge a ha hroot
    have hp :=
      ih _ (hlen ▸ e.length_path_lt) e.mem (e.path_prefix.trans hpath)
      (e.ns.imp_right fun hpa => hpa.trans hns) rfl
    -- the parent is strictly above, so the way down starts at one of its children
    cases hp.cases_head with
    | inl hpn =>
      have := hpath.length_le
      have := e.length_path_lt
      rw [hpn] at this
      omega
    | inr hm =>
      obtain ⟨m, ⟨k, hk⟩, hmn⟩ := hm
      obtain ⟨hmem, hmroot, em, _⟩ := h.edge_of_lookup e.mem hk
      obtain ⟨_, hmpath, _, hmns⟩ := h.subtree_spec hmem hmn
      have :=
        h.child_unique e em (hns.trans (hmns.resolve_left hmroot).symm) (e.page_prefix.trans hpath)
        (em.page_prefix.trans hmpath)
      rwa [this]

/-- Two nodes with the same path and namespace are one. -/
lemma eq_of_path {b : NodeId} (ha : a ∈ g.live) (hb : b ∈ g.live)
    (hpath : g.path a = g.path b) (hns : a = t.root ∨ (t.node a).key.ns = (t.node b).key.ns) :
    a = b := by
  have hs := h.subtree_of_prefix ha hb (hpath ▸ prefix_rfl) hns
  cases hs.cases_tail with
  | inl hba => exact hba.symm
  | inr hm =>
    obtain ⟨m, ham, k, hk⟩ := hm
    obtain ⟨hmem, hle, _, _⟩ := h.subtree_spec ha ham
    obtain ⟨_, _, e, _⟩ := h.edge_of_lookup hmem hk
    have := hle.length_le
    have := e.length_path_lt
    rw [hpath] at *
    omega

end

lemma ne_of_edge (e : Edge t g p n) : p ≠ n := by
  rintro rfl
  exact lt_irrefl _ e.length_path_lt

lemma ne_root (h : WellFormed t g) (e : Edge t g p n) : n ≠ t.root := by
  rintro rfl
  have := e.length_path_lt
  rw [h.root_path] at this
  exact Nat.not_lt_zero _ this

lemma ne_counter (h : WellFormed t g) (hn : n ∈ g.live) : n ≠ t.counter :=
  ne_of_lt (h.lt_counter n hn)

end WellFormed

/-! ### Splitting a node -/

/-- The tree after `_split_node`: the new node `t.counter` comes between `p` and `n`. -/
def Tree.split (t : Tree) (p n : NodeId) (s : Nat) : Tree :=
  let x := t.node n
  { t with
    counter := t.counter + 1
    node := update
      (update (update t.node t.counter ⟨singleton ((x.key.since s).childKey t.pageSize) n,
        some p, x.key.upto s, x.value.take s⟩)
        n ⟨x.children, some t.counter, x.key.since s, x.value.drop s⟩)
      p {t.node p with children := (t.node p).children.insert (x.key.childKey t.pageSize) t.counter} }

/-- The labels after a split: one more. -/
def Shape.split (g : Shape) (t : Tree) (p n : NodeId) (s : Nat) : Shape where
  live := insert t.counter g.live
  path := update g.path t.counter (g.path p ++ (t.node n).key.iter.take s)
  vals := update g.vals t.counter (g.vals p ++ (t.node n).value.take s)

/-- Where a node may be cut. -/
structure CanSplit (t : Tree) (g : Shape) (p n : NodeId) (s : Nat) : Prop where
  mem : n ∈ g.live
  edge : Edge t g p n
  pos : 0 < s
  lt : s < (t.node n).key.len
  dvd : t.pageSize ∣ s

section Split

open Shape Sglang.MemCache.Tree
variable {s : Nat}

lemma Tree.split_new (h : WellFormed t g) (hs : CanSplit t g p n s) :
    (t.split p n s).node t.counter =
      ⟨singleton (((t.node n).key.since s).childKey t.pageSize) n, some p,
      (t.node n).key.upto s, (t.node n).value.take s⟩ := by
  have hn := h.ne_counter hs.mem
  have hp := h.ne_counter hs.edge.mem
  simp [split, Ne.symm hn, Ne.symm hp]

lemma Tree.split_lower (hs : CanSplit t g p n s) :
    (t.split p n s).node n = ⟨(t.node n).children, some t.counter, (t.node n).key.since s,
    (t.node n).value.drop s⟩ := by
  have hpn := WellFormed.ne_of_edge hs.edge
  simp [split, Ne.symm hpn]

/-- Only the parent has another child: the upper part in the place of the node. -/
lemma Tree.split_children (h : WellFormed t g) (hs : CanSplit t g p n s)
    (hq : q ∈ g.live) (k : ChildKey) :
    ((t.split p n s).node q).children.lookup k = if q = p ∧
    k = (t.node n).key.childKey t.pageSize then some t.counter
      else (t.node q).children.lookup k := by
  have hq := h.ne_counter hq
  by_cases hqp : q = p
  · subst hqp
    simp [split, lookup_insert_ite]
  · by_cases hqn : q = n
    · subst hqn
      simp [split, hqp]
    · simp [split, hqp, hqn, hq]

lemma Tree.split_other (t : Tree) (p : NodeId) (s : Nat) (hc : q ≠ t.counter) (hn : q ≠ n) :
    ((t.split p n s).node q).key = (t.node q).key ∧
    ((t.split p n s).node q).parent = (t.node q).parent ∧
      ((t.split p n s).node q).value = (t.node q).value := by
  by_cases hq : q = p
  · subst hq
    simp [split]
  · simp [split, hq, hc, hn]

lemma Shape.split_path (hq : q ≠ t.counter) : (g.split t p n s).path q = g.path q := by
  simp [split, hq]

lemma Shape.split_vals (hq : q ≠ t.counter) : (g.split t p n s).vals q = g.vals q := by
  simp [split, hq]

lemma Shape.split_path_new :
    (g.split t p n s).path t.counter = g.path p ++ (t.node n).key.iter.take s :=
  update_self ..

lemma Shape.split_vals_new :
    (g.split t p n s).vals t.counter = g.vals p ++ (t.node n).value.take s :=
  update_self ..

lemma Shape.mem_split : q ∈ (g.split t p n s).live ↔ q = t.counter ∨ q ∈ g.live := by
  simp [split]

section
variable (h : WellFormed t g)
include h

section
variable (hs : CanSplit t g p n s)
include hs

/-- The upper part is found under the key of the node. -/
lemma CanSplit.childKey_upto :
    ((t.node n).key.upto s).childKey t.pageSize = (t.node n).key.childKey t.pageSize := by
  have hps : t.pageSize ≤ s := Nat.le_of_dvd hs.pos hs.dvd
  have hlt := hs.lt
  refine (childKey_eq_iff _ _ _ h.page_pos ?_ hs.edge.page_le).mpr ⟨ns_upto _ _, ?_⟩
  · rw [len_upto]
    omega
  · rw [iter_upto, take_take, min_eq_left hps]

lemma CanSplit.edge_upper : Edge (t.split p n s) (g.split t p n s) p t.counter := by
  have hlt := hs.lt
  have hp := h.ne_counter hs.edge.mem
  have hnode := split_new h hs
  have hlen : ((t.node n).key.upto s).len = s := by
    rw [len_upto]
    omega
  refine ⟨mem_split.mpr (.inr hs.edge.mem), by rw [hnode], ?_, ?_, ?_, ?_, ?_, ?_, ?_⟩
  · rw [hnode, split_children h hs hs.edge.mem, if_pos ⟨rfl, hs.childKey_upto h⟩]
  · rw [split_path hp, hnode, iter_upto, split_path_new]
  · rw [split_vals hp, hnode, split_vals_new]
  · rw [hnode, (split_other t p s hp (WellFormed.ne_of_edge hs.edge)).1, ns_upto]
    exact hs.edge.ns
  · rw [hnode, hlen]
    exact hs.pos
  · rw [hnode, hlen]
    exact hs.dvd
  · rw [hnode, hlen, length_take, hs.edge.value_len]
    omega

lemma CanSplit.edge_lower : Edge (t.split p n s) (g.split t p n s) t.counter n := by
  have hlt := hs.lt
  have hn := h.ne_counter hs.mem
  have hnode := split_lower hs
  have hnew := split_new h hs
  refine ⟨mem_split.mpr (.inl rfl), by rw [hnode], ?_, ?_, ?_, .inr ?_, ?_, ?_, ?_⟩
  · rw [hnode, hnew]
    exact (lookup_singleton_ite _ _ _).trans (if_pos rfl)
  · rw [split_path hn, hnode, iter_since, hs.edge.path, split_path_new,
      append_assoc, take_append_drop]
  · rw [split_vals hn, hnode, hs.edge.vals, split_vals_new, append_assoc, take_append_drop]
  · rw [hnode, hnew, ns_upto, ns_since]
  · rw [hnode, len_since]
    omega
  · rw [hnode, len_since]
    exact Nat.dvd_sub hs.edge.aligned hs.dvd
  · rw [hnode, len_since, length_drop, hs.edge.value_len]

lemma CanSplit.edge_other {m : NodeId}
    (hm : m ∈ g.live) (hmn : m ≠ n) (e : Edge t g q m) :
    Edge (t.split p n s) (g.split t p n s) q m := by
  have hmc := h.ne_counter hm
  have hqc := h.ne_counter e.mem
  obtain ⟨hkey, hparent, hvalue⟩ := split_other t p s hmc hmn
  refine ⟨mem_split.mpr (.inr e.mem), by rw [hparent, e.parent], ?_, ?_, ?_, ?_, ?_, ?_, ?_⟩
  · rw [hkey, split_children h hs e.mem, if_neg]
    · exact e.lookup
    · -- two children of `p` under one dictionary key are one
      rintro ⟨rfl, hk⟩
      have := e.lookup
      have hsame : (t.node m).key.childKey t.pageSize = (t.node n).key.childKey t.pageSize := hk
      rw [hsame, hs.edge.lookup] at this
      exact hmn (some.inj this).symm
  · rw [split_path hmc, split_path hqc, hkey, e.path]
  · rw [split_vals hmc, split_vals hqc, hvalue, e.vals]
  · refine e.ns.imp id fun hns => ?_
    rw [hkey, ← hns]
    by_cases hqn : q = n
    · rw [hqn, split_lower hs, ns_since]
    · rw [(split_other t p s hqc hqn).1]
  · rw [hkey]
    exact e.len_pos
  · rw [hkey]
    exact e.aligned
  · rw [hkey, hvalue]
    exact e.value_len

/-- A split keeps the tree well formed. -/
lemma WellFormed.split : WellFormed (t.split p n s) (g.split t p n s) := by
  have hroot := h.ne_counter h.root_mem
  refine ⟨h.page_pos, mem_split.mpr (.inr h.root_mem), ?_, ?_, ?_, ?_, ?_⟩
  · exact (split_path hroot).trans h.root_path
  · exact (split_vals hroot).trans h.root_vals
  · intro q hq
    rcases mem_split.mp hq with rfl | hq
    · exact Nat.lt_succ_self _
    · exact Nat.lt_succ_of_lt (h.lt_counter q hq)
  · intro m hm hmroot
    rcases mem_split.mp hm with rfl | hm
    · exact ⟨p, hs.edge_upper h⟩
    · by_cases hmn : m = n
      · subst hmn
        exact ⟨t.counter, hs.edge_lower h⟩
      · obtain ⟨q, e⟩ := h.edge m hm hmroot
        exact ⟨q, hs.edge_other h hm hmn e⟩
  · intro q hq k m hk
    rcases mem_split.mp hq with rfl | hq
    · rw [split_new h hs, lookup_singleton_ite] at hk
      split at hk
      · next hkey =>
        cases hk
        refine ⟨mem_split.mpr (.inr hs.mem), h.ne_root hs.edge, ?_, ?_⟩
        · rw [split_lower hs]
        · rw [split_lower hs, hkey]
          rfl
      · cases hk
    · rw [split_children h hs hq] at hk
      split at hk
      · next hqk =>
        cases hk
        obtain ⟨rfl, rfl⟩ := hqk
        refine ⟨mem_split.mpr (.inl rfl), Ne.symm hroot, ?_, ?_⟩
        · rw [split_new h hs]
        · rw [split_new h hs]
          exact hs.childKey_upto h
      · next hqk =>
        obtain ⟨hm, hmroot, hparent, hkey⟩ := h.child q hq k m hk
        have hmn : m ≠ n := by
          rintro rfl
          exact hqk ⟨hs.edge.parent_unique hparent, hkey.symm⟩
        obtain ⟨hkey', hparent', _⟩ := split_other t p s (h.ne_counter hm) hmn
        exact ⟨mem_split.mpr (.inr hm), hmroot, hparent'.trans hparent, by rw [hkey']; exact hkey⟩

end

end

end Split

/-! ### Adding a leaf -/

/-- The tree with a new leaf under `p`. -/
def Tree.graft (t : Tree) (p : NodeId) (key : RadixKey) (value : List Slot) : Tree :=
  { t with
    counter := t.counter + 1
    node := update (update t.node t.counter ⟨∅, some p, key, value⟩) p
      {t.node p with children := (t.node p).children.insert (key.childKey t.pageSize) t.counter} }

def Shape.graft (g : Shape) (t : Tree) (p : NodeId) (key : RadixKey) (value : List Slot) :
    Shape where
  live := insert t.counter g.live
  path := update g.path t.counter (g.path p ++ key.iter)
  vals := update g.vals t.counter (g.vals p ++ value)

/-- Where a leaf may be added. -/
structure CanGraft (t : Tree) (g : Shape) (p : NodeId) (key : RadixKey) (value : List Slot) :
    Prop where
  mem : p ∈ g.live
  free : (t.node p).children.lookup (key.childKey t.pageSize) = none
  ns : p = t.root ∨ (t.node p).key.ns = key.ns
  len_pos : 0 < key.len
  aligned : t.pageSize ∣ key.len
  value_len : value.length = key.len

section Graft

open Shape Sglang.MemCache.Tree
variable {key : RadixKey} {value : List Slot}

lemma Tree.graft_new (h : WellFormed t g) (ha : CanGraft t g p key value) :
    (t.graft p key value).node t.counter = ⟨∅, some p, key, value⟩ := by
  simp [graft, Ne.symm (h.ne_counter ha.mem)]

lemma Tree.graft_children (hq : q ≠ t.counter) (k : ChildKey) :
    ((t.graft p key value).node q).children.lookup k =
      if q = p ∧ k = key.childKey t.pageSize then some t.counter
      else (t.node q).children.lookup k := by
  by_cases hqp : q = p
  · subst hqp
    simp [graft, lookup_insert_ite]
  · simp [graft, hqp, hq]

lemma Tree.graft_other (t : Tree) (p : NodeId) (key : RadixKey) (value : List Slot)
    (hq : q ≠ t.counter) :
    ((t.graft p key value).node q).key = (t.node q).key ∧
    ((t.graft p key value).node q).parent = (t.node q).parent ∧
      ((t.graft p key value).node q).value = (t.node q).value := by
  by_cases hqp : q = p
  · subst hqp
    simp [graft]
  · simp [graft, hqp, hq]

lemma Shape.graft_path (hq : q ≠ t.counter) : (g.graft t p key value).path q = g.path q := by
  simp [graft, hq]

lemma Shape.graft_vals (hq : q ≠ t.counter) : (g.graft t p key value).vals q = g.vals q := by
  simp [graft, hq]

lemma Shape.graft_path_new : (g.graft t p key value).path t.counter = g.path p ++ key.iter :=
  update_self ..

lemma Shape.graft_vals_new : (g.graft t p key value).vals t.counter = g.vals p ++ value :=
  update_self ..

lemma Shape.mem_graft : q ∈ (g.graft t p key value).live ↔ q = t.counter ∨ q ∈ g.live := by
  simp [graft]

section
variable (h : WellFormed t g) (ha : CanGraft t g p key value)
include h ha

lemma CanGraft.edge_new : Edge (t.graft p key value) (g.graft t p key value) p t.counter := by
  have hp := h.ne_counter ha.mem
  have hnode := graft_new h ha
  refine ⟨mem_graft.mpr (.inr ha.mem), by rw [hnode], ?_, ?_, ?_, ?_, ?_, ?_, ?_⟩
  · rw [hnode, graft_children hp, if_pos ⟨rfl, rfl⟩]
  · rw [graft_path hp, hnode, graft_path_new]
  · rw [graft_vals hp, hnode, graft_vals_new]
  · rw [hnode, (graft_other t p key value hp).1]
    exact ha.ns
  · rw [hnode]
    exact ha.len_pos
  · rw [hnode]
    exact ha.aligned
  · rw [hnode]
    exact ha.value_len

lemma CanGraft.edge_other {m : NodeId}
    (hm : m ∈ g.live) (e : Edge t g q m) :
    Edge (t.graft p key value) (g.graft t p key value) q m := by
  have hmc := h.ne_counter hm
  have hqc := h.ne_counter e.mem
  obtain ⟨hkey, hparent, hvalue⟩ := graft_other t p key value hmc
  refine ⟨mem_graft.mpr (.inr e.mem), by rw [hparent, e.parent], ?_, ?_, ?_, ?_, ?_, ?_, ?_⟩
  · rw [hkey, graft_children hqc, if_neg]
    · exact e.lookup
    · rintro ⟨rfl, hk⟩
      have hfree := ha.free
      rw [← hk] at hfree
      cases hfree.symm.trans e.lookup
  · rw [graft_path hmc, graft_path hqc, hkey, e.path]
  · rw [graft_vals hmc, graft_vals hqc, hvalue, e.vals]
  · rw [hkey, (graft_other t p key value hqc).1]
    exact e.ns
  · rw [hkey]
    exact e.len_pos
  · rw [hkey]
    exact e.aligned
  · rw [hkey, hvalue]
    exact e.value_len

/-- So does a graft. -/
lemma WellFormed.graft : WellFormed (t.graft p key value) (g.graft t p key value) := by
  have hroot := h.ne_counter h.root_mem
  refine ⟨h.page_pos, mem_graft.mpr (.inr h.root_mem), ?_, ?_, ?_, ?_, ?_⟩
  · exact (graft_path hroot).trans h.root_path
  · exact (graft_vals hroot).trans h.root_vals
  · intro q hq
    rcases mem_graft.mp hq with rfl | hq
    · exact Nat.lt_succ_self _
    · exact Nat.lt_succ_of_lt (h.lt_counter q hq)
  · intro m hm hmroot
    rcases mem_graft.mp hm with rfl | hm
    · exact ⟨p, ha.edge_new h⟩
    · obtain ⟨q, e⟩ := h.edge m hm hmroot
      exact ⟨q, ha.edge_other h hm e⟩
  · intro q hq k m hk
    rcases mem_graft.mp hq with rfl | hq
    · rw [graft_new h ha, lookup_empty] at hk
      cases hk
    rw [graft_children (h.ne_counter hq)] at hk
    split at hk
    · next hqk =>
      cases hk
      obtain ⟨rfl, rfl⟩ := hqk
      refine ⟨mem_graft.mpr (.inl rfl), Ne.symm hroot, ?_, ?_⟩
      · rw [graft_new h ha]
      · rw [graft_new h ha]
        rfl
    · obtain ⟨hm, hmroot, hparent, hkey⟩ := h.child q hq k m hk
      obtain ⟨hkey', hparent', _⟩ := graft_other t p key value (h.ne_counter hm)
      exact ⟨mem_graft.mpr (.inr hm), hmroot, hparent'.trans hparent, by rw [hkey']; exact hkey⟩

end

end Graft

/-! ### Removing a leaf -/

/-- The tree without the leaf `n` under `p`. -/
def Tree.prune (t : Tree) (p n : NodeId) : Tree :=
  { t with
    node :=
      update t.node p
      {t.node p with children := (t.node p).children.erase ((t.node n).key.childKey t.pageSize)} }

def Shape.prune (g : Shape) (n : NodeId) : Shape := {g with live := g.live.erase n}

structure CanPrune (t : Tree) (g : Shape) (p n : NodeId) : Prop where
  mem : n ∈ g.live
  edge : Edge t g p n
  leaf : (t.node n).children.entries = []

section Prune

open Shape Sglang.MemCache.Tree
lemma Tree.prune_children (k : ChildKey) :
    ((t.prune p n).node q).children.lookup k =
      if q = p ∧ k = (t.node n).key.childKey t.pageSize then none
      else (t.node q).children.lookup k := by
  by_cases hqp : q = p
  · subst hqp
    simp [prune, lookup_erase_ite]
  · simp [prune, hqp]

lemma Tree.prune_other (t : Tree) (p n q : NodeId) :
    ((t.prune p n).node q).key = (t.node q).key ∧
    ((t.prune p n).node q).parent = (t.node q).parent ∧
      ((t.prune p n).node q).value = (t.node q).value := by
  by_cases hqp : q = p
  · subst hqp
    simp [prune]
  · simp [prune, hqp]

lemma Shape.mem_prune : q ∈ (g.prune n).live ↔ q ≠ n ∧ q ∈ g.live := by
  simp [prune]

lemma lookup_of_leaf (h : (t.node n).children.entries = []) (k : ChildKey) :
    (t.node n).children.lookup k = none := by
  rw [lookup_eq_none]
  intro hk
  rw [AList.mem_keys] at hk
  simp [AList.keys, h] at hk

lemma CanPrune.edge_other (hr : CanPrune t g p n) {m : NodeId} (hmn : m ≠ n) (e : Edge t g q m) :
    Edge (t.prune p n) (g.prune n) q m := by
  obtain ⟨hkey, hparent, hvalue⟩ := prune_other t p n m
  have hqn : q ≠ n := by
    rintro rfl
    exact absurd ((lookup_of_leaf hr.leaf _).symm.trans e.lookup) (by simp)
  refine ⟨mem_prune.mpr ⟨hqn, e.mem⟩, by rw [hparent, e.parent], ?_, ?_, ?_, ?_, ?_, ?_, ?_⟩
  · rw [hkey, prune_children, if_neg]
    · exact e.lookup
    · rintro ⟨rfl, hk⟩
      have hsame : (t.node m).key.childKey t.pageSize = (t.node n).key.childKey t.pageSize := hk
      have := e.lookup
      rw [hsame, hr.edge.lookup] at this
      exact hmn (some.inj this).symm
  · rw [hkey]
    exact e.path
  · rw [hvalue]
    exact e.vals
  · rw [hkey, (prune_other t p n q).1]
    exact e.ns
  · rw [hkey]
    exact e.len_pos
  · rw [hkey]
    exact e.aligned
  · rw [hkey, hvalue]
    exact e.value_len

/-- So does the removal of a leaf. -/
lemma WellFormed.prune (h : WellFormed t g) (hr : CanPrune t g p n) :
    WellFormed (t.prune p n) (g.prune n) := by
  refine ⟨h.page_pos, ?_, h.root_path, h.root_vals, ?_, ?_, ?_⟩
  · exact mem_prune.mpr ⟨(h.ne_root hr.edge).symm, h.root_mem⟩
  · intro q hq
    exact h.lt_counter q (mem_prune.mp hq).2
  · intro m hm hmroot
    obtain ⟨hmn, hm⟩ := mem_prune.mp hm
    obtain ⟨q, e⟩ := h.edge m hm hmroot
    exact ⟨q, hr.edge_other hmn e⟩
  · intro q hq k m hk
    obtain ⟨hqn, hq⟩ := mem_prune.mp hq
    rw [prune_children] at hk
    split at hk
    · cases hk
    · next hqk =>
      obtain ⟨hm, hmroot, hparent, hkey⟩ := h.child q hq k m hk
      obtain ⟨hkey', hparent', _⟩ := prune_other t p n m
      refine ⟨mem_prune.mpr ⟨?_, hm⟩, hmroot, hparent'.trans hparent, by rw [hkey']; exact hkey⟩
      rintro rfl
      exact hqk ⟨hr.edge.parent_unique hparent, hkey.symm⟩

end Prune

end Sglang.MemCache
