import Mathlib.Data.List.Induction
import Mathlib.Data.List.Perm.Basic
import Mathlib.Data.Prod.Lex
import Sglang.Ngram.Trie

/-! What the trie keeps.

The nodes in use are the root and those of the global recency list; the rest of the pool is free.
Beside the trie stands the word of every node in use, which says how deep the node is. The invariant
is kept when a node is linked, touched or released, and when the recency list is put in an order
that still has parents before children. -/
namespace Sglang.Ngram

open List

namespace Trie
open Function Trie OrderedDict Recency

/-! ### The order of siblings -/

/-- What siblings are sorted by. -/
def rank (nodes : NodeId → TrieNode) (n : NodeId) : Int ×ₗ Int ×ₗ Nat :=
  toLex (-(nodes n).freq.toInt, toLex ((nodes n).token, n))

/-- The order of siblings is that of their ranks. -/
lemma compareByFreq_iff (nodes : NodeId → TrieNode) (a b : NodeId) :
    CompareByFreq nodes a b ↔ rank nodes a < rank nodes b := by
  unfold CompareByFreq rank
  rw [Prod.Lex.toLex_lt_toLex, Prod.Lex.toLex_lt_toLex, Int32.lt_iff_toInt_lt, ← Int32.toInt_inj]
  have hlt : -(nodes a).freq.toInt < -(nodes b).freq.toInt ↔
    (nodes b).freq.toInt < (nodes a).freq.toInt := by omega
  have heq : -(nodes a).freq.toInt = -(nodes b).freq.toInt ↔
    (nodes b).freq.toInt = (nodes a).freq.toInt := by omega
  rw [hlt, heq]

variable {nodes : NodeId → TrieNode}

/-- The node number decides between equal frequencies and tokens, so ranks differ. -/
lemma rank_ne {a b : NodeId} (hab : a ≠ b) : rank nodes a ≠ rank nodes b := by
  intro heq
  have := congrArg (fun x => (ofLex (ofLex x).2).2) heq
  exact hab this

variable {nodes' : NodeId → TrieNode}

/-- Only frequencies and tokens count. -/
lemma compareByFreq_congr {a b : NodeId}
    (ha : (nodes' a).freq = (nodes a).freq ∧ (nodes' a).token = (nodes a).token)
    (hb : (nodes' b).freq = (nodes b).freq ∧ (nodes' b).token = (nodes b).token) :
    CompareByFreq nodes' a b ↔ CompareByFreq nodes a b := by
  unfold CompareByFreq
  rw [ha.1, ha.2, hb.1, hb.2]

variable {l : List NodeId}

lemma pairwise_congr
    (h : ∀ n ∈ l, (nodes' n).freq = (nodes n).freq ∧ (nodes' n).token = (nodes n).token)
    (hl : l.Pairwise (CompareByFreq nodes)) : l.Pairwise (CompareByFreq nodes') :=
  hl.imp_of_mem fun ha hb => (compareByFreq_congr (h _ ha) (h _ hb)).mpr

/-- In a sorted list a node is found and taken out. -/
lemma eraseSorted_eq (nodes : NodeId → TrieNode) (n : NodeId) (l : List NodeId) :
    eraseSorted nodes n l = l.filter (· ≠ n) := by
  refine filter_congr fun m _ => ?_
  rw [decide_eq_decide, compareByFreq_iff, compareByFreq_iff]
  constructor
  · rintro h rfl
    exact h.elim (lt_irrefl _) (lt_irrefl _)
  · exact fun hne => lt_or_gt_of_ne (rank_ne hne)

variable {n : NodeId}

/-- Insertion keeps the siblings sorted. -/
lemma pairwise_insertSorted (hl : l.Pairwise (CompareByFreq nodes))
    (hn : n ∉ l) : (insertSorted nodes n l).Pairwise (CompareByFreq nodes) :=
  pairwise_orderedInsert (compareByFreq_iff nodes) hl fun _ hm => rank_ne fun heq => hn (heq ▸ hm)

/-! ### The invariant -/

/-- The nodes in use. -/
def live (t : Trie) : List NodeId := t.root :: t.globalLru

/-- Nodes spell words: every live node is where its word says, in the lists of its parent and of the
trie, and the rest is free. -/
structure Valid (t : Trie) (word : NodeId → List Int) : Prop where
  pool_length : t.nodePool.length = t.capacity
  perm : (t.nodePool.take t.freeNodeCount ++ t.live).Perm (List.range t.capacity)
  child : ∀ p ∈ t.live, ∀ token n, (t.nodes p).child.get? token = some n →
    n ∈ t.globalLru ∧ (t.nodes n).parent = p ∧ (t.nodes n).token = token
  linked : ∀ n ∈ t.globalLru, (t.nodes n).parent ∈ t.live ∧
    (t.nodes (t.nodes n).parent).child.get? (t.nodes n).token = some n
  order : ∀ n ∈ t.globalLru, (t.nodes n).parent = t.root ∨
    [(t.nodes n).parent, n].Sublist t.globalLru
  lru : ∀ p ∈ t.live, (t.nodes p).lru.Nodup ∧ ∀ n, n ∈ (t.nodes p).lru ↔
    n ∈ t.globalLru ∧ (t.nodes n).parent = p
  sorted : ∀ p ∈ t.live, (t.nodes p).sortedChildren.Pairwise (CompareByFreq t.nodes) ∧
    ∀ n, n ∈ (t.nodes p).sortedChildren ↔ n ∈ t.globalLru ∧ (t.nodes n).parent = p
  word_root : word t.root = []
  word_eq : ∀ n ∈ t.globalLru, word n = word (t.nodes n).parent ++ [(t.nodes n).token]
  depth : ∀ n ∈ t.globalLru, (word n).length ≤ t.maxTrieDepth

variable {t t' : Trie} {word : NodeId → List Int}

namespace Valid

section
variable (h : Valid t word)
include h

lemma nodup : (t.nodePool.take t.freeNodeCount ++ t.live).Nodup :=
  h.perm.nodup_iff.mpr nodup_range

lemma nodup_live : t.live.Nodup := (nodup_append.mp h.nodup).2.1

lemma nodup_globalLru : t.globalLru.Nodup := (nodup_cons.mp h.nodup_live).2

lemma root_not_mem : t.root ∉ t.globalLru := (nodup_cons.mp h.nodup_live).1

/-- A node is the root, in use or free. -/
lemma count : t.freeNodeCount + t.globalLru.length + 1 = t.capacity := by
  have hlen := h.perm.length_eq
  rw [length_append, length_take, h.pool_length, live, length_cons, length_range] at hlen
  omega

end

lemma mem_live (hn : n ∈ t.globalLru) : n ∈ t.live := mem_cons_of_mem _ hn

section
variable (h : Valid t word)
include h

/-- No node is its own parent. -/
lemma parent_ne (hn : n ∈ t.globalLru) : (t.nodes n).parent ≠ n := by
  intro heq
  have := congrArg List.length (h.word_eq n hn)
  rw [heq, length_append, length_singleton] at this
  omega

/-- Two live nodes do not spell the same word. -/
lemma eq_of_word {n m : NodeId} (hn : n ∈ t.live) (hm : m ∈ t.live) (heq : word n = word m) :
    n = m := by
  induction hlen : (word n).length generalizing n m with
  | zero =>
    have hroot : ∀ {x}, x ∈ t.live → (word x).length = 0 → x = t.root := by
      intro x hx hzero
      obtain hx | hx := mem_cons.mp hx
      · exact hx
      · rw [h.word_eq x hx, length_append] at hzero
        cases hzero
    rw [hroot hn hlen, hroot hm (heq ▸ hlen)]
  | succ k ih =>
    have hused : ∀ {x}, x ∈ t.live → (word x).length = k + 1 → x ∈ t.globalLru := by
      intro x hx hlen
      obtain rfl | hx := mem_cons.mp hx
      · rw [h.word_root] at hlen
        cases hlen
      · exact hx
    have hn := hused hn hlen
    have hm := hused hm (heq ▸ hlen)
    obtain ⟨hpn, hcn⟩ := h.linked n hn
    obtain ⟨hpm, hcm⟩ := h.linked m hm
    rw [h.word_eq n hn, h.word_eq m hm] at heq
    obtain ⟨hparent, htoken⟩ := append_inj' heq rfl
    rw [h.word_eq n hn, length_append, length_singleton] at hlen
    have hparent := ih hpn hpm hparent (by omega)
    rw [hparent, singleton_inj.mp htoken, hcm] at hcn
    exact (Option.some.inj hcn).symm

/-! ### Words and walks from the root -/

/-- A search ends at a live node that spells what was searched. -/
lemma word_of_find {tokens : List Int} (hfind : t.find tokens = some n) :
    n ∈ t.live ∧ word n = tokens := by
  induction tokens using List.reverseRecOn generalizing n with
  | nil =>
    cases hfind
    exact ⟨mem_cons_self, h.word_root⟩
  | append_singleton tokens token ih =>
    rw [find, foldlM_append, Option.bind_eq_bind, Option.bind_eq_some_iff] at hfind
    obtain ⟨p, hp, hchild⟩ := hfind
    obtain ⟨hplive, hpword⟩ := ih hp
    have hchild : (t.nodes p).child.get? token = some n := by simpa using hchild
    obtain ⟨hn, hparent, htoken⟩ := h.child p hplive token n hchild
    refine ⟨mem_live hn, ?_⟩
    rw [h.word_eq n hn, hparent, htoken, hpword]

/-- Every live node is found by its word. -/
lemma find_word (hn : n ∈ t.live) : t.find (word n) = some n := by
  induction hlen : (word n).length generalizing n with
  | zero =>
    have hnil := eq_nil_of_length_eq_zero hlen
    have := h.eq_of_word hn mem_cons_self (hnil.trans h.word_root.symm)
    rw [hnil, this]
    rfl
  | succ k ih =>
    obtain rfl | hn := mem_cons.mp hn
    · rw [h.word_root] at hlen
      cases hlen
    obtain ⟨hp, hchild⟩ := h.linked n hn
    have hword := h.word_eq n hn
    rw [hword, length_append, length_singleton] at hlen
    have := ih hp (by omega)
    rw [hword, find, foldlM_append, Option.bind_eq_bind]
    rw [find] at this
    rw [this]
    simpa using hchild

/-- What is reachable from the root is what is live. -/
lemma reachable_iff : t.Reachable n ↔ n ∈ t.live :=
  ⟨fun ⟨_, hfind⟩ => (h.word_of_find hfind).1, fun hn => ⟨_, h.find_word hn⟩⟩

end

end Valid

/-! ### A node is touched -/

@[simp] lemma nodes_modify (t : Trie) (n m : NodeId) (f : TrieNode → TrieNode) :
    (t.modify n f).nodes m = if m = n then f (t.nodes n) else t.nodes m :=
  Function.update_apply _ _ _ _

lemma insertSorted_congr
    (h : ∀ n, (nodes' n).freq = (nodes n).freq ∧ (nodes' n).token = (nodes n).token)
    (n : NodeId) (l : List NodeId) :
    insertSorted nodes' n l = insertSorted nodes n l := by
  have hrel : CompareByFreq nodes' = CompareByFreq nodes := by
    funext a b
    exact propext (compareByFreq_congr (h a) (h b))
  unfold insertSorted
  congr!

/-- Only the frequency of `node` and its places among the children of `cursor` change. -/
structure IsTouch (t t' : Trie) (cursor node : NodeId) : Prop where
  frame : t' = {t with nodes := t'.nodes}
  keeps : ∀ n, (t'.nodes n).child = (t.nodes n).child ∧ (t'.nodes n).token = (t.nodes n).token ∧
    (t'.nodes n).parent = (t.nodes n).parent
  freq : ∀ n, n ≠ node → (t'.nodes n).freq = (t.nodes n).freq
  lru : ∀ n, (t'.nodes n).lru = if n = cursor then node :: (t.nodes n).lru.erase node
    else (t.nodes n).lru
  sorted : ∀ n, (t'.nodes n).sortedChildren =
    if n = cursor then insertSorted t'.nodes node ((t.nodes n).sortedChildren.filter (· ≠ node))
    else (t.nodes n).sortedChildren

variable {cursor node : NodeId}

/-- A visit to a child that exists. -/
lemma touch_spec (hne : cursor ≠ node) (hmem : node ∈ (t.nodes cursor).lru) :
    ∃ t', t.touch cursor node = .ok t' ∧ IsTouch t t' cursor node := by
  obtain ⟨t1, ht1⟩ : ∃ t1, t1 = t.modify cursor fun x =>
    {x with sortedChildren := eraseSorted t.nodes node x.sortedChildren} := ⟨_, rfl⟩
  obtain ⟨t2, ht2⟩ : ∃ t2, t2 = t1.modify node fun x => {x with freq := x.freq + 1} := ⟨_, rfl⟩
  obtain ⟨t3, ht3⟩ : ∃ t3, t3 = t2.modify cursor fun x =>
    {x with sortedChildren := insertSorted t2.nodes node x.sortedChildren} := ⟨_, rfl⟩
  have hframe : t3 = {t with nodes := t3.nodes} := by rw [ht3, ht2, ht1]; rfl
  have hlru : (t3.nodes cursor).lru = (t.nodes cursor).lru := by simp [ht3, ht2, ht1, hne]
  have hsplice :
      splice (t3.nodes cursor).lru node = some (node :: (t.nodes cursor).lru.erase node) := by
    rw [hlru, splice, if_pos hmem]
  obtain ⟨t', ht'⟩ : ∃ t', t' = t3.modify cursor fun x =>
    {x with lru := node :: (t.nodes cursor).lru.erase node} := ⟨_, rfl⟩
  have hcursor : t'.nodes cursor = { t.nodes cursor with
      sortedChildren :=
        insertSorted t2.nodes node ((t.nodes cursor).sortedChildren.filter (· ≠ node))
      lru := node :: (t.nodes cursor).lru.erase node } := by
    simp [ht', ht3, ht2, ht1, hne, eraseSorted_eq]
  have hnode : t'.nodes node = {t.nodes node with freq := (t.nodes node).freq + 1} := by
    simp [ht', ht3, ht2, ht1, hne.symm]
  have hother (n : NodeId) (hc : n ≠ cursor) (hn : n ≠ node) : t'.nodes n = t.nodes n := by
    simp [ht', ht3, ht2, ht1, hc, hn]
  have hsort := @insertSorted_congr t2.nodes t'.nodes (fun m => by
    by_cases hc : m = cursor <;> simp [ht', ht3, hc]) node
  refine ⟨t', ?_, by rw [ht', hframe]; rfl, ?_, ?_, ?_, ?_⟩
  · unfold touch
    simp only [← ht1, ← ht2, ← ht3, hsplice, ht']
    rfl
  all_goals
    intro n
    by_cases hc : n = cursor
    · rw [hc, hcursor]
      simp [hsort]
    · by_cases hn : n = node
      · rw [hn, hnode]
        simp [hne.symm]
      · rw [hother n hc hn]
        simp [hc]

section
variable (h : Valid t word)
include h

/-- A visit to a child keeps the trie valid. -/
lemma Valid.touch (hc : IsTouch t t' cursor node)
    (hnode : node ∈ t.globalLru) (hparent : (t.nodes node).parent = cursor) : Valid t' word := by
  have hroot : t'.root = t.root := by rw [hc.frame]
  have hglobal : t'.globalLru = t.globalLru := by rw [hc.frame]
  have hlive : t'.live = t.live := by rw [live, live, hroot, hglobal]
  have hchild n : (t'.nodes n).child = (t.nodes n).child := (hc.keeps n).1
  have htoken n : (t'.nodes n).token = (t.nodes n).token := (hc.keeps n).2.1
  have hpar n : (t'.nodes n).parent = (t.nodes n).parent := (hc.keeps n).2.2
  refine ⟨?_, ?_, ?_, ?_, ?_, ?_, ?_, ?_, ?_, ?_⟩
  · rw [congrArg nodePool hc.frame, congrArg capacity hc.frame]
    exact h.pool_length
  · rw [hlive, congrArg nodePool hc.frame, congrArg capacity hc.frame,
      congrArg freeNodeCount hc.frame]
    exact h.perm
  · intro p hp token n hn
    rw [hpar, htoken, hglobal]
    exact h.child p (hlive ▸ hp) token n (hchild p ▸ hn)
  · intro n hn
    rw [hpar, htoken, hchild, hlive]
    exact h.linked n (hglobal ▸ hn)
  · intro n hn
    rw [hpar, hroot, hglobal]
    exact h.order n (hglobal ▸ hn)
  · intro p hp
    obtain ⟨hnd, hmem⟩ := h.lru p (hlive ▸ hp)
    simp only [hc.lru, hglobal, hpar]
    split
    · next hpc =>
      have hin : node ∈ (t.nodes p).lru := (hmem node).mpr ⟨hnode, hparent.trans hpc.symm⟩
      have hperm := perm_cons_erase hin
      exact ⟨hperm.nodup_iff.mp hnd, fun n => hperm.mem_iff.symm.trans (hmem n)⟩
    · exact ⟨hnd, hmem⟩
  · intro p hp
    obtain ⟨hpw, hmem⟩ := h.sorted p (hlive ▸ hp)
    simp only [hc.sorted, hglobal, hpar]
    split
    · next hpc =>
      refine ⟨pairwise_insertSorted (pairwise_congr ?_ (hpw.filter _)) (by simp), fun n => ?_⟩
      · intro n hn
        exact ⟨hc.freq n (by simpa using (mem_filter.mp hn).2), htoken n⟩
      · rw [insertSorted, mem_orderedInsert, mem_filter, hmem, decide_eq_true_eq]
        constructor
        · rintro (rfl | ⟨hn, _⟩)
          · exact ⟨hnode, hparent.trans hpc.symm⟩
          · exact hn
        · exact fun hn => (eq_or_ne n node).imp_right fun hne => ⟨hn, hne⟩
    · next hpc =>
      refine ⟨pairwise_congr ?_ hpw, hmem⟩
      intro n hn
      refine ⟨hc.freq n ?_, htoken n⟩
      rintro rfl
      exact hpc (((hmem n).mp hn).2.symm.trans hparent)
  · rw [hroot]
    exact h.word_root
  · intro n hn
    rw [hpar, htoken]
    exact h.word_eq n (hglobal ▸ hn)
  · intro n hn
    rw [congrArg maxTrieDepth hc.frame]
    exact h.depth n (hglobal ▸ hn)

/-! ### A node is linked -/

/-- A free node comes in under `cursor`, at the back of the recency list. -/
structure IsLink (t t' : Trie) (cursor : NodeId) (token : Int) (node : NodeId) : Prop where
  frame :
    t' =
    {t with nodes := t'.nodes, freeNodeCount := t'.freeNodeCount, globalLru := t.globalLru ++ [node]}
  free : t.freeNodeCount = t'.freeNodeCount + 1
  pool : t.nodePool[t'.freeNodeCount]? = some node
  new : ∃ version, t'.nodes node = {token, parent := cursor, freq := 1, version}
  keeps : ∀ n, n ≠ node → (t'.nodes n).token = (t.nodes n).token ∧
    (t'.nodes n).parent = (t.nodes n).parent ∧
    (t'.nodes n).freq = (t.nodes n).freq
  child : ∀ n, n ≠ node → (t'.nodes n).child = if n = cursor then (t.nodes n).child.set token node
    else (t.nodes n).child
  lru : ∀ n, n ≠ node → (t'.nodes n).lru = if n = cursor then node :: (t.nodes n).lru
    else (t.nodes n).lru
  sorted : ∀ n, n ≠ node → (t'.nodes n).sortedChildren =
    if n = cursor then insertSorted t'.nodes node (t.nodes n).sortedChildren
    else (t.nodes n).sortedChildren

/-- The pool has a node that is not in use. -/
lemma Valid.next_free {free : Nat} (hfree : t.freeNodeCount = free + 1) :
    ∃ node, t.nodePool[free]? = some node ∧ node ∉ t.live ∧ t.nodePool.take
    (free + 1) = t.nodePool.take free ++ [node] := by
  have hlt : free < t.nodePool.length := by
    have := h.count
    rw [h.pool_length]
    omega
  have htake : t.nodePool.take (free + 1) = t.nodePool.take free ++ [t.nodePool[free]] :=
    take_succ_eq_append_getElem hlt
  refine ⟨t.nodePool[free], getElem?_eq_getElem hlt, fun hmem => ?_, htake⟩
  have hnd := h.nodup
  rw [hfree, htake] at hnd
  exact (nodup_append.mp hnd).2.2 _ (mem_append_right _ (mem_singleton.mpr rfl)) _ hmem rfl

/-- A visit to a child that does not exist makes it from a free node. -/
lemma Valid.link_spec {token : Int} (hcursor : cursor ∈ t.live)
    (hnone : (t.nodes cursor).child.get? token = none) (hpos : 0 < t.freeNodeCount) :
    ∃ t' node, t.visit cursor token = .ok (t', node) ∧ IsLink t t' cursor token node ∧
    node ∉ t.live := by
  obtain ⟨free, hfree⟩ := Nat.exists_eq_add_one_of_ne_zero hpos.ne'
  obtain ⟨node, hpool, hfresh, _⟩ := h.next_free hfree
  have hne : node ≠ cursor := fun heq => hfresh (heq ▸ hcursor)
  obtain ⟨t0, ht0⟩ : ∃ t0, t0 = ({t with freeNodeCount := free} : Trie).modify node fun x =>
    {version := x.version} := ⟨_, rfl⟩
  obtain ⟨t1, ht1⟩ : ∃ t1, t1 = t0.modify cursor fun x =>
    {x with child := x.child.set token node, lru := node :: x.lru} := ⟨_, rfl⟩
  obtain ⟨t2, ht2⟩ : ∃ t2, t2 = ({t1 with globalLru := t1.globalLru ++ [node]} : Trie).modify node
    fun x =>
    {x with token := token, parent := cursor, freq := 1} := ⟨_, rfl⟩
  obtain ⟨t', ht'⟩ : ∃ t', t' = t2.modify cursor fun x =>
    {x with sortedChildren := insertSorted t2.nodes node x.sortedChildren} := ⟨_, rfl⟩
  have hnode :
      t'.nodes node = {token, parent := cursor, freq := 1, version := (t.nodes node).version} := by
    simp [ht', ht2, ht1, ht0, hne]
  have hcur : t'.nodes cursor = { t.nodes cursor with
      child := (t.nodes cursor).child.set token node
      lru := node :: (t.nodes cursor).lru
      sortedChildren := insertSorted t2.nodes node (t.nodes cursor).sortedChildren } := by
    simp [ht', ht2, ht1, ht0, hne.symm]
  have hother (n : NodeId) (hc : n ≠ cursor) (hn : n ≠ node) : t'.nodes n = t.nodes n := by
    simp [ht', ht2, ht1, ht0, hc, hn]
  have hsort :=
    @insertSorted_congr t2.nodes t'.nodes
    (fun m => by by_cases hc : m = cursor <;> simp [ht', hc]) node
  have hframe :
      t' =
      {t with nodes := t'.nodes, freeNodeCount := free, globalLru := t.globalLru ++ [node]} := by
    rw [ht', ht2, ht1, ht0]
    rfl
  have hcount : t'.freeNodeCount = free := by rw [hframe]
  refine ⟨t', node, ?_, ⟨hcount ▸ hframe, hcount ▸ hfree, hcount ▸ hpool,
    ⟨_, hnode⟩, ?_, ?_, ?_, ?_⟩, hfresh⟩
  · unfold visit getNode
    simp only [hnone, hfree, hpool, orUndefined]
    show Except.ok (link _ cursor token node, node) = _
    rw [← ht0]
    unfold link
    simp only [← ht1, ← ht2, ← ht']
  all_goals
    intro n hn
    by_cases hc : n = cursor
    · rw [hc, hcur]
      simp [hsort]
    · rw [hother n hc hn]
      simp [hc]

/-- A new child keeps the trie valid and spells one token more. -/
lemma Valid.link {token : Int} (hc : IsLink t t' cursor token node)
    (hcursor : cursor ∈ t.live) (hfresh : node ∉ t.live)
    (hnone : (t.nodes cursor).child.get? token = none)
    (hdepth : (word cursor).length < t.maxTrieDepth) :
    Valid t' (update word node (word cursor ++ [token])) := by
  have hroot : t'.root = t.root := by rw [hc.frame]
  have hglobal : t'.globalLru = t.globalLru ++ [node] := by rw [hc.frame]
  have hlive : ∀ {n}, n ∈ t'.live ↔ n ∈ t.live ∨ n = node := by
    intro n
    rw [live, live, hroot, hglobal, mem_cons, mem_append, mem_singleton, mem_cons, or_assoc]
  have hmem : ∀ {n}, n ∈ t'.globalLru ↔ n ∈ t.globalLru ∨ n = node := by
    intro n
    rw [hglobal, mem_append, mem_singleton]
  have hne : ∀ {n}, n ∈ t.live → n ≠ node := fun hn heq => hfresh (heq ▸ hn)
  have hpar : ∀ {n}, n ∈ t.globalLru → (t'.nodes n).parent = (t.nodes n).parent :=
    fun hn => (hc.keeps _ (hne (mem_live hn))).2.1
  have htok : ∀ {n}, n ∈ t.globalLru → (t'.nodes n).token = (t.nodes n).token :=
    fun hn => (hc.keeps _ (hne (mem_live hn))).1
  obtain ⟨version, hnew⟩ := hc.new
  -- the new node is a child of the cursor, and of no other node; it has no children
  have hkids : ∀ p ∈ t.live, ∀ n, (n ∈ t'.globalLru ∧ (t'.nodes n).parent = p) ↔
      (n = node ∧ p = cursor) ∨ (n ∈ t.globalLru ∧ (t.nodes n).parent = p) := by
    intro p _ n
    rw [hmem]
    constructor
    · rintro ⟨hn | rfl, hp⟩
      · exact .inr ⟨hn, hpar hn ▸ hp⟩
      · rw [hnew] at hp
        exact .inl ⟨rfl, hp.symm⟩
    · rintro (⟨rfl, rfl⟩ | ⟨hn, hp⟩)
      · exact ⟨.inr rfl, by rw [hnew]⟩
      · exact ⟨.inl hn, (hpar hn).trans hp⟩
  have hnokids : ∀ n, ¬ (n ∈ t'.globalLru ∧ (t'.nodes n).parent = node) := by
    rintro n ⟨hn, hp⟩
    obtain hn | rfl := hmem.mp hn
    · rw [hpar hn] at hp
      exact hfresh (hp ▸ (h.linked n hn).1)
    · rw [hnew] at hp
      exact hne hcursor hp
  refine ⟨?_, ?_, ?_, ?_, ?_, ?_, ?_, ?_, ?_, ?_⟩
  · rw [congrArg nodePool hc.frame, congrArg capacity hc.frame]
    exact h.pool_length
  · obtain ⟨node', hpool, _, htake⟩ := h.next_free hc.free
    obtain rfl : node' = node := Option.some.inj (hpool.symm.trans hc.pool)
    have hperm := h.perm
    rw [hc.free, htake] at hperm
    rw [congrArg nodePool hc.frame, congrArg capacity hc.frame, live, hroot, hglobal]
    refine List.Perm.trans ?_ hperm
    rw [append_assoc]
    refine List.Perm.append_left _ ?_
    exact ((perm_append_singleton node' t.globalLru).cons _).trans (List.Perm.swap _ _ _)
  · intro p hp token' n hn
    obtain hp | rfl := hlive.mp hp
    · rw [hc.child p (hne hp)] at hn
      have hold (hn : (t.nodes p).child.get? token' = some n) :
          n ∈ t'.globalLru ∧ (t'.nodes n).parent = p ∧ (t'.nodes n).token = token' := by
        obtain ⟨hn, hparent, htoken⟩ := h.child p hp token' n hn
        exact ⟨hmem.mpr (.inl hn), (hpar hn).trans hparent, (htok hn).trans htoken⟩
      split at hn
      · next hpc =>
        rw [get?_set] at hn
        split at hn
        · next heq =>
          cases hn
          rw [hnew]
          exact ⟨hmem.mpr (.inr rfl), hpc.symm, heq.symm⟩
        · exact hold hn
      · exact hold hn
    · rw [hnew] at hn
      cases hn
  · intro n hn
    obtain hn | rfl := hmem.mp hn
    · obtain ⟨hp, hchild⟩ := h.linked n hn
      rw [hpar hn, htok hn, hc.child _ (hne hp)]
      refine ⟨hlive.mpr (.inl hp), ?_⟩
      split
      · next hpc =>
        rw [get?_set, if_neg, hchild]
        intro heq
        rw [hpc, heq, hnone] at hchild
        cases hchild
      · exact hchild
    · rw [hnew]
      refine ⟨hlive.mpr (.inl hcursor), ?_⟩
      rw [hc.child _ (hne hcursor), if_pos rfl, get?_set, if_pos rfl]
  · intro n hn
    rw [hroot, hglobal]
    obtain hn | rfl := hmem.mp hn
    · rw [hpar hn]
      exact (h.order n hn).imp_right fun hsub => hsub.trans (sublist_append_left _ _)
    · rw [hnew]
      exact (mem_cons.mp hcursor).imp_right fun hin =>
        (singleton_sublist.mpr hin).append (.refl [n])
  · intro p hp
    obtain hp | rfl := hlive.mp hp
    · obtain ⟨hnd, hmem⟩ := h.lru p hp
      simp only [hkids p hp, hc.lru p (hne hp)]
      split
      · next hpc =>
        refine ⟨nodup_cons.mpr ⟨fun hin => hfresh (mem_live ((hmem node).mp hin).1), hnd⟩,
          fun n => ?_⟩
        rw [mem_cons, hmem]
        simp [hpc]
      · next hpc =>
        refine ⟨hnd, fun n => ?_⟩
        rw [hmem]
        simp [hpc]
    · simp only [hnokids, iff_false]
      rw [hnew]
      simp
  · intro p hp
    obtain hp | rfl := hlive.mp hp
    · obtain ⟨hpw, hmem⟩ := h.sorted p hp
      have hpw' : (t.nodes p).sortedChildren.Pairwise (CompareByFreq t'.nodes) := by
        refine pairwise_congr (fun n hn => ?_) hpw
        obtain ⟨htoken, _, hfreq⟩ := hc.keeps n (hne (mem_live ((hmem n).mp hn).1))
        exact ⟨hfreq, htoken⟩
      simp only [hkids p hp, hc.sorted p (hne hp)]
      split
      · next hpc =>
        refine ⟨pairwise_insertSorted hpw' fun hin => hfresh (mem_live ((hmem node).mp hin).1),
          fun n => ?_⟩
        rw [insertSorted, mem_orderedInsert, hmem]
        simp [hpc]
      · next hpc =>
        refine ⟨hpw', fun n => ?_⟩
        rw [hmem]
        simp [hpc]
    · simp only [hnokids, iff_false]
      rw [hnew]
      simp
  · rw [hroot, update_of_ne (hne mem_cons_self)]
    exact h.word_root
  · intro n hn
    obtain hn | rfl := hmem.mp hn
    · rw [hpar hn, htok hn, update_of_ne (hne (mem_live hn)), update_of_ne (hne (h.linked n hn).1)]
      exact h.word_eq n hn
    · rw [hnew, update_self, update_of_ne (hne hcursor)]
  · intro n hn
    rw [congrArg maxTrieDepth hc.frame]
    obtain hn | rfl := hmem.mp hn
    · rw [update_of_ne (hne (mem_live hn))]
      exact h.depth n hn
    · rw [update_self, length_append, length_singleton]
      exact hdepth

/-! ### A node is released -/

omit h in
lemma ok_bind {α β : Type} (x : α) (f : α → Except TrieError β) : (Except.ok x >>= f) = f x := rfl

/-- The last node of the recency list leaves its parent and becomes free. -/
structure IsRelease (t t' : Trie) (rest : List NodeId) (last : NodeId) : Prop where
  frame : t' = { t with
    nodes := t'.nodes, nodePool := t.nodePool.set t.freeNodeCount last, freeNodeCount :=
      t.freeNodeCount + 1, globalLru := rest }
  keeps : ∀ n, (t'.nodes n).token = (t.nodes n).token ∧ (t'.nodes n).parent = (t.nodes n).parent ∧
    (t'.nodes n).freq = (t.nodes n).freq
  child : ∀ n, (t'.nodes n).child =
    if n = (t.nodes last).parent then (t.nodes n).child.erase (t.nodes last).token
    else (t.nodes n).child
  lru : ∀ n, (t'.nodes n).lru = if n = (t.nodes last).parent then (t.nodes n).lru.erase last
    else (t.nodes n).lru
  sorted : ∀ n, (t'.nodes n).sortedChildren =
    if n = (t.nodes last).parent then (t.nodes n).sortedChildren.filter (· ≠ last)
    else (t.nodes n).sortedChildren

variable {rest : List NodeId} {last : NodeId}

/-- The oldest node is no one's parent: a parent is used whenever its child is. -/
lemma Valid.parent_ne_last (hlast : t.globalLru = rest ++ [last]) (hn : n ∈ t.globalLru) :
    (t.nodes n).parent ≠ last := by
  intro hparent
  have hmem : last ∈ t.globalLru := by
    rw [hlast]
    exact mem_append_right _ (mem_singleton.mpr rfl)
  obtain hroot | hsub := h.order n hn
  · exact h.root_not_mem (hroot ▸ hparent ▸ hmem)
  · have hnd := h.nodup_globalLru
    rw [hlast] at hnd hsub
    have hne : n ≠ last := fun heq => h.parent_ne hn (hparent.trans heq.symm)
    have hin := (pair_sublist_dropLast hsub hne).subset mem_cons_self
    exact (nodup_append.mp hnd).2.2 _ hin _ (mem_singleton.mpr rfl) hparent

/-- Eviction takes the oldest node, which is a leaf. -/
lemma Valid.release_spec (hlast : t.globalLru = rest ++ [last]) :
    ∃ t', t.release = .ok t' ∧ IsRelease t t' rest last := by
  have hmem : last ∈ t.globalLru := by
    rw [hlast]
    exact mem_append_right _ (mem_singleton.mpr rfl)
  obtain ⟨hplive, _⟩ := h.linked last hmem
  have hne := h.parent_ne hmem
  have hkids : (t.nodes last).child.items = [] := by
    rw [items_eq_nil_iff]
    intro token
    refine Option.eq_none_iff_forall_ne_some.mpr fun n hn => ?_
    obtain ⟨hn, hparent, _⟩ := h.child last (mem_live hmem) token n hn
    exact h.parent_ne_last hlast hn hparent
  have hlru : last ∈ (t.nodes (t.nodes last).parent).lru :=
    ((h.lru _ hplive).2 last).mpr ⟨hmem, rfl⟩
  have hroom : t.freeNodeCount < t.nodePool.length := by
    have := h.count
    rw [h.pool_length]
    omega
  obtain ⟨t1, ht1⟩ : ∃ t1, t1 = ({t with globalLru := rest} : Trie).modify (t.nodes last).parent
    fun x =>
    { x with
      lru := (t.nodes (t.nodes last).parent).lru.erase last
      sortedChildren := eraseSorted t.nodes last x.sortedChildren
      child := x.child.erase (t.nodes last).token } := ⟨_, rfl⟩
  obtain ⟨t', ht'⟩ : ∃ t', t' = { t1.retireNode last with
    nodePool := t.nodePool.set t.freeNodeCount last, freeNodeCount := t.freeNodeCount + 1 } :=
      ⟨_, rfl⟩
  have hnodes : t'.nodes = (t1.retireNode last).nodes := by rw [ht']
  have hparent : t'.nodes (t.nodes last).parent = { t.nodes (t.nodes last).parent with
      lru := (t.nodes (t.nodes last).parent).lru.erase last
      sortedChildren := (t.nodes (t.nodes last).parent).sortedChildren.filter (· ≠ last)
      child := (t.nodes (t.nodes last).parent).child.erase (t.nodes last).token } := by
    rw [hnodes, retireNode, nodes_modify, if_neg hne, ht1, nodes_modify, if_pos rfl, eraseSorted_eq]
  have hself : t'.nodes last = {t.nodes last with version := (t.nodes last).version + 1} := by
    rw [hnodes, retireNode, nodes_modify, if_pos rfl, ht1, nodes_modify, if_neg hne.symm]
  have hother (n : NodeId) (hp : n ≠ (t.nodes last).parent) (hn : n ≠ last) :
      t'.nodes n = t.nodes n := by
    rw [hnodes, retireNode, nodes_modify, if_neg hn, ht1, nodes_modify, if_neg hp]
  refine ⟨t', ?_, by rw [ht', ht1]; rfl, ?_, ?_, ?_, ?_⟩
  · unfold release
    have hback : t.globalLru.getLast? = some last := by rw [hlast, getLast?_concat]
    have hdrop : t.globalLru.dropLast = rest := by rw [hlast, dropLast_concat]
    simp only [hback, hdrop, orUndefined, ok_bind, hkids, hlru, if_true,
      ne_eq, not_true_eq_false, if_false, ← ht1]
    rw [ht', if_pos (by rw [ht1]; exact hroom), ht1]
    rfl
  all_goals
    intro n
    by_cases hp : n = (t.nodes last).parent
    · rw [hp, hparent]
      simp
    · by_cases hn : n = last
      · rw [hn, hself]
        simp [hne.symm]
      · rw [hother n hp hn]
        simp [hp]

/-- Eviction keeps the trie valid. -/
lemma Valid.release (hc : IsRelease t t' rest last) (hlast : t.globalLru = rest ++ [last]) :
    Valid t' word := by
  have hmem : ∀ {n}, n ∈ t.globalLru ↔ n ∈ rest ∨ n = last := by
    intro n
    rw [hlast, mem_append, mem_singleton]
  have hroot : t'.root = t.root := by rw [hc.frame]
  have hglobal : t'.globalLru = rest := by rw [hc.frame]
  have hchild n := hc.child n
  have hpar n : (t'.nodes n).parent = (t.nodes n).parent := (hc.keeps n).2.1
  have htok n : (t'.nodes n).token = (t.nodes n).token := (hc.keeps n).1
  have hnd := h.nodup_globalLru
  rw [hlast] at hnd
  have hrest : ∀ {n}, n ∈ rest ↔ n ∈ t.globalLru ∧ n ≠ last := by
    intro n
    rw [hmem]
    constructor
    · intro hn
      exact ⟨.inl hn, fun heq => (nodup_append.mp hnd).2.2 _ hn _ (mem_singleton.mpr rfl) heq⟩
    · rintro ⟨hn | hn, hne⟩
      · exact hn
      · exact absurd hn hne
  have hlive : ∀ {n}, n ∈ t'.live ↔ n ∈ t.live ∧ n ≠ last := by
    intro n
    rw [live, live, hroot, hglobal, mem_cons, mem_cons, hrest]
    constructor
    · rintro (rfl | ⟨hn, hne⟩)
      · exact ⟨.inl rfl, fun heq => h.root_not_mem (hmem.mpr (.inr heq))⟩
      · exact ⟨.inr hn, hne⟩
    · rintro ⟨hn | hn, hne⟩
      · exact .inl hn
      · exact .inr ⟨hn, hne⟩
  have hlastmem : last ∈ t.globalLru := hmem.mpr (.inr rfl)
  have hcount := h.count
  have hkids : ∀ p n, (n ∈ rest ∧ (t.nodes n).parent = p) ↔
      (n ∈ t.globalLru ∧ (t.nodes n).parent = p) ∧ n ≠ last := by
    intro p n
    rw [hrest]
    tauto
  refine ⟨?_, ?_, ?_, ?_, ?_, ?_, ?_, ?_, ?_, ?_⟩
  · rw [congrArg nodePool hc.frame, congrArg capacity hc.frame, length_set]
    exact h.pool_length
  · have hlt : t.freeNodeCount < (t.nodePool.set t.freeNodeCount last).length := by
      rw [length_set, h.pool_length]
      omega
    have htake : (t.nodePool.set t.freeNodeCount last).take (t.freeNodeCount + 1) =
        t.nodePool.take t.freeNodeCount ++ [last] := by
      rw [take_succ_eq_append_getElem hlt, getElem_set_self, take_set_of_le le_rfl]
    rw [congrArg nodePool hc.frame, congrArg capacity hc.frame, congrArg freeNodeCount hc.frame]
    rw [htake, live, hroot, hglobal]
    refine List.Perm.trans ?_ h.perm
    rw [append_assoc, live, hlast]
    refine List.Perm.append_left _ ?_
    exact (List.Perm.swap _ _ _).trans ((perm_append_singleton last rest).symm.cons _)
  · intro p hp token n hn
    obtain ⟨hp, hpl⟩ := hlive.mp hp
    have hold : (t.nodes p).child.get? token = some n ∧ n ≠ last := by
      rw [hchild] at hn
      split at hn
      · obtain ⟨htoken, hget⟩ := get?_erase_eq_some.mp hn
        refine ⟨hget, ?_⟩
        rintro rfl
        exact htoken (h.child p hp token n hget).2.2.symm
      · next hpp =>
        refine ⟨hn, ?_⟩
        rintro rfl
        exact hpp (h.child p hp token n hn).2.1.symm
    obtain ⟨hn, hparent, htoken⟩ := h.child p hp token n hold.1
    rw [hpar, htok, hglobal]
    exact ⟨hrest.mpr ⟨hn, hold.2⟩, hparent, htoken⟩
  · intro n hn
    rw [hglobal] at hn
    obtain ⟨hn, hne⟩ := hrest.mp hn
    obtain ⟨hp, hget⟩ := h.linked n hn
    rw [hpar, htok]
    refine ⟨hlive.mpr ⟨hp, h.parent_ne_last hlast hn⟩, ?_⟩
    rw [hchild]
    split
    · next hpp =>
      refine get?_erase_eq_some.mpr ⟨fun htoken => hne ?_, hget⟩
      have hget' := (h.linked last hlastmem).2
      rw [← hpp, ← htoken, hget] at hget'
      exact Option.some.inj hget'
    · exact hget
  · intro n hn
    rw [hglobal] at hn
    obtain ⟨hn, hne⟩ := hrest.mp hn
    rw [hpar, hroot, hglobal]
    refine (h.order n hn).imp_right fun hsub => pair_sublist_dropLast ?_ hne
    rw [← hlast]
    exact hsub
  · intro p hp
    obtain ⟨hp, _⟩ := hlive.mp hp
    obtain ⟨hnd, hmem⟩ := h.lru p hp
    simp only [hc.lru, hglobal, hpar, hkids p]
    split
    · refine ⟨hnd.erase _, fun n => ?_⟩
      rw [hnd.mem_erase_iff, hmem]
      tauto
    · next hpp =>
      refine ⟨hnd, fun n => ?_⟩
      rw [hmem]
      refine ⟨fun hn => ⟨hn, ?_⟩, fun hn => hn.1⟩
      rintro rfl
      exact hpp hn.2.symm
  · intro p hp
    obtain ⟨hp, _⟩ := hlive.mp hp
    obtain ⟨hpw, hmem⟩ := h.sorted p hp
    have hpw := @pairwise_congr t.nodes t'.nodes _ (fun n _ => ⟨(hc.keeps n).2.2, htok n⟩) hpw
    simp only [hc.sorted, hglobal, hpar, hkids p]
    split
    · refine ⟨hpw.filter _, fun n => ?_⟩
      rw [mem_filter, hmem, decide_eq_true_eq]
    · next hpp =>
      refine ⟨hpw, fun n => ?_⟩
      rw [hmem]
      refine ⟨fun hn => ⟨hn, ?_⟩, fun hn => hn.1⟩
      rintro rfl
      exact hpp hn.2.symm
  · rw [hroot]
    exact h.word_root
  · intro n hn
    rw [hglobal] at hn
    rw [hpar, htok]
    exact h.word_eq n (hrest.mp hn).1
  · intro n hn
    rw [hglobal] at hn
    rw [congrArg maxTrieDepth hc.frame]
    exact h.depth n (hrest.mp hn).1

/-! ### The recency list is reordered -/

/-- The order of use may change as long as parents stay before children. -/
lemma Valid.reorder {path : List NodeId} (hperm : l.Perm t.globalLru)
    (horder : ∀ n ∈ l, (t.nodes n).parent = t.root ∨ [(t.nodes n).parent, n].Sublist l) :
    Valid {t with globalLru := l, path := path} word := by
  have hmem : ∀ {n}, n ∈ l ↔ n ∈ t.globalLru := hperm.mem_iff
  have hlive : ∀ {n}, n ∈ t.root :: l ↔ n ∈ t.live := by
    intro n
    rw [live, mem_cons, mem_cons, hmem]
  refine ⟨h.pool_length, (List.Perm.append_left _ (hperm.cons _)).trans h.perm,
    ?_, ?_, horder, ?_, ?_, h.word_root, ?_, ?_⟩
  · intro p hp token n hn
    obtain ⟨hn, hrest⟩ := h.child p (hlive.mp hp) token n hn
    exact ⟨hmem.mpr hn, hrest⟩
  · intro n hn
    obtain ⟨hp, hget⟩ := h.linked n (hmem.mp hn)
    exact ⟨hlive.mpr hp, hget⟩
  · intro p hp
    obtain ⟨hnd, hkids⟩ := h.lru p (hlive.mp hp)
    exact ⟨hnd, fun n => (hkids n).trans (and_congr_left' hmem.symm)⟩
  · intro p hp
    obtain ⟨hpw, hkids⟩ := h.sorted p (hlive.mp hp)
    exact ⟨hpw, fun n => (hkids n).trans (and_congr_left' hmem.symm)⟩
  · exact fun n hn => h.word_eq n (hmem.mp hn)
  · exact fun n hn => h.depth n (hmem.mp hn)

end

end Trie

end Sglang.Ngram
