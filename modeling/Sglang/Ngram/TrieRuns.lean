import Mathlib.Data.Set.Card
import Mathlib.Tactic.Linarith
import Sglang.Ngram.TrieInvariant

/-! The trie over its history.

A window of at most `max_trie_depth` tokens finds the nodes it needs, since the pool has more; the
walk ends with its path at the front of the recency list. What was among the first nodes of the list
falls back by the length of the window, so a suffix survives the insertion of the shorter ones if
the pool has room for all of them. -/
namespace Sglang.Ngram

open List

namespace Trie
open Function

variable {t t' t'' : Trie} {word word' word'' : NodeId → List Int}

/-! ### Squeezing -/

section
variable (h : Valid t word)
include h

lemma Valid.releaseAll_spec {count : Nat} (hcount : count ≤ t.globalLru.length) :
    ∃ t', t.releaseAll count = .ok t' ∧ Valid t' word ∧ t'.globalLru = t.globalLru.take
    (t.globalLru.length - count) ∧
      t'.freeNodeCount = t.freeNodeCount + count ∧
      t'.root = t.root ∧ t'.capacity = t.capacity ∧ t'.maxTrieDepth = t.maxTrieDepth := by
  induction count generalizing t with
  | zero => exact ⟨t, rfl, h, by rw [Nat.sub_zero, take_length], rfl, rfl, rfl, rfl⟩
  | succ count ih =>
    obtain hnil | ⟨rest, last, hlast⟩ := t.globalLru.eq_nil_or_concat
    · rw [hnil] at hcount
      cases hcount
    rw [concat_eq_append] at hlast
    obtain ⟨t1, heq, hc⟩ := h.release_spec hlast
    have hglobal : t1.globalLru = rest := by rw [hc.frame]
    have hlen : t.globalLru.length = rest.length + 1 := by
      rw [hlast, length_append, length_singleton]
    obtain ⟨t', heq', h', htake, hfree, hroot, hcap, hdepth⟩ :=
      ih (h.release hc hlast) (by rw [hglobal]; omega)
    refine ⟨t', by rw [releaseAll, heq]; exact heq', h', ?_, ?_, ?_, ?_, ?_⟩
    · rw [htake, hglobal, hlen, hlast, take_append_of_le_length (by omega), Nat.add_sub_add_right]
    · have hone : t1.freeNodeCount = t.freeNodeCount + 1 := by rw [hc.frame]
      omega
    · rw [hroot, hc.frame]
    · rw [hcap, hc.frame]
    · rw [hdepth, hc.frame]

lemma Valid.squeeze_spec {count : Nat} (hcount : count ≤ t.globalLru.length) :
    ∃ t', t.squeeze count = .ok t' ∧ Valid t' word ∧ t'.globalLru = t.globalLru.take
    (t.globalLru.length - count) ∧
      t'.freeNodeCount = t.freeNodeCount + count ∧
      t'.root = t.root ∧ t'.capacity = t.capacity ∧ t'.maxTrieDepth = t.maxTrieDepth := by
  have hroom : t.nodePool.length ≥ t.freeNodeCount + count := by
    have := h.count
    rw [h.pool_length]
    omega
  rw [squeeze, if_neg (not_not.mpr hroom)]
  exact h.releaseAll_spec hcount

/-! ### Walking -/

/-- Nodes were added at the back; those that were there keep their words and parents. -/
structure Grown (t : Trie) (word : NodeId → List Int) (t' : Trie) (word' : NodeId → List Int) :
    Prop where
  root : t'.root = t.root
  capacity : t'.capacity = t.capacity
  maxTrieDepth : t'.maxTrieDepth = t.maxTrieDepth
  globalLru : t.globalLru <+: t'.globalLru
  words : ∀ m ∈ t.live, word' m = word m
  parents : ∀ m ∈ t.globalLru, (t'.nodes m).parent = (t.nodes m).parent

omit h in
lemma Grown.mem_live (hg : Grown t word t' word') {n : NodeId} (hn : n ∈ t.live) : n ∈ t'.live := by
  obtain hn | hn := mem_cons.mp hn
  · exact mem_cons.mpr (.inl (hn.trans hg.root.symm))
  · exact mem_cons_of_mem _ (hg.globalLru.subset hn)

omit h in
lemma Grown.trans (hg : Grown t word t' word') (hg' : Grown t' word' t'' word'') :
    Grown t word t'' word'' :=
  ⟨hg'.root.trans hg.root, hg'.capacity.trans hg.capacity, hg'.maxTrieDepth.trans hg.maxTrieDepth,
    hg.globalLru.trans hg'.globalLru, fun m hm =>
    (hg'.words m (hg.mem_live hm)).trans (hg.words m hm),
    fun m hm => (hg'.parents m (hg.globalLru.subset hm)).trans (hg.parents m hm)⟩

lemma Valid.visit_spec {cursor : NodeId} {token : Int} (hcursor : cursor ∈ t.live)
    (hdepth : (word cursor).length < t.maxTrieDepth) (hpos : 0 < t.freeNodeCount) :
    ∃ t' node word', t.visit cursor token = .ok (t', node) ∧ Valid t' word' ∧
    Grown t word t' word' ∧
      t.freeNodeCount ≤ t'.freeNodeCount + 1 ∧ node ∈ t'.globalLru ∧
      (t'.nodes node).parent = cursor ∧
      word' node = word cursor ++ [token] := by
  cases hchild : (t.nodes cursor).child.get? token with
  | none =>
    obtain ⟨t', node, heq, hc, hfresh⟩ := h.link_spec hcursor hchild hpos
    obtain ⟨version, hnew⟩ := hc.new
    have hglobal : t'.globalLru = t.globalLru ++ [node] := by rw [hc.frame]
    have hne : ∀ {m}, m ∈ t.live → m ≠ node := fun hm heq => hfresh (heq ▸ hm)
    refine ⟨t', node, _, heq, h.link hc hcursor hfresh hchild hdepth, ⟨?_, ?_, ?_, ?_, ?_, ?_⟩,
      hc.free.le, ?_, ?_, update_self _ _ _⟩
    · rw [hc.frame]
    · rw [hc.frame]
    · rw [hc.frame]
    · rw [hglobal]
      exact prefix_append _ _
    · exact fun m hm => update_of_ne (hne hm) _ _
    · exact fun m hm => (hc.keeps m (hne (mem_live hm))).2.1
    · rw [hglobal]
      exact mem_append_right _ (mem_singleton.mpr rfl)
    · rw [hnew]
  | some node =>
    obtain ⟨hnode, hparent, htoken⟩ := h.child cursor hcursor token node hchild
    have hne : cursor ≠ node := fun heq => h.parent_ne hnode (hparent.trans heq)
    obtain ⟨t', heq, hc⟩ := touch_spec hne (((h.lru cursor hcursor).2 node).mpr ⟨hnode, hparent⟩)
    refine ⟨t', node, word, ?_, h.touch hc hnode hparent,
      ⟨?_, ?_, ?_, ?_, fun _ _ => rfl, fun m _ => (hc.keeps m).2.2⟩, ?_, ?_, ?_, ?_⟩
    · rw [visit, hchild]
      dsimp only
      rw [heq]
      rfl
    · rw [hc.frame]
    · rw [hc.frame]
    · rw [hc.frame]
    · rw [congrArg Trie.globalLru hc.frame]
    · rw [congrArg freeNodeCount hc.frame]
      exact Nat.le_succ _
    · rw [congrArg Trie.globalLru hc.frame]
      exact hnode
    · exact (hc.keeps node).2.2.trans hparent
    · rw [h.word_eq node hnode, hparent, htoken]

/-- The nodes a walk from `cursor` went through. -/
structure IsPath (t : Trie) (word : NodeId → List Int) (cursor : NodeId)
    (window : List Int) (path : List NodeId) : Prop where
  length : path.length = window.length
  nodup : path.Nodup
  mem : ∀ n ∈ path, n ∈ t.globalLru
  deeper : ∀ n ∈ path, (word cursor).length < (word n).length
  order : ∀ n ∈ path, (t.nodes n).parent = cursor ∨ [(t.nodes n).parent, n].Sublist path
  found : window ≠ [] → ∃ n ∈ path, word n = word cursor ++ window

lemma Valid.walk_spec {cursor : NodeId} {window : List Int} (hcursor : cursor ∈ t.live)
    (hdepth : (word cursor).length + window.length ≤ t.maxTrieDepth)
    (hfree : window.length ≤ t.freeNodeCount) :
    ∃ t' path word', t.walk cursor window = .ok (t', path) ∧ Valid t' word' ∧
    Grown t word t' word' ∧
      IsPath t' word' cursor window path := by
  induction window generalizing t word cursor with
  | nil =>
    exact ⟨t, [], word, rfl, h, ⟨rfl, rfl, rfl, prefix_rfl, fun _ _ => rfl, fun _ _ => rfl⟩,
      ⟨rfl, nodup_nil, nofun, nofun, nofun, fun hne => absurd rfl hne⟩⟩
  | cons token window ih =>
    rw [length_cons] at hdepth hfree
    obtain ⟨t1, node, word1, heq, h1, hg1, hfree1, hnode, hparent, hword⟩ :=
      @Valid.visit_spec _ _ h cursor token hcursor (by omega) (by omega)
    have hlen : (word1 node).length = (word cursor).length + 1 := by
      rw [hword, length_append, length_singleton]
    obtain ⟨t', path, word', heq', h', hg', hpath⟩ :=
      ih h1 (mem_live hnode) (by rw [hlen, hg1.maxTrieDepth]; omega) (by omega)
    have hnode' : word' node = word1 node := hg'.words node (mem_live hnode)
    have hcur' : word' cursor = word cursor :=
      (hg'.words cursor (hg1.mem_live hcursor)).trans (hg1.words cursor hcursor)
    have hparent' : (t'.nodes node).parent = cursor := (hg'.parents node hnode).trans hparent
    refine ⟨t', node :: path, word', ?_, h', hg1.trans hg', ⟨?_, ?_, ?_, ?_, ?_, ?_⟩⟩
    · rw [walk, heq]
      simp only [ok_bind, heq']
    · rw [length_cons, length_cons, hpath.length]
    · exact nodup_cons.mpr ⟨fun hin => lt_irrefl _ (hpath.deeper node hin), hpath.nodup⟩
    · exact forall_mem_cons.mpr ⟨hg'.globalLru.subset hnode, hpath.mem⟩
    · rw [hcur']
      refine forall_mem_cons.mpr ⟨by rw [hnode', hlen]; omega, fun n hn => ?_⟩
      have := hpath.deeper n hn
      rw [hnode', hlen] at this
      omega
    · refine forall_mem_cons.mpr ⟨.inl hparent', fun n hn => .inr ?_⟩
      obtain hp | hsub := hpath.order n hn
      · rw [hp]
        exact (singleton_sublist.mpr hn).cons_cons _
      · exact hsub.cons _
    · intro _
      rw [hcur']
      cases window with
      | nil => exact ⟨node, mem_cons_self, hnode'.trans hword⟩
      | cons next window =>
        obtain ⟨n, hn, hwn⟩ := hpath.found (cons_ne_nil _ _)
        refine ⟨n, mem_cons_of_mem _ hn, ?_⟩
        rw [hwn, hnode', hword, append_assoc]
        rfl

/-! ### One window -/

/-- The insertion of a window: its nodes come first, and what came first before falls back by its
length. -/
structure Inserted (t : Trie) (word : NodeId → List Int) (window : List Int)
    (t' : Trie) (word' : NodeId → List Int) : Prop where
  valid : Valid t' word'
  capacity : t'.capacity = t.capacity
  maxTrieDepth : t'.maxTrieDepth = t.maxTrieDepth
  found : window ≠ [] → ∃ n ∈ t'.globalLru.take window.length, word' n = window
  keeps : ∀ k, k + window.length < t.capacity → ∀ n ∈ t.globalLru.take k,
    n ∈ t'.globalLru.take (k + window.length) ∧ word' n = word n

lemma Valid.makeRoom_spec {window : List Int} (hcap : window.length < t.capacity) :
    ∃ t1, t.makeRoom window.length = .ok t1 ∧ Valid t1 word ∧ window.length ≤ t1.freeNodeCount ∧
    t1.root = t.root ∧ t1.capacity = t.capacity ∧
      t1.maxTrieDepth = t.maxTrieDepth ∧
      ∀ k, k + window.length < t.capacity → ∀ n ∈ t.globalLru.take k, n ∈ t1.globalLru.take k := by
  have hcount := h.count
  unfold makeRoom
  by_cases hshort : window.length > t.freeNodeCount
  · rw [if_pos hshort]
    obtain ⟨t1, heq, h1, htake, hfree, hroot, hcap1, hdepth⟩ :=
      @Valid.squeeze_spec _ _ h (window.length - t.freeNodeCount) (by omega)
    refine ⟨t1, heq, h1, by omega, hroot, hcap1, hdepth, fun k hk n hn => ?_⟩
    rw [htake, take_take, min_eq_left (by omega)]
    exact hn
  · rw [if_neg hshort]
    exact ⟨t, rfl, h, by omega, rfl, rfl, rfl, fun _ _ _ hn => hn⟩

lemma Valid.insertWindow_spec {window : List Int} (hlen : window.length ≤ t.maxTrieDepth)
    (hcap : window.length < t.capacity) :
    ∃ t' word', t.insertWindow window = .ok t' ∧ Inserted t word window t' word' := by
  obtain ⟨t1, hroom, h1, hfree, hroot, hcap1, hdepth1, htake⟩ := h.makeRoom_spec hcap
  obtain ⟨t2, path, word', hwalk, h2, hg, hpath⟩ :=
    @Valid.walk_spec _ _ h1 t1.root window mem_cons_self
    (by rw [h1.word_root, length_nil, hdepth1]; omega) hfree
  have hsplice := Recency.spliceAll_eq h2.nodup_globalLru hpath.nodup hpath.mem
  set l := path ++ t2.globalLru.filter (· ∉ path) with hl
  have hperm : l.Perm t2.globalLru := Recency.perm_spliced h2.nodup_globalLru hpath.nodup hpath.mem
  have horder : ∀ n ∈ l, (t2.nodes n).parent = t2.root ∨ [(t2.nodes n).parent, n].Sublist l := by
    intro n hn
    rw [hg.root]
    by_cases hin : n ∈ path
    · exact (hpath.order n hin).imp_right fun hsub => hsub.trans (sublist_append_left _ _)
    · have hsub := h2.order n (hperm.mem_iff.mp hn)
      rw [hg.root] at hsub
      exact hsub.imp_right fun hsub => Recency.pair_sublist_spliced hsub hin
  refine ⟨{t2 with globalLru := l, path := path}, word', ?_, h2.reorder hperm horder,
    hg.capacity.trans hcap1,
    hg.maxTrieDepth.trans hdepth1, ?_, ?_⟩
  · unfold insertWindow
    rw [hroom]
    simp only [ok_bind, hwalk, hsplice, orUndefined]
  · intro hne
    obtain ⟨n, hn, hword⟩ := hpath.found hne
    rw [hg.words t1.root mem_cons_self, h1.word_root, nil_append] at hword
    refine ⟨n, ?_, hword⟩
    rw [← hpath.length]
    rw [hl, take_left]
    exact hn
  · intro k hk n hn
    have hn1 := htake k hk n hn
    have hn2 : n ∈ t2.globalLru.take k := (hg.globalLru.take k).subset hn1
    refine ⟨?_, hg.words n (mem_live (mem_of_mem_take hn1))⟩
    rw [add_comm, ← hpath.length]
    exact Recency.mem_take_spliced hn2

/-! ### All suffixes -/

/-- The lengths of the windows together. -/
def windowLengths (maxTrieDepth : Nat) : List Int → Nat
  | [] => 0
  | token :: tokens =>
    ((token :: tokens).take maxTrieDepth).length + windowLengths maxTrieDepth tokens

omit h in
lemma windowLengths_le (maxTrieDepth : Nat) (tokens : List Int) :
    2 * windowLengths maxTrieDepth tokens ≤ tokens.length * (tokens.length + 1) := by
  induction tokens with
  | nil => exact Nat.zero_le _
  | cons token tokens ih =>
    have hlen : ((token :: tokens).take maxTrieDepth).length ≤ tokens.length + 1 := by
      rw [length_take, length_cons]
      exact min_le_right _ _
    rw [windowLengths, length_cons]
    nlinarith

/-- The insertion of a token sequence. -/
structure InsertedAll (t : Trie) (word : NodeId → List Int) (tokens : List Int)
    (t' : Trie) (word' : NodeId → List Int) : Prop where
  valid : Valid t' word'
  capacity : t'.capacity = t.capacity
  maxTrieDepth : t'.maxTrieDepth = t.maxTrieDepth
  keeps : ∀ k, k + windowLengths t.maxTrieDepth tokens < t.capacity →
    ∀ n ∈ t.globalLru.take k, n ∈ t'.live ∧ word' n = word n
  suffix : ∀ k, k ≤ tokens.length → k ≤ t.maxTrieDepth → k * (k + 1) / 2 < t.capacity →
    (t'.find (tokens.drop (tokens.length - k))).isSome

lemma Valid.insert_spec (hcap : t.maxTrieDepth < t.capacity) (tokens : List Int) :
    ∃ t' word', t.insert tokens = .ok t' ∧ InsertedAll t word tokens t' word' := by
  induction tokens generalizing t word with
  | nil =>
    refine ⟨t, word, rfl, h, rfl, rfl, fun k _ n hn => ⟨mem_live (mem_of_mem_take hn), rfl⟩,
      fun k hk _ _ => ?_⟩
    rw [drop_nil]
    rfl
  | cons token tokens ih =>
    have hlen : ((token :: tokens).take t.maxTrieDepth).length ≤ t.maxTrieDepth :=
      length_take_le _ _
    obtain ⟨t1, word1, heq1, hi⟩ := h.insertWindow_spec hlen (hlen.trans_lt hcap)
    obtain ⟨t', word', heq', hi'⟩ := ih hi.valid (by rw [hi.maxTrieDepth, hi.capacity]; exact hcap)
    refine ⟨t', word', by rw [insert, heq1]; exact heq', hi'.valid, hi'.capacity.trans hi.capacity,
      hi'.maxTrieDepth.trans hi.maxTrieDepth, ?_, ?_⟩
    · intro k hk n hn
      rw [windowLengths] at hk
      obtain ⟨hn1, hword1⟩ := hi.keeps k (by omega) n hn
      obtain ⟨hn', hword'⟩ := hi'.keeps _ (by rw [hi.maxTrieDepth, hi.capacity]; omega) n hn1
      exact ⟨hn', hword'.trans hword1⟩
    · intro k hk hdepth hroom
      rw [length_cons] at hk ⊢
      obtain hk | rfl := Nat.lt_or_eq_of_le hk
      · rw [Nat.succ_sub (by omega), drop_succ_cons]
        exact hi'.suffix k (by omega) (by rw [hi.maxTrieDepth]; exact hdepth)
          (by rw [hi.capacity]; exact hroom)
      · -- the window is the whole suffix, and the shorter ones leave it alone
        have htake : (token :: tokens).take t.maxTrieDepth = token :: tokens :=
          take_of_length_le hdepth
        have hshort := windowLengths_le t.maxTrieDepth tokens
        have hroom := (Nat.div_lt_iff_lt_mul (by decide : 0 < 2)).mp hroom
        obtain ⟨n, hn, hword⟩ := hi.found (by rw [htake]; exact cons_ne_nil _ _)
        rw [htake] at hn hword
        have hfit :
            (token :: tokens).length + windowLengths t1.maxTrieDepth tokens < t1.capacity := by
          rw [hi.maxTrieDepth, hi.capacity, length_cons]
          nlinarith
        obtain ⟨hn', hword'⟩ := hi'.keeps _ hfit n hn
        rw [Nat.sub_self, drop_zero, ← hword, ← hword', hi'.valid.find_word hn']
        rfl

/-! ### Fresh tries -/

omit h in
lemma fill_spec (t : Trie) (hpos : 0 < t.capacity) (hnil : t.globalLru = []) :
    ∃ t', t.fill = .ok t' ∧ Valid t' (fun _ => []) ∧ t'.capacity = t.capacity ∧
    t'.maxTrieDepth = t.maxTrieDepth := by
  obtain ⟨free, hfree⟩ := Nat.exists_eq_add_one_of_ne_zero hpos.ne'
  have hget : (List.range (free + 1))[free]? = some free := getElem?_range (Nat.lt_succ_self free)
  refine ⟨{ t with
    nodePool := List.range (free + 1), freeNodeCount := free, root := free
    nodes := update t.nodes free {version := (t.nodes free).version} }, ?_, ?_, rfl, rfl⟩
  · unfold fill getNode
    simp only [hfree, hget, orUndefined, ok_bind]
    rfl
  · have hlive : ∀ n ∈ free :: t.globalLru, n = free := by simp [hnil]
    have hused : ∀ n, n ∉ t.globalLru := by simp [hnil]
    refine ⟨by simp [hfree], ?_, ?_, ?_, ?_, ?_, ?_, rfl, ?_, ?_⟩
    · simp [live, hnil, hfree, range_succ]
    · intro p hp token n hn
      obtain rfl := hlive p hp
      simp only [update_self] at hn
      cases hn
    · exact fun n hn => absurd hn (hused n)
    · exact fun n hn => absurd hn (hused n)
    · intro p hp
      obtain rfl := hlive p hp
      simp [update_self, hused]
    · intro p hp
      obtain rfl := hlive p hp
      simp [update_self, hused]
    · exact fun n hn => absurd hn (hused n)
    · exact fun n hn => absurd hn (hused n)

/-! ### Histories -/

/-- What is said of the trie alone, in terms of what can be reached from its root. -/
structure Integrity (t : Trie) (capacity maxTrieDepth : Nat) : Prop where
  count : {n | t.Reachable n}.ncard + t.freeNodeCount = capacity
  globalLru : t.globalLru.Nodup ∧ ∀ n, n ∈ t.globalLru ↔ t.Reachable n ∧ n ≠ t.root
  order : ∀ p token n, t.Reachable p → p ≠ t.root → (t.nodes p).child.get? token = some n →
    t.globalLru.idxOf p < t.globalLru.idxOf n
  children : ∀ p, t.Reachable p → ((t.nodes p).child.items.map (·.2)).Nodup ∧
    (t.nodes p).lru.Perm ((t.nodes p).child.items.map (·.2)) ∧
    (t.nodes p).sortedChildren.Perm ((t.nodes p).child.items.map (·.2))
  sorted : ∀ p, t.Reachable p → (t.nodes p).sortedChildren.Pairwise (CompareByFreq t.nodes)
  depth : ∀ tokens, (t.find tokens).isSome → tokens.length ≤ maxTrieDepth

lemma Valid.ncard_reachable : {n | t.Reachable n}.ncard = t.globalLru.length + 1 := by
  have hset : {n | t.Reachable n} = (t.live.toFinset : Set NodeId) := by
    ext n
    rw [Set.mem_ofPred_eq, h.reachable_iff, Finset.mem_coe, mem_toFinset]
  rw [hset, Set.ncard_coe_finset, toFinset_card_of_nodup h.nodup_live]
  rfl

lemma Valid.mem_children {p n : NodeId} (hp : p ∈ t.live) :
    n ∈ (t.nodes p).child.items.map (·.2) ↔ n ∈ t.globalLru ∧ (t.nodes n).parent = p := by
  rw [OrderedDict.mem_map_snd_iff]
  constructor
  · rintro ⟨token, hn⟩
    obtain ⟨hn, hparent, _⟩ := h.child p hp token n hn
    exact ⟨hn, hparent⟩
  · rintro ⟨hn, rfl⟩
    exact ⟨_, (h.linked n hn).2⟩

lemma Valid.integrity : Integrity t t.capacity t.maxTrieDepth := by
  refine ⟨?_, ⟨h.nodup_globalLru, fun n => ?_⟩, ?_, ?_, ?_, ?_⟩
  · rw [h.ncard_reachable, ← h.count]
    omega
  · rw [h.reachable_iff, live, mem_cons]
    constructor
    · exact fun hn => ⟨.inr hn, fun heq => h.root_not_mem (heq ▸ hn)⟩
    · rintro ⟨hn | hn, hne⟩
      · exact absurd hn hne
      · exact hn
  · intro p token n hp hroot hn
    obtain ⟨hn, hparent, _⟩ := h.child p (h.reachable_iff.mp hp) token n hn
    have hsub := (h.order n hn).resolve_left (hparent ▸ hroot)
    exact Recency.idxOf_lt_of_pair h.nodup_globalLru (hparent ▸ hsub)
  · intro p hp
    have hp := h.reachable_iff.mp hp
    have hnd : ((t.nodes p).child.items.map (·.2)).Nodup := by
      refine OrderedDict.nodup_map_snd fun k k' n hk hk' => ?_
      exact (h.child p hp k n hk).2.2.symm.trans (h.child p hp k' n hk').2.2
    obtain ⟨hlru, hmem⟩ := h.lru p hp
    obtain ⟨hsorted, hmem'⟩ := h.sorted p hp
    have hsortnd : (t.nodes p).sortedChildren.Nodup := hsorted.imp fun hab heq => by
      rw [compareByFreq_iff, heq] at hab
      exact lt_irrefl _ hab
    refine ⟨hnd, (perm_ext_iff_of_nodup hlru hnd).mpr fun n => ?_,
      (perm_ext_iff_of_nodup hsortnd hnd).mpr fun n => ?_⟩
    · rw [hmem, h.mem_children hp]
    · rw [hmem', h.mem_children hp]
  · exact fun p hp => (h.sorted p (h.reachable_iff.mp hp)).1
  · intro tokens hsome
    obtain ⟨n, hn⟩ := Option.isSome_iff_exists.mp hsome
    obtain ⟨hlive, rfl⟩ := h.word_of_find hn
    obtain rfl | hlive := mem_cons.mp hlive
    · rw [h.word_root]
      exact Nat.zero_le _
    · exact h.depth n hlive

/-- At most the nodes in use other than the root are released. -/
def Allowed (t : Trie) : Op → Prop
  | .squeeze count => count + 1 ≤ {n | t.Reachable n}.ncard
  | _ => True

/-- The calls since the trie was created. -/
inductive History (capacity maxTrieDepth : Nat) : List Op → Trie → Prop
  | nil {t : Trie} : create capacity maxTrieDepth = .ok t → History capacity maxTrieDepth [] t
  | snoc {ops : List Op} {t t' : Trie} {op : Op} :
      History capacity maxTrieDepth ops t → Allowed t op → t.step op = .ok t' →
    History capacity maxTrieDepth (ops ++ [op]) t'

/-- One call: it returns, keeps the invariant, and an insertion leaves the suffixes there is room
for. -/
lemma Valid.step_spec (hcap : t.maxTrieDepth < t.capacity) {op : Op} (ha : Allowed t op) :
    ∃ t' word', t.step op = .ok t' ∧ Valid t' word' ∧ t'.capacity = t.capacity ∧
    t'.maxTrieDepth = t.maxTrieDepth ∧
      ∀ tokens, op = .insert tokens → ∀ k, k ≤ tokens.length → k ≤ t.maxTrieDepth →
      k * (k + 1) / 2 < t.capacity →
        (t'.find (tokens.drop (tokens.length - k))).isSome := by
  cases op with
  | insert tokens =>
    obtain ⟨t', word', heq, hi⟩ := h.insert_spec hcap tokens
    refine ⟨t', word', heq, hi.valid, hi.capacity, hi.maxTrieDepth, fun tokens' htokens => ?_⟩
    obtain rfl := Op.insert.inj htokens
    exact hi.suffix
  | squeeze count =>
    have hcount : count + 1 ≤ {n | t.Reachable n}.ncard := ha
    rw [h.ncard_reachable] at hcount
    obtain ⟨t', heq, h', _, _, _, hcap', hdepth'⟩ := h.squeeze_spec (Nat.le_of_succ_le_succ hcount)
    exact ⟨t', word, heq, h', hcap', hdepth', nofun⟩
  | reset =>
    obtain ⟨t', heq, h', hcap', hdepth'⟩ :=
      fill_spec {t with trieEpoch := t.trieEpoch + 1, globalLru := [], path := []}
        (by show 0 < t.capacity; omega) rfl
    exact ⟨t', _, heq, h', hcap', hdepth', nofun⟩

end

variable {capacity maxTrieDepth : Nat}

lemma create_spec (hcap : maxTrieDepth < capacity) :
    ∃ t, create capacity maxTrieDepth = .ok t ∧ Valid t (fun _ => []) ∧
    t.capacity = capacity ∧ t.maxTrieDepth = maxTrieDepth :=
  fill_spec {capacity, maxTrieDepth, nodePool := [], freeNodeCount := 0}
    (by show 0 < capacity; omega) rfl

lemma History.valid (hcap : maxTrieDepth < capacity) {ops : List Op}
    (hrun : History capacity maxTrieDepth ops t) :
    (∃ word, Valid t word) ∧ t.capacity = capacity ∧ t.maxTrieDepth = maxTrieDepth := by
  induction hrun with
  | nil heq =>
    obtain ⟨t, heq', h, hcap', hdepth'⟩ := create_spec hcap
    cases heq.symm.trans heq'
    exact ⟨⟨_, h⟩, hcap', hdepth'⟩
  | snoc _ ha heq ih =>
    obtain ⟨⟨word, h⟩, hcap', hdepth'⟩ := ih
    obtain ⟨t', word', heq', h', hcap'', hdepth'', _⟩ :=
      h.step_spec (by rw [hcap', hdepth']; exact hcap) ha
    cases heq.symm.trans heq'
    exact ⟨⟨word', h'⟩, hcap''.trans hcap', hdepth''.trans hdepth'⟩

/-- **The n-gram trie keeps its integrity.** Over every history the trie is intact and every further
call returns and leaves it so; right after an insertion every suffix of at most `max_trie_depth`
tokens is there if the pool has room for it and the shorter ones. -/
theorem trie_integrity {capacity maxTrieDepth : Nat} (hcap : maxTrieDepth < capacity)
    {ops : List Op} {t : Trie} (hrun : History capacity maxTrieDepth ops t) :
    Integrity t capacity maxTrieDepth ∧ ∀ op, Allowed t op → ∃ t', t.step op = .ok t' ∧
    Integrity t' capacity maxTrieDepth ∧
      ∀ tokens, op = .insert tokens → ∀ k, k ≤ tokens.length → k ≤ maxTrieDepth →
      k * (k + 1) / 2 < capacity →
        (t'.find (tokens.drop (tokens.length - k))).isSome := by
  obtain ⟨⟨word, h⟩, rfl, rfl⟩ := hrun.valid hcap
  refine ⟨h.integrity, fun op ha => ?_⟩
  obtain ⟨t', word', heq, h', hcap', hdepth', hsuffix⟩ := h.step_spec hcap ha
  exact ⟨t', heq, hcap' ▸ hdepth' ▸ h'.integrity, hsuffix⟩

/-- Three tokens in a pool of four nodes: the last two are there afterwards. -/
theorem trie_integrity_squeezed :
    ∃ t t', History 4 2 [] t ∧ t.step (.insert [1, 2, 3]) = .ok t' ∧ Integrity t' 4 2 ∧
    (t'.find [2, 3]).isSome := by
  obtain ⟨t, heq, _⟩ := @create_spec 4 2 (by decide)
  obtain ⟨_, hstep⟩ := @trie_integrity 4 2 (by decide) [] t (.nil heq)
  obtain ⟨t', heq', hint, hsuffix⟩ := hstep (.insert [1, 2, 3]) trivial
  exact ⟨t, t', .nil heq, heq', hint, hsuffix [1, 2, 3] rfl 2 (by decide) (by decide) (by decide)⟩

lemma eq_ok_of_toOption {e : Except TrieError Trie} (h : e.toOption = some t) : e = .ok t := by
  cases e with
  | error => cases h
  | ok => exact congrArg Except.ok (Option.some.inj h)

/-- In a pool of three nodes the insertion of the second token alone takes the node the two together
need. -/
theorem short_suffix_evicts_long :
    ∃ t t', History 3 2 [] t ∧ t.step (.insert [1, 2]) = .ok t' ∧ t'.find [1, 2] = none := by
  have hrun :
      ((create 3 2).toOption.bind fun t => (t.step (.insert [1, 2])).toOption.map
      fun t' => t'.find [1, 2]) = some none := by
    decide +kernel
  obtain ⟨t, ht, hstep⟩ := Option.bind_eq_some_iff.mp hrun
  obtain ⟨t', ht', hfind⟩ := Option.map_eq_some_iff.mp hstep
  exact ⟨t, t', .nil (eq_ok_of_toOption ht), eq_ok_of_toOption ht', hfind⟩

end Trie

end Sglang.Ngram
