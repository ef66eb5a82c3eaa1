import Sglang.Lib.Runs
import Sglang.MemCache.HiRadixCache
import Sglang.MemCache.RadixTree

/-! Namespaces of the hierarchical cache.

In the tree a lookup stays in the namespace of its key, and so does what `load_back` brings to the
device. The storage knows no namespaces: its pages are addressed by their tokens alone, and what is
fetched for a request is inserted under the key of the node it hangs on, which for the root is that
of no namespace. The tiers are isolated in the runs in which neither matters: of the namespaces that
share a first page only one (`owner`) uses the storage for it, and pages arrive at the root only for
a request without an extra key. On the device and on the host the namespaces may share what they
like. -/
namespace Sglang.MemCache

open List Option Function
open Prefix RadixKey

def ChildKey.extraKey : ChildKey → Option String
  | plain _ => none
  | salted extraKey _ => some extraKey

variable {pageSize : Nat}

namespace RadixKey

lemma extraKey_childKey (k : RadixKey) (pageSize : Nat) :
    (k.childKey pageSize).extraKey = k.extraKey := by
  unfold childKey
  cases k.extraKey <;> rfl

lemma extraKey_since (k : RadixKey) (n : Nat) : (k.since n).extraKey = k.extraKey :=
  congrArg Prod.fst (k.ns_since n)

lemma extraKey_upto (k : RadixKey) (n : Nat) : (k.upto n).extraKey = k.extraKey :=
  congrArg Prod.fst (k.ns_upto n)

/-- Two keys with the same dictionary key share at least a page. -/
lemma match_of_childKey {k other : RadixKey} (hp : 0 < pageSize) (hk : pageSize ∣ k.len)
    (ho : pageSize ∣ other.len) (hkpos : 0 < k.len) (hopos : 0 < other.len)
    (hchild : k.childKey pageSize = other.childKey pageSize) :
    ∃ n, k.match other pageSize = some n ∧ pageSize ∣ n ∧ 0 < n ∧ n ≤ k.len ∧ n ≤ other.len := by
  have hkpage := Nat.le_of_dvd hkpos hk
  have hopage := Nat.le_of_dvd hopos ho
  obtain ⟨hns, hfirst⟩ := (childKey_eq_iff k other pageSize hp hkpage hopage).mp hchild
  have hcommon : pageSize ≤ common k.iter other.iter :=
    le_common_of_take_eq _ _ _ (by rwa [length_iter]) (by rwa [length_iter]) hfirst
  have hle := le_trans (floor_le pageSize _) (common_le_left k.iter other.iter)
  have hle' := le_trans (floor_le pageSize _) (common_le_right k.iter other.iter)
  rw [length_iter] at hle hle'
  exact ⟨_, match_eq k other pageSize hp hns hk ho, dvd_floor _ _,
    lt_of_lt_of_le hp (le_floor (dvd_refl _) hcommon), hle, hle'⟩

variable {k : RadixKey}

/-- The first page tells the upper part of a key as it tells the key. -/
lemma childKey_upto {n : Nat} (hp : 0 < pageSize) (hn : pageSize ≤ n) (hk : n ≤ k.len) :
    (k.upto n).childKey pageSize = k.childKey pageSize := by
  refine (childKey_eq_iff _ _ pageSize hp ?_ (le_trans hn hk)).mpr ⟨ns_upto k n, ?_⟩
  · rw [len_upto]
    omega
  · rw [iter_upto, take_take, min_eq_left hn]

lemma len_of_view (h : k.isBigram = false) : k.len = k.tokenIds.length := by rw [len, h]; rfl

end RadixKey

namespace Hierarchical

/-- The chain of the hash starts with a page of the namespace. -/
def Owned (owner : List TokenId → Option String) (e : Option String) (h : Hash) : Prop :=
  h.head?.map owner = some e

variable {owner : List TokenId → Option String} {e : Option String} {c c' : HiRadixCache}

lemma Owned.unique {e e' : Option String} {h : Hash} (h1 : Owned owner e h)
    (h2 : Owned owner e' h) : e = e' :=
  some.inj (h1.symm.trans h2)

/-! ### The invariant -/

/-- The entries of a node were computed for its namespace. -/
structure NodeOk (x : TreeNode) : Prop where
  value : ∀ v ∈ x.value, ∀ kv ∈ v, kv.computedFor = x.key.extraKey
  host : ∀ v ∈ x.hostValue, ∀ kv ∈ v, kv.computedFor = x.key.extraKey
  view : x.key.isBigram = false

/-- A node below the root: its key has whole pages. -/
structure Filled (pageSize : Nat) (x : TreeNode) : Prop where
  dvd : pageSize ∣ x.key.len
  pos : 0 < x.key.len

/-- A place for a namespace: a node of it, or the root. -/
def At (c : HiRadixCache) (e : Option String) (n : NodeId) : Prop :=
  n < c.counter ∧ (n = c.rootNode ∨ (c.nodes n).key.extraKey = e)

/-- A prefetch: what has arrived is of the namespace of the request that asked for it, and will be
inserted in it. -/
structure PrefetchOk (pageSize counter : Nat) (rootNode : NodeId) (nodes : NodeId → TreeNode)
    (op : PrefetchOperation) (e : Option String) : Prop where
  place : op.lastHostNode < counter ∧
    (op.lastHostNode = rootNode ∨ (nodes op.lastHostNode).key.extraKey = e)
  dvd : pageSize ∣ op.tokenIds.length
  arrived : op.completedPages ≠ 0 → (nodes op.lastHostNode).key.extraKey = e
  fetched : ∀ kv ∈ op.fetched, kv.computedFor = e

/-- A page in the storage is of the namespace that owns its hash. -/
def StorageOk (owner : List TokenId → Option String) (storage : Hash → Option (List Kv)) : Prop :=
  ∀ h page, storage h = some page → ∃ e, Owned owner e h ∧ ∀ kv ∈ page, kv.computedFor = e

/-- The root is never evicted. -/
structure RootOk (x : TreeNode) : Prop where
  key : x.key = { tokenIds := [] }
  value : x.value = some []
  parent : x.parent = none

structure Inv (owner : List TokenId → Option String) (c : HiRadixCache) : Prop where
  pageSize : 0 < c.pageSize
  root : c.rootNode < c.counter
  rootOk : RootOk (c.nodes c.rootNode)
  node : ∀ n < c.counter, NodeOk (c.nodes n)
  filled : ∀ n < c.counter, n ≠ c.rootNode → Filled c.pageSize (c.nodes n)
  child : ∀ n < c.counter, ∀ ck m, (c.nodes n).children.lookup ck = some m →
    m < c.counter ∧ m ≠ c.rootNode ∧ (c.nodes m).key.childKey c.pageSize = ck ∧
    (c.nodes m).parent = some n
  parent : ∀ n < c.counter, ∀ p, (c.nodes n).parent = some p →
    p < c.counter ∧ (p = c.rootNode ∨ (c.nodes p).key.extraKey = (c.nodes n).key.extraKey)
  req : ∀ req ∈ c.reqs, (∀ kv ∈ req.row, kv.computedFor = req.extraKey) ∧
    At c req.extraKey req.lastHostNode
  prefetch : ∀ op ∈ c.ongoingPrefetch, ∃ req, c.reqs[op.req]? = some req ∧
    PrefetchOk c.pageSize c.counter c.rootNode c.nodes op req.extraKey
  storage : StorageOk owner c.storage
  backup : ∀ op ∈ c.ongoingBackup, ∀ h ∈ op.hashValue, ∃ e, Owned owner e h ∧
    ∀ kv ∈ op.content, kv.computedFor = e

/-- What the tree operations leave alone: everything but the nodes, and the namespaces of these. -/
structure Same (c c' : HiRadixCache) : Prop where
  pageSize : c'.pageSize = c.pageSize
  rootNode : c'.rootNode = c.rootNode
  reqs : c'.reqs = c.reqs
  ongoingPrefetch : c'.ongoingPrefetch = c.ongoingPrefetch
  storage : c'.storage = c.storage
  ongoingBackup : c'.ongoingBackup = c.ongoingBackup
  counter : c.counter ≤ c'.counter
  extraKey : ∀ n < c.counter, (c'.nodes n).key.extraKey = (c.nodes n).key.extraKey

lemma Same.refl (c : HiRadixCache) : Same c c :=
  ⟨rfl, rfl, rfl, rfl, rfl, rfl, le_refl _, fun _ _ => rfl⟩

lemma Same.trans {c1 c2 c3 : HiRadixCache} (h : Same c1 c2) (h' : Same c2 c3) : Same c1 c3 where
  pageSize := h'.pageSize.trans h.pageSize
  rootNode := h'.rootNode.trans h.rootNode
  reqs := h'.reqs.trans h.reqs
  ongoingPrefetch := h'.ongoingPrefetch.trans h.ongoingPrefetch
  storage := h'.storage.trans h.storage
  ongoingBackup := h'.ongoingBackup.trans h.ongoingBackup
  counter := le_trans h.counter h'.counter
  extraKey n hn := (h'.extraKey n (lt_of_lt_of_le hn h.counter)).trans (h.extraKey n hn)

section Tree

lemma At.of_same {n : NodeId} (h : At c e n) (hsame : Same c c') : At c' e n := by
  refine ⟨lt_of_lt_of_le h.1 hsame.counter, ?_⟩
  rw [hsame.rootNode, hsame.extraKey n h.1]
  exact h.2

lemma PrefetchOk.of_same {op : PrefetchOperation}
    (h : PrefetchOk c.pageSize c.counter c.rootNode c.nodes op e) (hsame : Same c c') :
    PrefetchOk c'.pageSize c'.counter c'.rootNode c'.nodes op e where
  place := At.of_same h.place hsame
  dvd := hsame.pageSize ▸ h.dvd
  arrived hne := (hsame.extraKey _ h.place.1).trans (h.arrived hne)
  fetched := h.fetched

lemma Inv.of_same (h : Inv owner c) (hsame : Same c c')
    (hroot : RootOk (c'.nodes c.rootNode)) (hnode : ∀ n < c'.counter, NodeOk (c'.nodes n))
    (hfilled : ∀ n < c'.counter, n ≠ c.rootNode → Filled c.pageSize (c'.nodes n))
    (hchild : ∀ n < c'.counter, ∀ ck m, (c'.nodes n).children.lookup ck = some m →
      m < c'.counter ∧ m ≠ c.rootNode ∧ (c'.nodes m).key.childKey c.pageSize = ck ∧
      (c'.nodes m).parent = some n) (hparent : ∀ n < c'.counter, ∀ p, (c'.nodes n).parent = some p →
      p < c'.counter ∧ (p = c.rootNode ∨ (c'.nodes p).key.extraKey = (c'.nodes n).key.extraKey)) :
      Inv owner c' where
  pageSize := hsame.pageSize ▸ h.pageSize
  root := hsame.rootNode ▸ lt_of_lt_of_le h.root hsame.counter
  rootOk := hsame.rootNode ▸ hroot
  node := hnode
  filled := by
    rw [hsame.pageSize, hsame.rootNode]
    exact hfilled
  child := by
    rw [hsame.pageSize, hsame.rootNode]
    exact hchild
  parent := by
    rw [hsame.rootNode]
    exact hparent
  req req hreq := by
    rw [hsame.reqs] at hreq
    exact ⟨(h.req req hreq).1, (h.req req hreq).2.of_same hsame⟩
  prefetch op hop := by
    rw [hsame.ongoingPrefetch] at hop
    obtain ⟨req, hreq, hok⟩ := h.prefetch op hop
    exact ⟨req, hsame.reqs ▸ hreq, hok.of_same hsame⟩
  storage := hsame.storage ▸ h.storage
  backup := hsame.ongoingBackup ▸ h.backup

variable {x : TreeNode}

lemma NodeOk.upper (h : NodeOk x) (n pages : Nat)
    (children : AList fun _ : ChildKey => NodeId) : NodeOk (x.upper n pages children) where
  value v hv kv hkv := by
    obtain ⟨w, hw, rfl⟩ := map_eq_some_iff.mp hv
    exact (h.value w hw kv (mem_of_mem_take hkv)).trans (x.key.extraKey_upto n).symm
  host v hv kv hkv := by
    obtain ⟨w, hw, rfl⟩ := map_eq_some_iff.mp hv
    exact (h.host w hw kv (mem_of_mem_take hkv)).trans (x.key.extraKey_upto n).symm
  view := (congrArg Prod.snd (x.key.ns_upto n)).trans h.view

lemma NodeOk.lower (h : NodeOk x) (n pages : Nat) (newNode : NodeId) :
    NodeOk (x.lower n pages newNode) where
  value v hv kv hkv := by
    obtain ⟨w, hw, rfl⟩ := map_eq_some_iff.mp hv
    exact (h.value w hw kv (mem_of_mem_drop hkv)).trans (x.key.extraKey_since n).symm
  host v hv kv hkv := by
    obtain ⟨w, hw, rfl⟩ := map_eq_some_iff.mp hv
    exact (h.host w hw kv (mem_of_mem_drop hkv)).trans (x.key.extraKey_since n).symm
  view := (congrArg Prod.snd (x.key.ns_since n)).trans h.view

section Split
variable {n : Nat}

lemma Filled.upper (hpos : 0 < n) (hlt : n < x.key.len) (hdvd : pageSize ∣ n) (pages : Nat)
    (children : AList fun _ : ChildKey => NodeId) : Filled pageSize (x.upper n pages children) := by
  have hlen : (x.key.upto n).len = n := by
    rw [len_upto]
    omega
  exact ⟨hlen.symm ▸ hdvd, hlen.symm ▸ hpos⟩

lemma Filled.lower (h : Filled pageSize x) (hlt : n < x.key.len) (hdvd : pageSize ∣ n)
    (pages : Nat) (newNode : NodeId) :
    Filled pageSize (x.lower n pages newNode) := by
  have hlen : (x.key.since n).len = x.key.len - n := len_since _ _
  refine ⟨hlen.symm ▸ Nat.dvd_sub h.dvd hdvd, ?_⟩
  show 0 < (x.key.since n).len
  omega

end Split

section
variable (h : Inv owner c)
include h

/-- A node linked below `p`: what holds of the nodes before the link holds after it. -/
lemma Inv.of_link (hsame : Same c c') {p : NodeId} {ck : ChildKey} {base : NodeId → TreeNode}
    (hnodes : ∀ n, c'.nodes n = if n = p then
    { base n with children := (base n).children.insert ck c.counter } else base n)
    (hroot : base c.rootNode = c.nodes c.rootNode) (hnode : ∀ n < c'.counter, NodeOk (base n))
    (hfilled : ∀ n < c'.counter, n ≠ c.rootNode → Filled c.pageSize (base n))
      (hnew : c.counter < c'.counter)
    (hck : (base c.counter).key.childKey c.pageSize = ck) (hp : (base c.counter).parent = some p)
    (hchild : ∀ n < c'.counter, ∀ ck' m, (n = p → ck' ≠ ck) →
      (base n).children.lookup ck' = some m →
      m < c'.counter ∧ m ≠ c.rootNode ∧ (base m).key.childKey c.pageSize = ck' ∧
      (base m).parent = some n)
    (hparent : ∀ n < c'.counter, ∀ q, (base n).parent = some q →
      q < c'.counter ∧ (q = c.rootNode ∨ (base q).key.extraKey = (base n).key.extraKey)) :
      Inv owner c' := by
  have hkey (n : Nat) : (c'.nodes n).key = (base n).key := by
    rw [hnodes]
    split <;> rfl
  have hparentEq (n : Nat) : (c'.nodes n).parent = (base n).parent := by
    rw [hnodes]
    split <;> rfl
  refine h.of_same hsame ?_ ?_ ?_ ?_ ?_
  · rw [hnodes, hroot]
    split
    · exact { h.rootOk with }
    · exact h.rootOk
  · intro n hn
    rw [hnodes]
    split
    · exact { hnode n hn with }
    · exact hnode n hn
  · intro n hn hne
    rw [hnodes]
    split
    · exact { hfilled n hn hne with }
    · exact hfilled n hn hne
  · intro n hn ck' m hlookup
    rw [hkey, hparentEq]
    rw [hnodes] at hlookup
    split at hlookup
    · next hnp =>
      replace hlookup : ((base n).children.insert ck c.counter).lookup ck' = some m := hlookup
      rw [lookup_insert_ite] at hlookup
      split at hlookup
      · next heq =>
        cases hlookup
        exact ⟨hnew, ne_of_gt h.root, hck.trans heq.symm, hnp ▸ hp⟩
      · next hne => exact hchild n hn ck' m (fun _ => hne) hlookup
    · next hnp => exact hchild n hn ck' m (fun heq => absurd heq hnp) hlookup
  · intro n hn q hq
    rw [hkey, hkey]
    exact hparent n hn q (hparentEq n ▸ hq)

lemma Inv.splitNode {child splitLen : Nat} (hchild : child < c.counter) (hroot : child ≠ c.rootNode)
    (hpos : 0 < splitLen) (hlt : splitLen < (c.nodes child).key.len) (hdvd : c.pageSize ∣ splitLen)
    {newNode : NodeId} (hsplit : c.splitNode child splitLen = some (c', newNode)) :
    Inv owner c' ∧ Same c c' ∧ newNode < c'.counter ∧ newNode ≠ c.rootNode ∧
      (c'.nodes newNode).key.extraKey = (c.nodes child).key.extraKey := by
  obtain ⟨p, hp, heq⟩ := map_eq_some_iff.mp hsplit
  obtain ⟨hc', rfl⟩ := Prod.mk.inj heq
  obtain ⟨hplt, hpkey⟩ := h.parent child hchild p hp
  have hok := h.node child hchild
  have hfull := h.filled child hchild hroot
  have hpage := Nat.le_of_dvd hpos hdvd
  let x := c.nodes child
  let children : AList fun _ : ChildKey => NodeId :=
    AList.singleton ((x.key.since splitLen).childKey c.pageSize) child
  let upper := x.upper splitLen (splitLen / c.pageSize) children
  let lower := x.lower splitLen (splitLen / c.pageSize) c.counter
  let base (n : Nat) : TreeNode :=
    if n = child then lower else if n = c.counter then upper else c.nodes n
  let ck := x.key.childKey c.pageSize
  have hchildNe : child ≠ c.counter := ne_of_lt hchild
  have hnodes (n : Nat) : c'.nodes n =
      if n = p then { base n with children := (base n).children.insert ck c.counter }
      else base n := by
    rw [← hc']
    simp only [base, HiRadixCache.modifyNode, HiRadixCache.addNode, update_apply]
    by_cases hn : n = p
    · subst hn
      simp [ck, lower, upper, children, x]
    · simp [hn, lower, upper, children, x]
  have hupper : base c.counter = upper := by simp [base, hchildNe.symm]
  have hlower : base child = lower := by simp [base]
  have hold {n : Nat} (hn : n ≠ child) (hc : n ≠ c.counter) : base n = c.nodes n := by
    simp [base, hn, hc]
  have hcounter : c'.counter = c.counter + 1 := by
    rw [← hc']
    rfl
  have hmono {n : Nat} (hn : n < c.counter) : n < c'.counter := hcounter ▸ Nat.lt_succ_of_lt hn
  have hnewLt : c.counter < c'.counter := hcounter ▸ Nat.lt_succ_self _
  have hextra {n : Nat} (hn : n < c.counter) :
      (base n).key.extraKey = (c.nodes n).key.extraKey := by
    by_cases hc : n = child
    · rw [hc, hlower]
      exact x.key.extraKey_since splitLen
    · rw [hold hc (ne_of_lt hn)]
  have hnew : (base c.counter).key.extraKey = x.key.extraKey := by
    rw [hupper]
    exact x.key.extraKey_upto splitLen
  have hkey (n : Nat) : (c'.nodes n).key = (base n).key := by
    rw [hnodes]
    split <;> rfl
  have hsame : Same c c' := by
    have hkeys : ∀ n < c.counter, (c'.nodes n).key.extraKey = (c.nodes n).key.extraKey :=
      fun n hn => hkey n ▸ hextra hn
    rw [← hc'] at hkeys hcounter ⊢
    exact ⟨rfl, rfl, rfl, rfl, rfl, rfl, hcounter ▸ Nat.le_succ _, hkeys⟩
  have hnodeBase (n : Nat) (hn : n < c'.counter) : NodeOk (base n) := by
    by_cases hc : n = child
    · rw [hc, hlower]
      exact hok.lower _ _ _
    · by_cases hnc : n = c.counter
      · rw [hnc, hupper]
        exact hok.upper _ _ _
      · rw [hold hc hnc]
        exact h.node n (by omega)
  have hfilledBase (n : Nat) (hn : n < c'.counter) (hne : n ≠ c.rootNode) :
      Filled c.pageSize (base n) := by
    by_cases hc : n = child
    · rw [hc, hlower]
      exact hfull.lower hlt hdvd _ _
    · by_cases hnc : n = c.counter
      · rw [hnc, hupper]
        exact .upper hpos hlt hdvd _ _
      · rw [hold hc hnc]
        exact h.filled n (by omega) hne
  have hrootNe : c.rootNode ≠ c.counter := ne_of_lt h.root
  have hinv : Inv owner c' := by
    refine h.of_link hsame hnodes (hold hroot.symm hrootNe) hnodeBase hfilledBase hnewLt ?_
      (hupper ▸ hp) ?_ ?_
    · rw [hupper]
      exact childKey_upto h.pageSize hpage (le_of_lt hlt)
    · intro n hn ck' m hck hlookup
      by_cases hnc : n = c.counter
      · subst hnc
        rw [hupper] at hlookup
        replace hlookup : children.lookup ck' = some m := hlookup
        rw [lookup_singleton_ite, ite_none_right_eq_some] at hlookup
        obtain ⟨rfl, hm⟩ := hlookup
        cases hm
        rw [hlower]
        exact ⟨hmono hchild, hroot, rfl, rfl⟩
      have hchildren : (base n).children = (c.nodes n).children := by
        by_cases hc : n = child
        · rw [hc, hlower]
          rfl
        · rw [hold hc hnc]
      rw [hchildren] at hlookup
      obtain ⟨hm, hmr, hmk, hmp⟩ := h.child n (by omega) ck' m hlookup
      -- the child itself is linked below its parent under the key of the new node
      have hne : m ≠ child := by
        rintro rfl
        exact hck (some.inj (hmp.symm.trans hp)) hmk.symm
      rw [hold hne (ne_of_lt hm)]
      exact ⟨hmono hm, hmr, hmk, hmp⟩
    · intro n hn q hq
      by_cases hc : n = child
      · subst hc
        rw [hlower] at hq
        cases hq
        exact ⟨hnewLt, .inr (hnew.trans (hextra hchild).symm)⟩
      · by_cases hnc : n = c.counter
        · subst hnc
          rw [hupper] at hq
          cases hp.symm.trans hq
          refine ⟨hmono hplt, hpkey.imp id fun hpk => ?_⟩
          rw [hextra hplt, hpk, hnew]
        · rw [hold hc hnc] at hq
          have hlt' : n < c.counter := by omega
          obtain ⟨hql, hqk⟩ := h.parent n hlt' q hq
          refine ⟨hmono hql, hqk.imp id fun hqk => ?_⟩
          rw [hextra hql, hqk, hextra hlt']
  exact ⟨hinv, hsame, hnewLt, hrootNe.symm, (congrArg extraKey (hkey _)).trans hnew⟩

/-- The nodes differ in their entries only, apart from children taken out. -/
structure SamePlace (x y : TreeNode) : Prop where
  children : ∀ ck m, y.children.lookup ck = some m → x.children.lookup ck = some m
  parent : y.parent = x.parent
  key : y.key = x.key

lemma Inv.modifyNode (n : NodeId) {f : TreeNode → TreeNode} (hplace : ∀ x, SamePlace x (f x))
    (hroot : n = c.rootNode → (f (c.nodes n)).value = (c.nodes n).value)
    (hok : n < c.counter → NodeOk (f (c.nodes n))) :
    Inv owner (c.modifyNode n f) ∧ Same c (c.modifyNode n f) := by
  have hnodes (m : Nat) : (c.modifyNode n f).nodes m = c.nodes m ∨ m = n ∧
      (c.modifyNode n f).nodes m = f (c.nodes m) := by
    by_cases hm : m = n
    · subst hm
      exact .inr ⟨rfl, update_self _ _ _⟩
    · exact .inl (update_of_ne hm _ _)
  have hplace' (m : Nat) : SamePlace (c.nodes m) ((c.modifyNode n f).nodes m) := by
    obtain hm | ⟨-, hm⟩ := hnodes m <;> rw [hm]
    · exact ⟨fun _ _ h => h, rfl, rfl⟩
    · exact hplace _
  have hsame : Same c (c.modifyNode n f) :=
    ⟨rfl, rfl, rfl, rfl, rfl, rfl, le_refl _, fun m _ => congrArg extraKey (hplace' m).key⟩
  refine ⟨h.of_same hsame ⟨?_, ?_, ?_⟩ ?_ ?_ ?_ ?_, hsame⟩
  · exact (hplace' _).key.trans h.rootOk.key
  · obtain heq | ⟨hm, heq⟩ := hnodes c.rootNode <;> rw [heq]
    · exact h.rootOk.value
    · subst hm
      exact (hroot rfl).trans h.rootOk.value
  · exact (hplace' _).parent.trans h.rootOk.parent
  · intro m hm
    obtain heq | ⟨rfl, heq⟩ := hnodes m <;> rw [heq]
    · exact h.node m hm
    · exact hok hm
  · intro m hm hne
    have hfull := h.filled m hm hne
    exact ⟨(hplace' m).key ▸ hfull.dvd, (hplace' m).key ▸ hfull.pos⟩
  · intro m hm ck q hq
    rw [(hplace' q).key, (hplace' q).parent]
    exact h.child m hm ck q ((hplace' m).children ck q hq)
  · intro m hm q hq
    rw [(hplace' m).parent] at hq
    rw [(hplace' q).key, (hplace' m).key]
    exact h.parent m hm q hq

variable {n : NodeId}

lemma Inv.refill (value : List Kv) (hn : n < c.counter) (hne : n ≠ c.rootNode)
    (hvalue : ∀ kv ∈ value, kv.computedFor = (c.nodes n).key.extraKey) :
    Inv owner (c.modifyNode n (·.refill value)) ∧ Same c (c.modifyNode n (·.refill value)) := by
  refine h.modifyNode n (fun x => ?_) (fun hroot => absurd hroot hne) fun _ => ?_
  · unfold TreeNode.refill
    split <;> exact ⟨fun _ _ h => h, rfl, rfl⟩
  · have hok := h.node n hn
    unfold TreeNode.refill
    split
    · exact ⟨fun v hv kv hkv => hvalue kv (some.inj hv ▸ hkv), hok.host, hok.view⟩
    · exact hok

/-- What the loops ask of the rest of a key. -/
structure KeyOk (pageSize : Nat) (key : RadixKey) : Prop where
  dvd : pageSize ∣ key.len
  view : key.isBigram = false

variable {key : RadixKey}

omit h in
lemma KeyOk.since {n : Nat} (h : KeyOk pageSize key) (hn : pageSize ∣ n) :
    KeyOk pageSize (key.since n) :=
  ⟨by rw [len_since]; exact Nat.dvd_sub h.dvd hn, (congrArg Prod.snd (key.ns_since n)).trans h.view⟩

omit h in
lemma KeyOk.pageAligned (hview : key.isBigram = false) :
    KeyOk pageSize (key.pageAligned pageSize) :=
  ⟨by rw [len_pageAligned]; exact dvd_floor _ _, (congrArg Prod.snd (key.ns_pageAligned pageSize)).trans hview⟩

section
variable {node child : NodeId} {prefixLen : Nat} (hnode : node < c.counter)
  (hkey : KeyOk c.pageSize key)
  (hnext : c.nextChild node key = some child)
  (hmatch : (c.nodes child).key.match key c.pageSize = some prefixLen)
include hnode hkey hnext hmatch

/-- The child under the first page of a key: in its namespace, with at least a page in common. -/
lemma Inv.descend :
    child < c.counter ∧ child ≠ c.rootNode ∧ (c.nodes child).key.extraKey = key.extraKey ∧
    c.pageSize ∣ prefixLen ∧ 0 < prefixLen := by
  obtain ⟨hlen, hlookup⟩ := ite_none_left_eq_some.mp hnext
  obtain ⟨hlt, hne, hck, -⟩ := h.child node hnode _ _ hlookup
  have hfull := h.filled child hlt hne
  obtain ⟨n, hn, hdvd, hpos, -, -⟩ :=
    match_of_childKey h.pageSize hfull.dvd hkey.dvd hfull.pos (pos_of_ne_zero hlen) hck
  cases hn.symm.trans hmatch
  have hextra := congrArg ChildKey.extraKey hck
  rw [extraKey_childKey, extraKey_childKey] at hextra
  exact ⟨hlt, hne, hextra, hdvd, hpos⟩

/-- The node that the loops go on from: the child, or the upper part of it. -/
lemma Inv.reach {reached : NodeId}
    (hreach : (if prefixLen < (c.nodes child).key.len then
    c.splitNode child prefixLen else some (c, child)) = some (c', reached)) :
    Inv owner c' ∧ Same c c' ∧ reached < c'.counter ∧ reached ≠ c'.rootNode ∧
    (c'.nodes reached).key.extraKey = key.extraKey ∧
      c'.pageSize ∣ prefixLen := by
  obtain ⟨hlt, hne, hextra, hdvd, hpos⟩ := h.descend hnode hkey hnext hmatch
  split at hreach
  · next hshort =>
    obtain ⟨hinv, hsame, hnew, hnewNe, hnewKey⟩ := h.splitNode hlt hne hpos hshort hdvd hreach
    exact ⟨hinv, hsame, hnew, hsame.rootNode ▸ hnewNe, hnewKey.trans hextra, hsame.pageSize ▸ hdvd⟩
  · cases hreach
    exact ⟨h, Same.refl c, hlt, hne, hextra, hdvd⟩

end

variable {value : List Kv}

lemma Inv.computedFor_append (hn : n < c.counter)
    (he : (c.nodes n).key.extraKey = e) (hvalue : ∀ kv ∈ value, kv.computedFor = e) :
    ∀ kv ∈ value ++ (c.nodes n).value.getD [], kv.computedFor = e := by
  intro kv hkv
  rcases mem_append.mp hkv with hkv | hkv
  · exact hvalue kv hkv
  cases hv : (c.nodes n).value with
  | none =>
    rw [hv] at hkv
    exact absurd hkv not_mem_nil
  | some v =>
    rw [hv] at hkv
    exact ((h.node n hn).value v hv kv hkv).trans he

variable {fuel : Nat} {value' : List Kv} {node node' : NodeId}

section
variable (hat : At c e node) (hkey : KeyOk c.pageSize key) (he : key.extraKey = e)
  (hvalue : ∀ kv ∈ value, kv.computedFor = e)
include hat hkey he hvalue

lemma Inv.matchPrefixHelper
    (hmatch : HiRadixCache.matchPrefixHelper fuel c node key value = some (c', value', node')) :
    Inv owner c' ∧ Same c c' ∧ At c' e node' ∧ ∀ kv ∈ value', kv.computedFor = e := by
  fun_induction HiRadixCache.matchPrefixHelper fuel c node key value with
  | case1 fuel c node key value hnext =>
    cases hmatch
    exact ⟨h, Same.refl _, hat, hvalue⟩
  | case2 c node key value child hnext => cases hmatch
  | case3 c node key value child fuel hnext ih =>
    obtain ⟨prefixLen, hcommon, hmatch⟩ := bind_eq_some_iff.mp hmatch
    obtain ⟨hlt, hne, hextra, hdvd, hpos⟩ := h.descend hat.1 hkey hnext hcommon
    split at hmatch
    · next hshort =>
      obtain ⟨⟨c1, newNode⟩, hsplit, heq⟩ := map_eq_some_iff.mp hmatch
      cases heq
      obtain ⟨hinv, hsame, hnew, -, hnewKey⟩ := h.splitNode hlt hne hpos hshort hdvd hsplit
      have hnewKey := hnewKey.trans (hextra.trans he)
      exact ⟨hinv, hsame, ⟨hnew, .inr hnewKey⟩, hinv.computedFor_append hnew hnewKey hvalue⟩
    · exact ih prefixLen h ⟨hlt, .inr (hextra.trans he)⟩ (hkey.since hdvd)
        ((key.extraKey_since _).trans he)
        (h.computedFor_append hlt (hextra.trans he) hvalue) hmatch

/-- What the loop of `insert` ends with: the rest of the key and of the entries, at a node of the
namespace. -/
lemma Inv.insertLoop {key' : RadixKey}
    (hloop : HiRadixCache.insertLoop fuel c node key value = some (c', node', key', value')) :
    Inv owner c' ∧ Same c c' ∧ At c' e node' ∧ KeyOk c.pageSize key' ∧
    key'.extraKey = e ∧ ∀ kv ∈ value', kv.computedFor = e := by
  fun_induction HiRadixCache.insertLoop fuel c node key value with
  | case1 fuel c node key value hnext =>
    cases hloop
    exact ⟨h, Same.refl _, hat, hkey, he, hvalue⟩
  | case2 c node key value child hnext => cases hloop
  | case3 c node key value child fuel hnext ih =>
    obtain ⟨prefixLen, hcommon, hloop⟩ := bind_eq_some_iff.mp hloop
    obtain ⟨⟨c1, reached⟩, hreach, hloop⟩ := bind_eq_some_iff.mp hloop
    obtain ⟨hinv1, hsame1, hlt, hne, hextra, hdvd⟩ := h.reach hat.1 hkey hnext hcommon hreach
    have hextra := hextra.trans he
    obtain ⟨hinv2, hsame2⟩ := hinv1.refill (value.take prefixLen) hlt hne
      (fun kv hkv => (hvalue kv (mem_of_mem_take hkv)).trans hextra.symm)
    have hat2 : At _ e reached := At.of_same ⟨hlt, .inr hextra⟩ hsame2
    have hkey2 : KeyOk (c1.modifyNode reached (·.refill (value.take prefixLen))).pageSize
        (key.since prefixLen) := by
      rw [hsame2.pageSize]
      exact KeyOk.since (hsame1.pageSize ▸ hkey) hdvd
    obtain ⟨hinv', hsame', hat', hkey', he', hvalue'⟩ := ih prefixLen c1 reached hinv2 hat2 hkey2
      ((key.extraKey_since _).trans he) (fun kv hkv => hvalue kv (mem_of_mem_drop hkv)) hloop
    have hsame := hsame1.trans hsame2
    rw [hsame.pageSize] at hkey'
    exact ⟨hinv', hsame.trans hsame', hat', hkey', he', hvalue'⟩

/-- The loop of `_insert_helper_host` ends in the same way. -/
lemma Inv.insertHostLoop {key' : RadixKey} {hashes hashes' : List Hash}
    (hloop : HiRadixCache.insertHostLoop fuel c node key value hashes =
    some (c', node', key', value', hashes')) :
    Inv owner c' ∧ Same c c' ∧ At c' e node' ∧ KeyOk c.pageSize key' ∧
    key'.extraKey = e ∧ ∀ kv ∈ value', kv.computedFor = e := by
  fun_induction HiRadixCache.insertHostLoop fuel c node key value hashes with
  | case1 fuel c node key value hashes hnext =>
    cases hloop
    exact ⟨h, Same.refl _, hat, hkey, he, hvalue⟩
  | case2 c node key value hashes child hnext => cases hloop
  | case3 c node key value hashes child fuel hnext ih =>
    obtain ⟨prefixLen, hcommon, hloop⟩ := bind_eq_some_iff.mp hloop
    obtain ⟨⟨c1, reached⟩, hreach, hloop⟩ := bind_eq_some_iff.mp hloop
    obtain ⟨hinv1, hsame1, hlt, hne, hextra, hdvd⟩ := h.reach hat.1 hkey hnext hcommon hreach
    obtain ⟨hinv', hsame', hat', hkey', he', hvalue'⟩ :=
      ih prefixLen c1 reached hinv1 ⟨hlt, .inr (hextra.trans he)⟩
      (KeyOk.since (hsame1.pageSize ▸ hkey) hdvd) ((key.extraKey_since _).trans he)
      (fun kv hkv => hvalue kv (mem_of_mem_drop hkv)) hloop
    rw [hsame1.pageSize] at hkey'
    exact ⟨hinv', hsame1.trans hsame', hat', hkey', he', hvalue'⟩

end

lemma Inv.addLeaf (hat : At c x.key.extraKey node) (hok : NodeOk x)
    (hfull : Filled c.pageSize x) (hchildren : x.children = ∅) (hparent : x.parent = some node) :
    Inv owner (c.addLeaf node x) ∧ Same c (c.addLeaf node x) := by
  obtain ⟨hlt, hnode⟩ := hat
  let ck := x.key.childKey c.pageSize
  let base (n : Nat) : TreeNode := if n = c.counter then x else c.nodes n
  have hnodes (n : Nat) : (c.addLeaf node x).nodes n =
      if n = node then { base n with children := (base n).children.insert ck c.counter }
      else base n := by
    simp only [base, HiRadixCache.addLeaf, HiRadixCache.modifyNode, HiRadixCache.addNode,
      update_apply]
    by_cases hn : n = node
    · subst hn
      simp [ck]
    · simp [hn]
  have hnew : base c.counter = x := if_pos rfl
  have hold {n : Nat} (hn : n < c.counter) : base n = c.nodes n := if_neg (ne_of_lt hn)
  have hcases {n : Nat} (hn : n < c.counter + 1) : n < c.counter ∨ n = c.counter :=
    Nat.lt_succ_iff_lt_or_eq.mp hn
  have hnodeBase (n : Nat) (hn : n < c.counter + 1) : NodeOk (base n) := by
    obtain hn | rfl := hcases hn
    · rw [hold hn]
      exact h.node n hn
    · rwa [hnew]
  have hfilledBase (n : Nat) (hn : n < c.counter + 1) (hne : n ≠ c.rootNode) :
      Filled c.pageSize (base n) := by
    obtain hn | rfl := hcases hn
    · rw [hold hn]
      exact h.filled n hn hne
    · rwa [hnew]
  have hsame : Same c (c.addLeaf node x) := by
    refine ⟨rfl, rfl, rfl, rfl, rfl, rfl, Nat.le_succ _, fun n hn => ?_⟩
    rw [hnodes, hold hn]
    split <;> rfl
  refine ⟨h.of_link hsame hnodes (hold h.root) hnodeBase hfilledBase (Nat.lt_succ_self _)
    (by rw [hnew]) (hnew ▸ hparent) ?_ ?_, hsame⟩
  · intro n hn ck' m _ hlookup
    obtain hn | rfl := hcases hn
    · rw [hold hn] at hlookup
      obtain ⟨hm, hlink⟩ := h.child n hn ck' m hlookup
      rw [hold hm]
      exact ⟨Nat.lt_succ_of_lt hm, hlink⟩
    · rw [hnew, hchildren] at hlookup
      exact absurd hlookup nofun
  · intro n hn q hq
    obtain hn | rfl := hcases hn
    · rw [hold hn] at hq ⊢
      obtain ⟨hql, hqk⟩ := h.parent n hn q hq
      rw [hold hql]
      exact ⟨Nat.lt_succ_of_lt hql, hqk⟩
    · rw [hnew, hparent] at hq
      cases hq
      rw [hold hlt, hnew]
      exact ⟨Nat.lt_succ_of_lt hlt, hnode⟩

lemma Inv.insert (hview : key.isBigram = false)
    (hvalue : ∀ kv ∈ value, kv.computedFor = key.extraKey)
    (hinsert : c.insert key value = some c') : Inv owner c' ∧ Same c c' := by
  obtain ⟨⟨c1, node, key', value'⟩, hloop, heq⟩ := map_eq_some_iff.mp hinsert
  have hextra : (key.pageAligned c.pageSize).extraKey = key.extraKey :=
    congrArg Prod.fst (key.ns_pageAligned _)
  obtain ⟨hinv, hsame, hat, hkey', he', hvalue'⟩ :=
    h.insertLoop (e := key.extraKey) ⟨h.root, .inl rfl⟩
    (KeyOk.pageAligned hview) hextra (fun kv hkv => hvalue kv (mem_of_mem_take hkv)) hloop
  let leaf : TreeNode :=
    { parent := some node, key := key', value := some value', hashValue := c1.computeNodeHashValues node key' }
  replace heq : (if key'.len = 0 then c1 else c1.addLeaf node leaf) = c' := heq
  split at heq
  · subst heq
    exact ⟨hinv, hsame⟩
  rename_i hlen
  subst heq
  rw [← he'] at hat
  have hok : NodeOk leaf := by
    refine ⟨fun v hv kv hkv => ?_, nofun, hkey'.view⟩
    exact (hvalue' kv (some.inj hv ▸ hkv)).trans he'.symm
  obtain ⟨hinv', hsame'⟩ :=
    hinv.addLeaf hat hok ⟨hsame.pageSize ▸ hkey'.dvd, pos_of_ne_zero hlen⟩ rfl rfl
  exact ⟨hinv', hsame.trans hsame'⟩

lemma Inv.insertHelperHost {hashes : List Hash}
    (hkey : KeyOk c.pageSize key) (hat : At c key.extraKey node)
    (hvalue : ∀ kv ∈ value, kv.computedFor = key.extraKey)
    (hinsert : c.insertHelperHost node key value hashes = some c') : Inv owner c' ∧ Same c c' := by
  obtain ⟨⟨c1, node', key', value', hashes'⟩, hloop, heq⟩ := map_eq_some_iff.mp hinsert
  obtain ⟨hinv, hsame, hat', hkey', he', hvalue'⟩ := h.insertHostLoop hat hkey rfl hvalue hloop
  replace heq : (if key'.len = 0 then c1 else c1.addLeaf node'
      { parent := some node', key := key', hostValue := some value', hashValue := hashes' }) = c' :=
        heq
  split at heq
  · subst heq
    exact ⟨hinv, hsame⟩
  rename_i hlen
  subst heq
  rw [← he'] at hat' hvalue'
  have hok :
      NodeOk
      { parent := some node', key := key', hostValue := some value', hashValue := hashes' } :=
    ⟨nofun, fun v hv kv hkv => hvalue' kv (some.inj hv ▸ hkv), hkey'.view⟩
  rw [← hsame.pageSize] at hkey'
  obtain ⟨hinv', hsame'⟩ := hinv.addLeaf hat' hok ⟨hkey'.dvd, pos_of_ne_zero hlen⟩ rfl rfl
  exact ⟨hinv', hsame.trans hsame'⟩

lemma Inv.at_parent {n p : NodeId} (hat : At c e n) (hparent : (c.nodes n).parent = some p) :
    At c e p := by
  obtain ⟨hlt, hp⟩ := h.parent n hat.1 p hparent
  rcases hat.2 with rfl | he
  · rw [h.rootOk.parent] at hparent
    cases hparent
  · exact ⟨hlt, hp.imp id fun hp => hp.trans he⟩

lemma Inv.lastHostNode {n m : NodeId} (hat : At c e n) (hlast : c.lastHostNode fuel n = some m) :
    At c e m := by
  induction fuel generalizing n with
  | zero => cases hlast
  | succ fuel ih =>
    rw [HiRadixCache.lastHostNode] at hlast
    split at hlast
    · exact some.inj hlast ▸ hat
    · obtain ⟨p, hp, hlast⟩ := bind_eq_some_iff.mp hlast
      exact ih (h.at_parent hat hp) hlast

lemma Inv.matchPrefix {result : HiRadixCache.MatchResult} (hview : key.isBigram = false)
    (hmatch : c.matchPrefix key = some (c', result)) :
    Inv owner c' ∧ Same c c' ∧ At c' key.extraKey result.lastHostNode ∧
    ∀ kv ∈ result.deviceIndices, kv.computedFor = key.extraKey := by
  unfold HiRadixCache.matchPrefix at hmatch
  split at hmatch
  · cases hmatch
    exact ⟨h, Same.refl c, ⟨h.root, .inl rfl⟩, nofun⟩
  obtain ⟨⟨c1, value, node⟩, hloop, hmatch⟩ := bind_eq_some_iff.mp hmatch
  obtain ⟨hostHitLength, -, hmatch⟩ := bind_eq_some_iff.mp hmatch
  obtain ⟨last, hlast, heq⟩ := map_eq_some_iff.mp hmatch
  cases heq
  obtain ⟨hinv, hsame, hat, hvalue⟩ :=
    h.matchPrefixHelper ⟨h.root, .inl rfl⟩ (KeyOk.pageAligned hview)
    (congrArg Prod.fst (key.ns_pageAligned _)) (forall_mem_nil _) hloop
  exact ⟨hinv, hsame, hinv.lastHostNode hat hlast, hvalue⟩

lemma Inv.loadBack {loaded : List Kv} (hat : At c e n)
    (hload : HiRadixCache.loadBack fuel c n = some (c', loaded)) :
    Inv owner c' ∧ Same c c' ∧ ∀ kv ∈ loaded, kv.computedFor = e := by
  induction fuel generalizing n c' loaded with
  | zero => cases hload
  | succ fuel ih =>
    rw [HiRadixCache.loadBack] at hload
    split at hload
    · next hevicted =>
      split at hload
      · next hostValue parent hhost hparent =>
        obtain ⟨⟨c1, loaded1⟩, hload1, heq⟩ := map_eq_some_iff.mp hload
        cases heq
        obtain ⟨hinv, hsame, hloaded⟩ := ih (h.at_parent hat hparent) hload1
        have hne : n ≠ c.rootNode := by
          intro hroot
          rw [hroot, TreeNode.evicted, h.rootOk.value] at hevicted
          cases hevicted
        have he := hat.2.resolve_left hne
        have hvalue (kv : Kv) (hkv : kv ∈ hostValue) : kv.computedFor = e :=
          ((h.node n hat.1).host hostValue hhost kv hkv).trans he
        obtain ⟨hinv', hsame'⟩ :=
          hinv.modifyNode n (f := fun x => { x with value := some hostValue })
          (fun x => ⟨fun _ _ h => h, rfl, rfl⟩)
            (fun hroot => absurd (hroot.trans hsame.rootNode) hne) fun hn => by
            have hok := hinv.node n hn
            refine ⟨fun v hv kv hkv => ?_, hok.host, hok.view⟩
            exact (hvalue kv (some.inj hv ▸ hkv)).trans ((hsame.extraKey n hat.1).trans he).symm
        exact ⟨hinv', hsame.trans hsame', forall_mem_append.mpr ⟨hloaded, hvalue⟩⟩
      · cases hload
    · cases hload
      exact ⟨h, Same.refl c, forall_mem_nil _⟩

lemma Inv.deleteLeaf (n : NodeId) : Inv owner (c.deleteLeaf n) ∧ Same c (c.deleteLeaf n) := by
  unfold HiRadixCache.deleteLeaf
  dsimp only
  split
  · next parent hparent =>
    refine h.modifyNode parent (fun x => ⟨fun ck m hlookup => ?_, rfl, rfl⟩) (fun _ => rfl)
      fun hlt => { h.node parent hlt with }
    rw [lookup_erase_ite] at hlookup
    exact (ite_none_left_eq_some.mp hlookup).2
  · exact ⟨h, Same.refl c⟩

end

end Tree

/-! ### Requests and the storage -/

section Steps
variable {r : Nat}

section
variable (h : Inv owner c)
include h

lemma Inv.setReq {req req' : Req} (hreq : c.reqs[r]? = some req) (he : req'.extraKey = req.extraKey)
    (hrow : ∀ kv ∈ req'.row, kv.computedFor = req'.extraKey)
    (hat : At c req'.extraKey req'.lastHostNode) :
    Inv owner { c with reqs := c.reqs.set r req' } :=
  { h with
    req := by
      intro q hq
      rcases mem_or_eq_of_mem_set hq with hq | rfl
      · exact h.req q hq
      · exact ⟨hrow, hat⟩
    prefetch := by
      intro op hop
      obtain ⟨q, hq, hok⟩ := h.prefetch op hop
      by_cases hr : r = op.req
      · subst hr
        cases hreq.symm.trans hq
        refine ⟨req', ?_, he ▸ hok⟩
        exact List.getElem?_set_self (List.getElem?_eq_some_iff.mp hreq).1
      · exact ⟨q, (getElem?_set_ne hr).trans hq, hok⟩ }

lemma Inv.request (extraKey : Option String) (fillIds : List TokenId) :
    Inv owner { c with reqs := c.reqs ++ [⟨extraKey, fillIds, [], c.rootNode, 0⟩] } :=
  { h with
    req := by
      intro q hq
      rcases mem_append.mp hq with hq | hq
      · exact h.req q hq
      · obtain rfl := mem_singleton.mp hq
        exact ⟨forall_mem_nil _, h.root, .inl rfl⟩
    prefetch := by
      intro op hop
      obtain ⟨q, hq, hok⟩ := h.prefetch op hop
      exact ⟨q, (List.getElem?_append_left (List.getElem?_eq_some_iff.mp hq).1).trans hq, hok⟩ }

lemma Inv.initNextRoundInput (hstep : c.initNextRoundInput r = some c') : Inv owner c' := by
  obtain ⟨req, hreq, hstep⟩ := bind_eq_some_iff.mp hstep
  obtain ⟨⟨c1, result⟩, hmatch, rfl⟩ := map_eq_some_iff.mp hstep
  obtain ⟨hinv, hsame, hat, hvalue⟩ := h.matchPrefix rfl hmatch
  rw [← hsame.reqs] at hreq
  exact hinv.setReq hreq rfl hvalue hat

lemma Inv.rematchReq (hstep : c.rematchReq r = some c') : Inv owner c' := by
  obtain ⟨req, hreq, hstep⟩ := bind_eq_some_iff.mp hstep
  obtain ⟨⟨c1, result⟩, hmatch, rfl⟩ := map_eq_some_iff.mp hstep
  obtain ⟨hinv, hsame, hat, hvalue⟩ := h.matchPrefix rfl hmatch
  obtain ⟨hrow, -⟩ := h.req req (mem_of_getElem? hreq)
  rw [← hsame.reqs] at hreq
  refine hinv.setReq hreq rfl (forall_mem_append.mpr ⟨hvalue, fun kv hkv => ?_⟩) hat
  exact hrow kv (mem_of_mem_drop hkv)

lemma Inv.initLoadBack (hstep : c.initLoadBack r = some c') : Inv owner c' := by
  obtain ⟨req, hreq, hstep⟩ := bind_eq_some_iff.mp hstep
  obtain ⟨⟨c1, loaded⟩, hload, rfl⟩ := map_eq_some_iff.mp hstep
  obtain ⟨hrow, hat⟩ := h.req req (mem_of_getElem? hreq)
  obtain ⟨hinv, hsame, hloaded⟩ := h.loadBack hat hload
  rw [← hsame.reqs] at hreq
  exact hinv.setReq hreq rfl (forall_mem_append.mpr ⟨hrow, hloaded⟩) (At.of_same hat hsame)

lemma Inv.extend (hstep : c.extend r = some c') : Inv owner c' := by
  obtain ⟨req, hreq, rfl⟩ := map_eq_some_iff.mp hstep
  obtain ⟨hrow, hat⟩ := h.req req (mem_of_getElem? hreq)
  refine h.setReq hreq rfl (forall_mem_append.mpr ⟨hrow, fun kv hkv => ?_⟩) hat
  obtain ⟨i, -, rfl⟩ := mem_map.mp hkv
  rfl

lemma Inv.appendToken {token : TokenId} (hstep : c.appendToken r token = some c') :
    Inv owner c' := by
  obtain ⟨req, hreq, rfl⟩ := map_eq_some_iff.mp hstep
  obtain ⟨hrow, hat⟩ := h.req req (mem_of_getElem? hreq)
  exact h.setReq hreq rfl hrow hat

lemma Inv.cacheReq (hstep : c.cacheReq r = some c') : Inv owner c' := by
  obtain ⟨req, hreq, hinsert⟩ := bind_eq_some_iff.mp hstep
  obtain ⟨hrow, -⟩ := h.req req (mem_of_getElem? hreq)
  exact (h.insert rfl hrow hinsert).1

lemma Inv.writeBackupStorage {n : NodeId} (hn : n < c.counter)
    (htame : ∀ hash ∈ (c.nodes n).hashValue, Owned owner (c.nodes n).key.extraKey hash)
    (hstep : c.writeBackupStorage n = some c') : Inv owner c' := by
  obtain ⟨hostValue, hhost, rfl⟩ := map_eq_some_iff.mp hstep
  have hok := h.node n hn
  exact { h with
    backup :=
      forall_mem_cons.mpr ⟨fun hash hh => ⟨_, htame hash hh, hok.host hostValue hhost⟩, h.backup⟩ }

lemma Inv.pageBackup {op : StorageOperation} (hop : op ∈ c.ongoingBackup) (count : Nat) :
    StorageOk owner (c.pageBackup op count).storage := by
  have hpages : ∀ page ∈ op.hashValue.zipIdx.take count, page.1 ∈ op.hashValue := by
    intro page hpage
    obtain ⟨-, hlt, heq⟩ := mem_zipIdx (mem_of_mem_take hpage)
    rw [heq]
    exact getElem_mem _
  have hop := h.backup op hop
  have hstorage := h.storage
  unfold HiRadixCache.pageBackup
  generalize op.hashValue.zipIdx.take count = pages at hpages
  generalize c.storage = storage at hstorage
  induction pages generalizing storage with
  | nil => exact hstorage
  | cons page pages ih =>
    refine ih (fun p hp => hpages p (mem_cons_of_mem _ hp)) _ fun hash stored heq => ?_
    dsimp only at heq
    split at heq
    · next hhash =>
      subst hhash
      obtain ⟨e, howned, hcontent⟩ := hop _ (hpages page mem_cons_self)
      cases heq
      exact ⟨e, howned, fun kv hkv => hcontent kv (mem_of_mem_drop (mem_of_mem_take hkv))⟩
    · exact hstorage hash stored heq

end

/-- A prefetch starts at a place for the namespace of the request. -/
lemma Inv.prefetchFromStorage (h : Inv owner c) (hstep : c.prefetchFromStorage r = some c') :
    Inv owner c' := by
  obtain ⟨req, hreq, rfl⟩ := map_eq_some_iff.mp hstep
  obtain ⟨-, hat⟩ := h.req req (mem_of_getElem? hreq)
  have hdvd : c.pageSize ∣ (c.newInputTokens req).length := by
    rw [HiRadixCache.newInputTokens, length_take, min_eq_left (floor_le _ _)]
    exact dvd_floor _ _
  exact { h with
    prefetch :=
      forall_mem_cons.mpr ⟨⟨req, hreq, hat, hdvd, fun hne => absurd rfl hne, forall_mem_nil _⟩,
      h.prefetch⟩ }

variable {i : Nat}

section
variable (h : Inv owner c)
include h

lemma Inv.setPrefetch {op : PrefetchOperation} {req : Req} (hreq : c.reqs[op.req]? = some req)
    (hok : PrefetchOk c.pageSize c.counter c.rootNode c.nodes op req.extraKey) :
    Inv owner (c.setPrefetch i op) :=
  { h with
    prefetch := by
      intro op' hop
      rcases mem_or_eq_of_mem_set hop with hop | rfl
      · exact h.prefetch op' hop
      · exact ⟨req, hreq, hok⟩ }

lemma Inv.storageHitQuery (hstep : c.storageHitQuery i = some c') : Inv owner c' := by
  obtain ⟨op, hop, hstep⟩ := bind_eq_some_iff.mp hstep
  obtain ⟨hzero, heq⟩ := ite_none_right_eq_some.mp hstep
  cases heq
  obtain ⟨req, hreq, hok⟩ := h.prefetch op (mem_of_getElem? hop)
  exact h.setPrefetch hreq { hok with arrived := hok.arrived }

/-- A page is fetched for a request of the namespace that owns its hash, and not at the root for
another one. -/
def TameTransfer (owner : List TokenId → Option String) (c : HiRadixCache)
    (op : PrefetchOperation) : Prop :=
  ∀ req ∈ c.reqs[op.req]?, (op.lastHostNode = c.rootNode → req.extraKey = none) ∧
    ∀ hash ∈ op.hashValue[op.completedPages]?, Owned owner req.extraKey hash

lemma Inv.pageTransfer (htame : ∀ op ∈ c.ongoingPrefetch[i]?, TameTransfer owner c op)
    (hstep : c.pageTransfer i = some c') : Inv owner c' := by
  obtain ⟨op, hop, hstep⟩ := bind_eq_some_iff.mp hstep
  obtain ⟨hash, hhash, hstep⟩ := bind_eq_some_iff.mp hstep
  obtain ⟨page, hpage, rfl⟩ := map_eq_some_iff.mp hstep
  obtain ⟨req, hreq, hok⟩ := h.prefetch op (mem_of_getElem? hop)
  obtain ⟨hroot, howns⟩ := htame op hop req hreq
  obtain ⟨e, howned, hcontent⟩ := h.storage hash page hpage
  have he : e = req.extraKey := howned.unique (howns hash hhash)
  have hplace : (c.nodes op.lastHostNode).key.extraKey = req.extraKey := by
    rcases hok.place.2 with heq | heq
    · rw [heq, h.rootOk.key, hroot heq]
    · exact heq
  refine h.setPrefetch hreq { hok with arrived := fun _ => hplace, fetched := ?_ }
  exact forall_mem_append.mpr ⟨hok.fetched, he ▸ hcontent⟩

lemma Inv.eraseIdx (i : Nat) :
    Inv owner { c with ongoingPrefetch := c.ongoingPrefetch.eraseIdx i } :=
  { h with prefetch := fun op hop => h.prefetch op ((eraseIdx_sublist _ _).mem hop) }

lemma Inv.checkPrefetchProgress (hstep : c.checkPrefetchProgress i = some c') : Inv owner c' := by
  obtain ⟨op, hop, hstep⟩ := bind_eq_some_iff.mp hstep
  obtain ⟨c1, hinsert, rfl⟩ := map_eq_some_iff.mp hstep
  obtain ⟨req, -, hok⟩ := h.prefetch op (mem_of_getElem? hop)
  have hkey : KeyOk c.pageSize
      { tokenIds := op.tokenIds.take (op.completedPages * c.pageSize), extraKey := (c.nodes op.lastHostNode).key.extraKey } := by
    refine ⟨?_, rfl⟩
    rw [len_of_view rfl, length_take]
    rcases le_total (op.completedPages * c.pageSize) op.tokenIds.length with hle | hle
    · rw [min_eq_left hle]
      exact dvd_mul_left _ _
    · rw [min_eq_right hle]
      exact hok.dvd
  refine ((h.insertHelperHost hkey ⟨hok.place.1, .inr rfl⟩ (fun kv hkv => ?_) hinsert).1).eraseIdx i
  by_cases hzero : op.completedPages = 0
  · rw [hzero, Nat.zero_mul, take_zero] at hkv
    cases hkv
  · exact (hok.fetched kv (mem_of_mem_take hkv)).trans (hok.arrived hzero).symm

end

end Steps

/-! ### Runs -/

/-- A step that keeps the namespaces apart in the storage: a node is written to it only under a
first page of its own namespace, and a page arrives only for a request of the namespace that owns
it. -/
def Tame (owner : List TokenId → Option String) (c : HiRadixCache) : Event → Prop
  | .writeBackupStorage n =>
    ∀ hash ∈ (c.nodes n).hashValue, Owned owner (c.nodes n).key.extraKey hash
  | .pageTransfer i => ∀ op ∈ c.ongoingPrefetch[i]?, TameTransfer owner c op
  | _ => True

instance (h : Hash) : Decidable (Owned owner e h) := inferInstanceAs (Decidable (_ = _))

instance (op : PrefetchOperation) : Decidable (TameTransfer owner c op) :=
  inferInstanceAs
    (Decidable (∀ req ∈ c.reqs[op.req]?, _ ∧ ∀ hash ∈ op.hashValue[op.completedPages]?,
    Owned owner _ hash))

instance (e : Event) : Decidable (Tame owner c e) := by
  cases e <;> unfold Tame <;> infer_instance

def TameStep (owner : List TokenId → Option String) (c c' : HiRadixCache) : Prop :=
  ∃ e, Tame owner c e ∧ c.step e = some c'

lemma Inv.create (owner : List TokenId → Option String) (hpos : 0 < pageSize) :
    Inv owner (HiRadixCache.create pageSize) where
  pageSize := hpos
  root := Nat.zero_lt_one
  rootOk := ⟨rfl, rfl, rfl⟩
  node _ _ := ⟨fun _ hv _ hkv => absurd (some.inj hv ▸ hkv) not_mem_nil,
    fun _ hv _ hkv => absurd (some.inj hv ▸ hkv) not_mem_nil, rfl⟩
  filled _ hn hne := absurd (Nat.lt_one_iff.mp hn) hne
  child _ _ _ _ hlookup := nomatch hlookup
  parent _ _ _ hparent := nomatch hparent
  req := forall_mem_nil _
  prefetch := forall_mem_nil _
  storage _ _ hpage := nomatch hpage
  backup := forall_mem_nil _

lemma Inv.step (h : Inv owner c) (hstep : TameStep owner c c') : Inv owner c' := by
  obtain ⟨e, htame, hstep⟩ := hstep
  cases e with
  | request extraKey fillIds =>
    cases hstep
    exact h.request extraKey fillIds
  | initNextRoundInput r => exact h.initNextRoundInput hstep
  | initLoadBack r => exact h.initLoadBack hstep
  | extend r => exact h.extend hstep
  | appendToken r token => exact h.appendToken hstep
  | cacheReq r => exact h.cacheReq hstep
  | rematchReq r => exact h.rematchReq hstep
  | writeBackup n =>
    obtain ⟨value, hvalue, rfl⟩ := map_eq_some_iff.mp hstep
    refine (h.modifyNode n (f := fun x => { x with hostValue := some value })
      (fun x => ⟨fun _ _ h => h, rfl, rfl⟩)
      (fun _ => rfl) fun hn => ?_).1
    have hok := h.node n hn
    exact ⟨hok.value, fun v hv kv hkv => hok.value value hvalue kv (some.inj hv ▸ hkv), hok.view⟩
  | writeBackupStorage n =>
    obtain ⟨hn, hstep⟩ := ite_none_right_eq_some.mp hstep
    exact h.writeBackupStorage hn htame hstep
  | pageBackup i count =>
    obtain ⟨op, hop, rfl⟩ := map_eq_some_iff.mp hstep
    exact { h with
      storage := h.pageBackup (mem_of_getElem? hop) count
      backup := fun op' hop' => h.backup op' ((eraseIdx_sublist _ _).mem hop') }
  | evictBackuped n =>
    obtain ⟨⟨hne, -⟩, heq⟩ := ite_none_right_eq_some.mp hstep
    cases heq
    refine (h.modifyNode n (f := fun x => { x with value := none })
      (fun x => ⟨fun _ _ h => h, rfl, rfl⟩)
      (fun hroot => absurd hroot hne) fun hn => ?_).1
    have hok := h.node n hn
    exact ⟨nofun, hok.host, hok.view⟩
  | evictRegular n | evictHost n =>
    obtain ⟨-, heq⟩ := ite_none_right_eq_some.mp hstep
    cases heq
    exact (h.deleteLeaf n).1
  | prefetchFromStorage r => exact h.prefetchFromStorage hstep
  | storageHitQuery i => exact h.storageHitQuery hstep
  | pageTransfer i => exact h.pageTransfer htame hstep
  | checkPrefetchProgress i => exact h.checkPrefetchProgress hstep
  | revokePrefetch i =>
    cases hstep
    exact h.eraseIdx i

/-- The namespaces of the tiers: what lookups and loads have put into the row of a request was
computed under its extra key, so was what the tree holds on the device and on the host under that
extra key, and the pages of a prefetch that have arrived are of the extra key of the request that
asked for it and will be inserted under it. -/
structure Isolated (c : HiRadixCache) : Prop where
  row : ∀ req ∈ c.reqs, ∀ kv ∈ req.row, kv.computedFor = req.extraKey
  device : ∀ n < c.counter, ∀ v ∈ (c.nodes n).value, ∀ kv ∈ v,
    kv.computedFor = (c.nodes n).key.extraKey
  host : ∀ n < c.counter, ∀ v ∈ (c.nodes n).hostValue, ∀ kv ∈ v,
    kv.computedFor = (c.nodes n).key.extraKey
  prefetch : ∀ op ∈ c.ongoingPrefetch, ∃ req, c.reqs[op.req]? = some req ∧
    (op.completedPages ≠ 0 → (c.nodes op.lastHostNode).key.extraKey = req.extraKey) ∧
    ∀ kv ∈ op.fetched, kv.computedFor = req.extraKey

lemma Inv.isolated (h : Inv owner c) : Isolated c where
  row req hreq := (h.req req hreq).1
  device n hn := (h.node n hn).value
  host n hn := (h.node n hn).host
  prefetch op hop := by
    obtain ⟨req, hreq, hok⟩ := h.prefetch op hop
    exact ⟨req, hreq, hok.arrived, hok.fetched⟩

/-- In a run whose requests tell the namespaces apart by their first pages, no tier gives a request
the entries of another namespace. -/
theorem namespaces_isolated (owner : List TokenId → Option String) {pageSize : Nat}
    (hpos : 0 < pageSize) {history : List HiRadixCache}
    (hrun : Runs.Run (TameStep owner) (HiRadixCache.create pageSize) history) :
    ∀ c ∈ history, Isolated c :=
  fun c hc =>
    (hrun.invariant (Inv.create owner hpos) (fun _ _ h hstep => h.step hstep) c hc).isolated

/-- A step, if it is tame. -/
def tameStep (owner : List TokenId → Option String) (c : HiRadixCache) (e : Event) :
    Option HiRadixCache :=
  if Tame owner c e then c.step e else none

/-- Two tenants with the same first tokens. Both are cached; the second asks the storage in vain,
and a page of the first comes back from it. -/
def twoTenants : List Event :=
  [.request (some "a") [1, 2], .extend 0, .cacheReq 0, .request (some "b") [1, 2],
    .initNextRoundInput 1,
    .prefetchFromStorage 1, .storageHitQuery 0, .checkPrefetchProgress 0,
    .extend 1, .cacheReq 1, .writeBackup 1,
    .request (some "a") [1, 2, 3], .initNextRoundInput 2, .extend 2, .cacheReq 2,
    .writeBackup 3, .writeBackupStorage 3,
    .pageBackup 0 1, .evictRegular 3, .request (some "a") [1, 2, 3, 4],
    .initNextRoundInput 3, .prefetchFromStorage 3,
    .storageHitQuery 0, .pageTransfer 0, .checkPrefetchProgress 0]

/-- What is in the tree in the end: both tenants, and the page that came back under the extra key of
the first. -/
def BothCached (c : HiRadixCache) : Prop :=
  (c.nodes 1).key = { tokenIds := [1, 2], extraKey := some "a" } ∧
    (c.nodes 2).key = { tokenIds := [1, 2], extraKey := some "b" } ∧
    (c.nodes 4).key = { tokenIds := [3], extraKey := some "a" } ∧
    (c.nodes 4).hostValue = some [⟨some "a", [1, 2, 3]⟩]

instance : DecidablePred BothCached := fun _ => inferInstanceAs (Decidable (_ ∧ _ ∧ _ ∧ _))

theorem namespaces_isolated_two_tenants :
    ∃ history, Runs.Run (TameStep fun _ => some "a") (HiRadixCache.create 1) history ∧
    (∃ c ∈ history, BothCached c) ∧ ∀ c ∈ history, Isolated c := by
  obtain ⟨history, hrun, hboth⟩ :
    ∃ history, Runs.Run (TameStep fun _ => some "a") (HiRadixCache.create 1) history ∧
      ∃ c ∈ history, BothCached c :=
    Runs.exists_run_of_play (tameStep fun _ => some "a") twoTenants
      (fun e _ _ _ hstep => ⟨e, ite_none_right_eq_some.mp hstep⟩) (by decide +kernel)
  exact ⟨history, hrun, hboth, namespaces_isolated _ Nat.zero_lt_one hrun⟩

/-- Two tenants and a request without an extra key, with the same tokens. -/
def threeTenants : List Event :=
  [.request (some "a") [1, 2], .extend 0, .cacheReq 0, .writeBackup 1,
    .writeBackupStorage 1, .pageBackup 0 2,
    .request (some "b") [1, 2, 3], .initNextRoundInput 1, .prefetchFromStorage 1,
    .storageHitQuery 0, .pageTransfer 0, .pageTransfer 0,
    .checkPrefetchProgress 0, .request none [1, 2, 3], .initNextRoundInput 2, .initLoadBack 2]

/-- What one tenant has stored is fetched for another one with the same tokens, inserted under no
extra key, and loaded for a request that has none. -/
theorem prefetch_crosses_namespaces :
    ∃ c, threeTenants.foldlM HiRadixCache.step (HiRadixCache.create 1) = some c ∧
    c.reqs[2]?.map
    (fun req => (req.extraKey, req.row)) = some (none, [⟨some "a", [1]⟩, ⟨some "a", [1, 2]⟩]) ∧
    ¬Isolated c := by
  have hrun : (threeTenants.foldlM HiRadixCache.step (HiRadixCache.create 1)).bind
      (fun c => c.reqs[2]?.map fun req => (req.extraKey, req.row)) =
      some (none, [⟨some "a", [1]⟩, ⟨some "a", [1, 2]⟩]) := by decide +kernel
  obtain ⟨c, hc, hrow⟩ := bind_eq_some_iff.mp hrun
  refine ⟨c, hc, hrow, fun h => ?_⟩
  obtain ⟨req, hreq, heq⟩ := map_eq_some_iff.mp hrow
  obtain ⟨hextra, hrow⟩ := Prod.mk.inj heq
  have hfirst := h.row req (mem_of_getElem? hreq) ⟨some "a", [1]⟩ (hrow ▸ mem_cons_self)
  rw [hextra] at hfirst
  cases hfirst

end Hierarchical

end Sglang.MemCache
