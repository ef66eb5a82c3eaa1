import Sglang.MemCache.RadixLoops

/-! Whole runs of a radix cache.

A cache starts empty and is used through `insert`, `match_prefix`, `inc_lock_ref`,
`dec_lock_ref` and `evict`, in any order. Two results hold over every run. The tree
stands for a prefix map, and each call does to the map what it is for, whatever the
tree looks like and whoever holds locks. And when locks are given back as they were
taken, the representation is exact: shape, lock counts, sizes and leaf set. -/
namespace Sglang.MemCache

open List Option
open Prefix PrefixMap RadixKey

/-- A call on a cache. -/
inductive CacheOp where
  | insert (now : Int) (params : InsertParams)
  | matchPrefix (now : Int) (key : RadixKey)
  | incLockRef (node : NodeId)
  | decLockRef (node : NodeId)
  | evict (numTokens : Nat)

/-- What a call returns. -/
inductive CacheOut where
  | inserted (prefixLen : Nat)
  | matched (result : MatchResult)
  | locked (delta : Int)
  | evicted (numEvicted : Nat) (freed : List (List Slot))

namespace RadixCache
variable {c c' : RadixCache} {g g' : Shape} {node : NodeId}

def apply (c : RadixCache) : CacheOp → Option (RadixCache × CacheOut)
  | .insert now params => (c.insert now params).map fun (c, n) => (c, .inserted n)
  | .matchPrefix now key => (c.matchPrefix now key).map fun (c, r) => (c, .matched r)
  | .incLockRef node => (c.incLockRef node).map fun (c, d) => (c, .locked d)
  | .decLockRef node => (c.decLockRef node).map fun (c, d) => (c, .locked d)
  | .evict numTokens => (c.evict numTokens).map fun (c, n, freed) => (c, .evicted n freed)

/-- A node of the tree: the dictionaries lead to it from the root. -/
def InTree (c : RadixCache) (n : NodeId) : Prop := Subtree c.tree c.rootNode n

/-- Locks are taken and given back on nodes of the tree. -/
def Allowed (c : RadixCache) : CacheOp → Prop
  | .incLockRef node => c.InTree node
  | .decLockRef node => c.InTree node
  | _ => True

/-- What every run keeps, whatever the locks are. -/
structure Sane (c : RadixCache) (g : Shape) : Prop where
  wf : WellFormed c.tree g
  leaf : LeafSound c g
  off : c.disable = true → g.live = {c.tree.root}

lemma inTree_iff (h : WellFormed c.tree g) {n : NodeId} : c.InTree n ↔ n ∈ g.live :=
  ⟨fun hs => (h.subtree_spec h.root_mem hs).1, fun hn => h.subtree_root hn⟩

/-- The labels of an empty tree. -/
def emptyShape (root : NodeId) : Shape := ⟨{root}, fun _ => [], fun _ => []⟩

lemma sane_reset (c : RadixCache) (now : Int) : Sane (c.reset now) (emptyShape c.counter) := by
  have hroot : ∀ n ∈ (emptyShape c.counter).live, n = c.counter :=
    fun n hn => Finset.mem_singleton.mp hn
  have hnode : (c.reset now).tree.node c.counter = ⟨∅, none, {tokenIds := []}, []⟩ := by
    simp [reset, tree, addNode, TreeNode.core]
  refine ⟨⟨c.pageSize_pos, Finset.mem_singleton_self _, rfl, rfl, ?_, ?_, ?_⟩,
    ⟨?_, nodup_nil, ?_⟩, fun _ => rfl⟩
  · intro n hn
    rw [hroot n hn]
    exact Nat.lt_succ_self _
  · intro n hn hne
    exact absurd (hroot n hn) hne
  · intro p hp k n hk
    rw [hroot p hp, hnode, AList.lookup_empty] at hk
    cases hk
  · simp [reset, lockRef, tree, addNode]
  · intro n hn
    cases hn

lemma Sane.reshape (hs : Sane c g) (hr : Reshape c g c' g')
    (hoff : c.disable = true → g'.live = g.live) : Sane c' g' := by
  refine ⟨hr.wellFormed hs.wf, hs.leaf.reshape hs.wf hr, ?_⟩
  intro hdis
  have hdis : c.disable = true := by rwa [hr.params] at hdis
  rw [hoff hdis, hr.root, hs.off hdis]

/-! ### The prefix map -/

lemma flatten_lastPage (pageSize k : Nat) (vs : List Slot) :
    ((List.range k).map fun i => lastPage pageSize ((i + 1) * pageSize) vs).flatten = vs.take
    (k * pageSize) := by
  induction k with
  | zero => simp
  | succ k ih =>
    have hsub : (k + 1) * pageSize - pageSize = k * pageSize := by
      rw [Nat.succ_mul, Nat.add_sub_cancel]
    have hle : k * pageSize ≤ (k + 1) * pageSize := Nat.mul_le_mul_right _ (Nat.le_succ k)
    rw [range_succ, map_append, flatten_append, ih, map_singleton, flatten_singleton,
      lastPage, hsub, ← min_eq_left hle, ← take_take, min_eq_left hle, take_append_drop]

section Map
variable {key : RadixKey} {len : Nat}

/-- A node at the end of part of a key holds every page of the part. -/
lemma holds_take {t : Tree} (h : WellFormed t g) (hmem : node ∈ g.live) (hle : len ≤ key.len)
    (hpath : g.path node = key.iter.take len) (hns : node = t.root ∨ (t.node node).key.ns = key.ns)
    {j : Nat} (hpos : 0 < j) (hj : j ≤ len) (hd : t.pageSize ∣ j) :
    Holds t key.ns (key.iter.take j) (lastPage t.pageSize j (g.vals node)) := by
  have hlen : (key.iter.take j).length = j := by
    rw [length_take, length_iter]
    omega
  have hroot : node ≠ t.root := by
    rintro rfl
    rw [h.root_path] at hpath
    have := congrArg List.length hpath
    rw [length_take, length_iter, length_nil] at this
    omega
  refine h.holds_iff.mpr ⟨node, hmem, hroot, hns.resolve_left hroot, ?_,
    ⟨?_, by rwa [hlen]⟩, by rw [hlen]⟩
  · rw [hpath]
    exact take_prefix_take_left hj
  · intro hnil
    rw [hnil, length_nil] at hlen
    omega

/-- The end of a walk is the longest prefix of the key in the map. -/
lemma found_eq_of_reshape (h : WellFormed c.tree g) (hr : Reshape c g c' g') (hmem : node ∈ g'.live)
    (hle : len ≤ key.len) (hpath : g'.path node = key.iter.take len)
    (hns : node = c'.tree.root ∨ (c'.tree.node node).key.ns = key.ns)
    (hlong : ∀ u page, Holds c.tree key.ns u page → u <+: key.iter → u.length ≤ len) :
    found c.tree.prefixMap key.ns key.iter = len := by
  have h' := hr.wellFormed h
  refine found_eq _ _ _ _ (by rwa [length_iter]) ?_ ?_
  · rcases Nat.eq_zero_or_pos len with hz | hpos
    · exact .inl hz
    · have hd := h'.page_dvd_path hmem
      rw [hpath, length_take, length_iter, min_eq_left hle] at hd
      have hh := holds_take h' hmem hle hpath hns hpos (le_refl _) hd
      exact .inr (h.prefixMap_isSome.mpr ⟨_, (hr.holds h _ _ _).mp hh⟩)
  · intro u hu hsome
    obtain ⟨page, hh⟩ := h.prefixMap_isSome.mp hsome
    exact hlong u page hh hu

/-- **A lookup returns the pages of the longest prefix in the map.** -/
theorem Matched.lookup {r : MatchResult} (hm : Matched c g key c' g' r len)
    (h : WellFormed c.tree g) :
    r.deviceIndices = (lookup c.pageSize c.tree.prefixMap key.ns key.iter).flatten := by
  have h' := hm.reshape.wellFormed h
  have hfound := found_eq_of_reshape h hm.reshape hm.mem hm.le hm.path hm.ns hm.longest
  have hlen : (g'.path r.lastDeviceNode).length = len := by
    rw [hm.path, length_take, length_iter, min_eq_left hm.le]
  obtain ⟨k, hk⟩ := h'.page_dvd_path hm.mem
  rw [hlen, hm.reshape.pageSize, mul_comm] at hk
  rw [lookup_eq c.pageSize _ _ _ k
    (fun i => lastPage c.pageSize ((i + 1) * c.pageSize) r.deviceIndices)
    c.pageSize_pos (hfound.trans hk), flatten_lastPage, take_of_length_le]
  · rw [← hm.vals, h'.length_vals hm.mem, hlen]
    exact hk.le
  · intro i hi
    have hle : (i + 1) * c.pageSize ≤ len := by
      rw [hk]
      exact Nat.mul_le_mul_right _ hi
    have hh :=
      holds_take h' hm.mem hm.le hm.path hm.ns (Nat.mul_pos (Nat.succ_pos i) c.pageSize_pos) hle
      (by rw [hm.reshape.pageSize]; exact dvd_mul_left _ _)
    rw [hm.vals, hm.reshape.pageSize] at hh
    exact h.prefixMap_eq_some.mpr ((hm.reshape.holds h _ _ _).mp hh)

/-- A page past the first `len` slots is a page of what follows them. -/
lemma lastPage_drop {pageSize n len : Nat} {vs ws : List Slot} (hlen : len + pageSize ≤ n)
    (hdrop : (vs.take n).drop len = (ws.take n).drop len) :
    lastPage pageSize n vs = lastPage pageSize n ws := by
  have hsplit : ∀ us :
      List Slot, lastPage pageSize n us = ((us.take n).drop len).drop (n - pageSize - len) := by
    intro us
    rw [lastPage, drop_drop]
    congr 1
    omega
  rw [hsplit, hsplit, hdrop]

/-- **An insertion writes the pages of its key that are missing.** -/
theorem Inserted.prefixMap {slots : List Slot} (hi : Inserted c g key slots c' g' len)
    (h : WellFormed c.tree g) :
    WellFormed c'.tree g' ∧ found c.tree.prefixMap key.ns key.iter = len ∧
      c'.tree.prefixMap = PrefixMap.insert c.pageSize c.tree.prefixMap key.ns key.iter
        fun u => lastPage c.pageSize u.length slots := by
  obtain ⟨c1, g1, node, hr, hmem, hpath, hns, hgrown⟩ := hi.grown
  have hle := hi.le.trans (floor_le _ _)
  have h1 := hr.wellFormed h
  have hfound := found_eq_of_reshape h hr hmem hle hpath hns hi.longest
  have hlen : (g1.path node).length = len := by
    rw [hpath, length_take, length_iter, min_eq_left hle]
  have hdvd : c.pageSize ∣ len := by
    have := h1.page_dvd_path hmem
    rwa [hlen, hr.pageSize] at this
  -- pages of the key up to `len` are there
  have hthere : ∀ u, u <+: key.iter → IsPages c.pageSize u → u.length ≤ len →
      (c.tree.prefixMap key.ns u).isSome := by
    intro u hu hp hul
    have hh :=
      holds_take h1 hmem hle hpath hns (length_pos_iff.mpr hp.1) hul
      (by rw [hr.pageSize]; exact hp.2)
    rw [← prefix_iff_eq_take.mp hu] at hh
    exact h.prefixMap_isSome.mpr ⟨_, (hr.holds h _ _ _).mp hh⟩
  rcases hgrown with ⟨hfull, rfl, rfl⟩ | ⟨key', value', hiter, hns', hvalue, hcan, hgraft, rfl⟩
  · refine ⟨h1, hfound, ?_⟩
    rw [hr.prefixMap h]
    funext ns u
    unfold PrefixMap.insert
    cases hm : c.tree.prefixMap ns u with
    | some page => rfl
    | none =>
      rw [none_or, if_neg]
      rintro ⟨rfl, hp, hu⟩
      have hul := le_floor hp.2 (hu.length_le.trans_eq key.length_iter)
      have := hthere u hu hp (by omega)
      rw [hm] at this
      cases this
  have h' : WellFormed c'.tree (g1.graft c1.tree node key' value') := by
    rw [hgraft.tree]
    exact h1.graft hcan
  refine ⟨h', hfound, ?_⟩
  have hwhole : g1.path node ++ key'.iter = key.iter.take (floor c.pageSize key.len) := by
    rw [hpath, hiter, ← min_eq_left hi.le, ← take_take, min_eq_left hi.le, take_append_drop]
  have hpage : ∀ u, u <+: key.iter → IsPages c.pageSize u → len < u.length →
      lastPage c.pageSize u.length (g1.vals node ++ value') =
      lastPage c.pageSize u.length slots := by
    intro u hu hp hlt
    have hul := le_floor hp.2 (hu.length_le.trans_eq key.length_iter)
    apply lastPage_drop (add_page_le hdvd hp.2 hlt)
    rw [drop_take, drop_left' ((h1.length_vals hmem).trans hlen), hvalue,
      ← drop_take, take_take, min_eq_left hul]
  funext ns u
  apply Option.ext
  intro page
  rw [h'.prefixMap_eq_some, hgraft.tree, holds_graft h1 hcan, hr.holds h,
    hwhole, hlen, hns', hr.pageSize]
  unfold PrefixMap.insert
  cases hm : c.tree.prefixMap ns u with
  | some page' =>
    have hh' := h.prefixMap_eq_some.mp hm
    rw [some_or, some.injEq]
    constructor
    · rintro (hh | ⟨rfl, hu, _, hlt, _⟩)
      · exact h.holds_unique hh' hh
      · have := hi.longest u page' hh' (hu.trans ( take_prefix _ _))
        omega
    · rintro rfl
      exact .inl hh'
  | none =>
    have hnone : ¬ Holds c.tree ns u page := fun hh => by
      rw [h.prefixMap_eq_some.mpr hh] at hm
      cases hm
    rw [none_or, ite_none_right_eq_some, some.injEq]
    constructor
    · rintro (hh | ⟨rfl, hu, hp, hlt, rfl⟩)
      · exact absurd hh hnone
      · have hu := hu.trans ( take_prefix _ _)
        exact ⟨⟨rfl, hp, hu⟩, (hpage u hu hp hlt).symm⟩
    · rintro ⟨⟨rfl, hp, hu⟩, rfl⟩
      have hlt : len < u.length := by
        by_contra hle
        have := hthere u hu hp (not_lt.mp hle)
        rw [hm] at this
        cases this
      have hul := le_floor hp.2 (hu.length_le.trans_eq key.length_iter)
      refine .inr ⟨rfl, prefix_of_prefix_length_le hu ( take_prefix _ _) ?_,
        hp, hlt, (hpage u hu hp hlt).symm⟩
      rw [length_take, length_iter, min_eq_left (floor_le _ _)]
      exact hul

end Map

variable {freed : List (List Slot)}

lemma Evicted.evicts (he : Evicted c g c' g' freed) (h : WellFormed c.tree g) :
    Evicts c.tree.prefixMap c'.tree.prefixMap := by
  have h' := he.wellFormed h
  have hpage : c'.tree.pageSize = c.tree.pageSize := congrArg CacheInitParams.pageSize he.params
  have hv' := h'.valid_prefixMap
  rw [hpage] at hv'
  exact evicts_of_valid h.valid_prefixMap hv' fun ns u page hm =>
    h.prefixMap_eq_some.mpr (he.holds h (h'.prefixMap_eq_some.mp hm))

lemma Sane.not_holds (hs : Sane c g) (hoff : c.disable = true) (ns : Namespace) (u : List KeyUnit)
    (page : List Slot) : ¬ Holds c.tree ns u page := by
  intro hh
  obtain ⟨n, hn, hroot, _⟩ := hs.wf.holds_iff.mp hh
  rw [hs.off hoff] at hn
  exact hroot (Finset.mem_singleton.mp hn)

lemma Sane.found_off (hs : Sane c g) (hoff : c.disable = true) (ns : Namespace) (q : List KeyUnit) :
    found c.tree.prefixMap ns q = 0 := by
  refine found_eq _ _ _ _ (Nat.zero_le _) (.inl rfl) ?_
  intro u _ hsome
  obtain ⟨page, hh⟩ := hs.wf.prefixMap_isSome.mp hsome
  exact absurd hh (hs.not_holds hoff ns u page)

lemma length_prefixMap (h : WellFormed c.tree g) {ns : Namespace} {u : List KeyUnit}
    {page : List Slot} (hm : c.tree.prefixMap ns u = some page) : page.length = c.pageSize := by
  obtain ⟨n, hn, _, _, hu, hp, rfl⟩ := h.holds_iff.mp (h.prefixMap_eq_some.mp hm)
  have hle := hu.length_le
  have hpage := Nat.le_of_dvd (length_pos_iff.mpr hp.1) hp.2
  rw [lastPage, length_drop, length_take, h.length_vals hn]
  show min u.length _ - (u.length - c.tree.pageSize) = c.tree.pageSize
  omega

/-! ### One call -/

/-- What a call is for, on the map. -/
inductive MapStep (params : CacheInitParams) (m : PMap Namespace KeyUnit (List Slot)) :
    CacheOp → CacheOut → PMap Namespace KeyUnit (List Slot) → Prop
  | insert (now : Int) (p : InsertParams) : MapStep params m (.insert now p)
      (.inserted (found m (p.key.view params.isEagle).ns (p.key.view params.isEagle).iter))
      (if params.disable then m
      else PrefixMap.insert params.pageSize m (p.key.view params.isEagle).ns
        (p.key.view params.isEagle).iter
        fun u => lastPage params.pageSize u.length p.slots)
  | matchPrefix (now : Int) (key : RadixKey) (r : MatchResult) :
      r.deviceIndices = (lookup params.pageSize m (key.view params.isEagle).ns
        (key.view params.isEagle).iter).flatten →
      MapStep params m (.matchPrefix now key) (.matched r) m
  | incLockRef (node : NodeId) (delta : Int) : MapStep params m (.incLockRef node) (.locked delta) m
  | decLockRef (node : NodeId) (delta : Int) : MapStep params m (.decLockRef node) (.locked delta) m
  | evict (numTokens n : Nat) (freed : List (List Slot)) (m' : PMap Namespace KeyUnit (List Slot)) :
      Evicts m m' → MapStep params m (.evict numTokens) (.evicted n freed) m'

lemma Sane.climb {edge step : Int} {n : NodeId} (hs : Sane c g) (hc : Climb edge step g c n c') :
    Sane c' g := by
  refine ⟨by rw [hc.tree]; exact hs.wf, hc.leafSound hs.leaf, ?_⟩
  rw [hc.params, hc.tree]
  exact hs.off

variable {key : RadixKey} {len : Nat} {slots : List Slot}

lemma Inserted.params (hi : Inserted c g key slots c' g' len) :
    c'.toCacheInitParams = c.toCacheInitParams := by
  obtain ⟨c1, g1, node, hr, _, _, _, ⟨_, rfl, _⟩ | ⟨_, _, _, _, _, _, hgraft, _⟩⟩ := hi.grown
  · exact hr.params
  · exact hgraft.params.trans hr.params

lemma Inserted.leafSound
    (hi : Inserted c g key slots c' g' len) (h : WellFormed c.tree g) (hl : LeafSound c g) :
    LeafSound c' g' := by
  obtain ⟨c1, g1, node, hr, _, _, _, ⟨_, rfl, rfl⟩ | ⟨_, _, _, _, _, hcan, hgraft, rfl⟩⟩ := hi.grown
  · exact hl.reshape h hr
  · exact (hl.reshape h hr).graft (hr.wellFormed h) hcan hgraft

lemma Sane.evicted (hs : Sane c g) (he : Evicted c g c' g' freed) : Sane c' g' := by
  have h' := he.wellFormed hs.wf
  refine ⟨h', he.leafSound hs.leaf, ?_⟩
  intro hd
  rw [he.params] at hd
  have hsub := he.live_subset
  rw [hs.off hd, ← he.root] at hsub
  exact Finset.eq_singleton_iff_unique_mem.mpr ⟨h'.root_mem,
    fun n hn => Finset.mem_singleton.mp (hsub hn)⟩

lemma apply_step (hs : Sane c g) {op : CacheOp} (ha : Allowed c op) :
    ∃ c' out g', c.apply op = some (c', out) ∧ Sane c' g' ∧
    c'.toCacheInitParams = c.toCacheInitParams ∧
      MapStep c.toCacheInitParams c.tree.prefixMap op out c'.tree.prefixMap := by
  cases op with
  | insert now p =>
    by_cases hdis : c.disable = true
    · refine ⟨c, .inserted 0, g, by simp [apply, insert, hdis], hs, rfl, ?_⟩
      have hstep := @MapStep.insert c.toCacheInitParams c.tree.prefixMap now p
      rwa [hs.found_off hdis, if_pos hdis] at hstep
    have hon : c.disable = false := by simpa using hdis
    obtain ⟨c', g', len, heq, hi⟩ := insert_spec now p hs.wf hon
    obtain ⟨h', hfound, hmap⟩ := hi.prefixMap hs.wf
    refine ⟨c', .inserted len, g',
      by rw [apply, heq]; rfl, ⟨h', hi.leafSound hs.wf hs.leaf, ?_⟩, hi.params, ?_⟩
    · intro hd
      rw [hi.params] at hd
      exact absurd hd hdis
    · have hstep := @MapStep.insert c.toCacheInitParams c.tree.prefixMap now p
      rwa [hfound, if_neg hdis, ← hmap] at hstep
  | matchPrefix now key =>
    by_cases hdis : c.disable = true
    · refine ⟨c, _, g,
        by rw [apply, matchPrefix_off now key hdis]; rfl, hs, rfl, .matchPrefix _ _ _ ?_⟩
      rw [PrefixMap.lookup, hs.found_off hdis]
      simp
    · have hon : c.disable = false := by simpa using hdis
      obtain ⟨c', r, g', len, heq, hm⟩ := matchPrefix_spec now key hs.wf hon
      refine ⟨c', .matched r, g',
        by rw [apply, heq]; rfl, hs.reshape hm.reshape fun hd => absurd hd hdis, hm.reshape.params, ?_⟩
      rw [hm.reshape.prefixMap hs.wf]
      exact .matchPrefix _ _ _ (hm.lookup hs.wf)
  | incLockRef n =>
    by_cases hdis : c.disable = true
    · exact ⟨c, .locked 0, g, by simp [apply, incLockRef, hdis], hs, rfl, .incLockRef _ _⟩
    · obtain ⟨c', d, heq, hc⟩ :=
        incLockRef_spec hs.wf ((inTree_iff hs.wf).mp ha) (by simpa using hdis)
      refine ⟨c', .locked d, g, by rw [apply, heq]; rfl, hs.climb hc, hc.params, ?_⟩
      rw [hc.tree]
      exact .incLockRef _ _
  | decLockRef n =>
    by_cases hdis : c.disable = true
    · exact ⟨c, .locked 0, g, by simp [apply, decLockRef, hdis], hs, rfl, .decLockRef _ _⟩
    · obtain ⟨c', d, heq, hc⟩ :=
        decLockRef_spec hs.wf ((inTree_iff hs.wf).mp ha) (by simpa using hdis)
      refine ⟨c', .locked d, g, by rw [apply, heq]; rfl, hs.climb hc, hc.params, ?_⟩
      rw [hc.tree]
      exact .decLockRef _ _
  | evict k =>
    obtain ⟨c', g', fs, heq, he⟩ := evict_spec k hs.wf hs.leaf
    exact ⟨c', _, g',
      by rw [apply, heq]; rfl, hs.evicted he, he.params, .evict _ _ _ _ (he.evicts hs.wf)⟩

/-! ### Runs -/

/-- The calls made since the cache was created, with what they returned. -/
inductive Run (params : CacheInitParams) (start : Int) :
    List (CacheOp × CacheOut) → RadixCache → Prop
  | nil : Run params start [] (create params start)
  | snoc {calls : List (CacheOp × CacheOut)} {c c' : RadixCache} {op : CacheOp} {out : CacheOut} :
    Run params start calls c → Allowed c op → c.apply op = some (c', out) →
      Run params start (calls ++ [(op, out)]) c'

/-- The same calls, on a map. -/
inductive MapRun (params : CacheInitParams) :
    List (CacheOp × CacheOut) → PMap Namespace KeyUnit (List Slot) → Prop
  | nil : MapRun params [] PrefixMap.empty
  | snoc {calls : List (CacheOp × CacheOut)} {m m' : PMap Namespace KeyUnit (List Slot)}
      {op : CacheOp}
    {out : CacheOut} : MapRun params calls m → MapStep params m op out m' →
      MapRun params (calls ++ [(op, out)]) m'

lemma prefixMap_create (params : CacheInitParams) (start : Int) :
    (create params start).tree.prefixMap = PrefixMap.empty := by
  have hs :=
    sane_reset ⟨params, fun _ => {lastAccessTime := 0, creationTime := 0}, 0, 0, 0, 0, []⟩ start
  funext ns u
  refine eq_none_iff_forall_ne_some.mpr fun page hm => ?_
  obtain ⟨n, hn, hroot, _⟩ := hs.wf.holds_iff.mp (hs.wf.prefixMap_eq_some.mp hm)
  exact hroot (Finset.mem_singleton.mp hn)

variable {start : Int} {calls : List (CacheOp × CacheOut)}

lemma run_sane {params : CacheInitParams} (hrun : Run params start calls c) :
    (∃ g, Sane c g) ∧ c.toCacheInitParams = params ∧ MapRun params calls c.tree.prefixMap := by
  induction hrun with
  | nil => exact ⟨⟨_, sane_reset _ start⟩, rfl, by rw [prefixMap_create]; exact .nil⟩
  | snoc _ ha heq ih =>
    obtain ⟨⟨g, hs⟩, hparams, hmap⟩ := ih
    obtain ⟨c', out, g', heq', hs', hparams', hstep⟩ := apply_step hs ha
    rw [heq] at heq'
    cases heq'
    exact ⟨⟨g', hs'⟩, hparams'.trans hparams, hmap.snoc (hparams ▸ hstep)⟩

/-- The parts of a result, without running what gives it. -/
lemma eq_some_get {α β : Type} {o : Option (α × β)} (h : o.isSome) :
    o = some ((o.get h).1, (o.get h).2) :=
  (some_get h).symm

lemma Run.next {params : CacheInitParams}
    (hrun : Run params start calls c) {op : CacheOp} (ha : Allowed c op)
    (hsome : (c.apply op).isSome) :
    Run params start (calls ++ [(op, ((c.apply op).get hsome).2)]) ((c.apply op).get hsome).1 :=
  hrun.snoc ha (eq_some_get hsome)

/-- **A radix cache refines a prefix map.** In every run the tree stands for a map whose entries are
pages, the calls so far are calls on that map, and whatever is called next returns and does to the
map what the call is for. -/
theorem run_refines_prefixMap {params : CacheInitParams} {start : Int}
    {calls : List (CacheOp × CacheOut)} {c : RadixCache} (hrun : Run params start calls c) :
    MapRun params calls c.tree.prefixMap ∧ Valid params.pageSize c.tree.prefixMap ∧
      (∀ ns u page, c.tree.prefixMap ns u = some page → page.length = params.pageSize) ∧
      ∀ op, Allowed c op → ∃ c' out, c.apply op = some (c', out) ∧
      MapStep params c.tree.prefixMap op out c'.tree.prefixMap := by
  obtain ⟨⟨g, hs⟩, rfl, hmap⟩ := run_sane hrun
  refine ⟨hmap, hs.wf.valid_prefixMap, fun ns u page hm => length_prefixMap hs.wf hm, ?_⟩
  intro op ha
  obtain ⟨c', out, _, heq, _, _, hstep⟩ := apply_step hs ha
  exact ⟨c', out, heq, hstep⟩

/-- Pages of two units; one key is inserted and another that shares its first page is looked up,
which splits the node. -/
theorem run_refines_prefixMap_split : ∃ calls c,
    Run {pageSize := 2, pageSize_pos := by decide} 0 calls c ∧ calls.length = 2 ∧
      MapRun {pageSize := 2, pageSize_pos := by decide} calls c.tree.prefixMap := by
  have run0 : Run {pageSize := 2, pageSize_pos := by decide} 0 [] _ := .nil
  have run1 := @Run.next _ _ _ _ run0
    (.insert 1 ⟨{tokenIds := [1, 2, 3, 4]}, some [10, 11, 12, 13], false, 0, by simp [len]⟩) trivial
    (by decide +kernel)
  have run2 :=
    @Run.next _ _ _ _ run1 (.matchPrefix 2 {tokenIds := [1, 2, 5, 6]}) trivial (by decide +kernel)
  exact ⟨_, _, run2, rfl, (run_refines_prefixMap run2).1⟩

/-! ### Balanced locks -/

/-- Runs in which a lock is given back once for each time it was taken; `locks` are the nodes of
the locks outstanding. -/
inductive LockedRun (start : Int) : List NodeId → RadixCache → Prop
  | reset (c : RadixCache) : LockedRun start [] (c.reset start)
  | insert {locks : List NodeId} {c c' : RadixCache} {now : Int} {params : InsertParams} {n : Nat} :
    LockedRun start locks c → c.insert now params = some (c', n) → LockedRun start locks c'
  | matchPrefix {locks : List NodeId} {c c' : RadixCache} {now : Int} {key : RadixKey}
      {r : MatchResult} :
    LockedRun start locks c → c.matchPrefix now key = some (c', r) → LockedRun start locks c'
  | evict {locks : List NodeId} {c c' : RadixCache} {numTokens n : Nat} {freed : List (List Slot)} :
    LockedRun start locks c → c.evict numTokens = some (c', n, freed) → LockedRun start locks c'
  | lock {locks : List NodeId} {c c' : RadixCache} {node : NodeId} {delta : Int} :
    LockedRun start locks c → c.InTree node → c.incLockRef node = some (c', delta) →
      LockedRun start (node :: locks) c'
  | unlock {locks : List NodeId} {c c' : RadixCache} {node : NodeId} {delta : Int} :
    LockedRun start locks c → node ∈ locks → c.decLockRef node = some (c', delta) →
      LockedRun start (locks.erase node) c'

/-- Everything the representation keeps. -/
structure Sound (c : RadixCache) (g : Shape) (locks : List NodeId) : Prop where
  wf : WellFormed c.tree g
  books : Books c g
  locks : LockCount c g locks
  off : c.disable = true → g.live = {c.tree.root}

variable {locks : List NodeId}

lemma Sound.sane (hs : Sound c g locks) : Sane c g :=
  ⟨hs.wf, hs.books.leafSound, hs.off⟩

lemma sound_reset (c : RadixCache) (now : Int) : Sound (c.reset now) (emptyShape c.counter) [] := by
  obtain ⟨hwf, hleaf, hoff⟩ := sane_reset c now
  have hempty : (emptyShape c.counter).live.erase (c.reset now).tree.root = ∅ := by
    show ({c.counter} : Finset NodeId).erase c.counter = ∅
    simp
  refine ⟨hwf, ⟨hleaf.root_lock, ?_, ?_, ?_, hleaf.nodup, ?_⟩, ⟨fun _ hl => (nomatch hl), ?_⟩, hoff⟩
  · intro n hn
    obtain rfl : n = (c.reset now).tree.root := Finset.mem_singleton.mp hn
    rw [hleaf.root_lock]
    decide
  · rw [sizeWhere, nodeSum, hempty]
    rfl
  · rw [sizeWhere, nodeSum, hempty]
    rfl
  · intro n
    constructor
    · intro hn
      cases hn
    · rintro ⟨hn, hroot, _⟩
      exact absurd (Finset.mem_singleton.mp hn) hroot
  · intro n hn hroot
    exact absurd (Finset.mem_singleton.mp hn) hroot

section
variable (hs : Sound c g locks)
include hs

lemma Sound.inserted (hon : c.disable = false) (hi : Inserted c g key slots c' g' len) :
    Sound c' g' locks := by
  obtain ⟨h', _, _⟩ := hi.prefixMap hs.wf
  have hoff : c'.disable = true → g'.live = {c'.tree.root} := by
    intro hd
    rw [hi.params, hon] at hd
    cases hd
  obtain ⟨c1, g1, node, hr, _, _, _, hgrown⟩ := hi.grown
  have hb := hs.books.reshape hs.wf hr
  have hk := hs.locks.reshape hs.wf hr
  rcases hgrown with ⟨_, rfl, rfl⟩ | ⟨_, _, _, _, _, hcan, hgraft, rfl⟩
  · exact ⟨h', hb, hk, hoff⟩
  · have h1 := hr.wellFormed hs.wf
    exact ⟨h', hb.graft h1 hcan hgraft, hk.graft h1 hcan hgraft, hoff⟩

lemma Sound.insert {now : Int} {params : InsertParams} {n : Nat}
    (heq : c.insert now params = some (c', n)) : ∃ g', Sound c' g' locks := by
  by_cases hdis : c.disable = true
  · obtain ⟨rfl, _⟩ : c = c' ∧ 0 = n := by simpa [RadixCache.insert, hdis] using heq
    exact ⟨g, hs⟩
  · have hon : c.disable = false := by simpa using hdis
    obtain ⟨c'', g', len, heq', hi⟩ := insert_spec now params hs.wf hon
    rw [heq] at heq'
    cases heq'
    exact ⟨g', hs.inserted hon hi⟩

lemma Sound.reshape (hon : c.disable = false) (hr : Reshape c g c' g') : Sound c' g' locks :=
  ⟨hr.wellFormed hs.wf, hs.books.reshape hs.wf hr, hs.locks.reshape hs.wf hr,
    (hs.sane.reshape hr fun hd => by rw [hon] at hd; cases hd).off⟩

lemma Sound.matchPrefix {now : Int} {r : MatchResult} (heq : c.matchPrefix now key = some (c', r)) :
    ∃ g', Sound c' g' locks := by
  by_cases hdis : c.disable = true
  · rw [matchPrefix_off now key hdis] at heq
    obtain ⟨rfl, _⟩ := Prod.mk.inj (some.inj heq)
    exact ⟨g, hs⟩
  · have hon : c.disable = false := by simpa using hdis
    obtain ⟨c'', r', g', len, heq', hm⟩ := matchPrefix_spec now key hs.wf hon
    rw [heq] at heq'
    cases heq'
    exact ⟨g', hs.reshape hon hm.reshape⟩

lemma Sound.evict {numTokens n : Nat}
    (heq : c.evict numTokens = some (c', n, freed)) :
    ∃ g', Sound c' g' locks ∧ Evicted c g c' g' freed := by
  obtain ⟨c'', g', fs, heq', he⟩ := evict_spec numTokens hs.wf hs.books.leafSound
  cases heq'.symm.trans heq
  exact ⟨g', ⟨he.wellFormed hs.wf, he.books hs.wf hs.books, he.lockCount hs.wf hs.books hs.locks,
    (hs.sane.evicted he).off⟩, he⟩

end

lemma LockCount.lock (hk : LockCount c g locks) (h : WellFormed c.tree g)
    (hn : node ∈ g.live) (hc : Climb 0 1 g c node c') : LockCount c' g (node :: locks) := by
  refine ⟨fun l hl => (mem_cons.mp hl).elim (fun hln => hln ▸ hn) (hk.live l), ?_⟩
  intro m hm hroot
  rw [hc.tree] at hroot ⊢
  rw [hc.lockRef h hm, hk.count m hm hroot, countP_cons]
  simp only [hroot, ne_eq, not_false_eq_true, true_and, decide_eq_true_eq]
  split <;> simp

lemma LockCount.unlock (hk : LockCount c g locks)
    (h : WellFormed c.tree g) (hmem : node ∈ locks) (hc : Climb 1 (-1) g c node c') :
    LockCount c' g (locks.erase node) := by
  refine ⟨fun l hl => hk.live l (mem_of_mem_erase hl), ?_⟩
  intro m hm hroot
  rw [hc.tree] at hroot ⊢
  rw [hc.lockRef h hm, hk.count m hm hroot, (perm_cons_erase hmem).countP_eq, countP_cons]
  simp only [hroot, ne_eq, not_false_eq_true, true_and, decide_eq_true_eq]
  split <;> simp

lemma LockCount.pos {m : NodeId} (hk : LockCount c g locks) (hmem : node ∈ locks)
    (hm : m ∈ g.live) (hroot : m ≠ c.tree.root) (hcov : Covers c.tree g m node) :
    1 ≤ c.lockRef m := by
  rw [hk.count m hm hroot]
  have : 0 < locks.countP fun l => Covers c.tree g m l :=
    countP_pos_iff.mpr ⟨node, hmem, by simpa using hcov⟩
  omega

section
variable (hs : Sound c g locks)
include hs

lemma Sound.perm {locks' : List NodeId} (hp : locks.Perm locks') : Sound c g locks' := by
  refine ⟨hs.wf, hs.books, ⟨fun l hl => hs.locks.live l (hp.mem_iff.mpr hl), fun n hn hroot => ?_⟩,
    hs.off⟩
  rw [hs.locks.count n hn hroot, hp.countP_eq]

/-- A cache that is switched off has no node whose locks count. -/
lemma Sound.of_off {locks' : List NodeId} (hdis : c.disable = true)
    (hlive : ∀ l ∈ locks', l ∈ g.live) : Sound c g locks' := by
  refine ⟨hs.wf, hs.books, ⟨hlive, fun m hm hroot => ?_⟩, hs.off⟩
  rw [hs.off hdis] at hm
  exact absurd (Finset.mem_singleton.mp hm) hroot

lemma Sound.lock {delta : Int}
    (hn : node ∈ g.live) (heq : c.incLockRef node = some (c', delta)) :
    Sound c' g (node :: locks) := by
  by_cases hdis : c.disable = true
  · obtain ⟨rfl, _⟩ : c = c' ∧ 0 = delta := by simpa [incLockRef, hdis] using heq
    exact hs.of_off hdis fun l hl => (mem_cons.mp hl).elim (fun hln => hln ▸ hn) (hs.locks.live l)
  · obtain ⟨c'', d, heq', hc⟩ := incLockRef_spec hs.wf hn (by simpa using hdis)
    rw [heq] at heq'
    cases heq'
    have hb := hc.books hs.wf hs.books fun _ _ _ _ => .inl ⟨rfl, rfl⟩
    exact ⟨by rw [hc.tree]; exact hs.wf, hb, hs.locks.lock hs.wf hn hc, (hs.sane.climb hc).off⟩

lemma Sound.unlock {delta : Int}
    (hmem : node ∈ locks) (heq : c.decLockRef node = some (c', delta)) :
    Sound c' g (locks.erase node) := by
  by_cases hdis : c.disable = true
  · obtain ⟨rfl, _⟩ : c = c' ∧ 0 = delta := by simpa [decLockRef, hdis] using heq
    exact hs.of_off hdis fun l hl => hs.locks.live l (mem_of_mem_erase hl)
  · obtain ⟨c'', d, heq', hc⟩ :=
      decLockRef_spec hs.wf (hs.locks.live node hmem) (by simpa using hdis)
    rw [heq] at heq'
    cases heq'
    have hb := hc.books hs.wf hs.books fun m hm hroot hcov =>
      .inr ⟨rfl, rfl, hs.locks.pos hmem hm hroot hcov⟩
    exact ⟨by rw [hc.tree]; exact hs.wf, hb, hs.locks.unlock hs.wf hmem hc, (hs.sane.climb hc).off⟩

omit hs in
lemma lockedRun_sound (hrun : LockedRun start locks c) : ∃ g, Sound c g locks := by
  induction hrun with
  | reset c => exact ⟨_, sound_reset c start⟩
  | insert _ heq ih => exact ih.elim fun _ hs => hs.insert heq
  | matchPrefix _ heq ih => exact ih.elim fun _ hs => hs.matchPrefix heq
  | evict _ heq ih =>
    obtain ⟨g, hs⟩ := ih
    obtain ⟨g', hs', _⟩ := hs.evict heq
    exact ⟨g', hs'⟩
  | lock _ hin heq ih =>
    obtain ⟨g, hs⟩ := ih
    exact ⟨g, hs.lock ((inTree_iff hs.wf).mp hin) heq⟩
  | unlock _ hmem heq ih => exact ih.elim fun g hs => ⟨g, hs.unlock hmem heq⟩

open Classical in
/-- The nodes of the tree. -/
noncomputable def treeNodes (c : RadixCache) : Finset NodeId :=
  (Finset.range c.counter).filter c.InTree

open Classical in
/-- The representation invariant, said of the cache alone. -/
structure RepInvariant (c : RadixCache) (locks : List NodeId) : Prop where
  mem_treeNodes : ∀ n, n ∈ c.treeNodes ↔ c.InTree n
  key : ∀ n, c.InTree n → n ≠ c.rootNode →
    0 < (c.nodes n).key.len ∧ (c.nodes n).value.length = (c.nodes n).key.len ∧
    c.pageSize ∣ (c.nodes n).key.len
  stored : ∀ n, c.InTree n → n ≠ c.rootNode → ∃ p, c.InTree p ∧ (c.nodes n).parent = some p ∧
    (c.nodes p).children.lookup ((c.nodes n).key.childKey c.pageSize) = some n
  entry : ∀ p k n, c.InTree p → (c.nodes p).children.lookup k = some n →
    (c.nodes n).parent = some p ∧ (c.nodes n).key.childKey c.pageSize = k
  siblings : ∀ p k k' n m, c.InTree p → (c.nodes p).children.lookup k = some n →
    (c.nodes p).children.lookup k' = some m → n ≠ m →
    (c.nodes n).key.upto c.pageSize ≠ (c.nodes m).key.upto c.pageSize
  lockRef : ∀ n, c.InTree n → n ≠ c.rootNode → (c.nodes n).lockRef = locks.countP fun l =>
    Subtree c.tree n l
  evictableSize : c.evictableSize = ∑ n ∈ c.treeNodes with n ≠ c.rootNode ∧
    (c.nodes n).lockRef = 0, ((c.nodes n).key.len : Int)
  protectedSize : c.protectedSize = ∑ n ∈ c.treeNodes with n ≠ c.rootNode ∧
    0 < (c.nodes n).lockRef, ((c.nodes n).key.len : Int)
  evictableLeaves : c.evictableLeaves.Nodup ∧ ∀ n, n ∈ c.evictableLeaves ↔
    c.InTree n ∧ n ≠ c.rootNode ∧ (c.nodes n).children.entries = [] ∧ (c.nodes n).lockRef = 0

open Classical in
lemma Sound.treeNodes : c.treeNodes = g.live := by
  ext n
  rw [RadixCache.treeNodes, Finset.mem_filter, Finset.mem_range, inTree_iff hs.wf]
  exact ⟨fun hn => hn.2, fun hn => ⟨hs.wf.lt_counter n hn, hn⟩⟩

open Classical in
lemma Sound.sum_eq (P : Int → Prop) [DecidablePred P] :
    c.sizeWhere g P = ∑ n ∈ c.treeNodes with n ≠ c.rootNode ∧ P
    (c.nodes n).lockRef, ((c.nodes n).key.len : Int) := by
  rw [hs.treeNodes, sizeWhere, nodeSum, ← Finset.sum_filter]
  apply Finset.sum_congr
  · ext n
    simp only [Finset.mem_filter, Finset.mem_erase]
    exact ⟨fun hn => ⟨hn.1.2, hn.1.1, hn.2⟩, fun hn => ⟨⟨hn.2.1, hn.1⟩, hn.2.2⟩⟩
  · exact fun _ _ => rfl

lemma Sound.repInvariant : RepInvariant c locks := by
  have hin : ∀ {n}, c.InTree n ↔ n ∈ g.live := fun {n} => inTree_iff hs.wf
  refine ⟨?_, ?_, ?_, ?_, ?_, ?_, ?_, ?_, hs.books.nodup, ?_⟩
  · intro n
    rw [hs.treeNodes, hin]
  · intro n hn hroot
    obtain ⟨p, e⟩ := hs.wf.edge n (hin.mp hn) hroot
    exact ⟨e.len_pos, e.value_len, e.aligned⟩
  · intro n hn hroot
    obtain ⟨p, e⟩ := hs.wf.edge n (hin.mp hn) hroot
    exact ⟨p, hin.mpr e.mem, e.parent, e.lookup⟩
  · intro p k n hp hk
    exact (hs.wf.child p (hin.mp hp) k n hk).2.2
  · intro p k k' n m hp hn hm hne hpage
    obtain ⟨_, _, en, _⟩ := hs.wf.edge_of_lookup (hin.mp hp) hn
    obtain ⟨_, _, em, _⟩ := hs.wf.edge_of_lookup (hin.mp hp) hm
    have hns := congrArg RadixKey.ns hpage
    have hiter := congrArg RadixKey.iter hpage
    rw [ns_upto, ns_upto] at hns
    rw [iter_upto, iter_upto] at hiter
    have hkey := (childKey_eq_iff _ _ _ hs.wf.page_pos en.page_le em.page_le).mpr ⟨hns, hiter⟩
    have := en.lookup
    rw [hkey, em.lookup] at this
    exact hne (some.inj this).symm
  · intro n hn hroot
    rw [show (c.nodes n).lockRef = c.lockRef n from rfl, hs.locks.count n (hin.mp hn) hroot]
    refine congrArg Nat.cast (countP_congr fun l hl => ?_)
    simp only [decide_eq_true_eq]
    exact (hs.wf.subtree_iff_covers (hin.mp hn) (hs.locks.live l hl) hroot).symm
  · rw [hs.books.evictable]
    exact hs.sum_eq (· = 0)
  · rw [hs.books.protected_]
    exact hs.sum_eq (0 < ·)
  · intro n
    rw [hin]
    exact hs.books.leaves n

end

/-- **The representation invariant holds throughout every run with balanced locks.** -/
theorem lockedRun_repInvariant {start : Int} {locks : List NodeId} {c : RadixCache}
    (hrun : LockedRun start locks c) : RepInvariant c locks := by
  obtain ⟨g, hs⟩ := lockedRun_sound hrun
  exact hs.repInvariant

/-- A node is locked, then split by a lookup, and an eviction finds nothing to take. -/
theorem lockedRun_repInvariant_split :
    ∃ locks c, LockedRun 0 locks c ∧ locks = [1] ∧ RepInvariant c locks := by
  have h1 : ((create {pageSize := 2, pageSize_pos := by decide} 0).insert 1
      ⟨{tokenIds := [1, 2, 3, 4]}, some [10, 11, 12, 13], false, 0, by simp [len]⟩).isSome := by
    decide +kernel
  have h2 : (incLockRef (Option.get _ h1).1 1).isSome := by decide +kernel +revert
  have h3 : (matchPrefix (Option.get _ h2).1 2 {tokenIds := [1, 2, 5, 6]}).isSome := by
    decide +kernel +revert
  have h4 : (evict (Option.get _ h3).1 9).isSome := by decide +kernel +revert
  have hin : InTree (Option.get _ h1).1 1 :=
    .single ⟨.plain (.tokens [1, 2]), by decide +kernel +revert⟩
  have run := ((((LockedRun.reset _).insert (eq_some_get h1)).lock hin (eq_some_get h2)).matchPrefix
    (eq_some_get h3)).evict (eq_some_get h4)
  exact ⟨_, _, run, rfl, lockedRun_repInvariant run⟩

end RadixCache

end Sglang.MemCache
