import Sglang.Lib.PrefixMap
import Sglang.MemCache.RadixTree

/-! What a radix tree holds, as a map from paged prefixes.

`Reads` follows the dictionaries from the root and collects units and slots; a prefix
holds the slots of its last page. On a well-formed tree this is a map, closed under
shorter prefixes. A split leaves it alone, a new leaf adds the pages of its key, and
losing a leaf loses pages at the end of its label. -/
namespace Sglang.MemCache

open List
open Prefix PrefixMap Shape

/-- The units and slots collected on the way from the root to a node. -/
inductive Reads (t : Tree) : NodeId → List KeyUnit → List Slot → Prop
  | root : Reads t t.root [] []
  | child {p n : NodeId} {us : List KeyUnit} {vs : List Slot} (k : ChildKey) :
    Reads t p us vs → (t.node p).children.lookup k = some n →
      Reads t n (us ++ (t.node n).key.iter) (vs ++ (t.node n).value)

/-- The last page of the first `len` slots. -/
def lastPage (pageSize len : Nat) (vs : List Slot) : List Slot :=
  (vs.take len).drop (len - pageSize)

/-- A prefix is in the tree, with these slots for its last page. -/
def Holds (t : Tree) (ns : Namespace) (u : List KeyUnit) (page : List Slot) : Prop :=
  ∃ n us vs, Reads t n us vs ∧ n ≠ t.root ∧ (t.node n).key.ns = ns ∧ u <+: us ∧
    IsPages t.pageSize u ∧
    page = lastPage t.pageSize u.length vs

open Classical in
/-- The map a tree stands for. -/
noncomputable def Tree.prefixMap (t : Tree) : PMap Namespace KeyUnit (List Slot) := fun ns u =>
  if h : ∃ page, Holds t ns u page then some h.choose else none

variable {page : List Slot} {u : List KeyUnit} {ns : Namespace}

lemma Holds.dvd {t : Tree} (hh : Holds t ns u page) : t.pageSize ∣ u.length := by
  obtain ⟨_, _, _, _, _, _, _, hp, _⟩ := hh
  exact hp.2

lemma Holds.length_pos {t : Tree} (hh : Holds t ns u page) : 0 < u.length := by
  obtain ⟨_, _, _, _, _, _, _, hp, _⟩ := hh
  exact length_pos_iff.mpr hp.1

lemma lastPage_prefix {pageSize len : Nat} {vs ws : List Slot} (h : vs <+: ws)
    (hlen : len ≤ vs.length) :
    lastPage pageSize len vs = lastPage pageSize len ws := by
  obtain ⟨rest, rfl⟩ := h
  rw [lastPage, lastPage, take_append_of_le_length hlen]

variable {t : Tree} {g : Shape} {p : NodeId}

namespace WellFormed

lemma reads_iff (h : WellFormed t g) {n : NodeId} {us : List KeyUnit} {vs : List Slot} :
    Reads t n us vs ↔ n ∈ g.live ∧ us = g.path n ∧ vs = g.vals n := by
  constructor
  · intro hr
    induction hr with
    | root => exact ⟨h.root_mem, h.root_path.symm, h.root_vals.symm⟩
    | child k _ hk ih =>
      obtain ⟨hp, rfl, rfl⟩ := ih
      obtain ⟨hn, _, e, _⟩ := h.edge_of_lookup hp hk
      exact ⟨hn, e.path.symm, e.vals.symm⟩
  · rintro ⟨hn, rfl, rfl⟩
    induction h.subtree_root hn with
    | refl =>
      rw [h.root_path, h.root_vals]
      exact .root
    | @tail p n hp hk ih =>
      obtain ⟨hp, _⟩ := h.subtree_spec h.root_mem hp
      obtain ⟨k, hk⟩ := hk
      obtain ⟨_, _, e, _⟩ := h.edge_of_lookup hp hk
      rw [e.path, e.vals]
      exact .child k (ih hp) hk

variable {u : List KeyUnit} {ns : Namespace}

section
variable (h : WellFormed t g)
include h

lemma holds_iff :
    Holds t ns u page ↔
      ∃ n ∈ g.live, n ≠ t.root ∧ (t.node n).key.ns = ns ∧ u <+: g.path n ∧ IsPages t.pageSize u ∧
        page = lastPage t.pageSize u.length (g.vals n) := by
  constructor
  · rintro ⟨n, us, vs, hr, rest⟩
    obtain ⟨hn, rfl, rfl⟩ := h.reads_iff.mp hr
    exact ⟨n, hn, rest⟩
  · rintro ⟨n, hn, rest⟩
    exact ⟨n, _, _, h.reads_iff.mpr ⟨hn, rfl, rfl⟩, rest⟩

/-- The first node on the way to `a` whose label covers `u`. -/
lemma exists_first {a : NodeId} (ha : a ∈ g.live) (hne : u ≠ []) (hu : u <+: g.path a) :
    ∃ p x, x ∈ g.live ∧ Edge t g p x ∧ Subtree t x a ∧ (g.path p).length < u.length ∧
    u <+: g.path x := by
  induction hlen : (g.path a).length using Nat.strong_induction_on generalizing a with
  | _ len ih =>
    have hroot : a ≠ t.root := by
      rintro rfl
      rw [h.root_path, prefix_nil] at hu
      exact hne hu
    obtain ⟨p, e⟩ := h.edge a ha hroot
    by_cases hp : u.length ≤ (g.path p).length
    · have hup := prefix_of_prefix_length_le hu e.path_prefix hp
      obtain ⟨q, x, hx, ex, hs, hlt, hux⟩ := ih _ (hlen ▸ e.length_path_lt) e.mem hup rfl
      exact ⟨q, x, hx, ex, hs.tail ⟨_, e.lookup⟩, hlt, hux⟩
    · exact ⟨p, a, ha, e, .refl, by omega, hu⟩

/-- A label of whole pages that goes on past a node goes on by a page. -/
lemma page_prefix {x : NodeId} (e : Edge t g p x)
    (hu : t.pageSize ∣ u.length) (hlt : (g.path p).length < u.length) (hux : u <+: g.path x) :
    (g.path p ++ (t.node x).key.iter.take t.pageSize) <+: u := by
  have hstep : (g.path p).length + t.pageSize ≤ u.length :=
    add_page_le (h.page_dvd_path e.mem) hu hlt
  refine prefix_of_prefix_length_le e.page_prefix hux ?_
  rw [length_append, length_take]
  omega

section
variable {x q y : NodeId} (ex : Edge t g p x) (ey : Edge t g q y)
  (hns : (t.node x).key.ns = (t.node y).key.ns)
  (hu : t.pageSize ∣ u.length) (hp : (g.path p).length < u.length)
  (hq : (g.path q).length < u.length)
  (hux : u <+: g.path x) (huy : u <+: g.path y)
include ex ey hns hu hp hq hux huy

/-- The node that covers `u` first is not under the parent of another such node. -/
lemma first_not_below : ¬ (g.path p).length < (g.path q).length := by
  intro hlt
  have hpu := prefix_of_prefix_length_le ex.path_prefix hux hp.le
  have hqu := prefix_of_prefix_length_le ey.path_prefix huy hq.le
  have hqroot : q ≠ t.root := by
    rintro rfl
    simp [h.root_path] at hlt
  have hqns : (t.node q).key.ns = (t.node x).key.ns := (ey.ns.resolve_left hqroot).trans hns.symm
  have hsub := h.subtree_of_prefix ex.mem ey.mem (prefix_of_prefix_length_le hpu hqu hlt.le)
    (ex.ns.imp_right fun hpx => hpx.trans hqns.symm)
  cases hsub.cases_head with
  | inl hpq =>
    rw [hpq] at hlt
    exact lt_irrefl _ hlt
  | inr hm =>
    obtain ⟨m, ⟨k, hk⟩, hmq⟩ := hm
    obtain ⟨hmem, hmroot, em, _⟩ := h.edge_of_lookup ex.mem hk
    obtain ⟨_, hmpath, _, hmns⟩ := h.subtree_spec hmem hmq
    -- the child on the way to `q` starts with the same page as `x`, so it is `x`
    have hxm :=
      h.child_unique ex em (hqns.symm.trans (hmns.resolve_left hmroot).symm)
      (h.page_prefix ex hu hp hux)
      (em.page_prefix.trans (hmpath.trans hqu))
    have := hux.length_le
    have := hmpath.length_le
    rw [← hxm] at this
    omega

lemma first_unique : x = y := by
  have hpq := h.first_not_below ex ey hns hu hp hq hux huy
  have hqp := h.first_not_below ey ex hns.symm hu hq hp huy hux
  have hpath : g.path p = g.path q :=
    (prefix_of_prefix_length_le (prefix_of_prefix_length_le ex.path_prefix hux hp.le)
      (prefix_of_prefix_length_le ey.path_prefix huy hq.le) (by omega)).eq_of_length (by omega)
  have hroot : q = t.root → p = t.root := by
    rintro rfl
    by_contra hproot
    have := h.length_path_pos ex.mem hproot
    rw [hpath, h.root_path] at this
    exact lt_irrefl _ this
  have hpq : p = q := by
    refine h.eq_of_path ex.mem ey.mem hpath ?_
    rcases ex.ns with hproot | hpx
    · exact .inl hproot
    · rcases ey.ns with hqroot | hqy
      · exact .inl (hroot hqroot)
      · exact .inr (hpx.trans (hns.trans hqy.symm))
  subst hpq
  exact h.child_unique ex ey hns (h.page_prefix ex hu hp hux) (h.page_prefix ey hu hq huy)

end

/-- Nodes of one namespace agree on the slots of what their labels share. -/
lemma vals_agree {a b : NodeId} (ha : a ∈ g.live) (hb : b ∈ g.live)
    (hns : (t.node a).key.ns = (t.node b).key.ns) (hua : u <+: g.path a)
    (hub : u <+: g.path b) (hu : IsPages t.pageSize u) :
    (g.vals a).take u.length = (g.vals b).take u.length := by
  obtain ⟨p, x, hx, ex, hxa, hp, hux⟩ := h.exists_first ha hu.1 hua
  obtain ⟨q, y, hy, ey, hyb, hq, huy⟩ := h.exists_first hb hu.1 hub
  obtain ⟨_, _, hxvals, hxns⟩ := h.subtree_spec hx hxa
  obtain ⟨_, _, hyvals, hyns⟩ := h.subtree_spec hy hyb
  have hxns := hxns.resolve_left (h.ne_root ex)
  have hyns := hyns.resolve_left (h.ne_root ey)
  obtain rfl := h.first_unique ex ey (hxns.trans (hns.trans hyns.symm)) hu.2 hp hq hux huy
  have hlen : u.length ≤ (g.vals x).length := by
    rw [h.length_vals hx]
    exact hux.length_le
  obtain ⟨ra, hra⟩ := hxvals
  obtain ⟨rb, hrb⟩ := hyvals
  rw [← hra, ← hrb, take_append_of_le_length hlen, take_append_of_le_length hlen]

lemma holds_unique {page page' : List Slot} (hh : Holds t ns u page) (hh' : Holds t ns u page') :
    page = page' := by
  obtain ⟨a, ha, _, hans, hua, hu, rfl⟩ := h.holds_iff.mp hh
  obtain ⟨b, hb, _, hbns, hub, _, rfl⟩ := h.holds_iff.mp hh'
  rw [lastPage, lastPage, h.vals_agree ha hb (hans.trans hbns.symm) hua hub hu]

lemma prefixMap_eq_some : t.prefixMap ns u = some page ↔ Holds t ns u page := by
  unfold Tree.prefixMap
  constructor
  · intro hm
    split at hm
    · next hex =>
      cases hm
      exact hex.choose_spec
    · cases hm
  · intro hh
    have hex : ∃ page, Holds t ns u page := ⟨page, hh⟩
    rw [dif_pos hex, h.holds_unique hex.choose_spec hh]

lemma prefixMap_isSome : (t.prefixMap ns u).isSome ↔ ∃ page, Holds t ns u page := by
  rw [Option.isSome_iff_exists]
  exact exists_congr fun page => h.prefixMap_eq_some

lemma valid_prefixMap : Valid t.pageSize t.prefixMap := by
  refine ⟨?_, ?_⟩
  · intro ns u v hv
    obtain ⟨_, _, _, _, _, _, _, hu, _⟩ := h.prefixMap_eq_some.mp hv
    exact hu
  · intro ns u v w hv hw hwu
    obtain ⟨n, hn, hroot, hns, hun, _, _⟩ := h.holds_iff.mp (h.prefixMap_eq_some.mp hv)
    exact h.prefixMap_isSome.mpr ⟨_, h.holds_iff.mpr ⟨n, hn, hroot, hns, hwu.trans hun, hw, rfl⟩⟩

lemma prefixMap_congr {t' : Tree} {g' : Shape} (h' : WellFormed t' g')
    (hsame : ∀ ns u page, Holds t' ns u page ↔ Holds t ns u page) : t'.prefixMap = t.prefixMap := by
  funext ns u
  apply Option.ext
  intro page
  exact h'.prefixMap_eq_some.trans ((hsame ns u page).trans h.prefixMap_eq_some.symm)

end

end WellFormed

/-! ### What the three changes do to the map -/

section Split
variable {n : NodeId} {s : Nat}

lemma CanSplit.ns_eq (hs : CanSplit t g p n s) {q : NodeId} (hq : q ≠ t.counter) :
    ((t.split p n s).node q).key.ns = (t.node q).key.ns := by
  by_cases hqn : q = n
  · rw [hqn, Tree.split_lower hs, RadixKey.ns_since]
  · rw [(Tree.split_other t p s hq hqn).1]

lemma CanSplit.upper_prefix (hs : CanSplit t g p n s) :
    (g.split t p n s).path t.counter <+: g.path n ∧
    (g.split t p n s).vals t.counter <+: g.vals n := by
  rw [split_path_new, split_vals_new, hs.edge.path, hs.edge.vals]
  exact ⟨(prefix_append_right_inj _).mpr ( take_prefix _ _),
    (prefix_append_right_inj _).mpr ( take_prefix _ _)⟩

lemma holds_split (h : WellFormed t g) (hs : CanSplit t g p n s) (ns : Namespace) (u : List KeyUnit)
    (page : List Slot) : Holds (t.split p n s) ns u page ↔ Holds t ns u page := by
  have h' := h.split hs
  rw [h'.holds_iff, h.holds_iff]
  constructor
  · rintro ⟨q, hq, hroot, hns, hu, hpages, rfl⟩
    rcases mem_split.mp hq with rfl | hq
    · obtain ⟨hpath, hvals⟩ := hs.upper_prefix
      refine ⟨n, hs.mem, h.ne_root hs.edge, ?_, hu.trans hpath, hpages, ?_⟩
      · rw [← hns, Tree.split_new h hs, RadixKey.ns_upto]
      · apply lastPage_prefix hvals
        rw [h'.length_vals (mem_split.mpr (.inl rfl))]
        exact hu.length_le
    · have hc := h.ne_counter hq
      rw [hs.ns_eq hc] at hns
      rw [split_path hc] at hu
      rw [split_vals hc]
      exact ⟨q, hq, hroot, hns, hu, hpages, rfl⟩
  · rintro ⟨q, hq, hroot, hns, hu, hpages, rfl⟩
    have hc := h.ne_counter hq
    refine ⟨q, mem_split.mpr (.inr hq), hroot, (hs.ns_eq hc).trans hns, ?_, hpages, ?_⟩
    · rwa [split_path hc]
    · rw [split_vals hc]
      rfl

end Split

section Graft
variable {key : RadixKey} {value : List Slot}

/-- A leaf adds the pages of its label; those up to its parent are there already. -/
lemma holds_graft (h : WellFormed t g) (ha : CanGraft t g p key value)
    (ns : Namespace) (u : List KeyUnit) (page : List Slot) :
    Holds (t.graft p key value) ns u page ↔
      Holds t ns u page ∨ (ns = key.ns ∧ u <+: g.path p ++ key.iter ∧ IsPages t.pageSize u ∧
        (g.path p).length < u.length ∧ page = lastPage t.pageSize u.length
        (g.vals p ++ value)) := by
  have h' := h.graft ha
  rw [h'.holds_iff, h.holds_iff]
  constructor
  · rintro ⟨q, hq, hroot, hns, hu, hpages, rfl⟩
    rcases mem_graft.mp hq with rfl | hq
    · rw [Tree.graft_new h ha] at hns
      rw [graft_path_new] at hu
      rw [graft_vals_new]
      by_cases hlt : (g.path p).length < u.length
      · exact .inr ⟨hns.symm, hu, hpages, hlt, rfl⟩
      have hup := prefix_of_prefix_length_le hu (prefix_append _ _) (not_lt.mp hlt)
      have hproot : p ≠ t.root := by
        rintro rfl
        rw [h.root_path, prefix_nil] at hup
        exact hpages.1 hup
      refine .inl ⟨p, ha.mem, hproot, (ha.ns.resolve_left hproot).trans hns, hup, hpages, ?_⟩
      refine ( lastPage_prefix (prefix_append _ _) ?_).symm
      rw [h.length_vals ha.mem]
      exact hup.length_le
    · have hc := h.ne_counter hq
      rw [(Tree.graft_other t p key value hc).1] at hns
      rw [graft_path hc] at hu
      rw [graft_vals hc]
      exact .inl ⟨q, hq, hroot, hns, hu, hpages, rfl⟩
  · rintro (⟨q, hq, hroot, hns, hu, hpages, rfl⟩ | ⟨rfl, hu, hpages, _, rfl⟩)
    · have hc := h.ne_counter hq
      refine ⟨q, mem_graft.mpr (.inr hq), hroot, ?_, ?_, hpages, ?_⟩
      · rwa [(Tree.graft_other t p key value hc).1]
      · rwa [graft_path hc]
      · rw [graft_vals hc]
        rfl
    · refine ⟨t.counter, mem_graft.mpr (.inl rfl), (h.ne_counter h.root_mem).symm,
        ?_, ?_, hpages, ?_⟩
      · rw [Tree.graft_new h ha]
      · rwa [graft_path_new]
      · rw [graft_vals_new]
        rfl

end Graft

end Sglang.MemCache
