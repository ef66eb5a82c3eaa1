import Mathlib.Data.List.Sort
import Mathlib.Data.List.TakeDrop

/-! Recency lists.

The elements that were used last are at the front; an element that is used again is moved there.
When a whole path is moved, the deepest element first, it ends up in front in its own order and the
others keep theirs. So what stood before another element still does, and an element falls back by at
most as many places as others were used. -/
namespace Sglang.Recency

open List Option
variable {α : Type*}

section Splice
variable [DecidableEq α]

/-- An element of the list is moved to the front. -/
def splice (l : List α) (x : α) : Option (List α) := if x ∈ l then some (x :: l.erase x) else none

/-- The elements of a path are moved to the front, the last one first. -/
def spliceAll (l : List α) (path : List α) : Option (List α) := path.reverse.foldlM splice l

variable {l path : List α}

/-- The path comes first, in its order, and then the others in theirs. -/
lemma spliceAll_eq (hl : l.Nodup) (hpath : path.Nodup) (hsub : ∀ x ∈ path, x ∈ l) :
    spliceAll l path = some (path ++ l.filter (· ∉ path)) := by
  unfold spliceAll
  induction path with
  | nil => simp
  | cons x path ih =>
    obtain ⟨hx, hpath⟩ := nodup_cons.mp hpath
    obtain ⟨hxl, hsub⟩ := forall_mem_cons.mp hsub
    rw [reverse_cons, foldlM_append, ih hpath hsub]
    have hmem : x ∈ path ++ l.filter (· ∉ path) :=
      mem_append_right _ (mem_filter.mpr ⟨hxl, by simpa using hx⟩)
    have herase : (path ++ l.filter (· ∉ path)).erase x = path ++ l.filter (· ∉ x :: path) := by
      rw [List.erase_append_right _ hx, (hl.filter _).erase_eq_filter, List.filter_filter]
      refine congrArg (path ++ ·) (filter_congr fun y _ => ?_)
      by_cases hyx : y = x
      all_goals simp [hyx]
    simp only [bind_eq_bind, bind_some, foldlM_cons, foldlM_nil, splice, if_pos hmem, herase]
    rfl

lemma perm_spliced (hl : l.Nodup) (hpath : path.Nodup) (hsub : ∀ x ∈ path, x ∈ l) :
    (path ++ l.filter (· ∉ path)).Perm l := by
  refine (perm_ext_iff_of_nodup (nodup_append.mpr ⟨hpath, hl.filter _, ?_⟩) hl).mpr fun x => ?_
  · rintro x hx y hy rfl
    exact absurd hx (by simpa using (mem_filter.mp hy).2)
  · rw [mem_append, mem_filter, decide_eq_true_eq]
    constructor
    · rintro (hx | hx)
      · exact hsub x hx
      · exact hx.1
    · exact fun hx => (em (x ∈ path)).imp_right fun hn => ⟨hx, hn⟩

/-- What was among the first `k` is among the first `k` and as many more as were moved. -/
lemma mem_take_spliced {x : α} {k : Nat} (hx : x ∈ l.take k) :
    x ∈ (path ++ l.filter (· ∉ path)).take (path.length + k) := by
  rw [take_length_add_append]
  by_cases hpath : x ∈ path
  · exact mem_append_left _ hpath
  refine mem_append_right _ ?_
  have hpre : (l.take k).filter (· ∉ path) <+: l.filter (· ∉ path) := ( take_prefix k l).filter _
  have hlen : ((l.take k).filter (· ∉ path)).length ≤ k :=
    (length_filter_le _ _).trans (length_take_le _ _)
  rw [prefix_iff_eq_take] at hpre
  have hmem : x ∈ (l.take k).filter (· ∉ path) := mem_filter.mpr ⟨hx, by simpa using hpath⟩
  rw [hpre] at hmem
  exact take_subset_take_left _ hlen hmem

/-- Pairs whose first element is on the path, or whose second is not, stay in order. -/
lemma pair_sublist_spliced {a b : α} (hab : [a, b].Sublist l) (hb : b ∉ path) :
    [a, b].Sublist (path ++ l.filter (· ∉ path)) := by
  have hfilter := hab.filter (· ∉ path)
  by_cases ha : a ∈ path
  · have hmem : b ∈ l.filter (· ∉ path) :=
      mem_filter.mpr ⟨hab.subset (mem_cons_of_mem _ mem_cons_self), by simpa using hb⟩
    exact (singleton_sublist.mpr ha).append (singleton_sublist.mpr hmem)
  · have hpair : [a, b].filter (· ∉ path) = [a, b] := by simp [ha, hb]
    rw [hpair] at hfilter
    exact hfilter.trans (sublist_append_right _ _)

/-- Of two elements in order the first one has the smaller index. -/
lemma idxOf_lt_of_pair {a b : α} (hl : l.Nodup) (hab : [a, b].Sublist l) :
    l.idxOf a < l.idxOf b := by
  induction l with
  | nil => cases hab
  | cons x l ih =>
    obtain ⟨hx, hl⟩ := nodup_cons.mp hl
    cases hab with
    | cons _ hab =>
      have ha : a ≠ x := fun heq => hx (heq ▸ hab.subset mem_cons_self)
      have hb : b ≠ x := fun heq => hx (heq ▸ hab.subset (mem_cons_of_mem _ mem_cons_self))
      rw [idxOf_cons_ne _ ha.symm, idxOf_cons_ne _ hb.symm]
      exact Nat.succ_lt_succ (ih hl hab)
    | cons_cons _ hb =>
      have hb : b ≠ a := fun heq => hx (heq ▸ singleton_sublist.mp hb)
      rw [idxOf_cons_self, idxOf_cons_ne _ hb.symm]
      exact Nat.succ_pos _

end Splice

lemma pair_sublist_dropLast {l : List α} {a b x : α} (hab : [a, b].Sublist (l ++ [x]))
    (hb : b ≠ x) : [a, b].Sublist l := by
  obtain ⟨s, t, hst, hs, ht⟩ := sublist_append_iff.mp hab
  have hnil : t = [] := by
    obtain rfl | ⟨t, y, rfl⟩ := t.eq_nil_or_concat
    · rfl
    · rw [concat_eq_append] at hst ht
      have hy : y = x := mem_singleton.mp (ht.subset (mem_append_right _ mem_cons_self))
      have hlast := congrArg List.getLast? hst
      rw [← append_assoc, getLast?_concat] at hlast
      exact absurd ((some.inj hlast).trans hy) hb
  rw [hnil, append_nil] at hst
  exact hst ▸ hs

/-! ### Lists that are sorted by a rank -/

section Ranked
variable {β : Type*} [LinearOrder β] {rank : α → β}

lemma pairwise_orderedInsert {r : α → α → Prop} [DecidableRel r]
    (hr : ∀ a b, r a b ↔ rank a < rank b) {l : List α} {x : α} (hl : l.Pairwise r)
    (hx : ∀ y ∈ l, rank y ≠ rank x) : (l.orderedInsert r x).Pairwise r := by
  induction l with
  | nil => exact pairwise_singleton _ _
  | cons y l ih =>
    obtain ⟨hy, hl'⟩ := pairwise_cons.mp hl
    obtain ⟨hyx, hx⟩ := forall_mem_cons.mp hx
    rw [List.orderedInsert]
    split
    · next hxy =>
      refine pairwise_cons.mpr ⟨fun z hz => ?_, hl⟩
      obtain rfl | hz := mem_cons.mp hz
      · exact hxy
      · exact (hr x z).mpr (((hr x y).mp hxy).trans ((hr y z).mp (hy z hz)))
    · next hxy =>
      refine pairwise_cons.mpr ⟨fun z hz => ?_, ih hl' hx⟩
      obtain rfl | hz := (mem_orderedInsert r).mp hz
      · exact (hr y z).mpr (lt_of_le_of_ne (not_lt.mp fun hlt => hxy ((hr z y).mpr hlt)) hyx)
      · exact hy z hz

end Ranked

end Sglang.Recency
