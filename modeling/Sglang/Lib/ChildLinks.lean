import Mathlib.Data.Finset.Card
import Mathlib.Data.List.Range
import Mathlib.Order.Bounds.Defs

/-! Trees kept as links to the first child and the next sibling.

The nodes are `0, .., size - 1`, node `0` is the root, and `-1` ends a list of siblings. -/
namespace Sglang.ChildLinks

open List Option

/-- Following `sibling` from `i` visits the nodes of the list. -/
def Chain (sibling : Nat → Int) : Int → List Nat → Prop
  | i, [] => i = -1
  | i, c :: cs => i = c ∧ Chain sibling (sibling c) cs

variable {cs : List Nat} {sibling : Nat → Int}

lemma Chain.congr {sibling' : Nat → Int} {i : Int} (h : Chain sibling i cs)
    (heq : ∀ c ∈ cs, sibling' c = sibling c) : Chain sibling' i cs := by
  induction cs generalizing i with
  | nil => exact h
  | cons c cs ih =>
    refine ⟨h.1, ?_⟩
    rw [heq c mem_cons_self]
    exact ih h.2 fun d hd => heq d (mem_cons_of_mem c hd)

/-- The first number from `a` on, below `n`, with the property. -/
def firstFrom (P : Nat → Bool) (n a : Nat) : Int :=
  match (List.range' a (n - a)).find? P with
  | some i => i
  | none => -1

section FirstFrom
variable {P : Nat → Bool} {n a : Nat}

lemma firstFrom_of_le (h : n ≤ a) : firstFrom P n a = -1 := by
  rw [firstFrom, Nat.sub_eq_zero_of_le h]
  rfl

lemma firstFrom_step (h : a < n) : firstFrom P n a = if P a then (a : Int)
    else firstFrom P n (a + 1) := by
  obtain ⟨d, hd⟩ : ∃ d, n - a = d + 1 := ⟨n - a - 1, by omega⟩
  rw [firstFrom, firstFrom, hd, show n - (a + 1) = d by omega, range'_succ, find?_cons]
  cases P a <;> simp

lemma chain_filter (h : ∀ c, a ≤ c → c < n → P c = true → sibling c = firstFrom P n (c + 1)) :
    Chain sibling (firstFrom P n a) ((List.range' a (n - a)).filter P) := by
  induction hd : n - a generalizing a with
  | zero => exact firstFrom_of_le (by omega)
  | succ d ih =>
    have hrest := ih (a := a + 1) (fun c hc => h c (by omega)) (by omega)
    rw [firstFrom_step (by omega), range'_succ, filter_cons]
    cases hP : P a with
    | true =>
      rw [if_pos rfl, if_pos rfl]
      refine ⟨rfl, ?_⟩
      rwa [h a (le_refl _) (by omega) hP]
    | false => simpa using hrest

lemma firstFrom_congr {Q : Nat → Bool} (h : ∀ c, a ≤ c → c < n → P c = Q c) :
    firstFrom P n a = firstFrom Q n a := by
  have hfilter : (List.range' a (n - a)).filter P = (List.range' a (n - a)).filter Q := by
    refine filter_congr fun c hc => ?_
    obtain ⟨hle, hlt⟩ := mem_range'_1.mp hc
    exact h c hle (by omega)
  rw [firstFrom, firstFrom, ← head?_filter, ← head?_filter, hfilter]

lemma firstFrom_skip {b : Nat} (hab : a ≤ b) (h : ∀ c, a ≤ c → c < b → P c = false) :
    firstFrom P n a = firstFrom P n b := by
  induction hd : b - a generalizing a with
  | zero => rw [show a = b by omega]
  | succ d ih =>
    rw [← ih (a := a + 1) (by omega) (fun c hc => h c (by omega)) (by omega)]
    by_cases han : a < n
    · rw [firstFrom_step han, h a (le_refl _) (by omega)]
      rfl
    · rw [firstFrom_of_le (by omega), firstFrom_of_le (by omega)]

lemma firstFrom_eq {Q : Nat → Bool} (himp : ∀ c, a ≤ c → c < n → Q c = true → P c = true)
    (hfirst : ∀ c, a ≤ c → c < n → P c = true → (∀ d, a ≤ d → d < c → P d = false) → Q c = true) :
    firstFrom P n a = firstFrom Q n a := by
  induction hd : n - a generalizing a with
  | zero => rw [firstFrom_of_le (by omega), firstFrom_of_le (by omega)]
  | succ d ih =>
    have han : a < n := by omega
    rw [firstFrom_step han, firstFrom_step han]
    cases hP : P a with
    | true => rw [hfirst a (le_refl _) han hP fun d h h' => by omega]; rfl
    | false =>
      have hQ : Q a = false := by
        by_contra hne
        have := himp a (le_refl _) han (by simpa using hne)
        simp [hP] at this
      rw [hQ, if_neg Bool.false_ne_true, if_neg Bool.false_ne_true]
      refine ih (fun c hc => himp c (by omega)) (fun c hc hcn hPc hbefore => ?_) (by omega)
      refine hfirst c (by omega) hcn hPc fun d hd hdc => ?_
      by_cases hda : d = a
      · rw [hda, hP]
      · exact hbefore d (by omega) hdc

/-- The number is the least with the property, or `-1` if there is none. -/
def LeastOr (P : Nat → Prop) (i : Int) : Prop :=
  (∃ c : Nat, i = c ∧ IsLeast {c | P c} c) ∨ i = -1 ∧ ∀ c, ¬ P c

lemma LeastOr.congr {P Q : Nat → Prop} {i : Int} (h : LeastOr P i) (hPQ : ∀ c, P c ↔ Q c) :
    LeastOr Q i := by
  rwa [show Q = P from funext fun c => propext (hPQ c).symm]

lemma leastOr_firstFrom (P : Nat → Bool) (n a : Nat) :
    LeastOr (fun c => a ≤ c ∧ c < n ∧ P c = true) (firstFrom P n a) := by
  unfold firstFrom
  split
  · next i hi =>
    obtain ⟨hP, hmem, hbefore⟩ := find?_range'_eq_some.mp hi
    obtain ⟨hle, hlt⟩ := mem_range'_1.mp hmem
    refine .inl ⟨i, rfl, ⟨hle, by omega, hP⟩, fun c hc => ?_⟩
    by_contra hci
    simpa [hc.2.2] using hbefore c hc.1 (by omega)
  · next hnone =>
    refine .inr ⟨rfl, fun c ⟨hle, hlt, hP⟩ => ?_⟩
    exact find?_eq_none.mp hnone c (mem_range'_1.mpr ⟨hle, by omega⟩) hP

end FirstFrom

/-- The last number below `i` with the property. -/
def lastBelow (P : Nat → Bool) : Nat → Option Nat
  | 0 => none
  | i + 1 => if P i then some i else lastBelow P i

lemma lastBelow_eq_some {P : Nat → Bool} {i p : Nat} (hlt : p < i) (hp : P p = true)
    (h : ∀ j, p < j → j < i → P j = false) : lastBelow P i = some p := by
  induction i with
  | zero => omega
  | succ i ih =>
    rw [lastBelow]
    by_cases hpi : p = i
    · rw [← hpi, if_pos hp]
    · rw [h i (by omega) (Nat.lt_succ_self i), if_neg Bool.false_ne_true]
      exact ih (by omega) fun j hj hji => h j hj (by omega)

/-- A tree by the parents of its nodes. A node without a parent that is not the root is not in the
tree. -/
structure ParentTree where
  size : Nat
  parent : Nat → Option Nat
  root : parent 0 = none
  bounded : ∀ c p, parent c = some p → c < size ∧ p < size

namespace ParentTree
variable {t : ParentTree} {l m : List Nat} {c p l₀ : Nat}

/-- A path down from the root. -/
structure RootPath (t : ParentTree) (l : List Nat) : Prop where
  head : l.head? = some 0
  chain : l.IsChain fun p c => t.parent c = some p

lemma rootPath_root (t : ParentTree) : t.RootPath [0] := ⟨rfl, isChain_singleton _⟩

lemma RootPath.snoc (h : t.RootPath (l ++ [p])) (hc : t.parent c = some p) :
    t.RootPath (l ++ [p] ++ [c]) where
  head := by rw [head?_append_of_ne_nil _ (by simp)]; exact h.head
  chain := isChain_append.mpr ⟨h.chain, isChain_singleton _, by simpa using hc⟩

lemma RootPath.of_snoc (h : t.RootPath (l ++ [p] ++ [c])) :
    t.RootPath (l ++ [p]) ∧ t.parent c = some p := by
  obtain ⟨hchain, -, hlast⟩ := isChain_append.mp h.chain
  refine ⟨⟨?_, hchain⟩, hlast p (by simp) c (by simp)⟩
  have hhead := h.head
  rwa [head?_append_of_ne_nil _ (by simp)] at hhead

lemma RootPath.lt (hpos : 0 < t.size) (h : t.RootPath l) (hp : p ∈ l) : p < t.size := by
  induction l using List.reverseRecOn with
  | nil => exact absurd hp not_mem_nil
  | append_singleton l c ih =>
    rcases eq_nil_or_concat l with rfl | ⟨l, q, rfl⟩
    · have hc : c = 0 := by simpa using h.head
      rw [nil_append, mem_singleton] at hp
      exact hp ▸ hc ▸ hpos
    · rw [concat_eq_append] at h ih hp
      obtain ⟨hpath, hq⟩ := h.of_snoc
      rcases mem_append.mp hp with hin | hin
      · exact ih hpath hin
      · exact mem_singleton.mp hin ▸ (t.bounded c q hq).1

lemma RootPath.take (h : t.RootPath l) {n : Nat} (hn : 0 < n) : t.RootPath (l.take n) where
  head := by rw [head?_take, if_neg (ne_of_gt hn)]; exact h.head
  chain := h.chain.take n

lemma RootPath.parent (h : t.RootPath l) {i : Nat} (hi : i + 1 < l.length) :
    t.parent l[i + 1] = some l[i] :=
  isChain_iff_getElem.mp h.chain i hi

/-- The nodes on the path to a node, which is one of them. -/
def Ancestor (t : ParentTree) : Nat → Nat → Prop :=
  Relation.ReflTransGen fun p c => t.parent c = some p

lemma RootPath.ancestor_root (h : t.RootPath (l ++ [c])) : t.Ancestor 0 c := by
  induction l using List.reverseRecOn generalizing c with
  | nil =>
    obtain rfl : c = 0 := by simpa using h.head
    exact .refl
  | append_singleton l p ih => exact (ih h.of_snoc.1).tail h.of_snoc.2

lemma Ancestor.cases (h : t.Ancestor l₀ c) :
    l₀ = c ∨ ∃ p, t.Ancestor l₀ p ∧ t.parent c = some p := by
  rcases Relation.ReflTransGen.cases_tail h with heq | ⟨p, hp, hc⟩
  · exact .inl heq.symm
  · exact .inr ⟨p, hp, hc⟩

lemma RootPath.acyclic (h : t.RootPath (l ++ [c])) :
    ¬ Relation.TransGen (fun p c => t.parent c = some p) c c := by
  induction l using List.reverseRecOn generalizing c with
  | nil =>
    obtain rfl : c = 0 := by simpa using h.head
    intro hcycle
    obtain ⟨p, -, hp⟩ := Relation.TransGen.tail'_iff.mp hcycle
    rw [t.root] at hp
    cases hp
  | append_singleton l q ih =>
    obtain ⟨hq, hparent⟩ := h.of_snoc
    intro hcycle
    obtain ⟨p, hp, hpc⟩ := Relation.TransGen.tail'_iff.mp hcycle
    cases hpc.symm.trans hparent
    exact ih hq (Relation.TransGen.head' hpc hp)

lemma RootPath.not_ancestor_of_parent (h : t.RootPath (l ++ [p])) (hc : t.parent c = some p) :
    ¬ t.Ancestor c p :=
  fun hanc => h.acyclic (.head' hc hanc)

lemma RootPath.eq_of_ancestor_of_sibling {d : Nat} (h : t.RootPath (l ++ [p]))
    (hc : t.parent c = some p) (hd : t.parent d = some p) (hanc : t.Ancestor d c) : d = c := by
  rcases hanc.cases with heq | ⟨q, hq, hcq⟩
  · exact heq
  · cases hc.symm.trans hcq
    exact absurd hq (h.not_ancestor_of_parent hd)

lemma Ancestor.total {c d x : Nat} (hc : t.Ancestor c x) (hd : t.Ancestor d x) :
    t.Ancestor c d ∨ t.Ancestor d c := by
  have hunique : Relator.RightUnique (Function.swap fun p c => t.parent c = some p) :=
    fun _ _ _ h h' => some.inj (h.symm.trans h')
  exact (Relation.ReflTransGen.total_of_right_unique hunique hc.swap hd.swap).symm.imp
    Relation.reflTransGen_swap.mp
    Relation.reflTransGen_swap.mp

open Classical in
/-- The nodes below those of a list, with them. -/
noncomputable def below (t : ParentTree) (cs : List Nat) : Finset Nat :=
  (Finset.range t.size).filter fun x => ∃ c ∈ cs, t.Ancestor c x

lemma mem_below {x : Nat} : x ∈ t.below cs ↔ x < t.size ∧ ∃ c ∈ cs, t.Ancestor c x := by
  simp only [below, Finset.mem_filter, Finset.mem_range]

variable {x : Nat} {ds : List Nat}

lemma mem_below_singleton : x ∈ t.below [c] ↔ x < t.size ∧ t.Ancestor c x := by
  simp [mem_below]

lemma mem_below_cons : x ∈ t.below (c :: cs) ↔ x ∈ t.below [c] ∨ x ∈ t.below cs := by
  simp only [mem_below, mem_cons, not_mem_nil, or_false, or_and_right,
    exists_or, exists_eq_left, and_or_left]

/-- The nodes below a node are the node and those below its children. -/
lemma mem_below_children (hc : c < t.size) (hds : ∀ d, d ∈ ds ↔ t.parent d = some c) :
    x ∈ t.below [c] ↔ x = c ∨ x ∈ t.below ds := by
  rw [mem_below_singleton, mem_below]
  constructor
  · rintro ⟨hx, hanc⟩
    rcases Relation.ReflTransGen.cases_head hanc with heq | ⟨d, hd, hdx⟩
    · exact .inl heq.symm
    · exact .inr ⟨hx, d, (hds d).mpr hd, hdx⟩
  · rintro (rfl | ⟨hx, d, hd, hdx⟩)
    · exact ⟨hc, .refl⟩
    · exact ⟨hx, .head ((hds d).mp hd) hdx⟩

lemma RootPath.not_mem_below (h : t.RootPath (l ++ [c])) (hds : ∀ d ∈ ds, t.parent d = some c) :
    c ∉ t.below ds := by
  intro hmem
  obtain ⟨-, d, hd, hdc⟩ := mem_below.mp hmem
  exact h.not_ancestor_of_parent (hds d hd) hdc

lemma card_below_children (h : t.RootPath (l ++ [c])) (hc : c < t.size)
    (hds : ∀ d ∈ ds, t.parent d = some c) :
    (t.below ds).card < (t.below (c :: cs)).card := by
  refine Finset.card_lt_card (Finset.ssubset_iff_of_subset ?_ |>.mpr ⟨c, ?_, h.not_mem_below hds⟩)
  · intro x hx
    obtain ⟨hlt, d, hd, hdx⟩ := mem_below.mp hx
    exact mem_below.mpr ⟨hlt, c, mem_cons_self, .head (hds d hd) hdx⟩
  · exact mem_below.mpr ⟨hc, c, mem_cons_self, .refl⟩

section
variable (h : t.RootPath (l ++ [p])) (hcs : ∀ d ∈ c :: cs, t.parent d = some p) (hnew : c ∉ cs)
include h hcs hnew

/-- A node is below one sibling only. -/
lemma RootPath.below_disjoint (hx : x ∈ t.below [c]) : x ∉ t.below cs := by
  intro hx'
  obtain ⟨-, e, he, hex⟩ := mem_below.mp hx'
  have hc := hcs c mem_cons_self
  have he' := hcs e (mem_cons_of_mem _ he)
  rcases (mem_below_singleton.mp hx).2.total hex with hce | hec
  · exact hnew (h.eq_of_ancestor_of_sibling he' hc hce ▸ he)
  · exact hnew (h.eq_of_ancestor_of_sibling hc he' hec ▸ he)

lemma card_below_tail : (t.below cs).card < (t.below (c :: cs)).card := by
  have hself : c ∈ t.below [c] :=
    mem_below_singleton.mpr ⟨(t.bounded c p (hcs c mem_cons_self)).1, .refl⟩
  refine Finset.card_lt_card (Finset.ssubset_iff_of_subset ?_ |>.mpr ⟨c,
    ?_, h.below_disjoint hcs hnew hself⟩)
  · exact fun x hx => mem_below_cons.mpr (.inr hx)
  · exact mem_below_cons.mpr (.inl hself)

end

/-- The links list the children of every node. -/
def Linked (t : ParentTree) (nextToken nextSibling : Nat → Int) : Prop :=
  ∀ p < t.size, ∃ children : List Nat, children.Nodup ∧ (∀ c, c ∈ children ↔ t.parent c = some p) ∧
    Chain nextSibling (nextToken p) children

lemma Linked.congr {next next' sibling' : Nat → Int} (h : t.Linked next sibling)
    (hnext : ∀ i < t.size, next' i = next i) (hsibling : ∀ i < t.size, sibling' i = sibling i) :
    t.Linked next' sibling' := by
  intro p hp
  obtain ⟨children, hnodup, hmem, hchain⟩ := h p hp
  refine ⟨children, hnodup, hmem, ?_⟩
  rw [hnext p hp]
  exact hchain.congr fun c hc => hsibling c (t.bounded c p ((hmem c).mp hc)).1

lemma linked_of_firstFrom {nextToken nextSibling : Nat → Int}
    (hnext : ∀ p < t.size, nextToken p = firstFrom (fun c => t.parent c == some p) t.size 0)
    (hsibling : ∀ c p, t.parent c = some p → nextSibling c = firstFrom
    (fun c => t.parent c == some p) t.size (c + 1)) :
    t.Linked nextToken nextSibling := by
  intro p hp
  refine ⟨(List.range' 0 (t.size - 0)).filter fun c => t.parent c == some p,
    List.Pairwise.filter _ (nodup_range' 1 Nat.one_pos), fun c => ?_, ?_⟩
  · have hlt : t.parent c = some p → c < t.size := fun h => (t.bounded c p h).1
    simpa using hlt
  · rw [hnext p hp]
    exact chain_filter fun c _ _ hc => hsibling c p (by simpa using hc)

/-- Following the links from `i`: the node, what is below it, the siblings behind it. -/
def followLinks (nextToken nextSibling : Nat → Int) : Nat → Int → List Nat
  | 0, _ => []
  | fuel + 1, i =>
    if i < 0 then [] else
      i.toNat :: (followLinks nextToken nextSibling fuel
        (nextToken i.toNat) ++ followLinks nextToken nextSibling fuel (nextSibling i.toNat))

section FollowLinks
variable {next : Nat → Int}

lemma followLinks_neg (fuel : Nat) : followLinks next sibling fuel (-1) = [] := by
  cases fuel <;> rfl

variable (hlinked : t.Linked next sibling)
include hlinked

/-- The links from a list of siblings lead once to each node below them. -/
lemma Linked.followLinks_spec {fuel : Nat} {i : Int} (h : t.RootPath (l ++ [p])) (hnd : cs.Nodup)
    (hcs : ∀ c ∈ cs, t.parent c = some p) (hchain : Chain sibling i cs)
    (hfuel : (t.below cs).card ≤ fuel) :
    (followLinks next sibling fuel i).Nodup ∧ ∀ x, x ∈ followLinks next sibling fuel i ↔
    x ∈ t.below cs := by
  induction fuel generalizing i cs l p with
  | zero =>
    have hempty := Finset.card_eq_zero.mp (Nat.le_zero.mp hfuel)
    simp [followLinks, hempty]
  | succ fuel ih =>
    cases cs with
    | nil =>
      rw [show i = -1 from hchain, followLinks_neg]
      simp [mem_below]
    | cons c cs =>
      obtain ⟨rfl, hrest⟩ := hchain
      obtain ⟨hnew, hnd⟩ := nodup_cons.mp hnd
      have hc := hcs c mem_cons_self
      have hlt := (t.bounded c p hc).1
      obtain ⟨ds, hdnd, hds, hdchain⟩ := hlinked c hlt
      have hpath := h.snoc hc
      have hparent : ∀ d ∈ ds, t.parent d = some c := fun d hd => (hds d).mp hd
      have hless : (t.below ds).card < (t.below (c :: cs)).card :=
        card_below_children hpath hlt hparent
      have hless' := card_below_tail h hcs hnew
      obtain ⟨hnd1, hmem1⟩ := ih hpath hdnd hparent hdchain (by omega)
      obtain ⟨hnd2, hmem2⟩ := ih h hnd (fun d hd => hcs d (mem_cons_of_mem _ hd)) hrest (by omega)
      have hchildren (x : Nat) := mem_below_children (x := x) hlt hds
      have hapart (x : Nat) (hx : x = c ∨ x ∈ t.below ds) :=
        h.below_disjoint hcs hnew ((hchildren x).mpr hx)
      rw [followLinks, if_neg (by omega), Int.toNat_natCast]
      refine ⟨nodup_cons.mpr ⟨?_, nodup_append.mpr ⟨hnd1, hnd2, fun x hx y hy hxy => ?_⟩⟩,
        fun x => ?_⟩
      · rw [mem_append, hmem1, hmem2]
        exact not_or.mpr ⟨hpath.not_mem_below hparent, hapart c (.inl rfl)⟩
      · exact hapart x (.inr ((hmem1 x).mp hx)) ((hmem2 x).mp (hxy ▸ hy))
      · rw [mem_cons, mem_append, hmem1, hmem2, mem_below_cons, hchildren]
        exact or_assoc.symm

/-- From the root they lead once to each node. -/
lemma Linked.followLinks_root (hrooted : ∀ c < t.size, t.Ancestor 0 c) (hlast : sibling 0 = -1) :
    (followLinks next sibling t.size 0).Perm (List.range t.size) := by
  cases hn : t.size with
  | zero => exact .nil
  | succ n =>
    have hpos : 0 < t.size := by omega
    obtain ⟨ds, hdnd, hds, hdchain⟩ := hlinked 0 hpos
    have hparent : ∀ d ∈ ds, t.parent d = some 0 := fun d hd => (hds d).mp hd
    have hall : t.below [0] = Finset.range t.size := by
      ext x
      simpa [mem_below_singleton] using hrooted x
    have hless : (t.below ds).card < (t.below [0]).card :=
      card_below_children (l := []) t.rootPath_root hpos hparent
    rw [hall, Finset.card_range, hn] at hless
    obtain ⟨hnd, hmem⟩ :=
      hlinked.followLinks_spec (l := []) t.rootPath_root hdnd hparent hdchain
      (Nat.le_of_lt_succ hless)
    have hself := RootPath.not_mem_below (l := []) t.rootPath_root hparent
    rw [followLinks, if_neg (lt_irrefl _), Int.toNat_zero, hlast, followLinks_neg, append_nil, ← hn]
    refine (perm_ext_iff_of_nodup (nodup_cons.mpr ⟨by rwa [hmem], hnd⟩) nodup_range).mpr fun x => ?_
    rw [mem_cons, hmem, ← mem_below_children hpos hds, hall, Finset.mem_range, mem_range]

end FollowLinks

end ParentTree

end Sglang.ChildLinks
