import Mathlib.Data.Set.Card

/-! Trees whose nodes stand for words.

A node's word extends the word of its parent; children of one node go on with different letters.
Every word in the tree then belongs to one node, the one in whose part of the way it ends. -/
namespace Sglang

open List

structure LabelledTree (N U : Type*) where
  live : Finset N
  root : N
  parent : N → N
  path : N → List U

namespace LabelledTree
variable {N U : Type*}

structure Valid (g : LabelledTree N U) : Prop where
  root_mem : g.root ∈ g.live
  path_root : g.path g.root = []
  parent_mem : ∀ n ∈ g.live, n ≠ g.root → g.parent n ∈ g.live
  path_parent : ∀ n ∈ g.live, n ≠ g.root → g.path (g.parent n) <+: g.path n
  length_lt : ∀ n ∈ g.live, n ≠ g.root → (g.path (g.parent n)).length < (g.path n).length
  branch : ∀ n ∈ g.live, n ≠ g.root → ∀ m ∈ g.live, m ≠ g.root → g.parent n = g.parent m →
    (g.path n)[(g.path (g.parent n)).length]? = (g.path m)[(g.path (g.parent n)).length]? → n = m

/-- A word that ends in a node's own part. -/
structure Covers (g : LabelledTree N U) (n : N) (w : List U) : Prop where
  mem : n ∈ g.live
  ne_root : n ≠ g.root
  parent_lt : (g.path (g.parent n)).length < w.length
  isPrefix : w <+: g.path n

variable {g : LabelledTree N U} {n m p : N} {w : List U}

namespace Valid

section
variable (h : g.Valid)
include h

lemma covers_path (hn : n ∈ g.live) (hroot : n ≠ g.root) : g.Covers n (g.path n) :=
  ⟨hn, hroot, h.length_lt n hn hroot, prefix_rfl⟩

lemma path_ne_nil (hn : n ∈ g.live) (hroot : n ≠ g.root) : g.path n ≠ [] := by
  have := h.length_lt n hn hroot
  exact ne_nil_of_length_pos (by omega)

lemma ne_root_of_path_ne (hpath : g.path n ≠ []) : n ≠ g.root := by
  rintro rfl
  exact hpath h.path_root

/-- **Every word has one node.** -/
theorem eq_of_covers (hn : g.Covers n w) (hm : g.Covers m w) : n = m := by
  induction hk : w.length using Nat.strong_induction_on generalizing w n m with
  | _ k ih =>
    subst hk
    have key : ∀ {n m : N}, g.Covers n w → g.Covers m w →
        (g.path (g.parent n)).length ≤ (g.path (g.parent m)).length → n = m := by
      intro n m hn hm hle
      have hp := h.parent_mem n hn.mem hn.ne_root
      have hq := h.parent_mem m hm.mem hm.ne_root
      -- both parents are on the way to the word
      have hpw : g.path (g.parent n) <+: w :=
        prefix_of_prefix_length_le (h.path_parent n hn.mem hn.ne_root) hn.isPrefix hn.parent_lt.le
      have hqw : g.path (g.parent m) <+: w :=
        prefix_of_prefix_length_le (h.path_parent m hm.mem hm.ne_root) hm.isPrefix hm.parent_lt.le
      obtain hlt | heq := hle.lt_or_eq
      · -- then the lower parent's word would be in the part of the other node
        have hqroot : g.parent m ≠ g.root := h.ne_root_of_path_ne (ne_nil_of_length_pos (by omega))
        have hcover : g.Covers n (g.path (g.parent m)) :=
          ⟨hn.mem, hn.ne_root, hlt, hqw.trans hn.isPrefix⟩
        have := ih _ hm.parent_lt hcover (h.covers_path hq hqroot) rfl
        have hlen := hn.isPrefix.length_le
        rw [this] at hlen
        have := hm.parent_lt
        omega
      · have hpath : g.path (g.parent n) = g.path (g.parent m) :=
          (prefix_of_prefix_length_le hpw hqw heq.le).eq_of_length heq
        have hparent : g.parent n = g.parent m := by
          by_cases hnil : g.path (g.parent n) = []
          · have hroot : ∀ {x : N}, x ∈ g.live → g.path x = [] → x = g.root := by
              intro x hx hxnil
              by_contra hxroot
              exact h.path_ne_nil hx hxroot hxnil
            rw [hroot hp hnil, hroot hq (hpath ▸ hnil)]
          · have hcover := h.covers_path hp (h.ne_root_of_path_ne hnil)
            have hcover' := h.covers_path hq (h.ne_root_of_path_ne (hpath ▸ hnil))
            exact ih _ hn.parent_lt hcover (hpath ▸ hcover') rfl
        refine h.branch n hn.mem hn.ne_root m hm.mem hm.ne_root hparent ?_
        rw [prefix_iff_getElem?.mp hn.isPrefix _ hn.parent_lt,
          prefix_iff_getElem?.mp hm.isPrefix _ hn.parent_lt]
    obtain hle | hle := le_total (g.path (g.parent n)).length (g.path (g.parent m)).length
    · exact key hn hm hle
    · exact (key hm hn hle).symm

lemma eq_of_path (hn : n ∈ g.live) (hm : m ∈ g.live) (hpath : g.path n = g.path m) : n = m := by
  by_cases hn' : n = g.root
  · by_contra hne
    have hnil := h.path_ne_nil hm fun hm' => hne (hn'.trans hm'.symm)
    rw [← hpath, hn', h.path_root] at hnil
    exact hnil rfl
  · have hm' := h.ne_root_of_path_ne (hpath ▸ h.path_ne_nil hn hn')
    exact h.eq_of_covers (h.covers_path hn hn') (hpath ▸ h.covers_path hm hm')

lemma of_path_prefix {P : N → Prop} (hP : ∀ n ∈ g.live, n ≠ g.root → P n → P (g.parent n))
    (hn : n ∈ g.live) (hm : m ∈ g.live) (hpre : g.path m <+: g.path n) (hPn : P n) : P m := by
  induction hk : (g.path n).length using Nat.strong_induction_on generalizing n with
  | _ k ih =>
    by_cases heq : n = m
    · exact heq ▸ hPn
    have hroot : n ≠ g.root := by
      rintro rfl
      rw [h.path_root, prefix_nil] at hpre
      exact heq (h.eq_of_path hn hm (h.path_root.trans hpre.symm))
    have hp := h.parent_mem n hn hroot
    refine ih _ (hk ▸ h.length_lt n hn hroot) hp ?_ (hP n hn hroot hPn) rfl
    by_contra hno
    have hlt : (g.path (g.parent n)).length < (g.path m).length := by
      by_contra hle
      exact hno (prefix_of_prefix_length_le hpre (h.path_parent n hn hroot) (by omega))
    have hm' : m ≠ g.root := h.ne_root_of_path_ne (ne_nil_of_length_pos (by omega))
    exact heq (h.eq_of_covers ⟨hn, hroot, hlt, hpre⟩ (h.covers_path hm hm'))

lemma exists_covers (hn : n ∈ g.live) (hw : w ≠ []) (hpre : w <+: g.path n) :
    ∃ m, g.Covers m w ∧ g.path m <+: g.path n := by
  induction hk : (g.path n).length using Nat.strong_induction_on generalizing n with
  | _ k ih =>
    have hroot : n ≠ g.root := by
      rintro rfl
      rw [h.path_root, prefix_nil] at hpre
      exact hw hpre
    have hparent := h.path_parent n hn hroot
    by_cases hlt : (g.path (g.parent n)).length < w.length
    · exact ⟨n, ⟨hn, hroot, hlt, hpre⟩, prefix_rfl⟩
    · obtain ⟨m, hm, hmn⟩ := ih _ (hk ▸ h.length_lt n hn hroot) (h.parent_mem n hn hroot)
        (prefix_of_prefix_length_le hpre hparent (by omega)) rfl
      exact ⟨m, hm, hmn.trans hparent⟩

lemma parent_of_covers (hp : p ∈ g.live) {u : U} (hm : g.Covers m (g.path p ++ [u])) :
    g.parent m = p := by
  have hq := h.parent_mem m hm.mem hm.ne_root
  have hpm : g.path p <+: g.path m := (prefix_append _ _).trans hm.isPrefix
  have hlt := hm.parent_lt
  rw [length_append, length_singleton] at hlt
  by_cases heq : (g.path (g.parent m)).length = (g.path p).length
  · refine h.eq_of_path hq hp ?_
    exact (prefix_of_prefix_length_le
      (h.path_parent m hm.mem hm.ne_root) hpm heq.le).eq_of_length heq
  · have hroot : p ≠ g.root := h.ne_root_of_path_ne (ne_nil_of_length_pos (by omega))
    have := h.eq_of_covers ⟨hm.mem, hm.ne_root, by omega, hpm⟩ (h.covers_path hp hroot)
    have hlen := hm.isPrefix.length_le
    rw [this, length_append, length_singleton] at hlen
    omega

end

end Valid

/-! ### The words of some nodes -/

/-- The words on the way to the nodes of a kind. -/
def words (g : LabelledTree N U) (P : N → Prop) : Set (List U) :=
  {w | ∃ n ∈ g.live, P n ∧ w <+: g.path n}

variable {P : N → Prop}

lemma words_prefixClosed {w w' : List U} (hw : w ∈ g.words P) (hpre : w' <+: w) :
    w' ∈ g.words P := by
  obtain ⟨n, hn, hPn, hwn⟩ := hw
  exact ⟨n, hn, hPn, hpre.trans hwn⟩

lemma Valid.mem_words_iff (h : g.Valid) (hP : ∀ n ∈ g.live, n ≠ g.root → P n → P (g.parent n))
    (hw : w ≠ []) :
    w ∈ g.words P ↔ ∃ n, g.Covers n w ∧ P n := by
  constructor
  · rintro ⟨n, hn, hPn, hwn⟩
    obtain ⟨m, hm, hmn⟩ := h.exists_covers hn hw hwn
    exact ⟨m, hm, h.of_path_prefix hP hn hm.mem hmn hPn⟩
  · rintro ⟨n, hn, hPn⟩
    exact ⟨n, hn.mem, hPn, hn.isPrefix⟩

/-- The length of a node's own part. -/
def ownLength (g : LabelledTree N U) (n : N) : Nat :=
  (g.path n).length - (g.path (g.parent n)).length

/-- The words that belong to a node, by their lengths. -/
def ownWords [DecidableEq U] (g : LabelledTree N U) (n : N) : Finset (List U) :=
  (Finset.range (g.ownLength n)).image fun i =>
    (g.path n).take ((g.path (g.parent n)).length + i + 1)

lemma Valid.mem_ownWords [DecidableEq U] (h : g.Valid) (hn : n ∈ g.live) (hroot : n ≠ g.root) :
    w ∈ g.ownWords n ↔ g.Covers n w := by
  have hlt := h.length_lt n hn hroot
  simp only [ownWords, Finset.mem_image, Finset.mem_range, ownLength]
  constructor
  · rintro ⟨i, hi, rfl⟩
    refine ⟨hn, hroot, ?_, take_prefix _ _⟩
    rw [length_take]
    omega
  · intro hc
    have hlen := hc.isPrefix.length_le
    have hlt := hc.parent_lt
    refine ⟨w.length - (g.path (g.parent n)).length - 1, by omega, ?_⟩
    rw [show (g.path (g.parent n)).length + (w.length - (g.path (g.parent n)).length - 1) + 1 =
      w.length by omega]
    exact (prefix_iff_eq_take.mp hc.isPrefix).symm

lemma card_ownWords [DecidableEq U] : (g.ownWords n).card = g.ownLength n := by
  rw [ownWords, Finset.card_image_of_injOn, Finset.card_range]
  intro i hi j hj heq
  simp only [Finset.coe_range, Set.mem_Iio, ownLength] at hi hj
  have := congrArg List.length heq
  simp only [length_take] at this
  omega

/-- **The number of words** is the sum of the nodes' own lengths. -/
theorem Valid.ncard_words (h : g.Valid) [DecidableEq N] [DecidableEq U] [DecidablePred P]
    (hP : ∀ n ∈ g.live, n ≠ g.root → P n → P (g.parent n)) :
    {w ∈ g.words P | w ≠ []}.ncard = ∑ n ∈ (g.live.erase g.root).filter P, g.ownLength n := by
  have hset :
      {w ∈ g.words P | w ≠ []} = (((g.live.erase g.root).filter P).biUnion g.ownWords : Finset
      (List U)) := by
    ext w
    simp only [Set.mem_ofPred_eq, Finset.coe_biUnion, Set.mem_iUnion, Finset.mem_coe,
      Finset.mem_filter, Finset.mem_erase]
    constructor
    · rintro ⟨hw, hne⟩
      obtain ⟨n, hn, hPn⟩ := (h.mem_words_iff hP hne).mp hw
      exact ⟨n, ⟨⟨hn.ne_root, hn.mem⟩, hPn⟩, (h.mem_ownWords hn.mem hn.ne_root).mpr hn⟩
    · rintro ⟨n, ⟨⟨hroot, hn⟩, hPn⟩, hw⟩
      have hc := (h.mem_ownWords hn hroot).mp hw
      have hlt := hc.parent_lt
      have hne : w ≠ [] := ne_nil_of_length_pos (by omega)
      exact ⟨(h.mem_words_iff hP hne).mpr ⟨n, hc, hPn⟩, hne⟩
  rw [hset, Set.ncard_coe_finset, Finset.card_biUnion]
  · refine Finset.sum_congr rfl fun n hn => ?_
    obtain ⟨hroot, hn⟩ := Finset.mem_erase.mp (Finset.mem_filter.mp hn).1
    exact card_ownWords
  · intro n hn m hm hne
    obtain ⟨hnroot, hn⟩ := Finset.mem_erase.mp (Finset.mem_filter.mp hn).1
    obtain ⟨hmroot, hm⟩ := Finset.mem_erase.mp (Finset.mem_filter.mp hm).1
    refine Finset.disjoint_left.mpr fun w hwn hwm => ?_
    exact hne (h.eq_of_covers ((h.mem_ownWords hn hnroot).mp hwn)
      ((h.mem_ownWords hm hmroot).mp hwm))

/-! ### Walking through the tree -/

/-- The nodes that a stack yields when the children of every node that is taken are put on it. -/
def stackWalk (children : N → List N) : Nat → List N → Option (List N)
  | _, [] => some []
  | 0, _ :: _ => none
  | fuel + 1, n :: stack => (stackWalk children fuel (children n ++ stack)).map (n :: ·)

/-- The nodes at and under those of a list. -/
def Below (g : LabelledTree N U) (stack : List N) (m : N) : Prop :=
  m ∈ g.live ∧ ∃ n ∈ stack, g.path n <+: g.path m

/-- Neither node is above the other. -/
def Apart (g : LabelledTree N U) (n m : N) : Prop := ¬g.path n <+: g.path m ∧ ¬g.path m <+: g.path n

/-- The children lists fit the tree. -/
structure IsChildren (g : LabelledTree N U) (children : N → List N) : Prop where
  nodup : ∀ p ∈ g.live, (children p).Nodup
  mem_iff : ∀ p ∈ g.live, ∀ n, n ∈ children p ↔ n ∈ g.live ∧ n ≠ g.root ∧ g.parent n = p

section Walk
variable {children : N → List N} {stack : List N}

section
variable (h : g.Valid)
include h

section
variable (hc : g.IsChildren children)
include hc

section
variable (hp : p ∈ g.live)
include hp

lemma Valid.child_path (hn : n ∈ children p) :
    g.path p <+: g.path n ∧ (g.path p).length < (g.path n).length := by
  obtain ⟨hn', hroot, rfl⟩ := (hc.mem_iff p hp n).mp hn
  exact ⟨h.path_parent n hn' hroot, h.length_lt n hn' hroot⟩

lemma Valid.apart_children : (children p).Pairwise g.Apart := by
  have key : ∀ {n m : N}, n ∈ children p → m ∈ children p → g.path n <+: g.path m → n = m := by
    intro n m hn hm hpre
    obtain ⟨hn', hnroot, rfl⟩ := (hc.mem_iff p hp n).mp hn
    obtain ⟨hm', hmroot, hparent⟩ := (hc.mem_iff _ hp m).mp hm
    have hcover := h.covers_path hn' hnroot
    exact h.eq_of_covers hcover ⟨hm', hmroot, hparent ▸ hcover.parent_lt, hpre⟩
  refine (hc.nodup p hp).pairwise_of_forall_ne fun n hn m hm hne => ⟨fun hpre => ?_, fun hpre => ?_⟩
  · exact hne (key hn hm hpre)
  · exact hne (key hm hn hpre).symm

lemma Valid.below_cons (m : N) :
    g.Below (p :: stack) m ↔ m = p ∨ g.Below (children p ++ stack) m := by
  constructor
  · rintro ⟨hm, n, hn, hpre⟩
    obtain rfl | hn := mem_cons.mp hn
    · by_cases heq : m = n
      · exact .inl heq
      · right
        obtain ⟨rest, hrest⟩ := hpre
        cases rest with
        | nil => exact absurd (h.eq_of_path hm hp (by rw [← hrest, append_nil])) heq
        | cons u rest =>
          have hword : g.path n ++ [u] <+: g.path m := ⟨rest, by rw [← hrest, append_assoc]; rfl⟩
          obtain ⟨c, hcover, hcm⟩ :=
            h.exists_covers hm (append_ne_nil_of_right_ne_nil _ (cons_ne_nil u [])) hword
          have hchild :=
            (hc.mem_iff n hp c).mpr ⟨hcover.mem, hcover.ne_root, h.parent_of_covers hp hcover⟩
          exact ⟨hm, c, mem_append_left _ hchild, hcm⟩
    · exact .inr ⟨hm, n, mem_append_right _ hn, hpre⟩
  · rintro (rfl | ⟨hm, n, hn, hpre⟩)
    · exact ⟨hp, m, mem_cons_self, prefix_rfl⟩
    · obtain hn | hn := mem_append.mp hn
      · exact ⟨hm, p, mem_cons_self, (h.child_path hc hp hn).1.trans hpre⟩
      · exact ⟨hm, n, mem_cons_of_mem _ hn, hpre⟩

lemma Valid.apart_step (hapart : (p :: stack).Pairwise g.Apart) :
    (children p ++ stack).Pairwise g.Apart := by
  obtain ⟨hpstack, hstack⟩ := pairwise_cons.mp hapart
  refine pairwise_append.mpr ⟨h.apart_children hc hp, hstack, fun n hn m hm => ?_⟩
  obtain ⟨hpn, hlt⟩ := h.child_path hc hp hn
  obtain ⟨hpm, hmp⟩ := hpstack m hm
  refine ⟨fun hpre => hpm (hpn.trans hpre), fun hpre => ?_⟩
  obtain hle | hle := le_total (g.path p).length (g.path m).length
  · exact hpm (prefix_of_prefix_length_le hpn hpre hle)
  · exact hmp (prefix_of_prefix_length_le hpre hpn hle)

lemma Valid.not_below_step (hapart : (p :: stack).Pairwise g.Apart) :
    ¬g.Below (children p ++ stack) p := by
  rintro ⟨_, n, hn, hpre⟩
  obtain hn | hn := mem_append.mp hn
  · have hlt := (h.child_path hc hp hn).2
    have hle := hpre.length_le
    omega
  · exact ((pairwise_cons.mp hapart).1 n hn).2 hpre

end

/-- **A stack yields every node once.** -/
theorem Valid.stackWalk_spec [DecidableEq N] {left : Finset N} {fuel : Nat}
    (hstack : ∀ n ∈ stack, n ∈ g.live) (hapart : stack.Pairwise g.Apart)
    (hleft : ∀ m, m ∈ left ↔ g.Below stack m) (hfuel : left.card ≤ fuel) :
    ∃ l, stackWalk children fuel stack = some l ∧ l.Nodup ∧ ∀ m, m ∈ l ↔ m ∈ left := by
  induction fuel generalizing stack left with
  | zero =>
    cases stack with
    | nil =>
      exact ⟨[], rfl, .nil,
        fun m => ⟨nofun, fun hm => by obtain ⟨_, _, hn, _⟩ := (hleft m).mp hm; cases hn⟩⟩
    | cons n stack =>
      have hn : n ∈ left := (hleft n).mpr ⟨hstack n mem_cons_self, n, mem_cons_self, prefix_rfl⟩
      have := Finset.card_pos.mpr ⟨n, hn⟩
      omega
  | succ fuel ih =>
    cases stack with
    | nil =>
      exact ⟨[], rfl, .nil,
        fun m => ⟨nofun, fun hm => by obtain ⟨_, _, hn, _⟩ := (hleft m).mp hm; cases hn⟩⟩
    | cons p stack =>
      obtain ⟨hp, hstack⟩ := forall_mem_cons.mp hstack
      have hpleft : p ∈ left := (hleft p).mpr ((h.below_cons hc hp p).mpr (.inl rfl))
      have hno := h.not_below_step hc hp hapart
      have hnext : ∀ m, m ∈ left.erase p ↔ g.Below (children p ++ stack) m := by
        intro m
        rw [Finset.mem_erase, hleft, h.below_cons hc hp]
        constructor
        · rintro ⟨hne, heq | hbelow⟩
          · exact absurd heq hne
          · exact hbelow
        · intro hbelow
          exact ⟨fun heq => hno (heq ▸ hbelow), .inr hbelow⟩
      obtain ⟨l, hwalk, hnodup, hmem⟩ := @ih (children p ++ stack) (left.erase p) (by
          intro n hn
          obtain hn | hn := mem_append.mp hn
          · exact ((hc.mem_iff p hp n).mp hn).1
          · exact hstack n hn) (h.apart_step hc hp hapart) hnext
        (by rw [Finset.card_erase_of_mem hpleft]; omega)
      refine ⟨p :: l,
        by rw [stackWalk, hwalk, Option.map_some], nodup_cons.mpr ⟨?_, hnodup⟩, fun m => ?_⟩
      · rw [hmem, Finset.mem_erase]
        exact fun hp' => hp'.1 rfl
      · rw [mem_cons, hmem, Finset.mem_erase]
        constructor
        · rintro (rfl | ⟨_, hm⟩)
          · exact hpleft
          · exact hm
        · intro hm
          by_cases heq : m = p
          · exact .inl heq
          · exact .inr ⟨heq, hm⟩

lemma Valid.stackWalk_root [DecidableEq N] {fuel : Nat} (hfuel : g.live.card ≤ fuel) :
    ∃ l, stackWalk children fuel [g.root] = some l ∧ l.Nodup ∧ ∀ m, m ∈ l ↔ m ∈ g.live := by
  refine h.stackWalk_spec hc (forall_mem_singleton.mpr h.root_mem) (pairwise_singleton _ _)
    (fun m => ?_) hfuel
  refine ⟨fun hm => ⟨hm, g.root, mem_singleton_self _, ?_⟩, fun hm => hm.1⟩
  rw [h.path_root]
  exact nil_prefix

end

end

end Walk

end LabelledTree

end Sglang
