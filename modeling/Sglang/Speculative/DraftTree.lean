import Sglang.Lib.ChildLinks

/-! Draft trees.

The tokens of a draft tree are numbered, the last accepted token is number `0`. EAGLE gives the tree
by the candidates that were selected and the candidates they were expanded from; the n-gram drafter
gives it by the attention mask. Both kernels write links to the first child and the next sibling, in
arrays that hold the rows of a batch one after the other. -/
namespace Sglang.Speculative

open List Option Function
open ChildLinks ParentTree

/-- `retrive_index`, `retrive_next_token` and `retrive_next_sibling`. -/
structure RetriveArrays where
  retriveIndex : Nat → Int
  retriveNextToken : Nat → Int
  retriveNextSibling : Nat → Int

/-- `torch.full(.., -1)`. -/
def RetriveArrays.empty : RetriveArrays := ⟨fun _ => -1, fun _ => -1, fun _ => -1⟩

/-! ### From the selected candidates -/

/-- The inputs of `build_tree_efficient`: `parent_list` has `topk * (depth - 1) + 1` entries for a
row, `selected_index` one less than the tree has tokens. -/
structure BuildTreeArgs where
  parentList : Nat → Int
  selectedIndex : Nat → Int
  topk : Nat
  depth : Nat
  draftTokenNum : Nat
  draftTokenNum_pos : 0 < draftTokenNum

namespace BuildTreeArgs

section
variable (a : BuildTreeArgs)

def selected (bid position : Nat) : Int := a.selectedIndex (bid * (a.draftTokenNum - 1) + position)

/-- The block of candidates that a selected one is in. Block `0` are the children of the root. -/
def parentTbIdx (bid position : Nat) : Int := (a.selected bid position).tdiv a.topk

def parentTokenIdx (bid : Nat) (parentTbIdx : Int) : Int :=
  a.parentList (bid * (a.topk * (a.depth - 1) + 1) + parentTbIdx.toNat)

/-- Where a candidate stands among the selected ones. -/
def findSelected (bid : Nat) (tokenIdx : Int) : Option Nat :=
  (List.range a.draftTokenNum).find? fun position => a.selected bid position == tokenIdx

/-- The number of the parent of token `i`; `draft_token_num` if it was not selected. -/
def parentPosition (bid i : Nat) : Nat :=
  let parentTbIdx := a.parentTbIdx bid (i - 1)
  if 0 < parentTbIdx then
    match a.findSelected bid (a.parentTokenIdx bid parentTbIdx) with
    | some position => position + 1
    | none => a.draftTokenNum
  else 0

/-- The loop over the tokens `i, .., 1` of thread 0. -/
def linkLoop (a : BuildTreeArgs) (bid : Nat) : Nat → RetriveArrays → RetriveArrays
  | 0, r => r
  | i + 1, r =>
    let row := bid * a.draftTokenNum
    let r := { r with retriveIndex := update r.retriveIndex (row + (i + 1)) (row + (i + 1) : Nat) }
    let parent := a.parentPosition bid (i + 1)
    if parent = a.draftTokenNum then a.linkLoop bid i r
    else if r.retriveNextToken (row + parent) = -1 then
      a.linkLoop bid i
        { r with retriveNextToken := update r.retriveNextToken (row + parent) (i + 1 : Nat) }
    else
      a.linkLoop bid i { r with
        retriveNextToken := update r.retriveNextToken (row + parent) (i + 1 : Nat)
        retriveNextSibling :=
          update r.retriveNextSibling (row + (i + 1)) (r.retriveNextToken (row + parent)) }

/-- What `build_tree_efficient` writes for row `bid` into the arrays. -/
def buildTreeEfficient (bid : Nat) (r : RetriveArrays) : RetriveArrays :=
  let r := a.linkLoop bid (a.draftTokenNum - 1) r
  let row := bid * a.draftTokenNum
  { r with retriveIndex := update r.retriveIndex row (row : Nat) }

/-- All rows, in the order in which their blocks run. -/
def buildTree (order : List Nat) : RetriveArrays :=
  order.foldl (fun r bid => a.buildTreeEfficient bid r) .empty

/-- The tree of a row. -/
def tree (bid : Nat) : ParentTree where
  size := a.draftTokenNum
  parent c :=
    if 0 < c ∧ c < a.draftTokenNum ∧ a.parentPosition bid c < a.draftTokenNum then
    some (a.parentPosition bid c) else none
  root := if_neg (by simp)
  bounded c p h := by
    split at h
    · next hc => exact ⟨hc.2.1, some.inj h ▸ hc.2.2⟩
    · cases h

end

variable {a : BuildTreeArgs} {bid i c p : Nat} {r : RetriveArrays}

lemma parentPosition_le (a : BuildTreeArgs) (bid i : Nat) :
    a.parentPosition bid i ≤ a.draftTokenNum := by
  unfold parentPosition
  dsimp only
  split
  · cases h : a.findSelected bid (a.parentTokenIdx bid (a.parentTbIdx bid (i - 1))) with
    | none => exact le_refl _
    | some position => exact mem_range.mp (mem_of_find?_eq_some h)
  · exact Nat.zero_le _

/-- The children of `p` with a number from `from` on. -/
def firstChild (a : BuildTreeArgs) (bid p start : Nat) : Int :=
  firstFrom (fun c => (a.tree bid).parent c == some p) a.draftTokenNum start

/-- The tokens above `i` are linked. -/
structure Linking (a : BuildTreeArgs) (bid i : Nat) (r : RetriveArrays) : Prop where
  index : ∀ c, i < c → c < a.draftTokenNum → r.retriveIndex (bid * a.draftTokenNum + c) =
    (bid * a.draftTokenNum + c : Nat)
  next : ∀ p < a.draftTokenNum, r.retriveNextToken (bid * a.draftTokenNum + p) =
    a.firstChild bid p (i + 1)
  sibling : ∀ c p, i < c → (a.tree bid).parent c = some p →
    r.retriveNextSibling (bid * a.draftTokenNum + c) = a.firstChild bid p (c + 1)
  fresh : ∀ c ≤ i, c < a.draftTokenNum → r.retriveNextSibling (bid * a.draftTokenNum + c) = -1

lemma firstChild_step (h : i + 1 < a.draftTokenNum) (p : Nat) : a.firstChild bid p (i + 1) =
    if (a.tree bid).parent (i + 1) = some p then ((i + 1 : Nat) : Int)
    else a.firstChild bid p (i + 2) := by
  rw [firstChild, firstFrom_step h]
  by_cases hp : (a.tree bid).parent (i + 1) = some p <;> simp [hp, firstChild]

section
variable {r' : RetriveArrays} (hi : i + 1 < a.draftTokenNum) (h : Linking a bid (i + 1) r)
  (hindex : r'.retriveIndex = update r.retriveIndex (bid * a.draftTokenNum + (i + 1))
  (bid * a.draftTokenNum + (i + 1) : Nat))
include h hindex

lemma Linking.index_step (hc : i < c) (hlt : c < a.draftTokenNum) :
    r'.retriveIndex (bid * a.draftTokenNum + c) = (bid * a.draftTokenNum + c : Nat) := by
  rw [hindex, update_apply]
  split
  · next heq => rw [heq]
  · exact h.index c (by omega) hlt

include hi

/-- Linking one more token, whose list of siblings so far becomes its next siblings. -/
lemma Linking.push (hp : (a.tree bid).parent (i + 1) = some p)
    (hnext : r'.retriveNextToken = update r.retriveNextToken (bid * a.draftTokenNum + p)
    (i + 1 : Nat))
    (hsibling : r'.retriveNextSibling = update r.retriveNextSibling
    (bid * a.draftTokenNum + (i + 1))
      (r.retriveNextToken (bid * a.draftTokenNum + p))) : Linking a bid i r' where
  index _ := h.index_step hindex
  next q hq := by
    rw [hnext, firstChild_step hi, hp, update_apply]
    by_cases hqp : q = p
    · rw [if_pos (by rw [hqp]), if_pos (by rw [hqp])]
    · rw [if_neg (by omega), if_neg (fun heq => hqp (some.inj heq).symm)]
      exact h.next q hq
  sibling c q hc hq := by
    rw [hsibling, update_apply]
    by_cases hci : c = i + 1
    · subst hci
      cases hp.symm.trans hq
      rw [if_pos rfl]
      exact h.next p ((a.tree bid).bounded _ _ hp).2
    · rw [if_neg (by omega)]
      exact h.sibling c q (by omega) hq
  fresh c hc hlt := by
    rw [hsibling, update_of_ne (by omega)]
    exact h.fresh c (by omega) hlt

lemma Linking.skip (hp : (a.tree bid).parent (i + 1) = none)
    (hnext : r'.retriveNextToken = r.retriveNextToken)
    (hsibling : r'.retriveNextSibling = r.retriveNextSibling) : Linking a bid i r' where
  index _ := h.index_step hindex
  next q hq := by
    rw [hnext, firstChild_step hi, hp, if_neg (by simp)]
    exact h.next q hq
  sibling c q hc hq := by
    have hne : c ≠ i + 1 := by
      rintro rfl
      rw [hp] at hq
      cases hq
    rw [hsibling]
    exact h.sibling c q (by omega) hq
  fresh c hc hlt := by
    rw [hsibling]
    exact h.fresh c (by omega) hlt

end

lemma Linking.loop (hi : i < a.draftTokenNum) (h : Linking a bid i r) :
    Linking a bid 0 (a.linkLoop bid i r) := by
  induction i generalizing r with
  | zero => exact h
  | succ i ih =>
    have hi' : i < a.draftTokenNum := Nat.lt_of_succ_lt hi
    have hle := a.parentPosition_le bid (i + 1)
    rw [linkLoop]
    split
    · next hnone =>
      have hp : (a.tree bid).parent (i + 1) = none := if_neg (by omega)
      exact ih hi' (h.skip hi rfl hp rfl rfl)
    · next hsome =>
      have hp : (a.tree bid).parent (i + 1) = some (a.parentPosition bid (i + 1)) :=
        if_pos ⟨by omega, hi, by omega⟩
      split
      · next hfirst =>
        -- the first of its siblings keeps the `-1` it has
        refine ih hi' (h.push hi rfl hp rfl ?_)
        rw [hfirst, ← h.fresh (i + 1) (le_refl _) hi, update_eq_self]
      · exact ih hi' (h.push hi rfl hp rfl rfl)

lemma linkLoop_frame (hi : i < a.draftTokenNum) {x : Nat}
    (hx : x < bid * a.draftTokenNum ∨ (bid + 1) * a.draftTokenNum ≤ x) :
    (a.linkLoop bid i r).retriveIndex x = r.retriveIndex x ∧
    (a.linkLoop bid i r).retriveNextToken x = r.retriveNextToken x ∧
      (a.linkLoop bid i r).retriveNextSibling x = r.retriveNextSibling x := by
  have hrow : (bid + 1) * a.draftTokenNum = bid * a.draftTokenNum + a.draftTokenNum :=
    Nat.succ_mul _ _
  induction i generalizing r with
  | zero => exact ⟨rfl, rfl, rfl⟩
  | succ i ih =>
    have hle := a.parentPosition_le bid (i + 1)
    have hne : x ≠ bid * a.draftTokenNum + (i + 1) := by omega
    rw [linkLoop]
    split
    · obtain ⟨h1, h2, h3⟩ := @ih { r with retriveIndex := _ } (Nat.lt_of_succ_lt hi)
      exact ⟨h1.trans (update_of_ne hne _ _), h2, h3⟩
    rename_i hsome
    have hnep : x ≠ bid * a.draftTokenNum + a.parentPosition bid (i + 1) := by omega
    split
    · obtain ⟨h1, h2, h3⟩ := @ih ⟨_, _, _⟩ (Nat.lt_of_succ_lt hi)
      exact ⟨h1.trans (update_of_ne hne _ _), h2.trans (update_of_ne hnep _ _), h3⟩
    · obtain ⟨h1, h2, h3⟩ := @ih ⟨_, _, _⟩ (Nat.lt_of_succ_lt hi)
      exact ⟨h1.trans (update_of_ne hne _ _), h2.trans (update_of_ne hnep _ _),
        h3.trans (update_of_ne hne _ _)⟩

end BuildTreeArgs

/-- What the arrays have to hold for a row. -/
structure DrawsRow (r : RetriveArrays) (t : ParentTree) (bid : Nat) : Prop where
  index : ∀ i < t.size, r.retriveIndex (bid * t.size + i) = (bid * t.size + i : Nat)
  linked : t.Linked (fun i => r.retriveNextToken (bid * t.size + i))
    (fun i => r.retriveNextSibling (bid * t.size + i))

lemma DrawsRow.congr {r r' : RetriveArrays} {t : ParentTree} {bid : Nat} (h : DrawsRow r t bid)
    (heq : ∀ i < t.size, r'.retriveIndex (bid * t.size + i) = r.retriveIndex (bid * t.size + i) ∧
      r'.retriveNextToken (bid * t.size + i) = r.retriveNextToken (bid * t.size + i) ∧
      r'.retriveNextSibling (bid * t.size + i) = r.retriveNextSibling (bid * t.size + i)) :
      DrawsRow r' t bid where
  index i hi := (heq i hi).1.trans (h.index i hi)
  linked := h.linked.congr (fun i hi => (heq i hi).2.1) fun i hi => (heq i hi).2.2

lemma outside_row {n i b b' : Nat} (hne : b ≠ b') (hi : i < n) :
    b * n + i < b' * n ∨ (b' + 1) * n ≤ b * n + i := by
  rcases Nat.lt_or_gt_of_ne hne with h | h
  · left
    have hle : (b + 1) * n ≤ b' * n := Nat.mul_le_mul_right n h
    rw [Nat.succ_mul] at hle
    omega
  · right
    have hle : (b' + 1) * n ≤ b * n := Nat.mul_le_mul_right n h
    omega

namespace BuildTreeArgs
variable {a : BuildTreeArgs} {bid : Nat} {r : RetriveArrays}

lemma buildTreeEfficient_draws
    (hfresh : ∀ i < a.draftTokenNum, r.retriveNextToken (bid * a.draftTokenNum + i) = -1 ∧
      r.retriveNextSibling (bid * a.draftTokenNum + i) = -1) :
    DrawsRow (a.buildTreeEfficient bid r) (a.tree bid) bid := by
  have hpos := a.draftTokenNum_pos
  have hstart : Linking a bid (a.draftTokenNum - 1) r := by
    refine ⟨fun c h h' =>
      by omega, fun p hp => ?_, fun c p hc hp => ?_, fun c _ hc => (hfresh c hc).2⟩
    · rw [(hfresh p hp).1, firstChild, firstFrom_of_le (by omega)]
    · have := ((a.tree bid).bounded c p hp).1
      exact absurd this (by simp only [tree]; omega)
  have hend := hstart.loop (by omega)
  have hroot (p : Nat) : a.firstChild bid p 0 = a.firstChild bid p 1 := by
    rw [firstChild, firstFrom_step hpos, (a.tree bid).root]
    rfl
  refine ⟨fun i hi => ?_, linked_of_firstFrom (fun p hp => ?_) fun c p hp => ?_⟩
  · change i < a.draftTokenNum at hi
    have hwrite : (a.buildTreeEfficient bid r).retriveIndex =
      update (a.linkLoop bid (a.draftTokenNum - 1) r).retriveIndex (bid * a.draftTokenNum)
      (bid * a.draftTokenNum : Nat) := rfl
    rw [hwrite, show (a.tree bid).size = a.draftTokenNum from rfl, update_apply]
    split
    · next heq => rw [heq]
    · exact hend.index i (by omega) hi
  · exact (hend.next p hp).trans (hroot p).symm
  · have hc : 0 < c := Nat.pos_of_ne_zero fun h0 => by
      rw [h0, (a.tree bid).root] at hp
      cases hp
    exact hend.sibling c p hc hp

lemma buildTreeEfficient_frame {x : Nat}
    (hx : x < bid * a.draftTokenNum ∨ (bid + 1) * a.draftTokenNum ≤ x) :
    (a.buildTreeEfficient bid r).retriveIndex x = r.retriveIndex x ∧
      (a.buildTreeEfficient bid r).retriveNextToken x = r.retriveNextToken x ∧
      (a.buildTreeEfficient bid r).retriveNextSibling x = r.retriveNextSibling x := by
  have hpos := a.draftTokenNum_pos
  have hrow : (bid + 1) * a.draftTokenNum = bid * a.draftTokenNum + a.draftTokenNum :=
    Nat.succ_mul _ _
  obtain ⟨h1, h2, h3⟩ := @linkLoop_frame a bid (a.draftTokenNum - 1) r (by omega) x hx
  exact ⟨(update_of_ne (by omega) _ _).trans h1, h2, h3⟩

lemma buildTree_draws {order : List Nat} (hnodup : order.Nodup) (hbid : bid ∈ order) :
    DrawsRow (a.buildTree order) (a.tree bid) bid := by
  have key : ∀ (order : List Nat) (r : RetriveArrays), order.Nodup →
    (bid ∉ order → DrawsRow r (a.tree bid) bid) →
      (bid ∈ order → ∀ i < a.draftTokenNum, r.retriveNextToken (bid * a.draftTokenNum + i) = -1 ∧
        r.retriveNextSibling (bid * a.draftTokenNum + i) = -1) →
      DrawsRow (order.foldl (fun r bid => a.buildTreeEfficient bid r) r) (a.tree bid) bid := by
    intro order
    induction order with
    | nil => exact fun r _ h _ => h not_mem_nil
    | cons b order ih =>
      intro r hnodup hdone hfresh
      obtain ⟨hb, hnodup⟩ := nodup_cons.mp hnodup
      refine ih _ hnodup (fun hnot => ?_) fun hin i hi => ?_
      · by_cases hbb : bid = b
        · exact hbb ▸ buildTreeEfficient_draws (hbb ▸ hfresh (hbb ▸ mem_cons_self))
        · exact (hdone (by simp [hbb, hnot])).congr fun i hi =>
            buildTreeEfficient_frame (outside_row hbb hi)
      · have hbb : bid ≠ b := fun h => hb (h ▸ hin)
        obtain ⟨-, h2, h3⟩ := @buildTreeEfficient_frame a b r _ (outside_row hbb hi)
        rw [h2, h3]
        exact hfresh (mem_cons_of_mem b hin) i hi
  exact key order .empty hnodup (fun hnot => absurd hbid hnot) fun _ _ _ => ⟨rfl, rfl⟩

end BuildTreeArgs

/-! ### From the attention mask -/

/-- The inputs of `reconstructIndicesFromTreeMask`. -/
structure TreeMaskArgs where
  treeMask : Nat → Bool
  draftTokenNum : Nat

namespace TreeMaskArgs

section
variable (a : TreeMaskArgs)

/-- Whether token `i` attends to token `j`. -/
def cell (bid i j : Nat) : Bool :=
  a.treeMask (bid * (a.draftTokenNum * a.draftTokenNum) + i * a.draftTokenNum + j)

def parentIdx (bid tid : Nat) : Option Nat := lastBelow (a.cell bid tid) tid

def nextTokenIdx (bid tid : Nat) : Int :=
  firstFrom (fun i => a.cell bid i tid) a.draftTokenNum (tid + 1)

/-- Token `i` attends to the parent and to nothing between the parent and itself. -/
def isSibling (bid parent i : Nat) : Bool :=
  a.cell bid i parent && (List.range' (parent + 1) (i - (parent + 1))).all fun j => !a.cell bid i j

def nextSiblingIdx (bid tid : Nat) : Int :=
  match a.parentIdx bid tid with
  | some parent => firstFrom (a.isSibling bid parent) a.draftTokenNum (tid + 1)
  | none => -1

/-- Thread `tid` of block `bid` writes entry `bid * draft_token_num + tid`. -/
def reconstructIndicesFromTreeMask : RetriveArrays where
  retriveIndex x := x
  retriveNextToken x := a.nextTokenIdx (x / a.draftTokenNum) (x % a.draftTokenNum)
  retriveNextSibling x := a.nextSiblingIdx (x / a.draftTokenNum) (x % a.draftTokenNum)

end

/-- The tokens before `tid` that it attends to. -/
def depth (a : TreeMaskArgs) (bid tid : Nat) : Nat := (List.range tid).countP (a.cell bid tid)

def positions (a : TreeMaskArgs) (verifiedSeqLen : Nat → Int) (x : Nat) : Int :=
  a.depth (x / a.draftTokenNum) (x % a.draftTokenNum) + verifiedSeqLen (x / a.draftTokenNum)

end TreeMaskArgs

/-- The mask of a tree: every token attends to its path, and parents come first. -/
structure MaskOf (t : ParentTree) (a : TreeMaskArgs) (bid : Nat) : Prop where
  size : t.size = a.draftTokenNum
  cell : ∀ i < t.size, ∀ j < t.size, a.cell bid i j = true ↔ t.Ancestor j i
  ordered : ∀ c p, t.parent c = some p → p < c
  complete : ∀ c, 0 < c → c < t.size → ∃ p, t.parent c = some p

namespace MaskOf
variable {t : ParentTree} {a : TreeMaskArgs} {bid i j c p : Nat} {l : List Nat}

lemma ancestor_le (h : MaskOf t a bid) (hji : t.Ancestor j i) : j ≤ i := by
  induction hji with
  | refl => exact le_refl _
  | tail _ hc ih => exact ih.trans (le_of_lt (h.ordered _ _ hc))

lemma ancestor_parent (h : t.Ancestor j i) (hne : j ≠ i) (hp : t.parent i = some p) :
    t.Ancestor j p := by
  rcases h.cases with heq | ⟨q, hq, hqi⟩
  · exact absurd heq hne
  · rwa [← some.inj (hqi.symm.trans hp)]

section
variable (h : MaskOf t a bid)
include h

lemma parentIdx_eq (hp : t.parent c = some p) : a.parentIdx bid c = some p := by
  obtain ⟨hc, hps⟩ := t.bounded c p hp
  refine lastBelow_eq_some (h.ordered c p hp) ((h.cell c hc p hps).mpr (.single hp)) fun j hj hjc =>
    ?_
  rw [← Bool.not_eq_true, h.cell c hc j (by omega)]
  intro hanc
  have := h.ancestor_le (ancestor_parent hanc (by omega) hp)
  omega

open TreeMaskArgs

lemma nextTokenIdx_eq (hp : p < t.size) :
    a.nextTokenIdx bid p = firstFrom (fun c => t.parent c == some p) t.size 0 := by
  have hskip : firstFrom (fun c => t.parent c == some p) t.size 0 = firstFrom
      (fun c => t.parent c == some p) t.size (p + 1) :=
    firstFrom_skip (Nat.zero_le _) fun c _ hc => by
      have : t.parent c ≠ some p := fun heq => absurd (h.ordered c p heq) (by omega)
      simpa using this
  rw [hskip, nextTokenIdx, ← h.size]
  refine firstFrom_eq (fun c _ hc hpc => ?_) fun c hpc hc hcell hbefore => ?_
  · exact (h.cell c hc p hp).mpr (.single (by simpa using hpc))
  · -- the parent of the first descendant is no descendant in between
    have hanc := (h.cell c hc p hp).mp hcell
    obtain ⟨q, hq⟩ := h.complete c (by omega) hc
    have hpq := ancestor_parent hanc (by omega) hq
    by_cases hqp : q = p
    · simpa [hqp] using hq
    · have hqc := h.ordered c q hq
      have hle := h.ancestor_le hpq
      have := hbefore q (by omega) hqc
      rw [(h.cell q (t.bounded c q hq).2 p hp).mpr hpq] at this
      cases this

lemma isSibling_eq (hpi : p < i) (hi : i < t.size) :
    a.isSibling bid p i = (t.parent i == some p) := by
  obtain ⟨q, hq⟩ := h.complete i (by omega) hi
  have hqi := h.ordered i q hq
  rw [Bool.eq_iff_iff, beq_iff_eq, isSibling, Bool.and_eq_true, List.all_eq_true,
    h.cell i hi p (by omega)]
  constructor
  · rintro ⟨hanc, hnone⟩
    have hle := h.ancestor_le (ancestor_parent hanc (by omega) hq)
    by_cases hqp : q = p
    · rw [hq, hqp]
    · have := hnone q (mem_range'_1.mpr ⟨by omega, by omega⟩)
      rw [(h.cell i hi q (by omega)).mpr (.single hq)] at this
      cases this
  · intro hp
    refine ⟨.single hp, fun j hj => ?_⟩
    obtain ⟨hpj, hji⟩ := mem_range'_1.mp hj
    rw [Bool.not_eq_true', ← Bool.not_eq_true, h.cell i hi j (by omega)]
    intro hanc
    have := h.ancestor_le (ancestor_parent hanc (by omega) hp)
    omega

lemma row (hi : i < t.size) : (bid * t.size + i) / a.draftTokenNum = bid ∧
    (bid * t.size + i) % a.draftTokenNum = i := by
  rw [← h.size, Nat.mul_comm]
  have hpos : 0 < t.size := Nat.lt_of_le_of_lt (Nat.zero_le i) hi
  exact ⟨by rw [Nat.mul_add_div hpos, Nat.div_eq_of_lt hi, Nat.add_zero], by rw [Nat.mul_add_mod, Nat.mod_eq_of_lt hi]⟩

lemma nextSiblingIdx_eq (hp : t.parent c = some p) :
    a.nextSiblingIdx bid c = firstFrom (fun d => t.parent d == some p) t.size (c + 1) := by
  have hpc := h.ordered c p hp
  rw [nextSiblingIdx, h.parentIdx_eq hp, ← h.size]
  exact firstFrom_congr fun i hi hlt => h.isSibling_eq (by omega) hlt

lemma draws : DrawsRow a.reconstructIndicesFromTreeMask t bid := by
  refine ⟨fun i _ => rfl, linked_of_firstFrom (fun p hp => ?_) fun c p hp => ?_⟩
  · show a.nextTokenIdx ((bid * t.size + p) / a.draftTokenNum)
      ((bid * t.size + p) % a.draftTokenNum) = _
    rw [(h.row hp).1, (h.row hp).2]
    exact h.nextTokenIdx_eq hp
  · have hc := (t.bounded c p hp).1
    show a.nextSiblingIdx ((bid * t.size + c) / a.draftTokenNum)
      ((bid * t.size + c) % a.draftTokenNum) = _
    rw [(h.row hc).1, (h.row hc).2]
    exact h.nextSiblingIdx_eq hp

lemma depth_parent (hp : t.parent c = some p) : a.depth bid c = a.depth bid p + 1 := by
  obtain ⟨hc, hps⟩ := t.bounded c p hp
  have hpc := h.ordered c p hp
  have hcell (j : Nat) (hj : j < c) : a.cell bid c j = true ↔ t.Ancestor j p := by
    rw [h.cell c hc j (by omega)]
    exact ⟨fun hanc => ancestor_parent hanc (by omega) hp, fun hanc => hanc.tail hp⟩
  obtain ⟨d, rfl⟩ : ∃ d, c = p + (1 + d) := ⟨c - p - 1, by omega⟩
  have hbefore : (List.range p).countP (a.cell bid (p + (1 + d))) = a.depth bid p := by
    refine countP_congr fun j hj => ?_
    have hjp := mem_range.mp hj
    rw [hcell j (by omega), h.cell p hps j (by omega)]
  have hself : a.cell bid (p + (1 + d)) p = true := (hcell p hpc).mpr .refl
  have hbehind : (range' (p + 1) d).countP (a.cell bid (p + (1 + d))) = 0 := by
    refine countP_eq_zero.mpr fun j hj hanc => ?_
    obtain ⟨hle, hlt⟩ := mem_range'_1.mp hj
    have := h.ancestor_le ((hcell j (by omega)).mp hanc)
    omega
  rw [depth, range_eq_range', ← range'_append_1, Nat.zero_add, Nat.add_comm 1 d,
    range'_succ, countP_append, countP_cons_of_pos (by rwa [Nat.add_comm d]),
    Nat.add_comm d, hbehind, ← range_eq_range', hbefore]

lemma depth_eq (hpath : t.RootPath (l ++ [c])) : a.depth bid c = l.length := by
  induction l using List.reverseRecOn generalizing c with
  | nil =>
    obtain rfl : c = 0 := by simpa using hpath.head
    rfl
  | append_singleton l p ih =>
    obtain ⟨hparent, hc⟩ := hpath.of_snoc
    rw [h.depth_parent hc, ih hparent, length_append, length_singleton]

lemma rootPath (hc : c < t.size) : ∃ l, t.RootPath (l ++ [c]) := by
  induction c using Nat.strong_induction_on with
  | h c ih =>
    rcases Nat.eq_zero_or_pos c with rfl | hpos
    · exact ⟨[], t.rootPath_root⟩
    · obtain ⟨p, hp⟩ := h.complete c hpos hc
      obtain ⟨l, hl⟩ := ih p (h.ordered c p hp) (t.bounded c p hp).2
      exact ⟨_, hl.snoc hp⟩

lemma leastOr_nextToken (hi : i < t.size) :
    LeastOr (fun c => t.parent c = some i) (a.nextTokenIdx bid i) := by
  rw [h.nextTokenIdx_eq hi]
  refine (leastOr_firstFrom _ _ _).congr fun c => ?_
  have hlt : t.parent c = some i → c < t.size := fun hc => (t.bounded c i hc).1
  simpa using hlt

lemma leastOr_nextSibling (hi : i < t.size) :
    LeastOr (fun c => i < c ∧ ∃ p, t.parent i = some p ∧ t.parent c = some p)
    (a.nextSiblingIdx bid i) := by
  rcases Nat.eq_zero_or_pos i with rfl | hpos
  · exact .inr ⟨rfl, fun c ⟨_, p, hp, _⟩ => by rw [t.root] at hp; cases hp⟩
  · obtain ⟨p, hp⟩ := h.complete i hpos hi
    rw [h.nextSiblingIdx_eq hp]
    refine (leastOr_firstFrom _ _ _).congr fun c => ?_
    have hlt : t.parent c = some p → c < t.size := fun hc => (t.bounded c p hc).1
    simp only [hp, beq_iff_eq, some.injEq, exists_eq_left']
    exact and_congr_right fun _ => and_iff_right_of_imp hlt

end

/-- **Tree links are recovered exactly from the mask.** Every token gets its depth behind the
verified tokens, its child of lowest index and the next higher index with the same parent, and
following the links visits every token once. -/
theorem reconstructIndicesFromTreeMask_exact (h : MaskOf t a bid) (verifiedSeqLen : Nat → Int) :
    (∀ i < t.size, (∃ l, t.RootPath (l ++ [i]) ∧
    a.positions verifiedSeqLen (bid * t.size + i) = verifiedSeqLen bid + l.length) ∧
      LeastOr (fun c => t.parent c = some i)
      (a.reconstructIndicesFromTreeMask.retriveNextToken (bid * t.size + i)) ∧
      LeastOr (fun c => i < c ∧ ∃ p, t.parent i = some p ∧ t.parent c = some p)
        (a.reconstructIndicesFromTreeMask.retriveNextSibling (bid * t.size + i))) ∧
    (followLinks (fun i => a.reconstructIndicesFromTreeMask.retriveNextToken (bid * t.size + i))
      (fun i => a.reconstructIndicesFromTreeMask.retriveNextSibling
      (bid * t.size + i)) t.size 0).Perm (List.range t.size) := by
  simp only [TreeMaskArgs.reconstructIndicesFromTreeMask, TreeMaskArgs.positions]
  refine ⟨fun i hi => ?_, h.draws.linked.followLinks_root (fun c hc => ?_) ?_⟩
  · obtain ⟨hdiv, hmod⟩ := h.row hi
    obtain ⟨l, hl⟩ := h.rootPath hi
    rw [hdiv, hmod]
    exact ⟨⟨l, hl, by rw [h.depth_eq hl, Int.add_comm]⟩, h.leastOr_nextToken hi,
      h.leastOr_nextSibling hi⟩
  · obtain ⟨l, hl⟩ := h.rootPath hc
    exact hl.ancestor_root
  · show a.nextSiblingIdx _ ((bid * t.size + 0) % a.draftTokenNum) = -1
    rw [Nat.add_zero, h.size, Nat.mul_mod_left]
    rfl

/-- The last accepted token with two candidates for the next. -/
theorem reconstructIndicesFromTreeMask_fork : ∃ t a, MaskOf t a 0 ∧
    (followLinks a.reconstructIndicesFromTreeMask.retriveNextToken a.reconstructIndicesFromTreeMask.retriveNextSibling 3 0).Perm [0, 1, 2] := by
  let t : ParentTree := ⟨3, fun c => if c = 1 ∨ c = 2 then some 0 else none, rfl, by grind⟩
  have hanc (i j : Nat) : t.Ancestor j i ↔ j = i ∨ j = 0 ∧ (i = 1 ∨ i = 2) := by
    constructor
    · intro h
      rcases h.cases with heq | ⟨p, hp, hi⟩
      · exact .inl heq
      · obtain ⟨hchild, rfl⟩ : (i = 1 ∨ i = 2) ∧ 0 = p := by simpa [t] using hi
        rcases hp.cases with heq | ⟨q, -, hq⟩
        · exact .inr ⟨heq, hchild⟩
        · cases hq
    · rintro (rfl | ⟨rfl, hi⟩)
      · exact .refl
      · exact .single (if_pos hi)
  have h : MaskOf t ⟨fun x => [0, 3, 4, 6, 8].contains x, 3⟩ 0 := by
    refine ⟨rfl, ?_, by grind, by grind⟩
    simp only [hanc]
    decide
  have hvisit := (reconstructIndicesFromTreeMask_exact h fun _ => 0).2
  simp only [Nat.zero_mul, Nat.zero_add] at hvisit
  exact ⟨t, _, h, hvisit⟩

end MaskOf

end Sglang.Speculative
