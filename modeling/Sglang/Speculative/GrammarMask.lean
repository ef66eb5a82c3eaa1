import Sglang.Constrained.GrammarObject
import Sglang.Speculative.DraftTree

/-! The token bitmask of a draft tree.

`traverse_tree` walks over the draft tree of a request with its one grammar object: it feeds the
token of a node, marks what may follow, goes down and takes the token back. It does not go below a
token that the grammar does not allow, nor below one that terminates it; the rows of the nodes there
stay as they were allocated. -/
namespace Sglang.Speculative

open List Option Function
open ChildLinks ParentTree Constrained

/-- The row of a request in the arrays of the draft trees. -/
structure TreeRow where
  nextToken : Nat → Int
  nextSibling : Nat → Int
  draftTokens : Nat → Nat

variable {γ : Type} {G : GrammarObject γ} {t : ParentTree} {tokens : Nat → Nat}
  {vocabSize c x p : Nat} {g₀ g g' : γ}
  {mask mask' : Nat → BitRow}

/-- Whether the token of a node may be fed. The first token is from the step before and has been. -/
def TreeRow.accepted (tr : TreeRow) (vocabSize : Nat) (mask : Nat → BitRow)
    (curr : Nat) (parentPos : Int) : Bool :=
  if curr = 0 then true
  else if vocabSize ≠ 0 ∧ tr.draftTokens curr ≥ vocabSize then false
  else bitSet (mask parentPos.toNat) (tr.draftTokens curr)

/-- The part of `dfs` that is about the node and its children; `child` is the call for the first
child. -/
def visit (G : GrammarObject γ) (tr : TreeRow) (vocabSize : Nat)
    (child : Nat → γ → (Nat → BitRow) → Option (γ × (Nat → BitRow))) (curr : Nat)
    (parentPos : Int) (g : γ) (mask : Nat → BitRow) : Option (γ × (Nat → BitRow)) :=
  if tr.accepted vocabSize mask curr parentPos then
    (if curr = 0 then some g else G.acceptToken g (tr.draftTokens curr)).bind fun g =>
      (if G.isTerminated g then some (g, mask)
        else
          let mask := update mask curr (G.fillVocabMask g (mask curr))
          if tr.nextToken curr ≠ -1 then child (tr.nextToken curr).toNat g mask
            else some (g, mask)).bind fun (g, mask) =>
        (if curr = 0 then some g else G.rollback g 1).map fun g => (g, mask)
  else some (g, mask)

/-- `none` is an error of the grammar, or links that do not end. -/
def dfs (G : GrammarObject γ) (tr : TreeRow) (vocabSize : Nat) :
    (fuel curr : Nat) → (parentPos : Int) → γ → (Nat → BitRow) → Option (γ × (Nat → BitRow))
  | 0, _, _, _, _ => none
  | fuel + 1, curr, parentPos, g, mask =>
    (visit G tr vocabSize
      (fun c g mask => dfs G tr vocabSize fuel c curr g mask) curr parentPos g mask).bind
      fun (g, mask) =>
      if tr.nextSibling curr ≠ -1 then
        dfs G tr vocabSize fuel (tr.nextSibling curr).toNat parentPos g mask else some (g, mask)

def traverseTree (G : GrammarObject γ) (tr : TreeRow) (vocabSize numDraftTokens : Nat)
    (g : γ) (mask : Nat → BitRow) :
    Option (γ × (Nat → BitRow)) :=
  dfs G tr vocabSize numDraftTokens 0 (-1) g mask

def RetriveArrays.row (r : RetriveArrays) (draftTokens : Nat → Nat) (numDraftTokens i : Nat) :
    TreeRow where
  nextToken j := r.retriveNextToken (i * numDraftTokens + j)
  nextSibling j := r.retriveNextSibling (i * numDraftTokens + j)
  draftTokens j := draftTokens (i * numDraftTokens + j)

/-- The rows `[i * n : (i + 1) * n]` after a call that has written to them. -/
def writeRows (n i : Nat) (rows mask : Nat → BitRow) : Nat → BitRow := fun x =>
  if i * n ≤ x ∧ x < (i + 1) * n then rows (x - i * n) else mask x

/-- The requests from `i` on. The bitmask is allocated at the first one with a grammar. -/
def generateTokenBitmask (G : GrammarObject γ) (r : RetriveArrays) (draftTokens : Nat → Nat)
    (numDraftTokens vocabSize : Nat) :
    Nat → List (Option γ) → Option (Nat → BitRow) → Option (List (Option γ) × Option (Nat → BitRow))
  | _, [], mask => some ([], mask)
  | i, none :: grammars, mask =>
    (generateTokenBitmask G r draftTokens numDraftTokens vocabSize (i + 1) grammars mask).map
      fun (gs, mask) => (none :: gs, mask)
  | i, some g :: grammars, mask =>
    let mask := mask.getD fun _ => freshRow
    (traverseTree G (r.row draftTokens numDraftTokens i) vocabSize numDraftTokens g
      fun j => mask (i * numDraftTokens + j)).bind
      fun (g, rows) =>
        (generateTokenBitmask G r draftTokens numDraftTokens vocabSize (i + 1) grammars
          (some (writeRows numDraftTokens i rows mask))).map fun (gs, mask) => (some g :: gs, mask)

/-! ### The nodes that are reached -/

/-- Going down to node `c` with allowed tokens only, the grammar is in state `g`. -/
inductive Reaches (G : GrammarObject γ) (t : ParentTree) (tokens : Nat → Nat)
    (vocabSize : Nat) (g₀ : γ) : Nat → γ → Prop
  | root : Reaches G t tokens vocabSize g₀ 0 g₀
  | child {p c : Nat} {g g' : γ} (hp : Reaches G t tokens vocabSize g₀ p g)
      (hopen : G.isTerminated g = false)
      (hc : t.parent c = some p) (hvocab : tokens c < vocabSize)
        (haccept : G.acceptToken g (tokens c) = some g') :
      Reaches G t tokens vocabSize g₀ c g'

lemma Reaches.of_parent (h : Reaches G t tokens vocabSize g₀ c g') (hc : t.parent c = some p) :
    ∃ g, Reaches G t tokens vocabSize g₀ p g ∧ G.isTerminated g = false ∧ tokens c < vocabSize ∧
      G.acceptToken g (tokens c) = some g' := by
  cases h with
  | root =>
    rw [t.root] at hc
    cases hc
  | child hp hopen hc' hvocab haccept =>
    cases hc.symm.trans hc'
    exact ⟨_, hp, hopen, hvocab, haccept⟩

lemma Reaches.unique (h : Reaches G t tokens vocabSize g₀ c g)
    (h' : Reaches G t tokens vocabSize g₀ c g') : g = g' := by
  induction h generalizing g' with
  | root =>
    cases h' with
    | root => rfl
    | child hp hopen hc _ _ =>
      rw [t.root] at hc
      cases hc
  | child hp hopen hc hvocab haccept ih =>
    obtain ⟨g1, hp1, -, -, haccept1⟩ := h'.of_parent hc
    rw [ih hp1, haccept1] at haccept
    exact some.inj haccept.symm

lemma Reaches.rootPath (h : Reaches G t tokens vocabSize g₀ c g) : ∃ l, t.RootPath (l ++ [c]) := by
  induction h with
  | root => exact ⟨[], t.rootPath_root⟩
  | child _ _ hc _ _ ih =>
    obtain ⟨l, hl⟩ := ih
    exact ⟨_, hl.snoc hc⟩

lemma Reaches.above (h : Reaches G t tokens vocabSize g₀ x g) (hanc : t.Ancestor c x) :
    ∃ g', Reaches G t tokens vocabSize g₀ c g' ∧ (c = x ∨ G.isTerminated g' = false) := by
  induction h with
  | root =>
    rcases hanc.cases with rfl | ⟨p, -, hp⟩
    · exact ⟨_, .root, .inl rfl⟩
    · rw [t.root] at hp
      cases hp
  | child hp hopen hc hvocab haccept ih =>
    rcases hanc.cases with rfl | ⟨q, hq, hcq⟩
    · exact ⟨_, .child hp hopen hc hvocab haccept, .inl rfl⟩
    · cases hc.symm.trans hcq
      obtain ⟨g', hg', heq | hopen'⟩ := ih hq
      · exact ⟨g', hg', .inr (hp.unique (heq ▸ hg') ▸ hopen)⟩
      · exact ⟨g', hg', .inr hopen'⟩

/-- What the traversal writes at the nodes below a list of siblings. -/
structure Filled (G : GrammarObject γ) (t : ParentTree) (tokens : Nat → Nat)
    (vocabSize : Nat) (g₀ : γ) (cs : List Nat) (mask mask' : Nat → BitRow) : Prop where
  reached : ∀ x ∈ t.below cs, ∀ g, Reaches G t tokens vocabSize g₀ x g → G.isTerminated g = false →
    mask' x = G.fillVocabMask g freshRow
  other : ∀ x ∈ t.below cs, (∀ g, Reaches G t tokens vocabSize g₀ x g → G.isTerminated g = true) →
    mask' x = mask x
  outside : ∀ x ∉ t.below cs, mask' x = mask x

/-! ### The traversal -/

section Dfs
variable {tr : TreeRow} {fuel : Nat} {cs : List Nat} {mask'' : Nat → BitRow}

lemma Filled.cons {l : List Nat} (hpath : t.RootPath (l ++ [p]))
    (hparent : ∀ d ∈ c :: cs, t.parent d = some p) (hnew : c ∉ cs)
    (h : Filled G t tr.draftTokens vocabSize g₀ [c] mask mask')
    (h' : Filled G t tr.draftTokens vocabSize g₀ cs mask' mask'') :
    Filled G t tr.draftTokens vocabSize g₀ (c :: cs) mask mask'' := by
  have hdisjoint : ∀ x ∈ t.below [c], x ∉ t.below cs := fun x => hpath.below_disjoint hparent hnew
  refine ⟨fun x hx g hg hopen => ?_, fun x hx hshut => ?_, fun x hx => ?_⟩
  · rcases mem_below_cons.mp hx with hx | hx
    · rw [h'.outside x (hdisjoint x hx)]
      exact h.reached x hx g hg hopen
    · exact h'.reached x hx g hg hopen
  · rcases mem_below_cons.mp hx with hx | hx
    · rw [h'.outside x (hdisjoint x hx)]
      exact h.other x hx hshut
    · rw [h'.other x hx hshut]
      exact h.outside x fun hx' => hdisjoint x hx' hx
  · obtain ⟨hc, hcs⟩ := not_or.mp fun hx' => hx (mem_below_cons.mpr hx')
    rw [h'.outside x hcs]
    exact h.outside x hc

/-- Nothing is written where no node is reached with an open grammar. -/
lemma Filled.skip
    (h : ∀ x ∈ t.below cs, ∀ g, Reaches G t tr.draftTokens vocabSize g₀ x g →
    G.isTerminated g = true) :
    Filled G t tr.draftTokens vocabSize g₀ cs mask mask where
  reached x hx g hg hopen := by
    rw [h x hx g hg] at hopen
    cases hopen
  other _ _ _ := rfl
  outside _ _ := rfl

/-- What a call for a list of siblings does, as far as the fuel goes. -/
def Traverses (G : GrammarObject γ) (t : ParentTree) (tr : TreeRow) (vocabSize : Nat)
    (g₀ : γ) (fuel : Nat) : Prop :=
  ∀ (c p : Nat) (cs : List Nat) (g : γ) (mask : Nat → BitRow),
    Reaches G t tr.draftTokens vocabSize g₀ p g →
    G.isTerminated g = false → mask p = G.fillVocabMask g freshRow →
    Chain tr.nextSibling (tr.nextSibling c) cs →
    (c :: cs).Nodup → (∀ d ∈ c :: cs, t.parent d = some p) →
    (∀ x ∈ t.below (c :: cs), mask x = freshRow) →
    (t.below (c :: cs)).card ≤ fuel →
    ∃ mask', dfs G tr vocabSize fuel c p g mask = some (g, mask') ∧
    Filled G t tr.draftTokens vocabSize g₀ (c :: cs) mask mask'

section
variable (hlinked : t.Linked tr.nextToken tr.nextSibling) (ih : Traverses G t tr vocabSize g₀ fuel)
  (hopen : G.isTerminated g = false) (hfresh : ∀ x ∈ t.below [c], mask x = freshRow)
  (hfuel : (t.below [c]).card ≤ fuel + 1)
include hlinked ih hopen hfresh hfuel

lemma visit_children (hc : Reaches G t tr.draftTokens vocabSize g₀ c g) (hlt : c < t.size) :
    ∃ mask', (if tr.nextToken c ≠ -1 then
        dfs G tr vocabSize fuel (tr.nextToken c).toNat c g
        (update mask c (G.fillVocabMask g (mask c)))
      else some (g, update mask c (G.fillVocabMask g (mask c)))) = some (g, mask') ∧
      Filled G t tr.draftTokens vocabSize g₀ [c] mask mask' := by
  obtain ⟨l, hpath⟩ := hc.rootPath
  have hself : c ∈ t.below [c] := mem_below_singleton.mpr ⟨hlt, .refl⟩
  rw [hfresh c hself]
  obtain ⟨children, hnodup, hmem, hchain⟩ := hlinked c hlt
  have hbelow (x : Nat) := mem_below_children (x := x) hlt hmem
  have hsub : t.below children ⊆ t.below [c] := fun x hx => (hbelow x).mpr (.inr hx)
  have hnot : c ∉ t.below children := hpath.not_mem_below fun d => (hmem d).mp
  have hne : ∀ x ∈ t.below children, x ≠ c := fun x hx heq => hnot (heq ▸ hx)
  obtain ⟨mask', heq, hfilled⟩ : ∃ mask', (if tr.nextToken c ≠ -1 then
        dfs G tr vocabSize fuel (tr.nextToken c).toNat c g
          (update mask c (G.fillVocabMask g freshRow))
      else some (g, update mask c (G.fillVocabMask g freshRow))) = some (g, mask') ∧
      Filled G t tr.draftTokens vocabSize g₀ children
      (update mask c (G.fillVocabMask g freshRow)) mask' := by
    cases children with
    | nil =>
      have hnone : tr.nextToken c = -1 := hchain
      rw [if_neg (not_not_intro hnone)]
      refine ⟨_, rfl, .skip fun x hx => ?_⟩
      obtain ⟨-, d, hd, -⟩ := mem_below.mp hx
      exact absurd hd not_mem_nil
    | cons d ds =>
      rw [hchain.1, if_pos (by omega), Int.toNat_natCast]
      refine ih d c ds g _ hc hopen (update_self _ _ _) hchain.2 hnodup
        (fun e he => (hmem e).mp he) ?_ ?_
      · intro x hx
        rw [update_of_ne (hne x hx)]
        exact hfresh x (hsub hx)
      · have : (t.below (d :: ds)).card < (t.below [c]).card :=
          card_below_children hpath hlt fun e he => (hmem e).mp he
        omega
  refine ⟨mask', heq, fun x hx gx hgx hopenx => ?_, fun x hx hshut => ?_, fun x hx => ?_⟩
  · rcases (hbelow x).mp hx with rfl | hx
    · rw [hfilled.outside x hnot, update_self, hc.unique hgx]
    · exact hfilled.reached x hx gx hgx hopenx
  · rcases (hbelow x).mp hx with rfl | hx
    · rw [hshut g hc] at hopen
      cases hopen
    · rw [hfilled.other x hx hshut, update_of_ne (hne x hx)]
  · have hxc : x ≠ c := fun heq => hx (heq ▸ hself)
    rw [hfilled.outside x fun hx' => hx (hsub hx'), update_of_ne hxc]

lemma visit_spec (hG : G.Lawful vocabSize) (hp : Reaches G t tr.draftTokens vocabSize g₀ p g)
    (hmask : mask p = G.fillVocabMask g freshRow) (hc : t.parent c = some p) :
    ∃ mask', visit G tr vocabSize
    (fun d g mask => dfs G tr vocabSize fuel d c g mask) c p g mask = some (g, mask') ∧
      Filled G t tr.draftTokens vocabSize g₀ [c] mask mask' := by
  have hne : c ≠ 0 := by
    rintro rfl
    rw [t.root] at hc
    cases hc
  have hvocab : vocabSize ≠ 0 := by
    obtain ⟨s, hs, -⟩ := hG.live hopen
    omega
  unfold visit
  by_cases haccepted : tr.accepted vocabSize mask c p = true
  · rw [if_pos haccepted, if_neg hne]
    simp only [TreeRow.accepted, hne, if_false] at haccepted
    split at haccepted
    · cases haccepted
    rename_i hlt
    have htoken : tr.draftTokens c < vocabSize := by omega
    rw [Int.toNat_natCast, hmask, hG.mask hopen _ htoken] at haccepted
    obtain ⟨g', haccept⟩ := isSome_iff_exists.mp haccepted
    have hreach : Reaches G t tr.draftTokens vocabSize g₀ c g' := .child hp hopen hc htoken haccept
    simp only [haccept, bind_some, if_neg hne]
    cases hterm : G.isTerminated g' with
    | true =>
      simp only [if_true, bind_some, hG.undo_one haccept, map_some]
      refine ⟨mask, rfl, .skip fun x hx gx hgx => ?_⟩
      obtain ⟨g1, hg1, rfl | hopen1⟩ := hgx.above (mem_below_singleton.mp hx).2
      · rw [hgx.unique hreach, hterm]
      · rw [hg1.unique hreach, hterm] at hopen1
        cases hopen1
    | false =>
      obtain ⟨mask', heq, hfilled⟩ :=
        visit_children hlinked ih hterm hfresh hfuel hreach (t.bounded c p hc).1
      refine ⟨mask', ?_, hfilled⟩
      simp [heq, hG.undo_one haccept]
  · rw [if_neg haccepted]
    refine ⟨mask, rfl, .skip fun x hx gx hgx => absurd ?_ haccepted⟩
    -- a node below is only reached through an allowed token
    obtain ⟨g1, hg1, -⟩ := hgx.above (mem_below_singleton.mp hx).2
    obtain ⟨g2, hg2, -, htoken, haccept⟩ := hg1.of_parent hc
    rw [TreeRow.accepted, if_neg hne, if_neg (by omega), Int.toNat_natCast,
      hmask, hG.mask hopen _ htoken, hp.unique hg2, haccept]
    rfl

end

lemma dfs_traverses (hG : G.Lawful vocabSize) (hlinked : t.Linked tr.nextToken tr.nextSibling)
    (g₀ : γ) (fuel : Nat) :
    Traverses G t tr vocabSize g₀ fuel := by
  induction fuel with
  | zero =>
    intro c p cs g mask _ _ _ _ _ hparent _ hfuel
    have hlt := (t.bounded c p (hparent c mem_cons_self)).1
    have hc : c ∈ t.below (c :: cs) := mem_below.mpr ⟨hlt, c, mem_cons_self, .refl⟩
    exact absurd (Finset.card_pos.mpr ⟨c, hc⟩) (by omega)
  | succ fuel ih =>
    intro c p cs g mask hp hopen hmask hchain hnodup hparent hfresh hfuel
    obtain ⟨l, hpath⟩ := hp.rootPath
    obtain ⟨hnew, hnodup⟩ := nodup_cons.mp hnodup
    have hc := hparent c mem_cons_self
    have hhead : t.below [c] ⊆ t.below (c :: cs) := fun x hx => mem_below_cons.mpr (.inl hx)
    obtain ⟨mask1, heq1, hfilled1⟩ := visit_spec hlinked ih hopen (fun x hx => hfresh x (hhead hx))
      ((Finset.card_le_card hhead).trans hfuel) hG hp hmask hc
    rw [dfs, heq1, bind_some]
    cases cs with
    | nil =>
      have hend : tr.nextSibling c = -1 := hchain
      exact ⟨mask1, by simp [hend], hfilled1⟩
    | cons d ds =>
      have hfirst : tr.nextSibling c = d := hchain.1
      have hp1 : mask1 p = G.fillVocabMask g freshRow := by
        rw [hfilled1.outside p fun hx => hpath.not_ancestor_of_parent hc
          (mem_below_singleton.mp hx).2, hmask]
      have hfresh1 : ∀ x ∈ t.below (d :: ds), mask1 x = freshRow := by
        intro x hx
        rw [hfilled1.outside x fun hx' => hpath.below_disjoint hparent hnew hx' hx]
        exact hfresh x (mem_below_cons.mpr (.inr hx))
      have hless := card_below_tail hpath hparent hnew
      obtain ⟨mask2, heq2, hfilled2⟩ := ih d p ds g mask1 hp hopen hp1 hchain.2 hnodup
        (fun e he => hparent e (mem_cons_of_mem _ he)) hfresh1 (by omega)
      refine ⟨mask2, ?_, hfilled1.cons hpath hparent hnew hfilled2⟩
      simp only [hfirst, Int.toNat_natCast]
      rw [if_pos (by omega)]
      exact heq2

/-- What the arrays have to hold for the row of a request; the root has no sibling. -/
structure DrawsTree (r : RetriveArrays) (t : ParentTree) (numDraftTokens i : Nat) : Prop where
  size : t.size = numDraftTokens
  pos : 0 < numDraftTokens
  draws : DrawsRow r t i
  rootSibling : r.retriveNextSibling (i * numDraftTokens) = -1

lemma DrawsTree.linked {r : RetriveArrays} {n i : Nat} (h : DrawsTree r t n i)
    (draftTokens : Nat → Nat) :
    t.Linked (r.row draftTokens n i).nextToken (r.row draftTokens n i).nextSibling := by
  have := h.draws.linked
  rwa [h.size] at this

/-- The traversal of a tree puts the grammar back and fills the rows of the nodes that it reaches.
-/
lemma traverseTree_spec (hG : G.Lawful vocabSize) (hlinked : t.Linked tr.nextToken tr.nextSibling)
    (hpos : 0 < t.size) (hroot : tr.nextSibling 0 = -1) (g : γ)
    (hfresh : ∀ x < t.size, mask x = freshRow) :
    ∃ mask', traverseTree G tr vocabSize t.size g mask = some (g, mask') ∧
    Filled G t tr.draftTokens vocabSize g [0] mask mask' := by
  obtain ⟨fuel, hfuel⟩ : ∃ fuel, t.size = fuel + 1 := ⟨t.size - 1, by omega⟩
  have hcard : (t.below [0]).card ≤ fuel + 1 := by
    rw [← hfuel, ← Finset.card_range t.size]
    exact Finset.card_le_card fun x hx => Finset.mem_range.mpr (mem_below.mp hx).1
  obtain ⟨mask', heq, hfilled⟩ : ∃ mask',
      visit G tr vocabSize (fun d g mask => dfs G tr vocabSize fuel d (0 : Nat) g mask) 0
      (-1) g mask = some (g, mask') ∧
        Filled G t tr.draftTokens vocabSize g [0] mask mask' := by
    simp only [visit, TreeRow.accepted, if_true, bind_some]
    cases hterm : G.isTerminated g with
    | true =>
      refine ⟨mask, rfl, .skip fun x hx gx hgx => ?_⟩
      obtain ⟨g1, hg1, rfl | hopen1⟩ := hgx.above (mem_below_singleton.mp hx).2
      · rw [hgx.unique .root, hterm]
      · rw [hg1.unique .root, hterm] at hopen1
        cases hopen1
    | false =>
      obtain ⟨mask', heq, hfilled⟩ := visit_children hlinked (dfs_traverses hG hlinked g fuel) hterm
        (fun x hx => hfresh x (mem_below.mp hx).1) hcard .root hpos
      refine ⟨mask', ?_, hfilled⟩
      simp only [Bool.false_eq_true, if_false]
      rw [heq]
      rfl
  refine ⟨mask', ?_, hfilled⟩
  rw [traverseTree, hfuel, dfs, heq, bind_some]
  simp [hroot]

end Dfs

/-! ### The batch -/

section Batch
variable {r : RetriveArrays} {draftTokens : Nat → Nat} {n vocabSize : Nat} {rows : Nat → BitRow}

/-- The rows of a request: what may follow the nodes that are reached, everything elsewhere. -/
structure Masked (G : GrammarObject γ) (t : ParentTree) (tokens : Nat → Nat)
    (vocabSize : Nat) (grammar : Option γ) (rows : Nat → BitRow) : Prop where
  reached : ∀ g₀ ∈ grammar, ∀ c g, Reaches G t tokens vocabSize g₀ c g → G.isTerminated g = false →
    rows c = G.fillVocabMask g freshRow
  other :
    ∀ c < t.size, (∀ g₀ ∈ grammar, ∀ g, Reaches G t tokens vocabSize g₀ c g →
    G.isTerminated g = true) → rows c = freshRow

lemma Filled.masked (h : Filled G t tokens vocabSize g₀ [0] mask mask')
    (hpos : 0 < t.size) (hfresh : ∀ x < t.size, mask x = freshRow) :
    Masked G t tokens vocabSize (some g₀) mask' where
  reached g hg c gc hgc hopen := by
    obtain rfl := mem_some_iff.mp hg
    obtain ⟨l, hl⟩ := hgc.rootPath
    refine h.reached c (mem_below.mpr ⟨hl.lt hpos (by simp), 0, mem_singleton_self 0,
      ?_⟩) gc hgc hopen
    exact hl.ancestor_root
  other c hc hshut := by
    rw [← hfresh c hc]
    by_cases hx : c ∈ t.below [0]
    · exact h.other c hx fun g hg => hshut g₀ rfl g hg
    · exact h.outside c hx

lemma writeRows_inside {i c : Nat} (hc : c < n) : writeRows n i rows mask (i * n + c) = rows c := by
  have hlt : i * n + c < (i + 1) * n := by
    rw [Nat.succ_mul]
    omega
  rw [writeRows, if_pos ⟨Nat.le_add_right _ _, hlt⟩, Nat.add_sub_cancel_left]

lemma Masked.congr {grammar : Option γ} {rows' : Nat → BitRow}
    (h : Masked G t tokens vocabSize grammar rows) (hpos : 0 < t.size)
    (heq : ∀ c < t.size, rows' c = rows c) :
    Masked G t tokens vocabSize grammar rows' where
  reached g₀ hg0 c g hg hopen := by
    obtain ⟨l, hl⟩ := hg.rootPath
    rw [heq c (hl.lt hpos (by simp))]
    exact h.reached g₀ hg0 c g hg hopen
  other c hc hshut := (heq c hc).trans (h.other c hc hshut)

/-- The requests from `i` on keep their grammars, and the rows of each are those of its tree. -/
lemma generateTokenBitmask_from (hG : G.Lawful vocabSize) (tree : Nat → ParentTree)
    (grammars : List (Option γ)) (i : Nat) (mask : Option (Nat → BitRow))
    (hrow : ∀ j < grammars.length, DrawsTree r (tree (i + j)) n (i + j))
    (hfresh : ∀ x, i * n ≤ x → mask.getD (fun _ => freshRow) x = freshRow) :
    ∃ mask', generateTokenBitmask G r draftTokens n vocabSize i grammars mask =
    some (grammars, mask') ∧
      (∀ x < i * n, mask'.getD (fun _ => freshRow) x = mask.getD (fun _ => freshRow) x) ∧
      ∀ j (hj : j < grammars.length), Masked G (tree (i + j))
      (r.row draftTokens n (i + j)).draftTokens vocabSize grammars[j]
        fun c => mask'.getD (fun _ => freshRow) ((i + j) * n + c) := by
  induction grammars generalizing i mask with
  | nil => exact ⟨mask, rfl, fun _ _ => rfl, nofun⟩
  | cons grammar grammars ih =>
    have hi := hrow 0 (Nat.succ_pos _)
    rw [Nat.add_zero] at hi
    have hpos : 0 < (tree i).size := hi.size ▸ hi.pos
    have hrest : ∀ j < grammars.length, DrawsTree r (tree (i + 1 + j)) n (i + 1 + j) := by
      intro j hj
      have := hrow (j + 1) (Nat.succ_lt_succ hj)
      rwa [show i + (j + 1) = i + 1 + j by omega] at this
    have hnext : i * n ≤ (i + 1) * n := Nat.mul_le_mul_right n (Nat.le_succ i)
    -- the bitmask after this request, with its rows
    obtain ⟨mask1, heq1, hbefore1, hfresh1, hmasked1⟩ : ∃ mask1 : Option (Nat → BitRow),
        generateTokenBitmask G r draftTokens n vocabSize i (grammar :: grammars) mask =
          (generateTokenBitmask G r draftTokens n vocabSize (i + 1) grammars mask1).map
          (fun (gs, m) => (grammar :: gs, m)) ∧
        (∀ x < i * n, mask1.getD (fun _ => freshRow) x = mask.getD (fun _ => freshRow) x) ∧
        (∀ x, (i + 1) * n ≤ x → mask1.getD (fun _ => freshRow) x = freshRow) ∧
        Masked G (tree i) (r.row draftTokens n i).draftTokens vocabSize grammar
          fun c => mask1.getD (fun _ => freshRow) (i * n + c) := by
      cases grammar with
      | none =>
        refine ⟨mask, rfl, fun _ _ => rfl, fun x hx => hfresh x (le_trans hnext hx),
          nofun, fun c _ _ => ?_⟩
        exact hfresh _ (Nat.le_add_right _ _)
      | some g =>
        have hstart : ∀ c < (tree i).size, mask.getD (fun _ => freshRow) (i * n + c) = freshRow :=
          fun c _ => hfresh _ (Nat.le_add_right _ _)
        have hroot : (r.row draftTokens n i).nextSibling 0 = -1 := hi.rootSibling
        obtain ⟨rows, htraverse, hfilled⟩ :=
          traverseTree_spec hG (hi.linked draftTokens) hpos hroot g hstart
        rw [hi.size] at htraverse
        refine ⟨some (writeRows n i rows (mask.getD fun _ => freshRow)),
          ?_, fun x hx => ?_, fun x hx => ?_, ?_⟩
        · rw [generateTokenBitmask, htraverse]
          rfl
        · exact if_neg (by omega)
        · exact Eq.trans (if_neg (by omega)) (hfresh x (le_trans hnext hx))
        · refine (hfilled.masked hpos hstart).congr hpos fun c hc => ?_
          exact writeRows_inside (hi.size ▸ hc)
    obtain ⟨mask', heq', hbefore', hmasked'⟩ := ih (i + 1) mask1 hrest hfresh1
    refine ⟨mask', by rw [heq1, heq']; rfl, fun x hx => ?_, fun j hj => ?_⟩
    · rw [hbefore' x (lt_of_lt_of_le hx hnext), hbefore1 x hx]
    · cases j with
      | zero =>
        refine hmasked1.congr hpos fun c hc => hbefore' _ ?_
        rw [Nat.succ_mul, Nat.add_zero]
        have := hi.size ▸ hc
        omega
      | succ j =>
        have := hmasked' j (Nat.lt_of_succ_lt_succ hj)
        rwa [show i + 1 + j = i + (j + 1) by omega] at this

end Batch

end Sglang.Speculative
