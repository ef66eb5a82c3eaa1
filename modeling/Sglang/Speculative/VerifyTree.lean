import Sglang.Lib.Speculative
import Sglang.Speculative.DraftTree

/-! Greedy verification of draft trees.

`VerifyTreeGreedy` goes down the tree: among the children of the last accepted token it looks for
the token that the target model predicts there. Tokens and predictions stand in arrays that hold the
rows of the batch one after the other; the blocks of the rows run in any order. -/
namespace Sglang.Speculative

open List Option Function
open ChildLinks

structure VerifyArgs extends RetriveArrays where
  candidates : Nat → Int
  targetPredict : Nat → Int
  numSpeculativeTokens : Nat
  numDraftTokens : Nat
  /-- The root takes a place of `accept_index`. -/
  numSpeculativeTokens_pos : 0 < numSpeculativeTokens

structure VerifyOutputs where
  predicts : Nat → Int
  acceptIndex : Nat → Int
  acceptTokenNum : Nat → Int

/-- The local variables of a block and what it has written. -/
structure VerifyState extends VerifyOutputs where
  lastAcceptedRetriveIdx : Int
  numAcceptedTokens : Nat
  curIndex : Int

namespace VerifyArgs

/-- The `while` loop over the siblings. It does not end on a list of siblings that does not. -/
def siblingLoop (a : VerifyArgs) (bx : Nat) : (fuel : Nat) → VerifyState → Option VerifyState
  | 0, _ => none
  | fuel + 1, s =>
    if s.curIndex = -1 then some s
    else
      let entry := bx * a.numDraftTokens + s.curIndex.toNat
      let draftIndex := a.retriveIndex entry
      let targetTokenId := a.targetPredict s.lastAcceptedRetriveIdx.toNat
      if a.candidates entry = targetTokenId then
        some { s with
          predicts := update s.predicts s.lastAcceptedRetriveIdx.toNat targetTokenId
          numAcceptedTokens := s.numAcceptedTokens + 1
          acceptIndex :=
            update s.acceptIndex
            (bx * a.numSpeculativeTokens + (s.numAcceptedTokens + 1)) draftIndex
          lastAcceptedRetriveIdx := draftIndex }
      else a.siblingLoop bx fuel { s with curIndex := a.retriveNextSibling entry }

/-- The `for` loop, with the number of rounds left. -/
def depthLoop (a : VerifyArgs) (bx : Nat) : Nat → VerifyState → Option VerifyState
  | 0, s => some s
  | rounds + 1, s => do
    let s ← a.siblingLoop bx (a.numDraftTokens + 1)
      { s with curIndex := a.retriveNextToken (bx * a.numDraftTokens + s.curIndex.toNat) }
    if s.curIndex = -1 then some s else a.depthLoop bx rounds s

/-- Block `bx` of the kernel. -/
def verifyBlock (a : VerifyArgs) (bx : Nat) (out : VerifyOutputs) : Option VerifyOutputs := do
  let last := a.retriveIndex (bx * a.numDraftTokens)
  let s ← a.depthLoop bx (a.numSpeculativeTokens - 1)
    { out with
      acceptIndex := update out.acceptIndex (bx * a.numSpeculativeTokens) last
      lastAcceptedRetriveIdx := last
      numAcceptedTokens := 0
      curIndex := 0 }
  some { s.toVerifyOutputs with
    acceptTokenNum := update s.acceptTokenNum bx s.numAcceptedTokens
    predicts :=
      update s.predicts s.lastAcceptedRetriveIdx.toNat
      (a.targetPredict s.lastAcceptedRetriveIdx.toNat) }

/-- The blocks of the batch, in the order in which they run. -/
def verifyTreeGreedy (a : VerifyArgs) (order : List Nat) (out : VerifyOutputs) :
    Option VerifyOutputs :=
  order.foldlM (fun out bx => a.verifyBlock bx out) out

end VerifyArgs

/-! ### One block -/

variable {a : VerifyArgs} {t : ParentTree} {bx : Nat} {out : VerifyOutputs}

section Block
variable {c p : Nat} {l : List Nat} {s : VerifyState}

section
variable (a : VerifyArgs)

def VerifyArgs.entry (bx i : Nat) : Nat := bx * a.numDraftTokens + i

def VerifyArgs.candidate (bx i : Nat) : Int := a.candidates (a.entry bx i)

def VerifyArgs.target (bx i : Nat) : Int := a.targetPredict (a.entry bx i)

/-- The arrays of row `bx` hold the tree. -/
structure Row (a : VerifyArgs) (t : ParentTree) (bx : Nat) : Prop where
  size : t.size = a.numDraftTokens
  pos : 0 < t.size
  draws : DrawsRow a.toRetriveArrays t bx

/-- Token by token, the path is what the target predicts. -/
def Agrees (bx : Nat) (l : List Nat) : Prop := l.IsChain fun p c => a.candidate bx c = a.target bx p

end

/-- What the block has written when it stands at the end of the path `l`. -/
structure Writes (a : VerifyArgs) (bx : Nat) (l : List Nat) (out out' : VerifyOutputs) : Prop where
  accepted : ∀ i (h : i < l.length), out'.acceptIndex (bx * a.numSpeculativeTokens + i) =
    (a.entry bx l[i] : Nat)
  later : ∀ x, (∀ i < l.length, x ≠ bx * a.numSpeculativeTokens + i) →
    out'.acceptIndex x = out.acceptIndex x
  predicted : ∀ p ∈ l.dropLast, out'.predicts (a.entry bx p) = a.target bx p
  other : ∀ x, (∀ p ∈ l, x ≠ a.entry bx p) → out'.predicts x = out.predicts x
  num : out'.acceptTokenNum = out.acceptTokenNum

/-- The block stands at token `c`, the end of the accepted path. -/
structure Stands (a : VerifyArgs) (t : ParentTree) (bx : Nat) (l : List Nat)
    (c : Nat) (out : VerifyOutputs) (s : VerifyState) :
    Prop where
  path : t.RootPath (l ++ [c])
  agrees : Agrees a bx (l ++ [c])
  last : s.lastAcceptedRetriveIdx = (a.entry bx c : Nat)
  num : s.numAcceptedTokens = l.length
  writes : Writes a bx (l ++ [c]) out s.toVerifyOutputs

open VerifyArgs

lemma Stands.accept (h : Stands a t bx l p out s) (hc : t.parent c = some p)
    (hcand : a.candidate bx c = a.target bx p) (curIndex : Int) :
    Stands a t bx (l ++ [p]) c out { s with
      predicts := update s.predicts (a.entry bx p) (a.target bx p)
      numAcceptedTokens := s.numAcceptedTokens + 1
      acceptIndex :=
        update s.acceptIndex (bx * a.numSpeculativeTokens + (s.numAcceptedTokens + 1))
        (a.entry bx c : Nat)
      lastAcceptedRetriveIdx := (a.entry bx c : Nat)
      curIndex := curIndex } where
  path := h.path.snoc hc
  agrees := isChain_append.mpr ⟨h.agrees, isChain_singleton _, by simpa using hcand⟩
  last := rfl
  num := by simp [h.num]
  writes := by
    refine ⟨fun i hi => ?_, fun x hx => ?_, fun q hq => ?_, fun x hx => ?_, h.writes.num⟩
    · dsimp only
      rw [h.num, update_apply]
      by_cases hlast : i = (l ++ [p]).length
      · subst hlast
        rw [if_pos (by simp), getElem_concat_length rfl]
      · have hlt : i < (l ++ [p]).length := by
          rw [length_append, length_singleton] at hi
          omega
        rw [length_append, length_singleton] at hlast
        rw [if_neg (by omega), getElem_append_left hlt]
        exact h.writes.accepted i hlt
    · dsimp only
      rw [h.num, update_of_ne (hx (l.length + 1) (by simp))]
      exact h.writes.later x fun i hi => hx i (by rw [length_append]; omega)
    · rw [dropLast_concat] at hq
      dsimp only
      rw [update_apply]
      split
      · next heq =>
        have hqp : q = p := by
          simp only [entry] at heq
          omega
        rw [hqp]
      · next hne =>
        have hql : q ∈ l :=
          (mem_append.mp hq).resolve_right fun hin => hne (by rw [mem_singleton.mp hin])
        exact h.writes.predicted q (by rwa [dropLast_concat])
    · dsimp only
      rw [update_of_ne (hx p (by simp))]
      exact h.writes.other x fun q hq => hx q (mem_append_left _ hq)

/-- The children are searched in their order; a child with the predicted token is accepted. -/
lemma siblingLoop_spec (hrow : Row a t bx) (h : Stands a t bx l p out s) {children : List Nat}
    (hchildren : ∀ c ∈ children, t.parent c = some p)
    (hchain : Chain (fun i => a.retriveNextSibling (bx * t.size + i)) s.curIndex children)
    {fuel : Nat} (hfuel : children.length < fuel) :
    ∃ s', a.siblingLoop bx fuel s = some s' ∧
      (s'.curIndex = -1 ∧ Stands a t bx l p out s' ∧
      (∀ c ∈ children, a.candidate bx c ≠ a.target bx p) ∨
        ∃ c ∈ children, s'.curIndex = c ∧ a.candidate bx c = a.target bx p ∧
        Stands a t bx (l ++ [p]) c out s') := by
  induction children generalizing s fuel with
  | nil =>
    obtain ⟨fuel, rfl⟩ : ∃ n, fuel = n + 1 := ⟨fuel - 1, by simp at hfuel; omega⟩
    have hend : s.curIndex = -1 := hchain
    exact ⟨s, by rw [siblingLoop, if_pos hend], .inl ⟨hend, h, fun c hc => absurd hc not_mem_nil⟩⟩
  | cons c children ih =>
    obtain ⟨fuel, rfl⟩ : ∃ n, fuel = n + 1 := ⟨fuel - 1, by simp at hfuel; omega⟩
    obtain ⟨hcur, hchain⟩ := hchain
    have hparent := hchildren c mem_cons_self
    have hindex : a.retriveIndex (bx * a.numDraftTokens + c) = (a.entry bx c : Nat) := by
      have := hrow.draws.index c (t.bounded c p hparent).1
      rwa [hrow.size] at this
    have hne : s.curIndex ≠ -1 := by omega
    rw [siblingLoop, if_neg hne, hcur, h.last]
    simp only [Int.toNat_natCast, hindex]
    by_cases hcand : a.candidate bx c = a.target bx p
    · exact ⟨_, if_pos hcand, .inr ⟨c, mem_cons_self, rfl, hcand, h.accept hparent hcand _⟩⟩
    have hskip : ¬a.candidates (bx * a.numDraftTokens + c) = a.targetPredict (a.entry bx p) := hcand
    rw [hrow.size] at hchain
    obtain ⟨s', hs', hres⟩ :=
      ih (s := ⟨s.toVerifyOutputs, (a.entry bx p : Nat), s.numAcceptedTokens,
        a.retriveNextSibling (bx * a.numDraftTokens + c)⟩)
      { h with last := rfl } (fun d hd => hchildren d (mem_cons_of_mem c hd))
      (by rwa [hrow.size]) (Nat.lt_of_succ_lt_succ hfuel)
    rw [if_neg hskip]
    refine ⟨s', hs', ?_⟩
    rcases hres with ⟨hend, hstands, hnone⟩ | ⟨d, hd, hrest⟩
    · refine .inl ⟨hend, hstands, fun d hd => ?_⟩
      rcases mem_cons.mp hd with rfl | hd
      · exact hcand
      · exact hnone d hd
    · exact .inr ⟨d, mem_cons_of_mem c hd, hrest⟩

/-- The way down: it ends after the given number of rounds, or where no child has the predicted
token. -/
lemma depthLoop_spec (hrow : Row a t bx) (rounds : Nat) (h : Stands a t bx l c out s)
    (hcur : s.curIndex = c) :
    ∃ l' c' s', a.depthLoop bx rounds s = some s' ∧ Stands a t bx l' c' out s' ∧
    l'.length ≤ l.length + rounds ∧
      (l'.length < l.length + rounds → ∀ d, t.parent d = some c' →
      a.candidate bx d ≠ a.target bx c') := by
  induction rounds generalizing l c s with
  | zero => exact ⟨l, c, s, rfl, h, le_refl _, fun hlt => absurd hlt (lt_irrefl _)⟩
  | succ rounds ih =>
    obtain ⟨children, hnodup, hmem, hchain⟩ := hrow.draws.linked c (h.path.lt hrow.pos (by simp))
    have hlen : children.length ≤ t.size := by
      have hsub : children ⊆ List.range t.size := fun d hd =>
        mem_range.mpr (t.bounded d c ((hmem d).mp hd)).1
      simpa using (subperm_of_subset hnodup hsub).length_le
    have hnext : a.retriveNextToken (bx * a.numDraftTokens + s.curIndex.toNat) =
        a.retriveNextToken (bx * t.size + c) := by
      rw [hcur, Int.toNat_natCast, hrow.size]
    have hfuel : children.length < a.numDraftTokens + 1 := by
      rw [← hrow.size]
      omega
    obtain ⟨s', hs', hres⟩ := siblingLoop_spec
      (s := { s with curIndex := a.retriveNextToken (bx * a.numDraftTokens + s.curIndex.toNat) })
        hrow
      { h with } (fun d hd => (hmem d).mp hd) (hnext ▸ hchain) hfuel
    rw [depthLoop, hs', bind_eq_bind, bind_some]
    rcases hres with ⟨hend, hstands, hnone⟩ | ⟨d, hd, hcur', hcand, hstands⟩
    · rw [if_pos hend]
      exact ⟨l, c, s', rfl, hstands, by omega, fun _ d hd => hnone d ((hmem d).mpr hd)⟩
    · rw [if_neg (by omega)]
      obtain ⟨l', c', s'', hs'', hst, hle, hmax⟩ := ih hstands hcur'
      rw [length_append, length_singleton] at hle hmax
      exact ⟨l', c', s'', hs'', hst, by omega, fun hlt => hmax (by omega)⟩

/-- The path that a row accepted, and what the outputs say of it. -/
structure Accepted (a : VerifyArgs) (t : ParentTree) (bx : Nat) (path : List Nat)
    (out : VerifyOutputs) : Prop where
  rootPath : t.RootPath path
  agrees : Agrees a bx path
  le : path.length ≤ a.numSpeculativeTokens
  maximal : path.length < a.numSpeculativeTokens → ∀ p ∈ path.getLast?, ∀ c, t.parent c = some p →
    a.candidate bx c ≠ a.target bx p
  accepted : ∀ i (h : i < path.length), out.acceptIndex (bx * a.numSpeculativeTokens + i) =
    (a.entry bx path[i] : Nat)
  rest : ∀ i, path.length ≤ i → i < a.numSpeculativeTokens →
    out.acceptIndex (bx * a.numSpeculativeTokens + i) = -1
  predicted : ∀ p ∈ path, out.predicts (a.entry bx p) = a.target bx p
  num : out.acceptTokenNum bx = (path.length - 1 : Nat)

/-- The entries of row `bx`. -/
structure SameRow (a : VerifyArgs) (bx : Nat) (out out' : VerifyOutputs) : Prop where
  predicts : ∀ i < a.numDraftTokens, out'.predicts (bx * a.numDraftTokens + i) =
    out.predicts (bx * a.numDraftTokens + i)
  acceptIndex : ∀ i < a.numSpeculativeTokens,
    out'.acceptIndex (bx * a.numSpeculativeTokens + i) = out.acceptIndex
    (bx * a.numSpeculativeTokens + i)
  acceptTokenNum : out'.acceptTokenNum bx = out.acceptTokenNum bx

lemma verifyBlock_spec (hrow : Row a t bx)
    (hfresh : ∀ i < a.numSpeculativeTokens, out.acceptIndex (bx * a.numSpeculativeTokens + i) =
    -1) :
    ∃ path out', a.verifyBlock bx out = some out' ∧ Accepted a t bx path out' ∧
    ∀ b ≠ bx, SameRow a b out out' := by
  have hk := a.numSpeculativeTokens_pos
  have hroot : a.retriveIndex (bx * a.numDraftTokens) = (a.entry bx 0 : Nat) := by
    have := hrow.draws.index 0 hrow.pos
    rwa [hrow.size] at this
  have hstart : Stands a t bx [] 0 out ⟨{ out with
      acceptIndex := update out.acceptIndex (bx * a.numSpeculativeTokens) (a.entry bx 0 : Nat) },
      (a.entry bx 0 : Nat), 0, 0⟩ := by
    refine ⟨t.rootPath_root, isChain_singleton _, rfl, rfl, fun i hi => ?_,
      fun x hx => ?_, ?_, fun _ _ => rfl, rfl⟩
    · obtain rfl : i = 0 := by simpa using hi
      exact update_self _ _ _
    · exact update_of_ne (hx 0 (by simp)) _ _
    · simp
  obtain ⟨l, c, s, hs, hst, hle, hmax⟩ :=
    depthLoop_spec hrow (a.numSpeculativeTokens - 1) hstart rfl
  rw [length_nil, zero_add] at hle hmax
  have hlen : (l ++ [c]).length = l.length + 1 := by simp
  refine ⟨l ++ [c], _, by rw [verifyBlock, hroot, bind_eq_bind, hs]; rfl, ?_, fun b hb => ?_⟩
  · refine ⟨hst.path, hst.agrees,
      by omega, fun hlt p hp d hd => ?_, hst.writes.accepted, fun i hi hik => ?_, fun p hp => ?_, ?_⟩
    · rw [getLast?_concat] at hp
      obtain rfl := mem_some_iff.mp hp
      exact hmax (by omega) d hd
    · rw [← hfresh i hik]
      exact hst.writes.later _ fun j hj => by omega
    · dsimp only
      rw [hst.last, Int.toNat_natCast, update_apply]
      split
      · next heq => rw [VerifyArgs.target, heq]
      · next hne =>
        refine hst.writes.predicted p ?_
        rw [dropLast_concat]
        exact (mem_append.mp hp).resolve_right fun hin => hne (by rw [mem_singleton.mp hin])
    · dsimp only
      rw [update_self, hst.num, hlen, Nat.add_sub_cancel]
  · have hother (i : Nat) (hi : i < a.numDraftTokens) (p : Nat) (hp : p ∈ l ++ [c]) :
        b * a.numDraftTokens + i ≠ a.entry bx p := by
      have hlt := hst.path.lt hrow.pos hp
      rw [hrow.size] at hlt
      have := @outside_row _ i b bx hb hi
      rw [Nat.succ_mul] at this
      rw [entry]
      omega
    refine ⟨fun i hi => ?_, fun i hi => ?_, ?_⟩
    · dsimp only
      rw [hst.last, Int.toNat_natCast, update_of_ne (hother i hi c (by simp))]
      exact hst.writes.other _ (hother i hi)
    · have := @outside_row _ i b bx hb hi
      rw [Nat.succ_mul] at this
      exact hst.writes.later _ fun j hj => by omega
    · dsimp only
      rw [update_of_ne hb, hst.writes.num]

end Block

/-! ### The batch -/

lemma Accepted.congr {path : List Nat} {out' : VerifyOutputs}
    (hrow : Row a t bx) (h : Accepted a t bx path out) (hsame : SameRow a bx out out') :
    Accepted a t bx path out' where
  rootPath := h.rootPath
  agrees := h.agrees
  le := h.le
  maximal := h.maximal
  accepted i hi := (hsame.acceptIndex i (lt_of_lt_of_le hi h.le)).trans (h.accepted i hi)
  rest i hi hik := (hsame.acceptIndex i hik).trans (h.rest i hi hik)
  predicted p hp :=
    (hsame.predicts p (hrow.size ▸ h.rootPath.lt hrow.pos hp)).trans (h.predicted p hp)
  num := hsame.acceptTokenNum.trans h.num

lemma verifyTreeGreedy_spec {tree : Nat → ParentTree} {order : List Nat} {out : VerifyOutputs}
    (hnodup : order.Nodup) (hrow : ∀ bx ∈ order, Row a (tree bx) bx)
    (hfresh : ∀ bx ∈ order, ∀ i < a.numSpeculativeTokens, out.acceptIndex
    (bx * a.numSpeculativeTokens + i) = -1) :
    ∃ out', a.verifyTreeGreedy order out = some out' ∧
    (∀ bx ∈ order, ∃ path, Accepted a (tree bx) bx path out') ∧
      ∀ b ∉ order, SameRow a b out out' := by
  induction order generalizing out with
  | nil =>
    exact ⟨out, rfl, fun bx hbx => absurd hbx not_mem_nil,
      fun b _ => ⟨fun _ _ => rfl, fun _ _ => rfl, rfl⟩⟩
  | cons bx order ih =>
    obtain ⟨hbx, hnodup⟩ := nodup_cons.mp hnodup
    obtain ⟨path, out1, hblock, hacc, hsame⟩ :=
      verifyBlock_spec (hrow bx mem_cons_self) (hfresh bx mem_cons_self)
    obtain ⟨out2, hrest, hall, hother⟩ :=
      @ih out1 hnodup (fun b hb => hrow b (mem_cons_of_mem bx hb)) fun b hb i hi => by
      have hne : b ≠ bx := fun h => hbx (h ▸ hb)
      rw [(hsame b hne).acceptIndex i hi]
      exact hfresh b (mem_cons_of_mem bx hb) i hi
    refine ⟨out2, ?_, fun b hb => ?_, fun b hb => ?_⟩
    · rw [VerifyArgs.verifyTreeGreedy, foldlM_cons, hblock]
      exact hrest
    · rcases mem_cons.mp hb with rfl | hb
      · exact ⟨path, hacc.congr (hrow b mem_cons_self) (hother b hbx)⟩
      · exact hall b hb
    · obtain ⟨hne, hnot⟩ := not_or.mp fun h => hb (mem_cons.mpr h)
      have h1 := hsame b hne
      have h2 := hother b hnot
      exact ⟨fun i hi => (h2.predicts i hi).trans (h1.predicts i hi),
        fun i hi => (h2.acceptIndex i hi).trans (h1.acceptIndex i hi),
        h2.acceptTokenNum.trans h1.acceptTokenNum⟩

/-! ### Lossless -/

/-- The entries of `accept_index` for a row, up to the first `-1`. -/
def VerifyArgs.acceptedEntries (a : VerifyArgs) (bx : Nat) (out : VerifyOutputs) : List Int :=
  ((List.range a.numSpeculativeTokens).map fun i => out.acceptIndex
    (bx * a.numSpeculativeTokens + i)).takeWhile (· ≠ -1)

/-- The predictions read along `accept_index`. -/
def VerifyArgs.readPredicts (a : VerifyArgs) (bx : Nat) (out : VerifyOutputs) : List Int :=
  (a.acceptedEntries bx out).map fun x => out.predicts x.toNat

section Lossless
variable {path other : List Nat} {next : List Int → Int} {context : List Int}

section
variable (h : Accepted a t bx path out)
include h

/-- The row of `accept_index`: the accepted path, then `-1`. -/
lemma Accepted.acceptRow_eq :
    ((List.range a.numSpeculativeTokens).map fun i => out.acceptIndex
    (bx * a.numSpeculativeTokens + i)) =
      (path.map fun p => (a.entry bx p : Int)) ++ List.replicate
      (a.numSpeculativeTokens - path.length) (-1) := by
  have hle := h.le
  refine ext_getElem (by simp; omega) fun i hi _ => ?_
  rw [length_map, length_range] at hi
  rw [getElem_map, getElem_range]
  by_cases hip : i < path.length
  · rw [getElem_append_left (by simpa using hip), getElem_map, h.accepted i hip]
  · rw [getElem_append_right (by simpa using hip), getElem_replicate, h.rest i (by omega) hi]

lemma Accepted.acceptedEntries_eq :
    a.acceptedEntries bx out = path.map fun p => (a.entry bx p : Int) := by
  rw [VerifyArgs.acceptedEntries, h.acceptRow_eq, takeWhile_append_of_pos]
  · cases a.numSpeculativeTokens - path.length <;> simp [replicate_succ]
  · intro x hx
    obtain ⟨p, -, rfl⟩ := mem_map.mp hx
    rw [decide_eq_true_eq]
    omega

lemma Accepted.readPredicts_eq : a.readPredicts bx out = path.map (a.target bx) := by
  rw [VerifyArgs.readPredicts, h.acceptedEntries_eq, List.map_map]
  refine List.map_congr_left fun p hp => ?_
  rw [Function.comp_apply, Int.toNat_natCast]
  exact h.predicted p hp

end

/-- The target model is causal: at a token it predicts what follows the path to it. -/
def Causal (next : List Int → Int) (context : List Int) (a : VerifyArgs)
    (t : ParentTree) (bx : Nat) : Prop :=
  ∀ l c, t.RootPath (l ++ [c]) → a.target bx c = next (context ++ (l ++ [c]).map (a.candidate bx))

lemma Agrees.tail_eq (h : Agrees a bx path) :
    path.tail.map (a.candidate bx) = path.dropLast.map (a.target bx) := by
  induction path with
  | nil => rfl
  | cons p path ih =>
    cases path with
    | nil => rfl
    | cons c path =>
      obtain ⟨hc, hrest⟩ := isChain_cons_cons.mp h
      have := ih hrest
      rw [tail_cons, map_cons, hc, dropLast_cons_of_ne_nil (cons_ne_nil c path),
        map_cons, ← this, tail_cons]

lemma RootPath.eq_cons (h : t.RootPath path) : path = 0 :: path.tail := by
  cases path with
  | nil => simpa using h.head
  | cons p path =>
    obtain rfl : p = 0 := by simpa using h.head
    rfl

section
variable (h : Accepted a t bx path out)
include h

section
variable (hcausal : Causal next context a t bx)
include hcausal

/-- The predictions along an accepted path are the greedy continuation. -/
lemma Accepted.predicts_eq :
    path.map (a.target bx) = greedy next (context ++ [a.candidate bx 0]) path.length := by
  have hgreedy : Greedy next (context ++ [a.candidate bx 0]) (path.map (a.target bx)) := by
    intro i hi
    rw [length_map] at hi
    have hpre := (h.rootPath.take (Nat.succ_pos i))
    rw [take_succ_eq_append_getElem hi] at hpre
    have htokens :
        (path.take i ++ [path[i]]).map (a.candidate bx) =
        a.candidate bx 0 :: (path.map (a.target bx)).take i := by
      rw [← take_succ_eq_append_getElem hi]
      conv_lhs => rw [RootPath.eq_cons h.rootPath]
      rw [take_succ_cons, map_cons, map_take, h.agrees.tail_eq, ← map_take, ← map_take,
        dropLast_eq_take, take_take, Nat.min_eq_left (by omega)]
    rw [getElem_map, hcausal _ _ hpre, htokens, append_assoc]
    rfl
  rw [← length_map (a.target bx)]
  exact hgreedy.eq_greedy

lemma Accepted.drafts :
    path.tail.map (a.candidate bx) = greedy next (context ++ [a.candidate bx 0])
    (path.length - 1) := by
  rw [h.agrees.tail_eq, dropLast_eq_take, map_take, h.predicts_eq hcausal,
    take_greedy _ _ (Nat.sub_le _ _)]

/-- With distinct siblings, every path that agrees with the continuation is part of the accepted
one. -/
lemma Accepted.longest
    (hdistinct : ∀ p c d, t.parent c = some p → t.parent d = some p →
    a.candidate bx c = a.candidate bx d → c = d)
    (hother : t.RootPath other) (hle : other.length ≤ a.numSpeculativeTokens)
    (hagree : other.tail.map (a.candidate bx) = greedy next (context ++ [a.candidate bx 0])
    (other.length - 1)) :
    other <+: path := by
  have key : ∀ n, 0 < n → n ≤ other.length → other.take n = path.take n ∧ n ≤ path.length := by
    intro n
    induction n with
    | zero => exact fun h0 => absurd h0 (lt_irrefl _)
    | succ m ih =>
      intro _ hm
      rcases Nat.eq_zero_or_pos m with rfl | hm0
      · rw [RootPath.eq_cons hother, RootPath.eq_cons h.rootPath]
        simp
      obtain ⟨htake, hmp⟩ := ih hm0 (by omega)
      obtain ⟨i, rfl⟩ : ∃ i, m = i + 1 := ⟨m - 1, by omega⟩
      have hsame : other[i] = path[i] := by
        have := congrArg (·[i]?) htake
        simpa [getElem?_eq_getElem (show i < other.length by omega),
          getElem?_eq_getElem (show i < path.length by omega)] using this
      have hparent := hother.parent (i := i) (by omega)
      rw [hsame] at hparent
      -- the token of the other path is the prediction at the shared one
      have hcand : a.candidate bx other[i + 1] = a.target bx path[i] := by
        have hleft :
            (other.tail.map (a.candidate bx))[i]? = some (a.candidate bx other[i + 1]) := by
          simp [getElem?_eq_getElem (show i + 1 < other.length by omega)]
        have hright : (path.map (a.target bx))[i]? = some (a.target bx path[i]) := by
          simp [getElem?_eq_getElem (show i < path.length by omega)]
        rw [hagree, ← getElem?_take_of_lt (Nat.lt_succ_self i), take_greedy _ _ (by omega)] at hleft
        rw [h.predicts_eq hcausal, ← getElem?_take_of_lt (Nat.lt_succ_self i),
          take_greedy _ _ (by omega), hleft] at hright
        exact some.inj hright
      by_cases hend : path.length = i + 1
      · have hlast : path[i] ∈ path.getLast? := by
          rw [getLast?_eq_getElem?, hend, Nat.add_sub_cancel, getElem?_eq_getElem (by omega)]
          rfl
        exact absurd hcand (h.maximal (by omega) _ hlast _ hparent)
      · have hi : i + 1 < path.length := by omega
        have hnext : other[i + 1] = path[i + 1] := by
          refine hdistinct path[i] _ _ hparent (h.rootPath.parent hi) (hcand.trans ?_)
          exact (isChain_iff_getElem.mp h.agrees i hi).symm
        refine ⟨?_, by omega⟩
        rw [take_succ_eq_append_getElem (by omega), take_succ_eq_append_getElem hi, htake, hnext]
  have hpos : 0 < other.length := by
    rw [RootPath.eq_cons hother]
    exact Nat.succ_pos _
  have hall := (key other.length hpos (le_refl _)).1
  rw [take_length] at hall
  exact hall ▸ take_prefix _ _

end

end

end Lossless

/-- Where the arrays of a row come from. -/
inductive Drawn (a : VerifyArgs) (t : ParentTree) (bx : Nat) : Prop
  | links (h : DrawsRow a.toRetriveArrays t bx)
  | built (b : BuildTreeArgs) (order : List Nat) (hnodup : order.Nodup)
      (hbx : bx ∈ order) (ht : t = b.tree bx)
      (heq : a.toRetriveArrays = b.buildTree order)
  | reconstructed (m : TreeMaskArgs) (hmask : MaskOf t m bx)
      (heq : a.toRetriveArrays = m.reconstructIndicesFromTreeMask)

lemma Drawn.draws (h : Drawn a t bx) : DrawsRow a.toRetriveArrays t bx := by
  cases h with
  | links h => exact h
  | built b order hnodup hbx ht heq => exact heq ▸ ht ▸ BuildTreeArgs.buildTree_draws hnodup hbx
  | reconstructed m hmask heq => exact heq ▸ hmask.draws

/-- Greedy verification of a batch of draft trees is lossless. -/
theorem verifyTreeGreedy_lossless (next : List Int → Int) (a : VerifyArgs)
    (batchSize : Nat) (order : List Nat) (horder : order.Perm (List.range batchSize))
    (tree : Nat → ParentTree) (context : Nat → List Int)
    (hsize : ∀ bx < batchSize, (tree bx).size = a.numDraftTokens ∧ 0 < (tree bx).size)
    (hdrawn : ∀ bx < batchSize, Drawn a (tree bx) bx)
    (hcausal : ∀ bx < batchSize, Causal next (context bx) a (tree bx) bx)
    (predicts acceptTokenNum : Nat → Int) :
    ∃ out, a.verifyTreeGreedy order ⟨predicts, fun _ => -1, acceptTokenNum⟩ = some out ∧
    ∀ bx < batchSize, ∃ path : List Nat,
      (tree bx).RootPath path ∧ path.length ≤ a.numSpeculativeTokens ∧
      a.acceptedEntries bx out = (path.map fun p => (a.entry bx p : Int)) ∧
      out.acceptTokenNum bx = (path.length - 1 : Nat) ∧
      path.tail.map (a.candidate bx) = greedy next (context bx ++ [a.candidate bx 0])
      (path.length - 1) ∧
      a.readPredicts bx out = greedy next (context bx ++ [a.candidate bx 0]) path.length ∧
      ((∀ p c d, (tree bx).parent c = some p → (tree bx).parent d = some p →
      a.candidate bx c = a.candidate bx d → c = d) →
        ∀ other, (tree bx).RootPath other → other.length ≤ a.numSpeculativeTokens →
          other.tail.map (a.candidate bx) = greedy next (context bx ++ [a.candidate bx 0])
          (other.length - 1) →
          other <+: path) := by
  have hmem (bx : Nat) : bx ∈ order ↔ bx < batchSize := by rw [horder.mem_iff, mem_range]
  obtain ⟨out, hout, hall, -⟩ :=
    @verifyTreeGreedy_spec a tree order ⟨predicts, fun _ => -1, acceptTokenNum⟩
    (horder.nodup_iff.mpr nodup_range) (fun bx hbx =>
      ⟨(hsize bx ((hmem bx).mp hbx)).1, (hsize bx ((hmem bx).mp hbx)).2,
        (hdrawn bx ((hmem bx).mp hbx)).draws⟩)
    fun _ _ _ _ => rfl
  refine ⟨out, hout, fun bx hbx => ?_⟩
  obtain ⟨path, h⟩ := hall bx ((hmem bx).mpr hbx)
  have hc := hcausal bx hbx
  exact ⟨path, h.rootPath, h.le, h.acceptedEntries_eq, h.num, h.drafts hc,
    h.readPredicts_eq.trans (h.predicts_eq hc),
    fun hdistinct other => h.longest hc hdistinct⟩

/-- A root with two children; the target model counts up, so that the second one is accepted. -/
def twoChildren : BuildTreeArgs := ⟨fun _ => -1, fun i => i, 2, 1, 3, by decide⟩

def countsUp : VerifyArgs where
  toRetriveArrays := twoChildren.buildTree [0]
  candidates := fun i => [5, 9, 6].getD i 0
  targetPredict := fun i => [5, 9, 6].getD i 0 + 1
  numSpeculativeTokens := 2
  numDraftTokens := 3
  numSpeculativeTokens_pos := Nat.two_pos

theorem verifyTreeGreedy_lossless_countsUp :
    ∃ out, countsUp.verifyTreeGreedy [0] ⟨fun _ => 0, fun _ => -1, fun _ => 0⟩ = some out ∧
    ∀ bx < 1, ∃ path : List Nat,
      (twoChildren.tree bx).RootPath path ∧ path.length ≤ 2 ∧
      countsUp.readPredicts bx out = greedy (fun l => l.getLast?.getD 0 + 1)
      ([] ++ [countsUp.candidate bx 0]) path.length := by
  have hcausal : Causal (fun l => l.getLast?.getD 0 + 1) [] countsUp (twoChildren.tree 0) 0 := by
    intro l c _
    simp [VerifyArgs.target, VerifyArgs.candidate, countsUp]
  have hall : ∀ bx < 1, bx = 0 := fun bx hbx => Nat.lt_one_iff.mp hbx
  obtain ⟨out, hout, h⟩ :=
    verifyTreeGreedy_lossless (fun l => l.getLast?.getD 0 + 1) countsUp 1 [0] (List.Perm.refl _)
    twoChildren.tree (fun _ => []) (fun _ _ => ⟨rfl, twoChildren.draftTokenNum_pos⟩)
    (fun bx hbx => .built twoChildren [0] (nodup_singleton 0) (by simp [hall bx hbx]) rfl rfl)
    (fun bx hbx => hall bx hbx ▸ hcausal) (fun _ => 0) fun _ => 0
  refine ⟨out, hout, fun bx hbx => ?_⟩
  obtain ⟨path, hpath, hle, -, -, -, hread, -⟩ := h bx hbx
  exact ⟨path, hpath, hle, hread⟩

example : (countsUp.verifyTreeGreedy [0] ⟨fun _ => 0, fun _ => -1, fun _ => 0⟩).map
    (countsUp.readPredicts 0) = some [6, 7] := by
  decide +kernel

end Sglang.Speculative
