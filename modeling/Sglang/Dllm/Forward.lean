import Mathlib.Data.List.GetD
import Mathlib.Data.NNRat.BigOperators

/-! Forward passes of a diffusion language model.

A block algorithm hands batches to `model_runner.forward` and reads scores back. What it sees of the
model is `ModelRunner`: the raw scores of the vocabulary at every position of the flat input. Which
of them reach the algorithm is decided by the logits processor: all rows in the modes of a block
algorithm, the last row of every sequence when a prompt is cached. Algorithms differ in what they do
between the passes, so a run returns the batches it handed over beside its tokens. -/
namespace Sglang.Dllm

open List

abbrev TokenId := Nat

abbrev Rid := String

inductive ForwardMode
  | extend
  | dllmExtend
  | targetVerify
deriving DecidableEq, Repr

structure ForwardBatch where
  forwardMode : ForwardMode
  rids : List Rid
  /-- The tokens the KV entries of each request's prefix were computed from. -/
  prefixIds : List (List TokenId)
  extendSeqLens : List Nat
  inputIds : List TokenId
  dllmCausalKvUpdate : Bool := false
  returnLogprob : Bool := false
deriving DecidableEq, Repr

namespace ForwardBatch

def batchSize (fb : ForwardBatch) : Nat := fb.rids.length

/-- Where a request's input starts in the flat input. -/
def extendStartLoc (fb : ForwardBatch) (b : Nat) : Nat := (fb.extendSeqLens.take b).sum

/-- The input of one request. -/
def seq (fb : ForwardBatch) (b : Nat) : List TokenId :=
  (fb.inputIds.drop (fb.extendStartLoc b)).take (fb.extendSeqLens.getD b 0)

/-- A batch of the given inputs. -/
def ofSeqs (forwardMode : ForwardMode) (rids : List Rid) (prefixIds seqs : List (List TokenId)) :
    ForwardBatch where
  forwardMode := forwardMode
  rids := rids
  prefixIds := prefixIds
  extendSeqLens := seqs.map List.length
  inputIds := seqs.flatten

lemma seq_ofSeqs {forwardMode : ForwardMode} {rids : List Rid}
    {prefixIds seqs : List (List TokenId)} {b : Nat} {seq : List TokenId}
    (hb : seqs[b]? = some seq) : (ofSeqs forwardMode rids prefixIds seqs).seq b = seq := by
  obtain ⟨hlt, rfl⟩ := List.getElem?_eq_some_iff.mp hb
  rw [ForwardBatch.seq, extendStartLoc]
  simp only [ofSeqs]
  rw [getD_eq_getElem _ _ (by simpa using hlt), getElem_map, drop_sum_flatten,
    drop_eq_getElem_cons hlt, flatten_cons, take_left]

end ForwardBatch

/-! ### Scores -/

/-- A score, or `-inf`. -/
abbrev Score := WithBot ℚ

/-- The position of the first greatest score. -/
def argmax : List Score → Nat
  | [] => 0
  | x :: xs => if xs.any (x < ·) then argmax xs + 1 else 0

lemma argmax_spec {l : List Score} (hne : l ≠ []) : ∃ h :
    argmax l < l.length, ∀ x ∈ l, x ≤ l[argmax l] := by
  induction l with
  | nil => exact absurd rfl hne
  | cons y ys ih =>
    by_cases hany : ys.any (y < ·) = true
    · obtain ⟨z, hz, hyz⟩ := any_eq_true.mp hany
      obtain ⟨hlt, hmax⟩ := ih (ne_nil_of_mem hz)
      have hstep : argmax (y :: ys) = argmax ys + 1 := by rw [argmax, if_pos hany]
      simp only [hstep, length_cons, getElem_cons_succ]
      refine ⟨Nat.succ_lt_succ hlt, fun x hx => ?_⟩
      rcases mem_cons.mp hx with rfl | hx
      · exact (le_of_lt (of_decide_eq_true hyz)).trans (hmax z hz)
      · exact hmax x hx
    · have hstep : argmax (y :: ys) = 0 := by rw [argmax, if_neg hany]
      simp only [hstep, length_cons, getElem_cons_zero]
      refine ⟨Nat.succ_pos _, fun x hx => ?_⟩
      rcases mem_cons.mp hx with rfl | hx
      · exact le_refl _
      · exact not_lt.mp fun hlt => hany (any_eq_true.mpr ⟨x, hx, decide_eq_true hlt⟩)

/-- The scores with one token's score overwritten. -/
def overwrite (t : TokenId) (low : Score) (row : List Score) : List Score := row.set t low

def scores (row : List ℚ) : List Score := row.map fun x : ℚ => (x : Score)

/-- `-inf` in some places and a very low number in others keep the mask from being chosen. -/
def argmaxExcept (maskId : TokenId) (low : Score) (row : List ℚ) : TokenId :=
  argmax (overwrite maskId low (scores row))

/-! ### The model -/

structure LogitsOutput where
  nextTokenLogits : Option (List (List ℚ))
  fullLogits : Option (List (List ℚ))

/-- The raw scores at every position of the flat input. -/
structure ModelRunner where
  row : ForwardBatch → Nat → List ℚ

/-- The row of the last token of each request. -/
def ForwardBatch.lastIndices (fb : ForwardBatch) : List Nat :=
  (List.range fb.batchSize).map fun b => fb.extendStartLoc (b + 1) - 1

def ModelRunner.forward (model : ModelRunner) (fb : ForwardBatch) : LogitsOutput :=
  match fb.forwardMode with
  | .extend => {nextTokenLogits := some (fb.lastIndices.map (model.row fb)), fullLogits := none}
  | .dllmExtend | .targetVerify =>
    {nextTokenLogits := none, fullLogits := some ((List.range fb.inputIds.length).map (model.row fb))}

/-- A causal deterministic model: the token read at a position, the mask excluded, is a function of
the request's tokens up to that position. It attends causally when it caches a prompt, and in a
block pass that asks for it. -/
structure ModelRunner.Causal (model : ModelRunner) (maskId : TokenId)
    (next : List TokenId → TokenId) : Prop where
  ne_mask : ∀ ids, next ids ≠ maskId
  read : ∀ fb : ForwardBatch, fb.forwardMode = .extend ∨ fb.forwardMode = .dllmExtend ∧
    fb.dllmCausalKvUpdate = true →
    ∀ b < fb.batchSize, ∀ i < (fb.seq b).length, ∀ low ∈ [(⊥ : Score), ((-1000000000 : ℚ) : Score)],
      argmaxExcept maskId low (model.row fb (fb.extendStartLoc b + i)) =
      next (fb.prefixIds.getD b [] ++ (fb.seq b).take (i + 1))

/-- What a run of a block algorithm gives back: the tokens of each request, and the batches it
handed to the model, in order. -/
structure RunOutput where
  nextTokenIds : List (List TokenId)
  calls : List ForwardBatch
deriving DecidableEq

/-! ### Blocks of a flat input -/

section Slice
variable {α : Type*} {l : List α}

/-- `l[start:stop]`. -/
def slice (l : List α) (start stop : Nat) : List α := (l.drop start).take (stop - start)

/-- The block of a request. -/
def block (blockSize : Nat) (l : List α) (b : Nat) : List α :=
  slice l (b * blockSize) (b * blockSize + blockSize)

lemma slice_offset (l : List α) (start i j n : Nat) (h : j ≤ n) :
    slice l (start + i) (start + j) = slice (slice l start (start + n)) i j := by
  unfold slice
  rw [Nat.add_sub_cancel_left, drop_take, drop_drop, take_take, Nat.add_sub_add_left]
  congr 1
  omega

lemma getElem?_block {bs b i : Nat} (hi : i < bs) : (block bs l b)[i]? = l[b * bs + i]? := by
  rw [block, slice, Nat.add_sub_cancel_left, getElem?_take_of_lt hi, getElem?_drop]

lemma length_block {bs b n : Nat} (hl : l.length = n * bs) (hb : b < n) :
    (block bs l b).length = bs := by
  have hle : b * bs + bs ≤ n * bs := Nat.succ_mul b bs ▸ Nat.mul_le_mul_right bs hb
  rw [block, slice, length_take, length_drop]
  omega

lemma length_flatten_blocks {bs : Nat} {blocks : List (List α)} (h : ∀ x ∈ blocks, x.length = bs) :
    blocks.flatten.length = blocks.length * bs := by
  induction blocks with
  | nil => simp
  | cons x blocks ih =>
    obtain ⟨hx, h⟩ := forall_mem_cons.mp h
    rw [flatten_cons, length_append, length_cons, hx, ih h, Nat.succ_mul, add_comm]

lemma block_flatten {bs b : Nat} {blocks : List (List α)} (h : ∀ x ∈ blocks, x.length = bs)
    (hb : b < blocks.length) :
    block bs blocks.flatten b = blocks[b] := by
  induction blocks generalizing b with
  | nil => exact absurd hb (Nat.not_lt_zero _)
  | cons x blocks ih =>
    obtain ⟨hx, h⟩ := forall_mem_cons.mp h
    unfold block slice at ih ⊢
    cases b with
    | zero =>
      rw [zero_mul, drop_zero, flatten_cons, zero_add, Nat.sub_zero, ← hx, take_left]
      rfl
    | succ b =>
      have hb : b < blocks.length := Nat.lt_of_succ_lt_succ hb
      have hdrop : (b + 1) * bs = x.length + b * bs := by rw [hx, Nat.succ_mul, add_comm]
      rw [getElem_cons_succ, ← ih h hb, flatten_cons, Nat.add_sub_cancel_left,
        Nat.add_sub_cancel_left, hdrop,
        drop_length_add_append]

lemma flatten_blocks (bs : Nat) (l : List α) (n : Nat) :
    ((List.range n).map (block bs l)).flatten = l.take (n * bs) := by
  induction n with
  | zero => simp
  | succ n ih =>
    rw [range_succ, map_append, flatten_append, ih, map_singleton, flatten_singleton,
      Nat.succ_mul, take_add, block, slice,
      Nat.add_sub_cancel_left]

end Slice

/-- Where the masks of each block begin, from their number. -/
def startList (maskId : TokenId) (blockSize batchSize : Nat) (ids : List TokenId) : List Nat :=
  (List.range batchSize).map fun b => blockSize - (block blockSize ids b).count maskId

lemma startList_masks (maskId : TokenId) (blockSize batchSize : Nat) :
    startList maskId blockSize batchSize
    (List.replicate (batchSize * blockSize) maskId) = List.replicate batchSize 0 := by
  refine ext_getElem (by simp [startList]) fun b hb _ => ?_
  have hb : b < batchSize := by simpa [startList] using hb
  have hle : b * blockSize + blockSize ≤ batchSize * blockSize :=
    Nat.succ_mul b blockSize ▸ Nat.mul_le_mul_right _ hb
  simp only [startList, getElem_map, getElem_range, getElem_replicate, block, slice, drop_replicate,
    take_replicate, count_replicate_self]
  omega

/-! ### Commits -/

section Commit
variable {maskId : TokenId} {ids : List TokenId} {transfer : Nat → Bool} {x : Nat → TokenId}

/-- `ids[transfer] = x[transfer]`. -/
def commit (ids : List TokenId) (transfer : Nat → Bool) (x : Nat → TokenId) : List TokenId :=
  ids.mapIdx fun i id => if transfer i then x i else id

/-- The positions of a block that are masked. -/
def masked (maskId : TokenId) (ids : List TokenId) : Finset Nat :=
  (Finset.range ids.length).filter fun i => ids[i]? = some maskId

@[simp] lemma length_commit : (commit ids transfer x).length = ids.length := length_mapIdx

lemma mem_masked {i : Nat} : i ∈ masked maskId ids ↔ ids[i]? = some maskId := by
  rw [masked, Finset.mem_filter, Finset.mem_range, and_iff_right_iff_imp]
  exact fun h => (List.getElem?_eq_some_iff.mp h).1

lemma masked_eq_empty : masked maskId ids = ∅ ↔ maskId ∉ ids := by
  rw [Finset.eq_empty_iff_forall_notMem, mem_iff_getElem?]
  simp [mem_masked]

/-- A commit of other tokens than the mask takes its positions from the masked ones. -/
lemma masked_commit (hx : ∀ i < ids.length, x i ≠ maskId) :
    masked maskId (commit ids transfer x) = (masked maskId ids).filter fun i =>
    transfer i = false := by
  ext i
  rw [Finset.mem_filter, mem_masked, mem_masked, commit, getElem?_mapIdx]
  cases transfer i with
  | true => simpa using fun _ hi => hx i (List.getElem?_eq_some_iff.mp hi).1
  | false => simp

end Commit

/-! ### Batches of whole blocks -/

namespace ForwardBatch
variable {fb : ForwardBatch} {bs b : Nat}

lemma extendStartLoc_blocks (hlens : fb.extendSeqLens = List.replicate fb.batchSize bs)
    (hb : b ≤ fb.batchSize) :
    fb.extendStartLoc b = b * bs := by
  rw [extendStartLoc, hlens, take_replicate, min_eq_left hb, sum_replicate, Nat.nsmul_eq_mul]

lemma seq_blocks (hlens : fb.extendSeqLens = List.replicate fb.batchSize bs)
    (hb : b < fb.batchSize) :
    fb.seq b = block bs fb.inputIds b := by
  rw [seq, extendStartLoc_blocks hlens (le_of_lt hb), hlens,
    getD_eq_getElem _ _ (by simpa using hb),
    getElem_replicate, block, slice, Nat.add_sub_cancel_left]

end ForwardBatch

end Sglang.Dllm
