import Sglang.Dllm.Forward

/-! JointThreshold: masks are replaced by tokens, and tokens by better ones.

Every iteration visits each unfinished block with the scores of one forward pass: it commits the
masks that the model is sure of, at least one of them, and edits tokens that are not from the
prompt. The KV cache is left by the last forward pass, so the last pass must have seen the tokens
that are returned: a pass is added after the loop unless the last iteration changed nothing. -/
namespace Sglang.Dllm

open List

/-- What the algorithm takes from the tensor library: the probabilities of a row of scores, and the
position of a greatest score, whichever it is. -/
structure Torch where
  softmax : List ℚ → List ℚ
  top : List Score → Nat
  top_spec : ∀ {l : List Score}, l ≠ [] → ∃ h : top l < l.length, ∀ c ∈ l, c ≤ l[top l]

structure JointThreshold where
  maskId : TokenId
  blockSize : Nat
  threshold : ℚ
  editThreshold : ℚ
  maxPostEditSteps : Nat
  penaltyLambda : ℚ

namespace JointThreshold

/-- A request during a run: its block, where the prompt is in it, and how far the editing is. -/
structure Slot where
  ids : List TokenId
  promptMask : List Bool
  postEditSteps : Nat := 0
  finished : Bool := false

section Visit
variable (self : JointThreshold) (torch : Torch) (logits : List (List ℚ)) (ids : List TokenId)

/-- The scores of a position, those of the token before it lowered by the penalty. -/
def penalized (i : Nat) : List ℚ :=
  if 0 < self.penaltyLambda ∧ 0 < i then (logits.getD i []).modify (ids.getD (i - 1) 0)
    (· - self.penaltyLambda) else logits.getD i []

def predicted (i : Nat) : TokenId := argmax (scores (self.penalized logits ids i))

def probability (i : Nat) : ℚ :=
  (torch.softmax (self.penalized logits ids i)).getD (self.predicted logits ids i) 0

def confidence : List Score :=
  ids.mapIdx fun i id => if id = self.maskId then (self.probability torch logits ids i : Score)
    else ⊥

/-- Masks to tokens: those above the threshold or, without one, the surest. -/
def maskTransfer (i : Nat) : Bool :=
  let confidence := self.confidence torch logits ids
  if confidence.any ((self.threshold : Score) < ·) then
    confidence[i]?.any ((self.threshold : Score) < ·)
  else i == torch.top confidence

/-- Tokens to tokens. -/
def editTransfer (promptMask : List Bool) (i : Nat) : Bool :=
  decide (self.editThreshold < self.probability torch logits ids i) &&
    decide (ids[i]? ≠ some (self.predicted logits ids i)) &&
    decide (ids[i]? ≠ some self.maskId) && !promptMask.getD i false

/-- One block with the scores of a pass; the flag says whether it changed. -/
def visit (slot : Slot) : Slot × Bool :=
  if slot.finished then (slot, false)
  else
    let hasMask := slot.ids.contains self.maskId
    let slot := if hasMask then slot else { slot with postEditSteps := slot.postEditSteps + 1 }
    if !hasMask && decide (self.maxPostEditSteps < slot.postEditSteps) then
      ({ slot with finished := true }, false)
    else
      let transfer :=
        fun i => (hasMask && self.maskTransfer torch logits slot.ids i) ||
        self.editTransfer torch logits slot.ids slot.promptMask i
      if (List.range slot.ids.length).any transfer then
        ({ slot with ids := commit slot.ids transfer (self.predicted logits slot.ids) }, true)
      else ({ slot with finished := true }, false)

end Visit

section Run
variable (self : JointThreshold) (torch : Torch) (runner : Nat → ModelRunner) (fb : ForwardBatch)

/-- The batch with the blocks as they are. -/
def batch (slots : List Slot) : ForwardBatch := { fb with inputIds := (slots.map (·.ids)).flatten }

/-- The iterations that are left. The model may answer differently each time it is called; without
scores for all positions the slicing of them fails. -/
def loop : (left : Nat) → (slots : List Slot) → (anyChanged : Bool) → (calls : List ForwardBatch) →
    Option (List Slot × Bool × List ForwardBatch)
  | 0, slots, anyChanged, calls => some (slots, anyChanged, calls)
  | left + 1, slots, anyChanged, calls =>
    if slots.all (·.finished) then some (slots, anyChanged, calls)
    else ((runner calls.length).forward (batch fb slots)).fullLogits.bind fun logits =>
      let visit := fun b slot => self.visit torch (block self.blockSize logits b) slot
      loop left (slots.mapIdx fun b slot => (visit b slot).1) ((slots.mapIdx visit).any (·.2))
        (calls ++ [batch fb slots])

def start (b : Nat) : Slot where
  ids := block self.blockSize fb.inputIds b
  promptMask := (block self.blockSize fb.inputIds b).map (· != self.maskId)

def run : Option RunOutput :=
  if self.maskId ∉ fb.inputIds then some ⟨[], [fb]⟩
  else
    let slots := (List.range fb.batchSize).map (self.start fb)
    (self.loop torch runner fb (self.blockSize + self.maxPostEditSteps) slots false []).bind
      fun (slots', anyChanged, calls) =>
      let final := batch fb slots'
      let calls := if anyChanged then calls ++ [final] else calls
      -- without a pass there are no logits to return
      if calls = [] then none
      else some ⟨(List.range fb.batchSize).map fun b =>
        (block self.blockSize final.inputIds b).drop ((self.start fb b).promptMask.count true),
          calls⟩

end Run

/-! ### A visit -/

variable {self : JointThreshold} {torch : Torch} {logits : List (List ℚ)}
  {slot : Slot} {orig : List TokenId}

/-- The tokens of a prompt are where they were. -/
def Keeps (maskId : TokenId) (orig ids : List TokenId) : Prop :=
  Forall₂ (fun t t' => t ≠ maskId → t' = t) orig ids

/-- A block on its way from `orig`. -/
structure Ok (maskId : TokenId) (orig : List TokenId) (slot : Slot) : Prop where
  keeps : Keeps maskId orig slot.ids
  promptMask : slot.promptMask = orig.map (· != maskId)
  finished : slot.finished = true → maskId ∉ slot.ids

lemma Keeps.refl (maskId : TokenId) (ids : List TokenId) : Keeps maskId ids ids :=
  forall₂_same.mpr fun _ _ _ => rfl

variable {ids : List TokenId} {maskId : TokenId} {i : Nat}

lemma Keeps.getElem? (h : Keeps maskId orig ids) {t : TokenId} (hi : orig[i]? = some t)
    (ht : t ≠ maskId) : ids[i]? = some t := by
  obtain ⟨hlength, hget⟩ := forall₂_iff_get.mp h
  obtain ⟨hlt, rfl⟩ := List.getElem?_eq_some_iff.mp hi
  rw [getElem?_eq_getElem (hlength ▸ hlt)]
  exact congrArg some (hget i hlt (hlength ▸ hlt) ht)

lemma keeps_commit {transfer : Nat → Bool} {x : Nat → TokenId} (h : Keeps maskId orig ids)
    (htransfer : ∀ i t, orig[i]? = some t → t ≠ maskId → transfer i = false) :
    Keeps maskId orig (commit ids transfer x) := by
  rw [Keeps, forall₂_iff_get] at h ⊢
  refine ⟨by simp [h.1], fun i hi hi' ht => ?_⟩
  have hkept := htransfer i _ (getElem?_eq_getElem hi) ht
  simpa [commit, hkept] using h.2 i hi (by simpa using hi') ht

lemma getElem?_of_confidence {c : Score} (hc : (self.confidence torch logits ids)[i]? = some c)
    (hbot : c ≠ ⊥) : ids[i]? = some self.maskId := by
  rw [confidence, getElem?_mapIdx] at hc
  obtain ⟨id, hid, rfl⟩ := Option.map_eq_some_iff.mp hc
  rw [hid, of_not_not fun hne => hbot (if_neg hne)]

lemma getElem?_of_maskTransfer (hmask : self.maskId ∈ ids)
    (h : self.maskTransfer torch logits ids i = true) : ids[i]? = some self.maskId := by
  simp only [maskTransfer] at h
  split at h
  · rw [Option.any_eq_true] at h
    obtain ⟨c, hc, hlt⟩ := h
    exact getElem?_of_confidence hc (ne_bot_of_gt (of_decide_eq_true hlt))
  · obtain ⟨j, hj⟩ := mem_iff_getElem?.mp hmask
    have hmem : (self.probability torch logits ids j : Score) ∈ self.confidence torch logits ids :=
      mem_of_getElem? (i := j) (by simp [confidence, hj])
    obtain ⟨hlt, hmax⟩ := torch.top_spec (ne_nil_of_mem hmem)
    rw [beq_iff_eq.mp h]
    exact getElem?_of_confidence (getElem?_eq_getElem hlt)
      (ne_bot_of_le_ne_bot WithBot.coe_ne_bot (hmax _ hmem))

lemma exists_maskTransfer (torch : Torch) (logits : List (List ℚ)) (hmask : self.maskId ∈ ids) :
    ∃ i ∈ masked self.maskId ids, self.maskTransfer torch logits ids i = true := by
  have hsome : ∃ i, self.maskTransfer torch logits ids i = true := by
    simp only [maskTransfer]
    split
    · rename_i hany
      obtain ⟨c, hmem, hlt⟩ := any_eq_true.mp hany
      obtain ⟨i, hi⟩ := mem_iff_getElem?.mp hmem
      exact ⟨i, by simpa [hi] using hlt⟩
    · exact ⟨_, beq_self_eq_true _⟩
  obtain ⟨i, hi⟩ := hsome
  exact ⟨i, mem_masked.mpr (getElem?_of_maskTransfer hmask hi), hi⟩

/-- What a visit does: the block stays in order; it changes or is as it was; and if no mask is
predicted, one mask less is left. -/
lemma visit_spec (h : Ok self.maskId orig slot) :
    Ok self.maskId orig (self.visit torch logits slot).1 ∧
      ((self.visit torch logits slot).2 = false → (self.visit torch logits slot).1.ids = slot.ids) ∧
      ((∀ i < slot.ids.length, self.predicted logits slot.ids i ≠ self.maskId) →
        (masked self.maskId (self.visit torch logits slot).1.ids).card ≤
        (masked self.maskId slot.ids).card - 1) := by
  have hstay (hnone : self.maskId ∉ slot.ids) :
      (masked self.maskId slot.ids).card ≤ (masked self.maskId slot.ids).card - 1 := by
    simp [masked_eq_empty.mpr hnone]
  unfold visit
  split
  · rename_i hfinished
    exact ⟨h, fun _ => rfl, fun _ => hstay (h.finished hfinished)⟩
  rename_i hfinished
  by_cases hmask : self.maskId ∈ slot.ids
  · obtain ⟨i, hi, htransfer⟩ := exists_maskTransfer torch logits hmask
    have hlt : i < slot.ids.length := (List.getElem?_eq_some_iff.mp (mem_masked.mp hi)).1
    simp only [contains_iff_mem.mpr hmask, Bool.not_true, Bool.false_and,
      Bool.false_eq_true, if_false, if_true, Bool.true_and]
    rw [if_pos (any_eq_true.mpr ⟨i, mem_range.mpr hlt, by simp [htransfer]⟩)]
    refine ⟨⟨keeps_commit h.keeps fun j t hj ht => ?_, h.promptMask, fun hf => absurd hf hfinished⟩,
      Bool.noConfusion, fun hpredicted => ?_⟩
    · -- the mask is not at `j`, as the prompt is
      refine Bool.or_eq_false_iff.mpr ⟨Bool.eq_false_iff.mpr fun hm => ?_,
        by simp [editTransfer, h.promptMask, hj, ht]⟩
      exact ht
        (Option.some.inj ((h.keeps.getElem? hj ht).symm.trans (getElem?_of_maskTransfer hmask hm)))
    · rw [masked_commit hpredicted]
      refine Nat.le_sub_one_of_lt (Finset.card_lt_card (Finset.filter_ssubset.mpr ⟨i, hi, ?_⟩))
      simp [htransfer]
  · simp only [Bool.eq_false_iff.mpr (fun hc => hmask (contains_iff_mem.mp hc)),
      Bool.not_false, Bool.true_and, Bool.false_eq_true, if_false,
      Bool.false_and, Bool.false_or]
    split
    · exact ⟨⟨h.keeps, h.promptMask, fun _ => hmask⟩, fun _ => rfl, fun _ => hstay hmask⟩
    split
    · refine ⟨⟨keeps_commit h.keeps fun j t hj ht =>
        by simp [editTransfer, h.promptMask, hj, ht], h.promptMask, fun hf => absurd hf hfinished⟩,
        Bool.noConfusion, fun hpredicted => ?_⟩
      rw [masked_commit hpredicted]
      exact (Finset.card_filter_le _ _).trans (hstay hmask)
    · exact ⟨⟨h.keeps, h.promptMask, fun _ => hmask⟩, fun _ => rfl, fun _ => hstay hmask⟩

/-! ### Runs -/

variable {runner : Nat → ModelRunner} {fb : ForwardBatch} {origs : List (List TokenId)}
  {slots : List Slot} {anyChanged : Bool}
  {calls : List ForwardBatch}

/-- All blocks are on their way from the original ones, each pass saw such blocks, and if the last
one changed nothing it saw these. -/
structure Inv (maskId : TokenId) (fb : ForwardBatch) (origs : List (List TokenId))
    (slots : List Slot) (anyChanged : Bool) (calls : List ForwardBatch) : Prop where
  ok : Forall₂ (Ok maskId) origs slots
  kept : ∀ call ∈ calls, Keeps maskId origs.flatten call.inputIds
  last : calls ≠ [] → anyChanged = false → calls.getLast? = some (batch fb slots)

/-- The model never predicts the mask at a position of the blocks it was given. -/
def Unmasking (self : JointThreshold) (runner : Nat → ModelRunner) : Prop :=
  ∀ n fb logits, ((runner n).forward fb).fullLogits = some logits →
    ∀ b, ∀ i < (block self.blockSize fb.inputIds b).length,
      self.predicted (block self.blockSize logits b) (block self.blockSize fb.inputIds b) i ≠
      self.maskId

section
variable (h : Forall₂ (Ok maskId) origs slots)
include h

lemma keeps_batch : Keeps maskId origs.flatten (batch fb slots).inputIds :=
  rel_flatten (forall₂_map_right_iff.mpr (h.imp fun _ _ hok => hok.keeps))

lemma exists_ok (hslot : slot ∈ slots) : ∃ orig ∈ origs, Ok maskId orig slot := by
  induction h with
  | nil => cases hslot
  | cons hok _ ih =>
    obtain rfl | hslot := mem_cons.mp hslot
    · exact ⟨_, mem_cons_self, hok⟩
    · exact (ih hslot).imp fun _ ⟨hmem, hok⟩ => ⟨mem_cons_of_mem _ hmem, hok⟩

lemma ok_mapIdx {f : Nat → Slot → Slot}
    (hf : ∀ b orig slot, Ok maskId orig slot → Ok maskId orig (f b slot)) :
    Forall₂ (Ok maskId) origs (slots.mapIdx f) := by
  induction h generalizing f with
  | nil => exact .nil
  | cons hok _ ih =>
    rw [mapIdx_cons]
    exact .cons (hf 0 _ _ hok) (ih fun b => hf (b + 1))

end

lemma loop_spec (hmode : fb.forwardMode = .dllmExtend)
    (horigs : ∀ orig ∈ origs, orig.length = self.blockSize) (left : Nat)
    (h : Inv self.maskId fb origs slots anyChanged calls) :
    ∃ slots' anyChanged' calls', self.loop torch runner fb left slots anyChanged calls =
    some (slots', anyChanged', calls') ∧
      Inv self.maskId fb origs slots' anyChanged' calls' ∧ calls'.length ≤ calls.length + left ∧
      (calls ≠ [] ∨ 0 < left ∧ slots.all (·.finished) = false → calls' ≠ []) ∧
      (Unmasking self runner → (∀ slot ∈ slots, (masked self.maskId slot.ids).card ≤ left) →
        ∀ slot ∈ slots', self.maskId ∉ slot.ids) := by
  induction left generalizing slots anyChanged calls with
  | zero =>
    refine ⟨slots, anyChanged, calls, rfl, h, le_rfl, fun hcalls => hcalls.resolve_right (by simp),
      fun _ hcard slot hslot => ?_⟩
    exact masked_eq_empty.mp (Finset.card_eq_zero.mp (Nat.le_zero.mp (hcard slot hslot)))
  | succ left ih =>
    unfold loop
    split
    · rename_i hall
      refine ⟨slots, anyChanged, calls, rfl, h,
        by omega, fun hcalls => hcalls.resolve_right (by simp [hall]), fun _ _ slot hslot => ?_⟩
      obtain ⟨orig, -, hok⟩ := exists_ok h.ok hslot
      exact hok.finished (all_eq_true.mp hall slot hslot)
    obtain ⟨logits, hlogits⟩ :
        ∃ logits, ((runner calls.length).forward (batch fb slots)).fullLogits = some logits := by
      simp [ModelRunner.forward, batch, hmode]
    rw [hlogits, Option.bind_some]
    obtain ⟨slots', anyChanged', calls', heq, hinv, hlength, hcalls, hmasks⟩ := @ih
      (slots.mapIdx fun b slot => (self.visit torch (block self.blockSize logits b) slot).1)
      ((slots.mapIdx fun b slot => self.visit torch (block self.blockSize logits b) slot).any (·.2))
        (calls ++ [batch fb slots]) {
        ok := ok_mapIdx h.ok fun b orig slot hok => (visit_spec hok).1
        kept := by
          intro call hcall
          obtain hcall | hcall := mem_append.mp hcall
          · exact h.kept call hcall
          · exact mem_singleton.mp hcall ▸ keeps_batch h.ok
        last := fun _ hsame => by
          have hids :
              (slots.mapIdx fun b slot =>
              (self.visit torch (block self.blockSize logits b) slot).1).map
              (·.ids) = slots.map (·.ids) := by
            refine ext_getElem? fun b => ?_
            simp only [getElem?_map, getElem?_mapIdx]
            cases hb : slots[b]? with
            | none => rfl
            | some slot =>
              obtain ⟨orig, -, hok⟩ := exists_ok h.ok (mem_of_getElem? hb)
              refine congrArg some ((visit_spec hok).2.1 (Bool.eq_false_iff.mpr fun hchanged => ?_))
              exact (any_eq_false.mp hsame) _
                (mem_of_getElem? (i := b) (by rw [getElem?_mapIdx, hb]; rfl)) hchanged
          rw [getLast?_append, getLast?_singleton, Option.some_or, batch, batch, hids] }
    refine ⟨slots', anyChanged', calls', heq, hinv,
      by rw [length_append, length_singleton] at hlength; omega,
      fun _ => hcalls (.inl (by simp)), fun hnever hcard => hmasks hnever fun slot' hslot' => ?_⟩
    obtain ⟨b, hb⟩ := mem_iff_getElem?.mp hslot'
    rw [getElem?_mapIdx] at hb
    obtain ⟨slot, hslot, rfl⟩ := Option.map_eq_some_iff.mp hb
    obtain ⟨orig, -, hok⟩ := exists_ok h.ok (mem_of_getElem? hslot)
    have hblock : block self.blockSize (batch fb slots).inputIds b = slot.ids := by
      obtain ⟨hlt, rfl⟩ := List.getElem?_eq_some_iff.mp hslot
      rw [batch, block_flatten (forall_mem_map.mpr fun slot hslot => ?_) (by simpa using hlt),
        getElem_map]
      obtain ⟨orig, horig, hok⟩ := exists_ok h.ok hslot
      exact hok.keeps.length_eq.symm.trans (horigs orig horig)
    refine ((visit_spec hok).2.2 ?_).trans
      (Nat.sub_le_of_le_add (hcard slot (mem_of_getElem? hslot)))
    exact hblock ▸ hnever calls.length (batch fb slots) logits hlogits b

/-- What a run leaves behind: it used up at most its budget, every pass saw the prompt where it was,
the last one saw the blocks whose tokens are returned, and no mask is among them if none is ever
predicted. -/
structure Fresh (self : JointThreshold) (runner : Nat → ModelRunner) (fb : ForwardBatch)
    (out : RunOutput) : Prop where
  forwards : out.calls.length ≤ self.blockSize + self.maxPostEditSteps + 1
  prompt : ∀ call ∈ out.calls, Keeps self.maskId fb.inputIds call.inputIds
  returned : ∃ last, out.calls.getLast? = some last ∧
    (Unmasking self runner → self.maskId ∉ last.inputIds) ∧
    out.nextTokenIds = if self.maskId ∈ fb.inputIds then (List.range fb.batchSize).map fun b =>
      (block self.blockSize last.inputIds b).drop ((self.start fb b).promptMask.count true) else []

theorem joint_threshold_fresh (self : JointThreshold) (torch : Torch) (runner : Nat → ModelRunner)
    (fb : ForwardBatch) (hmode : fb.forwardMode = .dllmExtend)
    (hlength : fb.inputIds.length = fb.batchSize * self.blockSize) :
    ∃ out, self.run torch runner fb = some out ∧ self.Fresh runner fb out := by
  unfold run
  split
  · rename_i hmask
    refine ⟨_, rfl, by simp, fun call hcall => ?_, fb, rfl, fun _ => hmask, (if_neg hmask).symm⟩
    exact mem_singleton.mp hcall ▸ .refl _ _
  rename_i hmask
  rw [not_not] at hmask
  have hpos : 0 < fb.batchSize * self.blockSize := hlength ▸ length_pos_of_mem hmask
  set origs := (List.range fb.batchSize).map (block self.blockSize fb.inputIds) with horigs
  have hflatten : origs.flatten = fb.inputIds := by
    rw [horigs, flatten_blocks, ← hlength, take_length]
  have hblocks : ∀ orig ∈ origs, orig.length = self.blockSize :=
    forall_mem_map.mpr fun b hb => length_block hlength (mem_range.mp hb)
  obtain ⟨slots, anyChanged, calls, heq, hinv, hcount, hcalls, hnomask⟩ :=
    @loop_spec self torch runner fb origs
    ((List.range fb.batchSize).map (self.start fb)) false [] hmode hblocks
      (self.blockSize + self.maxPostEditSteps) {
      ok := by
        rw [horigs, forall₂_map_left_iff, forall₂_map_right_iff]
        exact forall₂_same.mpr fun b _ => ⟨.refl _ _, rfl, Bool.noConfusion⟩
      kept := fun _ hcall => absurd hcall not_mem_nil
      last := fun hne => absurd rfl hne }
  have hnonempty : calls ≠ [] := by
    refine hcalls (.inr ⟨by have := Nat.pos_of_mul_pos_left hpos; omega, ?_⟩)
    refine all_eq_false.mpr ⟨_, mem_map_of_mem (mem_range.mpr (Nat.pos_of_mul_pos_right hpos)),
      Bool.noConfusion⟩
  have hmasks (hnever : Unmasking self runner) : self.maskId ∉ (batch fb slots).inputIds := by
    rw [batch, mem_flatten]
    rintro ⟨ids, hids, hmem⟩
    obtain ⟨slot, hslot, rfl⟩ := mem_map.mp hids
    refine hnomask hnever (forall_mem_map.mpr fun b hb => ?_) slot hslot hmem
    refine (Finset.card_filter_le _ _).trans ((Finset.card_range _).le.trans ?_)
    exact (length_block hlength (mem_range.mp hb)).le.trans (Nat.le_add_right _ _)
  simp only [heq, Option.bind_some]
  have hfinal : (if anyChanged then calls ++ [batch fb slots] else calls) ≠ [] ∧
      (if anyChanged then calls ++ [batch fb slots] else calls).getLast? =
      some (batch fb slots) := by
    cases hchanged : anyChanged with
    | true => simp
    | false => exact ⟨hnonempty, hinv.last hnonempty hchanged⟩
  rw [if_neg hfinal.1]
  refine ⟨_, rfl, ?_, fun call hcall => ?_, _, hfinal.2, hmasks, (if_pos hmask).symm⟩
  · simp only [length_nil, zero_add] at hcount
    split
    · simpa using hcount
    · exact Nat.le_succ_of_le hcount
  · rw [← hflatten]
    simp only at hcall
    split at hcall
    · obtain hcall | hcall := mem_append.mp hcall
      · exact hinv.kept call hcall
      · exact mem_singleton.mp hcall ▸ keeps_batch hinv.ok
    · exact hinv.kept call hcall

/-- Blocks of two, the first token of the second block from the prompt. -/
def twoBlocks : ForwardBatch :=
  ⟨.dllmExtend, ["a", "b"], [[], []], [2, 2], [3, 3, 2, 3], false, false⟩

/-- A model that prefers another token once it has seen the first. -/
def drifting : Nat → ModelRunner :=
  fun k => ⟨fun _ i => if k = 0 then [i, 1, 1, -9] else [1, 1, 2, -9]⟩

/-- A score loses at most the penalty. -/
lemma exists_penalized (ids : List TokenId) {j : Nat} {x : ℚ} (hlambda : 0 ≤ self.penaltyLambda)
    (h : (logits.getD i [])[j]? = some x) :
    ∃ y, (self.penalized logits ids i)[j]? = some y ∧ y ≤ x ∧ x - self.penaltyLambda ≤ y := by
  unfold penalized
  split
  · rw [getElem?_modify, h, Option.map_eq_map, Option.map_some]
    refine ⟨_, rfl, ?_⟩
    split
    · exact ⟨sub_le_self x hlambda, le_rfl⟩
    · exact ⟨le_rfl, sub_le_self x hlambda⟩
  · exact ⟨x, h, le_rfl, sub_le_self x hlambda⟩

lemma predicted_ne_of_lt {j k : Nat} {x y : ℚ} (hlambda : 0 ≤ self.penaltyLambda)
    (hj : (logits.getD i [])[j]? = some x) (hk : (logits.getD i [])[k]? = some y)
    (hlt : x < y - self.penaltyLambda) : self.predicted logits ids i ≠ j := by
  rintro rfl
  obtain ⟨x', hx', hle, -⟩ := exists_penalized ids hlambda hj
  obtain ⟨y', hy', -, hge⟩ := exists_penalized ids hlambda hk
  have hmem : (y' : Score) ∈ scores (self.penalized logits ids i) :=
    mem_map_of_mem (f := fun x : ℚ => (x : Score)) (mem_of_getElem? hy')
  obtain ⟨hbound, hmax⟩ := argmax_spec (ne_nil_of_mem hmem)
  have hargmax : (scores (self.penalized logits ids i))[self.predicted logits ids i]? =
      some (x' : Score) := by
    rw [scores, getElem?_map, hx', Option.map_some]
  have hle' := hmax _ hmem
  rw [Option.some.inj ((getElem?_eq_getElem hbound).symm.trans hargmax), WithBot.coe_le_coe] at hle'
  exact absurd (hlt.trans_le hge) (not_lt.mpr (hle'.trans hle))

lemma drifting_unmasking : Unmasking ⟨3, 2, 1, 0, 1, 1⟩ drifting := by
  intro n fb logits hlogits b i hi
  have hsize : i < 2 := hi.trans_le ((length_take_le _ _).trans (by simp))
  have hin : b * 2 + i < fb.inputIds.length := by
    have hget := getElem?_eq_getElem hi
    rw [getElem?_block hsize] at hget
    exact (List.getElem?_eq_some_iff.mp hget).1
  have hrow : (block 2 logits b).getD i [] = (drifting n).row fb (b * 2 + i) := by
    unfold ModelRunner.forward at hlogits
    split at hlogits <;> cases hlogits <;> simp [getElem?_block hsize, hin]
  have hscores : ((drifting n).row fb (b * 2 + i))[3]? = some (-9 : ℚ) ∧
      ((drifting n).row fb (b * 2 + i))[1]? = some (1 : ℚ) := by
    simp only [drifting]
    split <;> exact ⟨rfl, rfl⟩
  -- the penalty does not make up for the score of the mask
  exact predicted_ne_of_lt zero_le_one (hrow ▸ hscores.1) (hrow ▸ hscores.2) (by decide +kernel)

theorem joint_threshold_fresh_two_blocks :
    ∃ out, run ⟨3, 2, 1, 0, 1, 1⟩ ⟨id, argmax, argmax_spec⟩ drifting twoBlocks = some out ∧
    out.nextTokenIds = [[2, 0], [0]] ∧ out.calls.length = 4 ∧
    (∃ last, out.calls.getLast? = some last ∧ 3 ∉ last.inputIds) ∧
    Fresh ⟨3, 2, 1, 0, 1, 1⟩ drifting twoBlocks out := by
  obtain ⟨out, hout, hfresh⟩ :=
    joint_threshold_fresh ⟨3, 2, 1, 0, 1, 1⟩ ⟨id, argmax, argmax_spec⟩ drifting twoBlocks rfl rfl
  have hrun : (run ⟨3, 2, 1, 0, 1, 1⟩ ⟨id, argmax, argmax_spec⟩ drifting twoBlocks).map
      (fun out => (out.nextTokenIds, out.calls.length)) = some ([[2, 0], [0]], 4) := by
        decide +kernel
  rw [hout, Option.map_some, Option.some.injEq, Prod.mk.injEq] at hrun
  have ⟨_, _, last, hlast, hmask, _⟩ := hfresh
  exact ⟨out, hout, hrun.1, hrun.2, ⟨last, hlast, hmask drifting_unmasking⟩, hfresh⟩

end JointThreshold

end Sglang.Dllm
