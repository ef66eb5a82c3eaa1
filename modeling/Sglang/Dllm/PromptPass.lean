import Sglang.Dllm.LinearSpec

/-! The pass that caches the prompts.

A batch of prompts is run in the mode in which the logits processor keeps only the last row of each
request, so an algorithm that takes it for blocks to denoise has no scores to read. What
`FastDiffuser` and `TiDAR` do with the scores once they have them is a parameter here. -/
namespace Sglang.Dllm

open List

/-- `place` is the part of a step after the scores of a block are read: the new tokens, and whether
the block is finished. `forceCommit` is the same after the last pass. -/
structure FastDiffuser where
  maskId : TokenId
  blockSize : Nat
  maxSteps : Nat
  causalContext : Bool
  place : (step genStart : Nat) → List (List ℚ) → List TokenId → List TokenId × Bool
  forceCommit : (genStart : Nat) → List (List ℚ) → List TokenId → List TokenId

namespace FastDiffuser

/-- The blocks while masks are replaced. -/
structure Denoising where
  ids : List TokenId
  finished : List Bool
  calls : List ForwardBatch := []

/-- The blocks are views of the flat input. -/
def setBlock (self : FastDiffuser) (ids : List TokenId) (b : Nat) (tokens : List TokenId) :
    List TokenId :=
  ids.take (b * self.blockSize) ++ tokens ++ ids.drop (b * self.blockSize + self.blockSize)

def compactForwardBatch (self : FastDiffuser) (fb : ForwardBatch) (active : List Nat) :
    ForwardBatch :=
  { fb with
    rids := active.map (fb.rids.getD · "")
    prefixIds := active.map (fb.prefixIds.getD · [])
    extendSeqLens := active.map (fb.extendSeqLens.getD · 0)
    inputIds := active.flatMap (block self.blockSize fb.inputIds) }

section Run
variable (self : FastDiffuser) (model : ModelRunner) (fb : ForwardBatch)

/-- Where the masks of a block begin. -/
def genStart (b : Nat) : Nat :=
  (startList self.maskId self.blockSize fb.batchSize fb.inputIds).getD b 0

/-- One request of the compacted batch. -/
def visit (step : Nat) (logits : Option (List (List ℚ))) (s : Denoising) (x : Nat × Nat) :
    Option Denoising :=
  let ids := block self.blockSize s.ids x.1
  if self.maskId ∉ ids then some {s with finished := s.finished.set x.1 true}
  else logits.map fun rows =>
    let (ids, done) := self.place step (self.genStart fb x.1) (block self.blockSize rows x.2) ids
    {s with ids := self.setBlock s.ids x.1 ids, finished := s.finished.set x.1 done}

/-- The steps that are left. -/
def loop : (left step : Nat) → Denoising → Option Denoising
  | 0, _, s => some s
  | left + 1, step, s =>
    let active := (range fb.batchSize).filter fun b => !s.finished.getD b true
    if active = [] then some s
    else
      let master := {fb with inputIds := s.ids}
      let batch :=
        if active.length = fb.batchSize then master else self.compactForwardBatch master active
      (active.zipIdx.foldlM (self.visit fb step (model.forward batch).fullLogits)
        {s with calls := s.calls ++ [batch]}).bind (loop left (step + 1))

def run : Option RunOutput :=
  if self.maskId ∉ fb.inputIds then some ⟨[], if fb.inputIds = [] then [] else [fb]⟩
  else do
    let s ← self.loop model fb self.maxSteps 0 ⟨fb.inputIds, replicate fb.batchSize false, []⟩
    let final :=
      {fb with inputIds := s.ids, dllmCausalKvUpdate := self.causalContext || fb.dllmCausalKvUpdate}
    let ids ← (range fb.batchSize).foldlM (fun ids b =>
      if self.maskId ∉ block self.blockSize ids b then some ids
      else (model.forward final).fullLogits.map fun rows =>
        self.setBlock ids b (self.forceCommit (self.genStart fb b) (block self.blockSize rows b)
          (block self.blockSize ids b))) s.ids
    -- `reshape(batch_size, block_size)`
    if ids.length = fb.batchSize * self.blockSize then
      some ⟨(range fb.batchSize).map fun b => (block self.blockSize ids b).drop
        (self.genStart fb b), s.calls ++ [final]⟩
    else none

end Run

variable {self : FastDiffuser} {model : ModelRunner} {fb : ForwardBatch}

lemma fullLogits_extend (hmode : fb.forwardMode = .extend) :
    (model.forward fb).fullLogits = none := by
  rw [ModelRunner.forward, hmode]

/-- Without scores a step changes no token. -/
lemma ids_foldlM_visit {step : Nat} {l : List (Nat × Nat)} {s s' : Denoising}
    (h : l.foldlM (self.visit fb step none) s = some s') : s'.ids = s.ids := by
  induction l generalizing s with
  | nil => rw [← Option.some.inj h]
  | cons x l ih =>
    rw [foldlM_cons, visit] at h
    split at h
    · exact @ih {s with finished := s.finished.set x.1 true} h
    · cases h

lemma ids_loop (hmode : fb.forwardMode = .extend) {left step : Nat} {s s' : Denoising}
    (h : self.loop model fb left step s = some s') : s'.ids = s.ids := by
  induction left generalizing step s with
  | zero => rw [← Option.some.inj h]
  | succ left ih =>
    rw [loop] at h
    split at h
    · rw [← Option.some.inj h]
    · obtain ⟨s1, hvisit, hloop⟩ := Option.bind_eq_some_iff.mp h
      rw [fullLogits_extend (by split <;> exact hmode)] at hvisit
      have hids := ids_foldlM_visit hvisit
      exact (ih hloop).trans hids

lemma run_extend_of_mem (hmode : fb.forwardMode = .extend) (hmask : self.maskId ∈ fb.inputIds) :
    self.run model fb = none := by
  rw [run, if_neg (not_not.mpr hmask)]
  refine Option.eq_none_iff_forall_ne_some.mpr fun out hout => ?_
  obtain ⟨s, hloop, hout⟩ := Option.bind_eq_some_iff.mp hout
  obtain ⟨ids, hcommit, hout⟩ := Option.bind_eq_some_iff.mp hout
  have hids : s.ids = fb.inputIds := ids_loop hmode hloop
  rw [hids, fullLogits_extend (by exact hmode)] at hcommit
  have hclean : ∀ l :
    List Nat, l.foldlM (fun ids b => if self.maskId ∉ block self.blockSize ids b then
    some ids else none) fb.inputIds =
      some ids → ids = fb.inputIds ∧ ∀ b ∈ l, self.maskId ∉ block self.blockSize fb.inputIds b := by
    intro l hl
    induction l with
    | nil => exact ⟨(Option.some.inj hl).symm, nofun⟩
    | cons b l ih =>
      rw [foldlM_cons] at hl
      split at hl
      · next hb => exact ⟨(ih hl).1, forall_mem_cons.mpr ⟨hb, (ih hl).2⟩⟩
      · cases hl
  obtain ⟨rfl, hblocks⟩ := hclean _ hcommit
  -- an input of whole blocks has the mask in one of them
  rw [Option.ite_none_right_eq_some] at hout
  obtain ⟨i, hi, hget⟩ := getElem_of_mem hmask
  have hlt := hout.1 ▸ hi
  have hpos : 0 < self.blockSize := Nat.pos_of_ne_zero fun hzero => by simp [hzero] at hlt
  refine hblocks (i / self.blockSize) (mem_range.mpr ((Nat.div_lt_iff_lt_mul hpos).mpr hlt)) ?_
  refine mem_of_getElem? (i := i % self.blockSize) ?_
  rw [getElem?_block (Nat.mod_lt i hpos), Nat.div_add_mod', getElem?_eq_getElem hi, hget]

end FastDiffuser

/-- `quadraticDecode` is the run from the scores of the first draft on. -/
structure Tidar where
  maskId : TokenId
  quadraticDecode : ForwardBatch → List (List ℚ) → Option RunOutput

def Tidar.run (self : Tidar) (model : ModelRunner) (fb : ForwardBatch) : Option RunOutput :=
  if self.maskId ∉ fb.inputIds then some ⟨[], if fb.inputIds = [] then [] else [fb]⟩
  else (model.forward fb).fullLogits.bind (self.quadraticDecode fb)

/-- The model is run on the prompts as they are, if there is anything to run it on, and no token is
generated. -/
def Cached (fb : ForwardBatch) (out : Option RunOutput) : Prop :=
  out = some ⟨[], if fb.inputIds = [] then [] else [fb]⟩

/-- **Prompts are cached as they are if and only if none contains the mask.** -/
theorem prompt_pass_iff (fd : FastDiffuser) (ls : LinearSpec) (td : Tidar)
    (model : ModelRunner) (rids : List Rid)
    (prefixIds prompts : List (List TokenId)) : let fb := ForwardBatch.ofSeqs .extend rids prefixIds prompts
    (Cached fb (fd.run model fb) ↔ ∀ prompt ∈ prompts, fd.maskId ∉ prompt) ∧
    (Cached fb ((ls.run model fb).map Prod.snd) ↔ ∀ prompt ∈ prompts, ls.maskId ∉ prompt) ∧
    (Cached fb (td.run model fb) ↔ ∀ prompt ∈ prompts, td.maskId ∉ prompt) := by
  intro fb
  have hmem (t : TokenId) : (∀ prompt ∈ prompts, t ∉ prompt) ↔ t ∉ fb.inputIds := by
    simp [fb, ForwardBatch.ofSeqs]
  simp only [hmem]
  refine ⟨?_, ?_, ?_⟩
  · by_cases hmask : fd.maskId ∈ fb.inputIds
    · simp [@FastDiffuser.run_extend_of_mem _ model fb rfl hmask, Cached, hmask]
    · simp [FastDiffuser.run, Cached, hmask]
  · by_cases hmask : ls.maskId ∈ fb.inputIds
    · simp [@LinearSpec.run_extend_of_mem _ model fb rfl hmask, Cached, hmask]
    · rw [LinearSpec.run_extend_of_not_mem rfl hmask, Cached]
      split <;> simp [hmask]
  · by_cases hmask : td.maskId ∈ fb.inputIds
    · simp [Tidar.run, @FastDiffuser.fullLogits_extend model fb rfl, Cached, hmask]
    · simp [Tidar.run, Cached, hmask]

/-- A prompt that has the mask's token fails. -/
theorem mask_in_prompt_fails : ¬ Cached (.ofSeqs .extend ["a"] [[]] [[1, 9]])
    (((⟨4, 9, none, fun _ => none, by decide⟩ : LinearSpec).run ⟨fun _ _ => [0]⟩
    (.ofSeqs .extend ["a"] [[]] [[1, 9]])).map Prod.snd) := by
  rw [LinearSpec.run_extend_of_mem rfl (by decide)]
  exact nofun

end Sglang.Dllm
