import Sglang.Dllm.LinearSpec
import Sglang.Lib.Runs

/-! Speculative decoding with `LinearSpec` is lossless.

The scheduler caches a request's prompt, then gives it one block after the other: masks after its
tokens so far, on the KV entries of its committed length. What the verifying pass was fed stays in
the KV cache. Every token of every request is the one the causal model gives after the tokens
before it, whatever the drafts are and however the requests are batched. -/
namespace Sglang.Dllm

open List Option
open Speculative Runs LinearSpec ForwardBatch

/-! ### Requests -/

structure Request where
  rid : Rid
  originInputIds : List TokenId
  outputIds : List TokenId := []
  /-- The tokens the KV entries of its row were computed from. -/
  kvIds : List TokenId := []
  kvCommittedLen : Nat := 0
deriving DecidableEq

namespace Request

section
variable (r : Request)

def tokens : List TokenId := r.originInputIds ++ r.outputIds

/-- `_init_fill_ids_for_dllm`: a block of masks after the tokens. -/
def fillIds (blockSize : Nat) (maskId : TokenId) : List TokenId :=
  r.tokens ++ replicate blockSize maskId

def prefixIds : List TokenId := r.kvIds.take r.kvCommittedLen

/-- The prompt was fed. -/
def cached : Request :=
  {r with kvIds := r.originInputIds, kvCommittedLen := r.originInputIds.length}

/-- `process_batch_result_dllm` for one request: `fed` is what the last pass saw of its block, and
the committed length goes back by what was not accepted. -/
def processResult (blockSize : Nat) (fed next : List TokenId) : Request :=
  let committed := r.kvCommittedLen + fed.length
  { r with
    kvIds := r.prefixIds ++ fed
    outputIds := r.outputIds ++ next
    kvCommittedLen :=
      if next.length < blockSize then committed - (blockSize - next.length) else committed }

end

end Request

/-- `init_prompt_cache_input`: whole prompts on an empty prefix. -/
def promptBatch (batch : List Request) : ForwardBatch :=
  .ofSeqs .extend (batch.map (·.rid)) (batch.map fun _ => []) (batch.map (·.originInputIds))

/-- `_prepare_staging_reqs`: what is not committed yet of the tokens and the new block. -/
def blockBatch (blockSize : Nat) (maskId : TokenId) (batch : List Request) : ForwardBatch :=
  .ofSeqs .dllmExtend (batch.map (·.rid)) (batch.map (·.prefixIds))
    (batch.map fun r => (r.fillIds blockSize maskId).drop r.kvCommittedLen)

/-! ### The server -/

structure LinearSpecServer where
  alg : LinearSpec
  reqs : List Request := []

namespace LinearSpecServer

/-- The requests of a batch after a round. -/
def processResults (blockSize : Nat) (batch : List Request) (out : RunOutput) : List Request :=
  (batch.zip out.nextTokenIds).zipIdx.map fun p =>
    p.1.1.processResult blockSize ((out.calls.getLast?.map (·.seq p.2)).getD []) p.1.2

open Request

/-- Rounds of the scheduler. The model may draft differently each time; what it verifies is `next`.
-/
inductive Step (next : List TokenId → TokenId) (s : LinearSpecServer) : LinearSpecServer → Prop
  /-- New requests, with a last prompt token to take the seed from. -/
  | prefill {batch : List Request} {model : ModelRunner} {alg : LinearSpec} {out : RunOutput} :
    model.Causal s.alg.maskId next → ((batch ++ s.reqs).map (·.rid)).Nodup →
      (∀ r ∈ batch, r.originInputIds ≠ [] ∧ r.outputIds = []) →
      s.alg.run model (promptBatch batch) = some (alg, out) →
      Step next s {alg, reqs := batch.map cached ++ s.reqs}
  | block {batch rest : List Request} {model : ModelRunner} {alg : LinearSpec} {out : RunOutput} :
    model.Causal s.alg.maskId next → s.reqs.Perm (batch ++ rest) →
      s.alg.run model (blockBatch s.alg.blockSize s.alg.maskId batch) = some (alg, out) →
      Step next s {alg, reqs := processResults s.alg.blockSize batch out ++ rest}
  /-- A request stops, for whatever reason. -/
  | finish {r : Request} {rest : List Request} :
      s.reqs.Perm (r :: rest) → Step next s {s with reqs := rest}

/-! ### The invariant -/

variable {next : List TokenId → TokenId} {s s' : LinearSpecServer}

/-- A request's KV entries come from its tokens, the tokens are greedy up to EOS, and so is a seed.
-/
structure Kept (next : List TokenId → TokenId) (eosId seed : Option TokenId) (r : Request) :
    Prop where
  kv : r.prefixIds = r.tokens
  len : r.kvCommittedLen = r.tokens.length
  greedy : Greedy next r.originInputIds (truncateEos eosId r.outputIds)
  valid : ∀ t, seed = some t → t = next r.tokens
  stored : (∀ eos ∈ eosId, eos ∉ r.outputIds) → seed = some (next r.tokens)

structure Inv (next : List TokenId → TokenId) (s : LinearSpecServer) : Prop where
  nodup : (s.reqs.map (·.rid)).Nodup
  kept : ∀ r ∈ s.reqs, Kept next s.alg.eosTokenId (s.alg.seedTokens r.rid) r

variable {alg : LinearSpec} {r : Request}

lemma Kept.processResult {fed tokens : List TokenId} {seed seed' : Option TokenId}
    (hk : Kept next alg.eosTokenId seed r)
    (hr : LinearSpec.BlockResult alg next r.tokens fed tokens seed seed') :
    Kept next alg.eosTokenId seed' (r.processResult alg.blockSize fed tokens) := by
  have htokens : (r.processResult alg.blockSize fed tokens).tokens = r.tokens ++ tokens :=
    (append_assoc _ _ _).symm
  have hle : tokens.length ≤ alg.blockSize := by
    rw [← hr.length, ← hr.fed, length_take]
    exact min_le_right _ _
  have hlen : (r.processResult alg.blockSize fed tokens).kvCommittedLen =
      (r.tokens ++ tokens).length := by
    simp only [Request.processResult, hk.len, hr.length, length_append]
    split <;> omega
  refine ⟨?_, htokens ▸ hlen, ?_, ?_, ?_⟩
  · rw [htokens, Request.prefixIds, hlen, length_append]
    simp only [Request.processResult]
    rw [hk.kv, take_length_add_append, hr.fed]
  · show Greedy next r.originInputIds (truncateEos alg.eosTokenId (r.outputIds ++ tokens))
    by_cases heos : ∀ eos ∈ alg.eosTokenId, eos ∉ r.outputIds
    · have hout := hk.greedy
      rw [truncateEos_of_not_mem heos] at hout
      obtain ⟨n, hn⟩ := exists_truncateEos alg.eosTokenId tokens
      rw [truncateEos_append_of_not_mem heos, hn]
      exact hout.append ((hr.greedy (hk.stored heos)).take n)
    · obtain ⟨eos, he, hmem⟩ : ∃ eos ∈ alg.eosTokenId, eos ∈ r.outputIds := by simpa using heos
      have hgreedy := hk.greedy
      rw [mem_def.mp he] at hgreedy ⊢
      rw [truncateEos_eq, idxOf_append_of_mem hmem,
        take_append_of_le_length (idxOf_lt_length_of_mem hmem), ← truncateEos_eq]
      exact hgreedy
  · intro t ht
    rw [htokens]
    rw [hr.seed] at ht
    split at ht
    · exact absurd ht nofun
    · exact (some.inj ht).symm
  · intro heos
    rw [htokens, hr.seed, if_neg]
    intro hdone
    obtain ⟨hsome, hlast⟩ := Bool.and_eq_true_iff.mp hdone
    obtain ⟨eos, he⟩ := isSome_iff_exists.mp hsome
    rw [he] at hlast
    exact heos eos he (mem_append_right _ (mem_of_getLast? (of_decide_eq_true hlast)))

variable {batch : List Request}

lemma blockBatch_isBlocks (hlen : ∀ r ∈ batch, r.kvCommittedLen = r.tokens.length) :
    alg.IsBlocks (blockBatch alg.blockSize alg.maskId batch) := by
  have hseqs : (batch.map fun r => (r.fillIds alg.blockSize alg.maskId).drop r.kvCommittedLen) =
      replicate batch.length (replicate alg.blockSize alg.maskId) := by
    refine eq_replicate_iff.mpr ⟨length_map _, fun x hx => ?_⟩
    obtain ⟨r, hr, rfl⟩ := mem_map.mp hx
    rw [hlen r hr, fillIds, drop_left]
  have hsize : (blockBatch alg.blockSize alg.maskId batch).batchSize = batch.length := length_map _
  refine ⟨rfl, ?_, ?_⟩
  · rw [hsize]
    simp [blockBatch, ofSeqs, hseqs]
  · rw [hsize]
    simp [blockBatch, ofSeqs, hseqs]

lemma Inv.perm {reqs : List Request} (hi : Inv next s) (h : s.reqs.Perm reqs) :
    Inv next {s with reqs} :=
  ⟨(h.map _).nodup_iff.mp hi.nodup, fun r hr => hi.kept r (h.mem_iff.mpr hr)⟩

variable {model : ModelRunner} {rest : List Request}

/-- A round gives every request of its batch a result and touches no other seed. -/
lemma Inv.run_block (hi : Inv next {s with reqs := batch ++ rest})
    (hc : model.Causal s.alg.maskId next) : ∃ seeds out,
    s.alg.run model (blockBatch s.alg.blockSize s.alg.maskId batch) =
    some ({s.alg with seedTokens := seeds}, out) ∧
      out.nextTokenIds.length = batch.length ∧
      (∀ rid ∉ batch.map (·.rid), seeds rid = s.alg.seedTokens rid) ∧
      ∀ b r tokens, batch[b]? = some r → out.nextTokenIds[b]? = some tokens →
        LinearSpec.BlockResult s.alg next r.tokens
        ((out.calls.getLast?.map (·.seq b)).getD []) tokens
          (s.alg.seedTokens r.rid) (seeds r.rid) := by
  have hkept : ∀ r ∈ batch, Kept next s.alg.eosTokenId (s.alg.seedTokens r.rid) r :=
    fun r hr => hi.kept r (mem_append_left _ hr)
  have hnd : (batch.map (·.rid)).Nodup := hi.nodup.sublist ((sublist_append_left _ _).map _)
  have hblocks : s.alg.IsBlocks (blockBatch s.alg.blockSize s.alg.maskId batch) :=
    blockBatch_isBlocks fun r hr => (hkept r hr).len
  cases batch with
  | nil =>
    refine ⟨s.alg.seedTokens, {nextTokenIds := [], calls := []}, ?_, rfl,
      fun _ _ => rfl, fun b r tokens hr => ?_⟩
    · simp [run, blockBatch, ofSeqs]
    · cases hr
  | cons r0 batch =>
    obtain ⟨seeds, out, verify, hrun, hlast, hlen, hother, hresult⟩ :=
      run_blocks hblocks hc hnd (Nat.zero_lt_succ _)
    refine ⟨seeds, out, hrun, hlen.trans (length_map _), hother, fun b r tokens hr htokens => ?_⟩
    have hrid : (blockBatch s.alg.blockSize s.alg.maskId (r0 :: batch)).rids[b]? = some r.rid := by
      rw [blockBatch, ofSeqs, getElem?_map, hr]
      rfl
    have hpre : (blockBatch s.alg.blockSize s.alg.maskId (r0 :: batch)).prefixIds.getD b [] =
        r.tokens := by
      rw [blockBatch, ofSeqs, getD_eq_getElem?_getD, getElem?_map, hr]
      exact (hkept r (mem_of_getElem? hr)).kv
    have h := hresult b r.rid tokens hrid htokens
    rw [hpre] at h
    rw [hlast]
    exact h

variable {out : RunOutput}

lemma map_rid_processResults {blockSize : Nat} (hlen : out.nextTokenIds.length = batch.length) :
    (processResults blockSize batch out).map (·.rid) = batch.map (·.rid) := by
  have hrid : ((·.rid) ∘ fun p : (Request × List TokenId) × Nat => p.1.1.processResult blockSize
      ((out.calls.getLast?.map (·.seq p.2)).getD []) p.1.2) = (·.rid) ∘ Prod.fst ∘ Prod.fst := rfl
  rw [processResults, List.map_map, hrid, ← List.map_map, ← List.map_map,
    List.zipIdx_map_fst, map_fst_zip (le_of_eq hlen.symm)]

lemma mem_processResults {blockSize : Nat} {r' : Request}
    (h : r' ∈ processResults blockSize batch out) :
    ∃ (b : Nat) (r : Request) (tokens : List TokenId), batch[b]? = some r ∧
      out.nextTokenIds[b]? = some tokens ∧
      r' = r.processResult blockSize ((out.calls.getLast?.map (·.seq b)).getD []) tokens := by
  obtain ⟨⟨⟨r, tokens⟩, b⟩, hp, rfl⟩ := mem_map.mp h
  have hget := mem_zipIdx_iff_getElem?.mp hp
  obtain ⟨hr, htokens⟩ := getElem?_zip_eq_some.mp hget
  exact ⟨b, r, tokens, hr, htokens, rfl⟩

lemma Inv.block (hi : Inv next s) (hc : model.Causal s.alg.maskId next)
    (hperm : s.reqs.Perm (batch ++ rest))
    (hrun : s.alg.run model (blockBatch s.alg.blockSize s.alg.maskId batch) = some (alg, out)) :
    Inv next {alg, reqs := processResults s.alg.blockSize batch out ++ rest} := by
  have hi := hi.perm hperm
  obtain ⟨seeds, out', hrun', hlen, hother, hresult⟩ := hi.run_block hc
  obtain ⟨rfl, rfl⟩ : alg = {s.alg with seedTokens := seeds} ∧ out = out' := by
    rw [hrun'] at hrun
    exact ⟨congrArg Prod.fst (some.inj hrun).symm, congrArg Prod.snd (some.inj hrun).symm⟩
  refine ⟨?_, ?_⟩
  · rw [map_append, map_rid_processResults hlen, ← map_append]
    exact hi.nodup
  · intro r hr
    rcases mem_append.mp hr with hr | hr
    · obtain ⟨b, r0, tokens, hr0, htokens, rfl⟩ := mem_processResults hr
      have hkept := hi.kept r0 (mem_append_left _ (mem_of_getElem? hr0))
      exact hkept.processResult (hresult b r0 tokens hr0 htokens)
    · have hkept := hi.kept r (mem_append_right _ hr)
      have hnot : r.rid ∉ batch.map (·.rid) := by
        have hnd := hi.nodup
        rw [map_append] at hnd
        exact fun hin => (disjoint_of_nodup_append hnd) hin (mem_map_of_mem hr)
      simp only
      rw [hother _ hnot]
      exact hkept

lemma kept_cached {eosId seed : Option TokenId} (hout : r.outputIds = [])
    (hseed : seed = some (next r.originInputIds)) : Kept next eosId seed r.cached := by
  have htokens : r.cached.tokens = r.originInputIds := by
    show r.originInputIds ++ r.outputIds = _
    rw [hout, append_nil]
  refine ⟨htokens ▸ take_length, htokens ▸ rfl, ?_, fun t ht => ?_, fun _ => htokens ▸ hseed⟩
  · show Greedy next _ (truncateEos _ r.outputIds)
    rw [hout, truncateEos_of_not_mem (fun _ _ => not_mem_nil)]
    exact Greedy.nil
  · rw [htokens]
    exact some.inj (ht.symm.trans hseed)

lemma seed_of_prompt
    (hc : model.Causal alg.maskId next) (hnd : (batch.map (·.rid)).Nodup)
    (hr : r ∈ batch) (hne : r.originInputIds ≠ []) :
    (alg.storeSeeds (promptBatch batch).rids ((promptBatch batch).lastIndices.map
      (model.row (promptBatch batch)))).seedTokens r.rid = some (next r.originInputIds) := by
  obtain ⟨b, hb⟩ := getElem?_of_mem hr
  have hseq : (promptBatch batch).seq b = r.originInputIds :=
    seq_ofSeqs (by rw [getElem?_map, hb]; rfl)
  have hrid : (promptBatch batch).rids[b]? = some r.rid := by
    rw [promptBatch, ofSeqs, getElem?_map, hb]
    rfl
  have hlen : (promptBatch batch).extendSeqLens.getD b 0 = r.originInputIds.length := by
    rw [promptBatch, ofSeqs, getD_eq_getElem?_getD, getElem?_map, getElem?_map, hb]
    rfl
  have hpre : (promptBatch batch).prefixIds.getD b [] = [] := by
    rw [promptBatch, ofSeqs, getD_eq_getElem?_getD, getElem?_map, hb]
    rfl
  have hseed :=
    storeSeeds_of_mem hc rfl hnd hrid (hseq.symm ▸ hlen.symm) (hseq.symm ▸ length_pos_of_ne_nil hne)
  rw [hseq, hpre, nil_append] at hseed
  exact hseed

lemma Inv.prefill (hi : Inv next s) (hc : model.Causal s.alg.maskId next)
    (hnd : ((batch ++ s.reqs).map (·.rid)).Nodup)
    (hnew : ∀ r ∈ batch, r.originInputIds ≠ [] ∧ r.outputIds = [])
    (hrun : s.alg.run model (promptBatch batch) = some (alg, out)) :
    Inv next {alg, reqs := batch.map cached ++ s.reqs} := by
  have hmask : s.alg.maskId ∉ (promptBatch batch).inputIds := fun hin => by
    rw [run_extend_of_mem rfl hin] at hrun
    exact absurd hrun nofun
  have hcached : (batch.map cached).map (·.rid) = batch.map (·.rid) := map_map
  rw [map_append] at hnd
  rw [run_extend_of_not_mem rfl hmask] at hrun
  split at hrun
  · next hempty =>
    obtain rfl : batch = [] := by
      refine eq_nil_iff_forall_not_mem.mpr fun r hr => (hnew r hr).1 ?_
      exact flatten_eq_nil_iff.mp hempty _ (mem_map_of_mem hr)
    obtain rfl : s.alg = alg := congrArg Prod.fst (some.inj hrun)
    exact hi
  · obtain rfl := congrArg Prod.fst (some.inj hrun)
    refine ⟨by rw [map_append, hcached]; exact hnd, forall_mem_append.mpr ⟨?_, fun r hr => ?_⟩⟩
    · refine forall_mem_map.mpr fun r hr => kept_cached (hnew r hr).2 ?_
      exact seed_of_prompt (r := r) hc (nodup_append.mp hnd).1 hr (hnew r hr).1
    · have hnot : r.rid ∉ (promptBatch batch).rids :=
        fun hin => disjoint_of_nodup_append hnd hin (mem_map_of_mem hr)
      simp only [storeSeeds_of_not_mem hnot]
      exact hi.kept r hr

lemma Step.inv (h : Step next s s') (hi : Inv next s) : Inv next s' := by
  cases h with
  | prefill hc hnd hnew hrun => exact hi.prefill hc hnd hnew hrun
  | block hc hperm hrun => exact hi.block hc hperm hrun
  | finish hperm =>
    have hi := hi.perm hperm
    exact ⟨(nodup_cons.mp hi.nodup).2, fun r hr => hi.kept r (mem_cons_of_mem _ hr)⟩

/-! ### Losslessness -/

/-- What holds of a state: `block` says of the next round that it returns, what it returns, and what
its verifying pass was fed. -/
structure Lossless (next : List TokenId → TokenId) (s : LinearSpecServer) : Prop where
  output : ∀ r ∈ s.reqs, truncateEos s.alg.eosTokenId r.outputIds =
    greedy next r.originInputIds (truncateEos s.alg.eosTokenId r.outputIds).length
  seed : ∀ r ∈ s.reqs, ∀ t, s.alg.seedTokens r.rid = some t →
    t = next (r.originInputIds ++ r.outputIds)
  stored : ∀ r ∈ s.reqs, (∀ eos ∈ s.alg.eosTokenId, eos ∉ r.outputIds) →
    s.alg.seedTokens r.rid ≠ none
  block : ∀ batch rest model, s.reqs.Perm (batch ++ rest) →
    ModelRunner.Causal model s.alg.maskId next →
    ∃ alg out, s.alg.run model (blockBatch s.alg.blockSize s.alg.maskId batch) = some (alg, out) ∧
      out.nextTokenIds.length = batch.length ∧ ∀ b tokens, out.nextTokenIds[b]? = some tokens →
        1 ≤ tokens.length ∧ tokens.length ≤ s.alg.blockSize ∧
          ∃ verify, out.calls.getLast? = some verify ∧ (verify.seq b).take tokens.length = tokens

lemma Inv.lossless (hi : Inv next s) : Lossless next s := by
  refine ⟨fun r hr => (hi.kept r hr).greedy.eq_greedy, fun r hr => (hi.kept r hr).valid,
    fun r hr heos => ?_, ?_⟩
  · rw [(hi.kept r hr).stored heos]
    exact some_ne_none _
  · intro batch rest model hperm hc
    obtain ⟨seeds, out, hrun, hlen, _, hresult⟩ := (hi.perm hperm).run_block hc
    refine ⟨_, out, hrun, hlen, fun b tokens htokens => ?_⟩
    have hb : b < batch.length := hlen ▸ (List.getElem?_eq_some_iff.mp htokens).1
    have hr := hresult b batch[b] tokens (getElem?_eq_getElem hb) htokens
    have hle : tokens.length ≤ s.alg.blockSize := by
      rw [← hr.length, ← hr.fed, length_take]
      exact min_le_right _ _
    cases hlast : out.calls.getLast? with
    | none =>
      have hzero := hr.length
      rw [hlast] at hzero
      exact absurd hzero.symm s.alg.blockSize_pos.ne'
    | some verify =>
      have hfed := hr.fed
      rw [hlast] at hfed
      exact ⟨hr.pos, hle, verify, rfl, hfed⟩

/-- **Losslessness over whole runs.** From a fresh algorithm on, every request's output up to EOS is
the greedy continuation of its prompt, for every block size, every draft and every batching. -/
theorem run_lossless {alg : LinearSpec} {history : List LinearSpecServer}
    (hrun : Run (Step next) {alg} history) : ∀ s ∈ history, Lossless next s := by
  have hstart : Inv next {alg} := ⟨nodup_nil, fun r hr => absurd hr not_mem_nil⟩
  intro s hs
  exact (hrun.invariant hstart (fun _ _ hi hstep => hstep.inv hi) s hs).lossless

/-! A model of four tokens that reads the sum of the tokens so far and drafts the same token
everywhere. -/

/-- The request and the offset of a flat position. -/
def locate : List Nat → Nat → Nat × Nat
  | [], p => (0, p)
  | len :: lens, p =>
    if p < len then (0, p) else ((locate lens (p - len)).1 + 1, (locate lens (p - len)).2)

lemma locate_sum {lens : List Nat} {b i : Nat} (h : i < lens.getD b 0) :
    locate lens ((lens.take b).sum + i) = (b, i) := by
  induction lens generalizing b with
  | nil => cases h
  | cons len lens ih =>
    cases b with
    | zero => simp [locate, show i < len by simpa using h]
    | succ b =>
      have hlt : ¬ len + (lens.take b).sum + i < len := by omega
      have hsub : len + (lens.take b).sum + i - len = (lens.take b).sum + i := by omega
      rw [take_succ_cons, sum_cons, locate, if_neg hlt, hsub, ih (by simpa using h)]

def sumNext (ids : List TokenId) : TokenId := ids.sum % 3 + 1

def oneHot (t : TokenId) : List ℚ := (range 4).map fun u => if u = t then 1 else 0

def sumModel (draft : TokenId) : ModelRunner where
  row fb p :=
    if fb.forwardMode = .extend ∨ fb.forwardMode = .dllmExtend ∧ fb.dllmCausalKvUpdate = true then
      let (b, i) := locate fb.extendSeqLens p
      oneHot (sumNext (fb.prefixIds.getD b [] ++ (fb.seq b).take (i + 1)))
    else oneHot draft

lemma causal_sumModel (draft : TokenId) : (sumModel draft).Causal 0 sumNext := by
  refine ⟨fun ids => Nat.succ_ne_zero _, fun fb hmode b _ i hi low hlow => ?_⟩
  have hi : i < fb.extendSeqLens.getD b 0 := lt_of_lt_of_le hi (length_take_le _ _)
  have hread : ∀ t < 3, ∀ low ∈ [(⊥ : Score), ((-1000000000 : ℚ) : Score)],
      argmaxExcept 0 low (oneHot (t + 1)) = t + 1 := by
    decide +kernel
  simp only [sumModel, if_pos hmode, extendStartLoc, locate_sum hi]
  exact hread _ (Nat.mod_lt _ (by decide)) low hlow

lemma step_block (hc : model.Causal s.alg.maskId next) (hperm : s.reqs.Perm (batch ++ rest))
    (h : (s.alg.run model (blockBatch s.alg.blockSize s.alg.maskId batch)).isSome) :
    Step next s
    {alg := (get _ h).1, reqs := processResults s.alg.blockSize batch (get _ h).2 ++ rest} :=
  .block hc hperm (some_get h).symm

/-- A prompt and two blocks: the first draft is accepted in part, the second not at all. -/
theorem run_lossless_two_blocks : ∃ history,
    Run (Step sumNext) {alg := {blockSize := 3, maskId := 0}} history ∧
      history.map (fun s => s.reqs.map (·.outputIds)) = [[[2, 1, 2]], [[2, 1]], [[]], []] ∧
      ∀ s ∈ history, Lossless sumNext s := by
  let s0 : LinearSpecServer := {alg := {blockSize := 3, maskId := 0}}
  let r : Request := {rid := "a", originInputIds := [1, 3]}
  have h1 : (s0.alg.run (sumModel 1) (promptBatch [r])).isSome := by decide +kernel
  let s1 : LinearSpecServer := {alg := (get _ h1).1, reqs := [r].map cached ++ s0.reqs}
  have h2 :
      (s1.alg.run (sumModel 1) (blockBatch s1.alg.blockSize s1.alg.maskId s1.reqs)).isSome := by
    decide +kernel +revert
  let s2 : LinearSpecServer :=
    {alg := (get _ h2).1, reqs := processResults s1.alg.blockSize s1.reqs (get _ h2).2 ++ []}
  have h3 :
      (s2.alg.run (sumModel 3) (blockBatch s2.alg.blockSize s2.alg.maskId s2.reqs)).isSome := by
    decide +kernel +revert
  let s3 : LinearSpecServer :=
    {alg := (get _ h3).1, reqs := processResults s2.alg.blockSize s2.reqs (get _ h3).2 ++ []}
  have hout : [s3, s2, s1, s0].map (fun s => s.reqs.map (·.outputIds)) =
      [[[2, 1, 2]], [[2, 1]], [[]], []] := by
    decide +kernel +revert
  have hmask1 : s1.alg.maskId = 0 := by decide +kernel +revert
  have hmask2 : s2.alg.maskId = 0 := by decide +kernel +revert
  have hc : ∀ (alg : LinearSpec) (draft : TokenId), alg.maskId = 0 →
      (sumModel draft).Causal alg.maskId sumNext :=
    fun alg draft h => h.symm ▸ causal_sumModel draft
  have hnew : ∀ r' ∈ [r], r'.originInputIds ≠ [] ∧ r'.outputIds = [] := by decide
  have hperm : ∀ s : LinearSpecServer, s.reqs.Perm (s.reqs ++ []) :=
    fun s => .of_eq (append_nil _).symm
  have step1 : Step _ s0 s1 := .prefill (hc s0.alg 1 rfl) (by decide) hnew (some_get h1).symm
  have step2 := step_block (s := s1) (hc s1.alg 1 hmask1) (hperm s1) h2
  have step3 := step_block (s := s2) (hc s2.alg 3 hmask2) (hperm s2) h3
  have hrun := ((Run.nil.cons step1).cons step2).cons step3
  exact ⟨[s3, s2, s1, s0], hrun, hout, run_lossless hrun⟩

end LinearSpecServer

end Sglang.Dllm
