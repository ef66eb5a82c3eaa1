import Sglang.Dllm.Forward
import Sglang.Lib.Speculative

/-! The `LinearSpec` algorithm: a diffusion pass drafts a block, a causal pass verifies it.

The first token of a block is the seed, which the previous block (or the prefill) left for the
request. A bidirectional pass drafts the rest, a causal pass reads at every position the token that
follows, and the draft is accepted as long as it agrees with what was read one position earlier. -/
namespace Sglang.Dllm

open List Option Function List
open Prefix Speculative ForwardBatch

structure LinearSpec where
  blockSize : Nat
  maskId : TokenId
  eosTokenId : Option TokenId := none
  seedTokens : Rid → Option TokenId := fun _ => none
  blockSize_pos : 0 < blockSize := by decide

namespace LinearSpec

/-- Assignments to the seed dictionary, in order; `none` removes a key. -/
def assign (seeds : Rid → Option TokenId) (entries : List (Rid × Option TokenId)) :
    Rid → Option TokenId :=
  entries.foldl (fun seeds p => update seeds p.1 p.2) seeds

section
variable (self : LinearSpec)

/-- The seed of the next block, from the scores of the last prompt token. -/
def storeSeeds (rids : List Rid) (logits : List (List ℚ)) : LinearSpec :=
  {self with seedTokens := assign self.seedTokens (rids.zip (logits.map fun l => some (argmaxExcept self.maskId ⊥ l)))}

/-- A stored seed takes the place of the first mask of its block. -/
def injectSeeds (rids : List Rid) (starts : List Nat) (ids : List TokenId) : List TokenId :=
  (rids.zip starts).zipIdx.foldl
    (fun ids p => match self.seedTokens p.1.1 with
      | some seed => ids.set (p.2 * self.blockSize + p.1.2) seed
      | none => ids) ids

/-- Masks are replaced by draft tokens. -/
def fillMasks (maskId : TokenId) (ids draft : List TokenId) : List TokenId :=
  zipWith (fun id d => if id = maskId then d else id) ids draft

/-- Elementwise comparison; a tensor of one element is compared with every element. -/
def tensorEq : List TokenId → List TokenId → Option (List Bool)
  | [a], bs => some (bs.map (a == ·))
  | as, [b] => some (as.map (· == b))
  | as, bs => if as.length = bs.length then some (zipWith (· == ·) as bs) else none

/-- `matches.cumprod(0).sum()`: how many hold before the first that does not. -/
def leading (hits : List Bool) : Nat := (hits.takeWhile id).length

/-- Up to and including the first EOS. -/
def truncateEos (eosId : Option TokenId) (tokens : List TokenId) : List TokenId :=
  match eosId with
  | some eos => if eos ∈ tokens then tokens.take (tokens.idxOf eos + 1) else tokens
  | none => tokens

/-- How many drafted tokens agree with what was read one position earlier. -/
def countAccepted (ids arAll : List TokenId) (offset genLen : Nat) : Option Nat :=
  if genLen > 1 then
    (tensorEq (slice ids (offset + 1) (offset + genLen))
      (slice arAll offset (offset + genLen - 1))).map leading
  else some 0

/-- What was read at a position of the block, or at its last one. -/
def readSeed (arAll : List TokenId) (pos stop : Nat) : Option TokenId :=
  if pos < stop then arAll[pos]? else arAll[stop - 1]?

/-- The tokens of one request and its next seed. -/
def accept (ids arAll : List TokenId) (b genStart : Nat) : Option (List TokenId × TokenId) := do
  let bStart := b * self.blockSize
  let genLen := self.blockSize - genStart
  let offset := bStart + genStart
  let c ← countAccepted ids arAll offset genLen
  let seedTensor := slice ids offset (offset + 1)
  let outputTokens := if c > 0 then seedTensor ++ slice arAll offset (offset + c) else seedTensor
  let seed ← readSeed arAll (offset + c) (bStart + self.blockSize)
  some (truncateEos self.eosTokenId outputTokens, seed)

/-- Seeds for the next blocks; a request that hit EOS keeps none. -/
def nextSeeds (rids : List Rid) (results : List (List TokenId × TokenId)) : Rid → Option TokenId :=
  let seeds := assign self.seedTokens (rids.zip (results.map fun r => some r.2))
  let done :=
    (rids.zip results).filter fun p => self.eosTokenId.isSome && p.2.1.getLast? = self.eosTokenId
  assign seeds (done.map fun p => (p.1, none))

def run (model : ModelRunner) (fb : ForwardBatch) : Option (LinearSpec × RunOutput) :=
  if self.maskId ∉ fb.inputIds then
    if fb.inputIds = [] then some (self, {nextTokenIds := [], calls := []})
    else
      let self := match (model.forward fb).nextTokenLogits with
        | some logits => self.storeSeeds fb.rids logits
        | none => self
      some (self, {nextTokenIds := [], calls := [fb]})
  else do
    let starts := startList self.maskId self.blockSize fb.batchSize fb.inputIds
    let draft := {fb with inputIds := self.injectSeeds fb.rids starts fb.inputIds}
    let draftLogits ← (model.forward draft).fullLogits
    let draftAll := draftLogits.map (argmaxExcept self.maskId (-1000000000 : ℚ))
    let verify :=
      {draft with inputIds := fillMasks self.maskId draft.inputIds draftAll, dllmCausalKvUpdate := true}
    let verifyLogits ← (model.forward verify).fullLogits
    let arAll := verifyLogits.map (argmaxExcept self.maskId (-1000000000 : ℚ))
    let results ← starts.zipIdx.mapM fun p => self.accept verify.inputIds arAll p.2 p.1
    some ({self with seedTokens := self.nextSeeds fb.rids results},
      {nextTokenIds := results.map (·.1), calls := [draft, verify]})

end

/-! ### Truncation -/

lemma truncateEos_eq (eos : TokenId) (l : List TokenId) :
    truncateEos (some eos) l = l.take (l.idxOf eos + 1) := by
  simp only [truncateEos]
  split
  · rfl
  · next h => rw [idxOf_eq_length h, take_of_length_le (Nat.le_succ _)]

lemma exists_truncateEos (eosId : Option TokenId) (l : List TokenId) :
    ∃ n, truncateEos eosId l = l.take n := by
  cases eosId with
  | none => exact ⟨l.length, take_length.symm⟩
  | some eos => exact ⟨_, truncateEos_eq eos l⟩

variable {l : List TokenId} {eosId : Option TokenId}

lemma length_truncateEos_pos (h : l ≠ []) : 0 < (truncateEos eosId l).length := by
  have hl := length_pos_of_ne_nil h
  cases eosId with
  | none => exact hl
  | some eos =>
    rw [truncateEos_eq, length_take]
    omega

lemma truncateEos_of_not_mem (h : ∀ eos ∈ eosId, eos ∉ l) : truncateEos eosId l = l := by
  cases eosId with
  | none => rfl
  | some eos => exact if_neg (h eos rfl)

lemma truncateEos_append_of_not_mem (h : ∀ eos ∈ eosId, eos ∉ l)
    (l' : List TokenId) : truncateEos eosId (l ++ l') = l ++ truncateEos eosId l' := by
  cases eosId with
  | none => rfl
  | some eos =>
    rw [truncateEos_eq, truncateEos_eq, idxOf_append_of_notMem (h eos rfl), take_append, add_assoc,
      Nat.add_sub_cancel_left, take_of_length_le (Nat.le_add_right _ _)]

/-- The truncated list ends with EOS, or nothing was cut off. -/
lemma getLast?_truncateEos {eos : TokenId} (h : eos ∈ l) :
    (truncateEos (some eos) l).getLast? = some eos := by
  have hlt := idxOf_lt_length_of_mem h
  rw [truncateEos_eq, getLast?_take, if_neg (Nat.succ_ne_zero _), Nat.add_sub_cancel,
    getElem?_eq_getElem hlt, getElem_idxOf hlt]
  rfl

/-! ### The parts of a run -/

variable {self : LinearSpec} {rid : Rid} {entries : List (Rid × Option TokenId)}
  {seeds : Rid → Option TokenId}

lemma assign_of_not_mem (h : rid ∉ entries.map (·.1)) : assign seeds entries rid = seeds rid := by
  induction entries generalizing seeds with
  | nil => rfl
  | cons e entries ih =>
    obtain ⟨hne, h⟩ := not_or.mp fun hm => h (mem_cons.mpr hm)
    exact (ih h).trans (update_of_ne hne _ _)

lemma assign_of_mem {e : Rid × Option TokenId}
    (hnd : (entries.map (·.1)).Nodup) (he : e ∈ entries) : assign seeds entries e.1 = e.2 := by
  induction entries generalizing seeds with
  | nil => exact absurd he not_mem_nil
  | cons e' entries ih =>
    obtain ⟨hnot, hnd⟩ := nodup_cons.mp (map_cons ▸ hnd)
    rcases mem_cons.mp he with rfl | he
    · exact (assign_of_not_mem hnot).trans (update_self _ _ _)
    · exact ih hnd he

/-- A block with the request's seed at its head. -/
def seeded (self : LinearSpec) (rid : Rid) (x : List TokenId) : List TokenId :=
  match self.seedTokens rid with
  | some seed => x.set 0 seed
  | none => x

@[simp] lemma length_seeded (self : LinearSpec) (rid : Rid) (x : List TokenId) :
    (self.seeded rid x).length = x.length := by
  unfold seeded
  split <;> simp

variable {rids : List Rid}

lemma injectSeeds_flatten {blocks : List (List TokenId)}
    (hblocks : ∀ x ∈ blocks, x.length = self.blockSize) (hlen : blocks.length = rids.length) :
    self.injectSeeds rids (replicate rids.length 0) blocks.flatten =
    (zipWith self.seeded rids blocks).flatten := by
  -- the blocks before the k-th are done
  have hgen : ∀ (rids : List Rid) (blocks : List (List TokenId)) (k : Nat) (done : List TokenId),
      (∀ x ∈ blocks, x.length = self.blockSize) → blocks.length = rids.length →
      done.length = k * self.blockSize →
      ((rids.zip (replicate rids.length 0)).zipIdx k).foldl
        (fun ids p => match self.seedTokens p.1.1 with
          | some seed => ids.set (p.2 * self.blockSize + p.1.2) seed
          | none => ids) (done ++ blocks.flatten) =
        done ++ (zipWith self.seeded rids blocks).flatten := by
    intro rids
    induction rids with
    | nil =>
      intro blocks k done _ hlen _
      rw [length_eq_zero_iff.mp hlen]
      rfl
    | cons rid rids ih =>
      intro blocks k done hblocks hlen hdone
      obtain ⟨x, blocks, rfl⟩ := exists_cons_of_length_eq_add_one hlen
      obtain ⟨hx, hblocks⟩ := forall_mem_cons.mp hblocks
      have hx0 : 0 < x.length := hx ▸ self.blockSize_pos
      have hset : ∀ seed, (done ++ (x ++ blocks.flatten)).set (k * self.blockSize + 0) seed =
          (done ++ x.set 0 seed) ++ blocks.flatten := by
        intro seed
        rw [add_zero, ← hdone, set_append_right _ _ (le_refl _), Nat.sub_self,
          set_append_left _ _ hx0, append_assoc]
      have hstep : ∀ y : List TokenId, y.length = self.blockSize →
          (done ++ y).length = (k + 1) * self.blockSize := by
        intro y hy
        rw [length_append, hdone, hy, Nat.succ_mul]
      simp only [length_cons, replicate_succ, zip_cons_cons, zipIdx_cons,
        foldl_cons, flatten_cons, zipWith_cons_cons, seeded]
      cases self.seedTokens rid with
      | none =>
        rw [← append_assoc, ih blocks (k + 1) (done ++ x) hblocks (Nat.succ.inj hlen) (hstep x hx),
          append_assoc]
      | some seed =>
        simp only
        rw [hset, ih blocks (k + 1) _ hblocks (Nat.succ.inj hlen) (hstep _ ((length_set).trans hx)),
          append_assoc]
  exact hgen rids blocks 0 [] hblocks hlen (zero_mul _).symm

lemma tensorEq_of_length_eq {as bs : List TokenId} (h : as.length = bs.length) :
    tensorEq as bs = some (zipWith (· == ·) as bs) := by
  unfold tensorEq
  split
  · next a bs =>
    obtain ⟨b, rfl⟩ := length_eq_one_iff.mp h.symm
    rfl
  · next as b _ =>
    obtain ⟨a, rfl⟩ := length_eq_one_iff.mp h
    rfl
  · exact if_pos h

variable {rest ar : List TokenId} {a : TokenId}

lemma leading_block (hlen : rest.length ≤ ar.length) :
    (tensorEq rest (ar.take rest.length)).map leading = some (accepted (a :: rest) ar) := by
  rw [tensorEq_of_length_eq (length_take_of_le hlen).symm, map_some, leading, length_takeWhile_beq,
    common_take_right rest ar _ (le_refl _)]
  rfl

/-- A verified block: what is returned is a part of the block, and the seed is what follows the
accepted part. -/
lemma accept_eq {ids arAll : List TokenId} {b : Nat}
    (hids : block self.blockSize ids b = a :: rest) (har : block self.blockSize arAll b = ar)
    (hlen : (a :: rest).length = self.blockSize) (hlenar : ar.length = self.blockSize) :
    self.accept ids arAll b 0 = (ar[accepted (a :: rest) ar]?).map fun seed =>
      (truncateEos self.eosTokenId ((a :: rest).take (accepted (a :: rest) ar + 1)), seed) := by
  have hbs : rest.length + 1 = self.blockSize := hlen
  have hc := accepted_lt a rest ar
  rw [hlen] at hc
  -- the slices of the flat lists are parts of the block
  have hslice : ∀ (l : List TokenId) (i j : Nat), j ≤ self.blockSize →
      slice l (b * self.blockSize + i) (b * self.blockSize + j) = slice
      (block self.blockSize l b) i j :=
    fun l i j => slice_offset l (b * self.blockSize) i j self.blockSize
  have hrest : slice ids (b * self.blockSize + 1) (b * self.blockSize + self.blockSize) = rest := by
    rw [hslice _ _ _ (le_refl _), hids, slice, drop_one, tail_cons, ← hbs,
      Nat.add_sub_cancel, take_length]
  have hhead : slice ids (b * self.blockSize) (b * self.blockSize + 1) = [a] := by
    rw [← add_zero (b * self.blockSize), add_assoc, zero_add, hslice ids 0 1 self.blockSize_pos,
      hids]
    rfl
  have hread : ∀ n ≤ self.blockSize, slice arAll (b * self.blockSize) (b * self.blockSize + n) =
      ar.take n := by
    intro n hn
    have h := hslice arAll 0 n hn
    rw [add_zero] at h
    rw [h, har, slice, drop_zero, Nat.sub_zero]
  have hpred : b * self.blockSize + self.blockSize - 1 = b * self.blockSize + rest.length := by
    omega
  have hcount : countAccepted ids arAll (b * self.blockSize) self.blockSize =
      some (accepted (a :: rest) ar) := by
    rw [countAccepted, hrest, hpred, hread _ (show rest.length ≤ self.blockSize by omega)]
    split
    · exact leading_block (by omega)
    · have hnil : rest = [] := eq_nil_of_length_eq_zero (by omega)
      rw [hnil]
      rfl
  have hout :
    (if accepted (a :: rest) ar > 0 then [a] ++ ar.take (accepted (a :: rest) ar) else [a]) =
      (a :: rest).take (accepted (a :: rest) ar + 1) := by
    rw [← accepted_eq]
    split
    · rfl
    · next h => rw [Nat.eq_zero_of_not_pos h, take_zero]
  have hseed : readSeed arAll (b * self.blockSize + accepted (a :: rest) ar)
    (b * self.blockSize + self.blockSize) =
      ar[accepted (a :: rest) ar]? := by
    rw [readSeed, if_pos (Nat.add_lt_add_left hc _), ← getElem?_block hc, har]
  simp only [accept, Nat.sub_zero, add_zero, hcount, hhead, bind_eq_bind,
    bind_some, hread _ (le_of_lt hc), hout, hseed]
  cases ar[accepted (a :: rest) ar]? <;> rfl

/-! ### A run on blocks of masks -/

/-- A batch of a denoising round: each request brings a whole block of masks. -/
structure IsBlocks (alg : LinearSpec) (fb : ForwardBatch) : Prop where
  mode : fb.forwardMode = .dllmExtend
  lens : fb.extendSeqLens = replicate fb.batchSize alg.blockSize
  ids : fb.inputIds = replicate (fb.batchSize * alg.blockSize) alg.maskId

/-- What a round does for one request: `fed` is what the verifying pass saw of its block. -/
structure BlockResult (alg : LinearSpec) (next : List TokenId → TokenId)
    (pre fed tokens : List TokenId) (seed seed' : Option TokenId) : Prop where
  length : fed.length = alg.blockSize
  pos : 0 < tokens.length
  fed : fed.take tokens.length = tokens
  greedy : seed = some (next pre) → Greedy next pre tokens
  eos : ∀ eos ∈ alg.eosTokenId, eos ∈ tokens → tokens.getLast? = some eos
  seed : seed' = if alg.eosTokenId.isSome && tokens.getLast? = alg.eosTokenId then none
    else some (next (pre ++ tokens))

variable {model : ModelRunner} {next : List TokenId → TokenId} {fb : ForwardBatch} {b : Nat}

lemma verified_block (hc : model.Causal self.maskId next) (hmode : fb.forwardMode = .dllmExtend)
    (hflag : fb.dllmCausalKvUpdate = true)
    (hlens : fb.extendSeqLens = replicate fb.batchSize self.blockSize)
    (hids : fb.inputIds.length = fb.batchSize * self.blockSize) (hb : b < fb.batchSize) :
    Verified next (fb.prefixIds.getD b []) (block self.blockSize fb.inputIds b)
      (block self.blockSize (((range fb.inputIds.length).map (model.row fb)).map
        (argmaxExcept self.maskId (-1000000000 : ℚ))) b) := by
  have hlen := length_block hids hb
  have hlen' : (block self.blockSize (((range fb.inputIds.length).map (model.row fb)).map
      (argmaxExcept self.maskId (-1000000000 : ℚ))) b).length = self.blockSize :=
    length_block (by simpa using hids) hb
  refine ⟨hlen'.trans hlen.symm, fun i hi => ?_⟩
  have hi : i < self.blockSize := hlen' ▸ hi
  have hlt : b * self.blockSize + i < fb.inputIds.length := by
    have hle : b * self.blockSize + self.blockSize ≤ fb.batchSize * self.blockSize :=
      Nat.succ_mul b self.blockSize ▸ Nat.mul_le_mul_right _ hb
    omega
  have hread :=
    hc.read fb (.inr ⟨hmode, hflag⟩) b hb i (by rw [seq_blocks hlens hb, hlen]; exact hi)
    _ (mem_cons_of_mem _ mem_cons_self)
  rw [seq_blocks hlens hb, extendStartLoc_blocks hlens (le_of_lt hb)] at hread
  rw [← hread, ← Option.some.injEq, ← List.getElem?_eq_getElem, getElem?_block hi,
    List.map_map, getElem?_map, getElem?_range hlt]
  rfl

lemma mapM_eq_some_map {α β : Type*} {f : α → Option β} {g : α → β} {l : List α}
    (h : ∀ x ∈ l, f x = some (g x)) :
    l.mapM f = some (l.map g) := by
  induction l with
  | nil => rfl
  | cons x l ih =>
    obtain ⟨hx, h⟩ := forall_mem_cons.mp h
    rw [mapM_cons, hx, ih h]
    rfl

/-- The input of the drafting pass: masks, and the stored seeds at the heads of their blocks. -/
lemma injectSeeds_masks (hfb : self.IsBlocks fb) : ∃ ids,
    self.injectSeeds fb.rids (replicate fb.batchSize 0) fb.inputIds = ids ∧
    ids.length = fb.batchSize * self.blockSize ∧
      ∀ b rid seed, fb.rids[b]? = some rid → self.seedTokens rid = some seed →
      ids[b * self.blockSize]? = some seed := by
  let masks := replicate fb.batchSize (replicate self.blockSize self.maskId)
  have hmasks : ∀ x ∈ masks, x.length = self.blockSize := by
    intro x hx
    rw [eq_of_mem_replicate hx, length_replicate]
  have hflat : fb.inputIds = masks.flatten := hfb.ids.trans flatten_replicate_replicate.symm
  have hlens : ∀ x ∈ zipWith self.seeded fb.rids masks, x.length = self.blockSize := by
    intro x hx
    obtain ⟨k, hk, rfl⟩ := mem_iff_getElem.mp hx
    rw [getElem_zipWith, length_seeded]
    exact hmasks _ (getElem_mem _)
  have hcount : (zipWith self.seeded fb.rids masks).length = fb.batchSize := by
    rw [length_zipWith, length_replicate]
    exact Nat.min_self _
  refine ⟨_, hflat ▸ injectSeeds_flatten hmasks length_replicate, ?_, ?_⟩
  · rw [length_flatten_blocks hlens, hcount]
  · intro b rid seed hrid hseed
    obtain ⟨hb, rfl⟩ := List.getElem?_eq_some_iff.mp hrid
    rw [← add_zero (b * self.blockSize), ← getElem?_block self.blockSize_pos,
      block_flatten hlens (hcount.symm ▸ hb), getElem_zipWith, seeded, hseed]
    exact getElem?_set_self (hmasks _ (getElem_mem _) ▸ self.blockSize_pos)

variable {results : List (List TokenId × TokenId)}

lemma nextSeeds_of_mem {result : List TokenId × TokenId} (hnd : rids.Nodup)
    (hlen : results.length = rids.length) (hrid : rids[b]? = some rid)
    (hresult : results[b]? = some result) :
    self.nextSeeds rids results rid =
      if self.eosTokenId.isSome && result.1.getLast? = self.eosTokenId then none
      else some result.2 := by
  have hmem : (rid, result) ∈ rids.zip results :=
    mem_of_getElem? (by rw [getElem?_zip_eq_some]; exact ⟨hrid, hresult⟩)
  have hkeys : (rids.zip results).map (·.1) = rids := map_fst_zip (le_of_eq hlen.symm)
  have hkeys' : (rids.zip (results.map fun r => some r.2)).map (·.1) = rids :=
    map_fst_zip (by rw [length_map, hlen])
  have hset : assign self.seedTokens (rids.zip (results.map fun r => some r.2)) rid =
      some result.2 := by
    refine assign_of_mem (e := (rid, some result.2)) (hkeys'.symm ▸ hnd) ?_
    rw [zip_map_right]
    exact mem_map_of_mem hmem
  split
  · next hdone =>
    refine assign_of_mem (e := (rid, none)) ?_
      (mem_map_of_mem (f := fun p => (p.1, none)) (mem_filter.mpr ⟨hmem, hdone⟩))
    rw [List.map_map]
    exact (hkeys.symm ▸ hnd).sublist (filter_sublist.map _)
  · next hdone =>
    refine (assign_of_not_mem fun hin => ?_).trans hset
    rw [List.map_map] at hin
    obtain ⟨p, hp, hpr⟩ := mem_map.mp hin
    obtain ⟨hpz, hpd⟩ := mem_filter.mp hp
    have heq : p = (rid, result) := inj_on_of_nodup_map (hkeys.symm ▸ hnd) hpz hmem hpr
    rw [heq] at hpd
    exact hdone hpd

lemma nextSeeds_of_not_mem (h : rid ∉ rids) :
    self.nextSeeds rids results rid = self.seedTokens rid := by
  unfold nextSeeds
  rw [assign_of_not_mem, assign_of_not_mem]
  · intro hin
    obtain ⟨p, hp, rfl⟩ := mem_map.mp hin
    exact h (of_mem_zip hp).1
  · intro hin
    rw [List.map_map] at hin
    obtain ⟨p, hp, rfl⟩ := mem_map.mp hin
    exact h (of_mem_zip (mem_filter.mp hp).1).1

lemma blockResult_of_verified {pre : List TokenId} {seed : Option TokenId}
    (hlen : (a :: rest).length = self.blockSize) (hv : Verified next pre (a :: rest) ar)
    (hseed : seed = some (next pre) → a = next pre) :
    BlockResult self next pre (a :: rest)
    (truncateEos self.eosTokenId ((a :: rest).take (accepted (a :: rest) ar + 1))) seed
      (if self.eosTokenId.isSome &&
          (truncateEos self.eosTokenId ((a :: rest).take (accepted (a :: rest) ar + 1))).getLast? =
          self.eosTokenId
        then none else some (next (pre ++ (a :: rest).take (accepted (a :: rest) ar + 1)))) := by
  obtain ⟨n, hn⟩ :=
    exists_truncateEos self.eosTokenId ((a :: rest).take (accepted (a :: rest) ar + 1))
  refine ⟨hlen, length_truncateEos_pos (by simp), ?_, fun h => ?_, ?_, ?_⟩
  · rw [hn, take_take, length_take, take_eq_take_iff]
    omega
  · rw [hn]
    exact (hv.greedy_accepted (hseed h)).take n
  · intro eos heos hmem
    rw [heos]
    refine getLast?_truncateEos (mem_of_mem_take (hn ▸ hmem))
  · split
    · rfl
    · next hdone =>
      -- no EOS was accepted, so nothing was cut off
      rw [truncateEos_of_not_mem]
      intro eos heos hmem
      rw [mem_def.mp heos, getLast?_truncateEos hmem] at hdone
      exact hdone (by simp)

/-- A denoising round on blocks of masks gives every request a result. -/
lemma run_blocks (hfb : self.IsBlocks fb) (hc : model.Causal self.maskId next) (hnd : fb.rids.Nodup)
    (hpos : 0 < fb.batchSize) : ∃ seeds out verify,
    self.run model fb = some ({self with seedTokens := seeds}, out) ∧
    out.calls.getLast? = some verify ∧
      out.nextTokenIds.length = fb.batchSize ∧ (∀ rid ∉ fb.rids, seeds rid = self.seedTokens rid) ∧
      ∀ b rid tokens, fb.rids[b]? = some rid → out.nextTokenIds[b]? = some tokens →
        BlockResult self next (fb.prefixIds.getD b []) (verify.seq b) tokens
        (self.seedTokens rid) (seeds rid) := by
  obtain ⟨ids, hids, hlen, hseeds⟩ := injectSeeds_masks hfb
  let draft : ForwardBatch := {fb with inputIds := ids}
  let draftAll :=
    ((range ids.length).map (model.row draft)).map (argmaxExcept self.maskId (-1000000000 : ℚ))
  let verify : ForwardBatch :=
    {fb with inputIds := fillMasks self.maskId ids draftAll, dllmCausalKvUpdate := true}
  let arAll :=
    ((range verify.inputIds.length).map (model.row verify)).map
    (argmaxExcept self.maskId (-1000000000 : ℚ))
  have hlenv : verify.inputIds.length = verify.batchSize * self.blockSize := by
    show (zipWith _ ids draftAll).length = _
    rw [length_zipWith, length_map, length_map, length_range, Nat.min_self, hlen]
    rfl
  have hblock : ∀ b < fb.batchSize, ∃ a rest, block self.blockSize verify.inputIds b = a :: rest ∧
      (a :: rest).length = self.blockSize := by
    intro b hb
    have hl := length_block hlenv hb
    obtain ⟨a, rest, hcons⟩ := exists_cons_of_length_pos (hl.symm ▸ self.blockSize_pos)
    exact ⟨a, rest, hcons, hcons ▸ hl⟩
  have hverified : ∀ b < fb.batchSize, Verified next (fb.prefixIds.getD b [])
    (block self.blockSize verify.inputIds b)
      (block self.blockSize arAll b) :=
    fun b hb => @verified_block self model next verify b hc hfb.mode rfl hfb.lens hlenv hb
  let result (b : Nat) : List TokenId × TokenId :=
    let fed := block self.blockSize verify.inputIds b
    let kept := fed.take (accepted fed (block self.blockSize arAll b) + 1)
    (truncateEos self.eosTokenId kept, next (fb.prefixIds.getD b [] ++ kept))
  have haccept :
    (replicate fb.batchSize 0).zipIdx.mapM (fun p => self.accept verify.inputIds arAll p.2 p.1) =
      some ((range fb.batchSize).map result) := by
    rw [mapM_eq_some_map (g := fun p => result p.2)]
    · rw [← Function.comp_def result, ← List.map_map, List.zipIdx_map_snd,
        List.length_replicate, List.range_eq_range']
    · intro p hp
      obtain ⟨hlt, hzero⟩ := mem_zipIdx' hp
      rw [getElem_replicate] at hzero
      rw [length_replicate] at hlt
      obtain ⟨a, rest, hcons, hl⟩ := hblock p.2 hlt
      have hv := hverified p.2 hlt
      simp only [result, hzero, hcons]
      rw [hcons] at hv
      rw [accept_eq hcons rfl hl (hv.length.trans hl), hv.getElem?_accepted]
      rfl
  have hrun :
    self.run model fb =
    some ({self with seedTokens := self.nextSeeds fb.rids ((range fb.batchSize).map result)},
      {nextTokenIds := ((range fb.batchSize).map result).map (·.1), calls := [draft, verify]}) := by
    have hmem : self.maskId ∈ fb.inputIds := by
      rw [hfb.ids]
      exact mem_replicate.mpr ⟨(Nat.mul_pos hpos self.blockSize_pos).ne', rfl⟩
    have hstarts : startList self.maskId self.blockSize fb.batchSize fb.inputIds =
        replicate fb.batchSize 0 := by
      rw [hfb.ids]
      exact startList_masks _ _ _
    have hfull : ∀ v : ForwardBatch, v.forwardMode = .dllmExtend →
        (model.forward v).fullLogits = some ((range v.inputIds.length).map (model.row v)) := by
      intro v hv
      rw [ModelRunner.forward, hv]
    rw [run, if_neg (not_not.mpr hmem)]
    simp only [hstarts, hids]
    rw [hfull draft hfb.mode]
    simp only [bind_eq_bind, bind_some]
    rw [hfull verify hfb.mode]
    simp only [bind_some]
    rw [haccept]
    rfl
  have hseed : ∀ b rid, fb.rids[b]? = some rid →
    ∀ a rest, block self.blockSize verify.inputIds b = a :: rest →
      self.seedTokens rid = some (next (fb.prefixIds.getD b [])) →
      a = next (fb.prefixIds.getD b []) := by
    intro b rid hrid a rest hcons hstored
    have hhead : verify.inputIds[b * self.blockSize]? = some a := by
      rw [← add_zero (b * self.blockSize), ← getElem?_block self.blockSize_pos, hcons]
      rfl
    have hids := hseeds b rid _ hrid hstored
    have hdraft : ∃ d, draftAll[b * self.blockSize]? = some d := by
      refine ⟨_, getElem?_eq_getElem ?_⟩
      rw [length_map, length_map, length_range]
      exact (List.getElem?_eq_some_iff.mp hids).1
    obtain ⟨d, hd⟩ := hdraft
    have hfill : verify.inputIds[b * self.blockSize]? = _ := getElem?_zipWith
    rw [hids, hd, hhead] at hfill
    simpa [hc.ne_mask] using hfill
  refine ⟨_, _, verify, hrun, rfl, by simp, fun rid hrid => nextSeeds_of_not_mem hrid, ?_⟩
  intro b rid tokens hrid htokens
  have hb : b < fb.batchSize := (List.getElem?_eq_some_iff.mp hrid).1
  have hresult : ((List.range fb.batchSize).map result)[b]? = some (result b) := by
    rw [getElem?_map, getElem?_range hb]
    rfl
  rw [getElem?_map, hresult, map_some, some.injEq] at htokens
  subst htokens
  rw [nextSeeds_of_mem hnd (by simp [batchSize]) hrid hresult,
    @seq_blocks verify self.blockSize b hfb.lens hb]
  obtain ⟨a, rest, hcons, hl⟩ := hblock b hb
  have hv := hverified b hb
  simp only [result, hcons]
  exact blockResult_of_verified hl (hcons ▸ hv) (hseed b rid hrid a rest hcons)

/-! ### A run on prompts -/

/-- Caching prompts gives no scores of single positions, and a drafting pass fails without. -/
lemma run_extend_of_mem (hmode : fb.forwardMode = .extend) (hmask : self.maskId ∈ fb.inputIds) :
    self.run model fb = none := by
  rw [run, if_neg (not_not.mpr hmask)]
  simp only [ModelRunner.forward, hmode]
  rfl

lemma run_extend_of_not_mem (hmode : fb.forwardMode = .extend) (hmask : self.maskId ∉ fb.inputIds) :
    self.run model fb = if fb.inputIds = [] then some (self, {nextTokenIds := [], calls := []})
      else some (self.storeSeeds fb.rids (fb.lastIndices.map (model.row fb)),
        {nextTokenIds := [], calls := [fb]}) := by
  rw [run, if_pos hmask]
  simp only [ModelRunner.forward, hmode]

lemma storeSeeds_of_mem (hc : model.Causal self.maskId next) (hmode : fb.forwardMode = .extend)
    (hnd : fb.rids.Nodup) (hrid : fb.rids[b]? = some rid)
    (hlen : (fb.seq b).length = fb.extendSeqLens.getD b 0) (hpos : 0 < (fb.seq b).length) :
    (self.storeSeeds fb.rids (fb.lastIndices.map (model.row fb))).seedTokens rid =
      some (next (fb.prefixIds.getD b [] ++ fb.seq b)) := by
  have hb : b < fb.batchSize := (List.getElem?_eq_some_iff.mp hrid).1
  have hlast : fb.extendStartLoc (b + 1) - 1 = fb.extendStartLoc b + ((fb.seq b).length - 1) := by
    have hlens : b < fb.extendSeqLens.length := by
      by_contra hge
      rw [hlen, getD_eq_default _ _ (Nat.le_of_not_lt hge)] at hpos
      exact absurd hpos (lt_irrefl 0)
    rw [getD_eq_getElem _ _ hlens] at hlen
    rw [extendStartLoc, extendStartLoc, sum_take_succ _ _ hlens, ← hlen]
    omega
  have hread := hc.read fb (.inl hmode) b hb ((fb.seq b).length - 1) (by omega) ⊥ mem_cons_self
  rw [← hlast, Nat.sub_add_cancel hpos, take_length] at hread
  rw [← hread]
  refine assign_of_mem (e := (rid, some _)) ?_ (mem_of_getElem? (i := b) ?_)
  · rw [map_fst_zip]
    · exact hnd
    · simp [lastIndices, batchSize]
  · rw [getElem?_zip_eq_some]
    refine ⟨hrid, ?_⟩
    rw [lastIndices, List.map_map, List.map_map, List.getElem?_map, List.getElem?_range hb]
    rfl

lemma storeSeeds_of_not_mem {logits : List (List ℚ)} (h : rid ∉ rids) :
    (self.storeSeeds rids logits).seedTokens rid = self.seedTokens rid := by
  refine assign_of_not_mem fun hin => ?_
  obtain ⟨p, hp, rfl⟩ := mem_map.mp hin
  exact h (of_mem_zip hp).1

end LinearSpec

end Sglang.Dllm
