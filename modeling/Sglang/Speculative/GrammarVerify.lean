import Sglang.Dllm.Forward
import Sglang.Managers.CheckFinished
import Sglang.Speculative.GrammarMask
import Sglang.Speculative.VerifyTree

/-! Structured output with speculation.

A verify step masks the scores of the target model with the bitmask of the draft trees, verifies
greedily and commits the accepted tokens one by one: each is appended, checked, fed to the grammar
and checked again, until the request has finished. The reference is decoding without drafts, where
one token at a time is chosen among those that the grammar allows. -/
namespace Sglang.Speculative

open List Option
open ChildLinks Constrained Managers ReasonerGrammarObject OutputReq Dllm GrammarObject

/-- What a step can raise: `accept_token`, a check of stop strings without a tokenizer, or a kernel
that does not end. -/
inductive Raised
  | valueError
  | attributeError
  | diverges
deriving DecidableEq

/-- A request with its grammar object. -/
structure GrammarReq (γ : Type) where
  originInputIds : List Int
  out : OutputReq
  grammar : Option γ

/-! ### Scores -/

/-- `apply_vocab_mask` on a row of scores. -/
def applyVocabMask (row : BitRow) (logits : List ℚ) : List Dllm.Score :=
  logits.mapIdx fun t (x : ℚ) => if bitSet row t then (x : Dllm.Score) else ⊥

/-- The scores of the target model after a list of tokens. -/
structure TargetModel (vocabSize : Nat) where
  logits : List Int → List ℚ
  length : ∀ tokens, (logits tokens).length = vocabSize

/-! ### The commit -/

variable {γ : Type} {G : GrammarObject γ}

namespace GrammarReq

def finished (r : GrammarReq γ) : Bool := r.out.finishedReason.isSome

def tokens (r : GrammarReq γ) : List Int := r.originInputIds ++ r.out.outputIds

/-- `check_finished`, which asks the grammar object whether it has terminated. -/
def checkFinished (G : GrammarObject γ) (r : GrammarReq γ) : Except Raised (GrammarReq γ) :=
  match { r.out with grammar := r.grammar.map fun g _ => G.isTerminated g }.checkFinished 1 with
  | some out => .ok { r with out := out }
  | none => .error .attributeError

/-- The grammar gets a token of a request that has not finished. -/
def feedGrammar (G : GrammarObject γ) (id : Int) (r : GrammarReq γ) :
    Except Raised (GrammarReq γ) :=
  if r.finished then .ok r
  else
    match r.grammar with
    | none => .ok r
    | some g =>
      match G.acceptToken g id.toNat with
      | none => .error .valueError
      | some g => { r with grammar := some g }.checkFinished G

def commitToken (G : GrammarObject γ) (r : GrammarReq γ) (id : Int) :
    Except Raised (GrammarReq γ) :=
  ({ r with out := { r.out with outputIds := r.out.outputIds ++ [id] } }.checkFinished G).bind
    (feedGrammar G id)

end GrammarReq

/-- The loop over a row of `accept_index`, with the number of tokens it has committed. -/
def commitRow (G : GrammarObject γ) (predicts : Nat → Int) :
    List Int → GrammarReq γ → Except Raised (GrammarReq γ × Nat)
  | [], r => .ok (r, 0)
  | idx :: row, r =>
    if idx = -1 then .ok (r, 0)
    else (r.commitToken G (predicts idx.toNat)).bind fun r =>
      if r.finished then .ok (r, 1) else (commitRow G predicts row r).map fun (r, n) => (r, n + 1)

/-- What a verify step is given: the draft trees of the batch and the scores at their nodes. -/
structure VerifyInput (vocabSize : Nat) where
  arrays : RetriveArrays
  draftTokens : Nat → Nat
  numDraftTokens : Nat
  numSpeculativeTokens : Nat
  numSpeculativeTokens_pos : 0 < numSpeculativeTokens
  logits : Nat → List ℚ

namespace VerifyInput
variable {vocabSize : Nat}

section
variable (v : VerifyInput vocabSize)

/-- The greedy choice at an entry; without a bitmask no score is masked. -/
def targetPredict (mask : Option (Nat → BitRow)) (x : Nat) : Int :=
  match mask with
  | none => argmax (scores (v.logits x))
  | some mask => argmax (applyVocabMask (mask x) (v.logits x))

def verifyArgs (mask : Option (Nat → BitRow)) : VerifyArgs where
  toRetriveArrays := v.arrays
  candidates x := v.draftTokens x
  targetPredict := v.targetPredict mask
  numSpeculativeTokens := v.numSpeculativeTokens
  numDraftTokens := v.numDraftTokens
  numSpeculativeTokens_pos := v.numSpeculativeTokens_pos

/-- The row of `accept_index` of a request. -/
def acceptRow (out : VerifyOutputs) (i : Nat) : List Int :=
  (range v.numSpeculativeTokens).map fun j => out.acceptIndex (i * v.numSpeculativeTokens + j)

end

/-- The bitmask, the verification and the commit; the blocks of the kernel run in the given order.
-/
def verify (G : GrammarObject γ) (v : VerifyInput vocabSize) (order : List Nat)
    (reqs : List (GrammarReq γ)) :
    Except Raised (List (GrammarReq γ × Nat)) :=
  match generateTokenBitmask G v.arrays v.draftTokens v.numDraftTokens vocabSize 0
    (reqs.map (·.grammar)) none with
  | none => .error .valueError
  | some (grammars, mask) =>
    match (v.verifyArgs mask).verifyTreeGreedy order ⟨fun _ => 0, fun _ => -1, fun _ => 0⟩ with
    | none => .error .diverges
    | some out =>
      (zipWith (fun r g => { r with grammar := g }) reqs grammars).zipIdx.mapM fun (r, i) =>
        commitRow G out.predicts (v.acceptRow out i) r

end VerifyInput

/-! ### The reference -/

/-- The tokens that may come next. -/
def GrammarReq.vocabMask (G : GrammarObject γ) (r : GrammarReq γ) : BitRow :=
  match r.grammar with
  | none => freshRow
  | some g => if G.isTerminated g then freshRow else G.fillVocabMask g freshRow

def GrammarReq.nextToken {vocabSize : Nat} (G : GrammarObject γ) (model : TargetModel vocabSize)
    (r : GrammarReq γ) : Nat :=
  argmax (applyVocabMask (r.vocabMask G) (model.logits r.tokens))

/-- One step of constrained greedy decoding; a finished request stays as it is. -/
def decodeStep {vocabSize : Nat} (G : GrammarObject γ) (model : TargetModel vocabSize)
    (r : GrammarReq γ) :
    Except Raised (GrammarReq γ) :=
  if r.finished then .ok r else r.commitToken G (r.nextToken G model)

def decodeSteps {vocabSize : Nat} (G : GrammarObject γ) (model : TargetModel vocabSize) :
    Nat → GrammarReq γ → Except Raised (GrammarReq γ)
  | 0, r => .ok r
  | n + 1, r => (decodeStep G model r).bind (decodeSteps G model n)

/-! ### The greedy choice -/

lemma argmax_applyVocabMask_lt {row : BitRow} {logits : List ℚ} (hne : logits ≠ []) :
    argmax (applyVocabMask row logits) < logits.length := by
  obtain ⟨hlt, -⟩ := @argmax_spec (applyVocabMask row logits) (by simpa [applyVocabMask] using hne)
  simpa [applyVocabMask] using hlt

lemma bitSet_argmax {row : BitRow} {logits : List ℚ} {t : Nat} (ht : t < logits.length)
    (hbit : bitSet row t = true) :
    bitSet row (argmax (applyVocabMask row logits)) = true := by
  obtain ⟨hlt, hmax⟩ := @argmax_spec (applyVocabMask row logits) (by
    rw [applyVocabMask, ne_eq, mapIdx_eq_nil_iff]
    exact ne_nil_of_length_pos (Nat.lt_of_le_of_lt (Nat.zero_le _) ht))
  have hmem : ((logits[t] : ℚ) : Dllm.Score) ∈ applyVocabMask row logits := by
    refine mem_iff_getElem.mpr ⟨t, by simpa [applyVocabMask] using ht, ?_⟩
    simp [applyVocabMask, hbit]
  have hle := hmax _ hmem
  by_contra hnot
  have hbot : (applyVocabMask row logits)[argmax (applyVocabMask row logits)] = ⊥ := by
    simp only [applyVocabMask, getElem_mapIdx]
    exact if_neg hnot
  rw [hbot, le_bot_iff] at hle
  exact WithBot.coe_ne_bot hle

lemma scores_eq (logits : List ℚ) : scores logits = applyVocabMask freshRow logits := by
  refine ext_getElem (by simp [scores, applyVocabMask]) fun i _ _ => ?_
  simp [scores, applyVocabMask]

lemma VerifyInput.targetPredict_eq {vocabSize : Nat} (v : VerifyInput vocabSize)
    (mask : Option (Nat → BitRow)) (x : Nat) :
    v.targetPredict mask x = argmax
    (applyVocabMask (mask.getD (fun _ => freshRow) x) (v.logits x)) := by
  cases mask with
  | none => rw [targetPredict, scores_eq]; rfl
  | some mask => rfl

/-! ### The check -/

variable {ε α β : Type} {f : α → Except ε β} {l : List α} {b : β} {r r' : GrammarReq γ}

section Check
variable {id : Int}

/-- The last token is in the vocabulary. -/
def InVocab (o : OutputReq) : Prop := ∀ t ∈ lastTokens o.outputIds 1, o.outOfVocab t = false

/-- What a check of the last token leaves. -/
structure Checked (o o' : OutputReq) : Prop where
  running : o'.finishedReason = none → o' = o ∧ o.grammarTerminated = false ∧ InVocab o
  length : o'.outputIds.length = o.outputIds.length
  dropLast : o'.outputIds.dropLast = o.outputIds.dropLast
  inVocab : InVocab o → o'.outputIds = o.outputIds

variable {o o' : OutputReq}

lemma Checked.of_finished (hfinished : o'.finishedReason ≠ none)
    (hout : o'.outputIds = o.outputIds) : Checked o o' :=
  ⟨fun hnone => absurd hnone hfinished, congrArg _ hout, congrArg _ hout, fun _ => hout⟩

lemma checkNewTokens_checked (hunfinished : o.finishedReason = none)
    (hopen : o.grammarTerminated = false)
    (h : o.checkNewTokens (lastTokens o.outputIds 1) = some o') : Checked o o' := by
  unfold checkNewTokens at h
  split at h
  · next heq =>
    cases h
    unfold checkTokenBasedFinish at heq
    split at heq
    · cases heq
    · obtain ⟨i, -, rfl⟩ := map_eq_some_iff.mp heq
      exact .of_finished nofun rfl
  split at h
  · next heq =>
    cases h
    obtain ⟨i, hi, rfl⟩ := map_eq_some_iff.mp heq
    have hlast : (lastTokens o.outputIds 1).length ≤ 1 := by
      rw [lastTokens, if_neg Nat.one_ne_zero, length_drop]
      omega
    refine ⟨nofun, length_set .., ?_, fun hin => ?_⟩
    · dsimp only
      rw [dropLast_eq_take, dropLast_eq_take, length_set, take_set, set_eq_of_length_le]
      rw [length_take]
      omega
    · obtain ⟨hlt, hout, -⟩ := findIdx?_eq_some_iff_getElem.mp hi
      rw [hin _ (getElem_mem hlt)] at hout
      cases hout
  · next heq =>
    obtain ⟨reason, -, rfl⟩ := map_eq_some_iff.mp h
    refine ⟨fun hnone => ⟨?_, hopen, fun t ht => ?_⟩, rfl, rfl, fun _ => rfl⟩
    · dsimp only at hnone
      rw [hnone, ← hunfinished]
    · exact findIdx?_eq_none_iff.mp (map_eq_none_iff.mp heq) t ht

lemma checkFinished_checked (h : o.checkFinished 1 = some o') : Checked o o' := by
  unfold checkFinished at h
  split at h
  · next hsome =>
    cases h
    exact .of_finished (isSome_iff_ne_none.mp hsome) rfl
  rename_i hunfinished
  split at h
  · next hto =>
    cases h
    exact .of_finished (isSome_iff_ne_none.mp hto) rfl
  · split at h
    · cases h
      exact .of_finished nofun rfl
    · split at h
      · obtain ⟨last, -, rfl⟩ := map_eq_some_iff.mp h
        exact .of_finished nofun rfl
      · next hopen =>
        exact checkNewTokens_checked (by simpa using hunfinished) (Bool.eq_false_iff.mpr hopen) h

open GrammarReq

/-- A terminated grammar finishes the request, whatever else is checked. -/
lemma GrammarReq.checkFinished_checked (h : r.checkFinished G = .ok r') :
    r'.originInputIds = r.originInputIds ∧ r'.grammar = r.grammar ∧
      Checked { r.out with grammar := r.grammar.map fun g _ => G.isTerminated g } r'.out := by
  unfold checkFinished at h
  split at h
  · next heq =>
    cases h
    exact ⟨rfl, rfl, Speculative.checkFinished_checked heq⟩
  · cases h

/-- What the commit of a token leaves. -/
structure Committed (G : GrammarObject γ) (id : Int) (r r' : GrammarReq γ) : Prop where
  origin : r'.originInputIds = r.originInputIds
  dropLast : r'.out.outputIds.dropLast = r.out.outputIds
  length : r'.out.outputIds.length = r.out.outputIds.length + 1
  running : r'.finished = false → r'.out.outputIds = r.out.outputIds ++ [id] ∧
    (r.grammar = none → r'.grammar = none) ∧
    ∀ g ∈ r.grammar, G.isTerminated g = false
  fed : ∀ g ∈ r.grammar, r'.finished = true ∧ r'.grammar = some g ∨
    ∃ g', r'.grammar = some g' ∧ G.acceptToken g id.toNat = some g' ∧
    r'.out.outputIds = r.out.outputIds ++ [id]

lemma bind_eq_ok {x : Except ε α} (h : x.bind f = .ok b) :
    ∃ a, x = .ok a ∧ f a = .ok b := by
  cases x with
  | error e => cases h
  | ok a => exact ⟨a, rfl, h⟩

lemma GrammarReq.commitToken_committed (h : r.commitToken G id = .ok r') : Committed G id r r' := by
  obtain ⟨r₁, hcheck, h⟩ := bind_eq_ok h
  obtain ⟨horigin1, hgrammar1, hchecked1⟩ := checkFinished_checked hcheck
  have hdrop1 : r₁.out.outputIds.dropLast = r.out.outputIds :=
    hchecked1.dropLast.trans dropLast_concat
  have hlen1 : r₁.out.outputIds.length = r.out.outputIds.length + 1 :=
    hchecked1.length.trans length_append
  unfold feedGrammar at h
  split at h
  · next hfinished =>
    cases h
    refine ⟨horigin1, hdrop1, hlen1, fun hrunning => ?_,
      fun g hg => .inl ⟨hfinished, hgrammar1.trans hg⟩⟩
    rw [hfinished] at hrunning
    cases hrunning
  rename_i hrunning
  -- the first check has passed: nothing is changed yet, and the grammar has not terminated
  obtain ⟨hout, hopen, hvocab⟩ := hchecked1.running (by simpa [finished] using hrunning)
  have houtput1 : r₁.out.outputIds = r.out.outputIds ++ [id] := congrArg outputIds hout
  split at h
  · next hnone =>
    cases h
    rw [hgrammar1] at hnone
    refine ⟨horigin1, hdrop1, hlen1,
      fun _ => ⟨houtput1, fun _ => hgrammar1.trans hnone, fun g hg => ?_⟩, fun g hg => ?_⟩
    · cases hnone.symm.trans hg
    · cases hnone.symm.trans hg
  rename_i g hg
  split at h
  · cases h
  rename_i g' haccept
  obtain ⟨horigin2, hgrammar2, hchecked2⟩ := checkFinished_checked h
  have houtput2 : r'.out.outputIds = r.out.outputIds ++ [id] := by
    refine (hchecked2.inVocab ?_).trans houtput1
    rw [← hout] at hvocab
    exact hvocab
  rw [hgrammar1] at hg
  refine ⟨horigin2.trans horigin1, ?_, ?_, fun _ => ⟨houtput2, fun hnone => ?_, fun g1 hg1 => ?_⟩,
    fun g1 hg1 => .inr ⟨g', hgrammar2, ?_, houtput2⟩⟩
  · rw [houtput2, dropLast_concat]
  · rw [houtput2, length_append, length_singleton]
  · cases hg.symm.trans hnone
  · cases hg.symm.trans hg1
    rwa [hg] at hopen
  · cases hg.symm.trans hg1
    exact haccept

lemma GrammarReq.checkFinished_ne_valueError : r.checkFinished G ≠ .error .valueError := by
  unfold checkFinished
  split <;> nofun

/-- Only the grammar can raise the error, and it does not for a token that it allows. -/
lemma GrammarReq.commitToken_ne_valueError
    (hallowed : ∀ g ∈ r.grammar, G.isTerminated g = false → (G.acceptToken g id.toNat).isSome) :
    r.commitToken G id ≠ .error .valueError := by
  intro h
  unfold commitToken at h
  cases hcheck :
    { r with out := { r.out with outputIds := r.out.outputIds ++ [id] } }.checkFinished G with
  | error e =>
    rw [hcheck] at h
    cases h
    exact checkFinished_ne_valueError hcheck
  | ok r₁ =>
    rw [hcheck] at h
    obtain ⟨-, hgrammar, hchecked⟩ := checkFinished_checked hcheck
    unfold Except.bind feedGrammar at h
    dsimp only at h
    split at h
    · cases h
    rename_i hrunning
    obtain ⟨-, hopen, -⟩ := hchecked.running (by simpa [finished] using hrunning)
    split at h
    · cases h
    rename_i g hg
    rw [hgrammar] at hg
    unfold grammarTerminated at hopen
    rw [show r.grammar = some g from hg] at hopen
    split at h
    · next hnone =>
      have := hallowed g hg hopen
      rw [hnone] at this
      cases this
    · exact checkFinished_ne_valueError h

end Check

variable {vocabSize : Nat} {model : TargetModel vocabSize}

/-! ### One request -/

section Row
variable {t : ParentTree} {v : VerifyInput vocabSize} {mask : Option (Nat → BitRow)} {i : Nat}
  {out : VerifyOutputs} {context : List Int} {grammar : Option γ}
  {l : List Nat} {c : Nat}

/-- The scores of the row of a request are those of the target model after its tokens: the root is
the last of them, and the nodes follow. -/
structure RowFits (model : TargetModel vocabSize) (v : VerifyInput vocabSize)
    (t : ParentTree) (i : Nat) (r : GrammarReq γ) : Prop where
  tree : DrawsTree v.arrays t v.numDraftTokens i
  running : r.finished = false
  causal : ∃ context, r.tokens = context ++ [(v.draftTokens (i * v.numDraftTokens) : Int)] ∧
    ∀ l c, t.RootPath (l ++ [c]) →
    v.logits (i * v.numDraftTokens + c) =
      model.logits (context ++ (l ++ [c]).map
      fun c => (v.draftTokens (i * v.numDraftTokens + c) : Int))

/-- The tokens of the row of a request. -/
def VerifyInput.rowTokens (v : VerifyInput vocabSize) (i : Nat) : Nat → Nat :=
  (v.arrays.row v.draftTokens v.numDraftTokens i).draftTokens

/-- A request that has committed the tokens down to node `c`. -/
structure StandsAt (G : GrammarObject γ) (v : VerifyInput vocabSize) (t : ParentTree)
    (i : Nat) (context : List Int) (grammar : Option γ) (l : List Nat)
    (c : Nat) (r : GrammarReq γ) : Prop where
  path : t.RootPath (l ++ [c])
  running : r.finished = false
  tokens : r.tokens = context ++ (l ++ [c]).map fun c => (v.rowTokens i c : Int)
  reaches : ∀ g ∈ r.grammar, ∃ g₀ ∈ grammar, Reaches G t (v.rowTokens i) vocabSize g₀ c g
  none : r.grammar = none → grammar = none

lemma StandsAt.target_eq (h : StandsAt G v t i context grammar l c r) (hc : c < t.size)
    (hrows : Masked G t (v.rowTokens i) vocabSize grammar fun c => mask.getD
    (fun _ => freshRow) (i * v.numDraftTokens + c))
    (hlogits : v.logits (i * v.numDraftTokens + c) = model.logits r.tokens) :
    (v.verifyArgs mask).target i c = (r.nextToken G model : Int) := by
  have hrow : mask.getD (fun _ => freshRow) (i * v.numDraftTokens + c) = r.vocabMask G := by
    unfold GrammarReq.vocabMask
    split
    · next heq =>
      refine hrows.other c hc fun g₀ hg0 => ?_
      rw [h.none heq] at hg0
      cases hg0
    · next g hg =>
      obtain ⟨g₀, hg0, hreach⟩ := h.reaches g hg
      split
      · next hterm =>
        refine hrows.other c hc fun g1 hg1 g' hreach' => ?_
        cases hg0.symm.trans hg1
        rwa [hreach'.unique hreach]
      · next hopen => exact hrows.reached g₀ hg0 c g hreach (Bool.eq_false_iff.mpr hopen)
  show v.targetPredict mask (i * v.numDraftTokens + c) = _
  rw [v.targetPredict_eq, hrow, hlogits]
  rfl

lemma nextToken_lt (hpos : 0 < vocabSize) : r.nextToken G model < vocabSize := by
  have hlen := model.length r.tokens
  have hne : model.logits r.tokens ≠ [] := ne_nil_of_length_pos (by rwa [hlen])
  exact Nat.lt_of_lt_of_eq (argmax_applyVocabMask_lt hne) hlen

lemma acceptToken_nextToken (hG : G.Lawful vocabSize) {g : γ} (hg : g ∈ r.grammar)
    (hopen : G.isTerminated g = false) :
    (G.acceptToken g (r.nextToken G model)).isSome := by
  obtain ⟨token, htoken, haccept⟩ := hG.live hopen
  have hmask : r.vocabMask G = G.fillVocabMask g freshRow := by
    rw [GrammarReq.vocabMask, show r.grammar = some g from hg]
    simp [hopen]
  rw [← hG.mask hopen _ (nextToken_lt (Nat.lt_of_le_of_lt (Nat.zero_le _) htoken)),
    GrammarReq.nextToken, hmask]
  refine bitSet_argmax (t := token) ?_ ?_
  · rwa [model.length]
  · rwa [hG.mask hopen token htoken]

/-- The token committed, the request stands at the child with it. -/
lemma StandsAt.next {d : Nat} (hG : G.Lawful vocabSize) (h : StandsAt G v t i context grammar l c r)
    (hcommit : Committed G (r.nextToken G model) r r') (hrunning : r'.finished = false)
    (hd : t.parent d = some c) (htoken : (v.rowTokens i d : Int) = r.nextToken G model) :
    StandsAt G v t i context grammar (l ++ [c]) d r' := by
  obtain ⟨houtput, hnone, hopen⟩ := hcommit.running hrunning
  refine ⟨h.path.snoc hd, hrunning, ?_, fun g' hg' => ?_, fun hnone' => ?_⟩
  · have htokens := h.tokens
    unfold GrammarReq.tokens at htokens ⊢
    rw [hcommit.origin, houtput, ← append_assoc, htokens, ← htoken]
    simp
  · cases hgrammar : r.grammar with
    | none =>
      rw [hnone hgrammar] at hg'
      cases hg'
    | some g =>
      rcases hcommit.fed g hgrammar with ⟨hfinished, -⟩ | ⟨g1, hg1, haccept, -⟩
      · rw [hrunning] at hfinished
        cases hfinished
      cases hg1.symm.trans hg'
      obtain ⟨g₀, hg0, hreach⟩ := h.reaches g hgrammar
      have hvocab : 0 < vocabSize := by
        obtain ⟨s, hs, -⟩ := hG.live (hopen g hgrammar)
        omega
      have heq : v.rowTokens i d = r.nextToken G model := by exact_mod_cast htoken
      refine ⟨g₀, hg0, .child hreach (hopen g hgrammar) hd ?_ ?_⟩
      · rw [heq]
        exact nextToken_lt hvocab
      · rw [heq]
        exact haccept
  · cases hgrammar : r.grammar with
    | none => exact h.none hgrammar
    | some g =>
      rcases hcommit.fed g hgrammar with ⟨-, hg⟩ | ⟨g1, hg1, -, -⟩
      · cases hg.symm.trans hnone'
      · cases hg1.symm.trans hnone'

lemma decodeSteps_finished (hfinished : r.finished = true) (n : Nat) :
    decodeSteps G model n r = .ok r := by
  induction n with
  | zero => rfl
  | succ n ih => rw [decodeSteps, decodeStep, if_pos hfinished]; exact ih

section
variable (hG : G.Lawful vocabSize)

section
variable (hpos : 0 < t.size)
  (hrows : Masked G t (v.rowTokens i) vocabSize grammar fun c => mask.getD
  (fun _ => freshRow) (i * v.numDraftTokens + c))
include hpos hrows

lemma StandsAt.commitRow_cons (h : StandsAt G v t i context grammar l c r)
    (hlogits : v.logits (i * v.numDraftTokens + c) = model.logits
    (context ++ (l ++ [c]).map fun c => (v.rowTokens i c : Int)))
    (hpredict : out.predicts ((v.verifyArgs mask).entry i c) = (v.verifyArgs mask).target i c)
    (row : List Int) :
    (commitRow G out.predicts (((v.verifyArgs mask).entry i c : Int) :: row) r).map Prod.fst =
      (decodeStep G model r).bind fun r' => if r'.finished then .ok r'
      else (commitRow G out.predicts row r').map Prod.fst := by
  have htarget :=
    h.target_eq (h.path.lt hpos (by simp)) hrows
    (hlogits.trans (congrArg model.logits h.tokens.symm))
  rw [commitRow, if_neg (by omega), Int.toNat_natCast, hpredict, htarget,
    decodeStep, h.running, if_neg Bool.false_ne_true]
  cases r.commitToken G (r.nextToken G model) with
  | error e => rfl
  | ok r' =>
    simp only [Except.bind]
    split
    · rfl
    · cases commitRow G out.predicts row r' <;> rfl

include hG

/-- The commit along an accepted path is constrained greedy decoding. -/
lemma StandsAt.commitRow_eq
    (hcausal : ∀ l c, t.RootPath (l ++ [c]) → v.logits (i * v.numDraftTokens + c) =
      model.logits (context ++ (l ++ [c]).map fun c => (v.rowTokens i c : Int)))
    (k : Nat) {rest : List Nat} (h : StandsAt G v t i context grammar l c r)
    (hpath : t.RootPath (l ++ [c] ++ rest)) (hagrees : Agrees (v.verifyArgs mask) i (c :: rest))
    (hpredicts : ∀ p ∈ c :: rest, out.predicts ((v.verifyArgs mask).entry i p) =
    (v.verifyArgs mask).target i p) :
    (commitRow G out.predicts
    (((c :: rest).map fun p => ((v.verifyArgs mask).entry i p : Int)) ++ replicate k (-1)) r).map
      Prod.fst = decodeSteps G model (rest.length + 1) r := by
  induction rest generalizing l c r with
  | nil =>
    rw [map_singleton, singleton_append,
      h.commitRow_cons hpos hrows (hcausal l c h.path) (hpredicts c mem_cons_self)]
    refine congrArg _ (funext fun r' => ?_)
    cases k <;> split <;> rfl
  | cons d rest ih =>
    rw [map_cons, cons_append, h.commitRow_cons hpos hrows (hcausal l c h.path)
      (hpredicts c mem_cons_self)]
    obtain ⟨hcand, hagrees'⟩ := isChain_cons_cons.mp hagrees
    have htarget : (v.verifyArgs mask).target i c = (r.nextToken G model : Int) :=
      h.target_eq (h.path.lt hpos (by simp)) hrows
      ((hcausal l c h.path).trans (congrArg model.logits h.tokens.symm))
    rw [length_cons, decodeSteps]
    cases hstep : decodeStep G model r with
    | error e => rfl
    | ok r' =>
      simp only [Except.bind]
      split
      · next hfinished => exact (decodeSteps_finished hfinished _).symm
      · next hrunning =>
        rw [decodeStep, h.running, if_neg Bool.false_ne_true] at hstep
        have hparent : t.parent d = some c := (isChain_append.mp hpath.chain).2.2 c (by simp) d rfl
        exact ih (h.next hG (GrammarReq.commitToken_committed hstep)
          (Bool.eq_false_iff.mpr hrunning) hparent (hcand.trans htarget))
          (by simpa using hpath) hagrees' fun p hp => hpredicts p (mem_cons_of_mem _ hp)

end

include hG

/-- The commit of a request is constrained greedy decoding, for as many tokens as its path has. -/
lemma RowFits.commitRow_eq (hfits : RowFits model v t i r)
    (hrows : Masked G t (v.rowTokens i) vocabSize r.grammar
    fun c => mask.getD (fun _ => freshRow) (i * v.numDraftTokens + c))
    {path : List Nat} (haccepted : Accepted (v.verifyArgs mask) t i path out) :
    (commitRow G out.predicts (v.acceptRow out i) r).map Prod.fst =
    decodeSteps G model path.length r := by
  obtain ⟨rest, rfl⟩ : ∃ rest, path = 0 :: rest := ⟨_, RootPath.eq_cons haccepted.rootPath⟩
  obtain ⟨context, htokens, hcausal⟩ := hfits.causal
  have hpos : 0 < t.size := hfits.tree.size ▸ hfits.tree.pos
  have hrow : v.acceptRow out i = _ := haccepted.acceptRow_eq
  have hstart : StandsAt G v t i context r.grammar [] 0 r :=
    ⟨t.rootPath_root, hfits.running, htokens, fun g hg => ⟨g, hg, .root⟩, id⟩
  rw [hrow]
  exact hstart.commitRow_eq hG hpos hrows hcausal _ haccepted.rootPath
    haccepted.agrees haccepted.predicted

lemma decodeStep_ne_valueError : decodeStep G model r ≠ .error .valueError := by
  unfold decodeStep
  split
  · nofun
  · exact GrammarReq.commitToken_ne_valueError fun g hg hopen => acceptToken_nextToken hG hg hopen

lemma decodeSteps_ne_valueError (n : Nat) : decodeSteps G model n r ≠ .error .valueError := by
  induction n generalizing r with
  | zero => nofun
  | succ n ih =>
    rw [decodeSteps]
    cases hstep : decodeStep G model r with
    | error e =>
      intro h
      cases h
      exact decodeStep_ne_valueError hG hstep
    | ok r' => exact ih

end

end Row

/-! ### What the grammar has consumed -/

section Consumed
variable {r₁ : GrammarReq γ}

/-- The grammar has got every token since `r`, or every one but the last of a request that has
finished with it. -/
def Consumed (G : GrammarObject γ) (r r' : GrammarReq γ) : Prop :=
  ∃ tokens : List Int, r'.out.outputIds = r.out.outputIds ++ tokens ∧
    ∀ g ∈ r.grammar, ∃ g' ∈ r'.grammar,
    G.feed g (tokens.map Int.toNat) = some g' ∨
      r'.finished = true ∧ tokens ≠ [] ∧ G.feed g (tokens.dropLast.map Int.toNat) = some g'

lemma Consumed.refl (r : GrammarReq γ) : Consumed G r r :=
  ⟨[], by simp, fun g hg => ⟨g, hg, .inl rfl⟩⟩

lemma Committed.consumed {id : Int} (h : Committed G id r r') : Consumed G r r' := by
  have hne : r'.out.outputIds ≠ [] := ne_nil_of_length_pos (by rw [h.length]; omega)
  refine ⟨[r'.out.outputIds.getLast hne], ?_, fun g hg => ?_⟩
  · rw [← h.dropLast]
    exact (dropLast_append_getLast hne).symm
  · rcases h.fed g hg with ⟨hfinished, hgrammar⟩ | ⟨g', hgrammar, haccept, houtput⟩
    · exact ⟨g, hgrammar, .inr ⟨hfinished, nofun, rfl⟩⟩
    · refine ⟨g', hgrammar, .inl ?_⟩
      simp only [houtput, getLast_concat, map_singleton]
      rw [feed_cons, haccept]
      rfl

lemma Consumed.trans (h : Consumed G r r₁) (hrunning : r₁.finished = false)
    (h' : Consumed G r₁ r') : Consumed G r r' := by
  obtain ⟨ts, hts, hfed⟩ := h
  obtain ⟨us, hus, hfed'⟩ := h'
  refine ⟨ts ++ us, by rw [hus, hts, append_assoc], fun g hg => ?_⟩
  obtain ⟨g1, hg1, hall | ⟨hfinished, -⟩⟩ := hfed g hg
  · obtain ⟨g', hg', hrest⟩ := hfed' g1 hg1
    refine ⟨g', hg', hrest.imp (fun hus => ?_) fun ⟨hfinished, hne, hus⟩ =>
      ⟨hfinished, by simp [hne], ?_⟩⟩
    · rw [map_append, feed_append, hall]
      exact hus
    · rw [dropLast_append_of_ne_nil hne, map_append, feed_append, hall]
      exact hus
  · rw [hrunning] at hfinished
    cases hfinished

lemma decodeSteps_consumed {n : Nat} (h : decodeSteps G model n r = .ok r') : Consumed G r r' := by
  induction n generalizing r with
  | zero =>
    cases h
    exact .refl _
  | succ n ih =>
    obtain ⟨r₁, hstep, h⟩ := bind_eq_ok h
    cases hfinished : r.finished with
    | true =>
      rw [decodeStep, if_pos hfinished] at hstep
      cases hstep
      exact ih h
    | false =>
      rw [decodeStep, hfinished, if_neg Bool.false_ne_true] at hstep
      have hcommitted := (GrammarReq.commitToken_committed hstep).consumed
      cases hfinished1 : r₁.finished with
      | true =>
        rw [decodeSteps_finished hfinished1] at h
        cases h
        exact hcommitted
      | false => exact hcommitted.trans hfinished1 (ih h)

end Consumed

/-! ### The batch -/

section Batch
variable {v : VerifyInput vocabSize}
  {tree : Nat → ParentTree} {order : List Nat} {reqs : List (GrammarReq γ)}

/-- Every request of the batch has its tree, and the blocks of the kernel are those of the batch. -/
structure BatchFits (model : TargetModel vocabSize) (v : VerifyInput vocabSize)
    (tree : Nat → ParentTree) (order : List Nat) (reqs : List (GrammarReq γ)) : Prop where
  order : order.Perm (range reqs.length)
  row : ∀ i (h : i < reqs.length), RowFits model v (tree i) i reqs[i]

lemma BatchFits.bitmask (hG : G.Lawful vocabSize) (h : BatchFits model v tree order reqs) :
    ∃ mask, generateTokenBitmask G v.arrays v.draftTokens v.numDraftTokens vocabSize 0
    (reqs.map (·.grammar)) none =
        some (reqs.map (·.grammar), mask) ∧
      ∀ i (hi : i < reqs.length), Masked G (tree i) (v.rowTokens i) vocabSize reqs[i].grammar
        fun c => mask.getD (fun _ => freshRow) (i * v.numDraftTokens + c) := by
  obtain ⟨mask, heq, -, hmasked⟩ :=
    @generateTokenBitmask_from γ G v.arrays v.draftTokens v.numDraftTokens vocabSize hG tree
    (reqs.map (·.grammar)) 0 none (fun j hj => by
      rw [zero_add]
      exact (h.row j (by simpa using hj)).tree) fun _ _ => rfl
  refine ⟨mask, heq, fun i hi => ?_⟩
  have := hmasked i (by simpa using hi)
  rwa [zero_add, getElem_map] at this

lemma mapM_congr {g : α → Except ε β} (h : ∀ x ∈ l, f x = g x) : l.mapM f = l.mapM g := by
  induction l with
  | nil => rfl
  | cons x l ih =>
    rw [mapM_cons, mapM_cons, h x mem_cons_self, ih fun y hy => h y (mem_cons_of_mem _ hy)]

lemma mapM_map {ε α β δ : Type} (f : α → Except ε β) (g : β → δ) (l : List α) :
    (l.mapM f).map (map g) = l.mapM fun x => (f x).map g := by
  induction l with
  | nil => rfl
  | cons x l ih =>
    rw [mapM_cons, mapM_cons, ← ih]
    cases f x with
    | error e => rfl
    | ok b => cases l.mapM f <;> rfl

lemma mapM_eq_error {e : ε} (h : l.mapM f = .error e) :
    ∃ x ∈ l, f x = .error e := by
  induction l with
  | nil => cases h
  | cons x l ih =>
    rw [mapM_cons] at h
    cases hx : f x with
    | error e' =>
      rw [hx] at h
      cases h
      exact ⟨x, mem_cons_self, hx⟩
    | ok b =>
      rw [hx] at h
      cases hl : l.mapM f with
      | error e' =>
        rw [hl] at h
        cases h
        obtain ⟨y, hy, hfy⟩ := ih hl
        exact ⟨y, mem_cons_of_mem _ hy, hfy⟩
      | ok bs =>
        rw [hl] at h
        cases h

/-- A verify step is constrained greedy decoding of every request, for one token or more. -/
lemma BatchFits.verify_eq (hG : G.Lawful vocabSize) (h : BatchFits model v tree order reqs) :
    ∃ counts : Nat → Nat, (∀ i < reqs.length, 1 ≤ counts i ∧ counts i ≤ v.numSpeculativeTokens) ∧
      (v.verify G order reqs).map (map Prod.fst) = reqs.zipIdx.mapM fun (r, i) =>
      decodeSteps G model (counts i) r := by
  obtain ⟨mask, hmask, hmasked⟩ := h.bitmask hG
  have hmem (i : Nat) : i ∈ order ↔ i < reqs.length := by rw [h.order.mem_iff, mem_range]
  obtain ⟨out, hout, hall, -⟩ :=
    @verifyTreeGreedy_spec (v.verifyArgs mask) tree order ⟨fun _ => 0, fun _ => -1, fun _ => 0⟩
    (h.order.nodup_iff.mpr nodup_range) (fun i hi => by
      have := (h.row i ((hmem i).mp hi)).tree
      exact ⟨this.size, this.size ▸ this.pos, this.draws⟩) fun _ _ _ _ => rfl
  choose! path hpath using hall
  refine ⟨fun i => (path i).length, fun i hi => ?_, ?_⟩
  · have haccepted := hpath i ((hmem i).mpr hi)
    refine ⟨?_, haccepted.le⟩
    dsimp only
    rw [RootPath.eq_cons haccepted.rootPath]
    exact Nat.succ_pos _
  · have hreqs : zipWith (fun r g => { r with grammar := g }) reqs (reqs.map (·.grammar)) =
        reqs := by
      rw [zipWith_map_right, zipWith_self]
      exact map_id' reqs
    simp only [VerifyInput.verify, hmask, hout, hreqs]
    rw [mapM_map]
    refine mapM_congr fun ⟨r, i⟩ hri => ?_
    obtain ⟨hi, hr⟩ := mem_zipIdx' hri
    rw [hr]
    exact (h.row i hi).commitRow_eq hG (hmasked i hi) (hpath i ((hmem i).mpr hi))

end Batch

/-! ### Runs -/

/-- A lawful grammar, perhaps behind a reasoning block. -/
inductive IsGrammar (vocabSize : Nat) : {γ : Type} → GrammarObject γ → Prop
  | lawful {γ : Type} {G : GrammarObject γ} (h : G.Lawful vocabSize) : IsGrammar vocabSize G
  | reasoner {γ : Type} {G : GrammarObject γ} (h : IsGrammar vocabSize G) :
      IsGrammar vocabSize (object G)

lemma IsGrammar.isLawful (h : IsGrammar vocabSize G) : G.Lawful vocabSize := by
  induction h with
  | lawful h => exact h
  | reasoner _ ih => exact object_lawful ih

section Run
variable {r₀ r₁ : GrammarReq γ}

/-- A request after some verify steps, each in a batch of its own. -/
inductive Decoded (G : GrammarObject γ) (model : TargetModel vocabSize) (r₀ : GrammarReq γ) :
    GrammarReq γ → Prop
  | start : Decoded G model r₀ r₀
  | round {v : VerifyInput vocabSize} {tree : Nat → ParentTree} {order : List Nat}
      {reqs : List (GrammarReq γ)}
      {results : List (GrammarReq γ × Nat)} {i n : Nat} {r r' : GrammarReq γ}
        (h : Decoded G model r₀ r)
      (hfits : BatchFits model v tree order reqs) (hr : reqs[i]? = some r)
        (hverify : v.verify G order reqs = .ok results)
      (hr' : results[i]? = some (r', n)) : Decoded G model r₀ r'

lemma decodeSteps_add {m n : Nat} (h : decodeSteps G model m r₀ = .ok r) :
    decodeSteps G model (m + n) r₀ = decodeSteps G model n r := by
  induction m generalizing r₀ with
  | zero =>
    cases h
    rw [zero_add]
  | succ m ih =>
    obtain ⟨r₁, hstep, h⟩ := bind_eq_ok h
    rw [Nat.succ_add, decodeSteps, hstep]
    exact ih h

lemma mapM_getElem? {bs : List β} (h : l.mapM f = .ok bs) {i : Nat} {x : α}
    (hx : l[i]? = some x) (hb : bs[i]? = some b) : f x = .ok b := by
  induction l generalizing bs i with
  | nil => cases hx
  | cons y l ih =>
    rw [mapM_cons] at h
    obtain ⟨b1, hb1, h⟩ := bind_eq_ok h
    obtain ⟨bs1, hbs1, h⟩ := bind_eq_ok h
    cases h
    cases i with
    | zero =>
      cases hx
      cases hb
      exact hb1
    | succ i => exact ih hbs1 hx hb

lemma Decoded.steps (hG : G.Lawful vocabSize) (h : Decoded G model r₀ r) :
    ∃ n, decodeSteps G model n r₀ = .ok r := by
  induction h with
  | start => exact ⟨0, rfl⟩
  | @round v tree order reqs results i n r r' _ hfits hr hverify hr' ih =>
    obtain ⟨m, hm⟩ := ih
    obtain ⟨counts, -, heq⟩ := hfits.verify_eq hG
    rw [hverify] at heq
    refine ⟨m + counts i, (decodeSteps_add hm).trans ?_⟩
    have hzip : reqs.zipIdx[i]? = some (r, i) := by simp [hr]
    have hresult : (results.map Prod.fst)[i]? = some r' := by simp [hr']
    exact mapM_getElem? heq.symm hzip hresult

/-- **Structured output survives speculation.** The bitmask leaves every grammar as it was, a verify
step is constrained greedy decoding of each request for one token or more and never raises the error
of a grammar, and after any number of steps the grammar has got the committed tokens, but for one
that has finished the request by itself. -/
theorem structured_output_speculation (hG : IsGrammar vocabSize G) (model : TargetModel vocabSize) :
    (∀ (v : VerifyInput vocabSize) (tree : Nat → ParentTree) (order : List Nat)
    (reqs : List (GrammarReq γ)),
      BatchFits model v tree order reqs →
      (∃ mask, generateTokenBitmask G v.arrays v.draftTokens v.numDraftTokens vocabSize 0
      (reqs.map (·.grammar)) none =
        some (reqs.map (·.grammar), mask)) ∧
      (∃ counts : Nat → Nat, (∀ i < reqs.length, 1 ≤ counts i ∧ counts i ≤ v.numSpeculativeTokens) ∧
        (v.verify G order reqs).map (map Prod.fst) = reqs.zipIdx.mapM fun (r, i) =>
        decodeSteps G model (counts i) r) ∧
      v.verify G order reqs ≠ .error .valueError) ∧
    ∀ r₀ r, Decoded G model r₀ r → (∃ n, decodeSteps G model n r₀ = .ok r) ∧ Consumed G r₀ r := by
  have hlawful := hG.isLawful
  refine ⟨fun v tree order reqs hfits => ⟨?_, hfits.verify_eq hlawful, fun herror => ?_⟩,
    fun r₀ r hdecoded => ?_⟩
  · obtain ⟨mask, hmask, -⟩ := hfits.bitmask hlawful
    exact ⟨mask, hmask⟩
  · obtain ⟨counts, -, heq⟩ := hfits.verify_eq hlawful
    rw [herror] at heq
    obtain ⟨⟨r, i⟩, -, hr⟩ := mapM_eq_error heq.symm
    exact decodeSteps_ne_valueError hlawful _ hr
  · obtain ⟨n, hn⟩ := hdecoded.steps hlawful
    exact ⟨⟨n, hn⟩, decodeSteps_consumed hn⟩

end Run

/-! ### A run -/

/-- Every token goes, and the grammar never terminates. -/
def anyToken : Automaton Unit := ⟨fun _ _ => some (), fun _ => false⟩

/-- All tokens but `1` go. -/
def notOne : Automaton Unit := ⟨fun _ t => if t = 1 then none else some (), fun _ => false⟩

lemma notOne_lawful : (notOne.object 4).Lawful 4 :=
  notOne.object_lawful fun _ _ => ⟨0, by decide, rfl⟩

/-- A target model that always prefers token `1`. -/
def prefersOne : TargetModel 4 := ⟨fun _ => [0, 1, 0, 0], fun _ => rfl⟩

/-- A root with two children, one of them not in the vocabulary. -/
def oneDraft : VerifyInput 4 where
  arrays := twoChildren.buildTree [0]
  draftTokens x := [0, 9, 1].getD x 0
  numDraftTokens := 3
  numSpeculativeTokens := 2
  numSpeculativeTokens_pos := Nat.two_pos
  logits _ := [0, 1, 0, 0]

lemma oneDraft_fits (hrunning : r.finished = false) (htokens : r.tokens = [0]) :
    BatchFits prefersOne oneDraft twoChildren.tree [0] [r] := by
  refine ⟨.refl _, fun i hi => ?_⟩
  obtain rfl : i = 0 := by simpa using hi
  refine ⟨⟨rfl,
    by decide, BuildTreeArgs.buildTree_draws (nodup_singleton 0) (mem_singleton_self 0), by decide +kernel⟩,
    hrunning, [], by rw [getElem_singleton, htokens]; rfl, fun _ _ _ => rfl⟩

lemma exists_decoded_oneDraft (hrunning : r.finished = false)
    (htokens : r.tokens = [0]) {f : GrammarReq γ × Nat → β} {b : β}
    (h : ((oneDraft.verify G [0] [r]).toOption.bind (·[0]?)).map f = some b) :
    ∃ r' n, Decoded G prefersOne r r' ∧ f (r', n) = b := by
  obtain ⟨⟨r', n⟩, hresult, hr'⟩ := map_eq_some_iff.mp h
  obtain ⟨results, hverify, hget⟩ := bind_eq_some_iff.mp hresult
  cases hok : oneDraft.verify G [0] [r] with
  | error e =>
    rw [hok] at hverify
    cases hverify
  | ok results' =>
    rw [hok] at hverify
    cases hverify
    exact ⟨r', n, .round .start (oneDraft_fits hrunning htokens) rfl hok hget, hr'⟩

lemma thinking_bound : (-1 : Int) ≤ -1 := Int.le_refl _

def thinking : GrammarReq (ReasonerGrammarObject (Constrained.Matcher Unit)) where
  originInputIds := [0]
  out := { vocabSize := 4 }
  grammar := some ⟨⟨(), []⟩, 1, -1, thinking_bound⟩

/-- The draft token is accepted as it ends the reasoning. After it the grammar masks what the model
prefers, and it has got the token that was chosen instead. -/
theorem structured_output_speculation_oneDraft : ∃ r,
    Decoded (object (notOne.object 4)) prefersOne thinking r ∧ r.out.outputIds = [1, 0] ∧
    r.grammar.map (·.grammar) = some ⟨(), [()]⟩ ∧ Consumed
    (object (notOne.object 4)) thinking r := by
  have hrun :
    ((oneDraft.verify (object (notOne.object 4)) [0] [thinking]).toOption.bind (·[0]?)).map
      (fun p => (p.1.out.outputIds, p.1.grammar.map (·.grammar))) =
        some ([1, 0], some ⟨(), [()]⟩) := by
    decide +kernel
  obtain ⟨r, n, hdecoded, hr⟩ := exists_decoded_oneDraft rfl rfl hrun
  obtain ⟨houtput, hgrammar⟩ := Prod.mk.inj hr
  exact ⟨r, hdecoded, houtput, hgrammar,
    ((structured_output_speculation
    (.reasoner (.lawful notOne_lawful)) prefersOne).2 _ _ hdecoded).2⟩

/-- A request that ends with its first token. -/
def oneToken : GrammarReq (Constrained.Matcher Unit) where
  originInputIds := [0]
  out := { samplingParams := { maxNewTokens := 1 }, vocabSize := 4 }
  grammar := some ⟨(), []⟩

/-- The token that ends a request is committed and not fed to its grammar. -/
theorem finishing_token_not_consumed :
    ∃ r, Decoded (anyToken.object 4) prefersOne oneToken r ∧ r.out.outputIds = [1] ∧
    ∀ g₀ ∈ oneToken.grammar, ∀ g ∈ r.grammar, (anyToken.object 4).feed g₀
    (r.out.outputIds.map Int.toNat) ≠ some g := by
  have hrun : ((oneDraft.verify (anyToken.object 4) [0] [oneToken]).toOption.bind (·[0]?)).map
      (fun p => (p.1.out.outputIds, p.1.grammar)) = some ([1], some ⟨(), []⟩) := by
    decide +kernel
  obtain ⟨r, n, hdecoded, hr⟩ := exists_decoded_oneDraft rfl rfl hrun
  obtain ⟨houtput, hgrammar⟩ := Prod.mk.inj hr
  refine ⟨r, hdecoded, houtput, fun g₀ hg0 g hg => ?_⟩
  cases hg0
  cases hgrammar.symm.trans hg
  rw [houtput]
  decide

end Sglang.Speculative
