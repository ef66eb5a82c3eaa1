import Sglang.Dllm.PromptPass

/-! How many tokens a step of `FastDiffuser` reveals: the choice of positions in `place`. -/
namespace Sglang.Dllm

open List

inductive SelectionPolicy where
  | confidence
  | leftmost
  | random
  deriving DecidableEq

/-- What of the configuration decides on the positions of a step. `topk` are the active positions of
highest confidence, `randperm` are they in a random order. -/
structure Reveal where
  maskId : TokenId
  eosId : Option TokenId
  maxSteps : Nat
  selectionPolicy : SelectionPolicy
  threshold : Option ℚ
  tokensPerStep : Option Nat
  accepted : selectionPolicy ≠ .confidence → threshold = none
  topk : (Nat → ℚ) → List Nat → Nat → List Nat
  topk_spec : ∀ confidence active k, k ≤ active.length → topk confidence active k <+~ active ∧
    (topk confidence active k).length = k
  randperm : List Nat → List Nat
  randperm_perm : ∀ active, randperm active ~ active

def getNumTransferTokens (maskCount steps : Nat) : List Nat :=
  (range steps).map fun i => maskCount / steps + if i < maskCount % steps then 1 else 0

/-- A step takes the first number of the even schedule, and the rest of it is even again. -/
lemma getNumTransferTokens_succ (n s : Nat) :
    ∃ k ≤ n, getNumTransferTokens n (s + 1) = k :: getNumTransferTokens (n - k) s := by
  have hdiv := Nat.div_add_mod n (s + 1)
  rw [Nat.succ_mul] at hdiv
  refine ⟨n / (s + 1) + if 0 < n % (s + 1) then 1 else 0, by split <;> omega, ?_⟩
  have hrest : n - (n / (s + 1) + if 0 < n % (s + 1) then 1 else 0) =
      s * (n / (s + 1)) + (n % (s + 1) - 1) := by
    split <;> omega
  rw [hrest, getNumTransferTokens, getNumTransferTokens, range_succ_eq_map, map_cons, map_map]
  refine congrArg _ (map_congr_left fun i hi => ?_)
  have hpos : 0 < s := pos_of_gt (mem_range.mp hi)
  have hlt : n % (s + 1) - 1 < s := by
    have : n % (s + 1) < s + 1 := Nat.mod_lt n s.succ_pos
    omega
  rw [Nat.mul_add_div hpos, Nat.mul_add_mod, Nat.div_eq_of_lt hlt, Nat.mod_eq_of_lt hlt]
  simp only [Nat.add_zero, Function.comp, Nat.succ_eq_add_one, Nat.lt_sub_iff_add_lt]

namespace Reveal

section Step
variable (self : Reveal) (step genStart : Nat) (ids : List TokenId) (confidence : Nat → ℚ)
  (active : List Nat)

/-- The masks before the first generated end of sequence. -/
def activeMask : List Nat :=
  let firstEos :=
    (range ids.length).find? fun i => genStart ≤ i ∧ ids[i]? = self.eosId ∧
    ids[i]? ≠ some self.maskId
  (range ids.length).filter fun i => ids[i]? = some self.maskId ∧ ∀ first ∈ firstEos, i < first

def budget : Nat :=
  let k := if self.selectionPolicy = .leftmost then self.tokensPerStep.getD 1
    else match self.threshold with
      | some threshold => max 1 (active.countP (threshold ≤ confidence ·))
      | none => (getNumTransferTokens active.length (self.maxSteps - step))[0]?.getD 0
  min k active.length

def selectTransferIndices (k : Nat) : List Nat :=
  if k = 0 then []
  else match self.selectionPolicy with
    | .confidence => self.topk confidence active k
    | .random => (self.randperm active).take k
    | .leftmost => active.take k

/-- The positions a step commits by selection. -/
def selected : List Nat :=
  let active := self.activeMask genStart ids
  self.selectTransferIndices confidence active (self.budget step confidence active)

/-- An end of sequence that was just committed to the generated part takes the place of the masks
behind it. -/
def propagateEos (topIdx : List Nat) (ids : List TokenId) : List TokenId :=
  let isEos := fun i => genStart ≤ i ∧ ∃ eos ∈ self.eosId, ids[i]? = some eos
  if ∃ i ∈ topIdx, isEos i then
    let firstEos := (range ids.length).find? fun i => isEos i
    ids.mapIdx fun i id => if id = self.maskId ∧ ∃ first ∈ firstEos, first ≤ i then
      self.eosId.getD id else id
  else ids

/-- A step on a block, with the tokens `x0` of highest score: the new tokens and whether it is
finished. -/
def place (x0 : Nat → TokenId) : List TokenId × Bool :=
  if self.activeMask genStart ids = [] then (ids, true)
  else
    let topIdx := self.selected step genStart ids confidence
    let ids :=
      self.propagateEos genStart topIdx (ids.mapIdx fun i id => if i ∈ topIdx then x0 i else id)
    (ids, decide (self.maskId ∉ ids))

end Step

/-- The diffuser that reveals this way, with what it reads off the scores of a block. -/
def diffuser (self : Reveal) (blockSize : Nat) (causalContext : Bool)
    (score : List (List ℚ) → List TokenId → (Nat → ℚ) × (Nat → TokenId))
    (forceCommit : Nat → List (List ℚ) → List TokenId → List TokenId) : FastDiffuser where
  maskId := self.maskId
  blockSize := blockSize
  maxSteps := self.maxSteps
  causalContext := causalContext
  place step genStart rows ids :=
    let (confidence, x0) := score rows ids
    self.place step genStart ids confidence x0
  forceCommit := forceCommit

variable {self : Reveal}

/-- A block with a mask is visited by `place`. -/
lemma visit_diffuser {blockSize : Nat} {causalContext : Bool}
    {score : List (List ℚ) → List TokenId → (Nat → ℚ) × (Nat → TokenId)}
    {forceCommit : Nat → List (List ℚ) → List TokenId → List TokenId} {fb : ForwardBatch}
    {s : FastDiffuser.Denoising} {x : Nat × Nat} (hmask : self.maskId ∈ block blockSize s.ids x.1)
    (step : Nat) (rows : List (List ℚ)) :
    let fd := self.diffuser blockSize causalContext score forceCommit
    let ids := block blockSize s.ids x.1
    let scores := score (block blockSize rows x.2) ids
    let placed := self.place step (fd.genStart fb x.1) ids scores.1 scores.2
    fd.visit fb step (some rows) s x =
      some {s with ids := fd.setBlock s.ids x.1 placed.1, finished := s.finished.set x.1 placed.2} :=
  if_neg (not_not.mpr hmask)

lemma selectTransferIndices_spec {confidence : Nat → ℚ} {active : List Nat}
    {k : Nat} (hk : k ≤ active.length) :
    self.selectTransferIndices confidence active k <+~ active ∧
    (self.selectTransferIndices confidence active k).length = k := by
  unfold selectTransferIndices
  split
  · next hzero => exact ⟨nil_subperm, hzero.symm⟩
  split
  · exact self.topk_spec _ _ _ hk
  · have hperm := self.randperm_perm active
    exact ⟨(take_sublist _ _).subperm.trans hperm.subperm,
      by rw [length_take, hperm.length_eq, min_eq_left hk]⟩
  · exact ⟨(take_sublist _ _).subperm, length_take.trans (min_eq_left hk)⟩

/-- **A step commits its budget if and only if the policy is `leftmost`, or the threshold or the
even schedule happens to come to the same number.** -/
theorem selected_budget_iff {step k : Nat} (hstep : step < self.maxSteps)
    (hk : self.tokensPerStep = some k) (genStart : Nat) (ids : List TokenId)
    (confidence : Nat → ℚ) : let active := self.activeMask genStart ids
    self.selected step genStart ids confidence <+~ active ∧
    ((self.selected step genStart ids confidence).length = min k active.length ↔
    self.selectionPolicy = .leftmost ∨
      (∃ threshold, self.threshold = some threshold ∧
        min (max 1 (active.countP (threshold ≤ confidence ·))) active.length =
        min k active.length) ∨
      self.threshold = none ∧
        min
        (active.length / (self.maxSteps - step) + if 0 < active.length % (self.maxSteps - step) then
        1 else 0)
        active.length = min k active.length) := by
  intro active
  obtain ⟨hsub, hlength⟩ := @selectTransferIndices_spec self confidence active _ (min_le_right _ _)
  refine ⟨hsub, ?_⟩
  rw [selected, budget, hlength, hk]
  by_cases hleft : self.selectionPolicy = .leftmost
  · simp [hleft, active]
  · rw [if_neg hleft]
    cases hthreshold : self.threshold with
    | none =>
      -- the even schedule begins with the masks by the steps, rounded up
      simp only [getNumTransferTokens, getElem?_map, getElem?_range (Nat.sub_pos_of_lt hstep)]
      simp [hleft, active]
    | some threshold => simp [hleft, active]

def twoPerStep (policy : SelectionPolicy) : Reveal :=
  ⟨9, none, 4, policy, none, some 2, fun _ => rfl, fun _ active k => active.take k,
    fun _ _ _ hk => ⟨(take_sublist _ _).subperm, length_take.trans (min_eq_left hk)⟩, id, .refl⟩

theorem selected_budget_leftmost :
    ((twoPerStep .leftmost).selected 1 0 [5, 9, 9, 9] 0).length = 2 :=
  (@selected_budget_iff (twoPerStep .leftmost) 1 2 (by decide) rfl 0 [5, 9, 9, 9] 0).2.mpr
    (.inl rfl)

/-- One token of four is committed in the first of four steps, not the two that were asked for. -/
theorem budget_of_two_ignored : ((twoPerStep .random).selected 0 0 [9, 9, 9, 9] 0).length = 1 ∧
    min 2 ((twoPerStep .random).activeMask 0 [9, 9, 9, 9]).length = 2 := by
  decide

/-- How many positions each of the last `left` steps commits, as long as no end of sequence comes
up. -/
def commits (self : Reveal) (confidence : Nat → Nat → ℚ) :
    (left : Nat) → (active : List Nat) → List Nat
  | 0, _ => []
  | left + 1, active =>
    let step := self.maxSteps - (left + 1)
    let topIdx :=
      self.selectTransferIndices (confidence step) active
      (self.budget step (confidence step) active)
    topIdx.length :: self.commits confidence left (active.diff topIdx)

/-- **The budgets computed anew in each step make up the even schedule.** -/
theorem commits_eq_schedule (hpolicy : self.selectionPolicy ≠ .leftmost)
    (hthreshold : self.threshold = none) (confidence : Nat → Nat → ℚ) {left : Nat}
    (hleft : left ≤ self.maxSteps) (active : List Nat) :
    self.commits confidence left active = getNumTransferTokens active.length left := by
  induction left generalizing active with
  | zero => rfl
  | succ left ih =>
    obtain ⟨k, hk, hschedule⟩ := getNumTransferTokens_succ active.length left
    set step := self.maxSteps - (left + 1) with hstep
    have hbudget : self.budget step (confidence step) active = k := by
      simp [budget, hpolicy, hthreshold,
        show self.maxSteps - step = left + 1 by omega, hschedule, hk]
    obtain ⟨hsub, hlength⟩ := @selectTransferIndices_spec self (confidence step) active k hk
    have hperm := (subperm_append_diff_self_of_count_le fun i _ => hsub.count_le i).length_eq
    rw [length_append, hlength] at hperm
    rw [hschedule, commits, ← hstep, hbudget, ih (by omega), hlength, ← hperm,
      Nat.add_sub_cancel_left]

/-- The positions that each of the last `left` steps on a block selects. -/
def reveals (self : Reveal) (genStart : Nat) (confidence : Nat → Nat → ℚ)
    (x0 : Nat → Nat → TokenId) :
    (left : Nat) → (ids : List TokenId) → List (List Nat)
  | 0, _ => []
  | left + 1, ids =>
    let step := self.maxSteps - (left + 1)
    self.selected step genStart ids (confidence step) ::
      self.reveals genStart confidence x0 left
        (self.place step genStart ids (confidence step) (x0 step)).1

/-- No end of sequence was generated. -/
def Unended (self : Reveal) (genStart : Nat) (ids : List TokenId) : Prop :=
  ∀ eos ∈ self.eosId, ∀ i, genStart ≤ i → ids[i]? ≠ some eos

section Unended
variable {genStart : Nat} {ids : List TokenId} {x0 : Nat → TokenId}

lemma Unended.activeMask (h : self.Unended genStart ids) :
    self.activeMask genStart ids = (range ids.length).filter fun i =>
    ids[i]? = some self.maskId := by
  have hnone : ((range ids.length).find? fun i =>
      genStart ≤ i ∧ ids[i]? = self.eosId ∧ ids[i]? ≠ some self.maskId) = none := by
    refine find?_eq_none.mpr fun i hi htrue => ?_
    obtain ⟨hle, heos, -⟩ := of_decide_eq_true htrue
    rw [getElem?_eq_getElem (mem_range.mp hi)] at heos
    exact h _ heos.symm i hle (getElem?_eq_getElem (mem_range.mp hi))
  unfold Reveal.activeMask
  rw [hnone]
  simp

variable (hx0 : ∀ i, x0 i ≠ self.maskId ∧ some (x0 i) ≠ self.eosId)
include hx0

/-- A step that commits no end of sequence writes its tokens to the selected positions. -/
lemma Unended.place (h : self.Unended genStart ids) (hactive : self.activeMask genStart ids ≠ [])
    (step : Nat) (confidence : Nat → ℚ) :
    let topIdx := self.selected step genStart ids confidence
    (self.place step genStart ids confidence x0).1 = ids.mapIdx
      (fun i id => if i ∈ topIdx then x0 i else id) ∧
      self.Unended genStart (self.place step genStart ids confidence x0).1 := by
  intro topIdx
  have hunended :
      self.Unended genStart (ids.mapIdx fun i id => if i ∈ topIdx then x0 i else id) := by
    intro eos heos i hle hget
    obtain ⟨id, hid, heq⟩ := Option.map_eq_some_iff.mp (getElem?_mapIdx.symm.trans hget)
    split at heq
    · exact (hx0 i).2 (heq ▸ heos.symm)
    · exact h eos heos i hle (heq ▸ hid)
  have hplace : (self.place step genStart ids confidence x0).1 = ids.mapIdx fun i id =>
      if i ∈ topIdx then x0 i else id := by
    have hno : ¬∃ i ∈ topIdx, genStart ≤ i ∧ ∃ eos ∈ self.eosId,
        (ids.mapIdx fun i id => if i ∈ topIdx then x0 i else id)[i]? = some eos := by
      rintro ⟨i, -, hle, eos, heos, hget⟩
      exact hunended eos heos i hle hget
    simp only [Reveal.place, if_neg hactive]
    exact if_neg hno
  exact ⟨hplace, hplace ▸ hunended⟩

/-- What is active after such a step is what it did not select. -/
lemma Unended.activeMask_place (h : self.Unended genStart ids)
    (hactive : self.activeMask genStart ids ≠ []) (step : Nat) (confidence : Nat → ℚ) :
    self.activeMask genStart (self.place step genStart ids confidence x0).1 =
      (self.activeMask genStart ids).diff (self.selected step genStart ids confidence) := by
  obtain ⟨hplace, hunended⟩ := h.place hx0 hactive step confidence
  have hnodup : (self.activeMask genStart ids).Nodup := nodup_range.filter _
  rw [hnodup.sdiff_eq_filter, hunended.activeMask, h.activeMask, hplace,
    length_mapIdx, filter_filter]
  refine filter_congr fun i _ => ?_
  rw [getElem?_mapIdx]
  by_cases hi : i ∈ self.selected step genStart ids confidence
  · simp [hi, (hx0 i).1]
  · simp [hi]

end Unended

/-- The steps on a block commit as many positions as `commits` counts, as long as no end of sequence
comes up. -/
lemma map_length_reveals {genStart : Nat} {x0 : Nat → Nat → TokenId}
    (hx0 : ∀ step i, x0 step i ≠ self.maskId ∧ some (x0 step i) ≠ self.eosId)
    (confidence : Nat → Nat → ℚ) (left : Nat) {ids : List TokenId} (h : self.Unended genStart ids) :
    (self.reveals genStart confidence x0 left ids).map length =
      self.commits confidence left (self.activeMask genStart ids) := by
  induction left generalizing ids with
  | zero => rfl
  | succ left ih =>
    rw [reveals, commits, map_cons]
    by_cases hactive : self.activeMask genStart ids = []
    · -- a block without active masks stays as it is
      have hplace : ∀ step confidence x0, (self.place step genStart ids confidence x0).1 = ids :=
        fun _ _ _ => by
        rw [place, if_pos hactive]
      rw [hplace, ih h, selected, hactive]
      simp [budget, selectTransferIndices]
    · rw [ih (h.place (hx0 _) hactive _ _).2, h.activeMask_place (hx0 _) hactive]
      rfl

theorem commits_six_in_four : (twoPerStep .random).commits 0 4 [1, 2, 3, 5, 6, 7] = [2, 2, 1, 1] :=
  commits_eq_schedule (by decide) rfl 0 (by decide) _

end Reveal

end Sglang.Dllm
