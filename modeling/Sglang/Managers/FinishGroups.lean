import Sglang.Managers.CheckFinished

/-! Finish detection and the grouping of tokens.

The checks of `check_finished` look at a whole group of accepted tokens, one kind of end after the
other: first the length limit, then stop tokens, then tokens outside the vocabulary. One token at a
time the end that comes first in the output wins. The two agree exactly if, in the group that ends
the output, no end of a kind that is looked for later stands before the one that is found. -/
namespace Sglang.Managers

open List Option OutputReq FinishReason

namespace OutputReq

section
variable (r : OutputReq)

/-- Whether a token is one the output stops at. -/
def stops (tokenId : Int) : Bool := !r.samplingParams.ignoreEos && r.isStopToken tokenId

/-- Whether a token ends the output. -/
def ends (tokenId : Int) : Bool := r.stops tokenId || r.outOfVocab tokenId

/-- Nothing is generated yet, and only tokens and the length end the output. -/
structure Fresh (r : OutputReq) : Prop where
  stopStrs : r.samplingParams.stopStrs = []
  stopRegexStrs : r.samplingParams.stopRegexStrs = []
  grammar : r.grammar = none
  toFinish : r.toFinish = none
  outputIds : r.outputIds = []
  finishedReason : r.finishedReason = none
  finishedLen : r.finishedLen = none

/-- Whether a group ends the output. -/
def Ends (out group : List Int) : Prop :=
  r.samplingParams.maxNewTokens ≤ out.length + group.length ∨ ∃ t ∈ group, r.ends t

/-- In a group that reaches the length limit nothing ends the output before; in one that does not,
no token before the first stop token is outside the vocabulary. -/
def EndsInOrder (out group : List Int) : Prop :=
  if r.samplingParams.maxNewTokens ≤ out.length + group.length then
    ∀ t ∈ group.take (r.samplingParams.maxNewTokens - 1 - out.length), ¬r.ends t
  else ∀ i, group.findIdx? r.stops = some i → ∀ t ∈ group.take i, ¬r.outOfVocab t

end

/-- The first group that ends the output does so in order. -/
def InOrder (r : OutputReq) : List Int → List (List Int) → Prop
  | _, [] => True
  | out, group :: groups =>
    (r.Ends out group → r.EndsInOrder out group) ∧
      (¬r.Ends out group → r.InOrder (out ++ group) groups)

instance (r : OutputReq) (out group : List Int) : Decidable (r.Ends out group) :=
  inferInstanceAs (Decidable (_ ∨ ∃ t ∈ group, _))

instance (r : OutputReq) (out group : List Int) : Decidable (r.EndsInOrder out group) :=
  if h : r.samplingParams.maxNewTokens ≤ out.length + group.length then
    decidable_of_iff ((group.take (r.samplingParams.maxNewTokens - 1 - out.length)).all (!r.ends ·))
      (by simp [EndsInOrder, if_pos h])
  else
    decidable_of_iff ((group.findIdx? r.stops).all fun i => (group.take i).all (!r.outOfVocab ·))
      (by cases hi : group.findIdx? r.stops <;> simp [EndsInOrder, if_neg h, hi])

instance decidableInOrder (r : OutputReq) :
    ∀ (out : List Int) (groups : List (List Int)), Decidable (r.InOrder out groups)
  | _, [] => inferInstanceAs (Decidable True)
  | out, group :: groups =>
    have := decidableInOrder r (out ++ group) groups
    inferInstanceAs (Decidable ((_ → _) ∧ (_ → _)))

/-- An unfinished request that went on from a fresh one. -/
structure Open (r : OutputReq) : Prop where
  stopStrs : r.samplingParams.stopStrs = []
  stopRegexStrs : r.samplingParams.stopRegexStrs = []
  grammar : r.grammar = none
  toFinish : r.toFinish = none
  finishedReason : r.finishedReason = none
  finishedLen : r.finishedLen = none
  quiet : ∀ t ∈ r.outputIds, ¬r.stops t
  short : r.outputIds.length ≤ r.samplingParams.maxNewTokens

/-- The request with some more output. -/
def extend (r : OutputReq) (ts : List Int) : OutputReq := {r with outputIds := r.outputIds ++ ts}

/-- What a group of tokens does to an unfinished request. -/
def after (r : OutputReq) (group : List Int) : OutputReq :=
  if r.samplingParams.maxNewTokens ≤ r.outputIds.length + group.length then
    { r.extend group with
      finishedReason := some (.length r.samplingParams.maxNewTokens)
      finishedLen := some r.samplingParams.maxNewTokens }
  else
    match group.findIdx? r.stops with
    | some i =>
      { r.extend group with
        finishedReason := some (.matchedToken (group.getD i 0))
        finishedLen := some (r.outputIds.length + i + 1) }
    | none =>
      match group.findIdx? r.outOfVocab with
      | some i =>
        { r.extend group with
          outputIds :=
            (r.outputIds ++ group).set (r.outputIds.length + i) (r.replacement (group.getD i 0))
          finishedReason := some (.matchedStr "NaN happened".toList)
          finishedLen := some (r.outputIds.length + i + 1) }
      | none => r.extend group

variable {r : OutputReq} {group a b : List Int} {t : Int}

lemma lastTokens_append (out : List Int) (hne : group ≠ []) :
    lastTokens (out ++ group) group.length = group := by
  rw [lastTokens, if_neg (by simpa using hne), length_append, Nat.add_sub_cancel, drop_left]

lemma checkTokenBasedFinish_eq (r : OutputReq) (group : List Int) :
    r.checkTokenBasedFinish group = (group.findIdx? r.stops).map fun i =>
      { r with
        finishedReason := some (.matchedToken (group.getD i 0))
        finishedLen := some (r.outputIds.length - group.length + i + 1) } := by
  unfold checkTokenBasedFinish
  split
  · next hignore =>
    have hnone : group.findIdx? r.stops = none :=
      findIdx?_eq_none_iff.mpr fun t _ => by simp [stops, hignore]
    rw [hnone]
    rfl
  · next hignore =>
    rw [show r.stops = r.isStopToken from funext fun t => by simp [stops, hignore]]

lemma checkNewTokens_eq (hs : r.hasStopStr = false) (hr : r.finishedReason = none) :
    r.checkNewTokens group = some (
    match group.findIdx? r.stops with
    | some i =>
      { r with
        finishedReason := some (.matchedToken (group.getD i 0))
        finishedLen := some (r.outputIds.length - group.length + i + 1) }
    | none =>
      match group.findIdx? r.outOfVocab with
      | some i =>
        { r with
          outputIds :=
            r.outputIds.set (r.outputIds.length - group.length + i) (r.replacement (group.getD i 0))
          finishedReason := some (.matchedStr "NaN happened".toList)
          finishedLen := some (r.outputIds.length - group.length + i + 1) }
      | none => r) := by
  have hstr : r.checkStrBasedFinish = some none := by rw [checkStrBasedFinish, hs]; rfl
  unfold checkNewTokens
  rw [checkTokenBasedFinish_eq]
  cases group.findIdx? r.stops with
  | some i => rfl
  | none =>
    simp only [map_none, checkVocabBoundaryFinish, hstr]
    cases group.findIdx? r.outOfVocab with
    | some i => rfl
    | none => simp [← hr]

lemma checkFinished_eq (hreason : r.finishedReason = none) (htoFinish : r.toFinish = none)
    (hgrammar : r.grammar = none) (n : Nat) : r.checkFinished n =
      if r.samplingParams.maxNewTokens ≤ r.outputIds.length then
        some { r with
          finishedReason := some (.length r.samplingParams.maxNewTokens)
          finishedLen := some r.samplingParams.maxNewTokens }
      else r.checkNewTokens (lastTokens r.outputIds n) := by
  have hg : r.grammarTerminated = false := by simp [grammarTerminated, hgrammar]
  unfold checkFinished
  rw [if_neg (by rw [hreason]; exact Bool.false_ne_true),
    if_neg (by rw [htoFinish]; exact Bool.false_ne_true), hg]
  rfl

lemma Open.accept (hr : r.Open) (hne : group ≠ []) : r.accept group = some (r.after group) := by
  have hs : (r.extend group).hasStopStr = false := by
    simp [hasStopStr, extend, hr.stopStrs, hr.stopRegexStrs]
  have hlen : (r.extend group).outputIds.length = r.outputIds.length + group.length := length_append
  have hlast : lastTokens (r.extend group).outputIds group.length = group := lastTokens_append _ hne
  show (r.extend group).checkFinished group.length = _
  rw [@checkFinished_eq (r.extend group) hr.finishedReason hr.toFinish hr.grammar,
    hlast, checkNewTokens_eq hs hr.finishedReason,
    hlen, Nat.add_sub_cancel, after]
  exact (apply_ite some _ _ _).symm

lemma acceptAll_finished (hr : r.finishedReason.isSome) (groups : List (List Int)) :
    r.acceptAll groups = some (r.extend groups.flatten) := by
  induction groups generalizing r with
  | nil => simp [acceptAll, extend]
  | cons group groups ih =>
    have haccept : r.accept group = some (r.extend group) := by
      exact if_pos hr
    show (r.accept group).bind _ = _
    rw [haccept, bind_some]
    refine (@ih (r.extend group) hr).trans ?_
    simp [extend]

/-- The tokens of a group taken one by one. -/
def acceptSingly (r : OutputReq) (group : List Int) : Option OutputReq :=
  r.acceptAll (group.map ([·]))

lemma acceptSingly_append (r : OutputReq) (a b : List Int) :
    r.acceptSingly (a ++ b) = (r.acceptSingly a).bind (·.acceptSingly b) := by
  rw [acceptSingly, map_append, acceptAll, foldlM_append]
  rfl

lemma Open.extend (hr : r.Open) (hquiet : ∀ t ∈ a, ¬r.ends t)
    (hlen : r.outputIds.length + a.length ≤ r.samplingParams.maxNewTokens) : (r.extend a).Open := by
  refine { hr with quiet := ?_, short := ?_ }
  · intro t ht
    obtain ht | ht := mem_append.mp ht
    · exact hr.quiet t ht
    · intro hstops
      exact hquiet t ht (by rw [ends, show r.stops t = true from hstops, Bool.true_or])
  · exact length_append.trans_le hlen

lemma after_quiet (hquiet : ∀ t ∈ group, ¬r.ends t)
    (hlen : r.outputIds.length + group.length < r.samplingParams.maxNewTokens) :
    r.after group = r.extend group := by
  have hstops : group.findIdx? r.stops = none := findIdx?_eq_none_iff.mpr fun t ht => by
    have := hquiet t ht
    simp only [ends, Bool.or_eq_true, not_or, Bool.not_eq_true] at this
    exact this.1
  have hvocab : group.findIdx? r.outOfVocab = none := findIdx?_eq_none_iff.mpr fun t ht => by
    have := hquiet t ht
    simp only [ends, Bool.or_eq_true, not_or, Bool.not_eq_true] at this
    exact this.2
  rw [after, if_neg (by omega), hstops]
  simp only [hvocab]

section
variable (hr : r.Open) (hquiet : ∀ t ∈ a, ¬r.ends t)
  (hlen : a = [] ∨ r.outputIds.length + a.length < r.samplingParams.maxNewTokens)
include hr hquiet hlen

lemma Open.acceptSingly_quiet : r.acceptSingly a = some (r.extend a) := by
  induction a generalizing r with
  | nil => simp [acceptSingly, acceptAll, OutputReq.extend]
  | cons t a ih =>
    obtain ⟨ht, ha⟩ := forall_mem_cons.mp hquiet
    have hlen := hlen.resolve_left (cons_ne_nil _ _)
    rw [length_cons] at hlen
    have hone : r.accept [t] = some (r.extend [t]) := by
      rw [hr.accept (cons_ne_nil _ _), after_quiet (forall_mem_singleton.mpr ht) (by simp; omega)]
    have hopen : (r.extend [t]).Open := hr.extend (forall_mem_singleton.mpr ht) (by simp; omega)
    show (r.accept [t]).bind _ = _
    rw [hone, bind_some]
    have hlast := ih hopen ha (.inr (by simp [OutputReq.extend]; omega))
    rw [acceptSingly] at hlast
    refine hlast.trans ?_
    simp [OutputReq.extend]

lemma Open.acceptSingly_ends (hend : ((r.extend a).after [t]).finishedReason.isSome) :
    r.acceptSingly (a ++ t :: b) = some (((r.extend a).after [t]).extend b) := by
  have hopen : (r.extend a).Open := by
    refine hr.extend hquiet ?_
    obtain rfl | hlen := hlen
    · exact hr.short
    · exact hlen.le
  rw [acceptSingly_append, hr.acceptSingly_quiet hquiet hlen, bind_some]
  show ((r.extend a).accept [t]).bind _ = _
  rw [hopen.accept (cons_ne_nil _ _), bind_some]
  refine (acceptAll_finished hend _).trans ?_
  rw [← flatMap_def, flatMap_singleton']

end

/-! ### One group -/

lemma split_findIdx? {p : Int → Bool} {i : Nat} (h : group.findIdx? p = some i) :
    ∃ a t b, group = a ++ t :: b ∧ a.length = i ∧ p t = true ∧ ∀ x ∈ a, ¬p x := by
  obtain ⟨hi, ht, hbefore⟩ := findIdx?_eq_some_iff_getElem.mp h
  refine ⟨group.take i, group[i], group.drop (i + 1), ?_, ?_, ht, ?_⟩
  · rw [cons_getElem_drop_succ, take_append_drop]
  · rw [length_take]
    omega
  · intro x hx
    obtain ⟨j, hj, rfl⟩ := mem_iff_getElem.mp hx
    rw [getElem_take]
    exact hbefore j (by rw [length_take] at hj; omega)

lemma after_length (h : r.samplingParams.maxNewTokens ≤ r.outputIds.length + group.length) :
    r.after group = { r.extend group with
      finishedReason := some (.length r.samplingParams.maxNewTokens)
      finishedLen := some r.samplingParams.maxNewTokens } := if_pos h

section
variable (h : ¬r.samplingParams.maxNewTokens ≤ r.outputIds.length + (a ++ t :: b).length)
include h

lemma after_stops (ha : ∀ x ∈ a, ¬r.stops x) (ht : r.stops t) :
    r.after (a ++ t :: b) = { r.extend (a ++ t :: b) with
      finishedReason := some (.matchedToken t)
      finishedLen := some (r.outputIds.length + a.length + 1) } := by
  have hidx : (a ++ t :: b).findIdx? r.stops = some a.length := by
    rw [findIdx?_append, findIdx?_eq_none_iff.mpr fun x hx => by simpa using ha x hx]
    simp [findIdx?_cons, ht]
  rw [after, if_neg h, hidx]
  simp

lemma after_outOfVocab (hstops : ∀ x ∈ a ++ t :: b, ¬r.stops x) (ha : ∀ x ∈ a, ¬r.outOfVocab x)
    (ht : r.outOfVocab t) :
    r.after (a ++ t :: b) = { r.extend (a ++ t :: b) with
      outputIds := r.outputIds ++ a ++ r.replacement t :: b
      finishedReason := some (.matchedStr "NaN happened".toList)
      finishedLen := some (r.outputIds.length + a.length + 1) } := by
  have hnone : (a ++ t :: b).findIdx? r.stops = none :=
    findIdx?_eq_none_iff.mpr fun x hx => by simpa using hstops x hx
  have hidx : (a ++ t :: b).findIdx? r.outOfVocab = some a.length := by
    rw [findIdx?_append, findIdx?_eq_none_iff.mpr fun x hx => by simpa using ha x hx]
    simp [findIdx?_cons, ht]
  have hset : (r.outputIds ++ (a ++ t :: b)).set (r.outputIds.length + a.length) (r.replacement t) =
      r.outputIds ++ a ++ r.replacement t :: b := by
    rw [← append_assoc, set_append_right _ _ (by simp)]
    simp
  rw [after, if_neg h, hnone, hidx]
  simp [hset]

end

lemma not_ends (hs : ¬r.stops t) (hv : ¬r.outOfVocab t) : ¬r.ends t := by
  simp only [ends, Bool.or_eq_true, not_or]
  exact ⟨hs, hv⟩

lemma split_limit (hne : group ≠ [])
    (h : r.samplingParams.maxNewTokens ≤ r.outputIds.length + group.length) :
    ∃ a t b, group = a ++ t :: b ∧ a = group.take
    (r.samplingParams.maxNewTokens - 1 - r.outputIds.length) ∧
      r.samplingParams.maxNewTokens ≤ r.outputIds.length + a.length + 1 ∧
      (a = [] ∨ r.outputIds.length + a.length < r.samplingParams.maxNewTokens) := by
  have hpos := length_pos_of_ne_nil hne
  generalize hk : r.samplingParams.maxNewTokens - 1 - r.outputIds.length = k
  have hlt : k < group.length := by omega
  have hlen : (group.take k).length = k := by rw [length_take]; omega
  refine ⟨group.take k, group[k], group.drop (k + 1), ?_, rfl, by omega, ?_⟩
  · rw [cons_getElem_drop_succ, take_append_drop]
  · rw [← length_eq_zero_iff]
    omega

lemma Open.acceptSingly_eq (hr : r.Open) (hne : group ≠ [])
    (hord : r.EndsInOrder r.outputIds group) :
    r.acceptSingly group = some (r.after group) := by
  unfold EndsInOrder at hord
  split at hord
  · next hlimit =>
    obtain ⟨a, t, b, rfl, ha, hle, hlt⟩ := split_limit hne hlimit
    have hafter := @after_length (r.extend a) [t] (by simpa [OutputReq.extend] using hle)
    rw [hr.acceptSingly_ends (ha ▸ hord) hlt (by rw [hafter]; rfl), hafter, after_length hlimit]
    simp [OutputReq.extend]
  rename_i hlimit
  cases hs : group.findIdx? r.stops with
  | some i =>
    obtain ⟨a, t, b, rfl, rfl, ht, ha⟩ := split_findIdx? hs
    have hvocab : ∀ x ∈ a, ¬r.outOfVocab x := by simpa using hord _ hs
    have hlen : r.outputIds.length + a.length + 1 < r.samplingParams.maxNewTokens := by
      simp at hlimit; omega
    have hafter := @after_stops (r.extend a) [] [] t (by simp [OutputReq.extend]; omega) nofun ht
    rw [nil_append] at hafter
    rw [hr.acceptSingly_ends (fun x hx => not_ends (ha x hx) (hvocab x hx))
      (.inr (by omega)) (by rw [hafter]; rfl), hafter,
      after_stops hlimit ha ht]
    simp [OutputReq.extend]
  | none =>
    have hstops : ∀ x ∈ group, ¬r.stops x :=
      fun x hx => by simpa using findIdx?_eq_none_iff.mp hs x hx
    cases hv : group.findIdx? r.outOfVocab with
    | some i =>
      obtain ⟨a, t, b, rfl, rfl, ht, ha⟩ := split_findIdx? hv
      have hlen : r.outputIds.length + a.length + 1 < r.samplingParams.maxNewTokens := by
        simp at hlimit; omega
      have hafter := @after_outOfVocab (r.extend a) [] [] t (by simp [OutputReq.extend]; omega)
        (forall_mem_singleton.mpr (hstops t (by simp))) nofun ht
      rw [nil_append] at hafter
      rw [hr.acceptSingly_ends (fun x hx => not_ends (hstops x (by simp [hx])) (ha x hx))
        (.inr (by omega))
        (by rw [hafter]; rfl), hafter, after_outOfVocab hlimit hstops ha ht]
      simp [OutputReq.extend, replacement]
    | none =>
      have hquiet : ∀ x ∈ group, ¬r.ends x := fun x hx =>
        not_ends (hstops x hx) (by simpa using findIdx?_eq_none_iff.mp hv x hx)
      rw [hr.acceptSingly_quiet hquiet (.inr (by omega)), after_quiet hquiet (by omega)]

lemma finishedReason_after_singleton (hlen : r.outputIds.length + 1 < r.samplingParams.maxNewTokens)
    (ht : r.ends t) :
    (r.after [t]).finishedReason = some (if r.stops t then
    .matchedToken t else .matchedStr "NaN happened".toList) := by
  have hlimit : ¬r.samplingParams.maxNewTokens ≤ r.outputIds.length + ([] ++ [t]).length := by
    simp; omega
  by_cases hs : r.stops t
  · rw [if_pos hs, show [t] = [] ++ [t] from rfl, after_stops hlimit nofun hs]
  · have hv : r.outOfVocab t := by simpa [ends, hs] using ht
    rw [if_neg hs, show [t] = [] ++ [t] from rfl,
      after_outOfVocab hlimit (forall_mem_singleton.mpr hs) nofun hv]

lemma Open.acceptSingly_first (hr : r.Open) {l : List Int}
    (hlen : r.outputIds.length + l.length < r.samplingParams.maxNewTokens)
    (hl : ∃ t ∈ l, r.ends t) : ∃ t r',
    t ∈ l ∧ r.ends t ∧ r.acceptSingly (l ++ b) = some r' ∧
      r'.finishedReason = some (if r.stops t then
      .matchedToken t else .matchedStr "NaN happened".toList) := by
  obtain ⟨i, hi⟩ : ∃ i, l.findIdx? r.ends = some i := by
    refine isSome_iff_exists.mp ?_
    rw [findIdx?_isSome]
    simpa using hl
  obtain ⟨a, t, b', rfl, rfl, ht, ha⟩ := split_findIdx? hi
  rw [length_append, length_cons] at hlen
  have hreason :=
    @finishedReason_after_singleton (r.extend a) t (by simp [OutputReq.extend]; omega) ht
  refine ⟨t, ((r.extend a).after [t]).extend (b' ++ b), by simp, ht, ?_, hreason⟩
  rw [append_assoc, cons_append]
  exact hr.acceptSingly_ends ha (.inr (by omega)) (by rw [hreason]; rfl)

lemma finished_after (hends : r.Ends r.outputIds group) :
    (r.after group).finishedReason.isSome := by
  unfold after
  split
  · rfl
  rename_i hlimit
  obtain ⟨t, ht, hend⟩ := hends.resolve_left hlimit
  split
  · rfl
  rename_i hs
  split
  · rfl
  · next hv =>
    have hs := findIdx?_eq_none_iff.mp hs t ht
    have hv := findIdx?_eq_none_iff.mp hv t ht
    simp [ends, hs, hv] at hend

lemma Open.kind_ne (hr : r.Open) (hord : ¬r.EndsInOrder r.outputIds group) : ∃ r',
    r.acceptSingly group = some r' ∧ r'.finishedReason.isSome ∧
      (r.after group).finishedReason.map kind ≠ r'.finishedReason.map kind := by
  unfold EndsInOrder at hord
  split at hord
  · next hlimit =>
    push Not at hord
    obtain ⟨t, ht, hend⟩ := hord
    have hlen : (group.take (r.samplingParams.maxNewTokens - 1 - r.outputIds.length)).length ≤
      r.samplingParams.maxNewTokens - 1 - r.outputIds.length := length_take_le _ _
    have hpos := length_pos_of_mem ht
    obtain ⟨u, r', _, _, hsingly, hreason⟩ :=
      @Open.acceptSingly_first r (group.drop _) hr _ (by omega) ⟨t, ht, hend⟩
    rw [take_append_drop] at hsingly
    refine ⟨r', hsingly, by rw [hreason]; rfl, ?_⟩
    rw [after_length hlimit, hreason]
    split <;> exact fun h => by cases h
  · next hlimit =>
    push Not at hord
    obtain ⟨i, hi, t, ht, hvocab⟩ := hord
    obtain ⟨a, u, b, rfl, rfl, hu, ha⟩ := split_findIdx? hi
    rw [take_left] at ht
    have hlen : r.outputIds.length + a.length < r.samplingParams.maxNewTokens := by
      simp at hlimit; omega
    obtain ⟨v, r', hv, _, hsingly, hreason⟩ :=
      @Open.acceptSingly_first r (u :: b) hr a hlen ⟨t, ht, by simp [ends, hvocab]⟩
    rw [if_neg (ha v hv)] at hreason
    refine ⟨r', hsingly, by rw [hreason]; rfl, ?_⟩
    rw [after_stops hlimit ha hu, hreason]
    exact fun h => by cases h

/-! ### What is returned -/

/-- The output of `r'` stays within the limits of `r`: no more tokens than asked for, and none after
a stop token. -/
def WithinLimits (r r' : OutputReq) : Prop :=
  r'.outputIdsThroughStop.length ≤ r.samplingParams.maxNewTokens ∧
    ∀ t ∈ r'.outputIdsThroughStop.dropLast, ¬r.stops t

lemma mem_take_of_mem_dropLast {l : List Int} {n : Nat} (h : t ∈ (l.take n).dropLast) :
    t ∈ l.take (n - 1) := by
  rw [dropLast_eq_take, take_take] at h
  refine take_subset_take_left _ ?_ h
  rw [length_take]
  omega

lemma withinLimits_of_take {r' : OutputReq} {l : List Int} (hr : r.Open) (ha : ∀ x ∈ a, ¬r.stops x)
    (hlen : r.outputIds.length + a.length < r.samplingParams.maxNewTokens)
    (hout : r'.outputIds = r.outputIds ++ a ++ t :: l)
    (hfin : r'.finishedLen = some (r.outputIds.length + a.length + 1)) :
    r.WithinLimits r' := by
  have hthrough : r'.outputIdsThroughStop = r.outputIds ++ a ++ [t] := by
    rw [outputIdsThroughStop, hfin, hout]
    rw [append_cons _ t l]
    exact take_left' (by simp [Nat.add_assoc])
  unfold WithinLimits
  rw [hthrough, dropLast_concat]
  refine ⟨by simp; omega, fun x hx => ?_⟩
  obtain hx | hx := mem_append.mp hx
  · exact hr.quiet x hx
  · exact ha x hx

/-- The state a group leaves in order is within the limits, whatever is accepted after the end. -/
lemma Open.withinLimits_after (hr : r.Open) (hends : r.Ends r.outputIds group)
    (hord : r.EndsInOrder r.outputIds group) (l : List Int) :
    r.WithinLimits ((r.after group).extend l) := by
  unfold EndsInOrder at hord
  split at hord
  · next hlimit =>
    have hthrough : ((r.after group).extend l).outputIdsThroughStop =
        (r.outputIds ++ (group ++ l)).take r.samplingParams.maxNewTokens := by
      rw [after_length hlimit, ← append_assoc]
      rfl
    unfold WithinLimits
    rw [hthrough]
    refine ⟨length_take_le _ _, fun t ht => ?_⟩
    have ht := mem_take_of_mem_dropLast ht
    rw [take_append, take_append_of_le_length (by omega)] at ht
    obtain ht | ht := mem_append.mp ht
    · exact hr.quiet t (mem_of_mem_take ht)
    · intro hstops
      exact hord t ht (by simp [ends, hstops])
  · next hlimit =>
    cases hs : group.findIdx? r.stops with
    | some i =>
      obtain ⟨a, t, b, rfl, rfl, ht, ha⟩ := split_findIdx? hs
      rw [after_stops hlimit ha ht]
      refine withinLimits_of_take hr ha (by simp at hlimit; omega) (t := t) (l := b ++ l) ?_ rfl
      simp [OutputReq.extend]
    | none =>
      have hstops : ∀ x ∈ group, ¬r.stops x :=
        fun x hx => by simpa using findIdx?_eq_none_iff.mp hs x hx
      cases hv : group.findIdx? r.outOfVocab with
      | some i =>
        obtain ⟨a, t, b, rfl, rfl, ht, ha⟩ := split_findIdx? hv
        rw [after_outOfVocab hlimit hstops ha ht]
        refine withinLimits_of_take hr (fun x hx => hstops x (by simp [hx]))
          (by simp at hlimit; omega)
          (t := r.replacement t) (l := b ++ l) ?_ rfl
        simp [OutputReq.extend]
      | none =>
        obtain hend | ⟨t, ht, hend⟩ := hends
        · exact absurd hend hlimit
        · have hv := findIdx?_eq_none_iff.mp hv t ht
          simp [ends, hstops t ht, hv] at hend

lemma Open.withinLimits (hr : r.Open) : r.WithinLimits r := by
  have hthrough : r.outputIdsThroughStop = r.outputIds := by
    rw [outputIdsThroughStop, hr.finishedLen]
  unfold WithinLimits
  rw [hthrough]
  exact ⟨hr.short, fun t ht => hr.quiet t (dropLast_subset _ ht)⟩

/-! ### Whole outputs -/

lemma inOrder_extend (r : OutputReq) (ts out : List Int) (groups : List (List Int)) :
    (r.extend ts).InOrder out groups ↔ r.InOrder out groups := by
  induction groups generalizing out with
  | nil => exact Iff.rfl
  | cons group groups ih => exact and_congr Iff.rfl (imp_congr_right fun _ => ih _)

/-- In order the two ways of accepting end in one state, out of order with different kinds of end.
-/
lemma Open.groups (hr : r.Open) {groups : List (List Int)} (hne : ∀ g ∈ groups, g ≠ []) : ∃ r1 r2,
    r.acceptAll groups = some r1 ∧ r.acceptSingly groups.flatten = some r2 ∧
      (r.InOrder r.outputIds groups ∧ r1 = r2 ∧ r.WithinLimits r1 ∨ ¬r.InOrder r.outputIds groups ∧
        r1.finishedReason.map kind ≠ r2.finishedReason.map kind) := by
  induction groups generalizing r with
  | nil => exact ⟨r, r, rfl, rfl, .inl ⟨trivial, rfl, hr.withinLimits⟩⟩
  | cons group groups ih =>
    obtain ⟨hgroup, hgroups⟩ := forall_mem_cons.mp hne
    have hcons : r.acceptAll (group :: groups) = (r.after group).acceptAll groups := by
      show (r.accept group).bind _ = _
      rw [hr.accept hgroup]
      rfl
    rw [hcons, flatten_cons, acceptSingly_append]
    by_cases hends : r.Ends r.outputIds group
    · have hfin := finished_after hends
      have hiff : r.InOrder r.outputIds (group :: groups) ↔ r.EndsInOrder r.outputIds group :=
        ⟨fun h => h.1 hends, fun h => ⟨fun _ => h, fun hno => absurd hends hno⟩⟩
      rw [acceptAll_finished hfin, hiff]
      by_cases hord : r.EndsInOrder r.outputIds group
      · rw [hr.acceptSingly_eq hgroup hord, bind_some, acceptSingly, acceptAll_finished hfin,
          ← flatMap_def, flatMap_singleton']
        exact ⟨_, _, rfl, rfl, .inl ⟨hord, rfl, hr.withinLimits_after hends hord _⟩⟩
      · obtain ⟨r', hsingly, hfin', hkind⟩ := hr.kind_ne hord
        rw [hsingly, bind_some, acceptSingly, acceptAll_finished hfin']
        exact ⟨_, _, rfl, rfl, .inr ⟨hord, hkind⟩⟩
    · have hiff : r.InOrder r.outputIds (group :: groups) ↔
          r.InOrder (r.outputIds ++ group) groups :=
        ⟨fun h => h.2 hends, fun h => ⟨fun hyes => absurd hyes hends, fun _ => h⟩⟩
      obtain ⟨hlen, hquiet⟩ := not_or.mp hends
      have hquiet : ∀ t ∈ group, ¬r.ends t := fun t ht hend => hquiet ⟨t, ht, hend⟩
      rw [hr.acceptSingly_quiet hquiet (.inr (by omega)), bind_some, after_quiet hquiet (by omega),
        hiff]
      rw [← inOrder_extend r group]
      exact ih (hr.extend hquiet (by omega)) hgroups

lemma Fresh.isOpen (hr : r.Fresh) : r.Open := by
  refine { hr with quiet := ?_, short := ?_ }
  · rw [hr.outputIds]
    nofun
  · rw [hr.outputIds]
    exact Nat.zero_le _

/-- **Groups against single tokens.** Accepting an output in groups returns what accepting it token
by token returns, with the same kind of end and nothing after a stop token or beyond the limit,
exactly if the group that ends the output does so in order. -/
theorem groups_iff_inOrder (hr : r.Fresh) {groups : List (List Int)} (hne : ∀ g ∈ groups, g ≠ []) :
    ∃ r₁ r₂,
    r.acceptAll groups = some r₁ ∧ r.acceptAll (groups.flatten.map ([·])) = some r₂ ∧
      (r₁.outputIdsThroughStop = r₂.outputIdsThroughStop ∧
      r₁.finishedReason.map kind = r₂.finishedReason.map kind ∧
          r₁.outputIdsThroughStop.length ≤ r.samplingParams.maxNewTokens ∧
          (∀ t ∈ r₁.outputIdsThroughStop.dropLast, ¬r.stops t) ↔ r.InOrder [] groups) := by
  obtain ⟨r₁, r₂, h1, h2, hcases⟩ := hr.isOpen.groups hne
  rw [hr.outputIds] at hcases
  refine ⟨r₁, r₂, h1, h2, ?_⟩
  obtain ⟨hord, rfl, hlen, hstops⟩ | ⟨hord, hkind⟩ := hcases
  · exact ⟨fun _ => hord, fun _ => ⟨rfl, rfl, hlen, hstops⟩⟩
  · exact ⟨fun h => absurd h.2.1 hkind, fun h => absurd h hord⟩

/-- A request for at most four tokens that stops at token 2. -/
def stopAtTwo : OutputReq where
  samplingParams := {maxNewTokens := 4}
  eosTokenIds := [2]
  vocabSize := 100

/-- The stop token comes with tokens after it, before the limit. -/
theorem groups_iff_inOrder_stop : ∃ r₁ r₂,
    stopAtTwo.acceptAll [[5], [2, 6]] = some r₁ ∧ stopAtTwo.acceptAll [[5], [2], [6]] = some r₂ ∧
      r₁.outputIdsThroughStop = r₂.outputIdsThroughStop := by
  obtain ⟨r₁, r₂, h1, h2, hiff⟩ :=
    @groups_iff_inOrder stopAtTwo ⟨rfl, rfl, rfl, rfl, rfl, rfl, rfl⟩ [[5], [2, 6]] (by decide)
  exact ⟨r₁, r₂, h1, h2, (hiff.mpr (by decide)).1⟩

/-- A group that holds a stop token and reaches the limit is returned up to the limit. -/
theorem stop_token_missed : ∃ r₁ r₂,
    stopAtTwo.acceptAll [[5, 2, 6, 7]] = some r₁ ∧ stopAtTwo.acceptAll
    [[5], [2], [6], [7]] = some r₂ ∧
      r₁.outputIdsThroughStop = [5, 2, 6, 7] ∧ r₁.finishedReason = some (.length 4) ∧
      r₂.outputIdsThroughStop = [5, 2] ∧ r₂.finishedReason = some (.matchedToken 2) :=
  ⟨_, _, rfl, rfl, rfl, rfl, rfl, rfl⟩

end OutputReq

end Sglang.Managers
