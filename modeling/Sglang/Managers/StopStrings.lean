import Sglang.Managers.Detokenizer
import Sglang.Managers.FinishGroups

/-! Stop strings.

`check_finished` searches the text of the last few tokens for the stop strings: one token more than
the tokenizer takes to spell the longest of them. The model may spell a stop string with more
tokens, and a group may bring more tokens than are searched; and the length limit and stop tokens
are looked for first, on the whole group. What the client gets is the text through the end, cut at
the first place of the stop string that was matched.

So a stop string is missed or not according to where the first one of the output is complete
(`Timely`): in its group, the length limit or a stop token has to come first, or a stop string has
to begin within the tokens searched, and the one that is matched has to begin before another one
ends.

The decoded text is the texts of the tokens one after the other. -/
namespace Sglang.Managers

open List Option OutputReq

namespace OutputReq

/-- No stop string is in the text. -/
def Clean (stopStrs : List Text) (text : Text) : Prop := ∀ s ∈ stopStrs, ¬s <:+: text

instance (stopStrs : List Text) (text : Text) : Decidable (Clean stopStrs text) :=
  inferInstanceAs (Decidable (∀ s ∈ stopStrs, _))

section
variable (tokenizer : Tokenizer)

/-- The text the client has of a request. -/
def returnedText (gptOss : Bool) (r : OutputReq) : Option Text :=
  (trimMatchedStopIds gptOss r.outputIdsThroughStop r.finishedReason r.samplingParams.noStopTrim).map fun ids =>
    trimMatchedStopText (tokenizer.decode ids) r.finishedReason r.samplingParams.noStopTrim

/-- Groups are accepted until the request is finished. -/
def generate (r : OutputReq) : List (List Int) → Option OutputReq
  | [] => some r
  | group :: groups =>
    if r.finishedReason.isSome then some r else (r.accept group).bind (·.generate groups)

/-- What is asked of a request at any time: with a stop string in its output it is finished, and the
client has text without stop strings. -/
def Heeds (gptOss : Bool) (r : OutputReq) : Prop :=
  (¬Clean r.samplingParams.stopStrs (tokenizer.decode r.outputIds) → r.finishedReason.isSome) ∧
    ∃ text, r.returnedText tokenizer gptOss = some text ∧ Clean r.samplingParams.stopStrs text

/-- The first number up to `bound` for which the text has a stop string in it. -/
def firstStop (stopStrs : List Text) (text : Nat → Text) (bound : Nat) : Option Nat :=
  (range (bound + 1)).find? fun n => ¬Clean stopStrs (text n)

/-- The number of tokens at the end of the output that are searched. -/
def window (r : OutputReq) : Nat :=
  max (r.samplingParams.stopStrMaxLen r.tokenizer + 1) (r.samplingParams.stopRegexMaxLen + 1)

/-- A place of the string begins within the tokens that are searched. -/
def BeginsInWindow (r : OutputReq) (ids : List Int) (s : Text) : Prop :=
  ∃ pos ∈ range ((tokenizer.decode ids).length + 1),
    (tokenizer.decode (ids.take (ids.length - r.window))).length ≤ pos ∧
    s <+: (tokenizer.decode ids).drop pos

instance (r : OutputReq) (ids : List Int) (s : Text) :
    Decidable (r.BeginsInWindow tokenizer ids s) :=
  inferInstanceAs (Decidable (∃ pos ∈ range _, _))

/-- The tokens whose text is searched. -/
def searched (r : OutputReq) (out : List Int) : List Int :=
  lastTokens out
    (min (max (r.samplingParams.stopStrMaxLen r.tokenizer + 1)
    (r.samplingParams.stopRegexMaxLen + 1)) out.length)

/-- Stop tokens that stay in the output. -/
def keepsStopToken (gptOss : Bool) (tokenId : Int) : Bool :=
  decide (tokenId = 0) || (decide (tokenId = 200012) && gptOss)

/-- The number of tokens that the client gets if the length limit or else a stop token of the group
ends the output. -/
def keptTokens (gptOss : Bool) (r : OutputReq) (out group : List Int) : Option Nat :=
  if r.samplingParams.maxNewTokens ≤ out.length + group.length then
    some r.samplingParams.maxNewTokens
  else (group.findIdx? r.stops).map fun i =>
    out.length + if keepsStopToken gptOss (group.getD i 0) then i + 1 else i

/-- Of the tokens in their groups: in the group that completes the first stop string of the text,
unless an earlier group ends the output, the limit or a stop token comes before the token that
completes it. If there is neither, a stop string begins in the window; and the first of the list
that does has its first place in the text before the end of any other. -/
def Timely (tokenizer : Tokenizer) (gptOss : Bool) (r : OutputReq) :
    List Int → List (List Int) → Prop
  | _, [] => True
  | out, group :: groups =>
    let stopStrs := r.samplingParams.stopStrs
    let ids := out ++ group
    let text := tokenizer.decode ids
    match firstStop stopStrs (fun n => tokenizer.decode (ids.take n)) ids.length,
      r.keptTokens gptOss out group with
    | none, none => r.Timely tokenizer gptOss ids groups
    | none, some _ => True
    | some n, some kept => kept < n
    | some _, none =>
      ∃ s pos endPos, (stopStrs.find? fun s => r.BeginsInWindow tokenizer ids s) = some s ∧
        find text s = some pos ∧ firstStop stopStrs text.take text.length = some endPos ∧
        pos < endPos

/-- What `check_finished` does with the groups: a group that ends the output has no stop string
before the end: before the length limit, or else before its stop token, or else before the first
stop string of the list that is found in the text searched. A group that does not end the output
completes no stop string. -/
def Caught (tokenizer : Tokenizer) (gptOss : Bool) (r : OutputReq) :
    List Int → List (List Int) → Prop
  | _, [] => True
  | out, group :: groups =>
    let stopStrs := r.samplingParams.stopStrs
    let text := tokenizer.decode (out ++ group)
    if r.samplingParams.maxNewTokens ≤ out.length + group.length then
      Clean stopStrs (tokenizer.decode ((out ++ group).take r.samplingParams.maxNewTokens))
    else match group.findIdx? r.stops with
      | some i =>
        Clean stopStrs
          (tokenizer.decode
          (out ++ group.take (if keepsStopToken gptOss (group.getD i 0) then i + 1 else i)))
      | none =>
        match stopStrs.find? fun s => s <:+: tokenizer.decode (r.searched (out ++ group)) with
        | some s => ∃ pos, find text s = some pos ∧ Clean stopStrs (text.take pos)
        | none => Clean stopStrs text ∧ r.Caught tokenizer gptOss (out ++ group) groups

/-- A request that waits for stop strings, with the text of its tokens. -/
structure Waits (tokenizer : Tokenizer) (text : Int → Text) (r : OutputReq) : Prop where
  tokenizer_eq : r.tokenizer = some tokenizer
  decode : ∀ ids, tokenizer.decode ids = ids.flatMap text
  stopRegexStrs : r.samplingParams.stopRegexStrs = []
  grammar : r.grammar = none
  toFinish : r.toFinish = none
  decodedText : r.decodedText = []
  noStopTrim : r.samplingParams.noStopTrim = false
  finishedReason : r.finishedReason = none
  finishedLen : r.finishedLen = none

/-- What a group of tokens of the vocabulary does to such a request. -/
def afterStr (r : OutputReq) (group : List Int) : OutputReq :=
  if r.samplingParams.maxNewTokens ≤ r.outputIds.length + group.length then
    { r.extend group with
      finishedReason := some (.length r.samplingParams.maxNewTokens)
      finishedLen := some r.samplingParams.maxNewTokens }
  else
    match group.findIdx? r.stops with
    | some i =>
      { r.extend group with
        finishedReason := some (.matchedToken (group.getD i 0))
        finishedLen := some (r.outputIds.length + i + 1) }
    | none =>
      { r.extend group with
        finishedReason := (r.samplingParams.stopStrs.find? fun s =>
          s <:+: tokenizer.decode (r.searched (r.outputIds ++ group))).map .matchedStr }

end

variable {tokenizer : Tokenizer} {text : Int → Text} {gptOss : Bool} {r : OutputReq}
  {group : List Int}

section
variable (hr : r.Waits tokenizer text)
include hr

lemma Waits.checkStrBasedFinish (hempty : [] ∉ r.samplingParams.stopStrs)
    (group : List Int) :
    (r.extend group).checkStrBasedFinish = some ((r.samplingParams.stopStrs.find? fun s =>
      s <:+: tokenizer.decode (r.searched (r.outputIds ++ group))).map .matchedStr) := by
  have hregex : (r.extend group).samplingParams.stopRegexStrs = [] := hr.stopRegexStrs
  unfold OutputReq.checkStrBasedFinish
  split
  · next hs =>
    have htail :
        (r.extend group).tailStr = some (tokenizer.decode (r.searched (r.outputIds ++ group))) := by
      rw [tailStr, if_pos hs, show (r.extend group).tokenizer = some tokenizer from hr.tokenizer_eq]
      rw [searched, hr.tokenizer_eq]
      rfl
    have hfind : (r.extend group).samplingParams.stopStrs.find? (fun s =>
        s <:+: tokenizer.decode (r.searched (r.outputIds ++ group)) ∨
          s <:+: (r.extend group).decodedText) =
        r.samplingParams.stopStrs.find? fun s =>
        s <:+: tokenizer.decode (r.searched (r.outputIds ++ group)) := by
      rw [← head?_filter, ← head?_filter]
      refine congrArg List.head? (filter_congr fun s hs => ?_)
      have hne : ¬s <:+: (r.extend group).decodedText := by
        rw [show (r.extend group).decodedText = [] from hr.decodedText, infix_nil]
        rintro rfl
        exact hempty hs
      simp [hne]
    rw [htail, map_some, hfind, hregex]
    cases r.samplingParams.stopStrs.find? fun s =>
      s <:+: tokenizer.decode (r.searched (r.outputIds ++ group)) with
    | some s => rfl
    | none => rfl
  · next hs =>
    have hnone : r.samplingParams.stopStrs = [] := by
      simp only [hasStopStr, extend, Bool.or_eq_true, not_or] at hs
      simpa using hs.1
    rw [hnone]
    rfl

lemma Waits.accept (hempty : [] ∉ r.samplingParams.stopStrs) (hne : group ≠ [])
    (hvocab : ∀ t ∈ group, ¬r.outOfVocab t) :
    r.accept group = some (r.afterStr tokenizer group) := by
  have hlen : (r.extend group).outputIds.length = r.outputIds.length + group.length := length_append
  have hlast : lastTokens (r.extend group).outputIds group.length = group := lastTokens_append _ hne
  have hno : (r.extend group).checkVocabBoundaryFinish group = none := by
    have hnone : group.findIdx? (r.extend group).outOfVocab = none :=
      findIdx?_eq_none_iff.mpr fun t ht => Bool.eq_false_iff.mpr (hvocab t ht)
    rw [checkVocabBoundaryFinish, hnone]
    rfl
  have hnew : (r.extend group).checkNewTokens group = some ( match group.findIdx? r.stops with
      | some i =>
        { r.extend group with
          finishedReason := some (.matchedToken (group.getD i 0))
          finishedLen := some (r.outputIds.length + i + 1) }
      | none =>
        { r.extend group with
          finishedReason := (r.samplingParams.stopStrs.find? fun s =>
            s <:+: tokenizer.decode (r.searched (r.outputIds ++ group))).map .matchedStr }) := by
    unfold checkNewTokens
    rw [checkTokenBasedFinish_eq, hlen, Nat.add_sub_cancel,
      show (r.extend group).stops = r.stops from rfl]
    cases group.findIdx? r.stops with
    | some i => rfl
    | none =>
      simp only [map_none, hno, hr.checkStrBasedFinish hempty]
      rfl
  show (r.extend group).checkFinished group.length = _
  rw [@checkFinished_eq (r.extend group) hr.finishedReason hr.toFinish hr.grammar,
    hlast, hnew, hlen, afterStr]
  exact (apply_ite some _ _ _).symm

/-! ### The text of a request -/

omit hr in
lemma find_of_infix {t s : Text} (h : s <:+: t) : ∃ pos, find t s = some pos := by
  obtain ⟨a, b, rfl⟩ := h
  refine isSome_iff_exists.mp (find?_isSome.mpr ⟨a.length, ?_, ?_⟩)
  · rw [mem_range, length_append, length_append]
    omega
  · rw [append_assoc, drop_left]
    exact decide_eq_true (prefix_append _ _)

lemma Waits.decode_searched (out : List Int) :
    tokenizer.decode (r.searched out) <:+: tokenizer.decode out := by
  have hsuffix : r.searched out <:+ out := by
    unfold searched lastTokens
    split
    · exact suffix_rfl
    · exact drop_suffix _ _
  obtain ⟨before, hout⟩ := hsuffix
  rw [hr.decode, hr.decode]
  conv_rhs => rw [← hout, flatMap_append]
  exact (suffix_append _ _).isInfix

lemma Waits.heeds_iff :
    r.Heeds tokenizer gptOss ↔ Clean r.samplingParams.stopStrs (tokenizer.decode r.outputIds) := by
  have hreturned : r.returnedText tokenizer gptOss = some (tokenizer.decode r.outputIds) := by
    simp [returnedText, outputIdsThroughStop, trimMatchedStopIds, trimMatchedStopText,
      hr.noStopTrim, hr.finishedReason,
      hr.finishedLen]
  rw [Heeds, hr.finishedReason, hreturned]
  constructor
  · rintro ⟨_, text', htext, hclean⟩
    exact some.inj htext ▸ hclean
  · intro hclean
    exact ⟨fun hno => absurd hclean hno, _, rfl, hclean⟩

end

lemma heeds_iff_of_finished {t : Text} (hfin : r.finishedReason.isSome)
    (htext : r.returnedText tokenizer gptOss = some t) :
    r.Heeds tokenizer gptOss ↔ Clean r.samplingParams.stopStrs t := by
  rw [Heeds, htext]
  constructor
  · rintro ⟨_, text', htext, hclean⟩
    exact some.inj htext ▸ hclean
  · exact fun hclean => ⟨fun _ => hfin, _, rfl, hclean⟩

section
variable (hr : r.Waits tokenizer text)
include hr

lemma Waits.returnedText_length
    (hlimit : r.samplingParams.maxNewTokens ≤ r.outputIds.length + group.length) :
    (r.afterStr tokenizer group).finishedReason.isSome ∧
    (r.afterStr tokenizer group).returnedText tokenizer gptOss =
      some (tokenizer.decode ((r.outputIds ++ group).take r.samplingParams.maxNewTokens)) := by
  rw [afterStr, if_pos hlimit]
  refine ⟨rfl, ?_⟩
  simp [returnedText, outputIdsThroughStop, trimMatchedStopIds, trimMatchedStopText,
    extend, hr.noStopTrim]

lemma Waits.returnedText_token {i : Nat}
    (hlimit : ¬r.samplingParams.maxNewTokens ≤ r.outputIds.length + group.length)
    (hi : group.findIdx? r.stops = some i) :
    (r.afterStr tokenizer group).finishedReason.isSome ∧
    (r.afterStr tokenizer group).returnedText tokenizer gptOss =
      some (tokenizer.decode
      (r.outputIds ++ group.take (if keepsStopToken gptOss (group.getD i 0) then
      i + 1 else i))) := by
  rw [afterStr, if_neg hlimit, hi]
  refine ⟨rfl, ?_⟩
  obtain ⟨a, t, b, rfl, rfl, ht, ha⟩ := split_findIdx? hi
  have hthrough : (r.outputIds ++ (a ++ t :: b)).take (r.outputIds.length + a.length + 1) =
      r.outputIds ++ a ++ [t] := by
    rw [← append_assoc, append_cons]
    exact take_left' (by simp [Nat.add_assoc])
  have hget : (a ++ t :: b).getD a.length 0 = t := by simp
  have htake : (a ++ t :: b).take (a.length + 1) = a ++ [t] := by
    rw [append_cons]
    exact take_left' (by simp)
  simp only [returnedText, outputIdsThroughStop, extend, hthrough, trimMatchedStopIds,
    trimMatchedStopText,
    hr.noStopTrim, Bool.false_eq_true, if_false, hget]
  by_cases hzero : t = 0
  · have hkeeps : keepsStopToken gptOss t = true := by simp [keepsStopToken, hzero]
    rw [if_pos hzero, hkeeps, if_pos rfl, htake, map_some, append_assoc]
  simp only [if_neg hzero, getLast?_concat, map_some, dropLast_concat]
  by_cases hcall : t = 200012 ∧ gptOss = true
  · have hkeeps : keepsStopToken gptOss t = true := by simp [keepsStopToken, hcall]
    rw [if_pos hcall, hkeeps, if_pos rfl, htake, append_assoc]
  · have hkeeps : keepsStopToken gptOss t = false := by simpa [keepsStopToken, hzero] using hcall
    rw [if_neg hcall, hkeeps]
    simp

lemma Waits.returnedText_str {s : Text} (hempty : [] ∉ r.samplingParams.stopStrs)
    (hlimit : ¬r.samplingParams.maxNewTokens ≤ r.outputIds.length + group.length)
    (hi : group.findIdx? r.stops = none)
    (hs : r.samplingParams.stopStrs.find?
    (fun s => s <:+: tokenizer.decode (r.searched (r.outputIds ++ group))) = some s) :
    ∃ pos, find (tokenizer.decode (r.outputIds ++ group)) s = some pos ∧
      (r.afterStr tokenizer group).finishedReason.isSome ∧
      (r.afterStr tokenizer group).returnedText tokenizer gptOss =
        some ((tokenizer.decode (r.outputIds ++ group)).take pos) := by
  have hfound : s <:+: tokenizer.decode (r.searched (r.outputIds ++ group)) := by
    simpa using find?_some hs
  obtain ⟨pos, hpos⟩ := find_of_infix (hfound.trans (hr.decode_searched _))
  have hne : s ≠ [] := by
    rintro rfl
    exact hempty (mem_of_find?_eq_some hs)
  refine ⟨pos, hpos, ?_⟩
  rw [afterStr, if_neg hlimit, hi]
  simp only [hs, map_some, isSome_some, true_and]
  simp [returnedText, outputIdsThroughStop, trimMatchedStopIds, trimMatchedStopText,
    extend, hr.noStopTrim,
    hr.finishedLen, hne, hpos]

end

/-! ### Whole outputs -/

lemma generate_finished (hfin : r.finishedReason.isSome) (groups : List (List Int)) :
    r.generate groups = some r := by
  cases groups with
  | nil => rfl
  | cons group groups => exact if_pos hfin

lemma Waits.generate_cons (hr : r.Waits tokenizer text) (hempty : [] ∉ r.samplingParams.stopStrs)
    (hne : group ≠ []) (hvocab : ∀ t ∈ group, ¬r.outOfVocab t) (groups : List (List Int)) :
    r.generate (group :: groups) = (r.afterStr tokenizer group).generate groups := by
  rw [generate, hr.finishedReason, hr.accept hempty hne hvocab]
  rfl

@[simp] lemma samplingParams_extend (r : OutputReq) (ts : List Int) :
    (r.extend ts).samplingParams = r.samplingParams := rfl

@[simp] lemma stops_extend (r : OutputReq) (ts : List Int) : (r.extend ts).stops = r.stops := rfl

@[simp] lemma searched_extend (r : OutputReq) (ts : List Int) :
    (r.extend ts).searched = r.searched := rfl

lemma caught_extend (r : OutputReq) (ts out : List Int) (groups : List (List Int)) :
    (r.extend ts).Caught tokenizer gptOss out groups ↔ r.Caught tokenizer gptOss out groups := by
  induction groups generalizing out with
  | nil => exact Iff.rfl
  | cons group groups ih =>
    simp only [Caught, samplingParams_extend, stops_extend, searched_extend, ih]
    exact Iff.rfl

/-- The states of a request that goes on heed the stop strings exactly if these are caught. -/
lemma Waits.heeds_generate (hr : r.Waits tokenizer text) (hempty : [] ∉ r.samplingParams.stopStrs)
    (hclean : Clean r.samplingParams.stopStrs (tokenizer.decode r.outputIds))
    {groups : List (List Int)} (hne : ∀ g ∈ groups, g ≠ [])
    (hvocab : ∀ g ∈ groups, ∀ t ∈ g, ¬r.outOfVocab t) :
    (∀ k, ∃ r', r.generate (groups.take k) = some r' ∧ r'.Heeds tokenizer gptOss) ↔
      r.Caught tokenizer gptOss r.outputIds groups := by
  induction groups generalizing r with
  | nil =>
    refine ⟨fun _ => trivial, fun _ k => ⟨r, ?_, hr.heeds_iff.mpr hclean⟩⟩
    rw [take_nil]
    rfl
  | cons group groups ih =>
    obtain ⟨hgroup, hgroups⟩ := forall_mem_cons.mp hne
    obtain ⟨hvocab, hvocabs⟩ := forall_mem_cons.mp hvocab
    -- the first state is clean; the others are those after the group
    have hsplit :
      (∀ k, ∃ r', r.generate ((group :: groups).take k) = some r' ∧ r'.Heeds tokenizer gptOss) ↔
        ∀ k, ∃ r', (r.afterStr tokenizer group).generate (groups.take k) = some r' ∧
        r'.Heeds tokenizer gptOss := by
      constructor
      · intro h k
        have hk := h (k + 1)
        rwa [take_succ_cons, hr.generate_cons hempty hgroup hvocab] at hk
      · intro h k
        cases k with
        | zero => exact ⟨r, rfl, hr.heeds_iff.mpr hclean⟩
        | succ k =>
          rw [take_succ_cons, hr.generate_cons hempty hgroup hvocab]
          exact h k
    have hend : ∀ r' : OutputReq, r'.finishedReason.isSome →
        ((∀ k, ∃ r'', r'.generate (groups.take k) = some r'' ∧ r''.Heeds tokenizer gptOss) ↔
        r'.Heeds tokenizer gptOss) := by
      intro r' hfin
      simp only [generate_finished hfin, some.injEq, exists_eq_left']
      exact ⟨fun h => h 0, fun h _ => h⟩
    rw [hsplit, Caught]
    have hparams : (r.afterStr tokenizer group).samplingParams = r.samplingParams := by
      unfold afterStr
      split
      · rfl
      · split <;> rfl
    by_cases hlimit : r.samplingParams.maxNewTokens ≤ r.outputIds.length + group.length
    · obtain ⟨hfin, htext⟩ := @Waits.returnedText_length tokenizer text gptOss r group hr hlimit
      rw [if_pos hlimit, hend _ hfin, heeds_iff_of_finished hfin htext, hparams]
    rw [if_neg hlimit]
    cases hi : group.findIdx? r.stops with
    | some i =>
      obtain ⟨hfin, htext⟩ := @Waits.returnedText_token tokenizer text gptOss r group hr i hlimit hi
      rw [hend _ hfin, heeds_iff_of_finished hfin htext, hparams]
    | none =>
      cases hs : r.samplingParams.stopStrs.find? fun s =>
        s <:+: tokenizer.decode (r.searched (r.outputIds ++ group)) with
      | some s =>
        obtain ⟨pos, hpos, hfin, htext⟩ :=
          @Waits.returnedText_str tokenizer text gptOss r group hr s hempty hlimit hi hs
        rw [hend _ hfin, heeds_iff_of_finished hfin htext, hparams]
        simp [hpos]
      | none =>
        have hwaits : (r.extend group).Waits tokenizer text := { hr with }
        have hafter : r.afterStr tokenizer group = r.extend group := by
          rw [afterStr, if_neg hlimit, hi]
          simp [hs, extend, ← hr.finishedReason]
        rw [hafter]
        by_cases htext : Clean r.samplingParams.stopStrs (tokenizer.decode (r.outputIds ++ group))
        · rw [ih hwaits hempty htext hgroups hvocabs, caught_extend]
          exact (and_iff_right htext).symm
        · refine ⟨fun h => ?_, fun h => absurd h.1 htext⟩
          obtain ⟨r', hr', hheeds⟩ := h 0
          cases hr'
          exact absurd (hwaits.heeds_iff.mp hheeds) htext

/-! ### Where the stop strings are -/

lemma Clean.mono {stopStrs : List Text} {t t' : Text} (h : Clean stopStrs t') (hpart : t <:+: t') :
    Clean stopStrs t :=
  fun s hs hin => h s hs (hin.trans hpart)

section
variable {stopStrs : List Text} {f : Nat → Text} {bound n : Nat}

lemma firstStop_eq_none (hmono : ∀ {i j}, i ≤ j → f i <:+: f j) :
    firstStop stopStrs f bound = none ↔ Clean stopStrs (f bound) := by
  simp only [firstStop, find?_eq_none, mem_range, decide_eq_true_eq, not_not]
  exact ⟨fun h => h bound (Nat.lt_succ_self bound),
    fun h i hi => h.mono (hmono (Nat.le_of_lt_succ hi))⟩

/-- The text is without stop strings up to the first of them. -/
lemma clean_iff_lt (hmono : ∀ {i j}, i ≤ j → f i <:+: f j) (h : firstStop stopStrs f bound = some n)
    (k : Nat) :
    Clean stopStrs (f k) ↔ k < n := by
  obtain ⟨hdirty, hmem, hbefore⟩ := find?_range_eq_some.mp h
  rw [decide_eq_true_eq] at hdirty
  constructor
  · intro hclean
    by_contra hle
    exact hdirty (hclean.mono (hmono (not_lt.mp hle)))
  · intro hlt
    simpa using hbefore k hlt

end

lemma take_take_mono (t : Text) {i j : Nat} (h : i ≤ j) : t.take i <:+: t.take j :=
  (take_prefix_take_left h).isInfix

section
variable (hr : r.Waits tokenizer text)
include hr

lemma Waits.decode_take_mono (ids : List Int) {i j : Nat} (h : i ≤ j) :
    tokenizer.decode (ids.take i) <:+: tokenizer.decode (ids.take j) := by
  obtain ⟨rest, hrest⟩ : ids.take i <+: ids.take j := take_prefix_take_left h
  rw [hr.decode, hr.decode, ← hrest, flatMap_append]
  exact (prefix_append _ _).isInfix

/-- A string is found in the text searched exactly if it begins in the window. -/
lemma Waits.infix_searched_iff (ids : List Int) (s : Text) :
    s <:+: tokenizer.decode (r.searched ids) ↔ r.BeginsInWindow tokenizer ids s := by
  have hsearched : r.searched ids = ids.drop (ids.length - r.window) := by
    rw [searched, ← window, lastTokens]
    split
    · next hzero =>
      have hnil : ids = [] := by
        have hpos : 0 < r.window := Nat.lt_of_lt_of_le (Nat.succ_pos _) (le_max_left _ _)
        exact length_eq_zero_iff.mp (by omega)
      rw [hnil, drop_nil]
    · congr 1
      omega
  have htext :
      tokenizer.decode ids = tokenizer.decode (ids.take (ids.length - r.window)) ++ tokenizer.decode
      (r.searched ids) := by
    rw [hsearched, hr.decode, hr.decode, hr.decode, ← flatMap_append, take_append_drop]
  unfold BeginsInWindow
  rw [htext]
  generalize tokenizer.decode (ids.take (ids.length - r.window)) = before
  generalize tokenizer.decode (r.searched ids) = tail
  constructor
  · rintro ⟨a, b, rfl⟩
    refine ⟨before.length + a.length, ?_, Nat.le_add_right _ _, ?_⟩
    · simp only [mem_range, length_append]
      omega
    · rw [← drop_drop, drop_left, append_assoc, drop_left]
      exact prefix_append _ _
  · rintro ⟨pos, -, hle, hprefix⟩
    obtain ⟨k, rfl⟩ := Nat.exists_eq_add_of_le hle
    rw [← drop_drop, drop_left] at hprefix
    exact hprefix.isInfix.trans (drop_suffix k tail).isInfix

/-- The text of the first tokens is without stop strings, unless the first of them is complete by
then. -/
lemma Waits.clean_take_iff (ids : List Int) (kept : Nat) :
    Clean r.samplingParams.stopStrs (tokenizer.decode (ids.take kept)) ↔
      ∀ n ∈ firstStop r.samplingParams.stopStrs (fun n => tokenizer.decode (ids.take n)) ids.length,
      kept < n := by
  cases hfirst :
    firstStop r.samplingParams.stopStrs (fun n => tokenizer.decode (ids.take n)) ids.length with
  | none =>
    have hclean := (firstStop_eq_none fun h => hr.decode_take_mono ids h).mp hfirst
    have hpart : tokenizer.decode (ids.take kept) <:+: tokenizer.decode (ids.take ids.length) := by
      rcases le_total kept ids.length with hle | hle
      · exact hr.decode_take_mono ids hle
      · rw [take_of_length_le hle, take_length]
    exact ⟨fun _ => nofun, fun _ => hclean.mono hpart⟩
  | some n =>
    rw [clean_iff_lt (fun h => hr.decode_take_mono ids h) hfirst kept]
    exact ⟨fun hlt _ heq => some.inj heq ▸ hlt, fun h => h n rfl⟩

omit hr in
/-- A group that ends the output by the limit or by a stop token. -/
lemma caught_of_kept {out group : List Int} {kept : Nat}
    (hkept : r.keptTokens gptOss out group = some kept) (groups : List (List Int)) :
    r.Caught tokenizer gptOss out (group :: groups) ↔
      Clean r.samplingParams.stopStrs (tokenizer.decode ((out ++ group).take kept)) := by
  unfold keptTokens at hkept
  rw [Caught]
  split at hkept
  · next hlimit =>
    cases hkept
    rw [if_pos hlimit]
  · next hlimit =>
    obtain ⟨i, hi, rfl⟩ := map_eq_some_iff.mp hkept
    rw [if_neg hlimit, hi, take_length_add_append]

omit hr in
lemma findIdx?_of_keptTokens {out group : List Int} (hkept : r.keptTokens gptOss out group = none) :
    ¬r.samplingParams.maxNewTokens ≤ out.length + group.length ∧ group.findIdx? r.stops = none := by
  unfold keptTokens at hkept
  split at hkept
  · cases hkept
  · next hlimit => exact ⟨hlimit, map_eq_none_iff.mp hkept⟩

/-- Whether the stop strings are caught is a matter of where they are. -/
lemma Waits.caught_iff_timely (out : List Int) (groups : List (List Int)) :
    r.Caught tokenizer gptOss out groups ↔ r.Timely tokenizer gptOss out groups := by
  induction groups generalizing out with
  | nil => exact Iff.rfl
  | cons group groups ih =>
    rw [Timely]
    have hclean := hr.clean_take_iff (out ++ group)
    cases hkept : r.keptTokens gptOss out group with
    | some kept =>
      rw [caught_of_kept hkept, hclean]
      cases firstStop r.samplingParams.stopStrs (fun n => tokenizer.decode ((out ++ group).take n))
        (out ++ group).length with
      | none => exact iff_true_intro nofun
      | some n => simp
    | none =>
      obtain ⟨hlimit, hi⟩ := findIdx?_of_keptTokens hkept
      have hwindow :
        (r.samplingParams.stopStrs.find? fun s => s <:+: tokenizer.decode
        (r.searched (out ++ group))) =
          r.samplingParams.stopStrs.find? fun s => r.BeginsInWindow tokenizer (out ++ group) s := by
        simp only [hr.infix_searched_iff]
      replace hclean := hclean (out ++ group).length
      rw [take_length] at hclean
      rw [Caught, if_neg hlimit, hi]
      cases hfirst :
        firstStop r.samplingParams.stopStrs (fun n => tokenizer.decode ((out ++ group).take n))
        (out ++ group).length with
      | none =>
        -- nothing is found in a text without stop strings
        have htext : Clean r.samplingParams.stopStrs (tokenizer.decode (out ++ group)) :=
          hclean.mpr (hfirst ▸ nofun)
        have hnone :
            (r.samplingParams.stopStrs.find? fun s => s <:+: tokenizer.decode
            (r.searched (out ++ group))) = none := by
          refine find?_eq_none.mpr fun s hs hin => htext s hs ?_
          exact (of_decide_eq_true hin).trans (hr.decode_searched _)
        simp only [hnone]
        exact (and_iff_right htext).trans (ih _)
      | some n =>
        have hdirty : ¬Clean r.samplingParams.stopStrs (tokenizer.decode (out ++ group)) := by
          intro htext
          have hlt := hclean.mp htext n hfirst
          have hmem := mem_of_find?_eq_some hfirst
          rw [mem_range] at hmem
          omega
        rw [hwindow]
        cases r.samplingParams.stopStrs.find? fun s =>
          r.BeginsInWindow tokenizer (out ++ group) s with
        | none => simp [hdirty]
        | some s =>
          have htake :
              ∀ {i j}, i ≤ j →
              (tokenizer.decode (out ++ group)).take i <:+: (tokenizer.decode
              (out ++ group)).take j :=
            fun h => take_take_mono _ h
          cases hend : firstStop r.samplingParams.stopStrs (tokenizer.decode (out ++ group)).take
              (tokenizer.decode (out ++ group)).length with
          | none =>
            rw [firstStop_eq_none htake, take_length] at hend
            exact absurd hend hdirty
          | some endPos =>
            simp only [clean_iff_lt htake hend, some.injEq, exists_and_left, exists_eq_left']

end

/-- **Stop strings.** In every state of a request the output is searched in time, and the client has
no text with a stop string, exactly if no stop string is empty and the first one of the text is
complete in time. -/
theorem heeds_iff_timely (hr : r.Waits tokenizer text) (hstart : r.outputIds = [])
    {groups : List (List Int)} (hne : ∀ g ∈ groups, g ≠ [])
    (hvocab : ∀ g ∈ groups, ∀ t ∈ g, ¬r.outOfVocab t) :
    (∀ k, ∃ r', r.generate (groups.take k) = some r' ∧ r'.Heeds tokenizer gptOss) ↔
      [] ∉ r.samplingParams.stopStrs ∧ r.Timely tokenizer gptOss [] groups := by
  have hclean : Clean r.samplingParams.stopStrs (tokenizer.decode r.outputIds) ↔
      [] ∉ r.samplingParams.stopStrs := by
    rw [hstart, hr.decode, flatMap_nil]
    simp only [Clean, infix_nil]
    exact ⟨fun h hmem => h [] hmem rfl, fun h s hs hnil => h (hnil ▸ hs)⟩
  by_cases hempty : [] ∈ r.samplingParams.stopStrs
  · refine ⟨fun h => ?_, fun h => absurd hempty h.1⟩
    obtain ⟨r', hr', hheeds⟩ := h 0
    cases hr'
    exact absurd hempty (hclean.mp (hr.heeds_iff.mp hheeds))
  · rw [hr.heeds_generate hempty (hclean.mpr hempty) hne hvocab, hstart, hr.caught_iff_timely]
    exact (and_iff_right hempty).symm

/-- Tokens 1 and 2 are the letters of a stop string, token 3 is the stop string. -/
def lettersText : Int → Text
  | 1 => ['a']
  | 2 => ['b']
  | 3 => ['a', 'b']
  | _ => ['x']

/-- The tokenizer spells the stop string with token 3. -/
def letters : Tokenizer where
  decode ids := ids.flatMap lettersText
  encode _ := [3]

def untilAb : OutputReq where
  samplingParams := {stopStrs := [['a', 'b']]}
  tokenizer := some letters
  vocabSize := 9

lemma untilAb_waits : untilAb.Waits letters lettersText :=
  ⟨rfl, fun _ => rfl, rfl, rfl, rfl, rfl, rfl, rfl, rfl⟩

/-- Spelled as the tokenizer spells it, the stop string is caught. -/
theorem heeds_iff_timely_token : untilAb.Timely letters false [] [[7], [8, 3]] ∧ ∀ k, ∃ r',
    untilAb.generate ([[7], [8, 3]].take k) = some r' ∧ r'.Heeds letters false := by
  have htimely : untilAb.Timely letters false [] [[7], [8, 3]] :=
    ⟨['a', 'b'], 2, 4, by decide, by decide, by decide, by decide⟩
  exact ⟨htimely, (heeds_iff_timely untilAb_waits rfl (by decide) (by decide)).mpr
    ⟨by decide, htimely⟩⟩

/-- Spelled by its letters and followed by one more token in the group, it is not: the two tokens
that are searched are those after the first letter. -/
theorem stop_string_missed : ∃ r', untilAb.generate [[1, 2, 7]] = some r' ∧
    ['a', 'b'] <:+: letters.decode r'.outputIds ∧ r'.finishedReason = none := by
  refine ⟨_, rfl, by decide, rfl⟩

end OutputReq

end Sglang.Managers
