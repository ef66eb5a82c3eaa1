import Sglang.Managers.DetokenizerBatches

/-! Streamed text against the whole text.

With a byte-level tokenizer a token may end inside a character. Text that ends so is shown up to
where `find_printable_text` cuts it, and the offset of what was sent is set to the end of what is
shown: where that is less than before, characters are sent again. The strings sent add up to the
decoded output exactly if what is shown never gets shorter. -/
namespace Sglang.Managers

open List Option
open DetokenizerManager DecodeStatus Utf8 StreamReq

/-- Token ids stand for bytes. -/
def ByteLevel (tokenizer : Tokenizer) (bytes : Int → List Nat) : Prop :=
  ∀ ids, tokenizer.decode ids = Utf8.decode (ids.flatMap bytes)

/-! ### What is sent to the detokenizer -/

namespace StreamReq

/-- Nothing was sent yet. -/
structure Fresh (r : StreamReq) : Prop where
  outputIds : r.outputIdsThroughStop = []
  offsets : r.offsets = none
  sendDecodeIdOffset : r.sendDecodeIdOffset = 0

/-- The end of the prompt that is sent for the sake of decoding. -/
def promptTail (r : StreamReq) : List Int :=
  r.originInputIdsUnpadded.drop (r.originInputIdsUnpadded.length - 5)

def output (r : StreamReq) (ids : List Int) (finishedReason : Option FinishReason) :
    TokenIdOutput where
  rid := r.rid
  finishedReason := finishedReason
  decodedText := []
  decodeIds := ids
  readOffset := r.promptTail.length
  noStopTrim := r.noStopTrim

lemma length_promptTail (r : StreamReq) : r.promptTail.length =
    r.originInputIdsUnpadded.length - (r.originInputIdsUnpadded.length - 5) := length_drop

/-- Everything so far is sent. -/
structure Caughtup (r : StreamReq) : Prop where
  offsets : r.offsets = some (r.originInputIdsUnpadded.length - 5, r.originInputIdsUnpadded.length)
  cur : r.curDecodeIdsLen = r.outputIdsThroughStop.length
  sent : r.sendDecodeIdOffset = r.surrAndDecodeIds.length

lemma Caughtup.sends {r : StreamReq} (hr : r.Caughtup)
    (chunks : List (List Int × Option FinishReason)) :
    r.sends chunks = chunks.map fun p => r.output p.1 p.2 := by
  induction chunks generalizing r with
  | nil => rfl
  | cons p chunks ih =>
    obtain ⟨chunk, reason⟩ := p
    have hdrop : (r.outputIdsThroughStop ++ chunk).drop r.curDecodeIdsLen = chunk := by
      rw [hr.cur, drop_left]
    simp only [StreamReq.sends, streamOutput, initIncrementalDetokenize,
      hr.offsets, hdrop, hr.sent, drop_left,
      ← length_promptTail, map_cons]
    refine congrArg₂ _ rfl ?_
    refine (ih ⟨rfl, rfl, rfl⟩).trans ?_
    rfl

lemma Fresh.sends {r : StreamReq} (hr : r.Fresh) (chunk : List Int) (reason : Option FinishReason)
    (chunks : List (List Int × Option FinishReason)) : r.sends ((chunk, reason) :: chunks) =
      r.output (r.promptTail ++ chunk) reason :: chunks.map fun p => r.output p.1 p.2 := by
  simp only [StreamReq.sends, streamOutput, initIncrementalDetokenize,
    hr.offsets, hr.outputIds, hr.sendDecodeIdOffset,
    nil_append, drop_zero, ← length_promptTail]
  refine congrArg₂ _ rfl ?_
  refine (Caughtup.sends ⟨rfl, rfl, rfl⟩ chunks).trans ?_
  rfl

end StreamReq

/-! ### Texts that are shown -/

/-- The strings sent when texts are shown one after the other. -/
def increments : Nat → List Text → List Text
  | _, [] => []
  | sentOffset, text :: texts => text.drop sentOffset :: increments text.length texts

/-- No text is shorter than the one before. -/
def Steady : Nat → List Text → Prop
  | _, [] => True
  | n, text :: texts => n ≤ text.length ∧ Steady text.length texts

variable {texts : List Text} {n : Nat} {final : Text}

lemma length_increments_le :
    final.length ≤ n + (increments n (texts ++ [final])).flatten.length ∧
      (¬Steady n (texts ++ [final]) →
      final.length < n + (increments n (texts ++ [final])).flatten.length) := by
  induction texts generalizing n with
  | nil =>
    simp only [nil_append, increments, Steady, and_true, flatten_cons,
      flatten_nil, append_nil, length_drop]
    omega
  | cons t texts ih =>
    obtain ⟨hle, hlt⟩ := @ih t.length
    rw [cons_append, increments, flatten_cons, length_append, length_drop]
    refine ⟨by omega, fun hno => ?_⟩
    rw [Steady, not_and_or] at hno
    obtain hshort | hno := hno
    · omega
    · have := hlt hno
      omega

lemma steady_concat :
    Steady n (texts ++ [final]) ↔ Steady n texts ∧ n ≤ final.length ∧
    ∀ t ∈ texts, t.length ≤ final.length := by
  induction texts generalizing n with
  | nil => simp [Steady]
  | cons t texts ih =>
    rw [cons_append, Steady, Steady, ih, forall_mem_cons]
    constructor
    · rintro ⟨hn, hsteady, ht, htexts⟩
      exact ⟨⟨hn, hsteady⟩, by omega, ht, htexts⟩
    · rintro ⟨⟨hn, hsteady⟩, _, ht, htexts⟩
      exact ⟨hn, hsteady, ht, htexts⟩

section
variable {whole : Text} (hpre : ∀ t ∈ texts, t <+: whole) (hfinal : final <+: whole)
include hpre hfinal

lemma flatten_increments (hsteady : Steady n (texts ++ [final])) :
    (increments n (texts ++ [final])).flatten = final.drop n := by
  induction texts generalizing n with
  | nil => simp [increments]
  | cons t texts ih =>
    obtain ⟨ht, hpre⟩ := forall_mem_cons.mp hpre
    obtain ⟨hn, hsteady⟩ := hsteady
    -- a text that is not longer than the last one is the beginning of it
    obtain ⟨rest, rfl⟩ := prefix_of_prefix_length_le ht hfinal (steady_concat.mp hsteady).2.1
    rw [cons_append, increments, flatten_cons, ih hpre hsteady, drop_left,
      drop_append_of_le_length hn]

lemma flatten_increments_iff : (increments 0 (texts ++ [final])).flatten = final ↔
    Steady 0 (texts ++ [final]) := by
  constructor
  · intro heq
    by_contra hno
    have hlt := length_increments_le.2 hno
    rw [heq] at hlt
    omega
  · intro hsteady
    exact (flatten_increments hpre hfinal hsteady).trans drop_zero

end

/-- What is shown after each chunk: of the tokens that are not yet `done` those that are `pending`
may end inside a character. -/
def shown (bytes : Int → List Nat) : List Int → List Int → List (List Int) → List Text
  | _, _, [] => []
  | done, pending, chunk :: chunks =>
    let newText := Utf8.decode ((pending ++ chunk).flatMap bytes)
    if DecodeStatus.complete newText then
      Utf8.decode ((done ++ (pending ++ chunk)).flatMap bytes) :: shown bytes
        (done ++ (pending ++ chunk)) [] chunks
    else (Utf8.decode (done.flatMap bytes) ++ findPrintableText newText) :: shown bytes done
      (pending ++ chunk) chunks

/-- No chunk that ends inside a character leaves less of the pending text printable than there was.
-/
def Grows (bytes : Int → List Nat) : List Int → List (List Int) → Prop
  | _, [] => True
  | pending, chunk :: chunks =>
    let newText := Utf8.decode ((pending ++ chunk).flatMap bytes)
    if DecodeStatus.complete newText then Grows bytes [] chunks
    else (findPrintableText (Utf8.decode (pending.flatMap bytes))).length ≤
      (findPrintableText newText).length ∧
      Grows bytes (pending ++ chunk) chunks

instance decidableGrows (bytes : Int → List Nat) :
    ∀ pending chunks, Decidable (Grows bytes pending chunks)
  | _, [] => inferInstanceAs (Decidable True)
  | pending, chunk :: chunks =>
    have := decidableGrows bytes [] chunks
    have := decidableGrows bytes (pending ++ chunk) chunks
    inferInstanceAs
      (Decidable (if DecodeStatus.complete (Utf8.decode ((pending ++ chunk).flatMap bytes)) then
      Grows bytes [] chunks else _ ≤ _ ∧ Grows bytes (pending ++ chunk) chunks))

lemma findPrintableText_isPrefix (text : Text) : findPrintableText text <+: text := by
  unfold findPrintableText
  split
  · exact prefix_rfl
  · split
    · exact prefix_rfl
    · split
      · exact dropLast_prefix _
      · exact rdropWhile_prefix _ _

lemma findPrintableText_prefix_dropLast {text : Text} (h : text.getLast? = some replacement) :
    findPrintableText text <+: text.dropLast := by
  obtain ⟨before, rfl⟩ : ∃ before, text = before ++ [replacement] := getLast?_eq_some_iff.mp h
  unfold findPrintableText
  rw [getLast?_concat, dropLast_concat, if_neg (by decide), if_neg (by decide)]
  split
  · exact prefix_rfl
  · rw [rdropWhile_concat_pos _ _ _ (by decide)]
    exact rdropWhile_prefix _ _

variable {d : DetokenizerManager} {bytes : Int → List Nat} {r : StreamReq}
  {done pending : List Int} {s : DecodeStatus}

lemma between_of_complete {bs : List Nat} (h : DecodeStatus.complete (Utf8.decode bs)) :
    Utf8.Between bs := by
  by_contra hno
  simp [DecodeStatus.complete, getLast?_decode hno] at h

lemma findPrintableText_decode_isPrefix (bs cs : List Nat) :
    findPrintableText (Utf8.decode bs) <+: Utf8.decode (bs ++ cs) := by
  by_cases hbetween : Utf8.Between bs
  · rw [decode_append hbetween]
    exact (findPrintableText_isPrefix _).trans (prefix_append _ _)
  · exact (findPrintableText_prefix_dropLast (getLast?_decode hbetween)).trans
      ( dropLast_decode_prefix hbetween cs)

lemma shown_isPrefix (hdone : Utf8.Between (done.flatMap bytes)) (chunks : List (List Int))
    (rest : List Int) :
    ∀ t ∈ shown bytes done pending chunks, t <+: Utf8.decode
    ((done ++ (pending ++ (chunks.flatten ++ rest))).flatMap bytes) := by
  induction chunks generalizing done pending with
  | nil => exact nofun
  | cons chunk chunks ih =>
    have hassoc : done ++ (pending ++ ((chunk :: chunks).flatten ++ rest)) =
        done ++ (pending ++ chunk) ++ (chunks.flatten ++ rest) := by simp
    have hnow : (done ++ (pending ++ chunk) ++ (chunks.flatten ++ rest)).flatMap bytes =
        (done ++ (pending ++ chunk)).flatMap bytes ++ (chunks.flatten ++ rest).flatMap bytes :=
        flatMap_append
    simp only [shown]
    split
    · next hcomplete =>
      have hnew : Utf8.Between ((done ++ (pending ++ chunk)).flatMap bytes) := by
        rw [flatMap_append]
        exact hdone.append (between_of_complete hcomplete)
      refine forall_mem_cons.mpr ⟨?_, ?_⟩
      · rw [hassoc, hnow, decode_append hnew]
        exact prefix_append _ _
      · intro t ht
        have := @ih (done ++ (pending ++ chunk)) [] hnew t ht
        rwa [nil_append, ← hassoc] at this
    · next hno =>
      refine forall_mem_cons.mpr ⟨?_, ?_⟩
      · have hdoneNow :
            (done ++ (pending ++ chunk)).flatMap bytes =
            done.flatMap bytes ++ (pending ++ chunk).flatMap bytes :=
          flatMap_append
        rw [hassoc, hnow, hdoneNow, append_assoc, decode_append hdone]
        exact (prefix_append_right_inj _).mpr (findPrintableText_decode_isPrefix _ _)
      · intro t ht
        have := @ih done (pending ++ chunk) hdone t ht
        rwa [← append_assoc, ← hassoc] at this

lemma steady_shown (hdone : Utf8.Between (done.flatMap bytes)) (chunks : List (List Int)) :
    Steady
    (Utf8.decode (done.flatMap bytes) ++ findPrintableText
    (Utf8.decode (pending.flatMap bytes))).length
      (shown bytes done pending chunks) ↔ Grows bytes pending chunks := by
  induction chunks generalizing done pending with
  | nil => simp [shown, Steady, Grows]
  | cons chunk chunks ih =>
    set held := pending ++ chunk
    have hnow : (done ++ held).flatMap bytes = done.flatMap bytes ++ held.flatMap bytes :=
      flatMap_append
    have hchunk : held.flatMap bytes = pending.flatMap bytes ++ chunk.flatMap bytes :=
      flatMap_append
    simp only [shown, Grows]
    split
    · next hcomplete =>
      have hnew : Utf8.Between ((done ++ held).flatMap bytes) := by
        rw [hnow]
        exact hdone.append (between_of_complete hcomplete)
      have hle :
        (Utf8.decode (done.flatMap bytes) ++ findPrintableText
        (Utf8.decode (pending.flatMap bytes))).length ≤
          (Utf8.decode ((done ++ held).flatMap bytes)).length := by
        rw [hnow, decode_append hdone, hchunk]
        exact ((prefix_append_right_inj _).mpr (findPrintableText_decode_isPrefix _ _)).length_le
      have hnext := @ih (done ++ held) [] hnew
      rw [flatMap_nil, decode_nil, show findPrintableText [] = [] from rfl, append_nil] at hnext
      rw [Steady, hnext]
      exact and_iff_right hle
    · rw [Steady, ih hdone, length_append, length_append, Nat.add_le_add_iff_left]

/-! ### One request -/

/-- A status between chunks: the ids before `read_offset` end between characters, the text of those
that are done is decoded. -/
structure Follows (bytes : Int → List Nat) (done pending : List Int) (s : DecodeStatus) : Prop where
  ids : ∃ before surr, s.decodeIds = before ++ surr ++ pending ∧ s.surrOffset = before.length ∧
    s.readOffset = (before ++ surr).length ∧ Utf8.Between (surr.flatMap bytes)
  text : s.decodedText = Utf8.decode (done.flatMap bytes)
  between : Utf8.Between (done.flatMap bytes)

namespace Follows
variable {tokenizer : Tokenizer} {e : TokenIdOutput}

/-- What the detokenizer finds new is the text of the pending tokens. -/
lemma newText (h : Follows bytes done pending s) (hbytes : ByteLevel tokenizer bytes) :
    (tokenizer.decode (s.decodeIds.drop s.surrOffset)).drop (tokenizer.decode s.surrIds).length =
      Utf8.decode (pending.flatMap bytes) := by
  obtain ⟨before, surr, hids, hsurr, hread, hbetween⟩ := h.ids
  have hdrop : s.decodeIds.drop s.surrOffset = surr ++ pending := by
    rw [hids, hsurr, append_assoc, drop_left]
  have hsurrIds : s.surrIds = surr := by
    rw [surrIds, hids, hread, hsurr, take_left, drop_left]
  rw [hdrop, hsurrIds, hbytes, hbytes, flatMap_append, decode_append hbetween, drop_left]

lemma receive (h : Follows bytes done pending s) (e : TokenIdOutput) :
    Follows bytes done (pending ++ e.decodeIds) (DecodeStatus.receive (some s) e) := by
  obtain ⟨before, surr, hids, hsurr, hread, hbetween⟩ := h.ids
  refine ⟨⟨before, surr, ?_, hsurr, hread, hbetween⟩, h.text, h.between⟩
  show s.decodeIds ++ e.decodeIds = _
  rw [hids, append_assoc _ pending]

section
variable (h : Follows bytes done pending (DecodeStatus.receive (some s) e))
  (hbytes : ByteLevel d.tokenizer bytes) (hreason : e.finishedReason = none)
include h hbytes hreason

lemma feed_complete (hcomplete : DecodeStatus.complete (Utf8.decode (pending.flatMap bytes))) :
    ∃ s',
    d.feed
    (some s) e = some (some s', (Utf8.decode ((done ++ pending).flatMap bytes)).drop s.sentOffset) ∧
      s'.sentOffset = (Utf8.decode ((done ++ pending).flatMap bytes)).length ∧
      Follows bytes (done ++ pending) [] s' := by
  obtain ⟨before, surr, hids, hsurr, hread, hbetween⟩ := h.ids
  have hpending := between_of_complete hcomplete
  have htext : (DecodeStatus.receive (some s) e).decodedText ++ Utf8.decode
    (pending.flatMap bytes) =
      Utf8.decode ((done ++ pending).flatMap bytes) := by
    rw [flatMap_append, decode_append h.between, h.text]
  have hnew := h.newText hbytes
  generalize hs : DecodeStatus.receive (some s) e = t at *
  have hsent : t.sentOffset = s.sentOffset := by rw [← hs]; rfl
  refine ⟨⟨Utf8.decode ((done ++ pending).flatMap bytes), t.decodeIds,
    t.readOffset, t.decodeIds.length, _⟩, ?_, rfl, ?_⟩
  · simp [feed, hs, hreason, trimMatchedStopIds, trimMatchedStopText, hnew,
      DecodeStatus.emit, DecodeStatus.advance, hcomplete, htext, hsent]
  · refine ⟨⟨before ++ surr, pending, ?_, hread, congrArg List.length hids, hpending⟩, rfl, ?_⟩
    · rw [append_nil]
      exact hids
    · rw [flatMap_append]
      exact h.between.append hpending

lemma feed_pending (hno : ¬DecodeStatus.complete (Utf8.decode (pending.flatMap bytes))) : ∃ s',
    d.feed (some s) e = some (some s', (Utf8.decode (done.flatMap bytes) ++
        findPrintableText (Utf8.decode (pending.flatMap bytes))).drop s.sentOffset) ∧
      s'.sentOffset =
      (Utf8.decode (done.flatMap bytes) ++ findPrintableText
      (Utf8.decode (pending.flatMap bytes))).length ∧
      Follows bytes done pending s' := by
  have hnew := h.newText hbytes
  have htext := h.text
  generalize hs : DecodeStatus.receive (some s) e = t at *
  have hsent : t.sentOffset = s.sentOffset := by rw [← hs]; rfl
  refine ⟨{t with sentOffset := _}, ?_, rfl, h.ids, h.text, h.between⟩
  simp [feed, hs, hreason, trimMatchedStopIds, trimMatchedStopText, hnew,
    DecodeStatus.emit, DecodeStatus.advance, hno, htext, hsent]

end

end Follows

/-- A matched token that is cut off at the end is one of the last chunk. -/
lemma trimMatchedStopIds_append {gptOss noStopTrim : Bool} {reason : FinishReason} {last : List Int}
    (hlast : ∀ matched, reason = .matchedToken matched → last ≠ []) (ids : List Int) :
    trimMatchedStopIds gptOss (ids ++ last) (some reason) noStopTrim =
      (trimMatchedStopIds gptOss last (some reason) noStopTrim).map (ids ++ ·) := by
  unfold trimMatchedStopIds
  split
  · rfl
  cases reason with
  | matchedToken matched =>
    have hne := hlast matched rfl
    simp only
    split
    · rfl
    · rw [List.getLast?_append_of_ne_nil _ hne, Option.map_map]
      refine congrFun (congrArg _ (funext fun t => ?_)) _
      simp only [Function.comp_apply, apply_ite (ids ++ ·), dropLast_append_of_ne_nil hne]
  | _ => rfl

lemma trimMatchedStopText_isPrefix (output : Text) (reason : Option FinishReason)
    (noStopTrim : Bool) :
    trimMatchedStopText output reason noStopTrim <+: output := by
  have htrim : ∀ matched : Text,
      (if matched = [] then
      output else ((find output matched).map output.take).getD output) <+: output := by
    intro matched
    split
    · exact prefix_rfl
    · cases find output matched with
      | none => exact prefix_rfl
      | some n => exact take_prefix n output
  unfold trimMatchedStopText
  split
  · exact prefix_rfl
  · split
    · exact htrim _
    · exact htrim _
    · exact prefix_rfl

/-- Where a request starts: the end of the prompt is read. -/
def StreamReq.start (r : StreamReq) : DecodeStatus where
  decodedText := []
  decodeIds := r.promptTail
  surrOffset := 0
  readOffset := r.promptTail.length

lemma StreamReq.Fresh.feedAll_sends (hr : r.Fresh) {chunks : List (List Int × Option FinishReason)}
    (hne : chunks ≠ []) :
    d.feedAll none (r.sends chunks) = d.feedAll (some r.start)
    (chunks.map fun p => r.output p.1 p.2) := by
  cases chunks with
  | nil => exact absurd rfl hne
  | cons p chunks =>
    obtain ⟨chunk, reason⟩ := p
    rw [hr.sends]
    rfl

lemma StreamReq.follows_start (hprompt : Utf8.Between (r.originInputIdsUnpadded.flatMap bytes)) :
    Follows bytes [] [] r.start := by
  refine ⟨⟨[], r.promptTail, ?_, rfl, rfl, ?_⟩, rfl, rfl⟩
  · rw [append_nil]
    rfl
  · have hsplit : r.originInputIdsUnpadded.flatMap bytes =
        (r.originInputIdsUnpadded.take (r.originInputIdsUnpadded.length - 5)).flatMap bytes ++
        r.promptTail.flatMap bytes := by
      rw [promptTail, ← flatMap_append, take_append_drop]
    rw [hsplit] at hprompt
    exact between_of_between hprompt

variable {reason : FinishReason} {last last' : List Int} {chunks : List (List Int)}

section
variable (hlast : ∀ matched, reason = .matchedToken matched → last ≠ [])
  (htrim : trimMatchedStopIds d.isToolCallParserGptOss last (some reason) r.noStopTrim = some last')
include hlast htrim

section
variable (h : Follows bytes done pending s) (hbytes : ByteLevel d.tokenizer bytes)
include h hbytes

lemma Follows.feed_last :
    d.feed (some s) (r.output last (some reason)) = some (none,
      (trimMatchedStopText (Utf8.decode ((done ++ (pending ++ last')).flatMap bytes))
      (some reason) r.noStopTrim).drop
        s.sentOffset) := by
  obtain ⟨before, surr, hids, hsurr, hread, hbetween⟩ := h.ids
  have hdrop : (s.decodeIds ++ last).drop s.surrOffset = (surr ++ pending) ++ last := by
    rw [hids, hsurr, append_assoc, append_assoc, drop_left, append_assoc]
  have hsurrIds : ((s.decodeIds ++ last).take s.readOffset).drop s.surrOffset = surr := by
    rw [hids, hread, hsurr, append_assoc, take_left, drop_left]
  set held := pending ++ last'
  have hnew : (d.tokenizer.decode ((surr ++ pending) ++ last')).drop
    (d.tokenizer.decode surr).length =
      Utf8.decode (held.flatMap bytes) := by
    rw [hbytes, hbytes, append_assoc, flatMap_append, decode_append hbetween, drop_left]
  have hall : s.decodedText ++ Utf8.decode (held.flatMap bytes) =
      Utf8.decode ((done ++ held).flatMap bytes) := by
    have happend : (done ++ held).flatMap bytes = done.flatMap bytes ++ held.flatMap bytes :=
      flatMap_append
    rw [h.text, happend, decode_append h.between]
  simp only [feed, DecodeStatus.receive, output, surrIds, hdrop, hsurrIds,
    trimMatchedStopIds_append hlast, htrim, map_some, hnew, DecodeStatus.emit,
    DecodeStatus.advance, isSome_some,
    if_true, hall]

lemma Follows.feedAll :
    d.feedAll (some s) (chunks.map (r.output · none) ++ [r.output last (some reason)]) =
      some (none, increments s.sentOffset (shown bytes done pending chunks ++ [trimMatchedStopText
        (Utf8.decode ((done ++ (pending ++ (chunks.flatten ++ last'))).flatMap bytes))
        (some reason) r.noStopTrim])) := by
  induction chunks generalizing done pending s with
  | nil =>
    simp [nil_append, DetokenizerManager.feedAll, h.feed_last hlast htrim hbytes, shown, increments]
  | cons chunk chunks ih =>
    have hreceive := h.receive (r.output chunk none)
    have hassoc : done ++ (pending ++ ((chunk :: chunks).flatten ++ last')) =
        done ++ (pending ++ chunk) ++ ([] ++ (chunks.flatten ++ last')) := by simp
    have hassoc' : done ++ (pending ++ ((chunk :: chunks).flatten ++ last')) =
        done ++ (pending ++ chunk ++ (chunks.flatten ++ last')) := by simp
    by_cases hcomplete : DecodeStatus.complete (Utf8.decode ((pending ++ chunk).flatMap bytes))
    · obtain ⟨s', hfeed, hsent, hs'⟩ := hreceive.feed_complete hbytes rfl hcomplete
      simp only [map_cons, cons_append, DetokenizerManager.feedAll, hfeed, ih hs', bind_eq_bind,
        bind_some, shown, if_pos hcomplete, increments, hsent, hassoc]
      rfl
    · obtain ⟨s', hfeed, hsent, hs'⟩ := hreceive.feed_pending hbytes rfl hcomplete
      simp only [map_cons, cons_append, DetokenizerManager.feedAll, hfeed, ih hs', bind_eq_bind,
        bind_some, shown, if_neg hcomplete, increments, hsent, hassoc']
      rfl

end

lemma StreamReq.Fresh.feedAll (hr : r.Fresh) (hbytes : ByteLevel d.tokenizer bytes)
    (hprompt : Utf8.Between (r.originInputIdsUnpadded.flatMap bytes)) :
    d.feedAll none (r.sends (chunks.map (·, none) ++ [(last, some reason)])) =
      some (none, increments 0 (shown bytes [] [] chunks ++ [trimMatchedStopText
        (Utf8.decode ((chunks.flatten ++ last').flatMap bytes)) (some reason) r.noStopTrim])) := by
  rw [hr.feedAll_sends (List.append_ne_nil_of_right_ne_nil _ (List.cons_ne_nil _ _)),
    List.map_append, List.map_map]
  exact (follows_start hprompt).feedAll hlast htrim hbytes

end

/-! ### Other requests -/

/-- The chunks of a request: only the last one may come with a reason, and a matched token is in it.
-/
def Proper : List (List Int × Option FinishReason) → Prop
  | [] => True
  | (_, none) :: chunks => Proper chunks
  | (chunk, some reason) :: chunks =>
    (∀ matched, reason = .matchedToken matched → chunk ≠ []) ∧ chunks = []

/-- The offsets are within the ids. -/
structure DecodeStatus.Ordered (s : DecodeStatus) : Prop where
  surr : s.surrOffset ≤ s.decodeIds.length
  read : s.readOffset ≤ s.decodeIds.length

lemma DecodeStatus.Ordered.receive (h : s.Ordered) (e : TokenIdOutput) :
    (DecodeStatus.receive (some s) e).Ordered := by
  have hlen : s.decodeIds.length ≤ (s.decodeIds ++ e.decodeIds).length := by simp
  exact ⟨h.surr.trans hlen, h.read.trans hlen⟩

lemma DecodeStatus.Ordered.emit (h : s.Ordered) (newText : Text) (e : TokenIdOutput) :
    (s.emit newText e).1.Ordered := by
  unfold DecodeStatus.emit DecodeStatus.advance
  simp only
  split
  · exact ⟨h.surr, h.read⟩
  · split
    · exact ⟨h.read, le_rfl⟩
    · exact ⟨h.surr, h.read⟩

lemma DecodeStatus.Ordered.feed_chunk (h : s.Ordered) {e : TokenIdOutput}
    (hreason : e.finishedReason = none) :
    ∃ s' text, d.feed (some s) e = some (some s', text) ∧ s'.Ordered := by
  have hreceive := h.receive e
  generalize hs : DecodeStatus.receive (some s) e = t at *
  let newText :=
    (d.tokenizer.decode (t.decodeIds.drop t.surrOffset)).drop (d.tokenizer.decode t.surrIds).length
  have hfeed : d.feed (some s) e = some (some (t.emit newText e).1, (t.emit newText e).2) := by
    simp only [feed, hs, hreason, trimMatchedStopIds, ite_self, map_some,
      isSome_none, Bool.false_eq_true, if_false]
    rfl
  exact ⟨_, _, hfeed, hreceive.emit newText e⟩

lemma trimMatchedStopIds_isSome {gptOss noStopTrim : Bool} {reason : FinishReason} {ids : List Int}
    (hids : ∀ matched, reason = .matchedToken matched → ids ≠ []) :
    (trimMatchedStopIds gptOss ids (some reason) noStopTrim).isSome := by
  unfold trimMatchedStopIds
  split
  · rfl
  cases reason with
  | matchedToken matched =>
    simp only
    split
    · rfl
    · rw [isSome_map, getLast?_isSome]
      exact hids matched rfl
  | _ => rfl

variable {chunks : List (List Int × Option FinishReason)}

lemma DecodeStatus.Ordered.feedAll_isSome (h : s.Ordered) (hproper : Proper chunks) :
    (d.feedAll (some s) (chunks.map fun p => r.output p.1 p.2)).isSome := by
  induction chunks generalizing s with
  | nil => rfl
  | cons p chunks ih =>
    obtain ⟨chunk, reason⟩ := p
    cases reason with
    | none =>
      obtain ⟨s', text, hfeed, hs'⟩ := @feed_chunk d s h (r.output chunk none) rfl
      obtain ⟨p, hrest⟩ := isSome_iff_exists.mp (ih hs' hproper)
      simp [feedAll, hfeed, hrest]
    | some reason =>
      obtain ⟨hchunk, rfl⟩ := hproper
      have hne : ∀ matched, reason = .matchedToken matched →
          (s.decodeIds ++ chunk).drop s.surrOffset ≠ [] := by
        intro matched hreason
        rw [drop_append_of_le_length h.surr]
        exact append_ne_nil_of_right_ne_nil _ (hchunk matched hreason)
      obtain ⟨ids, htrim⟩ :=
        isSome_iff_exists.mp
        (@trimMatchedStopIds_isSome d.isToolCallParserGptOss r.noStopTrim reason _ hne)
      simp [feedAll, feed, DecodeStatus.receive, output, htrim]

/-! ### Streamed text -/

/-- What is returned when all of the output is there: its decoding, without a matched stop at the
end. -/
def fullText (d : DetokenizerManager) (r : StreamReq) (outputIds : List Int)
    (reason : FinishReason) : Option Text :=
  (trimMatchedStopIds d.isToolCallParserGptOss outputIds (some reason) r.noStopTrim).map fun ids =>
    trimMatchedStopText (d.tokenizer.decode ids) (some reason) r.noStopTrim

/-- Batches in which every request has the chunks of some output. -/
structure Interleaved (d : DetokenizerManager) (batches : List (List TokenIdOutput)) : Prop where
  empty : d.decodeStatus.items = []
  nodup : ∀ batch ∈ batches, (batch.map (·.rid)).Nodup
  within : d.Within batches
  sends : ∀ rid, ∃ (r : StreamReq) (chunks : List (List Int × Option FinishReason)), r.Fresh ∧
    Proper chunks ∧
    received rid batches = r.sends chunks

lemma Interleaved.decodeAll {batches : List (List TokenIdOutput)} (h : Interleaved d batches) :
    ∃ d' outs, DetokenizerManager.decodeAll batches d = some (d', outs) ∧ ∀ rid,
      d.feedAll none (received rid batches) =
      some (d'.decodeStatus.get? rid, sent rid batches outs) := by
  have hnone : ∀ rid, d.decodeStatus.get? rid = none := by
    intro rid
    rw [OrderedDict.get?, h.empty]
    rfl
  have htotal : ∀ rid, (d.feedAll (d.decodeStatus.get? rid) (received rid batches)).isSome := by
    intro rid
    obtain ⟨r, chunks, hr, hproper, hreceived⟩ := h.sends rid
    rw [hnone, hreceived]
    by_cases hne : chunks = []
    · subst hne
      rfl
    · rw [hr.feedAll_sends hne]
      exact DecodeStatus.Ordered.feedAll_isSome ⟨Nat.zero_le _, le_rfl⟩ hproper
  simpa only [hnone] using decodeAll_spec h.nodup h.within htotal

/-- **Streamed text.** The strings sent for a request add up to the text of its output exactly if no
chunk shortens what is printable of the pending text, and nothing is shown of a stop that is cut
off. -/
theorem streamed_iff_grows {d : DetokenizerManager} {bytes : Int → List Nat}
    {batches : List (List TokenIdOutput)} {r : StreamReq} {chunks : List (List Int)}
    {last : List Int} {reason : FinishReason} (hbytes : ByteLevel d.tokenizer bytes)
    (hbatches : Interleaved d batches) (hr : r.Fresh)
    (hprompt : Utf8.Between (r.originInputIdsUnpadded.flatMap bytes))
    (hlast : ∀ matched, reason = .matchedToken matched → last ≠ [])
    (hreceived : received r.rid batches = r.sends (chunks.map (·, none) ++ [(last, some reason)])) :
    ∃ d' outs full, decodeAll batches d = some (d', outs) ∧ fullText d r
    (chunks.flatten ++ last) reason = some full ∧
      ((sent r.rid batches outs).flatten = full ↔
        Grows bytes [] chunks ∧ ∀ text ∈ shown bytes [] [] chunks, text.length ≤ full.length) := by
  obtain ⟨d', outs, hdecode, hsent⟩ := hbatches.decodeAll
  obtain ⟨last', htrim⟩ :=
    isSome_iff_exists.mp
    (@trimMatchedStopIds_isSome d.isToolCallParserGptOss r.noStopTrim reason last hlast)
  have hfull : fullText d r (chunks.flatten ++ last) reason = some (trimMatchedStopText
      (Utf8.decode ((chunks.flatten ++ last').flatMap bytes)) (some reason) r.noStopTrim) := by
    rw [fullText, trimMatchedStopIds_append hlast, htrim, map_some, map_some, hbytes]
  have hstrings :=
    (hsent r.rid).symm.trans ((congrArg (d.feedAll none) hreceived).trans
    (hr.feedAll hlast htrim hbytes hprompt))
  refine ⟨d', outs, _, hdecode, hfull, ?_⟩
  rw [(Prod.mk.inj (some.inj hstrings)).2]
  have hbetween : Utf8.Between (([] : List Int).flatMap bytes) := rfl
  have hcut :=
    trimMatchedStopText_isPrefix (Utf8.decode ((chunks.flatten ++ last').flatMap bytes))
    (some reason) r.noStopTrim
  rw [flatten_increments_iff (shown_isPrefix hbetween chunks last') hcut,
    steady_concat, ← steady_shown hbetween]
  exact and_congr_right' (and_iff_right (Nat.zero_le _))

/-- A tokenizer with the bytes as its tokens. -/
def byteManager : DetokenizerManager where
  tokenizer := {decode := fun ids => Utf8.decode (ids.flatMap fun id => [id.toNat])}
  capacity := 2

def greeting : StreamReq := {rid := "a", originInputIdsUnpadded := [104, 105]}

def other : StreamReq := {rid := "b", originInputIdsUnpadded := [104]}

def otherChunks : List (List Int × Option FinishReason) :=
  [([98], none), ([98], none), ([98], some (.length 3))]

/-- A request's chunks, each in a batch with one of the other request. -/
def withOther (chunks : List (List Int × Option FinishReason)) : List (List TokenIdOutput) :=
  List.zipWith (fun e e' => [e, e']) (greeting.sends chunks) (other.sends otherChunks)

lemma interleaved_withOther (hproper : Proper chunks)
    (hnodup : ∀ batch ∈ withOther chunks, (batch.map (·.rid)).Nodup)
    (hwithin : byteManager.Within (withOther chunks))
    (hrids : ∀ e ∈ (withOther chunks).flatten, e.rid = "a" ∨ e.rid = "b")
    (hgreeting : received "a" (withOther chunks) = greeting.sends chunks)
    (hother : received "b" (withOther chunks) = other.sends otherChunks) :
    Interleaved byteManager (withOther chunks) := by
  refine ⟨rfl, hnodup, hwithin, fun rid => ?_⟩
  by_cases ha : rid = "a"
  · exact ⟨greeting, chunks, ⟨rfl, rfl, rfl⟩, hproper, ha ▸ hgreeting⟩
  · by_cases hb : rid = "b"
    · exact ⟨other, otherChunks, ⟨rfl, rfl, rfl⟩, ⟨nofun, rfl⟩, hb ▸ hother⟩
    · refine ⟨other, [], ⟨rfl, rfl, rfl⟩, trivial, filter_eq_nil_iff.mpr fun e he => ?_⟩
      obtain h | h := hrids e he
      · simpa [h] using Ne.symm ha
      · simpa [h] using Ne.symm hb

/-- A character in two chunks. -/
theorem streamed_iff_grows_split : ∃ d' outs full,
    decodeAll
    (withOther [([0xE4, 0xB8], none), ([0xAD], none),
    ([0xC3, 0xA9], some (.length 5))]) byteManager = some (d', outs) ∧
      fullText byteManager greeting [0xE4, 0xB8, 0xAD, 0xC3, 0xA9] (.length 5) = some full ∧
      ((sent "a" (withOther [([0xE4, 0xB8], none), ([0xAD], none), ([0xC3, 0xA9], some (.length 5))]) outs).flatten = full ↔
        Grows (fun id => [id.toNat]) [] [[0xE4, 0xB8], [0xAD]] ∧
          ∀ text ∈ shown (fun id => [id.toNat]) [] []
          [[0xE4, 0xB8], [0xAD]], text.length ≤ full.length) :=
  @streamed_iff_grows byteManager (fun id => [id.toNat])
    (withOther [([0xE4, 0xB8], none), ([0xAD], none), ([0xC3, 0xA9], some (.length 5))]) greeting
      [[0xE4, 0xB8], [0xAD]]
    [0xC3, 0xA9] (.length 5) (fun _ => rfl)
    (interleaved_withOther ⟨nofun, rfl⟩ (by decide +kernel) (by decide +kernel)
      (by decide +kernel) (by decide +kernel)
      (by decide +kernel))
    ⟨rfl, rfl, rfl⟩ (by decide +kernel) nofun (by decide +kernel)

/-- A chunk completes one character and begins the next: what was shown is sent again. -/
theorem text_sent_twice :
    Interleaved byteManager
    (withOther [([0xE4, 0xB8, 0xAD, 0xC3], none), ([0xA9, 0xC3], none),
    ([0xA9], some (.length 7))]) ∧
      (decodeAll (withOther [([0xE4, 0xB8, 0xAD, 0xC3], none), ([0xA9, 0xC3], none),
      ([0xA9], some (.length 7))])
        byteManager).map
        (fun p => (sent "a" (withOther [([0xE4, 0xB8, 0xAD, 0xC3], none), ([0xA9, 0xC3], none),
          ([0xA9], some (.length 7))]) p.2).flatten) = some ['中', '中', 'é', 'é'] ∧
      byteManager.tokenizer.decode
      [0xE4, 0xB8, 0xAD, 0xC3, 0xA9, 0xC3, 0xA9] = ['中', 'é', 'é'] := by
  refine ⟨?_, by decide +kernel, by decide +kernel⟩
  exact interleaved_withOther ⟨nofun, rfl⟩ (by decide +kernel) (by decide +kernel)
    (by decide +kernel) (by decide +kernel)
    (by decide +kernel)

end Sglang.Managers
