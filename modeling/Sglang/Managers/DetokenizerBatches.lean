import Sglang.Managers.Detokenizer

/-! Requests do not see each other in the detokenizer.

As long as no status is pushed out, the strings of a request are those of a machine that sees the
request's own tokens only (`feedAll`), however its chunks are batched with those of others. -/
namespace Sglang.Managers

open List Option OrderedDict DecodeStatus

namespace DetokenizerManager

/-- What a manager does for one request. -/
def feed (d : DetokenizerManager) (s : Option DecodeStatus) (e : TokenIdOutput) :
    Option (Option DecodeStatus × Text) :=
  let s := DecodeStatus.receive s e
  (trimMatchedStopIds d.isToolCallParserGptOss
    (s.decodeIds.drop s.surrOffset) e.finishedReason e.noStopTrim).map fun readIds =>
    let (s, incremental) :=
      s.emit ((d.tokenizer.decode readIds).drop (d.tokenizer.decode s.surrIds).length) e
    (if e.finishedReason.isSome then none else some s, incremental)

def feedAll (d : DetokenizerManager) :
    Option DecodeStatus → List TokenIdOutput → Option (Option DecodeStatus × List Text)
  | s, [] => some (s, [])
  | s, e :: es => do
    let (s, incremental) ← d.feed s e
    let (s, incrementals) ← d.feedAll s es
    some (s, incremental :: incrementals)

/-- The tokenizer and the settings are kept. -/
structure SameConfig (d d' : DetokenizerManager) : Prop where
  tokenizer : d'.tokenizer = d.tokenizer
  gptOss : d'.isToolCallParserGptOss = d.isToolCallParserGptOss
  capacity : d'.capacity = d.capacity

section
variable (d : DetokenizerManager)

lemma SameConfig.refl : SameConfig d d := ⟨rfl, rfl, rfl⟩

lemma SameConfig.trans {d d' d'' : DetokenizerManager} (h : SameConfig d d')
    (h' : SameConfig d' d'') : SameConfig d d'' :=
  ⟨h'.tokenizer.trans h.tokenizer, h'.gptOss.trans h.gptOss, h'.capacity.trans h.capacity⟩

/-- How many requests of a batch are new. -/
def newcomers (batch : List TokenIdOutput) : Nat :=
  batch.countP fun e => (d.decodeStatus.get? e.rid).isNone

/-- There is a place for every new request of a batch. -/
def HasRoom (batch : List TokenIdOutput) : Prop :=
  d.decodeStatus.items.length + d.newcomers batch ≤ d.capacity

end

variable {d d' : DetokenizerManager} {e : TokenIdOutput} {batch : List TokenIdOutput}

lemma forall₂_imp_of_mem {α β : Type*} {R S : α → β → Prop} {as : List α}
    {bs : List β} (h : List.Forall₂ R as bs) (himp : ∀ a ∈ as, ∀ b, R a b → S a b) :
    List.Forall₂ S as bs := by
  induction h with
  | nil => exact .nil
  | cons hab _ ih =>
    obtain ⟨ha, has⟩ := forall_mem_cons.mp himp
    exact .cons (ha _ hab) (ih has)

lemma rid_ne (hrid : e.rid ∉ batch.map (·.rid)) : ∀ e' ∈ batch, e'.rid ≠ e.rid := by
  intro e' he' h
  rw [← h] at hrid
  exact hrid (mem_map.mpr ⟨e', he', rfl⟩)

lemma receive_spec (hroom : d.HasRoom (e :: batch)) : ∃ d1,
    d.receive e = some d1 ∧ SameConfig d d1 ∧
      d1.decodeStatus = d.decodeStatus.set e.rid
      (DecodeStatus.receive (d.decodeStatus.get? e.rid) e) := by
  unfold receive
  simp only
  split
  · exact ⟨_, rfl, ⟨rfl, rfl, rfl⟩, rfl⟩
  · next hnew =>
    have hlt : ¬d.decodeStatus.items.length ≥ d.capacity := by
      rw [HasRoom, newcomers, countP_cons_of_pos (by simpa using hnew)] at hroom
      omega
    rw [setItem, if_neg hlt]
    exact ⟨_, rfl, ⟨rfl, rfl, rfl⟩, rfl⟩

lemma HasRoom.receive {s : DecodeStatus} (hroom : d.HasRoom (e :: batch))
    (hrid : e.rid ∉ batch.map (·.rid)) (hconfig : SameConfig d d')
    (hset : d'.decodeStatus = d.decodeStatus.set e.rid s) : d'.HasRoom batch := by
  have hcount : d'.newcomers batch = d.newcomers batch := by
    refine countP_congr fun e' he' => ?_
    rw [hset, get?_set, if_neg (rid_ne hrid e' he')]
  unfold HasRoom at *
  rw [hcount, hset, OrderedDict.length_set, hconfig.capacity]
  unfold newcomers at *
  rw [countP_cons] at hroom
  cases hget : d.decodeStatus.get? e.rid with
  | none =>
    simp only [hget, isNone_none, if_true] at hroom
    simp only [isSome_none, Bool.false_eq_true, if_false]
    omega
  | some s =>
    simp only [isSome_some, if_true]
    omega

/-- What the first loop leaves for a request. -/
structure Collected (d d' : DetokenizerManager) (e : TokenIdOutput) (ids : List Int × List Int) :
    Prop where
  status : d'.decodeStatus.get? e.rid = some (DecodeStatus.receive (d.decodeStatus.get? e.rid) e)
  read : trimMatchedStopIds d.isToolCallParserGptOss
    ((DecodeStatus.receive (d.decodeStatus.get? e.rid) e).decodeIds.drop
      (DecodeStatus.receive
        (d.decodeStatus.get? e.rid) e).surrOffset) e.finishedReason e.noStopTrim = some ids.1
  surr : ids.2 = (DecodeStatus.receive (d.decodeStatus.get? e.rid) e).surrIds

section
variable (hnodup : (batch.map (·.rid)).Nodup) {start : DetokenizerManager}
include hnodup

lemma collect_spec (hroom : d.HasRoom batch)
    (htotal : ∀ e ∈ batch, (d.feed (d.decodeStatus.get? e.rid) e).isSome) : ∃ d' ids,
    collect batch d = some (d', ids) ∧ SameConfig d d' ∧
      (∀ rid, rid ∉ batch.map (·.rid) → d'.decodeStatus.get? rid = d.decodeStatus.get? rid) ∧
      List.Forall₂ (Collected d d') batch ids := by
  induction batch generalizing d with
  | nil => exact ⟨d, [], rfl, .refl d, fun _ _ => rfl, .nil⟩
  | cons e batch ih =>
    obtain ⟨hrid, hnodup⟩ := nodup_cons.mp hnodup
    obtain ⟨he, htotal⟩ := forall_mem_cons.mp htotal
    obtain ⟨d1, hreceive, hconfig, hset⟩ := receive_spec hroom
    obtain ⟨readIds, hread⟩ := isSome_iff_exists.mp (isSome_map.symm.trans he)
    have hother : ∀ rid, rid ≠ e.rid → d1.decodeStatus.get? rid = d.decodeStatus.get? rid := by
      intro rid hne
      rw [hset, get?_set, if_neg hne]
    have hne : ∀ e' ∈ batch, e'.rid ≠ e.rid := rid_ne hrid
    obtain ⟨d', ids, hcollect, hconfig', hrest, hall⟩ :=
      @ih d1 hnodup (hroom.receive hrid hconfig hset) (by
      intro e' he'
      rw [hother _ (hne e' he'), feed, hconfig.tokenizer, hconfig.gptOss]
      exact htotal e' he')
    refine ⟨d', (readIds, _) :: ids, ?_, hconfig.trans hconfig', ?_, .cons ⟨?_, hread, rfl⟩ ?_⟩
    · simp only [collect, hreceive, hconfig.gptOss, hread, hcollect, bind_eq_bind, bind_some]
      rfl
    · intro rid hmem
      rw [map_cons, mem_cons, not_or] at hmem
      rw [hrest rid hmem.2, hother rid hmem.1]
    · rw [hrest _ hrid, hset, get?_set, if_pos rfl]
    · refine forall₂_imp_of_mem hall fun e' he' ids' hc => ?_
      obtain ⟨hstatus, hread', hsurr⟩ := hc
      rw [hother _ (hne e' he')] at hstatus hread' hsurr
      rw [hconfig.gptOss] at hread'
      exact ⟨hstatus, hread', hsurr⟩

omit hnodup in
lemma emitOne_spec {ids : List Int × List Int} (hconfig : SameConfig start d)
    (hc : Collected start d e ids) :
    ∃ d1 text, d.emitOne e ids.1 ids.2 = some (d1, text) ∧ SameConfig start d1 ∧
      (∀ rid, rid ≠ e.rid → d1.decodeStatus.get? rid = d.decodeStatus.get? rid) ∧
      start.feed (start.decodeStatus.get? e.rid) e = some (d1.decodeStatus.get? e.rid, text) := by
  obtain ⟨hstatus, hread, hsurr⟩ := hc
  generalize hs : DecodeStatus.receive (start.decodeStatus.get? e.rid) e = s at hstatus hread hsurr
  generalize hemit :
    s.emit ((start.tokenizer.decode ids.1).drop (start.tokenizer.decode ids.2).length) e = p
  have hfeed :
      start.feed (start.decodeStatus.get? e.rid) e = some (if e.finishedReason.isSome then
      none else some p.1, p.2) := by
    simp [feed, hs, hread, ← hsurr, hemit]
  have hone : d.emitOne e ids.1 ids.2 = some (if e.finishedReason.isSome then
      ({d with decodeStatus := d.decodeStatus.erase e.rid}, p.2)
        else ({d with decodeStatus := d.decodeStatus.set e.rid p.1}, p.2)) := by
    simp [emitOne, hstatus, hconfig.tokenizer, hemit]
  rw [hone, hfeed]
  cases e.finishedReason.isSome with
  | true =>
    refine ⟨_, _, rfl, ⟨hconfig.tokenizer, hconfig.gptOss, hconfig.capacity⟩, fun rid hne => ?_, ?_⟩
    · exact get?_erase.trans (if_neg hne)
    · simp [get?_erase]
  | false =>
    refine ⟨_, _, rfl, ⟨hconfig.tokenizer, hconfig.gptOss, hconfig.capacity⟩, fun rid hne => ?_, ?_⟩
    · exact get?_set.trans (if_neg hne)
    · simp [get?_set]

lemma emitAll_spec {ids : List (List Int × List Int)}
    (hconfig : SameConfig start d) (hall : List.Forall₂ (Collected start d) batch ids) : ∃ d' out,
    emitAll (batch.zip ids) d = some (d', out) ∧ SameConfig start d' ∧
      (∀ rid, rid ∉ batch.map (·.rid) → d'.decodeStatus.get? rid = d.decodeStatus.get? rid) ∧
      List.Forall₂
      (fun e text => start.feed (start.decodeStatus.get? e.rid) e =
      some (d'.decodeStatus.get? e.rid, text))
        batch out := by
  induction batch generalizing d ids with
  | nil =>
    cases hall
    exact ⟨d, [], rfl, hconfig, fun _ _ => rfl, .nil⟩
  | cons e batch ih =>
    obtain ⟨hrid, hnodup⟩ := nodup_cons.mp hnodup
    obtain _ | ⟨hc, hrest⟩ := hall
    next ids idss =>
    obtain ⟨d1, text, hone, hconfig1, hother, hfeed⟩ := emitOne_spec hconfig hc
    have hrest1 : List.Forall₂ (Collected start d1) batch idss := by
      refine forall₂_imp_of_mem hrest fun e' he' ids' hc' => ⟨?_, hc'.read, hc'.surr⟩
      rw [hother _ (rid_ne hrid e' he')]
      exact hc'.status
    obtain ⟨d', out, hemit, hconfig', hothers, hall'⟩ := ih hnodup hconfig1 hrest1
    refine ⟨d', text :: out, ?_, hconfig', ?_, .cons ?_ hall'⟩
    · simp [emitAll, hone, hemit]
    · intro rid hmem
      rw [map_cons, mem_cons, not_or] at hmem
      rw [hothers rid hmem.2, hother rid hmem.1]
    · rw [hfeed, hothers _ hrid]

lemma decodeBatchTokenIdOutput_spec (hroom : d.HasRoom batch)
    (htotal : ∀ e ∈ batch, (d.feed (d.decodeStatus.get? e.rid) e).isSome) : ∃ d' out,
    d.decodeBatchTokenIdOutput batch = some (d', out) ∧ SameConfig d d' ∧
      (∀ rid, rid ∉ batch.map (·.rid) → d'.decodeStatus.get? rid = d.decodeStatus.get? rid) ∧
      List.Forall₂
      (fun e text => d.feed (d.decodeStatus.get? e.rid) e = some (d'.decodeStatus.get? e.rid, text))
        batch out := by
  obtain ⟨d1, ids, hcollect, hconfig, hother, hall⟩ := collect_spec hnodup hroom htotal
  obtain ⟨d', out, hemit, hconfig', hother', hall'⟩ := emitAll_spec hnodup hconfig hall
  refine ⟨d', out, ?_, hconfig', fun rid hmem => (hother' rid hmem).trans (hother rid hmem), hall'⟩
  simp [decodeBatchTokenIdOutput, hcollect, hemit]

/-! ### Many batches -/

/-- What is received for a request. -/
def received (rid : String) (batches : List (List TokenIdOutput)) : List TokenIdOutput :=
  batches.flatten.filter (·.rid = rid)

/-- What is sent on for a request. -/
def sent (rid : String) (batches : List (List TokenIdOutput)) (outs : List (List Text)) :
    List Text :=
  ((batches.flatten.zip outs.flatten).filter (·.1.rid = rid)).map (·.2)

/-- No status is ever pushed out: at every batch there is room for the requests that are new. -/
def Within (d : DetokenizerManager) : List (List TokenIdOutput) → Prop
  | [] => True
  | batch :: batches =>
    d.HasRoom batch ∧ ∀ d' out, d.decodeBatchTokenIdOutput batch = some (d', out) →
      d'.Within batches

instance : Decidable (d.HasRoom batch) := inferInstanceAs (Decidable (_ ≤ _))

instance decidableWithin :
    ∀ (d : DetokenizerManager) (batches : List (List TokenIdOutput)), Decidable (d.Within batches)
  | _, [] => isTrue trivial
  | d, batch :: batches =>
    match h : d.decodeBatchTokenIdOutput batch with
    | none => decidable_of_iff (d.HasRoom batch) (by simp [Within, h])
    | some (d', out) =>
      have := decidableWithin d' batches
      decidable_of_iff (d.HasRoom batch ∧ d'.Within batches) (by simp [Within, h])

omit hnodup in
lemma feedAll_append (s : Option DecodeStatus) (es es' : List TokenIdOutput) :
    d.feedAll s (es ++ es') = (d.feedAll s es).bind fun (s, texts) =>
      (d.feedAll s es').map fun (s, texts') => (s, texts ++ texts') := by
  induction es generalizing s with
  | nil => simp [feedAll]
  | cons e es ih =>
    simp only [cons_append, feedAll, ih, bind_eq_bind, bind_assoc, bind_some]
    cases d.feed s e with
    | none => rfl
    | some p =>
      simp only [bind_some]
      cases d.feedAll p.1 es with
      | none => rfl
      | some q =>
        simp only [bind_some]
        cases d.feedAll q.1 es' <;> rfl

lemma feedAll_batch {out : List Text} (rid : String)
    (hother : rid ∉ batch.map (·.rid) → d'.decodeStatus.get? rid = d.decodeStatus.get? rid)
    (hall : List.Forall₂ (fun e text => d.feed (d.decodeStatus.get? e.rid) e =
    some (d'.decodeStatus.get? e.rid, text)) batch out) :
    d.feedAll (d.decodeStatus.get? rid) (batch.filter (·.rid = rid)) =
      some (d'.decodeStatus.get? rid, ((batch.zip out).filter (·.1.rid = rid)).map (·.2)) := by
  induction hall with
  | nil => simp [feedAll, hother]
  | @cons e text batch out hfeed hall ih =>
    obtain ⟨hrid, hnodup⟩ := nodup_cons.mp hnodup
    by_cases he : e.rid = rid
    · subst he
      have hnone : batch.filter (·.rid = e.rid) = [] :=
        filter_eq_nil_iff.mpr fun e' he' => by simpa using rid_ne hrid e' he'
      have hnone' : (batch.zip out).filter (·.1.rid = e.rid) = [] :=
        filter_eq_nil_iff.mpr fun p hp => by simpa using rid_ne hrid p.1 (of_mem_zip hp).1
      simp [hnone, hnone', feedAll, hfeed]
    · have ih := ih hnodup fun hmem => hother (by simpa [Ne.symm he] using hmem)
      simpa [he] using ih

end

lemma feed_config (h : SameConfig d d') : d'.feed = d.feed := by
  funext s e
  rw [feed, feed, h.tokenizer, h.gptOss]

lemma feedAll_config (h : SameConfig d d') (s : Option DecodeStatus) (es : List TokenIdOutput) :
    d'.feedAll s es = d.feedAll s es := by
  induction es generalizing s with
  | nil => rfl
  | cons e es ih => simp only [feedAll, feed_config h, ih]

lemma filter_rid (hnodup : (batch.map (·.rid)).Nodup) (he : e ∈ batch) :
    batch.filter (·.rid = e.rid) = [e] := by
  induction batch with
  | nil => exact absurd he not_mem_nil
  | cons e' batch ih =>
    obtain ⟨hrid, hnodup⟩ := nodup_cons.mp hnodup
    obtain rfl | he := mem_cons.mp he
    · have hnone : batch.filter (·.rid = e.rid) = [] :=
        filter_eq_nil_iff.mpr fun e' he' => by simpa using rid_ne hrid e' he'
      simp [hnone]
    · have hne : e'.rid ≠ e.rid := (rid_ne hrid e he).symm
      simpa [hne] using ih hnodup he

/-- **Requests are independent.** If no status is pushed out, every request gets the strings of its
own tokens. -/
theorem decodeAll_spec {batches : List (List TokenIdOutput)}
    (hnodup : ∀ batch ∈ batches, (batch.map (·.rid)).Nodup) (hwithin : d.Within batches)
    (htotal : ∀ rid, (d.feedAll (d.decodeStatus.get? rid) (received rid batches)).isSome) :
    ∃ d' outs,
    decodeAll batches d = some (d', outs) ∧ ∀ rid,
      d.feedAll (d.decodeStatus.get? rid)
      (received rid batches) = some (d'.decodeStatus.get? rid, sent rid batches outs) := by
  induction batches generalizing d with
  | nil => exact ⟨d, [], rfl, fun _ => rfl⟩
  | cons batch batches ih =>
    obtain ⟨hbatch, hnodup⟩ := forall_mem_cons.mp hnodup
    obtain ⟨hroom, hnext⟩ := hwithin
    have hreceived :
        ∀ rid, received rid (batch :: batches) = batch.filter
        (·.rid = rid) ++ received rid batches := by
      intro rid
      rw [received, flatten_cons, filter_append]
      rfl
    have hfeed : ∀ e ∈ batch, (d.feed (d.decodeStatus.get? e.rid) e).isSome := by
      intro e he
      have hsome := htotal e.rid
      rw [hreceived, filter_rid hbatch he, singleton_append, feedAll] at hsome
      obtain ⟨p, hp⟩ := isSome_iff_exists.mp hsome
      obtain ⟨q, hq, _⟩ := bind_eq_some_iff.mp hp
      exact isSome_iff_exists.mpr ⟨q, hq⟩
    obtain ⟨d1, out, hdecode, hconfig, hother, hall⟩ :=
      decodeBatchTokenIdOutput_spec hbatch hroom hfeed
    have hone := fun rid => feedAll_batch hbatch rid (hother rid) hall
    have hsplit : ∀ rid, d.feedAll (d.decodeStatus.get? rid) (received rid (batch :: batches)) =
        (d1.feedAll (d1.decodeStatus.get? rid) (received rid batches)).map fun (s, texts) =>
          (s, ((batch.zip out).filter (·.1.rid = rid)).map (·.2) ++ texts) := by
      intro rid
      rw [hreceived, feedAll_append, hone, bind_some, feedAll_config hconfig]
    obtain ⟨d', outs, hrest, htexts⟩ := @ih d1 hnodup (hnext d1 out hdecode) (by
      intro rid
      have := htotal rid
      rw [hsplit, isSome_map] at this
      exact this)
    refine ⟨d', out :: outs, ?_, fun rid => ?_⟩
    · simp [decodeAll, hdecode, hrest]
    · rw [hsplit, htexts, sent, sent, flatten_cons, flatten_cons, zip_append hall.length_eq,
        filter_append, map_append]
      rfl

end DetokenizerManager

end Sglang.Managers
