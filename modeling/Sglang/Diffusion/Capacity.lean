import Mathlib.Algebra.BigOperators.Ring.Finset
import Mathlib.Data.Set.Card
import Sglang.Diffusion.Orchestrator
import Sglang.Lib.Runs

/-! Slots of the diffusion pipeline.

Every free counter is the capacity less the live requests that occupy the instance, in every run
whose steps are `Tame`. The steps that are not are those in which the server drops a request without
the slots it holds, or gives work to a request it has dropped: an error result of an encoder or a
denoiser, a timeout while data is to be pushed, and a late output of a stage. -/
namespace Sglang.Diffusion

open List Option DiffusionServer Diffusion.System RequestRecord DutyKind

/-! ### What the server knows of one request -/

/-- All that concerns one request. -/
structure View where
  record : Option RequestRecord
  duties : List DutyKind
  queued : RoleType → Nat
  transfer : Bool

def dutiesOf (owed : List Duty) (r : RequestId) : List DutyKind :=
  (owed.filter (·.requestId = r)).map (·.kind)

def System.view (s : System) (r : RequestId) : View where
  record := s.server.tracker r
  duties := dutiesOf s.owed r
  queued role := (s.server.tta role).count r
  transfer := s.server.transferState r

def View.held (v : View) : List (RoleType × Nat) :=
  match v.record with
  | some record => record.slots (decide (.allocate ∈ v.duties) || decide (.push ∈ v.duties))
  | none => []

def only (role : RoleType) : RoleType → Nat := fun q => if q = role then 1 else 0

/-- Where a request can be between two steps. -/
inductive Phase : View → Prop
  | dead (duties : List DutyKind) (transfer : Bool) (h : duties.length ≤ 1) :
    Phase ⟨none, duties, fun _ => 0, transfer⟩
  | waiting (inst : RoleType → Option Nat) (transfer : Bool) :
      Phase ⟨some ⟨.encoderWaiting, inst⟩, [], only .encoder, transfer⟩
  | encoding (inst : RoleType → Option Nat) (e : Nat) (transfer : Bool)
      (he : inst .encoder = some e) :
      Phase ⟨some ⟨.encoderRunning, inst⟩, [.encode], fun _ => 0, transfer⟩
  | staged (inst : RoleType → Option Nat) (e : Nat) (he : inst .encoder = some e) :
      Phase ⟨some ⟨.denoisingWaiting, inst⟩, [], only .denoiser, true⟩
  | feeding (inst : RoleType → Option Nat) (e d : Nat) (kind : DutyKind)
      (hkind : kind = .allocate ∨ kind = .push)
      (he : inst .encoder = some e) (hd : inst .denoiser = some d) :
      Phase ⟨some ⟨.denoisingRunning, inst⟩, [kind], fun _ => 0, true⟩
  | denoising (inst : RoleType → Option Nat) (d : Nat) (hd : inst .denoiser = some d) :
      Phase ⟨some ⟨.denoisingRunning, inst⟩, [.denoise], fun _ => 0, true⟩
  | handed (inst : RoleType → Option Nat) (d : Nat) (hd : inst .denoiser = some d) :
      Phase ⟨some ⟨.decoderWaiting, inst⟩, [], only .decoder, true⟩
  | collecting (inst : RoleType → Option Nat) (d o : Nat) (kind : DutyKind)
      (hkind : kind = .allocate ∨ kind = .push)
      (hd : inst .denoiser = some d) (ho : inst .decoder = some o) :
      Phase ⟨some ⟨.decoderRunning, inst⟩, [kind], fun _ => 0, true⟩
  | decoding (inst : RoleType → Option Nat) (o : Nat) (ho : inst .decoder = some o) :
      Phase ⟨some ⟨.decoderRunning, inst⟩, [.decode], fun _ => 0, true⟩

variable {v : View}

/-- A request has at most one message under way. -/
lemma Phase.length_duties (h : Phase v) : v.duties.length ≤ 1 := by
  cases h with
  | dead _ _ h => exact h
  | _ => simp

/-- The slots of a request are on different instances: they are of different roles. -/
lemma Phase.nodup_held (h : Phase v) : v.held.Nodup := by
  have hslot (o : Option Nat) (role : RoleType) : (o.toList.map fun i => (role, i)).Nodup := by
    cases o <;> simp
  have htwo (o o' : Option Nat) {role role' : RoleType} (hne : role ≠ role') :
      ((o.toList.map fun i => (role, i)) ++ o'.toList.map fun i => (role', i)).Nodup := by
    cases o <;> cases o' <;> simp [hne]
  cases h with
  | feeding | denoising | collecting | decoding =>
    simp only [View.held, slots]
    split
    · exact htwo _ _ (by simp)
    · exact hslot _ _
  | _ => simp [View.held, slots, hslot]

section Duties
variable {owed : List Duty} {r q : RequestId} {kind : DutyKind}

lemma mem_dutiesOf : kind ∈ dutiesOf owed r ↔ ⟨r, kind⟩ ∈ owed := by
  simp only [dutiesOf, List.mem_map, List.mem_filter, decide_eq_true_eq]
  constructor
  · rintro ⟨⟨q, k⟩, ⟨hmem, hq⟩, hk⟩
    simp only at hq hk
    exact hq ▸ hk ▸ hmem
  · exact fun h => ⟨_, ⟨h, rfl⟩, rfl⟩

lemma dutiesOf_append (owed new : List Duty) (r : RequestId) :
    dutiesOf (owed ++ new) r = dutiesOf owed r ++ dutiesOf new r := by
  simp [dutiesOf]

lemma dutiesOf_erase (owed : List Duty) (r : RequestId) (kind : DutyKind) :
    dutiesOf (owed.erase ⟨r, kind⟩) r = (dutiesOf owed r).erase kind := by
  induction owed with
  | nil => rfl
  | cons d owed ih =>
    obtain ⟨q, k⟩ := d
    by_cases hq : q = r
    · subst hq
      by_cases hk : k = kind
      · subst hk
        simp [dutiesOf]
      · have hne : (⟨q, k⟩ : Duty) ≠ ⟨q, kind⟩ := by simpa using hk
        rw [erase_cons_tail (by simpa using hne)]
        have hcons (l : List Duty) : dutiesOf (⟨q, k⟩ :: l) q = k :: dutiesOf l q := by
          simp [dutiesOf]
        rw [hcons, hcons, ih, erase_cons_tail (by simpa using hk)]
    · have hne : (⟨q, k⟩ : Duty) ≠ ⟨r, kind⟩ := fun h => hq (congrArg Duty.requestId h)
      rw [erase_cons_tail (by simpa using hne)]
      have hcons (l : List Duty) : dutiesOf (⟨q, k⟩ :: l) r = dutiesOf l r := by simp [dutiesOf, hq]
      rw [hcons, hcons, ih]

lemma dutiesOf_erase_of_ne (hq : q ≠ r) : dutiesOf (owed.erase ⟨r, kind⟩) q = dutiesOf owed q := by
  induction owed with
  | nil => rfl
  | cons d owed ih =>
    obtain ⟨p, k⟩ := d
    by_cases hd : (⟨p, k⟩ : Duty) = ⟨r, kind⟩
    · rw [hd, erase_cons_head]
      simp [dutiesOf, hq.symm]
    · rw [erase_cons_tail (by simpa using hd)]
      have hcons (l : List Duty) :
          dutiesOf (⟨p, k⟩ :: l) q = (if p = q then [k] else []) ++ dutiesOf l q := by
        by_cases hp : p = q <;> simp [dutiesOf, hp]
      rw [hcons, hcons, ih]

lemma dutiesOf_new (r : RequestId) (kinds : List DutyKind) :
    dutiesOf (kinds.map (Duty.mk r)) r = kinds := by
  simp [dutiesOf, List.filter_map, Function.comp_def]

lemma dutiesOf_new_of_ne (hq : q ≠ r) (kinds : List DutyKind) :
    dutiesOf (kinds.map (Duty.mk r)) q = [] := by
  simp [dutiesOf, hq.symm]

end Duties

lemma System.view_held (s : System) (r : RequestId) : (s.view r).held = s.held r := by
  unfold View.held held transferring
  cases htracker : s.server.tracker r <;> simp [view, mem_dutiesOf, htracker]

/-! ### The invariant -/

def System.freeAt (s : System) (role : RoleType) (i : Nat) : Int :=
  (s.server.freeSlots role).getD i 0

structure Inv (c : Config) (s : System) : Prop where
  length : ∀ role, (s.server.freeSlots role).length = c.instances role
  nonneg : ∀ role i, i < c.instances role → 0 ≤ s.freeAt role i
  phase : ∀ r, Phase (s.view r)
  range : ∀ r, ∀ record ∈ (s.view r).record, ∀ role, ∀ i ∈ record.instanceOf role,
    i < c.instances role
  balance : ∃ ids : Finset RequestId, (∀ r ∉ ids, (s.view r).record = none) ∧
    ∀ role i, i < c.instances role →
    s.freeAt role i + ∑ r ∈ ids, ((s.view r).held.count (role, i) : Int) = c.capacity role

variable {c : Config} {s s' : System} {r : RequestId} {role : RoleType} {i : Nat}

lemma Inv.lt_length (h : Inv c s) (hi : i < c.instances role) :
    i < (s.server.freeSlots role).length := (h.length role).symm ▸ hi

/-- A step that concerns one request keeps the balance if the slots it gives back are those the
request held before and no longer holds. -/
lemma Inv.change (h : Inv c s) (r : RequestId) (hothers : ∀ q ≠ r, s'.view q = s.view q)
    (hlength : ∀ role, (s'.server.freeSlots role).length = (s.server.freeSlots role).length)
    (hphase : Phase (s'.view r))
    (hrange : ∀ record ∈ (s'.view r).record, ∀ role, ∀ i ∈ record.instanceOf role,
    i < c.instances role)
    (hnonneg : ∀ role i, i < c.instances role → 0 ≤ s'.freeAt role i)
    (hslots : ∀ role i, i < c.instances role →
      s'.freeAt role i + ((s'.view r).held.count (role, i) : Int) =
      s.freeAt role i + ((s.view r).held.count (role, i) : Int)) :
    Inv c s' where
  length role := (hlength role).trans (h.length role)
  nonneg := hnonneg
  phase q := by
    by_cases hq : q = r
    · exact hq ▸ hphase
    · exact hothers q hq ▸ h.phase q
  range q := by
    by_cases hq : q = r
    · exact hq ▸ hrange
    · exact hothers q hq ▸ h.range q
  balance := by
    obtain ⟨ids, hids, hsum⟩ := h.balance
    refine ⟨insert r ids, fun q hq => ?_, fun role i hi => ?_⟩
    · obtain ⟨hqr, hq⟩ := not_or.mp fun h => hq (Finset.mem_insert.mpr h)
      rw [hothers q hqr]
      exact hids q hq
    · -- the request itself, and all others
      have hold : ∑ q ∈ insert r ids, ((s.view q).held.count (role, i) : Int) = ∑ q ∈ ids,
          ((s.view q).held.count (role, i) : Int) := by
        by_cases hr : r ∈ ids
        · rw [Finset.insert_eq_of_mem hr]
        · rw [Finset.sum_insert hr, View.held, hids r hr]
          simp
      have hsplit (t : System) : ∑ q ∈ insert r ids, ((t.view q).held.count (role, i) : Int) =
          ((t.view r).held.count (role, i) : Int) + ∑ q ∈ (insert r ids).erase r,
          ((t.view q).held.count (role, i) : Int) :=
        (Finset.add_sum_erase _ _ (Finset.mem_insert_self r ids)).symm
      have hrest : ∑ q ∈ (insert r ids).erase r, ((s'.view q).held.count (role, i) : Int) =
          ∑ q ∈ (insert r ids).erase r, ((s.view q).held.count (role, i) : Int) :=
        Finset.sum_congr rfl fun q hq => by rw [hothers q (Finset.ne_of_mem_erase hq)]
      have := hsum role i hi
      rw [← hold, hsplit s] at this
      rw [hsplit s', hrest]
      have := hslots role i hi
      omega

/-! ### The parts of a step -/

section Parts
variable {t : DiffusionServer} {q : RequestId} {record : RequestRecord}
  {j : Nat} {n : Int} {assign : RoleType → Option Nat}

lemma transitionWith_tracker_of_ne {newState : RequestState} (hq : q ≠ r) :
    (t.transitionWith r newState assign).tracker q = t.tracker q := by
  unfold transitionWith RequestTracker.transition
  cases t.tracker r with
  | none => rfl
  | some record =>
    rw [bind_some]
    split <;> simp [hq]

lemma getD_modify (l : List Int) (hj : j < l.length) (n : Int) (i : Nat) :
    (l.modify j (· + n)).getD i 0 = l.getD i 0 + if i = j then n else 0 := by
  rw [getD_eq_getElem?_getD, getD_eq_getElem?_getD, getElem?_modify]
  by_cases hi : i = j
  · subst hi
    simp [getElem?_eq_getElem hj]
  · have hji : j ≠ i := fun h => hi h.symm
    cases l[i]? <;> simp [hi, hji]

end Parts

/-- What a handler does to the server, as far as one request is concerned, and to the counters: the
slots in `back` are given back, those in `taken` are taken. -/
structure Effect (t t' : DiffusionServer) (r : RequestId) (record : Option RequestRecord)
    (queued : RoleType → Nat) (transfer : Bool) (back taken : List (RoleType × Nat)) : Prop where
  tracker : t'.tracker = fun q => if q = r then record else t.tracker q
  queued : ∀ role, (t'.tta role).count r = queued role
  others : ∀ q ≠ r, ∀ role, (t'.tta role).count q = (t.tta role).count q
  transfer : t'.transferState r = transfer
  transfers : ∀ q ≠ r, t'.transferState q = t.transferState q
  length : ∀ role, (t'.freeSlots role).length = (t.freeSlots role).length
  free : ∀ role i, i < (t.freeSlots role).length →
    (t'.freeSlots role).getD i 0 + taken.count (role, i) = (t.freeSlots role).getD i 0 + back.count
    (role, i)

/-- A handled event: the phase of the request before and after it. -/
lemma Inv.of_effect (h : Inv c s) {t' : DiffusionServer}
    {record : Option RequestRecord} {queued : RoleType → Nat} {transfer : Bool}
    {back taken : List (RoleType × Nat)} {owed : List Duty} {duties : List DutyKind}
    (heffect : Effect s.server t' r record queued transfer back taken)
    (hduties : dutiesOf owed r = duties) (hother : ∀ q ≠ r, dutiesOf owed q = dutiesOf s.owed q)
    (hphase : Phase ⟨record, duties, queued, transfer⟩)
    (hrange : ∀ rec ∈ record, ∀ role, ∀ i ∈ rec.instanceOf role, i < c.instances role)
    (hheld : ∀ slot, (View.held ⟨record, duties, queued, transfer⟩).count slot + back.count slot =
      (s.view r).held.count slot + taken.count slot)
    (hroom : ∀ role i, i < c.instances role → taken.count (role, i) ≤ s.freeAt role i) :
    Inv c ⟨t', owed⟩ := by
  have hview : view ⟨t', owed⟩ r = ⟨record, duties, queued, transfer⟩ := by
    simp only [view, hduties, heffect.tracker, heffect.transfer, if_true,
      View.mk.injEq, and_true, true_and]
    exact funext heffect.queued
  refine h.change r (fun q hq => ?_) heffect.length (hview ▸ hphase) (hview ▸ hrange)
    (fun role i hi => ?_) fun role i hi => ?_
  · simp only [view, hother q hq, heffect.tracker, heffect.transfers q hq,
      if_neg hq, View.mk.injEq, and_true, true_and]
    exact funext (heffect.others q hq)
  · have hfree := heffect.free role i (h.lt_length hi)
    have hroom := hroom role i hi
    simp only [System.freeAt] at hroom ⊢
    omega
  · have hfree := heffect.free role i (h.lt_length hi)
    have hheld := hheld (role, i)
    rw [hview]
    simp only [System.freeAt]
    omega

variable {record : Option RequestRecord} {queued : RoleType → Nat} {transfer : Bool}
  {inst : RoleType → Option Nat}

section Effects
variable {t t' : DiffusionServer} {rec : RequestRecord} {back taken : List (RoleType × Nat)}

lemma getD_addFreeSlots (hi : i < (t.freeSlots role).length) (n : Int) (q : RoleType) (j : Nat) :
    ((t.addFreeSlots role i n).freeSlots q).getD j 0 =
    (t.freeSlots q).getD j 0 + n * ([(role, i)].count (q, j) : Int) := by
  simp only [addFreeSlots, count_singleton]
  by_cases hq : q = role
  · subst hq
    rw [if_pos rfl, getD_modify _ hi]
    by_cases hj : j = i
    · simp [hj]
    · have hij : ¬i = j := fun h => hj h.symm
      simp [hj, hij]
  · have hrq : ¬role = q := fun h => hq h.symm
    simp [hq, hrq]

lemma length_addFreeSlots (t : DiffusionServer) (role : RoleType) (i : Nat)
    (n : Int) (q : RoleType) :
    ((t.addFreeSlots role i n).freeSlots q).length = (t.freeSlots q).length := by
  simp only [addFreeSlots]
  split <;> simp

namespace Effect

/-- Nothing has been done yet. -/
lemma start (hrecord : t.tracker r = record) (hqueued : ∀ role, (t.tta role).count r = queued role)
    (htransfer : t.transferState r = transfer) : Effect t t r record queued transfer [] [] where
  tracker := by
    funext q
    by_cases hq : q = r
    · rw [if_pos hq, hq, hrecord]
    · rw [if_neg hq]
  queued := hqueued
  others _ _ _ := rfl
  transfer := htransfer
  transfers _ _ := rfl
  length _ := rfl
  free _ _ _ := rfl

lemma tracker_self (h : Effect t t' r record queued transfer back taken) :
    t'.tracker r = record := by
  rw [h.tracker]
  exact if_pos rfl

lemma setRecord (h : Effect t t' r record queued transfer back taken) {t2 : DiffusionServer}
    {record2 : Option RequestRecord} (hself : t2.tracker r = record2)
    (hother : ∀ q ≠ r, t2.tracker q = t'.tracker q) (htta : t2.tta = t'.tta)
    (htransfer : t2.transferState = t'.transferState) (hfree : t2.freeSlots = t'.freeSlots) :
    Effect t t2 r record2 queued transfer back taken where
  tracker := by
    funext q
    by_cases hq : q = r
    · rw [if_pos hq, hq, hself]
    · rw [if_neg hq, hother q hq, h.tracker]
      exact if_neg hq
  queued := htta ▸ h.queued
  others := htta ▸ h.others
  transfer := htransfer ▸ h.transfer
  transfers := htransfer ▸ h.transfers
  length := hfree ▸ h.length
  free := hfree ▸ h.free

section
variable (h : Effect t t' r (some rec) queued transfer back taken) (newState : RequestState)
include h newState

/-- A transition that the state allows. -/
lemma transitionWith (assign : RoleType → Option Nat) (hallows : rec.state.allows newState = true) :
    Effect t (t'.transitionWith r newState assign) r
    (some ⟨newState, fun role => (assign role).or (rec.instanceOf role)⟩)
      queued transfer back taken := by
  refine h.setRecord ?_ (fun q hq => transitionWith_tracker_of_ne hq) rfl rfl rfl
  simp [DiffusionServer.transitionWith, RequestTracker.transition, h.tracker_self, hallows]

lemma transition (hallows : rec.state.allows newState = true) :
    Effect t (t'.transition r newState) r
    (some ⟨newState, rec.instanceOf⟩) queued transfer back taken :=
  h.transitionWith newState (fun _ => none) hallows

end

section
variable (h : Effect t t' r record queued transfer back taken)
include h

lemma remove : Effect t (t'.remove r) r none queued transfer back taken :=
  h.setRecord (if_pos rfl) (fun _ hq => if_neg hq) rfl rfl rfl

lemma setPending (b : Bool) : Effect t (t'.setPending r b) r record queued transfer back taken :=
  h.setRecord h.tracker_self (fun _ _ => rfl) rfl rfl rfl

lemma transition_any (newState : RequestState) :
    Effect t (t'.transition r newState) r
    ((t'.transition r newState).tracker r) queued transfer back taken :=
  h.setRecord rfl (fun _ hq => transitionWith_tracker_of_ne hq) rfl rfl rfl

lemma completeWithError : Effect t (t'.completeWithError r) r none queued transfer back taken :=
  ((h.transition_any .failed).setPending false).remove

lemma setTransferState (b : Bool) :
    Effect t (t'.setTransferState r b) r record queued b back taken :=
  { h with transfer := if_pos rfl, transfers := fun q hq => (if_neg hq).trans (h.transfers q hq) }

end

lemma enqueue (h : Effect t t' r record (fun _ => 0) transfer back taken) (role : RoleType) :
    Effect t (t'.enqueue role r) r record (only role) transfer back taken := by
  refine { h with queued := fun q => ?_, others := fun q hq role' => ?_ }
  · have hcount := h.queued q
    by_cases hq : q = role
    · subst hq
      simp [DiffusionServer.enqueue, only, hcount]
    · simp [DiffusionServer.enqueue, only, hq, hcount]
  · have hne : ¬r = q := fun heq => hq heq.symm
    have hcount := h.others q hq role'
    by_cases hr : role' = role
    · subst hr
      simp [DiffusionServer.enqueue, hne, hcount]
    · simp [DiffusionServer.enqueue, hr, hcount]

section
variable (h : Effect t t' r record queued transfer back taken) (hi : i < (t.freeSlots role).length)
include h hi

/-- A slot is given back. -/
lemma giveBack :
    Effect t (t'.addFreeSlots role i 1) r record queued transfer ((role, i) :: back) taken := by
  refine { h with length := fun q => (length_addFreeSlots _ _ _ _ _).trans (h.length q), free := fun q j hj => ?_ }
  have hfree := h.free q j hj
  rw [getD_addFreeSlots ((h.length role).symm ▸ hi),
    show (role, i) :: back = [(role, i)] ++ back from rfl, count_append]
  omega

/-- A slot is taken. -/
lemma take :
    Effect t (t'.addFreeSlots role i (-1)) r record queued transfer back ((role, i) :: taken) := by
  refine { h with length := fun q => (length_addFreeSlots _ _ _ _ _).trans (h.length q), free := fun q j hj => ?_ }
  have hfree := h.free q j hj
  rw [getD_addFreeSlots ((h.length role).symm ▸ hi),
    show (role, i) :: taken = [(role, i)] ++ taken from rfl, count_append]
  omega

end

lemma freeInstance (h : Effect t t' r (some rec) queued transfer back taken)
    (hrole : rec.instanceOf role = some i) (hi : i < (t.freeSlots role).length) :
    Effect t (t'.freeInstance role r) r (some rec) queued transfer ((role, i) :: back) taken := by
  simpa [DiffusionServer.freeInstance, h.tracker_self, hrole] using h.giveBack hi

lemma freeInstance_none (h : Effect t t' r none queued transfer back taken) :
    Effect t (t'.freeInstance role r) r none queued transfer back taken := by
  rw [DiffusionServer.freeInstance, h.tracker_self]
  exact h

/-- The head of a queue leaves it. -/
lemma dequeue (h : Effect t t r record (only role) transfer [] []) {rest : List RequestId}
    (hhead : t.tta role = r :: rest) (policy : RoleType → DispatchPolicy) :
    Effect t
    { t with policy := policy, tta := fun q => if q = role then rest else t.tta q } r record
    (fun _ => 0) transfer [] [] := by
  refine { h with queued := fun q => ?_, others := fun q hq role' => ?_ }
  · have hcount := h.queued q
    by_cases hq : q = role
    · subst hq
      rw [hhead, count_cons_self] at hcount
      simp only [only, if_true] at hcount ⊢
      omega
    · simpa [only, hq] using hcount
  · by_cases hr : role' = role
    · subst hr
      have hne : ¬r = q := fun heq => hq heq.symm
      simp [hhead, hne]
    · simp [hr]

lemma leave (h : Effect t t' r record queued transfer back taken) :
    Effect t { t' with tta := fun role => (t'.tta role).filter (· ∉ [r]) } r record
    (fun _ => 0) transfer back taken := by
  refine { h with queued := fun role => by simp [count_eq_zero], others := fun q hq role => ?_ }
  rw [count_filter (by simpa using hq)]
  exact h.others q hq role

end Effect

end Effects

/-! ### The steps -/

lemma roundRobinLoop_free (freeSlots : List Int) :
    ∀ (rounds next : Nat), (roundRobinLoop freeSlots rounds next).1 = some i →
    0 < freeSlots.getD i 0
  | 0, _, h => nomatch h
  | rounds + 1, next, h => by
    rw [roundRobinLoop] at h
    split at h
    · next hfree => exact some.inj h ▸ hfree
    · exact roundRobinLoop_free freeSlots rounds _ h

lemma maxFreeStep_free (freeSlots : List Int) (tiebreak : Nat) {best : Option Nat × Int} (j : Nat)
    (h : 0 ≤ best.2 ∧ ∀ i ∈ best.1, 0 < best.2 ∧ freeSlots.getD i 0 = best.2) :
    let best := maxFreeStep freeSlots tiebreak best j
    0 ≤ best.2 ∧ ∀ i ∈ best.1, 0 < best.2 ∧ freeSlots.getD i 0 = best.2 := by
  obtain ⟨hnonneg, hbest⟩ := h
  unfold maxFreeStep
  dsimp only
  split
  · next hlt =>
    refine ⟨by omega, fun i hi => ?_⟩
    cases hi
    exact ⟨by omega, rfl⟩
  · split
    · next htie =>
      refine ⟨hnonneg, fun i hi => ?_⟩
      cases hi
      exact ⟨htie.2.1, htie.1⟩
    · exact ⟨hnonneg, hbest⟩

/-- The policies choose instances with a free slot. -/
lemma DispatchPolicy.selectWithCapacity_free {p : DispatchPolicy} {freeSlots : List Int} {i : Nat}
    (h : (p.selectWithCapacity freeSlots).1 = some i) : 0 < freeSlots.getD i 0 := by
  cases p with
  | roundRobin next => exact roundRobinLoop_free freeSlots _ next h
  | maxFreeSlotsFirst tiebreak =>
    have hfold (l : List Nat) : let best := l.foldl (maxFreeStep freeSlots tiebreak) (none, 0)
        0 ≤ best.2 ∧ ∀ i ∈ best.1, 0 < best.2 ∧ freeSlots.getD i 0 = best.2 := by
      induction l using List.reverseRecOn with
      | nil => exact ⟨le_rfl, fun _ h => nomatch h⟩
      | append_singleton l j ih =>
        rw [foldl_append]
        exact maxFreeStep_free freeSlots tiebreak j ih
    obtain ⟨hpos, heq⟩ := (hfold _).2 i h
    exact heq ▸ hpos

section Steps
variable {duties : List DutyKind} {kind : DutyKind}
  {handle : DiffusionServer → DiffusionServer × List Duty}

lemma Effect.of_view (h : s.view r = ⟨record, duties, queued, transfer⟩) :
    Effect s.server s.server r record queued transfer [] [] := by
  simp only [view, View.mk.injEq] at h
  exact Effect.start h.1 (congrFun h.2.2.1) h.2.2.2

/-- A message is answered, and what it leads to is sent. -/
lemma Inv.answered (h : Inv c s) (hv : s.view r = v) (hstep : s.answer r kind handle = some s')
    (kinds : List DutyKind) (hnew : (handle s.server).2 = kinds.map (Duty.mk r))
    {back : List (RoleType × Nat)}
    (heffect : Effect s.server (handle s.server).1 r record queued transfer back [])
    (hphase : Phase ⟨record, v.duties.erase kind ++ kinds, queued, transfer⟩)
    (hsame : ∀ rec ∈ record, ∃ old ∈ v.record, rec.instanceOf = old.instanceOf)
    (hheld : ∀ slot,
    (View.held ⟨record, v.duties.erase kind ++ kinds, queued, transfer⟩).count slot +
    back.count slot =
      v.held.count slot) : Inv c s' := by
  subst hv
  unfold answer at hstep
  split at hstep
  · cases hstep
    refine h.of_effect heffect ?_ (fun q hq => ?_) hphase (fun rec hrec role i hi => ?_)
      (fun slot => ?_) fun role i hi => ?_
    · rw [dutiesOf_append, dutiesOf_erase, hnew, dutiesOf_new]
      rfl
    · rw [dutiesOf_append, dutiesOf_erase_of_ne hq, hnew, dutiesOf_new_of_ne hq, append_nil]
    · obtain ⟨old, hold, heq⟩ := hsame rec hrec
      exact h.range r old hold role i (heq ▸ hi)
    · simpa using hheld slot
    · simpa using h.nonneg role i hi
  · nomatch hstep

lemma System.answer_mem (hstep : s.answer r kind handle = some s') : kind ∈ (s.view r).duties := by
  unfold answer at hstep
  split at hstep
  · next h => exact mem_dutiesOf.mpr h
  · nomatch hstep

section
variable (h : Inv c s) {error : Bool}
include h

lemma Inv.clientRequest (hfresh : s.server.tracker r = none → dutiesOf s.owed r = []) :
    Inv c { s with server := s.server.handleClientRequest r } := by
  have hphase := h.phase r
  generalize hv : s.view r = v at hphase
  have hrecord : s.server.tracker r = v.record := hv ▸ rfl
  have hduties : dutiesOf s.owed r = v.duties := hv ▸ rfl
  unfold handleClientRequest
  cases hphase with
  | dead duties transfer hlength =>
    obtain rfl : duties = [] := hduties.symm.trans (hfresh hrecord)
    rw [if_neg (by simp [hrecord])]
    have hcreated :
      Effect s.server
      { s.server with tracker := fun q => if q = r then some {} else s.server.tracker q } r
      (some {})
        (fun _ => 0) transfer [] [] :=
      (Effect.of_view hv).setRecord (if_pos rfl) (fun q hq => if_neg hq) rfl rfl rfl
    refine h.of_effect
      (((hcreated.setPending true).transition .encoderWaiting rfl).enqueue .encoder) hduties
      (fun _ _ => rfl)
      (.waiting _ _) (fun rec hrec role i hi => ?_) (fun slot => ?_) fun role i hi => ?_
    · cases hrec
      nomatch hi
    · simp [hv, View.held, slots]
    · simpa using h.nonneg role i hi
  | _ =>
    rw [if_pos (by simp [hrecord])]
    exact h

lemma Inv.staged (hlive : (s.server.tracker r).isSome)
    (hstep : s.answer r .encode (fun t => (t.handleTransferStaged r, [])) = some s') :
    Inv c s' := by
  have hphase := h.phase r
  have hmem := answer_mem hstep
  generalize hv : s.view r = v at hphase hmem
  have hrecord : s.server.tracker r = v.record := hv ▸ rfl
  cases hphase with
  | dead => simp [hrecord] at hlive
  | encoding inst e transfer he =>
    have heffect :=
      ((((Effect.of_view hv).setTransferState true).transition .encoderDone rfl).transition .denoisingWaiting rfl).enqueue
      .denoiser
    exact h.answered hv hstep [] rfl heffect (.staged inst e he) (by simp)
      (by simp [View.held, slots])
  | feeding _ _ _ _ hkind | collecting _ _ _ _ hkind => rcases hkind with rfl | rfl <;> simp at hmem
  | _ => simp at hmem

lemma Inv.roleError (hgone : s.server.tracker r = none)
    (hstep : s.answer r kind (fun t => (t.handleRoleErrorFrames r, [])) = some s') : Inv c s' := by
  have hphase := h.phase r
  generalize hv : s.view r = v at hphase
  have hrecord : s.server.tracker r = v.record := hv ▸ rfl
  cases hphase with
  | dead duties transfer hlength =>
    refine h.answered hv hstep [] rfl (Effect.of_view hv).completeWithError
      (.dead _ transfer ?_) (by simp) (by simp [View.held])
    rw [append_nil]
    exact (length_erase_le).trans hlength
  | _ => simp [hrecord] at hgone

lemma Inv.allocated
    (hstep : s.answer r .allocate (fun t => (t, t.handleTransferAllocated r)) = some s') :
    Inv c s' := by
  have hphase := h.phase r
  have hmem := answer_mem hstep
  generalize hv : s.view r = v at hphase hmem
  have htransfer : s.server.transferState r = v.transfer := hv ▸ rfl
  have hpush (b : Bool) (hb : s.server.transferState r = b) :
      s.server.handleTransferAllocated r = (if b then [push] else []).map (Duty.mk r) := by
    cases b <;> simp [handleTransferAllocated, hb]
  have heffect := Effect.of_view hv
  cases hphase with
  | dead duties transfer hlength =>
    refine h.answered hv hstep _ (hpush _ htransfer) heffect (.dead _ transfer ?_)
      (by simp) (by simp [View.held])
    have hpushes : (if transfer then [push] else []).length ≤ 1 := by cases transfer <;> simp
    simp only [length_append, length_erase_of_mem hmem]
    omega
  | feeding inst e d kind hkind he hd =>
    obtain rfl : allocate = kind := mem_singleton.mp hmem
    exact h.answered hv hstep _ (hpush _ htransfer) heffect
      (.feeding inst e d .push (.inr rfl) he hd) (by simp)
      (by simp [View.held])
  | collecting inst d o kind hkind hd ho =>
    obtain rfl : allocate = kind := mem_singleton.mp hmem
    exact h.answered hv hstep _ (hpush _ htransfer) heffect
      (.collecting inst d o .push (.inr rfl) hd ho) (by simp)
      (by simp [View.held])
  | _ => simp at hmem

/-- The push is over and the slot of the sender free. -/
lemma Inv.pushed (hstep : s.answer r .push (fun t => t.handleTransferPushed r) = some s') :
    Inv c s' := by
  have hphase := h.phase r
  have hmem := answer_mem hstep
  have hrange := h.range r
  generalize hv : s.view r = v at hphase hmem hrange
  have htransfer : s.server.transferState r = v.transfer := hv ▸ rfl
  have hrecord : s.server.tracker r = v.record := hv ▸ rfl
  have heffect := Effect.of_view hv
  cases hphase with
  | dead duties transfer hlength =>
    have hignored : s.server.handleTransferPushed r = (s.server, []) := by
      simp [handleTransferPushed, hrecord]
    refine h.answered hv hstep [] (by rw [hignored]; rfl) (by rw [hignored]; exact heffect)
      (.dead _ transfer ?_) (by simp)
      (by simp [View.held])
    rw [append_nil]
    exact (length_erase_le).trans hlength
  | feeding inst e d kind hkind he hd =>
    obtain rfl : push = kind := mem_singleton.mp hmem
    have hhandled :
        s.server.handleTransferPushed r = (s.server.freeInstance .encoder r, [⟨r, .denoise⟩]) := by
      simp [handleTransferPushed, hrecord, htransfer]
    have hfreed := heffect.freeInstance he (h.lt_length (hrange _ rfl _ _ he))
    refine h.answered hv hstep [.denoise] (by rw [hhandled]; rfl) (by rw [hhandled]; exact hfreed)
      (.denoising inst d hd) (by simp)
      fun slot => ?_
    simp [View.held, slots, he, hd, count_cons]
  | collecting inst d o kind hkind hd ho =>
    obtain rfl : push = kind := mem_singleton.mp hmem
    have hhandled :
        s.server.handleTransferPushed r = (s.server.freeInstance .denoiser r, [⟨r, .decode⟩]) := by
      simp [handleTransferPushed, hrecord, htransfer]
    have hfreed := heffect.freeInstance hd (h.lt_length (hrange _ rfl _ _ hd))
    refine h.answered hv hstep [.decode] (by rw [hhandled]; rfl) (by rw [hhandled]; exact hfreed)
      (.decoding inst o ho) (by simp)
      fun slot => ?_
    simp [View.held, slots, ho, hd, count_cons]
  | _ => simp at hmem

lemma Inv.denoiserDone {stagedForDecoder : Bool}
    (hlive : error = false → (s.server.tracker r).isSome → stagedForDecoder = true)
    (hgone : error = false → s.server.tracker r = none → s.server.transferState r = true →
    stagedForDecoder = false)
    (hstep : s.answer r .denoise
    (fun t => (t.handleTransferDoneDenoiser r error stagedForDecoder, [])) = some s') :
    Inv c s' := by
  have hphase := h.phase r
  have hmem := answer_mem hstep
  have hrange := h.range r
  generalize hv : s.view r = v at hphase hmem hrange
  have htransfer : s.server.transferState r = v.transfer := hv ▸ rfl
  have hrecord : s.server.tracker r = v.record := hv ▸ rfl
  have heffect := Effect.of_view hv
  cases hphase with
  | dead duties transfer hlength =>
    have hdone :
        Effect s.server
        (s.server.handleTransferDoneDenoiser r error stagedForDecoder) r none (fun _ => 0) transfer
        [] [] := by
      cases error with
      | true => exact heffect.freeInstance_none.completeWithError
      | false =>
        have hskip : s.server.transition r .denoisingDone = s.server := by
          simp [transition, transitionWith, RequestTracker.transition, hrecord]
        have hunstaged : (s.server.transferState r && stagedForDecoder) = false := by
          cases htr : s.server.transferState r with
          | true => rw [hgone rfl hrecord htr]; rfl
          | false => rfl
        simp only [handleTransferDoneDenoiser, Bool.false_eq_true, if_false, hskip, hunstaged]
        exact heffect.freeInstance_none
    refine h.answered hv hstep [] rfl hdone (.dead _ transfer ?_) (by simp) (by simp [View.held])
    rw [append_nil]
    exact (length_erase_le).trans hlength
  | denoising inst d hd =>
    have hlt := h.lt_length (hrange _ rfl _ _ hd)
    cases error with
    | true =>
      refine h.answered hv hstep [] rfl (heffect.freeInstance hd hlt).completeWithError
        (.dead _ _ (by simp)) (by simp) fun slot => ?_
      simp [View.held, slots, hd]
    | false =>
      have hstaged :
          ((s.server.transition r .denoisingDone).transferState r && stagedForDecoder) = true := by
        rw [hlive rfl (by simp [hrecord]), Bool.and_true]
        exact htransfer
      have hdone : Effect s.server (s.server.handleTransferDoneDenoiser r false stagedForDecoder) r
        (some ⟨.decoderWaiting, inst⟩)
          (only .decoder) true [] [] := by
        simp only [handleTransferDoneDenoiser, Bool.false_eq_true, if_false]
        rw [if_pos hstaged]
        exact ((heffect.transition .denoisingDone rfl).transition .decoderWaiting rfl).enqueue
          .decoder
      exact h.answered hv hstep [] rfl hdone (.handed inst d hd) (by simp)
        (by simp [View.held, slots])
  | feeding _ _ _ _ hkind | collecting _ _ _ _ hkind => rcases hkind with rfl | rfl <;> simp at hmem
  | _ => simp at hmem

/-- The two ways in which a decoder reports: both give its slot back and drop the request. -/
lemma Inv.decoded {handle : DiffusionServer → DiffusionServer}
    (hhandle : ∀ {back : List (RoleType × Nat)} {record : Option RequestRecord} {transfer : Bool},
      Effect s.server (s.server.freeInstance .decoder r) r record (fun _ => 0) transfer back [] →
      ∃ transfer, Effect s.server (handle s.server) r none (fun _ => 0) transfer back [])
    (hstep : s.answer r .decode (fun t => (handle t, [])) = some s') : Inv c s' := by
  have hphase := h.phase r
  have hmem := answer_mem hstep
  have hrange := h.range r
  generalize hv : s.view r = v at hphase hmem hrange
  cases hphase with
  | dead duties transfer hlength =>
    obtain ⟨transfer', heffect⟩ := hhandle (Effect.of_view hv).freeInstance_none
    refine h.answered hv hstep [] rfl heffect (.dead _ _ ?_) (by simp) (by simp [View.held])
    rw [append_nil]
    exact (length_erase_le).trans hlength
  | decoding inst o ho =>
    have hlt := h.lt_length (hrange _ rfl _ _ ho)
    obtain ⟨transfer', heffect⟩ := hhandle ((Effect.of_view hv).freeInstance ho hlt)
    refine h.answered hv hstep [] rfl heffect (.dead _ _ (by simp)) (by simp) fun slot => ?_
    simp [View.held, slots, ho]
  | feeding _ _ _ _ hkind | collecting _ _ _ _ hkind => rcases hkind with rfl | rfl <;> simp at hmem
  | _ => simp at hmem

/-- The decoder is done, and the request with it. -/
lemma Inv.decoderDone
    (hstep : s.answer r .decode (fun t => (t.handleTransferDoneDecoder r error, [])) = some s') :
    Inv c s' := by
  refine h.decoded (fun heffect => ⟨false, ?_⟩) hstep
  cases error with
  | true => exact heffect.completeWithError.setTransferState false
  | false =>
    exact ((heffect.transition_any .done).setPending false).remove.setTransferState false

lemma Inv.decoderResult
    (hstep : s.answer r .decode (fun t => (t.handleDecoderResultFrames r error, [])) = some s') :
    Inv c s' := by
  refine h.decoded (fun heffect => ?_) hstep
  have hremoved :=
    ((heffect.transition_any (if error then .failed else .done)).setPending false).remove
  unfold handleDecoderResultFrames
  generalize (if error then RequestState.failed else RequestState.done) = newState at hremoved ⊢
  dsimp only
  split
  · exact ⟨false, hremoved.setTransferState false⟩
  · exact ⟨_, hremoved⟩

/-- A waiting request gets a slot of the next role. -/
lemma Inv.dispatched {rest : List RequestId} {idx : Nat} {old newState : RequestState}
    {policy : RoleType → DispatchPolicy}
    (hv : s.view r = ⟨some ⟨old, inst⟩, [], only role, transfer⟩)
    (hhead : s.server.tta role = r :: rest) (hfree : 0 < s.freeAt role idx)
    (hallows : old.allows newState = true)
    (hphase : ∀ inst', (∀ q, inst' q = if q = role then some idx else inst q) →
      Phase ⟨some ⟨newState, inst'⟩, [kind], fun _ => 0, transfer⟩)
    (hheld : ∀ inst', (∀ q, inst' q = if q = role then some idx else inst q) →
      ∀ slot, (View.held ⟨some ⟨newState, inst'⟩, [kind], fun _ => 0, transfer⟩).count slot =
        (s.view r).held.count slot + [(role, idx)].count slot) :
    Inv c
    ⟨({ s.server with policy := policy, tta := fun q => if q = role then rest else s.server.tta q }.addFreeSlots role idx
      (-1)).transitionTo r newState role idx, s.owed ++ [⟨r, kind⟩]⟩ := by
  have hidx : idx < (s.server.freeSlots role).length := by
    by_contra hge
    rw [System.freeAt, getD_eq_getElem?_getD, getElem?_eq_none (by omega), getD_none] at hfree
    omega
  have hinst (q : RoleType) : ((if q = role then some idx else none).or (inst q)) = if q = role then
      some idx else inst q := by
    split <;> simp
  have heffect := (((Effect.of_view hv).dequeue hhead policy).take hidx).transitionWith newState
    (fun q => if q = role then some idx else none) hallows
  refine h.of_effect heffect ?_ (fun q hq => ?_) (hphase _ hinst) (fun rec hrec q i hi => ?_)
    (fun slot => ?_) fun q i hi => ?_
  · rw [dutiesOf_append, show dutiesOf s.owed r = [] from congrArg View.duties hv]
    exact dutiesOf_new r [kind]
  · simp [dutiesOf, hq.symm]
  · cases hrec
    simp only [hinst] at hi
    split at hi
    · next hq =>
      cases hi
      rw [hq, ← h.length role]
      exact hidx
    · have hrange := h.range r
      rw [hv] at hrange
      exact hrange _ rfl q i hi
  · simpa using hheld _ hinst slot
  · have hnonneg := h.nonneg q i hi
    rw [count_singleton]
    split
    · next heq =>
      obtain ⟨rfl, rfl⟩ := Prod.mk.inj (beq_iff_eq.mp heq)
      exact hfree
    · exact hnonneg

/-- The head of a queue is dispatched. -/
lemma Inv.drain {fast : Bool} {result : DiffusionServer × List Duty}
    (hstep : s.server.drain role fast = some result) : Inv c ⟨result.1, s.owed ++ result.2⟩ := by
  unfold DiffusionServer.drain at hstep
  split at hstep
  · nomatch hstep
  rename_i r rest hhead
  split at hstep
  · nomatch hstep
  rename_i idx policy hselect
  have hfree : 0 < s.freeAt role idx :=
    @DispatchPolicy.selectWithCapacity_free (s.server.policy role) _ idx (by rw [hselect])
  cases hstep
  have hphase := h.phase r
  generalize hv : s.view r = v at hphase
  have hqueued : 0 < v.queued role := by
    have hcount : v.queued role = (s.server.tta role).count r := hv ▸ rfl
    rw [hcount, hhead, count_cons_self]
    omega
  -- a request waits in one queue only, that of its next stage
  have honly {next : RoleType} (h : 0 < only next role) : role = next := by
    by_contra hne
    simp [only, hne] at h
  cases hphase with
  | waiting inst transfer =>
    obtain rfl := honly hqueued
    refine h.dispatched hv hhead hfree rfl (fun inst' hinst => ?_) fun inst' hinst slot => ?_
    · exact .encoding inst' idx transfer (by simp [hinst])
    · simp [hv, View.held, slots, hinst]
  | staged inst e he =>
    obtain rfl := honly hqueued
    refine h.dispatched hv hhead hfree rfl (fun inst' hinst => ?_) fun inst' hinst slot => ?_
    · exact .feeding inst' e idx _ (by cases fast <;> simp) (by simp [hinst, he]) (by simp [hinst])
    · cases fast <;> simp [hv, View.held, slots, running, hinst, he, count_cons, add_comm]
  | handed inst d hd =>
    obtain rfl := honly hqueued
    refine h.dispatched hv hhead hfree rfl (fun inst' hinst => ?_) fun inst' hinst slot => ?_
    · exact .collecting inst' d idx _ (by cases fast <;> simp) (by simp [hinst, hd])
        (by simp [hinst])
    · cases fast <;> simp [hv, View.held, slots, running, hinst, hd, count_cons, add_comm]
  | _ => simp at hqueued

end

/-! Requests that time out together -/

lemma handleTimeout_tta (t : DiffusionServer) (tta : RoleType → List RequestId) (r : RequestId) :
    { t with tta := tta }.handleTimeout r = { t.handleTimeout r with tta := tta } := by
  have hfree (t : DiffusionServer) (role : RoleType) :
      { t with tta := tta }.freeInstance role r = { t.freeInstance role r with tta := tta } := by
    unfold DiffusionServer.freeInstance
    cases (t.tracker r).bind (·.instanceOf role) <;> rfl
  unfold handleTimeout
  cases t.tracker r with
  | none => rfl
  | some record =>
    unfold freeSlotForRecord
    dsimp only
    cases record.state <;> simp only [hfree] <;> rfl

lemma foldl_handleTimeout_tta (ids : List RequestId) (t : DiffusionServer)
    (tta : RoleType → List RequestId) :
    ids.foldl handleTimeout
    { t with tta := tta } = { ids.foldl handleTimeout t with tta := tta } := by
  induction ids generalizing t with
  | nil => rfl
  | cons r ids ih => rw [foldl_cons, handleTimeout_tta, ih, foldl_cons]

lemma handleTimeouts_cons (t : DiffusionServer) (r : RequestId) (ids : List RequestId) :
    t.handleTimeouts (r :: ids) = (t.handleTimeouts [r]).handleTimeouts ids := by
  have htta : (ids.foldl handleTimeout (t.handleTimeout r)).tta = (t.handleTimeout r).tta := by
    have hfold :=
      congrArg tta (foldl_handleTimeout_tta ids (t.handleTimeout r) (t.handleTimeout r).tta)
    exact hfold
  unfold handleTimeouts
  simp only [List.foldl_cons, List.foldl_nil, foldl_handleTimeout_tta, htta, List.filter_filter]
  congr
  funext role
  congr
  funext q
  simp [Bool.and_comm]

/-- A request whose slots the timeout knows: it is not between two stages. -/
def TimesOutTamely (s : System) (r : RequestId) : Prop :=
  ∀ record ∈ s.server.tracker r,
    record.state ∈ [.pending, .encoderWaiting, .encoderRunning] ∨
      record.state ∈ [.denoisingRunning, .decoderRunning] ∧ s.transferring r = false

/-- A request that times out gives back the slots it has. -/
lemma Effect.timeout (h : Inv c s) (htame : TimesOutTamely s r) :
    ∃ back, Effect s.server (s.server.handleTimeouts [r]) r none (fun _ => 0)
    (s.view r).transfer back [] ∧
      ∀ slot, back.count slot = (s.view r).held.count slot := by
  have hphase := h.phase r
  have hrange := h.range r
  have hmoving (kind : DutyKind) (hkind : kind = .allocate ∨ kind = .push)
    (hmem : kind ∈ (s.view r).duties) :
      s.transferring r = true := by
    have howed := mem_dutiesOf.mp hmem
    rcases hkind with rfl | rfl <;> simp [transferring, howed]
  generalize hv : s.view r = v at hphase hrange hmoving
  have hrecord : s.server.tracker r = v.record := hv ▸ rfl
  have heffect := Effect.of_view hv
  have hone : s.server.handleTimeouts [r] =
      { s.server.handleTimeout r with tta := fun role => ((s.server.handleTimeout r).tta role).filter (· ∉ [r]) } := rfl
  rw [hone]
  unfold handleTimeout
  unfold TimesOutTamely at htame
  rw [hrecord] at htame ⊢
  cases hphase with
  | dead => exact ⟨_, heffect.completeWithError.leave, by simp [View.held]⟩
  | waiting inst => exact ⟨_, heffect.completeWithError.leave, by simp [View.held, slots]⟩
  | encoding inst e transfer he =>
    exact ⟨_, (heffect.freeInstance he (h.lt_length (hrange _ rfl _ _ he))).completeWithError.leave,
      by simp [View.held, slots, he]⟩
  | denoising inst d hd =>
    exact ⟨_, (heffect.freeInstance hd (h.lt_length (hrange _ rfl _ _ hd))).completeWithError.leave,
      by simp [View.held, slots, hd]⟩
  | decoding inst o ho =>
    exact ⟨_, (heffect.freeInstance ho (h.lt_length (hrange _ rfl _ _ ho))).completeWithError.leave,
      by simp [View.held, slots, ho]⟩
  | staged | handed => exact absurd (htame _ rfl) (by simp)
  | feeding _ _ _ kind hkind | collecting _ _ _ kind hkind =>
    exact absurd (htame _ rfl) (by simp [hmoving kind hkind (mem_singleton_self kind)])

lemma Inv.timeout (h : Inv c s) (htame : TimesOutTamely s r) :
    Inv c { s with server := s.server.handleTimeouts [r] } := by
  obtain ⟨back, heffect, hback⟩ := Effect.timeout h htame
  refine h.of_effect heffect rfl (fun _ _ => rfl) (.dead _ _ (h.phase r).length_duties)
    (by simp) (fun slot => ?_) fun role i hi => ?_
  · simpa [View.held] using hback slot
  · simpa using h.nonneg role i hi

lemma Inv.timeouts (ids : List RequestId) (hnodup : ids.Nodup) (h : Inv c s)
    (htame : ∀ r ∈ ids, TimesOutTamely s r) :
    Inv c { s with server := s.server.handleTimeouts ids } := by
  induction ids generalizing s with
  | nil =>
    have hnil : s.server.handleTimeouts [] = s.server := by simp [handleTimeouts]
    rw [hnil]
    exact h
  | cons r ids ih =>
    obtain ⟨hr, hnodup⟩ := nodup_cons.mp hnodup
    obtain ⟨back, heffect, _⟩ := Effect.timeout h (htame r mem_cons_self)
    rw [handleTimeouts_cons]
    refine ih hnodup (h.timeout (htame r mem_cons_self)) fun q hq record hrecord => ?_
    have hqr : q ≠ r := fun heq => hr (heq ▸ hq)
    have hkeep : (s.server.handleTimeouts [r]).tracker q = s.server.tracker q := by
      rw [heffect.tracker]
      exact if_neg hqr
    exact htame q (mem_cons_of_mem r hq) record (hkeep ▸ hrecord)

end Steps

/-! ### Runs -/

/-- The steps in which the server knows all that the request holds. -/
def Tame (s : System) : Event → Prop
  | .clientRequest r => s.server.tracker r = none → ∀ kind, ⟨r, kind⟩ ∉ s.owed
  | .staged r => (s.server.tracker r).isSome
  | .roleError r _ => s.server.tracker r = none
  | .denoiserDone r error stagedForDecoder =>
    error = false → ((s.server.tracker r).isSome → stagedForDecoder = true) ∧
      (s.server.tracker r = none → s.server.transferState r = true → stagedForDecoder = false)
  | .timeouts ids => ∀ r ∈ ids, TimesOutTamely s r
  | _ => True

def TameStep (s s' : System) : Prop := ∃ e, Tame s e ∧ s.step e = some s'

lemma TameStep.of_event (e : Event) (htame : Tame s e) (hstep : s.step e = some s') :
    TameStep s s' :=
  ⟨e, htame, hstep⟩

lemma Inv.create (c : Config) : Inv c (System.create c) where
  length role := by simp [System.create]
  nonneg role i hi := by simp [System.freeAt, System.create, hi]
  phase r := .dead [] false (Nat.zero_le 1)
  range r record hrecord := nomatch hrecord
  balance := ⟨∅, fun r _ => rfl, fun role i hi => by simp [System.freeAt, System.create, hi]⟩

/-- Every tame step keeps the slots accounted for. -/
lemma Inv.step (h : Inv c s) (hstep : TameStep s s') : Inv c s' := by
  obtain ⟨e, htame, hstep⟩ := hstep
  cases e with
  | clientRequest r =>
    cases hstep
    refine h.clientRequest fun hgone => eq_nil_iff_forall_not_mem.mpr fun kind hkind => ?_
    exact htame hgone kind (mem_dutiesOf.mp hkind)
  | drain role fast =>
    obtain ⟨result, hdrain, rfl⟩ := map_eq_some_iff.mp hstep
    exact h.drain hdrain
  | staged r => exact h.staged htame hstep
  | roleError r kind =>
    simp only [System.step] at hstep
    split at hstep
    · exact h.roleError htame hstep
    · nomatch hstep
  | allocated r => exact h.allocated hstep
  | pushed r => exact h.pushed hstep
  | denoiserDone r error stagedForDecoder =>
    exact h.denoiserDone (fun herror => (htame herror).1) (fun herror => (htame herror).2) hstep
  | decoderDone r error => exact h.decoderDone hstep
  | decoderResult r error => exact h.decoderResult hstep
  | timeouts ids =>
    simp only [System.step] at hstep
    split at hstep
    · next hids =>
      cases hstep
      exact h.timeouts ids hids.1 htame
    · nomatch hstep

/-- Every counter is the capacity less the live requests on the instance. -/
structure System.Conserved (c : Config) (s : System) : Prop where
  length : ∀ role, (s.server.freeSlots role).length = c.instances role
  bounds : ∀ role i, i < c.instances role → 0 ≤ s.freeAt role i ∧ s.freeAt role i ≤ c.capacity role
  finite : ∀ role i, {r | s.Occupies role i r}.Finite
  count : ∀ role i, i < c.instances role →
    s.freeAt role i = c.capacity role - ({r | s.Occupies role i r}.ncard : Int)
  restored : (∀ r, s.server.tracker r = none) →
    ∀ role, s.server.freeSlots role = List.replicate (c.instances role) (c.capacity role : Int)

/-- Free slots and those of requests are all there are. -/
lemma Inv.conserved (h : Inv c s) : s.Conserved c := by
  obtain ⟨ids, hids, hsum⟩ := h.balance
  have hset (role : RoleType) (i : Nat) :
      {r | s.Occupies role i r} =
        ((ids.filter fun r => (role, i) ∈ s.held r : Finset RequestId) : Set RequestId) := by
    ext r
    simp only [Set.mem_ofPred_eq, Finset.coe_filter, System.Occupies]
    refine ⟨fun hr => ⟨?_, hr⟩, And.right⟩
    by_contra hnot
    rw [← view_held, View.held, hids r hnot] at hr
    nomatch hr
  have hcount (role : RoleType) (i : Nat) : ∑ r ∈ ids, ((s.view r).held.count (role, i) : Int) =
      ({r | s.Occupies role i r}.ncard : Int) := by
    rw [hset, Set.ncard_coe_finset, Finset.card_filter, Nat.cast_sum]
    refine Finset.sum_congr rfl fun r _ => ?_
    rw [(h.phase r).nodup_held.count, view_held]
  have hfree (role : RoleType) (i : Nat) (hi : i < c.instances role) :
      s.freeAt role i = c.capacity role - ({r | s.Occupies role i r}.ncard : Int) := by
    rw [← hcount]
    have := hsum role i hi
    omega
  refine ⟨h.length, fun role i hi => ⟨h.nonneg role i hi, by rw [hfree role i hi]; omega⟩,
    fun role i => hset role i ▸ Finset.finite_toSet _, hfree, fun hnone role => ?_⟩
  have hempty (i : Nat) : {r | s.Occupies role i r} = ∅ := by
    ext r
    simp [System.Occupies, held, hnone r]
  refine eq_replicate_iff.mpr ⟨h.length role, fun n hn => ?_⟩
  obtain ⟨i, hi, rfl⟩ := mem_iff_getElem.mp hn
  have hval := hfree role i (h.length role ▸ hi)
  rw [hempty, Set.ncard_empty] at hval
  simpa [System.freeAt, getD_eq_getElem?_getD, getElem?_eq_getElem hi] using hval

theorem capacity_conserved (c : Config) {history : List System}
    (h : Runs.Run TameStep (System.create c) history) :
    ∀ s ∈ history, s.Conserved c := fun s hs =>
  (h.invariant (Inv.create c) (fun _ _ => Inv.step) s hs).conserved

def oneOfEach : Config where
  instances _ := 1
  capacity _ := 1
  policy _ := .roundRobin 0

open TameStep

/-- A request that is encoded and pushed to the denoiser while a second one waits. -/
theorem capacity_conserved_two_requests :
    ∃ history, history.length = 7 ∧ Runs.Run TameStep (System.create oneOfEach) history ∧
    ∀ s ∈ history, s.Conserved oneOfEach := by
  have h0 := @Runs.Run.nil _ TameStep (System.create oneOfEach)
  have h1 := h0.cons (of_event (.clientRequest "a") (fun _ _ h => nomatch h) rfl)
  have h2 := h1.cons (of_event (.clientRequest "b") (fun _ _ h => nomatch h) rfl)
  have h3 := h2.cons (of_event (.drain .encoder false) trivial rfl)
  have h4 := h3.cons (of_event (.staged "a") rfl rfl)
  have h5 := h4.cons (of_event (.drain .denoiser true) trivial rfl)
  have h6 := h5.cons (of_event (.pushed "a") trivial rfl)
  exact ⟨_, rfl, h6, capacity_conserved oneOfEach h6⟩

/-- An encoder that answers with an error: the request is dropped, its slot is not given back. -/
theorem encoder_error_leaks :
    ∃ s, [.clientRequest "a", .drain .encoder false, .roleError "a" .encode].foldlM System.step
    (System.create oneOfEach) = some s ∧ (∀ r, s.server.tracker r = none) ∧
    s.server.freeSlots .encoder = [0] ∧
    ¬s.Conserved oneOfEach := by
  refine ⟨_, rfl,
    (fun hgone => ⟨hgone, rfl, fun h => absurd (h.restored hgone .encoder) (by decide)⟩) fun r =>
    ?_⟩
  by_cases hr : r = "a"
  · exact if_pos hr
  · exact (if_neg hr).trans ((if_neg hr).trans ((if_neg hr).trans ((if_neg hr).trans (if_neg hr))))

end Sglang.Diffusion
