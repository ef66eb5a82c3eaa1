import Sglang.Lib.Runs
import Sglang.Session.Ledger
import Sglang.Session.StreamingSession

/-! One active request for a streaming session.

In every run whose steps are `Tame` the flag of a session is set exactly while it has an active
request, and nobody else uses the row of its slot. The steps that are not are those in which the
flag and the requests part: an active request that is taken out of the queue, or does not get into
it, leaves it set, a retracted one clears it, and so does a request that was refused because another
one is active. -/
namespace Sglang.Sessions

open List Option Req Ledger Scheduler SessionSlot

/-! ### The ledger of a scheduler -/

def Req.doomed (req : Req) : Bool :=
  req.toFinish.isSome && (req.stage = .waitingQueue || req.stage = .grammarQueue)

namespace Scheduler

def ledger (s : Scheduler) : Ledger where
  active := s.activeOn
  row := s.rowOf
  doomed r := (s.reqs r).any doomed
  flag o := (s.objects o).inflight
  name o := (s.objects o).sessionId
  opened := s.sessions.get?
  slot id := (s.slots id).bind (·.reqPoolIdx)
  node o := (s.objects o).reqNodes
  free := s.freeSlots
  nextReq := s.nextReq
  nextSession := s.nextSession

variable {s : Scheduler} {r o : Nat} {req : Req} {id : String}

section
variable (s : Scheduler)

lemma ledger_setReq (r : Nat) (req : Req) :
    (s.setReq r req).ledger =
    ((s.ledger.setActive r req.activeOn).setRow r req.row).setDoomed r req.doomed := by
  simp only [ledger, Ledger.setActive, Ledger.setRow, Ledger.setDoomed,
    setReq, Ledger.mk.injEq, and_true]
  refine ⟨?_, ?_, ?_⟩ <;> funext i
  · by_cases hi : i = r <;> simp [activeOn, hi]
  · by_cases hi : i = r <;> simp [rowOf, hi]
  · by_cases hi : i = r <;> simp [hi]

lemma ledger_setSlot (id : String) (slot : Option SessionSlot) :
    (s.setSlot id slot).ledger = s.ledger.setSlot id (slot.bind (·.reqPoolIdx)) := by
  simp only [ledger, Ledger.setSlot, setSlot, Ledger.mk.injEq, and_true, true_and]
  refine ⟨rfl, rfl, ?_⟩
  funext i
  by_cases hi : i = id <;> simp [hi]

lemma ledger_setSession {session : Session} (hid : session.sessionId = (s.objects o).sessionId) :
    (s.setSession o session).ledger =
    (s.ledger.setFlag o session.inflight).setNode o session.reqNodes := by
  simp only [ledger, setSession, Ledger.setFlag, Ledger.setNode, Ledger.mk.injEq,
    and_true, true_and]
  refine ⟨rfl, rfl, ?_, ?_, ?_⟩ <;> funext i <;> by_cases hi : i = o <;> simp [hi, hid]

lemma ledger_abortReq (o : Nat) : (s.abortReq o).ledger = s.ledger.setFlag o false :=
  (ledger_setSession s (by rfl)).trans (setNode_self rfl)

lemma ledger_releaseSession (id : String) : (s.releaseSession id).1.ledger =
    { s.ledger.setSlot id none with free := s.ledger.free ++ (s.ledger.slot id).toList } := by
  have hslot : s.ledger.slot id = (s.slots id).bind (·.reqPoolIdx) := rfl
  unfold releaseSession
  rw [hslot]
  cases hs : s.slots id with
  | none =>
    rw [setSlot_self (by rw [hslot, hs]; rfl)]
    simp
  | some slot =>
    cases hrow : slot.reqPoolIdx with
    | none =>
      simp only [bind_some, hrow, toList_none, append_nil]
      exact ledger_setSlot s id none
    | some row =>
      simp only [bind_some, hrow, toList_some]
      have hset := ledger_setSlot s id none
      exact congrArg (fun l : Ledger => { l with free := s.freeSlots ++ [row] }) hset

end

lemma ledger_detach {prev : Nat} (h : s.activeOn prev = none) :
    ledger { s with reqs := fun i => if i = prev then (s.reqs i).map Req.detach else s.reqs i } =
    s.ledger := by
  simp only [ledger, Ledger.mk.injEq, and_true]
  refine ⟨?_, ?_, ?_⟩ <;> funext i <;> by_cases hi : i = prev
  · subst hi
    rw [h]
    simp only [activeOn, if_true]
    cases hreq : s.reqs i with
    | none => rfl
    | some req =>
      simp only [map_some, bind_some, Req.activeOn, Req.detach]
      split <;> rfl
  · simp [activeOn, hi]
  · simp only [rowOf, hi, if_true]
    cases s.reqs prev <;> rfl
  · simp [rowOf, hi]
  · simp only [hi, if_true]
    cases s.reqs prev <;> rfl
  · simp [hi]

/-- What the end of a request does to the ledger. -/
lemma ledger_finishReq (s : Scheduler) (o r : Nat)
    (hprev : ∀ prev, s.ledger.node o = some prev → s.activeOn prev = none) :
    (s.finishReq o r).ledger = (s.ledger.setFlag o false).setNode o (some r) := by
  unfold finishReq
  dsimp only
  cases hnode : (s.objects o).reqNodes with
  | none => exact ledger_setSession s rfl
  | some prev =>
    refine (ledger_setSession _ (by rfl)).trans ?_
    rw [ledger_detach (hprev prev hnode)]

end Scheduler

/-! ### The invariant -/

/-- What holds of each request. -/
structure Req.Sound (req : Req) : Prop where
  refused : req.rejected = true → req.finishedReason = none → req.toFinish.isSome
  live : req.stage ≠ .gone → req.finishedReason = none
  grammar : req.stage = .grammarQueue → req.reqPoolIdx = none

structure Inv (s : Scheduler) : Prop where
  ledger : s.ledger.Valid
  known : ∀ r req, s.reqs r = some req → r < s.nextReq
  sound : ∀ r req, s.reqs r = some req → req.Sound

variable {s s' : Scheduler} {released : List Released}
  {close : Scheduler → String → Scheduler × List Released}

section Steps
variable {r o : Nat} {req req' : Req} {id : String}

lemma Req.activeOn_of_live (h : req.Sound) (hstage : req.stage ≠ .gone)
    (hrejected : req.rejected = false) :
    req.activeOn = req.session := by
  simp [activeOn, finished, h.live hstage, hstage, hrejected]

lemma Req.Sound.detach (h : req.Sound) : req.detach.Sound := ⟨h.refused, h.live, h.grammar⟩

lemma Scheduler.forall_setReq {P : Nat → Req → Prop} (hnew : P r req)
    (hold : ∀ i q, s.reqs i = some q → P i q) :
    ∀ i q, (s.setReq r req).reqs i = some q → P i q := by
  intro i q hq
  simp only [setReq] at hq
  split at hq
  · next hi => exact hi ▸ some.inj hq ▸ hnew
  · exact hold i q hq

lemma Scheduler.forall_finishReq {P : Nat → Req → Prop} (hdetach : ∀ i q, P i q → P i q.detach)
    (hold : ∀ i q, s.reqs i = some q → P i q) :
    ∀ i q, (s.finishReq o r).reqs i = some q → P i q := by
  intro i q hq
  unfold finishReq at hq
  dsimp only at hq
  cases hnode : (s.objects o).reqNodes with
  | none =>
    rw [hnode] at hq
    exact hold i q hq
  | some prev =>
    rw [hnode] at hq
    simp only [setSession] at hq
    split at hq
    · obtain ⟨p, hp, rfl⟩ := map_eq_some_iff.mp hq
      exact hdetach i p (hold i p hp)
    · exact hold i q hq

/-- One request has changed, as far as the requests are concerned. -/
lemma Inv.of_reqs (h : Inv s) (hreq : s.reqs r = some req) (hsound : req'.Sound) {t : Scheduler}
    (hreqs : t.reqs = (s.setReq r req').reqs) (hnext : t.nextReq = s.nextReq)
    (hledger : t.ledger.Valid) : Inv t where
  ledger := hledger
  known := hreqs ▸ hnext ▸ forall_setReq (h.known r req hreq) h.known
  sound := hreqs ▸ @forall_setReq s _ _ (fun _ => Req.Sound) hsound h.sound

lemma Scheduler.ledger_active (hreq : s.reqs r = some req) : s.ledger.active r = req.activeOn := by
  simp [ledger, activeOn, hreq]

lemma Scheduler.ledger_row (hreq : s.reqs r = some req) : s.ledger.row r = req.row := by
  simp [ledger, rowOf, hreq]

lemma Scheduler.ledger_doomed (hreq : s.reqs r = some req) : s.ledger.doomed r = req.doomed := by
  simp [ledger, hreq]

lemma Inv.same (h : Inv s) (hreq : s.reqs r = some req) (hsound : req'.Sound)
    (hactive : req'.activeOn = req.activeOn) (hrow : req'.row = req.row)
    (hdoomed : req'.doomed = req.doomed) : Inv (s.setReq r req') := by
  refine h.of_reqs hreq hsound rfl rfl ?_
  have ha : s.ledger.active r = req'.activeOn := (ledger_active hreq).trans hactive.symm
  have hr : s.ledger.row r = req'.row := (ledger_row hreq).trans hrow.symm
  have hd : s.ledger.doomed r = req'.doomed := (ledger_doomed hreq).trans hdoomed.symm
  rw [ledger_setReq, setActive_self ha, Ledger.setRow_self hr, Ledger.setDoomed_self hd]
  exact h.ledger

/-- A session is opened. -/
lemma Inv.openSession (h : Inv s) (id : String) : Inv (s.openSession id) := by
  unfold Scheduler.openSession
  split
  · exact h
  rename_i hclosed
  have hledger :=
    @Ledger.Valid.open s.ledger id h.ledger (by simpa [Scheduler.ledger] using hclosed)
  refine ⟨?_, h.known, h.sound⟩
  convert hledger using 1
  simp only [Scheduler.ledger, setSession, Ledger.mk.injEq, and_true, true_and]
  refine ⟨rfl, rfl, ?_, ?_, ?_, ?_⟩
  · exact funext fun i => apply_ite Session.inflight _ _ _
  · exact funext fun i => apply_ite Session.sessionId _ _ _
  · exact funext fun i => OrderedDict.get?_set
  · exact funext fun i => apply_ite Session.reqNodes _ _ _

/-- A request that comes without a session of its own, or that was refused. -/
lemma Inv.newcomer (h : Inv s) (hsound : req.Sound) (hactive : req.activeOn = none)
    (hrow : req.row = none) : Inv (s.addReq req) := by
  have hfresh := h.ledger.fresh s.nextReq (Nat.le_refl _)
  refine ⟨?_, forall_setReq (Nat.lt_succ_self _) fun i q hq => Nat.lt_succ_of_lt (h.known i q hq),
    @forall_setReq s _ req (fun _ => Req.Sound) hsound h.sound⟩
  have hset := ledger_setReq s s.nextReq req
  rw [hactive, hrow, setActive_self hfresh.1, setRow_self hfresh.2] at hset
  have hadd :
    (s.addReq req).ledger = { (s.setReq s.nextReq req).ledger with nextReq := s.nextReq + 1 } := rfl
  rw [hadd, hset]
  exact h.ledger.newcomer req.doomed

/-- A session accepts a request if none is on its way. -/
lemma Inv.accepted (h : Inv s) (hopen : s.sessions.get? (s.objects o).sessionId = some o)
    (hflag : (s.objects o).inflight = false) (hsound : req.Sound) (hactive : req.activeOn = some o)
    (hrow : req.row = none) :
    Inv ((s.setSession o { s.objects o with inflight := true }).addReq req) := by
  have hfresh := h.ledger.fresh s.nextReq (Nat.le_refl _)
  set t := s.setSession o { s.objects o with inflight := true }
  refine ⟨?_, forall_setReq (Nat.lt_succ_self _) fun i q hq => Nat.lt_succ_of_lt (h.known i q hq),
    @forall_setReq t _ req (fun _ => Req.Sound) hsound h.sound⟩
  have hflagged : t.ledger = s.ledger.setFlag o true :=
    (ledger_setSession s (by rfl)).trans (setNode_self rfl)
  have hset := ledger_setReq t s.nextReq req
  have hkeep : ((s.ledger.setFlag o true).setActive s.nextReq (some o)).row s.nextReq = none :=
    hfresh.2
  rw [hactive, hrow, hflagged, setRow_self hkeep] at hset
  have hadd :
    (t.addReq req).ledger = { (t.setReq s.nextReq req).ledger with nextReq := s.nextReq + 1 } := rfl
  rw [hadd, hset]
  exact h.ledger.activate hflag hopen req.doomed

/-- A request as it is created. -/
structure Req.New (req : Req) : Prop where
  finishedReason : req.finishedReason = none
  reqPoolIdx : req.reqPoolIdx = none
  stage : req.stage = .waitingQueue
  refused : req.rejected = true → req.toFinish.isSome

lemma Req.New.queued (h : req.New) (invalid : Option String) (grammar : Bool) :
    (req.queued invalid grammar).Sound ∧ (req.queued invalid grammar).row = none ∧
      (req.queued invalid grammar).activeOn = if req.rejected then none else req.session := by
  obtain ⟨hreason, hrow, hstage, hrefused⟩ := h
  cases invalid with
  | some errorMsg =>
    refine ⟨⟨fun _ _ => rfl, fun _ => hreason, fun _ => hrow⟩, ?_, ?_⟩
    · simp [Req.queued, Req.row, Req.setFinishWithAbort, hrow]
    · simp [Req.queued, Req.activeOn, Req.setFinishWithAbort, Req.finished, hreason, hstage]
  | none =>
    refine ⟨⟨fun hr _ => hrefused hr, fun _ => hreason, fun _ => hrow⟩, ?_, ?_⟩
    · simp [Req.queued, Req.row, hrow]
    · cases grammar <;> simp [Req.queued, Req.activeOn, Req.finished, hreason]

/-- A request arrives, with a session or without. -/
lemma Inv.generate (h : Inv s) (sessionId : Option String) (input : GenerateInput)
    (invalid : Option String) (grammar : Bool) :
    Inv (s.handleGenerateRequest sessionId input invalid grammar) := by
  have hplain {req : Req} (hnew : req.New) (hsession : req.rejected = true ∨ req.session = none) :
      Inv (s.addReq (req.queued invalid grammar)) := by
    obtain ⟨hsound, hrow, hactive⟩ := hnew.queued invalid grammar
    refine h.newcomer hsound (hactive.trans ?_) hrow
    rcases hsession with hr | hs
    · rw [hr]
      rfl
    · rw [hs]
      exact ite_self none
  unfold handleGenerateRequest
  cases sessionId with
  | none => exact hplain ⟨rfl, rfl, rfl, nofun⟩ (.inr rfl)
  | some sessionId =>
    dsimp only
    cases hget : s.sessions.get? sessionId with
    | none => exact hplain ⟨rfl, rfl, rfl, nofun⟩ (.inr rfl)
    | some o =>
      have hname : (s.objects o).sessionId = sessionId := (h.ledger.names sessionId o hget).1
      dsimp only
      split
      · exact hplain ⟨rfl, rfl, rfl, nofun⟩ (.inr rfl)
      unfold createReq
      dsimp only
      cases hreject : rejection (s.objects o) input with
      | some message => exact hplain ⟨rfl, rfl, rfl, fun _ => rfl⟩ (.inl rfl)
      | none =>
        have hflag : (s.objects o).inflight = false := by
          cases hinflight : (s.objects o).inflight with
          | false => rfl
          | true => simp [rejection, hinflight] at hreject
        dsimp only
        have hnew (inputIds : List Nat) : Req.New
            { rid := input.rid, session := some o, originInputIds := inputIds, maxNewTokens := input.maxNewTokens } :=
          ⟨rfl, rfl, rfl, nofun⟩
        obtain ⟨hsound, hrow, hactive⟩ := (hnew _).queued invalid grammar
        exact h.accepted (hname.symm ▸ hget) hflag hsound hactive hrow

/-- The lookup does not clear the flag of another request. -/
def TameLookup (s : Scheduler) (req : Req) : Prop :=
  req.rejected = true → ∀ o, req.session = some o → (s.slots (s.objects o).sessionId).isSome →
    ∀ r, s.activeOn r ≠ some o

lemma Scheduler.reqs_setReq (s : Scheduler) (r : Nat) (req : Req) :
    (s.setReq r req).reqs r = some req := if_pos rfl

section
variable (h : Inv s) (hreq : s.reqs r = some req) (hstage : req.stage = .waitingQueue)
include h hreq hstage

/-- A request that is to be aborted leaves its session when it is looked up. -/
lemma Inv.detach (hsession : req.session = some o)
    (hfinish : req.toFinish.isSome) (htame : req.rejected = true → ∀ r, s.activeOn r ≠ some o) :
    Inv ((s.abortReq o).setReq r req.detach) := by
  have hsound := h.sound r req hreq
  have hlive : req.stage ≠ .gone := by simp [hstage]
  have hrow : s.ledger.row r = req.detach.row := (ledger_row hreq :)
  have hdoomed : s.ledger.doomed r = req.detach.doomed := (ledger_doomed hreq :)
  have hset :
      ((s.abortReq o).setReq r req.detach).ledger =
      (s.ledger.setActive r none).setFlag o false := by
    have hnone : req.detach.activeOn = none := ite_self none
    rw [ledger_setReq, ledger_abortReq, hnone,
      setRow_self (show ((s.ledger.setFlag o false).setActive r none).row r = _ from hrow),
      setDoomed_self (show ((s.ledger.setFlag o false).setActive r none).doomed r = _ from hdoomed)]
    rfl
  refine h.of_reqs hreq hsound.detach rfl rfl ?_
  rw [hset]
  cases hrejected : req.rejected with
  | true =>
    have hnone : s.ledger.active r = none := by simp [ledger_active hreq, Req.activeOn, hrejected]
    rw [setActive_self hnone, h.ledger.setFlag_false (htame hrejected)]
    exact h.ledger
  | false =>
    have hactive : s.ledger.active r = some o := by
      rw [ledger_active hreq, Req.activeOn_of_live hsound hlive hrejected, hsession]
    refine h.ledger.retire hactive (h.ledger.doomed r ?_)
    simp [ledger_doomed hreq, Req.doomed, hstage, hfinish]

/-- The active request of a session is restored from its slot. -/
lemma Inv.restore (hsession : req.session = some o)
    (hfinish : req.toFinish = none) {slot : SessionSlot} {row : Nat}
    (hrow : slot.reqPoolIdx = some row) (hslot : s.ledger.slot (s.objects o).sessionId = some row) :
    Inv ((s.setReq r (slot.restoreToReq req)).setSlot (s.objects o).sessionId (some slot)) := by
  have hsound := h.sound r req hreq
  have hlive : req.stage ≠ .gone := by simp [hstage]
  have hrejected : req.rejected = false := by
    cases hr : req.rejected with
    | false => rfl
    | true => simpa [hfinish] using hsound.refused hr (hsound.live hlive)
  have hrestored : (slot.restoreToReq req).Sound := by
    refine ⟨hsound.refused, hsound.live, fun hg => ?_⟩
    cases hstage.symm.trans hg
  have hactive : s.ledger.active r = (slot.restoreToReq req).activeOn := (ledger_active hreq :)
  have hdoomed : s.ledger.doomed r = (slot.restoreToReq req).doomed := (ledger_doomed hreq :)
  have hnewRow : (slot.restoreToReq req).row = some row := by
    simp [Req.row, SessionSlot.restoreToReq, hlive, hrow]
  refine h.of_reqs hreq hrestored rfl rfl ?_
  set l' := s.ledger.setRow r (some row)
  have hledger : l'.Valid := by
    refine h.ledger.restore (o := o) ?_ hslot ?_
    · rw [ledger_active hreq, activeOn_of_live hsound hlive hrejected, hsession]
    · simp [ledger_doomed hreq, Req.doomed, hfinish]
  rw [ledger_setSlot, ledger_setReq, hnewRow, setActive_self hactive,
    setDoomed_self (show l'.doomed r = _ from hdoomed),
    setSlot_self (show l'.slot _ = _ from hslot.trans (by simp [hrow]))]
  exact hledger

/-- The lookup takes over the row of the session. -/
lemma Inv.initNextRoundInput (htame : TameLookup s req) {hit : Nat}
    (hstep : s.initNextRoundInput r hit = some s') :
    Inv s' ∧ ∃ req', s'.reqs r = some req' ∧ req'.stage = .waitingQueue := by
  have hmiss {t : Scheduler} {q : Req} (ht : Inv t) (hq : t.reqs r = some q)
    (hstage : q.stage = .waitingQueue)
      (hfind : s.findActiveSlot r req = (t, none)) :
        Inv s' ∧ ∃ req', s'.reqs r = some req' ∧ req'.stage = .waitingQueue := by
    simp only [Scheduler.initNextRoundInput, hreq, bind_some, hfind, hq,
      map_some, some.injEq] at hstep
    obtain ⟨hrefused, hlive, hgrammar⟩ := ht.sound r q hq
    rw [← hstep]
    exact ⟨ht.same hq ⟨hrefused, hlive, hgrammar⟩ rfl rfl rfl, _, reqs_setReq _ _ _, hstage⟩
  cases hsession : req.session with
  | none => exact hmiss h hreq hstage (by simp [findActiveSlot, hsession])
  | some o =>
    cases hslot : s.slots (s.objects o).sessionId with
    | none => exact hmiss h hreq hstage (by simp [findActiveSlot, hsession, hslot])
    | some slot =>
      cases hrow : slot.reqPoolIdx with
      | none => exact hmiss h hreq hstage (by simp [findActiveSlot, hsession, hslot, hrow])
      | some row =>
        cases hfinish : req.toFinish with
        | some message =>
          have hdetached := h.detach hreq hstage hsession (by simp [hfinish]) fun hr =>
            htame hr o hsession (by simp [hslot])
          exact hmiss hdetached (reqs_setReq _ _ _) hstage
            (by simp [findActiveSlot, hsession, hslot, hrow, hfinish])
        | none =>
          have hfind : s.findActiveSlot r req = (s, some ((s.objects o).sessionId, slot)) := by
            simp [findActiveSlot, hsession, hslot, hrow, hfinish]
          simp only [Scheduler.initNextRoundInput, hreq, bind_some, hfind] at hstep
          split at hstep
          · nomatch hstep
          · cases hstep
            refine ⟨h.restore hreq hstage hsession hfinish hrow ?_, _, reqs_setReq s r _, hstage⟩
            simp [Scheduler.ledger, hslot, hrow]

lemma Inv.prepareForExtend {seqLen : Nat} (hstep : s.prepareForExtend r seqLen = some s') :
    Inv s' := by
  have hsound := h.sound r req hreq
  have hlive : req.stage ≠ .gone := by simp [hstage]
  have hreason := hsound.live hlive
  have hactive (idx : Option Nat) : Req.activeOn { req with
      stage := .running, kvCommittedLen := seqLen, kvAllocatedLen := seqLen, reqPoolIdx :=
        idx } = s.ledger.active r := by
    simp [ledger_active hreq, Req.activeOn, Req.finished, hstage]
  have hstarted (idx : Option Nat) : Req.Sound { req with
      stage := .running, kvCommittedLen := seqLen, kvAllocatedLen := seqLen, reqPoolIdx := idx } :=
    ⟨hsound.refused, fun _ => hreason, nofun⟩
  simp only [Scheduler.prepareForExtend, hreq, bind_some] at hstep
  have hrow : s.ledger.row r = req.reqPoolIdx := by simp [ledger_row hreq, Req.row, hlive]
  cases hidx : req.reqPoolIdx with
  | some row =>
    simp only [hidx] at hstep
    split at hstep
    · nomatch hstep
    · cases hstep
      refine h.of_reqs hreq (hstarted (some row)) rfl rfl ?_
      rw [ledger_setReq, hactive, setActive_self rfl,
        Ledger.setRow_self (by simp [hrow, hidx, Req.row])]
      exact h.ledger.setDoomed (by simp [Req.doomed])
  | none =>
    simp only [hidx] at hstep
    cases hfree : s.freeSlots with
    | nil =>
      rw [hfree] at hstep
      nomatch hstep
    | cons row freeSlots =>
      rw [hfree] at hstep
      cases hstep
      refine h.of_reqs hreq (hstarted (some row)) rfl rfl ?_
      set req₁ :=
        { req with stage := .running, kvCommittedLen := seqLen, kvAllocatedLen := seqLen, reqPoolIdx := some row }
      have hset := ledger_setReq s r req₁
      have hrunning : Req.doomed req₁ = false := by
        simp [Req.doomed]
      rw [hactive, setActive_self rfl, hrunning] at hset
      have hdoomed : (s.ledger.setDoomed r false).Valid := h.ledger.setDoomed nofun
      have htake := hdoomed.take (r := r) (i := row) hfree (h.known r req hreq) (if_pos rfl)
      have hledger := congrArg (fun l : Ledger => { l with free := freeSlots }) hset
      exact Eq.mpr (congrArg Ledger.Valid hledger) htake

end

/-- A request is looked at and perhaps admitted. -/
lemma Inv.schedule (h : Inv s) (hreq : s.reqs r = some req) (htame : TameLookup s req)
    {hit : Nat} {admitted : Option Nat} (hstep : s.schedule r hit admitted = some s') : Inv s' := by
  unfold Scheduler.schedule at hstep
  split at hstep
  · next hwaiting =>
    have hstage : req.stage = .waitingQueue := by simpa [hreq] using hwaiting
    obtain ⟨t, ht, hstep⟩ := bind_eq_some_iff.mp hstep
    obtain ⟨hinv, req', hreq', hstage'⟩ := h.initNextRoundInput hreq hstage htame ht
    cases admitted with
    | none => exact some.inj hstep ▸ hinv
    | some seqLen => exact hinv.prepareForExtend hreq' hstage' hstep
  · nomatch hstep

/-! The end of a request -/

/-- The result of a request that was to be aborted does not touch the slot or flag of another one.
-/
def TameResult (s : Scheduler) (req : Req) : Prop :=
  req.rejected = true → ∀ o, req.session = some o → ∀ r o', s.activeOn r = some o' →
    (s.objects o').sessionId ≠ (s.objects o).sessionId

/-- A request leaves: it is no longer active, has no row and is not waiting. -/
structure Req.Left (req : Req) : Prop where
  stage : req.stage = .gone
  finished : req.finished

lemma Req.Left.activeOn (h : req.Left) : req.activeOn = none := by simp [Req.activeOn, h.stage]

lemma Req.Left.row (h : req.Left) : req.row = none := by simp [Req.row, h.stage]

lemma Req.Left.doomed (h : req.Left) : req.doomed = false := by simp [Req.doomed, h.stage]

lemma Req.Left.sound (h : req.Left) : req.Sound where
  refused _ hreason := absurd h.finished (by simp [Req.finished, hreason])
  live hstage := absurd h.stage hstage
  grammar hg := absurd (h.stage.symm.trans hg) (by simp)

lemma Scheduler.ledger_setReq_left (s : Scheduler) (r : Nat) (h : req.Left) :
    (s.setReq r req).ledger = ((s.ledger.setActive r none).setRow r none).setDoomed r false := by
  rw [ledger_setReq, h.activeOn, h.row, h.doomed]

/-- The ledger after a request has left its row to the slot `x` of its session, or lost it. -/
lemma Inv.leave (h : Inv s) (hreq : s.reqs r = some req) (hstage : req.stage = .running)
    (hsession : req.session = some o) (htame : TameResult s req) {l : Ledger}
    (hl : l.Valid) (hactive : l.active = s.ledger.active) (hname : l.name = s.ledger.name)
    (hrow : l.row r = none) :
    (((l.setActive r none).setDoomed r false).setFlag o false).Valid ∧
      ∀ r' o', (l.setActive r none).active r' = some o' → l.name o' ≠ (s.objects o).sessionId := by
  have hsound := h.sound r req hreq
  have hlive : req.stage ≠ .gone := by simp [hstage]
  have hdoomed : (l.setDoomed r false).Valid := hl.setDoomed (by simp)
  cases hrejected : req.rejected with
  | true =>
    have hnone : l.active r = none := by
      rw [hactive, ledger_active hreq]
      simp [Req.activeOn, hrejected]
    have hothers (r' o' : Nat) (ha : l.active r' = some o') :
        l.name o' ≠ (s.objects o).sessionId := by
      rw [hname]
      exact htame hrejected o hsession r' o' ((congrFun hactive r').symm.trans ha)
    rw [setActive_self hnone]
    refine ⟨?_, hothers⟩
    rw [hdoomed.setFlag_false fun r' hr' => hothers r' o hr' (by rw [hname]; rfl)]
    exact hdoomed
  | false =>
    have hself : l.active r = some o := by
      rw [hactive, ledger_active hreq, Req.activeOn_of_live hsound hlive hrejected, hsession]
    refine ⟨hdoomed.retire hself hrow, fun r' o' ha heq => ?_⟩
    simp only [Ledger.setActive] at ha
    split at ha
    · cases ha
    · next hne => exact hne (hl.eq_of_name ha hself (heq.trans (by rw [hname]; rfl)))

lemma Req.Left.dropRow (h : req.Left) : req.dropRow.Left := ⟨h.stage, h.finished⟩

lemma Req.Left.trimOvershoot (h : req.Left) : req.trimOvershoot.Left := ⟨h.stage, h.finished⟩

lemma Scheduler.releaseSession_reqs (s : Scheduler) (id : String) :
    (s.releaseSession id).1.reqs = s.reqs ∧ (s.releaseSession id).1.nextReq = s.nextReq := by
  unfold releaseSession
  split
  · exact ⟨rfl, rfl⟩
  · dsimp only
    split <;> exact ⟨rfl, rfl⟩

/-- A running request of a session parks its row in the slot of the session. -/
lemma Inv.park (h : Inv s) (hreq : s.reqs r = some req) (hsession : req.session = some o) :
    ((s.ledger.setRow r none).setSlot (s.objects o).sessionId (s.ledger.row r)).Valid := by
  refine h.ledger.park fun o' ho' => ?_
  rw [ledger_active hreq, Req.activeOn] at ho'
  split at ho'
  · nomatch ho'
  · cases hsession.symm.trans ho'
    rfl

section
variable (h : Inv s) (hreq : s.reqs r = some req) (hstage : req.stage = .running)
  (htame : TameResult s req)
  (hleft : req'.Left)
include h hreq hstage htame hleft

/-- The slot of a session is dropped with its row. -/
lemma Inv.dropSlot (hsession : req.session = some o) (hidx : req'.reqPoolIdx = req.reqPoolIdx) :
    Inv (s.dropSlot r o req').1 := by
  have hlive : req.stage ≠ .gone := by simp [hstage]
  have hrow : s.ledger.row r = req'.reqPoolIdx := by simp [ledger_row hreq, Req.row, hlive, hidx]
  let sessionId := (s.objects o).sessionId
  let slot := ((s.slots sessionId).getD (.ephemeral req')).cover req'
  have hvalid : ((s.ledger.setSlot sessionId slot.reqPoolIdx).setRow r none).Valid := by
    cases hslot : s.slots sessionId with
    | none =>
      have hx : slot.reqPoolIdx = s.ledger.row r := by
        rw [hrow]
        simp [slot, hslot, SessionSlot.cover, SessionSlot.ephemeral]
      rw [hx]
      exact h.park hreq hsession
    | some slot' =>
      have hx : s.ledger.slot sessionId = slot.reqPoolIdx := by
        simp [slot, Scheduler.ledger, hslot, SessionSlot.cover]
      rw [Ledger.setSlot_self hx]
      refine h.ledger.forget (fun _ => (ite_eq_or_eq ..).symm) fun j hj => ?_
      rw [h.ledger.doomed j hj, ite_self]
  obtain ⟨hleave, hothers⟩ := h.leave hreq hstage hsession htame hvalid rfl rfl (if_pos rfl)
  set s₁ := s.setSlot sessionId (some slot)
  have hreqs := releaseSession_reqs s₁ sessionId
  refine h.of_reqs hreq hleft.dropRow.sound ?_ hreqs.2 ?_
  · have heq : (s.dropSlot r o req').1.reqs =
        fun i => if i = r then some req'.dropRow else (s₁.releaseSession sessionId).1.reqs i := rfl
    rw [heq, hreqs.1]
    rfl
  · have heq : (s.dropSlot r o req').1 =
        ((s₁.releaseSession sessionId).1.setReq r req'.dropRow).abortReq o := rfl
    rw [heq, ledger_abortReq, ledger_setReq_left _ r hleft.dropRow, ledger_releaseSession,
      ledger_setSlot]
    exact hleave.release hothers

/-- The row of a request that ends is kept for the session. -/
lemma Inv.saveSlot (hsession : req.session = some o) (hidx : req'.reqPoolIdx = req.reqPoolIdx) :
    Inv (s.saveSlot r o req') := by
  have hlive : req.stage ≠ .gone := by simp [hstage]
  have hrow : s.ledger.row r = req'.reqPoolIdx := by simp [ledger_row hreq, Req.row, hlive, hidx]
  have hgone := hleft.trimOvershoot.dropRow
  let sessionId := (s.objects o).sessionId
  let slot :=
    ((s.slots sessionId).getD {}).saveFromReq req'.trimOvershoot (s.slots sessionId).isNone
  let t := (s.setReq r req'.trimOvershoot.dropRow).setSlot sessionId (some slot)
  have hledger :
      t.ledger = (((s.ledger.setActive r none).setRow r none).setDoomed r false).setSlot sessionId
      (s.ledger.row r) := by
    rw [ledger_setSlot, ledger_setReq_left s r hgone, hrow]
    rfl
  have hprev (prev : Nat) (hnode : t.ledger.node o = some prev) : t.activeOn prev = none := by
    have hactive : t.activeOn prev = if prev = r then none else s.ledger.active prev :=
      congrFun (congrArg active hledger) prev
    rw [hactive, (h.ledger.node o prev hnode).1]
    exact ite_self none
  obtain ⟨hleave, _⟩ :=
    h.leave hreq hstage hsession htame (h.park hreq hsession) rfl rfl (if_pos rfl)
  refine ⟨?_, ?_, ?_⟩
  · have heq : s.saveSlot r o req' = t.finishReq o r := rfl
    rw [heq, ledger_finishReq t o r hprev, hledger]
    exact hleave.setNode (if_pos rfl) (h.known r req hreq)
  · have hnext : (s.saveSlot r o req').nextReq = s.nextReq := by
      show (t.finishReq o r).nextReq = t.nextReq
      unfold finishReq
      dsimp only
      split <;> rfl
    rw [hnext]
    exact forall_finishReq (fun _ _ hi => hi) (forall_setReq (h.known r req hreq) h.known)
  · exact @forall_finishReq t r o (fun _ => Req.Sound) (fun _ _ hq => hq.detach)
      (@forall_setReq s _ _ (fun _ => Req.Sound) hgone.sound h.sound)

lemma Inv.releaseKvCache (hsession : req'.session = req.session)
    (hidx : req'.reqPoolIdx = req.reqPoolIdx) :
    Inv (s.releaseKvCache r req').1 := by
  have hlive : req.stage ≠ .gone := by simp [hstage]
  have hrow : s.ledger.row r = req'.reqPoolIdx := by simp [ledger_row hreq, Req.row, hlive, hidx]
  unfold Scheduler.releaseKvCache
  cases hs : req'.session with
  | none =>
    refine h.of_reqs hreq hleft.dropRow.sound rfl rfl ?_
    have hnone : s.ledger.active r = none := by
      rw [ledger_active hreq, Req.activeOn, ← hsession, hs]
      exact ite_self none
    have hset := ledger_setReq_left s r hleft.dropRow
    rw [setActive_self hnone] at hset
    have hledger :=
      congrArg (fun l : Ledger => { l with free := s.freeSlots ++ req'.reqPoolIdx.toList }) hset
    refine Eq.mpr (congrArg Ledger.Valid hledger) ?_
    rw [← hrow]
    have hdoomed : (s.ledger.setDoomed r false).Valid := h.ledger.setDoomed nofun
    exact hdoomed.giveBack hnone
  | some o =>
    have hs' : req.session = some o := hsession.symm.trans hs
    dsimp only
    unfold tryCacheFinishedReq
    split
    · exact h.dropSlot hreq hstage htame hleft hs' hidx
    · exact h.saveSlot hreq hstage htame hleft hs' hidx

end

variable {result : Scheduler × List Released}

/-- The result of a batch for a request. -/
lemma Inv.processBatchResult (h : Inv s) (hreq : s.reqs r = some req) (htame : TameResult s req)
    {tokens : List Nat} {kvLen : Nat} {stopped : Option (Option Nat)}
    (hstep : s.processBatchResult r tokens kvLen stopped = some result) : Inv result.1 := by
  simp only [Scheduler.processBatchResult, hreq, bind_some] at hstep
  split at hstep
  · next hstage =>
    cases hstep
    split
    · exact h.releaseKvCache hreq hstage htame ⟨rfl, rfl⟩ rfl rfl
    · exact h.releaseKvCache hreq hstage htame ⟨rfl, rfl⟩ rfl rfl
    · obtain ⟨hrefused, hlive, hgrammar⟩ := h.sound r req hreq
      exact h.same hreq ⟨hrefused, hlive, hgrammar⟩ rfl rfl rfl
  · nomatch hstep

lemma Inv.retract (h : Inv s) (hreq : s.reqs r = some req) (hsession : req.session = none)
    {abort : Bool} (hstep : s.retract r abort = some result) : Inv result.1 := by
  obtain ⟨hrefused, hlive, -⟩ := h.sound r req hreq
  simp only [Scheduler.retract, hreq, bind_some] at hstep
  split at hstep
  · next hstage =>
    have hreason := hlive (by simp [hstage])
    generalize hstart :
      (if abort = true then { req with toFinish := some _ } else req) = start at hstep
    have hsame : start.session = none ∧ start.reqPoolIdx = req.reqPoolIdx ∧
      start.finishedReason = none ∧
        start.rejected = req.rejected ∧ (req.toFinish.isSome → start.toFinish.isSome) := by
      subst hstart
      split <;> simp [hsession, hreason]
    obtain ⟨hsession', hidx, hreason', hrejected, hfinish⟩ := hsame
    simp only [Scheduler.releaseKvCache, hsession', reqs_setReq, map_some, some.injEq] at hstep
    obtain rfl := hstep
    have hrow : s.ledger.row r = start.reqPoolIdx := by
      simp [ledger_row hreq, Req.row, hstage, hidx]
    have hactive : s.ledger.active r = none := by
      rw [ledger_active hreq, Req.activeOn, hsession]
      exact ite_self none
    let last : Req :=
      { start.dropRow with kvCommittedLen := 0, kvAllocatedLen := 0, stage := if abort then .gone else .waitingQueue }
    have hsound : last.Sound :=
      ⟨fun hr hn => hfinish (hrefused (hrejected ▸ hr) hreason), fun _ => hreason', fun _ => rfl⟩
    have hset : (s.setReq r last).ledger = (s.ledger.setRow r none).setDoomed r last.doomed := by
      have hlast : last.activeOn = none := by
        rw [Req.activeOn, show last.session = none from hsession']
        exact ite_self none
      have hlastRow : last.row = none := ite_self none
      rw [ledger_setReq, hlast, hlastRow, setActive_self hactive]
    have hback :=
      (h.ledger.giveBack hactive).setDoomed (r := r) (b := last.doomed) fun _ => if_pos rfl
    have hdouble :
      setReq
      { s.setReq r start.dropRow with freeSlots := s.freeSlots ++ start.reqPoolIdx.toList } r last =
        { s.setReq r last with freeSlots := s.freeSlots ++ start.reqPoolIdx.toList } := by
      simp only [setReq, Scheduler.mk.injEq, and_true, true_and]
      funext i
      split <;> rfl
    rw [hdouble]
    refine h.of_reqs hreq hsound rfl rfl ?_
    have hledger :=
      congrArg (fun l : Ledger => { l with free := s.freeSlots ++ start.reqPoolIdx.toList }) hset
    refine Eq.mpr (congrArg Ledger.Valid hledger) ?_
    rw [← hrow]
    exact hback
  · nomatch hstep

/-- No active request is taken out of the queue. -/
def TameAbort (s : Scheduler) (a : Scheduler.AbortReq) : Prop :=
  ∀ r req, s.reqs r = some req → req.stage = .waitingQueue → a.selects req = true →
    req.activeOn = none

/-- A request that is not active leaves the queue. -/
lemma Inv.drop (h : Inv s) (hreq : s.reqs r = some req) (hnone : req.activeOn = none) :
    Inv (s.setReq r { req with stage := .gone }) := by
  have hsound : Req.Sound { req with stage := .gone } :=
    ⟨(h.sound r req hreq).refused, fun hgone => absurd rfl hgone, nofun⟩
  have hactive : s.ledger.active r = Req.activeOn { req with stage := .gone } := by
    rw [ledger_active hreq, hnone]
    simp [Req.activeOn]
  refine h.of_reqs hreq hsound rfl rfl ?_
  rw [ledger_setReq, setActive_self hactive]
  refine h.ledger.forget (fun j => ?_) fun j hj => ?_
  · by_cases hj : j = r
    · exact .inr (by simp [Ledger.setRow, hj, Req.row])
    · exact .inl (if_neg hj)
  · by_cases hjr : j = r
    · simp [Ledger.setRow, hjr, Req.row]
    · exact (if_neg hjr).trans (h.ledger.doomed j ((if_neg hjr).symm.trans hj))

/-- An abort, wherever the request is. -/
lemma Inv.abortRequest (h : Inv s) {a : Scheduler.AbortReq} (htame : TameAbort s a) :
    Inv (s.abortRequest a) := by
  set t := s.abortRequest a
  have hreq (r : Nat) (q : Req) (hq : t.reqs r = some q) : ∃ req, s.reqs r = some req ∧ q.Sound ∧
      q.activeOn = req.activeOn ∧ (q.row = req.row ∨ q.row = none) ∧
      (q.doomed = true → req.doomed = true ∨ q.row = none) := by
    obtain ⟨req, hreq, rfl⟩ := map_eq_some_iff.mp hq
    obtain ⟨hrefused, hlive, hgrammar⟩ := h.sound r req hreq
    refine ⟨req, hreq, ?_⟩
    split
    · next hselects =>
      split
      · next hstage =>
        have hnone := htame r req hreq hstage hselects
        refine ⟨⟨hrefused, fun hg => absurd rfl hg, nofun⟩, ?_, .inr (by simp [Req.row]),
          fun _ => .inr (by simp [Req.row])⟩
        rw [hnone]
        simp [Req.activeOn]
      · next hstage =>
        refine ⟨⟨fun _ _ => rfl, hlive, hgrammar⟩, rfl, .inl rfl, fun _ => .inr ?_⟩
        simp [Req.setFinishWithAbort, Req.row, hgrammar hstage]
      · next hstage =>
        split
        · exact ⟨⟨hrefused, hlive, hgrammar⟩, rfl, .inl rfl, .inl⟩
        · exact ⟨⟨fun _ _ => rfl, hlive, hgrammar⟩, rfl, .inl rfl,
            fun hd => by simp [Req.doomed, hstage] at hd⟩
      · exact ⟨⟨hrefused, hlive, hgrammar⟩, rfl, .inl rfl, .inl⟩
    · exact ⟨⟨hrefused, hlive, hgrammar⟩, rfl, .inl rfl, .inl⟩
  have hgone (r : Nat) : t.reqs r = none ↔ s.reqs r = none := map_eq_none_iff
  refine ⟨?_, fun r q hq => ?_, fun r q hq => (hreq r q hq).choose_spec.2.1⟩
  · have hactive : t.activeOn = s.activeOn := by
      funext r
      unfold Scheduler.activeOn
      cases hq : t.reqs r with
      | none => rw [(hgone r).mp hq]
      | some q =>
        obtain ⟨req, hr, -, ha, -⟩ := hreq r q hq
        rw [hr]
        exact ha
    have hledger : t.ledger =
        { s.ledger with row := t.rowOf, doomed := fun r => (t.reqs r).any Req.doomed } := by
      simp only [Scheduler.ledger, hactive]
      rfl
    rw [hledger]
    refine h.ledger.forget (fun r => ?_) fun r hd => ?_
    · cases hq : t.reqs r with
      | none => exact .inr (by simp [rowOf, hq])
      | some q =>
        obtain ⟨req, hr, -, -, hrow, -⟩ := hreq r q hq
        rw [ledger_row hr]
        simpa [rowOf, hq] using hrow
    · cases hq : t.reqs r with
      | none => simp [rowOf, hq]
      | some q =>
        obtain ⟨req, hr, -, -, hrow, hdoomed⟩ := hreq r q hq
        have hrowOf : t.rowOf r = q.row := by simp [rowOf, hq]
        rw [hrowOf]
        rcases hdoomed (by simpa [hq] using hd) with hdoomed | hnone
        · have hnone := h.ledger.doomed r (by rw [ledger_doomed hr, hdoomed])
          rw [ledger_row hr] at hnone
          rcases hrow with hrow | hrow
          · exact hrow.trans hnone
          · exact hrow
        · exact hnone
  · obtain ⟨req, hr, -⟩ := hreq r q hq
    exact h.known r req hr

/-! Closing -/

lemma Inv.releaseSession (h : Inv s)
    (hnone : ∀ r o, s.activeOn r = some o → (s.objects o).sessionId ≠ id) :
    Inv (s.releaseSession id).1 := by
  obtain ⟨hreqs, hnext⟩ := releaseSession_reqs s id
  refine ⟨?_, hreqs ▸ hnext ▸ h.known, hreqs ▸ h.sound⟩
  rw [ledger_releaseSession]
  exact h.ledger.release hnone

lemma Inv.detachNode (h : Inv s) {prev : Nat} (hnode : (s.objects o).reqNodes = some prev) :
    Inv { s with reqs := fun i => if i = prev then (s.reqs i).map Req.detach else s.reqs i } := by
  have hreqs {P : Nat → Req → Prop} (hdetach : ∀ i q, P i q → P i q.detach)
    (hold : ∀ i q, s.reqs i = some q → P i q) :
      ∀ i q, (if i = prev then (s.reqs i).map Req.detach else s.reqs i) = some q → P i q := by
    intro i q hq
    split at hq
    · obtain ⟨p, hp, rfl⟩ := map_eq_some_iff.mp hq
      exact hdetach i p (hold i p hp)
    · exact hold i q hq
  refine ⟨?_, hreqs (fun _ _ hi => hi) h.known,
    hreqs (P := fun _ => Req.Sound) (fun _ _ hq => hq.detach) h.sound⟩
  rw [ledger_detach (h.ledger.node o prev hnode).1]
  exact h.ledger

lemma Inv.setCloseOnFinish (h : Inv s) (o : Nat) (b : Bool) :
    Inv (s.setSession o { s.objects o with closeOnFinish := b }) := by
  refine ⟨?_, h.known, h.sound⟩
  have hledger : (s.setSession o { s.objects o with closeOnFinish := b }).ledger = s.ledger :=
    (ledger_setSession s (by rfl)).trans ((setNode_self rfl).trans (setFlag_self rfl))
  rw [hledger]
  exact h.ledger

/-- A session is closed, at once or when its request ends. -/
lemma Inv.closeSession (h : Inv s) (id : String) : Inv (s.closeSession id).1 := by
  unfold Scheduler.closeSession
  cases hget : s.sessions.get? id with
  | none => exact h
  | some o =>
    dsimp only
    split
    · exact h.setCloseOnFinish o true
    rename_i hidle
    have hflag : (s.objects o).inflight = false := by
      cases hinflight : (s.objects o).inflight with
      | false => rfl
      | true => simp [hinflight] at hidle
    -- whoever is active on a session of this name is active on this one
    have hnone (r o' : Nat) (ha : s.activeOn r = some o') : (s.objects o').sessionId ≠ id := by
      intro hname
      have hopen : s.sessions.get? (s.objects o').sessionId = some o' := h.ledger.opened r o' ha
      rw [hname, hget] at hopen
      cases hopen
      have hset : (s.objects o).inflight = true := (h.ledger.flag o).mpr ⟨r, ha⟩
      cases hflag.symm.trans hset
    have hrelease {t : Scheduler} (ht : Inv t) (hactive : t.activeOn = s.activeOn)
      (hobjects : t.objects = s.objects) :
        Inv
          { (t.releaseSession id).1 with sessions := (t.releaseSession id).1.sessions.erase id } := by
      have hnone' (r o' : Nat) (ha : t.activeOn r = some o') : (t.objects o').sessionId ≠ id := by
        rw [hobjects]
        exact hnone r o' (hactive ▸ ha)
      have hreleased := ht.releaseSession hnone'
      refine ⟨?_, hreleased.known, hreleased.sound⟩
      have hledger :
        Scheduler.ledger
        { (t.releaseSession id).1 with sessions := (t.releaseSession id).1.sessions.erase id } =
          { (t.releaseSession id).1.ledger with
            opened :=
              fun j => if j = id then none else (t.releaseSession id).1.ledger.opened j } := by
        simp only [Scheduler.ledger, Ledger.mk.injEq, and_true, true_and]
        exact ⟨rfl, rfl, funext fun i => OrderedDict.get?_erase⟩
      rw [hledger]
      refine hreleased.ledger.close fun r o' ha => ?_
      rw [ledger_releaseSession] at ha ⊢
      exact hnone' r o' ha
    cases hnode : (s.objects o).reqNodes with
    | none => exact hrelease h rfl rfl
    | some prev =>
      have hsame := ledger_detach (h.ledger.node o prev hnode).1
      exact hrelease (h.detachNode hnode) (congrArg active hsame) rfl

lemma Inv.closeDeferred (h : Inv s) (id : String) : Inv (s.closeDeferred id).1 := by
  unfold Scheduler.closeDeferred
  split
  · exact h
  · exact (h.setCloseOnFinish _ false).closeSession id

lemma Inv.closeAll (hclose : ∀ {s}, Inv s → ∀ id, Inv (close s id).1)
    (h : Inv s) (ids : List String) : Inv (closeAll close s ids).1 := by
  have hfold (released : List Released) :
      Inv (ids.foldl (fun p id => ((close p.1 id).1, p.2 ++ (close p.1 id).2))
      (s, released)).1 := by
    induction ids generalizing s released with
    | nil => exact h
    | cons id ids ih => exact ih (hclose h id) _
  exact hfold []

/-- Sessions that have timed out are closed. -/
lemma Inv.maybeReap (h : Inv s) (timedOut : String → Bool) : Inv (s.maybeReap timedOut).1 :=
  (h.closeAll Inv.closeDeferred _).closeAll Inv.closeSession _

end Steps

/-! ### What is released -/

/-- Rows are only added to the free ones, those that are released among them. -/
structure Frees (s : Scheduler) (result : Scheduler × List Released) : Prop where
  free : s.freeSlots ⊆ result.1.freeSlots
  released : ∀ x ∈ result.2, x.row ∈ result.1.freeSlots

lemma Frees.refl (h : s'.freeSlots = s.freeSlots) : Frees s (s', []) :=
  ⟨h ▸ List.Subset.refl _, nofun⟩

lemma Frees.releaseSession (s : Scheduler) (id : String) : Frees s (s.releaseSession id) := by
  unfold Scheduler.releaseSession
  split
  · exact .refl rfl
  · dsimp only
    split
    · exact ⟨subset_append_left _ _, by simp⟩
    · exact .refl rfl

lemma Frees.closeSession (s : Scheduler) (id : String) : Frees s (s.closeSession id) := by
  unfold Scheduler.closeSession
  split
  · exact .refl rfl
  dsimp only
  split
  · exact .refl rfl
  · have hrelease (t : Scheduler) (ht : t.freeSlots = s.freeSlots) :
        Frees s
          ({ (t.releaseSession id).1 with sessions := (t.releaseSession id).1.sessions.erase id },
          (t.releaseSession id).2) :=
      ⟨ht ▸ (Frees.releaseSession t id).free, (Frees.releaseSession t id).released⟩
    split <;> exact hrelease _ rfl

lemma Frees.closeDeferred (s : Scheduler) (id : String) : Frees s (s.closeDeferred id) := by
  unfold Scheduler.closeDeferred
  split
  · exact .refl rfl
  · next o _ =>
    have hclose :=
      Frees.closeSession (s.setSession o { s.objects o with closeOnFinish := false }) id
    exact ⟨hclose.free, hclose.released⟩

lemma Frees.closeAll (hclose : ∀ s id, Frees s (close s id))
    (s : Scheduler) (ids : List String) : Frees s (closeAll close s ids) := by
  have hfold (t : Scheduler) (released : List Released) (h : Frees s (t, released)) :
      Frees s (ids.foldl (fun p id => ((close p.1 id).1, p.2 ++ (close p.1 id).2))
        (t, released)) := by
    induction ids generalizing t released with
    | nil => exact h
    | cons id ids ih =>
      refine ih _ _ ⟨List.Subset.trans h.free (hclose t id).free, fun x hx => ?_⟩
      rcases mem_append.mp hx with hx | hx
      · exact (hclose t id).free (h.released x hx)
      · exact (hclose t id).released x hx
  exact hfold s [] (.refl rfl)

lemma Frees.maybeReap (s : Scheduler) (timedOut : String → Bool) :
    Frees s (s.maybeReap timedOut) := by
  let pending :=
    s.sessions.items.filter fun p => (s.objects p.2).closeOnFinish && !s.hasUnfinishedNode p.2
  have hdeferred := Frees.closeAll Frees.closeDeferred s (pending.map (·.1))
  let t := (Scheduler.closeAll Scheduler.closeDeferred s (pending.map (·.1))).1
  have htimed := Frees.closeAll Frees.closeSession t ((t.sessions.items.map (·.1)).filter timedOut)
  refine ⟨List.Subset.trans hdeferred.free htimed.free, fun x hx => ?_⟩
  rcases mem_append.mp hx with hx | hx
  · exact htimed.free (hdeferred.released x hx)
  · exact htimed.released x hx

/-- Rows that are given up are free. -/
lemma mem_freeSlots_of_released {e : Event} (hstep : s.step e = some (s', released)) :
    ∀ x ∈ released, x.row ∈ s'.freeSlots := by
  have hrelease {t : Scheduler} {r : Nat} {req : Req} {result : Scheduler × List Released}
    (h : t.releaseKvCache r req = result) :
      ∀ x ∈ result.2, x.row ∈ result.1.freeSlots := by
    rw [← h]
    unfold releaseKvCache
    split
    · unfold tryCacheFinishedReq
      split
      · exact (Frees.releaseSession _ _).released
      · exact nofun
    · exact nofun
  cases e with
  | openSession | generate | abort =>
    cases hstep
    exact nofun
  | grammarReady r | drop r =>
    obtain ⟨req, -, hstep⟩ := bind_eq_some_iff.mp hstep
    split at hstep
    · cases hstep
      exact nofun
    · nomatch hstep
  | prefetch =>
    simp only [step] at hstep
    split at hstep
    · obtain ⟨t, -, heq⟩ := map_eq_some_iff.mp hstep
      cases heq
      exact nofun
    · nomatch hstep
  | schedule =>
    obtain ⟨t, -, heq⟩ := map_eq_some_iff.mp hstep
    cases heq
    exact nofun
  | result r tokens kvLen stopped =>
    obtain ⟨req, -, hstep⟩ := bind_eq_some_iff.mp hstep
    split at hstep
    · have heq := some.inj hstep
      split at heq
      · exact hrelease heq
      · exact hrelease heq
      · cases heq
        exact nofun
    · nomatch hstep
  | retract r abort =>
    obtain ⟨req, -, hstep⟩ := bind_eq_some_iff.mp hstep
    split at hstep
    · obtain ⟨req', -, heq⟩ := map_eq_some_iff.mp hstep
      cases heq
      exact hrelease rfl
    · nomatch hstep
  | close sessionId =>
    have heq : s.closeSession sessionId = (s', released) := some.inj hstep
    have hfrees := Frees.closeSession s sessionId
    rw [heq] at hfrees
    exact hfrees.released
  | reap timedOut =>
    have heq : s.maybeReap timedOut = (s', released) := some.inj hstep
    have hfrees := Frees.maybeReap s timedOut
    rw [heq] at hfrees
    exact hfrees.released

/-! ### Runs -/

/-- The steps that leave the flag of an active request alone: no active request is kept out of the
queue, taken out of it or retracted, and a refused request is not handled while another one is
active. -/
def Tame (s : Scheduler) : Event → Prop
  | .prefetch r _ | .schedule r _ _ => ∀ req, s.reqs r = some req → TameLookup s req
  | .drop r => ∀ req, s.reqs r = some req → req.activeOn = none
  | .result r _ _ _ => ∀ req, s.reqs r = some req → TameResult s req
  | .abort a => TameAbort s a
  | .retract r _ => ∀ req, s.reqs r = some req → req.session = none
  | _ => True

def TameStep (s s' : Scheduler) : Prop := ∃ e released, Tame s e ∧ s.step e = some (s', released)

lemma TameStep.of_event (e : Event) (htame : Tame s e)
    (hstep : s.step e = some (s', released)) : TameStep s s' := ⟨e, released, htame, hstep⟩

def Scheduler.create (size : Nat) (bosTokenId : Option Nat) : Scheduler where
  freeSlots := range size
  bosTokenId := bosTokenId

lemma Inv.create (size : Nat) (bosTokenId : Option Nat) : Inv (create size bosTokenId) := by
  refine ⟨?_, fun _ _ => nofun, fun _ _ => nofun⟩
  constructor
  case nodup => exact nodup_range
  case flag => exact fun o => ⟨nofun, fun ⟨r, hr⟩ => nomatch hr⟩
  all_goals intros
  all_goals first | contradiction | exact ⟨rfl, rfl⟩

/-- Every tame step keeps the sessions exclusive. -/
lemma Inv.step (h : Inv s) (hstep : TameStep s s') : Inv s' := by
  obtain ⟨e, released, htame, hstep⟩ := hstep
  cases e with
  | openSession sessionId =>
    obtain ⟨rfl, -⟩ := Prod.mk.inj (some.inj hstep)
    exact h.openSession sessionId
  | generate sessionId input invalid grammar =>
    obtain ⟨rfl, -⟩ := Prod.mk.inj (some.inj hstep)
    exact h.generate sessionId input invalid grammar
  | grammarReady r =>
    obtain ⟨req, hreq, hstep⟩ := bind_eq_some_iff.mp hstep
    obtain ⟨hrefused, hlive, hgrammar⟩ := h.sound r req hreq
    split at hstep
    · next hstage =>
      obtain ⟨rfl, -⟩ := Prod.mk.inj (some.inj hstep)
      have hreason := hlive (by simp [hstage])
      refine h.same hreq ⟨hrefused, fun _ => hreason, nofun⟩ ?_ ?_ ?_
      · simp [Req.activeOn, Req.finished, hstage]
      · simp [Req.row, hstage]
      · simp [Req.doomed, hstage]
    · nomatch hstep
  | drop r =>
    obtain ⟨req, hreq, hstep⟩ := bind_eq_some_iff.mp hstep
    split at hstep
    · obtain ⟨rfl, -⟩ := Prod.mk.inj (some.inj hstep)
      exact h.drop hreq (htame req hreq)
    · nomatch hstep
  | prefetch r hit =>
    simp only [Scheduler.step] at hstep
    split at hstep
    · next hwaiting =>
      obtain ⟨t, ht, heq⟩ := map_eq_some_iff.mp hstep
      obtain ⟨rfl, -⟩ := Prod.mk.inj heq
      obtain ⟨req, hreq, -⟩ := bind_eq_some_iff.mp ht
      exact (h.initNextRoundInput hreq (by simpa [hreq] using hwaiting) (htame req hreq) ht).1
    · nomatch hstep
  | schedule r hit admitted =>
    obtain ⟨t, ht, heq⟩ := map_eq_some_iff.mp hstep
    obtain ⟨rfl, -⟩ := Prod.mk.inj heq
    cases hreq : s.reqs r with
    | none => simp [Scheduler.schedule, hreq] at ht
    | some req => exact h.schedule hreq (htame req hreq) ht
  | result r tokens kvLen stopped =>
    obtain ⟨req, hreq, -⟩ := bind_eq_some_iff.mp hstep
    exact h.processBatchResult hreq (htame req hreq) hstep
  | abort a =>
    obtain ⟨rfl, -⟩ := Prod.mk.inj (some.inj hstep)
    exact h.abortRequest htame
  | retract r abort =>
    obtain ⟨req, hreq, -⟩ := bind_eq_some_iff.mp hstep
    exact h.retract hreq (htame req hreq) hstep
  | close sessionId =>
    have heq : s.closeSession sessionId = (s', released) := some.inj hstep
    have hinv := h.closeSession sessionId
    rw [heq] at hinv
    exact hinv
  | reap timedOut =>
    have heq : s.maybeReap timedOut = (s', released) := some.inj hstep
    have hinv := h.maybeReap timedOut
    rw [heq] at hinv
    exact hinv

/-- The flag is exact, a session has one active request, and the row of a slot is used by that one
only. -/
structure Exclusive (s : Scheduler) : Prop where
  flag : ∀ o, (s.objects o).inflight = true ↔ ∃ r, s.activeOn r = some o
  unique : ∀ r r' o, s.activeOn r = some o → s.activeOn r' = some o → r = r'
  rows : ∀ r r' row, s.rowOf r = some row → s.rowOf r' = some row → r = r'
  slots : ∀ r id slot row, s.slots id = some slot → slot.reqPoolIdx = some row →
    s.rowOf r = some row →
    ∃ o, s.activeOn r = some o ∧ (s.objects o).sessionId = id

lemma Inv.exclusive (h : Inv s) : Exclusive s where
  flag := h.ledger.flag
  unique := h.ledger.unique
  rows := h.ledger.rowInj
  slots r id slot row hslot hrow hr :=
    h.ledger.share r id row hr (by simp [Scheduler.ledger, hslot, hrow])

theorem sessions_exclusive (size : Nat) (bosTokenId : Option Nat) {history : List Scheduler}
    (h : Runs.Run TameStep (create size bosTokenId) history) : ∀ s ∈ history, Exclusive s ∧
      ∀ e s' released, Tame s e → s.step e = some (s', released) →
      ∀ x ∈ released, ∀ r, s'.rowOf r ≠ some x.row := by
  intro s hs
  have hinv := h.invariant (Inv.create size bosTokenId) (fun _ _ => Inv.step) s hs
  refine ⟨hinv.exclusive, fun e s' released htame hstep x hx r hrow => ?_⟩
  have hinv' := hinv.step ⟨e, released, htame, hstep⟩
  exact hinv'.ledger.rowFree r x.row hrow (mem_freeSlots_of_released hstep x hx)

def oneTurn (rid : String) : GenerateInput where
  rid := rid
  inputIds := [1, 2]
  maxNewTokens := 4

open TameStep

/-- Two turns of a session that is closed during the second. -/
theorem sessions_exclusive_two_turns :
    ∃ history, history.length = 9 ∧ Runs.Run TameStep (create 4 none) history ∧
    ∀ s ∈ history, Exclusive s ∧
      ∀ e s' released, Tame s e → s.step e = some (s', released) →
      ∀ x ∈ released, ∀ r, s'.rowOf r ≠ some x.row := by
  have h0 := @Runs.Run.nil _ TameStep (create 4 none)
  have h1 := h0.cons (of_event (.openSession "s") trivial rfl)
  have h2 := h1.cons (of_event (.generate (some "s") (oneTurn "a") none false) trivial rfl)
  have h3 := h2.cons (of_event (.schedule 0 0 (some 2)) (fun req h => some.inj h ▸ nofun) rfl)
  have h4 := h3.cons (of_event (.result 0 [7] 3 (some none)) (fun req h => some.inj h ▸ nofun) rfl)
  have h5 := h4.cons (of_event (.generate (some "s") (oneTurn "b") none false) trivial rfl)
  have h6 := h5.cons (of_event (.schedule 1 0 (some 5)) (fun req h => some.inj h ▸ nofun) rfl)
  have h7 := h6.cons (of_event (.close "s") trivial rfl)
  have h8 := h7.cons (of_event (.result 1 [8] 6 (some none)) (fun req h => some.inj h ▸ nofun) rfl)
  exact ⟨_, rfl, h8, sessions_exclusive 4 none h8⟩

/-- A request that is refused because another one is active clears the flag of that one: the next
request runs on the same row. -/
theorem refused_request_clears_flag : ∃ s,
    [.openSession "s", .generate (some "s") (oneTurn "a") none false, .schedule 0 0 (some 2),
    .result 0 [7] 3 (some none),
      .generate (some "s") (oneTurn "b") none false, .schedule 1 0 (some 5), .generate
      (some "s") (oneTurn "c") none false,
      .schedule 2 0 none, .generate (some "s") (oneTurn "d") none false, .schedule 3 0
      (some 5)].foldlM
      (fun s e => (step s e).map (·.1)) (create 4 none) = some s ∧
    s.isRunning 1 = true ∧ s.isRunning 3 = true ∧ s.rowOf 1 = some 0 ∧
    s.rowOf 3 = some 0 ∧ ¬Exclusive s := by
  refine ⟨_, rfl, rfl, rfl, rfl, rfl, fun h => ?_⟩
  exact absurd (h.rows 1 3 0 rfl rfl) (by decide)

end Sglang.Sessions
