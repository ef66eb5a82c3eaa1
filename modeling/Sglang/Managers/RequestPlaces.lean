import Sglang.Lib.Runs
import Sglang.Managers.SchedulerRounds

/-! No request is lost or duplicated.

All that concerns one request is how often it occurs in each place, a `View` of numbers; between two
moves of a round the requests that are on their way to the queue are a further place, `limbo`. Every
move of the scheduler keeps every view in order (`Placed`). What breaks it is a pass that preempts
and then admits nobody: the preempted requests are put back only when there is a new batch. A round
is `Tame` if a request that may preempt is admitted, or the chunked request makes the batch nonempty
anyway. -/
namespace Sglang.Managers.Rounds

open List Option

lemma count_filter_eq {α : Type*} [DecidableEq α] (p : α → Bool) (l : List α) (a : α) :
    (l.filter p).count a = if p a then l.count a else 0 := by
  split
  · exact count_filter ‹_›
  · exact count_eq_zero.mpr fun hmem => absurd (mem_filter.mp hmem).2 ‹_›

namespace Scheduler

/-- How often a request occurs in each place. -/
structure View where
  waiting : Nat
  grammar : Nat
  limbo : Nat
  chunk : Nat
  last : Nat
  running : Nat
  flight : Nat
  accepted : Nat
  reported : Nat
  finished : Nat
  retracted : Nat

namespace View

def queued (v : View) : Nat := v.waiting + v.grammar + v.limbo

def active (v : View) : Nat := v.chunk + v.last + v.running

/-- A request is in one queue or active or reported; it is reported while active only once it has
finished. -/
@[mk_iff]
structure Placed (v : View) : Prop where
  once : v.queued ≤ 1
  apart : 0 < v.queued → v.active = 0 ∧ v.reported = 0
  complete : 0 < v.accepted ↔ 0 < v.queued ∨ 0 < v.active ∨ 0 < v.reported
  live : 0 < v.active → 0 < v.reported → 0 < v.finished
  released : 0 < v.retracted → 0 < v.waiting ∨ 0 < v.limbo ∨ 0 < v.reported
  fresh : 0 < v.active → v.retracted = 0
  finished : 0 < v.finished → 0 < v.reported
  batch : v.last + v.running ≤ 1
  chunk : v.chunk + v.running ≤ 1
  tracked : 0 < v.flight → 0 < v.active ∨ 0 < v.finished ∨ 0 < v.retracted

variable {v : View}

section
variable (h : v.Placed)
include h

lemma Placed.report (hlimbo : 0 < v.limbo) :
    { v with limbo := v.limbo - 1, reported := v.reported + 1 }.Placed := by
  simp only [placed_iff, queued, active] at *
  grind

lemma Placed.enqueue (hlimbo : 0 < v.limbo) :
    { v with limbo := v.limbo - 1, waiting := v.waiting + 1 }.Placed := by
  simp only [placed_iff, queued, active] at *
  grind

lemma Placed.abort (hwaiting : 0 < v.waiting) :
    { v with waiting := v.waiting - 1, reported := v.reported + 1 }.Placed := by
  simp only [placed_iff, queued, active] at *
  grind

lemma Placed.arrive (hnew : v.accepted = 0) :
    { v with accepted := v.accepted + 1, limbo := v.limbo + 1 }.Placed := by
  simp only [placed_iff, queued, active] at *
  grind

lemma Placed.arriveGrammar (hnew : v.accepted = 0) :
    { v with accepted := v.accepted + 1, grammar := v.grammar + 1 }.Placed := by
  simp only [placed_iff, queued, active] at *
  grind

lemma Placed.ready : { v with grammar := 0, limbo := v.limbo + v.grammar }.Placed := by
  simp only [placed_iff, queued, active] at *
  grind

lemma Placed.choose : { v with waiting := 0, limbo := v.limbo + v.waiting }.Placed := by
  simp only [placed_iff, queued, active] at *
  grind

lemma Placed.leaveLast (hkept : 0 < v.finished ∨ 0 < v.chunk) : { v with last := 0 }.Placed := by
  simp only [placed_iff, queued, active] at *
  grind

lemma Placed.merge (hchunk : v.chunk = 0) :
    { v with last := 0, running := v.running + v.last }.Placed := by
  simp only [placed_iff, queued, active] at *
  grind

lemma Placed.leaveRunning (hfinished : 0 < v.finished) : { v with running := 0 }.Placed := by
  simp only [placed_iff, queued, active] at *
  grind

lemma Placed.release (hrunning : 0 < v.running) (hfinished : v.finished = 0) :
    { v with running := 0, limbo := v.limbo + 1, retracted := 1 }.Placed := by
  simp only [placed_iff, queued, active] at *
  grind

lemma Placed.releaseAborted (hrunning : 0 < v.running) (hfinished : v.finished = 0) :
    { v with running := 0, reported := v.reported + 1, retracted := 1 }.Placed := by
  simp only [placed_iff, queued, active] at *
  grind

lemma Placed.finish (hactive : 0 < v.active) :
    { v with reported := v.reported + 1, finished := 1 }.Placed := by
  simp only [placed_iff, queued, active] at *
  grind

lemma Placed.decode : { v with flight := v.flight + v.running }.Placed := by
  simp only [placed_iff, queued, active] at *
  grind

/-- The chosen requests, `batch` of them, and `mixed` running ones make a new batch; `chunk` is the
new chunked request. -/
lemma Placed.launch {batch mixed chunk retracted : Nat} (hlast : v.last = 0)
    (hmixed : mixed = 0 ∨ mixed = v.running) (hbatch : batch ≤ v.limbo + v.chunk)
    (hlimbo : v.limbo ≤ batch) (hchunk : v.chunk ≤ chunk + batch)
    (hchunked : chunk ≤ v.limbo + v.chunk) (hlaunched : 0 < batch + mixed → retracted = 0)
    (hother : batch + mixed = 0 → retracted = v.retracted) :
    { v with limbo := 0, chunk := chunk, last := batch + mixed, running := v.running - mixed, flight := v.flight + (batch + mixed)
             retracted := retracted }.Placed := by
  obtain ⟨once, apart, complete, live, released, fresh, finished, batch, chunk, tracked⟩ := h
  constructor <;> simp only [queued, active] at * <;> grind

end

end View

/-- The places of a request. The requests on their way to the queue or to a new batch are in
`limbo`; during a round `chunked` is the chunked request and `flight` are the requests of the
batches without results. -/
def view (s : Scheduler) (limbo chunked flight : List Rid) (req : Rid) : View where
  waiting := s.waitingQueue.count req
  grammar := s.grammarQueue.count req
  limbo := limbo.count req
  chunk := chunked.count req
  last := s.lastBatch.count req
  running := s.runningBatch.count req
  flight := flight.count req
  accepted := s.accepted.count req
  reported := s.reported.count req
  finished := (s.finished req).toNat
  retracted := (s.isRetracted req).toNat

def Placed (s : Scheduler) (limbo chunked flight : List Rid) : Prop :=
  ∀ req, (s.view limbo chunked flight req).Placed

def active (s : Scheduler) : List Rid := s.chunkedReq.toList ++ s.lastBatch ++ s.runningBatch

variable {cfg : Config} {round : Round} {s s' : Scheduler} {req : Rid}
  {limbo chunked flight : List Rid} {reqs : List Rid}

/-! ### The waiting queue -/

/-- What putting requests into the queue leaves alone. -/
structure QueueOnly (s : Scheduler) (reqs : List Rid) (s' : Scheduler) : Prop where
  waitingQueue : s'.waitingQueue ⊆ s.waitingQueue ++ reqs
  chunkedReq : s'.chunkedReq = s.chunkedReq
  runningBatch : s'.runningBatch = s.runningBatch
  lastBatch : s'.lastBatch = s.lastBatch
  resultQueue : s'.resultQueue = s.resultQueue
  finished : s'.finished = s.finished
  isRetracted : s'.isRetracted = s.isRetracted

lemma abortCandidate_mem {candidate : Rid} (h : s.abortCandidate cfg = some candidate) :
    candidate ∈ s.waitingQueue := by
  have hfold : ∀ (queue : List Rid) (best : Rid),
      queue.foldl (fun best req => if worse cfg s req best then
      req else best) best ∈ best :: queue := by
    intro queue
    induction queue with
    | nil => exact fun best => mem_singleton_self best
    | cons req queue ih =>
      intro best
      rw [foldl_cons]
      split
      · exact mem_cons_of_mem _ (ih req)
      · exact (mem_cons.mp (ih best)).elim (fun heq => mem_cons.mpr (.inl heq)) fun hmem =>
          mem_cons_of_mem _ (mem_cons_of_mem _ hmem)
  unfold abortCandidate at h
  split at h
  · cases h
  · rename_i req queue heq
    rw [heq, ← some.inj h]
    exact hfold queue req

lemma Placed.report (h : s.Placed (req :: limbo) chunked flight) :
    (s.report req).Placed limbo chunked flight := by
  intro r
  by_cases hr : req = r
  · subst hr
    simpa [view, Scheduler.report] using (h req).report (by simp [view])
  · simpa [view, Scheduler.report, hr] using h r

lemma Placed.enqueue (h : s.Placed (req :: limbo) chunked flight) :
    (s.enqueue req).Placed limbo chunked flight := by
  intro r
  by_cases hr : req = r
  · subst hr
    simpa [view, Scheduler.enqueue] using (h req).enqueue (by simp [view])
  · simpa [view, Scheduler.enqueue, hr] using h r

lemma Placed.abort (h : s.Placed limbo chunked flight) (hreq : req ∈ s.waitingQueue) :
    (Scheduler.report
    { s with waitingQueue := s.waitingQueue.erase req } req).Placed limbo chunked flight := by
  intro r
  by_cases hr : req = r
  · subst hr
    simpa [view, Scheduler.report] using (h req).abort (by simpa [view] using hreq)
  · simpa [view, Scheduler.report, hr, count_erase_of_ne (Ne.symm hr)] using h r

lemma QueueOnly.report : QueueOnly s [req] (s.report req) :=
  ⟨subset_append_left _ _, rfl, rfl, rfl, rfl, rfl, rfl⟩

lemma QueueOnly.enqueue : QueueOnly s [req] (s.enqueue req) :=
  ⟨List.Subset.refl _, rfl, rfl, rfl, rfl, rfl, rfl⟩

lemma Placed.addRequestToQueue (h : s.Placed (req :: limbo) chunked flight)
    (hstep : s.addRequestToQueue cfg req = some s') :
    s'.Placed limbo chunked flight ∧ QueueOnly s [req] s' := by
  unfold Scheduler.addRequestToQueue at hstep
  split at hstep
  · cases hstep
    exact ⟨h.report, .report⟩
  split at hstep
  · cases hstep
    exact ⟨h.enqueue, .enqueue⟩
  split at hstep
  · cases hstep
    exact ⟨h.enqueue, .enqueue⟩
  split at hstep
  · obtain ⟨candidate, hcandidate, heq⟩ := map_eq_some_iff.mp hstep
    split at heq
    · subst heq
      refine ⟨(h.abort (abortCandidate_mem hcandidate)).enqueue, ?_, rfl, rfl, rfl, rfl, rfl, rfl⟩
      exact append_subset.mpr ⟨List.Subset.trans erase_subset (subset_append_left _ _),
        subset_append_right _ _⟩
    · subst heq
      exact ⟨h.report, .report⟩
  · cases hstep
    exact ⟨h.report, .report⟩

lemma Placed.addRequestsToQueue (h : s.Placed (reqs ++ limbo) chunked flight)
    (hstep : s.addRequestsToQueue cfg reqs = some s') :
    s'.Placed limbo chunked flight ∧ QueueOnly s reqs s' := by
  unfold Scheduler.addRequestsToQueue at hstep
  induction reqs generalizing s with
  | nil =>
    cases hstep
    exact ⟨h, subset_append_left _ _, rfl, rfl, rfl, rfl, rfl, rfl⟩
  | cons req reqs ih =>
    rw [foldlM_cons, bind_eq_bind, bind_eq_some_iff] at hstep
    obtain ⟨s1, hfirst, hrest⟩ := hstep
    obtain ⟨h1, hq⟩ := h.addRequestToQueue hfirst
    obtain ⟨h', hq'⟩ := ih h1 hrest
    refine ⟨h', ?_, hq'.chunkedReq.trans hq.chunkedReq, hq'.runningBatch.trans hq.runningBatch,
      hq'.lastBatch.trans hq.lastBatch, hq'.resultQueue.trans hq.resultQueue,
      hq'.finished.trans hq.finished,
      hq'.isRetracted.trans hq.isRetracted⟩
    have hfirst : s1.waitingQueue ++ reqs ⊆ s.waitingQueue ++ [req] ++ reqs :=
      append_subset.mpr ⟨List.Subset.trans hq.waitingQueue (subset_append_left _ _),
        subset_append_right _ _⟩
    simpa using List.Subset.trans hq'.waitingQueue hfirst

lemma Placed.perm {limbo' : List Rid} (h : s.Placed limbo chunked flight)
    (hperm : limbo'.Perm limbo) :
    s.Placed limbo' chunked flight := by
  intro r
  simpa [view, hperm.count_eq] using h r

/-! ### Batches -/

lemma Placed.merge (h : s.Placed limbo s.chunkedReq.toList flight) :
    s.mergeLastBatch.Placed limbo s.chunkedReq.toList flight := by
  intro r
  by_cases hfinished : s.finished r
  · simpa [view, mergeLastBatch, count_filter_eq, hfinished] using (h r).leaveLast
      (.inl (by simp [view, hfinished]))
  by_cases hchunk : s.chunkedReq = some r
  · simpa [view, mergeLastBatch, count_filter_eq, hchunk] using (h r).leaveLast
      (.inr (by simp [view, hchunk]))
  · simpa [view, mergeLastBatch, count_filter_eq, hfinished, Ne.symm hchunk] using
      (h r).merge (count_eq_zero.mpr (by simpa using hchunk))

lemma Placed.filterRunning (h : s.Placed limbo chunked flight) :
    s.filterRunning.Placed limbo chunked flight := by
  intro r
  by_cases hfinished : s.finished r
  · simpa [view, Scheduler.filterRunning, count_filter_eq, hfinished] using (h r).leaveRunning
      (by simp [view, hfinished])
  · simpa [view, Scheduler.filterRunning, count_filter_eq, hfinished] using h r

lemma Placed.releaseReqs (h : s.Placed limbo chunked flight)
    (hreqs : ∀ r, reqs.count r ≤ s.runningBatch.count r)
    (hfinished : ∀ r ∈ reqs, s.finished r = false) :
    (s.releaseReqs reqs).Placed (limbo ++ reqs) chunked flight := by
  intro r
  by_cases hr : r ∈ reqs
  · have hpos : 0 < reqs.count r := count_pos_iff.mpr hr
    have hle : reqs.count r ≤ s.runningBatch.count r := hreqs r
    have hbatch : s.lastBatch.count r + s.runningBatch.count r ≤ 1 := (h r).batch
    have hcount : reqs.count r = 1 := by omega
    have hrunning : 0 < s.runningBatch.count r := by omega
    simpa [view, Scheduler.releaseReqs, count_filter_eq, hr, hcount] using (h r).release hrunning
      (by simp [view, hfinished r hr])
  · simpa [view, Scheduler.releaseReqs, count_filter_eq, hr, count_eq_zero.mpr hr] using h r

/-! ### A prefill pass -/

section Pass

variable {budget : Budget} {adder : Adder}

lemma collectPreemptible_sublist (valid : List Rid) (missing : ℚ) :
    (collectPreemptible cfg budget req valid missing).1.Sublist valid := by
  fun_induction collectPreemptible cfg budget req valid missing with
  | case1 => exact List.Sublist.refl _
  | case2 => exact List.Sublist.cons_cons _ (nil_sublist _)
  | case3 _ _ _ _ _ _ _ _ heq ih => exact List.Sublist.cons_cons _ (by simpa [heq] using ih)
  | case4 => exact nil_sublist _

lemma outranks_of_mem_collectPreemptible (valid : List Rid) (missing : ℚ) :
    ∀ r ∈ (collectPreemptible cfg budget req valid missing).1, outranks cfg req r := by
  fun_induction collectPreemptible cfg budget req valid missing with
  | case1 => simp
  | case2 _ _ _ hrank => simpa using hrank
  | case3 _ _ _ hrank _ _ _ _ heq ih => simpa [heq] using ⟨hrank, by simpa [heq] using ih⟩
  | case4 => simp

/-- The preempted requests run, have not finished and are outranked. -/
lemma preemptToSchedule_spec (h : s.preemptToSchedule cfg budget req = some reqs) :
    reqs ≠ [] ∧ (∀ r, reqs.count r ≤ s.runningBatch.count r) ∧ (∀ r ∈ reqs, s.finished r = false) ∧
      ∀ r ∈ reqs, outranks cfg req r := by
  unfold preemptToSchedule at h
  set active := s.runningBatch.filter fun runningReq => !s.finished runningReq
  set valid := active.insertionSort (preemptedBefore cfg s) with hvalid
  have hperm : valid.Perm active := perm_insertionSort _ _
  have hsub : (collectPreemptible cfg budget req valid budget.minTokensToRemove).1.Sublist valid :=
    collectPreemptible_sublist valid budget.minTokensToRemove
  simp only at h
  split at h
  · cases h
  · rename_i hsome
    cases h
    refine ⟨fun hnil => hsome (.inl hnil), fun r => ?_, fun r hr => ?_,
      outranks_of_mem_collectPreemptible valid budget.minTokensToRemove⟩
    · exact (hsub.count_le r).trans (hperm.count_eq r ▸ filter_sublist.count_le r)
    · simpa using (mem_filter.mp (hperm.mem_iff.mp (hsub.subset hr))).2

lemma Adder.addOneReq_spec (adder : Adder) (req : Rid) (answer : Answer) :
    (adder.addOneReq req answer).1.preemptList = adder.preemptList ∧
      ((adder.addOneReq req answer).1 = adder ∧
      ¬(answer.prefetchDone = true ∧ answer.result ≠ .refused) ∨
        (adder.addOneReq req answer).1.canRunList = adder.canRunList ++ [req] ∧
          ((adder.addOneReq req answer).1.newChunkedReq = adder.newChunkedReq ∨
            (adder.addOneReq req answer).1.newChunkedReq = some req)) := by
  unfold Adder.addOneReq
  split
  · split <;> simp_all [Adder.add]
  · simp_all

/-- The pass over the waiting queue of `s₀`, with the requests of `queue` still to come. -/
structure Passing (round : Round) (s₀ : Scheduler) (flight queue : List Rid)
    (s : Scheduler) (adder : Adder) : Prop where
  placed : s.Placed adder.preemptList s₀.chunkedReq.toList flight
  lastBatch : s.lastBatch = []
  waitingQueue : s.waitingQueue = s₀.waitingQueue
  chunkedReq : s.chunkedReq = if round.chunk = .last then none else s₀.chunkedReq
  resultQueue : s.resultQueue = s₀.resultQueue
  runningBatch : s.runningBatch ⊆ s₀.runningBatch
  chosen :
    ∀ r, adder.canRunList.count r + queue.count r ≤
    s₀.waitingQueue.count r + s₀.chunkedReq.toList.count r
  chunk : round.chunk = .postponed ∨ s₀.chunkedReq.toList ⊆ adder.canRunList
  newChunk : ∀ r, adder.newChunkedReq = some r → r ∈ adder.canRunList ∧ r ∈ s₀.waitingQueue

variable {s₀ : Scheduler} {queue : List Rid}

lemma Passing.skip (h : Passing round s₀ flight (req :: queue) s adder) :
    Passing round s₀ flight queue s adder :=
  { h with chosen := fun r => le_trans (Nat.add_le_add_left ((sublist_cons_self req queue).count_le r) _) (h.chosen r) }

lemma Passing.stop (h : Passing round s₀ flight queue s adder) :
    Passing round s₀ flight [] s adder :=
  { h with chosen := fun r => le_trans (Nat.add_le_add_left ((nil_sublist queue).count_le r) _) (h.chosen r) }

lemma Passing.preempt (h : Passing round s₀ flight queue s adder)
    (hpreempt : s.preemptToSchedule cfg budget req = some reqs) :
    Passing round s₀ flight queue (s.releaseReqs reqs)
    { adder with preemptList := adder.preemptList ++ reqs } := by
  obtain ⟨-, hcount, hfinished, -⟩ := preemptToSchedule_spec hpreempt
  exact { h with
    placed := h.placed.releaseReqs hcount hfinished
    runningBatch := List.Subset.trans filter_sublist.subset h.runningBatch }

section
variable (answer : Answer) (hreq : req ∈ s₀.waitingQueue)
  (h : Passing round s₀ flight (req :: queue) s adder)
include hreq h

lemma Passing.addOneReq :
    Passing round s₀ flight queue s (adder.addOneReq req answer).1 := by
  obtain ⟨hlist, ⟨hsame, -⟩ | ⟨hrun, hchunk⟩⟩ := adder.addOneReq_spec req answer
  · rw [hsame]
    exact h.skip
  have hsub : adder.canRunList ⊆ (adder.addOneReq req answer).1.canRunList :=
    hrun ▸ subset_append_left _ _
  refine { h with placed := hlist ▸ h.placed, chosen := fun r => ?_, chunk := ?_, newChunk := fun r hr => ?_ }
  · have := h.chosen r
    rw [hrun, count_append]
    rw [count_cons] at this
    rw [count_singleton]
    omega
  · exact h.chunk.imp_right fun hc => List.Subset.trans hc hsub
  · obtain hchunk | hchunk := hchunk
    · exact (h.newChunk r (hchunk ▸ hr)).imp_left fun hmem => hsub hmem
    · cases hchunk.symm.trans hr
      exact ⟨hrun ▸ mem_append_right _ (mem_singleton_self _), hreq⟩

lemma Passing.tryAdd (cfg : Config) :
    Passing round s₀ flight queue (s.tryAdd cfg req answer adder).1
    (s.tryAdd cfg req answer adder).2.1 := by
  unfold Scheduler.tryAdd
  split
  · exact h.skip
  split
  · split
    · split
      · exact h.skip
      · rename_i reqs hpreempt
        exact (h.preempt hpreempt).addOneReq answer hreq
    · exact h.skip
  · exact h.addOneReq answer hreq

end

/-- No request of the waiting queue can preempt without being admitted, or the chunked request is
admitted. -/
def TamePass (cfg : Config) (round : Round) (s : Scheduler) : Prop :=
  cfg.enablePriorityPreemption = false ∨ s.chunkedReq ≠ none ∧ round.chunk ≠ .postponed ∨
    ∀ req ∈ s.waitingQueue, ((round.answers req).prefetchDone = true ∧
    (round.answers req).result ≠ .refused) ∨
      ∀ runningReq ∈ s.runningBatch, outranks cfg req runningReq = false

def Adder.Admits (adder : Adder) : Prop := adder.preemptList ≠ [] → adder.canRunList ≠ []

lemma Adder.Admits.addOneReq (h : adder.Admits) (answer : Answer) :
    (adder.addOneReq req answer).1.Admits := by
  obtain ⟨-, ⟨hsame, -⟩ | ⟨hrun, -⟩⟩ := adder.addOneReq_spec req answer
  · rw [hsame]
    exact h
  · exact fun _ => by simp [hrun]

section
variable (htame : TamePass cfg round s₀)
include htame

lemma Passing.admits_preempt (hcfg : cfg.enablePriorityPreemption = true)
    (hreq : req ∈ s₀.waitingQueue) (h : Passing round s₀ flight queue s adder)
    (hpreempt : s.preemptToSchedule cfg budget req = some reqs) :
    ({ adder with preemptList := adder.preemptList ++ reqs }.addOneReq req
    (round.answers req)).1.Admits := by
  set adder' : Adder := { adder with preemptList := adder.preemptList ++ reqs }
  obtain ⟨-, ⟨hsame, hrefused⟩ | ⟨hrun, -⟩⟩ := adder'.addOneReq_spec req (round.answers req)
  · obtain hoff | ⟨hchunked, hchunk⟩ | hwaiting := htame
    · simp [hcfg] at hoff
    · obtain ⟨c, hc⟩ := ne_none_iff_exists'.mp hchunked
      have hmem : c ∈ adder.canRunList := h.chunk.resolve_left hchunk (by simp [hc])
      rw [hsame]
      exact fun _ => ne_nil_of_mem hmem
    · obtain ⟨hnil, hcount, -, hrank⟩ := preemptToSchedule_spec hpreempt
      obtain ⟨r, hr⟩ := exists_mem_of_ne_nil reqs hnil
      have hrunning : r ∈ s.runningBatch :=
        count_pos_iff.mp ((count_pos_iff.mpr hr).trans_le (hcount r))
      have hno := (hwaiting req hreq).resolve_left hrefused r (h.runningBatch hrunning)
      simp [hrank r hr] at hno
  · exact fun _ => by simp [hrun]

lemma Passing.admits_tryAdd (hreq : req ∈ s₀.waitingQueue)
    (h : Passing round s₀ flight queue s adder) (hadmits : adder.Admits) :
    (s.tryAdd cfg req (round.answers req) adder).2.1.Admits := by
  unfold Scheduler.tryAdd
  split
  · exact hadmits
  split
  · split
    · rename_i hcfg
      split
      · exact hadmits
      · rename_i reqs hpreempt
        exact h.admits_preempt htame hcfg hreq hpreempt
    · exact hadmits
  · exact hadmits.addOneReq _

lemma Passing.addWaiting (hqueue : queue ⊆ s₀.waitingQueue)
    (h : Passing round s₀ flight queue s adder) (hadmits : adder.Admits) :
    Passing round s₀ flight [] (addWaiting cfg round.answers queue s adder).1
    (addWaiting cfg round.answers queue s adder).2 ∧
      (addWaiting cfg round.answers queue s adder).2.Admits := by
  induction queue generalizing s adder with
  | nil => exact ⟨h, hadmits⟩
  | cons req queue ih =>
    obtain ⟨hreq, hrest⟩ := cons_subset.mp hqueue
    have hnext := h.tryAdd (round.answers req) hreq cfg
    have hadmits' := h.admits_tryAdd htame hreq hadmits
    unfold addWaiting
    split
    · rename_i heq
      rw [heq] at hnext hadmits'
      exact ih hrest hnext hadmits'
    · rename_i heq
      rw [heq] at hnext hadmits'
      exact ⟨hnext.stop, hadmits'⟩

end

lemma Passing.start (round : Round) (h : s.Placed [] s.chunkedReq.toList flight)
    (hlast : s.lastBatch = []) :
    Passing round s flight s.waitingQueue (s.addChunkedReq round.chunk).1
    (s.addChunkedReq round.chunk).2 where
  placed := h
  lastBatch := hlast
  waitingQueue := rfl
  chunkedReq := rfl
  resultQueue := rfl
  runningBatch := List.Subset.refl _
  chosen r := by
    rw [Nat.add_comm]
    refine Nat.add_le_add_left ?_ _
    simp only [addChunkedReq]
    split
    · exact Nat.zero_le _
    · exact le_refl _
  chunk := by
    simp only [addChunkedReq]
    split
    · exact .inl ‹_›
    · exact .inr (List.Subset.refl _)
  newChunk _ hr := by cases hr

lemma Placed.choose (chosen : List Rid) (h : s.Placed limbo chunked flight) :
    Placed { s with waitingQueue := s.waitingQueue.filter (· ∉ chosen) }
    (limbo ++ s.waitingQueue.filter (· ∈ chosen)) chunked flight := by
  intro r
  by_cases hr : r ∈ chosen
  · simpa [view, count_filter_eq, hr] using (h r).choose
  · simpa [view, count_filter_eq, hr] using h r

lemma count_toList (o : Option Rid) (r : Rid) : o.toList.count r = if o = some r then 1 else 0 := by
  cases o <;> simp [count_singleton]

lemma Passing.chunkedReq_kept (h : Passing round s₀ flight [] s adder)
    (hassert : adder.newChunkedReq = none ∨ s.chunkedReq = none) (r : Rid) :
    s₀.chunkedReq.toList.count r ≤
    (adder.newChunkedReq <|> s.chunkedReq).toList.count r + adder.canRunList.count r := by
  by_cases hr : s₀.chunkedReq = some r
  · obtain hchunk | hsub := h.chunk
    · have hs : s.chunkedReq = some r := by simp [h.chunkedReq, hchunk, hr]
      have hnew : adder.newChunkedReq = none := hassert.resolve_right (by simp [hs])
      simp [hs, hnew, hr]
    · have hmem : r ∈ adder.canRunList := hsub (by simp [hr])
      have hpos : 0 < adder.canRunList.count r := count_pos_iff.mpr hmem
      simp only [count_toList, hr, if_true]
      omega
  · simp [count_toList, hr]

/-- The new chunked request was one before or has just been chosen. -/
lemma Passing.chunkedReq_new (h : Passing round s₀ flight [] s adder) (r : Rid) :
    (adder.newChunkedReq <|> s.chunkedReq).toList.count r ≤
      (s.waitingQueue.filter (· ∈ adder.canRunList)).count r + s₀.chunkedReq.toList.count r := by
  cases hnew : adder.newChunkedReq with
  | none =>
    rw [h.chunkedReq]
    split
    · exact Nat.zero_le _
    · exact Nat.le_add_left _ _
  | some c =>
    rw [count_toList]
    split
    · rename_i heq
      obtain ⟨hrun, hwaiting⟩ := h.newChunk r (hnew.trans heq)
      have hmem : r ∈ s.waitingQueue.filter (· ∈ adder.canRunList) := by
        simp [h.waitingQueue, hrun, hwaiting]
      exact Nat.le_add_right_of_le (count_pos_iff.mpr hmem)
    · exact Nat.zero_le _

/-- What a round leaves: the requests are in their places, and those of new batches are active. -/
structure Launched (s s' : Scheduler) : Prop where
  placed : s'.Placed [] s'.chunkedReq.toList (s'.resultQueue.flatMap Prod.snd)
  resultQueue : ∃ new : List (Bool × List Rid), s'.resultQueue = s.resultQueue ++ new ∧
    ∀ batch ∈ new, ∀ r ∈ batch.2, r ∈ s'.active

lemma Placed.launchPrefill {chosen batch mixed rest : List Rid} {c : Option Rid} {f : Rid → Int}
    (h : s.Placed chosen chunked flight) (hlast : s.lastBatch = [])
    (hmixed : mixed = [] ∧ rest = s.runningBatch ∨ mixed = s.runningBatch ∧ rest = [])
    (hbatch : ∀ r, batch.count r ≤ chosen.count r + chunked.count r)
    (hchosen : ∀ r, chosen.count r ≤ batch.count r)
    (hkept : ∀ r, chunked.count r ≤ c.toList.count r + batch.count r)
    (hnew : ∀ r, c.toList.count r ≤ chosen.count r + chunked.count r) :
    (Scheduler.launchPrefill { s with chunkedReq := c, isChunked := f, runningBatch := rest }
    (batch ++ mixed)).Placed [] c.toList
      (flight ++ (batch ++ mixed)) := by
  intro r
  have hmoved : (mixed.count r = 0 ∨ mixed.count r = s.runningBatch.count r) ∧
      rest.count r = s.runningBatch.count r - mixed.count r := by
    obtain ⟨rfl, rfl⟩ | ⟨rfl, rfl⟩ := hmixed <;> simp
  have hlaunched : 0 < batch.count r + mixed.count r →
      (if r ∈ batch ++ mixed then false else s.isRetracted r).toNat = 0 := by
    rw [← count_append, count_pos_iff]
    exact fun hmem => by rw [if_pos hmem]; rfl
  have hother : batch.count r + mixed.count r = 0 →
      (if r ∈ batch ++ mixed then false else s.isRetracted r).toNat = (s.isRetracted r).toNat := by
    rw [← count_append, count_eq_zero]
    exact fun hmem => by rw [if_neg hmem]
  have hr :=
    (h r).launch (by simp [view, hlast]) hmoved.1 (hbatch r) (hchosen r)
    (hkept r) (hnew r) hlaunched hother
  simpa [view, Scheduler.launchPrefill, hmoved.2] using hr

lemma Launched.prefill {c : Option Rid} {f : Rid → Int} {rest batch : List Rid}
    (hresults : s.resultQueue = s₀.resultQueue)
    (h : (launchPrefill { s with chunkedReq := c, isChunked := f, runningBatch := rest } batch).Placed [] c.toList
      (s₀.resultQueue.flatMap Prod.snd ++ batch)) :
    Launched s₀
      (launchPrefill { s with chunkedReq := c, isChunked := f, runningBatch := rest } batch) where
  placed := by simpa [launchPrefill, hresults] using h
  resultQueue := by
    refine ⟨[(true, batch)], congrArg (· ++ _) hresults, fun b hb r hr => ?_⟩
    obtain rfl := mem_singleton.mp hb
    exact mem_append_left _ (mem_append_right _ hr)

/-- The preempted requests go back to the queue and the chosen ones into the new batch. -/
lemma Passing.commitPrefill (h : Passing round s₀ (s₀.resultQueue.flatMap Prod.snd) [] s adder)
    (hstep : s.commitPrefill cfg round adder = some s') : Launched s₀ s' := by
  set chosen := s.waitingQueue.filter (· ∈ adder.canRunList) with hchosenDef
  have hchoose := h.placed.choose adder.canRunList
  simp only [Scheduler.commitPrefill, bind_eq_bind, bind_eq_some_iff] at hstep
  obtain ⟨s2, hqueue, _, hguard, hstep⟩ := hstep
  obtain ⟨h2, hq⟩ :=
    (hchoose.perm ((round.arrange_perm adder.preemptList).append_right chosen)).addRequestsToQueue
    hqueue
  have hassert : adder.newChunkedReq = none ∨ s.chunkedReq = none := by
    rw [← hq.chunkedReq]
    simpa using hguard
  have hwaiting (r : Rid) : s.waitingQueue.count r ≤ 1 := by
    have : s.waitingQueue.count r + s.grammarQueue.count r + adder.preemptList.count r ≤ 1 :=
      (h.placed r).once
    omega
  have hcount (r : Rid) : chosen.count r = if r ∈ adder.canRunList then s.waitingQueue.count r
      else 0 := by
    rw [hchosenDef, count_filter_eq]
    simp
  have hbatch (r : Rid) :
      adder.canRunList.count r ≤ chosen.count r + s₀.chunkedReq.toList.count r := by
    by_cases hr : r ∈ adder.canRunList
    · simpa [hcount, hr, h.waitingQueue] using h.chosen r
    · simp [count_eq_zero.mpr hr]
  have hchosen (r : Rid) : chosen.count r ≤ adder.canRunList.count r := by
    rw [hcount]
    split
    · exact (hwaiting r).trans (count_pos_iff.mpr ‹_›)
    · exact Nat.zero_le _
  have hkept := h.chunkedReq_kept hassert
  have hnew := h.chunkedReq_new
  rw [← show s2.chunkedReq = s.chunkedReq from hq.chunkedReq] at hkept hnew
  have hlast : s2.lastBatch = [] := hq.lastBatch.trans h.lastBatch
  have hresults : s2.resultQueue = s₀.resultQueue := hq.resultQueue.trans h.resultQueue
  split at hstep
  · cases hstep
    exact .prefill hresults (h2.filterRunning.launchPrefill hlast
      (.inr ⟨rfl, rfl⟩) hbatch hchosen hkept hnew)
  · cases hstep
    rw [← append_nil adder.canRunList]
    exact .prefill hresults (h2.launchPrefill hlast (.inl ⟨rfl, rfl⟩) hbatch hchosen hkept hnew)

lemma Placed.ready (grammars : List Rid) (h : s.Placed limbo chunked flight) :
    Placed { s with grammarQueue := s.grammarQueue.filter (· ∉ grammars) }
    (s.grammarQueue.filter (· ∈ grammars) ++ limbo) chunked
      flight := by
  intro r
  by_cases hr : r ∈ grammars
  · simpa [view, count_filter_eq, hr, Nat.add_comm] using (h r).ready
  · simpa [view, count_filter_eq, hr] using h r

/-- A pass that chooses nobody and preempts nobody leaves the chunked request. -/
lemma Passing.none_chosen (h : Passing round s₀ flight [] s adder) (hnone : adder.canRunList = [])
    (hadmits : adder.Admits) :
    s.Placed [] s.chunkedReq.toList flight := by
  have hpreempt : adder.preemptList = [] := by
    by_contra hne
    exact hadmits hne hnone
  have hchunked : s.chunkedReq = s₀.chunkedReq := by
    rw [h.chunkedReq, ite_eq_right_iff]
    intro hlast
    have hsub : s₀.chunkedReq.toList ⊆ [] := hnone ▸ h.chunk.resolve_left (by simp [hlast])
    rw [toList_eq_nil_iff.mp (subset_nil.mp hsub)]
  rw [hchunked, ← hpreempt]
  exact h.placed

lemma TamePass.mono (h : TamePass cfg round s) (hwaiting : s'.waitingQueue ⊆ s.waitingQueue)
    (hrunning : s'.runningBatch ⊆ s.runningBatch) (hchunked : s'.chunkedReq = s.chunkedReq) :
    TamePass cfg round s' := by
  refine h.imp_right (Or.imp (And.imp_left fun hne => hchunked ▸ hne) fun hall req hreq => ?_)
  exact (hall req (hwaiting hreq)).imp_right fun hno r hr => hno r (hrunning hr)

/-- The order of the waiting queue does not matter. -/
lemma Placed.sorted {queue : List Rid} (h : s.Placed limbo chunked flight)
    (hqueue : queue.Perm s.waitingQueue) :
    Placed { s with waitingQueue := queue } limbo chunked flight := by
  intro r
  simpa [view, hqueue.count_eq r] using h r

/-- After a pass there is a new batch, or nothing but the queues has changed. -/
lemma Placed.getNewBatchPrefill {newBatch : Bool}
    (h : s.Placed [] s.chunkedReq.toList (s.resultQueue.flatMap Prod.snd))
    (hlast : s.lastBatch = [])
    (htame : round.pass = false ∨
    TamePass cfg round { s with waitingQueue := s.waitingQueue ++ s.grammarQueue })
    (hstep : s.getNewBatchPrefill cfg round = some (s', newBatch)) :
    if newBatch then Launched s s'
    else s'.Placed [] s'.chunkedReq.toList (s'.resultQueue.flatMap Prod.snd) ∧
      s'.lastBatch = [] ∧ s'.resultQueue = s.resultQueue := by
  simp only [Scheduler.getNewBatchPrefill, bind_eq_bind, bind_eq_some_iff] at hstep
  obtain ⟨s1, hqueue, hstep⟩ := hstep
  obtain ⟨h1, hq⟩ := (h.ready round.readyGrammars).addRequestsToQueue hqueue
  have hchunked : s1.chunkedReq = s.chunkedReq := hq.chunkedReq
  have hresults : s1.resultQueue = s.resultQueue := hq.resultQueue
  have hlast1 : s1.lastBatch = [] := hq.lastBatch.trans hlast
  rw [← hchunked, ← hresults] at h1
  split at hstep
  · rename_i hpass
    have hwaiting : s1.waitingQueue ⊆ s.waitingQueue ++ s.grammarQueue := fun r hr =>
      (mem_append.mp (hq.waitingQueue hr)).elim (fun h => mem_append_left _ h) fun h =>
        mem_append_right _ (mem_filter.mp h).1
    have hsorted := round.calcPriority_perm s1.waitingQueue
    set s2 := { s1 with waitingQueue := round.calcPriority s1.waitingQueue }
    have h2 : s2.Placed [] s2.chunkedReq.toList (s2.resultQueue.flatMap Prod.snd) :=
      h1.sorted hsorted
    have htame2 : TamePass cfg round s2 := (htame.resolve_left (by simp [hpass])).mono
      (fun r hr => hwaiting (hsorted.subset hr)) (fun r hr => hq.runningBatch ▸ hr) hchunked
    obtain ⟨hpassed, hadmits⟩ :=
      (Passing.start round h2 hlast1).addWaiting htame2 (List.Subset.refl _) (fun h => absurd rfl h)
    split at hstep
    · rename_i hnone
      cases hstep
      refine ⟨?_, hpassed.lastBatch, hpassed.resultQueue.trans hresults⟩
      have := hpassed.none_chosen hnone hadmits
      rwa [← hpassed.resultQueue] at this
    · obtain ⟨s2, hcommit, heq⟩ := map_eq_some_iff.mp hstep
      cases heq
      have hlaunched := hpassed.commitPrefill hcommit
      exact ⟨hlaunched.placed, hresults ▸ hlaunched.resultQueue⟩
  · cases hstep
    exact ⟨h1, hlast1, hresults⟩

end Pass

/-! ### Rounds -/

/-- The requests a retraction takes go back to the queue, those it aborts are reported. -/
lemma Placed.retract (taken dropped : List Rid) (h : s.Placed [] chunked flight)
    (hfinished : ∀ r ∈ s.runningBatch, s.finished r = false) :
    let retracted := s.runningBatch.filter (· ∈ taken)
    let aborted := s.runningBatch.filter fun req => req ∉ taken ∧ req ∈ dropped
    Placed { s.releaseReqs (retracted ++ aborted) with reported := s.reported ++ aborted }
      (retracted ++ []) chunked flight := by
  intro retracted aborted r
  by_cases hr : r ∈ s.runningBatch
  · have hpos : 0 < s.runningBatch.count r := count_pos_iff.mpr hr
    have hbatch : s.lastBatch.count r + s.runningBatch.count r ≤ 1 := (h r).batch
    have hone : s.runningBatch.count r = 1 := by omega
    have hlive : (s.view [] chunked flight r).finished = 0 := by simp [view, hfinished r hr]
    by_cases htaken : r ∈ taken
    · simpa [view, Scheduler.releaseReqs, retracted, aborted, count_filter_eq,
        hr, htaken, hone] using (h r).release hpos hlive
    by_cases hdropped : r ∈ dropped
    · simpa [view, Scheduler.releaseReqs, retracted, aborted, count_filter_eq,
        hr, htaken, hdropped, hone] using
        (h r).releaseAborted hpos hlive
    · simpa [view, Scheduler.releaseReqs, retracted, aborted, count_filter_eq,
        hr, htaken, hdropped] using h r
  · simpa [view, Scheduler.releaseReqs, retracted, aborted, count_filter_eq,
      hr, count_eq_zero.mpr hr] using h r

lemma Placed.decode {results : List (Bool × List Rid)} (h : s.Placed limbo chunked flight) :
    Placed { s with resultQueue := results } limbo chunked (flight ++ s.runningBatch) := by
  intro r
  simpa [view] using (h r).decode

lemma Placed.updateRunningBatch
    (h : s.Placed [] s.chunkedReq.toList (s.resultQueue.flatMap Prod.snd))
    (hstep : s.updateRunningBatch cfg round = some s') : Launched s s' := by
  simp only [Scheduler.updateRunningBatch, bind_eq_bind, bind_eq_some_iff] at hstep
  obtain ⟨s1, hqueue, hstep⟩ := hstep
  have hretract := h.filterRunning.retract round.retracted round.aborted fun r hr => by
    simpa [Scheduler.filterRunning] using (mem_filter.mp hr).2
  obtain ⟨h1, hq⟩ := hretract.addRequestsToQueue hqueue
  have hchunked : s1.chunkedReq = s.chunkedReq := hq.chunkedReq
  have hresults : s1.resultQueue = s.resultQueue := hq.resultQueue
  split at hstep
  · cases hstep
    refine ⟨?_, [], by simp [hresults], by simp⟩
    rwa [hchunked, hresults]
  · cases hstep
    refine ⟨?_, [(false, s1.runningBatch)], congrArg (· ++ _) hresults, fun batch hb r hr => ?_⟩
    · rw [← hchunked, ← hresults] at h1
      rw [flatMap_append, flatMap_singleton]
      exact h1.decode
    · obtain rfl := mem_singleton.mp hb
      exact mem_append_right _ hr

/-- No request that waits can preempt without being admitted, or the chunked request is admitted. -/
def TameRound (cfg : Config) (round : Round) (s : Scheduler) : Prop :=
  round.pass = false ∨ cfg.enablePriorityPreemption = false ∨ s.chunkedReq ≠ none ∧
    round.chunk ≠ .postponed ∨
    ∀ req ∈ s.waitingQueue ++ s.grammarQueue,
    ((round.answers req).prefetchDone = true ∧ (round.answers req).result ≠ .refused) ∨
      ∀ runningReq ∈ s.runningBatch ++ s.lastBatch, outranks cfg req runningReq = false

lemma TameRound.tamePass (h : TameRound cfg round s) (hwaiting : s'.waitingQueue = s.waitingQueue)
    (hgrammar : s'.grammarQueue = s.grammarQueue) (hchunked : s'.chunkedReq = s.chunkedReq)
    (hrunning : s'.runningBatch ⊆ s.runningBatch ++ s.lastBatch) :
    round.pass = false ∨ TamePass cfg round
    { s' with waitingQueue := s'.waitingQueue ++ s'.grammarQueue } := by
  refine h.imp_right
    (Or.imp_right (Or.imp (And.imp_left fun hne => hchunked ▸ hne) fun hall req hreq => ?_))
  exact (hall req (by rwa [← hwaiting, ← hgrammar])).imp_right fun hno r hr => hno r (hrunning hr)

lemma Placed.nextRound (h : s.Placed [] s.chunkedReq.toList (s.resultQueue.flatMap Prod.snd))
    (htame : TameRound cfg round s) (hstep : s.nextRound cfg round = some s') : Launched s s' := by
  simp only [Scheduler.nextRound, bind_eq_bind, bind_eq_some_iff, Prod.exists] at hstep
  obtain ⟨s1, newBatch, hpass, hstep⟩ := hstep
  set s₀ := if round.prefillOnly then s.mergeLastBatch.filterRunning else s.mergeLastBatch with hs0
  have hmerged : s.mergeLastBatch.Placed [] s.chunkedReq.toList (s.resultQueue.flatMap Prod.snd) :=
    h.merge
  have hsub : s.mergeLastBatch.runningBatch ⊆ s.runningBatch ++ s.lastBatch :=
    append_subset.mpr ⟨subset_append_left _ _,
      List.Subset.trans filter_sublist.subset (subset_append_right _ _)⟩
  have hstart : s₀.Placed [] s₀.chunkedReq.toList (s₀.resultQueue.flatMap Prod.snd) ∧
    s₀.lastBatch = [] ∧
      s₀.resultQueue = s.resultQueue ∧
      (round.pass = false ∨
      TamePass cfg round { s₀ with waitingQueue := s₀.waitingQueue ++ s₀.grammarQueue }) := by
    rw [hs0]
    split
    · exact ⟨hmerged.filterRunning, rfl, rfl,
        htame.tamePass rfl rfl rfl (List.Subset.trans filter_sublist.subset hsub)⟩
    · exact ⟨hmerged, rfl, rfl, htame.tamePass rfl rfl rfl hsub⟩
  obtain ⟨hplaced, hlast, hresults, htame0⟩ := hstart
  have hspec := hplaced.getNewBatchPrefill hlast htame0 hpass
  split at hstep
  · cases hstep
    rw [if_pos ‹_›] at hspec
    exact ⟨hspec.placed, hresults ▸ hspec.resultQueue⟩
  rw [if_neg ‹_›] at hspec
  obtain ⟨hplaced1, hlast1, hresults1⟩ := hspec
  split at hstep
  · have hlaunched := hplaced1.updateRunningBatch hstep
    exact ⟨hlaunched.placed, (hresults1.trans hresults) ▸ hlaunched.resultQueue⟩
  · cases hstep
    exact ⟨hplaced1, [], by simp [hresults1, hresults], by simp⟩

/-! ### Results -/

section Results

variable {prefill : Bool} {finishes : Rid → Bool}

/-- What the result of a batch leaves alone. -/
structure ResultOnly (s s' : Scheduler) : Prop where
  chunkedReq : s'.chunkedReq = s.chunkedReq
  lastBatch : s'.lastBatch = s.lastBatch
  runningBatch : s'.runningBatch = s.runningBatch
  resultQueue : s'.resultQueue = s.resultQueue

lemma ResultOnly.processReq : ResultOnly s (s.processReq cfg prefill finishes req) := by
  unfold Scheduler.processReq
  split
  · exact ⟨rfl, rfl, rfl, rfl⟩
  split
  · exact ⟨rfl, rfl, rfl, rfl⟩
  split <;> exact ⟨rfl, rfl, rfl, rfl⟩

lemma ResultOnly.active (h : ResultOnly s s') : s'.active = s.active := by
  rw [Scheduler.active, h.chunkedReq, h.lastBatch, h.runningBatch, Scheduler.active]

lemma view_active_pos : 0 < (s.view limbo s.chunkedReq.toList flight req).active ↔
    req ∈ s.active := by
  rw [← count_pos_iff, active, count_append, count_append]
  rfl

lemma Placed.finish (h : s.Placed limbo chunked flight)
    (hactive : 0 < (s.view limbo chunked flight req).active) :
    (Scheduler.report
    { s with finished := Function.update s.finished req true } req).Placed
    limbo chunked flight := by
  intro r
  by_cases hr : req = r
  · subst hr
    simpa [view, Scheduler.report] using (h req).finish hactive
  · simpa [view, Scheduler.report, hr, Function.update_of_ne (Ne.symm hr)] using h r

/-- A request in flight that is neither finished nor retracted is active. -/
lemma Placed.processReq (prefill : Bool) (finishes : Rid → Bool)
    (h : s.Placed [] s.chunkedReq.toList flight) (hflight : req ∈ flight)
    (hsync : cfg.enableOverlap = false → req ∈ s.active) :
    (s.processReq cfg prefill finishes req).Placed [] s.chunkedReq.toList flight := by
  unfold Scheduler.processReq
  split
  · exact h
  rename_i hskip
  split
  · exact h
  split
  · refine h.finish ?_
    cases hoverlap : cfg.enableOverlap with
    | false => exact view_active_pos.mpr (hsync hoverlap)
    | true =>
      have hneither : s.finished req = false ∧ s.isRetracted req = false := by
        simpa [hoverlap] using hskip
      refine ((h req).tracked (count_pos_iff.mpr hflight)).resolve_right ?_
      simp [view, hneither]
  · exact h

/-- The batches in flight: without overlap, their requests are active. -/
def Synced (cfg : Config) (s : Scheduler) : Prop :=
  cfg.enableOverlap = false → ∀ batch ∈ s.resultQueue, ∀ req ∈ batch.2, req ∈ s.active

lemma Placed.processReqs (prefill : Bool) (finishes : Rid → Bool) (reqs : List Rid)
    (h : s.Placed [] s.chunkedReq.toList flight) (hflight : reqs ⊆ flight)
    (hsync : cfg.enableOverlap = false → reqs ⊆ s.active) :
    (reqs.foldl (Scheduler.processReq cfg prefill finishes) s).Placed
    [] s.chunkedReq.toList flight ∧
      ResultOnly s (reqs.foldl (Scheduler.processReq cfg prefill finishes) s) := by
  induction reqs generalizing s with
  | nil => exact ⟨h, rfl, rfl, rfl, rfl⟩
  | cons req reqs ih =>
    obtain ⟨hreq, hrest⟩ := cons_subset.mp hflight
    have hframe : ResultOnly s (s.processReq cfg prefill finishes req) := .processReq
    have h1 := h.processReq prefill finishes hreq fun hoff => (cons_subset.mp (hsync hoff)).1
    rw [← hframe.chunkedReq] at h1
    obtain ⟨h', hframe'⟩ := ih h1 hrest fun hoff => hframe.active ▸ (cons_subset.mp (hsync hoff)).2
    rw [hframe.chunkedReq] at h'
    exact ⟨h', hframe'.chunkedReq.trans hframe.chunkedReq, hframe'.lastBatch.trans hframe.lastBatch,
      hframe'.runningBatch.trans hframe.runningBatch, hframe'.resultQueue.trans hframe.resultQueue⟩

lemma Placed.drop {flight' : List Rid} (h : s.Placed limbo chunked flight)
    (hsub : flight' ⊆ flight) :
    s.Placed limbo chunked flight' := by
  intro r
  have hpos : 0 < flight'.count r → 0 < flight.count r := by
    rw [count_pos_iff, count_pos_iff]
    exact fun hmem => hsub hmem
  exact { h r with tracked := fun hflight => (h r).tracked (hpos hflight) }

/-- The invariant of every run. -/
structure Inv (cfg : Config) (s : Scheduler) : Prop where
  placed : s.Placed [] s.chunkedReq.toList (s.resultQueue.flatMap Prod.snd)
  synced : Synced cfg s

lemma Inv.processBatchResult (h : Inv cfg s) : Inv cfg (s.processBatchResult cfg finishes) := by
  unfold Scheduler.processBatchResult
  split
  · exact h
  rename_i prefill reqs rest hqueue
  have hflight : s.resultQueue.flatMap Prod.snd = reqs ++ rest.flatMap Prod.snd := by simp [hqueue]
  have hplaced : Placed { s with resultQueue := rest } [] s.chunkedReq.toList
    (reqs ++ rest.flatMap Prod.snd) := hflight ▸ h.placed
  obtain ⟨hplaced', hframe⟩ := hplaced.processReqs prefill finishes reqs (subset_append_left _ _)
    fun (hoff : cfg.enableOverlap = false) r hr =>
      h.synced hoff (prefill, reqs) (hqueue ▸ mem_cons_self) r hr
  refine ⟨?_, fun hoff batch hbatch r hr => ?_⟩
  · rw [hframe.chunkedReq, hframe.resultQueue]
    exact hplaced'.drop (subset_append_right _ _)
  · rw [hframe.active]
    rw [hframe.resultQueue] at hbatch
    exact h.synced hoff batch (hqueue ▸ mem_cons_of_mem _ hbatch) r hr

end Results

/-! ### Runs -/

lemma Inv.create (cfg : Config) : Inv cfg create where
  placed _ := by constructor <;> simp [view, Scheduler.create, View.queued, View.active]
  synced _ _ hbatch := by simp [Scheduler.create] at hbatch

section
variable (h : s.Placed [] chunked flight) (hnew : req ∉ s.accepted)
include h hnew

lemma Placed.arrive : Placed { s with accepted := s.accepted ++ [req] } [req] chunked flight := by
  intro r
  by_cases hr : req = r
  · subst hr
    simpa [view] using (h req).arrive (count_eq_zero.mpr hnew)
  · simpa [view, hr] using h r

lemma Placed.arriveGrammar :
    Placed { s with accepted := s.accepted ++ [req], grammarQueue := s.grammarQueue ++ [req] }
    [] chunked flight := by
  intro r
  by_cases hr : req = r
  · subst hr
    simpa [view] using (h req).arriveGrammar (count_eq_zero.mpr hnew)
  · simpa [view, hr] using h r

end

/-- What a round must be; every other event may come at any time. -/
def Tame (cfg : Config) (s : Scheduler) : Event → Prop
  | .round round => TameRound cfg round s
  | _ => True

lemma Inv.step {e : Event} (h : Inv cfg s) (henabled : Enabled cfg s e)
    (htame : Tame cfg s e) (hstep : s.step cfg e = some s') :
    Inv cfg s' := by
  cases e with
  | arrive req grammar =>
    simp only [Scheduler.step] at hstep
    split at hstep
    · cases hstep
      exact ⟨h.placed.arriveGrammar henabled, h.synced⟩
    · obtain ⟨hplaced, hq⟩ := (h.placed.arrive henabled).addRequestToQueue hstep
      have hactive : s'.active = s.active := by
        rw [active, hq.chunkedReq, hq.lastBatch, hq.runningBatch]; rfl
      refine ⟨?_, fun hoff batch hbatch r hr => ?_⟩
      · rwa [hq.chunkedReq, hq.resultQueue]
      · rw [hq.resultQueue] at hbatch
        exact hactive ▸ h.synced hoff batch hbatch r hr
  | abortWaiting req =>
    cases hstep
    exact ⟨h.placed.abort henabled, h.synced⟩
  | round round =>
    have hlaunched := h.placed.nextRound htame hstep
    refine ⟨hlaunched.placed, fun hoff batch hbatch => ?_⟩
    -- Without overlap there was nothing in flight before.
    obtain ⟨new, heq, hnew⟩ := hlaunched.resultQueue
    have hnil : s.resultQueue = [] := by simpa [Enabled, hoff] using henabled
    rw [heq, hnil, nil_append] at hbatch
    exact hnew batch hbatch
  | result finishes =>
    cases hstep
    exact h.processBatchResult

/-- A step of the scheduler with a tame event. -/
def TameStep (cfg : Config) (s s' : Scheduler) : Prop :=
  ∃ e, Enabled cfg s e ∧ Tame cfg s e ∧ s.step cfg e = some s'

/-- An accepted request that is not reported is queued once and not active, or active and not
queued; a released request is back in the waiting queue or reported. -/
structure NoneLost (s : Scheduler) : Prop where
  accepted : ∀ req ∈ s.accepted, req ∉ s.reported →
    (s.waitingQueue ++ s.grammarQueue).count req = 1 ∧ req ∉ s.active ∨
    req ∉ s.waitingQueue ++ s.grammarQueue ∧ req ∈ s.active
  released : ∀ req, s.isRetracted req = true → req ∈ s.waitingQueue ∨ req ∈ s.reported

lemma Inv.noneLost (h : Inv cfg s) : NoneLost s where
  accepted req haccepted hreported := by
    have hr := h.placed req
    set v := s.view [] s.chunkedReq.toList (s.resultQueue.flatMap Prod.snd) req with hv
    have hqueued : (s.waitingQueue ++ s.grammarQueue).count req = v.queued := by
      simp [hv, view, View.queued]
    have hactive : 0 < v.active ↔ req ∈ s.active := view_active_pos
    have hnone : v.reported = 0 := count_eq_zero.mpr hreported
    have honce := hr.once
    obtain hq | ha | hreport := hr.complete.mp (count_pos_iff.mpr haccepted)
    · refine .inl ⟨by omega, fun hmem => ?_⟩
      exact absurd (hr.apart hq).1 (hactive.mpr hmem).ne'
    · refine .inr ⟨fun hmem => ?_, hactive.mp ha⟩
      have hpos : 0 < v.queued := hqueued ▸ count_pos_iff.mpr hmem
      exact absurd (hr.apart hpos).1 ha.ne'
    · omega
  released req hreq := by
    have hr := (h.placed req).released (by simp [view, hreq])
    simpa [view] using hr

theorem requests_never_lost {cfg : Config} {history : List Scheduler}
    (hrun : Runs.Run (TameStep cfg) create history) :
    ∀ s ∈ history, NoneLost s := by
  have hinv : ∀ s ∈ history, Inv cfg s := by
    refine hrun.invariant (Inv.create cfg) ?_
    rintro s s' h ⟨e, henabled, htame, hstep⟩
    exact h.step henabled htame hstep
  exact fun s hs => (hinv s hs).noneLost

lemma enabledStep_eq_some {e : Event} :
    s.enabledStep cfg e = some s' ↔ Enabled cfg s e ∧ s.step cfg e = some s' := by
  rw [enabledStep, ite_eq_iff]
  simp

/-- A request with a higher number comes first and may preempt. -/
def preempting : Config where
  priority req := some req
  enablePriorityScheduling := true
  scheduleLowPriorityValuesFirst := false
  abortOnPriorityWhenDisabled := false
  maxQueuedRequests := none
  enablePriorityPreemption := true
  preemptionThreshold := 0
  enableOverlap := false

/-- A pass that gives every request the same answer; a full batch needs the memory of one running
request. -/
def passWith (batchIsFull : Bool) (result : AddReqResult) : Event :=
  .round { answers := fun _ => { batchIsFull, budget := ⟨1, fun _ => 1⟩, result } }

/-- A running request is preempted by one that is admitted in two chunks, and is admitted again with
it. -/
def preemptedEvents : List Event :=
  [.arrive 0 false, passWith false .added, .result fun _ => false, .arrive 1 false,
    passWith true .addedChunked, .result fun _ => true,
    passWith false .added, .result fun req => req = 1]

theorem requests_never_lost_preempted : ∃ history, Runs.Run (TameStep preempting) create history ∧
    (∃ s ∈ history, s.waitingQueue = [0] ∧ s.active = [1, 1]) ∧
    (∃ s ∈ history, s.reported = [1] ∧ s.active = [1, 0]) ∧
      ∀ s ∈ history, NoneLost s := by
  have hplay : ((Runs.play (enabledStep preempting) preemptedEvents create []).map fun history =>
      history.any (fun s => s.waitingQueue = [0] ∧ s.active = [1, 1]) && history.any fun s =>
        s.reported = [1] ∧ s.active = [1, 0]) =
        some true := by decide +kernel
  obtain ⟨history, hhistory, hstates⟩ := map_eq_some_iff.mp hplay
  have hrun : Runs.Run (TameStep preempting) create history := by
    refine Runs.run_of_play (fun e he s s' hstep => ?_) .nil hhistory
    obtain ⟨henabled, hstep⟩ := enabledStep_eq_some.mp hstep
    refine ⟨e, henabled, ?_, hstep⟩
    simp only [preemptedEvents, mem_cons, not_mem_nil, or_false] at he
    obtain rfl | rfl | rfl | rfl | rfl | rfl | rfl | rfl := he
    all_goals first | exact trivial | exact .inr (.inr (.inr fun _ _ => .inl ⟨rfl, nofun⟩))
  simp only [Bool.and_eq_true, List.any_eq_true, decide_eq_true_eq] at hstates
  exact ⟨history, hrun, hstates.1, hstates.2, requests_never_lost hrun⟩

/-- **What runs may run.** No request is in the batches twice, none that is active has been
released, and only accepted requests run or are answered. -/
theorem batches_sound {history : List Scheduler} (hrun : Runs.Run (TameStep cfg) create history)
    (hs : s ∈ history) :
    (s.lastBatch ++ s.runningBatch).Nodup ∧ (∀ req ∈ s.active, s.isRetracted req = false) ∧
      ∀ req ∈ s.active ++ s.reported, req ∈ s.accepted := by
  have h : Inv cfg s :=
    hrun.invariant (Inv.create cfg)
    (fun _ _ h ⟨_, henabled, htame, hstep⟩ => h.step henabled htame hstep) s hs
  refine ⟨nodup_iff_count_le_one.mpr fun req => ?_, fun req hreq => ?_, fun req hreq => ?_⟩
  · rw [count_append]
    exact (h.placed req).batch
  · simpa [view] using (h.placed req).fresh (view_active_pos.mpr hreq)
  · refine count_pos_iff.mp ((h.placed req).complete.mpr (.inr ?_))
    exact (mem_append.mp hreq).imp view_active_pos.mpr count_pos_iff.mpr

theorem batches_sound_two :
    ∃ history s, Runs.Run (TameStep preempting) create history ∧ s ∈ history ∧
    s.lastBatch = [0, 1] ∧ (s.lastBatch ++ s.runningBatch).Nodup := by
  have hfirst : Runs.Run (TameStep preempting) create _ :=
    .cons .nil ⟨.arrive 0 false, by decide, trivial, rfl⟩
  have hsecond := hfirst.cons ⟨.arrive 1 false, by decide, trivial, rfl⟩
  have hrun :=
    hsecond.cons ⟨passWith false .added,
    by decide, .inr (.inr (.inr fun _ _ => .inl ⟨rfl, nofun⟩)), rfl⟩
  exact ⟨_, _, hrun, mem_cons_self, rfl, (batches_sound hrun mem_cons_self).1⟩

/-- A request preempts the running one and is then refused: the running one is in no queue and not
active any more. -/
theorem requests_lost :
    ∃ history, Runs.Run
    (fun s s' => ∃ e, Enabled preempting s e ∧ s.step preempting e = some s') create history ∧
    ∃ s ∈ history, 0 ∈ s.accepted ∧ 0 ∉ s.reported ∧ s.isRetracted 0 = true ∧
    0 ∉ s.waitingQueue ++ s.grammarQueue ∧ 0 ∉ s.active := by
  exact Runs.exists_run_of_play (enabledStep preempting)
    [.arrive 0 false, passWith false .added, .result fun _ => false, .arrive 1 false,
      passWith true .refused]
    (fun e _ s s' hstep => ⟨e, enabledStep_eq_some.mp hstep⟩) (by decide +kernel)

end Scheduler

end Sglang.Managers.Rounds
