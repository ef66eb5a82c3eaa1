import Sglang.Managers.DecodeMemory

/-! Overlapped speculation.

A step is prepared before the result of the step before it is known: the committed length of a
request lags behind its length on the device, and every prepared step claims one slot that its
result corrects. What has been claimed and not processed makes up the difference (`Inv.committed`).
-/
namespace Sglang.Managers

open List
open MemCache Prefix Pages

lemma of_getAllocLenPerDecode {spec : SpecArgs} {pageSize allocLen : Nat}
    (h : getAllocLenPerDecode spec pageSize = some allocLen) :
    spec.numDraftTokens ≤ allocLen ∧ 0 < allocLen := by
  obtain ⟨-, heq⟩ := Option.ite_none_right_eq_some.mp h
  cases heq
  have hpos (n : Nat) : 0 < orOne n := by
    unfold orOne
    split <;> omega
  have := Nat.mul_pos (hpos spec.numSteps) (hpos spec.topk)
  omega

/-- `_resolve_spec_overlap_token_ids`. -/
def Req.resolveSpecOverlap (acceptLen : Nat) (r : Req) : Req :=
  { r with kvCommittedLen := r.kvCommittedLen + acceptLen - 1 }

/-- The first position that `release_kv_cache` gives back as over-allocated. -/
def Req.overallocatedStart (args : ServerArgs) (pageSize : Nat) (r : Req) : Nat :=
  if pageSize > 1 then ceil pageSize (r.cacheCommitLen args) else r.cacheCommitLen args

/-- It gives back the row from there to its end, after what `cache_finished_req` does. -/
lemma releaseKvCache_frees {now : Int} {args : ServerArgs} {isInsert : Bool}
    {c c' : RadixCache} {a a' : KvAllocator} {r : Req}
    (h : releaseKvCache now args isInsert c a r = some (c', a')) :
    ∃ row a1, r.row = some row ∧ cacheFinishedReq now args isInsert c a r row = some (c', a1) ∧
      a' = if r.overallocatedStart args c'.pageSize < r.kvAllocatedLen
        then a1.free ((row.take r.kvAllocatedLen).drop (r.overallocatedStart args c'.pageSize))
        else a1 := by
  obtain ⟨row, hrow, h⟩ := Option.bind_eq_some_iff.mp h
  obtain ⟨⟨c1, a1⟩, hcache, h⟩ := Option.bind_eq_some_iff.mp h
  obtain ⟨-, -, h⟩ := Option.bind_eq_some_iff.mp h
  cases h
  exact ⟨row, a1, hrow, hcache, rfl⟩

/-- A request that is decoded. -/
structure OverlapReq where
  req : Req
  /-- `seq_lens` after the steps that have been prepared. -/
  seqLen : Nat
  /-- The accept lengths of the prepared steps whose results are not processed. -/
  pending : List Nat

namespace OverlapReq

/-- A result is processed after the next step has been prepared and before the one after that is. -/
inductive Step (spec : SpecArgs) (allocLen : Nat) (s : OverlapReq) : OverlapReq → Prop
  | prepare {acceptLen : Nat} (out : List Slot) (hone : s.pending.length ≤ 1) (hpos : 1 ≤ acceptLen)
      (hle : acceptLen ≤ spec.numDraftTokens) :
      Step spec allocLen s ⟨ScheduleBatch.overallocated allocLen s.req out,
        s.seqLen + acceptLen, s.pending ++ [acceptLen]⟩
  | resolve {acceptLen next : Nat} (hpending : s.pending = [acceptLen, next]) :
      Step spec allocLen s ⟨s.req.resolveSpecOverlap acceptLen, s.seqLen, [next]⟩

/-- After `prepare_for_extend`. -/
def Extended (s : OverlapReq) : Prop :=
  s.req.kvCommittedLen = s.seqLen ∧ s.req.kvAllocatedLen = s.seqLen ∧ s.pending = []

structure Inv (spec : SpecArgs) (allocLen : Nat) (s : OverlapReq) : Prop where
  accepts : ∀ n ∈ s.pending, 1 ≤ n ∧ n ≤ spec.numDraftTokens
  committed : s.req.kvCommittedLen + s.pending.sum = s.seqLen + s.pending.length
  within : s.req.kvCommittedLen ≤ s.req.kvAllocatedLen
  ahead : s.req.kvAllocatedLen ≤ s.req.kvCommittedLen + 2 * allocLen
  written : ∀ n ∈ s.pending.getLast?, s.seqLen + allocLen ≤ s.req.kvAllocatedLen + n

variable {spec : SpecArgs} {allocLen pageSize : Nat} {s s' : OverlapReq}

lemma Step.inv (hdraft : spec.numDraftTokens ≤ allocLen) (hpos : 0 < allocLen)
    (h : Inv spec allocLen s) (hstep : Step spec allocLen s s') : Inv spec allocLen s' := by
  have hcommitted := h.committed
  have hahead := h.ahead
  cases hstep with
  | @prepare acceptLen out hone hacc hle =>
    -- what is claimed is short of the device by one accept length at most
    have hshort : s.seqLen ≤ s.req.kvCommittedLen + allocLen := by
      match hp : s.pending with
      | [] => simp_all
      | [n] =>
        have := (h.accepts n (by simp [hp])).2
        simp only [hp, sum_singleton, length_singleton] at hcommitted
        omega
      | _ :: _ :: _ => simp [hp] at hone
    refine ⟨fun n hn => ?_, ?_, ?_, ?_, fun n hn => ?_⟩
    · rcases mem_append.mp hn with hn | hn
      · exact h.accepts n hn
      · exact mem_singleton.mp hn ▸ ⟨hacc, hle⟩
    · simp only [ScheduleBatch.overallocated, sum_append, sum_singleton,
        length_append, length_singleton]
      omega
    · simp only [ScheduleBatch.overallocated]
      omega
    · simp only [ScheduleBatch.overallocated]
      omega
    · obtain rfl : acceptLen = n := by simpa using hn
      simp only [ScheduleBatch.overallocated]
      omega
  | @resolve acceptLen next hpending =>
    have hone := (h.accepts acceptLen (by simp [hpending])).1
    have hwritten := h.written next (by simp [hpending])
    simp only [hpending, sum_cons, sum_nil, length_cons, length_nil] at hcommitted
    refine ⟨fun n hn => h.accepts n (hpending ▸ mem_cons_of_mem _ hn), ?_, ?_, ?_, fun n hn => ?_⟩
    · simp only [Req.resolveSpecOverlap, sum_singleton, length_singleton]
      omega
    · simp only [Req.resolveSpecOverlap]
      omega
    · simp only [Req.resolveSpecOverlap]
      omega
    · obtain rfl : next = n := by simpa using hn
      exact hwritten

/-- **Overlapped speculation never writes outside its allocation.** A step extends the allocation,
its positions are allocated, with its result the committed length is that of the device and one slot
for the next step, and a release gives back every allocated position once: with the pages of the
committed part or as over-allocated. -/
theorem run_within_allocation {start : OverlapReq} (hpage : 0 < pageSize)
    (hlen : getAllocLenPerDecode spec pageSize = some allocLen) (hstart : start.Extended)
    (hrun : Relation.ReflTransGen (Step spec allocLen) start s) (args : ServerArgs) :
    0 ≤ (s.req.kvCommittedLen : Int) + 2 * allocLen - s.req.kvAllocatedLen ∧
    (∀ acceptLen ∈ s.pending.getLast?, ∀ pos : Nat, (s.seqLen : Int) - acceptLen ≤ pos →
      pos < (s.seqLen : Int) - acceptLen + allocLen → pos < s.req.kvAllocatedLen) ∧
    (∀ acceptLen next, s.pending = [acceptLen, next] →
      ((s.req.resolveSpecOverlap acceptLen).kvCommittedLen : Int) = s.seqLen - next + 1) ∧
    s.req.cacheCommitLen args ≤ s.req.kvAllocatedLen ∧
    ∀ pos < s.req.kvAllocatedLen,
      Xor (∃ q < s.req.cacheCommitLen args, q / pageSize = pos / pageSize)
      (s.req.overallocatedStart args pageSize ≤ pos) := by
  obtain ⟨hdraft, hpos⟩ := of_getAllocLenPerDecode hlen
  have h : Inv spec allocLen s := by
    induction hrun with
    | refl =>
      obtain ⟨hcommitted, hallocated, hnone⟩ := hstart
      constructor <;> simp [hcommitted, hallocated, hnone]
    | tail _ hstep ih => exact hstep.inv hdraft hpos ih
  have hahead := h.ahead
  refine ⟨by omega, fun n hn pos _ hlt => ?_, fun acceptLen next hpending => ?_, ?_, fun pos _ => ?_⟩
  · have := h.written n hn
    omega
  · have hcommitted := ((Step.resolve hpending).inv hdraft hpos h).committed
    simp only [sum_singleton, length_singleton] at hcommitted
    omega
  · exact (s.req.cacheCommitLen_le args).trans h.within
  · have hstart : s.req.overallocatedStart args pageSize = ceil pageSize
        (s.req.cacheCommitLen args) := by
      unfold Req.overallocatedStart
      split
      · rfl
      · rw [show pageSize = 1 by omega, ceil_one]
    rw [hstart, exists_same_page hpage, ← not_lt]
    exact xor_not_right.mpr Iff.rfl

/-- Two steps are prepared, the first accepted both tokens: its result takes the committed length to
six. -/
theorem run_within_allocation_two_steps : ∃ start s, Extended start ∧
    Relation.ReflTransGen (Step ⟨1, 1, 2, Nat.one_pos⟩ 2) start s ∧ s.pending = [2, 1] ∧
    ((s.req.resolveSpecOverlap 2).kvCommittedLen : Int) = 6 := by
  let start : OverlapReq :=
    ⟨{originInputIds := [7, 8, 9], kvCommittedLen := 3, kvAllocatedLen := 3}, 3, []⟩
  have hrun :=
    (Relation.ReflTransGen.single
    (@Step.prepare ⟨1, 1, 2, Nat.one_pos⟩ 2 start 2 [3, 4, 5, 6] (by decide)
    (by decide) (by decide))).tail (@Step.prepare _ _ _ 1 [7] (by decide) (by decide) (by decide))
  have hall := run_within_allocation Nat.one_pos rfl ⟨rfl, rfl, rfl⟩ hrun {}
  exact ⟨start, _, ⟨rfl, rfl, rfl⟩, hrun, rfl, hall.2.2.1 2 1 rfl⟩

end OverlapReq

end Sglang.Managers
