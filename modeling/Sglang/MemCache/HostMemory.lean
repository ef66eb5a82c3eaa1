import Mathlib.Data.List.Count
import Mathlib.Data.List.Perm.Basic
import Sglang.Lib.Runs
import Sglang.MemCache.StoragePrefetch

/-! Host memory is conserved.

What an operation holds is the part that its threads have not released yet and, while the scheduler
has a record of it, the pages read so far. Every step moves slots between the pool, the tree, the
operations and the release queue, and a slot occurs once in all of them together. Two things break
this. A reset refills the pool while slots are still queued for release or held by a prefetch. And a
revocation names a request, not an operation: a late one drops the record of the next prefetch of
the same request, whose pages then belong to nobody. -/
namespace Sglang.MemCache.StoragePrefetch

open List Option Operation HostCache

lemma flatten_splitPages {pageSize : Nat} (hpos : 0 < pageSize) (fuel : Nat)
    (slots : List Slot) (hfuel : slots.length ≤ fuel) :
    (splitPages pageSize fuel slots).flatten = slots := by
  induction fuel generalizing slots with
  | zero => simpa [splitPages, eq_comm] using hfuel
  | succ fuel ih =>
    rw [splitPages]
    split
    · simp_all
    · rw [flatten_cons, ih _ (by rw [length_drop]; omega), take_append_drop]

@[simp] lemma flatten_pagesOf (cfg : Config) (slots : List Slot) :
    (pagesOf cfg slots).flatten = slots :=
  flatten_splitPages cfg.pageSize_pos _ _ (le_refl _)

/-! ### One operation -/

namespace Operation

section
variable (op : Operation)

/-- What the threads have still to read or to release. -/
def held : List Slot :=
  match op.stage with
  | .queued => op.hostIndices
  | .revoking _ pages => pages.flatten
  | .trimming hitCount pages => op.hostIndices.take hitCount ++ pages.flatten
  | .buffered => op.hostIndices
  | .transferring _ => op.hostIndices.drop op.completedTokens
  | .releasing pages => pages.flatten
  | .done => []

/-- The pages read so far belong to the scheduler's record. -/
def recorded : List Slot :=
  match op.ongoing with
  | true => op.indices.take op.completedTokens
  | false => []

def owned : List Slot := op.recorded ++ op.held

/-- The prefetch thread may still revoke the operation. -/
def mayRevoke : Bool :=
  match op.stage with
  | .queued | .revoking false _ => true
  | _ => false

/-- The revocation has been sent, and nothing was read. -/
def Revoked : Prop :=
  op.completedTokens = 0 ∧ ((∃ pages, op.stage = .revoking true pages) ∨ op.stage = .done)

end

/-- What the stage says about the counters. -/
def Counted (cfg : Config) (op : Operation) : Prop :=
  match op.stage with
  | .queued | .revoking _ _ => op.completedTokens = 0
  | .trimming hitCount _ =>
    op.completedTokens = 0 ∧ op.hashPages * cfg.pageSize ≤ hitCount ∧
      hitCount ≤ op.hostIndices.length
  | .buffered => op.completedTokens = 0 ∧ op.hashPages * cfg.pageSize ≤ op.hostIndices.length
  | .transferring remaining => op.completedTokens + remaining * cfg.pageSize ≤ op.hostIndices.length
  | .releasing _ | .done => True

structure Valid (cfg : Config) (op : Operation) : Prop where
  hostIndices : op.hostIndices = op.indices.take op.hostIndices.length
  counted : op.Counted cfg
  /-- Without a record, nothing more is read. -/
  quiet : op.ongoing = false → op.terminated = true ∨ (∃ pages, op.stage = .revoking true pages) ∨
    op.stage = .done

/-- What the rest of the system relies on when an operation moves on. -/
structure Advances (op op' : Operation) : Prop where
  requestId : op'.requestId = op.requestId
  ongoing : op'.ongoing = true → op.ongoing = true
  mayRevoke : op'.mayRevoke = true → op.mayRevoke = true
  revoked : op.Revoked → op'.Revoked

variable {cfg : Config} {op op' : Operation} {w : Work} {pages : List (List Slot)}
  {revoked : List Rid}

lemma Advances.of_stage (hid : op'.requestId = op.requestId) (hongoing : op'.ongoing = op.ongoing)
    (hmay : op'.mayRevoke = false) (hunsent : ¬ op.Revoked) : op.Advances op' :=
  ⟨hid, fun h => hongoing ▸ h, fun h => by simp [hmay] at h, fun h => absurd h hunsent⟩

lemma take_append_drop_hostIndices (h : op.hostIndices = op.indices.take op.hostIndices.length)
    {n : Nat} (hn : n ≤ op.hostIndices.length) :
    op.indices.take n ++ op.hostIndices.drop n = op.hostIndices := by
  have htake : op.indices.take n = op.hostIndices.take n := by
    conv_rhs => rw [h, take_take, min_eq_left hn]
  rw [htake, take_append_drop]

/-- What a step of a thread is allowed to do. -/
structure Works (cfg : Config) (op op' : Operation) (pages : List (List Slot))
    (revoked : List Rid) : Prop where
  valid : op'.Valid cfg
  advances : op.Advances op'
  conserved : ∀ slot, op'.owned.count slot + pages.flatten.count slot = op.owned.count slot
  revoked : revoked = [] ∨ revoked = [op.requestId] ∧ op.mayRevoke = true ∧ op'.Revoked

section
variable (h : op.Valid cfg)
include h

/-- The storage has answered. -/
lemma Valid.answer (hstage : op.stage = .queued) {hitCount : Nat}
    (hhit : hitCount ≤ op.hostIndices.length) :
    op.Works cfg (op.answer cfg hitCount) [] [] := by
  have hcompleted : op.completedTokens = 0 := by simpa [Counted, hstage] using h.counted
  have hquiet : op.ongoing = false → op.terminated = true :=
    fun hoff => by simpa [hstage] using h.quiet hoff
  unfold Operation.answer
  split
  · refine ⟨⟨h.hostIndices, by simpa [Counted] using hcompleted, fun hoff => .inl (hquiet hoff)⟩,
      ⟨rfl, id, fun _ => by simp [mayRevoke, hstage], fun hr => ?_⟩, fun slot => ?_, .inl rfl⟩
    · simp [Revoked, hstage] at hr
    · simp [owned, recorded, held, hstage]
  · refine ⟨⟨h.hostIndices, ?_, fun hoff => .inl (hquiet hoff)⟩,
      .of_stage rfl rfl rfl (by simp [Revoked, hstage]), fun slot => ?_, .inl rfl⟩
    · exact ⟨hcompleted, Nat.div_mul_le_self _ _, hhit⟩
    · simp [owned, recorded, held, hstage]

lemma Valid.sendRevoke (hstage : op.stage = .revoking false pages) :
    op.Works cfg { op with stage := .revoking true pages } [] [op.requestId] := by
  have hcompleted : op.completedTokens = 0 := by simpa [Counted, hstage] using h.counted
  refine ⟨⟨h.hostIndices, by simpa [Counted] using hcompleted, fun _ => .inr (.inl ⟨pages, rfl⟩)⟩,
    .of_stage rfl rfl rfl (by simp [Revoked, hstage]), fun slot => ?_, .inr ⟨rfl, ?_, ?_⟩⟩
  · simp [owned, recorded, held, hstage]
  · simp [mayRevoke, hstage]
  · exact ⟨hcompleted, .inl ⟨pages, rfl⟩⟩

/-- A page on its way to the release queue. -/
lemma Valid.putPage {page : List Slot} {stage : Stage}
    (hnext : op.stage.nextPage = some (page, stage)) :
    op.Works cfg { op with stage } [page] [] := by
  unfold Stage.nextPage at hnext
  split at hnext
  · rename_i pages hstage
    cases hnext
    have hcompleted : op.completedTokens = 0 := by simpa [Counted, hstage] using h.counted
    refine ⟨⟨h.hostIndices, by simpa [Counted] using hcompleted, fun _ => .inr (.inl ⟨pages, rfl⟩)⟩,
      ⟨rfl, id, fun hm => by simp [mayRevoke] at hm, fun _ => ⟨hcompleted, .inl ⟨pages, rfl⟩⟩⟩,
      fun slot => ?_, .inl rfl⟩
    simp only [owned, recorded, held, hstage, flatten_cons, flatten_nil, append_nil, count_append]
    omega
  · rename_i hitCount pages hstage
    cases hnext
    refine ⟨⟨h.hostIndices, by simpa [Counted, hstage] using h.counted, fun hoff => ?_⟩,
      .of_stage rfl rfl rfl (by simp [Revoked, hstage]), fun slot => ?_, .inl rfl⟩
    · simpa [hstage] using h.quiet hoff
    · simp only [owned, recorded, held, hstage, flatten_cons, flatten_nil, append_nil, count_append]
      omega
  · rename_i pages hstage
    cases hnext
    refine ⟨⟨h.hostIndices, trivial, fun hoff => ?_⟩,
      .of_stage rfl rfl rfl (by simp [Revoked, hstage]), fun slot => ?_, .inl rfl⟩
    · simpa [hstage] using h.quiet hoff
    · simp only [owned, recorded, held, hstage, flatten_cons, flatten_nil, append_nil, count_append]
      omega
  · cases hnext

/-- The operation goes on with the slots that are stored. -/
lemma Valid.forward {hitCount : Nat} (hstage : op.stage = .trimming hitCount []) :
    op.Works cfg (op.forward hitCount) [] [] := by
  obtain ⟨hcompleted, hpages, hhit⟩ :
    op.completedTokens = 0 ∧ op.hashPages * cfg.pageSize ≤ hitCount ∧
      hitCount ≤ op.hostIndices.length := by simpa [Counted, hstage] using h.counted
  refine ⟨⟨?_, ⟨hcompleted, ?_⟩, fun hoff => ?_⟩, .of_stage rfl rfl rfl (by simp [Revoked, hstage]),
    fun slot => ?_, .inl rfl⟩
  · simp only [Operation.forward, length_take, min_eq_left hhit]
    conv_lhs => rw [h.hostIndices, take_take, min_eq_left hhit]
  · simpa [Operation.forward, hhit] using hpages
  · simpa [hstage, Operation.forward] using h.quiet hoff
  · simp [owned, recorded, held, hstage, Operation.forward]

lemma Valid.get (hstage : op.stage = .buffered) :
    op.Works cfg { op with stage := .transferring op.hashPages } [] [] := by
  obtain ⟨hcompleted, hpages⟩ :
      op.completedTokens = 0 ∧ op.hashPages * cfg.pageSize ≤ op.hostIndices.length := by
    simpa [Counted, hstage] using h.counted
  refine ⟨⟨h.hostIndices, by simpa [Counted, hcompleted] using hpages, fun hoff => ?_⟩,
    .of_stage rfl rfl rfl (by simp [Revoked, hstage]), fun slot => ?_, .inl rfl⟩
  · simpa [hstage] using h.quiet hoff
  · simp [owned, recorded, held, hstage, hcompleted]

lemma Valid.stop {remaining : Nat} (hstage : op.stage = .transferring remaining) :
    op.Works cfg (op.stop cfg) [] [] := by
  refine ⟨⟨h.hostIndices, trivial, fun hoff => ?_⟩,
    .of_stage rfl rfl rfl (by simp [Revoked, hstage]), fun slot => ?_, .inl rfl⟩
  · simpa [hstage, Operation.stop] using h.quiet hoff
  · simp [owned, recorded, held, hstage, Operation.stop]

/-- The I/O thread reports what it has read. -/
lemma Valid.increment {remaining n : Nat} (hstage : op.stage = .transferring remaining)
    (hn : n ≤ remaining) :
    op.Works cfg (op.increment cfg remaining n) [] [] := by
  unfold Operation.increment
  split
  · exact h.stop hstage
  rename_i hlive
  have hongoing : op.ongoing = true := by
    by_contra hoff
    simpa [hstage, hlive] using h.quiet (by simpa using hoff)
  have hcounted : op.completedTokens + remaining * cfg.pageSize ≤ op.hostIndices.length := by
    simpa [Counted, hstage] using h.counted
  have hsplit : n * cfg.pageSize + (remaining - n) * cfg.pageSize = remaining * cfg.pageSize := by
    rw [← Nat.add_mul, Nat.add_sub_cancel' hn]
  refine ⟨⟨h.hostIndices, ?_, fun hoff => by simp [hongoing] at hoff⟩,
    .of_stage rfl rfl rfl (by simp [Revoked, hstage]), fun slot => ?_, .inl rfl⟩
  · simp only [Counted]
    omega
  · -- Both are the whole memory of the operation.
    have hbefore := take_append_drop_hostIndices h.hostIndices (n := op.completedTokens) (by omega)
    have hafter :=
      take_append_drop_hostIndices h.hostIndices (n := op.completedTokens + n * cfg.pageSize)
      (by omega)
    simp [owned, recorded, held, hstage, hongoing, hbefore, hafter]

lemma Valid.terminate : { op with terminated := true }.Valid cfg :=
  ⟨h.hostIndices, h.counted, fun _ => .inl rfl⟩

lemma Valid.finish (hstage : op.stage = .revoking true [] ∨ op.stage = .releasing []) :
    op.Works cfg { op with stage := .done } [] [] := by
  refine ⟨⟨h.hostIndices, trivial, fun _ => .inr (.inr rfl)⟩,
    ⟨rfl, id, fun hm => by simp [mayRevoke] at hm, fun hr => ⟨hr.1, .inr rfl⟩⟩,
    fun slot => ?_, .inl rfl⟩
  obtain hstage | hstage := hstage <;> simp [owned, recorded, held, hstage]

/-- Whatever a thread does for an operation, no slot is lost. -/
lemma Valid.work (hwork : op.work cfg w = some (op', pages, revoked)) :
    op.Works cfg op' pages revoked := by
  cases w with
  | answer hitCount =>
    simp only [work] at hwork
    split at hwork
    · rename_i hstage
      cases hwork
      exact h.answer hstage.1 hstage.2
    · cases hwork
  | sendRevoke =>
    simp only [work] at hwork
    split at hwork
    · rename_i hstage
      cases hwork
      exact h.sendRevoke hstage
    · cases hwork
  | putPage =>
    obtain ⟨⟨page, stage⟩, hnext, heq⟩ := map_eq_some_iff.mp hwork
    cases heq
    exact h.putPage hnext
  | forward =>
    simp only [work] at hwork
    split at hwork
    · rename_i hstage
      cases hwork
      exact h.forward hstage
    · cases hwork
  | get =>
    simp only [work] at hwork
    split at hwork
    · rename_i hstage
      cases hwork
      exact h.get hstage
    · cases hwork
  | increment n =>
    simp only [work] at hwork
    split at hwork
    · rename_i hstage
      split at hwork
      · cases hwork
        exact h.increment hstage ‹_›
      · cases hwork
    · cases hwork
  | fail =>
    simp only [work] at hwork
    split at hwork
    · rename_i hstage
      cases hwork
      have hstop := h.terminate.stop hstage
      exact ⟨hstop.valid, ⟨rfl, id, hstop.advances.mayRevoke, hstop.advances.revoked⟩,
        hstop.conserved, .inl rfl⟩
    · cases hwork
  | finish =>
    simp only [work] at hwork
    split at hwork
    · rename_i hstage
      cases hwork
      exact h.stop hstage
    · rename_i hstage
      cases hwork
      exact h.finish (.inl hstage)
    · rename_i hstage
      cases hwork
      exact h.finish (.inr hstage)
    · cases hwork

end

lemma Advances.settled (op : Operation) : op.Advances op.settled := ⟨rfl, nofun, id, id⟩

lemma Valid.settled (h : op.Valid cfg) : op.settled.Valid cfg :=
  ⟨h.hostIndices, h.counted, fun _ => .inl rfl⟩

/-- The scheduler takes the completed slots over, the threads release the rest. -/
lemma count_owned_settled (hongoing : op.ongoing = true) (slot : Slot) :
    op.settled.owned.count slot + (op.indices.take op.completedTokens).count slot =
    op.owned.count slot := by
  simp only [owned, recorded, settled, hongoing, held, nil_append, count_append]
  exact Nat.add_comm _ _

end Operation

/-! ### All operations -/

/-- A later operation of the same request comes when the scheduler and the prefetch thread are done
with the earlier one. -/
def Superseded (op later : Operation) : Prop :=
  op.requestId = later.requestId → op.ongoing = false ∧ op.mayRevoke = false

lemma Superseded.advance {op later op' later' : Operation} (h : Superseded op later)
    (hop : op.Advances op') (hlater : later.Advances later') :
    Superseded op' later' := by
  intro hsame
  obtain ⟨hoff, hrevoke⟩ := h (by rw [← hop.requestId, ← hlater.requestId, hsame])
  exact ⟨by simpa [hoff] using hop.ongoing, by simpa [hrevoke] using hop.mayRevoke⟩

lemma Operation.Advances.refl (op : Operation) : op.Advances op := ⟨rfl, id, id, id⟩

namespace HostCache

/-- How often a slot is owned. -/
def owners (s : HostCache) (slot : Slot) : Nat :=
  s.freeSlots.count slot + s.nodes.flatten.count slot + (s.ops.flatMap Operation.owned).count slot +
    s.hostMemReleaseQueue.flatten.count slot

/-- The invariant of every run. -/
structure Inv (cfg : Config) (s : HostCache) : Prop where
  conserved : ∀ slot, s.owners slot = if slot < cfg.size then 1 else 0
  valid : ∀ op ∈ s.ops, op.Valid cfg
  superseded : s.ops.Pairwise Superseded
  revoked : ∀ op ∈ s.ops, op.ongoing = true → op.requestId ∈ s.prefetchRevokeQueue → op.Revoked

variable {cfg : Config} {s s' : HostCache} {i : Nat} {op op' : Operation}

/-- Steps that leave the operations alone move slots between the pool, the tree and the release
queue. -/
lemma Inv.move (h : Inv cfg s) (hops : s'.ops = s.ops)
    (hrevoke : s'.prefetchRevokeQueue = s.prefetchRevokeQueue)
    (howners : ∀ slot, s'.owners slot = s.owners slot) : Inv cfg s' where
  conserved slot := (howners slot).trans (h.conserved slot)
  valid := hops ▸ h.valid
  superseded := hops ▸ h.superseded
  revoked := by
    rw [hops, hrevoke]
    exact h.revoked

/-- A step of one operation. -/
lemma Inv.advance {revoked : List Rid} (h : Inv cfg s) (hop : s.ops[i]? = some op)
    (hops : s'.ops = s.ops.set i op')
    (hqueue : s'.prefetchRevokeQueue = s.prefetchRevokeQueue ++ revoked)
    (hvalid : op'.Valid cfg) (hadvances : op.Advances op')
    (hrevoked : revoked = [] ∨ revoked = [op.requestId] ∧ op.mayRevoke = true ∧ op'.Revoked)
    (howners : ∀ slot, s'.owners slot = s.owners slot) : Inv cfg s' := by
  obtain ⟨hi, rfl⟩ := List.getElem?_eq_some_iff.mp hop
  obtain ⟨before, after, hsplit, -, hset⟩ : ∃ before after, s.ops = before ++ s.ops[i] :: after ∧
    before.length = i ∧
      s.ops.set i op' = before ++ op' :: after := List.exists_of_set hi
  set op := s.ops[i]
  rw [hset] at hops
  have hpair := h.superseded
  rw [hsplit, pairwise_append, pairwise_cons] at hpair
  obtain ⟨hbefore, ⟨hop, hafter⟩, hcross⟩ := hpair
  have hmem : op ∈ s.ops := getElem_mem hi
  have hothers {other : Operation} (hother : other ∈ before ∨ other ∈ after) : other ∈ s.ops := by
    rw [hsplit]
    exact hother.elim (mem_append_left _) fun h => mem_append_right _ (mem_cons_of_mem _ h)
  refine ⟨fun slot => (howners slot).trans (h.conserved slot), fun other hother => ?_,
    ?_, fun other hother hongoing hin => ?_⟩
  · rw [hops, mem_append, mem_cons] at hother
    obtain hother | rfl | hother := hother
    · exact h.valid other (hothers (.inl hother))
    · exact hvalid
    · exact h.valid other (hothers (.inr hother))
  · rw [hops, pairwise_append, pairwise_cons]
    refine ⟨hbefore, ⟨fun later hlater => (hop later hlater).advance hadvances (.refl later),
      hafter⟩, fun other hother later hlater => ?_⟩
    obtain rfl | hlater := mem_cons.mp hlater
    · exact (hcross other hother op mem_cons_self).advance (.refl other) hadvances
    · exact hcross other hother later (mem_cons_of_mem _ hlater)
  · rw [hqueue, mem_append] at hin
    rw [hops, mem_append, mem_cons] at hother
    -- A new revocation is about this operation, and no other one of its request is ongoing.
    have hnew (hin : other.requestId ∈ revoked) :
        other.requestId = op.requestId ∧ op.mayRevoke = true ∧ op'.Revoked := by
      obtain rfl | ⟨rfl, hmay, hrev⟩ := hrevoked
      · cases hin
      · exact ⟨mem_singleton.mp hin, hmay, hrev⟩
    obtain hother | rfl | hother := hother
    · refine hin.elim (h.revoked other (hothers (.inl hother)) hongoing) fun hin => ?_
      obtain ⟨hsame, -, -⟩ := hnew hin
      simp [(hcross other hother op mem_cons_self hsame).1] at hongoing
    · refine hin.elim (fun hin => ?_) fun hin => (hnew hin).2.2
      exact hadvances.revoked (h.revoked op hmem (hadvances.ongoing hongoing)
        (hadvances.requestId ▸ hin))
    · refine hin.elim (h.revoked other (hothers (.inr hother)) hongoing) fun hin => ?_
      obtain ⟨hsame, hmay, -⟩ := hnew hin
      simp [(hop other hother hsame.symm).2] at hmay

lemma count_owned_set {ops : List Operation} (op' : Operation) (hop : ops[i]? = some op)
    (slot : Slot) :
    ((ops.set i op').flatMap Operation.owned).count slot + op.owned.count slot =
      (ops.flatMap Operation.owned).count slot + op'.owned.count slot := by
  obtain ⟨hi, rfl⟩ := List.getElem?_eq_some_iff.mp hop
  obtain ⟨before, after, hsplit, -, hset⟩ : ∃ before after, ops = before ++ ops[i] :: after ∧
    before.length = i ∧
      ops.set i op' = before ++ op' :: after := List.exists_of_set hi
  rw [hset]
  conv_rhs => rw [hsplit]
  simp only [flatMap_append, flatMap_cons, count_append]
  omega

/-! ### The pool and the tree -/

lemma alloc_spec {needSize : Nat} {slots : List Slot}
    (halloc : s.alloc needSize = some (slots, s')) :
    s'.ops = s.ops ∧ s'.prefetchRevokeQueue = s.prefetchRevokeQueue ∧
    ∀ slot, slots.count slot + s'.owners slot = s.owners slot := by
  unfold alloc at halloc
  split at halloc
  · cases halloc
  · cases halloc
    refine ⟨rfl, rfl, fun slot => ?_⟩
    have hcut : (s.freeSlots.take needSize).count slot + (s.freeSlots.drop needSize).count slot =
        s.freeSlots.count slot := by
      rw [← count_append, take_append_drop]
    simp only [owners]
    omega

lemma count_filter_flatten (nodes : List (List Slot)) (victim : List Slot → Bool) (slot : Slot) :
    (nodes.filter (!victim ·)).flatten.count slot + (nodes.filter victim).flatten.count slot =
    nodes.flatten.count slot := by
  induction nodes with
  | nil => rfl
  | cons node nodes ih =>
    cases hv : victim node <;> simp only [filter_cons, hv, Bool.not_true,
      Bool.not_false, if_true, Bool.false_eq_true, if_false,
      flatten_cons, count_append] <;> omega

/-- Eviction moves slots to the free ones. -/
lemma owners_evictHost (victim : List Slot → Bool) (slot : Slot) :
    (s.evictHost victim).owners slot = s.owners slot := by
  have := count_filter_flatten s.nodes victim slot
  simp only [owners, evictHost, free, count_append]
  omega

/-- Allocated memory is taken from the owners; an eviction moves some of it to the pool before. -/
lemma allocOrEvict_spec {needSize : Nat} {victim : List Slot → Bool} {slots : Option (List Slot)}
    (h : s.allocOrEvict needSize victim = (slots, s')) :
    s'.ops = s.ops ∧ s'.prefetchRevokeQueue = s.prefetchRevokeQueue ∧
      ∀ slot, (slots.getD []).count slot + s'.owners slot = s.owners slot := by
  unfold allocOrEvict at h
  split at h
  · cases h
    exact alloc_spec ‹_›
  simp only at h
  split at h
  · rename_i halloc
    cases h
    obtain ⟨hops, hqueue, hcount⟩ := alloc_spec halloc
    exact ⟨hops, hqueue, fun slot => (hcount slot).trans (owners_evictHost victim slot)⟩
  · cases h
    refine ⟨rfl, rfl, fun slot => ?_⟩
    rw [owners_evictHost]
    simp

lemma owners_addNode (slots : List Slot) (slot : Slot) :
    (s.addNode slots).owners slot = slots.count slot + s.owners slot := by
  simp only [owners, addNode, flatten_append, flatten_singleton, count_append]
  omega

lemma Inv.writeBackup (h : Inv cfg s) (length : Nat) (victim : List Slot → Bool) :
    Inv cfg (s.writeBackup length victim) := by
  unfold HostCache.writeBackup
  split
  · rename_i slots s1 halloc
    obtain ⟨hops, hqueue, hcount⟩ := allocOrEvict_spec halloc
    refine h.move hops hqueue fun slot => ?_
    rw [owners_addNode]
    exact hcount slot
  · rename_i s1 halloc
    obtain ⟨hops, hqueue, hcount⟩ := allocOrEvict_spec halloc
    exact h.move hops hqueue fun slot => by simpa using hcount slot

lemma Inv.splitNode (h : Inv cfg s) (i splitLen : Nat) : Inv cfg (s.splitNode i splitLen) := by
  unfold HostCache.splitNode
  split
  · rename_i slots hnode
    refine h.move rfl rfl fun slot => ?_
    obtain ⟨hi, rfl⟩ := List.getElem?_eq_some_iff.mp hnode
    obtain ⟨before, after, hsplit, -, hset⟩ :
      ∃ before after, s.nodes = before ++ s.nodes[i] :: after ∧ before.length = i ∧
        s.nodes.set i (s.nodes[i].take splitLen) = before ++ s.nodes[i].take splitLen :: after :=
        List.exists_of_set hi
    have hcut : (s.nodes[i].take splitLen).count slot + (s.nodes[i].drop splitLen).count slot =
        s.nodes[i].count slot := by
      rw [← count_append, take_append_drop]
    have hnodes :
        s.nodes.flatten.count slot =
        before.flatten.count slot + (s.nodes[i].count slot + after.flatten.count slot) := by
      conv_lhs => rw [hsplit]
      simp
    rw [owners_addNode]
    simp only [owners, hset, hnodes, flatten_append, flatten_cons, count_append]
    omega
  · exact h

/-! ### The scheduler -/

/-- A prefetch begins with slots of its own. -/
lemma Inv.prefetchFromStorage (h : Inv cfg s) {requestId : Rid} (length : Nat)
    (victim : List Slot → Bool)
    (hnew : ∀ op ∈ s.ops, op.requestId = requestId → op.ongoing = false ∧ op.mayRevoke = false)
    (hqueue : requestId ∉ s.prefetchRevokeQueue) :
    Inv cfg (s.prefetchFromStorage cfg requestId length victim) := by
  unfold HostCache.prefetchFromStorage
  split
  · exact h
  split
  · rename_i slots s1 halloc
    obtain ⟨hops, hrevoke, hcount⟩ := allocOrEvict_spec halloc
    refine ⟨fun slot => ?_, fun op hop => ?_, ?_, fun op hop hongoing hin => ?_⟩
    · have hslot : slots.count slot + s1.owners slot = s.owners slot := hcount slot
      rw [← h.conserved, ← hslot]
      simp only [owners, flatMap_append, flatMap_singleton, count_append,
        Operation.owned, Operation.recorded, Operation.held,
        take_zero, nil_append]
      omega
    · obtain hop | hop := mem_append.mp hop
      · exact h.valid op (hops ▸ hop)
      · rw [mem_singleton.mp hop]
        exact ⟨(take_length ..).symm, rfl, nofun⟩
    · rw [hops, pairwise_append]
      refine ⟨h.superseded, pairwise_singleton _ _, fun op hop later hlater => ?_⟩
      rw [mem_singleton.mp hlater]
      exact hnew op hop
    · rw [hrevoke] at hin
      obtain hop | hop := mem_append.mp hop
      · exact h.revoked op (hops ▸ hop) hongoing hin
      · rw [mem_singleton.mp hop] at hin
        exact absurd hin hqueue
  · rename_i s1 halloc
    obtain ⟨hops, hrevoke, hcount⟩ := allocOrEvict_spec halloc
    exact h.move hops hrevoke fun slot => by simpa using hcount slot

lemma count_pieces (slots : List Slot) {matched least completed : Nat}
    (hmatched : matched ≤ least) (hleast : least ≤ completed) (slot : Slot) :
    (slots.take matched).count slot + ((slots.take least).drop matched).count slot +
    ((slots.take completed).drop least).count slot =
      (slots.take completed).count slot := by
  have hfirst : slots.take matched ++ (slots.take least).drop matched = slots.take least := by
    conv_rhs => rw [← take_append_drop matched (slots.take least), take_take, min_eq_left hmatched]
  have hsecond : slots.take least ++ (slots.take completed).drop least = slots.take completed := by
    conv_rhs => rw [← take_append_drop least (slots.take completed), take_take, min_eq_left hleast]
  rw [← count_append, hfirst, ← count_append, hsecond]

section
variable (h : Inv cfg s)
include h

/-- What was read becomes a node of the tree or is released. -/
lemma Inv.checkPrefetchProgress (hop : s.ops[i]? = some op) (hongoing : op.ongoing = true)
    {least matched : Nat} (hmatched : matched ≤ least) (hleast : least ≤ op.completedTokens) :
    Inv cfg (s.checkPrefetchProgress cfg i op least matched) := by
  have hvalid := h.valid op (mem_of_getElem? hop)
  unfold HostCache.checkPrefetchProgress
  simp only
  split
  all_goals
    refine h.advance hop rfl (append_nil _).symm hvalid.settled (.settled op) (.inl rfl) fun slot =>
      ?_
    have hset := count_owned_set op.settled hop slot
    have hpieces := count_pieces op.indices hmatched hleast slot
    have hsettled := count_owned_settled hongoing slot
  · simp only [owners, appendHostMemRelease, free, addNode, flatten_append,
      flatten_singleton, flatten_pagesOf, count_append]
    omega
  · rw [drop_eq_nil_of_le (by omega : _ ≤ matched), count_nil] at hpieces
    simp only [owners, appendHostMemRelease, free, flatten_append, flatten_pagesOf, count_append]
    omega

/-- What an aborted request has read is released. -/
lemma Inv.releaseAbortedRequest (hop : s.ops[i]? = some op) (hongoing : op.ongoing = true) :
    Inv cfg (s.releaseAbortedRequest cfg i op) := by
  have hvalid := h.valid op (mem_of_getElem? hop)
  refine h.advance hop rfl (append_nil _).symm hvalid.settled (.settled op) (.inl rfl) fun slot =>
    ?_
  have hset := count_owned_set op.settled hop slot
  have hsettled := count_owned_settled hongoing slot
  simp only [HostCache.releaseAbortedRequest, owners, appendHostMemRelease,
    flatten_append, flatten_pagesOf, count_append]
  omega

lemma Inv.terminate (hop : s.ops[i]? = some op) :
    Inv cfg { s with ops := s.ops.set i { op with terminated := true } } := by
  refine h.advance hop rfl (append_nil _).symm (h.valid op (mem_of_getElem? hop)).terminate
    ⟨rfl, id, id, id⟩ (.inl rfl)
    fun slot => ?_
  have hset := count_owned_set { op with terminated := true } hop slot
  have hsame : { op with terminated := true }.owned = op.owned := rfl
  simp only [owners, hsame] at *
  omega

/-- The record of a revoked operation is dropped. -/
lemma Inv.drainRevoke : Inv cfg s.drainRevoke := by
  unfold HostCache.drainRevoke
  split
  · exact h
  rename_i requestId queue hqueue
  set drop := fun op : Operation => if op.requestId = requestId then { op with ongoing := false }
    else op with hdrop
  have hrevoked (op : Operation) (hop : op ∈ s.ops) (hsame : op.requestId = requestId)
      (hongoing : op.ongoing = true) : op.Revoked :=
    h.revoked op hop hongoing (by simp [hqueue, hsame])
  have hadvances (op : Operation) : op.Advances (drop op) := by
    simp only [hdrop]
    split
    · exact ⟨rfl, nofun, id, id⟩
    · exact .refl op
  have howned (op : Operation) (hop : op ∈ s.ops) : (drop op).owned = op.owned := by
    simp only [hdrop]
    split
    · rename_i hsame
      cases hongoing : op.ongoing with
      | false => simp [Operation.owned, Operation.recorded, Operation.held, hongoing]
      | true =>
        have hzero := (hrevoked op hop hsame hongoing).1
        simp [Operation.owned, Operation.recorded, Operation.held, hongoing, hzero]
    · rfl
  refine ⟨fun slot => ?_, fun op hop => ?_, ?_, fun op hop hongoing hin => ?_⟩
  · have hflat : (s.ops.map drop).flatMap Operation.owned = s.ops.flatMap Operation.owned := by
      rw [flatMap_map]
      exact flatMap_congr fun op hop => howned op hop
    rw [← h.conserved slot]
    simp only [owners, hflat]
  · obtain ⟨op, hmem, rfl⟩ := mem_map.mp hop
    have hvalid := h.valid op hmem
    simp only [hdrop]
    split
    · rename_i hsame
      refine ⟨hvalid.hostIndices, hvalid.counted, fun _ => ?_⟩
      cases hongoing : op.ongoing with
      | false => exact hvalid.quiet hongoing
      | true => exact .inr (hrevoked op hmem hsame hongoing).2
    · exact hvalid
  · exact List.Pairwise.map drop (fun a b hab => hab.advance (hadvances a)
      (hadvances b)) h.superseded
  · obtain ⟨op, hmem, rfl⟩ := mem_map.mp hop
    rw [(hadvances op).requestId] at hin
    exact (hadvances op).revoked (h.revoked op hmem ((hadvances op).ongoing hongoing)
      (hqueue ▸ mem_cons_of_mem _ hin))

/-- Pages of the release queue are free again. -/
lemma Inv.drainRelease (n : Nat) : Inv cfg (s.drainRelease n) := by
  refine h.move rfl rfl fun slot => ?_
  have hcut :
    (s.hostMemReleaseQueue.take n).flatten.count slot +
    (s.hostMemReleaseQueue.drop n).flatten.count slot =
      s.hostMemReleaseQueue.flatten.count slot := by
    rw [← count_append, ← flatten_append, take_append_drop]
  simp only [HostCache.drainRelease, owners, free, count_append]
  omega

lemma Inv.reset (hqueue : s.hostMemReleaseQueue = [])
    (hidle : ∀ op ∈ s.ops, op.ongoing = false ∧ op.stage = .done) :
    Inv cfg (s.reset cfg) := by
  have hops : (s.reset cfg).ops = s.ops := by
    refine (map_congr_left fun op hop => ?_).trans (map_id _)
    rw [if_neg (by simp [(hidle op hop).2]), id]
  have hnone : s.ops.flatMap Operation.owned = [] := by
    rw [flatMap_eq_nil_iff]
    intro op hop
    simp [Operation.owned, Operation.recorded, Operation.held, hidle op hop]
  refine ⟨fun slot => ?_, hops ▸ h.valid, hops ▸ h.superseded,
    fun _ _ _ hin => by simp [HostCache.reset] at hin⟩
  rw [owners, hops, hnone]
  simp [HostCache.reset, hqueue, count_range]

end

lemma Inv.create (cfg : Config) : Inv cfg (create cfg) where
  conserved slot := by simp [owners, HostCache.create, count_range]
  valid _ hop := by cases hop
  superseded := .nil
  revoked _ hop := by cases hop

/-! ### Runs -/

/-- A prefetch starts when no revocation of an earlier prefetch of the request can come, and a reset
when nothing is queued for release and no prefetch holds memory. -/
def Tame (s : HostCache) : Event → Prop
  | .prefetch requestId _ _ =>
    (∀ op ∈ s.ops, op.requestId = requestId → op.mayRevoke = false) ∧
    requestId ∉ s.prefetchRevokeQueue
  | .reset => s.hostMemReleaseQueue = [] ∧ ∀ op ∈ s.ops, op.ongoing = false ∧ op.stage = .done
  | _ => True

lemma Inv.step {e : Event} (h : Inv cfg s) (htame : s.Tame e) (hstep : s.step cfg e = some s') :
    Inv cfg s' := by
  cases e with
  | backup length victim =>
    cases hstep
    exact h.writeBackup length victim
  | evict victim =>
    cases hstep
    exact h.move rfl rfl (owners_evictHost victim)
  | split i splitLen =>
    cases hstep
    exact h.splitNode i splitLen
  | prefetch requestId length victim =>
    simp only [HostCache.step] at hstep
    split at hstep
    · rename_i hone
      cases hstep
      refine h.prefetchFromStorage length victim
        (fun op hop hsame => ⟨?_, htame.1 op hop hsame⟩) htame.2
      by_contra hongoing
      exact hone op hop (by simpa using hongoing) hsame
    · cases hstep
  | check i least matched =>
    obtain ⟨op, hop, hstep⟩ := bind_eq_some_iff.mp hstep
    obtain ⟨hop, hongoing⟩ := filter_eq_some_iff.mp hop
    split at hstep
    · rename_i hle
      cases hstep
      exact h.checkPrefetchProgress hop hongoing hle.1 hle.2
    · cases hstep
  | terminate i =>
    obtain ⟨op, hop, rfl⟩ := map_eq_some_iff.mp hstep
    exact h.terminate (filter_eq_some_iff.mp hop).1
  | abort i =>
    obtain ⟨op, hop, rfl⟩ := map_eq_some_iff.mp hstep
    obtain ⟨hop, hongoing⟩ := filter_eq_some_iff.mp hop
    exact h.releaseAbortedRequest hop hongoing
  | drainRevoke =>
    cases hstep
    exact h.drainRevoke
  | drainRelease n =>
    cases hstep
    exact h.drainRelease n
  | reset =>
    simp only [HostCache.step] at hstep
    split at hstep
    · cases hstep
      exact h.reset htame.1 htame.2
    · cases hstep
  | work i w =>
    obtain ⟨op, hop, hstep⟩ := bind_eq_some_iff.mp hstep
    obtain ⟨⟨op', pages, revoked⟩, hwork, rfl⟩ := map_eq_some_iff.mp hstep
    have hworks := (h.valid op (mem_of_getElem? hop)).work hwork
    refine h.advance hop rfl rfl hworks.valid hworks.advances hworks.revoked fun slot => ?_
    have hset := count_owned_set op' hop slot
    have hconserved := hworks.conserved slot
    simp only [update, owners, flatten_append, count_append]
    omega

instance (s : HostCache) : (e : Event) → Decidable (s.Tame e)
  | .prefetch requestId _ _ =>
    inferInstanceAs (Decidable ((∀ op ∈ s.ops, op.requestId = requestId → op.mayRevoke = false) ∧
      requestId ∉ s.prefetchRevokeQueue))
  | .reset =>
    inferInstanceAs (Decidable (s.hostMemReleaseQueue = [] ∧ ∀ op ∈ s.ops, op.ongoing = false ∧
      op.stage = .done))
  | .backup _ _ | .evict _ | .split _ _ | .check _ _ _ | .terminate _ | .abort
      _ | .drainRevoke | .drainRelease _ | .work _ _ =>
    inferInstanceAs (Decidable True)

def tameStep (cfg : Config) (s : HostCache) (e : Event) : Option HostCache :=
  if s.Tame e then s.step cfg e else none

/-- In every run each slot of the host pool is owned once: it is free, in one node, with one
prefetch or queued for release. -/
theorem host_memory_conserved {cfg : Config} {history : List HostCache}
    (hrun : Runs.Run (fun s s' => ∃ e, s.Tame e ∧ s.step cfg e = some s') (create cfg) history) :
    ∀ s ∈ history, ∀ slot, s.owners slot = if slot < cfg.size then 1 else 0 := by
  have hinv : ∀ s ∈ history, Inv cfg s := by
    refine hrun.invariant (Inv.create cfg) ?_
    rintro s s' h ⟨e, htame, hstep⟩
    exact h.step htame hstep
  exact fun s hs => (hinv s hs).conserved

/-- Eight slots in pages of two. -/
def smallPool : Config := ⟨8, 2, 2, by decide⟩

/-- Six tokens are prefetched, four of them are stored, and two are read when the scheduler stops
waiting. -/
def stoppedPrefetch : List Event :=
  [.prefetch 0 6 fun _ => false, .work 0 (.answer 4), .work 0 .putPage,
    .work 0 .forward, .work 0 .get, .work 0 (.increment 1), .check 0 2 0,
    .work 0 (.increment 1), .work 0 .putPage, .work 0 .finish, .drainRelease 2, .backup 8 fun _ =>
    true, .reset]

theorem host_memory_conserved_stopped : ∃ history,
    Runs.Run (fun s s' => ∃ e, s.Tame e ∧ s.step smallPool e = some s') (create smallPool) history ∧
    (∃ s ∈ history, s.nodes = [[0, 1]] ∧ s.hostMemReleaseQueue = [[4, 5], [2, 3]] ∧
    s.freeSlots = [6, 7]) ∧
      ∀ s ∈ history, ∀ slot, s.owners slot = if slot < smallPool.size then 1 else 0 := by
  obtain ⟨history, hrun, hstates⟩ : ∃ history,
      Runs.Run (fun s s' => ∃ e, s.Tame e ∧ s.step smallPool e = some s')
      (create smallPool) history ∧
      ∃ s ∈ history, s.nodes = [[0, 1]] ∧ s.hostMemReleaseQueue = [[4, 5], [2, 3]] ∧
      s.freeSlots = [6, 7] :=
    Runs.exists_run_of_play (tameStep smallPool) stoppedPrefetch
      (fun e _ s s' hstep => ⟨e, by simpa [tameStep, ite_eq_iff] using hstep⟩) (by decide +kernel)
  exact ⟨history, hrun, hstates, host_memory_conserved hrun⟩

/-- A flush while a page is queued for release, which is then free and queued. -/
def flushedEarly : List Event :=
  [.prefetch 0 2 fun _ => false, .abort 0, .work 0 (.answer 0), .work 0 .sendRevoke,
    .work 0 .putPage, .work 0 .finish, .reset, .drainRelease 1]

/-- A request that is not waited for, runs, and is queued again before its first prefetch is
revoked: the revocation is taken for the second prefetch. -/
def revokedLate : List Event :=
  [.prefetch 0 2 fun _ => false, .check 0 0 0, .prefetch 0 4 fun _ => false,
    .work 0 (.answer 0), .work 0 .sendRevoke, .work 0 .putPage,
    .work 0 .finish, .drainRevoke, .work 1 (.answer 4), .work 1 .forward,
    .work 1 .get, .work 1 (.increment 2), .work 1 .finish, .work 1 .finish]

theorem host_memory_not_conserved :
    (∃ history, Runs.Run (fun s s' => ∃ e, s.step smallPool e = some s')
    (create smallPool) history ∧ ∃ s ∈ history, s.owners 0 = 2) ∧
      ∃ history, Runs.Run (fun s s' => ∃ e, s.step smallPool e = some s')
      (create smallPool) history ∧ ∃ s ∈ history, s.owners 2 = 0 := by
  exact ⟨Runs.exists_run_of_play (step smallPool) flushedEarly (fun e _ s s' hstep => ⟨e, hstep⟩)
    (by decide +kernel),
    Runs.exists_run_of_play (step smallPool) revokedLate (fun e _ s s' hstep => ⟨e, hstep⟩)
    (by decide +kernel)⟩

end HostCache

end Sglang.MemCache.StoragePrefetch
