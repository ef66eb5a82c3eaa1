import Mathlib.Algebra.BigOperators.Ring.List
import Mathlib.Algebra.Order.BigOperators.Group.List
import Sglang.Lib.Pages
import Sglang.Lib.Runs

/-! The device buffers of HiSparse.

A decoding request keeps its newest tokens in a buffer of device pages, which gets a page more when
it is full. The check before a decode step counts a page for each request at the end of a page; the
step grows the buffers by a rule of its own. There is no tree to evict from. The host pool, from which
a step takes a slot for each token it backs up, is as large as the logical one and does not run out
before it (`hostTokens_le`). -/
namespace Sglang.Managers.HiSparse

open Pages Prefix Runs

/-- A decoding request. -/
structure Req where
  kvCommittedLen : Nat
  /-- Its `req_device_buffer_size`. -/
  cap : Nat
deriving DecidableEq

structure Coordinator where
  pageSize : Nat
  deviceBufferSize : Nat
  /-- The free pages of the two pools. -/
  logical : Nat
  device : Nat
  /-- Lengths and device pages of the requests outside the batch. -/
  staged : List (Nat × Nat) := []
  reqs : List Req := []

section
variable (s : Coordinator)

/-- The smaller of the two pools decides. -/
def availableSize : Nat := min (s.logical * s.pageSize) (s.device * s.pageSize)

def checkDecodeMem : Bool :=
  decide (availableSize s ≥ s.reqs.countP (·.kvCommittedLen % s.pageSize == 0) * s.pageSize)

/-- The size of the buffer for `n` tokens. -/
def newCap (n : Nat) : Nat :=
  let cap := min (ceil s.pageSize n) s.deviceBufferSize
  if cap = s.deviceBufferSize then s.deviceBufferSize + s.pageSize else cap

/-- What the buffer lacks for one more token. -/
def growSize (r : Req) : Nat :=
  let seqLen := r.kvCommittedLen + 1
  if seqLen ≤ s.deviceBufferSize ∧ seqLen > r.cap then newCap s seqLen - r.cap else 0

/-- `alloc_decode` and `_grow_device_buffers`; `none` is the error of either. -/
def decode : Option Coordinator :=
  let newPages := s.reqs.countP fun r => (r.kvCommittedLen + 1) % s.pageSize == 1
  let totalGrow := (s.reqs.map (growSize s)).sum
  if newPages > s.logical ∨ totalGrow / s.pageSize > s.device then none
  else some {s with
    logical := s.logical - newPages
    device := s.device - totalGrow / s.pageSize
    reqs := s.reqs.map fun r => ⟨r.kvCommittedLen + 1, r.cap + growSize s r⟩}

/-- What happens to the pools. -/
inductive Step : Coordinator → Prop
  | allocLogicalOnly (n : Nat) (hlogical : count s.pageSize n ≤ s.logical) :
    Step {s with logical := s.logical - count s.pageSize n, staged := s.staged ++ [(n, 0)]}
  /-- A prompt, or the next chunk of it; a new one has length 0. -/
  | allocExtend {m pages : Nat} (hmem : (m, count s.pageSize m) ∈ s.staged) (n : Nat)
      (hpages : pages = count s.pageSize n - count s.pageSize m) (hlogical : pages ≤ s.logical)
        (hdevice : pages ≤ s.device) :
    Step {s with
      logical := s.logical - pages
      device := s.device - pages
      staged := s.staged.erase (m, count s.pageSize m) ++ [(n, count s.pageSize n)]}
  /-- A request may wait with its buffer. -/
  | admitRequestDirect {n : Nat} (hmem : (n, 0) ∈ s.staged)
      (hdevice : newCap s n / s.pageSize ≤ s.device) :
    Step {s with
      device := s.device - newCap s n / s.pageSize
      staged := s.staged.erase (n, 0) ++ [(n, newCap s n / s.pageSize)]}
  /-- The pages it has are kept as far as needed, the rest is allocated. -/
  | allocDeviceBuffer {n held : Nat} (hmem : (n, held) ∈ s.staged)
      (hdevice : newCap s n / s.pageSize ≤ s.device + held) :
    Step {s with
      device := s.device + held - newCap s n / s.pageSize
      staged := s.staged.erase (n, held)
      reqs := s.reqs ++ [⟨n, newCap s n⟩]}
  | decode {s' : Coordinator} (h : decode s = some s') : Step s'
  | abortStagingRequest {n held : Nat} (hmem : (n, held) ∈ s.staged) :
    Step
      {s with logical := s.logical + count s.pageSize n, device := s.device + held, staged := s.staged.erase (n, held)}
  | requestFinished {r : Req} (hmem : r ∈ s.reqs) :
    Step {s with
      logical := s.logical + count s.pageSize r.kvCommittedLen
      device := s.device + r.cap / s.pageSize
      reqs := s.reqs.erase r}

/-- The pages that the growth takes: a buffer that becomes full gets a second one. -/
def growPages (r : Req) : Nat :=
  if r.kvCommittedLen % s.pageSize = 0 ∧ r.kvCommittedLen < s.deviceBufferSize then
    if r.kvCommittedLen + s.pageSize = s.deviceBufferSize then 2 else 1
  else 0

/-- Buffers have the size that belongs to their length. -/
structure Inv : Prop where
  page : 1 < s.pageSize
  dvd : s.pageSize ∣ s.deviceBufferSize
  cap : ∀ r ∈ s.reqs, r.cap = newCap s r.kvCommittedLen

end

variable {s s' start : Coordinator} {r : Req}

lemma newCap_eq {b : Nat} (hp : 0 < s.pageSize) (hb : s.deviceBufferSize = b * s.pageSize)
    (n : Nat) :
    newCap s n = (if count s.pageSize n < b then count s.pageSize n else b + 1) * s.pageSize := by
  simp only [newCap, ceil_eq, hb]
  split_ifs with hfull hlt hlt
  · exact absurd hfull (min_lt_iff.mpr (.inl (Nat.mul_lt_mul_of_pos_right hlt hp))).ne
  · rw [Nat.succ_mul]
  · exact min_eq_left (Nat.mul_le_mul_right _ hlt.le)
  · exact absurd (min_eq_right (Nat.mul_le_mul_right _ (not_lt.mp hlt))) hfull

/-- The growth gives a buffer the size for one token more. -/
lemma Inv.growSize (h : Inv s) (hr : r ∈ s.reqs) : growSize s r = growPages s r * s.pageSize ∧
    r.cap + growSize s r = newCap s (r.kvCommittedLen + 1) := by
  have hp := Nat.zero_lt_of_lt h.page
  obtain ⟨b, hb⟩ := h.dvd
  rw [mul_comm] at hb
  have hsucc := count_succ_sub h.page r.kvCommittedLen
  have hmono := count_mono hp (Nat.le_add_right r.kvCommittedLen 1)
  -- all sizes are whole pages
  simp only [HiSparse.growSize, growPages, h.cap r hr, newCap_eq hp hb,
    hb, gt_iff_lt, ← not_le, ← count_le hp,
    succ_mod_eq_one h.page] at hsucc ⊢
  by_cases hzero : r.kvCommittedLen % s.pageSize = 0
  · obtain ⟨c, hc⟩ := Nat.dvd_of_mod_eq_zero hzero
    rw [mul_comm] at hc
    rw [if_pos hzero, hc, count_mul hp] at hsucc
    have hnext : count s.pageSize (c * s.pageSize + 1) = c + 1 := by omega
    simp only [hc, count_mul hp, hnext, Nat.mul_mod_left, Nat.mul_le_mul_right_iff hp,
      ← Nat.succ_mul, Nat.mul_left_inj hp.ne']
    rcases lt_trichotomy (c + 1) b with hlt | rfl | hlt
    · simp [hlt.le, Nat.lt_of_succ_lt hlt, hlt.not_ge, hlt.ne, Nat.succ_mul]
    · simp [Nat.succ_mul]
      omega
    · simp [Nat.le_of_lt_succ hlt, hlt.le, hlt.not_ge]
  · rw [if_neg hzero] at hsucc
    have hsame : count s.pageSize (r.kvCommittedLen + 1) = count s.pageSize r.kvCommittedLen := by
      omega
    simp [hsame, hzero]

lemma Step.inv (h : Inv s) (hstep : Step s s') : Inv s' := by
  cases hstep with
  | allocDeviceBuffer =>
    exact ⟨h.page, h.dvd, List.forall_mem_append.mpr ⟨h.cap, List.forall_mem_singleton.mpr rfl⟩⟩
  | decode heq =>
    simp only [HiSparse.decode] at heq
    split at heq
    · cases heq
    · cases heq
      refine ⟨h.page, h.dvd, fun r hr => ?_⟩
      obtain ⟨r', hr', rfl⟩ := List.mem_map.mp hr
      exact (h.growSize hr').2
  | requestFinished => exact ⟨h.page, h.dvd, fun r hr => h.cap r (List.mem_of_mem_erase hr)⟩
  | _ => exact ⟨h.page, h.dvd, h.cap⟩

/-! ### The host pool -/

/-- The pages of the logical pool that requests have. -/
def logicalPages (s : Coordinator) : Nat :=
  (s.staged.map fun e => count s.pageSize e.1).sum +
    (s.reqs.map fun r => count s.pageSize r.kvCommittedLen).sum

/-- The tokens of the requests: no others have a slot of the host pool. -/
def hostTokens (s : Coordinator) : Nat :=
  (s.staged.map (·.1)).sum + (s.reqs.map (·.kvCommittedLen)).sum

/-- A decode step takes the logical pages that its requests need more. -/
lemma sum_count_decode (hp : 1 < s.pageSize) (reqs : List Req) :
    (reqs.map fun r => count s.pageSize (r.kvCommittedLen + 1)).sum =
      (reqs.map fun r => count s.pageSize r.kvCommittedLen).sum +
        reqs.countP fun r => (r.kvCommittedLen + 1) % s.pageSize == 1 := by
  induction reqs with
  | nil => rfl
  | cons r reqs ih =>
    have hsucc := count_succ_sub hp r.kvCommittedLen
    have hmono := count_mono (Nat.zero_lt_of_lt hp) (Nat.le_add_right r.kvCommittedLen 1)
    simp only [List.map_cons, List.sum_cons, List.countP_cons, ih, beq_iff_eq]
    omega

/-- The logical pages come from the pool. -/
lemma Step.logicalPages_le (h : Inv s) (hstep : Step s s') : s'.pageSize = s.pageSize ∧
    s'.logical + logicalPages s' ≤ s.logical + logicalPages s := by
  have hstaged {e : Nat × Nat} (hmem : e ∈ s.staged) :=
    ((List.perm_cons_erase hmem).map fun e => count s.pageSize e.1).sum_eq
  cases hstep with
  | allocLogicalOnly n hlogical =>
    refine ⟨rfl, ?_⟩
    simp only [logicalPages, List.map_append, List.sum_append, List.map_singleton,
      List.sum_singleton]
    omega
  | allocExtend hmem n hpages hlogical hdevice =>
    have := hstaged hmem
    simp only [List.map_cons, List.sum_cons] at this
    refine ⟨rfl, ?_⟩
    simp only [logicalPages, List.map_append, List.sum_append, List.map_singleton,
      List.sum_singleton]
    omega
  | admitRequestDirect hmem hdevice | allocDeviceBuffer hmem hdevice | abortStagingRequest hmem =>
    have := hstaged hmem
    simp only [List.map_cons, List.sum_cons] at this
    refine ⟨rfl, ?_⟩
    simp only [logicalPages, List.map_append, List.sum_append, List.map_singleton,
      List.sum_singleton]
    omega
  | decode heq =>
    simp only [HiSparse.decode] at heq
    split at heq
    · cases heq
    · cases heq
      have := sum_count_decode h.page s.reqs
      refine ⟨rfl, ?_⟩
      simp only [logicalPages, List.map_map, Function.comp_def]
      omega
  | requestFinished hmem =>
    have := ((List.perm_cons_erase hmem).map fun r => count s.pageSize r.kvCommittedLen).sum_eq
    rw [List.map_cons, List.sum_cons] at this
    refine ⟨rfl, ?_⟩
    simp only [logicalPages]
    omega

lemma hostTokens_le_logicalPages (hp : 0 < s.pageSize) :
    hostTokens s ≤ logicalPages s * s.pageSize := by
  rw [hostTokens, logicalPages, Nat.add_mul, ← List.sum_map_mul_right, ← List.sum_map_mul_right]
  exact Nat.add_le_add (List.sum_le_sum fun e _ => le_count_mul hp e.1)
    (List.sum_le_sum fun r _ => le_count_mul hp r.kvCommittedLen)

/-- The host pool does not run out if it has a slot for each token of the logical pool. -/
lemma hostTokens_le {history : List Coordinator} (hp : 1 < start.pageSize)
    (hd : start.pageSize ∣ start.deviceBufferSize) (hstaged : start.staged = [])
    (hempty : start.reqs = []) (hrun : Run Step start history) (hs : s ∈ history) :
    hostTokens s ≤ start.logical * start.pageSize := by
  have hinv : Inv s ∧ s.pageSize = start.pageSize ∧ s.logical + logicalPages s ≤ start.logical := by
    refine hrun.invariant (P := fun s => Inv s ∧ s.pageSize = start.pageSize ∧
      s.logical + logicalPages s ≤ start.logical) ?_ ?_ s hs
    · exact ⟨⟨hp, hd, by simp [hempty]⟩, rfl, by simp [logicalPages, hstaged, hempty]⟩
    · rintro s s' ⟨h, hpage, hle⟩ hstep
      obtain ⟨hpage', hle'⟩ := hstep.logicalPages_le h
      exact ⟨hstep.inv h, hpage'.trans hpage, hle'.trans hle⟩
  obtain ⟨h, hpage, hle⟩ := hinv
  calc hostTokens s ≤ logicalPages s * s.pageSize :=
        hostTokens_le_logicalPages (Nat.zero_lt_of_lt h.page)
    _ ≤ start.logical * start.pageSize := by
        rw [hpage]
        exact Nat.mul_le_mul_right _ (Nat.le_of_add_left_le hle)

/-- **What a checked decode step needs.** It finds its pages exactly if the device has one for each
buffer that grows and a second for each that becomes full. -/
theorem device_pages_found_iff {history : List Coordinator} (hp : 1 < start.pageSize)
    (hd : start.pageSize ∣ start.deviceBufferSize) (hempty : start.reqs = [])
    (hrun : Run Step start history) (hs : s ∈ history) (hcheck : checkDecodeMem s = true) :
    (decode s).isSome ↔ (s.reqs.map (growPages s)).sum ≤ s.device := by
  have h : Inv s := hrun.invariant ⟨hp, hd, by simp [hempty]⟩ (fun _ _ => Step.inv) s hs
  have hpos := Nat.zero_lt_of_lt h.page
  have hgrow : (s.reqs.map (growSize s)).sum = (s.reqs.map (growPages s)).sum * s.pageSize := by
    rw [← List.sum_map_mul_right]
    exact congrArg _ (List.map_congr_left fun r hr => (h.growSize hr).1)
  have hroom := (of_decide_eq_true hcheck).trans (min_le_left _ _)
  have hlogical := Nat.le_of_mul_le_mul_right hroom hpos
  simp only [decode, hgrow, Nat.mul_div_cancel _ hpos, succ_mod_eq_one h.page,
    beq_eq_decide] at hlogical ⊢
  split
  · next hnone => simpa using hnone.resolve_left (not_lt.mpr hlogical)
  · next hsome => simpa using (not_or.mp hsome).2

/-- A request of a page, whose buffer has room for two. -/
lemma run_one_request : Run Step ⟨2, 4, 8, 4, [], []⟩
    [⟨2, 4, 7, 3, [], [⟨2, 2⟩]⟩, ⟨2, 4, 7, 4, [(2, 0)], []⟩, ⟨2, 4, 8, 4, [], []⟩] :=
  (Run.nil.cons (.allocLogicalOnly 2 (by decide))).cons
    (@Step.allocDeviceBuffer _ 2 0 (.head _) (by decide))

/-- A shorter one joins it, with a buffer of one page. -/
lemma run_two_requests : Run Step ⟨2, 4, 8, 4, [], []⟩
    [⟨2, 4, 6, 2, [], [⟨2, 2⟩, ⟨1, 2⟩]⟩, ⟨2, 4, 6, 3, [(1, 0)], [⟨2, 2⟩]⟩, ⟨2, 4, 7, 3, [], [⟨2, 2⟩]⟩,
      ⟨2, 4, 7, 4, [(2, 0)], []⟩, ⟨2, 4, 8, 4, [], []⟩] :=
  (run_one_request.cons (.allocLogicalOnly 1 (by decide))).cons
    (@Step.allocDeviceBuffer _ 1 0 (.head _) (by decide))

theorem device_pages_found_iff_two_requests :
    checkDecodeMem ⟨2, 4, 6, 2, [], [⟨2, 2⟩, ⟨1, 2⟩]⟩ = true ∧
      (decode ⟨2, 4, 6, 2, [], [⟨2, 2⟩, ⟨1, 2⟩]⟩).isSome :=
  ⟨by decide, (device_pages_found_iff (by decide) (by decide) rfl run_two_requests (.head _)
    (by decide)).mpr (by decide)⟩

/-- With a second such request both buffers become full and take two pages, of which one was
counted. -/
theorem full_buffers_miscounted :
    ∃ history, Run Step ⟨2, 4, 8, 4, [], []⟩ history ∧ ∃ s ∈ history, checkDecodeMem s = true ∧
    decode s = none := by
  have hstaged := run_one_request.cons (.allocLogicalOnly 2 (by decide))
  have hrun := hstaged.cons (@Step.allocDeviceBuffer _ 2 0 (.head _) (by decide))
  exact ⟨_, hrun, _, .head _, by decide, rfl⟩

end Sglang.Managers.HiSparse
