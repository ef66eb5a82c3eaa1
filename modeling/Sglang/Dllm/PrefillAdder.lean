import Sglang.Managers.ReqMemory

/-! Admission of denoising blocks.

`PrefillAdder` admits requests into a denoising batch under three budgets: the tokens left for the
batch, the block size, and the KV slots that are free or evictable less what is reserved. Every
algorithm's `run` and the position builder read the flat input in strides of a block, so a request
admitted with less than a block shifts all that follows it. -/
namespace Sglang.Dllm

open List
open Managers

/-- A diffusion request: the length of its next input and its budget of new tokens. -/
structure DllmReq extends Req where
  maxNewTokens : Nat := 0
  extendInputLen : Nat := 0
deriving DecidableEq

inductive AddReqResult
  | continue
  | noToken
  | other
deriving DecidableEq, Repr

structure PrefillAdder where
  pageSize : Nat
  dllmBlockSize : Nat
  clipMaxNewTokens : Nat := 4096
  remDllmTokens : Int
  remTotalTokenOffset : ℚ := 0
  curRemTokenOffset : ℚ := 0
  remInputTokens : Int
  canRunList : List DllmReq := []

/-- Python's `int` of a number: towards zero. -/
def toInt (q : ℚ) : Int := if 0 ≤ q then q.floor else q.ceil

namespace PrefillAdder

/-- `_init_dllm_meta`. -/
def create (pageSize blockSize maxRunningRequests : Nat) (remInputTokens : Int) (offset : ℚ) :
    PrefillAdder where
  pageSize := pageSize
  dllmBlockSize := blockSize
  remDllmTokens := maxRunningRequests * blockSize
  remTotalTokenOffset := offset
  remInputTokens := remInputTokens

section
variable (self : PrefillAdder)

section
variable (availableAndEvictable : Nat)

/-- What is left of the slots that are free or evictable. -/
def remTotalTokens : ℚ :=
  availableAndEvictable - self.remTotalTokenOffset

def curRemTokens : ℚ :=
  availableAndEvictable - self.curRemTokenOffset

def ceilPagedTokens (tokens : Int) : Int := -(-tokens / self.pageSize) * self.pageSize

def updatePrefillBudget (extendInputLen : Int) (maxNewTokens : Nat) : PrefillAdder :=
  let extendInputLen := self.ceilPagedTokens extendInputLen
  { self with
    remTotalTokenOffset := self.remTotalTokenOffset + extendInputLen + maxNewTokens + self.pageSize
    curRemTokenOffset := self.curRemTokenOffset + extendInputLen + self.pageSize
    remInputTokens := self.remInputTokens - extendInputLen
    remDllmTokens := self.remDllmTokens - extendInputLen }

def getDllmRemainTokens : Int :=
  let remTokens :=
    min (min self.remDllmTokens self.dllmBlockSize)
    (toInt (self.remTotalTokens availableAndEvictable))
  if remTokens ≤ 0 then self.remDllmTokens else remTokens

/-- The input of a request is cut after a number of tokens, and the request runs. -/
def run (req : DllmReq) (prefixLen : Nat) (extendInputLen : Int) : PrefillAdder :=
  { self with canRunList := self.canRunList ++
      [{req with extendInputLen := extendInputLen.toNat, fillIds := req.fillIds.take (prefixLen + extendInputLen.toNat)}] }

def addDllmReq (req : DllmReq) (prefixLen : Nat) : PrefillAdder :=
  let truncLen := min self.remDllmTokens self.dllmBlockSize
  (self.run req prefixLen truncLen).updatePrefillBudget truncLen 0

def addDllmStagingReq (req : DllmReq) : PrefillAdder × AddReqResult :=
  let remTokens := self.getDllmRemainTokens availableAndEvictable
  if remTokens ≤ 0 then (self, .noToken)
  else
    let truncated := (req.extendInputLen : Int) > remTokens
    let extendInputLen := min (req.extendInputLen : Int) remTokens
    let maxNewTokens := if truncated then 0 else min req.maxNewTokens self.clipMaxNewTokens
    let self :=
      (self.run req req.prefixIndices.length extendInputLen).updatePrefillBudget
      extendInputLen maxNewTokens
    (self, if self.getDllmRemainTokens availableAndEvictable ≤ 0 then .noToken else .continue)

def budgetState : AddReqResult :=
  if self.remTotalTokens availableAndEvictable ≤ 0 ∨
    self.curRemTokens availableAndEvictable ≤ 0 then .noToken
  else if self.remInputTokens ≤ 0 then .other
  else if self.remDllmTokens ≤ 0 then .other
  else .continue

end

/-- Why `add_one_req` turns a request away before it takes the lock on its prefix (with `free`
slots) and after (with `locked`). -/
def refuses (free locked : Nat) (req : DllmReq) : Option AddReqResult :=
  let maxNew := min (req.maxNewTokens - req.outputIds.length) self.clipMaxNewTokens
  let totalTokens : Int := req.extendInputLen + maxNew + self.pageSize
  if totalTokens ≥ self.remTotalTokens free then some .noToken
  else if self.ceilPagedTokens req.extendInputLen ≥ self.remInputTokens ∧
    self.canRunList ≠ [] then some .other
  else if totalTokens ≥ self.remTotalTokens locked then some .noToken
  else if self.remDllmTokens ≤ 0 then some .other
  else none

/-- `add_one_req` on a diffusion server. -/
def addOneReq (free locked : Nat) (req : DllmReq) : PrefillAdder × AddReqResult :=
  match self.refuses free locked req with
  | some result => (self, result)
  | none =>
    let self := self.addDllmReq req req.prefixIndices.length
    (self, self.budgetState locked)

/-! ### Sequences of admissions -/

/-- A staged request, or one that comes in on a prefix of the cache; with the slots that are free or
evictable when it is asked for. -/
inductive Call
  | staging (free : Nat) (req : DllmReq)
  | incoming (free locked : Nat) (req : DllmReq)

def admitCall : Call → PrefillAdder
  | .staging free req => (self.addDllmStagingReq free req).1
  | .incoming free locked req => (self.addOneReq free locked req).1

def admitAll (calls : List Call) : PrefillAdder := calls.foldl admitCall self

/-- What the scheduler asks for: a block of masks after the tokens, on a prefix that is all of them
for a staged request. -/
def Call.IsBlock (blockSize : Nat) : Call → Prop
  | .staging _ req => req.fillIds.length = req.tokens.length + blockSize ∧
      req.prefixIndices.length = req.tokens.length ∧ req.extendInputLen = blockSize
  | .incoming _ _ req =>
    req.fillIds.length = req.tokens.length + blockSize ∧
      req.prefixIndices.length ≤ req.tokens.length

instance (blockSize : Nat) : ∀ call, Decidable (Call.IsBlock blockSize call)
  | .staging _ _ => inferInstanceAs (Decidable (_ ∧ _ ∧ _))
  | .incoming _ _ _ => inferInstanceAs (Decidable (_ ∧ _))

/-- The request contributes a block. -/
def Full (blockSize : Nat) (req : DllmReq) : Prop :=
  req.extendInputLen = blockSize ∧ req.fillIds.length - req.prefixIndices.length = blockSize

/-- No budget is in the band between nothing and a block. -/
def Fits : Call → Prop
  | .staging free _ => self.remDllmTokens ≤ 0 ∨ self.dllmBlockSize ≤ self.remDllmTokens ∧
      (toInt (self.remTotalTokens free) ≤ 0 ∨ self.dllmBlockSize ≤ toInt (self.remTotalTokens free))
  | .incoming free locked req =>
    (self.refuses free locked req).isSome ∨ self.dllmBlockSize ≤ self.remDllmTokens

end

instance (self : PrefillAdder) : ∀ call, Decidable (self.Fits call)
  | .staging _ _ => inferInstanceAs (Decidable (_ ∨ _ ∧ (_ ∨ _)))
  | .incoming _ _ _ => inferInstanceAs (Decidable (_ ∨ _))

/-- Every request fits when it is asked for. -/
def AllFit (self : PrefillAdder) : List Call → Prop
  | [] => True
  | call :: calls => self.Fits call ∧ (self.admitCall call).AllFit calls

instance decidableAllFit :
    ∀ (self : PrefillAdder) (calls : List Call), Decidable (self.AllFit calls)
  | _, [] => inferInstanceAs (Decidable True)
  | self, call :: calls =>
    have := decidableAllFit (self.admitCall call) calls
    inferInstanceAs (Decidable (self.Fits call ∧ (self.admitCall call).AllFit calls))

variable {self : PrefillAdder} {free locked : Nat} {req : DllmReq}

/-! ### What one admission gives -/

section
variable (hbs : 0 < self.dllmBlockSize)
include hbs

lemma getDllmRemainTokens_pos : 0 < self.getDllmRemainTokens free ↔ 0 < self.remDllmTokens := by
  unfold getDllmRemainTokens
  simp only
  split <;> omega

lemma le_getDllmRemainTokens :
    self.dllmBlockSize ≤ self.getDllmRemainTokens free ↔ self.dllmBlockSize ≤ self.remDllmTokens ∧
      (toInt (self.remTotalTokens free) ≤ 0 ∨
      self.dllmBlockSize ≤ toInt (self.remTotalTokens free)) := by
  unfold getDllmRemainTokens
  simp only
  split <;> omega

omit hbs in
lemma full_cut {blockSize prefixLen : Nat} {n : Int} (hn : 0 ≤ n) (hle : n ≤ blockSize)
    (hpre : req.prefixIndices.length = prefixLen)
    (hfill : prefixLen + blockSize ≤ req.fillIds.length) :
    Full blockSize
    {req with extendInputLen := n.toNat, fillIds := req.fillIds.take (prefixLen + n.toNat)} ↔
      (blockSize : Int) ≤ n := by
  simp only [Full, length_take, hpre]
  omega

lemma canRunList_addDllmStagingReq (hreq : (Call.staging free req).IsBlock self.dllmBlockSize) :
    ∃ added,
    (self.addDllmStagingReq free req).1.canRunList = self.canRunList ++ added ∧
      ((∀ r ∈ added, Full self.dllmBlockSize r) ↔ self.Fits (.staging free req)) := by
  obtain ⟨hfill, hpre, hext⟩ := hreq
  have hpos : 0 < self.getDllmRemainTokens free ↔ _ := getDllmRemainTokens_pos hbs
  unfold addDllmStagingReq
  simp only
  split
  · next hno =>
    refine ⟨[], (append_nil _).symm, ?_⟩
    exact ⟨fun _ => .inl (by omega), fun _ r hr => absurd hr not_mem_nil⟩
  · next hyes =>
    refine ⟨_, rfl, ?_⟩
    rw [forall_mem_singleton, full_cut (by omega) (by omega) rfl (by omega),
      Fits, ← le_getDllmRemainTokens hbs]
    omega

lemma canRunList_addOneReq (hreq : (Call.incoming free locked req).IsBlock self.dllmBlockSize) :
    ∃ added,
    (self.addOneReq free locked req).1.canRunList = self.canRunList ++ added ∧
      ((∀ r ∈ added, Full self.dllmBlockSize r) ↔ self.Fits (.incoming free locked req)) := by
  obtain ⟨hfill, hpre⟩ := hreq
  unfold addOneReq
  split
  · next result hrefuses =>
    refine ⟨[], (append_nil _).symm, ?_⟩
    simp [Fits, hrefuses]
  rename_i hrefuses
  have hpos : 0 < self.remDllmTokens := by
    by_contra hle
    unfold refuses at hrefuses
    simp only at hrefuses
    split_ifs at hrefuses
    exact hle (by omega)
  refine ⟨_, rfl, ?_⟩
  rw [forall_mem_singleton, full_cut (by omega) (by omega) rfl (by omega), Fits, hrefuses]
  simp only [Option.isSome_none, Bool.false_eq_true, false_or]
  omega

omit hbs in
lemma dllmBlockSize_admitCall (self : PrefillAdder) (call : Call) :
    (self.admitCall call).dllmBlockSize = self.dllmBlockSize := by
  cases call with
  | staging free req =>
    simp only [admitCall, addDllmStagingReq]
    split <;> rfl
  | incoming free locked req =>
    simp only [admitCall, addOneReq]
    split <;> rfl

lemma canRunList_admitCall {call : Call} (hcall : call.IsBlock self.dllmBlockSize) :
    ∃ added, (self.admitCall call).canRunList = self.canRunList ++ added ∧
      ((∀ r ∈ added, Full self.dllmBlockSize r) ↔ self.Fits call) := by
  cases call with
  | staging free req => exact canRunList_addDllmStagingReq hbs hcall
  | incoming free locked req => exact canRunList_addOneReq hbs hcall

/-! ### Batches -/

lemma canRunList_admitAll {calls : List Call}
    (hcalls : ∀ call ∈ calls, call.IsBlock self.dllmBlockSize) :
    (∀ r ∈ (self.admitAll calls).canRunList, Full self.dllmBlockSize r) ↔
      (∀ r ∈ self.canRunList, Full self.dllmBlockSize r) ∧ self.AllFit calls := by
  induction calls generalizing self with
  | nil => exact ⟨fun h => ⟨h, trivial⟩, And.left⟩
  | cons call calls ih =>
    obtain ⟨hcall, hcalls⟩ := forall_mem_cons.mp hcalls
    obtain ⟨added, hadded, hfits⟩ := canRunList_admitCall hbs hcall
    have hsize := self.dllmBlockSize_admitCall call
    have ih := @ih (self.admitCall call) (hsize.symm ▸ hbs) (hsize.symm ▸ hcalls)
    rw [hsize, hadded, forall_mem_append, hfits, and_assoc] at ih
    exact ih

lemma admitCall_staging (hreq : (Call.staging free req).IsBlock self.dllmBlockSize)
    (hfits : self.Fits (.staging free req)) : ∃ added,
    (self.admitCall (.staging free req)).canRunList = self.canRunList ++ added ∧
    added.Sublist [req] := by
  obtain ⟨hfill, hpre, hext⟩ := hreq
  have hpos : 0 < self.getDllmRemainTokens free ↔ _ := getDllmRemainTokens_pos hbs
  have hle := @le_getDllmRemainTokens self free hbs
  simp only [admitCall, addDllmStagingReq]
  split
  · exact ⟨[], (append_nil _).symm, nil_sublist _⟩
  rename_i hyes
  have hrem : (self.dllmBlockSize : Int) ≤ self.getDllmRemainTokens free := by
    obtain hno | hfit := hfits
    · omega
    · exact hle.mpr hfit
  have hmin : (min (req.extendInputLen : Int) (self.getDllmRemainTokens free)).toNat =
    req.extendInputLen := by omega
  have htake : req.fillIds.take (req.prefixIndices.length + req.extendInputLen) = req.fillIds :=
    take_of_length_le (by omega)
  refine ⟨[req], ?_, List.Sublist.refl _⟩
  simp only [updatePrefillBudget, run, hmin, htake]

lemma admitAll_staging {reqs : List DllmReq}
    (hreqs : ∀ req ∈ reqs, (Call.staging free req).IsBlock self.dllmBlockSize)
    (hfit : self.AllFit (reqs.map (Call.staging free))) : ∃ added,
    (self.admitAll (reqs.map (Call.staging free))).canRunList = self.canRunList ++ added ∧
    added.Sublist reqs := by
  induction reqs generalizing self with
  | nil => exact ⟨[], (append_nil _).symm, .slnil⟩
  | cons req reqs ih =>
    obtain ⟨hreq, hreqs⟩ := forall_mem_cons.mp hreqs
    obtain ⟨hfits, hfit⟩ := hfit
    obtain ⟨added, hadded, hsub⟩ := admitCall_staging hbs hreq hfits
    have hsize := self.dllmBlockSize_admitCall (.staging free req)
    obtain ⟨added', hadded', hsub'⟩ :=
      @ih (self.admitCall (.staging free req)) (hsize.symm ▸ hbs) (hsize.symm ▸ hreqs) hfit
    refine ⟨added ++ added', ?_, hsub.append hsub'⟩
    rw [← append_assoc, ← hadded]
    exact hadded'

end

/-- **A denoising batch is made of whole blocks** exactly if no request meets a budget in the band.
-/
theorem full_iff_allFit {calls : List Call} (hbs : 0 < self.dllmBlockSize)
    (hempty : self.canRunList = []) (hcalls : ∀ call ∈ calls, call.IsBlock self.dllmBlockSize) :
    (∀ r ∈ (self.admitAll calls).canRunList, r.extendInputLen = self.dllmBlockSize ∧
      r.fillIds.length - r.prefixIndices.length = self.dllmBlockSize) ↔ self.AllFit calls := by
  have h := canRunList_admitAll hbs hcalls
  rw [hempty] at h
  exact h.trans (and_iff_right fun r hr => absurd hr not_mem_nil)

/-- A request of two tokens, staged with a block of three masks. -/
def stagedReq : DllmReq where
  originInputIds := [7, 8]
  fillIds := [7, 8, 0, 0, 0]
  row := some [1, 2]
  prefixIndices := [1, 2]
  maxNewTokens := 1
  extendInputLen := 3

/-- With ten free slots two blocks of three are admitted, then the batch is full. -/
theorem full_of_free_slots : let calls : List Call :=
  [.staging 10 stagedReq, .incoming 10 10 stagedReq, .staging 10 stagedReq]
    ((create 1 3 2 100 0).admitAll calls).canRunList.length = 2 ∧
      ∀ r ∈ ((create 1 3 2 100 0).admitAll calls).canRunList, r.extendInputLen = 3 ∧
        r.fillIds.length - r.prefixIndices.length = 3 := by
  intro calls
  have hcalls : ∀ call ∈ calls, call.IsBlock 3 := by decide +kernel
  exact ⟨by decide +kernel, (@full_iff_allFit (create 1 3 2 100 0) calls (by decide) rfl hcalls).mpr (by decide +kernel)⟩

/-- With two free slots the block of three is cut to two. -/
theorem cut_block : (Call.staging 2 stagedReq).IsBlock 3 ∧
    ((create 1 3 1 100 0).admitAll [.staging 2 stagedReq]).canRunList =
      [{stagedReq with extendInputLen := 2, fillIds := [7, 8, 0, 0]}] := by
  decide +kernel

end PrefillAdder

end Sglang.Dllm
