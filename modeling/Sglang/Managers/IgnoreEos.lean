import Sglang.Managers.PrefillBudget

/-! Requests that ignore the end of the text.

Such a request runs for as many tokens as it asks for, so the adder can tell when each registered
request ends and gives its slots back. It keeps of each the tokens it has left and the tokens it
occupies, and admits a request if at every such end there is room for those that still run. The list
is built and sorted once; later requests are inserted. -/
namespace Sglang.Managers.PrefillAdder

open List MemCache

variable {cur t : ℚ} {s : ℚ × Nat} {l states : List (ℚ × Nat)} {freed : Nat}

/-! ### What a fold that does not fail promises -/

/-- The requests that have more than `t` tokens to produce. -/
def running (t : ℚ) (l : List (ℚ × Nat)) : List (ℚ × Nat) := l.filter fun s => t < s.1

def ended (t : ℚ) (l : List (ℚ × Nat)) : List (ℚ × Nat) := l.filter fun s => s.1 ≤ t

def released (t : ℚ) (l : List (ℚ × Nat)) : ℚ := ((ended t l).map fun s => (s.2 : ℚ)).sum

lemma occupied_nonneg (l : List (ℚ × Nat)) : 0 ≤ (l.map fun s => (s.2 : ℚ)).sum := by
  refine sum_nonneg fun x hx => ?_
  obtain ⟨y, -, rfl⟩ := mem_map.mp hx
  exact Nat.cast_nonneg _

lemma ended_cons_of_lt (h : t < s.1) : ended t (s :: l) = ended t l := by
  simp [ended, h]

lemma ended_cons_of_le (h : s.1 ≤ t) : ended t (s :: l) = s :: ended t l := by
  simp [ended, h]

lemma running_cons_of_lt (h : t < s.1) :
    running t (s :: l) = s :: running t l ∧ released t (s :: l) = released t l := by
  simp [running, released, ended_cons_of_lt h, h]

lemma running_cons_of_le (h : s.1 ≤ t) :
    running t (s :: l) = running t l ∧ released t (s :: l) = s.2 + released t l := by
  simp [running, released, ended_cons_of_le h, not_lt.mpr h]

/-- Requests that decode in lock step. -/
structure Decoding where
  freeTokens : ℚ
  steps : Nat
  live : List (ℚ × Nat)

namespace Decoding

/-- Who has nothing left to produce ends at once. -/
def start (cur : ℚ) (states : List (ℚ × Nat)) : Decoding :=
  ⟨cur + released 0 states, 0, running 0 states⟩

/-- The free tokens in a step: each request has taken one, and none has ended. -/
def lowest (d : Decoding) : ℚ := d.freeTokens - d.live.length

/-- A request that has produced its tokens gives back what it occupied and what it has generated. -/
def step (d : Decoding) : Decoding where
  freeTokens :=
    d.lowest + ((ended (d.steps + 1 : Nat) d.live).map fun s => (s.2 + (d.steps + 1) : ℚ)).sum
  steps := d.steps + 1
  live := running (d.steps + 1 : Nat) d.live

/-- The requests that have ended hold nothing, the others a token for each step. -/
lemma step_iterate (cur : ℚ) (states : List (ℚ × Nat)) (n : Nat) : step^[n] (start cur states) =
    ⟨cur + released n states - n * (running n states).length, n, running n states⟩ := by
  induction n with
  | zero => simp [start]
  | succ n ih =>
    rw [Function.iterate_succ_apply', ih]
    -- the books of one step, request by request
    have hbooks : running (n + 1 : Nat) (running n states) = running (n + 1 : Nat) states ∧
        released n states - n * (running n states).length - (running n states).length +
          ((ended (n + 1 : Nat) (running n states)).map fun s => (s.2 + (n + 1) : ℚ)).sum =
        released (n + 1 : Nat) states - (n + 1 : Nat) * (running (n + 1 : Nat) states).length := by
      clear ih
      push_cast
      induction states with
      | nil => simp [running, ended, released]
      | cons s states ih =>
        obtain ⟨ihlive, ih⟩ := ih
        rcases lt_or_ge (n : ℚ) s.1 with hn | hn
        · rw [(running_cons_of_lt hn).1, (running_cons_of_lt hn).2]
          rcases lt_or_ge ((n : ℚ) + 1) s.1 with hn' | hn'
          · rw [(running_cons_of_lt hn').1, (running_cons_of_lt hn').1,
              (running_cons_of_lt hn').2, ihlive, ended_cons_of_lt hn']
            simp only [length_cons, Nat.cast_succ, true_and]
            linarith
          · rw [(running_cons_of_le hn').1, (running_cons_of_le hn').1,
              (running_cons_of_le hn').2, ihlive, ended_cons_of_le hn']
            simp only [length_cons, Nat.cast_succ, map_cons, sum_cons, true_and]
            linarith
        · have hn' : s.1 ≤ (n : ℚ) + 1 := by linarith
          rw [(running_cons_of_le hn).1, (running_cons_of_le hn).2, (running_cons_of_le hn').1,
            (running_cons_of_le hn').2]
          exact ⟨ihlive, by linarith⟩
    simp only [step, lowest, hbooks.1, Decoding.mk.injEq, and_true]
    linarith [hbooks.2]

end Decoding

/-- At the first request of the list that still runs, all before it have ended. -/
lemma lt_of_not_runsOut_running (h : runsOut cur l freed = false) (ht : 0 ≤ t)
    (hrunning : running t l ≠ []) :
    (t + 1) * (running t l).length < cur + freed + released t l := by
  induction l generalizing freed with
  | nil => exact absurd rfl hrunning
  | cons s rest ih =>
    rw [runsOut, Bool.or_eq_false_iff, decide_eq_false_iff_not, not_le] at h
    obtain ⟨hhead, hrest⟩ := h
    rcases lt_or_ge t s.1 with hs | hs
    · have hlen : ((running t (s :: rest)).length : ℚ) ≤ (rest.length + 1 : Nat) := by
        exact_mod_cast length_filter_le _ _
      have hended : 0 ≤ released t (s :: rest) := occupied_nonneg _
      have hmul := mul_le_mul (add_le_add_left hs.le 1) hlen (Nat.cast_nonneg _) (by linarith)
      simp only [ignoreEosReserveTokens, Nat.cast_one, one_mul] at hhead
      linarith
    · rw [(running_cons_of_le hs).1] at hrunning ⊢
      rw [(running_cons_of_le hs).2]
      have hlt := ih hrest hrunning
      push_cast at hlt
      linarith

/-- **Admission of requests that ignore the end of the text is sound.** If the fold over the
registered requests does not fail, in whatever order they are listed, there is always a free token
while they decode to their ends. -/
theorem ignoreEos_admission_sound (cur : ℚ) (states : List (ℚ × Nat))
    (h : runsOut cur states 0 = false) (n : Nat)
    (hlive : (Decoding.step^[n] (.start cur states)).live ≠ []) :
    0 < (Decoding.step^[n] (.start cur states)).lowest ∧
    0 < (Decoding.step^[n] (.start cur states)).freeTokens := by
  rw [Decoding.step_iterate] at hlive ⊢
  have hlt := lt_of_not_runsOut_running h n.cast_nonneg hlive
  rw [Nat.cast_zero, add_zero] at hlt
  unfold Decoding.lowest
  constructor <;> dsimp only <;> linarith

/-- Two requests, the longer one first: after two steps the second ends. -/
theorem ignoreEos_admission_sound_two_requests : runsOut 13 [(5, 1), (2, 4)] 0 = false ∧
    (Decoding.step^[3] (.start 13 [(5, 1), (2, 4)])).live = [(5, 1)] ∧
    0 < (Decoding.step^[3] (.start 13 [(5, 1), (2, 4)])).lowest := by
  have hlive : (Decoding.step^[3] (.start 13 [(5, 1), (2, 4)])).live = [(5, 1)] := by
    rw [Decoding.step_iterate]
    decide +kernel
  have hruns : runsOut 13 [(5, 1), (2, 4)] 0 = false := by decide +kernel
  exact ⟨hruns, hlive,
    (ignoreEos_admission_sound 13 _ hruns 3 (by rw [hlive]; exact cons_ne_nil _ _)).1⟩

/-! ### The list of the registered requests -/

variable {x : ℚ × Nat} {states' : List (ℚ × Nat)}

section
variable (states : List (ℚ × Nat))

def Sorted : Prop := states.Pairwise fun s t => s.1 ≤ t.1

def sortStates : List (ℚ × Nat) := states.mergeSort fun s t => s.1 ≤ t.1

lemma sorted_sortStates : Sorted (sortStates states) := by
  have h := @pairwise_mergeSort _ (fun s t : ℚ × Nat => decide (s.1 ≤ t.1))
    (fun _ _ _ hst htu => by simp only [decide_eq_true_eq] at *; exact hst.trans htu)
    (fun s t => by simpa using le_total s.1 t.1) states
  exact h.imp of_decide_eq_true

/-- The new entry goes in front of the first that is as large, or of the last one. -/
lemma insertState_cons (x : ℚ × Nat) (states : List (ℚ × Nat)) (s : ℚ × Nat) :
    insertState (x :: states) s = if s.1 ≤ x.1 ∨ states = [] then s :: x :: states
    else x :: insertState states s := by
  unfold insertState
  by_cases hx : s.1 ≤ x.1
  · simp [findIdx?_cons, hx]
  cases states with
  | nil => simp [findIdx?_cons, hx]
  | cons y states =>
    have hidx : ((y :: states).findIdx? (s.1 ≤ ·.1) |>.map (· + 1)).getD (states.length + 1) =
        ((y :: states).findIdx? (s.1 ≤ ·.1)).getD states.length + 1 := by
      cases (y :: states).findIdx? (s.1 ≤ ·.1) <;> rfl
    rw [findIdx?_cons, if_neg (by simpa using hx), if_neg (by simp [hx])]
    simp only [length_cons, Nat.add_sub_cancel]
    rw [hidx, insertIdx_succ_cons]

lemma insertState_perm (s : ℚ × Nat) : (insertState states s).Perm (s :: states) := by
  induction states with
  | nil => exact .refl _
  | cons x states ih =>
    rw [insertState_cons]
    split
    · exact .refl _
    · exact (ih.cons x).trans (.swap s x states)

end

/-- A sorted list stays sorted unless the new entry is larger than all that are there. -/
lemma sorted_insertState (h : Sorted states) :
    Sorted (insertState states s) ↔ states = [] ∨ ∃ x ∈ states, s.1 ≤ x.1 := by
  induction states with
  | nil => simp [Sorted, insertState]
  | cons x states ih =>
    obtain ⟨hx, hstates⟩ := pairwise_cons.mp h
    rw [insertState_cons]
    by_cases hsx : s.1 ≤ x.1
    · rw [if_pos (.inl hsx)]
      refine iff_of_true (pairwise_cons.mpr ⟨fun y hy => ?_, h⟩) (.inr ⟨x, mem_cons_self, hsx⟩)
      rcases mem_cons.mp hy with rfl | hy
      · exact hsx
      · exact hsx.trans (hx y hy)
    · cases states with
      | nil => simp [Sorted, hsx]
      | cons y states =>
        rw [if_neg (by simp [hsx]), Sorted, pairwise_cons, ← Sorted, ih hstates]
        have hfirst : ∀ z ∈ insertState (y :: states) s, x.1 ≤ z.1 := by
          intro z hz
          rcases mem_cons.mp ((insertState_perm _ s).mem_iff.mp hz) with rfl | hz
          · exact (not_le.mp hsx).le
          · exact hx z hz
        rw [and_iff_right hfirst, exists_mem_cons_iff]
        simp [hsx]

/-- The fold over a sorted list asks, for each request, about all that end with it or later. -/
lemma runsOut_eq_false_iff (h : Sorted l) (hpos : ∀ s ∈ l, 0 < s.1) : runsOut cur l freed = false ↔
    ∀ s ∈ l, (s.1 + 1) * (l.filter fun x => s.1 ≤ x.1).length <
      cur + freed + ((l.filter fun x => x.1 < s.1).map fun x => (x.2 : ℚ)).sum := by
  induction l generalizing freed with
  | nil => simp [runsOut]
  | cons x rest ih =>
    obtain ⟨hx, hrest⟩ := pairwise_cons.mp h
    have hall : (x :: rest).filter (fun y => x.1 ≤ y.1) = x :: rest :=
      filter_eq_self.mpr (by simpa using hx)
    have hnone : (x :: rest).filter (fun y => y.1 < x.1) = [] :=
      filter_eq_nil_iff.mpr (by simpa using hx)
    have hxpos := hpos x mem_cons_self
    rw [runsOut, Bool.or_eq_false_iff, ih hrest fun s hs => hpos s (mem_cons_of_mem _ hs),
      forall_mem_cons, hall, hnone,
      decide_eq_false_iff_not, not_le]
    have hhead :
      (ignoreEosReserveTokens : ℚ) * (rest.length + 1 : Nat) <
      cur + freed - x.1 * (rest.length + 1 : Nat) ↔
        (x.1 + 1) * (x :: rest).length <
        cur + freed + (map (fun y : ℚ × Nat => (y.2 : ℚ)) []).sum := by
      simp only [ignoreEosReserveTokens, length_cons, map_nil, sum_nil]
      push_cast
      constructor <;> intro <;> linarith
    rw [hhead]
    refine and_congr_right fun hfirst => forall₂_congr fun s hs => ?_
    rcases (hx s hs).eq_or_lt with heq | hlt
    · -- a request that ends with the first one asks for less
      have hlen : ((rest.filter fun y => s.1 ≤ y.1).length : ℚ) ≤ (x :: rest).length := by
        exact_mod_cast (length_filter_le _ rest).trans (Nat.le_succ _)
      have hmul := mul_le_mul_of_nonneg_left hlen (by linarith : 0 ≤ x.1 + 1)
      have hsum := occupied_nonneg (rest.filter fun y => y.1 < s.1)
      rw [← heq] at hlen hmul hsum ⊢
      rw [hall, hnone]
      refine iff_of_true ?_ hfirst
      simp only [map_nil, sum_nil] at hfirst
      push_cast
      linarith
    · rw [filter_cons_of_neg (by simpa using hlt), filter_cons_of_pos (by simpa using hlt),
        map_cons, sum_cons]
      push_cast
      rw [add_assoc, add_assoc, add_assoc]

/-- How entries that are equally large are ordered does not matter. -/
lemma runsOut_congr (h : Sorted states) (h' : Sorted states') (hperm : states.Perm states')
    (hpos : ∀ s ∈ states, 0 < s.1) :
    runsOut cur states freed = runsOut cur states' freed := by
  rw [Bool.eq_iff_iff, ← not_iff_not, Bool.not_eq_true, Bool.not_eq_true,
    runsOut_eq_false_iff h hpos,
    runsOut_eq_false_iff h' fun s hs => hpos s (hperm.mem_iff.mpr hs)]
  refine forall_congr' fun s => imp_congr hperm.mem_iff ?_
  rw [(hperm.filter _).length_eq, ((hperm.filter _).map _).sum_eq]

/-! ### Requests offered one after the other -/

/-- A call of `add_one_req_ignore_eos`, with the memory at that time. -/
structure Call where
  cache : RadixCache
  allocator : KvAllocator
  req : PrefillReq

/-- The adder, with the requests it has registered. -/
structure Offered where
  adder : PrefillAdder
  registered : List PrefillReq := []

namespace Offered

/-- The call gets as far as to register its request. -/
def Registers (o : Offered) (call : Call) : Prop :=
  o.adder.ceilPagedTokens call.req.extendInputLen ≤
    min (o.adder.curRemTokens call.cache call.allocator)
      (o.adder.remTotalTokens call.cache call.allocator)

instance (o : Offered) (call : Call) : Decidable (o.Registers call) :=
  inferInstanceAs (Decidable (_ ≤ _))

/-- The first call registers the running and the admitted requests too. -/
def offer (o : Offered) (call : Call) : Offered where
  adder := (o.adder.addOneReqIgnoreEos call.cache call.allocator call.req).1
  registered :=
    if o.Registers call then
      if o.adder.reqStates.isSome then call.req :: o.registered
      else call.req :: o.adder.runningBatch ++ o.adder.canRunList
    else o.registered

def run (p : PrefillAdder) (calls : List Call) : Offered := calls.foldl offer {adder := p}

/-- The list is sorted and has the states of the registered requests, and the fold over it decides
as one over a list that is built from them in any order and sorted. -/
def Agrees (o : Offered) : Prop := ∀ states, o.adder.reqStates = some states →
  Sorted states ∧ states.Perm (o.registered.filterMap o.adder.reqState) ∧
    ∀ (reqs : List PrefillReq) (cur : ℚ), reqs.Perm o.registered →
    runsOut cur states 0 = runsOut cur (sortStates (reqs.filterMap o.adder.reqState)) 0

/-- The list is empty when the request is inserted, or has an entry as large as that of the request.
-/
def Placed (o : Offered) (call : Call) : Prop :=
  o.Registers call → ∀ states, o.adder.reqStates = some states →
  ∀ s, o.adder.reqState call.req = some s → states = [] ∨ ∃ x ∈ states, s.1 ≤ x.1

variable {o : Offered} {call : Call} {p : PrefillAdder}

lemma agrees_of_sorted (h : ∀ states, o.adder.reqStates = some states →
    Sorted states ∧ states.Perm (o.registered.filterMap o.adder.reqState)) : o.Agrees := by
  intro states hstates
  obtain ⟨hsorted, hperm⟩ := h states hstates
  refine ⟨hsorted, hperm, fun reqs cur hreqs => ?_⟩
  have hsort : states.Perm (sortStates (reqs.filterMap o.adder.reqState)) :=
    hperm.trans ((hreqs.symm.filterMap _).trans (mergeSort_perm _ _).symm)
  refine runsOut_congr hsorted (sorted_sortStates _) hsort fun s hs => ?_
  obtain ⟨r, -, hr⟩ := mem_filterMap.mp (hperm.mem_iff.mp hs)
  exact reqState_pos hr

/-- A call that registers nothing changes nothing, any other sets the list. -/
lemma offer_adder (o : Offered) (call : Call) :
    (o.offer call).adder.newTokenRatio = o.adder.newTokenRatio ∧
    (o.offer call).adder.reqStates = if o.Registers call then some (o.adder.addReqState call.req)
    else o.adder.reqStates := by
  simp only [offer, addOneReqIgnoreEos]
  by_cases hfits : o.Registers call
  · rw [if_pos hfits, if_neg (not_lt.mpr hfits)]
    split
    · exact ⟨rfl, rfl⟩
    · split
      · exact ⟨rfl, rfl⟩
      · split <;> exact ⟨rfl, rfl⟩
  · rw [if_neg hfits, if_pos (not_le.mp hfits)]
    exact ⟨rfl, rfl⟩

lemma reqState_offer (o : Offered) (call : Call) :
    (o.offer call).adder.reqState = o.adder.reqState := by
  funext r
  simp only [reqState, (offer_adder o call).1]

lemma agrees_offer (h : o.Agrees) : (o.offer call).Agrees ↔ o.Placed call := by
  have hstates := (offer_adder o call).2
  by_cases hregisters : o.Registers call
  · rw [if_pos hregisters] at hstates
    cases hold : o.adder.reqStates with
    | none =>
      refine iff_of_true (agrees_of_sorted fun states hs => ?_) fun _ states hs => by
        simp [hold] at hs
      cases hstates.symm.trans hs
      rw [reqState_offer]
      simp only [addReqState, hold, offer, hregisters, Option.isSome_none, if_true]
      exact ⟨sorted_sortStates _, mergeSort_perm _ _⟩
    | some states =>
      obtain ⟨hsorted, hperm, -⟩ := h states hold
      have hreg : (o.offer call).registered = call.req :: o.registered := by
        simp [offer, hregisters, hold]
      cases hreq : o.adder.reqState call.req with
      | none =>
        refine iff_of_true (agrees_of_sorted fun states' hs => ?_) fun _ _ _ s hs => by
          simp [hreq] at hs
        cases hstates.symm.trans hs
        rw [hreg, reqState_offer, filterMap_cons_none hreq]
        simpa only [addReqState, hold, hreq, Option.elim] using ⟨hsorted, hperm⟩
      | some s =>
        have hnew : o.adder.addReqState call.req = insertState states s := by
          simp [addReqState, hold, hreq]
        rw [hnew] at hstates
        constructor
        · intro hagrees _ states' hs s' hs'
          cases hold.symm.trans hs
          cases hreq.symm.trans hs'
          exact (sorted_insertState hsorted).mp (hagrees _ hstates).1
        · intro hplaced
          refine agrees_of_sorted fun states' hs => ?_
          cases hstates.symm.trans hs
          rw [hreg, reqState_offer, filterMap_cons_some hreq]
          exact ⟨(sorted_insertState hsorted).mpr (hplaced hregisters states hold s hreq),
            (insertState_perm states s).trans (hperm.cons s)⟩
  · rw [if_neg hregisters] at hstates
    refine iff_of_true (agrees_of_sorted fun states hs => ?_) fun hr => absurd hr hregisters
    obtain ⟨hsorted, hperm, -⟩ := h states (hstates.symm.trans hs)
    rw [reqState_offer]
    simpa only [offer, hregisters, if_false] using ⟨hsorted, hperm⟩

lemma run_succ {calls : List Call} {n : Nat} (hn : calls[n]? = some call) :
    run p (calls.take (n + 1)) = (run p (calls.take n)).offer call := by
  rw [run, take_add_one, hn, Option.toList_some, foldl_concat]
  rfl

/-- **The list of the registered requests is right after every call exactly if each request that is
inserted finds one that has as much left to produce.** -/
theorem incremental_admission_iff (p : PrefillAdder) (hp : p.reqStates = none) (calls : List Call) :
    (∀ n, (run p (calls.take n)).Agrees) ↔ ∀ n call, calls[n]? = some call →
    (run p (calls.take n)).Placed call := by
  constructor
  · intro hagrees n call hn
    have hnext := hagrees (n + 1)
    rw [run_succ hn] at hnext
    exact (agrees_offer (hagrees n)).mp hnext
  · intro hplaced n
    induction n with
    | zero => exact fun states hs => absurd (hp.symm.trans hs) (by simp)
    | succ n ih =>
      cases hn : calls[n]? with
      | none =>
        rw [take_add_one, hn, Option.toList_none, append_nil]
        exact ih
      | some call =>
        rw [run_succ hn]
        exact (agrees_offer ih).mpr (hplaced n call hn)

/-- An adder for a pool of a hundred slots, and requests that ask for `n` tokens. -/
def freshAdder : PrefillAdder := AdderParams.adder {remInputTokens := 1000} 1

def asks (n : Nat) : Call where
  cache := .create {pageSize := 1, pageSize_pos := Nat.one_pos, disable := true} 0
  allocator := .create 100 1 false
  req := {originInputIds := [1], extendInputLen := 1, maxNewTokens := n, ignoreEos := true}

lemma reqState_asks (p : PrefillAdder) {n : Nat} (hn : 0 < n) :
    p.reqState (asks n).req = some ((n : ℚ), 1) := by
  simp [reqState, asks, hn.ne']

lemma run_asks_five : let p := (run freshAdder [asks 5]).adder
    p.curRemTokenOffset = 2 ∧ p.remTotalTokenOffset = 7 ∧ p.reqStates = some [(5, 1)] ∧
      p.pageSize = 1 := by
  have hstates : freshAdder.addReqState (asks 5).req = [(5, 1)] := by
    simp [addReqState, show freshAdder.reqStates = none from rfl,
      show freshAdder.runningBatch = [] from rfl,
      show freshAdder.canRunList = [] from rfl, reqState_asks]
  simp only [run, foldl_cons, foldl_nil, offer, addOneReqIgnoreEos, hstates]
  rw [if_neg (by decide +kernel), if_neg (by decide +kernel)]
  decide +kernel

lemma run_asks_five_then {n : Nat} (hn : 0 < n) :
    (run freshAdder [asks 5, asks n]).adder.reqStates =
    some (insertState [(5, 1)] ((n : ℚ), 1)) := by
  obtain ⟨hcur, htotal, hstates, hpage⟩ := run_asks_five
  have hregisters : (run freshAdder [asks 5]).Registers (asks n) := by
    have hfree : availableAndEvictable (asks n).cache (asks n).allocator = 100 := by
      show availableAndEvictable (asks 0).cache (asks 0).allocator = 100
      decide +kernel
    have hlen : (asks n).req.extendInputLen = 1 := rfl
    norm_num [Registers, ceilPagedTokens, curRemTokens, remTotalTokens,
      hcur, htotal, hpage, hfree, hlen]
  refine (offer_adder (run freshAdder [asks 5]) (asks n)).2.trans ?_
  rw [if_pos hregisters, addReqState, hstates]
  simp [reqState_asks _ hn]

theorem incremental_admission_iff_falling :
    (∀ n, (run freshAdder ([asks 5, asks 3].take n)).Agrees) ∧
    (run freshAdder [asks 5, asks 3]).adder.reqStates = some [(3, 1), (5, 1)] := by
  refine ⟨(incremental_admission_iff freshAdder rfl _).mpr fun n call hcall => ?_,
    (run_asks_five_then (by decide)).trans (by decide +kernel)⟩
  match n, hcall with
  | 0, _ => exact fun _ states hs => by cases hs
  | 1, hcall =>
    cases hcall
    intro _ states hs s hreq
    cases run_asks_five.2.2.1.symm.trans hs
    cases (reqState_asks _ (by decide)).symm.trans hreq
    exact .inr ⟨(5, 1), mem_singleton.mpr rfl, by norm_num⟩

/-- Seven tokens after five: the entry is put in front of the smaller one. -/
theorem larger_request_misplaced : freshAdder.reqStates = none ∧
    (run freshAdder [asks 5, asks 7]).adder.reqStates = some [(7, 1), (5, 1)] ∧
    ¬ (run freshAdder [asks 5, asks 7]).Agrees := by
  have hstates : (run freshAdder [asks 5, asks 7]).adder.reqStates = some [(7, 1), (5, 1)] :=
    (run_asks_five_then (by decide)).trans (by decide +kernel)
  refine ⟨rfl, hstates, fun hagrees => ?_⟩
  have hsorted := (hagrees _ hstates).1
  norm_num [Sorted] at hsorted

end Offered

end Sglang.Managers.PrefillAdder
