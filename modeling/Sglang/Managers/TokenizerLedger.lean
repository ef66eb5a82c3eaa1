import Mathlib.Data.Multiset.Count
import Sglang.Lib.Runs
import Sglang.Managers.TokenizerManager

/-! Request states and adapter references are given back exactly once.

All that concerns one request is its `View`: its state, whether it is in `rid_to_state`, and how
often it was removed, referenced and released. A run keeps every view in order if its steps are
`Tame`. The steps that are not are those after which nobody is left to clean up (a call that fails
once its states exist, an abort without a server error), those that clean up twice (a finish with a
server error), parallel sampling, and the unregistering of an adapter whose ID was looked up and not
yet counted. -/
namespace Sglang.Managers.Tokenizer

open List Option Function

open TokenizerManager Sglang.Managers.Tokenizer.FinishReason

structure View where
  state : ReqState
  lora : Bool
  entry : Bool
  removals : Nat
  acquires : LoraId → Nat
  releases : LoraId → Nat
  tasks : LoraId → Nat

namespace View

/-- The reference of the request is the one its state names. -/
structure Settled (v : View) : Prop where
  acquires : ∀ id, v.acquires id = if v.state.loraId = some id then 1 else 0
  lora : v.state.loraId.isSome → v.lora = true ∧ v.state.loraPath.isSome

/-- A request that is held is registered and keeps its references; one that is not has given them
back. -/
structure Kept (v : View) : Prop where
  held : v.state.holder ≠ .nobody → v.entry = true ∧ v.removals = 0 ∧ ∀ id, v.releases id = 0 ∧
    v.tasks id = 0
  gone : v.state.holder = .nobody → v.entry = false ∧ v.removals = 1 ∧
    ∀ id, v.releases id + v.tasks id = v.acquires id
  once : ∀ id, v.acquires id ≤ 1
  unfinished : (∃ c, v.state.holder = .call c) ∨ v.state.holder = .scheduler →
    v.state.finishReason = none
  idle : ∀ c, v.state.holder = .call c → v.state.waiting = false
  waiter : v.state.holder = .waiter → v.state.waiting = true ∧
    ∃ reason, v.state.finishReason = some reason ∧ reason.serverError
  failed : ∀ reason, v.state.waiting = true → v.state.finishReason = some reason →
    reason.serverError → v.state.holder = .waiter
  settled : (∀ c, v.state.holder ≠ .call c) → v.Settled

/-- No more references are given back than were taken. -/
lemma Kept.released_le {v : View} (h : v.Kept) (id : LoraId) :
    v.releases id + v.tasks id ≤ v.acquires id := by
  by_cases hgone : v.state.holder = .nobody
  · exact ((h.gone hgone).2.2 id).le
  · simp [(h.held hgone).2.2 id]

end View

namespace TokenizerManager

section
variable (m : TokenizerManager)

def view (s : StateId) : View where
  state := m.states s
  lora := m.enableLora
  entry := decide (m.ridToState (m.states s).rid = some s)
  removals := m.removals.count s
  acquires id := m.acquires.count (s, id)
  releases id := m.releases.count (s, id)
  tasks id := m.releaseTasks.count (s, id)

/-- How many of the references are to an adapter. -/
def countId (uses : List (StateId × LoraId)) (id : LoraId) : Nat := uses.countP (·.2 = id)

@[simp] lemma countId_append (uses uses' : List (StateId × LoraId)) (id : LoraId) :
    countId (uses ++ uses') id = countId uses id + countId uses' id := countP_append

@[simp] lemma countId_singleton (use : StateId × LoraId) (id : LoraId) :
    countId [use] id = if use.2 = id then 1 else 0 := by
  simp [countId, countP_singleton]

/-- What is known of a call, by how far it has come. -/
def StageOk (call : Call) : Prop :=
  match call.pc with
  | .resolving => ∀ (i : Nat) (s : StateId), call.items[i]? = some s →
      (m.states s).loraPath = ((call.loraPath.getD [])[i]?).join ∧ (m.states s).loraId = none ∧
      ∀ id, (m.view s).acquires id = 0
  | .incrementing k => m.enableLora = true ∧ call.loraId.length = call.items.length ∧
      (∀ (i : Nat) (s : StateId), call.items[i]? = some s →
        (m.states s).loraPath.isSome = (call.loraId[i]?).join.isSome ∧
          ∀ id, (m.view s).acquires id = if i < k ∧ call.loraId[i]? = some (some id) then 1
          else 0) ∧
      ∀ id, some id ∈ call.loraId.drop k → ∃ ref ∈ m.registry, ref.loraId = id
  | .sending k => ∀ s ∈ call.items.drop k, (m.view s).Settled
  | .caching _ _ => False
  | .waiting => True
  | .failed => False

structure CallOk (m : TokenizerManager) (c : CallId) : Prop where
  single : (m.calls c).parallelSampleNum = 1
  nodup : (m.calls c).items.Nodup
  lt : ∀ s ∈ (m.calls c).items, s < m.numStates
  unsent : ∀ s ∈ (m.calls c).unsent, (m.states s).holder = .call c
  names : ∀ names, (m.calls c).loraPath = some names → m.enableLora = true ∧
    names.length = (m.calls c).items.length
  stage : m.StageOk (m.calls c)

/-- The counters and the registry. -/
structure Books (m : TokenizerManager) : Prop where
  mapped : ∀ rid s, m.ridToState rid = some s → s < m.numStates ∧ (m.states s).rid = rid
  removals : ∀ s ∈ m.removals, s < m.numStates
  uses : ∀ use ∈ m.acquires ++ m.releases ++ m.releaseTasks, use.1 < m.numStates
  counter : ∀ id v, m.counters id = some v → v = countId m.acquires id - countId m.releases id
  known : ∀ use ∈ m.acquires, m.counters use.2 ≠ none ∨ use.2 ∈ m.unloaded
  outstanding : ∀ use, m.releases.count use < m.acquires.count use → m.counters use.2 ≠ none
  registered : ∀ ref ∈ m.registry, m.counters ref.loraId ≠ none
  nodup : (m.registry.map (·.loraId)).Nodup
  unloading : ∀ id, m.unloading = some id → m.counters id ≠ none ∧
    ∀ ref ∈ m.registry, ref.loraId ≠ id
  unloaded : ∀ id ∈ m.unloaded, m.counters id = none

structure Inv (m : TokenizerManager) : Prop where
  kept : ∀ s < m.numStates, (m.view s).Kept
  calls : ∀ c < m.numCalls, m.CallOk c
  books : m.Books

/-- No call has looked the adapter up without having taken its reference. -/
def Counted (id : LoraId) : Prop :=
  ∀ c < m.numCalls, ∀ k, (m.calls c).pc = .incrementing k → some id ∉ (m.calls c).loraId.drop k

/-- The steps that clean up after themselves. -/
def Tame : Event → Prop
  | .generateRequest batchSize parallelSampleNum rids loraPath _ =>
    parallelSampleNum = 1 ∧ rids.length = batchSize ∧ rids.Nodup ∧
      (∀ rid ∈ rids, m.ridToState rid = none) ∧
      ∀ names, loraPath = some names → m.enableLora = true ∧ names.length = batchSize
  | .acquireLookup c =>
    ∀ names, (m.calls c).loraPath = some names → ∀ name, some name ∈ names →
      ∃ ref ∈ m.registry, ref.loraName = name
  | .fail _ => False
  | .batchOutput s reason => reason.serverError = false ∨ (m.states s).waiting = false
  | .abortReq s statusCode => (m.states s).waiting = true ∧ (abort statusCode).serverError = true
  | .unload name => ∀ ref ∈ m.registry, ref.loraName = name → m.Counted ref.loraId
  | .evictLru => ∀ ref ∈ m.registry, m.lruLoraName = some ref.loraName → m.Counted ref.loraId
  | _ => True

end

/-! ### Frames -/

variable {m m' : TokenizerManager} {c : CallId} {s : StateId}

/-- The call itself goes on. -/
lemma CallOk.advance (h : m.CallOk c) {pc : Pc} {loraId : List (Option LoraId)}
    (hcall : m'.calls c = { m.calls c with pc := pc, loraId := loraId })
    (hlora : m'.enableLora = m.enableLora)
    (hnum : m'.numStates = m.numStates) (hunsent : ∀ s ∈ (m'.calls c).unsent,
      (m'.states s).holder = .call c)
    (hstage : m'.StageOk (m'.calls c)) : m'.CallOk c := by
  refine ⟨?_, ?_, ?_, hunsent, ?_, hstage⟩
  all_goals rw [hcall]
  · exact h.single
  · exact h.nodup
  · exact hnum ▸ h.lt
  · exact hlora ▸ h.names

section
variable (h : m.CallOk c) (hcall : m'.calls c = m.calls c) (hlora : m'.enableLora = m.enableLora)
  (hnum : m.numStates ≤ m'.numStates)
include h hcall hlora hnum

/-- A step that does not touch what a call knows leaves the call in order. -/
lemma CallOk.frame (hview : ∀ s < m.numStates, (m.states s).holder = .call c → m'.view s = m.view s)
    (hregistry : ∀ k, (m.calls c).pc = .incrementing k → ∀ id, some id ∈ (m.calls c).loraId.drop k →
      (∃ ref ∈ m.registry, ref.loraId = id) → ∃ ref ∈ m'.registry, ref.loraId = id) :
      m'.CallOk c := by
  have hview' : ∀ s ∈ (m.calls c).unsent, s ∈ (m.calls c).items → m'.view s = m.view s :=
    fun s hs hitem =>
    hview s (h.lt s hitem) (h.unsent s hs)
  have hsub : ∀ s ∈ (m.calls c).unsent, s ∈ (m.calls c).items := by
    intro s hs
    unfold Call.unsent at hs
    split at hs
    all_goals first | exact hs | exact mem_of_mem_drop hs | cases hs
  have hstate : ∀ s ∈ (m.calls c).unsent, m'.states s = m.states s := fun s hs =>
    congrArg View.state (hview' s hs (hsub s hs))
  refine ⟨hcall ▸ h.single, hcall ▸ h.nodup, ?_, ?_, ?_, ?_⟩
  · rw [hcall]
    exact fun s hs => (h.lt s hs).trans_le hnum
  · rw [hcall]
    exact fun s hs => (hstate s hs).symm ▸ h.unsent s hs
  · rw [hcall, hlora]
    exact h.names
  · have hstage := h.stage
    rw [hcall]
    unfold StageOk at hstage ⊢
    unfold Call.unsent at hview' hstate
    cases hpc : (m.calls c).pc with
    | resolving =>
      simp only [hpc] at hstage hview' hstate ⊢
      intro i s hs
      have hmem := mem_of_getElem? hs
      rw [hview' s hmem hmem, hstate s hmem]
      exact hstage i s hs
    | incrementing k =>
      simp only [hpc] at hstage hview' hstate ⊢
      obtain ⟨hlora', hlen, hitems, hleft⟩ := hstage
      refine ⟨hlora.trans hlora', hlen, fun i s hs => ?_,
        fun id hid => hregistry k hpc id hid (hleft id hid)⟩
      have hmem := mem_of_getElem? hs
      rw [hview' s hmem hmem, hstate s hmem]
      exact hitems i s hs
    | sending k =>
      simp only [hpc] at hstage hview' hstate ⊢
      exact fun s hs => (hview' s hs (mem_of_mem_drop hs)).symm ▸ hstage s hs
    | caching k request => simp only [hpc] at hstage
    | waiting => trivial
    | failed => simp only [hpc] at hstage

/-- A step that leaves the call and the registry as they are. -/
lemma CallOk.frame_states (hregistry : m'.registry = m.registry)
    (hview : ∀ s < m.numStates, (m.states s).holder = .call c → m'.view s = m.view s) :
    m'.CallOk c :=
  h.frame hcall hlora hnum hview fun _ _ _ _ href => by rwa [hregistry]

end

/-! ### Changes of one state -/

section State

variable {f : ReqState → ReqState}

lemma view_modifyState (hrid : (f (m.states s)).rid = (m.states s).rid) (t : StateId) :
    (m.modifyState s f).view t = if t = s then { m.view s with state := f (m.states s) }
    else m.view t := by
  by_cases ht : t = s
  · subst ht
    simp [view, modifyState, hrid]
  · simp [view, modifyState, ht]

lemma Books.modifyState (h : m.Books) (hrid : (f (m.states s)).rid = (m.states s).rid) :
    (m.modifyState s f).Books := by
  refine { h with mapped := fun rid t ht => ⟨(h.mapped rid t ht).1, ?_⟩ }
  by_cases hts : t = s
  · subst hts
    simpa [TokenizerManager.modifyState, hrid] using (h.mapped rid t ht).2
  · simpa [TokenizerManager.modifyState, hts] using (h.mapped rid t ht).2

/-- A change to a state that no call holds. -/
lemma Inv.modifyState (h : m.Inv) (hrid : (f (m.states s)).rid = (m.states s).rid)
    (hsent : ∀ c, (m.states s).holder ≠ .call c)
    (hkept : { m.view s with state := f (m.states s) }.Kept) :
    (m.modifyState s f).Inv where
  kept t ht := by
    rw [view_modifyState hrid]
    split
    · exact hkept
    · exact h.kept t ht
  calls c hc := (h.calls c hc).frame_states rfl rfl le_rfl rfl fun t _ ht => by
    rw [view_modifyState hrid, if_neg]
    exact fun heq => hsent c (heq ▸ ht)
  books := h.books.modifyState hrid

/-- A request that someone holds is in the table. -/
lemma Inv.entry (h : m.Inv) (hs : s < m.numStates) (hheld : (m.states s).holder ≠ .nobody) :
    m.ridToState (m.states s).rid = some s := by
  simpa [view] using ((h.kept s hs).held hheld).1

/-- What the end of a request comes to: its entry is deleted and its reference is to be dropped. -/
def dispose (m : TokenizerManager) (s : StateId) (f : ReqState → ReqState) : TokenizerManager :=
  { m.modifyState s f with
    ridToState := update m.ridToState (m.states s).rid none
    removals := m.removals ++ [s]
    releaseTasks := m.releaseTasks ++ (m.states s).loraId.toList.map (s, ·) }

lemma view_dispose_self (hrid : (f (m.states s)).rid = (m.states s).rid) :
    (m.dispose s f).view s = { m.view s with
      state := f (m.states s)
      entry := false
      removals := (m.view s).removals + 1
      tasks := fun id => (m.view s).tasks id + if (m.states s).loraId = some id then 1
        else 0 } := by
  have htasks : ∀ id, ((m.states s).loraId.toList.map (s, ·)).count (s, id) =
      if (m.states s).loraId = some id then 1 else 0 := by
    intro id
    cases (m.states s).loraId with
    | none => rfl
    | some id' => simp [count_singleton]
  simp [view, dispose, TokenizerManager.modifyState, hrid, htasks]

section
variable (h : m.Inv) (hs : s < m.numStates) (hheld : (m.states s).holder ≠ .nobody)
include h hs hheld

lemma view_dispose_of_ne {t : StateId} (ht : t ≠ s) : (m.dispose s f).view t = m.view t := by
  have hentry : (m.states t).rid = (m.states s).rid → m.ridToState (m.states t).rid ≠ some t := by
    intro heq
    rw [heq, h.entry hs hheld]
    exact fun heq' => ht (some.inj heq').symm
  have htasks : ∀ id, ((m.states s).loraId.toList.map (s, ·)).count (t, id) = 0 := by
    intro id
    refine count_eq_zero.mpr fun hmem => ?_
    obtain ⟨id', -, heq⟩ := mem_map.mp hmem
    exact ht (congrArg Prod.fst heq).symm
  have hmap : decide (update m.ridToState (m.states s).rid none (m.states t).rid = some t) =
      decide (m.ridToState (m.states t).rid = some t) := by
    by_cases heq : (m.states t).rid = (m.states s).rid
    · simpa [heq] using hentry heq
    · simp [heq]
  simp [view, dispose, TokenizerManager.modifyState, ht, hmap, htasks, ht.symm]

/-- The state is taken out of the table and its reference given back, once. -/
lemma Inv.dispose (hsent : ∀ c, (m.states s).holder ≠ .call c)
    (hrid : (f (m.states s)).rid = (m.states s).rid)
    (hpath : (f (m.states s)).loraPath = (m.states s).loraPath)
    (hid : (f (m.states s)).loraId = (m.states s).loraId)
    (hover : (f (m.states s)).holder = .nobody)
    (hwaits : ∀ reason, (f (m.states s)).waiting = true →
    (f (m.states s)).finishReason = some reason → reason.serverError = false) :
    (m.dispose s f).Inv where
  kept t ht := by
    by_cases hts : t = s
    · subst hts
      rw [view_dispose_self hrid]
      have hkept := h.kept t hs
      obtain ⟨-, hremovals, hnone⟩ := hkept.held hheld
      have hsettled := hkept.settled hsent
      refine ⟨fun hne => absurd hover hne, fun _ => ⟨rfl, by simp [hremovals], fun id => ?_⟩,
        hkept.once, ?_, ?_, ?_, ?_, fun _ => ⟨?_, ?_⟩⟩
      · simp only [hnone id, hsettled.acquires id, Nat.zero_add]
        rfl
      · rintro (⟨c, hc⟩ | hc) <;> cases hover.symm.trans hc
      · exact fun c hc => absurd (hover.symm.trans hc) (by simp)
      · exact fun hc => absurd (hover.symm.trans hc) (by simp)
      · intro reason hw hr herr
        simp [hwaits reason hw hr] at herr
      · intro id
        simp only [hid]
        exact hsettled.acquires id
      · simp only [hid, hpath]
        exact hsettled.lora
    · rw [view_dispose_of_ne h hs hheld hts]
      exact h.kept t ht
  calls c hc := (h.calls c hc).frame_states rfl rfl le_rfl rfl fun t _ ht =>
    view_dispose_of_ne h hs hheld fun heq => hsent c (heq ▸ ht)
  books := by
    have hbooks := h.books.modifyState hrid
    refine { hbooks with mapped := ?_, removals := ?_, uses := ?_ }
    · intro rid t ht
      simp only [TokenizerManager.dispose, update_apply] at ht
      split at ht
      · cases ht
      · exact hbooks.mapped rid t ht
    · intro t ht
      rcases mem_append.mp ht with ht | ht
      · exact hbooks.removals t ht
      · exact mem_singleton.mp ht ▸ hs
    · intro use huse
      simp only [TokenizerManager.dispose, ← append_assoc] at huse
      rcases mem_append.mp huse with huse | huse
      · exact hbooks.uses use huse
      · obtain ⟨id, -, rfl⟩ := mem_map.mp huse
        exact hs

end

lemma releaseLora_eq
    (hlora : (m.states s).loraId.isSome → m.enableLora = true ∧ (m.states s).loraPath.isSome) :
    m.releaseLora s =
    { m with releaseTasks := m.releaseTasks ++ (m.states s).loraId.toList.map (s, ·) } := by
  unfold releaseLora
  cases hid : (m.states s).loraId with
  | none =>
    have hsame :
      { m with releaseTasks := m.releaseTasks ++ (none : Option LoraId).toList.map (s, ·) } =
      m := by simp
    rw [hsame]
    split
    · rename_i heq
      cases heq
    · rfl
  | some id =>
    obtain ⟨henable, hpath⟩ := hlora (by simp [hid])
    obtain ⟨path, hpath⟩ := isSome_iff_exists.mp hpath
    rw [henable, hpath]
    rfl

end State

/-! ### Responses -/

section Responses

variable {reason : FinishReason}

lemma Inv.lora (h : m.Inv) (hs : s < m.numStates) (hsent : ∀ c, (m.states s).holder ≠ .call c) :
    (m.states s).loraId.isSome → m.enableLora = true ∧ (m.states s).loraPath.isSome :=
  ((h.kept s hs).settled hsent).lora

section
variable (h : m.Inv) (hs : s < m.numStates) (hheld : (m.states s).holder = .scheduler)
include h hs hheld

lemma handleBatchOutput_eq :
    m.handleBatchOutput s reason = m.dispose s fun state =>
    { state with holder := .nobody, finishReason := some reason } := by
  have hentry := h.entry hs (by simp [hheld])
  have hlora := h.lora hs (by simp [hheld])
  simp only [handleBatchOutput, hentry]
  rw [releaseLora_eq]
  · simp [deleteState, modifyState, hentry, dispose]
  · simpa [deleteState, modifyState, hentry] using hlora

/-- A request that ends is released by whoever handles the output. -/
lemma Inv.batchOutput (hreason : reason.serverError = false ∨ (m.states s).waiting = false) :
    (m.handleBatchOutput s reason).Inv := by
  rw [handleBatchOutput_eq h hs hheld]
  refine h.dispose hs (by simp [hheld]) (by simp [hheld]) rfl rfl rfl rfl
    fun reason' hwaits heq => ?_
  rw [← some.inj heq]
  exact hreason.resolve_right fun hgone => Bool.false_ne_true (hgone.symm.trans hwaits)

/-- After an abort while it waits the waiter releases the request. -/
lemma Inv.abortReq {statusCode : Option Nat}
    (hwaits : (m.states s).waiting = true) (hcode : (abort statusCode).serverError = true)
    (hstep : m.handleAbortReq s statusCode = some m') : m'.Inv := by
  have hsent : ∀ c, (m.states s).holder ≠ .call c := by simp [hheld]
  have hkept := h.kept s hs
  obtain rfl : m' = m.modifyState s fun state =>
      { state with holder := .waiter, finishReason := some (.abort statusCode) } := by
    simp only [handleAbortReq, h.entry hs (by simp [hheld]), map_some, some.injEq] at hstep
    rw [← hstep]
    simp [TokenizerManager.modifyState, hwaits]
  refine h.modifyState rfl hsent ⟨fun _ => hkept.held ?_, nofun, hkept.once,
    nofun, nofun, ?_, ?_, fun _ => ?_⟩
  · simp [view, hheld]
  · exact fun _ => ⟨hwaits, _, rfl, hcode⟩
  · exact fun _ _ _ _ => rfl
  · exact ⟨(hkept.settled hsent).acquires, (hkept.settled hsent).lora⟩

end

lemma Inv.disconnect (h : m.Inv) (hs : s < m.numStates) (hwaits : (m.states s).waiting = true)
    (hreason : (m.states s).finishReason = none) :
    (m.modifyState s fun state => { state with waiting := false }).Inv := by
  have hkept := h.kept s hs
  have hsent : ∀ c, (m.states s).holder ≠ .call c := fun c hc => by
    simpa [view, hwaits] using hkept.idle c hc
  refine h.modifyState rfl hsent ⟨hkept.held, hkept.gone, hkept.once, hkept.unfinished,
    fun _ _ => rfl, fun hw => ?_, nofun, fun hc => ?_⟩
  · obtain ⟨-, reason, hsome, -⟩ := hkept.waiter hw
    simp [view, hreason] at hsome
  · exact ⟨(hkept.settled hc).acquires, (hkept.settled hc).lora⟩

lemma Inv.resumeCalls_eq (h : m.Inv) (failed : Bool) : m.resumeCalls s failed = m := by
  have hcall : ∀ c < m.numCalls, resumeCall s failed m c = m := by
    intro c hc
    have hstage := (h.calls c hc).stage
    unfold resumeCall
    split
    · rename_i k request heq
      simp [StageOk, heq] at hstage
    · rfl
  have hfold : ∀ l : List CallId, (∀ c ∈ l, c < m.numCalls) →
      l.foldl (resumeCall s failed) m = m := by
    intro l hl
    induction l with
    | nil => rfl
    | cons c l ih =>
      rw [foldl_cons, hcall c (hl c mem_cons_self)]
      exact ih fun c' hc' => hl c' (mem_cons_of_mem c hc')
  exact hfold _ fun c hc => mem_range.mp hc

lemma badRequest_of_serverError (h : reason.serverError = true) : reason.badRequest = false := by
  unfold serverError at h
  split at h
  all_goals first | rfl | cases h

/-- The waiter wakes and releases the request if nobody else has. -/
lemma Inv.wake (h : m.Inv) (hs : s < m.numStates) (hwaits : (m.states s).waiting = true)
    (hreason : (m.states s).finishReason = some reason) : (m.wakeWaiter s reason).Inv := by
  have hkept := h.kept s hs
  have hsent : ∀ c, (m.states s).holder ≠ .call c := fun c hc => by
    simpa [view, hwaits] using hkept.idle c hc
  suffices hstep : ((m.handleAbortFinishReason s reason).modifyState s fun state =>
      { state with waiting := false, holder := if state.holder = .waiter then .nobody else state.holder }).Inv by
    rw [wakeWaiter, hstep.resumeCalls_eq]
    exact hstep
  by_cases herror : reason.serverError = true
  · -- the coroutine of a server error is the one that cleans up
    have hheld : (m.states s).holder = .waiter := hkept.failed reason hwaits hreason herror
    have hentry := h.entry hs (by simp [hheld])
    have heq : (m.handleAbortFinishReason s reason).modifyState s (fun state =>
        { state with waiting := false, holder := if state.holder = .waiter then .nobody else state.holder }) =
          m.dispose s fun state => { state with waiting := false, holder := .nobody } := by
      rw [handleAbortFinishReason, badRequest_of_serverError herror, if_neg (by simp),
        if_pos herror, releaseLora_eq]
      · simp [deleteState, TokenizerManager.modifyState, hentry, TokenizerManager.dispose, hheld]
      · simpa [deleteState, hentry] using h.lora hs hsent
    rw [heq]
    exact h.dispose hs (by simp [hheld]) hsent rfl rfl rfl rfl nofun
  · have hheld : (m.states s).holder ≠ .waiter := by
      intro hw
      obtain ⟨-, reason', hsome, herror'⟩ := hkept.waiter hw
      cases hreason.symm.trans hsome
      exact herror herror'
    have heq : m.handleAbortFinishReason s reason = m := by
      rw [handleAbortFinishReason, if_neg herror, ite_self]
    rw [heq]
    refine h.modifyState rfl hsent ?_
    simp only [if_neg hheld]
    exact ⟨hkept.held, hkept.gone, hkept.once, hkept.unfinished, fun _ _ => rfl,
      fun hw => absurd hw hheld, nofun,
      fun hc => ⟨(hkept.settled hc).acquires, (hkept.settled hc).lora⟩⟩

end Responses

/-! ### References and adapters -/

section
variable (h : m.Inv)
include h

lemma Inv.count_releases_le (use : StateId × LoraId) :
    m.releases.count use ≤ m.acquires.count use := by
  by_cases hlt : use.1 < m.numStates
  · exact (Nat.le_add_right _ _).trans ((h.kept use.1 hlt).released_le use.2)
  · rw [count_eq_zero.mpr fun hmem => hlt (h.books.uses use (by simp [hmem]))]
    exact Nat.zero_le _

lemma Inv.countId_releases_le (id : LoraId) : countId m.releases id ≤ countId m.acquires id :=
  (subperm_ext_iff.mpr fun use _ => h.count_releases_le use).countP_le _

variable {use : StateId × LoraId}

lemma Inv.countId_releases_lt (hlt : m.releases.count use < m.acquires.count use) :
    countId m.releases use.2 < countId m.acquires use.2 := by
  have hsub : (m.releases ++ [use]).Subperm m.acquires := by
    refine subperm_ext_iff.mpr fun use' _ => ?_
    rw [count_append, count_singleton]
    split
    · rename_i heq
      rw [← beq_iff_eq.mp heq]
      exact hlt
    · exact h.count_releases_le use'
  have hle : countId (m.releases ++ [use]) use.2 ≤ countId m.acquires use.2 := hsub.countP_le _
  rw [countId_append, countId_singleton, if_pos rfl] at hle
  exact hle

omit h in
lemma view_runRelease_of_ne (hne : ∀ id, (s, id) ≠ use) : (m.runRelease use).view s = m.view s := by
  have hreleases : ∀ id, (m.releases ++ [use]).count (s, id) = m.releases.count (s, id) :=
    fun id => by
    simp [Ne.symm (hne id)]
  have htasks : ∀ id, (m.releaseTasks.erase use).count (s, id) = m.releaseTasks.count (s, id) :=
    fun id =>
    count_erase_of_ne (hne id)
  simp only [view, runRelease, hreleases, htasks]
  rfl

/-- A task gives its reference back. -/
lemma Inv.release (huse : use ∈ m.releaseTasks) : (m.runRelease use).Inv where
  kept s hs := by
    have hkept := h.kept s hs
    by_cases heq : use.1 = s
    · subst heq
      have hpos : 0 < m.releaseTasks.count use := count_pos_iff.mpr huse
      have hgone : (m.states use.1).holder = .nobody := by
        by_contra hheld
        exact hpos.ne' ((hkept.held hheld).2.2 use.2).2
      refine ⟨fun hne => absurd hgone hne,
        fun _ => ⟨(hkept.gone hgone).1, (hkept.gone hgone).2.1, fun id => ?_⟩, hkept.once,
        hkept.unfinished, hkept.idle, hkept.waiter, hkept.failed, fun hc =>
        ⟨(hkept.settled hc).acquires, (hkept.settled hc).lora⟩⟩
      have hsum := (hkept.gone hgone).2.2 id
      simp only [view, runRelease, count_append, count_singleton, count_erase] at hsum ⊢
      by_cases hid : use = (use.1, id)
      · rw [← hid] at hsum ⊢
        simp only [beq_self_eq_true, if_true]
        omega
      · simp only [beq_eq_false_iff_ne.mpr hid, if_false, Bool.false_eq_true]
        omega
    · have hne : ∀ id, ((s, id) : StateId × LoraId) ≠ use := fun id heq' => heq (heq' ▸ rfl)
      rw [view_runRelease_of_ne hne]
      exact hkept
  calls c hc := (h.calls c hc).frame_states rfl rfl le_rfl rfl fun s hs hheld => by
    have hkept := h.kept s hs
    have hne : ∀ id, ((s, id) : StateId × LoraId) ≠ use := by
      rintro id rfl
      have hzero := ((hkept.held (by simp [view, hheld])).2.2 id).2
      exact count_eq_zero.mp hzero huse
    exact view_runRelease_of_ne hne
  books := by
    have hbooks := h.books
    have hnone : ∀ id, (m.runRelease use).counters id = none ↔ m.counters id = none := by
      intro id
      by_cases hid : id = use.2
      · subst hid
        simp [runRelease]
      · simp [runRelease, hid]
    refine ⟨hbooks.mapped, hbooks.removals, ?_, ?_, fun use' h' => ?_,
      fun use' h' => ?_, fun ref href => ?_, hbooks.nodup,
      fun id hid => ⟨?_, (hbooks.unloading id hid).2⟩, fun id hid =>
      (hnone id).mpr (hbooks.unloaded id hid)⟩
    · intro use' huse'
      refine hbooks.uses use' ?_
      simp only [runRelease, mem_append, mem_singleton] at huse' ⊢
      rcases huse' with (h' | h' | rfl) | h'
      · exact .inl (.inl h')
      · exact .inl (.inr h')
      · exact .inr huse
      · exact .inr (mem_of_mem_erase h')
    · intro id v hv
      by_cases hid : id = use.2
      · subst hid
        simp only [runRelease, update_self, map_eq_some_iff] at hv
        obtain ⟨w, hw, rfl⟩ := hv
        rw [hbooks.counter _ w hw]
        simp only [runRelease, countId_append, countId_singleton, if_true]
        omega
      · simp only [runRelease, update_of_ne hid] at hv
        rw [hbooks.counter id v hv]
        simp [runRelease, Ne.symm hid]
    · exact (hbooks.known use' h').imp_left fun hne => (hnone _).not.mpr hne
    · refine (hnone _).not.mpr (hbooks.outstanding use' ?_)
      refine lt_of_le_of_lt ?_ h'
      simp [runRelease]
    · exact (hnone _).not.mpr (hbooks.registered ref href)
    · exact (hnone _).not.mpr (hbooks.unloading id hid).1

lemma Inv.countId_eq_zero {id : LoraId} (hnone : m.counters id = none) (hnew : id ∉ m.unloaded) :
    countId m.acquires id = 0 ∧ countId m.releases id = 0 := by
  have hzero : countId m.acquires id = 0 := by
    refine countP_eq_zero.mpr fun use huse heq => ?_
    obtain rfl : use.2 = id := by simpa using heq
    rcases h.books.known use huse with hne | hmem
    · exact hne hnone
    · exact hnew hmem
  exact ⟨hzero, Nat.le_zero.mp (hzero ▸ h.countId_releases_le id)⟩

/-- A new adapter begins without references. -/
lemma Inv.load {ref : LoraRef} (hfree : m.unloading = none) (hnone : m.counters ref.loraId = none)
    (hnew : ref.loraId ∉ m.unloaded) : (m.register ref).Inv := by
  unfold register
  split
  · exact h
  have hbooks := h.books
  have hmono : ∀ id, m.counters id ≠ none → update m.counters ref.loraId (some 0) id ≠ none := by
    intro id hne
    by_cases hid : id = ref.loraId
    · simp [hid]
    · simpa [hid] using hne
  refine ⟨h.kept, fun c hc => (h.calls c hc).frame rfl rfl le_rfl (fun _ _ _ => rfl) ?_,
    ⟨hbooks.mapped, hbooks.removals, hbooks.uses, ?_,
    fun use huse => (hbooks.known use huse).imp_left (hmono _),
      fun use huse => hmono _ (hbooks.outstanding use huse), ?_, ?_, ?_, ?_⟩⟩
  · rintro k - id - ⟨ref', hmem, heq⟩
    exact ⟨ref', mem_append_left _ hmem, heq⟩
  · intro id v hv
    by_cases hid : id = ref.loraId
    · subst hid
      simp only [update_self, some.injEq] at hv
      simp [← hv, h.countId_eq_zero hnone hnew]
    · exact hbooks.counter id v ((update_of_ne hid _ _).symm.trans hv)
  · intro ref' href'
    rcases mem_append.mp href' with href' | href'
    · exact hmono _ (hbooks.registered ref' href')
    · simp [mem_singleton.mp href']
  · rw [map_append, map_singleton, nodup_append]
    refine ⟨hbooks.nodup, nodup_singleton _, ?_⟩
    intro id hid id' hid' heq
    obtain ⟨ref', href', rfl⟩ := mem_map.mp hid
    exact hbooks.registered ref' href' (heq.trans (mem_singleton.mp hid') ▸ hnone)
  · intro id hid
    simp [hfree] at hid
  · intro id hid
    have hne : id ≠ ref.loraId := fun heq => hnew (heq ▸ hid)
    exact (update_of_ne hne _ _).trans (hbooks.unloaded id hid)

/-- An adapter that leaves the registry keeps its counter until the references are back. -/
lemma Inv.unregister {name : LoraName}
    (hcounted : ∀ ref ∈ m.registry, ref.loraName = name → m.Counted ref.loraId) :
    (m.unregister name).Inv := by
  unfold TokenizerManager.unregister
  split
  · exact h
  rename_i ref hfind
  have hmem := mem_of_find?_eq_some hfind
  have hname : ref.loraName = name := by simpa using find?_some hfind
  have hbooks := h.books
  have hsub : (m.registry.erase ref).Sublist m.registry := erase_sublist
  have hdistinct : ∀ ref' ∈ m.registry.erase ref, ref'.loraId ≠ ref.loraId := by
    have hperm := (perm_cons_erase hmem).map (·.loraId)
    have hnodup := hperm.nodup_iff.mp hbooks.nodup
    rw [map_cons, nodup_cons] at hnodup
    exact fun ref' href' heq => hnodup.1 (heq ▸ mem_map_of_mem href')
  refine ⟨h.kept, fun c hc => (h.calls c hc).frame rfl rfl le_rfl (fun _ _ _ => rfl) ?_,
    { hbooks with registered := ?_, nodup := ?_, unloading := ?_ }⟩
  · rintro k hpc id hid ⟨ref', href', rfl⟩
    refine ⟨ref', ?_, rfl⟩
    refine (mem_erase_of_ne ?_).mpr href'
    rintro rfl
    exact hcounted ref' hmem hname c hc k hpc hid
  · exact fun ref' href' => hbooks.registered ref' (hsub.subset href')
  · exact hbooks.nodup.sublist (hsub.map _)
  · intro id hid
    obtain rfl : ref.loraId = id := by simpa using hid
    exact ⟨hbooks.registered ref hmem, hdistinct⟩

lemma Inv.unloadReady {id : LoraId} (hunloading : m.unloading = some id)
    (hzero : m.counters id = some 0) :
    (m.sendUnload id).Inv := by
  have hbooks := h.books
  have hother : ∀ id' ≠ id, (m.sendUnload id).counters id' = m.counters id' :=
    fun id' hne => update_of_ne hne _ _
  have hself : (m.sendUnload id).counters id = none := update_self _ _ _
  refine ⟨h.kept, fun c hc => (h.calls c hc).frame_states rfl rfl le_rfl rfl fun _ _ _ => rfl,
    ⟨hbooks.mapped, hbooks.removals, hbooks.uses, ?_, ?_, ?_, ?_, hbooks.nodup, nofun, ?_⟩⟩
  · intro id' v hv
    have hne : id' ≠ id := by
      rintro rfl
      simp [hself] at hv
    exact hbooks.counter id' v ((hother id' hne).symm.trans hv)
  · intro use huse
    by_cases hid : use.2 = id
    · exact .inr (by simp [sendUnload, hid])
    · rw [hother _ hid]
      exact (hbooks.known use huse).imp_right fun hmem => mem_append_left _ hmem
  · intro use hlt
    have hne : use.2 ≠ id := by
      rintro rfl
      have hcounter := hbooks.counter _ 0 hzero
      have hlt' := h.countId_releases_lt hlt
      omega
    rw [hother _ hne]
    exact hbooks.outstanding use hlt
  · intro ref href
    rw [hother _ ((hbooks.unloading id hunloading).2 ref href)]
    exact hbooks.registered ref href
  · intro id' hid'
    by_cases hid : id' = id
    · rw [hid, hself]
    · rw [hother _ hid]
      rcases mem_append.mp hid' with hmem | hmem
      · exact hbooks.unloaded id' hmem
      · exact absurd (mem_singleton.mp hmem) hid

end

/-! ### Calls -/

section Calls

/-- A step of one call. -/
lemma Inv.step_call (h : m.Inv) (hcalls : ∀ c' ≠ c, m'.calls c' = m.calls c')
    (hnumCalls : m'.numCalls = m.numCalls) (hnumStates : m'.numStates = m.numStates)
    (hlora : m'.enableLora = m.enableLora)
    (hview : ∀ s < m.numStates, (m.states s).holder ≠ .call c → m'.view s = m.view s)
    (hregistry : ∀ ref ∈ m.registry, ∃ ref' ∈ m'.registry, ref'.loraId = ref.loraId)
    (hkept : ∀ s < m.numStates, (m.states s).holder = .call c → (m'.view s).Kept)
    (hcall : m'.CallOk c) (hbooks : m'.Books) : m'.Inv where
  kept s hs := by
    rw [hnumStates] at hs
    by_cases hheld : (m.states s).holder = .call c
    · exact hkept s hs hheld
    · rw [hview s hs hheld]
      exact h.kept s hs
  calls c' hc' := by
    rw [hnumCalls] at hc'
    by_cases heq : c' = c
    · exact heq ▸ hcall
    · refine (h.calls c' hc').frame (hcalls c' heq) hlora hnumStates.ge
        (fun s hs hheld => hview s hs ?_) ?_
      · rw [hheld]
        exact fun heq' => heq (Holder.call.inj heq')
      · rintro k - id - ⟨ref, href, rfl⟩
        exact hregistry ref href
  books := hbooks

variable {pc : Pc}

lemma setPc_calls_self : (m.setPc c pc).calls c = { m.calls c with pc := pc } := update_self _ _ _

lemma Books.setPc (h : m.Books) (pc : Pc) : (m.setPc c pc).Books := { h with }

lemma Inv.setPc (h : m.Inv) (hc : c < m.numCalls)
    (hunsent : ∀ s ∈ Call.unsent { m.calls c with pc := pc }, (m.states s).holder = .call c)
    (hstage : m.StageOk { m.calls c with pc := pc }) : (m.setPc c pc).Inv := by
  refine h.step_call (fun c' hne => update_of_ne hne _ _) rfl rfl rfl (fun _ _ _ => rfl)
    (fun ref href => ⟨ref, href, rfl⟩)
    (fun s hs _ => h.kept s hs) ((h.calls c hc).advance setPc_calls_self rfl rfl ?_ ?_)
      (h.books.setPc pc)
  all_goals rw [setPc_calls_self]
  · exact hunsent
  · exact hstage

/-! #### The lookup -/

variable {id : LoraId} {registry registry' : List LoraRef}

lemma lookupName_spec {name : LoraName}
    (h : lookupName registry name = some (registry', id)) :
    registry'.Perm registry ∧ ∃ ref ∈ registry, ref.loraId = id := by
  obtain ⟨ref, hfind, heq⟩ := map_eq_some_iff.mp h
  have hmem := mem_of_find?_eq_some hfind
  cases heq
  refine ⟨?_, ref, hmem, rfl⟩
  exact (perm_append_singleton _ _).trans (perm_cons_erase hmem).symm

variable {names : List (Option LoraName)}

lemma lookupAll_spec {ids : List (Option LoraId)}
    (h : lookupAll names registry = some (registry', ids)) :
    registry'.Perm registry ∧ ids.map isSome = names.map isSome ∧ ∀ id, some id ∈ ids →
    ∃ ref ∈ registry, ref.loraId = id := by
  induction names generalizing registry registry' ids with
  | nil =>
    cases h
    exact ⟨.refl _, rfl, nofun⟩
  | cons name names ih =>
    cases name with
    | none =>
      obtain ⟨⟨registry1, ids1⟩, hrest, heq⟩ := map_eq_some_iff.mp h
      cases heq
      obtain ⟨hperm, hlen, hids⟩ := ih hrest
      refine ⟨hperm, by simp [hlen], fun id hid => hids id ?_⟩
      simpa using hid
    | some name =>
      simp only [lookupAll, bind_eq_bind, bind_eq_some_iff, Prod.exists] at h
      obtain ⟨registry1, id1, hname, registry2, ids2, hrest, heq⟩ := h
      cases heq
      obtain ⟨hperm1, hid1⟩ := lookupName_spec hname
      obtain ⟨hperm, hlen, hids⟩ := ih hrest
      refine ⟨hperm.trans hperm1, by simp [hlen], fun id hid => ?_⟩
      rcases mem_cons.mp hid with heq | hid
      · exact some.inj heq ▸ hid1
      · obtain ⟨ref, href, rfl⟩ := hids id hid
        exact ⟨ref, hperm1.subset href, rfl⟩

lemma lookupAll_isSome
    (h : ∀ name, some name ∈ names → ∃ ref ∈ registry, ref.loraName = name) :
    lookupAll names registry ≠ none := by
  induction names generalizing registry with
  | nil => nofun
  | cons name names ih =>
    have hrest : ∀ name, some name ∈ names → ∃ ref ∈ registry, ref.loraName = name :=
      fun name hname =>
      h name (mem_cons_of_mem _ hname)
    cases name with
    | none => simpa [lookupAll] using ih hrest
    | some name =>
      obtain ⟨ref, href, hname⟩ := h name mem_cons_self
      have hfind : (registry.find? (·.loraName = name)).isSome :=
        find?_isSome.mpr ⟨ref, href, by simpa using hname⟩
      obtain ⟨ref', hfind⟩ := isSome_iff_exists.mp hfind
      have hlookup :
        lookupName registry name = some (registry.erase ref' ++ [ref'], ref'.loraId) := by
        simp [lookupName, hfind]
      obtain ⟨hperm, -⟩ := lookupName_spec hlookup
      obtain ⟨⟨registry1, ids⟩, hsome⟩ := ne_none_iff_exists'.mp (ih fun name hname =>
        (hrest name hname).imp fun _ hr => ⟨hperm.symm.subset hr.1, hr.2⟩)
      simp [lookupAll, hlookup, hsome]

/-- A call looks its adapters up. -/
lemma Inv.acquireLookup (h : m.Inv) (hc : c < m.numCalls) (hpc : (m.calls c).pc = .resolving)
    (hnames : ∀ names, (m.calls c).loraPath = some names → ∀ name, some name ∈ names →
    ∃ ref ∈ m.registry, ref.loraName = name) :
    (m.acquireLookup c).Inv := by
  have hcall := h.calls c hc
  have hstage := hcall.stage
  simp only [StageOk, hpc] at hstage
  have hunsent : (m.calls c).unsent = (m.calls c).items := by simp [Call.unsent, hpc]
  have hnone : (m.setPc c (resolved (m.calls c))).Inv := by
    rw [resolved, if_pos hcall.single]
    refine h.setPc hc (fun s hs => hcall.unsent s (hunsent ▸ hs)) fun s hs => ?_
    obtain ⟨i, hi⟩ := getElem?_of_mem hs
    obtain ⟨-, hid, hzero⟩ := hstage i s hi
    refine ⟨fun id => ?_, fun hsome => ?_⟩
    · simpa [view, hid] using hzero id
    · simp [view, hid] at hsome
  unfold TokenizerManager.acquireLookup
  split
  · exact hnone
  · exact hnone
  rename_i names hne hpath
  obtain ⟨hlora, hlen⟩ := hcall.names names hpath
  rw [if_pos hlora]
  split
  · rename_i heq
    exact absurd heq (lookupAll_isSome (hnames names hpath))
  rename_i registry ids heq
  obtain ⟨hperm, hids, hreg⟩ := lookupAll_spec heq
  have hbooks := h.books
  refine h.step_call (c := c) (fun c' hne => update_of_ne hne _ _) rfl rfl rfl (fun _ _ _ => rfl)
    (fun ref href => ⟨ref, hperm.symm.subset href, rfl⟩) (fun s hs _ => h.kept s hs)
    (hcall.advance (update_self _ _ _) rfl rfl ?_ ?_)
    { hbooks with
      registered := fun ref href => hbooks.registered ref (hperm.subset href)
      nodup := (hperm.map _).nodup_iff.mpr hbooks.nodup
      unloading :=
        fun id hid => ⟨(hbooks.unloading id hid).1,
        fun ref href => (hbooks.unloading id hid).2 ref (hperm.subset href)⟩ }
  all_goals simp only [update_self]
  · exact fun s hs => hcall.unsent s (hunsent ▸ hs)
  · have hlenIds : ids.length = (m.calls c).items.length := by
      rw [← hlen]
      simpa using congrArg length hids
    refine ⟨hlora, hlenIds, fun i s hs => ?_, fun id hid => ?_⟩
    · obtain ⟨hpath', -, hzero⟩ := hstage i s hs
      refine ⟨?_, fun id => (hzero id).trans (by simp)⟩
      have hi := congrArg (·[i]?) hids
      simp only [getElem?_map] at hi
      rw [hpath', hpath, getD_some]
      revert hi
      cases ids[i]? <;> cases names[i]? <;> simp_all
    · obtain ⟨ref, href, rfl⟩ := hreg id (by simpa using hid)
      exact ⟨ref, hperm.symm.subset href, rfl⟩

/-! #### The counters -/

lemma setLoraIds_eq (l : List (StateId × Option LoraId)) :
    m.setLoraIds l = { m with states := (m.setLoraIds l).states } := by
  induction l generalizing m with
  | nil => rfl
  | cons p l ih =>
    rw [setLoraIds, ih]
    rfl

variable {l : List (StateId × Option LoraId)}

lemma setLoraIds_of_notMem (h : s ∉ l.map Prod.fst) : (m.setLoraIds l).states s = m.states s := by
  induction l generalizing m with
  | nil => rfl
  | cons p l ih =>
    rw [map_cons, mem_cons, not_or] at h
    rw [setLoraIds, ih h.2]
    exact update_of_ne h.1 _ _

lemma setLoraIds_of_mem {id : Option LoraId} (hnodup : (l.map Prod.fst).Nodup)
    (h : (s, id) ∈ l) : (m.setLoraIds l).states s = { m.states s with loraId := id } := by
  induction l generalizing m with
  | nil => cases h
  | cons p l ih =>
    rw [map_cons, nodup_cons] at hnodup
    rw [setLoraIds]
    rcases mem_cons.mp h with rfl | h
    · rw [setLoraIds_of_notMem hnodup.1]
      exact update_self _ _ _
    · have hne : s ≠ p.1 := fun heq => hnodup.1 (heq ▸ mem_map_of_mem h)
      rw [ih hnodup.2 h]
      simp [modifyState, hne]

lemma setLoraIds_cases (l : List (StateId × Option LoraId)) (s : StateId) :
    ∃ id, (m.setLoraIds l).states s = { m.states s with loraId := id } := by
  induction l generalizing m with
  | nil => exact ⟨_, rfl⟩
  | cons p l ih =>
    obtain ⟨id, hid⟩ := @ih (m.modifyState p.1 fun state => { state with loraId := p.2 })
    refine ⟨id, hid.trans ?_⟩
    by_cases heq : s = p.1
    · subst heq
      simp [modifyState]
    · simp [modifyState, heq]

lemma view_setLoraIds (l : List (StateId × Option LoraId)) (s : StateId) :
    (m.setLoraIds l).view s = { m.view s with state := (m.setLoraIds l).states s } := by
  obtain ⟨id, hid⟩ := setLoraIds_cases (m := m) l s
  have hrid : ((m.setLoraIds l).states s).rid = (m.states s).rid := by rw [hid]
  rw [setLoraIds_eq]
  simp only [view, hrid]

lemma Books.setLoraIds (h : m.Books) (l : List (StateId × Option LoraId)) :
    (m.setLoraIds l).Books := by
  have hmapped : ∀ rid s, m.ridToState rid = some s → s < m.numStates ∧
      ((m.setLoraIds l).states s).rid = rid := by
    intro rid s hs
    obtain ⟨id, hid⟩ := setLoraIds_cases (m := m) l s
    rw [hid]
    exact h.mapped rid s hs
  rw [setLoraIds_eq]
  exact { h with mapped := hmapped }

variable {k : Nat}

/-- The requests of a call get the adapters whose references were taken. -/
lemma Inv.setLoraIds (h : m.Inv) (hc : c < m.numCalls) (hpc : (m.calls c).pc = .incrementing k)
    (hk : (m.calls c).loraId.length ≤ k) :
    ((m.setLoraIds ((m.calls c).items.zip (m.calls c).loraId)).setPc c
    (resolved (m.calls c))).Inv := by
  have hcall := h.calls c hc
  have hstage := hcall.stage
  simp only [StageOk, hpc] at hstage
  obtain ⟨hlora, hlen, hitems, -⟩ := hstage
  have hunsent : (m.calls c).unsent = (m.calls c).items := by simp [Call.unsent, hpc]
  set l := (m.calls c).items.zip (m.calls c).loraId with hl
  have hkeys : l.map Prod.fst = (m.calls c).items := map_fst_zip hlen.ge
  have hcalls : (m.setLoraIds l).calls = m.calls := by rw [setLoraIds_eq]
  have hnumStates : (m.setLoraIds l).numStates = m.numStates := by rw [setLoraIds_eq]
  have hview : ∀ s, (m.states s).holder ≠ .call c → (m.setLoraIds l).view s = m.view s := by
    intro s hs
    rw [view_setLoraIds, setLoraIds_of_notMem]
    · rfl
    · rw [hkeys]
      exact fun hmem => hs (hcall.unsent s (hunsent ▸ hmem))
  rw [resolved, if_pos hcall.single]
  refine h.step_call (c := c) (fun c' hne => ?_) ?_ hnumStates ?_ (fun s _ hs => hview s hs)
    (fun ref href => ⟨ref, ?_, rfl⟩)
    (fun s hs hheld => ?_)
      (hcall.advance (setPc_calls_self.trans (by rw [hcalls])) ?_ hnumStates ?_ ?_)
      ((h.books.setLoraIds l).setPc _)
  · exact (update_of_ne hne _ _).trans (by rw [hcalls])
  · rw [setLoraIds_eq]
    rfl
  · rw [setLoraIds_eq]
    rfl
  · rw [setLoraIds_eq]
    exact href
  · have hkept := h.kept s hs
    obtain ⟨id, hid⟩ := setLoraIds_cases (m := m) l s
    change ((m.setLoraIds l).view s).Kept
    rw [view_setLoraIds, hid]
    exact { hkept with settled := fun hne => absurd hheld (hne c) }
  · rw [setLoraIds_eq]
    rfl
  · rw [setPc_calls_self, hcalls]
    intro s hs
    obtain ⟨id, hid⟩ := setLoraIds_cases (m := m) l s
    change ((m.setLoraIds l).states s).holder = .call c
    rw [hid]
    exact hcall.unsent s (hunsent ▸ hs)
  · rw [setPc_calls_self, hcalls]
    intro s hs
    change ((m.setLoraIds l).view s).Settled
    obtain ⟨i, hi⟩ := getElem?_of_mem hs
    rw [drop_zero] at hi
    obtain ⟨hpath, hcount⟩ := hitems i s hi
    have hlt : i < (m.calls c).loraId.length := hlen ▸ (List.getElem?_eq_some_iff.mp hi).1
    obtain ⟨id, hid⟩ : ∃ id, (m.calls c).loraId[i]? = some id := ⟨_, getElem?_eq_getElem hlt⟩
    have hmem : (s, id) ∈ l :=
      mem_of_getElem? (i := i) (by rw [hl, getElem?_zip_eq_some]; exact ⟨hi, hid⟩)
    rw [view_setLoraIds, setLoraIds_of_mem (hkeys ▸ hcall.nodup) hmem]
    refine ⟨fun id' => ?_, fun hsome => ⟨hlora, ?_⟩⟩
    · simp [hcount id', hid, hlt.trans_le hk]
    · rw [hid] at hpath
      exact hpath.trans hsome

lemma view_incrementCounter {count : Int} (t : StateId) :
    (m.incrementCounter s id count).view t =
      { m.view t with acquires := fun id' => (m.view t).acquires id' + if t = s ∧ id' = id then 1 else 0 } := by
  have hcount : ∀ id', [(s, id)].count (t, id') = if t = s ∧ id' = id then 1 else 0 := by
    intro id'
    rw [count_singleton]
    exact if_congr (by rw [beq_iff_eq, Prod.mk.injEq, eq_comm, @eq_comm _ id]) rfl rfl
  simp only [view, incrementCounter, count_append, hcount]
  rfl

lemma Books.incrementCounter (h : m.Books) {count : Int} (hs : s < m.numStates)
    (hcount : m.counters id = some count) : (m.incrementCounter s id count).Books := by
  have hnone : ∀ id', (m.incrementCounter s id count).counters id' = none ↔
      m.counters id' = none := by
    intro id'
    by_cases hid : id' = id
    · simp [TokenizerManager.incrementCounter, hid, hcount]
    · simp [TokenizerManager.incrementCounter, hid]
  refine ⟨h.mapped, h.removals, ?_, ?_, ?_, ?_,
    fun ref href => (hnone _).not.mpr (h.registered ref href), h.nodup,
    fun id' hid' => ⟨(hnone _).not.mpr (h.unloading id' hid').1, (h.unloading id' hid').2⟩,
    fun id' hid' => (hnone _).mpr (h.unloaded id' hid')⟩
  · intro use huse
    simp only [TokenizerManager.incrementCounter, mem_append, mem_singleton] at huse
    rcases huse with ((huse | rfl) | huse) | huse
    · exact h.uses use (by simp [huse])
    · exact hs
    · exact h.uses use (by simp [huse])
    · exact h.uses use (by simp [huse])
  · intro id' v hv
    by_cases hid : id' = id
    · subst hid
      simp only [TokenizerManager.incrementCounter, update_self, some.injEq] at hv
      have hcounter := h.counter _ count hcount
      simp only [TokenizerManager.incrementCounter, countId_append, countId_singleton, if_true]
      omega
    · simp only [TokenizerManager.incrementCounter, update_of_ne hid] at hv
      rw [h.counter id' v hv]
      simp [TokenizerManager.incrementCounter, Ne.symm hid]
  · intro use huse
    rcases mem_append.mp huse with huse | huse
    · exact (h.known use huse).imp_left (hnone _).not.mpr
    · rw [mem_singleton.mp huse]
      exact .inl ((hnone id).not.mpr (by simp [hcount]))
  · intro use hlt
    by_cases heq : use = (s, id)
    · rw [heq]
      exact (hnone id).not.mpr (by simp [hcount])
    · refine (hnone _).not.mpr (h.outstanding use ?_)
      simpa [TokenizerManager.incrementCounter, Ne.symm heq] using hlt

/-- A call takes the next of its references. -/
lemma Inv.acquireIncrement (h : m.Inv) (hc : c < m.numCalls)
    (hpc : (m.calls c).pc = .incrementing k) :
    (m.acquireIncrement c k).Inv := by
  have hcall := h.calls c hc
  have hstage := hcall.stage
  simp only [StageOk, hpc] at hstage
  obtain ⟨hlora, hlen, hitems, hleft⟩ := hstage
  have hunsent : (m.calls c).unsent = (m.calls c).items := by simp [Call.unsent, hpc]
  have hdrop : ∀ id, some id ∈ (m.calls c).loraId.drop (k + 1) →
    some id ∈ (m.calls c).loraId.drop k := fun id hid => by
    rw [← drop_drop] at hid
    exact mem_of_mem_drop hid
  unfold TokenizerManager.acquireIncrement
  simp only
  split
  · rename_i hk
    exact h.setLoraIds hc hpc (getElem?_eq_none_iff.mp hk)
  · -- a request without an adapter
    rename_i hk
    refine h.setPc hc (fun s hs => hcall.unsent s (hunsent ▸ hs)) ⟨hlora,
      hlen, fun i s hs => ?_, fun id hid => hleft id (hdrop id hid)⟩
    refine ⟨(hitems i s hs).1, fun id => ((hitems i s hs).2 id).trans (if_congr ?_ rfl rfl)⟩
    refine ⟨fun hi => ⟨hi.1.trans (Nat.lt_succ_self k), hi.2⟩, fun hi => ⟨?_, hi.2⟩⟩
    refine lt_of_le_of_ne (Nat.lt_succ_iff.mp hi.1) ?_
    rintro rfl
    simp [hk] at hi
  · rename_i id hk
    have hklt : k < (m.calls c).items.length := hlen ▸ (List.getElem?_eq_some_iff.mp hk).1
    obtain ⟨s, hs⟩ : ∃ s, (m.calls c).items[k]? = some s := ⟨_, getElem?_eq_getElem hklt⟩
    have hmem : some id ∈ (m.calls c).loraId.drop k := mem_of_getElem? (i := 0) (by simpa using hk)
    obtain ⟨ref, href, rfl⟩ := hleft id hmem
    have hslt := hcall.lt s (mem_of_getElem? hs)
    have hheld := hcall.unsent s (hunsent ▸ mem_of_getElem? hs)
    split
    · rename_i hnone
      exact absurd hnone (h.books.registered ref href)
    rename_i count hcount
    have hitem : (m.calls c).items.getD k m.numStates = s := by simp [hs]
    rw [hitem]
    set m1 := m.setPc c (.incrementing (k + 1)) with hm1
    have hview : ∀ t ≠ s, (m1.incrementCounter s ref.loraId count).view t = m.view t := by
      intro t hne
      rw [view_incrementCounter]
      simp only [hne, false_and, if_false, Nat.add_zero]
      rfl
    have hcalls : (m1.incrementCounter s ref.loraId count).calls c =
      { m.calls c with pc := .incrementing (k + 1) } := setPc_calls_self
    have hzero : ∀ id, (m.view s).acquires id = 0 := fun id => by simpa using (hitems k s hs).2 id
    refine h.step_call (c := c) (fun c' hne => update_of_ne hne _ _) rfl rfl rfl
      (fun t _ ht => hview t fun heq => ht (heq ▸ hheld))
      (fun ref href => ⟨ref, href, rfl⟩) (fun t htlt ht => ?_) (hcall.advance hcalls rfl rfl ?_ ?_)
      ((h.books.setPc _).incrementCounter hslt hcount)
    · by_cases heq : t = s
      · subst heq
        have hkept := h.kept t htlt
        rw [view_incrementCounter]
        refine { hkept with
          gone := fun hgone => absurd (hheld.symm.trans hgone) (by simp)
          once := fun id => ?_
          settled := fun hne => absurd hheld (hne c) }
        have hz : (m1.view t).acquires id = 0 := hzero id
        simp only [hz]
        split <;> simp
      · rw [hview t heq]
        exact h.kept t htlt
    · rw [hcalls]
      exact fun t ht => hcall.unsent t (hunsent ▸ ht)
    · rw [hcalls]
      refine ⟨hlora, hlen, fun i t ht => ⟨(hitems i t ht).1, fun id => ?_⟩,
        fun id hid => hleft id (hdrop id hid)⟩
      by_cases hik : i = k
      · subst hik
        cases hs.symm.trans ht
        have hz : (m1.view s).acquires id = 0 := hzero id
        rw [view_incrementCounter]
        simp only [hz, hk, Nat.zero_add, true_and, Nat.lt_succ_self, some.injEq]
        exact if_congr eq_comm rfl rfl
      · have hne : t ≠ s := by
          rintro rfl
          exact hik ((List.getElem?_inj (List.getElem?_eq_some_iff.mp ht).1 hcall.nodup).mp
            (ht.trans hs.symm))
        rw [hview t hne, (hitems i t ht).2 id]
        exact if_congr (and_congr_left' (by omega)) rfl rfl

/-! #### Sending -/

/-- A request is sent and from then on waited for. -/
lemma Inv.sendOneRequest (h : m.Inv) (hc : c < m.numCalls) (hpc : (m.calls c).pc = .sending k) :
    (m.sendOneRequest c k).Inv := by
  have hcall := h.calls c hc
  have hstage := hcall.stage
  simp only [StageOk, hpc] at hstage
  have hunsent : (m.calls c).unsent = (m.calls c).items.drop k := by simp [Call.unsent, hpc]
  unfold TokenizerManager.sendOneRequest
  split
  · exact h.setPc hc nofun trivial
  rename_i s hs
  have hdrop : (m.calls c).items.drop k = s :: (m.calls c).items.drop (k + 1) := by
    obtain ⟨hk, heq⟩ := List.getElem?_eq_some_iff.mp hs
    rw [drop_eq_getElem_cons hk, heq]
  have hheld := hcall.unsent s (by simp [hunsent, hdrop])
  have hsettled := hstage s (by simp [hdrop])
  have hne : ∀ t ∈ (m.calls c).items.drop (k + 1), t ≠ s := by
    have hnodup := hcall.nodup.sublist (drop_sublist k _)
    rw [hdrop] at hnodup
    exact fun t ht heq => (nodup_cons.mp hnodup).1 (heq ▸ ht)
  set f : ReqState → ReqState :=
    fun state => { state with holder := .scheduler, waiting := true } with hf
  set m' := (m.modifyState s f).setPc c (.sending (k + 1))
  have hview : ∀ t ≠ s, m'.view t = m.view t := by
    intro t hne
    change (m.modifyState s f).view t = m.view t
    rw [view_modifyState rfl, if_neg hne]
  have hself : m'.view s = { m.view s with state := f (m.states s) } := by
    change (m.modifyState s f).view s = _
    rw [view_modifyState rfl, if_pos rfl]
  have hcalls : m'.calls c = { m.calls c with pc := .sending (k + 1) } :=
    update_self _ _ _
  refine h.step_call (c := c) (fun c' hne => update_of_ne hne _ _) rfl rfl rfl
    (fun t _ ht => hview t fun heq => ht (heq ▸ hheld)) (fun ref href => ⟨ref, href, rfl⟩)
      (fun t htlt ht => ?_)
    (hcall.advance hcalls rfl rfl ?_ ?_) ((h.books.modifyState rfl).setPc _)
  · by_cases heq : t = s
    · subst heq
      have hkept := h.kept t htlt
      have hreason : (m.states t).finishReason = none := hkept.unfinished (.inl ⟨c, hheld⟩)
      rw [hself]
      refine ⟨fun _ => hkept.held ?_, nofun, hkept.once, fun _ => hreason,
        nofun, nofun, ?_, fun _ => ⟨hsettled.acquires, hsettled.lora⟩⟩
      · simp [view, hheld]
      · intro reason _ hsome
        simp [hf, hreason] at hsome
    · rw [hview t heq]
      exact h.kept t htlt
  · rw [hcalls]
    intro t ht
    have hstate := congrArg View.state (hview t (hne t ht))
    exact (congrArg ReqState.holder hstate).trans
      (hcall.unsent t (by rw [hunsent, hdrop]; exact mem_cons_of_mem s ht))
  · rw [hcalls]
    intro t ht
    rw [hview t (hne t ht)]
    exact hstage t (by rw [hdrop]; exact mem_cons_of_mem s ht)

end Calls

/-! ### New requests -/

section Create

variable {isStream : Bool} {items : List (Rid × Option LoraName)}

/-- States for `items`, made after those of `m`. -/
structure Created (m : TokenizerManager) (c : CallId) (isStream : Bool)
    (items : List (Rid × Option LoraName)) (m' : TokenizerManager) : Prop where
  frame :
    m' =
    { m with ridToState := m'.ridToState, states := m'.states, numStates := m.numStates + items.length }
  old : ∀ s < m.numStates, m'.states s = m.states s
  new : ∀ i rid loraPath, items[i]? = some (rid, loraPath) →
    m'.states (m.numStates + i) = { rid, loraPath, isStream, holder := .call c } ∧
    m'.ridToState rid = some (m.numStates + i)
  other : ∀ rid, rid ∉ items.map Prod.fst → m'.ridToState rid = m.ridToState rid

lemma initReqState_spec (hnodup : (items.map Prod.fst).Nodup)
    (hfree : ∀ rid ∈ items.map Prod.fst, m.ridToState rid = none) :
    (initReqState c isStream items m).2 = false ∧ Created m c isStream items
    (initReqState c isStream items m).1 := by
  induction items generalizing m with
  | nil => exact ⟨rfl, rfl, fun _ _ => rfl, nofun, fun _ _ => rfl⟩
  | cons item items ih =>
    obtain ⟨rid, loraPath⟩ := item
    rw [map_cons, nodup_cons] at hnodup
    have hnone : (m.ridToState rid).isSome = false := by simp [hfree rid (by simp)]
    set state : ReqState := { rid, loraPath, isStream, holder := .call c } with hstate
    have hstep : initReqState c isStream ((rid, loraPath) :: items) m =
        initReqState c isStream items (m.addState state) := by
      simp [initReqState, hnone, hstate]
    obtain ⟨hflag, hcreated⟩ := @ih (m.addState state) hnodup.2 fun rid' hrid' => by
      have hne : rid' ≠ rid := fun heq => hnodup.1 (heq ▸ hrid')
      simpa [addState, hstate, hne] using hfree rid' (mem_cons_of_mem _ hrid')
    rw [hstep]
    refine ⟨hflag, ?_, fun s hs => ?_, fun i rid' loraPath' hi => ?_, fun rid' hrid' => ?_⟩
    · rw [hcreated.frame]
      simp only [addState, length_cons]
      congr 1
      omega
    · rw [hcreated.old s (hs.trans (Nat.lt_succ_self _))]
      exact update_of_ne hs.ne _ _
    · cases i with
      | zero =>
        cases hi
        refine ⟨(hcreated.old _ (Nat.lt_succ_self _)).trans (update_self _ _ _), ?_⟩
        rw [hcreated.other rid hnodup.1]
        exact update_self _ _ _
      | succ i =>
        have hnew := hcreated.new i rid' loraPath' (by simpa using hi)
        rwa [show (m.addState state).numStates + i =
          m.numStates + (i + 1) from by simp only [addState]; omega] at hnew
    · rw [map_cons, mem_cons, not_or] at hrid'
      rw [hcreated.other rid' hrid'.2]
      exact update_of_ne hrid'.1 _ _

section
variable (h : Created m c isStream items m')
include h

lemma Created.numStates_eq : m'.numStates = m.numStates + items.length :=
  congrArg numStates h.frame

lemma Created.view_old
    (hfree : ∀ rid ∈ items.map Prod.fst, m.ridToState rid = none) (hs : s < m.numStates) :
    m'.view s = m.view s := by
  have hentry : m'.ridToState (m.states s).rid = some s ↔
      m.ridToState (m.states s).rid = some s := by
    by_cases hmem : (m.states s).rid ∈ items.map Prod.fst
    · -- the request ID was taken over: neither entry is that of `s`
      rw [hfree _ hmem]
      obtain ⟨⟨rid, loraPath⟩, hitem, heq⟩ := mem_map.mp hmem
      obtain ⟨i, hi⟩ := getElem?_of_mem hitem
      rw [← heq, (h.new i rid loraPath hi).2, some.injEq]
      simp only [reduceCtorEq, iff_false]
      exact (hs.trans_le (Nat.le_add_right _ _)).ne'
    · rw [h.other _ hmem]
  rw [h.frame]
  simp only [view, h.old s hs, hentry]

lemma Created.view_new (hbooks : m.Books) {i : Nat} {rid : Rid} {loraPath : Option LoraName}
    (hi : items[i]? = some (rid, loraPath)) :
    m'.view (m.numStates + i) =
      ⟨{ rid, loraPath, isStream, holder := .call c }, m.enableLora, true,
      0, fun _ => 0, fun _ => 0, fun _ => 0⟩ := by
  obtain ⟨hstate, hentry⟩ := h.new i rid loraPath hi
  have huses : ∀ id, (m.numStates + i, id) ∉ m.acquires ++ m.releases ++ m.releaseTasks :=
    fun id hmem =>
    absurd (hbooks.uses _ hmem) (by simp)
  simp only [mem_append, not_or] at huses
  have hremovals : m.removals.count (m.numStates + i) = 0 :=
    count_eq_zero.mpr fun hmem => absurd (hbooks.removals _ hmem) (by simp)
  rw [h.frame]
  simp only [view, hstate, hentry, decide_true, hremovals, count_eq_zero.mpr (huses _).1.1,
    count_eq_zero.mpr (huses _).1.2, count_eq_zero.mpr (huses _).2]

lemma Created.books (hbooks : m.Books) : m'.Books := by
  have hle : m.numStates ≤ m.numStates + items.length := Nat.le_add_right _ _
  have hmapped : ∀ rid s, m'.ridToState rid = some s → s < m.numStates + items.length ∧
      (m'.states s).rid = rid := by
    intro rid s hs
    by_cases hmem : rid ∈ items.map Prod.fst
    · obtain ⟨⟨rid', loraPath⟩, hitem, rfl⟩ := mem_map.mp hmem
      obtain ⟨i, hi⟩ := getElem?_of_mem hitem
      obtain ⟨hstate, hentry⟩ := h.new i rid' loraPath hi
      cases hentry.symm.trans hs
      exact ⟨Nat.add_lt_add_left (List.getElem?_eq_some_iff.mp hi).1 _, by rw [hstate]⟩
    · rw [h.other rid hmem] at hs
      obtain ⟨hlt, hrid⟩ := hbooks.mapped rid s hs
      exact ⟨hlt.trans_le hle, (h.old s hlt).symm ▸ hrid⟩
  rw [h.frame]
  exact { hbooks with
    mapped := hmapped
    removals := fun s hs => (hbooks.removals s hs).trans_le hle
    uses := fun use huse => (hbooks.uses use huse).trans_le hle }

end

lemma items_spec (rids : List Rid) (loraPath : Option (List (Option LoraName)))
    (hlen : ∀ names, loraPath = some names → names.length = rids.length) :
    (rids.zip ((loraPath.getD []) ++ List.replicate rids.length none)).map Prod.fst = rids ∧
      ∀ (i : Nat) (rid : Rid) (path : Option LoraName),
      (rids.zip ((loraPath.getD []) ++ List.replicate rids.length none))[i]? = some (rid, path) →
        path = ((loraPath.getD [])[i]?).join := by
  refine ⟨map_fst_zip (by simp), fun i rid path hi => ?_⟩
  rw [getElem?_zip_eq_some] at hi
  obtain ⟨hrid, hpath⟩ := hi
  have hlt : i < rids.length := (List.getElem?_eq_some_iff.mp hrid).1
  cases loraPath with
  | none =>
    simp only [getD_none, nil_append, getElem?_replicate, hlt, if_true, some.injEq] at hpath
    simp [← hpath]
  | some names =>
    rw [getD_some, getElem?_append_left (by rw [hlen names rfl]; exact hlt)] at hpath
    simp [hpath]

variable {loraPath : Option (List (Option LoraName))}

lemma Inv.addCall (h : m.Inv) {batchSize : Nat}
    (hcreated : Created m m.numCalls isStream items m')
    (hfree : ∀ rid ∈ items.map Prod.fst, m.ridToState rid = none)
    (hpaths : ∀ (i : Nat) (rid : Rid) (path : Option LoraName), items[i]? = some (rid, path) →
    path = ((loraPath.getD [])[i]?).join)
    (hnames : ∀ names, loraPath = some names → m.enableLora = true ∧ names.length = items.length) :
    (m'.addCall
    { batchSize, parallelSampleNum := 1, items := range' m.numStates items.length, loraPath }).Inv := by
  have hbooks := hcreated.books h.books
  have hnumStates := hcreated.numStates_eq
  have hnumCalls : m'.numCalls = m.numCalls := by rw [hcreated.frame]
  have hcalls : m'.calls = m.calls := by rw [hcreated.frame]
  have hlora : m'.enableLora = m.enableLora := by rw [hcreated.frame]
  have hregistry : m'.registry = m.registry := by rw [hcreated.frame]
  have hitem :
      ∀ i < items.length, ∃ rid, items[i]? = some (rid, ((loraPath.getD [])[i]?).join) := by
    intro i hi
    obtain ⟨⟨rid, path⟩, hget⟩ : ∃ item, items[i]? = some item := ⟨_, getElem?_eq_getElem hi⟩
    exact ⟨rid, hpaths i rid path hget ▸ hget⟩
  have hnew : ∀ i < items.length, ∃ rid, m'.view (m.numStates + i) =
      ⟨{ rid, loraPath := ((loraPath.getD [])[i]?).join, isStream, holder := .call m.numCalls },
      m.enableLora, true, 0,
        fun _ => 0, fun _ => 0, fun _ => 0⟩ := by
    intro i hi
    obtain ⟨rid, hget⟩ := hitem i hi
    exact ⟨rid, hcreated.view_new h.books hget⟩
  refine ⟨fun s hs => ?_, fun c hc => ?_, { hbooks with }⟩
  · change (m'.view s).Kept
    by_cases hold : s < m.numStates
    · rw [hcreated.view_old hfree hold]
      exact h.kept s hold
    · obtain ⟨i, rfl⟩ := Nat.exists_eq_add_of_le (Nat.le_of_not_lt hold)
      obtain ⟨rid, hview⟩ := hnew i (Nat.lt_of_add_lt_add_left (hs.trans_eq hnumStates))
      rw [hview]
      exact ⟨fun _ => ⟨rfl, rfl, fun _ => ⟨rfl, rfl⟩⟩, nofun, fun _ => Nat.zero_le _,
        fun _ => rfl, fun _ _ => rfl, nofun, nofun,
        fun hne => absurd rfl (hne m.numCalls)⟩
  · by_cases hold : c < m.numCalls
    · refine (h.calls c hold).frame_states ?_ hlora
        (hnumStates.ge.trans' (Nat.le_add_right _ _)) hregistry
        fun s hs _ => hcreated.view_old hfree hs
      have hne : c ≠ m'.numCalls := hnumCalls.symm ▸ hold.ne
      exact (update_of_ne hne _ _).trans (congrFun hcalls c)
    · obtain rfl : c = m'.numCalls := by
        have hlt : c < m'.numCalls + 1 := hc
        omega
      have hstate : ∀ i < items.length, ∃ rid, m'.states (m.numStates + i) =
          { rid, loraPath := ((loraPath.getD [])[i]?).join, isStream, holder := .call m.numCalls } := fun i hi =>
        (hnew i hi).imp fun _ hview => congrArg View.state hview
      refine ⟨?_, ?_, ?_, ?_, ?_, ?_⟩
      all_goals simp only [TokenizerManager.addCall, update_self]
      · exact nodup_range'
      · intro s hs
        exact hnumStates ▸ (mem_range'_1.mp hs).2
      · intro s hs
        obtain ⟨hle, hlt⟩ := mem_range'_1.mp hs
        obtain ⟨i, rfl⟩ := Nat.exists_eq_add_of_le hle
        obtain ⟨rid, hst⟩ := hstate i (Nat.lt_of_add_lt_add_left hlt)
        rw [hst, hnumCalls]
      · intro names hn
        rw [length_range', hlora]
        exact hnames names hn
      · intro i s hs
        obtain ⟨hi, heq⟩ := List.getElem?_eq_some_iff.mp hs
        rw [length_range'] at hi
        obtain rfl : m.numStates + i = s := by simpa using heq
        obtain ⟨rid, hview⟩ := hnew i hi
        refine ⟨?_, ?_, fun id => ?_⟩
        · exact congrArg (·.state.loraPath) hview
        · exact congrArg (·.state.loraId) hview
        · exact congrArg (·.acquires id) hview

/-- A new call makes a state for each of its requests. -/
lemma Inv.generateRequest (h : m.Inv) {batchSize : Nat} {rids : List Rid}
    (hlen : rids.length = batchSize) (hnodup : rids.Nodup)
    (hfree : ∀ rid ∈ rids, m.ridToState rid = none)
    (hnames : ∀ names, loraPath = some names → m.enableLora = true ∧ names.length = batchSize) :
    (m.generateRequest batchSize 1 rids loraPath isStream).Inv := by
  obtain ⟨hkeys, hpaths⟩ :=
    items_spec rids loraPath fun names hn => (hnames names hn).2.trans hlen.symm
  unfold TokenizerManager.generateRequest
  set items := rids.zip ((loraPath.getD []) ++ List.replicate rids.length none) with hitems
  have hlength : items.length = batchSize := by
    rw [← length_map, hkeys, hlen]
  obtain ⟨hflag, hcreated⟩ : (initReqState m.numCalls isStream items m).2 = false ∧
      Created m m.numCalls isStream items (initReqState m.numCalls isStream items m).1 :=
    initReqState_spec (hkeys.symm ▸ hnodup) (hkeys.symm ▸ hfree)
  simp only [hflag, Bool.false_eq_true, if_false, hcreated.numStates_eq, Nat.add_sub_cancel_left]
  exact h.addCall hcreated (hkeys.symm ▸ hfree) hpaths (hlength.symm ▸ hnames)

end Create

/-! ### Runs -/

lemma Inv.create (enableLora : Bool) (maxLoadedLoras : Option Nat) :
    (create enableLora maxLoadedLoras).Inv where
  kept s hs := absurd hs (Nat.not_lt_zero s)
  calls c hc := absurd hc (Nat.not_lt_zero c)
  books :=
    ⟨nofun, nofun, nofun, nofun, nofun, fun _ h => absurd h (by simp [TokenizerManager.create]),
    nofun, .nil, nofun, nofun⟩

/-- Every tame step keeps the ledger in order. -/
lemma Inv.step {e : Event} (h : m.Inv) (htame : m.Tame e) (hstep : m.step e = some m') :
    m'.Inv := by
  have hcaching : ∀ c < m.numCalls, ∀ k request, (m.calls c).pc ≠ .caching k request := by
    intro c hc k request heq
    have hstage := (h.calls c hc).stage
    simp [StageOk, heq] at hstage
  cases e with
  | generateRequest batchSize parallelSampleNum rids loraPath isStream =>
    obtain ⟨rfl, hlen, hnodup, hfree, hnames⟩ := htame
    cases hstep
    exact h.generateRequest hlen hnodup hfree hnames
  | acquireLookup c =>
    obtain ⟨⟨hc, hpc⟩, heq⟩ := ite_none_right_eq_some.mp hstep
    cases heq
    exact h.acquireLookup hc hpc htame
  | acquireIncrement c =>
    simp only [TokenizerManager.step] at hstep
    split at hstep
    · rename_i k hpc
      obtain ⟨hc, heq⟩ := ite_none_right_eq_some.mp hstep
      cases heq
      exact h.acquireIncrement hc hpc
    · cases hstep
  | sendOneRequest c =>
    simp only [TokenizerManager.step] at hstep
    split at hstep
    · rename_i k hpc
      obtain ⟨hc, heq⟩ := ite_none_right_eq_some.mp hstep
      cases heq
      exact h.sendOneRequest hc hpc
    · cases hstep
  | cachePrefix c _ | expand c _ =>
    simp only [TokenizerManager.step] at hstep
    split at hstep
    · rename_i k hpc
      obtain ⟨⟨hc, -⟩, -⟩ := ite_none_right_eq_some.mp hstep
      exact absurd hpc (hcaching c hc _ _)
    · cases hstep
  | fail c => exact htame.elim
  | batchOutput s reason =>
    obtain ⟨⟨hs, hheld⟩, heq⟩ := ite_none_right_eq_some.mp hstep
    cases heq
    exact h.batchOutput hs hheld htame
  | abortReq s statusCode =>
    obtain ⟨⟨hs, hheld⟩, heq⟩ := ite_none_right_eq_some.mp hstep
    exact h.abortReq hs hheld htame.1 htame.2 heq
  | wake s =>
    simp only [TokenizerManager.step] at hstep
    split at hstep
    · rename_i reason hreason
      obtain ⟨⟨hs, hwaits⟩, heq⟩ := ite_none_right_eq_some.mp hstep
      cases heq
      exact h.wake hs hwaits hreason
    · cases hstep
  | disconnect s =>
    obtain ⟨⟨hs, hwaits, hreason⟩, heq⟩ := ite_none_right_eq_some.mp hstep
    cases heq
    exact h.disconnect hs hwaits hreason
  | release use =>
    obtain ⟨huse, heq⟩ := ite_none_right_eq_some.mp hstep
    cases heq
    exact h.release huse
  | load ref =>
    obtain ⟨⟨hfree, hnone, hnew⟩, heq⟩ := ite_none_right_eq_some.mp hstep
    cases heq
    exact h.load hfree hnone hnew
  | unload name =>
    obtain ⟨-, heq⟩ := ite_none_right_eq_some.mp hstep
    cases heq
    exact h.unregister htame
  | evictLru =>
    simp only [TokenizerManager.step] at hstep
    split at hstep
    · rename_i name max hname hmax
      obtain ⟨-, heq⟩ := ite_none_right_eq_some.mp hstep
      cases heq
      exact h.unregister fun ref href heq => htame ref href (hname.trans (by rw [heq]))
    · cases hstep
  | unloadReady =>
    simp only [TokenizerManager.step] at hstep
    split at hstep
    · cases hstep
    · rename_i id hunloading
      obtain ⟨hzero, heq⟩ := ite_none_right_eq_some.mp hstep
      cases heq
      exact h.unloadReady hunloading hzero

/-- A request is in `rid_to_state` until it ends and is removed once; a reference is dropped once
when its request has ended; no counter is negative; and no request that is under way has an unloaded
adapter. -/
structure Exact (m : TokenizerManager) : Prop where
  pending : ∀ s < m.numStates, (m.states s).holder ≠ .nobody →
    m.ridToState (m.states s).rid = some s ∧ m.removals.count s = 0
  ended : ∀ s < m.numStates, (m.states s).holder = .nobody →
    m.ridToState (m.states s).rid ≠ some s ∧ m.removals.count s = 1
  acquired : ∀ use, m.acquires.count use ≤ 1
  reserved : ∀ use : StateId × LoraId, (m.states use.1).holder ≠ .nobody →
    m.releases.count use + m.releaseTasks.count use = 0
  released : ∀ use : StateId × LoraId, (m.states use.1).holder = .nobody →
    m.releases.count use + m.releaseTasks.count use = m.acquires.count use
  counters : ∀ id count, m.counters id = some count → 0 ≤ count
  unloaded : ∀ id ∈ m.unloaded, ∀ s < m.numStates, (m.states s).holder = .scheduler →
    (m.states s).loraId ≠ some id

lemma Inv.exact (h : m.Inv) : m.Exact := by
  have hnew : ∀ use : StateId × LoraId, ¬ use.1 < m.numStates →
      m.acquires.count use = 0 ∧ m.releases.count use = 0 ∧ m.releaseTasks.count use = 0 := by
    intro use hlt
    have hmem : use ∉ m.acquires ++ m.releases ++ m.releaseTasks :=
      fun hmem => hlt (h.books.uses use hmem)
    simpa [count_eq_zero, and_assoc] using hmem
  refine ⟨fun s hs hheld => ⟨h.entry hs hheld, ((h.kept s hs).held hheld).2.1⟩,
    fun s hs hgone => ?_, fun use => ?_, fun use hheld => ?_,
    fun use hgone => ?_, fun id count hcount => ?_, fun id hid s hs hheld heq => ?_⟩
  · obtain ⟨hentry, hremovals, -⟩ := (h.kept s hs).gone hgone
    exact ⟨by simpa [view] using hentry, hremovals⟩
  · by_cases hlt : use.1 < m.numStates
    · exact (h.kept use.1 hlt).once use.2
    · simp [hnew use hlt]
  · by_cases hlt : use.1 < m.numStates
    · obtain ⟨hreleases, htasks⟩ := ((h.kept use.1 hlt).held hheld).2.2 use.2
      exact Nat.add_eq_zero_iff.mpr ⟨hreleases, htasks⟩
    · simp [hnew use hlt]
  · by_cases hlt : use.1 < m.numStates
    · exact ((h.kept use.1 hlt).gone hgone).2.2 use.2
    · simp [hnew use hlt]
  · have hle := h.countId_releases_le id
    rw [h.books.counter id count hcount]
    omega
  · -- its reference is outstanding, so the adapter has a counter
    have hkept := h.kept s hs
    have hacquires : m.acquires.count (s, id) = 1 :=
      ((hkept.settled (by simp [view, hheld])).acquires id).trans (if_pos heq)
    have hreleases : m.releases.count (s, id) = 0 := ((hkept.held (by simp [view, hheld])).2.2 id).1
    exact h.books.outstanding (s, id) (by omega) (h.books.unloaded id hid)

/-- One step of a run whose steps clean up after themselves. -/
def TameStep (m m' : TokenizerManager) : Prop := ∃ e, m.Tame e ∧ m.step e = some m'

/-- In every run whose steps are tame, request states and references are accounted for in every
state reached. -/
theorem requests_released_once {enableLora : Bool} {maxLoadedLoras : Option Nat}
    {history : List TokenizerManager}
    (hrun : Runs.Run TameStep (create enableLora maxLoadedLoras) history) :
    ∀ m ∈ history, m.Exact := by
  have hinv : ∀ m ∈ history, m.Inv := by
    refine hrun.invariant (Inv.create enableLora maxLoadedLoras) ?_
    rintro m m' h ⟨e, htame, hstep⟩
    exact h.step htame hstep
  exact fun m hm => (hinv m hm).exact

def adapter : LoraRef := ⟨7, 3, false⟩

/-- The events up to the point where the only request of a call, with an adapter, is about to be
sent. -/
def resolving : List Event :=
  [.load adapter, .generateRequest 1 1 [0] (some [some 3]) false, .acquireLookup 0,
    .acquireIncrement 0, .acquireIncrement 0]

/-- A request with an adapter, aborted with a server error while it waits, and the unloading of the
adapter. -/
def abortedRun : List Event :=
  resolving ++ [.sendOneRequest 0, .sendOneRequest 0, .unload 3, .abortReq 0 (some 503),
    .wake 0, .release (0, 7), .unloadReady]

lemma Tame.extend {m m' start : TokenizerManager} {past : List TokenizerManager}
    (hrun : Runs.Run TameStep start (m :: past)) (e : Event) (htame : m.Tame e)
    (hstep : m.step e = some m') : Runs.Run TameStep start (m' :: m :: past) :=
  hrun.cons ⟨e, htame, hstep⟩

open Tame

theorem requests_released_once_abortedRun :
    ∃ history, Runs.Run TameStep (create true none) history ∧
    (∃ m ∈ history, abortedRun.foldlM step (create true none) = some m ∧
    m.unloaded = [7] ∧ m.removals = [0] ∧ m.releases = [(0, 7)]) ∧
    ∀ m ∈ history, m.Exact := by
  have hload := extend (.nil : Runs.Run TameStep (create true none) _) (.load adapter) trivial rfl
  have hcall := extend hload (.generateRequest 1 1 [0] (some [some 3]) false)
    ⟨rfl, rfl, by decide, by decide, fun names h => some.inj h ▸ ⟨rfl, rfl⟩⟩ rfl
  have hlookup := extend hcall (.acquireLookup 0)
    (fun names h name hname => ⟨adapter, mem_singleton_self _, by
      cases h
      simpa [adapter, eq_comm] using hname⟩) rfl
  have hcounted :=
    extend (extend hlookup (.acquireIncrement 0) trivial rfl) (.acquireIncrement 0) trivial rfl
  have hsent :=
    extend (extend hcounted (.sendOneRequest 0) trivial rfl) (.sendOneRequest 0) trivial rfl
  have hunload := extend hsent (.unload 3) (fun _ _ _ c hc k hpc => by
    obtain rfl : c = 0 := Nat.lt_one_iff.mp hc
    cases hpc) rfl
  have habort := extend hunload (.abortReq 0 (some 503)) ⟨rfl, rfl⟩ rfl
  have hrelease := extend (extend habort (.wake 0) trivial rfl) (.release (0, 7)) trivial rfl
  have hdone := extend hrelease .unloadReady trivial rfl
  exact ⟨_, hdone, ⟨_, mem_cons_self, rfl, rfl, rfl, rfl⟩, requests_released_once hdone⟩

/-- **Unloading waits for nobody else.** Once the requests that took a reference to the adapter have
ended and their release tasks have run, it goes on. -/
theorem unload_not_blocked {enableLora : Bool} {maxLoadedLoras : Option Nat}
    {history : List TokenizerManager}
    (hrun : Runs.Run TameStep (create enableLora maxLoadedLoras) history)
    {m : TokenizerManager} (hm : m ∈ history) {id : LoraId} (hunloading : m.unloading = some id)
    (hended : ∀ use ∈ m.acquires, use.2 = id → (m.states use.1).holder = .nobody)
    (htasks : ∀ use ∈ m.releaseTasks, use.2 ≠ id) : (m.step .unloadReady).isSome := by
  have h : m.Inv :=
    hrun.invariant (Inv.create enableLora maxLoadedLoras)
    (fun _ _ h ⟨_, htame, hstep⟩ => h.step htame hstep) m hm
  obtain ⟨count, hcount⟩ := ne_none_iff_exists'.mp (h.books.unloading id hunloading).1
  -- every reference to the adapter has been dropped
  have hsub : m.acquires.filter (·.2 = id) <+~ m.releases := by
    refine subperm_ext_iff.mpr fun use huse => ?_
    obtain ⟨hacquired, hid⟩ : use ∈ m.acquires ∧ use.2 = id := by simpa using huse
    have htask : m.releaseTasks.count use = 0 := count_eq_zero.mpr fun htask => htasks use htask hid
    have := h.exact.released use (hended use hacquired hid)
    have := (filter_sublist (p := (·.2 = id)) (l := m.acquires)).count_le use
    omega
  have hle : countId m.acquires id ≤ countId m.releases id := by
    simpa [countId, countP_filter] using hsub.countP_le (·.2 = id)
  have hge := h.countId_releases_le id
  have hzero : count = 0 := by
    rw [h.books.counter id count hcount]
    omega
  simp [step, hunloading, hcount, hzero]

/-- A request with the adapter finishes while the unloading waits for it. -/
theorem unload_not_blocked_finished :
    ∃ history m, Runs.Run TameStep (create true none) history ∧ m ∈ history ∧
    m.acquires = [(0, 7)] ∧ m.unloading = some 7 ∧ (m.step .unloadReady).isSome := by
  have hload := extend (.nil : Runs.Run TameStep (create true none) _) (.load adapter) trivial rfl
  have hcall := extend hload (.generateRequest 1 1 [0] (some [some 3]) false)
    ⟨rfl, rfl, by decide, by decide, fun names h => some.inj h ▸ ⟨rfl, rfl⟩⟩ rfl
  have hlookup := extend hcall (.acquireLookup 0)
    (fun names h name hname => ⟨adapter, mem_singleton_self _, by
      cases h
      simpa [adapter, eq_comm] using hname⟩) rfl
  have hcounted :=
    extend (extend hlookup (.acquireIncrement 0) trivial rfl) (.acquireIncrement 0) trivial rfl
  have hsent :=
    extend (extend hcounted (.sendOneRequest 0) trivial rfl) (.sendOneRequest 0) trivial rfl
  have hunload := extend hsent (.unload 3) (fun _ _ _ c hc k hpc => by
    obtain rfl : c = 0 := Nat.lt_one_iff.mp hc
    cases hpc) rfl
  have hreleased :=
    extend (extend hunload (.batchOutput 0 .stop) (.inl rfl) rfl) (.release (0, 7)) trivial rfl
  exact ⟨_, _, hreleased, mem_cons_self, rfl, rfl,
    unload_not_blocked hreleased mem_cons_self rfl (forall_mem_singleton.mpr fun _ => rfl)
    (forall_mem_nil _)⟩

/-- The events lead to a state that is not exact. -/
def GoesWrong (events : List Event) : Prop :=
  ∃ m, events.foldlM step (create true none) = some m ∧ ¬ m.Exact

/-- What goes wrong: an abort without a code, a failed tokenization, a finish with a server error,
parallel sampling, and an adapter that is unloaded between its lookup and its counter. -/
theorem requests_not_released_once :
    GoesWrong [.generateRequest 1 1 [0] none false, .acquireLookup 0, .sendOneRequest 0,
    .abortReq 0 none, .wake 0] ∧
    GoesWrong (resolving ++ [.fail 0]) ∧
    GoesWrong
    (resolving ++ [.sendOneRequest 0, .batchOutput 0 (.abort (some 500)),
    .release (0, 7), .wake 0, .release (0, 7)]) ∧
    GoesWrong [.generateRequest 1 2 [0, 1] none false, .acquireLookup 0,
    .cachePrefix 0 2, .batchOutput 2 .stop, .wake 2,
      .expand 0 [[3, 4]]] ∧
    GoesWrong [.load adapter, .generateRequest 1 1 [0] (some [some 3]) false,
    .acquireLookup 0, .unload 3, .unloadReady,
      .acquireIncrement 0] := by
  refine ⟨⟨_, rfl, fun h => ?_⟩, ⟨_, rfl, fun h => ?_⟩, ⟨_, rfl, fun h => ?_⟩,
    ⟨_, rfl, fun h => ?_⟩, ⟨_, rfl, fun h => ?_⟩⟩
  · exact absurd (h.ended 0 (by decide) rfl).2 (by decide)
  · exact absurd (h.ended 0 (by decide) rfl).2 (by decide)
  · exact absurd (h.counters 7 (-1) rfl) (by decide)
  · exact absurd (h.ended 1 (by decide) rfl).2 (by decide)
  · exact absurd (h.ended 0 (by decide) rfl).2 (by decide)

end TokenizerManager

end Sglang.Managers.Tokenizer
