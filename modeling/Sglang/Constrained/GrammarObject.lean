import Mathlib.Data.List.Induction
import Mathlib.Order.Lattice

/-! Grammar objects.

A grammar object is fed the tokens of a request one by one, can take the last ones back, and marks
the tokens that may come next in a row of a bitmask. What it needs for that is the contract
`Lawful`; an automaton that keeps its earlier states meets it, and `ReasonerGrammarObject` keeps it
while it lets the tokens of a reasoning block through. -/
namespace Sglang.Constrained

open List Option

/-! ### Bitmasks -/

/-- A row of the token bitmask: 32 tokens a word. -/
abbrev BitRow := Nat → BitVec 32

/-- A row as `allocate_vocab_mask` makes it, with every token allowed. -/
def freshRow : BitRow := fun _ => .allOnes 32

/-- `row[t // 32] & (1 << (t % 32)) != 0`. -/
def bitSet (row : BitRow) (t : Nat) : Bool := decide (row (t / 32) &&& (1#32 <<< (t % 32)) ≠ 0#32)

/-- The row with the bits of the tokens of a set. -/
def pack (allowed : Nat → Bool) : BitRow := fun word =>
  (BitVec.ofBoolListLE ((List.range 32).map fun i => allowed (32 * word + i))).setWidth 32

lemma bitSet_eq (row : BitRow) (t : Nat) : bitSet row t = (row (t / 32)).getLsbD (t % 32) := by
  have hlt : t % 32 < 32 := Nat.mod_lt _ (by decide)
  have hne : BitVec.twoPow 32 (t % 32) ≠ 0#32 := by
    intro hzero
    have := congrArg (·.getLsbD (t % 32)) hzero
    simp [hlt] at this
  rw [bitSet, ← BitVec.twoPow_eq, BitVec.and_twoPow]
  cases (row (t / 32)).getLsbD (t % 32) <;> simp [hne]

@[simp] lemma bitSet_freshRow (t : Nat) : bitSet freshRow t = true := by
  rw [bitSet_eq, freshRow, BitVec.getLsbD_allOnes]
  exact decide_eq_true (Nat.mod_lt _ (by decide))

@[simp] lemma bitSet_pack (allowed : Nat → Bool) (t : Nat) :
    bitSet (pack allowed) t = allowed t := by
  have hlt : t % 32 < 32 := Nat.mod_lt _ (by decide)
  rw [bitSet_eq, pack, BitVec.getLsbD_setWidth, BitVec.getLsbD_ofBoolListLE,
    decide_eq_true hlt, Bool.true_and]
  simp [getD_eq_getElem?_getD, hlt, Nat.div_add_mod]

/-! ### The contract -/

/-- The methods of a grammar object with state `γ`; `none` is the `ValueError`. -/
structure GrammarObject (γ : Type) where
  acceptToken : γ → Nat → Option γ
  rollback : γ → Nat → Option γ
  isTerminated : γ → Bool
  fillVocabMask : γ → BitRow → BitRow

variable {vocabSize : Nat}

namespace GrammarObject
variable {γ : Type} {G : GrammarObject γ}

/-- Accept tokens one after the other. -/
def feed (G : GrammarObject γ) (g : γ) (tokens : List Nat) : Option γ :=
  tokens.foldlM G.acceptToken g

lemma feed_cons (g : γ) (t : Nat) (ts : List Nat) :
    G.feed g (t :: ts) = (G.acceptToken g t).bind (G.feed · ts) := rfl

lemma feed_append (g : γ) (ts us : List Nat) :
    G.feed g (ts ++ us) = (G.feed g ts).bind (G.feed · us) :=
  foldlM_append

/-- `rollback(k)` undoes the last `k` tokens, and the mask is the set of the tokens that may come
next; there is one until the grammar has terminated. -/
structure Lawful (G : GrammarObject γ) (vocabSize : Nat) : Prop where
  undo : ∀ {g g' : γ} {tokens : List Nat}, G.feed g tokens = some g' →
    G.rollback g' tokens.length = some g
  mask : ∀ {g : γ}, G.isTerminated g = false → ∀ t < vocabSize,
    bitSet (G.fillVocabMask g freshRow) t = (G.acceptToken g t).isSome
  live : ∀ {g : γ}, G.isTerminated g = false → ∃ t < vocabSize, (G.acceptToken g t).isSome

lemma Lawful.undo_one (h : G.Lawful vocabSize) {g g' : γ} {t : Nat}
    (haccept : G.acceptToken g t = some g') :
    G.rollback g' 1 = some g :=
  @Lawful.undo _ _ _ h g g' [t] (by rw [feed_cons, haccept]; rfl)

end GrammarObject

/-! ### Automata -/

structure Automaton (σ : Type) where
  step : σ → Nat → Option σ
  terminated : σ → Bool

/-- The state of an automaton and the states before it. -/
structure Matcher (σ : Type) where
  state : σ
  past : List σ
deriving DecidableEq

namespace Automaton
variable {σ : Type}

def object (A : Automaton σ) (vocabSize : Nat) : GrammarObject (Matcher σ) where
  acceptToken m t := (A.step m.state t).map fun s => ⟨s, m.state :: m.past⟩
  rollback m k :=
    match (m.state :: m.past).drop k with
    | [] => none
    | s :: past => some ⟨s, past⟩
  isTerminated m := A.terminated m.state
  fillVocabMask m _ := pack fun t => decide (t < vocabSize) && (A.step m.state t).isSome

lemma drop_feed {A : Automaton σ} {m m' : Matcher σ} {ts : List Nat}
    (h : (A.object vocabSize).feed m ts = some m') :
    (m'.state :: m'.past).drop ts.length = m.state :: m.past := by
  induction ts using List.reverseRecOn generalizing m' with
  | nil => cases h; rfl
  | append_singleton ts t ih =>
    rw [GrammarObject.feed_append] at h
    obtain ⟨m1, hm1, h⟩ := bind_eq_some_iff.mp h
    obtain ⟨m2, hm2, h⟩ := bind_eq_some_iff.mp h
    cases h
    obtain ⟨s, -, rfl⟩ := map_eq_some_iff.mp hm2
    rw [length_append, length_singleton, drop_succ_cons]
    exact ih hm1

lemma object_lawful (A : Automaton σ)
    (hlive : ∀ s, A.terminated s = false → ∃ t < vocabSize, (A.step s t).isSome) :
    (A.object vocabSize).Lawful vocabSize where
  undo h := by
    simp only [object, drop_feed h]
  mask _ t ht := by
    simp [object, ht]
  live h := by
    simpa [object] using hlive _ h

end Automaton

/-! ### Reasoning -/

/-- A grammar that starts after the reasoning. -/
structure ReasonerGrammarObject (γ : Type) where
  grammar : γ
  thinkEndId : Nat
  /-- `-1` while the thinking goes on, then the number of tokens after its end. -/
  tokensAfterThinkEnd : Int
  bound : -1 ≤ tokensAfterThinkEnd
deriving DecidableEq

namespace ReasonerGrammarObject
variable {γ : Type}

section
variable (r : ReasonerGrammarObject γ)

def transferState (token : Nat) : ReasonerGrammarObject γ :=
  if r.tokensAfterThinkEnd = -1 ∧ token = r.thinkEndId then
    { r with tokensAfterThinkEnd := 0, bound := by decide }
  else if r.tokensAfterThinkEnd ≥ 0 then
    { r with tokensAfterThinkEnd := r.tokensAfterThinkEnd + 1, bound := by have := r.bound; omega }
  else r

def rollbackState : ReasonerGrammarObject γ :=
  if r.tokensAfterThinkEnd = 0 then { r with tokensAfterThinkEnd := -1, bound := Int.le_refl _ }
  else if h : r.tokensAfterThinkEnd > 0 then
    { r with tokensAfterThinkEnd := r.tokensAfterThinkEnd - 1, bound := by omega }
  else r

end

/-- The methods of the wrapper over those of the grammar. -/
def object (G : GrammarObject γ) : GrammarObject (ReasonerGrammarObject γ) where
  acceptToken r token :=
    if r.tokensAfterThinkEnd ≥ 0 then (G.acceptToken r.grammar token).map fun g =>
      { r with grammar := g }.transferState token
    else some (r.transferState token)
  rollback r k :=
    let stepsAfterThink := min (k : Int) r.tokensAfterThinkEnd
    (if stepsAfterThink > 0 then G.rollback r.grammar stepsAfterThink.toNat else some r.grammar).map
      fun g =>
      rollbackState^[k] { r with grammar := g }
  isTerminated r := G.isTerminated r.grammar
  fillVocabMask r row := if r.tokensAfterThinkEnd ≥ 0 then G.fillVocabMask r.grammar row else row

@[ext] lemma ext' {r r' : ReasonerGrammarObject γ} (hg : r.grammar = r'.grammar)
    (ht : r.thinkEndId = r'.thinkEndId) (hn : r.tokensAfterThinkEnd = r'.tokensAfterThinkEnd) :
    r = r' := by
  cases r
  cases r'
  cases hg
  cases ht
  cases hn
  rfl

/-- The counter goes down to `-1` and stays there. -/
lemma iterate_rollbackState (r : ReasonerGrammarObject γ) (k : Nat) :
    (rollbackState^[k] r).grammar = r.grammar ∧ (rollbackState^[k] r).thinkEndId = r.thinkEndId ∧
      (rollbackState^[k] r).tokensAfterThinkEnd = max (-1) (r.tokensAfterThinkEnd - k) := by
  induction k with
  | zero =>
    have := r.bound
    exact ⟨rfl, rfl, by simp; omega⟩
  | succ k ih =>
    obtain ⟨hg, ht, hn⟩ := ih
    rw [Function.iterate_succ_apply']
    generalize rollbackState^[k] r = r' at hg ht hn
    rw [rollbackState]
    split
    · exact ⟨hg, ht, by dsimp only; omega⟩
    · split
      · exact ⟨hg, ht, by dsimp only; omega⟩
      · have := r'.bound
        exact ⟨hg, ht, by omega⟩

variable {G : GrammarObject γ} {r r' : ReasonerGrammarObject γ} {ts : List Nat}

lemma feed_answering (hr : 0 ≤ r.tokensAfterThinkEnd) (h : (object G).feed r ts = some r') :
    G.feed r.grammar ts = some r'.grammar ∧ r'.thinkEndId = r.thinkEndId ∧
      r'.tokensAfterThinkEnd = r.tokensAfterThinkEnd + ts.length := by
  induction ts generalizing r with
  | nil =>
    cases h
    exact ⟨rfl, rfl, by simp⟩
  | cons t ts ih =>
    rw [GrammarObject.feed_cons] at h
    obtain ⟨r1, hr1, h⟩ := bind_eq_some_iff.mp h
    simp only [object, ge_iff_le, hr, if_true] at hr1
    obtain ⟨g, hg, rfl⟩ := map_eq_some_iff.mp hr1
    have hstep : ({ r with grammar := g }.transferState t : ReasonerGrammarObject γ) =
        { r with grammar := g, tokensAfterThinkEnd := r.tokensAfterThinkEnd + 1, bound := by omega } := by
      rw [transferState, if_neg (fun hand => by have := hand.1; dsimp only at this; omega),
        if_pos hr]
    rw [hstep] at h
    obtain ⟨hfeed, ht, hn⟩ := ih (by dsimp only; omega) h
    refine ⟨?_, ht, ?_⟩
    · rw [GrammarObject.feed_cons, hg]
      exact hfeed
    · rw [hn, length_cons]
      push_cast
      omega

/-- During the reasoning it gets the tokens after the end of it. -/
lemma feed_thinking (hr : r.tokensAfterThinkEnd = -1) (h : (object G).feed r ts = some r') :
    r' = r ∨ ∃ us :
    List Nat, us.length < ts.length ∧ G.feed r.grammar us = some r'.grammar ∧
    r'.thinkEndId = r.thinkEndId ∧
      r'.tokensAfterThinkEnd = us.length := by
  induction ts with
  | nil =>
    cases h
    exact .inl rfl
  | cons t ts ih =>
    rw [GrammarObject.feed_cons] at h
    obtain ⟨r1, hr1, h⟩ := bind_eq_some_iff.mp h
    simp only [object, ge_iff_le, hr, if_neg (show ¬ (0 : Int) ≤ -1 by decide), some.injEq] at hr1
    subst hr1
    by_cases ht : t = r.thinkEndId
    · rw [transferState, if_pos ⟨hr, ht⟩] at h
      obtain ⟨hfeed, hid, hn⟩ := feed_answering (Int.le_refl 0) h
      exact .inr ⟨ts, Nat.lt_succ_self _, hfeed, hid, by rw [hn]; simp⟩
    · rw [transferState, if_neg (fun hand => ht hand.2), if_neg (by omega)] at h
      refine (ih h).imp_right fun ⟨us, hlt, hrest⟩ => ⟨us, Nat.lt_succ_of_lt hlt, hrest⟩

/-- The inner grammar goes back as many tokens as it has got. -/
lemma undo_inner (h : G.Lawful vocabSize) {g g' : γ} {us : List Nat}
    (hfeed : G.feed g us = some g') :
    (if (us.length : Int) > 0 then G.rollback g' (us.length : Int).toNat else some g') =
    some g := by
  split
  · rw [Int.toNat_natCast]
    exact h.undo hfeed
  · next hzero =>
    rw [eq_nil_of_length_eq_zero (by omega : us.length = 0)] at hfeed
    exact hfeed.symm

lemma object_undo (h : G.Lawful vocabSize) (hfeed : (object G).feed r ts = some r') :
    (object G).rollback r' ts.length = some r := by
  have hbound := r.bound
  obtain ⟨hg, ht, hn⟩ := iterate_rollbackState { r' with grammar := r.grammar } ts.length
  simp only [object]
  rcases Int.lt_or_le r.tokensAfterThinkEnd 0 with hthink | hanswer
  · have hr : r.tokensAfterThinkEnd = -1 := by omega
    obtain rfl | ⟨us, hlt, hus, hid, hcount⟩ := feed_thinking hr hfeed
    · rw [if_neg (by omega), map_some, some.injEq]
      exact ext' hg ht (by rw [hn]; dsimp only; omega)
    · rw [show min (ts.length : Int) r'.tokensAfterThinkEnd =
        (us.length : Int) by omega, undo_inner h hus, map_some, some.injEq]
      exact ext' hg (ht.trans hid) (by rw [hn]; dsimp only; omega)
  · obtain ⟨hts, hid, hcount⟩ := feed_answering hanswer hfeed
    rw [show min (ts.length : Int) r'.tokensAfterThinkEnd =
      (ts.length : Int) by omega, undo_inner h hts, map_some, some.injEq]
    exact ext' hg (ht.trans hid) (by rw [hn]; dsimp only; omega)

lemma object_lawful (h : G.Lawful vocabSize) : (object G).Lawful vocabSize where
  undo := object_undo h
  mask {r} hr t ht := by
    simp only [object]
    split
    · rw [isSome_map]
      exact h.mask hr t ht
    · exact bitSet_freshRow t
  live {r} hr := by
    obtain ⟨t, ht, haccept⟩ := h.live hr
    refine ⟨t, ht, ?_⟩
    simp only [object]
    split
    · rwa [isSome_map]
    · rfl

end ReasonerGrammarObject

end Sglang.Constrained
