import Mathlib.Data.List.Basic

/-! Runs of a step relation, with the states they went through.

A history is kept newest first, so a property of whole runs (of every state reached, or of pairs
of states) is a property of one list. -/
namespace Sglang.Runs

open List

variable {σ : Type*} {Step : σ → σ → Prop} {start : σ} {P : σ → Prop}

/-- The states since the start, the last one first. -/
inductive Run (Step : σ → σ → Prop) (start : σ) : List σ → Prop
  | nil : Run Step start [start]
  | cons {s s' : σ} {past : List σ} : Run Step start (s :: past) → Step s s' →
      Run Step start (s' :: s :: past)

/-- What holds at the start and survives a step holds in every state. -/
lemma Run.invariant {history : List σ} (hrun : Run Step start history) (hstart : P start)
    (hstep : ∀ s s', P s → Step s s' → P s') : ∀ s ∈ history, P s := by
  induction hrun with
  | nil => exact forall_mem_singleton.mpr hstart
  | cons _ h ih => exact forall_mem_cons.mpr ⟨hstep _ _ (ih _ mem_cons_self) h, ih⟩

/-- The states that a list of events leads through, the last one first. -/
def play {ε : Type*} (step : σ → ε → Option σ) : List ε → σ → List σ → Option (List σ)
  | [], s, past => some (s :: past)
  | e :: events, s, past => (step s e).bind fun s' => play step events s' (s :: past)

lemma run_of_play {ε : Type*} {step : σ → ε → Option σ} {events : List ε}
    {s : σ} {past history : List σ} (hstep : ∀ e ∈ events, ∀ s s', step s e = some s' → Step s s')
    (hrun : Run Step start (s :: past)) (hplay : play step events s past = some history) :
    Run Step start history := by
  induction events generalizing s past with
  | nil => exact Option.some.inj hplay ▸ hrun
  | cons e events ih =>
    obtain ⟨s1, hfirst, hrest⟩ := Option.bind_eq_some_iff.mp hplay
    exact ih (fun e he => hstep e (mem_cons_of_mem _ he))
      (hrun.cons (hstep e mem_cons_self s s1 hfirst)) hrest

/-- Events that can be played to a state with `P` make a run that reaches one. -/
lemma exists_run_of_play {ε : Type*} (step : σ → ε → Option σ) (events : List ε) [DecidablePred P]
    (hstep : ∀ e ∈ events, ∀ s s', step s e = some s' → Step s s')
    (hplay : ((play step events start []).map fun history => history.any fun s => P s) =
    some true) :
    ∃ history, Run Step start history ∧ ∃ s ∈ history, P s := by
  obtain ⟨history, hhistory, hstates⟩ := Option.map_eq_some_iff.mp hplay
  simp only [List.any_eq_true, decide_eq_true_eq] at hstates
  exact ⟨history, run_of_play hstep .nil hhistory, hstates⟩

/-- What survives each step of a loop that may fail, none of them failing, survives the loop. -/
lemma foldlM_invariant {α : Type*} {f : σ → α → Option σ}
    (hstep : ∀ s x, P s → ∃ s', f s x = some s' ∧ P s') (l : List α) {s : σ} (h : P s) :
    ∃ s', l.foldlM f s = some s' ∧ P s' := by
  induction l generalizing s with
  | nil => exact ⟨s, rfl, h⟩
  | cons x l ih =>
    obtain ⟨s1, heq, h1⟩ := hstep s x h
    obtain ⟨s', heq', h'⟩ := ih h1
    exact ⟨s', by rw [foldlM_cons, heq]; exact heq', h'⟩

end Sglang.Runs
