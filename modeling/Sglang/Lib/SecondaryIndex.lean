import Sglang.Lib.OrderedDict

/-! Secondary indexes of a dictionary.

An index lists, under a key of its own, an entry for every value of the dictionary that has this
key. Adding a value appends its entry to a list; removing one filters a list. -/
namespace Sglang

open List Option OrderedDict

namespace OrderedDict
variable {ι ε : Type*} [DecidableEq ι]

section
variable (index : OrderedDict ι (List ε))

/-- The entries under a key. -/
def list (i : ι) : List ε := (index.get? i).getD []

/-- An entry at the end of the list of a key. -/
def push (i : ι) (e : ε) : OrderedDict ι (List ε) := index.set i (index.list i ++ [e])

/-- Some of the entries of a key. -/
def retain (i : ι) (keep : ε → Bool) : OrderedDict ι (List ε) :=
  match index.get? i with
  | some es => index.set i (es.filter keep)
  | none => index

end

lemma list_push (index : OrderedDict ι (List ε)) (i j : ι) (e : ε) :
    (index.push i e).list j = if j = i then index.list i ++ [e] else index.list j := by
  rw [list, push, get?_set]
  split <;> rfl

lemma list_retain (index : OrderedDict ι (List ε)) (i j : ι) (keep : ε → Bool) :
    (index.retain i keep).list j = if j = i then (index.list i).filter keep else index.list j := by
  unfold retain list
  cases h : index.get? i with
  | none =>
    by_cases hj : j = i
    · rw [if_pos hj, hj, h]
      rfl
    · rw [if_neg hj]
  | some es =>
    simp only [get?_set]
    split <;> rfl

lemma get?_retain_of_ne {index : OrderedDict ι (List ε)} {i j : ι} {keep : ε → Bool} (h : j ≠ i) :
    (index.retain i keep).get? j = index.get? j := by
  unfold retain
  split
  · exact get?_set.trans (if_neg h)
  · rfl

end OrderedDict

section Indexed
variable {κ ν ι ε : Type*} [DecidableEq κ] [DecidableEq ι]

/-- The index has an entry for every value, once, under the key of the value. -/
def Indexed (d : OrderedDict κ ν) (key : ν → ι) (entry : κ → ν → ε)
    (index : OrderedDict ι (List ε)) : Prop :=
  ∀ i, (index.list i).Nodup ∧ ∀ e, e ∈ index.list i ↔ ∃ k v, d.get? k = some v ∧
    key v = i ∧ entry k v = e

variable {d : OrderedDict κ ν} {key : ν → ι} {entry : κ → ν → ε} {index : OrderedDict ι (List ε)}
  {k : κ} {v : ν}

/-- A new record goes to the end of its list. -/
lemma Indexed.push (h : Indexed d key entry index) (hnew : d.get? k = none)
    (hentry : ∀ k' v', d.get? k' = some v' → entry k' v' ≠ entry k v) :
    Indexed (d.set k v) key entry (index.push (key v) (entry k v)) := by
  have hmem : ∀ i e, (∃ k' v', (d.set k v).get? k' = some v' ∧ key v' = i ∧ entry k' v' = e) ↔
      (key v = i ∧ entry k v = e) ∨ ∃ k' v', d.get? k' = some v' ∧ key v' = i ∧
      entry k' v' = e := by
    intro i e
    simp only [get?_set]
    constructor
    · rintro ⟨k', v', hget, hkey, he⟩
      split at hget
      · next hk =>
        cases hget
        exact .inl ⟨hkey, hk ▸ he⟩
      · exact .inr ⟨k', v', hget, hkey, he⟩
    · rintro (⟨hkey, he⟩ | ⟨k', v', hget, hkey, he⟩)
      · exact ⟨k, v, if_pos rfl, hkey, he⟩
      · have hne : k' ≠ k := by
          rintro rfl
          rw [hnew] at hget
          cases hget
        exact ⟨k', v', (if_neg hne).trans hget, hkey, he⟩
  intro i
  obtain ⟨hnodup, hiff⟩ := h i
  rw [list_push]
  split
  · next hi =>
    subst hi
    refine ⟨?_, fun e => ?_⟩
    · refine nodup_append.mpr ⟨hnodup, nodup_singleton _, ?_⟩
      intro e he e' he' heq
      obtain ⟨k', v', hget, _, hentry'⟩ := (hiff e).mp he
      exact hentry k' v' hget (hentry'.trans (heq.trans (mem_singleton.mp he')))
    · rw [hmem, mem_append, mem_singleton, hiff, or_comm]
      exact or_congr_left ⟨fun he => ⟨rfl, he.symm⟩, fun he => he.2.symm⟩
  · next hi =>
    refine ⟨hnodup, fun e => ?_⟩
    rw [hmem, hiff, or_iff_right]
    exact fun hkey => hi hkey.1.symm

/-- A record that is removed is filtered out of its list. -/
lemma Indexed.retain (h : Indexed d key entry index) (hget : d.get? k = some v) {keep : ε → Bool}
    (hkeep : ∀ k' v', d.get? k' = some v' → key v' = key v → (keep (entry k' v') = true ↔ k' ≠ k)) :
    Indexed (d.erase k) key entry (index.retain (key v) keep) := by
  have hmem : ∀ i e, (∃ k' v', (d.erase k).get? k' = some v' ∧ key v' = i ∧ entry k' v' = e) ↔
      ∃ k' v', d.get? k' = some v' ∧ key v' = i ∧ entry k' v' = e ∧ k' ≠ k := by
    intro i e
    simp only [get?_erase]
    constructor
    · rintro ⟨k', v', hget', hkey, he⟩
      split at hget'
      · cases hget'
      · next hne => exact ⟨k', v', hget', hkey, he, hne⟩
    · rintro ⟨k', v', hget', hkey, he, hne⟩
      exact ⟨k', v', (if_neg hne).trans hget', hkey, he⟩
  intro i
  obtain ⟨hnodup, hiff⟩ := h i
  rw [list_retain]
  split
  · next hi =>
    subst hi
    refine ⟨hnodup.filter _, fun e => ?_⟩
    rw [hmem, mem_filter, hiff]
    constructor
    · rintro ⟨⟨k', v', hget', hkey, rfl⟩, hk⟩
      exact ⟨k', v', hget', hkey, rfl, (hkeep k' v' hget' hkey).mp hk⟩
    · rintro ⟨k', v', hget', hkey, rfl, hne⟩
      exact ⟨⟨k', v', hget', hkey, rfl⟩, (hkeep k' v' hget' hkey).mpr hne⟩
  · next hi =>
    refine ⟨hnodup, fun e => ?_⟩
    rw [hmem, hiff]
    constructor
    · rintro ⟨k', v', hget', hkey, he⟩
      refine ⟨k', v', hget', hkey, he, ?_⟩
      rintro rfl
      cases hget.symm.trans hget'
      exact hi hkey.symm
    · rintro ⟨k', v', hget', hkey, he, _⟩
      exact ⟨k', v', hget', hkey, he⟩

/-- A record that is pushed again is there twice. -/
lemma Indexed.not_push_of_some {index : OrderedDict ι (List κ)}
    (h : Indexed d key (fun k _ => k) index) {old : ν} (hget : d.get? k = some old) :
    ¬Indexed (d.set k v) key (fun k _ => k) (index.push (key v) k) := by
  intro hpush
  have hold : k ∈ index.list (key old) := ((h _).2 k).mpr ⟨k, old, hget, rfl, rfl⟩
  by_cases hkey : key old = key v
  · have hnodup := (hpush (key v)).1
    rw [list_push, if_pos rfl] at hnodup
    exact (nodup_append.mp hnodup).2.2 k (hkey ▸ hold) k (mem_singleton_self k) rfl
  · have hiff := (hpush (key old)).2 k
    rw [list_push, if_neg hkey] at hiff
    obtain ⟨k', v', hget', hkey', rfl⟩ := hiff.mp hold
    rw [get?_set, if_pos rfl] at hget'
    exact hkey (hkey' ▸ congrArg key (some.inj hget').symm)

end Indexed

end Sglang
