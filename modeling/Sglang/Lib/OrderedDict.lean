import Mathlib.Data.List.Nodup

/-! Dictionaries that keep the order of insertion.

Assigning to a key that is there keeps its place; a new key goes to the end. -/
namespace Sglang

open List hiding replace beq_eq_decide
open Option

/-- A dictionary that keeps the order of insertion. -/
structure OrderedDict (κ ν : Type*) where
  items : List (κ × ν) := []
  nodup : (items.map (·.1)).Nodup := by exact List.nodup_nil

namespace OrderedDict
variable {κ ν : Type*} [DecidableEq κ]

section
variable (d : OrderedDict κ ν)

def get? (k : κ) : Option ν := (d.items.find? (·.1 = k)).map (·.2)

/-- The items with a value replaced. -/
def replace (items : List (κ × ν)) (k : κ) (v : ν) : List (κ × ν) :=
  items.map fun p => (p.1, if p.1 = k then v else p.2)

lemma keys_replace (items : List (κ × ν)) (k : κ) (v : ν) :
    (replace items k v).map (·.1) = items.map (·.1) := by
  rw [replace, List.map_map]
  rfl

/-- A new key goes to the end, an old one keeps its place. -/
def set (k : κ) (v : ν) : OrderedDict κ ν :=
  if h : k ∈ d.items.map (·.1) then ⟨replace d.items k v, keys_replace d.items k v ▸ d.nodup⟩
  else ⟨d.items ++ [(k, v)], by
    rw [map_append, map_singleton]
    exact nodup_append.mpr ⟨d.nodup, nodup_singleton k, fun a ha b hb hab =>
      h (((hab.trans (mem_singleton.mp hb)) : a = k) ▸ ha)⟩⟩

def erase (k : κ) : OrderedDict κ ν :=
  ⟨d.items.filter (·.1 ≠ k), d.nodup.sublist (filter_sublist.map _)⟩

/-- Without the oldest item. -/
def popFirst : OrderedDict κ ν :=
  ⟨d.items.tail, d.nodup.sublist ((tail_sublist _).map _)⟩

end

variable {d : OrderedDict κ ν} {k k' : κ} {v : ν}

lemma get?_eq_none : d.get? k = none ↔ k ∉ d.items.map (·.1) := by
  simp only [get?, map_eq_none_iff, find?_eq_none, List.mem_map, decide_eq_true_eq]
  constructor
  · rintro h ⟨p, hp, hk⟩
    exact h p hp hk
  · intro h p hp hk
    exact h ⟨p, hp, hk⟩

lemma get?_replace (items : List (κ × ν)) (h : k ∈ items.map (·.1)) :
    ((replace items k v).find? (·.1 = k')).map (·.2) = if k' = k then some v
    else (items.find? (·.1 = k')).map (·.2) := by
  rw [replace, List.find?_map, Option.map_map]
  show (items.find? (·.1 = k')).map (fun p => if p.1 = k then v else p.2) = _
  cases hfind : items.find? (·.1 = k') with
  | none =>
    have hne : k' ≠ k := by
      rintro rfl
      obtain ⟨p, hp, hpk⟩ := mem_map.mp h
      exact find?_eq_none.mp hfind p hp (decide_eq_true hpk)
    rw [if_neg hne]
    rfl
  | some p =>
    have hpk : p.1 = k' := by simpa using find?_some hfind
    simp only [map_some, hpk]
    exact (apply_ite some _ _ _)

lemma get?_set : (d.set k v).get? k' = if k' = k then some v else d.get? k' := by
  unfold set
  split
  · next h => exact get?_replace d.items h
  rename_i h
  simp only [get?, find?_append]
  by_cases hk : k' = k
  · have hnone : d.items.find? (·.1 = k') = none := by
      rw [find?_eq_none]
      intro p hp hpk
      exact h (mem_map.mpr ⟨p, hp, (decide_eq_true_eq.mp hpk).trans hk⟩)
    rw [hnone, if_pos hk]
    simp [hk]
  · simp [hk, Ne.symm hk]

lemma get?_erase : (d.erase k).get? k' = if k' = k then none else d.get? k' := by
  unfold erase get?
  simp only [find?_filter]
  split
  · next hk =>
    rw [find?_eq_none.mpr]
    · rfl
    · intro p _
      simp [hk]
  · next hk =>
    congr 2
    funext p
    by_cases hp : p.1 = k'
    · simp [hp, hk]
    · simp [hp]

lemma get?_erase_eq_some : (d.erase k).get? k' = some v ↔ k' ≠ k ∧ d.get? k' = some v := by
  rw [get?_erase]
  split
  · next h => exact ⟨nofun, fun h' => absurd h h'.1⟩
  · next h => exact ⟨fun h' => ⟨h, h'⟩, fun h' => h'.2⟩

lemma mem_items_iff {p : κ × ν} : p ∈ d.items ↔ d.get? p.1 = some p.2 := by
  unfold get?
  constructor
  · intro hp
    cases hfind : d.items.find? (·.1 = p.1) with
    | none => exact absurd (decide_eq_true rfl) (find?_eq_none.mp hfind p hp)
    | some q =>
      have hq := mem_of_find?_eq_some hfind
      have hkey : q.1 = p.1 := by simpa using find?_some hfind
      rw [inj_on_of_nodup_map d.nodup hq hp hkey]
      rfl
  · intro h
    obtain ⟨q, hfind, hv⟩ := map_eq_some_iff.mp h
    have hkey : q.1 = p.1 := by simpa using find?_some hfind
    have heq : q = p := Prod.ext hkey hv
    exact heq ▸ mem_of_find?_eq_some hfind

lemma items_eq_nil_iff : d.items = [] ↔ ∀ k, d.get? k = none := by
  constructor
  · intro h k
    rw [get?, h]
    rfl
  · intro h
    refine eq_nil_iff_forall_not_mem.mpr fun p hp => ?_
    cases (h p.1).symm.trans (mem_items_iff.mp hp)

lemma mem_map_snd_iff : v ∈ d.items.map (·.2) ↔ ∃ k, d.get? k = some v := by
  rw [List.mem_map]
  constructor
  · rintro ⟨p, hp, rfl⟩
    exact ⟨p.1, mem_items_iff.mp hp⟩
  · rintro ⟨k, hk⟩
    exact ⟨(k, v), mem_items_iff.mpr hk, rfl⟩

lemma nodup_map_snd (h : ∀ k k' v, d.get? k = some v → d.get? k' = some v → k = k') :
    (d.items.map (·.2)).Nodup := by
  refine (List.Nodup.of_map _ d.nodup).map_on fun p hp q hq hpq => ?_
  have hkey := h p.1 q.1 p.2 (mem_items_iff.mp hp) (hpq ▸ mem_items_iff.mp hq)
  exact Prod.ext hkey hpq

section Fold
variable {α : Type*} (key : α → κ) (value : α → ν)

/-- A value that many assignments leave is from one of them, or was there. -/
lemma get?_foldl_set {l : List α}
    (h : (l.foldl (fun d a => d.set (key a) (value a)) d).get? k = some v) :
    (∃ a ∈ l, key a = k ∧ value a = v) ∨ d.get? k = some v := by
  induction l generalizing d with
  | nil => exact .inr h
  | cons a l ih =>
    rcases ih h with ⟨b, hb, hkv⟩ | hget
    · exact .inl ⟨b, mem_cons_of_mem _ hb, hkv⟩
    · rw [get?_set] at hget
      split at hget
      · next hk => exact .inl ⟨a, mem_cons_self, hk.symm, some.inj hget⟩
      · exact .inr hget

lemma isSome_get?_foldl_set {l : List α} (h : (∃ a ∈ l, key a = k) ∨ (d.get? k).isSome) :
    ((l.foldl (fun d a => d.set (key a) (value a)) d).get? k).isSome := by
  induction l generalizing d with
  | nil => exact h.resolve_left fun ⟨_, ha, _⟩ => not_mem_nil ha
  | cons a l ih =>
    refine ih ?_
    rw [get?_set]
    rcases h with ⟨b, hb, hk⟩ | hsome
    · rcases mem_cons.mp hb with rfl | hb
      · exact .inr (by rw [if_pos hk.symm]; rfl)
      · exact .inl ⟨b, hb, hk⟩
    · refine .inr ?_
      split
      · rfl
      · exact hsome

end Fold

lemma length_erase (h : (d.get? k).isSome) : (d.erase k).items.length + 1 = d.items.length := by
  obtain ⟨v, hv⟩ := isSome_iff_exists.mp h
  have hmem : k ∈ d.items.map (·.1) := mem_map.mpr ⟨(k, v), mem_items_iff.mpr hv, rfl⟩
  have hkeys : (d.erase k).items.map (·.1) = (d.items.map (·.1)).erase k := by
    rw [d.nodup.erase_eq_filter, List.filter_map]
    refine congrArg (map _) (filter_congr fun p _ => ?_)
    simp [bne, beq_eq_decide]
  have hlen := congrArg length hkeys
  rw [length_map, length_erase_of_mem hmem, length_map] at hlen
  have := length_pos_of_mem hmem
  rw [length_map] at this
  omega

lemma length_set : (d.set k v).items.length = d.items.length + if (d.get? k).isSome then 0
    else 1 := by
  unfold set
  split
  · next h =>
    have hsome : (d.get? k).isSome := isSome_iff_ne_none.mpr fun hn => get?_eq_none.mp hn h
    rw [if_pos hsome]
    exact length_map _
  · next h =>
    rw [get?_eq_none.mpr h]
    exact length_append

end OrderedDict

end Sglang
