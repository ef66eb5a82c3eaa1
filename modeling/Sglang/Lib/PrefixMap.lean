import Sglang.Lib.Prefix

/-! Maps from paged prefixes.

A map gives, in every namespace, what is kept for the last page of some prefixes made
of whole pages. It is what a paged prefix cache is for: writing a key adds the pages
that are missing, reading one returns the pages of the longest prefix that is there,
and pages are dropped from the ends. -/
namespace Sglang.PrefixMap

open List

variable {N U V : Type*}

/-- What is kept for the last page of a prefix. -/
abbrev PMap (N U V : Type*) := N → List U → Option V

/-- One or more whole pages. -/
def IsPages (page : Nat) (u : List U) : Prop := u ≠ [] ∧ page ∣ u.length

structure Valid (page : Nat) (m : PMap N U V) : Prop where
  pages : ∀ ns u v, m ns u = some v → IsPages page u
  closed : ∀ ns u v w, m ns u = some v → IsPages page w → w <+: u → (m ns w).isSome

def empty : PMap N U V := fun _ _ => none

/-- The length of the longest prefix of `q` that is there. -/
def found (m : PMap N U V) (ns : N) (q : List U) : Nat :=
  Nat.findGreatest (fun len => (m ns (q.take len)).isSome) q.length

/-- The pages of the longest prefix of `q` that is there. -/
def lookup (page : Nat) (m : PMap N U V) (ns : N) (q : List U) : List V :=
  (List.range (found m ns q / page)).filterMap fun i => m ns (q.take ((i + 1) * page))

open Classical in
/-- Write the pages of a key. A page that is there stays. -/
noncomputable def insert (page : Nat) (m : PMap N U V) (ns : N) (key : List U)
    (value : List U → V) :
    PMap N U V := fun ns' u =>
  (m ns' u).or (if ns' = ns ∧ IsPages page u ∧ u <+: key then some (value u) else none)

/-- Some entries are gone; with each, all that extend it. -/
structure Evicts (m m' : PMap N U V) : Prop where
  sub : ∀ ns u v, m' ns u = some v → m ns u = some v
  ends : ∀ ns u v w, m ns u = some v → m' ns u = none → u <+: w → m' ns w = none

/-- A present prefix that no longer one beats is the longest. -/
lemma found_eq (m : PMap N U V) (ns : N) (q : List U) (len : Nat) (hle : len ≤ q.length)
    (hhit : len = 0 ∨ (m ns (q.take len)).isSome)
    (hmax : ∀ u, u <+: q → (m ns u).isSome → u.length ≤ len) : found m ns q = len := by
  rw [found, Nat.findGreatest_eq_iff]
  refine ⟨hle, fun hne => hhit.resolve_left hne, ?_⟩
  intro n hn hnq hsome
  have := hmax _ ( take_prefix n q) hsome
  rw [length_take, min_eq_left hnq] at this
  omega

/-- Removing entries from a valid map drops ends exactly when the rest is valid. -/
lemma evicts_of_valid {page : Nat} {m m' : PMap N U V} (h : Valid page m) (h' : Valid page m')
    (hsub : ∀ ns u v, m' ns u = some v → m ns u = some v) : Evicts m m' := by
  refine ⟨hsub, ?_⟩
  intro ns u v w hu hgone huw
  cases hw : m' ns w with
  | none => rfl
  | some x =>
    have := h'.closed ns w x u hw (h.pages ns u v hu) huw
    rw [hgone] at this
    cases this

/-- The pages of a present prefix of valid length are the lookup. -/
lemma lookup_eq (page : Nat) (m : PMap N U V) (ns : N) (q : List U) (k : Nat) (pages : Nat → V)
    (hp : 0 < page) (hfound : found m ns q = k * page)
    (hpages : ∀ i < k, m ns (q.take ((i + 1) * page)) = some (pages i)) :
    lookup page m ns q = (List.range k).map pages := by
  rw [lookup, hfound, Nat.mul_div_cancel k hp, ← filterMap_eq_map]
  apply filterMap_congr
  intro i hi
  rw [hpages i (mem_range.mp hi)]
  rfl

end Sglang.PrefixMap
