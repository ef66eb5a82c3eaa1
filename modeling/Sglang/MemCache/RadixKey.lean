import Sglang.Lib.Prefix

/-! Keys of the radix cache.

A `RadixKey` holds raw tokens and is read in logical units: the tokens
themselves, or, in a bigram view, the overlapping pairs of neighbours. Length,
slices, matching and the dictionary key of the first page all count units. The
lemmas here say so: each operation on raw tokens is the list operation on
`iter`, the list of units. -/
namespace Sglang.MemCache

open List
open Prefix

abbrev TokenId := Int

/-- What a `RadixKey` yields: a token, or a pair of neighbouring tokens. -/
inductive KeyUnit where
  | token (t : TokenId)
  | bigram (a b : TokenId)
deriving DecidableEq, Repr

structure RadixKey where
  tokenIds : List TokenId
  extraKey : Option String := none
  isBigram : Bool := false
deriving DecidableEq, Repr

/-- The hashable value of the first page, before the namespace is added. The pair
of a bigram page of one unit and the tuple of a page of tokens are both tuples of
integers. -/
inductive PlainKey where
  | token (t : TokenId)
  | tokens (ts : List TokenId)
  | bigrams (ps : List (TokenId × TokenId))
deriving DecidableEq, Repr

/-- What `child_key` returns: the plain value, or a pair with the extra key. -/
inductive ChildKey where
  | plain (p : PlainKey)
  | salted (extraKey : String) (p : PlainKey)
deriving DecidableEq, Repr

/-- What keys of one tree path share: the extra key and the view. -/
abbrev Namespace := Option String × Bool

namespace RadixKey

section
variable (k : RadixKey)

def len : Nat :=
  if k.isBigram then k.tokenIds.length - 1 else k.tokenIds.length

def iter : List KeyUnit :=
  if k.isBigram then List.zipWith .bigram k.tokenIds k.tokenIds.tail else k.tokenIds.map .token

def ns : Namespace := (k.extraKey, k.isBigram)

/-- `key[start:stop]` with step one. Units `[start, stop)` of a bigram view span the raw
tokens `[start, stop + 1)`; an empty slice holds no dangling boundary token. -/
def slice (start stop : Nat) : RadixKey :=
  let start := min start k.len
  let stop := min stop k.len
  if k.isBigram then
    {k with tokenIds := if start < stop then (k.tokenIds.take (stop + 1)).drop start else []}
  else
    {k with tokenIds := (k.tokenIds.take stop).drop start}

/-- `key[:n]`. -/
def upto (n : Nat) : RadixKey := k.slice 0 n

/-- `key[n:]`. -/
def since (n : Nat) : RadixKey := k.slice n k.len

def pageAligned (pageSize : Nat) : RadixKey :=
  if pageSize = 1 then k else k.upto (floor pageSize k.len)

/-- Flips the view; a value that is paired with the raw tokens is cut to the units. -/
def maybeToBigramView (isEagle : Bool) (value : Option (List Nat)) : RadixKey × Option (List Nat) :=
  if isEagle && !k.isBigram then
    let k : RadixKey := {k with isBigram := true}
    (k, value.map fun v => v.take k.len)
  else
    (k, value)

/-- The key as a cache reads it. -/
def view (isEagle : Bool) : RadixKey := (k.maybeToBigramView isEagle none).1

/-- The page loop of `match`, from offset `i`. -/
def matchPages (pageSize : Nat) (t0 t1 : List TokenId) (minLen : Nat) : Nat → Nat → Nat
  | 0, i => i
  | fuel + 1, i =>
    if i < minLen then
      if (t0.drop i).take pageSize ≠ (t1.drop i).take pageSize then i
      else matchPages pageSize t0 t1 minLen fuel (i + pageSize)
    else i

/-- Units shared with `other`, rounded down to pages. `none` is the `ValueError` of
`_check_compatible`. -/
def «match» (k other : RadixKey) (pageSize : Nat) : Option Nat :=
  if k.extraKey ≠ other.extraKey then none
  else if k.isBigram then
    let i := common k.tokenIds other.tokenIds
    let matched := min (i - 1) (min k.len other.len)
    some (if pageSize > 1 then matched / pageSize * pageSize else matched)
  else if pageSize = 1 then
    some (common k.tokenIds other.tokenIds)
  else
    let minLen := min k.len other.len
    some (matchPages pageSize k.tokenIds other.tokenIds minLen minLen 0)

/-- Dictionary key of the first page. Only asked of keys of at least a page. -/
def childKey (pageSize : Nat) : ChildKey :=
  let t := k.tokenIds
  let plain : PlainKey :=
    if k.isBigram then
      if pageSize = 1 then .tokens [t.getD 0 0, t.getD 1 0]
      else .bigrams ((List.range pageSize).map fun j => (t.getD j 0, t.getD (j + 1) 0))
    else if pageSize = 1 then .token (t.getD 0 0)
    else .tokens (t.take pageSize)
  match k.extraKey with
  | none => .plain plain
  | some extra => .salted extra plain

end

/-! ### Units -/

section
variable (k : RadixKey)

@[simp] lemma length_iter : k.iter.length = k.len := by
  unfold iter len
  split
  · simp
  · simp

@[simp] lemma ns_slice (start stop : Nat) : (k.slice start stop).ns = k.ns := by
  unfold slice
  split <;> rfl

@[simp] lemma ns_upto (n : Nat) : (k.upto n).ns = k.ns := ns_slice k 0 n

@[simp] lemma ns_since (n : Nat) : (k.since n).ns = k.ns := ns_slice k n k.len

end

lemma zipWith_stretch {α β : Type} (f : α → α → β) (t : List α) (start stop : Nat) :
    List.zipWith f ((t.take (stop + 1)).drop start) ((t.take (stop + 1)).drop start).tail =
      ((List.zipWith f t t.tail).take stop).drop start := by
  apply ext_getElem?
  intro i
  simp only [getElem?_zipWith, getElem?_drop, getElem?_tail, getElem?_take]
  by_cases hi : start + i < stop
  · have h1 : start + i < stop + 1 := by omega
    have h2 : start + (i + 1) < stop + 1 := by omega
    simp only [hi, h1, h2, if_true, add_assoc]
  · have h2 : ¬ start + (i + 1) < stop + 1 := by omega
    simp only [hi, h2, if_false]
    cases (if start + i < stop + 1 then t[start + i]? else none) <;> rfl

lemma take_drop_clip {α : Type} (l : List α) (start stop : Nat) :
    (l.take (min stop l.length)).drop (min start l.length) = (l.take stop).drop start := by
  apply ext_getElem?
  intro i
  simp only [getElem?_drop, getElem?_take]
  by_cases hs : start ≤ l.length
  · rw [min_eq_left hs]
    by_cases hi : start + i < l.length
    · have : start + i < min stop l.length ↔ start + i < stop := by omega
      simp only [this]
    · rw [getElem?_eq_none (by omega)]
      simp
  · rw [min_eq_right (by omega), getElem?_eq_none (by omega), getElem?_eq_none (by omega)]
    simp

section
variable (k : RadixKey)

lemma iter_slice (start stop : Nat) :
    (k.slice start stop).iter = (k.iter.take stop).drop start := by
  rw [← take_drop_clip k.iter, length_iter]
  obtain ⟨t, extra, view⟩ := k
  cases view with
  | false => simp [slice, iter, len, map_drop, map_take]
  | true =>
    simp only [slice, iter, if_true]
    split
    · exact zipWith_stretch KeyUnit.bigram t _ _
    · next h =>
      rw [drop_eq_nil_of_le]
      · rfl
      · rw [length_take]
        omega

lemma iter_upto (n : Nat) : (k.upto n).iter = k.iter.take n := by
  rw [upto, iter_slice, drop_zero]

lemma iter_since (n : Nat) : (k.since n).iter = k.iter.drop n := by
  rw [since, iter_slice, take_of_length_le (by rw [length_iter])]

lemma len_upto (n : Nat) : (k.upto n).len = min n k.len := by
  rw [← length_iter, iter_upto, length_take, length_iter]

lemma len_since (n : Nat) : (k.since n).len = k.len - n := by
  rw [← length_iter, iter_since, length_drop, length_iter]

section
variable (pageSize : Nat)

lemma iter_pageAligned : (k.pageAligned pageSize).iter = k.iter.take (floor pageSize k.len) := by
  unfold pageAligned
  split
  · next h => rw [h, floor_one, take_of_length_le (by rw [length_iter])]
  · exact iter_upto k _

lemma len_pageAligned : (k.pageAligned pageSize).len = floor pageSize k.len := by
  rw [← length_iter, iter_pageAligned, length_take, length_iter,
    min_eq_left (floor_le pageSize k.len)]

@[simp] lemma ns_pageAligned : (k.pageAligned pageSize).ns = k.ns := by
  unfold pageAligned
  split
  · rfl
  · exact ns_upto k _

section
variable (isEagle : Bool)

lemma maybeToBigramView_fst (value : Option (List Nat)) :
    (k.maybeToBigramView isEagle value).1 = k.view isEagle := by
  unfold view maybeToBigramView
  split <;> rfl

lemma len_view_le : (k.view isEagle).len ≤ k.len := by
  unfold view maybeToBigramView
  split
  · next h =>
    have hview : k.isBigram = false := by simpa using (Bool.and_eq_true_iff.mp h).2
    simp [len, hview]
  · exact le_refl _

lemma len_le_tokenIds : k.len ≤ k.tokenIds.length := by
  unfold len
  split <;> omega

/-- A value is cut to the units when the view flips, and only then. -/
lemma maybeToBigramView_snd (value : Option (List Nat)) {n : Nat} (hn : n ≤ (k.view isEagle).len) :
    (k.maybeToBigramView isEagle value).2.map (List.take n) = value.map (List.take n) := by
  unfold view maybeToBigramView at *
  split at hn
  · next h =>
    rw [if_pos h, Option.map_map]
    congr 1
    funext v
    exact (take_take ..).trans (by rw [min_eq_left hn])
  · next h => rw [if_neg h]

lemma tokenIds_view : (k.view isEagle).tokenIds = k.tokenIds := by
  unfold view maybeToBigramView
  split <;> rfl

end

/-- The raw tokens of the units of an aligned key are the first raw tokens. -/
lemma take_tokenIds_pageAligned :
    (k.pageAligned pageSize).tokenIds.take (floor pageSize k.len) = k.tokenIds.take
    (floor pageSize k.len) := by
  have hle := floor_le pageSize k.len
  unfold pageAligned
  split
  · rfl
  rcases Nat.eq_zero_or_pos (floor pageSize k.len) with hz | hpos
  · rw [hz, take_zero, take_zero]
  · unfold upto slice
    simp only [Nat.zero_min, min_eq_left hle, hpos, if_true, drop_zero]
    split
    · rw [take_take, min_eq_left (Nat.le_succ _)]
    · rw [take_take, Nat.min_self]

end

end

/-! ### Matching -/

/-- `L` matching neighbours are `L - 1` matching pairs. -/
lemma common_zipWith (t u : List TokenId) :
    common (List.zipWith KeyUnit.bigram t t.tail)
    (List.zipWith KeyUnit.bigram u u.tail) = common t u - 1 := by
  induction t generalizing u with
  | nil => rfl
  | cons a t ih =>
    cases u with
    | nil => simp
    | cons b u =>
      cases t with
      | nil =>
        simp only [tail_cons, zipWith_nil_right, common]
        split <;> rfl
      | cons a' t =>
        cases u with
        | nil =>
          simp only [tail_cons, zipWith_nil_right, common_nil_right, common]
          split <;> rfl
        | cons b' u =>
          have := ih (b' :: u)
          simp only [tail_cons] at this
          simp only [tail_cons, zipWith_cons_cons, common, KeyUnit.bigram.injEq]
          by_cases hab : a = b
          · by_cases hab' : a' = b'
            · subst hab'
              simp only [hab, and_self, if_true, this]
              simp [common]
            · simp [hab, hab']
          · simp [hab]

lemma common_map_token (t u : List TokenId) :
    common (t.map KeyUnit.token) (u.map KeyUnit.token) = common t u := by
  induction t generalizing u with
  | nil => rfl
  | cons a t ih =>
    cases u with
    | nil => rfl
    | cons b u => simp only [map_cons, common, KeyUnit.token.injEq, ih u]

/-- From a whole page where the lists still agree, the page loop stops at the last page
boundary of their common prefix. -/
lemma matchPages_eq (pageSize : Nat) (hp : 0 < pageSize) (t u : List TokenId)
    (ht : pageSize ∣ t.length) (hu : pageSize ∣ u.length) (fuel i : Nat) (hi : pageSize ∣ i)
    (hle : i ≤ common t u) (hfuel : min t.length u.length ≤ i + fuel) :
    matchPages pageSize t u (min t.length u.length) fuel i = floor pageSize (common t u) := by
  have hmin : pageSize ∣ min t.length u.length := by
    rcases le_total t.length u.length with h | h
    · rwa [min_eq_left h]
    · rwa [min_eq_right h]
  have htop : common t u ≤ min t.length u.length :=
    Nat.le_min.mpr ⟨common_le_left t u, common_le_right t u⟩
  have stop {i : Nat} (hi : pageSize ∣ i) (hle : i ≤ common t u) (h : min t.length u.length ≤ i) :
      i = floor pageSize (common t u) := by
    obtain rfl : i = common t u := by omega
    exact (Nat.div_mul_cancel hi).symm
  induction fuel generalizing i with
  | zero => exact @stop i hi hle (by omega)
  | succ fuel ih =>
    unfold matchPages
    split
    · next hlt =>
      have hnext : i + pageSize ≤ min t.length u.length := add_page_le hi hmin hlt
      split
      · next hne =>
        -- a page that differs: the common prefix ends inside it
        apply le_antisymm (le_floor hi hle)
        by_contra hcon
        have hpage : i + pageSize ≤ common t u :=
          le_trans (add_page_le hi (dvd_floor _ _) (Nat.lt_of_not_le hcon)) (floor_le _ _)
        apply hne
        have := take_eq_of_le_common t u _ hpage
        have := congrArg (List.drop i) this
        simpa only [drop_take, Nat.add_sub_cancel_left] using this
      · next heq =>
        have heq : (t.drop i).take pageSize = (u.drop i).take pageSize := not_not.mp heq
        have hpage : i + pageSize ≤ common t u := by
          apply le_common_of_take_eq t u _ (by omega) (by omega)
          rw [take_add, take_add, take_eq_of_le_common t u i hle, heq]
        exact ih (i + pageSize) (Nat.dvd_add_self_right.mpr hi) hpage (by omega)
    · next hge => exact stop hi hle (by omega)

lemma match_bigram {t u : List TokenId} {extra : Option String} {pageSize : Nat}
    (hp : 0 < pageSize) :
    RadixKey.match ⟨t, extra, true⟩ ⟨u, extra, true⟩ pageSize =
      some (floor pageSize (common (iter ⟨t, extra, true⟩) (iter ⟨u, extra, true⟩))) := by
  have hle := common_le_left (iter ⟨t, extra, true⟩) (iter ⟨u, extra, true⟩)
  have hle' := common_le_right (iter ⟨t, extra, true⟩) (iter ⟨u, extra, true⟩)
  rw [length_iter] at hle hle'
  simp only [iter, if_true, common_zipWith] at hle hle' ⊢
  simp only [RadixKey.match, ne_eq, not_true, if_false, if_true,
    Nat.min_eq_left (Nat.le_min.mpr ⟨hle, hle'⟩)]
  by_cases h1 : pageSize > 1
  · simp [h1, floor]
  · obtain rfl : pageSize = 1 := by omega
    simp [floor_one]

/-- **What `match` computes** on aligned keys of one namespace: the common units, in
whole pages. -/
theorem match_eq (k other : RadixKey) (pageSize : Nat) (hp : 0 < pageSize) (hns : k.ns = other.ns)
    (hk : pageSize ∣ k.len) (ho : pageSize ∣ other.len) :
    k.match other pageSize = some (floor pageSize (common k.iter other.iter)) := by
  obtain ⟨t, extra, view⟩ := k
  obtain ⟨u, extra', view'⟩ := other
  simp only [ns, Prod.mk.injEq] at hns
  obtain ⟨rfl, rfl⟩ := hns
  cases view with
  | true => exact match_bigram hp
  | false =>
    simp only [len, Bool.false_eq_true, if_false] at hk ho
    simp only [RadixKey.match, ne_eq, not_true, if_false, Bool.false_eq_true,
      iter, common_map_token, len]
    by_cases h1 : pageSize = 1
    · simp [h1, floor_one]
    · simp only [h1, if_false]
      rw [matchPages_eq pageSize hp t u hk ho _ 0 (Nat.dvd_zero _) (Nat.zero_le _) (by omega)]

/-! ### The first page -/

lemma take_zipWith_eq_map (t : List TokenId) (n : Nat) (h : n ≤ t.length - 1) :
    (List.zipWith KeyUnit.bigram t t.tail).take n =
      ((List.range n).map fun j => (t.getD j 0, t.getD (j + 1) 0)).map fun p =>
      .bigram p.1 p.2 := by
  apply ext_getElem
  · simp only [length_take, length_zipWith, length_tail, length_map, length_range]
    omega
  · intro i hi _
    have hi : i + 1 < t.length := by
      simp only [length_take, length_zipWith, length_tail] at hi
      omega
    simp [getElem_tail, getD_eq_getElem?_getD, getElem?_eq_getElem hi,
      getElem?_eq_getElem (Nat.lt_of_succ_lt hi)]

lemma take_one_eq (t : List TokenId) (h : 1 ≤ t.length) : t.take 1 = [t.getD 0 0] := by
  cases t with
  | nil => cases h
  | cons a t => rfl

/-- Pages of tokens and pages of pairs have different dictionary keys, and two keys of at
least a page have the same one exactly when they share namespace and first page. -/
lemma childKey_eq_iff (k other : RadixKey) (pageSize : Nat) (hp : 0 < pageSize)
    (hk : pageSize ≤ k.len) (ho : pageSize ≤ other.len) :
    k.childKey pageSize = other.childKey pageSize ↔ k.ns = other.ns ∧
    k.iter.take pageSize = other.iter.take pageSize := by
  obtain ⟨t, extra, view⟩ := k
  obtain ⟨u, extra', view'⟩ := other
  have hinj : Function.Injective fun p : TokenId × TokenId => KeyUnit.bigram p.1 p.2 := by
    intro p q h
    simpa [Prod.ext_iff] using h
  have htok : Function.Injective KeyUnit.token := fun a b h => by simpa using h
  cases view <;> cases view' <;> simp only [len, Bool.false_eq_true, if_false, if_true] at hk ho
  · by_cases h1 : pageSize = 1
    · subst h1
      cases extra <;> cases extra' <;>
        simp [childKey, ns, iter, ← map_take, take_one_eq t hk, take_one_eq u ho]
    · cases extra <;> cases extra' <;>
        simp [childKey, ns, iter, ← map_take, htok.list_map.eq_iff, h1]
  · by_cases h1 : pageSize = 1 <;> cases extra <;> cases extra' <;> simp [childKey, ns, h1]
  · by_cases h1 : pageSize = 1 <;> cases extra <;> cases extra' <;> simp [childKey, ns, h1]
  · by_cases h1 : pageSize = 1
    · subst h1
      cases extra <;> cases extra' <;>
        simp [childKey, ns, iter, take_zipWith_eq_map t 1 hk, take_zipWith_eq_map u 1 ho]
    · cases extra <;> cases extra' <;>
        simp only [childKey, ns, iter, if_true, h1, if_false, take_zipWith_eq_map t _ hk,
          take_zipWith_eq_map u _ ho, hinj.list_map.eq_iff] <;> simp

/-! ### Compositions -/

/-- What `__getitem__` is given. -/
inductive Index where
  | unit (i : Int)
  | slice (start stop step : Option Int)

/-- An end of a slice of `n` units, as `slice.indices` gives it. -/
def Index.bound (n default : Nat) : Option Int → Nat
  | none => default
  | some i => if i < 0 then (i + n).toNat else min i.toNat n

inductive Op where
  | pageAligned (pageSize : Nat)
  | getItem (idx : Index)

/-- `none` is the `ZeroDivisionError`, the `IndexError` or the `ValueError` of a step. -/
def apply (k : RadixKey) : Op → Option RadixKey
  | .pageAligned pageSize => if pageSize = 0 then none else some (k.pageAligned pageSize)
  | .getItem (.unit i) =>
    let i := if i < 0 then i + k.len else i
    if i < 0 ∨ k.len ≤ i then none else some (k.slice i.toNat (i.toNat + 1))
  | .getItem (.slice start stop step) =>
    if step.getD 1 = 1 then
      some (k.slice (Index.bound k.len 0 start) (Index.bound k.len k.len stop)) else none

/-- The operation on an explicit list; an index takes out a list of one. -/
def Op.onList {α : Type} (l : List α) : Op → Option (List α)
  | .pageAligned pageSize =>
    if pageSize = 0 then none else some (l.take (l.length / pageSize * pageSize))
  | .getItem (.unit i) =>
    let i := if i < 0 then i + l.length else i
    if i < 0 then none else l[i.toNat]?.map ([·])
  | .getItem (.slice start stop step) =>
    if step.getD 1 = 1 then
      some ((l.take (Index.bound l.length l.length stop)).drop (Index.bound l.length 0 start))
      else none

/-- Pairs of neighbours. -/
def bigrams (t : List TokenId) : List KeyUnit := List.zipWith .bigram t t.tail

/-- `child_key` of a bigram view; `none` is the `IndexError` where the last pair of the page is
missing. -/
def bigramChildKey (k : RadixKey) (pageSize : Nat) : Option ChildKey :=
  k.tokenIds[pageSize]?.map fun _ => k.childKey pageSize

variable {k : RadixKey}

lemma iter_of_isBigram (hk : k.isBigram = true) : k.iter = bigrams k.tokenIds := if_pos hk

lemma bigramChildKey_eq_some (hk : k.isBigram = true) {pageSize : Nat}
    (hp : 0 < pageSize) {ck : ChildKey} :
    k.bigramChildKey pageSize = some ck ↔ pageSize ≤ k.len ∧ k.childKey pageSize = ck := by
  rw [bigramChildKey, len, if_pos hk]
  by_cases hlt : pageSize < k.tokenIds.length
  · rw [getElem?_eq_getElem hlt, Option.map_some, Option.some.injEq]
    exact (and_iff_right (by omega)).symm
  · rw [getElem?_eq_none (by omega)]
    exact ⟨nofun, fun h => absurd h.1 (by omega)⟩

lemma map_iter_apply (k : RadixKey) (op : Op) : (k.apply op).map iter = op.onList k.iter := by
  cases op with
  | pageAligned pageSize =>
    simp only [apply, Op.onList, length_iter]
    split
    · rfl
    · exact congrArg some (iter_pageAligned k pageSize)
  | getItem idx =>
    cases idx with
    | unit i =>
      simp only [apply, Op.onList, length_iter]
      generalize (if i < 0 then i + k.len else i) = i
      by_cases hneg : i < 0
      · simp [hneg]
      by_cases hle : (k.len : Int) ≤ i
      · rw [if_pos (.inr hle), if_neg hneg, getElem?_eq_none (by rw [length_iter]; omega)]
        rfl
      · have hlt : i.toNat < k.iter.length := by
          rw [length_iter]
          omega
        rw [if_neg (by omega), if_neg hneg, getElem?_eq_getElem hlt, Option.map_some,
          Option.map_some, iter_slice,
          take_succ_eq_append_getElem hlt, drop_left' (length_take_of_le hlt.le)]
    | slice start stop step =>
      simp only [apply, Op.onList, length_iter]
      split
      · exact congrArg some (iter_slice k _ _)
      · rfl

lemma ns_of_apply {k' : RadixKey} {op : Op} (h : k.apply op = some k') : k'.ns = k.ns := by
  unfold apply at h
  split at h
  · obtain ⟨-, h⟩ := Option.ite_none_left_eq_some.mp h
    exact Option.some.inj h ▸ ns_pageAligned k _
  · obtain ⟨-, h⟩ := Option.ite_none_left_eq_some.mp h
    exact Option.some.inj h ▸ ns_slice k _ _
  · obtain ⟨-, h⟩ := Option.ite_none_right_eq_some.mp h
    exact Option.some.inj h ▸ ns_slice k _ _

lemma map_iter_run (ops : List Op) (k : RadixKey) :
    (ops.foldlM apply k).map (fun k' => (k'.iter, k'.len, k'.ns)) =
      (ops.foldlM Op.onList k.iter).map fun l => (l, l.length, k.ns) := by
  induction ops generalizing k with
  | nil => simp
  | cons op ops ih =>
    rw [foldlM_cons, foldlM_cons, ← map_iter_apply]
    cases h : k.apply op with
    | none => rfl
    | some k' =>
      have := ih k'
      rwa [ns_of_apply h] at this

/-- **The bigram view is a faithful list of pairs.** Compositions of aligning, slicing and indexing
are those of the list of pairs; so are `len`, `match`, the key of the first page and the two parts
of a split. -/
theorem bigram_view_faithful {k other : RadixKey} (hk : k.isBigram = true)
    (ho : other.isBigram = true) {pageSize : Nat} (hp : 0 < pageSize) :
    (∀ ops : List Op, (ops.foldlM apply k).map (fun k' => (k'.iter, k'.len, k'.ns)) =
      (ops.foldlM Op.onList (bigrams k.tokenIds)).map fun l => (l, l.length, (k.extraKey, true))) ∧
    k.match other pageSize = (if k.extraKey = other.extraKey then
      some (floor pageSize (common (bigrams k.tokenIds) (bigrams other.tokenIds))) else none) ∧
    ((∃ ck, k.bigramChildKey pageSize = some ck ∧ other.bigramChildKey pageSize = some ck) ↔
      pageSize ≤ (bigrams k.tokenIds).length ∧ pageSize ≤ (bigrams other.tokenIds).length ∧
      (bigrams k.tokenIds).take pageSize = (bigrams other.tokenIds).take pageSize ∧
      k.extraKey = other.extraKey) ∧
    ∀ n, (k.upto n).iter ++ (k.since n).iter = bigrams k.tokenIds := by
  rw [← iter_of_isBigram hk, ← iter_of_isBigram ho]
  refine ⟨fun ops => ?_, ?_, ?_, fun n => ?_⟩
  · rw [map_iter_run, ns, hk]
  · obtain ⟨t, extra, view⟩ := k
    obtain ⟨u, extra', view'⟩ := other
    obtain rfl : view = true := hk
    obtain rfl : view' = true := ho
    split
    · next heq =>
      obtain rfl : extra = extra' := heq
      exact match_bigram hp
    · next hne => exact if_pos hne
  · simp only [bigramChildKey_eq_some hk hp, bigramChildKey_eq_some ho hp, length_iter]
    constructor
    · rintro ⟨ck, ⟨hle, heq⟩, hle', heq'⟩
      obtain ⟨hns, htake⟩ := (childKey_eq_iff k other pageSize hp hle hle').mp (heq.trans heq'.symm)
      exact ⟨hle, hle', htake, congrArg Prod.fst hns⟩
    · rintro ⟨hle, hle', htake, hextra⟩
      have hns : other.ns = k.ns := by rw [ns, ns, hextra, hk, ho]
      exact ⟨_, ⟨hle, rfl⟩, hle',
        (childKey_eq_iff other k pageSize hp hle' hle).mpr ⟨hns, htake.symm⟩⟩
  · rw [iter_upto, iter_since, take_append_drop]

/-- A slice of a slice shares its boundary tokens, and an index takes one pair out of it. -/
theorem bigram_view_faithful_nested : ∃ k : RadixKey, k.isBigram = true ∧
    ([.getItem (.slice (some 1) none none), .getItem (.slice none (some (-1)) none),
    .getItem (.unit (-1))].foldlM
      apply k).map
      (fun k' => (k'.iter, k'.len, k'.ns)) = some ([.bigram 7 8], 1, (none, true)) := by
  let k : RadixKey := {tokenIds := [5, 6, 7, 8, 9], isBigram := true}
  refine ⟨k, rfl, ?_⟩
  rw [(@bigram_view_faithful k k rfl rfl 1 Nat.one_pos).1]
  decide

end RadixKey

end Sglang.MemCache
