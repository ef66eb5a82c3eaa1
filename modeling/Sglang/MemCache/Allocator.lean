import Mathlib.Tactic.Abel
import Sglang.Lib.Pages
import Sglang.MemCache.RadixCache

/-! The KV pool allocator.

`TokenToKVPoolAllocator` serves pages of one slot and `PagedTokenToKVPoolAllocator`
larger ones; the page size says which one a value of `KvAllocator` is. Page 0 is the
padding slot's and is never handed out. Between `free_group_begin` and
`free_group_end` frees are only collected.

`holdings` are the pages the allocator has, the collected ones included. Every
allocation takes pages out of the holdings and continues the caller's slots on them;
every free puts the pages of paged slots back. -/
namespace Sglang.MemCache
open List hiding count
open Prefix Pages

structure KvAllocator where
  size : Nat
  pageSize : Nat
  needSort : Bool := false
  freePages : List Nat
  releasePages : List Nat := []
  isNotInFreeGroup : Bool := true
  freeGroup : List (List Slot) := []

/-- What `alloc_extend` is told of a request: the slots it has, the slots it wants, its last slot.
-/
structure ExtendArgs where
  preLen : Nat
  seqLen : Nat
  lastLoc : Int

namespace KvAllocator

/-- `clear`: everything but page 0 is free. -/
def create (size pageSize : Nat) (needSort : Bool) : KvAllocator where
  size := size
  pageSize := pageSize
  needSort := needSort
  freePages := (range (size / pageSize)).map (· + 1)

section
variable (a : KvAllocator)

def availableSize : Nat := (a.freePages.length + a.releasePages.length) * a.pageSize

def mergeAndSortFree : KvAllocator :=
  if a.releasePages.length > 0 then
    {a with freePages := (a.freePages ++ a.releasePages).mergeSort, releasePages := []}
  else a

/-- What every allocation starts with: the released pages come in when the free ones may not do. -/
def sortFor (n : Nat) : KvAllocator :=
  if a.needSort && n > a.freePages.length then a.mergeAndSortFree else a

def alloc (needSize : Nat) : Option (KvAllocator × List Slot) :=
  let numPages := needSize / a.pageSize
  let a := a.sortFor numPages
  if numPages > a.freePages.length then none
  else some ({a with freePages := a.freePages.drop numPages},
    expand a.pageSize (a.freePages.take numPages))

/-- `alloc_extend_kernel` for one request, whose new pages start at the head of `free`. -/
def extendOne (pageSize : Nat) (free : List Nat) (r : ExtendArgs) : List Slot :=
  let newPages := count pageSize r.seqLen - count pageSize r.preLen
  let num1 := min r.seqLen (ceil pageSize r.preLen) - r.preLen
  -- part 1: fill the old partial page
  let part1 := (range num1).map fun i : Nat => (r.lastLoc + 1 + i).toNat
  if r.preLen + num1 = r.seqLen then part1
  else
    -- part 2: the new full pages
    let num2 := floor pageSize r.seqLen - ceil pageSize r.preLen
    let part2 := (range num2).map fun i => free.getD (i / pageSize) 0 * pageSize + i % pageSize
    if r.preLen + num1 + num2 = r.seqLen then part1 ++ part2
    else
      -- part 3: the new partial page
      let num3 := r.seqLen - floor pageSize r.seqLen
      part1 ++ part2 ++ (range num3).map fun i => free.getD (newPages - 1) 0 * pageSize + i

/-- The requests of a batch take their new pages one after the other. -/
def extendAll (pageSize : Nat) : List ExtendArgs → List Nat → List (List Slot)
  | [], _ => []
  | r :: rs, free =>
    extendOne pageSize free r :: extendAll pageSize rs
      (free.drop (count pageSize r.seqLen - count pageSize r.preLen))

def numNewPages (pageSize : Nat) (rs : List ExtendArgs) : Nat :=
  (rs.map fun r => count pageSize r.seqLen - count pageSize r.preLen).sum

def allocExtend (rs : List ExtendArgs) (extendNumTokens : Nat) :
    Option (KvAllocator × List (List Slot)) :=
  let a := a.sortFor (extendNumTokens / a.pageSize + rs.length + 1)
  let n := numNewPages a.pageSize rs
  if n > a.freePages.length then none
  else some ({a with freePages := a.freePages.drop n}, extendAll a.pageSize rs a.freePages)

/-- `alloc_decode_kernel` for one request that grows to `seqLen` slots. -/
def decodeOne (pageSize : Nat) (free : List Nat) (seqLen : Nat) (lastLoc : Int) : Slot :=
  if count pageSize seqLen - count pageSize (seqLen - 1) = 0 then (lastLoc + 1).toNat
  else free.getD 0 0 * pageSize

def decodeAll (pageSize : Nat) : List (Nat × Int) → List Nat → List Slot
  | [], _ => []
  | (seqLen, lastLoc) :: rs, free =>
    decodeOne pageSize free seqLen lastLoc ::
      decodeAll pageSize rs (free.drop (count pageSize seqLen - count pageSize (seqLen - 1)))

def allocDecode (rs : List (Nat × Int)) : Option (KvAllocator × List Slot) :=
  let a := a.sortFor rs.length
  -- `get_num_new_pages` in decode mode
  let n := rs.countP fun r => r.1 % a.pageSize == 1
  if n > a.freePages.length then none
  else some ({a with freePages := a.freePages.drop n}, decodeAll a.pageSize rs a.freePages)

/-- The flat result of an allocation, cut by the lengths the requests asked for. -/
def splitLens : List Nat → List Slot → List (List Slot)
  | [], _ => []
  | n :: ns, out => out.take n :: splitLens ns (out.drop n)

def free (freeIndex : List Slot) : KvAllocator :=
  if freeIndex = [] then a
  else if a.isNotInFreeGroup then
    if a.pageSize = 1 then
      if a.needSort then {a with releasePages := a.releasePages ++ freeIndex}
      else {a with freePages := a.freePages ++ freeIndex}
    else
      -- `torch.unique` returns the pages sorted
      let pages := ((freeIndex.map (· / a.pageSize)).dedup).mergeSort
      if a.needSort then {a with releasePages := pages ++ a.releasePages}
      else {a with freePages := pages ++ a.freePages}
  else {a with freeGroup := a.freeGroup ++ [freeIndex]}

def freeGroupBegin : KvAllocator := {a with isNotInFreeGroup := false, freeGroup := []}

def freeGroupEnd : KvAllocator :=
  let a := {a with isNotInFreeGroup := true}
  if a.freeGroup = [] then a else a.free a.freeGroup.flatten

/-! ### Holdings -/

/-- The pages collected since `free_group_begin`. -/
def pending : Multiset Nat :=
  if a.isNotInFreeGroup then 0 else ((a.freeGroup.map (pagesOf a.pageSize)).flatten : List Nat)

/-- The pages the allocator has. -/
def holdings : Multiset Nat := a.freePages + a.releasePages + a.pending

/-- The pages `ps` went out and nothing else changed. -/
structure Took (a a' : KvAllocator) (ps : List Nat) : Prop where
  holdings : a.holdings = ps + a'.holdings
  pageSize : a'.pageSize = a.pageSize
  group : a'.isNotInFreeGroup = a.isNotInFreeGroup ∧ a'.freeGroup = a.freeGroup

/-- The frees collected in an open group were of paged slots. -/
def GroupPaged : Prop :=
  a.isNotInFreeGroup = false → ∀ l ∈ a.freeGroup, Paged a.pageSize l

end

variable {a a' : KvAllocator}

lemma Took.groupPaged {ps : List Nat} (h : Took a a' ps) (hg : a.GroupPaged) : a'.GroupPaged := by
  unfold GroupPaged
  rw [h.pageSize, h.group.1, h.group.2]
  exact hg

lemma took_mergeAndSortFree (a : KvAllocator) : Took a a.mergeAndSortFree [] := by
  unfold mergeAndSortFree
  split
  · have hsort : ((a.freePages ++ a.releasePages).mergeSort : Multiset Nat) =
        a.freePages + a.releasePages :=
      Multiset.coe_eq_coe.mpr (mergeSort_perm _ _)
    exact ⟨by simp [holdings, hsort, pending], rfl, rfl, rfl⟩
  · exact ⟨by simp, rfl, rfl, rfl⟩

lemma took_sortFor (a : KvAllocator) (n : Nat) : Took a (a.sortFor n) [] := by
  unfold sortFor
  split
  · exact took_mergeAndSortFree a
  · exact ⟨by simp, rfl, rfl, rfl⟩

lemma Took.trans {a b c : KvAllocator} {ps qs : List Nat} (h : Took a b ps) (h' : Took b c qs) :
    Took a c (ps ++ qs) := by
  refine ⟨?_, h'.pageSize.trans h.pageSize, h'.group.1.trans h.group.1, h'.group.2.trans h.group.2⟩
  rw [h.holdings, h'.holdings, ← Multiset.coe_add, add_assoc]

lemma took_drop (a : KvAllocator) (n : Nat) :
    Took a {a with freePages := a.freePages.drop n} (a.freePages.take n) := by
  refine ⟨?_, rfl, rfl, rfl⟩
  have hsplit :
      (a.freePages : Multiset Nat) =
      (a.freePages.take n : List Nat) + (a.freePages.drop n : List Nat) := by
    rw [Multiset.coe_add, take_append_drop]
  simp only [holdings, pending, hsplit, add_assoc]

/-! ### Allocation -/

variable {page : Nat} {r : ExtendArgs} {l : List Slot} {rs : List ExtendArgs}

lemma map_range_add {β : Type} (f : Nat → β) (m n : Nat) :
    (range (m + n)).map f = (range m).map f ++ (range n).map fun i => f (m + i) := by
  rw [range_add, map_append, map_map]
  rfl

/-- What `alloc_extend` may assume of a request: it stands at the end of its paged slots. -/
structure Continues (page : Nat) (r : ExtendArgs) (l : List Slot) : Prop where
  paged : Paged page l
  preLen : r.preLen = l.length
  le : r.preLen ≤ r.seqLen
  last : ∀ s ∈ l.getLast?, r.lastLoc = s

namespace Continues

section
variable (hp : 0 < page)
include hp

section
variable (h : Continues page r l)
include h

lemma lastLoc_eq (hpos : 0 < r.preLen) :
    r.lastLoc = slotAt page (pagesOf page l) (r.preLen - 1) := by
  have hlen := h.preLen
  have hget : l[l.length - 1]? = some (slotAt page (pagesOf page l) (l.length - 1)) := by
    conv_lhs => rw [h.paged.eq_map hp]
    rw [getElem?_map, length_map, length_range, getElem?_range (by omega)]
    rfl
  rw [hlen]
  exact h.last _ (by rw [getLast?_eq_getElem?, hget]; rfl)

lemma part1 (qs : List Nat) {k : Nat} (hk : r.preLen + k < ceil page r.preLen) :
    (r.lastLoc + 1 + k).toNat = slotAt page (pagesOf page l ++ qs) (r.preLen + k) := by
  have hpos : 0 < r.preLen := by
    by_contra hzero
    rw [Nat.eq_zero_of_not_pos hzero, ceil_eq, ← zero_mul page, count_mul hp] at hk
    omega
  have hroom : (r.preLen - 1) % page + (k + 1) < page := by
    have hdiv : (r.preLen + page - 1) / page = (r.preLen - 1) / page + 1 := by
      rw [show r.preLen + page - 1 = r.preLen - 1 + page by omega, Nat.add_div_right _ hp]
    have hj := Nat.div_add_mod (r.preLen - 1) page
    rw [ceil, hdiv, Nat.succ_mul, mul_comm] at hk
    omega
  rw [slotAt_append_left hp]
  · rw [h.lastLoc_eq hp hpos,
      show r.preLen + k = r.preLen - 1 + (k + 1) by omega, slotAt_add _ hroom]
    omega
  · rw [h.paged.length, ← h.preLen]
    exact hk

lemma beyond (qs : List Nat) (j : Nat) :
    slotAt page (pagesOf page l ++ qs) (ceil page r.preLen + j) = slotAt page qs j := by
  have hlen : ceil page r.preLen = (pagesOf page l).length * page := by
    rw [h.paged.length, h.preLen]
    rfl
  rw [hlen, slotAt_append_right hp]

/-- **One request's slots go on through its last page and then through its new pages.** -/
theorem extendOne_eq (free : List Nat) :
    extendOne page free r = (range (r.seqLen - r.preLen)).map fun k =>
      slotAt page (pagesOf page l ++ free.take (count page r.seqLen - count page r.preLen))
        (r.preLen + k) := by
  have hle := h.le
  have hceil : r.preLen ≤ ceil page r.preLen := le_count_mul hp _
  generalize hn : count page r.seqLen - count page r.preLen = n
  set f := fun k => slotAt page (pagesOf page l ++ free.take n) (r.preLen + k) with hf
  have hpart1 : (range (min r.seqLen (ceil page r.preLen) - r.preLen)).map
    (fun i : Nat => (r.lastLoc + 1 + i).toNat) =
      (range (min r.seqLen (ceil page r.preLen) - r.preLen)).map f := by
    apply map_congr_left
    intro k hk
    have hk := mem_range.mp hk
    exact h.part1 hp _ (by omega)
  unfold extendOne
  simp only
  rw [hpart1, hn]
  by_cases hend : r.preLen + (min r.seqLen (ceil page r.preLen) - r.preLen) = r.seqLen
  · rw [if_pos hend, show r.seqLen - r.preLen = min r.seqLen
      (ceil page r.preLen) - r.preLen by omega]
  rw [if_neg hend]
  have hlt : ceil page r.preLen < r.seqLen := by omega
  have hfloor : ceil page r.preLen ≤ floor page r.seqLen := le_floor (dvd_mul_left page _) hlt.le
  have hfl := floor_le page r.seqLen
  rw [show min r.seqLen (ceil page r.preLen) - r.preLen = ceil page r.preLen - r.preLen by omega]
  -- behind the last page's end the position in the new pages counts
  have hf' : ∀ j, j / page < n → f (ceil page r.preLen - r.preLen + j) = slotAt page free j := by
    intro j hj
    rw [hf, ← slotAt_take free hj, ← h.beyond hp]
    exact congrArg _ (by omega)
  have hfull :
      floor page r.seqLen - ceil page r.preLen =
      (r.seqLen / page - count page r.preLen) * page := by
    rw [Nat.sub_mul]
    rfl
  set body := floor page r.seqLen - ceil page r.preLen
  have hpart2 : (range body).map (fun i => free.getD (i / page) 0 * page + i % page) =
      (range body).map fun i => f (ceil page r.preLen - r.preLen + i) := by
    apply map_congr_left
    intro i hi
    have hpages : r.seqLen / page ≤ count page r.seqLen := Nat.div_le_div_right (by omega)
    have hlt := (Nat.div_lt_iff_lt_mul hp).mpr (hfull ▸ mem_range.mp hi)
    exact (hf' i (by omega)).symm
  rw [hpart2, ← map_range_add]
  by_cases hend : r.preLen + (ceil page r.preLen - r.preLen) + body = r.seqLen
  · rw [if_pos hend, show r.seqLen - r.preLen = ceil page r.preLen - r.preLen + body by omega]
  rw [if_neg hend, show r.seqLen - r.preLen = ceil page r.preLen - r.preLen +
    body + (r.seqLen - floor page r.seqLen) by omega, map_range_add f (_ + _)]
  congr 1
  apply map_congr_left
  intro i hi
  have hi := mem_range.mp hi
  have hroom := lt_floor_add hp r.seqLen
  have hcount := count_of_floor_lt hp (n := r.seqLen) (by omega)
  have hpages : count page r.preLen ≤ r.seqLen / page := Nat.le_of_mul_le_mul_right hfloor hp
  have hlast : r.seqLen / page - count page r.preLen = n - 1 := by omega
  rw [add_assoc, hfull, hlast, hf', slotAt_mul_add _ _ (by omega)]
  rw [mul_comm, Nat.mul_add_div hp, Nat.div_eq_of_lt (by omega : i < page)]
  omega

/-- The extended slots are paged, the old pages followed by the new. -/
lemma extend {free : List Nat} (hfree : count page r.seqLen - count page r.preLen ≤ free.length) :
    IsPaged page (l ++ extendOne page free r)
    (pagesOf page l ++ free.take (count page r.seqLen - count page r.preLen)) ∧
    (extendOne page free r).length = r.seqLen - r.preLen := by
  have heq := h.extendOne_eq hp free
  have hle := h.le
  rw [h.preLen] at heq hle hfree ⊢
  refine ⟨h.paged.extend hp hle ?_ heq, ?_⟩
  · rw [length_take, min_eq_left hfree]
  · rw [heq, length_map, length_range]

end

end

end Continues

section Batch
variable {α : Type} {slots : α → List Slot}

/-- Each of the requests `xs` got slots that continue its own up to the length it wanted;
together they are on the pages that went out. -/
structure Handed (a a' : KvAllocator) (slots : α → List Slot) (seqLen : α → Nat) (xs : List α)
    (outs : List (List Slot)) : Prop where
  length : outs.length = xs.length
  paged : ∀ p ∈ xs.zip outs, Paged a.pageSize (slots p.1 ++ p.2)
  seqLen : ∀ p ∈ xs.zip outs, (slots p.1 ++ p.2).length = seqLen p.1
  took :
    ∃ ps, Took a a' ps ∧ ((xs.zip outs).map fun p => pageSet a.pageSize (slots p.1 ++ p.2)).sum =
    (xs.map fun x => pageSet a.pageSize (slots x)).sum + ps

variable {xs : List α}

lemma extendAll_spec (hp : 0 < page) (args : α → ExtendArgs) {free : List Nat}
    (h : ∀ x ∈ xs, Continues page (args x) (slots x))
    (hfree : numNewPages page (xs.map args) ≤ free.length) :
    (extendAll page (xs.map args) free).length = xs.length ∧
    (∀ p ∈ xs.zip (extendAll page (xs.map args) free),
      Paged page (slots p.1 ++ p.2) ∧ (slots p.1 ++ p.2).length = (args p.1).seqLen) ∧
    ((xs.zip (extendAll page (xs.map args) free)).map fun p => pageSet page
    (slots p.1 ++ p.2)).sum =
      (xs.map fun x => pageSet page (slots x)).sum + (free.take
      (numNewPages page (xs.map args)) : List Nat) := by
  induction xs generalizing free with
  | nil => simp [extendAll, numNewPages]
  | cons x xs ih =>
    have hnum : numNewPages page ((x :: xs).map args) =
        count page (args x).seqLen - count page (args x).preLen + numNewPages page
        (xs.map args) := by
      simp [numNewPages]
    rw [hnum] at hfree ⊢
    obtain ⟨hx, hxs⟩ := forall_mem_cons.mp h
    have hroom : count page (args x).seqLen - count page (args x).preLen ≤ free.length := by omega
    obtain ⟨hpaged, hout⟩ := hx.extend hp hroom
    obtain ⟨hlen, hall, hsum⟩ :=
      @ih (free.drop (count page (args x).seqLen - count page (args x).preLen)) hxs
      (by rw [length_drop]; omega)
    have hpages := hpaged.pagesOf_eq hp
    have hle := hx.le
    have hpre := hx.preLen
    simp only [map_cons, extendAll]
    refine ⟨by simp [hlen], ?_, ?_⟩
    · rw [zip_cons_cons, forall_mem_cons]
      refine ⟨⟨hpaged.paged hp, ?_⟩, hall⟩
      show (slots x ++ extendOne page free (args x)).length = (args x).seqLen
      rw [length_append, hout]
      omega
    · rw [zip_cons_cons, map_cons, sum_cons, hsum, sum_cons, take_add,
        ← Multiset.coe_add, pageSet, hpages, ← Multiset.coe_add]
      simp only [pageSet]
      abel

lemma handed_extendAll {a a1 : KvAllocator} (hsort : Took a a1 []) (hp : 0 < a1.pageSize)
    (args : α → ExtendArgs) (hargs : ∀ x ∈ xs, Continues a1.pageSize (args x) (slots x))
    (hn : numNewPages a1.pageSize (xs.map args) ≤ a1.freePages.length) :
    Handed a {a1 with freePages := a1.freePages.drop (numNewPages a1.pageSize (xs.map args))} slots
      (fun x => (args x).seqLen) xs (extendAll a1.pageSize (xs.map args) a1.freePages) := by
  obtain ⟨hlen, hall, hsum⟩ := extendAll_spec hp args hargs hn
  refine ⟨hlen, fun p hm => ?_, fun p hm => (hall p hm).2, _, hsort.trans (took_drop a1 _), ?_⟩
  · rw [← hsort.pageSize]
    exact (hall p hm).1
  · rw [← hsort.pageSize]
    exact hsum

variable {n : Nat}

lemma allocExtend_spec (hp : 0 < a.pageSize) (args : α → ExtendArgs)
    {outs : List (List Slot)} (hargs : ∀ x ∈ xs, Continues a.pageSize (args x) (slots x))
    (h : a.allocExtend (xs.map args) n = some (a', outs)) :
    Handed a a' slots (fun x => (args x).seqLen) xs outs := by
  unfold allocExtend at h
  simp only at h
  have hsort := took_sortFor a (n / a.pageSize + (xs.map args).length + 1)
  generalize a.sortFor (n / a.pageSize + (xs.map args).length + 1) = a1 at h hsort
  rw [← hsort.pageSize] at hp hargs
  split at h
  · cases h
  · next hn =>
    cases h
    exact handed_extendAll hsort hp args hargs (not_lt.mp hn)

/-- One more slot is the next one of the last page, or the first one of a new page. -/
lemma Continues.decodeOne_eq (hp : 0 < page) (h : Continues page r l)
    (hseq : r.seqLen = r.preLen + 1) (free : List Nat) :
    extendOne page free r = [decodeOne page free r.seqLen r.lastLoc] := by
  have hone : r.seqLen - r.preLen = 1 := by omega
  have hpre : r.seqLen - 1 = r.preLen := by omega
  have hfit : count page r.seqLen - count page r.preLen = 0 ↔ r.seqLen ≤ ceil page r.preLen := by
    rw [Nat.sub_eq_zero_iff_le, count_le hp, ceil_eq]
  have hceil : r.preLen ≤ ceil page r.preLen := le_count_mul hp _
  rw [h.extendOne_eq hp, hone, decodeOne, hpre]
  refine congrArg (· :: []) ?_
  show slotAt page _ (r.preLen + 0) = _
  split
  · next hn =>
    have := hfit.mp hn
    rw [← h.part1 hp _ (by omega), Nat.cast_zero, Int.add_zero]
  · next hn =>
    have hfull : ceil page r.preLen = r.preLen := by
      have := mt hfit.mpr hn
      omega
    have hnew := h.beyond hp (free.take (count page r.seqLen - count page r.preLen)) 0
    rw [hfull] at hnew
    rw [hnew, slotAt_take _ (by rw [Nat.zero_div]; omega), slotAt, Nat.zero_div,
      Nat.zero_mod, add_zero]

lemma decodeAll_eq (hp : 0 < page) (args : α → ExtendArgs) (free : List Nat)
    (h : ∀ x ∈ xs, Continues page (args x) (slots x))
    (hseq : ∀ x ∈ xs, (args x).seqLen = (args x).preLen + 1) :
    extendAll page
    (xs.map args) free =
    (decodeAll page (xs.map fun x => ((args x).seqLen, (args x).lastLoc)) free).map ([·]) := by
  induction xs generalizing free with
  | nil => rfl
  | cons x xs ih =>
    obtain ⟨hx, hxs⟩ := forall_mem_cons.mp h
    obtain ⟨hsx, hsxs⟩ := forall_mem_cons.mp hseq
    simp only [map_cons, extendAll, decodeAll]
    rw [hx.decodeOne_eq hp hsx, ih _ hxs hsxs, show (args x).seqLen - 1 = (args x).preLen by omega]

lemma countP_eq_numNewPages (hp : 1 < page) (h : ∀ r ∈ rs, r.seqLen = r.preLen + 1) :
    rs.countP (fun r => r.seqLen % page == 1) = numNewPages page rs := by
  induction rs with
  | nil => rfl
  | cons r rs ih =>
    obtain ⟨hr, hrs⟩ := forall_mem_cons.mp h
    rw [countP_cons, ih hrs, numNewPages, numNewPages, map_cons, sum_cons, hr, count_succ_sub hp]
    simp [add_comm]

variable {out : List Slot}

lemma allocDecode_spec (hp : 1 < a.pageSize) (args : α → ExtendArgs)
    (hargs : ∀ x ∈ xs, Continues a.pageSize (args x) (slots x))
    (hseq : ∀ x ∈ xs, (args x).seqLen = (args x).preLen + 1)
    (h : a.allocDecode (xs.map fun x => ((args x).seqLen, (args x).lastLoc)) = some (a', out)) :
    Handed a a' slots (fun x => (args x).seqLen) xs (out.map ([·])) := by
  unfold allocDecode at h
  simp only at h
  have hsort := took_sortFor a (xs.map fun x => ((args x).seqLen, (args x).lastLoc)).length
  generalize a.sortFor (xs.map fun x => ((args x).seqLen, (args x).lastLoc)).length = a1 at h hsort
  rw [← hsort.pageSize] at hp hargs
  have hnew : (xs.map args).countP (fun r => r.seqLen % a1.pageSize == 1) =
      numNewPages a1.pageSize (xs.map args) :=
    countP_eq_numNewPages hp (by simpa using hseq)
  rw [countP_map] at h hnew
  rw [show ((fun r : Nat × Int => r.1 % a1.pageSize == 1) ∘ fun x =>
    ((args x).seqLen, (args x).lastLoc)) =
    (fun r : ExtendArgs => r.seqLen % a1.pageSize == 1) ∘ args from rfl, hnew] at h
  split at h
  · cases h
  · next hn =>
    cases h
    rw [← decodeAll_eq (by omega) args _ hargs hseq]
    exact handed_extendAll hsort (by omega) args hargs (not_lt.mp hn)

lemma alloc_spec (h : a.alloc n = some (a', out)) :
    ∃ ps, Took a a' ps ∧ out = expand a.pageSize ps ∧ ps.length = n / a.pageSize := by
  unfold alloc at h
  simp only at h
  have hsort := took_sortFor a (n / a.pageSize)
  generalize a.sortFor (n / a.pageSize) = a1 at h hsort
  split at h
  · cases h
  · next hn =>
    cases h
    refine ⟨_, hsort.trans (took_drop a1 _), by rw [hsort.pageSize]; rfl, ?_⟩
    rw [nil_append, length_take, min_eq_left (not_lt.mp hn)]

lemma length_alloc (hone : a.pageSize = 1) (h : a.alloc n = some (a', out)) : out.length = n := by
  obtain ⟨ps, _, rfl, hlen⟩ := alloc_spec h
  rw [length_expand, hlen, hone, Nat.div_one, mul_one]

lemma handed_splitLens (hone : a.pageSize = 1) (len : α → Nat)
    (h : a.alloc (xs.map len).sum = some (a', out)) :
    Handed a a' slots (fun x => (slots x).length + len x) xs (splitLens (xs.map len) out) := by
  obtain ⟨ps, htook, hout, hlen⟩ := alloc_spec h
  rw [hone, expand_one] at hout
  rw [hone, Nat.div_one] at hlen
  subst hout
  suffices hall : (splitLens (xs.map len) out).length = xs.length ∧
      (∀ p ∈ xs.zip (splitLens (xs.map len) out), (slots p.1 ++ p.2).length =
      (slots p.1).length + len p.1) ∧
      ((xs.zip (splitLens (xs.map len) out)).map fun p => pageSet 1 (slots p.1 ++ p.2)).sum =
        (xs.map fun x => pageSet 1 (slots x)).sum + out by
    exact ⟨hall.1,
      fun p _ => by
      rw [hone]; exact paged_one _, hall.2.1, out, htook, by rw [hone]; exact hall.2.2⟩
  clear htook h hone
  induction xs generalizing out with
  | nil => simp [splitLens, eq_nil_of_length_eq_zero hlen]
  | cons x xs ih =>
    rw [map_cons, sum_cons] at hlen
    obtain ⟨hl, hseq, hsum⟩ := @ih (out.drop (len x)) (by rw [length_drop]; omega)
    simp only [map_cons, splitLens]
    refine ⟨by simp [hl], ?_, ?_⟩
    · rw [zip_cons_cons, forall_mem_cons]
      refine ⟨?_, hseq⟩
      rw [length_append, length_take, min_eq_left (by omega)]
    · rw [zip_cons_cons, map_cons, sum_cons, hsum, sum_cons, pageSet_one, pageSet_one]
      conv_rhs => rw [← take_append_drop (len x) out]
      rw [← Multiset.coe_add, ← Multiset.coe_add]
      abel

end Batch

/-! ### Freeing -/

lemma free_frame (a : KvAllocator) (l : List Slot) :
    (a.free l).pageSize = a.pageSize ∧ (a.free l).isNotInFreeGroup = a.isNotInFreeGroup := by
  unfold free
  split_ifs <;> exact ⟨rfl, rfl⟩

lemma holdings_free_flatten (hp : 0 < a.pageSize) (hopen : a.isNotInFreeGroup = true)
    {ls : List (List Slot)} (hls : ∀ l ∈ ls, Paged a.pageSize l)
    (hnd : (ls.map (pagesOf a.pageSize)).flatten.Nodup) :
    (a.free ls.flatten).holdings =
    a.holdings + ((ls.map (pagesOf a.pageSize)).flatten : List Nat) := by
  have hforall : List.Forall₂ (IsPaged a.pageSize) ls (ls.map (pagesOf a.pageSize)) := by
    rw [forall₂_map_right_iff, forall₂_same]
    exact hls
  have hpages := dedup_perm hp hforall hnd
  by_cases hnil : ls.flatten = []
  · have hzero : (ls.map (pagesOf a.pageSize)).flatten = [] := by
      rw [hnil] at hpages
      exact List.Perm.nil_eq hpages |>.symm
    rw [hzero, free, if_pos hnil, Multiset.coe_nil, add_zero]
  have hsorted : ((ls.flatten.map (· / a.pageSize)).dedup.mergeSort : Multiset Nat) =
      ((ls.map (pagesOf a.pageSize)).flatten : List Nat) :=
    Multiset.coe_eq_coe.mpr ((mergeSort_perm _ _).trans hpages)
  have hone : a.pageSize = 1 → (ls.map (pagesOf a.pageSize)).flatten = ls.flatten := by
    intro h1
    have hid : pagesOf 1 = id := funext fun l => (isPaged_one l).pagesOf_eq Nat.one_pos
    rw [h1, hid, map_id]
  simp only [free, if_neg hnil, if_pos hopen]
  split_ifs with h1 hs hs
  all_goals simp only [holdings, pending, hopen, if_true, ← Multiset.coe_add]
  · rw [hone h1]
    abel
  · rw [hone h1]
    abel
  · rw [hsorted]
    abel
  · rw [hsorted]
    abel

/-- **What is freed is held, once**, when the slots are paged and on different pages. -/
theorem holdings_free (hp : 0 < a.pageSize) (hl : Paged a.pageSize l)
    (hnd : (pageSet a.pageSize l).Nodup) :
    (a.free l).holdings = a.holdings + pageSet a.pageSize l := by
  by_cases hopen : a.isNotInFreeGroup
  · have := @holdings_free_flatten a hp hopen [l] (by simpa using hl) (by simpa [pageSet] using hnd)
    simpa [pageSet] using this
  by_cases hnil : l = []
  · rw [hnil, pageSet_nil hp, add_zero]
    rfl
  · simp only [free, if_neg hnil, if_neg hopen, holdings, pending, map_append, flatten_append,
      ← Multiset.coe_add, map_cons, map_nil, flatten_cons, flatten_nil, append_nil,
      pageSet, add_assoc]

lemma groupPaged_free (hg : a.GroupPaged) (hl : Paged a.pageSize l) : (a.free l).GroupPaged := by
  intro hopen
  rw [(free_frame a l).2] at hopen
  rw [(free_frame a l).1]
  intro m hm
  unfold free at hm
  simp only [hopen, Bool.false_eq_true, if_false] at hm
  split at hm
  · exact hg hopen m hm
  · obtain hm | hm := mem_append.mp hm
    · exact hg hopen m hm
    · rw [mem_singleton.mp hm]
      exact hl

lemma holdings_freeGroupBegin (h : a.isNotInFreeGroup = true) :
    a.freeGroupBegin.holdings = a.holdings ∧ a.freeGroupBegin.GroupPaged := by
  refine ⟨?_, fun _ l hl => ?_⟩
  · simp [freeGroupBegin, holdings, pending, h]
  · simp [freeGroupBegin] at hl

lemma pageSize_freeGroupEnd (a : KvAllocator) : a.freeGroupEnd.pageSize = a.pageSize := by
  unfold freeGroupEnd
  simp only
  split
  · rfl
  · exact (free_frame _ _).1

lemma holdings_freeGroupEnd (hp : 0 < a.pageSize) (hopen : a.isNotInFreeGroup = false)
    (hg : a.GroupPaged) (hnd : a.holdings.Nodup) :
    a.freeGroupEnd.holdings = a.holdings ∧ a.freeGroupEnd.GroupPaged := by
  have hpending : a.pending = ((a.freeGroup.map (pagesOf a.pageSize)).flatten : List Nat) := by
    rw [pending, if_neg (by rw [hopen]; exact Bool.false_ne_true)]
  have hpages : (a.freeGroup.map (pagesOf a.pageSize)).flatten.Nodup := by
    rw [holdings, hpending] at hnd
    exact Multiset.coe_nodup.mp (Multiset.nodup_of_le (Multiset.le_add_left _ _) hnd)
  unfold freeGroupEnd
  simp only
  split
  · next hnil =>
    rw [hnil] at hpending
    refine ⟨?_, fun h => by cases h⟩
    rw [holdings, holdings, hpending]
    simp [pending]
  · refine ⟨?_, fun h => ?_⟩
    · have := @holdings_free_flatten {a with isNotInFreeGroup := true} hp rfl _ (hg hopen) hpages
      rw [this, holdings, holdings, hpending]
      simp [pending]
    · rw [(free_frame _ _).2] at h
      cases h

/-! ### Room -/

/-- The pages that can be handed out. -/
def pages (a : KvAllocator) : List Nat := a.freePages ++ a.releasePages

/-- Outside a free group, and with pages waiting to be sorted only where they are sorted. -/
structure Ready (a : KvAllocator) : Prop where
  closed : a.isNotInFreeGroup = true
  sorted : a.needSort = false → a.releasePages = []

lemma availableSize_eq (a : KvAllocator) : a.availableSize = a.pages.length * a.pageSize := by
  rw [availableSize, pages, length_append]

/-- An allocation that sorts for enough pages finds all pages there are. -/
lemma Ready.le_sortFor (h : a.Ready) {k n : Nat} (hkn : k ≤ n) (hk : k ≤ a.pages.length) :
    k ≤ (a.sortFor n).freePages.length := by
  rw [pages, length_append] at hk
  unfold sortFor mergeAndSortFree
  cases hsort : a.needSort with
  | false =>
    have hnil := h.sorted hsort
    rw [hnil] at hk
    simpa using hk
  | true =>
    split
    · split
      · simpa using hk
      · next hempty =>
        have : a.releasePages.length = 0 := by omega
        omega
    · next hfew =>
      simp only [Bool.true_and, decide_eq_true_eq] at hfew
      omega

variable {n : Nat}

lemma Ready.alloc_isSome (h : a.Ready) (hn : n / a.pageSize ≤ a.pages.length) :
    (a.alloc n).isSome := by
  have hle := h.le_sortFor (le_refl _) hn
  unfold alloc
  rw [if_neg (by omega)]
  rfl

lemma numNewPages_le (hp : 0 < page) (rs : List ExtendArgs) :
    numNewPages page rs ≤ (rs.map fun r => r.seqLen - r.preLen).sum / page + rs.length := by
  induction rs with
  | nil => exact Nat.zero_le _
  | cons r rs ih =>
    have hone := (count_sub_le hp r.seqLen r.preLen).trans (count_le_div_succ hp _)
    have hadd : (r.seqLen - r.preLen) / page + (rs.map fun r => r.seqLen - r.preLen).sum / page ≤
        (r.seqLen - r.preLen + (rs.map fun r => r.seqLen - r.preLen).sum) / page :=
          Nat.div_add_div_le_add_div
    simp only [numNewPages, map_cons, sum_cons, length_cons] at ih hadd ⊢
    omega

lemma Ready.allocExtend_isSome (h : a.Ready) (hp : 0 < a.pageSize)
    (hn : n = (rs.map fun r => r.seqLen - r.preLen).sum)
    (hroom : numNewPages a.pageSize rs ≤ a.pages.length) :
    (a.allocExtend rs n).isSome := by
  have hfew := numNewPages_le hp rs
  rw [← hn] at hfew
  have hle := h.le_sortFor (Nat.le_succ_of_le hfew) hroom
  unfold allocExtend
  simp only [(took_sortFor a _).pageSize]
  rw [if_neg (by simpa using hle)]
  rfl

lemma Ready.allocDecode_isSome (h : a.Ready) {rs : List (Nat × Int)}
    (hroom : rs.countP (fun r => r.1 % a.pageSize == 1) ≤ a.pages.length) :
    (a.allocDecode rs).isSome := by
  have hle := h.le_sortFor countP_le_length hroom
  unfold allocDecode
  simp only [(took_sortFor a _).pageSize]
  rw [if_neg (by simpa using hle)]
  rfl

lemma Ready.free (h : a.Ready) (l : List Slot) :
    (a.free l).Ready ∧ a.pages.length ≤ (a.free l).pages.length ∧
      ∀ p, p ∈ (a.free l).pages ↔ p ∈ a.pages ∨ ∃ s ∈ l, s / a.pageSize = p := by
  unfold KvAllocator.free
  rw [h.closed, if_pos rfl]
  split
  · next hnil =>
    subst hnil
    exact ⟨h, le_refl _, fun p => by simp⟩
  have hpages (p : Nat) : (∃ s ∈ l, s / a.pageSize = p) ↔ p ∈ if a.pageSize = 1 then l
      else ((l.map (· / a.pageSize)).dedup).mergeSort := by
    split
    · next hone => simp [hone]
    · rw [mem_mergeSort, mem_dedup, mem_map]
  simp only [hpages]
  split
  all_goals
    split
    · next hsort =>
      refine ⟨⟨rfl, fun hno => absurd hno (by simp [hsort])⟩, by simp [pages], fun p => ?_⟩
      simp only [pages, mem_append]
      tauto
    · refine ⟨⟨rfl, h.sorted⟩, by simp [pages], fun p => ?_⟩
      simp only [pages, mem_append]
      tauto

/-- `restore_state`: the free lists of an earlier state. -/
def restoreState (a state : KvAllocator) : KvAllocator :=
  { a with freePages := state.freePages, releasePages := state.releasePages }

lemma restoreState_sortFor (a : KvAllocator) (n : Nat) (free : List Nat) :
    restoreState { a.sortFor n with freePages := free } a = a := by
  unfold sortFor mergeAndSortFree
  split
  · split <;> rfl
  · rfl

lemma restoreState_alloc {out : List Slot} (h : a.alloc n = some (a', out)) :
    a'.restoreState a = a := by
  unfold alloc at h
  simp only at h
  split at h
  · cases h
  · cases h
    exact restoreState_sortFor a _ _

lemma restoreState_allocExtend {outs : List (List Slot)}
    (h : a.allocExtend rs n = some (a', outs)) : a'.restoreState a = a := by
  unfold allocExtend at h
  simp only at h
  split at h
  · cases h
  · cases h
    exact restoreState_sortFor a _ _

end KvAllocator

end Sglang.MemCache
