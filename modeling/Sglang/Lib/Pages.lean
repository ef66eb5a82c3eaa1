import Mathlib.Algebra.Order.Group.Multiset
import Sglang.Lib.Prefix

/-! Lists of slots handed out in pages.

A pool is cut into pages of consecutive slots. A list of slots is paged when it runs
through whole pages in order, the last one perhaps in part; `IsPaged` names the pages.
Cutting at a page boundary, cutting the end anywhere and appending at a boundary do to
the pages what they do to the slots, so that owning slots can be argued in pages. -/
namespace Sglang.Pages

open List
open Prefix

/-- The slots of some pages, in order. -/
def expand (page : Nat) (ps : List Nat) : List Nat :=
  ps.flatMap fun p => (range page).map (p * page + ·)

/-- The number of pages that `n` slots touch. -/
def count (page n : Nat) : Nat := (n + page - 1) / page

/-- The slots `l` are the first ones of the pages `ps`, and reach into the last. -/
structure IsPaged (page : Nat) (l ps : List Nat) : Prop where
  slots : l = (expand page ps).take l.length
  length : ps.length = count page l.length

/-- The pages of a paged list. -/
def pagesOf (page : Nat) (l : List Nat) : List Nat :=
  (range (count page l.length)).map fun i => l.getD (i * page) 0 / page

variable {page : Nat}

lemma count_le {n k : Nat} (hp : 0 < page) : count page n ≤ k ↔ n ≤ k * page := by
  rw [count, Nat.div_le_iff_le_mul_add_pred hp, mul_comm page k]
  omega

lemma count_mul (hp : 0 < page) (k : Nat) : count page (k * page) = k := by
  apply le_antisymm ((count_le hp).mpr (le_refl _))
  exact Nat.le_of_mul_le_mul_right ((count_le hp).mp (le_refl _)) hp

variable {m n : Nat}

section
variable (hp : 0 < page)
include hp

lemma count_mono (h : m ≤ n) : count page m ≤ count page n :=
  (count_le hp).mpr (h.trans ((count_le hp).mp (le_refl _)))

lemma le_count_mul (n : Nat) : n ≤ count page n * page := (count_le hp).mp (le_refl _)

lemma count_mul_of_dvd (hd : page ∣ n) : count page n * page = n := by
  obtain ⟨k, rfl⟩ := hd
  rw [mul_comm page k, count_mul hp]

lemma count_le_div_succ (n : Nat) : count page n ≤ n / page + 1 := by
  rw [count_le hp, Nat.succ_mul]
  have := Nat.lt_div_mul_add hp (a := n)
  omega

lemma count_sub_le (m n : Nat) : count page m - count page n ≤ count page (m - n) := by
  rw [Nat.sub_le_iff_le_add, count_le hp, add_mul]
  have := le_count_mul hp n
  have := le_count_mul hp (m - n)
  omega

lemma count_mul_lt (n : Nat) : count page n * page < n + page := by
  have := Nat.div_mul_le_self (n + page - 1) page
  rw [count]
  omega

lemma count_add_mul (k n : Nat) : count page (k * page + n) = k + count page n := by
  rw [count, count, show k * page + n + page - 1 = n + page - 1 + page * k by rw [mul_comm]; omega,
    Nat.add_mul_div_left _ _ hp, add_comm]

lemma count_of_floor_lt (h : floor page n < n) : count page n = n / page + 1 := by
  have hn : n / page * page + n % page = n := by rw [mul_comm, Nat.div_add_mod]
  have hone : count page (n % page) = 1 := by
    apply le_antisymm ((count_le hp).mpr (by rw [one_mul]; exact (Nat.mod_lt n hp).le))
    by_contra hzero
    have : n % page ≤ 0 * page := (count_le hp).mp (by omega)
    unfold floor at h
    omega
  conv_lhs => rw [← hn]
  rw [count_add_mul hp, hone]

end

lemma succ_mod_eq_one (hp : 1 < page) (n : Nat) : (n + 1) % page = 1 ↔ n % page = 0 := by
  have hlt := Nat.mod_lt n (by omega : page > 0)
  rw [← Nat.mod_add_mod]
  by_cases hlast : n % page + 1 = page
  · rw [hlast, Nat.mod_self]
    omega
  · rw [Nat.mod_eq_of_lt (by omega)]
    omega

/-- One slot more begins a page exactly when it is the first one on it. -/
lemma count_succ_sub (hp : 1 < page) (n : Nat) :
    count page (n + 1) - count page n = if (n + 1) % page = 1 then 1 else 0 := by
  have hsucc : count page (n + 1) = n / page + 1 := by
    rw [count, show n + 1 + page - 1 = n + page by omega, Nat.add_div_right _ (by omega)]
  rw [hsucc]
  by_cases hzero : n % page = 0
  · have hcount := count_mul (by omega : 0 < page) (n / page)
    rw [Nat.div_mul_cancel (Nat.dvd_of_mod_eq_zero hzero)] at hcount
    rw [if_pos ((succ_mod_eq_one hp n).mpr hzero), hcount]
    omega
  · have hlt : floor page n < n := by
      have := Nat.div_add_mod' n page
      unfold floor
      omega
    rw [count_of_floor_lt (by omega) hlt, if_neg ((succ_mod_eq_one hp n).not.mpr hzero),
      Nat.sub_self]

lemma ceil_eq (page n : Nat) : ceil page n = count page n * page := rfl

lemma ceil_one (n : Nat) : ceil 1 n = n := by simp [ceil]

/-- The positions on the pages of the first `n`. -/
lemma exists_same_page (hp : 0 < page) {n pos : Nat} :
    (∃ q < n, q / page = pos / page) ↔ pos < ceil page n := by
  rw [ceil_eq, ← Nat.div_lt_iff_lt_mul hp]
  constructor
  · rintro ⟨q, hq, heq⟩
    rw [← heq, Nat.div_lt_iff_lt_mul hp]
    exact hq.trans_le (le_count_mul hp n)
  · intro hlt
    refine ⟨pos / page * page, ?_, Nat.mul_div_cancel _ hp⟩
    have hle : (pos / page + 1) * page ≤ count page n * page := Nat.mul_le_mul_right page hlt
    have := count_mul_lt hp n
    rw [Nat.succ_mul] at hle
    omega

section
variable (page : Nat)

@[simp] lemma expand_nil : expand page [] = [] := rfl

lemma expand_cons (page p : Nat) (ps : List Nat) :
    expand page (p :: ps) = (range page).map (p * page + ·) ++ expand page ps := flatMap_cons

lemma expand_append (ps qs : List Nat) :
    expand page (ps ++ qs) = expand page ps ++ expand page qs :=
  flatMap_append

@[simp] lemma length_expand (ps : List Nat) : (expand page ps).length = ps.length * page := by
  induction ps with
  | nil => simp
  | cons p ps ih =>
    rw [expand_cons, length_append, ih, length_map, length_range, length_cons,
      Nat.succ_mul, add_comm]

lemma expand_take (ps : List Nat) (k : Nat) :
    (expand page ps).take (k * page) = expand page (ps.take k) := by
  rcases le_total ps.length k with hk | hk
  · rw [take_of_length_le hk, take_of_length_le]
    rw [length_expand]
    exact Nat.mul_le_mul_right _ hk
  · conv_lhs => rw [← take_append_drop k ps, expand_append]
    rw [take_append_of_le_length, take_of_length_le]
    · rw [length_expand, length_take, min_eq_left hk]
    · rw [length_expand, length_take, min_eq_left hk]

lemma expand_drop (ps : List Nat) (k : Nat) :
    (expand page ps).drop (k * page) = expand page (ps.drop k) := by
  rcases le_total ps.length k with hk | hk
  · rw [drop_eq_nil_of_le hk, drop_eq_nil_of_le]
    · rfl
    · rw [length_expand]
      exact Nat.mul_le_mul_right _ hk
  · conv_lhs => rw [← take_append_drop k ps, expand_append]
    rw [drop_left']
    rw [length_expand, length_take, min_eq_left hk]

end

variable {s : Nat} {l l' ps ps' : List Nat}

lemma div_of_mem_expand (h : s ∈ expand page ps) : s / page ∈ ps := by
  obtain ⟨p, hp, hs⟩ := mem_flatMap.mp h
  obtain ⟨i, hi, rfl⟩ := mem_map.mp hs
  have hi := mem_range.mp hi
  rwa [mul_comm, Nat.mul_add_div (by omega), Nat.div_eq_of_lt hi, add_zero]

namespace IsPaged

section
variable (hp : 0 < page)
include hp

lemma nil : IsPaged page [] [] := by
  have := count_mul hp 0
  rw [zero_mul] at this
  exact ⟨rfl, this.symm⟩

lemma of_expand (hn : ps.length = count page n) : IsPaged page ((expand page ps).take n) ps := by
  have hlen : ((expand page ps).take n).length = n := by
    rw [length_take, length_expand, hn, min_eq_left (le_count_mul hp n)]
  exact ⟨by rw [hlen], by rw [hlen, hn]⟩

section
variable (h : IsPaged page l ps)
include h

lemma take (hn : n ≤ l.length) : IsPaged page (l.take n) (ps.take (count page n)) := by
  have hlen : (ps.take (count page n)).length = count page n := by
    rw [length_take, h.length, min_eq_left (count_mono hp hn)]
  have heq : l.take n = (expand page (ps.take (count page n))).take n := by
    rw [h.slots, take_take, min_eq_left hn, ← expand_take, take_take,
      min_eq_left (le_count_mul hp n)]
  rw [heq]
  exact of_expand hp hlen

lemma drop {k : Nat} (hk : k * page ≤ l.length) : IsPaged page (l.drop (k * page)) (ps.drop k) := by
  have hlen : (ps.drop k).length = count page (l.length - k * page) := by
    have := count_add_mul hp k (l.length - k * page)
    rw [Nat.add_sub_cancel' hk] at this
    rw [length_drop, h.length, this, Nat.add_sub_cancel_left]
  have heq : l.drop (k * page) = (expand page (ps.drop k)).take (l.length - k * page) := by
    conv_lhs => rw [h.slots, drop_take, expand_drop]
  rw [heq]
  exact of_expand hp hlen

lemma eq_expand (hd : page ∣ l.length) : l = expand page ps := by
  obtain ⟨k, hk⟩ := hd
  have hlen : ps.length = k := by rw [h.length, hk, mul_comm, count_mul hp]
  rw [h.slots, take_of_length_le]
  rw [length_expand, hlen, hk, mul_comm]

lemma append (hd : page ∣ l.length) (h' : IsPaged page l' ps') :
    IsPaged page (l ++ l') (ps ++ ps') := by
  have hlen : (ps ++ ps').length = count page (l ++ l').length := by
    obtain ⟨k, hk⟩ := hd
    rw [length_append, length_append, h.length, h'.length, hk, mul_comm,
      count_add_mul hp, count_mul hp]
  refine ⟨?_, hlen⟩
  have hl := h.eq_expand hp hd
  conv_lhs => rw [h'.slots, hl]
  rw [expand_append, length_append, hl, take_length_add_append]

lemma mul_lt {i : Nat} (hi : i < ps.length) : i * page < l.length := by
  by_contra hle
  have := (count_le hp).mpr (not_lt.mp hle)
  rw [← h.length] at this
  omega

lemma getD_mul {i : Nat} (hi : i < ps.length) : l.getD (i * page) 0 = ps.getD i 0 * page := by
  have hlt := h.mul_lt hp hi
  have hget : (expand page ps)[i * page]? = some (ps.getD i 0 * page) := by
    rw [← add_zero (i * page), ← getElem?_drop, expand_drop, drop_eq_getElem_cons hi, expand_cons,
      getElem?_append_left (by simpa using hp)]
    simp [hp, getD_eq_getElem?_getD, hi]
  rw [getD_eq_getElem?_getD, h.slots, getElem?_take_of_lt hlt, hget]
  rfl

lemma pagesOf_eq : pagesOf page l = ps := by
  unfold pagesOf
  rw [← h.length]
  apply ext_getElem
  · simp
  · intro i h1 h2
    rw [getElem_map, getElem_range, h.getD_mul hp h2, Nat.mul_div_cancel _ hp,
      getD_eq_getElem?_getD, getElem?_eq_getElem h2]
    rfl

end

end

lemma div_mem (h : IsPaged page l ps) (hs : s ∈ l) : s / page ∈ ps := by
  rw [h.slots] at hs
  exact div_of_mem_expand (mem_of_mem_take hs)

/-- The pages the slots of a paged list are on are its pages. -/
lemma mem_iff (hp : 0 < page) (h : IsPaged page l ps) {p : Nat} :
    p ∈ l.map (· / page) ↔ p ∈ ps := by
  constructor
  · intro hm
    obtain ⟨s, hs, rfl⟩ := mem_map.mp hm
    exact h.div_mem hs
  · intro hm
    obtain ⟨i, hi, rfl⟩ := getElem_of_mem hm
    have hget := h.getD_mul hp hi
    have hlt := h.mul_lt hp hi
    refine mem_map.mpr ⟨l.getD (i * page) 0, ?_, ?_⟩
    · rw [getD_eq_getElem?_getD, getElem?_eq_getElem hlt]
      exact getElem_mem hlt
    · rw [hget, Nat.mul_div_cancel _ hp, getD_eq_getElem?_getD, getElem?_eq_getElem hi]
      rfl

end IsPaged

/-! ### Paged lists and their pages -/

/-- The list runs through pages. -/
def Paged (page : Nat) (l : List Nat) : Prop := IsPaged page l (pagesOf page l)

/-- The pages of a list, without their order. -/
def pageSet (page : Nat) (l : List Nat) : Multiset Nat := pagesOf page l

lemma IsPaged.paged (hp : 0 < page) (h : IsPaged page l ps) : Paged page l := by
  rw [Paged, h.pagesOf_eq hp]
  exact h

@[simp] lemma pageSet_nil (hp : 0 < page) : pageSet page [] = 0 := by
  rw [pageSet, (IsPaged.nil hp).pagesOf_eq hp]
  rfl

namespace Paged

section
variable (hp : 0 < page)
include hp

lemma nil : Paged page [] := (IsPaged.nil hp).paged hp

section
variable (h : Paged page l)
include h

lemma take (n : Nat) : Paged page (l.take n) := by
  rcases le_total n l.length with hn | hn
  · exact (IsPaged.take hp h hn).paged hp
  · rwa [take_of_length_le hn]

lemma drop (hd : page ∣ n) : Paged page (l.drop n) := by
  rcases le_total n l.length with hn | hn
  · obtain ⟨k, rfl⟩ := hd
    rw [mul_comm] at hn ⊢
    exact (IsPaged.drop hp h hn).paged hp
  · rw [drop_eq_nil_of_le hn]
    exact nil hp

lemma append (hd : page ∣ l.length) (h' : Paged page l') : Paged page (l ++ l') :=
  (IsPaged.append hp h hd h').paged hp

lemma pageSet_split (hd : page ∣ n) :
    pageSet page (l.take n) + pageSet page (l.drop n) = pageSet page l := by
  rcases le_total n l.length with hn | hn
  · have hlen : page ∣ (l.take n).length := by rwa [length_take, min_eq_left hn]
    have hpages := (IsPaged.append hp (h.take hp n) hlen (h.drop hp hd)).pagesOf_eq hp
    rw [take_append_drop] at hpages
    rw [pageSet, pageSet, pageSet, hpages, ← Multiset.coe_add]
  · rw [take_of_length_le hn, drop_eq_nil_of_le hn, pageSet_nil hp, add_zero]

/-- The pages behind a boundary are those up to a later one and those behind it. -/
lemma pageSet_cut (hm : page ∣ m) (hn : page ∣ n) (hle : m ≤ n) :
    pageSet page (l.drop m) = pageSet page ((l.take n).drop m) + pageSet page (l.drop n) := by
  rw [← (h.drop hp hm).pageSet_split hp (Nat.dvd_sub hn hm), drop_drop,
    Nat.add_sub_cancel' hle, drop_take]

/-- A page that is only begun goes with the part that begins it. -/
lemma pageSet_ceil (hn : n ≤ l.length) :
    pageSet page (l.take n) + pageSet page (l.drop (ceil page n)) = pageSet page l := by
  have hceil : count page (ceil page n) = count page n := count_mul hp _
  have htake : pagesOf page (l.take n) = pagesOf page (l.take (ceil page n)) := by
    rw [(IsPaged.take hp h hn).pagesOf_eq hp]
    rcases le_total (ceil page n) l.length with hle | hle
    · rw [(IsPaged.take hp h hle).pagesOf_eq hp, hceil]
    · have := count_mono hp hle
      rw [hceil, ← IsPaged.length h] at this
      rw [take_of_length_le hle, take_of_length_le this]
  rw [← h.pageSet_split hp (dvd_mul_left page (count page n)), pageSet, htake]
  rfl

lemma pageSet_ceil_cut (hm : page ∣ m) (hle : m ≤ n) (hn : n ≤ l.length) :
    pageSet page (l.drop m) = pageSet page ((l.take n).drop m) + pageSet page
    (l.drop (ceil page n)) := by
  have hceil : m + ceil page (n - m) = ceil page n := by
    obtain ⟨k, rfl⟩ := hm
    rw [mul_comm] at hle ⊢
    have := count_add_mul hp k (n - k * page)
    rw [Nat.add_sub_cancel' hle] at this
    rw [ceil_eq, ceil_eq, this, add_mul]
  rw [← (h.drop hp hm).pageSet_ceil hp (n := n - m) (by rw [length_drop]; omega),
    drop_drop, hceil, drop_take]

end

end

lemma div_mem (h : Paged page l) (hs : s ∈ l) : s / page ∈ pageSet page l := IsPaged.div_mem h hs

end Paged

lemma card_pageSet (page : Nat) (l : List Nat) : (pageSet page l).card = count page l.length := by
  simp [pageSet, pagesOf]

section
variable (ps : List Nat) {j : Nat}

lemma count_expand_le (s : Nat) : (expand page ps).count s ≤ ps.count (s / page) := by
  induction ps with
  | nil => exact le_refl 0
  | cons p ps ih =>
    rw [expand_cons, count_append, count_cons]
    have hnd : ((range page).map (p * page + ·)).Nodup :=
      nodup_range.map fun _ _ hab => add_left_cancel hab
    by_cases hs : s ∈ (range page).map (p * page + ·)
    · obtain ⟨i, hi, rfl⟩ := mem_map.mp hs
      have hi := mem_range.mp hi
      have hdiv : (p * page + i) / page = p := by
        rw [mul_comm, Nat.mul_add_div (by omega), Nat.div_eq_of_lt hi, add_zero]
      have hone := nodup_iff_count_le_one.mp hnd (p * page + i)
      rw [hdiv] at ih ⊢
      simp only [beq_self_eq_true, if_true]
      omega
    · rw [count_eq_zero_of_not_mem hs]
      omega

lemma Paged.count_le (h : Paged page l) (s : Nat) :
    l.count s ≤ (pageSet page l).count (s / page) := by
  conv_lhs => rw [h.slots]
  rw [pageSet, Multiset.coe_count]
  exact ((take_sublist _ _).count_le s).trans (count_expand_le _ _)

/-! ### Slot by slot -/

/-- The slot at a position of the slots of some pages. -/
def slotAt (page : Nat) (ps : List Nat) (j : Nat) : Nat := ps.getD (j / page) 0 * page + j % page

lemma getElem?_expand (hp : 0 < page) (ps : List Nat) (hj : j < ps.length * page) :
    (expand page ps)[j]? = some (slotAt page ps j) := by
  induction ps generalizing j with
  | nil => simp at hj
  | cons p ps ih =>
    rw [expand_cons]
    by_cases hlt : j < page
    · rw [getElem?_append_left (by simpa using hlt)]
      simp [slotAt, hlt, Nat.div_eq_of_lt hlt, Nat.mod_eq_of_lt hlt]
    · have hge := not_lt.mp hlt
      have hj' : j - page < ps.length * page := by
        rw [length_cons, Nat.succ_mul] at hj
        omega
      rw [getElem?_append_right (by simpa using hge), length_map, length_range, ih hj']
      rw [slotAt, slotAt, Nat.div_eq_sub_div hp hge, getD_cons_succ, Nat.mod_eq_sub_mod hge]

lemma expand_take_eq_map (hp : 0 < page) (ps : List Nat) (hn : n ≤ ps.length * page) :
    (expand page ps).take n = (range n).map (slotAt page ps) := by
  apply ext_getElem?
  intro j
  by_cases hj : j < n
  · rw [getElem?_take_of_lt hj, getElem?_expand hp ps (by omega), getElem?_map, getElem?_range hj]
    rfl
  · rw [getElem?_eq_none (by rw [length_take]; omega), getElem?_eq_none (by simpa using hj)]

lemma slotAt_append_left (hp : 0 < page) {ps : List Nat} (qs : List Nat)
    (hj : j < ps.length * page) :
    slotAt page (ps ++ qs) j = slotAt page ps j := by
  have hlt : j / page < ps.length := (Nat.div_lt_iff_lt_mul hp).mpr hj
  rw [slotAt, slotAt, getD_eq_getElem?_getD, getD_eq_getElem?_getD, getElem?_append_left hlt]

lemma slotAt_append_right (hp : 0 < page) (ps : List Nat) {qs : List Nat} (j : Nat) :
    slotAt page (ps ++ qs) (ps.length * page + j) = slotAt page qs j := by
  rw [slotAt, slotAt, mul_comm ps.length page, Nat.mul_add_div hp, Nat.mul_add_mod,
    getD_eq_getElem?_getD, getD_eq_getElem?_getD, getElem?_append_right (Nat.le_add_right _ _),
    Nat.add_sub_cancel_left]

lemma slotAt_mul_add (m : Nat) {i : Nat} (hi : i < page) :
    slotAt page ps (m * page + i) = ps.getD m 0 * page + i := by
  rw [slotAt, mul_comm m, Nat.mul_add_div (by omega), Nat.mul_add_mod,
    Nat.div_eq_of_lt hi, Nat.mod_eq_of_lt hi, add_zero]

lemma slotAt_take {n : Nat} (h : j / page < n) : slotAt page (ps.take n) j = slotAt page ps j := by
  rw [slotAt, slotAt, getD_eq_getElem?_getD, getD_eq_getElem?_getD, getElem?_take_of_lt h]

lemma slotAt_add {d : Nat} (h : j % page + d < page) :
    slotAt page ps (j + d) = slotAt page ps j + d := by
  have hp : 0 < page := by omega
  have hj := Nat.div_add_mod j page
  have hdiv : (j + d) / page = j / page := by
    rw [← hj, add_assoc, Nat.mul_add_div hp, Nat.div_eq_of_lt h, Nat.mul_add_div hp,
      Nat.div_eq_of_lt (Nat.mod_lt j hp)]
  have hmod : (j + d) % page = j % page + d := by
    rw [← hj, add_assoc, Nat.mul_add_mod, Nat.mod_eq_of_lt h, Nat.mul_add_mod,
      Nat.mod_eq_of_lt (Nat.mod_lt j hp)]
  rw [slotAt, slotAt, hdiv, hmod]
  omega

end

lemma IsPaged.eq_map (hp : 0 < page) (h : IsPaged page l ps) :
    l = (range l.length).map (slotAt page ps) := by
  conv_lhs => rw [h.slots]
  apply expand_take_eq_map hp
  rw [h.length]
  exact le_count_mul hp _

/-- Going on slot by slot through the last page and then through new ones stays paged. -/
lemma IsPaged.extend (hp : 0 < page) {qs out : List Nat} (h : IsPaged page l ps)
    (hle : l.length ≤ n) (hqs : qs.length = count page n - count page l.length)
    (hout : out = (range (n - l.length)).map fun k => slotAt page (ps ++ qs) (l.length + k)) :
    IsPaged page (l ++ out) (ps ++ qs) := by
  have hlen : (ps ++ qs).length = count page n := by
    have := count_mono hp hle
    rw [length_append, h.length, hqs]
    omega
  have hold : (range l.length).map (slotAt page ps) = (range l.length).map
      (slotAt page (ps ++ qs)) := by
    apply map_congr_left
    intro j hj
    refine (slotAt_append_left hp qs ?_).symm
    rw [h.length]
    exact lt_of_lt_of_le (mem_range.mp hj) (le_count_mul hp _)
  have heq : l ++ out = (expand page (ps ++ qs)).take n := by
    calc l ++ out = (range l.length).map (slotAt page (ps ++ qs)) ++
          (range (n - l.length)).map (slotAt page (ps ++ qs) ∘ (l.length + ·)) := by
            rw [← hold, ← h.eq_map hp, hout]
            rfl
      _ = (range (l.length + (n - l.length))).map (slotAt page (ps ++ qs)) := by
            rw [range_add, map_append, map_map]
      _ = (expand page (ps ++ qs)).take n := by
            rw [Nat.add_sub_cancel' hle,
              expand_take_eq_map hp _ (by rw [hlen]; exact le_count_mul hp n)]
  rw [heq]
  exact .of_expand hp hlen

/-- Several paged lists on different pages: the pages of all their slots are all their pages. -/
lemma dedup_perm (hp : 0 < page) {ls pss : List (List Nat)} (h : List.Forall₂ (IsPaged page) ls pss)
    (hnd : pss.flatten.Nodup) : ((ls.flatten.map (· / page)).dedup).Perm pss.flatten := by
  refine (perm_ext_iff_of_nodup (nodup_dedup _) hnd).mpr fun p => ?_
  rw [mem_dedup]
  clear hnd
  induction h with
  | nil => simp
  | @cons l ps ls pss hl _ ih =>
    rw [flatten_cons, map_append, mem_append, flatten_cons, mem_append, hl.mem_iff hp, ih]

lemma expand_one (ps : List Nat) : expand 1 ps = ps := by
  simp [expand]

lemma isPaged_one (l : List Nat) : IsPaged 1 l l :=
  ⟨by rw [expand_one, take_length], by simp [count]⟩

lemma paged_one (l : List Nat) : Paged 1 l := (isPaged_one l).paged Nat.one_pos

lemma pageSet_one (l : List Nat) : pageSet 1 l = l := by
  rw [pageSet, (isPaged_one l).pagesOf_eq Nat.one_pos]

end Sglang.Pages
