import Mathlib.Data.List.Infix
import Mathlib.Algebra.Order.Floor.Defs
import Mathlib.Tactic.Ring

/-! Common prefixes of lists, and lengths rounded to whole pages.

`common` is the length of the longest common prefix of two lists; `floor` and
`ceil` round a length down or up to a multiple of a page. A paged comparison of
two lists of whole pages stops at `floor page (common as bs)`, which is what a
paged radix tree advances by. -/
namespace Sglang.Prefix

open List

section Common
variable {α : Type*} [DecidableEq α]

/-- The length of the longest common prefix. -/
def common : List α → List α → Nat
  | [], _ => 0
  | _ :: _, [] => 0
  | a :: as, b :: bs => if a = b then common as bs + 1 else 0

@[simp] lemma common_nil_right (as : List α) : common as [] = 0 := by
  cases as <;> rfl

section
variable (as bs : List α)

lemma common_le_left : common as bs ≤ as.length := by
  induction as generalizing bs with
  | nil => exact le_refl 0
  | cons a as ih =>
    cases bs with
    | nil => exact Nat.zero_le _
    | cons b bs =>
      simp only [common, length_cons]
      split
      · exact Nat.succ_le_succ (ih bs)
      · exact Nat.zero_le _

lemma common_comm : common as bs = common bs as := by
  induction as generalizing bs with
  | nil => simp [common]
  | cons a as ih =>
    cases bs with
    | nil => rfl
    | cons b bs => simp only [common, ih bs, eq_comm]

lemma common_le_right : common as bs ≤ bs.length := by
  rw [common_comm]
  exact common_le_left bs as

lemma take_eq_of_le_common (n : Nat) (h : n ≤ common as bs) : as.take n = bs.take n := by
  induction n generalizing as bs with
  | zero => rfl
  | succ n ih =>
    match as, bs, h with
    | [], _, h => exact absurd h (by simp [common])
    | _ :: _, [], h => exact absurd h (by simp [common])
    | a :: as, b :: bs, h =>
      simp only [common] at h
      split at h
      · next hab => rw [take_succ_cons, take_succ_cons, hab, ih as bs (by omega)]
      · exact absurd h (by omega)

/-- Counting how many positions agree before the first that does not. -/
lemma length_takeWhile_beq :
    ((List.zipWith (· == ·) as bs).takeWhile id).length = common as bs := by
  induction as generalizing bs with
  | nil => rfl
  | cons a as ih =>
    cases bs with
    | nil => rfl
    | cons b bs => by_cases hab : a = b <;> simp [common, hab, ih]

lemma common_take_right (n : Nat) (h : as.length ≤ n) : common as (bs.take n) = common as bs := by
  induction as generalizing bs n with
  | nil => rfl
  | cons a as ih =>
    cases n with
    | zero => cases h
    | succ n =>
      cases bs with
      | nil => rfl
      | cons b bs => simp only [take_succ_cons, common, ih bs n (by simpa using h)]

lemma le_common_of_take_eq (n : Nat) (ha : n ≤ as.length) (hb : n ≤ bs.length)
    (h : as.take n = bs.take n) : n ≤ common as bs := by
  induction n generalizing as bs with
  | zero => exact Nat.zero_le _
  | succ n ih =>
    match as, bs, ha, hb, h with
    | a :: as, b :: bs, ha, hb, h =>
      simp only [take_succ_cons, List.cons.injEq] at h
      have := ih as bs (by simpa using ha) (by simpa using hb) h.2
      simp only [common, h.1, if_true]
      omega

end

omit [DecidableEq α] in
lemma take_eq_of_prefix {as bs cs : List α} (ha : as <+: cs) (hb : bs <+: cs) {n : Nat}
    (hna : n ≤ as.length) (hnb : n ≤ bs.length) : as.take n = bs.take n := by
  obtain ⟨r, rfl⟩ := ha
  obtain ⟨r', hr⟩ := hb
  rw [← take_append_of_le_length hnb, hr, take_append_of_le_length hna]

omit [DecidableEq α] in
lemma take_eq_of_shared {base as bs cs us : List α} (ha : base ++ as <+: cs) (hu : us <+: cs)
    (hb : us <+: base ++ bs) {n : Nat} (hna : n ≤ as.length) (hnu : base.length + n ≤ us.length) :
    as.take n = bs.take n := by
  have hlen := hb.length_le
  have hau := take_eq_of_prefix ha hu (n := base.length + n) (by rw [length_append]; omega) hnu
  have hub := take_eq_of_prefix hb prefix_rfl (n := base.length + n) hnu (by omega)
  rw [hub] at hau
  simpa only [take_length_add_append, append_cancel_left_eq] using hau

end Common

/-! ### Whole pages -/

/-- `n` rounded down to a whole number of pages. -/
def floor (page n : Nat) : Nat := n / page * page

/-- `n` rounded up to a whole number of pages. -/
def ceil (page n : Nat) : Nat := (n + page - 1) / page * page

lemma floor_le (page n : Nat) : floor page n ≤ n := Nat.div_mul_le_self n page

lemma dvd_floor (page n : Nat) : page ∣ floor page n := dvd_mul_left page (n / page)

lemma floor_one (n : Nat) : floor 1 n = n := by simp [floor]

lemma lt_floor_add {page : Nat} (hp : 0 < page) (n : Nat) : n < floor page n + page := by
  have := Nat.lt_div_mul_add hp (a := n)
  simpa [floor] using this

lemma le_floor {page m n : Nat} (hd : page ∣ m) (h : m ≤ n) : m ≤ floor page n := by
  obtain ⟨k, rfl⟩ := hd
  rcases Nat.eq_zero_or_pos page with rfl | hp
  · simp
  · rw [floor, mul_comm page k]
    exact Nat.mul_le_mul_right page ((Nat.le_div_iff_mul_le hp).mpr (by rwa [mul_comm]))

lemma add_page_le {page m n : Nat} (hm : page ∣ m) (hn : page ∣ n) (h : m < n) : m + page ≤ n := by
  obtain ⟨a, rfl⟩ := hm
  obtain ⟨b, rfl⟩ := hn
  have hab : a < b := Nat.lt_of_mul_lt_mul_left h
  calc page * a + page = page * (a + 1) := by ring
    _ ≤ page * b := Nat.mul_le_mul_left page hab

end Sglang.Prefix
