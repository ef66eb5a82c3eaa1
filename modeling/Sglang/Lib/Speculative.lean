import Sglang.Lib.Prefix

/-! Greedy continuations, and blocks verified against them.

`next` says which token follows a list of tokens, and `greedy next pre n` are the `n` tokens it
appends to `pre` one by one. A verifier feeds a whole block after `pre` and reads `next` at every
position of it. As far as the block agrees with what the verifier read one position earlier, it is
a greedy continuation, whatever the rest of the block is. -/
namespace Sglang.Speculative

open List
open Prefix

variable {α : Type*} {next : List α → α} {pre l l' : List α}

section
variable (next : List α → α)

/-- Every token is the one that `next` gives for what stands before it. -/
def Greedy (pre l : List α) : Prop :=
  ∀ i (h : i < l.length), l[i] = next (pre ++ l.take i)

def greedy (next : List α → α) (pre : List α) : Nat → List α
  | 0 => []
  | n + 1 => greedy next pre n ++ [next (pre ++ greedy next pre n)]

lemma length_greedy (pre : List α) (n : Nat) : (greedy next pre n).length = n := by
  induction n with
  | zero => rfl
  | succ n ih => rw [greedy, length_append, ih, length_singleton]

lemma take_greedy (pre : List α) {m n : Nat} (h : m ≤ n) :
    (greedy next pre n).take m = greedy next pre m := by
  induction n with
  | zero => rw [Nat.le_zero.mp h]; rfl
  | succ n ih =>
    rcases Nat.lt_or_eq_of_le h with hlt | rfl
    · have hle : m ≤ (greedy next pre n).length := by rw [length_greedy]; omega
      rw [greedy, take_append_of_le_length hle, ih (Nat.le_of_lt_succ hlt)]
    · exact take_of_length_le (le_of_eq (length_greedy next pre _))

end

lemma Greedy.nil : Greedy next pre [] := fun _ h => absurd h (Nat.not_lt_zero _)

lemma Greedy.take (h : Greedy next pre l) (n : Nat) : Greedy next pre (l.take n) := by
  intro i hi
  have hlt : i < n ∧ i < l.length := by simpa using hi
  rw [getElem_take, take_take, min_eq_left (le_of_lt hlt.1)]
  exact h i hlt.2

lemma Greedy.append (h : Greedy next pre l) (h' : Greedy next (pre ++ l) l') :
    Greedy next pre (l ++ l') := by
  intro i hi
  by_cases hl : i < l.length
  · rw [getElem_append_left hl, take_append_of_le_length (le_of_lt hl)]
    exact h i hl
  · have hl := Nat.le_of_not_lt hl
    have hi' : i - l.length < l'.length := by
      rw [length_append] at hi
      omega
    rw [getElem_append_right hl, h' _ hi', take_append, take_of_length_le hl, append_assoc]

lemma Greedy.eq_greedy (h : Greedy next pre l) : l = greedy next pre l.length := by
  have hn : ∀ n ≤ l.length, l.take n = greedy next pre n := by
    intro n
    induction n with
    | zero => exact fun _ => take_zero
    | succ n ih =>
      intro hn
      rw [take_succ_eq_append_getElem hn, h n hn, ih (le_of_lt hn), greedy]
  rw [← hn l.length (le_refl _), take_length]

/-! ### Verifying a block -/

/-- What the verifier reads at each position of a block: the token `next` gives after it. -/
structure Verified (next : List α → α) (pre block ar : List α) : Prop where
  length : ar.length = block.length
  read : ∀ i (h : i < ar.length), ar[i] = next (pre ++ block.take (i + 1))

section Accept
variable [DecidableEq α] {a : α} {block ar : List α}

/-- How far a block agrees with what was read one position earlier. -/
def accepted (block ar : List α) : Nat := common block.tail ar

lemma accepted_lt (a : α) (block ar : List α) : accepted (a :: block) ar < (a :: block).length :=
  Nat.lt_succ_of_le (common_le_left _ _)

/-- The first token and the tokens read after it are the accepted part of the block. -/
lemma accepted_eq (a : α) (block ar : List α) :
    a :: ar.take (accepted (a :: block) ar) = (a :: block).take (accepted (a :: block) ar + 1) := by
  rw [take_succ_cons, accepted, tail_cons, take_eq_of_le_common block ar _ (le_refl _)]

lemma Verified.greedy_accepted (hv : Verified next pre (a :: block) ar) (ha : a = next pre) :
    Greedy next pre ((a :: block).take (accepted (a :: block) ar + 1)) := by
  have hc : accepted (a :: block) ar ≤ ar.length := common_le_right _ _
  intro i hi
  cases i with
  | zero => simpa using ha
  | succ i =>
    have hic : i < accepted (a :: block) ar := by
      rw [length_take] at hi
      omega
    -- a later token was read one position earlier
    have hread : (a :: ar.take (accepted (a :: block) ar))[i + 1]? =
        some (next (pre ++ (a :: block).take (i + 1))) := by
      rw [getElem?_cons_succ, getElem?_take_of_lt hic, getElem?_eq_getElem (lt_of_lt_of_le hic hc),
        hv.read i _]
    rw [accepted_eq, getElem?_eq_getElem hi, Option.some.injEq] at hread
    rw [hread, take_take, min_eq_left (by omega)]

lemma Verified.getElem?_accepted (hv : Verified next pre (a :: block) ar) :
    ar[accepted (a :: block) ar]? =
    some (next (pre ++ (a :: block).take (accepted (a :: block) ar + 1))) := by
  have hlt : accepted (a :: block) ar < ar.length := hv.length ▸ accepted_lt a block ar
  rw [getElem?_eq_getElem hlt, hv.read _ hlt]

end Accept

end Sglang.Speculative
