import Mathlib.Data.List.Basic

/-! Decoding UTF-8 with replacement, byte by byte.

The decoder is between characters, or inside one with some continuation bytes owed. A byte that does
not fit ends the character with U+FFFD and is read again as a first byte, so each maximal piece of
an ill-formed character gives one replacement character; so does a character cut off by the end.

What is decoded between characters can be decoded in pieces (`decode_append`), and a decoding that
starts inside a character falls into step by its end (`between_of_between`). -/
namespace Sglang.Utf8

open List

/-- U+FFFD. -/
def replacement : Char := Char.ofNat 0xFFFD

/-- Inside a character: how many bytes are owed, the bits so far, and between which values the next
byte lies. -/
structure Inside where
  owed : Nat
  bits : Nat
  low : Nat
  high : Nat
  low_le : 0x80 ≤ low := by decide
  high_le : high ≤ 0xBF := by decide
deriving DecidableEq

/-- `none` is between characters. -/
abbrev State := Option Inside

/-- A byte between characters. -/
def first (b : Nat) : List Char × State :=
  if b ≤ 0x7F then ([Char.ofNat b], none)
  else if 0xC2 ≤ b ∧ b ≤ 0xDF then ([], some {owed := 1, bits := b % 32, low := 0x80, high := 0xBF})
  else if b = 0xE0 then ([], some {owed := 2, bits := 0, low := 0xA0, high := 0xBF})
  else if b = 0xED then ([], some {owed := 2, bits := 13, low := 0x80, high := 0x9F})
  else if 0xE1 ≤ b ∧ b ≤ 0xEF then ([], some {owed := 2, bits := b % 16, low := 0x80, high := 0xBF})
  else if b = 0xF0 then ([], some {owed := 3, bits := 0, low := 0x90, high := 0xBF})
  else if b = 0xF4 then ([], some {owed := 3, bits := 4, low := 0x80, high := 0x8F})
  else if 0xF1 ≤ b ∧ b ≤ 0xF3 then ([], some {owed := 3, bits := b % 8, low := 0x80, high := 0xBF})
  else ([replacement], none)

/-- A byte inside a character that fits. -/
def Inside.next (p : Inside) (b : Nat) : List Char × State :=
  let bits := p.bits * 64 + b % 64
  if p.owed ≤ 1 then ([Char.ofNat bits], none)
    else ([], some {owed := p.owed - 1, bits, low := 0x80, high := 0xBF})

def step : State → Nat → List Char × State
  | none, b => first b
  | some p, b =>
    if p.low ≤ b ∧ b ≤ p.high then p.next b else (replacement :: (first b).1, (first b).2)

/-- The characters completed, and the state at the end. -/
def run (q : State) : List Nat → List Char × State
  | [] => ([], q)
  | b :: bs => ((step q b).1 ++ (run (step q b).2 bs).1, (run (step q b).2 bs).2)

/-- The end of the input inside a character. -/
def flush : State → List Char
  | none => []
  | some _ => [replacement]

def decode (bs : List Nat) : List Char := (run none bs).1 ++ flush (run none bs).2

/-- The input ends between characters. -/
def Between (bs : List Nat) : Prop := (run none bs).2 = none

instance (bs : List Nat) : Decidable (Between bs) := inferInstanceAs (Decidable (_ = none))

lemma run_append (q : State) (as bs : List Nat) :
    run q (as ++ bs) = ((run q as).1 ++ (run (run q as).2 bs).1, (run (run q as).2 bs).2) := by
  induction as generalizing q with
  | nil => rfl
  | cons a as ih => simp only [cons_append, run, ih, append_assoc]

lemma decode_nil : decode [] = [] := rfl

/-- Pieces that end between characters are decoded one after the other. -/
lemma decode_append {as : List Nat} (h : Between as) (bs : List Nat) :
    decode (as ++ bs) = decode as ++ decode bs := by
  unfold Between at h
  simp [decode, run_append, h, flush]

variable {bs : List Nat}

lemma Between.append {as : List Nat} (ha : Between as) (hb : Between bs) : Between (as ++ bs) := by
  unfold Between at *
  rw [run_append, ha]
  exact hb

/-- Text cut off inside a character ends in the replacement character. -/
lemma getLast?_decode (h : ¬Between bs) : (decode bs).getLast? = some replacement := by
  obtain ⟨p, hp⟩ := Option.ne_none_iff_exists'.mp h
  rw [decode, hp]
  exact getLast?_concat

/-- All but the last character of such text is there to stay. -/
lemma dropLast_decode_prefix (h : ¬Between bs) (cs : List Nat) :
    (decode bs).dropLast <+: decode (bs ++ cs) := by
  obtain ⟨p, hp⟩ := Option.ne_none_iff_exists'.mp h
  have hdrop : (decode bs).dropLast = (run none bs).1 := by
    rw [decode, hp]
    exact dropLast_concat
  rw [hdrop, decode, run_append, append_assoc]
  exact prefix_append _ _

lemma first_continuation {b : Nat} (hlow : 0x80 ≤ b) (hhigh : b ≤ 0xBF) :
    first b = ([replacement], none) := by
  unfold first
  rw [if_neg (by omega), if_neg (by omega), if_neg (by omega), if_neg (by omega),
    if_neg (by omega), if_neg (by omega),
    if_neg (by omega), if_neg (by omega)]

/-- Decoding that starts inside a character is in step with the one from before it as soon as that
is between characters. -/
lemma run_eq_or (q : State) (bs : List Nat) :
    (run q bs).2 = (run none bs).2 ∨ (run none bs).2 = none := by
  induction bs generalizing q with
  | nil => exact .inr rfl
  | cons b bs ih =>
    cases q with
    | none => exact .inl rfl
    | some p =>
      by_cases hfits : p.low ≤ b ∧ b ≤ p.high
      · have hfirst : (step none b).2 = none :=
          congrArg Prod.snd (first_continuation (Nat.le_trans p.low_le hfits.1)
            (Nat.le_trans hfits.2 p.high_le))
        have hnone : (run none (b :: bs)).2 = (run none bs).2 := by rw [run, hfirst]
        rw [hnone]
        exact ih (step (some p) b).2
      · refine .inl ?_
        simp only [run, step, if_neg hfits]

lemma between_of_between {as : List Nat} (h : Between (as ++ bs)) : Between bs := by
  unfold Between at *
  rw [run_append] at h
  obtain heq | hnone := run_eq_or (run none as).2 bs
  · exact heq.symm.trans h
  · exact hnone

/-- The euro sign in two pieces, a lone continuation byte, and a character cut off. -/
example :
    decode [0xE2, 0x82, 0xAC, 0x82, 0x41, 0xF0, 0x9F] = ['€', replacement, 'A', replacement] := by
  decide

end Sglang.Utf8
