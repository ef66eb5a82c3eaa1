import Mathlib.Algebra.Group.Nat.Defs
import Mathlib.Order.Nat
import Sglang.Managers.CheckFinished

/-! The length bound of a stop regex.

The end of the output is searched for a stop regex, over a window as long as `get_max_seq_length`
says a match can be. The expression is given as the parser returns it. A token of the cases
`{LITERAL, IN, ANY}`, `AT` and `else` of the walk has for its value what it does in a text, under
the flags that hold there. -/
namespace Sglang.Sampling

open Managers (Text)

inductive CharOp
  | literal | inSet | any

inductive RepeatOp
  | maxRepeat | minRepeat

inductive OtherOp
  | notLiteral | groupref | grouprefExists | assert | assertNot | atomicGroup | possessiveRepeat | failure

structure State where
  pos : Nat
  /-- The groups with their spans, the last one first. -/
  groups : List (Nat × Nat × Nat)

/-- A repeat without a limit, one with `MAXREPEAT` for its maximum, has `none`. -/
inductive Token
  | char (op : CharOp) (takes : Text → Nat → Prop)
  | position (holds : Text → Nat → Prop)
  | subpattern (group : Option Nat) (p : List Token)
  | branch (branches : List (List Token))
  | repeats (op : RepeatOp) (min : Nat) (max : Option Nat) (p : List Token)
  | other (op : OtherOp) (does : Text → State → State → Prop)

def maxLen : Nat := 2 ^ 30

mutual

def Token.maxLength : Token → Nat
  | .char .. => 1
  | .subpattern _ p => maxLengthFromSubpattern p
  | .branch branches => maxOfBranches branches
  | .repeats _ _ none _ => maxLen
  | .repeats _ _ (some max) p => max * maxLengthFromSubpattern p
  | .position _ => 0
  | .other .. => maxLen

def maxLengthFromSubpattern : List Token → Nat
  | [] => 0
  | t :: p => t.maxLength + maxLengthFromSubpattern p

def maxOfBranches : List (List Token) → Nat
  | [] => 0
  | p :: branches => max (maxLengthFromSubpattern p) (maxOfBranches branches)

end

/-- Of an expression that the parser accepts. -/
def getMaxSeqLength (parsed : List Token) : Nat :=
  maxLengthFromSubpattern parsed

mutual

/-- Whether the expression has a repeat without a limit or a token that the walk does not handle. -/
def Token.capped : Token → Bool
  | .char .. | .position _ => false
  | .subpattern _ p => capped p
  | .branch branches => anyCapped branches
  | .repeats _ _ max p => max.isNone || capped p
  | .other .. => true

def capped : List Token → Bool
  | [] => false
  | t :: p => t.capped || capped p

def anyCapped : List (List Token) → Bool
  | [] => false
  | p :: branches => capped p || anyCapped branches

end

/-- How an expression can match from a state on. Which way the engine tries first is left open. -/
inductive Runs (text : Text) : List Token → State → State → Prop
  | nil (s : State) : Runs text [] s s
  | char {op takes p s s'} (h : takes text s.pos)
      (hp : Runs text p { s with pos := s.pos + 1 } s') :
      Runs text (.char op takes :: p) s s'
  | position {holds p s s'} (h : holds text s.pos) (hp : Runs text p s s') :
      Runs text (.position holds :: p) s s'
  | subpattern {group q p s s1 s'} (hq : Runs text q s s1)
      (hp : Runs text p { s1 with groups := group.toList.map (·, s.pos, s1.pos) ++ s1.groups } s') :
      Runs text (.subpattern group q :: p) s s'
  | branch {branches q p s s1 s'} (h : q ∈ branches) (hq : Runs text q s s1)
      (hp : Runs text p s1 s') :
      Runs text (.branch branches :: p) s s'
  | done {op max q p s s'} (hp : Runs text p s s') : Runs text (.repeats op 0 max q :: p) s s'
  | more {op min max q p s s1 s'} (h : max ≠ some 0) (hq : Runs text q s s1)
      (hp : Runs text (.repeats op (min - 1) (max.map (· - 1)) q :: p) s1 s') :
        Runs text (.repeats op min max q :: p) s s'
  | other {op does p s s1 s'} (h : does text s s1) (hp : Runs text p s1 s') :
      Runs text (.other op does :: p) s s'

/-- The numbers of characters of the strings that an expression matches. -/
def lengths (p : List Token) : Set Nat :=
  {n | ∃ text start s, Runs text p ⟨start, []⟩ s ∧ n = ((text.take s.pos).drop start).length}

/-- What the walk says of a match from `i` to `j`. -/
def Bounds (i j len : Nat) (cap : Bool) : Prop := j ≤ i + len ∨ cap = true ∧ maxLen ≤ len

lemma Bounds.append {i j k a b : Nat} {c d : Bool} (h : Bounds i j a c) (h' : Bounds j k b d) :
    Bounds i k (a + b) (c || d) := by
  rcases h with h | ⟨rfl, h⟩
  · rcases h' with h' | ⟨rfl, h'⟩
    · exact .inl (by omega)
    · exact .inr ⟨Bool.or_true c, by omega⟩
  · exact .inr ⟨Bool.true_or d, by omega⟩

variable {text : Text} {p : List Token} {s s' : State} {i j k : Nat}

lemma Bounds.branch {branches : List (List Token)} (hp : p ∈ branches)
    (h : Bounds i j (maxLengthFromSubpattern p) (capped p)) :
    Bounds i j (maxOfBranches branches) (anyCapped branches) := by
  induction hp with
  | head =>
    simp only [Bounds, maxOfBranches, anyCapped] at h ⊢
    grind
  | tail _ _ ih =>
    simp only [Bounds, maxOfBranches, anyCapped] at ih ⊢
    grind

lemma Runs.bounds (h : Runs text p s s') :
    Bounds s.pos s'.pos (maxLengthFromSubpattern p) (capped p) := by
  induction h with
  | nil => exact .inl le_rfl
  | char _ _ ih => exact .append (.inl le_rfl) ih
  | position _ _ ih => exact .append (.inl le_rfl) ih
  | subpattern _ _ ihq ihp => exact ihq.append ihp
  | branch h _ _ ihq ihp => exact (ihq.branch h).append ihp
  | done _ ih => exact .append (.inl (Nat.le_add_right ..)) ih
  | @more _ _ max q p _ _ _ h _ _ ihq ihp =>
    cases max with
    | none => exact .inr ⟨rfl, Nat.le_add_right ..⟩
    | some max =>
      obtain ⟨n, rfl⟩ := Nat.exists_eq_succ_of_ne_zero fun heq => h (congrArg some heq)
      -- the iterations that are left are those of a repeat with one less for its limit
      have hboth :
        Bounds _ _
        (maxLengthFromSubpattern q + (n * maxLengthFromSubpattern q + maxLengthFromSubpattern p))
          (capped q || (capped q || capped p)) := ihq.append ihp
      rw [Bool.or_self_left, ← Nat.add_assoc, Nat.add_comm (maxLengthFromSubpattern q),
        ← Nat.succ_mul] at hboth
      exact hboth
  | other _ _ ih => exact .append (.inr ⟨rfl, le_rfl⟩) ih

/-- **The bound.** No match is longer than the bound, unless the walk has counted `maxLen` for a
part of the expression; then the bound is `maxLen` at least. -/
theorem max_seq_length_bounds (p : List Token) :
    (∀ n ∈ lengths p, n ≤ getMaxSeqLength p) ∨ capped p = true ∧ maxLen ≤ getMaxSeqLength p := by
  refine or_iff_not_imp_right.2 fun hcap => ?_
  rintro n ⟨text, start, s, hs, rfl⟩
  have hpos : s.pos ≤ start + getMaxSeqLength p := hs.bounds.resolve_right hcap
  rw [List.length_drop, List.length_take]
  omega

/-- The expression `a{k}`. -/
def repeated (k : Nat) : Token :=
  .repeats .maxRepeat k (some k) [.char .literal fun text i => text[i]? = some 'a']

lemma runs_repeated (h : i + k ≤ j) : Runs (.replicate j 'a') [repeated k] ⟨i, []⟩ ⟨i + k, []⟩ := by
  induction k generalizing i with
  | zero => exact .done (.nil _)
  | succ k ih =>
    have hi : (List.replicate j 'a')[i]? = some 'a' := by
      rw [List.getElem?_replicate, if_pos (by omega)]
    have hrest := @ih (i + 1) (by omega)
    rw [Nat.add_right_comm] at hrest
    exact .more nofun (.char hi (.nil _)) hrest

/-- The expression `(?:^a{k})*`. -/
def anchored (k : Nat) : List Token :=
  [.repeats .maxRepeat 0 none [.position fun _ i => i = 0, repeated k]]

/-- Every iteration has to begin where the text does. -/
lemma runs_anchored_le (h : Runs text (anchored k) s s') : s' = s ∨ s'.pos ≤ k := by
  generalize hp : anchored k = p at h
  induction h with
  | done h =>
    cases hp
    cases h
    exact .inl rfl
  | @more _ _ _ _ _ s s1 _ _ hq _ _ ih =>
    cases hp
    have hle : s1.pos ≤ s.pos + (0 + (k * (1 + 0) + 0)) := hq.bounds.resolve_right nofun
    cases hq with
    | position h0 _ =>
      rcases ih rfl with rfl | h
      · exact .inr (by omega)
      · exact .inr h
  | _ => cases hp

/-- One iteration can be longer than `maxLen`, the bound of a repeat without a limit. -/
theorem anchored_repeat_longer : BddAbove (lengths (anchored (maxLen + 1))) ∧
    ∃ n ∈ lengths (anchored (maxLen + 1)), getMaxSeqLength (anchored (maxLen + 1)) < n := by
  refine ⟨⟨maxLen + 1, ?_⟩, maxLen + 1, ?_, by decide⟩
  · rintro n ⟨text, start, s, hs, rfl⟩
    rw [List.length_drop, List.length_take]
    rcases runs_anchored_le hs with rfl | hle
    · dsimp only
      omega
    · omega
  · have hrun := @runs_repeated 0 (maxLen + 1) (maxLen + 1) (Nat.zero_add _).le
    rw [Nat.zero_add] at hrun
    refine ⟨.replicate (maxLen + 1) 'a', 0, ⟨maxLen + 1, []⟩,
      .more nofun (.position rfl hrun) (.done (.nil _)), ?_⟩
    rw [List.drop_zero, List.length_take, List.length_replicate, Nat.min_self]

end Sglang.Sampling
