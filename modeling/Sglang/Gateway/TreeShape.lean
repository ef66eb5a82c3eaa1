import Sglang.Gateway.Tree

/-! The shape of the routing tree.

A `LabelledTree` says which nodes are in the tree and what text each stands for. Splitting a node,
hanging a leaf under one and taking a leaf away change it in the three ways given here. -/
namespace Sglang.Gateway

open List Option Function
open Prefix OrderedDict Insert

/-! ### Strings -/

lemma utf8_cons (c : Char) (s : List Char) : utf8 (c :: s) = String.utf8EncodeChar c ++ utf8 s :=
  flatMap_cons

lemma isAscii_cons {b : UInt8} {bs : List UInt8} :
    isAscii (b :: bs) = true ↔ b.toNat < 128 ∧ isAscii bs = true := by
  rw [isAscii, isAscii, all_cons, Bool.and_eq_true, decide_eq_true_iff, UInt8.lt_iff_toNat_lt]
  rfl

/-- A character is one ASCII byte, or begins with a byte that is not ASCII. -/
lemma utf8EncodeChar_cases (c : Char) :
    (∃ b, String.utf8EncodeChar c = [b] ∧ b.toNat = c.toNat ∧ b.toNat < 128) ∨
      ∃ b bs, String.utf8EncodeChar c = b :: bs ∧ 128 ≤ b.toNat := by
  have hofNat : ∀ n, n < 256 → (UInt8.ofNat n).toNat = n := fun n hn => Nat.mod_eq_of_lt hn
  unfold String.utf8EncodeChar
  simp only
  split
  · next h => exact .inl ⟨_, rfl, hofNat _ (by omega), by rw [hofNat _ (by omega)]; omega⟩
  · right
    split
    · exact ⟨_, _, rfl, by rw [hofNat _ (by omega)]; omega⟩
    · split
      · exact ⟨_, _, rfl, by rw [hofNat _ (by omega)]; omega⟩
      · exact ⟨_, _, rfl, by rw [hofNat _ (by omega)]; omega⟩

lemma sharedPrefixCountChars_eq (a b : List Char) : sharedPrefixCountChars a b = common a b := by
  unfold sharedPrefixCountChars
  induction a generalizing b with
  | nil => rfl
  | cons c a ih =>
    cases b with
    | nil => rfl
    | cons d b => by_cases h : c = d <;> simp [common, h, ih]

/-- As long as the common bytes are ASCII they are the common characters. -/
lemma common_utf8 (a b : List Char) (h : isAscii ((utf8 a).take (common (utf8 a) (utf8 b)))) :
    common (utf8 a) (utf8 b) = common a b := by
  induction a generalizing b with
  | nil => rfl
  | cons c a ih =>
    cases b with
    | nil => exact (common_nil_right _).trans (common_nil_right _).symm
    | cons d b =>
      rw [utf8_cons, utf8_cons] at h ⊢
      rw [common.eq_3]
      obtain ⟨x, hx, hxc, hx128⟩ | ⟨x, xs, hx, hx128⟩ := utf8EncodeChar_cases c
      · obtain ⟨y, hy, hyd, _⟩ | ⟨y, ys, hy, hy128⟩ := utf8EncodeChar_cases d
        · rw [hx, hy] at h ⊢
          simp only [singleton_append, common] at h ⊢
          by_cases hxy : x = y
          · have hcd : c = d := by
              apply Char.ext
              apply UInt32.toNat_inj.mp
              exact hxc.symm.trans ((congrArg UInt8.toNat hxy).trans hyd)
            rw [if_pos hxy, if_pos hcd]
            rw [if_pos hxy, take_succ_cons, isAscii_cons] at h
            rw [ih b h.2]
          · have hcd : c ≠ d := by
              rintro rfl
              exact hxy (by simpa using hx.symm.trans hy)
            rw [if_neg hxy, if_neg hcd]
        · have hcd : c ≠ d := by
            rintro rfl
            obtain ⟨rfl, _⟩ := List.cons.inj (hx.symm.trans hy)
            omega
          rw [hx, hy, if_neg hcd, singleton_append, cons_append, common, if_neg]
          rintro rfl
          omega
      · rw [hx, cons_append] at h ⊢
        cases hd : String.utf8EncodeChar d with
        | nil =>
          have hlen := String.length_utf8EncodeChar d
          rw [hd] at hlen
          exact absurd hlen.symm (ne_of_gt (Char.utf8Size_pos d))
        | cons y ys =>
          rw [hd, cons_append] at h
          rw [cons_append]
          have hxy : x ≠ y := by
            rintro rfl
            rw [common, if_pos rfl, take_succ_cons, isAscii_cons] at h
            omega
          have hcd : c ≠ d := by
            rintro rfl
            rw [hd] at hx
            exact hxy (List.cons.inj hx).1.symm
          rw [common, if_neg hxy, if_neg hcd]

lemma sharedPrefixCount_eq (a b : List Char) : sharedPrefixCount a b = common a b := by
  unfold sharedPrefixCount
  simp only
  split
  · next h => exact common_utf8 a b h
  · exact sharedPrefixCountChars_eq a b

lemma length_le_utf8 (s : List Char) : s.length ≤ (utf8 s).length := by
  induction s with
  | nil => exact le_refl 0
  | cons c s ih =>
    have := Char.utf8Size_pos c
    rw [utf8_cons, length_append, String.length_utf8EncodeChar, length_cons]
    omega

lemma length_utf8_cons (c : Char) (s : List Char) :
    (utf8 (c :: s)).length = c.utf8Size + (utf8 s).length := by
  rw [utf8_cons, length_append, String.length_utf8EncodeChar]

/-- Bytes that are all ASCII are as many characters. -/
lemma length_utf8_take {s : List Char} {n : Nat} (h : isAscii ((utf8 s).take n))
    (hn : n ≤ (utf8 s).length) :
    (utf8 (s.take n)).length = n := by
  induction s generalizing n with
  | nil => rw [take_nil]; exact (Nat.le_zero.mp hn).symm
  | cons c s ih =>
    cases n with
    | zero => rfl
    | succ n =>
      rw [length_utf8_cons] at hn
      rw [utf8_cons] at h
      obtain ⟨x, hx, _, _⟩ | ⟨x, xs, hx, hx128⟩ := utf8EncodeChar_cases c
      · have hsize : c.utf8Size = 1 := by rw [← String.length_utf8EncodeChar, hx]; rfl
        rw [hx, singleton_append, take_succ_cons, isAscii_cons] at h
        rw [take_succ_cons, length_utf8_cons, ih h.2 (by omega)]
        omega
      · rw [hx, cons_append, take_succ_cons, isAscii_cons] at h
        omega

lemma dropBytes_take (s : List Char) (n : Nat) :
    dropBytes s (utf8 (s.take n)).length = s.drop n := by
  induction s generalizing n with
  | nil => rw [dropBytes, drop_nil]
  | cons c s ih =>
    cases n with
    | zero => rfl
    | succ n =>
      have hpos := Char.utf8Size_pos c
      rw [take_succ_cons, drop_succ_cons, length_utf8_cons, dropBytes,
        if_neg (by omega), Nat.add_sub_cancel_left, ih]

lemma advanceByChars_eq (s : List Char) (n : Nat) : advanceByChars s n = s.drop n := by
  unfold advanceByChars
  split
  · next h => rw [h, drop_zero]
  split
  · next h => exact (drop_eq_nil_of_le ((length_le_utf8 s).trans h)).symm
  · split
    · next hlt h =>
      have hdrop := dropBytes_take s n
      rwa [length_utf8_take h (by omega)] at hdrop
    · rfl

lemma splitAtChar_eq (t : NodeText) (n : Nat) :
    (t.splitAtChar n).1.text = t.text.take n ∧ (t.splitAtChar n).2.text = t.text.drop n := by
  unfold NodeText.splitAtChar
  split
  · next h => rw [h]; exact ⟨rfl, rfl⟩
  · split
    · next h =>
      rw [t.charCount_eq] at h
      rw [take_of_length_le h, drop_eq_nil_of_le h]
      exact ⟨rfl, rfl⟩
    · exact ⟨rfl, rfl⟩

/-! ### Slices at byte indices

The same helpers as they run on bytes: a character is looked up with the byte it begins at, and the
string is cut at that byte. A cut inside a character is a panic, here `none`. -/
namespace Bytes

/-- The characters, each with the byte it begins at. -/
def charIndices : List Char → Nat → List (Nat × Char)
  | [], _ => []
  | c :: s, idx => (idx, c) :: charIndices s (idx + c.utf8Size)

/-- The slices `s[..idx]` and `s[idx..]`. -/
def slices : List Char → Nat → Option (List Char × List Char)
  | s, 0 => some ([], s)
  | [], _ + 1 => none
  | c :: s, idx + 1 =>
    if idx + 1 < c.utf8Size then none else (slices s (idx + 1 - c.utf8Size)).map fun p =>
    (c :: p.1, p.2)

/-- The path of `advanceByChars` that goes by characters. -/
def advanceSlow (s : List Char) (n : Nat) : Option (List Char) :=
  match (charIndices s 0)[n]? with
  | some (idx, _) => (slices s idx).map Prod.snd
  | none => some []

def advanceByChars (s : List Char) (n : Nat) : Option (List Char) :=
  if n = 0 then some s
  else if n ≥ (utf8 s).length then some []
  else if isAscii ((utf8 s).take n) then (slices s n).map Prod.snd
  else advanceSlow s n

def takeChars (s : List Char) (n : Nat) : Option (List Char) :=
  if n = 0 then some []
  else match (charIndices s 0)[n]? with
    | some (idx, _) => (slices s idx).map Prod.fst
    | none => some s

/-- A text and the count kept with it, split into two such pairs. -/
def splitAtChar (text : List Char) (charCount charIdx : Nat) :
    Option ((List Char × Nat) × List Char × Nat) :=
  if charIdx = 0 then some (([], 0), text, charCount)
  else if charIdx ≥ charCount then some ((text, charCount), [], 0)
  else
    let byteIdx := ((charIndices text 0)[charIdx]?.map Prod.fst).getD (utf8 text).length
    (slices text byteIdx).map fun p => ((p.1, charIdx), p.2, charCount - charIdx)

section
variable (s : List Char) (n : Nat)

lemma getElem?_charIndices (idx : Nat) :
    (charIndices s idx)[n]? = s[n]?.map fun c => (idx + (utf8 (s.take n)).length, c) := by
  induction s generalizing n idx with
  | nil => rfl
  | cons c s ih =>
    cases n with
    | zero => rfl
    | succ n =>
      rw [charIndices, getElem?_cons_succ, getElem?_cons_succ, ih, take_succ_cons, length_utf8_cons]
      simp only [Nat.add_assoc]

/-- The bytes of the first characters end where a character begins. -/
lemma slices_take : slices s (utf8 (s.take n)).length = some (s.take n, s.drop n) := by
  induction s generalizing n with
  | nil => rw [take_nil, drop_nil]; rfl
  | cons c s ih =>
    cases n with
    | zero => rfl
    | succ n =>
      have hpos := Char.utf8Size_pos c
      obtain ⟨size, hsize⟩ :=
        Nat.exists_eq_succ_of_ne_zero (show c.utf8Size + (utf8 (s.take n)).length ≠ 0 by omega)
      rw [take_succ_cons, drop_succ_cons, length_utf8_cons, hsize, slices, if_neg (by omega),
        show size + 1 - c.utf8Size = (utf8 (s.take n)).length by omega, ih, map_some]

lemma advanceSlow_eq : advanceSlow s n = some (s.drop n) := by
  rw [advanceSlow, getElem?_charIndices]
  cases h : s[n]? with
  | none => rw [drop_eq_nil_of_le (getElem?_eq_none_iff.mp h)]; rfl
  | some c => simp [slices_take]

lemma advanceByChars_eq : advanceByChars s n = some (s.drop n) := by
  unfold advanceByChars
  split
  · next h => rw [h, drop_zero]
  split
  · next h => rw [drop_eq_nil_of_le ((length_le_utf8 s).trans h)]
  · split
    · next hlt h =>
      have hslices := slices_take s n
      rw [length_utf8_take h (by omega)] at hslices
      rw [hslices, map_some]
    · exact advanceSlow_eq s n

lemma takeChars_eq : takeChars s n = some (s.take n) := by
  rw [takeChars, getElem?_charIndices]
  split
  · next h => rw [h, take_zero]
  · cases h : s[n]? with
    | none => rw [take_of_length_le (getElem?_eq_none_iff.mp h)]; rfl
    | some c => simp [slices_take]

lemma splitAtChar_eq (t : NodeText) : splitAtChar t.text t.charCount n =
    some (((t.splitAtChar n).1.text, (t.splitAtChar n).1.charCount), (t.splitAtChar n).2.text,
    (t.splitAtChar n).2.charCount) := by
  unfold splitAtChar NodeText.splitAtChar
  split
  · rfl
  · split
    · rfl
    · next hlt =>
      have hget := getElem?_eq_getElem (show n < t.text.length by rw [← t.charCount_eq]; omega)
      simp [getElem?_charIndices, hget, slices_take]

end

/-- **The helpers agree with lists of characters**, whichever path they take. -/
theorem char_helpers_agree (a b : List Char) (n : Nat) (t : NodeText) :
    advanceByChars a n = some (a.drop n) ∧ advanceSlow a n = advanceByChars a n ∧
    takeChars a n = some (a.take n) ∧
    IsGreatest {k | ∃ p, p <+: a ∧ p <+: b ∧ p.length = k} (sharedPrefixCount a b) ∧
    sharedPrefixCountChars a b = sharedPrefixCount a b ∧
    ∃ front back, splitAtChar t.text t.charCount n =
    some ((front, min n t.text.length), back, t.text.length - n) ∧
      front ++ back = t.text ∧ front.length = min n t.text.length := by
  refine ⟨advanceByChars_eq a n, ?_, takeChars_eq a n, ?_, ?_, t.text.take n,
    t.text.drop n, ?_, take_append_drop n _, length_take⟩
  · rw [advanceSlow_eq, advanceByChars_eq]
  · rw [sharedPrefixCount_eq]
    refine ⟨⟨a.take (common a b), take_prefix _ _, ?_, length_take_of_le (common_le_left a b)⟩, ?_⟩
    · rw [take_eq_of_le_common a b _ le_rfl]
      exact take_prefix _ _
    · rintro _ ⟨p, ha, hb, rfl⟩
      exact le_common_of_take_eq a b _ ha.length_le hb.length_le
        ((prefix_iff_eq_take.mp ha).symm.trans (prefix_iff_eq_take.mp hb))
  · rw [sharedPrefixCountChars_eq, sharedPrefixCount_eq]
  · obtain ⟨hfront, hback⟩ := Gateway.splitAtChar_eq t n
    rw [splitAtChar_eq, NodeText.charCount_eq, NodeText.charCount_eq, hfront,
      hback, length_take, length_drop]

end Bytes

/-! ### Shape -/

/-- The fields that make the tree. -/
structure NodeCore where
  children : OrderedDict Char NodeId
  text : List Char
  parent : Option NodeId

def Node.core (x : Node) : NodeCore := ⟨x.children, x.text.text, x.parent⟩

namespace Tree

abbrev Shape := LabelledTree NodeId Char

/-- The nodes of the tree are those of a shape, and stand for its words. -/
structure Shaped (core : NodeId → NodeCore) (fresh : NodeId) (g : Shape) : Prop where
  root_eq : g.root = root
  root_mem : root ∈ g.live
  path_root : g.path root = []
  text_root : (core root).text = []
  parent_root : (core root).parent = none
  lt_fresh : ∀ n ∈ g.live, n < fresh
  parent_mem : ∀ n ∈ g.live, n ≠ root → g.parent n ∈ g.live
  parent_eq : ∀ n ∈ g.live, n ≠ root → (core n).parent = some (g.parent n)
  path_eq : ∀ n ∈ g.live, n ≠ root → g.path n = g.path (g.parent n) ++ (core n).text
  child : ∀ n ∈ g.live, n ≠ root → ∃ c, (core n).text.head? = some c ∧
    (core (g.parent n)).children.get? c = some n
  of_child : ∀ p ∈ g.live, ∀ c n, (core p).children.get? c = some n →
    n ∈ g.live ∧ n ≠ root ∧ g.parent n = p ∧ (core n).text.head? = some c

variable {core core' : NodeId → NodeCore} {fresh : NodeId} {g : Shape} {n p : NodeId} {c : Char}

namespace Shaped

section
variable (h : Shaped core fresh g)
include h

lemma text_ne_nil (hn : n ∈ g.live) (hroot : n ≠ root) : (core n).text ≠ [] := by
  obtain ⟨c, hc, _⟩ := h.child n hn hroot
  rintro hnil
  rw [hnil] at hc
  cases hc

lemma getElem?_path (hn : n ∈ g.live) (hroot : n ≠ root) :
    (g.path n)[(g.path (g.parent n)).length]? = (core n).text.head? := by
  rw [h.path_eq n hn hroot, getElem?_append_right (le_refl _), Nat.sub_self, head?_eq_getElem?]

lemma valid : g.Valid := by
  refine ⟨h.root_eq ▸ h.root_mem, h.root_eq ▸ h.path_root, ?_, ?_, ?_, ?_⟩ <;> rw [h.root_eq]
  · exact h.parent_mem
  · intro n hn hroot
    rw [h.path_eq n hn hroot]
    exact prefix_append _ _
  · intro n hn hroot
    have := length_pos_of_ne_nil (h.text_ne_nil hn hroot)
    rw [h.path_eq n hn hroot, length_append]
    omega
  · intro n hn hnroot m hm hmroot hparent hletter
    rw [h.getElem?_path hn hnroot, hparent, h.getElem?_path hm hmroot] at hletter
    obtain ⟨c, hc, hget⟩ := h.child n hn hnroot
    obtain ⟨c', hc', hget'⟩ := h.child m hm hmroot
    cases hc.symm.trans (hletter.trans hc')
    rw [hparent] at hget
    exact some.inj (hget.symm.trans hget')

lemma ownLength (hn : n ∈ g.live) (hroot : n ≠ root) : g.ownLength n = (core n).text.length := by
  rw [LabelledTree.ownLength, h.path_eq n hn hroot, length_append]
  omega

lemma fresh_notMem : fresh ∉ g.live := fun hmem => lt_irrefl _ (h.lt_fresh fresh hmem)

lemma ne_fresh (hn : n ∈ g.live) : n ≠ fresh := fun heq => h.fresh_notMem (heq ▸ hn)

lemma parent_ne (hn : n ∈ g.live) (hroot : n ≠ root) : g.parent n ≠ n := by
  intro heq
  have := h.valid.length_lt n hn (h.root_eq ▸ hroot)
  rw [heq] at this
  omega

end

end Shaped

/-! ### A node more -/

section
variable (h : Shaped core fresh g) {text : List Char}
include h

/-- A node is put below `p`. The child that was in its place, if any, comes below it with the rest
of its text. -/
lemma Shaped.grow (hp : p ∈ g.live) (htext : text.head? = some c)
    {parent : NodeId → NodeId} (hparentNew : parent fresh = p)
    (hparent : ∀ m ∈ g.live, (core p).children.get? c ≠ some m → parent m = g.parent m)
    (hnew : (core' fresh).text = text ∧ (core' fresh).parent = some p)
    (hkids : ∀ d m, (core' fresh).children.get? d = some m → (core p).children.get? c = some m ∧
    (core' m).text.head? = some d) (hcore : ∀ m ∈ g.live, (core p).children.get? c ≠ some m →
      core' m = if m = p then {core p with children := (core p).children.set c fresh} else core m)
    (hmoved : ∀ m, (core p).children.get? c = some m → parent m = fresh ∧
      (core' m).children = (core m).children ∧
      (core' m).parent = some fresh ∧ (core m).text = text ++ (core' m).text ∧
      ∃ d, (core' m).text.head? = some d ∧ (core' fresh).children.get? d = some m) :
    Shaped core' (fresh + 1)
      { live := Insert.insert fresh g.live, root := g.root, parent, path := update g.path fresh (g.path p ++ text) } := by
  have hrootc : (core p).children.get? c ≠ some root :=
    fun hget => (h.of_child p hp c root hget).2.1 rfl
  have hold : ∀ m ∈ g.live, (core p).children.get? c ≠ some m → (core' m).text = (core m).text ∧
      (core' m).parent = (core m).parent := by
    intro m hm hne
    rw [hcore m hm hne]
    split
    · next heq => rw [heq]; exact ⟨rfl, rfl⟩
    · exact ⟨rfl, rfl⟩
  have hchildren : ∀ m ∈ g.live, ∀ c', (core' m).children.get? c' =
      if m = p ∧ c' = c then some fresh else (core m).children.get? c' := by
    intro m hm c'
    by_cases hget : (core p).children.get? c = some m
    · obtain ⟨_, hroot, hpar, _⟩ := h.of_child p hp c m hget
      rw [(hmoved m hget).2.1, if_neg (fun hand => h.parent_ne hm hroot (hpar.trans hand.1.symm))]
    · rw [hcore m hm hget]
      by_cases hmp : m = p
      · rw [if_pos hmp, get?_set, hmp]
        simp
      · rw [if_neg hmp, if_neg (fun hand => hmp hand.1)]
  have hpath : ∀ m ∈ g.live, update g.path fresh (g.path p ++ text) m = g.path m :=
    fun m hm => update_of_ne (h.ne_fresh hm) _ _
  have hlive : ∀ m, m ∈ Insert.insert fresh g.live ↔ m = fresh ∨ m ∈ g.live :=
    fun m => Finset.mem_insert
  have hlt : ∀ m ∈ Insert.insert fresh g.live, m < fresh + 1 := by
    intro m hm
    obtain rfl | hm := (hlive m).mp hm
    · exact Nat.lt_succ_self _
    · exact Nat.lt_succ_of_lt (h.lt_fresh m hm)
  refine ⟨h.root_eq, (hlive _).mpr (.inr h.root_mem), (hpath _ h.root_mem).trans h.path_root,
    (hold _ h.root_mem hrootc).1.trans h.text_root,
    (hold _ h.root_mem hrootc).2.trans h.parent_root, hlt,
    fun m hm hroot => (hlive _).mpr ?_, fun m hm hroot => ?_, fun m hm hroot =>
    ?_, fun m hm hroot => ?_, fun q hq c' m hget => ?_⟩
  all_goals dsimp only
  -- a node below the root is the new one, the one that comes below it, or as it was
  · obtain rfl | hm := (hlive m).mp hm
    · exact .inr (hparentNew ▸ hp)
    · by_cases hget : (core p).children.get? c = some m
      · exact .inl (hmoved m hget).1
      · exact .inr (hparent m hm hget ▸ h.parent_mem m hm hroot)
  · obtain rfl | hm := (hlive m).mp hm
    · exact hnew.2.trans (congrArg some hparentNew.symm)
    · by_cases hget : (core p).children.get? c = some m
      · exact (hmoved m hget).2.2.1.trans (congrArg some (hmoved m hget).1.symm)
      · rw [(hold m hm hget).2, h.parent_eq m hm hroot, hparent m hm hget]
  · obtain rfl | hm := (hlive m).mp hm
    · rw [hnew.1, hparentNew, hpath p hp, update_self]
    · by_cases hget : (core p).children.get? c = some m
      · obtain ⟨hparentm, _, _, hsplit, _⟩ := hmoved m hget
        rw [hparentm, update_self, hpath m hm, h.path_eq m hm hroot,
          (h.of_child p hp c m hget).2.2.1, append_assoc, ← hsplit]
      · rw [hparent m hm hget, hpath m hm, hpath _ (h.parent_mem m hm hroot),
          (hold m hm hget).1, h.path_eq m hm hroot]
  · obtain rfl | hm := (hlive m).mp hm
    · refine ⟨c, hnew.1.symm ▸ htext, ?_⟩
      rw [hparentNew, hchildren p hp, if_pos ⟨rfl, rfl⟩]
    · by_cases hget : (core p).children.get? c = some m
      · rw [(hmoved m hget).1]
        exact (hmoved m hget).2.2.2.2
      · obtain ⟨c', hc', hget'⟩ := h.child m hm hroot
        refine ⟨c', (hold m hm hget).1.symm ▸ hc', ?_⟩
        rw [hparent m hm hget, hchildren _ (h.parent_mem m hm hroot), if_neg, hget']
        rintro ⟨hpm, rfl⟩
        exact hget (hpm ▸ hget')
  · obtain rfl | hq := (hlive q).mp hq
    · obtain ⟨hchild, hhead⟩ := hkids c' m hget
      obtain ⟨hm, hroot, _⟩ := h.of_child p hp c m hchild
      exact ⟨(hlive m).mpr (.inr hm), hroot, (hmoved m hchild).1, hhead⟩
    · rw [hchildren q hq] at hget
      split at hget
      · next heq =>
        obtain ⟨rfl, rfl⟩ := heq
        cases hget
        exact ⟨(hlive _).mpr (.inl rfl), fun heq => h.fresh_notMem (heq ▸ h.root_mem),
          hparentNew, hnew.1.symm ▸ htext⟩
      · next heq =>
        obtain ⟨hm, hroot, hparentm, hhead⟩ := h.of_child q hq c' m hget
        have hkept : (core p).children.get? c ≠ some m := by
          intro hchild
          obtain ⟨_, _, hpm, hhead'⟩ := h.of_child p hp c m hchild
          exact heq ⟨hparentm.symm.trans hpm, some.inj (hhead.symm.trans hhead')⟩
        exact ⟨(hlive m).mpr (.inr hm), hroot, (hparent m hm hkept).trans hparentm,
          (hold m hm hkept).1.symm ▸ hhead⟩

def Shape.leaf (g : Shape) (new p : NodeId) (text : List Char) : Shape where
  live := Insert.insert new g.live
  root := g.root
  parent := update g.parent new p
  path := update g.path new (g.path p ++ text)

lemma Shaped.leaf (hp : p ∈ g.live) (htext : text.head? = some c)
    (hvacant : (core p).children.get? c = none)
    (hcore : ∀ m, core' m = if m = fresh then ⟨{}, text, some p⟩
      else if m = p then {core p with children := (core p).children.set c fresh} else core m) :
    Shaped core' (fresh + 1) (g.leaf fresh p text) := by
  have hnew : core' fresh = ⟨{}, text, some p⟩ := by rw [hcore, if_pos rfl]
  refine h.grow hp htext (update_self _ _ _) (fun m hm _ => update_of_ne (h.ne_fresh hm) _ _)
    (hnew ▸ ⟨rfl, rfl⟩) ?_ ?_ ?_
  · intro d m hget
    rw [hnew] at hget
    cases hget
  · intro m hm _
    rw [hcore, if_neg (h.ne_fresh hm)]
  · intro m hget
    rw [hvacant] at hget
    cases hget

/-- A new node between a node and its parent. -/
def Shape.split (g : Shape) (new n : NodeId) (text : List Char) : Shape where
  live := Insert.insert new g.live
  root := g.root
  parent := update (update g.parent n new) new (g.parent n)
  path := update g.path new (g.path (g.parent n) ++ text)

lemma Shaped.split (hn : n ∈ g.live) (hroot : n ≠ root) {rest : List Char} {d : Char}
    (hsplit : (core n).text = text ++ rest) (hc : text.head? = some c) (hd : rest.head? = some d)
    (hcore : ∀ m, core' m = if m = n then ⟨(core n).children, rest, some fresh⟩
      else if m = fresh then ⟨({} : OrderedDict Char NodeId).set d n, text, some (g.parent n)⟩
      else if m = g.parent n then
      {core (g.parent n) with children := (core (g.parent n)).children.set c fresh} else core m) :
    Shaped core' (fresh + 1) (g.split fresh n text) := by
  have hnf := h.ne_fresh hn
  have hself : core' n = ⟨(core n).children, rest, some fresh⟩ := by rw [hcore, if_pos rfl]
  have hnew : core' fresh = ⟨({} : OrderedDict Char NodeId).set d n, text, some (g.parent n)⟩ := by
    rw [hcore, if_neg hnf.symm, if_pos rfl]
  have hplace : (core (g.parent n)).children.get? c = some n := by
    obtain ⟨c', hc', hget⟩ := h.child n hn hroot
    rw [hsplit, head?_append, hc] at hc'
    rwa [show c = c' from some.inj hc']
  have hne {m : NodeId} (hget : (core (g.parent n)).children.get? c ≠ some m) : m ≠ n := by
    rintro rfl
    exact hget hplace
  refine h.grow (h.parent_mem n hn hroot) hc (update_self _ _ _) ?_ (hnew ▸ ⟨rfl, rfl⟩) ?_ ?_ ?_
  · intro m hm hget
    exact (update_of_ne (h.ne_fresh hm) _ _).trans (update_of_ne (hne hget) _ _)
  · intro d' m hget
    rw [hnew, get?_set] at hget
    split at hget
    · next heq =>
      cases hget
      exact ⟨hplace, by rw [hself, heq]; exact hd⟩
    · cases hget
  · intro m hm hget
    rw [hcore, if_neg (hne hget), if_neg (h.ne_fresh hm)]
  · intro m hget
    cases hplace.symm.trans hget
    rw [hself, hnew]
    exact ⟨(update_of_ne hnf _ _).trans (update_self _ _ _), rfl, rfl,
      hsplit, d, hd, by rw [get?_set, if_pos rfl]⟩

/-! ### A leaf less -/

def Shape.prune (g : Shape) (n : NodeId) : Shape := {g with live := g.live.erase n}

lemma Shaped.prune (hn : n ∈ g.live) (hroot : n ≠ root)
    (hleaf : ∀ c, (core n).children.get? c = none) (hc : (core n).text.head? = some c)
    (hcore : ∀ m, core' m = if m = g.parent n then
    {core (g.parent n) with children := (core (g.parent n)).children.erase c}
      else core m) : Shaped core' fresh (g.prune n) := by
  have hold : ∀ m, (core' m).text = (core m).text ∧ (core' m).parent = (core m).parent := by
    intro m
    rw [hcore]
    split
    · next heq => rw [heq]; exact ⟨rfl, rfl⟩
    · exact ⟨rfl, rfl⟩
  have hchildren : ∀ m c', (core' m).children.get? c' = if m = g.parent n ∧ c' = c then none
      else (core m).children.get? c' := by
    intro m c'
    rw [hcore]
    by_cases hmp : m = g.parent n
    · rw [if_pos hmp, get?_erase, hmp]
      simp
    · rw [if_neg hmp, if_neg (fun hand => hmp hand.1)]
  have hplace : (core (g.parent n)).children.get? c = some n := by
    obtain ⟨c', hc', hget⟩ := h.child n hn hroot
    rwa [some.inj (hc.symm.trans hc')]
  have hlive : ∀ m, m ∈ (g.prune n).live ↔ m ≠ n ∧ m ∈ g.live := fun m => Finset.mem_erase
  -- a node without children is no parent
  have hparent : ∀ m ∈ g.live, m ≠ root → g.parent m ≠ n := by
    intro m hm hmroot heq
    obtain ⟨c', _, hget⟩ := h.child m hm hmroot
    rw [heq, hleaf] at hget
    cases hget
  refine ⟨h.root_eq, (hlive _).mpr ⟨hroot.symm, h.root_mem⟩, h.path_root,
    (hold _).1.trans h.text_root,
    (hold _).2.trans h.parent_root, fun m hm => h.lt_fresh m ((hlive m).mp hm).2, fun m hm hmroot =>
    ?_,
    fun m hm hmroot => (hold m).2.trans (h.parent_eq m ((hlive m).mp hm).2 hmroot),
    fun m hm hmroot => ?_,
    fun m hm hmroot => ?_, fun q hq c' m hget => ?_⟩
  · obtain ⟨_, hm⟩ := (hlive m).mp hm
    exact (hlive _).mpr ⟨hparent m hm hmroot, h.parent_mem m hm hmroot⟩
  · rw [(hold m).1]
    exact h.path_eq m ((hlive m).mp hm).2 hmroot
  · obtain ⟨hmn, hm⟩ := (hlive m).mp hm
    obtain ⟨c', hc', hget⟩ := h.child m hm hmroot
    refine ⟨c', (hold m).1 ▸ hc', ?_⟩
    show (core' (g.parent m)).children.get? c' = some m
    rw [hchildren, if_neg, hget]
    rintro ⟨hpm, rfl⟩
    rw [hpm, hplace] at hget
    exact hmn (some.inj hget).symm
  · obtain ⟨_, hq⟩ := (hlive q).mp hq
    rw [hchildren] at hget
    split at hget
    · cases hget
    · next heq =>
      obtain ⟨hm, hmroot, hparentm, hhead⟩ := h.of_child q hq c' m hget
      refine ⟨(hlive m).mpr ⟨?_, hm⟩, hmroot, hparentm, (hold m).1 ▸ hhead⟩
      rintro rfl
      exact heq ⟨hparentm.symm, some.inj (hhead.symm.trans hc)⟩

end

end Tree

end Sglang.Gateway
