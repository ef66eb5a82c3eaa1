import Mathlib.Tactic.Common

/-! Who is active on which session, and who holds which row.

The sessions are numbered; a session that is open has a name, and the slot of a session is kept
under its name. A row is free, or held by one request, or kept in one slot; the active request of a
session may share the row of its slot. -/
namespace Sglang.Sessions

/-- Who is active on which session and who holds which row. -/
structure Ledger where
  active : Nat → Option Nat
  row : Nat → Option Nat
  doomed : Nat → Bool
  flag : Nat → Bool
  name : Nat → String
  opened : String → Option Nat
  slot : String → Option Nat
  node : Nat → Option Nat
  free : List Nat
  nextReq : Nat
  nextSession : Nat

/-- A session is busy for one request, and a row has one owner. -/
structure Ledger.Valid (l : Ledger) : Prop where
  flag : ∀ o, l.flag o = true ↔ ∃ r, l.active r = some o
  unique : ∀ r r' o, l.active r = some o → l.active r' = some o → r = r'
  opened : ∀ r o, l.active r = some o → l.opened (l.name o) = some o
  nodup : l.free.Nodup
  slotFree : ∀ id i, l.slot id = some i → i ∉ l.free
  slotInj : ∀ id id' i, l.slot id = some i → l.slot id' = some i → id = id'
  rowFree : ∀ r i, l.row r = some i → i ∉ l.free
  rowInj : ∀ r r' i, l.row r = some i → l.row r' = some i → r = r'
  share : ∀ r id i, l.row r = some i → l.slot id = some i → ∃ o, l.active r = some o ∧ l.name o = id
  doomed : ∀ r, l.doomed r = true → l.row r = none
  node : ∀ o r, l.node o = some r → l.active r = none ∧ r < l.nextReq
  fresh : ∀ r, l.nextReq ≤ r → l.active r = none ∧ l.row r = none
  sessions : ∀ r o, l.active r = some o → o < l.nextSession
  names : ∀ id o, l.opened id = some o → l.name o = id ∧ o < l.nextSession

namespace Ledger
variable {l : Ledger} {r o i : Nat} {id : String}

section
variable (l : Ledger)

def setActive (r : Nat) (a : Option Nat) : Ledger :=
  { l with active := fun j => if j = r then a else l.active j }

def setRow (r : Nat) (i : Option Nat) : Ledger :=
  { l with row := fun j => if j = r then i else l.row j }

def setDoomed (r : Nat) (b : Bool) : Ledger :=
  { l with doomed := fun j => if j = r then b else l.doomed j }

def setFlag (o : Nat) (b : Bool) : Ledger :=
  { l with flag := fun j => if j = o then b else l.flag j }

def setSlot (id : String) (i : Option Nat) : Ledger :=
  { l with slot := fun j => if j = id then i else l.slot j }

def setNode (o : Nat) (r : Option Nat) : Ledger :=
  { l with node := fun j => if j = o then r else l.node j }

end

lemma ite_self_fun {α β : Type*} [DecidableEq α] {f : α → β} {a : α} {b : β} (h : f a = b) :
    (fun j => if j = a then b else f j) = f := by
  funext j
  split
  · next hj => rw [hj, h]
  · rfl

variable {a : Option Nat}

lemma setActive_self (h : l.active r = a) : l.setActive r a = l := by
  rw [setActive, ite_self_fun h]

lemma setRow_self (h : l.row r = a) : l.setRow r a = l := by
  rw [setRow, ite_self_fun h]

variable {b : Bool}

lemma setDoomed_self (h : l.doomed r = b) : l.setDoomed r b = l := by
  rw [setDoomed, ite_self_fun h]

lemma setFlag_self (h : l.flag o = b) : l.setFlag o b = l := by
  rw [setFlag, ite_self_fun h]

lemma setSlot_self (h : l.slot id = a) : l.setSlot id a = l := by
  rw [setSlot, ite_self_fun h]

lemma setNode_self (h : l.node o = a) : l.setNode o a = l := by
  rw [setNode, ite_self_fun h]

/-! What keeps the ledger valid -/

section
variable (h : l.Valid)
include h

lemma Valid.forget {row : Nat → Option Nat} {doomed : Nat → Bool}
    (hrow : ∀ r, row r = l.row r ∨ row r = none) (hdoomed : ∀ r, doomed r = true → row r = none) :
    Valid { l with row := row, doomed := doomed } := by
  cases h
  constructor <;> grind

lemma Valid.setDoomed (hrow : b = true → l.row r = none) : (l.setDoomed r b).Valid := by
  refine h.forget (fun _ => .inl rfl) fun j hj => ?_
  have hd := h.doomed j
  grind

lemma Valid.retire (hactive : l.active r = some o) (hrow : l.row r = none) :
    ((l.setActive r none).setFlag o false).Valid := by
  cases h
  unfold Ledger.setActive Ledger.setFlag
  constructor <;> grind

lemma Valid.setFlag_false (hnone : ∀ r, l.active r ≠ some o) : l.setFlag o false = l := by
  refine setFlag_self ?_
  cases hflag : l.flag o with
  | false => rfl
  | true =>
    obtain ⟨r, hr⟩ := (h.flag o).mp hflag
    exact absurd hr (hnone r)

lemma Valid.activate (hflag : l.flag o = false) (hopen : l.opened (l.name o) = some o)
    (doomed : Bool) :
    Valid
    { ((l.setActive l.nextReq (some o)).setDoomed l.nextReq doomed).setFlag o true with nextReq := l.nextReq + 1 } := by
  cases h
  unfold Ledger.setActive Ledger.setDoomed Ledger.setFlag
  constructor
  case flag =>
    intro q
    by_cases hq : q = o
    · exact ⟨fun _ => ⟨l.nextReq, by simp [hq]⟩, fun _ => if_pos hq⟩
    · grind
  all_goals grind

lemma Valid.newcomer (doomed : Bool) :
    Valid { l.setDoomed l.nextReq doomed with nextReq := l.nextReq + 1 } := by
  have hset := @Valid.setDoomed l l.nextReq doomed h fun _ => (h.fresh _ (Nat.le_refl _)).2
  refine { hset with node := fun o r hr => ?_, fresh := fun r hr => h.fresh r (Nat.le_of_succ_le hr) }
  exact (h.node o r hr).imp_right Nat.lt_succ_of_lt

/-- The active request of a session takes the row of its slot; the slot keeps it. -/
lemma Valid.restore (hactive : l.active r = some o) (hslot : l.slot (l.name o) = some i)
    (hdoomed : l.doomed r = false) : (l.setRow r (some i)).Valid := by
  cases h
  unfold setRow
  constructor <;> grind

lemma Valid.take {rest : List Nat} (hfree : l.free = i :: rest) (hr : r < l.nextReq)
    (hdoomed : l.doomed r = false) : Valid { l.setRow r (some i) with free := rest } := by
  cases h
  unfold setRow
  constructor <;> grind

/-- A request that is not active on a session has its row for itself. -/
lemma Valid.giveBack (hactive : l.active r = none) :
    Valid { l.setRow r none with free := l.free ++ (l.row r).toList } := by
  cases h
  unfold setRow
  cases hrow : l.row r with
  | none => constructor <;> grind
  | some i => constructor <;> grind

lemma Valid.park (hname : ∀ o, l.active r = some o → l.name o = id) :
    ((l.setRow r none).setSlot id (l.row r)).Valid := by
  cases h
  unfold setRow setSlot
  constructor <;> grind

/-- A slot is released while no request is active on its session. -/
lemma Valid.release (hnone : ∀ r o, l.active r = some o → l.name o ≠ id) :
    Valid { l.setSlot id none with free := l.free ++ (l.slot id).toList } := by
  cases h
  unfold setSlot
  cases hslot : l.slot id with
  | none => constructor <;> grind
  | some i => constructor <;> grind

lemma Valid.open (hclosed : l.opened id = none) : Valid { l with
    name := fun j => if j = l.nextSession then id else l.name j
    flag := fun j => if j = l.nextSession then false else l.flag j
    node := fun j => if j = l.nextSession then none else l.node j
    opened := fun j => if j = id then some l.nextSession else l.opened j
    nextSession := l.nextSession + 1 } := by
  cases h
  constructor <;> grind

lemma Valid.close (hnone : ∀ r o, l.active r = some o → l.name o ≠ id) :
    Valid { l with opened := fun j => if j = id then none else l.opened j } := by
  refine { h with opened := fun r o hr => ?_, names := fun j o hj => ?_ }
  · exact (if_neg (hnone r o hr)).trans (h.opened r o hr)
  · have hname := h.names j o
    grind

lemma Valid.setNode (hr : l.active r = none) (hlt : r < l.nextReq) :
    (l.setNode o (some r)).Valid := by
  refine { h with node := fun q j hj => ?_ }
  have hnode := h.node q j
  grind [Ledger.setNode]

/-- Sessions are told apart by their names, as far as they have an active request. -/
lemma Valid.eq_of_name {r' o' : Nat} (hactive : l.active r = some o)
    (hactive' : l.active r' = some o') (hname : l.name o = l.name o') : r = r' := by
  have ho : o = o' :=
    Option.some.inj ((h.opened r o hactive).symm.trans (hname ▸ h.opened r' o' hactive'))
  exact h.unique r r' o hactive (ho ▸ hactive')

end

end Ledger

end Sglang.Sessions
