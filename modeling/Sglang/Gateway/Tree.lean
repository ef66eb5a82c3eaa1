import Sglang.Lib.LabelledTree
import Sglang.Lib.OrderedDict
import Sglang.Lib.Prefix

/-! The routing tree of the gateway.

A compressed radix tree of texts that many tenants share: every node keeps the tenants whose texts
go through it, with the epoch of their last access. Nodes are mutable objects that point to each
other; here they are numbered, and the tree is a table of them. A failed `unwrap` is `none`, and so
is a loop that does not come to an end within the steps it is given. -/
namespace Sglang.Gateway

abbrev TenantId := String

abbrev NodeId := Nat

/-! ### Strings -/

/-- The bytes of a string. -/
def utf8 (s : List Char) : List UInt8 := s.flatMap String.utf8EncodeChar

def isAscii (bytes : List UInt8) : Bool := bytes.all (· < 128)

/-- A string from a byte on. -/
def dropBytes : List Char → Nat → List Char
  | [], _ => []
  | c :: s, n => if n = 0 then c :: s else dropBytes s (n - c.utf8Size)

def advanceByChars (s : List Char) (n : Nat) : List Char :=
  if n = 0 then s
  else if n ≥ (utf8 s).length then []
  -- bytes that are all ASCII are as many characters
  else if isAscii ((utf8 s).take n) then dropBytes s n
  else s.drop n

def takeChars (s : List Char) (n : Nat) : List Char := s.take n

def sharedPrefixCountChars (a b : List Char) : Nat :=
  ((a.zip b).takeWhile fun p => p.1 = p.2).length

def sharedPrefixCount (a b : List Char) : Nat :=
  let commonByteLen := Prefix.common (utf8 a) (utf8 b)
  if isAscii ((utf8 a).take commonByteLen) then commonByteLen else sharedPrefixCountChars a b

/-- A text with its length. -/
structure NodeText where
  text : List Char := []
  charCount : Nat := 0
  charCount_eq : charCount = text.length := by rfl

namespace NodeText

def new (text : List Char) : NodeText := ⟨text, text.length, rfl⟩

def splitAtChar (t : NodeText) (charIdx : Nat) : NodeText × NodeText :=
  if charIdx = 0 then ({}, t)
  else if h : charIdx ≥ t.charCount then (t, {})
  else
    (⟨t.text.take charIdx, charIdx, by have := t.charCount_eq; rw [List.length_take]; omega⟩,
      ⟨t.text.drop charIdx, t.charCount - charIdx, by rw [List.length_drop, t.charCount_eq]⟩)

end NodeText

/-! ### Nodes -/

structure Node where
  children : OrderedDict Char NodeId := {}
  text : NodeText := {}
  tenantLastAccessTime : OrderedDict TenantId Nat := {}
  parent : Option NodeId := none
  lastTenant : Option TenantId := none

def Node.hasTenant (x : Node) (tenantId : TenantId) : Bool :=
  (x.tenantLastAccessTime.get? tenantId).isSome

structure Tree where
  nodes : NodeId → Node
  /-- Numbers from here on are not used. -/
  fresh : NodeId
  tenantCharCount : OrderedDict TenantId Nat
  epoch : Nat

namespace Tree

def root : NodeId := 0

def new : Tree where
  nodes := fun _ => {}
  fresh := 1
  tenantCharCount := {}
  epoch := 0

section
variable (t : Tree)

section
variable (n : NodeId)

def modifyNode (f : Node → Node) : Tree :=
  {t with nodes := Function.update t.nodes n (f (t.nodes n))}

def hasTenant (t : Tree) (n : NodeId) (tenantId : TenantId) : Bool := (t.nodes n).hasTenant tenantId

section
variable (tenantId : TenantId)

def setTenant (epoch : Nat) : Tree :=
  t.modifyNode n fun x => {x with tenantLastAccessTime := x.tenantLastAccessTime.set tenantId epoch}

/-- The epoch goes up by one at every reading. -/
def accessTenant : Tree :=
  {t.setTenant n tenantId t.epoch with epoch := t.epoch + 1}

def charCount : Nat := (t.tenantCharCount.get? tenantId).getD 0

def addCharCount (n : Nat) : Tree :=
  {t with tenantCharCount := t.tenantCharCount.set tenantId (t.charCount tenantId + n)}

/-! ### Insertion -/

/-- A node that is not in the table yet. -/
def addNode (x : Node) : Tree :=
  {t with nodes := Function.update t.nodes t.fresh x, fresh := t.fresh + 1}

def setChild (c : Char) (child : NodeId) : Tree :=
  t.modifyNode n fun x => {x with children := x.children.set c child}

def newLeaf (prev : NodeId) (firstChar : Char) (remaining : List Char) : Tree :=
  let epoch := t.epoch
  let newNode := t.fresh
  let t := {t with epoch := epoch + 1}
  let t := t.addNode
    { text := .new remaining, parent := some prev, lastTenant := some tenantId,
      tenantLastAccessTime := ({} : OrderedDict TenantId Nat).set tenantId epoch }
  let t := t.addCharCount tenantId remaining.length
  t.setChild prev firstChar newNode

/-- A new node takes the start of a node's text and its place in the tree. -/
def splitNode (prev : NodeId) (firstChar : Char) (matchedNode : NodeId) (sharedCount : Nat) :
    Option (Tree × NodeId) :=
  let x := t.nodes matchedNode
  let (matchedText, contractedText) := x.text.splitAtChar sharedCount
  contractedText.text.head?.map fun firstNewChar =>
    let newNode := t.fresh
    let t := t.addNode
      { text := matchedText, parent := some prev, tenantLastAccessTime := x.tenantLastAccessTime,
        lastTenant := x.lastTenant, children :=
        ({} : OrderedDict Char NodeId).set firstNewChar matchedNode }
    let t := t.setChild prev firstChar newNode
    (t.modifyNode matchedNode fun x => {x with text := contractedText, parent := some newNode},
      newNode)

/-- A tenant's text goes through a node. -/
def attachTenant : Tree :=
  if t.hasTenant n tenantId then t
  else (t.addCharCount tenantId (t.nodes n).text.charCount).setTenant n tenantId 0

def insertLoop (tenantId : TenantId) : Nat → Tree → NodeId → List Char → Option Tree
  | _, t, prev, [] => some (t.accessTenant prev tenantId)
  | 0, _, _, _ :: _ => none
  | fuel + 1, t, prev, firstChar :: rest =>
    let remaining := firstChar :: rest
    match (t.nodes prev).children.get? firstChar with
    | none => some (t.newLeaf tenantId prev firstChar remaining)
    | some matchedNode =>
      let matchedNodeText := (t.nodes matchedNode).text
      let sharedCount := sharedPrefixCount remaining matchedNodeText.text
      if sharedCount < matchedNodeText.charCount then do
        let (t, newNode) ← t.splitNode prev firstChar matchedNode sharedCount
        insertLoop tenantId fuel (t.attachTenant newNode tenantId) newNode
          (advanceByChars remaining sharedCount)
      else
        insertLoop tenantId fuel (t.attachTenant matchedNode tenantId) matchedNode
          (advanceByChars remaining sharedCount)

/-- `entry(k).or_insert(0)`. -/
def orInsertZero (d : OrderedDict TenantId Nat) (tenantId : TenantId) : OrderedDict TenantId Nat :=
  if (d.get? tenantId).isSome then d else d.set tenantId 0

/-- The tenant is at the root and has a count. -/
def ensureTenant : Tree :=
  let t :=
    t.modifyNode root fun x =>
    {x with tenantLastAccessTime := orInsertZero x.tenantLastAccessTime tenantId}
  {t with tenantCharCount := orInsertZero t.tenantCharCount tenantId}

def insert (text : List Char) (tenantId : TenantId) : Option Tree :=
  insertLoop tenantId text.length (t.ensureTenant tenantId) root text

/-! ### Matching -/

structure PrefixMatchResult where
  tenant : TenantId
  matchedCharCount : Nat
  inputCharCount : Nat

/-- The node where a match ends, and how many characters it has. A node for which `enter` does not
hold is not entered. -/
def matchLoop (enter : Node → Bool) (t : Tree) :
    Nat → NodeId → List Char → Nat → Option (NodeId × Nat)
  | _, prev, [], matchedChars => some (prev, matchedChars)
  | 0, _, _ :: _, _ => none
  | fuel + 1, prev, firstChar :: rest, matchedChars =>
    let remaining := firstChar :: rest
    match (t.nodes prev).children.get? firstChar with
    | none => some (prev, matchedChars)
    | some matchedNode =>
      if enter (t.nodes matchedNode) then
        let matchedNodeText := (t.nodes matchedNode).text
        let sharedCount := sharedPrefixCount remaining matchedNodeText.text
        if sharedCount = matchedNodeText.charCount then
          matchLoop enter t fuel matchedNode (advanceByChars remaining sharedCount)
            (matchedChars + sharedCount)
        else some (matchedNode, matchedChars + sharedCount)
      else some (prev, matchedChars)

/-- The tenant that is remembered if the node still has it, else any. -/
def tenantOf : Tree × TenantId :=
  let x := t.nodes n
  match x.lastTenant.filter x.hasTenant with
  | some tenant => (t, tenant)
  | none =>
    let tenant := (x.tenantLastAccessTime.items.head?.map (·.1)).getD "empty"
    (t.modifyNode n fun x => {x with lastTenant := some tenant}, tenant)

/-- One match in eight is an access. -/
def touch (tenant : TenantId) : Tree :=
  if t.epoch % 8 = 0 then t.accessTenant n tenant else {t with epoch := t.epoch + 1}

def prefixMatchWithCounts (text : List Char) : Option (Tree × PrefixMatchResult) :=
  (matchLoop (fun _ => true) t text.length root text 0).map fun (curr, matchedChars) =>
    let (t, tenant) := t.tenantOf curr
    (t.touch curr tenant, ⟨tenant, matchedChars, text.length⟩)

def prefixMatchTenant (text : List Char) (tenantId : TenantId) : Option (Tree × List Char) :=
  (matchLoop (·.hasTenant tenantId) t text.length root text 0).map fun (curr, matchedChars) =>
    (if t.hasTenant curr tenantId then t.accessTenant curr tenantId else t,
      takeChars text matchedChars)

/-! ### Removal -/

def childIds : List NodeId := (t.nodes n).children.items.map (·.2)

def hasChildWithTenant : Bool := (t.childIds n).any (t.hasTenant · tenantId)

/-- The nodes of the tree in the order in which a stack yields them; the last child comes first. -/
def traverse : Option (List NodeId) :=
  LabelledTree.stackWalk (fun n => (t.childIds n).reverse) t.fresh [root]

def dropTenant : Tree :=
  t.modifyNode n fun x => {x with tenantLastAccessTime := x.tenantLastAccessTime.erase tenantId}

/-- A tenant leaves a node, and the node leaves the tree if it is of no use any more. -/
def detachTenant : Tree :=
  let t := t.dropTenant n tenantId
  let x := t.nodes n
  if x.children.items = [] ∧ x.tenantLastAccessTime.items = [] then
    match x.parent, x.text.text.head? with
    | some parent, some fc => t.modifyNode parent fun x => {x with children := x.children.erase fc}
    | _, _ => t
  else t

/-- The parent of a node if it is the end of a tenant's text now. -/
def newLeafAbove : Option NodeId :=
  (t.nodes n).parent.filter fun parent => t.hasTenant parent tenantId &&
    !t.hasChildWithTenant parent tenantId

def removeLoop (tenantId : TenantId) : Nat → Tree → List NodeId → Option Tree
  | _, t, [] => some t
  | 0, _, _ :: _ => none
  | fuel + 1, t, curr :: queue =>
    let t := t.detachTenant curr tenantId
    removeLoop tenantId fuel t (queue ++ (t.newLeafAbove curr tenantId).toList)

def removeTenant : Option Tree := do
  let visited ← t.traverse
  let leaves := visited.filter fun n => t.hasTenant n tenantId && !t.hasChildWithTenant n tenantId
  let t ← removeLoop tenantId t.fresh t leaves
  some {t with tenantCharCount := t.tenantCharCount.erase tenantId}

end

/-! ### Eviction -/

structure EvictionEntry where
  timestamp : Nat
  tenant : TenantId
  node : NodeId

/-- The tenants for which a node is a leaf. -/
def leafOf : List TenantId :=
  ((t.nodes n).tenantLastAccessTime.items.map (·.1)).filter fun tenant =>
    !t.hasChildWithTenant n tenant

def evictionEntry (tenant : TenantId) : Option EvictionEntry :=
  ((t.nodes n).tenantLastAccessTime.get? tenant).map fun timestamp => ⟨timestamp, tenant, n⟩

end

/-- An entry of the lowest timestamp; which one of several is up to the heap. -/
def popEntry (tie : List EvictionEntry → Nat) (pq : List EvictionEntry) :
    Option (EvictionEntry × List EvictionEntry) :=
  let lowest :=
    (List.range pq.length).filter fun i => pq.all fun e =>
    decide ((pq[i]?.map (·.timestamp)).getD 0 ≤ e.timestamp)
  lowest[tie pq % lowest.length]?.bind fun i => pq[i]?.map fun e => (e, pq.eraseIdx i)

def subCharCount (tenantId : TenantId) (nodeLen : Nat) : Tree :=
  match t.tenantCharCount.get? tenantId with
  | some count => {t with tenantCharCount := t.tenantCharCount.set tenantId (count - nodeLen)}
  | none => t

def evictLoop (tie : List EvictionEntry → Nat) (maxSize : Nat) :
    Nat → Tree → List EvictionEntry → Option Tree
  | fuel, t, pq =>
    match popEntry tie pq with
    | none => some t
    | some (e, pq) =>
      match fuel with
      | 0 => none
      | fuel + 1 =>
        if (t.tenantCharCount.get? e.tenant).any (· ≤ maxSize) then evictLoop tie maxSize fuel t pq
        else if !(t.hasTenant e.node e.tenant && !t.hasChildWithTenant e.node e.tenant) then
          evictLoop tie maxSize fuel t pq
        else
          let nodeLen := (t.nodes e.node).text.charCount
          let t := (t.subCharCount e.tenant nodeLen).detachTenant e.node e.tenant
          let pushed :=
            (t.newLeafAbove e.node e.tenant).bind fun parent => t.evictionEntry parent e.tenant
          evictLoop tie maxSize fuel t (pq ++ pushed.toList)

def evictTenantBySize (tie : List EvictionEntry → Nat) (t : Tree) (maxSize : Nat) : Option Tree :=
  do
  let visited ← t.traverse
  let pq := visited.flatMap fun n => (t.leafOf n).filterMap (t.evictionEntry n)
  let tenants := (visited.map fun n => (t.nodes n).tenantLastAccessTime.items.length).sum
  evictLoop tie maxSize (pq.length + tenants) t pq

/-! ### Sizes -/

def getUsedSizePerTenant : Option (TenantId → Nat) :=
  (t.traverse).map fun visited tenantId =>
    (visited.map fun n => if t.hasTenant n tenantId then (t.nodes n).text.charCount else 0).sum

end

end Tree

end Sglang.Gateway
