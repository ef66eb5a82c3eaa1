import Sglang.Lib.OrderedDict
import Sglang.Lib.Recency

/-! The n-gram trie.

Every suffix of a token sequence is inserted into the trie, cut to the maximal depth. Nodes come
from a pool of fixed size: when a window needs more nodes than are free, nodes are taken from the
back of the global recency list while the insertion is under way, and are used again in place.

A node is its index in the pool, which is also how pointers to it compare. An iterator into a list
is the element it points to. A thrown exception is an error, and so is what the language leaves
undefined: reading the back of an empty list, a pool index out of bounds, erasing or splicing what
is not in the list. -/
namespace Sglang.Ngram

abbrev NodeId := Nat

structure TrieNode where
  child : OrderedDict Int NodeId := {}
  token : Int := 0
  parent : NodeId := 0
  lru : List NodeId := []
  freq : Int32 := 0
  version : UInt64 := 1
  sortedChildren : List NodeId := []

inductive TrieError
  | insufficientNodes (available required : Nat)
  | hasChildren
  | undefined
deriving DecidableEq

def orUndefined {α : Type} : Option α → Except TrieError α
  | some x => .ok x
  | none => .error .undefined

structure Trie where
  /-- The size of `nodes_`. -/
  capacity : Nat
  maxTrieDepth : Nat
  nodes : NodeId → TrieNode := fun _ => {}
  nodePool : List NodeId
  freeNodeCount : Nat
  globalLru : List NodeId := []
  root : NodeId := 0
  path : List NodeId := []
  trieEpoch : UInt64 := 1

namespace Trie

section
variable (t : Trie)

def modify (n : NodeId) (f : TrieNode → TrieNode) : Trie :=
  {t with nodes := Function.update t.nodes n (f (t.nodes n))}

/-! ### Children sorted by frequency -/

/-- `CompareByFreq`: the more frequent node first, then the smaller token, then the smaller address.
-/
def CompareByFreq (nodes : NodeId → TrieNode) (a b : NodeId) : Prop :=
  (nodes b).freq < (nodes a).freq ∨ (nodes b).freq = (nodes a).freq ∧
    ((nodes a).token < (nodes b).token ∨ (nodes a).token = (nodes b).token ∧ a < b)

instance (nodes : NodeId → TrieNode) : DecidableRel (CompareByFreq nodes) :=
  fun _ _ => inferInstanceAs (Decidable (_ ∨ _ ∧ (_ ∨ _ ∧ _)))

def insertSorted (nodes : NodeId → TrieNode) (n : NodeId) (sorted : List NodeId) : List NodeId :=
  sorted.orderedInsert (CompareByFreq nodes) n

/-- All entries equivalent to a node are erased. -/
def eraseSorted (nodes : NodeId → TrieNode) (n : NodeId) (sorted : List NodeId) : List NodeId :=
  sorted.filter fun m => CompareByFreq nodes m n ∨ CompareByFreq nodes n m

/-! ### The pool -/

def getNode : Except TrieError (Trie × NodeId) :=
  match t.freeNodeCount with
  | 0 => .error .undefined
  | free + 1 => do
    let node ← orUndefined t.nodePool[free]?
    .ok ({t with freeNodeCount := free}.modify node fun x => {version := x.version}, node)

def retireNode (n : NodeId) : Trie := t.modify n fun x => {x with version := x.version + 1}

/-- The pool is filled, and the root taken from it. -/
def fill : Except TrieError Trie := do
  let (t, root) ← {t with nodePool := List.range t.capacity, freeNodeCount := t.capacity}.getNode
  .ok {t with root := root}

def create (capacity maxTrieDepth : Nat) : Except TrieError Trie :=
  fill {capacity, maxTrieDepth, nodePool := [], freeNodeCount := 0}

def reset : Except TrieError Trie :=
  fill {t with trieEpoch := t.trieEpoch + 1, globalLru := [], path := []}

/-- One node is released from the back of the recency list. -/
def release : Except TrieError Trie := do
  let last ← orUndefined t.globalLru.getLast?
  let t := {t with globalLru := t.globalLru.dropLast}
  if (t.nodes last).child.items ≠ [] then .error .hasChildren
  else
    let parent := (t.nodes last).parent
    let lru ← orUndefined (if last ∈ (t.nodes parent).lru then
      some ((t.nodes parent).lru.erase last) else none)
    let t := t.modify parent fun x =>
      { x with
        lru := lru
        sortedChildren := eraseSorted t.nodes last x.sortedChildren
        child := x.child.erase (t.nodes last).token }
    let t := t.retireNode last
    if t.freeNodeCount < t.nodePool.length then
      .ok {t with nodePool := t.nodePool.set t.freeNodeCount last, freeNodeCount := t.freeNodeCount + 1}
    else .error .undefined

def releaseAll (t : Trie) : Nat → Except TrieError Trie
  | 0 => .ok t
  | count + 1 => do (← t.release).releaseAll count

def squeeze (count : Nat) : Except TrieError Trie :=
  if ¬ (t.nodePool.length ≥ t.freeNodeCount + count) then
    .error (.insufficientNodes (t.nodePool.length - t.freeNodeCount) count)
  else t.releaseAll count

/-! ### Insertion -/

/-- A new node is filed under a token. -/
def link (cursor : NodeId) (token : Int) (node : NodeId) : Trie :=
  let t := t.modify cursor fun x => {x with child := x.child.set token node, lru := node :: x.lru}
  let t := {t with globalLru := t.globalLru ++ [node]}
  let t := t.modify node fun x => {x with token := token, parent := cursor, freq := 1}
  t.modify cursor fun x => {x with sortedChildren := insertSorted t.nodes node x.sortedChildren}

/-- A node that is there is counted once more and moved to the front of its siblings. -/
def touch (cursor node : NodeId) : Except TrieError Trie := do
  let t :=
    t.modify cursor fun x => {x with sortedChildren := eraseSorted t.nodes node x.sortedChildren}
  let t := t.modify node fun x => {x with freq := x.freq + 1}
  let t :=
    t.modify cursor fun x => {x with sortedChildren := insertSorted t.nodes node x.sortedChildren}
  let lru ← orUndefined (Recency.splice (t.nodes cursor).lru node)
  .ok (t.modify cursor fun x => {x with lru := lru})

/-- One step of the walk, and the node it leads to. -/
def visit (cursor : NodeId) (token : Int) : Except TrieError (Trie × NodeId) :=
  match (t.nodes cursor).child.get? token with
  | none => do
    let (t, node) ← t.getNode
    .ok (t.link cursor token node, node)
  | some node => do
    let t ← t.touch cursor node
    .ok (t, node)

/-- The walk along a window, and the nodes it went through. -/
def walk (t : Trie) (cursor : NodeId) : List Int → Except TrieError (Trie × List NodeId)
  | [] => .ok (t, [])
  | token :: window => do
    let (t, node) ← t.visit cursor token
    let (t, path) ← t.walk node window
    .ok (t, node :: path)

/-- Nodes are made free if fewer are than are needed. -/
def makeRoom (needed : Nat) : Except TrieError Trie :=
  if needed > t.freeNodeCount then t.squeeze (needed - t.freeNodeCount) else .ok t

def insertWindow (window : List Int) : Except TrieError Trie := do
  let t ← t.makeRoom window.length
  let (t, path) ← t.walk t.root window
  let globalLru ← orUndefined (Recency.spliceAll t.globalLru path)
  .ok {t with globalLru := globalLru, path := path}

/-- The suffixes of the tokens are inserted one after the other, cut to the maximal depth. -/
def insert (t : Trie) : List Int → Except TrieError Trie
  | [] => .ok t
  | token :: tokens => do (← t.insertWindow ((token :: tokens).take t.maxTrieDepth)).insert tokens

/-! ### What is in the trie -/

/-- The node that tokens lead to. -/
def find (tokens : List Int) : Option NodeId :=
  tokens.foldlM (fun n token => (t.nodes n).child.get? token) t.root

def Reachable (n : NodeId) : Prop := ∃ tokens, t.find tokens = some n

inductive Op
  | insert (tokens : List Int)
  | squeeze (count : Nat)
  | reset

def step : Op → Except TrieError Trie
  | .insert tokens => t.insert tokens
  | .squeeze count => t.squeeze count
  | .reset => t.reset

end

end Trie

end Sglang.Ngram
