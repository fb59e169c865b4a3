import Aster.Lib.LinkedList
import Mathlib.Data.Finmap
import Mathlib.Tactic

/-!
# The hash ring: a skip list of virtual nodes

`SkiplistHashRing` keeps virtual nodes in a skip list ordered by score.  A node has one pointer
for each of its levels; the root has as many as the highest node.  The nodes live in a heap, and
every operation moves a cursor along one level and then down to the next.

The random level of a new node is a parameter.  A result `none` stands for a run-time panic (a
nil pointer or an index out of range) or for a loop that does not end within `size` rounds, and
`Aster.Local.SkipList` shows that neither happens.
-/

namespace Aster.Local

open Aster.Lib.LinkedList

abbrev Ptr := ℕ

structure VirtualNode where
  score : ℤ
  nodeIDs : List String
  nexts : List (Option Ptr)
  deriving DecidableEq

abbrev Heap := Ptr → VirtualNode

structure SkiplistHashRing where
  heap : Heap
  /-- The first free address. -/
  size : ℕ
  /-- The number of virtual nodes of each node. -/
  nodeToReplicas : Finmap fun _ : String => ℤ
  nodeToDataKey : Finmap fun _ : String => Finset String

/-- The address of the root. -/
def root : Ptr := 0

def newSkiplistHashRing : SkiplistHashRing :=
  ⟨fun _ => ⟨0, [], []⟩, 1, ∅, ∅⟩

/-! ### Moving the cursor -/

/-- `p.nexts[level]`. -/
def next (h : Heap) (level : ℕ) (p : Ptr) : Option (Option Ptr) := (h p).nexts[level]?

/-- The inner loop of every operation: move along a level while the next score meets the
condition. -/
def advance (h : Heap) (cont : ℤ → Bool) (fuel level : ℕ) (move : Ptr) : Option Ptr :=
  walk (next h level) (fun q => cont (h q).score) fuel move

/-- The outer loop of the lookups, over the levels below `level`, from high to low. -/
def descend (h : Heap) (cont : ℤ → Bool) (fuel : ℕ) : ℕ → Ptr → Option Ptr
  | 0, move => some move
  | level + 1, move => do
    let move ← advance h cont fuel level move
    descend h cont fuel level move

/-- The loop of `get`. -/
def getLoop (h : Heap) (score : ℤ) (fuel : ℕ) : ℕ → Ptr → Option (Option Ptr)
  | 0, _ => some none
  | level + 1, move => do
    let move ← advance h (· < score) fuel level move
    match ← next h level move with
    | none => getLoop h score fuel level move
    | some p => if (h p).score = score then some (some p) else getLoop h score fuel level move

namespace SkiplistHashRing

/-- `len(s.root.nexts)`. -/
def levels (s : SkiplistHashRing) : ℕ := (s.heap root).nexts.length

def get (s : SkiplistHashRing) (score : ℤ) : Option (Option Ptr) :=
  getLoop s.heap score s.size s.levels root

/-- The unexported `ceiling`, with its flag. -/
def ceiling? (s : SkiplistHashRing) (score : ℤ) : Option (ℤ × Bool) :=
  if s.levels = 0 then some (-1, false)
  else do
    let move ← descend s.heap (· < score) s.size s.levels root
    match ← next s.heap 0 move with
    | none => some (-1, false)
    | some p => some ((s.heap p).score, true)

def first? (s : SkiplistHashRing) : Option (ℤ × Bool) :=
  if s.levels = 0 then some (-1, false)
  else do
    match ← next s.heap 0 root with
    | none => none
    | some p => some ((s.heap p).score, true)

/-- The unexported `floor`, with its flag. -/
def floor? (s : SkiplistHashRing) (score : ℤ) : Option (ℤ × Bool) :=
  if s.levels = 0 then some (-1, false)
  else do
    let move ← descend s.heap (· < score) s.size s.levels root
    let nxt ← next s.heap 0 move
    if nxt.any fun p => (s.heap p).score = score then some (score, true)
    else if move = root then some (-1, false)
    else some ((s.heap move).score, true)

def last? (s : SkiplistHashRing) : Option (ℤ × Bool) := do
  let move ← descend s.heap (fun _ => true) s.size s.levels root
  if move = root then some (-1, false) else some ((s.heap move).score, true)

/-- `Ceiling`. -/
def ceiling (s : SkiplistHashRing) (score : ℤ) : Option ℤ := do
  let (target, ok) ← s.ceiling? score
  if ok then some target
  else
    let (first, _) ← s.first?
    some first

/-- `Floor`. -/
def floor (s : SkiplistHashRing) (score : ℤ) : Option ℤ := do
  let (target, ok) ← s.floor? score
  if ok then some target
  else
    let (last, _) ← s.last?
    some last

def scoreNotExist (score : ℤ) : String := s!"score: {score} not exist"

def nodeNotExist (nodeID : String) (score : ℤ) : String :=
  s!"node: {nodeID} not exist in score: {score}"

def node (s : SkiplistHashRing) (score : ℤ) : Option (Except String (List String)) := do
  match ← s.get score with
  | none => some (.error (scoreNotExist score))
  | some p => some (.ok (s.heap p).nodeIDs)

end SkiplistHashRing

/-! ### Changing the list -/

/-- `p.nexts[level] = q`. -/
def setNext (h : Heap) (p : Ptr) (level : ℕ) (q : Option Ptr) : Heap :=
  Function.update h p { h p with nexts := (h p).nexts.set level q }

def setNodeIDs (h : Heap) (p : Ptr) (nodeIDs : List String) : Heap :=
  Function.update h p { h p with nodeIDs := nodeIDs }

def setNexts (h : Heap) (p : Ptr) (nexts : List (Option Ptr)) : Heap :=
  Function.update h p { h p with nexts := nexts }

/-- The loop of `Add`: link the new node into the levels below `level`. -/
def spliceIn (score : ℤ) (newNode : Ptr) (fuel : ℕ) : ℕ → Ptr → Heap → Option Heap
  | 0, _, h => some h
  | level + 1, move, h => do
    let move ← advance h (· < score) fuel level move
    let nxt ← next h level move
    spliceIn score newNode fuel level move
      (setNext (setNext h newNode level nxt) move level (some newNode))

/-- The loop of `Rem`: unlink the node with the score from the levels below `level`. -/
def spliceOut (score : ℤ) (fuel : ℕ) : ℕ → Ptr → Heap → Option Heap
  | 0, _, h => some h
  | level + 1, move, h => do
    let move ← advance h (· < score) fuel level move
    match ← next h level move with
    | none => spliceOut score fuel level move h
    | some p =>
      if score < (h p).score then spliceOut score fuel level move h
      else
        let nxt ← next h level p
        spliceOut score fuel level move (setNext h move level nxt)

/-- Cut the levels of the root at the first empty one. -/
def truncateRoot (h : Heap) : Heap :=
  setNexts h root ((h root).nexts.takeWhile (·.isSome))

namespace SkiplistHashRing

/-- `Add`, with `rLevel` the result of `roll`. -/
def add (s : SkiplistHashRing) (score : ℤ) (nodeID : String) (rLevel : ℕ) :
    Option SkiplistHashRing := do
  match ← s.get score with
  | some targetNode =>
    if nodeID ∈ (s.heap targetNode).nodeIDs then some s
    else some { s with
      heap := setNodeIDs s.heap targetNode ((s.heap targetNode).nodeIDs ++ [nodeID]) }
  | none =>
    let h := setNexts s.heap root
      ((s.heap root).nexts ++ List.replicate (rLevel + 1 - s.levels) none)
    let newNode := s.size
    let h := Function.update h newNode ⟨score, [nodeID], List.replicate (rLevel + 1) none⟩
    let h ← spliceIn score newNode (s.size + 1) (rLevel + 1) root h
    some { s with heap := h, size := s.size + 1 }

/-- `Rem`, with the error it returns. -/
def rem (s : SkiplistHashRing) (score : ℤ) (nodeID : String) :
    Option (SkiplistHashRing × Option String) := do
  match ← s.get score with
  | none => some (s, some (scoreNotExist score))
  | some targetNode =>
    if nodeID ∉ (s.heap targetNode).nodeIDs then some (s, some (nodeNotExist nodeID score))
    else
      let s := { s with nodeToDataKey := s.nodeToDataKey.erase nodeID }
      if 1 < (s.heap targetNode).nodeIDs.length then
        some ({ s with
          heap := setNodeIDs s.heap targetNode ((s.heap targetNode).nodeIDs.erase nodeID) }, none)
      else
        let h ← spliceOut score s.size s.levels root s.heap
        some ({ s with heap := truncateRoot h }, none)

/-! ### The maps beside the list -/

def nodes (s : SkiplistHashRing) : Finmap fun _ : String => ℤ := s.nodeToReplicas

def addNodeToReplica (s : SkiplistHashRing) (nodeID : String) (replicas : ℤ) :
    SkiplistHashRing :=
  { s with nodeToReplicas := s.nodeToReplicas.insert nodeID replicas }

def deleteNodeToReplica (s : SkiplistHashRing) (nodeID : String) : SkiplistHashRing :=
  { s with nodeToReplicas := s.nodeToReplicas.erase nodeID }

/-- `DataKeys`; the nil map is the empty set. -/
def dataKeys (s : SkiplistHashRing) (nodeID : String) : Finset String :=
  (s.nodeToDataKey.lookup nodeID).getD ∅

def addNodeToDataKeys (s : SkiplistHashRing) (nodeID : String) (dataKeys : Finset String) :
    SkiplistHashRing :=
  { s with nodeToDataKey := s.nodeToDataKey.insert nodeID (s.dataKeys nodeID ∪ dataKeys) }

def deleteNodeToDataKeys (s : SkiplistHashRing) (nodeID : String) (dataKeys : Finset String) :
    SkiplistHashRing :=
  match s.nodeToDataKey.lookup nodeID with
  | none => s
  | some oldDataKeys =>
    if oldDataKeys \ dataKeys = ∅ then
      { s with nodeToDataKey := s.nodeToDataKey.erase nodeID }
    else { s with nodeToDataKey := s.nodeToDataKey.insert nodeID (oldDataKeys \ dataKeys) }

end SkiplistHashRing

end Aster.Local
