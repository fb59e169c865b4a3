import Aster.Local.HashRing

/-!
# The consistent hash

`ConsistentHash` puts the virtual nodes of every node on the hash ring and records which node
holds which data keys.  `AddNode` and `RemoveNode` go through the virtual nodes of a node one by
one; `migrateIn` and `migrateOut` find the data keys that a virtual node gains or loses, move
them in the records, and leave a migration task for them.

As in `Aster.Local.HashRing`, a result `none` stands for a run-time panic or for a recursion that
does not end.  The results of `roll` are given to `AddNode` as a function of the virtual node.
-/

namespace Aster.Local

/-- `math.MaxInt32`. -/
def maxInt32 : ℤ := 2 ^ 31 - 1

/-- Arithmetic on `int32` wraps around. -/
def int32 (x : ℤ) : ℤ := x.bmod (2 ^ 32)

/-- Arithmetic on `int` wraps around. -/
def int64 (x : ℤ) : ℤ := x.bmod (2 ^ 64)

/-- A hash function with values below `math.MaxInt32`. -/
structure Encryptor where
  encrypt : String → ℤ
  nonneg : ∀ origin, 0 ≤ encrypt origin
  lt : ∀ origin, encrypt origin < maxInt32

structure ConsistentHash where
  hashRing : SkiplistHashRing
  /-- A migrator is installed. -/
  migrator : Bool
  encryptor : Encryptor
  /-- The number of virtual nodes for a unit of weight. -/
  replicas : ℤ

/-- `NewConsistentHash`, with the value given to `WithReplicas`, or zero, repaired. -/
def newConsistentHash (hashRing : SkiplistHashRing) (encryptor : Encryptor) (migrator : Bool)
    (replicas : ℤ) : ConsistentHash :=
  ⟨hashRing, migrator, encryptor, if replicas ≤ 0 then 5 else replicas⟩

/-- A data migration task. -/
structure Migration where
  source : String
  target : String
  datas : Finset String
  deriving DecidableEq

def noMigration : Migration := ⟨"", "", ∅⟩

/-! ### Node keys and scores -/

def getRawNodeKey (nodeID : String) (index : ℕ) : String := nodeID ++ "_" ++ toString index

/-- `strconv.Itoa` writes the decimal digits. -/
theorem toList_toString (n : ℕ) : (toString n).toList = Nat.toDigits 10 n := by
  simp [toString, Nat.repr]

/-- The part of a node key before its last underscore. -/
def getNodeID (rawNodeKey : String) : Option String :=
  match rawNodeKey.toList.reverse.dropWhile (· ≠ '_') with
  | [] => none
  | _ :: nodeID => some (String.ofList nodeID.reverse)

/-- `strings.Split(s, "_")[0]`. -/
def splitHead (s : String) : String := String.ofList (s.toList.takeWhile (· ≠ '_'))

def incrScore (score : ℤ) : ℤ :=
  if score = maxInt32 - 1 then 0 else int32 (score + 1)

def decrScore (score : ℤ) : ℤ :=
  if score = 0 then maxInt32 - 1 else int32 (score - 1)

def getValidWeight (weight : ℤ) : ℤ :=
  if weight ≤ 0 then 1 else if 10 ≤ weight then 10 else weight

/-- Move data keys from the record of one node to that of another. -/
def SkiplistHashRing.moveDataKeys (s : SkiplistHashRing) (source target : String)
    (datas : Finset String) : SkiplistHashRing :=
  (s.deleteNodeToDataKeys source datas).addNodeToDataKeys target datas

namespace ConsistentHash

/-! ### A virtual node comes -/

/-- The test of the loop of `migrateIn` on the score of a data key. -/
def gained (lastScore virtualScore nextScore dataScore : ℤ) : Bool :=
  let patternOne : Bool := virtualScore < lastScore
  let patternTwo : Bool := nextScore < virtualScore
  let lastScore := if patternOne then int32 (lastScore - maxInt32) else lastScore
  let virtualScore := if patternTwo then int32 (virtualScore - maxInt32) else virtualScore
  let lastScore := if patternTwo then int32 (lastScore - maxInt32) else lastScore
  let dataScore :=
    if patternOne ∧ int32 (lastScore + maxInt32) < dataScore then int32 (dataScore - maxInt32)
    else dataScore
  let dataScore := if patternTwo then int32 (dataScore - maxInt32) else dataScore
  !(dataScore ≤ lastScore || virtualScore < dataScore)

def migrateIn (c : ConsistentHash) (virtualScore : ℤ) (nodeID : String) :
    Option (ConsistentHash × Except String Migration) :=
  if !c.migrator then some (c, .ok noMigration)
  else do
    match ← c.hashRing.node virtualScore with
    | .error err => some (c, .error err)
    | .ok nodes =>
      if 1 < nodes.length then some (c, .ok noMigration)
      else
        let lastScore ← c.hashRing.floor (decrScore virtualScore)
        if lastScore = -1 ∨ lastScore = virtualScore then some (c, .ok noMigration)
        else
          let nextScore ← c.hashRing.ceiling (incrScore virtualScore)
          if nextScore = -1 ∨ nextScore = virtualScore then some (c, .ok noMigration)
          else
            match ← c.hashRing.node nextScore with
            | .error err => some (c, .error err)
            | .ok [] => some (c, .ok noMigration)
            | .ok (nextNode :: _) =>
              let source ← getNodeID nextNode
              let datas := (c.hashRing.dataKeys source).filter fun dataKey =>
                gained lastScore virtualScore nextScore (c.encryptor.encrypt dataKey)
              some ({ c with hashRing := c.hashRing.moveDataKeys source nodeID datas },
                .ok ⟨source, nodeID, datas⟩)

/-! ### A virtual node goes -/

/-- The node after a score that is not `nodeID`, or the empty string. -/
def getValidNextNode (s : SkiplistHashRing) (nodeID : String) :
    ℕ → ℤ → Finset ℤ → Option (Except String String)
  | 0, _, _ => none
  | fuel + 1, score, ranged => do
    let nextScore ← s.ceiling (incrScore score)
    if nextScore = -1 then some (.ok "")
    else if nextScore ∈ ranged then some (.ok "")
    else
      match ← s.node nextScore with
      | .error err => some (.error err)
      | .ok [] => some (.error "next node empty")
      | .ok (nextNode :: nextNodes) =>
        let first ← getNodeID nextNode
        if first ≠ nodeID then some (.ok first)
        else
          match nextNodes with
          | second :: _ => do
            let second ← getNodeID second
            some (.ok second)
          | [] => getValidNextNode s nodeID fuel nextScore (insert score ranged)

/-- The test of the loop of `migrateOut` on the score of a data key. -/
def lost (lastScore virtualScore dataScore : ℤ) : Bool :=
  let pattern : Bool := virtualScore < lastScore
  let lastScore := if pattern then int32 (lastScore - maxInt32) else lastScore
  let dataScore :=
    if pattern ∧ int32 (lastScore + maxInt32) < dataScore then int32 (dataScore - maxInt32)
    else dataScore
  !(dataScore ≤ lastScore || virtualScore < dataScore)

/-- The body of `migrateOut`, without the deferred function. -/
def findMigrateOut (c : ConsistentHash) (virtualScore : ℤ) (nodeID : String) :
    Option (Except String Migration) := do
  match ← c.hashRing.node virtualScore with
  | .error err => some (.error err)
  | .ok [] => some (.ok ⟨nodeID, "", ∅⟩)
  | .ok (node :: nodes) =>
    let first ← getNodeID node
    if first ≠ nodeID then some (.ok ⟨nodeID, "", ∅⟩)
    else
      let allDatas := c.hashRing.dataKeys nodeID
      if allDatas = ∅ then some (.ok ⟨nodeID, "", ∅⟩)
      else
        let lastScore ← c.hashRing.floor (decrScore virtualScore)
        let onlyScore : Bool := lastScore = -1 ∨ lastScore = virtualScore
        if onlyScore ∧ nodes = [] then some (.error "no other no")
        else
          let datas := allDatas.filter fun data =>
            onlyScore ∨ lost lastScore virtualScore (c.encryptor.encrypt data)
          match nodes with
          | second :: _ => do
            let second ← getNodeID second
            some (.ok ⟨nodeID, second, datas⟩)
          | [] =>
            match ← getValidNextNode c.hashRing nodeID c.hashRing.size virtualScore ∅ with
            -- the source overwrites the error with that of `Floor`, which is nil
            | .error _ => some (.ok ⟨nodeID, "", datas⟩)
            | .ok target =>
              if target = "" then some (.error "no other node")
              else some (.ok ⟨nodeID, target, datas⟩)

def migrateOut (c : ConsistentHash) (virtualScore : ℤ) (nodeID : String) :
    Option (ConsistentHash × Except String Migration) :=
  if !c.migrator then some (c, .ok noMigration)
  else do
    match ← c.findMigrateOut virtualScore nodeID with
    | .error err => some (c, .error err)
    | .ok task =>
      if task.target = "" ∨ task.datas = ∅ then some (c, .ok task)
      else some ({ c with
        hashRing := c.hashRing.moveDataKeys nodeID task.target task.datas }, .ok task)

/-! ### The calls -/

/-- The tasks so far and a new one, when it has data. -/
def addTask (migrateTasks : List Migration) (task : Migration) : List Migration :=
  if task.datas = ∅ then migrateTasks else migrateTasks ++ [task]

/-- The loop of `AddNode` over the virtual nodes from `i` on. -/
def addLoop (nodeID : String) (rolls : ℕ → ℕ) :
    ℕ → ℕ → ConsistentHash → List Migration →
      Option (ConsistentHash × Except String (List Migration))
  | 0, _, c, migrateTasks => some (c, .ok migrateTasks)
  | left + 1, i, c, migrateTasks => do
    let nodeKey := getRawNodeKey nodeID i
    let virtualScore := c.encryptor.encrypt nodeKey
    let hashRing ← c.hashRing.add virtualScore nodeKey (rolls i)
    match ← migrateIn { c with hashRing := hashRing } virtualScore nodeID with
    | (c, .error err) => some (c, .error err)
    | (c, .ok task) => addLoop nodeID rolls left (i + 1) c (addTask migrateTasks task)

/-- `AddNode`, with the tasks it hands to `batchExecuteMigrator`. -/
def addNode (c : ConsistentHash) (nodeID : String) (weight : ℤ) (rolls : ℕ → ℕ) :
    Option (ConsistentHash × Except String (List Migration)) :=
  if nodeID ∈ c.hashRing.nodes then some (c, .error "repeat node")
  else
    let replicas := int64 (getValidWeight weight * c.replicas)
    addLoop nodeID rolls replicas.toNat 0
      { c with hashRing := c.hashRing.addNodeToReplica nodeID replicas } []

/-- The loop of `RemoveNode` over the virtual nodes from `i` on. -/
def removeLoop (nodeID : String) :
    ℕ → ℕ → ConsistentHash → List Migration →
      Option (ConsistentHash × Except String (List Migration))
  | 0, _, c, migrateTasks => some (c, .ok migrateTasks)
  | left + 1, i, c, migrateTasks => do
    let virtualScore := c.encryptor.encrypt (getRawNodeKey nodeID i)
    match ← c.migrateOut virtualScore nodeID with
    | (c, .error err) => some (c, .error err)
    | (c, .ok task) =>
      match ← c.hashRing.rem virtualScore (getRawNodeKey nodeID i) with
      | (hashRing, some err) => some ({ c with hashRing := hashRing }, .error err)
      | (hashRing, none) =>
        removeLoop nodeID left (i + 1) { c with hashRing := hashRing } (addTask migrateTasks task)

/-- `RemoveNode`, with the tasks it hands to `batchExecuteMigrator`. -/
def removeNode (c : ConsistentHash) (nodeID : String) :
    Option (ConsistentHash × Except String (List Migration)) :=
  match c.hashRing.nodes.lookup nodeID with
  | none => some (c, .error "invalid node id")
  | some replicas =>
    removeLoop nodeID replicas.toNat 0
      { c with hashRing := c.hashRing.deleteNodeToReplica nodeID } []

def getNode (c : ConsistentHash) (dataKey : String) :
    Option (ConsistentHash × Except String String) := do
  let ceilingScore ← c.hashRing.ceiling (c.encryptor.encrypt dataKey)
  if ceilingScore = -1 then some (c, .error "no node available")
  else
    match ← c.hashRing.node ceilingScore with
    | .error err => some (c, .error err)
    | .ok [] => some (c, .error "no node available with empty score")
    | .ok (node :: _) =>
      let nodeID ← getNodeID node
      some ({ c with hashRing := c.hashRing.addNodeToDataKeys nodeID {dataKey} },
        .ok (splitHead node))

end ConsistentHash

end Aster.Local
