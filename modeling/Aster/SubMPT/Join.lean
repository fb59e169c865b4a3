import Aster.SubMPT.Proposer
import Aster.SubMPT.Migrator
import Aster.Local.Placement
import Aster.Lib.AccessLog

/-!
# Followers that join

A proposer with its followers, seen over many batches and joins.  Three rules say who owns an
account:

* the proposer routes a transaction by the length of `FollowerIDs`, which grows with every join;
* a follower tests ownership with the `FollowerNum` of its own process, which never changes;
* data moves with the consistent hash.

A join is one step here, from `handleFollowerJoin` at the proposer to the end of the migration
tasks; it carries the interleaving of the tasks.  A batch is scheduled in one step, and each
follower executes its message in a step of its own, under `MPTMutex`.

The state records the history of executed halves, which no step reads.
-/

namespace Aster.SubMPT

open Aster.Core Aster.Local Aster.Lib Aster.Lib.Transition

/-- The two halves of a transaction. -/
inductive Half where
  | debit
  | credit
  deriving DecidableEq

/-- The account that the half touches. -/
def Half.account : Half → Transaction → Address
  | .debit, tx => tx.sender
  | .credit, tx => tx.recipient

/-- A half that a follower executed, with the balance it read and the balance it left. -/
structure Execution where
  half : Half
  tx : Transaction
  followerID : ℕ
  read : ℤ
  left : ℤ
  deriving DecidableEq

def Execution.account (e : Execution) : Address := e.half.account e.tx

/-- The sender's half, from `st` to `st'`. -/
def debitExecution (f : FollowerNode) (i : ℕ) (st st' : Trie) (tx : Transaction) : Execution :=
  ⟨.debit, tx, f.followerID, (fetch st tx.sender i).balance, balanceOf st' tx.sender⟩

/-- The recipient's half. -/
def creditExecution (f : FollowerNode) (i : ℕ) (st : Trie) (tx : Transaction) : Execution :=
  ⟨.credit, tx, f.followerID, (fetch st tx.recipient i).balance,
    balanceOf (creditRecipient st i tx) tx.recipient⟩

/-- The halves that `processTx` executes, the latest first. -/
def executeTx (f : FollowerNode) (i : ℕ) (st : Trie) (tx : Transaction) : List Execution :=
  match prefixes tx with
  | .outOfRange | .syntaxError => []
  | .digits dec1 dec2 =>
    let destId1 := dec1 % f.followerNum
    let destId2 := dec2 % f.followerNum
    match if destId1 = f.followerID then debitSender st i tx else some st with
    | none => []
    | some st' =>
      (if destId2 = f.followerID then [creditExecution f i st' tx] else []) ++
        if destId1 = f.followerID then [debitExecution f i st st' tx] else []

/-- The halves that the loop of `ProcessTxs` executes from position `i` on. -/
def executeTxs (f : FollowerNode) : ℕ → Trie → List Transaction → List Execution
  | _, _, [] => []
  | i, st, tx :: txs =>
    match processTx f i st tx with
    | none => []
    | some (st', _) => executeTxs f (i + 1) st' txs ++ executeTx f i st tx

structure JoinSys where
  consistentHash : ConsistentHash
  followerIDs : List ℕ
  readyMap : Finset ℕ
  epochId : ℕ
  /-- The followers, by the id under which the proposer has their address. -/
  followers : List FollowerNode
  allocMsgs : List AllocateTxMsgs
  /-- History: what `SchedulingTxs` put into `allocMap`. -/
  allocated : List Transaction
  /-- History: the executed halves, the latest first. -/
  executions : List Execution

inductive JoinLabel where
  /-- The goroutines of `SchedulingTxs` take the lock in the order `order`. -/
  | schedule (order : List Transaction) (times : Transaction → TxTimes)
  | process (k : ℕ) (clk : Clock)
  /-- A process with this `FollowerNum` joins. -/
  | join (followerNum : ℕ) (rolls : ℕ → ℕ) (interleaving : List MigratorLabel)

namespace JoinSys

/-- `SchedulingTxs` and its `TxAllocate` calls, which skip the followers that are not ready. -/
def schedule (s : JoinSys) (order : List Transaction) (times : Transaction → TxTimes) :
    Option JoinSys := do
  let allocMap ← allocTxs s.followerIDs.length order
  let ready := s.followerIDs.dedup.filter (· ∈ s.readyMap)
  some { s with
    epochId := s.epochId + 1
    allocMsgs := s.allocMsgs ++
      ready.map fun fid => Allocation.message ⟨s.epochId + 1, fid, allocMap fid⟩ times
    allocated := s.allocated ++ order.filter HexLeading }

/-- A follower runs `ProcessTxs`. -/
def process (s : JoinSys) (k : ℕ) (clk : Clock) : Option JoinSys := do
  let msg ← s.allocMsgs[k]?
  let f ← s.followers[msg.followerID]?
  let (f', _, _) ← processTxs clk f msg.txs
  some { s with
    allocMsgs := s.allocMsgs.eraseIdx k
    followers := s.followers.set msg.followerID f'
    executions := executeTxs f 0 f.state (msg.txs.map (·.tx)) ++ s.executions }

/-- The state tries, by follower. -/
def tries (followers : List FollowerNode) (fid : ℕ) : Trie :=
  (followers[fid]?.map (·.state)).getD ∅

/-- `handleFollowerJoin`: the new follower gets its id (`handleProposerAllocateFID`), the tasks
of `AddNode` run, and the targets that received data report that they are ready. -/
def join (s : JoinSys) (followerNum : ℕ) (rolls : ℕ → ℕ) (interleaving : List MigratorLabel) :
    Option JoinSys := do
  let newNodeId := s.followerIDs.length
  let followers := s.followers ++ [⟨newNodeId, followerNum, ∅⟩]
  let (consistentHash, result) ← s.consistentHash.addNode (toString newNodeId) 1 rolls
  let tasks := result.toOption.getD []
  let migrated ← run migratorStep anyStep (startMigrator tasks (tries followers)) interleaving
  if migrated.Finished then
    some { s with
      consistentHash := consistentHash
      followerIDs := s.followerIDs ++ [newNodeId]
      readyMap := s.readyMap ∪ (tasks.map fun t => atoi t.target).toFinset
      followers := followers.mapIdx fun fid f => { f with state := migrated.followers fid } }
  else none

end JoinSys

def joinStep (s : JoinSys) : JoinLabel → Option JoinSys
  | .schedule order times => s.schedule order times
  | .process k clk => s.process k clk
  | .join followerNum rolls interleaving => s.join followerNum rolls interleaving

/-- `NewProposerNode` with followers `0, ..., n - 1`, all ready, which were started with
`FollowerNum = n`. -/
def newProposerNode (n : ℕ) (encryptor : Encryptor) (rolls : ℕ → ℕ → ℕ) : Option JoinSys := do
  let consistentHash ←
    (newConsistentHash newSkiplistHashRing encryptor true 2).callsWithoutError
      ((List.range n).map fun i => .addNode (toString i) 1 (rolls i))
  some {
    consistentHash := consistentHash
    followerIDs := List.range n
    readyMap := Finset.range n
    epochId := 1
    followers := (List.range n).map fun i => ⟨i, n, ∅⟩
    allocMsgs := []
    allocated := []
    executions := [] }

/-- The states in which a system with `n` followers starts. -/
def StartsWith (n : ℕ) (encryptor : Encryptor) (s : JoinSys) : Prop :=
  ∃ rolls, newProposerNode n encryptor rolls = some s

/-! ### Ownership agreement -/

def Execution.isHalf (half : Half) (tx : Transaction) (e : Execution) : Bool :=
  decide (e.half = half ∧ e.tx = tx)

/-- Every execution read the balance that the latest execution on its account left, at whatever
follower. -/
def ReadsLatest (executions : List Execution) : Prop :=
  AccessLog.Coherent Execution.account Execution.read Execution.left initBalance executions

/-- Each half of an allocated transaction is executed exactly once, and at most once while it is
still in a message; all copies of a transaction have it executed by one follower; and every
execution reads the latest balance. -/
structure OwnershipAgreement (s : JoinSys) : Prop where
  atMostOnce : ∀ half tx, s.executions.countP (·.isHalf half tx) ≤ s.allocated.count tx
  exactlyOnce : ∀ half tx, (∀ msg ∈ s.allocMsgs, tx ∉ msg.txs.map (·.tx)) →
    s.executions.countP (·.isHalf half tx) = s.allocated.count tx
  oneFollower : ∀ e ∈ s.executions, ∀ e' ∈ s.executions, e.half = e'.half → e.tx = e'.tx →
    e.followerID = e'.followerID
  readsLatest : ReadsLatest s.executions

end Aster.SubMPT
