import Aster.Chain.Ledger
import Aster.Lib.Transition

/-!
# Account transfer between the leaders of the shards

A round of re-partitioning, as `CLPAPbftInsideExtraHandleMod` and `CLPARelayOutsideModule` run it
at the leaders of the shards: `sendAccounts_and_Txs`, the messages between the leaders,
`proposePartition` and `accountTransfer_do`.

* Each leader makes these calls in this order; the calls of different leaders interleave.
* The iterations over maps take their keys in any order, which the step is given.
* `none` is a panic.  `CurChain.Txpool` is nil after `NewBlockChain`, and all calls that use it
  then panic.

`PartitionOn`, `PartitionReady` and `ReadySeq`, which only decide when a round begins, are left
out.
-/

namespace Aster.Clpa

open Aster.Core Aster.Chain

/-- The shards of the system.  Roots tell a trie from the empty one and from the zero hash. -/
structure Shards where
  chain : ChainConfig
  /-- `ShardNums`. -/
  shardNums : UInt64
  shardNum_eq : chain.shardNum = shardNums.toNat
  root_empty : ∀ st, chain.stateRoot st = chain.stateRoot ∅ → st = ∅
  root_zero : ∀ st, chain.stateRoot st ≠ List.replicate 32 0

/-- The configuration of the chain of one shard. -/
def Shards.config (sh : Shards) (i : UInt64) : ChainConfig := { sh.chain with shardID := i }

/-- A trie that was committed is read back under its root. -/
theorem Shards.trieNew_insert (sh : Shards) (i : UInt64) (triedb : TrieDb) (st : Trie) :
    trieNew (sh.config i) (triedb.insert ((sh.config i).stateRoot st) st)
      ((sh.config i).stateRoot st) = some st := by
  unfold trieNew
  split_ifs with hspecial
  · rcases hspecial with hzero | hempty
    · exact absurd hzero (sh.root_zero st)
    · rw [sh.root_empty st hempty]
  · exact Finmap.lookup_insert _

/-- The ids of the shards, in order. -/
def Shards.ids (sh : Shards) : List UInt64 := (List.range sh.shardNums.toNat).map UInt64.ofNat

structure AccountStateAndTx where
  addrs : List Address
  accountState : List AccountState
  fromShard : UInt64
  txs : List PoolTx
  deriving DecidableEq

structure AccountTransferMsg where
  modifiedMap : PartitionMap
  addrs : List Address
  accountState : List AccountState
  atid : ℕ

/-- The leader of a shard: its chain with `Txpool`, and its `Data_supportCLPA`. -/
structure Leader where
  ledger : Ledger
  /-- The queue of `Txpool`; `none` is nil. -/
  txpool : Option (List PoolTx)
  modifiedMap : List PartitionMap
  accountTransferRound : ℕ
  receivedNewAccountState : Finmap fun _ : Address => AccountState
  receivedNewTx : List PoolTx
  accountStateTx : Finmap fun _ : UInt64 => AccountStateAndTx
  collectOver : Bool

/-- `keys` is an order in which a map can be iterated. -/
def Iterates {K V : Type*} [DecidableEq K] (m : Finmap fun _ : K => V) (keys : List K) : Prop :=
  keys.Nodup ∧ keys.toFinset = m.keys

instance {K V : Type*} [DecidableEq K] (m : Finmap fun _ : K => V) (keys : List K) :
    Decidable (Iterates m keys) := inferInstanceAs (Decidable (_ ∧ _))

/-! ### Sending -/

/-- The account leaves the shard; the owner is only looked up when the new map puts it
elsewhere. -/
def leaves (cfg : ChainConfig) (l : Ledger) (m : PartitionMap) (key : Address) : Option Bool :=
  if m.lookup key = some cfg.shardID then some false else l.owns cfg key

/-- The accounts that leave the shard, in the order of the iteration. -/
def accountToFetch (cfg : ChainConfig) (l : Ledger) (m : PartitionMap) :
    List Address → Option (List Address)
  | [] => some []
  | key :: keys => do
    let goes ← leaves cfg l m key
    let rest ← accountToFetch cfg l m keys
    some (if goes then key :: rest else rest)

/-- A transaction of the pool goes with the accounts that are sent: by its sender, or by its
recipient when it is relayed. -/
def goesWith (addrs : List Address) (p : PoolTx) : Bool :=
  if p.relayed then p.tx.recipient ∈ addrs else p.tx.sender ∈ addrs

/-- The loop over the other shards, with what is left of the pool. -/
def sendLoop (self : UInt64) (m : PartitionMap) (fetched : List (Address × AccountState)) :
    List UInt64 → List PoolTx → List (UInt64 × AccountStateAndTx) × List PoolTx
  | [], queue => ([], queue)
  | i :: is, queue =>
    let send := fetched.filter fun e => m.lookup e.1 = some i
    let addrs := send.map (·.1)
    let txs := queue.filter (goesWith addrs)
    let (msgs, rest) := sendLoop self m fetched is (queue.filter fun p => !goesWith addrs p)
    ((i, ⟨addrs, send.map (·.2), self, txs⟩) :: msgs, rest)

/-- `sendAccounts_and_Txs`, with the order of the iteration over the last modified map. -/
def sendAccountsAndTxs (sh : Shards) (i : UInt64) (l : Leader) (keys : List Address) :
    Option (Leader × List (UInt64 × AccountStateAndTx)) := do
  let m ← l.modifiedMap.getLast?
  let addrs ← accountToFetch (sh.config i) l.ledger m keys
  let states ← fetchAccounts (sh.config i) l.ledger addrs
  let queue ← l.txpool
  let (msgs, rest) := sendLoop i m (addrs.zip states) (sh.ids.filter (· ≠ i)) queue
  some ({ l with txpool := some rest }, msgs)

/-- `handleAccountStateAndTxMsg`. -/
def handleAccountStateAndTxMsg (sh : Shards) (l : Leader) (msg : AccountStateAndTx) : Leader :=
  let pool := l.accountStateTx.insert msg.fromShard msg
  { l with
    accountStateTx := pool
    collectOver := l.collectOver || (pool.keys.card + 1 = sh.shardNums.toNat : Bool) }

/-! ### Proposing -/

/-- The accounts of one message; a state that is missing is an index out of range. -/
def receiveAccounts : List Address → List AccountState →
    (Finmap fun _ : Address => AccountState) → Option (Finmap fun _ : Address => AccountState)
  | [], _, received => some received
  | _ :: _, [], _ => none
  | addr :: addrs, state :: states, received =>
    receiveAccounts addrs states (received.insert addr state)

/-- The messages of the pool, in the order of the iteration. -/
def receiveAll (pool : Finmap fun _ : UInt64 => AccountStateAndTx) :
    List UInt64 → (Finmap fun _ : Address => AccountState) × List PoolTx →
      Option ((Finmap fun _ : Address => AccountState) × List PoolTx)
  | [], res => some res
  | j :: js, (received, txs) => do
    let msg ← pool.lookup j
    let received ← receiveAccounts msg.addrs msg.accountState received
    receiveAll pool js (received, txs ++ msg.txs)

/-- The new map puts a received transaction into this shard; a key that is missing reads as 0. -/
def belongs (i : UInt64) (m : PartitionMap) (p : PoolTx) : Bool :=
  (m.lookup (if p.relayed then p.tx.recipient else p.tx.sender)).getD 0 == i

/-- `proposePartition`, with the orders of its two iterations. -/
def proposePartition (i : UInt64) (l : Leader) (js : List UInt64) (addrs : List Address) :
    Option (Leader × AccountTransferMsg) := do
  let (received, txs) ←
    receiveAll l.accountStateTx js (l.receivedNewAccountState, l.receivedNewTx)
  let m ← l.modifiedMap[l.accountTransferRound]?
  -- the log panics with "error tx"
  if txs.all (belongs i m) = false then none
  else do
    let queue ← l.txpool
    if Iterates received addrs then
      let states ← addrs.mapM fun addr => received.lookup addr
      some ({ l with
          receivedNewAccountState := received
          receivedNewTx := txs
          txpool := some (queue ++ txs) },
        ⟨m, addrs, states, l.modifiedMap.length⟩)
    else none

/-! ### Applying -/

/-- `accountTransfer_do`. -/
def accountTransferDo (sh : Shards) (i : UInt64) (l : Leader) (atm : AccountTransferMsg) :
    Option Leader := do
  let ledger ← addAccounts (sh.config i)
    { l.ledger with partitionMap := atm.modifiedMap ∪ l.ledger.partitionMap }
    atm.addrs atm.accountState
  some { l with
    ledger := ledger
    modifiedMap := if l.modifiedMap.length = atm.atid then l.modifiedMap
      else l.modifiedMap ++ [atm.modifiedMap]
    accountTransferRound := atm.atid
    accountStateTx := ∅
    receivedNewAccountState := ∅
    receivedNewTx := []
    collectOver := false }

/-! ### The round -/

inductive Stage where
  | ready
  | sent
  | proposed (atm : AccountTransferMsg)
  | done

instance : (stage : Stage) → Decidable (stage = .done)
  | .ready => isFalse nofun
  | .sent => isFalse nofun
  | .proposed _ => isFalse nofun
  | .done => isTrue rfl

/-- The wait of `HandleinPropose` between sending and proposing is over.  With one shard no message
comes and the wait has no end; the leader is taken to go on. -/
def Collected (sh : Shards) (i : UInt64) (l : Leader) : Prop :=
  l.collectOver = true ∨ sh.ids = [i]

instance (sh : Shards) (i : UInt64) (l : Leader) : Decidable (Collected sh i l) :=
  inferInstanceAs (Decidable (_ ∨ _))

structure Round where
  leaders : UInt64 → Leader
  stage : UInt64 → Stage
  /-- The messages on their way, with their receivers. -/
  network : List (UInt64 × AccountStateAndTx)

inductive RoundMove where
  | send (i : UInt64) (keys : List Address)
  | deliver (k : ℕ)
  | propose (i : UInt64) (js : List UInt64) (addrs : List Address)
  | apply (i : UInt64)

namespace Round

def set (s : Round) (i : UInt64) (l : Leader) (stage : Stage) : Round :=
  { s with
    leaders := Function.update s.leaders i l
    stage := Function.update s.stage i stage }

def send (sh : Shards) (s : Round) (i : UInt64) (keys : List Address) : Option Round :=
  match s.stage i with
  | .ready => do
    let m ← (s.leaders i).modifiedMap.getLast?
    if Iterates m keys then
      let (l, msgs) ← sendAccountsAndTxs sh i (s.leaders i) keys
      some { s.set i l .sent with network := s.network ++ msgs }
    else none
  | _ => none

def deliver (sh : Shards) (s : Round) (k : ℕ) : Option Round := do
  let (i, msg) ← s.network[k]?
  some { s with
    leaders := Function.update s.leaders i (handleAccountStateAndTxMsg sh (s.leaders i) msg)
    network := s.network.eraseIdx k }

def propose (sh : Shards) (s : Round) (i : UInt64) (js : List UInt64) (addrs : List Address) :
    Option Round :=
  match s.stage i with
  | .sent =>
    if Collected sh i (s.leaders i) ∧ Iterates (s.leaders i).accountStateTx js then do
      let (l, atm) ← proposePartition i (s.leaders i) js addrs
      some (s.set i l (.proposed atm))
    else none
  | _ => none

def apply (sh : Shards) (s : Round) (i : UInt64) : Option Round :=
  match s.stage i with
  | .proposed atm => do
    let l ← accountTransferDo sh i (s.leaders i) atm
    some (s.set i l .done)
  | _ => none

end Round

def roundStep (sh : Shards) (s : Round) : RoundMove → Option Round
  | .send i keys => if i < sh.shardNums then s.send sh i keys else none
  | .deliver k => s.deliver sh k
  | .propose i js addrs => s.propose sh i js addrs
  | .apply i => s.apply sh i

/-- All shards have applied their proposals. -/
def Round.Finished (sh : Shards) (s : Round) : Prop := ∀ i ∈ sh.ids, s.stage i = .done

-- by the list, not by all numbers of 64 bits
instance (sh : Shards) (s : Round) : Decidable (s.Finished sh) :=
  List.decidableBAll (fun i => s.stage i = .done) sh.ids

/-- All shards hold the partition map `pm` and have the one pending map `m`, which names shards
only, and nothing of an earlier round is left. -/
structure Pending (sh : Shards) (pm m : PartitionMap) (s : Round) : Prop where
  shards : ∀ a i, m.lookup a = some i → i < sh.shardNums
  maps : ∀ i < sh.shardNums, (s.leaders i).ledger.partitionMap = pm
  modified : ∀ i < sh.shardNums, (s.leaders i).modifiedMap.getLast? = some m ∧
    (s.leaders i).modifiedMap.length = (s.leaders i).accountTransferRound + 1
  empty : ∀ i < sh.shardNums, (s.leaders i).accountStateTx = ∅ ∧
    (s.leaders i).receivedNewAccountState = ∅ ∧ (s.leaders i).receivedNewTx = [] ∧
    (s.leaders i).collectOver = false
  ready : ∀ i, s.stage i = .ready
  network : s.network = []

/-- Two shards with the chain of `shortConfig`. -/
def shortShards : Shards where
  chain := { shortConfig with shardNum := 2 }
  shardNums := 2
  shardNum_eq := rfl
  root_empty := by
    intro st h
    by_contra hne
    have hroots : (if st = ∅ then List.replicate 32 1 else List.replicate 32 2 : Hash) =
        if (∅ : Trie) = ∅ then List.replicate 32 1 else List.replicate 32 2 := h
    rw [if_neg hne, if_pos rfl] at hroots
    exact absurd hroots (by decide)
  root_zero := by
    intro st
    show (if st = ∅ then List.replicate 32 1 else List.replicate 32 2 : Hash) ≠ List.replicate 32 0
    split_ifs <;> decide

end Aster.Clpa
