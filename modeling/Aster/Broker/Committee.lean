import Aster.Chain.Ledger
import Aster.Core.Injection
import Aster.Lib.Transition

/-!
# The broker committee of the supervisor

`dealTxByBroker` replaces a transaction between two shards by two transactions with a broker: `tx1`
from the sender to the broker at once, and `tx2` from the broker to the recipient when a shard
reports a block with `tx1`.  The committee finds its way back by two pools of confirmations, by
the raw messages under their digests and by `RawTx2BrokerTx` under the hash of the raw
transaction.

The two committees, with and without CLPA, have the same code for this and differ in
`fetchModifiedMap`; without CLPA the modified map is empty.

* `none` is a panic: an address whose shard cannot be worked out, or no broker.
* Every new transaction reads the clock; `clk k` is the reading for the `k`-th one of a call.
* Calls with empty lists of messages, which the source leaves out, do nothing.
-/

namespace Aster.Broker

open Aster.Core Aster.Chain

/-- A transaction with the marks of the broker protocol. -/
structure BrokerTx where
  tx : Transaction
  hasBroker : Bool
  senderIsBroker : Bool
  originalSender : Address
  finalRecipient : Address
  /-- `none` is nil: the transaction was not made for another one. -/
  rawTxHash : Option Hash
  deriving DecidableEq

structure BrokerRawMeg where
  tx : BrokerTx
  broker : Address
  deriving DecidableEq

structure BrokerType1Meg where
  rawMeg : BrokerRawMeg
  broker : Address

structure Mag1Confirm where
  tx1Hash : Hash
  rawMeg : BrokerRawMeg
  deriving DecidableEq

structure BrokerType2Meg where
  rawMeg : BrokerRawMeg
  broker : Address

structure Mag2Confirm where
  tx2Hash : Hash
  rawMeg : BrokerRawMeg
  deriving DecidableEq

/-- The parameters: the hash of new transactions, `getBrokerRawMagDigest`, `params.ShardNum` and
`BrokerAddress`. -/
structure Config where
  hash : TxHasher
  digest : BrokerRawMeg → Hash
  shardNum : ℕ
  brokerAddress : List Address

abbrev RawTx2BrokerTx := Finmap fun _ : Hash => List Hash

structure Committee where
  brokerConfirm1Pool : Finmap fun _ : Hash => Mag1Confirm
  brokerConfirm2Pool : Finmap fun _ : Hash => Mag2Confirm
  brokerRawMegs : Finmap fun _ : Hash => BrokerRawMeg
  rawTx2BrokerTx : RawTx2BrokerTx

def newCommittee : Committee := ⟨∅, ∅, ∅, ∅⟩

def isBroker (cfg : Config) (address : Address) : Bool := address ∈ cfg.brokerAddress

def fetchModifiedMap (cfg : Config) (modifiedMap : PartitionMap) (key : Address) : Option UInt64 :=
  getPartitionMap cfg.shardNum modifiedMap key

/-! ### Sending -/

/-- The shard that `txSending` picks: the one of the sender, or of the recipient when the sender is
a broker. -/
def sendersid (cfg : Config) (modifiedMap : PartitionMap) (tx : Transaction) : Option UInt64 := do
  let sid ← fetchModifiedMap cfg modifiedMap tx.sender
  if isBroker cfg tx.sender then fetchModifiedMap cfg modifiedMap tx.recipient else some sid

/-- What `txSending` sends.  A transaction for a shard that does not exist is not sent. -/
def txSending (cfg : Config) (modifiedMap : PartitionMap) :
    List BrokerTx → Option (List (UInt64 × BrokerTx))
  | [] => some []
  | tx :: txlist => do
    let sid ← sendersid cfg modifiedMap tx.tx
    let rest ← txSending cfg modifiedMap txlist
    some (if sid.toNat < cfg.shardNum then (sid, tx) :: rest else rest)

/-! ### The transactions of a raw transaction -/

/-- A transaction with a broker, made for `ctx`. -/
def brokerTransaction (cfg : Config) (ctx : BrokerTx) (sender recipient : Address) (now : Time) :
    BrokerTx where
  tx := newTransaction cfg.hash sender recipient ctx.tx.value ctx.tx.nonce now
  hasBroker := false
  senderIsBroker := false
  originalSender := ctx.tx.sender
  finalRecipient := ctx.tx.recipient
  rawTxHash := some ctx.tx.txHash

def createTx1 (cfg : Config) (meg : BrokerType1Meg) (now : Time) : BrokerTx :=
  brokerTransaction cfg meg.rawMeg.tx meg.rawMeg.tx.tx.sender meg.broker now

def createTx2 (cfg : Config) (meg : BrokerType2Meg) (now : Time) : BrokerTx :=
  brokerTransaction cfg meg.rawMeg.tx meg.broker meg.rawMeg.tx.tx.recipient now

/-- The loop of `handleBrokerType1Mes` and `handleBrokerType2Mes`: every message gives a new
transaction and, under its hash, a confirmation. -/
def createTxs {M C : Type} (create : M → Time → BrokerTx) (confirm : M → Hash → C) :
    (ℕ → Time) → List M → (Finmap fun _ : Hash => C) → (Finmap fun _ : Hash => C) × List BrokerTx
  | _, [], pool => (pool, [])
  | clk, meg :: megs, pool =>
    let tx := create meg (clk 0)
    let rest := createTxs create confirm (fun k => clk (k + 1)) megs
      (pool.insert tx.tx.txHash (confirm meg tx.tx.txHash))
    (rest.1, tx :: rest.2)

/-! ### Dealing -/

/-- The transaction goes over a broker. -/
def crosses (cfg : Config) (modifiedMap : PartitionMap) (tx : BrokerTx) : Option Bool := do
  let rSid ← fetchModifiedMap cfg modifiedMap tx.tx.recipient
  let sSid ← fetchModifiedMap cfg modifiedMap tx.tx.sender
  some (rSid != sSid && !isBroker cfg tx.tx.recipient && !isBroker cfg tx.tx.sender)

/-- The marks of a transaction that is sent as it is. -/
def markInner (cfg : Config) (tx : BrokerTx) : BrokerTx :=
  if isBroker cfg tx.tx.recipient || isBroker cfg tx.tx.sender then
    { tx with hasBroker := true, senderIsBroker := isBroker cfg tx.tx.sender }
  else tx

/-- The loop of `dealTxByBroker`: the transactions that are sent as they are, and the raw
messages. -/
def dealTxs (cfg : Config) (modifiedMap : PartitionMap) :
    List BrokerTx → Option (List BrokerTx × List BrokerRawMeg)
  | [] => some ([], [])
  | tx :: txs => do
    let cross ← crosses cfg modifiedMap tx
    if cross then do
      let broker ← cfg.brokerAddress[0]?
      let (itxs, brokerRawMegs) ← dealTxs cfg modifiedMap txs
      some (itxs, ⟨tx, broker⟩ :: brokerRawMegs)
    else do
      let (itxs, brokerRawMegs) ← dealTxs cfg modifiedMap txs
      some (markInner cfg tx :: itxs, brokerRawMegs)

/-- The loop of `handleBrokerType1Mes`. -/
def createTx1s (cfg : Config) : (ℕ → Time) → List BrokerType1Meg →
    (Finmap fun _ : Hash => Mag1Confirm) → (Finmap fun _ : Hash => Mag1Confirm) × List BrokerTx :=
  createTxs (createTx1 cfg) fun meg hash => ⟨hash, meg.rawMeg⟩

/-- The loop of `handleBrokerRawMag`: the raw messages under their digests. -/
def storeRawMegs (cfg : Config) (pool : Finmap fun _ : Hash => BrokerRawMeg)
    (megs : List BrokerRawMeg) : Finmap fun _ : Hash => BrokerRawMeg :=
  megs.foldl (fun pool meg => pool.insert (cfg.digest meg) meg) pool

/-- What a call of `dealTxByBroker` leaves and gives out. -/
structure Dealt where
  committee : Committee
  itxs : List BrokerTx
  brokerRawMegs : List BrokerRawMeg
  tx1s : List BrokerTx
  sent : List (UInt64 × BrokerTx)

/-- `dealTxByBroker`, with `handleBrokerRawMag` and `handleBrokerType1Mes`. -/
def dealTxByBroker (cfg : Config) (modifiedMap : PartitionMap) (clk : ℕ → Time) (c : Committee)
    (txs : List BrokerTx) : Option Dealt := do
  let (itxs, brokerRawMegs) ← dealTxs cfg modifiedMap txs
  let (confirm1Pool, tx1s) := createTx1s cfg clk
    (brokerRawMegs.map fun meg => ⟨meg, meg.broker⟩) c.brokerConfirm1Pool
  let sent ← txSending cfg modifiedMap tx1s
  some {
    committee := { c with
      brokerConfirm1Pool := confirm1Pool
      brokerRawMegs := storeRawMegs cfg c.brokerRawMegs brokerRawMegs }
    itxs := itxs
    brokerRawMegs := brokerRawMegs
    tx1s := tx1s
    sent := sent }

/-! ### Confirming -/

/-- An entry of `RawTx2BrokerTx`; a hash that is not there has no entries. -/
def entries (m : RawTx2BrokerTx) (rawHash : Hash) : List Hash := (m.lookup rawHash).getD []

def addEntry (m : RawTx2BrokerTx) (rawHash hash : Hash) : RawTx2BrokerTx :=
  m.insert rawHash (entries m rawHash ++ [hash])

/-- The loop of `handleTx1ConfirmMag`. -/
def confirmTx1s (cfg : Config) (rawMegs : Finmap fun _ : Hash => BrokerRawMeg) :
    List Mag1Confirm → RawTx2BrokerTx → Option (RawTx2BrokerTx × List BrokerType2Meg)
  | [], m => some (m, [])
  | mag1confirm :: mag1confirms, m =>
    if cfg.digest mag1confirm.rawMeg ∈ rawMegs then do
      let broker ← cfg.brokerAddress[0]?
      let (m, megs) ← confirmTx1s cfg rawMegs mag1confirms
        (addEntry m mag1confirm.rawMeg.tx.tx.txHash mag1confirm.tx1Hash)
      some (m, ⟨mag1confirm.rawMeg, broker⟩ :: megs)
    else confirmTx1s cfg rawMegs mag1confirms m

/-- The loop of `handleBrokerType2Mes`. -/
def createTx2s (cfg : Config) : (ℕ → Time) → List BrokerType2Meg →
    (Finmap fun _ : Hash => Mag2Confirm) → (Finmap fun _ : Hash => Mag2Confirm) × List BrokerTx :=
  createTxs (createTx2 cfg) fun meg hash => ⟨hash, meg.rawMeg⟩

/-- The loop of `handleTx2ConfirmMag`. -/
def confirmTx2s (mag2confirms : List Mag2Confirm) (m : RawTx2BrokerTx) : RawTx2BrokerTx :=
  mag2confirms.foldl (fun m mag2confirm =>
    addEntry m mag2confirm.rawMeg.tx.tx.txHash mag2confirm.tx2Hash) m

/-- What a call of `HandleBlockInfo` leaves and gives out. -/
structure Confirmed where
  committee : Committee
  tx2s : List BrokerTx
  sent : List (UInt64 × BrokerTx)

/-- `createConfirm`, with `handleTx1ConfirmMag`, `handleBrokerType2Mes` and
`handleTx2ConfirmMag`, on the hashes of the reported transactions.  Both lists of confirmations
are made before any of them is handled. -/
def createConfirm (cfg : Config) (modifiedMap : PartitionMap) (clk : ℕ → Time) (c : Committee)
    (txs : List Hash) : Option Confirmed := do
  let confirm1s := txs.filterMap c.brokerConfirm1Pool.lookup
  let confirm2s := txs.filterMap c.brokerConfirm2Pool.lookup
  let (m, megs) ← confirmTx1s cfg c.brokerRawMegs confirm1s c.rawTx2BrokerTx
  let (confirm2Pool, tx2s) := createTx2s cfg clk megs c.brokerConfirm2Pool
  let sent ← txSending cfg modifiedMap tx2s
  some {
    committee := { c with
      brokerConfirm2Pool := confirm2Pool
      rawTx2BrokerTx := confirmTx2s confirm2s m }
    tx2s := tx2s
    sent := sent }

/-- The report of a block, as far as the committee reads it: the transactions by their hashes. -/
structure BlockInfoMsg where
  blockBodyLength : ℕ
  broker1Txs : List Hash
  broker2Txs : List Hash

def handleBlockInfo (cfg : Config) (modifiedMap : PartitionMap) (clk : ℕ → Time) (c : Committee)
    (b : BlockInfoMsg) : Option Confirmed :=
  if b.blockBodyLength = 0 then some ⟨c, [], []⟩
  else createConfirm cfg modifiedMap clk c (b.broker1Txs ++ b.broker2Txs)

end Aster.Broker
