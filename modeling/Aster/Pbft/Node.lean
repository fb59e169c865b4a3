import Aster.Chain.Ledger

/-!
# A PBFT node in relay mode

`PbftConsensusNode` with `RawRelayPbftExtraHandleMod`.  Messages are handled one at a time under
`tcpPoolLock`; the goroutine `Propose` of the main node runs beside the handlers.

* A handler returns the node and the messages it sends.  A panic of a handler ends the process.
* A vote table is keyed by the pointer to the decoded `SenderNode`: every decoded message has a
  new pointer, except for a null sender, whose pointer is nil.
* `askForLock` is taken in `handleCommit` and released in `handleSendOldSeq`.  A handler that has
  to wait for it keeps `tcpPoolLock`.
* Blocks are proposed from `PrecessedTxpool`.  `CurChain.Txpool`, which `NewBlockChain` leaves nil,
  is only used by the main node when it relays the transactions of a block, and by the messages
  that bring transactions.

The table of addresses is taken as given; a node is addressed by its id.
-/

namespace Aster.Pbft

open Aster.Core Aster.Chain

abbrev Digest := List UInt8

inductive RequestType where
  | block
  | partition
  | other
  deriving DecidableEq

structure Request where
  requestType : RequestType
  /-- The block that `DecodeB` makes of the content; `none` when it panics. -/
  content : Option Block
  reqTime : Time
  deriving DecidableEq

/-! ### Messages -/

structure PrePrepare where
  /-- `none` is null. -/
  requestMsg : Option Request
  digest : Digest
  seqID : UInt64
  deriving DecidableEq

/-- The fields of a `Prepare` or a `Commit`. -/
structure Vote where
  digest : Digest
  seqID : UInt64
  /-- The id of `SenderNode`; `none` is null. -/
  sender : Option ℕ
  deriving DecidableEq

structure RequestOldMessage where
  seqStartHeight : UInt64
  seqEndHeight : UInt64
  sender : Option ℕ
  deriving DecidableEq

structure SendOldMessage where
  seqStartHeight : UInt64
  seqEndHeight : UInt64
  oldRequest : List (Option Request)
  deriving DecidableEq

inductive Msg where
  | prePrepare (m : PrePrepare)
  | prepare (v : Vote)
  | commit (v : Vote)
  | requestOld (m : RequestOldMessage)
  | sendOld (m : SendOldMessage)
  | stop
  /-- A message of a client or of another shard; some of them add transactions to `Txpool`. -/
  | outside (addsTxs : Bool)
  deriving DecidableEq

/-- What a handler sends. -/
inductive Packet where
  /-- `Broadcast`, which does not leave out the sender. -/
  | all (m : Msg)
  | one (receiver : ℕ) (m : Msg)
  deriving DecidableEq

/-! ### The node -/

structure PbftConfig where
  chain : ChainConfig
  /-- `node_nums`. -/
  nodeNums : ℕ
  /-- The digest of a request; a null request has one too. -/
  getDigest : Option Request → Digest
  /-- Whether `CurChain.Txpool` is set. -/
  hasTxpool : Bool

/-- `malicious_nums`. -/
def PbftConfig.f (cfg : PbftConfig) : ℕ := (cfg.nodeNums - 1) / 3

/-- The view never changes. -/
def view : ℕ := 0

inductive Status where
  /-- No handler is running. -/
  | running
  /-- A handler waits for `askForLock`, to request the blocks up to `seqEnd`. -/
  | waitAskFor (seqEnd : UInt64)
  /-- `WaitToStop` of the main node waits for `Propose` to take the signal. -/
  | waitStop
  | stopped
  /-- A handler or `Propose` panicked. -/
  | crashed
  deriving DecidableEq

/-- Where `Propose` is. -/
inductive Proposing where
  | select
  /-- Past the `select`, about to take `sequenceLock`. -/
  | locking
  | returned
  deriving DecidableEq

/-- One call of `HandleinCommit`. -/
structure Execution where
  digest : Digest
  /-- The `SeqID` of the commit message. -/
  seqID : UInt64
  deriving DecidableEq

structure Node where
  nodeID : ℕ
  sequenceID : UInt64
  /-- The values are pointers, which can be nil. -/
  requestPool : Finmap fun _ : Digest => Option Request
  cntPrepareConfirm : Digest → List (Option ℕ)
  cntCommitConfirm : Digest → List (Option ℕ)
  isCommitBordcast : Finset Digest
  isReply : Finset Digest
  height2Digest : Finmap fun _ : UInt64 => Digest
  sequenceLock : Bool
  askForLock : Bool
  proposing : Proposing
  curChain : Ledger
  status : Status
  /-- History: the calls of `HandleinCommit`. -/
  executed : List Execution

/-- `int(SeqEndHeight-SeqStartHeight+1) == len(OldRequest)`; a length is less than 2^63. -/
def SendOldMessage.Complete (m : SendOldMessage) : Prop :=
  m.seqEndHeight - m.seqStartHeight + 1 = UInt64.ofNat m.oldRequest.length

instance (m : SendOldMessage) : Decidable m.Complete := inferInstanceAs (Decidable (_ = _))

/-- The loop of `HandleforSequentialRequest` over the heights; `apply` is what is done with a
request.  The round after the last request is the last one, as its index would be out of range;
`height++` goes from the last number to 0, and then the loop does not end before that. -/
def sequentialLoop {L : Type} (apply : L → Option Request → Option L) (m : SendOldMessage) :
    ℕ → UInt64 → L → Option L
  | 0, _, _ => none
  | fuel + 1, height, l =>
    if height ≤ m.seqEndHeight then do
      let r ← m.oldRequest[(height - m.seqStartHeight).toNat]?
      let l ← apply l r
      sequentialLoop apply m fuel (height + 1) l
    else some l

namespace Node

/-- A goroutine panicked. -/
def crash (n : Node) : Node := { n with status := .crashed }

/-- A request is put into the pool, under its height. -/
def store (n : Node) (digest : Digest) (r : Option Request) (seqID : UInt64) : Node :=
  { n with
    requestPool := n.requestPool.insert digest r
    height2Digest := n.height2Digest.insert seqID digest }

/-- A new key in a vote table, unless it is nil and there already. -/
def addKey (votes : List (Option ℕ)) (sender : Option ℕ) : List (Option ℕ) :=
  if sender = none ∧ none ∈ votes then votes else votes ++ [sender]

/-- `set2DMap(true, ...)`. -/
def votePrepare (n : Node) (v : Vote) : Node :=
  { n with
    cntPrepareConfirm := Function.update n.cntPrepareConfirm v.digest
      (addKey (n.cntPrepareConfirm v.digest) v.sender) }

/-- `set2DMap(false, ...)`. -/
def voteCommit (n : Node) (v : Vote) : Node :=
  { n with
    cntCommitConfirm := Function.update n.cntCommitConfirm v.digest
      (addKey (n.cntCommitConfirm v.digest) v.sender) }

/-- The main node unlocks `sequenceLock` at the end of `handleCommit`; unlocking a mutex that is
not locked is fatal. -/
def unlockSequence (n : Node) : Node :=
  if n.nodeID = view then
    if n.sequenceLock then { n with sequenceLock := false } else n.crash
  else n

/-- `HandleinPrePrepare` of the relay module; `none` when it panics on the request. -/
def handleinPrePrepare (cfg : PbftConfig) (n : Node) (digest : Digest) (r : Option Request) :
    Option (Node × Bool) := do
  let req ← r
  let b ← req.content
  -- `IsValidBlock`
  if b.header.parentBlockHash = n.curChain.chain.currentBlock.hash ∧
      getTxTreeRoot cfg.chain.txTrie b.body = b.header.txRoot then
    some ({ n with requestPool := n.requestPool.insert digest r }, true)
  else some (n, false)

/-- The prepare message for a request that was accepted. -/
def preparePackets (n : Node) (flag : Bool) (digest : Digest) (seqID : UInt64) : List Packet :=
  if flag then [.all (.prepare ⟨digest, seqID, some n.nodeID⟩)] else []

def handlePrePrepare (cfg : PbftConfig) (n : Node) (m : PrePrepare) : Node × List Packet :=
  if cfg.getDigest m.requestMsg ≠ m.digest then (n, [])
  else if n.sequenceID < m.seqID then (n.store m.digest m.requestMsg m.seqID, [])
  else
    match n.handleinPrePrepare cfg m.digest m.requestMsg with
    | none => (n.crash, [])
    | some (n', flag) =>
      (n'.store m.digest m.requestMsg m.seqID, n.preparePackets flag m.digest m.seqID)

/-- The number of prepare votes after which a node commits: `2f`, and one less for a backup. -/
def specifiedCnt (cfg : PbftConfig) (n : Node) : ℤ :=
  2 * cfg.f - if n.nodeID = view then 0 else 1

def handlePrepare (cfg : PbftConfig) (n : Node) (v : Vote) : Node × List Packet :=
  if v.digest ∉ n.requestPool then (n, [])
  else if n.sequenceID < v.seqID then (n, [])
  else
    let n := n.votePrepare v
    if n.specifiedCnt cfg ≤ (n.cntPrepareConfirm v.digest).length ∧
        v.digest ∉ n.isCommitBordcast then
      ({ n with isCommitBordcast := insert v.digest n.isCommitBordcast },
        [.all (.commit ⟨v.digest, v.seqID, some n.nodeID⟩)])
    else (n, [])

/-- The main node gets through the part of `HandleinCommit` that relays the transactions of the
block: `Txpool` is not nil, and every recipient has a shard. -/
def relays (cfg : PbftConfig) (n : Node) (b : Block) : Bool :=
  cfg.hasTxpool && b.body.all fun tx =>
    (getPartitionMap cfg.chain.shardNum n.curChain.partitionMap tx.recipient).isSome

/-- The branch of `handleCommit` for a request of the pool: `HandleinCommit`, and the end of the
round whether or not the block was accepted. -/
def execute (cfg : PbftConfig) (n : Node) (v : Vote) (r : Option Request) : Node :=
  let n := { n with executed := n.executed ++ [Execution.mk v.digest v.seqID] }
  match r.bind (·.content) with
  | none => n.crash
  | some b =>
    match n.curChain.addBlock b with
    | none => n.crash
    | some (ledger, _) =>
      let n := { n with curChain := ledger }
      if n.nodeID = view ∧ n.relays cfg b = false then n.crash
      else unlockSequence { n with
        isReply := insert v.digest n.isReply
        sequenceID := n.sequenceID + 1 }

/-- The branch of `handleCommit` for a request that is not in the pool, from `askForLock.Lock()`
on. -/
def askFor (n : Node) (seqEnd : UInt64) : Node × List Packet :=
  if n.askForLock then ({ n with status := .waitAskFor seqEnd }, [])
  else (unlockSequence { n with askForLock := true, status := .running },
    [.one view (.requestOld ⟨n.sequenceID + 1, seqEnd, some n.nodeID⟩)])

def handleCommit (cfg : PbftConfig) (n : Node) (v : Vote) : Node × List Packet :=
  -- the log line dereferences `SenderNode`
  if v.sender = none then (n.crash, [])
  else
    let n := n.voteCommit v
    if 2 * cfg.f ≤ (n.cntCommitConfirm v.digest).length ∧ v.digest ∉ n.isReply then
      match n.requestPool.lookup v.digest with
      | none => askFor { n with isReply := insert v.digest n.isReply } v.seqID
      | some r => (n.execute cfg v r, [])
    else (n, [])

/-- The requests from `height` on, at most `fuel` of them, up to the first that is missing. -/
def oldRequests (n : Node) : ℕ → UInt64 → List (Option Request)
  | 0, _ => []
  | fuel + 1, height =>
    match (n.height2Digest.lookup height).bind fun d => n.requestPool.lookup d with
    | none => []
    | some r => r :: n.oldRequests fuel (height + 1)

def handleRequestOldSeq (n : Node) (m : RequestOldMessage) : Node × List Packet :=
  if n.nodeID ≠ view then (n, [])
  else
    match m.sender with
    | none => (n.crash, [])
    | some j =>
      (n, [.one j (.sendOld ⟨m.seqStartHeight, m.seqEndHeight,
        n.oldRequests (m.seqEndHeight.toNat + 1 - m.seqStartHeight.toNat) m.seqStartHeight⟩)])

/-- What is done with one request of a catch-up answer: `AddBlock`, accepted or not. -/
def addOldRequest (l : Ledger) (r : Option Request) : Option Ledger := do
  let req ← r
  if req.requestType = .block then
    let b ← req.content
    let (l, _) ← l.addBlock b
    some l
  else some l

/-- `AddBlock` for each request of a catch-up answer. -/
def addOld : Ledger → List (Option Request) → Option Ledger
  | l, [] => some l
  | l, r :: rs => do
    let l ← addOldRequest l r
    addOld l rs

/-- `HandleforSequentialRequest`. -/
def handleforSequentialRequest (n : Node) (m : SendOldMessage) : Option Node :=
  if ¬ m.Complete then some n
  else do
    let ledger ←
      sequentialLoop addOldRequest m (m.oldRequest.length + 1) m.seqStartHeight n.curChain
    some { n with curChain := ledger, sequenceID := m.seqEndHeight + 1 }

/-- The loop of `handleSendOldSeq` over the requests of the answer. -/
def storeOld (cfg : PbftConfig) : Node → List (Option Request) → UInt64 → Node
  | n, [], _ => n
  | n, r :: rs, height =>
    storeOld cfg { n.store (cfg.getDigest r) r height with
      isReply := insert (cfg.getDigest r) n.isReply } rs (height + 1)

/-- The pre-prepare that waited for this height is handled now; `none` when it panics. -/
def prepareNext (cfg : PbftConfig) (n : Node) : Option (Node × List Packet) :=
  match (n.height2Digest.lookup n.sequenceID).bind fun d => n.requestPool.lookup d with
  | none => some (n, [])
  | some r => do
    let (n, flag) ← n.handleinPrePrepare cfg (cfg.getDigest r) r
    some (n, n.preparePackets flag (cfg.getDigest r) n.sequenceID)

def handleSendOldSeq (cfg : PbftConfig) (n : Node) (m : SendOldMessage) : Node × List Packet :=
  match n.handleforSequentialRequest m with
  | none => (n.crash, [])
  | some n' =>
    let n' := { storeOld cfg n' m.oldRequest m.seqStartHeight with
      sequenceID := m.seqEndHeight + 1 }
    match n'.prepareNext cfg with
    | none => (n'.crash, [])
    | some (n', out) =>
      (if n'.askForLock then { n' with askForLock := false } else n'.crash, out)

/-- `WaitToStop`. -/
def waitToStop (n : Node) : Node :=
  { n with status := if n.nodeID = view then .waitStop else .stopped }

def handle (cfg : PbftConfig) (n : Node) : Msg → Node × List Packet
  | .prePrepare m => n.handlePrePrepare cfg m
  | .prepare v => n.handlePrepare cfg v
  | .commit v => n.handleCommit cfg v
  | .requestOld m => n.handleRequestOldSeq m
  | .sendOld m => n.handleSendOldSeq cfg m
  | .stop => (n.waitToStop, [])
  | .outside addsTxs => (if addsTxs && !cfg.hasTxpool then n.crash else n, [])

/-- What `Propose` does once it has `sequenceLock`: `HandleinPropose` and the pre-prepare. -/
def proposeBlock (cfg : PbftConfig) (n : Node) (now : Time) : Node × List Packet :=
  match generateBlock cfg.chain n.curChain 0 now with
  | none => (n.crash, [])
  | some (ledger, b) =>
    let r : Option Request := some ⟨.block, some b, now⟩
    let digest := cfg.getDigest r
    ({ n with curChain := ledger, sequenceLock := true, proposing := .select }.store digest r
        n.sequenceID,
      [.all (.prePrepare ⟨r, digest, n.sequenceID⟩)])

/-- The next move of `Propose`. -/
def propose (cfg : PbftConfig) (n : Node) (now : Time) : Option (Node × List Packet) :=
  if n.nodeID ≠ view ∨ n.status = .crashed then none
  else
    match n.proposing with
    | .select =>
      if n.status = .waitStop then some ({ n with status := .stopped, proposing := .returned }, [])
      else some ({ n with proposing := .locking }, [])
    | .locking => if n.sequenceLock then none else some (n.proposeBlock cfg now)
    | .returned => none

end Node

/-- The moves of a node. -/
inductive Move where
  | handle (m : Msg)
  /-- A handler that waits for `askForLock` gets it. -/
  | resume
  | propose (now : Time)
  /-- Transactions come into `PrecessedTxpool`. -/
  | fill (txs : List PoolTx)
  deriving DecidableEq

/-- One move of a node, with what it sends. -/
def Node.move (cfg : PbftConfig) (n : Node) : Move → Option (Node × List Packet)
  | .handle m => if n.status = .running then some (n.handle cfg m) else none
  | .resume =>
    match n.status with
    | .waitAskFor seqEnd => if n.askForLock then none else some (n.askFor seqEnd)
    | _ => none
  | .propose now => n.propose cfg now
  | .fill txs => some ({ n with
      curChain := { n.curChain with precessedTxpool := n.curChain.precessedTxpool ++ txs } }, [])

/-- `NewPbftNode` over the ledger that `NewBlockChain` has opened. -/
def newPbftNode (nodeID : ℕ) (curChain : Ledger) : Node where
  nodeID := nodeID
  sequenceID := curChain.chain.currentBlock.header.number + 1
  requestPool := ∅
  cntPrepareConfirm := fun _ => []
  cntCommitConfirm := fun _ => []
  isCommitBordcast := ∅
  isReply := ∅
  height2Digest := ∅
  sequenceLock := false
  askForLock := false
  proposing := if nodeID = view then .select else .returned
  curChain := curChain
  status := .running
  executed := []

end Aster.Pbft
