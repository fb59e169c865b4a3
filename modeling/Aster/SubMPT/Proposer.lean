import Aster.SubMPT.Follower
import Aster.Core.Block
import Aster.Lib.Transition

/-!
# The proposer and its followers as one transition system

The proposer of shard 0 runs one main goroutine (`RunProposerNode`), a goroutine that injects
transactions, a `TxAllocate` goroutine for every follower and epoch, a handler for every reply
and a `blockGenerate` goroutine for every completed epoch.  Each section of code that runs under
one lock, or that no other goroutine can observe, is one step:

* `inject`: the next transactions enter `PendingTxpool`;
* `schedule`: the main goroutine takes a scheduling signal and runs `SchedulingTxs` up to the
  loop that starts the `TxAllocate` goroutines, or into one of its two early exits;
* `launch`, `addWg`: one round of that loop, `go p.TxAllocate(...)` and then `wg.Add(1)`;
* `send`, `insert`: the two halves of `TxAllocate`, the message to the follower and the insert
  into `AllocatedTxpool`, which ends with `wg.Done`;
* `endScheduling`: `wg.Wait` returns;
* `stop`: the main goroutine receives from `stopchan`;
* `process`: a follower runs `ProcessTxs` on a message and answers;
* `gather`, `record`: the two halves of `handleProcessedTxs`, `GatherTxs` and the update of
  `GatherMap` that may start `blockGenerate`;
* `generate`: `blockGenerate`.

Messages may overtake each other, so the network is a bag for each kind of message.  The last
fields of the state record history that no step reads.
-/

namespace Aster.SubMPT

open Aster.Core

/-- The parameters of a proposer that nothing changes while no follower joins. -/
structure Config where
  followerIDs : List ℕ
  readyMap : Finset ℕ
  /-- `params.FollowerNum` in the process of the proposer. -/
  followerNum : ℕ
  injectSpeed : ℕ
  maxBlockSize : ℕ
  /-- `BlockHeader.Hash`. -/
  headerHash : BlockHeader → Hash

/-- The arguments of one `TxAllocate` call. -/
structure Allocation where
  epochId : ℕ
  followerID : ℕ
  txs : List Transaction
  deriving DecidableEq

structure AllocateTxMsgs where
  txs : List TimedTx
  followerID : ℕ
  epochId : ℕ
  deriving DecidableEq

structure PrecessedTxMsgs where
  txs : List TimedTx
  txHashs : List Hash
  followerID : ℕ
  epochId : ℕ
  deriving DecidableEq

/-- Where the main goroutine is. -/
inductive MainState where
  /-- In the `select` of `RunProposerNode`. -/
  | select
  /-- In `SchedulingTxs`, starting the `TxAllocate` goroutines of this batch or waiting for
  them. -/
  | scheduling (localTxpool : List Transaction)
  /-- In the send `p.stopchan <- true` of `SchedulingTxs`, with `PendingTxpoolLock` held. -/
  | stopping
  /-- `CStop` was sent to every follower and `RunProposerNode` returned. -/
  | stopped
  /-- A goroutine panicked, which ends the process. -/
  | crashed
  deriving DecidableEq

structure Sys where
  /-- The transactions that are still to be injected. -/
  txs : List Transaction
  pendingTxpool : List Transaction
  allocatedTxpool : Finmap fun _ : Hash => Transaction
  processedTxpool : List Transaction
  /-- The timestamps of the proposer's transaction objects. -/
  times : Transaction → TxTimes
  epochId : ℕ
  /-- The followers that have answered, by epoch. -/
  gatherMap : ℕ → Finset ℕ
  poollencount : ℕ
  curChain : BlockChain
  blockHashGenDone : Finset Hash
  main : MainState
  /-- Goroutines that are about to send on `schedulingTxsSignal`. -/
  signals : ℕ
  /-- `TxAllocate` calls that the loop of `SchedulingTxs` has still to start. -/
  launching : List Allocation
  /-- Whether the loop is between `go p.TxAllocate(...)` and `wg.Add(1)`. -/
  adding : Bool
  /-- The counter of the `WaitGroup`. -/
  wg : ℕ
  /-- `TxAllocate` goroutines that have not sent their message. -/
  starting : List Allocation
  /-- `TxAllocate` goroutines between their message and their insert. -/
  inserting : List Allocation
  /-- Handlers between `GatherTxs` and the update of `GatherMap`. -/
  gathered : List PrecessedTxMsgs
  /-- `blockGenerate` goroutines that have not run, by their epoch. -/
  generating : List ℕ
  allocMsgs : List AllocateTxMsgs
  replies : List PrecessedTxMsgs
  followers : ℕ → FollowerNode
  /-- History: everything `SchedulingTxs` took from the pool. -/
  scheduled : List Transaction
  /-- History: every `TxAllocate` call. -/
  allocations : List Allocation
  /-- History: every reply that went through `GatherTxs`. -/
  handled : List PrecessedTxMsgs
  /-- History: everything appended to `ProcessedTxpool`. -/
  appended : List Transaction
  /-- History: every block that `blockGenerate` made. -/
  generated : List Block

/-- The steps, with the choices that the scheduler, the network and the clock make. -/
inductive Label where
  | inject (now : Time)
  /-- The goroutines of `SchedulingTxs` take the lock in the order `order`. -/
  | schedule (order : List Transaction)
  | stop
  | launch (k : ℕ)
  | addWg
  | send (k : ℕ)
  | insert (k : ℕ)
  | endScheduling
  | process (k : ℕ) (clk : Clock)
  | gather (k : ℕ)
  | record (k : ℕ)
  | generate (k : ℕ) (now : Time)

/-- `PendingTxpoolLock` is free and the node is not closed. -/
def Sys.alive (s : Sys) : Bool :=
  match s.main with
  | .select | .scheduling _ => true
  | .stopping | .stopped | .crashed => false

/-! ### Injection and scheduling -/

/-- One round of the injecting goroutine. -/
def inject (cfg : Config) (s : Sys) (now : Time) : Option Sys :=
  if s.txs ≠ [] ∧ s.alive then
    let transactions := s.txs.take cfg.injectSpeed
    some { s with
      txs := s.txs.drop cfg.injectSpeed
      pendingTxpool := s.pendingTxpool ++ transactions
      times := fun tx => if tx ∈ transactions then { s.times tx with time := now } else s.times tx }
  else none

/-- The exits of `SchedulingTxs` for an empty pool: wait a second and signal again, or, after
ten such rounds in a row, close the node and block. -/
def scheduleEmpty (s : Sys) : Sys :=
  if 10 ≤ s.poollencount + 1 then
    { s with poollencount := s.poollencount + 1, main := .stopping, signals := s.signals - 1 }
  else { s with poollencount := s.poollencount + 1 }

/-- The batch that `SchedulingTxs` copies from the front of the pool. -/
def localTxpool (cfg : Config) (s : Sys) : List Transaction :=
  s.pendingTxpool.take cfg.maxBlockSize

/-- The state after `SchedulingTxs` has taken its batch. -/
def takeBatch (cfg : Config) (s : Sys) : Sys :=
  { s with
    poollencount := 0
    signals := s.signals - 1
    pendingTxpool := s.pendingTxpool.drop cfg.maxBlockSize
    scheduled := s.scheduled ++ localTxpool cfg s }

/-- The `TxAllocate` calls of an epoch, one for each follower. -/
def tasksOf (cfg : Config) (epochId : ℕ) (allocMap : AllocMap) : List Allocation :=
  cfg.followerIDs.dedup.map fun fid => ⟨epochId, fid, allocMap fid⟩

/-- The state in which the loop over `FollowersIP` begins. -/
def startTasks (cfg : Config) (s : Sys) (allocMap : AllocMap) : Sys :=
  { takeBatch cfg s with
    epochId := s.epochId + 1
    main := .scheduling (localTxpool cfg s)
    launching := tasksOf cfg (s.epochId + 1) allocMap
    adding := false
    wg := 0
    allocations := s.allocations ++ tasksOf cfg (s.epochId + 1) allocMap }

/-- `SchedulingTxs` on a pool with transactions: sort a batch and enter the loop. -/
def scheduleBatch (cfg : Config) (s : Sys) (order : List Transaction) : Option Sys :=
  if order.Perm (localTxpool cfg s) then
    match allocTxs cfg.followerIDs.length order with
    | none => some { takeBatch cfg s with main := .crashed }
    | some allocMap => some (startTasks cfg s allocMap)
  else none

/-- The main goroutine receives a scheduling signal. -/
def schedule (cfg : Config) (s : Sys) (order : List Transaction) : Option Sys :=
  if s.main = .select ∧ 0 < s.signals then
    if s.pendingTxpool = [] then some (scheduleEmpty s) else scheduleBatch cfg s order
  else none

/-- `go p.TxAllocate(...)` for one of the followers that the loop has not met. -/
def launch (s : Sys) (k : ℕ) : Option Sys :=
  match s.main, s.adding, s.launching[k]? with
  | .scheduling _, false, some a => some { s with
      launching := s.launching.eraseIdx k
      starting := s.starting ++ [a]
      adding := true }
  | _, _, _ => none

/-- `wg.Add(1)`, which comes after the goroutine was started. -/
def addWg (s : Sys) : Option Sys :=
  match s.main, s.adding with
  | .scheduling _, true => some { s with adding := false, wg := s.wg + 1 }
  | _, _ => none

/-- `wg.Wait` returns. -/
def endScheduling (s : Sys) : Option Sys :=
  match s.main with
  | .scheduling _ =>
    if s.launching = [] ∧ s.adding = false ∧ s.wg = 0 then some { s with main := .select }
    else none
  | _ => none

/-- The goroutines that wait in a send on the unbuffered `stopchan`.  `SchedulingTxs` has the
only such send. -/
def Sys.stopSenders (s : Sys) : ℕ := if s.main = .stopping then 1 else 0

/-- The second case of the `select`: it needs a goroutine that is sending. -/
def stop (s : Sys) : Option Sys :=
  if s.main = .select ∧ 0 < s.stopSenders then some { s with main := .stopped } else none

/-! ### `TxAllocate` -/

def Allocation.message (a : Allocation) (times : Transaction → TxTimes) : AllocateTxMsgs :=
  ⟨a.txs.map fun tx => ⟨tx, times tx⟩, a.followerID, a.epochId⟩

/-- `wg.Done`, which panics when the counter would become negative. -/
def wgDone (s : Sys) : Sys :=
  if s.wg = 0 then { s with main := .crashed } else { s with wg := s.wg - 1 }

/-- The first half: a follower that is not ready is skipped altogether. -/
def send (cfg : Config) (s : Sys) (k : ℕ) : Option Sys :=
  if s.main = .crashed then none
  else
    match s.starting[k]? with
    | none => none
    | some a =>
      if a.followerID ∈ cfg.readyMap then
        some { s with
          starting := s.starting.eraseIdx k
          inserting := s.inserting ++ [a]
          allocMsgs := s.allocMsgs ++ [a.message s.times] }
      else some (wgDone { s with starting := s.starting.eraseIdx k })

/-- The loop of the second half. -/
def insertAll (pool : Finmap fun _ : Hash => Transaction) (txs : List Transaction) :
    Finmap fun _ : Hash => Transaction :=
  txs.foldl (fun pool tx => pool.insert tx.txHash tx) pool

def insert (s : Sys) (k : ℕ) : Option Sys :=
  if s.main = .crashed then none
  else
    match s.inserting[k]? with
    | none => none
    | some a => some (wgDone { s with
        inserting := s.inserting.eraseIdx k
        allocatedTxpool := insertAll s.allocatedTxpool a.txs })

/-! ### Followers -/

/-- `handleAllocatedTxs` of the follower the message was sent to. -/
def process (s : Sys) (k : ℕ) (clk : Clock) : Option Sys :=
  match s.allocMsgs[k]? with
  | none => none
  | some m =>
    let f := s.followers m.followerID
    match processTxs clk f m.txs with
    | none => none
    | some (f', txHashs, txs) => some { s with
        allocMsgs := s.allocMsgs.eraseIdx k
        followers := Function.update s.followers m.followerID f'
        replies := s.replies ++ [⟨txs, txHashs, f.followerID, m.epochId⟩] }

/-! ### `handleProcessedTxs` -/

/-- The loop of `GatherTxs`.  The timestamps for the hash at position `i` are taken from
`msg.Txs[i]`, which is out of range when there are fewer transactions than hashes. -/
def gatherTxs (s : Sys) : List Hash → List TimedTx → Option Sys
  | [], _ => some s
  | txHash :: txHashs, msgTxs =>
    match s.allocatedTxpool.lookup txHash with
    | none => gatherTxs { s with allocatedTxpool := s.allocatedTxpool.erase txHash } txHashs
        msgTxs.tail
    | some tx =>
      match msgTxs.head? with
      | none => none
      | some t => gatherTxs { s with
          allocatedTxpool := s.allocatedTxpool.erase txHash
          processedTxpool := s.processedTxpool ++ [tx]
          appended := s.appended ++ [tx]
          times := Function.update s.times tx { s.times tx with
            allocateTime := t.times.allocateTime
            executionTime := t.times.executionTime } } txHashs msgTxs.tail

/-- The reply is taken from the network. -/
def receive (s : Sys) (k : ℕ) (r : PrecessedTxMsgs) : Sys :=
  { s with
    replies := s.replies.eraseIdx k
    gathered := s.gathered ++ [r]
    handled := s.handled ++ [r] }

/-- The first half of the handler. -/
def gather (s : Sys) (k : ℕ) : Option Sys :=
  if s.alive then
    match s.replies[k]? with
    | none => none
    | some r =>
      match gatherTxs (receive s k r) r.txHashs r.txs with
      | none => some { receive s k r with main := .crashed }
      | some s' => some s'
  else none

/-- The reply is entered into `GatherMap`; the one that completes its epoch starts
`blockGenerate`. -/
def recordReply (cfg : Config) (s : Sys) (k : ℕ) (r : PrecessedTxMsgs) : Sys :=
  let answered := Insert.insert r.followerID (s.gatherMap r.epochId)
  { s with
    gathered := s.gathered.eraseIdx k
    gatherMap := Function.update s.gatherMap r.epochId answered
    generating :=
      if answered.card = cfg.followerNum then s.generating ++ [r.epochId] else s.generating }

/-- The second half of the handler. -/
def record (cfg : Config) (s : Sys) (k : ℕ) : Option Sys :=
  if s.alive then
    match s.gathered[k]? with
    | none => none
    | some r => some (recordReply cfg s k r)
  else none

/-! ### `blockGenerate` -/

/-- The block made of the whole `ProcessedTxpool`.  Both roots are the bytes of `"123"`. -/
def newBlock (cfg : Config) (s : Sys) (now : Time) : Block :=
  let header : BlockHeader :=
    { parentBlockHash := s.curChain.currentBlock.hash
      stateRoot := [49, 50, 51]
      txRoot := [49, 50, 51]
      bloomFilter := (s.processedTxpool.map fun tx => modBytes tx.txHash 2048).toFinset
      number := s.curChain.currentBlock.header.number + 1
      time := now
      miner := 0 }
  ⟨header, s.processedTxpool, cfg.headerHash header⟩

/-- `blockGenerate`: nothing when the head already has a successor or the pool is empty, else a
new block and a goroutine that signals the main loop. -/
def blockGenerate (cfg : Config) (s : Sys) (now : Time) : Sys :=
  if s.curChain.currentBlock.hash ∈ s.blockHashGenDone then s
  else if s.processedTxpool = [] then s
  else
    let block := newBlock cfg s now
    { s with
      processedTxpool := []
      blockHashGenDone := Insert.insert block.header.parentBlockHash s.blockHashGenDone
      curChain := (s.curChain.addBlock block).1
      generated := s.generated ++ [block]
      signals := s.signals + 1 }

def generate (cfg : Config) (s : Sys) (k : ℕ) (now : Time) : Option Sys :=
  if s.alive then
    match s.generating[k]? with
    | none => none
    | some _ => some (blockGenerate cfg { s with generating := s.generating.eraseIdx k } now)
  else none

/-! ### The system -/

def step (cfg : Config) (s : Sys) : Label → Option Sys
  | .inject now => inject cfg s now
  | .schedule order => schedule cfg s order
  | .stop => stop s
  | .launch k => launch s k
  | .addWg => addWg s
  | .send k => send cfg s k
  | .insert k => insert s k
  | .endScheduling => endScheduling s
  | .process k clk => process s k clk
  | .gather k => gather s k
  | .record k => record cfg s k
  | .generate k now => generate cfg s k now

/-- `NewProposerNode` with `n` followers `0, ..., n - 1`, all of them ready. -/
structure Config.Standard (cfg : Config) (n : ℕ) : Prop where
  pos : 0 < n
  ids : cfg.followerIDs = List.range n
  ready : cfg.readyMap = Finset.range n
  num : cfg.followerNum = n

/-- The state in which `RunProposerNode` starts, with the transactions `txs` to inject: one
goroutine is about to send the first signal. -/
def Sys.initial (txs : List Transaction) (times : Transaction → TxTimes) (chain : BlockChain)
    (followers : ℕ → FollowerNode) : Sys where
  txs := txs
  pendingTxpool := []
  allocatedTxpool := ∅
  processedTxpool := []
  times := times
  epochId := 1
  gatherMap := fun _ => ∅
  poollencount := 0
  curChain := chain
  blockHashGenDone := ∅
  main := .select
  signals := 1
  launching := []
  adding := false
  wg := 0
  starting := []
  inserting := []
  gathered := []
  generating := []
  allocMsgs := []
  replies := []
  followers := followers
  scheduled := []
  allocations := []
  handled := []
  appended := []
  generated := []

/-- A start with `n` followers whose ids and `FollowerNum` match, on any ledgers. -/
def Starts (n : ℕ) (feed : List Transaction) (s : Sys) : Prop :=
  ∃ times chain followers, s = Sys.initial feed times chain followers ∧
    ∀ i < n, (followers i).followerID = i ∧ (followers i).followerNum = n

/-- A configuration with `n` followers and a header hash without collisions along a chain. -/
def standardConfig (n : ℕ) : Config where
  followerIDs := List.range n
  readyMap := Finset.range n
  followerNum := n
  injectSpeed := 100
  maxBlockSize := 100
  headerHash := fun header => 1 :: header.parentBlockHash

theorem standardConfig_standard {n : ℕ} (hn : 0 < n) : (standardConfig n).Standard n :=
  ⟨hn, rfl, rfl, rfl⟩

def genesis : BlockChain :=
  ⟨⟨⟨[], [], [], ∅, 0, 0, 0⟩, [], [0]⟩, ⟨∅, [0]⟩⟩

/-- The start with `n` followers on empty ledgers. -/
def freshStart (n : ℕ) (feed : List Transaction) : Sys :=
  Sys.initial feed (fun _ => ⟨0, 0, 0⟩) genesis fun i => ⟨i, n, ∅⟩

theorem freshStart_starts (n : ℕ) (feed : List Transaction) :
    Starts n feed (freshStart n feed) :=
  ⟨fun _ => ⟨0, 0, 0⟩, genesis, fun i => ⟨i, n, ∅⟩, rfl, fun _ _ => ⟨rfl, rfl⟩⟩

end Aster.SubMPT
