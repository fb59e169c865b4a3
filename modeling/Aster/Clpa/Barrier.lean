import Aster.Chain.Ledger
import Aster.Lib.Transition

/-!
# The readiness barrier before a partition

Before the leaders exchange accounts, each waits in `getPartitionReady` until all shards are ready
and, for every shard in `seqIDMap`, the last relay that was handled is the one before the sequence
number the shard was ready at.  The barrier is to hold back the exchange until all relays of the
old partition have been handled.

* A leader sends relays, one to each other shard, when a block is committed, and its sequence number
  goes up; it also goes up when a partition is committed, without relays.
* Between its `PartitionReady` and the end of its round a leader packs and commits no block.
* Packets are on their way for any time.  `network` has them in the order of sending.
* A handler runs as one step.  When a leader gets a partition map, and which transactions go with
  the accounts, is left open.
* The rounds, the relays that were sent and handled, and what was taken from a pool are history.
* Sequence numbers are natural numbers; a node would have to commit 2^64 times for them to wrap.

The remembered sequence number is the one of the relay that was handled last, and a shard that was
never heard of is not in `seqIDMap` at all.  So the barrier needs that relays of one leader to
another are handled in the order of sending (`RelaysInOrder`).
-/

namespace Aster.Clpa

open Aster.Chain Aster.Lib.Transition

/-- Where a leader is in its round. -/
inductive BarrierPhase where
  /-- It proposes blocks. -/
  | normal
  /-- It has sent `PartitionReady` and asks `getPartitionReady`. -/
  | waiting
  /-- It has sent its accounts, up to the commit of the partition. -/
  | exchange
  deriving DecidableEq

inductive Message where
  | relay (senderSeq : ℕ) (txs : List PoolTx)
  | ready (nowSeqID : ℕ)
  | accounts
  deriving DecidableEq

structure Packet (n : ℕ) where
  sender : Fin n
  receiver : Fin n
  message : Message
  deriving DecidableEq

/-- The leader of a shard, as far as the barrier is concerned. -/
structure BarrierNode (n : ℕ) where
  sequenceID : ℕ
  seqIDMap : Fin n → Option ℕ
  /-- The keys of `PartitionReady`. -/
  partitionReady : Finset (Fin n)
  readySeq : Fin n → Option ℕ
  /-- The keys of `AccountStateTx`. -/
  accountStateTx : Finset (Fin n)
  collectOver : Bool
  txpool : List PoolTx
  phase : BarrierPhase
  /-- The partitions that were committed. -/
  round : ℕ
  /-- The relays that were handled. -/
  handled : List (Packet n)
  /-- What was packed into blocks, and the pools the leader had when it sent its accounts. -/
  taken : List PoolTx

structure BarrierSystem (n : ℕ) where
  nodes : Fin n → BarrierNode n
  network : List (Packet n)
  /-- All relays that were sent. -/
  sent : List (Packet n)

variable {n : ℕ}

/-- `getPartitionReady`.  A shard that is not in `seqIDMap` is not looked at. -/
def getPartitionReady (node : BarrierNode n) : Bool :=
  node.partitionReady.card = n ∧ ∀ sid, ∀ val ∈ node.seqIDMap sid,
    ∃ rval ∈ node.readySeq sid, rval - 1 = val

namespace BarrierNode

/-- `GenerateBlock` packs the first `k` transactions of the pool. -/
def packTxs (node : BarrierNode n) (k : ℕ) : BarrierNode n :=
  { node with txpool := node.txpool.drop k, taken := node.taken ++ node.txpool.take k }

def addTxs (node : BarrierNode n) (txs : List PoolTx) : BarrierNode n :=
  { node with txpool := node.txpool ++ txs }

/-- The end of a commit. -/
def nextSeq (node : BarrierNode n) : BarrierNode n :=
  { node with sequenceID := node.sequenceID + 1 }

def wait (node : BarrierNode n) (j : Fin n) : BarrierNode n :=
  { node with partitionReady := insert j node.partitionReady, phase := .waiting }

def exchangeAccounts (node : BarrierNode n) (txpool : List PoolTx) : BarrierNode n :=
  { node with txpool := txpool, taken := node.taken ++ node.txpool, phase := .exchange }

/-- `proposePartition` puts the received transactions into the pool, and `accountTransfer_do` ends
the round.  `ReadySeq` and `seqIDMap` stay. -/
def endRound (node : BarrierNode n) (receivedNewTx : List PoolTx) : BarrierNode n :=
  { node with
    txpool := node.txpool ++ receivedNewTx
    sequenceID := node.sequenceID + 1
    partitionReady := ∅
    accountStateTx := ∅
    collectOver := false
    phase := .normal
    round := node.round + 1 }

/-- The handlers of the messages. -/
def receive (node : BarrierNode n) (p : Packet n) : BarrierNode n :=
  match p.message with
  | .relay senderSeq txs =>
    { node with
      txpool := node.txpool ++ txs
      seqIDMap := Function.update node.seqIDMap p.sender (some senderSeq)
      handled := node.handled ++ [p] }
  | .ready nowSeqID =>
    { node with
      partitionReady := insert p.sender node.partitionReady
      readySeq := Function.update node.readySeq p.sender (some nowSeqID) }
  | .accounts =>
    { node with
      accountStateTx := insert p.sender node.accountStateTx
      collectOver := node.collectOver ||
        decide ((insert p.sender node.accountStateTx).card + 1 = n) }

end BarrierNode

/-- One packet to each other shard. -/
def toOthers (j : Fin n) (message : Fin n → Message) : List (Packet n) :=
  ((List.finRange n).filter (· ≠ j)).map fun i => ⟨j, i, message i⟩

inductive BarrierMove (n : ℕ)
  | generateBlock (j : Fin n) (k : ℕ)
  /-- `handleInjectTx`. -/
  | injectTxs (j : Fin n) (txs : List PoolTx)
  /-- A block is committed at leader `j`, with the relay pools for the other shards. -/
  | commitBlock (j : Fin n) (relayPool : Fin n → List PoolTx)
  | sendPartitionReady (j : Fin n)
  /-- `getPartitionReady` is true and `sendAccounts_and_Txs` leaves `txpool`. -/
  | sendAccounts (j : Fin n) (txpool : List PoolTx)
  /-- All accounts have come, and the partition is proposed and committed. -/
  | accountTransfer (j : Fin n) (receivedNewTx : List PoolTx)
  | deliver (k : ℕ)

namespace BarrierSystem

/-- One leader changes and sends packets. -/
def act (s : BarrierSystem n) (j : Fin n) (node : BarrierNode n) (packets : List (Packet n)) :
    BarrierSystem n :=
  { s with nodes := Function.update s.nodes j node, network := s.network ++ packets }

def generateBlock (s : BarrierSystem n) (j : Fin n) (k : ℕ) : Option (BarrierSystem n) :=
  if (s.nodes j).phase = .normal then some (s.act j ((s.nodes j).packTxs k) []) else none

def injectTxs (s : BarrierSystem n) (j : Fin n) (txs : List PoolTx) : BarrierSystem n :=
  s.act j ((s.nodes j).addTxs txs) []

def relays (s : BarrierSystem n) (j : Fin n) (relayPool : Fin n → List PoolTx) :
    List (Packet n) :=
  toOthers j fun i => .relay (s.nodes j).sequenceID (relayPool i)

def commitBlock (s : BarrierSystem n) (j : Fin n) (relayPool : Fin n → List PoolTx) :
    Option (BarrierSystem n) :=
  if (s.nodes j).phase = .normal then
    some { s.act j (s.nodes j).nextSeq (s.relays j relayPool) with
      sent := s.sent ++ s.relays j relayPool }
  else none

def sendPartitionReady (s : BarrierSystem n) (j : Fin n) : Option (BarrierSystem n) :=
  if (s.nodes j).phase = .normal then
    some (s.act j ((s.nodes j).wait j) (toOthers j fun _ => .ready (s.nodes j).sequenceID))
  else none

def sendAccounts (s : BarrierSystem n) (j : Fin n) (txpool : List PoolTx) :
    Option (BarrierSystem n) :=
  if (s.nodes j).phase = .waiting ∧ getPartitionReady (s.nodes j) = true then
    some (s.act j ((s.nodes j).exchangeAccounts txpool) (toOthers j fun _ => .accounts))
  else none

def accountTransfer (s : BarrierSystem n) (j : Fin n) (receivedNewTx : List PoolTx) :
    Option (BarrierSystem n) :=
  if (s.nodes j).phase = .exchange ∧ (s.nodes j).collectOver = true then
    some (s.act j ((s.nodes j).endRound receivedNewTx) [])
  else none

/-- The packet `p` at position `k` is handled. -/
def handle (s : BarrierSystem n) (k : ℕ) (p : Packet n) : BarrierSystem n :=
  { s with
    nodes := Function.update s.nodes p.receiver ((s.nodes p.receiver).receive p)
    network := s.network.eraseIdx k }

def deliver (s : BarrierSystem n) (k : ℕ) : Option (BarrierSystem n) := do
  let p ← s.network[k]?
  some (s.handle k p)

end BarrierSystem

def barrierStep (s : BarrierSystem n) : BarrierMove n → Option (BarrierSystem n)
  | .generateBlock j k => s.generateBlock j k
  | .injectTxs j txs => some (s.injectTxs j txs)
  | .commitBlock j relayPool => s.commitBlock j relayPool
  | .sendPartitionReady j => s.sendPartitionReady j
  | .sendAccounts j txpool => s.sendAccounts j txpool
  | .accountTransfer j receivedNewTx => s.accountTransfer j receivedNewTx
  | .deliver k => s.deliver k

/-- A leader at the start, with any chain and pool. -/
structure NewBarrierNode (node : BarrierNode n) : Prop where
  seqIDMap : ∀ j, node.seqIDMap j = none
  partitionReady : node.partitionReady = ∅
  accountStateTx : node.accountStateTx = ∅
  collectOver : node.collectOver = false
  phase : node.phase = .normal
  round : node.round = 0
  handled : node.handled = []

structure BarrierStart (s : BarrierSystem n) : Prop where
  nodes : ∀ i, NewBarrierNode (s.nodes i)
  network : s.network = []
  sent : s.sent = []

def Message.isRelay : Message → Bool
  | .relay _ _ => true
  | .ready _ => false
  | .accounts => false

/-- A relay from `p.sender` to `p.receiver`. -/
def SameRelay (p q : Packet n) : Prop :=
  q.sender = p.sender ∧ q.receiver = p.receiver ∧ q.message.isRelay = true

instance (p q : Packet n) : Decidable (SameRelay p q) :=
  inferInstanceAs (Decidable (_ ∧ _ ∧ _))

/-- A packet that may be handled: a relay when no relay of the same pair was sent before it and is
still on its way; a `PartitionReady` when some relay of its sender was handled before, or none is
on its way. -/
def InTurn (s : BarrierSystem n) (k : ℕ) (p : Packet n) : Prop :=
  match p.message with
  | .relay _ _ => ∀ q ∈ s.network.take k, ¬ SameRelay p q
  | .ready _ => ((s.nodes p.receiver).seqIDMap p.sender).isSome ∨ ∀ q ∈ s.network, ¬ SameRelay p q
  | .accounts => True

instance (s : BarrierSystem n) (k : ℕ) : (p : Packet n) → Decidable (InTurn s k p)
  | ⟨_, _, .relay _ _⟩ => inferInstanceAs (Decidable (∀ q ∈ s.network.take k, ¬ SameRelay _ q))
  | ⟨_, _, .ready _⟩ => inferInstanceAs (Decidable (_ ∨ ∀ q ∈ s.network, ¬ SameRelay _ q))
  | ⟨_, _, .accounts⟩ => inferInstanceAs (Decidable True)

def RelaysInOrder (s : BarrierSystem n) : BarrierMove n → Prop
  | .deliver k => ∀ p ∈ s.network[k]?, InTurn s k p
  | _ => True

instance (s : BarrierSystem n) : (move : BarrierMove n) → Decidable (RelaysInOrder s move)
  | .deliver k => inferInstanceAs (Decidable (∀ p ∈ s.network[k]?, InTurn s k p))
  | .generateBlock _ _ => inferInstanceAs (Decidable True)
  | .injectTxs _ _ => inferInstanceAs (Decidable True)
  | .commitBlock _ _ => inferInstanceAs (Decidable True)
  | .sendPartitionReady _ => inferInstanceAs (Decidable True)
  | .sendAccounts _ _ => inferInstanceAs (Decidable True)
  | .accountTransfer _ _ => inferInstanceAs (Decidable True)

def Message.txs : Message → List PoolTx
  | .relay _ txs => txs
  | .ready _ => []
  | .accounts => []

/-- **What the barrier is for**: all leaders are in the same round with their blocks stopped, all
relays to this leader have been handled, and their transactions went into the pool. -/
structure BarrierHolds (s : BarrierSystem n) (i : Fin n) : Prop where
  stopped : ∀ j, (s.nodes j).phase ≠ .normal ∧ (s.nodes j).round = (s.nodes i).round
  handled : ∀ p ∈ s.sent, p.receiver = i → p ∈ (s.nodes i).handled
  pooled : ∀ p ∈ s.sent, p.receiver = i → ∀ tx ∈ p.message.txs,
    tx ∈ (s.nodes i).txpool ∨ tx ∈ (s.nodes i).taken

/-! ### Stages -/

def BarrierPhase.index : BarrierPhase → ℕ
  | .normal => 0
  | .waiting => 1
  | .exchange => 2

/-- How far a leader has come: three stages for each round. -/
def BarrierNode.stage (node : BarrierNode n) : ℕ := 3 * node.round + node.phase.index

theorem BarrierNode.stage_bounds (node : BarrierNode n) :
    3 * node.round ≤ node.stage ∧ node.stage ≤ 3 * node.round + 2 := by
  unfold stage
  cases node.phase <;> simp [BarrierPhase.index]

theorem stage_of_phase {node : BarrierNode n} {phase : BarrierPhase} (h : node.phase = phase) :
    node.stage = 3 * node.round + phase.index := by
  rw [BarrierNode.stage, h]

theorem phase_ne_normal {node : BarrierNode n} (h : 3 * node.round + 1 ≤ node.stage) :
    node.phase ≠ .normal := by
  intro hp
  have hstage := stage_of_phase hp
  simp only [BarrierPhase.index] at hstage
  omega

/-! ### Packets -/

theorem mem_toOthers {j a b : Fin n} {message : Fin n → Message} {m : Message} :
    (⟨a, b, m⟩ : Packet n) ∈ toOthers j message ↔ a = j ∧ b ≠ j ∧ m = message b := by
  simp only [toOthers, List.mem_map, List.mem_filter, List.mem_finRange, true_and,
    decide_eq_true_eq, Packet.mk.injEq]
  constructor
  · rintro ⟨i, hi, rfl, rfl, rfl⟩
    exact ⟨rfl, hi, rfl⟩
  · rintro ⟨rfl, hb, rfl⟩
    exact ⟨b, hb, rfl, rfl, rfl⟩

/-- The messages of which there is one at a time: `PartitionReady` and the accounts. -/
def Message.single : Message → Option Bool
  | .relay _ _ => none
  | .ready _ => some true
  | .accounts => some false

/-- Two packets of one pair are not the same of these messages. -/
def Once (p q : Packet n) : Prop :=
  p.sender = q.sender → p.receiver = q.receiver → p.message.single = q.message.single →
    p.message.single = none

theorem Once.symm {p q : Packet n} (h : Once p q) : Once q p := by
  intro hs hr hm
  rw [hm]
  exact h hs.symm hr.symm hm.symm

theorem toOthers_once (j : Fin n) (message : Fin n → Message) :
    (toOthers j message).Pairwise Once := by
  refine List.pairwise_map.mpr ?_
  refine (List.Pairwise.filter _ (List.nodup_finRange n)).imp ?_
  intro a b hne _ hr _
  exact absurd hr hne

/-- New packets keep `Once` when the sender has none of the kind on the way. -/
theorem once_append {network : List (Packet n)} (h : network.Pairwise Once) (j : Fin n)
    (message : Fin n → Message)
    (hnone : ∀ i m, (⟨j, i, m⟩ : Packet n) ∈ network → m.single = (message i).single →
      m.single = none) : (network ++ toOthers j message).Pairwise Once := by
  refine List.pairwise_append.mpr ⟨h, toOthers_once j message, ?_⟩
  rintro ⟨a, b, m⟩ hp ⟨a', b', m'⟩ hq hs hr hm
  obtain ⟨rfl, -, rfl⟩ := mem_toOthers.mp hq
  cases hs
  cases hr
  exact hnone _ _ hp hm

/-- The packet that is handled was the only one of its kind. -/
theorem once_eraseIdx {network : List (Packet n)} (h : network.Pairwise Once) {k : ℕ}
    {p q : Packet n} (hp : network[k]? = some p) (hq : q ∈ network.eraseIdx k) : Once p q := by
  have hperm := (perm_eraseIdx hp).pairwise h Once.symm
  exact (List.pairwise_cons.mp hperm).1 q hq

theorem others_append {network : List (Packet n)} (h : ∀ p ∈ network, p.sender ≠ p.receiver)
    (j : Fin n) (message : Fin n → Message) :
    ∀ p ∈ network ++ toOthers j message, p.sender ≠ p.receiver := by
  rintro ⟨a, b, m⟩ hp
  obtain hp | hp := List.mem_append.mp hp
  · exact h _ hp
  · obtain ⟨rfl, hb, -⟩ := mem_toOthers.mp hp
    exact hb.symm

/-- A packet of another sender, or with another kind of message, is not one of the new ones. -/
theorem mem_of_mem_append {network : List (Packet n)} {j a b : Fin n} {message : Fin n → Message}
    {m : Message} (h : (⟨a, b, m⟩ : Packet n) ∈ network ++ toOthers j message)
    (hne : a ≠ j ∨ m ≠ message b) : (⟨a, b, m⟩ : Packet n) ∈ network := by
  obtain h | h := List.mem_append.mp h
  · exact h
  · obtain ⟨ha, -, hm⟩ := mem_toOthers.mp h
    exact absurd ⟨ha, hm⟩ (not_and_or.mpr hne)

/-! ### One leader at a time -/

variable {s s' : BarrierSystem n} {i j k : Fin n} {node : BarrierNode n}
  {packets : List (Packet n)}

@[simp] theorem act_self : (s.act j node packets).nodes j = node := Function.update_self ..

@[simp] theorem act_of_ne (h : k ≠ j) : (s.act j node packets).nodes k = s.nodes k :=
  Function.update_of_ne h ..

/-- A field that is the same in the changed leader is the same in all. -/
theorem act_field {α : Type} (f : BarrierNode n → α) (h : f node = f (s.nodes j)) (k : Fin n) :
    f ((s.act j node packets).nodes k) = f (s.nodes k) := by
  by_cases hk : k = j
  · rw [hk, act_self, h]
  · rw [act_of_ne hk]

theorem stage_le_act (h : (s.nodes j).stage ≤ node.stage) (k : Fin n) :
    (s.nodes k).stage ≤ ((s.act j node packets).nodes k).stage := by
  by_cases hk : k = j
  · rw [hk, act_self]
    exact h
  · rw [act_of_ne hk]

theorem handle_self (l : ℕ) (p : Packet n) :
    (s.handle l p).nodes p.receiver = (s.nodes p.receiver).receive p := Function.update_self ..

theorem handle_of_ne (l : ℕ) {p : Packet n} (h : k ≠ p.receiver) :
    (s.handle l p).nodes k = s.nodes k := Function.update_of_ne h ..

theorem handle_field {α : Type} (f : BarrierNode n → α) (l : ℕ) {p : Packet n}
    (h : f ((s.nodes p.receiver).receive p) = f (s.nodes p.receiver)) (k : Fin n) :
    f ((s.handle l p).nodes k) = f (s.nodes k) := by
  by_cases hk : k = p.receiver
  · rw [hk, handle_self, h]
  · rw [handle_of_ne l hk]

/-! ### The rounds -/

/-- The leaders are at most two stages apart; a `PartitionReady` is of the round of its sender, and
it is handled before the receiver passes the barrier of that round. -/
structure Progress (s : BarrierSystem n) : Prop where
  others : ∀ p ∈ s.network, p.sender ≠ p.receiver
  once : s.network.Pairwise Once
  begun : ∀ j k, (s.nodes j).stage = 3 * (s.nodes j).round + 2 →
    3 * (s.nodes j).round + 1 ≤ (s.nodes k).stage
  passed : ∀ j k, 3 * (s.nodes j).round ≤ (s.nodes k).stage + 1
  ready : ∀ j i q, ⟨j, i, .ready q⟩ ∈ s.network → q = (s.nodes j).sequenceID ∧
    3 * (s.nodes j).round + 1 ≤ (s.nodes j).stage ∧
    (s.nodes i).stage ≤ 3 * (s.nodes j).round + 1
  counted : ∀ j i, j ∈ (s.nodes i).partitionReady →
    (s.nodes i).stage ≤ 3 * (s.nodes i).round + 1 →
    3 * (s.nodes j).round + 1 ≤ (s.nodes j).stage ∧ (s.nodes j).round = (s.nodes i).round ∧
    (j ≠ i → (s.nodes i).readySeq j = some (s.nodes j).sequenceID) ∧
    ∀ q, ⟨j, i, .ready q⟩ ∉ s.network
  accounts : ∀ j i, ⟨j, i, .accounts⟩ ∈ s.network →
    3 * (s.nodes i).round + 2 ≤ (s.nodes j).stage
  collected : ∀ j i, j ∈ (s.nodes i).accountStateTx → j ≠ i ∧
    3 * (s.nodes i).round + 2 ≤ (s.nodes j).stage ∧ ⟨j, i, .accounts⟩ ∉ s.network
  full : ∀ i, (s.nodes i).collectOver = true → ∀ j, j ≠ i → j ∈ (s.nodes i).accountStateTx

theorem BarrierStart.progress (h : BarrierStart s) : Progress s := by
  have hround : ∀ i, (s.nodes i).round = 0 := fun i => (h.nodes i).round
  have hstage : ∀ i, (s.nodes i).stage = 0 := by
    intro i
    rw [stage_of_phase (h.nodes i).phase, hround]
    rfl
  have hready : ∀ i, (s.nodes i).partitionReady = ∅ := fun i => (h.nodes i).partitionReady
  have haccounts : ∀ i, (s.nodes i).accountStateTx = ∅ := fun i => (h.nodes i).accountStateTx
  have hcollect : ∀ i, (s.nodes i).collectOver = false := fun i => (h.nodes i).collectOver
  constructor <;> simp [h.network, hround, hstage, hready, haccounts, hcollect]

/-- Where nothing changes that a `PartitionReady` is about. -/
theorem Progress.ready_of (h : Progress s)
    (hstage : ∀ k, (s'.nodes k).stage = (s.nodes k).stage)
    (hround : ∀ k, (s'.nodes k).round = (s.nodes k).round)
    (hseq : ∀ k, (s'.nodes k).sequenceID = (s.nodes k).sequenceID)
    (hready : ∀ k, (s'.nodes k).partitionReady = (s.nodes k).partitionReady)
    (hreadySeq : ∀ k, (s'.nodes k).readySeq = (s.nodes k).readySeq)
    (hold : ∀ j i q, ⟨j, i, .ready q⟩ ∈ s'.network → ⟨j, i, .ready q⟩ ∈ s.network) :
    (∀ j i q, ⟨j, i, .ready q⟩ ∈ s'.network → q = (s'.nodes j).sequenceID ∧
      3 * (s'.nodes j).round + 1 ≤ (s'.nodes j).stage ∧
      (s'.nodes i).stage ≤ 3 * (s'.nodes j).round + 1) ∧
    ∀ j i, j ∈ (s'.nodes i).partitionReady →
      (s'.nodes i).stage ≤ 3 * (s'.nodes i).round + 1 →
      3 * (s'.nodes j).round + 1 ≤ (s'.nodes j).stage ∧ (s'.nodes j).round = (s'.nodes i).round ∧
      (j ≠ i → (s'.nodes i).readySeq j = some (s'.nodes j).sequenceID) ∧
      ∀ q, ⟨j, i, .ready q⟩ ∉ s'.network := by
  simp only [hstage, hround, hseq, hready, hreadySeq]
  refine ⟨fun j i q hp => h.ready j i q (hold j i q hp), fun j i hj hi => ?_⟩
  obtain ⟨h1, h2, h3, h4⟩ := h.counted j i hj hi
  exact ⟨h1, h2, h3, fun q hp => h4 q (hold j i q hp)⟩

/-- Where nothing changes that the accounts are about; leaders may get further in their rounds. -/
theorem Progress.accounts_of (h : Progress s)
    (hle : ∀ k, (s.nodes k).stage ≤ (s'.nodes k).stage)
    (hround : ∀ k, (s'.nodes k).round = (s.nodes k).round)
    (haccounts : ∀ k, (s'.nodes k).accountStateTx = (s.nodes k).accountStateTx)
    (hcollect : ∀ k, (s'.nodes k).collectOver = (s.nodes k).collectOver)
    (hold : ∀ j i, ⟨j, i, .accounts⟩ ∈ s'.network → ⟨j, i, .accounts⟩ ∈ s.network) :
    (∀ j i, ⟨j, i, .accounts⟩ ∈ s'.network →
      3 * (s'.nodes i).round + 2 ≤ (s'.nodes j).stage) ∧
    (∀ j i, j ∈ (s'.nodes i).accountStateTx → j ≠ i ∧
      3 * (s'.nodes i).round + 2 ≤ (s'.nodes j).stage ∧ ⟨j, i, .accounts⟩ ∉ s'.network) ∧
    ∀ i, (s'.nodes i).collectOver = true → ∀ j, j ≠ i → j ∈ (s'.nodes i).accountStateTx := by
  simp only [hround, haccounts, hcollect]
  refine ⟨fun j i hp => (h.accounts j i (hold j i hp)).trans (hle j), fun j i hj => ?_, h.full⟩
  obtain ⟨h1, h2, h3⟩ := h.collected j i hj
  exact ⟨h1, h2.trans (hle j), fun hp => h3 (hold j i hp)⟩

/-- While no round ends, nobody falls behind. -/
theorem Progress.passed_of (h : Progress s)
    (hle : ∀ k, (s.nodes k).stage ≤ (s'.nodes k).stage)
    (hround : ∀ k, (s'.nodes k).round = (s.nodes k).round) (j k : Fin n) :
    3 * (s'.nodes j).round ≤ (s'.nodes k).stage + 1 := by
  have hpassed := h.passed j k
  have hk := hle k
  rw [hround]
  omega

/-- What `Progress` reads of a leader. -/
def BarrierNode.view (node : BarrierNode n) :=
  (node.stage, node.round, node.sequenceID, node.partitionReady, node.readySeq,
    node.accountStateTx, node.collectOver)

/-- Steps that only concern pools and relays. -/
theorem Progress.of_view (h : Progress s) (hview : ∀ k, (s'.nodes k).view = (s.nodes k).view)
    (hnetwork : s'.network.Sublist s.network) : Progress s' := by
  simp only [BarrierNode.view, Prod.mk.injEq] at hview
  have hsub := hnetwork.subset
  have hstage := fun k => (hview k).1
  have hround := fun k => (hview k).2.1
  obtain ⟨hready, hcounted⟩ := h.ready_of hstage hround (fun k => (hview k).2.2.1)
    (fun k => (hview k).2.2.2.1) (fun k => (hview k).2.2.2.2.1) fun j i q hp => hsub hp
  obtain ⟨haccounts, hcollected, hfull⟩ := h.accounts_of (fun k => (hstage k).ge) hround
    (fun k => (hview k).2.2.2.2.2.1) (fun k => (hview k).2.2.2.2.2.2) fun j i hp => hsub hp
  exact ⟨fun p hp => h.others p (hsub hp), h.once.sublist hnetwork,
    by simpa only [hstage, hround] using h.begun, by simpa only [hstage, hround] using h.passed,
    hready, hcounted, haccounts, hcollected, hfull⟩

theorem Progress.act_pool (h : Progress s) (hview : node.view = (s.nodes j).view) :
    Progress (s.act j node []) := by
  refine h.of_view (act_field _ hview) ?_
  show (s.network ++ []).Sublist s.network
  rw [List.append_nil]

/-- A leader that proposes blocks has no `PartitionReady` on the way and is counted by no one who
is before the exchange. -/
theorem Progress.not_ready (h : Progress s) (hj : (s.nodes j).stage = 3 * (s.nodes j).round) :
    (∀ i q, ⟨j, i, .ready q⟩ ∉ s.network) ∧
      ∀ i, (s.nodes i).stage ≤ 3 * (s.nodes i).round + 1 → j ∉ (s.nodes i).partitionReady := by
  constructor
  · intro i q hp
    have := (h.ready j i q hp).2.1
    omega
  · intro i hi hmem
    have := (h.counted j i hmem hi).1
    omega

/-- A block is committed: the sequence number is not one that someone was told. -/
theorem Progress.commitBlock (h : Progress s) (hphase : (s.nodes j).phase = .normal)
    (relayPool : Fin n → List PoolTx) :
    Progress (s.act j (s.nodes j).nextSeq (s.relays j relayPool)) := by
  obtain ⟨hnone, huncounted⟩ := h.not_ready (stage_of_phase hphase)
  set t := s.act j (s.nodes j).nextSeq (s.relays j relayPool) with ht
  have hstage : ∀ k, (t.nodes k).stage = (s.nodes k).stage := act_field _ rfl
  have hround : ∀ k, (t.nodes k).round = (s.nodes k).round := act_field _ rfl
  have hready : ∀ k, (t.nodes k).partitionReady = (s.nodes k).partitionReady := act_field _ rfl
  have hreadySeq : ∀ k, (t.nodes k).readySeq = (s.nodes k).readySeq := act_field _ rfl
  have hseq : ∀ k, k ≠ j → (t.nodes k).sequenceID = (s.nodes k).sequenceID := by
    intro k hk
    rw [ht, act_of_ne hk]
  have hold : ∀ a b m, m.single ≠ none → ⟨a, b, m⟩ ∈ t.network → ⟨a, b, m⟩ ∈ s.network := by
    intro a b m hm hp
    refine mem_of_mem_append hp (.inr ?_)
    rintro rfl
    exact hm rfl
  obtain ⟨hpackets, hcollected, hfull⟩ := h.accounts_of (fun k => (hstage k).ge) hround
    (act_field _ rfl) (act_field _ rfl) fun a b => hold a b .accounts (Option.some_ne_none _)
  refine ⟨?_, ?_, ?_, ?_, ?_, ?_, hpackets, hcollected, hfull⟩
  · exact others_append h.others j _
  · exact once_append h.once j _ fun i m _ hm => hm
  · simpa only [hstage, hround] using h.begun
  · simpa only [hstage, hround] using h.passed
  · intro a b q hp
    have hmem := hold a b (.ready q) (Option.some_ne_none _) hp
    have ha : a ≠ j := by
      rintro rfl
      exact hnone b q hmem
    rw [hseq a ha, hstage, hstage, hround]
    exact h.ready a b q hmem
  · intro a b hab hb
    rw [hready] at hab
    rw [hstage, hround] at hb
    have ha : a ≠ j := by
      rintro rfl
      exact huncounted b hb hab
    obtain ⟨h1, h2, h3, h4⟩ := h.counted a b hab hb
    rw [hstage, hround, hround, hreadySeq, hseq a ha]
    exact ⟨h1, h2, h3, fun q hp => h4 q (hold a b _ (Option.some_ne_none _) hp)⟩

/-- A leader becomes ready: no other leader is past the barrier of this round. -/
theorem Progress.sendPartitionReady (h : Progress s) (hphase : (s.nodes j).phase = .normal) :
    Progress (s.act j ((s.nodes j).wait j)
      (toOthers j fun _ => .ready (s.nodes j).sequenceID)) := by
  have hj : (s.nodes j).stage = 3 * (s.nodes j).round := stage_of_phase hphase
  obtain ⟨hnone, huncounted⟩ := h.not_ready hj
  set t := s.act j ((s.nodes j).wait j) (toOthers j fun _ => .ready (s.nodes j).sequenceID) with ht
  have hround : ∀ k, (t.nodes k).round = (s.nodes k).round := act_field _ rfl
  have hseq : ∀ k, (t.nodes k).sequenceID = (s.nodes k).sequenceID := act_field _ rfl
  have hreadySeq : ∀ k, (t.nodes k).readySeq = (s.nodes k).readySeq := act_field _ rfl
  have hself : (t.nodes j).stage = 3 * (s.nodes j).round + 1 := by
    rw [ht, act_self]
    rfl
  have hother : ∀ k, k ≠ j → t.nodes k = s.nodes k := fun k hk => act_of_ne hk
  have hle : ∀ k, (s.nodes k).stage ≤ (t.nodes k).stage :=
    stage_le_act (show _ ≤ 3 * (s.nodes j).round + 1 by omega)
  -- where the others can be when this leader is before the barrier
  have hbefore : ∀ k, (s.nodes k).stage ≤ 3 * (s.nodes j).round + 1 := by
    intro k
    have hbegun := h.begun k j
    have hpassed := h.passed k j
    have hk := (s.nodes k).stage_bounds
    omega
  obtain ⟨haccounts, hcollected, hfull⟩ := h.accounts_of hle hround (act_field _ rfl)
    (act_field _ rfl) fun a b hp => mem_of_mem_append hp (.inr Message.noConfusion)
  refine ⟨?_, ?_, ?_, ?_, ?_, ?_, haccounts, hcollected, hfull⟩
  · exact others_append h.others j _
  · refine once_append h.once j _ ?_
    intro i m hp hm
    cases m with
    | relay senderSeq txs => rfl
    | ready q => exact absurd hp (hnone i q)
    | accounts => cases hm
  · intro a b hstage
    rw [hround] at hstage ⊢
    have ha : a ≠ j := by
      rintro rfl
      omega
    rw [hother a ha] at hstage
    exact (h.begun a b hstage).trans (hle b)
  · exact h.passed_of hle hround
  · intro a b q hp
    rw [hseq, hround]
    by_cases ha : a = j
    · subst ha
      obtain hp | hp := List.mem_append.mp hp
      · exact absurd hp (hnone b q)
      · obtain ⟨-, hb, hq⟩ := mem_toOthers.mp hp
        rw [hother b hb]
        exact ⟨Message.ready.inj hq, hself.ge, hbefore b⟩
    · obtain ⟨h1, h2, h3⟩ := h.ready a b q (mem_of_mem_append hp (.inl ha))
      refine ⟨h1, h2.trans (hle a), ?_⟩
      by_cases hb : b = j
      · subst hb
        omega
      · rw [hother b hb]
        exact h3
  · intro a b hab hb
    rw [hround] at hb
    rw [hround, hround, hseq, hreadySeq]
    by_cases ha : a = j
    · subst ha
      have hb' : b = a := by
        by_contra hne
        rw [hother b hne] at hab hb
        exact huncounted b hb hab
      subst hb'
      exact ⟨hself.ge, rfl, fun hne => absurd rfl hne,
        fun q hp => others_append h.others b _ _ hp rfl⟩
    · have hab' : a ∈ (s.nodes b).partitionReady ∧
          (s.nodes b).stage ≤ 3 * (s.nodes b).round + 1 := by
        refine ⟨?_, (hle b).trans hb⟩
        by_cases hbj : b = j
        · rw [hbj, ht, act_self] at hab
          rw [hbj]
          exact Finset.mem_of_mem_insert_of_ne hab ha
        · rwa [hother b hbj] at hab
      obtain ⟨h1, h2, h3, h4⟩ := h.counted a b hab'.1 hab'.2
      exact ⟨h1.trans (hle a), h2, h3, fun q hp => h4 q (mem_of_mem_append hp (.inl ha))⟩

/-- All leaders are counted at the barrier. -/
theorem Progress.all_counted (h : Progress s) (hphase : (s.nodes i).phase = .waiting)
    (hready : getPartitionReady (s.nodes i) = true) (k : Fin n) :
    3 * (s.nodes k).round + 1 ≤ (s.nodes k).stage ∧ (s.nodes k).round = (s.nodes i).round ∧
      (k ≠ i → (s.nodes i).readySeq k = some (s.nodes k).sequenceID) ∧
      ∀ q, ⟨k, i, .ready q⟩ ∉ s.network := by
  have hcard := (of_decide_eq_true hready).1
  have hall : (s.nodes i).partitionReady = Finset.univ := by
    rw [← Finset.card_eq_iff_eq_univ, hcard, Fintype.card_fin]
  refine h.counted k i ?_ (stage_of_phase hphase).le
  rw [hall]
  exact Finset.mem_univ k

theorem Progress.sendAccounts (h : Progress s) (hphase : (s.nodes j).phase = .waiting)
    (hready : getPartitionReady (s.nodes j) = true) (txpool : List PoolTx) :
    Progress (s.act j ((s.nodes j).exchangeAccounts txpool) (toOthers j fun _ => .accounts)) := by
  have hj : (s.nodes j).stage = 3 * (s.nodes j).round + 1 := stage_of_phase hphase
  have hall := h.all_counted hphase hready
  set t := s.act j ((s.nodes j).exchangeAccounts txpool) (toOthers j fun _ => .accounts) with ht
  have hround : ∀ k, (t.nodes k).round = (s.nodes k).round := act_field _ rfl
  have hseq : ∀ k, (t.nodes k).sequenceID = (s.nodes k).sequenceID := act_field _ rfl
  have hreadySeq : ∀ k, (t.nodes k).readySeq = (s.nodes k).readySeq := act_field _ rfl
  have hpartition : ∀ k, (t.nodes k).partitionReady = (s.nodes k).partitionReady :=
    act_field _ rfl
  have haccounts : ∀ k, (t.nodes k).accountStateTx = (s.nodes k).accountStateTx :=
    act_field _ rfl
  have hcollect : ∀ k, (t.nodes k).collectOver = (s.nodes k).collectOver := act_field _ rfl
  have hself : (t.nodes j).stage = 3 * (s.nodes j).round + 2 := by
    rw [ht, act_self]
    rfl
  have hother : ∀ k, k ≠ j → t.nodes k = s.nodes k := fun k hk => act_of_ne hk
  have hle : ∀ k, (s.nodes k).stage ≤ (t.nodes k).stage :=
    stage_le_act (show _ ≤ 3 * (s.nodes j).round + 2 by omega)
  constructor
  · exact others_append h.others j _
  · refine once_append h.once j _ ?_
    intro i m hp hm
    cases m with
    | relay senderSeq txs => rfl
    | ready q => cases hm
    | accounts =>
      have := h.accounts j i hp
      have := (hall i).2.1
      omega
  · intro a b hstage
    rw [hround] at hstage ⊢
    by_cases ha : a = j
    · have hb := hall b
      have := hle b
      rw [ha]
      omega
    · rw [hother a ha] at hstage
      exact (h.begun a b hstage).trans (hle b)
  · exact h.passed_of hle hround
  · intro a b q hp
    have hmem : ⟨a, b, .ready q⟩ ∈ s.network := mem_of_mem_append hp (.inr Message.noConfusion)
    have hb : b ≠ j := by
      rintro rfl
      exact (hall a).2.2.2 q hmem
    obtain ⟨h1, h2, h3⟩ := h.ready a b q hmem
    rw [hseq, hround, hother b hb]
    exact ⟨h1, h2.trans (hle a), h3⟩
  · intro a b hab hb
    have hbj : b ≠ j := by
      rintro rfl
      rw [hround] at hb
      omega
    rw [hpartition] at hab
    rw [hother b hbj] at hb
    obtain ⟨h1, h2, h3, h4⟩ := h.counted a b hab hb
    rw [hround, hround, hseq, hreadySeq]
    exact ⟨h1.trans (hle a), h2, h3,
      fun q hp => h4 q (mem_of_mem_append hp (.inr Message.noConfusion))⟩
  · intro a b hp
    rw [hround]
    by_cases ha : a = j
    · have := (hall b).2.1
      rw [ha]
      omega
    · exact (h.accounts a b (mem_of_mem_append hp (.inl ha))).trans (hle a)
  · intro a b hab
    rw [haccounts] at hab
    rw [hround]
    obtain ⟨h1, h2, h3⟩ := h.collected a b hab
    have ha : a ≠ j := by
      rintro rfl
      have := (hall b).2.1
      omega
    exact ⟨h1, h2.trans (hle a), fun hp => h3 (mem_of_mem_append hp (.inl ha))⟩
  · simpa only [hcollect, haccounts] using h.full

/-- The end of a round: the others have sent their accounts of it. -/
theorem Progress.accountTransfer (h : Progress s) (hphase : (s.nodes j).phase = .exchange)
    (hover : (s.nodes j).collectOver = true) (receivedNewTx : List PoolTx) :
    Progress (s.act j ((s.nodes j).endRound receivedNewTx) []) := by
  have hj : (s.nodes j).stage = 3 * (s.nodes j).round + 2 := stage_of_phase hphase
  have hall : ∀ k, k ≠ j → 3 * (s.nodes j).round + 2 ≤ (s.nodes k).stage ∧
      ⟨k, j, .accounts⟩ ∉ s.network := by
    intro k hk
    exact (h.collected k j (h.full j hover k hk)).2
  set t := s.act j ((s.nodes j).endRound receivedNewTx) [] with ht
  have hnetwork : t.network = s.network := List.append_nil _
  have hreadySeq : ∀ k, (t.nodes k).readySeq = (s.nodes k).readySeq := act_field _ rfl
  have hself : t.nodes j = (s.nodes j).endRound receivedNewTx := act_self
  have hstage : (t.nodes j).stage = 3 * (s.nodes j).round + 3 := by
    rw [hself]
    rfl
  have hround : (t.nodes j).round = (s.nodes j).round + 1 := by
    rw [hself]
    rfl
  have hother : ∀ k, k ≠ j → t.nodes k = s.nodes k := fun k hk => act_of_ne hk
  have hle : ∀ k, (s.nodes k).stage ≤ (t.nodes k).stage :=
    stage_le_act (show _ ≤ 3 * (s.nodes j).round + 3 by omega)
  constructor
  · rw [hnetwork]
    exact h.others
  · rw [hnetwork]
    exact h.once
  · intro a b ha
    have haj : a ≠ j := by
      rintro rfl
      omega
    rw [hother a haj] at ha ⊢
    exact (h.begun a b ha).trans (hle b)
  · intro a b
    by_cases ha : a = j
    · subst ha
      by_cases hb : b = a
      · subst hb
        omega
      · have := (hall b hb).1
        rw [hother b hb]
        omega
    · have := h.passed a b
      have := hle b
      rw [hother a ha]
      omega
  · intro a b q hp
    rw [hnetwork] at hp
    obtain ⟨h1, h2, h3⟩ := h.ready a b q hp
    have hab : a ≠ b := h.others _ hp
    have ha : a ≠ j := by
      rintro rfl
      have := (hall b hab.symm).1
      omega
    rw [hother a ha]
    refine ⟨h1, h2, ?_⟩
    by_cases hb : b = j
    · subst hb
      omega
    · rw [hother b hb]
      exact h3
  · intro a b hab hb
    have hbj : b ≠ j := by
      rintro rfl
      rw [hself] at hab
      exact absurd hab (Finset.notMem_empty a)
    rw [hother b hbj] at hab hb ⊢
    obtain ⟨h1, h2, h3, h4⟩ := h.counted a b hab hb
    have ha : a ≠ j := by
      rintro rfl
      have := (hall b hbj).1
      omega
    rw [hother a ha, hnetwork]
    exact ⟨h1, h2, h3, h4⟩
  · intro a b hp
    rw [hnetwork] at hp
    have hb : b ≠ j := by
      rintro rfl
      exact (hall a (h.others _ hp)).2 hp
    rw [hother b hb]
    exact (h.accounts a b hp).trans (hle a)
  · intro a b hab
    have hb : b ≠ j := by
      rintro rfl
      rw [hself] at hab
      exact absurd hab (Finset.notMem_empty a)
    rw [hother b hb] at hab ⊢
    obtain ⟨h1, h2, h3⟩ := h.collected a b hab
    rw [hnetwork]
    exact ⟨h1, h2.trans (hle a), h3⟩
  · intro b hb
    have hbj : b ≠ j := by
      rintro rfl
      rw [hself] at hb
      cases hb
    rw [hother b hbj] at hb ⊢
    exact h.full b hb

/-- A `PartitionReady` is handled: it is of the round of the receiver. -/
theorem Progress.handle_ready (h : Progress s) {l q : ℕ} {a b : Fin n}
    (hp : s.network[l]? = some ⟨a, b, .ready q⟩) : Progress (s.handle l ⟨a, b, .ready q⟩) := by
  have hsub := (List.eraseIdx_sublist s.network l).subset
  have hin : ⟨a, b, .ready q⟩ ∈ s.network := List.mem_of_getElem? hp
  set t := s.handle l ⟨a, b, .ready q⟩ with ht
  have hstage : ∀ k, (t.nodes k).stage = (s.nodes k).stage := handle_field _ l rfl
  have hround : ∀ k, (t.nodes k).round = (s.nodes k).round := handle_field _ l rfl
  have hseq : ∀ k, (t.nodes k).sequenceID = (s.nodes k).sequenceID := handle_field _ l rfl
  have hself : t.nodes b = (s.nodes b).receive ⟨a, b, .ready q⟩ := handle_self l _
  have hother : ∀ k, k ≠ b → t.nodes k = s.nodes k := fun k hk => handle_of_ne l hk
  obtain ⟨haccounts, hcollected, hfull⟩ := h.accounts_of (fun k => (hstage k).ge) hround
    (handle_field _ l rfl) (handle_field _ l rfl) fun c d hmem => hsub hmem
  refine ⟨?_, ?_, ?_, ?_, ?_, ?_, haccounts, hcollected, hfull⟩
  · intro p hmem
    exact h.others p (hsub hmem)
  · exact h.once.sublist (List.eraseIdx_sublist s.network l)
  · simpa only [hstage, hround] using h.begun
  · simpa only [hstage, hround] using h.passed
  · intro c d q' hmem
    rw [hseq, hround, hstage, hstage]
    exact h.ready c d q' (hsub hmem)
  · intro c d hcd hd
    rw [hstage, hround] at hd
    rw [hstage, hround, hround, hseq]
    by_cases hnew : c = a ∧ d = b
    · obtain ⟨rfl, rfl⟩ := hnew
      obtain ⟨hq, h2, h3⟩ := h.ready c d q hin
      have hpassed := h.passed c d
      have hbounds := (s.nodes d).stage_bounds
      refine ⟨h2, by omega, ?_, ?_⟩
      · intro _
        rw [hself, ← hq]
        exact Function.update_self ..
      · intro q' hmem
        cases once_eraseIdx h.once hp hmem rfl rfl rfl
    · have hold : c ∈ (s.nodes d).partitionReady ∧
          (t.nodes d).readySeq c = (s.nodes d).readySeq c := by
        by_cases hdb : d = b
        · have hca : c ≠ a := fun hca => hnew ⟨hca, hdb⟩
          rw [hdb, hself] at hcd
          rw [hdb, hself]
          exact ⟨Finset.mem_of_mem_insert_of_ne hcd hca, Function.update_of_ne hca ..⟩
        · rw [hother d hdb] at hcd
          rw [hother d hdb]
          exact ⟨hcd, rfl⟩
      obtain ⟨h1, h2, h3, h4⟩ := h.counted c d hold.1 hd
      rw [hold.2]
      exact ⟨h1, h2, h3, fun q' hmem => h4 q' (hsub hmem)⟩

/-- All but one of the shards are in a set without it of this size. -/
theorem mem_of_card_add_one {accountStateTx : Finset (Fin n)} (hi : i ∉ accountStateTx)
    (hcard : accountStateTx.card + 1 = n) (hj : j ≠ i) : j ∈ accountStateTx := by
  have huniv : insert i accountStateTx = Finset.univ := by
    rw [← Finset.card_eq_iff_eq_univ, Finset.card_insert_of_notMem hi, hcard, Fintype.card_fin]
  refine Finset.mem_of_mem_insert_of_ne ?_ hj
  rw [huniv]
  exact Finset.mem_univ j

theorem Progress.handle_accounts (h : Progress s) {l : ℕ} {a b : Fin n}
    (hp : s.network[l]? = some ⟨a, b, .accounts⟩) : Progress (s.handle l ⟨a, b, .accounts⟩) := by
  have hsub := (List.eraseIdx_sublist s.network l).subset
  have hin : ⟨a, b, .accounts⟩ ∈ s.network := List.mem_of_getElem? hp
  set t := s.handle l ⟨a, b, .accounts⟩ with ht
  have hstage : ∀ k, (t.nodes k).stage = (s.nodes k).stage := handle_field _ l rfl
  have hround : ∀ k, (t.nodes k).round = (s.nodes k).round := handle_field _ l rfl
  have hself : t.nodes b = (s.nodes b).receive ⟨a, b, .accounts⟩ := handle_self l _
  have hother : ∀ k, k ≠ b → t.nodes k = s.nodes k := fun k hk => handle_of_ne l hk
  have hcollected : ∀ c d, c ∈ (t.nodes d).accountStateTx → c ≠ d ∧
      3 * (s.nodes d).round + 2 ≤ (s.nodes c).stage ∧ ⟨c, d, .accounts⟩ ∉ t.network := by
    intro c d hcd
    by_cases hnew : c = a ∧ d = b
    · obtain ⟨rfl, rfl⟩ := hnew
      refine ⟨h.others _ hin, h.accounts c d hin, ?_⟩
      intro hmem
      cases once_eraseIdx h.once hp hmem rfl rfl rfl
    · have hold : c ∈ (s.nodes d).accountStateTx := by
        by_cases hdb : d = b
        · rw [hdb, hself] at hcd
          rw [hdb]
          exact Finset.mem_of_mem_insert_of_ne hcd fun hca => hnew ⟨hca, hdb⟩
        · rwa [hother d hdb] at hcd
      obtain ⟨h1, h2, h3⟩ := h.collected c d hold
      exact ⟨h1, h2, fun hmem => h3 (hsub hmem)⟩
  obtain ⟨hready, hcounted⟩ := h.ready_of hstage hround (handle_field _ l rfl)
    (handle_field _ l rfl) (handle_field _ l rfl) fun c d q' hmem => hsub hmem
  refine ⟨?_, ?_, ?_, ?_, hready, hcounted, ?_, ?_, ?_⟩
  · intro p hmem
    exact h.others p (hsub hmem)
  · exact h.once.sublist (List.eraseIdx_sublist s.network l)
  · simpa only [hstage, hround] using h.begun
  · simpa only [hstage, hround] using h.passed
  · intro c d hmem
    rw [hstage, hround]
    exact h.accounts c d (hsub hmem)
  · intro c d hcd
    rw [hstage, hround]
    exact hcollected c d hcd
  · intro d hd c hc
    by_cases hdb : d = b
    · subst hdb
      have hd' := hd
      rw [hself] at hd'
      obtain hd' | hd' := Bool.or_eq_true_iff.mp hd'
      · rw [hself]
        exact Finset.mem_insert_of_mem (h.full d hd' c hc)
      · refine mem_of_card_add_one (fun hmem => (hcollected d d hmem).1 rfl) ?_ hc
        rw [hself]
        exact of_decide_eq_true hd'
    · rw [hother d hdb] at hd ⊢
      exact h.full d hd c hc

theorem Progress.handle (h : Progress s) {l : ℕ} {p : Packet n} (hp : s.network[l]? = some p) :
    Progress (s.handle l p) := by
  obtain ⟨a, b, m⟩ := p
  cases m with
  | relay senderSeq txs =>
    exact h.of_view (handle_field _ l rfl) (List.eraseIdx_sublist s.network l)
  | ready q => exact h.handle_ready hp
  | accounts => exact h.handle_accounts hp

/-! ### The relays -/

/-- Two relays of one pair stand in the order of their sequence numbers. -/
def InSequence (p q : Packet n) : Prop :=
  p.sender = q.sender → p.receiver = q.receiver → ∀ a b x y, p.message = .relay a x →
    q.message = .relay b y → a < b

/-- Every relay on its way is newer than the one its receiver remembers; a leader that was counted
and never heard of has none on its way. -/
structure Relays (s : BarrierSystem n) : Prop where
  pending : ∀ j i q txs, ⟨j, i, .relay q txs⟩ ∈ s.network → q < (s.nodes j).sequenceID ∧
    ∀ val, (s.nodes i).seqIDMap j = some val → val < q
  last : ∀ j i val, (s.nodes i).seqIDMap j = some val → val < (s.nodes j).sequenceID
  ordered : s.network.Pairwise InSequence
  heard : ∀ j i, j ≠ i → j ∈ (s.nodes i).partitionReady →
    (s.nodes i).stage ≤ 3 * (s.nodes i).round + 1 → (s.nodes i).seqIDMap j = none →
    ∀ q txs, ⟨j, i, .relay q txs⟩ ∉ s.network
  sent : ∀ p ∈ s.sent, ∃ q txs, p.message = .relay q txs
  handled : ∀ p ∈ s.sent, p ∈ (s.nodes p.receiver).handled ∨ p ∈ s.network
  pooled : ∀ i, ∀ p ∈ (s.nodes i).handled, ∀ tx ∈ p.message.txs,
    tx ∈ (s.nodes i).txpool ∨ tx ∈ (s.nodes i).taken

theorem BarrierStart.relays (h : BarrierStart s) : Relays s := by
  have hmap : ∀ i j, (s.nodes i).seqIDMap j = none := fun i => (h.nodes i).seqIDMap
  have hhandled : ∀ i, (s.nodes i).handled = [] := fun i => (h.nodes i).handled
  constructor <;> simp [h.network, h.sent, hmap, hhandled]

/-- What a leader may do to itself with packets that are not relays. -/
structure KeepsRelays (old new : BarrierNode n) (j : Fin n) : Prop where
  sequenceID : old.sequenceID ≤ new.sequenceID
  seqIDMap : new.seqIDMap = old.seqIDMap
  handled : new.handled = old.handled
  pool : ∀ tx, tx ∈ old.txpool ∨ tx ∈ old.taken → tx ∈ new.txpool ∨ tx ∈ new.taken
  counted : ∀ a, a ≠ j → a ∈ new.partitionReady → new.stage ≤ 3 * new.round + 1 →
    a ∈ old.partitionReady ∧ old.stage ≤ 3 * old.round + 1

theorem keepsRelays_packTxs (old : BarrierNode n) (k : ℕ) : KeepsRelays old (old.packTxs k) j := by
  refine ⟨le_rfl, rfl, rfl, ?_, fun a _ ha hstage => ⟨ha, hstage⟩⟩
  intro tx htx
  simp only [BarrierNode.packTxs, List.mem_append]
  obtain hpool | htaken := htx
  · rw [← List.take_append_drop k old.txpool] at hpool
    obtain htake | hdrop := List.mem_append.mp hpool
    · exact .inr (.inr htake)
    · exact .inl hdrop
  · exact .inr (.inl htaken)

theorem keepsRelays_addTxs (old : BarrierNode n) (txs : List PoolTx) :
    KeepsRelays old (old.addTxs txs) j :=
  ⟨le_rfl, rfl, rfl, fun _ htx => htx.imp_left (List.mem_append_left _),
    fun _ _ ha hstage => ⟨ha, hstage⟩⟩

theorem keepsRelays_wait {old : BarrierNode n} (hphase : old.phase = .normal) :
    KeepsRelays old (old.wait j) j := by
  refine ⟨le_rfl, rfl, rfl, fun _ htx => htx, ?_⟩
  intro a hne ha _
  have hstage : old.stage = 3 * old.round := stage_of_phase hphase
  exact ⟨Finset.mem_of_mem_insert_of_ne ha hne, by omega⟩

theorem keepsRelays_exchangeAccounts (old : BarrierNode n) (txpool : List PoolTx) :
    KeepsRelays old (old.exchangeAccounts txpool) j := by
  refine ⟨le_rfl, rfl, rfl, ?_, ?_⟩
  · intro tx htx
    exact .inr (List.mem_append.mpr htx.symm)
  · -- the leader is past the barrier of its round
    intro a _ _ hstage
    have : (old.exchangeAccounts txpool).stage = 3 * old.round + 2 := rfl
    have : (old.exchangeAccounts txpool).round = old.round := rfl
    omega

theorem keepsRelays_endRound (old : BarrierNode n) (receivedNewTx : List PoolTx) :
    KeepsRelays old (old.endRound receivedNewTx) j :=
  ⟨Nat.le_succ _, rfl, rfl, fun _ htx => htx.imp_left (List.mem_append_left _),
    fun a _ ha => absurd ha (Finset.notMem_empty a)⟩

theorem Relays.act (h : Relays s) (hnode : KeepsRelays (s.nodes j) node j)
    (hpackets : ∀ p ∈ packets, ∀ q txs, p.message ≠ .relay q txs) :
    Relays (s.act j node packets) := by
  set t := s.act j node packets with ht
  have hmap : ∀ k, (t.nodes k).seqIDMap = (s.nodes k).seqIDMap := act_field _ hnode.seqIDMap
  have hhandled : ∀ k, (t.nodes k).handled = (s.nodes k).handled := act_field _ hnode.handled
  have hother : ∀ k, k ≠ j → t.nodes k = s.nodes k := fun k hk => act_of_ne hk
  have hseq : ∀ k, (s.nodes k).sequenceID ≤ (t.nodes k).sequenceID := by
    intro k
    by_cases hk : k = j
    · rw [hk, ht, act_self]
      exact hnode.sequenceID
    · rw [hother k hk]
  have hold : ∀ a b q txs, ⟨a, b, .relay q txs⟩ ∈ t.network →
      ⟨a, b, .relay q txs⟩ ∈ s.network := by
    intro a b q txs hp
    obtain hp | hp := List.mem_append.mp hp
    · exact hp
    · exact absurd rfl (hpackets _ hp q txs)
  constructor
  · intro a b q txs hp
    obtain ⟨h1, h2⟩ := h.pending a b q txs (hold a b q txs hp)
    rw [hmap]
    exact ⟨h1.trans_le (hseq a), h2⟩
  · intro a b val hval
    rw [hmap] at hval
    exact (h.last a b val hval).trans_le (hseq a)
  · refine List.pairwise_append.mpr ⟨h.ordered, ?_, ?_⟩
    · refine List.pairwise_of_forall_mem_list ?_
      intro p hp q _ _ _ a b x y hx _
      exact absurd hx (hpackets p hp a x)
    · intro p _ q hq _ _ a b x y _ hy
      exact absurd hy (hpackets q hq b y)
  · intro a b hne hab hstage hnone q txs hp
    rw [hmap] at hnone
    by_cases hb : b = j
    · subst hb
      rw [ht, act_self] at hab hstage
      obtain ⟨hab, hstage⟩ := hnode.counted a hne hab hstage
      exact h.heard a b hne hab hstage hnone q txs (hold a b q txs hp)
    · rw [hother b hb] at hab hstage
      exact h.heard a b hne hab hstage hnone q txs (hold a b q txs hp)
  · exact h.sent
  · intro p hp
    rw [hhandled]
    exact (h.handled p hp).imp_right (List.mem_append_left _)
  · intro i p hp tx htx
    rw [hhandled] at hp
    have hpool := h.pooled i p hp tx htx
    by_cases hi : i = j
    · subst hi
      rw [ht, act_self]
      exact hnode.pool tx hpool
    · rwa [hother i hi]

theorem toOthers_message {message : Fin n → Message} {p : Packet n} (hp : p ∈ toOthers j message) :
    p.message = message p.receiver := by
  obtain ⟨a, b, m⟩ := p
  exact (mem_toOthers.mp hp).2.2

/-- The new relays are newer than all of this leader before. -/
theorem Relays.commitBlock (h : Relays s) (hprogress : Progress s)
    (hphase : (s.nodes j).phase = .normal) (relayPool : Fin n → List PoolTx) :
    Relays { s.act j (s.nodes j).nextSeq (s.relays j relayPool) with
      sent := s.sent ++ s.relays j relayPool } := by
  have huncounted := (hprogress.not_ready (stage_of_phase hphase)).2
  set t := s.act j (s.nodes j).nextSeq (s.relays j relayPool) with ht
  have hmap : ∀ k, (t.nodes k).seqIDMap = (s.nodes k).seqIDMap := act_field _ rfl
  have hhandled : ∀ k, (t.nodes k).handled = (s.nodes k).handled := act_field _ rfl
  have htxpool : ∀ k, (t.nodes k).txpool = (s.nodes k).txpool := act_field _ rfl
  have htaken : ∀ k, (t.nodes k).taken = (s.nodes k).taken := act_field _ rfl
  have hready : ∀ k, (t.nodes k).partitionReady = (s.nodes k).partitionReady := act_field _ rfl
  have hstage : ∀ k, (t.nodes k).stage = (s.nodes k).stage := act_field _ rfl
  have hround : ∀ k, (t.nodes k).round = (s.nodes k).round := act_field _ rfl
  have hself : (t.nodes j).sequenceID = (s.nodes j).sequenceID + 1 := by
    rw [ht, act_self]
    rfl
  have hseq : ∀ k, (s.nodes k).sequenceID ≤ (t.nodes k).sequenceID := by
    intro k
    by_cases hk : k = j
    · rw [hk, hself]
      exact Nat.le_succ _
    · rw [ht, act_of_ne hk]
  constructor
  · intro a b q txs hp
    rw [hmap]
    obtain hp | hp := List.mem_append.mp hp
    · obtain ⟨h1, h2⟩ := h.pending a b q txs hp
      exact ⟨h1.trans_le (hseq a), h2⟩
    · obtain ⟨rfl, -, hm⟩ := mem_toOthers.mp hp
      obtain ⟨rfl, -⟩ := Message.relay.inj hm
      exact ⟨hself ▸ Nat.lt_succ_self _, h.last a b⟩
  · intro a b val hval
    rw [hmap] at hval
    exact (h.last a b val hval).trans_le (hseq a)
  · refine List.pairwise_append.mpr ⟨h.ordered, ?_, ?_⟩
    · refine List.pairwise_map.mpr ?_
      refine (List.Pairwise.filter _ (List.nodup_finRange n)).imp ?_
      intro c d hne _ hr
      exact absurd hr hne
    · rintro ⟨c, d, m⟩ hp ⟨c', d', m'⟩ hq hs hr a b x y rfl rfl
      obtain ⟨rfl, -, hm⟩ := mem_toOthers.mp hq
      cases hs
      obtain ⟨rfl, -⟩ := Message.relay.inj hm
      exact (h.pending _ _ _ _ hp).1
  · intro a b hne hab hb hnone q txs hp
    rw [hready] at hab
    rw [hstage, hround] at hb
    rw [hmap] at hnone
    obtain hp | hp := List.mem_append.mp hp
    · exact h.heard a b hne hab hb hnone q txs hp
    · obtain ⟨rfl, -⟩ := mem_toOthers.mp hp
      exact huncounted b hb hab
  · intro p hp
    obtain hp | hp := List.mem_append.mp hp
    · exact h.sent p hp
    · exact ⟨_, _, toOthers_message hp⟩
  · intro p hp
    rw [hhandled]
    obtain hp | hp := List.mem_append.mp hp
    · exact (h.handled p hp).imp_right (List.mem_append_left _)
    · exact .inr (List.mem_append_right _ hp)
  · intro i p hp
    rw [hhandled] at hp
    rw [htxpool, htaken]
    exact h.pooled i p hp

/-- A relay is handled in its turn: those of the same pair that stay on their way are newer. -/
theorem Relays.handle_relay (h : Relays s) {l senderSeq : ℕ} {a b : Fin n} {txs : List PoolTx}
    (hp : s.network[l]? = some ⟨a, b, .relay senderSeq txs⟩)
    (hturn : InTurn s l ⟨a, b, .relay senderSeq txs⟩) :
    Relays (s.handle l ⟨a, b, .relay senderSeq txs⟩) := by
  have hsub := (List.eraseIdx_sublist s.network l).subset
  have hin : ⟨a, b, .relay senderSeq txs⟩ ∈ s.network := List.mem_of_getElem? hp
  set t := s.handle l ⟨a, b, .relay senderSeq txs⟩ with ht
  have hseq : ∀ k, (t.nodes k).sequenceID = (s.nodes k).sequenceID := handle_field _ l rfl
  have hstage : ∀ k, (t.nodes k).stage = (s.nodes k).stage := handle_field _ l rfl
  have hround : ∀ k, (t.nodes k).round = (s.nodes k).round := handle_field _ l rfl
  have hready : ∀ k, (t.nodes k).partitionReady = (s.nodes k).partitionReady :=
    handle_field _ l rfl
  have hself : t.nodes b = (s.nodes b).receive ⟨a, b, .relay senderSeq txs⟩ := handle_self l _
  have hother : ∀ k, k ≠ b → t.nodes k = s.nodes k := fun k hk => handle_of_ne l hk
  have hnew : (t.nodes b).seqIDMap a = some senderSeq := by
    rw [hself]
    exact Function.update_self ..
  have hold : ∀ c d, ¬ (c = a ∧ d = b) → (t.nodes d).seqIDMap c = (s.nodes d).seqIDMap c := by
    intro c d hne
    by_cases hd : d = b
    · rw [hd, hself]
      exact Function.update_of_ne (fun hc => hne ⟨hc, hd⟩) ..
    · rw [hother d hd]
  constructor
  · intro c d q x hmem
    obtain ⟨h1, h2⟩ := h.pending c d q x (hsub hmem)
    rw [hseq]
    refine ⟨h1, ?_⟩
    by_cases hcd : c = a ∧ d = b
    · obtain ⟨rfl, rfl⟩ := hcd
      intro val hval
      cases hnew.symm.trans hval
      obtain htake | hlater := mem_take_or_rel_of_mem_eraseIdx h.ordered hp hmem
      · exact absurd ⟨rfl, rfl, rfl⟩ (hturn _ htake)
      · exact hlater rfl rfl _ _ _ _ rfl rfl
    · rw [hold c d hcd]
      exact h2
  · intro c d val hval
    rw [hseq]
    by_cases hcd : c = a ∧ d = b
    · obtain ⟨rfl, rfl⟩ := hcd
      cases hnew.symm.trans hval
      exact (h.pending c d _ _ hin).1
    · rw [hold c d hcd] at hval
      exact h.last c d val hval
  · exact h.ordered.sublist (List.eraseIdx_sublist s.network l)
  · intro c d hne hcd hd hnone q x hmem
    rw [hready] at hcd
    rw [hstage, hround] at hd
    have hpair : ¬ (c = a ∧ d = b) := by
      rintro ⟨rfl, rfl⟩
      cases hnew.symm.trans hnone
    rw [hold c d hpair] at hnone
    exact h.heard c d hne hcd hd hnone q x (hsub hmem)
  · exact h.sent
  · intro p hmem
    by_cases hb : p.receiver = b
    · rw [hb, hself]
      obtain hdone | hwaits := h.handled p hmem
      · rw [hb] at hdone
        exact .inl (List.mem_append_left _ hdone)
      · obtain rfl | hwaits := mem_eraseIdx_or_eq hp hwaits
        · exact .inl (List.mem_append_right _ (List.mem_singleton.mpr rfl))
        · exact .inr hwaits
    · rw [hother _ hb]
      obtain hdone | hwaits := h.handled p hmem
      · exact .inl hdone
      · obtain rfl | hwaits := mem_eraseIdx_or_eq hp hwaits
        · exact absurd rfl hb
        · exact .inr hwaits
  · intro d p hmem tx htx
    by_cases hd : d = b
    · rw [hd, hself] at hmem ⊢
      obtain hmem | hmem := List.mem_append.mp hmem
      · exact (h.pooled b p hmem tx htx).imp_left (List.mem_append_left _)
      · cases List.mem_singleton.mp hmem
        exact .inl (List.mem_append_right _ htx)
    · rw [hother d hd] at hmem ⊢
      exact h.pooled d p hmem tx htx

/-- What `Relays` reads of a leader, apart from the shards it counts. -/
def BarrierNode.relayView (node : BarrierNode n) :=
  (node.sequenceID, node.seqIDMap, node.handled, node.txpool, node.taken, node.stage, node.round)

/-- Another message is handled: from a leader that is counted only now and was never heard of, no
relay is on its way. -/
theorem Relays.handle_other (h : Relays s) {l : ℕ} {p : Packet n} (hp : s.network[l]? = some p)
    (hm : ∀ q txs, p.message ≠ .relay q txs)
    (hview : ((s.nodes p.receiver).receive p).relayView = (s.nodes p.receiver).relayView)
    (hcounted : ∀ a ∈ ((s.nodes p.receiver).receive p).partitionReady,
      a ∈ (s.nodes p.receiver).partitionReady ∨ ((s.nodes p.receiver).seqIDMap a = none →
        ∀ q txs, ⟨a, p.receiver, .relay q txs⟩ ∉ s.network)) :
    Relays (s.handle l p) := by
  have hsub := (List.eraseIdx_sublist s.network l).subset
  set t := s.handle l p with ht
  have hall : ∀ k, (t.nodes k).relayView = (s.nodes k).relayView := handle_field _ l hview
  simp only [BarrierNode.relayView, Prod.mk.injEq] at hall
  have hseq := fun k => (hall k).1
  have hmap := fun k => (hall k).2.1
  have hhandled := fun k => (hall k).2.2.1
  have htxpool := fun k => (hall k).2.2.2.1
  have htaken := fun k => (hall k).2.2.2.2.1
  have hstage := fun k => (hall k).2.2.2.2.2.1
  have hround := fun k => (hall k).2.2.2.2.2.2
  constructor
  · intro c d q txs hmem
    rw [hseq, hmap]
    exact h.pending c d q txs (hsub hmem)
  · intro c d val hval
    rw [hmap] at hval
    rw [hseq]
    exact h.last c d val hval
  · exact h.ordered.sublist (List.eraseIdx_sublist s.network l)
  · intro c d hne hcd hd hnone q txs hmem
    rw [hstage, hround] at hd
    rw [hmap] at hnone
    by_cases hdb : d = p.receiver
    · subst hdb
      rw [ht, handle_self] at hcd
      obtain hold | hempty := hcounted c hcd
      · exact h.heard c _ hne hold hd hnone q txs (hsub hmem)
      · exact hempty hnone q txs (hsub hmem)
    · rw [ht, handle_of_ne l hdb] at hcd
      exact h.heard c d hne hcd hd hnone q txs (hsub hmem)
  · exact h.sent
  · intro r hr
    rw [hhandled]
    refine (h.handled r hr).imp_right ?_
    intro hwaits
    obtain rfl | hwaits := mem_eraseIdx_or_eq hp hwaits
    · obtain ⟨q, txs, hrelay⟩ := h.sent r hr
      exact absurd hrelay (hm q txs)
    · exact hwaits
  · intro i r hr
    rw [hhandled] at hr
    rw [htxpool, htaken]
    exact h.pooled i r hr

theorem Relays.handle (h : Relays s) {l : ℕ} {p : Packet n} (hp : s.network[l]? = some p)
    (hturn : InTurn s l p) : Relays (s.handle l p) := by
  obtain ⟨a, b, m⟩ := p
  cases m with
  | relay senderSeq txs => exact h.handle_relay hp hturn
  | ready q =>
    refine h.handle_other hp (fun _ _ => Message.noConfusion) rfl ?_
    intro c hc
    obtain rfl | hc := Finset.mem_insert.mp hc
    · refine .inr ?_
      intro hnone q' txs hmem
      obtain hsome | hempty := hturn
      · rw [hnone] at hsome
        cases hsome
      · exact hempty _ hmem ⟨rfl, rfl, rfl⟩
    · exact .inl hc
  | accounts =>
    exact h.handle_other hp (fun _ _ => Message.noConfusion) rfl fun c hc => .inl hc

/-! ### Runs -/

/-- The invariants together. -/
structure BarrierInvariant (s : BarrierSystem n) : Prop where
  progress : Progress s
  relays : Relays s

theorem BarrierInvariant.step (h : BarrierInvariant s) {l : BarrierMove n}
    (hguard : RelaysInOrder s l) (hstep : barrierStep s l = some s') : BarrierInvariant s' := by
  obtain ⟨hp, hr⟩ := h
  cases l with
  | generateBlock j k =>
    simp only [barrierStep, BarrierSystem.generateBlock] at hstep
    split_ifs at hstep with hphase
    cases hstep
    exact ⟨hp.act_pool rfl, hr.act (keepsRelays_packTxs _ k) (List.forall_mem_nil _)⟩
  | injectTxs j txs =>
    cases hstep
    exact ⟨hp.act_pool rfl, hr.act (keepsRelays_addTxs _ txs) (List.forall_mem_nil _)⟩
  | commitBlock j relayPool =>
    simp only [barrierStep, BarrierSystem.commitBlock] at hstep
    split_ifs at hstep with hphase
    cases hstep
    refine ⟨?_, hr.commitBlock hp hphase relayPool⟩
    exact (hp.commitBlock hphase relayPool).of_view (fun _ => rfl) (List.Sublist.refl _)
  | sendPartitionReady j =>
    simp only [barrierStep, BarrierSystem.sendPartitionReady] at hstep
    split_ifs at hstep with hphase
    cases hstep
    refine ⟨hp.sendPartitionReady hphase, hr.act (keepsRelays_wait hphase) ?_⟩
    intro p hmem q txs
    rw [toOthers_message hmem]
    exact Message.noConfusion
  | sendAccounts j txpool =>
    simp only [barrierStep, BarrierSystem.sendAccounts] at hstep
    split_ifs at hstep with hready
    cases hstep
    refine ⟨hp.sendAccounts hready.1 hready.2 txpool,
      hr.act (keepsRelays_exchangeAccounts _ txpool) ?_⟩
    intro p hmem q txs
    rw [toOthers_message hmem]
    exact Message.noConfusion
  | accountTransfer j receivedNewTx =>
    simp only [barrierStep, BarrierSystem.accountTransfer] at hstep
    split_ifs at hstep with hcollected
    cases hstep
    exact ⟨hp.accountTransfer hcollected.1 hcollected.2 receivedNewTx,
      hr.act (keepsRelays_endRound _ receivedNewTx) (List.forall_mem_nil _)⟩
  | deliver k =>
    obtain ⟨p, hk, hs⟩ := Option.bind_eq_some_iff.mp hstep
    cases hs
    exact ⟨hp.handle hk, hr.handle hk (hguard p hk)⟩

theorem barrierInvariant_of_reach (h : Reach barrierStep RelaysInOrder BarrierStart s) :
    BarrierInvariant s :=
  h.invariant (fun _ hs => ⟨hs.progress, hs.relays⟩)
    (fun _ _ _ _ hi hguard hstep => hi.step hguard hstep)

/-- At the barrier no relay to this leader is on its way. -/
theorem BarrierInvariant.no_relay (h : BarrierInvariant s)
    (hphase : (s.nodes i).phase = .waiting) (hready : getPartitionReady (s.nodes i) = true)
    (q : ℕ) (txs : List PoolTx) : ⟨j, i, .relay q txs⟩ ∉ s.network := by
  intro hmem
  have hne : j ≠ i := h.progress.others _ hmem
  obtain ⟨hcard, hlast⟩ := of_decide_eq_true hready
  have hall : (s.nodes i).partitionReady = Finset.univ := by
    rw [← Finset.card_eq_iff_eq_univ, hcard, Fintype.card_fin]
  obtain ⟨-, -, hseq, -⟩ := h.progress.all_counted hphase hready j
  cases hmap : (s.nodes i).seqIDMap j with
  | none =>
    refine h.relays.heard j i hne ?_ (stage_of_phase hphase).le hmap q txs hmem
    rw [hall]
    exact Finset.mem_univ j
  | some val =>
    -- the remembered relay is the last one before the `PartitionReady`
    obtain ⟨rval, hrval, heq⟩ := hlast j val hmap
    rw [hseq hne] at hrval
    cases hrval
    obtain ⟨hq, hval⟩ := h.relays.pending j i q txs hmem
    have := hval val hmap
    omega

/-- A leader with the first block. -/
def freshLeader : BarrierNode 2 :=
  ⟨1, fun _ => none, ∅, fun _ => none, ∅, false, [], .normal, 0, [], []⟩

theorem barrierStart_freshLeader :
    BarrierStart (⟨fun _ => freshLeader, [], []⟩ : BarrierSystem 2) :=
  ⟨fun _ => ⟨fun _ => rfl, rfl, rfl, rfl, rfl, rfl, rfl⟩, rfl, rfl⟩

/-- The second half of a transaction from shard 1 to shard 0. -/
def relayedTx : PoolTx := ⟨⟨"0000000000000001", "0000000000000000", 0, 5, [1]⟩, true, false⟩

-- a leader that was never heard of is not looked at: its first relay need not have come
example : (run barrierStep anyStep (⟨fun _ => freshLeader, [], []⟩ : BarrierSystem 2)
    [.commitBlock 1 fun _ => [relayedTx], .sendPartitionReady 0, .sendPartitionReady 1,
      .deliver 2]).any (fun s => getPartitionReady (s.nodes 0) && (s.nodes 0).handled.isEmpty) =
    true := by
  decide +kernel

end Aster.Clpa
