import Aster.Chain.Ledger

/-!
# Relayed transactions and the debits they stand for

In relay mode the leader of a shard executes a block in `GenerateBlock` and, when the block is
committed, sends the transactions whose recipients are elsewhere to their shards, where only the
credit is left to do.  The two passes over the body do not look at each other.  `HandleinCommit`
relays by the recipient alone; `GetUpdateStatusTrie` skips a transaction that is not covered, and
never commits the trie it has updated, since its counter of modified accounts stays zero.

`DebitApplied` says that the state under the root of the block is the one that execution ended
with, and that this execution took the debit.
-/

namespace Aster.Chain

open Aster.Core

/-! ### `HandleinCommit` -/

/-- `RelayPool` after the loop over the body, as shards and transactions in order. -/
def relayPool (cfg : ChainConfig) (l : Ledger) : List PoolTx → Option (List (UInt64 × PoolTx))
  | [] => some []
  | p :: body => do
    let rsid ← getPartitionMap cfg.shardNum l.partitionMap p.tx.recipient
    let pool ← relayPool cfg l body
    some (if rsid ≠ cfg.shardID then (rsid, { p with relayed := true }) :: pool else pool)

/-- The shards that get a relay message. -/
def otherShards (cfg : ChainConfig) : List UInt64 :=
  ((List.range cfg.shardNum).map UInt64.ofNat).filter (· ≠ cfg.shardID)

/-- The relay messages of `HandleinCommit` of the main node, by shard. -/
def handleinCommit (cfg : ChainConfig) (l : Ledger) (body : List PoolTx) :
    Option (List (UInt64 × List PoolTx)) := do
  let pool ← relayPool cfg l body
  some ((otherShards cfg).map fun sid => (sid, (pool.filter (·.1 = sid)).map (·.2)))

/-- The transaction at position `k` of the body is sent to the shard of its recipient. -/
def RelayedAt (cfg : ChainConfig) (l : Ledger) (body : List PoolTx) (k : ℕ) : Prop :=
  (handleinCommit cfg l body).isSome ∧ ∃ p rsid, body[k]? = some p ∧
    getPartitionMap cfg.shardNum l.partitionMap p.tx.recipient = some rsid ∧
    rsid ∈ otherShards cfg

variable {cfg : ChainConfig} {l l' : Ledger} {b : Block} {miner : UInt64} {now : Time}

theorem mem_relayPool {body : List PoolTx} {pool : List (UInt64 × PoolTx)}
    (h : relayPool cfg l body = some pool) (e : UInt64 × PoolTx) :
    e ∈ pool ↔ e.1 ≠ cfg.shardID ∧ ∃ p ∈ body,
      getPartitionMap cfg.shardNum l.partitionMap p.tx.recipient = some e.1 ∧
      e.2 = { p with relayed := true } := by
  induction body generalizing pool with
  | nil =>
    cases h
    simp
  | cons p body ih =>
    obtain ⟨rsid, hrsid, h⟩ := Option.bind_eq_some_iff.mp h
    obtain ⟨rest, hrest, h⟩ := Option.bind_eq_some_iff.mp h
    cases h
    rw [List.exists_mem_cons_iff, hrsid, and_or_left, ← ih hrest]
    obtain ⟨sid, q⟩ := e
    split_ifs with hne
    · simp only [List.mem_cons, Prod.mk.injEq, Option.some.injEq]
      constructor
      · rintro (⟨rfl, rfl⟩ | hmem)
        · exact .inl ⟨hne, rfl, rfl⟩
        · exact .inr hmem
      · rintro (⟨-, rfl, rfl⟩ | hmem)
        · exact .inl ⟨rfl, rfl⟩
        · exact .inr hmem
    · constructor
      · exact .inr
      · rintro (⟨hsid, hs, -⟩ | hmem)
        · cases hs
          exact absurd hsid hne
        · exact hmem

/-- The loop of `GetUpdateStatusTrie` on `st` takes the debit of the transaction at position
`k`. -/
def Debited (cfg : ChainConfig) (l : Ledger) (st : Trie) (txs : List PoolTx) (k : ℕ) : Prop :=
  ∃ p stₖ own, txs[k]? = some p ∧ updateStatus cfg l 0 (txs.take k) st = some stₖ ∧
    p.relayed = false ∧ l.owns cfg p.tx.sender = some own ∧ (own || p.hasBroker) = true ∧
    p.tx.value ≤ balanceOf stₖ p.tx.sender

/-- The state committed for the block `b` is the one that the execution of its transactions ends
with, and the execution took the debit at position `k`. -/
def DebitApplied (cfg : ChainConfig) (l l' : Ledger) (b : Block) (txs : List PoolTx) (k : ℕ) :
    Prop :=
  ∃ st st', l.state cfg = some st ∧ updateStatus cfg l 0 txs st = some st' ∧
    trieNew cfg l'.triedb (bytesToHash b.header.stateRoot) = some st' ∧ Debited cfg l st txs k

/-- The transactions that `GenerateBlock` packs. -/
def packed (cfg : ChainConfig) (l : Ledger) : List PoolTx := l.precessedTxpool.take cfg.blockSize

/-- Executing the transactions leaves the state as it was. -/
def Unmoved (cfg : ChainConfig) (l : Ledger) (txs : List PoolTx) : Prop :=
  ∃ st, l.state cfg = some st ∧ updateStatus cfg l 0 txs st = some st

/-- The state under the root of a generated block is the one before the block. -/
theorem generateBlock_state (h : generateBlock cfg l miner now = some (l', b)) :
    trieNew cfg l'.triedb (bytesToHash b.header.stateRoot) = l.state cfg := by
  obtain ⟨rfl, rfl⟩ := generateBlock_cases h
  show trieNew cfg l.triedb (bytesToHash l.root) = trieNew cfg l.triedb l.root
  rw [Ledger.root, bytesToHash_of_length (bytesToHash_length _)]

theorem debitApplied_iff (h : generateBlock cfg l miner now = some (l', b)) (txs : List PoolTx)
    (k : ℕ) :
    DebitApplied cfg l l' b txs k ↔ Unmoved cfg l txs ∧
      ∃ st, l.state cfg = some st ∧ Debited cfg l st txs k := by
  unfold DebitApplied
  rw [generateBlock_state h]
  constructor
  · rintro ⟨st, st', hst, hrun, hst', hdebit⟩
    cases hst.symm.trans hst'
    exact ⟨⟨st, hst, hrun⟩, st, hst, hdebit⟩
  · rintro ⟨⟨st, hst, hrun⟩, st', hst', hdebit⟩
    cases hst.symm.trans hst'
    exact ⟨st, st, hst, hrun, hst, hdebit⟩

/-- The short chain with one transaction in the pool, from an account of shard 0. -/
def ledgerWith (recipient : Address) : Ledger :=
  { shortLedger with
    precessedTxpool := [⟨⟨"0000000000000000", recipient, 0, 5, [1]⟩, false, false⟩] }

end Aster.Chain
