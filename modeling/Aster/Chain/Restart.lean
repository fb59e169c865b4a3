import Aster.Chain.Ledger
import Aster.SubMPT.Proposer

/-!
# Reopening a chain

`NewBlockChain` on a store with blocks takes the newest one as `CurrentBlock` and checks that its
state root can be resolved, in a trie database that it has just made in memory.  Nothing of what
the node committed before it was closed is in there, so only the root of the empty trie passes.

* **`newBlockChain_stored_iff`**: a store can be reopened exactly when the newest block has the
  empty root or the zero hash.
* **`restart_of_run`**: the runs in which every block keeps the root of genesis can be reopened.
-/

namespace Aster.Chain

open Aster.Core Aster.Lib.Transition

/-- A proposer with its chain; `curChain` of the proposer is the chain of the ledger. -/
structure ChainNode where
  ledger : Ledger
  proposer : SubMPT.Sys

inductive NodeOp where
  | sendTx2Pool (txs : List PoolTx)
  | updatePartitionMap (key : Address) (val : UInt64)
  /-- Transactions are appended to `ProcessedTxpool`. -/
  | process (txs : List Transaction)
  | blockGenerate (now : Time)
  /-- `GenerateBlock` followed by `AddBlock`. -/
  | mine (miner : UInt64) (now : Time)
  | addAccounts (ac : List Address) (as : List AccountState)

/-- `blockGenerate` on the chain of the ledger. -/
def ChainNode.blockGenerate (pcfg : SubMPT.Config) (n : ChainNode) (now : Time) : ChainNode :=
  let proposer := SubMPT.blockGenerate pcfg { n.proposer with curChain := n.ledger.chain } now
  ⟨{ n.ledger with chain := proposer.curChain }, proposer⟩

def nodeStep (cfg : ChainConfig) (pcfg : SubMPT.Config) (n : ChainNode) : NodeOp → Option ChainNode
  | .sendTx2Pool txs => some { n with
      ledger := { n.ledger with precessedTxpool := n.ledger.precessedTxpool ++ txs } }
  | .updatePartitionMap key val => some { n with
      ledger := { n.ledger with partitionMap := n.ledger.partitionMap.insert key val } }
  | .process txs => some { n with
      proposer := { n.proposer with processedTxpool := n.proposer.processedTxpool ++ txs } }
  | .blockGenerate now => some (n.blockGenerate pcfg now)
  | .mine miner now => do
    let (ledger, b) ← generateBlock cfg n.ledger miner now
    let (ledger, _) ← ledger.addBlock b
    some { n with ledger := ledger }
  | .addAccounts ac as => do
    let ledger ← Chain.addAccounts cfg n.ledger ac as
    some { n with ledger := ledger }

/-- `NewBlockChain` on an empty store, by a proposer that has done nothing. -/
def ChainNode.Starts (cfg : ChainConfig) (n : ChainNode) : Prop :=
  newBlockChain cfg none = some n.ledger ∧
    ∃ txs times followers, n.proposer = SubMPT.Sys.initial txs times n.ledger.chain followers

/-- `CloseBlockChain` and `NewBlockChain` on the same store. -/
def ChainNode.restart (cfg : ChainConfig) (n : ChainNode) : Option Ledger :=
  newBlockChain cfg (some n.ledger.chain.storage)

/-- The operation does not give the chain another state root: `blockGenerate` has nothing to do,
and no account that is added belongs to the shard. -/
def KeepsRoot (cfg : ChainConfig) (n : ChainNode) : NodeOp → Prop
  | .blockGenerate _ => n.ledger.chain.currentBlock.hash ∈ n.proposer.blockHashGenDone ∨
      n.proposer.processedTxpool = []
  | .addAccounts ac _ => ∀ addr ∈ ac, n.ledger.owns cfg addr ≠ some true
  | _ => True

instance (cfg : ChainConfig) (n : ChainNode) (op : NodeOp) : Decidable (KeepsRoot cfg n op) := by
  cases op <;> unfold KeepsRoot <;> infer_instance

variable {cfg : ChainConfig}

theorem trieNew_empty_isSome_iff {root : Hash} :
    (trieNew cfg ∅ root).isSome ↔ root = List.replicate 32 0 ∨ root = cfg.stateRoot ∅ := by
  rw [trieNew]
  split_ifs with h
  · exact ⟨fun _ => h, fun _ => rfl⟩
  · exact ⟨fun hsome => absurd hsome (by simp), fun h' => absurd h' h⟩

/-- Opening a store that has its newest block. -/
theorem newBlockChain_some {storage : Storage} {cur : Block}
    (hcur : getBlock storage storage.newest = some cur) :
    newBlockChain cfg (some storage) = (trieNew cfg ∅ (bytesToHash cur.header.stateRoot)).map
      fun _ => ⟨⟨cur, storage⟩, ∅, [], ∅⟩ := by
  simp only [newBlockChain, hcur, Option.bind_eq_bind, Option.bind_some]
  cases trieNew cfg ∅ (bytesToHash cur.header.stateRoot) <;> rfl

/-- A store that has its newest block can be reopened exactly when the root of this block is the
one of the empty trie, or zero. -/
theorem newBlockChain_stored_iff {storage : Storage} {cur : Block}
    (hcur : getBlock storage storage.newest = some cur) :
    (newBlockChain cfg (some storage)).isSome ↔
      bytesToHash cur.header.stateRoot = List.replicate 32 0 ∨
        bytesToHash cur.header.stateRoot = cfg.stateRoot ∅ := by
  rw [← trieNew_empty_isSome_iff, newBlockChain_some hcur, Option.isSome_map]

/-- What is reopened has the newest block as `CurrentBlock`, with a root that resolves. -/
theorem newBlockChain_stored {storage : Storage} {cur : Block}
    (hcur : getBlock storage storage.newest = some cur) {l : Ledger}
    (h : newBlockChain cfg (some storage) = some l) :
    l.chain.currentBlock = cur ∧ (l.state cfg).isSome := by
  rw [newBlockChain_some hcur] at h
  obtain ⟨st, hst, rfl⟩ := Option.map_eq_some_iff.mp h
  refine ⟨rfl, ?_⟩
  rw [Ledger.state, Ledger.root, hst]
  rfl

/-- The newest block of the store is `CurrentBlock`, and its root is the one of genesis. -/
structure Reopenable (cfg : ChainConfig) (l : Ledger) : Prop where
  newest : getBlock l.chain.storage l.chain.storage.newest = some l.chain.currentBlock
  root : l.root = cfg.stateRoot ∅

/-- Put a block with the root of genesis on top. -/
theorem reopenable_push (b : Block) (storage : Storage) (triedb : TrieDb) (pool : List PoolTx)
    (pm : PartitionMap) (hroot : b.header.stateRoot = cfg.stateRoot ∅) :
    Reopenable cfg ⟨⟨b, storage.addBlock b⟩, triedb, pool, pm⟩ where
  newest := getBlock_addBlock_self storage b
  root := by
    rw [Ledger.root, hroot]
    exact bytesToHash_of_length (cfg.stateRoot_length ∅)

/-- Accounts of other shards are not stored. -/
theorem storeAccounts_foreign {l : Ledger} {ac : List Address} {as : List AccountState}
    {res res' : Trie × Bool} (hforeign : ∀ addr ∈ ac, l.owns cfg addr ≠ some true)
    (h : storeAccounts cfg l ac as res = some res') : res' = res := by
  induction ac generalizing as with
  | nil =>
    cases h
    rfl
  | cons addr ac ih =>
    obtain ⟨own, hown, hrest⟩ := Option.bind_eq_some_iff.mp h
    have hfalse : own = false := by
      cases own with
      | false => rfl
      | true => exact absurd hown (hforeign addr (List.mem_cons_self ..))
    rw [hfalse] at hrest
    exact ih (fun a ha => hforeign a (List.mem_cons_of_mem _ ha)) hrest

/-- Accounts of other shards leave an empty trie empty. -/
theorem commitAccounts_foreign {l : Ledger} (hroot : l.root = cfg.stateRoot ∅) {ac : List Address}
    {as : List AccountState} (hforeign : ∀ addr ∈ ac, l.owns cfg addr ≠ some true) {rt : Hash}
    {triedb : TrieDb} (h : commitAccounts cfg l ac as = some (rt, triedb)) :
    rt = cfg.stateRoot ∅ := by
  simp only [commitAccounts] at h
  split_ifs at h with hac
  · cases h
    exact hroot
  · obtain ⟨st, hst, hrest⟩ := Option.bind_eq_some_iff.mp h
    have hempty : st = ∅ := by
      rw [Ledger.state, trieNew, if_pos (.inr hroot)] at hst
      exact (Option.some.inj hst).symm
    obtain ⟨⟨st', dirty⟩, hstore, hres⟩ := Option.bind_eq_some_iff.mp hrest
    cases storeAccounts_foreign hforeign hstore
    subst hempty
    cases hres
    rfl

theorem reopenable_step {pcfg : SubMPT.Config} {n n' : ChainNode} {op : NodeOp}
    (hinv : Reopenable cfg n.ledger) (hkeeps : KeepsRoot cfg n op)
    (h : nodeStep cfg pcfg n op = some n') : Reopenable cfg n'.ledger := by
  cases op with
  | sendTx2Pool txs =>
    cases h
    exact ⟨hinv.newest, hinv.root⟩
  | updatePartitionMap key val =>
    cases h
    exact ⟨hinv.newest, hinv.root⟩
  | process txs =>
    cases h
    exact hinv
  | blockGenerate now =>
    cases h
    have hsame : (n.blockGenerate pcfg now).ledger = n.ledger := by
      simp only [ChainNode.blockGenerate, SubMPT.blockGenerate]
      rcases hkeeps with hdone | hpool
      · rw [if_pos hdone]
      · split_ifs <;> rfl
    rw [hsame]
    exact hinv
  | mine miner now =>
    obtain ⟨⟨l, b⟩, hgen, hrest⟩ := Option.bind_eq_some_iff.mp h
    obtain ⟨⟨l', ok⟩, hadd, hres⟩ := Option.bind_eq_some_iff.mp hrest
    cases hres
    obtain ⟨rfl, rfl⟩ := generateBlock_cases hgen
    obtain ⟨chain, hchain, rfl⟩ := ledger_addBlock_cases hadd
    obtain ⟨rfl, -⟩ | ⟨-, rfl, -⟩ := addBlock_cases hchain
    · exact ⟨hinv.newest, hinv.root⟩
    · exact reopenable_push _ _ _ _ _ hinv.root
  | addAccounts ac as =>
    obtain ⟨l, hadd, hres⟩ := Option.bind_eq_some_iff.mp h
    cases hres
    obtain ⟨rt, triedb, hcommit, rfl⟩ := addAccounts_cases hadd
    exact reopenable_push _ _ _ _ _ (commitAccounts_foreign hinv.root hkeeps hcommit)

theorem reopenable_new {l : Ledger} (h : newBlockChain cfg none = some l) : Reopenable cfg l := by
  rw [newBlockChain_none h]
  exact reopenable_push _ _ _ _ _ rfl

/-- **Restart.**  In every run in which no `blockGenerate` appends a block and no account of the
shard is added, closing the chain and opening it again returns, with the last block as
`CurrentBlock` and its state root resolvable. -/
theorem restart_of_run {pcfg : SubMPT.Config} {n : ChainNode}
    (h : Reach (nodeStep cfg pcfg) (KeepsRoot cfg) (ChainNode.Starts cfg) n) :
    ∃ l, n.restart cfg = some l ∧ l.chain.currentBlock = n.ledger.chain.currentBlock ∧
      (l.state cfg).isSome := by
  have hinv : Reopenable cfg n.ledger := by
    induction h with
    | start hs => exact reopenable_new hs.1
    | next _ hkeeps hstep ih => exact reopenable_step ih hkeeps hstep
  have hopens : (n.restart cfg).isSome :=
    (newBlockChain_stored_iff hinv.newest).mpr (.inr hinv.root)
  obtain ⟨l, hl⟩ := Option.isSome_iff_exists.mp hopens
  exact ⟨l, hl, newBlockChain_stored hinv.newest hl⟩

def shortNode : ChainNode :=
  ⟨shortLedger, SubMPT.Sys.initial [] (fun _ => ⟨0, 0, 0⟩) shortLedger.chain fun i => ⟨i, 1, ∅⟩⟩

theorem shortNode_starts : shortNode.Starts shortConfig :=
  ⟨newBlockChain_short, [], fun _ => ⟨0, 0, 0⟩, fun i => ⟨i, 1, ∅⟩, rfl⟩

/-- The proposer of `shortNode`. -/
def shortProposer : SubMPT.Config :=
  { SubMPT.standardConfig 1 with headerHash := shortConfig.headerHash }

/-- A chain with a mined block and accounts of another shard is opened again. -/
theorem restart_of_run_mined :
    ∃ n, Reach (nodeStep shortConfig shortProposer) (KeepsRoot shortConfig)
        (ChainNode.Starts shortConfig) n ∧ height n.ledger.chain.currentBlock = 2 ∧
      ∃ l, n.restart shortConfig = some l ∧
        l.chain.currentBlock = n.ledger.chain.currentBlock ∧ (l.state shortConfig).isSome := by
  have hstart : Reach (nodeStep shortConfig shortProposer) (KeepsRoot shortConfig)
      (ChainNode.Starts shortConfig) shortNode := .start shortNode_starts
  obtain ⟨n, hn, hheight⟩ := exists_reach_of_run
    [.sendTx2Pool [⟨⟨"a", "b", 0, 5, [1]⟩, false, false⟩], .mine 0 5, .addAccounts ["1"] [⟨0, 7⟩]]
    (fun n => height n.ledger.chain.currentBlock = 2) hstart (by decide +kernel)
  exact ⟨n, hn, hheight, restart_of_run hn⟩

/-- Neither a block of `blockGenerate`, whose state root is `"123"`, nor a block of `AddAccounts`
with an account of the shard can be reopened. -/
theorem restart_panics :
    (∃ n, Reach (nodeStep shortConfig shortProposer) anyStep (ChainNode.Starts shortConfig) n ∧
      n.ledger.chain.currentBlock.header.stateRoot = [49, 50, 51] ∧
      n.restart shortConfig = none) ∧
    ∃ n, Reach (nodeStep shortConfig shortProposer) anyStep (ChainNode.Starts shortConfig) n ∧
      (n.ledger.state shortConfig).isSome ∧ n.restart shortConfig = none := by
  have hstart : Reach (nodeStep shortConfig shortProposer) anyStep
      (ChainNode.Starts shortConfig) shortNode := .start shortNode_starts
  have hpanic : ∀ n : ChainNode, (n.restart shortConfig).isNone = true →
      n.restart shortConfig = none := fun n hn => Option.isNone_iff_eq_none.mp hn
  constructor
  · obtain ⟨n, hn, hroot, hnone⟩ := exists_reach_of_run
      [.process [⟨"a", "b", 0, 5, [1]⟩], .blockGenerate 5]
      (fun n => n.ledger.chain.currentBlock.header.stateRoot = [49, 50, 51] ∧
        (n.restart shortConfig).isNone = true) hstart (by decide +kernel)
    exact ⟨n, hn, hroot, hpanic n hnone⟩
  · obtain ⟨n, hn, hstate, hnone⟩ := exists_reach_of_run [.addAccounts ["4"] [⟨0, 7⟩]]
      (fun n => (n.ledger.state shortConfig).isSome = true ∧
        (n.restart shortConfig).isNone = true) hstart (by decide +kernel)
    exact ⟨n, hn, hstate, hpanic n hnone⟩

end Aster.Chain
