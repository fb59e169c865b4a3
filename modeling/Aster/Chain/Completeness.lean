import Aster.Chain.Ledger
import Aster.Lib.Transition

/-!
# Completeness of `TxOnChainVerify`

Every block that `GenerateBlock`, `GenerateBlock2` and `AddAccounts` make carries the root and the
filter of its own body.  A search therefore ends at a block whose root is right and whose body is
not empty, and it ends at the latest at a block that has the transaction.

* **`txOnChainVerify_complete`**: a transaction of a block above genesis is found.
* **`isChain_of_run`**: a run whose blocks have distinct hashes builds a chain down to genesis.
-/

namespace Aster.Chain

open Aster.Core Aster.Lib.ParentChain Aster.Lib.Transition

/-- The root and the filter in the header are those of the body. -/
structure WellMade (lib : TxTrie) (b : Block) : Prop where
  root : getTxTreeRoot lib b.body = b.header.txRoot
  filter : b.header.bloomFilter = getBloomFilter b.body

theorem wellMade_sealBlock (cfg : ChainConfig) (parent : Hash) (number : UInt64) (root : Hash)
    (body : List Transaction) (time : Time) (miner : UInt64) :
    WellMade cfg.txTrie (sealBlock cfg parent number root body time miner) :=
  ⟨rfl, rfl⟩

/-- A well-made block with a bit in its filter has transactions. -/
theorem WellMade.body_ne_nil {lib : TxTrie} {b : Block} (h : WellMade lib b) {txhash : Hash}
    (hhit : hit txhash b = true) : b.body ≠ [] := by
  intro hbody
  have hmem : modBytes txhash 2048 ∈ b.header.bloomFilter := of_decide_eq_true hhit
  rw [h.filter, hbody] at hmem
  cases hmem

theorem WellMade.hit {lib : TxTrie} {b : Block} (h : WellMade lib b) {tx : Transaction}
    (htx : tx ∈ b.body) : hit tx.txHash b = true := by
  apply decide_eq_true
  rw [h.filter]
  exact mem_getBloomFilter htx

/-- On a chain of well-made blocks the search finds what is there. -/
theorem isOn_of_wellMade (lib : TxTrie) {bc : BlockChain} {g : Block} {bs : List Block}
    (hchain : IsChain bc g bs) (hmade : ∀ b ∈ bs, WellMade lib b) {b : Block}
    (hb : b ∈ bs.dropLast) {tx : Transaction} (htx : tx ∈ b.body) :
    (txOnChainVerify lib bc tx.txHash).isOn = true := by
  have hsearch := search_eq lib tx.txHash hchain.stored hchain.numbered hchain.head
  cases hfirst : firstHit tx.txHash bs with
  | none =>
    have hno := List.find?_eq_none.mp hfirst b hb
    exact absurd ((hmade b (List.mem_of_mem_dropLast hb)).hit htx) hno
  | some c =>
    rw [hfirst] at hsearch
    obtain ⟨res, hres, hon, -⟩ := examine_eq lib tx.txHash c c.hash c.header.number
    have hc := hmade c (mem_of_firstHit hfirst)
    have htrue := hon.mpr ⟨hc.root, hc.body_ne_nil (List.find?_some hfirst)⟩
    rw [Option.some.inj (hres.symm.trans hsearch)] at htrue
    exact htrue

/-! ### Runs of a node -/

structure ChainSys where
  ledger : Ledger
  /-- The blocks that `GenerateBlock` and `GenerateBlock2` have returned. -/
  made : List Block
  /-- History: the blocks that were put on the chain, newest first. -/
  blocks : List Block

inductive ChainOp where
  | sendTx2Pool (txs : List PoolTx)
  | updatePartitionMap (key : Address) (val : UInt64)
  | generateBlock (miner : UInt64) (now : Time)
  | generateBlock2 (miner : UInt64) (now : Time) (processedTxpool : List Transaction)
  /-- `AddBlock` of the block at position `k` of `made`. -/
  | addBlock (k : ℕ)
  | addAccounts (ac : List Address) (as : List AccountState)

def chainStep (cfg : ChainConfig) (s : ChainSys) : ChainOp → Option ChainSys
  | .sendTx2Pool txs => some { s with
      ledger := { s.ledger with precessedTxpool := s.ledger.precessedTxpool ++ txs } }
  | .updatePartitionMap key val => some { s with
      ledger := { s.ledger with partitionMap := s.ledger.partitionMap.insert key val } }
  | .generateBlock miner now => do
    let (ledger, b) ← Chain.generateBlock cfg s.ledger miner now
    some { s with ledger := ledger, made := s.made ++ [b] }
  | .generateBlock2 miner now processedTxpool => some { s with
      made := s.made ++ [(Chain.generateBlock2 cfg s.ledger miner now processedTxpool).1] }
  | .addBlock k => do
    let b ← s.made[k]?
    let (ledger, ok) ← s.ledger.addBlock b
    some { s with ledger := ledger, blocks := if ok then b :: s.blocks else s.blocks }
  | .addAccounts ac as => do
    let ledger ← Chain.addAccounts cfg s.ledger ac as
    some { s with ledger := ledger, blocks := ledger.chain.currentBlock :: s.blocks }

/-- `NewBlockChain` on an empty store. -/
def ChainSys.Starts (cfg : ChainConfig) (s : ChainSys) : Prop :=
  ∃ l, newBlockChain cfg none = some l ∧ s = ⟨l, [], [newGenisisBlock cfg]⟩

/-- What a step does to the chain: nothing, or it puts a block on top that was made for it. -/
inductive ChainMove (cfg : ChainConfig) (s s' : ChainSys) : Prop
  | same (hchain : s'.ledger.chain = s.ledger.chain) (hblocks : s'.blocks = s.blocks)
  | push (b : Block)
      (hchain : s'.ledger.chain = ⟨b, s.ledger.chain.storage.addBlock b⟩)
      (hblocks : s'.blocks = b :: s.blocks)
      (hnum : b.header.number = s.ledger.chain.currentBlock.header.number + 1)
      (hparent : b.header.parentBlockHash = s.ledger.chain.currentBlock.hash)
      (hmade : b ∈ s.made ∨ WellMade cfg.txTrie b)

variable {cfg : ChainConfig} {s s' : ChainSys}

theorem chainStep_move {op : ChainOp} (h : chainStep cfg s op = some s') : ChainMove cfg s s' := by
  cases op with
  | sendTx2Pool txs =>
    cases h
    exact .same rfl rfl
  | updatePartitionMap key val =>
    cases h
    exact .same rfl rfl
  | generateBlock miner now =>
    obtain ⟨⟨l, b⟩, hgen, hres⟩ := Option.bind_eq_some_iff.mp h
    cases hres
    rw [(generateBlock_cases hgen).1]
    exact .same rfl rfl
  | generateBlock2 miner now pool =>
    cases h
    exact .same rfl rfl
  | addBlock k =>
    obtain ⟨b, hb, hrest⟩ := Option.bind_eq_some_iff.mp h
    obtain ⟨⟨l, ok⟩, hadd, hres⟩ := Option.bind_eq_some_iff.mp hrest
    cases hres
    obtain ⟨chain, hchain, rfl⟩ := ledger_addBlock_cases hadd
    obtain ⟨rfl, rfl, -⟩ | ⟨rfl, rfl, -, hnum, hparent⟩ := addBlock_cases hchain
    · exact .same rfl rfl
    · exact .push b rfl rfl hnum hparent (.inl (List.mem_of_getElem? hb))
  | addAccounts ac as =>
    obtain ⟨l, hadd, hres⟩ := Option.bind_eq_some_iff.mp h
    cases hres
    obtain ⟨rt, triedb, -, rfl⟩ := addAccounts_cases hadd
    exact .push _ rfl rfl rfl rfl (.inr (wellMade_sealBlock ..))

/-- Blocks that are handed out are well made. -/
theorem chainStep_made {op : ChainOp} (h : chainStep cfg s op = some s')
    (hmade : ∀ b ∈ s.made, WellMade cfg.txTrie b) : ∀ b ∈ s'.made, WellMade cfg.txTrie b := by
  have hsnoc : ∀ c, WellMade cfg.txTrie c → ∀ b ∈ s.made ++ [c], WellMade cfg.txTrie b := by
    intro c hc b hb
    rcases List.mem_append.mp hb with hb | hb
    · exact hmade b hb
    · rw [List.mem_singleton.mp hb]
      exact hc
  cases op with
  | sendTx2Pool txs =>
    cases h
    exact hmade
  | updatePartitionMap key val =>
    cases h
    exact hmade
  | generateBlock miner now =>
    obtain ⟨⟨l, b⟩, hgen, hres⟩ := Option.bind_eq_some_iff.mp h
    cases hres
    apply hsnoc
    rw [(generateBlock_cases hgen).2]
    exact wellMade_sealBlock ..
  | generateBlock2 miner now pool =>
    cases h
    exact hsnoc _ (wellMade_sealBlock ..)
  | addBlock k =>
    obtain ⟨b, -, hrest⟩ := Option.bind_eq_some_iff.mp h
    obtain ⟨⟨l, ok⟩, -, hres⟩ := Option.bind_eq_some_iff.mp hrest
    cases hres
    exact hmade
  | addAccounts ac as =>
    obtain ⟨l, -, hres⟩ := Option.bind_eq_some_iff.mp h
    cases hres
    exact hmade

/-- All blocks of the store, and all that can still be added, are well made. -/
structure AllWellMade (cfg : ChainConfig) (s : ChainSys) : Prop where
  stored : ∀ h b, getBlock s.ledger.chain.storage h = some b → WellMade cfg.txTrie b
  made : ∀ b ∈ s.made, WellMade cfg.txTrie b

theorem allWellMade_step {op : ChainOp} (hinv : AllWellMade cfg s)
    (h : chainStep cfg s op = some s') : AllWellMade cfg s' := by
  refine ⟨?_, chainStep_made h hinv.made⟩
  intro hash c hc
  cases chainStep_move h with
  | same hchain _ =>
    rw [hchain] at hc
    exact hinv.stored hash c hc
  | push b hchain _ _ _ hmade =>
    rw [hchain] at hc
    rcases getBlock_addBlock hc with rfl | hold
    · rcases hmade with hmem | hwell
      · exact hinv.made c hmem
      · exact hwell
    · exact hinv.stored hash c hold

theorem allWellMade_start (hs : s.Starts cfg) : AllWellMade cfg s := by
  obtain ⟨l, hl, rfl⟩ := hs
  rw [newBlockChain_none hl]
  refine ⟨?_, fun b hb => by cases hb⟩
  intro hash c hc
  rcases getBlock_addBlock hc with rfl | hold
  · exact wellMade_sealBlock ..
  · exact absurd hold (by simp [getBlock])

theorem allWellMade (h : Reach (chainStep cfg) anyStep (ChainSys.Starts cfg) s) :
    AllWellMade cfg s :=
  h.invariant (fun _ hs => allWellMade_start hs) fun _ _ _ _ hinv _ hstep =>
    allWellMade_step hinv hstep

/-- **A run builds a chain** as long as its blocks have distinct hashes and their number fits
into a `uint64`. -/
theorem isChain_of_run (h : Reach (chainStep cfg) anyStep (ChainSys.Starts cfg) s)
    (hdistinct : (s.blocks.map (·.hash)).Nodup) (hfits : s.blocks.length ≤ 2 ^ 64) :
    IsChain s.ledger.chain (newGenisisBlock cfg) s.blocks := by
  induction h with
  | start hs =>
    obtain ⟨l, hl, rfl⟩ := hs
    rw [newBlockChain_none hl]
    exact isChain_new cfg
  | @next s s' op _ _ hstep ih =>
    cases chainStep_move hstep with
    | same hchain hblocks =>
      rw [hblocks] at hdistinct hfits
      rw [hchain, hblocks]
      exact ih hdistinct hfits
    | push b hchain hblocks hnum hparent _ =>
      rw [hblocks] at hdistinct hfits
      rw [List.map_cons, List.nodup_cons] at hdistinct
      rw [List.length_cons] at hfits
      have hold := ih hdistinct.2 (by omega)
      rw [hchain, hblocks]
      refine hold.push hnum hparent ?_ ?_
      · intro c hc heq
        apply hdistinct.1
        rw [← heq]
        exact List.mem_map_of_mem hc
      · -- a number that wraps around would need 2 ^ 64 blocks below it
        intro hzero
        have hsucc := congrArg UInt64.toNat (hnum.symm.trans hzero)
        have hlen := hold.length_eq
        rw [UInt64.toNat_add, UInt64.toNat_one, UInt64.toNat_zero] at hsucc
        rw [height] at hlen
        have hlt := s.ledger.chain.currentBlock.header.number.toNat_lt
        omega

def shortStart : ChainSys := ⟨shortLedger, [], [newGenisisBlock shortConfig]⟩

theorem shortStart_starts : shortStart.Starts shortConfig :=
  ⟨shortLedger, newBlockChain_short, rfl⟩

def shortRun : List ChainOp :=
  [.sendTx2Pool [⟨⟨"a", "b", 0, 5, [1]⟩, false, false⟩], .generateBlock 0 5, .addBlock 0,
    .generateBlock2 0 6 [], .addBlock 1, .addAccounts ["4"] [⟨0, 7⟩]]

end Aster.Chain
