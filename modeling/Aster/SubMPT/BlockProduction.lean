import Aster.SubMPT.ProposerSteps
import Aster.Chain.StoredChain

/-!
# Block production of the proposer

`GatherTxs` appends to `ProcessedTxpool` and `blockGenerate` empties it into a block over the
head of the chain, whatever the rest of the system does: here a reply may hold anything, and
`AllocatedTxpool` may be filled with anything in between.

What is appended goes into the blocks in order (`Produced.bodies`), each block is put over the
one before, and `blockHashGenDone` holds exactly the parents of the blocks made.  As long as the
hashes of the blocks differ, the head is therefore never among them, and no call of
`blockGenerate` is turned away.
-/

namespace Aster.SubMPT

open Aster.Core Aster.Chain Aster.Lib.Transition

inductive ProductionMove where
  /-- A `TxAllocate` goroutine fills `AllocatedTxpool`. -/
  | allocate (txs : List Transaction)
  | gather (txHashs : List Hash) (txs : List TimedTx)
  | generate (now : Time)

def produce (cfg : Config) (s : Sys) : ProductionMove → Option Sys
  | .allocate txs => some { s with allocatedTxpool := insertAll s.allocatedTxpool txs }
  | .gather txHashs txs => gatherTxs s txHashs txs
  | .generate now => some (blockGenerate cfg s now)

/-- The proposer on the chain `chain`, whose head is in storage, before its first block. -/
structure BeforeBlocks (chain : BlockChain) (s : Sys) : Prop where
  curChain : s.curChain = chain
  stored : getBlock chain.storage chain.currentBlock.hash = some chain.currentBlock
  done : s.blockHashGenDone = ∅
  generated : s.generated = []
  appended : s.appended = s.processedTxpool

/-- `c` is put over `b`. -/
def Follows (b c : Block) : Prop :=
  c.header.number = b.header.number + 1 ∧ c.header.parentBlockHash = b.hash

/-- The blocks made so far, over the head of `chain`. -/
def Sys.blocks (s : Sys) (chain : BlockChain) : List Block := chain.currentBlock :: s.generated

variable {cfg : Config} {chain : BlockChain} {s s' : Sys}

/-! ### One call -/

theorem newBlock_follows (cfg : Config) (s : Sys) (now : Time) :
    Follows s.curChain.currentBlock (newBlock cfg s now) :=
  ⟨rfl, rfl⟩

theorem addBlock_of_follows {bc : BlockChain} {b : Block} (h : Follows bc.currentBlock b) :
    bc.addBlock b = (⟨b, bc.storage.addBlock b⟩, true) := by
  rw [BlockChain.addBlock, if_neg (not_not.mpr h.1), if_neg (not_not.mpr h.2)]

/-- `blockGenerate` returns early and leaves everything as it is, or moves the whole pool into a
block over the head. -/
theorem blockGenerate_cases (cfg : Config) (s : Sys) (now : Time) :
    (s.curChain.currentBlock.hash ∈ s.blockHashGenDone ∨ s.processedTxpool = []) ∧
        blockGenerate cfg s now = s ∨
      ∃ b, Follows s.curChain.currentBlock b ∧ b.body = s.processedTxpool ∧
        blockGenerate cfg s now = { s with
          processedTxpool := []
          blockHashGenDone := Insert.insert s.curChain.currentBlock.hash s.blockHashGenDone
          curChain := ⟨b, s.curChain.storage.addBlock b⟩
          generated := s.generated ++ [b]
          signals := s.signals + 1 } := by
  by_cases hdone : s.curChain.currentBlock.hash ∈ s.blockHashGenDone
  · exact .inl ⟨.inl hdone, by rw [blockGenerate, if_pos hdone]⟩
  by_cases hpool : s.processedTxpool = []
  · exact .inl ⟨.inr hpool, by rw [blockGenerate, if_neg hdone, if_pos hpool]⟩
  have hf := newBlock_follows cfg s now
  refine .inr ⟨newBlock cfg s now, hf, rfl, ?_⟩
  rw [blockGenerate, if_neg hdone, if_neg hpool]
  simp only [addBlock_of_follows hf]
  rfl

/-! ### Runs -/

/-- What holds in every run, whatever the hashes are. -/
structure Produced (chain : BlockChain) (s : Sys) : Prop where
  bodies : s.generated.flatMap (·.body) ++ s.processedTxpool = s.appended
  linked : (s.blocks chain).IsChain Follows
  head : (s.blocks chain).getLast? = some s.curChain.currentBlock
  stored : getBlock s.curChain.storage s.curChain.currentBlock.hash = some s.curChain.currentBlock
  done : s.blockHashGenDone = (s.generated.map (·.header.parentBlockHash)).toFinset

theorem produced_start (h : BeforeBlocks chain s) : Produced chain s where
  bodies := by
    rw [h.generated, h.appended]
    rfl
  linked := by
    rw [Sys.blocks, h.generated]
    exact .singleton _
  head := by
    rw [Sys.blocks, h.generated, h.curChain]
    rfl
  stored := by
    rw [h.curChain]
    exact h.stored
  done := by
    rw [h.generated, h.done]
    rfl

theorem produced_gather (hi : Produced chain s) {txHashs : List Hash} {txs : List TimedTx}
    (h : gatherTxs s txHashs txs = some s') : Produced chain s' := by
  obtain ⟨pool, moved, times, -, rfl⟩ := gatherTxs_some txHashs txs s s' h
  refine ⟨?_, hi.linked, hi.head, hi.stored, hi.done⟩
  show s.generated.flatMap (·.body) ++ (s.processedTxpool ++ moved) = s.appended ++ moved
  rw [← List.append_assoc, hi.bodies]

theorem produced_generate (hi : Produced chain s) (now : Time) :
    Produced chain (blockGenerate cfg s now) := by
  obtain ⟨-, heq⟩ | ⟨b, hf, hbody, heq⟩ := blockGenerate_cases cfg s now
  · rw [heq]
    exact hi
  · rw [heq]
    refine ⟨?_, ?_, ?_, getBlock_addBlock_self _ b, ?_⟩
    · show (s.generated ++ [b]).flatMap (·.body) ++ [] = s.appended
      rw [List.flatMap_append, List.append_nil, List.flatMap_singleton, hbody, hi.bodies]
    · show ((s.blocks chain) ++ [b]).IsChain Follows
      refine hi.linked.append (.singleton b) ?_
      intro c hc d hd
      rw [hi.head] at hc
      cases hc
      cases hd
      exact hf
    · show ((s.blocks chain) ++ [b]).getLast? = some b
      rw [List.getLast?_append]
      rfl
    · show Insert.insert s.curChain.currentBlock.hash s.blockHashGenDone =
        ((s.generated ++ [b]).map (·.header.parentBlockHash)).toFinset
      rw [hi.done, List.map_append, List.toFinset_append, Finset.union_comm]
      simp [hf.2]

/-- **Every run keeps the stream**, with or without collisions of hashes. -/
theorem produced_of_reach
    (h : Reach (produce cfg) anyStep (BeforeBlocks chain) s) : Produced chain s := by
  refine h.invariant (fun s => produced_start) ?_
  intro s s' l _ hi _ hstep
  cases l with
  | allocate txs =>
    cases hstep
    exact ⟨hi.bodies, hi.linked, hi.head, hi.stored, hi.done⟩
  | gather txHashs txs => exact produced_gather hi hstep
  | generate now =>
    cases hstep
    exact produced_generate hi now

/-! ### Distinct hashes -/

/-- The parents of the blocks of a chain are all its blocks but the last. -/
theorem parents_of_linked {b : Block} {bs : List Block} (h : (b :: bs).IsChain Follows) :
    bs.map (·.header.parentBlockHash) = ((b :: bs).map (·.hash)).dropLast := by
  induction bs generalizing b with
  | nil => rfl
  | cons c cs ih =>
    obtain ⟨hf, hrest⟩ := List.isChain_cons_cons.mp h
    rw [List.map_cons, List.map_cons, List.map_cons, List.dropLast_cons_cons, hf.2, ih hrest,
      List.map_cons]

theorem nodup_parents {b : Block} {bs : List Block} (h : (b :: bs).IsChain Follows)
    (hd : ((b :: bs).map (·.hash)).Nodup) : (bs.map (·.header.parentBlockHash)).Nodup := by
  rw [parents_of_linked h]
  exact hd.sublist (List.dropLast_sublist _)

/-- The head is no parent. -/
theorem head_not_mem_parents {b c : Block} {bs : List Block} (h : (b :: bs).IsChain Follows)
    (hd : ((b :: bs).map (·.hash)).Nodup) (hc : (b :: bs).getLast? = some c) :
    c.hash ∉ bs.map (·.header.parentBlockHash) := by
  rw [parents_of_linked h]
  have hlast : ((b :: bs).map (·.hash)).getLast? = some c.hash := by
    rw [List.getLast?_map, hc]
    rfl
  have hsplit := List.dropLast_append_getLast? c.hash hlast
  rw [← hsplit] at hd
  intro hmem
  exact List.disjoint_of_nodup_append hd hmem (List.mem_singleton.mpr rfl)

/-- What `GatherTxs` and `blockGenerate` keep of the processed stream. -/
structure KeepsStream (cfg : Config) (chain : BlockChain) (s : Sys) : Prop where
  /-- The bodies of the blocks followed by `ProcessedTxpool` are everything ever appended. -/
  bodies : s.generated.flatMap (·.body) ++ s.processedTxpool = s.appended
  /-- Whenever a block is made, `AddBlock` accepts it. -/
  accepted : ∀ now, (s.curChain.addBlock (newBlock cfg s now)).2 = true
  /-- The blocks have consecutive numbers, each over the one before, from the first head on. -/
  linked : (s.blocks chain).IsChain Follows
  head : (s.blocks chain).getLast? = some s.curChain.currentBlock
  stored : getBlock s.curChain.storage s.curChain.currentBlock.hash = some s.curChain.currentBlock
  parents : (s.generated.map (·.header.parentBlockHash)).Nodup
  /-- The test of `blockHashGenDone` lets the next call pass. -/
  unsuppressed : s.curChain.currentBlock.hash ∉ s.blockHashGenDone

/-- **Block production.**  In every interleaving of `GatherTxs` and `blockGenerate`, from a chain
whose head is in storage, and as long as the hashes of the blocks differ. -/
theorem blockGenerate_keeps_stream
    (h : Reach (produce cfg) anyStep (BeforeBlocks chain) s)
    (hdistinct : ((s.blocks chain).map (·.hash)).Nodup) : KeepsStream cfg chain s := by
  have hi := produced_of_reach h
  refine ⟨hi.bodies, ?_, hi.linked, hi.head, hi.stored, nodup_parents hi.linked hdistinct, ?_⟩
  · intro now
    rw [addBlock_of_follows (newBlock_follows cfg s now)]
  · rw [hi.done, List.mem_toFinset]
    exact head_not_mem_parents hi.linked hdistinct hi.head

/-- A genesis block in storage. -/
def storedGenesis : BlockChain :=
  ⟨genesis.currentBlock, genesis.storage.addBlock genesis.currentBlock⟩

def streamTx (n : UInt8) : Transaction := ⟨"1a", "2b", 0, 5, [n]⟩

theorem blockGenerate_keeps_stream_two_blocks :
    ∃ s, Reach (produce (standardConfig 1)) anyStep (BeforeBlocks storedGenesis) s ∧
      s.generated.map (·.body) = [[streamTx 1], [streamTx 2, streamTx 3]] ∧
      KeepsStream (standardConfig 1) storedGenesis s := by
  have hstart : Reach (produce (standardConfig 1)) anyStep (BeforeBlocks storedGenesis)
      { freshStart 1 [] with curChain := storedGenesis } :=
    .start ⟨rfl, getBlock_addBlock_self _ _, rfl, rfl, rfl⟩
  obtain ⟨s, hr, hbodies, hdistinct⟩ := exists_reach_of_run
    [.allocate [streamTx 1, streamTx 2, streamTx 3], .gather [[1]] [⟨streamTx 1, ⟨0, 1, 2⟩⟩],
      .generate 5, .generate 6,
      .gather [[2], [3]] [⟨streamTx 2, ⟨0, 1, 2⟩⟩, ⟨streamTx 3, ⟨0, 1, 3⟩⟩], .generate 7]
    (fun s : Sys => s.generated.map (·.body) = [[streamTx 1], [streamTx 2, streamTx 3]] ∧
      ((s.blocks storedGenesis).map (·.hash)).Nodup) hstart (by decide +kernel)
  exact ⟨s, hr, hbodies, blockGenerate_keeps_stream hr hdistinct⟩

end Aster.SubMPT
