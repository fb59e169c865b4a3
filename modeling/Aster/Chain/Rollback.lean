import Aster.Chain.Ledger
import Aster.Lib.Transition

/-!
# Forks and the stored chain

`JudgeForkValid_RollBack` replaces the block of the chain at the height of a given block when the
given block has the same parent and a smaller hash.  It is called, like `AddBlock`, on blocks that
come from other nodes: their `Hash` field is what the sender wrote into it, and it is the key
under which the block is stored.

* **`stored_chain_of_run`**: as long as no block carries the hash of a block that lies below it on
  the chain, the parent hashes lead from `CurrentBlock` to genesis.
-/

namespace Aster.Chain

open Aster.Core Aster.Lib.ParentChain Aster.Lib.Transition

/-- The block that is met after `n` parent hashes from `CurrentBlock`. -/
def ancestor (bc : BlockChain) (n : ℕ) : Option Block :=
  ascend (getBlock bc.storage) (fun b => b.header.parentBlockHash) n bc.currentBlock.hash

/-- `JudgeForkValid_RollBack`, with its answer.  For a block with number 0 the loop condition
`nowheight >= 0` always holds, and the loop only ends, with the answer `false`, where a block is
missing; the walk does not end if it has not ended after as many blocks as are stored. -/
def judgeForkValidRollBack (bc : BlockChain) (b : Block) : Option (BlockChain × Bool) :=
  if bc.currentBlock.header.number < b.header.number then some (bc, false)
  else if b.header.number = 0 then
    if ancestor bc bc.storage.blocks.keys.card = none then some (bc, false) else none
  else
    match ancestor bc (height bc.currentBlock - height b) with
    | none => some (bc, false)
    | some curBlockAtSameHeight =>
      if b.header.parentBlockHash ≠ curBlockAtSameHeight.header.parentBlockHash then
        some (bc, false)
      else if curBlockAtSameHeight.hash ≤ b.hash then some (bc, false)
      else
        match getBlock bc.storage b.header.parentBlockHash with
        | none => some (bc, false)
        | some parentBlock => do
          let (bc, _) ← addBlock ⟨parentBlock, bc.storage⟩ b
          some (bc, true)

inductive BlockCall where
  | addBlock (b : Block)
  | judgeForkValidRollBack (b : Block)
  deriving DecidableEq

def BlockCall.block : BlockCall → Block
  | .addBlock b => b
  | .judgeForkValidRollBack b => b

/-- A call on a block, accepted or not. -/
def callStep (bc : BlockChain) : BlockCall → Option BlockChain
  | .addBlock b => (Chain.addBlock bc b).map (·.1)
  | .judgeForkValidRollBack b => (Chain.judgeForkValidRollBack bc b).map (·.1)

/-- The block of the call is not a block with number 0, and it does not carry the hash of a block
with a smaller number on the chain. -/
def FreshHash (bc : BlockChain) (call : BlockCall) : Prop :=
  call.block.header.number ≠ 0 ∧ ∀ i < height bc.currentBlock + 1, ∀ c ∈ ancestor bc i,
    c.header.number < call.block.header.number → c.hash ≠ call.block.hash

instance (bc : BlockChain) (call : BlockCall) : Decidable (FreshHash bc call) :=
  inferInstanceAs (Decidable (_ ∧ _))

/-- The node has just created its chain. -/
def NewChain (cfg : ChainConfig) (bc : BlockChain) : Prop :=
  ∃ l, newBlockChain cfg none = some l ∧ bc = l.chain

variable {bc bc' : BlockChain} {g b : Block} {bs : List Block}

theorem IsChain.ancestor_eq (h : IsChain bc g bs) {i : ℕ} {c : Block} (hc : bs[i]? = some c) :
    ancestor bc i = some c :=
  h.stored.ascend_eq h.head hc

/-- The blocks of a chain are found by walking down as many steps as there are heights. -/
theorem IsChain.exists_at (h : IsChain bc g bs) {i : ℕ} (hi : i ≤ height bc.currentBlock) :
    ∃ c, bs[i]? = some c ∧ ancestor bc i = some c := by
  have hlen := h.length_eq
  have hget : bs[i]? = some bs[i] := List.getElem?_eq_getElem (by omega)
  exact ⟨bs[i], hget, h.ancestor_eq hget⟩

theorem IsChain.getElem?_of_ancestor (h : IsChain bc g bs) {i : ℕ}
    (hi : i ≤ height bc.currentBlock) {c : Block} (hc : ancestor bc i = some c) :
    bs[i]? = some c := by
  obtain ⟨c', hget, hc'⟩ := h.exists_at hi
  rw [hget, ← hc', hc]

theorem height_pos (h : b.header.number ≠ 0) : 0 < height b := by
  rw [Nat.pos_iff_ne_zero]
  exact fun hzero => h (UInt64.toNat_inj.mp hzero)

/-- The successor of a number, from the heights. -/
theorem number_eq_succ {c p : Block} (h : height c = height p + 1) :
    c.header.number = p.header.number + 1 := by
  apply UInt64.toNat_inj.mp
  have hlt := c.header.number.toNat_lt
  rw [UInt64.toNat_add, UInt64.toNat_one]
  show height c = (height p + 1) % 2 ^ 64
  rw [← h]
  exact (Nat.mod_eq_of_lt hlt).symm

/-- What `JudgeForkValid_RollBack` can do: refuse the block, or put it over its parent in the place
of the block of the chain with its number. -/
theorem judge_cases {ok : Bool} (h : judgeForkValidRollBack bc b = some (bc', ok)) :
    bc' = bc ∧ ok = false ∨
      b.header.number ≠ 0 ∧ height b ≤ height bc.currentBlock ∧
        ∃ c p ok', ancestor bc (height bc.currentBlock - height b) = some c ∧
          b.header.parentBlockHash = c.header.parentBlockHash ∧
          getBlock bc.storage b.header.parentBlockHash = some p ∧
          addBlock ⟨p, bc.storage⟩ b = some (bc', ok') := by
  have refused : ∀ {res : BlockChain × Bool}, some (bc, false) = some res →
      res.1 = bc ∧ res.2 = false := by
    intro res hres
    cases hres
    exact ⟨rfl, rfl⟩
  unfold judgeForkValidRollBack at h
  by_cases hhigh : bc.currentBlock.header.number < b.header.number
  · rw [if_pos hhigh] at h
    exact .inl (refused h)
  · rw [if_neg hhigh] at h
    by_cases hzero : b.header.number = 0
    · rw [if_pos hzero] at h
      split_ifs at h
      exact .inl (refused h)
    · rw [if_neg hzero] at h
      split at h
      · exact .inl (refused h)
      · rename_i c hc
        split_ifs at h with hparent hsmaller
        · exact .inl (refused h)
        · exact .inl (refused h)
        · split at h
          · exact .inl (refused h)
          · rename_i p hp
            obtain ⟨⟨bc₁, ok'⟩, hadd, hres⟩ := Option.bind_eq_some_iff.mp h
            cases hres
            have hle : height b ≤ height bc.currentBlock :=
              UInt64.le_iff_toNat_le.mp (UInt64.not_lt.mp hhigh)
            exact .inr ⟨hzero, hle, c, p, ok', hc, not_not.mp hparent, hp, hadd⟩

/-- A chain below one of its blocks. -/
theorem IsChain.drop (h : IsChain bc g bs) {i : ℕ} {p : Block} (hp : bs[i]? = some p) :
    IsChain ⟨p, bc.storage⟩ g (bs.drop i) where
  stored := h.stored.drop (List.getElem?_eq_some_iff.mp hp).1
  head := by rw [List.head?_drop, hp]
  numbered := h.numbered.drop i

/-- The blocks below position `i` do not have the hash of `b` when `b` is fresh and has the
number of the block at position `i`. -/
theorem IsChain.hash_ne (h : IsChain bc g bs) {call : BlockCall} (hfresh : FreshHash bc call)
    {i : ℕ} (hi : height call.block + i = bs.length) :
    ∀ c ∈ bs.drop i, c.hash ≠ call.block.hash := by
  intro c hc
  obtain ⟨j, hj⟩ := List.getElem?_of_mem hc
  rw [List.getElem?_drop] at hj
  have hnum := h.numbered.getElem? hj
  have hlen := h.length_eq
  refine hfresh.2 (i + j) (by omega) c (Option.mem_def.mpr (h.ancestor_eq hj)) ?_
  rw [UInt64.lt_iff_toNat_lt]
  show height c < height call.block
  omega

/-- `AddBlock` of a block that fits puts it on top. -/
theorem IsChain.addBlock_fits (h : IsChain bc g bs) {ok : Bool}
    (hadd : addBlock bc b = some (bc', ok))
    (hnum : b.header.number = bc.currentBlock.header.number + 1)
    (hparent : b.header.parentBlockHash = bc.currentBlock.hash)
    (hfresh : ∀ c ∈ bs, c.hash ≠ b.hash) (hpos : b.header.number ≠ 0) :
    IsChain bc' g (b :: bs) ∧ bc'.storage.newest = bc'.currentBlock.hash := by
  obtain ⟨-, -, hrefused⟩ | ⟨-, rfl, -⟩ := addBlock_cases hadd
  · exact absurd ⟨hnum, hparent⟩ hrefused
  · exact ⟨h.push hnum hparent hfresh hpos, rfl⟩

/-- The chain of a node, with the newest hash of the store. -/
def ChainInv (g : Block) (bc : BlockChain) : Prop :=
  (∃ bs, IsChain bc g bs) ∧ bc.storage.newest = bc.currentBlock.hash

theorem chainInv_addBlock (hinv : ChainInv g bc) (hfresh : FreshHash bc (.addBlock b)) {ok : Bool}
    (hadd : addBlock bc b = some (bc', ok)) : ChainInv g bc' := by
  obtain ⟨⟨bs, hchain⟩, hnewest⟩ := hinv
  obtain ⟨rfl, -⟩ | ⟨-, -, -, hnum, hparent⟩ := addBlock_cases hadd
  · exact ⟨⟨bs, hchain⟩, hnewest⟩
  · have hpos : b.header.number ≠ 0 := hfresh.1
    have hsucc : height b = height bc.currentBlock + 1 := by
      rw [height, height, hnum]
      exact toNat_succ (hnum ▸ hpos)
    have hne : ∀ c ∈ bs.drop 0, c.hash ≠ b.hash := by
      apply hchain.hash_ne hfresh
      rw [hchain.length_eq]
      exact hsucc
    obtain ⟨htop, hnewest'⟩ := hchain.addBlock_fits hadd hnum hparent hne hpos
    exact ⟨⟨_, htop⟩, hnewest'⟩

theorem chainInv_judge (hinv : ChainInv g bc) (hfresh : FreshHash bc (.judgeForkValidRollBack b))
    {ok : Bool} (h : judgeForkValidRollBack bc b = some (bc', ok)) : ChainInv g bc' := by
  rcases judge_cases h with ⟨rfl, -⟩ | ⟨hpos, hle, c, p, ok', hanc, hparent, hget, hadd⟩
  · exact hinv
  · obtain ⟨⟨bs, hchain⟩, -⟩ := hinv
    have hheight := height_pos hpos
    have hlen := hchain.length_eq
    -- the block of the chain at the height of `b`, and its parent
    have hc : bs[height bc.currentBlock - height b]? = some c :=
      hchain.getElem?_of_ancestor (Nat.sub_le _ _) hanc
    obtain ⟨p', hp, -⟩ := hchain.exists_at (i := height bc.currentBlock - height b + 1) (by omega)
    have hlink : c.header.parentBlockHash = p'.hash := hchain.stored.parent_eq hc hp
    have hnum := hchain.numbered.getElem? hp
    have heq : p = p' := by
      rw [hparent, hlink, hchain.stored.stored p' (List.mem_of_getElem? hp)] at hget
      exact (Option.some.inj hget).symm
    rw [heq] at hadd
    have hne : ∀ x ∈ bs.drop (height bc.currentBlock - height b + 1), x.hash ≠ b.hash :=
      hchain.hash_ne hfresh (show height b + _ = _ by omega)
    obtain ⟨htop, hnewest⟩ := (hchain.drop hp).addBlock_fits hadd
      (number_eq_succ (show height b = height p' + 1 by omega)) (hparent.trans hlink) hne hpos
    exact ⟨⟨_, htop⟩, hnewest⟩

theorem chainInv_step {call : BlockCall} (hinv : ChainInv g bc) (hfresh : FreshHash bc call)
    (h : callStep bc call = some bc') : ChainInv g bc' := by
  cases call with
  | addBlock b =>
    obtain ⟨⟨chain, ok⟩, hadd, rfl⟩ := Option.map_eq_some_iff.mp h
    exact chainInv_addBlock hinv hfresh hadd
  | judgeForkValidRollBack b =>
    obtain ⟨⟨chain, ok⟩, hjudge, rfl⟩ := Option.map_eq_some_iff.mp h
    exact chainInv_judge hinv hfresh hjudge

/-- **The stored chain.**  In every run of `AddBlock` and `JudgeForkValid_RollBack` in which each
block has a positive number and a hash that no block with a smaller number on the chain has,
following the parent hashes from `CurrentBlock` visits its number, the numbers below it and 0, and
ends at genesis; the newest hash of the store is the one of `CurrentBlock`. -/
theorem stored_chain_of_run {cfg : ChainConfig}
    (h : Reach callStep FreshHash (NewChain cfg) bc) :
    (∃ bs, IsChain bc (newGenisisBlock cfg) bs) ∧ bc.storage.newest = bc.currentBlock.hash := by
  have hinv : ChainInv (newGenisisBlock cfg) bc := by
    induction h with
    | start hs =>
      obtain ⟨l, hl, rfl⟩ := hs
      rw [newBlockChain_none hl]
      exact ⟨⟨_, isChain_new cfg⟩, rfl⟩
    | next _ hfresh hstep ih => exact chainInv_step ih hfresh hstep
  exact hinv

/-- A block over genesis that carries a given hash. -/
def forkBlock (h : UInt8) : Block :=
  ⟨⟨(newGenisisBlock shortConfig).hash, [], [], ∅, 1, 0, 0⟩, [], [h]⟩

theorem newChain_short : NewChain shortConfig shortLedger.chain :=
  ⟨shortLedger, newBlockChain_short, rfl⟩

/-- A fork is taken over, and the chain is as it should be. -/
theorem stored_chain_of_run_fork :
    ∃ bc, Reach callStep FreshHash (NewChain shortConfig) bc ∧ bc.currentBlock = forkBlock 7 ∧
      (∃ bs, IsChain bc (newGenisisBlock shortConfig) bs) ∧
      bc.storage.newest = bc.currentBlock.hash := by
  have hstart : Reach callStep FreshHash (NewChain shortConfig) shortLedger.chain :=
    .start newChain_short
  obtain ⟨bc, hbc, hcur⟩ := exists_reach_of_run
    [.addBlock (forkBlock 9), .judgeForkValidRollBack (forkBlock 7)]
    (fun bc => bc.currentBlock = forkBlock 7) hstart (by decide +kernel)
  exact ⟨bc, hbc, hcur, stored_chain_of_run hbc⟩

/-- A block that carries the hash of genesis is accepted over genesis and replaces it in the
store: from then on no walk from `CurrentBlock` ends at genesis. -/
theorem stored_chain_overwritten :
    ∃ bc, Reach callStep anyStep (NewChain shortConfig) bc ∧ bc.currentBlock = forkBlock 1 ∧
      ¬ ∃ bs, IsChain bc (newGenisisBlock shortConfig) bs := by
  have hstart : Reach callStep anyStep (NewChain shortConfig) shortLedger.chain :=
    .start newChain_short
  obtain ⟨bc, hbc, hcur, hlost⟩ := exists_reach_of_run [.addBlock (forkBlock 1)]
    (fun bc => bc.currentBlock = forkBlock 1 ∧
      getBlock bc.storage (newGenisisBlock shortConfig).hash ≠ some (newGenisisBlock shortConfig))
    hstart (by decide +kernel)
  refine ⟨bc, hbc, hcur, ?_⟩
  rintro ⟨bs, hchain⟩
  exact hlost (hchain.stored.stored _ (List.mem_of_getLast? hchain.stored.getLast?_eq))

end Aster.Chain
