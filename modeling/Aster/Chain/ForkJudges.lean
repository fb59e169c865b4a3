import Aster.Chain.Rollback

/-!
# The two fork judges

`JudgeForkValid_RollBack` walks the parent hashes of the store, with a height counter of type
`uint64` that wraps around at 0; `JudgeForkValid_RollBack_withMap` looks the block of the chain up
in two maps.  Both then compare the blocks and put the new one over the common parent.

* `walk_eq_ascend`, `walk_zero`: the walk ends, also for a block with number 0;
* `judgeLoop_eq`: the loop is the function with which runs of the store are modelled;
* **`fork_judges_iff`**: the judges agree and keep the chain, unless the block is taken over with a
  hash that the store refuses or that a block below it has.

A block is stored under the hash it carries, so such a block replaces the one below.
-/

namespace Aster.Chain

open Aster.Core Aster.Lib.ParentChain

/-! ### The walk -/

/-- The loop of `JudgeForkValid_RollBack` for a block with the given number.  The outer `none` is
a loop that has not ended; the next one is a block that is missing, on which the answer is
`false`; the last one is `curBlockAtSameHeight` that is still nil. -/
def walk (st : Storage) (number : UInt64) :
    ℕ → UInt64 → Hash → Option Block → Option (Option (Option Block))
  | 0, _, _, _ => none
  | fuel + 1, nowheight, queryBlockHash, curBlockAtSameHeight =>
    if nowheight < number then some (some curBlockAtSameHeight)
    else
      match getBlock st queryBlockHash with
      | none => some none
      | some block =>
        walk st number fuel (nowheight - 1) block.header.parentBlockHash
          (if nowheight = number then some block else curBlockAtSameHeight)

/-- What both functions do with the block of the chain at the height of `b`. -/
def rollBack (bc : BlockChain) (b curBlockAtSameHeight : Block) (parentBlock : Option Block) :
    Option (BlockChain × Bool) :=
  if b.header.parentBlockHash ≠ curBlockAtSameHeight.header.parentBlockHash then some (bc, false)
  else if curBlockAtSameHeight.hash ≤ b.hash then some (bc, false)
  else
    match parentBlock with
    | none => some (bc, false)
    | some parentBlock => do
      let (bc, _) ← addBlock ⟨parentBlock, bc.storage⟩ b
      some (bc, true)

/-- `JudgeForkValid_RollBack` with at most `fuel` tests of the loop condition. -/
def judgeLoop (fuel : ℕ) (bc : BlockChain) (b : Block) : Option (BlockChain × Bool) :=
  if bc.currentBlock.header.number < b.header.number then some (bc, false)
  else do
    match ← walk bc.storage b.header.number fuel bc.currentBlock.header.number
        bc.currentBlock.hash none with
    | none => some (bc, false)
    | some curBlockAtSameHeight =>
      rollBack bc b (← curBlockAtSameHeight) (getBlock bc.storage b.header.parentBlockHash)

abbrev ChainHeight2Hash := Finmap fun _ : UInt64 => Hash

abbrev HashToBlock := Finmap fun _ : Hash => Block

/-- `JudgeForkValid_RollBack_withMap`; it changes the map of the heights. -/
def judgeForkValidRollBackWithMap (bc : BlockChain) (b : Block)
    (chainHeight2Hash : ChainHeight2Hash) (hashToBlock : HashToBlock) :
    Option (BlockChain × ChainHeight2Hash × Bool) :=
  if bc.currentBlock.header.number < b.header.number then some (bc, chainHeight2Hash, false)
  else
    match chainHeight2Hash.lookup b.header.number with
    | none => some (bc, chainHeight2Hash, false)
    | some curBlockHashAtSameHeight =>
      match hashToBlock.lookup curBlockHashAtSameHeight with
      | none => some (bc, chainHeight2Hash, false)
      | some curBlockAtSameHeight =>
        (rollBack bc b curBlockAtSameHeight (hashToBlock.lookup b.header.parentBlockHash)).map
          fun res => (res.1, if res.2 then chainHeight2Hash.insert b.header.number b.hash
            else chainHeight2Hash, res.2)

variable {bc : BlockChain} {g b : Block} {bs : List Block} {st : Storage}

theorem toNat_pred {n : UInt64} (h : 0 < n.toNat) : (n - 1).toNat = n.toNat - 1 := by
  have hlt := n.toNat_lt
  rw [UInt64.toNat_sub, UInt64.toNat_one]
  omega

/-- Above 0 the walk follows the parent hashes down to the number of the block. -/
theorem walk_eq_ascend {number nowheight : UInt64} {n fuel : ℕ} (hnumber : number ≠ 0)
    (hn : nowheight.toNat = number.toNat + n) (hfuel : n + 2 ≤ fuel) (queryBlockHash : Hash)
    (cur : Option Block) :
    walk st number fuel nowheight queryBlockHash cur =
      some ((ascend (getBlock st) (fun b => b.header.parentBlockHash) n queryBlockHash).map
        some) := by
  have hpos : 0 < number.toNat := by
    rw [Nat.pos_iff_ne_zero]
    exact fun hzero => hnumber (UInt64.toNat_inj.mp hzero)
  induction n generalizing nowheight fuel queryBlockHash cur with
  | zero =>
    obtain ⟨fuel, rfl⟩ : ∃ k, fuel = k + 2 := ⟨fuel - 2, by omega⟩
    have heq : nowheight = number := UInt64.toNat_inj.mp hn
    have hlt : nowheight - 1 < number := by
      rw [UInt64.lt_iff_toNat_lt, toNat_pred (by omega)]
      omega
    rw [walk, if_neg (by rw [heq]; exact UInt64.lt_irrefl number), ascend]
    cases getBlock st queryBlockHash with
    | none => rfl
    | some block =>
      show walk st number (fuel + 1) (nowheight - 1) _ _ = _
      rw [walk, if_pos hlt, if_pos heq]
      rfl
  | succ n ih =>
    obtain ⟨fuel, rfl⟩ : ∃ k, fuel = k + 1 := ⟨fuel - 1, by omega⟩
    have hge : ¬ nowheight < number := by
      rw [UInt64.lt_iff_toNat_lt]
      omega
    rw [walk, if_neg hge, ascend]
    cases getBlock st queryBlockHash with
    | none => rfl
    | some block => exact ih (by rw [toNat_pred (by omega)]; omega) (by omega) _ _

/-- For the number 0 the walk ends where a block is missing. -/
theorem walk_zero {n fuel : ℕ} (hfuel : n < fuel) (nowheight : UInt64) (queryBlockHash : Hash)
    (cur : Option Block) (hmissing :
      ascend (getBlock st) (fun b => b.header.parentBlockHash) n queryBlockHash = none) :
    walk st 0 fuel nowheight queryBlockHash cur = some none := by
  have hge : ∀ k : UInt64, ¬ k < 0 := fun k => UInt64.not_lt_zero
  induction n generalizing nowheight fuel queryBlockHash cur with
  | zero =>
    obtain ⟨fuel, rfl⟩ : ∃ k, fuel = k + 1 := ⟨fuel - 1, by omega⟩
    rw [ascend] at hmissing
    rw [walk, if_neg (hge _), hmissing]
  | succ n ih =>
    obtain ⟨fuel, rfl⟩ : ∃ k, fuel = k + 1 := ⟨fuel - 1, by omega⟩
    rw [walk, if_neg (hge _)]
    rw [ascend] at hmissing
    cases hget : getBlock st queryBlockHash with
    | none => rfl
    | some block =>
      rw [hget] at hmissing
      exact ih (by omega) _ _ _ hmissing

/-! ### Well-formed stores -/

/-- Every stored block lies under its hash, and its parent is stored one height below, down to
genesis, whose parent is not stored. -/
structure WellFormed (bc : BlockChain) (g : Block) : Prop where
  current : getBlock bc.storage bc.currentBlock.hash = some bc.currentBlock
  key : ∀ h c, getBlock bc.storage h = some c → c.hash = h
  parent : ∀ h c, getBlock bc.storage h = some c → c ≠ g →
    ∃ p, getBlock bc.storage c.header.parentBlockHash = some p ∧ height c = height p + 1
  genesis : getBlock bc.storage g.hash = some g
  genesis_height : height g = 0
  genesis_parent : getBlock bc.storage g.header.parentBlockHash = none

/-- What is found under a hash other than that of the new block. -/
theorem getBlock_addBlock_cases {h : Hash} {c : Block}
    (hc : getBlock (st.addBlock b) h = some c) :
    h = b.hash ∧ c = b ∨ h ≠ b.hash ∧ getBlock st h = some c := by
  by_cases heq : h = b.hash
  · rw [heq, getBlock_addBlock_self] at hc
    exact .inl ⟨heq, (Option.some.inj hc).symm⟩
  · rw [getBlock_addBlock_of_ne st b heq] at hc
    exact .inr ⟨heq, hc⟩

theorem wellFormed_new (cfg : ChainConfig) (hhash : (newGenisisBlock cfg).hash ≠ []) :
    WellFormed ⟨newGenisisBlock cfg, Storage.addBlock ⟨∅, []⟩ (newGenisisBlock cfg)⟩
      (newGenisisBlock cfg) where
  current := getBlock_addBlock_self _ _
  key := by
    intro h c hc
    rcases getBlock_addBlock_cases hc with ⟨rfl, rfl⟩ | ⟨-, hnone⟩
    · rfl
    · cases hnone
  parent := by
    intro h c hc hne
    rcases getBlock_addBlock_cases hc with ⟨-, rfl⟩ | ⟨-, hnone⟩
    · exact absurd rfl hne
    · cases hnone
  genesis := getBlock_addBlock_self _ _
  genesis_height := rfl
  genesis_parent := getBlock_addBlock_of_ne _ _ (Ne.symm hhash)

/-- A block with a new hash over a stored one. -/
theorem WellFormed.push (h : WellFormed bc g) {p : Block}
    (hp : getBlock bc.storage p.hash = some p) (hparent : b.header.parentBlockHash = p.hash)
    (hheight : height b = height p + 1) (hfresh : getBlock bc.storage b.hash = none)
    (hg : b.hash ≠ g.header.parentBlockHash) :
    WellFormed ⟨b, bc.storage.addBlock b⟩ g := by
  have hkeep : ∀ k c, getBlock bc.storage k = some c →
      getBlock (bc.storage.addBlock b) k = some c := by
    intro k c hc
    rw [getBlock_addBlock_of_ne]
    · exact hc
    · rintro rfl
      rw [hfresh] at hc
      cases hc
  constructor
  · exact getBlock_addBlock_self _ _
  · intro k c hc
    rcases getBlock_addBlock_cases hc with ⟨rfl, rfl⟩ | ⟨-, hold⟩
    · rfl
    · exact h.key k c hold
  · intro k c hc hne
    rcases getBlock_addBlock_cases hc with ⟨-, rfl⟩ | ⟨-, hold⟩
    · exact ⟨p, hkeep _ p (hparent ▸ hp), hheight⟩
    · obtain ⟨q, hq, hheight'⟩ := h.parent k c hold hne
      exact ⟨q, hkeep _ q hq, hheight'⟩
  · exact hkeep _ g h.genesis
  · exact h.genesis_height
  · exact (getBlock_addBlock_of_ne _ b (Ne.symm hg)).trans h.genesis_parent

/-- The way down from a stored block. -/
theorem WellFormed.linked (h : WellFormed bc g) {c : Block}
    (hc : getBlock bc.storage c.hash = some c) :
    ∃ bs, Stored bc.storage g bs ∧ bs.head? = some c ∧ Numbered height bs := by
  induction hn : height c generalizing c with
  | zero =>
    have hgen : c = g := by
      by_contra hne
      obtain ⟨p, -, hp⟩ := h.parent _ c hc hne
      omega
    rw [hgen]
    exact ⟨[g], .base h.genesis, rfl, numbered_singleton h.genesis_height⟩
  | succ n ih =>
    have hne : c ≠ g := by
      rintro rfl
      have := h.genesis_height
      omega
    obtain ⟨p, hget, hheight⟩ := h.parent _ c hc hne
    have hkey := h.key _ p hget
    obtain ⟨bs, hstored, hhead, hnum⟩ := ih (c := p) (by rw [hkey]; exact hget) (by omega)
    have hchain : IsChain ⟨p, bc.storage⟩ g bs := ⟨hstored, hhead, hnum⟩
    refine ⟨c :: bs, hstored.push hhead hc hkey.symm (fun _ _ => rfl), rfl, ?_⟩
    exact numbered_cons.mpr ⟨by rw [hchain.length_eq]; exact hheight, hnum⟩

/-- **The chain** of a well-formed store. -/
theorem WellFormed.isChain (h : WellFormed bc g) : ∃ bs, IsChain bc g bs := by
  obtain ⟨bs, hstored, hhead, hnum⟩ := h.linked h.current
  exact ⟨bs, hstored, hhead, hnum⟩

/-- A chain has at most as many blocks as are stored: the numbers tell the blocks apart, and the
store the hashes. -/
theorem IsChain.length_le (h : IsChain bc g bs) : bs.length ≤ bc.storage.blocks.keys.card := by
  have hnodup : (bs.map Block.hash).Nodup := by
    have hheights : (bs.map height).Nodup := by
      rw [h.numbered, List.nodup_reverse]
      exact List.nodup_range
    refine (List.Nodup.of_map height hheights).map_on ?_
    intro c hc c' hc' heq
    have hget := h.stored.stored c hc
    rw [heq, h.stored.stored c' hc'] at hget
    exact (Option.some.inj hget).symm
  have hsub : (bs.map Block.hash).toFinset ⊆ bc.storage.blocks.keys := by
    intro k hk
    obtain ⟨c, hc, rfl⟩ := List.mem_map.mp (List.mem_toFinset.mp hk)
    exact Finmap.mem_keys.mpr (Finmap.mem_iff.mpr ⟨c, h.stored.stored c hc⟩)
  calc bs.length = (bs.map Block.hash).toFinset.card := by
        rw [List.toFinset_card_of_nodup hnodup, List.length_map]
    _ ≤ bc.storage.blocks.keys.card := Finset.card_le_card hsub

theorem judge_of_ancestor (hpos : b.header.number ≠ 0) (hle : height b ≤ height bc.currentBlock)
    {c : Block} (hc : ancestor bc (height bc.currentBlock - height b) = some c) :
    judgeForkValidRollBack bc b =
      rollBack bc b c (getBlock bc.storage b.header.parentBlockHash) := by
  rw [judgeForkValidRollBack, if_neg (UInt64.not_lt.mpr (UInt64.le_iff_toNat_le.mpr hle)),
    if_neg hpos, hc]
  rfl

theorem judgeLoop_of_ancestor (hpos : b.header.number ≠ 0)
    (hle : height b ≤ height bc.currentBlock) {c : Block}
    (hc : ancestor bc (height bc.currentBlock - height b) = some c) {fuel : ℕ}
    (hfuel : height bc.currentBlock + 2 ≤ fuel) :
    judgeLoop fuel bc b =
      rollBack bc b c (getBlock bc.storage b.header.parentBlockHash) := by
  rw [judgeLoop, if_neg (UInt64.not_lt.mpr (UInt64.le_iff_toNat_le.mpr hle)),
    walk_eq_ascend hpos (n := height bc.currentBlock - height b)
      (show height bc.currentBlock = height b + _ by omega) (by omega), ← ancestor, hc]
  rfl

/-- For the number 0 the loop goes on below genesis, where it finds nothing. -/
theorem judgeLoop_zero (h : IsChain bc g bs)
    (hg : getBlock bc.storage g.header.parentBlockHash = none) {fuel : ℕ}
    (hfuel : height bc.currentBlock + 2 ≤ fuel) (hzero : b.header.number = 0) :
    judgeLoop fuel bc b = some (bc, false) := by
  have hlen := h.length_eq
  rw [judgeLoop, hzero, if_neg UInt64.not_lt_zero,
    walk_zero (by omega) _ _ _ (h.stored.ascend_past h.head hg)]
  rfl

/-- **The loop ends**, and is the function with which runs of the store are modelled. -/
theorem judgeLoop_eq (h : IsChain bc g bs)
    (hg : getBlock bc.storage g.header.parentBlockHash = none) {fuel : ℕ}
    (hfuel : height bc.currentBlock + 2 ≤ fuel) (b : Block) :
    judgeLoop fuel bc b = judgeForkValidRollBack bc b := by
  by_cases hhigh : bc.currentBlock.header.number < b.header.number
  · rw [judgeLoop, judgeForkValidRollBack, if_pos hhigh, if_pos hhigh]
  · have hle : height b ≤ height bc.currentBlock :=
      UInt64.le_iff_toNat_le.mp (UInt64.not_lt.mp hhigh)
    by_cases hzero : b.header.number = 0
    · have hmissing : ancestor bc bc.storage.blocks.keys.card = none :=
        ascend_none_of_le h.length_le (h.stored.ascend_past h.head hg)
      rw [judgeLoop_zero h hg hfuel hzero, judgeForkValidRollBack, if_neg hhigh, if_pos hzero,
        if_pos hmissing]
    · obtain ⟨c, -, hc⟩ := h.exists_at (Nat.sub_le (height bc.currentBlock) (height b))
      rw [judgeLoop_of_ancestor hzero hle hc hfuel, judge_of_ancestor hzero hle hc]

/-! ### Taking a block over -/

/-- The block is put in the place of the block of the chain with its number: that has the same
parent and a larger hash. -/
def Takes (bc : BlockChain) (b : Block) : Prop :=
  b.header.number ≠ 0 ∧ height b ≤ height bc.currentBlock ∧
    ∃ c, ancestor bc (height bc.currentBlock - height b) = some c ∧
      b.header.parentBlockHash = c.header.parentBlockHash ∧ b.hash < c.hash

theorem addBlock_of_fits (hnum : b.header.number = bc.currentBlock.header.number + 1)
    (hparent : b.header.parentBlockHash = bc.currentBlock.hash) :
    addBlock bc b =
      if validKey b.hash then some (⟨b, bc.storage.addBlock b⟩, true) else none := by
  simp only [addBlock, BlockChain.addBlock, hnum, hparent, ne_eq, not_true_eq_false, if_false,
    true_and]
  cases validKey b.hash <;> rfl

/-- What the tests of a judge come to, on the block of the chain with the number of `b`. -/
theorem IsChain.rollBack_eq (h : IsChain bc g bs) (hpos : b.header.number ≠ 0)
    (hle : height b ≤ height bc.currentBlock) {c : Block}
    (hc : ancestor bc (height bc.currentBlock - height b) = some c) :
    (Takes bc b ∧ rollBack bc b c (getBlock bc.storage b.header.parentBlockHash) =
        if validKey b.hash then some (⟨b, bc.storage.addBlock b⟩, true) else none) ∨
      ¬ Takes bc b ∧
        rollBack bc b c (getBlock bc.storage b.header.parentBlockHash) = some (bc, false) := by
  have hheight : 0 < height b := height_pos hpos
  have hlen := h.length_eq
  have hget : bs[height bc.currentBlock - height b]? = some c :=
    h.getElem?_of_ancestor (Nat.sub_le _ _) hc
  obtain ⟨p, hp, -⟩ := h.exists_at (i := height bc.currentBlock - height b + 1) (by omega)
  have hlink : c.header.parentBlockHash = p.hash := h.stored.parent_eq hget hp
  have hnum := h.numbered.getElem? hp
  unfold rollBack
  by_cases hparent : b.header.parentBlockHash = c.header.parentBlockHash
  · rw [if_neg (not_not.mpr hparent)]
    by_cases hsmaller : c.hash ≤ b.hash
    · rw [if_pos hsmaller]
      refine .inr ⟨?_, rfl⟩
      rintro ⟨-, -, c', hc', -, hlt⟩
      cases hc.symm.trans hc'
      exact hsmaller hlt
    · have hadd : addBlock ⟨p, bc.storage⟩ b =
          if validKey b.hash then some (⟨b, bc.storage.addBlock b⟩, true) else none :=
        addBlock_of_fits (number_eq_succ (show height b = height p + 1 by omega))
          (hparent.trans hlink)
      refine .inl ⟨⟨hpos, hle, c, hc, hparent, List.not_le.mp hsmaller⟩, ?_⟩
      rw [if_neg hsmaller, hparent, hlink, h.stored.stored p (List.mem_of_getElem? hp)]
      simp only [hadd]
      cases validKey b.hash <;> rfl
  · rw [if_pos hparent]
    refine .inr ⟨?_, rfl⟩
    rintro ⟨-, -, c', hc', hsame, -⟩
    cases hc.symm.trans hc'
    exact hparent hsame

/-! ### Agreement -/

/-- The map gives the hash of every block of the chain. -/
def Canonical (bc : BlockChain) (chainHeight2Hash : ChainHeight2Hash) : Prop :=
  ∀ i ≤ height bc.currentBlock, ∃ c, ancestor bc i = some c ∧
    chainHeight2Hash.lookup c.header.number = some c.hash

/-- Both judges end with the same answer and the same chain.  The answer `false` leaves the state
unchanged, the answer `true` puts the block over the chain below its number, and the map is one of
the new chain. -/
def JudgesAgree (bc : BlockChain) (g b : Block) (chainHeight2Hash : ChainHeight2Hash)
    (hashToBlock : HashToBlock) : Prop :=
  ∃ bc' chainHeight2Hash' ok,
    (∀ fuel, height bc.currentBlock + 2 ≤ fuel → judgeLoop fuel bc b = some (bc', ok)) ∧
    judgeForkValidRollBackWithMap bc b chainHeight2Hash hashToBlock =
      some (bc', chainHeight2Hash', ok) ∧
    (ok = false → bc' = bc ∧ chainHeight2Hash' = chainHeight2Hash) ∧
    (ok = true → ∃ bs, IsChain bc g bs ∧
      IsChain bc' g (b :: bs.drop (height bc.currentBlock + 1 - height b))) ∧
    Canonical bc' chainHeight2Hash'

variable {chainHeight2Hash : ChainHeight2Hash} {hashToBlock : HashToBlock}

theorem judgeWithMap_of_lookup (hle : height b ≤ height bc.currentBlock) {c : Block}
    (hheight : chainHeight2Hash.lookup b.header.number = some c.hash)
    (hblock : hashToBlock.lookup c.hash = some c) :
    judgeForkValidRollBackWithMap bc b chainHeight2Hash hashToBlock =
      (rollBack bc b c (hashToBlock.lookup b.header.parentBlockHash)).map fun res =>
        (res.1, if res.2 then chainHeight2Hash.insert b.header.number b.hash else chainHeight2Hash,
          res.2) := by
  rw [judgeForkValidRollBackWithMap,
    if_neg (UInt64.not_lt.mpr (UInt64.le_iff_toNat_le.mpr hle)), hheight]
  simp only [hblock]

/-- The block of the chain with the number of `b`, in the store and in the maps. -/
theorem IsChain.at_height (h : IsChain bc g bs) (hcanon : Canonical bc chainHeight2Hash)
    (hle : height b ≤ height bc.currentBlock) :
    ∃ c, bs[height bc.currentBlock - height b]? = some c ∧
      ancestor bc (height bc.currentBlock - height b) = some c ∧
      getBlock bc.storage c.hash = some c ∧
      chainHeight2Hash.lookup b.header.number = some c.hash := by
  obtain ⟨c, hanc, hlookup⟩ := hcanon _ (Nat.sub_le (height bc.currentBlock) (height b))
  have hc := h.getElem?_of_ancestor (Nat.sub_le _ _) hanc
  have hlen := h.length_eq
  have hnum := h.numbered.getElem? hc
  have heq : c.header.number = b.header.number :=
    UInt64.toNat_inj.mp (show height c = height b by omega)
  exact ⟨c, hc, hanc, h.stored.stored c (List.mem_of_getElem? hc), heq ▸ hlookup⟩

/-- A block with number 0 is refused: its parent would be the one of genesis. -/
theorem IsChain.rollBack_genesis (hg : getBlock bc.storage g.header.parentBlockHash = none)
    (b : Block) :
    rollBack bc b g (getBlock bc.storage b.header.parentBlockHash) = some (bc, false) := by
  unfold rollBack
  split_ifs with hparent hsmaller
  · rfl
  · rfl
  · rw [not_not.mp hparent, hg]

/-- **The two judges**: they refuse the block, or take it over if the store accepts its hash. -/
theorem judges_eq (h : IsChain bc g bs)
    (hg : getBlock bc.storage g.header.parentBlockHash = none)
    (hblocks : ∀ k, hashToBlock.lookup k = getBlock bc.storage k)
    (hcanon : Canonical bc chainHeight2Hash) (b : Block) :
    (¬ Takes bc b ∧
        (∀ fuel, height bc.currentBlock + 2 ≤ fuel → judgeLoop fuel bc b = some (bc, false)) ∧
        judgeForkValidRollBackWithMap bc b chainHeight2Hash hashToBlock =
          some (bc, chainHeight2Hash, false)) ∨
      Takes bc b ∧
        (∀ fuel, height bc.currentBlock + 2 ≤ fuel → judgeLoop fuel bc b =
          if validKey b.hash then some (⟨b, bc.storage.addBlock b⟩, true) else none) ∧
        judgeForkValidRollBackWithMap bc b chainHeight2Hash hashToBlock =
          if validKey b.hash then
            some (⟨b, bc.storage.addBlock b⟩, chainHeight2Hash.insert b.header.number b.hash, true)
          else none := by
  by_cases hle : height b ≤ height bc.currentBlock
  · obtain ⟨c, hget, hanc, hstored, hheight⟩ := h.at_height hcanon hle
    have hmap := judgeWithMap_of_lookup hle hheight ((hblocks c.hash).trans hstored)
    rw [hblocks] at hmap
    rw [hmap]
    by_cases hzero : b.header.number = 0
    · -- the walk goes past genesis, the maps stop at it
      have hgen : c = g := by
        have hlast := h.stored.getLast?_eq
        have hb : height b = 0 := congrArg UInt64.toNat hzero
        rw [List.getLast?_eq_getElem?, h.length_eq] at hlast
        rw [hb, Nat.sub_zero] at hget
        exact Option.some.inj (hget.symm.trans hlast)
      refine .inl ⟨fun htakes => htakes.1 hzero, fun fuel hfuel => ?_, ?_⟩
      · exact judgeLoop_zero h hg hfuel hzero
      · rw [hgen, IsChain.rollBack_genesis hg]
        rfl
    · rcases h.rollBack_eq hzero hle hanc with ⟨htakes, hroll⟩ | ⟨hrefused, hroll⟩
      · refine .inr ⟨htakes, fun fuel hfuel => ?_, ?_⟩
        · rw [judgeLoop_of_ancestor hzero hle hanc hfuel, hroll]
        · rw [hroll]
          cases validKey b.hash <;> rfl
      · refine .inl ⟨hrefused, fun fuel hfuel => ?_, ?_⟩
        · rw [judgeLoop_of_ancestor hzero hle hanc hfuel, hroll]
        · rw [hroll]
          rfl
  · have hhigh : bc.currentBlock.header.number < b.header.number :=
      UInt64.lt_iff_toNat_lt.mpr (not_le.mp hle)
    refine .inl ⟨fun htakes => hle htakes.2.1, fun fuel _ => ?_, ?_⟩
    · rw [judgeLoop, if_pos hhigh]
    · rw [judgeForkValidRollBackWithMap, if_pos hhigh]

/-- A block that is taken over lies on top of the chain below its number. -/
theorem IsChain.takeOver (h : IsChain bc g bs) (htakes : Takes bc b)
    (hfresh : FreshHash bc (.judgeForkValidRollBack b)) :
    IsChain ⟨b, bc.storage.addBlock b⟩ g
      (b :: bs.drop (height bc.currentBlock + 1 - height b)) := by
  obtain ⟨hpos, hle, c, hanc, hparent, -⟩ := htakes
  have hheight : 0 < height b := height_pos hpos
  have hlen := h.length_eq
  have hc := h.getElem?_of_ancestor (Nat.sub_le _ _) hanc
  obtain ⟨p, hp, -⟩ := h.exists_at (i := height bc.currentBlock + 1 - height b) (by omega)
  have hindex : height bc.currentBlock + 1 - height b =
      height bc.currentBlock - height b + 1 := by omega
  have hlink := h.stored.parent_eq hc (hindex ▸ hp)
  have hnum := h.numbered.getElem? hp
  exact (h.drop hp).push (number_eq_succ (show height b = height p + 1 by omega))
    (hparent.trans hlink) (h.hash_ne hfresh (show height b + _ = _ by omega)) hpos

/-- The map after the block has been entered. -/
theorem Canonical.takeOver (hcanon : Canonical bc chainHeight2Hash) (h : IsChain bc g bs)
    (hle : height b ≤ height bc.currentBlock)
    (hnew : IsChain ⟨b, bc.storage.addBlock b⟩ g
      (b :: bs.drop (height bc.currentBlock + 1 - height b))) :
    Canonical ⟨b, bc.storage.addBlock b⟩ (chainHeight2Hash.insert b.header.number b.hash) := by
  intro i hi
  have hi' : i ≤ height b := hi
  cases i with
  | zero => exact ⟨b, hnew.ancestor_eq rfl, Finmap.lookup_insert _⟩
  | succ i =>
    have hlen := h.length_eq
    have hin : height bc.currentBlock + 1 - height b + i ≤ height bc.currentBlock := by omega
    obtain ⟨c, hanc, hlookup⟩ := hcanon _ hin
    have hc := h.getElem?_of_ancestor hin hanc
    have hnum := h.numbered.getElem? hc
    have hne : c.header.number ≠ b.header.number := by
      intro heq
      have hsame : height c = height b := congrArg UInt64.toNat heq
      omega
    refine ⟨c, hnew.ancestor_eq ?_, ?_⟩
    · rw [List.getElem?_cons_succ, List.getElem?_drop]
      exact hc
    · rw [Finmap.lookup_insert_of_ne _ hne]
      exact hlookup

/-- **The two judges agree**, on a well-formed store and maps that show its blocks and its chain,
exactly if a block that is taken over has a hash that the store accepts and that no block below it
on the chain has. -/
theorem fork_judges_iff (h : WellFormed bc g)
    (hblocks : ∀ k, hashToBlock.lookup k = getBlock bc.storage k)
    (hcanon : Canonical bc chainHeight2Hash) (b : Block) :
    JudgesAgree bc g b chainHeight2Hash hashToBlock ↔
      (Takes bc b → validKey b.hash = true ∧ FreshHash bc (.judgeForkValidRollBack b)) := by
  obtain ⟨bs, hchain⟩ := h.isChain
  have hlen := hchain.length_eq
  rcases judges_eq hchain h.genesis_parent hblocks hcanon b with
    ⟨hrefused, hloop, hmap⟩ | ⟨htakes, hloop, hmap⟩
  · refine iff_of_true ⟨bc, chainHeight2Hash, false, hloop, hmap, fun _ => ⟨rfl, rfl⟩, ?_, hcanon⟩
      fun htakes => absurd htakes hrefused
    intro hok
    cases hok
  · rw [imp_iff_right htakes]
    have hpos := htakes.1
    have hle := htakes.2.1
    constructor
    · rintro ⟨bc', chainHeight2Hash', ok, hloop', -, hfalse, htrue, -⟩
      have heq := (hloop _ le_rfl).symm.trans (hloop' _ le_rfl)
      split_ifs at heq with hkey
      cases heq
      refine ⟨hkey, hpos, ?_⟩
      obtain ⟨bs', hchain', hnew⟩ := htrue rfl
      intro i hi c hc hlow heq
      -- the block `c` lies below `b` on the new chain, but its place in the store is taken
      have hget : bs'[i]? = some c := hchain'.getElem?_of_ancestor (Nat.le_of_lt_succ hi) hc
      have hnum := hchain'.numbered.getElem? hget
      have hlen' := hchain'.length_eq
      have hltb : height c < height b := UInt64.lt_iff_toNat_lt.mp hlow
      have hmem : c ∈ bs'.drop (height bc.currentBlock + 1 - height b) := by
        apply List.mem_of_getElem? (i := i - (height bc.currentBlock + 1 - height b))
        rw [List.getElem?_drop]
        convert hget using 2
        omega
      have hstored := hnew.stored.stored c (List.mem_cons_of_mem b hmem)
      have heq' : c.hash = b.hash := heq
      have hself : getBlock (bc.storage.addBlock b) c.hash = some b := by
        rw [heq']
        exact getBlock_addBlock_self _ b
      cases hself.symm.trans hstored
      exact absurd hltb (lt_irrefl _)
    · rintro ⟨hkey, hfresh⟩
      simp only [hkey, if_true] at hloop hmap
      have hnew := hchain.takeOver htakes hfresh
      refine ⟨_, _, true, hloop, hmap, ?_, fun _ => ⟨bs, hchain, hnew⟩,
        hcanon.takeOver hchain hle hnew⟩
      intro hok
      cases hok

/-! ### A fork at height 1 -/

/-- The short chain with a block over genesis, and its maps. -/
def forkedChain : BlockChain :=
  ⟨forkBlock 9, shortLedger.chain.storage.addBlock (forkBlock 9)⟩

def forkedHeights : ChainHeight2Hash :=
  (Finmap.singleton 0 (newGenisisBlock shortConfig).hash).insert 1 (forkBlock 9).hash

theorem wellFormed_forked : WellFormed forkedChain (newGenisisBlock shortConfig) :=
  (wellFormed_new shortConfig (by decide)).push rfl rfl rfl rfl (by decide)

theorem canonical_forked : Canonical forkedChain forkedHeights := by
  intro i hi
  have hle : i ≤ 1 := hi
  cases i with
  | zero => exact ⟨forkBlock 9, rfl, rfl⟩
  | succ i =>
    obtain rfl : i = 0 := by omega
    exact ⟨newGenisisBlock shortConfig, rfl, rfl⟩

theorem judgeLoop_eq_forked :
    judgeLoop 3 forkedChain (forkBlock 7) = judgeForkValidRollBack forkedChain (forkBlock 7) := by
  obtain ⟨bs, hchain⟩ := wellFormed_forked.isChain
  exact judgeLoop_eq hchain wellFormed_forked.genesis_parent (by decide) _

/-- The fork is taken over. -/
theorem fork_judges_agree :
    ((judgeLoop 3 forkedChain (forkBlock 7)).map fun res => (res.1.currentBlock.hash, res.2)) =
        some ([7], true) ∧
      JudgesAgree forkedChain (newGenisisBlock shortConfig) (forkBlock 7) forkedHeights
        forkedChain.storage.blocks :=
  ⟨by decide +kernel, (fork_judges_iff wellFormed_forked (fun _ => rfl) canonical_forked
    (forkBlock 7)).mpr fun _ => ⟨by decide, by decide +kernel⟩⟩

/-- **A block that carries the hash of its parent** is taken over by both judges, and replaces the
parent in the store. -/
theorem fork_judges_overwrite :
    WellFormed forkedChain (newGenisisBlock shortConfig) ∧ Canonical forkedChain forkedHeights ∧
      ∃ bc', judgeLoop 3 forkedChain (forkBlock 1) = some (bc', true) ∧
        bc'.currentBlock = forkBlock 1 ∧
        ¬ ∃ bs, IsChain bc' (newGenisisBlock shortConfig) bs := by
  refine ⟨wellFormed_forked, canonical_forked, ⟨forkBlock 1, forkedChain.storage.addBlock
    (forkBlock 1)⟩, rfl, rfl, ?_⟩
  rintro ⟨bs, hchain⟩
  have hstored := hchain.stored.stored _ (List.mem_of_getLast? hchain.stored.getLast?_eq)
  have hself : getBlock (forkedChain.storage.addBlock (forkBlock 1))
      (newGenisisBlock shortConfig).hash = some (forkBlock 1) :=
    getBlock_addBlock_self _ (forkBlock 1)
  have heq := hself.symm.trans hstored
  exact absurd (Option.some.inj heq) (by decide)

end Aster.Chain
