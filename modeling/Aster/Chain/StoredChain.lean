import Aster.Core.Block
import Aster.Lib.ParentChain

/-!
# The chain in the store

The blocks of a node lie in its bolt store under their hashes.  The chain of a node is what one
meets on the way from `CurrentBlock` to genesis by parent hashes.
-/

namespace Aster.Chain

open Aster.Core Aster.Lib.ParentChain

/-- `GetBlock`; `none` is the error "the block is not existed". -/
def getBlock (st : Storage) (bhash : Hash) : Option Block := st.blocks.lookup bhash

@[simp] theorem getBlock_addBlock_self (st : Storage) (b : Block) :
    getBlock (st.addBlock b) b.hash = some b :=
  Finmap.lookup_insert st.blocks

theorem getBlock_addBlock_of_ne (st : Storage) (b : Block) {h : Hash} (hne : h ≠ b.hash) :
    getBlock (st.addBlock b) h = getBlock st h :=
  Finmap.lookup_insert_of_ne st.blocks hne

/-- What is found after `AddBlock` is the new block or was there before. -/
theorem getBlock_addBlock {st : Storage} {b c : Block} {h : Hash}
    (hc : getBlock (st.addBlock b) h = some c) : c = b ∨ getBlock st h = some c := by
  by_cases hh : h = b.hash
  · subst hh
    rw [getBlock_addBlock_self] at hc
    exact .inl (Option.some.inj hc).symm
  · rw [getBlock_addBlock_of_ne st b hh] at hc
    exact .inr hc

/-- `bs` lists stored blocks, each followed by the one its parent hash names, down to `g`. -/
abbrev Stored (st : Storage) (g : Block) (bs : List Block) : Prop :=
  Linked (getBlock st) Block.hash (fun b => b.header.parentBlockHash) g bs

/-- The successor of a `uint64` that does not wrap around. -/
theorem toNat_succ {n : UInt64} (h : n + 1 ≠ 0) : (n + 1).toNat = n.toNat + 1 := by
  have hlt := n.toNat_lt
  have hne : n.toNat + 1 ≠ 2 ^ 64 := by
    intro heq
    apply h
    apply UInt64.toNat_inj.mp
    rw [UInt64.toNat_add, UInt64.toNat_one, heq]
    rfl
  rw [UInt64.toNat_add, UInt64.toNat_one]
  exact Nat.mod_eq_of_lt (by omega)

/-- The number of a block as a natural number. -/
def height (b : Block) : ℕ := b.header.number.toNat

/-- The chain of a node: following the parent hashes from `CurrentBlock` visits blocks with the
numbers `CurrentBlock.Number, ..., 1, 0` and ends at `g`. -/
structure IsChain (bc : BlockChain) (g : Block) (bs : List Block) : Prop where
  stored : Stored bc.storage g bs
  head : bs.head? = some bc.currentBlock
  numbered : Numbered height bs

namespace IsChain

variable {bc : BlockChain} {g : Block} {bs : List Block}

theorem length_eq (h : IsChain bc g bs) : bs.length = height bc.currentBlock + 1 := by
  have hzero : bs[0]? = some bc.currentBlock := by
    rw [← List.head?_eq_getElem?]
    exact h.head
  have hnum := h.numbered.getElem? hzero
  omega

/-- A block with a new hash on top of a chain. -/
theorem push (h : IsChain bc g bs) {b : Block}
    (hnum : b.header.number = bc.currentBlock.header.number + 1)
    (hparent : b.header.parentBlockHash = bc.currentBlock.hash)
    (hfresh : ∀ c ∈ bs, c.hash ≠ b.hash) (hpos : b.header.number ≠ 0) :
    IsChain ⟨b, bc.storage.addBlock b⟩ g (b :: bs) where
  stored := h.stored.push h.head (getBlock_addBlock_self _ b) hparent
    fun c hc => getBlock_addBlock_of_ne _ b (hfresh c hc)
  head := rfl
  numbered := by
    refine numbered_cons.mpr ⟨?_, h.numbered⟩
    rw [h.length_eq, height, height, hnum]
    exact toNat_succ (hnum ▸ hpos)

end IsChain

/-! ### The store can refuse a key -/

/-- `MaxKeySize` of bolt. -/
def maxKeySize : ℕ := 32768

/-- `Put` of bolt fails on an empty key and on a key that is too long. -/
def validKey (h : Hash) : Bool := 0 < h.length ∧ h.length ≤ maxKeySize

/-- `Storage.AddBlock`, which panics when the store refuses the key. -/
def putBlock (st : Storage) (b : Block) : Option Storage :=
  if validKey b.hash then some (st.addBlock b) else none

/-- `AddBlock` with the panic of the store. -/
def addBlock (bc : BlockChain) (b : Block) : Option (BlockChain × Bool) :=
  let res := bc.addBlock b
  if res.2 = true ∧ validKey b.hash = false then none else some res

/-- What `AddBlock` can do when it returns. -/
theorem addBlock_cases {bc bc' : BlockChain} {b : Block} {ok : Bool}
    (h : addBlock bc b = some (bc', ok)) :
    bc' = bc ∧ ok = false ∧ ¬ (b.header.number = bc.currentBlock.header.number + 1 ∧
        b.header.parentBlockHash = bc.currentBlock.hash) ∨
      ok = true ∧ bc' = ⟨b, bc.storage.addBlock b⟩ ∧ validKey b.hash = true ∧
        b.header.number = bc.currentBlock.header.number + 1 ∧
        b.header.parentBlockHash = bc.currentBlock.hash := by
  by_cases hnum : b.header.number = bc.currentBlock.header.number + 1
  · by_cases hparent : b.header.parentBlockHash = bc.currentBlock.hash
    · simp only [addBlock, BlockChain.addBlock, hnum, hparent, ne_eq, not_true_eq_false, if_false,
        true_and] at h
      split_ifs at h with hkey
      cases h
      exact .inr ⟨rfl, rfl, Bool.eq_true_of_not_eq_false hkey, hnum, hparent⟩
    · simp only [addBlock, BlockChain.addBlock, hnum, ne_eq, not_true_eq_false, hparent,
        not_false_eq_true, if_true, if_false, Bool.false_eq_true, false_and] at h
      cases h
      exact .inl ⟨rfl, rfl, fun hsucc => hparent hsucc.2⟩
  · simp only [addBlock, BlockChain.addBlock, ne_eq, hnum, not_false_eq_true, if_true,
      Bool.false_eq_true, false_and, if_false] at h
    cases h
    exact .inl ⟨rfl, rfl, fun hsucc => hnum hsucc.1⟩

end Aster.Chain
