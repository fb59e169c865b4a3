import Aster.Core.Transaction

/-!
# Blocks and the chain of a node

`AddBlock` of the in-memory chain: a block is accepted when it is the successor of the current
block in number and in parent hash.  The hash of a header is SHA-256 of its encoding; it is a
parameter of what uses it.
-/

namespace Aster.Core

structure BlockHeader where
  parentBlockHash : Hash
  stateRoot : Hash
  txRoot : Hash
  /-- The positions of the bits that are set. -/
  bloomFilter : Finset ℕ
  number : UInt64
  time : Time
  miner : UInt64
  deriving DecidableEq

structure Block where
  header : BlockHeader
  body : List Transaction
  hash : Hash
  deriving DecidableEq

/-- The number a byte string writes in base 256, modulo `mod`. -/
def modBytes (data : List UInt8) (mod : ℕ) : ℕ :=
  data.foldl (fun num b => num * 256 + b.toNat) 0 % mod

/-- The bolt store of a node: blocks under their hashes, and the newest hash. -/
structure Storage where
  blocks : Finmap fun _ : Hash => Block
  newest : Hash

def Storage.addBlock (st : Storage) (b : Block) : Storage :=
  ⟨st.blocks.insert b.hash b, b.hash⟩

structure BlockChain where
  currentBlock : Block
  storage : Storage

/-- `AddBlock`, with its answer. -/
def BlockChain.addBlock (bc : BlockChain) (b : Block) : BlockChain × Bool :=
  if b.header.number ≠ bc.currentBlock.header.number + 1 then (bc, false)
  else if b.header.parentBlockHash ≠ bc.currentBlock.hash then (bc, false)
  else (⟨b, bc.storage.addBlock b⟩, true)

end Aster.Core
