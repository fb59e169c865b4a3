import Aster.Chain.TxOnChain

/-!
# The ledger of a node

The `BlockChain` object of the in-memory chain: the stored blocks, the trie database of the
account states, the pool of the chain and the partition map.  A state trie is kept in the
database under its root; `trie.New` fails on a root that is not there, except for the root of the
empty trie and for the zero hash.

`none` is a panic of the node.
-/

namespace Aster.Chain

open Aster.Core

/-! ### Shards of addresses -/

/-- The value of a hexadecimal digit. -/
def hexVal (c : Char) : Option ℕ :=
  if '0' ≤ c ∧ c ≤ '9' then some (c.toNat - '0'.toNat)
  else if 'a' ≤ c ∧ c ≤ 'f' then some (c.toNat - 'a'.toNat + 10)
  else if 'A' ≤ c ∧ c ≤ 'F' then some (c.toNat - 'A'.toNat + 10)
  else none

/-- `strconv.ParseUint(s, 16, 64)` on at most 16 characters. -/
def parseUint (s : List Char) : Option ℕ :=
  if s = [] then none else s.foldlM (fun num c => (hexVal c).map (num * 16 + ·)) 0

/-- The conversion `int(num)` of a `uint64`. -/
def toInt (num : ℕ) : ℤ := if num < 2 ^ 63 then num else num - 2 ^ 64

/-- `Addr2Shard`: the remainder is the one of Go, with the sign of the dividend. -/
def addr2Shard (shardNum : ℕ) (addr : Address) : Option ℤ := do
  let num ← parseUint (addr.toList.drop (addr.length - 16))
  if shardNum = 0 then none else some ((toInt num).tmod shardNum)

abbrev PartitionMap := Finmap fun _ : Address => UInt64

/-- `Get_PartitionMap`. -/
def getPartitionMap (shardNum : ℕ) (pm : PartitionMap) (key : Address) : Option UInt64 :=
  match pm.lookup key with
  | none => (addr2Shard shardNum key).map fun shard => UInt64.ofInt shard
  | some shard => some shard

/-! ### State tries -/

/-- `common.BytesToHash`: the last 32 bytes, filled up with zeros in front. -/
def bytesToHash (b : Hash) : Hash :=
  List.replicate (32 - b.length) 0 ++ b.drop (b.length - 32)

theorem bytesToHash_of_length {b : Hash} (h : b.length = 32) : bytesToHash b = b := by
  simp [bytesToHash, h]

theorem bytesToHash_length (b : Hash) : (bytesToHash b).length = 32 := by
  simp only [bytesToHash, List.length_append, List.length_replicate, List.length_drop]
  omega

/-- The state tries of a database under their roots. -/
abbrev TrieDb := Finmap fun _ : Hash => Trie

/-- The parameters of a chain: the vendored tries, the hash of headers and the configuration. -/
structure ChainConfig where
  txTrie : TxTrie
  /-- The root of a state trie. -/
  stateRoot : Trie → Hash
  headerHash : BlockHeader → Hash
  shardID : UInt64
  /-- `params.ShardNum`. -/
  shardNum : ℕ
  blockSize : ℕ
  stateRoot_length : ∀ st, (stateRoot st).length = 32

/-- `trie.New`. -/
def trieNew (cfg : ChainConfig) (triedb : TrieDb) (root : Hash) : Option Trie :=
  if root = List.replicate 32 0 ∨ root = cfg.stateRoot ∅ then some ∅ else triedb.lookup root

/-! ### The ledger -/

/-- A transaction in a pool, with the marks of relayed and of broker transactions. -/
structure PoolTx where
  tx : Transaction
  relayed : Bool
  hasBroker : Bool
  deriving DecidableEq

structure Ledger where
  chain : BlockChain
  triedb : TrieDb
  /-- The queue of `PrecessedTxpool`. -/
  precessedTxpool : List PoolTx
  partitionMap : PartitionMap

/-- The root in the header of `CurrentBlock`. -/
def Ledger.root (l : Ledger) : Hash := bytesToHash l.chain.currentBlock.header.stateRoot

/-- The state trie of `CurrentBlock`. -/
def Ledger.state (cfg : ChainConfig) (l : Ledger) : Option Trie := trieNew cfg l.triedb l.root

/-- The account belongs to the shard of the chain. -/
def Ledger.owns (cfg : ChainConfig) (l : Ledger) (addr : Address) : Option Bool :=
  (getPartitionMap cfg.shardNum l.partitionMap addr).map (· == cfg.shardID)

/-- The loop of `GetUpdateStatusTrie`, from position `i`. -/
def updateStatus (cfg : ChainConfig) (l : Ledger) : ℕ → List PoolTx → Trie → Option Trie
  | _, [], st => some st
  | i, p :: txs, st => do
    let own ← if p.relayed then some false else (l.owns cfg p.tx.sender).map (· || p.hasBroker)
    let sender := fetch st p.tx.sender i
    if own && sender.balance < p.tx.value then updateStatus cfg l (i + 1) txs st
    else
      let st := if own then st.insert p.tx.sender (sender.deduct p.tx.value).1 else st
      let ownRecipient ← l.owns cfg p.tx.recipient
      let st := if ownRecipient || p.hasBroker then
        st.insert p.tx.recipient ((fetch st p.tx.recipient i).deposit p.tx.value) else st
      updateStatus cfg l (i + 1) txs st

/-- `GetUpdateStatusTrie`.  The counter of modified accounts is never incremented, so the
function returns the old root before it would commit the trie it has updated. -/
def getUpdateStatusTrie (cfg : ChainConfig) (l : Ledger) (txs : List PoolTx) : Option Hash :=
  if txs = [] then some l.root
  else do
    let st ← l.state cfg
    let _ ← updateStatus cfg l 0 txs st
    some l.root

/-- A block over the block with hash `parent`. -/
def sealBlock (cfg : ChainConfig) (parent : Hash) (number : UInt64) (root : Hash)
    (body : List Transaction) (time : Time) (miner : UInt64) : Block :=
  let header : BlockHeader :=
    { parentBlockHash := parent
      stateRoot := root
      txRoot := getTxTreeRoot cfg.txTrie body
      bloomFilter := getBloomFilter body
      number := number
      time := time
      miner := miner }
  ⟨header, body, cfg.headerHash header⟩

/-- A block that `sealBlock` puts over `CurrentBlock`. -/
def Ledger.successor (cfg : ChainConfig) (l : Ledger) (root : Hash) (body : List Transaction)
    (time : Time) (miner : UInt64) : Block :=
  sealBlock cfg l.chain.currentBlock.hash (l.chain.currentBlock.header.number + 1) root body time
    miner

def generateBlock (cfg : ChainConfig) (l : Ledger) (miner : UInt64) (now : Time) :
    Option (Ledger × Block) := do
  let txs := l.precessedTxpool.take cfg.blockSize
  let rt ← getUpdateStatusTrie cfg l txs
  some ({ l with precessedTxpool := l.precessedTxpool.drop cfg.blockSize },
    l.successor cfg rt (txs.map (·.tx)) now miner)

/-- `GenerateBlock2`, with what it leaves of the pool it is given.  The state root stays nil. -/
def generateBlock2 (cfg : ChainConfig) (l : Ledger) (miner : UInt64) (now : Time)
    (processedTxpool : List Transaction) : Block × List Transaction :=
  (l.successor cfg [] (processedTxpool.take cfg.blockSize) now miner,
    processedTxpool.drop cfg.blockSize)

def newGenisisBlock (cfg : ChainConfig) : Block :=
  sealBlock cfg [] 0 (cfg.stateRoot ∅) [] 0 0

/-- `AddBlock`, with its answer. -/
def Ledger.addBlock (l : Ledger) (b : Block) : Option (Ledger × Bool) := do
  let (chain, ok) ← Chain.addBlock l.chain b
  some ({ l with chain := chain }, ok)

/-- The loop of `AddAccounts`: the trie, and whether an update has changed it. -/
def storeAccounts (cfg : ChainConfig) (l : Ledger) :
    List Address → List AccountState → Trie × Bool → Option (Trie × Bool)
  | [], _, res => some res
  | addr :: ac, as, (st, dirty) => do
    let own ← l.owns cfg addr
    if own then
      let state ← as.head?
      storeAccounts cfg l ac as.tail (st.insert addr state, dirty || st.lookup addr != some state)
    else storeAccounts cfg l ac as.tail (st, dirty)

/-- The root and the database after the accounts are stored.  For a trie that is not empty and
has not changed, `Commit` returns a nil node set, on which `NewWithNodeSet` panics. -/
def commitAccounts (cfg : ChainConfig) (l : Ledger) (ac : List Address) (as : List AccountState) :
    Option (Hash × TrieDb) :=
  if ac = [] then some (l.root, l.triedb)
  else do
    let st ← l.state cfg
    let (st, dirty) ← storeAccounts cfg l ac as (st, false)
    if dirty then some (cfg.stateRoot st, l.triedb.insert (cfg.stateRoot st) st)
    else if st = ∅ then some (cfg.stateRoot ∅, l.triedb)
    else none

/-- `AddAccounts`: the block is stored without the tests of `AddBlock`. -/
def addAccounts (cfg : ChainConfig) (l : Ledger) (ac : List Address) (as : List AccountState) :
    Option Ledger := do
  let (rt, triedb) ← commitAccounts cfg l ac as
  let b := l.successor cfg rt [] 0 0
  let storage ← putBlock l.chain.storage b
  some { l with chain := ⟨b, storage⟩, triedb := triedb }

def fetchAccounts (cfg : ChainConfig) (l : Ledger) (addrs : List Address) :
    Option (List AccountState) := do
  let st ← l.state cfg
  some (addrs.map fun addr => fetch st addr 0)

/-- `NewBlockChain` on what the bolt store holds; `none` is a store without a newest hash.  The
trie database is a new one in memory. -/
def newBlockChain (cfg : ChainConfig) (stored : Option Storage) : Option Ledger :=
  match stored with
  | none => do
    let g := newGenisisBlock cfg
    let storage ← putBlock ⟨∅, []⟩ g
    some ⟨⟨g, storage⟩, ∅, [], ∅⟩
  | some storage => do
    let curb ← getBlock storage storage.newest
    let _ ← trieNew cfg ∅ (bytesToHash curb.header.stateRoot)
    some ⟨⟨curb, storage⟩, ∅, [], ∅⟩

/-! ### What the operations do to the chain -/

/-- `GenerateBlock` makes a successor of `CurrentBlock` and takes its transactions from the
pool. -/
theorem generateBlock_cases {cfg : ChainConfig} {l l' : Ledger} {miner : UInt64} {now : Time}
    {b : Block} (h : generateBlock cfg l miner now = some (l', b)) :
    l' = { l with precessedTxpool := l.precessedTxpool.drop cfg.blockSize } ∧
      b = l.successor cfg l.root ((l.precessedTxpool.take cfg.blockSize).map (·.tx)) now miner := by
  obtain ⟨rt, hrt, hres⟩ := Option.bind_eq_some_iff.mp h
  have hroot : rt = l.root := by
    simp only [getUpdateStatusTrie] at hrt
    split_ifs at hrt with htxs
    · exact (Option.some.inj hrt).symm
    · obtain ⟨st, -, hrt⟩ := Option.bind_eq_some_iff.mp hrt
      obtain ⟨st', -, hrt⟩ := Option.bind_eq_some_iff.mp hrt
      exact (Option.some.inj hrt).symm
  cases hres
  rw [hroot]
  exact ⟨rfl, rfl⟩

theorem ledger_addBlock_cases {l l' : Ledger} {b : Block} {ok : Bool}
    (h : l.addBlock b = some (l', ok)) :
    ∃ chain, addBlock l.chain b = some (chain, ok) ∧ l' = { l with chain := chain } := by
  obtain ⟨⟨chain, ok'⟩, hadd, hres⟩ := Option.bind_eq_some_iff.mp h
  cases hres
  exact ⟨chain, hadd, rfl⟩

theorem putBlock_eq {st st' : Storage} {b : Block} (h : putBlock st b = some st') :
    st' = st.addBlock b := by
  simp only [putBlock] at h
  split_ifs at h with hkey
  exact (Option.some.inj h).symm

/-- `AddAccounts` puts a block without transactions over `CurrentBlock`. -/
theorem addAccounts_cases {cfg : ChainConfig} {l l' : Ledger} {ac : List Address}
    {as : List AccountState} (h : addAccounts cfg l ac as = some l') :
    ∃ rt triedb, commitAccounts cfg l ac as = some (rt, triedb) ∧
      l' = { l with
        chain := ⟨l.successor cfg rt [] 0 0,
          l.chain.storage.addBlock (l.successor cfg rt [] 0 0)⟩
        triedb := triedb } := by
  obtain ⟨⟨rt, triedb⟩, hcommit, hrest⟩ := Option.bind_eq_some_iff.mp h
  obtain ⟨storage, hput, hres⟩ := Option.bind_eq_some_iff.mp hrest
  cases hres
  refine ⟨rt, triedb, hcommit, ?_⟩
  rw [putBlock_eq hput]

/-- A new chain has its genesis block and nothing else. -/
theorem newBlockChain_none {cfg : ChainConfig} {l : Ledger} (h : newBlockChain cfg none = some l) :
    l = ⟨⟨newGenisisBlock cfg, Storage.addBlock ⟨∅, []⟩ (newGenisisBlock cfg)⟩, ∅, [], ∅⟩ := by
  obtain ⟨storage, hput, hres⟩ := Option.bind_eq_some_iff.mp h
  cases hres
  rw [putBlock_eq hput]

theorem isChain_new (cfg : ChainConfig) :
    IsChain ⟨newGenisisBlock cfg, Storage.addBlock ⟨∅, []⟩ (newGenisisBlock cfg)⟩
      (newGenisisBlock cfg) [newGenisisBlock cfg] where
  stored := .base (getBlock_addBlock_self _ _)
  head := rfl
  numbered := Lib.ParentChain.numbered_singleton rfl

/-- A shard with one hash for each position of a chain. -/
def shortConfig : ChainConfig where
  txTrie := plainTrie
  stateRoot := fun st => if st = ∅ then List.replicate 32 1 else List.replicate 32 2
  headerHash := fun header => 1 :: header.parentBlockHash
  shardID := 0
  shardNum := 4
  blockSize := 10
  stateRoot_length := by
    intro st
    split_ifs <;> rfl

/-- The new chain of that shard. -/
def shortLedger : Ledger :=
  ⟨⟨newGenisisBlock shortConfig, Storage.addBlock ⟨∅, []⟩ (newGenisisBlock shortConfig)⟩, ∅, [], ∅⟩

theorem newBlockChain_short : newBlockChain shortConfig none = some shortLedger := rfl

end Aster.Chain
