import Aster.Chain.StoredChain

/-!
# `TxOnChainVerify`

The search for a transaction goes down the chain from `CurrentBlock`.  A block whose filter does
not have the bit of the hash is skipped.  At the first block that has it, the trie of the body is
rebuilt, its root is compared with the one of the header, and a Merkle proof for the hash is made
and verified.  Making a proof succeeds whether or not the trie has the key, and the value that
the verification returns is dropped, so the search ends at this block in any case.

* **`txOnChainVerify_sound_iff`**: a positive answer names an ancestor that has the transaction
  exactly when the first block with the bit set has it.
-/

namespace Aster.Chain

open Aster.Core Aster.Lib.ParentChain

/-! ### The trie of a body -/

/-- A trie of byte strings, as the map it stores. -/
abbrev TxTree := Finmap fun _ : Hash => List UInt8

/-- The nodes of a Merkle proof, each with its hash. -/
abbrev Proof := List (Hash × List UInt8)

/-- What is used of the vendored trie and of the encoding of transactions.  The root is a
function of the contents; `none` is an error. -/
structure TxTrie where
  encode : Transaction → List UInt8
  rootHash : TxTree → Hash
  prove : TxTree → Hash → Option Proof
  /-- The inner option is the value: `nil` on a proof of absence. -/
  verifyProof : Hash → Hash → Proof → Option (Option (List UInt8))
  prove_isSome : ∀ t key, (prove t key).isSome
  /-- The proof made from an empty trie has no nodes, so the root is missing in it. -/
  verifyProof_prove : ∀ t key proof, prove t key = some proof →
    verifyProof (rootHash t) key proof = if t = ∅ then none else some (t.lookup key)

/-- The trie that `GetTxTreeRoot` and `TxOnChainVerify` build of a body. -/
def transactionTree (lib : TxTrie) (txs : List Transaction) : TxTree :=
  txs.foldl (fun t tx => t.insert tx.txHash (lib.encode tx)) ∅

def getTxTreeRoot (lib : TxTrie) (txs : List Transaction) : Hash :=
  lib.rootHash (transactionTree lib txs)

def getBloomFilter (txs : List Transaction) : Finset ℕ :=
  (txs.map fun tx => modBytes tx.txHash 2048).toFinset

theorem mem_getBloomFilter {txs : List Transaction} {tx : Transaction} (h : tx ∈ txs) :
    modBytes tx.txHash 2048 ∈ getBloomFilter txs :=
  List.mem_toFinset.mpr (List.mem_map_of_mem h)

theorem insert_ne_empty (t : TxTree) (key : Hash) (value : List UInt8) :
    t.insert key value ≠ ∅ := by
  intro hempty
  have hmem : key ∈ t.insert key value := Finmap.mem_insert.mpr (.inl rfl)
  rw [hempty] at hmem
  exact Finmap.notMem_empty hmem

/-- Only an empty body has an empty trie. -/
theorem transactionTree_eq_empty_iff (lib : TxTrie) (txs : List Transaction) :
    transactionTree lib txs = ∅ ↔ txs = [] := by
  induction txs using List.reverseRecOn with
  | nil => simp [transactionTree]
  | append_singleton txs tx _ =>
    rw [transactionTree, List.foldl_append, List.foldl_cons, List.foldl_nil]
    simp [insert_ne_empty]

/-! ### The search -/

/-- The second result: the hash of the block, or what went wrong. -/
inductive Info where
  | blockHash (h : Hash)
  | text (message : String)
  deriving DecidableEq

/-- The results of `TxOnChainVerify`; the key list and the value list make up the proof. -/
structure Verified where
  isOn : Bool
  info : Info
  txRoot : Hash
  height : UInt64
  proof : Proof
  deriving DecidableEq

def failed (message : String) (proof : Proof) : Verified := ⟨false, .text message, [], 0, proof⟩

/-- The body of the loop for a block whose filter has the bit: the block lies under `bhash` and
the loop is at `nowheight`.  `none` goes on with the parent. -/
def examine (lib : TxTrie) (txhash : Hash) (block : Block) (bhash : Hash) (nowheight : UInt64)
    (proof : Proof) : Option Verified :=
  let tree := transactionTree lib block.body
  if lib.rootHash tree ≠ block.header.txRoot then some (failed "err Tx root" proof)
  else match lib.prove tree txhash with
    | none => none
    | some nodes =>
      match lib.verifyProof block.header.txRoot txhash (proof ++ nodes) with
      | none => some (failed "err verify" (proof ++ nodes))
      | some _ => some ⟨true, .blockHash bhash, block.header.txRoot, nowheight, proof ++ nodes⟩

/-- The filter of a block has the bit of a transaction hash. -/
def hit (txhash : Hash) (b : Block) : Bool := modBytes txhash 2048 ∈ b.header.bloomFilter

/-- The loop with `nowheight` left to go, at the block under `nowblockHash`. -/
def search (lib : TxTrie) (st : Storage) (txhash : Hash) : ℕ → Hash → Proof → Verified
  | 0, _, proof => failed "no block has this tx" proof
  | nowheight + 1, nowblockHash, proof =>
    match getBlock st nowblockHash with
    | none => failed "the block is not existed" proof
    | some block =>
      if hit txhash block then
        match examine lib txhash block nowblockHash (UInt64.ofNat (nowheight + 1)) proof with
        | some res => res
        | none => search lib st txhash nowheight block.header.parentBlockHash proof
      else search lib st txhash nowheight block.header.parentBlockHash proof

def txOnChainVerify (lib : TxTrie) (bc : BlockChain) (txhash : Hash) : Verified :=
  search lib bc.storage txhash (height bc.currentBlock) bc.currentBlock.hash []

/-- The block at which the search ends: genesis is not looked at. -/
def firstHit (txhash : Hash) (bs : List Block) : Option Block :=
  bs.dropLast.find? (hit txhash)

/-- The answer at a block is positive when its root is right and its body is not empty. -/
theorem examine_eq (lib : TxTrie) (txhash : Hash) (b : Block) (bhash : Hash)
    (nowheight : UInt64) :
    ∃ res, examine lib txhash b bhash nowheight [] = some res ∧
      (res.isOn = true ↔ getTxTreeRoot lib b.body = b.header.txRoot ∧ b.body ≠ []) ∧
      (res.isOn = true → res.info = .blockHash bhash ∧ res.height = nowheight) := by
  obtain ⟨nodes, hnodes⟩ :=
    Option.isSome_iff_exists.mp (lib.prove_isSome (transactionTree lib b.body) txhash)
  by_cases hroot : getTxTreeRoot lib b.body = b.header.txRoot
  · have hverify := lib.verifyProof_prove _ txhash nodes hnodes
    rw [show lib.rootHash (transactionTree lib b.body) = b.header.txRoot from hroot] at hverify
    have hpass : ¬ lib.rootHash (transactionTree lib b.body) ≠ b.header.txRoot :=
      not_not_intro hroot
    by_cases hbody : b.body = []
    · rw [if_pos ((transactionTree_eq_empty_iff lib b.body).mpr hbody)] at hverify
      refine ⟨failed "err verify" nodes, ?_, ?_, ?_⟩
      · simp only [examine, if_neg hpass, hnodes, List.nil_append, hverify]
      · simp [failed, hbody]
      · exact fun h => absurd h Bool.false_ne_true
    · rw [if_neg (mt (transactionTree_eq_empty_iff lib b.body).mp hbody)] at hverify
      refine ⟨⟨true, .blockHash bhash, b.header.txRoot, nowheight, nodes⟩, ?_, ?_, ?_⟩
      · simp only [examine, if_neg hpass, hnodes, List.nil_append, hverify]
      · simp [hroot, hbody]
      · exact fun _ => ⟨rfl, rfl⟩
  · refine ⟨failed "err Tx root" [], ?_, ?_, ?_⟩
    · exact if_pos hroot
    · simp [failed, hroot]
    · exact fun h => absurd h Bool.false_ne_true

/-- The search along a chain ends at the first hit. -/
theorem search_eq (lib : TxTrie) (txhash : Hash) {st : Storage} {g t : Block} {bs : List Block}
    (hst : Stored st g bs) (hnum : Numbered height bs) (ht : bs.head? = some t) :
    match firstHit txhash bs with
    | none => search lib st txhash (height t) t.hash [] = failed "no block has this tx" []
    | some b => examine lib txhash b b.hash b.header.number [] =
        some (search lib st txhash (height t) t.hash []) := by
  induction hst generalizing t with
  | base _ =>
    cases ht
    have hzero : height g = 0 := (numbered_cons.mp hnum).1
    rw [firstHit, List.dropLast_singleton, List.find?_nil, hzero]
    rfl
  | @cons c p bs hget hparent hrest ih =>
    cases ht
    obtain ⟨hc, hnum'⟩ := numbered_cons.mp hnum
    have hp : height p = bs.length := (numbered_cons.mp hnum').1
    have hlast : (c :: p :: bs).dropLast = c :: (p :: bs).dropLast := rfl
    -- the number of the block is what is left to go
    have hcount : UInt64.ofNat (height p + 1) = c.header.number := by
      rw [hp, ← List.length_cons, ← hc]
      exact UInt64.ofNat_toNat
    have hsteps : height c = height p + 1 := by rw [hc, hp, List.length_cons]
    rw [firstHit, hlast, List.find?_cons, hsteps]
    cases hhit : hit txhash c with
    | true =>
      obtain ⟨res, hres, -⟩ := examine_eq lib txhash c c.hash c.header.number
      have hsearch : search lib st txhash (height p + 1) c.hash [] = res := by
        simp only [search, hget, hhit, if_true, hcount, hres]
      show examine lib txhash c c.hash c.header.number [] = some _
      rw [hsearch, hres]
    | false =>
      have hsearch : search lib st txhash (height p + 1) c.hash [] =
          search lib st txhash (height p) p.hash [] := by
        simp only [search, hget, hhit, Bool.false_eq_true, if_false, hparent]
      rw [hsearch]
      exact ih hnum' rfl

/-! ### Soundness -/

/-- The body has a transaction with this hash. -/
def Contains (b : Block) (txhash : Hash) : Prop := ∃ tx ∈ b.body, tx.txHash = txhash

instance (b : Block) (txhash : Hash) : Decidable (Contains b txhash) :=
  inferInstanceAs (Decidable (∃ tx ∈ b.body, tx.txHash = txhash))

theorem mem_of_firstHit {txhash : Hash} {bs : List Block} {b : Block}
    (h : firstHit txhash bs = some b) : b ∈ bs :=
  List.mem_of_mem_dropLast (List.mem_of_find?_eq_some h)

/-- **Soundness.**  A positive answer with block hash `h` and height `k` names an ancestor of
`CurrentBlock` at this height that has the transaction if and only if the first block below
`CurrentBlock` with the bit of the hash in its filter has the transaction, as far as the search
accepts this block: its root is right and its body is not empty. -/
theorem txOnChainVerify_sound_iff (lib : TxTrie) (txhash : Hash) {bc : BlockChain} {g : Block}
    {bs : List Block} (hchain : IsChain bc g bs) :
    (∀ h k, (txOnChainVerify lib bc txhash).isOn = true →
        (txOnChainVerify lib bc txhash).info = .blockHash h →
        (txOnChainVerify lib bc txhash).height = k →
        ∃ b ∈ bs, getBlock bc.storage h = some b ∧ b.header.number = k ∧ Contains b txhash) ↔
      ∀ b, firstHit txhash bs = some b → getTxTreeRoot lib b.body = b.header.txRoot →
        b.body ≠ [] → Contains b txhash := by
  have hsearch := search_eq lib txhash hchain.stored hchain.numbered hchain.head
  constructor
  · intro hsound b hb hroot hbody
    rw [hb] at hsearch
    obtain ⟨res, hres, hon, hinfo⟩ := examine_eq lib txhash b b.hash b.header.number
    have heq : res = txOnChainVerify lib bc txhash := Option.some.inj (hres.symm.trans hsearch)
    rw [heq] at hon hinfo
    have htrue := hon.mpr ⟨hroot, hbody⟩
    obtain ⟨hhash, hnum⟩ := hinfo htrue
    obtain ⟨c, -, hget, -, hcontains⟩ := hsound _ _ htrue hhash hnum
    -- the block under this hash is the first hit itself
    have hstored := hchain.stored.stored b (mem_of_firstHit hb)
    rw [Option.some.inj (hstored.symm.trans hget)]
    exact hcontains
  · intro hfirst h k htrue hhash hnum
    cases hb : firstHit txhash bs with
    | none =>
      rw [hb] at hsearch
      have heq : txOnChainVerify lib bc txhash = failed "no block has this tx" [] := hsearch
      rw [heq] at htrue
      exact absurd htrue Bool.false_ne_true
    | some b =>
      rw [hb] at hsearch
      obtain ⟨res, hres, hon, hinfo⟩ := examine_eq lib txhash b b.hash b.header.number
      have heq : res = txOnChainVerify lib bc txhash := Option.some.inj (hres.symm.trans hsearch)
      rw [heq] at hon hinfo
      obtain ⟨hroot, hbody⟩ := hon.mp htrue
      obtain ⟨hhash', hnum'⟩ := hinfo htrue
      have hh : b.hash = h := Info.blockHash.inj (hhash'.symm.trans hhash)
      have hmem := mem_of_firstHit hb
      refine ⟨b, hmem, ?_, hnum'.symm.trans hnum, hfirst b hb hroot hbody⟩
      rw [← hh]
      exact hchain.stored.stored b hmem

/-- A trie whose proofs carry the value. -/
def plainTrie : TxTrie where
  encode := fun tx => tx.txHash
  rootHash := fun t => if t = ∅ then [0] else [1]
  prove := fun t key => some (if t = ∅ then [] else
    [(key, match t.lookup key with
      | none => []
      | some value => 1 :: value)])
  verifyProof := fun _ _ proof => match proof with
    | [] => none
    | (_, []) :: _ => some none
    | (_, _ :: value) :: _ => some (some value)
  prove_isSome := fun _ _ => rfl
  verifyProof_prove := by
    intro t key proof hproof
    cases hproof
    by_cases ht : t = ∅
    · simp [ht]
    · cases t.lookup key <;> simp [ht]

/-- A genesis block and one block with a transaction whose hash sets bit 1 of the filter. -/
def shortGenesis : Block := ⟨⟨[], [], [0], ∅, 0, 0, 0⟩, [], [10]⟩

def shortBlock : Block :=
  ⟨⟨[10], [], [1], {1}, 1, 0, 0⟩, [⟨"a", "b", 0, 5, [1]⟩], [11]⟩

def shortChain : BlockChain :=
  ⟨shortBlock, Storage.addBlock (Storage.addBlock ⟨∅, []⟩ shortGenesis) shortBlock⟩

theorem shortChain_isChain : IsChain shortChain shortGenesis [shortBlock, shortGenesis] where
  stored := .cons (by decide) rfl (.base (by decide))
  head := rfl
  numbered := by
    show [1, 0] = (List.range 2).reverse
    rfl

/-- The transaction of the block is found where it is. -/
theorem txOnChainVerify_sound_short :
    IsChain shortChain shortGenesis [shortBlock, shortGenesis] ∧
      ∃ b ∈ [shortBlock, shortGenesis], getBlock shortChain.storage [11] = some b ∧
        b.header.number = 1 ∧ Contains b [1] := by
  refine ⟨shortChain_isChain, ?_⟩
  have hfirst : firstHit [1] [shortBlock, shortGenesis] = some shortBlock := by decide
  have hsound := (txOnChainVerify_sound_iff plainTrie [1] shortChain_isChain).mpr (by
    intro b hb _ _
    rw [hfirst] at hb
    cases hb
    decide)
  exact hsound [11] 1 (by decide +kernel) (by decide +kernel) (by decide +kernel)

/-- The hash `[8, 1]` is 2049 and has the bit of the hash `[1]`: the answer is positive, with a
block that does not have the transaction. -/
theorem txOnChainVerify_filter_collision :
    IsChain shortChain shortGenesis [shortBlock, shortGenesis] ∧
      (txOnChainVerify plainTrie shortChain [8, 1]).isOn = true ∧
      (txOnChainVerify plainTrie shortChain [8, 1]).info = .blockHash [11] ∧
      (txOnChainVerify plainTrie shortChain [8, 1]).height = 1 ∧
      getBlock shortChain.storage [11] = some shortBlock ∧ ¬ Contains shortBlock [8, 1] := by
  refine ⟨shortChain_isChain, ?_⟩
  decide +kernel

end Aster.Chain
