import Aster.Pbft.Proposals
import Aster.Pbft.Locks
import Aster.Lib.Spine

/-!
# The chains of a shard

All nodes follow the protocol.  The blocks that the main node proposes stand one above the other:
it holds `sequenceLock` from a proposal until it has executed it, so that it proposes each block
over the one before.  A replica only adds the next of these blocks to its chain, in whatever order
messages arrive, by commits or by catching up.

* `Aligned`: the invariant of the shard, over the nodes and the packets in flight.
* `leading_handle`: the main node and `sequenceLock`.
* **`chains_comparable`**: of any two chains one is a beginning of the other.
-/

namespace Aster.Pbft

open Aster.Core Aster.Chain Aster.Lib.Transition Aster.Lib.ParentChain Node

/-! ### The proposals -/

def proposals (sent : List Packet) : List PrePrepare := sent.filterMap Packet.proposal

/-- The block of a proposal. -/
def PrePrepare.block (m : PrePrepare) : Option Block := m.requestMsg.bind (·.content)

def proposedBlocks (sent : List Packet) : List Block :=
  (proposals sent).filterMap PrePrepare.block

def Proposed (sent : List Packet) (q : UInt64) (r : Option Request) : Prop :=
  ∃ m ∈ proposals sent, m.seqID = q ∧ m.requestMsg = r

/-- The proposal of a block, with the digest of the request. -/
def Formed (cfg : PbftConfig) (m : PrePrepare) : Prop :=
  m.digest = cfg.getDigest m.requestMsg ∧
    ∃ b now, m.requestMsg = some ⟨.block, some b, now⟩

/-- A list whose elements all have a value loses no position when the values are taken. -/
theorem getElem?_filterMap_of_isSome {α β : Type*} (f : α → Option β) (l : List α)
    (h : ∀ x ∈ l, (f x).isSome) (k : ℕ) : (l.filterMap f)[k]? = l[k]?.bind f := by
  induction l generalizing k with
  | nil => rfl
  | cons x l ih =>
    obtain ⟨y, hy⟩ := Option.isSome_iff_exists.mp (h x List.mem_cons_self)
    rw [List.filterMap_cons_some hy]
    cases k with
    | zero => exact hy.symm
    | succ k => exact ih (fun z hz => h z (List.mem_cons_of_mem _ hz)) k

theorem length_filterMap_of_isSome {α β : Type*} (f : α → Option β) (l : List α)
    (h : ∀ x ∈ l, (f x).isSome) : (l.filterMap f).length = l.length := by
  induction l with
  | nil => rfl
  | cons x l ih =>
    obtain ⟨y, hy⟩ := Option.isSome_iff_exists.mp (h x List.mem_cons_self)
    rw [List.filterMap_cons_some hy, List.length_cons, List.length_cons,
      ih fun z hz => h z (List.mem_cons_of_mem _ hz)]

theorem proposals_append (sent : List Packet) {out : List Packet}
    (h : ∀ pk ∈ out, pk.proposal = none) : proposals (sent ++ out) = proposals sent := by
  rw [proposals, List.filterMap_append, List.filterMap_eq_nil_iff.mpr h, List.append_nil]
  rfl

theorem proposals_snoc (sent : List Packet) (m : PrePrepare) :
    proposals (sent ++ [.all (.prePrepare m)]) = proposals sent ++ [m] := by
  rw [proposals, List.filterMap_append]
  rfl

theorem proposedBlocks_congr {sent sent' : List Packet} (h : proposals sent' = proposals sent) :
    proposedBlocks sent' = proposedBlocks sent := by
  rw [proposedBlocks, h, ← proposedBlocks]

theorem proposedBlocks_snoc (sent : List Packet) {m : PrePrepare} {b : Block}
    (hb : m.block = some b) :
    proposedBlocks (sent ++ [.all (.prePrepare m)]) = proposedBlocks sent ++ [b] := by
  rw [proposedBlocks, proposals_snoc, List.filterMap_append, List.filterMap_cons_some hb]
  rfl

/-- What was proposed stays so, and the new proposal is added. -/
theorem proposed_snoc (sent : List Packet) (m : PrePrepare) {q : UInt64} {r : Option Request} :
    Proposed (sent ++ [.all (.prePrepare m)]) q r ↔
      Proposed sent q r ∨ m.seqID = q ∧ m.requestMsg = r := by
  rw [Proposed, proposals_snoc]
  simp only [List.mem_append, List.mem_singleton, or_and_right, exists_or, exists_eq_left]
  rfl

/-! ### Positions of the nodes -/

/-- The hash that the header of a block names as its parent. -/
def parentHash (b : Block) : Hash := b.header.parentBlockHash

/-- The chain of a node ends at position `k` of the spine of the proposed blocks. -/
structure OnSpine (g : Block) (bs : List Block) (bc : BlockChain) (k : ℕ) : Prop where
  top : (g :: bs)[k]? = some bc.currentBlock
  holds : Holds (getBlock bc.storage) Block.hash parentHash g bs k
  key : validKey bc.currentBlock.hash = true

theorem OnSpine.le {g : Block} {bs : List Block} {bc : BlockChain} {k : ℕ}
    (h : OnSpine g bs bc k) : k ≤ bs.length := by
  obtain ⟨hlt, -⟩ := List.getElem?_eq_some_iff.mp h.top
  exact Nat.le_of_lt_succ hlt

theorem OnSpine.append {g : Block} {bs : List Block} {bc : BlockChain} {k : ℕ}
    (h : OnSpine g bs bc k) (more : List Block) : OnSpine g (bs ++ more) bc k := by
  refine ⟨?_, h.holds.append h.le more, h.key⟩
  rw [← List.cons_append, List.getElem?_append_left (Nat.lt_succ_of_le h.le)]
  exact h.top

theorem ne_nil_of_validKey {hash : Hash} (h : validKey hash = true) : hash ≠ [] := by
  intro hnil
  subst hnil
  exact absurd h (by decide)

/-- A block of the spine that is accepted is the next one. -/
theorem OnSpine.addBlock {g : Block} {bs : List Block} {bc bc' : BlockChain} {k : ℕ} {b : Block}
    (h : OnSpine g bs bc k) (hspine : Spine Block.hash parentHash g bs)
    (hroot : parentHash g = []) (hb : b ∈ bs) (hadd : addBlock bc b = some (bc', true)) :
    OnSpine g bs bc' (k + 1) := by
  rcases addBlock_cases hadd with ⟨-, hfalse, -⟩ | ⟨-, rfl, hkey, -, hparent⟩
  · cases hfalse
  · have hne : bc.currentBlock.hash ≠ parentHash g := hroot ▸ ne_nil_of_validKey h.key
    have hnext := hspine.next_unique h.top hne (List.mem_cons_of_mem _ hb) hparent
    refine ⟨hnext, ?_, hkey⟩
    exact hspine.push h.holds hnext (getBlock_addBlock_self _ b)
      fun x hx => getBlock_addBlock_of_ne _ b hx

theorem OnSpine.extend {g : Block} {bs : List Block} {bc bc' : BlockChain} {k : ℕ}
    {K : UInt64 → Option Request → Prop} (h : OnSpine g bs bc k)
    (hspine : Spine Block.hash parentHash g bs) (hroot : parentHash g = [])
    (hK : ∀ q req b, K q (some req) → req.content = some b → b ∈ bs)
    (hext : Extends K bc bc') : ∃ k', OnSpine g bs bc' k' := by
  induction hext with
  | refl => exact ⟨k, h⟩
  | tail _ hstep ih =>
    obtain ⟨k', hk'⟩ := ih
    obtain ⟨q, req, b, hreq, hb, hadd⟩ := hstep
    exact ⟨k' + 1, hk'.addBlock hspine hroot (hK q req b hreq hb) hadd⟩

/-! ### The invariant of the shard -/

/-- Genesis, which all nodes of the shard share. -/
abbrev genesis (cfg : PbftConfig) : Block := newGenisisBlock cfg.chain

/-- All nodes have opened a new chain, and nothing is sent. -/
def ShardStart (cfg : PbftConfig) (s : Cluster) : Prop :=
  s.sent = [] ∧ ∃ l, newBlockChain cfg.chain none = some l ∧ ∀ i, s.nodes i = newPbftNode i l

/-- No two blocks of the shard share their hash. -/
def CollisionFree (cfg : PbftConfig) (s : Cluster) : Prop :=
  ∀ a ∈ genesis cfg :: proposedBlocks s.sent, ∀ b ∈ genesis cfg :: proposedBlocks s.sent,
    a.hash = b.hash → a = b

/-- The main node at position `k`: all proposals before `k` are replied, and there is one more
exactly when `sequenceLock` is taken. -/
structure LeadingAt (cfg : PbftConfig) (sent : List Packet) (n : Node) (k : ℕ) : Prop where
  place : OnSpine (genesis cfg) (proposedBlocks sent) n.curChain.chain k
  count : (proposals sent).length = k + if n.sequenceLock then 1 else 0
  replied : ∀ m ∈ (proposals sent).take k, m.digest ∈ n.isReply

/-- The main node has all proposals in its pool, never asks for one, and knows its position. -/
structure Leading (cfg : PbftConfig) (sent : List Packet) (n : Node) : Prop where
  pool : ∀ m ∈ proposals sent, m.digest ∈ n.requestPool
  asks : ∀ seqEnd, n.status ≠ .waitAskFor seqEnd
  position : n.status ≠ .crashed → ∃ k, LeadingAt cfg sent n k

structure Aligned (cfg : PbftConfig) (s : Cluster) : Prop where
  ids : ∀ i, (s.nodes i).nodeID = i
  formed : ∀ m ∈ proposals s.sent, Formed cfg m
  spine : Spine Block.hash parentHash (genesis cfg) (proposedBlocks s.sent)
  numbers : ∀ (i : ℕ) (a b : Block), (genesis cfg :: proposedBlocks s.sent)[i]? = some a →
    (proposedBlocks s.sent)[i]? = some b → b.header.number = a.header.number + 1
  packets : ∀ pk ∈ s.sent, pk.Known cfg (Proposed s.sent)
  known : ∀ i, Known cfg (Proposed s.sent) (s.nodes i)
  placed : ∀ i, ∃ k, OnSpine (genesis cfg) (proposedBlocks s.sent) (s.nodes i).curChain.chain k
  leader : Leading cfg s.sent (s.nodes view)

variable {cfg : PbftConfig} {s s' : Cluster}

theorem Formed.block_isSome {m : PrePrepare} (h : Formed cfg m) : m.block.isSome := by
  obtain ⟨-, b, now, hr⟩ := h
  rw [PrePrepare.block, hr]
  rfl

namespace Aligned

theorem block_at (h : Aligned cfg s) (k : ℕ) :
    (proposedBlocks s.sent)[k]? = (proposals s.sent)[k]?.bind PrePrepare.block :=
  getElem?_filterMap_of_isSome _ _ (fun m hm => (h.formed m hm).block_isSome) k

theorem length_blocks (h : Aligned cfg s) :
    (proposedBlocks s.sent).length = (proposals s.sent).length :=
  length_filterMap_of_isSome _ _ fun m hm => (h.formed m hm).block_isSome

end Aligned

theorem mem_proposedBlocks {sent : List Packet} {q : UInt64} {req : Request} {b : Block}
    (h : Proposed sent q (some req)) (hb : req.content = some b) : b ∈ proposedBlocks sent := by
  obtain ⟨m, hm, -, hr⟩ := h
  refine List.mem_filterMap.mpr ⟨m, hm, ?_⟩
  rw [PrePrepare.block, hr]
  exact hb

theorem parentHash_genesis : parentHash (genesis cfg) = [] := rfl

/-- The block above the top is accepted. -/
theorem OnSpine.addBlock_next {l l' : Ledger} {ok : Bool} {k : ℕ} {b : Block} (h : Aligned cfg s)
    (hk : OnSpine (genesis cfg) (proposedBlocks s.sent) l.chain k)
    (hb : (proposedBlocks s.sent)[k]? = some b) (hadd : l.addBlock b = some (l', ok)) :
    OnSpine (genesis cfg) (proposedBlocks s.sent) l'.chain (k + 1) := by
  obtain ⟨chain, hchain, rfl⟩ := ledger_addBlock_cases hadd
  have hparent := h.spine.links k _ _ hk.top hb
  have hnumber := h.numbers k _ _ hk.top hb
  have hok : ok = true := by
    rcases addBlock_cases hchain with ⟨-, -, hno⟩ | ⟨hok, -⟩
    · exact absurd ⟨hnumber, hparent⟩ hno
    · exact hok
  subst hok
  exact hk.addBlock h.spine parentHash_genesis (List.mem_of_getElem? hb) hchain

theorem aligned_start (h : ShardStart cfg s) : Aligned cfg s := by
  obtain ⟨hsent, l, hl, hnodes⟩ := h
  have hno : proposals s.sent = [] := by
    rw [hsent]
    rfl
  have hnone : proposedBlocks s.sent = [] := by
    rw [proposedBlocks, hno]
    rfl
  have hkey : validKey (genesis cfg).hash = true := by
    obtain ⟨storage, hput, -⟩ := Option.bind_eq_some_iff.mp hl
    simp only [putBlock] at hput
    split_ifs at hput with hvalid
    exact hvalid
  have hplace : OnSpine (genesis cfg) [] l.chain 0 := by
    rw [newBlockChain_none hl]
    exact ⟨rfl, .base (getBlock_addBlock_self _ _), hkey⟩
  constructor
  case ids =>
    intro i
    rw [hnodes i]
    rfl
  case formed =>
    intro m hm
    rw [hno] at hm
    cases hm
  case spine =>
    rw [hnone]
    constructor
    case links =>
      intro i a b _ hb
      cases hb
    case inj =>
      intro a ha b hb _
      rw [List.mem_singleton.mp ha, List.mem_singleton.mp hb]
    case bottom => exact fun i a _ hlt => absurd hlt (Nat.not_lt_zero i)
  case numbers =>
    intro i a b _ hb
    rw [hnone] at hb
    cases hb
  case packets =>
    intro pk hpk
    rw [hsent] at hpk
    cases hpk
  case known =>
    intro i
    rw [hnodes i]
    refine ⟨?_, ?_⟩
    · intro d r hr
      cases hr
    · intro q d hd
      cases hd
  case placed =>
    intro i
    rw [hnodes i, hnone]
    exact ⟨0, hplace⟩
  case leader =>
    rw [hnodes view]
    constructor
    case pool =>
      intro m hm
      rw [hno] at hm
      cases hm
    case asks =>
      intro seqEnd hask
      cases hask
    case position =>
      intro _
      refine ⟨0, ?_, ?_, ?_⟩
      · rw [hnone]
        exact hplace
      · rw [hno]
        rfl
      · intro m hm
        rw [hno] at hm
        cases hm

/-! ### The main node -/

/-- Chain, `sequenceLock` and replies stay, and no request leaves the pool. -/
structure Idle (n n' : Node) : Prop where
  chain : n'.curChain.chain = n.curChain.chain
  lock : n'.sequenceLock = n.sequenceLock
  reply : n'.isReply = n.isReply
  pool : ∀ d ∈ n.requestPool, d ∈ n'.requestPool

section Idle

variable {n n' : Node} {out : List Packet}

theorem Idle.refl (n : Node) : Idle n n := ⟨rfl, rfl, rfl, fun _ hd => hd⟩

theorem Idle.crash (n : Node) : Idle n n.crash := ⟨rfl, rfl, rfl, fun _ hd => hd⟩

theorem idle_handlePrePrepare {m : PrePrepare} (h : n.handlePrePrepare cfg m = (n', out)) :
    Idle n n' := by
  rcases handlePrePrepare_cases h with ⟨rfl, -⟩ | ⟨rfl, -⟩ | ⟨-, rfl, -⟩
  · exact .refl n'
  · exact .crash n
  · exact ⟨rfl, rfl, rfl, fun d hd => Finmap.mem_insert.mpr (.inr hd)⟩

theorem idle_handlePrepare {v : Vote} (h : n.handlePrepare cfg v = (n', out)) : Idle n n' := by
  rcases handlePrepare_cases h with ⟨rfl, -⟩ | ⟨rfl, -⟩ | ⟨-, -, rfl, -⟩
  · exact .refl n'
  · exact ⟨rfl, rfl, rfl, fun _ hd => hd⟩
  · exact ⟨rfl, rfl, rfl, fun _ hd => hd⟩

/-- A commit for a request of the pool is only counted, or the request is executed. -/
theorem idle_or_execute {v : Vote} (hpool : v.digest ∈ n.requestPool)
    (h : n.handleCommit cfg v = (n', out)) :
    Idle n n' ∧ Ended n n' ∨ ∃ r, v.digest ∉ n.isReply ∧
      n.requestPool.lookup v.digest = some r ∧ n' = (n.voteCommit v).execute cfg v r := by
  rcases handleCommit_cases h with ⟨-, rfl, -⟩ | ⟨-, hcounted⟩
  · exact .inl ⟨.crash n, .crash n⟩
  · rcases hcounted with ⟨rfl, -⟩ | ⟨-, hfirst, ⟨hmissing, -⟩ | ⟨r, hr, rfl, -⟩⟩
    · exact .inl ⟨⟨rfl, rfl, rfl, fun _ hd => hd⟩, ⟨rfl, .inl rfl⟩⟩
    · exact absurd hpool (Finmap.lookup_eq_none.mp hmissing)
    · exact .inr ⟨r, hfirst, hr, rfl⟩

theorem idle_outside {addsTxs : Bool} (h : n.handle cfg (.outside addsTxs) = (n', out)) :
    Idle n n' ∧ Ended n n' := by
  obtain ⟨rfl | rfl, -⟩ := outside_cases h
  · exact ⟨.refl n', .refl n'⟩
  · exact ⟨.crash n, .crash n⟩

theorem idle_handleRequestOldSeq {m : RequestOldMessage}
    (h : n.handleRequestOldSeq m = (n', out)) : Idle n n' ∧ Ended n n' := by
  rcases handleRequestOldSeq_cases h with ⟨rfl, -⟩ | ⟨-, rfl, -⟩ | ⟨j, -, rfl, -⟩
  · exact ⟨.refl n', .refl n'⟩
  · exact ⟨.crash n, .crash n⟩
  · exact ⟨.refl n', .refl n'⟩

end Idle

theorem Ended.asks {n n' : Node} (h : Ended n n') (hrun : n.status = .running) (seqEnd : UInt64) :
    n'.status ≠ .waitAskFor seqEnd := by
  intro hask
  rcases h.status with heq | hcrash
  · rw [heq, hrun] at hask
    cases hask
  · rw [hcrash] at hask
    cases hask

/-- A move that does not concern the position. -/
theorem Leading.idle {sent : List Packet} {n n' : Node} (h : Leading cfg sent n)
    (hidle : Idle n n') (hasks : ∀ seqEnd, n'.status ≠ .waitAskFor seqEnd)
    (hcrash : n.status ≠ .crashed) : Leading cfg sent n' := by
  constructor
  case pool => exact fun m hm => hidle.pool _ (h.pool m hm)
  case asks => exact hasks
  case position =>
    intro _
    obtain ⟨k, hk⟩ := h.position hcrash
    refine ⟨k, ?_, ?_, ?_⟩
    · rw [hidle.chain]
      exact hk.place
    · rw [hidle.lock]
      exact hk.count
    · rw [hidle.reply]
      exact hk.replied

/-- A proposal without a reply is the last one, and `sequenceLock` is taken for it. -/
theorem LeadingAt.last {sent : List Packet} {n : Node} {k : ℕ} (h : LeadingAt cfg sent n k)
    {m : PrePrepare} (hm : m ∈ proposals sent) (hreply : m.digest ∉ n.isReply) :
    (proposals sent)[k]? = some m ∧ n.sequenceLock = true := by
  obtain ⟨j, hj⟩ := List.mem_iff_getElem?.mp hm
  obtain ⟨hlt, -⟩ := List.getElem?_eq_some_iff.mp hj
  have hkj : k ≤ j := by
    by_contra hjk
    have hmem : m ∈ (proposals sent).take k := by
      refine List.mem_of_getElem? (i := j) ?_
      rw [List.getElem?_take_of_lt (Nat.lt_of_not_le hjk)]
      exact hj
    exact hreply (h.replied m hmem)
  have hcount := h.count
  cases hlock : n.sequenceLock with
  | false =>
    rw [hlock] at hcount
    simp only [Bool.false_eq_true, if_false] at hcount
    omega
  | true =>
    rw [hlock] at hcount
    simp only [if_true] at hcount
    have heq : j = k := by omega
    exact ⟨heq ▸ hj, rfl⟩

/-- The request that the main node executes is the last proposal. -/
theorem Aligned.executes_last (h : Aligned cfg s) {k : ℕ} {d : Digest} {r : Option Request}
    (hk : LeadingAt cfg s.sent (s.nodes view) k) (hreply : d ∉ (s.nodes view).isReply)
    (hr : (s.nodes view).requestPool.lookup d = some r) :
    ∃ m b now, (proposals s.sent)[k]? = some m ∧ m.digest = d ∧
      r = some ⟨.block, some b, now⟩ ∧ (proposedBlocks s.sent)[k]? = some b ∧
      (s.nodes view).sequenceLock = true := by
  obtain ⟨hd, q, m, hm, -, hrequest⟩ := (h.known view).pool d r hr
  obtain ⟨hdigest, b, now, hblock⟩ := h.formed m hm
  have hmd : m.digest = d := by rw [hdigest, hrequest, hd]
  obtain ⟨hat, hlock⟩ := hk.last hm (hmd ▸ hreply)
  refine ⟨m, b, now, hat, hmd, hrequest ▸ hblock, ?_, hlock⟩
  rw [h.block_at, hat, Option.bind_some, PrePrepare.block, hblock]
  rfl

theorem unlockSequence_main {n : Node} (hid : n.nodeID = view) (hlock : n.sequenceLock = true) :
    n.unlockSequence = { n with sequenceLock := false } := by
  rw [unlockSequence, if_pos hid, if_pos hlock]

/-- The main node executes its last proposal and gives `sequenceLock` back. -/
theorem leading_execute (h : Aligned cfg s) {v : Vote} {r : Option Request}
    (hrun : (s.nodes view).status = .running) (hreply : v.digest ∉ (s.nodes view).isReply)
    (hr : (s.nodes view).requestPool.lookup v.digest = some r) :
    Leading cfg s.sent (((s.nodes view).voteCommit v).execute cfg v r) := by
  have hcrash : (s.nodes view).status ≠ .crashed := by
    rw [hrun]
    decide
  have hid : (s.nodes view).nodeID = view := h.ids view
  have hvoted : Ended (s.nodes view) ((s.nodes view).voteCommit v) := ⟨rfl, .inl rfl⟩
  have hexec : Ended ((s.nodes view).voteCommit v)
      (((s.nodes view).voteCommit v).execute cfg v r) := ended_execute v r
  have hended := hvoted.trans hexec
  have hpool : (((s.nodes view).voteCommit v).execute cfg v r).requestPool =
      (s.nodes view).requestPool := by
    rcases execute_cases cfg ((s.nodes view).voteCommit v) v r with
      heq | ⟨_, _, ledger, _, -, -, -, heq | heq⟩
    · rw [heq]
      rfl
    · rw [heq]
      rfl
    · rw [heq, (unlockSequence_same _).1]
      rfl
  constructor
  case pool =>
    rw [hpool]
    exact h.leader.pool
  case asks => exact hended.asks hrun
  case position =>
    intro hnot
    obtain ⟨k, hk⟩ := h.leader.position hcrash
    obtain ⟨m, b, now, hat, hmd, hrb, hbk, hlock⟩ := h.executes_last hk hreply hr
    rcases execute_cases cfg ((s.nodes view).voteCommit v) v r with
      heq | ⟨req, b', ledger, ok, hreq, hb', hadd, heq | heq⟩
    · rw [heq] at hnot
      exact absurd rfl hnot
    · rw [heq] at hnot
      exact absurd rfl hnot
    · have hbb : b' = b := by
        rw [hrb] at hreq
        cases hreq
        exact (Option.some.inj hb').symm
      subst hbb
      -- the block stands right above `CurrentBlock`, so that `AddBlock` takes it
      have hplace := OnSpine.addBlock_next h hk.place hbk hadd
      have hunlock := unlockSequence_main
        (n := ((s.nodes view).voteCommit v).afterRound v ledger) hid hlock
      refine ⟨k + 1, ?_⟩
      rw [heq, hunlock]
      constructor
      case place => exact hplace
      case count =>
        have hcount := hk.count
        rw [hlock] at hcount
        exact hcount
      case replied =>
        intro m' hm'
        rw [List.take_add_one, hat] at hm'
        rcases List.mem_append.mp hm' with hold | hlast
        · exact Finset.mem_insert_of_mem (hk.replied m' hold)
        · have heq' : m' = m := by simpa using hlast
          rw [heq', hmd]
          exact Finset.mem_insert_self _ _

/-- **The main node handles a message.**  Only the execution of the last proposal concerns its
position. -/
theorem leading_handle (h : Aligned cfg s) {m : Msg} {n' : Node} {out : List Packet}
    (hrun : (s.nodes view).status = .running) (hsend : m.isSendOld = false)
    (hmain : ∀ v, m = .commit v → v.digest ∈ (s.nodes view).requestPool)
    (hres : (s.nodes view).handle cfg m = (n', out)) : Leading cfg s.sent n' := by
  have hcrash : (s.nodes view).status ≠ .crashed := by
    rw [hrun]
    decide
  cases m with
  | prePrepare m =>
    exact h.leader.idle (idle_handlePrePrepare hres) ((ended_handlePrePrepare hres).asks hrun)
      hcrash
  | prepare v =>
    exact h.leader.idle (idle_handlePrepare hres) ((ended_handlePrepare hres).asks hrun) hcrash
  | commit v =>
    rcases idle_or_execute (hmain v rfl) hres with ⟨hidle, hended⟩ | ⟨r, hreply, hr, rfl⟩
    · exact h.leader.idle hidle (hended.asks hrun) hcrash
    · exact leading_execute h hrun hreply hr
  | requestOld m =>
    obtain ⟨hidle, hended⟩ := idle_handleRequestOldSeq hres
    exact h.leader.idle hidle (hended.asks hrun) hcrash
  | sendOld m => cases hsend
  | stop =>
    cases hres
    refine h.leader.idle ⟨rfl, rfl, rfl, fun _ hd => hd⟩ ?_ hcrash
    intro seqEnd hask
    simp only [waitToStop] at hask
    split_ifs at hask
  | outside addsTxs =>
    obtain ⟨hidle, hended⟩ := idle_outside hres
    exact h.leader.idle hidle (hended.asks hrun) hcrash

/-! ### Steps of the shard -/

/-- What a node can be given to handle when all nodes follow the protocol. -/
theorem Aligned.message_known (h : Aligned cfg s) {i : ℕ} {m : Msg}
    (henabled : s.enabled ∅ i (.handle m) = true) :
    m.Known cfg (Proposed s.sent) ∧ (i = view → m.isSendOld = false) := by
  simp only [Cluster.enabled, Finset.not_nonempty_empty, decide_false, Bool.false_and,
    Bool.or_false, Bool.or_eq_true, decide_eq_true_eq] at henabled
  rcases henabled with (hall | hone) | hexternal
  · obtain ⟨hknown, hsend⟩ := h.packets _ hall
    exact ⟨hknown, fun _ => hsend⟩
  · obtain ⟨hknown, hsend⟩ := h.packets _ hone
    refine ⟨hknown, ?_⟩
    intro hi
    exact Bool.eq_false_iff.mpr fun htrue => hsend htrue hi
  · cases m with
    | stop => exact ⟨trivial, fun _ => rfl⟩
    | outside addsTxs => exact ⟨trivial, fun _ => rfl⟩
    | prePrepare m => cases hexternal
    | prepare v => cases hexternal
    | commit v => cases hexternal
    | requestOld m => cases hexternal
    | sendOld m => cases hexternal

/-- The main node has every request that a commit can be about. -/
theorem Aligned.commit_mem (h : Aligned cfg s) {v : Vote}
    (hv : (Msg.commit v).Known cfg (Proposed s.sent)) :
    v.digest ∈ (s.nodes view).requestPool := by
  obtain ⟨r, ⟨m, hm, -, hr⟩, hd⟩ := hv
  rw [hd, ← hr, ← (h.formed m hm).1]
  exact h.leader.pool m hm

/-- The main node is judged by the proposals only. -/
theorem Leading.congr {sent sent' : List Packet} {n : Node} (h : Leading cfg sent n)
    (hprop : proposals sent' = proposals sent) : Leading cfg sent' n := by
  have hblocks := proposedBlocks_congr hprop
  constructor
  case pool =>
    rw [hprop]
    exact h.pool
  case asks => exact h.asks
  case position =>
    intro hcrash
    obtain ⟨k, hk⟩ := h.position hcrash
    refine ⟨k, ?_, ?_, ?_⟩
    · rw [hblocks]
      exact hk.place
    · rw [hprop]
      exact hk.count
    · rw [hprop]
      exact hk.replied

/-- A move that proposes nothing. -/
theorem Aligned.move (h : Aligned cfg s) {i : ℕ} {n' : Node} {out : List Packet}
    (hid : n'.nodeID = (s.nodes i).nodeID)
    (hhonest : Honest cfg (Proposed s.sent) (s.nodes i) n' out)
    (hleading : i = view → Leading cfg s.sent n') :
    Aligned cfg ⟨Function.update s.nodes i n', s.sent ++ out⟩ := by
  have hprop : proposals (s.sent ++ out) = proposals s.sent :=
    proposals_append s.sent fun pk hpk => (hhonest.packets pk hpk).2
  have hblocks := proposedBlocks_congr hprop
  have hproposed : Proposed (s.sent ++ out) = Proposed s.sent := by
    funext q r
    rw [Proposed, hprop]
    rfl
  constructor
  case ids =>
    refine (Function.forall_update_iff s.nodes (fun j n => n.nodeID = j)).mpr
      ⟨?_, fun j _ => h.ids j⟩
    rw [hid, h.ids]
  case formed =>
    show ∀ m ∈ proposals (s.sent ++ out), Formed cfg m
    rw [hprop]
    exact h.formed
  case spine =>
    show Spine _ _ _ (proposedBlocks (s.sent ++ out))
    rw [hblocks]
    exact h.spine
  case numbers =>
    show ∀ (i : ℕ) (a b : Block), (genesis cfg :: proposedBlocks (s.sent ++ out))[i]? = some a →
      (proposedBlocks (s.sent ++ out))[i]? = some b → _
    rw [hblocks]
    exact h.numbers
  case packets =>
    show ∀ pk ∈ s.sent ++ out, pk.Known cfg (Proposed (s.sent ++ out))
    rw [hproposed]
    intro pk hpk
    rcases List.mem_append.mp hpk with hold | hnew
    · exact h.packets pk hold
    · exact (hhonest.packets pk hnew).1
  case known =>
    show ∀ j, Known cfg (Proposed (s.sent ++ out)) (Function.update s.nodes i n' j)
    rw [hproposed]
    exact (Function.forall_update_iff s.nodes (fun _ n => Known cfg (Proposed s.sent) n)).mpr
      ⟨hhonest.known, fun j _ => h.known j⟩
  case placed =>
    show ∀ j, ∃ k, OnSpine _ (proposedBlocks (s.sent ++ out))
      (Function.update s.nodes i n' j).curChain.chain k
    rw [hblocks]
    refine (Function.forall_update_iff s.nodes (fun _ n => ∃ k, OnSpine (genesis cfg)
      (proposedBlocks s.sent) n.curChain.chain k)).mpr ⟨?_, fun j _ => h.placed j⟩
    obtain ⟨k, hk⟩ := h.placed i
    exact hk.extend h.spine parentHash_genesis (fun q req b => mem_proposedBlocks) hhonest.chain
  case leader =>
    refine Leading.congr ?_ hprop
    show Leading cfg s.sent (Function.update s.nodes i n' view)
    by_cases hi : i = view
    · subst hi
      rw [Function.update_self]
      exact hleading rfl
    · rw [Function.update_of_ne (Ne.symm hi)]
      exact h.leader

/-- Numbers that count up along a list still do when the next one is added. -/
theorem numbers_snoc {g t b : Block} {bs : List Block}
    (h : ∀ (i : ℕ) (a c : Block), (g :: bs)[i]? = some a → bs[i]? = some c →
      c.header.number = a.header.number + 1)
    (htop : (g :: bs)[bs.length]? = some t) (hb : b.header.number = t.header.number + 1)
    (i : ℕ) (a c : Block) (ha : (g :: (bs ++ [b]))[i]? = some a) (hc : (bs ++ [b])[i]? = some c) :
    c.header.number = a.header.number + 1 := by
  obtain ⟨hlt, -⟩ := List.getElem?_eq_some_iff.mp hc
  rw [List.length_append, List.length_singleton] at hlt
  rw [← List.cons_append, List.getElem?_append_left (by rw [List.length_cons]; omega)] at ha
  by_cases hi : i < bs.length
  · rw [List.getElem?_append_left hi] at hc
    exact h i a c ha hc
  · have heq : i = bs.length := by omega
    subst heq
    rw [List.getElem?_concat_length] at hc
    rw [htop] at ha
    cases hc
    cases ha
    exact hb

/-- With a free lock, the main node stands at the end of the proposals. -/
theorem LeadingAt.at_end {sent : List Packet} {n : Node} {k : ℕ} (hk : LeadingAt cfg sent n k)
    (hlock : n.sequenceLock = false) : (proposals sent).length = k := by
  have hcount := hk.count
  rw [hlock] at hcount
  exact hcount

/-- The main node after a proposal: the new request is in its pool, and `sequenceLock` is taken. -/
theorem LeadingAt.propose {sent : List Packet} {n n' : Node} {k : ℕ} {m : PrePrepare} {b : Block}
    (hk : LeadingAt cfg sent n k) (hlock : n.sequenceLock = false) (hb : m.block = some b)
    (hchain : n'.curChain.chain = n.curChain.chain) (hlock' : n'.sequenceLock = true)
    (hreply : n'.isReply = n.isReply) :
    LeadingAt cfg (sent ++ [.all (.prePrepare m)]) n' k := by
  have hend := hk.at_end hlock
  constructor
  case place =>
    rw [proposedBlocks_snoc sent hb, hchain]
    exact hk.place.append _
  case count =>
    rw [proposals_snoc, List.length_append, List.length_singleton, hend, hlock']
    rfl
  case replied =>
    rw [proposals_snoc, List.take_append_of_le_length hend.ge, hreply]
    exact hk.replied

theorem Leading.propose {sent : List Packet} {n : Node} {k : ℕ} {m : PrePrepare} {b : Block}
    {ledger : Ledger} (h : Leading cfg sent n) (hk : LeadingAt cfg sent n k)
    (hlock : n.sequenceLock = false) (hb : m.block = some b)
    (hledger : ledger.chain = n.curChain.chain) :
    Leading cfg (sent ++ [.all (.prePrepare m)])
      ({ n with curChain := ledger, sequenceLock := true, proposing := .select }.store m.digest
        m.requestMsg m.seqID) := by
  constructor
  case pool =>
    rw [proposals_snoc]
    intro m' hm'
    rcases List.mem_append.mp hm' with hold | hlast
    · exact Finmap.mem_insert.mpr (.inr (h.pool m' hold))
    · rw [List.mem_singleton.mp hlast]
      exact Finmap.mem_insert.mpr (.inl rfl)
  case asks => exact h.asks
  case position => exact fun _ => ⟨k, hk.propose hlock hb hledger rfl rfl⟩

/-- The main node proposes a block over the one it has executed last. -/
theorem Aligned.propose (h : Aligned cfg s) {k : ℕ} {b : Block} {ledger : Ledger} {now : Time}
    (hk : LeadingAt cfg s.sent (s.nodes view) k) (hlock : (s.nodes view).sequenceLock = false)
    (hledger : ledger.chain = (s.nodes view).curChain.chain)
    (hparent : b.header.parentBlockHash = (s.nodes view).curChain.chain.currentBlock.hash)
    (hnumber : b.header.number = (s.nodes view).curChain.chain.currentBlock.header.number + 1)
    {m : PrePrepare} (hm : m = ⟨some ⟨.block, some b, now⟩,
      cfg.getDigest (some ⟨.block, some b, now⟩), (s.nodes view).sequenceID⟩)
    {n' : Node} (hn' : n' = { s.nodes view with
      curChain := ledger, sequenceLock := true, proposing := .select }.store m.digest m.requestMsg
        m.seqID)
    (hfree : CollisionFree cfg
      ⟨Function.update s.nodes view n', s.sent ++ [.all (.prePrepare m)]⟩) :
    Aligned cfg ⟨Function.update s.nodes view n', s.sent ++ [.all (.prePrepare m)]⟩ := by
  have hb : m.block = some b := by rw [hm]; rfl
  have hdigest : m.digest = cfg.getDigest m.requestMsg := by rw [hm]
  have hprop := proposals_snoc s.sent m
  have hblocks := proposedBlocks_snoc s.sent hb
  have hmono : ∀ q r, Proposed s.sent q r → Proposed (s.sent ++ [.all (.prePrepare m)]) q r :=
    fun q r hqr => (proposed_snoc s.sent m).mpr (.inl hqr)
  have hnew : Proposed (s.sent ++ [.all (.prePrepare m)]) m.seqID m.requestMsg :=
    (proposed_snoc s.sent m).mpr (.inr ⟨rfl, rfl⟩)
  have htop : (genesis cfg :: proposedBlocks s.sent)[(proposedBlocks s.sent).length]? =
      some (s.nodes view).curChain.chain.currentBlock := by
    rw [h.length_blocks, hk.at_end hlock]
    exact hk.place.top
  constructor
  case ids =>
    refine (Function.forall_update_iff s.nodes (fun j n => n.nodeID = j)).mpr
      ⟨?_, fun j _ => h.ids j⟩
    rw [hn']
    exact h.ids view
  case formed =>
    show ∀ m' ∈ proposals (s.sent ++ [.all (.prePrepare m)]), Formed cfg m'
    rw [hprop]
    intro m' hm'
    rcases List.mem_append.mp hm' with hold | hlast
    · exact h.formed m' hold
    · rw [List.mem_singleton.mp hlast, hm]
      exact ⟨rfl, b, now, rfl⟩
  case spine =>
    show Spine _ _ _ (proposedBlocks (s.sent ++ [.all (.prePrepare m)]))
    have hinj : ∀ a ∈ genesis cfg :: (proposedBlocks s.sent ++ [b]),
        ∀ c ∈ genesis cfg :: (proposedBlocks s.sent ++ [b]), a.hash = c.hash → a = c := by
      rw [← hblocks]
      exact hfree
    rw [hblocks]
    exact h.spine.snoc htop hparent (ne_nil_of_validKey hk.place.key) hinj
  case numbers =>
    show ∀ (i : ℕ) (a c : Block),
      (genesis cfg :: proposedBlocks (s.sent ++ [.all (.prePrepare m)]))[i]? = some a →
      (proposedBlocks (s.sent ++ [.all (.prePrepare m)]))[i]? = some c → _
    rw [hblocks]
    exact numbers_snoc h.numbers htop hnumber
  case packets =>
    intro pk hpk
    show pk.Known cfg (Proposed (s.sent ++ [.all (.prePrepare m)]))
    rcases List.mem_append.mp hpk with hold | hlast
    · exact Packet.Known.mono hmono (h.packets pk hold)
    · rw [List.mem_singleton.mp hlast]
      exact ⟨hnew, rfl⟩
  case known =>
    refine (Function.forall_update_iff s.nodes (fun _ n =>
      Known cfg (Proposed (s.sent ++ [.all (.prePrepare m)])) n)).mpr
      ⟨?_, fun j _ => (h.known j).mono hmono⟩
    have hold : Known cfg (Proposed (s.sent ++ [.all (.prePrepare m)]))
        { s.nodes view with curChain := ledger, sequenceLock := true, proposing := .select } :=
      ((h.known view).mono hmono).congr rfl rfl
    rw [hn', hdigest]
    exact hold.store ⟨_, hnew⟩ ⟨_, hnew, rfl⟩
  case placed =>
    show ∀ j, ∃ k, OnSpine _ (proposedBlocks (s.sent ++ [.all (.prePrepare m)]))
      (Function.update s.nodes view n' j).curChain.chain k
    rw [hblocks]
    refine (Function.forall_update_iff s.nodes (fun _ n => ∃ k, OnSpine (genesis cfg)
      (proposedBlocks s.sent ++ [b]) n.curChain.chain k)).mpr ⟨?_, ?_⟩
    · have hchain : n'.curChain.chain = (s.nodes view).curChain.chain := by
        rw [hn']
        exact hledger
      rw [hchain]
      exact ⟨k, hk.place.append _⟩
    · intro j _
      obtain ⟨k', hk'⟩ := h.placed j
      exact ⟨k', hk'.append _⟩
  case leader =>
    show Leading cfg (s.sent ++ [.all (.prePrepare m)]) (Function.update s.nodes view n' view)
    rw [Function.update_self, hn']
    exact h.leader.propose hk hlock hb hledger

/-- A run does not take proposals back, so that what has no collision had none before. -/
theorem CollisionFree.of_append {nodes nodes' : ℕ → Node} {sent out : List Packet}
    (h : CollisionFree cfg ⟨nodes', sent ++ out⟩) : CollisionFree cfg ⟨nodes, sent⟩ := by
  have hsub : ∀ a ∈ genesis cfg :: proposedBlocks sent,
      a ∈ genesis cfg :: proposedBlocks (sent ++ out) := by
    intro a ha
    rw [proposedBlocks, proposals, List.filterMap_append, List.filterMap_append,
      ← List.cons_append]
    exact List.mem_append_left _ ha
  exact fun a ha b hb => h a (hsub a ha) b (hsub b hb)

/-- One step of the shard. -/
theorem aligned_step {l : ClusterMove} (h : Aligned cfg s)
    (hstep : clusterStep cfg ∅ s l = some s') (hfree : CollisionFree cfg s') :
    Aligned cfg s' := by
  obtain ⟨n', out, hmove, -, henabled, rfl⟩ := clusterStep_cases hstep
  have hid := (move_ballots hmove).nodeID_eq
  obtain ⟨i, mv⟩ := l
  cases mv with
  | handle m =>
    obtain ⟨hrun, hres⟩ := move_handle hmove
    obtain ⟨hknown, hsend⟩ := h.message_known henabled
    have hmain : i = view → ∀ v, m = .commit v → v.digest ∈ (s.nodes i).requestPool := by
      intro hi v hv
      subst hi hv
      exact h.commit_mem hknown
    refine h.move hid ?_ ?_
    · have hnode : (s.nodes i).nodeID = view → i = view := fun hv => (h.ids i).symm.trans hv
      exact handle_known (h.known i) hknown (fun hv => hsend (hnode hv))
        (fun hv => hmain (hnode hv)) hres
    · intro hi
      subst hi
      exact leading_handle h hrun (hsend rfl) (hmain rfl) hres
  | resume =>
    obtain ⟨seqEnd, hask, -, hres⟩ := move_resume hmove
    -- the main node never asks
    have hi : i ≠ view := by
      intro hi
      subst hi
      exact h.leader.asks seqEnd hask
    have hbackup : (s.nodes i).nodeID ≠ view := by
      rw [h.ids]
      exact hi
    exact h.move hid (askFor_known (h.known i) hbackup hres) fun hv => absurd hv hi
  | propose now =>
    obtain ⟨hmain, hcrash, hcases⟩ := propose_cases hmove
    obtain rfl : i = view := (h.ids i).symm.trans hmain
    rcases hcases with ⟨-, -, rfl, rfl⟩ | ⟨-, -, rfl, rfl⟩ | ⟨-, hlock, hblock⟩
    · refine h.move hid (.same (h.known view) rfl rfl rfl) fun _ => ?_
      refine h.leader.idle ⟨rfl, rfl, rfl, fun _ hd => hd⟩ ?_ hcrash
      intro seqEnd hask
      cases hask
    · refine h.move hid (.same (h.known view) rfl rfl rfl) fun _ => ?_
      exact h.leader.idle ⟨rfl, rfl, rfl, fun _ hd => hd⟩ h.leader.asks hcrash
    · rcases proposeBlock_cases hblock with ⟨rfl, rfl⟩ | ⟨b, ledger, hledger, hp, hnum, hn', rfl⟩
      · refine h.move hid (.same (h.known view) rfl rfl rfl) fun _ => ?_
        refine h.leader.idle ⟨rfl, rfl, rfl, fun _ hd => hd⟩ ?_ hcrash
        intro seqEnd hask
        cases hask
      · obtain ⟨k, hk⟩ := h.leader.position hcrash
        exact h.propose hk hlock hledger hp hnum rfl hn' hfree
  | fill txs =>
    obtain ⟨rfl, rfl⟩ := move_fill hmove
    refine h.move hid
      ⟨(h.known i).congr rfl rfl, fun _ hpk => absurd hpk List.not_mem_nil, .refl⟩ ?_
    intro hi
    subst hi
    constructor
    case pool => exact h.leader.pool
    case asks => exact h.leader.asks
    case position =>
      intro hcrash
      obtain ⟨k, hk⟩ := h.leader.position hcrash
      exact ⟨k, hk.place, hk.count, hk.replied⟩

theorem aligned_of_run {guard : Cluster → ClusterMove → Prop}
    (h : Reach (clusterStep cfg ∅) guard (ShardStart cfg) s) (hfree : CollisionFree cfg s) :
    Aligned cfg s := by
  induction h with
  | start hs => exact aligned_start hs
  | next _ _ hstep ih =>
    obtain ⟨n', out, -, -, -, rfl⟩ := clusterStep_cases hstep
    exact aligned_step (ih hfree.of_append) hstep hfree

/-- **The chains of a shard are comparable.**  In every run in which all nodes follow the protocol
and no two blocks share their hash, the chains of any two replicas, from `CurrentBlock` down to
genesis, are such that one is the end of the other. -/
theorem chains_comparable (h : Reach (clusterStep cfg ∅) anyStep (ShardStart cfg) s)
    (hfree : CollisionFree cfg s) (i j : ℕ) :
    ∃ bs bs', Stored (s.nodes i).curChain.chain.storage (genesis cfg) bs ∧
      bs.head? = some (s.nodes i).curChain.chain.currentBlock ∧
      Stored (s.nodes j).curChain.chain.storage (genesis cfg) bs' ∧
      bs'.head? = some (s.nodes j).curChain.chain.currentBlock ∧ (bs <:+ bs' ∨ bs' <:+ bs) := by
  have hinv := aligned_of_run h hfree
  obtain ⟨k, hk⟩ := hinv.placed i
  obtain ⟨k', hk'⟩ := hinv.placed j
  refine ⟨_, _, hk.holds, head?_take_reverse hk.top, hk'.holds, head?_take_reverse hk'.top, ?_⟩
  rcases Nat.le_total k k' with hle | hle
  · exact .inl (take_reverse_suffix hle)
  · exact .inr (take_reverse_suffix hle)

instance (cfg : PbftConfig) (s : Cluster) : Decidable (CollisionFree cfg s) :=
  inferInstanceAs (Decidable (∀ _ ∈ _, ∀ _ ∈ _, _ → _))

/-- Node 1 has executed the first block, and node 3 has not heard of it. -/
theorem chains_comparable_round :
    ∃ s, Reach (clusterStep (shortShard false) ∅) anyStep (ShardStart (shortShard false)) s ∧
      CollisionFree (shortShard false) s ∧
      (s.nodes 1).curChain.chain.currentBlock.header.number = 1 ∧
      (s.nodes 3).curChain.chain.currentBlock.header.number = 0 ∧
      ∃ bs bs', Stored (s.nodes 1).curChain.chain.storage (genesis (shortShard false)) bs ∧
        bs.head? = some (s.nodes 1).curChain.chain.currentBlock ∧
        Stored (s.nodes 3).curChain.chain.storage (genesis (shortShard false)) bs' ∧
        bs'.head? = some (s.nodes 3).curChain.chain.currentBlock ∧
        (bs <:+ bs' ∨ bs' <:+ bs) := by
  have hstart : Reach (clusterStep (shortShard false) ∅) anyStep (ShardStart (shortShard false))
      shortCluster := .start ⟨rfl, shortLedger, newBlockChain_short, fun _ => rfl⟩
  obtain ⟨s, hreach, hfree, hone, hthree⟩ := exists_reach_of_run quorumRound
    (fun s => CollisionFree (shortShard false) s ∧
      (s.nodes 1).curChain.chain.currentBlock.header.number = 1 ∧
      (s.nodes 3).curChain.chain.currentBlock.header.number = 0) hstart (by decide +kernel)
  exact ⟨s, hreach, hfree, hone, hthree, chains_comparable hreach hfree 1 3⟩

end Aster.Pbft
