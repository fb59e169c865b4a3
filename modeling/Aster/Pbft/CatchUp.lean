import Aster.Clpa.Transfer
import Aster.Pbft.Handlers

/-!
# The four catch-up handlers

`HandleforSequentialRequest` exists four times, once for each module of the node.  The copies have
the same loop over the heights; the CLPA modules take a request that is no block for an account
transfer, and the broker module has its completeness test the other way round.

* `outcome_eq`: on blocks, a handler is its test and the loop of the relay module;
* `not_complete_both`: no answer passes both tests;
* **`catch_up_agree_iff`**: when the four handlers leave the same chain and the same `sequenceID`.
-/

namespace Aster.Pbft

open Aster.Core Aster.Chain
open Aster.Clpa (Leader Shards AccountTransferMsg accountTransferDo)

/-! ### The handlers -/

/-- The modules with a handler of their own. -/
inductive HandleMod where
  | relay
  | broker
  | clpa
  | clpaBroker

/-- `int(SeqStartHeight-SeqEndHeight) == len(OldRequest)`; a length is less than 2^63. -/
def SendOldMessage.BrokerComplete (m : SendOldMessage) : Prop :=
  m.seqStartHeight - m.seqEndHeight = UInt64.ofNat m.oldRequest.length

instance (m : SendOldMessage) : Decidable m.BrokerComplete := inferInstanceAs (Decidable (_ = _))

/-- The chain with the data of the CLPA modules, which the others do not have, and the sequence
number. -/
structure ReplicaState where
  leader : Leader
  sequenceID : UInt64

namespace HandleMod

variable (sh : Shards) (i : UInt64) (decode : Request → Option AccountTransferMsg)

/-- The completeness test of a module. -/
def complete : HandleMod → SendOldMessage → Bool
  | .relay, m => decide m.Complete
  | .broker, m => decide m.BrokerComplete
  | .clpa, m => decide m.Complete
  | .clpaBroker, m => decide m.Complete

/-- A request in the relay and the broker module. -/
def addRequest (l : Leader) (r : Option Request) : Option Leader := do
  let ledger ← Node.addOldRequest l.ledger r
  some { l with ledger := ledger }

/-- A request in the CLPA modules; `decode` is `DecodeAccountTransferMsg` of its content. -/
def addOrTransfer (l : Leader) (r : Option Request) : Option Leader := do
  let req ← r
  if req.requestType = .block then
    let b ← req.content
    let (ledger, _) ← l.ledger.addBlock b
    some { l with ledger := ledger }
  else
    let atm ← decode req
    accountTransferDo sh i l atm

/-- What a module does with a request. -/
def apply : HandleMod → Leader → Option Request → Option Leader
  | .relay => addRequest
  | .broker => addRequest
  | .clpa => addOrTransfer sh i decode
  | .clpaBroker => addOrTransfer sh i decode

def handleforSequentialRequest (mod : HandleMod) (s : ReplicaState) (m : SendOldMessage) :
    Option ReplicaState :=
  if mod.complete m = false then some s
  else do
    let leader ← sequentialLoop (mod.apply sh i decode) m (m.oldRequest.length + 1)
      m.seqStartHeight s.leader
    some ⟨leader, m.seqEndHeight + 1⟩

/-- The chain and the sequence number that a handler leaves; `none` when it panics. -/
def outcome (mod : HandleMod) (s : ReplicaState) (m : SendOldMessage) :
    Option (BlockChain × UInt64) :=
  (mod.handleforSequentialRequest sh i decode s m).map fun s =>
    (s.leader.ledger.chain, s.sequenceID)

end HandleMod

/-! ### Blocks only -/

/-- The answer has only block requests. -/
def SendOldMessage.OnlyBlocks (m : SendOldMessage) : Prop :=
  ∀ r ∈ m.oldRequest, ∃ req, r = some req ∧ req.requestType = .block

variable {sh : Shards} {i : UInt64} {decode : Request → Option AccountTransferMsg}
  {m : SendOldMessage} {s : ReplicaState}

open HandleMod Node

/-- On a block all modules do the same. -/
theorem apply_block (mod : HandleMod) (l : Leader) {req : Request}
    (hblock : req.requestType = .block) :
    mod.apply sh i decode l (some req) = (addOldRequest l.ledger (some req)).map fun ledger =>
      { l with ledger := ledger } := by
  have hclpa : addOrTransfer sh i decode l (some req) =
      (addOldRequest l.ledger (some req)).map fun ledger => { l with ledger := ledger } := by
    simp only [addOrTransfer, addOldRequest, Option.bind_eq_bind, Option.bind_some, if_pos hblock]
    cases req.content with
    | none => rfl
    | some b =>
      simp only [Option.bind_some]
      cases l.ledger.addBlock b <;> rfl
  have hraw : addRequest l (some req) =
      (addOldRequest l.ledger (some req)).map fun ledger => { l with ledger := ledger } := by
    unfold addRequest
    cases addOldRequest l.ledger (some req) <;> rfl
  cases mod with
  | relay => exact hraw
  | broker => exact hraw
  | clpa => exact hclpa
  | clpaBroker => exact hclpa

theorem loop_blocks (hblocks : m.OnlyBlocks) (mod : HandleMod) (fuel : ℕ) (height : UInt64)
    (l : Leader) :
    sequentialLoop (mod.apply sh i decode) m fuel height l =
      (sequentialLoop addOldRequest m fuel height l.ledger).map fun ledger =>
        { l with ledger := ledger } := by
  induction fuel generalizing height l with
  | zero => rfl
  | succ fuel ih =>
    unfold sequentialLoop
    split_ifs with hle
    · cases hr : m.oldRequest[(height - m.seqStartHeight).toNat]? with
      | none => rfl
      | some r =>
        obtain ⟨req, rfl, hblock⟩ := hblocks r (List.mem_of_getElem? hr)
        simp only [Option.bind_eq_bind, Option.bind_some, apply_block mod l hblock]
        cases hadd : addOldRequest l.ledger (some req) with
        | none => rfl
        | some ledger =>
          simp only [Option.map_some, Option.bind_some]
          exact ih (height + 1) { l with ledger := ledger }
    · rfl

/-- **A handler on blocks**: its test, and the loop of the relay module. -/
theorem outcome_eq (hblocks : m.OnlyBlocks) (mod : HandleMod) :
    mod.outcome sh i decode s m =
      if mod.complete m = false then some (s.leader.ledger.chain, s.sequenceID)
      else (sequentialLoop addOldRequest m (m.oldRequest.length + 1) m.seqStartHeight
        s.leader.ledger).map fun ledger => (ledger.chain, m.seqEndHeight + 1) := by
  unfold HandleMod.outcome HandleMod.handleforSequentialRequest
  split_ifs with hcomplete
  · rfl
  · rw [loop_blocks hblocks]
    cases sequentialLoop addOldRequest m (m.oldRequest.length + 1) m.seqStartHeight
      s.leader.ledger <;> rfl

/-- The relay module here is the one of the node. -/
theorem outcome_relay (hblocks : m.OnlyBlocks) {n : Node} (hchain : n.curChain = s.leader.ledger)
    (hseq : n.sequenceID = s.sequenceID) :
    HandleMod.relay.outcome sh i decode s m =
      (n.handleforSequentialRequest m).map fun n => (n.curChain.chain, n.sequenceID) := by
  rw [outcome_eq hblocks, Node.handleforSequentialRequest, hchain]
  by_cases hcomplete : m.Complete
  · simp only [complete, hcomplete, decide_true, Bool.true_eq_false, if_false, not_true_eq_false]
    cases sequentialLoop addOldRequest m (m.oldRequest.length + 1) m.seqStartHeight
      s.leader.ledger <;> rfl
  · simp only [complete, hcomplete, decide_false, if_true, not_false_eq_true, Option.map_some,
      hchain, hseq]

/-! ### The two tests -/

/-- No answer passes both tests: the two differences add up to 1. -/
theorem not_complete_both (hcomplete : m.Complete) (hbroker : m.BrokerComplete) : False := by
  have hsum : UInt64.ofNat m.oldRequest.length + UInt64.ofNat m.oldRequest.length = 1 := by
    have h1 : m.seqEndHeight - m.seqStartHeight + 1 = _ := hcomplete
    have h2 : m.seqStartHeight - m.seqEndHeight = _ := hbroker
    grind
  have htoNat := congrArg UInt64.toNat hsum
  rw [UInt64.toNat_add, UInt64.toNat_one] at htoNat
  omega

/-- The loop runs into the end of the requests before it reaches `SeqEndHeight`. -/
theorem sequentialLoop_short {L : Type} {apply : L → Option Request → Option L}
    (hshort : m.seqStartHeight.toNat + m.oldRequest.length ≤ m.seqEndHeight.toNat) {k fuel : ℕ}
    (hk : k ≤ m.oldRequest.length) (l : L) :
    sequentialLoop apply m fuel (m.seqStartHeight + UInt64.ofNat k) l = none := by
  induction fuel generalizing k l with
  | zero => rfl
  | succ fuel ih =>
    have hend := m.seqEndHeight.toNat_lt
    have hle : m.seqStartHeight + UInt64.ofNat k ≤ m.seqEndHeight := by
      rw [UInt64.le_iff_toNat_le, toNat_height (by omega)]
      omega
    rw [sequentialLoop, if_pos hle, index_of_height _ (by omega), height_succ,
      Option.bind_eq_bind, Option.bind_eq_none_iff]
    intro r hr
    obtain ⟨hk', -⟩ := List.getElem?_eq_some_iff.mp hr
    rw [Option.bind_eq_bind, Option.bind_eq_none_iff]
    intro l' _
    exact ih hk' l'

/-- In the broker module an answer that passes the test is applied to no height, or panics. -/
theorem loop_brokerComplete (hbroker : m.BrokerComplete) (hlen : m.oldRequest.length < 2 ^ 63)
    (hle : m.seqStartHeight ≤ m.seqEndHeight) {L : Type} {apply : L → Option Request → Option L}
    (fuel : ℕ) (l : L) : sequentialLoop apply m fuel m.seqStartHeight l = none := by
  have hle' := UInt64.le_iff_toNat_le.mp hle
  have hend := m.seqEndHeight.toNat_lt
  have htoNat := congrArg UInt64.toNat
    (show m.seqStartHeight - m.seqEndHeight = UInt64.ofNat m.oldRequest.length from hbroker)
  rw [UInt64.toNat_sub, UInt64.toNat_ofNat',
    Nat.mod_eq_of_lt (show m.oldRequest.length < 2 ^ 64 by omega)] at htoNat
  have hshort : m.seqStartHeight.toNat + m.oldRequest.length ≤ m.seqEndHeight.toNat := by omega
  have hloop : sequentialLoop apply m fuel (m.seqStartHeight + UInt64.ofNat 0) l = none :=
    sequentialLoop_short hshort (Nat.zero_le _) l
  rwa [show UInt64.ofNat 0 = 0 from rfl, UInt64.add_zero] at hloop

/-! ### Chains that do not change -/

/-- `AddBlock` refuses the block of the request. -/
def Refused (bc : BlockChain) (r : Option Request) : Prop :=
  ∃ req b, r = some req ∧ req.content = some b ∧
    ¬ (b.header.number = bc.currentBlock.header.number + 1 ∧
      b.header.parentBlockHash = bc.currentBlock.hash)

theorem addOldRequest_cases {l l' : Ledger} {req : Request} (hblock : req.requestType = .block)
    (h : addOldRequest l (some req) = some l') :
    l' = l ∧ Refused l.chain (some req) ∨
      l'.chain.currentBlock.header.number = l.chain.currentBlock.header.number + 1 := by
  simp only [addOldRequest, Option.bind_eq_bind, Option.bind_some, if_pos hblock] at h
  obtain ⟨b, hb, h⟩ := Option.bind_eq_some_iff.mp h
  obtain ⟨⟨l₁, ok⟩, hadd, h⟩ := Option.bind_eq_some_iff.mp h
  cases h
  obtain ⟨chain, hchain, rfl⟩ := ledger_addBlock_cases hadd
  obtain ⟨rfl, -, hrefused⟩ | ⟨-, rfl, -, hnum, -⟩ := addBlock_cases hchain
  · exact .inl ⟨rfl, req, b, rfl, hb, hrefused⟩
  · exact .inr hnum

theorem addOldRequest_refused {l : Ledger} {req : Request} (hblock : req.requestType = .block)
    (h : Refused l.chain (some req)) : addOldRequest l (some req) = some l := by
  obtain ⟨req', b, hreq, hb, hrefused⟩ := h
  cases hreq
  have hchain : l.chain.addBlock b = (l.chain, false) := by
    unfold BlockChain.addBlock
    split_ifs with hnum hparent
    · rfl
    · rfl
    · exact absurd ⟨not_not.mp hnum, not_not.mp hparent⟩ hrefused
  have hadd : l.addBlock b = some (l, false) := by
    rw [Ledger.addBlock, Chain.addBlock, hchain]
    rfl
  simp only [addOldRequest, Option.bind_eq_bind, Option.bind_some, if_pos hblock, hb, hadd]

/-- The height of the chain counts the blocks that are accepted. -/
theorem foldlM_number {rs : List (Option Request)}
    (hblocks : ∀ r ∈ rs, ∃ req, r = some req ∧ req.requestType = .block) {l l' : Ledger}
    (h : rs.foldlM addOldRequest l = some l') :
    ∃ k ≤ rs.length, l'.chain.currentBlock.header.number =
        l.chain.currentBlock.header.number + UInt64.ofNat k ∧
      (k = 0 → ∀ r ∈ rs, Refused l.chain r) := by
  induction rs generalizing l with
  | nil =>
    cases h
    exact ⟨0, le_rfl, by simp, fun _ r hr => absurd hr List.not_mem_nil⟩
  | cons r rs ih =>
    obtain ⟨req, rfl, hblock⟩ := hblocks r List.mem_cons_self
    rw [List.foldlM_cons] at h
    obtain ⟨l₁, hone, hrest⟩ := Option.bind_eq_some_iff.mp h
    obtain ⟨k, hk, hnum, hrefused⟩ :=
      ih (fun r' hr' => hblocks r' (List.mem_cons_of_mem _ hr')) hrest
    rcases addOldRequest_cases hblock hone with ⟨rfl, hone⟩ | hone
    · refine ⟨k, Nat.le_succ_of_le hk, hnum, fun hzero r' hr' => ?_⟩
      rcases List.mem_cons.mp hr' with rfl | hr'
      · exact hone
      · exact hrefused hzero r' hr'
    · refine ⟨k + 1, Nat.succ_le_succ hk, ?_, fun hzero => absurd hzero (Nat.succ_ne_zero k)⟩
      rw [hnum, hone, UInt64.ofNat_add]
      grind

/-- **The chain stays** exactly when all blocks are refused. -/
theorem foldlM_unchanged_iff {rs : List (Option Request)} (hlen : rs.length < 2 ^ 64)
    (hblocks : ∀ r ∈ rs, ∃ req, r = some req ∧ req.requestType = .block) (l : Ledger) :
    (∃ l', rs.foldlM addOldRequest l = some l' ∧ l'.chain = l.chain) ↔
      ∀ r ∈ rs, Refused l.chain r := by
  constructor
  · rintro ⟨l', hfold, hchain⟩
    obtain ⟨k, hk, hnum, hrefused⟩ := foldlM_number hblocks hfold
    refine hrefused ?_
    have hzero : UInt64.ofNat k = 0 := by
      rw [hchain] at hnum
      grind
    have htoNat := congrArg UInt64.toNat hzero
    rw [UInt64.toNat_ofNat_of_lt' (show k < UInt64.size by show k < 2 ^ 64; omega)] at htoNat
    exact htoNat
  · intro hrefused
    refine ⟨l, ?_, rfl⟩
    induction rs with
    | nil => rfl
    | cons r rs ih =>
      obtain ⟨req, rfl, hblock⟩ := hblocks r List.mem_cons_self
      rw [List.foldlM_cons, addOldRequest_refused hblock (hrefused _ List.mem_cons_self)]
      rw [List.length_cons] at hlen
      exact ih (by omega) (fun r' hr' => hblocks r' (List.mem_cons_of_mem _ hr'))
        fun r' hr' => hrefused r' (List.mem_cons_of_mem _ hr')

/-! ### Agreement -/

/-- Neither test is passed, or what the answer does leaves the replica where it is: it ends right
before the sequence number and has no height, or only blocks that `AddBlock` refuses. -/
def Harmless (s : ReplicaState) (m : SendOldMessage) : Prop :=
  ¬ m.Complete ∧ ¬ m.BrokerComplete ∨
    m.seqEndHeight + 1 = s.sequenceID ∧ (m.seqEndHeight < m.seqStartHeight ∨
      m.Complete ∧ m.seqEndHeight.toNat < 2 ^ 64 - 1 ∧
        ∀ r ∈ m.oldRequest, Refused s.leader.ledger.chain r)

/-- A module whose test is passed leaves the replica as it was. -/
theorem loop_unchanged_iff (hblocks : m.OnlyBlocks) (hlen : m.oldRequest.length < 2 ^ 63)
    (htest : m.Complete ∨ m.BrokerComplete) :
    (sequentialLoop addOldRequest m (m.oldRequest.length + 1) m.seqStartHeight
        s.leader.ledger).map (fun ledger => (ledger.chain, m.seqEndHeight + 1)) =
      some (s.leader.ledger.chain, s.sequenceID) ↔
    m.seqEndHeight + 1 = s.sequenceID ∧ (m.seqEndHeight < m.seqStartHeight ∨
      m.Complete ∧ m.seqEndHeight.toNat < 2 ^ 64 - 1 ∧
        ∀ r ∈ m.oldRequest, Refused s.leader.ledger.chain r) := by
  by_cases hpast : m.seqEndHeight < m.seqStartHeight
  · rw [sequentialLoop_past hpast]
    simp [hpast]
  · have hle : m.seqStartHeight ≤ m.seqEndHeight := UInt64.not_lt.mp hpast
    have hend := m.seqEndHeight.toNat_lt
    by_cases hcomplete : m.Complete
    · by_cases hmax : m.seqEndHeight.toNat = 2 ^ 64 - 1
      · rw [sequentialLoop_max hmax]
        simp [hpast, hmax]
      · have hlt : m.seqEndHeight.toNat < 2 ^ 64 - 1 := by omega
        have hall : m.oldRequest.length ≤ m.seqEndHeight.toNat + 1 - m.seqStartHeight.toNat := by
          rw [← toNat_range hle hlt, show m.seqEndHeight - m.seqStartHeight + 1 = _ from hcomplete,
            UInt64.toNat_ofNat_of_lt' (show m.oldRequest.length < UInt64.size by
              show m.oldRequest.length < 2 ^ 64
              omega)]
        rw [sequentialLoop_complete hcomplete hle hlt, List.take_of_length_le hall,
          ← foldlM_unchanged_iff (by omega) hblocks s.leader.ledger]
        simp only [hpast, hcomplete, hlt, false_or, true_and, Option.map_eq_some_iff,
          Prod.mk.injEq]
        constructor
        · rintro ⟨l', hfold, hchain, hseq⟩
          exact ⟨hseq, l', hfold, hchain⟩
        · rintro ⟨hseq, l', hfold, hchain⟩
          exact ⟨l', hfold, hchain, hseq⟩
    · have hbroker := htest.resolve_left hcomplete
      rw [loop_brokerComplete hbroker hlen hle]
      simp [hpast, hcomplete]

/-- **The four catch-up handlers** leave the same chain and the same sequence number for exactly
those answers that are harmless: no answer passes the test of the broker module and that of the
others, so that one of them does nothing. -/
theorem catch_up_agree_iff (sh : Shards) (i : UInt64)
    (decode : Request → Option AccountTransferMsg) (s : ReplicaState) {m : SendOldMessage}
    (hblocks : m.OnlyBlocks) (hlen : m.oldRequest.length < 2 ^ 63) :
    (∀ a b : HandleMod, a.outcome sh i decode s m = b.outcome sh i decode s m) ↔
      Harmless s m := by
  have hothers : (∀ a b : HandleMod, a.outcome sh i decode s m = b.outcome sh i decode s m) ↔
      HandleMod.relay.outcome sh i decode s m = HandleMod.broker.outcome sh i decode s m := by
    constructor
    · exact fun h => h .relay .broker
    · intro h
      have hrelay : ∀ a : HandleMod, a.outcome sh i decode s m =
          HandleMod.relay.outcome sh i decode s m := by
        intro a
        cases a with
        | relay => rfl
        | broker => exact h.symm
        | clpa => rw [outcome_eq hblocks, outcome_eq hblocks]; rfl
        | clpaBroker => rw [outcome_eq hblocks, outcome_eq hblocks]; rfl
      exact fun a b => (hrelay a).trans (hrelay b).symm
  rw [hothers, outcome_eq hblocks, outcome_eq hblocks, Harmless]
  by_cases hcomplete : m.Complete
  · have hbroker : ¬ m.BrokerComplete := not_complete_both hcomplete
    rw [← loop_unchanged_iff hblocks hlen (.inl hcomplete)]
    simp [complete, hcomplete, hbroker]
  · by_cases hbroker : m.BrokerComplete
    · rw [← loop_unchanged_iff hblocks hlen (.inr hbroker), eq_comm]
      simp [complete, hcomplete, hbroker]
    · simp [complete, hcomplete, hbroker]

/-- A replica at the genesis block. -/
def genesisReplica : ReplicaState := ⟨⟨shortLedger, none, [], 0, ∅, [], ∅, false⟩, 1⟩

/-- A request with the block over the genesis block. -/
def firstRequest : Option Request :=
  some ⟨.block, some (shortLedger.successor shortConfig shortLedger.root [] 0 0), 0⟩

/-- Two of the three requests are missing. -/
theorem catch_up_agree_incomplete :
    Harmless genesisReplica ⟨1, 3, [firstRequest]⟩ ∧ ∀ a b : HandleMod,
      a.outcome Clpa.shortShards 0 (fun _ => none) genesisReplica ⟨1, 3, [firstRequest]⟩ =
        b.outcome Clpa.shortShards 0 (fun _ => none) genesisReplica ⟨1, 3, [firstRequest]⟩ := by
  have hblocks : SendOldMessage.OnlyBlocks ⟨1, 3, [firstRequest]⟩ := by
    intro r hr
    exact ⟨_, List.mem_singleton.mp hr, rfl⟩
  have hharmless : Harmless genesisReplica ⟨1, 3, [firstRequest]⟩ :=
    .inl ⟨by decide, by decide⟩
  exact ⟨hharmless, (catch_up_agree_iff Clpa.shortShards 0 (fun _ => none) genesisReplica hblocks
    (by decide)).mpr hharmless⟩

/-- The answer to a request for height 1 has the block that extends the head: the relay module
appends it, the broker module does not. -/
theorem broker_ignores_answer :
    SendOldMessage.OnlyBlocks ⟨1, 1, [firstRequest]⟩ ∧
    ((HandleMod.relay.outcome Clpa.shortShards 0 (fun _ => none) genesisReplica
      ⟨1, 1, [firstRequest]⟩).map fun o => (o.1.currentBlock.header.number, o.2)) =
        some (1, 2) ∧
    ((HandleMod.broker.outcome Clpa.shortShards 0 (fun _ => none) genesisReplica
      ⟨1, 1, [firstRequest]⟩).map fun o => (o.1.currentBlock.header.number, o.2)) =
        some (0, 1) := by
  refine ⟨?_, by decide +kernel, by decide +kernel⟩
  intro r hr
  exact ⟨_, List.mem_singleton.mp hr, rfl⟩

/-- An answer without requests passes the test of the broker module when the range is one height,
and the handler then reads the request that is not there. -/
example : HandleMod.broker.outcome Clpa.shortShards 0 (fun _ => none) genesisReplica ⟨1, 1, []⟩ =
    none := rfl

end Aster.Pbft
