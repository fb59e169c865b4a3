import Aster.Pbft.Chains

/-!
# The sequence number and the chain

`sequenceID` is counted up at the end of a round whether or not `AddBlock` took the block, and a
catch-up answer sets it whatever blocks came with it.  It stays one ahead of the number of
`CurrentBlock` as long as a commit that is executed is for the present sequence number, and a
catch-up answer is complete and joins on to it.  The range that `handleCommit` requests starts one
block too late for this.

* `number_at`: the number of a proposed block is its position.
* `addOld_place`: what the blocks of an answer do to the chain.
* **`sequenceID_eq`**: the sequence number along a run.
-/

namespace Aster.Pbft

open Aster.Core Aster.Chain Aster.Lib.Transition Aster.Lib.ParentChain Node

variable {cfg : PbftConfig} {s s' : Cluster}

/-- No two blocks share their hash, no two requests their digest, and there are fewer blocks than
numbers. -/
structure Clean (cfg : PbftConfig) (s : Cluster) : Prop where
  blocks : CollisionFree cfg s
  digests : ∀ m ∈ proposals s.sent, ∀ m' ∈ proposals s.sent,
    m.digest = m'.digest → m.requestMsg = m'.requestMsg
  heights : (proposals s.sent).length + 1 < 2 ^ 64

theorem Clean.of_append {nodes nodes' : ℕ → Node} {sent out : List Packet}
    (h : Clean cfg ⟨nodes', sent ++ out⟩) : Clean cfg ⟨nodes, sent⟩ := by
  have happ : proposals (sent ++ out) = proposals sent ++ proposals out :=
    List.filterMap_append
  constructor
  case blocks => exact h.blocks.of_append
  case digests =>
    intro m hm m' hm'
    refine h.digests m ?_ m' ?_
    · show m ∈ proposals (sent ++ out)
      rw [happ]
      exact List.mem_append_left _ hm
    · show m' ∈ proposals (sent ++ out)
      rw [happ]
      exact List.mem_append_left _ hm'
  case heights =>
    have hlong : (proposals (sent ++ out)).length + 1 < 2 ^ 64 := h.heights
    rw [happ, List.length_append] at hlong
    show (proposals sent).length + 1 < 2 ^ 64
    omega

/-- A proposal carries the number of its block as `SeqID`. -/
def Numbers (s : Cluster) : Prop :=
  ∀ m ∈ proposals s.sent, ∀ b, m.block = some b → m.seqID = b.header.number

/-- The sequence number is one ahead of the chain. -/
def InStep (n : Node) : Prop :=
  n.sequenceID = n.curChain.chain.currentBlock.header.number + 1

/-! ### Positions and numbers -/

theorem number_at (h : Aligned cfg s) {i : ℕ} {a : Block}
    (ha : (genesis cfg :: proposedBlocks s.sent)[i]? = some a) :
    a.header.number = UInt64.ofNat i := by
  induction i generalizing a with
  | zero =>
    cases ha
    rfl
  | succ i ih =>
    obtain ⟨c, hc, -, -⟩ := h.spine.below ha
    rw [h.numbers i c a hc ha, ih hc, UInt64.ofNat_add]
    rfl

/-- The request that is filed under a height stands at this height. -/
theorem request_at (h : Aligned cfg s) (hclean : Clean cfg s) (hnum : Numbers s) {q : UInt64}
    {r : Option Request} (hr : ∃ q', Proposed s.sent q' r)
    (hfiled : Filed cfg (Proposed s.sent) q (cfg.getDigest r)) :
    ∃ j b now, r = some ⟨.block, some b, now⟩ ∧ (proposedBlocks s.sent)[j]? = some b ∧
      q = UInt64.ofNat (j + 1) ∧ j + 1 < 2 ^ 64 := by
  obtain ⟨r', ⟨m', hm', hq, hr'⟩, hdigest⟩ := hfiled
  obtain ⟨-, m, hm, -, hmr⟩ := hr
  have hsame : r = r' := by
    rw [← hmr, ← hr']
    refine hclean.digests m hm m' hm' ?_
    rw [(h.formed m hm).1, (h.formed m' hm').1, hmr, hr', hdigest]
  obtain ⟨-, b, now, hb⟩ := h.formed m' hm'
  obtain ⟨j, hj⟩ := List.mem_iff_getElem?.mp hm'
  have hblock : m'.block = some b := by
    rw [PrePrepare.block, hb]
    rfl
  have hat : (proposedBlocks s.sent)[j]? = some b := by
    rw [h.block_at, hj, Option.bind_some, hblock]
  obtain ⟨hlt, -⟩ := List.getElem?_eq_some_iff.mp hj
  have hheights := hclean.heights
  refine ⟨j, b, now, ?_, hat, ?_, by omega⟩
  · rw [hsame, ← hr', hb]
  · rw [← hq, hnum m' hm' b hblock]
    exact number_at h (i := j + 1) hat

/-! ### Adding blocks at a position -/

/-- A block further down is refused. -/
theorem OnSpine.addBlock_below {l l' : Ledger} {ok : Bool} {j k : ℕ} {b : Block}
    (h : Aligned cfg s) (hk : OnSpine (genesis cfg) (proposedBlocks s.sent) l.chain k)
    (hb : (proposedBlocks s.sent)[j]? = some b) (hjk : j < k)
    (hadd : l.addBlock b = some (l', ok)) :
    OnSpine (genesis cfg) (proposedBlocks s.sent) l'.chain k := by
  obtain ⟨chain, hchain, rfl⟩ := ledger_addBlock_cases hadd
  rcases addBlock_cases hchain with ⟨rfl, -, -⟩ | ⟨-, -, -, -, hparent⟩
  · exact hk
  · -- its parent would be the top, and it would stand above it
    have hne : l.chain.currentBlock.hash ≠ parentHash (genesis cfg) := ne_nil_of_validKey hk.key
    have hnext := h.spine.next_unique hk.top hne
      (List.mem_cons_of_mem _ (List.mem_of_getElem? hb)) hparent
    have hjk' : j + 1 = k + 1 := h.spine.index_unique (i := j + 1) (j := k + 1) hb hnext
    omega

/-- The blocks from position `j` on, where `j` is not above the top: the chain ends behind the
last of them. -/
theorem addOld_place (h : Aligned cfg s) {l l' : Ledger} (rs : List (Option Request)) {j k : ℕ}
    (hk : OnSpine (genesis cfg) (proposedBlocks s.sent) l.chain k) (hjk : j ≤ k)
    (hlen : k ≤ j + rs.length)
    (hrs : ∀ (i : ℕ) (r : Option Request), rs[i]? = some r → ∃ b now,
      r = some ⟨.block, some b, now⟩ ∧ (proposedBlocks s.sent)[j + i]? = some b)
    (hadd : addOld l rs = some l') :
    OnSpine (genesis cfg) (proposedBlocks s.sent) l'.chain (j + rs.length) := by
  induction rs generalizing l j k with
  | nil =>
    cases hadd
    have hjk' : k = j := by
      rw [List.length_nil] at hlen
      omega
    rw [List.length_nil, Nat.add_zero, ← hjk']
    exact hk
  | cons r rs ih =>
    obtain ⟨b, now, rfl, hb⟩ := hrs 0 r rfl
    rw [Nat.add_zero] at hb
    have hrest : ∀ (i : ℕ) (r : Option Request), rs[i]? = some r → ∃ b now,
        r = some ⟨.block, some b, now⟩ ∧ (proposedBlocks s.sent)[j + 1 + i]? = some b := by
      intro i r hr
      rw [show j + 1 + i = j + (i + 1) by omega]
      exact hrs (i + 1) r hr
    simp only [addOld, addOldRequest, Option.bind_eq_bind, Option.bind_some, if_true,
      Option.bind_assoc] at hadd
    obtain ⟨⟨l₁, ok⟩, hone, hadd⟩ := Option.bind_eq_some_iff.mp hadd
    rw [List.length_cons] at hlen ⊢
    rw [show j + (rs.length + 1) = j + 1 + rs.length by omega]
    by_cases heq : j = k
    · subst heq
      exact ih (OnSpine.addBlock_next h hk hb hone) le_rfl (by omega) hrest hadd
    · have hlt : j < k := by omega
      exact ih (OnSpine.addBlock_below h hk hb hlt hone) hlt (by omega) hrest hadd

/-! ### What moves do to the sequence number -/

/-- Neither the chain nor the sequence number changes. -/
structure Steady (n n' : Node) : Prop where
  chain : n'.curChain.chain = n.curChain.chain
  sequence : n'.sequenceID = n.sequenceID

theorem Steady.inStep {n n' : Node} (h : Steady n n') (hn : InStep n) : InStep n' := by
  rw [InStep, h.sequence, h.chain]
  exact hn

section Steady

variable {n n' : Node} {out : List Packet}

theorem Steady.refl (n : Node) : Steady n n := ⟨rfl, rfl⟩

theorem Steady.crash (n : Node) : Steady n n.crash := ⟨rfl, rfl⟩

theorem steady_handlePrePrepare {m : PrePrepare} (h : n.handlePrePrepare cfg m = (n', out)) :
    Steady n n' := by
  rcases handlePrePrepare_cases h with ⟨rfl, -⟩ | ⟨rfl, -⟩ | ⟨-, rfl, -⟩
  · exact .refl n'
  · exact .crash n
  · exact ⟨rfl, rfl⟩

theorem steady_handlePrepare {v : Vote} (h : n.handlePrepare cfg v = (n', out)) :
    Steady n n' := by
  rcases handlePrepare_cases h with ⟨rfl, -⟩ | ⟨rfl, -⟩ | ⟨-, -, rfl, -⟩
  · exact .refl n'
  · exact ⟨rfl, rfl⟩
  · exact ⟨rfl, rfl⟩

theorem steady_askFor {seqEnd : UInt64} (h : n.askFor seqEnd = (n', out)) : Steady n n' := by
  rcases askFor_cases h with ⟨-, rfl, -⟩ | ⟨-, rfl, -⟩
  · exact ⟨rfl, rfl⟩
  · obtain ⟨-, -, hchain, hseq⟩ := unlockSequence_same
      { n with askForLock := true, status := .running }
    exact ⟨congrArg Ledger.chain hchain, hseq⟩

theorem steady_handleRequestOldSeq {m : RequestOldMessage}
    (h : n.handleRequestOldSeq m = (n', out)) : Steady n n' := by
  rcases handleRequestOldSeq_cases h with ⟨rfl, -⟩ | ⟨-, rfl, -⟩ | ⟨j, -, rfl, -⟩
  · exact .refl n'
  · exact .crash n
  · exact .refl n'

/-- This commit makes the node execute a request. -/
def executes (cfg : PbftConfig) (n : Node) (v : Vote) : Prop :=
  v.sender ≠ none ∧ 2 * cfg.f ≤ (addKey (n.cntCommitConfirm v.digest) v.sender).length ∧
    v.digest ∉ n.isReply ∧ v.digest ∈ n.requestPool

theorem steady_or_execute {v : Vote} (h : n.handleCommit cfg v = (n', out)) :
    Steady n n' ∨ ∃ r, executes cfg n v ∧ n.requestPool.lookup v.digest = some r ∧
      n' = (n.voteCommit v).execute cfg v r := by
  rcases handleCommit_cases h with ⟨-, rfl, -⟩ | ⟨hsender, hcounted⟩
  · exact .inl (.crash n)
  · rcases hcounted with ⟨rfl, -⟩ | ⟨henough, hfirst, ⟨-, hask⟩ | ⟨r, hr, rfl, -⟩⟩
    · exact .inl ⟨rfl, rfl⟩
    · have hasked := steady_askFor hask
      exact .inl ⟨hasked.chain, hasked.sequence⟩
    · have hmem : v.digest ∈ n.requestPool := Finmap.mem_of_lookup_eq_some hr
      exact .inr ⟨r, ⟨hsender, henough, hfirst, hmem⟩, hr, rfl⟩

theorem storeOld_curChain (rs : List (Option Request)) (height : UInt64) :
    (storeOld cfg n rs height).curChain = n.curChain := by
  induction rs generalizing n height with
  | nil => rfl
  | cons r rs ih =>
    rw [storeOld, ih]
    rfl

/-- A catch-up answer sets the sequence number behind its end. -/
theorem catchUp_sequence {m : SendOldMessage} (h : n.handleSendOldSeq cfg m = (n', out)) :
    n'.status = .crashed ∨ ∃ n₁, n.handleforSequentialRequest m = some n₁ ∧
      n'.curChain = n₁.curChain ∧ n'.sequenceID = m.seqEndHeight + 1 := by
  rcases handleSendOldSeq_cases h with ⟨rfl, -⟩ | ⟨n₁, hseq, ⟨rfl, -⟩ | ⟨n₂, hnext, hlast⟩⟩
  · exact .inl rfl
  · exact .inl rfl
  · have hprepared : n₂.curChain = (n₁.afterOld cfg m).curChain ∧
        n₂.sequenceID = (n₁.afterOld cfg m).sequenceID := by
      rcases prepareNext_cases hnext with ⟨rfl, -⟩ | ⟨d, r, flag, -, -, hin, -⟩
      · exact ⟨rfl, rfl⟩
      · rcases handleinPrePrepare_cases hin with rfl | rfl
        · exact ⟨rfl, rfl⟩
        · exact ⟨rfl, rfl⟩
    have hledger : n₂.curChain = n₁.curChain := hprepared.1.trans (storeOld_curChain _ _)
    rcases hlast with rfl | rfl
    · exact .inr ⟨n₁, hseq, hledger, hprepared.2⟩
    · exact .inl rfl

end Steady

/-! ### Runs that keep in step -/

/-- A commit that is executed is for the present sequence number.  A catch-up answer has all the
requests of its range, which begins at or below the sequence number and ends at or above the block
before it. -/
def JoinsOn (cfg : PbftConfig) (s : Cluster) (l : ClusterMove) : Prop :=
  match l.move with
  | .handle (.commit v) => executes cfg (s.nodes l.node) v →
      v.seqID = (s.nodes l.node).sequenceID
  | .handle (.sendOld m) =>
      m.seqStartHeight.toNat + m.oldRequest.length = m.seqEndHeight.toNat + 1 ∧
      m.seqStartHeight ≤ (s.nodes l.node).sequenceID ∧
      (s.nodes l.node).sequenceID.toNat ≤ m.seqEndHeight.toNat + 1
  | _ => True

/-- The place of a node that is in step, by its sequence number. -/
theorem place_of_inStep (h : Aligned cfg s) (hclean : Clean cfg s) {i : ℕ}
    (hstep : InStep (s.nodes i)) :
    ∃ k, OnSpine (genesis cfg) (proposedBlocks s.sent) (s.nodes i).curChain.chain k ∧
      (s.nodes i).sequenceID.toNat = k + 1 ∧ k + 1 < 2 ^ 64 := by
  obtain ⟨k, hk⟩ := h.placed i
  have hle := hk.le
  rw [h.length_blocks] at hle
  have hheights := hclean.heights
  have hlt : k + 1 < 2 ^ 64 := by omega
  refine ⟨k, hk, ?_, hlt⟩
  have hseq : (s.nodes i).sequenceID = UInt64.ofNat (k + 1) := by
    rw [show (s.nodes i).sequenceID = _ from hstep, number_at h hk.top, UInt64.ofNat_add]
    rfl
  rw [hseq, UInt64.toNat_ofNat_of_lt' hlt]

/-- A node that ends at position `k` with the number after it. -/
theorem inStep_of_place (h : Aligned cfg s) {n : Node} {k : ℕ}
    (hk : OnSpine (genesis cfg) (proposedBlocks s.sent) n.curChain.chain k)
    (hseq : n.sequenceID = UInt64.ofNat k + 1) : InStep n := by
  rw [InStep, hseq, number_at h hk.top]

/-- The executed block is the next one. -/
theorem inStep_execute (h : Aligned cfg s) (hclean : Clean cfg s) (hnum : Numbers s) {i : ℕ}
    {v : Vote} {r : Option Request} (hstep : InStep (s.nodes i))
    (hv : Filed cfg (Proposed s.sent) v.seqID v.digest)
    (hr : (s.nodes i).requestPool.lookup v.digest = some r)
    (hseq : v.seqID = (s.nodes i).sequenceID)
    (hcrash : (((s.nodes i).voteCommit v).execute cfg v r).status ≠ .crashed) :
    InStep (((s.nodes i).voteCommit v).execute cfg v r) := by
  obtain ⟨hdigest, hproposed⟩ := (h.known i).pool _ r hr
  rw [hdigest] at hv
  obtain ⟨j, b, now, hrb, hb, hq, hj⟩ := request_at h hclean hnum hproposed hv
  obtain ⟨k, hk, hkseq, hklt⟩ := place_of_inStep h hclean hstep
  have hjk : j = k := by
    have hnat := congrArg UInt64.toNat (hq.symm.trans hseq)
    rw [UInt64.toNat_ofNat_of_lt' hj, hkseq] at hnat
    omega
  subst hjk
  rcases execute_cases cfg ((s.nodes i).voteCommit v) v r with
    heq | ⟨req, b', ledger, ok, hreq, hb', hadd, heq | heq⟩
  · rw [heq] at hcrash
    exact absurd rfl hcrash
  · rw [heq] at hcrash
    exact absurd rfl hcrash
  · have hbb : b' = b := by
      rw [hrb] at hreq
      cases hreq
      exact (Option.some.inj hb').symm
    subst hbb
    have hplace := OnSpine.addBlock_next h hk hb hadd
    obtain ⟨-, -, hchain, hsequence⟩ :=
      unlockSequence_same (((s.nodes i).voteCommit v).afterRound v ledger)
    rw [heq]
    refine inStep_of_place h (k := j + 1) ?_ ?_
    · rw [hchain]
      exact hplace
    · rw [hsequence]
      show (s.nodes i).sequenceID + 1 = UInt64.ofNat (j + 1) + 1
      rw [← hseq, hq]

theorem sub_add_one_eq {a b : UInt64} {n : ℕ} (h : a.toNat + n = b.toNat + 1) :
    b - a + 1 = UInt64.ofNat n := by
  have hsum : a + UInt64.ofNat n = b + 1 := by
    apply UInt64.toNat_inj.mp
    rw [UInt64.toNat_add, UInt64.toNat_add, UInt64.toNat_ofNat', UInt64.toNat_one,
      Nat.add_mod_mod, h]
  grind

/-- The requests of a complete answer are the proposals of its range. -/
theorem answer_at (h : Aligned cfg s) (hclean : Clean cfg s) (hnum : Numbers s)
    {m : SendOldMessage} (hm : KnownOld cfg (Proposed s.sent) m.seqStartHeight m.oldRequest)
    (hfull : m.seqStartHeight.toNat + m.oldRequest.length = m.seqEndHeight.toNat + 1)
    {i : ℕ} {r : Option Request} (hr : m.oldRequest[i]? = some r) :
    ∃ j b now, m.seqStartHeight.toNat + i = j + 1 ∧ r = some ⟨.block, some b, now⟩ ∧
      (proposedBlocks s.sent)[j]? = some b := by
  obtain ⟨hproposed, hfiled⟩ := hm i r hr
  obtain ⟨j, b, now, hrb, hb, hq, hj⟩ := request_at h hclean hnum hproposed hfiled
  obtain ⟨hi, -⟩ := List.getElem?_eq_some_iff.mp hr
  have hend := m.seqEndHeight.toNat_lt
  refine ⟨j, b, now, ?_, hrb, hb⟩
  -- inside the range the heights do not wrap around
  have hnat := congrArg UInt64.toNat hq
  rw [UInt64.toNat_add, UInt64.toNat_ofNat', Nat.add_mod_mod,
    Nat.mod_eq_of_lt (by omega), UInt64.toNat_ofNat_of_lt' hj] at hnat
  exact hnat

/-- After a complete answer that joins on, the chain ends where the answer ends. -/
theorem place_catchUp (h : Aligned cfg s) (hclean : Clean cfg s) (hnum : Numbers s) {i : ℕ}
    {m : SendOldMessage} {n₁ : Node} (hstep : InStep (s.nodes i))
    (hm : KnownOld cfg (Proposed s.sent) m.seqStartHeight m.oldRequest)
    (hfull : m.seqStartHeight.toNat + m.oldRequest.length = m.seqEndHeight.toNat + 1)
    (hstart : m.seqStartHeight ≤ (s.nodes i).sequenceID)
    (hend : (s.nodes i).sequenceID.toNat ≤ m.seqEndHeight.toNat + 1)
    (hres : (s.nodes i).handleforSequentialRequest m = some n₁) :
    OnSpine (genesis cfg) (proposedBlocks s.sent) n₁.curChain.chain m.seqEndHeight.toNat := by
  obtain ⟨k, hk, hkseq, -⟩ := place_of_inStep h hclean hstep
  rw [UInt64.le_iff_toNat_le, hkseq] at hstart
  rw [hkseq] at hend
  have hcomplete : m.Complete := sub_add_one_eq hfull
  rw [handleforSequentialRequest, if_neg (not_not.mpr hcomplete)] at hres
  by_cases hempty : m.oldRequest = []
  · -- the range is empty, right behind the chain
    rw [hempty, List.length_nil, Nat.add_zero] at hfull
    have hpast : m.seqEndHeight < m.seqStartHeight := by
      rw [UInt64.lt_iff_toNat_lt]
      omega
    have hkend : m.seqEndHeight.toNat = k := by omega
    rw [sequentialLoop_past hpast] at hres
    cases hres
    rw [hkend]
    exact hk
  · have hpos : 0 < m.oldRequest.length := List.length_pos_iff.mpr hempty
    have hle : m.seqStartHeight ≤ m.seqEndHeight := by
      rw [UInt64.le_iff_toNat_le]
      omega
    obtain ⟨ledger, hadd, hres⟩ := Option.bind_eq_some_iff.mp hres
    cases hres
    have hlast := m.seqEndHeight.toNat_lt
    by_cases hmax : m.seqEndHeight.toNat = 2 ^ 64 - 1
    · rw [sequentialLoop_max hmax] at hadd
      cases hadd
    rw [sequentialLoop_complete hcomplete hle (by omega), foldlM_addOldRequest,
      List.take_of_length_le (by omega)] at hadd
    obtain ⟨j, b, now, hj, -, -⟩ :=
      answer_at h hclean hnum hm hfull (List.getElem?_eq_getElem hpos)
    have hlast : j + m.oldRequest.length = m.seqEndHeight.toNat := by omega
    rw [← hlast]
    refine addOld_place h m.oldRequest hk (by omega) (by omega) ?_ hadd
    intro i' r hr
    obtain ⟨j', b', now', hj', hr', hb'⟩ := answer_at h hclean hnum hm hfull hr
    refine ⟨b', now', hr', ?_⟩
    rw [show j + i' = j' by omega]
    exact hb'

theorem inStep_sendOld (h : Aligned cfg s) (hclean : Clean cfg s) (hnum : Numbers s) {i : ℕ}
    {m : SendOldMessage} {n' : Node} {out : List Packet} (hstep : InStep (s.nodes i))
    (hm : KnownOld cfg (Proposed s.sent) m.seqStartHeight m.oldRequest)
    (hg : JoinsOn cfg s ⟨i, .handle (.sendOld m)⟩)
    (hres : (s.nodes i).handleSendOldSeq cfg m = (n', out)) (hcrash : n'.status ≠ .crashed) :
    InStep n' := by
  obtain ⟨hfull, hstart, hend⟩ := hg
  rcases catchUp_sequence hres with hcrashed | ⟨n₁, hseq, hchain, hsequence⟩
  · exact absurd hcrashed hcrash
  · have hplace := place_catchUp h hclean hnum hstep hm hfull hstart hend hseq
    refine inStep_of_place h (k := m.seqEndHeight.toNat) ?_ ?_
    · rw [hchain]
      exact hplace
    · rw [hsequence, UInt64.ofNat_toNat]

/-- What keeps the sequence number in step along a run. -/
structure Tracked (s : Cluster) : Prop where
  numbers : Numbers s
  steps : ∀ i, (s.nodes i).status ≠ .crashed → InStep (s.nodes i)

/-- A message is handled. -/
theorem inStep_handle (h : Aligned cfg s) (hclean : Clean cfg s) (htrack : Tracked s) {i : ℕ}
    {m : Msg} {n' : Node} {out : List Packet} (hg : JoinsOn cfg s ⟨i, .handle m⟩)
    (hm : m.Known cfg (Proposed s.sent)) (hrun : (s.nodes i).status = .running)
    (hres : (s.nodes i).handle cfg m = (n', out)) (hcrash : n'.status ≠ .crashed) :
    InStep n' := by
  have hstep : InStep (s.nodes i) := by
    refine htrack.steps i ?_
    rw [hrun]
    decide
  cases m with
  | prePrepare m => exact (steady_handlePrePrepare hres).inStep hstep
  | prepare v => exact (steady_handlePrepare hres).inStep hstep
  | commit v =>
    rcases steady_or_execute hres with hsteady | ⟨r, hexec, hr, rfl⟩
    · exact hsteady.inStep hstep
    · exact inStep_execute h hclean htrack.numbers hstep hm hr (hg hexec) hcrash
  | requestOld m => exact (steady_handleRequestOldSeq hres).inStep hstep
  | sendOld m => exact inStep_sendOld h hclean htrack.numbers hstep hm hg hres hcrash
  | stop =>
    cases hres
    exact Steady.inStep ⟨rfl, rfl⟩ hstep
  | outside addsTxs =>
    obtain ⟨rfl | rfl, -⟩ := outside_cases hres
    · exact hstep
    · exact (Steady.crash _).inStep hstep

/-- One move of a node, and what it proposes. -/
theorem inStep_move (h : Aligned cfg s) (hclean : Clean cfg s) (htrack : Tracked s)
    {l : ClusterMove} {n' : Node} {out : List Packet} (hg : JoinsOn cfg s l)
    (henabled : s.enabled ∅ l.node l.move = true)
    (hmove : (s.nodes l.node).move cfg l.move = some (n', out)) :
    (n'.status ≠ .crashed → InStep n') ∧
      ∀ m ∈ proposals out, ∀ b, m.block = some b → m.seqID = b.header.number := by
  have hquiet : ∀ {out : List Packet}, (∀ pk ∈ out, pk.proposal = none) →
      ∀ m ∈ proposals out, ∀ b, m.block = some b → m.seqID = b.header.number := by
    intro out hnone m hm
    rw [proposals, List.filterMap_eq_nil_iff.mpr hnone] at hm
    cases hm
  obtain ⟨i, mv⟩ := l
  cases mv with
  | handle m =>
    obtain ⟨hrun, hres⟩ := move_handle hmove
    obtain ⟨hknown, hsend⟩ := h.message_known henabled
    have hnode : (s.nodes i).nodeID = view → i = view := fun hv => (h.ids i).symm.trans hv
    refine ⟨inStep_handle h hclean htrack hg hknown hrun hres, hquiet ?_⟩
    have hhonest := handle_known (h.known i) hknown (fun hv => hsend (hnode hv))
      (fun hv v hmv => by
        obtain rfl := hnode hv
        subst hmv
        exact h.commit_mem hknown) hres
    exact fun pk hpk => (hhonest.packets pk hpk).2
  | resume =>
    obtain ⟨seqEnd, hask, -, hres⟩ := move_resume hmove
    have hi : (s.nodes i).nodeID ≠ view := by
      intro hv
      obtain rfl : i = view := (h.ids i).symm.trans hv
      exact h.leader.asks seqEnd hask
    refine ⟨fun _ => (steady_askFor hres).inStep (htrack.steps i ?_), hquiet ?_⟩
    · rw [hask]
      exact fun hcrash => by cases hcrash
    · exact fun pk hpk => ((askFor_known (h.known i) hi hres).packets pk hpk).2
  | propose now =>
    obtain ⟨hmain, hcrash, hcases⟩ := propose_cases hmove
    have hstep := htrack.steps i hcrash
    rcases hcases with ⟨-, -, rfl, rfl⟩ | ⟨-, -, rfl, rfl⟩ | ⟨-, hlock, hblock⟩
    · exact ⟨fun _ => Steady.inStep ⟨rfl, rfl⟩ hstep, fun m hm => by cases hm⟩
    · exact ⟨fun _ => Steady.inStep ⟨rfl, rfl⟩ hstep, fun m hm => by cases hm⟩
    · rcases proposeBlock_cases hblock with ⟨rfl, rfl⟩ | ⟨b, ledger, hledger, -, hnum, rfl, rfl⟩
      · exact ⟨fun hnot => absurd rfl hnot, fun m hm => by cases hm⟩
      · refine ⟨fun _ => Steady.inStep ⟨hledger, rfl⟩ hstep, ?_⟩
        intro m hm b' hb'
        obtain rfl := List.mem_singleton.mp hm
        cases hb'
        rw [hnum]
        exact hstep
  | fill txs =>
    obtain ⟨rfl, rfl⟩ := move_fill hmove
    exact ⟨fun hnot => Steady.inStep ⟨rfl, rfl⟩ (htrack.steps i hnot), fun m hm => by cases hm⟩

theorem tracked_of_run (h : Reach (clusterStep cfg ∅) (JoinsOn cfg) (ShardStart cfg) s)
    (hclean : Clean cfg s) : Tracked s := by
  induction h with
  | @start s hs =>
    obtain ⟨hsent, l, hl, hnodes⟩ := hs
    constructor
    case numbers =>
      intro m hm
      rw [hsent] at hm
      cases hm
    case steps =>
      intro i _
      rw [hnodes i]
      exact rfl
  | @next s s' l hreach hg hstep ih =>
    obtain ⟨n', out, hmove, -, henabled, rfl⟩ := clusterStep_cases hstep
    have hclean' : Clean cfg s := hclean.of_append
    have htrack := ih hclean'
    have halign := aligned_of_run hreach hclean'.blocks
    obtain ⟨hnode, hout⟩ := inStep_move halign hclean' htrack hg henabled hmove
    constructor
    case numbers =>
      intro m hm
      have happ : proposals (s.sent ++ out) = proposals s.sent ++ proposals out :=
        List.filterMap_append
      rcases List.mem_append.mp (happ ▸ hm) with hold | hnew
      · exact htrack.numbers m hold
      · exact hout m hnew
    case steps =>
      intro j
      show (Function.update s.nodes l.node n' j).status ≠ .crashed →
        InStep (Function.update s.nodes l.node n' j)
      by_cases hj : j = l.node
      · rw [hj, Function.update_self]
        exact hnode
      · rw [Function.update_of_ne hj]
        exact htrack.steps j

/-- **The sequence number tracks the chain.**  In every run in which all nodes follow the protocol,
executed commits are for the present sequence number and catch-up answers are complete and join
on, every node that has not panicked has the number of `CurrentBlock` plus one. -/
theorem sequenceID_eq (h : Reach (clusterStep cfg ∅) (JoinsOn cfg) (ShardStart cfg) s)
    (hclean : Clean cfg s) (i : ℕ) (hcrash : (s.nodes i).status ≠ .crashed) :
    (s.nodes i).sequenceID = (s.nodes i).curChain.chain.currentBlock.header.number + 1 :=
  (tracked_of_run h hclean).steps i hcrash

/-! ### A node that misses a proposal -/

instance (n : Node) (v : Vote) : Decidable (executes cfg n v) := inferInstanceAs (Decidable (_ ∧ _))

instance (cfg : PbftConfig) (s : Cluster) : (l : ClusterMove) → Decidable (JoinsOn cfg s l)
  | ⟨i, .handle (.commit v)⟩ => inferInstanceAs (Decidable (executes cfg (s.nodes i) v →
      v.seqID = (s.nodes i).sequenceID))
  | ⟨_, .handle (.sendOld _)⟩ => inferInstanceAs (Decidable (_ ∧ _ ∧ _))
  | ⟨_, .handle (.prePrepare _)⟩ | ⟨_, .handle (.prepare _)⟩ | ⟨_, .handle (.requestOld _)⟩
  | ⟨_, .handle .stop⟩ | ⟨_, .handle (.outside _)⟩ | ⟨_, .resume⟩ | ⟨_, .propose _⟩
  | ⟨_, .fill _⟩ => inferInstanceAs (Decidable True)

instance (cfg : PbftConfig) (s : Cluster) : Decidable (Clean cfg s) :=
  decidable_of_iff (CollisionFree cfg s ∧ (∀ m ∈ proposals s.sent, ∀ m' ∈ proposals s.sent,
      m.digest = m'.digest → m.requestMsg = m'.requestMsg) ∧
      (proposals s.sent).length + 1 < 2 ^ 64)
    ⟨fun h => ⟨h.1, h.2.1, h.2.2⟩, fun h => ⟨h.blocks, h.digests, h.heights⟩⟩

theorem sequenceID_eq_round :
    ∃ s, Reach (clusterStep (shortShard false) ∅) (JoinsOn (shortShard false))
        (ShardStart (shortShard false)) s ∧
      Clean (shortShard false) s ∧ (s.nodes 1).status ≠ .crashed ∧
      (s.nodes 1).curChain.chain.currentBlock.header.number = 1 ∧
      (s.nodes 1).sequenceID = (s.nodes 1).curChain.chain.currentBlock.header.number + 1 := by
  have hstart : Reach (clusterStep (shortShard false) ∅) (JoinsOn (shortShard false))
      (ShardStart (shortShard false)) shortCluster :=
    .start ⟨rfl, shortLedger, newBlockChain_short, fun _ => rfl⟩
  obtain ⟨s, hreach, hclean, hcrash, hone⟩ := exists_reach_of_run quorumRound
    (fun s => Clean (shortShard false) s ∧ (s.nodes 1).status ≠ .crashed ∧
      (s.nodes 1).curChain.chain.currentBlock.header.number = 1) hstart (by decide +kernel)
  exact ⟨s, hreach, hclean, hcrash, hone, sequenceID_eq hreach hclean 1 hcrash⟩

/-- Node 3 does not get the proposal, but the commits of the nodes 1 and 2; it asks the main node
for the blocks from 2 to 1 and gets none. -/
def missedProposal : List ClusterMove :=
  [⟨0, .propose 0⟩, ⟨0, .propose 0⟩, ⟨1, .handle firstPrePrepare⟩, ⟨2, .handle firstPrePrepare⟩,
    ⟨1, .handle (prepareOf 2)⟩, ⟨2, .handle (prepareOf 1)⟩,
    ⟨3, .handle (commitOf 1)⟩, ⟨3, .handle (commitOf 2)⟩,
    ⟨0, .handle (.requestOld ⟨2, 1, some 3⟩)⟩, ⟨3, .handle (.sendOld ⟨2, 1, []⟩)⟩]

/-- It goes on with sequence number 2 over genesis. -/
theorem sequenceID_ahead :
    ∃ s, Reach (clusterStep (shortShard false) ∅) anyStep (ShardStart (shortShard false)) s ∧
      Clean (shortShard false) s ∧ (s.nodes 3).status = .running ∧
      (s.nodes 3).sequenceID = 2 ∧
      (s.nodes 3).curChain.chain.currentBlock.header.number = 0 := by
  have hstart : Reach (clusterStep (shortShard false) ∅) anyStep (ShardStart (shortShard false))
      shortCluster := .start ⟨rfl, shortLedger, newBlockChain_short, fun _ => rfl⟩
  exact exists_reach_of_run missedProposal _ hstart (by decide +kernel)

end Aster.Pbft
