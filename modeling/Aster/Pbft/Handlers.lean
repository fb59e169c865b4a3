import Aster.Pbft.Node

/-!
# What the handlers of a node can do

One lemma for each function of a node says which states and messages it can end with; the
invariants of the other modules are proved from these cases and do not unfold a handler again.

* The handlers: `handlePrePrepare_cases`, `handlePrepare_cases`, `handleCommit_cases`,
  `handleRequestOldSeq_cases`, `handleSendOldSeq_cases`, `outside_cases`.
* Parts of them: `execute_cases`, `askFor_cases`, `prepareNext_cases`,
  `handleforSequentialRequest_cases`.
* `Propose`: `propose_cases`, `proposeBlock_cases`.
* The moves: `move_handle`, `move_resume`, `move_fill`.
-/

namespace Aster.Pbft

open Aster.Core Aster.Chain

namespace Node

variable {cfg : PbftConfig} {n n' : Node} {out : List Packet}

theorem unlockSequence_cases (n : Node) :
    n.unlockSequence = n ∨ n.unlockSequence = { n with sequenceLock := false } ∨
      n.unlockSequence = n.crash := by
  unfold unlockSequence
  split_ifs
  · exact .inr (.inl rfl)
  · exact .inr (.inr rfl)
  · exact .inl rfl

/-! ### Requests and votes -/

theorem handleinPrePrepare_cases {digest : Digest} {r : Option Request} {flag : Bool}
    (h : n.handleinPrePrepare cfg digest r = some (n', flag)) :
    n' = n ∨ n' = { n with requestPool := n.requestPool.insert digest r } := by
  obtain ⟨req, -, h⟩ := Option.bind_eq_some_iff.mp h
  obtain ⟨b, -, h⟩ := Option.bind_eq_some_iff.mp h
  split_ifs at h
  · cases h
    exact .inr rfl
  · cases h
    exact .inl rfl

/-- A pre-prepare is ignored, or the handler panics, or the request is stored.  The module may have
put it into the pool before, which makes no difference. -/
theorem handlePrePrepare_cases {m : PrePrepare} (h : n.handlePrePrepare cfg m = (n', out)) :
    (n' = n ∧ out = []) ∨ (n' = n.crash ∧ out = []) ∨
      cfg.getDigest m.requestMsg = m.digest ∧ n' = n.store m.digest m.requestMsg m.seqID ∧
        ∃ flag, out = n.preparePackets flag m.digest m.seqID := by
  unfold handlePrePrepare at h
  split_ifs at h with hdigest hseq
  · cases h
    exact .inl ⟨rfl, rfl⟩
  · cases h
    exact .inr (.inr ⟨not_not.mp hdigest, rfl, false, rfl⟩)
  · cases hin : n.handleinPrePrepare cfg m.digest m.requestMsg with
    | none =>
      rw [hin] at h
      cases h
      exact .inr (.inl ⟨rfl, rfl⟩)
    | some res =>
      obtain ⟨n₁, flag⟩ := res
      rw [hin] at h
      cases h
      refine .inr (.inr ⟨not_not.mp hdigest, ?_, flag, rfl⟩)
      rcases handleinPrePrepare_cases hin with rfl | rfl
      · rfl
      · rw [store, store, Finmap.insert_insert]

/-- A prepare is ignored, or counted, or it is counted and the node commits. -/
theorem handlePrepare_cases {v : Vote} (h : n.handlePrepare cfg v = (n', out)) :
    (n' = n ∧ out = []) ∨ (n' = n.votePrepare v ∧ out = []) ∨
      n.specifiedCnt cfg ≤ (addKey (n.cntPrepareConfirm v.digest) v.sender).length ∧
        v.digest ∉ n.isCommitBordcast ∧
        n' = { n.votePrepare v with isCommitBordcast := insert v.digest n.isCommitBordcast } ∧
        out = [.all (.commit ⟨v.digest, v.seqID, some n.nodeID⟩)] := by
  simp only [handlePrepare] at h
  split_ifs at h with hpool hseq hcommit
  · cases h
    exact .inl ⟨rfl, rfl⟩
  · cases h
    obtain ⟨henough, hfirst⟩ := hcommit
    simp only [votePrepare, Function.update_self] at henough
    exact .inr (.inr ⟨henough, hfirst, rfl, rfl⟩)
  · cases h
    exact .inr (.inl ⟨rfl, rfl⟩)
  · cases h
    exact .inl ⟨rfl, rfl⟩

/-- The node after a round: the ledger with the answer of `AddBlock`, and the next sequence
number. -/
def afterRound (n : Node) (v : Vote) (ledger : Ledger) : Node :=
  { n with
    executed := n.executed ++ [Execution.mk v.digest v.seqID]
    curChain := ledger
    isReply := insert v.digest n.isReply
    sequenceID := n.sequenceID + 1 }

/-- What the execution of a request can do: it panics before or after `AddBlock`, or the round
ends. -/
theorem execute_cases (cfg : PbftConfig) (n : Node) (v : Vote) (r : Option Request) :
    n.execute cfg v r =
        { n with
          executed := n.executed ++ [Execution.mk v.digest v.seqID]
          status := .crashed } ∨
      ∃ req b ledger ok, r = some req ∧ req.content = some b ∧
        n.curChain.addBlock b = some (ledger, ok) ∧
        (n.execute cfg v r =
            { n with
              executed := n.executed ++ [Execution.mk v.digest v.seqID]
              curChain := ledger
              status := .crashed } ∨
          n.execute cfg v r = (n.afterRound v ledger).unlockSequence) := by
  unfold execute
  cases hcontent : r.bind (·.content) with
  | none => exact .inl rfl
  | some b =>
    obtain ⟨req, hreq, hb⟩ := Option.bind_eq_some_iff.mp hcontent
    simp only
    cases hadd : n.curChain.addBlock b with
    | none => exact .inl rfl
    | some res =>
      obtain ⟨ledger, ok⟩ := res
      refine .inr ⟨req, b, ledger, ok, hreq, hb, hadd, ?_⟩
      simp only
      split_ifs
      · exact .inl rfl
      · exact .inr rfl

theorem askFor_cases {seqEnd : UInt64} (h : n.askFor seqEnd = (n', out)) :
    (n.askForLock = true ∧ n' = { n with status := .waitAskFor seqEnd } ∧ out = []) ∨
      n.askForLock = false ∧
        n' = unlockSequence { n with askForLock := true, status := .running } ∧
        out = [.one view (.requestOld ⟨n.sequenceID + 1, seqEnd, some n.nodeID⟩)] := by
  unfold askFor at h
  split_ifs at h with hlock
  · cases h
    exact .inl ⟨hlock, rfl, rfl⟩
  · cases h
    exact .inr ⟨Bool.eq_false_iff.mpr hlock, rfl, rfl⟩

/-- A commit without a sender is a panic.  Others are counted; with enough of them the request is
asked for or executed. -/
theorem handleCommit_cases {v : Vote} (h : n.handleCommit cfg v = (n', out)) :
    (v.sender = none ∧ n' = n.crash ∧ out = []) ∨
      v.sender ≠ none ∧ ((n' = n.voteCommit v ∧ out = []) ∨
        2 * cfg.f ≤ (addKey (n.cntCommitConfirm v.digest) v.sender).length ∧
          v.digest ∉ n.isReply ∧
          ((n.requestPool.lookup v.digest = none ∧
              askFor { n.voteCommit v with isReply := insert v.digest n.isReply } v.seqID =
                (n', out)) ∨
            ∃ r, n.requestPool.lookup v.digest = some r ∧
              n' = (n.voteCommit v).execute cfg v r ∧ out = [])) := by
  simp only [handleCommit] at h
  split_ifs at h with hsender hexec
  · cases h
    exact .inl ⟨hsender, rfl, rfl⟩
  · obtain ⟨henough, hfirst⟩ := hexec
    simp only [voteCommit, Function.update_self] at henough
    refine .inr ⟨hsender, .inr ⟨henough, hfirst, ?_⟩⟩
    split at h
    · next hmissing => exact .inl ⟨hmissing, h⟩
    · next r hr =>
      cases h
      exact .inr ⟨r, hr, rfl, rfl⟩
  · cases h
    exact .inr ⟨hsender, .inl ⟨rfl, rfl⟩⟩

/-! ### Catching up -/

theorem handleRequestOldSeq_cases {m : RequestOldMessage}
    (h : n.handleRequestOldSeq m = (n', out)) :
    (n' = n ∧ out = []) ∨ (m.sender = none ∧ n' = n.crash ∧ out = []) ∨
      ∃ j, m.sender = some j ∧ n' = n ∧
        out = [.one j (.sendOld ⟨m.seqStartHeight, m.seqEndHeight,
          n.oldRequests (m.seqEndHeight.toNat + 1 - m.seqStartHeight.toNat)
            m.seqStartHeight⟩)] := by
  unfold handleRequestOldSeq at h
  split_ifs at h
  · cases h
    exact .inl ⟨rfl, rfl⟩
  · cases hsender : m.sender with
    | none =>
      rw [hsender] at h
      cases h
      exact .inr (.inl ⟨rfl, rfl, rfl⟩)
    | some j =>
      rw [hsender] at h
      cases h
      exact .inr (.inr ⟨j, rfl, rfl, rfl⟩)

section Sequential

variable {L : Type} {apply : L → Option Request → Option L} {m : SendOldMessage}

/-- The request of the round at height `SeqStartHeight + k`. -/
theorem index_of_height (start : UInt64) {k : ℕ} (hk : k < 2 ^ 64) :
    (start + UInt64.ofNat k - start).toNat = k := by
  rw [show start + UInt64.ofNat k - start = UInt64.ofNat k by grind]
  exact UInt64.toNat_ofNat_of_lt' hk

theorem toNat_height {start : UInt64} {k : ℕ} (hk : start.toNat + k < 2 ^ 64) :
    (start + UInt64.ofNat k).toNat = start.toNat + k := by
  rw [UInt64.toNat_add, UInt64.toNat_ofNat', Nat.add_mod_mod, Nat.mod_eq_of_lt hk]

theorem height_succ (start : UInt64) (k : ℕ) :
    start + UInt64.ofNat k + 1 = start + UInt64.ofNat (k + 1) := by
  rw [UInt64.ofNat_add]
  grind

/-- The loop up to the last number has no end but a panic. -/
theorem sequentialLoop_max (hmax : m.seqEndHeight.toNat = 2 ^ 64 - 1) (fuel : ℕ) (height : UInt64)
    (l : L) : sequentialLoop apply m fuel height l = none := by
  induction fuel generalizing height l with
  | zero => rfl
  | succ fuel ih =>
    have hle : height ≤ m.seqEndHeight := by
      have hlt := height.toNat_lt
      rw [UInt64.le_iff_toNat_le]
      omega
    rw [sequentialLoop, if_pos hle, Option.bind_eq_bind, Option.bind_eq_none_iff]
    intro r _
    rw [Option.bind_eq_bind, Option.bind_eq_none_iff]
    intro l' _
    exact ih _ l'

/-- The rest of the loop is the requests that are left, up to `SeqEndHeight`. -/
theorem sequentialLoop_rest (hend : m.seqEndHeight.toNat < 2 ^ 64 - 1) {left k : ℕ}
    (hleft : m.seqStartHeight.toNat + k + left = m.seqEndHeight.toNat + 1)
    (hlen : k + left ≤ m.oldRequest.length) {fuel : ℕ} (hfuel : left ≤ fuel) (l : L) :
    sequentialLoop apply m (fuel + 1) (m.seqStartHeight + UInt64.ofNat k) l =
      ((m.oldRequest.drop k).take left).foldlM apply l := by
  have hheight : (m.seqStartHeight + UInt64.ofNat k).toNat = m.seqStartHeight.toNat + k :=
    toNat_height (by omega)
  induction left generalizing k fuel l with
  | zero =>
    have hpast : ¬ m.seqStartHeight + UInt64.ofNat k ≤ m.seqEndHeight := by
      rw [UInt64.le_iff_toNat_le, hheight]
      omega
    rw [sequentialLoop, if_neg hpast, List.take_zero]
    rfl
  | succ left ih =>
    have hle : m.seqStartHeight + UInt64.ofNat k ≤ m.seqEndHeight := by
      rw [UInt64.le_iff_toNat_le, hheight]
      omega
    have hk : k < m.oldRequest.length := by omega
    obtain ⟨fuel, rfl⟩ : ∃ f, fuel = f + 1 := ⟨fuel - 1, by omega⟩
    rw [sequentialLoop, if_pos hle, index_of_height _ (by omega), List.getElem?_eq_getElem hk,
      height_succ, List.drop_eq_getElem_cons hk, List.take_succ_cons, List.foldlM_cons]
    show (apply l _).bind _ = (apply l _).bind _
    congr 1
    funext l'
    exact ih (k := k + 1) (by omega) (by omega) (by omega) l' (toNat_height (by omega))

/-- The number of heights of the range. -/
theorem toNat_range (hle : m.seqStartHeight ≤ m.seqEndHeight)
    (hend : m.seqEndHeight.toNat < 2 ^ 64 - 1) :
    (m.seqEndHeight - m.seqStartHeight + 1).toNat =
      m.seqEndHeight.toNat + 1 - m.seqStartHeight.toNat := by
  have hle' := UInt64.le_iff_toNat_le.mp hle
  rw [UInt64.toNat_add, UInt64.toNat_sub_of_le _ _ hle, UInt64.toNat_one,
    Nat.mod_eq_of_lt (by omega)]
  omega

/-- A complete answer has a request for each height of its range. -/
theorem sequentialLoop_complete (hcomplete : m.Complete) (hle : m.seqStartHeight ≤ m.seqEndHeight)
    (hend : m.seqEndHeight.toNat < 2 ^ 64 - 1) (l : L) :
    sequentialLoop apply m (m.oldRequest.length + 1) m.seqStartHeight l =
      (m.oldRequest.take (m.seqEndHeight.toNat + 1 - m.seqStartHeight.toNat)).foldlM apply l := by
  have hle' := UInt64.le_iff_toNat_le.mp hle
  have hrange := toNat_range hle hend
  rw [show m.seqEndHeight - m.seqStartHeight + 1 = _ from hcomplete, UInt64.toNat_ofNat'] at hrange
  have hmod := Nat.mod_le m.oldRequest.length (2 ^ 64)
  have hrest : sequentialLoop apply m (m.oldRequest.length + 1)
      (m.seqStartHeight + UInt64.ofNat 0) l = ((m.oldRequest.drop 0).take
        (m.seqEndHeight.toNat + 1 - m.seqStartHeight.toNat)).foldlM apply l :=
    sequentialLoop_rest hend (by omega) (by omega) (by omega) l
  rw [show UInt64.ofNat 0 = 0 from rfl, UInt64.add_zero, List.drop_zero] at hrest
  exact hrest

theorem sequentialLoop_past (hlt : m.seqEndHeight < m.seqStartHeight) (fuel : ℕ) (l : L) :
    sequentialLoop apply m (fuel + 1) m.seqStartHeight l = some l := by
  rw [sequentialLoop, if_neg (UInt64.not_le.mpr hlt)]

theorem foldlM_addOldRequest (l : Ledger) (rs : List (Option Request)) :
    rs.foldlM addOldRequest l = addOld l rs := by
  induction rs generalizing l with
  | nil => rfl
  | cons r rs ih =>
    rw [List.foldlM_cons, addOld]
    congr 1
    funext l'
    exact ih l'

end Sequential

theorem handleforSequentialRequest_cases {m : SendOldMessage}
    (h : n.handleforSequentialRequest m = some n') :
    n' = n ∨ ∃ k ledger, addOld n.curChain (m.oldRequest.take k) = some ledger ∧
      n' = { n with curChain := ledger, sequenceID := m.seqEndHeight + 1 } := by
  unfold handleforSequentialRequest at h
  split_ifs at h with hcomplete
  · obtain ⟨ledger, hloop, h⟩ := Option.bind_eq_some_iff.mp h
    cases h
    right
    by_cases hlt : m.seqEndHeight < m.seqStartHeight
    · rw [sequentialLoop_past hlt] at hloop
      exact ⟨0, ledger, hloop, rfl⟩
    · have hlt' := m.seqEndHeight.toNat_lt
      by_cases hmax : m.seqEndHeight.toNat = 2 ^ 64 - 1
      · rw [sequentialLoop_max hmax] at hloop
        cases hloop
      · rw [sequentialLoop_complete hcomplete (UInt64.not_lt.mp hlt) (by omega),
          foldlM_addOldRequest] at hloop
        exact ⟨_, ledger, hloop, rfl⟩
  · cases h
    exact .inl rfl

theorem prepareNext_cases (h : n.prepareNext cfg = some (n', out)) :
    (n' = n ∧ out = []) ∨ ∃ d r flag, n.height2Digest.lookup n.sequenceID = some d ∧
      n.requestPool.lookup d = some r ∧
      n.handleinPrePrepare cfg (cfg.getDigest r) r = some (n', flag) ∧
      out = n'.preparePackets flag (cfg.getDigest r) n'.sequenceID := by
  unfold prepareNext at h
  split at h
  · cases h
    exact .inl ⟨rfl, rfl⟩
  · next r hfound =>
    obtain ⟨d, hd, hr⟩ := Option.bind_eq_some_iff.mp hfound
    obtain ⟨⟨n₁, flag⟩, hin, h⟩ := Option.bind_eq_some_iff.mp h
    cases h
    exact .inr ⟨d, r, flag, hd, hr, hin, rfl⟩

/-- The node after the loop of `handleSendOldSeq` over the requests of the answer. -/
def afterOld (cfg : PbftConfig) (n : Node) (m : SendOldMessage) : Node :=
  { storeOld cfg n m.oldRequest m.seqStartHeight with sequenceID := m.seqEndHeight + 1 }

/-- A catch-up answer: a panic while its blocks are added, or while the next pre-prepare is
handled, or the lock is given back. -/
theorem handleSendOldSeq_cases {m : SendOldMessage} (h : n.handleSendOldSeq cfg m = (n', out)) :
    (n' = n.crash ∧ out = []) ∨ ∃ n₁, n.handleforSequentialRequest m = some n₁ ∧
      ((n' = (n₁.afterOld cfg m).crash ∧ out = []) ∨
        ∃ n₂, (n₁.afterOld cfg m).prepareNext cfg = some (n₂, out) ∧
          (n' = { n₂ with askForLock := false } ∨ n' = n₂.crash)) := by
  unfold handleSendOldSeq at h
  cases hseq : n.handleforSequentialRequest m with
  | none =>
    rw [hseq] at h
    cases h
    exact .inl ⟨rfl, rfl⟩
  | some n₁ =>
    rw [hseq] at h
    refine .inr ⟨n₁, rfl, ?_⟩
    cases hnext : (n₁.afterOld cfg m).prepareNext cfg with
    | none =>
      simp only [afterOld] at hnext
      simp only [hnext] at h
      cases h
      exact .inl ⟨rfl, rfl⟩
    | some res =>
      obtain ⟨n₂, out₂⟩ := res
      simp only [afterOld] at hnext
      simp only [hnext] at h
      cases h
      refine .inr ⟨n₂, rfl, ?_⟩
      split_ifs
      · exact .inl rfl
      · exact .inr rfl

theorem outside_cases {addsTxs : Bool} (h : n.handle cfg (.outside addsTxs) = (n', out)) :
    (n' = n ∨ n' = n.crash) ∧ out = [] := by
  simp only [handle] at h
  cases h
  refine ⟨?_, rfl⟩
  split_ifs
  · exact .inr rfl
  · exact .inl rfl

/-! ### Proposing -/

/-- The main node panics, or it proposes a block above `CurrentBlock`. -/
theorem proposeBlock_cases {now : Time} (h : n.proposeBlock cfg now = (n', out)) :
    (n' = n.crash ∧ out = []) ∨ ∃ b ledger, ledger.chain = n.curChain.chain ∧
      b.header.parentBlockHash = n.curChain.chain.currentBlock.hash ∧
      b.header.number = n.curChain.chain.currentBlock.header.number + 1 ∧
      n' = { n with curChain := ledger, sequenceLock := true, proposing := .select }.store
        (cfg.getDigest (some ⟨.block, some b, now⟩)) (some ⟨.block, some b, now⟩) n.sequenceID ∧
      out = [.all (.prePrepare ⟨some ⟨.block, some b, now⟩,
        cfg.getDigest (some ⟨.block, some b, now⟩), n.sequenceID⟩)] := by
  unfold proposeBlock at h
  cases hgen : generateBlock cfg.chain n.curChain 0 now with
  | none =>
    rw [hgen] at h
    cases h
    exact .inl ⟨rfl, rfl⟩
  | some res =>
    obtain ⟨ledger, b⟩ := res
    rw [hgen] at h
    obtain ⟨hledger, hb⟩ := generateBlock_cases hgen
    cases h
    refine .inr ⟨b, ledger, ?_, ?_, ?_, rfl, rfl⟩
    · rw [hledger]
    · rw [hb]
      rfl
    · rw [hb]
      rfl

/-- What `Propose` can do. -/
theorem propose_cases {now : Time} (h : n.propose cfg now = some (n', out)) :
    n.nodeID = view ∧ n.status ≠ .crashed ∧
    ((n.proposing = .select ∧ n.status = .waitStop ∧
        n' = { n with status := .stopped, proposing := .returned } ∧ out = []) ∨
      (n.proposing = .select ∧ n.status ≠ .waitStop ∧ n' = { n with proposing := .locking } ∧
        out = []) ∨
      (n.proposing = .locking ∧ n.sequenceLock = false ∧ n.proposeBlock cfg now = (n', out))) := by
  unfold propose at h
  split at h
  · cases h
  · next hmain =>
    have hid : n.nodeID = view := not_not.mp fun hne => hmain (.inl hne)
    refine ⟨hid, fun hcrash => hmain (.inr hcrash), ?_⟩
    split at h
    · next hselect =>
      split at h
      · next hwait =>
        cases h
        exact .inl ⟨hselect, hwait, rfl, rfl⟩
      · next hwait =>
        cases h
        exact .inr (.inl ⟨hselect, hwait, rfl, rfl⟩)
    · next hlocking =>
      split at h
      · cases h
      · next hlock =>
        exact .inr (.inr ⟨hlocking, Bool.eq_false_iff.mpr hlock, Option.some.inj h⟩)
    · cases h

/-! ### Moves -/

theorem move_handle {m : Msg} (h : n.move cfg (.handle m) = some (n', out)) :
    n.status = .running ∧ n.handle cfg m = (n', out) := by
  simp only [move] at h
  split_ifs at h with hrun
  exact ⟨hrun, Option.some.inj h⟩

theorem move_resume (h : n.move cfg .resume = some (n', out)) :
    ∃ seqEnd, n.status = .waitAskFor seqEnd ∧ n.askForLock = false ∧
      n.askFor seqEnd = (n', out) := by
  simp only [move] at h
  split at h
  · next seqEnd hask =>
    split_ifs at h with hlock
    exact ⟨seqEnd, hask, Bool.eq_false_iff.mpr hlock, Option.some.inj h⟩
  · cases h

theorem move_fill {txs : List PoolTx} (h : n.move cfg (.fill txs) = some (n', out)) :
    n' = { n with curChain := { n.curChain with
        precessedTxpool := n.curChain.precessedTxpool ++ txs } } ∧ out = [] := by
  cases h
  exact ⟨rfl, rfl⟩

end Node

end Aster.Pbft
