import Aster.Pbft.Cluster

/-!
# Requests that were proposed

`K q r` says that the request `r` was proposed with `SeqID` `q`.  When a node and the messages it
handles only know proposed requests, then so do the node and its messages afterwards, and every
block it adds to its chain is the block of such a request.

* `Known`: the pool and the heights of a node.
* `Packet.Known`: the packets the nodes of a shard send.
* **`handle_known`**: what a handler keeps.
-/

namespace Aster.Pbft

open Aster.Core Aster.Chain Node

variable (cfg : PbftConfig) (K : UInt64 → Option Request → Prop)

/-- The digest of a request that was proposed with this `SeqID`. -/
def Filed (seqID : UInt64) (d : Digest) : Prop := ∃ r, K seqID r ∧ d = cfg.getDigest r

/-- What the pool and the heights of a node say was proposed. -/
structure Known (n : Node) : Prop where
  pool : ∀ d r, n.requestPool.lookup d = some r → d = cfg.getDigest r ∧ ∃ q, K q r
  heights : ∀ h d, n.height2Digest.lookup h = some d → Filed cfg K h d

/-- The requests of a catch-up answer, from `height` on. -/
def KnownOld (height : UInt64) (rs : List (Option Request)) : Prop :=
  ∀ (i : ℕ) (r : Option Request), rs[i]? = some r →
    (∃ q, K q r) ∧ Filed cfg K (height + UInt64.ofNat i) (cfg.getDigest r)

def Msg.Known : Msg → Prop
  | .prePrepare m => K m.seqID m.requestMsg
  | .prepare v | .commit v => Filed cfg K v.seqID v.digest
  | .requestOld m => ∃ j ≠ view, m.sender = some j
  | .sendOld m => KnownOld cfg K m.seqStartHeight m.oldRequest
  | .stop | .outside _ => True

def Msg.isSendOld : Msg → Bool
  | .sendOld _ => true
  | _ => false

/-- The proposal in a packet. -/
def Packet.proposal : Packet → Option PrePrepare
  | .all (.prePrepare m) => some m
  | _ => none

/-- Catch-up answers are never sent to the main node. -/
def Packet.Known : Packet → Prop
  | .all m => m.Known cfg K ∧ m.isSendOld = false
  | .one j m => m.Known cfg K ∧ (m.isSendOld = true → j ≠ view)

/-- A block of a proposed request is accepted. -/
def Adds (bc bc' : BlockChain) : Prop :=
  ∃ q req b, K q (some req) ∧ req.content = some b ∧ addBlock bc b = some (bc', true)

def Extends : BlockChain → BlockChain → Prop := Relation.ReflTransGen (Adds K)

variable {cfg K} {n n' : Node} {out : List Packet}

/-- Only the pool and the heights matter. -/
theorem Known.congr (h : Known cfg K n) (hpool : n'.requestPool = n.requestPool)
    (hheights : n'.height2Digest = n.height2Digest) : Known cfg K n' :=
  ⟨hpool ▸ h.pool, hheights ▸ h.heights⟩

/-- A known request in the pool. -/
theorem Known.insert_pool (h : Known cfg K n) {r : Option Request} (hr : ∃ q, K q r)
    (hpool : n'.requestPool = n.requestPool.insert (cfg.getDigest r) r)
    (hheights : n'.height2Digest = n.height2Digest) : Known cfg K n' := by
  refine ⟨?_, hheights ▸ h.heights⟩
  intro d r' hlookup
  rw [hpool] at hlookup
  by_cases hd : d = cfg.getDigest r
  · subst hd
    rw [Finmap.lookup_insert] at hlookup
    cases hlookup
    exact ⟨rfl, hr⟩
  · rw [Finmap.lookup_insert_of_ne _ hd] at hlookup
    exact h.pool d r' hlookup

theorem Known.store (h : Known cfg K n) {r : Option Request} {seqID : UInt64} (hr : ∃ q, K q r)
    (hfiled : Filed cfg K seqID (cfg.getDigest r)) :
    Known cfg K (n.store (cfg.getDigest r) r seqID) := by
  refine ⟨(h.insert_pool hr rfl rfl : Known cfg K { n with
    requestPool := n.requestPool.insert (cfg.getDigest r) r }).pool, ?_⟩
  intro q d hlookup
  have hlookup' : (n.height2Digest.insert seqID (cfg.getDigest r)).lookup q = some d := hlookup
  by_cases hq : q = seqID
  · subst hq
    rw [Finmap.lookup_insert] at hlookup'
    cases hlookup'
    exact hfiled
  · rw [Finmap.lookup_insert_of_ne _ hq] at hlookup'
    exact h.heights q d hlookup'

/-! ### The ledger -/

theorem extends_addBlock {l l' : Ledger} {q : UInt64} {req : Request} {b : Block} {ok : Bool}
    (hreq : K q (some req)) (hb : req.content = some b) (h : l.addBlock b = some (l', ok)) :
    Extends K l.chain l'.chain := by
  obtain ⟨chain, hadd, rfl⟩ := ledger_addBlock_cases h
  rcases addBlock_cases hadd with ⟨rfl, -, -⟩ | ⟨rfl, -⟩
  · exact .refl
  · exact .single ⟨q, req, b, hreq, hb, hadd⟩

theorem extends_addOld {l l' : Ledger} (rs : List (Option Request))
    (hrs : ∀ r ∈ rs, ∃ q, K q r) (h : addOld l rs = some l') : Extends K l.chain l'.chain := by
  induction rs generalizing l with
  | nil =>
    cases h
    exact .refl
  | cons r rs ih =>
    have hrest : ∀ r' ∈ rs, ∃ q, K q r' := fun r' hr' => hrs r' (List.mem_cons_of_mem _ hr')
    obtain ⟨q, hq⟩ := hrs r List.mem_cons_self
    obtain ⟨l₁, hone, hadded⟩ := Option.bind_eq_some_iff.mp h
    obtain ⟨req, hreq, hone⟩ := Option.bind_eq_some_iff.mp hone
    split_ifs at hone with htype
    · obtain ⟨b, hb, hone⟩ := Option.bind_eq_some_iff.mp hone
      obtain ⟨⟨l₂, ok⟩, hadd, hone⟩ := Option.bind_eq_some_iff.mp hone
      cases hone
      exact (extends_addBlock (hreq ▸ hq) hb hadd).trans (ih hrest hadded)
    · cases hone
      exact ih hrest hadded

/-! ### The handlers -/

/-- What a move that does not propose keeps: the node and what it sends know proposed requests
only, and its chain has grown by their blocks. -/
structure Honest (cfg : PbftConfig) (K : UInt64 → Option Request → Prop) (n n' : Node)
    (out : List Packet) : Prop where
  known : Known cfg K n'
  packets : ∀ pk ∈ out, pk.Known cfg K ∧ pk.proposal = none
  chain : Extends K n.curChain.chain n'.curChain.chain

/-- Nothing is sent, and pool, heights and ledger stay. -/
theorem Honest.same (h : Known cfg K n) (hpool : n'.requestPool = n.requestPool)
    (hheights : n'.height2Digest = n.height2Digest) (hchain : n'.curChain = n.curChain) :
    Honest cfg K n n' [] := by
  refine ⟨h.congr hpool hheights, fun _ hpk => absurd hpk List.not_mem_nil, ?_⟩
  rw [hchain]
  exact .refl

theorem handleinPrePrepare_known {r : Option Request} {flag : Bool} (h : Known cfg K n)
    (hr : ∃ q, K q r) (hin : n.handleinPrePrepare cfg (cfg.getDigest r) r = some (n', flag)) :
    Known cfg K n' ∧ n'.curChain = n.curChain ∧ n'.sequenceID = n.sequenceID := by
  rcases handleinPrePrepare_cases hin with rfl | rfl
  · exact ⟨h, rfl, rfl⟩
  · exact ⟨h.insert_pool hr rfl rfl, rfl, rfl⟩

theorem preparePackets_known {flag : Bool} {d : Digest} {seqID : UInt64}
    (hfiled : Filed cfg K seqID d) :
    ∀ pk ∈ n.preparePackets flag d seqID, pk.Known cfg K ∧ pk.proposal = none := by
  intro pk hpk
  unfold preparePackets at hpk
  split_ifs at hpk
  · rw [List.mem_singleton.mp hpk]
    exact ⟨⟨hfiled, rfl⟩, rfl⟩
  · cases hpk

theorem handlePrePrepare_known {m : PrePrepare} (h : Known cfg K n)
    (hm : K m.seqID m.requestMsg) (hres : n.handlePrePrepare cfg m = (n', out)) :
    Honest cfg K n n' out := by
  rcases handlePrePrepare_cases hres with ⟨rfl, rfl⟩ | ⟨rfl, rfl⟩ | ⟨hdigest, rfl, flag, rfl⟩
  · exact .same h rfl rfl rfl
  · exact .same h rfl rfl rfl
  · have hfiled : Filed cfg K m.seqID (cfg.getDigest m.requestMsg) := ⟨_, hm, rfl⟩
    rw [← hdigest]
    exact ⟨h.store ⟨_, hm⟩ hfiled, preparePackets_known hfiled, .refl⟩

theorem handlePrepare_known {v : Vote} (h : Known cfg K n) (hv : Filed cfg K v.seqID v.digest)
    (hres : n.handlePrepare cfg v = (n', out)) : Honest cfg K n n' out := by
  rcases handlePrepare_cases hres with ⟨rfl, rfl⟩ | ⟨rfl, rfl⟩ | ⟨-, -, rfl, rfl⟩
  · exact .same h rfl rfl rfl
  · exact .same h rfl rfl rfl
  · refine ⟨h.congr rfl rfl, ?_, .refl⟩
    intro pk hpk
    rw [List.mem_singleton.mp hpk]
    exact ⟨⟨hv, rfl⟩, rfl⟩

theorem unlockSequence_same (n : Node) :
    n.unlockSequence.requestPool = n.requestPool ∧
      n.unlockSequence.height2Digest = n.height2Digest ∧
      n.unlockSequence.curChain = n.curChain ∧ n.unlockSequence.sequenceID = n.sequenceID := by
  rcases unlockSequence_cases n with heq | heq | heq
  all_goals
    rw [heq]
    exact ⟨rfl, rfl, rfl, rfl⟩

theorem askFor_known {seqEnd : UInt64} (h : Known cfg K n) (hbackup : n.nodeID ≠ view)
    (hres : n.askFor seqEnd = (n', out)) : Honest cfg K n n' out := by
  rcases askFor_cases hres with ⟨-, rfl, rfl⟩ | ⟨-, rfl, rfl⟩
  · exact .same h rfl rfl rfl
  · obtain ⟨hpool, hheights, hchain, -⟩ := unlockSequence_same
      { n with askForLock := true, status := .running }
    refine ⟨h.congr hpool hheights, ?_, ?_⟩
    · intro pk hpk
      rw [List.mem_singleton.mp hpk]
      exact ⟨⟨⟨n.nodeID, hbackup, rfl⟩, fun hsend => by cases hsend⟩, rfl⟩
    · rw [hchain]
      exact .refl

theorem execute_known {v : Vote} {r : Option Request} (h : Known cfg K n) (hr : ∃ q, K q r) :
    Honest cfg K n (n.execute cfg v r) [] := by
  have hnone : ∀ pk ∈ ([] : List Packet), pk.Known cfg K ∧ pk.proposal = none :=
    fun _ hpk => absurd hpk List.not_mem_nil
  rcases execute_cases cfg n v r with heq | ⟨req, b, ledger, ok, hreq, hb, hadd, hcases⟩
  · rw [heq]
    exact .same h rfl rfl rfl
  · obtain ⟨q, hq⟩ := hr
    have hext := extends_addBlock (hreq ▸ hq) hb hadd
    rcases hcases with heq | heq
    · rw [heq]
      exact ⟨h.congr rfl rfl, hnone, hext⟩
    · rw [heq]
      obtain ⟨hpool, hheights, hchain, -⟩ := unlockSequence_same (n.afterRound v ledger)
      refine ⟨h.congr hpool hheights, hnone, ?_⟩
      rw [hchain]
      exact hext

theorem handleCommit_known {v : Vote} (h : Known cfg K n)
    (hmain : n.nodeID = view → v.digest ∈ n.requestPool)
    (hres : n.handleCommit cfg v = (n', out)) : Honest cfg K n n' out := by
  rcases handleCommit_cases hres with ⟨-, rfl, rfl⟩ | ⟨-, hcounted⟩
  · exact .same h rfl rfl rfl
  · rcases hcounted with ⟨rfl, rfl⟩ | ⟨-, -, ⟨hmissing, hask⟩ | ⟨r, hr, rfl, rfl⟩⟩
    · exact .same h rfl rfl rfl
    · -- the main node has every request it can be asked about
      have hbackup : n.nodeID ≠ view := fun hid => Finmap.lookup_eq_none.mp hmissing (hmain hid)
      have hmarked : Known cfg K { n.voteCommit v with
          isReply := insert v.digest n.isReply } := h.congr rfl rfl
      have hasked := askFor_known hmarked hbackup hask
      exact ⟨hasked.known, hasked.packets, hasked.chain⟩
    · have hvoted : Known cfg K (n.voteCommit v) := h.congr rfl rfl
      have hexec := execute_known (v := v) hvoted (hvoted.pool _ _ hr).2
      exact ⟨hexec.known, hexec.packets, hexec.chain⟩

/-! ### Catching up -/

theorem add_ofNat_succ (height : UInt64) (i : ℕ) :
    height + UInt64.ofNat (i + 1) = height + 1 + UInt64.ofNat i := by
  rw [UInt64.ofNat_add, UInt64.add_assoc, UInt64.add_comm (UInt64.ofNat i)]
  rfl

theorem oldRequests_known (h : Known cfg K n) (fuel : ℕ) (height : UInt64) :
    KnownOld cfg K height (n.oldRequests fuel height) := by
  induction fuel generalizing height with
  | zero =>
    intro i r hr
    cases hr
  | succ fuel ih =>
    intro i r hr
    rw [oldRequests] at hr
    cases hfound : (n.height2Digest.lookup height).bind fun d => n.requestPool.lookup d with
    | none =>
      rw [hfound] at hr
      cases hr
    | some r₀ =>
      rw [hfound] at hr
      obtain ⟨d, hd, hr₀⟩ := Option.bind_eq_some_iff.mp hfound
      cases i with
      | zero =>
        have heq : r₀ = r := Option.some.inj hr
        subst heq
        obtain ⟨hdigest, hproposed⟩ := h.pool d r₀ hr₀
        refine ⟨hproposed, ?_⟩
        rw [← hdigest, show height + UInt64.ofNat 0 = height from UInt64.add_zero height]
        exact h.heights height d hd
      | succ i =>
        rw [add_ofNat_succ]
        exact ih (height + 1) i r hr

theorem handleRequestOldSeq_known {m : RequestOldMessage} (h : Known cfg K n)
    (hm : ∃ j ≠ view, m.sender = some j) (hres : n.handleRequestOldSeq m = (n', out)) :
    Honest cfg K n n' out := by
  obtain ⟨j, hj, hsender⟩ := hm
  rcases handleRequestOldSeq_cases hres with ⟨rfl, rfl⟩ | ⟨-, rfl, rfl⟩ | ⟨i, hi, rfl, rfl⟩
  · exact .same h rfl rfl rfl
  · exact .same h rfl rfl rfl
  · refine ⟨h, ?_, .refl⟩
    intro pk hpk
    rw [List.mem_singleton.mp hpk, Option.some.inj (hi.symm.trans hsender)]
    exact ⟨⟨oldRequests_known h _ _, fun _ => hj⟩, rfl⟩

theorem storeOld_known (rs : List (Option Request)) (height : UInt64) (h : Known cfg K n)
    (hrs : KnownOld cfg K height rs) :
    Known cfg K (storeOld cfg n rs height) ∧
      (storeOld cfg n rs height).curChain = n.curChain := by
  induction rs generalizing n height with
  | nil => exact ⟨h, rfl⟩
  | cons r rs ih =>
    obtain ⟨hproposed, hfiled⟩ := hrs 0 r rfl
    rw [show height + UInt64.ofNat 0 = height from UInt64.add_zero height] at hfiled
    have hone : Known cfg K { n.store (cfg.getDigest r) r height with
        isReply := insert (cfg.getDigest r) n.isReply } := (h.store hproposed hfiled).congr rfl rfl
    have hrest : KnownOld cfg K (height + 1) rs := by
      intro i r' hr'
      have hnext := hrs (i + 1) r' hr'
      rw [add_ofNat_succ] at hnext
      exact hnext
    exact ih (height + 1) hone hrest

theorem prepareNext_known (h : Known cfg K n) (hres : n.prepareNext cfg = some (n', out)) :
    Known cfg K n' ∧ n'.curChain = n.curChain ∧
      ∀ pk ∈ out, pk.Known cfg K ∧ pk.proposal = none := by
  rcases prepareNext_cases hres with ⟨rfl, rfl⟩ | ⟨d, r, flag, hd, hr, hin, rfl⟩
  · exact ⟨h, rfl, fun _ hpk => absurd hpk List.not_mem_nil⟩
  · obtain ⟨hdigest, hproposed⟩ := h.pool d r hr
    obtain ⟨hknown, hchain, hseq⟩ := handleinPrePrepare_known h hproposed hin
    refine ⟨hknown, hchain, preparePackets_known ?_⟩
    rw [← hdigest, hseq]
    exact h.heights _ d hd

theorem handleforSequentialRequest_known {m : SendOldMessage} (h : Known cfg K n)
    (hm : KnownOld cfg K m.seqStartHeight m.oldRequest)
    (hres : n.handleforSequentialRequest m = some n') :
    Known cfg K n' ∧ Extends K n.curChain.chain n'.curChain.chain := by
  have hrs : ∀ r ∈ m.oldRequest, ∃ q, K q r := by
    intro r hr
    obtain ⟨i, hi⟩ := List.mem_iff_getElem?.mp hr
    exact (hm i r hi).1
  rcases handleforSequentialRequest_cases hres with rfl | ⟨k, ledger, hadd, rfl⟩
  · exact ⟨h, .refl⟩
  · exact ⟨h.congr rfl rfl,
      extends_addOld _ (fun r hr => hrs r (List.mem_of_mem_take hr)) hadd⟩

theorem handleSendOldSeq_known {m : SendOldMessage} (h : Known cfg K n)
    (hm : KnownOld cfg K m.seqStartHeight m.oldRequest)
    (hres : n.handleSendOldSeq cfg m = (n', out)) : Honest cfg K n n' out := by
  rcases handleSendOldSeq_cases hres with ⟨rfl, rfl⟩ | ⟨n₁, hseq, hend⟩
  · exact .same h rfl rfl rfl
  · obtain ⟨hknown, hext⟩ := handleforSequentialRequest_known h hm hseq
    obtain ⟨hstored, hledger⟩ := storeOld_known m.oldRequest m.seqStartHeight hknown hm
    have hset : Known cfg K (n₁.afterOld cfg m) := hstored.congr rfl rfl
    have hchain₁ : (n₁.afterOld cfg m).curChain = n₁.curChain := hledger
    rcases hend with ⟨rfl, rfl⟩ | ⟨n₂, hnext, hlast⟩
    · refine ⟨hset.congr rfl rfl, fun _ hpk => absurd hpk List.not_mem_nil, ?_⟩
      show Extends K n.curChain.chain (n₁.afterOld cfg m).curChain.chain
      rw [hchain₁]
      exact hext
    · obtain ⟨hknown₂, hchain₂, hout⟩ := prepareNext_known hset hnext
      have hext₂ : Extends K n.curChain.chain n₂.curChain.chain := by
        rw [hchain₂, hchain₁]
        exact hext
      rcases hlast with rfl | rfl
      · exact ⟨hknown₂.congr rfl rfl, hout, hext₂⟩
      · exact ⟨hknown₂.congr rfl rfl, hout, hext₂⟩

/-- **What a handler keeps.**  The main node handles no catch-up answer, and it has every request
that it handles a commit for. -/
theorem handle_known {m : Msg} (h : Known cfg K n) (hm : m.Known cfg K)
    (hsend : n.nodeID = view → m.isSendOld = false)
    (hmain : n.nodeID = view → ∀ v, m = .commit v → v.digest ∈ n.requestPool)
    (hres : n.handle cfg m = (n', out)) : Honest cfg K n n' out := by
  cases m with
  | prePrepare m => exact handlePrePrepare_known h hm hres
  | prepare v => exact handlePrepare_known h hm hres
  | commit v => exact handleCommit_known h (fun hid => hmain hid v rfl) hres
  | requestOld m => exact handleRequestOldSeq_known h hm hres
  | sendOld m => exact handleSendOldSeq_known h hm hres
  | stop =>
    cases hres
    exact .same h rfl rfl rfl
  | outside addsTxs =>
    obtain ⟨rfl | rfl, rfl⟩ := outside_cases hres
    · exact .same h rfl rfl rfl
    · exact .same h rfl rfl rfl

/-! ### More proposals -/

section Mono

variable {K' : UInt64 → Option Request → Prop} (hK : ∀ q r, K q r → K' q r)

include hK

theorem Filed.mono {q : UInt64} {d : Digest} (h : Filed cfg K q d) : Filed cfg K' q d := by
  obtain ⟨r, hr, hd⟩ := h
  exact ⟨r, hK q r hr, hd⟩

theorem Known.mono (h : Known cfg K n) : Known cfg K' n := by
  constructor
  case pool =>
    intro d r hr
    obtain ⟨hd, q, hq⟩ := h.pool d r hr
    exact ⟨hd, q, hK q r hq⟩
  case heights => exact fun q d hd => (h.heights q d hd).mono hK

theorem Msg.Known.mono {m : Msg} (h : m.Known cfg K) : m.Known cfg K' := by
  cases m with
  | prePrepare m => exact hK _ _ h
  | prepare v => exact Filed.mono hK h
  | commit v => exact Filed.mono hK h
  | requestOld m => exact h
  | sendOld m =>
    intro i r hr
    obtain ⟨⟨q, hq⟩, hfiled⟩ := h i r hr
    exact ⟨⟨q, hK q r hq⟩, hfiled.mono hK⟩
  | stop => trivial
  | outside addsTxs => trivial

theorem Packet.Known.mono {pk : Packet} (h : pk.Known cfg K) : pk.Known cfg K' := by
  cases pk with
  | all m => exact ⟨Msg.Known.mono hK h.1, h.2⟩
  | one j m => exact ⟨Msg.Known.mono hK h.1, h.2⟩

end Mono

end Aster.Pbft
