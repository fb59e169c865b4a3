import Aster.Pbft.Handlers
import Aster.Lib.Transition

/-!
# Votes and their senders

The vote tables of a node, and what is decided on them: a commit is broadcast when enough prepare
votes are in, and a request is executed when enough commit votes are in.

* `Node.move_ballots` says everything a move can do to the tables.
* **`votes_per_sender`**: as long as no sender is counted twice for a digest, the thresholds are
  thresholds on the number of distinct senders.
-/

namespace Aster.Pbft

open Aster.Core Aster.Chain Aster.Lib.Transition

/-- The vote tables of a node and the decisions that rest on them. -/
structure Ballots where
  nodeID : ℕ
  prepares : Digest → List (Option ℕ)
  commits : Digest → List (Option ℕ)
  /-- The digests for which the node has broadcast its commit. -/
  committed : Finset Digest
  executed : List Execution

def Packet.msg : Packet → Msg
  | .all m => m
  | .one _ m => m

/-- No commit is among the packets. -/
def NoCommit (out : List Packet) : Prop := ∀ pk ∈ out, ∀ v, pk.msg ≠ .commit v

theorem noCommit_nil : NoCommit [] := fun _ h => absurd h List.not_mem_nil

theorem noCommit_singleton {pk : Packet} (h : ∀ v, pk.msg ≠ .commit v) : NoCommit [pk] :=
  fun _ hpk => List.mem_singleton.mp hpk ▸ h

namespace Node

def ballots (n : Node) : Ballots :=
  ⟨n.nodeID, n.cntPrepareConfirm, n.cntCommitConfirm, n.isCommitBordcast, n.executed⟩

/-- No vote is counted; more requests may be marked as replied. -/
structure Quiet (n n' : Node) : Prop where
  ballots : n'.ballots = n.ballots
  replied : n.isReply ⊆ n'.isReply

variable {cfg : PbftConfig} {n n' n'' : Node} {out : List Packet}

theorem Quiet.refl (n : Node) : Quiet n n := ⟨rfl, Finset.Subset.refl _⟩

theorem Quiet.trans (h : Quiet n n') (h' : Quiet n' n'') : Quiet n n'' :=
  ⟨h'.ballots.trans h.ballots, h.replied.trans h'.replied⟩

/-- Most moves leave the two parts of the state as they are. -/
theorem Quiet.of_eq (hballots : n'.ballots = n.ballots) (hreply : n'.isReply = n.isReply) :
    Quiet n n' := ⟨hballots, hreply.symm.subset⟩

theorem Quiet.crash (n : Node) : Quiet n n.crash := .of_eq rfl rfl

theorem unlockSequence_quiet (n : Node) : Quiet n n.unlockSequence := by
  rcases unlockSequence_cases n with heq | heq | heq
  · rw [heq]
    exact .refl n
  · rw [heq]
    exact .of_eq rfl rfl
  · rw [heq]
    exact .crash n

theorem handleinPrePrepare_quiet {digest : Digest} {r : Option Request} {flag : Bool}
    (h : n.handleinPrePrepare cfg digest r = some (n', flag)) : Quiet n n' := by
  rcases handleinPrePrepare_cases h with rfl | rfl
  · exact .refl n'
  · exact .of_eq rfl rfl

theorem preparePackets_noCommit {flag : Bool} {digest : Digest} {seqID : UInt64} :
    NoCommit (n.preparePackets flag digest seqID) := by
  unfold preparePackets
  split_ifs
  · exact noCommit_singleton fun v h => by cases h
  · exact noCommit_nil

theorem handlePrePrepare_quiet {m : PrePrepare} (h : n.handlePrePrepare cfg m = (n', out)) :
    Quiet n n' ∧ NoCommit out := by
  rcases handlePrePrepare_cases h with ⟨rfl, rfl⟩ | ⟨rfl, rfl⟩ | ⟨-, rfl, flag, rfl⟩
  · exact ⟨.refl n', noCommit_nil⟩
  · exact ⟨.crash n, noCommit_nil⟩
  · exact ⟨.of_eq rfl rfl, preparePackets_noCommit⟩

theorem askFor_quiet {seqEnd : UInt64} (h : n.askFor seqEnd = (n', out)) :
    Quiet n n' ∧ NoCommit out := by
  rcases askFor_cases h with ⟨-, rfl, rfl⟩ | ⟨-, rfl, rfl⟩
  · exact ⟨.of_eq rfl rfl, noCommit_nil⟩
  · refine ⟨?_, noCommit_singleton fun v h => by cases h⟩
    have hlocked : Quiet n { n with askForLock := true, status := .running } := .of_eq rfl rfl
    exact hlocked.trans (unlockSequence_quiet _)

theorem storeOld_quiet (rs : List (Option Request)) (height : UInt64) :
    Quiet n (storeOld cfg n rs height) := by
  induction rs generalizing n height with
  | nil => exact .refl n
  | cons r rs ih =>
    have hone : Quiet n { n.store (cfg.getDigest r) r height with
        isReply := insert (cfg.getDigest r) n.isReply } := ⟨rfl, Finset.subset_insert _ _⟩
    exact hone.trans (ih (height + 1))

theorem prepareNext_quiet (h : n.prepareNext cfg = some (n', out)) :
    Quiet n n' ∧ NoCommit out := by
  rcases prepareNext_cases h with ⟨rfl, rfl⟩ | ⟨d, r, flag, -, -, hin, rfl⟩
  · exact ⟨.refl n', noCommit_nil⟩
  · exact ⟨handleinPrePrepare_quiet hin, preparePackets_noCommit⟩

theorem handleforSequentialRequest_quiet {m : SendOldMessage}
    (h : n.handleforSequentialRequest m = some n') : Quiet n n' := by
  rcases handleforSequentialRequest_cases h with rfl | ⟨k, ledger, -, rfl⟩
  · exact .refl n'
  · exact .of_eq rfl rfl

theorem handleSendOldSeq_quiet {m : SendOldMessage} (h : n.handleSendOldSeq cfg m = (n', out)) :
    Quiet n n' ∧ NoCommit out := by
  rcases handleSendOldSeq_cases h with ⟨rfl, rfl⟩ | ⟨n₁, hseq, hend⟩
  · exact ⟨.crash n, noCommit_nil⟩
  · have hloop : Quiet n₁ (n₁.afterOld cfg m) :=
      (storeOld_quiet m.oldRequest m.seqStartHeight).trans (.of_eq rfl rfl)
    have hstored := (handleforSequentialRequest_quiet hseq).trans hloop
    rcases hend with ⟨rfl, rfl⟩ | ⟨n₂, hnext, hlast⟩
    · exact ⟨hstored.trans (.crash _), noCommit_nil⟩
    · obtain ⟨hnode, hout⟩ := prepareNext_quiet hnext
      refine ⟨(hstored.trans hnode).trans ?_, hout⟩
      rcases hlast with rfl | rfl
      · exact .of_eq rfl rfl
      · exact .crash n₂

theorem propose_quiet {now : Time} (h : n.propose cfg now = some (n', out)) :
    Quiet n n' ∧ NoCommit out := by
  obtain ⟨-, -, hcases⟩ := propose_cases h
  rcases hcases with ⟨-, -, rfl, rfl⟩ | ⟨-, -, rfl, rfl⟩ | ⟨-, -, hblock⟩
  · exact ⟨.of_eq rfl rfl, noCommit_nil⟩
  · exact ⟨.of_eq rfl rfl, noCommit_nil⟩
  · rcases proposeBlock_cases hblock with ⟨rfl, rfl⟩ | ⟨b, ledger, -, -, -, rfl, rfl⟩
    · exact ⟨.crash n, noCommit_nil⟩
    · exact ⟨.of_eq rfl rfl, noCommit_singleton fun v h => by cases h⟩

theorem execute_ballots {v : Vote} {r : Option Request} :
    (n.execute cfg v r).ballots =
        { n.ballots with executed := n.executed ++ [⟨v.digest, v.seqID⟩] } ∧
      n.isReply ⊆ (n.execute cfg v r).isReply := by
  rcases execute_cases cfg n v r with heq | ⟨req, b, ledger, ok, -, -, -, heq | heq⟩
  · rw [heq]
    exact ⟨rfl, Finset.Subset.refl _⟩
  · rw [heq]
    exact ⟨rfl, Finset.Subset.refl _⟩
  · rw [heq]
    have hquiet := unlockSequence_quiet (n.afterRound v ledger)
    exact ⟨hquiet.ballots, (Finset.subset_insert _ _).trans hquiet.replied⟩

end Node

open Node

/-- Everything a move can do to the vote tables.  No request loses its reply mark. -/
inductive BallotMove (cfg : PbftConfig) (n : Node) : Move → Node → List Packet → Prop
  | same {mv n' out} (hsame : Quiet n n') (hout : NoCommit out) : BallotMove cfg n mv n' out
  /-- A prepare vote is counted. -/
  | prepare {v n'}
      (hnew : n'.ballots = { n.ballots with
        prepares := Function.update n.cntPrepareConfirm v.digest
          (addKey (n.cntPrepareConfirm v.digest) v.sender) })
      (hreply : n.isReply ⊆ n'.isReply) : BallotMove cfg n (.handle (.prepare v)) n' []
  /-- A prepare vote is counted, and the node commits. -/
  | commit {v n'}
      (henough : n.specifiedCnt cfg ≤ (addKey (n.cntPrepareConfirm v.digest) v.sender).length)
      (hfirst : v.digest ∉ n.isCommitBordcast)
      (hnew : n'.ballots = { n.ballots with
        prepares := Function.update n.cntPrepareConfirm v.digest
          (addKey (n.cntPrepareConfirm v.digest) v.sender)
        committed := insert v.digest n.isCommitBordcast })
      (hreply : n.isReply ⊆ n'.isReply) :
      BallotMove cfg n (.handle (.prepare v)) n'
        [.all (.commit ⟨v.digest, v.seqID, some n.nodeID⟩)]
  /-- A commit vote is counted. -/
  | count {v n' out} (hsender : v.sender ≠ none)
      (hnew : n'.ballots = { n.ballots with
        commits := Function.update n.cntCommitConfirm v.digest
          (addKey (n.cntCommitConfirm v.digest) v.sender) })
      (hreply : n.isReply ⊆ n'.isReply)
      (hout : NoCommit out) : BallotMove cfg n (.handle (.commit v)) n' out
  /-- A commit vote is counted, and the request is executed. -/
  | execute {v n'} (hsender : v.sender ≠ none)
      (henough : 2 * cfg.f ≤ (addKey (n.cntCommitConfirm v.digest) v.sender).length)
      (hfirst : v.digest ∉ n.isReply)
      (hnew : n'.ballots = { n.ballots with
        commits := Function.update n.cntCommitConfirm v.digest
          (addKey (n.cntCommitConfirm v.digest) v.sender)
        executed := n.executed ++ [⟨v.digest, v.seqID⟩] })
      (hreply : n.isReply ⊆ n'.isReply) : BallotMove cfg n (.handle (.commit v)) n' []

variable {cfg : PbftConfig} {n n' : Node} {out : List Packet}

theorem handlePrepare_ballots {v : Vote} (h : n.handlePrepare cfg v = (n', out)) :
    BallotMove cfg n (.handle (.prepare v)) n' out := by
  rcases handlePrepare_cases h with ⟨rfl, rfl⟩ | ⟨rfl, rfl⟩ | ⟨henough, hfirst, rfl, rfl⟩
  · exact .same (.refl n') noCommit_nil
  · exact .prepare rfl (Finset.Subset.refl _)
  · exact .commit henough hfirst rfl (Finset.Subset.refl _)

theorem handleCommit_ballots {v : Vote} (h : n.handleCommit cfg v = (n', out)) :
    BallotMove cfg n (.handle (.commit v)) n' out := by
  rcases handleCommit_cases h with ⟨-, rfl, rfl⟩ | ⟨hsender, hcounted⟩
  · exact .same (.crash n) noCommit_nil
  · rcases hcounted with ⟨rfl, rfl⟩ | ⟨henough, hfirst, ⟨-, hask⟩ | ⟨r, -, rfl, rfl⟩⟩
    · exact .count hsender rfl (Finset.Subset.refl _) noCommit_nil
    · obtain ⟨hnode, hout⟩ := askFor_quiet hask
      exact .count hsender hnode.ballots ((Finset.subset_insert _ _).trans hnode.replied) hout
    · obtain ⟨hnew, hreply⟩ := execute_ballots
      exact .execute hsender henough hfirst hnew hreply

/-- **What a move does to the vote tables.** -/
theorem Node.move_ballots {mv : Move} (h : n.move cfg mv = some (n', out)) :
    BallotMove cfg n mv n' out := by
  cases mv with
  | handle m =>
    obtain ⟨-, hres⟩ := move_handle h
    cases m with
    | prePrepare m =>
      obtain ⟨hnode, hout⟩ := handlePrePrepare_quiet hres
      exact .same hnode hout
    | prepare v => exact handlePrepare_ballots hres
    | commit v => exact handleCommit_ballots hres
    | requestOld m =>
      rcases handleRequestOldSeq_cases hres with ⟨rfl, rfl⟩ | ⟨-, rfl, rfl⟩ | ⟨j, -, rfl, rfl⟩
      · exact .same (.refl n') noCommit_nil
      · exact .same (.crash n) noCommit_nil
      · exact .same (.refl n') (noCommit_singleton fun v h => by cases h)
    | sendOld m =>
      obtain ⟨hnode, hout⟩ := handleSendOldSeq_quiet hres
      exact .same hnode hout
    | stop =>
      cases hres
      exact .same (.of_eq rfl rfl) noCommit_nil
    | outside addsTxs =>
      obtain ⟨rfl | rfl, rfl⟩ := outside_cases hres
      · exact .same (.refl n') noCommit_nil
      · exact .same (.crash n) noCommit_nil
  | resume =>
    obtain ⟨seqEnd, -, -, hask⟩ := move_resume h
    obtain ⟨hnode, hout⟩ := askFor_quiet hask
    exact .same hnode hout
  | propose now =>
    obtain ⟨hnode, hout⟩ := propose_quiet h
    exact .same hnode hout
  | fill txs =>
    obtain ⟨rfl, rfl⟩ := move_fill h
    exact .same (.of_eq rfl rfl) noCommit_nil

theorem BallotMove.nodeID_eq {mv : Move} (h : BallotMove cfg n mv n' out) :
    n'.nodeID = n.nodeID := by
  cases h with
  | same hsame hout => exact congrArg Ballots.nodeID hsame.ballots
  | prepare hnew hreply => exact congrArg Ballots.nodeID hnew
  | commit henough hfirst hnew hreply => exact congrArg Ballots.nodeID hnew
  | count hsender hnew hreply hout => exact congrArg Ballots.nodeID hnew
  | execute hsender henough hfirst hnew hreply => exact congrArg Ballots.nodeID hnew

/-! ### The received messages -/

def Msg.prepareVote : Msg → Option Vote
  | .prepare v => some v
  | _ => none

def Msg.commitVote : Msg → Option Vote
  | .commit v => some v
  | _ => none

/-- The `NodeID`s of the votes for a digest; `sel` says which messages are votes. -/
def senders (sel : Msg → Option Vote) (received : List Msg) (d : Digest) : Finset ℕ :=
  (received.filterMap fun m =>
    (sel m).bind fun v => if v.digest = d then v.sender else none).toFinset

theorem mem_senders {sel : Msg → Option Vote} {received : List Msg} {d : Digest} {j : ℕ} :
    j ∈ senders sel received d ↔
      ∃ m ∈ received, ∃ v, sel m = some v ∧ v.digest = d ∧ v.sender = some j := by
  simp only [senders, List.mem_toFinset, List.mem_filterMap, Option.bind_eq_some_iff,
    Option.ite_none_right_eq_some]

theorem senders_subset {sel : Msg → Option Vote} {received more : List Msg} {d : Digest} :
    senders sel received d ⊆ senders sel (received ++ more) d := by
  intro j hj
  obtain ⟨m, hm, hv⟩ := mem_senders.mp hj
  exact mem_senders.mpr ⟨m, List.mem_append_left _ hm, hv⟩

theorem addKey_some (votes : List (Option ℕ)) (j : ℕ) :
    addKey votes (some j) = votes ++ [some j] := if_neg fun h => by cases h.1

/-- Every vote of the table is the only one of its sender. -/
structure Counted (votes : List (Option ℕ)) (voters : Finset ℕ) : Prop where
  nodup : votes.Nodup
  voter : ∀ x ∈ votes, ∃ j ∈ voters, x = some j

namespace Counted

variable {votes : List (Option ℕ)} {voters voters' : Finset ℕ}

theorem mono (h : Counted votes voters) (hsub : voters ⊆ voters') : Counted votes voters' := by
  refine ⟨h.nodup, ?_⟩
  intro x hx
  obtain ⟨j, hj, rfl⟩ := h.voter x hx
  exact ⟨j, hsub hj, rfl⟩

theorem add (h : Counted votes voters) {j : ℕ} (hj : j ∈ voters) (hnew : some j ∉ votes) :
    Counted (addKey votes (some j)) voters := by
  rw [addKey_some]
  constructor
  case nodup => exact List.nodup_append_comm.mp (List.nodup_cons.mpr ⟨hnew, h.nodup⟩)
  case voter =>
    intro x hx
    rcases List.mem_append.mp hx with hold | hlast
    · exact h.voter x hold
    · exact ⟨j, hj, List.mem_singleton.mp hlast⟩

theorem length_le (h : Counted votes voters) : votes.length ≤ voters.card := by
  have hsub : votes.toFinset ⊆ voters.image some := by
    intro x hx
    obtain ⟨j, hj, rfl⟩ := h.voter x (List.mem_toFinset.mp hx)
    exact Finset.mem_image_of_mem some hj
  calc votes.length = votes.toFinset.card := (List.toFinset_card_of_nodup h.nodup).symm
    _ ≤ (voters.image some).card := Finset.card_le_card hsub
    _ ≤ voters.card := Finset.card_image_le

end Counted

/-- One more vote in a table, from a sender that is not in it. -/
theorem counted_update {tbl : Digest → List (Option ℕ)} {sel : Msg → Option Vote}
    {received : List Msg} {m : Msg} {v : Vote}
    (h : ∀ d, Counted (tbl d) (senders sel received d)) (hsel : sel m = some v)
    (hsender : v.sender ≠ none) (hnew : v.sender ∉ tbl v.digest) (d : Digest) :
    Counted (Function.update tbl v.digest (addKey (tbl v.digest) v.sender) d)
      (senders sel (received ++ [m]) d) := by
  obtain ⟨j, hj⟩ := Option.ne_none_iff_exists'.mp hsender
  by_cases hd : d = v.digest
  · subst hd
    rw [Function.update_self, hj]
    have hvoter : j ∈ senders sel (received ++ [m]) v.digest :=
      mem_senders.mpr ⟨m, List.mem_append_right _ (List.mem_singleton.mpr rfl), v, hsel, rfl, hj⟩
    exact ((h _).mono senders_subset).add hvoter (hj ▸ hnew)
  · rw [Function.update_of_ne hd]
    exact (h d).mono senders_subset

theorem length_le_addKey (votes : List (Option ℕ)) (sender : Option ℕ) :
    votes.length ≤ (addKey votes sender).length := by
  unfold addKey
  split_ifs
  · exact le_rfl
  · rw [List.length_append]
    exact Nat.le_add_right _ _

/-- No table gets shorter by a vote. -/
theorem length_le_update (tbl : Digest → List (Option ℕ)) (v : Vote) (d : Digest) :
    (tbl d).length ≤
      (Function.update tbl v.digest (addKey (tbl v.digest) v.sender) d).length := by
  by_cases hd : d = v.digest
  · subst hd
    rw [Function.update_self]
    exact length_le_addKey _ _
  · rw [Function.update_of_ne hd]

/-! ### Runs of one node -/

/-- A node with the messages it has handled. -/
structure Replica where
  node : Node
  received : List Msg

def Move.received : Move → List Msg
  | .handle m => [m]
  | _ => []

def replicaStep (cfg : PbftConfig) (s : Replica) (mv : Move) : Option Replica :=
  (s.node.move cfg mv).map fun res => ⟨res.1, s.received ++ mv.received⟩

/-- A new node, over any ledger. -/
def AtStart (s : Replica) : Prop :=
  ∃ nodeID curChain, s = ⟨newPbftNode nodeID curChain, []⟩

/-- A vote is handled only when its sender is not yet counted for the digest; a prepare also has
a sender. -/
def CountsOnce (s : Replica) : Move → Prop
  | .handle (.prepare v) => v.sender ≠ none ∧ v.sender ∉ s.node.cntPrepareConfirm v.digest
  | .handle (.commit v) => v.sender ∉ s.node.cntCommitConfirm v.digest
  | _ => True

instance (s : Replica) : (mv : Move) → Decidable (CountsOnce s mv)
  | .handle (.prepare _) => inferInstanceAs (Decidable (_ ∧ _))
  | .handle (.commit _) => inferInstanceAs (Decidable (¬ _))
  | .handle (.prePrepare _) | .handle (.requestOld _) | .handle (.sendOld _) | .handle .stop
  | .handle (.outside _) | .resume | .propose _ | .fill _ => inferInstanceAs (Decidable True)

/-- The tables list distinct senders, and what was decided had its votes. -/
structure Tallied (cfg : PbftConfig) (b : Ballots) (received : List Msg) : Prop where
  prepares : ∀ d, Counted (b.prepares d) (senders Msg.prepareVote received d)
  commits : ∀ d, Counted (b.commits d) (senders Msg.commitVote received d)
  committed : ∀ d ∈ b.committed,
    (2 * cfg.f - if b.nodeID = view then 0 else 1 : ℤ) ≤ (b.prepares d).length
  executed : ∀ e ∈ b.executed, 2 * cfg.f ≤ (b.commits e.digest).length

theorem Tallied.mono {b : Ballots} {received more : List Msg} (h : Tallied cfg b received) :
    Tallied cfg b (received ++ more) :=
  ⟨fun d => (h.prepares d).mono senders_subset, fun d => (h.commits d).mono senders_subset,
    h.committed, h.executed⟩

theorem tallied_start (nodeID : ℕ) (curChain : Ledger) :
    Tallied cfg (newPbftNode nodeID curChain).ballots [] := by
  constructor
  case prepares => exact fun d => ⟨List.nodup_nil, fun x hx => absurd hx List.not_mem_nil⟩
  case commits => exact fun d => ⟨List.nodup_nil, fun x hx => absurd hx List.not_mem_nil⟩
  case committed => exact fun d hd => absurd hd (Finset.notMem_empty d)
  case executed => exact fun e he => absurd he List.not_mem_nil

/-- One step keeps the tables in order. -/
theorem tallied_step {s s' : Replica} {mv : Move} (h : Tallied cfg s.node.ballots s.received)
    (hg : CountsOnce s mv) (hstep : replicaStep cfg s mv = some s') :
    Tallied cfg s'.node.ballots s'.received := by
  obtain ⟨⟨n', out⟩, hmove, rfl⟩ := Option.map_eq_some_iff.mp hstep
  cases move_ballots hmove with
  | same hsame hout =>
    show Tallied cfg n'.ballots _
    rw [hsame.ballots]
    exact h.mono
  | @prepare v _ hnew hreply =>
    obtain ⟨hsender, hfresh⟩ := hg
    show Tallied cfg n'.ballots _
    rw [hnew]
    constructor
    case prepares => exact counted_update h.prepares rfl hsender hfresh
    case commits => exact h.mono.commits
    case committed =>
      intro d hd
      exact (h.committed d hd).trans (Int.ofNat_le.mpr (length_le_update _ v d))
    case executed => exact h.executed
  | @commit v _ henough hfirst hnew hreply =>
    obtain ⟨hsender, hfresh⟩ := hg
    show Tallied cfg n'.ballots _
    rw [hnew]
    constructor
    case prepares => exact counted_update h.prepares rfl hsender hfresh
    case commits => exact h.mono.commits
    case committed =>
      intro d hd
      rcases Finset.mem_insert.mp hd with rfl | hold
      · simp only [Function.update_self]
        exact henough
      · exact (h.committed d hold).trans (Int.ofNat_le.mpr (length_le_update _ v d))
    case executed => exact h.executed
  | @count v _ _ hsender hnew hreply hout =>
    show Tallied cfg n'.ballots _
    rw [hnew]
    constructor
    case prepares => exact h.mono.prepares
    case commits => exact counted_update h.commits rfl hsender hg
    case committed => exact h.committed
    case executed => exact fun e he => (h.executed e he).trans (length_le_update _ v e.digest)
  | @execute v _ hsender henough hfirst hnew hreply =>
    show Tallied cfg n'.ballots _
    rw [hnew]
    constructor
    case prepares => exact h.mono.prepares
    case commits => exact counted_update h.commits rfl hsender hg
    case committed => exact h.committed
    case executed =>
      intro e he
      rcases List.mem_append.mp he with hold | hlast
      · exact (h.executed e hold).trans (length_le_update _ v e.digest)
      · obtain rfl := List.mem_singleton.mp hlast
        simp only [Function.update_self]
        exact henough

theorem tallied_of_run {s : Replica} (h : Reach (replicaStep cfg) CountsOnce AtStart s) :
    Tallied cfg s.node.ballots s.received := by
  induction h with
  | start hs =>
    obtain ⟨nodeID, curChain, rfl⟩ := hs
    exact tallied_start nodeID curChain
  | next _ hg hstep ih => exact tallied_step ih hg hstep

/-- **Votes are counted per sender.**  In every run in which no sender is counted twice for a
digest, a commit is broadcast only after prepares of `2f` distinct nodes, `2f - 1` at a backup,
and a request is executed only after commits of `2f` distinct nodes. -/
theorem votes_per_sender {s : Replica} (h : Reach (replicaStep cfg) CountsOnce AtStart s)
    (d : Digest) :
    (d ∈ s.node.isCommitBordcast →
      s.node.specifiedCnt cfg ≤ (senders Msg.prepareVote s.received d).card) ∧
    ((∃ e ∈ s.node.executed, e.digest = d) →
      2 * cfg.f ≤ (senders Msg.commitVote s.received d).card) := by
  have htally := tallied_of_run h
  constructor
  · intro hd
    exact (htally.committed d hd).trans (Int.ofNat_le.mpr (htally.prepares d).length_le)
  · rintro ⟨e, he, rfl⟩
    exact (htally.executed e he).trans (htally.commits e.digest).length_le

/-! ### A shard of four nodes -/

/-- The digest of a request of the test shard: the hash of its block, with a tag. -/
def shortDigest : Option Request → Digest
  | none => []
  | some r => match r.content with
    | none => [0]
    | some b => 1 :: b.hash

/-- Four nodes, one of which may be faulty. -/
def shortShard (hasTxpool : Bool) : PbftConfig := ⟨shortConfig, 4, shortDigest, hasTxpool⟩

/-- The main node proposes the first block, whose digest is `[1, 1, 1]`, and two nodes vote. -/
def firstRound (i j : ℕ) : List Move :=
  [.propose 0, .propose 0,
    .handle (.prepare ⟨[1, 1, 1], 1, some i⟩), .handle (.prepare ⟨[1, 1, 1], 1, some j⟩),
    .handle (.commit ⟨[1, 1, 1], 1, some i⟩), .handle (.commit ⟨[1, 1, 1], 1, some j⟩)]

theorem votes_per_sender_round :
    ∃ s, Reach (replicaStep (shortShard false)) CountsOnce AtStart s ∧
      [1, 1, 1] ∈ s.node.isCommitBordcast ∧ ⟨[1, 1, 1], 1⟩ ∈ s.node.executed ∧
      s.node.specifiedCnt (shortShard false) ≤
        (senders Msg.prepareVote s.received [1, 1, 1]).card ∧
      2 * (shortShard false).f ≤ (senders Msg.commitVote s.received [1, 1, 1]).card := by
  have hstart : Reach (replicaStep (shortShard false)) CountsOnce AtStart
      ⟨newPbftNode view shortLedger, []⟩ := .start ⟨view, shortLedger, rfl⟩
  obtain ⟨s, hreach, hcommitted, hexecuted⟩ := exists_reach_of_run (firstRound 1 2)
    (fun s => [1, 1, 1] ∈ s.node.isCommitBordcast ∧ ⟨[1, 1, 1], 1⟩ ∈ s.node.executed) hstart
    (by decide +kernel)
  obtain ⟨hprepares, hcommits⟩ := votes_per_sender hreach [1, 1, 1]
  exact ⟨s, hreach, hcommitted, hexecuted, hprepares hcommitted, hcommits ⟨_, hexecuted, rfl⟩⟩

/-- One node votes, and each of its messages comes twice: the main node commits and executes. -/
theorem votes_counted_twice :
    ∃ s, Reach (replicaStep (shortShard false)) anyStep AtStart s ∧
      ([1, 1, 1] ∈ s.node.isCommitBordcast ∧
        ((senders Msg.prepareVote s.received [1, 1, 1]).card : ℤ) <
          s.node.specifiedCnt (shortShard false)) ∧
      ⟨[1, 1, 1], 1⟩ ∈ s.node.executed ∧
        (senders Msg.commitVote s.received [1, 1, 1]).card < 2 * (shortShard false).f := by
  have hstart : Reach (replicaStep (shortShard false)) anyStep AtStart
      ⟨newPbftNode view shortLedger, []⟩ := .start ⟨view, shortLedger, rfl⟩
  exact exists_reach_of_run (firstRound 1 1) _ hstart (by decide +kernel)

end Aster.Pbft
