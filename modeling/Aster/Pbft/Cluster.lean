import Aster.Pbft.Votes

/-!
# A shard of PBFT nodes

The nodes of a shard and the packets that were sent.  A packet stays in the network, so that it
can be handled at any time, by any of its receivers, any number of times or never.  Faulty nodes
can also make prepare, commit and pre-prepare messages of their own, in any name: the messages are
not signed.
-/

namespace Aster.Pbft

open Aster.Core Aster.Chain Aster.Lib.Transition

structure Cluster where
  nodes : ℕ → Node
  sent : List Packet

structure ClusterMove where
  node : ℕ
  move : Move
  deriving DecidableEq

/-- Messages that do not come from a node of the shard. -/
def Msg.external : Msg → Bool
  | .stop | .outside _ => true
  | _ => false

/-- Messages that a faulty node can make up. -/
def Msg.forgeable : Msg → Bool
  | .prePrepare _ | .prepare _ | .commit _ => true
  | _ => false

/-- The move can be made as far as the network is concerned. -/
def Cluster.enabled (s : Cluster) (faulty : Finset ℕ) (i : ℕ) : Move → Bool
  | .handle m => .all m ∈ s.sent || .one i m ∈ s.sent || m.external ||
      (faulty.Nonempty && m.forgeable)
  | _ => true

def clusterStep (cfg : PbftConfig) (faulty : Finset ℕ) (s : Cluster) (l : ClusterMove) :
    Option Cluster :=
  if l.node < cfg.nodeNums ∧ s.enabled faulty l.node l.move then
    ((s.nodes l.node).move cfg l.move).map fun res =>
      ⟨Function.update s.nodes l.node res.1, s.sent ++ res.2⟩
  else none

/-- New nodes, each over a ledger of its own, and nothing sent. -/
def ClusterStart (s : Cluster) : Prop :=
  s.sent = [] ∧ ∀ i, ∃ curChain, s.nodes i = newPbftNode i curChain

variable {cfg : PbftConfig} {faulty : Finset ℕ} {s s' : Cluster} {l : ClusterMove}

/-- **A step of the shard is a move of one node.** -/
theorem clusterStep_cases (h : clusterStep cfg faulty s l = some s') :
    ∃ n' out, (s.nodes l.node).move cfg l.move = some (n', out) ∧ l.node < cfg.nodeNums ∧
      s.enabled faulty l.node l.move ∧
      s' = ⟨Function.update s.nodes l.node n', s.sent ++ out⟩ := by
  unfold clusterStep at h
  split_ifs at h with hl
  obtain ⟨⟨n', out⟩, hmove, rfl⟩ := Option.map_eq_some_iff.mp h
  exact ⟨n', out, hmove, hl.1, hl.2, rfl⟩

/-! ### The commits that were sent -/

def Packet.commitVote : Packet → Option Vote
  | .all (.commit v) => some v
  | _ => none

def commitVotes (sent : List Packet) : List Vote := sent.filterMap Packet.commitVote

theorem commitVotes_of_noCommit {sent out : List Packet} (h : NoCommit out) :
    commitVotes (sent ++ out) = commitVotes sent := by
  have hnone : out.filterMap Packet.commitVote = [] := by
    refine List.filterMap_eq_nil_iff.mpr ?_
    intro pk hpk
    cases hv : pk.commitVote with
    | none => rfl
    | some v =>
      unfold Packet.commitVote at hv
      split at hv
      · next c => exact absurd rfl (h _ hpk c)
      · cases hv
  rw [commitVotes, List.filterMap_append, hnone, List.append_nil]
  rfl

theorem commitVotes_snoc (sent : List Packet) (v : Vote) :
    commitVotes (sent ++ [.all (.commit v)]) = commitVotes sent ++ [v] := by
  rw [commitVotes, List.filterMap_append]
  rfl

/-! ### A round of four nodes -/

/-- The four nodes at the start. -/
def shortCluster : Cluster := ⟨fun i => newPbftNode i shortLedger, []⟩

theorem clusterStart_short : ClusterStart shortCluster := ⟨rfl, fun _ => ⟨shortLedger, rfl⟩⟩

/-- The first block of the main node, as it is proposed at time 0. -/
def firstPrePrepare : Msg :=
  match generateBlock shortConfig shortLedger 0 0 with
  | none => .stop
  | some (_, b) => .prePrepare ⟨some ⟨.block, some b, 0⟩, [1, 1, 1], 1⟩

def prepareOf (j : ℕ) : Msg := .prepare ⟨[1, 1, 1], 1, some j⟩

def commitOf (j : ℕ) : Msg := .commit ⟨[1, 1, 1], 1, some j⟩

/-- The nodes 0, 1 and 2 bring the first block through, without node 3. -/
def quorumRound : List ClusterMove :=
  [⟨0, .propose 0⟩, ⟨0, .propose 0⟩, ⟨1, .handle firstPrePrepare⟩, ⟨2, .handle firstPrePrepare⟩,
    ⟨1, .handle (prepareOf 2)⟩, ⟨2, .handle (prepareOf 1)⟩,
    ⟨0, .handle (prepareOf 1)⟩, ⟨0, .handle (prepareOf 2)⟩,
    ⟨1, .handle (commitOf 0)⟩, ⟨1, .handle (commitOf 2)⟩,
    ⟨2, .handle (commitOf 0)⟩, ⟨2, .handle (commitOf 1)⟩]

end Aster.Pbft
