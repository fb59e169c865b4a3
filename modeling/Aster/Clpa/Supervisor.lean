import Aster.Clpa.Algorithm
import Aster.Clpa.Transfer

/-!
# The partition views of the supervisor and the shards

The account-to-shard map is kept in three places: in the graph of the CLPA committee, in its
`modifiedMap`, and in the `PartitionMap` of every shard.  A round runs `CLPA_Partition` on the
graph, sends the difference map to the shards, merges it into `modifiedMap` and builds a new graph
from that.  Between rounds the reports of blocks add edges.

* `Consistent`: the graph agrees with `modifiedMap`, and `modifiedMap` is what the maps sent so far
  make of an empty one;
* `supervisor_returns`: neither kind of step panics;
* `partition_views_agree`: the three views are the same.

The round is one step, as it holds `clpaLock`.  The loops over Go maps take their keys in the
orders that the step is given.
-/

namespace Aster.Clpa

open Aster.Core Aster.Chain Aster.Lib.Containers Aster.Lib.Transition

structure Supervisor where
  clpaGraph : CLPAState
  modifiedMap : PartitionMap
  /-- The result maps of the rounds, as `clpaMapSend` has sent them. -/
  results : List PartitionMap

def newSupervisor (shardNum : ℕ) : Supervisor := ⟨initCLPAState shardNum, ∅, []⟩

def fetchModifiedMap (shardNum : ℕ) (modifiedMap : PartitionMap) (key : Address) : Option UInt64 :=
  match modifiedMap.lookup key with
  | none => (addr2Shard shardNum key).map fun shard => UInt64.ofInt shard
  | some val => some val

/-- `HandleBlockInfo`, with `BlockBodyLength` and `ExcutedTxs` of the report. -/
def handleBlockInfo (shardNum : ℕ) (s : Supervisor) (blockBodyLength : ℕ)
    (excutedTxs : List Transaction) : Option Supervisor :=
  if blockBodyLength = 0 then some s
  else do
    let cs ← excutedTxs.foldlM (fun cs tx => cs.addEdge shardNum (tx.sender, tx.recipient))
      s.clpaGraph
    some { s with clpaGraph := cs }

/-- `clpaReset`, with the order of its loop over `modifiedMap`. -/
def clpaReset (shardNum : ℕ) (modifiedMap : PartitionMap) (keys : List Address) : CLPAState :=
  { initCLPAState shardNum with
    partitionMap := assign (fun val : UInt64 => toInt val.toNat) modifiedMap keys ∅ }

/-- The orders of the loops of a round. -/
structure Orders where
  /-- The vertices, in each iteration of `CLPA_Partition`. -/
  vertices : List (List Vertex)
  /-- The keys of the result, in the merge. -/
  merge : List Address
  /-- The keys of `modifiedMap`, in `clpaReset`. -/
  reset : List Address

/-- Every iteration goes over all vertices. -/
def Orders.Valid (o : Orders) (g : Graph) : Prop :=
  o.vertices.length = maxIterations ∧ ∀ vs ∈ o.vertices, vs.Nodup ∧ vs.toFinset = g.vertexSet

instance (o : Orders) (g : Graph) : Decidable (o.Valid g) := inferInstanceAs (Decidable (_ ∧ _))

variable {F : Type}

/-- The part of `MsgSendingControl` under `clpaLock`.  An order that is none of the map is no
step. -/
def partitionRound (sc : Scores F) (shardNum : ℕ) (s : Supervisor) (o : Orders) :
    Option Supervisor :=
  if o.Valid s.clpaGraph.netGraph then do
    let (_, mmap) ← clpaPartition sc shardNum s.clpaGraph o.vertices
    let modifiedMap := assign id mmap o.merge s.modifiedMap
    if Iterates mmap o.merge ∧ Iterates modifiedMap o.reset then
      some ⟨clpaReset shardNum modifiedMap o.reset, modifiedMap, s.results ++ [mmap]⟩
    else none
  else none

inductive SupervisorMove
  | blockInfo (blockBodyLength : ℕ) (excutedTxs : List Transaction)
  | partition (o : Orders)

def supervisorStep (sc : Scores F) (shardNum : ℕ) (s : Supervisor) :
    SupervisorMove → Option Supervisor
  | .blockInfo blockBodyLength excutedTxs => handleBlockInfo shardNum s blockBodyLength excutedTxs
  | .partition o => partitionRound sc shardNum s o

/-- A shard applies the maps with `Update_PartitionMap`, each in some order of its keys. -/
def applyMaps (rounds : List (PartitionMap × List Address)) : PartitionMap :=
  rounds.foldl (fun pm round => assign id round.1 round.2 pm) ∅

/-! ### The invariant -/

structure Consistent (shardNum : ℕ) (s : Supervisor) : Prop where
  sharded : Sharded shardNum s.clpaGraph
  agrees : Agrees shardNum s.clpaGraph s.modifiedMap
  merged : s.modifiedMap = s.results.foldl (fun pm m => m ∪ pm) ∅

variable {shardNum : ℕ} {s s' : Supervisor}

theorem consistent_new (shardNum : ℕ) : Consistent shardNum (newSupervisor shardNum) where
  sharded := sharded_init shardNum
  agrees := by
    constructor
    · intro v k hk
      cases hk
    · intro v w hw
      cases hw
  merged := rfl

theorem Consistent.handleBlockInfo (hc : Consistent shardNum s) {blockBodyLength : ℕ}
    {excutedTxs : List Transaction}
    (h : handleBlockInfo shardNum s blockBodyLength excutedTxs = some s') :
    Consistent shardNum s' := by
  unfold Clpa.handleBlockInfo at h
  split_ifs at h with hempty
  · cases h
    exact hc
  · obtain ⟨cs, hcs, h⟩ := Option.bind_eq_some_iff.mp h
    cases h
    obtain ⟨hsharded, hagrees⟩ := foldlM_keeps
      (P := fun cs => Sharded shardNum cs ∧ Agrees shardNum cs s.modifiedMap)
      (fun cs cs' hcs tx _ hstep => addEdge_keeps hcs.1 hcs.2 hstep) ⟨hc.sharded, hc.agrees⟩ hcs
    exact ⟨hsharded, hagrees, hc.merged⟩

theorem toInt_of_lt {n : ℕ} (h : n < 2 ^ 63) : toInt n = n := if_pos h

/-- The new graph has the shards of `modifiedMap`. -/
theorem lookup_clpaReset (hsn : shardNum < 2 ^ 63) {cs : CLPAState} {modifiedMap : PartitionMap}
    (hs : Sharded shardNum cs) (ha : Agrees shardNum cs modifiedMap) {keys : List Address}
    (hkeys : Iterates modifiedMap keys) (v : Vertex) :
    (clpaReset shardNum modifiedMap keys).partitionMap.lookup v =
      (modifiedMap.lookup v).map fun w => (w.toNat : ℤ) := by
  show (assign (fun val : UInt64 => toInt val.toNat) modifiedMap keys ∅).lookup v = _
  rw [lookup_assign _ hkeys.2]
  cases hw : modifiedMap.lookup v with
  | none => rfl
  | some w =>
    have hrange := hs.range v _ (ha.stored v w hw)
    show some (toInt w.toNat) = some (w.toNat : ℤ)
    rw [toInt_of_lt (by omega)]

theorem Consistent.reset (hsn : shardNum < 2 ^ 63) {cs : CLPAState} {modifiedMap : PartitionMap}
    (hs : Sharded shardNum cs) (ha : Agrees shardNum cs modifiedMap) {keys : List Address}
    (hkeys : Iterates modifiedMap keys) :
    Sharded shardNum (clpaReset shardNum modifiedMap keys) ∧
      Agrees shardNum (clpaReset shardNum modifiedMap keys) modifiedMap := by
  have hlookup := lookup_clpaReset hsn hs ha hkeys
  have hentry : ∀ v k, (clpaReset shardNum modifiedMap keys).partitionMap.lookup v = some k →
      ∃ w : UInt64, modifiedMap.lookup v = some w ∧ (w.toNat : ℤ) = k := by
    intro v k hk
    rw [hlookup] at hk
    exact Option.map_eq_some_iff.mp hk
  refine ⟨⟨List.length_replicate, ?_, ?_, ?_⟩, ⟨?_, ?_⟩⟩
  · intro v k hk
    obtain ⟨w, hw, rfl⟩ := hentry v k hk
    exact hs.range v _ (ha.stored v w hw)
  · intro v hv
    exact absurd hv (Finset.notMem_empty v)
  · intro v u hu
    cases hu
  · intro v k hk
    obtain ⟨w, hw, rfl⟩ := hentry v k hk
    have hrange := hs.range v _ (ha.stored v w hw)
    rw [getPartitionMap, hw]
    have hback := toNat_ofInt_of_lt hsn hrange.1 hrange.2
    exact congrArg some (UInt64.toNat_inj.mp (by omega))
  · intro v w hw
    rw [hlookup, hw]
    rfl

/-- The vertices of valid orders are those of the graph. -/
theorem Orders.Valid.mem {o : Orders} {g : Graph} (h : o.Valid g) :
    ∀ vs ∈ o.vertices, ∀ v ∈ vs, v ∈ g.vertexSet := by
  intro vs hvs v hv
  rw [← (h.2 vs hvs).2]
  exact List.mem_toFinset.mpr hv

theorem Consistent.partitionRound (hsn : shardNum < 2 ^ 63) (hc : Consistent shardNum s)
    {sc : Scores F} {o : Orders} (h : partitionRound sc shardNum s o = some s') :
    Consistent shardNum s' := by
  unfold Clpa.partitionRound at h
  split_ifs at h with hvalid
  obtain ⟨cs, mmap, hpart, hsharded, hagrees⟩ :=
    clpaPartition_spec sc hsn hc.sharded hc.agrees hvalid.mem
  rw [hpart, Option.bind_eq_bind, Option.bind_some] at h
  dsimp only at h
  split_ifs at h with horders
  cases h
  rw [← assign_id horders.1.2] at hagrees
  obtain ⟨hsharded', hagrees'⟩ := Consistent.reset hsn hsharded hagrees horders.2
  refine ⟨hsharded', hagrees', ?_⟩
  show assign id mmap o.merge s.modifiedMap = (s.results ++ [mmap]).foldl _ ∅
  rw [assign_id horders.1.2, hc.merged, List.foldl_append]
  rfl

theorem consistent_of_run (hsn : shardNum < 2 ^ 63) {sc : Scores F}
    {guard : Supervisor → SupervisorMove → Prop}
    (h : Reach (supervisorStep sc shardNum) guard (· = newSupervisor shardNum) s) :
    Consistent shardNum s := by
  induction h with
  | start hs =>
    subst hs
    exact consistent_new shardNum
  | @next s s' move _ _ hstep ih =>
    cases move with
    | blockInfo blockBodyLength excutedTxs => exact ih.handleBlockInfo hstep
    | partition o => exact ih.partitionRound hsn hstep

/-! ### No panic -/

theorem applyMaps_eq {rounds : List (PartitionMap × List Address)}
    (horders : ∀ round ∈ rounds, Iterates round.1 round.2) :
    applyMaps rounds = (rounds.map (·.1)).foldl (fun pm m => m ∪ pm) ∅ := by
  rw [applyMaps, List.foldl_map]
  refine List.foldl_ext _ _ _ fun pm round hround => ?_
  exact assign_id (horders round hround).2 pm

/-- **The partition views agree.**  Outside a round, the graph has every vertex where
`fetchModifiedMap` has it, and so has, for every address, a shard that applied the result maps of
all rounds in order. -/
theorem partition_views_agree (sc : Scores F) (hsn : shardNum < 2 ^ 63)
    (h : Reach (supervisorStep sc shardNum) anyStep (· = newSupervisor shardNum) s) :
    (∀ v ∈ s.clpaGraph.netGraph.vertexSet, ∃ shard : UInt64,
      s.clpaGraph.partitionMap.lookup v = some (shard.toNat : ℤ) ∧
        fetchModifiedMap shardNum s.modifiedMap v = some shard) ∧
    ∀ rounds : List (PartitionMap × List Address), rounds.map (·.1) = s.results →
      (∀ round ∈ rounds, Iterates round.1 round.2) →
      ∀ a, getPartitionMap shardNum (applyMaps rounds) a =
        fetchModifiedMap shardNum s.modifiedMap a := by
  have hc := consistent_of_run hsn h
  constructor
  · intro v hv
    obtain ⟨k, hk⟩ := Finmap.mem_iff.mp (hc.sharded.vertices v hv)
    have hrange := hc.sharded.range v k hk
    refine ⟨UInt64.ofInt k, ?_, hc.agrees.known v k hk⟩
    rw [hk, toNat_ofInt_of_lt hsn hrange.1 hrange.2]
  · intro rounds hresults horders a
    rw [applyMaps_eq horders, hresults, ← hc.merged]
    rfl

/-! ### One round -/

/-- Scores by the number of neighbours in the shard. -/
def plainScores : Scores ℤ := ⟨fun edges _ _ _ => edges, fun a b => a < b, -9999⟩

def transferBetween (sender recipient : Address) : Transaction := ⟨sender, recipient, 0, 0, []⟩

/-- Two accounts of shard 0 pay one of shard 1; the first of them moves there. -/
def vertexMoves : List SupervisorMove :=
  [.blockInfo 2 [transferBetween "0000000000000000" "0000000000000001",
      transferBetween "0000000000000002" "0000000000000001"],
    .partition ⟨List.replicate 100 ["0000000000000000", "0000000000000001", "0000000000000002"],
      ["0000000000000000"], ["0000000000000000"]⟩,
    .blockInfo 1 [transferBetween "0000000000000002" "0000000000000000"]]

theorem partition_views_agree_moved :
    ∃ s, Reach (supervisorStep plainScores 2) anyStep (· = newSupervisor 2) s ∧
      "0000000000000000" ∈ s.clpaGraph.netGraph.vertexSet ∧
      s.clpaGraph.partitionMap.lookup "0000000000000000" = some 1 ∧
      (∀ v ∈ s.clpaGraph.netGraph.vertexSet, ∃ shard : UInt64,
        s.clpaGraph.partitionMap.lookup v = some (shard.toNat : ℤ) ∧
          fetchModifiedMap 2 s.modifiedMap v = some shard) ∧
      ∀ rounds : List (PartitionMap × List Address), rounds.map (·.1) = s.results →
        (∀ round ∈ rounds, Iterates round.1 round.2) →
        ∀ a, getPartitionMap 2 (applyMaps rounds) a = fetchModifiedMap 2 s.modifiedMap a := by
  have hstart : Reach (supervisorStep plainScores 2) anyStep (· = newSupervisor 2)
      (newSupervisor 2) := .start rfl
  obtain ⟨s, hs, hmem, hmoved⟩ := exists_reach_of_run vertexMoves
    (fun s => "0000000000000000" ∈ s.clpaGraph.netGraph.vertexSet ∧
      s.clpaGraph.partitionMap.lookup "0000000000000000" = some 1) hstart (by decide +kernel)
  exact ⟨s, hs, hmem, hmoved, partition_views_agree plainScores (by decide) hs⟩

end Aster.Clpa
