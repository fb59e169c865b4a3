import Aster.Chain.Ledger
import Aster.Lib.Containers

/-!
# The constrained label propagation algorithm

`CLPAState` with `AddVertex`, `AddEdge` and `CLPA_Partition`: the graph of the accounts, the map
from accounts to shards, and the counts that the scores are made of.

* A vertex has no field but its address.
* The arithmetic of `float64` is a parameter: `Scores` has the value of `getShard_score` by the
  four integers it is computed from, the comparison of two scores and the first maximum, and
  nothing is assumed about it.
* The loop over `VertexSet` takes the vertices in another order in each iteration; the orders are
  given.  `ComputeEdges2Shard` only counts in its loop over `EdgeSet`, so its result is written
  without an order.
* `none` is a panic: an index out of range, or an address whose shard cannot be worked out.
-/

namespace Aster.Clpa

open Aster.Core Aster.Chain Aster.Lib.Containers

abbrev Vertex := Address

/-! ### The graph -/

structure Graph where
  vertexSet : Finset Vertex
  edgeSet : Finmap fun _ : Vertex => List Vertex

namespace Graph

def empty : Graph := ⟨∅, ∅⟩

/-- The neighbours of a vertex; one that has no entry has none. -/
def edges (g : Graph) (v : Vertex) : List Vertex := (g.edgeSet.lookup v).getD []

def addVertex (g : Graph) (v : Vertex) : Graph := { g with vertexSet := insert v g.vertexSet }

/-- The end of a new edge at `u`. -/
def addHalf (g : Graph) (u v : Vertex) : Graph :=
  { g with edgeSet := g.edgeSet.insert u (g.edges u ++ [v]) }

/-- `AddEdge` of the graph: one entry in each direction. -/
def addEdge (g : Graph) (u v : Vertex) : Graph :=
  (((g.addVertex u).addVertex v).addHalf u v).addHalf v u

theorem mem_edges_addHalf (g : Graph) (u v x y : Vertex) :
    y ∈ (g.addHalf u v).edges x ↔ y ∈ g.edges x ∨ x = u ∧ y = v := by
  unfold addHalf edges
  by_cases hx : x = u
  · subst hx
    simp [Finmap.lookup_insert]
  · simp [Finmap.lookup_insert_of_ne _ hx, hx]

theorem mem_edges_addEdge (g : Graph) (u v x y : Vertex) :
    y ∈ (g.addEdge u v).edges x ↔ y ∈ g.edges x ∨ x = u ∧ y = v ∨ x = v ∧ y = u := by
  rw [addEdge, mem_edges_addHalf, mem_edges_addHalf, or_assoc]
  rfl

theorem mem_vertexSet_addEdge (g : Graph) (u v x : Vertex) :
    x ∈ (g.addEdge u v).vertexSet ↔ x = v ∨ x = u ∨ x ∈ g.vertexSet := by
  show x ∈ insert v (insert u g.vertexSet) ↔ _
  rw [Finset.mem_insert, Finset.mem_insert]

end Graph

/-! ### The state -/

structure CLPAState where
  netGraph : Graph
  partitionMap : Finmap fun _ : Vertex => ℤ
  edges2Shard : List ℤ
  vertexsNumInShard : List ℤ
  minEdges2Shard : ℤ
  crossShardEdgeNum : ℤ

/-- `Init_CLPAState` on a new object. -/
def initCLPAState (shardNum : ℕ) : CLPAState :=
  ⟨Graph.empty, ∅, [], List.replicate shardNum 0, 0, 0⟩

/-- `MaxIterations`, which the committee sets to 100. -/
def maxIterations : ℕ := 100

namespace CLPAState

/-- `PartitionMap[v]`; a vertex that is missing reads as 0. -/
def shardOf (cs : CLPAState) (v : Vertex) : ℤ := (cs.partitionMap.lookup v).getD 0

/-- The shard of a new vertex: the one that is set, or the one of the address. -/
def initialShard (shardNum : ℕ) (cs : CLPAState) (v : Vertex) : Option ℤ :=
  match cs.partitionMap.lookup v with
  | none => addr2Shard shardNum v
  | some val => some val

def addVertex (shardNum : ℕ) (cs : CLPAState) (v : Vertex) : Option CLPAState := do
  let shard ← cs.initialShard shardNum v
  let num ← modifyAt (· + 1) cs.vertexsNumInShard shard
  some { cs with
    netGraph := cs.netGraph.addVertex v
    partitionMap := cs.partitionMap.insert v shard
    vertexsNumInShard := num }

/-- `AddVertex` for an end of an edge that is not in the graph. -/
def addNewVertex (shardNum : ℕ) (cs : CLPAState) (v : Vertex) : Option CLPAState :=
  if v ∈ cs.netGraph.vertexSet then some cs else cs.addVertex shardNum v

def addEdge (shardNum : ℕ) (cs : CLPAState) (e : Vertex × Vertex) : Option CLPAState := do
  let cs ← cs.addNewVertex shardNum e.1
  let cs ← cs.addNewVertex shardNum e.2
  some { cs with netGraph := cs.netGraph.addEdge e.1 e.2 }

/-! ### Counting the edges of the shards -/

/-- The entries of the edge lists whose end is in shard `k` and whose start is there too, or is
not. -/
def countEdges (cs : CLPAState) (inter : Bool) (k : ℤ) : ℕ :=
  ∑ v ∈ cs.netGraph.edgeSet.keys, (cs.netGraph.edges v).countP fun u =>
    decide (cs.shardOf v = cs.shardOf u) == inter && cs.shardOf u == k

/-- The least element, not above `bound`. -/
def minimum (bound : ℤ) (l : List ℤ) : ℤ := l.foldl (fun m val => if m > val then val else m) bound

/-- All ends of edges are in shards that exist. -/
def EdgesInRange (shardNum : ℕ) (cs : CLPAState) : Prop :=
  ∀ v ∈ cs.netGraph.edgeSet.keys, ∀ u ∈ cs.netGraph.edges v,
    0 ≤ cs.shardOf u ∧ cs.shardOf u < shardNum

instance (shardNum : ℕ) (cs : CLPAState) : Decidable (cs.EdgesInRange shardNum) :=
  inferInstanceAs (Decidable (∀ v ∈ cs.netGraph.edgeSet.keys, _))

def computeEdges2Shard (shardNum : ℕ) (cs : CLPAState) : Option CLPAState :=
  if cs.EdgesInRange shardNum then
    let cross : List ℤ := (List.range shardNum).map fun idx : ℕ => (cs.countEdges false idx : ℤ)
    let edges2Shard : List ℤ := (List.range shardNum).map fun idx : ℕ =>
      (cs.countEdges false idx : ℤ) + (cs.countEdges true idx / 2 : ℕ)
    some { cs with
      edges2Shard := edges2Shard
      crossShardEdgeNum := cross.sum / 2
      minEdges2Shard := minimum 0x7fffffff edges2Shard }
  else none

/-- One neighbour in `changeShardRecompute`, for a vertex that moves from `old` to `new`. -/
def recomputeNeighbor (cs : CLPAState) (new old : ℤ) (acc : List ℤ × ℤ) (u : Vertex) :
    Option (List ℤ × ℤ) :=
  if cs.shardOf u ≠ new ∧ cs.shardOf u ≠ old then do
    let edges2Shard ← modifyAt (· + 1) acc.1 new
    let edges2Shard ← modifyAt (· - 1) edges2Shard old
    some (edges2Shard, acc.2)
  else if cs.shardOf u = new then do
    let edges2Shard ← modifyAt (· - 1) acc.1 old
    some (edges2Shard, acc.2 - 1)
  else do
    let edges2Shard ← modifyAt (· + 1) acc.1 new
    some (edges2Shard, acc.2 + 1)

/-- `changeShardRecompute`; its first minimum is not the one of `ComputeEdges2Shard`. -/
def changeShardRecompute (cs : CLPAState) (v : Vertex) (old : ℤ) : Option CLPAState := do
  let (edges2Shard, cross) ← (cs.netGraph.edges v).foldlM
    (cs.recomputeNeighbor (cs.shardOf v) old) (cs.edges2Shard, cs.crossShardEdgeNum)
  some { cs with
    edges2Shard := edges2Shard
    crossShardEdgeNum := cross
    minEdges2Shard := minimum 0x7ffffffff edges2Shard }

end CLPAState

/-! ### Scores -/

/-- The scores, as the values of type `F` that stand for `float64`. -/
structure Scores (F : Type) where
  /-- `getShard_score` by `Edgesto_uShard`, `v_outdegree`, `Edges2Shard[uShard]` and
  `MinEdges2Shard`. -/
  score : ℕ → ℕ → ℤ → ℤ → F
  less : F → F → Bool
  /-- `-9999.0`. -/
  start : F

variable {F : Type}

def getShardScore (sc : Scores F) (cs : CLPAState) (v : Vertex) (uShard : ℤ) : Option F := do
  let edgestoUShard := (cs.netGraph.edges v).countP fun item => cs.shardOf item == uShard
  let w ← index? cs.edges2Shard uShard
  some (sc.score edgestoUShard (cs.netGraph.edges v).length w cs.minEdges2Shard)

/-- The variables of the loop over the neighbours: the shards whose score is known, and the
maximum. -/
structure Best (F : Type) where
  computed : List ℤ
  maxScore : F
  maxScoreShard : ℤ

def scoreNeighbor (sc : Scores F) (cs : CLPAState) (v : Vertex) (b : Best F) (u : Vertex) :
    Option (Best F) :=
  let uShard := cs.shardOf u
  if uShard ∈ b.computed then some b
  else do
    let score ← getShardScore sc cs v uShard
    some (if sc.less b.maxScore score then ⟨uShard :: b.computed, score, uShard⟩
      else { b with computed := uShard :: b.computed })

def bestShard (sc : Scores F) (cs : CLPAState) (v : Vertex) : Option ℤ := do
  let b ← (cs.netGraph.edges v).foldlM (scoreNeighbor sc cs v) ⟨[], sc.start, cs.shardOf v⟩
  some b.maxScoreShard

/-! ### The partition -/

/-- The variables of `CLPA_Partition`. -/
structure Partitioning where
  cs : CLPAState
  res : PartitionMap
  updateTreshold : Finmap fun _ : Address => ℕ

/-- The vertex goes from shard `old` to shard `new`. -/
def moveVertex (p : Partitioning) (v : Vertex) (old new : ℤ) : Option Partitioning := do
  let num ← modifyAt (· - 1) p.cs.vertexsNumInShard old
  let num ← modifyAt (· + 1) num new
  let cs ← CLPAState.changeShardRecompute { p.cs with
    partitionMap := p.cs.partitionMap.insert v new
    vertexsNumInShard := num } v old
  some {
    cs := cs
    res := p.res.insert v (UInt64.ofInt new)
    updateTreshold := p.updateTreshold.insert v ((p.updateTreshold.lookup v).getD 0 + 1) }

/-- One round of the inner loop. -/
def visit (sc : Scores F) (p : Partitioning) (v : Vertex) : Option Partitioning :=
  if 50 ≤ (p.updateTreshold.lookup v).getD 0 then some p
  else do
    let maxScoreShard ← bestShard sc p.cs v
    if p.cs.shardOf v = maxScoreShard then some p
    else do
      let n ← index? p.cs.vertexsNumInShard (p.cs.shardOf v)
      if 1 < n then moveVertex p v (p.cs.shardOf v) maxScoreShard else some p

/-- `CLPA_Partition`, with the order of the vertices in each iteration. -/
def clpaPartition (sc : Scores F) (shardNum : ℕ) (cs : CLPAState) (orders : List (List Vertex)) :
    Option (CLPAState × PartitionMap) := do
  let cs ← cs.computeEdges2Shard shardNum
  let p ← orders.flatten.foldlM (visit sc) ⟨cs, ∅, ∅⟩
  let cs ← p.cs.computeEdges2Shard shardNum
  some (cs, p.res)

/-! ### The shards of the vertices -/

/-- The vertices of the graph are in shards that exist, and so are the ends of its edges. -/
structure Sharded (shardNum : ℕ) (cs : CLPAState) : Prop where
  num : cs.vertexsNumInShard.length = shardNum
  range : ∀ v k, cs.partitionMap.lookup v = some k → 0 ≤ k ∧ k < shardNum
  vertices : ∀ v ∈ cs.netGraph.vertexSet, v ∈ cs.partitionMap
  edges : ∀ v, ∀ u ∈ cs.netGraph.edges v, u ∈ cs.netGraph.vertexSet

/-- The map of the graph is the one that the committee has in `modifiedMap`. -/
structure Agrees (shardNum : ℕ) (cs : CLPAState) (modifiedMap : PartitionMap) : Prop where
  known : ∀ v k, cs.partitionMap.lookup v = some k →
    getPartitionMap shardNum modifiedMap v = some (UInt64.ofInt k)
  stored : ∀ v (w : UInt64), modifiedMap.lookup v = some w →
    cs.partitionMap.lookup v = some (w.toNat : ℤ)

variable {shardNum : ℕ} {cs cs' : CLPAState} {modifiedMap : PartitionMap} {v : Vertex}

theorem Sharded.shardOf (h : Sharded shardNum cs) (hv : v ∈ cs.netGraph.vertexSet) :
    0 ≤ cs.shardOf v ∧ cs.shardOf v < shardNum := by
  obtain ⟨k, hk⟩ := Finmap.mem_iff.mp (h.vertices v hv)
  rw [CLPAState.shardOf, hk, Option.getD_some]
  exact h.range v k hk

theorem sharded_init (shardNum : ℕ) : Sharded shardNum (initCLPAState shardNum) where
  num := List.length_replicate
  range := by
    intro v k hk
    cases hk
  vertices := fun v hv => absurd hv (Finset.notMem_empty v)
  edges := by
    intro v u hu
    cases hu

/-! ### Adding edges -/

/-- `AddVertex`: the shard is the one that is there, or the one of the address. -/
theorem addVertex_cases (h : cs.addVertex shardNum v = some cs') :
    ∃ shard num, (cs.partitionMap.lookup v = some shard ∨
        v ∉ cs.partitionMap ∧ addr2Shard shardNum v = some shard) ∧
      modifyAt (· + 1) cs.vertexsNumInShard shard = some num ∧
      cs' = { cs with
        netGraph := cs.netGraph.addVertex v
        partitionMap := cs.partitionMap.insert v shard
        vertexsNumInShard := num } := by
  obtain ⟨shard, hshard, h⟩ := Option.bind_eq_some_iff.mp h
  obtain ⟨num, hnum, h⟩ := Option.bind_eq_some_iff.mp h
  cases h
  refine ⟨shard, num, ?_, hnum, rfl⟩
  unfold CLPAState.initialShard at hshard
  cases hv : cs.partitionMap.lookup v with
  | none =>
    rw [hv] at hshard
    exact .inr ⟨Finmap.lookup_eq_none.mp hv, hshard⟩
  | some val =>
    rw [hv] at hshard
    exact .inl hshard

/-- A vertex with its shard goes into the graph. -/
theorem Sharded.addVertex (hs : Sharded shardNum cs) (h : cs.addVertex shardNum v = some cs') :
    Sharded shardNum cs' := by
  obtain ⟨shard, num, -, hnum, rfl⟩ := addVertex_cases h
  have hbounds := bounds_of_modifyAt hnum
  rw [hs.num] at hbounds
  refine ⟨(length_of_modifyAt hnum).trans hs.num, ?_, ?_, ?_⟩
  · intro x k hx
    have hx' : (cs.partitionMap.insert v shard).lookup x = some k := hx
    by_cases heq : x = v
    · subst heq
      rw [Finmap.lookup_insert] at hx'
      cases hx'
      exact hbounds
    · rw [Finmap.lookup_insert_of_ne _ heq] at hx'
      exact hs.range x k hx'
  · intro x hx
    show x ∈ cs.partitionMap.insert v shard
    rw [Finmap.mem_insert]
    rcases Finset.mem_insert.mp hx with heq | hx
    · exact .inl heq
    · exact .inr (hs.vertices x hx)
  · intro x u hu
    exact Finset.mem_insert_of_mem (hs.edges x u hu)

theorem Agrees.addVertex (ha : Agrees shardNum cs modifiedMap)
    (h : cs.addVertex shardNum v = some cs') : Agrees shardNum cs' modifiedMap := by
  obtain ⟨shard, num, hshard, hnum, rfl⟩ := addVertex_cases h
  constructor
  · intro x k hx
    have hx' : (cs.partitionMap.insert v shard).lookup x = some k := hx
    by_cases heq : x = v
    · subst heq
      rw [Finmap.lookup_insert] at hx'
      cases hx'
      rcases hshard with hold | ⟨hnew, haddr⟩
      · exact ha.known x shard hold
      · -- a vertex that is not in the graph's map is not in `modifiedMap` either
        have hnone : modifiedMap.lookup x = none := by
          cases hw : modifiedMap.lookup x with
          | none => rfl
          | some w => exact absurd (Finmap.mem_iff.mpr ⟨_, ha.stored x w hw⟩) hnew
        rw [getPartitionMap, hnone, haddr]
        rfl
    · rw [Finmap.lookup_insert_of_ne _ heq] at hx'
      exact ha.known x k hx'
  · intro x w hw
    have hold := ha.stored x w hw
    show (cs.partitionMap.insert v shard).lookup x = some (w.toNat : ℤ)
    by_cases heq : x = v
    · subst heq
      rw [Finmap.lookup_insert]
      rcases hshard with hshard | ⟨hnew, -⟩
      · exact hshard.symm.trans hold
      · exact absurd (Finmap.mem_iff.mpr ⟨_, hold⟩) hnew
    · rw [Finmap.lookup_insert_of_ne _ heq, hold]

/-- What `AddVertex` keeps for a new vertex, `AddEdge` keeps until it adds the edge. -/
theorem addEdge_cases {P : CLPAState → Prop} {e : Vertex × Vertex}
    (hadd : ∀ cs cs' v, v = e.1 ∨ v = e.2 → P cs → v ∉ cs.netGraph.vertexSet →
      cs.addVertex shardNum v = some cs' → P cs')
    (hP : P cs) (h : cs.addEdge shardNum e = some cs') :
    ∃ cs₂, P cs₂ ∧ e.1 ∈ cs₂.netGraph.vertexSet ∧ e.2 ∈ cs₂.netGraph.vertexSet ∧
      cs' = { cs₂ with netGraph := cs₂.netGraph.addEdge e.1 e.2 } := by
  have hnew : ∀ cs cs' v, v = e.1 ∨ v = e.2 → P cs → cs.addNewVertex shardNum v = some cs' →
      P cs' ∧ v ∈ cs'.netGraph.vertexSet ∧ cs.netGraph.vertexSet ⊆ cs'.netGraph.vertexSet := by
    intro cs cs' v hend hcs h
    unfold CLPAState.addNewVertex at h
    split_ifs at h with hv
    · cases h
      exact ⟨hcs, hv, Finset.Subset.refl _⟩
    · refine ⟨hadd cs cs' v hend hcs hv h, ?_⟩
      obtain ⟨shard, num, -, -, rfl⟩ := addVertex_cases h
      exact ⟨Finset.mem_insert_self v _, Finset.subset_insert v _⟩
  obtain ⟨cs₁, h₁, h⟩ := Option.bind_eq_some_iff.mp h
  obtain ⟨cs₂, h₂, h⟩ := Option.bind_eq_some_iff.mp h
  cases h
  obtain ⟨hP₁, hu₁, -⟩ := hnew cs cs₁ e.1 (.inl rfl) hP h₁
  obtain ⟨hP₂, hv₂, hsub⟩ := hnew cs₁ cs₂ e.2 (.inr rfl) hP₁ h₂
  exact ⟨cs₂, hP₂, hsub hu₁, hv₂, rfl⟩

/-- An edge between vertices of the graph adds no vertex. -/
theorem vertexSet_addEdge {g : Graph} {e : Vertex × Vertex} (hu : e.1 ∈ g.vertexSet)
    (hv : e.2 ∈ g.vertexSet) : (g.addEdge e.1 e.2).vertexSet = g.vertexSet := by
  ext x
  rw [Graph.mem_vertexSet_addEdge]
  constructor
  · rintro (rfl | rfl | hx)
    · exact hv
    · exact hu
    · exact hx
  · exact fun hx => .inr (.inr hx)

theorem Sharded.edge (hs : Sharded shardNum cs) {e : Vertex × Vertex}
    (hu : e.1 ∈ cs.netGraph.vertexSet) (hv : e.2 ∈ cs.netGraph.vertexSet) :
    Sharded shardNum { cs with netGraph := cs.netGraph.addEdge e.1 e.2 } := by
  have hset := vertexSet_addEdge hu hv
  refine ⟨hs.num, hs.range, fun x hx => hs.vertices x (hset ▸ hx), ?_⟩
  intro x y hy
  show y ∈ (cs.netGraph.addEdge e.1 e.2).vertexSet
  rw [hset]
  rcases (Graph.mem_edges_addEdge _ _ _ _ _).mp hy with hy | ⟨-, rfl⟩ | ⟨-, rfl⟩
  · exact hs.edges x y hy
  · exact hv
  · exact hu

theorem addEdge_keeps (hs : Sharded shardNum cs) (ha : Agrees shardNum cs modifiedMap)
    {e : Vertex × Vertex} (h : cs.addEdge shardNum e = some cs') :
    Sharded shardNum cs' ∧ Agrees shardNum cs' modifiedMap := by
  obtain ⟨cs₂, ⟨hs₂, ha₂⟩, hu, hv, rfl⟩ := addEdge_cases
    (P := fun cs => Sharded shardNum cs ∧ Agrees shardNum cs modifiedMap)
    (fun cs cs' v _ hcs _ hadd => ⟨hcs.1.addVertex hadd, hcs.2.addVertex hadd⟩) ⟨hs, ha⟩ h
  exact ⟨hs₂.edge hu hv, ha₂.known, ha₂.stored⟩

/-- `Addr2Shard` of the address is the number of a shard. -/
def InRange (shardNum : ℕ) (a : Address) : Prop :=
  ∃ k, addr2Shard shardNum a = some k ∧ 0 ≤ k ∧ k < shardNum

theorem addNewVertex_isSome (hs : Sharded shardNum cs) (hv : InRange shardNum v) :
    (cs.addNewVertex shardNum v).isSome := by
  have hshard : ∃ shard, cs.initialShard shardNum v = some shard ∧ 0 ≤ shard ∧
      shard < shardNum := by
    unfold CLPAState.initialShard
    cases hlookup : cs.partitionMap.lookup v with
    | none => exact hv
    | some val => exact ⟨val, rfl, hs.range v val hlookup⟩
  obtain ⟨shard, hshard, hbounds⟩ := hshard
  obtain ⟨num, hnum⟩ := Option.isSome_iff_exists.mp ((modifyAt_isSome_iff (· + 1)
    cs.vertexsNumInShard shard).mpr (hs.num.symm ▸ hbounds))
  unfold CLPAState.addNewVertex
  split_ifs
  · rfl
  · rw [CLPAState.addVertex, hshard, Option.bind_eq_bind, Option.bind_some, hnum]
    rfl

theorem addEdge_isSome (hs : Sharded shardNum cs) {e : Vertex × Vertex}
    (hu : InRange shardNum e.1) (hv : InRange shardNum e.2) : (cs.addEdge shardNum e).isSome := by
  obtain ⟨cs₁, h₁⟩ := Option.isSome_iff_exists.mp (addNewVertex_isSome hs hu)
  have hs₁ : Sharded shardNum cs₁ := by
    unfold CLPAState.addNewVertex at h₁
    split_ifs at h₁
    · cases h₁
      exact hs
    · exact hs.addVertex h₁
  obtain ⟨cs₂, h₂⟩ := Option.isSome_iff_exists.mp (addNewVertex_isSome hs₁ hv)
  rw [CLPAState.addEdge, h₁, Option.bind_eq_bind, Option.bind_some, h₂]
  rfl

/-! ### The counts -/

/-- The two states differ in the counts of edges only. -/
structure SameShards (cs cs' : CLPAState) : Prop where
  graph : cs'.netGraph = cs.netGraph
  map : cs'.partitionMap = cs.partitionMap
  num : cs'.vertexsNumInShard = cs.vertexsNumInShard

theorem Sharded.congr (hs : Sharded shardNum cs) (h : SameShards cs cs') :
    Sharded shardNum cs' := by
  refine ⟨h.num ▸ hs.num, h.map ▸ hs.range, ?_, ?_⟩
  · rw [h.graph, h.map]
    exact hs.vertices
  · rw [h.graph]
    exact hs.edges

/-- `ComputeEdges2Shard` changes counts only. -/
theorem computeEdges2Shard_cases (h : cs.computeEdges2Shard shardNum = some cs') :
    SameShards cs cs' ∧ cs'.edges2Shard.length = shardNum := by
  unfold CLPAState.computeEdges2Shard at h
  split_ifs at h with hrange
  cases h
  exact ⟨⟨rfl, rfl, rfl⟩, by simp⟩

theorem Sharded.computeEdges2Shard_isSome (hs : Sharded shardNum cs) :
    (cs.computeEdges2Shard shardNum).isSome := by
  unfold CLPAState.computeEdges2Shard
  have hrange : cs.EdgesInRange shardNum := fun v _ u hu => hs.shardOf (hs.edges v u hu)
  rw [if_pos hrange]
  rfl

theorem recomputeNeighbor_cases {new old : ℤ} {acc acc' : List ℤ × ℤ} {u : Vertex}
    (h : cs.recomputeNeighbor new old acc u = some acc') : acc'.1.length = acc.1.length := by
  unfold CLPAState.recomputeNeighbor at h
  split_ifs at h with hother hnew
  · obtain ⟨l₁, h₁, h⟩ := Option.bind_eq_some_iff.mp h
    obtain ⟨l₂, h₂, h⟩ := Option.bind_eq_some_iff.mp h
    cases h
    exact (length_of_modifyAt h₂).trans (length_of_modifyAt h₁)
  · obtain ⟨l₁, h₁, h⟩ := Option.bind_eq_some_iff.mp h
    cases h
    exact length_of_modifyAt h₁
  · obtain ⟨l₁, h₁, h⟩ := Option.bind_eq_some_iff.mp h
    cases h
    exact length_of_modifyAt h₁

theorem recomputeNeighbor_isSome {new old : ℤ} {acc : List ℤ × ℤ}
    (hnew : 0 ≤ new ∧ new < acc.1.length) (hold : 0 ≤ old ∧ old < acc.1.length) (u : Vertex) :
    (cs.recomputeNeighbor new old acc u).isSome := by
  obtain ⟨l₁, h₁⟩ := Option.isSome_iff_exists.mp ((modifyAt_isSome_iff (· + 1) _ _).mpr hnew)
  obtain ⟨l₂, h₂⟩ := Option.isSome_iff_exists.mp ((modifyAt_isSome_iff (· - 1) _ _).mpr hold)
  obtain ⟨l₃, h₃⟩ := Option.isSome_iff_exists.mp ((modifyAt_isSome_iff (· - 1) l₁ old).mpr
    (by rw [length_of_modifyAt h₁]; exact hold))
  unfold CLPAState.recomputeNeighbor
  split_ifs
  · rw [h₁, Option.bind_eq_bind, Option.bind_some, h₃]
    rfl
  · rw [h₂]
    rfl
  · rw [h₁]
    rfl

/-- `changeShardRecompute` ends when both shards exist, and changes counts only. -/
theorem changeShardRecompute_spec {old : ℤ}
    (hnew : 0 ≤ cs.shardOf v ∧ cs.shardOf v < cs.edges2Shard.length)
    (hold : 0 ≤ old ∧ old < cs.edges2Shard.length) :
    ∃ edges2Shard cross least, edges2Shard.length = cs.edges2Shard.length ∧
      cs.changeShardRecompute v old = some { cs with
        edges2Shard := edges2Shard
        crossShardEdgeNum := cross
        minEdges2Shard := least } := by
  have hround : ∀ acc : List ℤ × ℤ, acc.1.length = cs.edges2Shard.length →
      ∀ u ∈ cs.netGraph.edges v, ∃ acc', cs.recomputeNeighbor (cs.shardOf v) old acc u = some acc' ∧
        acc'.1.length = cs.edges2Shard.length := by
    intro acc hacc u _
    obtain ⟨acc', h'⟩ := Option.isSome_iff_exists.mp (recomputeNeighbor_isSome
      (hacc.symm ▸ hnew) (hacc.symm ▸ hold) u)
    exact ⟨acc', h', (recomputeNeighbor_cases h').trans hacc⟩
  obtain ⟨⟨edges2Shard, cross⟩, hloop, hlen⟩ :=
    foldlM_some hround (s := (cs.edges2Shard, cs.crossShardEdgeNum)) rfl
  refine ⟨edges2Shard, cross, CLPAState.minimum 0x7ffffffff edges2Shard, hlen, ?_⟩
  rw [CLPAState.changeShardRecompute, hloop]
  rfl

/-! ### The best shard -/

/-- The best shard is the one of the vertex or of a neighbour. -/
theorem bestShard_spec (sc : Scores F) (hs : Sharded shardNum cs)
    (hsize : cs.edges2Shard.length = shardNum) (hv : v ∈ cs.netGraph.vertexSet) :
    ∃ k, bestShard sc cs v = some k ∧ 0 ≤ k ∧ k < shardNum := by
  have hround : ∀ b : Best F, (0 ≤ b.maxScoreShard ∧ b.maxScoreShard < shardNum) →
      ∀ u ∈ cs.netGraph.edges v, ∃ b', scoreNeighbor sc cs v b u = some b' ∧
        (0 ≤ b'.maxScoreShard ∧ b'.maxScoreShard < shardNum) := by
    intro b hb u hu
    have hu := hs.shardOf (hs.edges v u hu)
    unfold scoreNeighbor
    show ∃ s', (if cs.shardOf u ∈ b.computed then some b else _) = some s' ∧ _
    split_ifs with hcomputed
    · exact ⟨b, rfl, hb⟩
    · have hindex : (index? cs.edges2Shard (cs.shardOf u)).isSome :=
        (index?_isSome_iff _ _).mpr (hsize.symm ▸ hu)
      obtain ⟨w, hw⟩ := Option.isSome_iff_exists.mp hindex
      rw [getShardScore, hw]
      refine ⟨_, rfl, ?_⟩
      split_ifs
      · exact hu
      · exact hb
  obtain ⟨b, hloop, hb⟩ :=
    foldlM_some hround (s := ⟨[], sc.start, cs.shardOf v⟩) (hs.shardOf hv)
  refine ⟨b.maxScoreShard, ?_, hb⟩
  rw [bestShard, hloop]
  rfl

/-! ### The loop of the partition -/

/-- During `CLPA_Partition`: the map of the graph is `modifiedMap` with the results so far. -/
structure Running (shardNum : ℕ) (modifiedMap : PartitionMap) (g : Graph) (p : Partitioning) :
    Prop where
  sharded : Sharded shardNum p.cs
  agrees : Agrees shardNum p.cs (p.res ∪ modifiedMap)
  size : p.cs.edges2Shard.length = shardNum
  graph : p.cs.netGraph = g

variable {p : Partitioning} {g : Graph}

theorem toNat_ofInt_of_lt {k : ℤ} (hsn : shardNum < 2 ^ 63) (h0 : 0 ≤ k) (hk : k < shardNum) :
    ((UInt64.ofInt k).toNat : ℤ) = k := by
  have hlt : k < 2 ^ 64 := by omega
  have hmod : k % 2 ^ 64 = k := Int.emod_eq_of_lt h0 hlt
  have hnat : k.toNat < UInt64.size := by
    show k.toNat < 2 ^ 64
    omega
  rw [UInt64.ofInt, hmod, UInt64.toNat_ofNat_of_lt' hnat]
  omega

/-- The map after the move of one vertex. -/
theorem Agrees.move (hsn : shardNum < 2 ^ 63) (ha : Agrees shardNum cs (p.res ∪ modifiedMap))
    {new : ℤ} (hnew : 0 ≤ new ∧ new < shardNum)
    (hmap : cs'.partitionMap = cs.partitionMap.insert v new) :
    Agrees shardNum cs' (p.res.insert v (UInt64.ofInt new) ∪ modifiedMap) := by
  have hres : ∀ x, (p.res.insert v (UInt64.ofInt new) ∪ modifiedMap).lookup x =
      if x = v then some (UInt64.ofInt new) else (p.res ∪ modifiedMap).lookup x := by
    intro x
    rw [← Finmap.insert_union]
    split_ifs with hx
    · rw [hx, Finmap.lookup_insert]
    · rw [Finmap.lookup_insert_of_ne _ hx]
  constructor
  · intro x k hx
    rw [hmap] at hx
    rw [getPartitionMap, hres]
    by_cases heq : x = v
    · subst heq
      rw [Finmap.lookup_insert] at hx
      cases hx
      rw [if_pos rfl]
    · rw [Finmap.lookup_insert_of_ne _ heq] at hx
      rw [if_neg heq]
      exact ha.known x k hx
  · intro x w hw
    rw [hres] at hw
    rw [hmap]
    split_ifs at hw with heq
    · cases hw
      rw [heq, Finmap.lookup_insert, toNat_ofInt_of_lt hsn hnew.1 hnew.2]
    · rw [Finmap.lookup_insert_of_ne _ heq]
      exact ha.stored x w hw

theorem Sharded.move (hs : Sharded shardNum cs) {new : ℤ} (hnew : 0 ≤ new ∧ new < shardNum)
    {num : List ℤ} (hnum : num.length = shardNum) :
    Sharded shardNum { cs with
      partitionMap := cs.partitionMap.insert v new
      vertexsNumInShard := num } := by
  refine ⟨hnum, ?_, ?_, hs.edges⟩
  · intro x k hx
    have hx' : (cs.partitionMap.insert v new).lookup x = some k := hx
    by_cases heq : x = v
    · subst heq
      rw [Finmap.lookup_insert] at hx'
      cases hx'
      exact hnew
    · rw [Finmap.lookup_insert_of_ne _ heq] at hx'
      exact hs.range x k hx'
  · intro x hx
    exact Finmap.mem_insert.mpr (.inr (hs.vertices x hx))

/-- **A move** ends when the new shard exists. -/
theorem moveVertex_spec (hs : Sharded shardNum p.cs) (hsize : p.cs.edges2Shard.length = shardNum)
    (hv : v ∈ p.cs.netGraph.vertexSet) {new : ℤ} (hnew : 0 ≤ new ∧ new < shardNum) :
    ∃ num₁ num₂ edges2Shard cross least,
      modifyAt (· - 1) p.cs.vertexsNumInShard (p.cs.shardOf v) = some num₁ ∧
      modifyAt (· + 1) num₁ new = some num₂ ∧ edges2Shard.length = shardNum ∧
      moveVertex p v (p.cs.shardOf v) new = some {
        cs := { p.cs with
          partitionMap := p.cs.partitionMap.insert v new
          vertexsNumInShard := num₂
          edges2Shard := edges2Shard
          crossShardEdgeNum := cross
          minEdges2Shard := least }
        res := p.res.insert v (UInt64.ofInt new)
        updateTreshold := p.updateTreshold.insert v ((p.updateTreshold.lookup v).getD 0 + 1) } := by
  have hold := hs.shardOf hv
  obtain ⟨num₁, hnum₁⟩ := Option.isSome_iff_exists.mp ((modifyAt_isSome_iff (· - 1)
    p.cs.vertexsNumInShard (p.cs.shardOf v)).mpr (hs.num.symm ▸ hold))
  have hlen₁ : num₁.length = shardNum := (length_of_modifyAt hnum₁).trans hs.num
  obtain ⟨num₂, hnum₂⟩ := Option.isSome_iff_exists.mp ((modifyAt_isSome_iff (· + 1)
    num₁ new).mpr (hlen₁.symm ▸ hnew))
  let moved : CLPAState := { p.cs with
    partitionMap := p.cs.partitionMap.insert v new
    vertexsNumInShard := num₂ }
  have hmoved : moved.shardOf v = new := by
    show ((p.cs.partitionMap.insert v new).lookup v).getD 0 = new
    rw [Finmap.lookup_insert, Option.getD_some]
  have hnew' : 0 ≤ moved.shardOf v ∧ moved.shardOf v < moved.edges2Shard.length := by
    rw [hmoved]
    exact hsize.symm ▸ hnew
  have hold' : 0 ≤ p.cs.shardOf v ∧ p.cs.shardOf v < moved.edges2Shard.length :=
    hsize.symm ▸ hold
  obtain ⟨edges2Shard, cross, least, hlen, hrec⟩ := changeShardRecompute_spec hnew' hold'
  refine ⟨num₁, num₂, edges2Shard, cross, least, hnum₁, hnum₂, hlen.trans hsize, ?_⟩
  simp only [moveVertex, hnum₁, hnum₂, Option.bind_eq_bind, Option.bind_some]
  show (CLPAState.changeShardRecompute moved v (p.cs.shardOf v)).bind _ = _
  rw [hrec]
  rfl

/-- **One round of the inner loop** ends: nothing happens, or the vertex moves out of a shard that
has others. -/
theorem visit_spec (sc : Scores F) (hs : Sharded shardNum p.cs)
    (hsize : p.cs.edges2Shard.length = shardNum) (hv : v ∈ p.cs.netGraph.vertexSet) :
    visit sc p v = some p ∨ ∃ new n : ℤ, (0 ≤ new ∧ new < shardNum) ∧ p.cs.shardOf v ≠ new ∧
      index? p.cs.vertexsNumInShard (p.cs.shardOf v) = some n ∧ 1 < n ∧
      visit sc p v = moveVertex p v (p.cs.shardOf v) new := by
  obtain ⟨k, hbest, hk⟩ := bestShard_spec sc hs hsize hv
  obtain ⟨n, hn⟩ := Option.isSome_iff_exists.mp ((index?_isSome_iff
    p.cs.vertexsNumInShard (p.cs.shardOf v)).mpr (hs.num.symm ▸ hs.shardOf hv))
  unfold visit
  split_ifs with hthreshold
  · exact .inl rfl
  · rw [hbest, Option.bind_eq_bind, Option.bind_some]
    split_ifs with hsame
    · exact .inl rfl
    · rw [hn, Option.bind_some]
      split_ifs with hmore
      · exact .inr ⟨k, n, hk, hsame, rfl, hmore, rfl⟩
      · exact .inl rfl

/-- **The rule for `CLPA_Partition`**: it ends, with what the rounds of its loop keep. -/
theorem clpaPartition_invariant (sc : Scores F) {P : Partitioning → Prop}
    {orders : List (List Vertex)} (hs : Sharded shardNum cs)
    (hstart : ∀ cs₁, SameShards cs cs₁ → cs₁.edges2Shard.length = shardNum → P ⟨cs₁, ∅, ∅⟩)
    (hround : ∀ p, P p → ∀ v ∈ orders.flatten, ∃ p', visit sc p v = some p' ∧ P p')
    (hsharded : ∀ p, P p → Sharded shardNum p.cs) :
    ∃ cs' p, clpaPartition sc shardNum cs orders = some (cs', p.res) ∧ P p ∧
      SameShards p.cs cs' := by
  obtain ⟨cs₁, h₁⟩ := Option.isSome_iff_exists.mp hs.computeEdges2Shard_isSome
  obtain ⟨hsame, hsize⟩ := computeEdges2Shard_cases h₁
  obtain ⟨p, hloop, hp⟩ := foldlM_some hround (hstart cs₁ hsame hsize)
  obtain ⟨cs₂, h₂⟩ := Option.isSome_iff_exists.mp (hsharded p hp).computeEdges2Shard_isSome
  refine ⟨cs₂, p, ?_, hp, (computeEdges2Shard_cases h₂).1⟩
  simp only [clpaPartition, h₁, hloop, h₂, Option.bind_eq_bind, Option.bind_some]

/-- A round keeps the maps together. -/
theorem Running.visit (sc : Scores F) (hsn : shardNum < 2 ^ 63)
    (hp : Running shardNum modifiedMap g p) (hv : v ∈ g.vertexSet) :
    ∃ p', visit sc p v = some p' ∧ Running shardNum modifiedMap g p' := by
  have hv' : v ∈ p.cs.netGraph.vertexSet := hp.graph ▸ hv
  rcases visit_spec sc hp.sharded hp.size hv' with hstay | ⟨new, n, hnew, -, -, -, hvisit⟩
  · exact ⟨p, hstay, hp⟩
  · obtain ⟨num₁, num₂, edges2Shard, cross, least, hnum₁, hnum₂, hlen, hmove⟩ :=
      moveVertex_spec hp.sharded hp.size hv' hnew
    have hlen₂ : num₂.length = shardNum :=
      (length_of_modifyAt hnum₂).trans ((length_of_modifyAt hnum₁).trans hp.sharded.num)
    refine ⟨_, hvisit.trans hmove, ?_, hp.agrees.move hsn hnew rfl, hlen, hp.graph⟩
    exact (hp.sharded.move hnew hlen₂).congr ⟨rfl, rfl, rfl⟩

/-- **`CLPA_Partition`**: on a graph that agrees with `modifiedMap` it ends, and the map of the
graph then agrees with `modifiedMap` overwritten by the result. -/
theorem clpaPartition_spec (sc : Scores F) (hsn : shardNum < 2 ^ 63) (hs : Sharded shardNum cs)
    (ha : Agrees shardNum cs modifiedMap) {orders : List (List Vertex)}
    (horders : ∀ o ∈ orders, ∀ v ∈ o, v ∈ cs.netGraph.vertexSet) :
    ∃ cs' res, clpaPartition sc shardNum cs orders = some (cs', res) ∧ Sharded shardNum cs' ∧
      Agrees shardNum cs' (res ∪ modifiedMap) := by
  have hstart : ∀ cs₁, SameShards cs cs₁ → cs₁.edges2Shard.length = shardNum →
      Running shardNum modifiedMap cs.netGraph ⟨cs₁, ∅, ∅⟩ := by
    intro cs₁ hsame hsize
    refine ⟨hs.congr hsame, ⟨?_, ?_⟩, hsize, hsame.graph⟩
    · show ∀ v k, cs₁.partitionMap.lookup v = some k → _
      rw [hsame.map, Finmap.empty_union]
      exact ha.known
    · show ∀ v (w : UInt64), _ → cs₁.partitionMap.lookup v = _
      rw [hsame.map, Finmap.empty_union]
      exact ha.stored
  have hround : ∀ p, Running shardNum modifiedMap cs.netGraph p → ∀ v ∈ orders.flatten,
      ∃ p', Clpa.visit sc p v = some p' ∧ Running shardNum modifiedMap cs.netGraph p' := by
    intro p hp v hv
    obtain ⟨o, ho, hvo⟩ := List.mem_flatten.mp hv
    exact hp.visit sc hsn (horders o ho v hvo)
  obtain ⟨cs₂, p, hrun, hp, hsame⟩ :=
    clpaPartition_invariant sc hs hstart hround fun p hp => hp.sharded
  exact ⟨cs₂, p.res, hrun, hp.sharded.congr hsame,
    hsame.map ▸ hp.agrees.known, hsame.map ▸ hp.agrees.stored⟩

end Aster.Clpa
