import Aster.Clpa.EdgeCounts
import Aster.Clpa.Populations

/-!
# The divisors of the scores

`getShard_score` divides by the number of neighbours of the vertex and by `MinEdges2Shard`.  The
first is never zero, since the score is asked for a neighbour.  The second is a minimum over all
shards: it is zero as soon as one of them has no edge.  And a vertex that has an edge to itself is
its own neighbour when `changeShardRecompute` corrects the counts for its move, which takes the two
entries of the edge off the counts.

* `ScoreCall`: the calls of `getShard_score` that `CLPA_Partition` makes;
* `Tally`: the counts along the loop, as long as no vertex with such an edge has moved;
* **`score_divisors`**: the two divisors and the signs of the counts at every call.
-/

namespace Aster.Clpa

open Aster.Core Aster.Chain Aster.Lib.Containers

variable {F : Type}

/-! ### The calls of `getShard_score` -/

/-- `CLPA_Partition` up to the point where its loop has done these rounds. -/
def partitionUpTo (sc : Scores F) (shardNum : ℕ) (cs : CLPAState) (rounds : List Vertex) :
    Option Partitioning := do
  let cs ← cs.computeEdges2Shard shardNum
  rounds.foldlM (visit sc) ⟨cs, ∅, ∅⟩

/-- The loop of `CLPA_Partition` comes to `v` with the variables `p`, and does not pass over it. -/
def AtVertex (sc : Scores F) (shardNum : ℕ) (cs : CLPAState) (orders : List (List Vertex))
    (p : Partitioning) (v : Vertex) : Prop :=
  ∃ before after, orders.flatten = before ++ v :: after ∧
    partitionUpTo sc shardNum cs before = some p ∧ (p.updateTreshold.lookup v).getD 0 < 50

/-- `CLPA_Partition` calls `getShard_score(v, uShard)` with the variables `p`: the loop over the
neighbours of `v` comes to one in this shard, and the score of the shard is not known yet. -/
def ScoreCall (sc : Scores F) (shardNum : ℕ) (cs : CLPAState) (orders : List (List Vertex))
    (p : Partitioning) (v : Vertex) (uShard : ℤ) : Prop :=
  AtVertex sc shardNum cs orders p v ∧ ∃ before u after b,
    p.cs.netGraph.edges v = before ++ u :: after ∧
    before.foldlM (scoreNeighbor sc p.cs v) ⟨[], sc.start, p.cs.shardOf v⟩ = some b ∧
    uShard = p.cs.shardOf u ∧ uShard ∉ b.computed

/-! ### What a round can do -/

variable {shardNum : ℕ} {cs cs' : CLPAState} {p p' : Partitioning} {v : Vertex}
  {calls : List (Vertex × Vertex)}

/-- The best shard is the one of the vertex or of a neighbour. -/
theorem bestShard_cases {sc : Scores F} {k : ℤ} (h : bestShard sc cs v = some k) :
    k = cs.shardOf v ∨ ∃ u ∈ cs.netGraph.edges v, k = cs.shardOf u := by
  obtain ⟨b, hloop, hb⟩ := Option.bind_eq_some_iff.mp h
  cases hb
  refine foldlM_keeps (P := fun b : Best F => b.maxScoreShard = cs.shardOf v ∨
    ∃ u ∈ cs.netGraph.edges v, b.maxScoreShard = cs.shardOf u) ?_ (.inl rfl) hloop
  intro b b' hb u hu hround
  unfold scoreNeighbor at hround
  simp only at hround
  split_ifs at hround with hcomputed
  · cases hround
    exact hb
  · obtain ⟨score, -, hround⟩ := Option.bind_eq_some_iff.mp hround
    cases hround
    split_ifs
    · exact .inr ⟨u, hu, rfl⟩
    · exact hb

/-- A round that ends does nothing, or moves the vertex to the shard of a neighbour. -/
theorem visit_cases {sc : Scores F} (h : visit sc p v = some p') :
    p' = p ∨ ∃ u ∈ p.cs.netGraph.edges v, p.cs.shardOf u ≠ p.cs.shardOf v ∧
      moveVertex p v (p.cs.shardOf v) (p.cs.shardOf u) = some p' := by
  unfold visit at h
  split_ifs at h with hthreshold
  · cases h
    exact .inl rfl
  · obtain ⟨k, hbest, h⟩ := Option.bind_eq_some_iff.mp h
    split_ifs at h with hsame
    · cases h
      exact .inl rfl
    · obtain ⟨n, -, h⟩ := Option.bind_eq_some_iff.mp h
      split_ifs at h with hmore
      · obtain rfl | ⟨u, hu, rfl⟩ := bestShard_cases hbest
        · exact absurd rfl hsame
        · exact .inr ⟨u, hu, Ne.symm hsame, h⟩
      · cases h
        exact .inl rfl

/-- A move that ends: the counts follow, and the vertex is among those that have moved. -/
theorem moveVertex_cases {new : ℤ} (h : moveVertex p v (p.cs.shardOf v) new = some p') :
    ∃ num, CLPAState.moveAndRecompute { p.cs with vertexsNumInShard := num } (v, new) =
        some p'.cs ∧
      p'.updateTreshold =
        p.updateTreshold.insert v ((p.updateTreshold.lookup v).getD 0 + 1) := by
  obtain ⟨num₁, -, h⟩ := Option.bind_eq_some_iff.mp h
  obtain ⟨num₂, -, h⟩ := Option.bind_eq_some_iff.mp h
  obtain ⟨cs', hcs', h⟩ := Option.bind_eq_some_iff.mp h
  cases h
  exact ⟨num₂, hcs', rfl⟩

/-- `changeShardRecompute` changes counts only. -/
theorem changeShardRecompute_cases {old : ℤ} (h : cs.changeShardRecompute v old = some cs') :
    SameShards cs cs' := by
  obtain ⟨acc, -, h⟩ := Option.bind_eq_some_iff.mp h
  cases h
  exact ⟨rfl, rfl, rfl⟩

/-! ### The counts along the loop -/

/-- During `CLPA_Partition` on the graph of the calls.  The counts are those of the calls unless a
vertex with an edge to itself has moved. -/
structure Tally (shardNum : ℕ) (calls : List (Vertex × Vertex)) (p : Partitioning) : Prop where
  graph : p.cs.netGraph = graphOf calls
  range : CallsInRange shardNum p.cs calls
  counts : (∀ x ∈ p.updateTreshold, (x, x) ∉ calls) → EdgesTallied shardNum calls p.cs
  least : ∃ bound, 1 ≤ bound ∧ p.cs.minEdges2Shard = CLPAState.minimum bound p.cs.edges2Shard

/-- A neighbour in the graph of the calls is in a shard that exists. -/
theorem CallsInRange.neighbor (h : CallsInRange shardNum cs calls)
    (hgraph : cs.netGraph = graphOf calls) {u : Vertex} (hu : u ∈ cs.netGraph.edges v) :
    0 ≤ cs.shardOf u ∧ cs.shardOf u < shardNum := by
  rw [hgraph, edges_graphOf] at hu
  obtain ⟨e, he, hmem⟩ := List.mem_flatMap.mp hu
  obtain ⟨-, rfl⟩ | ⟨-, rfl⟩ := mem_ends hmem
  · exact (h e he).2
  · exact (h e he).1

theorem tally_start (hgraph : cs.netGraph = graphOf calls)
    (hrange : CallsInRange shardNum cs calls) (h : cs.computeEdges2Shard shardNum = some cs') :
    Tally shardNum calls ⟨cs', ∅, ∅⟩ := by
  rw [computeEdges2Shard_graphOf hgraph hrange] at h
  obtain rfl := Option.some.inj h
  exact ⟨hgraph, hrange, fun _ => ⟨hgraph, hrange, rfl, rfl⟩, 0x7fffffff, by decide, rfl⟩

/-- The minimum after `changeShardRecompute`. -/
theorem changeShardRecompute_least {old : ℤ} (h : cs.changeShardRecompute v old = some cs') :
    cs'.minEdges2Shard = CLPAState.minimum 0x7ffffffff cs'.edges2Shard := by
  obtain ⟨acc, -, h⟩ := Option.bind_eq_some_iff.mp h
  cases h
  rfl

/-- **A round keeps the tally.** -/
theorem Tally.visit {sc : Scores F} (h : Tally shardNum calls p) (hvisit : visit sc p v = some p') :
    Tally shardNum calls p' := by
  obtain rfl | ⟨u, hu, hne, hmove⟩ := visit_cases hvisit
  · exact h
  · obtain ⟨num, hrec, htreshold⟩ := moveVertex_cases hmove
    have hsame := changeShardRecompute_cases hrec
    have hm : CLPAState.MoveInRange shardNum { p.cs with vertexsNumInShard := num }
        (v, p.cs.shardOf u) := ⟨h.range.neighbor h.graph hu, hne⟩
    have hcounted : CallsInRange shardNum { p.cs with vertexsNumInShard := num } calls := h.range
    have hrange : CallsInRange shardNum p'.cs calls := by
      intro e he
      have hmoved := hcounted.move hm e he
      unfold CLPAState.shardOf at hmoved ⊢
      rw [hsame.map]
      exact hmoved
    refine ⟨hsame.graph.trans h.graph, hrange, fun hself => ?_, 0x7ffffffff, by decide,
      changeShardRecompute_least hrec⟩
    rw [htreshold] at hself
    have hbefore := h.counts fun x hx => hself x (Finmap.mem_insert.mpr (.inr hx))
    have htallied : EdgesTallied shardNum calls { p.cs with vertexsNumInShard := num } :=
      ⟨hbefore.graph, hbefore.range, hbefore.edges, hbefore.cross⟩
    obtain ⟨cs₁, hrec₁, htallied₁, -⟩ :=
      htallied.move (hself v (Finmap.mem_insert.mpr (.inl rfl))) hm
    rw [hrec] at hrec₁
    obtain rfl := Option.some.inj hrec₁
    exact htallied₁

theorem AtVertex.tally {sc : Scores F} {orders : List (List Vertex)}
    (hgraph : cs.netGraph = graphOf calls) (hrange : CallsInRange shardNum cs calls)
    (h : AtVertex sc shardNum cs orders p v) : Tally shardNum calls p := by
  obtain ⟨before, after, -, hupto, -⟩ := h
  obtain ⟨cs₁, hcompute, hloop⟩ := Option.bind_eq_some_iff.mp hupto
  exact foldlM_keeps (fun s s' hs x _ hvisit => Tally.visit hs hvisit)
    (tally_start hgraph hrange hcompute) hloop

/-! ### Shards without edges -/

/-- The shard has an end of an edge. -/
def CLPAState.HasEdge (calls : List (Vertex × Vertex)) (cs : CLPAState) (k : ℤ) : Prop :=
  ∃ e ∈ calls, cs.shardOf e.1 = k ∨ cs.shardOf e.2 = k

theorem mem_vertexSet_graphOf (calls : List (Vertex × Vertex)) (x : Vertex) :
    x ∈ (graphOf calls).vertexSet ↔ ∃ e ∈ calls, x = e.1 ∨ x = e.2 := by
  have hfold : ∀ (calls : List (Vertex × Vertex)) (g : Graph),
      x ∈ (calls.foldl (fun g e => g.addEdge e.1 e.2) g).vertexSet ↔
        x ∈ g.vertexSet ∨ ∃ e ∈ calls, x = e.1 ∨ x = e.2 := by
    intro calls
    induction calls with
    | nil => simp
    | cons e calls ih =>
      intro g
      rw [List.foldl_cons, ih, Graph.mem_vertexSet_addEdge, List.exists_mem_cons_iff,
        ← or_assoc (a := x ∈ g.vertexSet)]
      refine or_congr_left ?_
      tauto
  rw [graphOf, hfold]
  simp [Graph.empty]

/-- The vertices of the graph of the calls are the ends of the calls, so a shard with a vertex has
an edge. -/
theorem hasEdge_iff_population (hs : Sharded shardNum cs) (hgraph : cs.netGraph = graphOf calls)
    (k : ℤ) : cs.HasEdge calls k ↔ 0 < cs.population k := by
  have hlookup : ∀ x ∈ cs.netGraph.vertexSet,
      (cs.partitionMap.lookup x = some k ↔ cs.shardOf x = k) := by
    intro x hx
    obtain ⟨j, hj⟩ := Finmap.mem_iff.mp (hs.vertices x hx)
    rw [CLPAState.shardOf, hj, Option.getD_some, Option.some.injEq]
  have hend : ∀ x, x ∈ cs.netGraph.vertexSet ↔ ∃ e ∈ calls, x = e.1 ∨ x = e.2 := by
    intro x
    rw [hgraph, mem_vertexSet_graphOf]
  rw [CLPAState.population, Finset.card_pos]
  constructor
  · rintro ⟨e, he, hk | hk⟩
    · have hx := (hend e.1).mpr ⟨e, he, .inl rfl⟩
      exact ⟨e.1, Finset.mem_filter.mpr ⟨hx, (hlookup e.1 hx).mpr hk⟩⟩
    · have hx := (hend e.2).mpr ⟨e, he, .inr rfl⟩
      exact ⟨e.2, Finset.mem_filter.mpr ⟨hx, (hlookup e.2 hx).mpr hk⟩⟩
  · rintro ⟨x, hx⟩
    obtain ⟨hmem, hk⟩ := Finset.mem_filter.mp hx
    have hshard := (hlookup x hmem).mp hk
    obtain ⟨e, he, rfl | rfl⟩ := (hend x).mp hmem
    · exact ⟨e, he, .inl hshard⟩
    · exact ⟨e, he, .inr hshard⟩

/-- A vertex only moves to a shard that has an edge. -/
theorem hasEdge_of_visit {sc : Scores F} (hgraph : p.cs.netGraph = graphOf calls)
    (h : visit sc p v = some p') {k : ℤ} (hk : p'.cs.HasEdge calls k) : p.cs.HasEdge calls k := by
  obtain rfl | ⟨u, hu, -, hmove⟩ := visit_cases h
  · exact hk
  · obtain ⟨num, hrec, -⟩ := moveVertex_cases hmove
    have hshard : ∀ x, p'.cs.shardOf x = if x = v then p.cs.shardOf u else p.cs.shardOf x := by
      intro x
      rw [CLPAState.shardOf, (changeShardRecompute_cases hrec).map]
      exact shardOf_insert p.cs v (p.cs.shardOf u) x
    have hneighbor : p.cs.HasEdge calls (p.cs.shardOf u) := by
      rw [hgraph, edges_graphOf] at hu
      obtain ⟨e, he, hmem⟩ := List.mem_flatMap.mp hu
      obtain ⟨-, rfl⟩ | ⟨-, rfl⟩ := mem_ends hmem
      · exact ⟨e, he, .inr rfl⟩
      · exact ⟨e, he, .inl rfl⟩
    obtain ⟨e, he, hends⟩ := hk
    rw [hshard, hshard] at hends
    by_cases h1 : e.1 = v ∧ p.cs.shardOf u = k
    · exact h1.2 ▸ hneighbor
    · by_cases h2 : e.2 = v ∧ p.cs.shardOf u = k
      · exact h2.2 ▸ hneighbor
      · refine ⟨e, he, ?_⟩
        grind

/-- **Shards keep their edges**: with right counters, the shards that have an edge during
`CLPA_Partition` are those that had one before. -/
theorem shards_keep_edges {sc : Scores F} (hp : Populated shardNum cs)
    (hgraph : cs.netGraph = graphOf calls) {orders : List (List Vertex)}
    (horders : ∀ order ∈ orders, ∀ x ∈ order, x ∈ cs.netGraph.vertexSet)
    (hat : AtVertex sc shardNum cs orders p v) (k : ℤ) :
    p.cs.HasEdge calls k ↔ cs.HasEdge calls k := by
  obtain ⟨before, after, hflat, hupto, -⟩ := hat
  obtain ⟨cs₁, hcompute, hloop⟩ := Option.bind_eq_some_iff.mp hupto
  obtain ⟨hsame, hsize⟩ := computeEdges2Shard_cases hcompute
  have hstart : Repopulated shardNum cs ⟨cs₁, ∅, ∅⟩ ∧
      (cs₁.HasEdge calls k → cs.HasEdge calls k) := by
    refine ⟨⟨hp.congr hsame, hsize, hsame.graph, ?_⟩, ?_⟩
    · intro j hj
      show 0 < cs₁.population j
      rw [population_congr hsame]
      exact hj
    · unfold CLPAState.HasEdge CLPAState.shardOf
      rw [hsame.map]
      exact id
  obtain ⟨hpop, hback⟩ := foldlM_keeps (P := fun p => Repopulated shardNum cs p ∧
      (p.cs.HasEdge calls k → cs.HasEdge calls k))
    (fun s s' hs x hx hvisit => by
      have hmem : x ∈ orders.flatten := by
        rw [hflat]
        exact List.mem_append_left _ hx
      obtain ⟨order, horder, hxo⟩ := List.mem_flatten.mp hmem
      obtain ⟨s₁, hs₁, hpop₁⟩ := hs.1.visit sc (horders order horder x hxo)
      rw [hvisit] at hs₁
      obtain rfl := Option.some.inj hs₁
      exact ⟨hpop₁, fun hk => hs.2 (hasEdge_of_visit (hs.1.graph.trans hgraph) hvisit hk)⟩)
    hstart hloop
  refine ⟨hback, fun hk => ?_⟩
  rw [hasEdge_iff_population hpop.populated.sharded (hpop.graph.trans hgraph)]
  exact hpop.nonempty k ((hasEdge_iff_population hp.sharded hgraph k).mp hk)

/-! ### The divisors -/

theorem le_minimum_iff (x bound : ℤ) (l : List ℤ) :
    x ≤ CLPAState.minimum bound l ↔ x ≤ bound ∧ ∀ y ∈ l, x ≤ y := by
  induction l generalizing bound with
  | nil => simp [CLPAState.minimum]
  | cons y l ih =>
    have hfold : CLPAState.minimum bound (y :: l) =
        CLPAState.minimum (if bound > y then y else bound) l := rfl
    rw [hfold, ih, List.forall_mem_cons]
    split_ifs <;> constructor <;> intro h <;> refine ⟨?_, ?_⟩ <;> grind

/-- **The divisors of the scores.**  At every call of `getShard_score` that `CLPA_Partition` makes
on the graph of any calls of `AddEdge`, with any shards for the vertices, the vertex has a
neighbour.  As long as no vertex with an edge to itself has moved, the counts are not negative, and
`MinEdges2Shard` is positive exactly when every shard has an end of an edge. -/
theorem score_divisors (sc : Scores F) (hgraph : cs.netGraph = graphOf calls)
    (hrange : CallsInRange shardNum cs calls) (orders : List (List Vertex)) {uShard : ℤ}
    (hcall : ScoreCall sc shardNum cs orders p v uShard) :
    1 ≤ (p.cs.netGraph.edges v).length ∧
      ((∀ x ∈ p.updateTreshold, (x, x) ∉ calls) →
        (∀ k ∈ p.cs.edges2Shard, 0 ≤ k) ∧ 0 ≤ p.cs.crossShardEdgeNum ∧
        (1 ≤ p.cs.minEdges2Shard ↔ ∀ k : ℕ, k < shardNum → p.cs.HasEdge calls k)) := by
  obtain ⟨hat, before, u, after, b, hedges, -⟩ := hcall
  refine ⟨?_, fun hself => ?_⟩
  · rw [hedges, List.length_append, List.length_cons]
    omega
  · have htally := hat.tally hgraph hrange
    have hcounts := htally.counts hself
    obtain ⟨bound, hbound, hleast⟩ := htally.least
    have hmem : ∀ x, x ∈ p.cs.edges2Shard ↔
        ∃ k : ℕ, k < shardNum ∧ x = (calls.countP (p.cs.touches k) : ℤ) := by
      intro x
      rw [hcounts.edges, slice, List.mem_map]
      simp only [List.mem_range, eq_comm]
    refine ⟨?_, ?_, ?_⟩
    · intro x hx
      obtain ⟨k, -, rfl⟩ := (hmem x).mp hx
      exact Int.natCast_nonneg _
    · rw [hcounts.cross]
      exact Int.natCast_nonneg _
    · have hpos : ∀ k : ℕ, (1 : ℤ) ≤ calls.countP (p.cs.touches k) ↔
          ∃ e ∈ calls, p.cs.shardOf e.1 = k ∨ p.cs.shardOf e.2 = k := by
        intro k
        rw [Nat.one_le_cast, Nat.one_le_iff_ne_zero, ← Nat.pos_iff_ne_zero, List.countP_pos_iff]
        simp only [CLPAState.touches, decide_eq_true_eq]
      rw [hleast, le_minimum_iff, and_iff_right hbound]
      constructor
      · intro h k hk
        exact (hpos k).mp (h _ ((hmem _).mpr ⟨k, hk, rfl⟩))
      · intro h x hx
        obtain ⟨k, hk, rfl⟩ := (hmem x).mp hx
        exact (hpos k).mpr (h k hk)

/-- The scores with a penalty of one half, as fractions. -/
def halfPenalty : Scores ℚ where
  score edgesto outdegree edges least := edgesto / outdegree * (1 - 1 / 2 * edges / least)
  less a b := decide (a < b)
  start := -9999

/-- The first neighbour of a vertex always gets a score. -/
theorem AtVertex.scoreCall {sc : Scores F} {orders : List (List Vertex)}
    (h : AtVertex sc shardNum cs orders p v) {u : Vertex} {after : List Vertex}
    (hedges : p.cs.netGraph.edges v = u :: after) :
    ScoreCall sc shardNum cs orders p v (p.cs.shardOf u) :=
  ⟨h, [], u, after, _, hedges, rfl, rfl, List.not_mem_nil⟩

/-- What can be checked of the variables after some rounds. -/
theorem exists_atVertex (sc : Scores F) (shardNum : ℕ) (cs : CLPAState)
    (orders : List (List Vertex)) (before : List Vertex) (v : Vertex) (after : List Vertex)
    (horders : orders.flatten = before ++ v :: after) (P : Partitioning → Prop) [DecidablePred P]
    (h : (partitionUpTo sc shardNum cs before).any (fun p =>
      decide ((p.updateTreshold.lookup v).getD 0 < 50 ∧ P p)) = true) :
    ∃ p, AtVertex sc shardNum cs orders p v ∧ P p := by
  obtain ⟨p, hp, hcheck⟩ := (Option.any_eq_true _ _).mp h
  obtain ⟨hthreshold, hP⟩ := of_decide_eq_true hcheck
  exact ⟨p, ⟨before, after, horders, hp, hthreshold⟩, hP⟩

/-- Two shards with an edge each. -/
theorem score_divisors_small :
    ∃ p, ScoreCall halfPenalty 2 movedState [["00", "01", "02"]] p "00" 0 ∧
      1 ≤ (p.cs.netGraph.edges "00").length ∧ (∀ k ∈ p.cs.edges2Shard, 0 ≤ k) ∧
      0 ≤ p.cs.crossShardEdgeNum ∧ 1 ≤ p.cs.minEdges2Shard := by
  obtain ⟨p, hat, hedges, hshard, hmoved, htouched⟩ := exists_atVertex halfPenalty 2
    movedState [["00", "01", "02"]] [] "00" ["01", "02"] rfl
    (fun p => p.cs.netGraph.edges "00" = ["02", "01", "01"] ∧ p.cs.shardOf "02" = 0 ∧
      p.updateTreshold.keys = ∅ ∧ ∀ k : ℕ, k < 2 → ∃ e ∈ smallCalls.take 3,
        p.cs.shardOf e.1 = k ∨ p.cs.shardOf e.2 = k)
    (by decide +kernel)
  have hcall := hat.scoreCall hedges
  rw [hshard] at hcall
  obtain ⟨hdegree, hrest⟩ := score_divisors halfPenalty
    (show movedState.netGraph = graphOf (smallCalls.take 3) from rfl) (by decide +kernel) _ hcall
  obtain ⟨hcounts, hcross, hleast⟩ := hrest fun x hx => by
    rw [← Finmap.mem_keys, hmoved] at hx
    exact absurd hx (Finset.notMem_empty x)
  exact ⟨p, hcall, hdegree, hcounts, hcross, hleast.mpr htouched⟩

/-- Two shards, with all vertices in the first one. -/
def crowdedState : CLPAState :=
  { initCLPAState 2 with
    netGraph := graphOf [("00", "02")]
    partitionMap := ((∅ : Finmap fun _ : Vertex => ℤ).insert "00" 0).insert "02" 0
    vertexsNumInShard := [2, 0] }

/-- Two shards; the vertex "00" has an edge to itself and three edges to the other shard. -/
def selfEdgeCalls : List (Vertex × Vertex) :=
  [("00", "00"), ("00", "01"), ("00", "01"), ("00", "01"), ("02", "01")]

def selfEdgeState : CLPAState :=
  { initCLPAState 2 with
    netGraph := graphOf selfEdgeCalls
    partitionMap := (((∅ : Finmap fun _ : Vertex => ℤ).insert "00" 0).insert "01" 1).insert "02" 0
    vertexsNumInShard := [2, 1] }

/-- The divisor is zero when a shard has no edge.  And when "00" has moved to the other shard, its
edge to itself has been taken off the counts twice: there are minus one crossing edges, and the
divisor is zero although both shards have an edge. -/
theorem score_divisor_zero :
    (∃ p, ScoreCall halfPenalty 2 crowdedState [["00", "02"]] p "00" 0 ∧
      p.cs.minEdges2Shard = 0) ∧
    CallsInRange 2 selfEdgeState selfEdgeCalls ∧
    ∃ p, ScoreCall halfPenalty 2 selfEdgeState [["00", "01", "02"]] p "01" 1 ∧
      p.cs.crossShardEdgeNum = -1 ∧ p.cs.minEdges2Shard = 0 ∧
      ∀ k : ℕ, k < 2 → ∃ e ∈ selfEdgeCalls, p.cs.shardOf e.1 = k ∨ p.cs.shardOf e.2 = k := by
  refine ⟨?_, by decide +kernel, ?_⟩
  · obtain ⟨p, hat, hedges, hshard, hleast⟩ := exists_atVertex halfPenalty 2 crowdedState
      [["00", "02"]] [] "00" ["02"] rfl
      (fun p => p.cs.netGraph.edges "00" = ["02"] ∧ p.cs.shardOf "02" = 0 ∧
        p.cs.minEdges2Shard = 0) (by decide +kernel)
    have hcall := hat.scoreCall hedges
    rw [hshard] at hcall
    exact ⟨p, hcall, hleast⟩
  · obtain ⟨p, hat, hedges, hshard, hcross, hleast, htouched⟩ := exists_atVertex
      halfPenalty 2 selfEdgeState [["00", "01", "02"]] ["00"] "01" ["02"] rfl
      (fun p => p.cs.netGraph.edges "01" = ["00", "00", "00", "02"] ∧ p.cs.shardOf "00" = 1 ∧
        p.cs.crossShardEdgeNum = -1 ∧ p.cs.minEdges2Shard = 0 ∧
        ∀ k : ℕ, k < 2 → ∃ e ∈ selfEdgeCalls, p.cs.shardOf e.1 = k ∨ p.cs.shardOf e.2 = k)
      (by decide +kernel)
    have hcall := hat.scoreCall hedges
    rw [hshard] at hcall
    exact ⟨p, hcall, hcross, hleast, htouched⟩

end Aster.Clpa
