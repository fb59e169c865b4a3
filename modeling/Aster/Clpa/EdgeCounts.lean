import Aster.Clpa.Algorithm
import Aster.Clpa.Transfer

/-!
# The edge counts of the shards

`ComputeEdges2Shard` goes over the directed entries of `EdgeSet`, separates those that stay in a
shard from those that cross, and halves.  `changeShardRecompute` corrects the counts for one vertex
that has moved.  Both are compared with the calls of `AddEdge` that made the graph.

* `computeEdges2ShardLoop` is the loop over `EdgeSet` in a given order of its keys, and
  `computeEdges2ShardLoop_eq` that the order does not matter;
* `edges_graphOf`: the neighbours of a vertex are the other ends of its calls, in their order;
* `computeEdges2Shard_graphOf`: what the halves are;
* `EdgesCounted.move`: a move with `changeShardRecompute` changes the counts by what its calls
  contribute before and after.

Counts are integers; `int` would need 2^62 edges to wrap around.
-/

namespace Aster.Clpa

open Aster.Core Aster.Chain Aster.Lib.Containers Aster.Lib.Transition

/-! ### The loop -/

namespace CLPAState

/-- One entry of the edge list of `v`, for `Edges2Shard` and `interEdge`. -/
def countNeighbor (cs : CLPAState) (v : Vertex) (acc : List ℤ × List ℤ) (u : Vertex) :
    Option (List ℤ × List ℤ) :=
  if cs.shardOf v ≠ cs.shardOf u then do
    let edges2Shard ← modifyAt (· + 1) acc.1 (cs.shardOf u)
    some (edges2Shard, acc.2)
  else do
    let interEdge ← modifyAt (· + 1) acc.2 (cs.shardOf u)
    some (acc.1, interEdge)

def countVertex (cs : CLPAState) (acc : List ℤ × List ℤ) (v : Vertex) :
    Option (List ℤ × List ℤ) :=
  (cs.netGraph.edges v).foldlM (cs.countNeighbor v) acc

/-- `ComputeEdges2Shard`, with the order of its loop over `EdgeSet`. -/
def computeEdges2ShardLoop (shardNum : ℕ) (cs : CLPAState) (order : List Vertex) :
    Option CLPAState := do
  let (edges2Shard, interEdge) ← order.foldlM cs.countVertex
    (List.replicate shardNum 0, List.replicate shardNum 0)
  let crossShardEdgeNum := edges2Shard.sum.tdiv 2
  let edges2Shard := List.zipWith (fun val inter => val + inter.tdiv 2) edges2Shard interEdge
  some { cs with
    edges2Shard := edges2Shard
    crossShardEdgeNum := crossShardEdgeNum
    minEdges2Shard := minimum 0x7fffffff edges2Shard }

/-- An entry from `v` to `u` counts for shard `k`. -/
def counts (cs : CLPAState) (inter : Bool) (k : ℤ) (v u : Vertex) : Bool :=
  decide (cs.shardOf v = cs.shardOf u) == inter && cs.shardOf u == k

end CLPAState

section Loop

variable {shardNum : ℕ} {cs : CLPAState}

/-- The two slices of counters, by whether they count inner edges. -/
def counters (shardNum : ℕ) (c : Bool → ℤ → ℤ) : List ℤ × List ℤ :=
  (slice shardNum (c false), slice shardNum (c true))

/-- What an entry adds to the counters. -/
def entryCount (cs : CLPAState) (v u : Vertex) : Bool → ℤ → ℤ :=
  fun inter k => (cs.counts inter k v u).toNat

theorem countNeighbor_counters {u : Vertex} (hu : 0 ≤ cs.shardOf u ∧ cs.shardOf u < shardNum)
    (v : Vertex) (c : Bool → ℤ → ℤ) :
    cs.countNeighbor v (counters shardNum c) u =
      some (counters shardNum (c + entryCount cs v u)) := by
  have hother : ∀ inter, decide (cs.shardOf v = cs.shardOf u) ≠ inter →
      (c + entryCount cs v u) inter = c inter := by
    intro inter hne
    funext k
    simp [entryCount, CLPAState.counts, hne]
  have hsame : ∀ inter, decide (cs.shardOf v = cs.shardOf u) = inter →
      (c + entryCount cs v u) inter =
        Function.update (c inter) (cs.shardOf u) (c inter (cs.shardOf u) + 1) := by
    intro inter heq
    funext k
    by_cases hk : k = cs.shardOf u
    · subst hk
      simp [entryCount, CLPAState.counts, heq]
    · simp [entryCount, CLPAState.counts, Function.update_of_ne hk, Ne.symm hk]
  unfold CLPAState.countNeighbor
  by_cases hshard : cs.shardOf v = cs.shardOf u
  · rw [if_neg (not_not.mpr hshard), counters, modifyAt_slice _ _ hu]
    rw [counters, hother false (by simp [hshard]), hsame true (by simp [hshard])]
    rfl
  · rw [if_pos hshard, counters, modifyAt_slice _ _ hu]
    rw [counters, hother true (by simp [hshard]), hsame false (by simp [hshard])]
    rfl

theorem countVertex_counters {v : Vertex}
    (hv : ∀ u ∈ cs.netGraph.edges v, 0 ≤ cs.shardOf u ∧ cs.shardOf u < shardNum)
    (c : Bool → ℤ → ℤ) :
    cs.countVertex (counters shardNum c) v =
      some (counters shardNum (c + ((cs.netGraph.edges v).map (entryCount cs v)).sum)) :=
  foldlM_add (counters shardNum) (entryCount cs v)
    (fun c u hu => countNeighbor_counters (hv u hu) v c) c

theorem sum_entryCount (v : Vertex) (us : List Vertex) (inter : Bool) (k : ℤ) :
    (us.map (entryCount cs v)).sum inter k = us.countP (cs.counts inter k v) := by
  induction us with
  | nil => rfl
  | cons u us ih =>
    rw [List.map_cons, List.sum_cons, List.countP_cons]
    show entryCount cs v u inter k + (us.map (entryCount cs v)).sum inter k = _
    rw [ih, entryCount, add_comm]
    cases cs.counts inter k v u <;> simp

theorem sum_countVertex (order : List Vertex) (inter : Bool) (k : ℤ) :
    (order.map fun v => ((cs.netGraph.edges v).map (entryCount cs v)).sum).sum inter k =
      ((order.map fun v => (cs.netGraph.edges v).countP (cs.counts inter k v)).sum : ℕ) := by
  induction order with
  | nil => rfl
  | cons v order ih =>
    rw [List.map_cons, List.sum_cons, List.map_cons, List.sum_cons, Nat.cast_add, ← ih,
      ← sum_entryCount]
    rfl

/-- **The order of the loop does not matter.** -/
theorem computeEdges2ShardLoop_eq (hrange : cs.EdgesInRange shardNum) {order : List Vertex}
    (horder : Iterates cs.netGraph.edgeSet order) :
    cs.computeEdges2ShardLoop shardNum order = cs.computeEdges2Shard shardNum := by
  have hzero : (List.replicate shardNum (0 : ℤ), List.replicate shardNum (0 : ℤ)) =
      counters shardNum 0 := by
    simp [counters, slice]
  have hloop : order.foldlM cs.countVertex (counters shardNum 0) =
      some (counters shardNum fun inter k => (cs.countEdges inter k : ℤ)) := by
    have hsum := foldlM_add (counters shardNum)
      (fun v => ((cs.netGraph.edges v).map (entryCount cs v)).sum)
      (fun c v hv => countVertex_counters (hrange v (horder.2 ▸ List.mem_toFinset.mpr hv)) c) 0
    rw [hsum]
    congr 2
    funext inter k
    rw [zero_add, sum_countVertex, ← List.sum_toFinset _ horder.1, horder.2]
    rfl
  have hcross : (slice shardNum fun k => (cs.countEdges false k : ℤ)).sum.tdiv 2 =
      (slice shardNum fun k => (cs.countEdges false k : ℤ)).sum / 2 := by
    refine Int.tdiv_eq_ediv_of_nonneg (List.sum_nonneg ?_)
    intro x hx
    obtain ⟨k, -, rfl⟩ := List.mem_map.mp hx
    exact Int.natCast_nonneg _
  have hedges : List.zipWith (fun val inter => val + Int.tdiv inter 2)
      (slice shardNum fun k => (cs.countEdges false k : ℤ))
      (slice shardNum fun k => (cs.countEdges true k : ℤ)) =
      slice shardNum fun k => (cs.countEdges false k : ℤ) + (cs.countEdges true k / 2 : ℕ) := by
    simp only [slice, List.zipWith_map, List.zipWith_self]
    rfl
  rw [CLPAState.computeEdges2ShardLoop, hzero, hloop, CLPAState.computeEdges2Shard, if_pos hrange]
  simp only [Option.bind_eq_bind, Option.bind_some, counters, hcross, hedges]
  rfl

end Loop

/-! ### The graph of the calls -/

/-- The graph that the calls of `AddEdge` make. -/
def graphOf (calls : List (Vertex × Vertex)) : Graph :=
  calls.foldl (fun g e => g.addEdge e.1 e.2) Graph.empty

/-- What a call puts into the edge list of `v`. -/
def ends (v : Vertex) (e : Vertex × Vertex) : List Vertex :=
  (if e.1 = v then [e.2] else []) ++ if e.2 = v then [e.1] else []

theorem edges_addHalf (g : Graph) (u w v : Vertex) :
    (g.addHalf u w).edges v = g.edges v ++ if u = v then [w] else [] := by
  show ((g.edgeSet.insert u (g.edges u ++ [w])).lookup v).getD [] = _
  split_ifs with huv
  · rw [huv, Finmap.lookup_insert]
    rfl
  · rw [Finmap.lookup_insert_of_ne _ (Ne.symm huv), List.append_nil]
    rfl

theorem edges_addEdge (g : Graph) (e : Vertex × Vertex) (v : Vertex) :
    (g.addEdge e.1 e.2).edges v = g.edges v ++ ends v e := by
  rw [Graph.addEdge, edges_addHalf, edges_addHalf, List.append_assoc]
  rfl

theorem edges_foldl (calls : List (Vertex × Vertex)) (g : Graph) (v : Vertex) :
    (calls.foldl (fun g e => g.addEdge e.1 e.2) g).edges v =
      g.edges v ++ calls.flatMap (ends v) := by
  induction calls generalizing g with
  | nil => rw [List.foldl_nil, List.flatMap_nil, List.append_nil]
  | cons e calls ih =>
    rw [List.foldl_cons, ih, edges_addEdge, List.flatMap_cons, List.append_assoc]

/-- **The neighbours of a vertex** are the other ends of its calls. -/
theorem edges_graphOf (calls : List (Vertex × Vertex)) (v : Vertex) :
    (graphOf calls).edges v = calls.flatMap (ends v) :=
  edges_foldl calls Graph.empty v

theorem mem_ends {v u : Vertex} {e : Vertex × Vertex} (h : u ∈ ends v e) :
    (e.1 = v ∧ e.2 = u) ∨ (e.2 = v ∧ e.1 = u) := by
  unfold ends at h
  obtain h | h := List.mem_append.mp h
  · split_ifs at h with hv
    · exact .inl ⟨hv, (List.mem_singleton.mp h).symm⟩
    · cases h
  · split_ifs at h with hv
    · exact .inr ⟨hv, (List.mem_singleton.mp h).symm⟩
    · cases h

theorem mem_keys_addEdge (g : Graph) (e : Vertex × Vertex) (v : Vertex) :
    v ∈ (g.addEdge e.1 e.2).edgeSet ↔ v = e.2 ∨ v = e.1 ∨ v ∈ g.edgeSet := by
  show v ∈ (Finmap.insert e.2 _ (Finmap.insert e.1 _ g.edgeSet)) ↔ _
  rw [Finmap.mem_insert, Finmap.mem_insert]

/-- Every end of a call has an edge list. -/
theorem mem_edgeSet_foldl {calls : List (Vertex × Vertex)} {e : Vertex × Vertex} (he : e ∈ calls)
    (g : Graph) : e.1 ∈ (calls.foldl (fun g e => g.addEdge e.1 e.2) g).edgeSet ∧
      e.2 ∈ (calls.foldl (fun g e => g.addEdge e.1 e.2) g).edgeSet := by
  have hkeep : ∀ (calls : List (Vertex × Vertex)) (g : Graph) (v : Vertex), v ∈ g.edgeSet →
      v ∈ (calls.foldl (fun g e => g.addEdge e.1 e.2) g).edgeSet := by
    intro calls
    induction calls with
    | nil => exact fun g v hv => hv
    | cons e' calls ih =>
      exact fun g v hv => ih _ v ((mem_keys_addEdge g e' v).mpr (.inr (.inr hv)))
  induction calls generalizing g with
  | nil => cases he
  | cons e' calls ih =>
    obtain rfl | he := List.mem_cons.mp he
    · exact ⟨hkeep calls _ _ ((mem_keys_addEdge g e _).mpr (.inr (.inl rfl))),
        hkeep calls _ _ ((mem_keys_addEdge g e _).mpr (.inl rfl))⟩
    · exact ih he _

/-- **Handshake**: over all edge lists, each call is seen once from either end. -/
theorem sum_countP_ends {calls : List (Vertex × Vertex)} {S : Finset Vertex}
    (hS : ∀ e ∈ calls, e.1 ∈ S ∧ e.2 ∈ S) (P : Vertex → Vertex → Bool) :
    ∑ v ∈ S, (calls.flatMap (ends v)).countP (P v) =
      (calls.map fun e => (P e.1 e.2).toNat + (P e.2 e.1).toNat).sum := by
  induction calls with
  | nil => simp
  | cons e calls ih =>
    have hone : ∀ v, (ends v e).countP (P v) =
        (if e.1 = v then (P e.1 e.2).toNat else 0) + if e.2 = v then (P e.2 e.1).toNat else 0 := by
      intro v
      rw [ends, List.countP_append]
      congr 1
      · split_ifs with hv
        · rw [← hv, List.countP_singleton]
          cases P e.1 e.2 <;> rfl
        · rfl
      · split_ifs with hv
        · rw [← hv, List.countP_singleton]
          cases P e.2 e.1 <;> rfl
        · rfl
    obtain ⟨h1, h2⟩ := hS e List.mem_cons_self
    simp only [List.flatMap_cons, List.countP_append, hone, Finset.sum_add_distrib,
      Finset.sum_ite_eq, if_pos h1, if_pos h2, List.map_cons, List.sum_cons]
    rw [ih fun e' he' => hS e' (List.mem_cons_of_mem e he')]

/-! ### What the counts are -/

/-- The call has an end in shard `k`. -/
def CLPAState.touches (cs : CLPAState) (k : ℤ) (e : Vertex × Vertex) : Bool :=
  decide (cs.shardOf e.1 = k ∨ cs.shardOf e.2 = k)

/-- The ends of the call are in different shards. -/
def CLPAState.crosses (cs : CLPAState) (e : Vertex × Vertex) : Bool :=
  decide (cs.shardOf e.1 ≠ cs.shardOf e.2)

/-- The ends of the calls are in shards that exist. -/
def CallsInRange (shardNum : ℕ) (cs : CLPAState) (calls : List (Vertex × Vertex)) : Prop :=
  ∀ e ∈ calls, (0 ≤ cs.shardOf e.1 ∧ cs.shardOf e.1 < shardNum) ∧
    (0 ≤ cs.shardOf e.2 ∧ cs.shardOf e.2 < shardNum)

instance (shardNum : ℕ) (cs : CLPAState) (calls : List (Vertex × Vertex)) :
    Decidable (CallsInRange shardNum cs calls) := inferInstanceAs (Decidable (∀ e ∈ calls, _))

section Calls

variable {shardNum : ℕ} {cs : CLPAState} {calls : List (Vertex × Vertex)}

theorem CallsInRange.edgesInRange (h : CallsInRange shardNum cs calls)
    (hgraph : cs.netGraph = graphOf calls) : cs.EdgesInRange shardNum := by
  intro v _ u hu
  rw [hgraph, edges_graphOf] at hu
  obtain ⟨e, he, hmem⟩ := List.mem_flatMap.mp hu
  obtain ⟨-, rfl⟩ | ⟨-, rfl⟩ := mem_ends hmem
  · exact (h e he).2
  · exact (h e he).1

theorem countEdges_graphOf (hgraph : cs.netGraph = graphOf calls) (inter : Bool) (k : ℤ) :
    cs.countEdges inter k =
      (calls.map fun e =>
        (cs.counts inter k e.1 e.2).toNat + (cs.counts inter k e.2 e.1).toNat).sum := by
  have hkeys : ∀ e ∈ calls, e.1 ∈ cs.netGraph.edgeSet.keys ∧ e.2 ∈ cs.netGraph.edgeSet.keys := by
    intro e he
    rw [hgraph, Finmap.mem_keys, Finmap.mem_keys]
    exact mem_edgeSet_foldl he Graph.empty
  rw [← sum_countP_ends hkeys]
  refine Finset.sum_congr rfl ?_
  intro v _
  rw [hgraph, edges_graphOf]
  rfl

theorem sum_map_toNat {α : Type*} (p : α → Bool) (l : List α) :
    (l.map fun x => (p x).toNat).sum = l.countP p := by
  induction l with
  | nil => rfl
  | cons x l ih =>
    rw [List.map_cons, List.sum_cons, ih, List.countP_cons, add_comm]
    cases p x <;> rfl

theorem countEdges_false (hgraph : cs.netGraph = graphOf calls) (k : ℤ) :
    cs.countEdges false k = calls.countP fun e => cs.crosses e && cs.touches k e := by
  have hone : ∀ e : Vertex × Vertex,
      (cs.counts false k e.1 e.2).toNat + (cs.counts false k e.2 e.1).toNat =
        (cs.crosses e && cs.touches k e).toNat := by
    intro e
    unfold CLPAState.counts CLPAState.crosses CLPAState.touches
    by_cases h : cs.shardOf e.1 = cs.shardOf e.2
    · simp [h]
    · by_cases h1 : cs.shardOf e.1 = k
      · subst h1
        simp [h, Ne.symm h, beq_eq_decide]
      · simp [h, Ne.symm h, h1, beq_eq_decide]
  rw [countEdges_graphOf hgraph, funext hone, sum_map_toNat]

/-- An inner edge has both entries in its shard. -/
theorem countEdges_true (hgraph : cs.netGraph = graphOf calls) (k : ℤ) :
    cs.countEdges true k = 2 * calls.countP fun e => !cs.crosses e && cs.touches k e := by
  have hone : ∀ e : Vertex × Vertex,
      (cs.counts true k e.1 e.2).toNat + (cs.counts true k e.2 e.1).toNat =
        2 * (!cs.crosses e && cs.touches k e).toNat := by
    intro e
    unfold CLPAState.counts CLPAState.crosses CLPAState.touches
    by_cases h : cs.shardOf e.1 = cs.shardOf e.2
    · simp [h, two_mul, beq_eq_decide]
    · simp [h, Ne.symm h]
  rw [countEdges_graphOf hgraph, funext hone, List.sum_map_mul_left, sum_map_toNat]

theorem countP_split {α : Type*} (p q : α → Bool) (l : List α) :
    l.countP (fun x => p x && q x) + l.countP (fun x => !p x && q x) = l.countP q := by
  induction l with
  | nil => rfl
  | cons x l ih =>
    simp only [List.countP_cons]
    cases p x <;> cases q x <;> simp <;> omega

/-- A crossing call has its ends in two of the shards. -/
theorem sum_touches {e : Vertex × Vertex} (hcross : cs.crosses e = true)
    (h1 : 0 ≤ cs.shardOf e.1 ∧ cs.shardOf e.1 < shardNum)
    (h2 : 0 ≤ cs.shardOf e.2 ∧ cs.shardOf e.2 < shardNum) :
    ∑ k ∈ Finset.range shardNum, (cs.touches (k : ℕ) e).toNat = 2 := by
  obtain ⟨a, ha⟩ := Int.eq_ofNat_of_zero_le h1.1
  obtain ⟨b, hb⟩ := Int.eq_ofNat_of_zero_le h2.1
  have hab : a ≠ b := by
    have hne : cs.shardOf e.1 ≠ cs.shardOf e.2 := of_decide_eq_true hcross
    omega
  have hone : ∀ k : ℕ, (cs.touches k e).toNat =
      (if a = k then 1 else 0) + if b = k then 1 else 0 := by
    intro k
    rw [CLPAState.touches, ha, hb]
    simp only [Nat.cast_inj]
    by_cases hak : a = k
    · simp [hak, show b ≠ k by omega]
    · by_cases hbk : b = k <;> simp [hak, hbk]
  have ha' : a ∈ Finset.range shardNum := Finset.mem_range.mpr (by omega)
  have hb' : b ∈ Finset.range shardNum := Finset.mem_range.mpr (by omega)
  simp only [hone, Finset.sum_add_distrib, Finset.sum_ite_eq, if_pos ha', if_pos hb']

theorem sum_countEdges_false (hgraph : cs.netGraph = graphOf calls)
    (hrange : CallsInRange shardNum cs calls) :
    ∑ k ∈ Finset.range shardNum, cs.countEdges false (k : ℕ) = 2 * calls.countP cs.crosses := by
  simp only [countEdges_false hgraph]
  clear hgraph
  induction calls with
  | nil => simp
  | cons e calls ih =>
    obtain ⟨h1, h2⟩ := hrange e List.mem_cons_self
    have hone : ∑ k ∈ Finset.range shardNum,
        (if (cs.crosses e && cs.touches (k : ℕ) e) = true then 1 else 0 : ℕ) =
        2 * if cs.crosses e = true then 1 else 0 := by
      cases hcross : cs.crosses e with
      | false => simp
      | true =>
        rw [if_pos rfl, mul_one, ← sum_touches hcross h1 h2]
        refine Finset.sum_congr rfl ?_
        intro k _
        cases cs.touches k e <;> rfl
    simp only [List.countP_cons, Finset.sum_add_distrib, hone]
    rw [ih fun e' he' => hrange e' (List.mem_cons_of_mem e he'), mul_add]

/-- **The counts of `ComputeEdges2Shard`**: nothing is lost in the halves. -/
theorem computeEdges2Shard_graphOf (hgraph : cs.netGraph = graphOf calls)
    (hrange : CallsInRange shardNum cs calls) :
    cs.computeEdges2Shard shardNum = some { cs with
      edges2Shard := slice shardNum fun k => (calls.countP (cs.touches k) : ℤ)
      crossShardEdgeNum := calls.countP cs.crosses
      minEdges2Shard := CLPAState.minimum 0x7fffffff
        (slice shardNum fun k => (calls.countP (cs.touches k) : ℤ)) } := by
  have hedges : (slice shardNum fun k =>
      (cs.countEdges false k : ℤ) + (cs.countEdges true k / 2 : ℕ)) =
      slice shardNum fun k => (calls.countP (cs.touches k) : ℤ) := by
    congr 1
    funext k
    rw [countEdges_false hgraph, countEdges_true hgraph, Nat.mul_div_cancel_left _ two_pos,
      ← Nat.cast_add, countP_split]
  have hcross : (slice shardNum fun k => (cs.countEdges false k : ℤ)).sum =
      2 * (calls.countP cs.crosses : ℤ) := by
    rw [sum_slice, ← Nat.cast_sum, sum_countEdges_false hgraph hrange, Nat.cast_mul]
    rfl
  rw [CLPAState.computeEdges2Shard, if_pos (hrange.edgesInRange hgraph)]
  show some { cs with
    edges2Shard := slice shardNum fun k =>
      (cs.countEdges false k : ℤ) + (cs.countEdges true k / 2 : ℕ)
    crossShardEdgeNum := (slice shardNum fun k => (cs.countEdges false k : ℤ)).sum / 2
    minEdges2Shard := CLPAState.minimum 0x7fffffff (slice shardNum fun k =>
      (cs.countEdges false k : ℤ) + (cs.countEdges true k / 2 : ℕ)) } = _
  rw [hedges, hcross, Int.mul_ediv_cancel_left _ two_ne_zero]

/-- **`ComputeEdges2Shard` counts edges**, in whatever order it goes over the map: a shard has the
calls with an end in it, and the calls between two shards are the crossing edges. -/
theorem computeEdges2Shard_counts_calls (hgraph : cs.netGraph = graphOf calls)
    (hrange : CallsInRange shardNum cs calls) {order : List Vertex}
    (horder : Iterates cs.netGraph.edgeSet order) :
    ∃ cs', cs.computeEdges2ShardLoop shardNum order = some cs' ∧
      cs'.edges2Shard.length = shardNum ∧
      (∀ k : ℕ, k < shardNum → cs'.edges2Shard[k]? = some (calls.countP (cs.touches k) : ℤ)) ∧
      cs'.crossShardEdgeNum = calls.countP cs.crosses := by
  have hloop := computeEdges2ShardLoop_eq (hrange.edgesInRange hgraph) horder
  rw [computeEdges2Shard_graphOf hgraph hrange] at hloop
  refine ⟨_, hloop, ?_, ?_, rfl⟩
  · exact length_slice shardNum fun k => (calls.countP (cs.touches k) : ℤ)
  · intro k hk
    exact getElem?_slice (fun k => (calls.countP (cs.touches k) : ℤ)) hk

end Calls

/-- Two shards, with an edge inside the first one, two edges between them and a loop. -/
def smallCalls : List (Vertex × Vertex) :=
  [("00", "02"), ("00", "01"), ("01", "00"), ("02", "02")]

def smallState : CLPAState :=
  { initCLPAState 2 with
    netGraph := graphOf smallCalls
    partitionMap := (((∅ : Finmap fun _ : Vertex => ℤ).insert "00" 0).insert "01" 1).insert "02" 0 }

theorem computeEdges2Shard_counts_calls_small :
    ∃ cs', smallState.computeEdges2ShardLoop 2 ["02", "00", "01"] = some cs' ∧
      cs'.edges2Shard.length = 2 ∧
      (∀ k : ℕ, k < 2 →
        cs'.edges2Shard[k]? = some (smallCalls.countP (smallState.touches k) : ℤ)) ∧
      cs'.crossShardEdgeNum = smallCalls.countP smallState.crosses :=
  computeEdges2Shard_counts_calls rfl (by decide) (by decide +kernel)

/-! ### Moving a vertex -/

/-- A vertex gets another shard, and the counts follow. -/
def CLPAState.moveAndRecompute (cs : CLPAState) (m : Vertex × ℤ) : Option CLPAState :=
  CLPAState.changeShardRecompute { cs with partitionMap := cs.partitionMap.insert m.1 m.2 } m.1
    (cs.shardOf m.1)

/-- The move is to another shard, which exists. -/
def CLPAState.MoveInRange (shardNum : ℕ) (cs : CLPAState) (m : Vertex × ℤ) : Prop :=
  (0 ≤ m.2 ∧ m.2 < shardNum) ∧ m.2 ≠ cs.shardOf m.1

instance (shardNum : ℕ) (cs : CLPAState) (m : Vertex × ℤ) :
    Decidable (CLPAState.MoveInRange shardNum cs m) := inferInstanceAs (Decidable (_ ∧ _))

section Moves

variable {shardNum : ℕ} {cs : CLPAState} {calls : List (Vertex × Vertex)}

theorem shardOf_insert (cs : CLPAState) (v : Vertex) (new : ℤ) (u : Vertex) :
    CLPAState.shardOf { cs with partitionMap := cs.partitionMap.insert v new } u =
      if u = v then new else cs.shardOf u := by
  unfold CLPAState.shardOf
  split_ifs with huv
  · rw [huv, Finmap.lookup_insert]
    rfl
  · rw [Finmap.lookup_insert_of_ne _ huv]

/-- What an edge between the shards `a` and `b` counts, for every shard and for the crossing
edges. -/
def pairCount (a b : ℤ) : (ℤ → ℤ) × ℤ :=
  (fun k => if a = k ∨ b = k then 1 else 0, if a ≠ b then 1 else 0)

theorem pairCount_comm (a b : ℤ) : pairCount a b = pairCount b a := by
  simp only [pairCount, or_comm, ne_comm]

theorem sum_pairCount (cs : CLPAState) (calls : List (Vertex × Vertex)) :
    (calls.map fun e => pairCount (cs.shardOf e.1) (cs.shardOf e.2)).sum =
      (fun k => (calls.countP (cs.touches k) : ℤ), (calls.countP cs.crosses : ℤ)) := by
  induction calls with
  | nil => rfl
  | cons e calls ih =>
    rw [List.map_cons, List.sum_cons, ih]
    refine Prod.ext (funext fun k => ?_) ?_
    · show (if cs.shardOf e.1 = k ∨ cs.shardOf e.2 = k then 1 else 0 : ℤ) +
        (calls.countP (cs.touches k) : ℤ) = _
      simp [List.countP_cons, CLPAState.touches, add_comm]
    · show (if cs.shardOf e.1 ≠ cs.shardOf e.2 then 1 else 0 : ℤ) +
        (calls.countP cs.crosses : ℤ) = _
      simp [List.countP_cons, CLPAState.crosses, add_comm]

/-- A neighbour: its edge was counted from `old`, and is counted from `new`. -/
theorem recomputeNeighbor_counters {new old : ℤ} {u : Vertex} (hne : new ≠ old)
    (hnew : 0 ≤ new ∧ new < shardNum) (hold : 0 ≤ old ∧ old < shardNum) (c : (ℤ → ℤ) × ℤ) :
    cs.recomputeNeighbor new old (slice shardNum c.1, c.2) u =
      some (slice shardNum (c + (pairCount new (cs.shardOf u) - pairCount old (cs.shardOf u))).1,
        (c + (pairCount new (cs.shardOf u) - pairCount old (cs.shardOf u))).2) := by
  set d := pairCount new (cs.shardOf u) - pairCount old (cs.shardOf u) with hd
  have htotal : ∀ (c' : ℤ → ℤ) (x : ℤ), (∀ k, c' k = c.1 k + d.1 k) → x = c.2 + d.2 →
      some (slice shardNum c', x) = some (slice shardNum (c + d).1, (c + d).2) := by
    intro c' x hc' hx
    rw [show c' = (c + d).1 from funext hc', hx]
    rfl
  unfold CLPAState.recomputeNeighbor
  split_ifs with hother hsame
  · rw [modifyAt_slice _ _ hnew]
    show (modifyAt (· - 1) (slice shardNum _) old).bind _ = _
    rw [modifyAt_slice _ _ hold]
    refine htotal _ _ ?_ ?_
    · intro k
      simp only [Function.update_apply, hd, pairCount, Prod.fst_sub, Pi.sub_apply]
      grind
    · simp only [hd, pairCount, Prod.snd_sub]
      grind
  · rw [modifyAt_slice _ _ hold]
    refine htotal _ _ ?_ ?_
    · intro k
      simp only [Function.update_apply, hd, pairCount, Prod.fst_sub, Pi.sub_apply]
      grind
    · simp only [hd, pairCount, Prod.snd_sub]
      grind
  · rw [modifyAt_slice _ _ hnew]
    refine htotal _ _ ?_ ?_
    · intro k
      simp only [Function.update_apply, hd, pairCount, Prod.fst_sub, Pi.sub_apply]
      grind
    · simp only [hd, pairCount, Prod.snd_sub]
      grind

/-- **A move changes the counts of the calls** by what the neighbours of the vertex say, when the
vertex is not its own neighbour. -/
theorem sum_pairCount_move {v : Vertex} (hself : (v, v) ∉ calls) (new : ℤ) {moved : CLPAState}
    (hmoved : moved = { cs with partitionMap := cs.partitionMap.insert v new }) :
    (calls.map fun e => pairCount (moved.shardOf e.1) (moved.shardOf e.2)).sum =
      (calls.map fun e => pairCount (cs.shardOf e.1) (cs.shardOf e.2)).sum +
        ((calls.flatMap (ends v)).map fun u =>
          pairCount new (moved.shardOf u) - pairCount (cs.shardOf v) (moved.shardOf u)).sum := by
  have hshard : ∀ u, moved.shardOf u = if u = v then new else cs.shardOf u := by
    intro u
    rw [hmoved, shardOf_insert]
  induction calls with
  | nil => simp
  | cons e calls ih =>
    have hone : pairCount (moved.shardOf e.1) (moved.shardOf e.2) =
        pairCount (cs.shardOf e.1) (cs.shardOf e.2) + ((ends v e).map fun u =>
          pairCount new (moved.shardOf u) - pairCount (cs.shardOf v) (moved.shardOf u)).sum := by
      unfold ends
      by_cases h1 : e.1 = v
      · have h2 : e.2 ≠ v := by
          intro h2
          apply hself
          rw [show (v, v) = e from Prod.ext h1.symm h2.symm]
          exact List.mem_cons_self
        simp [hshard, h1, h2]
      · by_cases h2 : e.2 = v
        · simp [hshard, h1, h2, pairCount_comm _ (cs.shardOf e.1)]
        · simp [hshard, h1, h2]
    rw [List.map_cons, List.sum_cons, hone, ih fun hmem => hself (List.mem_cons_of_mem e hmem),
      List.map_cons, List.sum_cons, List.flatMap_cons, List.map_append, List.sum_append]
    abel

theorem minimum_of_lt {b x : ℤ} (h : x < b) (l : List ℤ) :
    CLPAState.minimum b (x :: l) = CLPAState.minimum x l := by
  rw [CLPAState.minimum, List.foldl_cons, if_pos h]
  rfl

/-- The counts are those of the calls. -/
structure EdgesCounted (shardNum : ℕ) (calls : List (Vertex × Vertex)) (cs : CLPAState) :
    Prop where
  graph : cs.netGraph = graphOf calls
  range : CallsInRange shardNum cs calls
  edges : cs.edges2Shard = slice shardNum fun k => (calls.countP (cs.touches k) : ℤ)
  cross : cs.crossShardEdgeNum = calls.countP cs.crosses
  least : cs.minEdges2Shard = CLPAState.minimum 0x7fffffff cs.edges2Shard

theorem EdgesCounted.compute (h : EdgesCounted shardNum calls cs) {order : List Vertex}
    (horder : Iterates cs.netGraph.edgeSet order) :
    cs.computeEdges2ShardLoop shardNum order = some cs := by
  rw [computeEdges2ShardLoop_eq (h.range.edgesInRange h.graph) horder,
    computeEdges2Shard_graphOf h.graph h.range, ← h.edges, ← h.cross, ← h.least]

theorem CallsInRange.move (h : CallsInRange shardNum cs calls) {m : Vertex × ℤ}
    (hm : cs.MoveInRange shardNum m) :
    CallsInRange shardNum { cs with partitionMap := cs.partitionMap.insert m.1 m.2 } calls := by
  intro e he
  rw [shardOf_insert, shardOf_insert]
  constructor
  · split_ifs
    · exact hm.1
    · exact (h e he).1
  · split_ifs
    · exact hm.1
    · exact (h e he).2

/-- The counts without the minimum are those of the calls. -/
structure EdgesTallied (shardNum : ℕ) (calls : List (Vertex × Vertex)) (cs : CLPAState) :
    Prop where
  graph : cs.netGraph = graphOf calls
  range : CallsInRange shardNum cs calls
  edges : cs.edges2Shard = slice shardNum fun k => (calls.countP (cs.touches k) : ℤ)
  cross : cs.crossShardEdgeNum = calls.countP cs.crosses

theorem EdgesCounted.tallied (h : EdgesCounted shardNum calls cs) :
    EdgesTallied shardNum calls cs :=
  ⟨h.graph, h.range, h.edges, h.cross⟩

/-- The loop of `changeShardRecompute` ends with the counts of the new partition. -/
theorem EdgesTallied.recompute_loop (h : EdgesTallied shardNum calls cs) {m : Vertex × ℤ}
    (hself : (m.1, m.1) ∉ calls) (hm : cs.MoveInRange shardNum m) {moved : CLPAState}
    (hmoved : moved = { cs with partitionMap := cs.partitionMap.insert m.1 m.2 }) :
    (moved.netGraph.edges m.1).foldlM (moved.recomputeNeighbor m.2 (cs.shardOf m.1))
      (moved.edges2Shard, moved.crossShardEdgeNum) =
        some (slice shardNum fun k => (calls.countP (moved.touches k) : ℤ),
          (calls.countP moved.crosses : ℤ)) := by
  have hgraph : moved.netGraph.edges m.1 = calls.flatMap (ends m.1) := by
    rw [hmoved]
    show cs.netGraph.edges m.1 = _
    rw [h.graph, edges_graphOf]
  -- a vertex with a neighbour is an end of a call, so the shard it leaves exists
  have hold : ∀ u ∈ calls.flatMap (ends m.1),
      0 ≤ cs.shardOf m.1 ∧ cs.shardOf m.1 < shardNum := by
    intro u hu
    obtain ⟨e, he, hmem⟩ := List.mem_flatMap.mp hu
    obtain ⟨h1, -⟩ | ⟨h2, -⟩ := mem_ends hmem
    · exact h1 ▸ (h.range e he).1
    · exact h2 ▸ (h.range e he).2
  have hstart : (moved.edges2Shard, moved.crossShardEdgeNum) =
      (slice shardNum (calls.map fun e => pairCount (cs.shardOf e.1) (cs.shardOf e.2)).sum.1,
        (calls.map fun e => pairCount (cs.shardOf e.1) (cs.shardOf e.2)).sum.2) := by
    rw [sum_pairCount, hmoved]
    show (cs.edges2Shard, cs.crossShardEdgeNum) = _
    rw [h.edges, h.cross]
  have hloop := foldlM_add (fun c : (ℤ → ℤ) × ℤ => (slice shardNum c.1, c.2))
    (fun u => pairCount m.2 (moved.shardOf u) - pairCount (cs.shardOf m.1) (moved.shardOf u))
    (fun c u hu => recomputeNeighbor_counters hm.2 hm.1 (hold u hu) c)
    (calls.map fun e => pairCount (cs.shardOf e.1) (cs.shardOf e.2)).sum
  rw [hgraph, hstart, hloop, ← sum_pairCount_move hself m.2 hmoved, sum_pairCount]

/-- `changeShardRecompute` starts its minimum above every count, as `ComputeEdges2Shard` does. -/
theorem minimum_counts (hfew : calls.length < 0x7fffffff) (hshards : 1 ≤ shardNum) :
    CLPAState.minimum 0x7ffffffff (slice shardNum fun k => (calls.countP (cs.touches k) : ℤ)) =
      CLPAState.minimum 0x7fffffff
        (slice shardNum fun k => (calls.countP (cs.touches k) : ℤ)) := by
  have hfirst : (calls.countP (cs.touches 0) : ℤ) < 0x7fffffff := by
    have hle := List.countP_le_length (l := calls) (p := cs.touches 0)
    omega
  obtain ⟨n, rfl⟩ : ∃ n, shardNum = n + 1 := ⟨shardNum - 1, by omega⟩
  rw [slice, List.range_succ_eq_map, List.map_cons]
  show CLPAState.minimum _ ((calls.countP (cs.touches 0) : ℤ) :: _) =
    CLPAState.minimum _ ((calls.countP (cs.touches 0) : ℤ) :: _)
  rw [minimum_of_lt (by omega), minimum_of_lt hfirst]

/-- **The counts follow a move** of a vertex that is not its own neighbour. -/
theorem EdgesTallied.move (h : EdgesTallied shardNum calls cs) {m : Vertex × ℤ}
    (hself : (m.1, m.1) ∉ calls) (hm : cs.MoveInRange shardNum m) :
    ∃ cs', cs.moveAndRecompute m = some cs' ∧ EdgesTallied shardNum calls cs' ∧
      cs'.minEdges2Shard = CLPAState.minimum 0x7ffffffff cs'.edges2Shard := by
  set moved : CLPAState := { cs with partitionMap := cs.partitionMap.insert m.1 m.2 } with hmoved
  have hshard : moved.shardOf m.1 = m.2 := by rw [hmoved, shardOf_insert, if_pos rfl]
  have hloop := h.recompute_loop hself hm hmoved
  have hstep : cs.moveAndRecompute m = some { moved with
      edges2Shard := slice shardNum fun k => (calls.countP (moved.touches k) : ℤ)
      crossShardEdgeNum := calls.countP moved.crosses
      minEdges2Shard := CLPAState.minimum 0x7ffffffff
        (slice shardNum fun k => (calls.countP (moved.touches k) : ℤ)) } := by
    rw [CLPAState.moveAndRecompute, ← hmoved, CLPAState.changeShardRecompute, hshard, hloop]
    rfl
  exact ⟨_, hstep, ⟨h.graph, h.range.move hm, rfl, rfl⟩, rfl⟩

/-- **One move.** -/
theorem EdgesCounted.move (h : EdgesCounted shardNum calls cs)
    (hdistinct : ∀ e ∈ calls, e.1 ≠ e.2) (hfew : calls.length < 0x7fffffff)
    (hshards : 1 ≤ shardNum) {m : Vertex × ℤ} (hm : cs.MoveInRange shardNum m) :
    ∃ cs', cs.moveAndRecompute m = some cs' ∧ EdgesCounted shardNum calls cs' := by
  obtain ⟨cs', hstep, htallied, hleast⟩ :=
    h.tallied.move (fun hmem => hdistinct _ hmem rfl) hm
  refine ⟨cs', hstep, htallied.graph, htallied.range, htallied.edges, htallied.cross, ?_⟩
  rw [hleast, htallied.edges, minimum_counts hfew hshards]

/-- A state that `ComputeEdges2Shard` produces from the graph of the calls. -/
def JustComputed (shardNum : ℕ) (calls : List (Vertex × Vertex)) (cs : CLPAState) : Prop :=
  ∃ cs₀ order, cs₀.netGraph = graphOf calls ∧ CallsInRange shardNum cs₀ calls ∧
    Iterates cs₀.netGraph.edgeSet order ∧ cs₀.computeEdges2ShardLoop shardNum order = some cs

theorem JustComputed.edgesCounted (h : JustComputed shardNum calls cs) :
    EdgesCounted shardNum calls cs := by
  obtain ⟨cs₀, order, hgraph, hrange, horder, hcs⟩ := h
  rw [computeEdges2ShardLoop_eq (hrange.edgesInRange hgraph) horder,
    computeEdges2Shard_graphOf hgraph hrange] at hcs
  obtain rfl := Option.some.inj hcs
  exact ⟨hgraph, hrange, rfl, rfl, rfl⟩

/-- **Incremental bookkeeping is recomputation.**  After every sequence of moves, computing the
counts from scratch changes nothing, and the next move goes through. -/
theorem recompute_eq_compute (hdistinct : ∀ e ∈ calls, e.1 ≠ e.2)
    (hfew : calls.length < 2 ^ 31 - 1) (hshards : 1 ≤ shardNum)
    (hreach : Reach CLPAState.moveAndRecompute (CLPAState.MoveInRange shardNum)
      (JustComputed shardNum calls) cs) :
    (∀ order, Iterates cs.netGraph.edgeSet order →
      cs.computeEdges2ShardLoop shardNum order = some cs) ∧
    ∀ m, cs.MoveInRange shardNum m → (cs.moveAndRecompute m).isSome := by
  have hcounted : EdgesCounted shardNum calls cs := by
    refine hreach.invariant (fun s hs => hs.edgesCounted) ?_
    intro s s' m _ hs hm hstep
    obtain ⟨s'', hs'', hcounted⟩ := hs.move hdistinct (by omega) hshards hm
    rw [hs''] at hstep
    exact Option.some.inj hstep ▸ hcounted
  constructor
  · exact fun order horder => hcounted.compute horder
  · intro m hm
    obtain ⟨cs', hcs', -⟩ := hcounted.move hdistinct (by omega) hshards hm
    rw [hcs']
    rfl

end Moves

/-- The three calls between different vertices. -/
def movedState : CLPAState := { smallState with netGraph := graphOf (smallCalls.take 3) }

/-- "00" goes to shard 1, and "02" after it. -/
theorem recompute_eq_compute_small :
    ∃ cs : CLPAState, cs.edges2Shard = [0, 3] ∧
      ((∀ order, Iterates cs.netGraph.edgeSet order →
        cs.computeEdges2ShardLoop 2 order = some cs) ∧
      ∀ m, cs.MoveInRange 2 m → (cs.moveAndRecompute m).isSome) := by
  have hstart : Reach CLPAState.moveAndRecompute (CLPAState.MoveInRange 2)
      (JustComputed 2 (smallCalls.take 3))
      ((movedState.computeEdges2ShardLoop 2 ["02", "00", "01"]).get (by decide +kernel)) :=
    .start ⟨movedState, ["02", "00", "01"], rfl, by decide +kernel, by decide +kernel,
      (Option.some_get _).symm⟩
  obtain ⟨cs, hreach, hedges⟩ := exists_reach_of_run [("00", 1), ("02", 1)]
    (fun cs => cs.edges2Shard = [0, 3]) hstart (by decide +kernel)
  exact ⟨cs, hedges, recompute_eq_compute (by decide) (by decide) (by decide) hreach⟩

end Aster.Clpa
