import Aster.Clpa.Algorithm
import Aster.Lib.Transition

/-!
# The populations of the shards

`VertexsNumInShard` is counted up by `AddVertex`, made anew by `Init_Partition` and
`Stable_Init_Partition`, and moved between shards by `CLPA_Partition`, which takes no vertex out of
a shard that has no other.

* `Populated` says that the counters are the numbers of vertices of the shards, and every call
  keeps it;
* `placeLoop_spec` is about the loop of both initial partitions: a vertex gets the shard of its
  position;
* `Populated.clpaPartition`: a shard that is not empty stays so.

The loops over `VertexSet` take the vertices in the order that a call is given.
`ComputeEdges2Shard` is written without an order, as in `CLPA_Partition`.
-/

namespace Aster.Clpa

open Aster.Core Aster.Chain Aster.Lib.Containers Aster.Lib.Transition

/-! ### The initial partitions -/

/-- `strconv.ParseInt(s, 16, 64)` on at most 15 characters. -/
def parseInt (s : List Char) : Option ℤ :=
  if s.head? = some '-' then (parseUint s.tail).map fun num => -(num : ℤ)
  else if s.head? = some '+' then (parseUint s.tail).map fun num => (num : ℤ)
  else (parseUint s).map fun num => (num : ℤ)

/-- The loop over `VertexSet`, with the vertices that are left in their order and `cnt`, the number
of those before; `shard` is the shard that a vertex gets. -/
def placeLoop (shard : ℕ → Vertex → Option ℤ) :
    ℕ → List Vertex → (Finmap fun _ : Vertex => ℤ) × List ℤ →
      Option ((Finmap fun _ : Vertex => ℤ) × List ℤ)
  | _, [], acc => some acc
  | cnt, v :: order, acc => do
    let k ← shard cnt v
    let num ← modifyAt (· + 1) acc.2 k
    placeLoop shard (cnt + 1) order (acc.1.insert v k, num)

namespace CLPAState

/-- Both partitions start without vertices and end with `ComputeEdges2Shard`. -/
def placeAll (shardNum : ℕ) (cs : CLPAState) (shard : ℕ → Vertex → Option ℤ)
    (order : List Vertex) : Option CLPAState := do
  let (partitionMap, num) ← placeLoop shard 0 order (∅, List.replicate shardNum 0)
  computeEdges2Shard shardNum
    { cs with partitionMap := partitionMap, vertexsNumInShard := num }

/-- The shard by the last eight digits; a shorter address and `ShardNum = 0` are panics. -/
def lastDigitsShard (shardNum : ℕ) (v : Vertex) : Option ℤ :=
  if v.length < 8 then none
  else do
    let num ← parseInt (v.toList.drop (v.length - 8))
    if shardNum = 0 then none else some (num.tmod shardNum)

def initPartition (shardNum : ℕ) (cs : CLPAState) (order : List Vertex) : Option CLPAState :=
  cs.placeAll shardNum (fun _ v => lastDigitsShard shardNum v) order

/-- The shard by the number of vertices before. -/
def positionShard (shardNum : ℕ) (cnt : ℕ) : Option ℤ :=
  if shardNum = 0 then none else some ((cnt : ℤ).tmod shardNum)

def tooManyShards : String := "too many shards, number of shards should be less than nodes. "

/-- `Stable_Init_Partition`, with the error that it returns. -/
def stableInitPartition (shardNum : ℕ) (cs : CLPAState) (order : List Vertex) :
    Option (CLPAState × Option String) :=
  if shardNum > cs.netGraph.vertexSet.card then some (cs, some tooManyShards)
  else do
    let cs ← cs.placeAll shardNum (fun cnt _ => positionShard shardNum cnt) order
    some (cs, none)

/-- The number of vertices of the graph that are in shard `k`. -/
def population (cs : CLPAState) (k : ℤ) : ℕ :=
  (cs.netGraph.vertexSet.filter fun v => cs.partitionMap.lookup v = some k).card

end CLPAState

/-! ### The calls -/

/-- A call, with the orders of its loops and, for `CLPA_Partition`, the scores. -/
inductive PartitionCall (F : Type)
  | addEdge (u v : Vertex)
  | initPartition (order : List Vertex)
  | stableInitPartition (order : List Vertex)
  | clpaPartition (sc : Scores F) (orders : List (List Vertex))

variable {F : Type}

def partitionStep (shardNum : ℕ) (cs : CLPAState) : PartitionCall F → Option CLPAState
  | .addEdge u v => cs.addEdge shardNum (u, v)
  | .initPartition order => cs.initPartition shardNum order
  | .stableInitPartition order => (cs.stableInitPartition shardNum order).map Prod.fst
  | .clpaPartition sc orders => (clpaPartition sc shardNum cs orders).map Prod.fst

/-- A hexadecimal address of at least eight digits. -/
def HexAddress (v : Vertex) : Prop := 8 ≤ v.length ∧ ∀ c ∈ v.toList, (hexVal c).isSome

-- by the digits of the address, not by all characters
instance (v : Vertex) : Decidable (HexAddress v) :=
  @instDecidableAnd _ _ (Nat.decLe 8 v.length)
    (List.decidableBAll (fun c => (hexVal c).isSome) v.toList)

/-- An order in which the vertices can be iterated. -/
def VertexOrder (cs : CLPAState) (order : List Vertex) : Prop :=
  order.Nodup ∧ order.toFinset = cs.netGraph.vertexSet

instance (cs : CLPAState) (order : List Vertex) : Decidable (VertexOrder cs order) :=
  inferInstanceAs (Decidable (_ ∧ _))

/-- The calls that are considered: addresses are hexadecimal and `Addr2Shard` gives a shard for
them, and the orders are orders of `VertexSet`, one for each of `MaxIterations` iterations. -/
def PartitionCall.Ok (shardNum : ℕ) (cs : CLPAState) : PartitionCall F → Prop
  | .addEdge u v => (HexAddress u ∧ InRange shardNum u) ∧ HexAddress v ∧ InRange shardNum v
  | .initPartition order => VertexOrder cs order
  | .stableInitPartition order => VertexOrder cs order
  | .clpaPartition _ orders => ∀ order ∈ orders, VertexOrder cs order

/-- The graph is empty; its map may have shards of vertices that are still to come. -/
structure FreshGraph (shardNum : ℕ) (cs : CLPAState) : Prop where
  graph : cs.netGraph = Graph.empty
  num : cs.vertexsNumInShard = List.replicate shardNum 0
  range : ∀ v k, cs.partitionMap.lookup v = some k → 0 ≤ k ∧ k < shardNum

/-- The counters are the populations. -/
structure Populated (shardNum : ℕ) (cs : CLPAState) : Prop where
  sharded : Sharded shardNum cs
  count : cs.vertexsNumInShard = slice shardNum fun k => (cs.population k : ℤ)
  hex : ∀ v ∈ cs.netGraph.vertexSet, HexAddress v

variable {shardNum : ℕ} {cs cs' : CLPAState} {v : Vertex} {order : List Vertex}

theorem FreshGraph.populated (h : FreshGraph shardNum cs) : Populated shardNum cs where
  sharded := by
    refine ⟨by rw [h.num, List.length_replicate], h.range, ?_, ?_⟩
    · rw [h.graph]
      exact fun v hv => absurd hv (Finset.notMem_empty v)
    · rw [h.graph]
      intro v u hu
      cases hu
  count := by
    have hzero : ∀ k, cs.population k = 0 := by
      intro k
      rw [CLPAState.population, h.graph]
      rfl
    rw [h.num]
    simp [slice, hzero]
  hex := by
    rw [h.graph]
    exact fun v hv => absurd hv (Finset.notMem_empty v)

theorem population_congr (h : SameShards cs cs') (k : ℤ) : cs'.population k = cs.population k := by
  rw [CLPAState.population, h.graph, h.map]
  rfl

theorem Populated.congr (hp : Populated shardNum cs) (h : SameShards cs cs') :
    Populated shardNum cs' := by
  refine ⟨hp.sharded.congr h, ?_, h.graph ▸ hp.hex⟩
  simp only [h.num, population_congr h]
  exact hp.count

/-! ### One vertex -/

/-- A population is the one without `v`, and `v`. -/
theorem population_erase (hv : v ∈ cs.netGraph.vertexSet) (k : ℤ) :
    cs.population k =
      ((cs.netGraph.vertexSet.erase v).filter fun x => cs.partitionMap.lookup x = some k).card +
        if cs.partitionMap.lookup v = some k then 1 else 0 := by
  unfold CLPAState.population
  conv_lhs => rw [← Finset.insert_erase hv, Finset.filter_insert]
  split_ifs with hk
  · rw [Finset.card_insert_of_notMem]
    exact fun hmem => Finset.notMem_erase v _ (Finset.mem_filter.mp hmem).1
  · rw [add_zero]

/-- The other vertices keep their shards. -/
theorem filter_insert_erase (pm : Finmap fun _ : Vertex => ℤ) (s : Finset Vertex) (new k : ℤ) :
    ((s.erase v).filter fun x => (pm.insert v new).lookup x = some k) =
      (s.erase v).filter fun x => pm.lookup x = some k := by
  refine Finset.filter_congr ?_
  intro x hx
  rw [Finmap.lookup_insert_of_ne _ (Finset.ne_of_mem_erase hx)]

theorem population_addVertex (hv : v ∉ cs.netGraph.vertexSet) {shard : ℤ} {num : List ℤ} (k : ℤ) :
    CLPAState.population { cs with
      netGraph := cs.netGraph.addVertex v
      partitionMap := cs.partitionMap.insert v shard
      vertexsNumInShard := num } k = cs.population k + if shard = k then 1 else 0 := by
  rw [population_erase (Finset.mem_insert_self v _)]
  show (((insert v cs.netGraph.vertexSet).erase v).filter fun x =>
      (cs.partitionMap.insert v shard).lookup x = some k).card +
    (if (cs.partitionMap.insert v shard).lookup v = some k then 1 else 0) = _
  rw [filter_insert_erase, Finset.erase_insert hv, Finmap.lookup_insert]
  simp only [Option.some.injEq]
  rfl

theorem population_move (hv : v ∈ cs.netGraph.vertexSet) {old new : ℤ}
    (hold : cs.partitionMap.lookup v = some old)
    (hmap : cs'.partitionMap = cs.partitionMap.insert v new)
    (hgraph : cs'.netGraph = cs.netGraph) (k : ℤ) :
    cs'.population k + (if old = k then 1 else 0) =
      cs.population k + if new = k then 1 else 0 := by
  rw [population_erase (hgraph.symm ▸ hv), population_erase hv, hmap, hgraph, filter_insert_erase,
    Finmap.lookup_insert, hold]
  simp only [Option.some.injEq]
  omega

/-! ### Edges -/

theorem Populated.addVertex (h : Populated shardNum cs) (hv : v ∉ cs.netGraph.vertexSet)
    (hhex : HexAddress v) (hadd : cs.addVertex shardNum v = some cs') :
    Populated shardNum cs' ∧ ∀ k, cs.population k ≤ cs'.population k := by
  have hsharded := h.sharded.addVertex hadd
  obtain ⟨shard, num, -, hnum, rfl⟩ := addVertex_cases hadd
  have hbounds := bounds_of_modifyAt hnum
  rw [h.sharded.num] at hbounds
  rw [h.count, modifyAt_slice _ _ hbounds] at hnum
  obtain rfl := Option.some.inj hnum
  refine ⟨⟨hsharded, ?_, ?_⟩, ?_⟩
  · refine congrArg (slice shardNum) (funext fun k => ?_)
    rw [population_addVertex hv, Function.update_apply, Nat.cast_add]
    split_ifs with h1 h2 h2
    · rw [h1]
      rfl
    · exact absurd h1.symm h2
    · exact absurd h2.symm h1
    · rw [Nat.cast_zero, add_zero]
  · intro x hx
    rcases Finset.mem_insert.mp hx with rfl | hx
    · exact hhex
    · exact h.hex x hx
  · intro k
    rw [population_addVertex hv]
    exact Nat.le_add_right _ _

/-- **`AddEdge`** empties no shard. -/
theorem Populated.addEdge (h : Populated shardNum cs) {e : Vertex × Vertex}
    (hu : HexAddress e.1) (hv : HexAddress e.2) (hadd : cs.addEdge shardNum e = some cs') :
    Populated shardNum cs' ∧ ∀ k, cs.population k ≤ cs'.population k := by
  obtain ⟨cs₂, ⟨h₂, hle⟩, hu₂, hv₂, rfl⟩ := addEdge_cases
    (P := fun cs₂ => Populated shardNum cs₂ ∧ ∀ k, cs.population k ≤ cs₂.population k)
    (fun cs₁ cs₂ v hend hcs hnot hadd => by
      have hhex : HexAddress v := by rcases hend with rfl | rfl <;> assumption
      obtain ⟨h', hle'⟩ := hcs.1.addVertex hnot hhex hadd
      exact ⟨h', fun k => (hcs.2 k).trans (hle' k)⟩)
    ⟨h, fun k => le_rfl⟩ hadd
  have hset := vertexSet_addEdge hu₂ hv₂
  have hpop : ∀ k, CLPAState.population { cs₂ with
      netGraph := cs₂.netGraph.addEdge e.1 e.2 } k = cs₂.population k := by
    intro k
    show ((cs₂.netGraph.addEdge e.1 e.2).vertexSet.filter _).card = _
    rw [hset]
    rfl
  refine ⟨⟨h₂.sharded.edge hu₂ hv₂, ?_, fun x hx => h₂.hex x (hset ▸ hx)⟩, ?_⟩
  · simp only [hpop]
    exact h₂.count
  · intro k
    rw [hpop]
    exact hle k

/-! ### The loop of the initial partitions -/

/-- **The loop**: the vertex at a position gets the shard that is given for it, and the counters
count them. -/
theorem placeLoop_spec {shard : ℕ → Vertex → Option ℤ} (hnodup : order.Nodup)
    {cnt : ℕ} (hshard : ∀ i x, order[i]? = some x →
      ∃ k, shard (cnt + i) x = some k ∧ 0 ≤ k ∧ k < shardNum)
    (pm : Finmap fun _ : Vertex => ℤ) (c : ℤ → ℤ) :
    ∃ pm', placeLoop shard cnt order (pm, slice shardNum c) = some (pm', slice shardNum fun k =>
        c k + order.countP fun x => pm'.lookup x = some k) ∧
      (∀ i x, order[i]? = some x → pm'.lookup x = shard (cnt + i) x) ∧
      ∀ x, x ∉ order → pm'.lookup x = pm.lookup x := by
  induction order generalizing cnt pm c with
  | nil =>
    refine ⟨pm, ?_, fun i x hi => absurd hi (by simp), fun x _ => rfl⟩
    simp [placeLoop]
  | cons v order ih =>
    obtain ⟨hv, hnodup⟩ := List.nodup_cons.mp hnodup
    obtain ⟨k, hk, hbounds⟩ := hshard 0 v rfl
    have hrest : ∀ i x, order[i]? = some x →
        ∃ k, shard (cnt + 1 + i) x = some k ∧ 0 ≤ k ∧ k < shardNum := by
      intro i x hi
      rw [Nat.add_assoc, Nat.add_comm 1 i]
      exact hshard (i + 1) x hi
    obtain ⟨pm', hloop, hplaced, hother⟩ :=
      ih hnodup hrest (pm.insert v k) (Function.update c k (c k + 1))
    have hself : pm'.lookup v = some k := by
      rw [hother v hv, Finmap.lookup_insert]
    refine ⟨pm', ?_, ?_, ?_⟩
    · rw [placeLoop, show shard cnt v = some k from hk]
      show (modifyAt (· + 1) (slice shardNum c) k).bind _ = _
      rw [modifyAt_slice _ _ hbounds, Option.bind_some, hloop]
      congr 3
      funext j
      rw [List.countP_cons, hself]
      by_cases hj : j = k
      · subst hj
        simp
        ring
      · simp [Function.update_of_ne hj, Ne.symm hj]
    · intro i x hi
      cases i with
      | zero =>
        cases hi
        exact hself.trans hk.symm
      | succ i =>
        rw [hplaced i x hi, Nat.add_assoc, Nat.add_comm 1 i]
    · intro x hx
      obtain ⟨hne, hx⟩ := not_or.mp (List.mem_cons.not.mp hx)
      rw [hother x hx, Finmap.lookup_insert_of_ne _ hne]

/-- **An initial partition** ends when every vertex gets a shard. -/
theorem Populated.placeAll (h : Populated shardNum cs) {shard : ℕ → Vertex → Option ℤ}
    (horder : VertexOrder cs order)
    (hshard : ∀ i x, order[i]? = some x → ∃ k, shard i x = some k ∧ 0 ≤ k ∧ k < shardNum) :
    ∃ cs', cs.placeAll shardNum shard order = some cs' ∧ Populated shardNum cs' ∧
      cs'.netGraph = cs.netGraph ∧
      ∀ i x, order[i]? = some x → cs'.partitionMap.lookup x = shard i x := by
  have hzero : List.replicate shardNum (0 : ℤ) = slice shardNum 0 := by simp [slice]
  have hshard₀ : ∀ i x, order[i]? = some x →
      ∃ k, shard (0 + i) x = some k ∧ 0 ≤ k ∧ k < shardNum := by
    intro i x hi
    rw [Nat.zero_add]
    exact hshard i x hi
  obtain ⟨pm, hloop, hplaced, hother⟩ := placeLoop_spec horder.1 hshard₀ ∅ 0
  simp only [Pi.zero_apply, zero_add] at hloop hplaced
  set placed : CLPAState := { cs with
    partitionMap := pm
    vertexsNumInShard := slice shardNum fun k =>
      ((order.countP fun x => pm.lookup x = some k : ℕ) : ℤ) } with hdef
  have hpop : ∀ k, placed.population k = order.countP fun x => pm.lookup x = some k := by
    intro k
    show (cs.netGraph.vertexSet.filter fun x => pm.lookup x = some k).card = _
    rw [← horder.2, List.countP_eq_length_filter,
      ← List.toFinset_card_of_nodup (horder.1.filter _), List.toFinset_filter]
    simp only [decide_eq_true_eq]
  have hsharded : Sharded shardNum placed := by
    refine ⟨?_, ?_, ?_, h.sharded.edges⟩
    · exact length_slice shardNum fun k => ((order.countP fun x => pm.lookup x = some k : ℕ) : ℤ)
    · intro x k hx
      by_cases hmem : x ∈ order
      · obtain ⟨i, hi⟩ := List.mem_iff_getElem?.mp hmem
        obtain ⟨j, hj, hbounds⟩ := hshard i x hi
        have hk : some k = some j := hx.symm.trans ((hplaced i x hi).trans hj)
        cases hk
        exact hbounds
      · have hnone : some k = none := hx.symm.trans (hother x hmem)
        cases hnone
    · intro x hx
      have hmem : x ∈ order := List.mem_toFinset.mp (horder.2.symm ▸ hx)
      obtain ⟨i, hi⟩ := List.mem_iff_getElem?.mp hmem
      obtain ⟨j, hj, -⟩ := hshard i x hi
      exact Finmap.mem_iff.mpr ⟨j, (hplaced i x hi).trans hj⟩
  have hpopulated : Populated shardNum placed := by
    refine ⟨hsharded, ?_, h.hex⟩
    simp only [hpop]
    rfl
  obtain ⟨cs', hcs'⟩ := Option.isSome_iff_exists.mp hsharded.computeEdges2Shard_isSome
  have hsame := (computeEdges2Shard_cases hcs').1
  refine ⟨cs', ?_, hpopulated.congr hsame, hsame.graph, ?_⟩
  · rw [CLPAState.placeAll, hzero, hloop]
    exact hcs'
  · rw [hsame.map]
    exact hplaced

/-! ### Both initial partitions -/

theorem parseUint_isSome {s : List Char} (hs : s ≠ []) (hhex : ∀ c ∈ s, (hexVal c).isSome) :
    (parseUint s).isSome := by
  rw [parseUint, if_neg hs]
  obtain ⟨num, hnum, -⟩ := foldlM_some (P := fun _ : ℕ => True)
    (f := fun num c => (hexVal c).map (num * 16 + ·)) (l := s) (fun num _ c hc => by
      obtain ⟨val, hval⟩ := Option.isSome_iff_exists.mp (hhex c hc)
      exact ⟨num * 16 + val, by rw [hval]; rfl, trivial⟩) (s := 0) trivial
  rw [hnum]
  rfl

/-- A hexadecimal number has no sign. -/
theorem parseInt_hex {s : List Char} (hs : s ≠ []) (hhex : ∀ c ∈ s, (hexVal c).isSome) :
    ∃ num : ℕ, parseInt s = some (num : ℤ) := by
  obtain ⟨num, hnum⟩ := Option.isSome_iff_exists.mp (parseUint_isSome hs hhex)
  have hhead : ∀ c, s.head? = some c → (hexVal c).isSome :=
    fun c hc => hhex c (List.mem_of_head? hc)
  have hminus : s.head? ≠ some '-' := fun h => absurd (hhead _ h) (by decide)
  have hplus : s.head? ≠ some '+' := fun h => absurd (hhead _ h) (by decide)
  refine ⟨num, ?_⟩
  rw [parseInt, if_neg hminus, if_neg hplus, hnum]
  rfl

theorem tmod_bounds (hsn : 1 ≤ shardNum) (num : ℕ) :
    0 ≤ (num : ℤ).tmod shardNum ∧ (num : ℤ).tmod shardNum < shardNum :=
  ⟨Int.tmod_nonneg _ (by omega), Int.tmod_lt_of_pos _ (by omega)⟩

theorem lastDigitsShard_spec (hsn : 1 ≤ shardNum) (hv : HexAddress v) :
    ∃ k, CLPAState.lastDigitsShard shardNum v = some k ∧ 0 ≤ k ∧ k < shardNum := by
  have hdigits : v.toList.drop (v.length - 8) ≠ [] := by
    have hlen := hv.1
    rw [← List.length_pos_iff, List.length_drop, String.length_toList]
    omega
  obtain ⟨num, hnum⟩ := parseInt_hex hdigits fun c hc => hv.2 c (List.mem_of_mem_drop hc)
  refine ⟨(num : ℤ).tmod shardNum, ?_, tmod_bounds hsn num⟩
  rw [CLPAState.lastDigitsShard, if_neg (by have hlen := hv.1; omega), hnum]
  show (if shardNum = 0 then none else _) = _
  rw [if_neg (by omega)]

theorem VertexOrder.mem (horder : VertexOrder cs order) {i : ℕ} (hi : order[i]? = some v) :
    v ∈ cs.netGraph.vertexSet :=
  horder.2 ▸ List.mem_toFinset.mpr (List.mem_of_getElem? hi)

theorem Populated.initPartition (hsn : 1 ≤ shardNum) (h : Populated shardNum cs)
    (horder : VertexOrder cs order) :
    ∃ cs', cs.initPartition shardNum order = some cs' ∧ Populated shardNum cs' := by
  obtain ⟨cs', hcs', hpopulated, -⟩ := h.placeAll horder fun i x hi =>
    lastDigitsShard_spec hsn (h.hex x (horder.mem hi))
  exact ⟨cs', hcs', hpopulated⟩

/-- **`Stable_Init_Partition`** fails and changes nothing, or leaves no shard empty. -/
theorem Populated.stableInitPartition (hsn : 1 ≤ shardNum) (h : Populated shardNum cs)
    (horder : VertexOrder cs order) :
    cs.stableInitPartition shardNum order = some (cs, some CLPAState.tooManyShards) ∨
    ∃ cs', cs.stableInitPartition shardNum order = some (cs', none) ∧ Populated shardNum cs' ∧
      ∀ k : ℕ, k < shardNum → 0 < cs'.population k := by
  unfold CLPAState.stableInitPartition
  split_ifs with hmany
  · exact .inl rfl
  · right
    have hshard : ∀ (i : ℕ) x, order[i]? = some x →
        ∃ k, CLPAState.positionShard shardNum i = some k ∧ 0 ≤ k ∧ k < shardNum := by
      intro i x _
      exact ⟨(i : ℤ).tmod shardNum, if_neg (by omega), tmod_bounds hsn i⟩
    obtain ⟨cs', hcs', hpopulated, hgraph, hplaced⟩ := h.placeAll horder hshard
    refine ⟨cs', ?_, hpopulated, ?_⟩
    · rw [hcs']
      rfl
    · -- the vertex at position `k` is in shard `k`
      intro k hk
      have hlen : k < order.length := by
        rw [← List.toFinset_card_of_nodup horder.1, horder.2]
        omega
      have hget : order[k]? = some (order.get ⟨k, hlen⟩) := List.getElem?_eq_getElem hlen
      have hmod : (k : ℤ).tmod shardNum = k := Int.tmod_eq_of_lt (by omega) (by omega)
      refine Finset.card_pos.mpr ⟨order.get ⟨k, hlen⟩, Finset.mem_filter.mpr ⟨?_, ?_⟩⟩
      · rw [hgraph]
        exact horder.mem hget
      · rw [hplaced k _ hget, CLPAState.positionShard, if_neg (by omega), hmod]

/-! ### `CLPA_Partition` -/

/-- During `CLPA_Partition`: the counters are right, and no shard of `cs` has become empty. -/
structure Repopulated (shardNum : ℕ) (cs : CLPAState) (p : Partitioning) : Prop where
  populated : Populated shardNum p.cs
  size : p.cs.edges2Shard.length = shardNum
  graph : p.cs.netGraph = cs.netGraph
  nonempty : ∀ k, 0 < cs.population k → 0 < p.cs.population k

/-- The counters follow a vertex that moves. -/
theorem Populated.move (h : Populated shardNum cs) (hv : v ∈ cs.netGraph.vertexSet) {new : ℤ}
    (hnew : 0 ≤ new ∧ new < shardNum) {num₁ num₂ : List ℤ}
    (hnum₁ : modifyAt (· - 1) cs.vertexsNumInShard (cs.shardOf v) = some num₁)
    (hnum₂ : modifyAt (· + 1) num₁ new = some num₂)
    (hsame : SameShards { cs with
      partitionMap := cs.partitionMap.insert v new
      vertexsNumInShard := num₂ } cs') :
    Populated shardNum cs' ∧ ∀ k, cs'.population k + (if cs.shardOf v = k then 1 else 0) =
      cs.population k + if new = k then 1 else 0 := by
  have hold := h.sharded.shardOf hv
  have hlookup : cs.partitionMap.lookup v = some (cs.shardOf v) := by
    obtain ⟨k, hk⟩ := Finmap.mem_iff.mp (h.sharded.vertices v hv)
    rw [CLPAState.shardOf, hk]
    rfl
  have hpop := population_move hv hlookup hsame.map hsame.graph
  have hlen : num₂.length = shardNum :=
    (length_of_modifyAt hnum₂).trans ((length_of_modifyAt hnum₁).trans h.sharded.num)
  refine ⟨⟨(h.sharded.move hnew hlen).congr hsame, ?_, hsame.graph ▸ h.hex⟩, hpop⟩
  rw [h.count, modifyAt_slice _ _ hold] at hnum₁
  obtain rfl := Option.some.inj hnum₁
  rw [modifyAt_slice _ _ hnew] at hnum₂
  obtain rfl := Option.some.inj hnum₂
  refine hsame.num.trans (congrArg (slice shardNum) (funext fun k => ?_))
  have hk := hpop k
  simp only [Function.update_apply]
  split_ifs at hk ⊢ <;> grind

/-- A round takes no vertex out of a shard that has no other. -/
theorem Repopulated.visit {p : Partitioning} (sc : Scores F) (h : Repopulated shardNum cs p)
    (hv : v ∈ cs.netGraph.vertexSet) :
    ∃ p', visit sc p v = some p' ∧ Repopulated shardNum cs p' := by
  have hv' : v ∈ p.cs.netGraph.vertexSet := h.graph ▸ hv
  have hs := h.populated.sharded
  rcases visit_spec sc hs h.size hv' with hstay | ⟨new, n, hnew, -, hn, hmore, hvisit⟩
  · exact ⟨p, hstay, h⟩
  · obtain ⟨num₁, num₂, edges2Shard, cross, least, hnum₁, hnum₂, hlen, hmove⟩ :=
      moveVertex_spec hs h.size hv' hnew
    have hsame : SameShards
        { p.cs with
          partitionMap := p.cs.partitionMap.insert v new
          vertexsNumInShard := num₂ }
        { p.cs with
          partitionMap := p.cs.partitionMap.insert v new
          vertexsNumInShard := num₂
          edges2Shard := edges2Shard
          crossShardEdgeNum := cross
          minEdges2Shard := least } := ⟨rfl, rfl, rfl⟩
    obtain ⟨hpopulated, hpop⟩ := h.populated.move hv' hnew hnum₁ hnum₂ hsame
    refine ⟨_, hvisit.trans hmove, hpopulated, hlen, h.graph, ?_⟩
    have hmany : 1 < p.cs.population (p.cs.shardOf v) := by
      rw [h.populated.count, index?_slice _ (hs.shardOf hv')] at hn
      have hn' := Option.some.inj hn
      omega
    intro k hk
    have hbefore := h.nonempty k hk
    refine Nat.lt_of_lt_of_eq ?_ (Nat.eq_sub_of_add_eq (hpop k)).symm
    by_cases hk : p.cs.shardOf v = k
    · subst hk
      rw [if_pos rfl]
      omega
    · rw [if_neg hk]
      omega

/-- **`CLPA_Partition`** ends and empties no shard. -/
theorem Populated.clpaPartition (sc : Scores F) (h : Populated shardNum cs)
    {orders : List (List Vertex)} (horders : ∀ order ∈ orders, VertexOrder cs order) :
    ∃ cs' res, clpaPartition sc shardNum cs orders = some (cs', res) ∧ Populated shardNum cs' ∧
      ∀ k, 0 < cs.population k → 0 < cs'.population k := by
  have hstart : ∀ cs₁, SameShards cs cs₁ → cs₁.edges2Shard.length = shardNum →
      Repopulated shardNum cs ⟨cs₁, ∅, ∅⟩ := by
    intro cs₁ hsame hsize
    refine ⟨h.congr hsame, hsize, hsame.graph, ?_⟩
    intro k hk
    show 0 < cs₁.population k
    rw [population_congr hsame]
    exact hk
  have hround : ∀ p, Repopulated shardNum cs p → ∀ v ∈ orders.flatten,
      ∃ p', Clpa.visit sc p v = some p' ∧ Repopulated shardNum cs p' := by
    intro p hp v hv
    obtain ⟨order, horder, hv⟩ := List.mem_flatten.mp hv
    exact hp.visit sc ((horders order horder).2 ▸ List.mem_toFinset.mpr hv)
  obtain ⟨cs', p, hrun, hp, hsame⟩ :=
    clpaPartition_invariant sc h.sharded hstart hround fun p hp => hp.populated.sharded
  refine ⟨cs', p.res, hrun, hp.populated.congr hsame, ?_⟩
  intro k hk
  rw [population_congr hsame]
  exact hp.nonempty k hk

/-! ### Sequences of calls -/

/-- **Every call returns and keeps the counters.** -/
theorem Populated.step (hsn : 1 ≤ shardNum) (h : Populated shardNum cs) {call : PartitionCall F}
    (hok : call.Ok shardNum cs) :
    ∃ cs', partitionStep shardNum cs call = some cs' ∧ Populated shardNum cs' := by
  cases call with
  | addEdge u v =>
    obtain ⟨⟨hu, hu'⟩, hv, hv'⟩ := hok
    obtain ⟨cs', hcs'⟩ := Option.isSome_iff_exists.mp
      (addEdge_isSome h.sharded (e := (u, v)) hu' hv')
    exact ⟨cs', hcs', (h.addEdge (e := (u, v)) hu hv hcs').1⟩
  | initPartition order => exact h.initPartition hsn hok
  | stableInitPartition order =>
    rcases h.stableInitPartition hsn hok with herr | ⟨cs', hcs', hpopulated, -⟩
    · exact ⟨cs, congrArg (Option.map Prod.fst) herr, h⟩
    · exact ⟨cs', congrArg (Option.map Prod.fst) hcs', hpopulated⟩
  | clpaPartition sc orders =>
    obtain ⟨cs', res, hrun, hpopulated, -⟩ := h.clpaPartition sc hok
    exact ⟨cs', congrArg (Option.map Prod.fst) hrun, hpopulated⟩

/-- The calls after an initial partition. -/
def PartitionCall.Later : PartitionCall F → Prop
  | .addEdge _ _ => True
  | .initPartition _ => False
  | .stableInitPartition _ => False
  | .clpaPartition _ _ => True

/-- `AddEdge` and `CLPA_Partition` empty no shard. -/
theorem Populated.later (h : Populated shardNum cs) {call : PartitionCall F}
    (hok : call.Ok shardNum cs) (hlater : call.Later)
    (hstep : partitionStep shardNum cs call = some cs') :
    Populated shardNum cs' ∧ ∀ k, 0 < cs.population k → 0 < cs'.population k := by
  cases call with
  | addEdge u v =>
    obtain ⟨⟨hu, -⟩, hv, -⟩ := hok
    obtain ⟨h', hle⟩ := h.addEdge (e := (u, v)) hu hv hstep
    exact ⟨h', fun k hk => hk.trans_le (hle k)⟩
  | initPartition order => cases hlater
  | stableInitPartition order => cases hlater
  | clpaPartition sc orders =>
    obtain ⟨cs₁, res, hrun, hpopulated, hkeep⟩ := h.clpaPartition sc hok
    have heq : some cs₁ = some cs' := (congrArg (Option.map Prod.fst) hrun).symm.trans hstep
    cases heq
    exact ⟨hpopulated, hkeep⟩

/-- **Shard populations.**  In every state that calls of `AddEdge`, `Init_Partition`,
`Stable_Init_Partition` and `CLPA_Partition` lead to, the counters are the numbers of vertices of
the shards, and the next call returns.  `CLPA_Partition` empties no shard; after a successful
`Stable_Init_Partition` no shard is empty, and none becomes so by `AddEdge` and
`CLPA_Partition`. -/
theorem shard_populations (hsn : 1 ≤ shardNum)
    (hreach : Reach (partitionStep (F := F) shardNum) (fun cs call => call.Ok shardNum cs)
      (FreshGraph shardNum) cs) :
    (cs.vertexsNumInShard.length = shardNum ∧
      ∀ k : ℕ, k < shardNum → cs.vertexsNumInShard[k]? = some (cs.population k : ℤ)) ∧
    (∀ call : PartitionCall F, call.Ok shardNum cs → (partitionStep shardNum cs call).isSome) ∧
    (∀ (sc : Scores F) orders cs' res, (∀ order ∈ orders, VertexOrder cs order) →
      clpaPartition sc shardNum cs orders = some (cs', res) →
      ∀ k, 0 < cs.population k → 0 < cs'.population k) ∧
    ∀ order cs₁ cs₂, VertexOrder cs order →
      cs.stableInitPartition shardNum order = some (cs₁, none) →
      Reach (partitionStep (F := F) shardNum)
        (fun cs call => call.Ok shardNum cs ∧ call.Later) (· = cs₁) cs₂ →
      ∀ k : ℕ, k < shardNum → 0 < cs₂.population k := by
  have hpopulated : Populated shardNum cs := by
    refine hreach.invariant (fun s hs => hs.populated) ?_
    intro s s' call _ hs hok hstep
    obtain ⟨s'', hs'', hpopulated⟩ := hs.step hsn hok
    exact Option.some.inj (hs''.symm.trans hstep) ▸ hpopulated
  refine ⟨⟨hpopulated.sharded.num, ?_⟩, ?_, ?_, ?_⟩
  · intro k hk
    rw [hpopulated.count]
    exact getElem?_slice (fun k => (cs.population k : ℤ)) hk
  · intro call hok
    obtain ⟨cs', hcs', -⟩ := hpopulated.step hsn hok
    rw [hcs']
    rfl
  · intro sc orders cs' res horders hrun
    obtain ⟨cs₁, res₁, hrun₁, -, hkeep⟩ := hpopulated.clpaPartition sc horders
    cases hrun₁.symm.trans hrun
    exact hkeep
  · intro order cs₁ cs₂ horder hstable hlater
    have hstart : Populated shardNum cs₁ ∧ ∀ k : ℕ, k < shardNum → 0 < cs₁.population k := by
      rcases hpopulated.stableInitPartition hsn horder with herr | ⟨cs', hcs', h', hpos⟩
      · cases herr.symm.trans hstable
      · cases hcs'.symm.trans hstable
        exact ⟨h', hpos⟩
    have hend : Populated shardNum cs₂ ∧ ∀ k : ℕ, k < shardNum → 0 < cs₂.population k := by
      induction hlater with
      | start heq =>
        subst heq
        exact hstart
      | next _ hok hstep ih =>
        obtain ⟨h', hkeep⟩ := ih.1.later hok.1 hok.2 hstep
        exact ⟨h', fun k hk => hkeep k (ih.2 k hk)⟩
    exact hend.2

/-- An edge between two accounts of different shards. -/
theorem shard_populations_edge :
    ∃ cs : CLPAState, cs.netGraph.vertexSet = {"00000000", "00000001"} ∧
      (cs.vertexsNumInShard.length = 2 ∧
        ∀ k : ℕ, k < 2 → cs.vertexsNumInShard[k]? = some (cs.population k : ℤ)) ∧
      (∀ call : PartitionCall Bool, call.Ok 2 cs → (partitionStep 2 cs call).isSome) ∧
      (∀ (sc : Scores Bool) orders cs' res, (∀ order ∈ orders, VertexOrder cs order) →
        clpaPartition sc 2 cs orders = some (cs', res) →
        ∀ k, 0 < cs.population k → 0 < cs'.population k) ∧
      ∀ order cs₁ cs₂, VertexOrder cs order →
        cs.stableInitPartition 2 order = some (cs₁, none) →
        Reach (partitionStep (F := Bool) 2)
          (fun cs call => call.Ok 2 cs ∧ call.Later) (· = cs₁) cs₂ →
        ∀ k : ℕ, k < 2 → 0 < cs₂.population k := by
  have hstart : Reach (partitionStep (F := Bool) 2) (fun cs call => call.Ok 2 cs) (FreshGraph 2)
      (initCLPAState 2) := by
    refine .start ⟨rfl, rfl, ?_⟩
    intro v k hk
    cases hk
  have hu : HexAddress "00000000" ∧ InRange 2 "00000000" :=
    ⟨by decide +kernel, 0, by decide +kernel, by decide, by decide⟩
  have hv : HexAddress "00000001" ∧ InRange 2 "00000001" :=
    ⟨by decide +kernel, 1, by decide +kernel, by decide, by decide⟩
  have hok : (PartitionCall.addEdge (F := Bool) "00000000" "00000001").Ok 2 (initCLPAState 2) :=
    ⟨hu, hv⟩
  have hstep : partitionStep 2 (initCLPAState 2)
      (PartitionCall.addEdge (F := Bool) "00000000" "00000001") =
      some ((partitionStep 2 (initCLPAState 2)
        (PartitionCall.addEdge (F := Bool) "00000000" "00000001")).get (by decide +kernel)) :=
    (Option.some_get _).symm
  exact ⟨_, by decide +kernel, shard_populations (by decide) (.next hstart hok hstep)⟩

end Aster.Clpa
