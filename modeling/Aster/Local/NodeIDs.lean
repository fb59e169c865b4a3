import Aster.Local.VirtualNodes

/-!
# Node ids with underscores

`getRawNodeKey` joins a node id and a replica index with an underscore.  `getNodeID` cuts a node
key at its last underscore and gives the id back, whatever it is.  `GetNode` returns the part
before the first one, which is the id only when the id has no underscore; and `Rem` deletes the
data keys recorded under the node key, as if it were a node id.

**`node_ids_opaque`** says for which ids this does no harm.
-/

namespace Aster.Local

open Aster.Lib Aster.Lib.CyclicOrder

theorem splitHead_getRawNodeKey (x : String) (i : ℕ) :
    splitHead (getRawNodeKey x i) = x ↔ '_' ∉ x.toList := by
  have hkey : (getRawNodeKey x i).toList = x.toList ++ '_' :: (toString i).toList := by
    rw [getRawNodeKey, String.toList_append, String.toList_append]
    simp
  rw [splitHead, hkey]
  constructor
  · intro he hmem
    rw [← he, String.toList_ofList] at hmem
    have hfirst := List.all_eq_true.mp List.all_takeWhile '_' hmem
    simp at hfirst
  · intro hnot
    have hall : ∀ ch ∈ x.toList, decide (ch ≠ '_') = true :=
      fun ch hch => decide_eq_true (ne_of_mem_of_not_mem hch hnot)
    rw [List.takeWhile_append_of_pos hall, List.takeWhile_cons_of_neg (by simp), List.append_nil,
      String.ofList_toList]

theorem underscore_mem_getRawNodeKey (n : String) (i : ℕ) :
    '_' ∈ (getRawNodeKey n i).toList := by
  rw [getRawNodeKey, String.toList_append, String.toList_append]
  simp

/-- The ids on the ring and the ids with data keys have the property. -/
structure Named (P : String → Prop) (c : ConsistentHash) : Prop where
  nodes : ∀ x ∈ c.hashRing.nodes, P x
  records : ∀ x, c.hashRing.dataKeys x ≠ ∅ → P x

section Calls

variable {c c' : ConsistentHash} {m : SortedRing} {P : String → Prop}

theorem ConsistentHash.call_ok {op : HashCall} (h : c.call op = some (c', none)) :
    (∃ n weight rolls ts, op = .addNode n weight rolls ∧
      c.addNode n weight rolls = some (c', .ok ts)) ∨
    (∃ n ts, op = .removeNode n ∧ c.removeNode n = some (c', .ok ts)) ∨
    ∃ k x, op = .getNode k ∧ c.getNode k = some (c', .ok x) := by
  have hok : ∀ {α : Type} {run : Option (ConsistentHash × Except String α)},
      run.map (fun (c', r) => (c', errorOf r)) = some (c', none) →
        ∃ x, run = some (c', .ok x) := by
    intro α run hrun
    obtain ⟨⟨c₁, r⟩, rfl, hr⟩ := Option.map_eq_some_iff.mp hrun
    obtain ⟨rfl, herr⟩ := Prod.mk.inj hr
    cases r with
    | error err => cases herr
    | ok x => exact ⟨x, rfl⟩
  cases op with
  | addNode n weight rolls =>
    obtain ⟨ts, hrun⟩ := hok h
    exact .inl ⟨n, weight, rolls, ts, rfl, hrun⟩
  | removeNode n =>
    obtain ⟨ts, hrun⟩ := hok h
    exact .inr (.inl ⟨n, ts, rfl, hrun⟩)
  | getNode k =>
    obtain ⟨x, hrun⟩ := hok h
    exact .inr (.inr ⟨k, x, rfl, hrun⟩)

theorem OnRing.of_getNode (h : OnRing c m) {k x : String}
    (hget : c.getNode k = some (c', .ok x)) :
    ∃ owner ∈ c.hashRing.nodes, c.ringOwner k = some owner ∧
      c' = { c with hashRing := c.hashRing.addNodeToDataKeys owner {k} } ∧
      (x = owner ↔ '_' ∉ owner.toList) := by
  rcases h.getNode k with ⟨err, hrun⟩ | ⟨owner, i, hk, howner, hrun⟩
  · rw [hrun] at hget
    cases hget
  · rw [hrun] at hget
    obtain ⟨rfl, hx⟩ := Prod.mk.inj (Option.some.inj hget)
    obtain rfl := Except.ok.inj hx
    exact ⟨owner, hk.mem, howner, rfl, splitHead_getRawNodeKey owner i⟩

/-- A call brings no id but the one that `AddNode` is given. -/
theorem Named.call (hc : Named P c) (h : OnRing c m) {op : HashCall}
    (hop : ∀ n weight rolls, op = .addNode n weight rolls → P n)
    (hcall : c.call op = some (c', none)) : Named P c' := by
  rcases ConsistentHash.call_ok hcall with ⟨n, weight, rolls, ts, rfl, hrun⟩ |
    ⟨n, ts, rfl, hrun⟩ | ⟨k, x, rfl, hrun⟩
  · obtain ⟨-, m', -, hframe, hkeys, -⟩ := h.of_addNode hrun
    have hn := hop n weight rolls rfl
    refine ⟨fun x hx => ?_, fun x hx => ?_⟩
    · rw [SkiplistHashRing.nodes, hframe.nodes] at hx
      rcases Finmap.mem_insert.mp hx with rfl | hx
      · exact hn
      · exact hc.nodes x hx
    · by_cases hxn : x = n
      · rw [hxn]
        exact hn
      · exact hc.records x fun hempty => hx (Finset.subset_empty.mp (hempty ▸ hkeys x hxn))
  · obtain ⟨replicas, m', -, -, hframe, hover, -⟩ := h.of_removeNode hrun
    refine ⟨fun x hx => ?_, fun x hx => ?_⟩
    · rw [SkiplistHashRing.nodes, hframe.nodes] at hx
      exact hc.nodes x (Finmap.mem_erase.mp hx).2
    · rcases hover.under x hx with hx | hx
      · exact hc.records x hx
      · exact hc.nodes x hx
  · obtain ⟨owner, howner, -, rfl, -⟩ := h.of_getNode hrun
    refine ⟨hc.nodes, fun y hy => ?_⟩
    rw [dataKeys_addNodeToDataKeys] at hy
    by_cases hyo : y = owner
    · rw [hyo]
      exact hc.nodes owner howner
    · rw [if_neg hyo] at hy
      exact hc.records y hy

end Calls

/-- Nodes come with ids without an underscore. -/
def HashCall.Plain : HashCall → Prop
  | .addNode nodeID _ _ => '_' ∉ nodeID.toList
  | .removeNode _ | .getNode _ => True

theorem named_of_calls {encryptor : Encryptor} {migrator : Bool} {replicas : ℤ}
    {ops : List HashCall} (hops : ∀ op ∈ ops, op.Plain) {c : ConsistentHash}
    (hrun : (newConsistentHash newSkiplistHashRing encryptor migrator replicas).callsWithoutError
      ops = some c) : Named (fun x => '_' ∉ x.toList) c := by
  have hstart : Named (fun x => '_' ∉ x.toList)
      (newConsistentHash newSkiplistHashRing encryptor migrator replicas) :=
    ⟨fun x hx => absurd hx Finmap.notMem_empty, fun x hx => absurd rfl hx⟩
  refine (calls_invariant (fun c => (∃ m, OnRing c m) ∧ Named (fun x => '_' ∉ x.toList) c) ?_
    ⟨⟨[], onRing_new encryptor migrator replicas⟩, hstart⟩ hrun).2
  rintro c c' op hop ⟨⟨m, h⟩, hc⟩ hcall
  refine ⟨(h.of_call hcall).1, hc.call h ?_ hcall⟩
  rintro n weight rolls rfl
  exact hops _ hop

/-- Without an underscore in the ids, no data keys are recorded under a node key. -/
theorem Named.dataKeys_getRawNodeKey {c : ConsistentHash}
    (h : Named (fun x => '_' ∉ x.toList) c) (n : String) (i : ℕ) :
    c.hashRing.dataKeys (getRawNodeKey n i) = ∅ := by
  by_contra hdata
  exact h.records _ hdata (underscore_mem_getRawNodeKey n i)

/-- **Node ids are opaque** as long as they have no underscore.  For all ids, in every state after
calls without an error: `GetNode` records the key under a node of the ring and returns the id of
that node exactly when the id has no underscore; and `RemoveNode` keeps the data keys of every
other node that does not have a node key of the removed one as its id, or has no data keys.  When
no id has an underscore, no data keys are recorded under any node key. -/
theorem node_ids_opaque (encryptor : Encryptor) (migrator : Bool) (replicas : ℤ)
    (ops : List HashCall) (c : ConsistentHash)
    (hrun : (newConsistentHash newSkiplistHashRing encryptor migrator replicas).callsWithoutError
      ops = some c) :
    (∀ k c' x, c.getNode k = some (c', .ok x) → ∃ owner ∈ c'.hashRing.nodes,
      c' = { c with hashRing := c.hashRing.addNodeToDataKeys owner {k} } ∧
      (x = owner ↔ '_' ∉ owner.toList)) ∧
    (∀ n c' ts, c.removeNode n = some (c', .ok ts) → ∀ x, x ≠ n →
      (∀ i, Known c.hashRing.nodes n i → x = getRawNodeKey n i → c.hashRing.dataKeys x = ∅) →
      c.hashRing.dataKeys x ⊆ c'.hashRing.dataKeys x) ∧
    ((∀ op ∈ ops, op.Plain) → (∀ x ∈ c.hashRing.nodes, '_' ∉ x.toList) ∧
      ∀ n i, c.hashRing.dataKeys (getRawNodeKey n i) = ∅) := by
  obtain ⟨⟨m, h⟩, -⟩ := (onRing_new encryptor migrator replicas).calls hrun
  refine ⟨fun k c' x hget => ?_, fun n c' ts hrem x hx hfree => ?_, fun hops => ?_⟩
  · obtain ⟨owner, hmem, -, rfl, hiff⟩ := h.of_getNode hget
    exact ⟨owner, hmem, rfl, hiff⟩
  · obtain ⟨replicas, m', hl, -, -, hover, -⟩ := h.of_removeNode hrem
    by_cases hkey : ∀ i < replicas.toNat, x ≠ getRawNodeKey n i
    · exact hover.kept x hx hkey
    · push Not at hkey
      obtain ⟨i, hi, hxi⟩ := hkey
      rw [hfree i ⟨replicas, hl, hi⟩ hxi]
      exact Finset.empty_subset _
  · have hnamed := named_of_calls hops hrun
    exact ⟨hnamed.nodes, hnamed.dataKeys_getRawNodeKey⟩

/-- Two nodes without an underscore: `GetNode` returns the node that holds the key. -/
theorem node_ids_opaque_plain :
    ∃ c c' x, (newConsistentHash newSkiplistHashRing constantEncryptor true 1).callsWithoutError
        [.addNode "a" 1 fun _ => 0, .addNode "b" 1 fun _ => 1] = some c ∧
      c.getNode "k" = some (c', .ok x) ∧ x ∈ c'.hashRing.nodes ∧
      "k" ∈ c'.hashRing.dataKeys x := by
  have hcheck : ((newConsistentHash newSkiplistHashRing constantEncryptor true
      1).callsWithoutError [.addNode "a" 1 fun _ => 0, .addNode "b" 1 fun _ => 1]).any
      (fun c => (c.getNode "k").any fun r => r.2.toOption.isSome) = true := by
    decide +kernel
  obtain ⟨c, hc, hget⟩ := (Option.any_eq_true _ _).mp hcheck
  obtain ⟨⟨c', r⟩, hr, hok⟩ := (Option.any_eq_true _ _).mp hget
  cases r with
  | error err => cases hok
  | ok x =>
    obtain ⟨hreturns, -, hplain⟩ := node_ids_opaque constantEncryptor true 1 _ c hc
    obtain ⟨owner, howner, hrecorded, hiff⟩ := hreturns "k" c' x hr
    have hops : ∀ op ∈ [HashCall.addNode "a" 1 fun _ => 0, .addNode "b" 1 fun _ => 1],
        op.Plain := by
      intro op hop
      simp only [List.mem_cons, List.not_mem_nil, or_false] at hop
      rcases hop with rfl | rfl
      · show '_' ∉ "a".toList
        decide +kernel
      · show '_' ∉ "b".toList
        decide +kernel
    have hnodes : owner ∈ c.hashRing.nodes := by
      rw [hrecorded] at howner
      exact howner
    obtain rfl := hiff.mpr ((hplain hops).1 owner hnodes)
    refine ⟨c, c', x, hc, hr, howner, ?_⟩
    rw [hrecorded, dataKeys_addNodeToDataKeys, if_pos rfl]
    exact Finset.mem_union_right _ (Finset.mem_singleton_self "k")

/-- With the ids `a_0` and `a`: `GetNode` returns `a`, which is not on the ring yet, for a key that
it records under `a_0`; and when `a` comes and leaves, the key recorded under `a_0` is gone. -/
theorem underscore_ids_interfere :
    ∃ c c₁ c₂ c₃ ts,
      (newConsistentHash newSkiplistHashRing constantEncryptor true 1).callsWithoutError
        [.addNode "a_0" 1 fun _ => 0] = some c ∧
      c.getNode "k" = some (c₁, .ok "a") ∧ c₁.hashRing.nodes.lookup "a" = none ∧
      c₁.callsWithoutError [.addNode "a" 1 fun _ => 0] = some c₂ ∧
      c₂.removeNode "a" = some (c₃, .ok ts) ∧ c₂.hashRing.dataKeys "a_0" = {"k"} ∧
      c₃.hashRing.dataKeys "a_0" = ∅ := by
  have hcheck : ((newConsistentHash newSkiplistHashRing constantEncryptor true
      1).callsWithoutError [.addNode "a_0" 1 fun _ => 0]).any (fun c =>
        (c.getNode "k").any fun r₁ => decide (r₁.2.toOption = some "a" ∧
            r₁.1.hashRing.nodes.lookup "a" = none) &&
          (r₁.1.callsWithoutError [.addNode "a" 1 fun _ => 0]).any fun c₂ =>
            decide (c₂.hashRing.dataKeys "a_0" = {"k"}) &&
            (c₂.removeNode "a").any fun r₃ => decide (r₃.2.toOption.isSome = true ∧
              r₃.1.hashRing.dataKeys "a_0" = ∅)) = true := by
    decide +kernel
  obtain ⟨c, hc, hget⟩ := (Option.any_eq_true _ _).mp hcheck
  obtain ⟨⟨c₁, r₁⟩, hr₁, hboth⟩ := (Option.any_eq_true _ _).mp hget
  rw [Bool.and_eq_true, decide_eq_true_eq] at hboth
  obtain ⟨⟨hr, hnone⟩, hadd⟩ := hboth
  obtain ⟨c₂, hc₂, hboth⟩ := (Option.any_eq_true _ _).mp hadd
  rw [Bool.and_eq_true, decide_eq_true_eq] at hboth
  obtain ⟨⟨c₃, r₃⟩, hr₃, hlast⟩ := (Option.any_eq_true _ _).mp hboth.2
  obtain ⟨hok, hgone⟩ := of_decide_eq_true hlast
  cases r₁ with
  | error err => cases hr
  | ok x =>
    obtain rfl := Option.some.inj hr
    cases r₃ with
    | error err => cases hok
    | ok ts => exact ⟨c, c₁, c₂, c₃, ts, hc, hr₁, hnone, hc₂, hr₃, hboth.1, hgone⟩

end Aster.Local
