import Aster.Local.NodeIDs

/-!
# A node joins and leaves again

On a ring without the node, all ids at a score are of other nodes, and these stay as they are
while the virtual nodes of the node come and go.  So after `AddNode` and `RemoveNode` the ring has
its entries back, each in its order.  With a migrator every recorded key is with its owner before
and after, and the owners are the same; without one the records are never touched, but for those
under the node keys, where there are none.
-/

namespace Aster.Local

open Aster.Lib Aster.Lib.CyclicOrder

/-- The ring determines its sorted list. -/
theorem Represents.unique {s : SkiplistHashRing} {m m' : SortedRing} (h : Represents s m)
    (h' : Represents s m') : m = m' := by
  refine h.ascending.ext h'.ascending fun v => ?_
  have hnode := (h.node_eq v).symm.trans (h'.node_eq v)
  rw [SortedRing.node, SortedRing.node] at hnode
  cases hl : SortedMap.lookup m v with
  | none =>
    cases hl' : SortedMap.lookup m' v with
    | none => rfl
    | some ids =>
      rw [hl, hl'] at hnode
      cases hnode
  | some ids =>
    cases hl' : SortedMap.lookup m' v with
    | none =>
      rw [hl, hl'] at hnode
      cases hnode
    | some ids' =>
      rw [hl, hl'] at hnode
      rw [Except.ok.inj (Option.some.inj hnode)]

section Calls

variable {c c₁ c₂ : ConsistentHash} {m m₁ m₂ : SortedRing} {n : String} {weight : ℤ}

/-- Rings without the node and with the same ids of the others are the same. -/
theorem OnRing.eq_of_others (h : OnRing c m) (h₂ : OnRing c₂ m₂) (hn : n ∉ c.hashRing.nodes)
    (hn₂ : n ∉ c₂.hashRing.nodes) (hothers : ∀ v, othersAt n m₂ v = othersAt n m v) :
    m₂ = m := by
  refine h₂.repr.ascending.ext h.repr.ascending fun v => ?_
  have hget : (SortedMap.lookup m₂ v).getD [] = (SortedMap.lookup m v).getD [] := by
    rw [h.othersAt_eq (fun j hk => hn hk.mem), h₂.othersAt_eq (fun j hk => hn₂ hk.mem), hothers]
  cases hl : SortedMap.lookup m v with
  | none =>
    cases hl₂ : SortedMap.lookup m₂ v with
    | none => rfl
    | some ids =>
      rw [hl, hl₂] at hget
      exact absurd hget (h₂.repr.ids hl₂).1
  | some ids =>
    cases hl₂ : SortedMap.lookup m₂ v with
    | none =>
      rw [hl, hl₂] at hget
      exact absurd hget.symm (h.repr.ids hl).1
    | some ids₂ =>
      rw [hl, hl₂] at hget
      exact congrArg some hget

/-- **The ring is back** after the node has joined and left. -/
theorem OnRing.join_leave (h : OnRing c m) {rolls : ℕ → ℕ} {ts₁ ts₂ : List Migration}
    (hadd : c.addNode n weight rolls = some (c₁, .ok ts₁))
    (hrem : c₁.removeNode n = some (c₂, .ok ts₂)) :
    OnRing c₂ m ∧ c₂.hashRing.nodes = c.hashRing.nodes ∧ c₂.encryptor = c.encryptor := by
  obtain ⟨hn, m₁, h₁, hjoin, -⟩ := h.of_addNode hadd
  obtain ⟨-, m₂, -, h₂, hleave, -⟩ := h₁.of_removeNode hrem
  have hnodes : c₂.hashRing.nodes = c.hashRing.nodes := by
    refine Finmap.ext_lookup fun x => ?_
    have hx : c₂.hashRing.nodes = (c₁.hashRing.nodeToReplicas).erase n := hleave.nodes
    rw [hx, hjoin.nodes]
    show ((c.hashRing.nodes.insert n _).erase n).lookup x = _
    by_cases hxn : x = n
    · rw [hxn, Finmap.lookup_erase, Finmap.lookup_eq_none.mpr hn]
    · rw [Finmap.lookup_erase_ne hxn, Finmap.lookup_insert_of_ne _ hxn]
  have hn₂ : n ∉ c₂.hashRing.nodes := by
    rw [hnodes]
    exact hn
  have hm : m₂ = m :=
    h.eq_of_others h₂ hn hn₂ fun v => (hleave.others v).trans (hjoin.others v)
  rw [hm] at h₂
  exact ⟨h₂, hnodes, hleave.encryptor.trans hjoin.encryptor⟩

/-- A removable node that has joined can leave. -/
theorem OnRing.leaves (h : OnRing c m) {rolls : ℕ → ℕ} {ts₁ : List Migration}
    (hadd : c.addNode n weight rolls = some (c₁, .ok ts₁)) (hfree : c₁.Removable n) :
    ∃ c₂ ts₂, c₁.removeNode n = some (c₂, .ok ts₂) := by
  obtain ⟨-, m₁, h₁, hjoin, -⟩ := h.of_addNode hadd
  have hl₁ : c₁.hashRing.nodes.lookup n = some (int64 (getValidWeight weight * c.replicas)) := by
    rw [SkiplistHashRing.nodes, hjoin.nodes]
    exact Finmap.lookup_insert _
  obtain ⟨c₂, res, hrem, hfail, -⟩ := h₁.removeNode hl₁
  cases res with
  | error err => exact absurd hfree (hfail err rfl)
  | ok ts₂ => exact ⟨c₂, ts₂, hrem⟩

/-- Without a migrator the records stay, when there are none under node keys. -/
theorem OnRing.records_without_migrator (h : OnRing c m) (hmig : c.migrator = false)
    (hnamed : Named (fun x => '_' ∉ x.toList) c) (hplain : '_' ∉ n.toList) {rolls : ℕ → ℕ}
    {ts₁ ts₂ : List Migration} (hadd : c.addNode n weight rolls = some (c₁, .ok ts₁))
    (hrem : c₁.removeNode n = some (c₂, .ok ts₂)) (x : String) :
    c₂.hashRing.dataKeys x = c.hashRing.dataKeys x := by
  obtain ⟨-, m₁, h₁, hjoin, -, hidle⟩ := h.of_addNode hadd
  obtain ⟨-, m₂, -, -, -, -, hidle₂⟩ := h₁.of_removeNode hrem
  by_cases hx : ∀ j, x ≠ getRawNodeKey n j
  · rw [hidle₂ (hjoin.migrator.trans hmig) x hx, SkiplistHashRing.dataKeys, hidle hmig]
    rfl
  · push Not at hx
    obtain ⟨j, rfl⟩ := hx
    -- under a node key there is nothing before and nothing after
    have hjoined : c.call (.addNode n weight rolls) = some (c₁, none) := by
      rw [ConsistentHash.call, hadd]
      rfl
    have hleft : c₁.call (.removeNode n) = some (c₂, none) := by
      rw [ConsistentHash.call, hrem]
      rfl
    have hnamed₁ := hnamed.call h (fun n' weight' rolls' he => by
      obtain ⟨rfl, -⟩ := HashCall.addNode.inj he
      exact hplain) hjoined
    have hnamed₂ := hnamed₁.call h₁ (fun _ _ _ he => by cases he) hleft
    rw [hnamed.dataKeys_getRawNodeKey, hnamed₂.dataKeys_getRawNodeKey]

end Calls

section Records

variable {c c' c₁ c₂ : ConsistentHash} {m m₁ m₂ : SortedRing} {n : String}
  {recorded : Set String} {loc loc' : String → String}

/-- Records that follow the same ring are the same. -/
theorem Placed.dataKeys_eq (h : Placed c m recorded loc) (h' : Placed c' m recorded loc')
    (henc : c'.encryptor = c.encryptor) (x : String) :
    c'.hashRing.dataKeys x = c.hashRing.dataKeys x := by
  ext k
  rw [h.located x k, h'.located x k]
  refine and_congr_right fun hk => ?_
  have howned := h'.owned k hk
  rw [henc, h.owned k hk] at howned
  rw [Option.some.inj howned]

/-- A node whose data keys have come from others can leave. -/
theorem Placed.removable (h : Placed c m recorded loc) (hn : n ∉ c.hashRing.nodes)
    (h₁ : Placed c₁ m₁ recorded loc')
    (hnodes : ∀ x i, Known c.hashRing.nodes x i → Known c₁.hashRing.nodes x i) :
    c₁.Removable n := by
  by_cases hdata : c₁.hashRing.dataKeys n = ∅
  · exact .inr (.inr (.inl hdata))
  · obtain ⟨k, hk⟩ := Finset.nonempty_iff_ne_empty.mpr hdata
    have howned := h.owned k ((h₁.located n k).mp hk).1
    obtain ⟨i, hknown⟩ := h.ring.owner_known howned
    refine .inr (.inr (.inr ⟨fun hempty => (h₁.valid "" hempty).1 rfl, loc k, i, ?_,
      hnodes _ i hknown⟩))
    intro hloc
    exact hn (hloc ▸ hknown.mem)

/-- With a migrator every recorded key is handed back to its owner. -/
theorem Placed.join_leave (h : Placed c m recorded loc) (hon : OnRing c m)
    (hn : n ∉ c.hashRing.nodes) (hvalid : ValidID n) {weight : ℤ} {rolls : ℕ → ℕ}
    {ts₁ : List Migration} (hadd : c.addNode n weight rolls = some (c₁, .ok ts₁)) :
    ∃ c₂ ts₂, c₁.removeNode n = some (c₂, .ok ts₂) ∧
      ∀ x, c₂.hashRing.dataKeys x = c.hashRing.dataKeys x := by
  obtain ⟨-, m₁, -, hjoin, -⟩ := hon.of_addNode hadd
  obtain ⟨c₁', r, hrun, -, hspec⟩ := h.addNode hvalid weight rolls
  rw [hadd] at hrun
  obtain ⟨rfl, rfl⟩ := Prod.mk.inj (Option.some.inj hrun)
  obtain ⟨m₁', loc₁, -, hplaced₁, -⟩ := hspec ts₁ rfl
  have hnodes : ∀ x i, Known c.hashRing.nodes x i → Known c₁.hashRing.nodes x i := by
    intro x i hk
    rw [SkiplistHashRing.nodes, hjoin.nodes]
    exact (known_insert hn _ x i).mpr (.inl hk)
  obtain ⟨c₂, ts₂, hrem⟩ := hon.leaves hadd (h.removable hn hplaced₁ hnodes)
  obtain ⟨c₂', r, hrun₂, hspec₂⟩ := hplaced₁.removeNode n
  rw [hrem] at hrun₂
  obtain ⟨rfl, rfl⟩ := Prod.mk.inj (Option.some.inj hrun₂)
  obtain ⟨m₂, loc₂, -, hplaced₂, -⟩ := hspec₂ ts₂ rfl
  obtain ⟨hon₂, -, henc⟩ := hon.join_leave hadd hrem
  obtain rfl := hplaced₂.ring.repr.unique hon₂.repr
  exact ⟨c₂, ts₂, hrem, h.dataKeys_eq hplaced₂ henc⟩

end Records

theorem HashCall.Valid.plain {op : HashCall} (h : op.Valid) : op.Plain := by
  cases op with
  | addNode nodeID weight rolls => exact h.2
  | removeNode nodeID => trivial
  | getNode dataKey => trivial

/-- **Joining and leaving again is the identity** when no id is empty or has an underscore.  In
every state after calls without an error, a new node can be added and removed again, and then the
nodes, the entry, the ceiling and the floor of every score and the data keys of every node are
what they were. -/
theorem join_leave_identity (encryptor : Encryptor) (migrator : Bool) (replicas : ℤ)
    (ops : List HashCall) (hops : ∀ op ∈ ops, op.Valid) (c : ConsistentHash)
    (hrun : (newConsistentHash newSkiplistHashRing encryptor migrator replicas).callsWithoutError
      ops = some c) (n : String) (hn : n ∉ c.hashRing.nodes) (hvalid : ValidID n) (weight : ℤ)
    (rolls : ℕ → ℕ) :
    ∃ c₁ ts₁ c₂ ts₂, c.addNode n weight rolls = some (c₁, .ok ts₁) ∧
      c₁.removeNode n = some (c₂, .ok ts₂) ∧ c₂.hashRing.nodes = c.hashRing.nodes ∧
      (∀ score, c₂.hashRing.node score = c.hashRing.node score ∧
        c₂.hashRing.ceiling score = c.hashRing.ceiling score ∧
        c₂.hashRing.floor score = c.hashRing.floor score) ∧
      ∀ x, c₂.hashRing.dataKeys x = c.hashRing.dataKeys x := by
  obtain ⟨⟨m, h⟩, hmig⟩ := (onRing_new encryptor migrator replicas).calls hrun
  obtain ⟨c₁, ts₁, m₁, hadd, -⟩ := h.addNode hn weight rolls
  -- it is enough that the node can leave, and what the records are then
  suffices hrecords : ∃ c₂ ts₂, c₁.removeNode n = some (c₂, .ok ts₂) ∧
      ∀ x, c₂.hashRing.dataKeys x = c.hashRing.dataKeys x by
    obtain ⟨c₂, ts₂, hrem, hdata⟩ := hrecords
    obtain ⟨h₂, hnodes, -⟩ := h.join_leave hadd hrem
    refine ⟨c₁, ts₁, c₂, ts₂, hadd, hrem, hnodes, fun score => ⟨?_, ?_, ?_⟩, hdata⟩
    · rw [h₂.repr.node_eq, h.repr.node_eq]
    · rw [h₂.repr.ceiling_eq, h.repr.ceiling_eq]
    · rw [h₂.repr.floor_eq, h.repr.floor_eq]
  cases migrator with
  | false =>
    obtain ⟨-, m₁, -, hjoin, -⟩ := h.of_addNode hadd
    obtain ⟨c₂, ts₂, hrem⟩ := h.leaves hadd (.inl (hjoin.migrator.trans hmig))
    have hnamed := named_of_calls (fun op hop => (hops op hop).plain) hrun
    exact ⟨c₂, ts₂, hrem, h.records_without_migrator hmig hnamed hvalid.2 hadd hrem⟩
  | true =>
    obtain ⟨⟨m', loc, hplaced⟩, -⟩ := (placed_new encryptor replicas).calls hops hrun
    obtain rfl := h.repr.unique hplaced.ring.repr
    obtain ⟨c₂, ts₂, hrem, hdata⟩ := hplaced.join_leave h hn hvalid hadd
    exact ⟨c₂, ts₂, hrem, hdata⟩

theorem mod_lt_maxInt32 (n : ℕ) : ((n % 100 : ℕ) : ℤ) < maxInt32 := by
  rw [maxInt32]
  omega

/-- A hash function that is given by a table, and 3 for all other keys. -/
def tableEncryptor (table : List (String × ℕ)) : Encryptor where
  encrypt origin := ((table.lookup origin).getD 3 % 100 : ℕ)
  nonneg _ := Int.natCast_nonneg _
  lt _ := mod_lt_maxInt32 _

/-- The new node takes over a data key and hands it back. -/
theorem join_leave_identity_handed_back :
    ∃ c c₁ ts₁ c₂ ts₂,
      (newConsistentHash newSkiplistHashRing (tableEncryptor [("a_0", 10), ("b_0", 5)]) true
        1).callsWithoutError [.addNode "a" 1 fun _ => 0, .getNode "k"] = some c ∧
      c.addNode "b" 1 (fun _ => 1) = some (c₁, .ok ts₁) ∧ c₁.hashRing.dataKeys "b" = {"k"} ∧
      c₁.removeNode "b" = some (c₂, .ok ts₂) ∧ c₂.hashRing.dataKeys "a" = {"k"} := by
  have hcheck : ((newConsistentHash newSkiplistHashRing
      (tableEncryptor [("a_0", 10), ("b_0", 5)]) true 1).callsWithoutError
      [.addNode "a" 1 fun _ => 0, .getNode "k"]).any (fun c =>
        decide (c.hashRing.nodes.lookup "b" = none ∧ c.hashRing.dataKeys "a" = {"k"}) &&
        (c.addNode "b" 1 fun _ => 1).any fun r =>
          decide (r.1.hashRing.dataKeys "b" = {"k"})) = true := by
    decide +kernel
  obtain ⟨c, hc, hboth⟩ := (Option.any_eq_true _ _).mp hcheck
  rw [Bool.and_eq_true, decide_eq_true_eq] at hboth
  obtain ⟨⟨hnone, hdata⟩, hjoin⟩ := hboth
  obtain ⟨⟨c', r⟩, hadd', htaken⟩ := (Option.any_eq_true _ _).mp hjoin
  have hops : ∀ op ∈ [HashCall.addNode "a" 1 fun _ => 0, .getNode "k"], op.Valid := by
    intro op hop
    simp only [List.mem_cons, List.not_mem_nil, or_false] at hop
    rcases hop with rfl | rfl
    · show ValidID "a"
      decide +kernel
    · trivial
  have hvalid : ValidID "b" := by decide +kernel
  obtain ⟨c₁, ts₁, c₂, ts₂, hadd, hrem, -, -, hkeys⟩ :=
    join_leave_identity (tableEncryptor [("a_0", 10), ("b_0", 5)]) true 1 _ hops c hc "b"
      (Finmap.lookup_eq_none.mp hnone) hvalid 1 fun _ => 1
  rw [hadd] at hadd'
  obtain ⟨rfl, -⟩ := Prod.mk.inj (Option.some.inj hadd')
  exact ⟨c, c₁, ts₁, c₂, ts₂, hc, hadd, of_decide_eq_true htaken, hrem,
    (hkeys "a").trans hdata⟩

/-- On a ring with the id `a_0`, the node `a` joins and leaves, and the data key of `a_0` is
gone. -/
theorem join_leave_loses_key :
    ∃ c c₁ ts₁ c₂ ts₂,
      (newConsistentHash newSkiplistHashRing constantEncryptor true 1).callsWithoutError
        [.addNode "a_0" 1 fun _ => 0, .getNode "k"] = some c ∧
      c.hashRing.nodes.lookup "a" = none ∧ '_' ∉ "a".toList ∧
      c.hashRing.dataKeys "a_0" = {"k"} ∧ c.addNode "a" 1 (fun _ => 0) = some (c₁, .ok ts₁) ∧
      c₁.removeNode "a" = some (c₂, .ok ts₂) ∧ c₂.hashRing.dataKeys "a_0" = ∅ := by
  have hcheck : ((newConsistentHash newSkiplistHashRing constantEncryptor true
      1).callsWithoutError [.addNode "a_0" 1 fun _ => 0, .getNode "k"]).any (fun c =>
        decide (c.hashRing.nodes.lookup "a" = none ∧ c.hashRing.dataKeys "a_0" = {"k"}) &&
        (c.addNode "a" 1 fun _ => 0).any fun r₁ => r₁.2.toOption.isSome &&
          (r₁.1.removeNode "a").any fun r₂ => decide (r₂.2.toOption.isSome = true ∧
            r₂.1.hashRing.dataKeys "a_0" = ∅)) = true := by
    decide +kernel
  obtain ⟨c, hc, hboth⟩ := (Option.any_eq_true _ _).mp hcheck
  rw [Bool.and_eq_true, decide_eq_true_eq] at hboth
  obtain ⟨⟨c₁, r₁⟩, hadd, hnext⟩ := (Option.any_eq_true _ _).mp hboth.2
  rw [Bool.and_eq_true] at hnext
  obtain ⟨⟨c₂, r₂⟩, hrem, hlast⟩ := (Option.any_eq_true _ _).mp hnext.2
  obtain ⟨hok₂, hgone⟩ := of_decide_eq_true hlast
  have hok₁ := hnext.1
  cases r₁ with
  | error err => cases hok₁
  | ok ts₁ =>
    cases r₂ with
    | error err => cases hok₂
    | ok ts₂ =>
      exact ⟨c, c₁, ts₁, c₂, ts₂, hc, hboth.1.1, by decide +kernel, hboth.1.2, hadd, hrem, hgone⟩

/-- The empty id: a node that has taken a data key over from the node with this id cannot leave,
and neither can the node with this id itself when two of its virtual nodes meet. -/
theorem empty_id_cannot_leave :
    (∃ c c', (newConsistentHash newSkiplistHashRing (tableEncryptor [("_0", 10), ("b_0", 5)]) true
        1).callsWithoutError [.addNode "" 1 fun _ => 0, .getNode "k", .addNode "b" 1 fun _ => 0] =
          some c ∧
      c.removeNode "b" = some (c', .error "no other node")) ∧
    ∃ c c', (newConsistentHash newSkiplistHashRing (tableEncryptor [("a_0", 10), ("a_1", 10),
        ("a_2", 10), ("_0", 5), ("_1", 7), ("_2", 7)]) true 3).callsWithoutError
        [.addNode "a" 1 fun _ => 0, .getNode "k", .addNode "" 1 fun _ => 0] = some c ∧
      c.removeNode "" = some (c', .error "no other node") := by
  -- what a run that ends in this error says
  have of_run : ∀ (run : Option ConsistentHash) (n : String),
      run.any (fun c => (c.removeNode n).any
        fun r => decide (errorOf r.2 = some "no other node")) = true →
      ∃ c c', run = some c ∧ c.removeNode n = some (c', .error "no other node") := by
    intro run n hrun
    obtain ⟨c, hc, hrem⟩ := (Option.any_eq_true _ _).mp hrun
    obtain ⟨⟨c', r⟩, hremove, herr⟩ := (Option.any_eq_true _ _).mp hrem
    have herror := of_decide_eq_true herr
    cases r with
    | ok ts => cases herror
    | error err =>
      obtain rfl := Option.some.inj herror
      exact ⟨c, c', hc, hremove⟩
  exact ⟨of_run _ _ (by decide +kernel), of_run _ _ (by decide +kernel)⟩

end Aster.Local
