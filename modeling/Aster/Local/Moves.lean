import Aster.Local.NextNode

/-!
# What one virtual node moves

`Located s recorded loc` says that the records of `s` hold each recorded key at one node, that
of `loc`.  `migrateIn` and `migrateOut` move the data keys on the arc of one virtual node: to the
node that gains it, or to the node that `getValidNextNode` finds.
-/

namespace Aster.Local

open Aster.Lib Aster.Lib.CyclicOrder

/-! ### The records -/

/-- Each recorded key is held by one node. -/
def Located (s : SkiplistHashRing) (recorded : Set String) (loc : String → String) : Prop :=
  ∀ x k, k ∈ s.dataKeys x ↔ k ∈ recorded ∧ loc k = x

/-- Where the data keys are after a task. -/
def Migration.apply (t : Migration) (loc : String → String) : String → String :=
  fun k => if k ∈ t.datas then t.target else loc k

section Records

variable {s s' : SkiplistHashRing} {recorded : Set String} {loc : String → String}

theorem dataKeys_addNodeToDataKeys (s : SkiplistHashRing) (n x : String) (datas : Finset String) :
    (s.addNodeToDataKeys n datas).dataKeys x =
      if x = n then s.dataKeys n ∪ datas else s.dataKeys x := by
  show (Finmap.lookup x (s.nodeToDataKey.insert n (s.dataKeys n ∪ datas))).getD ∅ = _
  split_ifs with hx
  · rw [hx, Finmap.lookup_insert]
    rfl
  · rw [Finmap.lookup_insert_of_ne _ hx]
    rfl

theorem dataKeys_deleteNodeToDataKeys (s : SkiplistHashRing) (n x : String)
    (datas : Finset String) :
    (s.deleteNodeToDataKeys n datas).dataKeys x =
      if x = n then s.dataKeys n \ datas else s.dataKeys x := by
  rw [SkiplistHashRing.deleteNodeToDataKeys]
  cases hl : s.nodeToDataKey.lookup n with
  | none =>
    have hempty : s.dataKeys n = ∅ := by
      rw [SkiplistHashRing.dataKeys, hl]
      rfl
    split_ifs with hx
    · rw [hx, hempty, Finset.empty_sdiff]
    · rfl
  | some oldDataKeys =>
    have hold : s.dataKeys n = oldDataKeys := by
      rw [SkiplistHashRing.dataKeys, hl]
      rfl
    rw [hold]
    by_cases hempty : oldDataKeys \ datas = ∅
    · simp only [if_pos hempty]
      show (Finmap.lookup x (s.nodeToDataKey.erase n)).getD ∅ = _
      split_ifs with hx
      · rw [hx, Finmap.lookup_erase, hempty]
        rfl
      · rw [Finmap.lookup_erase_ne hx]
        rfl
    · simp only [if_neg hempty]
      show (Finmap.lookup x (s.nodeToDataKey.insert n (oldDataKeys \ datas))).getD ∅ = _
      split_ifs with hx
      · rw [hx, Finmap.lookup_insert]
        rfl
      · rw [Finmap.lookup_insert_of_ne _ hx]
        rfl

/-- A move keeps the heap and the replicas. -/
theorem moveDataKeys_frame (s : SkiplistHashRing) (source target : String)
    (datas : Finset String) :
    (s.moveDataKeys source target datas).heap = s.heap ∧
      (s.moveDataKeys source target datas).size = s.size ∧
      (s.moveDataKeys source target datas).nodeToReplicas = s.nodeToReplicas := by
  rw [SkiplistHashRing.moveDataKeys, SkiplistHashRing.deleteNodeToDataKeys]
  cases s.nodeToDataKey.lookup source with
  | none => exact ⟨rfl, rfl, rfl⟩
  | some oldDataKeys =>
    by_cases hempty : oldDataKeys \ datas = ∅
    · simp only [if_pos hempty]
      exact ⟨rfl, rfl, rfl⟩
    · simp only [if_neg hempty]
      exact ⟨rfl, rfl, rfl⟩

theorem Located.move (h : Located s recorded loc) {t : Migration}
    (hheld : ∀ k ∈ t.datas, k ∈ s.dataKeys t.source) :
    Located (s.moveDataKeys t.source t.target t.datas) recorded (t.apply loc) := by
  intro x k
  have hk : k ∈ t.datas → k ∈ recorded ∧ loc k = t.source :=
    fun hmem => (h t.source k).mp (hheld k hmem)
  rw [SkiplistHashRing.moveDataKeys, dataKeys_addNodeToDataKeys, dataKeys_deleteNodeToDataKeys,
    dataKeys_deleteNodeToDataKeys, Migration.apply]
  by_cases hmem : k ∈ t.datas
  · obtain ⟨hrec, hloc⟩ := hk hmem
    simp only [if_pos hmem]
    by_cases hx : x = t.target
    · simp [hx, hmem, hrec]
    · rw [if_neg hx]
      by_cases hxs : x = t.source
      · simp [hxs, hmem]
        exact fun _ he => hx (hxs.trans he.symm)
      · rw [if_neg hxs, h x k]
        simp only [hrec, hloc, true_and]
        exact ⟨fun he => absurd he.symm hxs, fun he => absurd he.symm hx⟩
  · simp only [if_neg hmem, ← h x k]
    by_cases hx : x = t.target
    · by_cases hts : t.target = t.source
      · simp [hx, hts, hmem]
      · simp [hx, hts, hmem]
    · rw [if_neg hx]
      by_cases hxs : x = t.source
      · simp [hxs, hmem]
      · rw [if_neg hxs]

theorem Represents.congr {m : SortedRing} (h : Represents s m) (hheap : s'.heap = s.heap)
    (hsize : s'.size = s.size) : Represents s' m := by
  obtain ⟨c, hr, hc⟩ := h
  refine ⟨c, ?_, ?_⟩
  · rw [hheap, hsize]
    exact hr
  · rw [hheap]
    exact hc

end Records

/-! ### The ring -/

/-- An id that `getRawNodeKey` and the code of `migrateOut` tell from every other string: it
has no underscore and is not empty. -/
def ValidID (nodeID : String) : Prop := nodeID ≠ "" ∧ '_' ∉ nodeID.toList

instance (nodeID : String) : Decidable (ValidID nodeID) := inferInstanceAs (Decidable (_ ∧ _))

theorem validID_toString (n : ℕ) : ValidID (toString n) := by
  constructor
  · intro hempty
    have hnil : Nat.toDigits 10 n = [] := by
      rw [← toList_toString, hempty]
      rfl
    exact Nat.toDigits_ne_nil hnil
  · rw [toList_toString]
    exact Nat.underscore_not_in_toDigits

/-- The ring stands for `m`, whose entries are known virtual nodes at their hash. -/
structure RingInv (enc : Encryptor) (known : String → ℕ → Prop) (s : SkiplistHashRing)
    (m : SortedRing) : Prop where
  repr : Represents s m
  entry : ∀ v nodeIDs, SortedMap.lookup m v = some nodeIDs → ∀ id ∈ nodeIDs,
    enc.encrypt id = v ∧ ∃ x i, id = getRawNodeKey x i ∧ known x i

section Ring

variable {enc : Encryptor} {known : String → ℕ → Prop} {s : SkiplistHashRing} {m : SortedRing}
  {v : ℤ} {nodeIDs : List String}

theorem RingInv.mono (h : RingInv enc known s m) {known' : String → ℕ → Prop}
    (hk : ∀ x i, known x i → known' x i) : RingInv enc known' s m := by
  refine ⟨h.repr, fun v nodeIDs hl id hid => ?_⟩
  obtain ⟨henc, x, i, hxi, hxk⟩ := h.entry v nodeIDs hl id hid
  exact ⟨henc, x, i, hxi, hk x i hxk⟩

theorem RingInv.congr (h : RingInv enc known s m) {s' : SkiplistHashRing}
    (hheap : s'.heap = s.heap) (hsize : s'.size = s.size) : RingInv enc known s' m :=
  ⟨h.repr.congr hheap hsize, h.entry⟩

theorem RingInv.range (h : RingInv enc known s m) :
    ∀ x ∈ SortedMap.keys m, 0 ≤ x ∧ x < maxInt32 := by
  intro x hx
  obtain ⟨nodeIDs, hl⟩ := SortedMap.exists_lookup hx
  obtain ⟨id, hid⟩ := List.exists_mem_of_ne_nil nodeIDs (h.repr.ids hl).1
  rw [← (h.entry x nodeIDs hl id hid).1]
  exact ⟨enc.nonneg id, enc.lt id⟩

theorem RingInv.getNodeID_of_mem (h : RingInv enc known s m)
    (hl : SortedMap.lookup m v = some nodeIDs) {id : String} (hid : id ∈ nodeIDs) :
    ∃ x i, id = getRawNodeKey x i ∧ getNodeID id = some x ∧ known x i := by
  obtain ⟨-, x, i, rfl, hk⟩ := h.entry v nodeIDs hl id hid
  exact ⟨x, i, rfl, getNodeID_getRawNodeKey x i, hk⟩

theorem RingInv.named (h : RingInv enc known s m) : NamedRing s m := by
  refine ⟨h.repr, h.range, fun v id hid => ?_⟩
  obtain ⟨nodeIDs, hl, hmem⟩ := hid
  obtain ⟨x, -, -, hx, -⟩ := h.getNodeID_of_mem hl hmem
  exact ⟨x, hx⟩

theorem RingInv.ceiling_eq (h : RingInv enc known s m) (hne : m ≠ []) (d : ℤ) :
    ∃ nxt, s.ceiling d = some nxt ∧ IsNext (SortedMap.keys m) d nxt ∧ nxt ≠ -1 :=
  h.named.ceiling_eq hne d

theorem RingInv.floor_eq (h : RingInv enc known s m) (hne : m ≠ []) (d : ℤ) :
    ∃ last, s.floor d = some last ∧ IsPrev (SortedMap.keys m) d last ∧ last ≠ -1 :=
  h.named.floor_eq hne d

/-- The ids at a score on the ring are not empty, and the first one names a node. -/
theorem RingInv.head (h : RingInv enc known s m) (hv : v ∈ SortedMap.keys m) :
    ∃ id rest x i, SortedMap.lookup m v = some (id :: rest) ∧ getNodeID id = some x ∧
      m.nodeAt v = some x ∧ known x i := by
  obtain ⟨nodeIDs, hl⟩ := SortedMap.exists_lookup hv
  cases nodeIDs with
  | nil => exact absurd rfl (h.repr.ids hl).1
  | cons id rest =>
    obtain ⟨x, i, -, hx, hk⟩ := h.getNodeID_of_mem hl List.mem_cons_self
    refine ⟨id, rest, x, i, hl, hx, ?_, hk⟩
    rw [SortedRing.nodeAt, hl]
    exact hx

theorem RingInv.owner_known (h : RingInv enc known s m) {d : ℤ} {x : String}
    (ho : m.owner d = some x) : ∃ i, known x i := by
  obtain ⟨v, hv, hnode⟩ := Option.bind_eq_some_iff.mp ho
  have hn := SortedMap.ceilingWrap_isNext h.repr.ascending hv
  obtain ⟨id, rest, y, i, -, -, hnode', hk⟩ := h.head hn.1
  rw [hnode] at hnode'
  obtain rfl := Option.some.inj hnode'
  exact ⟨i, hk⟩

end Ring

/-! ### `migrateIn` -/

section MigrateIn

variable {c : ConsistentHash} {known : String → ℕ → Prop} {m : SortedRing} {v : ℤ}
  {key : String} {nodeIDs : List String}

theorem migrateIn_shared (hmig : c.migrator = true) (h : Represents c.hashRing m)
    (hl : SortedMap.lookup m v = some nodeIDs) (hlen : 1 < nodeIDs.length) (nodeID : String) :
    c.migrateIn v nodeID = some (c, .ok noMigration) := by
  rw [ConsistentHash.migrateIn, hmig, h.node_of_lookup hl]
  simp [hlen]

/-- **`migrateIn` at a score of its own** does nothing when there is no other score, and else
takes the data keys on the arc from the node at the next score. -/
theorem migrateIn_single (hmig : c.migrator = true)
    (h : RingInv c.encryptor known c.hashRing m) (hl : SortedMap.lookup m v = some [key])
    (nodeID : String) :
    ((∀ d, IsNext (SortedMap.keys m) d v) ∧
      c.migrateIn v nodeID = some (c, .ok noMigration)) ∨
    ∃ nxt t, IsNext (SortedMap.keys m) (succ maxInt32 v) nxt ∧ nxt ≠ v ∧
      m.nodeAt nxt = some t.source ∧ t.target = nodeID ∧
      (∀ k, k ∈ t.datas ↔ k ∈ c.hashRing.dataKeys t.source ∧
        IsNext (SortedMap.keys m) (c.encryptor.encrypt k) v) ∧
      c.migrateIn v nodeID = some ({ c with
        hashRing := c.hashRing.moveDataKeys t.source t.target t.datas }, .ok t) := by
  have hv := SortedMap.mem_keys_of_lookup hl
  obtain ⟨hv₀, hvM⟩ := h.range v hv
  have hne := ne_nil_of_mem_keys hv
  obtain ⟨last, hfloor, hlast, hlast1⟩ := h.floor_eq hne (pred maxInt32 v)
  obtain ⟨nxt, hceil, hnext, hnext1⟩ := h.ceiling_eq hne (succ maxInt32 v)
  obtain ⟨hl₀, hlM⟩ := h.range last hlast.1
  have harc := fun d => isNext_iff_arc (d := d) h.range hv hlast
  rw [ConsistentHash.migrateIn, hmig, h.repr.node_of_lookup hl, decrScore_eq hv₀ hvM,
    incrScore_eq hv₀ hvM, hfloor, hceil]
  by_cases hlv : last = v
  · refine .inl ⟨fun d => (harc d).mpr (.inl hlv), ?_⟩
    simp [hlv]
  · have hnv := ne_of_isNext_succ h.range hlast.1 hlv hnext
    obtain ⟨id, rest, source, -, hid, hsource, hnode, -⟩ := h.head hnext.1
    refine .inr ⟨nxt, ⟨source, nodeID, (c.hashRing.dataKeys source).filter fun dataKey =>
      ConsistentHash.gained last v nxt (c.encryptor.encrypt dataKey)⟩, hnext, hnv, hnode, rfl,
      fun k => ?_, ?_⟩
    · have hgained := gained_iff hl₀ hlM hv₀ hvM (c.encryptor.nonneg k) (c.encryptor.lt k)
        fun hlt => lt_of_isPrev_of_isNext h.range hv hlast hlt hnext.1
      rw [Finset.mem_filter, hgained, harc]
      simp only [hlv, false_or]
    · simp [hlast1, hlv, hnext1, hnv, h.repr.node_of_lookup hid, hsource]

end MigrateIn

/-! ### `migrateOut` -/

section MigrateOut

variable {enc : Encryptor} {known : String → ℕ → Prop} {s : SkiplistHashRing} {m : SortedRing}
  {n : String}

/-- **`getValidNextNode`** ends.  From a score without heirs it finds the heir, or the node itself
when it stops at two of its own ids, and then the next score belongs to the node.  It returns the
empty string for the node with that id, or when there is no heir. -/
theorem getValidNextNode_spec (h : RingInv enc known s m) {fuel : ℕ} {score : ℤ}
    {ranged : Finset ℤ} (hf : RangedFuel m fuel score ranged) (ht : Trail m n score ranged) :
    ∃ target, ConsistentHash.getValidNextNode s n fuel score ranged = some (.ok target) ∧
      (heirKeys n m = ∅ ∧ target = "" ∨ (∃ i, known target i) ∧
        (target ≠ n → Heir m n score target) ∧
        (target = n → ∀ nxt, IsNext (SortedMap.keys m) (succ maxInt32 score) nxt →
          m.nodeAt nxt = some n)) := by
  obtain ⟨target, hrun, hspec⟩ := h.named.getValidNextNode_spec hf ht
  refine ⟨target, hrun, hspec.imp_right fun hfound => ⟨?_, hfound.heir, ?_⟩⟩
  · obtain ⟨v, id, ⟨nodeIDs, hl, hmem⟩, hid⟩ := hfound.mem
    obtain ⟨x, i, -, hx, hk⟩ := h.getNodeID_of_mem hl hmem
    rw [hid, Option.some.injEq] at hx
    exact ⟨i, hx ▸ hk⟩
  · exact fun he => (hfound.self he).2

end MigrateOut

section Released

variable {c : ConsistentHash} {known : String → ℕ → Prop} {m : SortedRing} {v : ℤ} {n : String}

/-- The arc of the score stays with the node when one of its ids is taken away: there is a second
one, or the next score is the node's. -/
def StaysWith (m : SortedRing) (v : ℤ) (n : String) : Prop :=
  (∃ id₁ id₂ rest, SortedMap.lookup m v = some (id₁ :: id₂ :: rest) ∧
    getNodeID id₁ = some n ∧ getNodeID id₂ = some n) ∨
  ∃ id nxt, SortedMap.lookup m v = some [id] ∧
    IsNext (SortedMap.keys m) (succ maxInt32 v) nxt ∧ nxt ≠ v ∧ m.nodeAt nxt = some n

/-- What `migrateOut` moves away from the node: nothing, when the score is not the node's or the
node has no data, and else the data keys on the arc, to the heir or to the node itself. -/
def Released (c : ConsistentHash) (m : SortedRing) (v : ℤ) (n : String) (t : Migration) : Prop :=
  t.source = n ∧
  ((t.datas = ∅ ∧ (m.nodeAt v ≠ some n ∨ c.hashRing.dataKeys n = ∅)) ∨
    (t.target ≠ "" ∧
      (∀ k, k ∈ t.datas ↔ k ∈ c.hashRing.dataKeys n ∧
        IsNext (SortedMap.keys m) (c.encryptor.encrypt k) v) ∧
      (t.target ≠ n → Heir m n v t.target) ∧ (t.target = n → StaysWith m v n)))

/-- The data keys go to a known node, the heir or the node itself. -/
structure HandsOver (c : ConsistentHash) (known : String → ℕ → Prop) (m : SortedRing) (v : ℤ)
    (n target : String) (datas : Finset String) : Prop where
  known : ∃ i, known target i
  arc : ∀ k, k ∈ datas ↔ k ∈ c.hashRing.dataKeys n ∧
    IsNext (SortedMap.keys m) (c.encryptor.encrypt k) v
  heir : target ≠ n → Heir m n v target
  stays : target = n → StaysWith m v n

/-- The test of the loop of `findMigrateOut` is the arc. -/
theorem mem_filter_lost_iff (h : RingInv c.encryptor known c.hashRing m)
    (hv : v ∈ SortedMap.keys m) {last : ℤ}
    (hlast : IsPrev (SortedMap.keys m) (pred maxInt32 v) last) (hlast1 : last ≠ -1) (k : String) :
    (k ∈ (c.hashRing.dataKeys n).filter fun data => decide (last = -1 ∨ last = v) = true ∨
        ConsistentHash.lost last v (c.encryptor.encrypt data) = true) ↔
      k ∈ c.hashRing.dataKeys n ∧ IsNext (SortedMap.keys m) (c.encryptor.encrypt k) v := by
  obtain ⟨hv₀, hvM⟩ := h.range v hv
  obtain ⟨hl₀, hlM⟩ := h.range last hlast.1
  rw [Finset.mem_filter, isNext_iff_arc h.range hv hlast,
    lost_iff hl₀ hlM hv₀ hvM (c.encryptor.nonneg k) (c.encryptor.lt k)]
  simp only [hlast1, false_or, decide_eq_true_eq]

/-- **`findMigrateOut`** at a score on the ring returns no data when the score is not the node's
or the node has none, and else the data keys on the arc with a target.  It fails when the node has
data and no other node is on the ring, or one with the empty id. -/
theorem findMigrateOut_cases (h : RingInv c.encryptor known c.hashRing m)
    (hv : v ∈ SortedMap.keys m) :
    ∃ r, c.findMigrateOut v n = some r ∧
      ((r = .ok ⟨n, "", ∅⟩ ∧ (m.nodeAt v ≠ some n ∨ c.hashRing.dataKeys n = ∅)) ∨
      (∃ target datas, r = .ok ⟨n, target, datas⟩ ∧ HandsOver c known m v n target datas) ∨
      ∃ err, r = .error err ∧ c.hashRing.dataKeys n ≠ ∅ ∧
        (heirKeys n m = ∅ ∨ ∃ i, known "" i)) := by
  obtain ⟨id, rest, first, -, hl, hid, hnode, -⟩ := h.head hv
  rw [ConsistentHash.findMigrateOut, h.repr.node_of_lookup hl]
  simp only [Option.bind_eq_bind, Option.bind_some, hid]
  by_cases hfirst : first = n
  · subst hfirst
    simp only [ne_eq, not_true_eq_false, if_false]
    by_cases hempty : c.hashRing.dataKeys first = ∅
    · rw [if_pos hempty]
      exact ⟨_, rfl, .inl ⟨rfl, .inr hempty⟩⟩
    · obtain ⟨hv₀, hvM⟩ := h.range v hv
      obtain ⟨last, hfloor, hlast, hlast1⟩ := h.floor_eq (ne_nil_of_mem_keys hv)
        (pred maxInt32 v)
      have hdatas := mem_filter_lost_iff (n := first) h hv hlast hlast1
      rw [if_neg hempty, decrScore_eq hv₀ hvM, hfloor]
      simp only [Option.bind_some]
      cases rest with
      | cons id₂ rest =>
        obtain ⟨second, i, -, hid₂, hk⟩ := h.getNodeID_of_mem hl
          (List.mem_cons_of_mem id List.mem_cons_self)
        simp only [reduceCtorEq, and_false, if_false, hid₂, Option.bind_some]
        refine ⟨_, rfl, .inr (.inl ⟨second, _, rfl, ⟨i, hk⟩, hdatas, fun hne => ?_, fun he => ?_⟩)⟩
        · exact heir_at (heirAt_second hl hid hid₂ hne) hid₂
        · exact .inl ⟨id, id₂, rest, hl, hid, by rw [hid₂, he]⟩
      | nil =>
        have hbare := heirAt_of_single hl hid
        by_cases honly : last = v
        · -- the score is the only one
          simp only [honly, or_true, decide_true, and_self, if_true]
          refine ⟨_, rfl, .inr (.inr ⟨_, rfl, hempty, .inl ?_⟩)⟩
          refine Set.eq_empty_of_forall_notMem fun w hw => hw ?_
          have hnext := (isNext_iff_arc (d := w) h.range hv hlast).mpr (.inl honly)
          rw [(isNext_self (heirKeys_subset hw)).unique hnext]
          exact hbare
        · have hfuel : RangedFuel m c.hashRing.size v ∅ := by
            refine .inl ⟨Finset.notMem_empty v, ?_⟩
            rw [Finset.sdiff_empty]
            refine lt_of_le_of_lt (List.toFinset_card_le _) ?_
            rw [List.length_map]
            exact h.repr.length_lt
          obtain ⟨target, hrun, hspec⟩ := getValidNextNode_spec h hfuel
            ⟨hv, hbare, fun y hy => absurd hy (Finset.notMem_empty y)⟩
          have hcond : ¬ (decide (last = -1 ∨ last = v) = true ∧ ([] : List String) = []) := by
            simp [hlast1, honly]
          rw [if_neg hcond, hrun]
          simp only [Option.bind_some]
          by_cases htarget : target = ""
          · rw [if_pos htarget]
            refine ⟨_, rfl, .inr (.inr ⟨_, rfl, hempty, hspec.imp And.left fun hs => ?_⟩)⟩
            rw [← htarget]
            exact hs.1
          · rw [if_neg htarget]
            rcases hspec with ⟨-, he⟩ | ⟨hk, hheir, hstays⟩
            · exact absurd he htarget
            · refine ⟨_, rfl, .inr (.inl ⟨target, _, rfl, hk, hdatas, hheir, fun he => .inr ?_⟩)⟩
              obtain ⟨nxt, -, hn, -⟩ := h.ceiling_eq (ne_nil_of_mem_keys hv) (succ maxInt32 v)
              exact ⟨id, nxt, hl, hn, ne_of_isNext_succ h.range hlast.1 honly hn,
                hstays he nxt hn⟩
  · simp only [ne_eq, hfirst, not_false_eq_true, if_true]
    refine ⟨_, rfl, .inl ⟨rfl, .inl ?_⟩⟩
    rw [hnode]
    exact fun he => hfirst (Option.some.inj he)

theorem findMigrateOut_spec (h : RingInv c.encryptor known c.hashRing m)
    (hvalid : ∀ x i, known x i → ValidID x) :
    ∃ r, c.findMigrateOut v n = some r ∧ ∀ t, r = .ok t → Released c m v n t := by
  by_cases hv : v ∈ SortedMap.keys m
  · obtain ⟨r, hrun, hcases⟩ := findMigrateOut_cases (n := n) h hv
    refine ⟨r, hrun, fun t ht => ?_⟩
    rcases hcases with ⟨rfl, hnone⟩ | ⟨target, datas, rfl, hover⟩ | ⟨err, rfl, -⟩
    · obtain rfl := Except.ok.inj ht
      exact ⟨rfl, .inl ⟨rfl, hnone⟩⟩
    · obtain rfl := Except.ok.inj ht
      obtain ⟨i, hk⟩ := hover.known
      exact ⟨rfl, .inr ⟨(hvalid target i hk).1, hover.arc, hover.heir, hover.stays⟩⟩
    · cases ht
  · have hl : SortedMap.lookup m v = none := not_not.mp hv
    rw [ConsistentHash.findMigrateOut, h.repr.node_eq, SortedRing.node, hl]
    refine ⟨_, rfl, fun t ht => ?_⟩
    cases ht

/-- The calls on one virtual node change the records only. -/
structure SameRing (c c' : ConsistentHash) : Prop where
  heap : c'.hashRing.heap = c.hashRing.heap
  size : c'.hashRing.size = c.hashRing.size
  nodeToReplicas : c'.hashRing.nodeToReplicas = c.hashRing.nodeToReplicas
  migrator : c'.migrator = c.migrator
  encryptor : c'.encryptor = c.encryptor
  replicas : c'.replicas = c.replicas

theorem sameRing_refl (c : ConsistentHash) : SameRing c c := ⟨rfl, rfl, rfl, rfl, rfl, rfl⟩

theorem sameRing_move (c : ConsistentHash) (source target : String) (datas : Finset String) :
    SameRing c { c with hashRing := c.hashRing.moveDataKeys source target datas } := by
  obtain ⟨hheap, hsize, hrep⟩ := moveDataKeys_frame c.hashRing source target datas
  exact ⟨hheap, hsize, hrep, rfl, rfl, rfl⟩

theorem Migration.apply_of_empty {t : Migration} (h : t.datas = ∅) (loc : String → String) :
    t.apply loc = loc := by
  funext k
  rw [Migration.apply, h, if_neg (Finset.notMem_empty k)]

/-- **`migrateOut`** moves what is released, in the records. -/
theorem migrateOut_spec (hmig : c.migrator = true)
    (h : RingInv c.encryptor known c.hashRing m) (hvalid : ∀ x i, known x i → ValidID x) :
    ∃ c' r, c.migrateOut v n = some (c', r) ∧ ∀ t, r = .ok t → Released c m v n t ∧
      SameRing c c' ∧ ∀ recorded loc, Located c.hashRing recorded loc →
        Located c'.hashRing recorded (t.apply loc) := by
  obtain ⟨r, hrun, hspec⟩ := findMigrateOut_spec (v := v) (n := n) h hvalid
  have hif : (!c.migrator) = false := by rw [hmig]; rfl
  rw [ConsistentHash.migrateOut, hif, hrun]
  simp only [Bool.false_eq_true, if_false, Option.bind_eq_bind, Option.bind_some]
  cases r with
  | error err => exact ⟨_, _, rfl, nofun⟩
  | ok t =>
    have hrel := hspec t rfl
    by_cases hnone : t.target = "" ∨ t.datas = ∅
    · simp only [if_pos hnone]
      refine ⟨_, _, rfl, fun t' ht => ?_⟩
      obtain rfl := Except.ok.inj ht
      refine ⟨hrel, sameRing_refl c, fun recorded loc hloc => ?_⟩
      have hempty : t.datas = ∅ := by
        rcases hnone with htarget | hempty
        · rcases hrel.2 with ⟨hempty, -⟩ | ⟨hne, -⟩
          · exact hempty
          · exact absurd htarget hne
        · exact hempty
      rw [Migration.apply_of_empty hempty]
      exact hloc
    · simp only [if_neg hnone]
      refine ⟨_, _, rfl, fun t' ht => ?_⟩
      obtain rfl := Except.ok.inj ht
      refine ⟨hrel, sameRing_move c _ _ _, fun recorded loc hloc => ?_⟩
      have hmove := hloc.move (t := t) ?_
      · rw [hrel.1] at hmove
        exact hmove
      · intro k hk
        rw [hrel.1]
        rcases hrel.2 with ⟨hempty, -⟩ | ⟨-, hdatas, -⟩
        · rw [hempty] at hk
          cases hk
        · exact ((hdatas k).mp hk).1

end Released

end Aster.Local
