import Aster.Lib.Transition
import Aster.Local.Placement

/-!
# The virtual nodes on the ring

Here nothing is assumed of the node ids, and the migrator may be missing.  `Holds` says that the
ring has exactly the known virtual nodes, each at its hash.  `AddNode` always keeps this, and so
does `RemoveNode` when it returns no error; on the way the ids of the other nodes stay as they
are at every score (`Frame`).  `RemoveNode` fails on a node of the ring only when the node has
data keys to hand over and finds nobody, or the node with the empty id, to take them.
-/

namespace Aster.Local

open Aster.Lib Aster.Lib.CyclicOrder

/-- The ring has exactly the known virtual nodes, each at its hash. -/
structure Holds (enc : Encryptor) (known : String → ℕ → Prop) (s : SkiplistHashRing)
    (m : SortedRing) : Prop where
  repr : Represents s m
  has : ∀ v id, m.Has v id ↔ ∃ x i, known x i ∧ id = getRawNodeKey x i ∧ v = enc.encrypt id

section Ring

variable {enc : Encryptor} {known known' : String → ℕ → Prop} {s s' : SkiplistHashRing}
  {m : SortedRing} {n : String} {i : ℕ}

theorem Holds.ring (h : Holds enc known s m) : RingInv enc known s m := by
  refine ⟨h.repr, fun v nodeIDs hl id hid => ?_⟩
  obtain ⟨x, i, hk, hid, hv⟩ := (h.has v id).mp ⟨nodeIDs, hl, hid⟩
  exact ⟨hv.symm, x, i, hid, hk⟩

theorem Holds.congr (h : Holds enc known s m) (hheap : s'.heap = s.heap)
    (hsize : s'.size = s.size) (hk : ∀ x i, known' x i ↔ known x i) : Holds enc known' s' m := by
  refine ⟨h.repr.congr hheap hsize, fun v id => ?_⟩
  simp only [h.has, hk]

theorem Holds.lookup (h : Holds enc known s m) {x : String} (hk : known x i) :
    m.Has (enc.encrypt (getRawNodeKey x i)) (getRawNodeKey x i) :=
  (h.has _ _).mpr ⟨x, i, hk, rfl, rfl⟩

theorem Holds.add (h : Holds enc known s m)
    (hrep : Represents s' (m.add (enc.encrypt (getRawNodeKey n i)) (getRawNodeKey n i))) :
    Holds enc (fun x j => known x j ∨ (x = n ∧ j = i)) s'
      (m.add (enc.encrypt (getRawNodeKey n i)) (getRawNodeKey n i)) := by
  refine ⟨hrep, fun v id => ?_⟩
  rw [has_add, h.has]
  constructor
  · rintro (⟨x, j, hk, hid, hv⟩ | ⟨rfl, rfl⟩)
    · exact ⟨x, j, .inl hk, hid, hv⟩
    · exact ⟨n, i, .inr ⟨rfl, rfl⟩, rfl, rfl⟩
  · rintro ⟨x, j, hk | ⟨rfl, rfl⟩, rfl, hv⟩
    · exact .inl ⟨x, j, hk, rfl, hv⟩
    · exact .inr ⟨hv, rfl⟩

theorem Holds.rem (h : Holds enc known s m) (hk : known n i)
    (hrep : Represents s'
      (m.rem (enc.encrypt (getRawNodeKey n i)) (getRawNodeKey n i)).1) :
    Holds enc (fun x j => known x j ∧ ¬ (x = n ∧ j = i)) s'
      (m.rem (enc.encrypt (getRawNodeKey n i)) (getRawNodeKey n i)).1 := by
  obtain ⟨nodeIDs, hl, hmem⟩ := h.lookup hk
  refine ⟨hrep, fun v id => ?_⟩
  rw [has_rem hl (h.repr.ids hl).2 hmem, h.has]
  constructor
  · rintro ⟨⟨x, j, hk, rfl, rfl⟩, hne⟩
    refine ⟨x, j, ⟨hk, ?_⟩, rfl, rfl⟩
    rintro ⟨rfl, rfl⟩
    exact hne ⟨rfl, rfl⟩
  · rintro ⟨x, j, ⟨hk, hne⟩, rfl, rfl⟩
    refine ⟨⟨x, j, hk, rfl, rfl⟩, fun he => hne ?_⟩
    exact getRawNodeKey_inj.mp he.2

/-- Another node on the ring is an heir. -/
theorem Holds.heirKeys_ne (h : Holds enc known s m) {x : String} (hk : known x i) (hx : x ≠ n) :
    heirKeys n m ≠ ∅ := by
  obtain ⟨nodeIDs, hl, hmem⟩ := h.lookup hk
  refine Set.nonempty_iff_ne_empty.mp ⟨enc.encrypt (getRawNodeKey x i), mem_heirKeys.mpr ?_⟩
  rw [othersAt, hl]
  refine List.ne_nil_of_mem (List.mem_filter.mpr ⟨hmem, ?_⟩)
  rw [getNodeID_getRawNodeKey]
  simpa using hx

/-- When the node is not on the ring, all ids are of others. -/
theorem Holds.othersAt_eq (h : Holds enc known s m) (hn : ∀ j, ¬ known n j) (v : ℤ) :
    (SortedMap.lookup m v).getD [] = othersAt n m v := by
  rw [othersAt]
  cases hl : SortedMap.lookup m v with
  | none => rfl
  | some nodeIDs =>
    refine (List.filter_eq_self.mpr fun id hid => ?_).symm
    obtain ⟨x, j, -, hget, hk⟩ := h.ring.getNodeID_of_mem hl hid
    rw [hget]
    have hx : x ≠ n := by
      rintro rfl
      exact hn j hk
    simpa using hx

end Ring

/-! ### The records -/

theorem dataKeys_moveDataKeys (s : SkiplistHashRing) (source target x : String)
    (datas : Finset String) :
    (s.moveDataKeys source target datas).dataKeys x =
      (if x = source then s.dataKeys x \ datas else s.dataKeys x) ∪
        if x = target then datas else ∅ := by
  rw [SkiplistHashRing.moveDataKeys, dataKeys_addNodeToDataKeys]
  by_cases hx : x = target
  · subst hx
    rw [if_pos rfl, if_pos rfl, dataKeys_deleteNodeToDataKeys]
    by_cases hs : x = source
    · rw [if_pos hs, if_pos hs, hs]
    · rw [if_neg hs, if_neg hs]
  · rw [if_neg hx, if_neg hx, Finset.union_empty, dataKeys_deleteNodeToDataKeys]
    by_cases hs : x = source
    · rw [if_pos hs, if_pos hs, hs]
    · rw [if_neg hs, if_neg hs]

/-- The node hands its data keys over to some of the `takers`, and those under its first `r` node
keys may be gone. -/
structure HandedOver (takers : String → Prop) (n : String) (r : ℕ) (s s' : SkiplistHashRing) :
    Prop where
  own : s'.dataKeys n ⊆ s.dataKeys n
  kept : ∀ x, x ≠ n → (∀ i < r, x ≠ getRawNodeKey n i) → s.dataKeys x ⊆ s'.dataKeys x
  under : ∀ x, s'.dataKeys x ≠ ∅ → s.dataKeys x ≠ ∅ ∨ takers x

section Records

variable {takers : String → Prop} {n : String} {r : ℕ} {s s₁ s₂ : SkiplistHashRing}

theorem handedOver_refl (s : SkiplistHashRing) : HandedOver takers n r s s :=
  ⟨subset_rfl, fun _ _ _ => subset_rfl, fun _ h => .inl h⟩

theorem HandedOver.trans (h₁ : HandedOver takers n r s s₁) (h₂ : HandedOver takers n r s₁ s₂) :
    HandedOver takers n r s s₂ := by
  constructor
  case own => exact h₂.own.trans h₁.own
  case kept => exact fun x hx hkeys => (h₁.kept x hx hkeys).trans (h₂.kept x hx hkeys)
  case under =>
    intro x hx
    rcases h₂.under x hx with hx | hk
    · exact h₁.under x hx
    · exact .inr hk

theorem HandedOver.mono (h : HandedOver takers n r s s₁) {takers' : String → Prop}
    (htakers : ∀ x, takers x → takers' x) : HandedOver takers' n r s s₁ :=
  ⟨h.own, h.kept, fun x hx => (h.under x hx).imp_right (htakers x)⟩

theorem handedOver_move {target : String} {datas : Finset String}
    (hdatas : datas ⊆ s.dataKeys n) (hk : takers target) :
    HandedOver takers n r s (s.moveDataKeys n target datas) := by
  constructor
  case own =>
    rw [dataKeys_moveDataKeys, if_pos rfl]
    refine Finset.union_subset Finset.sdiff_subset ?_
    split_ifs
    · exact hdatas
    · exact Finset.empty_subset _
  case kept =>
    intro x hx _
    rw [dataKeys_moveDataKeys, if_neg hx]
    exact Finset.subset_union_left
  case under =>
    intro x hx
    by_cases ht : x = target
    · rw [ht]
      exact .inr hk
    · refine .inl fun hempty => hx ?_
      rw [dataKeys_moveDataKeys, if_neg ht, hempty, Finset.empty_sdiff, ite_self]
      rfl

/-- `Rem` forgets the data keys under the node key. -/
theorem handedOver_erase {i : ℕ} (hi : i < r) (hdata : s₁.nodeToDataKey =
    s.nodeToDataKey.erase (getRawNodeKey n i)) : HandedOver takers n r s s₁ := by
  have hkeys : ∀ x, s₁.dataKeys x = if x = getRawNodeKey n i then ∅ else s.dataKeys x := by
    intro x
    rw [SkiplistHashRing.dataKeys, hdata]
    split_ifs with hx
    · rw [hx, Finmap.lookup_erase]
      rfl
    · rw [Finmap.lookup_erase_ne hx]
      rfl
  have hsub : ∀ x, s₁.dataKeys x ⊆ s.dataKeys x := by
    intro x
    rw [hkeys]
    split_ifs
    · exact Finset.empty_subset _
    · exact subset_rfl
  constructor
  case own => exact hsub n
  case kept =>
    intro x _ hx
    rw [hkeys, if_neg (hx i hi)]
  case under =>
    intro x hx
    refine .inl fun hempty => hx ?_
    exact Finset.subset_empty.mp (hempty ▸ hsub x)

end Records

/-! ### One virtual node -/

section Migrate

variable {c : ConsistentHash} {known : String → ℕ → Prop} {m : SortedRing} {v : ℤ} {n : String}

/-- **`migrateIn`** at a score on the ring returns no error, and takes data keys for the node
only. -/
theorem migrateIn_total (h : RingInv c.encryptor known c.hashRing m)
    (hv : v ∈ SortedMap.keys m) (n : String) :
    ∃ c' t, c.migrateIn v n = some (c', .ok t) ∧ SameRing c c' ∧
      (∀ x, x ≠ n → c'.hashRing.dataKeys x ⊆ c.hashRing.dataKeys x) ∧
      (c.migrator = false → c' = c) := by
  cases hmig : c.migrator with
  | false =>
    refine ⟨c, noMigration, ?_, sameRing_refl c, fun _ _ => subset_rfl, fun _ => rfl⟩
    rw [ConsistentHash.migrateIn, hmig]
    rfl
  | true =>
    obtain ⟨id, rest, -, -, hl, -⟩ := h.head hv
    cases rest with
    | cons id₂ rest =>
      exact ⟨c, noMigration, migrateIn_shared hmig h.repr hl (by simp) n, sameRing_refl c,
        fun _ _ => subset_rfl, fun hf => by cases hf⟩
    | nil =>
      rcases migrateIn_single hmig h hl n with ⟨-, hrun⟩ | ⟨nxt, t, -, -, -, rfl, -, hrun⟩
      · exact ⟨c, noMigration, hrun, sameRing_refl c, fun _ _ => subset_rfl, fun hf => by cases hf⟩
      · refine ⟨_, t, hrun, sameRing_move c _ _ _, fun x hx => ?_, fun hf => by cases hf⟩
        rw [dataKeys_moveDataKeys, if_neg hx, Finset.union_empty]
        split_ifs
        · exact Finset.sdiff_subset
        · exact subset_rfl

/-- What is said of the errors of a call that returns none. -/
theorem not_error {α : Type} {P : String → Prop} (a : α) (err : String)
    (h : (Except.ok a : Except String α) = .error err) : P err := by
  cases h

/-- **`migrateOut`** at a score on the ring changes the records only.  It fails when the node has
data keys and there is no heir, or a node with the empty id. -/
theorem migrateOut_total (h : RingInv c.encryptor known c.hashRing m)
    (hv : v ∈ SortedMap.keys m) (n : String) (r : ℕ) :
    ∃ c' res, c.migrateOut v n = some (c', res) ∧ SameRing c c' ∧
      HandedOver (fun x => ∃ i, known x i) n r c.hashRing c'.hashRing ∧
      (c.migrator = false → c' = c) ∧
      ∀ err, res = .error err → c.migrator = true ∧ c.hashRing.dataKeys n ≠ ∅ ∧
        (heirKeys n m = ∅ ∨ ∃ i, known "" i) := by
  rw [ConsistentHash.migrateOut]
  by_cases hmig : c.migrator = true
  · obtain ⟨res, hrun, hcases⟩ := findMigrateOut_cases (n := n) h hv
    have hno : c.migrator = false → c.migrator ≠ true := fun hf => by simp [hf]
    rw [if_neg (by simp [hmig]), hrun]
    simp only [Option.bind_eq_bind, Option.bind_some]
    rcases hcases with ⟨rfl, -⟩ | ⟨target, datas, rfl, hover⟩ | ⟨err, rfl, hdata, hwhy⟩
    · exact ⟨c, _, rfl, sameRing_refl c, handedOver_refl _, fun _ => rfl, not_error _⟩
    · by_cases hnone : target = "" ∨ datas = ∅
      · simp only [if_pos hnone]
        exact ⟨c, _, rfl, sameRing_refl c, handedOver_refl _, fun _ => rfl, not_error _⟩
      · simp only [if_neg hnone]
        refine ⟨_, _, rfl, sameRing_move c _ _ _, ?_, fun hf => absurd hmig (hno hf), not_error _⟩
        exact handedOver_move (fun k hk => ((hover.arc k).mp hk).1) hover.known
    · exact ⟨c, _, rfl, sameRing_refl c, handedOver_refl _, fun _ => rfl,
        fun _ _ => ⟨hmig, hdata, hwhy⟩⟩
  · rw [if_pos (by simpa using hmig)]
    exact ⟨c, _, rfl, sameRing_refl c, handedOver_refl _, fun _ => rfl, not_error _⟩

end Migrate

/-! ### The loops -/

/-- Only the virtual nodes and the records of one node are concerned: the options, the replicas
and the ids of the others at every score stay. -/
structure Frame (n : String) (c c' : ConsistentHash) (m m' : SortedRing) : Prop where
  encryptor : c'.encryptor = c.encryptor
  migrator : c'.migrator = c.migrator
  replicas : c'.replicas = c.replicas
  nodes : c'.hashRing.nodeToReplicas = c.hashRing.nodeToReplicas
  others : ∀ v, othersAt n m' v = othersAt n m v

section Loops

variable {c c₁ c₂ : ConsistentHash} {known : String → ℕ → Prop} {m m₁ m₂ : SortedRing}
  {n : String}

theorem Frame.trans (h₁ : Frame n c c₁ m m₁) (h₂ : Frame n c₁ c₂ m₁ m₂) : Frame n c c₂ m m₂ := by
  constructor
  case encryptor => exact h₂.encryptor.trans h₁.encryptor
  case migrator => exact h₂.migrator.trans h₁.migrator
  case replicas => exact h₂.replicas.trans h₁.replicas
  case nodes => exact h₂.nodes.trans h₁.nodes
  case others => exact fun v => (h₂.others v).trans (h₁.others v)

/-- A virtual node comes. -/
theorem Holds.add_step (h : Holds c.encryptor known c.hashRing m) (n : String) (i rLevel : ℕ) :
    ∃ s c' t m', c.hashRing.add (c.encryptor.encrypt (getRawNodeKey n i)) (getRawNodeKey n i)
        rLevel = some s ∧
      ConsistentHash.migrateIn { c with hashRing := s }
        (c.encryptor.encrypt (getRawNodeKey n i)) n = some (c', .ok t) ∧
      Frame n c c' m m' ∧
      Holds c.encryptor (fun x j => known x j ∨ (x = n ∧ j = i)) c'.hashRing m' ∧
      (∀ x, x ≠ n → c'.hashRing.dataKeys x ⊆ c.hashRing.dataKeys x) ∧
      (c.migrator = false → c'.hashRing.nodeToDataKey = c.hashRing.nodeToDataKey) := by
  obtain ⟨s, hadd, hrep, hreps, hdata⟩ :=
    h.repr.add_eq (c.encryptor.encrypt (getRawNodeKey n i)) (getRawNodeKey n i) rLevel
  have hholds := h.add hrep
  obtain ⟨nodeIDs, hl, -⟩ := hholds.lookup (.inr ⟨rfl, rfl⟩)
  obtain ⟨c', t, hrun, hsame, hkeys, hidle⟩ :=
    migrateIn_total (c := { c with hashRing := s }) hholds.ring
      (SortedMap.mem_keys_of_lookup hl) n
  refine ⟨s, c', t, _, hadd, hrun, ?_, hholds.congr hsame.heap hsame.size fun _ _ => Iff.rfl,
    fun x hx => ?_, fun hmig => ?_⟩
  · constructor
    case encryptor => exact hsame.encryptor
    case migrator => exact hsame.migrator
    case replicas => exact hsame.replicas
    case nodes => exact hsame.nodeToReplicas.trans hreps
    case others => exact othersAt_add m _ (getNodeID_getRawNodeKey n i)
  · have hold : s.dataKeys x = c.hashRing.dataKeys x := by
      rw [SkiplistHashRing.dataKeys, hdata]
      rfl
    rw [← hold]
    exact hkeys x hx
  · rw [hidle hmig]
    exact hdata

/-- The loop of `AddNode` puts its virtual nodes on the ring. -/
theorem Holds.addLoop (h : Holds c.encryptor known c.hashRing m) (n : String) (rolls : ℕ → ℕ)
    (left i : ℕ) (tasks : List Migration) :
    ∃ c' ts m', ConsistentHash.addLoop n rolls left i c tasks = some (c', .ok ts) ∧
      Frame n c c' m m' ∧
      Holds c.encryptor (fun x j => known x j ∨ (x = n ∧ i ≤ j ∧ j < i + left)) c'.hashRing m' ∧
      (∀ x, x ≠ n → c'.hashRing.dataKeys x ⊆ c.hashRing.dataKeys x) ∧
      (c.migrator = false → c'.hashRing.nodeToDataKey = c.hashRing.nodeToDataKey) := by
  induction left generalizing i c m known tasks with
  | zero =>
    refine ⟨c, tasks, m, rfl, ⟨rfl, rfl, rfl, rfl, fun _ => rfl⟩, h.congr rfl rfl fun x j => ?_,
      fun _ _ => subset_rfl, fun _ => rfl⟩
    rw [or_iff_left]
    omega
  | succ left ih =>
    obtain ⟨s, c₁, t, m₁, hadd, hin, hframe, hholds, hkeys, hidle⟩ := h.add_step n i (rolls i)
    rw [← hframe.encryptor] at hholds
    obtain ⟨c', ts, m', hrun, hframe', hholds', hkeys', hidle'⟩ :=
      ih hholds (i + 1) (ConsistentHash.addTask tasks t)
    refine ⟨c', ts, m', ?_, hframe.trans hframe', ?_, fun x hx => (hkeys' x hx).trans (hkeys x hx),
      fun hmig => (hidle' (hframe.migrator.trans hmig)).trans (hidle hmig)⟩
    · rw [ConsistentHash.addLoop, hadd]
      simp only [Option.bind_eq_bind, Option.bind_some, hin]
      exact hrun
    · rw [← hframe.encryptor]
      refine hholds'.congr rfl rfl fun x j => ?_
      rw [or_assoc, ← and_or_left]
      refine or_congr_right (and_congr_right fun _ => ?_)
      omega

/-- The virtual nodes that are left when the first `i` of the node are gone. -/
def Remaining (replicas : Finmap fun _ : String => ℤ) (n : String) (i r : ℕ) (x : String)
    (j : ℕ) : Prop :=
  Known replicas x j ∨ (x = n ∧ i ≤ j ∧ j < r)

/-- The node has data keys to hand over, and no other node, or a node with the empty id, is on the
ring. -/
def Stranded (c : ConsistentHash) (n : String) : Prop :=
  c.migrator = true ∧ c.hashRing.dataKeys n ≠ ∅ ∧
    ((∀ x j, ¬ Known c.hashRing.nodeToReplicas x j) ∨ n = "" ∨ "" ∈ c.hashRing.nodeToReplicas)

/-- A virtual node goes, unless the node is stranded. -/
theorem Holds.remove_step {i r : ℕ} (hi : i < r) (hgone : n ∉ c.hashRing.nodeToReplicas)
    (h : Holds c.encryptor (Remaining c.hashRing.nodeToReplicas n i r) c.hashRing m) :
    ∃ c₁ res, c.migrateOut (c.encryptor.encrypt (getRawNodeKey n i)) n = some (c₁, res) ∧
      (∀ err, res = .error err → Stranded c n) ∧
      ∃ s m', c₁.hashRing.rem (c.encryptor.encrypt (getRawNodeKey n i)) (getRawNodeKey n i) =
          some (s, none) ∧ Frame n c { c₁ with hashRing := s } m m' ∧
        Holds c.encryptor (Remaining c.hashRing.nodeToReplicas n (i + 1) r) s m' ∧
        HandedOver (fun x => x ∈ c.hashRing.nodeToReplicas ∨ x = n) n r c.hashRing s ∧
        (c.migrator = false →
          s.nodeToDataKey = c.hashRing.nodeToDataKey.erase (getRawNodeKey n i)) := by
  have hself : Remaining c.hashRing.nodeToReplicas n i r n i := .inr ⟨rfl, le_rfl, hi⟩
  obtain ⟨nodeIDs, hl, hmem⟩ := h.lookup hself
  obtain ⟨c₁, res, hrun, hsame, hover, hidle, hfail⟩ :=
    migrateOut_total h.ring (SortedMap.mem_keys_of_lookup hl) n r
  refine ⟨c₁, res, hrun, fun err herr => ?_, ?_⟩
  · obtain ⟨hmig, hdata, hwhy⟩ := hfail err herr
    refine ⟨hmig, hdata, ?_⟩
    rcases hwhy with hnone | ⟨j, hk | ⟨hempty, -⟩⟩
    · refine .inl fun x j hk => h.heirKeys_ne (.inl hk) ?_ hnone
      rintro rfl
      exact hgone hk.mem
    · exact .inr (.inr hk.mem)
    · exact .inr (.inl hempty.symm)
  · obtain ⟨s, hrem, hrep, heff⟩ := (h.repr.congr hsame.heap hsame.size).rem_eq
      (c.encryptor.encrypt (getRawNodeKey n i)) (getRawNodeKey n i)
    rw [(rem_of_mem hl hmem).1] at hrem heff
    obtain ⟨hreps, hdata⟩ := heff
    refine ⟨s, _, hrem, ?_, (h.rem hself hrep).congr rfl rfl fun x j => ?_,
      (hover.mono ?_).trans (handedOver_erase hi hdata), fun hmig => ?_⟩
    · constructor
      case encryptor => exact hsame.encryptor
      case migrator => exact hsame.migrator
      case replicas => exact hsame.replicas
      case nodes => exact hreps.trans hsame.nodeToReplicas
      case others => exact othersAt_rem hl hmem (getNodeID_getRawNodeKey n i)
    · have hnot : Known c.hashRing.nodeToReplicas x j → x ≠ n := by
        rintro hk rfl
        exact hgone hk.mem
      rw [Remaining, Remaining]
      by_cases hx : x = n
      · subst hx
        have hk : ¬ Known c.hashRing.nodeToReplicas x j := fun hk => hnot hk rfl
        simp only [hk, false_or, true_and]
        omega
      · simp [hx]
    · rintro x ⟨j, hk | ⟨rfl, -⟩⟩
      · exact .inl hk.mem
      · exact .inr rfl
    · rw [hdata, hidle hmig]

/-- The loop of `RemoveNode` takes the virtual nodes off the ring, unless the node is stranded. -/
theorem Holds.removeLoop {i r : ℕ} (left : ℕ) (hr : i + left = r)
    (hgone : n ∉ c.hashRing.nodeToReplicas)
    (h : Holds c.encryptor (Remaining c.hashRing.nodeToReplicas n i r) c.hashRing m)
    (tasks : List Migration) :
    ∃ c' res, ConsistentHash.removeLoop n left i c tasks = some (c', res) ∧
      (∀ err, res = .error err → Stranded c n) ∧
      ∀ ts, res = .ok ts → ∃ m', Frame n c c' m m' ∧
        Holds c.encryptor (Known c.hashRing.nodeToReplicas) c'.hashRing m' ∧
        HandedOver (fun x => x ∈ c.hashRing.nodeToReplicas ∨ x = n) n r c.hashRing
          c'.hashRing ∧
        (c.migrator = false → ∀ x, (∀ j, x ≠ getRawNodeKey n j) →
          c'.hashRing.dataKeys x = c.hashRing.dataKeys x) := by
  induction left generalizing i c m tasks with
  | zero =>
    refine ⟨c, _, rfl, not_error _, fun ts _ => ⟨m, ⟨rfl, rfl, rfl, rfl, fun _ => rfl⟩,
      h.congr rfl rfl fun x j => ?_, handedOver_refl _, fun _ _ _ => rfl⟩⟩
    rw [Remaining, or_iff_left]
    omega
  | succ left ih =>
    obtain ⟨c₁, res, hout, hfail, s, m₁, hrem, hframe, hholds, hover, hidle⟩ :=
      h.remove_step (by omega) hgone
    rw [ConsistentHash.removeLoop, hout]
    simp only [Option.bind_eq_bind, Option.bind_some]
    cases res with
    | error err => exact ⟨_, _, rfl, fun _ _ => hfail err rfl, fun _ hok => by cases hok⟩
    | ok t =>
      simp only [hrem, Option.bind_some]
      rw [← hframe.nodes] at hgone
      rw [← hframe.encryptor, ← hframe.nodes] at hholds
      obtain ⟨c', res, hrun, hfail', hend⟩ :=
        ih (i := i + 1) (by omega) hgone hholds (ConsistentHash.addTask tasks t)
      refine ⟨c', res, hrun, fun err herr => ?_, fun ts hts => ?_⟩
      · obtain ⟨hmig, hdata, hwhy⟩ := hfail' err herr
        rw [hframe.migrator] at hmig
        rw [hframe.nodes] at hwhy
        exact ⟨hmig, fun hempty => hdata (Finset.subset_empty.mp (hempty ▸ hover.own)), hwhy⟩
      · obtain ⟨m', hframe', hholds', hover', hidle'⟩ := hend ts hts
        rw [hframe.encryptor, hframe.nodes] at hholds'
        rw [hframe.nodes] at hover'
        refine ⟨m', hframe.trans hframe', hholds', hover.trans hover', fun hmig x hx => ?_⟩
        rw [hidle' (hframe.migrator.trans hmig) x hx]
        show (s.nodeToDataKey.lookup x).getD ∅ = _
        rw [hidle hmig, Finmap.lookup_erase_ne (hx i)]
        rfl

end Loops

/-! ### The calls -/

/-- The virtual nodes on the ring are exactly those of its nodes. -/
def OnRing (c : ConsistentHash) (m : SortedRing) : Prop :=
  Holds c.encryptor (Known c.hashRing.nodeToReplicas) c.hashRing m

/-- `RemoveNode` of the node does not fail half-way: nothing has to be handed over, or another
node is on the ring to take it and none has the empty id, which the code takes for no node. -/
def ConsistentHash.Removable (c : ConsistentHash) (n : String) : Prop :=
  c.migrator = false ∨ n ∉ c.hashRing.nodes ∨ c.hashRing.dataKeys n = ∅ ∨
    ("" ∉ c.hashRing.nodes ∧ ∃ x i, x ≠ n ∧ Known c.hashRing.nodes x i)

/-- The state in which the loop of `AddNode` starts. -/
def ConsistentHash.enrolled (c : ConsistentHash) (n : String) (weight : ℤ) : ConsistentHash :=
  { c with
    hashRing := c.hashRing.addNodeToReplica n (int64 (getValidWeight weight * c.replicas)) }

/-- The state in which the loop of `RemoveNode` starts. -/
def ConsistentHash.struckOff (c : ConsistentHash) (n : String) : ConsistentHash :=
  { c with hashRing := c.hashRing.deleteNodeToReplica n }

section Calls

variable {c c' : ConsistentHash} {m : SortedRing} {n : String}

/-- **`AddNode`** of a new node returns no error. -/
theorem OnRing.addNode (h : OnRing c m) (hn : n ∉ c.hashRing.nodes) (weight : ℤ)
    (rolls : ℕ → ℕ) :
    ∃ c' ts m', c.addNode n weight rolls = some (c', .ok ts) ∧ OnRing c' m' ∧
      Frame n (c.enrolled n weight) c' m m' ∧
      (∀ x, x ≠ n → c'.hashRing.dataKeys x ⊆ c.hashRing.dataKeys x) ∧
      (c.migrator = false → c'.hashRing.nodeToDataKey = c.hashRing.nodeToDataKey) := by
  rw [ConsistentHash.addNode, if_neg hn]
  have hstart : Holds (c.enrolled n weight).encryptor (Known c.hashRing.nodeToReplicas)
      (c.enrolled n weight).hashRing m := Holds.congr h rfl rfl fun _ _ => Iff.rfl
  obtain ⟨c', ts, m', hrun, hframe, hholds, hkeys, hidle⟩ :=
    hstart.addLoop n rolls (int64 (getValidWeight weight * c.replicas)).toNat 0 []
  refine ⟨c', ts, m', hrun, ?_, hframe, hkeys, hidle⟩
  rw [OnRing, hframe.encryptor, hframe.nodes]
  refine hholds.congr rfl rfl fun x j => (known_insert hn _ x j).trans ?_
  rw [Nat.zero_add]
  exact or_congr_right (and_congr_right fun _ => ⟨fun hj => ⟨Nat.zero_le j, hj⟩, And.right⟩)

/-- **`RemoveNode`** of a removable node returns no error. -/
theorem OnRing.removeNode (h : OnRing c m) {replicas : ℤ}
    (hn : c.hashRing.nodes.lookup n = some replicas) :
    ∃ c' res, c.removeNode n = some (c', res) ∧
      (∀ err, res = .error err → ¬ c.Removable n) ∧
      ∀ ts, res = .ok ts → ∃ m', OnRing c' m' ∧
        Frame n (c.struckOff n) c' m m' ∧
        HandedOver (· ∈ c.hashRing.nodes) n replicas.toNat c.hashRing c'.hashRing ∧
        (c.migrator = false → ∀ x, (∀ j, x ≠ getRawNodeKey n j) →
          c'.hashRing.dataKeys x = c.hashRing.dataKeys x) := by
  rw [ConsistentHash.removeNode, hn]
  have hmem : n ∈ c.hashRing.nodes := Finmap.mem_of_lookup_eq_some hn
  have hgone : n ∉ (c.struckOff n).hashRing.nodeToReplicas :=
    fun hin => (Finmap.mem_erase.mp hin).1 rfl
  have hknown : ∀ x j, Remaining (c.struckOff n).hashRing.nodeToReplicas n 0 replicas.toNat x j ↔
      Known c.hashRing.nodeToReplicas x j := by
    refine fun x j => Iff.trans ?_ (known_erase hn x j).symm
    exact or_congr_right (and_congr_right fun _ => ⟨And.right, fun hj => ⟨Nat.zero_le j, hj⟩⟩)
  have hstart : Holds (c.struckOff n).encryptor
      (Remaining (c.struckOff n).hashRing.nodeToReplicas n 0 replicas.toNat)
      (c.struckOff n).hashRing m := Holds.congr h rfl rfl hknown
  obtain ⟨c', res, hrun, hfail, hend⟩ :=
    hstart.removeLoop replicas.toNat (Nat.zero_add _) hgone []
  refine ⟨c', res, hrun, fun err herr => ?_, fun ts hts => ?_⟩
  · obtain ⟨hmig, hdata, hwhy⟩ := hfail err herr
    rintro (hno | hno | hno | ⟨hempty, x, i, hx, hk⟩)
    · exact absurd (hmig.symm.trans hno) (by decide)
    · exact hno hmem
    · exact hdata hno
    · rcases hwhy with hnone | rfl | hin
      · exact hnone x i (((known_erase hn x i).mp hk).resolve_right fun hxi => hx hxi.1)
      · exact hempty hmem
      · exact hempty (Finmap.mem_erase.mp hin).2
  · obtain ⟨m', hframe, hholds, hover, hidle⟩ := hend ts hts
    have htakers : ∀ x, x ∈ (c.struckOff n).hashRing.nodeToReplicas ∨ x = n →
        x ∈ c.hashRing.nodes := by
      rintro x (hx | rfl)
      · exact (Finmap.mem_erase.mp hx).2
      · exact hmem
    refine ⟨m', ?_, hframe,
      ⟨hover.own, hover.kept, fun x hx => (hover.under x hx).imp_right (htakers x)⟩, hidle⟩
    rw [OnRing, hframe.encryptor, hframe.nodes]
    exact hholds

/-- **`GetNode`** fails on a ring without virtual nodes, and else records the key with its
owner. -/
theorem OnRing.getNode (h : OnRing c m) (k : String) :
    (∃ err, c.getNode k = some (c, .error err)) ∨
    ∃ x i, Known c.hashRing.nodes x i ∧ c.ringOwner k = some x ∧
      c.getNode k = some ({ c with hashRing := c.hashRing.addNodeToDataKeys x {k} },
        .ok (splitHead (getRawNodeKey x i))) := by
  rw [ConsistentHash.getNode]
  by_cases hm : m = []
  · have hceil : c.hashRing.ceiling (c.encryptor.encrypt k) = some (-1) := by
      rw [h.repr.ceiling_eq, hm]
      rfl
    rw [hceil]
    exact .inl ⟨_, rfl⟩
  · obtain ⟨w, hceil, hw, hw1⟩ := h.ring.ceiling_eq hm (c.encryptor.encrypt k)
    obtain ⟨id, rest, x, -, hl, hid, hnode, -⟩ := h.ring.head hw.1
    obtain ⟨y, i, rfl, hy, hk⟩ := h.ring.getNodeID_of_mem hl List.mem_cons_self
    obtain rfl := Option.some.inj (hid.symm.trans hy)
    refine .inr ⟨x, i, hk, ?_, ?_⟩
    · show c.ownerAt (c.encryptor.encrypt k) = some x
      rw [h.ring.ownerAt_eq, owner_of_isNext h.repr.ascending hw, hnode]
    · rw [hceil]
      simp only [Option.bind_eq_bind, Option.bind_some, if_neg hw1, h.repr.node_of_lookup hl,
        hid]

/-- A call on a ring with exactly its virtual nodes returns.  With an error nothing has changed,
but for a node that is not removable; without one the ring has exactly its virtual nodes
again. -/
theorem OnRing.call (h : OnRing c m) (op : HashCall) :
    ∃ c' err, c.call op = some (c', err) ∧
      (err = none → (∃ m', OnRing c' m') ∧ c'.encryptor = c.encryptor ∧
        c'.migrator = c.migrator) ∧
      (err ≠ none → (∀ n, op = .removeNode n → c.Removable n) → c' = c) := by
  cases op with
  | addNode n weight rolls =>
    by_cases hn : n ∈ c.hashRing.nodes
    · refine ⟨c, some "repeat node", ?_, fun herr => absurd herr (Option.some_ne_none _),
        fun _ _ => rfl⟩
      rw [ConsistentHash.call, ConsistentHash.addNode, if_pos hn]
      rfl
    · obtain ⟨c', ts, m', hrun, hon, hframe, -⟩ := h.addNode hn weight rolls
      refine ⟨c', none, ?_, fun _ => ⟨⟨m', hon⟩, hframe.encryptor, hframe.migrator⟩,
        fun hne => absurd rfl hne⟩
      rw [ConsistentHash.call, hrun]
      rfl
  | removeNode n =>
    cases hn : c.hashRing.nodes.lookup n with
    | none =>
      refine ⟨c, some "invalid node id", ?_, fun herr => absurd herr (Option.some_ne_none _),
        fun _ _ => rfl⟩
      rw [ConsistentHash.call, ConsistentHash.removeNode, hn]
      rfl
    | some replicas =>
      obtain ⟨c', res, hrun, hfail, hend⟩ := h.removeNode hn
      refine ⟨c', errorOf res, ?_, fun herr => ?_, fun herr hrem => ?_⟩
      · rw [ConsistentHash.call, hrun]
        rfl
      · cases res with
        | error err => cases herr
        | ok ts =>
          obtain ⟨m', hon, hframe, -⟩ := hend ts rfl
          exact ⟨⟨m', hon⟩, hframe.encryptor, hframe.migrator⟩
      · cases res with
        | error err => exact absurd (hrem n rfl) (hfail err rfl)
        | ok ts => exact absurd rfl herr
  | getNode k =>
    rcases h.getNode k with ⟨err, hrun⟩ | ⟨x, i, -, -, hrun⟩
    · refine ⟨c, some err, ?_, fun herr => absurd herr (Option.some_ne_none _), fun _ _ => rfl⟩
      rw [ConsistentHash.call, hrun]
      rfl
    · have hon : OnRing { c with hashRing := c.hashRing.addNodeToDataKeys x {k} } m :=
        Holds.congr h rfl rfl fun _ _ => Iff.rfl
      refine ⟨_, none, ?_, fun _ => ⟨⟨m, hon⟩, rfl, rfl⟩, fun hne => absurd rfl hne⟩
      rw [ConsistentHash.call, hrun]
      rfl

theorem onRing_new (encryptor : Encryptor) (migrator : Bool) (replicas : ℤ) :
    OnRing (newConsistentHash newSkiplistHashRing encryptor migrator replicas) [] := by
  refine ⟨represents_new, fun v id => ⟨?_, ?_⟩⟩
  · rintro ⟨nodeIDs, hl, -⟩
    cases hl
  · rintro ⟨x, i, hk, -⟩
    exact absurd hk.mem Finmap.notMem_empty

theorem OnRing.of_call (h : OnRing c m) {op : HashCall} (hcall : c.call op = some (c', none)) :
    (∃ m', OnRing c' m') ∧ c'.encryptor = c.encryptor ∧ c'.migrator = c.migrator := by
  obtain ⟨c₁, err, hcall₁, hok, -⟩ := h.call op
  rw [hcall] at hcall₁
  obtain ⟨rfl, rfl⟩ := Prod.mk.inj (Option.some.inj hcall₁)
  exact hok rfl

/-- **The invariant rule** for runs without an error. -/
theorem calls_invariant (Inv : ConsistentHash → Prop) {ops : List HashCall}
    (hstep : ∀ c c' op, op ∈ ops → Inv c → c.call op = some (c', none) → Inv c') (h : Inv c)
    (hrun : c.callsWithoutError ops = some c') : Inv c' := by
  induction ops generalizing c with
  | nil => exact Option.some.inj hrun ▸ h
  | cons op ops ih =>
    rw [ConsistentHash.callsWithoutError] at hrun
    obtain ⟨⟨c₁, err⟩, hcall, hrest⟩ := Option.bind_eq_some_iff.mp hrun
    cases err with
    | some err => cases hrest
    | none =>
      refine ih (fun c c' op' hop' => hstep c c' op' (List.mem_cons_of_mem op hop')) ?_ hrest
      exact hstep c c₁ op List.mem_cons_self h hcall

theorem OnRing.calls (h : OnRing c m) {ops : List HashCall}
    (hrun : c.callsWithoutError ops = some c') :
    (∃ m', OnRing c' m') ∧ c'.migrator = c.migrator := by
  refine calls_invariant (fun c' => (∃ m', OnRing c' m') ∧ c'.migrator = c.migrator) ?_
    ⟨⟨m, h⟩, rfl⟩ hrun
  rintro c₁ c₂ op - ⟨⟨m₁, h₁⟩, hmig⟩ hcall
  obtain ⟨hon, -, hmig'⟩ := h₁.of_call hcall
  exact ⟨hon, hmig'.trans hmig⟩

theorem OnRing.of_addNode (h : OnRing c m) {weight : ℤ} {rolls : ℕ → ℕ} {ts : List Migration}
    (hadd : c.addNode n weight rolls = some (c', .ok ts)) :
    n ∉ c.hashRing.nodes ∧ ∃ m', OnRing c' m' ∧ Frame n (c.enrolled n weight) c' m m' ∧
      (∀ x, x ≠ n → c'.hashRing.dataKeys x ⊆ c.hashRing.dataKeys x) ∧
      (c.migrator = false → c'.hashRing.nodeToDataKey = c.hashRing.nodeToDataKey) := by
  have hn : n ∉ c.hashRing.nodes := by
    intro hn
    rw [ConsistentHash.addNode, if_pos hn] at hadd
    cases hadd
  obtain ⟨c₁, ts₁, m₁, hadd₁, hspec⟩ := h.addNode hn weight rolls
  rw [hadd] at hadd₁
  obtain ⟨rfl, -⟩ := Prod.mk.inj (Option.some.inj hadd₁)
  exact ⟨hn, m₁, hspec⟩

theorem OnRing.of_removeNode (h : OnRing c m) {ts : List Migration}
    (hrem : c.removeNode n = some (c', .ok ts)) :
    ∃ replicas m', c.hashRing.nodes.lookup n = some replicas ∧ OnRing c' m' ∧
      Frame n (c.struckOff n) c' m m' ∧
      HandedOver (· ∈ c.hashRing.nodes) n replicas.toNat c.hashRing c'.hashRing ∧
      (c.migrator = false → ∀ x, (∀ j, x ≠ getRawNodeKey n j) →
        c'.hashRing.dataKeys x = c.hashRing.dataKeys x) := by
  cases hl : c.hashRing.nodes.lookup n with
  | none =>
    rw [ConsistentHash.removeNode, hl] at hrem
    cases hrem
  | some replicas =>
    obtain ⟨c₁, res, hrem₁, -, hend⟩ := h.removeNode hl
    rw [hrem] at hrem₁
    obtain ⟨rfl, rfl⟩ := Prod.mk.inj (Option.some.inj hrem₁)
    obtain ⟨m', hspec⟩ := hend ts rfl
    exact ⟨replicas, m', rfl, hspec⟩

/-- A score has an owner as soon as there is a virtual node. -/
theorem OnRing.owner_iff (h : OnRing c m) (score : ℤ) :
    (∃ x, c.ownerAt score = some x) ↔ ∃ x i, Known c.hashRing.nodes x i := by
  rw [h.ring.ownerAt_eq]
  constructor
  · rintro ⟨x, hx⟩
    exact ⟨x, h.ring.owner_known hx⟩
  · rintro ⟨x, i, hk⟩
    obtain ⟨nodeIDs, hl, -⟩ := h.lookup hk
    obtain ⟨w, -, hw, -⟩ :=
      h.ring.ceiling_eq (ne_nil_of_mem_keys (SortedMap.mem_keys_of_lookup hl)) score
    obtain ⟨-, -, y, -, -, -, hnode, -⟩ := h.ring.head hw.1
    exact ⟨y, by rw [owner_of_isNext h.repr.ascending hw, hnode]⟩

/-- Between a ring with a node and the ring without it, the owner is the same or the node. -/
theorem OnRing.owner_of_others (h : OnRing c m) {m' : SortedRing} (h' : OnRing c' m')
    (hn : n ∉ c.hashRing.nodes) (hothers : ∀ v, othersAt n m' v = othersAt n m v) {score : ℤ}
    {x : String} (ho : c'.ownerAt score = some x) (hx : x ≠ n) : c.ownerAt score = some x := by
  rw [h'.ring.ownerAt_eq] at ho
  rw [h.ring.ownerAt_eq]
  refine owner_of_othersAt h.repr.ascending h'.repr.ascending (fun v ids hl => (h.repr.ids hl).1)
    (fun v => ?_) ho hx
  rw [hothers v]
  exact h.othersAt_eq (fun j hk => hn hk.mem) v

/-- A score that has no owner on a ring has none on a ring with fewer virtual nodes. -/
theorem OnRing.owner_eq_none (h : OnRing c m) {m' : SortedRing} (h' : OnRing c' m')
    (hk : ∀ x i, Known c.hashRing.nodes x i → Known c'.hashRing.nodes x i) {score : ℤ}
    (ho : c'.ownerAt score = none) : c.ownerAt score = none := by
  refine Option.eq_none_iff_forall_ne_some.mpr fun x hx => ?_
  obtain ⟨y, i, hy⟩ := (h.owner_iff score).mp ⟨x, hx⟩
  obtain ⟨z, hz⟩ := (h'.owner_iff score).mpr ⟨y, i, hk y i hy⟩
  rw [ho] at hz
  cases hz

theorem OnRing.owner_addNode (h : OnRing c m) {weight : ℤ} {rolls : ℕ → ℕ} {ts : List Migration}
    (hadd : c.addNode n weight rolls = some (c', .ok ts)) (score : ℤ) :
    c'.ownerAt score = c.ownerAt score ∨ c'.ownerAt score = some n := by
  obtain ⟨hn, m', h', hframe, -⟩ := h.of_addNode hadd
  cases ho : c'.ownerAt score with
  | some x =>
    by_cases hx : x = n
    · exact .inr (congrArg some hx)
    · exact .inl (h.owner_of_others h' hn hframe.others ho hx).symm
  | none =>
    refine .inl (h.owner_eq_none h' (fun y i hk => ?_) ho).symm
    rw [SkiplistHashRing.nodes, hframe.nodes]
    exact (known_insert hn _ y i).mpr (.inl hk)

theorem OnRing.owner_removeNode (h : OnRing c m) {ts : List Migration}
    (hrem : c.removeNode n = some (c', .ok ts)) {score : ℤ} (hne : c.ownerAt score ≠ some n) :
    c'.ownerAt score = c.ownerAt score := by
  obtain ⟨replicas, m', hl, h', hframe, -⟩ := h.of_removeNode hrem
  have hgone : n ∉ c'.hashRing.nodes := by
    rw [SkiplistHashRing.nodes, hframe.nodes]
    exact fun hin => (Finmap.mem_erase.mp hin).1 rfl
  cases ho : c.ownerAt score with
  | some x =>
    have hx : x ≠ n := by
      rintro rfl
      exact hne ho
    exact h'.owner_of_others h hgone (fun v => (hframe.others v).symm) ho hx
  | none =>
    refine h'.owner_eq_none h (fun y i hk => ?_) ho
    rw [SkiplistHashRing.nodes, hframe.nodes] at hk
    exact (known_erase hl y i).mpr (.inl hk)

end Calls

/-! ### Minimal disruption -/

/-- **Minimal disruption.**  For every hash function and all node ids, in every state after calls
without an error: a score has an owner as soon as a node has a virtual node; a new node can be
added, and then every score keeps its owner or falls to the new node; and after a node is removed,
the scores of the others keep their owners. -/
theorem minimal_disruption (encryptor : Encryptor) (migrator : Bool) (replicas : ℤ)
    (ops : List HashCall) (c : ConsistentHash)
    (hrun : (newConsistentHash newSkiplistHashRing encryptor migrator replicas).callsWithoutError
      ops = some c) (score : ℤ) :
    ((∃ x, c.ownerAt score = some x) ↔ ∃ x r, c.hashRing.nodes.lookup x = some r ∧ 0 < r) ∧
    (∀ n weight rolls, n ∉ c.hashRing.nodes →
      ∃ c' ts, c.addNode n weight rolls = some (c', .ok ts)) ∧
    (∀ n weight rolls c' ts, c.addNode n weight rolls = some (c', .ok ts) →
      c'.ownerAt score = c.ownerAt score ∨ c'.ownerAt score = some n) ∧
    ∀ n c' ts, c.removeNode n = some (c', .ok ts) → c.ownerAt score ≠ some n →
      c'.ownerAt score = c.ownerAt score := by
  obtain ⟨⟨m, h⟩, -⟩ := (onRing_new encryptor migrator replicas).calls hrun
  refine ⟨?_, fun n weight rolls hn => ?_, fun n weight rolls c' ts hadd => ?_,
    fun n c' ts hrem hne => ?_⟩
  · rw [h.owner_iff]
    constructor
    · rintro ⟨x, i, r, hr, hi⟩
      exact ⟨x, r, hr, by omega⟩
    · rintro ⟨x, r, hr, hpos⟩
      exact ⟨x, 0, r, hr, by omega⟩
  · obtain ⟨c', ts, -, hadd, -⟩ := h.addNode hn weight rolls
    exact ⟨c', ts, hadd⟩
  · exact h.owner_addNode hadd score
  · exact h.owner_removeNode hrem hne

/-- Two nodes at one score, and the second one leaves. -/
theorem minimal_disruption_shared :
    ∃ c c' ts, (newConsistentHash newSkiplistHashRing constantEncryptor true 1).callsWithoutError
        [.addNode "a" 1 fun _ => 0, .addNode "b" 1 fun _ => 1] = some c ∧
      c.removeNode "b" = some (c', .ok ts) ∧ c.ownerAt 7 = some "a" ∧
      c'.ownerAt 7 = c.ownerAt 7 := by
  have hcheck : ((newConsistentHash newSkiplistHashRing constantEncryptor true
      1).callsWithoutError [.addNode "a" 1 fun _ => 0, .addNode "b" 1 fun _ => 1]).any
      (fun c => decide (c.ownerAt 7 = some "a") &&
        (c.removeNode "b").any fun r => r.2.toOption.isSome) = true := by
    decide +kernel
  obtain ⟨c, hc, hboth⟩ := (Option.any_eq_true _ _).mp hcheck
  rw [Bool.and_eq_true, decide_eq_true_eq] at hboth
  obtain ⟨r, hr, hok⟩ := (Option.any_eq_true _ _).mp hboth.2
  obtain ⟨c', res⟩ := r
  cases res with
  | error err => cases hok
  | ok ts =>
    refine ⟨c, c', ts, hc, hr, hboth.1, ?_⟩
    refine (minimal_disruption constantEncryptor true 1 _ c hc 7).2.2.2 "b" c' ts hr ?_
    rw [hboth.1]
    decide

/-! ### Failing calls -/

/-- The state after a call, with or without an error. -/
def hashStep (c : ConsistentHash) (op : HashCall) : Option ConsistentHash :=
  (c.call op).map Prod.fst

/-- `RemoveNode` is called on removable nodes. -/
def RemovesRemovable (c : ConsistentHash) (op : HashCall) : Prop :=
  ∀ n, op = .removeNode n → c.Removable n

theorem onRing_of_reach {encryptor : Encryptor} {migrator : Bool} {replicas : ℤ}
    {c : ConsistentHash} (h : Transition.Reach hashStep RemovesRemovable
      (· = newConsistentHash newSkiplistHashRing encryptor migrator replicas) c) :
    (∃ m, OnRing c m) ∧ c.encryptor = encryptor := by
  induction h with
  | start hs =>
    rw [hs]
    exact ⟨⟨[], onRing_new encryptor migrator replicas⟩, rfl⟩
  | @next c c' op _ hop hstep ih =>
    obtain ⟨⟨m, hon⟩, henc⟩ := ih
    obtain ⟨c₁, err, hcall, hok, hfail⟩ := hon.call op
    rw [hashStep, hcall] at hstep
    obtain rfl := Option.some.inj hstep
    cases err with
    | none =>
      obtain ⟨hon', henc', -⟩ := hok rfl
      exact ⟨hon', henc'.trans henc⟩
    | some err =>
      rw [hfail (Option.some_ne_none err) hop]
      exact ⟨⟨m, hon⟩, henc⟩

/-- **Failing calls change nothing** when nodes are removed only if they are removable: in every
state after any calls, with and without errors, every call returns, an error leaves the ring, the
replicas and the data keys as they were, and the virtual nodes on the ring are exactly those of
its nodes, each at its hash. -/
theorem failed_calls_change_nothing (encryptor : Encryptor) (migrator : Bool) (replicas : ℤ)
    (c : ConsistentHash) (h : Transition.Reach hashStep RemovesRemovable
      (· = newConsistentHash newSkiplistHashRing encryptor migrator replicas) c) :
    (∀ op, ∃ c' err, c.call op = some (c', err) ∧
      (RemovesRemovable c op → err ≠ none → c' = c)) ∧
    ∀ score id, (∃ nodeIDs, c.hashRing.node score = some (.ok nodeIDs) ∧ id ∈ nodeIDs) ↔
      ∃ x r, ∃ i : ℕ, c.hashRing.nodes.lookup x = some r ∧ i < r ∧ id = getRawNodeKey x i ∧
        score = encryptor.encrypt id := by
  obtain ⟨⟨m, hon⟩, henc⟩ := onRing_of_reach h
  refine ⟨fun op => ?_, fun score id => ?_⟩
  · obtain ⟨c', err, hcall, -, hfail⟩ := hon.call op
    exact ⟨c', err, hcall, fun hop herr => hfail herr hop⟩
  · have hhas : (∃ nodeIDs, c.hashRing.node score = some (.ok nodeIDs) ∧ id ∈ nodeIDs) ↔
        m.Has score id := by
      rw [hon.repr.node_eq, SortedRing.node, SortedRing.Has]
      cases SortedMap.lookup m score with
      | none => simp
      | some nodeIDs => simp
    rw [hhas, hon.has, henc]
    constructor
    · rintro ⟨x, i, ⟨r, hr, hi⟩, hid, hv⟩
      exact ⟨x, r, i, hr, by omega, hid, hv⟩
    · rintro ⟨x, r, i, hr, hi, hid, hv⟩
      exact ⟨x, i, ⟨r, hr, by omega⟩, hid, hv⟩

theorem reach_of_calls {init : ConsistentHash → Prop} {c c' : ConsistentHash} {ops : List HashCall}
    (hops : ∀ op ∈ ops, ∀ n, op ≠ .removeNode n)
    (h : Transition.Reach hashStep RemovesRemovable init c)
    (hrun : c.callsWithoutError ops = some c') :
    Transition.Reach hashStep RemovesRemovable init c' := by
  refine calls_invariant _ (fun c c' op hop hc hcall => ?_) h hrun
  have hstep : hashStep c op = some c' := by
    rw [hashStep, hcall]
    rfl
  exact .next hc (fun n hn => absurd hn (hops op hop n)) hstep

/-- The first of two nodes leaves and hands its data key over; a second removal is refused. -/
theorem failed_calls_change_nothing_refused :
    ∃ c c', Transition.Reach hashStep RemovesRemovable
        (· = newConsistentHash newSkiplistHashRing constantEncryptor true 1) c ∧
      c.hashRing.node 0 = some (.ok ["b_0"]) ∧ c.hashRing.dataKeys "b" = {"k"} ∧
      c.call (.removeNode "a") = some (c', some "invalid node id") ∧ c' = c := by
  have hcheck : ((newConsistentHash newSkiplistHashRing constantEncryptor true
      1).callsWithoutError ((leaveFirst "a" "b").take 3)).any (fun c₃ =>
        decide (c₃.hashRing.nodes.lookup "" = none ∧ c₃.hashRing.nodes.lookup "b" = some 1) &&
        (hashStep c₃ (.removeNode "a")).any fun c =>
          decide (c.hashRing.node 0 = some (.ok ["b_0"]) ∧ c.hashRing.dataKeys "b" = {"k"} ∧
            c.hashRing.nodes.lookup "a" = none ∧
            (c.call (.removeNode "a")).map Prod.snd = some (some "invalid node id"))) = true := by
    decide +kernel
  obtain ⟨c₃, hc₃, hboth⟩ := (Option.any_eq_true _ _).mp hcheck
  rw [Bool.and_eq_true, decide_eq_true_eq] at hboth
  obtain ⟨⟨hempty, hb⟩, hleft⟩ := hboth
  obtain ⟨c, hc, hstate⟩ := (Option.any_eq_true _ _).mp hleft
  obtain ⟨hnode, hdata, hgone, herr⟩ := of_decide_eq_true hstate
  obtain ⟨⟨c', err⟩, hcall, rfl⟩ := Option.map_eq_some_iff.mp herr
  have hreach₃ : Transition.Reach hashStep RemovesRemovable
      (· = newConsistentHash newSkiplistHashRing constantEncryptor true 1) c₃ := by
    refine reach_of_calls ?_ (.start rfl) hc₃
    simp [leaveFirst]
  have hremovable : RemovesRemovable c₃ (.removeNode "a") := by
    rintro n hn
    obtain rfl := HashCall.removeNode.inj hn
    refine .inr (.inr (.inr ⟨?_, "b", 0, by decide, 1, hb, by decide⟩))
    exact Finmap.lookup_eq_none.mp hempty
  have hreach := Transition.Reach.next hreach₃ hremovable hc
  refine ⟨c, c', hreach, hnode, hdata, hcall, ?_⟩
  obtain ⟨c'', err', hcall', hsame⟩ :=
    (failed_calls_change_nothing constantEncryptor true 1 c hreach).1 (.removeNode "a")
  rw [hcall] at hcall'
  obtain ⟨rfl, rfl⟩ := Prod.mk.inj (Option.some.inj hcall')
  refine hsame (fun n hn => ?_) (Option.some_ne_none _)
  obtain rfl := HashCall.removeNode.inj hn
  exact .inr (.inl (Finmap.lookup_eq_none.mp hgone))

/-- Removing the only node fails after its record is gone: the node is unknown and still on the
ring. -/
theorem failed_removal_strands_node :
    ∃ c c', (newConsistentHash newSkiplistHashRing constantEncryptor true 1).callsWithoutError
        [.addNode "a" 1 fun _ => 0, .getNode "k"] = some c ∧
      c.call (.removeNode "a") = some (c', some "no other no") ∧
      c.hashRing.nodes.lookup "a" = some 1 ∧ c'.hashRing.nodes.lookup "a" = none ∧
      c'.hashRing.node 0 = some (.ok ["a_0"]) := by
  have hcheck : ((newConsistentHash newSkiplistHashRing constantEncryptor true
      1).callsWithoutError [.addNode "a" 1 fun _ => 0, .getNode "k"]).any
      (fun c => decide (c.hashRing.nodes.lookup "a" = some 1) &&
        (c.call (.removeNode "a")).any fun r => decide (r.2 = some "no other no" ∧
          r.1.hashRing.nodes.lookup "a" = none ∧
          r.1.hashRing.node 0 = some (.ok ["a_0"]))) = true := by
    decide +kernel
  obtain ⟨c, hc, hboth⟩ := (Option.any_eq_true _ _).mp hcheck
  rw [Bool.and_eq_true, decide_eq_true_eq] at hboth
  obtain ⟨⟨c', err⟩, hcall, hstate⟩ := (Option.any_eq_true _ _).mp hboth.2
  obtain ⟨rfl, hgone, hnode⟩ := of_decide_eq_true hstate
  exact ⟨c, c', hc, hcall, hboth.1, hgone, hnode⟩

end Aster.Local
