import Aster.Local.Moves

/-!
# Data keys follow the ring

After every call that returns no error, each recorded data key is held by its owner on the ring.
`AddNode` keeps this after each virtual node.  `RemoveNode` does not: while it runs, a key whose
owner is the leaving node may be with that node or already with its heir, the owner in the ring
without the node (`Leaving`); when the last virtual node is gone, only the heirs are left.
-/

namespace Aster.Local

open Aster.Lib Aster.Lib.CyclicOrder

/-- The virtual nodes of the nodes on the ring. -/
def Known (replicas : Finmap fun _ : String => ℤ) (x : String) (i : ℕ) : Prop :=
  ∃ r, replicas.lookup x = some r ∧ i < r.toNat

theorem Known.mem {replicas : Finmap fun _ : String => ℤ} {x : String} {i : ℕ}
    (h : Known replicas x i) : x ∈ replicas := by
  obtain ⟨r, hr, -⟩ := h
  exact Finmap.mem_of_lookup_eq_some hr

theorem known_insert {replicas : Finmap fun _ : String => ℤ} {n : String} (hn : n ∉ replicas)
    (r : ℤ) (x : String) (i : ℕ) :
    Known (replicas.insert n r) x i ↔ Known replicas x i ∨ (x = n ∧ i < r.toNat) := by
  rw [Known]
  by_cases hx : x = n
  · have hnot : ¬ Known replicas n i := fun hk => hn hk.mem
    rw [hx, Finmap.lookup_insert]
    simp [hnot]
  · rw [Finmap.lookup_insert_of_ne _ hx]
    simp [hx, Known]

theorem known_erase {replicas : Finmap fun _ : String => ℤ} {n : String} {r : ℤ}
    (hr : replicas.lookup n = some r) (x : String) (i : ℕ) :
    Known replicas x i ↔ Known (replicas.erase n) x i ∨ (x = n ∧ i < r.toNat) := by
  by_cases hx : x = n
  · have hnot : ¬ Known (replicas.erase n) n i := fun hk => (Finmap.mem_erase.mp hk.mem).1 rfl
    rw [hx, or_iff_right hnot, Known, hr]
    simp
  · rw [Known, Known, Finmap.lookup_erase_ne hx]
    simp [hx]

/-- Each recorded key is with its owner on the ring. -/
structure Placed (c : ConsistentHash) (m : SortedRing) (recorded : Set String)
    (loc : String → String) : Prop where
  migrator : c.migrator = true
  valid : ∀ x ∈ c.hashRing.nodeToReplicas, ValidID x
  ring : RingInv c.encryptor (Known c.hashRing.nodeToReplicas) c.hashRing m
  located : Located c.hashRing recorded loc
  owned : ∀ k ∈ recorded, m.owner (c.encryptor.encrypt k) = some (loc k)

/-- The tasks lead from one placement to the other: each finds its keys at its source. -/
def Moved (recorded : Set String) :
    List Migration → (String → String) → (String → String) → Prop
  | [], loc, loc' => loc' = loc
  | t :: ts, loc, loc' =>
    (∀ k ∈ t.datas, k ∈ recorded ∧ loc k = t.source) ∧ Moved recorded ts (t.apply loc) loc'

/-- The call left the settings of the consistent hash alone. -/
def SameSettings (c c' : ConsistentHash) : Prop :=
  c'.encryptor = c.encryptor ∧ c'.replicas = c.replicas

section Steps

variable {c : ConsistentHash} {m : SortedRing} {recorded : Set String} {loc : String → String}
  {known : String → ℕ → Prop} {n : String} {v : ℤ} {key : String}

theorem Located.congr {s s' : SkiplistHashRing} (h : Located s recorded loc)
    (hdata : s'.nodeToDataKey = s.nodeToDataKey) : Located s' recorded loc := by
  intro x k
  have hx := h x k
  rw [SkiplistHashRing.dataKeys] at hx ⊢
  rw [hdata]
  exact hx

theorem addTask_eq (tasks : List Migration) (t : Migration) :
    ConsistentHash.addTask tasks t = tasks ++ if t.datas = ∅ then [] else [t] := by
  rw [ConsistentHash.addTask]
  split_ifs
  · rw [List.append_nil]
  · rfl

/-- A task that is left out moves nothing. -/
theorem Moved.cons {t : Migration} {ts : List Migration} {loc' : String → String}
    (ht : ∀ k ∈ t.datas, k ∈ recorded ∧ loc k = t.source)
    (h : Moved recorded ts (t.apply loc) loc') :
    Moved recorded ((if t.datas = ∅ then [] else [t]) ++ ts) loc loc' := by
  split_ifs with hempty
  · rw [Migration.apply_of_empty hempty] at h
    exact h
  · exact ⟨ht, h⟩

/-! ### `AddNode` -/

theorem forall_mem_noMigration {p : String → Prop} : ∀ k ∈ noMigration.datas, p k :=
  fun k hk => absurd hk (Finset.notMem_empty k)

/-- `migrateIn` at the score returns no error, and every recorded key is with its owner
afterwards. -/
def SettlesIn (c : ConsistentHash) (m : SortedRing) (recorded : Set String)
    (loc : String → String) (v : ℤ) (n : String) : Prop :=
  ∃ c' t, c.migrateIn v n = some (c', .ok t) ∧ SameRing c c' ∧
    Located c'.hashRing recorded (t.apply loc) ∧
    (∀ k ∈ recorded, m.owner (c.encryptor.encrypt k) = some (t.apply loc k)) ∧
    (∀ k ∈ t.datas, k ∈ recorded ∧ loc k = t.source) ∧ (t.datas = ∅ ∨ t.target = n)

/-- A call of `migrateIn` that moves nothing. -/
theorem settlesIn_of_noMigration (hrun : c.migrateIn v n = some (c, .ok noMigration))
    (hloc : Located c.hashRing recorded loc)
    (howned : ∀ k ∈ recorded, m.owner (c.encryptor.encrypt k) = some (loc k)) :
    SettlesIn c m recorded loc v n := by
  refine ⟨c, noMigration, hrun, sameRing_refl c, ?_, ?_, forall_mem_noMigration, .inl rfl⟩
  · rw [Migration.apply_of_empty rfl]
    exact hloc
  · rw [Migration.apply_of_empty rfl]
    exact howned

/-- **`migrateIn` at a score of its own.**  When the keys on the arc are with the node or with
the node at the next score, and the others with their owners, then all are with their owners
afterwards. -/
theorem migrateIn_places (hmig : c.migrator = true)
    (h : RingInv c.encryptor known c.hashRing m) (hl : SortedMap.lookup m v = some [key])
    (hkey : getNodeID key = some n) (hloc : Located c.hashRing recorded loc)
    (hoff : ∀ k ∈ recorded, ¬ IsNext (SortedMap.keys m) (c.encryptor.encrypt k) v →
      m.owner (c.encryptor.encrypt k) = some (loc k))
    (harc : ∀ k ∈ recorded, IsNext (SortedMap.keys m) (c.encryptor.encrypt k) v →
      loc k = n ∨ ∀ nxt, IsNext (SortedMap.keys m) (succ maxInt32 v) nxt →
        nxt ≠ v ∧ m.nodeAt nxt = some (loc k)) : SettlesIn c m recorded loc v n := by
  have hnode : m.nodeAt v = some n := by
    rw [SortedRing.nodeAt, hl]
    exact hkey
  have howner : ∀ d, IsNext (SortedMap.keys m) d v → m.owner d = some n := by
    intro d hd
    rw [owner_of_isNext h.repr.ascending hd, hnode]
  rcases migrateIn_single hmig h hl n with ⟨hall, hrun⟩ |
    ⟨nxt, t, hnext, hnv, hsource, htarget, hdatas, hrun⟩
  · refine settlesIn_of_noMigration hrun hloc fun k hk => ?_
    rw [howner _ (hall _)]
    rcases harc k hk (hall _) with he | hne
    · rw [he]
    · exact absurd rfl (hne v (hall _)).1
  · have hheld : ∀ k ∈ t.datas, k ∈ c.hashRing.dataKeys t.source :=
      fun k hk => ((hdatas k).mp hk).1
    refine ⟨_, t, hrun, sameRing_move c _ _ _, hloc.move hheld, ?_, ?_, .inr htarget⟩
    · intro k hk
      by_cases hd : IsNext (SortedMap.keys m) (c.encryptor.encrypt k) v
      · rw [howner _ hd, Migration.apply]
        by_cases hmem : k ∈ t.datas
        · rw [if_pos hmem, htarget]
        · rw [if_neg hmem]
          rcases harc k hk hd with he | hne
          · rw [he]
          · -- the key was with the node at the next score, so it has been taken
            have hat := (hne nxt hnext).2
            rw [hsource] at hat
            have hin := (hloc t.source k).mpr ⟨hk, (Option.some.inj hat).symm⟩
            exact absurd ((hdatas k).mpr ⟨hin, hd⟩) hmem
      · have hmem : k ∉ t.datas := fun hmem => hd ((hdatas k).mp hmem).2
        rw [hoff k hk hd, Migration.apply, if_neg hmem]
    · intro k hk
      exact (hloc t.source k).mp (hheld k hk)

theorem RingInv.add {enc : Encryptor} {s s' : SkiplistHashRing} (h : RingInv enc known s m)
    (hrep : Represents s' (m.add (enc.encrypt key) key)) {i : ℕ}
    (hkey : key = getRawNodeKey n i) (hk : known n i) :
    RingInv enc known s' (m.add (enc.encrypt key) key) := by
  refine ⟨hrep, fun w nodeIDs hl id hid => ?_⟩
  rcases has_add.mp ⟨nodeIDs, hl, hid⟩ with ⟨old, hold, hmem⟩ | ⟨rfl, rfl⟩
  · exact h.entry w old hold id hmem
  · exact ⟨rfl, n, i, hkey, hk⟩

theorem RingInv.rem {enc : Encryptor} {s s' : SkiplistHashRing} (h : RingInv enc known s m)
    (hrep : Represents s' (m.rem v key).1) (hv : v = enc.encrypt key) {nodeIDs : List String}
    (hl : SortedMap.lookup m v = some nodeIDs) (hmem : key ∈ nodeIDs) :
    RingInv enc (fun x j => known x j ∧ getRawNodeKey x j ≠ key) s' (m.rem v key).1 := by
  refine ⟨hrep, fun w ids hw id hid => ?_⟩
  obtain ⟨⟨old, hold, hidold⟩, hne⟩ :=
    (has_rem hl (h.repr.ids hl).2 hmem).mp ⟨ids, hw, hid⟩
  obtain ⟨henc, x, j, hxj, hk⟩ := h.entry w old hold id hidold
  refine ⟨henc, x, j, hxj, hk, ?_⟩
  rw [← hxj]
  rintro rfl
  exact hne ⟨henc.symm.trans hv.symm, rfl⟩

/-- The ring after a new node key, with the records as they were. -/
theorem Placed.settlesIn (h : Placed c m recorded loc) {s : SkiplistHashRing}
    (hring : RingInv c.encryptor known s (m.add v key)) (hid : getNodeID key = some n)
    (hlocs : Located s recorded loc) :
    SettlesIn { c with hashRing := s } (m.add v key) recorded loc v n := by
  have hasc := h.ring.repr.ascending
  have hoff := agreeOff_add m v key
  cases hl : SortedMap.lookup m v with
  | none =>
    have hlook := lookup_add m v v key
    rw [if_pos rfl, hl] at hlook
    refine migrateIn_places h.migrator hring hlook hid hlocs ?_ ?_
    · intro k hk hd
      rw [← hoff.owner_eq hring.repr.ascending hasc (SortedMap.mem_keys_of_lookup hlook) hd]
      exact h.owned k hk
    · intro k hk hd
      refine .inr fun nxt hn => ?_
      -- the key has an owner without the new score, so there is another score
      obtain ⟨w, hw, -⟩ := Option.bind_eq_some_iff.mp (h.owned k hk)
      have hwm := (SortedMap.ceilingWrap_isNext hasc hw).1
      have hwv : w ≠ v := by
        rintro rfl
        exact hwm hl
      have hwkeys : w ∈ SortedMap.keys (m.add v key) := by
        show SortedMap.lookup (m.add v key) w ≠ none
        rw [← hoff w hwv]
        exact hwm
      have hnv := ne_of_isNext_succ hring.range hwkeys hwv hn
      refine ⟨hnv, ?_⟩
      rw [← hoff.owner_fall hasc hring.range hl hd hn hnv]
      exact h.owned k hk
  | some nodeIDs =>
    have howned : ∀ k ∈ recorded,
        (m.add v key).owner (c.encryptor.encrypt k) = some (loc k) := by
      intro k hk
      rw [owner_add_of_lookup hasc hring.repr.ascending hl (h.ring.repr.ids hl).1]
      exact h.owned k hk
    have hhas : (m.add v key).Has v key := has_add.mpr (.inr ⟨rfl, rfl⟩)
    obtain ⟨ids, hids, hmem⟩ := hhas
    by_cases hlen : 1 < ids.length
    · exact settlesIn_of_noMigration
        (migrateIn_shared (c := { c with hashRing := s }) h.migrator hring.repr hids hlen n)
        hlocs howned
    · -- the node key was there already, alone
      have hone : ids.length = 1 := by
        have hpos := List.length_pos_of_mem hmem
        omega
      obtain ⟨id, rfl⟩ := List.length_eq_one_iff.mp hone
      obtain rfl := List.mem_singleton.mp hmem
      refine migrateIn_places h.migrator hring hids hid hlocs (fun k hk _ => howned k hk)
        fun k hk hd => .inl ?_
      have howner := howned k hk
      rw [owner_of_isNext hring.repr.ascending hd, SortedRing.nodeAt, hids] at howner
      exact Option.some.inj (howner.symm.trans hid)

/-- **One virtual node comes**, and every recorded key is with its owner again. -/
theorem Placed.add_step (h : Placed c m recorded loc) {i : ℕ}
    (hk : Known c.hashRing.nodeToReplicas n i) (hkey : key = getRawNodeKey n i)
    (hv : v = c.encryptor.encrypt key) (rLevel : ℕ) :
    ∃ s c' t, c.hashRing.add v key rLevel = some s ∧
      ConsistentHash.migrateIn { c with hashRing := s } v n = some (c', .ok t) ∧
      c'.hashRing.nodeToReplicas = c.hashRing.nodeToReplicas ∧ SameSettings c c' ∧
      Placed c' (m.add v key) recorded (t.apply loc) ∧
      (∀ k ∈ t.datas, k ∈ recorded ∧ loc k = t.source) ∧ (t.datas = ∅ ∨ t.target = n) := by
  obtain ⟨s, hadd, hrep, hreps, hdata⟩ := h.ring.repr.add_eq v key rLevel
  have hid : getNodeID key = some n := by
    rw [hkey]
    exact getNodeID_getRawNodeKey n i
  have hring : RingInv c.encryptor (Known c.hashRing.nodeToReplicas) s (m.add v key) := by
    rw [hv] at hrep ⊢
    exact h.ring.add hrep hkey hk
  obtain ⟨c', t, hrun, hsame, hloc', howned, hheld, htarget⟩ :=
    h.settlesIn hring hid (h.located.congr hdata)
  refine ⟨s, c', t, hadd, hrun, hsame.nodeToReplicas.trans hreps,
    ⟨hsame.encryptor, hsame.replicas⟩, ?_, hheld, htarget⟩
  constructor
  case migrator => exact hsame.migrator.trans h.migrator
  case valid =>
    rw [hsame.nodeToReplicas.trans hreps]
    exact h.valid
  case ring =>
    rw [hsame.encryptor, hsame.nodeToReplicas.trans hreps]
    exact ⟨hring.repr.congr hsame.heap hsame.size, hring.entry⟩
  case located => exact hloc'
  case owned =>
    rw [hsame.encryptor]
    exact howned

theorem Placed.addLoop (h : Placed c m recorded loc) (rolls : ℕ → ℕ) (left i : ℕ)
    (tasks : List Migration)
    (hk : ∀ j, i ≤ j → j < i + left → Known c.hashRing.nodeToReplicas n j) :
    ∃ c' m' ts loc', ConsistentHash.addLoop n rolls left i c tasks =
        some (c', .ok (tasks ++ ts)) ∧
      c'.hashRing.nodeToReplicas = c.hashRing.nodeToReplicas ∧ SameSettings c c' ∧
      Placed c' m' recorded loc' ∧ Moved recorded ts loc loc' ∧
      ∀ t ∈ ts, t.datas ≠ ∅ ∧ t.target = n := by
  induction left generalizing i c m loc tasks with
  | zero =>
    refine ⟨c, m, [], loc, ?_, rfl, ⟨rfl, rfl⟩, h, rfl, nofun⟩
    rw [List.append_nil]
    rfl
  | succ left ih =>
    obtain ⟨s, c₁, t, hadd, hin, hreps, hset, hplaced, hheld, htarget⟩ :=
      h.add_step (hk i le_rfl (by omega)) rfl rfl (rolls i)
    obtain ⟨c', m', ts, loc', hrun, hreps', hset', hplaced', hmoved, htargets⟩ :=
      ih hplaced (i + 1) (ConsistentHash.addTask tasks t)
        (fun j h₁ h₂ => by rw [hreps]; exact hk j (by omega) (by omega))
    refine ⟨c', m', (if t.datas = ∅ then [] else [t]) ++ ts, loc', ?_, hreps'.trans hreps,
      ⟨hset'.1.trans hset.1, hset'.2.trans hset.2⟩, hplaced', Moved.cons hheld hmoved, ?_⟩
    · rw [ConsistentHash.addLoop, hadd]
      simp only [Option.bind_eq_bind, Option.bind_some, hin]
      rw [hrun, addTask_eq, List.append_assoc]
    · intro t' ht'
      rcases List.mem_append.mp ht' with ht' | ht'
      · split_ifs at ht' with hempty
        · cases ht'
        · rw [List.mem_singleton.mp ht']
          exact ⟨hempty, htarget.resolve_left hempty⟩
      · exact htargets t' ht'

/-- **`AddNode`** keeps every recorded key with its owner, and moves keys to the new node
only.  With an error it does nothing. -/
theorem Placed.addNode (h : Placed c m recorded loc) (hn : ValidID n) (weight : ℤ)
    (rolls : ℕ → ℕ) :
    ∃ c' r, c.addNode n weight rolls = some (c', r) ∧ (∀ err, r = .error err → c' = c) ∧
      ∀ ts, r = .ok ts → ∃ m' loc', SameSettings c c' ∧ Placed c' m' recorded loc' ∧
        Moved recorded ts loc loc' ∧
        (∀ t ∈ ts, t.datas ≠ ∅ ∧ t.target = n) ∧
        ∀ x ∈ c'.hashRing.nodeToReplicas, x = n ∨ x ∈ c.hashRing.nodeToReplicas := by
  rw [ConsistentHash.addNode]
  by_cases hmem : n ∈ c.hashRing.nodes
  · rw [if_pos hmem]
    exact ⟨_, _, rfl, fun _ _ => rfl, nofun⟩
  · rw [if_neg hmem]
    set replicas := int64 (getValidWeight weight * c.replicas) with hreplicas
    -- the other nodes keep their virtual nodes, and the new one gets its own
    have hknown : ∀ x i, Known (c.hashRing.addNodeToReplica n replicas).nodeToReplicas x i ↔
        Known c.hashRing.nodeToReplicas x i ∨ (x = n ∧ i < replicas.toNat) :=
      known_insert hmem replicas
    have hnew : ∀ j, 0 ≤ j → j < 0 + replicas.toNat →
        Known (c.hashRing.addNodeToReplica n replicas).nodeToReplicas n j :=
      fun j _ hj => (hknown n j).mpr (.inr ⟨rfl, by omega⟩)
    have hstart : Placed { c with hashRing := c.hashRing.addNodeToReplica n replicas } m
        recorded loc := by
      constructor
      case migrator => exact h.migrator
      case valid =>
        intro x hx
        rcases Finmap.mem_insert.mp hx with rfl | hx
        · exact hn
        · exact h.valid x hx
      case ring => exact (h.ring.mono fun x i hk => (hknown x i).mpr (.inl hk)).congr rfl rfl
      case located => exact h.located.congr rfl
      case owned => exact h.owned
    obtain ⟨c', m', ts, loc', hrun, hreps, hset, hplaced, hmoved, htargets⟩ :=
      hstart.addLoop rolls replicas.toNat 0 [] hnew
    refine ⟨c', _, hrun, nofun, fun ts' hts => ?_⟩
    obtain rfl : ts = ts' := Except.ok.inj hts
    refine ⟨m', loc', hset, hplaced, hmoved, htargets, fun x hx => ?_⟩
    rw [hreps] at hx
    exact Finmap.mem_insert.mp hx

/-! ### `RemoveNode` -/

/-- While the virtual nodes of `n` go, one after the other, each recorded key is with its heir,
or with `n` as long as `n` owns it. -/
structure Leaving (c : ConsistentHash) (n : String) (i r : ℕ) (m : SortedRing)
    (recorded : Set String) (loc : String → String) : Prop where
  migrator : c.migrator = true
  validSelf : ValidID n
  valid : ∀ x ∈ c.hashRing.nodeToReplicas, ValidID x
  gone : n ∉ c.hashRing.nodeToReplicas
  ring : RingInv c.encryptor
    (fun x j => Known c.hashRing.nodeToReplicas x j ∨ (x = n ∧ i ≤ j ∧ j < r)) c.hashRing m
  located : Located c.hashRing recorded loc
  settled : ∀ k ∈ recorded, Heir m n (c.encryptor.encrypt k) (loc k) ∨
    (loc k = n ∧ m.owner (c.encryptor.encrypt k) = some n)

theorem Heir.ne {d : ℤ} {x : String} (h : Heir m n d x) : x ≠ n := by
  obtain ⟨w, id, -, hat, hx⟩ := h
  obtain ⟨nodeIDs, -, hfind⟩ := Option.bind_eq_some_iff.mp hat
  have hne := List.find?_some hfind
  rw [hx] at hne
  rintro rfl
  exact absurd rfl (of_decide_eq_true hne)

theorem Heir.exists_known {enc : Encryptor} {s : SkiplistHashRing}
    (hr : RingInv enc known s m) {d : ℤ} {x : String} (h : Heir m n d x) : ∃ i, known x i := by
  obtain ⟨w, id, -, hat, hx⟩ := h
  obtain ⟨nodeIDs, hl, hfind⟩ := Option.bind_eq_some_iff.mp hat
  obtain ⟨y, i, -, hy, hk⟩ := hr.getNodeID_of_mem hl (List.mem_of_find?_eq_some hfind)
  rw [hx] at hy
  obtain rfl := Option.some.inj hy
  exact ⟨i, hk⟩

/-- Taking an id of the node away leaves the heirs as they are. -/
theorem heirAt_rem {nodeIDs : List String} (hl : SortedMap.lookup m v = some nodeIDs)
    (hmem : key ∈ nodeIDs) (hkey : getNodeID key = some n) (w : ℤ) :
    heirAt n (m.rem v key).1 w = heirAt n m w := by
  rw [heirAt_eq_head, heirAt_eq_head, othersAt_rem hl hmem hkey]

/-- The arc stays with the node when `StaysWith` says so. -/
theorem StaysWith.owner_rem {enc : Encryptor} {s : SkiplistHashRing} (hr : RingInv enc known s m)
    (hasc : SortedMap.Ascending (m.rem v key).1) {nodeIDs : List String}
    (hl : SortedMap.lookup m v = some nodeIDs) (hmem : key ∈ nodeIDs) (h : StaysWith m v n)
    {d : ℤ} (hd : IsNext (SortedMap.keys m) d v) : (m.rem v key).1.owner d = some n := by
  have hoff := agreeOff_rem hl hmem
  have hlookv := (rem_of_mem hl hmem).2 v
  rw [if_pos rfl] at hlookv
  rcases h with ⟨id₁, id₂, rest, hl', h₁, h₂⟩ | ⟨id, nxt, hl', hn, hnv, hnode⟩
  · rw [hl] at hl'
    obtain rfl := Option.some.inj hl'
    -- one of the two ids is first after the removal
    obtain ⟨id, rest', herase, hid⟩ : ∃ id rest', (id₁ :: id₂ :: rest).erase key = id :: rest' ∧
        getNodeID id = some n := by
      by_cases hk : id₁ = key
      · exact ⟨id₂, rest, by rw [hk, List.erase_cons_head], h₂⟩
      · exact ⟨id₁, (id₂ :: rest).erase key, List.erase_cons_tail (by simpa using hk), h₁⟩
    rw [herase, if_neg (List.cons_ne_nil id rest')] at hlookv
    rw [← hoff.keys_eq hd.1 (SortedMap.mem_keys_of_lookup hlookv)] at hd
    rw [owner_of_isNext hasc hd, SortedRing.nodeAt, hlookv]
    exact hid
  · rw [hl] at hl'
    obtain rfl := Option.some.inj hl'
    obtain rfl := List.mem_singleton.mp hmem
    rw [List.erase_cons_head, if_pos rfl] at hlookv
    rw [hoff.owner_fall hasc hr.range hlookv hd hn hnv]
    exact hnode

theorem ValidID.ne_getRawNodeKey {x : String} (h : ValidID x) (y : String) (i : ℕ) :
    x ≠ getRawNodeKey y i := by
  rintro rfl
  apply h.2
  rw [getRawNodeKey, String.toList_append, String.toList_append]
  simp

theorem Leaving.valid_known {i r : ℕ} (h : Leaving c n i r m recorded loc) (x : String) (j : ℕ)
    (hk : Known c.hashRing.nodeToReplicas x j ∨ (x = n ∧ i ≤ j ∧ j < r)) : ValidID x := by
  rcases hk with hk | ⟨rfl, -⟩
  · exact h.valid x hk.mem
  · exact h.validSelf

/-- The records settle for one virtual node less. -/
theorem Leaving.settled_rem {i r : ℕ} (h : Leaving c n i r m recorded loc) {t : Migration}
    (hrel : Released c m v n t) (hasc : SortedMap.Ascending (m.rem v key).1)
    {nodeIDs : List String} (hl : SortedMap.lookup m v = some nodeIDs) (hmem : key ∈ nodeIDs)
    (hkey : getNodeID key = some n) : ∀ k ∈ recorded,
      Heir (m.rem v key).1 n (c.encryptor.encrypt k) (t.apply loc k) ∨
      (t.apply loc k = n ∧ (m.rem v key).1.owner (c.encryptor.encrypt k) = some n) := by
  intro k hk
  have hheir : ∀ x, Heir (m.rem v key).1 n (c.encryptor.encrypt k) x ↔
      Heir m n (c.encryptor.encrypt k) x := fun x => Heir.congr (heirAt_rem hl hmem hkey)
  have hv := SortedMap.mem_keys_of_lookup hl
  rw [hheir, Migration.apply]
  by_cases hkt : k ∈ t.datas
  · -- a moved key goes to the heir, or stays with the node that stays the owner
    rw [if_pos hkt]
    rcases hrel.2 with ⟨hempty, -⟩ | ⟨-, hdatas, hto, hstays⟩
    · rw [hempty] at hkt
      cases hkt
    · have hd := ((hdatas k).mp hkt).2
      by_cases htn : t.target = n
      · exact .inr ⟨htn, (hstays htn).owner_rem h.ring hasc hl hmem hd⟩
      · exact .inl ((heir_of_isNext hd).mpr (hto htn))
  · rw [if_neg hkt]
    rcases h.settled k hk with hset | ⟨hloc, howner⟩
    · exact .inl hset
    · -- a key that the node owns on this arc would have been moved
      have hin : k ∈ c.hashRing.dataKeys n := (h.located n k).mpr ⟨hk, hloc⟩
      have hd : ¬ IsNext (SortedMap.keys m) (c.encryptor.encrypt k) v := by
        intro hd
        rcases hrel.2 with ⟨-, hnot | hnone⟩ | ⟨-, hdatas, -⟩
        · rw [owner_of_isNext h.ring.repr.ascending hd] at howner
          exact hnot howner
        · rw [hnone] at hin
          cases hin
        · exact hkt ((hdatas k).mpr ⟨hin, hd⟩)
      refine .inr ⟨hloc, ?_⟩
      rw [(agreeOff_rem hl hmem).owner_eq h.ring.repr.ascending hasc hv hd]
      exact howner

/-- The entries after one virtual node is gone. -/
theorem Leaving.ring_rem {i r : ℕ} {s : SkiplistHashRing} (h : Leaving c n i r m recorded loc)
    (hrep : Represents s (m.rem v key).1) (hkey : key = getRawNodeKey n i)
    (hv : v = c.encryptor.encrypt key) {nodeIDs : List String}
    (hl : SortedMap.lookup m v = some nodeIDs) (hmem : key ∈ nodeIDs) :
    RingInv c.encryptor
      (fun x j => Known c.hashRing.nodeToReplicas x j ∨ (x = n ∧ i + 1 ≤ j ∧ j < r)) s
      (m.rem v key).1 := by
  refine (h.ring.rem hrep hv hl hmem).mono fun x j hk => hk.1.imp_right ?_
  rintro ⟨rfl, hij, hjr⟩
  have hji : j ≠ i := by
    rintro rfl
    exact hk.2 hkey.symm
  exact ⟨rfl, by omega, hjr⟩

/-- The entry of a name under which no data key lies can go. -/
theorem Located.erase {s s' : SkiplistHashRing} (h : Located s recorded loc)
    (hdata : s'.nodeToDataKey = s.nodeToDataKey.erase key) (hne : ∀ k ∈ recorded, loc k ≠ key) :
    Located s' recorded loc := by
  intro x k
  rw [SkiplistHashRing.dataKeys, hdata]
  by_cases hx : x = key
  · rw [hx, Finmap.lookup_erase]
    exact ⟨fun hk => absurd hk (Finset.notMem_empty k), fun hk => absurd hk.2 (hne k hk.1)⟩
  · rw [Finmap.lookup_erase_ne hx]
    exact h x k

/-- **One virtual node goes.** -/
theorem Leaving.remove_step {i r : ℕ} (h : Leaving c n i r m recorded loc)
    (hkey : key = getRawNodeKey n i) (hv : v = c.encryptor.encrypt key) :
    ∃ c₁ res, c.migrateOut v n = some (c₁, res) ∧ ∀ t, res = .ok t →
      ∃ s err, c₁.hashRing.rem v key = some (s, err) ∧ (err = none →
        SameSettings c { c₁ with hashRing := s } ∧
        s.nodeToReplicas = c.hashRing.nodeToReplicas ∧
        Leaving { c₁ with hashRing := s } n (i + 1) r (m.rem v key).1 recorded (t.apply loc) ∧
        (∀ k ∈ t.datas, k ∈ recorded ∧ loc k = t.source) ∧ t.source = n) := by
  obtain ⟨c₁, res, hrun, hspec⟩ := migrateOut_spec (v := v) (n := n) h.migrator h.ring
    h.valid_known
  refine ⟨c₁, res, hrun, fun t ht => ?_⟩
  obtain ⟨hrel, hsame, hmove⟩ := hspec t ht
  have hrep₁ := h.ring.repr.congr hsame.heap hsame.size
  obtain ⟨s, hrem, hrep, heff⟩ := hrep₁.rem_eq v key
  refine ⟨s, _, hrem, fun herr => ?_⟩
  rw [herr] at heff
  obtain ⟨hreps, hdata⟩ := heff
  obtain ⟨nodeIDs, hl, hmem⟩ := mem_of_rem herr
  have hid : getNodeID key = some n := by
    rw [hkey]
    exact getNodeID_getRawNodeKey n i
  have hring := h.ring_rem hrep hkey hv hl hmem
  have hset := h.settled_rem hrel hrep.ascending hl hmem hid
  refine ⟨⟨hsame.encryptor, hsame.replicas⟩, hreps.trans hsame.nodeToReplicas, ?_, ?_, hrel.1⟩
  · constructor
    case migrator => exact hsame.migrator.trans h.migrator
    case validSelf => exact h.validSelf
    case valid =>
      rw [hreps, hsame.nodeToReplicas]
      exact h.valid
    case gone =>
      rw [hreps, hsame.nodeToReplicas]
      exact h.gone
    case ring =>
      rw [hreps, hsame.nodeToReplicas, hsame.encryptor]
      exact hring
    case located =>
      refine (hmove recorded loc h.located).erase hdata fun k hk => ?_
      -- no node is called like a node key
      have hvalid : ValidID (t.apply loc k) := by
        rcases hset k hk with hheir | ⟨hn, -⟩
        · obtain ⟨j, hj⟩ := hheir.exists_known hring
          rcases hj with hj | ⟨hj, -⟩
          · exact h.valid _ hj.mem
          · rw [hj]
            exact h.validSelf
        · rw [hn]
          exact h.validSelf
      rw [hkey]
      exact hvalid.ne_getRawNodeKey n i
    case settled =>
      intro k hk
      show Heir _ n (c₁.encryptor.encrypt k) _ ∨ _ ∧ SortedRing.owner _ (c₁.encryptor.encrypt k) = _
      rw [hsame.encryptor]
      exact hset k hk
  · intro k hk
    rw [hrel.1]
    rcases hrel.2 with ⟨hempty, -⟩ | ⟨-, hdatas, -⟩
    · rw [hempty] at hk
      cases hk
    · exact (h.located n k).mp ((hdatas k).mp hk).1

theorem Leaving.removeLoop {i r : ℕ} (left : ℕ) (hr : i + left = r)
    (h : Leaving c n i r m recorded loc) (tasks : List Migration) :
    ∃ c' res, ConsistentHash.removeLoop n left i c tasks = some (c', res) ∧
      ∀ ts', res = .ok ts' → ∃ m' ts loc', ts' = tasks ++ ts ∧ SameSettings c c' ∧
        c'.hashRing.nodeToReplicas = c.hashRing.nodeToReplicas ∧ Leaving c' n r r m' recorded loc' ∧
        Moved recorded ts loc loc' ∧ ∀ t ∈ ts, t.source = n := by
  induction left generalizing i c m loc tasks with
  | zero =>
    obtain rfl : i = r := by omega
    refine ⟨c, _, rfl, fun ts' hts => ?_⟩
    obtain rfl := Except.ok.inj hts
    exact ⟨m, [], loc, (List.append_nil tasks).symm, ⟨rfl, rfl⟩, rfl, h, rfl, nofun⟩
  | succ left ih =>
    obtain ⟨c₁, res, hout, hspec⟩ := h.remove_step rfl rfl
    rw [ConsistentHash.removeLoop, hout]
    simp only [Option.bind_eq_bind, Option.bind_some]
    cases res with
    | error err => exact ⟨_, _, rfl, nofun⟩
    | ok t =>
      obtain ⟨s, err, hrem, hnext⟩ := hspec t rfl
      simp only [hrem, Option.bind_some]
      cases err with
      | some err => exact ⟨_, _, rfl, nofun⟩
      | none =>
        obtain ⟨hset, hreps, hleave, hheld, hsource⟩ := hnext rfl
        obtain ⟨c', res, hrun, hend⟩ := ih (i := i + 1) (by omega) hleave
          (ConsistentHash.addTask tasks t)
        refine ⟨c', res, hrun, fun ts' hts => ?_⟩
        obtain ⟨m', ts, loc', hts', hset', hreps', hleave', hmoved, hsources⟩ := hend ts' hts
        refine ⟨m', (if t.datas = ∅ then [] else [t]) ++ ts, loc', ?_,
          ⟨hset'.1.trans hset.1, hset'.2.trans hset.2⟩, hreps'.trans hreps, hleave',
          Moved.cons hheld hmoved, ?_⟩
        · rw [hts', addTask_eq, List.append_assoc]
        · intro t' ht'
          rcases List.mem_append.mp ht' with ht' | ht'
          · split_ifs at ht'
            · cases ht'
            · rw [List.mem_singleton.mp ht']
              exact hsource
          · exact hsources t' ht'

/-- When all virtual nodes of the node are gone, the heirs are the owners. -/
theorem Leaving.placed {r : ℕ} (h : Leaving c n r r m recorded loc) :
    Placed c m recorded loc := by
  have hknown : ∀ x j, (Known c.hashRing.nodeToReplicas x j ∨ (x = n ∧ r ≤ j ∧ j < r)) →
      Known c.hashRing.nodeToReplicas x j := by
    rintro x j (hk | ⟨-, h₁, h₂⟩)
    · exact hk
    · omega
  have hnot : ∀ x j, Known c.hashRing.nodeToReplicas x j → x ≠ n := by
    rintro x j hk rfl
    exact h.gone hk.mem
  -- no id is of the node, so the heir at a score is its first id
  have hheir : ∀ w, heirAt n m w = (SortedMap.lookup m w).bind List.head? := by
    intro w
    rw [heirAt]
    cases hl : SortedMap.lookup m w with
    | none => rfl
    | some nodeIDs =>
      show heir n nodeIDs = nodeIDs.head?
      cases nodeIDs with
      | nil => rfl
      | cons id rest =>
        obtain ⟨x, j, -, hx, hk⟩ := h.ring.getNodeID_of_mem hl List.mem_cons_self
        refine List.find?_cons_of_pos ?_
        rw [hx]
        simpa using hnot x j (hknown x j hk)
  have hkeys : heirKeys n m = SortedMap.keys m := by
    ext w
    show heirAt n m w ≠ none ↔ SortedMap.lookup m w ≠ none
    rw [hheir w]
    cases hl : SortedMap.lookup m w with
    | none => simp
    | some nodeIDs =>
      have hne := (h.ring.repr.ids hl).1
      simp [hne]
  constructor
  case migrator => exact h.migrator
  case valid => exact h.valid
  case ring => exact h.ring.mono hknown
  case located => exact h.located
  case owned =>
    intro k hk
    rcases h.settled k hk with ⟨w, id, hw, hid, hx⟩ | ⟨-, howner⟩
    · rw [hkeys] at hw
      rw [hheir w] at hid
      rw [owner_of_isNext h.ring.repr.ascending hw, SortedRing.nodeAt]
      obtain ⟨nodeIDs, hl, hhead⟩ := Option.bind_eq_some_iff.mp hid
      rw [hl]
      show nodeIDs.head?.bind getNodeID = _
      rw [hhead]
      exact hx
    · obtain ⟨j, hj⟩ := h.ring.owner_known howner
      exact absurd rfl (hnot n j (hknown n j hj))

/-- **`RemoveNode`** leaves every recorded key with its owner, and moves keys away from the node
only. -/
theorem Placed.removeNode (h : Placed c m recorded loc) (n : String) :
    ∃ c' res, c.removeNode n = some (c', res) ∧ ∀ ts, res = .ok ts →
      ∃ m' loc', SameSettings c c' ∧ Placed c' m' recorded loc' ∧ Moved recorded ts loc loc' ∧
        (∀ t ∈ ts, t.source = n) ∧
        ∀ x ∈ c'.hashRing.nodeToReplicas, x ∈ c.hashRing.nodeToReplicas := by
  rw [ConsistentHash.removeNode]
  cases hl : c.hashRing.nodes.lookup n with
  | none => exact ⟨_, _, rfl, nofun⟩
  | some replicas =>
    have hstart : Leaving { c with hashRing := c.hashRing.deleteNodeToReplica n } n 0
        replicas.toNat m recorded loc := by
      constructor
      case migrator => exact h.migrator
      case validSelf => exact h.valid n (Finmap.mem_of_lookup_eq_some hl)
      case valid => exact fun x hx => h.valid x (Finmap.mem_erase.mp hx).2
      case gone => exact fun hmem => (Finmap.mem_erase.mp hmem).1 rfl
      case ring =>
        refine (h.ring.mono fun x j hk => ((known_erase hl x j).mp hk).imp_right ?_).congr rfl rfl
        exact fun hxj => ⟨hxj.1, Nat.zero_le j, hxj.2⟩
      case located => exact h.located.congr rfl
      case settled =>
        intro k hk
        have howner := h.owned k hk
        by_cases hloc : loc k = n
        · rw [hloc] at howner
          exact .inr ⟨hloc, howner⟩
        · obtain ⟨w, hw, hnode⟩ := Option.bind_eq_some_iff.mp howner
          have hnext := SortedMap.ceilingWrap_isNext h.ring.repr.ascending hw
          exact .inl ((heir_of_isNext hnext).mpr (heir_of_nodeAt hnode hloc))
    obtain ⟨c', res, hrun, hend⟩ := hstart.removeLoop replicas.toNat (Nat.zero_add _) []
    refine ⟨c', res, hrun, fun ts hts => ?_⟩
    obtain ⟨m', ts', loc', rfl, hset, hreps, hleave, hmoved, hsources⟩ := hend ts hts
    refine ⟨m', loc', hset, hleave.placed, hmoved, hsources, fun x hx => ?_⟩
    rw [hreps] at hx
    exact (Finmap.mem_erase.mp hx).2

/-! ### `GetNode` -/

/-- **`GetNode`** records the key with its owner. -/
theorem Placed.getNode (h : Placed c m recorded loc) (k : String) :
    ∃ c' res, c.getNode k = some (c', res) ∧ ∀ x, res = .ok x →
      ∃ loc', SameSettings c c' ∧ Placed c' m (insert k recorded) loc' ∧
        c'.hashRing.nodeToReplicas = c.hashRing.nodeToReplicas := by
  rw [ConsistentHash.getNode]
  by_cases hm : m = []
  · have hceil : c.hashRing.ceiling (c.encryptor.encrypt k) = some (-1) := by
      rw [h.ring.repr.ceiling_eq, hm]
      rfl
    rw [hceil]
    simp only [Option.bind_eq_bind, Option.bind_some, if_true]
    exact ⟨_, _, rfl, nofun⟩
  · obtain ⟨w, hceil, hw, hw1⟩ := h.ring.ceiling_eq hm (c.encryptor.encrypt k)
    obtain ⟨id, rest, x, -, hl, hid, hnode, -⟩ := h.ring.head hw.1
    rw [hceil]
    simp only [Option.bind_eq_bind, Option.bind_some, if_neg hw1,
      h.ring.repr.node_of_lookup hl, hid]
    refine ⟨_, _, rfl, fun y hy => ?_⟩
    have howner : m.owner (c.encryptor.encrypt k) = some x := by
      rw [owner_of_isNext h.ring.repr.ascending hw, hnode]
    refine ⟨fun k' => if k' = k then x else loc k', ⟨rfl, rfl⟩, ?_, rfl⟩
    constructor
    case migrator => exact h.migrator
    case valid => exact h.valid
    case ring => exact ⟨h.ring.repr.congr rfl rfl, h.ring.entry⟩
    case located =>
      intro y k'
      show k' ∈ (c.hashRing.addNodeToDataKeys x {k}).dataKeys y ↔ _
      rw [dataKeys_addNodeToDataKeys]
      by_cases hk : k' = k
      · simp only [hk, if_true, Set.mem_insert_iff, true_or, true_and]
        by_cases hy : y = x
        · simp [hy]
        · rw [if_neg hy, h.located y k]
          refine ⟨fun ⟨hrec, hloc⟩ => ?_, fun he => absurd he.symm hy⟩
          have howned := h.owned k hrec
          rw [howner, hloc] at howned
          exact Option.some.inj howned
      · simp only [hk, if_false, Set.mem_insert_iff, false_or, ← h.located y k']
        by_cases hy : y = x
        · simp [hy, hk]
        · rw [if_neg hy]
    case owned =>
      intro k' hk'
      by_cases hk : k' = k
      · rw [if_pos hk, hk]
        exact howner
      · rw [if_neg hk]
        exact h.owned k' (hk'.resolve_left hk)

end Steps

/-! ### Runs -/

/-- A call of the consistent hash; `AddNode` comes with the results of `roll`. -/
inductive HashCall
  | addNode (nodeID : String) (weight : ℤ) (rolls : ℕ → ℕ)
  | removeNode (nodeID : String)
  | getNode (dataKey : String)

/-- Nodes come with valid ids. -/
def HashCall.Valid : HashCall → Prop
  | .addNode nodeID _ _ => ValidID nodeID
  | .removeNode _ | .getNode _ => True

/-- The error of a result. -/
def errorOf {α : Type*} : Except String α → Option String
  | .error err => some err
  | .ok _ => none

/-- One call, with the error it returns. -/
def ConsistentHash.call (c : ConsistentHash) : HashCall → Option (ConsistentHash × Option String)
  | .addNode nodeID weight rolls =>
    (c.addNode nodeID weight rolls).map fun (c', r) => (c', errorOf r)
  | .removeNode nodeID => (c.removeNode nodeID).map fun (c', r) => (c', errorOf r)
  | .getNode dataKey => (c.getNode dataKey).map fun (c', r) => (c', errorOf r)

/-- The state after the calls, when all of them return and none returns an error. -/
def ConsistentHash.callsWithoutError (c : ConsistentHash) : List HashCall → Option ConsistentHash
  | [] => some c
  | op :: ops => do
    match ← c.call op with
    | (_, some _) => none
    | (c', none) => c'.callsWithoutError ops

/-- The node of the first entry of `Node(Ceiling(hash k))`. -/
def ConsistentHash.ringOwner (c : ConsistentHash) (dataKey : String) : Option String := do
  let score ← c.hashRing.ceiling (c.encryptor.encrypt dataKey)
  match ← c.hashRing.node score with
  | .ok (node :: _) => getNodeID node
  | _ => none

/-- The node of the first entry of `Node(Ceiling(score))`. -/
def ConsistentHash.ownerAt (c : ConsistentHash) (score : ℤ) : Option String := do
  let score ← c.hashRing.ceiling score
  match ← c.hashRing.node score with
  | .ok (node :: _) => getNodeID node
  | _ => none

section Runs

variable {c c' : ConsistentHash} {m : SortedRing} {recorded : Set String} {loc : String → String}

theorem RingInv.ownerAt_eq {known : String → ℕ → Prop}
    (h : RingInv c.encryptor known c.hashRing m) (score : ℤ) :
    c.ownerAt score = m.owner score := by
  rw [ConsistentHash.ownerAt]
  by_cases hm : m = []
  · have hnode := h.repr.node_eq (-1)
    rw [h.repr.ceiling_eq, hm]
    rw [hm] at hnode
    show (c.hashRing.node (-1)).bind _ = none
    rw [hnode]
    rfl
  · obtain ⟨w, hceil, hw, -⟩ := h.ceiling_eq hm score
    obtain ⟨id, rest, x, -, hl, hid, hnode, -⟩ := h.head hw.1
    rw [hceil, owner_of_isNext h.repr.ascending hw, hnode]
    simp only [Option.bind_eq_bind, Option.bind_some, h.repr.node_of_lookup hl]
    exact hid

theorem Placed.ringOwner_eq (h : Placed c m recorded loc) (k : String) :
    c.ringOwner k = m.owner (c.encryptor.encrypt k) :=
  h.ring.ownerAt_eq (c.encryptor.encrypt k)

/-- The data keys that a call records. -/
def HashCall.records : HashCall → Set String
  | .addNode _ _ _ | .removeNode _ => ∅
  | .getNode dataKey => {dataKey}

/-- Every call returns, and without an error every recorded key is with its owner. -/
theorem Placed.call (h : Placed c m recorded loc) {op : HashCall} (hop : op.Valid) :
    ∃ c' err, c.call op = some (c', err) ∧
      (err = none → (∃ m' loc', Placed c' m' (op.records ∪ recorded) loc') ∧
        ∀ x ∈ c'.hashRing.nodeToReplicas,
          (∃ weight rolls, op = .addNode x weight rolls) ∨ x ∈ c.hashRing.nodeToReplicas) := by
  cases op with
  | addNode nodeID weight rolls =>
    obtain ⟨c', r, hrun, -, hspec⟩ := h.addNode hop weight rolls
    refine ⟨c', errorOf r, ?_, fun herr => ?_⟩
    · rw [ConsistentHash.call, hrun]
      rfl
    · cases r with
      | error err => cases herr
      | ok ts =>
        obtain ⟨m', loc', -, hplaced, -, -, hnodes⟩ := hspec ts rfl
        refine ⟨⟨m', loc', ?_⟩, fun x hx => ?_⟩
        · rw [HashCall.records, Set.empty_union]
          exact hplaced
        · refine (hnodes x hx).imp_left ?_
          rintro rfl
          exact ⟨weight, rolls, rfl⟩
  | removeNode nodeID =>
    obtain ⟨c', r, hrun, hspec⟩ := h.removeNode nodeID
    refine ⟨c', errorOf r, ?_, fun herr => ?_⟩
    · rw [ConsistentHash.call, hrun]
      rfl
    · cases r with
      | error err => cases herr
      | ok ts =>
        obtain ⟨m', loc', -, hplaced, -, -, hnodes⟩ := hspec ts rfl
        refine ⟨⟨m', loc', ?_⟩, fun x hx => .inr (hnodes x hx)⟩
        rw [HashCall.records, Set.empty_union]
        exact hplaced
  | getNode dataKey =>
    obtain ⟨c', r, hrun, hspec⟩ := h.getNode dataKey
    refine ⟨c', errorOf r, ?_, fun herr => ?_⟩
    · rw [ConsistentHash.call, hrun]
      rfl
    · cases r with
      | error err => cases herr
      | ok x =>
        obtain ⟨loc', -, hplaced, hnodes⟩ := hspec x rfl
        refine ⟨⟨m, loc', hplaced⟩, fun y hy => .inr ?_⟩
        rw [hnodes] at hy
        exact hy

theorem placed_new (encryptor : Encryptor) (replicas : ℤ) :
    Placed (newConsistentHash newSkiplistHashRing encryptor true replicas) [] ∅ fun _ => "" := by
  constructor
  case migrator => rfl
  case valid =>
    intro x hx
    exact absurd hx Finmap.notMem_empty
  case ring => exact ⟨represents_new, nofun⟩
  case located =>
    intro x k
    refine ⟨fun hk => ?_, fun hk => absurd hk.1 (Set.notMem_empty k)⟩
    exact absurd hk (Finset.notMem_empty k)
  case owned => exact nofun

/-- Every run without an error keeps the recorded keys with their owners, and the nodes on the
ring were added. -/
theorem Placed.calls (h : Placed c m recorded loc) {ops : List HashCall}
    (hops : ∀ op ∈ ops, op.Valid) (hrun : c.callsWithoutError ops = some c') :
    (∃ m' loc', Placed c' m' {k | k ∈ recorded ∨ HashCall.getNode k ∈ ops} loc') ∧
      ∀ x ∈ c'.hashRing.nodeToReplicas,
        (∃ weight rolls, HashCall.addNode x weight rolls ∈ ops) ∨
          x ∈ c.hashRing.nodeToReplicas := by
  induction ops generalizing c m recorded loc with
  | nil =>
    obtain rfl := Option.some.inj hrun
    refine ⟨⟨m, loc, ?_⟩, fun x hx => .inr hx⟩
    simpa using h
  | cons op ops ih =>
    obtain ⟨c₁, err, hcall, hnext⟩ := h.call (hops op List.mem_cons_self)
    rw [ConsistentHash.callsWithoutError, hcall] at hrun
    cases err with
    | some err => cases hrun
    | none =>
      obtain ⟨⟨m₁, loc₁, hplaced⟩, hnodes⟩ := hnext rfl
      obtain ⟨⟨m', loc', hplaced'⟩, hnodes'⟩ :=
        ih hplaced (fun op' hop' => hops op' (List.mem_cons_of_mem op hop')) hrun
      refine ⟨⟨m', loc', ?_⟩, fun x hx => ?_⟩
      swap
      · rcases hnodes' x hx with ⟨weight, rolls, hmem⟩ | hx
        · exact .inl ⟨weight, rolls, List.mem_cons_of_mem op hmem⟩
        · rcases hnodes x hx with ⟨weight, rolls, rfl⟩ | hx
          · exact .inl ⟨weight, rolls, List.mem_cons_self⟩
          · exact .inr hx
      have hset : {k | k ∈ op.records ∪ recorded ∨ HashCall.getNode k ∈ ops} =
          {k | k ∈ recorded ∨ HashCall.getNode k ∈ op :: ops} := by
        ext k
        cases op with
        | addNode nodeID weight rolls => simp [HashCall.records]
        | removeNode nodeID => simp [HashCall.records]
        | getNode dataKey =>
          simp only [HashCall.records, Set.singleton_union, Set.mem_insert_iff,
            Set.mem_ofPred_eq, List.mem_cons, HashCall.getNode.injEq]
          tauto
      rw [hset] at hplaced'
      exact hplaced'

end Runs

/-- **Data keys follow the ring.**  For every hash function, every level that `roll` returns and
all node ids that are not empty and have no underscore: after every run of calls without an
error, a node holds a data key exactly when the key was passed to `GetNode` and the node is its
owner on the ring, so each such key is held by exactly one node; and the next call returns. -/
theorem data_keys_follow_ring (encryptor : Encryptor) (replicas : ℤ) (ops : List HashCall)
    (hops : ∀ op ∈ ops, op.Valid) (c : ConsistentHash)
    (hrun : (newConsistentHash newSkiplistHashRing encryptor true replicas).callsWithoutError
      ops = some c) :
    (∀ k n, k ∈ c.hashRing.dataKeys n ↔
      HashCall.getNode k ∈ ops ∧ c.ringOwner k = some n) ∧
    (∀ k, HashCall.getNode k ∈ ops → ∃! n, k ∈ c.hashRing.dataKeys n) ∧
    ∀ op : HashCall, op.Valid → ∃ c' err, c.call op = some (c', err) := by
  obtain ⟨⟨m, loc, hplaced⟩, -⟩ := (placed_new encryptor replicas).calls hops hrun
  have hrec : ∀ k, k ∈ {k | k ∈ (∅ : Set String) ∨ HashCall.getNode k ∈ ops} ↔
      HashCall.getNode k ∈ ops := by
    intro k
    simp
  have hloc : ∀ n k, k ∈ c.hashRing.dataKeys n ↔ HashCall.getNode k ∈ ops ∧ loc k = n := by
    intro n k
    rw [hplaced.located n k, hrec]
  refine ⟨fun k n => ?_, fun k hk => ?_, fun op hop => ?_⟩
  · rw [hloc, hplaced.ringOwner_eq]
    refine and_congr_right fun hk => ?_
    rw [hplaced.owned k ((hrec k).mpr hk), Option.some.injEq]
  · exact ⟨loc k, (hloc _ k).mpr ⟨hk, rfl⟩, fun n hn => ((hloc n k).mp hn).2.symm⟩
  · obtain ⟨c', err, hcall, -⟩ := hplaced.call hop
    exact ⟨c', err, hcall⟩

/-- A hash function under which everything collides. -/
def constantEncryptor : Encryptor := ⟨fun _ => 0, fun _ => le_rfl, fun _ => by decide⟩

/-- Two nodes at one score; the first, which holds the key, leaves. -/
def leaveFirst (first second : String) : List HashCall :=
  [.addNode first 1 fun _ => 0, .addNode second 1 fun _ => 1, .getNode "k", .removeNode first]

theorem data_keys_follow_ring_leave :
    ∃ c, (newConsistentHash newSkiplistHashRing constantEncryptor true 1).callsWithoutError
        (leaveFirst "a" "b") = some c ∧ "k" ∈ c.hashRing.dataKeys "b" := by
  have hrun : ((newConsistentHash newSkiplistHashRing constantEncryptor true 1).callsWithoutError
      (leaveFirst "a" "b")).map (fun c => c.ringOwner "k") = some (some "b") := by
    decide +kernel
  obtain ⟨c, hc, howner⟩ := Option.map_eq_some_iff.mp hrun
  refine ⟨c, hc, ?_⟩
  have hops : ∀ op ∈ leaveFirst "a" "b", op.Valid := by
    intro op hop
    simp only [leaveFirst, List.mem_cons, List.not_mem_nil, or_false] at hop
    rcases hop with rfl | rfl | rfl | rfl
    · show ValidID "a"
      decide +kernel
    · show ValidID "b"
      decide +kernel
    · trivial
    · trivial
  have hkeys := (data_keys_follow_ring constantEncryptor 1 _ hops c hc).1 "k" "b"
  exact hkeys.mpr ⟨by simp [leaveFirst], howner⟩

/-- With the empty id, which `migrateOut` takes for no node, the leaving node keeps the key
although the ring says otherwise. -/
theorem data_keys_leave_ring_empty_id :
    ∃ c, (newConsistentHash newSkiplistHashRing constantEncryptor true 1).callsWithoutError
        (leaveFirst "a" "") = some c ∧ '_' ∉ "a".toList ∧ '_' ∉ "".toList ∧
      "k" ∈ c.hashRing.dataKeys "a" ∧ c.ringOwner "k" = some "" := by
  have hrun : ((newConsistentHash newSkiplistHashRing constantEncryptor true 1).callsWithoutError
      (leaveFirst "a" "")).map
        (fun c => (decide ("k" ∈ c.hashRing.dataKeys "a"), c.ringOwner "k")) =
      some (true, some "") := by
    decide +kernel
  obtain ⟨c, hc, hpair⟩ := Option.map_eq_some_iff.mp hrun
  rw [Prod.mk.injEq, decide_eq_true_eq] at hpair
  exact ⟨c, hc, by decide +kernel, by decide +kernel, hpair.1, hpair.2⟩

end Aster.Local
