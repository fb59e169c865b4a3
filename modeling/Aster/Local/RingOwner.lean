import Aster.Local.ConsistentHash
import Aster.Local.RingRefinement

/-!
# The owner of a data key

The owner of a score is the node of the first entry of the next score on the ring.  When a
virtual node comes or goes, the owner changes only on its arc.  `Heir m n d x` says that `x`
becomes the owner of `d` once all virtual nodes of `n` are gone; it does not change while they
go, and `getValidNextNode` finds it.
-/

namespace Aster.Local

open Aster.Lib Aster.Lib.CyclicOrder

/-! ### Node keys -/

theorem getNodeID_getRawNodeKey (nodeID : String) (index : ℕ) :
    getNodeID (getRawNodeKey nodeID index) = some nodeID := by
  have hdigits : ∀ ch ∈ (toString index).toList.reverse, decide (ch ≠ '_') = true := by
    intro ch hch
    rw [toList_toString, List.mem_reverse] at hch
    exact decide_eq_true (ne_of_mem_of_not_mem hch Nat.underscore_not_in_toDigits)
  have hlist : (getRawNodeKey nodeID index).toList.reverse =
      (toString index).toList.reverse ++ '_' :: nodeID.toList.reverse := by
    rw [getRawNodeKey, String.toList_append, String.toList_append]
    simp
  rw [getNodeID, hlist, List.dropWhile_append_of_pos hdigits, List.dropWhile_cons_of_neg (by simp)]
  simp

theorem toString_nat_inj {i j : ℕ} (h : toString i = toString j) : i = j := by
  have hi : Nat.ofDigitChars 10 (toString i).toList 0 = i := by
    rw [toList_toString]
    exact Nat.ofDigitChars_toDigits (by decide) (by decide)
  rw [← hi, h, toList_toString]
  exact Nat.ofDigitChars_toDigits (by decide) (by decide)

theorem getRawNodeKey_inj {x y : String} {i j : ℕ} :
    getRawNodeKey x i = getRawNodeKey y j ↔ x = y ∧ i = j := by
  constructor
  · intro he
    have hget := getNodeID_getRawNodeKey x i
    rw [he, getNodeID_getRawNodeKey] at hget
    obtain rfl := Option.some.inj hget
    rw [getRawNodeKey, getRawNodeKey, String.append_right_inj] at he
    exact ⟨rfl, toString_nat_inj he⟩
  · rintro ⟨rfl, rfl⟩
    rfl

/-! ### Scores -/

theorem int32_eq {x : ℤ} (h₁ : -2 ^ 31 ≤ x) (h₂ : x < 2 ^ 31) : int32 x = x :=
  Int.bmod_eq_of_le (by norm_num; omega) (by norm_num; omega)

theorem incrScore_eq {x : ℤ} (h₀ : 0 ≤ x) (hM : x < maxInt32) :
    incrScore x = succ maxInt32 x := by
  rw [maxInt32] at hM
  rw [incrScore, succ, int32_eq (by omega) (by omega)]

theorem decrScore_eq {x : ℤ} (h₀ : 0 ≤ x) (hM : x < maxInt32) :
    decrScore x = pred maxInt32 x := by
  rw [maxInt32] at hM
  rw [decrScore, pred, int32_eq (by omega) (by omega)]

/-- The test of `migrateOut` is the arc of the virtual node. -/
theorem lost_iff {lastScore virtualScore dataScore : ℤ} (hl₀ : 0 ≤ lastScore)
    (hl : lastScore < maxInt32) (hv₀ : 0 ≤ virtualScore) (hv : virtualScore < maxInt32)
    (hd₀ : 0 ≤ dataScore) (hd : dataScore < maxInt32) :
    ConsistentHash.lost lastScore virtualScore dataScore = true ↔
      (lastScore < virtualScore ∧ lastScore < dataScore ∧ dataScore ≤ virtualScore) ∨
      (virtualScore < lastScore ∧ (dataScore ≤ virtualScore ∨ lastScore < dataScore)) := by
  rw [maxInt32] at hl hv hd
  rw [ConsistentHash.lost]
  by_cases hp : virtualScore < lastScore
  · simp only [hp, decide_true, if_true, true_and, maxInt32]
    rw [int32_eq (x := lastScore - (2 ^ 31 - 1)) (by omega) (by omega),
      int32_eq (x := lastScore - (2 ^ 31 - 1) + (2 ^ 31 - 1)) (by omega) (by omega),
      int32_eq (x := dataScore - (2 ^ 31 - 1)) (by omega) (by omega)]
    split_ifs with hgt <;> simp <;> omega
  · simp only [hp, decide_false, Bool.false_eq_true, if_false, false_and]
    simp
    omega

/-- The test of `migrateIn` is the arc of the virtual node. -/
theorem gained_iff {lastScore virtualScore nextScore dataScore : ℤ} (hl₀ : 0 ≤ lastScore)
    (hl : lastScore < maxInt32) (hv₀ : 0 ≤ virtualScore) (hv : virtualScore < maxInt32)
    (hd₀ : 0 ≤ dataScore) (hd : dataScore < maxInt32)
    (hnext : virtualScore < lastScore → virtualScore ≤ nextScore) :
    ConsistentHash.gained lastScore virtualScore nextScore dataScore = true ↔
      (lastScore < virtualScore ∧ lastScore < dataScore ∧ dataScore ≤ virtualScore) ∨
      (virtualScore < lastScore ∧ (dataScore ≤ virtualScore ∨ lastScore < dataScore)) := by
  rw [← lost_iff hl₀ hl hv₀ hv hd₀ hd, ConsistentHash.gained, ConsistentHash.lost]
  rw [maxInt32] at hl hv hd
  by_cases htwo : nextScore < virtualScore
  · -- both bounds and the score are shifted together
    have hp : ¬ virtualScore < lastScore := fun h => absurd (hnext h) (not_le.mpr htwo)
    simp only [htwo, hp, decide_true, decide_false, Bool.false_eq_true, if_true, if_false,
      false_and, maxInt32]
    rw [int32_eq (x := lastScore - (2 ^ 31 - 1)) (by omega) (by omega),
      int32_eq (x := virtualScore - (2 ^ 31 - 1)) (by omega) (by omega),
      int32_eq (x := dataScore - (2 ^ 31 - 1)) (by omega) (by omega)]
    simp
  · simp only [htwo, decide_false, Bool.false_eq_true, if_false]

/-! ### Entries after an update -/

theorem lookup_add (m : SortedRing) (score s : ℤ) (nodeID : String) :
    SortedMap.lookup (m.add score nodeID) s =
      if s = score then
        some (match SortedMap.lookup m score with
          | none => [nodeID]
          | some nodeIDs => if nodeID ∈ nodeIDs then nodeIDs else nodeIDs ++ [nodeID])
      else SortedMap.lookup m s := by
  rw [SortedRing.add]
  cases hl : SortedMap.lookup m score with
  | none => exact SortedMap.lookup_set m score s _
  | some nodeIDs =>
    show SortedMap.lookup (if nodeID ∈ nodeIDs then m else _) s = _
    by_cases hmem : nodeID ∈ nodeIDs
    · rw [if_pos hmem]
      split_ifs with hs
      · rw [hs, hl]
        simp only [if_pos hmem]
      · rfl
    · rw [if_neg hmem, SortedMap.lookup_set]
      simp only [if_neg hmem]

/-- `Rem` succeeds when the score has the id, and takes it out. -/
theorem rem_of_mem {m : SortedRing} {score : ℤ} {nodeID : String} {nodeIDs : List String}
    (hl : SortedMap.lookup m score = some nodeIDs) (hmem : nodeID ∈ nodeIDs) :
    (m.rem score nodeID).2 = none ∧ ∀ s, SortedMap.lookup (m.rem score nodeID).1 s =
      if s = score then (if nodeIDs.erase nodeID = [] then none else some (nodeIDs.erase nodeID))
      else SortedMap.lookup m s := by
  have hlen := List.length_erase_of_mem hmem
  rw [SortedRing.rem, hl]
  show (if nodeID ∉ nodeIDs then _ else _ : SortedRing × Option String).2 = none ∧ _
  rw [if_neg (not_not.mpr hmem)]
  by_cases hone : 1 < nodeIDs.length
  · have hne : nodeIDs.erase nodeID ≠ [] := List.ne_nil_of_length_pos (by omega)
    simp only [if_pos hone, if_neg hne, not_not.mpr hmem, if_false]
    exact ⟨trivial, fun s => SortedMap.lookup_set m score s _⟩
  · have hnil : nodeIDs.erase nodeID = [] := List.length_eq_zero_iff.mp (by omega)
    simp only [if_neg hone, hnil, if_true, not_not.mpr hmem, if_false]
    exact ⟨trivial, SortedMap.lookup_erase m score⟩

theorem mem_of_rem {m : SortedRing} {score : ℤ} {nodeID : String}
    (h : (m.rem score nodeID).2 = none) :
    ∃ nodeIDs, SortedMap.lookup m score = some nodeIDs ∧ nodeID ∈ nodeIDs := by
  rw [SortedRing.rem] at h
  cases hl : SortedMap.lookup m score with
  | none =>
    rw [hl] at h
    cases h
  | some nodeIDs =>
    rw [hl] at h
    refine ⟨nodeIDs, rfl, ?_⟩
    by_contra hmem
    simp only [if_pos hmem] at h
    cases h

/-- The id is at the score. -/
def SortedRing.Has (m : SortedRing) (score : ℤ) (nodeID : String) : Prop :=
  ∃ nodeIDs, SortedMap.lookup m score = some nodeIDs ∧ nodeID ∈ nodeIDs

theorem has_add {m : SortedRing} {v w : ℤ} {key id : String} :
    (m.add v key).Has w id ↔ m.Has w id ∨ (w = v ∧ id = key) := by
  rw [SortedRing.Has, lookup_add, SortedRing.Has]
  by_cases hw : w = v
  · rw [if_pos hw, hw]
    cases SortedMap.lookup m v with
    | none => simp
    | some nodeIDs =>
      by_cases hmem : key ∈ nodeIDs
      · simp only [if_pos hmem, Option.some.injEq, exists_eq_left', true_and]
        refine (or_iff_left_of_imp ?_).symm
        rintro rfl
        exact hmem
      · simp [hmem]
  · simp [hw]

theorem has_rem {m : SortedRing} {v w : ℤ} {key id : String} {nodeIDs : List String}
    (hl : SortedMap.lookup m v = some nodeIDs) (hnd : nodeIDs.Nodup) (hmem : key ∈ nodeIDs) :
    (m.rem v key).1.Has w id ↔ m.Has w id ∧ ¬ (w = v ∧ id = key) := by
  rw [SortedRing.Has, (rem_of_mem hl hmem).2 w, SortedRing.Has]
  by_cases hw : w = v
  · rw [if_pos hw, hw, hl]
    simp only [Option.some.injEq, exists_eq_left', true_and]
    rw [and_comm, ← hnd.mem_erase_iff]
    split_ifs with hnil
    · simp [hnil]
    · simp
  · simp [hw]

/-! ### Owners -/

/-- The node of the first of the ids at a score. -/
def headNode (nodeIDs : List String) : Option String := nodeIDs.head?.bind getNodeID

/-- The node of the first entry at a score. -/
def SortedRing.nodeAt (m : SortedRing) (score : ℤ) : Option String :=
  (SortedMap.lookup m score).bind headNode

/-- The node that owns a score. -/
def SortedRing.owner (m : SortedRing) (dataScore : ℤ) : Option String :=
  (SortedMap.ceilingWrap m dataScore).bind m.nodeAt

section Owner

variable {m m₀ : SortedRing} {d v nxt : ℤ}

theorem owner_of_isNext (hm : SortedMap.Ascending m) (hd : IsNext (SortedMap.keys m) d v) :
    m.owner d = m.nodeAt v := by
  rw [SortedRing.owner, SortedMap.ceilingWrap_eq_of_isNext hm hd]
  rfl

/-- The rings have the same entries but for one score. -/
def AgreeOff (v : ℤ) (m₀ m : SortedRing) : Prop :=
  ∀ s, s ≠ v → SortedMap.lookup m₀ s = SortedMap.lookup m s

theorem AgreeOff.nodeAt (h : AgreeOff v m₀ m) {s : ℤ} (hs : s ≠ v) : m₀.nodeAt s = m.nodeAt s := by
  rw [SortedRing.nodeAt, h s hs]
  rfl

theorem AgreeOff.keys_eq (h : AgreeOff v m₀ m) (hv : v ∈ SortedMap.keys m)
    (hv₀ : v ∈ SortedMap.keys m₀) : SortedMap.keys m₀ = SortedMap.keys m := by
  ext s
  by_cases hs : s = v
  · rw [hs]
    exact ⟨fun _ => hv, fun _ => hv₀⟩
  · show SortedMap.lookup m₀ s ≠ none ↔ SortedMap.lookup m s ≠ none
    rw [h s hs]

theorem AgreeOff.keys_diff (h : AgreeOff v m₀ m) (hv₀ : SortedMap.lookup m₀ v = none) :
    SortedMap.keys m₀ = SortedMap.keys m \ {v} := by
  ext s
  by_cases hs : s = v
  · rw [hs]
    exact ⟨fun hmem => absurd hv₀ hmem, fun hmem => absurd rfl hmem.2⟩
  · show SortedMap.lookup m₀ s ≠ none ↔ SortedMap.lookup m s ≠ none ∧ s ≠ v
    rw [h s hs]
    exact ⟨fun hmem => ⟨hmem, hs⟩, fun hmem => hmem.1⟩

/-- A change at one score matters only on its arc. -/
theorem AgreeOff.owner_eq (h : AgreeOff v m₀ m) (hm : SortedMap.Ascending m)
    (hm₀ : SortedMap.Ascending m₀) (hv : v ∈ SortedMap.keys m)
    (hd : ¬ IsNext (SortedMap.keys m) d v) : m₀.owner d = m.owner d := by
  cases hc : SortedMap.ceilingWrap m d with
  | none =>
    obtain ⟨e, he, -⟩ := SortedMap.mem_keys.mp hv
    rw [SortedMap.ceilingWrap_eq_none hc] at he
    cases he
  | some s =>
    have hs := SortedMap.ceilingWrap_isNext hm hc
    have hsv : s ≠ v := by
      rintro rfl
      exact hd hs
    have hs₀ : IsNext (SortedMap.keys m₀) d s := by
      cases hl : SortedMap.lookup m₀ v with
      | none =>
        rw [h.keys_diff hl, isNext_diff_iff hd]
        exact hs
      | some nodeIDs =>
        rw [h.keys_eq hv (SortedMap.mem_keys_of_lookup hl)]
        exact hs
    rw [owner_of_isNext hm hs, owner_of_isNext hm₀ hs₀, h.nodeAt hsv]

/-- Without the score, its arc falls to the node at the next one. -/
theorem AgreeOff.owner_fall (h : AgreeOff v m₀ m) (hm₀ : SortedMap.Ascending m₀)
    (hrange : ∀ x ∈ SortedMap.keys m, 0 ≤ x ∧ x < maxInt32)
    (hnone : SortedMap.lookup m₀ v = none) (hd : IsNext (SortedMap.keys m) d v)
    (hn : IsNext (SortedMap.keys m) (succ maxInt32 v) nxt) (hne : nxt ≠ v) :
    m₀.owner d = m.nodeAt nxt := by
  have hd₀ : IsNext (SortedMap.keys m₀) d nxt := by
    rw [h.keys_diff hnone]
    exact hd.diff hrange hn hne
  rw [owner_of_isNext hm₀ hd₀, h.nodeAt hne]

theorem agreeOff_add (m : SortedRing) (v : ℤ) (key : String) : AgreeOff v m (m.add v key) := by
  intro w hw
  rw [lookup_add, if_neg hw]

theorem agreeOff_rem {key : String} {nodeIDs : List String}
    (hl : SortedMap.lookup m v = some nodeIDs) (hmem : key ∈ nodeIDs) :
    AgreeOff v (m.rem v key).1 m := by
  intro w hw
  rw [(rem_of_mem hl hmem).2 w, if_neg hw]

/-- A node key at a score that another one has already changes no owner. -/
theorem owner_add_of_lookup {key : String} {nodeIDs : List String} (hm : SortedMap.Ascending m)
    (hm' : SortedMap.Ascending (m.add v key)) (hl : SortedMap.lookup m v = some nodeIDs)
    (hne : nodeIDs ≠ []) (d : ℤ) : (m.add v key).owner d = m.owner d := by
  obtain ⟨nodeIDs', hl', hhead⟩ : ∃ nodeIDs', SortedMap.lookup (m.add v key) v = some nodeIDs' ∧
      nodeIDs'.head? = nodeIDs.head? := by
    rw [lookup_add, if_pos rfl, hl]
    refine ⟨_, rfl, ?_⟩
    show (if key ∈ nodeIDs then nodeIDs else nodeIDs ++ [key]).head? = nodeIDs.head?
    split_ifs
    · rfl
    · exact List.head?_append_of_ne_nil nodeIDs hne
  have hv := SortedMap.mem_keys_of_lookup hl'
  by_cases hd : IsNext (SortedMap.keys (m.add v key)) d v
  · have hd' := hd
    rw [← (agreeOff_add m v key).keys_eq hv (SortedMap.mem_keys_of_lookup hl)] at hd'
    rw [owner_of_isNext hm' hd, owner_of_isNext hm hd', SortedRing.nodeAt, SortedRing.nodeAt, hl,
      hl']
    show nodeIDs'.head?.bind getNodeID = nodeIDs.head?.bind getNodeID
    rw [hhead]
  · exact ((agreeOff_add m v key).owner_eq hm' hm hv hd).symm

end Owner

/-! ### Heirs -/

/-- The first of the ids that is not of the node. -/
def heir (nodeID : String) (nodeIDs : List String) : Option String :=
  nodeIDs.find? fun id => getNodeID id ≠ some nodeID

def heirAt (nodeID : String) (m : SortedRing) (score : ℤ) : Option String :=
  (SortedMap.lookup m score).bind (heir nodeID)

/-- The scores that stay when the node is gone. -/
def heirKeys (nodeID : String) (m : SortedRing) : Set ℤ := {s | heirAt nodeID m s ≠ none}

/-- `x` owns the score once the node is gone. -/
def Heir (m : SortedRing) (nodeID : String) (dataScore : ℤ) (x : String) : Prop :=
  ∃ s id, IsNext (heirKeys nodeID m) dataScore s ∧ heirAt nodeID m s = some id ∧
    getNodeID id = some x

section Heir

variable {m : SortedRing} {n x : String} {d v nxt : ℤ}

theorem heirKeys_subset : heirKeys n m ⊆ SortedMap.keys m := by
  intro s hs hnone
  apply hs
  rw [heirAt, hnone]
  rfl

theorem Heir.congr {m₀ : SortedRing} (h : ∀ s, heirAt n m₀ s = heirAt n m s) :
    Heir m₀ n d x ↔ Heir m n d x := by
  have hkeys : heirKeys n m₀ = heirKeys n m := by
    ext s
    show heirAt n m₀ s ≠ none ↔ heirAt n m s ≠ none
    rw [h s]
  simp only [Heir, hkeys, h]

theorem heir_of_isNext (hd : IsNext (SortedMap.keys m) d v) : Heir m n d x ↔ Heir m n v x := by
  simp only [Heir, hd.subset heirKeys_subset]

theorem heir_at {id : String} (h : heirAt n m v = some id) (hx : getNodeID id = some x) :
    Heir m n v x :=
  ⟨v, id, isNext_self (by show heirAt n m v ≠ none; rw [h]; exact Option.some_ne_none id), h, hx⟩

/-- The owner is the heir when it is not the node itself. -/
theorem heir_of_nodeAt (h : m.nodeAt v = some x) (hx : x ≠ n) : Heir m n v x := by
  obtain ⟨nodeIDs, hl, hhead⟩ := Option.bind_eq_some_iff.mp h
  obtain ⟨id, hid, hnode⟩ := Option.bind_eq_some_iff.mp hhead
  refine heir_at ?_ hnode
  obtain ⟨rest, rfl⟩ : ∃ rest, nodeIDs = id :: rest := by
    cases nodeIDs with
    | nil => cases hid
    | cons y rest => exact ⟨rest, by rw [Option.some.inj hid]⟩
  rw [heirAt, hl]
  show heir n (id :: rest) = some id
  refine List.find?_cons_of_pos ?_
  rw [hnode]
  simpa using hx

/-- A score without heirs passes them on from the next score. -/
theorem heir_succ (hrange : ∀ s ∈ SortedMap.keys m, 0 ≤ s ∧ s < maxInt32) (hv : v < maxInt32)
    (hnone : heirAt n m v = none) (hn : IsNext (SortedMap.keys m) (succ maxInt32 v) nxt) :
    Heir m n v x ↔ Heir m n nxt x := by
  rw [← heir_of_isNext hn]
  simp only [Heir, isNext_succ_iff (fun s hs => hrange s (heirKeys_subset hs))
    (fun hmem : v ∈ heirKeys n m => hmem hnone) hv]

end Heir

/-! ### The other nodes -/

/-- The ids at a score that are not of the node, in their order. -/
def othersAt (nodeID : String) (m : SortedRing) (score : ℤ) : List String :=
  ((SortedMap.lookup m score).getD []).filter fun id => getNodeID id ≠ some nodeID

section Others

variable {m m' : SortedRing} {n key : String} {d v : ℤ}

theorem heirAt_eq_head (n : String) (m : SortedRing) (v : ℤ) :
    heirAt n m v = (othersAt n m v).head? := by
  rw [heirAt, othersAt, List.head?_filter]
  cases SortedMap.lookup m v with
  | none => rfl
  | some nodeIDs => rfl

theorem mem_heirKeys : v ∈ heirKeys n m ↔ othersAt n m v ≠ [] := by
  show heirAt n m v ≠ none ↔ _
  rw [heirAt_eq_head, ne_eq, List.head?_eq_none_iff]

theorem othersAt_add (m : SortedRing) (v : ℤ) (hkey : getNodeID key = some n) (w : ℤ) :
    othersAt n (m.add v key) w = othersAt n m w := by
  rw [othersAt, othersAt, lookup_add]
  by_cases hw : w = v
  · rw [if_pos hw, hw]
    cases SortedMap.lookup m v with
    | none => simp [hkey]
    | some nodeIDs =>
      by_cases hmem : key ∈ nodeIDs
      · simp [hmem]
      · simp [hmem, hkey]
  · rw [if_neg hw]

theorem othersAt_rem {nodeIDs : List String} (hl : SortedMap.lookup m v = some nodeIDs)
    (hmem : key ∈ nodeIDs) (hkey : getNodeID key = some n) (w : ℤ) :
    othersAt n (m.rem v key).1 w = othersAt n m w := by
  rw [othersAt, othersAt, (rem_of_mem hl hmem).2 w]
  by_cases hw : w = v
  · have hget : (if nodeIDs.erase key = [] then none else some (nodeIDs.erase key)).getD [] =
        nodeIDs.erase key := by
      split_ifs with hnil
      · exact hnil.symm
      · rfl
    rw [if_pos hw, hget, hw, hl, Option.getD_some, ← List.erase_filter]
    exact List.erase_of_not_mem (by simp [hkey])
  · rw [if_neg hw]

/-- **Owners without the node.**  When the entries of `m` are those of `m'` that are not of the
node, the owner in `m'` is the owner in `m`, or it is the node. -/
theorem owner_of_othersAt (hm : SortedMap.Ascending m) (hm' : SortedMap.Ascending m')
    (hids : ∀ v nodeIDs, SortedMap.lookup m v = some nodeIDs → nodeIDs ≠ [])
    (hothers : ∀ v, (SortedMap.lookup m v).getD [] = othersAt n m' v) {x : String}
    (ho : m'.owner d = some x) (hx : x ≠ n) : m.owner d = some x := by
  obtain ⟨v, hv, hnode⟩ := Option.bind_eq_some_iff.mp ho
  obtain ⟨nodeIDs, hl, hhead⟩ := Option.bind_eq_some_iff.mp hnode
  obtain ⟨id, hid, hget⟩ := Option.bind_eq_some_iff.mp hhead
  have hfirst : (othersAt n m' v).head? = some id := by
    rw [othersAt, hl, Option.getD_some]
    cases nodeIDs with
    | nil => cases hid
    | cons y rest =>
      obtain rfl := Option.some.inj hid
      rw [List.filter_cons_of_pos (by simp [hget, hx])]
      rfl
  have hsub : SortedMap.keys m ⊆ SortedMap.keys m' := by
    intro w hw hnone
    obtain ⟨ids, hlw⟩ := SortedMap.exists_lookup hw
    have hw' := hothers w
    rw [hlw, othersAt, hnone] at hw'
    exact hids w ids hlw hw'
  cases hlm : SortedMap.lookup m v with
  | none =>
    rw [← hothers v, hlm] at hfirst
    cases hfirst
  | some ids =>
    rw [← hothers v, hlm, Option.getD_some] at hfirst
    have hd : IsNext (SortedMap.keys m) d v :=
      ((SortedMap.ceilingWrap_isNext hm' hv).subset hsub).mpr
        (isNext_self (SortedMap.mem_keys_of_lookup hlm))
    rw [owner_of_isNext hm hd, SortedRing.nodeAt, hlm]
    show ids.head?.bind getNodeID = some x
    rw [hfirst]
    exact hget

end Others

end Aster.Local
