import Aster.Local.RingOwner

/-!
# The node after a virtual node

`getValidNextNode` goes from a score to the next ones until it meets a virtual node that is not
of the node, or a second id at a score.  `Visit` says what it does at one score.

* `visitedScores_nodup`: it looks at no score twice;
* `NamedRing.getValidNextNode_spec`: it ends, and what it finds from a score that is the node's
  own;
* `Heir.owner_withoutNode`: the heir owns the score after `Rem` of the node's virtual nodes;
* **`next_node_found`**: the whole search.
-/

namespace Aster.Local

open Aster.Lib Aster.Lib.CyclicOrder

section Represents

variable {s : SkiplistHashRing} {m : SortedRing} {v : ℤ} {nodeIDs : List String}

theorem Represents.ids (h : Represents s m) (hl : SortedMap.lookup m v = some nodeIDs) :
    nodeIDs ≠ [] ∧ nodeIDs.Nodup := by
  obtain ⟨c, hr, rfl⟩ := h
  rw [lookup_contents] at hl
  obtain ⟨p, hp, rfl⟩ := Option.map_eq_some_iff.mp hl
  exact hr.ids p (List.mem_of_find?_eq_some hp)

theorem Represents.length_lt (h : Represents s m) : m.length < s.size := by
  obtain ⟨c, hr, rfl⟩ := h
  rw [contents, List.length_map]
  exact hr.length_lt

theorem Represents.node_of_lookup (h : Represents s m)
    (hl : SortedMap.lookup m v = some nodeIDs) : s.node v = some (.ok nodeIDs) := by
  rw [h.node_eq, SortedRing.node, hl]

theorem ne_nil_of_mem_keys (hv : v ∈ SortedMap.keys m) : m ≠ [] := by
  obtain ⟨e, he, -⟩ := SortedMap.mem_keys.mp hv
  exact List.ne_nil_of_mem he

end Represents

/-- The ring stands for `m`, its scores are those of a hash, and its ids name nodes. -/
structure NamedRing (s : SkiplistHashRing) (m : SortedRing) : Prop where
  repr : Represents s m
  range : ∀ x ∈ SortedMap.keys m, 0 ≤ x ∧ x < maxInt32
  named : ∀ v id, m.Has v id → ∃ x, getNodeID id = some x

section NamedRing

variable {s : SkiplistHashRing} {m : SortedRing} {v : ℤ}

/-- `Ceiling` after a score finds the next score. -/
theorem NamedRing.ceiling_eq (h : NamedRing s m) (hne : m ≠ []) (d : ℤ) :
    ∃ nxt, s.ceiling d = some nxt ∧ IsNext (SortedMap.keys m) d nxt ∧ nxt ≠ -1 := by
  cases hc : SortedMap.ceilingWrap m d with
  | none => exact absurd (SortedMap.ceilingWrap_eq_none hc) hne
  | some nxt =>
    have hn := SortedMap.ceilingWrap_isNext h.repr.ascending hc
    have hrange := h.range nxt hn.1
    refine ⟨nxt, ?_, hn, by omega⟩
    rw [h.repr.ceiling_eq, SortedRing.ceiling, hc]
    rfl

theorem NamedRing.floor_eq (h : NamedRing s m) (hne : m ≠ []) (d : ℤ) :
    ∃ last, s.floor d = some last ∧ IsPrev (SortedMap.keys m) d last ∧ last ≠ -1 := by
  cases hf : SortedMap.floorWrap m d with
  | none => exact absurd (SortedMap.floorWrap_eq_none hf) hne
  | some last =>
    have hn := SortedMap.floorWrap_isPrev h.repr.ascending hf
    have hrange := h.range last hn.1
    refine ⟨last, ?_, hn, by omega⟩
    rw [h.repr.floor_eq, SortedRing.floor, hf]
    rfl

end NamedRing

/-! ### One score -/

/-- The scores whose ids `getValidNextNode` looks at, in order. -/
def visitedScores (s : SkiplistHashRing) (nodeID : String) : ℕ → ℤ → Finset ℤ → List ℤ
  | 0, _, _ => []
  | fuel + 1, score, ranged =>
    match s.ceiling (incrScore score) with
    | none => []
    | some nextScore =>
      if nextScore = -1 ∨ nextScore ∈ ranged then []
      else
        nextScore ::
          match s.node nextScore with
          | some (.ok [nextNode]) =>
            if getNodeID nextNode = some nodeID then
              visitedScores s nodeID fuel nextScore (insert score ranged)
            else []
          | _ => []

/-- What `getValidNextNode` does at the score after `score`: its result and the scores it looks
at. -/
inductive Visit (s : SkiplistHashRing) (m : SortedRing) (n : String) (fuel : ℕ) (score nxt : ℤ)
    (ranged : Finset ℤ) : Option (Except String String) → List ℤ → Prop
  | back (hr : nxt ∈ ranged) : Visit s m n fuel score nxt ranged (some (.ok "")) []
  | other (id : String) (rest : List String) (x : String) (hr : nxt ∉ ranged)
      (hl : SortedMap.lookup m nxt = some (id :: rest)) (hid : getNodeID id = some x)
      (hx : x ≠ n) : Visit s m n fuel score nxt ranged (some (.ok x)) [nxt]
  | second (id₁ id₂ : String) (rest : List String) (x : String) (hr : nxt ∉ ranged)
      (hl : SortedMap.lookup m nxt = some (id₁ :: id₂ :: rest)) (h₁ : getNodeID id₁ = some n)
      (h₂ : getNodeID id₂ = some x) : Visit s m n fuel score nxt ranged (some (.ok x)) [nxt]
  | own (id : String) (hr : nxt ∉ ranged) (hl : SortedMap.lookup m nxt = some [id])
      (hid : getNodeID id = some n) :
      Visit s m n fuel score nxt ranged
        (ConsistentHash.getValidNextNode s n fuel nxt (insert score ranged))
        (nxt :: visitedScores s n fuel nxt (insert score ranged))

section Search

variable {s : SkiplistHashRing} {m : SortedRing} {n : String} {fuel : ℕ} {score nxt : ℤ}
  {ranged : Finset ℤ}

theorem NamedRing.visit (h : NamedRing s m) (hscore : score ∈ SortedMap.keys m)
    (hn : IsNext (SortedMap.keys m) (succ maxInt32 score) nxt) (n : String) (fuel : ℕ)
    (ranged : Finset ℤ) :
    ∃ result visited, ConsistentHash.getValidNextNode s n (fuel + 1) score ranged = result ∧
      visitedScores s n (fuel + 1) score ranged = visited ∧
      Visit s m n fuel score nxt ranged result visited := by
  refine ⟨_, _, rfl, rfl, ?_⟩
  obtain ⟨h₀, hM⟩ := h.range score hscore
  obtain ⟨nxt', hceil, hn', hn1⟩ := h.ceiling_eq (ne_nil_of_mem_keys hscore) (succ maxInt32 score)
  obtain rfl := hn'.unique hn
  rw [ConsistentHash.getValidNextNode, visitedScores, incrScore_eq h₀ hM, hceil]
  simp only [Option.bind_eq_bind, Option.bind_some, hn1, if_false, false_or]
  by_cases hr : nxt' ∈ ranged
  · simp only [if_pos hr]
    exact .back hr
  obtain ⟨nodeIDs, hl⟩ := SortedMap.exists_lookup hn'.1
  simp only [if_neg hr, h.repr.node_of_lookup hl, Option.bind_some]
  cases nodeIDs with
  | nil => exact absurd rfl (h.repr.ids hl).1
  | cons id rest =>
    obtain ⟨x, hid⟩ := h.named nxt' id ⟨_, hl, List.mem_cons_self⟩
    simp only [hid, Option.bind_some]
    by_cases hx : x = n
    · subst hx
      simp only [ne_eq, not_true_eq_false, if_false]
      cases rest with
      | nil =>
        simp only [hid, if_true]
        exact .own id hr hl hid
      | cons id₂ rest =>
        obtain ⟨y, hid₂⟩ := h.named nxt' id₂ ⟨_, hl, by simp⟩
        simp only [hid₂, Option.bind_some]
        exact .second id id₂ rest y hr hl hid hid₂
    · have hvisit : Visit s m n fuel score nxt' ranged (some (.ok x)) [nxt'] :=
        .other id rest x hr hl hid hx
      cases rest with
      | nil => simpa [hid, hx] using hvisit
      | cons id₂ rest => simpa [hx] using hvisit

/-! ### No score twice -/

/-- Past the first score, it goes to scores where it was not and is not. -/
theorem NamedRing.visitedScores_fresh (h : NamedRing s m) (n : String) (fuel : ℕ)
    (hscore : score ∈ SortedMap.keys m) (hranged : ∀ y ∈ ranged, y ∈ SortedMap.keys m)
    (hne : ranged.Nonempty) :
    (visitedScores s n fuel score ranged).Nodup ∧
      ∀ v ∈ visitedScores s n fuel score ranged, v ∉ insert score ranged := by
  induction fuel generalizing score ranged with
  | zero => simp [visitedScores]
  | succ fuel ih =>
    obtain ⟨nxt, -, hn, -⟩ := h.ceiling_eq (ne_nil_of_mem_keys hscore) (succ maxInt32 score)
    -- a ring that comes back to the score at once has no other score
    have hfresh : nxt ∉ ranged → nxt ∉ insert score ranged := by
      intro hr hmem
      obtain rfl : nxt = score := (Finset.mem_insert.mp hmem).resolve_right hr
      obtain ⟨y, hy⟩ := hne
      have hyn : y ≠ nxt := fun he => hr (he ▸ hy)
      exact ne_of_isNext_succ h.range (hranged y hy) hyn hn rfl
    obtain ⟨result, visited, -, hvisited, hvisit⟩ := h.visit hscore hn n fuel ranged
    rw [hvisited]
    cases hvisit with
    | back hr => simp
    | other id rest x hr hl hid hx => simpa using hfresh hr
    | second id₁ id₂ rest x hr hl h₁ h₂ => simpa using hfresh hr
    | own id hr hl hid =>
      have hranged' : ∀ y ∈ insert score ranged, y ∈ SortedMap.keys m := by
        intro y hy
        rcases Finset.mem_insert.mp hy with rfl | hy
        · exact hscore
        · exact hranged y hy
      obtain ⟨hnodup, hnot⟩ := ih hn.1 hranged' (Finset.insert_nonempty _ _)
      constructor
      · exact List.nodup_cons.mpr ⟨fun hv => hnot nxt hv (Finset.mem_insert_self _ _), hnodup⟩
      · intro v hv
        rcases List.mem_cons.mp hv with rfl | hv
        · exact hfresh hr
        · exact fun hmem => hnot v hv (Finset.mem_insert_of_mem hmem)

theorem NamedRing.visitedScores_nodup (h : NamedRing s m) (n : String) (fuel : ℕ)
    (hscore : score ∈ SortedMap.keys m) :
    (visitedScores s n fuel score ∅).Nodup := by
  cases fuel with
  | zero => exact List.nodup_nil
  | succ fuel =>
    obtain ⟨nxt, -, hn, -⟩ := h.ceiling_eq (ne_nil_of_mem_keys hscore) (succ maxInt32 score)
    obtain ⟨result, visited, -, hvisited, hvisit⟩ := h.visit hscore hn n fuel ∅
    rw [hvisited]
    cases hvisit with
    | back hr => exact List.nodup_nil
    | other id rest x hr hl hid hx => exact List.nodup_singleton nxt
    | second id₁ id₂ rest x hr hl h₁ h₂ => exact List.nodup_singleton nxt
    | own id hr hl hid =>
      have hsub : ∀ y ∈ insert score (∅ : Finset ℤ), y ∈ SortedMap.keys m := by
        simpa using hscore
      obtain ⟨hnodup, hnot⟩ := h.visitedScores_fresh n fuel hn.1 hsub (Finset.insert_nonempty _ _)
      exact List.nodup_cons.mpr ⟨fun hv => hnot nxt hv (Finset.mem_insert_self _ _), hnodup⟩

/-! ### What is found -/

theorem heirAt_of_single {v : ℤ} {id : String} (hl : SortedMap.lookup m v = some [id])
    (hid : getNodeID id = some n) : heirAt n m v = none := by
  rw [heirAt, hl]
  show heir n [id] = none
  rw [heir, List.find?_eq_none]
  intro y hy
  rw [List.mem_singleton.mp hy, hid]
  simp

/-- Past the ids of the node itself, the second id is the heir. -/
theorem heirAt_second {v : ℤ} {id₁ id₂ x : String} {rest : List String}
    (hl : SortedMap.lookup m v = some (id₁ :: id₂ :: rest)) (h₁ : getNodeID id₁ = some n)
    (h₂ : getNodeID id₂ = some x) (hx : x ≠ n) : heirAt n m v = some id₂ := by
  rw [heirAt, hl]
  show heir n (id₁ :: id₂ :: rest) = some id₂
  rw [heir, List.find?_cons_of_neg (by simp [h₁]), List.find?_cons_of_pos (by simp [h₂, hx])]

theorem nodeAt_of_lookup {v : ℤ} {id x : String} {rest : List String}
    (hl : SortedMap.lookup m v = some (id :: rest)) (hid : getNodeID id = some x) :
    m.nodeAt v = some x := by
  rw [SortedRing.nodeAt, hl]
  exact hid

/-- The recursion of `getValidNextNode` ends: the scores it has been at are not seen again. -/
def RangedFuel (m : SortedRing) (fuel : ℕ) (score : ℤ) (ranged : Finset ℤ) : Prop :=
  (score ∉ ranged ∧ ((m.map Prod.fst).toFinset \ ranged).card < fuel) ∨
    (0 < fuel ∧ ∀ nxt, IsNext (SortedMap.keys m) (succ maxInt32 score) nxt → nxt ∈ ranged)

theorem RangedFuel.step
    (hf : RangedFuel m (fuel + 1) score ranged) (hscore : score ∈ SortedMap.keys m)
    (hn : IsNext (SortedMap.keys m) (succ maxInt32 score) nxt) (hnr : nxt ∉ ranged) :
    RangedFuel m fuel nxt (insert score ranged) := by
  rcases hf with ⟨hsr, hcard⟩ | ⟨-, hall⟩
  · have hmem : score ∈ (m.map Prod.fst).toFinset \ ranged := by
      rw [Finset.mem_sdiff, List.mem_toFinset, List.mem_map]
      exact ⟨SortedMap.mem_keys.mp hscore, hsr⟩
    have hpos := Finset.card_pos.mpr ⟨score, hmem⟩
    by_cases hns : nxt = score
    · -- a single score comes back to itself and stops there
      refine .inr ⟨by omega, fun y hy => ?_⟩
      rw [hns] at hn hy
      rw [← hn.unique hy]
      exact Finset.mem_insert_self _ _
    · refine .inl ⟨?_, ?_⟩
      · rw [Finset.mem_insert]
        exact fun hor => hor.elim hns hnr
      · have hlt : ((m.map Prod.fst).toFinset \ insert score ranged).card <
            ((m.map Prod.fst).toFinset \ ranged).card := by
          refine Finset.card_lt_card ((Finset.ssubset_iff_of_subset
            (Finset.sdiff_subset_sdiff le_rfl (Finset.subset_insert _ _))).mpr
            ⟨score, hmem, ?_⟩)
          rw [Finset.mem_sdiff]
          exact fun hor => hor.2 (Finset.mem_insert_self _ _)
        omega
  · exact absurd (hall nxt hn) hnr

/-- The scores that `getValidNextNode` has been at have no heirs, and from each it went on to the
next. -/
structure Trail (m : SortedRing) (n : String) (score : ℤ) (ranged : Finset ℤ) : Prop where
  mem : score ∈ SortedMap.keys m
  bare : heirAt n m score = none
  passed : ∀ y ∈ ranged, y ∈ SortedMap.keys m ∧ heirAt n m y = none ∧
    ∃ z ∈ insert score ranged, IsNext (SortedMap.keys m) (succ maxInt32 y) z

theorem Trail.step (h : Trail m n score ranged)
    (hn : IsNext (SortedMap.keys m) (succ maxInt32 score) nxt) (hnone : heirAt n m nxt = none) :
    Trail m n nxt (insert score ranged) := by
  refine ⟨hn.1, hnone, fun y hy => ?_⟩
  rcases Finset.mem_insert.mp hy with rfl | hy
  · exact ⟨h.mem, h.bare, nxt, Finset.mem_insert_self _ _, hn⟩
  · obtain ⟨hkey, hheir, z, hz, hyz⟩ := h.passed y hy
    exact ⟨hkey, hheir, z, Finset.mem_insert_of_mem hz, hyz⟩

/-- Back at a score where it has been, it has been everywhere. -/
theorem Trail.heirKeys_eq (h : Trail m n score ranged)
    (hrange : ∀ x ∈ SortedMap.keys m, 0 ≤ x ∧ x < maxInt32)
    (hn : IsNext (SortedMap.keys m) (succ maxInt32 score) nxt) (hmem : nxt ∈ ranged) :
    heirKeys n m = ∅ := by
  have hbare : ∀ y ∈ insert score ranged, y ∈ SortedMap.keys m ∧ heirAt n m y = none ∧
      ∃ z ∈ insert score ranged, IsNext (SortedMap.keys m) (succ maxInt32 y) z := by
    intro y hy
    rcases Finset.mem_insert.mp hy with rfl | hy
    · exact ⟨h.mem, h.bare, nxt, Finset.mem_insert_of_mem hmem, hn⟩
    · exact h.passed y hy
  refine Set.eq_empty_of_forall_notMem fun w hw => hw ?_
  exact (hbare w (mem_of_closed hrange ⟨score, Finset.mem_insert_self _ _⟩
    (fun y hy => (hbare y hy).1) (fun y hy => (hbare y hy).2.2) (heirKeys_subset hw))).2.1

/-- The first two ids at some score are both of the node. -/
def TwoFirst (m : SortedRing) (n : String) : Prop :=
  ∃ v id₁ id₂ rest, SortedMap.lookup m v = some (id₁ :: id₂ :: rest) ∧ getNodeID id₁ = some n ∧
    getNodeID id₂ = some n

/-- What a search has found: a node on the ring, which is the heir, or the node itself, where it
stopped at two of its own ids. -/
structure Found (m : SortedRing) (n : String) (score : ℤ) (target : String) : Prop where
  mem : ∃ v id, m.Has v id ∧ getNodeID id = some target
  heir : target ≠ n → Heir m n score target
  self : target = n → TwoFirst m n ∧ ∀ nxt, IsNext (SortedMap.keys m) (succ maxInt32 score) nxt →
    m.nodeAt nxt = some n

/-- At the next score it stops. -/
theorem found_of_stop {x id : String} {nodeIDs : List String}
    (hl : SortedMap.lookup m nxt = some nodeIDs) (hmem : id ∈ nodeIDs)
    (hid : getNodeID id = some x) (hheir : x ≠ n → Heir m n score x)
    (hself : x = n → TwoFirst m n ∧ m.nodeAt nxt = some n)
    (hn : IsNext (SortedMap.keys m) (succ maxInt32 score) nxt) : Found m n score x := by
  refine ⟨⟨nxt, id, ⟨nodeIDs, hl, hmem⟩, hid⟩, hheir, fun he => ⟨(hself he).1, fun y hy => ?_⟩⟩
  rw [← hn.unique hy]
  exact (hself he).2

/-- **`getValidNextNode`** ends.  From a score without heirs it finds a node, or it returns the
empty string and there is no heir. -/
theorem NamedRing.getValidNextNode_spec (h : NamedRing s m) (hf : RangedFuel m fuel score ranged)
    (ht : Trail m n score ranged) :
    ∃ target, ConsistentHash.getValidNextNode s n fuel score ranged = some (.ok target) ∧
      (heirKeys n m = ∅ ∧ target = "" ∨ Found m n score target) := by
  induction fuel generalizing score ranged with
  | zero =>
    rcases hf with ⟨-, hlt⟩ | ⟨hlt, -⟩
    · exact absurd hlt (Nat.not_lt_zero _)
    · exact absurd hlt (Nat.not_lt_zero _)
  | succ fuel ih =>
    obtain ⟨-, hM⟩ := h.range score ht.mem
    obtain ⟨nxt, -, hn, -⟩ := h.ceiling_eq (ne_nil_of_mem_keys ht.mem) (succ maxInt32 score)
    have hsucc : ∀ x, Heir m n score x ↔ Heir m n nxt x :=
      fun x => heir_succ h.range hM ht.bare hn
    obtain ⟨result, visited, hresult, -, hvisit⟩ := h.visit ht.mem hn n fuel ranged
    rw [hresult]
    cases hvisit with
    | back hr => exact ⟨"", rfl, .inl ⟨ht.heirKeys_eq h.range hn hr, rfl⟩⟩
    | other id rest x hr hl hid hx =>
      refine ⟨x, rfl, .inr (found_of_stop hl List.mem_cons_self hid ?_ ?_ hn)⟩
      · exact fun hne => (hsucc x).mpr (heir_of_nodeAt (nodeAt_of_lookup hl hid) hne)
      · exact fun he => absurd he hx
    | second id₁ id₂ rest x hr hl h₁ h₂ =>
      refine ⟨x, rfl, .inr (found_of_stop hl (by simp) h₂ ?_ ?_ hn)⟩
      · exact fun hne => (hsucc x).mpr (heir_at (heirAt_second hl h₁ h₂ hne) h₂)
      · rintro rfl
        exact ⟨⟨nxt, id₁, id₂, rest, hl, h₁, h₂⟩, nodeAt_of_lookup hl h₁⟩
    | own id hr hl hid =>
      obtain ⟨target, hrun, hspec⟩ := ih (hf.step ht.mem hn hr)
        (ht.step hn (heirAt_of_single hl hid))
      refine ⟨target, hrun, hspec.imp_right fun hfound => ⟨hfound.mem, ?_, fun he => ?_⟩⟩
      · exact fun hne => (hsucc target).mpr (hfound.heir hne)
      · refine ⟨(hfound.self he).1, fun y hy => ?_⟩
        rw [← hn.unique hy]
        exact nodeAt_of_lookup hl hid

end Search

/-! ### The ring without the node -/

/-- The virtual nodes of a node, with their scores. -/
def SortedRing.virtualNodes (m : SortedRing) (nodeID : String) : List (ℤ × String) :=
  m.flatMap fun e => (e.2.filter fun id => getNodeID id = some nodeID).map fun id => (e.1, id)

/-- The ring after `Rem` of every virtual node of a node. -/
def SortedRing.withoutNode (m : SortedRing) (nodeID : String) : SortedRing :=
  (m.calls ((m.virtualNodes nodeID).map fun e => .rem e.1 e.2)).1

section Without

variable {s : SkiplistHashRing} {m m' : SortedRing} {n : String}

theorem mem_virtualNodes (hm : SortedMap.Ascending m) {v : ℤ} {id : String} :
    (v, id) ∈ m.virtualNodes n ↔ m.Has v id ∧ getNodeID id = some n := by
  simp only [SortedRing.virtualNodes, List.mem_flatMap, List.mem_map, List.mem_filter,
    decide_eq_true_eq, Prod.mk.injEq, SortedRing.Has, ← hm.mem_iff]
  constructor
  · rintro ⟨⟨w, nodeIDs⟩, he, id', ⟨hid, hget⟩, rfl, rfl⟩
    exact ⟨⟨nodeIDs, he, hid⟩, hget⟩
  · rintro ⟨⟨nodeIDs, he, hid⟩, hget⟩
    exact ⟨(v, nodeIDs), he, id, ⟨hid, hget⟩, rfl, rfl⟩

theorem rem_of_not_has {v : ℤ} {id : String} (h : ¬m.Has v id) : (m.rem v id).1 = m := by
  rw [SortedRing.rem]
  cases hl : SortedMap.lookup m v with
  | none => rfl
  | some nodeIDs =>
    have hnot : id ∉ nodeIDs := fun hmem => h ⟨nodeIDs, hl, hmem⟩
    simp [hnot]

/-- One `Rem` of an id of the node. -/
theorem Represents.rem_own (h : Represents s m) {v : ℤ} {id : String}
    (hid : getNodeID id = some n) :
    (∃ s', Represents s' (m.rem v id).1) ∧
      (∀ w, othersAt n (m.rem v id).1 w = othersAt n m w) ∧
      ∀ w x, (m.rem v id).1.Has w x ↔ m.Has w x ∧ (w, x) ≠ (v, id) := by
  obtain ⟨s', -, hr⟩ := h.call_eq (.rem v id)
  refine ⟨⟨s', hr⟩, ?_⟩
  by_cases hhas : m.Has v id
  · obtain ⟨nodeIDs, hl, hmem⟩ := hhas
    refine ⟨othersAt_rem hl hmem hid, fun w x => ?_⟩
    rw [has_rem hl (h.ids hl).2 hmem, ne_eq, Prod.mk.injEq]
  · rw [rem_of_not_has hhas]
    refine ⟨fun w => rfl, fun w x => ⟨fun hw => ⟨hw, ?_⟩, fun hw => hw.1⟩⟩
    rintro he
    obtain ⟨rfl, rfl⟩ := Prod.mk.inj he
    exact hhas hw

/-- Any number of them. -/
theorem Represents.rems_own (h : Represents s m) (l : List (ℤ × String))
    (hl : ∀ e ∈ l, getNodeID e.2 = some n) :
    let m' := (m.calls (l.map fun e => .rem e.1 e.2)).1
    (∃ s', Represents s' m') ∧ (∀ w, othersAt n m' w = othersAt n m w) ∧
      ∀ w x, m'.Has w x ↔ m.Has w x ∧ (w, x) ∉ l := by
  induction l generalizing s m with
  | nil => exact ⟨⟨s, h⟩, fun w => rfl, by simp [SortedRing.calls]⟩
  | cons e l ih =>
    obtain ⟨⟨s', h'⟩, hothers, hhas⟩ := h.rem_own (v := e.1) (hl e List.mem_cons_self)
    obtain ⟨hrepr, hothers', hhas'⟩ := ih h' fun e' he' => hl e' (List.mem_cons_of_mem e he')
    refine ⟨hrepr, fun w => (hothers' w).trans (hothers w), fun w x => ?_⟩
    rw [List.mem_cons, not_or, ← and_assoc]
    exact (hhas' w x).trans (and_congr_left' (hhas w x))

/-- The entries of the ring without the node are those of the others. -/
theorem Represents.withoutNode (h : Represents s m) (n : String) :
    SortedMap.Ascending (m.withoutNode n) ∧
      ∀ w, SortedMap.lookup (m.withoutNode n) w =
        if othersAt n m w = [] then none else some (othersAt n m w) := by
  have hmem : ∀ v id, (v, id) ∈ m.virtualNodes n ↔ m.Has v id ∧ getNodeID id = some n :=
    fun v id => mem_virtualNodes h.ascending
  obtain ⟨⟨s', h'⟩, hothers, hhas⟩ := h.rems_own (m.virtualNodes n)
    fun e he => ((hmem e.1 e.2).mp he).2
  refine ⟨h'.ascending, fun w => ?_⟩
  rw [← hothers w]
  show SortedMap.lookup (m.withoutNode n) w = _
  cases hl : SortedMap.lookup (m.withoutNode n) w with
  | none => rw [if_pos (by rw [othersAt, ← SortedRing.withoutNode, hl]; rfl)]
  | some nodeIDs =>
    -- no id of the node is left
    have hall : othersAt n (m.withoutNode n) w = nodeIDs := by
      rw [othersAt, hl]
      refine List.filter_eq_self.mpr fun id hid => ?_
      obtain ⟨hold, hnot⟩ := (hhas w id).mp ⟨nodeIDs, hl, hid⟩
      exact decide_eq_true fun hget => hnot ((hmem w id).mpr ⟨hold, hget⟩)
    rw [← SortedRing.withoutNode, hall, if_neg (h'.ids hl).1]

/-- **The heir owns** what the node leaves. -/
theorem Heir.owner_withoutNode {d : ℤ} {x : String} (hx : Heir m n d x) (h : Represents s m) :
    (m.withoutNode n).owner d = some x := by
  obtain ⟨v, id, hnext, hat, hid⟩ := hx
  obtain ⟨hasc, hlookup⟩ := h.withoutNode n
  have hkeys : SortedMap.keys (m.withoutNode n) = heirKeys n m := by
    ext w
    rw [mem_heirKeys]
    show SortedMap.lookup (m.withoutNode n) w ≠ none ↔ _
    rw [hlookup w]
    by_cases hnil : othersAt n m w = []
    · simp [hnil]
    · simp [hnil]
  rw [← hkeys] at hnext
  rw [owner_of_isNext hasc hnext, SortedRing.nodeAt, hlookup v]
  rw [heirAt_eq_head] at hat
  have hne : othersAt n m v ≠ [] := by
    rintro hnil
    rw [hnil] at hat
    cases hat
  rw [if_neg hne]
  show (othersAt n m v).head?.bind getNodeID = some x
  rw [hat]
  exact hid

/-- There is no heir when all virtual nodes are of the node. -/
theorem heirKeys_eq_empty_iff :
    heirKeys n m = ∅ ↔ ∀ v id, m.Has v id → getNodeID id = some n := by
  rw [Set.eq_empty_iff_forall_notMem]
  refine forall_congr' fun v => ?_
  rw [mem_heirKeys, not_not, othersAt, List.filter_eq_nil_iff]
  constructor
  · rintro hall id ⟨nodeIDs, hl, hid⟩
    rw [hl] at hall
    simpa using hall id hid
  · intro hall id hid
    cases hl : SortedMap.lookup m v with
    | none =>
      rw [hl] at hid
      cases hid
    | some nodeIDs =>
      rw [hl] at hid
      simpa using hall id ⟨nodeIDs, hl, hid⟩

end Without

/-! ### The search -/

section Main

variable {s : SkiplistHashRing} {m : SortedRing} {n : String} {score : ℤ} {fuel : ℕ}

/-- From a score of the node's own, or on a ring with one score. -/
theorem NamedRing.search (h : NamedRing s m) (hscore : score ∈ SortedMap.keys m)
    (hown : (∀ id, m.Has score id → getNodeID id = some n) ∨
      ∀ v ∈ SortedMap.keys m, v = score) (hfuel : s.size ≤ fuel) :
    ∃ target, ConsistentHash.getValidNextNode s n fuel score ∅ = some (.ok target) ∧
      (heirKeys n m = ∅ ∧ target = "" ∨ Found m n score target) := by
  have hlen := h.repr.length_lt
  by_cases hbare : heirAt n m score = none
  · have hf : RangedFuel m fuel score ∅ := by
      refine .inl ⟨Finset.notMem_empty score, ?_⟩
      have hcard := List.toFinset_card_le (m.map Prod.fst)
      rw [List.length_map] at hcard
      rw [Finset.sdiff_empty]
      omega
    exact h.getValidNextNode_spec hf ⟨hscore, hbare, by simp⟩
  · -- the score has an id of another node, so there is no other score
    have hone : ∀ v ∈ SortedMap.keys m, v = score := by
      refine hown.resolve_left fun hall => ?_
      have hmem : score ∈ heirKeys n m := hbare
      rw [mem_heirKeys, othersAt] at hmem
      obtain ⟨nodeIDs, hl⟩ := SortedMap.exists_lookup hscore
      rw [hl] at hmem
      refine hmem (List.filter_eq_nil_iff.mpr fun id hid => ?_)
      simpa using hall id ⟨nodeIDs, hl, hid⟩
    obtain ⟨nxt, -, hn, -⟩ := h.ceiling_eq (ne_nil_of_mem_keys hscore) (succ maxInt32 score)
    obtain rfl := hone nxt hn.1
    obtain ⟨fuel, rfl⟩ := Nat.exists_eq_add_of_lt (lt_of_lt_of_le (Nat.zero_lt_of_lt hlen) hfuel)
    rw [Nat.zero_add]
    obtain ⟨result, visited, hresult, -, hvisit⟩ := h.visit hscore hn n fuel ∅
    rw [hresult]
    cases hvisit with
    | back hr => exact absurd hr (Finset.notMem_empty _)
    | other id rest x hr hl hid hx =>
      refine ⟨x, rfl, .inr (found_of_stop hl List.mem_cons_self hid ?_ ?_ hn)⟩
      · exact fun hne => heir_of_nodeAt (nodeAt_of_lookup hl hid) hne
      · exact fun he => absurd he hx
    | second id₁ id₂ rest x hr hl h₁ h₂ =>
      refine ⟨x, rfl, .inr (found_of_stop hl (by simp) h₂ ?_ ?_ hn)⟩
      · exact fun hne => heir_at (heirAt_second hl h₁ h₂ hne) h₂
      · rintro rfl
        exact ⟨⟨_, id₁, id₂, rest, hl, h₁, h₂⟩, nodeAt_of_lookup hl h₁⟩
    | own id hr hl hid => exact absurd (heirAt_of_single hl hid) hbare

end Main

theorem exists_mem_of_has {m : SortedRing} (hm : SortedMap.Ascending m) {v : ℤ} {id : String}
    (h : m.Has v id) : ∃ e ∈ m, e.1 = v ∧ id ∈ e.2 := by
  obtain ⟨nodeIDs, hl, hid⟩ := h
  exact ⟨(v, nodeIDs), hm.mem_iff.mpr hl, rfl, hid⟩

end Aster.Local
