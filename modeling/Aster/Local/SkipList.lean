import Aster.Local.HashRing
import Aster.Lib.SortedMap

/-!
# The skip list refines a sorted map

`Repr h size c` says that the heap holds a well-formed skip list whose nodes, from low to high
score, are at the addresses `c`: on each level of the root, the pointers run through the nodes of
`c` that reach the level, and some node does.  The cursor of every operation is then determined
by a cut of `c` at the score: it ends at the last node before the cut (`advance_eq`,
`descend_eq`).

The list stands for the map from scores to node ids in the order of insertion
(`contents`), and every operation does to it what the operation on sorted association lists
does, for every choice of levels.
-/

namespace Aster.Local

open Aster.Lib Aster.Lib.LinkedList

/-- The number of levels of a node. -/
def height (h : Heap) (p : Ptr) : ℕ := (h p).nexts.length

/-- The nodes that reach a level. -/
def onLevel (h : Heap) (j : ℕ) (c : List Ptr) : List Ptr := c.filter fun p => j < height h p

/-- The heap holds a skip list with the nodes `c`. -/
structure Repr (h : Heap) (size : ℕ) (c : List Ptr) : Prop where
  alloc : ∀ p ∈ root :: c, p < size
  nodup : (root :: c).Nodup
  ascending : c.Pairwise fun p q => (h p).score < (h q).score
  height_pos : ∀ p ∈ c, 0 < height h p
  /-- The root has the levels that some node reaches. -/
  top : ∀ j, j < height h root ↔ ∃ p ∈ c, j < height h p
  linked : ∀ j < height h root, Chain (next h j) root (onLevel h j c)
  ids : ∀ p ∈ c, (h p).nodeIDs ≠ [] ∧ (h p).nodeIDs.Nodup

/-- The map that the list stands for. -/
def contents (h : Heap) (c : List Ptr) : List (ℤ × List String) :=
  c.map fun p => ((h p).score, (h p).nodeIDs)

variable {h : Heap} {size : ℕ} {c a b : List Ptr}

theorem mem_onLevel {j : ℕ} {p : Ptr} : p ∈ onLevel h j c ↔ p ∈ c ∧ j < height h p := by
  simp [onLevel]

theorem onLevel_append (j : ℕ) : onLevel h j (a ++ b) = onLevel h j a ++ onLevel h j b := by
  rw [onLevel, List.filter_append]
  rfl

theorem onLevel_zero (hpos : ∀ p ∈ c, 0 < height h p) : onLevel h 0 c = c := by
  rw [onLevel, List.filter_eq_self]
  exact fun p hp => decide_eq_true (hpos p hp)

theorem onLevel_length_le (j : ℕ) : (onLevel h j c).length ≤ c.length :=
  List.length_filter_le _ _

/-- There is fuel for every level. -/
theorem Repr.length_lt (hr : Repr h size c) : c.length < size := by
  have hsub : (root :: c).Subperm (List.range size) :=
    hr.nodup.subperm fun p hp => List.mem_range.mpr (hr.alloc p hp)
  have hle := hsub.length_le
  rw [List.length_cons, List.length_range] at hle
  omega

/-! ### Where the cursor goes -/

/-- The inner loop ends at the last node of the level before the cut. -/
theorem advance_eq (cont : ℤ → Bool) {fuel j : ℕ} {move : Ptr} {l l' : List Ptr}
    (hlink : Chain (next h j) root (l ++ l')) (hl : ∀ p ∈ l, cont (h p).score = true)
    (hl' : ∀ p ∈ l', cont (h p).score = false) (hmove : move ∈ root :: l)
    (hfuel : l.length < fuel) :
    advance h cont fuel j move = some (l.getLastD root) ∧
      next h j (l.getLastD root) = some l'.head? := by
  refine ⟨?_, (chain_append.mp hlink).2.head⟩
  have hhead : ∀ q ∈ l'.head?, cont (h q).score = false :=
    fun q hq => hl' q (List.mem_of_head? hq)
  rcases List.mem_cons.mp hmove with rfl | hmem
  · exact walk_eq hlink hl hhead hfuel
  · obtain ⟨l₁, l₂, rfl⟩ := List.append_of_mem hmem
    rw [List.append_assoc, List.cons_append] at hlink
    have hlen : l₂.length < fuel := by
      rw [List.length_append, List.length_cons] at hfuel
      omega
    rw [advance, walk_eq hlink.suffix
      (fun q hq => hl q (List.mem_append_right _ (List.mem_cons_of_mem _ hq))) hhead hlen]
    simp [List.getLastD_eq_getLast?, List.getLast?_append, List.getLast?_cons]

theorem getLastD_onLevel (h : Heap) (a : List Ptr) {j : ℕ} (hj : j < height h root) :
    (onLevel h j a).getLastD root ∈ root :: a ∧
      j < height h ((onLevel h j a).getLastD root) := by
  rcases List.mem_cons.mp (getLastD_mem root (onLevel h j a)) with he | he
  · rw [he]
    exact ⟨List.mem_cons_self, hj⟩
  · obtain ⟨hmem, hlt⟩ := mem_onLevel.mp he
    exact ⟨List.mem_cons_of_mem root hmem, hlt⟩

theorem mem_root_onLevel {j : ℕ} {move : Ptr} (hmove : move ∈ root :: a)
    (hj : j < height h move) : move ∈ root :: onLevel h j a := by
  rcases List.mem_cons.mp hmove with rfl | hmem
  · exact List.mem_cons_self
  · exact List.mem_cons_of_mem root (mem_onLevel.mpr ⟨hmem, hj⟩)

/-- The outer loop ends at the last node before the cut. -/
theorem descend_eq {cont : ℤ → Bool} {fuel : ℕ} (hr : Repr h size (a ++ b))
    (ha : ∀ p ∈ a, cont (h p).score = true) (hb : ∀ p ∈ b, cont (h p).score = false)
    (hfuel : a.length < fuel) (k : ℕ) (hpos : 0 < k) (hk : k ≤ height h root) (move : Ptr)
    (hmove : move ∈ root :: a) (hheight : k ≤ height h move) :
    descend h cont fuel k move = some (a.getLastD root) := by
  induction k generalizing move with
  | zero => omega
  | succ k ih =>
    have hlink := hr.linked k hk
    rw [onLevel_append] at hlink
    obtain ⟨hadv, -⟩ := advance_eq cont hlink (fun p hp => ha p (mem_onLevel.mp hp).1)
      (fun p hp => hb p (mem_onLevel.mp hp).1) (mem_root_onLevel hmove hheight)
      (lt_of_le_of_lt (onLevel_length_le k) hfuel)
    rw [descend, hadv]
    show descend h cont fuel k ((onLevel h k a).getLastD root) = _
    rcases Nat.eq_zero_or_pos k with rfl | hkpos
    · rw [onLevel_zero fun p hp => hr.height_pos p (List.mem_append_left b hp)]
      rfl
    · obtain ⟨hmem, hh⟩ := getLastD_onLevel h a hk
      exact ih hkpos (Nat.le_of_succ_le hk) _ hmem hh.le

/-! ### Lookups -/

theorem Repr.find_score (hr : Repr h size c) {p : Ptr} (hp : p ∈ c) :
    c.find? (fun q => decide ((h q).score = (h p).score)) = some p := by
  obtain ⟨l, l', rfl⟩ := List.append_of_mem hp
  have hasc := List.pairwise_append.mp hr.ascending
  have hnone : l.find? (fun q => decide ((h q).score = (h p).score)) = none := by
    rw [List.find?_eq_none]
    intro q hq
    have hlt := hasc.2.2 q hq p List.mem_cons_self
    simpa using hlt.ne
  rw [List.find?_append, hnone, Option.none_or, List.find?_cons_of_pos (by simp)]

theorem getLoop_eq {score : ℤ} {fuel : ℕ} (hr : Repr h size (a ++ b))
    (ha : ∀ p ∈ a, (h p).score < score) (hb : ∀ p ∈ b, score ≤ (h p).score)
    (hfuel : a.length < fuel) (k : ℕ) (hk : k ≤ height h root) (move : Ptr)
    (hmove : move ∈ root :: a) (hheight : k ≤ height h move) :
    getLoop h score fuel k move = some
      (if 0 < k then (a ++ b).find? fun p => decide ((h p).score = score) else none) := by
  induction k generalizing move with
  | zero => rfl
  | succ k ih =>
    have hlink := hr.linked k hk
    rw [onLevel_append] at hlink
    obtain ⟨hadv, hnext⟩ := advance_eq (· < score) hlink
      (fun p hp => decide_eq_true (ha p (mem_onLevel.mp hp).1))
      (fun p hp => decide_eq_false (not_lt.mpr (hb p (mem_onLevel.mp hp).1)))
      (mem_root_onLevel hmove hheight) (lt_of_le_of_lt (onLevel_length_le k) hfuel)
    obtain ⟨hmem, hh⟩ := getLastD_onLevel h a hk
    have hrec := ih (Nat.le_of_succ_le hk) _ hmem hh.le
    -- when the lowest level does not have the score, the list does not
    have hdown : (∀ p ∈ onLevel h k b, (h p).score ≠ score) →
        (if 0 < k then (a ++ b).find? fun p => decide ((h p).score = score) else none) =
          (a ++ b).find? fun p => decide ((h p).score = score) := by
      intro hno
      split_ifs with hk0
      · rfl
      · obtain rfl : k = 0 := by omega
        symm
        rw [List.find?_eq_none]
        intro p hp
        rcases List.mem_append.mp hp with hp | hp
        · simpa using (ha p hp).ne
        · have hlev : p ∈ onLevel h 0 b :=
            mem_onLevel.mpr ⟨hp, hr.height_pos p (List.mem_append_right a hp)⟩
          simpa using hno p hlev
    rw [getLoop, hadv]
    simp only [Option.bind_eq_bind, Option.bind_some, hnext, Nat.zero_lt_succ, if_true]
    cases hhead : (onLevel h k b).head? with
    | none =>
      rw [List.head?_eq_none_iff] at hhead
      show getLoop h score fuel k _ = _
      rw [hrec, hdown (by rw [hhead]; exact nofun)]
    | some p =>
      obtain ⟨hpb, hpk⟩ := mem_onLevel.mp (List.mem_of_head? hhead)
      show (if (h p).score = score then some (some p) else getLoop h score fuel k _) = _
      split_ifs with hs
      · have hfind := hr.find_score (List.mem_append_right a hpb)
        rw [hs] at hfind
        rw [hfind]
      · rw [hrec, hdown]
        intro q hq
        obtain ⟨l, hl⟩ : ∃ l, onLevel h k b = p :: l := by
          cases hb' : onLevel h k b with
          | nil => rw [hb'] at hhead; cases hhead
          | cons r l => rw [hb'] at hhead; exact ⟨l, by rw [Option.some.inj hhead]⟩
        have hasc : (onLevel h k b).Pairwise fun p q => (h p).score < (h q).score :=
          (List.pairwise_append.mp hr.ascending).2.1.sublist List.filter_sublist
        rw [hl, List.pairwise_cons] at hasc
        rw [hl] at hq
        have hge := hb p hpb
        rcases List.mem_cons.mp hq with rfl | hq
        · exact hs
        · have hlt := hasc.1 q hq
          omega

section Ring

variable {s : SkiplistHashRing}

theorem Repr.levels_eq_zero (hr : Repr s.heap s.size c) : s.levels = 0 ↔ c = [] := by
  constructor
  · intro h0
    rw [List.eq_nil_iff_forall_not_mem]
    intro p hp
    have hlt := (hr.top 0).mpr ⟨p, hp, hr.height_pos p hp⟩
    rw [SkiplistHashRing.levels] at h0
    rw [height] at hlt
    omega
  · rintro rfl
    by_contra hne
    obtain ⟨p, hp, -⟩ := (hr.top 0).mp (Nat.pos_of_ne_zero hne)
    cases hp

/-- `get` finds the node with the score. -/
theorem Repr.get_eq (hr : Repr s.heap s.size c) (score : ℤ) :
    s.get score = some (c.find? fun p => decide ((s.heap p).score = score)) := by
  obtain ⟨a, b, rfl, ha, hb⟩ :=
    SortedMap.exists_cut (fun p => (s.heap p).score) hr.ascending score
  have hlen := hr.length_lt
  rw [List.length_append] at hlen
  rw [SkiplistHashRing.get,
    getLoop_eq hr ha hb (by omega) s.levels le_rfl root List.mem_cons_self le_rfl]
  split_ifs with h0
  · rfl
  · rw [hr.levels_eq_zero.mp (by omega)]
    rfl

theorem lookup_contents (score : ℤ) :
    SortedMap.lookup (contents h c) score =
      (c.find? fun p => decide ((h p).score = score)).map fun p => (h p).nodeIDs := by
  rw [SortedMap.lookup, contents, List.find?_map, Option.map_map]
  rfl

/-- **`Node`** looks the score up. -/
theorem Repr.node_eq (hr : Repr s.heap s.size c) (score : ℤ) :
    s.node score = some (match SortedMap.lookup (contents s.heap c) score with
      | none => .error (SkiplistHashRing.scoreNotExist score)
      | some nodeIDs => .ok nodeIDs) := by
  rw [SkiplistHashRing.node, hr.get_eq, lookup_contents]
  cases c.find? fun p => decide ((s.heap p).score = score) <;> rfl

theorem Repr.linked_zero (hr : Repr s.heap s.size c) (hne : c ≠ []) :
    Chain (next s.heap 0) root c := by
  have hpos : 0 < height s.heap root :=
    Nat.pos_of_ne_zero fun h0 => hne (hr.levels_eq_zero.mp h0)
  have hlink := hr.linked 0 hpos
  rwa [onLevel_zero hr.height_pos] at hlink

/-- The lookups end at the last node before the cut and see the first one after it. -/
theorem Repr.descend_cut (hr : Repr s.heap s.size (a ++ b)) (cont : ℤ → Bool)
    (ha : ∀ p ∈ a, cont (s.heap p).score = true) (hb : ∀ p ∈ b, cont (s.heap p).score = false)
    (hne : a ++ b ≠ []) :
    descend s.heap cont s.size s.levels root = some (a.getLastD root) ∧
      next s.heap 0 (a.getLastD root) = some b.head? := by
  have hlen := hr.length_lt
  rw [List.length_append] at hlen
  have hpos : 0 < s.levels := Nat.pos_of_ne_zero fun h0 => hne (hr.levels_eq_zero.mp h0)
  refine ⟨descend_eq hr ha hb (by omega) _ hpos le_rfl _ List.mem_cons_self le_rfl, ?_⟩
  exact (chain_append.mp (hr.linked_zero hne)).2.head

/-- The score of a node that may be missing, with the flag of the lookups. -/
def scoreOf (h : Heap) : Option Ptr → ℤ × Bool
  | none => (-1, false)
  | some p => ((h p).score, true)

theorem Repr.ceiling?_eq (hr : Repr s.heap s.size (a ++ b)) {score : ℤ}
    (ha : ∀ p ∈ a, (s.heap p).score < score) (hb : ∀ p ∈ b, score ≤ (s.heap p).score) :
    s.ceiling? score = some (scoreOf s.heap b.head?) := by
  rw [SkiplistHashRing.ceiling?]
  by_cases hne : a ++ b = []
  · rw [if_pos (hr.levels_eq_zero.mpr hne), (List.append_eq_nil_iff.mp hne).2]
    rfl
  · obtain ⟨hd, hn⟩ := hr.descend_cut (· < score) (fun p hp => decide_eq_true (ha p hp))
      (fun p hp => decide_eq_false (not_lt.mpr (hb p hp))) hne
    rw [if_neg fun h0 => hne (hr.levels_eq_zero.mp h0), hd]
    simp only [Option.bind_eq_bind, Option.bind_some, hn]
    cases b.head? <;> rfl

theorem Repr.first?_eq (hr : Repr s.heap s.size c) :
    s.first? = some (scoreOf s.heap c.head?) := by
  rw [SkiplistHashRing.first?]
  cases c with
  | nil =>
    rw [if_pos (hr.levels_eq_zero.mpr rfl)]
    rfl
  | cons p c =>
    have hn : next s.heap 0 root = some (some p) := (hr.linked_zero (by simp)).head
    rw [if_neg fun h0 => List.cons_ne_nil p c (hr.levels_eq_zero.mp h0), hn]
    rfl

theorem Repr.getLastD_eq (hr : Repr s.heap s.size (a ++ b)) :
    (if a.getLastD root = root then some (-1, false)
      else some ((s.heap (a.getLastD root)).score, true)) = some (scoreOf s.heap a.getLast?) := by
  rw [List.getLastD_eq_getLast?]
  cases hl : a.getLast? with
  | none => exact if_pos rfl
  | some p =>
    have hp : p ≠ root := by
      rintro rfl
      exact (List.nodup_cons.mp hr.nodup).1 (List.mem_append_left b (List.mem_of_getLast? hl))
    exact if_neg hp

theorem Repr.floor?_eq (hr : Repr s.heap s.size (a ++ b)) {score : ℤ}
    (ha : ∀ p ∈ a, (s.heap p).score < score) (hb : ∀ p ∈ b, score ≤ (s.heap p).score) :
    s.floor? score = some
      (if b.head?.any (fun p => (s.heap p).score = score) then (score, true)
        else scoreOf s.heap a.getLast?) := by
  rw [SkiplistHashRing.floor?]
  by_cases hne : a ++ b = []
  · rw [if_pos (hr.levels_eq_zero.mpr hne), (List.append_eq_nil_iff.mp hne).1,
      (List.append_eq_nil_iff.mp hne).2]
    rfl
  · obtain ⟨hd, hn⟩ := hr.descend_cut (· < score) (fun p hp => decide_eq_true (ha p hp))
      (fun p hp => decide_eq_false (not_lt.mpr (hb p hp))) hne
    rw [if_neg fun h0 => hne (hr.levels_eq_zero.mp h0), hd]
    simp only [Option.bind_eq_bind, Option.bind_some, hn, hr.getLastD_eq]
    split_ifs <;> rfl

theorem Repr.last?_eq (hr : Repr s.heap s.size c) :
    s.last? = some (scoreOf s.heap c.getLast?) := by
  rw [SkiplistHashRing.last?]
  by_cases hne : c = []
  · rw [hr.levels_eq_zero.mpr hne, hne]
    rfl
  · have hr' : Repr s.heap s.size (c ++ []) := by rwa [List.append_nil]
    obtain ⟨hd, -⟩ :=
      hr'.descend_cut (fun _ => true) (fun _ _ => rfl) nofun (by rwa [List.append_nil])
    rw [hd]
    exact hr'.getLastD_eq

/-- The nodes below and from a score give the entries below and from it. -/
theorem contents_append : contents h (a ++ b) = contents h a ++ contents h b := List.map_append

theorem forall_contents (q : ℤ → Prop) (ha : ∀ p ∈ a, q (h p).score) :
    ∀ e ∈ contents h a, q e.1 := by
  intro e he
  obtain ⟨p, hp, rfl⟩ := List.mem_map.mp he
  exact ha p hp

/-- **`Ceiling`** is the least score that is not below, or else the least score, or `-1`. -/
theorem Repr.ceiling_eq (hr : Repr s.heap s.size c) (score : ℤ) :
    s.ceiling score = some ((SortedMap.ceilingWrap (contents s.heap c) score).getD (-1)) := by
  obtain ⟨a, b, rfl, ha, hb⟩ :=
    SortedMap.exists_cut (fun p => (s.heap p).score) hr.ascending score
  rw [SkiplistHashRing.ceiling, hr.ceiling?_eq ha hb, SortedMap.ceilingWrap, contents_append,
    SortedMap.ceiling?_cut (forall_contents (· < score) ha)
      (forall_contents (score ≤ ·) hb), hr.first?_eq,
    ← contents_append]
  cases b with
  | cons p b => rfl
  | nil =>
    cases a with
    | nil => rfl
    | cons p a => rfl

theorem getLast?_contents (l : List Ptr) :
    (contents h l).getLast?.map Prod.fst = l.getLast?.map fun p => (h p).score := by
  rw [contents, List.getLast?_map, Option.map_map]
  rfl

/-- When the score itself is not in the list, the last node before the cut counts. -/
theorem Repr.floor_eq_of_lt (hr : Repr s.heap s.size (a ++ b)) {score : ℤ}
    (ha : ∀ p ∈ a, (s.heap p).score < score) (hb : ∀ p ∈ b, score < (s.heap p).score) :
    s.floor score =
      some ((SortedMap.floorWrap (contents s.heap (a ++ b)) score).getD (-1)) := by
  have hno : b.head?.any (fun p => decide ((s.heap p).score = score)) = false := by
    cases hh : b.head? with
    | none => rfl
    | some p => exact decide_eq_false (hb p (List.mem_of_head? hh)).ne'
  have hfl : SortedMap.floor? (contents s.heap (a ++ b)) score =
      a.getLast?.map fun p => (s.heap p).score := by
    rw [contents_append, SortedMap.floor?_cut_new (forall_contents (· < score) ha)
      (forall_contents (score < ·) hb), getLast?_contents]
  rw [SkiplistHashRing.floor, hr.floor?_eq ha fun p hp => (hb p hp).le, hr.last?_eq, hno,
    SortedMap.floorWrap, hfl, getLast?_contents]
  cases a.getLast? with
  | none => cases (a ++ b).getLast? <;> rfl
  | some q => rfl

/-- **`Floor`** is the greatest score that is not above, or else the greatest score, or
`-1`. -/
theorem Repr.floor_eq (hr : Repr s.heap s.size c) (score : ℤ) :
    s.floor score = some ((SortedMap.floorWrap (contents s.heap c) score).getD (-1)) := by
  obtain ⟨a, b, rfl, ha, hb⟩ :=
    SortedMap.exists_cut (fun p => (s.heap p).score) hr.ascending score
  cases b with
  | nil => exact hr.floor_eq_of_lt ha nofun
  | cons p b =>
    have hasc := List.pairwise_cons.mp (List.pairwise_append.mp hr.ascending).2.1
    rcases (hb p List.mem_cons_self).eq_or_lt with rfl | hlt
    · have hfl : SortedMap.floor? (contents s.heap (a ++ p :: b)) (s.heap p).score =
          some (s.heap p).score := by
        rw [contents_append]
        exact SortedMap.floor?_cut_old (forall_contents (· < (s.heap p).score) ha)
          (forall_contents ((s.heap p).score < ·) hasc.1)
      rw [SkiplistHashRing.floor, hr.floor?_eq ha hb, SortedMap.floorWrap, hfl]
      simp
    · refine hr.floor_eq_of_lt ha fun q hq => ?_
      rcases List.mem_cons.mp hq with rfl | hq
      · exact hlt
      · exact hlt.trans (hasc.1 q hq)

end Ring

end Aster.Local
