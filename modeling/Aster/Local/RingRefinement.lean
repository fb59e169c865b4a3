import Aster.Local.SkipListUpdate

/-!
# The hash ring as a sorted map

`SortedRing` is the sorted association list from scores to node ids that the hash ring is for.
`Represents s m` says that the skip list of `s` is well formed and holds the entries of `m`;
`Add` and `Rem` keep it, with the same errors and for every level that `roll` returns.  So every
run of the ring can be followed on the sorted list.
-/

namespace Aster.Local

open Aster.Lib Aster.Lib.LinkedList

/-- The entries by ascending score, each with its node ids in the order of insertion. -/
abbrev SortedRing := List (ℤ × List String)

namespace SortedRing

def add (m : SortedRing) (score : ℤ) (nodeID : String) : SortedRing :=
  match SortedMap.lookup m score with
  | none => SortedMap.set m score [nodeID]
  | some nodeIDs =>
    if nodeID ∈ nodeIDs then m else SortedMap.set m score (nodeIDs ++ [nodeID])

/-- The ring after `Rem`, and the error. -/
def rem (m : SortedRing) (score : ℤ) (nodeID : String) : SortedRing × Option String :=
  match SortedMap.lookup m score with
  | none => (m, some (SkiplistHashRing.scoreNotExist score))
  | some nodeIDs =>
    if nodeID ∉ nodeIDs then (m, some (SkiplistHashRing.nodeNotExist nodeID score))
    else if 1 < nodeIDs.length then (SortedMap.set m score (nodeIDs.erase nodeID), none)
    else (SortedMap.erase m score, none)

def node (m : SortedRing) (score : ℤ) : Except String (List String) :=
  match SortedMap.lookup m score with
  | none => .error (SkiplistHashRing.scoreNotExist score)
  | some nodeIDs => .ok nodeIDs

/-- The least score that is not below, or else the least; `-1` in the empty ring. -/
def ceiling (m : SortedRing) (score : ℤ) : ℤ := (SortedMap.ceilingWrap m score).getD (-1)

/-- The greatest score that is not above, or else the greatest; `-1` in the empty ring. -/
def floor (m : SortedRing) (score : ℤ) : ℤ := (SortedMap.floorWrap m score).getD (-1)

end SortedRing

/-- The ring holds a well-formed skip list with the entries of `m`. -/
def Represents (s : SkiplistHashRing) (m : SortedRing) : Prop :=
  ∃ c, Repr s.heap s.size c ∧ contents s.heap c = m

variable {s : SkiplistHashRing} {m : SortedRing}

theorem represents_new : Represents newSkiplistHashRing [] := by
  refine ⟨[], ?_, rfl⟩
  constructor
  case alloc => exact fun p hp => by rw [List.mem_singleton.mp hp]; exact Nat.zero_lt_one
  case nodup => exact List.nodup_singleton root
  case ascending => exact List.Pairwise.nil
  case height_pos => exact nofun
  case top => exact fun j => ⟨fun hj => absurd hj (Nat.not_lt_zero j), nofun⟩
  case linked => exact fun j hj => absurd hj (Nat.not_lt_zero j)
  case ids => exact nofun

theorem Represents.ascending (hm : Represents s m) : SortedMap.Ascending m := by
  obtain ⟨c, hr, rfl⟩ := hm
  exact List.pairwise_map.mpr hr.ascending

theorem Represents.node_eq (hm : Represents s m) (score : ℤ) :
    s.node score = some (m.node score) := by
  obtain ⟨c, hr, rfl⟩ := hm
  exact hr.node_eq score

theorem Represents.ceiling_eq (hm : Represents s m) (score : ℤ) :
    s.ceiling score = some (m.ceiling score) := by
  obtain ⟨c, hr, rfl⟩ := hm
  exact hr.ceiling_eq score

theorem Represents.floor_eq (hm : Represents s m) (score : ℤ) :
    s.floor score = some (m.floor score) := by
  obtain ⟨c, hr, rfl⟩ := hm
  exact hr.floor_eq score

/-! ### `Add` and `Rem` -/

/-- The ring either has a node with the score or is cut by it. -/
theorem Repr.score_cases {h : Heap} {size : ℕ} {c : List Ptr} (hr : Repr h size c) (score : ℤ) :
    (∃ a p b, c = a ++ p :: b ∧ (h p).score = score ∧ (∀ q ∈ a, (h q).score < score) ∧
      ∀ q ∈ b, score < (h q).score) ∨
    (∃ a b, c = a ++ b ∧ (∀ q ∈ a, (h q).score < score) ∧ ∀ q ∈ b, score < (h q).score) := by
  obtain ⟨a, b, rfl, ha, hb⟩ := SortedMap.exists_cut (fun p => (h p).score) hr.ascending score
  have hasc := (List.pairwise_append.mp hr.ascending).2.1
  cases b with
  | nil => exact .inr ⟨a, [], rfl, ha, nofun⟩
  | cons p b =>
    rw [List.pairwise_cons] at hasc
    rcases (hb p List.mem_cons_self).eq_or_lt with rfl | hlt
    · exact .inl ⟨a, p, b, rfl, rfl, ha, hasc.1⟩
    · refine .inr ⟨a, p :: b, rfl, ha, fun q hq => ?_⟩
      rcases List.mem_cons.mp hq with rfl | hq
      · exact hlt
      · exact hlt.trans (hasc.1 q hq)

theorem Repr.get_old {c a b : List Ptr} {p : Ptr} (hr : Repr s.heap s.size c)
    (hc : c = a ++ p :: b) : s.get (s.heap p).score = some (some p) := by
  rw [hr.get_eq, hr.find_score (by rw [hc]; simp)]

theorem Repr.get_new {a b : List Ptr} {score : ℤ} (hr : Repr s.heap s.size (a ++ b))
    (ha : ∀ q ∈ a, (s.heap q).score < score) (hb : ∀ q ∈ b, score < (s.heap q).score) :
    s.get score = some none := by
  rw [hr.get_eq, List.find?_eq_none.mpr]
  intro q hq
  rcases List.mem_append.mp hq with hq | hq
  · simpa using (ha q hq).ne
  · simpa using (hb q hq).ne'

/-- **`Add`** does to the skip list what it does to the sorted map, and leaves the other maps
alone. -/
theorem Represents.add_eq (hm : Represents s m) (score : ℤ) (nodeID : String) (rLevel : ℕ) :
    ∃ s', s.add score nodeID rLevel = some s' ∧ Represents s' (m.add score nodeID) ∧
      s'.nodeToReplicas = s.nodeToReplicas ∧ s'.nodeToDataKey = s.nodeToDataKey := by
  obtain ⟨c, hr, rfl⟩ := hm
  rcases hr.score_cases score with ⟨a, p, b, rfl, rfl, ha, hb⟩ | ⟨a, b, rfl, ha, hb⟩
  · have ha' := forall_contents (· < (s.heap p).score) ha
    have hb' := forall_contents ((s.heap p).score < ·) hb
    have hlook : SortedMap.lookup (contents s.heap (a ++ p :: b)) (s.heap p).score =
        some (s.heap p).nodeIDs := by
      rw [contents_append]
      exact SortedMap.lookup_cut ha'
    rw [SkiplistHashRing.add, hr.get_old rfl, SortedRing.add, hlook]
    simp only [Option.bind_eq_bind, Option.bind_some]
    split_ifs with hmem
    · exact ⟨s, rfl, ⟨_, hr, rfl⟩, rfl, rfl⟩
    · obtain ⟨hr', hc'⟩ := hr.setNodeIDs ((s.heap p).nodeIDs ++ [nodeID])
        (List.append_ne_nil_of_right_ne_nil (s.heap p).nodeIDs (List.cons_ne_nil nodeID []))
        (List.nodup_append.mpr ⟨(hr.ids p (by simp)).2, List.nodup_singleton _, by
          intro x hx y hy
          rw [List.mem_singleton.mp hy]
          rintro rfl
          exact hmem hx⟩)
      refine ⟨_, rfl, ⟨_, hr', ?_⟩, rfl, rfl⟩
      rw [hc', contents_append]
      exact (SortedMap.set_cut_old ha' hb').symm
  · have ha' := forall_contents (· < score) ha
    have hb' := forall_contents (score < ·) hb
    obtain ⟨h', hrun, hr', hc'⟩ := hr.spliceIn_allocate ha hb nodeID rLevel
    rw [SkiplistHashRing.add, hr.get_new ha hb, SortedRing.add, contents_append,
      SortedMap.lookup_cut_none ha' hb']
    refine ⟨{ s with heap := h', size := s.size + 1 }, ?_, ⟨_, hr', ?_⟩, rfl, rfl⟩
    · show (spliceIn score s.size (s.size + 1) (rLevel + 1) root
        (allocate s.heap s.size score nodeID rLevel)).bind _ = _
      rw [hrun]
      rfl
    · rw [hc']
      exact (SortedMap.set_cut_new ha' hb').symm

/-- What `Rem` does to the data keys: on success the entry of the removed id goes, and an error
changes nothing at all. -/
def RemEffect (s s' : SkiplistHashRing) (nodeID : String) : Option String → Prop
  | none => s'.nodeToReplicas = s.nodeToReplicas ∧
      s'.nodeToDataKey = s.nodeToDataKey.erase nodeID
  | some _ => s' = s

/-- **`Rem`** does to the skip list what it does to the sorted map, with the same error. -/
theorem Represents.rem_eq (hm : Represents s m) (score : ℤ) (nodeID : String) :
    ∃ s', s.rem score nodeID = some (s', (m.rem score nodeID).2) ∧
      Represents s' (m.rem score nodeID).1 ∧ RemEffect s s' nodeID (m.rem score nodeID).2 := by
  obtain ⟨c, hr, rfl⟩ := hm
  rcases hr.score_cases score with ⟨a, p, b, rfl, rfl, ha, hb⟩ | ⟨a, b, rfl, ha, hb⟩
  · have ha' := forall_contents (· < (s.heap p).score) ha
    have hb' := forall_contents ((s.heap p).score < ·) hb
    have hlook : SortedMap.lookup (contents s.heap (a ++ p :: b)) (s.heap p).score =
        some (s.heap p).nodeIDs := by
      rw [contents_append]
      exact SortedMap.lookup_cut ha'
    rw [SkiplistHashRing.rem, hr.get_old rfl, SortedRing.rem, hlook]
    simp only [Option.bind_eq_bind, Option.bind_some]
    by_cases hmem : nodeID ∉ (s.heap p).nodeIDs
    · simp only [if_pos hmem]
      exact ⟨s, rfl, ⟨_, hr, rfl⟩, rfl⟩
    · by_cases hlen : 1 < (s.heap p).nodeIDs.length
      · simp only [if_neg hmem, if_pos hlen]
        have hlen' := List.length_erase_of_mem (not_not.mp hmem)
        obtain ⟨hr', hc'⟩ := hr.setNodeIDs ((s.heap p).nodeIDs.erase nodeID)
          (List.ne_nil_of_length_pos (by omega)) ((hr.ids p (by simp)).2.erase nodeID)
        refine ⟨_, rfl, ⟨_, hr', ?_⟩, rfl, rfl⟩
        rw [hc', contents_append]
        exact (SortedMap.set_cut_old ha' hb').symm
      · simp only [if_neg hmem, if_neg hlen]
        obtain ⟨h', hrun, hr', hc'⟩ := hr.spliceOut_truncate
        refine ⟨{ s with heap := truncateRoot h', nodeToDataKey := s.nodeToDataKey.erase nodeID },
          ?_, ⟨_, hr', ?_⟩, rfl, rfl⟩
        · show (spliceOut (s.heap p).score s.size (height s.heap root) root s.heap).bind _ = _
          rw [hrun]
          rfl
        · rw [hc', contents_append]
          exact (SortedMap.erase_cut ha' hb').symm
  · rw [SkiplistHashRing.rem, hr.get_new ha hb, SortedRing.rem, contents_append,
      SortedMap.lookup_cut_none (forall_contents (· < score) ha)
        (forall_contents (score < ·) hb), ← contents_append]
    exact ⟨s, rfl, ⟨_, hr, rfl⟩, rfl⟩

/-! ### Runs -/

/-- A call of `Add`, with the level that `roll` returns, or of `Rem`. -/
inductive RingOp
  | add (score : ℤ) (nodeID : String) (rLevel : ℕ)
  | rem (score : ℤ) (nodeID : String)
  deriving DecidableEq

/-- One call, with the error it returns. -/
def SkiplistHashRing.call (s : SkiplistHashRing) :
    RingOp → Option (SkiplistHashRing × Option String)
  | .add score nodeID rLevel => (s.add score nodeID rLevel).map fun s' => (s', none)
  | .rem score nodeID => s.rem score nodeID

def SortedRing.call (m : SortedRing) : RingOp → SortedRing × Option String
  | .add score nodeID _ => (m.add score nodeID, none)
  | .rem score nodeID => m.rem score nodeID

/-- The calls one after the other, with their errors. -/
def SkiplistHashRing.calls (s : SkiplistHashRing) :
    List RingOp → Option (SkiplistHashRing × List (Option String))
  | [] => some (s, [])
  | op :: ops => do
    let (s', err) ← s.call op
    let (s'', errs) ← s'.calls ops
    some (s'', err :: errs)

def SortedRing.calls (m : SortedRing) : List RingOp → SortedRing × List (Option String)
  | [] => (m, [])
  | op :: ops =>
    let (m', err) := m.call op
    let (m'', errs) := SortedRing.calls m' ops
    (m'', err :: errs)

theorem Represents.call_eq (hm : Represents s m) (op : RingOp) :
    ∃ s', s.call op = some (s', (m.call op).2) ∧ Represents s' (m.call op).1 := by
  cases op with
  | add score nodeID rLevel =>
    obtain ⟨s', hs, hm', -⟩ := hm.add_eq score nodeID rLevel
    refine ⟨s', ?_, hm'⟩
    rw [SkiplistHashRing.call, hs]
    rfl
  | rem score nodeID =>
    obtain ⟨s', hs, hm', -⟩ := hm.rem_eq score nodeID
    exact ⟨s', hs, hm'⟩

theorem Represents.calls_eq (hm : Represents s m) (ops : List RingOp) :
    ∃ s', s.calls ops = some (s', (m.calls ops).2) ∧ Represents s' (m.calls ops).1 := by
  induction ops generalizing s m with
  | nil => exact ⟨s, rfl, hm⟩
  | cons op ops ih =>
    obtain ⟨s', hs, hm'⟩ := hm.call_eq op
    obtain ⟨s'', hs', hm''⟩ := ih hm'
    refine ⟨s'', ?_, hm''⟩
    rw [SkiplistHashRing.calls, hs]
    simp only [Option.bind_eq_bind, Option.bind_some, hs']
    rfl

/-! ### What a well-formed skip list is -/

/-- The nodes that the pointers of a level run through. -/
def SkiplistHashRing.levelNodes (s : SkiplistHashRing) (level : ℕ) : Option (List Ptr) :=
  collect (next s.heap level) s.size root

/-- A well-formed skip list, read off its pointers. -/
structure SkiplistHashRing.WellFormed (s : SkiplistHashRing) : Prop where
  /-- Every level of the root ends, has a node, and is strictly ascending. -/
  level : ∀ j < s.levels, ∃ l, s.levelNodes j = some l ∧ l ≠ [] ∧
    l.Pairwise fun p q => (s.heap p).score < (s.heap q).score
  /-- The nodes of a level are among those of the level below, in the same order. -/
  sublist : ∀ j l l', s.levelNodes j = some l → j + 1 < s.levels →
    s.levelNodes (j + 1) = some l' → l'.Sublist l
  ids : ∀ l, s.levelNodes 0 = some l → ∀ p ∈ l,
    (s.heap p).nodeIDs ≠ [] ∧ (s.heap p).nodeIDs.Nodup

theorem Repr.levelNodes_eq {c : List Ptr} (hr : Repr s.heap s.size c) {j : ℕ}
    (hj : j < s.levels) : s.levelNodes j = some (onLevel s.heap j c) :=
  collect_eq (hr.linked j hj) (lt_of_le_of_lt (onLevel_length_le j) hr.length_lt)

theorem Represents.wellFormed (hm : Represents s m) : s.WellFormed := by
  obtain ⟨c, hr, -⟩ := hm
  constructor
  case level =>
    intro j hj
    obtain ⟨p, hp, hlt⟩ := (hr.top j).mp hj
    exact ⟨_, hr.levelNodes_eq hj, List.ne_nil_of_mem (mem_onLevel.mpr ⟨hp, hlt⟩),
      hr.ascending.sublist List.filter_sublist⟩
  case sublist =>
    intro j l l' hl hj hl'
    rw [hr.levelNodes_eq (Nat.lt_of_succ_lt hj), Option.some.injEq] at hl
    rw [hr.levelNodes_eq hj, Option.some.injEq] at hl'
    rw [← hl, ← hl']
    refine List.monotone_filter_right c fun p hp => ?_
    have hlt := of_decide_eq_true hp
    exact decide_eq_true (Nat.lt_of_succ_lt hlt)
  case ids =>
    intro l hl p hp
    by_cases h0 : 0 < s.levels
    · rw [hr.levelNodes_eq h0, Option.some.injEq] at hl
      rw [← hl] at hp
      exact hr.ids p (mem_onLevel.mp hp).1
    · -- without levels the root has no pointer to follow
      have hnil : (s.heap root).nexts = [] := List.length_eq_zero_iff.mp (by
        rw [SkiplistHashRing.levels] at h0
        omega)
      have hnone : s.levelNodes 0 = none := by
        rw [SkiplistHashRing.levelNodes]
        obtain ⟨n, hn⟩ := Nat.exists_eq_succ_of_ne_zero
          (Nat.ne_of_gt (hr.alloc root List.mem_cons_self))
        rw [hn, collect, next, hnil]
        rfl
      rw [hnone] at hl
      cases hl

/-- **The hash ring refines a sorted map**, whatever the levels.  Every run of `Add` and `Rem`
from the empty ring goes through and leaves a well-formed skip list; it returns the errors of the
same run on the sorted association list, and `Node`, `Ceiling` and `Floor` then answer as that
list does.  A `Rem` that returns an error changes nothing. -/
theorem skiplist_refines_sorted_map (ops : List RingOp) :
    ∃ s m errs, newSkiplistHashRing.calls ops = some (s, errs) ∧
      SortedRing.calls [] ops = (m, errs) ∧ SortedMap.Ascending m ∧ s.WellFormed ∧
      (∀ score, s.node score = some (m.node score) ∧ s.ceiling score = some (m.ceiling score) ∧
        s.floor score = some (m.floor score)) ∧
      ∀ score nodeID s' err, s.rem score nodeID = some (s', some err) → s' = s := by
  obtain ⟨s, hs, hm⟩ := represents_new.calls_eq ops
  refine ⟨s, _, _, hs, rfl, hm.ascending, hm.wellFormed,
    fun score => ⟨hm.node_eq score, hm.ceiling_eq score, hm.floor_eq score⟩, ?_⟩
  intro score nodeID s' err hrem
  obtain ⟨s'', hrem', -, heff⟩ := hm.rem_eq score nodeID
  rw [hrem] at hrem'
  injection hrem' with hpair
  rw [Prod.mk.injEq] at hpair
  rw [← hpair.2] at heff
  exact hpair.1.trans heff

end Aster.Local
