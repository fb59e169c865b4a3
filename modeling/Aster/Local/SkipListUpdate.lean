import Aster.Local.SkipList

/-!
# Updates of the skip list

`Add` and `Rem` write one pointer on each level, at the node where the cursor stops.  The loops
are described by what they do to the levels below the current one (`spliceIn_spec`,
`spliceOut_spec`): these levels gain or lose the node, and the others keep their pointers.
-/

namespace Aster.Local

open Aster.Lib Aster.Lib.LinkedList

variable {h h' : Heap} {size : ℕ} {c a b : List Ptr} {p : Ptr}

theorem onLevel_cons_of_lt {j : ℕ} (b : List Ptr) (hlt : j < height h p) :
    onLevel h j (p :: b) = p :: onLevel h j b :=
  List.filter_cons_of_pos (p := fun q => decide (j < height h q)) (decide_eq_true hlt)

theorem onLevel_cons_of_le {j : ℕ} (b : List Ptr) (hle : height h p ≤ j) :
    onLevel h j (p :: b) = onLevel h j b :=
  List.filter_cons_of_neg (p := fun q => decide (j < height h q)) (by simpa using hle)

/-! ### Writing one pointer -/

/-- The heaps differ in pointers only. -/
def SameShape (h h' : Heap) : Prop :=
  ∀ p, (h' p).score = (h p).score ∧ (h' p).nodeIDs = (h p).nodeIDs ∧ height h' p = height h p

theorem SameShape.trans {h₁ h₂ h₃ : Heap} (h12 : SameShape h₁ h₂) (h23 : SameShape h₂ h₃) :
    SameShape h₁ h₃ := by
  intro p
  obtain ⟨hs, hi, hh⟩ := h12 p
  obtain ⟨hs', hi', hh'⟩ := h23 p
  exact ⟨hs'.trans hs, hi'.trans hi, hh'.trans hh⟩

theorem SameShape.onLevel_eq (hsh : SameShape h h') (j : ℕ) (c : List Ptr) :
    onLevel h' j c = onLevel h j c := by
  rw [onLevel, onLevel]
  congr 1
  funext p
  rw [(hsh p).2.2]

theorem sameShape_setNext (h : Heap) (p : Ptr) (level : ℕ) (q : Option Ptr) :
    SameShape h (setNext h p level q) := by
  intro r
  by_cases hr : r = p
  · subst hr
    simp [setNext, height]
  · simp [setNext, height, Function.update_of_ne hr]

theorem next_setNext_self {p : Ptr} {level : ℕ} (q : Option Ptr) (hlt : level < height h p) :
    next (setNext h p level q) level p = some q := by
  rw [next, setNext, Function.update_self]
  exact List.getElem?_set_self hlt

theorem next_setNext_of_ne {p r : Ptr} (level j : ℕ) (q : Option Ptr) (hne : r ≠ p) :
    next (setNext h p level q) j r = next h j r := by
  rw [next, setNext, Function.update_of_ne hne]
  rfl

/-- A write on one level leaves the others alone. -/
theorem next_setNext_level (p : Ptr) {level j : ℕ} (q : Option Ptr) (hne : j ≠ level) :
    next (setNext h p level q) j = next h j := by
  funext r
  by_cases hr : r = p
  · subst hr
    rw [next, setNext, Function.update_self]
    exact List.getElem?_set_ne (Ne.symm hne)
  · exact next_setNext_of_ne level j q hr

theorem SameShape.contents_eq (hsh : SameShape h h') (c : List Ptr) :
    contents h' c = contents h c := by
  rw [contents, contents]
  refine List.map_congr_left fun p _ => ?_
  rw [(hsh p).1, (hsh p).2.1]

/-- One level is done in `h₁`, and the levels below it in `h'`. -/
theorem levels_succ {h₁ : Heap} {k : ℕ} {level : ℕ → List Ptr} (hsh : SameShape h h₁)
    (hk : Chain (next h₁ k) root (level k)) (hother : ∀ j, j ≠ k → next h₁ j = next h j)
    (hsh' : SameShape h₁ h') (hlow : ∀ j < k, Chain (next h' j) root (level j))
    (hhigh : ∀ j, k ≤ j → next h' j = next h₁ j) :
    SameShape h h' ∧ (∀ j < k + 1, Chain (next h' j) root (level j)) ∧
      ∀ j, k + 1 ≤ j → next h' j = next h j := by
  refine ⟨hsh.trans hsh', fun j hj => ?_, fun j hj => ?_⟩
  · rcases Nat.lt_succ_iff_lt_or_eq.mp hj with hj | rfl
    · exact hlow j hj
    · rw [hhigh j le_rfl]
      exact hk
  · rw [hhigh j (by omega), hother j (by omega)]

/-! ### The loop of `Add` -/

/-- **The loop of `Add`** links the new node into each of the levels below `k` and leaves the
others alone. -/
theorem spliceIn_spec (score : ℤ) {newNode : Ptr} {fuel : ℕ} (hnd : (root :: (a ++ b)).Nodup)
    (hnew : newNode ∉ root :: (a ++ b)) (hfuel : a.length < fuel) (k : ℕ) (h : Heap)
    (hroot : k ≤ height h root) (hheight : k ≤ height h newNode)
    (ha : ∀ p ∈ a, (h p).score < score) (hb : ∀ p ∈ b, score ≤ (h p).score)
    (hlink : ∀ j < k, Chain (next h j) root (onLevel h j (a ++ b))) (move : Ptr)
    (hmove : move ∈ root :: a) (hmh : k ≤ height h move) :
    ∃ h', spliceIn score newNode fuel k move h = some h' ∧ SameShape h h' ∧
      (∀ j < k, Chain (next h' j) root (onLevel h j a ++ newNode :: onLevel h j b)) ∧
      ∀ j, k ≤ j → next h' j = next h j := by
  induction k generalizing h move with
  | zero =>
    exact ⟨h, rfl, fun p => ⟨rfl, rfl, rfl⟩, fun j hj => absurd hj (Nat.not_lt_zero j),
      fun j _ => rfl⟩
  | succ k ih =>
    have hchain := hlink k (Nat.lt_succ_self k)
    rw [onLevel_append] at hchain
    obtain ⟨hadv, hnext⟩ := advance_eq (· < score) hchain
      (fun p hp => decide_eq_true (ha p (mem_onLevel.mp hp).1))
      (fun p hp => decide_eq_false (not_lt.mpr (hb p (mem_onLevel.mp hp).1)))
      (mem_root_onLevel hmove hmh) (lt_of_le_of_lt (onLevel_length_le k) hfuel)
    obtain ⟨hmem, hlast⟩ := getLastD_onLevel h a hroot
    set move' := (onLevel h k a).getLastD root with hmove'
    set h₁ := setNext (setNext h newNode k (onLevel h k b).head?) move' k (some newNode) with hh₁
    have hne : move' ≠ newNode := by
      rintro he
      rw [he] at hmem
      apply hnew
      rcases List.mem_cons.mp hmem with hr | hr
      · rw [hr]
        exact List.mem_cons_self
      · exact List.mem_cons_of_mem root (List.mem_append_left b hr)
    have hsh : SameShape h h₁ := (sameShape_setNext h _ _ _).trans (sameShape_setNext _ _ _ _)
    have hother : ∀ j, j ≠ k → next h₁ j = next h j := by
      intro j hj
      rw [hh₁, next_setNext_level _ _ hj, next_setNext_level _ _ hj]
    -- the level itself gains the new node
    have hnda : (root :: (onLevel h k a ++ onLevel h k b)).Nodup := by
      rw [← onLevel_append]
      exact hnd.sublist (List.cons_sublist_cons.mpr List.filter_sublist)
    have hnewa : newNode ∉ root :: (onLevel h k a ++ onLevel h k b) := by
      rw [← onLevel_append]
      exact fun hmem => hnew ((List.cons_sublist_cons.mpr List.filter_sublist).subset hmem)
    have hk : Chain (next h₁ k) root (onLevel h k a ++ newNode :: onLevel h k b) := by
      refine chain_insert hchain hnda hnewa ?_ ?_ ?_
      · refine next_setNext_self (some newNode) ?_
        rw [(sameShape_setNext h newNode k _ move').2.2]
        exact hlast
      · rw [hh₁, next_setNext_of_ne _ _ _ hne.symm]
        exact next_setNext_self _ hheight
      · intro q hq hqn
        rw [hh₁, next_setNext_of_ne _ _ _ hq, next_setNext_of_ne _ _ _ hqn]
    obtain ⟨h', hrun, hsh', hlow, hhigh⟩ := ih h₁ (by rw [(hsh root).2.2]; omega)
      (by rw [(hsh newNode).2.2]; omega) (fun p hp => by rw [(hsh p).1]; exact ha p hp)
      (fun p hp => by rw [(hsh p).1]; exact hb p hp)
      (fun j hj => by rw [hother j (by omega), hsh.onLevel_eq]; exact hlink j (by omega))
      move' hmem (by rw [(hsh move').2.2]; exact hlast.le)
    simp only [hsh.onLevel_eq] at hlow
    refine ⟨h', ?_, levels_succ hsh hk hother hsh' hlow hhigh⟩
    rw [spliceIn, hadv]
    simp only [Option.bind_eq_bind, Option.bind_some, hnext]
    exact hrun

/-! ### The loop of `Rem` -/

/-- **The loop of `Rem`** takes the node with the score out of each of the levels below `k` and
leaves the others alone. -/
theorem spliceOut_spec {score : ℤ} {target : Ptr} {fuel : ℕ}
    (hnd : (root :: (a ++ target :: b)).Nodup) (hfuel : a.length < fuel) (k : ℕ) (h : Heap)
    (hroot : k ≤ height h root) (ha : ∀ p ∈ a, (h p).score < score)
    (ht : (h target).score = score) (hb : ∀ p ∈ b, score < (h p).score)
    (hlink : ∀ j < k, Chain (next h j) root (onLevel h j (a ++ target :: b))) (move : Ptr)
    (hmove : move ∈ root :: a) (hmh : k ≤ height h move) :
    ∃ h', spliceOut score fuel k move h = some h' ∧ SameShape h h' ∧
      (∀ j < k, Chain (next h' j) root (onLevel h j (a ++ b))) ∧
      ∀ j, k ≤ j → next h' j = next h j := by
  induction k generalizing h move with
  | zero =>
    exact ⟨h, rfl, fun p => ⟨rfl, rfl, rfl⟩, fun j hj => absurd hj (Nat.not_lt_zero j),
      fun j _ => rfl⟩
  | succ k ih =>
    have hge : ∀ p ∈ target :: b, score ≤ (h p).score := by
      intro p hp
      rcases List.mem_cons.mp hp with rfl | hp
      · exact ht.ge
      · exact (hb p hp).le
    have hchain := hlink k (Nat.lt_succ_self k)
    rw [onLevel_append] at hchain
    obtain ⟨hadv, hnext⟩ := advance_eq (· < score) hchain
      (fun p hp => decide_eq_true (ha p (mem_onLevel.mp hp).1))
      (fun p hp => decide_eq_false (not_lt.mpr (hge p (mem_onLevel.mp hp).1)))
      (mem_root_onLevel hmove hmh) (lt_of_le_of_lt (onLevel_length_le k) hfuel)
    obtain ⟨hmem, hlast⟩ := getLastD_onLevel h a hroot
    set move' := (onLevel h k a).getLastD root with hmove'
    -- one level: a heap of the same shape in which the level is done, and the loop goes on
    obtain ⟨h₁, hstep, hsh, hk, hother⟩ : ∃ h₁,
        spliceOut score fuel (k + 1) move h = spliceOut score fuel k move' h₁ ∧
        SameShape h h₁ ∧ Chain (next h₁ k) root (onLevel h k (a ++ b)) ∧
        ∀ j, j ≠ k → next h₁ j = next h j := by
      by_cases hlev : k < height h target
      · have hcons := onLevel_cons_of_lt b hlev
        rw [hcons] at hchain hnext
        have hnt : next h k target = some (onLevel h k b).head? := hchain.suffix.head
        refine ⟨setNext h move' k (onLevel h k b).head?, ?_, sameShape_setNext _ _ _ _, ?_,
          fun j hj => next_setNext_level _ _ hj⟩
        · rw [spliceOut, hadv]
          simp only [Option.bind_eq_bind, Option.bind_some, hnext, List.head?_cons, ht,
            lt_irrefl, if_false, hnt]
        · rw [onLevel_append]
          have hnda : (root :: (onLevel h k a ++ target :: onLevel h k b)).Nodup := by
            rw [← hcons, ← onLevel_append]
            exact hnd.sublist (List.cons_sublist_cons.mpr List.filter_sublist)
          refine chain_remove hchain hnda ?_ fun q hq => next_setNext_of_ne _ _ _ hq
          rw [next_setNext_self _ hlast, hnt]
      · rw [onLevel_cons_of_le b (not_lt.mp hlev)] at hchain hnext
        refine ⟨h, ?_, fun p => ⟨rfl, rfl, rfl⟩, by rwa [onLevel_append], fun _ _ => rfl⟩
        rw [spliceOut, hadv]
        simp only [Option.bind_eq_bind, Option.bind_some, hnext]
        cases hhead : (onLevel h k b).head? with
        | none => rfl
        | some p =>
          have hlt := hb p (mem_onLevel.mp (List.mem_of_head? hhead)).1
          simp only [if_pos hlt]
    obtain ⟨h', hrun, hsh', hlow, hhigh⟩ := ih h₁ (by rw [(hsh root).2.2]; omega)
      (fun p hp => by rw [(hsh p).1]; exact ha p hp) (by rw [(hsh target).1]; exact ht)
      (fun p hp => by rw [(hsh p).1]; exact hb p hp)
      (fun j hj => by rw [hother j (by omega), hsh.onLevel_eq]; exact hlink j (by omega))
      move' hmem (by rw [(hsh move').2.2]; exact hlast.le)
    simp only [hsh.onLevel_eq] at hlow
    exact ⟨h', hstep.trans hrun, levels_succ hsh hk hother hsh' hlow hhigh⟩

/-! ### The operations -/

/-- On the nodes of the list the heaps agree. -/
theorem onLevel_congr (hagree : ∀ p ∈ c, h' p = h p) (j : ℕ) :
    onLevel h' j c = onLevel h j c := by
  rw [onLevel, onLevel]
  refine List.filter_congr fun p hp => ?_
  rw [height, height, hagree p hp]

theorem contents_congr (hagree : ∀ p ∈ c, h' p = h p) : contents h' c = contents h c :=
  List.map_congr_left fun p hp => by rw [hagree p hp]

theorem Repr.ne_root (hr : Repr h size c) {p : Ptr} (hp : p ∈ c) : p ≠ root := by
  rintro rfl
  exact (List.nodup_cons.mp hr.nodup).1 hp

/-- The heap before the loop of `Add`: the root has the levels of the new node, and the new node
is there. -/
def allocate (h : Heap) (size : ℕ) (score : ℤ) (nodeID : String) (rLevel : ℕ) : Heap :=
  Function.update
    (setNexts h root ((h root).nexts ++ List.replicate (rLevel + 1 - (h root).nexts.length) none))
    size ⟨score, [nodeID], List.replicate (rLevel + 1) none⟩

section Allocate

variable {score : ℤ} {nodeID : String} {rLevel : ℕ}

theorem allocate_self : allocate h size score nodeID rLevel size =
    ⟨score, [nodeID], List.replicate (rLevel + 1) none⟩ :=
  Function.update_self _ _ _

theorem Repr.allocate_of_mem (hr : Repr h size c) {p : Ptr} (hp : p ∈ c) :
    allocate h size score nodeID rLevel p = h p := by
  have hlt := hr.alloc p (List.mem_cons_of_mem root hp)
  rw [allocate, Function.update_of_ne hlt.ne, setNexts, Function.update_of_ne (hr.ne_root hp)]

theorem Repr.allocate_root (hr : Repr h size c) :
    allocate h size score nodeID rLevel root = { h root with
      nexts := (h root).nexts ++ List.replicate (rLevel + 1 - (h root).nexts.length) none } := by
  have hlt := hr.alloc root List.mem_cons_self
  rw [allocate, Function.update_of_ne hlt.ne, setNexts, Function.update_self]

theorem Repr.height_allocate_root (hr : Repr h size c) :
    height (allocate h size score nodeID rLevel) root = max (height h root) (rLevel + 1) := by
  rw [height, hr.allocate_root, List.length_append, List.length_replicate, height]
  omega

/-- The old levels are as before, and the new ones are empty. -/
theorem Repr.linked_allocate (hr : Repr h size c) {j : ℕ}
    (hj : j < max (height h root) (rLevel + 1)) :
    Chain (next (allocate h size score nodeID rLevel) j) root
      (onLevel (allocate h size score nodeID rLevel) j c) := by
  rw [onLevel_congr fun p hp => hr.allocate_of_mem hp]
  rcases lt_or_ge j (height h root) with hlt | hge
  · refine chain_congr (fun q hq => ?_) (hr.linked j hlt)
    rcases List.mem_cons.mp hq with rfl | hq
    · rw [next, next, hr.allocate_root]
      exact (List.getElem?_append_left hlt).symm
    · rw [next, next, hr.allocate_of_mem (mem_onLevel.mp hq).1]
  · have hnil : onLevel h j c = [] := by
      rw [List.eq_nil_iff_forall_not_mem]
      intro p hp
      exact absurd ((hr.top j).mpr ⟨p, mem_onLevel.mp hp⟩) (not_lt.mpr hge)
    rw [hnil]
    show (allocate h size score nodeID rLevel root).nexts[j]? = some none
    rw [height] at hge hj
    rw [hr.allocate_root, List.getElem?_append_right hge, List.getElem?_replicate,
      if_pos (by omega)]

end Allocate

/-- A node whose score lies between those of `a` and `b`. -/
theorem ascending_insert {x : Ptr}
    (hasc : (a ++ b).Pairwise fun q r => (h q).score < (h r).score)
    (hold : ∀ q ∈ a ++ b, (h' q).score = (h q).score)
    (ha : ∀ q ∈ a, (h q).score < (h' x).score) (hb : ∀ q ∈ b, (h' x).score < (h q).score) :
    (a ++ x :: b).Pairwise fun q r => (h' q).score < (h' r).score := by
  have hasc' : (a ++ b).Pairwise fun q r => (h' q).score < (h' r).score := by
    refine hasc.imp_of_mem fun {q r} hq hr hlt => ?_
    rwa [hold q hq, hold r hr]
  obtain ⟨hasca, hascb, hascab⟩ := List.pairwise_append.mp hasc'
  refine List.pairwise_append.mpr ⟨hasca, List.pairwise_cons.mpr ⟨?_, hascb⟩, ?_⟩
  · intro q hq
    rw [hold q (List.mem_append_right a hq)]
    exact hb q hq
  · intro q hq r hr
    rcases List.mem_cons.mp hr with rfl | hr
    · rw [hold q (List.mem_append_left b hq)]
      exact ha q hq
    · exact hascab q hq r hr

/-- **`Add` of a new score** puts one node into the list, whatever its level. -/
theorem Repr.spliceIn_allocate (hr : Repr h size (a ++ b)) {score : ℤ}
    (ha : ∀ p ∈ a, (h p).score < score) (hb : ∀ p ∈ b, score < (h p).score) (nodeID : String)
    (rLevel : ℕ) :
    ∃ h', spliceIn score size (size + 1) (rLevel + 1) root
        (allocate h size score nodeID rLevel) = some h' ∧
      Repr h' (size + 1) (a ++ size :: b) ∧
      contents h' (a ++ size :: b) = contents h a ++ (score, [nodeID]) :: contents h b := by
  set h₁ := allocate h size score nodeID rLevel with hh₁
  have hlen := hr.length_lt
  rw [List.length_append] at hlen
  have hnew : size ∉ root :: (a ++ b) := fun hmem => lt_irrefl _ (hr.alloc size hmem)
  have hself : h₁ size = ⟨score, [nodeID], List.replicate (rLevel + 1) none⟩ := allocate_self
  have hroot : height h₁ root = max (height h root) (rLevel + 1) := hr.height_allocate_root
  have hsize : height h₁ size = rLevel + 1 := by rw [height, hself, List.length_replicate]
  have hagree : ∀ p ∈ a ++ b, h₁ p = h p := fun p hp => hr.allocate_of_mem hp
  have hagreea : ∀ p ∈ a, h₁ p = h p := fun p hp => hagree p (List.mem_append_left b hp)
  have hagreeb : ∀ p ∈ b, h₁ p = h p := fun p hp => hagree p (List.mem_append_right a hp)
  obtain ⟨h', hrun, hsh, hlow, hhigh⟩ := spliceIn_spec score hr.nodup hnew
    (show a.length < size + 1 by omega) (rLevel + 1) h₁ (by omega) hsize.ge
    (fun p hp => by rw [hagreea p hp]; exact ha p hp)
    (fun p hp => by rw [hagreeb p hp]; exact (hb p hp).le)
    (fun j hj => hr.linked_allocate (lt_max_of_lt_right hj)) root List.mem_cons_self (by omega)
  refine ⟨h', hrun, ?_, ?_⟩
  · -- the nodes of the new list, by where they come from
    have hold : ∀ p ∈ a ++ b, (h' p).score = (h p).score ∧ (h' p).nodeIDs = (h p).nodeIDs ∧
        height h' p = height h p := by
      intro p hp
      obtain ⟨hs, hi, hh⟩ := hsh p
      rw [hs, hi, hh, height, height, hagree p hp]
      exact ⟨rfl, rfl, rfl⟩
    have hnode : ∀ p ∈ a ++ size :: b, p = size ∨ p ∈ a ++ b := by
      intro p hp
      simp only [List.mem_append, List.mem_cons] at hp ⊢
      tauto
    have hscore : (h' size).score = score := by rw [(hsh size).1, hself]
    have hheight : height h' size = rLevel + 1 := by rw [(hsh size).2.2, hsize]
    constructor
    case alloc =>
      intro p hp
      rcases List.mem_cons.mp hp with rfl | hp
      · exact (hr.alloc root List.mem_cons_self).trans (Nat.lt_succ_self size)
      · rcases hnode p hp with rfl | hp
        · exact Nat.lt_succ_self p
        · exact (hr.alloc p (List.mem_cons_of_mem root hp)).trans (Nat.lt_succ_self size)
    case nodup =>
      have hperm : (root :: (a ++ size :: b)).Perm (size :: root :: (a ++ b)) :=
        (List.perm_middle.cons root).trans (List.Perm.swap size root _)
      exact hperm.nodup_iff.mpr (List.nodup_cons.mpr ⟨hnew, hr.nodup⟩)
    case ascending =>
      refine ascending_insert hr.ascending (fun p hp => (hold p hp).1) ?_ ?_
      · rwa [hscore]
      · rwa [hscore]
    case height_pos =>
      intro p hp
      rcases hnode p hp with rfl | hp
      · omega
      · rw [(hold p hp).2.2]
        exact hr.height_pos p hp
    case top =>
      intro j
      rw [(hsh root).2.2, hroot, lt_max_iff, hr.top j]
      constructor
      · rintro (⟨p, hp, hlt⟩ | hlt)
        · refine ⟨p, ?_, by rwa [(hold p hp).2.2]⟩
          simp only [List.mem_append, List.mem_cons] at hp ⊢
          tauto
        · exact ⟨size, by simp, by omega⟩
      · rintro ⟨p, hp, hlt⟩
        rcases hnode p hp with rfl | hp
        · exact .inr (by omega)
        · exact .inl ⟨p, hp, by rwa [(hold p hp).2.2] at hlt⟩
    case linked =>
      intro j hj
      rw [(hsh root).2.2, hroot] at hj
      rw [hsh.onLevel_eq, onLevel_append]
      rcases lt_or_ge j (rLevel + 1) with hlt | hge
      · rw [onLevel_cons_of_lt b (by omega)]
        exact hlow j hlt
      · rw [onLevel_cons_of_le b (by omega), hhigh j hge, ← onLevel_append]
        exact hr.linked_allocate hj
    case ids =>
      intro p hp
      rcases hnode p hp with rfl | hp
      · rw [(hsh p).2.1, hself]
        exact ⟨List.cons_ne_nil _ _, List.nodup_singleton _⟩
      · rw [(hold p hp).2.1]
        exact hr.ids p hp
  · rw [hsh.contents_eq, contents_append, contents_congr hagreea]
    show _ ++ ((h₁ size).score, (h₁ size).nodeIDs) :: contents h₁ b = _
    rw [contents_congr hagreeb, hself]

/-! ### Node ids -/

theorem next_setNodeIDs (h : Heap) (p : Ptr) (nodeIDs : List String) (j : ℕ) :
    next (setNodeIDs h p nodeIDs) j = next h j := by
  funext q
  by_cases hq : q = p
  · subst hq
    rw [next, setNodeIDs, Function.update_self]
    rfl
  · rw [next, setNodeIDs, Function.update_of_ne hq]
    rfl

theorem score_setNodeIDs (h : Heap) (p : Ptr) (nodeIDs : List String) (q : Ptr) :
    (setNodeIDs h p nodeIDs q).score = (h q).score := by
  by_cases hq : q = p
  · subst hq
    rw [setNodeIDs, Function.update_self]
  · rw [setNodeIDs, Function.update_of_ne hq]

theorem height_setNodeIDs (h : Heap) (p : Ptr) (nodeIDs : List String) :
    height (setNodeIDs h p nodeIDs) = height h := by
  funext q
  by_cases hq : q = p
  · subst hq
    rw [height, setNodeIDs, Function.update_self]
    rfl
  · rw [height, setNodeIDs, Function.update_of_ne hq]
    rfl

theorem onLevel_setNodeIDs (h : Heap) (p : Ptr) (nodeIDs : List String) (j : ℕ) (c : List Ptr) :
    onLevel (setNodeIDs h p nodeIDs) j c = onLevel h j c := by
  rw [onLevel, onLevel, height_setNodeIDs]

/-- A change of the ids of one node changes the value of its score. -/
theorem Repr.setNodeIDs (hr : Repr h size (a ++ p :: b)) (nodeIDs : List String)
    (hne : nodeIDs ≠ []) (hnd : nodeIDs.Nodup) :
    Repr (setNodeIDs h p nodeIDs) size (a ++ p :: b) ∧
      contents (setNodeIDs h p nodeIDs) (a ++ p :: b) =
        contents h a ++ ((h p).score, nodeIDs) :: contents h b := by
  have hother : ∀ q, q ≠ p → Aster.Local.setNodeIDs h p nodeIDs q = h q :=
    fun q hq => Function.update_of_ne hq _ _
  have hself : (Aster.Local.setNodeIDs h p nodeIDs p).nodeIDs = nodeIDs := by
    rw [Aster.Local.setNodeIDs, Function.update_self]
  obtain ⟨-, hndb, hdisj⟩ := List.nodup_append.mp (List.nodup_cons.mp hr.nodup).2
  constructor
  · constructor
    case alloc => exact hr.alloc
    case nodup => exact hr.nodup
    case ascending =>
      refine hr.ascending.imp fun {q r} hlt => ?_
      rwa [score_setNodeIDs, score_setNodeIDs]
    case height_pos =>
      rw [height_setNodeIDs]
      exact hr.height_pos
    case top =>
      rw [height_setNodeIDs]
      exact hr.top
    case linked =>
      intro j hj
      rw [height_setNodeIDs] at hj
      rw [next_setNodeIDs, onLevel_setNodeIDs]
      exact hr.linked j hj
    case ids =>
      intro q hq
      by_cases hqp : q = p
      · rw [hqp, hself]
        exact ⟨hne, hnd⟩
      · rw [hother q hqp]
        exact hr.ids q hq
  · rw [contents_append,
      contents_congr fun q hq => hother q fun he => hdisj q hq p List.mem_cons_self he]
    show _ ++ ((Aster.Local.setNodeIDs h p nodeIDs p).score, _) :: contents _ b = _
    rw [score_setNodeIDs, hself,
      contents_congr fun q hq => hother q fun he => (List.nodup_cons.mp hndb).1 (he ▸ hq)]

/-! ### Taking a node out -/

/-- The kept part of a list reaches index `j` when the condition holds up to there. -/
theorem lt_length_takeWhile {α : Type*} {f : α → Bool} {l : List α} {j : ℕ} :
    j < (l.takeWhile f).length ↔ ∀ i ≤ j, ∃ x, l[i]? = some x ∧ f x = true := by
  induction l generalizing j with
  | nil =>
    refine ⟨nofun, fun hall => ?_⟩
    obtain ⟨x, hx, -⟩ := hall 0 (Nat.zero_le j)
    cases hx
  | cons y l ih =>
    rw [List.takeWhile_cons]
    split_ifs with hy
    · cases j with
      | zero =>
        refine ⟨fun _ i hi => ?_, fun _ => Nat.zero_lt_succ _⟩
        rw [Nat.le_zero.mp hi]
        exact ⟨y, rfl, hy⟩
      | succ j =>
        rw [List.length_cons, Nat.succ_lt_succ_iff, ih]
        constructor
        · intro hall i hi
          cases i with
          | zero => exact ⟨y, rfl, hy⟩
          | succ i => exact hall i (by omega)
        · intro hall i hi
          exact hall (i + 1) (by omega)
    · refine ⟨nofun, fun hall => ?_⟩
      obtain ⟨x, hx, hfx⟩ := hall 0 (Nat.zero_le j)
      cases hx
      exact absurd hfx hy

/-- The root keeps the levels that some node of the list reaches. -/
theorem lt_height_truncateRoot (hroot : height h' root = height h root)
    (hlow : ∀ j < height h root, Chain (next h' j) root (onLevel h j c))
    (hreach : ∀ q ∈ c, height h q ≤ height h root) (j : ℕ) :
    j < height (truncateRoot h') root ↔ ∃ q ∈ c, j < height h q := by
  rw [height, truncateRoot, setNexts, Function.update_self]
  show j < ((h' root).nexts.takeWhile (·.isSome)).length ↔ _
  rw [lt_length_takeWhile]
  constructor
  · intro hall
    obtain ⟨x, hx, hsome⟩ := hall j le_rfl
    have hj : j < height h root := by
      rw [← hroot]
      exact (List.getElem?_eq_some_iff.mp hx).1
    have hhead : next h' j root = some (onLevel h j c).head? := (hlow j hj).head
    rw [show next h' j root = some x from hx, Option.some.injEq] at hhead
    rw [hhead, Option.isSome_iff_exists] at hsome
    obtain ⟨q, hq⟩ := hsome
    exact ⟨q, mem_onLevel.mp (List.mem_of_head? hq)⟩
  · rintro ⟨q, hq, hlt⟩ i hi
    have := hreach q hq
    refine ⟨_, (hlow i (by omega)).head, ?_⟩
    have hmem : q ∈ onLevel h i c := mem_onLevel.mpr ⟨hq, by omega⟩
    exact List.isSome_head?.mpr (List.ne_nil_of_mem hmem)

/-- **`Rem` of the last id** takes the node out of the list and drops the levels that become
empty. -/
theorem Repr.spliceOut_truncate (hr : Repr h size (a ++ p :: b)) :
    ∃ h', spliceOut (h p).score size (height h root) root h = some h' ∧
      Repr (truncateRoot h') size (a ++ b) ∧
      contents (truncateRoot h') (a ++ b) = contents h a ++ contents h b := by
  have hlen := hr.length_lt
  rw [List.length_append] at hlen
  obtain ⟨hasca, hascb, hascab⟩ := List.pairwise_append.mp hr.ascending
  rw [List.pairwise_cons] at hascb
  obtain ⟨h', hrun, hsh, hlow, -⟩ := spliceOut_spec hr.nodup (show a.length < size by omega)
    (height h root) h le_rfl (fun q hq => hascab q hq p List.mem_cons_self) rfl hascb.1
    hr.linked root List.mem_cons_self le_rfl
  have hsub : (a ++ b).Sublist (a ++ p :: b) :=
    (List.sublist_cons_self p b).append_left a
  have hother : ∀ q, q ≠ root → truncateRoot h' q = h' q :=
    fun q hq => Function.update_of_ne hq _ _
  have hroot : truncateRoot h' root =
      { h' root with nexts := (h' root).nexts.takeWhile (·.isSome) } := by
    rw [truncateRoot, setNexts, Function.update_self]
  have hagree : ∀ q ∈ a ++ b, truncateRoot h' q = h' q :=
    fun q hq => hother q (hr.ne_root (hsub.subset hq))
  have hheight : ∀ q ∈ a ++ b, height (truncateRoot h') q = height h q := by
    intro q hq
    rw [height, hagree q hq]
    exact (hsh q).2.2
  have hscore : ∀ q ∈ a ++ b, (truncateRoot h' q).score = (h q).score := by
    intro q hq
    rw [hagree q hq, (hsh q).1]
  have hreach : ∀ q ∈ a ++ b, height h q ≤ height h root := by
    intro q hq
    by_contra hlt
    exact lt_irrefl _ ((hr.top _).mpr ⟨q, hsub.subset hq, not_le.mp hlt⟩)
  have htop := lt_height_truncateRoot (hsh root).2.2 hlow hreach
  refine ⟨h', hrun, ?_, ?_⟩
  · constructor
    case alloc =>
      intro q hq
      exact hr.alloc q ((List.cons_sublist_cons.mpr hsub).subset hq)
    case nodup => exact hr.nodup.sublist (List.cons_sublist_cons.mpr hsub)
    case ascending =>
      refine (hr.ascending.sublist hsub).imp_of_mem fun {q r} hq hr' hlt => ?_
      rwa [hscore q hq, hscore r hr']
    case height_pos =>
      intro q hq
      rw [hheight q hq]
      exact hr.height_pos q (hsub.subset hq)
    case top =>
      intro j
      rw [htop j]
      constructor
      · rintro ⟨q, hq, hlt⟩
        exact ⟨q, hq, by rwa [hheight q hq]⟩
      · rintro ⟨q, hq, hlt⟩
        exact ⟨q, hq, by rwa [hheight q hq] at hlt⟩
    case linked =>
      intro j hj
      obtain ⟨q, hq, hlt⟩ := (htop j).mp hj
      have hchain := hlow j ((hr.top j).mpr ⟨q, hsub.subset hq, hlt⟩)
      have hlev : onLevel (truncateRoot h') j (a ++ b) = onLevel h j (a ++ b) := by
        rw [onLevel_congr hagree, hsh.onLevel_eq]
      rw [hlev]
      refine chain_congr (fun r hr' => ?_) hchain
      by_cases hrr : r = root
      · obtain ⟨dropped, hdropped⟩ :=
          List.takeWhile_prefix (l := (h' root).nexts) fun x => x.isSome
        rw [height, hroot] at hj
        rw [hrr, next, next, hroot, ← hdropped]
        exact (List.getElem?_append_left hj).trans (by rw [hdropped])
      · rw [next, next, hother r hrr]
    case ids =>
      intro q hq
      rw [hagree q hq, (hsh q).2.1]
      exact hr.ids q (hsub.subset hq)
  · rw [contents_congr hagree, hsh.contents_eq, contents_append]

end Aster.Local
