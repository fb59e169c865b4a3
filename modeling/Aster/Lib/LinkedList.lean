import Mathlib.Data.List.Basic
import Mathlib.Data.List.Nodup
import Mathlib.Tactic

/-!
# Singly linked chains

A next-pointer map `f : P → Option (Option P)` gives for a node `none` when it has no such
pointer, `some none` at the end of a list and `some (some q)` otherwise.  `Chain f p l` says that
following the pointers from `p` visits exactly the nodes of `l`.  Chains can be cut at any node,
and one pointer write inserts a node behind another or takes it out.

`walk` follows the pointers as long as a condition holds of the next node, and `collect` lists
the nodes up to the end, both with fuel.
-/

namespace Aster.Lib.LinkedList

variable {P : Type*} {f g : P → Option (Option P)}

/-- Following `f` from the first node visits the nodes of the list and ends. -/
def Chain (f : P → Option (Option P)) : P → List P → Prop
  | p, [] => f p = some none
  | p, q :: l => f p = some (some q) ∧ Chain f q l

/-- Following `f` from the first node visits the nodes of the list. -/
def Path (f : P → Option (Option P)) : P → List P → Prop
  | _, [] => True
  | p, q :: l => f p = some (some q) ∧ Path f q l

theorem Chain.head {p : P} {l : List P} (h : Chain f p l) : f p = some l.head? := by
  cases l with
  | nil => exact h
  | cons q l => exact h.1

/-- A chain is a path and a chain from its last node. -/
theorem chain_append {p : P} {a b : List P} :
    Chain f p (a ++ b) ↔ Path f p a ∧ Chain f (a.getLastD p) b := by
  induction a generalizing p with
  | nil => exact ⟨fun h => ⟨trivial, h⟩, fun h => h.2⟩
  | cons q a ih =>
    rw [List.cons_append, Chain, Path, ih, List.getLastD_cons, and_assoc]

theorem Chain.suffix {p q : P} {a b : List P} (h : Chain f p (a ++ q :: b)) : Chain f q b := by
  have h' : Chain f p ((a ++ [q]) ++ b) := by
    rw [List.append_assoc]
    exact h
  have hc := (chain_append.mp h').2
  rwa [List.getLastD_concat] at hc

theorem chain_congr {p : P} {l : List P} (h : ∀ q ∈ p :: l, f q = g q) (hc : Chain f p l) :
    Chain g p l := by
  induction l generalizing p with
  | nil =>
    show g p = some none
    rw [← h p List.mem_cons_self]
    exact hc
  | cons q l ih =>
    refine ⟨?_, ih (fun r hr => h r (List.mem_cons_of_mem p hr)) hc.2⟩
    rw [← h p List.mem_cons_self]
    exact hc.1

theorem getLastD_mem (p : P) (a : List P) : a.getLastD p ∈ p :: a := by
  rw [List.getLastD_eq_getLast?]
  cases hl : a.getLast? with
  | none => exact List.mem_cons_self
  | some r => exact List.mem_cons_of_mem p (List.mem_of_getLast? hl)

theorem path_congr {p : P} {l : List P} (h : ∀ q ∈ p :: l, q ≠ l.getLastD p → f q = g q)
    (hnd : (p :: l).Nodup) (hc : Path f p l) : Path g p l := by
  induction l generalizing p with
  | nil => trivial
  | cons q l ih =>
    rw [List.nodup_cons] at hnd
    have hp : p ≠ l.getLastD q := fun he => hnd.1 (he ▸ getLastD_mem q l)
    refine ⟨?_, ih (fun r hr hne => ?_) hnd.2 hc.2⟩
    · rw [← h p List.mem_cons_self (by rwa [List.getLastD_cons])]
      exact hc.1
    · exact h r (List.mem_cons_of_mem p hr) (by rwa [List.getLastD_cons])

/-- The last node of the first part is not in the second. -/
theorem getLastD_not_mem {p : P} {a b : List P} (hnd : (p :: (a ++ b)).Nodup) :
    a.getLastD p ∉ b := by
  have hnd' : ((p :: a) ++ b).Nodup := hnd
  exact fun hb => (List.nodup_append.mp hnd').2.2 _ (getLastD_mem p a) _ hb rfl

/-- **Insertion.**  Point the new node to the rest and the last node before it to the new
node. -/
theorem chain_insert {p x : P} {a b : List P} (hc : Chain f p (a ++ b))
    (hnd : (p :: (a ++ b)).Nodup) (hx : x ∉ p :: (a ++ b))
    (hlast : g (a.getLastD p) = some (some x)) (hnew : g x = some b.head?)
    (hother : ∀ q, q ≠ a.getLastD p → q ≠ x → g q = f q) : Chain g p (a ++ x :: b) := by
  obtain ⟨hpath, hrest⟩ := chain_append.mp hc
  have hnda : (p :: a).Nodup := List.Nodup.sublist
    (List.cons_sublist_cons.mpr (List.sublist_append_left a b)) hnd
  have hne : ∀ q ∈ p :: a, q ≠ x := by
    rintro q hq rfl
    apply hx
    rcases List.mem_cons.mp hq with rfl | hq
    · exact List.mem_cons_self
    · exact List.mem_cons_of_mem p (List.mem_append_left b hq)
  refine chain_append.mpr ⟨?_, hlast, ?_⟩
  · exact path_congr (fun q hq hql => (hother q hql (hne q hq)).symm) hnda hpath
  · cases b with
    | nil => exact hnew
    | cons q b =>
      refine ⟨hnew, chain_congr (fun r hr => (hother r ?_ ?_).symm) hrest.2⟩
      · rintro rfl
        exact getLastD_not_mem hnd hr
      · rintro rfl
        exact hx (List.mem_cons_of_mem p (List.mem_append_right a hr))

/-- **Removal.**  Point the last node before the removed one to where that one points. -/
theorem chain_remove {p x : P} {a b : List P} (hc : Chain f p (a ++ x :: b))
    (hnd : (p :: (a ++ x :: b)).Nodup) (hlast : g (a.getLastD p) = f x)
    (hother : ∀ q, q ≠ a.getLastD p → g q = f q) : Chain g p (a ++ b) := by
  obtain ⟨hpath, -, hrest⟩ := chain_append.mp hc
  have hnda : (p :: a).Nodup := List.Nodup.sublist
    (List.cons_sublist_cons.mpr (List.sublist_append_left a _)) hnd
  have hnot := getLastD_not_mem hnd
  refine chain_append.mpr ⟨?_, ?_⟩
  · exact path_congr (fun q _ hql => (hother q hql).symm) hnda hpath
  · cases b with
    | nil => exact hlast.trans hrest
    | cons q b =>
      refine ⟨hlast.trans hrest.1, chain_congr (fun r hr => (hother r ?_).symm) hrest.2⟩
      rintro rfl
      exact hnot (List.mem_cons_of_mem x hr)

/-! ### Following the pointers -/

/-- Move on as long as there is a next node and it meets the condition.  The result is `none`
when a node has no such pointer or the fuel runs out. -/
def walk (f : P → Option (Option P)) (cont : P → Bool) : ℕ → P → Option P
  | 0, _ => none
  | fuel + 1, p =>
    match f p with
    | none => none
    | some none => some p
    | some (some q) => if cont q then walk f cont fuel q else some p

theorem walk_eq {cont : P → Bool} {p : P} {a b : List P} (hc : Chain f p (a ++ b))
    (ha : ∀ q ∈ a, cont q = true) (hb : ∀ q ∈ b.head?, cont q = false) {fuel : ℕ}
    (hfuel : a.length < fuel) : walk f cont fuel p = some (a.getLastD p) := by
  induction a generalizing p fuel with
  | nil =>
    obtain ⟨fuel, rfl⟩ := Nat.exists_eq_succ_of_ne_zero (Nat.ne_of_gt hfuel)
    have hhead : f p = some b.head? := Chain.head hc
    rw [walk, hhead]
    cases hq : b.head? with
    | none => rfl
    | some q =>
      have hfalse := hb q hq
      show (if cont q then walk f cont fuel q else some p) = some p
      rw [hfalse]
      rfl
  | cons q a ih =>
    obtain ⟨fuel, rfl⟩ := Nat.exists_eq_succ_of_ne_zero (Nat.ne_of_gt (Nat.zero_lt_of_lt hfuel))
    have hlt : a.length < fuel := by
      rw [List.length_cons] at hfuel
      omega
    have hq := ha q List.mem_cons_self
    rw [walk, hc.1, List.getLastD_cons]
    show (if cont q then walk f cont fuel q else some p) = some (a.getLastD q)
    rw [hq]
    exact ih hc.2 (fun r hr => ha r (List.mem_cons_of_mem q hr)) hlt

/-- The nodes after the first one, up to the end. -/
def collect (f : P → Option (Option P)) : ℕ → P → Option (List P)
  | 0, _ => none
  | fuel + 1, p =>
    match f p with
    | none => none
    | some none => some []
    | some (some q) => (collect f fuel q).map (q :: ·)

theorem collect_eq {p : P} {l : List P} (hc : Chain f p l) {fuel : ℕ} (hfuel : l.length < fuel) :
    collect f fuel p = some l := by
  induction l generalizing p fuel with
  | nil =>
    obtain ⟨fuel, rfl⟩ := Nat.exists_eq_succ_of_ne_zero (Nat.ne_of_gt hfuel)
    have hend : f p = some none := hc
    rw [collect, hend]
  | cons q l ih =>
    obtain ⟨fuel, rfl⟩ := Nat.exists_eq_succ_of_ne_zero (Nat.ne_of_gt (Nat.zero_lt_of_lt hfuel))
    have hlt : l.length < fuel := by
      rw [List.length_cons] at hfuel
      omega
    rw [collect, hc.1]
    show (collect f fuel q).map (q :: ·) = some (q :: l)
    rw [ih hc.2 hlt]
    rfl

end Aster.Lib.LinkedList
