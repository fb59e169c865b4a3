import Mathlib.Data.List.Perm.Basic
import Mathlib.Data.Option.Basic
import Mathlib.Tactic

/-!
# Labelled transition systems with partial steps

A system is a partial step function on states and labels; `none` means that the label is not
enabled.  `Reach step guard init` are the states of the runs that start in `init` and whose
steps all meet `guard`, a condition on the state before the step and the label.  A property of
every run is the case `guard = fun _ _ => True`.
-/

namespace Aster.Lib.Transition

variable {S L : Type*}

/-- The states of the guarded runs from `init`. -/
inductive Reach (step : S → L → Option S) (guard : S → L → Prop) (init : S → Prop) : S → Prop
  | start {s : S} : init s → Reach step guard init s
  | next {s s' : S} {l : L} : Reach step guard init s → guard s l → step s l = some s' →
      Reach step guard init s'

/-- Any run. -/
def anyStep (_ : S) (_ : L) : Prop := True

variable {step : S → L → Option S} {guard : S → L → Prop} {init : S → Prop}

/-- **The invariant rule.**  What holds initially and is kept by every guarded step holds in
every state reached. -/
theorem Reach.invariant {Inv : S → Prop} (hinit : ∀ s, init s → Inv s)
    (hstep : ∀ s s' l, Reach step guard init s → Inv s → guard s l → step s l = some s' →
      Inv s') {s : S} (h : Reach step guard init s) : Inv s := by
  induction h with
  | start hs => exact hinit _ hs
  | next hr hg hs ih => exact hstep _ _ _ hr ih hg hs

/-- A run goes on where another one has led. -/
theorem Reach.append {s s' : S} (h : Reach step guard init s)
    (h' : Reach step guard (· = s) s') : Reach step guard init s' := by
  induction h' with
  | start hs => exact hs ▸ h
  | next _ hg hs ih => exact .next ih hg hs

instance (s : S) (l : L) : Decidable (anyStep s l) := inferInstanceAs (Decidable True)

/-- Execute a list of labels, with `none` when a step is not enabled or not allowed. -/
def run (step : S → L → Option S) (guard : S → L → Prop) [∀ s l, Decidable (guard s l)]
    (s : S) (ls : List L) : Option S :=
  ls.foldlM (fun s l => if guard s l then step s l else none) s

theorem reach_of_run [∀ s l, Decidable (guard s l)] {s s' : S} (ls : List L)
    (hs : Reach step guard init s) (h : run step guard s ls = some s') :
    Reach step guard init s' := by
  induction ls generalizing s with
  | nil =>
    rw [run, List.foldlM_nil] at h
    exact Option.some.inj h ▸ hs
  | cons l ls ih =>
    rw [run, List.foldlM_cons] at h
    obtain ⟨t, ht, hrest⟩ := Option.bind_eq_some_iff.mp h
    split_ifs at ht with hg
    exact ih (.next hs hg ht) hrest

/-- A run that can be executed leads to a reachable state with what can be checked of it. -/
theorem exists_reach_of_run [∀ s l, Decidable (guard s l)] {s : S} (ls : List L) (p : S → Prop)
    [DecidablePred p] (hs : Reach step guard init s)
    (h : (run step guard s ls).any (fun s => decide (p s)) = true) :
    ∃ s', Reach step guard init s' ∧ p s' := by
  cases hrun : run step guard s ls with
  | none =>
    rw [hrun] at h
    cases h
  | some s' =>
    rw [hrun] at h
    exact ⟨s', reach_of_run ls hs hrun, of_decide_eq_true h⟩

/-! ### Taking an element out of a list -/

variable {α : Type*}

theorem perm_eraseIdx {l : List α} {k : ℕ} {x : α} (h : l[k]? = some x) :
    l.Perm (x :: l.eraseIdx k) := by
  obtain ⟨hk, rfl⟩ := List.getElem?_eq_some_iff.mp h
  exact (List.getElem_cons_eraseIdx_perm hk).symm

theorem mem_eraseIdx_or_eq {l : List α} {k : ℕ} {x y : α} (h : l[k]? = some x) (hy : y ∈ l) :
    y = x ∨ y ∈ l.eraseIdx k :=
  List.mem_cons.mp ((perm_eraseIdx h).mem_iff.mp hy)

/-- In an ordered list, what stays behind the element that is taken out comes after it. -/
theorem mem_take_or_rel_of_mem_eraseIdx {R : α → α → Prop} {l : List α} (h : l.Pairwise R) {k : ℕ}
    {x y : α} (hx : l[k]? = some x) (hy : y ∈ l.eraseIdx k) : y ∈ l.take k ∨ R x y := by
  obtain ⟨hk, rfl⟩ := List.getElem?_eq_some_iff.mp hx
  rw [List.eraseIdx_eq_take_drop_succ] at hy
  refine (List.mem_append.mp hy).imp_right ?_
  intro hdrop
  have hsuffix := h.sublist (List.drop_sublist k l)
  rw [List.drop_eq_getElem_cons hk] at hsuffix
  exact (List.pairwise_cons.mp hsuffix).1 y hdrop

/-! ### Counting messages by what they are for -/

variable {T : Type*} [DecidableEq T] (task : α → T)

theorem countP_task_pos {l : List α} {m : α} (hm : m ∈ l) :
    0 < l.countP (task · = task m) :=
  List.countP_pos_iff.mpr ⟨m, hm, decide_eq_true rfl⟩

theorem countP_task_snoc (l : List α) (m : α) (i : T) :
    (l ++ [m]).countP (task · = i) = l.countP (task · = i) + if task m = i then 1 else 0 := by
  rw [List.countP_append, List.countP_singleton]
  simp only [decide_eq_true_eq]

theorem countP_task_eraseIdx {l : List α} {j : ℕ} {m : α} (hm : l[j]? = some m) (i : T) :
    l.countP (task · = i) = (l.eraseIdx j).countP (task · = i) + if task m = i then 1 else 0 := by
  rw [(perm_eraseIdx hm).countP_eq, List.countP_cons]
  simp only [decide_eq_true_eq]

end Aster.Lib.Transition
