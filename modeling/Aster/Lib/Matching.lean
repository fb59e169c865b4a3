import Mathlib.Data.List.Basic
import Mathlib.Data.List.Perm.Basic
import Mathlib.Data.Finset.Union
import Mathlib.Tactic

/-!
# Openings and closings

Batches arrive one after the other, each with openings and closings.  A closing is matched when its
opening is in the same batch or in an earlier one; within a batch the openings are read first.

* `matched_le`: the matched closings among those that have an opening;
* **`matched_eq_length_iff`**: when every opening has one closing, they all match exactly if no
  batch has a closing of a later opening.
-/

namespace Aster.Lib.Matching

variable {H : Type*} [BEq H] [LawfulBEq H]

structure Batch (H : Type*) where
  opens : List H
  closes : List H

def opens (bs : List (Batch H)) : List H := bs.flatMap Batch.opens

def closes (bs : List (Batch H)) : List H := bs.flatMap Batch.closes

/-- Every opening is there once, and has at most one closing. -/
def AtMostPaired (bs : List (Batch H)) : Prop :=
  ∀ h ∈ opens bs, (opens bs).count h = 1 ∧ (closes bs).count h ≤ 1

theorem AtMostPaired.nodup {bs : List (Batch H)} (h : AtMostPaired bs) : (opens bs).Nodup := by
  refine List.nodup_iff_count_le_one.mpr fun x => ?_
  by_cases hx : x ∈ opens bs
  · exact (h x hx).1.le
  · simp [List.count_eq_zero_of_not_mem hx]

/-- The closings that have an opening. -/
def paired (bs : List (Batch H)) : ℕ := (closes bs).countP (· ∈ opens bs)

theorem paired_le_length {bs : List (Batch H)} (h : AtMostPaired bs) :
    paired bs ≤ (opens bs).length := by
  rw [paired, List.countP_eq_length_filter]
  refine List.Subperm.length_le (List.subperm_of_subset ?_ fun x hx => by simpa using
    (List.mem_filter.mp hx).2)
  refine List.nodup_iff_count_le_one.mpr fun x => ?_
  by_cases hx : x ∈ opens bs
  · rw [List.count_filter (by simpa using hx)]
    exact (h x hx).2
  · rw [List.count_eq_zero_of_not_mem fun hmem => hx (by simpa using (List.mem_filter.mp hmem).2)]
    exact Nat.zero_le 1

/-- With a closing for every opening, there are as many. -/
theorem paired_eq_length {bs : List (Batch H)} (h : AtMostPaired bs)
    (hclose : ∀ x ∈ opens bs, x ∈ closes bs) : paired bs = (opens bs).length := by
  rw [paired, List.countP_eq_length_filter]
  refine List.Perm.length_eq (List.perm_iff_count.mpr fun x => ?_)
  by_cases hx : x ∈ opens bs
  · have hpos := List.count_pos_iff.mpr (hclose x hx)
    rw [List.count_filter (by simpa using hx), (h x hx).1]
    exact le_antisymm (h x hx).2 hpos
  · rw [List.count_eq_zero_of_not_mem hx, List.count_eq_zero]
    exact fun hmem => hx (by simpa using (List.mem_filter.mp hmem).2)

/-- Two counts where one test is weaker than the other. -/
theorem countP_eq_iff_of_imp {α : Type*} {p q : α → Bool} (hpq : ∀ x, p x = true → q x = true)
    (l : List α) :
    l.countP p ≤ l.countP q ∧ (l.countP p = l.countP q ↔ ∀ x ∈ l, q x = true → p x = true) := by
  induction l with
  | nil => simp
  | cons a l ih =>
    rw [List.countP_cons, List.countP_cons, List.forall_mem_cons]
    cases hp : p a with
    | true =>
      simp only [hpq a hp, if_true, Nat.add_le_add_iff_right, Nat.add_right_cancel_iff]
      simpa using ih
    | false =>
      cases hq : q a with
      | true =>
        simp
        omega
      | false => simpa using ih

variable [DecidableEq H]

/-- The number of closings whose opening was seen. -/
def matched (seen : Finset H) : List (Batch H) → ℕ
  | [] => 0
  | b :: bs =>
    b.closes.countP (· ∈ seen ∪ b.opens.toFinset) + matched (seen ∪ b.opens.toFinset) bs

/-- No closing comes in a batch before that of its opening. -/
def Ordered (bs : List (Batch H)) : Prop := bs.Pairwise fun a b => ∀ h ∈ a.closes, h ∉ b.opens

/-- The matched closings are all those that have an opening exactly if the batches are ordered. -/
theorem matched_eq_countP_iff (seen : Finset H) {bs : List (Batch H)} (hnd : (opens bs).Nodup)
    (hseen : ∀ h ∈ opens bs, h ∉ seen) :
    matched seen bs ≤ (closes bs).countP (fun h => h ∈ seen ∨ h ∈ opens bs) ∧
      (matched seen bs = (closes bs).countP (fun h => h ∈ seen ∨ h ∈ opens bs) ↔
        Ordered bs) := by
  induction bs generalizing seen with
  | nil => simp [matched, closes, Ordered]
  | cons b bs ih =>
    have hopens : opens (b :: bs) = b.opens ++ opens bs := List.flatMap_cons
    have hcloses : closes (b :: bs) = b.closes ++ closes bs := List.flatMap_cons
    rw [hopens, List.nodup_append] at hnd
    have hlater : ∀ h ∈ opens bs, h ∉ seen ∪ b.opens.toFinset := by
      intro h hh hmem
      rcases Finset.mem_union.mp hmem with hmem | hmem
      · exact hseen h (by simp [hopens, hh]) hmem
      · exact hnd.2.2 h (List.mem_toFinset.mp hmem) h hh rfl
    obtain ⟨hle, heq⟩ := ih (seen ∪ b.opens.toFinset) hnd.2.1 hlater
    -- what a batch counts, and what has an opening anywhere
    obtain ⟨hle', heq'⟩ := countP_eq_iff_of_imp (l := b.closes)
      (p := fun h => h ∈ seen ∪ b.opens.toFinset)
      (q := fun h => h ∈ seen ∨ h ∈ opens (b :: bs)) (by
        intro h
        simp only [decide_eq_true_eq, Finset.mem_union, List.mem_toFinset, hopens,
          List.mem_append]
        exact Or.imp_right .inl)
    have htail : (closes bs).countP (fun h => h ∈ seen ∪ b.opens.toFinset ∨ h ∈ opens bs) =
        (closes bs).countP (fun h => h ∈ seen ∨ h ∈ opens (b :: bs)) := by
      refine List.countP_congr fun h _ => ?_
      simp only [decide_eq_true_eq, Finset.mem_union, List.mem_toFinset, hopens, List.mem_append,
        or_assoc]
    rw [htail] at hle heq
    have hhead : (∀ h ∈ b.closes, decide (h ∈ seen ∨ h ∈ opens (b :: bs)) = true →
        decide (h ∈ seen ∪ b.opens.toFinset) = true) ↔
        ∀ c ∈ bs, ∀ h ∈ b.closes, h ∉ c.opens := by
      simp only [decide_eq_true_eq, hopens, List.mem_append]
      constructor
      · intro hall c hc h hh hmem
        have hin : h ∈ opens bs := List.mem_flatMap.mpr ⟨c, hc, hmem⟩
        exact hlater h hin (hall h hh (.inr (.inr hin)))
      · intro hall h hh hmem
        rw [Finset.mem_union, List.mem_toFinset]
        rcases hmem with hmem | hmem | hmem
        · exact .inl hmem
        · exact .inr hmem
        · obtain ⟨c, hc, hin⟩ := List.mem_flatMap.mp hmem
          exact absurd hin (hall c hc h hh)
    rw [matched, hcloses, List.countP_append, Ordered, List.pairwise_cons, ← hhead, ← heq',
      ← Ordered, ← heq]
    omega

theorem matched_le {bs : List (Batch H)} (h : AtMostPaired bs) :
    matched ∅ bs ≤ (opens bs).length := by
  have hle := (matched_eq_countP_iff ∅ h.nodup (by simp)).1
  simp only [Finset.notMem_empty, false_or] at hle
  exact hle.trans (paired_le_length h)

/-- **All openings are matched** exactly if no closing comes too early. -/
theorem matched_eq_length_iff {bs : List (Batch H)} (h : AtMostPaired bs)
    (hclose : ∀ x ∈ opens bs, x ∈ closes bs) :
    matched ∅ bs = (opens bs).length ↔ Ordered bs := by
  have heq := (matched_eq_countP_iff ∅ h.nodup (by simp)).2
  simp only [Finset.notMem_empty, false_or] at heq
  rw [← heq, ← paired_eq_length h hclose, paired]

end Aster.Lib.Matching
