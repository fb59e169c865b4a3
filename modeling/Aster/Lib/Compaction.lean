import Mathlib.Data.List.Basic
import Mathlib.Tactic

/-!
# Filtering a slice in place

A loop reads the slice at one pointer and writes the elements that stay at another one, which is
never ahead of it; at the end the slice is cut at the second pointer.  In `compactLoop` every read
is from the slice as the writes have left it.  `compact_eq` says that the loop is a filter, and that
it sees every element of the slice as it was.
-/

namespace Aster.Lib.Compaction

variable {α S : Type*}

/-- The loop with `n` rounds left; `visit` is what a round does besides. -/
def compactLoop (removes : α → Bool) (visit : S → α → S) :
    ℕ → ℕ → ℕ → List α → S → Option (List α × S)
  | 0, _, firstPtr, q, s => some (q.take firstPtr, s)
  | n + 1, secondPtr, firstPtr, q, s => q[secondPtr]?.bind fun x =>
    if removes x then compactLoop removes visit n (secondPtr + 1) firstPtr q (visit s x)
    else compactLoop removes visit n (secondPtr + 1) (firstPtr + 1) (q.set firstPtr x) (visit s x)

def compact (removes : α → Bool) (visit : S → α → S) (q : List α) (s : S) : Option (List α × S) :=
  compactLoop removes visit q.length 0 0 q s

variable (removes : α → Bool) (visit : S → α → S)

/-- A write overwrites the first of the elements that are not needed any more, or the one that was
just read. -/
theorem set_kept (kept old : List α) (x : α) (rest : List α) :
    ∃ old', old'.length = old.length ∧
      (kept ++ old ++ x :: rest).set kept.length x = (kept ++ [x]) ++ old' ++ rest := by
  cases old with
  | nil => exact ⟨[], rfl, by simp⟩
  | cons y old => exact ⟨old ++ [x], by simp, by simp⟩

/-- The slice has the elements that stay, some that are not needed any more, and the rest. -/
theorem compactLoop_eq (rest kept old : List α) (s : S) :
    compactLoop removes visit rest.length (kept.length + old.length) kept.length
        (kept ++ old ++ rest) s =
      some (kept ++ rest.filter fun x => !removes x, rest.foldl visit s) := by
  induction rest generalizing kept old s with
  | nil => simp [compactLoop]
  | cons x rest ih =>
    have hread : (kept ++ old ++ x :: rest)[kept.length + old.length]? = some x := by
      rw [← List.length_append, List.getElem?_append_right le_rfl, Nat.sub_self]
      rfl
    rw [List.length_cons, compactLoop, hread, Option.bind_some]
    cases hx : removes x with
    | true =>
      rw [if_pos rfl]
      have hloop := ih kept (old ++ [x]) (visit s x)
      rw [List.length_append, List.length_singleton, ← Nat.add_assoc, ← List.append_assoc,
        List.append_assoc, List.singleton_append] at hloop
      rw [hloop]
      simp [hx]
    | false =>
      rw [if_neg Bool.false_ne_true]
      obtain ⟨old', hlen, hset⟩ := set_kept kept old x rest
      have hloop := ih (kept ++ [x]) old' (visit s x)
      rw [List.length_append, List.length_singleton, hlen, Nat.add_right_comm, ← hset] at hloop
      rw [hloop]
      simp [hx]

/-- **Filtering in place is filtering.** -/
theorem compact_eq (q : List α) (s : S) :
    compact removes visit q s = some (q.filter fun x => !removes x, q.foldl visit s) :=
  compactLoop_eq removes visit q [] [] s

end Aster.Lib.Compaction
