import Mathlib.Data.List.Basic
import Mathlib.Tactic

/-!
# Slices of arrays on a heap

A slice is a window of an array: where it starts, how long it is, and how far it may grow.  `append`
writes behind the window as long as there is capacity, and copies to a new array otherwise.  Two
slices of one array can therefore see each other's appends.

* `append_contents`: the appended slice holds the old contents and the new elements;
* `append_frame`: a slice whose window is clear of the elements written is not changed;
* `Apart`: the windows with their capacities have nothing in common, which appends preserve;
* `Straddles`: the one way in which appending the elements of a slice, one after the other, can
  overtake the reading of them.

The capacity of a new array is up to the runtime and only known to be large enough.
-/

namespace Aster.Lib.Slices

variable {α : Type*}

/-- The arrays in the order of their allocation. -/
abbrev Heap (α : Type*) := List (List α)

structure Slice where
  arr : ℕ
  off : ℕ
  len : ℕ
  cap : ℕ
  deriving DecidableEq

/-- The slice without an array. -/
def Slice.nil : Slice := ⟨0, 0, 0, 0⟩

/-- `s[:n]`, which keeps its capacity. -/
def Slice.front (s : Slice) (n : ℕ) : Slice := { s with len := n }

/-- `s[n:]`. -/
def Slice.rest (s : Slice) (n : ℕ) : Slice := ⟨s.arr, s.off + n, s.len - n, s.cap - n⟩

def array (h : Heap α) (a : ℕ) : List α := h.getD a []

def contents (h : Heap α) (s : Slice) : List α := ((array h s.arr).drop s.off).take s.len

/-- The window lies in its array. -/
structure Valid (h : Heap α) (s : Slice) : Prop where
  len_le : s.len ≤ s.cap
  fits : s.off + s.cap ≤ (array h s.arr).length

/-- The capacities that the runtime chooses. -/
structure Growth where
  cap : ℕ → ℕ → ℕ
  le_cap : ∀ old need, need ≤ cap old need

/-- `ys` in the place of the elements from `pos` on. -/
def overwrite (xs : List α) (pos : ℕ) (ys : List α) : List α :=
  xs.take pos ++ ys ++ xs.drop (pos + ys.length)

/-- `append(s, ys...)`; `zero` fills the spare capacity of a new array. -/
def append (g : Growth) (zero : α) (h : Heap α) (s : Slice) (ys : List α) : Heap α × Slice :=
  if s.len + ys.length ≤ s.cap then
    (h.set s.arr (overwrite (array h s.arr) (s.off + s.len) ys),
      { s with len := s.len + ys.length })
  else
    let cap := g.cap s.cap (s.len + ys.length)
    (h ++ [contents h s ++ ys ++ List.replicate (cap - (s.len + ys.length)) zero],
      ⟨h.length, 0, s.len + ys.length, cap⟩)

/-- `n` elements appended to `s` in place are not written into the window of `t`. -/
def Clear (s : Slice) (n : ℕ) (t : Slice) : Prop :=
  s.arr ≠ t.arr ∨ n = 0 ∨ t.len = 0 ∨ t.off + t.len ≤ s.off + s.len ∨ s.off + s.len + n ≤ t.off

/-- The windows with their capacities have no element in common. -/
def Apart (s t : Slice) : Prop :=
  s.arr ≠ t.arr ∨ s.cap = 0 ∨ t.cap = 0 ∨ s.off + s.cap ≤ t.off ∨ t.off + t.cap ≤ s.off

/-- The spare capacity of `s` begins inside the window of `t`. -/
def Straddles (s t : Slice) : Prop :=
  s.arr = t.arr ∧ s.len < s.cap ∧ t.off < s.off + s.len ∧ s.off + s.len < t.off + t.len

instance (h : Heap α) (s : Slice) : Decidable (Valid h s) :=
  decidable_of_iff (s.len ≤ s.cap ∧ s.off + s.cap ≤ (array h s.arr).length)
    ⟨fun hv => ⟨hv.1, hv.2⟩, fun hv => ⟨hv.len_le, hv.fits⟩⟩

instance (s t : Slice) : Decidable (Apart s t) := inferInstanceAs (Decidable (_ ∨ _))

instance (s t : Slice) : Decidable (Straddles s t) := inferInstanceAs (Decidable (_ ∧ _))

variable {h : Heap α} {s t : Slice} {xs ys : List α} {n pos : ℕ}

/-! ### Arrays -/

theorem array_of_le {a : ℕ} (ha : h.length ≤ a) : array h a = [] := by
  rw [array, List.getD_eq_getElem?_getD, List.getElem?_eq_none ha, Option.getD_none]

theorem array_set (h : Heap α) (a b : ℕ) (xs : List α) :
    array (h.set a xs) b = if a = b ∧ a < h.length then xs else array h b := by
  simp only [array, List.getD_eq_getElem?_getD, List.getElem?_set]
  by_cases hab : a = b
  · by_cases hlt : a < h.length
    · simp [hab, hab ▸ hlt]
    · simp [hab, hab ▸ hlt]
  · simp [hab]

theorem array_append (h : Heap α) (xs : List α) (b : ℕ) :
    array (h ++ [xs]) b = if b = h.length then xs else array h b := by
  rcases lt_trichotomy b h.length with hlt | heq | hgt
  · rw [if_neg hlt.ne, array, array, List.getD_eq_getElem?_getD, List.getElem?_append_left hlt,
      List.getD_eq_getElem?_getD]
  · simp [array, heq]
  · rw [if_neg hgt.ne', array_of_le hgt.le, array_of_le (by simp; omega)]

theorem overwrite_length (hfit : pos + ys.length ≤ xs.length) :
    (overwrite xs pos ys).length = xs.length := by
  simp only [overwrite, List.length_append, List.length_take, List.length_drop]
  omega

theorem getElem?_overwrite (hfit : pos + ys.length ≤ xs.length) (i : ℕ) :
    (overwrite xs pos ys)[i]? =
      if pos ≤ i ∧ i < pos + ys.length then ys[i - pos]? else xs[i]? := by
  have hlen : (xs.take pos).length = pos := by
    rw [List.length_take]
    omega
  rw [overwrite, List.append_assoc]
  rcases lt_or_ge i pos with hlt | hge
  · rw [List.getElem?_append_left (by omega), List.getElem?_take_of_lt hlt, if_neg (by omega)]
  · rw [List.getElem?_append_right (by omega), hlen]
    rcases lt_or_ge i (pos + ys.length) with hin | hout
    · rw [List.getElem?_append_left (by omega), if_pos ⟨hge, hin⟩]
    · rw [List.getElem?_append_right (by omega), List.getElem?_drop, if_neg (by omega)]
      congr 1
      omega

/-! ### Contents -/

theorem getElem?_contents (h : Heap α) (s : Slice) (i : ℕ) :
    (contents h s)[i]? = if i < s.len then (array h s.arr)[s.off + i]? else none := by
  rw [contents, List.getElem?_take]
  split_ifs
  · rw [List.getElem?_drop]
  · rfl

theorem Valid.length_contents (hv : Valid h s) : (contents h s).length = s.len := by
  have := hv.len_le
  have := hv.fits
  rw [contents, List.length_take, List.length_drop]
  omega

theorem valid_nil (h : Heap α) : Valid h Slice.nil := ⟨le_refl 0, Nat.zero_le _⟩

@[simp] theorem contents_nil (h : Heap α) : contents h Slice.nil = [] := rfl

theorem contents_front (h : Heap α) (hn : n ≤ s.len) :
    contents h (s.front n) = (contents h s).take n := by
  show ((array h s.arr).drop s.off).take n = _
  rw [contents, List.take_take, min_eq_left hn]

theorem contents_rest (h : Heap α) (s : Slice) (n : ℕ) :
    contents h (s.rest n) = (contents h s).drop n := by
  show ((array h s.arr).drop (s.off + n)).take (s.len - n) = _
  rw [contents, List.drop_take, List.drop_drop]

theorem front_append_rest (h : Heap α) (hn : n ≤ s.len) :
    contents h (s.front n) ++ contents h (s.rest n) = contents h s := by
  rw [contents_front h hn, contents_rest, List.take_append_drop]

theorem Valid.rest (hv : Valid h s) (hn : n ≤ s.len) : Valid h (s.rest n) := by
  have := hv.len_le
  have := hv.fits
  exact ⟨show s.len - n ≤ s.cap - n by omega,
    show s.off + n + (s.cap - n) ≤ (array h s.arr).length by omega⟩

theorem Slice.rest_rest (s : Slice) (n k : ℕ) : (s.rest n).rest k = s.rest (n + k) := by
  simp only [Slice.rest, Nat.add_assoc, Nat.sub_sub]

/-- A new array changes no slice. -/
theorem alloc_frame (ht : Valid h t) (xs : List α) :
    Valid (h ++ [xs]) t ∧ contents (h ++ [xs]) t = contents h t := by
  have hlen := ht.len_le
  have hfits := ht.fits
  by_cases heq : t.arr = h.length
  · -- a slice that is not on the heap is empty
    rw [array_of_le heq.ge, List.length_nil] at hfits
    refine ⟨⟨hlen, by omega⟩, ?_⟩
    have hzero : t.len = 0 := by omega
    rw [contents, contents, hzero, List.take_zero, List.take_zero]
  · have harr := array_append h xs t.arr
    rw [if_neg heq] at harr
    rw [contents, contents, harr]
    exact ⟨⟨hlen, by rw [harr]; exact hfits⟩, rfl⟩

/-! ### Windows of one array -/

theorem Apart.symm (hap : Apart s t) : Apart t s := by
  unfold Apart at *
  tauto

theorem apart_nil (s : Slice) : Apart s Slice.nil := .inr (.inr (.inl rfl))

theorem Apart.rest (hap : Apart s t) (n : ℕ) (hn : n ≤ s.cap) : Apart (s.rest n) t := by
  unfold Apart at *
  simp only [Slice.rest]
  omega

/-- The next element to read comes before the rest of them is written. -/
theorem clear_of_not_straddles (hst : ¬ Straddles s t) (hroom : s.len + 1 ≤ s.cap) :
    Clear s 1 (t.rest 1) := by
  unfold Straddles at hst
  unfold Clear
  simp only [Slice.rest]
  omega

theorem Apart.clear (hap : Apart s t) (ht : Valid h t) (hroom : s.len + n ≤ s.cap) :
    Clear s n t := by
  have := ht.len_le
  unfold Apart at hap
  unfold Clear
  omega

/-! ### Appending -/

section Append

variable (g : Growth) (zero : α)

/-- The arrays after an append in place. -/
theorem array_append_in_place (hv : Valid h s) (hroom : s.len + ys.length ≤ s.cap) (b : ℕ) :
    array (append g zero h s ys).1 b =
      if b = s.arr then overwrite (array h b) (s.off + s.len) ys else array h b := by
  rw [append, if_pos hroom, array_set]
  by_cases hb : b = s.arr
  · rw [hb, if_pos rfl]
    by_cases hlt : s.arr < h.length
    · rw [if_pos ⟨rfl, hlt⟩]
    · -- without an array there is nothing to write
      have hnone := array_of_le (not_lt.mp hlt)
      have hfits := hv.fits
      rw [hnone, List.length_nil] at hfits
      have hys : ys = [] := List.eq_nil_of_length_eq_zero (by omega)
      rw [if_neg (fun hand => hlt hand.2), hnone, hys]
      simp [overwrite]
  · rw [if_neg hb, if_neg (fun hand => hb hand.1.symm)]

theorem append_slice_in_place (hroom : s.len + ys.length ≤ s.cap) :
    (append g zero h s ys).2 = { s with len := s.len + ys.length } := by
  rw [append, if_pos hroom]

theorem append_slice_copied (hroom : ¬ s.len + ys.length ≤ s.cap) :
    (append g zero h s ys).2 =
      ⟨h.length, 0, s.len + ys.length, g.cap s.cap (s.len + ys.length)⟩ := by
  rw [append, if_neg hroom]

/-- **The appended slice.** -/
theorem append_contents (hv : Valid h s) (ys : List α) :
    Valid (append g zero h s ys).1 (append g zero h s ys).2 ∧
      contents (append g zero h s ys).1 (append g zero h s ys).2 = contents h s ++ ys := by
  have hlen := hv.length_contents
  by_cases hroom : s.len + ys.length ≤ s.cap
  · have hfits := hv.fits
    have harr := array_append_in_place g zero hv hroom s.arr
    rw [if_pos rfl] at harr
    have hfit : s.off + s.len + ys.length ≤ (array h s.arr).length := by omega
    rw [append_slice_in_place g zero hroom]
    constructor
    · refine ⟨hroom, ?_⟩
      show s.off + s.cap ≤ (array _ s.arr).length
      rw [harr, overwrite_length hfit]
      exact hfits
    · apply List.ext_getElem?
      intro i
      rw [getElem?_contents]
      show (if i < s.len + ys.length then (array _ s.arr)[s.off + i]? else none) = _
      rw [harr, getElem?_overwrite hfit]
      rcases lt_or_ge i s.len with hlt | hge
      · rw [if_pos (by omega), if_neg (by omega), List.getElem?_append_left (by omega),
          getElem?_contents, if_pos hlt]
      · rw [List.getElem?_append_right (by omega), hlen]
        rcases lt_or_ge i (s.len + ys.length) with hin | hout
        · rw [if_pos hin, if_pos (by omega)]
          congr 1
          omega
        · rw [if_neg (by omega), List.getElem?_eq_none (by omega)]
  · have hcap := g.le_cap s.cap (s.len + ys.length)
    have harr : array (append g zero h s ys).1 h.length = contents h s ++ ys ++
        List.replicate (g.cap s.cap (s.len + ys.length) - (s.len + ys.length)) zero := by
      rw [append, if_neg hroom]
      exact (array_append h _ h.length).trans (if_pos rfl)
    rw [append_slice_copied g zero hroom]
    constructor
    · refine ⟨hcap, ?_⟩
      show 0 + g.cap s.cap (s.len + ys.length) ≤ (array _ h.length).length
      rw [harr, List.length_append, List.length_append, List.length_replicate, hlen]
      omega
    · show ((array _ h.length).drop 0).take (s.len + ys.length) = _
      rw [harr, List.drop_zero, List.take_append_of_le_length (by simp [hlen]),
        List.take_of_length_le (by simp [hlen])]

/-- **Other slices** whose windows are clear of the spare capacity stay as they are. -/
theorem append_frame (hs : Valid h s) (ht : Valid h t)
    (hclear : s.len + ys.length ≤ s.cap → Clear s ys.length t) :
    Valid (append g zero h s ys).1 t ∧
      contents (append g zero h s ys).1 t = contents h t := by
  by_cases hroom : s.len + ys.length ≤ s.cap
  · have hlen := ht.len_le
    have hfits := ht.fits
    have hapart := hclear hroom
    have harr := array_append_in_place g zero hs hroom t.arr
    have hfit : t.arr = s.arr → s.off + s.len + ys.length ≤ (array h t.arr).length := by
      intro heq
      have := hs.fits
      rw [heq]
      omega
    constructor
    · refine ⟨hlen, ?_⟩
      rw [harr]
      split_ifs with heq
      · rw [overwrite_length (hfit heq)]
        exact hfits
      · exact hfits
    · apply List.ext_getElem?
      intro i
      rw [getElem?_contents, getElem?_contents, harr]
      by_cases hi : i < t.len
      · rw [if_pos hi, if_pos hi]
        split_ifs with heq
        · rw [getElem?_overwrite (hfit heq), if_neg]
          unfold Clear at hapart
          omega
        · rfl
      · rw [if_neg hi, if_neg hi]
  · rw [append, if_neg hroom]
    exact alloc_frame ht _

/-- A slice that is copied lies in a new array. -/
theorem arr_ne_of_copied (ht : Valid h t) (hroom : ¬ s.len + ys.length ≤ s.cap) :
    (append g zero h s ys).2.arr ≠ t.arr ∨ t.cap = 0 := by
  rw [append_slice_copied g zero hroom]
  by_cases heq : h.length = t.arr
  · have hfits := ht.fits
    rw [array_of_le heq.le, List.length_nil] at hfits
    exact .inr (by omega)
  · exact .inl heq

theorem append_apart (ht : Valid h t) (hap : s.len + ys.length ≤ s.cap → Apart s t) :
    Apart (append g zero h s ys).2 t := by
  by_cases hroom : s.len + ys.length ≤ s.cap
  · rw [append_slice_in_place g zero hroom]
    exact hap hroom
  · rcases arr_ne_of_copied g zero ht hroom with hne | hzero
    · exact .inl hne
    · exact .inr (.inr (.inl hzero))

theorem append_not_straddles (ht : Valid h t) (hst : ¬ Straddles s t) (y : α) :
    ¬ Straddles (append g zero h s [y]).2 (t.rest 1) := by
  by_cases hroom : s.len + [y].length ≤ s.cap
  · rw [append_slice_in_place g zero hroom]
    unfold Straddles at *
    simp only [Slice.rest, List.length_singleton]
    omega
  · rintro ⟨harr, -, hlt, hend⟩
    rcases arr_ne_of_copied g zero ht hroom with hne | hzero
    · exact hne harr
    · have := ht.len_le
      simp only [Slice.rest] at hlt hend
      omega

end Append

end Aster.Lib.Slices
