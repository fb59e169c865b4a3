import Mathlib.Data.List.Basic
import Mathlib.Tactic

/-!
# Streams in pieces, and their lines

A stream comes in pieces of any length, and a read returns one of them, or the front of it when
there is no room for more.  A buffered reader collects the pieces and hands out lines, each with
its delimiter.

* `lines`, `remainder`: the lines of a list, and what is left behind the last delimiter;
* `readUntil_of_mem`, `readUntil_of_not_mem`: one line, or the end of the stream;
* `readLines_eq`: the reader hands out the lines of the stream, however it is cut.
-/

namespace Aster.Lib.Streams

variable {α : Type*}

/-! ### Pieces -/

/-- A stream as the pieces in which it arrives.  There is something in each of them. -/
structure Pieces (α : Type*) where
  pieces : List (List α)
  nonempty : ∀ p ∈ pieces, p ≠ []

namespace Pieces

/-- The stream without its cuts. -/
def all (s : Pieces α) : List α := s.pieces.flatten

/-- One read into a slice of length `n`; `none` at the end of the stream.  The part of a piece for
which there is no room comes with the next read. -/
def read (n : ℕ) (s : Pieces α) : Option (List α × Pieces α) :=
  match s with
  | ⟨[], _⟩ => none
  | ⟨p :: ps, h⟩ =>
    if hn : p.length ≤ n then some (p, ⟨ps, fun q hq => h q (List.mem_cons_of_mem p hq)⟩)
    else some (p.take n, ⟨p.drop n :: ps, by
      intro q hq
      rcases List.mem_cons.mp hq with rfl | hq
      · rw [ne_eq, List.drop_eq_nil_iff]
        exact hn
      · exact h q (List.mem_cons_of_mem p hq)⟩)

theorem all_eq_of_read_eq_none {n : ℕ} {s : Pieces α} (h : s.read n = none) : s.all = [] := by
  obtain ⟨pieces, hne⟩ := s
  cases pieces with
  | nil => rfl
  | cons p ps =>
    rw [read] at h
    split_ifs at h

theorem read_eq_none_iff {n : ℕ} {s : Pieces α} : s.read n = none ↔ s.all = [] := by
  refine ⟨all_eq_of_read_eq_none, fun h => ?_⟩
  obtain ⟨pieces, hne⟩ := s
  cases pieces with
  | nil => rfl
  | cons p ps =>
    rw [all, List.flatten_cons, List.append_eq_nil_iff] at h
    exact absurd h.1 (hne p List.mem_cons_self)

/-- A read returns something, and no more than there is room for. -/
theorem of_read {n : ℕ} (hn : 0 < n) {s s' : Pieces α} {p : List α}
    (h : s.read n = some (p, s')) : p ≠ [] ∧ p.length ≤ n ∧ s.all = p ++ s'.all := by
  obtain ⟨pieces, hne⟩ := s
  cases pieces with
  | nil => cases h
  | cons q qs =>
    have hq := hne q List.mem_cons_self
    rw [read] at h
    split_ifs at h with hlen
    · cases h
      exact ⟨hq, hlen, rfl⟩
    · cases h
      refine ⟨?_, List.length_take_le n q, ?_⟩
      · rw [ne_eq, List.take_eq_nil_iff]
        rintro (h0 | hnil)
        · exact hn.ne' h0
        · exact hq hnil
      · show q ++ qs.flatten = q.take n ++ (q.drop n ++ qs.flatten)
        rw [← List.append_assoc, List.take_append_drop]

theorem length_of_read {n : ℕ} (hn : 0 < n) {s s' : Pieces α} {p : List α}
    (h : s.read n = some (p, s')) : s'.all.length < s.all.length := by
  obtain ⟨hp, -, hall⟩ := of_read hn h
  rw [hall, List.length_append]
  have := List.length_pos_iff.mpr hp
  omega

end Pieces

/-! ### Lines -/

variable [DecidableEq α] {d : α} {l r w xs ys : List α}

/-- The first line with its delimiter, and what comes after it. -/
def cutLine (d : α) : List α → Option (List α × List α)
  | [] => none
  | x :: xs => if x = d then some ([x], xs) else (cutLine d xs).map fun c => (x :: c.1, c.2)

theorem cutLine_append_of_not_mem (hw : d ∉ w) (ys : List α) :
    cutLine d (w ++ ys) = (cutLine d ys).map fun c => (w ++ c.1, c.2) := by
  induction w with
  | nil => simp
  | cons x w ih =>
    rw [List.mem_cons, not_or] at hw
    rw [List.cons_append, cutLine, if_neg (Ne.symm hw.1), ih hw.2, Option.map_map]
    rfl

theorem cutLine_eq_none_iff : cutLine d xs = none ↔ d ∉ xs := by
  induction xs with
  | nil => simp [cutLine]
  | cons x xs ih =>
    rw [cutLine]
    split_ifs with hx
    · simp [hx]
    · rw [Option.map_eq_none_iff, ih, List.mem_cons, not_or]
      exact ⟨fun h => ⟨Ne.symm hx, h⟩, fun h => h.2⟩

theorem cutLine_append_cons (hw : d ∉ w) : cutLine d (w ++ d :: ys) = some (w ++ [d], ys) := by
  rw [cutLine_append_of_not_mem hw, cutLine, if_pos rfl]
  rfl

theorem exists_of_cutLine (h : cutLine d xs = some (l, r)) :
    ∃ w, d ∉ w ∧ l = w ++ [d] ∧ xs = w ++ d :: r := by
  induction xs generalizing l with
  | nil => cases h
  | cons x xs ih =>
    rw [cutLine] at h
    split_ifs at h with hx
    · cases h
      exact ⟨[], List.not_mem_nil, by rw [hx]; rfl, by rw [hx]; rfl⟩
    · obtain ⟨⟨l', r'⟩, hc, he⟩ := Option.map_eq_some_iff.mp h
      cases he
      obtain ⟨w, hw, rfl, rfl⟩ := ih hc
      refine ⟨x :: w, ?_, rfl, rfl⟩
      rw [List.mem_cons, not_or]
      exact ⟨Ne.symm hx, hw⟩

theorem cutLine_append (h : cutLine d xs = some (l, r)) (ys : List α) :
    cutLine d (xs ++ ys) = some (l, r ++ ys) := by
  obtain ⟨w, hw, rfl, rfl⟩ := exists_of_cutLine h
  rw [List.append_assoc, List.cons_append, cutLine_append_cons hw]

theorem length_of_cutLine (h : cutLine d xs = some (l, r)) : r.length < xs.length := by
  obtain ⟨w, -, -, rfl⟩ := exists_of_cutLine h
  rw [List.length_append, List.length_cons]
  omega

/-- The lines, each with its delimiter. -/
def lines (d : α) : List α → List (List α)
  | [] => []
  | x :: xs =>
    if x = d then [x] :: lines d xs
    else
      match lines d xs with
      | [] => []
      | l :: ls => (x :: l) :: ls

/-- What is left behind the last delimiter. -/
def remainder (d : α) : List α → List α
  | [] => []
  | x :: xs => if d ∈ x :: xs then remainder d xs else x :: xs

theorem lines_of_not_mem (h : d ∉ xs) : lines d xs = [] := by
  induction xs with
  | nil => rfl
  | cons x xs ih =>
    rw [List.mem_cons, not_or] at h
    rw [lines, if_neg (Ne.symm h.1), ih h.2]

theorem remainder_of_not_mem (h : d ∉ xs) : remainder d xs = xs := by
  cases xs with
  | nil => rfl
  | cons x xs => rw [remainder, if_neg h]

theorem lines_append_cons (hw : d ∉ w) (ys : List α) :
    lines d (w ++ d :: ys) = (w ++ [d]) :: lines d ys := by
  induction w with
  | nil => rw [List.nil_append, lines, if_pos rfl, List.nil_append]
  | cons x w ih =>
    rw [List.mem_cons, not_or] at hw
    rw [List.cons_append, lines, if_neg (Ne.symm hw.1), ih hw.2]
    rfl

theorem lines_of_cutLine (h : cutLine d xs = some (l, r)) : lines d xs = l :: lines d r := by
  obtain ⟨w, hw, rfl, rfl⟩ := exists_of_cutLine h
  exact lines_append_cons hw r

theorem remainder_of_cutLine (h : cutLine d xs = some (l, r)) :
    remainder d xs = remainder d r := by
  obtain ⟨w, -, -, rfl⟩ := exists_of_cutLine h
  clear h
  induction w with
  | nil => rw [List.nil_append, remainder, if_pos List.mem_cons_self]
  | cons x w ih => rw [List.cons_append, remainder, if_pos (by simp), ih]

theorem lines_eq_nil_iff : lines d xs = [] ↔ d ∉ xs := by
  refine ⟨fun h => ?_, lines_of_not_mem⟩
  cases hc : cutLine d xs with
  | none => exact cutLine_eq_none_iff.mp hc
  | some c =>
    rw [lines_of_cutLine (l := c.1) (r := c.2) hc] at h
    cases h

/-- The lines of lists that were put together with delimiters. -/
theorem lines_flatten {ws : List (List α)} (h : ∀ w ∈ ws, d ∉ w) :
    lines d (ws.map fun w => w ++ [d]).flatten = ws.map fun w => w ++ [d] := by
  induction ws with
  | nil => rfl
  | cons w ws ih =>
    rw [List.map_cons, List.flatten_cons, List.append_assoc, List.singleton_append,
      lines_append_cons (h w List.mem_cons_self),
      ih fun v hv => h v (List.mem_cons_of_mem w hv)]

/-! ### A buffered reader -/

/-- What was read and not handed out yet, and the stream behind it. -/
structure Reader (α : Type*) where
  buffered : List α
  source : Pieces α

/-- Everything that is still to be handed out. -/
def Reader.rest (r : Reader α) : List α := r.buffered ++ r.source.all

/-- Read up to the first delimiter, behind `full`, which was read before.  The buffer has room for
`size` elements; when it is full, what it holds is moved behind `full`.  At the end of the stream
the answer is `false`, with what there was. -/
def readUntil (d : α) (size : ℕ) [NeZero size] (full : List α) (r : Reader α) :
    (List α × Bool) × Reader α :=
  match cutLine d r.buffered with
  | some (l, rest) => ((full ++ l, true), { r with buffered := rest })
  | none =>
    if size ≤ r.buffered.length then
      readUntil d size (full ++ r.buffered) { r with buffered := [] }
    else
      match _h : r.source.read (size - r.buffered.length) with
      | none => ((full ++ r.buffered, false), { r with buffered := [] })
      | some (p, source) => readUntil d size full ⟨r.buffered ++ p, source⟩
  termination_by (r.source.all.length, r.buffered.length)
  decreasing_by
  · have := NeZero.pos size
    exact Prod.Lex.right _ (by simp only [List.length_nil]; omega)
  · exact Prod.Lex.left _ _ (Pieces.length_of_read (by omega) _h)

section Reader

variable (size : ℕ) [NeZero size]

/-- A stream with a delimiter gives its first line. -/
theorem readUntil_of_mem (full : List α) {r : Reader α} (h : d ∈ r.rest) :
    ∃ l r', readUntil d size full r = ((full ++ l, true), r') ∧
      cutLine d r.rest = some (l, r'.rest) := by
  fun_induction readUntil d size full r with
  | case1 full r l rest hc => exact ⟨l, _, rfl, cutLine_append hc _⟩
  | case2 full r hc hfull ih =>
    have hnot := cutLine_eq_none_iff.mp hc
    obtain ⟨l, r', hrun, hcut⟩ := ih ((List.mem_append.mp h).resolve_left hnot)
    refine ⟨r.buffered ++ l, r', by rw [hrun, List.append_assoc], ?_⟩
    rw [Reader.rest, List.nil_append] at hcut
    rw [Reader.rest, cutLine_append_of_not_mem hnot, hcut]
    rfl
  | case3 full r hc hroom hread =>
    rw [Reader.rest, Pieces.all_eq_of_read_eq_none hread, List.append_nil] at h
    exact absurd h (cutLine_eq_none_iff.mp hc)
  | case4 full r hc hroom p source hread ih =>
    obtain ⟨-, -, hall⟩ := Pieces.of_read (by omega) hread
    have hrest : r.rest = Reader.rest ⟨r.buffered ++ p, source⟩ := by
      rw [Reader.rest, Reader.rest, hall, List.append_assoc]
    rw [hrest] at h ⊢
    exact ih h

/-- A stream without a delimiter is read to its end. -/
theorem readUntil_of_not_mem (full : List α) {r : Reader α} (h : d ∉ r.rest) :
    ∃ r', readUntil d size full r = ((full ++ r.rest, false), r') := by
  fun_induction readUntil d size full r with
  | case1 full r l rest hc =>
    obtain ⟨w, -, -, hxs⟩ := exists_of_cutLine hc
    refine absurd (List.mem_append_left _ ?_) h
    rw [hxs]
    exact List.mem_append_right w List.mem_cons_self
  | case2 full r hc hfull ih =>
    obtain ⟨r', hrun⟩ := ih fun hmem => h (List.mem_append_right _ hmem)
    exact ⟨r', by rw [hrun, List.append_assoc]; rfl⟩
  | case3 full r hc hroom hread =>
    refine ⟨{ r with buffered := [] }, ?_⟩
    rw [Reader.rest, Pieces.all_eq_of_read_eq_none hread, List.append_nil]
  | case4 full r hc hroom p source hread ih =>
    obtain ⟨-, -, hall⟩ := Pieces.of_read (by omega) hread
    have hrest : r.rest = Reader.rest ⟨r.buffered ++ p, source⟩ := by
      rw [Reader.rest, Reader.rest, hall, List.append_assoc]
    rw [hrest] at h ⊢
    exact ih h

/-- Read line after line, up to the end of the stream.  What comes behind the last delimiter is
dropped. -/
def readLines (d : α) (size : ℕ) [NeZero size] (r : Reader α) : List (List α) :=
  match _h : readUntil d size [] r with
  | ((_, false), _) => []
  | ((l, true), r') => l :: readLines d size r'
  termination_by r.rest.length
  decreasing_by
    by_cases hmem : d ∈ r.rest
    · obtain ⟨l', r'', hrun, hcut⟩ := readUntil_of_mem size [] hmem
      rw [_h] at hrun
      cases hrun
      exact length_of_cutLine hcut
    · obtain ⟨r'', hrun⟩ := readUntil_of_not_mem size [] hmem
      rw [_h] at hrun
      cases hrun

/-- **The reader hands out the lines of the stream**, however it is cut and whatever the size of
the buffer. -/
theorem readLines_eq (r : Reader α) : readLines d size r = lines d r.rest := by
  fun_induction readLines d size r with
  | case1 r l r' hrun =>
    refine (lines_of_not_mem fun hmem => ?_).symm
    obtain ⟨l', r'', hrun', -⟩ := readUntil_of_mem size [] hmem
    rw [hrun] at hrun'
    cases hrun'
  | case2 r l r' hrun ih =>
    by_cases hmem : d ∈ r.rest
    · obtain ⟨l', r'', hrun', hcut⟩ := readUntil_of_mem size [] hmem
      rw [hrun] at hrun'
      cases hrun'
      rw [ih, lines_of_cutLine hcut]
      rfl
    · obtain ⟨r'', hrun'⟩ := readUntil_of_not_mem size [] hmem
      rw [hrun] at hrun'
      cases hrun'

end Reader

end Aster.Lib.Streams
