import Mathlib.Data.Finmap
import Mathlib.Tactic

/-!
# Slices with signed indices, and loops

A slice is read and written at an `ℤ` index; an index that is negative or past the end is an
error.  `slice n c` has the values of `c`, so that a write is an update of `c`, and a loop that adds
to the values adds up (`foldlM_add`).  A loop over a map goes through the keys in an order that is
not determined: `assign` is given the order, and `lookup_assign` says that the result does not
depend on it.  A loop whose rounds can fail ends normally when an invariant keeps every round from
failing (`foldlM_some`).
-/

namespace Aster.Lib.Containers

section Slices

variable {α : Type*}

/-- The element at a signed index. -/
def index? (l : List α) (k : ℤ) : Option α := if 0 ≤ k then l[k.toNat]? else none

/-- Change the element at a signed index. -/
def modifyAt (f : α → α) (l : List α) (k : ℤ) : Option (List α) :=
  (index? l k).map fun x => l.set k.toNat (f x)

theorem index?_isSome_iff (l : List α) (k : ℤ) :
    (index? l k).isSome ↔ 0 ≤ k ∧ k < l.length := by
  unfold index?
  split_ifs with hk
  · rw [isSome_getElem?]
    omega
  · simp [hk]

theorem modifyAt_isSome_iff (f : α → α) (l : List α) (k : ℤ) :
    (modifyAt f l k).isSome ↔ 0 ≤ k ∧ k < l.length := by
  rw [modifyAt, Option.isSome_map, index?_isSome_iff]

theorem length_of_modifyAt {f : α → α} {l l' : List α} {k : ℤ} (h : modifyAt f l k = some l') :
    l'.length = l.length := by
  obtain ⟨x, -, rfl⟩ := Option.map_eq_some_iff.mp h
  exact List.length_set

theorem bounds_of_modifyAt {f : α → α} {l l' : List α} {k : ℤ} (h : modifyAt f l k = some l') :
    0 ≤ k ∧ k < l.length :=
  (modifyAt_isSome_iff f l k).mp (by rw [h]; rfl)

/-- Adding at an index adds to the sum. -/
theorem modifyAt_add {M : Type*} [AddCommGroup M] (x : M) {l : List M} {k : ℤ}
    (hk : 0 ≤ k ∧ k < l.length) :
    ∃ l', modifyAt (· + x) l k = some l' ∧ l'.length = l.length ∧ l'.sum = l.sum + x := by
  obtain ⟨l', hl'⟩ := Option.isSome_iff_exists.mp ((modifyAt_isSome_iff (· + x) l k).mpr hk)
  refine ⟨l', hl', length_of_modifyAt hl', ?_⟩
  have hlt : k.toNat < l.length := by omega
  obtain ⟨y, hy, rfl⟩ := Option.map_eq_some_iff.mp hl'
  rw [index?, if_pos hk.1, List.getElem?_eq_getElem hlt, Option.some.injEq] at hy
  rw [List.sum_set', dif_pos hlt, hy, neg_add_cancel_left]

/-- The slice of length `n` with the values of `c`. -/
def slice (n : ℕ) (c : ℤ → α) : List α := (List.range n).map fun k : ℕ => c k

theorem length_slice (n : ℕ) (c : ℤ → α) : (slice n c).length = n := by
  simp [slice]

theorem getElem?_slice {n k : ℕ} (c : ℤ → α) (hk : k < n) : (slice n c)[k]? = some (c k) := by
  simp [slice, hk]

theorem sum_slice {α : Type*} [AddCommMonoid α] (n : ℕ) (c : ℤ → α) :
    (slice n c).sum = ∑ k ∈ Finset.range n, c k := rfl

theorem index?_slice {n : ℕ} (c : ℤ → α) {k : ℤ} (hk : 0 ≤ k ∧ k < n) :
    index? (slice n c) k = some (c k) := by
  obtain ⟨j, rfl⟩ := Int.eq_ofNat_of_zero_le hk.1
  rw [index?, if_pos hk.1, Int.toNat_natCast, getElem?_slice c (by omega)]

theorem modifyAt_slice (f : α → α) {n : ℕ} (c : ℤ → α) {k : ℤ} (hk : 0 ≤ k ∧ k < n) :
    modifyAt f (slice n c) k = some (slice n (Function.update c k (f (c k)))) := by
  rw [modifyAt, index?_slice c hk, Option.map_some]
  obtain ⟨j, rfl⟩ := Int.eq_ofNat_of_zero_le hk.1
  rw [Int.toNat_natCast]
  congr 1
  refine List.ext_getElem? ?_
  intro i
  rw [List.getElem?_set, length_slice]
  by_cases hi : i < n
  · rw [getElem?_slice _ hi, getElem?_slice _ hi]
    by_cases hij : j = i
    · subst hij
      rw [if_pos rfl, if_pos hi, Function.update_self]
    · rw [if_neg hij, Function.update_of_ne (by omega)]
  · have hlen : (slice n c).length ≤ i := by rw [length_slice]; omega
    have hlen' : (slice n (Function.update c (j : ℤ) (f (c j)))).length ≤ i := by
      rw [length_slice]
      omega
    rw [List.getElem?_eq_none hlen, List.getElem?_eq_none hlen', if_neg (by omega)]

end Slices

section Loops

variable {S A : Type*} {f : S → A → Option S} {P : S → Prop} {l : List A}

/-- The loop ends, and the invariant holds. -/
theorem foldlM_some (hstep : ∀ s, P s → ∀ a ∈ l, ∃ s', f s a = some s' ∧ P s') {s : S}
    (hs : P s) : ∃ s', l.foldlM f s = some s' ∧ P s' := by
  induction l generalizing s with
  | nil => exact ⟨s, rfl, hs⟩
  | cons a l ih =>
    obtain ⟨s₁, h₁, hs₁⟩ := hstep s hs a List.mem_cons_self
    obtain ⟨s', h', hs'⟩ := ih (fun t ht b hb => hstep t ht b (List.mem_cons_of_mem a hb)) hs₁
    refine ⟨s', ?_, hs'⟩
    rw [List.foldlM_cons, h₁]
    exact h'

/-- The loop ends, and its rounds add up in what `total` reads off the state. -/
theorem foldlM_total {M : Type*} [AddMonoid M] (total : S → M) (d : A → M)
    (hstep : ∀ s, P s → ∀ a ∈ l, ∃ s', f s a = some s' ∧ P s' ∧ total s' = total s + d a) {s : S}
    (hs : P s) : ∃ s', l.foldlM f s = some s' ∧ P s' ∧ total s' = total s + (l.map d).sum := by
  induction l generalizing s with
  | nil => exact ⟨s, rfl, hs, by simp⟩
  | cons a l ih =>
    obtain ⟨s₁, h₁, hs₁, ht₁⟩ := hstep s hs a List.mem_cons_self
    obtain ⟨s', h', hs', ht'⟩ := ih (fun t ht b hb => hstep t ht b (List.mem_cons_of_mem a hb)) hs₁
    refine ⟨s', ?_, hs', ?_⟩
    · rw [List.foldlM_cons, h₁]
      exact h'
    · rw [ht', ht₁, List.map_cons, List.sum_cons, add_assoc]

/-- A loop that collects the results of its rounds. -/
theorem mapM_some {B : Type*} {g : A → Option B} {h : A → B} (hg : ∀ a ∈ l, g a = some (h a)) :
    l.mapM g = some (l.map h) := by
  induction l with
  | nil => rfl
  | cons a l ih =>
    rw [List.forall_mem_cons] at hg
    simp [hg.1, ih hg.2]

/-- The invariant holds if the loop ends. -/
theorem foldlM_keeps (hstep : ∀ s s', P s → ∀ a ∈ l, f s a = some s' → P s') {s s' : S}
    (hs : P s) (h : l.foldlM f s = some s') : P s' := by
  induction l generalizing s with
  | nil =>
    cases h
    exact hs
  | cons a l ih =>
    rw [List.foldlM_cons] at h
    obtain ⟨s₁, h₁, hrest⟩ := Option.bind_eq_some_iff.mp h
    exact ih (fun t t' ht b hb => hstep t t' ht b (List.mem_cons_of_mem a hb))
      (hstep s s₁ hs a List.mem_cons_self h₁) hrest

/-- A loop whose rounds add to a total. -/
theorem foldlM_add {M : Type*} [AddMonoid M] (total : M → S) (d : A → M)
    (hstep : ∀ m, ∀ a ∈ l, f (total m) a = some (total (m + d a))) (m : M) :
    l.foldlM f (total m) = some (total (m + (l.map d).sum)) := by
  induction l generalizing m with
  | nil =>
    rw [List.map_nil, List.sum_nil, add_zero]
    rfl
  | cons a l ih =>
    rw [List.foldlM_cons, hstep m a List.mem_cons_self]
    show l.foldlM f (total (m + d a)) = _
    rw [ih (fun m b hb => hstep m b (List.mem_cons_of_mem a hb)), List.map_cons, List.sum_cons,
      add_assoc]

end Loops

section Maps

variable {K V W : Type*} [DecidableEq K]

/-- The loop that writes `f` of every value of `m` into another map, with the keys of `m` in the
order of the iteration. -/
def assign (f : V → W) (m : Finmap fun _ : K => V) :
    List K → (Finmap fun _ : K => W) → Finmap fun _ : K => W
  | [], dst => dst
  | key :: keys, dst =>
    match m.lookup key with
    | some val => assign f m keys (dst.insert key (f val))
    | none => assign f m keys dst

/-- An entry after the loop. -/
theorem lookup_assign_of_mem (f : V → W) (m : Finmap fun _ : K => V) (keys : List K)
    (dst : Finmap fun _ : K => W) (k : K) :
    (assign f m keys dst).lookup k =
      if k ∈ keys then ((m.lookup k).map f).or (dst.lookup k) else dst.lookup k := by
  induction keys generalizing dst with
  | nil => rfl
  | cons key keys ih =>
    by_cases hkey : k = key
    · subst hkey
      rw [if_pos List.mem_cons_self, assign]
      cases hm : m.lookup k with
      | none =>
        show (assign f m keys dst).lookup k = _
        rw [ih, hm]
        exact ite_self _
      | some val =>
        show (assign f m keys (dst.insert k (f val))).lookup k = _
        rw [ih, hm, Finmap.lookup_insert]
        exact ite_self _
    · have hmem : k ∈ key :: keys ↔ k ∈ keys := by simp [hkey]
      simp only [hmem, assign]
      cases m.lookup key with
      | none => exact ih dst
      | some val =>
        show (assign f m keys (dst.insert key (f val))).lookup k = _
        rw [ih, Finmap.lookup_insert_of_ne _ hkey]

/-- **The loop in any order** that has all keys. -/
theorem lookup_assign (f : V → W) {m : Finmap fun _ : K => V} {keys : List K}
    (hkeys : keys.toFinset = m.keys) (dst : Finmap fun _ : K => W) (k : K) :
    (assign f m keys dst).lookup k = ((m.lookup k).map f).or (dst.lookup k) := by
  rw [lookup_assign_of_mem]
  split_ifs with hk
  · rfl
  · have hnot : k ∉ m := by rwa [← Finmap.mem_keys, ← hkeys, List.mem_toFinset]
    rw [Finmap.lookup_eq_none.mpr hnot]
    rfl

/-- Writing a map into another one. -/
theorem assign_id {m : Finmap fun _ : K => V} {keys : List K} (hkeys : keys.toFinset = m.keys)
    (dst : Finmap fun _ : K => V) : assign id m keys dst = m ∪ dst := by
  apply Finmap.ext_lookup
  intro k
  rw [lookup_assign id hkeys, Option.map_id]
  by_cases hk : k ∈ m
  · obtain ⟨v, hv⟩ := Finmap.mem_iff.mp hk
    rw [Finmap.lookup_union_left hk, hv]
    rfl
  · rw [Finmap.lookup_union_right hk, Finmap.lookup_eq_none.mpr hk]
    rfl

end Maps

end Aster.Lib.Containers
