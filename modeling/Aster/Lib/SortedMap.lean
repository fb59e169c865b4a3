import Aster.Lib.CyclicOrder
import Mathlib.Data.List.Basic
import Mathlib.Order.Basic
import Mathlib.Tactic

/-!
# Maps as sorted association lists

A finite map from a linear order is a list of entries with strictly ascending keys.  Cutting the
list at a key (`exists_cut`) gives the entries below it and the entries from it on, and every
operation is read off such a cut: looking up, setting and erasing a key, and the nearest key on
either side.  `ceilingWrap` and `floorWrap` go round the ends, as on a ring.
-/

namespace Aster.Lib.SortedMap

open Aster.Lib.CyclicOrder

variable {K V α : Type*} [LinearOrder K]

/-- The keys are strictly ascending. -/
def Ascending (m : List (K × V)) : Prop := m.Pairwise fun a b => a.1 < b.1

/-- The value of a key. -/
def lookup (m : List (K × V)) (k : K) : Option V :=
  (m.find? fun e => decide (e.1 = k)).map Prod.snd

/-- Set the value of a key. -/
def set (m : List (K × V)) (k : K) (v : V) : List (K × V) :=
  (m.filter fun e => decide (e.1 < k)) ++ (k, v) :: m.filter fun e => decide (k < e.1)

/-- Remove a key. -/
def erase (m : List (K × V)) (k : K) : List (K × V) := m.filter fun e => decide (e.1 ≠ k)

/-- The least key that is not below `k`. -/
def ceiling? (m : List (K × V)) (k : K) : Option K :=
  (m.find? fun e => decide (k ≤ e.1)).map Prod.fst

/-- The greatest key that is not above `k`. -/
def floor? (m : List (K × V)) (k : K) : Option K :=
  ((m.filter fun e => decide (e.1 ≤ k)).getLast?).map Prod.fst

/-- The least key that is not below `k`, or else the least key. -/
def ceilingWrap (m : List (K × V)) (k : K) : Option K :=
  (ceiling? m k).or (m.head?.map Prod.fst)

/-- The greatest key that is not above `k`, or else the greatest key. -/
def floorWrap (m : List (K × V)) (k : K) : Option K :=
  (floor? m k).or (m.getLast?.map Prod.fst)

/-! ### Cuts -/

/-- A list with ascending keys splits at any key. -/
theorem exists_cut (key : α → K) {l : List α} (h : l.Pairwise fun x y => key x < key y) (k : K) :
    ∃ a b, l = a ++ b ∧ (∀ x ∈ a, key x < k) ∧ ∀ x ∈ b, k ≤ key x := by
  induction l with
  | nil => exact ⟨[], [], rfl, nofun, nofun⟩
  | cons x l ih =>
    rw [List.pairwise_cons] at h
    rcases lt_or_ge (key x) k with hx | hx
    · obtain ⟨a, b, rfl, ha, hb⟩ := ih h.2
      refine ⟨x :: a, b, rfl, ?_, hb⟩
      intro y hy
      rcases List.mem_cons.mp hy with rfl | hy
      · exact hx
      · exact ha y hy
    · refine ⟨[], x :: l, rfl, nofun, ?_⟩
      intro y hy
      rcases List.mem_cons.mp hy with rfl | hy
      · exact hx
      · exact hx.trans (h.1 y hy).le

section Cut

variable {a b : List (K × V)} {k : K} {v v' : V}

theorem filter_lt_cut (ha : ∀ e ∈ a, e.1 < k) (hb : ∀ e ∈ b, k ≤ e.1) :
    (a ++ b).filter (fun e => decide (e.1 < k)) = a := by
  rw [List.filter_append, List.filter_eq_self.mpr fun e he => decide_eq_true (ha e he),
    List.filter_eq_nil_iff.mpr fun e he => by simpa using hb e he, List.append_nil]

theorem filter_gt_cut (ha : ∀ e ∈ a, e.1 < k) (hb : ∀ e ∈ b, k < e.1) :
    (a ++ b).filter (fun e => decide (k < e.1)) = b := by
  rw [List.filter_append, List.filter_eq_nil_iff.mpr fun e he => by simpa using (ha e he).le,
    List.filter_eq_self.mpr fun e he => decide_eq_true (hb e he), List.nil_append]

theorem lookup_cut (ha : ∀ e ∈ a, e.1 < k) :
    lookup (a ++ (k, v) :: b) k = some v := by
  have hnone : a.find? (fun e => decide (e.1 = k)) = none := by
    rw [List.find?_eq_none]
    intro e he
    simpa using (ha e he).ne
  rw [lookup, List.find?_append, hnone]
  simp

theorem lookup_cut_none (ha : ∀ e ∈ a, e.1 < k) (hb : ∀ e ∈ b, k < e.1) :
    lookup (a ++ b) k = none := by
  rw [lookup, Option.map_eq_none_iff, List.find?_eq_none]
  intro e he
  rcases List.mem_append.mp he with he | he
  · simpa using (ha e he).ne
  · simpa using (hb e he).ne'

/-- Setting a new key puts its entry between the two parts. -/
theorem set_cut_new (ha : ∀ e ∈ a, e.1 < k) (hb : ∀ e ∈ b, k < e.1) :
    set (a ++ b) k v = a ++ (k, v) :: b := by
  rw [set, filter_lt_cut ha fun e he => (hb e he).le, filter_gt_cut ha hb]

/-- Setting an old key replaces its entry. -/
theorem set_cut_old (ha : ∀ e ∈ a, e.1 < k) (hb : ∀ e ∈ b, k < e.1) :
    set (a ++ (k, v') :: b) k v = a ++ (k, v) :: b := by
  have hb' : ∀ e ∈ (k, v') :: b, k ≤ e.1 := by
    intro e he
    rcases List.mem_cons.mp he with rfl | he
    · exact le_rfl
    · exact (hb e he).le
  rw [set, filter_lt_cut ha hb', List.filter_append,
    List.filter_eq_nil_iff.mpr fun e he => by simpa using (ha e he).le, List.nil_append,
    List.filter_cons_of_neg (by simp),
    List.filter_eq_self.mpr fun e he => decide_eq_true (hb e he)]

theorem erase_cut (ha : ∀ e ∈ a, e.1 < k) (hb : ∀ e ∈ b, k < e.1) :
    erase (a ++ (k, v) :: b) k = a ++ b := by
  rw [erase, List.filter_append,
    List.filter_eq_self.mpr fun e he => by simpa using (ha e he).ne,
    List.filter_cons_of_neg (by simp),
    List.filter_eq_self.mpr fun e he => by simpa using (hb e he).ne']

theorem ceiling?_cut (ha : ∀ e ∈ a, e.1 < k) (hb : ∀ e ∈ b, k ≤ e.1) :
    ceiling? (a ++ b) k = b.head?.map Prod.fst := by
  have hnone : a.find? (fun e => decide (k ≤ e.1)) = none := by
    rw [List.find?_eq_none]
    intro e he
    simpa using ha e he
  rw [ceiling?, List.find?_append, hnone, Option.none_or]
  cases b with
  | nil => rfl
  | cons e b =>
    rw [List.find?_cons_of_pos (by simpa using hb e List.mem_cons_self)]
    rfl

/-- Below the key and not on it, the floor is the last entry of the first part. -/
theorem floor?_cut_new (ha : ∀ e ∈ a, e.1 < k) (hb : ∀ e ∈ b, k < e.1) :
    floor? (a ++ b) k = a.getLast?.map Prod.fst := by
  rw [floor?, List.filter_append,
    List.filter_eq_self.mpr fun e he => decide_eq_true (ha e he).le,
    List.filter_eq_nil_iff.mpr fun e he => by simpa using hb e he, List.append_nil]

theorem floor?_cut_old (ha : ∀ e ∈ a, e.1 < k) (hb : ∀ e ∈ b, k < e.1) :
    floor? (a ++ (k, v) :: b) k = some k := by
  rw [floor?, List.filter_append,
    List.filter_eq_self.mpr fun e he => decide_eq_true (ha e he).le,
    List.filter_cons_of_pos (by simp),
    List.filter_eq_nil_iff.mpr fun e he => by simpa using hb e he]
  simp

end Cut

/-! ### Keys -/

section Keys

variable {m : List (K × V)} {k s : K} {v : V}

/-- The keys of the map. -/
def keys (m : List (K × V)) : Set K := {k | lookup m k ≠ none}

theorem mem_keys : k ∈ keys m ↔ ∃ e ∈ m, e.1 = k := by
  show (m.find? fun e => decide (e.1 = k)).map Prod.snd ≠ none ↔ _
  rw [ne_eq, Option.map_eq_none_iff, List.find?_eq_none]
  simp

theorem mem_keys_of_lookup (h : lookup m k = some v) : k ∈ keys m := by
  show lookup m k ≠ none
  rw [h]
  exact Option.some_ne_none v

theorem exists_lookup (h : k ∈ keys m) : ∃ v, lookup m k = some v :=
  Option.ne_none_iff_exists'.mp h

theorem Ascending.mem_iff (hm : Ascending m) : (k, v) ∈ m ↔ lookup m k = some v := by
  constructor
  · intro hmem
    obtain ⟨a, b, rfl⟩ := List.append_of_mem hmem
    exact lookup_cut fun e he => (List.pairwise_append.mp hm).2.2 e he (k, v) List.mem_cons_self
  · intro hl
    obtain ⟨e, he, rfl⟩ := Option.map_eq_some_iff.mp hl
    have hk := List.find?_some he
    rw [decide_eq_true_eq] at hk
    rw [← hk]
    exact List.mem_of_find?_eq_some he

/-- A sorted map is determined by its lookups. -/
theorem Ascending.ext (hm : Ascending m) {m' : List (K × V)} (hm' : Ascending m')
    (h : ∀ k, lookup m k = lookup m' k) : m = m' := by
  have hmem : ∀ e, e ∈ m ↔ e ∈ m' := by
    intro e
    rw [← Prod.mk.eta (p := e), hm.mem_iff, hm'.mem_iff, h]
  have hnd : ∀ {l : List (K × V)}, Ascending l → l.Nodup := fun hl =>
    hl.imp fun hlt he => absurd (congrArg Prod.fst he) hlt.ne
  have hperm := (List.perm_ext_iff_of_nodup (hnd hm) (hnd hm')).mpr hmem
  exact hperm.eq_of_pairwise (fun a b _ _ hab hba => absurd hab hba.asymm) hm hm'

theorem find?_filter_of_imp {f g : α → Bool} {l : List α} (h : ∀ x ∈ l, f x = true → g x = true) :
    (l.filter g).find? f = l.find? f := by
  induction l with
  | nil => rfl
  | cons x l ih =>
    have ih := ih fun y hy => h y (List.mem_cons_of_mem x hy)
    by_cases hf : f x = true
    · have hg := h x List.mem_cons_self hf
      rw [List.filter_cons_of_pos hg, List.find?_cons_of_pos hf, List.find?_cons_of_pos hf]
    · rw [List.find?_cons_of_neg hf]
      by_cases hg : g x = true
      · rw [List.filter_cons_of_pos hg, List.find?_cons_of_neg hf, ih]
      · rw [List.filter_cons_of_neg hg, ih]

theorem lookup_set (m : List (K × V)) (k s : K) (v : V) :
    lookup (set m k v) s = if s = k then some v else lookup m s := by
  rw [lookup, set, List.find?_append]
  rcases lt_trichotomy s k with hs | rfl | hs
  · have hlow : (m.filter fun e => decide (e.1 < k)).find? (fun e => decide (e.1 = s)) =
        m.find? fun e => decide (e.1 = s) :=
      find?_filter_of_imp fun e _ he => by
        rw [of_decide_eq_true he]
        exact decide_eq_true hs
    have hhigh : ((k, v) :: m.filter fun e => decide (k < e.1)).find?
        (fun e => decide (e.1 = s)) = none := by
      rw [List.find?_eq_none]
      intro e he
      rcases List.mem_cons.mp he with rfl | he
      · simpa using hs.ne'
      · have hgt := of_decide_eq_true (List.mem_filter.mp he).2
        simpa using (hs.trans hgt).ne'
    rw [hlow, hhigh, Option.or_none, if_neg hs.ne]
    rfl
  · have hlow : (m.filter fun e => decide (e.1 < s)).find? (fun e => decide (e.1 = s)) =
        none := by
      rw [List.find?_eq_none]
      intro e he
      have hlt := of_decide_eq_true (List.mem_filter.mp he).2
      simpa using hlt.ne
    rw [hlow, Option.none_or, List.find?_cons_of_pos (by simp), if_pos rfl]
    rfl
  · have hlow : (m.filter fun e => decide (e.1 < k)).find? (fun e => decide (e.1 = s)) =
        none := by
      rw [List.find?_eq_none]
      intro e he
      have hlt := of_decide_eq_true (List.mem_filter.mp he).2
      simpa using (hlt.trans hs).ne
    have hhigh : (m.filter fun e => decide (k < e.1)).find? (fun e => decide (e.1 = s)) =
        m.find? fun e => decide (e.1 = s) :=
      find?_filter_of_imp fun e _ he => by
        rw [of_decide_eq_true he]
        exact decide_eq_true hs
    rw [hlow, Option.none_or, List.find?_cons_of_neg (by simpa using hs.ne), hhigh,
      if_neg hs.ne']
    rfl

theorem lookup_erase (m : List (K × V)) (k s : K) :
    lookup (erase m k) s = if s = k then none else lookup m s := by
  rw [lookup, erase]
  split_ifs with hs
  · rw [Option.map_eq_none_iff, List.find?_eq_none]
    intro e he
    have hne := of_decide_eq_true (List.mem_filter.mp he).2
    rw [hs]
    simpa using hne
  · rw [find?_filter_of_imp fun e _ he => ?_]
    · rfl
    · rw [of_decide_eq_true he]
      exact decide_eq_true hs

/-- The wrapped ceiling is the next key on the ring. -/
theorem ceilingWrap_isNext (hm : Ascending m) (h : ceilingWrap m k = some s) :
    IsNext (keys m) k s := by
  obtain ⟨a, b, rfl, ha, hb⟩ := exists_cut Prod.fst hm k
  rw [ceilingWrap, ceiling?_cut ha hb] at h
  cases b with
  | cons e b =>
    obtain rfl : e.1 = s := Option.some.inj h
    have hasc := (List.pairwise_cons.mp (List.pairwise_append.mp hm).2.1).1
    refine ⟨mem_keys.mpr ⟨e, by simp, rfl⟩, .inl ⟨hb e List.mem_cons_self, ?_⟩⟩
    intro x hx hkx
    obtain ⟨e', he', rfl⟩ := mem_keys.mp hx
    rcases List.mem_append.mp he' with he' | he'
    · exact absurd (ha e' he') (not_lt.mpr hkx)
    · rcases List.mem_cons.mp he' with rfl | he'
      · exact le_rfl
      · exact (hasc e' he').le
  | nil =>
    rw [List.append_nil] at h hm ⊢
    cases a with
    | nil => cases h
    | cons e a =>
      obtain rfl : e.1 = s := Option.some.inj h
      have hasc := (List.pairwise_cons.mp hm).1
      refine ⟨mem_keys.mpr ⟨e, List.mem_cons_self, rfl⟩, .inr ⟨?_, ?_⟩⟩
      · intro x hx
        obtain ⟨e', he', rfl⟩ := mem_keys.mp hx
        exact ha e' he'
      · intro x hx
        obtain ⟨e', he', rfl⟩ := mem_keys.mp hx
        rcases List.mem_cons.mp he' with rfl | he'
        · exact le_rfl
        · exact (hasc e' he').le

theorem ceilingWrap_eq_none (h : ceilingWrap m k = none) : m = [] := by
  cases m with
  | nil => rfl
  | cons e m =>
    have hhead := (Option.or_eq_none_iff.mp h).2
    cases hhead

/-- The next key on the ring is the wrapped ceiling. -/
theorem ceilingWrap_eq_of_isNext (hm : Ascending m) (h : IsNext (keys m) k s) :
    ceilingWrap m k = some s := by
  cases hc : ceilingWrap m k with
  | none =>
    have hnil := ceilingWrap_eq_none hc
    obtain ⟨e, he, -⟩ := mem_keys.mp h.1
    rw [hnil] at he
    cases he
  | some t => rw [(ceilingWrap_isNext hm hc).unique h]

theorem le_getLast {a : List (K × V)} (ha : Ascending a) {e e' : K × V}
    (hl : a.getLast? = some e) (he' : e' ∈ a) : e'.1 ≤ e.1 := by
  obtain ⟨l, rfl⟩ := List.getLast?_eq_some_iff.mp hl
  rcases List.mem_append.mp he' with he' | he'
  · exact ((List.pairwise_append.mp ha).2.2 e' he' e (List.mem_singleton_self e)).le
  · rw [List.mem_singleton.mp he']

/-- The wrapped floor is the previous key on the ring. -/
theorem floorWrap_isPrev (hm : Ascending m) (h : floorWrap m k = some s) :
    IsPrev (keys m) k s := by
  set low := m.filter fun e => decide (e.1 ≤ k) with hlow
  have hlowAsc : Ascending low := List.Pairwise.sublist List.filter_sublist hm
  rw [floorWrap, floor?] at h
  cases hl : low.getLast? with
  | some e =>
    rw [hl] at h
    obtain rfl : e.1 = s := Option.some.inj h
    obtain ⟨hem, hek⟩ := List.mem_filter.mp (List.mem_of_getLast? hl)
    refine ⟨mem_keys.mpr ⟨e, hem, rfl⟩, .inl ⟨of_decide_eq_true hek, ?_⟩⟩
    intro x hx hxk
    obtain ⟨e', he', rfl⟩ := mem_keys.mp hx
    exact le_getLast hlowAsc hl (List.mem_filter.mpr ⟨he', decide_eq_true hxk⟩)
  | none =>
    rw [hl] at h
    have hnil : low = [] := List.getLast?_eq_none_iff.mp hl
    cases hlast : m.getLast? with
    | none =>
      rw [hlast] at h
      cases h
    | some e =>
      rw [hlast] at h
      obtain rfl : e.1 = s := Option.some.inj h
      refine ⟨mem_keys.mpr ⟨e, List.mem_of_getLast? hlast, rfl⟩, .inr ⟨?_, ?_⟩⟩
      · intro x hx
        obtain ⟨e', he', rfl⟩ := mem_keys.mp hx
        by_contra hle
        have hmem : e' ∈ low := List.mem_filter.mpr ⟨he', decide_eq_true (not_lt.mp hle)⟩
        rw [hnil] at hmem
        cases hmem
      · intro x hx
        obtain ⟨e', he', rfl⟩ := mem_keys.mp hx
        exact le_getLast hm hlast he'

theorem floorWrap_eq_none (h : floorWrap m k = none) : m = [] := by
  have hlast := (Option.or_eq_none_iff.mp h).2
  rw [Option.map_eq_none_iff] at hlast
  exact List.getLast?_eq_none_iff.mp hlast

end Keys

end Aster.Lib.SortedMap
