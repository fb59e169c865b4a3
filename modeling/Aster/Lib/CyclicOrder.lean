import Mathlib.Order.Lattice
import Mathlib.Data.Finset.Max
import Mathlib.Data.Set.Insert
import Mathlib.Tactic

/-!
# Next and previous elements on a ring

`IsNext S k s` says that `s` is the first element of `S` from `k` on, where the order goes round
its end; `IsPrev` is the same backwards.  Two facts carry the use of a ring: from `k` or from the
next element after `k` one meets the same first element of any smaller set (`IsNext.subset`), and
a point whose next element is not `v` has the same next element without `v`
(`isNext_diff_iff`).

Over the integers from `0` to `M - 1`, the points whose next element is `v` are an arc that
begins after the element before `v` (`isNext_iff_arc`).
-/

namespace Aster.Lib.CyclicOrder

section General

variable {K : Type*} [LinearOrder K] {S T : Set K} {k s t v : K}

/-- The first element of `S` from `k` on, or else the least one. -/
def IsNext (S : Set K) (k s : K) : Prop :=
  s ∈ S ∧ ((k ≤ s ∧ ∀ x ∈ S, k ≤ x → s ≤ x) ∨ ((∀ x ∈ S, x < k) ∧ ∀ x ∈ S, s ≤ x))

/-- The last element of `S` up to `k`, or else the greatest one. -/
def IsPrev (S : Set K) (k s : K) : Prop :=
  s ∈ S ∧ ((s ≤ k ∧ ∀ x ∈ S, x ≤ k → x ≤ s) ∨ ((∀ x ∈ S, k < x) ∧ ∀ x ∈ S, x ≤ s))

theorem isNext_self (h : k ∈ S) : IsNext S k k := ⟨h, .inl ⟨le_rfl, fun _ _ hx => hx⟩⟩

theorem IsNext.unique (hs : IsNext S k s) (ht : IsNext S k t) : s = t := by
  rcases hs with ⟨hsS, ⟨hks, hsmin⟩ | ⟨hlt, hsmin⟩⟩ <;>
    rcases ht with ⟨htS, ⟨hkt, htmin⟩ | ⟨hlt', htmin⟩⟩
  · exact le_antisymm (hsmin t htS hkt) (htmin s hsS hks)
  · exact absurd (hlt' s hsS) (not_lt.mpr hks)
  · exact absurd (hlt t htS) (not_lt.mpr hkt)
  · exact le_antisymm (hsmin t htS) (htmin s hsS)

/-- **Going on.**  In a smaller set, the next element from `k` is the next one from the next
element after `k`. -/
theorem IsNext.subset (hTS : T ⊆ S) (hs : IsNext S k s) : IsNext T k t ↔ IsNext T s t := by
  rcases hs with ⟨hsS, ⟨hks, hmin⟩ | ⟨hlt, hmin⟩⟩
  · constructor
    · rintro ⟨htT, ⟨hkt, htmin⟩ | ⟨hall, htmin⟩⟩
      · exact ⟨htT, .inl ⟨hmin t (hTS htT) hkt, fun x hx hsx => htmin x hx (hks.trans hsx)⟩⟩
      · exact ⟨htT, .inr ⟨fun x hx => (hall x hx).trans_le hks, htmin⟩⟩
    · rintro ⟨htT, ⟨hst, htmin⟩ | ⟨hall, htmin⟩⟩
      · exact ⟨htT, .inl ⟨hks.trans hst, fun x hx hkx => htmin x hx (hmin x (hTS hx) hkx)⟩⟩
      · refine ⟨htT, .inr ⟨fun x hx => ?_, htmin⟩⟩
        by_contra hkx
        exact absurd (hall x hx) (not_lt.mpr (hmin x (hTS hx) (not_lt.mp hkx)))
  · constructor
    · rintro ⟨htT, ⟨hkt, -⟩ | ⟨-, htmin⟩⟩
      · exact absurd (hlt t (hTS htT)) (not_lt.mpr hkt)
      · exact ⟨htT, .inl ⟨hmin t (hTS htT), fun x hx _ => htmin x hx⟩⟩
    · rintro ⟨htT, ⟨-, htmin⟩ | ⟨hall, -⟩⟩
      · exact ⟨htT, .inr ⟨fun x hx => hlt x (hTS hx),
          fun x hx => htmin x hx (hmin x (hTS hx))⟩⟩
      · exact absurd (hall t htT) (not_lt.mpr (hmin t (hTS htT)))

/-- **One element less.**  It matters only to the points that it is next to. -/
theorem isNext_diff_iff (hv : ¬ IsNext S k v) : IsNext (S \ {v}) k s ↔ IsNext S k s := by
  constructor
  · rintro ⟨⟨hsS, hsv⟩, ⟨hks, hmin⟩ | ⟨hlt, hmin⟩⟩
    · refine ⟨hsS, .inl ⟨hks, fun x hx hkx => ?_⟩⟩
      by_cases hxv : x = v
      · subst hxv
        -- otherwise `x` itself would be next
        by_contra hsx
        refine hv ⟨hx, .inl ⟨hkx, fun y hy hky => ?_⟩⟩
        by_cases hyx : y = x
        · exact hyx.ge
        · exact (not_le.mp hsx).le.trans (hmin y ⟨hy, hyx⟩ hky)
      · exact hmin x ⟨hx, hxv⟩ hkx
    · refine ⟨hsS, .inr ⟨fun x hx => ?_, fun x hx => ?_⟩⟩
      · by_cases hxv : x = v
        · subst hxv
          by_contra hkx
          refine hv ⟨hx, .inl ⟨not_lt.mp hkx, fun y hy hky => ?_⟩⟩
          by_cases hyx : y = x
          · exact hyx.ge
          · exact absurd (hlt y ⟨hy, hyx⟩) (not_lt.mpr hky)
        · exact hlt x ⟨hx, hxv⟩
      · by_cases hxv : x = v
        · subst hxv
          by_contra hsx
          refine hv ⟨hx, .inr ⟨fun y hy => ?_, fun y hy => ?_⟩⟩
          · by_cases hyx : y = x
            · rw [hyx]
              exact (not_le.mp hsx).trans (hlt s ⟨hsS, hsv⟩)
            · exact hlt y ⟨hy, hyx⟩
          · by_cases hyx : y = x
            · exact hyx.ge
            · exact (not_le.mp hsx).le.trans (hmin y ⟨hy, hyx⟩)
        · exact hmin x ⟨hx, hxv⟩
  · intro hs
    have hsv : s ≠ v := by
      rintro rfl
      exact hv hs
    rcases hs with ⟨hsS, ⟨hks, hmin⟩ | ⟨hlt, hmin⟩⟩
    · exact ⟨⟨hsS, hsv⟩, .inl ⟨hks, fun x hx hkx => hmin x hx.1 hkx⟩⟩
    · exact ⟨⟨hsS, hsv⟩, .inr ⟨fun x hx => hlt x hx.1, fun x hx => hmin x hx.1⟩⟩

theorem exists_isPrev {T : Finset K} (hT : T.Nonempty) (k : K) :
    ∃ t, IsPrev (T : Set K) k t := by
  by_cases hlow : (T.filter (· ≤ k)).Nonempty
  · obtain ⟨t, ht, hmax⟩ := Finset.exists_max_image _ id hlow
    rw [Finset.mem_filter] at ht
    refine ⟨t, ht.1, .inl ⟨ht.2, fun x hx hxk => hmax x ?_⟩⟩
    exact Finset.mem_filter.mpr ⟨hx, hxk⟩
  · obtain ⟨t, ht, hmax⟩ := Finset.exists_max_image T id hT
    refine ⟨t, ht, .inr ⟨fun x hx => ?_, hmax⟩⟩
    by_contra hxk
    exact hlow ⟨x, Finset.mem_filter.mpr ⟨hx, not_lt.mp hxk⟩⟩

end General

/-! ### The integers below a bound -/

section Bounded

variable {M : ℤ} {S : Set ℤ} {d v last nxt t : ℤ}

/-- The point after `x` on the ring of `M` points. -/
def succ (M x : ℤ) : ℤ := if x = M - 1 then 0 else x + 1

/-- The point before `x` on the ring of `M` points. -/
def pred (M x : ℤ) : ℤ := if x = 0 then M - 1 else x - 1

/-- The points met on the way from `last`, which is left out, to `v`. -/
def OnArc (M last v d : ℤ) : Prop := 0 < (d - last) % M ∧ (d - last) % M ≤ (v - last) % M

theorem onArc_iff (hl₀ : 0 ≤ last) (hl : last < M) (hv₀ : 0 ≤ v) (hv : v < M) (hd₀ : 0 ≤ d)
    (hd : d < M) : OnArc M last v d ↔
      (last < v ∧ last < d ∧ d ≤ v) ∨ (v < last ∧ (d ≤ v ∨ last < d)) := by
  have hmod : ∀ x, 0 ≤ x → x < M →
      (x - last) % M = if last ≤ x then x - last else x - last + M := by
    intro x hx₀ hx
    split_ifs with hle
    · exact Int.emod_eq_of_lt (by omega) (by omega)
    · rw [← Int.add_emod_right]
      exact Int.emod_eq_of_lt (by omega) (by omega)
  rw [OnArc, hmod d hd₀ hd, hmod v hv₀ hv]
  split_ifs <;> omega

/-- From a point that is not in the set one can as well start at the point after it. -/
theorem isNext_succ_iff (hS : ∀ x ∈ S, 0 ≤ x ∧ x < M) (hv : v ∉ S) (hvM : v < M) :
    IsNext S (succ M v) t ↔ IsNext S v t := by
  have hne : ∀ x ∈ S, x ≠ v := by
    rintro x hx rfl
    exact hv hx
  rw [succ]
  split_ifs with hlast
  · -- at the last point the next one is the least
    constructor
    · rintro ⟨ht, ⟨-, hmin⟩ | ⟨hlt, -⟩⟩
      · refine ⟨ht, .inr ⟨fun x hx => ?_, fun x hx => hmin x hx (hS x hx).1⟩⟩
        have h1 := hS x hx
        have h2 := hne x hx
        omega
      · have h1 := hS t ht
        have h2 := hlt t ht
        omega
    · rintro ⟨ht, ⟨hle, -⟩ | ⟨-, hmin⟩⟩
      · have h1 := hS t ht
        have h2 := hne t ht
        omega
      · exact ⟨ht, .inl ⟨(hS t ht).1, fun x hx _ => hmin x hx⟩⟩
  · constructor
    · rintro ⟨ht, ⟨hle, hmin⟩ | ⟨hlt, hmin⟩⟩
      · refine ⟨ht, .inl ⟨by omega, fun x hx hvx => hmin x hx ?_⟩⟩
        have h1 := hne x hx
        omega
      · refine ⟨ht, .inr ⟨fun x hx => ?_, hmin⟩⟩
        have h1 := hne x hx
        have h2 := hlt x hx
        omega
    · rintro ⟨ht, ⟨hle, hmin⟩ | ⟨hlt, hmin⟩⟩
      · have h1 := hne t ht
        exact ⟨ht, .inl ⟨by omega, fun x hx hvx => hmin x hx (by omega)⟩⟩
      · exact ⟨ht, .inr ⟨fun x hx => (hlt x hx).trans (by omega), hmin⟩⟩

/-- **The arc of an element.**  The points whose next element is `v` come after the element
before `v`, going round the end when that one is greater; they are all points when `v` is
alone. -/
theorem isNext_iff_arc (hS : ∀ x ∈ S, 0 ≤ x ∧ x < M) (hv : v ∈ S)
    (hlast : IsPrev S (pred M v) last) :
    IsNext S d v ↔
      last = v ∨ (last < v ∧ last < d ∧ d ≤ v) ∨ (v < last ∧ (d ≤ v ∨ last < d)) := by
  have hvM := hS v hv
  obtain ⟨hl, hcases⟩ := hlast
  have hlM := hS last hl
  rcases lt_or_ge last v with hlt | hge
  · -- nothing lies between the two
    have hbetween : ∀ x ∈ S, x < v → x ≤ last := by
      intro x hx hxv
      rw [pred, if_neg (by omega)] at hcases
      rcases hcases with ⟨-, hmax⟩ | ⟨hgt, -⟩
      · exact hmax x hx (by omega)
      · have h1 := hgt last hl
        omega
    constructor
    · rintro ⟨-, ⟨hdv, hmin⟩ | ⟨-, hmin⟩⟩
      · refine .inr (.inl ⟨hlt, ?_, hdv⟩)
        by_contra hd
        have h1 := hmin last hl (by omega)
        omega
      · have h1 := hmin last hl
        omega
    · rintro (h | ⟨-, h1, h2⟩ | ⟨h, -⟩)
      · omega
      · refine ⟨hv, .inl ⟨h2, fun x hx hdx => ?_⟩⟩
        by_contra hxv
        have h3 := hbetween x hx (by omega)
        omega
      · omega
  · -- `v` is the least element and `last` the greatest
    have hends : ∀ x ∈ S, v ≤ x ∧ x ≤ last := by
      intro x hx
      have hxM := hS x hx
      by_cases h0 : v = 0
      · rw [pred, if_pos h0] at hcases
        rcases hcases with ⟨-, hmax⟩ | ⟨hgt, -⟩
        · exact ⟨by omega, hmax x hx (by omega)⟩
        · have h1 := hgt x hx
          omega
      · rw [pred, if_neg h0] at hcases
        rcases hcases with ⟨hle, -⟩ | ⟨hgt, hmax⟩
        · omega
        · have h1 := hgt x hx
          exact ⟨by omega, hmax x hx⟩
    constructor
    · rintro ⟨-, ⟨hdv, -⟩ | ⟨hall, -⟩⟩
      · omega
      · have h1 := hall last hl
        omega
    · intro h
      rcases le_or_gt d v with hdv | hvd
      · exact ⟨hv, .inl ⟨hdv, fun x hx _ => (hends x hx).1⟩⟩
      · refine ⟨hv, .inr ⟨fun x hx => ?_, fun x hx => (hends x hx).1⟩⟩
        have h1 := hends x hx
        omega

/-- When the element before `v` is greater, the one after it is greater too. -/
theorem lt_of_isPrev_of_isNext (hS : ∀ x ∈ S, 0 ≤ x ∧ x < M) (hv : v ∈ S)
    (hlast : IsPrev S (pred M v) last) (hlt : v < last) (hn : nxt ∈ S) : v ≤ nxt := by
  by_contra hnv
  have hnext : IsNext S nxt v := (isNext_iff_arc hS hv hlast).mpr (by omega)
  exact hnv (hnext.unique (isNext_self hn)).le

/-- When `v` is not alone, the element after it is another one. -/
theorem ne_of_isNext_succ (hS : ∀ x ∈ S, 0 ≤ x ∧ x < M) (ht : t ∈ S) (htv : t ≠ v)
    (hn : IsNext S (succ M v) nxt) : nxt ≠ v := by
  rintro rfl
  apply htv
  have htM := hS t ht
  obtain ⟨hv, hcases⟩ := hn
  have hvM := hS nxt hv
  rw [succ] at hcases
  split_ifs at hcases with hlast
  · rcases hcases with ⟨-, hmin⟩ | ⟨hall, -⟩
    · have h1 := hmin t ht htM.1
      omega
    · have h1 := hall t ht
      omega
  · rcases hcases with ⟨hle, -⟩ | ⟨hall, hmin⟩
    · omega
    · have h1 := hall t ht
      have h2 := hmin t ht
      omega

/-- Without `v`, its arc falls to the element after it. -/
theorem IsNext.diff (hS : ∀ x ∈ S, 0 ≤ x ∧ x < M) (hd : IsNext S d v)
    (hn : IsNext S (succ M v) nxt) (hne : nxt ≠ v) : IsNext (S \ {v}) d nxt := by
  have hsub : S \ {v} ⊆ S := fun x hx => hx.1
  rw [hd.subset hsub, ← isNext_succ_iff (fun x hx => hS x hx.1) (fun hx => hx.2 rfl)
    (hS v hd.1).2, isNext_diff_iff fun hself => hne (hn.unique hself)]
  exact hn

/-- **Going round.**  Elements among which one finds the next element of each are all
elements. -/
theorem mem_of_closed (hS : ∀ x ∈ S, 0 ≤ x ∧ x < M) {T : Finset ℤ} (hT : T.Nonempty)
    (hTS : ∀ x ∈ T, x ∈ S) (hclosed : ∀ x ∈ T, ∃ y ∈ T, IsNext S (succ M x) y) {w : ℤ}
    (hw : w ∈ S) : w ∈ T := by
  -- otherwise the next element after the last one before `w` would be past `w`
  by_contra hwT
  have hne : ∀ x ∈ T, x ≠ w := by
    rintro x hx rfl
    exact hwT hx
  obtain ⟨t, ht, hprev⟩ := exists_isPrev hT w
  obtain ⟨y, hy, -, hnext⟩ := hclosed t ht
  have hwM := hS w hw
  have hyM := hS y (hTS y hy)
  have hyw := hne y hy
  have htM := hS t (hTS t ht)
  have htw := hne t ht
  rw [succ] at hnext
  rcases hprev with ⟨hle, hmax⟩ | ⟨hall, hmax⟩
  · rw [if_neg (by omega)] at hnext
    rcases hnext with ⟨hty, hmin⟩ | ⟨hlt, -⟩
    · have h1 := hmin w hw (by omega)
      have h2 := hmax y hy (by omega)
      omega
    · have h1 := hlt w hw
      omega
  · have h1 := hall y hy
    have h2 := hmax y hy
    split_ifs at hnext with hlast
    · rcases hnext with ⟨-, hmin⟩ | ⟨hlt, -⟩
      · have h3 := hmin w hw hwM.1
        omega
      · have h3 := hlt w hw
        omega
    · rcases hnext with ⟨hty, -⟩ | ⟨-, hmin⟩
      · omega
      · have h3 := hmin w hw
        omega

end Bounded

end Aster.Lib.CyclicOrder
