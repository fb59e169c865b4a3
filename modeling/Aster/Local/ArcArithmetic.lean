import Aster.Local.RingOwner

/-!
# The score arithmetic of migrations

`migrateIn` and `migrateOut` test whether a data key lies on the arc of a virtual node.  They move
scores by `math.MaxInt32` in `int32` arithmetic.  `gainedChecked` and `lostChecked` are the same
tests where every operation that leaves the range of `int32` is an error.

* `gained_of_checked`, `lost_of_checked`: without an error the wrapping test agrees;
* **`arc_selected`**: there is no error, and the tests select the arc.
-/

namespace Aster.Local

open Aster.Lib.CyclicOrder ConsistentHash

theorem int32_emod_maxInt32 (x : ℕ) :
    0 ≤ int32 (x % maxInt32) ∧ int32 (x % maxInt32) < maxInt32 := by
  have h₀ := Int.emod_nonneg x (by decide : maxInt32 ≠ 0)
  have hlt := Int.emod_lt_of_pos x (by decide : 0 < maxInt32)
  rw [maxInt32] at *
  rw [int32_eq (by omega) (by omega)]
  exact ⟨h₀, hlt⟩

/-- `MurmurHasher.Encrypt`, over the function `Sum32` of the hash. -/
def murmurHasher (sum32 : String → UInt32) : Encryptor where
  encrypt origin := int32 ((sum32 origin).toNat % maxInt32)
  nonneg origin := (int32_emod_maxInt32 (sum32 origin).toNat).1
  lt origin := (int32_emod_maxInt32 (sum32 origin).toNat).2

/-- The result of an operation on `int32`, if it is in the range. -/
def checked (x : ℤ) : Option ℤ := if -2 ^ 31 ≤ x ∧ x < 2 ^ 31 then some x else none

theorem checked_eq {x : ℤ} (h₁ : -2 ^ 31 ≤ x) (h₂ : x < 2 ^ 31) : checked x = some x :=
  if_pos ⟨h₁, h₂⟩

theorem int32_of_checked {x y : ℤ} (h : checked x = some y) : int32 x = y := by
  rw [checked] at h
  split_ifs at h with hx
  cases h
  exact int32_eq hx.1 hx.2

/-- A score moved by `math.MaxInt32` if a pattern holds. -/
def shiftChecked (pattern : Bool) (score : ℤ) : Option ℤ :=
  if pattern then checked (score - maxInt32) else some score

/-- The score of a data key moved if it is past the last score, which was moved before. -/
def dataShiftChecked (pattern : Bool) (lastScore dataScore : ℤ) : Option ℤ :=
  if pattern then do
    let bound ← checked (lastScore + maxInt32)
    shiftChecked (bound < dataScore) dataScore
  else some dataScore

/-- `gained` with checked operations. -/
def gainedChecked (lastScore virtualScore nextScore dataScore : ℤ) : Option Bool := do
  let patternOne : Bool := virtualScore < lastScore
  let patternTwo : Bool := nextScore < virtualScore
  let lastScore ← shiftChecked patternOne lastScore
  let virtualScore ← shiftChecked patternTwo virtualScore
  let lastScore ← shiftChecked patternTwo lastScore
  let dataScore ← dataShiftChecked patternOne lastScore dataScore
  let dataScore ← shiftChecked patternTwo dataScore
  some !(dataScore ≤ lastScore || virtualScore < dataScore)

/-- `lost` with checked operations. -/
def lostChecked (lastScore virtualScore dataScore : ℤ) : Option Bool := do
  let pattern : Bool := virtualScore < lastScore
  let lastScore ← shiftChecked pattern lastScore
  let dataScore ← dataShiftChecked pattern lastScore dataScore
  some !(dataScore ≤ lastScore || virtualScore < dataScore)

theorem shift_of_checked {pattern : Bool} {x y : ℤ} (h : shiftChecked pattern x = some y) :
    (if pattern = true then int32 (x - maxInt32) else x) = y := by
  rw [shiftChecked] at h
  split_ifs at h ⊢ with hp
  · exact int32_of_checked h
  · exact Option.some.inj h

theorem dataShift_of_checked {pattern : Bool} {lastScore x y : ℤ}
    (h : dataShiftChecked pattern lastScore x = some y) :
    (if pattern = true ∧ int32 (lastScore + maxInt32) < x then int32 (x - maxInt32) else x) =
      y := by
  cases pattern with
  | false => simpa [dataShiftChecked] using h
  | true =>
    rw [dataShiftChecked, if_pos rfl] at h
    obtain ⟨bound, hbound, hx⟩ := Option.bind_eq_some_iff.mp h
    rw [int32_of_checked hbound]
    simpa using shift_of_checked hx

/-- Without an overflow the wrapping test agrees. -/
theorem gained_of_checked {lastScore virtualScore nextScore dataScore : ℤ} {b : Bool}
    (h : gainedChecked lastScore virtualScore nextScore dataScore = some b) :
    gained lastScore virtualScore nextScore dataScore = b := by
  unfold gainedChecked at h
  obtain ⟨last₁, h₁, h⟩ := Option.bind_eq_some_iff.mp h
  obtain ⟨virtual, h₂, h⟩ := Option.bind_eq_some_iff.mp h
  obtain ⟨last₂, h₃, h⟩ := Option.bind_eq_some_iff.mp h
  obtain ⟨data₁, h₄, h⟩ := Option.bind_eq_some_iff.mp h
  obtain ⟨data₂, h₅, h⟩ := Option.bind_eq_some_iff.mp h
  rw [gained]
  simp only [shift_of_checked h₁, shift_of_checked h₂, shift_of_checked h₃,
    dataShift_of_checked h₄, shift_of_checked h₅]
  exact Option.some.inj h

theorem lost_of_checked {lastScore virtualScore dataScore : ℤ} {b : Bool}
    (h : lostChecked lastScore virtualScore dataScore = some b) :
    lost lastScore virtualScore dataScore = b := by
  unfold lostChecked at h
  obtain ⟨last, h₁, h⟩ := Option.bind_eq_some_iff.mp h
  obtain ⟨data, h₂, h⟩ := Option.bind_eq_some_iff.mp h
  rw [lost]
  simp only [shift_of_checked h₁, dataShift_of_checked h₂]
  exact Option.some.inj h

/-! ### No overflow -/

/-- One move of a score is in the range. -/
theorem shiftChecked_eq (pattern : Bool) {x : ℤ} (h₀ : 0 ≤ x) (h : x < maxInt32) :
    shiftChecked pattern x = some (if pattern then x - maxInt32 else x) := by
  rw [maxInt32] at h
  rw [shiftChecked]
  split_ifs with hp
  · exact checked_eq (by rw [maxInt32]; omega) (by rw [maxInt32]; omega)
  · rfl

/-- The last score is moved there and back. -/
theorem dataShiftChecked_isSome (pattern : Bool) {lastScore x : ℤ} (hl₀ : 0 ≤ lastScore)
    (hl : lastScore < maxInt32) (h₀ : 0 ≤ x) (h : x < maxInt32) :
    (dataShiftChecked pattern (if pattern then lastScore - maxInt32 else lastScore) x).isSome := by
  cases pattern with
  | false => rfl
  | true =>
    have hbound : checked lastScore = some lastScore := by
      rw [maxInt32] at hl
      exact checked_eq (by omega) (by omega)
    simp [dataShiftChecked, hbound, shiftChecked_eq _ h₀ h]

theorem lostChecked_isSome {lastScore dataScore : ℤ} (virtualScore : ℤ) (hl₀ : 0 ≤ lastScore)
    (hl : lastScore < maxInt32) (hd₀ : 0 ≤ dataScore) (hd : dataScore < maxInt32) :
    (lostChecked lastScore virtualScore dataScore).isSome := by
  obtain ⟨data, hdata⟩ := Option.isSome_iff_exists.mp
    (dataShiftChecked_isSome (virtualScore < lastScore) hl₀ hl hd₀ hd)
  simp only [lostChecked, shiftChecked_eq _ hl₀ hl, Option.bind_eq_bind, Option.bind_some, hdata,
    Option.isSome_some]

theorem gainedChecked_isSome {lastScore virtualScore nextScore dataScore : ℤ}
    (hl₀ : 0 ≤ lastScore) (hl : lastScore < maxInt32) (hv₀ : 0 ≤ virtualScore)
    (hv : virtualScore < maxInt32) (hd₀ : 0 ≤ dataScore) (hd : dataScore < maxInt32)
    (hnext : virtualScore < lastScore → virtualScore ≤ nextScore) :
    (gainedChecked lastScore virtualScore nextScore dataScore).isSome := by
  by_cases htwo : nextScore < virtualScore
  · -- then the last score is not past the end, and each score is moved once
    have hp : ¬virtualScore < lastScore := fun h => absurd (hnext h) (not_le.mpr htwo)
    simp [gainedChecked, hp, htwo, dataShiftChecked, shiftChecked_eq _ hl₀ hl,
      shiftChecked_eq _ hv₀ hv, shiftChecked_eq _ hd₀ hd]
  · -- the same operations as in `lostChecked`
    have hlost := lostChecked_isSome virtualScore hl₀ hl hd₀ hd
    simpa [gainedChecked, lostChecked, htwo, shiftChecked] using hlost

/-- **The score arithmetic of migrations.**  With the scores before and after a virtual node on the
ring, no operation of `migrateIn` and `migrateOut` overflows, and both
select the data keys on the arc from the score before to that of the virtual node. -/
theorem arc_selected {S : Set ℤ} {last cur next d : ℤ}
    (hS : ∀ x ∈ S, 0 ≤ x ∧ x < maxInt32) (hcur : cur ∈ S)
    (hlast : IsPrev S (pred maxInt32 cur) last)
    (hnext : IsNext S (succ maxInt32 cur) next) (hd₀ : 0 ≤ d) (hd : d < maxInt32) :
    gainedChecked last cur next d = some (gained last cur next d) ∧
      lostChecked last cur d = some (lost last cur d) ∧
      (gained last cur next d = true ↔ OnArc maxInt32 last cur d) ∧
      (lost last cur d = true ↔ OnArc maxInt32 last cur d) := by
  obtain ⟨hv₀, hv⟩ := hS cur hcur
  obtain ⟨hl₀, hl⟩ := hS last hlast.1
  have hpast : cur < last → cur ≤ next :=
    fun hlt => lt_of_isPrev_of_isNext hS hcur hlast hlt hnext.1
  have harc := onArc_iff hl₀ hl hv₀ hv hd₀ hd
  refine ⟨?_, ?_, ?_, ?_⟩
  · obtain ⟨b, hb⟩ := Option.isSome_iff_exists.mp
      (gainedChecked_isSome hl₀ hl hv₀ hv hd₀ hd hpast)
    rw [hb, gained_of_checked hb]
  · obtain ⟨b, hb⟩ := Option.isSome_iff_exists.mp
      (lostChecked_isSome cur hl₀ hl hd₀ hd)
    rw [hb, lost_of_checked hb]
  · rw [gained_iff hl₀ hl hv₀ hv hd₀ hd hpast, harc]
  · rw [lost_iff hl₀ hl hv₀ hv hd₀ hd, harc]

/-- Past the end of the ring: the scores `1` and `2147483640`, and a data key in between. -/
theorem arc_selected_two :
    (gainedChecked 2147483640 1 2147483640 2147483646 = some true ∧
      lostChecked 2147483640 1 2147483646 = some true) ∧
    OnArc maxInt32 2147483640 1 2147483646 := by
  have hprev : IsPrev ({1, 2147483640} : Set ℤ) (pred maxInt32 1) 2147483640 := by
    refine ⟨by simp, .inr ⟨?_, ?_⟩⟩ <;> simp [pred]
  have hnext : IsNext ({1, 2147483640} : Set ℤ) (succ maxInt32 1) 2147483640 := by
    refine ⟨by simp, .inl ⟨?_, ?_⟩⟩ <;> simp [succ, maxInt32]
  have h := arc_selected (d := 2147483646) (by simp [maxInt32]) (by simp) hprev hnext
    (by norm_num) (by norm_num [maxInt32])
  have hgain : gained 2147483640 1 2147483640 2147483646 = true := by decide +kernel
  have hlost : lost 2147483640 1 2147483646 = true := by decide +kernel
  rw [hgain, hlost] at h
  exact ⟨⟨h.1, h.2.1⟩, h.2.2.1.mp rfl⟩

end Aster.Local
