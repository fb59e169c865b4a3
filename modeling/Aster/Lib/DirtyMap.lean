import Mathlib.Data.Finmap
import Mathlib.Tactic

/-!
# Maps that know whether they were changed

A finite map that is opened clean, written entry by entry and committed at the end.  Writing the
value that is already there leaves it as it is; any other write marks it, for good.  `commit`
refuses a map that is not empty and was not changed.

While the map is clean it is still the one that was opened (`Written.unchanged`).  So a loop
marks the map exactly when one of its rounds would mark the map it started from
(`dirty_foldlM_iff`), whatever the rounds before it do.
-/

namespace Aster.Lib

variable {K V : Type*} [DecidableEq K] [DecidableEq V]

structure DirtyMap (K V : Type*) where
  map : Finmap fun _ : K => V
  dirty : Bool

namespace DirtyMap

def opened (m : Finmap fun _ : K => V) : DirtyMap K V := ⟨m, false⟩

def update (t : DirtyMap K V) (k : K) (v : V) : DirtyMap K V :=
  ⟨t.map.insert k v, t.dirty || t.map.lookup k != some v⟩

def commit (t : DirtyMap K V) : Option (Finmap fun _ : K => V) :=
  if t.dirty then some t.map else if t.map = ∅ then some ∅ else none

variable {t t' : DirtyMap K V} {m : Finmap fun _ : K => V}

theorem update_dirty_iff (t : DirtyMap K V) (k : K) (v : V) :
    (t.update k v).dirty = true ↔ t.dirty = true ∨ t.map.lookup k ≠ some v := by
  simp [update]

/-- A write that does not mark the map changes nothing. -/
theorem update_eq_self {k : K} {v : V} (h : (t.update k v).dirty = false) : t.update k v = t := by
  have hclean : t.dirty = false ∧ t.map.lookup k = some v := by
    simpa [update] using h
  have hmap : t.map.insert k v = t.map := by
    apply Finmap.ext_lookup
    intro x
    by_cases hx : x = k
    · rw [hx, Finmap.lookup_insert, hclean.2]
    · rw [Finmap.lookup_insert_of_ne t.map hx]
  obtain ⟨map, dirty⟩ := t
  simp only [update, DirtyMap.mk.injEq] at h ⊢
  exact ⟨hmap, h.trans hclean.1.symm⟩

theorem commit_eq_some_iff : t.commit = some m ↔ m = t.map ∧ (t.dirty = true ∨ t.map = ∅) := by
  unfold commit
  split_ifs with hdirty hempty
  · simp only [Option.some.injEq, hdirty, true_or, and_true]
    exact eq_comm
  · simp only [Option.some.injEq, hempty, or_true, and_true]
    exact eq_comm
  · simp [hdirty, hempty]

theorem commit_isSome_iff : t.commit.isSome ↔ t.dirty = true ∨ t.map = ∅ := by
  constructor
  · intro h
    obtain ⟨m, hm⟩ := Option.isSome_iff_exists.mp h
    exact (commit_eq_some_iff.mp hm).2
  · intro h
    rw [commit_eq_some_iff.mpr ⟨rfl, h⟩]
    rfl

/-- `t'` comes from `t` by writing. -/
inductive Written : DirtyMap K V → DirtyMap K V → Prop
  | refl (t : DirtyMap K V) : Written t t
  | tail {t t' : DirtyMap K V} (k : K) (v : V) : Written t t' → Written t (t'.update k v)

namespace Written

theorem update (t : DirtyMap K V) (k : K) (v : V) : Written t (t.update k v) :=
  .tail k v (.refl t)

theorem trans {t'' : DirtyMap K V} (h : Written t t') (h' : Written t' t'') : Written t t'' := by
  induction h' with
  | refl => exact h
  | tail k v _ ih => exact .tail k v ih

/-- The mark is never taken back. -/
theorem dirty (h : Written t t') (ht : t.dirty = true) : t'.dirty = true := by
  induction h with
  | refl => exact ht
  | tail k v _ ih => exact (update_dirty_iff _ k v).mpr (.inl ih)

/-- **A map that is still clean is the one that was opened.** -/
theorem unchanged (h : Written t t') (ht : t'.dirty = false) : t' = t := by
  induction h with
  | refl => rfl
  | @tail t' k v _ ih =>
    have heq := update_eq_self ht
    rw [heq] at ht ⊢
    exact ih ht

/-- What was opened can be committed when it is empty or was changed. -/
theorem commit_isSome_iff (h : Written (opened m) t) :
    t.commit.isSome ↔ m = ∅ ∨ t.dirty = true := by
  rw [DirtyMap.commit_isSome_iff]
  cases hd : t.dirty with
  | true => simp
  | false =>
    rw [h.unchanged hd]
    simp [opened]

end Written

variable {α : Type*} {step : DirtyMap K V → α → Option (DirtyMap K V)}

theorem written_foldlM (hstep : ∀ t a t', step t a = some t' → Written t t') {as : List α}
    (h : as.foldlM step t = some t') : Written t t' := by
  induction as generalizing t with
  | nil =>
    rw [List.foldlM_nil] at h
    exact Option.some.inj h ▸ .refl t
  | cons a as ih =>
    rw [List.foldlM_cons] at h
    obtain ⟨t₁, h₁, hrest⟩ := Option.bind_eq_some_iff.mp h
    exact (hstep t a t₁ h₁).trans (ih hrest)

/-- **The loop rule.**  A loop that only writes marks a clean map exactly when one of its rounds
marks the map the loop started from. -/
theorem dirty_foldlM_iff (hstep : ∀ t a t', step t a = some t' → Written t t') {as : List α}
    (h : as.foldlM step (opened m) = some t') :
    t'.dirty = true ↔ ∃ a ∈ as, ∃ t, step (opened m) a = some t ∧ t.dirty = true := by
  induction as with
  | nil =>
    rw [List.foldlM_nil] at h
    cases h
    simp [opened]
  | cons a as ih =>
    rw [List.foldlM_cons] at h
    obtain ⟨t₁, h₁, hrest⟩ := Option.bind_eq_some_iff.mp h
    cases hdirty : t₁.dirty with
    | true =>
      have hend := (written_foldlM hstep hrest).dirty hdirty
      exact ⟨fun _ => ⟨a, List.mem_cons_self, t₁, h₁, hdirty⟩, fun _ => hend⟩
    | false =>
      have hsame := (hstep _ _ _ h₁).unchanged hdirty
      rw [hsame] at hrest
      rw [ih hrest]
      constructor
      · rintro ⟨b, hb, t, ht, hd⟩
        exact ⟨b, List.mem_cons_of_mem a hb, t, ht, hd⟩
      · rintro ⟨b, hb, t, ht, hd⟩
        rcases List.mem_cons.mp hb with rfl | hb
        · rw [h₁] at ht
          cases ht
          rw [hdirty] at hd
          cases hd
        · exact ⟨b, hb, t, ht, hd⟩

end DirtyMap

/-! ### Loops -/

/-- A loop whose rounds depend on the item only for whether they return. -/
theorem foldlM_isSome_iff {α β : Type*} {f : β → α → Option β} {Q : α → Prop}
    (hf : ∀ b a, (f b a).isSome ↔ Q a) (as : List α) (b : β) :
    (as.foldlM f b).isSome ↔ ∀ a ∈ as, Q a := by
  induction as generalizing b with
  | nil => simp
  | cons a as ih =>
    rw [List.foldlM_cons, List.forall_mem_cons, ← hf b a]
    cases hfa : f b a with
    | none => simp
    | some b' => simpa using ih b'

theorem forall_mem_zipIdx {α : Type*} {as : List α} {Q : α → Prop} :
    (∀ p ∈ as.zipIdx, Q p.1) ↔ ∀ a ∈ as, Q a := by
  constructor
  · intro h a ha
    obtain ⟨i, hi⟩ := List.mem_iff_getElem?.mp ha
    exact h (a, i) (List.mk_mem_zipIdx_iff_getElem?.mpr hi)
  · exact fun h p hp => h p.1 ((List.mem_zipIdx' hp).2 ▸ List.getElem_mem _)

theorem exists_mem_zipIdx {α : Type*} {as : List α} {Q : α → Prop} :
    (∃ p ∈ as.zipIdx, Q p.1) ↔ ∃ a ∈ as, Q a := by
  have h := not_congr (@forall_mem_zipIdx _ as fun a => ¬ Q a)
  simpa using h

end Aster.Lib
