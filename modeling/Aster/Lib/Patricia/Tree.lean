import Mathlib.Data.List.Basic
import Mathlib.Logic.Function.Basic
import Mathlib.Tactic

/-!
# Patricia trees

A map from words to values as a tree: a `full` node branches on the next letter, a `short` node
skips several letters at once.  The words end in a letter `e` that occurs nowhere else in them, so
none is a prefix of another.

A tree is `Canonical` when no letters could be skipped that are not, and nothing is empty.  Then
the tree is a function of the map it stores (`Canonical.ext`), whatever the order in which the
entries came and went.

* **`Canonical.ext`**: a canonical tree is determined by its map.
-/

namespace Aster.Lib.Patricia

inductive Tree (σ V : Type*) where
  | nil
  | value (v : V)
  | short (key : List σ) (val : Tree σ V)
  | full (children : σ → Tree σ V)

variable {σ V : Type*}

/-! ### Words -/

/-- The word ends in `e`, which occurs nowhere else in it. -/
def Terminated (e : σ) : List σ → Prop
  | [] => False
  | a :: w => (a = e ∧ w = []) ∨ (a ≠ e ∧ Terminated e w)

theorem terminated_append {e : σ} {p w : List σ} (hp : e ∉ p) :
    Terminated e (p ++ w) ↔ Terminated e w := by
  induction p with
  | nil => rfl
  | cons a p ih =>
    rw [List.mem_cons, not_or] at hp
    simp only [List.cons_append, Terminated, Ne.symm hp.1, false_and, false_or, ne_eq,
      not_false_eq_true, true_and, ih hp.2]

theorem terminated_append_singleton {e : σ} {p : List σ} (hp : e ∉ p) :
    Terminated e (p ++ [e]) :=
  (terminated_append hp).mpr (.inl ⟨rfl, rfl⟩)

theorem Terminated.exists_append {e : σ} {w : List σ} (h : Terminated e w) :
    ∃ p, e ∉ p ∧ w = p ++ [e] := by
  induction w with
  | nil => exact h.elim
  | cons a w ih =>
    rcases h with ⟨rfl, rfl⟩ | ⟨hne, h⟩
    · exact ⟨[], List.not_mem_nil, rfl⟩
    · obtain ⟨p, hp, rfl⟩ := ih h
      exact ⟨a :: p, by simp [hp, Ne.symm hne], rfl⟩

/-- No terminated word goes on behind another one. -/
theorem Terminated.eq_nil_of_append {e : σ} {p w : List σ} (hp : Terminated e p)
    (h : Terminated e (p ++ w)) : w = [] := by
  induction p with
  | nil => exact hp.elim
  | cons a p ih =>
    rcases hp with ⟨rfl, rfl⟩ | ⟨hne, hp⟩
    · simpa [Terminated] using h
    · simp only [List.cons_append, Terminated, hne, false_and, false_or, ne_eq,
        not_false_eq_true, true_and] at h
      exact ih hp h

/-- In front of a rest that is not empty a terminated word has no terminator. -/
theorem Terminated.notMem_of_append {e : σ} {p w : List σ} (h : Terminated e (p ++ w))
    (hw : w ≠ []) : e ∉ p := by
  induction p with
  | nil => exact List.not_mem_nil
  | cons a p ih =>
    simp only [List.cons_append, Terminated, List.append_eq_nil_iff, hw, and_false,
      false_or] at h
    simp [ih h.2, Ne.symm h.1]

theorem Terminated.ne_nil {e : σ} {w : List σ} (h : Terminated e w) : w ≠ [] := by
  rintro rfl
  exact h

/-! ### Canonical trees -/

inductive Canonical (e : σ) : Tree σ V → Prop
  | leaf {key : List σ} {v : V} (hkey : Terminated e key) : Canonical e (.short key (.value v))
  | extension {key : List σ} {c : σ → Tree σ V} (hne : key ≠ []) (hkey : e ∉ key)
      (hval : Canonical e (.full c)) : Canonical e (.short key (.full c))
  | full {c : σ → Tree σ V} (hchild : ∀ a, a ≠ e → c a ≠ .nil → Canonical e (c a))
      (hterm : c e = .nil ∨ ∃ v, c e = .value v)
      (htwo : ∃ a b, a ≠ b ∧ c a ≠ .nil ∧ c b ≠ .nil) : Canonical e (.full c)

/-- The empty tree is canonical as a whole, not as a part. -/
def WellFormed (e : σ) (t : Tree σ V) : Prop := t = .nil ∨ Canonical e t

theorem not_canonical_nil {e : σ} : ¬ Canonical e (.nil : Tree σ V) := by
  intro h
  cases h

theorem not_canonical_value {e : σ} {v : V} : ¬ Canonical e (.value v : Tree σ V) := by
  intro h
  cases h

theorem Canonical.ne_nil {e : σ} {t : Tree σ V} (h : Canonical e t) : t ≠ .nil := by
  rintro rfl
  exact not_canonical_nil h

/-- A tree behind a key. -/
def graft (key : List σ) (t : Tree σ V) : Tree σ V :=
  match key with
  | [] => t
  | a :: key => .short (a :: key) t

theorem graft_of_ne_nil {key : List σ} (hne : key ≠ []) (t : Tree σ V) :
    graft key t = .short key t := by
  cases key with
  | nil => exact absurd rfl hne
  | cons a key => rfl

theorem canonical_graft_full {e : σ} {p : List σ} {c : σ → Tree σ V} (hp : e ∉ p)
    (h : Canonical e (.full c)) : Canonical e (graft p (.full c)) := by
  cases p with
  | nil => exact h
  | cons a p => exact .extension (by simp) hp h

/-! ### Words in a subtree -/

/-- The word can be followed in the subtree of a canonical tree, to its end or to where the tree
has nothing. -/
inductive Aligned (e : σ) : Tree σ V → List σ → Prop
  | nil {w : List σ} (hw : w = [] ∨ Terminated e w) : Aligned e .nil w
  | value {v : V} : Aligned e (.value v) []
  | node {t : Tree σ V} {w : List σ} (h : Canonical e t) (hw : Terminated e w) : Aligned e t w

section Aligned

variable {e a : σ} {t : Tree σ V} {key w r : List σ} {c : σ → Tree σ V}

theorem WellFormed.aligned (h : WellFormed e t) (hw : Terminated e w) :
    Aligned e t w := by
  rcases h with rfl | h
  · exact .nil (.inr hw)
  · exact .node h hw

theorem Canonical.aligned_short (h : Canonical e (.short key t))
    (hw : Terminated e (key ++ r)) : Aligned e t r := by
  cases h with
  | leaf hkey =>
    rw [hkey.eq_nil_of_append hw]
    exact .value
  | extension hne hkey hval => exact .node hval ((terminated_append hkey).mp hw)

theorem Canonical.aligned_full (h : Canonical e (.full c))
    (hw : Terminated e (a :: r)) : Aligned e (c a) r := by
  cases h with
  | full hchild hterm htwo =>
    rcases hw with ⟨rfl, rfl⟩ | ⟨hae, hr⟩
    · rcases hterm with hnil | ⟨v, hv⟩
      · rw [hnil]
        exact .nil (.inl rfl)
      · rw [hv]
        exact .value
    · by_cases hnil : c a = .nil
      · rw [hnil]
        exact .nil (.inr hr)
      · exact .node (hchild a hae hnil) hr

theorem Aligned.canonical (h : Aligned e t w) (hw : Terminated e w) (hne : t ≠ .nil) :
    Canonical e t := by
  cases h with
  | nil _ => exact absurd rfl hne
  | value => exact hw.elim
  | node hcan _ => exact hcan

theorem Canonical.key_cases (h : Canonical e (.short key t)) : e ∉ key ∨ Terminated e key := by
  cases h with
  | leaf hkey => exact .inr hkey
  | extension _ hkey _ => exact .inl hkey

theorem Canonical.key_ne_nil (h : Canonical e (.short key t)) : key ≠ [] := by
  cases h with
  | leaf hkey => exact hkey.ne_nil
  | extension hne _ _ => exact hne

end Aligned

/-! ### Common prefixes -/

variable [DecidableEq σ]

/-- The length of the common prefix. -/
def prefixLen : List σ → List σ → ℕ
  | a :: as, b :: bs => if a = b then prefixLen as bs + 1 else 0
  | _, _ => 0

theorem prefixLen_append (p as bs : List σ) :
    prefixLen (p ++ as) (p ++ bs) = p.length + prefixLen as bs := by
  induction p with
  | nil => simp
  | cons a p ih =>
    simp only [List.cons_append, prefixLen, if_true, ih, List.length_cons]
    omega

theorem prefixLen_of_prefix (p r : List σ) : prefixLen (p ++ r) p = p.length := by
  have h := prefixLen_append p r []
  rw [List.append_nil] at h
  rw [h]
  cases r <;> rfl

theorem prefixLen_of_ne (p : List σ) {a b : σ} (hab : b ≠ a) (as bs : List σ) :
    prefixLen (p ++ b :: bs) (p ++ a :: as) = p.length := by
  rw [prefixLen_append, prefixLen, if_neg hab, Nat.add_zero]

/-- How a terminated word relates to a key: it goes on behind it or leaves it at a letter. -/
theorem word_cases {e : σ} {w : List σ} (key : List σ) (hw : Terminated e w)
    (hkey : e ∉ key ∨ Terminated e key) :
    (∃ r, w = key ++ r) ∨
      ∃ p a key' b word', key = p ++ a :: key' ∧ w = p ++ b :: word' ∧ b ≠ a := by
  induction key generalizing w with
  | nil => exact .inl ⟨w, rfl⟩
  | cons a key ih =>
    obtain ⟨b, word, rfl⟩ := List.exists_cons_of_ne_nil hw.ne_nil
    by_cases hba : b = a
    · subst hba
      rcases hw with ⟨rfl, rfl⟩ | ⟨hne, hw⟩
      · -- The word ends here, and so does the key.
        have hnil : key = [] := by simpa [Terminated] using hkey
        exact .inl ⟨[], by simp [hnil]⟩
      · rcases ih hw (by simpa [Terminated, hne, Ne.symm hne] using hkey) with
          ⟨r, rfl⟩ | ⟨p, c, key', d, word', rfl, rfl, hdc⟩
        · exact .inl ⟨r, rfl⟩
        · exact .inr ⟨b :: p, c, key', d, word', rfl, rfl, hdc⟩
    · exact .inr ⟨[], a, key, b, word, rfl, rfl, hba⟩

/-! ### Lookups -/

def find : Tree σ V → List σ → Option V
  | .nil, _ => none
  | .value v, [] => some v
  | .value _, _ :: _ => none
  | .short key t, w => if key <+: w then find t (w.drop key.length) else none
  | .full _, [] => none
  | .full c, a :: w => find (c a) w

@[simp] theorem find_nil (w : List σ) : find (.nil : Tree σ V) w = none := by
  cases w <;> rfl

theorem find_value_iff {u v : V} {w : List σ} : find (.value u) w = some v ↔ w = [] ∧ u = v := by
  cases w <;> simp [find]

theorem find_short_iff {key w : List σ} {t : Tree σ V} {v : V} :
    find (.short key t) w = some v ↔ ∃ r, w = key ++ r ∧ find t r = some v := by
  constructor
  · intro h
    rw [find.eq_def] at h
    simp only at h
    split at h
    · next hpre =>
      obtain ⟨r, rfl⟩ := hpre
      exact ⟨r, rfl, by simpa using h⟩
    · cases h
  · rintro ⟨r, rfl, h⟩
    simpa [find] using h

theorem find_short_append (key w : List σ) (t : Tree σ V) :
    find (.short key t) (key ++ w) = find t w := by
  simp [find]

@[simp] theorem find_full_cons (c : σ → Tree σ V) (a : σ) (w : List σ) :
    find (.full c) (a :: w) = find (c a) w := rfl

theorem find_full_iff {c : σ → Tree σ V} {w : List σ} {v : V} :
    find (.full c) w = some v ↔ ∃ a r, w = a :: r ∧ find (c a) r = some v := by
  cases w <;> simp [find]

theorem find_graft_iff {key w : List σ} {t : Tree σ V} {v : V} :
    find (graft key t) w = some v ↔ ∃ r, w = key ++ r ∧ find t r = some v := by
  cases key with
  | nil => simp [graft]
  | cons a key => exact find_short_iff

/-! ### Canonical trees and their maps -/

section Canonical

variable {e : σ} {t t' : Tree σ V} {w : List σ} {v : V}

/-- A canonical tree stores something. -/
theorem Canonical.exists_find (h : Canonical e t) : ∃ w v, find t w = some v := by
  induction h with
  | @leaf key v _ => exact ⟨key, v, find_short_iff.mpr ⟨[], by simp, by simp [find]⟩⟩
  | @extension key c _ _ _ ih =>
    obtain ⟨w, v, hw⟩ := ih
    exact ⟨key ++ w, v, find_short_iff.mpr ⟨w, rfl, hw⟩⟩
  | @full c hchild hterm htwo ih =>
    obtain ⟨a, b, hab, ha, hb⟩ := htwo
    -- One of the two children is not at the terminator.
    have hone : ∃ a, a ≠ e ∧ c a ≠ .nil := by
      by_cases hae : a = e
      · exact ⟨b, fun hbe => hab (hae.trans hbe.symm), hb⟩
      · exact ⟨a, hae, ha⟩
    obtain ⟨a, hae, ha⟩ := hone
    obtain ⟨w, v, hw⟩ := ih a hae ha
    exact ⟨a :: w, v, hw⟩

/-- Every child of a branch stores something. -/
theorem Canonical.exists_find_child {c : σ → Tree σ V} (h : Canonical e (.full c)) {a : σ}
    (ha : c a ≠ .nil) : ∃ w v, find (c a) w = some v := by
  cases h with
  | full hchild hterm _ =>
    by_cases hae : a = e
    · subst hae
      rcases hterm with hnil | ⟨u, hu⟩
      · exact absurd hnil ha
      · exact ⟨[], u, by rw [hu]; rfl⟩
    · exact (hchild a hae ha).exists_find

/-- The words behind a branch do not have their first letter in common. -/
theorem Canonical.exists_two {c : σ → Tree σ V} (h : Canonical e (.full c)) :
    ∃ a r b s u v, a ≠ b ∧ find (.full c) (a :: r) = some u ∧ find (.full c) (b :: s) = some v := by
  have h' := h
  cases h' with
  | full _ _ htwo =>
    obtain ⟨a, b, hab, ha, hb⟩ := htwo
    obtain ⟨r, u, hr⟩ := h.exists_find_child ha
    obtain ⟨s, v, hs⟩ := h.exists_find_child hb
    exact ⟨a, r, b, s, u, v, hab, hr, hs⟩

/-- Two branches behind keys with the same words: the keys are equal. -/
theorem key_prefix_of_find {c c' : σ → Tree σ V} {key : List σ} (key' : List σ)
    (h : Canonical e (.full c'))
    (heq : ∀ w, find (graft key (.full c)) w = find (graft key' (.full c')) w) :
    key <+: key' := by
  obtain ⟨a, r, b, s, u, v, hab, hr, hs⟩ := h.exists_two
  have hr' : find (graft key (.full c)) (key' ++ a :: r) = some u := by
    rw [heq]
    exact find_graft_iff.mpr ⟨_, rfl, hr⟩
  have hs' : find (graft key (.full c)) (key' ++ b :: s) = some v := by
    rw [heq]
    exact find_graft_iff.mpr ⟨_, rfl, hs⟩
  obtain ⟨x, hx, -⟩ := find_graft_iff.mp hr'
  obtain ⟨y, hy, -⟩ := find_graft_iff.mp hs'
  have hpre : key <+: key' ++ a :: r := ⟨x, hx.symm⟩
  have hpre' : key <+: key' ++ b :: s := ⟨y, hy.symm⟩
  -- If the key went further, its letter behind the other key would be both `a` and `b`.
  rcases List.prefix_or_prefix_of_prefix hpre (List.prefix_append key' (a :: r)) with hle | ⟨z, hz⟩
  · exact hle
  · cases z with
    | nil =>
      rw [List.append_nil] at hz
      rw [hz]
    | cons d z =>
      rw [← hz] at hpre hpre'
      have hda : d = a := by
        have := (List.prefix_append_right_inj key').mp hpre
        exact (List.cons_prefix_cons.mp this).1
      have hdb : d = b := by
        have := (List.prefix_append_right_inj key').mp hpre'
        exact (List.cons_prefix_cons.mp this).1
      exact absurd (hda.symm.trans hdb) hab

theorem find_full_congr {c c' : σ → Tree σ V}
    (heq : ∀ w, find (.full c) w = find (.full c') w) (a : σ) (w : List σ) :
    find (c a) w = find (c' a) w := heq (a :: w)

/-- The only word of a leaf is its key. -/
theorem find_leaf_iff {key : List σ} {u : V} :
    find (.short key (.value u)) w = some v ↔ w = key ∧ u = v := by
  rw [find_short_iff]
  constructor
  · rintro ⟨r, rfl, hr⟩
    obtain ⟨rfl, rfl⟩ := find_value_iff.mp hr
    exact ⟨List.append_nil key, rfl⟩
  · rintro ⟨rfl, rfl⟩
    exact ⟨[], (List.append_nil w).symm, rfl⟩

/-- A branch has other words than a leaf. -/
theorem not_leaf_of_branch {c : σ → Tree σ V} {key : List σ} (key' : List σ) {u : V}
    (h : Canonical e (.full c))
    (heq : ∀ w, find (.short key (.value u)) w = find (graft key' (.full c)) w) : False := by
  obtain ⟨a, r, b, s, x, y, hab, hr, hs⟩ := h.exists_two
  have hr' := (heq (key' ++ a :: r)).trans (find_graft_iff.mpr ⟨_, rfl, hr⟩)
  have hs' := (heq (key' ++ b :: s)).trans (find_graft_iff.mpr ⟨_, rfl, hs⟩)
  have heq' := (find_leaf_iff.mp hr').1.trans (find_leaf_iff.mp hs').1.symm
  rw [List.append_cancel_left_eq, List.cons.injEq] at heq'
  exact hab heq'.1

/-- **A canonical tree is determined by what it stores.** -/
theorem Canonical.ext (h : Canonical e t) (h' : Canonical e t')
    (heq : ∀ w, find t w = find t' w) : t = t' := by
  induction h generalizing t' with
  | @leaf key v hkey =>
    cases h' with
    | @leaf key' v' _ =>
      have hv := (heq key').trans (find_leaf_iff.mpr ⟨rfl, rfl⟩)
      obtain ⟨rfl, rfl⟩ := find_leaf_iff.mp hv
      rfl
    | @extension key' c' hne _ hval =>
      rw [← graft_of_ne_nil hne] at heq
      exact (not_leaf_of_branch _ hval heq).elim
    | @full c' hchild hterm htwo =>
      exact (not_leaf_of_branch [] (.full hchild hterm htwo) heq).elim
  | @extension key c hne hkey hval ih =>
    cases h' with
    | @leaf key' v' _ =>
      rw [← graft_of_ne_nil hne] at heq
      exact (not_leaf_of_branch _ hval fun w => (heq w).symm).elim
    | @extension key' c' hne' _ hval' =>
      rw [← graft_of_ne_nil hne, ← graft_of_ne_nil hne'] at heq
      have hle := key_prefix_of_find _ hval' heq
      have hge := key_prefix_of_find _ hval fun w => (heq w).symm
      obtain rfl : key = key' := hle.eq_of_length (hle.length_le.antisymm hge.length_le)
      rw [graft_of_ne_nil hne, graft_of_ne_nil hne] at heq
      rw [ih hval' fun w => by simpa [find_short_append] using heq (key ++ w)]
    | @full c' hchild hterm htwo =>
      rw [← graft_of_ne_nil hne] at heq
      have hle := key_prefix_of_find [] (.full hchild hterm htwo) heq
      exact absurd (List.prefix_nil.mp hle) hne
  | @full c hchild hterm htwo ih =>
    have hfull : Canonical e (.full c) := .full hchild hterm htwo
    cases h' with
    | @leaf key' v' _ =>
      exact (not_leaf_of_branch [] hfull fun w => (heq w).symm).elim
    | @extension key' c' hne _ hval' =>
      rw [← graft_of_ne_nil hne] at heq
      have hle := key_prefix_of_find [] hfull fun w => (heq w).symm
      exact absurd (List.prefix_nil.mp hle) hne
    | @full c' hchild' hterm' htwo' =>
      have hfull' : Canonical e (.full c') := .full hchild' hterm' htwo'
      have hnil : ∀ a, c a = .nil ↔ c' a = .nil := by
        intro a
        constructor
        · intro ha
          by_contra hne
          obtain ⟨w, v, hw⟩ := hfull'.exists_find_child hne
          rw [← find_full_congr heq a w, ha, find_nil] at hw
          cases hw
        · intro ha
          by_contra hne
          obtain ⟨w, v, hw⟩ := hfull.exists_find_child hne
          rw [find_full_congr heq a w, ha, find_nil] at hw
          cases hw
      congr 1
      funext a
      by_cases ha : c a = .nil
      · rw [ha, (hnil a).mp ha]
      · have ha' : c' a ≠ .nil := fun h => ha ((hnil a).mpr h)
        by_cases hae : a = e
        · subst hae
          obtain ⟨u, hu⟩ := hterm.resolve_left ha
          obtain ⟨u', hu'⟩ := hterm'.resolve_left ha'
          have hval := find_full_congr heq a []
          rw [hu, hu'] at hval ⊢
          simpa [find] using hval
        · exact ih a hae ha (hchild' a hae ha') (find_full_congr heq a)

theorem WellFormed.ext (h : WellFormed e t) (h' : WellFormed e t')
    (heq : ∀ w, find t w = find t' w) : t = t' := by
  rcases h with rfl | h
  · rcases h' with rfl | h'
    · rfl
    · obtain ⟨w, v, hw⟩ := h'.exists_find
      rw [← heq w, find_nil] at hw
      cases hw
  · rcases h' with rfl | h'
    · obtain ⟨w, v, hw⟩ := h.exists_find
      rw [heq w, find_nil] at hw
      cases hw
    · exact h.ext h' heq

end Canonical

end Aster.Lib.Patricia
