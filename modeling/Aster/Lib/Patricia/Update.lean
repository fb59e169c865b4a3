import Aster.Lib.Patricia.Tree

/-!
# Patricia trees: insertion and removal

Insertion splits a short node at the letter where the word leaves its key; removal joins what it
leaves of a branch with one child to the node above.

* `canonical_insert`, `wellFormed_erase`: both keep the tree canonical;
* `find_insert`, `find_erase`: both change the map at one word.
-/

namespace Aster.Lib.Patricia

variable {σ V : Type*}

/-! ### Joining nodes -/

/-- A key in front of a tree, with no short node below a short node. -/
def merge (key : List σ) : Tree σ V → Tree σ V
  | .nil => .nil
  | .short key' t => .short (key ++ key') t
  | .value v => .short key (.value v)
  | .full c => .short key (.full c)

open Classical in
/-- The child of a branch, if only one is left. -/
noncomputable def sole (c : σ → Tree σ V) : Option σ :=
  if h : ∃ a, c a ≠ .nil ∧ ∀ b, c b ≠ .nil → b = a then some h.choose else none

/-- A branch with one child left is no branch. -/
noncomputable def reduce (c : σ → Tree σ V) : Tree σ V :=
  match sole c with
  | some a => merge [a] (c a)
  | none => .full c

section Reduce

variable {e : σ} {t : Tree σ V} {c : σ → Tree σ V}

theorem canonical_merge {key : List σ} (h : Canonical e t) (hne : key ≠ []) (hkey : e ∉ key) :
    Canonical e (merge key t) := by
  cases h with
  | leaf hk => exact .leaf ((terminated_append hkey).mpr hk)
  | extension _ hk hval => exact .extension (by simp [hne]) (by simp [hkey, hk]) hval
  | full hchild hterm htwo => exact .extension hne hkey (.full hchild hterm htwo)

theorem sole_eq_some_iff {a : σ} :
    sole c = some a ↔ c a ≠ .nil ∧ ∀ b, c b ≠ .nil → b = a := by
  unfold sole
  split
  · next h =>
    have := h.choose_spec
    grind
  · next h => grind

/-- With one child, a branch is not alone exactly if there are two. -/
theorem sole_eq_none_iff (hone : ∃ a, c a ≠ .nil) :
    sole c = none ↔ ∃ a b, a ≠ b ∧ c a ≠ .nil ∧ c b ≠ .nil := by
  obtain ⟨a, ha⟩ := hone
  cases hsole : sole c with
  | none =>
    have hnot : ¬ (c a ≠ .nil ∧ ∀ b, c b ≠ .nil → b = a) := by
      rw [← sole_eq_some_iff, hsole]
      simp
    grind
  | some d =>
    have := sole_eq_some_iff.mp hsole
    grind

/-- What is left of a branch is canonical. -/
theorem canonical_reduce (hchild : ∀ a, a ≠ e → c a ≠ .nil → Canonical e (c a))
    (hterm : c e = .nil ∨ ∃ v, c e = .value v) (hone : ∃ a, c a ≠ .nil) :
    Canonical e (reduce c) := by
  unfold reduce
  split
  · next a ha =>
    obtain ⟨hne, -⟩ := sole_eq_some_iff.mp ha
    by_cases hae : a = e
    · subst hae
      obtain ⟨u, hu⟩ := hterm.resolve_left hne
      rw [hu]
      exact .leaf (.inl ⟨rfl, rfl⟩)
    · exact canonical_merge (hchild a hae hne) (by simp) (by simpa using Ne.symm hae)
  · next ha => exact .full hchild hterm ((sole_eq_none_iff hone).mp ha)

end Reduce

variable [DecidableEq σ]

/-! ### Insertion -/

/-- The children of a branch in two. -/
def fork (a : σ) (s : Tree σ V) (b : σ) (t : Tree σ V) : σ → Tree σ V :=
  Function.update (Function.update (fun _ => .nil) a s) b t

def insert : Tree σ V → List σ → V → Tree σ V
  | _, [], v => .value v
  | .nil, b :: word, v => .short (b :: word) (.value v)
  | .value u, _ :: _, _ => .value u
  | .short key t, b :: word, v =>
    let n := prefixLen (b :: word) key
    match key.drop n, (b :: word).drop n with
    | [], rest => .short key (insert t rest v)
    | a :: nkey, b :: word =>
      graft (key.take n) (.full (fork a (graft nkey t) b (graft word (.value v))))
    | _ :: _, [] => .short key t
  | .full c, b :: word, v => .full (Function.update c b (insert (c b) word v))

section Insert

variable {e : σ} {t : Tree σ V} {w q : List σ} {v x : V}

@[simp] theorem insert_nil_word (t : Tree σ V) (v : V) : insert t [] v = .value v := by
  cases t <;> rfl

/-- Insertion below a key that the word has. -/
theorem insert_short_append (key r : List σ) (t : Tree σ V) (v : V) (hw : key ++ r ≠ []) :
    insert (.short key t) (key ++ r) v = .short key (insert t r v) := by
  obtain ⟨b, word, hcons⟩ := List.exists_cons_of_ne_nil hw
  rw [hcons, insert]
  simp only [← hcons, prefixLen_of_prefix, List.drop_left, List.drop_length]

/-- Insertion of a word that leaves the key at a letter. -/
theorem insert_short_fork (p key word : List σ) {a b : σ} (hab : b ≠ a) (t : Tree σ V) (v : V) :
    insert (.short (p ++ a :: key) t) (p ++ b :: word) v =
      graft p (.full (fork a (graft key t) b (graft word (.value v)))) := by
  obtain ⟨b', word', hcons⟩ := List.exists_cons_of_ne_nil (l := p ++ b :: word) (by simp)
  rw [hcons, insert]
  simp only [← hcons, prefixLen_of_ne p hab, List.drop_left, List.take_left]

theorem fork_apply (a : σ) (s : Tree σ V) (b : σ) (t : Tree σ V) (d : σ) :
    fork a s b t d = if d = b then t else if d = a then s else .nil := by
  simp [fork, Function.update_apply]

theorem find_fork_iff {a b : σ} (hab : b ≠ a) {s t : Tree σ V} :
    find (.full (fork a s b t)) q = some x ↔
      (∃ r, q = a :: r ∧ find s r = some x) ∨ ∃ r, q = b :: r ∧ find t r = some x := by
  rw [find_full_iff]
  constructor
  · rintro ⟨d, r, rfl, hr⟩
    rw [fork_apply] at hr
    split_ifs at hr with hdb hda
    · exact .inr ⟨r, by rw [hdb], hr⟩
    · exact .inl ⟨r, by rw [hda], hr⟩
    · simp at hr
  · rintro (⟨r, rfl, hr⟩ | ⟨r, rfl, hr⟩)
    · exact ⟨a, r, rfl, by simpa [fork_apply, hab.symm] using hr⟩
    · exact ⟨b, r, rfl, by simpa [fork_apply] using hr⟩

/-- What can stand at a letter of a branch. -/
def FitsAt (e a : σ) (t : Tree σ V) : Prop := if a = e then ∃ u, t = .value u else Canonical e t

theorem FitsAt.ne_nil {a : σ} (h : FitsAt e a t) : t ≠ .nil := by
  rw [FitsAt] at h
  split at h
  · obtain ⟨u, rfl⟩ := h
    simp
  · exact h.ne_nil

theorem canonical_fork {a b : σ} (hab : b ≠ a) {s t : Tree σ V} (hs : FitsAt e a s)
    (ht : FitsAt e b t) : Canonical e (.full (fork a s b t)) := by
  refine .full (fun d hd hne => ?_) ?_ ⟨a, b, hab.symm, ?_, ?_⟩
  · rw [fork_apply] at hne ⊢
    split_ifs at hne ⊢ with hdb hda
    · rwa [FitsAt, ← hdb, if_neg hd] at ht
    · rwa [FitsAt, ← hda, if_neg hd] at hs
    · exact absurd rfl hne
  · rw [fork_apply]
    split_ifs with heb hea
    · rw [FitsAt, if_pos heb.symm] at ht
      exact .inr ht
    · rw [FitsAt, if_pos hea.symm] at hs
      exact .inr hs
    · exact .inl rfl
  · simpa [fork_apply, hab.symm] using hs.ne_nil
  · simpa [fork_apply] using ht.ne_nil

/-- A value behind the rest of a terminated word. -/
theorem graft_value {a : σ} {word : List σ} (h : Terminated e (a :: word)) (v : V) :
    FitsAt e a (graft word (.value v)) := by
  rcases h with ⟨rfl, rfl⟩ | ⟨hne, hw⟩
  · simp [FitsAt, graft]
  · rw [FitsAt, if_neg hne, graft_of_ne_nil hw.ne_nil]
    exact .leaf hw

/-- Insertion of a word that leaves a canonical tree at a letter of its key. -/
theorem canonical_insert_fork {p key word : List σ} {a b : σ} (hab : b ≠ a)
    (h : Canonical e (.short (p ++ a :: key) t)) (hw : Terminated e (p ++ b :: word)) :
    e ∉ p ∧ Canonical e (.full (fork a (graft key t) b (graft word (.value v)))) := by
  have hp : e ∉ p := hw.notMem_of_append (by simp)
  refine ⟨hp, canonical_fork hab ?_ (graft_value ((terminated_append hp).mp hw) v)⟩
  cases h with
  | leaf hkey => exact graft_value ((terminated_append hp).mp hkey) _
  | extension hne hkey hval =>
    rw [List.mem_append, List.mem_cons, not_or, not_or] at hkey
    rw [FitsAt, if_neg (Ne.symm hkey.2.1)]
    exact canonical_graft_full hkey.2.2 hval

/-- Insertion keeps the shape of a branch. -/
theorem insert_full (c : σ → Tree σ V) (hw : w ≠ []) (v : V) :
    ∃ c', insert (.full c) w v = .full c' := by
  cases w with
  | nil => exact absurd rfl hw
  | cons b w => exact ⟨_, rfl⟩

/-- A child of a branch changes to another tree that fits at its place. -/
theorem Canonical.children_update {c : σ → Tree σ V} {b : σ} (h : Canonical e (.full c))
    (hw : Terminated e (b :: w)) (ht : Aligned e t w) :
    (∀ a, a ≠ e → Function.update c b t a ≠ .nil → Canonical e (Function.update c b t a)) ∧
      (Function.update c b t e = .nil ∨ ∃ v, Function.update c b t e = .value v) := by
  cases h with
  | full hchild hterm htwo =>
    constructor
    · intro a ha hne
      by_cases hab : a = b
      · subst hab
        rw [Function.update_self] at hne ⊢
        cases ht with
        | nil _ => exact absurd rfl hne
        | value => simp [Terminated, ha] at hw
        | node hcan _ => exact hcan
      · rw [Function.update_of_ne hab] at hne ⊢
        exact hchild a ha hne
    · by_cases heb : e = b
      · subst heb
        rw [Function.update_self]
        obtain ⟨-, rfl⟩ := hw.resolve_right (by simp)
        cases ht with
        | nil _ => exact .inl rfl
        | value => exact .inr ⟨_, rfl⟩
        | node _ hnil => exact hnil.elim
      · rw [Function.update_of_ne heb]
        exact hterm

theorem Canonical.two_update {c : σ → Tree σ V} {b : σ} (h : Canonical e (.full c))
    (ht : t ≠ .nil) :
    ∃ x y, x ≠ y ∧ Function.update c b t x ≠ .nil ∧ Function.update c b t y ≠ .nil := by
  have hkeep : ∀ d, c d ≠ .nil → Function.update c b t d ≠ .nil := by
    intro d hd
    by_cases hdb : d = b
    · rwa [hdb, Function.update_self]
    · rwa [Function.update_of_ne hdb]
  cases h with
  | full _ _ htwo =>
    obtain ⟨x, y, hxy, hx, hy⟩ := htwo
    exact ⟨x, y, hxy, hkeep x hx, hkeep y hy⟩

theorem find_insert_fork_iff {p key word : List σ} {a b : σ} (hab : b ≠ a) (t : Tree σ V) :
    find (graft p (.full (fork a (graft key t) b (graft word (.value v))))) q = some x ↔
      (q = p ++ b :: word ∧ v = x) ∨
        (q ≠ p ++ b :: word ∧ find (.short (p ++ a :: key) t) q = some x) := by
  rw [find_graft_iff]
  constructor
  · rintro ⟨r, rfl, hr⟩
    rcases (find_fork_iff hab).mp hr with ⟨s, rfl, hs⟩ | ⟨s, rfl, hs⟩
    · obtain ⟨z, rfl, hz⟩ := find_graft_iff.mp hs
      refine .inr ⟨?_, find_short_iff.mpr ⟨z, by simp, hz⟩⟩
      intro heq
      rw [List.append_cancel_left_eq, List.cons.injEq] at heq
      exact hab heq.1.symm
    · obtain ⟨z, rfl, hz⟩ := find_graft_iff.mp hs
      obtain ⟨rfl, rfl⟩ := find_value_iff.mp hz
      exact .inl ⟨by simp, rfl⟩
  · rintro (⟨rfl, rfl⟩ | ⟨-, h⟩)
    · exact ⟨_, rfl, (find_fork_iff hab).mpr (.inr ⟨word, rfl,
        find_graft_iff.mpr ⟨[], (List.append_nil word).symm, rfl⟩⟩)⟩
    · obtain ⟨r, rfl, hr⟩ := find_short_iff.mp h
      exact ⟨a :: (key ++ r), by simp, (find_fork_iff hab).mpr (.inl ⟨_, rfl,
        find_graft_iff.mpr ⟨r, rfl, hr⟩⟩)⟩

/-- **Insertion** keeps the tree canonical and changes the map at one word. -/
theorem insert_spec (h : Aligned e t w) (v : V) :
    Aligned e (insert t w v) w ∧ insert t w v ≠ .nil ∧
      ∀ q, find (insert t w v) q = if q = w then some v else find t q := by
  induction t generalizing w with
  | nil =>
    cases h with
    | node hcan _ => exact absurd hcan not_canonical_nil
    | nil hw =>
      cases w with
      | nil => exact ⟨.value, by simp, fun q => by cases q <;> simp [find]⟩
      | cons b w =>
        have hw := hw.resolve_left (by simp)
        refine ⟨.node (.leaf hw) hw, by simp [insert], fun q => ?_⟩
        apply Option.ext
        intro x
        rw [insert, find_leaf_iff]
        split <;> simp_all
  | value u =>
    cases h with
    | node hcan _ => exact absurd hcan not_canonical_value
    | value => exact ⟨.value, by simp, fun q => by cases q <;> simp [find]⟩
  | short key t ih =>
    cases h with
    | node hcan hw =>
      rcases word_cases key hw hcan.key_cases with ⟨r, rfl⟩ | ⟨p, a, key', b, word', rfl, rfl, hab⟩
      · obtain ⟨hal, hne, hfind⟩ := ih (hcan.aligned_short hw)
        rw [insert_short_append _ _ _ _ hw.ne_nil]
        refine ⟨.node ?_ hw, by simp, fun q => ?_⟩
        · cases hcan with
          | leaf hkey =>
            rw [hkey.eq_nil_of_append hw, insert_nil_word]
            exact .leaf hkey
          | @extension _ c hkne hkey hval =>
            obtain ⟨c', hc'⟩ := insert_full c ((terminated_append hkey).mp hw).ne_nil v
            rw [hc'] at hal ⊢
            cases hal with
            | node hcan' _ => exact .extension hkne hkey hcan'
        · by_cases hpre : key <+: q
          · obtain ⟨s, rfl⟩ := hpre
            simp [find_short_append, hfind]
          · rw [find, if_neg hpre, find, if_neg hpre, if_neg]
            rintro rfl
            exact hpre (List.prefix_append key r)
      · obtain ⟨hp, hc⟩ := canonical_insert_fork (v := v) hab hcan hw
        rw [insert_short_fork p key' word' hab]
        refine ⟨.node (canonical_graft_full hp hc) hw, (canonical_graft_full hp hc).ne_nil, ?_⟩
        intro q
        apply Option.ext
        intro x
        rw [find_insert_fork_iff hab]
        split <;> simp_all
  | full c ih =>
    cases h with
    | node hcan hw =>
      cases w with
      | nil => exact hw.elim
      | cons b w =>
        obtain ⟨hal, hne, hfind⟩ := ih b (hcan.aligned_full hw)
        obtain ⟨hchild, hterm⟩ := hcan.children_update hw hal
        refine ⟨.node (.full hchild hterm (hcan.two_update hne)) hw, by simp [insert], fun q => ?_⟩
        cases q with
        | nil => simp [insert, find]
        | cons d r =>
          rw [insert, find_full_cons, find_full_cons]
          by_cases hdb : d = b
          · subst hdb
            simp [hfind]
          · simp [hdb]

theorem canonical_insert (h : WellFormed e t) (hw : Terminated e w) (v : V) :
    Canonical e (insert t w v) := by
  obtain ⟨hal, hne, -⟩ := insert_spec (h.aligned hw) v
  exact hal.canonical hw hne

theorem find_insert (h : WellFormed e t) (hw : Terminated e w) (v : V) (q : List σ) :
    find (insert t w v) q = if q = w then some v else find t q :=
  (insert_spec (h.aligned hw) v).2.2 q

end Insert

/-! ### Removal -/

noncomputable def erase : Tree σ V → List σ → Tree σ V
  | .nil, _ => .nil
  | .value _, _ => .nil
  | .short key t, w => if key <+: w then merge key (erase t (w.drop key.length)) else .short key t
  | .full c, [] => .full c
  | .full c, a :: w => reduce (Function.update c a (erase (c a) w))

section Erase

variable {e : σ} {t : Tree σ V} {w q : List σ} {v x : V} {c : σ → Tree σ V}

theorem find_merge_iff {key : List σ} :
    find (merge key t) q = some x ↔ ∃ r, q = key ++ r ∧ find t r = some x := by
  cases t with
  | nil => simp [merge]
  | value v => exact find_short_iff
  | full c => exact find_short_iff
  | short key' t =>
    rw [merge, find_short_iff]
    constructor
    · rintro ⟨r, rfl, hr⟩
      exact ⟨key' ++ r, List.append_assoc key key' r, find_short_iff.mpr ⟨r, rfl, hr⟩⟩
    · rintro ⟨s, rfl, hs⟩
      obtain ⟨r, rfl, hr⟩ := find_short_iff.mp hs
      exact ⟨r, (List.append_assoc key key' r).symm, hr⟩

theorem find_reduce (c : σ → Tree σ V) (q : List σ) : find (reduce c) q = find (.full c) q := by
  unfold reduce
  split
  · next a ha =>
    obtain ⟨-, honly⟩ := sole_eq_some_iff.mp ha
    apply Option.ext
    intro x
    rw [find_merge_iff, find_full_iff]
    constructor
    · rintro ⟨r, rfl, hr⟩
      exact ⟨a, r, rfl, hr⟩
    · rintro ⟨b, r, rfl, hr⟩
      have hb : b = a := by
        apply honly
        intro hnil
        rw [hnil, find_nil] at hr
        cases hr
      rw [hb] at hr ⊢
      exact ⟨r, rfl, hr⟩
  · rfl

theorem erase_short_append (key r : List σ) (t : Tree σ V) :
    erase (.short key t) (key ++ r) = merge key (erase t r) := by
  simp [erase]

theorem Canonical.reduce_update {b : σ} (h : Canonical e (.full c)) (ht : t ≠ .nil) :
    reduce (Function.update c b t) = .full (Function.update c b t) := by
  obtain ⟨x, y, hxy, hx, hy⟩ := h.two_update (b := b) ht
  rw [reduce, (sole_eq_none_iff ⟨x, hx⟩).mpr ⟨x, y, hxy, hx, hy⟩]

theorem erase_short_of_apart {key : List σ} (t : Tree σ V) (h : ¬ key <+: w) :
    erase (.short key t) w = .short key t := by
  rw [erase, if_neg h]

/-- A map with two words is not empty without one of them. -/
theorem Canonical.ne_nil_of_erase (h : Canonical e (.full c))
    (hfind : ∀ q, find (erase (.full c) w) q = if q = w then none else find (.full c) q) :
    erase (.full c) w ≠ .nil := by
  obtain ⟨a, r, b, s, u, v, hab, hr, hs⟩ := h.exists_two
  intro hnil
  rw [hnil] at hfind
  have hra := hfind (a :: r)
  have hsb := hfind (b :: s)
  rw [hr, find_nil] at hra
  rw [hs, find_nil] at hsb
  by_cases hwa : a :: r = w
  · rw [if_neg (by rw [← hwa]; simp [hab.symm])] at hsb
    cases hsb
  · rw [if_neg hwa] at hra
    cases hra

/-- **Removal** keeps the tree canonical and changes the map at one word. -/
theorem erase_spec (h : Aligned e t w) :
    Aligned e (erase t w) w ∧ ∀ q, find (erase t w) q = if q = w then none else find t q := by
  induction t generalizing w with
  | nil => exact ⟨h, fun q => by simp [erase]⟩
  | value u =>
    cases h with
    | node hcan _ => exact absurd hcan not_canonical_value
    | value => exact ⟨.nil (.inl rfl), fun q => by cases q <;> simp [erase, find]⟩
  | short key t ih =>
    cases h with
    | node hcan hw =>
      by_cases hpre : key <+: w
      · obtain ⟨r, rfl⟩ := hpre
        obtain ⟨hal, hfind⟩ := ih (hcan.aligned_short hw)
        rw [erase_short_append]
        constructor
        · cases hcan with
          | leaf _ => exact .nil (.inr hw)
          | extension hne hkey hval =>
            have hcan := hal.canonical ((terminated_append hkey).mp hw) (hval.ne_nil_of_erase hfind)
            exact .node (canonical_merge hcan hne hkey) hw
        · intro q
          apply Option.ext
          intro x
          rw [find_merge_iff]
          constructor
          · rintro ⟨s, rfl, hs⟩
            simpa [find_short_append, hfind] using hs
          · intro hq
            split at hq
            · cases hq
            · next hqr =>
              obtain ⟨s, rfl, hs⟩ := find_short_iff.mp hq
              exact ⟨s, rfl, by rw [hfind, if_neg (by simpa using hqr), hs]⟩
      · rw [erase_short_of_apart _ hpre]
        refine ⟨.node hcan hw, fun q => ?_⟩
        split
        · next hq => simp [hq, find, hpre]
        · rfl
  | full c ih =>
    cases h with
    | node hcan hw =>
      cases w with
      | nil => exact hw.elim
      | cons b w =>
        obtain ⟨hal, hfind⟩ := ih b (hcan.aligned_full hw)
        obtain ⟨hchild, hterm⟩ := hcan.children_update hw hal
        rw [erase]
        refine ⟨.node (canonical_reduce hchild hterm ?_) hw, fun q => ?_⟩
        · cases hcan with
          | full _ _ htwo =>
            obtain ⟨x, y, hxy, hx, hy⟩ := htwo
            by_cases hxb : x = b
            · have hyb : y ≠ b := fun hyb => hxy (hxb.trans hyb.symm)
              exact ⟨y, by rwa [Function.update_of_ne hyb]⟩
            · exact ⟨x, by rwa [Function.update_of_ne hxb]⟩
        · rw [find_reduce]
          cases q with
          | nil => rfl
          | cons d r =>
            rw [find_full_cons, find_full_cons]
            by_cases hdb : d = b
            · subst hdb
              simp [hfind]
            · simp [hdb]

theorem wellFormed_erase (h : WellFormed e t) (hw : Terminated e w) :
    WellFormed e (erase t w) := by
  by_cases hnil : erase t w = .nil
  · exact .inl hnil
  · exact .inr ((erase_spec (h.aligned hw)).1.canonical hw hnil)

theorem find_erase (h : WellFormed e t) (hw : Terminated e w) (q : List σ) :
    find (erase t w) q = if q = w then none else find t q :=
  (erase_spec (h.aligned hw)).2 q

end Erase

end Aster.Lib.Patricia
