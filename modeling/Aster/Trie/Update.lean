import Aster.Trie.Operations

/-!
# What insertion and removal do to the contents

Both functions walk down the key and make new nodes on the way back up.  `insert` splits a short
node where the key leaves it.  `delete` joins what is left: a branch with a single child becomes a
short node, and two short nodes in a row become one.

* **`yields_insert`, `yields_delete`**: the new node stands for the changed contents, and the trie
  is reported dirty exactly when they differ from the old ones.
-/

namespace Aster.Trie

open Aster.Lib
open Aster.Lib.Patricia (Canonical Aligned graft fork)
open Aster.Lib.Rlp (Bytes)

variable {keccak : Bytes → Hash} {rd : Reader} {t t' : Tree} {path key : Hex} {n m : Node}
  {top : Bool} {v : Bytes}

/-! ### Results -/

/-- A node that stands for the contents `t'` if they are `changed`, and else for the old ones. -/
def Updated (keccak : Bytes → Hash) (rd : Reader) (top : Bool) (t t' : Tree) (changed : Prop)
    (r : Bool × Node) : Prop :=
  (r.1 = true ∧ changed ∧ r.2.isHash = false ∧ Represents keccak rd top r.2 t') ∨
    (r.1 = false ∧ ¬ changed ∧ Represents keccak rd top r.2 t)

/-- The step back up to the parent. -/
theorem Updated.lift {b : Bool} {m' : Node} {s s' : Tree} {changed : Prop} {r : Bool × Node}
    (h : Updated keccak rd b s s' changed r)
    (hx : r.2.isHash = false ∧ Represents keccak rd b r.2 s' →
      m.isHash = false ∧ Represents keccak rd top m t')
    (hy : Represents keccak rd top m' t) :
    Yields (if r.1 then pure (true, m) else pure (false, m') : Except TrieError _)
      (Updated keccak rd top t t' changed) := by
  rcases h with ⟨hr, hchanged, hrep⟩ | ⟨hr, hsame, -⟩
  · rw [if_pos hr]
    exact Yields.pure (.inl ⟨rfl, hchanged, hx hrep⟩)
  · rw [if_neg (by simp [hr])]
    exact Yields.pure (.inr ⟨rfl, hsame, hy⟩)

theorem yields_same {changed : Prop} (hc : ¬ changed) (h : Represents keccak rd top n t) :
    Yields (pure (false, n) : Except TrieError _) (Updated keccak rd top t t' changed) :=
  Yields.pure (.inr ⟨rfl, hc, h⟩)

theorem yields_changed {changed : Prop} (hc : changed) (hm : m.isHash = false)
    (h : Represents keccak rd top m t') :
    Yields (pure (true, m) : Except TrieError _) (Updated keccak rd top t t' changed) :=
  Yields.pure (.inl ⟨rfl, hc, hm, h⟩)

theorem represents_update {children : Nibble → Node} {c : Nibble → Tree} {i : Nibble}
    (h : ∀ j, Represents keccak rd false (children j) (c j))
    (hm : Represents keccak rd false m t) (j : Nibble) :
    Represents keccak rd false (Function.update children i m j)
      (Function.update c i t j) := by
  by_cases hj : j = i
  · subst hj
    rwa [Function.update_self, Function.update_self]
  · rw [Function.update_of_ne hj, Function.update_of_ne hj]
    exact h j

/-- A node behind a key. -/
def graftNode (key : Hex) (n : Node) : Node :=
  match key with
  | [] => n
  | a :: key => .short (a :: key) n newFlag

theorem represents_graft (h : Represents keccak rd false n t) :
    Represents keccak rd false (graftNode key n) (graft key t) := by
  cases key with
  | nil => exact h
  | cons a key => exact .short .fresh h

/-! ### Insertion -/

/-- `insert` at a place where there is nothing. -/
theorem yields_insert_nil {fuel : ℕ} :
    Yields (insert rd (fuel + 1) .nil path key n) fun r => r = (true, graftNode key n) := by
  cases key with
  | nil => exact Yields.pure rfl
  | cons k rest => exact Yields.pure rfl

/-- The branch that takes the place of a short node. -/
theorem represents_fork {nrest krest : Hex} {a b : Nibble}
    (h : Represents keccak rd false n t) :
    Represents keccak rd top
      (.full (Function.update (Function.update (fun _ => .nil) a (graftNode nrest n)) b
        (graftNode krest (.value v))) newFlag)
      (.full (fork a (graft nrest t) b (graft krest (.value v)))) :=
  .full .fresh (represents_update
    (represents_update (fun _ => .nil) (represents_graft h))
    (represents_graft .value))

/-- **Insertion**: the new node stands for the contents with the value at the key. -/
theorem yields_insert (fuel : ℕ) (h : Represents keccak rd top n t)
    (hkey : Aligned terminator t key) (htop : top = true → key ≠ []) (hfits : Fits t)
    (hfuel : Enough fuel n key) :
    Yields (insert rd fuel n path key (.value v)) (Updated keccak rd top t
      (Patricia.insert t key v) (Patricia.find t key ≠ some v)) := by
  induction fuel generalizing n path key t top with
  | zero => exact absurd hfuel.1 (by omega)
  | succ fuel ih =>
    rw [insert.eq_def]
    cases key with
    | nil =>
      obtain rfl : top = false := Bool.eq_false_iff.mpr fun htrue => htop htrue rfl
      cases hkey with
      | node _ hfalse => exact hfalse.elim
      | nil _ =>
        cases h with
        | nil => exact yields_changed (by simp) rfl .value
        | hash hlarge _ => exact absurd hlarge not_large_nil
      | @value u =>
        cases h with
        | hash hlarge _ => exact absurd hlarge not_large_value
        | value =>
          apply Yields.pure
          by_cases huv : u = v
          · exact .inr ⟨by simp [huv], by simp [huv, Patricia.find], huv ▸ .value⟩
          · exact .inl ⟨by simp [huv], by simp [huv, Patricia.find], rfl, by simpa using .value⟩
    | cons k rest =>
      cases h with
      | nil => exact yields_changed (by simp) rfl (.short .fresh .value)
      | value =>
        cases hkey with
        | node hcan _ => exact absurd hcan Patricia.not_canonical_value
      | hash hlarge hstored =>
        cases hkey with
        | nil _ => exact absurd hlarge not_large_nil
        | node hcan hterm =>
          refine Yields.bind (yields_resolveAndTrack false hcan hfits (.inr hlarge)
            (hlarge.saved hstored) hstored) fun rn hrn => ?_
          obtain ⟨hrep, hloaded⟩ := hrn
          refine Yields.bind (ih hrep (.node hcan hterm) htop hfits
            (hfuel.loaded hloaded)) fun r hr => ?_
          exact hr.lift id hrep
      | @full _ flags children c hflags hval =>
        cases hkey with
        | node hcan hterm =>
          refine Yields.bind (ih (hval k) (hcan.aligned_full hterm) (by simp) (hfits.of_full k)
            (hfuel.below (by simp))) fun r hr => ?_
          exact hr.lift (fun h => ⟨rfl, .full .fresh (represents_update hval h.2)⟩)
            (.full hflags hval)
      | @short _ nkey flags val t hflags hval =>
        cases hkey with
        | node hcan hterm =>
          rcases Patricia.word_cases nkey hterm hcan.key_cases with
            ⟨r, hr⟩ | ⟨p, a, nrest, b, krest, rfl, hr, hab⟩
          · simp only [hr, Patricia.prefixLen_of_prefix, if_true, List.take_left, List.drop_left]
            rw [hr] at hterm hfuel
            refine Yields.bind (ih hval (hcan.aligned_short hterm) (by simp) hfits.of_short
              (hfuel.below (length_lt_append hcan.key_ne_nil r))) fun r' hr' => ?_
            rw [Patricia.insert_short_append _ _ _ _ hterm.ne_nil, Patricia.find_short_append]
            exact hr'.lift (fun h => ⟨rfl, .short .fresh h.2⟩) (.short hflags hval)
          · have hlen : p.length ≠ (p ++ a :: nrest).length := by simp
            have hnot : ¬ p ++ a :: nrest <+: p ++ b :: krest := by
              simp [List.cons_prefix_cons, hab.symm]
            obtain ⟨fuel, rfl⟩ : ∃ f, fuel = f + 1 :=
              Nat.exists_eq_succ_of_ne_zero (by have := hfuel.1; simp at this; omega)
            simp only [hr, Patricia.prefixLen_of_ne p hab, if_neg hlen, List.take_left,
              List.drop_left]
            refine Yields.bind yields_insert_nil fun old hold => ?_
            refine Yields.bind yields_insert_nil fun new hnew => ?_
            rw [hold, hnew, Patricia.insert_short_fork p nrest krest hab]
            have hchanged :
                Patricia.find (.short (p ++ a :: nrest) t) (p ++ b :: krest) ≠ some v := by
              rw [Patricia.find.eq_def]
              simp [hnot]
            cases p with
            | nil => exact yields_changed hchanged rfl (represents_fork hval)
            | cons d p =>
              exact yields_changed hchanged rfl (.short .fresh (represents_fork hval))

/-! ### Removal -/

theorem Represents.isNil_iff (h : Represents keccak rd top n t) :
    n.isNil = true ↔ t = .nil := by
  cases h with
  | hash hlarge _ =>
    constructor
    · intro hnil
      cases hnil
    · rintro rfl
      exact absurd hlarge not_large_nil
  | _ => simp [Node.isNil]

theorem soleLoop_some (children : Nibble → Node) (is : List Nibble) (i j : Nibble) :
    soleLoop children is (some i) = some j ↔ j = i ∧ ∀ k ∈ is, (children k).isNil = true := by
  induction is with
  | nil =>
    rw [soleLoop, Option.some.injEq, eq_comm]
    simp
  | cons k is ih =>
    rw [soleLoop]
    split
    · next hk => simp [ih, hk]
    · next hk => simp [hk]

theorem soleLoop_none (children : Nibble → Node) (is : List Nibble) (hnodup : is.Nodup)
    (i : Nibble) :
    soleLoop children is none = some i ↔ i ∈ is ∧ (children i).isNil = false ∧
      ∀ k ∈ is, (children k).isNil = false → k = i := by
  induction is with
  | nil => simp [soleLoop]
  | cons k is ih =>
    rw [List.nodup_cons] at hnodup
    rw [soleLoop]
    split
    · next hk =>
      rw [ih hnodup.2]
      grind
    · next hk =>
      -- A second child that is left would come later, and the loop has not met it yet.
      rw [soleLoop_some]
      grind

/-- The loop finds the only child that is left. -/
theorem soleLoop_eq_sole {children : Nibble → Node} {c : Nibble → Tree}
    (h : ∀ i, Represents keccak rd false (children i) (c i)) :
    soleLoop children (List.finRange 17) none = Patricia.sole c := by
  have hnil : ∀ i, (children i).isNil = false ↔ c i ≠ .nil := fun i => by
    rw [← Bool.not_eq_true, (h i).isNil_iff]
  apply Option.ext
  intro i
  rw [soleLoop_none _ _ (List.nodup_finRange 17), Patricia.sole_eq_some_iff]
  simp [hnil]

theorem Fits.erase (hfits : Fits t) (hkey : Aligned terminator t key) :
    Fits (Patricia.erase t key) := by
  intro w v hw
  rw [(Patricia.erase_spec hkey).2] at hw
  split at hw
  · cases hw
  · exact hfits w v hw

theorem yields_resolve (h : Represents keccak rd false n t) (hcan : Canonical terminator t)
    (hfits : Fits t) :
    Yields (resolve rd n path) fun m =>
      Represents keccak rd false m t ∧ m.isHash = false := by
  cases h with
  | hash hlarge hstored =>
    obtain ⟨m, hrun, hrep, hm⟩ := yields_resolveAndTrack false hcan hfits (.inr hlarge)
      (hlarge.saved hstored) hstored
    exact ⟨m, hrun, hrep, hm⟩
  | nil => exact Yields.pure ⟨.nil, rfl⟩
  | value => exact Yields.pure ⟨.value, rfl⟩
  | short hflags hval => exact Yields.pure ⟨.short hflags hval, rfl⟩
  | full hflags hval => exact Yields.pure ⟨.full hflags hval, rfl⟩

/-- A branch without the child that was removed. -/
theorem yields_reduceFull {children : Nibble → Node} {c : Nibble → Tree} {changed : Prop}
    (h : ∀ i, Represents keccak rd false (children i) (c i))
    (hchild : ∀ i, i ≠ terminator → c i ≠ .nil → Canonical terminator (c i))
    (hterm : c terminator = .nil ∨ ∃ v, c terminator = .value v) (hfits : ∀ i, Fits (c i))
    (hc : changed) :
    Yields (reduceFull rd children path)
      (Updated keccak rd top t (Patricia.reduce c) changed) := by
  rw [reduceFull, soleLoop_eq_sole h, Patricia.reduce]
  cases hsole : Patricia.sole c with
  | none => exact yields_changed hc rfl (.full .fresh h)
  | some pos =>
    have hne := (Patricia.sole_eq_some_iff.mp hsole).1
    simp only
    by_cases hpos : pos = terminator
    · obtain ⟨v, hv⟩ := hterm.resolve_left (hpos ▸ hne)
      have hpos' := h pos
      rw [if_neg (by simp [hpos])]
      rw [hpos, hv] at hpos' ⊢
      exact yields_changed hc rfl (.short .fresh hpos')
    · rw [if_pos hpos]
      have hcan := hchild pos hpos hne
      refine Yields.bind (yields_resolve (h pos) hcan (hfits pos)) fun m hm => ?_
      obtain ⟨hrep, hm⟩ := hm
      have hpos' := h pos
      generalize c pos = s at hrep hcan hpos'
      cases hrep with
      | nil => exact absurd hcan Patricia.not_canonical_nil
      | value => exact absurd hcan Patricia.not_canonical_value
      | hash => cases hm
      | short _ hval => exact yields_changed hc rfl (.short .fresh hval)
      | full _ _ => exact yields_changed hc rfl (.short .fresh hpos')

/-- **Removal**: the new node stands for the contents without the key. -/
theorem yields_delete (fuel : ℕ) (h : Represents keccak rd top n t)
    (hkey : Aligned terminator t key) (hfits : Fits t) (hfuel : Enough fuel n key) :
    Yields (delete rd fuel n path key) (Updated keccak rd top t (Patricia.erase t key)
      (Patricia.find t key ≠ none)) := by
  induction fuel generalizing n path key t top with
  | zero => exact absurd hfuel.1 (by omega)
  | succ fuel ih =>
    rw [delete.eq_def]
    cases h with
    | nil => exact yields_same (by simp) .nil
    | value =>
      cases hkey with
      | node hcan _ => exact absurd hcan Patricia.not_canonical_value
      | value => exact yields_changed (by simp [Patricia.find]) rfl .nil
    | hash hlarge hstored =>
      cases hkey with
      | nil _ => exact absurd hlarge not_large_nil
      | value => exact absurd hlarge not_large_value
      | node hcan hterm =>
        refine Yields.bind (yields_resolveAndTrack false hcan hfits (.inr hlarge)
          (hlarge.saved hstored) hstored) fun rn hrn => ?_
        obtain ⟨hrep, hloaded⟩ := hrn
        refine Yields.bind (ih hrep (.node hcan hterm) hfits
          (hfuel.loaded hloaded)) fun r hr => ?_
        exact hr.lift id hrep
    | @full _ flags children c hflags hval =>
      cases hkey with
      | node hcan hterm =>
        cases key with
        | nil => exact absurd rfl hterm.ne_nil
        | cons k rest =>
          have hal := hcan.aligned_full hterm
          have hfits' := hfits.of_full
          refine Yields.bind (ih (hval k) hal (hfits' k) (hfuel.below (by simp))) fun r hr => ?_
          rcases hr with ⟨hr, hchanged, -, hrep⟩ | ⟨hr, hsame, -⟩
          · obtain ⟨hchild, hterm'⟩ := hcan.children_update hterm (Patricia.erase_spec hal).1
            have hval' := represents_update (i := k) hval hrep
            rw [if_pos hr]
            split
            · refine yields_reduceFull hval' hchild hterm' (fun i => ?_) hchanged
              by_cases hi : i = k
              · rw [hi, Function.update_self]
                exact (hfits' k).erase hal
              · rw [Function.update_of_ne hi]
                exact hfits' i
            · next hnil =>
              rw [hrep.isNil_iff] at hnil
              rw [Patricia.erase, hcan.reduce_update hnil]
              exact yields_changed hchanged rfl (.full .fresh hval')
          · rw [if_neg (by simp [hr])]
            exact yields_same hsame (.full hflags hval)
    | @short _ nkey flags val t hflags hval =>
      cases hkey with
      | node hcan hterm =>
        rcases Patricia.word_cases nkey hterm hcan.key_cases with
          ⟨r, rfl⟩ | ⟨p, a, nrest, b, krest, rfl, rfl, hab⟩
        · simp only [Patricia.prefixLen_of_prefix, lt_irrefl, if_false, List.take_left,
            List.drop_left]
          rw [Patricia.erase_short_append, Patricia.find_short_append]
          cases hcan with
          | @leaf _ v hleaf =>
            rw [hleaf.eq_nil_of_append hterm, List.append_nil, if_pos rfl]
            exact yields_changed (by simp [Patricia.find]) rfl .nil
          | @extension _ c hne hext hfull =>
            have hr := (Patricia.terminated_append hext).mp hterm
            have hal : Aligned terminator (.full c) r := .node hfull hr
            have hspec := Patricia.erase_spec hal
            have hcan' := hspec.1.canonical hr (hfull.ne_nil_of_erase hspec.2)
            rw [if_neg (by simpa using hr.ne_nil)]
            refine Yields.bind (ih hval hal hfits.of_short
              (hfuel.below (length_lt_append hne r))) fun r' hr' => ?_
            obtain ⟨dirty, child⟩ := r'
            rcases hr' with ⟨hdirty, hchanged, hm, hrep⟩ | ⟨hdirty, hsame, -⟩
            · rw [if_pos hdirty]
              generalize Patricia.erase (.full c) r = s at hrep hcan'
              cases hrep with
              | nil => exact absurd hcan' Patricia.not_canonical_nil
              | value => exact absurd hcan' Patricia.not_canonical_value
              | hash => cases hm
              | short _ hval' =>
                exact yields_changed hchanged rfl (.short .fresh hval')
              | full hflags' hval' =>
                exact yields_changed hchanged rfl (.short .fresh (.full hflags' hval'))
            · rw [if_neg (by simpa using hdirty)]
              exact yields_same hsame (.short hflags hval)
        · have hnot : ¬ p ++ a :: nrest <+: p ++ b :: krest := by
            simp [List.cons_prefix_cons, hab.symm]
          have hlt : p.length < (p ++ a :: nrest).length := by simp
          simp only [Patricia.prefixLen_of_ne p hab, if_pos hlt]
          rw [Patricia.erase_short_of_apart _ hnot]
          refine yields_same ?_ (.short hflags hval)
          rw [Patricia.find.eq_def]
          simp [hnot]

end Aster.Trie
