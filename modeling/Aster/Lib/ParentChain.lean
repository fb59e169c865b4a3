import Mathlib.Data.List.Infix
import Mathlib.Data.List.Range
import Mathlib.Tactic

/-!
# Chains of parent links in a store

A store gives for a key the node that is filed under it.  Every node has a key of its own and
the key of its parent.  `Linked get key parent root bs` says that `bs` lists the nodes that are
met on the way from its head to `root`, each of them filed under its own key.

A store that changes keeps a chain as long as it still gives the same answers at the keys of the
chain; this is all that has to be shown of an update.
-/

namespace Aster.Lib.ParentChain

variable {K B : Type*}

/-- The nodes from the head of the list down to `root`. -/
inductive Linked (get : K → Option B) (key parent : B → K) (root : B) : List B → Prop
  | base : get (key root) = some root → Linked get key parent root [root]
  | cons {b p : B} {bs : List B} : get (key b) = some b → parent b = key p →
      Linked get key parent root (p :: bs) → Linked get key parent root (b :: p :: bs)

/-- Follow `n` parent links from the node under `k`. -/
def ascend (get : K → Option B) (parent : B → K) : ℕ → K → Option B
  | 0, k => get k
  | n + 1, k => (get k).bind fun b => ascend get parent n (parent b)

variable {get get' : K → Option B} {key parent : B → K} {root : B} {bs : List B}

/-- Where nothing is found, nothing is found further on. -/
theorem ascend_none_of_le {m n : ℕ} (hle : m ≤ n) {k : K} (h : ascend get parent m k = none) :
    ascend get parent n k = none := by
  induction m generalizing n k with
  | zero =>
    have hget : get k = none := h
    cases n with
    | zero => exact hget
    | succ n => rw [ascend, hget, Option.bind_none]
  | succ m ih =>
    obtain ⟨n, rfl⟩ : ∃ i, n = i + 1 := ⟨n - 1, by omega⟩
    rw [ascend] at h ⊢
    cases hget : get k with
    | none => rfl
    | some b =>
      rw [hget] at h
      exact ih (by omega) h

namespace Linked

/-- Every node of a chain is filed under its key. -/
theorem stored (h : Linked get key parent root bs) : ∀ b ∈ bs, get (key b) = some b := by
  induction h with
  | base hroot =>
    intro b hb
    rw [List.mem_singleton.mp hb]
    exact hroot
  | cons hget _ _ ih =>
    intro b hb
    rcases List.mem_cons.mp hb with rfl | hb
    · exact hget
    · exact ih b hb

theorem getLast?_eq (h : Linked get key parent root bs) : bs.getLast? = some root := by
  induction h with
  | base _ => rfl
  | cons _ _ _ ih => rw [List.getLast?_cons_cons, ih]

/-- The way down from a node of a chain is a chain. -/
theorem drop (h : Linked get key parent root bs) {i : ℕ} (hi : i < bs.length) :
    Linked get key parent root (bs.drop i) := by
  induction h generalizing i with
  | base hroot =>
    have hzero : i = 0 := by simpa using hi
    rw [hzero]
    exact .base hroot
  | cons hget hparent hrest ih =>
    cases i with
    | zero => exact .cons hget hparent hrest
    | succ i => exact ih (by simpa using hi)

/-- A store with the same answers at the keys of a chain has this chain too. -/
theorem congr (h : Linked get key parent root bs)
    (hsame : ∀ b ∈ bs, get' (key b) = get (key b)) : Linked get' key parent root bs := by
  induction h with
  | base hroot =>
    exact .base ((hsame root (List.mem_singleton.mpr rfl)).trans hroot)
  | cons hget hparent _ ih =>
    refine .cons ((hsame _ (List.mem_cons_self ..)).trans hget) hparent (ih ?_)
    exact fun c hc => hsame c (List.mem_cons_of_mem _ hc)

/-- Put a node with a new key on top. -/
theorem push (h : Linked get key parent root bs) {b t : B} (ht : bs.head? = some t)
    (hget : get' (key b) = some b) (hparent : parent b = key t)
    (hsame : ∀ c ∈ bs, get' (key c) = get (key c)) : Linked get' key parent root (b :: bs) := by
  cases bs with
  | nil => cases ht
  | cons p bs =>
    cases ht
    exact .cons hget hparent (h.congr hsame)

/-- Parent links followed from the head lead down the chain. -/
theorem ascend_eq (h : Linked get key parent root bs) {t : B} (ht : bs.head? = some t) {i : ℕ}
    {b : B} (hb : bs[i]? = some b) : ascend get parent i (key t) = some b := by
  induction h generalizing i t with
  | base hroot =>
    cases ht
    cases i with
    | zero =>
      cases hb
      exact hroot
    | succ i => simp at hb
  | @cons c p bs hget hparent _ ih =>
    cases ht
    cases i with
    | zero =>
      cases hb
      exact hget
    | succ i =>
      rw [ascend, hget, Option.bind_some, hparent]
      exact ih rfl (by simpa using hb)

/-- Behind a root whose parent is missing nothing is found. -/
theorem ascend_past (h : Linked get key parent root bs) {t : B} (ht : bs.head? = some t)
    (hroot : get (parent root) = none) : ascend get parent bs.length (key t) = none := by
  induction h generalizing t with
  | base hget =>
    cases ht
    rw [List.length_singleton, ascend, hget, Option.bind_some]
    exact hroot
  | @cons c p bs hget hparent _ ih =>
    cases ht
    rw [List.length_cons, ascend, hget, Option.bind_some, hparent]
    exact ih rfl

/-- The node below a node of a chain is its parent. -/
theorem parent_eq (h : Linked get key parent root bs) {i : ℕ} {b p : B} (hb : bs[i]? = some b)
    (hp : bs[i + 1]? = some p) : parent b = key p := by
  induction h generalizing i with
  | base _ => simp at hp
  | @cons c q bs _ hparent _ ih =>
    cases i with
    | zero =>
      cases hb
      cases hp
      exact hparent
    | succ i => exact ih (by simpa using hb) (by simpa using hp)

end Linked

/-! ### Numbered lists -/

/-- `n - 1, ..., 1, 0` along a list of length `n`. -/
def Numbered (number : B → ℕ) (bs : List B) : Prop :=
  bs.map number = (List.range bs.length).reverse

variable {number : B → ℕ}

theorem numbered_singleton {b : B} (h : number b = 0) : Numbered number [b] := by
  simp [Numbered, h]

theorem numbered_cons {b : B} :
    Numbered number (b :: bs) ↔ number b = bs.length ∧ Numbered number bs := by
  simp [Numbered, List.range_succ]

theorem Numbered.getElem? (h : Numbered number bs) {i : ℕ} {b : B} (hb : bs[i]? = some b) :
    number b + i + 1 = bs.length := by
  induction bs generalizing i with
  | nil => simp at hb
  | cons c bs ih =>
    obtain ⟨hc, hrest⟩ := numbered_cons.mp h
    cases i with
    | zero =>
      cases hb
      rw [hc, List.length_cons]
    | succ i =>
      have hstep := ih hrest (by simpa using hb)
      rw [List.length_cons]
      omega

theorem Numbered.drop (h : Numbered number bs) (i : ℕ) : Numbered number (bs.drop i) := by
  induction bs generalizing i with
  | nil => simpa using h
  | cons c bs ih =>
    cases i with
    | zero => exact h
    | succ i => exact ih (numbered_cons.mp h).2 i

end Aster.Lib.ParentChain
