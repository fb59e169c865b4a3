import Aster.Lib.ParentChain

/-!
# Positions on a spine

A spine lists nodes from the root upwards, each with the key of the one before it as parent key.
When keys are not shared, a store that only ever takes the next node above its top holds a
beginning of the spine, so that any two such stores hold comparable chains.
-/

namespace Aster.Lib.ParentChain

variable {K B : Type*}

/-- The nodes of `bs` stand one above the other over `root`.  The parent key of the root is not
the key of a node that has another one above it. -/
structure Spine (key parent : B → K) (root : B) (bs : List B) : Prop where
  links : ∀ (i : ℕ) (a b : B), (root :: bs)[i]? = some a → bs[i]? = some b → parent b = key a
  inj : ∀ a ∈ root :: bs, ∀ b ∈ root :: bs, key a = key b → a = b
  bottom : ∀ (i : ℕ) (a : B), (root :: bs)[i]? = some a → i < bs.length → key a ≠ parent root

/-- The store holds the spine up to position `k`. -/
def Holds (get : K → Option B) (key parent : B → K) (root : B) (bs : List B) (k : ℕ) : Prop :=
  Linked get key parent root ((root :: bs).take (k + 1)).reverse

variable {get get' : K → Option B} {key parent : B → K} {root : B} {bs : List B}

/-- The top of what a store holds. -/
theorem head?_take_reverse {k : ℕ} {c : B} (hc : (root :: bs)[k]? = some c) :
    ((root :: bs).take (k + 1)).reverse.head? = some c := by
  rw [List.head?_reverse, List.take_add_one, hc]
  simp

namespace Spine

/-- Below a node of the spine stands the one with its parent key. -/
theorem below (h : Spine key parent root bs) {j : ℕ} {b : B} (hb : bs[j]? = some b) :
    ∃ a, (root :: bs)[j]? = some a ∧ parent b = key a ∧ key a ≠ parent root := by
  obtain ⟨hlt, -⟩ := List.getElem?_eq_some_iff.mp hb
  have hlt' : j < (root :: bs).length := Nat.lt_succ_of_lt hlt
  have ha := List.getElem?_eq_getElem hlt'
  exact ⟨_, ha, h.links j _ b ha hb, h.bottom j _ ha hlt⟩

/-- The root does not stand above another node. -/
theorem getElem?_ne_root (h : Spine key parent root bs) {j : ℕ} : bs[j]? ≠ some root := by
  intro hroot
  obtain ⟨a, -, hparent, hne⟩ := h.below hroot
  exact hne hparent.symm

/-- No node stands at two positions. -/
theorem index_unique (h : Spine key parent root bs) {i j : ℕ} {a : B}
    (hi : (root :: bs)[i]? = some a) (hj : (root :: bs)[j]? = some a) : i = j := by
  induction i generalizing j a with
  | zero =>
    cases j with
    | zero => rfl
    | succ j =>
      have hroot : root = a := Option.some.inj hi
      subst hroot
      exact absurd hj h.getElem?_ne_root
  | succ i ih =>
    cases j with
    | zero =>
      have hroot : root = a := Option.some.inj hj
      subst hroot
      exact absurd hi h.getElem?_ne_root
    | succ j =>
      -- the nodes below have one key, so they are one node
      obtain ⟨c, hc, hparent, -⟩ := h.below hi
      obtain ⟨c', hc', hparent', -⟩ := h.below hj
      have heq : c = c' := h.inj c (List.mem_of_getElem? hc) c' (List.mem_of_getElem? hc')
        (hparent.symm.trans hparent')
      rw [ih hc (heq ▸ hc')]

/-- A node that names the one at position `k` as its parent stands right above it. -/
theorem next_unique (h : Spine key parent root bs) {k : ℕ} {b c : B}
    (hc : (root :: bs)[k]? = some c) (hne : key c ≠ parent root) (hb : b ∈ root :: bs)
    (hparent : parent b = key c) : bs[k]? = some b := by
  rcases List.mem_cons.mp hb with rfl | hmem
  · exact absurd hparent.symm hne
  · obtain ⟨j, hj⟩ := List.mem_iff_getElem?.mp hmem
    obtain ⟨a, ha, hparent', -⟩ := h.below hj
    have heq : c = a := h.inj c (List.mem_of_getElem? hc) a (List.mem_of_getElem? ha)
      (hparent.symm.trans hparent')
    rw [h.index_unique hc (heq ▸ ha)]
    exact hj

/-- A store that takes the node above its top. -/
theorem push (h : Spine key parent root bs) {k : ℕ} {b : B}
    (hhold : Holds get key parent root bs k) (hb : bs[k]? = some b)
    (hget : get' (key b) = some b) (hsame : ∀ x, x ≠ key b → get' x = get x) :
    Holds get' key parent root bs (k + 1) := by
  obtain ⟨c, hc, hparent, -⟩ := h.below hb
  have hb' : (root :: bs)[k + 1]? = some b := hb
  have hlower := head?_take_reverse hc
  have htake : ((root :: bs).take (k + 1 + 1)).reverse =
      b :: ((root :: bs).take (k + 1)).reverse := by
    rw [List.take_add_one, hb']
    simp
  show Linked get' key parent root _
  rw [htake]
  refine Linked.push hhold hlower hget hparent ?_
  intro d hd
  refine hsame (key d) ?_
  intro hkey
  -- a node up to position `k` is not the one at `k + 1`
  obtain ⟨i, hi⟩ := List.mem_iff_getElem?.mp (List.mem_reverse.mp hd)
  obtain ⟨hlt, -⟩ := List.getElem?_eq_some_iff.mp hi
  have hik : i < k + 1 := lt_of_lt_of_le hlt (List.length_take_le _ _)
  rw [List.getElem?_take_of_lt hik] at hi
  have heq : d = b := h.inj d (List.mem_of_getElem? hi) b (List.mem_of_getElem? hb') hkey
  have hindex := h.index_unique hi (heq ▸ hb')
  omega

/-- A shorter beginning of a spine is a spine. -/
theorem of_append {more : List B} (h : Spine key parent root (bs ++ more)) :
    Spine key parent root bs := by
  have hget : ∀ (i : ℕ) (a : B), (root :: bs)[i]? = some a →
      (root :: (bs ++ more))[i]? = some a := by
    intro i a ha
    obtain ⟨hlt, -⟩ := List.getElem?_eq_some_iff.mp ha
    rw [← List.cons_append, List.getElem?_append_left hlt]
    exact ha
  have hmem : ∀ a ∈ root :: bs, a ∈ root :: (bs ++ more) := by
    intro a ha
    rw [← List.cons_append]
    exact List.mem_append_left _ ha
  constructor
  case links =>
    intro i a b ha hb
    obtain ⟨hlt, -⟩ := List.getElem?_eq_some_iff.mp hb
    exact h.links i a b (hget i a ha) (by rw [List.getElem?_append_left hlt]; exact hb)
  case inj => exact fun a ha b hb => h.inj a (hmem a ha) b (hmem b hb)
  case bottom =>
    intro i a ha hlt
    refine h.bottom i a (hget i a ha) ?_
    rw [List.length_append]
    omega

/-- One more node on top of a spine. -/
theorem snoc (h : Spine key parent root bs) {b t : B} (htop : (root :: bs)[bs.length]? = some t)
    (hparent : parent b = key t) (hne : key t ≠ parent root)
    (hinj : ∀ a ∈ root :: (bs ++ [b]), ∀ c ∈ root :: (bs ++ [b]), key a = key c → a = c) :
    Spine key parent root (bs ++ [b]) := by
  have hold : ∀ (i : ℕ) (a : B), i ≤ bs.length → (root :: (bs ++ [b]))[i]? = some a →
      (root :: bs)[i]? = some a := by
    intro i a hi ha
    rw [← List.cons_append, List.getElem?_append_left (Nat.lt_succ_of_le hi)] at ha
    exact ha
  constructor
  case links =>
    intro i a c ha hc
    obtain ⟨hlt, -⟩ := List.getElem?_eq_some_iff.mp hc
    rw [List.length_append, List.length_singleton] at hlt
    have ha' := hold i a (by omega) ha
    by_cases hi : i < bs.length
    · rw [List.getElem?_append_left hi] at hc
      exact h.links i a c ha' hc
    · have heq : i = bs.length := by omega
      subst heq
      rw [List.getElem?_concat_length] at hc
      cases hc
      rw [htop] at ha'
      cases ha'
      exact hparent
  case inj => exact hinj
  case bottom =>
    intro i a ha hlt
    rw [List.length_append, List.length_singleton] at hlt
    have ha' := hold i a (by omega) ha
    by_cases hi : i < bs.length
    · exact h.bottom i a ha' hi
    · have heq : i = bs.length := by omega
      subst heq
      rw [htop] at ha'
      cases ha'
      exact hne

end Spine

/-- The part of the spine that a store holds does not change when the spine grows. -/
theorem Holds.append {k : ℕ} (h : Holds get key parent root bs k) (hk : k ≤ bs.length)
    (more : List B) : Holds get key parent root (bs ++ more) k := by
  have htake : (root :: (bs ++ more)).take (k + 1) = (root :: bs).take (k + 1) := by
    rw [← List.cons_append, List.take_append_of_le_length (Nat.succ_le_succ hk)]
  show Linked get key parent root _
  rw [htake]
  exact h

/-- Two beginnings of one spine, top first. -/
theorem take_reverse_suffix {k k' : ℕ} (h : k ≤ k') :
    ((root :: bs).take (k + 1)).reverse <:+ ((root :: bs).take (k' + 1)).reverse :=
  List.reverse_suffix.mpr (List.take_prefix_take_left (Nat.succ_le_succ h))

end Aster.Lib.ParentChain
