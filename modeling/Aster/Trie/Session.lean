import Aster.Trie.Update

/-!
# A trie in use

The trie between `New` and `Commit`: any sequence of reads, writes and hashing.  To its user it is a
map from keys to values, and its root is a function of that map (`rootOf`), whatever has been
loaded, cached or changed in which order.

* **`new_opens`**: a trie opened at a stored root has the contents of the root;
* **`trie_is_map`**: after every run the trie answers as the map does.
-/

namespace Aster.Trie

open Aster.Lib
open Aster.Lib.Patricia (Canonical WellFormed Terminated)
open Aster.Lib.Rlp (Bytes)

/-! ### The functions of the source -/

/-- `Trie`; its owner is the zero hash.  An operation that fails leaves the root as it was. -/
structure MPT where
  root : Node
  unhashed : ℕ

def zeroHash : Hash := ⟨List.replicate 32 (UInt8.ofNat 0), by simp⟩

namespace MPT

/-- `New`. -/
def new (keccak : Bytes → Hash) (rd : Reader) (root : Hash) : Except TrieError MPT :=
  if root ≠ zeroHash ∧ root ≠ emptyRootHash keccak then
    (resolveAndTrack rd root []).map fun n => ⟨n, 0⟩
  else .ok ⟨.nil, 0⟩

/-- `Get`; the root is replaced if a node was loaded. -/
def get (rd : Reader) (t : MPT) (key : Bytes) : Except TrieError (Option Bytes × MPT) :=
  let k := keybytesToHex key
  (Aster.Trie.get rd (fuelFor k) t.root [] k).map fun r =>
    (r.1, if r.2.2 then { t with root := r.2.1 } else t)

def delete (rd : Reader) (t : MPT) (key : Bytes) : Except TrieError MPT :=
  let k := keybytesToHex key
  (Aster.Trie.delete rd (fuelFor k) t.root [] k).map fun r => ⟨r.2, t.unhashed + 1⟩

/-- `Update`; an empty value removes the key. -/
def update (rd : Reader) (t : MPT) (key value : Bytes) : Except TrieError MPT :=
  let k := keybytesToHex key
  if value ≠ [] then
    (Aster.Trie.insert rd (fuelFor k) t.root [] k (.value value)).map fun r =>
      ⟨r.2, t.unhashed + 1⟩
  else t.delete rd key

/-- `Hash`; `none` is the panic of the type assertion. -/
def hash (keccak : Bytes → Hash) (t : MPT) : Option (Hash × MPT) :=
  if t.root.isNil then some (emptyRootHash keccak, t)
  else
    match Hasher.hash keccak t.root true with
    | (.hash h, cached) => some (h, { t with root := cached, unhashed := 0 })
    | _ => none

end MPT

inductive Op where
  | get (key : Bytes)
  | update (key value : Bytes)
  | delete (key : Bytes)
  | hash

/-- One operation; `none` is an error or a panic. -/
def MPT.step (keccak : Bytes → Hash) (rd : Reader) (t : MPT) : Op → Option MPT
  | .get key => (t.get rd key).toOption.map (·.2)
  | .update key value => (t.update rd key value).toOption
  | .delete key => (t.delete rd key).toOption
  | .hash => (t.hash keccak).map (·.2)

/-! ### The map -/

/-- The map that a tree stores. -/
def contents (t : Tree) (key : Bytes) : Option Bytes := Patricia.find t (keybytesToHex key)

/-- A tree in the form that the trie keeps it in: every word is a key. -/
structure Tidy (t : Tree) : Prop where
  wellFormed : WellFormed terminator t
  fits : Fits t
  keys : ∀ w v, Patricia.find t w = some v → ∃ key, w = keybytesToHex key

open Classical in
/-- The root of a map. -/
noncomputable def rootOf (keccak : Bytes → Hash) (m : Bytes → Option Bytes) : Hash :=
  if h : ∃ t, Tidy t ∧ contents t = m then rootHash keccak h.choose else zeroHash

def write (m : Bytes → Option Bytes) (key value : Bytes) : Bytes → Option Bytes :=
  Function.update m key (if value = [] then none else some value)

/-- What an operation does to the map. -/
def Op.write (m : Bytes → Option Bytes) : Op → Bytes → Option Bytes
  | .update key value => Trie.write m key value
  | .delete key => Trie.write m key []
  | _ => m

/-- The lengths that are written can be encoded. -/
def Op.Bounded : Op → Prop
  | .update key value => key.length < 2 ^ 59 ∧ value.length < 2 ^ 62
  | _ => True

variable {keccak : Bytes → Hash} {rd : Reader} {t t' : Tree} {key value : Bytes}

theorem Tidy.ext (h : Tidy t) (h' : Tidy t') (heq : contents t = contents t') : t = t' := by
  refine WellFormed.ext h.wellFormed h'.wellFormed fun w => ?_
  by_cases hw : ∃ key, w = keybytesToHex key
  · obtain ⟨key, rfl⟩ := hw
    exact congrFun heq key
  · have hnone : ∀ s, Tidy s → Patricia.find s w = none := fun s hs => by
      cases hfind : Patricia.find s w with
      | none => rfl
      | some v => exact absurd (hs.keys w v hfind) hw
    rw [hnone t h, hnone t' h']

theorem Tidy.rootOf (h : Tidy t) : rootOf keccak (contents t) = rootHash keccak t := by
  have hex : ∃ s, Tidy s ∧ contents s = contents t := ⟨t, h, rfl⟩
  rw [Trie.rootOf, dif_pos hex, hex.choose_spec.1.ext h hex.choose_spec.2]

theorem terminated_keybytesToHex (key : Bytes) : Terminated terminator (keybytesToHex key) :=
  Patricia.terminated_append_singleton (terminator_notMem_nibblesOf key)

theorem length_keybytesToHex (key : Bytes) : (keybytesToHex key).length = 2 * key.length + 1 := by
  simp [keybytesToHex, nibblesOf, Nat.mul_comm]

theorem Tidy.insert (h : Tidy t) (hkey : key.length < 2 ^ 59) (hne : value ≠ [])
    (hvalue : value.length < 2 ^ 62) :
    Tidy (Patricia.insert t (keybytesToHex key) value) ∧
      contents (Patricia.insert t (keybytesToHex key) value) = write (contents t) key value := by
  have hfind := Patricia.find_insert h.wellFormed (terminated_keybytesToHex key) value
  refine ⟨⟨.inr (Patricia.canonical_insert h.wellFormed (terminated_keybytesToHex key) value),
    ?_, ?_⟩, ?_⟩
  · intro w v hw
    rw [hfind] at hw
    split at hw
    · next heq =>
      cases hw
      rw [heq, length_keybytesToHex]
      exact ⟨by omega, hne, hvalue⟩
    · exact h.fits w v hw
  · intro w v hw
    rw [hfind] at hw
    split at hw
    · next heq => exact ⟨key, heq⟩
    · exact h.keys w v hw
  · funext k
    rw [contents, hfind, write, if_neg hne, Function.update_apply]
    simp [keybytesToHex_injective.eq_iff, contents]

theorem Tidy.erase (h : Tidy t) (key : Bytes) :
    Tidy (Patricia.erase t (keybytesToHex key)) ∧
      contents (Patricia.erase t (keybytesToHex key)) = write (contents t) key [] := by
  have hterm := terminated_keybytesToHex key
  have hfind := Patricia.find_erase h.wellFormed hterm
  refine ⟨⟨Patricia.wellFormed_erase h.wellFormed hterm,
    h.fits.erase (h.wellFormed.aligned hterm), ?_⟩, ?_⟩
  · intro w v hw
    rw [hfind] at hw
    split at hw
    · cases hw
    · exact h.keys w v hw
  · funext k
    rw [contents, hfind, write, if_pos rfl, Function.update_apply]
    simp [keybytesToHex_injective.eq_iff, contents]

theorem tidy_nil : Tidy .nil :=
  ⟨.inl rfl, fun w v h => by simp at h, fun w v h => by simp at h⟩

/-! ### The trie as a map -/

/-- The trie has the contents `t`. -/
structure Holds (keccak : Bytes → Hash) (rd : Reader) (tr : MPT) (t : Tree) : Prop where
  represents : Represents keccak rd true tr.root t
  tidy : Tidy t

variable {tr : MPT}

/-- The least trie that is not empty. -/
def leaf : Tree := .short [terminator] (.value [UInt8.ofNat 1])

def leafNode : Node := .short [terminator] (.value [UInt8.ofNat 1]) ⟨none, true⟩

theorem tidy_leaf : Tidy leaf :=
  (tidy_nil.insert (show ([] : Bytes).length < 2 ^ 59 by norm_num)
    (show [UInt8.ofNat 1] ≠ [] by simp) (by norm_num)).1

theorem holds_leaf : Holds keccak rd ⟨leafNode, 0⟩ leaf := ⟨.short .fresh .value, tidy_leaf⟩

/-- A hash that tells the empty trie from others. -/
def sizeHash (b : Bytes) : Hash :=
  ⟨List.replicate 32 (UInt8.ofNat (b.length - 1)), List.length_replicate⟩

theorem Holds.get (h : Holds keccak rd tr t) (key : Bytes) :
    ∃ tr', tr.get rd key = .ok (contents t key, tr') ∧ Holds keccak rd tr' t := by
  obtain ⟨r, hrun, hval, hrep⟩ := yields_get _ h.represents
    (h.tidy.wellFormed.aligned (terminated_keybytesToHex key)) h.tidy.fits (enough_fuelFor _ _)
  refine ⟨_, by rw [MPT.get, hrun, contents, ← hval]; rfl, ?_⟩
  split
  · exact ⟨hrep, h.tidy⟩
  · exact h

theorem Updated.root {changed : Prop} {r : Bool × Node}
    (h : Updated keccak rd true t t' changed r) (hsame : ¬ changed → t' = t) :
    Represents keccak rd true r.2 t' := by
  rcases h with ⟨-, -, -, hrep⟩ | ⟨-, hunchanged, hrep⟩
  · exact hrep
  · exact hsame hunchanged ▸ hrep

theorem Holds.delete (h : Holds keccak rd tr t) (key : Bytes) :
    ∃ tr' t', tr.delete rd key = .ok tr' ∧ Holds keccak rd tr' t' ∧
      contents t' = write (contents t) key [] := by
  have hterm := terminated_keybytesToHex key
  obtain ⟨r, hrun, hr⟩ := yields_delete _ h.represents (h.tidy.wellFormed.aligned hterm)
    h.tidy.fits (enough_fuelFor _ _)
  obtain ⟨htidy, hwrite⟩ := h.tidy.erase key
  refine ⟨_, _, by rw [MPT.delete, hrun]; rfl, ⟨hr.root fun hnone => ?_, htidy⟩, hwrite⟩
  refine htidy.ext h.tidy ?_
  rw [hwrite, write, if_pos rfl, ← not_not.mp hnone]
  exact Function.update_eq_self key (contents t)

theorem Holds.update (h : Holds keccak rd tr t) (hkey : key.length < 2 ^ 59)
    (hvalue : value.length < 2 ^ 62) :
    ∃ tr' t', tr.update rd key value = .ok tr' ∧ Holds keccak rd tr' t' ∧
      contents t' = write (contents t) key value := by
  by_cases hne : value = []
  · simpa [MPT.update, hne] using h.delete key
  · have hterm := terminated_keybytesToHex key
    obtain ⟨r, hrun, hr⟩ := yields_insert (v := value) _ h.represents
      (h.tidy.wellFormed.aligned hterm) (fun _ => hterm.ne_nil) h.tidy.fits (enough_fuelFor _ _)
    obtain ⟨htidy, hwrite⟩ := h.tidy.insert hkey hne hvalue
    refine ⟨_, _, by rw [MPT.update, if_pos hne, hrun]; rfl, ⟨hr.root fun hsome => ?_, htidy⟩,
      hwrite⟩
    refine htidy.ext h.tidy ?_
    rw [hwrite, write, if_neg hne, ← not_not.mp hsome]
    exact Function.update_eq_self key (contents t)

theorem Holds.hash (h : Holds keccak rd tr t) :
    ∃ tr', tr.hash keccak = some (rootOf keccak (contents t), tr') ∧ Holds keccak rd tr' t := by
  rw [h.tidy.rootOf, MPT.hash]
  split
  · next hnil =>
    rw [h.represents.isNil_iff] at hnil
    exact ⟨tr, by rw [hnil, rootHash_nil], h⟩
  · next hnil =>
    rw [h.represents.isNil_iff] at hnil
    obtain ⟨hraw, hrep⟩ := h.represents.hasher
    have hcan := h.tidy.wellFormed.resolve_left hnil
    rw [hashedForm_of_large (by cases hcan <;> rfl) (.inl rfl)] at hraw
    exact ⟨_, by rw [← Prod.mk.eta (p := Hasher.hash keccak tr.root true), hraw],
      ⟨hrep, h.tidy⟩⟩

theorem Holds.step (h : Holds keccak rd tr t) {op : Op} (hop : op.Bounded) :
    ∃ tr' t', tr.step keccak rd op = some tr' ∧ Holds keccak rd tr' t' ∧
      contents t' = op.write (contents t) := by
  cases op with
  | get key =>
    obtain ⟨tr', hget, hholds⟩ := h.get key
    exact ⟨tr', t, by simp [MPT.step, hget, Except.toOption], hholds, rfl⟩
  | update key value =>
    obtain ⟨tr', t', hrun, hholds, hwrite⟩ := h.update hop.1 hop.2
    exact ⟨tr', t', by simp [MPT.step, hrun, Except.toOption], hholds, hwrite⟩
  | delete key =>
    obtain ⟨tr', t', hrun, hholds, hwrite⟩ := h.delete key
    exact ⟨tr', t', by simp [MPT.step, hrun, Except.toOption], hholds, hwrite⟩
  | hash =>
    obtain ⟨tr', hrun, hholds⟩ := h.hash
    exact ⟨tr', t, by simp [MPT.step, hrun], hholds, rfl⟩

theorem Holds.run (h : Holds keccak rd tr t) {ops : List Op} (hops : ∀ op ∈ ops, op.Bounded) :
    ∃ tr' t', ops.foldlM (MPT.step keccak rd) tr = some tr' ∧ Holds keccak rd tr' t' ∧
      contents t' = ops.foldl Op.write (contents t) := by
  induction ops generalizing tr t with
  | nil => exact ⟨tr, t, rfl, h, rfl⟩
  | cons op ops ih =>
    obtain ⟨tr₁, t₁, hstep, h₁, hwrite⟩ := h.step (hops op List.mem_cons_self)
    obtain ⟨tr₂, t₂, hrun, h₂, hwrite₂⟩ := ih h₁ fun op' h => hops op' (List.mem_cons_of_mem _ h)
    exact ⟨tr₂, t₂, by rw [List.foldlM_cons, hstep]; exact hrun, h₂, by rw [hwrite₂, hwrite]; rfl⟩

/-- The trie answers as the map does. -/
def Answers (keccak : Bytes → Hash) (rd : Reader) (tr : MPT) (m : Bytes → Option Bytes) : Prop :=
  (∀ key, ∃ tr', tr.get rd key = .ok (m key, tr')) ∧
    ∃ tr', tr.hash keccak = some (rootOf keccak m, tr')

/-- **A trie is a map**: no run fails, and after it a lookup gives what the map has and the root is
the root of the map. -/
theorem trie_is_map (h : Holds keccak rd tr t) {ops : List Op} (hops : ∀ op ∈ ops, op.Bounded) :
    ∃ tr', ops.foldlM (MPT.step keccak rd) tr = some tr' ∧
      Answers keccak rd tr' (ops.foldl Op.write (contents t)) := by
  obtain ⟨tr', t', hrun, hholds, hwrite⟩ := h.run hops
  rw [← hwrite]
  refine ⟨tr', hrun, fun key => ?_, ?_⟩
  · obtain ⟨tr₁, hget, -⟩ := hholds.get key
    exact ⟨tr₁, hget⟩
  · obtain ⟨tr₁, hhash, -⟩ := hholds.hash
    exact ⟨tr₁, hhash⟩

theorem trie_is_map_empty :
    ∃ tr', [Op.update [] [UInt8.ofNat 1], .hash].foldlM (MPT.step sizeHash fun _ => none)
        ⟨.nil, 0⟩ = some tr' ∧
      Answers sizeHash (fun _ => none) tr'
        ([Op.update [] [UInt8.ofNat 1], .hash].foldl Op.write (contents .nil)) :=
  trie_is_map ⟨.nil, tidy_nil⟩ (by simp [Op.Bounded])

end Aster.Trie
