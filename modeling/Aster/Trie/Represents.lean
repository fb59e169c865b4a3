import Aster.Trie.Hasher

/-!
# Nodes in memory and the contents they stand for

A trie is opened at a root in the store and loads its nodes when it first needs them.  So a node in
memory stands for a tree in part through hashes: what is behind a hash is in the store, and a hash
in the flags is the hash of the contents.

* **`Represents.hasher`**: the hasher computes the hash of the contents, whatever was cached.
* **`represents_expand`**: a node read from the store represents its tree.
-/

namespace Aster.Trie

open Aster.Lib
open Aster.Lib.Patricia (Canonical)
open Aster.Lib.Rlp (Bytes)

/-- The blob of a node by its hash.  The path and the owner are not used by the store. -/
abbrev Reader := Hash → Option Bytes

def Node.isHash : Node → Bool
  | .hash _ => true
  | _ => false

variable (keccak : Bytes → Hash)

def Saved (rd : Reader) (t : Tree) : Prop := rd (rootHash keccak t) = some (encoding keccak t)

/-- Every node of the tree that is not a part of its parent is in the store. -/
def Stored (rd : Reader) : Tree → Prop
  | .short key t => (Large keccak (.short key t) → Saved keccak rd (.short key t)) ∧ Stored rd t
  | .full c => (Large keccak (.full c) → Saved keccak rd (.full c)) ∧ ∀ i, Stored rd (c i)
  | _ => True

/-- A hash in the flags is right; `top` marks the root, which always has a hash. -/
def FlagOk (top : Bool) (t : Tree) (flags : NodeFlag) : Prop :=
  ∀ h, flags.hash = some h → h = rootHash keccak t ∧ (top = true ∨ Large keccak t)

/-- The node stands for the tree. -/
inductive Represents (rd : Reader) : Bool → Node → Tree → Prop
  | nil {top : Bool} : Represents rd top .nil .nil
  | value {v : Bytes} : Represents rd false (.value v) (.value v)
  | hash {t : Tree} (hlarge : Large keccak t) (hstored : Stored keccak rd t) :
      Represents rd false (.hash (rootHash keccak t)) t
  | short {top : Bool} {key : Hex} {flags : NodeFlag} {val : Node} {t : Tree}
      (hflags : FlagOk keccak top (.short key t) flags) (hval : Represents rd false val t) :
      Represents rd top (.short key val flags) (.short key t)
  | full {top : Bool} {flags : NodeFlag} {children : Nibble → Node} {c : Nibble → Tree}
      (hflags : FlagOk keccak top (.full c) flags)
      (hval : ∀ i, Represents rd false (children i) (c i)) :
      Represents rd top (.full children flags) (.full c)

variable {keccak} {rd : Reader} {t : Tree} {top : Bool} {n : Node}

theorem FlagOk.fresh : FlagOk keccak top t ⟨none, true⟩ := fun h hh => by cases hh

theorem Large.saved (h : Large keccak t) (hstored : Stored keccak rd t) : Saved keccak rd t := by
  cases t with
  | nil => exact absurd h not_large_nil
  | value v => exact absurd h not_large_value
  | short key t => exact hstored.1 h
  | full c => exact hstored.1 h

/-! ### Hashing -/

theorem hash?_collapse (t : Tree) : (collapse keccak t).hash? = none := by cases t <;> rfl

/-- The flags after the node has been hashed. -/
theorem FlagOk.hash (hnode : (collapse keccak t).isNode = true) (dirty : Bool) :
    FlagOk keccak top t ⟨(nodeToHash keccak (collapse keccak t) top).hash?, dirty⟩ := by
  rw [nodeToHash_collapse hnode]
  intro h hh
  split at hh
  · next hlarge =>
    cases hh
    exact ⟨rfl, hlarge⟩
  · cases (hash?_collapse t).symm.trans hh

/-- What the hasher returns for a tree. -/
def hashedForm (keccak : Bytes → Hash) (top : Bool) (t : Tree) : Raw :=
  if (collapse keccak t).isNode then nodeToHash keccak (collapse keccak t) top
  else collapse keccak t

theorem hashedForm_of_large (hnode : (collapse keccak t).isNode = true)
    (h : top = true ∨ Large keccak t) : hashedForm keccak top t = .hash (rootHash keccak t) := by
  rw [hashedForm, if_pos hnode, nodeToHash_collapse hnode, if_pos h]

theorem collapse_short {val : Node} {key : Hex}
    (h : (Hasher.hash keccak val false).1 = hashedForm keccak false t) :
    Raw.short (hexToCompact key) (Hasher.hash keccak val false).1 =
      collapse keccak (.short key t) := by
  rw [h]
  rfl

theorem collapse_full {children : Nibble → Node} {c : Nibble → Tree}
    (h : ∀ i, (Hasher.hash keccak (children i) false).1 = hashedForm keccak false (c i)) :
    Raw.full (fun i => (Hasher.hash keccak (children i) false).1) = collapse keccak (.full c) := by
  simp only [h]
  rfl

/-- **The hasher computes the hash of the contents**, whatever has been cached before, and the node
it returns stands for the same contents. -/
theorem Represents.hasher (h : Represents keccak rd top n t) :
    (Hasher.hash keccak n top).1 = hashedForm keccak top t ∧
      Represents keccak rd top (Hasher.hash keccak n top).2 t := by
  induction h with
  | nil => exact ⟨rfl, .nil⟩
  | value => exact ⟨rfl, .value⟩
  | hash hlarge hstored =>
    exact ⟨(hashedForm_of_large hlarge.1 (.inr hlarge)).symm, .hash hlarge hstored⟩
  | @short top key flags val t hflags hval ih =>
    obtain ⟨hash, dirty⟩ := flags
    cases hash with
    | some h =>
      obtain ⟨rfl, hlarge⟩ := hflags h rfl
      exact ⟨(hashedForm_of_large rfl hlarge).symm, .short hflags hval⟩
    | none =>
      simp only [Hasher.hash, collapse_short ih.1]
      exact ⟨rfl, .short (.hash rfl dirty) ih.2⟩
  | @full top flags children c hflags hval ih =>
    obtain ⟨hash, dirty⟩ := flags
    cases hash with
    | some h =>
      obtain ⟨rfl, hlarge⟩ := hflags h rfl
      exact ⟨(hashedForm_of_large rfl hlarge).symm, .full hflags hval⟩
    | none =>
      simp only [Hasher.hash, collapse_full fun i => (ih i).1]
      exact ⟨rfl, .full (.hash rfl dirty) fun i => (ih i).2⟩

/-- A node as it goes into a proof. -/
theorem Represents.proofHash (h : Represents keccak rd top n t) (hn : n.isHash = false) :
    Hasher.proofHash keccak n = (collapse keccak t, reference keccak (collapse keccak t)) := by
  cases h with
  | nil => rfl
  | value => rfl
  | hash => cases hn
  | short _ hval =>
    rw [Hasher.proofHash, collapse_short hval.hasher.1]
    rfl
  | full _ hval =>
    rw [Hasher.proofHash, collapse_full fun i => (hval i).hasher.1]
    rfl

/-! ### Loading -/

/-- A child that was read with its parent. -/
theorem represents_reference (hstored : Stored keccak rd t)
    (hsmall : (collapse keccak t).isNode = true →
      Represents keccak rd false (expandNode none (collapse keccak t)) t) :
    Represents keccak rd false (expandNode none (reference keccak (collapse keccak t))) t := by
  by_cases hlarge : Large keccak t
  · rw [reference_of_large hlarge]
    exact .hash hlarge hstored
  · rw [reference_of_not_large hlarge]
    cases t with
    | nil => exact .nil
    | value v => exact .value
    | short key t => exact hsmall rfl
    | full c => exact hsmall rfl

/-- **A node read from the store represents its tree.** -/
theorem represents_expand (h : Canonical terminator t) (hstored : Stored keccak rd t)
    {hash : Option Hash} (hflags : FlagOk keccak top t ⟨hash, false⟩) :
    Represents keccak rd top (expandNode hash (collapse keccak t)) t := by
  induction h generalizing top hash with
  | @leaf key v hkey =>
    rw [collapse, expandNode, compactToHex_hexToCompact (.inr hkey)]
    exact .short hflags .value
  | @extension key c hne hkey hval ih =>
    rw [collapse, expandNode, compactToHex_hexToCompact (.inl hkey)]
    refine .short hflags (represents_reference hstored.2 fun _ => ?_)
    exact ih hstored.2 fun h hh => by cases hh
  | @full c hchild hterm htwo ih =>
    refine .full hflags fun i => represents_reference (hstored.2 i) fun hnode => ?_
    have hi : i ≠ terminator := by
      rintro rfl
      rcases hterm with hnil | ⟨v, hv⟩
      · rw [hnil] at hnode
        cases hnode
      · rw [hv] at hnode
        cases hnode
    have hnil : c i ≠ .nil := by
      intro hnil
      rw [hnil] at hnode
      cases hnode
    exact ih i hi hnil (hstored.2 i) fun h hh => by cases hh

end Aster.Trie
