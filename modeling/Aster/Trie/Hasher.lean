import Aster.Lib.Patricia.Update
import Aster.Trie.Node

/-!
# Hashing

`Hasher.hash` collapses a node bottom up.  A child whose encoding is shorter than a hash stays
inside its parent, any other is replaced by its hash; a node that has been hashed keeps the hash in
its flags, and the hasher does not look below it again.

The contents of a trie are a `Patricia.Tree`, with neither flags nor hashes.  `collapse` is what the
hasher makes of a tree when nothing is cached, and `rootHash` the hash of the whole.
-/

namespace Aster.Trie

open Aster.Lib
open Aster.Lib.Patricia (Canonical WellFormed Terminated)
open Aster.Lib.Rlp (Bytes encodeString encodeList)

/-- The contents of a trie. -/
abbrev Tree := Patricia.Tree Nibble Bytes

variable (keccak : Bytes → Hash)

/-- `types.EmptyRootHash`, the hash of the encoded empty string. -/
def emptyRootHash : Hash := keccak (encodeString [])

/-- `shortnodeToHash` and `fullnodeToHash`, which differ in the type of the node only. -/
def nodeToHash (n : Raw) (force : Bool) : Raw :=
  if n.encode.length < 32 ∧ force = false then n else .hash (keccak n.encode)

def Raw.hash? : Raw → Option Hash
  | .hash h => some h
  | _ => none

/-- The collapsed node, and the node with the computed hashes in its flags.  The last child of a
full node is a value or nothing, which the hasher leaves as it is. -/
def Hasher.hash : Node → Bool → Raw × Node
  | .short key val flags, force =>
    match flags.hash with
    | some h => (.hash h, .short key val flags)
    | none =>
      let child := Hasher.hash val false
      let hashed := nodeToHash keccak (.short (hexToCompact key) child.1) force
      (hashed, .short key child.2 ⟨hashed.hash?, flags.dirty⟩)
  | .full children flags, force =>
    match flags.hash with
    | some h => (.hash h, .full children flags)
    | none =>
      let kids := fun i => Hasher.hash (children i) false
      let hashed := nodeToHash keccak (.full fun i => (kids i).1) force
      (hashed, .full (fun i => (kids i).2) ⟨hashed.hash?, flags.dirty⟩)
  | .nil, _ => (.nil, .nil)
  | .hash h, _ => (.hash h, .hash h)
  | .value v, _ => (.value v, .value v)

/-- The collapsed node, and the node as its parent refers to it. -/
def Hasher.proofHash : Node → Raw × Raw
  | .short key val _ =>
    let sn := Raw.short (hexToCompact key) (Hasher.hash keccak val false).1
    (sn, nodeToHash keccak sn false)
  | .full children _ =>
    let fn := Raw.full fun i => (Hasher.hash keccak (children i) false).1
    (fn, nodeToHash keccak fn false)
  | .nil => (.nil, .nil)
  | .hash h => (.hash h, .hash h)
  | .value v => (.value v, .value v)

/-! ### The hash of the contents -/

/-- How a parent refers to a child. -/
def reference (r : Raw) : Raw := if r.isNode then nodeToHash keccak r false else r

/-- The tree as a collapsed node. -/
def collapse : Tree → Raw
  | .nil => .nil
  | .value v => .value v
  | .short key t => .short (hexToCompact key) (reference keccak (collapse t))
  | .full c => .full fun i => reference keccak (collapse (c i))

def encoding (t : Tree) : Bytes := (collapse keccak t).encode

def rootHash (t : Tree) : Hash := keccak (encoding keccak t)

/-- The tree is a node of its own in the store, not a part of its parent. -/
def Large (t : Tree) : Prop := (collapse keccak t).isNode = true ∧ 32 ≤ (encoding keccak t).length

instance (t : Tree) : Decidable (Large keccak t) :=
  inferInstanceAs (Decidable ((collapse keccak t).isNode = true ∧ 32 ≤ (encoding keccak t).length))

section Reference

variable {keccak} {t : Tree} {key : Hex} {c : Nibble → Tree}

theorem rootHash_nil : rootHash keccak .nil = emptyRootHash keccak := rfl

theorem not_large_nil : ¬ Large keccak .nil := fun h => by cases h.1

theorem not_large_value {v : Bytes} : ¬ Large keccak (.value v) := fun h => by cases h.1

/-- At the root the hash is forced; elsewhere a small node has none. -/
theorem nodeToHash_collapse (hnode : (collapse keccak t).isNode = true) (force : Bool) :
    nodeToHash keccak (collapse keccak t) force =
      if force = true ∨ Large keccak t then .hash (rootHash keccak t) else collapse keccak t := by
  cases force <;> by_cases hlt : (collapse keccak t).encode.length < 32 <;>
    simp [nodeToHash, Large, hnode, encoding, rootHash, hlt]

theorem reference_of_large (h : Large keccak t) :
    reference keccak (collapse keccak t) = .hash (rootHash keccak t) := by
  rw [reference, if_pos h.1, nodeToHash_collapse h.1, if_pos (.inr h)]

theorem reference_of_not_large (h : ¬ Large keccak t) :
    reference keccak (collapse keccak t) = collapse keccak t := by
  unfold reference
  split
  · next hnode => rw [nodeToHash_collapse hnode, if_neg (by simp [h])]
  · rfl

theorem length_collapse_lt (hnode : (collapse keccak t).isNode = true) (h : ¬ Large keccak t) :
    (collapse keccak t).encode.length < 32 := by
  simpa [Large, hnode, encoding] using h

end Reference

/-! ### Trees that can be read back -/

/-- Every word and every value of the tree has a length that can be encoded, and no value is
empty. -/
def Fits (t : Tree) : Prop :=
  ∀ w v, Patricia.find t w = some v → w.length < 2 ^ 61 ∧ v ≠ [] ∧ v.length < 2 ^ 62

section Fits

variable {t : Tree} {key : Hex} {c : Nibble → Tree}

theorem Fits.of_short (h : Fits (.short key t)) : Fits t := by
  intro w v hw
  have hfind : Patricia.find (.short key t) (key ++ w) = some v := by
    rw [Patricia.find_short_append]
    exact hw
  have := h _ _ hfind
  rw [List.length_append] at this
  exact ⟨by omega, this.2⟩

theorem Fits.of_full (h : Fits (.full c)) (i : Nibble) : Fits (c i) := by
  intro w v hw
  have := h (i :: w) v hw
  rw [List.length_cons] at this
  exact ⟨by omega, this.2⟩

theorem Fits.of_value {v : Bytes} (h : Fits (.value v)) : v ≠ [] ∧ v.length < 2 ^ 62 :=
  (h [] v (Patricia.find_value_iff.mpr ⟨rfl, rfl⟩)).2

/-- A key in a canonical tree is a part of some word. -/
theorem Fits.length_key_lt (h : Fits (.short key t)) (hcan : Canonical terminator (.short key t)) :
    (hexToCompact key).length < 2 ^ 62 := by
  obtain ⟨w, v, hw⟩ := hcan.exists_find
  obtain ⟨r, rfl, -⟩ := Patricia.find_short_iff.mp hw
  have hlen := (h _ v hw).1
  have hle := length_hexToCompact_le key
  rw [List.length_append] at hlen
  omega

theorem hasTerm_of_terminated (h : Terminated terminator key) : hasTerm key = true := by
  obtain ⟨p, -, rfl⟩ := h.exists_append
  simp [hasTerm]

end Fits

end Aster.Trie
