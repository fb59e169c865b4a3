import Aster.Trie.Encoding

/-!
# Nodes and their encoding

A node in memory has its key in HEX form, flags, and may refer to a child by its hash.  A
collapsed node has its key in COMPACT form and no flags; it is what is encoded and stored.  The
source uses one type for both, and `rawShortNode` and `rawFullNode` for the stored form.

`decodeNode` reads one node from the front of a buffer.  A child whose encoding is shorter than a
hash lies inside its parent.
-/

namespace Aster.Trie

open Aster.Lib
open Aster.Lib.Rlp (Bytes encodeString encodeList split splitString splitList countValues)

/-- `common.Hash`; the bytes of a `hashNode`. -/
abbrev Hash := {b : Bytes // b.length = 32}

structure NodeFlag where
  hash : Option Hash
  dirty : Bool

inductive Node where
  | nil
  | full (children : Nibble → Node) (flags : NodeFlag)
  | short (key : Hex) (val : Node) (flags : NodeFlag)
  | hash (h : Hash)
  | value (v : Bytes)

/-- A collapsed node; `nil` is also `nilValueNode`, which is encoded in the same way. -/
inductive Raw where
  | nil
  | full (children : Nibble → Raw)
  | short (key : Bytes) (val : Raw)
  | hash (h : Hash)
  | value (v : Bytes)

/-! ### Encoding -/

/-- `encode` of a collapsed node; a missing child is written as the empty string. -/
def Raw.encode : Raw → Bytes
  | .nil => encodeString []
  | .value v => encodeString v
  | .hash h => encodeString h.val
  | .short key val => encodeList (encodeString key ++ val.encode)
  | .full children => encodeList ((List.finRange 17).flatMap fun i => (children i).encode)

/-! ### Decoding -/

inductive DecodeFault where
  | unexpectedEOF
  | decode (e : Rlp.Error)
  | listElements (c : ℕ)
  | rlp (e : Rlp.Error)
  | invalidValue (e : Rlp.Error)
  | oversized (size : ℕ)
  | stringSize (size : ℕ)
  deriving DecidableEq, Repr

/-- An error with the path to the child in which it was found, the innermost part first. -/
structure DecodeError where
  what : DecodeFault
  stack : List String
  deriving DecidableEq, Repr

def wrapError (err : DecodeError) (ctx : String) : DecodeError :=
  { err with stack := err.stack ++ [ctx] }

def hashLen : ℕ := 32

/-- A child, and what follows it; `decode` is `decodeNode` without a hash. -/
def decodeRef (decode : Bytes → Except DecodeError Node) (buf : Bytes) :
    Except DecodeError (Node × Bytes) :=
  match split buf with
  | .error e => .error ⟨.rlp e, []⟩
  | .ok (.list, _, rest) =>
    if hashLen < buf.length - rest.length then
      .error ⟨.oversized (buf.length - rest.length), []⟩
    else (decode buf).map fun n => (n, rest)
  | .ok (.string, val, rest) =>
    if val = [] then .ok (.nil, rest)
    else if h : val.length = 32 then .ok (.hash ⟨val, h⟩, rest)
    else .error ⟨.stringSize val.length, []⟩
  | .ok (.byte, val, _) => .error ⟨.stringSize val.length, []⟩

def decodeShort (decode : Bytes → Except DecodeError Node) (hash : Option Hash) (elems : Bytes) :
    Except DecodeError Node :=
  match splitString elems with
  | .error e => .error ⟨.rlp e, []⟩
  | .ok (kbuf, rest) =>
    if hasTerm (compactToHex kbuf) then
      match splitString rest with
      | .error e => .error ⟨.invalidValue e, []⟩
      | .ok (val, _) => .ok (.short (compactToHex kbuf) (.value val) ⟨hash, false⟩)
    else
      match decodeRef decode rest with
      | .error e => .error (wrapError e "val")
      | .ok (r, _) => .ok (.short (compactToHex kbuf) r ⟨hash, false⟩)

/-- The nibbles in order. -/
def sixteen : List Nibble := (List.finRange 16).map Fin.castSucc

/-- The loop of `decodeFull` over the children with the numbers `is`. -/
def decodeChildren (decode : Bytes → Except DecodeError Node) :
    List Nibble → (Nibble → Node) → Bytes → Except DecodeError ((Nibble → Node) × Bytes)
  | [], children, elems => .ok (children, elems)
  | i :: is, children, elems =>
    match decodeRef decode elems with
    | .error e => .error (wrapError e s!"[{i}]")
    | .ok (cld, rest) => decodeChildren decode is (Function.update children i cld) rest

def decodeFull (decode : Bytes → Except DecodeError Node) (hash : Option Hash) (elems : Bytes) :
    Except DecodeError Node := do
  let (children, elems) ← decodeChildren decode sixteen (fun _ => .nil) elems
  match splitString elems with
  | .error e => .error ⟨.rlp e, []⟩
  | .ok (val, _) =>
    .ok (.full (if val = [] then children else Function.update children terminator (.value val))
      ⟨hash, false⟩)

/-- `decodeNodeUnsafe`; the fuel bounds the depth of the embedded nodes. -/
def decodeNodeUnsafe : ℕ → Option Hash → Bytes → Except DecodeError Node
  | 0, _, _ => .error ⟨.unexpectedEOF, []⟩
  | fuel + 1, hash, buf =>
    if buf = [] then .error ⟨.unexpectedEOF, []⟩
    else
      match splitList buf with
      | .error e => .error ⟨.decode e, []⟩
      | .ok (elems, _) =>
        match countValues elems with
        | .ok 2 =>
          (decodeShort (decodeNodeUnsafe fuel none) hash elems).mapError (wrapError · "short")
        | .ok 17 =>
          (decodeFull (decodeNodeUnsafe fuel none) hash elems).mapError (wrapError · "full")
        | .ok c => .error ⟨.listElements c, []⟩
        | .error _ => .error ⟨.listElements 0, []⟩

/-- Each embedded node is shorter than the one around it. -/
def decodeNode (hash : Option Hash) (buf : Bytes) : Except DecodeError Node :=
  decodeNodeUnsafe buf.length hash buf

/-- The expanded form of a collapsed node.  A short node has a child, so the case `nil` is that of
a missing child of a full node. -/
def expandNode (hash : Option Hash) : Raw → Node
  | .nil => .nil
  | .short key val => .short (compactToHex key) (expandNode none val) ⟨hash, false⟩
  | .full children => .full (fun i => expandNode none (children i)) ⟨hash, false⟩
  | .hash h => .hash h
  | .value v => .value v

def Raw.isNode : Raw → Bool
  | .short .. => true
  | .full _ => true
  | _ => false

/-- What stands behind the header of an encoded node. -/
def Raw.payload : Raw → Bytes
  | .short key val => encodeString key ++ val.encode
  | .full children => (List.finRange 17).flatMap fun i => (children i).encode
  | _ => []

theorem encode_of_isNode {r : Raw} (h : r.isNode = true) : r.encode = encodeList r.payload := by
  cases r with
  | nil => cases h
  | hash hash => cases h
  | value v => cases h
  | short key val => rfl
  | full children => rfl

end Aster.Trie
