import Aster.Lib.Total
import Aster.Trie.Codec
import Aster.Trie.Represents

/-!
# Lookup, insertion and removal

The recursive functions of the trie.  They load a node when they come to its hash, so every one of
them can fail with a missing node; `panic` stands for the panics of the source.  The fuel bounds the
depth of the recursion: a call takes a letter off the key or loads the node it is at.  What the
tracer notes down is read by `Commit` only and is left out.

* **`yields_get`**: a lookup returns what is in the trie, and the trie stands for the same contents.
-/

namespace Aster.Trie

open Aster.Lib
open Aster.Lib.Patricia (Canonical Aligned)
open Aster.Lib.Rlp (Bytes)

/-! ### The operations -/

inductive TrieError where
  | missingNode (hash : Hash) (path : Hex)
  | panic
  | outOfFuel
  deriving DecidableEq

def Node.isNil : Node → Bool
  | .nil => true
  | _ => false

def newFlag : NodeFlag := ⟨none, true⟩

/-- `trieReader.node`; a blob that cannot be decoded is a panic. -/
def readNode (rd : Reader) (h : Hash) (path : Hex) : Except TrieError Node :=
  match rd h with
  | none => .error (.missingNode h path)
  | some blob => (decodeNode (some h) blob).mapError fun _ => .panic

/-- `resolveAndTrack`, for which an empty blob is missing. -/
def resolveAndTrack (rd : Reader) (h : Hash) (path : Hex) : Except TrieError Node :=
  if rd h = some [] then .error (.missingNode h path) else readNode rd h path

def resolve (rd : Reader) (n : Node) (path : Hex) : Except TrieError Node :=
  match n with
  | .hash h => resolveAndTrack rd h path
  | n => pure n

/-- The value, the node with what was loaded, and whether anything was loaded. -/
def get (rd : Reader) : ℕ → Node → Hex → Hex → Except TrieError (Option Bytes × Node × Bool)
  | 0, _, _, _ => .error .outOfFuel
  | fuel + 1, n, path, key =>
    match n with
    | .nil => pure (none, .nil, false)
    | .value v => pure (some v, .value v, false)
    | .short nkey val flags =>
      if ¬ nkey <+: key then pure (none, n, false)
      else do
        let r ← get rd fuel val (path ++ nkey) (key.drop nkey.length)
        pure (r.1, if r.2.2 then .short nkey r.2.1 flags else n, r.2.2)
    | .full children flags =>
      match key with
      | [] => .error .panic
      | i :: key => do
        let r ← get rd fuel (children i) (path ++ [i]) key
        pure (r.1, if r.2.2 then .full (Function.update children i r.2.1) flags else n, r.2.2)
    | .hash h => do
      let child ← resolveAndTrack rd h path
      let r ← get rd fuel child path key
      pure (r.1, r.2.1, true)

/-- Whether the trie changed, and the new node.  The value is a `valueNode`, or the child of a short
node that is moved below a new branch. -/
def insert (rd : Reader) : ℕ → Node → Hex → Hex → Node → Except TrieError (Bool × Node)
  | 0, _, _, _, _ => .error .outOfFuel
  | fuel + 1, n, path, key, value =>
    match key with
    | [] =>
      match n, value with
      | .value v, .value u => pure (v != u, value)
      | .value _, _ => .error .panic
      | _, _ => pure (true, value)
    | k :: rest =>
      match n with
      | .short nkey val _ =>
        let matchlen := prefixLen (k :: rest) nkey
        if matchlen = nkey.length then do
          let r ← insert rd fuel val (path ++ (k :: rest).take matchlen) ((k :: rest).drop matchlen)
            value
          if r.1 then pure (true, .short nkey r.2 newFlag) else pure (false, n)
        else
          match nkey.drop matchlen, (k :: rest).drop matchlen with
          | a :: nrest, b :: krest => do
            let old ← insert rd fuel .nil (path ++ nkey.take (matchlen + 1)) nrest val
            let new ← insert rd fuel .nil (path ++ (k :: rest).take (matchlen + 1)) krest value
            let branch := Node.full
              (Function.update (Function.update (fun _ => .nil) a old.2) b new.2) newFlag
            if matchlen = 0 then pure (true, branch)
            else pure (true, .short ((k :: rest).take matchlen) branch newFlag)
          | _, _ => .error .panic
      | .full children _ => do
        let r ← insert rd fuel (children k) (path ++ [k]) rest value
        if r.1 then pure (true, .full (Function.update children k r.2) newFlag) else pure (false, n)
      | .nil => pure (true, .short (k :: rest) value newFlag)
      | .hash h => do
        let rn ← resolveAndTrack rd h path
        let r ← insert rd fuel rn path (k :: rest) value
        if r.1 then pure (true, r.2) else pure (false, rn)
      | .value _ => .error .panic

/-- The loop of `delete` for the one child that is left; both `-1` and `-2` are `none`. -/
def soleLoop (children : Nibble → Node) : List Nibble → Option Nibble → Option Nibble
  | [], pos => pos
  | i :: is, pos =>
    if (children i).isNil then soleLoop children is pos
    else
      match pos with
      | none => soleLoop children is (some i)
      | some _ => none

/-- A full node without the child that was deleted, when that child was its last but one. -/
def reduceFull (rd : Reader) (children : Nibble → Node) (path : Hex) :
    Except TrieError (Bool × Node) :=
  match soleLoop children (List.finRange 17) none with
  | none => pure (true, .full children newFlag)
  | some pos =>
    if pos ≠ terminator then do
      -- The child is loaded to see whether it is a short node, and is otherwise left as it was.
      let cnode ← resolve rd (children pos) (path ++ [pos])
      match cnode with
      | .short ckey cval _ => pure (true, .short (pos :: ckey) cval newFlag)
      | _ => pure (true, .short [pos] (children pos) newFlag)
    else pure (true, .short [pos] (children pos) newFlag)

def delete (rd : Reader) : ℕ → Node → Hex → Hex → Except TrieError (Bool × Node)
  | 0, _, _, _ => .error .outOfFuel
  | fuel + 1, n, path, key =>
    match n with
    | .short nkey val _ =>
      let matchlen := prefixLen key nkey
      if matchlen < nkey.length then pure (false, n)
      else if matchlen = key.length then pure (true, .nil)
      else do
        let r ← delete rd fuel val (path ++ key.take nkey.length) (key.drop nkey.length)
        if r.1 then
          match r.2 with
          | .short ckey cval _ => pure (true, .short (nkey ++ ckey) cval newFlag)
          | child => pure (true, .short nkey child newFlag)
        else pure (false, n)
    | .full children _ =>
      match key with
      | [] => .error .panic
      | k :: rest => do
        let r ← delete rd fuel (children k) (path ++ [k]) rest
        if r.1 then
          if r.2.isNil then reduceFull rd (Function.update children k r.2) path
          else pure (true, .full (Function.update children k r.2) newFlag)
        else pure (false, n)
    | .value _ => pure (true, .nil)
    | .nil => pure (false, .nil)
    | .hash h => do
      let rn ← resolveAndTrack rd h path
      let r ← delete rd fuel rn path key
      if r.1 then pure (true, r.2) else pure (false, rn)

/-- Enough for a key: each letter may cost one step to load a node and one to go below it. -/
def fuelFor (key : Hex) : ℕ := 2 * key.length + 3

/-! ### Loading -/

variable {keccak : Bytes → Hash} {rd : Reader} {t : Tree} {path key : Hex} {n : Node}
  {top : Bool}

theorem encoding_ne_nil (h : Canonical terminator t) : encoding keccak t ≠ [] := by
  rw [encoding, encode_of_isNode (isNode_of_canonical keccak h)]
  exact Rlp.encodeList_ne_nil _

/-- **Loading a node**: it stands for the tree behind its hash. -/
theorem yields_readNode (top : Bool) (hcan : Canonical terminator t) (hfits : Fits t)
    (hlarge : top = true ∨ Large keccak t) (hsaved : Saved keccak rd t)
    (hstored : Stored keccak rd t) :
    Yields (readNode rd (rootHash keccak t) path) fun n =>
      Represents keccak rd top n t ∧ n.isHash = false := by
  have hdec := decodeNode_encode keccak hcan hfits (some (rootHash keccak t))
  rw [readNode, hsaved]
  refine ⟨_, congrArg (Except.mapError fun _ => TrieError.panic) hdec,
    represents_expand hcan hstored fun h hh => ?_, ?_⟩
  · cases hh
    exact ⟨rfl, hlarge⟩
  · cases hcan <;> rfl

theorem yields_resolveAndTrack (top : Bool) (hcan : Canonical terminator t) (hfits : Fits t)
    (hlarge : top = true ∨ Large keccak t) (hsaved : Saved keccak rd t)
    (hstored : Stored keccak rd t) :
    Yields (resolveAndTrack rd (rootHash keccak t) path) fun n =>
      Represents keccak rd top n t ∧ n.isHash = false := by
  rw [resolveAndTrack, hsaved, if_neg (by simp [encoding_ne_nil hcan])]
  exact yields_readNode top hcan hfits hlarge hsaved hstored

/-! ### Lookup -/

/-- The fuel that is left suffices for the key at this node. -/
def Enough (fuel : ℕ) (n : Node) (key : Hex) : Prop :=
  2 * key.length + 2 ≤ fuel ∧ (n.isHash = true → 2 * key.length + 3 ≤ fuel)

theorem enough_fuelFor (n : Node) (key : Hex) : Enough (fuelFor key) n key := by
  rw [Enough, fuelFor]
  omega

/-- Going below a node. -/
theorem Enough.below {fuel : ℕ} {n m : Node} {key rest : Hex} (h : Enough (fuel + 1) n key)
    (hlt : rest.length < key.length) : Enough fuel m rest := by
  have := h.1
  rw [Enough]
  omega

/-- Loading a node. -/
theorem Enough.loaded {fuel : ℕ} {h : Hash} {m : Node} {key : Hex}
    (henough : Enough (fuel + 1) (.hash h) key) (hm : m.isHash = false) : Enough fuel m key := by
  have := henough.2 rfl
  rw [Enough, hm]
  exact ⟨by omega, fun hfalse => by cases hfalse⟩

theorem length_lt_append {nkey : Hex} (hne : nkey ≠ []) (rest : Hex) :
    rest.length < (nkey ++ rest).length := by
  have := List.length_pos_iff.mpr hne
  rw [List.length_append]
  omega

/-- **A lookup returns what is in the trie**, and the trie stands for the same contents. -/
theorem yields_get (fuel : ℕ) (h : Represents keccak rd top n t)
    (hkey : Aligned terminator t key) (hfits : Fits t) (hfuel : Enough fuel n key) :
    Yields (get rd fuel n path key) fun r =>
      r.1 = Patricia.find t key ∧ Represents keccak rd top r.2.1 t := by
  induction fuel generalizing n path key t top with
  | zero => exact absurd hfuel.1 (by omega)
  | succ fuel ih =>
    rw [get.eq_def]
    cases h with
    | nil => exact Yields.pure ⟨by simp, .nil⟩
    | value =>
      cases hkey with
      | value => exact Yields.pure ⟨rfl, .value⟩
      | node hcan _ => exact absurd hcan Patricia.not_canonical_value
    | hash hlarge hstored =>
      cases hkey with
      | nil hw => exact absurd hlarge not_large_nil
      | value => exact absurd hlarge not_large_value
      | node hcan hterm =>
        refine Yields.bind (yields_resolveAndTrack false hcan hfits (.inr hlarge)
          (hlarge.saved hstored) hstored) fun child hchild => ?_
        obtain ⟨hrep, hloaded⟩ := hchild
        exact Yields.bind (ih hrep (.node hcan hterm) hfits (hfuel.loaded hloaded))
          fun r hr => Yields.pure hr
    | @short _ nkey flags val t hflags hval =>
      simp only
      split
      · next hpre =>
        refine Yields.pure ⟨?_, .short hflags hval⟩
        rw [Patricia.find.eq_def]
        simp [hpre]
      · next hpre =>
        obtain ⟨rest, rfl⟩ := not_not.mp hpre
        cases hkey with
        | node hcan hterm =>
          rw [List.drop_left]
          refine Yields.bind (ih hval (hcan.aligned_short hterm) hfits.of_short
            (hfuel.below (length_lt_append hcan.key_ne_nil rest))) fun r hr => ?_
          obtain ⟨hfound, hrep⟩ := hr
          refine Yields.pure ⟨by rw [hfound, Patricia.find_short_append], ?_⟩
          split
          · exact .short hflags hrep
          · exact .short hflags hval
    | @full _ flags children c hflags hval =>
      cases hkey with
      | node hcan hterm =>
        cases key with
        | nil => exact absurd rfl hterm.ne_nil
        | cons i rest =>
          refine Yields.bind (ih (hval i) (hcan.aligned_full hterm) (hfits.of_full i)
            (hfuel.below (by simp))) fun r hr => ?_
          obtain ⟨hfound, hrep⟩ := hr
          refine Yields.pure ⟨hfound, ?_⟩
          split
          · refine .full hflags fun j => ?_
            by_cases hj : j = i
            · subst hj
              rwa [Function.update_self]
            · rw [Function.update_of_ne hj]
              exact hval j
          · exact .full hflags hval

end Aster.Trie
