import Aster.Trie.Session

/-!
# Proofs

`Prove` puts the encoded nodes on the way to a key under their hashes, and `VerifyProof` follows the
key from a root through what it finds there.  It does not hash what it reads, so a proof can be
trusted only if each blob in it lies under its own hash.

* **`decodeNode_proofHash`**: the blob of a node is read back;
* **`verifyProof_prove`**, **`verifyProof_sound`**: a proof that was made is accepted, and nothing
  false can be proved;
* **`root_binds_contents`**: tries with the same root have the same contents.
-/

namespace Aster.Trie

open Aster.Lib
open Aster.Lib.Patricia (Canonical Terminated Aligned)
open Aster.Lib.Rlp (Bytes)

/-! ### The functions of the source -/

/-- The loop of `Prove` that collects the nodes on the way to the key. -/
def collect (rd : Reader) : ℕ → Node → Hex → Hex → Except TrieError (List Node)
  | 0, _, _, _ => .error .outOfFuel
  | fuel + 1, n, path, key =>
    match key with
    | [] => pure []
    | k :: rest =>
      match n with
      | .nil => pure []
      | .short nkey val _ =>
        if ¬ nkey <+: k :: rest then pure [n]
        else do
          let nodes ← collect rd fuel val (path ++ nkey) ((k :: rest).drop nkey.length)
          pure (n :: nodes)
      | .full children _ => do
        let nodes ← collect rd fuel (children k) (path ++ [k]) rest
        pure (n :: nodes)
      | .hash h => do
        let child ← readNode rd h path
        collect rd fuel child path (k :: rest)
      | .value _ => .error .panic

/-- The collapsed node and its hashed form go into the proof if it is a hash or the root. -/
def put (keccak : Bytes → Hash) (db : Reader) (p : (Raw × Raw) × ℕ) : Reader :=
  match p.1.2.hash? with
  | some h => Function.update db h (some p.1.1.encode)
  | none =>
    if p.2 = 0 then Function.update db (keccak p.1.1.encode) (some p.1.1.encode) else db

def MPT.prove (keccak : Bytes → Hash) (rd : Reader) (t : MPT) (key : Bytes) (fromLevel : ℕ)
    (proofDb : Reader) : Except TrieError Reader :=
  let k := keybytesToHex key
  (collect rd (fuelFor k) t.root [] k).map fun nodes =>
    ((nodes.map (Hasher.proofHash keccak)).zipIdx.drop fromLevel).foldl (put keccak) proofDb

/-- `get` of the proofs with `skipResolved`; `none` is an index out of range. -/
def walk : Node → Hex → Option (Hex × Node)
  | .short nkey val _, key =>
    if nkey <+: key then walk val (key.drop nkey.length) else some ([], .nil)
  | .full children _, i :: key => walk (children i) key
  | .full _ _, [] => none
  | .hash h, key => some (key, .hash h)
  | .nil, key => some (key, .nil)
  | .value v, _ => some ([], .value v)

inductive ProofError where
  | missing (i : ℕ) (hash : Hash)
  | bad (i : ℕ) (err : DecodeError)
  | panic
  | outOfFuel

/-- The loop of `VerifyProof`; the fuel bounds the number of nodes, which the source does not. -/
def verifyLoop (proofDb : Reader) : ℕ → ℕ → Hash → Hex → Except ProofError (Option Bytes)
  | 0, _, _, _ => .error .outOfFuel
  | fuel + 1, i, wantHash, key =>
    match proofDb wantHash with
    | none => .error (.missing i wantHash)
    | some buf =>
      match decodeNode (some wantHash) buf with
      | .error e => .error (.bad i e)
      | .ok n =>
        match walk n key with
        | some (_, .nil) => .ok none
        | some (keyrest, .hash h) => verifyLoop proofDb fuel (i + 1) h keyrest
        | some (_, .value v) => .ok (some v)
        | _ => .error .panic

def verifyProof (fuel : ℕ) (root : Hash) (key : Bytes) (proofDb : Reader) :
    Except ProofError (Option Bytes) :=
  verifyLoop proofDb fuel 0 root (keybytesToHex key)

/-! ### The nodes of a proof -/

/-- The subtrees on the way to a word. -/
def trail : Tree → Hex → List Tree
  | .short key t, w => .short key t :: if key <+: w then trail t (w.drop key.length) else []
  | .full c, i :: w => .full c :: trail (c i) w
  | .full c, [] => [.full c]
  | _, _ => []

variable {keccak : Bytes → Hash} {rd db : Reader} {t s : Tree} {path key : Hex} {n : Node}
  {top hashed : Bool} {nkey : Hex} {c : Nibble → Tree}

theorem trail_of_canonical (h : Canonical terminator t) (key : Hex) :
    trail t key = t :: (trail t key).tail := by
  cases h with
  | full _ _ _ => cases key <;> rfl
  | _ => rw [trail, List.tail_cons]

/-- What is found in one blob: the end of the key, or the hash of another node on the way. -/
inductive Walked (keccak : Bytes → Hash) (nodes : List Tree) (value : Option Bytes) :
    Option (Hex × Node) → Prop
  | absent {rest : Hex} (h : value = none) : Walked keccak nodes value (some (rest, .nil))
  | found {rest : Hex} {v : Bytes} (h : value = some v) :
      Walked keccak nodes value (some (rest, .value v))
  | behind {rest : Hex} {s : Tree} (hcan : Canonical terminator s)
      (hterm : Terminated terminator rest) (hfits : Fits s) (hlarge : Large keccak s)
      (hfind : Patricia.find s rest = value) (hsuffix : trail s rest <:+ nodes) :
      Walked keccak nodes value (some (rest, .hash (rootHash keccak s)))

/-- The walk through a child as its parent refers to it. -/
def WalkedRef (keccak : Bytes → Hash) (t : Tree) : Prop :=
  ∀ key, Aligned terminator t key → Fits t → Walked keccak (trail t key) (Patricia.find t key)
    (walk (expandNode none (reference keccak (collapse keccak t))) key)

theorem walked_short (hcan : Canonical terminator (.short nkey t))
    (hterm : Terminated terminator key) (hfits : Fits (.short nkey t)) (h : WalkedRef keccak t)
    (hash : Option Hash) :
    Walked keccak (trail (.short nkey t) key).tail (Patricia.find (.short nkey t) key)
      (walk (expandNode hash (collapse keccak (.short nkey t))) key) := by
  rw [collapse, expandNode, compactToHex_hexToCompact hcan.key_cases, walk, trail, List.tail_cons]
  by_cases hpre : nkey <+: key
  · obtain ⟨rest, rfl⟩ := hpre
    rw [if_pos (List.prefix_append _ _), if_pos (List.prefix_append _ _), List.drop_left,
      Patricia.find_short_append]
    exact h rest (hcan.aligned_short hterm) hfits.of_short
  · rw [if_neg hpre, if_neg hpre]
    refine .absent ?_
    rw [Patricia.find.eq_def]
    simp [hpre]

theorem walked_full (hcan : Canonical terminator (.full c)) (hterm : Terminated terminator key)
    (hfits : Fits (.full c)) (h : ∀ i, WalkedRef keccak (c i)) (hash : Option Hash) :
    Walked keccak (trail (.full c) key).tail (Patricia.find (.full c) key)
      (walk (expandNode hash (collapse keccak (.full c))) key) := by
  cases key with
  | nil => exact absurd rfl hterm.ne_nil
  | cons i rest => exact h i rest (hcan.aligned_full hterm) (hfits.of_full i)

theorem Walked.mono {nodes nodes' : List Tree} {value : Option Bytes} {r : Option (Hex × Node)}
    (h : Walked keccak nodes value r) (hsuffix : nodes <:+ nodes') :
    Walked keccak nodes' value r := by
  cases h with
  | absent h => exact .absent h
  | found h => exact .found h
  | behind hcan hterm hfits hlarge hfind h =>
    exact .behind hcan hterm hfits hlarge hfind (h.trans hsuffix)

/-- A child that is large is not walked into. -/
theorem walkedRef_of_walked
    (h : ∀ key, Canonical terminator t → Terminated terminator key → Fits t →
      Walked keccak (trail t key).tail (Patricia.find t key)
        (walk (expandNode none (collapse keccak t)) key))
    (hnode : (collapse keccak t).isNode = true) : WalkedRef keccak t := by
  intro key hkey hfits
  cases hkey with
  | nil _ => cases hnode
  | value => cases hnode
  | node hcan hterm =>
    by_cases hlarge : Large keccak t
    · rw [reference_of_large hlarge]
      exact .behind hcan hterm hfits hlarge rfl List.suffix_rfl
    · rw [reference_of_not_large hlarge]
      exact (h key hcan hterm hfits).mono (List.tail_suffix _)

theorem walkedRef (t : Tree) : WalkedRef keccak t := by
  induction t with
  | nil => exact fun key _ _ => .absent (by simp)
  | value v =>
    intro key hkey _
    cases hkey with
    | node hcan _ => exact absurd hcan Patricia.not_canonical_value
    | value => exact .found rfl
  | short nkey t ih =>
    exact walkedRef_of_walked (fun _ hcan hterm hfits => walked_short hcan hterm hfits ih none) rfl
  | full c ih =>
    exact walkedRef_of_walked (fun _ hcan hterm hfits => walked_full hcan hterm hfits ih none) rfl

/-- **Verification**: where the blobs on the way are the right ones or missing, the value is found
or a blob is reported missing. -/
theorem verifyLoop_cases (fuel i : ℕ) (hcan : Canonical terminator t)
    (hterm : Terminated terminator key) (hfits : Fits t)
    (hdb : ∀ s ∈ trail t key, s = t ∨ Large keccak s → ∀ b, db (rootHash keccak s) = some b →
      b = encoding keccak s) :
    verifyLoop db fuel i (rootHash keccak t) key = .ok (Patricia.find t key) ∨
      (verifyLoop db fuel i (rootHash keccak t) key = .error .outOfFuel ∧
        fuel < (trail t key).length) ∨
      ∃ s ∈ trail t key, (s = t ∨ Large keccak s) ∧ db (rootHash keccak s) = none ∧
        ∃ j, verifyLoop db fuel i (rootHash keccak t) key =
          .error (.missing j (rootHash keccak s)) := by
  induction fuel generalizing t key i with
  | zero =>
    rw [trail_of_canonical hcan]
    exact .inr (.inl ⟨rfl, Nat.succ_pos _⟩)
  | succ fuel ih =>
    have hnode := trail_of_canonical hcan key
    have hmem : t ∈ trail t key := hnode ▸ List.mem_cons_self
    cases hget : db (rootHash keccak t) with
    | none => exact .inr (.inr ⟨t, hmem, .inl rfl, hget, i, by rw [verifyLoop, hget]⟩)
    | some b =>
      obtain rfl := hdb t hmem (.inl rfl) b hget
      have hdec := decodeNode_encode keccak hcan hfits (some (rootHash keccak t))
      have hwalk : Walked keccak (trail t key).tail (Patricia.find t key)
          (walk (expandNode (some (rootHash keccak t)) (collapse keccak t)) key) := by
        cases t with
        | nil => exact absurd hcan Patricia.not_canonical_nil
        | value v => exact absurd hcan Patricia.not_canonical_value
        | short nkey t => exact walked_short hcan hterm hfits (walkedRef t) _
        | full c => exact walked_full hcan hterm hfits (fun i => walkedRef (c i)) _
      simp only [verifyLoop, hget, hdec]
      generalize walk (expandNode (some (rootHash keccak t)) (collapse keccak t)) key = r at hwalk
      cases hwalk with
      | absent h => exact .inl (by rw [h])
      | found h => exact .inl (by rw [h])
      | @behind rest s hcan' hterm' hfits' hlarge hfind hsuffix =>
        have hsub : ∀ s' ∈ trail s rest, s' ∈ trail t key := fun s' hs' =>
          hnode ▸ List.mem_cons_of_mem t (hsuffix.subset hs')
        have hneeds : ∀ s', s' = s ∨ Large keccak s' → Large keccak s' := by
          rintro s' (rfl | h)
          · exact hlarge
          · exact h
        rcases ih (i + 1) hcan' hterm' hfits' fun s' hs' h =>
            hdb s' (hsub s' hs') (.inr (hneeds s' h)) with hok | ⟨hout, hlt⟩ | ⟨s', hs', h, hmiss⟩
        · exact .inl (hfind ▸ hok)
        · have := hsuffix.length_le
          rw [hnode]
          exact .inr (.inl ⟨hout, by rw [List.length_cons]; omega⟩)
        · exact .inr (.inr ⟨s', hsub s' hs', .inr (hneeds s' h), hmiss⟩)

theorem verifyLoop_of_present {fuel : ℕ} (i : ℕ) (hcan : Canonical terminator t)
    (hterm : Terminated terminator key) (hfits : Fits t)
    (hdb : ∀ s ∈ trail t key, s = t ∨ Large keccak s →
      db (rootHash keccak s) = some (encoding keccak s))
    (hfuel : (trail t key).length ≤ fuel) :
    verifyLoop db fuel i (rootHash keccak t) key = .ok (Patricia.find t key) := by
  rcases verifyLoop_cases fuel i hcan hterm hfits fun s hs hneeds b hb =>
      (Option.some.inj ((hdb s hs hneeds).symm.trans hb)).symm with
    hok | ⟨-, hlt⟩ | ⟨s, hs, hneeds, hnone, -⟩
  · exact hok
  · omega
  · cases (hdb s hs hneeds).symm.trans hnone

/-! ### Making a proof -/

/-- **A node is read back**: whatever of it was loaded or cached, its blob decodes to the expanded
form of its contents. -/
theorem decodeNode_proofHash (h : Represents keccak rd top n t) (hn : n.isHash = false)
    (hcan : Canonical terminator t) (hfits : Fits t) (hash : Option Hash) :
    decodeNode hash (Hasher.proofHash keccak n).1.encode =
      .ok (expandNode hash (collapse keccak t)) := by
  rw [h.proofHash hn]
  exact decodeNode_encode keccak hcan hfits hash

theorem decodeNode_proofHash_leaf :
    decodeNode none (Hasher.proofHash sizeHash leafNode).1.encode =
      .ok (expandNode none (collapse sizeHash leaf)) :=
  decodeNode_proofHash (@holds_leaf sizeHash fun _ => none).represents rfl
    (tidy_leaf.wellFormed.resolve_left (by simp [leaf])) tidy_leaf.fits none

theorem yields_collect (fuel : ℕ) (h : Represents keccak rd top n t)
    (hkey : Aligned terminator t key) (hfits : Fits t) (hfuel : Enough fuel n key) :
    Yields (collect rd fuel n path key) fun nodes => nodes.map (Hasher.proofHash keccak) =
      (trail t key).map fun s => (collapse keccak s, reference keccak (collapse keccak s)) := by
  induction fuel generalizing n path key t top with
  | zero => exact absurd hfuel.1 (by omega)
  | succ fuel ih =>
    rw [collect.eq_def]
    cases hkey with
    | nil _ =>
      cases h with
      | nil => cases key <;> exact Yields.pure rfl
      | hash hlarge _ => exact absurd hlarge not_large_nil
    | value => exact Yields.pure rfl
    | node hcan hterm =>
      obtain ⟨k, rest, rfl⟩ := List.exists_cons_of_ne_nil hterm.ne_nil
      cases h with
      | nil => exact absurd hcan Patricia.not_canonical_nil
      | value => exact absurd hcan Patricia.not_canonical_value
      | hash hlarge hstored =>
        refine Yields.bind (yields_readNode false hcan hfits (.inr hlarge)
          (hlarge.saved hstored) hstored) fun child ⟨hrep, hloaded⟩ => ?_
        exact ih hrep (.node hcan hterm) hfits (hfuel.loaded hloaded)
      | @short _ nkey flags val t hflags hval =>
        have hproof := (Represents.short hflags hval).proofHash rfl
        rw [trail]
        by_cases hpre : nkey <+: k :: rest
        · obtain ⟨r, hr⟩ := hpre
          have hdrop : (k :: rest).drop nkey.length = r := by rw [← hr, List.drop_left]
          simp only [hdrop, show nkey <+: k :: rest from ⟨r, hr⟩, not_true, if_false, if_true]
          rw [← hr] at hterm hfuel
          refine Yields.bind (ih hval (hcan.aligned_short hterm) hfits.of_short
            (hfuel.below (length_lt_append hcan.key_ne_nil r))) fun nodes hnodes => ?_
          exact Yields.pure (by rw [List.map_cons, List.map_cons, hproof, hnodes])
        · simp only [hpre, not_false_eq_true, if_true, if_false]
          exact Yields.pure (by simp [hproof])
      | @full _ flags children c hflags hval =>
        have hproof := (Represents.full hflags hval).proofHash rfl
        refine Yields.bind (ih (hval k) (hcan.aligned_full hterm) (hfits.of_full k)
          (hfuel.below (by simp))) fun nodes hnodes => ?_
        exact Yields.pure (by rw [trail, List.map_cons, List.map_cons, hproof, hnodes])

/-- The proof for a list of nodes, each with its place in the list. -/
def putAll (keccak : Bytes → Hash) (l : List (Tree × ℕ)) (db : Reader) : Reader :=
  l.foldl (fun db p => put keccak db
    ((collapse keccak p.1, reference keccak (collapse keccak p.1)), p.2)) db

theorem put_eq (db : Reader) (s : Tree) (i : ℕ) :
    put keccak db ((collapse keccak s, reference keccak (collapse keccak s)), i) =
      if i = 0 ∨ Large keccak s then
        Function.update db (rootHash keccak s) (some (encoding keccak s)) else db := by
  by_cases hlarge : Large keccak s
  · simp only [put, reference_of_large hlarge, hlarge, or_true, if_true]
    rfl
  · simp only [put, reference_of_not_large hlarge, hash?_collapse, hlarge, or_false]
    rfl

/-- What was put stays, unless another blob has the same hash. -/
theorem putAll_apply {l : List (Tree × ℕ)} {i : ℕ}
    (hinj : Set.InjOn keccak {b | ∃ p ∈ l, b = encoding keccak p.1}) (hs : (s, i) ∈ l)
    (hput : i = 0 ∨ Large keccak s) :
    putAll keccak l db (rootHash keccak s) = some (encoding keccak s) := by
  induction l using List.reverseRecOn with
  | nil => cases hs
  | append_singleton l p ih =>
    rw [putAll, List.foldl_append, List.foldl_cons, List.foldl_nil, put_eq, ← putAll]
    by_cases hsame : (p.2 = 0 ∨ Large keccak p.1) ∧ rootHash keccak p.1 = rootHash keccak s
    · have henc : encoding keccak p.1 = encoding keccak s :=
        hinj ⟨p, by simp, rfl⟩ ⟨(s, i), hs, rfl⟩ hsame.2
      rw [if_pos hsame.1, hsame.2, henc, Function.update_self]
    · have hmem : (s, i) ∈ l := by
        refine (List.mem_append.mp hs).resolve_right fun hp => hsame ?_
        rw [← List.mem_singleton.mp hp]
        exact ⟨hput, rfl⟩
      have hih := ih (hinj.mono (by
        rintro b ⟨q, hq, rfl⟩
        exact ⟨q, List.mem_append_left _ hq, rfl⟩)) hmem
      split
      · next hp => rwa [Function.update_of_ne fun h => hsame ⟨hp, h.symm⟩]
      · exact hih

/-- The blobs of the nodes on the way to a key. -/
def trailBlobs (keccak : Bytes → Hash) (t : Tree) (key : Bytes) : Set Bytes :=
  {b | ∃ s ∈ trail t (keybytesToHex key), b = encoding keccak s}

/-- **A proof that was made is accepted**, and gives the value of the key or its absence. -/
theorem verifyProof_prove {tr : MPT} (h : Holds keccak rd tr t) (hne : t ≠ .nil) (key : Bytes)
    (hinj : Set.InjOn keccak (trailBlobs keccak t key)) (db : Reader) :
    ∃ proof, tr.prove keccak rd key 0 db = .ok proof ∧
      ∀ fuel ≥ (trail t (keybytesToHex key)).length,
        verifyProof fuel (rootHash keccak t) key proof = .ok (contents t key) := by
  have hterm := terminated_keybytesToHex key
  have hcan := h.tidy.wellFormed.resolve_left hne
  obtain ⟨nodes, hrun, hnodes⟩ := yields_collect _ h.represents (.node hcan hterm) h.tidy.fits
    (enough_fuelFor _ _)
  have hprove : tr.prove keccak rd key 0 db =
      .ok (putAll keccak (trail t (keybytesToHex key)).zipIdx db) := by
    rw [MPT.prove, hrun]
    simp only [Except.map, hnodes, List.drop_zero, List.zipIdx_map, List.foldl_map]
    rfl
  have hinj' : Set.InjOn keccak {b | ∃ p ∈ (trail t (keybytesToHex key)).zipIdx,
      b = encoding keccak p.1} := by
    refine hinj.mono ?_
    rintro b ⟨p, hp, rfl⟩
    exact ⟨p.1, List.fst_mem_of_mem_zipIdx hp, rfl⟩
  have hput : ∀ s ∈ trail t (keybytesToHex key), s = t ∨ Large keccak s →
      putAll keccak (trail t (keybytesToHex key)).zipIdx db (rootHash keccak s) =
        some (encoding keccak s) := by
    rintro s hs (rfl | hlarge)
    · refine putAll_apply (i := 0) hinj' ?_ (.inl rfl)
      rw [trail_of_canonical hcan, List.zipIdx_cons]
      exact List.mem_cons_self
    · rw [← List.zipIdx_map_fst 0 (trail t _)] at hs
      obtain ⟨p, hp, rfl⟩ := List.mem_map.mp hs
      exact putAll_apply hinj' hp (.inr hlarge)
  exact ⟨_, hprove, fun fuel hfuel => verifyLoop_of_present 0 hcan hterm h.tidy.fits hput hfuel⟩

theorem trailBlobs_leaf (keccak : Bytes → Hash) (key : Bytes) :
    trailBlobs keccak leaf key = {encoding keccak leaf} := by
  have htrail : trail leaf (keybytesToHex key) = [leaf] := by
    rw [leaf, trail]
    split <;> simp [trail]
  simp [trailBlobs, htrail]

theorem verifyProof_prove_leaf :
    ∃ proof, MPT.prove sizeHash (fun _ => none) ⟨leafNode, 0⟩ [] 0 (fun _ => none) = .ok proof ∧
      ∀ fuel ≥ (trail leaf (keybytesToHex [])).length,
        verifyProof fuel (rootHash sizeHash leaf) [] proof = .ok (contents leaf []) :=
  verifyProof_prove holds_leaf (by simp [leaf]) [] (by simp [trailBlobs_leaf]) _

/-- **Nothing false can be proved**: from blobs that lie under their own hashes, only the value that
the trie has under the key. -/
theorem verifyProof_sound (h : Tidy t) (hne : t ≠ .nil) (key : Bytes)
    (hdb : ∀ hash b, db hash = some b → keccak b = hash)
    (hinj : Set.InjOn keccak ({b | ∃ hash, db hash = some b} ∪ trailBlobs keccak t key))
    (fuel : ℕ) {v : Option Bytes}
    (hok : verifyProof fuel (rootHash keccak t) key db = .ok v) : v = contents t key := by
  have hright : ∀ s ∈ trail t (keybytesToHex key), s = t ∨ Large keccak s → ∀ b,
      db (rootHash keccak s) = some b → b = encoding keccak s := fun s hs _ b hb =>
    hinj (.inl ⟨_, hb⟩) (.inr ⟨s, hs, rfl⟩) (hdb _ b hb)
  rw [verifyProof] at hok
  rcases verifyLoop_cases fuel 0 (h.wellFormed.resolve_left hne) (terminated_keybytesToHex key)
      h.fits hright with heq | ⟨heq, -⟩ | ⟨s, -, -, -, j, heq⟩
  · exact Except.ok.inj (hok.symm.trans heq)
  · cases hok.symm.trans heq
  · cases hok.symm.trans heq

theorem verifyProof_sound_leaf : some [UInt8.ofNat 1] = contents leaf [] := by
  refine @verifyProof_sound sizeHash (fun h => if h = rootHash sizeHash leaf then
    some (encoding sizeHash leaf) else none) leaf tidy_leaf (by simp [leaf]) []
    (fun hash b hb => ?_) ((Set.injOn_singleton _ (encoding sizeHash leaf)).mono ?_) 1 _ rfl
  · split at hb
    · next heq => rw [heq, ← Option.some.inj hb, rootHash]
    · cases hb
  · rintro b (⟨hash, hb⟩ | hb)
    · split at hb
      · exact (Option.some.inj hb).symm
      · cases hb
    · rwa [trailBlobs_leaf] at hb

/-- **The root binds the contents**: two tries with the same root have the same, unless two of their
nodes have the same hash. -/
theorem root_binds_contents {t' : Tree} (h : Tidy t) (h' : Tidy t') (hne : t ≠ .nil)
    (hne' : t' ≠ .nil)
    (hinj : ∀ key, Set.InjOn keccak (trailBlobs keccak t key ∪ trailBlobs keccak t' key))
    (hroot : rootHash keccak t = rootHash keccak t') : contents t = contents t' := by
  funext key
  have hterm := terminated_keybytesToHex key
  let db : Reader := fun hash => some
    (Function.invFunOn keccak (trailBlobs keccak t key ∪ trailBlobs keccak t' key) hash)
  have hdb : ∀ b ∈ trailBlobs keccak t key ∪ trailBlobs keccak t' key, db (keccak b) = some b :=
    fun b hb => congrArg some ((hinj key).leftInvOn_invFunOn hb)
  have hok := @verifyLoop_of_present keccak db t _ _ 0 (h.wellFormed.resolve_left hne) hterm
    h.fits (fun s hs _ => hdb _ (.inl ⟨s, hs, rfl⟩))
    (le_max_left _ (trail t' (keybytesToHex key)).length)
  rw [hroot] at hok
  exact Except.ok.inj (hok.symm.trans (verifyLoop_of_present 0 (h'.wellFormed.resolve_left hne')
    hterm h'.fits (fun s hs _ => hdb _ (.inr ⟨s, hs, rfl⟩)) (le_max_right _ _)))

theorem root_binds_contents_leaf : contents leaf = contents leaf :=
  @root_binds_contents sizeHash leaf leaf tidy_leaf tidy_leaf (by simp [leaf]) (by simp [leaf])
    (by simp [trailBlobs_leaf]) rfl

end Aster.Trie
