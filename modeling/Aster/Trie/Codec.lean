import Aster.Trie.Hasher

/-!
# Reading back what was written

* **`decodeNode_encoding`**: decoding an encoded node gives what `expandNode` makes of the node
  itself, so it does not matter whether a node was cached or read from disk.
-/

namespace Aster.Trie

open Aster.Lib
open Aster.Lib.Patricia (Canonical WellFormed)
open Aster.Lib.Rlp (Bytes encodeString splitString countValues IsItem)

variable (keccak : Bytes → Hash) {t : Tree} {c : Nibble → Tree}

theorem finRange_eq_sixteen : List.finRange 17 = sixteen ++ [terminator] := by
  rw [List.finRange_succ_last]
  rfl

theorem mem_sixteen_iff {i : Nibble} : i ∈ sixteen ↔ i ≠ terminator := by
  revert i
  decide

/-! ### The parts of an encoded node -/

/-- A child in the encoding of its parent: nothing, a hash or a small node. -/
theorem reference_cases (h : WellFormed terminator t) :
    reference keccak (collapse keccak t) = .nil ∨
      (∃ hash, reference keccak (collapse keccak t) = .hash hash) ∨
      (Canonical terminator t ∧ reference keccak (collapse keccak t) = collapse keccak t ∧
        (collapse keccak t).encode.length < 32) := by
  rcases h with rfl | h
  · exact .inl rfl
  · by_cases hlarge : Large keccak t
    · exact .inr (.inl ⟨_, reference_of_large hlarge⟩)
    · exact .inr (.inr ⟨h, reference_of_not_large hlarge,
        length_collapse_lt (by cases h <;> rfl) hlarge⟩)

theorem length_reference_le (h : WellFormed terminator t) :
    (reference keccak (collapse keccak t)).encode.length ≤ 41 := by
  rcases reference_cases keccak h with heq | ⟨hash, heq⟩ | ⟨-, heq, hlen⟩
  · have := Rlp.length_encodeString_le []
    rw [heq, Raw.encode]
    simp only [List.length_nil] at this
    omega
  · have := Rlp.length_encodeString_le hash.val
    rw [hash.property] at this
    simpa [heq, Raw.encode] using this
  · rw [heq]
    omega

theorem wellFormed_child (h : Canonical terminator (.full c)) {i : Nibble} (hi : i ≠ terminator) :
    WellFormed terminator (c i) := by
  cases h with
  | full hchild _ _ => exact (em (c i = .nil)).imp id (hchild i hi)

/-- The last child is a value, and an empty one stands for none. -/
theorem exists_last (h : Canonical terminator (.full c)) (hfits : Fits (.full c)) :
    ∃ last : Bytes, last.length < 2 ^ 62 ∧
      reference keccak (collapse keccak (c terminator)) =
        if last = [] then .nil else .value last := by
  cases h with
  | full _ hterm _ =>
    rcases hterm with hnil | ⟨v, hv⟩
    · exact ⟨[], by norm_num, by rw [hnil]; rfl⟩
    · have hfits' := hfits.of_full terminator
      rw [hv] at hfits'
      exact ⟨v, hfits'.of_value.2, by rw [hv, if_neg hfits'.of_value.1]; rfl⟩

theorem encode_last {last : Bytes} :
    (if last = [] then Raw.nil else .value last).encode = encodeString last := by
  split
  · next h => rw [h]; rfl
  · rfl

theorem isNode_of_canonical (h : Canonical terminator t) : (collapse keccak t).isNode = true := by
  cases h <;> rfl

/-- The length of a node fits into its header. -/
theorem length_payload_lt (h : Canonical terminator t) (hfits : Fits t) :
    (collapse keccak t).payload.length < 2 ^ 64 := by
  have h' := h
  cases h with
  | @leaf key v hkey =>
    have hkey := hfits.length_key_lt h'
    have hv := hfits.of_short.of_value.2
    have h1 := Rlp.length_encodeString_le (hexToCompact key)
    have h2 := Rlp.length_encodeString_le v
    show (encodeString (hexToCompact key) ++ encodeString v).length < _
    rw [List.length_append]
    omega
  | @extension key c hne hkey hval =>
    have hkey := hfits.length_key_lt h'
    have h1 := Rlp.length_encodeString_le (hexToCompact key)
    have h2 := length_reference_le keccak (.inr hval)
    simp only [collapse, Raw.payload, List.length_append] at h2 ⊢
    omega
  | @full c hchild hterm htwo =>
    have hlen : ∀ n ∈ sixteen.map fun i =>
        (reference keccak (collapse keccak (c i))).encode.length, n ≤ 41 := by
      intro n hn
      obtain ⟨i, hi, rfl⟩ := List.mem_map.mp hn
      exact length_reference_le keccak (wellFormed_child h' (mem_sixteen_iff.mp hi))
    have hsum := List.sum_le_card_nsmul _ 41 hlen
    have hnum : sixteen.length = 16 := rfl
    rw [List.length_map, hnum, smul_eq_mul] at hsum
    obtain ⟨last, hlast, heq⟩ := exists_last keccak h' hfits
    have h1 := Rlp.length_encodeString_le last
    rw [collapse, Raw.payload, finRange_eq_sixteen, List.flatMap_append, List.length_append,
      List.length_flatMap, List.flatMap_singleton, heq, encode_last]
    omega

theorem isItem_collapse (h : Canonical terminator t) (hfits : Fits t) :
    IsItem (collapse keccak t).encode := by
  rw [encode_of_isNode (isNode_of_canonical keccak h)]
  exact Rlp.isItem_encodeList _ (length_payload_lt keccak h hfits)

theorem isItem_reference (h : WellFormed terminator t) (hfits : Fits t) :
    IsItem (reference keccak (collapse keccak t)).encode := by
  rcases reference_cases keccak h with heq | ⟨hash, heq⟩ | ⟨hcan, heq, -⟩
  · rw [heq]
    exact Rlp.isItem_encodeString [] (by norm_num)
  · rw [heq]
    exact Rlp.isItem_encodeString hash.val (by rw [hash.property]; norm_num)
  · rw [heq]
    exact isItem_collapse keccak hcan hfits

/-! ### Reading them -/

/-- Reading a child, given that embedded nodes are read back. -/
theorem decodeRef_reference {decode : Bytes → Except DecodeError Node}
    (h : WellFormed terminator t) (hfits : Fits t)
    (hdecode : Canonical terminator t →
      reference keccak (collapse keccak t) = collapse keccak t →
        ∀ rest, decode ((collapse keccak t).encode ++ rest) =
          .ok (expandNode none (collapse keccak t))) (rest : Bytes) :
    decodeRef decode ((reference keccak (collapse keccak t)).encode ++ rest) =
      .ok (expandNode none (reference keccak (collapse keccak t)), rest) := by
  rcases reference_cases keccak h with heq | ⟨hash, heq⟩ | ⟨hcan, heq, hlen⟩
  · have hsplit := Rlp.split_encodeString [] rest (by norm_num)
    simp [heq, decodeRef, Raw.encode, hsplit, Rlp.stringKind, expandNode]
  · have hlen := hash.property
    have hsplit := Rlp.split_encodeString hash.val rest (by rw [hlen]; norm_num)
    have hkind := Rlp.stringKind_of_length hash.val (by rw [hlen]; norm_num)
    have hne : hash.val ≠ [] := by
      intro hnil
      rw [hnil] at hlen
      simp at hlen
    simp [heq, decodeRef, Raw.encode, hsplit, hkind, hne, hlen, expandNode]
  · have hsplit := Rlp.split_encodeList (collapse keccak t).payload rest
      (length_payload_lt keccak hcan hfits)
    rw [← encode_of_isNode (isNode_of_canonical keccak hcan)] at hsplit
    have hle : ¬ hashLen < ((collapse keccak t).encode ++ rest).length - rest.length := by
      rw [List.length_append, Nat.add_sub_cancel, hashLen]
      omega
    simp only [heq, decodeRef, hsplit, if_neg hle, hdecode hcan heq rest]
    rfl

/-- The loop over the children reads them all back. -/
theorem decodeChildren_encode {decode : Bytes → Except DecodeError Node} {r : Nibble → Raw}
    (is : List Nibble) (hnodup : is.Nodup)
    (hread : ∀ i ∈ is, ∀ rest, decodeRef decode ((r i).encode ++ rest) =
      .ok (expandNode none (r i), rest))
    (children : Nibble → Node) (rest : Bytes) :
    ∃ children', decodeChildren decode is children ((is.flatMap fun i => (r i).encode) ++ rest) =
        .ok (children', rest) ∧
      ∀ j, children' j = if j ∈ is then expandNode none (r j) else children j := by
  induction is generalizing children with
  | nil => exact ⟨children, rfl, fun j => by simp⟩
  | cons i is ih =>
    rw [List.nodup_cons] at hnodup
    obtain ⟨children', hloop, hval⟩ := ih hnodup.2
      (fun j hj => hread j (List.mem_cons_of_mem i hj))
      (Function.update children i (expandNode none (r i)))
    refine ⟨children', ?_, fun j => ?_⟩
    · rw [List.flatMap_cons, List.append_assoc, decodeChildren, hread i List.mem_cons_self]
      exact hloop
    · rw [hval j]
      by_cases hji : j = i
      · subst hji
        simp [hnodup.1]
      · simp [hji]

theorem countValues_pair {a b : Bytes} (ha : IsItem a) (hb : IsItem b) :
    countValues (a ++ b) = .ok 2 := by
  have h := Rlp.countValues_flatten [a, b] (by simp [ha, hb])
  simpa using h

/-- The reader takes the list of children off the buffer and counts them. -/
theorem decodeNodeUnsafe_eq (h : Canonical terminator t) (hfits : Fits t) (hash : Option Hash)
    {fuel : ℕ} (hfuel : (collapse keccak t).encode.length ≤ fuel) (rest : Bytes) :
    ∃ f, (collapse keccak t).payload.length ≤ f ∧
      decodeNodeUnsafe fuel hash ((collapse keccak t).encode ++ rest) =
        match countValues (collapse keccak t).payload with
        | .ok 2 => (decodeShort (decodeNodeUnsafe f none) hash (collapse keccak t).payload).mapError
            (wrapError · "short")
        | .ok 17 => (decodeFull (decodeNodeUnsafe f none) hash (collapse keccak t).payload).mapError
            (wrapError · "full")
        | .ok c => .error ⟨.listElements c, []⟩
        | .error _ => .error ⟨.listElements 0, []⟩ := by
  have hne : (collapse keccak t).encode ++ rest ≠ [] := by
    simp [(isItem_collapse keccak h hfits).1]
  have hlt := Rlp.length_lt_length_encodeList (collapse keccak t).payload
  have hsplit := Rlp.splitList_encodeList _ rest (length_payload_lt keccak h hfits)
  rw [← encode_of_isNode (isNode_of_canonical keccak h)] at hlt hsplit
  obtain ⟨f, rfl⟩ : ∃ f, fuel = f + 1 := Nat.exists_eq_succ_of_ne_zero (by omega)
  exact ⟨f, by omega, by rewrite [decodeNodeUnsafe, if_neg hne, hsplit]; rfl⟩

/-- **An encoded node is read back**, whatever follows it: the result is the expanded node. -/
theorem decodeNodeUnsafe_encode (h : Canonical terminator t) (hfits : Fits t)
    (hash : Option Hash) {fuel : ℕ} (hfuel : (collapse keccak t).encode.length ≤ fuel)
    (rest : Bytes) :
    decodeNodeUnsafe fuel hash ((collapse keccak t).encode ++ rest) =
      .ok (expandNode hash (collapse keccak t)) := by
  induction h generalizing hash fuel rest with
  | @leaf key v hkey =>
    have hlen := hfits.length_key_lt (.leaf hkey)
    have hvlen := hfits.of_short.of_value.2
    have hterm : hasTerm (compactToHex (hexToCompact key)) = true := by
      rw [compactToHex_hexToCompact (.inr hkey)]
      exact hasTerm_of_terminated hkey
    have hpay : (collapse keccak (.short key (.value v))).payload =
        encodeString (hexToCompact key) ++ encodeString v := rfl
    have hread : splitString (encodeString v) = .ok (v, []) := by
      simpa using Rlp.splitString_encodeString v [] (by omega)
    have hkeyRead := Rlp.splitString_encodeString (hexToCompact key) (encodeString v) (by omega)
    obtain ⟨f, -, heq⟩ := decodeNodeUnsafe_eq keccak (.leaf hkey) hfits hash hfuel rest
    rw [heq, hpay, countValues_pair (Rlp.isItem_encodeString _ (by omega))
      (Rlp.isItem_encodeString v (by omega))]
    simp only [decodeShort, hkeyRead, hterm, if_true, hread]
    rfl
  | @extension key c hne hkey hval ih =>
    have hlen := hfits.length_key_lt (.extension hne hkey hval)
    have hterm : hasTerm (compactToHex (hexToCompact key)) = false := by
      rw [compactToHex_hexToCompact (.inl hkey)]
      exact hasTerm_of_notMem hkey
    obtain ⟨f, hf, heq⟩ := decodeNodeUnsafe_eq keccak (.extension hne hkey hval) hfits hash hfuel
      rest
    rw [collapse, Raw.payload, List.length_append] at hf
    have hchild : decodeRef (decodeNodeUnsafe f none)
        (reference keccak (collapse keccak (.full c))).encode =
          .ok (expandNode none (reference keccak (collapse keccak (.full c))), []) := by
      simpa using decodeRef_reference keccak (.inr hval) hfits.of_short
        (fun _ hsmall rest => ih hfits.of_short none (by rw [← hsmall]; omega) rest) []
    have hkeyRead := Rlp.splitString_encodeString (hexToCompact key)
      (reference keccak (collapse keccak (.full c))).encode (by omega)
    rw [heq, collapse, Raw.payload, countValues_pair (Rlp.isItem_encodeString _ (by omega))
      (isItem_reference keccak (.inr hval) hfits.of_short)]
    simp only [decodeShort, hkeyRead, hterm, Bool.false_eq_true, if_false, hchild]
    rfl
  | @full c hchild hterm htwo ih =>
    have hcan : Canonical terminator (.full c) := .full hchild hterm htwo
    obtain ⟨f, hf, heq⟩ := decodeNodeUnsafe_eq keccak hcan hfits hash hfuel rest
    obtain ⟨last, hlen, hlast⟩ := exists_last keccak hcan hfits
    have hle : ∀ i, (reference keccak (collapse keccak (c i))).encode.length ≤ f := by
      intro i
      have hsum := List.le_sum_of_mem (List.mem_map_of_mem
        (f := fun i => (reference keccak (collapse keccak (c i))).encode.length)
        (List.mem_finRange i))
      rw [collapse, Raw.payload, List.length_flatMap] at hf
      omega
    have hcount : countValues (collapse keccak (.full c)).payload = .ok 17 := by
      have h := Rlp.countValues_flatten ((List.finRange 17).map fun i =>
          (reference keccak (collapse keccak (c i))).encode) (by
        intro b hb
        obtain ⟨i, -, rfl⟩ := List.mem_map.mp hb
        by_cases hi : i = terminator
        · rw [hi, hlast, encode_last]
          exact Rlp.isItem_encodeString last (by omega)
        · exact isItem_reference keccak (wellFormed_child hcan hi) (hfits.of_full i))
      simpa [collapse, Raw.payload, List.flatMap_def] using h
    have hpay : (collapse keccak (.full c)).payload = (sixteen.flatMap fun i =>
        (reference keccak (collapse keccak (c i))).encode) ++ encodeString last := by
      rw [collapse, Raw.payload, finRange_eq_sixteen, List.flatMap_append, List.flatMap_singleton,
        hlast, encode_last]
    obtain ⟨children, hloop, hchildren⟩ := decodeChildren_encode sixteen (by decide)
      (r := fun i => reference keccak (collapse keccak (c i))) (fun i hi =>
        decodeRef_reference keccak (wellFormed_child hcan (mem_sixteen_iff.mp hi)) (hfits.of_full i)
          fun hcan' hsmall rest => ih i (mem_sixteen_iff.mp hi) hcan'.ne_nil (hfits.of_full i) none
            (by rw [← hsmall]; exact hle i) rest) (fun _ => .nil) (encodeString last)
    have hread : splitString (encodeString last) = .ok (last, []) := by
      simpa using Rlp.splitString_encodeString last [] (by omega)
    have hresult : (if last = [] then children else
        Function.update children terminator (.value last)) =
          fun i => expandNode none (reference keccak (collapse keccak (c i))) := by
      funext i
      by_cases hi : i = terminator
      · subst hi
        rw [hlast]
        split
        · rw [hchildren, if_neg (by simp [mem_sixteen_iff])]
          rfl
        · rw [Function.update_self]
          rfl
      · have hsome := hchildren i
        rw [if_pos (mem_sixteen_iff.mpr hi)] at hsome
        split
        · exact hsome
        · rw [Function.update_of_ne hi, hsome]
    rw [heq, hcount]
    simp only [decodeFull, hpay, hloop, bind, Except.bind, hread, hresult]
    rfl

/-- **A node that was written is read back.** -/
theorem decodeNode_encode (h : Canonical terminator t) (hfits : Fits t) (hash : Option Hash) :
    decodeNode hash (encoding keccak t) = .ok (expandNode hash (collapse keccak t)) := by
  have hdec := decodeNodeUnsafe_encode keccak h hfits hash le_rfl []
  rwa [List.append_nil] at hdec

end Aster.Trie
