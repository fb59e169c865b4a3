import Aster.Lib.Patricia.Tree
import Aster.Lib.Rlp

/-!
# The three encodings of a key

A key is a byte string (KEYBYTES).  In memory it is a list of nibbles, closed by a terminator when
a value lies at its end (HEX), and on disk two nibbles share a byte behind a flag (COMPACT).

* **`compactToHex_hexToCompact`**: a key is read back from its compact form.
-/

namespace Aster.Trie

open Aster.Lib
open Aster.Lib.Rlp (Bytes)

/-- One element of a HEX key: a nibble or the terminator. -/
abbrev Nibble := Fin 17

abbrev Hex := List Nibble

def terminator : Nibble := ⟨16, by decide⟩

def hasTerm (s : Hex) : Bool := s.getLast? == some terminator

/-- `a<<4 | b`, as a byte. -/
def packNibbles (a b : ℕ) : UInt8 := UInt8.ofNat (a <<< 4 ||| b)

/-- The loop of `decodeNibbles`; callers pass an even number of nibbles. -/
def decodeNibbles : Hex → Bytes
  | a :: b :: nibbles => packNibbles a b :: decodeNibbles nibbles
  | _ => []

/-- The flag byte of a compact key without the first nibble. -/
def flagBits (term odd : Bool) : ℕ := (if term then 1 <<< 5 else 0) ||| (if odd then 1 <<< 4 else 0)

/-- The compact form of nibbles, with or without the flag of a terminator. -/
def compactOf (term : Bool) (nibbles : Hex) : Bytes :=
  match nibbles with
  | [] => [UInt8.ofNat (flagBits term false)]
  | first :: rest =>
    if (first :: rest).length % 2 = 1 then
      UInt8.ofNat (flagBits term true ||| first) :: decodeNibbles rest
    else UInt8.ofNat (flagBits term false) :: decodeNibbles (first :: rest)

def hexToCompact (hex : Hex) : Bytes :=
  compactOf (hasTerm hex) (if hasTerm hex then hex.dropLast else hex)

def highNibble (b : UInt8) : Nibble := Fin.ofNat 17 (b.toNat / 16)

def lowNibble (b : UInt8) : Nibble := Fin.ofNat 17 (b.toNat % 16)

/-- The nibbles of a byte string. -/
def nibblesOf (str : Bytes) : Hex := str.flatMap fun b => [highNibble b, lowNibble b]

def keybytesToHex (str : Bytes) : Hex := nibblesOf str ++ [terminator]

def compactToHex (compact : Bytes) : Hex :=
  match compact with
  | [] => []
  | first :: rest =>
    let base := keybytesToHex (first :: rest)
    let base := if (highNibble first).val < 2 then base.dropLast else base
    base.drop (2 - (highNibble first).val % 2)

/-- `none` is the panic on a key of odd length. -/
def hexToKeybytes (hex : Hex) : Option Bytes :=
  let hex := if hasTerm hex then hex.dropLast else hex
  if hex.length % 2 ≠ 0 then none else some (decodeNibbles hex)

/-- The length of the common prefix. -/
abbrev prefixLen (a b : Hex) : ℕ := Patricia.prefixLen a b

/-! ### Nibbles and bytes -/

theorem packNibbles_toNat (a b : ℕ) (ha : a < 16) (hb : b < 16) :
    (packNibbles a b).toNat = a * 16 + b := by
  have hor : a <<< 4 ||| b = a * 16 + b := by
    rw [← Nat.shiftLeft_add_eq_or_of_lt (by simpa using hb) a, Nat.shiftLeft_eq]
  rw [packNibbles, hor]
  exact Lib.Rlp.toNat_ofNat_of_lt _ (by omega)

theorem val_lt_of_ne_terminator {d : Nibble} (h : d ≠ terminator) : d.val < 16 := by
  have hne : d.val ≠ 16 := fun he => h (Fin.ext he)
  omega

theorem ne_terminator_of_val_lt {d : Nibble} (h : d.val < 16) : d ≠ terminator := by
  intro he
  rw [he] at h
  exact absurd h (by decide)

theorem highNibble_val (b : UInt8) : (highNibble b).val = b.toNat / 16 := by
  have hb := b.toNat_lt
  rw [highNibble, Fin.val_ofNat]
  omega

theorem lowNibble_val (b : UInt8) : (lowNibble b).val = b.toNat % 16 := by
  rw [lowNibble, Fin.val_ofNat]
  omega

theorem highNibble_packNibbles (a b : Nibble) (ha : a ≠ terminator) (hb : b ≠ terminator) :
    highNibble (packNibbles a b) = a := by
  have ha' := val_lt_of_ne_terminator ha
  have hb' := val_lt_of_ne_terminator hb
  apply Fin.ext
  rw [highNibble_val, packNibbles_toNat _ _ ha' hb']
  omega

theorem lowNibble_packNibbles (a b : Nibble) (ha : a ≠ terminator) (hb : b ≠ terminator) :
    lowNibble (packNibbles a b) = b := by
  have ha' := val_lt_of_ne_terminator ha
  have hb' := val_lt_of_ne_terminator hb
  apply Fin.ext
  rw [lowNibble_val, packNibbles_toNat _ _ ha' hb']
  omega

theorem highNibble_ne_terminator (b : UInt8) : highNibble b ≠ terminator := by
  apply ne_terminator_of_val_lt
  have hb := b.toNat_lt
  rw [highNibble_val]
  omega

theorem lowNibble_ne_terminator (b : UInt8) : lowNibble b ≠ terminator := by
  apply ne_terminator_of_val_lt
  rw [lowNibble_val]
  omega

theorem terminator_notMem_nibblesOf (str : Bytes) : terminator ∉ nibblesOf str := by
  simp only [nibblesOf, List.mem_flatMap, List.mem_cons, List.not_mem_nil, or_false, not_exists,
    not_and, not_or]
  intro b _
  exact ⟨(highNibble_ne_terminator b).symm, (lowNibble_ne_terminator b).symm⟩

theorem packNibbles_highNibble_lowNibble (b : UInt8) :
    packNibbles (highNibble b) (lowNibble b) = b := by
  have hb := b.toNat_lt
  have hhigh := highNibble_val b
  have hlow := lowNibble_val b
  apply UInt8.toNat_inj.mp
  rw [packNibbles_toNat _ _ (by omega) (by omega), hhigh, hlow]
  omega

theorem decodeNibbles_nibblesOf (str : Bytes) : decodeNibbles (nibblesOf str) = str := by
  induction str with
  | nil => rfl
  | cons b str ih =>
    show packNibbles (highNibble b) (lowNibble b) :: decodeNibbles (nibblesOf str) = b :: str
    rw [packNibbles_highNibble_lowNibble, ih]

/-- An even number of nibbles is packed without loss. -/
theorem nibblesOf_decodeNibbles (hex : Hex) (heven : hex.length % 2 = 0)
    (hterm : terminator ∉ hex) : nibblesOf (decodeNibbles hex) = hex := by
  induction hex using decodeNibbles.induct with
  | case1 a b nibbles ih =>
    rw [List.length_cons, List.length_cons] at heven
    rw [List.mem_cons, List.mem_cons, not_or, not_or] at hterm
    have htail := ih (by omega) hterm.2.2
    show highNibble (packNibbles a b) :: lowNibble (packNibbles a b) ::
      nibblesOf (decodeNibbles nibbles) = a :: b :: nibbles
    rw [htail, highNibble_packNibbles a b (Ne.symm hterm.1) (Ne.symm hterm.2.1),
      lowNibble_packNibbles a b (Ne.symm hterm.1) (Ne.symm hterm.2.1)]
  | case2 hex hshort =>
    cases hex with
    | nil => rfl
    | cons a hex =>
      cases hex with
      | nil => simp at heven
      | cons b hex => exact absurd rfl (hshort a b hex)

theorem length_decodeNibbles_le (hex : Hex) : (decodeNibbles hex).length ≤ hex.length := by
  fun_induction decodeNibbles hex with
  | case1 a b nibbles ih =>
    simp only [List.length_cons]
    omega
  | case2 => simp

/-! ### Hexadecimal keys -/

@[simp] theorem hasTerm_append_terminator (s : Hex) : hasTerm (s ++ [terminator]) = true := by
  simp [hasTerm]

theorem hasTerm_of_notMem {s : Hex} (h : terminator ∉ s) : hasTerm s = false := by
  rw [hasTerm, beq_eq_false_iff_ne]
  intro hlast
  exact h (List.mem_of_getLast? hlast)

theorem hexToKeybytes_keybytesToHex (str : Bytes) :
    hexToKeybytes (keybytesToHex str) = some str := by
  have hlen : (nibblesOf str).length % 2 = 0 := by simp [nibblesOf]
  simp only [hexToKeybytes, keybytesToHex, hasTerm_append_terminator, if_true,
    List.dropLast_concat]
  rw [if_neg (by simp [hlen]), decodeNibbles_nibblesOf]

theorem keybytesToHex_injective : Function.Injective keybytesToHex := by
  intro a b h
  have := congrArg hexToKeybytes h
  simpa [hexToKeybytes_keybytesToHex] using this

/-! ### Compact keys -/

theorem hexToCompact_closed (s : Hex) :
    hexToCompact (s ++ [terminator]) = compactOf true s := by
  simp [hexToCompact]

theorem hexToCompact_open {s : Hex} (h : terminator ∉ s) :
    hexToCompact s = compactOf false s := by
  simp [hexToCompact, hasTerm_of_notMem h]

/-- The high nibble of the flag byte is the flags. -/
theorem toNat_flag (term odd : Bool) (d : ℕ) (hd : d < 16) :
    (UInt8.ofNat (flagBits term odd ||| d)).toNat =
      ((if term then 2 else 0) + if odd then 1 else 0) * 16 + d := by
  have hflag : flagBits term odd = ((if term then 2 else 0) + if odd then 1 else 0) <<< 4 := by
    cases term <;> cases odd <;> rfl
  rw [hflag, ← Nat.shiftLeft_add_eq_or_of_lt (by simpa using hd), Nat.shiftLeft_eq]
  apply Lib.Rlp.toNat_ofNat_of_lt
  cases term <;> cases odd <;> simp <;> omega

theorem highNibble_flag (term odd : Bool) (d : ℕ) (hd : d < 16) :
    (highNibble (UInt8.ofNat (flagBits term odd ||| d))).val =
      (if term then 2 else 0) + if odd then 1 else 0 := by
  rw [highNibble_val, toNat_flag term odd d hd]
  omega

theorem lowNibble_flag (term odd : Bool) (d : Nibble) (hd : d ≠ terminator) :
    lowNibble (UInt8.ofNat (flagBits term odd ||| d)) = d := by
  have hd' := val_lt_of_ne_terminator hd
  apply Fin.ext
  rw [lowNibble_val, toNat_flag term odd d hd']
  omega

/-- Reading a compact key: the flag byte, then the nibbles. -/
theorem compactToHex_cons (term odd : Bool) (d : ℕ) (hd : d < 16) (rest : Bytes) :
    compactToHex (UInt8.ofNat (flagBits term odd ||| d) :: rest) =
      (if odd then [lowNibble (UInt8.ofNat (flagBits term odd ||| d))] else []) ++ nibblesOf rest ++
        if term then [terminator] else [] := by
  have hhigh := highNibble_flag term odd d hd
  generalize UInt8.ofNat (flagBits term odd ||| d) = first at hhigh ⊢
  have hbase : keybytesToHex (first :: rest) =
      (highNibble first :: lowNibble first :: nibblesOf rest) ++ [terminator] := rfl
  simp only [compactToHex, hhigh, hbase, List.dropLast_concat]
  cases term <;> cases odd <;> simp

theorem compactToHex_compactOf (term : Bool) (s : Hex) (h : terminator ∉ s) :
    compactToHex (compactOf term s) = s ++ if term then [terminator] else [] := by
  cases s with
  | nil =>
    have hread := compactToHex_cons term false 0 (by omega) []
    simpa [compactOf, nibblesOf] using hread
  | cons first nibbles =>
    rw [List.mem_cons, not_or] at h
    have hd := val_lt_of_ne_terminator (Ne.symm h.1)
    unfold compactOf
    simp only
    split
    · next hodd =>
      have heven : nibbles.length % 2 = 0 := by
        simp only [List.length_cons] at hodd
        omega
      rw [compactToHex_cons term true first.val hd, lowNibble_flag _ _ _ (Ne.symm h.1),
        nibblesOf_decodeNibbles nibbles heven h.2]
      simp
    · next heven =>
      have hread := compactToHex_cons term false 0 (by omega) (decodeNibbles (first :: nibbles))
      rw [Nat.or_zero, nibblesOf_decodeNibbles (first :: nibbles) (by omega)
        (by simp [h.1, h.2])] at hread
      simpa using hread

/-- **A key is read back from its compact form**, whether a value lies at its end or not. -/
theorem compactToHex_hexToCompact {hex : Hex}
    (h : terminator ∉ hex ∨ Patricia.Terminated terminator hex) :
    compactToHex (hexToCompact hex) = hex := by
  rcases h with hopen | hclosed
  · rw [hexToCompact_open hopen, compactToHex_compactOf false hex hopen]
    simp
  · obtain ⟨s, hs, rfl⟩ := hclosed.exists_append
    rw [hexToCompact_closed, compactToHex_compactOf true s hs]
    simp

theorem length_compactOf_le (term : Bool) (s : Hex) :
    (compactOf term s).length ≤ s.length + 1 := by
  have hle := length_decodeNibbles_le
  fun_cases compactOf term s with
  | case1 => simp
  | case2 first rest _ => simpa using (hle rest).trans (Nat.le_succ _)
  | case3 first rest _ => simpa using hle (first :: rest)

theorem length_hexToCompact_le (hex : Hex) : (hexToCompact hex).length ≤ hex.length + 1 := by
  rw [hexToCompact]
  refine (length_compactOf_le _ _).trans (Nat.succ_le_succ ?_)
  split
  · exact (List.dropLast_sublist hex).length_le
  · exact le_rfl

end Aster.Trie
