import Mathlib.Data.List.Basic
import Mathlib.Tactic

/-!
# Recursive length prefixes

A byte string is written after a header that gives its length; a list is the concatenation of
its items after such a header.  A single byte below 128 stands for itself.  Lengths from 56 on are
written as big-endian numbers of at most eight bytes, the number of which is in the header.

The reader takes one item off the front of a buffer.  It refuses headers that are longer than
needed, so that there is one encoding of each string.

* `split_encodeString`, `split_encodeList`: the reader takes off what was written, whatever
  follows;
* `countValues_flatten`: a concatenation of items is counted right.
-/

namespace Aster.Lib.Rlp

abbrev Bytes := List UInt8

inductive Kind where
  | byte
  | string
  | list
  deriving DecidableEq, Repr

inductive Error where
  | unexpectedEOF
  | canonSize
  | valueTooLarge
  | expectedString
  | expectedList
  deriving DecidableEq, Repr

/-! ### Big-endian numbers -/

def ofBigEndian (b : Bytes) : ℕ := b.foldl (fun s x => 256 * s + x.toNat) 0

/-- The last `width` digits of a number to the base 256, the highest one first. -/
def bigEndian : ℕ → ℕ → Bytes
  | 0, _ => []
  | width + 1, n => bigEndian width (n / 256) ++ [UInt8.ofNat n]

/-- A number of at most eight bytes without leading zeros. -/
def putint (i : ℕ) : Bytes := (bigEndian 8 i).dropWhile fun x => x.toNat == 0

theorem ofBigEndian_append_singleton (b : Bytes) (x : UInt8) :
    ofBigEndian (b ++ [x]) = 256 * ofBigEndian b + x.toNat := by
  simp [ofBigEndian]

theorem length_bigEndian (width n : ℕ) : (bigEndian width n).length = width := by
  induction width generalizing n with
  | zero => rfl
  | succ width ih => simp [bigEndian, ih]

theorem ofBigEndian_bigEndian (width n : ℕ) (h : n < 256 ^ width) :
    ofBigEndian (bigEndian width n) = n := by
  induction width generalizing n with
  | zero =>
    have : n = 0 := by simpa using h
    simp [bigEndian, ofBigEndian, this]
  | succ width ih =>
    have hdiv : n / 256 < 256 ^ width := by
      rw [Nat.div_lt_iff_lt_mul (by norm_num), ← pow_succ]
      exact h
    rw [bigEndian, ofBigEndian_append_singleton, ih _ hdiv, UInt8.toNat_ofNat']
    omega

theorem ofBigEndian_dropWhile (b : Bytes) :
    ofBigEndian (b.dropWhile fun x => x.toNat == 0) = ofBigEndian b := by
  induction b with
  | nil => rfl
  | cons x b ih =>
    by_cases hx : x.toNat = 0
    · rw [List.dropWhile_cons_of_pos (by simp [hx]), ih]
      simp [ofBigEndian, hx]
    · rw [List.dropWhile_cons_of_neg (by simp [hx])]

theorem ofBigEndian_putint (i : ℕ) (h : i < 2 ^ 64) : ofBigEndian (putint i) = i := by
  rw [putint, ofBigEndian_dropWhile]
  exact ofBigEndian_bigEndian 8 i (by norm_num at h ⊢; exact h)

theorem length_putint_le (i : ℕ) : (putint i).length ≤ 8 :=
  (List.dropWhile_suffix _).length_le.trans_eq (length_bigEndian 8 i)

/-- A positive number has a first digit, which is not zero. -/
theorem putint_cons (i : ℕ) (hpos : 0 < i) (h : i < 2 ^ 64) :
    ∃ x b, putint i = x :: b ∧ x.toNat ≠ 0 := by
  cases hput : putint i with
  | nil =>
    have hval := ofBigEndian_putint i h
    simp only [hput, ofBigEndian, List.foldl_nil] at hval
    omega
  | cons x b =>
    have hhead := List.head?_dropWhile_not (fun x : UInt8 => x.toNat == 0) (bigEndian 8 i)
    rw [← putint, hput] at hhead
    exact ⟨x, b, rfl, by simpa using hhead⟩

/-! ### Writing -/

def header (short long size : ℕ) : Bytes :=
  if size < 56 then [UInt8.ofNat (short + size)]
  else UInt8.ofNat (long + (putint size).length) :: putint size

def encodeString (b : Bytes) : Bytes :=
  match b with
  | [x] => if x.toNat ≤ 0x7f then [x] else header 0x80 0xb7 1 ++ [x]
  | b => header 0x80 0xb7 b.length ++ b

/-- A list, given by the concatenation of its items. -/
def encodeList (payload : Bytes) : Bytes := header 0xc0 0xf7 payload.length ++ payload

/-! ### Reading -/

def readSize (b : Bytes) (slen : ℕ) : Except Error ℕ :=
  if b.length < slen then .error .unexpectedEOF
  else
    let s := ofBigEndian (b.take slen)
    if s < 56 ∨ (b.head?.map UInt8.toNat) = some 0 then .error .canonSize else .ok s

/-- The kind of the first item, the length of its header and the length of its content. -/
def readKind (buf : Bytes) : Except Error (Kind × ℕ × ℕ) :=
  match buf with
  | [] => .error .unexpectedEOF
  | first :: rest => do
    let b := first.toNat
    let (k, tagsize, contentsize) ←
      if b < 0x80 then .ok (Kind.byte, 0, 1)
      else if b < 0xb8 then
        if b - 0x80 = 1 ∧ ((rest.head?.map UInt8.toNat).any fun x => decide (x < 128)) then
          .error .canonSize
        else .ok (Kind.string, 1, b - 0x80)
      else if b < 0xc0 then (readSize rest (b - 0xb7)).map fun s => (Kind.string, b - 0xb7 + 1, s)
      else if b < 0xf8 then .ok (Kind.list, 1, b - 0xc0)
      else (readSize rest (b - 0xf7)).map fun s => (Kind.list, b - 0xf7 + 1, s)
    if buf.length - tagsize < contentsize then .error .valueTooLarge
    else .ok (k, tagsize, contentsize)

/-- The first item of a buffer: its kind, its content and what follows it. -/
def split (b : Bytes) : Except Error (Kind × Bytes × Bytes) := do
  let (k, ts, cs) ← readKind b
  .ok (k, (b.drop ts).take cs, b.drop (ts + cs))

def splitString (b : Bytes) : Except Error (Bytes × Bytes) := do
  let (k, content, rest) ← split b
  if k = .list then .error .expectedString else .ok (content, rest)

def splitList (b : Bytes) : Except Error (Bytes × Bytes) := do
  let (k, content, rest) ← split b
  if k = .list then .ok (content, rest) else .error .expectedList

/-- The number of items in a buffer.  `fuel` bounds the rounds; an item is at least one byte. -/
def countLoop : ℕ → Bytes → Except Error ℕ
  | _, [] => .ok 0
  | 0, _ :: _ => .ok 0
  | fuel + 1, b => do
    let (_, tagsize, size) ← readKind b
    let i ← countLoop fuel (b.drop (tagsize + size))
    .ok (i + 1)

def countValues (b : Bytes) : Except Error ℕ := countLoop b.length b

/-! ### Reading what was written -/

theorem readSize_putint (size : ℕ) (hlong : 56 ≤ size) (h : size < 2 ^ 64) (rest : Bytes) :
    readSize (putint size ++ rest) (putint size).length = .ok size := by
  obtain ⟨x, b, hput, hx⟩ := putint_cons size (by omega) h
  have hval := ofBigEndian_putint size h
  unfold readSize
  rw [if_neg (by simp), List.take_left, hval, if_neg]
  rw [hput]
  simp only [List.cons_append, List.head?_cons, Option.map_some, Option.some.injEq, not_or,
    not_lt]
  exact ⟨hlong, hx⟩

theorem length_putint_pos (size : ℕ) (hpos : 0 < size) (h : size < 2 ^ 64) :
    1 ≤ (putint size).length := by
  obtain ⟨x, b, hput, -⟩ := putint_cons size hpos h
  simp [hput]

theorem toNat_ofNat_of_lt (n : ℕ) (h : n < 256) : (UInt8.ofNat n).toNat = n := by
  rw [UInt8.toNat_ofNat']
  omega

/-- The header of a string, unless the string is a byte that stands for itself. -/
theorem readKind_stringHeader (b rest : Bytes) (h : b.length < 2 ^ 64)
    (hself : ∀ x, b = [x] → 128 ≤ x.toNat) :
    readKind (header 0x80 0xb7 b.length ++ (b ++ rest)) =
      .ok (.string, (header 0x80 0xb7 b.length).length, b.length) := by
  by_cases hshort : b.length < 56
  · have hfirst := toNat_ofNat_of_lt (0x80 + b.length) (by omega)
    have hcanon : ¬ (b.length = 1 ∧
        (((b ++ rest).head?.map UInt8.toNat).any fun x => decide (x < 128)) = true) := by
      rintro ⟨hone, hsmall⟩
      obtain ⟨x, rfl⟩ := List.length_eq_one_iff.mp hone
      have hx := hself x rfl
      simp at hsmall
      omega
    simp only [header, if_pos hshort, List.cons_append, List.nil_append, readKind, hfirst]
    rw [if_neg (by omega), if_pos (by omega), Nat.add_sub_cancel_left, if_neg hcanon]
    simp [bind, Except.bind]
  · have hlen := length_putint_le b.length
    have hpos := length_putint_pos b.length (by omega) h
    have hfirst := toNat_ofNat_of_lt (0xb7 + (putint b.length).length) (by omega)
    have hsize := readSize_putint b.length (by omega) h (b ++ rest)
    simp only [header, if_neg hshort, List.cons_append, readKind, hfirst]
    rw [if_neg (by omega), if_neg (by omega), if_pos (by omega), Nat.add_sub_cancel_left, hsize]
    simp [bind, Except.bind, Except.map]

theorem readKind_listHeader (payload rest : Bytes) (h : payload.length < 2 ^ 64) :
    readKind (header 0xc0 0xf7 payload.length ++ (payload ++ rest)) =
      .ok (.list, (header 0xc0 0xf7 payload.length).length, payload.length) := by
  by_cases hshort : payload.length < 56
  · have hfirst := toNat_ofNat_of_lt (0xc0 + payload.length) (by omega)
    simp only [header, if_pos hshort, List.cons_append, List.nil_append, readKind, hfirst]
    rw [if_neg (by omega), if_neg (by omega), if_neg (by omega), if_pos (by omega),
      Nat.add_sub_cancel_left]
    simp [bind, Except.bind]
  · have hlen := length_putint_le payload.length
    have hpos := length_putint_pos payload.length (by omega) h
    have hfirst := toNat_ofNat_of_lt (0xf7 + (putint payload.length).length) (by omega)
    have hsize := readSize_putint payload.length (by omega) h (payload ++ rest)
    simp only [header, if_neg hshort, List.cons_append, readKind, hfirst]
    rw [if_neg (by omega), if_neg (by omega), if_neg (by omega), if_neg (by omega),
      Nat.add_sub_cancel_left, hsize]
    simp [bind, Except.bind, Except.map]

/-- Taking an item off whose header has been read. -/
theorem split_of_readKind {head content rest : Bytes} {k : Kind}
    (h : readKind (head ++ (content ++ rest)) = .ok (k, head.length, content.length)) :
    split (head ++ (content ++ rest)) = .ok (k, content, rest) := by
  have hdrop : (head ++ (content ++ rest)).drop (head.length + content.length) = rest := by
    rw [← List.append_assoc, ← List.length_append, List.drop_left]
  simp [split, h, bind, Except.bind, hdrop]

/-- The kind a string is read as. -/
def stringKind (b : Bytes) : Kind :=
  match b with
  | [x] => if x.toNat ≤ 0x7f then .byte else .string
  | _ => .string

theorem stringKind_ne_list (b : Bytes) : stringKind b ≠ .list := by
  unfold stringKind
  split
  · split <;> simp
  · simp

theorem stringKind_of_length (b : Bytes) (h : b.length ≠ 1) : stringKind b = .string := by
  unfold stringKind
  split
  · simp at h
  · rfl

/-- **A string is read back**, whatever follows it. -/
theorem split_encodeString (b rest : Bytes) (h : b.length < 2 ^ 64) :
    split (encodeString b ++ rest) = .ok (stringKind b, b, rest) := by
  by_cases hself : ∃ x, b = [x] ∧ x.toNat ≤ 0x7f
  · obtain ⟨x, rfl, hx⟩ := hself
    have hlt : x.toNat < 0x80 := by omega
    simp [encodeString, stringKind, hx, split, readKind, hlt, bind, Except.bind]
  · have hbig : ∀ x, b = [x] → 128 ≤ x.toNat := by
      intro x hx
      by_contra hlt
      exact hself ⟨x, hx, by omega⟩
    have hkind : stringKind b = .string := by
      unfold stringKind
      split
      next x => rw [if_neg (by have := hbig x rfl; omega)]
      next => rfl
    have henc : encodeString b = header 0x80 0xb7 b.length ++ b := by
      unfold encodeString
      split
      next x => rw [if_neg (by have := hbig x rfl; omega)]; rfl
      next => rfl
    rw [henc, hkind, List.append_assoc]
    exact split_of_readKind (readKind_stringHeader b rest h hbig)

/-- **A list is read back**, whatever follows it. -/
theorem split_encodeList (payload rest : Bytes) (h : payload.length < 2 ^ 64) :
    split (encodeList payload ++ rest) = .ok (.list, payload, rest) := by
  rw [encodeList, List.append_assoc]
  exact split_of_readKind (readKind_listHeader payload rest h)

theorem splitString_encodeString (b rest : Bytes) (h : b.length < 2 ^ 64) :
    splitString (encodeString b ++ rest) = .ok (b, rest) := by
  simp [splitString, split_encodeString b rest h, bind, Except.bind, stringKind_ne_list]

theorem splitList_encodeList (payload rest : Bytes) (h : payload.length < 2 ^ 64) :
    splitList (encodeList payload ++ rest) = .ok (payload, rest) := by
  simp [splitList, split_encodeList payload rest h, bind, Except.bind]

/-! ### Items -/

/-- A buffer that is one item. -/
def IsItem (b : Bytes) : Prop :=
  b ≠ [] ∧ ∀ rest, ∃ k content, split (b ++ rest) = .ok (k, content, rest)

theorem encodeString_ne_nil (b : Bytes) : encodeString b ≠ [] := by
  unfold encodeString header
  split
  · split <;> simp
  · split <;> simp

theorem encodeList_ne_nil (payload : Bytes) : encodeList payload ≠ [] := by
  unfold encodeList header
  split <;> simp

theorem isItem_encodeString (b : Bytes) (h : b.length < 2 ^ 64) : IsItem (encodeString b) :=
  ⟨encodeString_ne_nil b, fun rest => ⟨_, _, split_encodeString b rest h⟩⟩

theorem isItem_encodeList (payload : Bytes) (h : payload.length < 2 ^ 64) :
    IsItem (encodeList payload) :=
  ⟨encodeList_ne_nil payload, fun rest => ⟨_, _, split_encodeList payload rest h⟩⟩

theorem countLoop_cons {item rest : Bytes} (hitem : IsItem item) (fuel : ℕ) :
    countLoop (fuel + 1) (item ++ rest) = (countLoop fuel rest).map (· + 1) := by
  obtain ⟨k, content, hsplit⟩ := hitem.2 rest
  have hne : item ++ rest ≠ [] := by simp [hitem.1]
  cases hkind : readKind (item ++ rest) with
  | error e => simp [split, hkind, bind, Except.bind] at hsplit
  | ok res =>
    obtain ⟨k', ts, cs⟩ := res
    simp only [split, hkind, bind, Except.bind, Except.ok.injEq, Prod.mk.injEq] at hsplit
    rw [countLoop, hkind]
    · simp only [bind, Except.bind, hsplit.2.2]
      cases countLoop fuel rest <;> rfl
    · simpa using hne

/-- **A concatenation of items** is counted right. -/
theorem countValues_flatten (items : List Bytes) (h : ∀ b ∈ items, IsItem b) :
    countValues items.flatten = .ok items.length := by
  have hloop : ∀ fuel, items.flatten.length ≤ fuel →
      countLoop fuel items.flatten = .ok items.length := by
    induction items with
    | nil =>
      intro fuel _
      cases fuel <;> rfl
    | cons item items ih =>
      intro fuel hfuel
      have hitem := h item List.mem_cons_self
      have hpos := List.length_pos_iff.mpr hitem.1
      rw [List.flatten_cons] at hfuel ⊢
      rw [List.length_append] at hfuel
      cases fuel with
      | zero => omega
      | succ fuel =>
        rw [countLoop_cons hitem, ih (fun b hb => h b (List.mem_cons_of_mem _ hb)) fuel (by omega)]
        rfl
  exact hloop _ le_rfl

/-! ### Lengths -/

theorem length_header_le (short long size : ℕ) : (header short long size).length ≤ 9 := by
  unfold header
  split
  · simp
  · have := length_putint_le size
    simp
    omega

theorem length_encodeString_le (b : Bytes) : (encodeString b).length ≤ b.length + 9 := by
  unfold encodeString
  split
  next x =>
    split
    · simp
    · have := length_header_le 0x80 0xb7 1
      simp
      omega
  next =>
    have := length_header_le 0x80 0xb7 b.length
    simp
    omega

theorem length_lt_length_encodeList (payload : Bytes) :
    payload.length < (encodeList payload).length := by
  unfold encodeList header
  split <;> simp

end Aster.Lib.Rlp
