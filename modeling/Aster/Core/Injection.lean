import Aster.Core.Transaction

/-!
# Transactions of the data set

A row of the CSV file becomes a transaction in `data2tx`.  Addresses are long enough to have a
first character, but nothing says that they are hexadecimal, and the value is whatever integer
`SetString` reads, negative ones included.

Strings are taken as sequences of characters, so rows with characters of several bytes are left
out.
-/

namespace Aster.Core

/-- The hash of a new transaction: SHA-256 of the encoding of what is set at that time. -/
abbrev TxHasher := Address → Address → ℤ → UInt64 → Time → Hash

/-- `NewTransaction4`, and `NewTransaction` with the present time. -/
def newTransaction (hash : TxHasher) (sender recipient : Address) (value : ℤ) (nonce : UInt64)
    (proposeTime : Time) : Transaction :=
  ⟨sender, recipient, nonce, value, hash sender recipient value nonce proposeTime⟩

/-- A number in decimal digits, at least one of them. -/
def scanDigits (cs : List Char) : Option ℕ :=
  if cs ≠ [] ∧ cs.all Char.isDigit then some (Nat.ofDigitChars 10 cs 0) else none

/-- `SetString` of `big.Int` in base 10. -/
def setString (s : String) : Option ℤ :=
  match s.toList with
  | '-' :: cs => (scanDigits cs).map fun n => -(n : ℤ)
  | '+' :: cs => (scanDigits cs).map fun n => (n : ℤ)
  | cs => (scanDigits cs).map fun n => (n : ℤ)

/-- The address after its first two characters. -/
def stripAddress (s : String) : Address := String.ofList (s.toList.drop 2)

/-- `data2tx`.  The outer `none` is a panic: a row that is too short, or a value that is no
number. -/
def data2tx (hash : TxHasher) (data : List String) (nonce : UInt64) (now : Time) :
    Option (Option Transaction) := do
  let fromIsContract ← data[6]?
  if fromIsContract ≠ "0" then some none
  else do
    let toIsContract ← data[7]?
    if toIsContract ≠ "0" then some none
    else do
      let sender ← data[3]?
      let recipient ← data[4]?
      if 16 < sender.length ∧ 16 < recipient.length ∧ sender ≠ recipient then do
        let value ← data[8]?
        let val ← setString value
        some (some (newTransaction hash (stripAddress sender) (stripAddress recipient) val nonce
          now))
      else some none

/-- Some row of a data set gives this transaction. -/
def Accepted (tx : Transaction) : Prop :=
  ∃ hash data nonce now, data2tx hash data nonce now = some (some tx)

theorem stripAddress_ne_empty {s : String} (h : 16 < s.length) : stripAddress s ≠ "" := by
  intro he
  have hlen := congrArg String.length he
  simp only [stripAddress, String.length_ofList, List.length_drop, String.length_toList,
    String.length_empty] at hlen
  omega

/-- An accepted transaction has two addresses. -/
theorem Accepted.addresses {tx : Transaction} (h : Accepted tx) :
    tx.sender ≠ "" ∧ tx.recipient ≠ "" := by
  obtain ⟨hash, data, nonce, now, h⟩ := h
  obtain ⟨fromIsContract, -, h⟩ := Option.bind_eq_some_iff.mp h
  split_ifs at h with hfrom
  · cases h
  obtain ⟨toIsContract, -, h⟩ := Option.bind_eq_some_iff.mp h
  split_ifs at h with hto
  · cases h
  obtain ⟨sender, -, h⟩ := Option.bind_eq_some_iff.mp h
  obtain ⟨recipient, -, h⟩ := Option.bind_eq_some_iff.mp h
  split_ifs at h with hlen
  · obtain ⟨value, -, h⟩ := Option.bind_eq_some_iff.mp h
    obtain ⟨val, -, h⟩ := Option.bind_eq_some_iff.mp h
    cases h
    exact ⟨stripAddress_ne_empty hlen.1, stripAddress_ne_empty hlen.2.1⟩
  · cases h

end Aster.Core
