import Aster.Lib.DirtyMap

/-!
# Transactions, account states and the state trie

The data every node of the sub-MPT system works on.  A Go transaction object has fields that
are fixed when it is made and three timestamps that are written later; the fixed part is
`Transaction`, and a message or a node that carries timestamps carries a `TimedTx`.

The state trie is a finite map from addresses to account states.  An account that is not
stored counts as one that holds `initBalance`.
-/

namespace Aster.Core

abbrev Address := String

abbrev Hash := List UInt8

/-- A reading of the clock. -/
abbrev Time := ℕ

/-- The fields of a transaction that never change after it is made. -/
structure Transaction where
  sender : Address
  recipient : Address
  nonce : UInt64
  value : ℤ
  txHash : Hash
  deriving DecidableEq, Repr

/-- The timestamps of a transaction: entry into the pool, allocation and execution. -/
structure TxTimes where
  time : Time
  allocateTime : Time
  executionTime : Time
  deriving DecidableEq, Repr

/-- A transaction together with its timestamps, as it travels in a message. -/
structure TimedTx where
  tx : Transaction
  times : TxTimes
  deriving DecidableEq, Repr

def TimedTx.setAllocateTime (t : TimedTx) (now : Time) : TimedTx :=
  { t with times := { t.times with allocateTime := now } }

def TimedTx.setExecutionTime (t : TimedTx) (now : Time) : TimedTx :=
  { t with times := { t.times with executionTime := now } }

@[simp] theorem setAllocateTime_tx (t : TimedTx) (now : Time) :
    (t.setAllocateTime now).tx = t.tx := rfl

@[simp] theorem setExecutionTime_tx (t : TimedTx) (now : Time) :
    (t.setExecutionTime now).tx = t.tx := rfl

/-- `params.Init_Balance`, the balance of an account that is not stored yet. -/
def initBalance : ℤ := 100000000000000000000000000000000000000000000

structure AccountState where
  nonce : UInt64
  balance : ℤ
  deriving DecidableEq, Repr

/-- Reduce the balance of an account; a balance that is too small is left alone. -/
def AccountState.deduct (as : AccountState) (val : ℤ) : AccountState × Bool :=
  if as.balance < val then (as, false) else ({ as with balance := as.balance - val }, true)

/-- Increase the balance of an account. -/
def AccountState.deposit (s : AccountState) (value : ℤ) : AccountState :=
  { s with balance := s.balance + value }

theorem deposit_eq_self_iff (s : AccountState) (value : ℤ) : s.deposit value = s ↔ value = 0 := by
  obtain ⟨nonce, balance⟩ := s
  simp [AccountState.deposit]

/-- A debit leaves the account alone when it is zero, and when it is refused. -/
theorem deduct_eq_self_iff (as : AccountState) (val : ℤ) :
    (as.deduct val).1 = as ↔ val = 0 ∨ as.balance < val := by
  obtain ⟨nonce, balance⟩ := as
  by_cases h : balance < val
  · simp [AccountState.deduct, h]
  · simp [AccountState.deduct, h]

/-- The state trie as the finite map it stores. -/
abbrev Trie := Finmap fun _ : Address => AccountState

/-- A state trie that a call has opened with `trie.New` and will commit. -/
abbrev OpenTrie := Lib.DirtyMap Address AccountState

/-- The state of `a` as the executors read it: a missing account is made on the spot, with
the position of the transaction in the batch as its nonce. -/
def fetch (st : Trie) (a : Address) (i : ℕ) : AccountState :=
  (st.lookup a).getD ⟨UInt64.ofNat i, initBalance⟩

/-- The balance of `a`, stored or not. -/
def balanceOf (st : Trie) (a : Address) : ℤ := (st.lookup a).elim initBalance (·.balance)

theorem fetch_balance (st : Trie) (a : Address) (i : ℕ) :
    (fetch st a i).balance = balanceOf st a := by
  unfold fetch balanceOf
  cases st.lookup a <;> rfl

/-- A change of an account is a new entry of the trie unless the account is there and keeps its
state. -/
theorem lookup_ne_iff (st : Trie) (a : Address) (i : ℕ) (change : AccountState → AccountState) :
    st.lookup a ≠ some (change (fetch st a i)) ↔
      a ∉ st ∨ change (fetch st a i) ≠ fetch st a i := by
  by_cases h : a ∈ st
  · obtain ⟨s, hs⟩ := Finmap.mem_iff.mp h
    simp [fetch, hs, h, eq_comm]
  · simp [Finmap.lookup_eq_none.mpr h, h]

@[simp] theorem balanceOf_empty (a : Address) : balanceOf (∅ : Trie) a = initBalance := by
  simp [balanceOf]

theorem balanceOf_of_not_mem (st : Trie) (a : Address) (h : a ∉ st) :
    balanceOf st a = initBalance := by
  simp [balanceOf, Finmap.lookup_eq_none.mpr h]

theorem balanceOf_insert (st : Trie) (a x : Address) (s : AccountState) :
    balanceOf (st.insert a s) x = if x = a then s.balance else balanceOf st x := by
  by_cases h : x = a
  · subst h
    simp [balanceOf, Finmap.lookup_insert]
  · simp [balanceOf, Finmap.lookup_insert_of_ne st h, h]

end Aster.Core
