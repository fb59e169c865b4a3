import Aster.Chain.DbMPT
import Mathlib.Data.List.Pairwise

/-!
# The two executors

`GetUpdateStatusTrie` of the chain in memory reads and writes the trie one transaction at a time,
the one of the chain on disk reads all accounts first.  The first one skips a transaction whose
debit is not covered and never commits what it has written; the second one leaves out the debit
alone.

* `executed_root_iff`: the root that the chain in memory returns;
* `updateStatus_lookup`, `execute_lookup`: what the executors write for an account.  One that is
  not in the trie gets the number of its first transaction as nonce from the one executor, and that
  of its last transaction from the other;
* **`same_states_iff`**: the states are the same when no new account occurs twice;
* **`total_unchanged_iff`**: the total of the balances stays when all debits are covered.
-/

namespace Aster.Chain

open Aster.Core Aster.Lib Aster.Lib.DirtyMap
open DbMPT (halves applyHalves Writing)

variable {cfg : ChainConfig} {l : Ledger} {a : Address}

/-! ### The root of the chain in memory -/

/-- What a trie opened at the root contains, and whether it is the result of the execution. -/
structure Reflects (cfg : ChainConfig) (l : Ledger) (st st' : Trie) (rt : Hash) : Prop where
  root : rt = cfg.stateRoot st'
  opened : trieNew cfg l.triedb rt = some st'
  old : rt = l.root → st' = st

/-- A transaction between two addresses. -/
def payment (sender recipient : Address) (value : ℤ) : PoolTx :=
  ⟨⟨sender, recipient, 0, value, []⟩, false, false⟩

/-- A half of the transaction is executed on the account. -/
def hasHalf (cfg : ChainConfig) (l : Ledger) (p : PoolTx) (a : Address) : Bool :=
  match halves cfg l p with
  | some (sender, recipient) => (sender && p.tx.sender == a) || (recipient && p.tx.recipient == a)
  | none => false

/-- The positions of these transactions, from position `i` on. -/
def positions (cfg : ChainConfig) (l : Ledger) (a : Address) : ℕ → List PoolTx → List ℕ
  | _, [] => []
  | i, p :: txs =>
    if hasHalf cfg l p a then i :: positions cfg l a (i + 1) txs
    else positions cfg l a (i + 1) txs

/-- The balances after a list. -/
def runHalves (cfg : ChainConfig) (l : Ledger) : (Address → ℤ) → List PoolTx → Address → ℤ
  | b, [] => b
  | b, p :: txs =>
    match halves cfg l p with
    | some (sender, recipient) => runHalves cfg l (applyHalves b p.tx sender recipient) txs
    | none => b

/-- No debit exceeds the running balance, and all owners can be worked out. -/
def Affordable (cfg : ChainConfig) (l : Ledger) : (Address → ℤ) → List PoolTx → Prop
  | _, [] => True
  | b, p :: txs => ∃ sender recipient, halves cfg l p = some (sender, recipient) ∧
      (sender = true → p.tx.value ≤ b p.tx.sender) ∧
      Affordable cfg l (applyHalves b p.tx sender recipient) txs

/-- The state of an account with the balance `v`: a stored account keeps its nonce, a new one gets
`fresh`. -/
def settled (stored : Option AccountState) (fresh : Option UInt64) (v : ℤ) : Option AccountState :=
  match stored with
  | some s => some ⟨s.nonce, v⟩
  | none => fresh.map fun nonce => ⟨nonce, v⟩

theorem settled_self (st : Trie) (a : Address) :
    settled (st.lookup a) none (balanceOf st a) = st.lookup a := by
  rw [balanceOf]
  cases st.lookup a <;> rfl

theorem settled_fetch (st : Trie) (a : Address) (i : ℕ) (v : ℤ) :
    settled (st.lookup a) (some (UInt64.ofNat i)) v = some ⟨(fetch st a i).nonce, v⟩ := by
  rw [fetch]
  cases st.lookup a <;> rfl

theorem hasHalf_eq {p : PoolTx} {sender recipient : Bool}
    (h : halves cfg l p = some (sender, recipient)) (a : Address) :
    hasHalf cfg l p a =
      ((sender && p.tx.sender == a) || (recipient && p.tx.recipient == a)) := by
  rw [hasHalf, h]

theorem runHalves_cons {p : PoolTx} {sender recipient : Bool}
    (h : halves cfg l p = some (sender, recipient)) (b : Address → ℤ) (txs : List PoolTx) :
    runHalves cfg l b (p :: txs) = runHalves cfg l (applyHalves b p.tx sender recipient) txs := by
  rw [runHalves, h]

theorem le_of_mem_positions {i k : ℕ} {txs : List PoolTx} (h : k ∈ positions cfg l a i txs) :
    i ≤ k ∧ k < i + txs.length := by
  induction txs generalizing i with
  | nil => cases h
  | cons p txs ih =>
    rw [positions] at h
    rw [List.length_cons]
    split_ifs at h with hhalf
    · rcases List.mem_cons.mp h with rfl | hmem
      · omega
      · have := ih hmem
        omega
    · have := ih h
      omega

theorem positions_pairwise (cfg : ChainConfig) (l : Ledger) (a : Address) (i : ℕ)
    (txs : List PoolTx) : (positions cfg l a i txs).Pairwise (· < ·) := by
  induction txs generalizing i with
  | nil => exact .nil
  | cons p txs ih =>
    rw [positions]
    split_ifs with hhalf
    · exact .cons (fun k hk => (le_of_mem_positions hk).1) (ih (i + 1))
    · exact ih (i + 1)

/-! ### The chain in memory -/

/-- A transaction whose debit is covered. -/
def stepTrie (st : Trie) (p : PoolTx) (i : ℕ) (sender recipient : Bool) : Trie :=
  let st := if sender then
    st.insert p.tx.sender ((fetch st p.tx.sender i).deduct p.tx.value).1 else st
  if recipient then
    st.insert p.tx.recipient ((fetch st p.tx.recipient i).deposit p.tx.value) else st

/-- The owners that stand behind the halves. -/
theorem halves_cases {p : PoolTx} {sender recipient : Bool}
    (h : halves cfg l p = some (sender, recipient)) :
    (p.relayed = true ∧ sender = false ∨ p.relayed = false ∧
      ∃ own, l.owns cfg p.tx.sender = some own ∧ sender = (own || p.hasBroker)) ∧
      ∃ own, l.owns cfg p.tx.recipient = some own ∧ recipient = (own || p.hasBroker) := by
  rw [DbMPT.halves] at h
  cases hrelayed : p.relayed with
  | true =>
    rw [hrelayed, if_pos rfl, Option.bind_eq_bind, Option.bind_some] at h
    obtain ⟨own, hown, hres⟩ := Option.bind_eq_some_iff.mp h
    obtain ⟨own', hown', rfl⟩ := Option.map_eq_some_iff.mp hown
    cases hres
    exact ⟨.inl ⟨rfl, rfl⟩, own', hown', rfl⟩
  | false =>
    rw [hrelayed, if_neg Bool.false_ne_true] at h
    obtain ⟨own₁, hown₁, h⟩ := Option.bind_eq_some_iff.mp h
    obtain ⟨own₁', hown₁', rfl⟩ := Option.map_eq_some_iff.mp hown₁
    obtain ⟨own, hown, hres⟩ := Option.bind_eq_some_iff.mp h
    obtain ⟨own', hown', rfl⟩ := Option.map_eq_some_iff.mp hown
    cases hres
    exact ⟨.inr ⟨rfl, own₁', hown₁', rfl⟩, own', hown', rfl⟩

theorem updateStatus_cons {st : Trie} {p : PoolTx} {txs : List PoolTx} {i : ℕ}
    {sender recipient : Bool} (hhalves : halves cfg l p = some (sender, recipient))
    (hcovered : sender = true → p.tx.value ≤ balanceOf st p.tx.sender) :
    updateStatus cfg l i (p :: txs) st =
      updateStatus cfg l (i + 1) txs (stepTrie st p i sender recipient) := by
  have hskip : ¬ (sender && decide ((fetch st p.tx.sender i).balance < p.tx.value)) = true := by
    rw [fetch_balance]
    intro hboth
    rw [Bool.and_eq_true, decide_eq_true_eq] at hboth
    exact absurd (hcovered hboth.1) (not_le.mpr hboth.2)
  obtain ⟨hsender, own', hown', rfl⟩ := halves_cases hhalves
  rw [updateStatus]
  rcases hsender with ⟨hrelayed, rfl⟩ | ⟨hrelayed, own, hown, rfl⟩
  · rw [hrelayed, if_pos rfl]
    simp only [Option.bind_eq_bind, Option.bind_some, if_neg hskip, hown']
    rfl
  · rw [hrelayed, if_neg Bool.false_ne_true, hown]
    simp only [Option.map_some, Option.bind_eq_bind, Option.bind_some, if_neg hskip, hown']
    rfl

theorem lookup_insert_beq (st : Trie) (x a : Address) (s : AccountState) :
    (st.insert x s).lookup a = if x == a then some s else st.lookup a := by
  by_cases h : x = a
  · rw [h, Finmap.lookup_insert, beq_self_eq_true, if_pos rfl]
  · rw [Finmap.lookup_insert_of_ne _ (Ne.symm h), beq_false_of_ne h]
    rfl

theorem stepTrie_balance {st : Trie} {p : PoolTx} (i : ℕ) {sender recipient : Bool}
    (hcovered : sender = true → p.tx.value ≤ balanceOf st p.tx.sender) :
    balanceOf (stepTrie st p i sender recipient) =
      applyHalves (balanceOf st) p.tx sender recipient := by
  have hdebit : ∀ st : Trie, p.tx.value ≤ balanceOf st p.tx.sender →
      balanceOf (st.insert p.tx.sender ((fetch st p.tx.sender i).deduct p.tx.value).1) =
        Transfers.shift (balanceOf st) p.tx.sender (-p.tx.value) := by
    intro st hle
    funext x
    rw [balanceOf_insert, Transfers.shift_apply, AccountState.deduct, fetch_balance,
      if_neg (not_lt.mpr hle)]
    split_ifs with hx
    · rw [hx]
      rfl
    · rw [add_zero]
  have hcredit : ∀ st : Trie,
      balanceOf (st.insert p.tx.recipient ((fetch st p.tx.recipient i).deposit p.tx.value)) =
        Transfers.shift (balanceOf st) p.tx.recipient p.tx.value := by
    intro st
    funext x
    rw [balanceOf_insert, Transfers.shift_apply, AccountState.deposit, fetch_balance]
    split_ifs with hx
    · rw [hx]
    · rw [add_zero]
  cases sender <;> cases recipient
  · simp [stepTrie, DbMPT.applyHalves]
  · simp [stepTrie, DbMPT.applyHalves, hcredit]
  · simp [stepTrie, DbMPT.applyHalves, hdebit st (hcovered rfl), hcovered rfl]
  · simp [stepTrie, DbMPT.applyHalves, hcredit, hdebit st (hcovered rfl), hcovered rfl]

theorem deduct_nonce (s : AccountState) (v : ℤ) : (s.deduct v).1.nonce = s.nonce := by
  rw [AccountState.deduct]
  split_ifs <;> rfl

theorem fetch_insert_nonce (st : Trie) (x a : Address) (i : ℕ) (v : ℤ) :
    (fetch (st.insert x ((fetch st x i).deduct v).1) a i).nonce = (fetch st a i).nonce := by
  by_cases h : x = a
  · rw [h, fetch, Finmap.lookup_insert, Option.getD_some, deduct_nonce]
  · rw [fetch, Finmap.lookup_insert_of_ne _ (Ne.symm h), ← fetch]

/-- One transaction writes the accounts of its halves, with the nonces they are read with. -/
theorem stepTrie_lookup (st : Trie) (p : PoolTx) (i : ℕ) (sender recipient : Bool) (a : Address) :
    (((sender && p.tx.sender == a) || (recipient && p.tx.recipient == a)) = true →
      ∃ s, (stepTrie st p i sender recipient).lookup a = some s ∧
        s.nonce = (fetch st a i).nonce) ∧
    (((sender && p.tx.sender == a) || (recipient && p.tx.recipient == a)) = false →
      (stepTrie st p i sender recipient).lookup a = st.lookup a) := by
  -- the account is written last as the recipient, and otherwise as the sender
  cases hr : recipient && p.tx.recipient == a with
  | true =>
    obtain ⟨hrec, heq⟩ := Bool.and_eq_true_iff.mp hr
    obtain rfl := eq_of_beq heq
    rw [Bool.or_true]
    refine ⟨fun _ => ?_, fun h => absurd h (by decide)⟩
    rw [stepTrie, hrec, if_pos rfl, Finmap.lookup_insert]
    refine ⟨_, rfl, ?_⟩
    cases sender with
    | true => exact fetch_insert_nonce st p.tx.sender p.tx.recipient i p.tx.value
    | false => rfl
  | false =>
    have hlast : (stepTrie st p i sender recipient).lookup a =
        (if sender then st.insert p.tx.sender ((fetch st p.tx.sender i).deduct p.tx.value).1
          else st).lookup a := by
      rw [stepTrie]
      cases recipient with
      | true =>
        rw [Bool.true_and] at hr
        rw [if_pos rfl, lookup_insert_beq, hr]
        rfl
      | false => rfl
    rw [hlast, Bool.or_false]
    cases sender with
    | true =>
      rw [if_pos rfl, lookup_insert_beq, Bool.true_and]
      refine ⟨fun h => ?_, fun h => by rw [h]; rfl⟩
      obtain rfl := eq_of_beq h
      rw [if_pos h]
      exact ⟨_, rfl, deduct_nonce _ _⟩
    | false =>
      rw [Bool.false_and]
      exact ⟨fun h => absurd h Bool.false_ne_true, fun _ => rfl⟩

/-- **The chain in memory**: a new account gets the position of its first transaction. -/
theorem updateStatus_lookup {st : Trie} {i : ℕ} {txs : List PoolTx}
    (hafford : Affordable cfg l (balanceOf st) txs) :
    ∃ st', updateStatus cfg l i txs st = some st' ∧ ∀ a, st'.lookup a =
      settled (st.lookup a) ((positions cfg l a i txs).head?.map UInt64.ofNat)
        (runHalves cfg l (balanceOf st) txs a) := by
  induction txs generalizing i st with
  | nil => exact ⟨st, rfl, fun a => (settled_self st a).symm⟩
  | cons p txs ih =>
    obtain ⟨sender, recipient, hhalves, hcovered, hrest⟩ := hafford
    rw [← stepTrie_balance i hcovered] at hrest
    obtain ⟨st', hrun, hlookup⟩ := ih (i := i + 1) hrest
    refine ⟨st', by rw [updateStatus_cons hhalves hcovered, hrun], fun a => ?_⟩
    obtain ⟨hwritten, hkept⟩ := stepTrie_lookup st p i sender recipient a
    rw [← hasHalf_eq hhalves a] at hwritten hkept
    rw [hlookup, runHalves_cons hhalves, ← stepTrie_balance i hcovered, positions]
    cases hhalf : hasHalf cfg l p a with
    | true =>
      obtain ⟨s, hs, hnonce⟩ := hwritten hhalf
      rw [if_pos rfl, List.head?_cons, Option.map_some, settled_fetch, hs, settled, hnonce]
    | false =>
      rw [hkept hhalf]
      rfl

/-! ### The chain on disk -/

namespace DbMPT

variable {w w' : Writing}

theorem readTx_lookup {st : Trie} {acc acc' : Account2State} {p : PoolTx × ℕ}
    (h : readTx cfg l st acc p = some acc') (a : Address) :
    acc'.lookup a = if hasHalf cfg l p.1 a then some (fetch st a p.2) else acc.lookup a := by
  obtain ⟨⟨sender, recipient⟩, hhalves, hres⟩ := Option.bind_eq_some_iff.mp h
  have hread : ∀ (acc : Account2State) (x : Address),
      (acc.insert x (fetch st x p.2)).lookup a =
        if x == a then some (fetch st a p.2) else acc.lookup a := by
    intro acc x
    rw [lookup_insert_beq]
    by_cases hx : x = a
    · rw [hx]
    · rw [beq_false_of_ne hx]
      rfl
  cases hres
  rw [hasHalf_eq hhalves]
  cases sender <;> cases recipient
  · rfl
  · simp [hread]
  · simp [hread]
  · simp only [if_true, hread, Bool.true_and]
    cases p.1.tx.sender == a <;> cases p.1.tx.recipient == a <;> rfl

/-- The first loop reads an account with the position of its last transaction. -/
theorem readTxs_lookup {st : Trie} {txs : List PoolTx} {i : ℕ} {acc acc' : Account2State}
    (h : (txs.zipIdx i).foldlM (readTx cfg l st) acc = some acc') (a : Address) :
    acc'.lookup a =
      ((positions cfg l a i txs).getLast?.map (fetch st a)).or (acc.lookup a) := by
  induction txs generalizing i acc with
  | nil =>
    cases h
    rfl
  | cons p txs ih =>
    rw [List.zipIdx_cons, List.foldlM_cons] at h
    obtain ⟨acc₁, h₁, hrest⟩ := Option.bind_eq_some_iff.mp h
    rw [ih hrest, readTx_lookup h₁, positions]
    split_ifs with hhalf
    · rw [List.getLast?_cons]
      cases (positions cfg l a (i + 1) txs).getLast? <;> rfl
    · rfl

theorem writeHalf_lookup {x : Address} {s : AccountState}
    (hs : w.account2State.lookup x = some s) (i : ℕ) (change : AccountState → AccountState)
    (a : Address) :
    (writeHalf w x i change).st.map.lookup a =
        (if x == a then some (change s) else w.st.map.lookup a) ∧
      (writeHalf w x i change).account2State.lookup a =
        if x == a then some (change s) else w.account2State.lookup a := by
  rw [writeHalf_eq hs]
  exact ⟨lookup_insert_beq _ _ _ _, lookup_insert_beq _ _ _ _⟩

/-- The nonces of the copies. -/
def Nonced (nonce : Address → UInt64) (w : Writing) : Prop :=
  ∀ a s, w.account2State.lookup a = some s → s.nonce = nonce a

variable {nonce : Address → UInt64}

/-- A half writes its account with the nonce of the copy, and no other one. -/
theorem Nonced.writeHalf (h : Nonced nonce w) {x : Address} (hx : x ∈ w.account2State) (i : ℕ)
    {change : AccountState → AccountState} (hchange : ∀ s, (change s).nonce = s.nonce) :
    Nonced nonce (writeHalf w x i change) ∧ ∀ a,
      (x == a) = true ∧ (∃ s, (DbMPT.writeHalf w x i change).st.map.lookup a = some s ∧
          s.nonce = nonce a) ∨
        (x == a) = false ∧
          (DbMPT.writeHalf w x i change).st.map.lookup a = w.st.map.lookup a := by
  obtain ⟨s, hs⟩ := Finmap.mem_iff.mp hx
  have hnonce : (change s).nonce = nonce x := by rw [hchange, h x s hs]
  constructor
  · intro a u hu
    rw [(writeHalf_lookup hs i change a).2] at hu
    split_ifs at hu with heq
    · cases hu
      rw [hnonce, eq_of_beq heq]
    · exact h a u hu
  · intro a
    rw [(writeHalf_lookup hs i change a).1]
    cases heq : x == a with
    | true => exact .inl ⟨rfl, _, rfl, by rw [hnonce, eq_of_beq heq]⟩
    | false => exact .inr ⟨rfl, rfl⟩

theorem debit_nonce (v : ℤ) (s : AccountState) : (debit v s).nonce = s.nonce := deduct_nonce s v

theorem credit_nonce (v : ℤ) (s : AccountState) : (credit v s).nonce = s.nonce := rfl

/-- One transaction writes the accounts of its halves, with the nonces of the copies. -/
theorem writeTx_lookup {p : PoolTx × ℕ} (h : writeTx cfg l w p = some w')
    (hcov : Covers cfg l w.account2State p.1) (hn : Nonced nonce w) :
    Nonced nonce w' ∧ ∀ a,
      hasHalf cfg l p.1 a = true ∧ (∃ s, w'.st.map.lookup a = some s ∧ s.nonce = nonce a) ∨
        hasHalf cfg l p.1 a = false ∧ w'.st.map.lookup a = w.st.map.lookup a := by
  obtain ⟨sender, recipient, hhalves, rfl⟩ := writeTx_cases h
  obtain ⟨hs, hr⟩ := hcov sender recipient hhalves
  simp only [hasHalf_eq hhalves]
  cases sender <;> cases recipient
  · exact ⟨hn, fun a => .inr ⟨rfl, rfl⟩⟩
  · simpa [writeHalves] using hn.writeHalf (hr rfl) p.2 (credit_nonce p.1.tx.value)
  · simpa [writeHalves] using hn.writeHalf (hs rfl) p.2 (debit_nonce p.1.tx.value)
  · obtain ⟨hn₁, hlookup₁⟩ := hn.writeHalf (hs rfl) p.2 (debit_nonce p.1.tx.value)
    obtain ⟨hn₂, hlookup₂⟩ := hn₁.writeHalf (mem_writeHalf (hr rfl) p.2 _) p.2
      (credit_nonce p.1.tx.value)
    refine ⟨hn₂, fun a => ?_⟩
    simp only [writeHalves, if_true, Bool.true_and]
    rcases hlookup₂ a with ⟨heq, hwritten⟩ | ⟨hne, hkept⟩
    · exact .inl ⟨by rw [heq, Bool.or_true], hwritten⟩
    · rw [hkept, hne, Bool.or_false]
      exact hlookup₁ a

theorem Covers.mem {acc : Account2State} {p : PoolTx} (h : Covers cfg l acc p)
    (hhalf : hasHalf cfg l p a = true) : a ∈ acc := by
  rw [hasHalf] at hhalf
  split at hhalf
  · next sender recipient hhalves =>
    obtain ⟨hs, hr⟩ := h sender recipient hhalves
    rcases Bool.or_eq_true_iff.mp hhalf with hboth | hboth
    · obtain ⟨hsender, heq⟩ := Bool.and_eq_true_iff.mp hboth
      rw [← eq_of_beq heq]
      exact hs hsender
    · obtain ⟨hrecipient, heq⟩ := Bool.and_eq_true_iff.mp hboth
      rw [← eq_of_beq heq]
      exact hr hrecipient
  · cases hhalf

/-- An account with a copy has the nonce of the copy, or none yet. -/
theorem Synced.settled (hsync : Synced w) (hn : Nonced nonce w) (ha : a ∈ w.account2State)
    (v : ℤ) : settled (w.st.map.lookup a) (some (nonce a)) v = some ⟨nonce a, v⟩ := by
  obtain ⟨s, hs⟩ := Finmap.mem_iff.mp ha
  rcases hsync a s hs with hmap | ⟨hnot, -⟩
  · rw [hmap, Chain.settled, hn a s hs]
  · rw [Finmap.lookup_eq_none.mpr hnot]
    rfl

/-- The second loop: a stored account keeps its nonce, a new one gets the one of its copy. -/
theorem writeTxs_lookup {txs : List PoolTx} {i : ℕ}
    (h : (txs.zipIdx i).foldlM (writeTx cfg l) w = some w') (hsync : Synced w)
    (hcov : ∀ p ∈ txs, Covers cfg l w.account2State p) (hn : Nonced nonce w) (a : Address) :
    w'.st.map.lookup a = settled (w.st.map.lookup a)
      ((positions cfg l a i txs).head?.map fun _ => nonce a)
      (runHalves cfg l (balanceOf w.st.map) txs a) := by
  induction txs generalizing i w with
  | nil =>
    cases h
    exact (settled_self _ a).symm
  | cons p txs ih =>
    rw [List.zipIdx_cons, List.foldlM_cons] at h
    obtain ⟨w₁, h₁, hrest⟩ := Option.bind_eq_some_iff.mp h
    obtain ⟨sender, recipient, hhalves, -⟩ := writeTx_cases h₁
    have hcovp := hcov p List.mem_cons_self
    obtain ⟨hsync₁, hsub, -⟩ := writeTx_keeps h₁ hsync hcovp
    obtain ⟨hn₁, hlookup⟩ := writeTx_lookup h₁ hcovp hn
    have hcov₁ : ∀ q ∈ txs, Covers cfg l w₁.account2State q :=
      fun q hq => (hcov q (List.mem_cons_of_mem p hq)).mono hsub
    rw [ih hrest hsync₁ hcov₁ hn₁, writeTx_balance h₁ hsync hcovp hhalves,
      ← runHalves_cons hhalves, positions]
    rcases hlookup a with ⟨hhalf, s, hs, hnonce⟩ | ⟨hhalf, hkept⟩
    · have hyes : hasHalf cfg l p a = true := hhalf
      rw [hs, hyes, if_pos rfl, List.head?_cons, Option.map_some, hsync.settled hn (hcovp.mem hyes),
        settled, hnonce]
    · have hno : hasHalf cfg l p a = false := hhalf
      rw [hkept, hno]
      rfl

/-- **The chain on disk**: a new account gets the position of its last transaction. -/
theorem execute_lookup {st : Trie} {txs : List PoolTx} (h : execute cfg l st txs = some w)
    (a : Address) :
    w.st.map.lookup a = settled (st.lookup a)
      ((positions cfg l a 0 txs).getLast?.map UInt64.ofNat)
      (runHalves cfg l (balanceOf st) txs a) := by
  obtain ⟨acc, hacc, hw⟩ := Option.bind_eq_some_iff.mp h
  obtain ⟨hsync, hcov, -⟩ := readTxs_spec hacc (synced_empty st)
  have hn : Nonced (fun a => ((acc.lookup a).map AccountState.nonce).getD 0)
      ⟨acc, opened st, 0⟩ := by
    intro a s hs
    have hcopy : acc.lookup a = some s := hs
    show s.nonce = ((acc.lookup a).map AccountState.nonce).getD 0
    rw [hcopy]
    rfl
  rw [writeTxs_lookup hw hsync (forall_mem_zipIdx.mp hcov) hn a]
  show settled (st.lookup a) _ _ = _
  cases hst : st.lookup a with
  | some s => rfl
  | none =>
    have hcopy := readTxs_lookup hacc a
    rw [hcopy]
    cases hpos : positions cfg l a 0 txs with
    | nil => rfl
    | cons k ks =>
      rw [List.getLast?_cons, List.head?_cons, Option.map_some, Option.map_some, Option.map_some,
        Option.some_or, Option.map_some, Option.getD_some, fetch, hst]
      rfl

theorem execute_isSome {st : Trie} {txs : List PoolTx} {b : Address → ℤ}
    (h : Affordable cfg l b txs) : ∃ w, execute cfg l st txs = some w := by
  apply Option.isSome_iff_exists.mp
  rw [(execute_spec cfg l st txs).1]
  induction txs generalizing b with
  | nil => exact fun p hp => absurd hp List.not_mem_nil
  | cons p txs ih =>
    obtain ⟨sender, recipient, hhalves, -, hrest⟩ := h
    rw [List.forall_mem_cons, hhalves]
    exact ⟨rfl, ih hrest⟩

end DbMPT

/-! ### Same states -/

theorem ofNat_inj_of_lt {j k : ℕ} (hj : j < 2 ^ 64) (hk : k < 2 ^ 64) :
    UInt64.ofNat j = UInt64.ofNat k ↔ j = k := by
  rw [← UInt64.toNat_inj, UInt64.toNat_ofNat_of_lt' hj, UInt64.toNat_ofNat_of_lt' hk]

/-- The first and the last position give the same nonce when there is only one. -/
theorem positions_nonce_iff {txs : List PoolTx} (hlen : txs.length ≤ 2 ^ 64) :
    (positions cfg l a 0 txs).head?.map UInt64.ofNat =
        (positions cfg l a 0 txs).getLast?.map UInt64.ofNat ↔
      (positions cfg l a 0 txs).length ≤ 1 := by
  have hbound : ∀ k ∈ positions cfg l a 0 txs, k < 2 ^ 64 := by
    intro k hk
    have := le_of_mem_positions hk
    omega
  have hlt := positions_pairwise cfg l a 0 txs
  generalize positions cfg l a 0 txs = ks at hbound hlt
  cases ks with
  | nil => simp
  | cons j ks =>
    cases ks with
    | nil => simp
    | cons k ks =>
      have hlast : (k :: ks).getLast (List.cons_ne_nil k ks) ∈ k :: ks := List.getLast_mem _
      have hne : j < (k :: ks).getLast (List.cons_ne_nil k ks) :=
        List.rel_of_pairwise_cons hlt hlast
      rw [List.head?_cons, List.getLast?_eq_getLast_of_ne_nil (List.cons_ne_nil _ _),
        Option.map_some, Option.map_some, Option.some.injEq,
        List.getLast_cons (List.cons_ne_nil k ks),
        ofNat_inj_of_lt (hbound j List.mem_cons_self)
          (hbound _ (List.mem_cons_of_mem j hlast))]
      simp only [List.length_cons]
      omega

/-- For an account of one of the transactions, the executors can differ in the nonce only. -/
theorem settled_first_last (stored : Option AccountState) (ks : List ℕ) (v : ℤ) :
    settled stored (ks.getLast?.map UInt64.ofNat) v =
        settled stored (ks.head?.map UInt64.ofNat) v ∨
      ∃ s s', settled stored (ks.getLast?.map UInt64.ofNat) v = some s ∧
        settled stored (ks.head?.map UInt64.ofNat) v = some s' ∧ s.balance = s'.balance := by
  cases stored with
  | some s => exact .inl rfl
  | none =>
    cases ks with
    | nil => exact .inl rfl
    | cons k ks =>
      rw [List.getLast?_cons]
      exact .inr ⟨_, _, rfl, rfl, rfl⟩

theorem settled_inj {stored : Option AccountState} {fresh fresh' : Option UInt64} {v : ℤ} :
    settled stored fresh v = settled stored fresh' v ↔ stored = none → fresh = fresh' := by
  cases stored with
  | some s => simp [settled]
  | none =>
    cases fresh <;> cases fresh' <;> simp [settled]

/-- **The two executors** on a list whose debits are all covered: both return, and the tries they
have written have the same accounts with the same balances.  They are the same exactly if an
account that is not in the trie before occurs in at most one transaction. -/
theorem same_states_iff {st : Trie} {txs : List PoolTx} (hlen : txs.length ≤ 2 ^ 64)
    (hafford : Affordable cfg l (balanceOf st) txs) :
    ∃ w st', DbMPT.execute cfg l st txs = some w ∧ updateStatus cfg l 0 txs st = some st' ∧
      (∀ a, a ∈ w.st.map ↔ a ∈ st') ∧ (∀ a, balanceOf w.st.map a = balanceOf st' a) ∧
      (w.st.map = st' ↔ ∀ a, a ∉ st → (positions cfg l a 0 txs).length ≤ 1) := by
  obtain ⟨w, hw⟩ : ∃ w, DbMPT.execute cfg l st txs = some w := DbMPT.execute_isSome hafford
  obtain ⟨st', hst', hplain⟩ := updateStatus_lookup hafford (i := 0)
  have hbatched := DbMPT.execute_lookup hw
  have hboth : ∀ a, w.st.map.lookup a = st'.lookup a ∨ ∃ s s', w.st.map.lookup a = some s ∧
      st'.lookup a = some s' ∧ s.balance = s'.balance := by
    intro a
    rw [hbatched, hplain]
    exact settled_first_last _ _ _
  refine ⟨w, st', hw, hst', fun a => ?_, fun a => ?_, ?_⟩
  · rw [← Finmap.lookup_isSome, ← Finmap.lookup_isSome]
    rcases hboth a with heq | ⟨s, s', hs, hs', -⟩
    · rw [heq]
    · rw [hs, hs']
      rfl
  · rw [balanceOf, balanceOf]
    rcases hboth a with heq | ⟨s, s', hs, hs', hbal⟩
    · rw [heq]
    · rw [hs, hs']
      exact hbal
  · constructor
    · intro heq a ha
      rw [← positions_nonce_iff hlen]
      have hlookup := congrArg (Finmap.lookup a) heq
      rw [hbatched, hplain, settled_inj] at hlookup
      exact (hlookup (Finmap.lookup_eq_none.mpr ha)).symm
    · intro hone
      apply Finmap.ext_lookup
      intro a
      rw [hbatched, hplain, settled_inj]
      intro hnone
      exact ((positions_nonce_iff hlen).mpr (hone a (Finmap.lookup_eq_none.mp hnone))).symm

/-- One payment between two new accounts. -/
theorem same_states_single :
    ∃ w st', DbMPT.execute shortConfig shortLedger ∅
        [payment "0000000000000000" "0000000000000004" 5] = some w ∧
      updateStatus shortConfig shortLedger 0
        [payment "0000000000000000" "0000000000000004" 5] ∅ = some st' ∧
      (∀ a, a ∈ w.st.map ↔ a ∈ st') ∧ (∀ a, balanceOf w.st.map a = balanceOf st' a) ∧
      (w.st.map = st' ↔ ∀ a, a ∉ (∅ : Trie) → (positions shortConfig shortLedger a 0
        [payment "0000000000000000" "0000000000000004" 5]).length ≤ 1) :=
  same_states_iff (by decide) ⟨true, true, by decide, fun _ => by decide, trivial⟩

/-- Two payments of a new account. -/
def twoPayments : List PoolTx :=
  [payment "0000000000000000" "0000000000000004" 5,
    payment "0000000000000000" "0000000000000004" 5]

/-- **Different nonces**: the sender gets the nonce 1 on disk and 0 in memory. -/
theorem nonces_differ :
    ((DbMPT.execute shortConfig shortLedger ∅ twoPayments).map fun w =>
        w.st.map.lookup "0000000000000000") = some (some ⟨1, initBalance - 10⟩) ∧
      ((updateStatus shortConfig shortLedger 0 twoPayments ∅).map fun st' =>
        st'.lookup "0000000000000000") = some (some ⟨0, initBalance - 10⟩) := by
  decide +kernel

/-! ### The total of the balances -/

theorem halves_of_local {p : PoolTx} (hrelayed : p.relayed = false)
    (hsender : l.owns cfg p.tx.sender = some true)
    (hrecipient : l.owns cfg p.tx.recipient = some true) :
    halves cfg l p = some (true, true) := by
  rw [DbMPT.halves, hrelayed, if_neg Bool.false_ne_true, hsender, hrecipient]
  rfl

theorem DbMPT.writeTxs_balance {w w' : Writing} {txs : List PoolTx} {i : ℕ}
    (h : (txs.zipIdx i).foldlM (writeTx cfg l) w = some w') (hsync : Synced w)
    (hcov : ∀ p ∈ txs, Covers cfg l w.account2State p) :
    balanceOf w'.st.map = runHalves cfg l (balanceOf w.st.map) txs := by
  induction txs generalizing i w with
  | nil =>
    cases h
    rfl
  | cons p txs ih =>
    rw [List.zipIdx_cons, List.foldlM_cons] at h
    obtain ⟨w₁, h₁, hrest⟩ := Option.bind_eq_some_iff.mp h
    obtain ⟨sender, recipient, hhalves, -⟩ := writeTx_cases h₁
    have hcovp := hcov p List.mem_cons_self
    obtain ⟨hsync₁, hsub, -⟩ := writeTx_keeps h₁ hsync hcovp
    rw [ih hrest hsync₁ fun q hq => (hcov q (List.mem_cons_of_mem p hq)).mono hsub,
      writeTx_balance h₁ hsync hcovp hhalves, runHalves_cons hhalves]

/-- Every debit is covered by the running balance, or takes nothing. -/
def Covered : (Address → ℤ) → List PoolTx → Prop
  | _, [] => True
  | b, p :: txs => (p.tx.value ≤ b p.tx.sender ∨ p.tx.value = 0) ∧
      Covered (applyHalves b p.tx true true) txs

/-- A transaction without cover adds its value to the total. -/
theorem sum_applyHalves {S : Finset Address} {tx : Transaction} (hs : tx.sender ∈ S)
    (hr : tx.recipient ∈ S) (b : Address → ℤ) :
    ∑ a ∈ S, applyHalves b tx true true a =
      ∑ a ∈ S, b a + if tx.value ≤ b tx.sender then 0 else tx.value := by
  simp only [DbMPT.applyHalves, true_and, if_true]
  split_ifs with hle
  · rw [Transfers.sum_shift S _ _ _ hr, Transfers.sum_shift S _ _ _ hs]
    ring
  · rw [Transfers.sum_shift S _ _ _ hr]

/-- The total never gets smaller, and it stays when all debits are covered. -/
theorem sum_runHalves {S : Finset Address} {txs : List PoolTx}
    (hhalves : ∀ p ∈ txs, halves cfg l p = some (true, true))
    (hpos : ∀ p ∈ txs, 0 ≤ p.tx.value)
    (hS : ∀ p ∈ txs, p.tx.sender ∈ S ∧ p.tx.recipient ∈ S) (b : Address → ℤ) :
    ∑ a ∈ S, b a ≤ ∑ a ∈ S, runHalves cfg l b txs a ∧
      (∑ a ∈ S, runHalves cfg l b txs a = ∑ a ∈ S, b a ↔ Covered b txs) := by
  induction txs generalizing b with
  | nil => exact ⟨le_refl _, by simp [runHalves, Covered]⟩
  | cons p txs ih =>
    rw [List.forall_mem_cons] at hhalves hpos hS
    obtain ⟨hle, hiff⟩ := ih hhalves.2 hpos.2 hS.2 (applyHalves b p.tx true true)
    have hstep := sum_applyHalves hS.1.1 hS.1.2 b
    have hvalue := hpos.1
    rw [runHalves_cons hhalves.1, Covered, ← hiff]
    split_ifs at hstep with hcovered
    · rw [hstep, add_zero] at hle ⊢
      exact ⟨hle, by simp [hcovered]⟩
    · rw [hstep] at hle ⊢
      refine ⟨by omega, ?_⟩
      simp only [hcovered, false_or]
      omega

/-- **The total of the balances** of any accounts that include those of the list.  The function
returns if the list is empty or a transaction changes an account, and then the state under the
returned root has the old total exactly if every debit was covered or takes nothing. -/
theorem total_unchanged_iff {st : Trie} (hst : l.state cfg = some st) {txs : List PoolTx}
    (hlocal : ∀ p ∈ txs, p.relayed = false ∧ l.owns cfg p.tx.sender = some true ∧
      l.owns cfg p.tx.recipient = some true)
    (hpos : ∀ p ∈ txs, 0 ≤ p.tx.value) {S : Finset Address}
    (hS : ∀ p ∈ txs, p.tx.sender ∈ S ∧ p.tx.recipient ∈ S) :
    ((DbMPT.getUpdateStatusTrie cfg l txs).isSome ↔
        txs = [] ∨ ∃ p ∈ txs, DbMPT.Touches cfg l st p) ∧
      ∀ root triedb, DbMPT.getUpdateStatusTrie cfg l txs = some (root, triedb) →
        ∃ st', (txs = [] ∧ st' = st ∧ root = l.root ∧ triedb = l.triedb ∨
            root = cfg.stateRoot st' ∧ triedb = l.triedb.insert (cfg.stateRoot st') st') ∧
          (∑ a ∈ S, balanceOf st' a = ∑ a ∈ S, balanceOf st a ↔ Covered (balanceOf st) txs) := by
  have hhalves : ∀ p ∈ txs, halves cfg l p = some (true, true) := fun p hp =>
    halves_of_local (hlocal p hp).1 (hlocal p hp).2.1 (hlocal p hp).2.2
  have hforeign : (∀ p ∈ txs, DbMPT.Foreign cfg l p) ↔ txs = [] := by
    constructor
    · intro hall
      apply List.eq_nil_iff_forall_not_mem.mpr
      intro p hp
      have hnone := hall p hp
      rw [DbMPT.Foreign, hhalves p hp] at hnone
      cases hnone
    · rintro rfl p hp
      cases hp
  constructor
  · rw [DbMPT.getUpdateStatusTrie_isSome_iff hst, hforeign]
    exact and_iff_right fun p hp => by rw [hhalves p hp]; rfl
  · intro root triedb h
    rw [DbMPT.getUpdateStatusTrie] at h
    split_ifs at h with hnil
    · cases h
      rw [hnil]
      exact ⟨st, .inl ⟨rfl, rfl, rfl, rfl⟩, by simp [Covered]⟩
    · obtain ⟨st₀, hst₀, h⟩ := Option.bind_eq_some_iff.mp h
      cases hst.symm.trans hst₀
      obtain ⟨w, hw, h⟩ := Option.bind_eq_some_iff.mp h
      have hcnt : w.cnt ≠ 0 := by
        rw [Ne, ((DbMPT.execute_spec cfg l st txs).2 w hw).2.1, hforeign]
        exact hnil
      rw [if_neg hcnt] at h
      obtain ⟨st', hcommit, h⟩ := Option.bind_eq_some_iff.mp h
      cases h
      refine ⟨st', .inr ⟨rfl, rfl⟩, ?_⟩
      obtain ⟨acc, hacc, hw⟩ := Option.bind_eq_some_iff.mp hw
      obtain ⟨hsync, hcov, -⟩ := DbMPT.readTxs_spec hacc (DbMPT.synced_empty st)
      have hbal := DbMPT.writeTxs_balance hw hsync (forall_mem_zipIdx.mp hcov)
      rw [← (commit_eq_some_iff.mp hcommit).1] at hbal
      rw [hbal]
      exact (sum_runHalves hhalves hpos hS (balanceOf st)).2

/-- A payment that is covered. -/
theorem total_unchanged_small :
    ∃ root triedb st', DbMPT.getUpdateStatusTrie shortConfig shortLedger
        [payment "0000000000000000" "0000000000000004" 5] = some (root, triedb) ∧
      root = shortConfig.stateRoot st' ∧
      ∑ a ∈ {"0000000000000000", "0000000000000004"}, balanceOf st' a =
        ∑ a ∈ {"0000000000000000", "0000000000000004"}, balanceOf ∅ a := by
  obtain ⟨hsome, hall⟩ := total_unchanged_iff (show shortLedger.state shortConfig = some ∅ from rfl)
    (show ∀ p ∈ [payment "0000000000000000" "0000000000000004" 5], _ by decide)
    (by decide) (show ∀ p ∈ [payment "0000000000000000" "0000000000000004" 5],
      p.tx.sender ∈ ({"0000000000000000", "0000000000000004"} : Finset Address) ∧
        p.tx.recipient ∈ ({"0000000000000000", "0000000000000004"} : Finset Address) by decide)
  obtain ⟨⟨root, triedb⟩, h⟩ := Option.isSome_iff_exists.mp
    (hsome.mpr (.inr ⟨_, List.mem_singleton_self _, true, true, by decide,
      .inl ⟨rfl, .inl Finmap.notMem_empty⟩⟩))
  obtain ⟨st', hst', htotal⟩ := hall root triedb h
  refine ⟨root, triedb, st', h, ?_, htotal.mpr ⟨.inl (by decide), trivial⟩⟩
  rcases hst' with ⟨hnil, -⟩ | ⟨hroot, -⟩
  · cases hnil
  · exact hroot

/-- **Money out of nothing**: a payment above the balance is credited and not debited. -/
theorem total_grows :
    (DbMPT.getUpdateStatusTrie shortConfig shortLedger
        [payment "0000000000000000" "0000000000000004" (initBalance + 5)]).any (fun res =>
      (trieNew shortConfig res.2 res.1).any fun st' =>
        decide (balanceOf st' "0000000000000000" = initBalance ∧
          balanceOf st' "0000000000000004" = 2 * initBalance + 5)) = true := by
  decide +kernel

end Aster.Chain
