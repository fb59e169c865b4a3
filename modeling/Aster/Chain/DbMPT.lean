import Aster.Chain.Ledger
import Aster.Lib.Transfers

/-!
# The executor of the chain on disk

`GetUpdateStatusTrie` of `BlockChain_dbMPT` goes over the block twice.  The first loop reads the
account of every half that the shard executes into `account2State`; the second takes the debits
and credits on these copies and writes each copy into the trie.  A debit that the balance does not
cover is reported and left out, but the credit of the same transaction is still given.

* `Synced`: the copies are the accounts of the trie, all along the second loop;
* `writeTx_balance`: the balances after one transaction;
* `writeTxs_dirty_iff`: when a write has changed the trie, as a condition on the state before the
  block;
* `getUpdateStatusTrie_isSome_iff`: when the function returns.

The chain object is the one of `Aster.Chain.Ledger`; its pool is not used here.
-/

namespace Aster.Chain.DbMPT

open Aster.Core Aster.Lib Aster.Lib.DirtyMap

abbrev Account2State := Finmap fun _ : Address => AccountState

/-- Whether the shard executes the sender's and the recipient's half. -/
def halves (cfg : ChainConfig) (l : Ledger) (p : PoolTx) : Option (Bool × Bool) := do
  let sender ← if p.relayed then some false else (l.owns cfg p.tx.sender).map (· || p.hasBroker)
  let recipient ← (l.owns cfg p.tx.recipient).map (· || p.hasBroker)
  some (sender, recipient)

/-- One round of the first loop, at position `i` of the block. -/
def readTx (cfg : ChainConfig) (l : Ledger) (st : Trie) (account2State : Account2State)
    (p : PoolTx × ℕ) : Option Account2State := do
  let (sender, recipient) ← halves cfg l p.1
  let account2State := if sender then
    account2State.insert p.1.tx.sender (fetch st p.1.tx.sender p.2) else account2State
  some (if recipient then
    account2State.insert p.1.tx.recipient (fetch st p.1.tx.recipient p.2) else account2State)

/-- The variables of the second loop. -/
structure Writing where
  account2State : Account2State
  st : OpenTrie
  cnt : ℕ

/-- A half: the change is made on the copy, which is then written into the trie.  A copy that is
missing is made on the spot and not kept. -/
def writeHalf (w : Writing) (a : Address) (i : ℕ) (change : AccountState → AccountState) :
    Writing :=
  match w.account2State.lookup a with
  | some s =>
    { account2State := w.account2State.insert a (change s)
      st := w.st.update a (change s)
      cnt := w.cnt + 1 }
  | none =>
    { w with
      st := w.st.update a (change ⟨UInt64.ofNat i, initBalance⟩)
      cnt := w.cnt + 1 }

def debit (value : ℤ) (s_state : AccountState) : AccountState := (s_state.deduct value).1

def credit (value : ℤ) (r_state : AccountState) : AccountState := r_state.deposit value

/-- One round of the second loop. -/
def writeTx (cfg : ChainConfig) (l : Ledger) (w : Writing) (p : PoolTx × ℕ) : Option Writing := do
  let (sender, recipient) ← halves cfg l p.1
  let w := if sender then writeHalf w p.1.tx.sender p.2 (debit p.1.tx.value) else w
  some (if recipient then writeHalf w p.1.tx.recipient p.2 (credit p.1.tx.value) else w)

/-- Both loops. -/
def execute (cfg : ChainConfig) (l : Ledger) (st : Trie) (txs : List PoolTx) : Option Writing := do
  let account2State ← txs.zipIdx.foldlM (readTx cfg l st) ∅
  txs.zipIdx.foldlM (writeTx cfg l) ⟨account2State, opened st, 0⟩

/-- `GetUpdateStatusTrie`: the root, and the database after the commit. -/
def getUpdateStatusTrie (cfg : ChainConfig) (l : Ledger) (txs : List PoolTx) :
    Option (Hash × TrieDb) :=
  if txs = [] then some (l.root, l.triedb)
  else do
    let st ← l.state cfg
    let w ← execute cfg l st txs
    if w.cnt = 0 then some (l.root, l.triedb)
    else do
      let st' ← w.st.commit
      some (cfg.stateRoot st', l.triedb.insert (cfg.stateRoot st') st')

/-! ### The copies -/

/-- A copy is the account of the trie; for an account that is not stored it has the initial
balance. -/
def Synced (w : Writing) : Prop :=
  ∀ a s, w.account2State.lookup a = some s →
    w.st.map.lookup a = some s ∨ a ∉ w.st.map ∧ s.balance = initBalance

/-- The copies of the halves that the shard executes are there. -/
def Covers (cfg : ChainConfig) (l : Ledger) (account2State : Account2State) (p : PoolTx) : Prop :=
  ∀ sender recipient, halves cfg l p = some (sender, recipient) →
    (sender = true → p.tx.sender ∈ account2State) ∧
      (recipient = true → p.tx.recipient ∈ account2State)

variable {cfg : ChainConfig} {l : Ledger} {w w' : Writing} {a : Address}

theorem synced_empty (st : Trie) : Synced ⟨∅, opened st, 0⟩ := by
  intro a s hs
  cases hs

theorem Synced.balance (h : Synced w) {s : AccountState}
    (hs : w.account2State.lookup a = some s) : s.balance = balanceOf w.st.map a := by
  rcases h a s hs with hmap | ⟨hnot, hbal⟩
  · rw [balanceOf, hmap]
    rfl
  · rw [hbal, balanceOf_of_not_mem _ _ hnot]

/-- The equation of a half whose copy is there. -/
theorem writeHalf_eq {s : AccountState} (hs : w.account2State.lookup a = some s) (i : ℕ)
    (change : AccountState → AccountState) :
    writeHalf w a i change =
      ⟨w.account2State.insert a (change s), w.st.update a (change s), w.cnt + 1⟩ := by
  rw [writeHalf, hs]

theorem Synced.writeHalf (h : Synced w) (ha : a ∈ w.account2State) (i : ℕ)
    (change : AccountState → AccountState) : Synced (writeHalf w a i change) := by
  obtain ⟨s, hs⟩ := Finmap.mem_iff.mp ha
  rw [writeHalf_eq hs]
  intro b u hb
  by_cases heq : b = a
  · subst heq
    left
    have hu : (w.account2State.insert b (change s)).lookup b = some u := hb
    rw [Finmap.lookup_insert] at hu
    show (w.st.map.insert b (change s)).lookup b = some u
    rw [Finmap.lookup_insert, hu]
  · have hu : (w.account2State.insert a (change s)).lookup b = some u := hb
    rw [Finmap.lookup_insert_of_ne _ heq] at hu
    show (w.st.map.insert a (change s)).lookup b = some u ∨ b ∉ w.st.map.insert a (change s) ∧ _
    rw [Finmap.lookup_insert_of_ne _ heq, Finmap.mem_insert, not_or]
    rcases h b u hu with hmap | ⟨hnot, hbal⟩
    · exact .inl hmap
    · exact .inr ⟨⟨heq, hnot⟩, hbal⟩

theorem mem_writeHalf {b : Address} (h : b ∈ w.account2State) (i : ℕ)
    (change : AccountState → AccountState) : b ∈ (writeHalf w a i change).account2State := by
  unfold writeHalf
  split
  · exact Finmap.mem_insert.mpr (.inr h)
  · exact h

theorem written_writeHalf (i : ℕ) (change : AccountState → AccountState) :
    Written w.st (writeHalf w a i change).st := by
  unfold writeHalf
  split
  · exact .update _ _ _
  · exact .update _ _ _

theorem writeHalf_cnt (i : ℕ) (change : AccountState → AccountState) :
    (writeHalf w a i change).cnt = w.cnt + 1 := by
  unfold writeHalf
  split <;> rfl

/-! ### The first loop -/

theorem readTx_spec {st : Trie} {acc acc' : Account2State} {p : PoolTx × ℕ}
    (h : readTx cfg l st acc p = some acc') (hsync : Synced ⟨acc, opened st, 0⟩) :
    Synced ⟨acc', opened st, 0⟩ ∧ Covers cfg l acc' p.1 ∧ ∀ b ∈ acc, b ∈ acc' := by
  obtain ⟨⟨sender, recipient⟩, hhalves, h⟩ := Option.bind_eq_some_iff.mp h
  have hinsert : ∀ (acc : Account2State) (b : Address), Synced ⟨acc, opened st, 0⟩ →
      Synced ⟨acc.insert b (fetch st b p.2), opened st, 0⟩ := by
    intro acc b hs c u hc
    have hc' : (acc.insert b (fetch st b p.2)).lookup c = some u := hc
    by_cases heq : c = b
    · subst heq
      rw [Finmap.lookup_insert] at hc'
      cases hc'
      by_cases hmem : c ∈ st
      · obtain ⟨v, hv⟩ := Finmap.mem_iff.mp hmem
        left
        show st.lookup c = some (fetch st c p.2)
        rw [fetch, hv, Option.getD_some]
      · exact .inr ⟨hmem, by rw [fetch_balance, balanceOf_of_not_mem _ _ hmem]⟩
    · rw [Finmap.lookup_insert_of_ne _ heq] at hc'
      exact hs c u hc'
  cases h
  refine ⟨?_, ?_, ?_⟩
  · cases sender <;> cases recipient
    · exact hsync
    · exact hinsert _ _ hsync
    · exact hinsert _ _ hsync
    · exact hinsert _ _ (hinsert _ _ hsync)
  · intro sender' recipient' h'
    rw [hhalves] at h'
    cases h'
    constructor
    · intro hs
      subst hs
      cases recipient
      · exact Finmap.mem_insert.mpr (.inl rfl)
      · exact Finmap.mem_insert.mpr (.inr (Finmap.mem_insert.mpr (.inl rfl)))
    · intro hr
      subst hr
      exact Finmap.mem_insert.mpr (.inl rfl)
  · intro b hb
    cases sender <;> cases recipient
    · exact hb
    · exact Finmap.mem_insert.mpr (.inr hb)
    · exact Finmap.mem_insert.mpr (.inr hb)
    · exact Finmap.mem_insert.mpr (.inr (Finmap.mem_insert.mpr (.inr hb)))

theorem Covers.mono {acc acc' : Account2State} {p : PoolTx} (h : Covers cfg l acc p)
    (hsub : ∀ b ∈ acc, b ∈ acc') : Covers cfg l acc' p := by
  intro sender recipient hh
  exact ⟨fun hs => hsub _ ((h sender recipient hh).1 hs),
    fun hr => hsub _ ((h sender recipient hh).2 hr)⟩

/-- **The first loop** leaves copies of all accounts that the second one changes. -/
theorem readTxs_spec {st : Trie} {ps : List (PoolTx × ℕ)} {acc acc' : Account2State}
    (h : ps.foldlM (readTx cfg l st) acc = some acc') (hsync : Synced ⟨acc, opened st, 0⟩) :
    Synced ⟨acc', opened st, 0⟩ ∧ (∀ p ∈ ps, Covers cfg l acc' p.1) ∧ ∀ b ∈ acc, b ∈ acc' := by
  induction ps generalizing acc with
  | nil =>
    rw [List.foldlM_nil] at h
    cases h
    exact ⟨hsync, fun p hp => absurd hp List.not_mem_nil, fun b hb => hb⟩
  | cons p ps ih =>
    rw [List.foldlM_cons] at h
    obtain ⟨acc₁, h₁, hrest⟩ := Option.bind_eq_some_iff.mp h
    obtain ⟨hsync₁, hcov₁, hsub₁⟩ := readTx_spec h₁ hsync
    obtain ⟨hsync', hcov', hsub'⟩ := ih hrest hsync₁
    refine ⟨hsync', ?_, fun b hb => hsub' b (hsub₁ b hb)⟩
    intro q hq
    rcases List.mem_cons.mp hq with rfl | hq
    · exact hcov₁.mono hsub'
    · exact hcov' q hq

/-! ### The second loop -/

/-- The variables after a round, by the halves that are executed. -/
def writeHalves (w : Writing) (p : PoolTx × ℕ) (sender recipient : Bool) : Writing :=
  let w := if sender then writeHalf w p.1.tx.sender p.2 (debit p.1.tx.value) else w
  if recipient then writeHalf w p.1.tx.recipient p.2 (credit p.1.tx.value) else w

theorem writeTx_cases {p : PoolTx × ℕ} (h : writeTx cfg l w p = some w') :
    ∃ sender recipient, halves cfg l p.1 = some (sender, recipient) ∧
      w' = writeHalves w p sender recipient := by
  obtain ⟨⟨sender, recipient⟩, hhalves, h⟩ := Option.bind_eq_some_iff.mp h
  cases h
  exact ⟨sender, recipient, hhalves, rfl⟩

/-- A round keeps the copies and the trie together, and only writes. -/
theorem writeTx_keeps {p : PoolTx × ℕ} (h : writeTx cfg l w p = some w') (hsync : Synced w)
    (hcov : Covers cfg l w.account2State p.1) :
    Synced w' ∧ (∀ b ∈ w.account2State, b ∈ w'.account2State) ∧ Written w.st w'.st := by
  obtain ⟨sender, recipient, hhalves, rfl⟩ := writeTx_cases h
  obtain ⟨hs, hr⟩ := hcov sender recipient hhalves
  cases sender <;> cases recipient
  · exact ⟨hsync, fun b hb => hb, .refl _⟩
  · exact ⟨hsync.writeHalf (hr rfl) _ _, fun b hb => mem_writeHalf hb _ _, written_writeHalf _ _⟩
  · exact ⟨hsync.writeHalf (hs rfl) _ _, fun b hb => mem_writeHalf hb _ _, written_writeHalf _ _⟩
  · exact ⟨(hsync.writeHalf (hs rfl) _ _).writeHalf (mem_writeHalf (hr rfl) _ _) _ _,
      fun b hb => mem_writeHalf (mem_writeHalf hb _ _) _ _,
      (written_writeHalf _ _).trans (written_writeHalf _ _)⟩

/-- The loop only writes. -/
theorem writeTxs_written {ps : List (PoolTx × ℕ)} (h : ps.foldlM (writeTx cfg l) w = some w')
    (hsync : Synced w) (hcov : ∀ p ∈ ps, Covers cfg l w.account2State p.1) :
    Written w.st w'.st := by
  induction ps generalizing w with
  | nil =>
    rw [List.foldlM_nil] at h
    cases h
    exact .refl _
  | cons p ps ih =>
    rw [List.foldlM_cons] at h
    obtain ⟨w₁, h₁, hrest⟩ := Option.bind_eq_some_iff.mp h
    obtain ⟨hsync₁, hsub, hwritten⟩ := writeTx_keeps h₁ hsync (hcov p List.mem_cons_self)
    exact hwritten.trans (ih hrest hsync₁
      fun q hq => (hcov q (List.mem_cons_of_mem p hq)).mono hsub)

/-! ### Balances -/

theorem writeHalf_balance (hsync : Synced w) (ha : a ∈ w.account2State) (i : ℕ)
    {change : AccountState → AccountState} {delta : ℤ}
    (hchange : ∀ s : AccountState, s.balance = balanceOf w.st.map a →
      (change s).balance = s.balance + delta) :
    balanceOf (writeHalf w a i change).st.map = Transfers.shift (balanceOf w.st.map) a delta := by
  obtain ⟨s, hs⟩ := Finmap.mem_iff.mp ha
  have hbal := hsync.balance hs
  rw [writeHalf_eq hs]
  funext x
  show balanceOf (w.st.map.insert a (change s)) x = _
  rw [balanceOf_insert, Transfers.shift_apply]
  split_ifs with hx
  · rw [hx, hchange s hbal, hbal]
  · rw [add_zero]

/-- The balances after the halves of a transaction.  A debit that is not covered is left out. -/
def applyHalves (b : Address → ℤ) (tx : Transaction) (sender recipient : Bool) : Address → ℤ :=
  let b := if sender = true ∧ tx.value ≤ b tx.sender then
    Transfers.shift b tx.sender (-tx.value) else b
  if recipient then Transfers.shift b tx.recipient tx.value else b

theorem writeHalf_debit_balance (hsync : Synced w) (ha : a ∈ w.account2State) (i : ℕ) (v : ℤ) :
    balanceOf (writeHalf w a i (debit v)).st.map =
      if v ≤ balanceOf w.st.map a then Transfers.shift (balanceOf w.st.map) a (-v)
      else balanceOf w.st.map := by
  split_ifs with hle
  · refine writeHalf_balance hsync ha i fun s hs => ?_
    rw [debit, AccountState.deduct, if_neg (by rw [hs]; exact not_lt.mpr hle)]
    rfl
  · have hsame : ∀ s : AccountState, s.balance = balanceOf w.st.map a →
        (debit v s).balance = s.balance + 0 := by
      intro s hs
      rw [debit, AccountState.deduct, if_pos (by rw [hs]; exact not_le.mp hle), add_zero]
    rw [writeHalf_balance hsync ha i hsame]
    funext x
    simp [Transfers.shift_apply]

theorem writeHalf_credit_balance (hsync : Synced w) (ha : a ∈ w.account2State) (i : ℕ) (v : ℤ) :
    balanceOf (writeHalf w a i (credit v)).st.map =
      Transfers.shift (balanceOf w.st.map) a v :=
  writeHalf_balance hsync ha i fun _ _ => rfl

/-- **The balances after one transaction.** -/
theorem writeTx_balance {p : PoolTx × ℕ} {sender recipient : Bool}
    (h : writeTx cfg l w p = some w') (hsync : Synced w)
    (hcov : Covers cfg l w.account2State p.1)
    (hhalves : halves cfg l p.1 = some (sender, recipient)) :
    balanceOf w'.st.map = applyHalves (balanceOf w.st.map) p.1.tx sender recipient := by
  obtain ⟨sender', recipient', hhalves', rfl⟩ := writeTx_cases h
  cases hhalves.symm.trans hhalves'
  obtain ⟨hs, hr⟩ := hcov sender recipient hhalves
  cases sender <;> cases recipient
  · simp [writeHalves, applyHalves]
  · simpa [writeHalves, applyHalves] using writeHalf_credit_balance hsync (hr rfl) p.2 _
  · simpa [writeHalves, applyHalves] using writeHalf_debit_balance hsync (hs rfl) p.2 _
  · simp only [writeHalves, applyHalves, if_true, true_and]
    rw [writeHalf_credit_balance (hsync.writeHalf (hs rfl) _ _) (mem_writeHalf (hr rfl) _ _),
      writeHalf_debit_balance hsync (hs rfl)]

/-! ### When the trie changes -/

/-- A half changes the trie when the account is new to it or gets another state. -/
theorem writeHalf_dirty_iff (hsync : Synced w) (ha : a ∈ w.account2State) (i : ℕ)
    (change : AccountState → AccountState) :
    (writeHalf w a i change).st.dirty = true ↔
      w.st.dirty = true ∨ a ∉ w.st.map ∨ ∃ s, w.st.map.lookup a = some s ∧ change s ≠ s := by
  obtain ⟨s, hs⟩ := Finmap.mem_iff.mp ha
  rw [writeHalf_eq hs, update_dirty_iff]
  refine or_congr_right ?_
  rcases hsync a s hs with hmap | ⟨hnot, -⟩
  · have hmem : a ∈ w.st.map := Finmap.mem_iff.mpr ⟨s, hmap⟩
    simp [hmap, hmem, eq_comm]
  · simp [Finmap.lookup_eq_none.mpr hnot, hnot]

/-- A debit makes an account or takes money. -/
def DebitTouches (st : Trie) (a : Address) (v : ℤ) : Prop :=
  a ∉ st ∨ v ≠ 0 ∧ v ≤ balanceOf st a

/-- A credit makes an account or gives money. -/
def CreditTouches (st : Trie) (a : Address) (v : ℤ) : Prop := a ∉ st ∨ v ≠ 0

theorem debitTouches_iff (st : Trie) (a : Address) (v : ℤ) :
    DebitTouches st a v ↔ a ∉ st ∨ ∃ s, st.lookup a = some s ∧ debit v s ≠ s := by
  by_cases hmem : a ∈ st
  · obtain ⟨s, hs⟩ := Finmap.mem_iff.mp hmem
    have hbal : balanceOf st a = s.balance := by
      rw [balanceOf, hs]
      rfl
    simp [DebitTouches, hmem, hs, hbal, debit, deduct_eq_self_iff]
  · simp [DebitTouches, hmem]

theorem creditTouches_iff (st : Trie) (a : Address) (v : ℤ) :
    CreditTouches st a v ↔ a ∉ st ∨ ∃ s, st.lookup a = some s ∧ credit v s ≠ s := by
  by_cases hmem : a ∈ st
  · obtain ⟨s, hs⟩ := Finmap.mem_iff.mp hmem
    simp [CreditTouches, hmem, hs, credit, deposit_eq_self_iff]
  · simp [CreditTouches, hmem]

/-- Executing the transaction on `st` changes an account. -/
def Touches (cfg : ChainConfig) (l : Ledger) (st : Trie) (p : PoolTx) : Prop :=
  ∃ sender recipient, halves cfg l p = some (sender, recipient) ∧
    (sender = true ∧ DebitTouches st p.tx.sender p.tx.value ∨
      recipient = true ∧ CreditTouches st p.tx.recipient p.tx.value)

theorem touches_iff {st : Trie} {p : PoolTx} {sender recipient : Bool}
    (h : halves cfg l p = some (sender, recipient)) :
    Touches cfg l st p ↔ sender = true ∧ DebitTouches st p.tx.sender p.tx.value ∨
      recipient = true ∧ CreditTouches st p.tx.recipient p.tx.value := by
  constructor
  · rintro ⟨sender', recipient', h', ht⟩
    cases h.symm.trans h'
    exact ht
  · exact fun ht => ⟨sender, recipient, h, ht⟩

theorem writeHalf_debit_dirty_iff {st : Trie} (hst : w.st = opened st) (hsync : Synced w)
    (ha : a ∈ w.account2State) (i : ℕ) (v : ℤ) :
    (writeHalf w a i (debit v)).st.dirty = true ↔ DebitTouches st a v := by
  rw [writeHalf_dirty_iff hsync ha, debitTouches_iff, hst]
  simp [opened]

/-- A credit after writes that have left the trie clean is one on the first trie. -/
theorem writeHalf_credit_dirty_iff {st : Trie} (hwritten : Written (opened st) w.st)
    (hsync : Synced w) (ha : a ∈ w.account2State) (i : ℕ) (v : ℤ) :
    (writeHalf w a i (credit v)).st.dirty = true ↔ w.st.dirty = true ∨ CreditTouches st a v := by
  rw [writeHalf_dirty_iff hsync ha, creditTouches_iff]
  cases hd : w.st.dirty with
  | true => simp
  | false =>
    rw [hwritten.unchanged hd]
    rfl

theorem writeTx_dirty_iff {st : Trie} (hst : w.st = opened st) (hsync : Synced w)
    {p : PoolTx × ℕ} (hcov : Covers cfg l w.account2State p.1)
    (h : writeTx cfg l w p = some w') :
    w'.st.dirty = true ↔ Touches cfg l st p.1 := by
  obtain ⟨sender, recipient, hhalves, rfl⟩ := writeTx_cases h
  obtain ⟨hs, hr⟩ := hcov sender recipient hhalves
  have hrefl : Written (opened st) w.st := by
    rw [hst]
    exact .refl _
  rw [touches_iff hhalves]
  cases sender <;> cases recipient
  · simp [writeHalves, hst, opened]
  · rw [show writeHalves w p false true =
      writeHalf w p.1.tx.recipient p.2 (credit p.1.tx.value) from rfl,
      writeHalf_credit_dirty_iff hrefl hsync (hr rfl)]
    simp [hst, opened]
  · rw [show writeHalves w p true false =
      writeHalf w p.1.tx.sender p.2 (debit p.1.tx.value) from rfl,
      writeHalf_debit_dirty_iff hst hsync (hs rfl)]
    simp
  · rw [show writeHalves w p true true = writeHalf (writeHalf w p.1.tx.sender p.2
        (debit p.1.tx.value)) p.1.tx.recipient p.2 (credit p.1.tx.value) from rfl,
      writeHalf_credit_dirty_iff (hrefl.trans (written_writeHalf _ _))
        (hsync.writeHalf (hs rfl) _ _) (mem_writeHalf (hr rfl) _ _),
      writeHalf_debit_dirty_iff hst hsync (hs rfl)]
    simp

/-- **The loop changes the trie** exactly when one of the transactions touches the state before
the block: up to the first write that changes it, the trie is that state. -/
theorem writeTxs_dirty_iff {st : Trie} {ps : List (PoolTx × ℕ)} (hst : w.st = opened st)
    (hsync : Synced w) (hcov : ∀ p ∈ ps, Covers cfg l w.account2State p.1)
    (h : ps.foldlM (writeTx cfg l) w = some w') :
    w'.st.dirty = true ↔ ∃ p ∈ ps, Touches cfg l st p.1 := by
  induction ps generalizing w with
  | nil =>
    rw [List.foldlM_nil] at h
    cases h
    simp [hst, opened]
  | cons p ps ih =>
    rw [List.foldlM_cons] at h
    obtain ⟨w₁, h₁, hrest⟩ := Option.bind_eq_some_iff.mp h
    have hcovp := hcov p List.mem_cons_self
    obtain ⟨hsync₁, hsub, hwritten⟩ := writeTx_keeps h₁ hsync hcovp
    have hcov₁ : ∀ q ∈ ps, Covers cfg l w₁.account2State q.1 :=
      fun q hq => (hcov q (List.mem_cons_of_mem p hq)).mono hsub
    have htouch := writeTx_dirty_iff hst hsync hcovp h₁
    rw [List.exists_mem_cons_iff, ← htouch]
    cases hd : w₁.st.dirty with
    | true => simp [(writeTxs_written hrest hsync₁ hcov₁).dirty hd]
    | false =>
      have hsame : w₁.st = opened st := (hwritten.unchanged hd).trans hst
      simpa using ih hsame hsync₁ hcov₁ hrest

/-! ### When the function returns -/

/-- No half of the transaction is executed in this shard. -/
def Foreign (cfg : ChainConfig) (l : Ledger) (p : PoolTx) : Prop :=
  halves cfg l p = some (false, false)

theorem writeTx_cnt {p : PoolTx × ℕ} (h : writeTx cfg l w p = some w') :
    w.cnt ≤ w'.cnt ∧ (w'.cnt = w.cnt ↔ Foreign cfg l p.1) := by
  obtain ⟨sender, recipient, hhalves, rfl⟩ := writeTx_cases h
  rw [Foreign, hhalves]
  cases sender <;> cases recipient <;> simp [writeHalves, writeHalf_cnt]
  omega

/-- The counter stays at zero when no half is executed. -/
theorem writeTxs_cnt {ps : List (PoolTx × ℕ)} (h : ps.foldlM (writeTx cfg l) w = some w') :
    w.cnt ≤ w'.cnt ∧ (w'.cnt = w.cnt ↔ ∀ p ∈ ps, Foreign cfg l p.1) := by
  induction ps generalizing w with
  | nil =>
    rw [List.foldlM_nil] at h
    cases h
    simp
  | cons p ps ih =>
    rw [List.foldlM_cons] at h
    obtain ⟨w₁, h₁, hrest⟩ := Option.bind_eq_some_iff.mp h
    obtain ⟨hle₁, hiff₁⟩ := writeTx_cnt h₁
    obtain ⟨hle, hiff⟩ := ih hrest
    refine ⟨hle₁.trans hle, ?_⟩
    rw [List.forall_mem_cons, ← hiff₁, ← hiff]
    omega

theorem readTx_isSome_iff (cfg : ChainConfig) (l : Ledger) (st : Trie) (acc : Account2State)
    (p : PoolTx × ℕ) :
    (readTx cfg l st acc p).isSome ↔ (halves cfg l p.1).isSome := by
  unfold readTx
  cases halves cfg l p.1 <;> simp

theorem writeTx_isSome_iff (cfg : ChainConfig) (l : Ledger) (w : Writing) (p : PoolTx × ℕ) :
    (writeTx cfg l w p).isSome ↔ (halves cfg l p.1).isSome := by
  unfold writeTx
  cases halves cfg l p.1 <;> simp

/-- **Both loops**: they return when all owners can be worked out, they count nothing when no half
is executed, and they change the trie when a transaction touches it. -/
theorem execute_spec (cfg : ChainConfig) (l : Ledger) (st : Trie) (txs : List PoolTx) :
    ((execute cfg l st txs).isSome ↔ ∀ p ∈ txs, (halves cfg l p).isSome) ∧
      ∀ w, execute cfg l st txs = some w → Written (opened st) w.st ∧
        (w.cnt = 0 ↔ ∀ p ∈ txs, Foreign cfg l p) ∧
        (w.st.dirty = true ↔ ∃ p ∈ txs, Touches cfg l st p) := by
  have hread := foldlM_isSome_iff (readTx_isSome_iff cfg l st) txs.zipIdx ∅
  constructor
  · rw [← forall_mem_zipIdx, ← hread, execute]
    cases hacc : txs.zipIdx.foldlM (readTx cfg l st) ∅ with
    | none => simp
    | some acc =>
      rw [hacc] at hread
      have hwrite := foldlM_isSome_iff (writeTx_isSome_iff cfg l) txs.zipIdx
        ⟨acc, opened st, 0⟩
      simp only [Option.bind_eq_bind, Option.bind_some, hwrite, ← hread]
  · intro w hw
    obtain ⟨acc, hacc, hw⟩ := Option.bind_eq_some_iff.mp hw
    obtain ⟨hsync, hcov, -⟩ := readTxs_spec hacc (synced_empty st)
    refine ⟨writeTxs_written hw hsync hcov, ?_, ?_⟩
    · rw [(writeTxs_cnt hw).2, forall_mem_zipIdx]
    · rw [writeTxs_dirty_iff rfl hsync hcov hw, exists_mem_zipIdx]

/-- On the empty trie every half makes an account. -/
theorem touches_empty {p : PoolTx} (hsome : (halves cfg l p).isSome)
    (hforeign : ¬ Foreign cfg l p) : Touches cfg l ∅ p := by
  obtain ⟨⟨sender, recipient⟩, hhalves⟩ := Option.isSome_iff_exists.mp hsome
  rw [touches_iff hhalves]
  rw [Foreign, hhalves] at hforeign
  cases sender with
  | true => exact .inl ⟨rfl, .inl Finmap.notMem_empty⟩
  | false =>
    cases recipient with
    | true => exact .inr ⟨rfl, .inl Finmap.notMem_empty⟩
    | false => exact absurd rfl hforeign

/-- **`GetUpdateStatusTrie` returns**, on a state that can be loaded, exactly when the owners of
all addresses can be worked out and either no half is executed in this shard or one of them
changes an account. -/
theorem getUpdateStatusTrie_isSome_iff {st : Trie} (hst : l.state cfg = some st)
    (txs : List PoolTx) :
    (getUpdateStatusTrie cfg l txs).isSome ↔
      (∀ p ∈ txs, (halves cfg l p).isSome) ∧
        ((∀ p ∈ txs, Foreign cfg l p) ∨ ∃ p ∈ txs, Touches cfg l st p) := by
  by_cases htxs : txs = []
  · simp [getUpdateStatusTrie, htxs]
  obtain ⟨hsome, hspec⟩ := execute_spec cfg l st txs
  rw [← hsome]
  simp only [getUpdateStatusTrie, htxs, if_false, hst, Option.bind_eq_bind, Option.bind_some]
  cases hex : execute cfg l st txs with
  | none => simp
  | some w =>
    obtain ⟨hwritten, hcnt, hdirty⟩ := hspec w hex
    simp only [Option.bind_some, Option.isSome_some, true_and]
    split_ifs with hzero
    · exact iff_of_true rfl (.inl (hcnt.mp hzero))
    · have hsomeHalf : ¬ ∀ p ∈ txs, Foreign cfg l p := mt hcnt.mpr hzero
      have hempty : st = ∅ → w.st.dirty = true := by
        intro he
        apply hdirty.mpr
        push Not at hsomeHalf
        obtain ⟨p, hp, hforeign⟩ := hsomeHalf
        have hsome' : ∀ p ∈ txs, (halves cfg l p).isSome := hsome.mp (by rw [hex]; rfl)
        exact ⟨p, hp, he ▸ touches_empty (hsome' p hp) hforeign⟩
      have hcommit := hwritten.commit_isSome_iff
      rw [or_iff_right_of_imp hempty] at hcommit
      rw [← hdirty, or_iff_right hsomeHalf, ← hcommit]
      cases w.st.commit <;> simp

/-- **A block of one transaction** with a half in this shard: the root and the database are those
of a trie with the balances after the halves. -/
theorem getUpdateStatusTrie_singleton {st : Trie} (hst : l.state cfg = some st) {p : PoolTx}
    {sender recipient : Bool} (hhalves : halves cfg l p = some (sender, recipient))
    (hhalf : (sender, recipient) ≠ (false, false)) {root : Hash} {triedb : TrieDb}
    (h : getUpdateStatusTrie cfg l [p] = some (root, triedb)) :
    ∃ st', root = cfg.stateRoot st' ∧ triedb = l.triedb.insert (cfg.stateRoot st') st' ∧
      balanceOf st' = applyHalves (balanceOf st) p.tx sender recipient := by
  rw [getUpdateStatusTrie, if_neg (List.cons_ne_nil p [])] at h
  obtain ⟨st₀, hst₀, h⟩ := Option.bind_eq_some_iff.mp h
  cases hst.symm.trans hst₀
  obtain ⟨w, hw, h⟩ := Option.bind_eq_some_iff.mp h
  obtain ⟨-, hcnt, -⟩ := (execute_spec cfg l st [p]).2 w hw
  have hcounted : w.cnt ≠ 0 := by
    intro hzero
    have hforeign := hcnt.mp hzero p List.mem_cons_self
    rw [Foreign, hhalves] at hforeign
    exact hhalf (Option.some.inj hforeign)
  rw [if_neg hcounted] at h
  obtain ⟨st', hcommit, h⟩ := Option.bind_eq_some_iff.mp h
  cases h
  refine ⟨st', rfl, rfl, ?_⟩
  rw [(commit_eq_some_iff.mp hcommit).1]
  obtain ⟨acc, hacc, hw⟩ := Option.bind_eq_some_iff.mp hw
  obtain ⟨hsync, hcov, -⟩ := readTxs_spec hacc (synced_empty st)
  rw [List.zipIdx_singleton, List.foldlM_cons] at hw
  obtain ⟨w₁, hw₁, hw⟩ := Option.bind_eq_some_iff.mp hw
  cases hw
  exact writeTx_balance hw₁ hsync (hcov (p, 0) List.mem_cons_self) hhalves

end Aster.Chain.DbMPT
