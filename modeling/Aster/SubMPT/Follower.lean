import Aster.SubMPT.Routing
import Aster.Lib.Transfers

/-!
# Followers: executing an allocated batch

`ProcessTxs` of a follower walks over the batch it was sent.  For each transaction it works
out, with its own `FollowerNum`, which followers own the two addresses, and executes the halves
that fall on itself.  A debit that exceeds the balance skips the transaction, and only the
hashes of the executed ones are reported back.

The loop refines the guarded transfers of `Aster.Lib.Transfers`: its balances are those of
`Transfers.run` for the accounts the follower owns, it stores no other account, and the reported
hashes are those of the transactions that `reported` keeps (`processTxs_spec`).
-/

namespace Aster.SubMPT

open Aster.Core Aster.Lib

structure FollowerNode where
  followerID : ℕ
  followerNum : ℕ
  /-- The committed state trie, the one at `StateRoot`. -/
  state : Trie

/-- The readings of the clock during one call: for the allocation stamp and the execution
stamp of the transaction at each position. -/
structure Clock where
  allocate : ℕ → Time
  execution : ℕ → Time

/-- The sender's half.  The result is `none` when the balance is too small. -/
def debitSender (st : Trie) (i : ℕ) (tx : Transaction) : Option Trie :=
  let s_state := fetch st tx.sender i
  if s_state.balance < tx.value then none
  else some (st.insert tx.sender (s_state.deduct tx.value).1)

/-- The recipient's half. -/
def creditRecipient (st : Trie) (i : ℕ) (tx : Transaction) : Trie :=
  let r_state := fetch st tx.recipient i
  st.insert tx.recipient (r_state.deposit tx.value)

/-- One iteration of the loop of `ProcessTxs`: the new trie, and whether the transaction ran to
the end of the body.  The result is `none` when the process panics. -/
def processTx (f : FollowerNode) (i : ℕ) (st : Trie) (tx : Transaction) : Option (Trie × Bool) :=
  match prefixes tx with
  | .outOfRange => none
  | .syntaxError => some (st, false)
  | .digits dec1 dec2 =>
    if f.followerNum = 0 then none
    else
      let destId1 := dec1 % f.followerNum
      let destId2 := dec2 % f.followerNum
      match if destId1 = f.followerID then debitSender st i tx else some st with
      | none => some (st, false)
      | some st' =>
        some (if destId2 = f.followerID then creditRecipient st' i tx else st', true)

/-- The loop of `ProcessTxs` from position `i` on, with the hashes and the transactions it
leaves. -/
def processLoop (clk : Clock) (f : FollowerNode) :
    ℕ → Trie → List TimedTx → Option (Trie × List Hash × List TimedTx)
  | _, st, [] => some (st, [], [])
  | i, st, t :: ts => do
    let (st', executed) ← processTx f i st t.tx
    let (st'', txHashs, txs) ← processLoop clk f (i + 1) st' ts
    if executed then
      some (st'', t.tx.txHash :: txHashs, t.setExecutionTime (clk.execution i) :: txs)
    else some (st'', txHashs, t :: txs)

/-- `ProcessTxs`: the follower afterwards, the hashes of the executed transactions and the
batch with its stamps. -/
def processTxs (clk : Clock) (f : FollowerNode) (txs : List TimedTx) :
    Option (FollowerNode × List Hash × List TimedTx) :=
  if txs = [] then some (f, [], [])
  else do
    let stamped := txs.mapIdx fun j t => t.setAllocateTime (clk.allocate j)
    let (st, txHashs, out) ← processLoop clk f 0 f.state stamped
    some ({ f with state := st }, txHashs, out)

/-! ### The shape of a result -/

theorem mapIdx_stamp_tx (clk : Clock) (txs : List TimedTx) :
    (txs.mapIdx fun j t => t.setAllocateTime (clk.allocate j)).map (·.tx) = txs.map (·.tx) := by
  apply List.ext_getElem?
  intro j
  simp only [List.getElem?_map, List.getElem?_mapIdx, Option.map_map]
  rfl

theorem processLoop_shape (clk : Clock) (f : FollowerNode) (ts : List TimedTx) (i : ℕ) (st : Trie)
    {st' : Trie} {txHashs : List Hash} {out : List TimedTx}
    (h : processLoop clk f i st ts = some (st', txHashs, out)) :
    out.map (·.tx) = ts.map (·.tx) ∧ txHashs.Sublist (ts.map (·.tx.txHash)) := by
  induction ts generalizing i st st' txHashs out with
  | nil =>
    simp only [processLoop, Option.some.injEq, Prod.mk.injEq] at h
    obtain ⟨-, rfl, rfl⟩ := h
    exact ⟨rfl, .slnil⟩
  | cons t ts ih =>
    rw [processLoop] at h
    obtain ⟨⟨st₁, executed⟩, -, h⟩ := Option.bind_eq_some_iff.mp h
    obtain ⟨⟨st₂, hs, out'⟩, hloop, h⟩ := Option.bind_eq_some_iff.mp h
    obtain ⟨hout, hsub⟩ := ih (i + 1) st₁ hloop
    dsimp only at h
    split_ifs at h
    · simp only [Option.some.injEq, Prod.mk.injEq] at h
      obtain ⟨-, rfl, rfl⟩ := h
      exact ⟨by simp [hout], hsub.cons_cons _⟩
    · simp only [Option.some.injEq, Prod.mk.injEq] at h
      obtain ⟨-, rfl, rfl⟩ := h
      exact ⟨by simp [hout], hsub.cons _⟩

/-- **The shape of a reply**, whatever the batch: the follower stays the same one, it sends its
batch back, and the hashes it reports are a subsequence of those of the batch. -/
theorem processTxs_shape {clk : Clock} {f f' : FollowerNode} {ts out : List TimedTx}
    {txHashs : List Hash} (h : processTxs clk f ts = some (f', txHashs, out)) :
    f'.followerID = f.followerID ∧ f'.followerNum = f.followerNum ∧
      out.map (·.tx) = ts.map (·.tx) ∧ txHashs.Sublist (ts.map (·.tx.txHash)) := by
  unfold processTxs at h
  split_ifs at h with hts
  · simp only [Option.some.injEq, Prod.mk.injEq] at h
    obtain ⟨rfl, rfl, rfl⟩ := h
    exact ⟨rfl, rfl, by rw [hts], List.nil_sublist _⟩
  · obtain ⟨⟨st, hs, out'⟩, hloop, h⟩ := Option.bind_eq_some_iff.mp h
    simp only [Option.some.injEq, Prod.mk.injEq] at h
    obtain ⟨rfl, rfl, rfl⟩ := h
    obtain ⟨hout, hsub⟩ := processLoop_shape clk f _ 0 f.state hloop
    have hmap := mapIdx_stamp_tx clk ts
    have hhash := congrArg (List.map Transaction.txHash) hmap
    simp only [List.map_map, Function.comp_def] at hhash
    exact ⟨rfl, rfl, hout.trans hmap, hhash ▸ hsub⟩

/-! ### One transaction -/

/-- The accounts whose halves the follower executes. -/
def Owns (f : FollowerNode) (a : Address) : Prop :=
  owner f.followerNum a = some f.followerID

instance (f : FollowerNode) : DecidablePred (Owns f) :=
  fun a => inferInstanceAs (Decidable (owner f.followerNum a = some f.followerID))

/-- A transaction as a transfer of the abstract ledger. -/
def toTransfer (tx : Transaction) : Transfers.Transfer Address :=
  ⟨tx.sender, tx.recipient, tx.value⟩

/-- Whether the follower executes `tx` on these balances: it does not own the sender, or the
sender covers the value. -/
def accepts (f : FollowerNode) (b : Address → ℤ) (tx : Transaction) : Bool :=
  decide (Owns f tx.sender → tx.value ≤ b tx.sender)

theorem debitSender_refused (st : Trie) (i : ℕ) (tx : Transaction)
    (h : balanceOf st tx.sender < tx.value) : debitSender st i tx = none := by
  unfold debitSender
  simp only [fetch_balance, if_pos h]

theorem debitSender_covered (st : Trie) (i : ℕ) (tx : Transaction)
    (h : tx.value ≤ balanceOf st tx.sender) :
    ∃ st₁, debitSender st i tx = some st₁ ∧
      balanceOf st₁ = Transfers.shift (balanceOf st) tx.sender (-tx.value) ∧
      ∀ a, a ∈ st₁ ↔ a = tx.sender ∨ a ∈ st := by
  have hlt : ¬ (fetch st tx.sender i).balance < tx.value := by
    rw [fetch_balance]
    exact not_lt.mpr h
  refine ⟨_, by rw [debitSender]; exact if_neg hlt, ?_, fun a => Finmap.mem_insert⟩
  funext a
  rw [balanceOf_insert, Transfers.shift_apply, AccountState.deduct, if_neg hlt, fetch_balance]
  split_ifs with ha
  · rw [ha]
    rfl
  · simp

theorem creditRecipient_spec (st : Trie) (i : ℕ) (tx : Transaction) :
    balanceOf (creditRecipient st i tx) =
        Transfers.shift (balanceOf st) tx.recipient tx.value ∧
      ∀ a, a ∈ creditRecipient st i tx ↔ a = tx.recipient ∨ a ∈ st := by
  refine ⟨?_, fun a => Finmap.mem_insert⟩
  funext a
  rw [creditRecipient, balanceOf_insert, Transfers.shift_apply]
  split_ifs with h
  · rw [h, AccountState.deposit, fetch_balance]
  · simp

/-- **One iteration of `ProcessTxs`.**  It does not panic on hexadecimal prefixes, steps the
balances as the abstract transfer does, runs to the end exactly when the follower accepts the
transaction, and stores nothing but owned accounts. -/
theorem processTx_spec (f : FollowerNode) (i : ℕ) (st : Trie) (tx : Transaction)
    (hnum : f.followerNum ≠ 0) (hhex : HexLeading tx) :
    ∃ st', processTx f i st tx = some (st', accepts f (balanceOf st) tx) ∧
      balanceOf st' = Transfers.step (Owns f) (balanceOf st) (toTransfer tx) ∧
      (∀ a ∈ st, a ∈ st') ∧ ∀ a ∈ st', a ∈ st ∨ Owns f a := by
  obtain ⟨dec1, dec2, h1, h2, hp⟩ := prefixes_of_hexLeading tx hhex
  have hs : dec1 % f.followerNum = f.followerID ↔ Owns f tx.sender := by
    simp [Owns, owner, h1]
  have hr : dec2 % f.followerNum = f.followerID ↔ Owns f tx.recipient := by
    simp [Owns, owner, h2]
  obtain ⟨hcb, hcm⟩ := creditRecipient_spec st i tx
  simp only [processTx, hp, if_neg hnum, hs, hr, accepts]
  -- The cases are those of the abstract step: refused, local, outgoing, incoming, foreign.
  by_cases hS : Owns f tx.sender
  · rcases lt_or_ge (balanceOf st tx.sender) tx.value with hlt | hle
    · refine ⟨st, ?_, ?_, fun a ha => ha, fun a ha => .inl ha⟩
      · simp [hS, hlt, debitSender_refused st i tx hlt]
      · rw [Transfers.step_refused (Owns f) _ (toTransfer tx) hS hlt]
    · obtain ⟨st₁, hdeb, hdb, hdm⟩ := debitSender_covered st i tx hle
      obtain ⟨hcb₁, hcm₁⟩ := creditRecipient_spec st₁ i tx
      by_cases hR : Owns f tx.recipient
      · refine ⟨creditRecipient st₁ i tx, by simp [hS, hdeb, hle, hR], ?_, ?_, ?_⟩
        · rw [Transfers.step_local (Owns f) _ (toTransfer tx) hS hle hR, hcb₁, hdb]
          rfl
        · intro a ha
          exact (hcm₁ a).mpr (.inr ((hdm a).mpr (.inr ha)))
        · intro a ha
          rcases (hcm₁ a).mp ha with rfl | ha'
          · exact .inr hR
          · rcases (hdm a).mp ha' with rfl | h
            · exact .inr hS
            · exact .inl h
      · refine ⟨st₁, by simp [hS, hdeb, hle, hR], ?_, ?_, ?_⟩
        · rw [Transfers.step_outgoing (Owns f) _ (toTransfer tx) hS hle hR, hdb]
          rfl
        · exact fun a ha => (hdm a).mpr (.inr ha)
        · intro a ha
          rcases (hdm a).mp ha with rfl | h
          · exact .inr hS
          · exact .inl h
  · by_cases hR : Owns f tx.recipient
    · refine ⟨creditRecipient st i tx, by simp [hS, hR], ?_, ?_, ?_⟩
      · rw [Transfers.step_incoming (Owns f) _ (toTransfer tx) hS hR, hcb]
        rfl
      · exact fun a ha => (hcm a).mpr (.inr ha)
      · intro a ha
        rcases (hcm a).mp ha with rfl | h
        · exact .inr hR
        · exact .inl h
    · refine ⟨st, by simp [hS, hR], ?_, fun a ha => ha, fun a ha => .inl ha⟩
      rw [Transfers.step_foreign (Owns f) _ (toTransfer tx) hS hR]

/-! ### The whole batch -/

/-- The transactions of a batch that the follower executes, on balances `b`. -/
def reported (f : FollowerNode) : (Address → ℤ) → List Transaction → List Transaction
  | _, [] => []
  | b, tx :: txs =>
    let rest := reported f (Transfers.step (Owns f) b (toTransfer tx)) txs
    if accepts f b tx then tx :: rest else rest

/-- **The loop of `ProcessTxs` refines the abstract run.** -/
theorem processLoop_spec (clk : Clock) (f : FollowerNode) (hnum : f.followerNum ≠ 0)
    (ts : List TimedTx) (hhex : ∀ t ∈ ts, HexLeading t.tx) (i : ℕ) (st : Trie) :
    ∃ st' out, processLoop clk f i st ts =
        some (st', (reported f (balanceOf st) (ts.map (·.tx))).map (·.txHash), out) ∧
      balanceOf st' =
        Transfers.run (Owns f) (balanceOf st) (ts.map fun t => toTransfer t.tx) ∧
      (∀ a ∈ st, a ∈ st') ∧ (∀ a ∈ st', a ∈ st ∨ Owns f a) ∧
      out.map (·.tx) = ts.map (·.tx) := by
  induction ts generalizing i st with
  | nil => exact ⟨st, [], rfl, rfl, fun a ha => ha, fun a ha => .inl ha, rfl⟩
  | cons t ts ih =>
    obtain ⟨st₁, hstep, hbal, hkeep, hown⟩ :=
      processTx_spec f i st t.tx hnum (hhex t List.mem_cons_self)
    obtain ⟨st₂, out, hloop, hbal₂, hkeep₂, hown₂, hout⟩ :=
      ih (fun u hu => hhex u (List.mem_cons_of_mem t hu)) (i + 1) st₁
    have hmem : ∀ a ∈ st₂, a ∈ st ∨ Owns f a := by
      intro a ha
      rcases hown₂ a ha with h | h
      · exact hown a h
      · exact .inr h
    refine ⟨st₂, (if accepts f (balanceOf st) t.tx then t.setExecutionTime (clk.execution i)
      else t) :: out, ?_, ?_, fun a ha => hkeep₂ a (hkeep a ha), hmem, ?_⟩
    · simp only [processLoop, hstep, Option.bind_eq_bind, Option.bind_some, hloop, List.map_cons,
        reported, hbal]
      cases accepts f (balanceOf st) t.tx <;> simp
    · rw [List.map_cons, Transfers.run_cons, ← hbal, hbal₂]
    · simp only [List.map_cons, hout]
      split_ifs <;> rfl

/-- **`ProcessTxs` on hexadecimal prefixes.**  The follower does not panic, its balances are
those of the abstract run on the accounts it owns, it reports the hashes of the transactions it
accepted, and it stores no account it neither stored before nor owns. -/
theorem processTxs_spec (clk : Clock) (f : FollowerNode) (hnum : f.followerNum ≠ 0)
    (ts : List TimedTx) (hhex : ∀ t ∈ ts, HexLeading t.tx) :
    ∃ st' out, processTxs clk f ts =
        some ({ f with state := st' },
          (reported f (balanceOf f.state) (ts.map (·.tx))).map (·.txHash), out) ∧
      balanceOf st' =
        Transfers.run (Owns f) (balanceOf f.state) (ts.map fun t => toTransfer t.tx) ∧
      (∀ a ∈ f.state, a ∈ st') ∧ (∀ a ∈ st', a ∈ f.state ∨ Owns f a) ∧
      out.map (·.tx) = ts.map (·.tx) := by
  by_cases hts : ts = []
  · subst hts
    exact ⟨f.state, [], rfl, rfl, fun a ha => ha, fun a ha => .inl ha, rfl⟩
  · have hmap := mapIdx_stamp_tx clk ts
    have hmap' : (ts.mapIdx fun j t => t.setAllocateTime (clk.allocate j)).map
        (fun t => toTransfer t.tx) = ts.map fun t => toTransfer t.tx := by
      have h := congrArg (List.map toTransfer) hmap
      simpa only [List.map_map, Function.comp_def] using h
    have hhex' : ∀ t ∈ ts.mapIdx fun j t => t.setAllocateTime (clk.allocate j),
        HexLeading t.tx := by
      intro t ht
      have hmem : t.tx ∈ ts.map (·.tx) := hmap ▸ List.mem_map_of_mem ht
      obtain ⟨u, hu, he⟩ := List.mem_map.mp hmem
      exact he ▸ hhex u hu
    obtain ⟨st', out, hloop, hbal, hkeep, hown, hout⟩ :=
      processLoop_spec clk f hnum _ hhex' 0 f.state
    rw [hmap] at hloop hout
    rw [hmap'] at hbal
    refine ⟨st', out, ?_, hbal, hkeep, hown, hout⟩
    rw [processTxs, if_neg hts]
    simp only [hloop, Option.bind_eq_bind, Option.bind_some]

end Aster.SubMPT
