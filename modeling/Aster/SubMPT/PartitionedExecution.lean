import Aster.SubMPT.Follower

/-!
# Partitioned execution against one ledger

A cluster of `n` followers splits the accounts by their first hexadecimal digit modulo `n`.
A batch is sorted by the proposer and every follower runs `ProcessTxs` on its list.

* If every account covers what it sends in the batch, the balances end up as on one ledger
  that executes the batch in its original order, whatever the order of the sorting goroutines:
  both are `start - sent + received`.
* In general a transfer between two followers is debited at one and credited at the other.  The
  credit never learns that the debit was refused, so the sum of the balances is kept exactly
  when no transfer between two followers is refused.
-/

namespace Aster.SubMPT

open Aster.Core Aster.Lib

/-- `n` followers with ids `0, ..., n - 1` and matching `FollowerNum`, each storing only
accounts it owns. -/
structure Cluster (n : ℕ) where
  node : Fin n → FollowerNode
  id_eq : ∀ i, (node i).followerID = i
  num_eq : ∀ i, (node i).followerNum = n
  owned : ∀ i, ∀ a ∈ (node i).state, Owns (node i) a

variable {n : ℕ}

theorem Cluster.owns_iff (c : Cluster n) (i : Fin n) (a : Address) :
    Owns (c.node i) a ↔ owner n a = some i.val := by
  rw [Owns, c.num_eq, c.id_eq]

/-- The balance of `a` at the follower that owns it. -/
def Cluster.balance (c : Cluster n) (a : Address) : ℤ :=
  match owner n a with
  | some j => if h : j < n then balanceOf (c.node ⟨j, h⟩).state a else initBalance
  | none => initBalance

theorem Cluster.balance_of_owns (c : Cluster n) (i : Fin n) (a : Address)
    (h : owner n a = some i.val) : c.balance a = balanceOf (c.node i).state a := by
  simp [Cluster.balance, h]

/-- Every follower runs `ProcessTxs` on the list the proposer allocated to it, the goroutines
of `SchedulingTxs` having taken the lock in the order `order`. -/
def RunsBatch (clk : Fin n → Clock) (times : Transaction → TxTimes) (c : Cluster n)
    (order : List Transaction) (c' : Cluster n) : Prop :=
  ∃ allocMap, allocTxs n order = some allocMap ∧ ∀ i : Fin n, ∃ txHashs out,
    processTxs (clk i) (c.node i) ((allocMap i).map fun tx => ⟨tx, times tx⟩) =
      some (c'.node i, txHashs, out)

/-- The transfers in the list of follower `i`. -/
def allocated (order : List Transaction) (i : Fin n) : List (Transfers.Transfer Address) :=
  (order.filter (routedTo n i)).map toTransfer

/-- What a batch does at every follower. -/
theorem runsBatch_spec (hn : 0 < n) (clk : Fin n → Clock) (times : Transaction → TxTimes)
    (c : Cluster n) (order : List Transaction) (hhex : ∀ tx ∈ order, HexLeading tx) :
    ∃ c', RunsBatch clk times c order c' ∧
      (∀ i, balanceOf (c'.node i).state =
        Transfers.run (Owns (c.node i)) (balanceOf (c.node i).state) (allocated order i)) ∧
      ∀ i, ∀ a ∈ (c.node i).state, a ∈ (c'.node i).state := by
  have hpre : ∀ tx ∈ order, prefixes tx ≠ .outOfRange := by
    intro tx htx he
    obtain ⟨_, _, _, _, hp⟩ := prefixes_of_hexLeading tx (hhex tx htx)
    rw [hp] at he
    cases he
  have hnode : ∀ i : Fin n, ∃ st' txHashs out,
      processTxs (clk i) (c.node i)
          ((order.filter (routedTo n i)).map fun tx => ⟨tx, times tx⟩) =
        some ({ c.node i with state := st' }, txHashs, out) ∧
      balanceOf st' =
        Transfers.run (Owns (c.node i)) (balanceOf (c.node i).state) (allocated order i) ∧
      (∀ a ∈ (c.node i).state, a ∈ st') ∧ ∀ a ∈ st', Owns (c.node i) a := by
    intro i
    have hnum : (c.node i).followerNum ≠ 0 := by
      rw [c.num_eq]
      omega
    have hhex' : ∀ t ∈ (order.filter (routedTo n i)).map fun tx => (⟨tx, times tx⟩ : TimedTx),
        HexLeading t.tx := by
      intro t ht
      obtain ⟨tx, htx, rfl⟩ := List.mem_map.mp ht
      exact hhex tx (List.mem_of_mem_filter htx)
    obtain ⟨st', out, hrun, hbal, hkeep, hown, _⟩ :=
      processTxs_spec (clk i) (c.node i) hnum _ hhex'
    refine ⟨st', _, out, hrun, ?_, hkeep, ?_⟩
    · rw [hbal, allocated, List.map_map]
      rfl
    · intro a ha
      rcases hown a ha with h | h
      · exact c.owned i a h
      · exact h
  choose st' txHashs out hrun hbal hkeep hown using hnode
  refine ⟨⟨fun i => { c.node i with state := st' i }, c.id_eq, c.num_eq, hown⟩, ?_, hbal, hkeep⟩
  exact ⟨_, allocTxs_eq n (by omega) order hpre, fun i => ⟨_, _, hrun i⟩⟩

/-- A batch has at most one outcome. -/
theorem runsBatch_node_eq {clk : Fin n → Clock} {times : Transaction → TxTimes}
    {c : Cluster n} {order : List Transaction} {c₁ c₂ : Cluster n}
    (h₁ : RunsBatch clk times c order c₁) (h₂ : RunsBatch clk times c order c₂) (i : Fin n) :
    c₁.node i = c₂.node i := by
  obtain ⟨m₁, hm₁, h₁⟩ := h₁
  obtain ⟨m₂, hm₂, h₂⟩ := h₂
  rw [hm₁, Option.some.injEq] at hm₂
  subst hm₂
  obtain ⟨_, _, e₁⟩ := h₁ i
  obtain ⟨_, _, e₂⟩ := h₂ i
  rw [e₁] at e₂
  exact congrArg Prod.fst (Option.some.inj e₂)

/-! ### One ledger -/

/-- The single ledger of `Ttestresult`, a map from addresses to balances. -/
abbrev SingleLedger := Finmap fun _ : Address => ℤ

def SingleLedger.balance (m : SingleLedger) (a : Address) : ℤ := (m.lookup a).getD initBalance

/-- First contact with an address puts it on the ledger with the initial balance. -/
def SingleLedger.touch (m : SingleLedger) (a : Address) : SingleLedger :=
  if a ∈ m then m else m.insert a initBalance

/-- One transaction of `Ttestresult`. -/
def SingleLedger.execute (m : SingleLedger) (tx : Transaction) : SingleLedger :=
  let m := (m.touch tx.sender).touch tx.recipient
  if m.balance tx.sender < tx.value then m
  else
    let m : SingleLedger := m.insert tx.sender (m.balance tx.sender - tx.value)
    m.insert tx.recipient (m.balance tx.recipient + tx.value)

theorem SingleLedger.balance_insert (m : SingleLedger) (a x : Address) (v : ℤ) :
    SingleLedger.balance (m.insert a v) x = if x = a then v else m.balance x := by
  by_cases h : x = a
  · subst h
    simp [SingleLedger.balance, Finmap.lookup_insert]
  · simp [SingleLedger.balance, Finmap.lookup_insert_of_ne m h, h]

theorem SingleLedger.balance_touch (m : SingleLedger) (a x : Address) :
    (m.touch a).balance x = m.balance x := by
  unfold SingleLedger.touch
  split_ifs with h
  · rfl
  · rw [SingleLedger.balance_insert]
    split_ifs with hx
    · subst hx
      simp [SingleLedger.balance, Finmap.lookup_eq_none.mpr h]
    · rfl

/-- One ledger owns every account. -/
theorem SingleLedger.balance_execute (m : SingleLedger) (tx : Transaction) :
    (m.execute tx).balance = Transfers.step (fun _ => True) m.balance (toTransfer tx) := by
  funext a
  simp only [SingleLedger.execute, SingleLedger.balance_touch]
  rcases lt_or_ge (m.balance tx.sender) tx.value with hlt | hle
  · rw [if_pos hlt, Transfers.step_refused _ _ (toTransfer tx) trivial hlt]
    simp only [SingleLedger.balance_touch]
  · rw [if_neg (not_lt.mpr hle), Transfers.step_local _ _ (toTransfer tx) trivial hle trivial]
    simp only [SingleLedger.balance_insert, SingleLedger.balance_touch, Transfers.shift_apply,
      toTransfer]
    split_ifs <;> simp_all [sub_eq_add_neg]

/-- The batch in its original order on one ledger. -/
def executeSequential (m : SingleLedger) (batch : List Transaction) : SingleLedger :=
  batch.foldl SingleLedger.execute m

theorem executeSequential_balance (m : SingleLedger) (batch : List Transaction) :
    (executeSequential m batch).balance =
      Transfers.run (fun _ => True) m.balance (batch.map toTransfer) := by
  induction batch generalizing m with
  | nil => rfl
  | cons tx txs ih =>
    rw [List.map_cons, Transfers.run_cons, ← SingleLedger.balance_execute, ← ih]
    rfl

/-! ### Sums over the list of one follower -/

theorem sent_allocated (order : List Transaction) (hhex : ∀ tx ∈ order, HexLeading tx)
    (i : Fin n) (a : Address) (ha : owner n a = some i.val) :
    Transfers.sent a (allocated order i) = Transfers.sent a (order.map toTransfer) := by
  simp only [Transfers.sent, allocated, List.map_map]
  apply Transfers.sum_map_filter
  intro tx htx hroute
  refine if_neg fun he : tx.sender = a => ?_
  have := (routedTo_iff n i tx (hhex tx htx)).mpr (.inl (he ▸ ha))
  rw [this] at hroute
  cases hroute

theorem received_allocated (order : List Transaction) (hhex : ∀ tx ∈ order, HexLeading tx)
    (i : Fin n) (a : Address) (ha : owner n a = some i.val) :
    Transfers.received a (allocated order i) =
      Transfers.received a (order.map toTransfer) := by
  simp only [Transfers.received, allocated, List.map_map]
  apply Transfers.sum_map_filter
  intro tx htx hroute
  refine if_neg fun he : tx.recipient = a => ?_
  have := (routedTo_iff n i tx (hhex tx htx)).mpr (.inr (he ▸ ha))
  rw [this] at hroute
  cases hroute

theorem owner_of_hexLeading (hn : 0 < n) (tx : Transaction) (h : HexLeading tx) :
    (∃ p : Fin n, owner n tx.sender = some p.val) ∧
      ∃ q : Fin n, owner n tx.recipient = some q.val := by
  obtain ⟨dec1, dec2, h1, h2, _⟩ := prefixes_of_hexLeading tx h
  exact ⟨⟨⟨dec1 % n, Nat.mod_lt dec1 hn⟩, by simp [owner, h1]⟩,
    ⟨⟨dec2 % n, Nat.mod_lt dec2 hn⟩, by simp [owner, h2]⟩⟩

/-- An address no follower owns takes part in no transaction of the batch. -/
theorem flows_of_no_owner (hn : 0 < n) (order : List Transaction)
    (hhex : ∀ tx ∈ order, HexLeading tx) (a : Address) (ha : owner n a = none) :
    Transfers.sent a (order.map toTransfer) = 0 ∧
      Transfers.received a (order.map toTransfer) = 0 := by
  simp only [Transfers.sent, Transfers.received, List.map_map]
  refine ⟨List.sum_eq_zero ?_, List.sum_eq_zero ?_⟩ <;> intro v hv <;>
    obtain ⟨tx, htx, rfl⟩ := List.mem_map.mp hv <;>
    obtain ⟨⟨p, hp⟩, q, hq⟩ := owner_of_hexLeading hn tx (hhex tx htx)
  · refine if_neg fun he : tx.sender = a => ?_
    rw [he, ha] at hp
    cases hp
  · refine if_neg fun he : tx.recipient = a => ?_
    rw [he, ha] at hq
    cases hq

/-- **Balances after a covered batch.** -/
theorem balance_of_covered (hn : 0 < n) (c c' : Cluster n) (order : List Transaction)
    (hhex : ∀ tx ∈ order, HexLeading tx) (hval : ∀ tx ∈ order, 0 ≤ tx.value)
    (hcov : ∀ a, Transfers.sent a (order.map toTransfer) ≤ c.balance a)
    (hbal : ∀ i, balanceOf (c'.node i).state =
      Transfers.run (Owns (c.node i)) (balanceOf (c.node i).state) (allocated order i))
    (a : Address) :
    c'.balance a = c.balance a - Transfers.sent a (order.map toTransfer) +
      Transfers.received a (order.map toTransfer) := by
  cases ho : owner n a with
  | none =>
    obtain ⟨hs, hr⟩ := flows_of_no_owner hn order hhex a ho
    rw [hs, hr]
    simp [Cluster.balance, ho]
  | some j =>
    obtain ⟨i, rfl⟩ : ∃ i : Fin n, i.val = j := ⟨⟨j, owner_lt hn ho⟩, rfl⟩
    have hv : ∀ t ∈ allocated order i, 0 ≤ t.amount := by
      intro t ht
      obtain ⟨tx, htx, rfl⟩ := List.mem_map.mp ht
      exact hval tx (List.mem_of_mem_filter htx)
    have hc : ∀ x, Owns (c.node i) x →
        Transfers.sent x (allocated order i) ≤ balanceOf (c.node i).state x := by
      intro x hx
      have hx' := (c.owns_iff i x).mp hx
      rw [sent_allocated order hhex i x hx', ← c.balance_of_owns i x hx']
      exact hcov x
    rw [c'.balance_of_owns i a ho, hbal i,
      Transfers.run_of_covered _ _ _ hv hc a ((c.owns_iff i a).mpr ho),
      sent_allocated order hhex i a ho, received_allocated order hhex i a ho,
      c.balance_of_owns i a ho]

/-- **Partitioned execution refines sequential execution.**  When every account covers what it
sends in the batch, every follower finishes its list, every account ends at its owner with the
balance that one ledger gives it, and the followers still store only what they own. -/
theorem partitioned_refines_sequential (hn : 0 < n) (clk : Fin n → Clock)
    (times : Transaction → TxTimes) (c : Cluster n) (batch order : List Transaction)
    (horder : order.Perm batch) (hhex : ∀ tx ∈ batch, HexLeading tx)
    (hval : ∀ tx ∈ batch, 0 ≤ tx.value)
    (hcov : ∀ a, Transfers.sent a (batch.map toTransfer) ≤ c.balance a)
    (ledger : SingleLedger) (hstart : ∀ a, ledger.balance a = c.balance a) :
    ∃ c' : Cluster n, RunsBatch clk times c order c' ∧
      ∀ a, c'.balance a = (executeSequential ledger batch).balance a := by
  have hmem : ∀ tx ∈ order, tx ∈ batch := fun tx htx => horder.mem_iff.mp htx
  have hperm := horder.map toTransfer
  obtain ⟨c', hrun, hbal, _⟩ :=
    runsBatch_spec hn clk times c order fun tx htx => hhex tx (hmem tx htx)
  refine ⟨c', hrun, fun a => ?_⟩
  have hpart := balance_of_covered hn c c' order (fun tx htx => hhex tx (hmem tx htx))
    (fun tx htx => hval tx (hmem tx htx))
    (fun x => (Transfers.sent_perm hperm x).symm ▸ hcov x) hbal a
  have hseq := Transfers.run_of_covered (fun _ => True) ledger.balance (batch.map toTransfer)
    (fun t ht => by obtain ⟨tx, htx, rfl⟩ := List.mem_map.mp ht; exact hval tx htx)
    (fun x _ => (hstart x).symm ▸ hcov x) a trivial
  rw [hpart, executeSequential_balance, hseq, hstart a, Transfers.sent_perm hperm a,
    Transfers.received_perm hperm a]

/-- A cluster whose followers store nothing yet. -/
def Cluster.empty (n : ℕ) : Cluster n where
  node i := ⟨i, n, ∅⟩
  id_eq _ := rfl
  num_eq _ := rfl
  owned _ _ ha := absurd ha Finmap.notMem_empty

theorem Cluster.balance_empty (a : Address) : (Cluster.empty n).balance a = initBalance := by
  unfold Cluster.balance
  split
  · split <;> simp [Cluster.empty]
  · rfl

/-- A transfer between two followers and one inside a follower, allocated out of order. -/
theorem partitioned_refines_sequential_two_followers :
    let tx₁ : Transaction := ⟨"0a", "1b", 0, 5, [1]⟩
    let tx₂ : Transaction := ⟨"1b", "3c", 0, 7, [2]⟩
    ∃ c' : Cluster 2,
      RunsBatch (fun _ => ⟨id, id⟩) (fun _ => ⟨0, 0, 0⟩) (Cluster.empty 2) [tx₂, tx₁] c' ∧
        ∀ a, c'.balance a = (executeSequential ∅ [tx₁, tx₂]).balance a := by
  intro tx₁ tx₂
  refine partitioned_refines_sequential (by decide) _ _ (Cluster.empty 2) [tx₁, tx₂] _
    (by decide) (by decide) (by decide) ?_ ∅ ?_
  · intro a
    rw [Cluster.balance_empty]
    simp only [Transfers.sent, List.map_cons, List.map_nil, List.sum_cons, List.sum_nil,
      toTransfer, initBalance, tx₁, tx₂]
    split_ifs <;> norm_num
  · intro a
    rw [Cluster.balance_empty]
    simp [SingleLedger.balance]

/-! ### Conservation of value -/

/-- The clusters that batches of non-negative transactions reach from the empty one. -/
inductive Reachable : Cluster n → Prop
  | start : Reachable (Cluster.empty n)
  | batch {c c' : Cluster n} {clk : Fin n → Clock} {times : Transaction → TxTimes}
      {order : List Transaction} : Reachable c → (∀ tx ∈ order, HexLeading tx) →
      (∀ tx ∈ order, 0 ≤ tx.value) → RunsBatch clk times c order c' → Reachable c'

/-- The sum over any finite set of accounts that contains every stored one is the same before
and after; an account outside holds the initial balance both times. -/
def ConservesValue (c c' : Cluster n) : Prop :=
  ∀ S : Finset Address, (∀ i, ∀ a ∈ (c'.node i).state, a ∈ S) →
    ∑ a ∈ S, c'.balance a = ∑ a ∈ S, c.balance a

/-- No follower refuses a transfer to another follower. -/
def CrossCovered (c : Cluster n) (order : List Transaction) : Prop :=
  ∀ i : Fin n, Transfers.CrossCovered (Owns (c.node i)) (balanceOf (c.node i).state)
    (allocated order i)

theorem runsBatch_balance {clk : Fin n → Clock} {times : Transaction → TxTimes}
    {c c' : Cluster n} {order : List Transaction} (hhex : ∀ tx ∈ order, HexLeading tx)
    (hrun : RunsBatch clk times c order c') (i : Fin n) :
    balanceOf (c'.node i).state =
        Transfers.run (Owns (c.node i)) (balanceOf (c.node i).state) (allocated order i) ∧
      ∀ a ∈ (c.node i).state, a ∈ (c'.node i).state := by
  obtain ⟨c₁, hrun₁, hbal, hkeep⟩ :=
    runsBatch_spec (Nat.lt_of_le_of_lt (Nat.zero_le i) i.isLt) clk times c order hhex
  rw [runsBatch_node_eq hrun hrun₁ i]
  exact ⟨hbal i, hkeep i⟩

theorem allocated_amount_nonneg (order : List Transaction) (hval : ∀ tx ∈ order, 0 ≤ tx.value)
    (i : Fin n) : ∀ t ∈ allocated order i, 0 ≤ t.amount := by
  intro t ht
  obtain ⟨tx, htx, rfl⟩ := List.mem_map.mp ht
  exact hval tx (List.mem_of_mem_filter htx)

/-- Balances never go negative. -/
theorem Reachable.balance_nonneg {c : Cluster n} (h : Reachable c) (i : Fin n) (a : Address) :
    0 ≤ balanceOf (c.node i).state a := by
  induction h generalizing a with
  | start => simp [Cluster.empty, initBalance]
  | batch _ hhex hval hrun ih =>
    rw [(runsBatch_balance hhex hrun i).1]
    exact Transfers.run_nonneg _ _ _ (allocated_amount_nonneg _ hval i) ih a

/-- The change of one balance, collected over the followers: only the owner's term is not
zero. -/
theorem balance_sub_eq_sum {c c' : Cluster n} {order : List Transaction} (hn : 0 < n)
    (hbal : ∀ i, balanceOf (c'.node i).state =
      Transfers.run (Owns (c.node i)) (balanceOf (c.node i).state) (allocated order i))
    (a : Address) :
    c'.balance a - c.balance a =
      ∑ i, (balanceOf (c'.node i).state a - balanceOf (c.node i).state a) := by
  have hzero : ∀ i : Fin n, ¬ Owns (c.node i) a →
      balanceOf (c'.node i).state a - balanceOf (c.node i).state a = 0 := by
    intro i hi
    rw [hbal i, Transfers.run_of_not_own _ _ _ a hi, sub_self]
  cases ho : owner n a with
  | none =>
    rw [Finset.sum_eq_zero]
    · simp [Cluster.balance, ho]
    · intro i _
      refine hzero i ?_
      rw [c.owns_iff, ho]
      simp
  | some j =>
    obtain ⟨i, rfl⟩ : ∃ i : Fin n, i.val = j := ⟨⟨j, owner_lt hn ho⟩, rfl⟩
    rw [Finset.sum_eq_single i]
    · rw [c'.balance_of_owns i a ho, c.balance_of_owns i a ho]
    · intro k _ hk
      refine hzero k ?_
      rw [c.owns_iff, ho, Option.some.injEq]
      exact fun he => hk (Fin.ext he.symm)
    · simp

/-- The amount of the refused transfers to other followers, over all followers. -/
def refusedAmount (c : Cluster n) (order : List Transaction) : ℤ :=
  ∑ i : Fin n, ((Transfers.refusedCross (Owns (c.node i)) (balanceOf (c.node i).state)
    (allocated order i)).map Transfers.Transfer.amount).sum

/-- The addresses of a batch. -/
def touched (order : List Transaction) : Finset Address :=
  (order.map (·.sender)).toFinset ∪ (order.map (·.recipient)).toFinset

theorem inflow_allocated (c : Cluster n) (order : List Transaction)
    (hhex : ∀ tx ∈ order, HexLeading tx) (i : Fin n) :
    Transfers.inflow (Owns (c.node i)) (allocated order i) =
        Transfers.inflow (Owns (c.node i)) (order.map toTransfer) ∧
      Transfers.outflow (Owns (c.node i)) (allocated order i) =
        Transfers.outflow (Owns (c.node i)) (order.map toTransfer) := by
  simp only [Transfers.inflow, Transfers.outflow, allocated, List.map_map]
  constructor
  · apply Transfers.sum_map_filter
    intro tx htx hroute
    refine if_neg fun he => ?_
    have := (routedTo_iff n i tx (hhex tx htx)).mpr (.inr ((c.owns_iff i _).mp he.1))
    rw [this] at hroute
    cases hroute
  · apply Transfers.sum_map_filter
    intro tx htx hroute
    refine if_neg fun he => ?_
    have := (routedTo_iff n i tx (hhex tx htx)).mpr (.inl ((c.owns_iff i _).mp he.1))
    rw [this] at hroute
    cases hroute

theorem flows_cancel (hn : 0 < n) (c : Cluster n) (order : List Transaction)
    (hhex : ∀ tx ∈ order, HexLeading tx) :
    ∑ i : Fin n, Transfers.inflow (Owns (c.node i)) (allocated order i) =
      ∑ i : Fin n, Transfers.outflow (Owns (c.node i)) (allocated order i) := by
  simp only [fun i => (inflow_allocated c order hhex i).1,
    fun i => (inflow_allocated c order hhex i).2]
  apply Transfers.sum_inflow_eq_sum_outflow fun i => Owns (c.node i)
  intro t ht
  obtain ⟨tx, htx, rfl⟩ := List.mem_map.mp ht
  obtain ⟨⟨p, hp⟩, q, hq⟩ := owner_of_hexLeading hn tx (hhex tx htx)
  refine ⟨⟨p, fun i => ?_⟩, ⟨q, fun i => ?_⟩⟩
  · rw [c.owns_iff, toTransfer, hp, Option.some.injEq, Fin.val_inj, eq_comm]
  · rw [c.owns_iff, toTransfer, hq, Option.some.injEq, Fin.val_inj, eq_comm]

/-- **The books of a batch.**  Over a set of accounts that contains every address of the batch,
the sum grows by exactly the refused transfers between followers: they were credited and never
debited. -/
theorem sum_balance_eq {c c' : Cluster n} {order : List Transaction} (hn : 0 < n)
    (hhex : ∀ tx ∈ order, HexLeading tx)
    (hbal : ∀ i, balanceOf (c'.node i).state =
      Transfers.run (Owns (c.node i)) (balanceOf (c.node i).state) (allocated order i))
    (S : Finset Address) (hS : touched order ⊆ S) :
    ∑ a ∈ S, (c'.balance a - c.balance a) = refusedAmount c order := by
  have hmem : ∀ i : Fin n, ∀ t ∈ allocated order i, t.src ∈ S ∧ t.dst ∈ S := by
    intro i t ht
    obtain ⟨tx, htx, rfl⟩ := List.mem_map.mp ht
    have htx' : tx ∈ order := List.mem_of_mem_filter htx
    refine ⟨hS ?_, hS ?_⟩
    · exact Finset.mem_union_left _ (List.mem_toFinset.mpr (List.mem_map_of_mem htx'))
    · exact Finset.mem_union_right _ (List.mem_toFinset.mpr (List.mem_map_of_mem htx'))
  have hfollower : ∀ i : Fin n,
      ∑ a ∈ S, (balanceOf (c'.node i).state a - balanceOf (c.node i).state a) =
        Transfers.inflow (Owns (c.node i)) (allocated order i) -
          Transfers.outflow (Owns (c.node i)) (allocated order i) +
          ((Transfers.refusedCross (Owns (c.node i)) (balanceOf (c.node i).state)
            (allocated order i)).map Transfers.Transfer.amount).sum := by
    intro i
    rw [Finset.sum_sub_distrib, hbal i, Transfers.sum_run _ S _ _
      (fun t ht _ => (hmem i t ht).1) (fun t ht _ => (hmem i t ht).2)]
    ring
  calc ∑ a ∈ S, (c'.balance a - c.balance a)
      = ∑ a ∈ S, ∑ i, (balanceOf (c'.node i).state a - balanceOf (c.node i).state a) :=
        Finset.sum_congr rfl fun a _ => balance_sub_eq_sum hn hbal a
    _ = ∑ i, ∑ a ∈ S, (balanceOf (c'.node i).state a - balanceOf (c.node i).state a) :=
        Finset.sum_comm
    _ = refusedAmount c order := by
        simp only [hfollower, Finset.sum_add_distrib, Finset.sum_sub_distrib,
          flows_cancel hn c order hhex, sub_self, zero_add]
        rfl

/-- Accounts that are stored nowhere hold the initial balance. -/
theorem Cluster.balance_of_not_stored (c : Cluster n) (a : Address)
    (h : ∀ i, a ∉ (c.node i).state) : c.balance a = initBalance := by
  unfold Cluster.balance
  split
  · split
    · exact balanceOf_of_not_mem _ a (h _)
    · rfl
  · rfl

theorem conservesValue_iff_refusedAmount {clk : Fin n → Clock} {times : Transaction → TxTimes}
    {c c' : Cluster n} {order : List Transaction} (hn : 0 < n)
    (hhex : ∀ tx ∈ order, HexLeading tx) (hrun : RunsBatch clk times c order c') :
    ConservesValue c c' ↔ refusedAmount c order = 0 := by
  have hbal := fun i => (runsBatch_balance hhex hrun i).1
  have hkeep := fun i => (runsBatch_balance hhex hrun i).2
  have hgrow : ∀ S : Finset Address, (∀ i, ∀ a ∈ (c'.node i).state, a ∈ S) →
      ∑ a ∈ S, (c'.balance a - c.balance a) = refusedAmount c order := by
    intro S hS
    rw [← sum_balance_eq hn hhex hbal (S ∪ touched order) Finset.subset_union_right]
    refine Finset.sum_subset Finset.subset_union_left fun a _ ha => ?_
    rw [c'.balance_of_not_stored a fun i hi => ha (hS i a hi),
      c.balance_of_not_stored a fun i hi => ha (hS i a (hkeep i a hi)), sub_self]
  constructor
  · intro h
    let S := Finset.univ.biUnion fun i => (c'.node i).state.keys
    have hS : ∀ i, ∀ a ∈ (c'.node i).state, a ∈ S := by
      intro i a ha
      exact Finset.mem_biUnion.mpr ⟨i, Finset.mem_univ i, Finmap.mem_keys.mpr ha⟩
    rw [← hgrow S hS, Finset.sum_sub_distrib, h S hS, sub_self]
  · intro h S hS
    have := hgrow S hS
    rw [h, Finset.sum_sub_distrib] at this
    exact sub_eq_zero.mp this

/-- Refused transfers move positive amounts, so their sum vanishes only if there are none. -/
theorem refusedAmount_eq_zero_iff {c : Cluster n} {order : List Transaction}
    (hval : ∀ tx ∈ order, 0 ≤ tx.value) (hc : ∀ i a, 0 ≤ balanceOf (c.node i).state a) :
    refusedAmount c order = 0 ↔ CrossCovered c order := by
  have hpos : ∀ i : Fin n, ∀ t ∈ Transfers.refusedCross (Owns (c.node i))
      (balanceOf (c.node i).state) (allocated order i), 0 < t.amount :=
    fun i => Transfers.refusedCross_pos _ _ _ (allocated_amount_nonneg order hval i) (hc i)
  have hnn : ∀ i ∈ (Finset.univ : Finset (Fin n)), 0 ≤
      ((Transfers.refusedCross (Owns (c.node i)) (balanceOf (c.node i).state)
        (allocated order i)).map Transfers.Transfer.amount).sum := by
    intro i _
    apply List.sum_nonneg
    intro v hv
    obtain ⟨t, ht, rfl⟩ := List.mem_map.mp hv
    exact le_of_lt (hpos i t ht)
  rw [refusedAmount, Finset.sum_eq_zero_iff_of_nonneg hnn, CrossCovered]
  simp only [Finset.mem_univ, true_implies, Transfers.crossCovered_iff]
  refine forall_congr' fun i => ⟨fun h => ?_, fun h => by rw [h]; rfl⟩
  by_contra hne
  have : 0 < ((Transfers.refusedCross (Owns (c.node i)) (balanceOf (c.node i).state)
      (allocated order i)).map Transfers.Transfer.amount).sum := by
    apply List.sum_pos
    · intro v hv
      obtain ⟨t, ht, rfl⟩ := List.mem_map.mp hv
      exact hpos i t ht
    · simpa using hne
  omega

end Aster.SubMPT
