import Aster.SubMPT.Join
import Aster.Local.Transit

/-!
# Who executes a transaction after a join

The first followers, those the system started with, stay the only ones that execute anything: the
proposer never asks the consistent hash for a node, so a join moves no data, and a follower that
receives no data never reports that it is ready.  So an account stays with the follower that owned
it at the start, whose balance is the latest one.  The routing however changes with every join,
and a half is executed exactly when the new routing still reaches its first owner.
-/

namespace Aster.SubMPT

open Aster.Core Aster.Local Aster.Lib Aster.Lib.Transition

/-! ### The history of one call of `ProcessTxs` -/

/-- The follower's balances are the latest ones of the accounts it owns. -/
abbrev UpToDate (f : FollowerNode) (st : Trie) (executions : List Execution) : Prop :=
  AccessLog.Tracks Execution.account Execution.left initBalance (Owns f) (balanceOf st) executions

section Process

variable {f : FollowerNode} {i : ℕ} {st st' : Trie} {tx : Transaction} {b : Bool}
  {executions : List Execution}

/-- What one iteration does and what it records: nothing when it skips the transaction, and else
the sender's half and then the recipient's half, each if the follower owns the account. -/
theorem processTx_executions (h : processTx f i st tx = some (st', b)) :
    (b = false ∧ st' = st ∧ executeTx f i st tx = []) ∨
    ∃ st₁, (Owns f tx.sender ∧ debitSender st i tx = some st₁ ∨ ¬ Owns f tx.sender ∧ st₁ = st) ∧
      st' = (if Owns f tx.recipient then creditRecipient st₁ i tx else st₁) ∧
      executeTx f i st tx =
        (if Owns f tx.recipient then [creditExecution f i st₁ tx] else []) ++
          if Owns f tx.sender then [debitExecution f i st st₁ tx] else [] := by
  unfold processTx at h
  unfold executeTx
  cases hp : prefixes tx with
  | outOfRange =>
    rw [hp] at h
    cases h
  | syntaxError =>
    rw [hp] at h
    simp only [Option.some.injEq, Prod.mk.injEq] at h
    exact .inl ⟨h.2.symm, h.1.symm, rfl⟩
  | digits dec1 dec2 =>
    obtain ⟨h1, h2⟩ := prefixes_eq_digits tx dec1 dec2 hp
    have hs : dec1 % f.followerNum = f.followerID ↔ Owns f tx.sender := by
      simp [Owns, owner, h1]
    have hr : dec2 % f.followerNum = f.followerID ↔ Owns f tx.recipient := by
      simp [Owns, owner, h2]
    rw [hp] at h
    dsimp only at h
    have hnum : f.followerNum ≠ 0 := by
      intro hzero
      rw [if_pos hzero] at h
      cases h
    simp only [hs, hr, if_neg hnum] at h ⊢
    by_cases hS : Owns f tx.sender
    · simp only [if_pos hS] at h ⊢
      cases hd : debitSender st i tx with
      | none =>
        rw [hd] at h
        simp only [Option.some.injEq, Prod.mk.injEq] at h
        exact .inl ⟨h.2.symm, h.1.symm, rfl⟩
      | some st₁ =>
        rw [hd] at h
        simp only [Option.some.injEq, Prod.mk.injEq] at h
        exact .inr ⟨st₁, .inl ⟨hS, rfl⟩, h.1.symm, rfl⟩
    · simp only [if_neg hS] at h ⊢
      simp only [Option.some.injEq, Prod.mk.injEq] at h
      exact .inr ⟨st, .inr ⟨hS, rfl⟩, h.1.symm, rfl⟩

/-- The sender's half reads the latest balance and leaves the next one. -/
theorem upToDate_debit (h : UpToDate f st executions) (hlog : ReadsLatest executions)
    (hown : Owns f tx.sender) (hdebit : debitSender st i tx = some st') :
    UpToDate f st' (debitExecution f i st st' tx :: executions) ∧
      ReadsLatest (debitExecution f i st st' tx :: executions) := by
  unfold debitSender at hdebit
  dsimp only at hdebit
  split_ifs at hdebit with hlt
  obtain rfl := Option.some.inj hdebit
  refine ⟨AccessLog.Tracks.write h rfl ?_, ?_, hlog⟩
  · intro a ha
    rw [balanceOf_insert]
    exact if_neg ha
  · exact (fetch_balance st tx.sender i).trans (h tx.sender hown)

theorem upToDate_credit (h : UpToDate f st executions) (hlog : ReadsLatest executions)
    (hown : Owns f tx.recipient) :
    UpToDate f (creditRecipient st i tx) (creditExecution f i st tx :: executions) ∧
      ReadsLatest (creditExecution f i st tx :: executions) := by
  refine ⟨AccessLog.Tracks.write h rfl ?_, ?_, hlog⟩
  · intro a ha
    rw [creditRecipient, balanceOf_insert]
    exact if_neg ha
  · exact (fetch_balance st tx.recipient i).trans (h tx.recipient hown)

/-- One iteration of `ProcessTxs`. -/
theorem upToDate_processTx (h : UpToDate f st executions) (hlog : ReadsLatest executions)
    (hrun : processTx f i st tx = some (st', b)) :
    UpToDate f st' (executeTx f i st tx ++ executions) ∧
      ReadsLatest (executeTx f i st tx ++ executions) := by
  obtain ⟨-, rfl, hnone⟩ | ⟨st₁, hdebit, rfl, hexec⟩ := processTx_executions hrun
  · rw [hnone]
    exact ⟨h, hlog⟩
  · rw [hexec, List.append_assoc]
    have hfirst : UpToDate f st₁
          ((if Owns f tx.sender then [debitExecution f i st st₁ tx] else []) ++ executions) ∧
        ReadsLatest
          ((if Owns f tx.sender then [debitExecution f i st st₁ tx] else []) ++ executions) := by
      obtain ⟨hown, hdebit⟩ | ⟨hown, rfl⟩ := hdebit
      · rw [if_pos hown]
        exact upToDate_debit h hlog hown hdebit
      · rw [if_neg hown]
        exact ⟨h, hlog⟩
    by_cases hown : Owns f tx.recipient
    · rw [if_pos hown, if_pos hown]
      exact upToDate_credit hfirst.1 hfirst.2 hown
    · rw [if_neg hown, if_neg hown]
      exact hfirst

/-- The loop of `ProcessTxs`. -/
theorem upToDate_processLoop (clk : Clock) (ts : List TimedTx) {txHashs : List Hash}
    {out : List TimedTx} (h : UpToDate f st executions) (hlog : ReadsLatest executions)
    (hrun : processLoop clk f i st ts = some (st', txHashs, out)) :
    UpToDate f st' (executeTxs f i st (ts.map (·.tx)) ++ executions) ∧
      ReadsLatest (executeTxs f i st (ts.map (·.tx)) ++ executions) := by
  induction ts generalizing i st executions txHashs out with
  | nil =>
    simp only [processLoop, Option.some.injEq, Prod.mk.injEq] at hrun
    obtain ⟨rfl, -, -⟩ := hrun
    exact ⟨h, hlog⟩
  | cons t ts ih =>
    rw [processLoop] at hrun
    obtain ⟨⟨st₁, executed⟩, htx, hrun⟩ := Option.bind_eq_some_iff.mp hrun
    obtain ⟨⟨st₂, hs, out'⟩, hloop, hrun⟩ := Option.bind_eq_some_iff.mp hrun
    obtain ⟨hdate, hreads⟩ := upToDate_processTx h hlog htx
    obtain rfl : st₂ = st' := by
      dsimp only at hrun
      split_ifs at hrun
      · exact (Prod.mk.inj (Option.some.inj hrun)).1
      · exact (Prod.mk.inj (Option.some.inj hrun)).1
    have hrest := ih hdate hreads hloop
    rw [List.map_cons, executeTxs, htx]
    show UpToDate f st₂ ((executeTxs f (i + 1) st₁ (ts.map (·.tx)) ++ executeTx f i st t.tx) ++
      executions) ∧ ReadsLatest ((executeTxs f (i + 1) st₁ (ts.map (·.tx)) ++
        executeTx f i st t.tx) ++ executions)
    rw [List.append_assoc]
    exact hrest

/-- **A whole call of `ProcessTxs`**: the follower stays up to date, and what it reads is the
latest. -/
theorem upToDate_processTxs {clk : Clock} {f' : FollowerNode} {ts out : List TimedTx}
    {txHashs : List Hash} (h : UpToDate f f.state executions) (hlog : ReadsLatest executions)
    (hrun : processTxs clk f ts = some (f', txHashs, out)) :
    UpToDate f f'.state (executeTxs f 0 f.state (ts.map (·.tx)) ++ executions) ∧
      ReadsLatest (executeTxs f 0 f.state (ts.map (·.tx)) ++ executions) := by
  unfold processTxs at hrun
  split_ifs at hrun with hts
  · simp only [Option.some.injEq, Prod.mk.injEq] at hrun
    obtain ⟨rfl, -, -⟩ := hrun
    rw [hts]
    exact ⟨h, hlog⟩
  · obtain ⟨⟨st, hs, out'⟩, hloop, hrun⟩ := Option.bind_eq_some_iff.mp hrun
    simp only [Option.some.injEq, Prod.mk.injEq] at hrun
    obtain ⟨rfl, -, -⟩ := hrun
    rw [← mapIdx_stamp_tx clk ts]
    exact upToDate_processLoop clk _ h hlog hloop

/-- A follower records halves of its own accounts only. -/
theorem executeTx_owns {e : Execution} (he : e ∈ executeTx f i st tx) :
    Owns f e.account ∧ e.followerID = f.followerID := by
  unfold executeTx at he
  cases hp : prefixes tx with
  | outOfRange =>
    rw [hp] at he
    cases he
  | syntaxError =>
    rw [hp] at he
    cases he
  | digits dec1 dec2 =>
    obtain ⟨h1, h2⟩ := prefixes_eq_digits tx dec1 dec2 hp
    rw [hp] at he
    dsimp only at he
    split at he
    · cases he
    · obtain he | he := List.mem_append.mp he
      · split_ifs at he with hown
        · obtain rfl := List.mem_singleton.mp he
          refine ⟨?_, rfl⟩
          show owner f.followerNum tx.recipient = some f.followerID
          rw [owner, h2, Option.map_some, hown]
        · cases he
      · split_ifs at he with hown
        · obtain rfl := List.mem_singleton.mp he
          refine ⟨?_, rfl⟩
          show owner f.followerNum tx.sender = some f.followerID
          rw [owner, h1, Option.map_some, hown]
        · cases he

theorem executeTxs_owns (txs : List Transaction) {e : Execution}
    (he : e ∈ executeTxs f i st txs) : Owns f e.account ∧ e.followerID = f.followerID := by
  induction txs generalizing i st with
  | nil => cases he
  | cons tx txs ih =>
    rw [executeTxs] at he
    cases hrun : processTx f i st tx with
    | none =>
      rw [hrun] at he
      cases he
    | some r =>
      rw [hrun] at he
      obtain he | he := List.mem_append.mp he
      · exact ih he
      · exact executeTx_owns he

/-! ### How often a half is executed -/

/-- The sender covers every debit that the follower owns, when its turn comes. -/
def Covered (f : FollowerNode) : (Address → ℤ) → List Transaction → Prop
  | _, [] => True
  | b, tx :: txs =>
    accepts f b tx = true ∧ Covered f (Transfers.step (Owns f) b (toTransfer tx)) txs

instance decidableCovered (f : FollowerNode) :
    (b : Address → ℤ) → (txs : List Transaction) → Decidable (Covered f b txs)
  | _, [] => inferInstanceAs (Decidable True)
  | b, tx :: txs =>
    have := decidableCovered f (Transfers.step (Owns f) b (toTransfer tx)) txs
    inferInstanceAs (Decidable (_ ∧ _))

/-- An accepted transaction has both halves executed where the accounts are owned. -/
theorem countP_executeTx (hnum : f.followerNum ≠ 0) (hhex : HexLeading tx)
    (hcov : accepts f (balanceOf st) tx = true) (half : Half) (t : Transaction) :
    (executeTx f i st tx).countP (·.isHalf half t) =
      if tx = t ∧ Owns f (half.account t) then 1 else 0 := by
  obtain ⟨st', hrun, -⟩ := processTx_spec f i st tx hnum hhex
  rw [hcov] at hrun
  obtain ⟨hfalse, -⟩ | ⟨st₁, -, -, hexec⟩ := processTx_executions hrun
  · cases hfalse
  rw [hexec, List.countP_append]
  cases half with
  | debit =>
    have hcredit : (if Owns f tx.recipient then [creditExecution f i st₁ tx] else []).countP
        (·.isHalf .debit t) = 0 := by
      split_ifs <;> simp [Execution.isHalf, creditExecution]
    rw [hcredit, Nat.zero_add]
    by_cases heq : tx = t
    · subst heq
      by_cases hown : Owns f tx.sender <;>
        simp [hown, Execution.isHalf, debitExecution, Half.account]
    · have hne : ¬ (tx = t ∧ Owns f (Half.debit.account t)) := fun h => heq h.1
      rw [if_neg hne]
      split_ifs <;> simp [heq, Execution.isHalf, debitExecution]
  | credit =>
    have hdebit : (if Owns f tx.sender then [debitExecution f i st st₁ tx] else []).countP
        (·.isHalf .credit t) = 0 := by
      split_ifs <;> simp [Execution.isHalf, debitExecution]
    rw [hdebit, Nat.add_zero]
    by_cases heq : tx = t
    · subst heq
      by_cases hown : Owns f tx.recipient <;>
        simp [hown, Execution.isHalf, creditExecution, Half.account]
    · have hne : ¬ (tx = t ∧ Owns f (Half.credit.account t)) := fun h => heq h.1
      rw [if_neg hne]
      split_ifs <;> simp [heq, Execution.isHalf, creditExecution]

/-- **A covered batch**: the follower executes each half that it owns once for each copy of the
transaction. -/
theorem countP_executeTxs (hnum : f.followerNum ≠ 0) {txs : List Transaction}
    (hhex : ∀ tx ∈ txs, HexLeading tx) (hcov : Covered f (balanceOf st) txs) (half : Half)
    (t : Transaction) :
    (executeTxs f i st txs).countP (·.isHalf half t) =
      if Owns f (half.account t) then txs.count t else 0 := by
  induction txs generalizing i st with
  | nil => simp [executeTxs]
  | cons tx txs ih =>
    obtain ⟨st', hrun, hbal, -⟩ := processTx_spec f i st tx hnum (hhex tx List.mem_cons_self)
    rw [executeTxs, hrun]
    show (executeTxs f (i + 1) st' txs ++ executeTx f i st tx).countP _ = _
    have hcov' : Covered f (balanceOf st') txs := by
      rw [hbal]
      exact hcov.2
    rw [List.countP_append, ih (fun u hu => hhex u (List.mem_cons_of_mem tx hu)) hcov',
      countP_executeTx hnum (hhex tx List.mem_cons_self) hcov.1, List.count_cons]
    by_cases hown : Owns f (half.account t)
    · by_cases heq : tx = t
      · simp [hown, heq]
      · simp [hown, heq]
    · simp [hown]

end Process

/-! ### What every run keeps -/

/-- Whatever the batches and the joins: the first `n` followers are the ready ones, they keep
their ids and their `FollowerNum`, and they are up to date. -/
structure JoinInv (n : ℕ) (s : JoinSys) : Prop where
  unrecorded : ∃ m loc, Placed s.consistentHash m ∅ loc
  ids : s.followerIDs = List.range s.followers.length
  size : n ≤ s.followers.length
  ready : s.readyMap = Finset.range n
  first : ∀ fid < n, ∃ st, s.followers[fid]? = some ⟨fid, n, st⟩
  message : ∀ msg ∈ s.allocMsgs, msg.followerID < n ∧ ∀ t ∈ msg.txs, HexLeading t.tx
  owner : ∀ e ∈ s.executions, owner n e.account = some e.followerID
  upToDate : ∀ fid st, s.followers[fid]? = some ⟨fid, n, st⟩ → fid < n →
    UpToDate ⟨fid, n, st⟩ st s.executions
  reads : ReadsLatest s.executions

section Invariant

variable {n : ℕ} {s s' : JoinSys} {l : JoinLabel}

theorem joinInv_start {encryptor : Encryptor} (hs : StartsWith n encryptor s) : JoinInv n s := by
  obtain ⟨rolls, hnew⟩ := hs
  obtain ⟨c, hc, hnew⟩ := Option.bind_eq_some_iff.mp hnew
  obtain rfl := Option.some.inj hnew
  have hvalid : ∀ op ∈ (List.range n).map fun i => HashCall.addNode (toString i) 1 (rolls i),
      op.Valid := by
    intro op hop
    obtain ⟨i, -, rfl⟩ := List.mem_map.mp hop
    exact validID_toString i
  have hnone : {k | k ∈ (∅ : Set String) ∨ HashCall.getNode k ∈
      (List.range n).map fun i => HashCall.addNode (toString i) 1 (rolls i)} = ∅ := by
    ext k
    simp
  constructor
  case unrecorded =>
    have hplaced := ((placed_new encryptor 2).calls hvalid hc).1
    rw [hnone] at hplaced
    exact hplaced
  case ids => simp
  case size => simp
  case ready => rfl
  case first =>
    intro fid hfid
    exact ⟨∅, by simp [hfid]⟩
  case message => exact nofun
  case owner => exact nofun
  case upToDate =>
    intro fid st hst hfid a _
    obtain rfl : ∅ = st := by simpa [hfid] using hst
    exact balanceOf_empty a
  case reads => trivial

/-- `SchedulingTxs` writes messages to the first followers only. -/
theorem JoinInv.schedule (h : JoinInv n s) {order : List Transaction}
    {times : Transaction → TxTimes} (hstep : s.schedule order times = some s') :
    JoinInv n s' := by
  obtain ⟨allocMap, halloc, hstep⟩ := Option.bind_eq_some_iff.mp hstep
  obtain rfl := Option.some.inj hstep
  constructor
  case unrecorded => exact h.unrecorded
  case ids => exact h.ids
  case size => exact h.size
  case ready => exact h.ready
  case first => exact h.first
  case message =>
    intro msg hmsg
    obtain hmsg | hmsg := List.mem_append.mp hmsg
    · exact h.message msg hmsg
    · obtain ⟨fid, hfid, rfl⟩ := List.mem_map.mp hmsg
      obtain ⟨hmem, hready⟩ := List.mem_filter.mp hfid
      rw [decide_eq_true_eq, h.ready, Finset.mem_range] at hready
      refine ⟨hready, fun t ht => ?_⟩
      have hnum : s.followerIDs.length ≠ 0 := by
        intro hzero
        rw [List.length_eq_zero_iff.mp hzero] at hmem
        cases hmem
      obtain ⟨tx, htx, rfl⟩ := List.mem_map.mp ht
      rw [allocTxs_some hnum halloc] at htx
      exact hexLeading_of_routedTo (List.mem_filter.mp htx).2
  case owner => exact h.owner
  case upToDate => exact h.upToDate
  case reads => exact h.reads

/-- A follower executes halves of its own accounts, so the others stay up to date. -/
theorem JoinInv.process (h : JoinInv n s) {k : ℕ} {clk : Clock}
    (hstep : s.process k clk = some s') : JoinInv n s' := by
  obtain ⟨msg, hmsg, hstep⟩ := Option.bind_eq_some_iff.mp hstep
  obtain ⟨f, hf, hstep⟩ := Option.bind_eq_some_iff.mp hstep
  obtain ⟨⟨f', txHashs, out⟩, hrun, hstep⟩ := Option.bind_eq_some_iff.mp hstep
  obtain rfl := Option.some.inj hstep
  have hfid : msg.followerID < n := (h.message msg (List.mem_of_getElem? hmsg)).1
  obtain ⟨st, hst⟩ := h.first msg.followerID hfid
  obtain rfl : (⟨msg.followerID, n, st⟩ : FollowerNode) = f := Option.some.inj (hst.symm.trans hf)
  obtain ⟨hid, hnum, -, -⟩ := processTxs_shape hrun
  obtain ⟨fid', num', st'⟩ := f'
  obtain ⟨rfl, rfl⟩ : fid' = msg.followerID ∧ num' = n := ⟨hid, hnum⟩
  obtain ⟨hdate, hreads⟩ := upToDate_processTxs (h.upToDate _ st hst hfid) h.reads hrun
  have hset : ∀ fid, fid ≠ msg.followerID →
      (s.followers.set msg.followerID ⟨msg.followerID, num', st'⟩)[fid]? = s.followers[fid]? :=
    fun fid hne => List.getElem?_set_ne (Ne.symm hne)
  have hself : (s.followers.set msg.followerID ⟨msg.followerID, num', st'⟩)[msg.followerID]? =
      some ⟨msg.followerID, num', st'⟩ :=
    List.getElem?_set_self (List.getElem?_eq_some_iff.mp hst).1
  constructor
  case unrecorded => exact h.unrecorded
  case ids =>
    show s.followerIDs = _
    rw [List.length_set]
    exact h.ids
  case size =>
    rw [List.length_set]
    exact h.size
  case ready => exact h.ready
  case first =>
    intro fid hlt
    by_cases heq : fid = msg.followerID
    · exact ⟨st', heq ▸ hself⟩
    · obtain ⟨st₁, hst₁⟩ := h.first fid hlt
      exact ⟨st₁, (hset fid heq).trans hst₁⟩
  case message => exact fun msg' hmsg' => h.message msg' (List.mem_of_mem_eraseIdx hmsg')
  case owner =>
    intro e he
    obtain he | he := List.mem_append.mp he
    · obtain ⟨hown, hwho⟩ := executeTxs_owns _ he
      rw [hwho]
      exact hown
    · exact h.owner e he
  case upToDate =>
    intro fid st₁ hst₁ hlt
    by_cases heq : fid = msg.followerID
    · subst heq
      obtain rfl : st' = st₁ := by
        have hsome := hself.symm.trans hst₁
        exact (FollowerNode.mk.inj (Option.some.inj hsome)).2.2
      exact hdate
    · apply AccessLog.Tracks.append_foreign
        (h.upToDate fid st₁ ((hset fid heq).symm.trans hst₁) hlt)
      intro e he hown
      have hother : Owns ⟨msg.followerID, num', st⟩ e.account := (executeTxs_owns _ he).1
      exact heq (Option.some.inj (hown.symm.trans hother))
  case reads => exact hreads

/-- Without tasks the migrator does nothing. -/
theorem run_noTasks {followers : ℕ → Trie} {ls : List MigratorLabel} {migrated : MigratorSys}
    (h : run migratorStep anyStep (startMigrator [] followers) ls = some migrated) :
    migrated = startMigrator [] followers := by
  cases ls with
  | nil => exact (Option.some.inj h).symm
  | cons l ls =>
    rw [run, List.foldlM_cons] at h
    obtain ⟨s₁, hs₁, -⟩ := Option.bind_eq_some_iff.mp h
    have hnone : migratorStep (startMigrator [] followers) l = none := by
      cases l <;> rfl
    rw [hnone, ite_self] at hs₁
    cases hs₁

theorem mapIdx_tries (followers : List FollowerNode) :
    (followers.mapIdx fun fid f => { f with state := JoinSys.tries followers fid }) =
      followers := by
  apply List.ext_getElem?
  intro fid
  rw [List.getElem?_mapIdx]
  cases hf : followers[fid]? with
  | none => rfl
  | some f => simp [JoinSys.tries, hf]

/-- **A join brings a follower that is not ready**, and changes nothing for the others. -/
theorem JoinInv.join_eq (h : JoinInv n s) {followerNum : ℕ} {rolls : ℕ → ℕ}
    {interleaving : List MigratorLabel} (hstep : s.join followerNum rolls interleaving = some s') :
    ∃ c, (∃ m loc, Placed c m ∅ loc) ∧ s' = { s with
      consistentHash := c
      followerIDs := s.followerIDs ++ [s.followerIDs.length]
      followers := s.followers ++ [⟨s.followerIDs.length, followerNum, ∅⟩] } := by
  obtain ⟨m, loc, hplaced⟩ := h.unrecorded
  obtain ⟨c, r, hrun, hnone, hplaced'⟩ :=
    hplaced.addNode_unrecorded (validID_toString s.followerIDs.length) 1 rolls
  rw [JoinSys.join, hrun] at hstep
  simp only [Option.bind_eq_bind, Option.bind_some, hnone] at hstep
  obtain ⟨migrated, hmigrated, hstep⟩ := Option.bind_eq_some_iff.mp hstep
  split_ifs at hstep
  obtain rfl := run_noTasks hmigrated
  refine ⟨c, hplaced', ?_⟩
  rw [← Option.some.inj hstep]
  simp only [List.map_nil, List.toFinset_nil, Finset.union_empty, startMigrator, mapIdx_tries]

theorem JoinInv.join (h : JoinInv n s) {followerNum : ℕ} {rolls : ℕ → ℕ}
    {interleaving : List MigratorLabel} (hstep : s.join followerNum rolls interleaving = some s') :
    JoinInv n s' := by
  obtain ⟨c, hplaced, rfl⟩ := h.join_eq hstep
  have hold : ∀ fid < n, (s.followers ++ [⟨s.followerIDs.length, followerNum, ∅⟩])[fid]? =
      s.followers[fid]? :=
    fun fid hfid => List.getElem?_append_left (lt_of_lt_of_le hfid h.size)
  constructor
  case unrecorded => exact hplaced
  case ids =>
    show s.followerIDs ++ [s.followerIDs.length] = _
    rw [List.length_append, List.length_singleton, List.range_succ, ← h.ids, h.ids,
      List.length_range]
  case size =>
    show n ≤ (s.followers ++ _).length
    rw [List.length_append]
    exact le_trans h.size (Nat.le_add_right _ _)
  case ready => exact h.ready
  case first =>
    intro fid hfid
    obtain ⟨st, hst⟩ := h.first fid hfid
    exact ⟨st, (hold fid hfid).trans hst⟩
  case message => exact h.message
  case owner => exact h.owner
  case upToDate =>
    intro fid st hst hfid
    exact h.upToDate fid st ((hold fid hfid).symm.trans hst) hfid
  case reads => exact h.reads

theorem JoinInv.step (h : JoinInv n s) (hstep : joinStep s l = some s') : JoinInv n s' := by
  cases l with
  | schedule order times => exact h.schedule hstep
  | process k clk => exact h.process hstep
  | join followerNum rolls interleaving => exact h.join hstep

end Invariant

/-! ### The condition on a run, and the count of the halves -/

/-- The routing among `num` followers reaches the followers that own the two accounts among the
first `n`. -/
def RoutedToOwners (n num : ℕ) (tx : Transaction) : Prop :=
  ∀ half : Half, ∀ fid ∈ owner n (half.account tx), routedTo num fid tx = true

instance (n num : ℕ) (tx : Transaction) : Decidable (RoutedToOwners n num tx) :=
  decidable_of_iff ((∀ fid ∈ owner n tx.sender, routedTo num fid tx = true) ∧
      ∀ fid ∈ owner n tx.recipient, routedTo num fid tx = true) <| by
    constructor
    · intro h half
      cases half with
      | debit => exact h.1
      | credit => exact h.2
    · intro h
      exact ⟨h .debit, h .credit⟩

/-- The condition on a step: a batch has transactions only that are still routed to their first
owners, and the debits that a follower owns are covered when it executes a message. -/
def ownersAgree (n : ℕ) (s : JoinSys) : JoinLabel → Prop
  | .schedule order _ => 0 < n ∧
      ∀ tx ∈ order, HexLeading tx → RoutedToOwners n s.followerIDs.length tx
  | .process k _ => ∀ msg ∈ s.allocMsgs[k]?, ∀ f ∈ s.followers[msg.followerID]?,
      Covered f (balanceOf f.state) (msg.txs.map (·.tx))
  | .join _ _ _ => True

instance (n : ℕ) (s : JoinSys) : (l : JoinLabel) → Decidable (ownersAgree n s l)
  | .schedule order _ => inferInstanceAs (Decidable (0 < n ∧ ∀ tx ∈ order, _))
  | .process k _ => inferInstanceAs (Decidable (∀ msg ∈ s.allocMsgs[k]?, _))
  | .join _ _ _ => inferInstanceAs (Decidable True)

/-- The copies of a transaction that are on the way to the first owner of one of its accounts. -/
def pending (n : ℕ) (half : Half) (tx : Transaction) (msgs : List AllocateTxMsgs) : ℕ :=
  (msgs.map fun msg => if owner n (half.account tx) = some msg.followerID
    then (msg.txs.map (·.tx)).count tx else 0).sum

section Count

variable {n : ℕ} {s s' : JoinSys} {l : JoinLabel} {half : Half} {tx : Transaction}

theorem pending_append (msgs new : List AllocateTxMsgs) :
    pending n half tx (msgs ++ new) = pending n half tx msgs + pending n half tx new := by
  unfold pending
  rw [List.map_append, List.sum_append]

theorem pending_eraseIdx (n : ℕ) (half : Half) (tx : Transaction) {msgs : List AllocateTxMsgs}
    {k : ℕ} {msg : AllocateTxMsgs} (h : msgs[k]? = some msg) :
    pending n half tx msgs =
      (if owner n (half.account tx) = some msg.followerID then (msg.txs.map (·.tx)).count tx
        else 0) + pending n half tx (msgs.eraseIdx k) := by
  unfold pending
  rw [((perm_eraseIdx h).map _).sum_eq, List.map_cons, List.sum_cons]

theorem pending_eq_zero {msgs : List AllocateTxMsgs}
    (h : ∀ msg ∈ msgs, tx ∉ msg.txs.map (·.tx)) : pending n half tx msgs = 0 := by
  unfold pending
  rw [List.sum_eq_zero_iff]
  intro c hc
  obtain ⟨msg, hmsg, rfl⟩ := List.mem_map.mp hc
  rw [List.count_eq_zero_of_not_mem (h msg hmsg), ite_self]

theorem exists_owner {num : ℕ} (hnum : 0 < num) (hhex : HexLeading tx) (half : Half) :
    ∃ fid < num, owner num (half.account tx) = some fid := by
  have hdigit : ∃ d, leadingDigit (half.account tx) = some d := by
    cases half with
    | debit => exact Option.isSome_iff_exists.mp hhex.1
    | credit => exact Option.isSome_iff_exists.mp hhex.2
  obtain ⟨d, hd⟩ := hdigit
  exact ⟨d % num, Nat.mod_lt d hnum, by rw [owner, hd, Option.map_some]⟩

theorem message_txs (a : Allocation) (times : Transaction → TxTimes) :
    (a.message times).txs.map (·.tx) = a.txs := by
  simp [Allocation.message, Function.comp_def]

/-- The messages of a batch to the followers `ids` carry as many copies of a transaction to its
owner as the batch has. -/
theorem pending_batch (hn : 0 < n) (num epochId : ℕ) {ids : List ℕ} (hnodup : ids.Nodup)
    (hids : ∀ fid < n, fid ∈ ids) (order : List Transaction) (times : Transaction → TxTimes)
    (hroute : ∀ tx ∈ order, HexLeading tx → RoutedToOwners n num tx) (half : Half)
    (tx : Transaction) :
    pending n half tx (ids.map fun fid =>
        Allocation.message ⟨epochId, fid, order.filter (routedTo num fid)⟩ times) =
      (order.filter HexLeading).count tx := by
  by_cases hmem : tx ∈ order ∧ HexLeading tx
  swap
  · -- no message has the transaction
    have hnone : tx ∉ order.filter HexLeading := by
      rw [List.mem_filter, decide_eq_true_eq]
      exact hmem
    rw [List.count_eq_zero_of_not_mem hnone]
    apply pending_eq_zero
    intro msg hmsg hin
    obtain ⟨fid, -, rfl⟩ := List.mem_map.mp hmsg
    rw [message_txs] at hin
    obtain ⟨horder, hrouted⟩ := List.mem_filter.mp hin
    exact hmem ⟨horder, hexLeading_of_routedTo hrouted⟩
  obtain ⟨horder, hhex⟩ := hmem
  obtain ⟨o, ho, howner⟩ := exists_owner hn hhex half
  have hrouted : routedTo num o tx = true := hroute tx horder hhex half o howner
  rw [pending, List.map_map, ← List.sum_toFinset _ hnodup]
  calc ∑ fid ∈ ids.toFinset, (if owner n (half.account tx) = some fid then
          ((Allocation.message ⟨epochId, fid, order.filter (routedTo num fid)⟩ times).txs.map
            (·.tx)).count tx else 0)
      = ∑ fid ∈ ids.toFinset,
          (if o = fid then (order.filter (routedTo num fid)).count tx else 0) := by
        apply Finset.sum_congr rfl
        intro fid _
        simp only [message_txs, howner, Option.some.injEq]
    _ = (order.filter (routedTo num o)).count tx := by
        rw [Finset.sum_ite_eq, if_pos (List.mem_toFinset.mpr (hids o ho))]
    _ = (order.filter HexLeading).count tx := by
        rw [List.count_filter hrouted,
          List.count_filter (p := fun tx => decide (HexLeading tx)) (decide_eq_true hhex)]

/-- Each half of an allocated transaction is executed, or on the way to its owner. -/
def Counted (n : ℕ) (s : JoinSys) : Prop :=
  ∀ half tx, pending n half tx s.allocMsgs + s.executions.countP (·.isHalf half tx) =
    s.allocated.count tx

theorem Counted.schedule (h : Counted n s) (hinv : JoinInv n s) {order : List Transaction}
    {times : Transaction → TxTimes} (hguard : ownersAgree n s (.schedule order times))
    (hstep : s.schedule order times = some s') : Counted n s' := by
  obtain ⟨allocMap, halloc, hstep⟩ := Option.bind_eq_some_iff.mp hstep
  obtain rfl := Option.some.inj hstep
  obtain ⟨hn, hroute⟩ := hguard
  have hids : ∀ fid < n, fid ∈ s.followerIDs.dedup.filter (· ∈ s.readyMap) := by
    intro fid hfid
    rw [List.mem_filter, List.mem_dedup, hinv.ids, List.mem_range, decide_eq_true_eq, hinv.ready,
      Finset.mem_range]
    exact ⟨lt_of_lt_of_le hfid hinv.size, hfid⟩
  have hnum : s.followerIDs.length ≠ 0 := by
    rw [hinv.ids, List.length_range]
    exact Nat.ne_of_gt (lt_of_lt_of_le hn hinv.size)
  rw [allocTxs_some hnum halloc]
  intro half tx
  have hbatch := pending_batch hn s.followerIDs.length (s.epochId + 1)
    ((List.nodup_dedup s.followerIDs).filter (· ∈ s.readyMap)) hids order times hroute half tx
  have hcount := h half tx
  show pending n half tx (s.allocMsgs ++ _) + s.executions.countP (·.isHalf half tx) =
    (s.allocated ++ _).count tx
  rw [pending_append, List.count_append, hbatch]
  omega

/-- A covered message turns the copies that were on the way to the follower into executions. -/
theorem Counted.process (h : Counted n s) (hinv : JoinInv n s) {k : ℕ} {clk : Clock}
    (hguard : ownersAgree n s (.process k clk)) (hstep : s.process k clk = some s') :
    Counted n s' := by
  obtain ⟨msg, hmsg, hstep⟩ := Option.bind_eq_some_iff.mp hstep
  obtain ⟨f, hf, hstep⟩ := Option.bind_eq_some_iff.mp hstep
  obtain ⟨⟨f', txHashs, out⟩, -, hstep⟩ := Option.bind_eq_some_iff.mp hstep
  obtain rfl := Option.some.inj hstep
  obtain ⟨hfid, hhex⟩ := hinv.message msg (List.mem_of_getElem? hmsg)
  obtain ⟨st, hst⟩ := hinv.first msg.followerID hfid
  obtain rfl : (⟨msg.followerID, n, st⟩ : FollowerNode) = f := Option.some.inj (hst.symm.trans hf)
  have hhex' : ∀ tx ∈ msg.txs.map (·.tx), HexLeading tx := by
    intro tx htx
    obtain ⟨t, ht, rfl⟩ := List.mem_map.mp htx
    exact hhex t ht
  have hnum : n ≠ 0 := Nat.ne_of_gt (Nat.zero_lt_of_lt hfid)
  have hcov := hguard msg hmsg _ hf
  intro half tx
  have hexec : (executeTxs ⟨msg.followerID, n, st⟩ 0 st (msg.txs.map (·.tx))).countP
      (·.isHalf half tx) = if owner n (half.account tx) = some msg.followerID
        then (msg.txs.map (·.tx)).count tx else 0 :=
    countP_executeTxs hnum hhex' hcov half tx
  have herase := pending_eraseIdx n half tx hmsg
  have hcount := h half tx
  show pending n half tx (s.allocMsgs.eraseIdx k) + (_ ++ s.executions).countP _ =
    s.allocated.count tx
  rw [List.countP_append, hexec]
  omega

/-- **Every step that meets the condition keeps the count.** -/
theorem Counted.step (h : Counted n s) (hinv : JoinInv n s) (hguard : ownersAgree n s l)
    (hstep : joinStep s l = some s') : Counted n s' := by
  cases l with
  | schedule order times => exact h.schedule hinv hguard hstep
  | process k clk => exact h.process hinv hguard hstep
  | join followerNum rolls interleaving =>
    obtain ⟨c, -, rfl⟩ := hinv.join_eq hstep
    exact h

theorem counted_start {encryptor : Encryptor} (hs : StartsWith n encryptor s) : Counted n s := by
  obtain ⟨rolls, hnew⟩ := hs
  obtain ⟨c, -, hnew⟩ := Option.bind_eq_some_iff.mp hnew
  obtain rfl := Option.some.inj hnew
  exact fun _ _ => rfl

end Count

/-- A run that can be executed from a start of the system. -/
theorem exists_reach_of_start (n : ℕ) (encryptor : Encryptor) (rolls : ℕ → ℕ → ℕ)
    (guard : JoinSys → JoinLabel → Prop) [∀ s l, Decidable (guard s l)] (ls : List JoinLabel)
    (p : JoinSys → Prop) [DecidablePred p]
    (h : ((newProposerNode n encryptor rolls).bind fun s => run joinStep guard s ls).any
      (fun s => decide (p s)) = true) :
    ∃ s, Reach joinStep guard (StartsWith n encryptor) s ∧ p s := by
  cases hnew : newProposerNode n encryptor rolls with
  | none =>
    rw [hnew] at h
    cases h
  | some s₀ =>
    rw [hnew] at h
    exact exists_reach_of_run ls p (.start ⟨rolls, hnew⟩) h

/-- Two followers execute a batch of one transaction, a third joins, and the next batch is
executed. -/
def joinBetween (first second : Transaction) : List JoinLabel :=
  let batch (tx : Transaction) : List JoinLabel :=
    [.schedule [tx] fun _ => ⟨0, 0, 0⟩, .process 0 ⟨fun _ => 0, fun _ => 0⟩,
      .process 0 ⟨fun _ => 0, fun _ => 0⟩]
  batch first ++ [.join 3 (fun _ => 0) []] ++ batch second

end Aster.SubMPT
