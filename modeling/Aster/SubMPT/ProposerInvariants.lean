import Aster.SubMPT.ProposerSteps

/-!
# Invariants of every run

The facts about the proposer system that hold in every run, whatever the interleaving:

* the transactions move from the feed to the pool to the batches and are never copied
  (`feed_eq`);
* the followers keep their ids and their `FollowerNum` (`followers_match`);
* the `WaitGroup` counts the running `TxAllocate` goroutines (`TasksInv`);
* every `TxAllocate` call is waiting, in a message, or answered, and the answers report only
  transactions of their own batch (`CallsInv`);
* the pools hold scheduled transactions under their hashes, and everything appended to
  `ProcessedTxpool` was reported (`PoolsInv`);
* at most one of the parts of an epoch that are still under way belongs to each follower, and
  while there are any, no signal is due and no block is being generated (`TokenInv`).
-/

namespace Aster.SubMPT

open Aster.Core Aster.Lib Aster.Lib.Transition

variable {cfg : Config} {n : ℕ} {feed : List Transaction} {guard : Sys → Label → Prop}
  {s s' : Sys} {l : Label}

/-- The states of the runs with `n` followers on the transactions `feed`. -/
abbrev Runs (cfg : Config) (n : ℕ) (feed : List Transaction) (guard : Sys → Label → Prop) :
    Sys → Prop :=
  Reach (step cfg) guard (Starts n feed)

/-- The invariant rule for the system, over the rules of its steps. -/
@[elab_as_elim]
theorem Runs.invariant {Inv : Sys → Prop} (hinit : ∀ s, Starts n feed s → Inv s)
    (hstep : ∀ s s' l, Runs cfg n feed guard s → Inv s → guard s l → Step cfg s l s' → Inv s')
    (h : Runs cfg n feed guard s) : Inv s :=
  Reach.invariant hinit (fun s s' l hr hi hg hs => hstep s s' l hr hi hg (step_cases hs)) h

/-! ### The feed -/

theorem feed_step (h : Step cfg s l s') :
    s'.scheduled ++ s'.pendingTxpool ++ s'.txs = s.scheduled ++ s.pendingTxpool ++ s.txs := by
  cases h with
  | inject now times => simp [List.append_assoc]
  | badBatch => simp [takeBatch, localTxpool]
  | batch => simp [startTasks, takeBatch, localTxpool]
  | _ => rfl

/-- **The feed is only moved.** -/
theorem feed_eq (h : Runs cfg n feed guard s) :
    s.scheduled ++ s.pendingTxpool ++ s.txs = feed := by
  refine h.invariant ?_ ?_
  · rintro s ⟨times, chain, followers, rfl, -⟩
    rfl
  · intro s s' l _ hi _ hs
    rw [feed_step hs, hi]

/-- A batch taken from the pool holds nothing that was scheduled before. -/
theorem not_mem_scheduled (hfeed : feed.Nodup) (h : Runs cfg n feed guard s)
    {tx : Transaction} (htx : tx ∈ localTxpool cfg s) : tx ∉ s.scheduled := by
  intro hmem
  have hnd : (s.scheduled ++ s.pendingTxpool ++ s.txs).Nodup := feed_eq h ▸ hfeed
  rw [List.append_assoc] at hnd
  exact (List.nodup_append.mp hnd).2.2 tx hmem tx
    (List.mem_append_left _ (List.mem_of_mem_take htx)) rfl

theorem mem_feed_of_scheduled (h : Runs cfg n feed guard s) {tx : Transaction}
    (htx : tx ∈ s.scheduled) : tx ∈ feed := by
  rw [← feed_eq h]
  exact List.mem_append_left _ (List.mem_append_left _ htx)

theorem mem_feed_of_localTxpool (h : Runs cfg n feed guard s) {tx : Transaction}
    (htx : tx ∈ localTxpool cfg s) : tx ∈ feed := by
  rw [← feed_eq h]
  exact List.mem_append_left _ (List.mem_append_right _ (List.mem_of_mem_take htx))

/-! ### The followers -/

/-- **The followers stay the ones they were.** -/
theorem followers_match (h : Runs cfg n feed guard s) :
    ∀ i < n, (s.followers i).followerID = i ∧ (s.followers i).followerNum = n := by
  refine h.invariant ?_ ?_
  · rintro s ⟨times, chain, followers, rfl, hf⟩
    exact hf
  · intro s s' l _ hi _ hs
    cases hs with
    | process k clk m f' txHashs txs hm hp =>
      intro i hin
      obtain ⟨hid, hnum, -, -⟩ := processTxs_shape hp
      by_cases hmi : i = m.followerID
      · subst hmi
        simp only [Function.update_self]
        rw [hid, hnum]
        exact hi _ hin
      · simp only [Function.update_of_ne hmi]
        exact hi i hin
    | _ => exact hi

/-! ### The goroutines of a batch -/

/-- The `WaitGroup` counts the goroutines that were started and are not done, except for the
one whose `wg.Add(1)` is still to come. -/
structure TasksInv (s : Sys) : Prop where
  counted : s.main ≠ .crashed →
    s.wg + s.adding.toNat = s.starting.length + s.inserting.length
  idle : s.main = .select ∨ s.main = .stopping →
    s.launching = [] ∧ s.adding = false ∧ s.wg = 0

theorem TasksInv.none_left (hi : TasksInv s) (h : s.main = .select ∨ s.main = .stopping) :
    s.launching = [] ∧ s.starting = [] ∧ s.inserting = [] := by
  obtain ⟨hl, ha, hw⟩ := hi.idle h
  have hm : s.main ≠ .crashed := by rcases h with h | h <;> simp [h]
  have hc := hi.counted hm
  rw [ha, hw] at hc
  have hs : s.starting.length = 0 := by simp at hc; omega
  have hin : s.inserting.length = 0 := by simp at hc; omega
  exact ⟨hl, List.length_eq_zero_iff.mp hs, List.length_eq_zero_iff.mp hin⟩

theorem TasksInv.unfinished_nil (hi : TasksInv s) (h : s.main = .select ∨ s.main = .stopping) :
    s.launching ++ s.starting ++ s.inserting = [] := by
  obtain ⟨hl, hs, hin⟩ := hi.none_left h
  rw [hl, hs, hin]
  rfl

theorem length_of_getElem? {α : Type*} {xs : List α} {k : ℕ} {x : α} (h : xs[k]? = some x) :
    xs.length = (xs.eraseIdx k).length + 1 := by
  rw [(perm_eraseIdx h).length_eq, List.length_cons]

theorem tasksInv_crashed (h : s.main = .crashed) : TasksInv s :=
  ⟨fun hne => absurd h hne, fun hidle => by simp [h] at hidle⟩

/-- One goroutine less: `wg.Done` takes it off, or the process is over. -/
theorem TasksInv.done (hi : TasksInv s) {main : MainState} {wg : ℕ} (hd : WgDone s main wg)
    (hmain : s'.main = main) (hwg : s'.wg = wg) (hadd : s'.adding = s.adding)
    (hlen : s.starting.length + s.inserting.length =
      s'.starting.length + s'.inserting.length + 1) : TasksInv s' := by
  rcases hd with ⟨-, rfl, -⟩ | ⟨hw, rfl, rfl⟩
  · exact tasksInv_crashed hmain
  · refine ⟨fun hne => ?_, fun h => ?_⟩
    · have hc := hi.counted (hmain ▸ hne)
      rw [hwg, hadd]
      omega
    · have h0 := (hi.idle (hmain ▸ h)).2.2
      omega

theorem tasksInv_step (hi : TasksInv s) (h : Step cfg s l s') : TasksInv s' := by
  cases h with
  | inject => exact ⟨hi.counted, hi.idle⟩
  | emptyRound order main signals hsel hsig hp hr =>
    have hidle := hi.idle (.inl hsel)
    refine ⟨fun _ => hi.counted (by rw [hsel]; exact nofun), fun _ => hidle⟩
  | badBatch => exact tasksInv_crashed rfl
  | batch order allocMap hsel =>
    obtain ⟨-, hs, hin⟩ := hi.none_left (.inl hsel)
    refine ⟨fun _ => ?_, fun h => by rcases h with h | h <;> cases h⟩
    simp [startTasks, takeBatch, hs, hin]
  | launch k batch a hm hadd ha =>
    refine ⟨fun hne => ?_, fun h => by simp [hm] at h⟩
    have hc := hi.counted (by rw [hm]; exact nofun)
    rw [hadd] at hc
    simp at hc ⊢
    omega
  | addWg batch hm hadd =>
    refine ⟨fun hne => ?_, fun h => by simp [hm] at h⟩
    have hc := hi.counted (by rw [hm]; exact nofun)
    rw [hadd] at hc
    simp at hc ⊢
    omega
  | endScheduling batch hm hl hadd hw =>
    exact ⟨fun _ => hi.counted (by rw [hm]; exact nofun), fun _ => ⟨hl, hadd, hw⟩⟩
  | send k a hm ha =>
    have hlen := length_of_getElem? ha
    refine ⟨fun hne => ?_, fun h => ?_⟩
    · have hc := hi.counted hne
      simp only [List.length_append, List.length_singleton]
      omega
    · exact hi.idle h
  | skip k a main wg hm ha hr hd =>
    have hlen := length_of_getElem? ha
    exact hi.done hd rfl rfl rfl (by dsimp only; omega)
  | insert k a main wg hm ha hd =>
    have hlen := length_of_getElem? ha
    exact hi.done hd rfl rfl rfl (by dsimp only; omega)
  | process => exact ⟨hi.counted, hi.idle⟩
  | gatherPanic => exact tasksInv_crashed rfl
  | gather => exact ⟨hi.counted, hi.idle⟩
  | record => exact ⟨hi.counted, hi.idle⟩
  | noBlock => exact ⟨hi.counted, hi.idle⟩
  | block => exact ⟨hi.counted, hi.idle⟩

theorem tasksInv (h : Runs cfg n feed guard s) : TasksInv s := by
  refine h.invariant ?_ fun s s' l _ hi _ hs => tasksInv_step hi hs
  rintro s ⟨times, chain, followers, rfl, -⟩
  exact ⟨fun _ => rfl, fun _ => ⟨rfl, rfl, rfl⟩⟩

/-! ### The calls and their answers -/

/-- Every reply there has been. -/
def Sys.answered (s : Sys) : List PrecessedTxMsgs := s.replies ++ s.handled

/-- The `TxAllocate` goroutines of the current batch that are not done. -/
def Sys.unfinished (s : Sys) : List Allocation := s.launching ++ s.starting ++ s.inserting

/-- The calls by where they are: to be started, to be sent, in a message, or answered. -/
def Sys.calls (s : Sys) : List Allocation :=
  s.launching ++ (s.starting ++ (s.allocMsgs.map (·.allocation) ++
    (s.replies.map (·.allocation) ++ s.handled.map (·.allocation))))

/-- The `TxAllocate` calls, where they are and what their answers hold. -/
structure CallsInv (n : ℕ) (s : Sys) : Prop where
  routed : ∀ a ∈ s.allocations, a.followerID < n ∧
    ∀ tx ∈ a.txs, tx ∈ s.scheduled ∧ routedTo n a.followerID tx = true
  epochs : ∀ a ∈ s.allocations, a.epochId ≤ s.epochId
  distinct : (s.allocations.map fun a => (a.epochId, a.followerID)).Nodup
  /-- No call is lost and none is answered twice. -/
  calls : s.allocations.Perm s.calls
  inserting : ∀ a ∈ s.inserting, a ∈ s.allocations
  /-- The hashes of a reply are a subsequence of those of its batch. -/
  reported : ∀ r ∈ s.answered, r.txHashs.Sublist (r.txs.map (·.tx.txHash))

theorem CallsInv.unfinished (hi : CallsInv n s) {a : Allocation} (ha : a ∈ s.unfinished) :
    a ∈ s.allocations := by
  rcases List.mem_append.mp ha with ha | ha
  · refine hi.calls.mem_iff.mpr ?_
    rcases List.mem_append.mp ha with ha | ha
    · exact List.mem_append_left _ ha
    · exact List.mem_append_right _ (List.mem_append_left _ ha)
  · exact hi.inserting a ha

theorem CallsInv.starting (hi : CallsInv n s) {a : Allocation} (ha : a ∈ s.starting) :
    a ∈ s.allocations :=
  hi.unfinished (List.mem_append_left _ (List.mem_append_right _ ha))

/-- No call is skipped: every follower is ready. -/
theorem CallsInv.ready (hcfg : cfg.Standard n) (hi : CallsInv n s) {k : ℕ} {a : Allocation}
    (ha : s.starting[k]? = some a) : a.followerID ∈ cfg.readyMap := by
  rw [hcfg.ready, Finset.mem_range]
  exact (hi.routed a (hi.starting (List.mem_of_getElem? ha))).1

theorem CallsInv.sent (hi : CallsInv n s) {m : AllocateTxMsgs} (hm : m ∈ s.allocMsgs) :
    m.allocation ∈ s.allocations := by
  refine hi.calls.mem_iff.mpr (List.mem_append_right _ (List.mem_append_right _ ?_))
  exact List.mem_append_left _ (List.mem_map_of_mem hm)

theorem CallsInv.answered (hi : CallsInv n s) {r : PrecessedTxMsgs} (hr : r ∈ s.answered) :
    r.allocation ∈ s.allocations := by
  refine hi.calls.mem_iff.mpr (List.mem_append_right _ (List.mem_append_right _ ?_))
  rw [← List.map_append]
  exact List.mem_append_right _ (List.mem_map_of_mem hr)

/-- A call is waiting to be sent, in a message, in a reply, or handled. -/
theorem CallsInv.tracked (hi : CallsInv n s) {a : Allocation} (ha : a ∈ s.allocations) :
    a ∈ s.unfinished ∨ (∃ m ∈ s.allocMsgs, m.allocation = a) ∨
      (∃ r ∈ s.replies, r.allocation = a) ∨ ∃ r ∈ s.handled, r.allocation = a := by
  have h := hi.calls.mem_iff.mp ha
  simp only [Sys.calls, List.mem_append, List.mem_map] at h
  rw [Sys.unfinished]
  rcases h with h | h | h
  · exact .inl (List.mem_append_left _ (List.mem_append_left _ h))
  · exact .inl (List.mem_append_left _ (List.mem_append_right _ h))
  · exact .inr h

/-- A call is determined by its epoch and its follower. -/
theorem CallsInv.allocation_ext (hi : CallsInv n s) {a a' : Allocation} (ha : a ∈ s.allocations)
    (ha' : a' ∈ s.allocations) (he : a.epochId = a'.epochId)
    (hf : a.followerID = a'.followerID) : a = a' :=
  List.inj_on_of_nodup_map hi.distinct ha ha' (Prod.ext he hf)

/-- A call has one reply. -/
theorem CallsInv.reply_ext (hi : CallsInv n s) {r r' : PrecessedTxMsgs} (hr : r ∈ s.answered)
    (hr' : r' ∈ s.answered) (h : r.allocation = r'.allocation) : r = r' := by
  have hnd : s.calls.Nodup := hi.calls.nodup_iff.mp (List.Nodup.of_map _ hi.distinct)
  rw [Sys.calls, ← List.map_append] at hnd
  have hans := (List.nodup_append.mp (List.nodup_append.mp (List.nodup_append.mp hnd).2.1).2.1).2.1
  exact List.inj_on_of_nodup_map hans hr hr' h

/-- A reported hash is the hash of a transaction of the batch. -/
theorem CallsInv.mem_of_reported (hi : CallsInv n s) {r : PrecessedTxMsgs}
    (hr : r ∈ s.answered) {h : Hash} (hh : h ∈ r.txHashs) :
    ∃ tx ∈ r.allocation.txs, tx.txHash = h := by
  obtain ⟨t, ht, rfl⟩ := List.mem_map.mp ((hi.reported r hr).subset hh)
  exact ⟨t.tx, List.mem_map_of_mem ht, rfl⟩

/-- The calls of a new epoch: one for each follower, on what is routed to it. -/
theorem mem_tasksOf (hcfg : cfg.Standard n) {order : List Transaction} {allocMap : AllocMap}
    (h : allocTxs cfg.followerIDs.length order = some allocMap) {e : ℕ} {a : Allocation} :
    a ∈ tasksOf cfg e allocMap ↔
      a.followerID < n ∧ a.epochId = e ∧ a.txs = order.filter (routedTo n a.followerID) := by
  have hlen : cfg.followerIDs.length = n := by rw [hcfg.ids, List.length_range]
  rw [hlen] at h
  rw [allocTxs_some hcfg.pos.ne' h, tasksOf, hcfg.ids]
  simp only [List.mem_map, List.mem_dedup, List.mem_range]
  constructor
  · rintro ⟨fid, hfid, rfl⟩
    exact ⟨hfid, rfl, rfl⟩
  · rintro ⟨hfid, he, htxs⟩
    refine ⟨a.followerID, hfid, ?_⟩
    rw [← he, ← htxs]

/-- The goroutines that sort a batch without empty addresses do not panic. -/
theorem allocTxs_ne_none (hcfg : cfg.Standard n) {order : List Transaction}
    (h : ∀ tx ∈ order, prefixes tx ≠ .outOfRange) :
    allocTxs cfg.followerIDs.length order ≠ none := by
  have hne : cfg.followerIDs.length ≠ 0 := by
    rw [hcfg.ids, List.length_range]
    exact hcfg.pos.ne'
  rw [allocTxs_eq _ hne order h]
  exact nofun

theorem tasksOf_keys (hcfg : cfg.Standard n) (e : ℕ) (allocMap : AllocMap) :
    ((tasksOf cfg e allocMap).map fun a => (a.epochId, a.followerID)) =
      (List.range n).map fun i => (e, i) := by
  rw [tasksOf, hcfg.ids, List.dedup_eq_self.mpr List.nodup_range, List.map_map]
  rfl

theorem count_eraseIdx {α β : Type*} [BEq β] [LawfulBEq β] {xs : List α} {k : ℕ} {x : α}
    (f : α → β) (h : xs[k]? = some x) (y : β) :
    (xs.map f).count y = [f x].count y + ((xs.eraseIdx k).map f).count y := by
  have hc := ((perm_eraseIdx h).map f).count_eq y
  rw [List.map_cons, ← List.singleton_append, List.count_append] at hc
  exact hc

theorem mem_answered_receive {k : ℕ} {r x : PrecessedTxMsgs} (hr : s.replies[k]? = some r) :
    x ∈ (receive s k r).answered ↔ x ∈ s.answered := by
  have hp : x ∈ s.replies ↔ x = r ∨ x ∈ s.replies.eraseIdx k :=
    (perm_eraseIdx hr).mem_iff.trans List.mem_cons
  simp only [Sys.answered, receive, List.mem_append, List.mem_singleton, hp]
  tauto

theorem mem_unfinished_launch {k : ℕ} {a x : Allocation} (ha : s.launching[k]? = some a) :
    x ∈ s.launching.eraseIdx k ++ (s.starting ++ [a]) ++ s.inserting ↔ x ∈ s.unfinished := by
  have hp : x ∈ s.launching ↔ x = a ∨ x ∈ s.launching.eraseIdx k :=
    (perm_eraseIdx ha).mem_iff.trans List.mem_cons
  simp only [Sys.unfinished, List.mem_append, List.mem_singleton, hp]
  tauto

theorem mem_unfinished_send {k : ℕ} {a x : Allocation} (ha : s.starting[k]? = some a) :
    x ∈ s.launching ++ s.starting.eraseIdx k ++ (s.inserting ++ [a]) ↔ x ∈ s.unfinished := by
  have hp : x ∈ s.starting ↔ x = a ∨ x ∈ s.starting.eraseIdx k :=
    (perm_eraseIdx ha).mem_iff.trans List.mem_cons
  simp only [Sys.unfinished, List.mem_append, List.mem_singleton, hp]
  tauto

theorem mem_unfinished_insert {k : ℕ} {a x : Allocation} (ha : s.inserting[k]? = some a) :
    x ∈ s.unfinished ↔
      x = a ∨ x ∈ s.launching ++ s.starting ++ s.inserting.eraseIdx k := by
  have hp : x ∈ s.inserting ↔ x = a ∨ x ∈ s.inserting.eraseIdx k :=
    (perm_eraseIdx ha).mem_iff.trans List.mem_cons
  simp only [Sys.unfinished, List.mem_append, hp]
  tauto

/-- The answer to a message answers the call that was sent. -/
theorem reply_allocation {clk : Clock} {m : AllocateTxMsgs} {f' : FollowerNode}
    {txHashs : List Hash} {txs : List TimedTx}
    (hid : (s.followers m.followerID).followerID = m.followerID)
    (hp : processTxs clk (s.followers m.followerID) m.txs = some (f', txHashs, txs)) :
    (⟨txs, txHashs, (s.followers m.followerID).followerID, m.epochId⟩ :
      PrecessedTxMsgs).allocation = m.allocation := by
  obtain ⟨-, -, hout, -⟩ := processTxs_shape hp
  simp only [PrecessedTxMsgs.allocation, AllocateTxMsgs.allocation, hid, hout]

theorem callsInv_batch (hcfg : cfg.Standard n) {order : List Transaction} {allocMap : AllocMap}
    (hi : CallsInv n s) (ht : TasksInv s) (hsel : s.main = .select)
    (hperm : order.Perm (localTxpool cfg s))
    (halloc : allocTxs cfg.followerIDs.length order = some allocMap) :
    CallsInv n (startTasks cfg s allocMap) := by
  obtain ⟨hl, hs, hin⟩ := ht.none_left (.inl hsel)
  refine ⟨?_, ?_, ?_, ?_, ?_, hi.reported⟩
  · intro a ha
    rcases List.mem_append.mp ha with ha | ha
    · obtain ⟨hlt, htxs⟩ := hi.routed a ha
      exact ⟨hlt, fun tx htx => ⟨List.mem_append_left _ (htxs tx htx).1, (htxs tx htx).2⟩⟩
    · obtain ⟨hlt, -, htxs⟩ := (mem_tasksOf hcfg halloc).mp ha
      refine ⟨hlt, fun tx htx => ?_⟩
      rw [htxs, List.mem_filter] at htx
      exact ⟨List.mem_append_right _ (hperm.mem_iff.mp htx.1), htx.2⟩
  · intro a ha
    rcases List.mem_append.mp ha with ha | ha
    · exact Nat.le_succ_of_le (hi.epochs a ha)
    · exact ((mem_tasksOf hcfg halloc).mp ha).2.1.le
  · show ((s.allocations ++ tasksOf cfg (s.epochId + 1) allocMap).map _).Nodup
    rw [List.map_append, tasksOf_keys hcfg, List.nodup_append]
    refine ⟨hi.distinct, List.nodup_range.map fun i j hij => (Prod.mk.inj hij).2, ?_⟩
    intro p hp q hq heq
    obtain ⟨a, ha, rfl⟩ := List.mem_map.mp hp
    obtain ⟨i, -, rfl⟩ := List.mem_map.mp hq
    have hle := hi.epochs a ha
    have he : a.epochId = s.epochId + 1 := (Prod.mk.inj heq).1
    omega
  · have hc := hi.calls
    simp only [Sys.calls, hl, List.nil_append] at hc
    exact List.perm_append_comm.trans (hc.append_left _)
  · intro a ha
    have ha' : a ∈ s.inserting := ha
    rw [hin] at ha'
    cases ha'

/-- Away from a new batch, a step only moves calls from one place to the next. -/
theorem calls_perm (hcfg : cfg.Standard n) (hi : CallsInv n s)
    (hf : ∀ i < n, (s.followers i).followerID = i ∧ (s.followers i).followerNum = n)
    (h : Step cfg s l s') (hold : s'.allocations = s.allocations) : s.calls.Perm s'.calls := by
  cases h with
  | batch order allocMap =>
    -- a new batch adds a call for each of the followers
    have hlen := congrArg List.length hold
    have hkeys := congrArg List.length (tasksOf_keys hcfg (s.epochId + 1) allocMap)
    simp only [startTasks, takeBatch, List.length_append] at hlen
    simp only [List.length_map, List.length_range] at hkeys
    have hpos := hcfg.pos
    omega
  | launch k batch a _ _ ha =>
    refine List.perm_iff_count.mpr fun y => ?_
    have hc := count_eraseIdx id ha y
    simp only [List.map_id, id] at hc
    simp only [Sys.calls, List.count_append]
    omega
  | send k a _ ha =>
    refine List.perm_iff_count.mpr fun y => ?_
    have hc := count_eraseIdx id ha y
    simp only [List.map_id, id] at hc
    simp only [Sys.calls, List.count_append, List.map_append, List.map_cons, List.map_nil,
      message_allocation]
    omega
  | skip k a main wg _ ha hready => exact absurd (hi.ready hcfg ha) hready
  | process k clk m f' txHashs txs hm hp =>
    have hlt : m.followerID < n := (hi.routed _ (hi.sent (List.mem_of_getElem? hm))).1
    have hr := reply_allocation (hf _ hlt).1 hp
    refine List.perm_iff_count.mpr fun y => ?_
    have hc := count_eraseIdx (·.allocation) hm y
    simp only [Sys.calls, List.count_append, List.map_append, List.map_cons, List.map_nil, hr]
    omega
  | gatherPanic k r _ hr =>
    refine List.perm_iff_count.mpr fun y => ?_
    have hc := count_eraseIdx (·.allocation) hr y
    simp only [Sys.calls, receive, List.count_append, List.map_append, List.map_cons,
      List.map_nil]
    omega
  | gather k r pool moved times _ hr =>
    refine List.perm_iff_count.mpr fun y => ?_
    have hc := count_eraseIdx (·.allocation) hr y
    simp only [Sys.calls, receive, List.count_append, List.map_append, List.map_cons,
      List.map_nil]
    omega
  | _ => exact List.Perm.refl _

theorem callsInv_step (hcfg : cfg.Standard n)
    (hf : ∀ i < n, (s.followers i).followerID = i ∧ (s.followers i).followerNum = n)
    (ht : TasksInv s) (hi : CallsInv n s) (h : Step cfg s l s') : CallsInv n s' := by
  have hperm := calls_perm hcfg hi hf h
  cases h with
  | badBatch =>
    refine ⟨?_, hi.epochs, hi.distinct, hi.calls.trans (hperm rfl), hi.inserting, hi.reported⟩
    intro a ha
    obtain ⟨hlt, htxs⟩ := hi.routed a ha
    exact ⟨hlt, fun tx htx => ⟨List.mem_append_left _ (htxs tx htx).1, (htxs tx htx).2⟩⟩
  | batch order allocMap hsel _ _ horder halloc =>
    exact callsInv_batch hcfg hi ht hsel horder halloc
  | send k a _ ha =>
    refine ⟨hi.routed, hi.epochs, hi.distinct, hi.calls.trans (hperm rfl), ?_, hi.reported⟩
    intro x hx
    rcases List.mem_append.mp hx with hx | hx
    · exact hi.inserting x hx
    · rw [List.mem_singleton.mp hx]
      exact hi.starting (List.mem_of_getElem? ha)
  | insert k a main wg _ ha =>
    exact ⟨hi.routed, hi.epochs, hi.distinct, hi.calls.trans (hperm rfl),
      fun x hx => hi.inserting x (List.mem_of_mem_eraseIdx hx), hi.reported⟩
  | process k clk m f' txHashs txs hm hp =>
    refine ⟨hi.routed, hi.epochs, hi.distinct, hi.calls.trans (hperm rfl), hi.inserting, ?_⟩
    obtain ⟨-, -, hout, hsub⟩ := processTxs_shape hp
    have hhash := congrArg (List.map Transaction.txHash) hout
    simp only [List.map_map, Function.comp_def] at hhash
    intro x hx
    simp only [Sys.answered, List.mem_append, List.mem_singleton] at hx
    rcases hx with (hx | rfl) | hx
    · exact hi.reported x (List.mem_append_left _ hx)
    · exact hhash ▸ hsub
    · exact hi.reported x (List.mem_append_right _ hx)
  | gatherPanic k r _ hr =>
    exact ⟨hi.routed, hi.epochs, hi.distinct, hi.calls.trans (hperm rfl), hi.inserting,
      fun x hx => hi.reported x ((mem_answered_receive hr).mp hx)⟩
  | gather k r pool moved times _ hr =>
    exact ⟨hi.routed, hi.epochs, hi.distinct, hi.calls.trans (hperm rfl), hi.inserting,
      fun x hx => hi.reported x ((mem_answered_receive hr).mp hx)⟩
  | _ =>
    exact ⟨hi.routed, hi.epochs, hi.distinct, hi.calls.trans (hperm rfl), hi.inserting,
      hi.reported⟩

theorem callsInv (hcfg : cfg.Standard n) (h : Runs cfg n feed guard s) : CallsInv n s := by
  refine h.invariant ?_ fun s s' l hr hi _ hs =>
    callsInv_step hcfg (followers_match hr) (tasksInv hr) hi hs
  rintro s ⟨times, chain, followers, rfl, -⟩
  exact ⟨nofun, nofun, List.nodup_nil, List.Perm.nil, nofun, nofun⟩

/-- `GatherTxs` never indexes past the end of a reply. -/
theorem CallsInv.reply_length (hi : CallsInv n s) {r : PrecessedTxMsgs} (hr : r ∈ s.answered) :
    r.txHashs.length ≤ r.txs.length := by
  have h := (hi.reported r hr).length_le
  rwa [List.length_map] at h

/-! ### The pools -/

structure PoolsInv (s : Sys) : Prop where
  /-- What was appended to `ProcessedTxpool` is in a block or still there, in order. -/
  bodies : s.generated.flatMap (·.body) ++ s.processedTxpool = s.appended
  keyed : ∀ h tx, s.allocatedTxpool.lookup h = some tx → tx.txHash = h ∧ tx ∈ s.scheduled
  scheduled : ∀ tx ∈ s.appended, tx ∈ s.scheduled
  reported : ∀ tx ∈ s.appended, ∃ r ∈ s.handled, tx.txHash ∈ r.txHashs

theorem poolsInv_gather {k : ℕ} {r : PrecessedTxMsgs}
    {pool : Finmap fun _ : Hash => Transaction} {moved : List Transaction}
    {times : Transaction → TxTimes} (hi : PoolsInv s)
    (hg : GatherResult s.allocatedTxpool r.txHashs pool moved) :
    PoolsInv { receive s k r with
      allocatedTxpool := pool
      processedTxpool := s.processedTxpool ++ moved
      appended := s.appended ++ moved
      times := times } := by
  refine ⟨?_, ?_, ?_, ?_⟩
  · show s.generated.flatMap (·.body) ++ (s.processedTxpool ++ moved) = s.appended ++ moved
    rw [← List.append_assoc, hi.bodies]
  · intro h tx hl
    by_cases hh : h ∈ r.txHashs
    · rw [hg.gone h hh] at hl
      cases hl
    · rw [hg.other h hh] at hl
      exact hi.keyed h tx hl
  · intro tx htx
    rcases List.mem_append.mp htx with htx | htx
    · exact hi.scheduled tx htx
    · obtain ⟨h, -, hl⟩ := hg.source tx htx
      exact (hi.keyed h tx hl).2
  · intro tx htx
    rcases List.mem_append.mp htx with htx | htx
    · obtain ⟨x, hx, hh⟩ := hi.reported tx htx
      exact ⟨x, List.mem_append_left _ hx, hh⟩
    · obtain ⟨h, hh, hl⟩ := hg.source tx htx
      refine ⟨r, List.mem_append_right _ (List.mem_singleton.mpr rfl), ?_⟩
      rw [(hi.keyed h tx hl).1]
      exact hh

theorem poolsInv_step (hc : CallsInv n s) (hi : PoolsInv s) (h : Step cfg s l s') :
    PoolsInv s' := by
  cases h with
  | badBatch =>
    exact ⟨hi.bodies,
      fun h tx hl => ⟨(hi.keyed h tx hl).1, List.mem_append_left _ (hi.keyed h tx hl).2⟩,
      fun tx htx => List.mem_append_left _ (hi.scheduled tx htx), hi.reported⟩
  | batch =>
    exact ⟨hi.bodies,
      fun h tx hl => ⟨(hi.keyed h tx hl).1, List.mem_append_left _ (hi.keyed h tx hl).2⟩,
      fun tx htx => List.mem_append_left _ (hi.scheduled tx htx), hi.reported⟩
  | insert k a main wg _ ha =>
    refine ⟨hi.bodies, ?_, hi.scheduled, hi.reported⟩
    intro h tx hl
    have hcall := hc.inserting a (List.mem_of_getElem? ha)
    rcases insertAll_lookup a.txs s.allocatedTxpool h with ⟨u, hu, he, hl'⟩ | ⟨-, hl'⟩
    · obtain rfl : u = tx := Option.some.inj (hl'.symm.trans hl)
      exact ⟨he, ((hc.routed a hcall).2 u hu).1⟩
    · exact hi.keyed h tx (hl'.symm.trans hl)
  | gatherPanic k r _ hr =>
    refine ⟨hi.bodies, hi.keyed, hi.scheduled, fun tx htx => ?_⟩
    obtain ⟨x, hx, hh⟩ := hi.reported tx htx
    exact ⟨x, List.mem_append_left _ hx, hh⟩
  | gather k r pool moved times _ _ hg => exact poolsInv_gather hi hg
  | block k e now b done chain _ _ hb =>
    refine ⟨?_, hi.keyed, hi.scheduled, hi.reported⟩
    show (s.generated ++ [b]).flatMap (·.body) ++ [] = s.appended
    rw [List.flatMap_append, List.append_nil, ← hi.bodies]
    simp [hb]
  | _ => exact ⟨hi.bodies, hi.keyed, hi.scheduled, hi.reported⟩

theorem poolsInv (hcfg : cfg.Standard n) (h : Runs cfg n feed guard s) : PoolsInv s := by
  refine h.invariant ?_ fun s s' l hr hi _ hs => poolsInv_step (callsInv hcfg hr) hi hs
  rintro s ⟨times, chain, followers, rfl, -⟩
  exact ⟨rfl, fun h tx hl => absurd hl nofun, nofun, nofun⟩

theorem body_subset_appended (hi : PoolsInv s) {b : Block} (hb : b ∈ s.generated)
    {tx : Transaction} (htx : tx ∈ b.body) : tx ∈ s.appended := by
  rw [← hi.bodies]
  exact List.mem_append_left _ (List.mem_flatMap.mpr ⟨b, hb, htx⟩)

/-! ### The token -/

/-- The parts of epochs that are under way: an epoch and a follower for every call that is to be
started or sent, every message, every reply and every handler that has not recorded its
reply. -/
def Sys.pieces (s : Sys) : List (ℕ × ℕ) :=
  s.launching.map (fun a => (a.epochId, a.followerID)) ++
    (s.starting.map (fun a => (a.epochId, a.followerID)) ++
      (s.allocMsgs.map (fun m => (m.epochId, m.followerID)) ++
        (s.replies.map (fun r => (r.epochId, r.followerID)) ++
          s.gathered.map fun r => (r.epochId, r.followerID))))

/-- One token goes round: it is the parts of the current epoch, one for each follower that has
not answered, or a `blockGenerate`, or a scheduling signal. -/
structure TokenInv (n : ℕ) (s : Sys) : Prop where
  fresh : ∀ e, s.epochId < e → s.gatherMap e = ∅
  current : ∀ p ∈ s.pieces, p.1 = s.epochId ∧ p.2 < n ∧ p.2 ∉ s.gatherMap s.epochId
  nodup : s.pieces.Nodup
  phase : (s.pieces = [] ∧ s.signals + s.generating.length ≤ 1) ∨
    (s.pieces ≠ [] ∧ s.signals = 0 ∧ s.generating = [] ∧
      (s.gatherMap s.epochId).card + s.pieces.length = n)

theorem TokenInv.no_pieces (hi : TokenInv n s) (h : 0 < s.signals ∨ s.generating ≠ []) :
    s.pieces = [] ∧ s.signals + s.generating.length ≤ 1 := by
  rcases hi.phase with hp | ⟨-, hs, hg, -⟩
  · exact hp
  · rcases h with h | h
    · omega
    · exact absurd hg h

theorem TokenInv.of_perm (hi : TokenInv n s) (hp : s'.pieces.Perm s.pieces)
    (he : s'.epochId = s.epochId) (hm : s'.gatherMap = s.gatherMap)
    (hs : s'.signals = s.signals) (hg : s'.generating = s.generating) : TokenInv n s' := by
  refine ⟨?_, ?_, hp.nodup_iff.mpr hi.nodup, ?_⟩
  · rw [he, hm]
    exact hi.fresh
  · rw [he, hm]
    exact fun p hmem => hi.current p (hp.mem_iff.mp hmem)
  · rw [he, hm, hs, hg, hp.length_eq]
    rcases hi.phase with ⟨h, hle⟩ | ⟨h, hrest⟩
    · exact .inl ⟨List.perm_nil.mp (h ▸ hp), hle⟩
    · exact .inr ⟨fun h' => h (List.nil_perm.mp (h' ▸ hp)), hrest⟩

theorem pieces_batch (hcfg : cfg.Standard n) (hp : s.pieces = []) (allocMap : AllocMap) :
    (startTasks cfg s allocMap).pieces = (List.range n).map fun i => (s.epochId + 1, i) := by
  simp only [Sys.pieces, List.append_eq_nil_iff, List.map_eq_nil_iff] at hp
  obtain ⟨-, hs, hm, hr, hg⟩ := hp
  simp only [Sys.pieces, startTasks, takeBatch, hs, hm, hr, hg, List.map_nil, List.append_nil]
  exact tasksOf_keys hcfg (s.epochId + 1) allocMap

theorem tokenInv_batch (hcfg : cfg.Standard n) (hi : TokenInv n s) (hsig : 0 < s.signals)
    (allocMap : AllocMap) : TokenInv n (startTasks cfg s allocMap) := by
  obtain ⟨hp, hle⟩ := hi.no_pieces (.inl hsig)
  have hgen : s.generating = [] := List.length_eq_zero_iff.mp (by omega)
  have hempty : s.gatherMap (s.epochId + 1) = ∅ := hi.fresh _ (Nat.lt_succ_self _)
  have hpieces := pieces_batch hcfg hp allocMap
  refine ⟨?_, ?_, ?_, .inr ⟨?_, ?_, hgen, ?_⟩⟩
  · exact fun e he => hi.fresh e (Nat.lt_of_succ_lt he)
  · rw [hpieces]
    intro p hmem
    obtain ⟨i, hin, rfl⟩ := List.mem_map.mp hmem
    refine ⟨rfl, List.mem_range.mp hin, ?_⟩
    show i ∉ s.gatherMap (s.epochId + 1)
    rw [hempty]
    exact Finset.notMem_empty i
  · rw [hpieces]
    exact List.nodup_range.map fun i j hij => (Prod.mk.inj hij).2
  · rw [hpieces]
    simpa using hcfg.pos.ne'
  · show s.signals - 1 = 0
    omega
  · rw [hpieces]
    show (s.gatherMap (s.epochId + 1)).card + _ = n
    simp [hempty]

theorem pieces_record (cfg : Config) {k : ℕ} {r : PrecessedTxMsgs} (hr : s.gathered[k]? = some r) :
    s.pieces.Perm ((r.epochId, r.followerID) :: (recordReply cfg s k r).pieces) := by
  refine List.perm_iff_count.mpr fun y => ?_
  have hc := count_eraseIdx (fun r : PrecessedTxMsgs => (r.epochId, r.followerID)) hr y
  rw [← List.singleton_append, List.count_append]
  simp only [recordReply, Sys.pieces, List.count_append]
  omega

/-- What the handler of a reply finds: the reply is of the current epoch and its follower has
not answered in it, and the other parts of the epoch are still under way. -/
theorem TokenInv.gathered (cfg : Config) (hi : TokenInv n s) {k : ℕ} {r : PrecessedTxMsgs}
    (hr : s.gathered[k]? = some r) :
    r.epochId = s.epochId ∧ r.followerID ∉ s.gatherMap s.epochId ∧ s.signals = 0 ∧
      s.generating = [] ∧
      (s.gatherMap s.epochId).card + (recordReply cfg s k r).pieces.length + 1 = n := by
  have hperm := pieces_record cfg hr
  have hmem : (r.epochId, r.followerID) ∈ s.pieces := hperm.mem_iff.mpr List.mem_cons_self
  obtain ⟨he, -, hnot⟩ := hi.current _ hmem
  have hlen := hperm.length_eq
  rw [List.length_cons] at hlen
  rcases hi.phase with ⟨h, -⟩ | ⟨-, hsig, hgen, hsum⟩
  · rw [h] at hmem
    cases hmem
  · exact ⟨he, hnot, hsig, hgen, by omega⟩

/-- The epoch is complete when the last of its parts is recorded. -/
theorem TokenInv.record_generating (hcfg : cfg.Standard n) (hi : TokenInv n s) {k : ℕ}
    {r : PrecessedTxMsgs} (hr : s.gathered[k]? = some r) :
    (recordReply cfg s k r).generating =
      if (recordReply cfg s k r).pieces = [] then [r.epochId] else [] := by
  obtain ⟨he, hnot, -, hgen, hsum⟩ := hi.gathered cfg hr
  have hcard : (Insert.insert r.followerID (s.gatherMap r.epochId)).card = cfg.followerNum ↔
      (recordReply cfg s k r).pieces = [] := by
    rw [he, Finset.card_insert_of_notMem hnot, hcfg.num, ← List.length_eq_zero_iff]
    omega
  show (if (Insert.insert r.followerID (s.gatherMap r.epochId)).card = cfg.followerNum then
    s.generating ++ [r.epochId] else s.generating) = _
  rw [hgen, List.nil_append]
  exact if_congr hcard rfl rfl

theorem tokenInv_record (hcfg : cfg.Standard n) {k : ℕ} {r : PrecessedTxMsgs}
    (hi : TokenInv n s) (hr : s.gathered[k]? = some r) :
    TokenInv n (recordReply cfg s k r) := by
  obtain ⟨he, hnot, hsig, -, hsum⟩ := hi.gathered cfg hr
  have hgen := hi.record_generating hcfg hr
  have hperm := pieces_record cfg hr
  have hnd := hperm.nodup_iff.mp hi.nodup
  rw [List.nodup_cons] at hnd
  have hmap : (recordReply cfg s k r).gatherMap s.epochId =
      Insert.insert r.followerID (s.gatherMap s.epochId) := by
    simp only [recordReply, he, Function.update_self]
  refine ⟨?_, ?_, hnd.2, ?_⟩
  · intro e hlt
    have hne : e ≠ r.epochId := by
      rw [he]
      exact (Nat.ne_of_lt hlt).symm
    simp only [recordReply, Function.update_of_ne hne]
    exact hi.fresh e hlt
  · intro p hp
    obtain ⟨hpe, hpn, hpg⟩ := hi.current p (hperm.mem_iff.mpr (List.mem_cons_of_mem _ hp))
    refine ⟨hpe, hpn, ?_⟩
    show p.2 ∉ (recordReply cfg s k r).gatherMap s.epochId
    rw [hmap, Finset.mem_insert, not_or]
    refine ⟨fun h => hnd.1 ?_, hpg⟩
    have hpr : p = (r.epochId, r.followerID) := Prod.ext (hpe.trans he.symm) h
    exact hpr ▸ hp
  · rw [hgen]
    show (_ ∧ s.signals + _ ≤ 1) ∨ (_ ∧ s.signals = 0 ∧ _ ∧
      ((recordReply cfg s k r).gatherMap s.epochId).card + _ = n)
    rw [hmap, Finset.card_insert_of_notMem hnot, hsig]
    by_cases hpc : (recordReply cfg s k r).pieces = []
    · rw [if_pos hpc]
      exact .inl ⟨hpc, le_rfl⟩
    · rw [if_neg hpc]
      exact .inr ⟨hpc, rfl, rfl, by omega⟩

theorem tokenInv_step (hcfg : cfg.Standard n)
    (hf : ∀ i < n, (s.followers i).followerID = i ∧ (s.followers i).followerNum = n)
    (hc : CallsInv n s) (hi : TokenInv n s) (h : Step cfg s l s') : TokenInv n s' := by
  cases h with
  | emptyRound order main signals _ hsig _ hr =>
    obtain ⟨hp, hle⟩ := hi.no_pieces (.inl hsig)
    refine ⟨hi.fresh, hi.current, hi.nodup, .inl ⟨hp, ?_⟩⟩
    show signals + s.generating.length ≤ 1
    rcases hr with ⟨-, -, rfl⟩ | ⟨-, -, rfl⟩ <;> omega
  | badBatch order _ hsig =>
    obtain ⟨hp, hle⟩ := hi.no_pieces (.inl hsig)
    refine ⟨hi.fresh, hi.current, hi.nodup, .inl ⟨hp, ?_⟩⟩
    show s.signals - 1 + s.generating.length ≤ 1
    omega
  | batch order allocMap _ hsig => exact tokenInv_batch hcfg hi hsig allocMap
  | launch k batch a _ _ ha =>
    refine hi.of_perm (List.perm_iff_count.mpr fun y => ?_) rfl rfl rfl rfl
    have hcount := count_eraseIdx (fun a : Allocation => (a.epochId, a.followerID)) ha y
    simp only [Sys.pieces, List.map_append, List.count_append, List.map_cons, List.map_nil]
    omega
  | send k a _ ha =>
    refine hi.of_perm (List.perm_iff_count.mpr fun y => ?_) rfl rfl rfl rfl
    have hcount := count_eraseIdx (fun a : Allocation => (a.epochId, a.followerID)) ha y
    simp only [Sys.pieces, List.map_append, List.count_append, List.map_cons, List.map_nil,
      Allocation.message]
    omega
  | skip k a main wg _ ha hready => exact absurd (hc.ready hcfg ha) hready
  | process k clk m f' txHashs txs hm hp =>
    have hlt : m.followerID < n := (hc.routed _ (hc.sent (List.mem_of_getElem? hm))).1
    refine hi.of_perm (List.perm_iff_count.mpr fun y => ?_) rfl rfl rfl rfl
    have hcount := count_eraseIdx (fun m : AllocateTxMsgs => (m.epochId, m.followerID)) hm y
    simp only [Sys.pieces, List.map_append, List.count_append, List.map_cons, List.map_nil,
      (hf _ hlt).1]
    omega
  | gatherPanic k r _ hr =>
    refine hi.of_perm (List.perm_iff_count.mpr fun y => ?_) rfl rfl rfl rfl
    have hcount := count_eraseIdx (fun r : PrecessedTxMsgs => (r.epochId, r.followerID)) hr y
    simp only [Sys.pieces, receive, List.map_append, List.count_append, List.map_cons,
      List.map_nil]
    omega
  | gather k r pool moved times _ hr =>
    refine hi.of_perm (List.perm_iff_count.mpr fun y => ?_) rfl rfl rfl rfl
    have hcount := count_eraseIdx (fun r : PrecessedTxMsgs => (r.epochId, r.followerID)) hr y
    simp only [Sys.pieces, receive, List.map_append, List.count_append, List.map_cons,
      List.map_nil]
    omega
  | record k r _ hr => exact tokenInv_record hcfg hi hr
  | noBlock k e now _ hk =>
    have hlen := length_of_getElem? hk
    obtain ⟨hp, hle⟩ := hi.no_pieces (.inr (List.ne_nil_of_mem (List.mem_of_getElem? hk)))
    refine ⟨hi.fresh, hi.current, hi.nodup, .inl ⟨hp, ?_⟩⟩
    show s.signals + (s.generating.eraseIdx k).length ≤ 1
    omega
  | block k e now b done chain _ hk =>
    have hlen := length_of_getElem? hk
    obtain ⟨hp, hle⟩ := hi.no_pieces (.inr (List.ne_nil_of_mem (List.mem_of_getElem? hk)))
    refine ⟨hi.fresh, hi.current, hi.nodup, .inl ⟨hp, ?_⟩⟩
    show s.signals + 1 + (s.generating.eraseIdx k).length ≤ 1
    omega
  | _ => exact ⟨hi.fresh, hi.current, hi.nodup, hi.phase⟩

theorem tokenInv (hcfg : cfg.Standard n) (h : Runs cfg n feed guard s) : TokenInv n s := by
  refine h.invariant ?_ fun s s' l hr hi _ hs =>
    tokenInv_step hcfg (followers_match hr) (callsInv hcfg hr) hi hs
  rintro s ⟨times, chain, followers, rfl, -⟩
  exact ⟨fun _ _ => rfl, nofun, List.nodup_nil, .inl ⟨rfl, le_rfl⟩⟩

/-- While a block is being generated, every call has been answered and the answer handled. -/
theorem all_handled (hc : CallsInv n s) (hi : TokenInv n s) (hg : s.generating ≠ [])
    {a : Allocation} (ha : a ∈ s.allocations) : ∃ r ∈ s.handled, r.allocation = a := by
  have hp := (hi.no_pieces (.inr hg)).1
  simp only [Sys.pieces, List.append_eq_nil_iff, List.map_eq_nil_iff] at hp
  obtain ⟨hl, hs, hm, hr, -⟩ := hp
  have hcall := hc.calls.mem_iff.mp ha
  simp only [Sys.calls, hl, hs, hm, hr, List.map_nil, List.nil_append] at hcall
  exact List.mem_map.mp hcall

end Aster.SubMPT
