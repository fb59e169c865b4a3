import Aster.SubMPT.ProposerInvariants

/-!
# Which transactions reach a block

Three properties of the way from `PendingTxpool` to a block, each under the condition on the
steps of the run that it needs:

* all or nothing: a transaction in a block was reported as executed by every follower it was
  allocated to, as long as no follower refuses a transfer to another follower;
* no duplicate: nothing is appended to `ProcessedTxpool` twice, as long as a reply is handled
  only when every `TxAllocate` goroutine has inserted what the reply reports;
* no loss: every transaction is somewhere, as long as a reply is handled only when the
  `TxAllocate` goroutine of its own batch has inserted it.

For each of them a run that breaks the condition also breaks the property.
-/

namespace Aster.SubMPT

open Aster.Core Aster.Lib Aster.Lib.Transition

variable {cfg : Config} {n : ℕ} {feed : List Transaction} {guard : Sys → Label → Prop}
  {s s' : Sys} {l : Label}

theorem eq_of_txHash (hfeed : (feed.map (·.txHash)).Nodup) (h : Runs cfg n feed guard s)
    {u tx : Transaction} (hu : u ∈ s.scheduled) (htx : tx ∈ s.scheduled)
    (he : u.txHash = tx.txHash) : u = tx :=
  List.inj_on_of_nodup_map hfeed (mem_feed_of_scheduled h hu) (mem_feed_of_scheduled h htx) he

/-! ### All or nothing -/

/-- The condition on a follower's turn: it refuses no transfer to another follower. -/
def coversCross (s : Sys) : Label → Prop
  | .process k _ => ∀ m ∈ s.allocMsgs[k]?,
      Transfers.CrossCovered (Owns (s.followers m.followerID))
        (balanceOf (s.followers m.followerID).state) (m.txs.map fun t => toTransfer t.tx)
  | _ => True

instance (s : Sys) : (l : Label) → Decidable (coversCross s l)
  | .process k _ => inferInstanceAs (Decidable (∀ m ∈ s.allocMsgs[k]?, _))
  | .inject _ | .schedule _ | .stop | .launch _ | .addWg | .send _ | .insert _ |
    .endScheduling | .gather _ | .record _ | .generate _ _ => inferInstanceAs (Decidable True)

/-- A transaction in a block was reported by every follower it was allocated to, and no reply
to a batch with it leaves it out. -/
def AllOrNothing (s : Sys) : Prop :=
  ∀ b ∈ s.generated, ∀ tx ∈ b.body,
    (∀ a ∈ s.allocations, tx ∈ a.txs →
      ∃ r ∈ s.handled, r.allocation = a ∧ tx.txHash ∈ r.txHashs) ∧
    ∀ r ∈ s.answered, tx ∈ r.allocation.txs → tx.txHash ∈ r.txHashs

instance (s : Sys) : Decidable (AllOrNothing s) :=
  inferInstanceAs (Decidable (∀ b ∈ s.generated, ∀ tx ∈ b.body, _ ∧ _))

/-- A follower that refuses no transfer to another follower reports everything but transfers
between two of its own accounts. -/
theorem mem_reported (f : FollowerNode) (txs : List Transaction) (b : Address → ℤ)
    (hc : Transfers.CrossCovered (Owns f) b (txs.map toTransfer)) {tx : Transaction}
    (htx : tx ∈ txs) (hcross : ¬ (Owns f tx.sender ∧ Owns f tx.recipient)) :
    tx ∈ reported f b txs := by
  induction txs generalizing b with
  | nil => cases htx
  | cons u us ih =>
    rw [reported]
    rcases List.mem_cons.mp htx with rfl | htx
    · have hacc : accepts f b tx = true :=
        decide_eq_true fun hs => hc.1 hs fun hr => hcross ⟨hs, hr⟩
      rw [if_pos hacc]
      exact List.mem_cons_self
    · have hmem := ih _ hc.2 htx
      split_ifs
      · exact List.mem_cons_of_mem u hmem
      · exact hmem

/-- Both accounts of the transaction have the same owner. -/
def Local (n : ℕ) (tx : Transaction) : Prop := owner n tx.sender = owner n tx.recipient

theorem cross_reported_step (hf : ∀ i < n, (s.followers i).followerID = i ∧
      (s.followers i).followerNum = n) (hc : CallsInv n s)
    (hi : ∀ r ∈ s.answered, ∀ tx ∈ r.allocation.txs, ¬ Local n tx → tx.txHash ∈ r.txHashs)
    (hpos : 0 < n) (hg : coversCross s l) (h : Step cfg s l s') :
    ∀ r ∈ s'.answered, ∀ tx ∈ r.allocation.txs, ¬ Local n tx → tx.txHash ∈ r.txHashs := by
  cases h with
  | process k clk m f' txHashs txs hm hp =>
    have hcall := hc.routed _ (hc.sent (List.mem_of_getElem? hm))
    obtain ⟨hid, hnum⟩ := hf m.followerID hcall.1
    have hr := reply_allocation hid hp
    intro r hr' tx htx hcross
    simp only [Sys.answered, List.mem_append, List.mem_singleton] at hr'
    rcases hr' with (hr' | rfl) | hr'
    · exact hi r (List.mem_append_left _ hr') tx htx hcross
    · rw [hr] at htx
      -- the batch is hexadecimal, since only routed transactions are sent
      have hhex : ∀ t ∈ m.txs, HexLeading t.tx := fun t ht =>
        hexLeading_of_routedTo (hcall.2 t.tx (List.mem_map_of_mem ht)).2
      obtain ⟨st', out, hspec, -⟩ := processTxs_spec clk (s.followers m.followerID)
        (by rw [hnum]; exact hpos.ne') m.txs hhex
      rw [hp, Option.some.injEq, Prod.mk.injEq, Prod.mk.injEq] at hspec
      rw [hspec.2.1]
      refine List.mem_map_of_mem (mem_reported _ _ _ ?_ htx ?_)
      · have hcov := hg m (Option.mem_def.mpr hm)
        rwa [List.map_map]
      · rintro ⟨hs, hrec⟩
        rw [Owns, hnum] at hs hrec
        exact hcross (hs.trans hrec.symm)
    · exact hi r (List.mem_append_right _ hr') tx htx hcross
  | gatherPanic k r _ hr => exact fun x hx => hi x ((mem_answered_receive hr).mp hx)
  | gather k r pool moved times _ hr => exact fun x hx => hi x ((mem_answered_receive hr).mp hx)
  | _ => exact hi

theorem cross_reported (hcfg : cfg.Standard n) (h : Runs cfg n feed coversCross s) :
    ∀ r ∈ s.answered, ∀ tx ∈ r.allocation.txs, ¬ Local n tx → tx.txHash ∈ r.txHashs := by
  refine h.invariant ?_ fun s s' l hr hi hg hs =>
    cross_reported_step (followers_match hr) (callsInv hcfg hr) hi hcfg.pos hg hs
  rintro s ⟨times, chain, followers, rfl, -⟩
  exact nofun

/-- The transactions of a new batch are in no earlier call. -/
theorem batch_fresh (hfeed : feed.Nodup) (hr : Runs cfg n feed guard s) (hc : CallsInv n s)
    (hcfg : cfg.Standard n) {order : List Transaction} {allocMap : AllocMap}
    (hperm : order.Perm (localTxpool cfg s))
    (halloc : allocTxs cfg.followerIDs.length order = some allocMap) {a : Allocation}
    (ha : a ∈ tasksOf cfg (s.epochId + 1) allocMap) {tx : Transaction} (htx : tx ∈ a.txs) :
    tx ∈ localTxpool cfg s ∧ tx ∉ s.scheduled ∧ ∀ a' ∈ s.allocations, tx ∉ a'.txs := by
  rw [((mem_tasksOf hcfg halloc).mp ha).2.2, List.mem_filter] at htx
  have hmem := hperm.mem_iff.mp htx.1
  have hnot := not_mem_scheduled hfeed hr hmem
  exact ⟨hmem, hnot, fun a' ha' htx' => hnot ((hc.routed a' ha').2 tx htx').1⟩

/-- The calls with a given transaction belong to one epoch. -/
theorem same_epoch (hcfg : cfg.Standard n) (hfeed : feed.Nodup)
    (h : Runs cfg n feed guard s) : ∀ a ∈ s.allocations, ∀ a' ∈ s.allocations,
      ∀ tx ∈ a.txs, tx ∈ a'.txs → a.epochId = a'.epochId := by
  refine h.invariant ?_ ?_
  · rintro s ⟨times, chain, followers, rfl, -⟩
    exact nofun
  · intro s s' l hr hi _ hs
    cases hs with
    | batch order allocMap _ _ _ hperm halloc =>
      have hc := callsInv hcfg hr
      intro a ha a' ha' tx htx htx'
      rcases List.mem_append.mp ha with ha | ha <;> rcases List.mem_append.mp ha' with ha' | ha'
      · exact hi a ha a' ha' tx htx htx'
      · exact absurd htx ((batch_fresh hfeed hr hc hcfg hperm halloc ha' htx').2.2 a ha)
      · exact absurd htx' ((batch_fresh hfeed hr hc hcfg hperm halloc ha htx).2.2 a' ha')
      · rw [((mem_tasksOf hcfg halloc).mp ha).2.1, ((mem_tasksOf hcfg halloc).mp ha').2.1]
    | _ => exact hi

/-- When a transaction is in a block, all its calls have been answered and handled. -/
theorem included_handled (hcfg : cfg.Standard n) (hfeed : feed.Nodup)
    (h : Runs cfg n feed guard s) : ∀ b ∈ s.generated, ∀ tx ∈ b.body, ∀ a ∈ s.allocations,
      tx ∈ a.txs → ∃ r ∈ s.handled, r.allocation = a := by
  refine h.invariant ?_ ?_
  · rintro s ⟨times, chain, followers, rfl, -⟩
    exact nofun
  · intro s s' l hr hi _ hs
    have hc := callsInv hcfg hr
    cases hs with
    | batch order allocMap _ _ _ hperm halloc =>
      intro b hb tx htx a ha htx'
      rcases List.mem_append.mp ha with ha | ha
      · exact hi b hb tx htx a ha htx'
      · have hp := poolsInv hcfg hr
        have hsch := hp.scheduled tx (body_subset_appended hp hb htx)
        exact absurd hsch (batch_fresh hfeed hr hc hcfg hperm halloc ha htx').2.1
    | gatherPanic k r _ hrep =>
      intro b hb tx htx a ha htx'
      obtain ⟨x, hx, he⟩ := hi b hb tx htx a ha htx'
      exact ⟨x, List.mem_append_left _ hx, he⟩
    | gather k r pool moved times _ hrep =>
      intro b hb tx htx a ha htx'
      obtain ⟨x, hx, he⟩ := hi b hb tx htx a ha htx'
      exact ⟨x, List.mem_append_left _ hx, he⟩
    | block k e now b' done chain _ hk =>
      have hgen : s.generating ≠ [] := List.ne_nil_of_mem (List.mem_of_getElem? hk)
      exact fun b hb tx htx a ha htx' => all_handled hc (tokenInv hcfg hr) hgen ha
    | _ => exact hi

theorem fresh_runs (n : ℕ) (feed : List Transaction) (guard : Sys → Label → Prop) :
    Runs (standardConfig n) n feed guard (freshStart n feed) :=
  .start (freshStart_starts n feed)

/-- A transfer between the two followers of a system of two. -/
def crossTx (value : ℤ) : Transaction := ⟨"0a", "1b", 0, value, [7]⟩

/-- An epoch of two followers for one transaction, with every `TxAllocate` goroutine done
before the followers answer. -/
def orderlyEpoch (tx : Transaction) : List Label :=
  [.inject 0, .schedule [tx], .launch 0, .addWg, .launch 0, .addWg, .send 0, .send 0,
    .insert 0, .insert 0, .endScheduling, .process 0 ⟨id, id⟩, .process 0 ⟨id, id⟩, .gather 0,
    .gather 0, .record 0, .record 0, .generate 0 0]

/-- The condition on a reply: when `GatherTxs` runs on it, no `TxAllocate` goroutine has still
to insert a transaction that it reports. -/
def insertedAll (s : Sys) : Label → Prop
  | .gather k => ∀ r ∈ s.replies[k]?, ∀ a ∈ s.unfinished, ∀ tx ∈ a.txs, tx.txHash ∉ r.txHashs
  | _ => True

instance (s : Sys) : (l : Label) → Decidable (insertedAll s l)
  | .gather k => inferInstanceAs (Decidable (∀ r ∈ s.replies[k]?, _))
  | .inject _ | .schedule _ | .stop | .launch _ | .addWg | .send _ | .insert _ |
    .endScheduling | .process _ _ | .record _ | .generate _ _ =>
    inferInstanceAs (Decidable True)

/-- What was appended is in no place from which it could be appended again. -/
structure AppendedInv (s : Sys) : Prop where
  once : (s.appended.map (·.txHash)).Nodup
  gone : ∀ tx ∈ s.appended, s.allocatedTxpool.lookup tx.txHash = none
  settled : ∀ tx ∈ s.appended, ∀ a ∈ s.unfinished, ∀ u ∈ a.txs, u.txHash ≠ tx.txHash

theorem appendedInv_batch (hcfg : cfg.Standard n) (hfeed : (feed.map (·.txHash)).Nodup)
    (hr : Runs cfg n feed guard s) (hi : AppendedInv s) {order : List Transaction}
    {allocMap : AllocMap} (hsel : s.main = .select) (hperm : order.Perm (localTxpool cfg s))
    (halloc : allocTxs cfg.followerIDs.length order = some allocMap) :
    AppendedInv (startTasks cfg s allocMap) := by
  obtain ⟨-, hs, hin⟩ := (tasksInv hr).none_left (.inl hsel)
  refine ⟨hi.once, hi.gone, ?_⟩
  intro tx htx a ha u hu heq
  simp only [Sys.unfinished, startTasks, takeBatch, hs, hin, List.append_nil] at ha
  obtain ⟨hmem, hnot, -⟩ := batch_fresh (List.Nodup.of_map _ hfeed) hr (callsInv hcfg hr) hcfg
    hperm halloc ha hu
  have hsch := (poolsInv hcfg hr).scheduled tx htx
  have he : u = tx := List.inj_on_of_nodup_map hfeed (mem_feed_of_localTxpool hr hmem)
    (mem_feed_of_scheduled hr hsch) heq
  exact hnot (he ▸ hsch)

theorem appendedInv_gather {k : ℕ} {r : PrecessedTxMsgs}
    {pool : Finmap fun _ : Hash => Transaction} {moved : List Transaction}
    {times : Transaction → TxTimes} (hp : PoolsInv s) (hi : AppendedInv s)
    (hg : ∀ a ∈ s.unfinished, ∀ tx ∈ a.txs, tx.txHash ∉ r.txHashs)
    (hres : GatherResult s.allocatedTxpool r.txHashs pool moved) :
    AppendedInv { receive s k r with
      allocatedTxpool := pool
      processedTxpool := s.processedTxpool ++ moved
      appended := s.appended ++ moved
      times := times } := by
  -- what is moved was in the pool under its own hash
  have hmoved : ∀ tx ∈ moved, tx.txHash ∈ r.txHashs ∧
      s.allocatedTxpool.lookup tx.txHash = some tx := by
    intro tx htx
    obtain ⟨h, hh, hl⟩ := hres.source tx htx
    have he := (hp.keyed h tx hl).1
    exact ⟨he ▸ hh, he ▸ hl⟩
  refine ⟨?_, ?_, ?_⟩
  · show ((s.appended ++ moved).map (·.txHash)).Nodup
    rw [List.map_append, List.nodup_append]
    refine ⟨hi.once, hres.once fun h tx hl => (hp.keyed h tx hl).1, ?_⟩
    intro h hh g hg' heq
    obtain ⟨tx, htx, rfl⟩ := List.mem_map.mp hh
    obtain ⟨u, hu, rfl⟩ := List.mem_map.mp hg'
    have hgone := hi.gone tx htx
    rw [heq, (hmoved u hu).2] at hgone
    cases hgone
  · intro tx htx
    show pool.lookup tx.txHash = none
    by_cases hh : tx.txHash ∈ r.txHashs
    · exact hres.gone _ hh
    · rcases List.mem_append.mp htx with htx | htx
      · rw [hres.other _ hh]
        exact hi.gone tx htx
      · exact absurd (hmoved tx htx).1 hh
  · intro tx htx a ha u hu heq
    rcases List.mem_append.mp htx with htx | htx
    · exact hi.settled tx htx a ha u hu heq
    · exact hg a ha u hu (heq ▸ (hmoved tx htx).1)

theorem appendedInv_step (hcfg : cfg.Standard n) (hfeed : (feed.map (·.txHash)).Nodup)
    (hr : Runs cfg n feed guard s) (hi : AppendedInv s) (hg : insertedAll s l)
    (h : Step cfg s l s') : AppendedInv s' := by
  cases h with
  | batch order allocMap hsel _ _ hperm halloc =>
    exact appendedInv_batch hcfg hfeed hr hi hsel hperm halloc
  | launch k batch a _ _ ha =>
    exact ⟨hi.once, hi.gone,
      fun tx htx x hx => hi.settled tx htx x ((mem_unfinished_launch ha).mp hx)⟩
  | send k a _ ha =>
    exact ⟨hi.once, hi.gone,
      fun tx htx x hx => hi.settled tx htx x ((mem_unfinished_send ha).mp hx)⟩
  | skip k a main wg _ ha hready => exact absurd ((callsInv hcfg hr).ready hcfg ha) hready
  | insert k a main wg _ ha =>
    refine ⟨hi.once, ?_, ?_⟩
    · intro tx htx
      have hset := hi.settled tx htx a ((mem_unfinished_insert ha).mpr (.inl rfl))
      rcases insertAll_lookup a.txs s.allocatedTxpool tx.txHash with ⟨u, hu, he, -⟩ | ⟨-, hl⟩
      · exact absurd he (hset u hu)
      · exact hl.trans (hi.gone tx htx)
    · exact fun tx htx x hx =>
        hi.settled tx htx x ((mem_unfinished_insert ha).mpr (.inr hx))
  | gather k r pool moved times _ hrep hres =>
    exact appendedInv_gather (poolsInv hcfg hr) hi (hg r (Option.mem_def.mpr hrep)) hres
  | _ => exact ⟨hi.once, hi.gone, hi.settled⟩

/-- **No duplicate inclusion.**  When `GatherTxs` only runs on replies whose transactions every
`TxAllocate` goroutine has inserted, no transaction is appended to `ProcessedTxpool` twice, and
none is in the blocks twice. -/
theorem appended_once (hcfg : cfg.Standard n) (hfeed : (feed.map (·.txHash)).Nodup)
    (h : Runs cfg n feed insertedAll s) :
    s.appended.Nodup ∧ (s.generated.flatMap (·.body)).Nodup := by
  have hi : AppendedInv s := by
    refine h.invariant ?_ fun s s' l hr hi hg hs => appendedInv_step hcfg hfeed hr hi hg hs
    rintro s ⟨times, chain, followers, rfl, -⟩
    exact ⟨List.nodup_nil, nofun, nofun⟩
  have hnd := List.Nodup.of_map _ hi.once
  refine ⟨hnd, ?_⟩
  rw [← (poolsInv hcfg h).bodies] at hnd
  exact (List.nodup_append.mp hnd).1

/-- In the orderly epoch the transaction is in the block once. -/
theorem appended_once_orderly :
    ∃ s, Runs (standardConfig 2) 2 [crossTx 5] insertedAll s ∧ s.appended = [crossTx 5] ∧
      s.appended.Nodup ∧ (s.generated.flatMap (·.body)).Nodup := by
  obtain ⟨s, hr, hp⟩ := exists_reach_of_run (orderlyEpoch (crossTx 5))
    (fun s : Sys => s.appended = [crossTx 5])
    (fresh_runs 2 [crossTx 5] insertedAll) (by decide +kernel)
  exact ⟨s, hr, hp, appended_once (standardConfig_standard (by decide)) (by decide) hr⟩

/-- The reply of one follower is handled before the `TxAllocate` goroutine of the other one has
inserted the transaction, which puts it back for the second reply. -/
theorem appended_twice :
    ∃ s, Runs (standardConfig 2) 2 [crossTx 5] anyStep s ∧
      s.generated.map (·.body) = [[crossTx 5, crossTx 5]] ∧
      ¬ (s.appended.Nodup ∧ (s.generated.flatMap (·.body)).Nodup) :=
  exists_reach_of_run
    [.inject 0, .schedule [crossTx 5], .launch 0, .addWg, .launch 0, .addWg, .send 0, .send 0,
      .insert 0, .process 0 ⟨id, id⟩, .gather 0, .insert 0, .endScheduling,
      .process 0 ⟨id, id⟩, .gather 0, .record 0, .record 0, .generate 0 0]
    (fun s : Sys => s.generated.map (·.body) = [[crossTx 5, crossTx 5]] ∧
      ¬ (s.appended.Nodup ∧ (s.generated.flatMap (·.body)).Nodup))
    (fresh_runs 2 [crossTx 5] anyStep) (by decide +kernel)

/-! ### No loss -/

/-- The condition on a reply: when `GatherTxs` runs on it, the `TxAllocate` goroutine that sent
the batch has inserted it.  The `wg.Add(1)` of a goroutine also has to come before its
`wg.Done`. -/
def insertedOwn (s : Sys) : Label → Prop
  | .gather k => ∀ r ∈ s.replies[k]?, r.allocation ∉ s.unfinished
  | .insert _ => 0 < s.wg
  | _ => True

instance (s : Sys) : (l : Label) → Decidable (insertedOwn s l)
  | .gather k => inferInstanceAs (Decidable (∀ r ∈ s.replies[k]?, _))
  | .insert _ => inferInstanceAs (Decidable (0 < s.wg))
  | .inject _ | .schedule _ | .stop | .launch _ | .addWg | .send _ | .endScheduling |
    .process _ _ | .record _ | .generate _ _ => inferInstanceAs (Decidable True)

/-- A reply to a batch with the transaction is still to come or to be handled. -/
def ReplyOutstanding (s : Sys) (tx : Transaction) : Prop :=
  ∃ a ∈ s.launching ++ s.starting ++ s.allocMsgs.map (·.allocation) ++
    s.replies.map (·.allocation), tx ∈ a.txs

instance (s : Sys) (tx : Transaction) : Decidable (ReplyOutstanding s tx) :=
  inferInstanceAs (Decidable (∃ a ∈ _, _))

/-- The batch that `SchedulingTxs` is working on. -/
def Sys.currentBatch (s : Sys) : List Transaction :=
  match s.main with
  | .scheduling batch => batch
  | _ => []

/-- The places of a transaction that was put into `PendingTxpool`. -/
def Accounted (s : Sys) (tx : Transaction) : Prop :=
  tx ∈ s.pendingTxpool ∨ tx ∈ s.currentBatch ∨
    (s.allocatedTxpool.lookup tx.txHash = some tx ∧ ReplyOutstanding s tx) ∨
    tx ∈ s.processedTxpool ∨ tx ∈ s.generated.flatMap (·.body) ∨
    ∃ r ∈ s.handled, tx ∈ r.allocation.txs ∧ tx.txHash ∉ r.txHashs

instance (s : Sys) (tx : Transaction) : Decidable (Accounted s tx) :=
  inferInstanceAs (Decidable (_ ∨ _))

/-- Every transaction that ever was in `PendingTxpool` is accounted for, and every hash that a
follower reported has reached `ProcessedTxpool`. -/
def NoLoss (s : Sys) : Prop :=
  (∀ tx ∈ s.scheduled ++ s.pendingTxpool, Accounted s tx) ∧
    ∀ r ∈ s.handled, ∀ h ∈ r.txHashs,
      h ∈ (s.generated.flatMap (·.body) ++ s.processedTxpool).map (·.txHash)

instance (s : Sys) : Decidable (NoLoss s) := inferInstanceAs (Decidable (_ ∧ _))

/-- Where the transactions of the calls are. -/
structure StoredInv (s : Sys) : Prop where
  running : s.main ≠ .crashed
  batch : ∀ a ∈ s.unfinished, ∀ tx ∈ a.txs, tx ∈ s.currentBatch
  stored : ∀ a ∈ s.allocations, a ∉ s.unfinished → ∀ tx ∈ a.txs,
    s.allocatedTxpool.lookup tx.txHash = some tx ∨ tx ∈ s.appended
  called : ∀ tx ∈ s.scheduled, ∃ a ∈ s.allocations, tx ∈ a.txs
  reported : ∀ r ∈ s.handled, ∀ h ∈ r.txHashs, h ∈ s.appended.map (·.txHash)

theorem storedInv_batch (hcfg : cfg.Standard n) (hr : Runs cfg n feed guard s)
    (hhex : ∀ tx ∈ feed, HexLeading tx) (hi : StoredInv s) {order : List Transaction}
    {allocMap : AllocMap} (hsel : s.main = .select) (hperm : order.Perm (localTxpool cfg s))
    (halloc : allocTxs cfg.followerIDs.length order = some allocMap) :
    StoredInv (startTasks cfg s allocMap) := by
  obtain ⟨hl, hs, hin⟩ := (tasksInv hr).none_left (.inl hsel)
  have hunf : (startTasks cfg s allocMap).unfinished = tasksOf cfg (s.epochId + 1) allocMap := by
    simp only [Sys.unfinished, startTasks, takeBatch, hs, hin, List.append_nil]
  have hrunning : (startTasks cfg s allocMap).main ≠ .crashed := by
    intro hcrashed
    cases hcrashed
  refine ⟨hrunning, ?_, ?_, ?_, hi.reported⟩
  · intro a ha tx htx
    rw [hunf] at ha
    rw [((mem_tasksOf hcfg halloc).mp ha).2.2, List.mem_filter] at htx
    exact hperm.mem_iff.mp htx.1
  · intro a ha hnot tx htx
    rcases List.mem_append.mp ha with ha | ha
    · refine hi.stored a ha ?_ tx htx
      rw [Sys.unfinished, (tasksInv hr).unfinished_nil (.inl hsel)]
      exact List.not_mem_nil
    · rw [hunf] at hnot
      exact absurd ha hnot
  · intro tx htx
    rcases List.mem_append.mp htx with htx | htx
    · obtain ⟨a, ha, hmem⟩ := hi.called tx htx
      exact ⟨a, List.mem_append_left _ ha, hmem⟩
    · -- the owner of the sender gets the transaction
      have hx := hhex tx (mem_feed_of_localTxpool hr htx)
      obtain ⟨dec1, dec2, h1, -, -⟩ := prefixes_of_hexLeading tx hx
      have hown : owner n tx.sender = some (dec1 % n) := by rw [owner, h1]; rfl
      refine ⟨⟨s.epochId + 1, dec1 % n, order.filter (routedTo n (dec1 % n))⟩, ?_, ?_⟩
      · exact List.mem_append_right _
          ((mem_tasksOf hcfg halloc).mpr ⟨Nat.mod_lt _ hcfg.pos, rfl, rfl⟩)
      · refine List.mem_filter.mpr ⟨hperm.mem_iff.mpr htx, ?_⟩
        exact (routedTo_iff n _ tx hx).mpr (.inl hown)

theorem storedInv_insert (hcfg : cfg.Standard n) (hfeed : (feed.map (·.txHash)).Nodup)
    (hr : Runs cfg n feed guard s) (hi : StoredInv s) {k wg : ℕ} {a : Allocation}
    (ha : s.inserting[k]? = some a) :
    StoredInv { s with
      inserting := s.inserting.eraseIdx k
      allocatedTxpool := insertAll s.allocatedTxpool a.txs
      wg := wg } := by
  have hc := callsInv hcfg hr
  have hcall := hc.inserting a (List.mem_of_getElem? ha)
  -- an insert under the hash of a scheduled transaction is an insert of that transaction
  have hsame : ∀ u ∈ a.txs, ∀ tx ∈ s.scheduled, u.txHash = tx.txHash → u = tx :=
    fun u hu tx htx he => eq_of_txHash hfeed hr ((hc.routed a hcall).2 u hu).1 htx he
  refine ⟨hi.running, ?_, ?_, hi.called, hi.reported⟩
  · exact fun x hx => hi.batch x ((mem_unfinished_insert ha).mpr (.inr hx))
  · intro x hx hnot tx htx
    have hsch := ((hc.routed x hx).2 tx htx).1
    rcases insertAll_lookup a.txs s.allocatedTxpool tx.txHash with ⟨u, hu, he, hl⟩ | ⟨hne, hl⟩
    · obtain rfl := hsame u hu tx hsch he
      exact .inl hl
    · have hxa : x ≠ a := by
        rintro rfl
        exact hne tx htx rfl
      have hold : x ∉ s.unfinished := by
        intro hmem
        rcases (mem_unfinished_insert ha).mp hmem with rfl | hmem
        · exact hxa rfl
        · exact hnot hmem
      rcases hi.stored x hx hold tx htx with h | h
      · exact .inl (hl.trans h)
      · exact .inr h

theorem storedInv_gather (hcfg : cfg.Standard n) (hr : Runs cfg n feed guard s)
    (hi : StoredInv s) {k : ℕ} {r : PrecessedTxMsgs}
    {pool : Finmap fun _ : Hash => Transaction} {moved : List Transaction}
    {times : Transaction → TxTimes} (hrep : s.replies[k]? = some r)
    (hg : r.allocation ∉ s.unfinished)
    (hres : GatherResult s.allocatedTxpool r.txHashs pool moved) :
    StoredInv { receive s k r with
      allocatedTxpool := pool
      processedTxpool := s.processedTxpool ++ moved
      appended := s.appended ++ moved
      times := times } := by
  have hc := callsInv hcfg hr
  have hans : r ∈ s.answered := List.mem_append_left _ (List.mem_of_getElem? hrep)
  refine ⟨hi.running, hi.batch, ?_, hi.called, ?_⟩
  · intro a ha hnot tx htx
    rcases hi.stored a ha hnot tx htx with h | h
    · by_cases hh : tx.txHash ∈ r.txHashs
      · exact .inr (List.mem_append_right _ (hres.complete _ hh tx h))
      · exact .inl ((hres.other _ hh).trans h)
    · exact .inr (List.mem_append_left _ h)
  · intro x hx h hh
    show h ∈ (s.appended ++ moved).map (·.txHash)
    rw [List.map_append, List.mem_append]
    rcases List.mem_append.mp hx with hx | hx
    · exact .inl (hi.reported x hx h hh)
    · obtain rfl := List.mem_singleton.mp hx
      -- the reply's own batch has been inserted
      obtain ⟨tx, htx, rfl⟩ := hc.mem_of_reported hans hh
      rcases hi.stored _ (hc.answered hans) hg tx htx with h | h
      · exact .inr (List.mem_map_of_mem (hres.complete _ hh tx h))
      · exact .inl (List.mem_map_of_mem h)

theorem storedInv_step (hcfg : cfg.Standard n) (hfeed : (feed.map (·.txHash)).Nodup)
    (hhex : ∀ tx ∈ feed, HexLeading tx) (hr : Runs cfg n feed guard s) (hi : StoredInv s)
    (hg : insertedOwn s l) (h : Step cfg s l s') : StoredInv s' := by
  cases h with
  | emptyRound order main signals hsel _ _ hround =>
    have hnil := (tasksInv hr).unfinished_nil (.inl hsel)
    refine ⟨?_, ?_, hi.stored, hi.called, hi.reported⟩
    · rcases hround with ⟨-, rfl, -⟩ | ⟨-, rfl, -⟩ <;> exact nofun
    · intro a ha
      have ha' : a ∈ s.launching ++ s.starting ++ s.inserting := ha
      rw [hnil] at ha'
      cases ha'
  | badBatch order _ _ _ hperm hnone =>
    exact absurd hnone (allocTxs_ne_none hcfg fun tx htx => prefixes_ne_outOfRange
      (hhex tx (mem_feed_of_localTxpool hr (hperm.mem_iff.mp htx))))
  | batch order allocMap hsel _ _ hperm halloc =>
    exact storedInv_batch hcfg hr hhex hi hsel hperm halloc
  | launch k batch a _ _ ha =>
    exact ⟨hi.running, fun x hx => hi.batch x ((mem_unfinished_launch ha).mp hx),
      fun x hx hnot => hi.stored x hx fun h => hnot ((mem_unfinished_launch ha).mpr h),
      hi.called, hi.reported⟩
  | endScheduling batch hm hl hadd hw =>
    have hlen := (tasksInv hr).counted hi.running
    rw [hadd, hw] at hlen
    have hs : s.starting = [] := List.length_eq_zero_iff.mp (by simp at hlen; omega)
    have hin : s.inserting = [] := List.length_eq_zero_iff.mp (by simp at hlen; omega)
    refine ⟨nofun, ?_, hi.stored, hi.called, hi.reported⟩
    intro a ha
    simp only [Sys.unfinished, hl, hs, hin, List.append_nil] at ha
    cases ha
  | send k a _ ha =>
    exact ⟨hi.running, fun x hx => hi.batch x ((mem_unfinished_send ha).mp hx),
      fun x hx hnot => hi.stored x hx fun h => hnot ((mem_unfinished_send ha).mpr h),
      hi.called, hi.reported⟩
  | skip k a main wg _ ha hready => exact absurd ((callsInv hcfg hr).ready hcfg ha) hready
  | insert k a main wg _ ha hd =>
    have hpos : 0 < s.wg := hg
    rcases hd with ⟨h0, -, -⟩ | ⟨-, rfl, rfl⟩
    · omega
    · exact storedInv_insert hcfg hfeed hr hi ha
  | gatherPanic k r _ hrep hlen =>
    have hle := (callsInv hcfg hr).reply_length
      (List.mem_append_left _ (List.mem_of_getElem? hrep))
    omega
  | gather k r pool moved times _ hrep hres =>
    exact storedInv_gather hcfg hr hi hrep (hg r (Option.mem_def.mpr hrep)) hres
  | _ => exact ⟨hi.running, hi.batch, hi.stored, hi.called, hi.reported⟩

theorem storedInv (hcfg : cfg.Standard n) (hfeed : (feed.map (·.txHash)).Nodup)
    (hhex : ∀ tx ∈ feed, HexLeading tx) (h : Runs cfg n feed insertedOwn s) : StoredInv s := by
  refine h.invariant ?_ fun s s' l hr hi hg hs => storedInv_step hcfg hfeed hhex hr hi hg hs
  rintro s ⟨times, chain, followers, rfl, -⟩
  exact ⟨nofun, nofun, nofun, nofun, nofun⟩

theorem accounted_of_appended (hp : PoolsInv s) {tx : Transaction} (h : tx ∈ s.appended) :
    Accounted s tx := by
  rw [← hp.bodies] at h
  rcases List.mem_append.mp h with h | h
  · exact .inr (.inr (.inr (.inr (.inl h))))
  · exact .inr (.inr (.inr (.inl h)))

/-- A transaction of a call is accounted for, wherever the call is. -/
theorem accounted_of_call (hcfg : cfg.Standard n) (hfeed : (feed.map (·.txHash)).Nodup)
    (hr : Runs cfg n feed guard s) (hi : StoredInv s) {a : Allocation} (ha : a ∈ s.allocations)
    {tx : Transaction} (htx : tx ∈ a.txs) : Accounted s tx := by
  have hc := callsInv hcfg hr
  have hp := poolsInv hcfg hr
  by_cases hunf : a ∈ s.unfinished
  · exact .inr (.inl (hi.batch a hunf tx htx))
  · rcases hi.stored a ha hunf tx htx with hl | h
    · rcases hc.tracked ha with h | ⟨m, hm, rfl⟩ | ⟨r, hrep, rfl⟩ | ⟨r, hrep, rfl⟩
      · exact absurd h hunf
      · refine .inr (.inr (.inl ⟨hl, m.allocation, ?_, htx⟩))
        exact List.mem_append_left _ (List.mem_append_right _ (List.mem_map_of_mem hm))
      · refine .inr (.inr (.inl ⟨hl, r.allocation, ?_, htx⟩))
        exact List.mem_append_right _ (List.mem_map_of_mem hrep)
      · by_cases hh : tx.txHash ∈ r.txHashs
        · obtain ⟨u, hu, he⟩ := List.mem_map.mp (hi.reported r hrep _ hh)
          obtain rfl : u = tx :=
            eq_of_txHash hfeed hr (hp.scheduled u hu) ((hc.routed _ ha).2 tx htx).1 he
          exact accounted_of_appended hp hu
        · exact .inr (.inr (.inr (.inr (.inr ⟨r, hrep, htx, hh⟩))))
    · exact accounted_of_appended hp h

/-- **No lost transaction.**  When `GatherTxs` only runs on replies whose own batch has been
inserted, and no goroutine is done before it was counted, every transaction that ever was in
`PendingTxpool` is accounted for, and every reported one reaches `ProcessedTxpool`. -/
theorem no_transaction_lost (hcfg : cfg.Standard n) (hfeed : (feed.map (·.txHash)).Nodup)
    (hhex : ∀ tx ∈ feed, HexLeading tx) (h : Runs cfg n feed insertedOwn s) : NoLoss s := by
  have hi := storedInv hcfg hfeed hhex h
  refine ⟨fun tx htx => ?_, fun r hr x hx => ?_⟩
  · rcases List.mem_append.mp htx with htx | htx
    · obtain ⟨a, ha, hmem⟩ := hi.called tx htx
      exact accounted_of_call hcfg hfeed h hi ha hmem
    · exact .inl htx
  · rw [(poolsInv hcfg h).bodies]
    exact hi.reported r hr x hx

/-- The orderly epoch loses nothing. -/
theorem no_transaction_lost_orderly :
    ∃ s, Runs (standardConfig 2) 2 [crossTx 5] insertedOwn s ∧ s.scheduled = [crossTx 5] ∧
      NoLoss s := by
  obtain ⟨s, hr, hp⟩ := exists_reach_of_run (orderlyEpoch (crossTx 5))
    (fun s : Sys => s.scheduled = [crossTx 5])
    (fresh_runs 2 [crossTx 5] insertedOwn) (by decide +kernel)
  exact ⟨s, hr, hp,
    no_transaction_lost (standardConfig_standard (by decide)) (by decide) (by decide) hr⟩

/-- A transfer between two accounts of one follower. -/
def localTx (value : ℤ) : Transaction := ⟨"0a", "0b", 0, value, [7]⟩

/-- The reply is handled before the `TxAllocate` goroutine of its own batch has inserted the
transaction: the reported hash is not found, and the transaction stays in `AllocatedTxpool`
with no reply to come. -/
theorem transaction_lost :
    ∃ s, Runs (standardConfig 1) 1 [localTx 5] anyStep s ∧
      s.handled.map (·.txHashs) = [[[7]]] ∧ s.appended = [] ∧ s.main = .select ∧ ¬ NoLoss s :=
  exists_reach_of_run
    [.inject 0, .schedule [localTx 5], .launch 0, .addWg, .send 0, .process 0 ⟨id, id⟩,
      .gather 0, .insert 0, .endScheduling, .record 0, .generate 0 0]
    (fun s : Sys => s.handled.map (·.txHashs) = [[[7]]] ∧ s.appended = [] ∧ s.main = .select ∧
      ¬ NoLoss s)
    (fresh_runs 1 [localTx 5] anyStep) (by decide +kernel)

end Aster.SubMPT
