import Aster.SubMPT.Proposer

/-!
# What each step of the proposer system can do

`Step` lists the outcomes of the labels as rules on the state, and `step_cases` says that the
step function does nothing else.  The invariants are proved from the rules, without unfolding a
step again.
-/

namespace Aster.SubMPT

open Aster.Core Aster.Lib

/-! ### `GatherTxs` -/

/-- What the loop of `GatherTxs` does with the hashes `hs` on the pool it finds: `moved` are the
transactions it appends to `ProcessedTxpool`, `pool` is what is left of `AllocatedTxpool`. -/
structure GatherResult (before : Finmap fun _ : Hash => Transaction) (hs : List Hash)
    (pool : Finmap fun _ : Hash => Transaction) (moved : List Transaction) : Prop where
  other : ∀ h, h ∉ hs → pool.lookup h = before.lookup h
  gone : ∀ h ∈ hs, pool.lookup h = none
  source : ∀ tx ∈ moved, ∃ h ∈ hs, before.lookup h = some tx
  complete : ∀ h ∈ hs, ∀ tx, before.lookup h = some tx → tx ∈ moved
  /-- In a pool keyed by hash, nothing is moved twice. -/
  once : (∀ h tx, before.lookup h = some tx → tx.txHash = h) → (moved.map (·.txHash)).Nodup

theorem GatherResult.skip {before pool : Finmap fun _ : Hash => Transaction} {h : Hash}
    {hs : List Hash} {moved : List Transaction} (hb : before.lookup h = none)
    (hr : GatherResult (before.erase h) hs pool moved) :
    GatherResult before (h :: hs) pool moved := by
  have herase : ∀ g, (before.erase h).lookup g = before.lookup g := by
    intro g
    by_cases hg : g = h
    · subst hg
      rw [Finmap.lookup_erase, hb]
    · rw [Finmap.lookup_erase_ne hg]
  refine ⟨?_, ?_, ?_, ?_, ?_⟩
  · intro g hg
    rw [List.mem_cons, not_or] at hg
    rw [hr.other g hg.2, herase]
  · intro g hg
    by_cases hgs : g ∈ hs
    · exact hr.gone g hgs
    · rcases List.mem_cons.mp hg with rfl | hg'
      · rw [hr.other g hgs, herase, hb]
      · exact absurd hg' hgs
  · intro tx htx
    obtain ⟨g, hg, he⟩ := hr.source tx htx
    exact ⟨g, List.mem_cons_of_mem h hg, by rw [← herase, he]⟩
  · intro g hg tx he
    rcases List.mem_cons.mp hg with rfl | hg'
    · rw [hb] at he
      cases he
    · exact hr.complete g hg' tx (by rw [herase, he])
  · intro hkey
    exact hr.once fun g tx he => hkey g tx (by rw [← herase, he])

theorem GatherResult.move {before pool : Finmap fun _ : Hash => Transaction} {h : Hash}
    {hs : List Hash} {tx : Transaction} {moved : List Transaction}
    (hb : before.lookup h = some tx) (hr : GatherResult (before.erase h) hs pool moved) :
    GatherResult before (h :: hs) pool (tx :: moved) := by
  refine ⟨?_, ?_, ?_, ?_, ?_⟩
  · intro g hg
    rw [List.mem_cons, not_or] at hg
    rw [hr.other g hg.2, Finmap.lookup_erase_ne hg.1]
  · intro g hg
    by_cases hgs : g ∈ hs
    · exact hr.gone g hgs
    · rcases List.mem_cons.mp hg with rfl | hg'
      · rw [hr.other g hgs, Finmap.lookup_erase]
      · exact absurd hg' hgs
  · intro u hu
    rcases List.mem_cons.mp hu with rfl | hu'
    · exact ⟨h, List.mem_cons_self, hb⟩
    · obtain ⟨g, hg, he⟩ := hr.source u hu'
      have hne : g ≠ h := by
        rintro rfl
        rw [Finmap.lookup_erase] at he
        cases he
      exact ⟨g, List.mem_cons_of_mem h hg, by rw [← Finmap.lookup_erase_ne hne, he]⟩
  · intro g hg u he
    by_cases hgh : g = h
    · subst hgh
      rw [hb] at he
      exact List.mem_cons.mpr (.inl (Option.some.inj he).symm)
    · rcases List.mem_cons.mp hg with rfl | hg'
      · exact absurd rfl hgh
      · exact List.mem_cons_of_mem tx
          (hr.complete g hg' u (by rw [Finmap.lookup_erase_ne hgh, he]))
  · intro hkey
    have hkey' : ∀ g u, (before.erase h).lookup g = some u → u.txHash = g := by
      intro g u he
      have hne : g ≠ h := by
        rintro rfl
        rw [Finmap.lookup_erase] at he
        cases he
      exact hkey g u (by rw [← Finmap.lookup_erase_ne hne, he])
    rw [List.map_cons, List.nodup_cons]
    refine ⟨?_, hr.once hkey'⟩
    intro hmem
    obtain ⟨u, hu, hue⟩ := List.mem_map.mp hmem
    obtain ⟨g, _, he⟩ := hr.source u hu
    have hgh : g = h := by rw [← hkey' g u he, hue, hkey h tx hb]
    rw [hgh, Finmap.lookup_erase] at he
    cases he

/-- **`GatherTxs`.**  Only the two pools and the timestamps change, and they change as
`GatherResult` says. -/
theorem gatherTxs_some (hs : List Hash) (ts : List TimedTx) (s s' : Sys)
    (h : gatherTxs s hs ts = some s') :
    ∃ pool moved times, GatherResult s.allocatedTxpool hs pool moved ∧ s' = { s with
      allocatedTxpool := pool
      processedTxpool := s.processedTxpool ++ moved
      appended := s.appended ++ moved
      times := times } := by
  induction hs generalizing s ts with
  | nil =>
    rw [gatherTxs, Option.some.injEq] at h
    refine ⟨s.allocatedTxpool, [], s.times, ⟨?_, ?_, ?_, ?_, ?_⟩, ?_⟩
    · exact fun _ _ => rfl
    · simp
    · simp
    · simp
    · simp
    · simp [← h]
  | cons g gs ih =>
    rw [gatherTxs] at h
    split at h
    · rename_i hb
      obtain ⟨pool, moved, times, hr, rfl⟩ := ih _ _ h
      exact ⟨pool, moved, times, hr.skip hb, rfl⟩
    · rename_i tx hb
      split at h
      · cases h
      · obtain ⟨pool, moved, times, hr, rfl⟩ := ih _ _ h
        refine ⟨pool, tx :: moved, times, hr.move hb, ?_⟩
        simp

theorem gatherTxs_isSome (hs : List Hash) (ts : List TimedTx) (s : Sys)
    (hlen : hs.length ≤ ts.length) : ∃ s', gatherTxs s hs ts = some s' := by
  induction hs generalizing s ts with
  | nil => exact ⟨s, rfl⟩
  | cons g gs ih =>
    cases ts with
    | nil => simp at hlen
    | cons t ts =>
      have hlen' : gs.length ≤ ts.length := by simpa using hlen
      rw [gatherTxs]
      split
      · exact ih ts _ hlen'
      · exact ih ts _ hlen'

/-! ### The rules -/

/-- The allocation a message carries. -/
def AllocateTxMsgs.allocation (m : AllocateTxMsgs) : Allocation :=
  ⟨m.epochId, m.followerID, m.txs.map (·.tx)⟩

/-- The allocation a reply answers. -/
def PrecessedTxMsgs.allocation (r : PrecessedTxMsgs) : Allocation :=
  ⟨r.epochId, r.followerID, r.txs.map (·.tx)⟩

@[simp] theorem message_allocation (a : Allocation) (times : Transaction → TxTimes) :
    (a.message times).allocation = a := by
  simp [Allocation.message, AllocateTxMsgs.allocation, Function.comp_def]

/-- The outcomes of `wg.Done`: the state of the process and the counter. -/
def WgDone (s : Sys) (main : MainState) (wg : ℕ) : Prop :=
  s.wg = 0 ∧ main = .crashed ∧ wg = 0 ∨ 0 < s.wg ∧ main = s.main ∧ wg = s.wg - 1

/-- The outcomes of an empty round: the state of the process and the signals. -/
def EmptyRound (s : Sys) (main : MainState) (signals : ℕ) : Prop :=
  9 ≤ s.poollencount ∧ main = .stopping ∧ signals = s.signals - 1 ∨
    s.poollencount < 9 ∧ main = .select ∧ signals = s.signals

/-- The rules of the system: what a step with each label can do. -/
inductive Step (cfg : Config) (s : Sys) : Label → Sys → Prop
  | inject (now : Time) (times : Transaction → TxTimes) :
      Step cfg s (.inject now) { s with
        txs := s.txs.drop cfg.injectSpeed
        pendingTxpool := s.pendingTxpool ++ s.txs.take cfg.injectSpeed
        times := times }
  | emptyRound (order : List Transaction) (main : MainState) (signals : ℕ) :
      s.main = .select → 0 < s.signals → s.pendingTxpool = [] → EmptyRound s main signals →
      Step cfg s (.schedule order) { s with
        poollencount := s.poollencount + 1
        main := main
        signals := signals }
  | badBatch (order : List Transaction) :
      s.main = .select → 0 < s.signals → s.pendingTxpool ≠ [] → order.Perm (localTxpool cfg s) →
      allocTxs cfg.followerIDs.length order = none →
      Step cfg s (.schedule order) { takeBatch cfg s with main := .crashed }
  | batch (order : List Transaction) (allocMap : AllocMap) :
      s.main = .select → 0 < s.signals → s.pendingTxpool ≠ [] → order.Perm (localTxpool cfg s) →
      allocTxs cfg.followerIDs.length order = some allocMap →
      Step cfg s (.schedule order) (startTasks cfg s allocMap)
  | launch (k : ℕ) (batch : List Transaction) (a : Allocation) :
      s.main = .scheduling batch → s.adding = false → s.launching[k]? = some a →
      Step cfg s (.launch k) { s with
        launching := s.launching.eraseIdx k
        starting := s.starting ++ [a]
        adding := true }
  | addWg (batch : List Transaction) :
      s.main = .scheduling batch → s.adding = true →
      Step cfg s .addWg { s with adding := false, wg := s.wg + 1 }
  | endScheduling (batch : List Transaction) :
      s.main = .scheduling batch → s.launching = [] → s.adding = false → s.wg = 0 →
      Step cfg s .endScheduling { s with main := .select }
  | send (k : ℕ) (a : Allocation) :
      s.main ≠ .crashed → s.starting[k]? = some a → a.followerID ∈ cfg.readyMap →
      Step cfg s (.send k) { s with
        starting := s.starting.eraseIdx k
        inserting := s.inserting ++ [a]
        allocMsgs := s.allocMsgs ++ [a.message s.times] }
  | skip (k : ℕ) (a : Allocation) (main : MainState) (wg : ℕ) :
      s.main ≠ .crashed → s.starting[k]? = some a → a.followerID ∉ cfg.readyMap →
      WgDone s main wg →
      Step cfg s (.send k) { s with
        starting := s.starting.eraseIdx k
        main := main
        wg := wg }
  | insert (k : ℕ) (a : Allocation) (main : MainState) (wg : ℕ) :
      s.main ≠ .crashed → s.inserting[k]? = some a → WgDone s main wg →
      Step cfg s (.insert k) { s with
        inserting := s.inserting.eraseIdx k
        allocatedTxpool := insertAll s.allocatedTxpool a.txs
        main := main
        wg := wg }
  | process (k : ℕ) (clk : Clock) (m : AllocateTxMsgs) (f' : FollowerNode) (txHashs : List Hash)
      (txs : List TimedTx) :
      s.allocMsgs[k]? = some m →
      processTxs clk (s.followers m.followerID) m.txs = some (f', txHashs, txs) →
      Step cfg s (.process k clk) { s with
        allocMsgs := s.allocMsgs.eraseIdx k
        followers := Function.update s.followers m.followerID f'
        replies := s.replies ++
          [⟨txs, txHashs, (s.followers m.followerID).followerID, m.epochId⟩] }
  | gatherPanic (k : ℕ) (r : PrecessedTxMsgs) :
      s.alive → s.replies[k]? = some r → r.txs.length < r.txHashs.length →
      Step cfg s (.gather k) { receive s k r with main := .crashed }
  | gather (k : ℕ) (r : PrecessedTxMsgs) (pool : Finmap fun _ : Hash => Transaction)
      (moved : List Transaction) (times : Transaction → TxTimes) :
      s.alive → s.replies[k]? = some r →
      GatherResult s.allocatedTxpool r.txHashs pool moved →
      Step cfg s (.gather k) { receive s k r with
        allocatedTxpool := pool
        processedTxpool := s.processedTxpool ++ moved
        appended := s.appended ++ moved
        times := times }
  | record (k : ℕ) (r : PrecessedTxMsgs) :
      s.alive → s.gathered[k]? = some r →
      Step cfg s (.record k) (recordReply cfg s k r)
  | noBlock (k e : ℕ) (now : Time) :
      s.alive → s.generating[k]? = some e →
      s.curChain.currentBlock.hash ∈ s.blockHashGenDone ∨ s.processedTxpool = [] →
      Step cfg s (.generate k now) { s with generating := s.generating.eraseIdx k }
  | block (k e : ℕ) (now : Time) (b : Block) (done : Finset Hash) (chain : BlockChain) :
      s.alive → s.generating[k]? = some e → b.body = s.processedTxpool →
      Step cfg s (.generate k now) { s with
        generating := s.generating.eraseIdx k
        processedTxpool := []
        blockHashGenDone := done
        curChain := chain
        generated := s.generated ++ [b]
        signals := s.signals + 1 }

variable {cfg : Config} {s s' : Sys}

theorem schedule_cases {order : List Transaction} (h : schedule cfg s order = some s') :
    Step cfg s (.schedule order) s' := by
  unfold schedule at h
  split_ifs at h with hg hp
  · obtain rfl := Option.some.inj h
    unfold scheduleEmpty
    split_ifs with hc
    · exact .emptyRound order .stopping _ hg.1 hg.2 hp (.inl ⟨by omega, rfl, rfl⟩)
    · exact .emptyRound order s.main s.signals hg.1 hg.2 hp (.inr ⟨by omega, hg.1, rfl⟩)
  · unfold scheduleBatch at h
    split_ifs at h with hperm
    split at h
    · rename_i hnone
      obtain rfl := Option.some.inj h
      exact .badBatch order hg.1 hg.2 hp hperm hnone
    · rename_i allocMap hsome
      obtain rfl := Option.some.inj h
      exact .batch order allocMap hg.1 hg.2 hp hperm hsome

theorem wgDone_cases (s : Sys) :
    ∃ main wg, wgDone s = { s with main := main, wg := wg } ∧ WgDone s main wg := by
  unfold wgDone
  split_ifs with hw
  · exact ⟨.crashed, 0, by rw [← hw], .inl ⟨hw, rfl, rfl⟩⟩
  · exact ⟨s.main, s.wg - 1, rfl, .inr ⟨Nat.pos_of_ne_zero hw, rfl, rfl⟩⟩

theorem send_cases {k : ℕ} (h : send cfg s k = some s') : Step cfg s (.send k) s' := by
  unfold send at h
  split_ifs at h with hm
  split at h
  · cases h
  · rename_i a ha
    split_ifs at h with hr
    · obtain rfl := Option.some.inj h
      exact .send k a hm ha hr
    · obtain rfl := Option.some.inj h
      obtain ⟨main, wg, he, hd⟩ := wgDone_cases { s with starting := s.starting.eraseIdx k }
      rw [he]
      exact .skip k a main wg hm ha hr hd

theorem insert_cases {k : ℕ} (h : insert s k = some s') : Step cfg s (.insert k) s' := by
  unfold insert at h
  split_ifs at h with hm
  split at h
  · cases h
  · rename_i a ha
    obtain rfl := Option.some.inj h
    obtain ⟨main, wg, he, hd⟩ := wgDone_cases { s with
      inserting := s.inserting.eraseIdx k
      allocatedTxpool := insertAll s.allocatedTxpool a.txs }
    rw [he]
    exact .insert k a main wg hm ha hd

theorem process_cases {k : ℕ} {clk : Clock} (h : process s k clk = some s') :
    Step cfg s (.process k clk) s' := by
  unfold process at h
  split at h
  · cases h
  · rename_i m hm
    dsimp only at h
    split at h
    · cases h
    · rename_i f' txHashs txs hp
      obtain rfl := Option.some.inj h
      exact .process k clk m f' txHashs txs hm hp

theorem gather_cases {k : ℕ} (h : gather s k = some s') : Step cfg s (.gather k) s' := by
  unfold gather at h
  split_ifs at h with halive
  split at h
  · cases h
  · rename_i r hr
    split at h
    · rename_i hnone
      obtain rfl := Option.some.inj h
      refine .gatherPanic k r halive hr (not_le.mp fun hlen => ?_)
      obtain ⟨t, ht⟩ := gatherTxs_isSome r.txHashs r.txs (receive s k r) hlen
      rw [hnone] at ht
      cases ht
    · rename_i t hsome
      obtain rfl := Option.some.inj h
      obtain ⟨pool, moved, times, hg, rfl⟩ := gatherTxs_some _ _ _ _ hsome
      exact .gather k r pool moved times halive hr hg

theorem generate_cases {k : ℕ} {now : Time} (h : generate cfg s k now = some s') :
    Step cfg s (.generate k now) s' := by
  unfold generate at h
  split_ifs at h with halive
  split at h
  · cases h
  · rename_i e he
    obtain rfl := Option.some.inj h
    unfold blockGenerate
    split_ifs with hdone hempty
    · exact .noBlock k e now halive he (.inl hdone)
    · exact .noBlock k e now halive he (.inr hempty)
    · exact .block k e now _ _ _ halive he rfl

/-- **Every step is one of the rules.** -/
theorem step_cases {l : Label} (h : step cfg s l = some s') : Step cfg s l s' := by
  cases l with
  | inject now =>
    rw [step, inject] at h
    split_ifs at h
    obtain rfl := Option.some.inj h
    exact .inject now _
  | schedule order => exact schedule_cases h
  | stop =>
    -- the only goroutine that sends on `stopchan` is the one that would have to receive
    have hno : ¬ (s.main = .select ∧ 0 < s.stopSenders) := by
      rintro ⟨hsel, hsend⟩
      rw [Sys.stopSenders, hsel] at hsend
      exact absurd hsend (by decide)
    rw [step, stop, if_neg hno] at h
    cases h
  | launch k =>
    rw [step] at h
    unfold launch at h
    split at h
    · rename_i batch a hm hadd ha
      obtain rfl := Option.some.inj h
      exact .launch k batch a hm hadd ha
    · cases h
  | addWg =>
    rw [step] at h
    unfold addWg at h
    split at h
    · rename_i batch hm hadd
      obtain rfl := Option.some.inj h
      exact .addWg batch hm hadd
    · cases h
  | send k => exact send_cases h
  | insert k => exact insert_cases h
  | endScheduling =>
    rw [step] at h
    unfold endScheduling at h
    split at h
    · rename_i batch hm
      split_ifs at h with he
      obtain rfl := Option.some.inj h
      exact .endScheduling batch hm he.1 he.2.1 he.2.2
    · cases h
  | process k clk => exact process_cases h
  | gather k => exact gather_cases h
  | record k =>
    rw [step, record] at h
    split_ifs at h with halive
    split at h
    · cases h
    · rename_i r hr
      obtain rfl := Option.some.inj h
      exact .record k r halive hr
  | generate k now => exact generate_cases h

/-! ### Inserting a batch -/

theorem insertAll_lookup (txs : List Transaction) (pool : Finmap fun _ : Hash => Transaction)
    (h : Hash) :
    (∃ tx ∈ txs, tx.txHash = h ∧ (insertAll pool txs).lookup h = some tx) ∨
      ((∀ tx ∈ txs, tx.txHash ≠ h) ∧ (insertAll pool txs).lookup h = pool.lookup h) := by
  induction txs generalizing pool with
  | nil => exact .inr ⟨by simp, rfl⟩
  | cons tx txs ih =>
    rcases ih (pool.insert tx.txHash tx) with ⟨u, hu, he, hl⟩ | ⟨hne, hl⟩
    · exact .inl ⟨u, List.mem_cons_of_mem tx hu, he, hl⟩
    · by_cases hh : tx.txHash = h
      · refine .inl ⟨tx, List.mem_cons_self, hh, ?_⟩
        rw [insertAll, List.foldl_cons, ← insertAll, hl, ← hh, Finmap.lookup_insert]
      · refine .inr ⟨?_, ?_⟩
        · intro u hu
          rcases List.mem_cons.mp hu with rfl | hu'
          · exact hh
          · exact hne u hu'
        · rw [insertAll, List.foldl_cons, ← insertAll, hl,
            Finmap.lookup_insert_of_ne _ (Ne.symm hh)]

end Aster.SubMPT
