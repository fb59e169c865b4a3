import Aster.Broker.Committee

/-!
# Confirmations of brokered transactions

The committee over whole runs: any sequence of calls of `dealTxByBroker` and `HandleBlockInfo`,
with reports in any order.  Beside the committee the run keeps what happened: the raw
transactions, the transactions made for them and the hashes that were reported.

* `Backed`: every confirmation of a pool is about a transaction that was made, and a `tx2` comes
  after the report of its `tx1`.  This holds in every run.
* `Unrepeated`: a raw transaction has one `tx2` at most and its entries are different.  The pools
  are never emptied, so this needs that no transaction is reported twice.
-/

namespace Aster.Broker

open Aster.Core Aster.Chain Aster.Lib.Transition

structure History where
  committee : Committee
  /-- The raw transactions that were split. -/
  raws : List BrokerTx
  tx1s : List BrokerTx
  tx2s : List BrokerTx
  /-- The hashes of the transactions in the reports of blocks. -/
  reported : List Hash

def newHistory : History := ⟨newCommittee, [], [], [], []⟩

inductive Call
  | deal (modifiedMap : PartitionMap) (clk : ℕ → Time) (txs : List BrokerTx)
  | blockInfo (modifiedMap : PartitionMap) (clk : ℕ → Time) (b : BlockInfoMsg)

/-- The reported transactions; the report of an empty block is not read. -/
def BlockInfoMsg.hashes (b : BlockInfoMsg) : List Hash :=
  if b.blockBodyLength = 0 then [] else b.broker1Txs ++ b.broker2Txs

def callStep (cfg : Config) (s : History) : Call → Option History
  | .deal modifiedMap clk txs => do
    let d ← dealTxByBroker cfg modifiedMap clk s.committee txs
    some { s with
      committee := d.committee
      raws := s.raws ++ d.brokerRawMegs.map (·.tx)
      tx1s := s.tx1s ++ d.tx1s }
  | .blockInfo modifiedMap clk b => do
    let r ← handleBlockInfo cfg modifiedMap clk s.committee b
    some { s with
      committee := r.committee
      tx2s := s.tx2s ++ r.tx2s
      reported := s.reported ++ b.hashes }

/-- Different transactions have different hashes. -/
def Distinct (s : History) : Prop := ((s.raws ++ s.tx1s ++ s.tx2s).map (·.tx.txHash)).Nodup

/-- What the protocol is to give for each raw transaction. -/
structure OncePerRaw (s : History) : Prop where
  tx1 : ∀ raw ∈ s.raws, (s.tx1s.map (·.rawTxHash)).count (some raw.tx.txHash) = 1
  tx2 : ∀ raw ∈ s.raws, (s.tx2s.map (·.rawTxHash)).count (some raw.tx.txHash) ≤ 1
  after : ∀ tx2 ∈ s.tx2s, ∃ tx1 ∈ s.tx1s,
    tx1.rawTxHash = tx2.rawTxHash ∧ tx1.tx.txHash ∈ s.reported
  entries : ∀ rawHash, (entries s.committee.rawTx2BrokerTx rawHash).length ≤ 2

/-- No transaction is reported a second time, in another report or in the same one. -/
def FirstReport (s : History) : Call → Prop
  | .deal _ _ _ => True
  | .blockInfo _ _ b => b.hashes.Nodup ∧ ∀ h ∈ b.hashes, h ∉ s.reported

instance (s : History) : (c : Call) → Decidable (FirstReport s c)
  | .deal _ _ _ => inferInstanceAs (Decidable True)
  | .blockInfo _ _ b => inferInstanceAs (Decidable (b.hashes.Nodup ∧ ∀ h ∈ b.hashes, _))

/-! ### The loops -/

/-- **The loop that makes transactions**: they are made for the raw transactions of the messages, in
this order, and a confirmation of the pool is an old one or one of a transaction made here. -/
theorem createTxs_spec {M C : Type} (create : M → Time → BrokerTx) (confirm : M → Hash → C)
    (raw : M → Hash) (hraw : ∀ meg now, (create meg now).rawTxHash = some (raw meg))
    (megs : List M) (clk : ℕ → Time) (pool : Finmap fun _ : Hash => C) :
    ((createTxs create confirm clk megs pool).2.map (·.rawTxHash) =
      megs.map fun meg => some (raw meg)) ∧
    ∀ h c, (createTxs create confirm clk megs pool).1.lookup h = some c →
      pool.lookup h = some c ∨ ∃ meg ∈ megs, c = confirm meg h ∧
        ∃ tx ∈ (createTxs create confirm clk megs pool).2,
          tx.tx.txHash = h ∧ tx.rawTxHash = some (raw meg) := by
  induction megs generalizing clk pool with
  | nil => exact ⟨rfl, fun h c hc => .inl hc⟩
  | cons meg megs ih =>
    obtain ⟨hmap, hpool⟩ := ih (fun k => clk (k + 1))
      (pool.insert (create meg (clk 0)).tx.txHash (confirm meg (create meg (clk 0)).tx.txHash))
    constructor
    · simp only [createTxs, List.map_cons, hmap, hraw]
    · intro h c hc
      rcases hpool h c hc with hold | ⟨meg', hmeg', hc', tx, htx, hh, hr⟩
      · by_cases hh : h = (create meg (clk 0)).tx.txHash
        · subst hh
          rw [Finmap.lookup_insert] at hold
          exact .inr ⟨meg, List.mem_cons_self, (Option.some.inj hold).symm, _,
            List.mem_cons_self, rfl, hraw meg (clk 0)⟩
        · rw [Finmap.lookup_insert_of_ne _ hh] at hold
          exact .inl hold
      · exact .inr ⟨meg', List.mem_cons_of_mem _ hmeg', hc', tx, List.mem_cons_of_mem _ htx, hh, hr⟩

theorem mem_storeRawMegs (cfg : Config) (megs : List BrokerRawMeg)
    (pool : Finmap fun _ : Hash => BrokerRawMeg) (k : Hash) :
    k ∈ storeRawMegs cfg pool megs ↔ k ∈ pool ∨ ∃ meg ∈ megs, cfg.digest meg = k := by
  induction megs generalizing pool with
  | nil => simp [storeRawMegs]
  | cons meg megs ih =>
    show k ∈ storeRawMegs cfg (pool.insert (cfg.digest meg) meg) megs ↔ _
    rw [ih, Finmap.mem_insert, List.exists_mem_cons_iff]
    constructor
    · rintro ((rfl | hk) | hk)
      · exact .inr (.inl rfl)
      · exact .inl hk
      · exact .inr (.inr hk)
    · rintro (hk | rfl | hk)
      · exact .inl (.inr hk)
      · exact .inl (.inl rfl)
      · exact .inr hk

@[simp] theorem entries_addEntry (m : RawTx2BrokerTx) (rawHash hash h : Hash) :
    entries (addEntry m rawHash hash) h =
      entries m h ++ if rawHash = h then [hash] else [] := by
  unfold addEntry entries
  by_cases hh : h = rawHash
  · subst hh
    simp [Finmap.lookup_insert]
  · simp [Finmap.lookup_insert_of_ne _ hh, Ne.symm hh]

/-- The hashes that confirmations add for one raw transaction. -/
def added {C : Type} (rawMeg : C → BrokerRawMeg) (hash : C → Hash) (cs : List C) (rawHash : Hash) :
    List Hash :=
  (cs.filter fun c => (rawMeg c).tx.tx.txHash = rawHash).map hash

theorem added_cons {C : Type} (rawMeg : C → BrokerRawMeg) (hash : C → Hash) (c : C) (cs : List C)
    (rawHash : Hash) : added rawMeg hash (c :: cs) rawHash =
      (if (rawMeg c).tx.tx.txHash = rawHash then [hash c] else []) ++
        added rawMeg hash cs rawHash := by
  unfold added
  rw [List.filter_cons]
  by_cases h : (rawMeg c).tx.tx.txHash = rawHash
  · simp [h]
  · simp [h]

theorem entries_confirmTx2s (cs : List Mag2Confirm) (m : RawTx2BrokerTx) (rawHash : Hash) :
    entries (confirmTx2s cs m) rawHash =
      entries m rawHash ++ added Mag2Confirm.rawMeg Mag2Confirm.tx2Hash cs rawHash := by
  induction cs generalizing m with
  | nil => simp [confirmTx2s, added]
  | cons c cs ih =>
    show entries (confirmTx2s cs (addEntry m c.rawMeg.tx.tx.txHash c.tx2Hash)) rawHash = _
    rw [ih, entries_addEntry, added_cons, List.append_assoc]

/-- With all digests known, no confirmation of a `tx1` is passed over. -/
theorem confirmTx1s_spec {cfg : Config} {rawMegs : Finmap fun _ : Hash => BrokerRawMeg}
    {cs : List Mag1Confirm} (hknown : ∀ c ∈ cs, cfg.digest c.rawMeg ∈ rawMegs)
    {m m' : RawTx2BrokerTx} {megs : List BrokerType2Meg}
    (h : confirmTx1s cfg rawMegs cs m = some (m', megs)) :
    megs.map (·.rawMeg) = cs.map (·.rawMeg) ∧ ∀ rawHash, entries m' rawHash =
      entries m rawHash ++ added Mag1Confirm.rawMeg Mag1Confirm.tx1Hash cs rawHash := by
  induction cs generalizing m m' megs with
  | nil =>
    cases h
    exact ⟨rfl, fun rawHash => by simp [added]⟩
  | cons c cs ih =>
    rw [confirmTx1s, if_pos (hknown c List.mem_cons_self)] at h
    obtain ⟨broker, -, h⟩ := Option.bind_eq_some_iff.mp h
    obtain ⟨⟨m₁, megs₁⟩, hrest, h⟩ := Option.bind_eq_some_iff.mp h
    cases h
    obtain ⟨hmegs, hentries⟩ := ih (fun c' hc' => hknown c' (List.mem_cons_of_mem c hc')) hrest
    refine ⟨by simp only [List.map_cons, hmegs], fun rawHash => ?_⟩
    rw [hentries, entries_addEntry, added_cons, List.append_assoc]

/-- The hashes of the confirmations that were found are some of those that were looked up. -/
theorem map_filterMap_sublist {C : Type} {pool : Hash → Option C} {hash : C → Hash}
    (hpool : ∀ h c, pool h = some c → hash c = h) (hs : List Hash) :
    ((hs.filterMap pool).map hash).Sublist hs := by
  induction hs with
  | nil => exact .slnil
  | cons h hs ih =>
    cases hc : pool h with
    | none =>
      rw [List.filterMap_cons_none hc]
      exact ih.cons h
    | some c =>
      rw [List.filterMap_cons_some hc, List.map_cons, hpool h c hc]
      exact ih.cons_cons h

/-! ### What the calls do -/

theorem dealTxByBroker_cases {cfg : Config} {modifiedMap : PartitionMap} {clk : ℕ → Time}
    {c : Committee} {txs : List BrokerTx} {d : Dealt}
    (h : dealTxByBroker cfg modifiedMap clk c txs = some d) :
    d.tx1s = (createTx1s cfg clk (d.brokerRawMegs.map fun meg => ⟨meg, meg.broker⟩)
      c.brokerConfirm1Pool).2 ∧
    d.committee = { c with
      brokerConfirm1Pool := (createTx1s cfg clk
        (d.brokerRawMegs.map fun meg => ⟨meg, meg.broker⟩) c.brokerConfirm1Pool).1
      brokerRawMegs := storeRawMegs cfg c.brokerRawMegs d.brokerRawMegs } := by
  obtain ⟨⟨itxs, megs⟩, -, h⟩ := Option.bind_eq_some_iff.mp h
  obtain ⟨sent, -, h⟩ := Option.bind_eq_some_iff.mp h
  cases h
  exact ⟨rfl, rfl⟩

/-- The report of an empty block is a report of no transactions. -/
theorem handleBlockInfo_eq (cfg : Config) (modifiedMap : PartitionMap) (clk : ℕ → Time)
    (c : Committee) (b : BlockInfoMsg) :
    handleBlockInfo cfg modifiedMap clk c b = createConfirm cfg modifiedMap clk c b.hashes := by
  unfold handleBlockInfo BlockInfoMsg.hashes
  split_ifs
  · rfl
  · rfl

theorem createConfirm_cases {cfg : Config} {modifiedMap : PartitionMap} {clk : ℕ → Time}
    {c : Committee} {hs : List Hash} {r : Confirmed}
    (h : createConfirm cfg modifiedMap clk c hs = some r) :
    ∃ m megs, confirmTx1s cfg c.brokerRawMegs (hs.filterMap c.brokerConfirm1Pool.lookup)
        c.rawTx2BrokerTx = some (m, megs) ∧
      r.tx2s = (createTx2s cfg clk megs c.brokerConfirm2Pool).2 ∧
      r.committee = { c with
        brokerConfirm2Pool := (createTx2s cfg clk megs c.brokerConfirm2Pool).1
        rawTx2BrokerTx := confirmTx2s (hs.filterMap c.brokerConfirm2Pool.lookup) m } := by
  obtain ⟨⟨m, megs⟩, hconfirm, h⟩ := Option.bind_eq_some_iff.mp h
  obtain ⟨sent, -, h⟩ := Option.bind_eq_some_iff.mp h
  cases h
  exact ⟨m, megs, hconfirm, rfl, rfl⟩

/-! ### In every run -/

/-- The confirmations and the transactions belong together. -/
structure Backed (cfg : Config) (s : History) : Prop where
  tx1s : (s.tx1s.map (·.rawTxHash)) = s.raws.map fun raw => some raw.tx.txHash
  pool1 : ∀ h c, s.committee.brokerConfirm1Pool.lookup h = some c →
    c.tx1Hash = h ∧ cfg.digest c.rawMeg ∈ s.committee.brokerRawMegs ∧
      ∃ tx1 ∈ s.tx1s, tx1.tx.txHash = h ∧ tx1.rawTxHash = some c.rawMeg.tx.tx.txHash
  pool2 : ∀ h c, s.committee.brokerConfirm2Pool.lookup h = some c →
    c.tx2Hash = h ∧
      ∃ tx2 ∈ s.tx2s, tx2.tx.txHash = h ∧ tx2.rawTxHash = some c.rawMeg.tx.tx.txHash
  after : ∀ tx2 ∈ s.tx2s, ∃ tx1 ∈ s.tx1s,
    tx1.rawTxHash = tx2.rawTxHash ∧ tx1.tx.txHash ∈ s.reported

variable {cfg : Config} {s s' : History}

theorem backed_new (cfg : Config) : Backed cfg newHistory where
  tx1s := rfl
  pool1 := by
    intro h c hc
    cases hc
  pool2 := by
    intro h c hc
    cases hc
  after := fun tx2 htx2 => absurd htx2 List.not_mem_nil

theorem Backed.deal (hb : Backed cfg s) {modifiedMap : PartitionMap} {clk : ℕ → Time}
    {txs : List BrokerTx} (h : callStep cfg s (.deal modifiedMap clk txs) = some s') :
    Backed cfg s' := by
  obtain ⟨d, hd, h⟩ := Option.bind_eq_some_iff.mp h
  cases h
  obtain ⟨htx1s, hcommittee⟩ := dealTxByBroker_cases hd
  obtain ⟨hmap, hpool⟩ := createTxs_spec (createTx1 cfg)
    (fun meg hash => (⟨hash, meg.rawMeg⟩ : Mag1Confirm)) (fun meg => meg.rawMeg.tx.tx.txHash)
    (fun _ _ => rfl) (d.brokerRawMegs.map fun meg => ⟨meg, meg.broker⟩) clk
    s.committee.brokerConfirm1Pool
  refine ⟨?_, ?_, ?_, ?_⟩
  · show (s.tx1s ++ d.tx1s).map _ = (s.raws ++ d.brokerRawMegs.map _).map _
    rw [List.map_append, List.map_append, hb.tx1s, htx1s, createTx1s, hmap, List.map_map,
      List.map_map]
    rfl
  · intro h c hc
    rw [hcommittee] at hc ⊢
    rcases hpool h c hc with hold | ⟨meg, hmeg, rfl, tx1, htx1, hhash, hraw⟩
    · obtain ⟨hh, hdigest, tx1, htx1, hrest⟩ := hb.pool1 h c hold
      exact ⟨hh, (mem_storeRawMegs _ _ _ _).mpr (.inl hdigest), tx1,
        List.mem_append_left _ htx1, hrest⟩
    · obtain ⟨raw, hrawMeg, rfl⟩ := List.mem_map.mp hmeg
      refine ⟨rfl, (mem_storeRawMegs _ _ _ _).mpr (.inr ⟨raw, hrawMeg, rfl⟩), tx1, ?_, hhash, hraw⟩
      exact List.mem_append_right _ (htx1s ▸ htx1)
  · intro h c hc
    rw [hcommittee] at hc
    exact hb.pool2 h c hc
  · intro tx2 htx2
    obtain ⟨tx1, htx1, hrest⟩ := hb.after tx2 htx2
    exact ⟨tx1, List.mem_append_left _ htx1, hrest⟩

/-- A confirmation that a report finds is about a `tx1` that it reports. -/
theorem Backed.confirm1 (hb : Backed cfg s) {hs : List Hash} {c : Mag1Confirm}
    (hc : c ∈ hs.filterMap s.committee.brokerConfirm1Pool.lookup) :
    cfg.digest c.rawMeg ∈ s.committee.brokerRawMegs ∧ c.tx1Hash ∈ hs ∧
      ∃ tx1 ∈ s.tx1s, tx1.tx.txHash = c.tx1Hash ∧
        tx1.rawTxHash = some c.rawMeg.tx.tx.txHash := by
  obtain ⟨h, hh, hlookup⟩ := List.mem_filterMap.mp hc
  obtain ⟨hhash, hdigest, htx1⟩ := hb.pool1 h c hlookup
  rw [hhash]
  exact ⟨hdigest, hh, htx1⟩

/-- **A report**: the transactions made for it, and the entries it adds. -/
theorem Backed.blockInfo_cases (hb : Backed cfg s) {modifiedMap : PartitionMap} {clk : ℕ → Time}
    {b : BlockInfoMsg} (h : callStep cfg s (.blockInfo modifiedMap clk b) = some s') :
    let confirm1s := b.hashes.filterMap s.committee.brokerConfirm1Pool.lookup
    let confirm2s := b.hashes.filterMap s.committee.brokerConfirm2Pool.lookup
    s'.raws = s.raws ∧ s'.tx1s = s.tx1s ∧ s'.reported = s.reported ++ b.hashes ∧
    s'.committee.brokerConfirm1Pool = s.committee.brokerConfirm1Pool ∧
    s'.committee.brokerRawMegs = s.committee.brokerRawMegs ∧
    (∃ tx2s, s'.tx2s = s.tx2s ++ tx2s ∧
      (tx2s.map (·.rawTxHash) = confirm1s.map fun c => some c.rawMeg.tx.tx.txHash) ∧
      ∀ h c, s'.committee.brokerConfirm2Pool.lookup h = some c →
        s.committee.brokerConfirm2Pool.lookup h = some c ∨
          c.tx2Hash = h ∧ ∃ tx2 ∈ tx2s, tx2.tx.txHash = h ∧
            tx2.rawTxHash = some c.rawMeg.tx.tx.txHash) ∧
    ∀ rawHash, entries s'.committee.rawTx2BrokerTx rawHash =
      entries s.committee.rawTx2BrokerTx rawHash ++
        added Mag1Confirm.rawMeg Mag1Confirm.tx1Hash confirm1s rawHash ++
        added Mag2Confirm.rawMeg Mag2Confirm.tx2Hash confirm2s rawHash := by
  intro confirm1s confirm2s
  obtain ⟨r, hr, h⟩ := Option.bind_eq_some_iff.mp h
  cases h
  rw [handleBlockInfo_eq] at hr
  obtain ⟨m, megs, hconfirm, htx2s, hcommittee⟩ := createConfirm_cases hr
  obtain ⟨hmegs, hentries⟩ := confirmTx1s_spec (fun c hc => (hb.confirm1 hc).1) hconfirm
  obtain ⟨hmap, hpool⟩ := createTxs_spec (createTx2 cfg)
    (fun meg hash => (⟨hash, meg.rawMeg⟩ : Mag2Confirm)) (fun meg => meg.rawMeg.tx.tx.txHash)
    (fun _ _ => rfl) megs clk s.committee.brokerConfirm2Pool
  refine ⟨rfl, rfl, rfl, by rw [hcommittee], by rw [hcommittee], ⟨r.tx2s, rfl, ?_, ?_⟩, ?_⟩
  · rw [htx2s, createTx2s, hmap]
    have hraws := congrArg (List.map fun meg : BrokerRawMeg => some meg.tx.tx.txHash) hmegs
    simpa only [List.map_map, Function.comp_def] using hraws
  · intro h c hc
    rw [hcommittee] at hc
    rcases hpool h c hc with hold | ⟨meg, -, rfl, tx2, htx2, hrest⟩
    · exact .inl hold
    · exact .inr ⟨rfl, tx2, htx2s ▸ htx2, hrest⟩
  · intro rawHash
    rw [hcommittee]
    show entries (confirmTx2s _ m) rawHash = _
    rw [entries_confirmTx2s, hentries]

theorem Backed.blockInfo (hb : Backed cfg s) {modifiedMap : PartitionMap} {clk : ℕ → Time}
    {b : BlockInfoMsg} (h : callStep cfg s (.blockInfo modifiedMap clk b) = some s') :
    Backed cfg s' := by
  obtain ⟨hraws, htx1s, hreported, hpool1, hmegs, ⟨tx2s, htx2s, hmap, hpool2⟩, -⟩ :=
    hb.blockInfo_cases h
  refine ⟨?_, ?_, ?_, ?_⟩
  · rw [htx1s, hraws, hb.tx1s]
  · rw [hpool1, hmegs, htx1s]
    exact hb.pool1
  · intro h c hc
    rw [htx2s]
    rcases hpool2 h c hc with hold | ⟨hhash, tx2, htx2, hrest⟩
    · obtain ⟨hhash, tx2, htx2, hrest⟩ := hb.pool2 h c hold
      exact ⟨hhash, tx2, List.mem_append_left _ htx2, hrest⟩
    · exact ⟨hhash, tx2, List.mem_append_right _ htx2, hrest⟩
  · intro tx2 htx2
    rw [htx2s] at htx2
    rw [htx1s, hreported]
    rcases List.mem_append.mp htx2 with hold | hnew
    · obtain ⟨tx1, htx1, hraw, hrep⟩ := hb.after tx2 hold
      exact ⟨tx1, htx1, hraw, List.mem_append_left _ hrep⟩
    · have hmem : tx2.rawTxHash ∈ tx2s.map (·.rawTxHash) := List.mem_map_of_mem hnew
      rw [hmap] at hmem
      obtain ⟨c, hc, hraw⟩ := List.mem_map.mp hmem
      obtain ⟨-, hh, tx1, htx1, hhash, hraw1⟩ := hb.confirm1 hc
      exact ⟨tx1, htx1, hraw1.trans hraw, List.mem_append_right _ (hhash ▸ hh)⟩

theorem Backed.step (hb : Backed cfg s) {c : Call} (h : callStep cfg s c = some s') :
    Backed cfg s' := by
  cases c with
  | deal modifiedMap clk txs => exact hb.deal h
  | blockInfo modifiedMap clk b => exact hb.blockInfo h

/-! ### Without repeated reports -/

/-- A raw transaction has one `tx2` at most, and the entries of a raw hash are different reported
transactions made for it. -/
structure Unrepeated (s : History) : Prop where
  tx2s : (s.tx2s.map (·.rawTxHash)).Nodup
  entries : ∀ rawHash, (entries s.committee.rawTx2BrokerTx rawHash).Nodup ∧
    ∀ h ∈ entries s.committee.rawTx2BrokerTx rawHash, h ∈ s.reported ∧
      ∃ tx ∈ s.tx1s ++ s.tx2s, tx.tx.txHash = h ∧ tx.rawTxHash = some rawHash

theorem unrepeated_new : Unrepeated newHistory where
  tx2s := List.nodup_nil
  entries := fun _ => ⟨List.nodup_nil, fun _ hh => absurd hh List.not_mem_nil⟩

theorem Unrepeated.deal (hu : Unrepeated s) {modifiedMap : PartitionMap} {clk : ℕ → Time}
    {txs : List BrokerTx} (h : callStep cfg s (.deal modifiedMap clk txs) = some s') :
    Unrepeated s' := by
  obtain ⟨d, hd, h⟩ := Option.bind_eq_some_iff.mp h
  cases h
  obtain ⟨-, hcommittee⟩ := dealTxByBroker_cases hd
  refine ⟨hu.tx2s, fun rawHash => ?_⟩
  rw [hcommittee]
  refine ⟨(hu.entries rawHash).1, fun h hh => ?_⟩
  obtain ⟨hrep, tx, htx, hrest⟩ := (hu.entries rawHash).2 h hh
  refine ⟨hrep, tx, ?_, hrest⟩
  rcases List.mem_append.mp htx with htx1 | htx2
  · exact List.mem_append_left _ (List.mem_append_left _ htx1)
  · exact List.mem_append_right _ htx2

theorem Distinct.raws (hd : Distinct s) : (s.raws.map (·.tx.txHash)).Nodup := by
  rw [Distinct, List.append_assoc, List.map_append] at hd
  exact (List.nodup_append.mp hd).1

theorem Distinct.ne (hd : Distinct s) {tx1 tx2 : BrokerTx} (htx1 : tx1 ∈ s.tx1s)
    (htx2 : tx2 ∈ s.tx2s) : tx1.tx.txHash ≠ tx2.tx.txHash := by
  rw [Distinct, List.map_append] at hd
  exact (List.nodup_append.mp hd).2.2 _ (List.mem_map_of_mem (List.mem_append_right _ htx1)) _
    (List.mem_map_of_mem htx2)

theorem Backed.tx1s_nodup (hb : Backed cfg s) (hd : Distinct s) :
    (s.tx1s.map (·.rawTxHash)).Nodup := by
  rw [hb.tx1s, show (s.raws.map fun raw => some raw.tx.txHash) =
    (s.raws.map (·.tx.txHash)).map some from by rw [List.map_map]; rfl]
  exact hd.raws.map (Option.some_injective _)

/-- Only one `tx1` was made for a raw transaction. -/
theorem Backed.tx1_unique (hb : Backed cfg s) (hd : Distinct s) {tx1 tx1' : BrokerTx}
    (h : tx1 ∈ s.tx1s) (h' : tx1' ∈ s.tx1s) (hraw : tx1.rawTxHash = tx1'.rawTxHash) :
    tx1 = tx1' :=
  List.inj_on_of_nodup_map (hb.tx1s_nodup hd) h h' hraw

/-- The `tx1`s that a report finds are for different raw transactions. -/
theorem Backed.confirm1s_nodup (hb : Backed cfg s) (hd : Distinct s) {hs : List Hash}
    (hnodup : hs.Nodup) :
    ((hs.filterMap s.committee.brokerConfirm1Pool.lookup).map
      fun c => some c.rawMeg.tx.tx.txHash).Nodup := by
  have hhashes : ((hs.filterMap s.committee.brokerConfirm1Pool.lookup).map
      Mag1Confirm.tx1Hash).Nodup :=
    (map_filterMap_sublist (fun h c hc => (hb.pool1 h c hc).1) hs).nodup hnodup
  refine List.Nodup.map_on ?_ hhashes.of_map
  intro c hc c' hc' hraw
  obtain ⟨-, -, tx1, htx1, hhash, hraw1⟩ := hb.confirm1 hc
  obtain ⟨-, -, tx1', htx1', hhash', hraw1'⟩ := hb.confirm1 hc'
  have hsame := hb.tx1_unique hd htx1 htx1' (hraw1.trans (hraw.trans hraw1'.symm))
  exact List.inj_on_of_nodup_map hhashes hc hc' (by rw [← hhash, ← hhash', hsame])

/-- What a report adds for a raw transaction are some of its transactions. -/
theorem added_sublist (hs : List Hash) {C : Type} (rawMeg : C → BrokerRawMeg) {hash : C → Hash}
    {pool : Hash → Option C} (hpool : ∀ h c, pool h = some c → hash c = h) (rawHash : Hash) :
    (added rawMeg hash (hs.filterMap pool) rawHash).Sublist hs :=
  (List.filter_sublist.map hash).trans (map_filterMap_sublist hpool hs)

/-- What a report adds are transactions made for the raw transaction. -/
theorem Backed.added_made (hb : Backed cfg s) {hs : List Hash} {rawHash h : Hash} :
    (h ∈ added Mag1Confirm.rawMeg Mag1Confirm.tx1Hash
        (hs.filterMap s.committee.brokerConfirm1Pool.lookup) rawHash →
      ∃ tx ∈ s.tx1s, tx.tx.txHash = h ∧ tx.rawTxHash = some rawHash) ∧
    (h ∈ added Mag2Confirm.rawMeg Mag2Confirm.tx2Hash
        (hs.filterMap s.committee.brokerConfirm2Pool.lookup) rawHash →
      ∃ tx ∈ s.tx2s, tx.tx.txHash = h ∧ tx.rawTxHash = some rawHash) := by
  constructor
  · intro hh
    obtain ⟨c, hc, rfl⟩ := List.mem_map.mp hh
    obtain ⟨hc, hraw⟩ := List.mem_filter.mp hc
    obtain ⟨-, -, tx1, htx1, hhash, hraw1⟩ := hb.confirm1 hc
    exact ⟨tx1, htx1, hhash, by rw [hraw1, of_decide_eq_true hraw]⟩
  · intro hh
    obtain ⟨c, hc, rfl⟩ := List.mem_map.mp hh
    obtain ⟨hc, hraw⟩ := List.mem_filter.mp hc
    obtain ⟨k, -, hlookup⟩ := List.mem_filterMap.mp hc
    obtain ⟨hk, tx2, htx2, hhash, hraw2⟩ := hb.pool2 k c hlookup
    exact ⟨tx2, htx2, hhash.trans hk.symm, by rw [hraw2, of_decide_eq_true hraw]⟩

/-- **A report of new transactions** keeps the entries different and makes no second `tx2`: the
`tx1` of an earlier one was reported before. -/
theorem Unrepeated.blockInfo (hu : Unrepeated s) (hb : Backed cfg s) (hd : Distinct s)
    {modifiedMap : PartitionMap} {clk : ℕ → Time} {b : BlockInfoMsg} (hnodup : b.hashes.Nodup)
    (hfresh : ∀ h ∈ b.hashes, h ∉ s.reported)
    (h : callStep cfg s (.blockInfo modifiedMap clk b) = some s') : Unrepeated s' := by
  obtain ⟨-, htx1s, hreported, -, -, ⟨tx2s, htx2s, hmap, -⟩, hentries⟩ := hb.blockInfo_cases h
  constructor
  · rw [htx2s, List.map_append, List.nodup_append, hmap]
    refine ⟨hu.tx2s, hb.confirm1s_nodup hd hnodup, ?_⟩
    intro raw hold raw' hnew heq
    obtain ⟨tx2, htx2, rfl⟩ := List.mem_map.mp hold
    obtain ⟨c, hc, rfl⟩ := List.mem_map.mp hnew
    obtain ⟨-, hh, tx1, htx1, hhash, hraw⟩ := hb.confirm1 hc
    obtain ⟨tx1', htx1', hraw', hrep⟩ := hb.after tx2 htx2
    have hsame := hb.tx1_unique hd htx1 htx1' (hraw.trans (heq.symm.trans hraw'.symm))
    rw [← hsame, hhash] at hrep
    exact hfresh _ hh hrep
  · intro rawHash
    have hsub1 := added_sublist b.hashes Mag1Confirm.rawMeg
      (fun h c hc => (hb.pool1 h c hc).1) rawHash
    have hsub2 := added_sublist b.hashes Mag2Confirm.rawMeg
      (fun h c hc => (hb.pool2 h c hc).1) rawHash
    rw [hentries, htx1s, htx2s, hreported]
    constructor
    · rw [List.append_assoc, List.nodup_append, List.nodup_append]
      refine ⟨(hu.entries rawHash).1, ⟨hsub1.nodup hnodup, hsub2.nodup hnodup, ?_⟩, ?_⟩
      · intro h₁ h1 h₂ h2 heq
        obtain ⟨tx1, htx1, rfl, -⟩ := hb.added_made.1 h1
        obtain ⟨tx2, htx2, rfl, -⟩ := hb.added_made.2 h2
        exact hd.ne htx1 htx2 heq
      · intro h₁ hold h₂ hnew heq
        have hmem : h₂ ∈ b.hashes := by
          rcases List.mem_append.mp hnew with h1 | h2
          · exact hsub1.subset h1
          · exact hsub2.subset h2
        exact hfresh h₂ hmem (heq ▸ ((hu.entries rawHash).2 h₁ hold).1)
    · intro h hh
      rcases List.mem_append.mp hh with hh | h2
      · rcases List.mem_append.mp hh with hold | h1
        · obtain ⟨hrep, tx, htx, hrest⟩ := (hu.entries rawHash).2 h hold
          refine ⟨List.mem_append_left _ hrep, tx, ?_, hrest⟩
          rw [← List.append_assoc]
          exact List.mem_append_left _ htx
        · obtain ⟨tx1, htx1, hrest⟩ := hb.added_made.1 h1
          exact ⟨List.mem_append_right _ (hsub1.subset h1), tx1, List.mem_append_left _ htx1, hrest⟩
      · obtain ⟨tx2, htx2, hrest⟩ := hb.added_made.2 h2
        exact ⟨List.mem_append_right _ (hsub2.subset h2), tx2,
          List.mem_append_right _ (List.mem_append_left _ htx2), hrest⟩

/-- Hashes that are different after a call were different before it. -/
theorem Distinct.before (hd : Distinct s') {c : Call} (h : callStep cfg s c = some s') :
    Distinct s := by
  refine List.Nodup.sublist (List.Sublist.map _ ?_) hd
  cases c with
  | deal modifiedMap clk txs =>
    obtain ⟨d, -, h⟩ := Option.bind_eq_some_iff.mp h
    cases h
    exact ((List.sublist_append_left _ _).append (List.sublist_append_left _ _)).append
      (List.Sublist.refl _)
  | blockInfo modifiedMap clk b =>
    obtain ⟨r, -, h⟩ := Option.bind_eq_some_iff.mp h
    cases h
    exact (List.Sublist.refl _).append (List.sublist_append_left _ _)

/-! ### Runs -/

theorem backed_of_run {guard : History → Call → Prop}
    (h : Reach (callStep cfg) guard (· = newHistory) s) : Backed cfg s := by
  refine Reach.invariant ?_ ?_ h
  · rintro _ rfl
    exact backed_new cfg
  · intro s s' c _ hb _ hstep
    exact hb.step hstep

theorem unrepeated_of_run (h : Reach (callStep cfg) FirstReport (· = newHistory) s)
    (hd : Distinct s) : Unrepeated s := by
  induction h with
  | start hs =>
    subst hs
    exact unrepeated_new
  | @next s s' c hrun hguard hstep ih =>
    have hbefore := hd.before hstep
    cases c with
    | deal modifiedMap clk txs => exact (ih hbefore).deal hstep
    | blockInfo modifiedMap clk b =>
      exact (ih hbefore).blockInfo (backed_of_run hrun) hbefore hguard.1 hguard.2 hstep

/-- The entries of a raw hash are among the transactions made for it, of which there are two. -/
theorem Unrepeated.entries_length (hu : Unrepeated s) (hb : Backed cfg s) (hd : Distinct s)
    (rawHash : Hash) : (Broker.entries s.committee.rawTx2BrokerTx rawHash).length ≤ 2 := by
  obtain ⟨hnodup, hmade⟩ := hu.entries rawHash
  let made := (s.tx1s ++ s.tx2s).filter fun tx => tx.rawTxHash == some rawHash
  have hsub : Broker.entries s.committee.rawTx2BrokerTx rawHash ⊆ made.map (·.tx.txHash) := by
    intro h hh
    obtain ⟨-, tx, htx, hhash, hraw⟩ := hmade h hh
    exact List.mem_map.mpr ⟨tx, List.mem_filter.mpr ⟨htx, beq_iff_eq.mpr hraw⟩, hhash⟩
  have hcount : made.length = (s.tx1s.map (·.rawTxHash)).count (some rawHash) +
      (s.tx2s.map (·.rawTxHash)).count (some rawHash) := by
    rw [← List.countP_eq_length_filter, List.countP_append, List.count_eq_countP,
      List.count_eq_countP, List.countP_map, List.countP_map]
    rfl
  have h1 := List.nodup_iff_count_le_one.mp (hb.tx1s_nodup hd) (some rawHash)
  have h2 := List.nodup_iff_count_le_one.mp hu.tx2s (some rawHash)
  calc (Broker.entries s.committee.rawTx2BrokerTx rawHash).length
      ≤ (made.map (·.tx.txHash)).length := (hnodup.subperm hsub).length_le
    _ = made.length := List.length_map _
    _ ≤ 2 := by omega

/-- **One `tx1` and at most one `tx2`.**  In every run in which no transaction is reported a second
time, each raw transaction has one `tx1` and at most one `tx2`, made after the report of the
`tx1`, and at most two entries. -/
theorem one_tx1_and_tx2 (h : Reach (callStep cfg) FirstReport (· = newHistory) s)
    (hd : Distinct s) : OncePerRaw s := by
  have hb := backed_of_run h
  have hu := unrepeated_of_run h hd
  refine ⟨?_, ?_, hb.after, hu.entries_length hb hd⟩
  · intro raw hraw
    refine List.count_eq_one_of_mem (hb.tx1s_nodup hd) ?_
    rw [hb.tx1s]
    exact List.mem_map.mpr ⟨raw, hraw, rfl⟩
  · intro raw _
    exact List.nodup_iff_count_le_one.mp hu.tx2s _

/-! ### One transfer -/

/-- Hashes by the reading of the clock; one broker, of the first of two shards. -/
def clockConfig : Config :=
  ⟨fun _ _ _ _ now => [UInt8.ofNat now], fun meg => meg.tx.tx.txHash, 2, ["0000000000000002"]⟩

/-- A transfer from shard 0 to shard 1, with the hash `[0]`. -/
def rawTx : BrokerTx :=
  ⟨⟨"0000000000000000", "0000000000000001", 0, 5, [0]⟩, false, false, "", "", none⟩

/-- The transfer is dealt with at time 1. -/
def dealRaw : Call := .deal ∅ (fun _ => 1) [rawTx]

/-- A block with the transactions `hs` is reported at time `now`. -/
def report (now : Time) (hs : List Hash) : Call := .blockInfo ∅ (fun _ => now) ⟨1, hs, []⟩

instance (s : History) : Decidable (Distinct s) := inferInstanceAs (Decidable (List.Nodup _))

theorem one_tx1_and_tx2_transfer :
    ∃ s, Reach (callStep clockConfig) FirstReport (· = newHistory) s ∧
    entries s.committee.rawTx2BrokerTx [0] = [[1], [2]] ∧ OncePerRaw s := by
  have hstart : Reach (callStep clockConfig) FirstReport (· = newHistory) newHistory := .start rfl
  obtain ⟨s, hs, hentries, hd⟩ := exists_reach_of_run [dealRaw, report 2 [[1]], report 3 [[2]]]
    (fun s => entries s.committee.rawTx2BrokerTx [0] = [[1], [2]] ∧ Distinct s) hstart
    (by decide +kernel)
  exact ⟨s, hs, hentries, one_tx1_and_tx2 hs hd⟩

/-- The block with `tx1` is reported twice: there are two `tx2`, and when these are reported, four
entries. -/
theorem tx1_reported_twice : ∃ s, Reach (callStep clockConfig) anyStep (· = newHistory) s ∧
    Distinct s ∧ rawTx ∈ s.raws ∧ (s.tx2s.map (·.rawTxHash)).count (some [0]) = 2 ∧
    (entries s.committee.rawTx2BrokerTx [0]).length = 4 := by
  have hstart : Reach (callStep clockConfig) anyStep (· = newHistory) newHistory := .start rfl
  exact exists_reach_of_run [dealRaw, report 2 [[1]], report 3 [[1]], report 4 [[2], [3]]] _ hstart
    (by decide +kernel)

end Aster.Broker
