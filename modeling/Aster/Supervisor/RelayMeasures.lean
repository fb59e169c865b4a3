import Aster.Core.Transaction
import Aster.Lib.Containers
import Aster.Lib.Matching

/-!
# The measures of relay runs

`TestCrossTxRate_Relay` and `TestModule_avgTPS_Relay` count what the shards report: a half for
each relay transaction, and for an executed one a half or a whole, by whether its relay
transaction was reported before.  Counts are multiples of one half and are exact here.

A report is a batch with openings, its relay transactions, and closings, its executed ones
(`Aster.Lib.Matching`).

* `TestCrossTxRateRelay.sums_eq`, `TestModuleAvgTPSRelay.sums_eq`: the totals over all epochs
  after any reports;
* **`relay_measures_exact_iff`**: when every cross-shard transaction is counted once.
-/

namespace Aster.Supervisor

open Aster.Core Aster.Lib Aster.Lib.Containers Aster.Lib.Matching

/-- The report of a block, as far as the relay measures read it. -/
structure BlockInfoMsg where
  blockBodyLength : ℤ
  excutedTxs : List Transaction
  epoch : ℤ
  proposeTime : Time
  commitTime : Time
  relay1TxNum : UInt64
  relay1Txs : List Transaction
  deriving DecidableEq

/-! ### The cross-shard rate -/

structure TestCrossTxRateRelay where
  epochID : ℤ
  totTxNum : List ℚ
  totCrossTxNum : List ℚ
  /-- The hashes of the relay transactions that were counted. -/
  relayTxRecord : Finset Hash

namespace TestCrossTxRateRelay

def new : TestCrossTxRateRelay := ⟨-1, [], [], ∅⟩

/-- The loop that makes room for the epoch. -/
def extend (t : TestCrossTxRateRelay) (epochid : ℤ) : TestCrossTxRateRelay :=
  { t with
    epochID := max t.epochID epochid
    totTxNum := t.totTxNum ++ List.replicate (epochid - t.epochID).toNat 0
    totCrossTxNum := t.totCrossTxNum ++ List.replicate (epochid - t.epochID).toNat 0 }

def addRelay1 (epochid : ℤ) (t : TestCrossTxRateRelay) (r1tx : Transaction) :
    Option TestCrossTxRateRelay := do
  let totCrossTxNum ← modifyAt (· + 1 / 2) t.totCrossTxNum epochid
  let totTxNum ← modifyAt (· + 1 / 2) t.totTxNum epochid
  some { t with
    totTxNum := totTxNum
    totCrossTxNum := totCrossTxNum
    relayTxRecord := insert r1tx.txHash t.relayTxRecord }

def addExcuted (epochid : ℤ) (t : TestCrossTxRateRelay) (tx : Transaction) :
    Option TestCrossTxRateRelay :=
  if tx.txHash ∉ t.relayTxRecord then do
    let totTxNum ← modifyAt (· + 1) t.totTxNum epochid
    some { t with totTxNum := totTxNum }
  else do
    let totTxNum ← modifyAt (· + 1 / 2) t.totTxNum epochid
    let totCrossTxNum ← modifyAt (· + 1 / 2) t.totCrossTxNum epochid
    some { t with totTxNum := totTxNum, totCrossTxNum := totCrossTxNum }

def updateMeasureRecord (t : TestCrossTxRateRelay) (b : BlockInfoMsg) :
    Option TestCrossTxRateRelay :=
  if b.blockBodyLength = 0 then some t
  else do
    let t ← b.relay1Txs.foldlM (addRelay1 b.epoch) (t.extend b.epoch)
    b.excutedTxs.foldlM (addExcuted b.epoch) t

end TestCrossTxRateRelay

/-! ### The average TPS -/

structure TestModuleAvgTPSRelay where
  epochID : ℤ
  excutedTxNum : List ℚ
  relayTx : Finset Hash
  /-- When an epoch starts; the zero time if it has not. -/
  startTime : List Time
  endTime : List Time

namespace TestModuleAvgTPSRelay

def new : TestModuleAvgTPSRelay := ⟨-1, [], ∅, [], []⟩

def extend (t : TestModuleAvgTPSRelay) (epochid : ℤ) : TestModuleAvgTPSRelay :=
  { t with
    epochID := max t.epochID epochid
    excutedTxNum := t.excutedTxNum ++ List.replicate (epochid - t.epochID).toNat 0
    startTime := t.startTime ++ List.replicate (epochid - t.epochID).toNat 0
    endTime := t.endTime ++ List.replicate (epochid - t.epochID).toNat 0 }

/-- The loop over the executed transactions. -/
def addExcuted (relayTx : Finset Hash) (epochid : ℤ) (excutedTxNum : List ℚ) (tx : Transaction) :
    Option (List ℚ) :=
  if tx.txHash ∈ relayTx then modifyAt (· + 1 / 2) excutedTxNum epochid
  else modifyAt (· + 1) excutedTxNum epochid

def earlier (earliestTime startTime : Time) : Time :=
  if startTime = 0 ∨ earliestTime < startTime then earliestTime else startTime

def later (latestTime endTime : Time) : Time :=
  if endTime = 0 ∨ endTime < latestTime then latestTime else endTime

def updateMeasureRecord (t : TestModuleAvgTPSRelay) (b : BlockInfoMsg) :
    Option TestModuleAvgTPSRelay :=
  if b.blockBodyLength = 0 then some t
  else do
    let t := t.extend b.epoch
    let relayTx := b.relay1Txs.foldl (fun relayTx tx => insert tx.txHash relayTx) t.relayTx
    let excutedTxNum ← modifyAt (· + (b.relay1TxNum.toNat : ℚ) / 2) t.excutedTxNum b.epoch
    let excutedTxNum ← b.excutedTxs.foldlM (addExcuted relayTx b.epoch) excutedTxNum
    let startTime ← modifyAt (earlier b.proposeTime) t.startTime b.epoch
    let endTime ← modifyAt (later b.commitTime) t.endTime b.epoch
    some ⟨t.epochID, excutedTxNum, relayTx, startTime, endTime⟩

end TestModuleAvgTPSRelay

/-! ### Reports as batches -/

def BlockInfoMsg.relayHashes (b : BlockInfoMsg) : List Hash := b.relay1Txs.map Transaction.txHash

def BlockInfoMsg.excutedHashes (b : BlockInfoMsg) : List Hash := b.excutedTxs.map Transaction.txHash

/-- What is counted of a report: nothing of an empty block. -/
def BlockInfoMsg.batch (b : BlockInfoMsg) : Batch Hash :=
  if b.blockBodyLength = 0 then ⟨[], []⟩ else ⟨b.relayHashes, b.excutedHashes⟩

/-- `Relay1TxNum`, as far as it is counted. -/
def BlockInfoMsg.relayNum (b : BlockInfoMsg) : ℕ :=
  if b.blockBodyLength = 0 then 0 else b.relay1TxNum.toNat

/-- What an executed transaction counts. -/
def weight (record : Finset Hash) (tx : Transaction) : ℚ :=
  if tx.txHash ∈ record then 1 / 2 else 1

theorem sum_weight (record : Finset Hash) (txs : List Transaction) :
    (txs.map (weight record)).sum =
      txs.length - ((txs.map Transaction.txHash).countP (· ∈ record) : ℚ) / 2 := by
  induction txs with
  | nil => simp
  | cons tx txs ih =>
    rw [List.map_cons, List.sum_cons, ih, List.map_cons, List.countP_cons, List.length_cons, weight]
    by_cases htx : tx.txHash ∈ record
    · simp [htx]
      ring
    · simp [htx]
      ring

/-- What the executed transactions leave for the cross-shard count. -/
theorem sum_one_sub_weight (record : Finset Hash) (txs : List Transaction) :
    (txs.map fun tx => 1 - weight record tx).sum =
      ((txs.map Transaction.txHash).countP (· ∈ record) : ℚ) / 2 := by
  have hsum : (txs.map fun tx => 1 - weight record tx).sum =
      txs.length - (txs.map (weight record)).sum := by
    induction txs with
    | nil => simp
    | cons tx txs ih =>
      rw [List.map_cons, List.sum_cons, ih, List.map_cons, List.sum_cons, List.length_cons]
      push_cast
      ring
  rw [hsum, sum_weight]
  ring

/-! ### The totals of the cross-shard rate -/

namespace TestCrossTxRateRelay

variable {t t' : TestCrossTxRateRelay} {b : BlockInfoMsg} {epochid : ℤ}

/-- There is a count for each epoch. -/
structure Covers (t : TestCrossTxRateRelay) : Prop where
  tot : (t.totTxNum.length : ℤ) = t.epochID + 1
  cross : (t.totCrossTxNum.length : ℤ) = t.epochID + 1

theorem Covers.extend (h : Covers t) (epochid : ℤ) :
    Covers (t.extend epochid) ∧ epochid ≤ (t.extend epochid).epochID ∧
      (t.extend epochid).totTxNum.sum = t.totTxNum.sum ∧
      (t.extend epochid).totCrossTxNum.sum = t.totCrossTxNum.sum := by
  have htot := h.tot
  have hcross := h.cross
  refine ⟨⟨?_, ?_⟩, le_max_right _ _, by simp [TestCrossTxRateRelay.extend],
    by simp [TestCrossTxRateRelay.extend]⟩
  · simp only [TestCrossTxRateRelay.extend, List.length_append, List.length_replicate]
    omega
  · simp only [TestCrossTxRateRelay.extend, List.length_append, List.length_replicate]
    omega

/-- The sums of both counts. -/
def sums (t : TestCrossTxRateRelay) : ℚ × ℚ := (t.totTxNum.sum, t.totCrossTxNum.sum)

theorem addRelay1_spec (h : Covers t) (h₀ : 0 ≤ epochid) (he : epochid ≤ t.epochID)
    (r1tx : Transaction) :
    ∃ t', addRelay1 epochid t r1tx = some t' ∧ Covers t' ∧ t'.epochID = t.epochID ∧
      t'.relayTxRecord = insert r1tx.txHash t.relayTxRecord ∧
      t'.sums = t.sums + (1 / 2, 1 / 2) := by
  have htot := h.tot
  have hcross := h.cross
  obtain ⟨l₁, h₁, hlen₁, hsum₁⟩ := modifyAt_add (1 / 2) (l := t.totCrossTxNum) (k := epochid)
    ⟨h₀, by omega⟩
  obtain ⟨l₂, h₂, hlen₂, hsum₂⟩ := modifyAt_add (1 / 2) (l := t.totTxNum) (k := epochid)
    ⟨h₀, by omega⟩
  rw [addRelay1, h₁, Option.bind_eq_bind, Option.bind_some, h₂]
  refine ⟨_, rfl, ⟨by rw [← htot, ← hlen₂], by rw [← hcross, ← hlen₁]⟩, rfl, rfl, ?_⟩
  exact Prod.ext hsum₂ hsum₁

theorem addExcuted_spec (h : Covers t) (h₀ : 0 ≤ epochid) (he : epochid ≤ t.epochID)
    (tx : Transaction) :
    ∃ t', addExcuted epochid t tx = some t' ∧ Covers t' ∧ t'.epochID = t.epochID ∧
      t'.relayTxRecord = t.relayTxRecord ∧
      t'.sums = t.sums + (weight t.relayTxRecord tx, 1 - weight t.relayTxRecord tx) := by
  have htot := h.tot
  have hcross := h.cross
  rw [addExcuted, weight]
  by_cases htx : tx.txHash ∈ t.relayTxRecord
  · obtain ⟨l₁, h₁, hlen₁, hsum₁⟩ := modifyAt_add (1 / 2) (l := t.totTxNum) (k := epochid)
      ⟨h₀, by omega⟩
    obtain ⟨l₂, h₂, hlen₂, hsum₂⟩ := modifyAt_add (1 / 2) (l := t.totCrossTxNum) (k := epochid)
      ⟨h₀, by omega⟩
    rw [if_neg (not_not.mpr htx), if_pos htx, h₁, Option.bind_eq_bind, Option.bind_some, h₂]
    refine ⟨_, rfl, ⟨by rw [← htot, ← hlen₁], by rw [← hcross, ← hlen₂]⟩, rfl, rfl, ?_⟩
    refine Prod.ext hsum₁ (hsum₂.trans ?_)
    show _ = t.totCrossTxNum.sum + (1 - 1 / 2)
    norm_num
  · obtain ⟨l₁, h₁, hlen₁, hsum₁⟩ := modifyAt_add 1 (l := t.totTxNum) (k := epochid)
      ⟨h₀, by omega⟩
    rw [if_pos htx, if_neg htx, h₁]
    refine ⟨_, rfl, ⟨by rw [← htot, ← hlen₁], hcross⟩, rfl, rfl, ?_⟩
    refine Prod.ext hsum₁ ?_
    show t.totCrossTxNum.sum = t.totCrossTxNum.sum + (1 - 1)
    norm_num

/-- The loop over the relay transactions. -/
theorem foldlM_addRelay1 (h : Covers t) (h₀ : 0 ≤ epochid) (he : epochid ≤ t.epochID)
    (txs : List Transaction) :
    ∃ t', txs.foldlM (addRelay1 epochid) t = some t' ∧ Covers t' ∧ t'.epochID = t.epochID ∧
      t'.relayTxRecord = t.relayTxRecord ∪ (txs.map Transaction.txHash).toFinset ∧
      t'.sums = t.sums + ((txs.length : ℚ) / 2, (txs.length : ℚ) / 2) := by
  induction txs generalizing t with
  | nil => exact ⟨t, rfl, h, rfl, by simp, by simp⟩
  | cons tx txs ih =>
    obtain ⟨t₁, h₁, hc₁, he₁, hr₁, hs₁⟩ := addRelay1_spec h h₀ he tx
    obtain ⟨t', h', hc', he', hr', hs'⟩ := ih hc₁ (he₁ ▸ he)
    refine ⟨t', ?_, hc', he'.trans he₁, ?_, ?_⟩
    · rw [List.foldlM_cons, h₁]
      exact h'
    · rw [hr', hr₁, List.map_cons, List.toFinset_cons, Finset.insert_union, Finset.union_insert]
    · have hhalf : (1 / 2 : ℚ) + txs.length / 2 = ((txs.length + 1 : ℕ) : ℚ) / 2 := by
        push_cast
        ring
      rw [hs', hs₁, List.length_cons, add_assoc, ← hhalf]
      rfl

theorem update_spec (h : Covers t) (he : b.blockBodyLength ≠ 0 → 0 ≤ b.epoch) :
    ∃ t', t.updateMeasureRecord b = some t' ∧ Covers t' ∧
      t'.relayTxRecord = t.relayTxRecord ∪ b.batch.opens.toFinset ∧
      t'.totTxNum.sum = t.totTxNum.sum + (b.batch.opens.length : ℚ) / 2 + b.batch.closes.length -
        (b.batch.closes.countP (· ∈ t.relayTxRecord ∪ b.batch.opens.toFinset) : ℚ) / 2 ∧
      t'.totCrossTxNum.sum = t.totCrossTxNum.sum + (b.batch.opens.length : ℚ) / 2 +
        (b.batch.closes.countP (· ∈ t.relayTxRecord ∪ b.batch.opens.toFinset) : ℚ) / 2 := by
  rw [updateMeasureRecord, BlockInfoMsg.batch]
  by_cases hbody : b.blockBodyLength = 0
  · simp only [if_pos hbody]
    exact ⟨t, rfl, h, by simp, by simp, by simp⟩
  simp only [if_neg hbody]
  obtain ⟨hext, hepoch, htot, hcross⟩ := h.extend b.epoch
  obtain ⟨t₁, h₁, hc₁, he₁, hr₁, hs₁⟩ := foldlM_addRelay1 hext (he hbody) hepoch b.relay1Txs
  obtain ⟨t', h', ⟨hc', he', hr'⟩, hs'⟩ := foldlM_total (l := b.excutedTxs)
    (P := fun s => Covers s ∧ s.epochID = t₁.epochID ∧ s.relayTxRecord = t₁.relayTxRecord) sums
    (fun tx => (weight t₁.relayTxRecord tx, 1 - weight t₁.relayTxRecord tx))
    (fun s hs tx _ => by
      obtain ⟨s', hadd, hc, hid, hrec, hsum⟩ :=
        addExcuted_spec hs.1 (he hbody) (hs.2.1 ▸ he₁ ▸ hepoch) tx
      exact ⟨s', hadd, ⟨hc, hid.trans hs.2.1, hrec.trans hs.2.2⟩, hs.2.2 ▸ hsum⟩)
    ⟨hc₁, rfl, rfl⟩
  have hrecord : t₁.relayTxRecord = t.relayTxRecord ∪ b.relayHashes.toFinset := hr₁
  rw [hs₁, hrecord] at hs'
  refine ⟨t', ?_, hc', hr'.trans hrecord, ?_, ?_⟩
  · rw [h₁]
    exact h'
  · have hfst := congrArg (AddMonoidHom.fst ℚ ℚ) hs'
    rw [map_add, map_add, map_list_sum, List.map_map] at hfst
    refine hfst.trans ?_
    show (t.extend b.epoch).totTxNum.sum + (b.relay1Txs.length : ℚ) / 2 +
      (b.excutedTxs.map (weight (t.relayTxRecord ∪ b.relayHashes.toFinset))).sum = _
    rw [sum_weight, htot, BlockInfoMsg.relayHashes, BlockInfoMsg.excutedHashes, List.length_map,
      List.length_map, add_sub_assoc]
  · have hsnd := congrArg (AddMonoidHom.snd ℚ ℚ) hs'
    rw [map_add, map_add, map_list_sum, List.map_map] at hsnd
    refine hsnd.trans ?_
    show (t.extend b.epoch).totCrossTxNum.sum + (b.relay1Txs.length : ℚ) / 2 +
      (b.excutedTxs.map fun tx =>
        1 - weight (t.relayTxRecord ∪ b.relayHashes.toFinset) tx).sum = _
    rw [sum_one_sub_weight, hcross, BlockInfoMsg.relayHashes, BlockInfoMsg.excutedHashes,
      List.length_map]

/-- **The totals of any reports.** -/
theorem sums_eq (ms : List BlockInfoMsg) (h : Covers t)
    (he : ∀ b ∈ ms, b.blockBodyLength ≠ 0 → 0 ≤ b.epoch) :
    ∃ t', ms.foldlM updateMeasureRecord t = some t' ∧
      t'.totTxNum.sum = t.totTxNum.sum + ((opens (ms.map BlockInfoMsg.batch)).length : ℚ) / 2 +
        (closes (ms.map BlockInfoMsg.batch)).length -
        (matched t.relayTxRecord (ms.map BlockInfoMsg.batch) : ℚ) / 2 ∧
      t'.totCrossTxNum.sum = t.totCrossTxNum.sum +
        ((opens (ms.map BlockInfoMsg.batch)).length : ℚ) / 2 +
        (matched t.relayTxRecord (ms.map BlockInfoMsg.batch) : ℚ) / 2 := by
  induction ms generalizing t with
  | nil => exact ⟨t, rfl, by simp [opens, closes, matched], by simp [opens, matched]⟩
  | cons b ms ih =>
    rw [List.forall_mem_cons] at he
    obtain ⟨t₁, h₁, hc₁, hr₁, htot₁, hcross₁⟩ := update_spec h he.1
    obtain ⟨t', h', htot', hcross'⟩ := ih hc₁ he.2
    refine ⟨t', ?_, ?_, ?_⟩
    · rw [List.foldlM_cons, h₁]
      exact h'
    · rw [htot', htot₁, hr₁, List.map_cons, matched, opens, closes, opens, closes,
        List.flatMap_cons, List.flatMap_cons, List.length_append, List.length_append]
      push_cast
      ring
    · rw [hcross', hcross₁, hr₁, List.map_cons, matched, opens, opens, List.flatMap_cons,
        List.length_append]
      push_cast
      ring

end TestCrossTxRateRelay

/-! ### The total of the average TPS -/

namespace TestModuleAvgTPSRelay

variable {t t' : TestModuleAvgTPSRelay} {b : BlockInfoMsg}

structure Covers (t : TestModuleAvgTPSRelay) : Prop where
  excuted : (t.excutedTxNum.length : ℤ) = t.epochID + 1
  start : (t.startTime.length : ℤ) = t.epochID + 1
  stop : (t.endTime.length : ℤ) = t.epochID + 1

theorem Covers.extend (h : Covers t) (epochid : ℤ) :
    Covers (t.extend epochid) ∧ epochid ≤ (t.extend epochid).epochID ∧
      (t.extend epochid).excutedTxNum.sum = t.excutedTxNum.sum := by
  have hexcuted := h.excuted
  have hstart := h.start
  have hstop := h.stop
  refine ⟨⟨?_, ?_, ?_⟩, le_max_right _ _, by simp [TestModuleAvgTPSRelay.extend]⟩ <;>
    simp only [TestModuleAvgTPSRelay.extend, List.length_append, List.length_replicate] <;>
    omega

theorem foldl_insert (record : Finset Hash) (txs : List Transaction) :
    txs.foldl (fun record tx => insert tx.txHash record) record =
      record ∪ (txs.map Transaction.txHash).toFinset := by
  induction txs generalizing record with
  | nil => simp
  | cons tx txs ih =>
    rw [List.foldl_cons, ih, List.map_cons, List.toFinset_cons, Finset.insert_union,
      Finset.union_insert]

/-- The loop over the executed transactions adds their weights. -/
theorem foldlM_addExcuted (record : Finset Hash) (epochid : ℤ) {l : List ℚ}
    (hk : 0 ≤ epochid ∧ epochid < l.length) (txs : List Transaction) :
    ∃ l', txs.foldlM (addExcuted record epochid) l = some l' ∧ l'.length = l.length ∧
      l'.sum = l.sum + (txs.map (weight record)).sum := by
  refine foldlM_total (P := fun l' : List ℚ => l'.length = l.length) List.sum (weight record)
    (fun l' hl' tx _ => ?_) rfl
  rw [← hl'] at hk ⊢
  rw [addExcuted, weight]
  split_ifs with htx
  · exact modifyAt_add (1 / 2) hk
  · exact modifyAt_add 1 hk

theorem update_spec (h : Covers t) (he : b.blockBodyLength ≠ 0 → 0 ≤ b.epoch) :
    ∃ t', t.updateMeasureRecord b = some t' ∧ Covers t' ∧
      t'.relayTx = t.relayTx ∪ b.batch.opens.toFinset ∧
      t'.excutedTxNum.sum = t.excutedTxNum.sum + (b.relayNum : ℚ) / 2 + b.batch.closes.length -
        (b.batch.closes.countP (· ∈ t.relayTx ∪ b.batch.opens.toFinset) : ℚ) / 2 := by
  rw [updateMeasureRecord, BlockInfoMsg.batch, BlockInfoMsg.relayNum]
  by_cases hbody : b.blockBodyLength = 0
  · simp only [if_pos hbody]
    exact ⟨t, rfl, h, by simp, by simp⟩
  simp only [if_neg hbody]
  obtain ⟨hext, hepoch, hsum⟩ := h.extend b.epoch
  have hexcuted := hext.excuted
  have hstart := hext.start
  have hstop := hext.stop
  have h₀ := he hbody
  obtain ⟨l₁, h₁, hlen₁, hsum₁⟩ := modifyAt_add ((b.relay1TxNum.toNat : ℚ) / 2)
    (l := (t.extend b.epoch).excutedTxNum) (k := b.epoch) ⟨h₀, by omega⟩
  obtain ⟨l₂, h₂, hlen₂, hsum₂⟩ := foldlM_addExcuted (t.relayTx ∪ b.relayHashes.toFinset)
    b.epoch (l := l₁) ⟨h₀, by omega⟩ b.excutedTxs
  obtain ⟨l₃, h₃⟩ := Option.isSome_iff_exists.mp ((modifyAt_isSome_iff (earlier b.proposeTime)
    (t.extend b.epoch).startTime b.epoch).mpr ⟨h₀, by omega⟩)
  obtain ⟨l₄, h₄⟩ := Option.isSome_iff_exists.mp ((modifyAt_isSome_iff (later b.commitTime)
    (t.extend b.epoch).endTime b.epoch).mpr ⟨h₀, by omega⟩)
  have hlen₃ := length_of_modifyAt h₃
  have hlen₄ := length_of_modifyAt h₄
  have hrecord : b.relay1Txs.foldl (fun record tx => insert tx.txHash record)
      (t.extend b.epoch).relayTx = t.relayTx ∪ b.relayHashes.toFinset := foldl_insert t.relayTx _
  rw [hrecord, h₁]
  simp only [Option.bind_eq_bind, Option.bind_some, h₂, h₃, h₄]
  refine ⟨_, rfl, ⟨?_, ?_, ?_⟩, rfl, ?_⟩
  · rw [hlen₂, hlen₁, hexcuted]
  · rw [hlen₃, hstart]
  · rw [hlen₄, hstop]
  · rw [hsum₂, hsum₁, hsum, sum_weight, BlockInfoMsg.excutedHashes, List.length_map,
      add_sub_assoc]

theorem sums_eq (ms : List BlockInfoMsg) (h : Covers t)
    (he : ∀ b ∈ ms, b.blockBodyLength ≠ 0 → 0 ≤ b.epoch) :
    ∃ t', ms.foldlM updateMeasureRecord t = some t' ∧
      t'.excutedTxNum.sum = t.excutedTxNum.sum + ((ms.map BlockInfoMsg.relayNum).sum : ℚ) / 2 +
        (closes (ms.map BlockInfoMsg.batch)).length -
        (matched t.relayTx (ms.map BlockInfoMsg.batch) : ℚ) / 2 := by
  induction ms generalizing t with
  | nil => exact ⟨t, rfl, by simp [closes, matched]⟩
  | cons b ms ih =>
    rw [List.forall_mem_cons] at he
    obtain ⟨t₁, h₁, hc₁, hr₁, hsum₁⟩ := update_spec h he.1
    obtain ⟨t', h', hsum'⟩ := ih hc₁ he.2
    refine ⟨t', ?_, ?_⟩
    · rw [List.foldlM_cons, h₁]
      exact h'
    · rw [hsum', hsum₁, hr₁, List.map_cons, List.map_cons, List.sum_cons, matched, closes, closes,
        List.flatMap_cons, List.length_append]
      push_cast
      ring

/-- A report with transactions and a negative epoch is an index out of range. -/
theorem epoch_nonneg_of_update (h : t.updateMeasureRecord b = some t')
    (hbody : b.blockBodyLength ≠ 0) : 0 ≤ b.epoch := by
  rw [updateMeasureRecord, if_neg hbody] at h
  obtain ⟨l, hl, -⟩ := Option.bind_eq_some_iff.mp h
  exact (bounds_of_modifyAt hl).1

theorem epochs_nonneg_of_run {ms : List BlockInfoMsg}
    (h : ms.foldlM updateMeasureRecord t = some t') :
    ∀ b ∈ ms, b.blockBodyLength ≠ 0 → 0 ≤ b.epoch := by
  induction ms generalizing t with
  | nil => simp
  | cons b ms ih =>
    rw [List.foldlM_cons] at h
    obtain ⟨t₁, h₁, hrest⟩ := Option.bind_eq_some_iff.mp h
    exact List.forall_mem_cons.mpr ⟨epoch_nonneg_of_update h₁, ih hrest⟩

end TestModuleAvgTPSRelay

/-! ### Exact counts -/

def relayHashes (ms : List BlockInfoMsg) : List Hash := ms.flatMap BlockInfoMsg.relayHashes

def excutedHashes (ms : List BlockInfoMsg) : List Hash := ms.flatMap BlockInfoMsg.excutedHashes

/-- Each cross-shard transaction is reported once as a relay transaction and once as executed. -/
def Paired (ms : List BlockInfoMsg) : Prop :=
  ∀ h ∈ relayHashes ms, (relayHashes ms).count h = 1 ∧ (excutedHashes ms).count h = 1

/-- After the reports in this order, every transaction counts one, and every cross-shard
transaction one among them. -/
def ExactCounts (ms : List BlockInfoMsg) (txNum crossTxNum : ℕ) : Prop :=
  ∃ c t, ms.foldlM TestCrossTxRateRelay.updateMeasureRecord .new = some c ∧
    ms.foldlM TestModuleAvgTPSRelay.updateMeasureRecord .new = some t ∧
    c.totTxNum.sum = txNum ∧ c.totCrossTxNum.sum = crossTxNum ∧ t.excutedTxNum.sum = txNum

/-- Reports that are counted exactly. -/
structure Orderly (ms : List BlockInfoMsg) : Prop where
  epochs : ∀ b ∈ ms, b.blockBodyLength ≠ 0 → 0 ≤ b.epoch
  /-- A report of an empty block has no transactions. -/
  empty : ∀ b ∈ ms, b.blockBodyLength = 0 → b.relayHashes = [] ∧ b.excutedHashes = []
  number : (ms.map BlockInfoMsg.relayNum).sum = (relayHashes ms).length
  /-- No transaction is reported as executed before it is reported as a relay transaction. -/
  order : ms.Pairwise fun a b => ∀ h ∈ a.excutedHashes, h ∉ b.relayHashes

section Exact

variable {ms : List BlockInfoMsg}

/-- The hashes of the reports that are counted are some of all hashes, and all of them when the
others have none. -/
theorem counted_sublist (g : BlockInfoMsg → List Hash) (ms : List BlockInfoMsg) :
    (ms.flatMap fun b => if b.blockBodyLength = 0 then [] else g b).Sublist (ms.flatMap g) := by
  induction ms with
  | nil => exact List.Sublist.refl _
  | cons b ms ih =>
    rw [List.flatMap_cons, List.flatMap_cons]
    refine List.Sublist.append ?_ ih
    split_ifs
    · exact List.nil_sublist _
    · exact List.Sublist.refl _

theorem eq_nil_of_counted (g : BlockInfoMsg → List Hash)
    (h : (ms.flatMap g).length ≤
      (ms.flatMap fun b => if b.blockBodyLength = 0 then [] else g b).length) :
    ∀ b ∈ ms, b.blockBodyLength = 0 → g b = [] := by
  induction ms with
  | nil => simp
  | cons b ms ih =>
    have hle := (counted_sublist g ms).length_le
    simp only [List.flatMap_cons, List.length_append] at h
    rw [List.forall_mem_cons]
    by_cases hbody : b.blockBodyLength = 0
    · rw [if_pos hbody, List.length_nil] at h
      exact ⟨fun _ => List.length_eq_zero_iff.mp (by omega), ih (by omega)⟩
    · rw [if_neg hbody] at h
      exact ⟨fun hzero => absurd hzero hbody, ih (by omega)⟩

/-- The batches of an empty block are empty. -/
theorem flatMap_batch {f : Batch Hash → List Hash} (hnil : f ⟨[], []⟩ = [])
    (ms : List BlockInfoMsg) :
    (ms.map BlockInfoMsg.batch).flatMap f =
      ms.flatMap fun b =>
        if b.blockBodyLength = 0 then [] else f ⟨b.relayHashes, b.excutedHashes⟩ := by
  rw [List.flatMap_map]
  refine List.flatMap_congr fun b _ => ?_
  rw [BlockInfoMsg.batch]
  split_ifs
  · exact hnil
  · rfl

theorem opens_batches (ms : List BlockInfoMsg) : opens (ms.map BlockInfoMsg.batch) =
    ms.flatMap fun b => if b.blockBodyLength = 0 then [] else b.relayHashes :=
  flatMap_batch rfl ms

theorem closes_batches (ms : List BlockInfoMsg) : closes (ms.map BlockInfoMsg.batch) =
    ms.flatMap fun b => if b.blockBodyLength = 0 then [] else b.excutedHashes :=
  flatMap_batch rfl ms

theorem Paired.atMostPaired (h : Paired ms) : AtMostPaired (ms.map BlockInfoMsg.batch) := by
  intro x hx
  rw [opens_batches] at hx ⊢
  rw [closes_batches]
  have hopen := counted_sublist BlockInfoMsg.relayHashes ms
  have hclose := counted_sublist BlockInfoMsg.excutedHashes ms
  obtain ⟨hone, hone'⟩ := h x (hopen.subset hx)
  have hpos := List.count_pos_iff.mpr hx
  have hle := hopen.count_le x
  have hle' := hclose.count_le x
  rw [relayHashes] at hone
  rw [excutedHashes] at hone'
  omega

/-- When empty blocks are reported without transactions, everything is counted. -/
theorem map_batch_eq
    (h : ∀ b ∈ ms, b.blockBodyLength = 0 → b.relayHashes = [] ∧ b.excutedHashes = []) :
    ms.map BlockInfoMsg.batch = ms.map fun b => ⟨b.relayHashes, b.excutedHashes⟩ := by
  refine List.map_congr_left fun b hb => ?_
  rw [BlockInfoMsg.batch]
  split_ifs with hbody
  · rw [(h b hb hbody).1, (h b hb hbody).2]
  · rfl

/-- All openings match exactly if the reports come in order. -/
theorem Paired.matched_iff (h : Paired ms)
    (hempty : ∀ b ∈ ms, b.blockBodyLength = 0 → b.relayHashes = [] ∧ b.excutedHashes = []) :
    matched ∅ (ms.map BlockInfoMsg.batch) = (relayHashes ms).length ↔
      ms.Pairwise fun a b => ∀ h ∈ a.excutedHashes, h ∉ b.relayHashes := by
  have hpaired := h.atMostPaired
  rw [map_batch_eq hempty] at hpaired ⊢
  have hopens : opens (ms.map fun b => (⟨b.relayHashes, b.excutedHashes⟩ : Batch Hash)) =
      relayHashes ms := List.flatMap_map _ _ _
  have hcloses : closes (ms.map fun b => (⟨b.relayHashes, b.excutedHashes⟩ : Batch Hash)) =
      excutedHashes ms := List.flatMap_map _ _ _
  have hiff := matched_eq_length_iff hpaired (by
    intro x hx
    rw [hopens] at hx
    rw [hcloses]
    exact List.count_pos_iff.mp (by rw [(h x hx).2]; exact Nat.one_pos))
  rw [hopens] at hiff
  rw [hiff, Ordered, List.pairwise_map]

/-- The totals in terms of what is counted. -/
theorem exactCounts_iff (he : ∀ b ∈ ms, b.blockBodyLength ≠ 0 → 0 ≤ b.epoch) (E R : ℕ) :
    ExactCounts ms E R ↔
      ((opens (ms.map BlockInfoMsg.batch)).length +
          2 * (closes (ms.map BlockInfoMsg.batch)).length =
          2 * E + matched ∅ (ms.map BlockInfoMsg.batch)) ∧
        (opens (ms.map BlockInfoMsg.batch)).length + matched ∅ (ms.map BlockInfoMsg.batch) =
          2 * R ∧
        ((ms.map BlockInfoMsg.relayNum).sum + 2 * (closes (ms.map BlockInfoMsg.batch)).length =
          2 * E + matched ∅ (ms.map BlockInfoMsg.batch)) := by
  obtain ⟨c, hc, htot, hcross⟩ := TestCrossTxRateRelay.sums_eq (t := .new) ms ⟨rfl, rfl⟩ he
  obtain ⟨t, ht, hsum⟩ := TestModuleAvgTPSRelay.sums_eq (t := .new) ms ⟨rfl, rfl, rfl⟩ he
  have hiff : ExactCounts ms E R ↔
      c.totTxNum.sum = E ∧ c.totCrossTxNum.sum = R ∧ t.excutedTxNum.sum = E := by
    rw [ExactCounts, hc, ht]
    simp
  rw [hiff, htot, hcross, hsum]
  have hzero : TestCrossTxRateRelay.new.totTxNum.sum = 0 ∧
      TestCrossTxRateRelay.new.totCrossTxNum.sum = 0 ∧
      TestModuleAvgTPSRelay.new.excutedTxNum.sum = 0 := ⟨rfl, rfl, rfl⟩
  rw [hzero.1, hzero.2.1, hzero.2.2]
  generalize (opens (ms.map BlockInfoMsg.batch)).length = o
  generalize (closes (ms.map BlockInfoMsg.batch)).length = k
  generalize (ms.map BlockInfoMsg.relayNum).sum = n
  show ((0 : ℚ) + o / 2 + k - (matched ∅ (ms.map BlockInfoMsg.batch) : ℚ) / 2 = E ∧
    (0 : ℚ) + o / 2 + (matched ∅ (ms.map BlockInfoMsg.batch) : ℚ) / 2 = R ∧
    (0 : ℚ) + n / 2 + k - (matched ∅ (ms.map BlockInfoMsg.batch) : ℚ) / 2 = E) ↔ _
  generalize matched ∅ (ms.map BlockInfoMsg.batch) = x
  have hcast : ∀ a b c d : ℕ, (0 : ℚ) + a / 2 + b - (c : ℚ) / 2 = d ↔ a + 2 * b = 2 * d + c := by
    intro a b c d
    rw [← Nat.cast_inj (R := ℚ)]
    push_cast
    constructor <;> intro h <;> linarith
  rw [hcast, hcast]
  refine and_congr_right fun _ => and_congr_left fun _ => ?_
  rw [← Nat.cast_inj (R := ℚ)]
  push_cast
  constructor <;> intro h <;> linarith

/-- **The relay measures.**  Reports are counted exactly, whatever their order, if and only if no
transaction is reported as executed before its relay transaction, empty blocks are reported
without transactions, `Relay1TxNum` adds up to the relay transactions, and epochs are not
negative. -/
theorem relay_measures_exact_iff {ms₀ ms : List BlockInfoMsg} (hperm : ms.Perm ms₀)
    (hpaired : Paired ms₀) :
    ExactCounts ms (excutedHashes ms₀).length (relayHashes ms₀).length ↔ Orderly ms := by
  have hrelay : (relayHashes ms).Perm (relayHashes ms₀) := hperm.flatMap_right _
  have hexcuted : (excutedHashes ms).Perm (excutedHashes ms₀) := hperm.flatMap_right _
  have hpaired' : Paired ms := by
    intro h hh
    rw [hrelay.count_eq, hexcuted.count_eq]
    exact hpaired h (hrelay.mem_iff.mp hh)
  rw [← hrelay.length_eq, ← hexcuted.length_eq]
  have hopen := (counted_sublist BlockInfoMsg.relayHashes ms).length_le
  have hclose := (counted_sublist BlockInfoMsg.excutedHashes ms).length_le
  have hmatched := matched_le hpaired'.atMostPaired
  rw [← opens_batches, ← relayHashes] at hopen
  rw [← closes_batches, ← excutedHashes] at hclose
  constructor
  · intro hexact
    have he : ∀ b ∈ ms, b.blockBodyLength ≠ 0 → 0 ≤ b.epoch := by
      obtain ⟨-, t, -, ht, -⟩ := hexact
      exact TestModuleAvgTPSRelay.epochs_nonneg_of_run ht
    obtain ⟨h₁, h₂, h₃⟩ := (exactCounts_iff he _ _).mp hexact
    have hempty : ∀ b ∈ ms, b.blockBodyLength = 0 →
        b.relayHashes = [] ∧ b.excutedHashes = [] := by
      intro b hb hbody
      refine ⟨eq_nil_of_counted BlockInfoMsg.relayHashes ?_ b hb hbody,
        eq_nil_of_counted BlockInfoMsg.excutedHashes ?_ b hb hbody⟩
      · rw [← opens_batches, ← relayHashes]
        omega
      · rw [← closes_batches, ← excutedHashes]
        omega
    exact ⟨he, hempty, by omega, (hpaired'.matched_iff hempty).mp (by omega)⟩
  · intro h
    rw [exactCounts_iff h.epochs]
    have hall := (hpaired'.matched_iff h.empty).mpr h.order
    have hnumber := h.number
    have hcloses : (closes (ms.map BlockInfoMsg.batch)).length = (excutedHashes ms).length := by
      rw [map_batch_eq h.empty, closes, List.flatMap_map]
      rfl
    omega

/-- The reports of one cross-shard transaction, by the shard of its sender and by the other. -/
def crossTx : Transaction := ⟨"a", "b", 0, 1, [1]⟩

def relayReport : BlockInfoMsg := ⟨1, [], 0, 1, 2, 1, [crossTx]⟩

def excutedReport : BlockInfoMsg := ⟨1, [crossTx], 0, 1, 3, 0, []⟩

theorem paired_reports : Paired [relayReport, excutedReport] := by
  rw [Paired]
  decide +kernel

theorem orderly_reports : Orderly [relayReport, excutedReport] :=
  ⟨by decide +kernel, by decide +kernel, by decide +kernel, by decide +kernel⟩

theorem relay_measures_exact_one : ExactCounts [relayReport, excutedReport] 1 1 :=
  (relay_measures_exact_iff (List.Perm.refl _) paired_reports).mpr orderly_reports

/-- In the other order the executed transaction counts as a whole, and its relay transaction as a
half besides. -/
theorem relay_measures_order_matters :
    [excutedReport, relayReport].Perm [relayReport, excutedReport] ∧
      Paired [relayReport, excutedReport] ∧
      ([relayReport, excutedReport].foldlM TestCrossTxRateRelay.updateMeasureRecord .new).map
        TestCrossTxRateRelay.sums = some (1, 1) ∧
      ([excutedReport, relayReport].foldlM TestCrossTxRateRelay.updateMeasureRecord .new).map
        TestCrossTxRateRelay.sums = some (3 / 2, 1 / 2) ∧
      ([excutedReport, relayReport].foldlM TestModuleAvgTPSRelay.updateMeasureRecord .new).map
        (fun t => t.excutedTxNum.sum) = some (3 / 2) :=
  ⟨List.Perm.swap _ _ _, paired_reports, by decide +kernel, by decide +kernel, by decide +kernel⟩

end Exact

end Aster.Supervisor
