import Aster.Broker.Committee
import Aster.Clpa.Repartition
import Aster.Lib.Compaction

/-!
# The transactions that go with the accounts

`sendAccounts_and_Txs` goes over the other shards, and for each over the whole queue: what belongs
to the accounts that are sent is taken out in place.  The relay and the broker variant differ in
what they do with a transaction (`relayVerdict`, `brokerVerdict`); the broker variant also takes
out transactions that become cross-shard ones, for the supervisor.

* `splitQueue` is one pass over the queue, with the pointers of the source;
* `transferLoop` is the loop over the shards; `transferLoop_relay` says that the relay variant is
  `sendLoop`;
* `Split`: what was queued is in exactly one of the lists, and the rest keeps its order.
-/

namespace Aster.Clpa

open Aster.Core Aster.Chain Aster.Lib.Compaction
open Aster.Broker (BrokerTx)

/-! ### The loops -/

/-- What a pass does with a transaction; `beCross` is the `append` to `txsBeCross`. -/
structure Verdict where
  beSend : Bool
  beCross : Bool
  beRemoved : Bool

/-- The relay variant. -/
def relayVerdict (addrSet : List Address) (ptx : PoolTx) : Verdict :=
  let condition1 := decide (ptx.tx.sender ∈ addrSet) && !ptx.relayed
  let condition2 := decide (ptx.tx.recipient ∈ addrSet) && ptx.relayed
  if condition1 || condition2 then ⟨true, false, true⟩ else ⟨false, false, false⟩

/-- The broker variant. -/
def brokerVerdict (addrSet : List Address) (ptx : BrokerTx) : Verdict :=
  let ok1 := decide (ptx.tx.sender ∈ addrSet)
  let ok2 := decide (ptx.tx.recipient ∈ addrSet)
  if ptx.rawTxHash = none then
    if ptx.hasBroker then
      if ptx.senderIsBroker then ⟨ok2, false, ok2⟩ else ⟨ok1, false, ok1⟩
    else if ok1 || ok2 then ⟨false, true, true⟩
    else ⟨false, false, false⟩
  else if ptx.finalRecipient = ptx.tx.recipient then ⟨ok2, false, ok2⟩
  else if ptx.originalSender = ptx.tx.sender then ⟨ok1, false, ok1⟩
  else ⟨false, false, false⟩

section Loops

variable {T : Type}

/-- `txSend` and `txsBeCross` after one transaction. -/
def collect (verdict : T → Verdict) (out : List T × List T) (ptx : T) : List T × List T :=
  (if (verdict ptx).beSend then out.1 ++ [ptx] else out.1,
    if (verdict ptx).beCross then out.2 ++ [ptx] else out.2)

/-- One pass over the queue: what is left, `txSend` and `txsBeCross`. -/
def splitQueue (verdict : T → Verdict) (queue txsBeCross : List T) :
    Option (List T × List T × List T) :=
  compact (fun ptx => (verdict ptx).beRemoved) (collect verdict) queue ([], txsBeCross)

/-- `AccountStateAndTx` with the transactions of either variant. -/
structure TransferMsg (T : Type) where
  addrs : List Address
  accountState : List AccountState
  fromShard : UInt64
  txs : List T

/-- The loop over the other shards: the messages, what is left of the queue and `txsBeCross`. -/
def transferLoop (verdict : List Address → T → Verdict) (self : UInt64) (m : PartitionMap)
    (fetched : List (Address × AccountState)) :
    List UInt64 → List T → List T → Option (List (UInt64 × TransferMsg T) × List T × List T)
  | [], queue, txsBeCross => some ([], queue, txsBeCross)
  | i :: is, queue, txsBeCross => do
    let send := fetched.filter fun e => m.lookup e.1 = some i
    let addrs := send.map (·.1)
    let (queue, txSend, txsBeCross) ← splitQueue (verdict addrs) queue txsBeCross
    let (msgs, rest) ← transferLoop verdict self m fetched is queue txsBeCross
    some ((i, ⟨addrs, send.map (·.2), self, txSend⟩) :: msgs, rest)

theorem foldl_collect (verdict : T → Verdict) (queue : List T) (out : List T × List T) :
    queue.foldl (collect verdict) out =
      (out.1 ++ queue.filter fun ptx => (verdict ptx).beSend,
        out.2 ++ queue.filter fun ptx => (verdict ptx).beCross) := by
  induction queue generalizing out with
  | nil => simp
  | cons ptx queue ih =>
    rw [List.foldl_cons, ih, collect]
    cases hsend : (verdict ptx).beSend <;> cases hcross : (verdict ptx).beCross <;>
      simp [hsend, hcross]

/-- **A pass is three filters.** -/
theorem splitQueue_eq (verdict : T → Verdict) (queue txsBeCross : List T) :
    splitQueue verdict queue txsBeCross =
      some (queue.filter (fun ptx => !(verdict ptx).beRemoved),
        queue.filter (fun ptx => (verdict ptx).beSend),
        txsBeCross ++ queue.filter fun ptx => (verdict ptx).beCross) := by
  rw [splitQueue, compact_eq, foldl_collect, List.nil_append]

end Loops

/-! ### The split -/

/-- What is removed is sent or becomes a cross-shard transaction, and not both. -/
structure Verdict.Exclusive (v : Verdict) : Prop where
  removed : v.beRemoved = (v.beSend || v.beCross)
  once : (v.beSend && v.beCross) = false

theorem relayVerdict_exclusive (addrSet : List Address) (ptx : PoolTx) :
    (relayVerdict addrSet ptx).Exclusive := by
  unfold relayVerdict
  dsimp only
  split_ifs <;> exact ⟨rfl, rfl⟩

theorem brokerVerdict_exclusive (addrSet : List Address) (ptx : BrokerTx) :
    (brokerVerdict addrSet ptx).Exclusive := by
  unfold brokerVerdict
  dsimp only
  split_ifs <;> constructor <;> simp

section Split

variable {T : Type}

/-- The queue is, as a multiset, the rest with the lists that are sent and the cross-shard
transactions; the rest is in the old order, and no two of the lists have a transaction in
common. -/
structure Split (queue : List T) (sent : List (List T)) (txsBeCross rest : List T) : Prop where
  perm : queue.Perm (rest ++ sent.flatten ++ txsBeCross)
  order : rest.Sublist queue
  disjoint : (rest :: txsBeCross :: sent).Pairwise List.Disjoint

theorem Split.refl (queue : List T) : Split queue [] [] queue :=
  ⟨by simp, List.Sublist.refl _, by simp⟩

variable {queue rest txsBeCross : List T} {sent : List (List T)}

/-- What comes from a part of the queue has nothing in common with what was taken out before. -/
theorem Split.subset (h : Split queue sent txsBeCross rest) :
    ∀ l ∈ rest :: txsBeCross :: sent, l ⊆ queue := by
  intro l hl x hx
  rw [h.perm.mem_iff, List.mem_append, List.mem_append, List.mem_flatten]
  rcases List.mem_cons.mp hl with rfl | hl
  · exact .inl (.inl hx)
  · rcases List.mem_cons.mp hl with rfl | hl
    · exact .inr hx
    · exact .inl (.inr ⟨l, hl, hx⟩)

theorem perm_filters {verdict : T → Verdict} (hverdict : ∀ ptx, (verdict ptx).Exclusive)
    (queue : List T) :
    queue.Perm (queue.filter (fun ptx => !(verdict ptx).beRemoved) ++
      (queue.filter (fun ptx => (verdict ptx).beSend) ++
        queue.filter fun ptx => (verdict ptx).beCross)) := by
  have hsend : ((queue.filter fun ptx => (verdict ptx).beRemoved).filter fun ptx =>
      (verdict ptx).beSend) = queue.filter fun ptx => (verdict ptx).beSend := by
    rw [List.filter_filter]
    refine List.filter_congr fun ptx _ => ?_
    rw [(hverdict ptx).removed]
    cases (verdict ptx).beSend <;> simp
  have hcross : ((queue.filter fun ptx => (verdict ptx).beRemoved).filter fun ptx =>
      !(verdict ptx).beSend) = queue.filter fun ptx => (verdict ptx).beCross := by
    rw [List.filter_filter]
    refine List.filter_congr fun ptx _ => ?_
    have honce := (hverdict ptx).once
    rw [(hverdict ptx).removed]
    cases hs : (verdict ptx).beSend <;> simp_all
  have hremoved := List.filter_append_perm (fun ptx => (verdict ptx).beSend)
    (queue.filter fun ptx => (verdict ptx).beRemoved)
  rw [hsend, hcross] at hremoved
  have hsplit := (List.filter_append_perm (fun ptx => (verdict ptx).beRemoved) queue).symm
  exact (hsplit.trans List.perm_append_comm).trans (hremoved.symm.append_left _)

/-- **One pass** before the others. -/
theorem Split.cons {verdict : T → Verdict} (hverdict : ∀ ptx, (verdict ptx).Exclusive)
    (h : Split (queue.filter fun ptx => !(verdict ptx).beRemoved) sent txsBeCross rest) :
    Split queue (queue.filter (fun ptx => (verdict ptx).beSend) :: sent)
      (queue.filter (fun ptx => (verdict ptx).beCross) ++ txsBeCross) rest := by
  -- what this pass takes out is in none of the later lists, nor in both of its own
  have hlater : ∀ l ∈ rest :: txsBeCross :: sent, ∀ x ∈ l, (verdict x).beRemoved = false := by
    intro l hl x hx
    have hkept := List.mem_filter.mp (h.subset l hl hx)
    simpa using hkept.2
  have hsend : ∀ l ∈ rest :: txsBeCross :: sent,
      l.Disjoint (queue.filter fun ptx => (verdict ptx).beSend) := by
    intro l hl x hx hx'
    have hkept := hlater l hl x hx
    rw [(hverdict x).removed, (List.mem_filter.mp hx').2] at hkept
    cases hkept
  have hcross : ∀ l ∈ rest :: txsBeCross :: sent,
      l.Disjoint (queue.filter fun ptx => (verdict ptx).beCross) := by
    intro l hl x hx hx'
    have hkept := hlater l hl x hx
    rw [(hverdict x).removed, (List.mem_filter.mp hx').2, Bool.or_true] at hkept
    cases hkept
  have hboth : (queue.filter fun ptx => (verdict ptx).beCross).Disjoint
      (queue.filter fun ptx => (verdict ptx).beSend) := by
    intro x hx hx'
    have honce := (hverdict x).once
    rw [(List.mem_filter.mp hx).2, (List.mem_filter.mp hx').2] at honce
    cases honce
  refine ⟨?_, h.order.trans List.filter_sublist, ?_⟩
  · refine ((perm_filters hverdict queue).trans (h.perm.append_right _)).trans ?_
    rw [← Multiset.coe_eq_coe]
    simp only [← Multiset.coe_add, List.flatten_cons]
    abel
  · obtain ⟨hrest, hpair⟩ := List.pairwise_cons.mp h.disjoint
    obtain ⟨hcrossSent, hsent⟩ := List.pairwise_cons.mp hpair
    have hrest_mem : rest ∈ rest :: txsBeCross :: sent := List.mem_cons_self
    have hcross_mem : txsBeCross ∈ rest :: txsBeCross :: sent :=
      List.mem_cons_of_mem _ List.mem_cons_self
    have hsent_mem : ∀ l ∈ sent, l ∈ rest :: txsBeCross :: sent :=
      fun l hl => List.mem_cons_of_mem _ (List.mem_cons_of_mem _ hl)
    refine List.pairwise_cons.mpr ⟨?_, List.pairwise_cons.mpr ⟨?_, List.pairwise_cons.mpr
      ⟨fun l hl => (hsend l (hsent_mem l hl)).symm, hsent⟩⟩⟩
    · intro l hl
      rcases List.mem_cons.mp hl with rfl | hl
      · exact List.disjoint_append_right.mpr
          ⟨hcross rest hrest_mem, hrest _ List.mem_cons_self⟩
      · rcases List.mem_cons.mp hl with rfl | hl
        · exact hsend rest hrest_mem
        · exact hrest l (List.mem_cons_of_mem _ hl)
    · intro l hl
      rcases List.mem_cons.mp hl with rfl | hl
      · exact List.disjoint_append_left.mpr ⟨hboth, hsend txsBeCross hcross_mem⟩
      · exact List.disjoint_append_left.mpr
          ⟨(hcross l (hsent_mem l hl)).symm, hcrossSent l hl⟩

/-- **The loop over the shards** returns, with a message for each of them, and splits the
queue. -/
theorem transferLoop_split {verdict : List Address → T → Verdict}
    (hverdict : ∀ addrs ptx, (verdict addrs ptx).Exclusive) (self : UInt64) (m : PartitionMap)
    (fetched : List (Address × AccountState)) (is : List UInt64) (queue txsBeCross : List T) :
    ∃ msgs rest new, transferLoop verdict self m fetched is queue txsBeCross =
        some (msgs, rest, txsBeCross ++ new) ∧
      msgs.map (·.1) = is ∧ Split queue (msgs.map (·.2.txs)) new rest := by
  induction is generalizing queue txsBeCross with
  | nil =>
    refine ⟨[], queue, [], ?_, rfl, Split.refl queue⟩
    rw [List.append_nil]
    rfl
  | cons i is ih =>
    set addrs := (fetched.filter fun e => m.lookup e.1 = some i).map (·.1) with haddrs
    obtain ⟨msgs, rest, new, hloop, hdest, hsplit⟩ :=
      ih (queue.filter fun ptx => !(verdict addrs ptx).beRemoved)
        (txsBeCross ++ queue.filter fun ptx => (verdict addrs ptx).beCross)
    refine ⟨(i, ⟨addrs, (fetched.filter fun e => m.lookup e.1 = some i).map (·.2), self,
        queue.filter fun ptx => (verdict addrs ptx).beSend⟩) :: msgs, rest,
      queue.filter (fun ptx => (verdict addrs ptx).beCross) ++ new, ?_, ?_, ?_⟩
    · simp only [transferLoop, ← haddrs, splitQueue_eq, Option.bind_eq_bind, Option.bind_some,
        hloop, List.append_assoc]
    · rw [List.map_cons, hdest]
    · exact hsplit.cons (hverdict addrs)

end Split

/-! ### The relay variant -/

theorem relayVerdict_eq (addrSet : List Address) (ptx : PoolTx) :
    relayVerdict addrSet ptx = ⟨goesWith addrSet ptx, false, goesWith addrSet ptx⟩ := by
  unfold relayVerdict goesWith
  cases ptx.relayed
  · by_cases hmem : ptx.tx.sender ∈ addrSet <;> simp [hmem]
  · by_cases hmem : ptx.tx.recipient ∈ addrSet <;> simp [hmem]

def AccountStateAndTx.toTransferMsg (msg : AccountStateAndTx) : TransferMsg PoolTx :=
  ⟨msg.addrs, msg.accountState, msg.fromShard, msg.txs⟩

/-- The loop with the pointers is the one that `sendAccountsAndTxs` has. -/
theorem transferLoop_relay (self : UInt64) (m : PartitionMap)
    (fetched : List (Address × AccountState)) (is : List UInt64) (queue : List PoolTx) :
    transferLoop relayVerdict self m fetched is queue [] =
      some ((sendLoop self m fetched is queue).1.map fun e => (e.1, e.2.toTransferMsg),
        (sendLoop self m fetched is queue).2, []) := by
  induction is generalizing queue with
  | nil => rfl
  | cons i is ih =>
    simp only [transferLoop, splitQueue_eq, relayVerdict_eq, Option.bind_eq_bind, Option.bind_some,
      List.filter_false, List.append_nil, ih]
    rfl

/-- The account that decides where a transaction goes. -/
def accountOf (p : PoolTx) : Address := if p.relayed then p.tx.recipient else p.tx.sender

theorem goesWith_eq (addrs : List Address) (p : PoolTx) :
    goesWith addrs p = decide (accountOf p ∈ addrs) := by
  unfold goesWith accountOf
  cases p.relayed <;> rfl

/-- The account is fetched and goes to shard `j`. -/
def sentTo (m : PartitionMap) (addrs : List Address) (j : UInt64) (p : PoolTx) : Bool :=
  decide (accountOf p ∈ addrs ∧ m.lookup (accountOf p) = some j)

/-- A message has the transactions of the whole queue that go to its shard: those that were taken
out before go elsewhere. -/
theorem sendLoop_txs {self : UInt64} {m : PartitionMap} {addrs : List Address}
    {states : List AccountState} (hlen : states.length = addrs.length) {is : List UInt64}
    (hnodup : is.Nodup) (queue : List PoolTx) {j : UInt64} {msg : AccountStateAndTx}
    (h : (j, msg) ∈ (sendLoop self m (addrs.zip states) is queue).1) :
    j ∈ is ∧ msg.txs = queue.filter (sentTo m addrs j) := by
  have hgoes : ∀ i p, goesWith (((addrs.zip states).filter fun e => m.lookup e.1 = some i).map
      (·.1)) p = sentTo m addrs i p := by
    intro i p
    rw [goesWith_eq, sentTo, decide_eq_decide, List.mem_map]
    constructor
    · rintro ⟨e, he, hacc⟩
      obtain ⟨he, hi⟩ := List.mem_filter.mp he
      rw [← hacc]
      exact ⟨(List.of_mem_zip he).1, of_decide_eq_true hi⟩
    · rintro ⟨hmem, hi⟩
      have hmem' : accountOf p ∈ (addrs.zip states).map (·.1) := by
        rw [List.map_fst_zip hlen.ge]
        exact hmem
      obtain ⟨e, he, hacc⟩ := List.mem_map.mp hmem'
      refine ⟨e, List.mem_filter.mpr ⟨he, decide_eq_true ?_⟩, hacc⟩
      rw [hacc]
      exact hi
  induction is generalizing queue with
  | nil => cases h
  | cons i is ih =>
    obtain ⟨hi, hnodup⟩ := List.nodup_cons.mp hnodup
    rcases List.mem_cons.mp h with heq | hrest
    · cases heq
      refine ⟨List.mem_cons_self, ?_⟩
      exact List.filter_congr fun p _ => hgoes j p
    · obtain ⟨hj, htxs⟩ := ih hnodup _ hrest
      refine ⟨List.mem_cons_of_mem _ hj, ?_⟩
      rw [htxs, List.filter_filter]
      refine List.filter_congr fun p _ => ?_
      rw [hgoes]
      have hne : j ≠ i := fun heq => hi (heq ▸ hj)
      unfold sentTo
      by_cases hp : m.lookup (accountOf p) = some j
      · simp [hp, hne]
      · simp [hp]

/-- The account moves from this shard to shard `j`. -/
def movesTo (cfg : ChainConfig) (l : Ledger) (m : PartitionMap) (j : UInt64) (a : Address) : Bool :=
  decide (getPartitionMap cfg.shardNum l.partitionMap a = some cfg.shardID ∧ m.lookup a = some j)

theorem sentTo_eq_movesTo {cfg : ChainConfig} {l : Ledger} {m : PartitionMap}
    {keys addrs : List Address} (hkeys : Iterates m keys)
    (haddrs : accountToFetch cfg l m keys = some addrs) {j : UInt64} (hj : j ≠ cfg.shardID)
    (p : PoolTx) : sentTo m addrs j p = movesTo cfg l m j (accountOf p) := by
  rw [sentTo, movesTo, decide_eq_decide, accountToFetch_spec haddrs]
  constructor
  · rintro ⟨⟨-, -, howner⟩, hlookup⟩
    exact ⟨howner, hlookup⟩
  · rintro ⟨howner, hlookup⟩
    have hmem : accountOf p ∈ keys := by
      rw [← List.mem_toFinset, hkeys.2, Finmap.mem_keys]
      exact Finmap.mem_iff.mpr ⟨j, hlookup⟩
    refine ⟨⟨hmem, ?_, howner⟩, hlookup⟩
    rw [hlookup]
    exact fun heq => hj (Option.some.inj heq)

theorem ids_nodup (sh : Shards) : sh.ids.Nodup := by
  refine List.Nodup.map_on ?_ List.nodup_range
  intro x hx y hy heq
  have hsize := sh.shardNums.toNat_lt
  have hx : x < UInt64.size := (List.mem_range.mp hx).trans hsize
  have hy : y < UInt64.size := (List.mem_range.mp hy).trans hsize
  have htoNat := congrArg UInt64.toNat heq
  rwa [UInt64.toNat_ofNat_of_lt' hx, UInt64.toNat_ofNat_of_lt' hy] at htoNat

/-- **Re-partitioning neither loses nor duplicates queued transactions.**  For every queue, in
both variants, the loops over the other shards end and split the queue; a relay-mode transaction is
sent to a shard exactly when its account moves there from this one. -/
theorem repartition_splits_queue (sh : Shards) (i : UInt64) (l : Ledger) (m : PartitionMap)
    {keys addrs : List Address} (hkeys : Iterates m keys)
    (haddrs : accountToFetch (sh.config i) l m keys = some addrs) {states : List AccountState}
    (hlen : states.length = addrs.length) :
    (∀ queue : List PoolTx, ∃ msgs rest,
      transferLoop relayVerdict i m (addrs.zip states) (sh.ids.filter (· ≠ i)) queue [] =
        some (msgs, rest, []) ∧
      msgs.map (·.1) = sh.ids.filter (· ≠ i) ∧ Split queue (msgs.map (·.2.txs)) [] rest ∧
      ∀ j msg, (j, msg) ∈ msgs →
        msg.txs = queue.filter fun p => movesTo (sh.config i) l m j (accountOf p)) ∧
    ∀ queue : List BrokerTx, ∃ msgs rest txsBeCross,
      transferLoop brokerVerdict i m (addrs.zip states) (sh.ids.filter (· ≠ i)) queue [] =
        some (msgs, rest, txsBeCross) ∧
      msgs.map (·.1) = sh.ids.filter (· ≠ i) ∧
      Split queue (msgs.map (·.2.txs)) txsBeCross rest := by
  constructor
  · intro queue
    have hrelay := transferLoop_relay i m (addrs.zip states) (sh.ids.filter (· ≠ i)) queue
    obtain ⟨msgs, rest, new, hloop, hdest, hsplit⟩ := transferLoop_split relayVerdict_exclusive
      i m (addrs.zip states) (sh.ids.filter (· ≠ i)) queue []
    have heq := Option.some.inj (hloop.symm.trans hrelay)
    obtain rfl : new = [] := (Prod.mk.inj (Prod.mk.inj heq).2).2
    refine ⟨msgs, rest, hloop, hdest, hsplit, ?_⟩
    intro j msg hmsg
    rw [(Prod.mk.inj heq).1] at hmsg
    obtain ⟨⟨j', msg'⟩, hmsg', heq'⟩ := List.mem_map.mp hmsg
    cases heq'
    obtain ⟨hj, htxs⟩ := sendLoop_txs hlen ((ids_nodup sh).filter _) queue hmsg'
    have hne : j' ≠ i := of_decide_eq_true (List.mem_filter.mp hj).2
    show msg'.txs = _
    rw [htxs]
    exact List.filter_congr fun p _ => sentTo_eq_movesTo hkeys haddrs hne p
  · intro queue
    exact transferLoop_split brokerVerdict_exclusive i m (addrs.zip states)
      (sh.ids.filter (· ≠ i)) queue []

/-- The account of shard 0 that moves to shard 1. -/
theorem repartition_splits_queue_moving :
    (∀ queue : List PoolTx, ∃ msgs rest,
      transferLoop relayVerdict 0 movingMap [("0000000000000000", ⟨0, 7⟩)] [1] queue [] =
        some (msgs, rest, []) ∧
      msgs.map (·.1) = [1] ∧ Split queue (msgs.map (·.2.txs)) [] rest ∧
      ∀ j msg, (j, msg) ∈ msgs → msg.txs = queue.filter fun p =>
        movesTo (shortShards.config 0) shortLedger movingMap j (accountOf p)) ∧
    ∀ queue : List BrokerTx, ∃ msgs rest txsBeCross,
      transferLoop brokerVerdict 0 movingMap [("0000000000000000", ⟨0, 7⟩)] [1] queue [] =
        some (msgs, rest, txsBeCross) ∧
      msgs.map (·.1) = [1] ∧ Split queue (msgs.map (·.2.txs)) txsBeCross rest := by
  have hkeys : Iterates movingMap ["0000000000000000"] := by decide +kernel
  have haddrs : accountToFetch (shortShards.config 0) shortLedger movingMap
      ["0000000000000000"] = some ["0000000000000000"] := by decide +kernel
  have hlen : [(⟨0, 7⟩ : AccountState)].length = ["0000000000000000"].length := rfl
  have hsplit := repartition_splits_queue shortShards 0 shortLedger movingMap hkeys haddrs hlen
  have hids : shortShards.ids.filter (· ≠ 0) = [1] := by decide +kernel
  rw [hids] at hsplit
  exact hsplit

end Aster.Clpa
