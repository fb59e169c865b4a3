import Aster.Broker.Committee

/-!
# Sending transactions in batches

`txSending` of the committees collects the transactions of a list in a bucket for each shard.
Before every position that is a multiple of `InjectSpeed`, and behind the last one, it sends each
shard its bucket and starts with empty ones.  The four committees differ in the shard that a
transaction is routed to, and are written as one loop with the routing as a parameter.

* `txSendingLoop_sentTo`: what is sent to a shard from a position on is its bucket and what is
  still to be routed to it;
* **`batches_deliver`**: over all batches, every shard gets its subsequence of the list;
* `broker_txSending_eq`: the function with which the broker protocol is modelled sends the same.

The map of a CLPA committee can change between two transactions, so it is given for each position.
Messages go out in goroutines of their own; only what is sent is modelled, not when it arrives.
-/

namespace Aster.Supervisor

open Aster.Core Aster.Chain Aster.Broker

variable {T : Type}

/-! ### The loop -/

/-- The `CInject` message for a shard. -/
structure InjectTxs (T : Type) where
  txs : List T
  toShardID : UInt64

abbrev SendToShard (T : Type) := Finmap fun _ : UInt64 => List T

/-- `sendToShard[sid]`; a shard without an entry has none. -/
def bucket (sendToShard : SendToShard T) (sid : UInt64) : List T :=
  (sendToShard.lookup sid).getD []

/-- The messages of one batch. -/
def flush (shardNum : ℕ) (sendToShard : SendToShard T) : List (InjectTxs T) :=
  (List.range shardNum).map fun sid =>
    ⟨bucket sendToShard (UInt64.ofNat sid), UInt64.ofNat sid⟩

/-- The step before position `idx`: the messages, and the buckets from there on. -/
def flushAt (injectSpeed shardNum len idx : ℕ) (sendToShard : SendToShard T) :
    List (InjectTxs T) × SendToShard T :=
  if 0 < idx ∧ (idx % injectSpeed = 0 ∨ idx = len) then (flush shardNum sendToShard, ∅)
  else ([], sendToShard)

/-- The loop of `txSending` on a list of length `len`, from position `idx` on, with the
transactions from there.  `route idx tx` is the shard of a transaction, and `none` a panic, as is
the remainder by an `InjectSpeed` of 0. -/
def txSendingLoop (route : ℕ → T → Option UInt64) (injectSpeed shardNum len : ℕ) :
    ℕ → List T → SendToShard T → Option (List (InjectTxs T))
  | idx, [], sendToShard =>
    if 0 < idx ∧ injectSpeed = 0 then none
    else some (flushAt injectSpeed shardNum len idx sendToShard).1
  | idx, tx :: txs, sendToShard =>
    if 0 < idx ∧ injectSpeed = 0 then none
    else do
      let batch := flushAt injectSpeed shardNum len idx sendToShard
      let sendersid ← route idx tx
      let later ← txSendingLoop route injectSpeed shardNum len (idx + 1) txs
        (batch.2.insert sendersid (bucket batch.2 sendersid ++ [tx]))
      some (batch.1 ++ later)

def txSending (route : ℕ → T → Option UInt64) (injectSpeed shardNum : ℕ) (txlist : List T) :
    Option (List (InjectTxs T)) :=
  txSendingLoop route injectSpeed shardNum txlist.length 0 txlist ∅

/-! ### The committees -/

namespace RelayCommittee

def route (shardNum : ℕ) (tx : Transaction) : Option UInt64 :=
  (addr2Shard shardNum tx.sender).map fun shard => UInt64.ofInt shard

def txSending (injectSpeed shardNum : ℕ) :
    List Transaction → Option (List (InjectTxs Transaction)) :=
  Supervisor.txSending (fun _ => route shardNum) injectSpeed shardNum

end RelayCommittee

namespace CLPACommittee

/-- `modifiedMap k` is the map when the transaction at position `k` is routed. -/
def route (shardNum : ℕ) (modifiedMap : ℕ → PartitionMap) (k : ℕ) (tx : Transaction) :
    Option UInt64 :=
  getPartitionMap shardNum (modifiedMap k) tx.sender

def txSending (injectSpeed shardNum : ℕ) (modifiedMap : ℕ → PartitionMap) :
    List Transaction → Option (List (InjectTxs Transaction)) :=
  Supervisor.txSending (route shardNum modifiedMap) injectSpeed shardNum

end CLPACommittee

namespace BrokerCommittee

/-- `fetchModifiedMap` of this committee has no map. -/
def route (cfg : Config) (tx : BrokerTx) : Option UInt64 := sendersid cfg ∅ tx.tx

def txSending (cfg : Config) (injectSpeed : ℕ) :
    List BrokerTx → Option (List (InjectTxs BrokerTx)) :=
  Supervisor.txSending (fun _ => route cfg) injectSpeed cfg.shardNum

end BrokerCommittee

namespace CLPABrokerCommittee

def route (cfg : Config) (modifiedMap : ℕ → PartitionMap) (k : ℕ) (tx : BrokerTx) :
    Option UInt64 :=
  sendersid cfg (modifiedMap k) tx.tx

def txSending (cfg : Config) (injectSpeed : ℕ) (modifiedMap : ℕ → PartitionMap) :
    List BrokerTx → Option (List (InjectTxs BrokerTx)) :=
  Supervisor.txSending (route cfg modifiedMap) injectSpeed cfg.shardNum

end CLPABrokerCommittee

/-! ### What a shard gets -/

/-- The transactions that the messages bring to a shard. -/
def sentTo (msgs : List (InjectTxs T)) (s : UInt64) : List T :=
  msgs.flatMap fun m => if m.toShardID = s then m.txs else []

/-- The transactions that are routed to a shard, from position `idx` on. -/
def routedTo (route : ℕ → T → Option UInt64) (s : UInt64) : ℕ → List T → List T
  | _, [] => []
  | idx, tx :: txs =>
    (if route idx tx = some s then [tx] else []) ++ routedTo route s (idx + 1) txs

variable {route : ℕ → T → Option UInt64} {injectSpeed shardNum len idx : ℕ} {txs : List T}
  {sendToShard : SendToShard T} {msgs : List (InjectTxs T)} {s : UInt64}

/-- A fixed routing selects a subsequence. -/
theorem routedTo_eq_filter (route : T → Option UInt64) (s : UInt64) (idx : ℕ) (txs : List T) :
    routedTo (fun _ => route) s idx txs = txs.filter fun tx => route tx = some s := by
  induction txs generalizing idx with
  | nil => rfl
  | cons tx txs ih =>
    rw [routedTo, ih, List.filter_cons]
    by_cases h : route tx = some s <;> simp [h]

theorem sentTo_append (msgs msgs' : List (InjectTxs T)) (s : UInt64) :
    sentTo (msgs ++ msgs') s = sentTo msgs s ++ sentTo msgs' s :=
  List.flatMap_append

theorem flatMap_range_ite (n m : ℕ) (l : List T) :
    ((List.range n).flatMap fun k => if k = m then l else []) = if m < n then l else [] := by
  induction n with
  | zero => simp
  | succ n ih =>
    rw [List.range_succ, List.flatMap_append, ih, List.flatMap_singleton]
    by_cases hlt : m < n
    · simp [hlt, show n ≠ m by omega, show m < n + 1 by omega]
    · by_cases heq : n = m
      · simp [heq]
      · simp [hlt, heq, show ¬ m < n + 1 by omega]

/-- A batch brings every shard its bucket. -/
theorem sentTo_flush (hint : shardNum < 2 ^ 63) (hs : s.toNat < shardNum) :
    sentTo (flush shardNum sendToShard) s = bucket sendToShard s := by
  have hone : ∀ k ∈ List.range shardNum,
      (if UInt64.ofNat k = s then bucket sendToShard (UInt64.ofNat k) else []) =
        if k = s.toNat then bucket sendToShard s else [] := by
    intro k hk
    have hlt := List.mem_range.mp hk
    have heq : UInt64.ofNat k = s ↔ k = s.toNat := by
      rw [← UInt64.toNat_inj, UInt64.toNat_ofNat_of_lt' (show k < 2 ^ 64 by omega)]
    by_cases h : k = s.toNat
    · rw [if_pos h, if_pos (heq.mpr h), heq.mpr h]
    · rw [if_neg h, if_neg (mt heq.mp h)]
  rw [sentTo, flush, List.flatMap_map, List.flatMap_congr hone, flatMap_range_ite, if_pos hs]

theorem bucket_empty (s : UInt64) : bucket (∅ : SendToShard T) s = [] := by
  rw [bucket, Finmap.lookup_empty]
  rfl

theorem bucket_insert (sendToShard : SendToShard T) (sid s : UInt64) (tx : T) :
    bucket (sendToShard.insert sid (bucket sendToShard sid ++ [tx])) s =
      bucket sendToShard s ++ if sid = s then [tx] else [] := by
  by_cases h : sid = s
  · rw [if_pos h, h, bucket, Finmap.lookup_insert]
    rfl
  · rw [if_neg h, List.append_nil, bucket, Finmap.lookup_insert_of_ne _ (Ne.symm h)]
    rfl

/-- A step sends the bucket of a shard or keeps it. -/
theorem sentTo_flushAt (hint : shardNum < 2 ^ 63) (hs : s.toNat < shardNum) :
    sentTo (flushAt injectSpeed shardNum len idx sendToShard).1 s ++
        bucket (flushAt injectSpeed shardNum len idx sendToShard).2 s =
      bucket sendToShard s := by
  rw [flushAt]
  split_ifs
  · rw [sentTo_flush hint hs, bucket_empty, List.append_nil]
  · rfl

/-- **From a position on**, a shard is sent its bucket and what is routed to it.  At position 0
nothing is sent, and the bucket is empty. -/
theorem txSendingLoop_sentTo (hint : shardNum < 2 ^ 63) (hs : s.toNat < shardNum)
    (hlen : idx + txs.length = len) (hstart : idx = 0 → bucket sendToShard s = [])
    (h : txSendingLoop route injectSpeed shardNum len idx txs sendToShard = some msgs) :
    sentTo msgs s = bucket sendToShard s ++ routedTo route s idx txs := by
  induction txs generalizing idx sendToShard msgs with
  | nil =>
    obtain ⟨-, hmsgs⟩ := Option.ite_none_left_eq_some.mp h
    cases hmsgs
    rw [routedTo, List.append_nil, flushAt]
    -- the end of the list is the end of a batch, unless nothing was there
    split_ifs with hfull
    · rw [sentTo_flush hint hs]
    · have hzero : idx = 0 := by
        rw [List.length_nil] at hlen
        by_contra hne
        exact hfull ⟨by omega, .inr hlen⟩
      rw [hstart hzero]
      rfl
  | cons tx txs ih =>
    obtain ⟨-, hsome⟩ := Option.ite_none_left_eq_some.mp h
    obtain ⟨sid, hsid, hsome⟩ := Option.bind_eq_some_iff.mp hsome
    obtain ⟨later, hlater, hsome⟩ := Option.bind_eq_some_iff.mp hsome
    cases hsome
    have hrest := ih (by rw [List.length_cons] at hlen; omega) (by omega) hlater
    rw [sentTo_append, hrest, bucket_insert, ← List.append_assoc, ← List.append_assoc,
      sentTo_flushAt hint hs, List.append_assoc, routedTo, hsid]
    simp only [Option.some.injEq]

/-- The loop returns when every transaction has a shard. -/
theorem txSendingLoop_isSome (hspeed : 1 ≤ injectSpeed) :
    (txSendingLoop route injectSpeed shardNum len idx txs sendToShard).isSome ↔
      ∀ k tx, txs[k]? = some tx → (route (idx + k) tx).isSome := by
  induction txs generalizing idx sendToShard with
  | nil =>
    rw [txSendingLoop, if_neg (by omega)]
    simp
  | cons tx txs ih =>
    have hsplit : (∀ k tx', (tx :: txs)[k]? = some tx' → (route (idx + k) tx').isSome) ↔
        (route idx tx).isSome ∧
          ∀ k tx', txs[k]? = some tx' → (route (idx + 1 + k) tx').isSome := by
      constructor
      · intro hall
        refine ⟨hall 0 tx rfl, fun k tx' hk => ?_⟩
        rw [Nat.add_assoc, Nat.add_comm 1]
        exact hall (k + 1) tx' hk
      · rintro ⟨hfirst, hrest⟩ k tx' hk
        cases k with
        | zero =>
          cases hk
          exact hfirst
        | succ k =>
          rw [Nat.add_comm k, ← Nat.add_assoc]
          exact hrest k tx' hk
    rw [txSendingLoop, if_neg (by omega), hsplit]
    cases hsid : route idx tx with
    | none => simp
    | some sid =>
      simp only [Option.bind_eq_bind, Option.bind_some, Option.isSome_some, true_and]
      rw [← ih]
      cases txSendingLoop route injectSpeed shardNum len (idx + 1) txs _ <;> rfl

/-- The function returns when every transaction has a shard, and then every shard has been sent
the transactions that are routed to it, in order. -/
def Delivers (route : ℕ → T → Option UInt64) (shardNum : ℕ) (txlist : List T)
    (res : Option (List (InjectTxs T))) : Prop :=
  (res.isSome ↔ ∀ k tx, txlist[k]? = some tx → (route k tx).isSome) ∧
    ∀ msgs, res = some msgs → ∀ s : UInt64, s.toNat < shardNum →
      sentTo msgs s = routedTo route s 0 txlist

theorem delivers_txSending (route : ℕ → T → Option UInt64) (hspeed : 1 ≤ injectSpeed)
    (hint : shardNum < 2 ^ 63) (txlist : List T) :
    Delivers route shardNum txlist (txSending route injectSpeed shardNum txlist) := by
  constructor
  · rw [txSending, txSendingLoop_isSome hspeed]
    simp only [Nat.zero_add]
  · intro msgs hmsgs s hs
    rw [txSendingLoop_sentTo hint hs (Nat.zero_add _) (fun _ => bucket_empty s) hmsgs,
      bucket_empty, List.nil_append]

/-- **Batches deliver subsequences.**  For every list, every `InjectSpeed` from 1 on, every
`ShardNum` and all brokers, `txSending` of the four committees sends each shard exactly the
transactions of the list that are routed to it, in order. -/
theorem batches_deliver (hspeed : 1 ≤ injectSpeed) (cfg : Config) (hint : cfg.shardNum < 2 ^ 63)
    (modifiedMap : ℕ → PartitionMap) (txlist : List Transaction) (btxlist : List BrokerTx) :
    Delivers (fun _ => RelayCommittee.route cfg.shardNum) cfg.shardNum txlist
        (RelayCommittee.txSending injectSpeed cfg.shardNum txlist) ∧
      Delivers (CLPACommittee.route cfg.shardNum modifiedMap) cfg.shardNum txlist
        (CLPACommittee.txSending injectSpeed cfg.shardNum modifiedMap txlist) ∧
      Delivers (fun _ => BrokerCommittee.route cfg) cfg.shardNum btxlist
        (BrokerCommittee.txSending cfg injectSpeed btxlist) ∧
      Delivers (CLPABrokerCommittee.route cfg modifiedMap) cfg.shardNum btxlist
        (CLPABrokerCommittee.txSending cfg injectSpeed modifiedMap btxlist) :=
  ⟨delivers_txSending _ hspeed hint txlist, delivers_txSending _ hspeed hint txlist,
    delivers_txSending _ hspeed hint btxlist, delivers_txSending _ hspeed hint btxlist⟩

/-- Two shards and a broker. -/
def twoShards : Config := ⟨fun _ _ _ _ _ => [], fun _ => [], 2, ["02"]⟩

/-- By their senders the transactions go to the shards 0, 1 and 0; the last sender is the broker
of `twoShards`. -/
def threeTxs : List Transaction :=
  [⟨"00", "01", 0, 5, []⟩, ⟨"01", "00", 1, 5, []⟩, ⟨"02", "01", 2, 5, []⟩]

def threeBrokerTxs : List BrokerTx :=
  threeTxs.map fun tx => ⟨tx, false, false, "", "", none⟩

/-- Batches of two: the last batch is not full. -/
theorem batches_deliver_three :
    ((RelayCommittee.txSending 2 2 threeTxs).map fun msgs =>
        (msgs.map fun m => m.txs.map Transaction.nonce, (sentTo msgs 0).map Transaction.nonce)) =
          some ([[0], [1], [2], []], [0, 2]) ∧
      ((BrokerCommittee.txSending twoShards 2 threeBrokerTxs).map fun msgs =>
        (sentTo msgs 1).map fun tx => tx.tx.nonce) = some [1, 2] ∧
      Delivers (fun _ => RelayCommittee.route 2) 2 threeTxs
          (RelayCommittee.txSending 2 2 threeTxs) ∧
        Delivers (CLPACommittee.route 2 fun _ => ∅) 2 threeTxs
          (CLPACommittee.txSending 2 2 (fun _ => ∅) threeTxs) ∧
        Delivers (fun _ => BrokerCommittee.route twoShards) 2 threeBrokerTxs
          (BrokerCommittee.txSending twoShards 2 threeBrokerTxs) ∧
        Delivers (CLPABrokerCommittee.route twoShards fun _ => ∅) 2 threeBrokerTxs
          (CLPABrokerCommittee.txSending twoShards 2 (fun _ => ∅) threeBrokerTxs) :=
  ⟨by decide +kernel, by decide +kernel,
    batches_deliver (by decide) twoShards (by decide) (fun _ => ∅) threeTxs threeBrokerTxs⟩

/-! ### The broker protocol -/

/-- What the broker protocol is modelled with: a list of transactions with their shards. -/
theorem broker_txSending_filter (cfg : Config) (modifiedMap : PartitionMap) {txlist : List BrokerTx}
    (hroute : ∀ tx ∈ txlist, (sendersid cfg modifiedMap tx.tx).isSome) :
    ∃ sent, Broker.txSending cfg modifiedMap txlist = some sent ∧
      ∀ s : UInt64, s.toNat < cfg.shardNum →
        ((sent.filter fun p => p.1 = s).map Prod.snd) =
          txlist.filter fun tx => sendersid cfg modifiedMap tx.tx = some s := by
  induction txlist with
  | nil => exact ⟨[], rfl, fun _ _ => rfl⟩
  | cons tx txlist ih =>
    obtain ⟨rest, hrest, heq⟩ := ih fun tx' h => hroute tx' (List.mem_cons_of_mem tx h)
    obtain ⟨sid, hsid⟩ := Option.isSome_iff_exists.mp (hroute tx List.mem_cons_self)
    refine ⟨if sid.toNat < cfg.shardNum then (sid, tx) :: rest else rest, ?_, fun s hs => ?_⟩
    · rw [Broker.txSending, hsid, hrest]
      rfl
    · rw [List.filter_cons, ← heq s hs, hsid]
      by_cases hshard : sid = s
      · rw [hshard, if_pos hs]
        simp
      · split_ifs <;> simp_all

/-- **The batches of a broker committee** bring every shard what the protocol's model sends it. -/
theorem broker_txSending_eq (hspeed : 1 ≤ injectSpeed) (cfg : Config)
    (hint : cfg.shardNum < 2 ^ 63) (modifiedMap : PartitionMap) {txlist : List BrokerTx}
    {msgs : List (InjectTxs BrokerTx)}
    (h : CLPABrokerCommittee.txSending cfg injectSpeed (fun _ => modifiedMap) txlist = some msgs) :
    ∃ sent, Broker.txSending cfg modifiedMap txlist = some sent ∧
      ∀ s : UInt64, s.toNat < cfg.shardNum →
        sentTo msgs s = (sent.filter fun p => p.1 = s).map Prod.snd := by
  obtain ⟨hsome, hsent⟩ := delivers_txSending (CLPABrokerCommittee.route cfg fun _ => modifiedMap)
    hspeed hint txlist
  have hroute : ∀ tx ∈ txlist, (sendersid cfg modifiedMap tx.tx).isSome := by
    intro tx htx
    obtain ⟨k, hk⟩ := List.mem_iff_getElem?.mp htx
    exact hsome.mp (Option.isSome_of_eq_some h) k tx hk
  obtain ⟨sent, hmodel, hfilter⟩ := broker_txSending_filter cfg modifiedMap hroute
  refine ⟨sent, hmodel, fun s hs => ?_⟩
  rw [hsent msgs h s hs, hfilter s hs]
  exact routedTo_eq_filter (fun tx : BrokerTx => sendersid cfg modifiedMap tx.tx) s 0 txlist

theorem broker_txSending_eq_three :
    ∃ msgs sent, CLPABrokerCommittee.txSending twoShards 2 (fun _ => ∅) threeBrokerTxs = some msgs ∧
      Broker.txSending twoShards ∅ threeBrokerTxs = some sent ∧
      ∀ s : UInt64, s.toNat < 2 → sentTo msgs s = (sent.filter fun p => p.1 = s).map Prod.snd := by
  obtain ⟨msgs, hmsgs⟩ := Option.isSome_iff_exists.mp (show (CLPABrokerCommittee.txSending twoShards
    2 (fun _ => ∅) threeBrokerTxs).isSome by decide +kernel)
  obtain ⟨sent, hsent⟩ := broker_txSending_eq (by decide) twoShards (by decide) ∅ hmsgs
  exact ⟨msgs, sent, hmsgs, hsent⟩

end Aster.Supervisor
