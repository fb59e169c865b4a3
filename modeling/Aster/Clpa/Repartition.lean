import Aster.Clpa.Transfer
import Aster.Lib.Containers

/-!
# What a round of re-partitioning does to an account

In a round that all shards finish, an account that the partition map gives to a shard ends up at
one shard in all maps, with the state it had at its old owner.  An account that the map gives to
no shard stays there: `Addr2Shard` takes the remainder of a signed number, so that half of the
addresses have a negative remainder.

* `accountToFetch_spec`, `sendLoop_spec`: the messages of a leader.
* `receiveAll_spec`: what a leader collects.
* `storeAccounts_spec`, `addAccounts_state`: what it stores.
* `Tracks`: the invariant of the round.
* **`repartition_preserves_iff`**: owners and states after the round.
-/

namespace Aster.Clpa

open Aster.Core Aster.Chain Aster.Lib.Transition

/-! ### Sending -/

theorem leaves_spec {cfg : ChainConfig} {l : Ledger} {m : PartitionMap} {key : Address}
    {goes : Bool} (h : leaves cfg l m key = some goes) :
    goes = true ↔ m.lookup key ≠ some cfg.shardID ∧
      getPartitionMap cfg.shardNum l.partitionMap key = some cfg.shardID := by
  unfold leaves at h
  split_ifs at h with hstay
  · cases h
    simp [hstay]
  · obtain ⟨owner, howner, rfl⟩ := Option.map_eq_some_iff.mp h
    rw [howner]
    simp [hstay]

theorem accountToFetch_spec {cfg : ChainConfig} {l : Ledger} {m : PartitionMap}
    {keys addrs : List Address} (h : accountToFetch cfg l m keys = some addrs) (a : Address) :
    a ∈ addrs ↔ a ∈ keys ∧ m.lookup a ≠ some cfg.shardID ∧
      getPartitionMap cfg.shardNum l.partitionMap a = some cfg.shardID := by
  induction keys generalizing addrs with
  | nil =>
    cases h
    simp
  | cons key keys ih =>
    obtain ⟨goes, hgoes, h⟩ := Option.bind_eq_some_iff.mp h
    obtain ⟨rest, hrest, h⟩ := Option.bind_eq_some_iff.mp h
    have hcons : a ∈ addrs ↔ (a = key ∧ goes = true) ∨ a ∈ rest := by
      cases h
      cases goes <;> simp
    rw [hcons, ih hrest, List.mem_cons, leaves_spec hgoes]
    constructor
    · rintro (⟨rfl, hmoves⟩ | ⟨hmem, hmoves⟩)
      · exact ⟨.inl rfl, hmoves⟩
      · exact ⟨.inr hmem, hmoves⟩
    · rintro ⟨rfl | hmem, hmoves⟩
      · exact .inl ⟨rfl, hmoves⟩
      · exact .inr ⟨hmem, hmoves⟩

theorem sendLoop_spec (self : UInt64) (m : PartitionMap) (f : Address → AccountState)
    (addrs : List Address) (is : List UInt64) (queue : List PoolTx) {j : UInt64}
    {msg : AccountStateAndTx}
    (h : (j, msg) ∈ (sendLoop self m (addrs.zip (addrs.map f)) is queue).1) :
    j ∈ is ∧ msg.fromShard = self ∧ msg.addrs = addrs.filter (fun a => m.lookup a = some j) ∧
      msg.accountState = msg.addrs.map f := by
  have hzip : addrs.zip (addrs.map f) = addrs.map fun a => (a, f a) := by
    rw [← List.map_prod_left_eq_zip]
  rw [hzip] at h
  induction is generalizing queue with
  | nil => cases h
  | cons i is ih =>
    rcases List.mem_cons.mp h with heq | hrest
    · cases heq
      refine ⟨List.mem_cons_self, rfl, ?_, ?_⟩
      · simp [List.filter_map, Function.comp_def]
      · simp [List.filter_map, Function.comp_def]
    · obtain ⟨hj, hmsg⟩ := ih _ hrest
      exact ⟨List.mem_cons_of_mem _ hj, hmsg⟩

/-! ### Collecting -/

theorem receiveAccounts_spec (f : Address → AccountState) (addrs : List Address)
    {received received' : Finmap fun _ : Address => AccountState}
    (h : receiveAccounts addrs (addrs.map f) received = some received') (a : Address) :
    received'.lookup a = if a ∈ addrs then some (f a) else received.lookup a := by
  induction addrs generalizing received with
  | nil =>
    cases h
    simp
  | cons addr addrs ih =>
    rw [ih h]
    by_cases hmem : a ∈ addrs
    · rw [if_pos hmem, if_pos (List.mem_cons_of_mem _ hmem)]
    · rw [if_neg hmem]
      by_cases heq : a = addr
      · subst heq
        rw [Finmap.lookup_insert, if_pos List.mem_cons_self]
      · rw [Finmap.lookup_insert_of_ne _ heq, if_neg]
        exact fun hcons => (List.mem_cons.mp hcons).elim heq hmem

/-- The pool has messages whose states are those of `f`. -/
theorem receiveAll_spec (f : Address → AccountState)
    {pool : Finmap fun _ : UInt64 => AccountStateAndTx}
    (hpool : ∀ j msg, pool.lookup j = some msg → msg.accountState = msg.addrs.map f)
    (js : List UInt64) {received received' : Finmap fun _ : Address => AccountState}
    {txs txs' : List PoolTx} (h : receiveAll pool js (received, txs) = some (received', txs'))
    (a : Address) :
    ((∃ j ∈ js, ∃ msg, pool.lookup j = some msg ∧ a ∈ msg.addrs) →
        received'.lookup a = some (f a)) ∧
      ((¬ ∃ j ∈ js, ∃ msg, pool.lookup j = some msg ∧ a ∈ msg.addrs) →
        received'.lookup a = received.lookup a) := by
  induction js generalizing received txs with
  | nil =>
    cases h
    refine ⟨?_, fun _ => rfl⟩
    rintro ⟨j, hj, -⟩
    cases hj
  | cons j js ih =>
    obtain ⟨msg, hmsg, h⟩ := Option.bind_eq_some_iff.mp h
    obtain ⟨received₁, hone, h⟩ := Option.bind_eq_some_iff.mp h
    obtain ⟨hin, hout⟩ := ih h
    rw [hpool j msg hmsg] at hone
    have hstep := receiveAccounts_spec f msg.addrs hone a
    by_cases hlater : ∃ j' ∈ js, ∃ msg, pool.lookup j' = some msg ∧ a ∈ msg.addrs
    · refine ⟨fun _ => hin hlater, ?_⟩
      intro hno
      obtain ⟨j', hj', hrest⟩ := hlater
      exact absurd ⟨j', List.mem_cons_of_mem _ hj', hrest⟩ hno
    · rw [hout hlater, hstep]
      constructor
      · rintro ⟨j', hj', msg', hmsg', ha⟩
        rcases List.mem_cons.mp hj' with rfl | hmem
        · rw [hmsg] at hmsg'
          cases hmsg'
          rw [if_pos ha]
        · exact absurd ⟨j', hmem, msg', hmsg', ha⟩ hlater
      · intro hno
        rw [if_neg]
        exact fun ha => hno ⟨j, List.mem_cons_self, msg, hmsg, ha⟩

/-! ### Storing -/

/-- All accounts belong to the shard, so that all are stored; an update that changes nothing
leaves the trie as it is. -/
theorem storeAccounts_spec {cfg : ChainConfig} {l : Ledger} (f : Address → AccountState)
    (addrs : List Address) (howns : ∀ a ∈ addrs, l.owns cfg a = some true) {st st' : Trie}
    {dirty dirty' : Bool}
    (h : storeAccounts cfg l addrs (addrs.map f) (st, dirty) = some (st', dirty')) (a : Address) :
    st'.lookup a = if a ∈ addrs then some (f a) else st.lookup a := by
  induction addrs generalizing st dirty with
  | nil =>
    cases h
    simp
  | cons addr addrs ih =>
    have hown := howns addr List.mem_cons_self
    simp only [storeAccounts, hown, List.map_cons, List.head?_cons, List.tail_cons,
      Option.bind_eq_bind, Option.bind_some, if_true] at h
    rw [ih (fun a ha => howns a (List.mem_cons_of_mem _ ha)) h]
    by_cases hmem : a ∈ addrs
    · rw [if_pos hmem, if_pos (List.mem_cons_of_mem _ hmem)]
    · rw [if_neg hmem]
      by_cases heq : a = addr
      · subst heq
        rw [Finmap.lookup_insert, if_pos List.mem_cons_self]
      · rw [Finmap.lookup_insert_of_ne _ heq, if_neg]
        exact fun hcons => (List.mem_cons.mp hcons).elim heq hmem

/-- The state trie after `AddAccounts`. -/
theorem addAccounts_state (sh : Shards) {i : UInt64} {l l' : Ledger} (f : Address → AccountState)
    (addrs : List Address) (howns : ∀ a ∈ addrs, l.owns (sh.config i) a = some true) {st : Trie}
    (hst : l.state (sh.config i) = some st)
    (h : addAccounts (sh.config i) l addrs (addrs.map f) = some l') :
    l'.partitionMap = l.partitionMap ∧ ∃ st', l'.state (sh.config i) = some st' ∧
      ∀ a, st'.lookup a = if a ∈ addrs then some (f a) else st.lookup a := by
  obtain ⟨rt, triedb, hcommit, rfl⟩ := addAccounts_cases h
  refine ⟨rfl, ?_⟩
  have hroot : ∀ rt : Hash, rt.length = 32 →
      Ledger.state (sh.config i) { l with
        chain := ⟨l.successor (sh.config i) rt [] 0 0,
          l.chain.storage.addBlock (l.successor (sh.config i) rt [] 0 0)⟩
        triedb := triedb } = trieNew (sh.config i) triedb rt := by
    intro rt hlen
    show trieNew (sh.config i) triedb (bytesToHash rt) = _
    rw [bytesToHash_of_length hlen]
  unfold commitAccounts at hcommit
  split_ifs at hcommit with hempty
  · -- no account: the root and the database stay
    cases hcommit
    refine ⟨st, ?_, fun a => by simp [hempty]⟩
    rw [hroot l.root (bytesToHash_length _)]
    exact hst
  · obtain ⟨st₀, hst₀, hstored⟩ := Option.bind_eq_some_iff.mp hcommit
    obtain ⟨⟨st', dirty⟩, hstore, hroots⟩ := Option.bind_eq_some_iff.mp hstored
    have hsame : st₀ = st := Option.some.inj (hst₀.symm.trans hst)
    rw [hsame] at hstore
    refine ⟨st', ?_, storeAccounts_spec f addrs howns hstore⟩
    have hcases : (if dirty = true then some ((sh.config i).stateRoot st',
        l.triedb.insert ((sh.config i).stateRoot st') st')
        else if st' = ∅ then some ((sh.config i).stateRoot ∅, l.triedb) else none) =
        some (rt, triedb) := hroots
    split_ifs at hcases with hdirty hnone
    · cases hcases
      rw [hroot _ ((sh.config i).stateRoot_length st')]
      exact sh.trieNew_insert i l.triedb st'
    · cases hcases
      rw [hroot _ ((sh.config i).stateRoot_length ∅), hnone]
      exact if_pos (.inr rfl)

/-! ### The invariant of the round -/

section Round

variable (sh : Shards) (pm m : PartitionMap) (s₀ : Round)

/-- The shard that the old map gives the account to, existing or not. -/
def owner (a : Address) : Option UInt64 := getPartitionMap sh.chain.shardNum pm a

/-- The state trie of a shard before the round. -/
def oldTrie (i : UInt64) : Option Trie := (s₀.leaders i).ledger.state (sh.config i)

/-- The state of an account at its old owner. -/
def before (a : Address) : AccountState :=
  fetch ((oldTrie sh s₀ ((owner sh pm a).getD 0)).getD ∅) a 0

/-- The account comes to shard `i` from another one. -/
def Moves (i : UInt64) (a : Address) : Prop :=
  m.lookup a = some i ∧ ∃ j < sh.shardNums, j ≠ i ∧ owner sh pm a = some j

/-- A message with the accounts that go from shard `i` to shard `j`. -/
structure Carries (i j : UInt64) (msg : AccountStateAndTx) : Prop where
  sender : msg.fromShard = i
  shard : i < sh.shardNums
  other : i ≠ j
  addrs : ∀ a, a ∈ msg.addrs ↔ m.lookup a = some j ∧ owner sh pm a = some i
  states : msg.accountState = msg.addrs.map (before sh pm s₀)

/-- A leader that has not proposed yet. -/
structure Collecting (i : UInt64) (l : Leader) : Prop where
  ledger : l.ledger = (s₀.leaders i).ledger
  modified : l.modifiedMap = (s₀.leaders i).modifiedMap
  round : l.accountTransferRound = (s₀.leaders i).accountTransferRound
  received : l.receivedNewAccountState = ∅
  pool : ∀ j msg, l.accountStateTx.lookup j = some msg → Carries sh pm m s₀ j i msg
  full : l.collectOver = true → ∀ j < sh.shardNums, j ≠ i → j ∈ l.accountStateTx

/-- A leader that has proposed the accounts that come to its shard. -/
structure Proposal (i : UInt64) (l : Leader) (atm : AccountTransferMsg) : Prop where
  ledger : l.ledger = (s₀.leaders i).ledger
  map : atm.modifiedMap = m
  addrs : ∀ a, a ∈ atm.addrs ↔ Moves sh pm m i a
  states : atm.accountState = atm.addrs.map (before sh pm s₀)

/-- A leader that has applied its proposal. -/
structure Applied (i : UInt64) (l : Leader) : Prop where
  map : l.ledger.partitionMap = m ∪ pm
  trie : ∃ st st', oldTrie sh s₀ i = some st ∧ l.ledger.state (sh.config i) = some st' ∧
    ∀ a, (Moves sh pm m i a → st'.lookup a = some (before sh pm s₀ a)) ∧
      (¬ Moves sh pm m i a → st'.lookup a = st.lookup a)

def AtStage (i : UInt64) (l : Leader) : Stage → Prop
  | .ready => Collecting sh pm m s₀ i l
  | .sent => Collecting sh pm m s₀ i l ∧ ∃ st, oldTrie sh s₀ i = some st
  | .proposed atm => Proposal sh pm m s₀ i l atm ∧ ∃ st, oldTrie sh s₀ i = some st
  | .done => Applied sh pm m s₀ i l

structure Tracks (s : Round) : Prop where
  stages : ∀ i < sh.shardNums, AtStage sh pm m s₀ i (s.leaders i) (s.stage i)
  network : ∀ p ∈ s.network, Carries sh pm m s₀ p.2.fromShard p.1 p.2

variable {sh pm m s₀}

/-- A set of other shards that misses one shard only has all others. -/
theorem mem_of_card {i : UInt64} {keys : Finset UInt64} (hi : i < sh.shardNums)
    (hsub : ∀ j ∈ keys, j < sh.shardNums ∧ j ≠ i) (hcard : keys.card + 1 = sh.shardNums.toNat)
    {j : UInt64} (hj : j < sh.shardNums) (hji : j ≠ i) : j ∈ keys := by
  have himage : keys.image UInt64.toNat ⊆ (Finset.range sh.shardNums.toNat).erase i.toNat := by
    intro x hx
    obtain ⟨k, hk, rfl⟩ := Finset.mem_image.mp hx
    obtain ⟨hlt, hne⟩ := hsub k hk
    refine Finset.mem_erase.mpr ⟨fun heq => hne (UInt64.toNat_inj.mp heq), ?_⟩
    exact Finset.mem_range.mpr (UInt64.lt_iff_toNat_lt.mp hlt)
  have hinj : (keys.image UInt64.toNat).card = keys.card :=
    Finset.card_image_of_injective _ fun a b h => UInt64.toNat_inj.mp h
  have herase : ((Finset.range sh.shardNums.toNat).erase i.toNat).card + 1 =
      sh.shardNums.toNat := by
    have hmem : i.toNat ∈ Finset.range sh.shardNums.toNat :=
      Finset.mem_range.mpr (UInt64.lt_iff_toNat_lt.mp hi)
    rw [Finset.card_erase_add_one hmem, Finset.card_range]
  have hall := Finset.eq_of_subset_of_card_le himage (by omega)
  have hjmem : j.toNat ∈ keys.image UInt64.toNat := by
    rw [hall]
    refine Finset.mem_erase.mpr ⟨fun heq => hji (UInt64.toNat_inj.mp heq), ?_⟩
    exact Finset.mem_range.mpr (UInt64.lt_iff_toNat_lt.mp hj)
  obtain ⟨k, hk, heq⟩ := Finset.mem_image.mp hjmem
  rw [← UInt64.toNat_inj.mp heq]
  exact hk

theorem before_of_owner {i : UInt64} {a : Address} {st : Trie} (howner : owner sh pm a = some i)
    (hst : oldTrie sh s₀ i = some st) : before sh pm s₀ a = fetch st a 0 := by
  rw [before, howner, Option.getD_some, hst, Option.getD_some]

theorem mem_ids {j : UInt64} : j ∈ sh.ids ↔ j < sh.shardNums := by
  rw [Shards.ids, List.mem_map, UInt64.lt_iff_toNat_lt]
  constructor
  · rintro ⟨n, hn, rfl⟩
    rw [List.mem_range] at hn
    rw [UInt64.toNat_ofNat_of_lt' (hn.trans (UInt64.toNat_lt _))]
    exact hn
  · intro hj
    exact ⟨j.toNat, List.mem_range.mpr hj, UInt64.ofNat_toNat⟩

/-! ### The phases -/

/-- When the wait is over, the messages of all others are there. -/
theorem Collecting.collected {i : UInt64} {l : Leader} (h : Collecting sh pm m s₀ i l)
    (hover : Collected sh i l) {j : UInt64} (hj : j < sh.shardNums) (hji : j ≠ i) :
    j ∈ l.accountStateTx := by
  rcases hover with hover | hone
  · exact h.full hover j hj hji
  · have hmem := mem_ids.mpr hj
    rw [hone, List.mem_singleton] at hmem
    exact absurd hmem hji

theorem Collecting.deliver {i : UInt64} {l : Leader} {msg : AccountStateAndTx}
    (h : Collecting sh pm m s₀ i l) (hi : i < sh.shardNums)
    (hmsg : Carries sh pm m s₀ msg.fromShard i msg) :
    Collecting sh pm m s₀ i (handleAccountStateAndTxMsg sh l msg) := by
  have hpool : ∀ j msg', (l.accountStateTx.insert msg.fromShard msg).lookup j = some msg' →
      Carries sh pm m s₀ j i msg' := by
    intro j msg' hlookup
    by_cases hj : j = msg.fromShard
    · subst hj
      rw [Finmap.lookup_insert] at hlookup
      cases hlookup
      exact hmsg
    · rw [Finmap.lookup_insert_of_ne _ hj] at hlookup
      exact h.pool j msg' hlookup
  refine ⟨h.ledger, h.modified, h.round, h.received, hpool, ?_⟩
  intro hover j hj hji
  rcases Bool.or_eq_true_iff.mp hover with hold | hnow
  · exact Finmap.mem_insert.mpr (.inr (h.full hold j hj hji))
  · rw [decide_eq_true_eq] at hnow
    refine Finmap.mem_keys.mp (mem_of_card hi ?_ hnow hj hji)
    intro k hk
    obtain ⟨msg', hmsg'⟩ := Finmap.mem_iff.mp (Finmap.mem_keys.mp hk)
    have hcarries := hpool k msg' hmsg'
    exact ⟨hcarries.shard, hcarries.other⟩

/-- `sendAccounts_and_Txs` sends each other shard what moves there. -/
theorem send_spec {i : UInt64} {l l' : Leader} {keys : List Address}
    {msgs : List (UInt64 × AccountStateAndTx)} (h : Collecting sh pm m s₀ i l)
    (hi : i < sh.shardNums) (hmap : l.ledger.partitionMap = pm)
    (hlast : l.modifiedMap.getLast? = some m) (hkeys : Iterates m keys)
    (hsend : sendAccountsAndTxs sh i l keys = some (l', msgs)) :
    Collecting sh pm m s₀ i l' ∧ (∃ st, oldTrie sh s₀ i = some st) ∧
      ∀ p ∈ msgs, Carries sh pm m s₀ p.2.fromShard p.1 p.2 := by
  obtain ⟨m', hm', hsend⟩ := Option.bind_eq_some_iff.mp hsend
  obtain ⟨addrs, haddrs, hsend⟩ := Option.bind_eq_some_iff.mp hsend
  obtain ⟨states, hstates, hsend⟩ := Option.bind_eq_some_iff.mp hsend
  obtain ⟨queue, -, hsend⟩ := Option.bind_eq_some_iff.mp hsend
  obtain ⟨st, hst, hfetched⟩ := Option.bind_eq_some_iff.mp hstates
  have hmm : m' = m := Option.some.inj (hm'.symm.trans hlast)
  subst hmm
  have hold : oldTrie sh s₀ i = some st := by
    rw [oldTrie, ← h.ledger]
    exact hst
  have hstates' : states = addrs.map fun a => fetch st a 0 := (Option.some.inj hfetched).symm
  cases hsend
  refine ⟨⟨h.ledger, h.modified, h.round, h.received, h.pool, h.full⟩, ⟨st, hold⟩, ?_⟩
  rintro ⟨j, msg⟩ hp
  rw [hstates'] at hp
  obtain ⟨hj, hfrom, hmsg, hmsgStates⟩ := sendLoop_spec i m' (fun a => fetch st a 0) addrs _ _ hp
  obtain ⟨hjid, hji⟩ := List.mem_filter.mp hj
  have hne : j ≠ i := of_decide_eq_true hji
  have hmem : ∀ a, a ∈ msg.addrs ↔ m'.lookup a = some j ∧ owner sh pm a = some i := by
    intro a
    have hspec := accountToFetch_spec haddrs a
    rw [hmsg, List.mem_filter, decide_eq_true_eq, hspec, hmap]
    constructor
    · rintro ⟨⟨-, -, howner⟩, hlookup⟩
      exact ⟨hlookup, howner⟩
    · rintro ⟨hlookup, howner⟩
      refine ⟨⟨?_, ?_, howner⟩, hlookup⟩
      · rw [← List.mem_toFinset, hkeys.2, Finmap.mem_keys]
        exact Finmap.mem_of_lookup_eq_some hlookup
      · rw [hlookup]
        exact fun heq => hne (Option.some.inj heq)
  show Carries sh pm m' s₀ msg.fromShard j msg
  rw [hfrom]
  refine ⟨hfrom, hi, Ne.symm hne, hmem, ?_⟩
  rw [hmsgStates]
  refine List.map_congr_left ?_
  intro a ha
  exact (before_of_owner ((hmem a).mp ha).2 hold).symm

/-- `proposePartition` proposes what comes to the shard. -/
theorem propose_spec {i : UInt64} {l l' : Leader} {js : List UInt64} {addrs : List Address}
    {atm : AccountTransferMsg} (h : Collecting sh pm m s₀ i l) (hover : Collected sh i l)
    (hjs : Iterates l.accountStateTx js)
    (hround : l.modifiedMap[l.accountTransferRound]? = some m)
    (hpropose : proposePartition i l js addrs = some (l', atm)) :
    Proposal sh pm m s₀ i l' atm := by
  obtain ⟨⟨received, txs⟩, hreceive, hpropose⟩ := Option.bind_eq_some_iff.mp hpropose
  obtain ⟨m', hm', hpropose⟩ := Option.bind_eq_some_iff.mp hpropose
  have hmm : m' = m := Option.some.inj (hm'.symm.trans hround)
  subst hmm
  have haddrs : Iterates received addrs := by
    by_contra hno
    simp only [if_neg hno] at hpropose
    split_ifs at hpropose
    obtain ⟨-, -, hnone⟩ := Option.bind_eq_some_iff.mp hpropose
    cases hnone
  simp only [if_pos haddrs] at hpropose
  split_ifs at hpropose
  obtain ⟨queue, -, hpropose⟩ := Option.bind_eq_some_iff.mp hpropose
  obtain ⟨states, hstates, hpropose⟩ := Option.bind_eq_some_iff.mp hpropose
  cases hpropose
  rw [h.received] at hreceive
  have hspec := receiveAll_spec (before sh pm s₀) (fun j msg hmsg => (h.pool j msg hmsg).states)
    js hreceive
  -- the pool has a message of every other shard
  have hcomes : ∀ a, (∃ j ∈ js, ∃ msg, l.accountStateTx.lookup j = some msg ∧ a ∈ msg.addrs) ↔
      Moves sh pm m' i a := by
    intro a
    constructor
    · rintro ⟨j, -, msg, hmsg, ha⟩
      have hcarries := h.pool j msg hmsg
      obtain ⟨hlookup, howner⟩ := (hcarries.addrs a).mp ha
      exact ⟨hlookup, j, hcarries.shard, hcarries.other, howner⟩
    · rintro ⟨hlookup, j, hj, hji, howner⟩
      have hin := h.collected hover hj hji
      obtain ⟨msg, hmsg⟩ := Finmap.mem_iff.mp hin
      refine ⟨j, ?_, msg, hmsg, ((h.pool j msg hmsg).addrs a).mpr ⟨hlookup, howner⟩⟩
      rw [← List.mem_toFinset, hjs.2, Finmap.mem_keys]
      exact hin
  have hkeys : ∀ a, a ∈ addrs ↔ Moves sh pm m' i a := by
    intro a
    rw [← List.mem_toFinset, haddrs.2, Finmap.mem_keys, ← hcomes a]
    constructor
    · intro hmem
      by_contra hno
      obtain ⟨state, hstate⟩ := Finmap.mem_iff.mp hmem
      rw [(hspec a).2 hno] at hstate
      cases hstate
    · intro hyes
      exact Finmap.mem_of_lookup_eq_some ((hspec a).1 hyes)
  refine ⟨h.ledger, rfl, hkeys, ?_⟩
  have hvalues : ∀ a ∈ addrs, received.lookup a = some (before sh pm s₀ a) := by
    intro a ha
    exact (hspec a).1 ((hcomes a).mpr ((hkeys a).mp ha))
  exact Option.some.inj (hstates.symm.trans (Lib.Containers.mapM_some hvalues))

theorem lookup_map (a : Address) :
    getPartitionMap sh.chain.shardNum (m ∪ pm) a =
      match m.lookup a with
      | none => owner sh pm a
      | some i => some i := by
  unfold getPartitionMap owner
  cases hlookup : m.lookup a with
  | none =>
    rw [Finmap.lookup_union_right (Finmap.lookup_eq_none.mp hlookup)]
    rfl
  | some i =>
    rw [Finmap.lookup_union_left (Finmap.mem_of_lookup_eq_some hlookup), hlookup]

/-- `accountTransfer_do` stores what comes to the shard. -/
theorem apply_spec {i : UInt64} {l l' : Leader} {atm : AccountTransferMsg} {st : Trie}
    (h : Proposal sh pm m s₀ i l atm) (hmap : (s₀.leaders i).ledger.partitionMap = pm)
    (hst : oldTrie sh s₀ i = some st) (hdo : accountTransferDo sh i l atm = some l') :
    Applied sh pm m s₀ i l' := by
  obtain ⟨ledger, hadd, hdo⟩ := Option.bind_eq_some_iff.mp hdo
  cases hdo
  rw [h.map, h.states, h.ledger, hmap] at hadd
  have howns : ∀ a ∈ atm.addrs, Ledger.owns (sh.config i)
      { (s₀.leaders i).ledger with partitionMap := m ∪ pm } a = some true := by
    intro a ha
    obtain ⟨hlookup, -⟩ := (h.addrs a).mp ha
    show (getPartitionMap sh.chain.shardNum (m ∪ pm) a).map (· == i) = some true
    rw [lookup_map, hlookup]
    simp
  obtain ⟨hpm, st', hst', hlookup⟩ := addAccounts_state sh (before sh pm s₀) atm.addrs howns
    (show Ledger.state (sh.config i) { (s₀.leaders i).ledger with partitionMap := m ∪ pm } =
      some st from hst) hadd
  refine ⟨hpm, st, st', hst, hst', ?_⟩
  intro a
  rw [hlookup a, ← h.addrs a]
  exact ⟨fun ha => if_pos ha, fun ha => if_neg ha⟩

/-! ### Whole rounds -/

theorem Pending.tracks (h : Pending sh pm m s₀) : Tracks sh pm m s₀ s₀ := by
  constructor
  · intro i hi
    obtain ⟨hpool, hreceived, -, hover⟩ := h.empty i hi
    rw [h.ready i]
    refine ⟨rfl, rfl, rfl, hreceived, ?_, ?_⟩
    · intro j msg hmsg
      rw [hpool, Finmap.lookup_empty] at hmsg
      cases hmsg
    · intro htrue
      rw [hover] at htrue
      cases htrue
  · intro p hp
    rw [h.network] at hp
    cases hp

/-- A leader that moves on to its next stage. -/
theorem Tracks.set {s : Round} (h : Tracks sh pm m s₀ s) {i : UInt64} {l : Leader} {stage : Stage}
    (hnew : i < sh.shardNums → AtStage sh pm m s₀ i l stage) {j : UInt64} (hj : j < sh.shardNums) :
    AtStage sh pm m s₀ j ((s.set i l stage).leaders j) ((s.set i l stage).stage j) := by
  show AtStage sh pm m s₀ j (Function.update s.leaders i l j) (Function.update s.stage i stage j)
  by_cases hji : j = i
  · subst hji
    rw [Function.update_self, Function.update_self]
    exact hnew hj
  · rw [Function.update_of_ne hji, Function.update_of_ne hji]
    exact h.stages j hj

theorem AtStage.deliver {i : UInt64} {l : Leader} {stage : Stage} {msg : AccountStateAndTx}
    (h : AtStage sh pm m s₀ i l stage) (hi : i < sh.shardNums)
    (hmsg : Carries sh pm m s₀ msg.fromShard i msg) :
    AtStage sh pm m s₀ i (handleAccountStateAndTxMsg sh l msg) stage := by
  cases stage with
  | ready => exact Collecting.deliver h hi hmsg
  | sent => exact ⟨h.1.deliver hi hmsg, h.2⟩
  | proposed atm => exact ⟨⟨h.1.ledger, h.1.map, h.1.addrs, h.1.states⟩, h.2⟩
  | done => exact ⟨h.map, h.trie⟩

/-- The pending map is the one of the current round. -/
theorem Pending.modified_round (hstart : Pending sh pm m s₀) {i : UInt64} (hi : i < sh.shardNums)
    {l : Leader} (h : Collecting sh pm m s₀ i l) :
    l.modifiedMap.getLast? = some m ∧ l.modifiedMap[l.accountTransferRound]? = some m := by
  obtain ⟨hlast, hlength⟩ := hstart.modified i hi
  rw [h.modified, h.round]
  refine ⟨hlast, ?_⟩
  rw [List.getLast?_eq_getElem?, hlength, Nat.add_sub_cancel] at hlast
  exact hlast

theorem Tracks.send {s s' : Round} (hstart : Pending sh pm m s₀) (h : Tracks sh pm m s₀ s)
    {i : UInt64} {keys : List Address} (hi : i < sh.shardNums)
    (hstep : s.send sh i keys = some s') : Tracks sh pm m s₀ s' := by
  unfold Round.send at hstep
  have hstage := h.stages i hi
  split at hstep
  next hready =>
    rw [hready] at hstage
    have hcollecting : Collecting sh pm m s₀ i (s.leaders i) := hstage
    obtain ⟨hlast, -⟩ := hstart.modified_round hi hcollecting
    rw [hlast] at hstep
    simp only [Option.bind_eq_bind, Option.bind_some] at hstep
    split_ifs at hstep with hkeys
    obtain ⟨⟨l, msgs⟩, hsend, hstep⟩ := Option.bind_eq_some_iff.mp hstep
    cases hstep
    have hmap : (s.leaders i).ledger.partitionMap = pm := by
      rw [hcollecting.ledger]
      exact hstart.maps i hi
    obtain ⟨hsent, htrie, hmsgs⟩ := send_spec hcollecting hi hmap hlast hkeys hsend
    have hnext : AtStage sh pm m s₀ i l .sent := ⟨hsent, htrie⟩
    refine ⟨fun j hj => h.set (fun _ => hnext) hj, ?_⟩
    intro p hp
    rcases List.mem_append.mp hp with hold | hnew
    · exact h.network p hold
    · exact hmsgs p hnew
  next => cases hstep

theorem Tracks.deliver {s s' : Round} (h : Tracks sh pm m s₀ s) {k : ℕ}
    (hstep : s.deliver sh k = some s') : Tracks sh pm m s₀ s' := by
  obtain ⟨⟨i, msg⟩, hmsg, hstep⟩ := Option.bind_eq_some_iff.mp hstep
  cases hstep
  have hcarries := h.network (i, msg) (List.mem_of_getElem? hmsg)
  constructor
  · intro j hj
    show AtStage sh pm m s₀ j (Function.update s.leaders i _ j) (s.stage j)
    by_cases hji : j = i
    · subst hji
      rw [Function.update_self]
      exact (h.stages j hj).deliver hj hcarries
    · rw [Function.update_of_ne hji]
      exact h.stages j hj
  · intro p hp
    exact h.network p (List.mem_of_mem_eraseIdx hp)

theorem Tracks.propose {s s' : Round} (hstart : Pending sh pm m s₀) (h : Tracks sh pm m s₀ s)
    {i : UInt64} {js : List UInt64} {addrs : List Address}
    (hstep : s.propose sh i js addrs = some s') : Tracks sh pm m s₀ s' := by
  unfold Round.propose at hstep
  split at hstep
  next hsent =>
    split_ifs at hstep with hguard
    obtain ⟨⟨l, atm⟩, hpropose, hstep⟩ := Option.bind_eq_some_iff.mp hstep
    cases hstep
    refine ⟨fun j hj => h.set (fun hi => ?_) hj, h.network⟩
    have hstage := h.stages i hi
    rw [hsent] at hstage
    obtain ⟨hcollecting, htrie⟩ := hstage
    obtain ⟨-, hround⟩ := hstart.modified_round hi hcollecting
    exact ⟨propose_spec hcollecting hguard.1 hguard.2 hround hpropose, htrie⟩
  next => cases hstep

theorem Tracks.apply {s s' : Round} (hstart : Pending sh pm m s₀) (h : Tracks sh pm m s₀ s)
    {i : UInt64} (hstep : s.apply sh i = some s') : Tracks sh pm m s₀ s' := by
  unfold Round.apply at hstep
  split at hstep
  next atm hproposed =>
    obtain ⟨l, hdo, hstep⟩ := Option.bind_eq_some_iff.mp hstep
    cases hstep
    refine ⟨fun j hj => h.set (fun hi => ?_) hj, h.network⟩
    have hstage := h.stages i hi
    rw [hproposed] at hstage
    obtain ⟨hproposal, st, hst⟩ := hstage
    exact apply_spec hproposal (hstart.maps i hi) hst hdo
  next => cases hstep

theorem tracks_step {s s' : Round} {move : RoundMove} (hstart : Pending sh pm m s₀)
    (h : Tracks sh pm m s₀ s) (hstep : roundStep sh s move = some s') : Tracks sh pm m s₀ s' := by
  cases move with
  | send i keys =>
    simp only [roundStep] at hstep
    split_ifs at hstep with hi
    exact h.send hstart hi hstep
  | deliver k => exact h.deliver hstep
  | propose i js addrs => exact h.propose hstart hstep
  | apply i => exact h.apply hstart hstep

theorem tracks_of_run {s : Round} (hstart : Pending sh pm m s₀)
    (h : Reach (roundStep sh) anyStep (· = s₀) s) : Tracks sh pm m s₀ s := by
  induction h with
  | start hs =>
    subst hs
    exact hstart.tracks
  | next _ _ hstep ih => exact tracks_step hstart ih hstep

/-- The account has one shard in all maps, the one of the new map or else its old one, and there
the state that it had at its old one. -/
def Preserved (sh : Shards) (pm m : PartitionMap) (s₀ s : Round) (a : Address) : Prop :=
  ∃ o < sh.shardNums, owner sh pm a = some o ∧
    ∃ i < sh.shardNums, i = (m.lookup a).getD o ∧
      (∀ j < sh.shardNums,
        getPartitionMap sh.chain.shardNum (s.leaders j).ledger.partitionMap a = some i) ∧
      ∃ st st', oldTrie sh s₀ o = some st ∧ (s.leaders i).ledger.state (sh.config i) = some st' ∧
        fetch st' a 0 = fetch st a 0

/-- What the shards have applied keeps an account that has an owner. -/
theorem preserved_of_applied {s : Round} (hstart : Pending sh pm m s₀)
    (hall : ∀ i < sh.shardNums, Applied sh pm m s₀ i (s.leaders i)) {a : Address} {o : UInt64}
    (ho : o < sh.shardNums) (howner : owner sh pm a = some o) : Preserved sh pm m s₀ s a := by
  obtain ⟨st, st', hst, hst', htrie⟩ := (hall o ho).trie
  cases hlookup : m.lookup a with
  | none =>
    refine ⟨o, ho, howner, o, ho, by rw [hlookup, Option.getD_none], ?_, st, st', hst, hst', ?_⟩
    · intro j hj
      rw [(hall j hj).map, lookup_map, hlookup]
      exact howner
    · have hstays : ¬ Moves sh pm m o a := by
        rintro ⟨hmoves, -⟩
        rw [hlookup] at hmoves
        cases hmoves
      rw [fetch, fetch, (htrie a).2 hstays]
  | some i =>
    have hi := hstart.shards a i hlookup
    have hmaps : ∀ j < sh.shardNums,
        getPartitionMap sh.chain.shardNum (s.leaders j).ledger.partitionMap a = some i := by
      intro j hj
      rw [(hall j hj).map, lookup_map, hlookup]
    refine ⟨o, ho, howner, i, hi, by rw [hlookup, Option.getD_some], hmaps, st, ?_⟩
    by_cases hio : i = o
    · subst hio
      refine ⟨st', hst, hst', ?_⟩
      have hstays : ¬ Moves sh pm m i a := by
        rintro ⟨-, j, -, hji, hj⟩
        exact hji (Option.some.inj (hj.symm.trans howner))
      rw [fetch, fetch, (htrie a).2 hstays]
    · -- the copy that was sent replaces what the new owner may still have
      obtain ⟨_, sti, -, hsti, hnew⟩ := (hall i hi).trie
      refine ⟨sti, hst, hsti, ?_⟩
      have hmoves : Moves sh pm m i a := ⟨hlookup, o, ho, Ne.symm hio, howner⟩
      have hstored := (hnew a).1 hmoves
      rw [before_of_owner howner hst] at hstored
      rw [fetch, hstored, Option.getD_some]

/-- **Re-partitioning.**  In a round that all shards finish, exactly the accounts that the old map
gives to one of the shards have one shard in all maps afterwards, with their old state. -/
theorem repartition_preserves_iff (sh : Shards) {pm m : PartitionMap} {s₀ s : Round}
    (hstart : Pending sh pm m s₀) (h : Reach (roundStep sh) anyStep (· = s₀) s)
    (hdone : s.Finished sh) (a : Address) :
    Preserved sh pm m s₀ s a ↔
      ∃ o < sh.shardNums, getPartitionMap sh.chain.shardNum pm a = some o := by
  constructor
  · rintro ⟨o, ho, howner, -⟩
    exact ⟨o, ho, howner⟩
  · rintro ⟨o, ho, howner⟩
    refine preserved_of_applied hstart ?_ ho howner
    intro i hi
    have hstage := (tracks_of_run hstart h).stages i hi
    rw [hdone i (mem_ids.mpr hi)] at hstage
    exact hstage

end Round

/-! ### Two shards -/

/-- An account of shard 0 that moves to shard 1. -/
def movingMap : PartitionMap := Finmap.singleton "0000000000000000" 1

def pendingLeader (l : Ledger) : Leader := ⟨l, some [], [movingMap], 0, ∅, [], ∅, false⟩

/-- Shard 0 has stored the account. -/
def pendingRound : Round where
  leaders := fun i => pendingLeader (if i = 0 then
    (addAccounts (shortShards.config 0) shortLedger ["0000000000000000"] [⟨0, 7⟩]).getD shortLedger
    else shortLedger)
  stage := fun _ => .ready
  network := []

theorem pending_short : Pending shortShards ∅ movingMap pendingRound where
  shards := by
    intro a i h
    by_cases ha : a = "0000000000000000"
    · subst ha
      rw [movingMap, Finmap.lookup_singleton_eq] at h
      cases h
      decide
    · have hnone : movingMap.lookup a = none :=
        Finmap.lookup_eq_none.mpr fun hmem => ha (Finmap.mem_singleton _ _ _ |>.mp hmem)
      rw [hnone] at h
      cases h
  maps := by
    intro i _
    show (if i = 0 then _ else shortLedger).partitionMap = ∅
    split_ifs
    · decide +kernel
    · rfl
  modified := fun _ _ => ⟨rfl, rfl⟩
  empty := fun _ _ => ⟨rfl, rfl, rfl, rfl⟩
  ready := fun _ => rfl
  network := rfl

def movingRound : List RoundMove :=
  [.send 0 ["0000000000000000"], .send 1 ["0000000000000000"], .deliver 0, .deliver 0,
    .propose 0 [1] [], .propose 1 [0] ["0000000000000000"], .apply 1, .apply 0]

/-- A complete round in which the account moves with its balance. -/
theorem repartition_preserves_moving :
    ∃ s, Reach (roundStep shortShards) anyStep (· = pendingRound) s ∧ s.Finished shortShards ∧
      (s.leaders 1).ledger.owns (shortShards.config 1) "0000000000000000" = some true ∧
      Preserved shortShards ∅ movingMap pendingRound s "0000000000000000" := by
  have hstart : Reach (roundStep shortShards) anyStep (· = pendingRound) pendingRound :=
    .start rfl
  obtain ⟨s, hs, hdone, howns⟩ := exists_reach_of_run movingRound
    (fun s => s.Finished shortShards ∧
      (s.leaders 1).ledger.owns (shortShards.config 1) "0000000000000000" = some true)
    hstart (by decide +kernel)
  refine ⟨s, hs, hdone, howns, ?_⟩
  exact (repartition_preserves_iff shortShards pending_short hs hdone "0000000000000000").mpr
    ⟨0, by decide, by decide +kernel⟩

/-- After the same round all shards give another account to the shard 2^64 - 1, which is none of
the two. -/
theorem repartition_loses_account :
    Pending shortShards ∅ movingMap pendingRound ∧
      ∃ s, Reach (roundStep shortShards) anyStep (· = pendingRound) s ∧
      s.Finished shortShards ∧
      (s.leaders 0).ledger.owns (shortShards.config 0) "8000000000000001" = some false ∧
      (s.leaders 1).ledger.owns (shortShards.config 1) "8000000000000001" = some false ∧
      ¬ Preserved shortShards ∅ movingMap pendingRound s "8000000000000001" := by
  have hstart : Reach (roundStep shortShards) anyStep (· = pendingRound) pendingRound :=
    .start rfl
  obtain ⟨s, hs, hdone, hzero, hone⟩ := exists_reach_of_run movingRound
    (fun s => s.Finished shortShards ∧
      (s.leaders 0).ledger.owns (shortShards.config 0) "8000000000000001" = some false ∧
      (s.leaders 1).ledger.owns (shortShards.config 1) "8000000000000001" = some false)
    hstart (by decide +kernel)
  refine ⟨pending_short, s, hs, hdone, hzero, hone, ?_⟩
  rintro ⟨o, ho, howner, -⟩
  have hlast : owner shortShards ∅ "8000000000000001" = some 18446744073709551615 := by
    decide +kernel
  rw [Option.some.inj (howner.symm.trans hlast)] at ho
  exact absurd ho (by decide)

end Aster.Clpa
