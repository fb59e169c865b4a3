import Aster.Core.Transaction
import Aster.Lib.Slices
import Aster.Lib.Transition

/-!
# The transaction pool

The queue and the relay lists of a `TxPool` are slices, and so are the arguments and results of its
operations: a slice that `PackRelayTxs` returns is the front of the array in which the rest of the
relay list lies.  Transactions are pointers of a type `T`, and `none` is a nil pointer.

* `PoolInv`: the slices of the pool lie in different parts of the heap, so that an append to one of
  them does not change another;
* `PoolInv.pushQueue`, `PoolInv.pushRelay`: one transaction more;
* `Accounts.step`: a call that is `Safe` returns and keeps the accounts;
* **`pool_accounts`**: in every run of such calls every transaction is accounted for.

The operations set the times of the transactions they are given, which nothing here depends on.
-/

namespace Aster.Core

open Aster.Lib.Slices Aster.Lib.Transition

variable {T : Type}

/-! ### The operations -/

structure TxPool where
  txQueue : Slice
  /-- `none` is a nil map. -/
  relayPool : Option (Finmap fun _ : UInt64 => Slice)

def newTxPool : TxPool := ⟨Slice.nil, some ∅⟩

/-- The memory with the pool. -/
structure PoolMem (T : Type) where
  heap : Heap (Option T)
  pool : TxPool

/-- The relay lists; a nil map has none. -/
def PoolMem.relay (m : PoolMem T) : Finmap fun _ : UInt64 => Slice := m.pool.relayPool.getD ∅

def PoolMem.relayList (m : PoolMem T) (shardID : UInt64) : Slice :=
  (m.relay.lookup shardID).getD Slice.nil

variable (g : Growth)

/-- `TxQueue = append(TxQueue, tx)`. -/
def pushQueue (m : PoolMem T) (tx : Option T) : PoolMem T :=
  let res := append g none m.heap m.pool.txQueue [tx]
  ⟨res.1, { m.pool with txQueue := res.2 }⟩

/-- `RelayPool[shardID] = append(RelayPool[shardID], tx)`, on a map that is not nil. -/
def pushRelay (shardID : UInt64) (m : PoolMem T) (tx : Option T) : PoolMem T :=
  let res := append g none m.heap (m.relayList shardID) [tx]
  ⟨res.1, { m.pool with relayPool := some (m.relay.insert shardID res.2) }⟩

/-- `AddTx2Pool`, which reads the time of the transaction. -/
def addTx2Pool (m : PoolMem T) (tx : Option T) : Option (PoolMem T) :=
  if tx.isSome then some (pushQueue g m tx) else none

/-- The loop of `AddTxs2Pool`: `n` elements of the slice, from position `i` on.  An element is
read when its turn comes. -/
def addTxsLoop (txs : Slice) : ℕ → ℕ → PoolMem T → Option (PoolMem T)
  | 0, _, m => some m
  | n + 1, i, m => do
    let tx ← (contents m.heap txs)[i]?
    let m ← addTx2Pool g m tx
    addTxsLoop txs n (i + 1) m

def addTxs2Pool (m : PoolMem T) (txs : Slice) : Option (PoolMem T) := addTxsLoop g txs txs.len 0 m

def addTxs2PoolHead (m : PoolMem T) (tx : Slice) : PoolMem T :=
  let res := append g none m.heap tx (contents m.heap m.pool.txQueue)
  ⟨res.1, { m.pool with txQueue := res.2 }⟩

def packTxs (m : PoolMem T) (maxTxs : UInt64) : PoolMem T × Slice :=
  let txNum := min maxTxs.toNat m.pool.txQueue.len
  (⟨m.heap, { m.pool with txQueue := m.pool.txQueue.rest txNum }⟩, m.pool.txQueue.front txNum)

/-- `AddRelayTx`; an entry of a nil map cannot be set. -/
def addRelayTx (m : PoolMem T) (tx : Option T) (shardID : UInt64) : Option (PoolMem T) :=
  if m.pool.relayPool.isSome then some (pushRelay g shardID m tx) else none

/-- `PackRelayTxs`; the smallest size is converted to `int`. -/
def packRelayTxs (m : PoolMem T) (shardID minRelaySize maxRelaySize : UInt64) :
    PoolMem T × Slice × Bool :=
  match m.relay.lookup shardID with
  | none => (m, Slice.nil, false)
  | some list =>
    if (list.len : ℤ) < minRelaySize.toInt64.toInt then (m, Slice.nil, false)
    else
      let txNum := min maxRelaySize.toNat list.len
      (⟨m.heap, { m.pool with relayPool := some (m.relay.insert shardID (list.rest txNum)) }⟩,
        list.front txNum, true)

def clearRelayPool (m : PoolMem T) : PoolMem T := ⟨m.heap, { m.pool with relayPool := none }⟩

/-- A loop of `TransferTxs`: the transactions of the address go out, the others are pushed into the
new pool. -/
def transferLoop (sender : T → Address) (addr : Address) (push : PoolMem T → Option T → PoolMem T) :
    List (Option T) → PoolMem T × List (Option T) → Option (PoolMem T × List (Option T))
  | [], res => some res
  | none :: _, _ => none
  | some tx :: txs, (m, txTransfered) =>
    if sender tx = addr then transferLoop sender addr push txs (m, txTransfered ++ [some tx])
    else transferLoop sender addr push txs (push m (some tx), txTransfered)

/-- `TransferTxs`, with the order in which the relay lists are visited.  The new lists are made in
new arrays, so the old ones are read as they were. -/
def transferTxs (sender : T → Address) (m : PoolMem T) (addr : Address) (order : List UInt64) :
    Option (PoolMem T × List (Option T)) := do
  let res ← transferLoop sender addr (pushQueue g) (contents m.heap m.pool.txQueue)
    (⟨m.heap, newTxPool⟩, [])
  order.foldlM (fun res shardID =>
    transferLoop sender addr (pushRelay g shardID) (contents m.heap (m.relayList shardID)) res) res

/-! ### What the pool holds -/

def relayTxs (m : PoolMem T) : Multiset (Option T) :=
  ∑ shardID ∈ m.relay.keys, (contents m.heap (m.relayList shardID) : Multiset (Option T))

def held (m : PoolMem T) : Multiset (Option T) :=
  (contents m.heap m.pool.txQueue : Multiset (Option T)) + relayTxs m

/-- The slices of the pool are valid and lie apart from each other. -/
structure PoolInv (m : PoolMem T) : Prop where
  queue : Valid m.heap m.pool.txQueue
  relay : ∀ k r, m.relay.lookup k = some r → Valid m.heap r ∧ Apart m.pool.txQueue r
  apart : ∀ k k' r r', m.relay.lookup k = some r → m.relay.lookup k' = some r' → k ≠ k' →
    Apart r r'

variable {g} {m : PoolMem T} {k : UInt64} {h' : Heap (Option T)}

theorem PoolInv.relayList (hinv : PoolInv m) (k : UInt64) :
    Valid m.heap (m.relayList k) ∧ Apart m.pool.txQueue (m.relayList k) := by
  rw [PoolMem.relayList]
  cases hk : m.relay.lookup k with
  | none => exact ⟨valid_nil _, apart_nil _⟩
  | some r => exact hinv.relay k r hk

theorem PoolInv.relayList_apart (hinv : PoolInv m) {k' : UInt64} {r : Slice}
    (hr : m.relay.lookup k' = some r) (hne : k' ≠ k) : Apart (m.relayList k) r := by
  rw [PoolMem.relayList]
  cases hk : m.relay.lookup k with
  | none => exact (apart_nil r).symm
  | some r' => exact hinv.apart k k' r' r hk hr (Ne.symm hne)

/-- The sum over the relay lists, taken over any shards that include them. -/
theorem relayTxs_eq_sum {S : Finset UInt64} (hS : m.relay.keys ⊆ S) :
    relayTxs m = ∑ k ∈ S, (contents m.heap (m.relayList k) : Multiset (Option T)) := by
  refine Finset.sum_subset hS fun k _ hk => ?_
  rw [PoolMem.relayList, Finmap.lookup_eq_none.mpr (mt Finmap.mem_keys.mpr hk)]
  rfl

/-- Another queue, on a heap with the same relay lists. -/
theorem PoolInv.setQueue (hinv : PoolInv m) {q : Slice} (hq : Valid h' q)
    (hkeep : ∀ k r, m.relay.lookup k = some r →
      (Valid h' r ∧ contents h' r = contents m.heap r) ∧ Apart q r) :
    PoolInv ⟨h', { m.pool with txQueue := q }⟩ ∧
      held ⟨h', { m.pool with txQueue := q }⟩ =
        (contents h' q : Multiset (Option T)) + relayTxs m := by
  refine ⟨⟨hq, fun k r hr => ⟨(hkeep k r hr).1.1, (hkeep k r hr).2⟩, hinv.apart⟩, ?_⟩
  rw [held]
  congr 1
  refine Finset.sum_congr rfl fun k hk => ?_
  obtain ⟨r, hr⟩ := Finmap.mem_iff.mp (Finmap.mem_keys.mp hk)
  have hlist : m.relayList k = r := by rw [PoolMem.relayList, hr]; rfl
  show (contents h' (m.relayList k) : Multiset (Option T)) = _
  rw [hlist, (hkeep k r hr).1.2]

/-- The relay lists after one of them was set. -/
theorem relay_insert_cases {relay : Finmap fun _ : UInt64 => Slice} {s r : Slice} {k' : UInt64}
    (hr : (relay.insert k s).lookup k' = some r) :
    k' = k ∧ r = s ∨ k' ≠ k ∧ relay.lookup k' = some r := by
  by_cases hk : k' = k
  · rw [hk, Finmap.lookup_insert] at hr
    exact .inl ⟨hk, (Option.some.inj hr).symm⟩
  · rw [Finmap.lookup_insert_of_ne _ hk] at hr
    exact .inr ⟨hk, hr⟩

section SetRelay

variable {s : Slice}
  (hqueue : Valid h' m.pool.txQueue ∧ contents h' m.pool.txQueue = contents m.heap m.pool.txQueue)
  (hkeep : ∀ k' r, m.relay.lookup k' = some r → k' ≠ k →
    (Valid h' r ∧ contents h' r = contents m.heap r) ∧ Apart s r)

include hkeep in
/-- What the relay lists hold after one of them was set: the others hold what they held. -/
theorem relayTxs_insert :
    relayTxs ⟨h', { m.pool with relayPool := some (m.relay.insert k s) }⟩ +
        (contents m.heap (m.relayList k) : Multiset (Option T)) =
      relayTxs m + (contents h' s : Multiset (Option T)) := by
  set m' : PoolMem T := ⟨h', { m.pool with relayPool := some (m.relay.insert k s) }⟩
  have hkeys : m'.relay.keys ⊆ insert k m.relay.keys := by
    intro k' hk'
    have hmem : k' ∈ m.relay.insert k s := Finmap.mem_keys.mp hk'
    rw [Finmap.mem_insert] at hmem
    rw [Finset.mem_insert, Finmap.mem_keys]
    exact hmem
  have hself : m'.relayList k = s := by
    show ((m.relay.insert k s).lookup k).getD _ = s
    rw [Finmap.lookup_insert]
    rfl
  have hrest : ∑ k' ∈ (insert k m.relay.keys).erase k,
        (contents h' (m'.relayList k') : Multiset (Option T)) =
      ∑ k' ∈ (insert k m.relay.keys).erase k,
        (contents m.heap (m.relayList k') : Multiset (Option T)) := by
    refine Finset.sum_congr rfl fun k' hk' => ?_
    have hne := Finset.ne_of_mem_erase hk'
    have hother : m'.relay.lookup k' = m.relay.lookup k' := Finmap.lookup_insert_of_ne _ hne
    rw [PoolMem.relayList, PoolMem.relayList, hother]
    cases hr : m.relay.lookup k' with
    | none => rfl
    | some r => exact congrArg _ (hkeep k' r hr hne).1.2
  have hmem : k ∈ insert k m.relay.keys := Finset.mem_insert_self k _
  rw [relayTxs_eq_sum hkeys, relayTxs_eq_sum (Finset.subset_insert k m.relay.keys),
    ← Finset.add_sum_erase _ _ hmem, ← Finset.add_sum_erase _ _ hmem, hself]
  show (contents h' s : Multiset (Option T)) + _ + _ = _
  rw [hrest]
  abel

include hqueue hkeep in
/-- Another relay list for one shard, on a heap with the same queue and other lists. -/
theorem PoolInv.setRelay (hinv : PoolInv m) (hs : Valid h' s ∧ Apart m.pool.txQueue s) :
    PoolInv ⟨h', { m.pool with relayPool := some (m.relay.insert k s) }⟩ ∧
      held ⟨h', { m.pool with relayPool := some (m.relay.insert k s) }⟩ +
          (contents m.heap (m.relayList k) : Multiset (Option T)) =
        held m + (contents h' s : Multiset (Option T)) := by
  constructor
  · refine ⟨hqueue.1, fun k' r hr => ?_, fun k₁ k₂ r₁ r₂ h₁ h₂ hne => ?_⟩
    · rcases relay_insert_cases hr with ⟨-, rfl⟩ | ⟨hk, hold⟩
      · exact hs
      · exact ⟨(hkeep k' r hold hk).1.1, (hinv.relay k' r hold).2⟩
    · rcases relay_insert_cases h₁ with ⟨rfl, rfl⟩ | ⟨hk₁, hold₁⟩
      · rcases relay_insert_cases h₂ with ⟨rfl, -⟩ | ⟨hk₂, hold₂⟩
        · exact absurd rfl hne
        · exact (hkeep k₂ r₂ hold₂ hk₂).2
      · rcases relay_insert_cases h₂ with ⟨-, rfl⟩ | ⟨-, hold₂⟩
        · exact (hkeep k₁ r₁ hold₁ hk₁).2.symm
        · exact hinv.apart k₁ k₂ r₁ r₂ hold₁ hold₂ hne
  · rw [held, held, add_assoc, relayTxs_insert hkeep, ← add_assoc]
    show (contents h' m.pool.txQueue : Multiset (Option T)) + _ + _ = _
    rw [hqueue.2]

end SetRelay

/-! ### The operations and the invariant -/

/-- **One more in the queue.** -/
theorem PoolInv.pushQueue (hinv : PoolInv m) (tx : Option T) :
    PoolInv (pushQueue g m tx) ∧ held (Core.pushQueue g m tx) = held m + {tx} := by
  obtain ⟨hq, hcontents⟩ := append_contents g none hinv.queue [tx]
  obtain ⟨hinv', hheld⟩ := hinv.setQueue hq fun k r hr =>
    ⟨append_frame g none hinv.queue (hinv.relay k r hr).1
        ((hinv.relay k r hr).2.clear (hinv.relay k r hr).1),
      append_apart g none (hinv.relay k r hr).1 fun _ => (hinv.relay k r hr).2⟩
  refine ⟨hinv', hheld.trans ?_⟩
  rw [hcontents, held, ← Multiset.coe_add, Multiset.coe_singleton]
  abel

/-- **One more in a relay list.** -/
theorem PoolInv.pushRelay (hinv : PoolInv m) (k : UInt64) (tx : Option T) :
    PoolInv (pushRelay g k m tx) ∧ held (Core.pushRelay g k m tx) = held m + {tx} := by
  obtain ⟨hvalid, hapart⟩ := hinv.relayList k
  obtain ⟨hs, hcontents⟩ := append_contents g none hvalid [tx]
  obtain ⟨hinv', hheld⟩ := PoolInv.setRelay
    (append_frame g none hvalid hinv.queue (hapart.symm.clear hinv.queue))
    (fun k' r hr hne =>
      ⟨append_frame g none hvalid (hinv.relay k' r hr).1
          ((hinv.relayList_apart hr hne).clear (hinv.relay k' r hr).1),
        append_apart g none (hinv.relay k' r hr).1 fun _ => hinv.relayList_apart hr hne⟩)
    hinv ⟨hs, (append_apart g none hinv.queue fun _ => hapart.symm).symm⟩
  refine ⟨hinv', ?_⟩
  rw [hcontents, ← Multiset.coe_add, Multiset.coe_singleton, ← add_assoc, add_right_comm] at hheld
  exact add_right_cancel hheld

/-- A list in front of the queue, if an append in place stays away from the relay lists. -/
theorem PoolInv.addTxs2PoolHead (hinv : PoolInv m) {txs : Slice} (hv : Valid m.heap txs)
    (hroom : txs.len + m.pool.txQueue.len ≤ txs.cap →
      ∀ k r, m.relay.lookup k = some r → Apart txs r) :
    PoolInv (addTxs2PoolHead g m txs) ∧ held (Core.addTxs2PoolHead g m txs) =
      held m + (contents m.heap txs : Multiset (Option T)) := by
  obtain ⟨hq, hcontents⟩ := append_contents g none hv (contents m.heap m.pool.txQueue)
  have hlen := hinv.queue.length_contents
  obtain ⟨hinv', hheld⟩ := hinv.setQueue hq fun k r hr =>
    ⟨append_frame g none hv (hinv.relay k r hr).1 fun hle =>
        (hroom (hlen ▸ hle) k r hr).clear (hinv.relay k r hr).1 hle,
      append_apart g none (hinv.relay k r hr).1 fun hle => hroom (hlen ▸ hle) k r hr⟩
  refine ⟨hinv', hheld.trans ?_⟩
  rw [hcontents, held, ← Multiset.coe_add]
  abel

theorem PoolInv.packTxs (hinv : PoolInv m) (maxTxs : UInt64) :
    PoolInv (packTxs m maxTxs).1 ∧
      held (Core.packTxs m maxTxs).1 + (contents m.heap (Core.packTxs m maxTxs).2 :
        Multiset (Option T)) = held m := by
  have hle : min maxTxs.toNat m.pool.txQueue.len ≤ m.pool.txQueue.len := min_le_right _ _
  have hcap := hinv.queue.len_le
  obtain ⟨hinv', hheld⟩ := hinv.setQueue (hinv.queue.rest hle) fun k r hr =>
    ⟨⟨(hinv.relay k r hr).1, rfl⟩, (hinv.relay k r hr).2.rest _ (hle.trans hcap)⟩
  refine ⟨hinv', ?_⟩
  show held ⟨m.heap, { m.pool with txQueue := m.pool.txQueue.rest _ }⟩ +
    (contents m.heap (m.pool.txQueue.front _) : Multiset (Option T)) = _
  rw [hheld, held, ← front_append_rest m.heap hle, ← Multiset.coe_add]
  abel

theorem PoolInv.packRelayTxs (hinv : PoolInv m) (shardID minRelaySize maxRelaySize : UInt64) :
    PoolInv (packRelayTxs m shardID minRelaySize maxRelaySize).1 ∧
      held (Core.packRelayTxs m shardID minRelaySize maxRelaySize).1 +
          (contents m.heap (Core.packRelayTxs m shardID minRelaySize maxRelaySize).2.1 :
            Multiset (Option T)) =
        held m := by
  rw [Core.packRelayTxs]
  cases hlist : m.relay.lookup shardID with
  | none => exact ⟨hinv, by simp⟩
  | some list =>
    simp only
    split_ifs
    · exact ⟨hinv, by simp⟩
    · obtain ⟨hvalid, hapart⟩ := hinv.relay shardID list hlist
      have hle : min maxRelaySize.toNat list.len ≤ list.len := min_le_right _ _
      have hcap := hle.trans hvalid.len_le
      obtain ⟨hinv', hheld⟩ := PoolInv.setRelay ⟨hinv.queue, rfl⟩
        (fun k' r hr hne => ⟨⟨(hinv.relay k' r hr).1, rfl⟩,
          (hinv.apart shardID k' list r hlist hr (Ne.symm hne)).rest _ hcap⟩)
        hinv ⟨hvalid.rest hle, (hapart.symm.rest _ hcap).symm⟩
      refine ⟨hinv', ?_⟩
      have hold : m.relayList shardID = list := by rw [PoolMem.relayList, hlist]; rfl
      -- what is returned and what is left of the list make up the list
      rw [hold, ← front_append_rest m.heap hle, ← Multiset.coe_add, ← add_assoc] at hheld
      exact add_right_cancel hheld

theorem PoolInv.clearRelayPool (hinv : PoolInv m) :
    PoolInv (clearRelayPool m) ∧ held (Core.clearRelayPool m) + relayTxs m = held m := by
  refine ⟨⟨hinv.queue, fun k r hr => ?_, fun k k' r r' hr => ?_⟩, ?_⟩
  · cases hr
  · cases hr
  · rw [held, held]
    show (contents m.heap m.pool.txQueue : Multiset (Option T)) + 0 + _ = _
    rw [add_zero]

/-- **The loop of `AddTxs2Pool`** over a slice without nil pointers, into which the spare capacity
of the queue does not reach. -/
theorem PoolInv.addTxsLoop {txs : Slice} {n i : ℕ} (hinv : PoolInv m)
    (hv : Valid m.heap (txs.rest i)) (hnil : none ∉ contents m.heap (txs.rest i))
    (hst : ¬ Straddles m.pool.txQueue (txs.rest i)) (hn : i + n = txs.len) :
    ∃ m', addTxsLoop g txs n i m = some m' ∧ PoolInv m' ∧
      held m' = held m + (contents m.heap (txs.rest i) : Multiset (Option T)) := by
  induction n generalizing i m with
  | zero =>
    refine ⟨m, rfl, hinv, ?_⟩
    have hlen : (contents m.heap (txs.rest i)).length = txs.len - i := hv.length_contents
    rw [List.eq_nil_of_length_eq_zero (l := contents m.heap (txs.rest i)) (by omega)]
    simp
  | succ n ih =>
    -- the next element and the rest of the slice
    obtain ⟨tx, hcons⟩ : ∃ tx, contents m.heap (txs.rest i) =
        some tx :: contents m.heap (txs.rest (i + 1)) := by
      have hlen : (contents m.heap (txs.rest i)).length = txs.len - i := hv.length_contents
      rw [contents_rest] at hlen hnil ⊢
      have hlt : i < (contents m.heap txs).length := by
        rw [List.length_drop] at hlen
        omega
      rw [List.drop_eq_getElem_cons hlt] at hnil ⊢
      obtain ⟨tx, htx⟩ := Option.ne_none_iff_exists'.mp
        (fun hnone => hnil (hnone ▸ List.mem_cons_self))
      exact ⟨tx, by rw [htx, contents_rest]⟩
    have hget : (contents m.heap txs)[i]? = some (some tx) := by
      rw [contents_rest] at hcons
      rw [← Nat.add_zero i, ← List.getElem?_drop, hcons, List.getElem?_cons_zero]
    have hrest := txs.rest_rest i 1
    have hpos : 1 ≤ (txs.rest i).len := show 1 ≤ txs.len - i by omega
    obtain ⟨hinv₁, hheld₁⟩ := hinv.pushQueue (g := g) (some tx)
    -- the append does not reach into what is still to be read
    obtain ⟨hv', hsame⟩ : Valid (Core.pushQueue g m (some tx)).heap (txs.rest (i + 1)) ∧
        contents (Core.pushQueue g m (some tx)).heap (txs.rest (i + 1)) =
          contents m.heap (txs.rest (i + 1)) :=
      append_frame g none hinv.queue (hrest ▸ hv.rest hpos)
        fun hroom => hrest ▸ clear_of_not_straddles hst hroom
    have hst' : ¬ Straddles (Core.pushQueue g m (some tx)).pool.txQueue (txs.rest (i + 1)) :=
      hrest ▸ append_not_straddles g none hv hst (some tx)
    rw [hcons, List.mem_cons, not_or] at hnil
    obtain ⟨m', hloop, hinv', hheld'⟩ :=
      ih hinv₁ hv' (hsame.symm ▸ hnil.2) hst' (show i + 1 + n = txs.len by omega)
    refine ⟨m', ?_, hinv', ?_⟩
    · rw [Core.addTxsLoop, hget]
      exact hloop
    · rw [hheld', hheld₁, hsame, hcons, add_assoc]
      rfl

/-- A loop of `TransferTxs`, for a way to push that keeps the invariant. -/
theorem transferLoop_held {sender : T → Address} {addr : Address}
    {push : PoolMem T → Option T → PoolMem T}
    (hpush : ∀ m tx, PoolInv m → PoolInv (push m tx) ∧ held (push m tx) = held m + {tx})
    {txs txTransfered : List (Option T)} (hinv : PoolInv m) (hnil : none ∉ txs) :
    ∃ m' out, transferLoop sender addr push txs (m, txTransfered) = some (m', out) ∧ PoolInv m' ∧
      held m' + (out : Multiset (Option T)) =
        held m + (txTransfered : Multiset (Option T)) + (txs : Multiset (Option T)) := by
  induction txs generalizing m txTransfered with
  | nil => exact ⟨m, txTransfered, rfl, hinv, by simp⟩
  | cons tx txs ih =>
    rw [List.mem_cons, not_or] at hnil
    obtain ⟨hne, hrest⟩ := hnil
    cases tx with
    | none => exact absurd rfl hne
    | some tx =>
      rw [transferLoop]
      split_ifs with hsender
      · obtain ⟨m', out, hloop, hinv', hheld⟩ :
            ∃ m' out, transferLoop sender addr push txs (m, txTransfered ++ [some tx]) =
              some (m', out) ∧ _ := ih hinv hrest
        refine ⟨m', out, hloop, hinv', hheld.trans ?_⟩
        rw [← Multiset.coe_add, Multiset.coe_singleton, ← Multiset.cons_coe,
          ← Multiset.singleton_add]
        abel
      · obtain ⟨hinv₁, hheld₁⟩ := hpush m (some tx) hinv
        obtain ⟨m', out, hloop, hinv', hheld⟩ := ih hinv₁ hrest
        refine ⟨m', out, hloop, hinv', hheld.trans ?_⟩
        rw [hheld₁, ← Multiset.cons_coe, ← Multiset.singleton_add]
        abel

theorem transfer_fold_held {sender : T → Address} {addr : Address}
    {lists : UInt64 → List (Option T)} {order : List UInt64} {txTransfered : List (Option T)}
    (hinv : PoolInv m) (hnil : ∀ k ∈ order, none ∉ lists k) :
    ∃ m' out, order.foldlM (fun res shardID =>
        transferLoop sender addr (pushRelay g shardID) (lists shardID) res) (m, txTransfered) =
          some (m', out) ∧
      PoolInv m' ∧
      held m' + (out : Multiset (Option T)) = held m + (txTransfered : Multiset (Option T)) +
        (order.map fun k => (lists k : Multiset (Option T))).sum := by
  induction order generalizing m txTransfered with
  | nil => exact ⟨m, txTransfered, rfl, hinv, by simp⟩
  | cons k order ih =>
    rw [List.forall_mem_cons] at hnil
    obtain ⟨m₁, out₁, hloop, hinv₁, hheld₁⟩ :=
      transferLoop_held (fun _ tx h => h.pushRelay (g := g) k tx) hinv hnil.1
    obtain ⟨m', out, hfold, hinv', hheld⟩ := ih hinv₁ hnil.2
    refine ⟨m', out, ?_, hinv', hheld.trans ?_⟩
    · rw [List.foldlM_cons, hloop]
      exact hfold
    · rw [hheld₁, List.map_cons, List.sum_cons, add_assoc]

theorem poolInv_newTxPool (h : Heap (Option T)) : PoolInv (⟨h, newTxPool⟩ : PoolMem T) := by
  refine ⟨valid_nil h, fun k r hr => ?_, fun k k' r r' hr => ?_⟩
  · cases hr
  · cases hr

theorem held_newTxPool (h : Heap (Option T)) : held (⟨h, newTxPool⟩ : PoolMem T) = 0 := rfl

/-- **`TransferTxs`** returns or keeps every transaction. -/
theorem transferTxs_held (hnil : none ∉ held m) (sender : T → Address) (addr : Address)
    {order : List UInt64} (hnodup : order.Nodup) (hkeys : order.toFinset = m.relay.keys) :
    ∃ m' out, transferTxs g sender m addr order = some (m', out) ∧ PoolInv m' ∧
      held m' + (out : Multiset (Option T)) = held m := by
  rw [held, Multiset.mem_add, not_or, relayTxs, ← hkeys, Multiset.mem_sum] at hnil
  obtain ⟨m₁, out₁, hloop, hinv₁, hheld₁⟩ :=
    transferLoop_held (fun _ tx h => h.pushQueue (g := g) tx) (poolInv_newTxPool m.heap) hnil.1
  obtain ⟨m', out, hfold, hinv', hheld⟩ := transfer_fold_held (g := g) hinv₁
    fun k hk hmem => hnil.2 ⟨k, List.mem_toFinset.mpr hk, hmem⟩
  refine ⟨m', out, ?_, hinv', hheld.trans ?_⟩
  · rw [transferTxs, hloop]
    exact hfold
  · rw [hheld₁, held_newTxPool, held, relayTxs, ← hkeys, List.sum_toFinset _ hnodup]
    simp

/-! ### Runs -/

/-- A pool in use, with the transactions added to it, returned from it and dropped so far. -/
structure PoolRun (T : Type) where
  mem : PoolMem T
  added : Multiset (Option T)
  returned : Multiset (Option T)
  dropped : Multiset (Option T)

def PoolRun.start : PoolRun T := ⟨⟨[], newTxPool⟩, 0, 0, 0⟩

inductive PoolOp (T : Type) where
  | addTx2Pool (tx : Option T)
  | addTxs2Pool (txs : Slice)
  | addTxs2PoolHead (tx : Slice)
  | packTxs (maxTxs : UInt64)
  | addRelayTx (tx : Option T) (shardID : UInt64)
  | packRelayTxs (shardID minRelaySize maxRelaySize : UInt64)
  | transferTxs (addr : Address) (order : List UInt64)
  | clearRelayPool
  /-- The caller makes an array, for slices to call the pool with. -/
  | alloc (txs : List (Option T))

variable (g) in
/-- One call; `none` is a panic. -/
def poolStep (sender : T → Address) (s : PoolRun T) : PoolOp T → Option (PoolRun T)
  | .addTx2Pool tx => (addTx2Pool g s.mem tx).map fun m =>
      { s with mem := m, added := s.added + {tx} }
  | .addTxs2Pool txs => (addTxs2Pool g s.mem txs).map fun m =>
      { s with mem := m, added := s.added + contents s.mem.heap txs }
  | .addTxs2PoolHead tx => some { s with
      mem := addTxs2PoolHead g s.mem tx, added := s.added + contents s.mem.heap tx }
  | .packTxs maxTxs => some { s with
      mem := (packTxs s.mem maxTxs).1
      returned := s.returned + contents s.mem.heap (packTxs s.mem maxTxs).2 }
  | .addRelayTx tx shardID => (addRelayTx g s.mem tx shardID).map fun m =>
      { s with mem := m, added := s.added + {tx} }
  | .packRelayTxs shardID minRelaySize maxRelaySize => some { s with
      mem := (packRelayTxs s.mem shardID minRelaySize maxRelaySize).1
      returned := s.returned +
        contents s.mem.heap (packRelayTxs s.mem shardID minRelaySize maxRelaySize).2.1 }
  | .transferTxs addr order => (transferTxs g sender s.mem addr order).map fun res =>
      { s with mem := res.1, returned := s.returned + res.2 }
  | .clearRelayPool => some { s with
      mem := clearRelayPool s.mem, dropped := s.dropped + relayTxs s.mem }
  | .alloc txs => some { s with mem := ⟨s.mem.heap ++ [txs], s.mem.pool⟩ }

/-- What the language guarantees of a call: slices lie in their arrays, and the entries of a map are
visited once each. -/
def Possible (s : PoolRun T) : PoolOp T → Prop
  | .addTxs2Pool txs => Valid s.mem.heap txs
  | .addTxs2PoolHead tx => Valid s.mem.heap tx
  | .transferTxs _ order => order.Nodup ∧ order.toFinset = s.mem.relay.keys
  | _ => True

def PoolMem.ApartFromRelay (m : PoolMem T) (tx : Slice) : Prop :=
  ∀ k ∈ m.relay.keys, Apart tx (m.relayList k)

-- over the shards with a list, not over all of them
instance (m : PoolMem T) (tx : Slice) : Decidable (m.ApartFromRelay tx) :=
  Finset.decidableDforallFinset

/-- No nil pointer is used, a cleared relay pool is not added to, the queue does not write into the
slice that it is filled from, and a slice put in front of the queue has room for it only where no
relay list lies. -/
def Safe (s : PoolRun T) : PoolOp T → Prop
  | .addTx2Pool tx => tx.isSome
  | .addTxs2Pool txs => none ∉ contents s.mem.heap txs ∧ ¬ Straddles s.mem.pool.txQueue txs
  | .addTxs2PoolHead tx => tx.len + s.mem.pool.txQueue.len ≤ tx.cap → s.mem.ApartFromRelay tx
  | .addRelayTx _ _ => s.mem.pool.relayPool.isSome
  | .transferTxs _ _ => none ∉ held s.mem
  | _ => True

instance (s : PoolRun T) : (op : PoolOp T) → Decidable (Possible s op)
  | .addTxs2Pool _ | .addTxs2PoolHead _ => inferInstanceAs (Decidable (Valid _ _))
  | .transferTxs _ _ => inferInstanceAs (Decidable (_ ∧ _))
  | .addTx2Pool _ | .packTxs _ | .addRelayTx _ _ | .packRelayTxs _ _ _ | .clearRelayPool
  | .alloc _ => inferInstanceAs (Decidable True)

instance [DecidableEq T] (s : PoolRun T) : (op : PoolOp T) → Decidable (Safe s op)
  | .addTx2Pool _ | .addRelayTx _ _ => inferInstanceAs (Decidable (_ = true))
  | .addTxs2Pool _ => inferInstanceAs (Decidable (_ ∧ ¬ _))
  | .addTxs2PoolHead _ => inferInstanceAs (Decidable (_ → _))
  | .transferTxs _ _ => inferInstanceAs (Decidable (¬ _))
  | .packTxs _ | .packRelayTxs _ _ _ | .clearRelayPool | .alloc _ =>
    inferInstanceAs (Decidable True)

structure Accounts (s : PoolRun T) : Prop where
  inv : PoolInv s.mem
  balance : s.added = s.returned + s.dropped + held s.mem

section Steps

variable {s : PoolRun T} {m' : PoolMem T} {txs : Multiset (Option T)}

theorem Accounts.add (hs : Accounts s) (hinv : PoolInv m') (hheld : held m' = held s.mem + txs) :
    Accounts { s with mem := m', added := s.added + txs } := by
  refine ⟨hinv, ?_⟩
  show s.added + txs = s.returned + s.dropped + held m'
  rw [hs.balance, hheld, add_assoc]

theorem Accounts.give (hs : Accounts s) (hinv : PoolInv m') (hheld : held m' + txs = held s.mem) :
    Accounts { s with mem := m', returned := s.returned + txs } := by
  refine ⟨hinv, ?_⟩
  show s.added = s.returned + txs + s.dropped + held m'
  rw [hs.balance, ← hheld]
  abel

theorem Accounts.drop (hs : Accounts s) (hinv : PoolInv m') (hheld : held m' + txs = held s.mem) :
    Accounts { s with mem := m', dropped := s.dropped + txs } := by
  refine ⟨hinv, ?_⟩
  show s.added = s.returned + (s.dropped + txs) + held m'
  rw [hs.balance, ← hheld]
  abel

theorem PoolInv.alloc (hinv : PoolInv m) (txs : List (Option T)) :
    PoolInv (⟨m.heap ++ [txs], m.pool⟩ : PoolMem T) ∧
      held (⟨m.heap ++ [txs], m.pool⟩ : PoolMem T) = held m := by
  obtain ⟨hq, hcontents⟩ := alloc_frame hinv.queue txs
  obtain ⟨hinv', hheld⟩ := hinv.setQueue hq fun k r hr =>
    ⟨alloc_frame (hinv.relay k r hr).1 txs, (hinv.relay k r hr).2⟩
  exact ⟨hinv', hheld.trans (by rw [hcontents, held])⟩

/-- **One call** returns and keeps the accounts. -/
theorem Accounts.step (hs : Accounts s) {op : PoolOp T} (hpossible : Possible s op)
    (hsafe : Safe s op) (sender : T → Address) :
    ∃ s', poolStep g sender s op = some s' ∧ Accounts s' := by
  cases op with
  | addTx2Pool tx =>
    obtain ⟨hinv, hheld⟩ := hs.inv.pushQueue (g := g) tx
    have hsome : tx.isSome := hsafe
    refine ⟨_, ?_, hs.add hinv hheld⟩
    rw [poolStep, addTx2Pool, if_pos hsome]
    rfl
  | addTxs2Pool txs =>
    obtain ⟨hnil, hst⟩ := hsafe
    obtain ⟨m', hloop, hinv, hheld⟩ :=
      hs.inv.addTxsLoop (g := g) (i := 0) hpossible hnil hst (Nat.zero_add txs.len)
    refine ⟨_, ?_, hs.add hinv hheld⟩
    rw [poolStep, addTxs2Pool, hloop]
    rfl
  | addTxs2PoolHead tx =>
    obtain ⟨hinv, hheld⟩ := hs.inv.addTxs2PoolHead (g := g) hpossible fun hroom k r hr => by
      have hlist : s.mem.relayList k = r := by rw [PoolMem.relayList, hr]; rfl
      exact hlist ▸ hsafe hroom k (Finmap.mem_keys.mpr (Finmap.mem_iff.mpr ⟨r, hr⟩))
    exact ⟨_, rfl, hs.add hinv hheld⟩
  | packTxs maxTxs =>
    obtain ⟨hinv, hheld⟩ := hs.inv.packTxs maxTxs
    exact ⟨_, rfl, hs.give hinv hheld⟩
  | addRelayTx tx shardID =>
    obtain ⟨hinv, hheld⟩ := hs.inv.pushRelay (g := g) shardID tx
    have hsome : s.mem.pool.relayPool.isSome := hsafe
    refine ⟨_, ?_, hs.add hinv hheld⟩
    rw [poolStep, addRelayTx, if_pos hsome]
    rfl
  | packRelayTxs shardID minRelaySize maxRelaySize =>
    obtain ⟨hinv, hheld⟩ := hs.inv.packRelayTxs shardID minRelaySize maxRelaySize
    exact ⟨_, rfl, hs.give hinv hheld⟩
  | transferTxs addr order =>
    obtain ⟨m', out, htransfer, hinv, hheld⟩ :=
      transferTxs_held (g := g) hsafe sender addr hpossible.1 hpossible.2
    refine ⟨_, ?_, hs.give hinv hheld⟩
    rw [poolStep, htransfer]
    rfl
  | clearRelayPool =>
    obtain ⟨hinv, hheld⟩ := hs.inv.clearRelayPool
    exact ⟨_, rfl, hs.drop hinv hheld⟩
  | alloc txs =>
    obtain ⟨hinv, hheld⟩ := hs.inv.alloc txs
    refine ⟨_, rfl, hinv, ?_⟩
    rw [hheld]
    exact hs.balance

end Steps

/-- **The pool accounts for every transaction**, in every run of calls that are `Safe`, and none of
them panics. -/
theorem pool_accounts (g : Growth) (sender : T → Address) {s : PoolRun T}
    (hreach : Reach (poolStep g sender) (fun s op => Possible s op ∧ Safe s op)
      (· = PoolRun.start) s) :
    s.added = s.returned + s.dropped + held s.mem ∧
      ∀ op, Possible s op → Safe s op → (poolStep g sender s op).isSome := by
  have hs : Accounts s := by
    refine hreach.invariant ?_ ?_
    · intro s hstart
      rw [hstart]
      exact ⟨poolInv_newTxPool [], rfl⟩
    · intro s s' op _ hs hguard hstep
      obtain ⟨s'', hstep', hs''⟩ := hs.step hguard.1 hguard.2 sender
      exact Option.some.inj (hstep'.symm.trans hstep) ▸ hs''
  refine ⟨hs.balance, fun op hpossible hsafe => ?_⟩
  obtain ⟨s', hstep, -⟩ := hs.step hpossible hsafe sender
  rw [hstep]
  rfl

/-- Capacities that double, as for small slices. -/
def doubling : Growth := ⟨fun old need => max need (2 * old), fun _ _ => le_max_left _ _⟩

/-- Eight calls: a transaction is packed, put back in front and packed again, and one of the two
relayed ones is handed out. -/
theorem pool_accounts_eight : ∃ s : PoolRun ℕ,
    Reach (poolStep doubling fun _ => "") (fun s op => Possible s op ∧ Safe s op)
      (· = PoolRun.start) s ∧
    (s.added = {some 1, some 2, some 3, some 4, some 1} ∧ s.returned = {some 1, some 3, some 1}) ∧
    s.added = s.returned + s.dropped + held s.mem := by
  obtain ⟨s, hreach, hs⟩ := exists_reach_of_run
    [.addTx2Pool (some 1), .addTx2Pool (some 2), .addRelayTx (some 3) 5, .addRelayTx (some 4) 5,
      .packTxs 1, .addTxs2PoolHead ⟨1, 0, 1, 2⟩, .packRelayTxs 5 0 1, .packTxs 1]
    (fun s : PoolRun ℕ => s.added = {some 1, some 2, some 3, some 4, some 1} ∧
      s.returned = {some 1, some 3, some 1})
    (.start rfl : Reach (poolStep doubling fun _ => "") (fun s op => Possible s op ∧ Safe s op)
      (· = PoolRun.start) PoolRun.start) (by decide +kernel)
  exact ⟨s, hreach, hs, (pool_accounts doubling (fun _ => "") hreach).1⟩

/-- **A cleared relay pool cannot be added to**, and a slice handed out by `PackRelayTxs` and put in
front of the queue has the queue written over the rest of the relay list. -/
theorem pool_accounts_overwrite :
    (∃ s : PoolRun ℕ, Reach (poolStep doubling fun _ => "") Possible (· = PoolRun.start) s ∧
      poolStep doubling (fun _ => "") s (.addRelayTx (some 1) 0) = none) ∧
    ∃ s : PoolRun ℕ, Reach (poolStep doubling fun _ => "") Possible (· = PoolRun.start) s ∧
      s.added = {some 1, some 2, some 3, some 1} ∧ s.returned = {some 1} ∧ s.dropped = 0 ∧
      held s.mem = {some 1, some 3, some 3} := by
  constructor
  · exact exists_reach_of_run [.clearRelayPool]
      (fun s : PoolRun ℕ => poolStep doubling (fun _ => "") s (.addRelayTx (some 1) 0) = none)
      (.start rfl) (by decide +kernel)
  · exact exists_reach_of_run
      [.addRelayTx (some 1) 7, .addRelayTx (some 2) 7, .addTx2Pool (some 3), .packRelayTxs 7 0 1,
        .addTxs2PoolHead ⟨1, 0, 1, 2⟩]
      (fun s : PoolRun ℕ => s.added = {some 1, some 2, some 3, some 1} ∧ s.returned = {some 1} ∧
        s.dropped = 0 ∧ held s.mem = {some 1, some 3, some 3})
      (.start rfl) (by decide +kernel)

end Aster.Core
