import Aster.SubMPT.Commits

/-!
# The signs of balances

Followers execute batches and hand accounts to each other: a follower answers a request with the
states of some accounts, and the answer is written into the trie of another follower.

`ProcessTxs` tests a debit against the balance before it takes it, but a credit is added without a
test, and a credit of a negative value takes money away.  As long as no value is negative, every
stored balance and every balance in a message stays at least zero.
-/

namespace Aster.SubMPT

open Aster.Core Aster.Lib.Transition

structure Followers where
  nodes : ℕ → FollowerNode
  /-- The accounts of the `F_ResponseData` and `P_AllocateData` messages on their way. -/
  inFlight : List AccountData

inductive FollowerMove where
  | process (i : ℕ) (clk : Clock) (txs : List TimedTx)
  | request (i : ℕ) (keys : List Address)
  | allocate (i k : ℕ)

def Followers.setState (s : Followers) (i : ℕ) (st : Trie) : Followers :=
  { s with nodes := Function.update s.nodes i { s.nodes i with state := st } }

def followerStep (s : Followers) : FollowerMove → Option Followers
  | .process i clk txs => do
    let (f, _, _) ← processTxsCommit clk (s.nodes i) txs
    some (s.setState i f.state)
  | .request i keys =>
    some { s with inFlight := s.inFlight ++ [handleProposerRequest (s.nodes i).state keys] }
  | .allocate i k => do
    let data ← s.inFlight[k]?
    let st ← allocateDataCommit (s.nodes i).state data
    some { s.setState i st with inFlight := s.inFlight.eraseIdx k }

/-- The followers start with empty tries. -/
structure NoAccounts (s : Followers) : Prop where
  state : ∀ i, (s.nodes i).state = ∅
  inFlight : s.inFlight = []

/-- No transaction of a batch has a negative value. -/
def NoNegativeValue (_ : Followers) : FollowerMove → Prop
  | .process _ _ txs => ∀ t ∈ txs, 0 ≤ t.tx.value
  | .request _ _ => True
  | .allocate _ _ => True

instance (s : Followers) : (l : FollowerMove) → Decidable (NoNegativeValue s l)
  | .process _ _ txs => inferInstanceAs (Decidable (∀ t ∈ txs, 0 ≤ t.tx.value))
  | .request _ _ => inferInstanceAs (Decidable True)
  | .allocate _ _ => inferInstanceAs (Decidable True)

/-! ### One trie -/

/-- No stored balance is negative. -/
def Solvent (st : Trie) : Prop := ∀ a s, st.lookup a = some s → 0 ≤ s.balance

theorem solvent_empty : Solvent ∅ := by
  intro a s h
  cases h

theorem Solvent.insert {st : Trie} (h : Solvent st) (a : Address) {s : AccountState}
    (hs : 0 ≤ s.balance) : Solvent (st.insert a s) := by
  intro b s' hb
  by_cases heq : b = a
  · rw [heq, Finmap.lookup_insert] at hb
    cases hb
    exact hs
  · rw [Finmap.lookup_insert_of_ne st heq] at hb
    exact h b s' hb

/-- The balance that the executors read is not negative either. -/
theorem Solvent.balance_nonneg {st : Trie} (h : Solvent st) (a : Address) : 0 ≤ balanceOf st a := by
  unfold balanceOf
  cases hl : st.lookup a with
  | none => exact (by decide : 0 ≤ initBalance)
  | some s => exact h a s hl

theorem Solvent.debitSender {st st' : Trie} (h : Solvent st) {i : ℕ} {tx : Transaction}
    (hd : debitSender st i tx = some st') : Solvent st' := by
  unfold SubMPT.debitSender at hd
  dsimp only at hd
  split_ifs at hd with hlt
  cases hd
  apply h.insert
  rw [AccountState.deduct, if_neg hlt]
  show 0 ≤ (fetch st tx.sender i).balance - tx.value
  omega

theorem Solvent.creditRecipient {st : Trie} (h : Solvent st) (i : ℕ) {tx : Transaction}
    (hval : 0 ≤ tx.value) : Solvent (creditRecipient st i tx) := by
  apply h.insert
  show 0 ≤ (fetch st tx.recipient i).balance + tx.value
  rw [fetch_balance]
  have hb := h.balance_nonneg tx.recipient
  omega

/-- One iteration of `ProcessTxs` on a value that is not negative. -/
theorem Solvent.processTx {st st' : Trie} (h : Solvent st) {f : FollowerNode} {i : ℕ}
    {tx : Transaction} {executed : Bool} (hval : 0 ≤ tx.value)
    (hp : processTx f i st tx = some (st', executed)) : Solvent st' := by
  unfold SubMPT.processTx at hp
  cases hpre : prefixes tx with
  | outOfRange =>
    rw [hpre] at hp
    cases hp
  | syntaxError =>
    rw [hpre] at hp
    cases hp
    exact h
  | digits dec1 dec2 =>
    simp only [hpre] at hp
    by_cases hnum : f.followerNum = 0
    · rw [if_pos hnum] at hp
      cases hp
    rw [if_neg hnum] at hp
    -- the trie that the sender's half leaves, when it does not skip the transaction
    cases hdebit : if dec1 % f.followerNum = f.followerID then SubMPT.debitSender st i tx
        else some st with
    | none =>
      rw [hdebit] at hp
      cases hp
      exact h
    | some st₁ =>
      have h₁ : Solvent st₁ := by
        split_ifs at hdebit
        · exact h.debitSender hdebit
        · cases hdebit
          exact h
      rw [hdebit] at hp
      simp only [Option.some.injEq, Prod.mk.injEq] at hp
      rw [← hp.1]
      split_ifs
      · exact h₁.creditRecipient i hval
      · exact h₁

theorem Solvent.processLoop {clk : Clock} {f : FollowerNode} {ts : List TimedTx} {i : ℕ}
    {st st' : Trie} {txHashs : List Hash} {out : List TimedTx} (h : Solvent st)
    (hval : ∀ t ∈ ts, 0 ≤ t.tx.value)
    (hp : processLoop clk f i st ts = some (st', txHashs, out)) : Solvent st' := by
  induction ts generalizing i st st' txHashs out with
  | nil =>
    cases hp
    exact h
  | cons t ts ih =>
    rw [SubMPT.processLoop] at hp
    obtain ⟨⟨st₁, executed⟩, hstep, hp⟩ := Option.bind_eq_some_iff.mp hp
    obtain ⟨⟨st₂, hs, out'⟩, hloop, hp⟩ := Option.bind_eq_some_iff.mp hp
    have h₂ := ih (h.processTx (hval t List.mem_cons_self) hstep)
      (fun u hu => hval u (List.mem_cons_of_mem t hu)) hloop
    cases executed with
    | false =>
      cases hp
      exact h₂
    | true =>
      cases hp
      exact h₂

theorem Solvent.processTxs {clk : Clock} {f f' : FollowerNode} {ts out : List TimedTx}
    {txHashs : List Hash} (h : Solvent f.state) (hval : ∀ t ∈ ts, 0 ≤ t.tx.value)
    (hp : processTxs clk f ts = some (f', txHashs, out)) : Solvent f'.state := by
  unfold SubMPT.processTxs at hp
  split_ifs at hp with hts
  · cases hp
    exact h
  · obtain ⟨⟨st, hs, out'⟩, hloop, hp⟩ := Option.bind_eq_some_iff.mp hp
    cases hp
    refine h.processLoop ?_ hloop
    intro t ht
    obtain ⟨u, hu, hut⟩ := List.mem_map.mp (mapIdx_stamp_tx clk ts ▸ List.mem_map_of_mem ht)
    rw [← hut]
    exact hval u hu

/-! ### Accounts in messages -/

/-- No account of the message has a negative balance. -/
def SolventData (data : AccountData) : Prop := ∀ e ∈ data, 0 ≤ e.2.balance

theorem Solvent.request {st : Trie} (h : Solvent st) (keys : List Address) :
    SolventData (handleProposerRequest st keys) := by
  intro e he
  obtain ⟨key, -, rfl⟩ := List.mem_map.mp he
  show 0 ≤ (fetch st key 0).balance
  rw [fetch_balance]
  exact h.balance_nonneg key

theorem Solvent.allocateData {st : Trie} (h : Solvent st) {data : AccountData}
    (hdata : SolventData data) : Solvent (handleProposerAllocateData st data) := by
  induction data generalizing st with
  | nil => exact h
  | cons e data ih =>
    exact ih (h.insert e.1 (hdata e List.mem_cons_self))
      fun e' he' => hdata e' (List.mem_cons_of_mem e he')

/-! ### Runs -/

structure AllSolvent (s : Followers) : Prop where
  state : ∀ i, Solvent (s.nodes i).state
  inFlight : ∀ data ∈ s.inFlight, SolventData data

theorem AllSolvent.setState {s : Followers} (h : AllSolvent s) (i : ℕ) {st : Trie}
    (hst : Solvent st) : AllSolvent (s.setState i st) where
  state := by
    refine (Function.forall_update_iff s.nodes fun _ n => Solvent n.state).mpr ⟨hst, ?_⟩
    exact fun j _ => h.state j
  inFlight := h.inFlight

theorem allSolvent_step {s s' : Followers} {l : FollowerMove} (h : AllSolvent s)
    (hg : NoNegativeValue s l) (hs : followerStep s l = some s') : AllSolvent s' := by
  cases l with
  | process i clk txs =>
    obtain ⟨⟨f, txHashs, out⟩, hproc, hs⟩ := Option.bind_eq_some_iff.mp hs
    cases hs
    exact h.setState i ((h.state i).processTxs hg (processTxs_of_commit hproc))
  | request i keys =>
    cases hs
    refine ⟨h.state, ?_⟩
    intro data hdata
    rcases List.mem_append.mp hdata with hdata | hdata
    · exact h.inFlight data hdata
    · rw [List.mem_singleton.mp hdata]
      exact (h.state i).request keys
  | allocate i k =>
    obtain ⟨data, hdata, hs⟩ := Option.bind_eq_some_iff.mp hs
    obtain ⟨st, hcommit, hs⟩ := Option.bind_eq_some_iff.mp hs
    cases hs
    have hst : Solvent st := by
      rw [allocateDataCommit_eq hcommit]
      exact (h.state i).allocateData (h.inFlight data (List.mem_of_getElem? hdata))
    refine ⟨(h.setState i hst).state, ?_⟩
    exact fun d hd => h.inFlight d (List.mem_of_mem_eraseIdx hd)

/-- **Balances stay non-negative** in every run in which no executed batch has a negative value,
with accounts handed over between the followers at any time. -/
theorem balances_nonneg {s : Followers} (h : Reach followerStep NoNegativeValue NoAccounts s)
    (i : ℕ) (a : Address) (as : AccountState) (has : (s.nodes i).state.lookup a = some as) :
    0 ≤ as.balance := by
  have hi : AllSolvent s := by
    refine h.invariant ?_ fun s s' l _ hi hg hs => allSolvent_step hi hg hs
    intro s hs
    refine ⟨fun i => ?_, ?_⟩
    · rw [hs.state i]
      exact solvent_empty
    · rw [hs.inFlight]
      exact fun data hdata => absurd hdata List.not_mem_nil
  exact hi.state i a as has

/-- Two followers without accounts. -/
def twoFollowers : Followers := ⟨fun i => ⟨i, 2, ∅⟩, []⟩

theorem twoFollowers_start : NoAccounts twoFollowers := ⟨fun _ => rfl, rfl⟩

/-- A row of the data set with the value `value`. -/
def rowOf (value : String) : List String :=
  ["1", "2", "3", "0x1aaaaaaaaaaaaaaaa", "0x2bbbbbbbbbbbbbbbb", "x", "0", "0", value]

/-- The transaction of that row, with an empty hash. -/
def transferOf (value : ℤ) : TimedTx :=
  ⟨newTransaction (fun _ _ _ _ _ => []) "1aaaaaaaaaaaaaaaa" "2bbbbbbbbbbbbbbbb" value 0 0,
    ⟨0, 0, 0⟩⟩

theorem balances_nonneg_transfer :
    ∃ s, Reach followerStep NoNegativeValue NoAccounts s ∧
      ∃ as, (s.nodes 0).state.lookup "2bbbbbbbbbbbbbbbb" = some as ∧ 0 ≤ as.balance := by
  have hstart : Reach followerStep NoNegativeValue NoAccounts twoFollowers :=
    .start twoFollowers_start
  obtain ⟨s, hr, hs⟩ := exists_reach_of_run
    [.process 0 ⟨fun _ => 0, fun _ => 0⟩ [transferOf 5], .request 0 ["2bbbbbbbbbbbbbbbb"],
      .allocate 1 0]
    (fun s : Followers => (s.nodes 0).state.lookup "2bbbbbbbbbbbbbbbb" =
      some ⟨0, initBalance + 5⟩) hstart (by decide +kernel)
  exact ⟨s, hr, _, hs, balances_nonneg hr 0 _ _ hs⟩

/-- The batches hold transactions of the data set only. -/
def AcceptedOnly (_ : Followers) : FollowerMove → Prop
  | .process _ _ txs => ∀ t ∈ txs, Accepted t.tx
  | .request _ _ => True
  | .allocate _ _ => True

/-- A row with a negative value is accepted, and its execution leaves the recipient with less than
nothing. -/
theorem balance_negative :
    ∃ s, Reach followerStep AcceptedOnly NoAccounts s ∧
      (s.nodes 0).state.lookup "2bbbbbbbbbbbbbbbb" = some ⟨0, -1⟩ := by
  let move : FollowerMove := .process 0 ⟨fun _ => 0, fun _ => 0⟩
    [transferOf (-100000000000000000000000000000000000000000001)]
  have hrow : Accepted (transferOf (-100000000000000000000000000000000000000000001)).tx :=
    ⟨fun _ _ _ _ _ => [], rowOf "-100000000000000000000000000000000000000000001", 0, 0,
      by decide +kernel⟩
  have hguard : AcceptedOnly twoFollowers move := by
    intro t ht
    rw [List.mem_singleton.mp ht]
    exact hrow
  have hrun : (followerStep twoFollowers move).any (fun s =>
      decide ((s.nodes 0).state.lookup "2bbbbbbbbbbbbbbbb" = some ⟨0, -1⟩)) = true := by
    decide +kernel
  cases hstep : followerStep twoFollowers move with
  | none =>
    rw [hstep] at hrun
    cases hrun
  | some s =>
    rw [hstep] at hrun
    exact ⟨s, .next (.start twoFollowers_start) hguard hstep, of_decide_eq_true hrun⟩

end Aster.SubMPT
