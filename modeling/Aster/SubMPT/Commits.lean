import Aster.SubMPT.Migrator
import Aster.Core.Injection

/-!
# Followers commit their tries

`ProcessTxs` and `handleProposerAllocateData` write into an open trie and commit it at the end.
When no write has changed the trie, `Commit` returns a nil node set, on which `NewWithNodeSet`
panics; only for the empty trie there is always a node set.

`openTxs` is the loop of `ProcessTxs` on the open trie, and `processTxs` of
`Aster.SubMPT.Follower` is what it does to the map (`openTxs_eq`).  The loop rule of
`Aster.Lib.DirtyMap` turns "some write changed the trie" into a condition on the batch and the
state before it (`Touches`).
-/

namespace Aster.SubMPT

open Aster.Core Aster.Lib Aster.Lib.DirtyMap

/-! ### `ProcessTxs` on the open trie -/

/-- The sender's half. -/
def openDebit (t : OpenTrie) (i : ℕ) (tx : Transaction) : Option OpenTrie :=
  let s_state := fetch t.map tx.sender i
  if s_state.balance < tx.value then none
  else some (t.update tx.sender (s_state.deduct tx.value).1)

/-- The recipient's half. -/
def openCredit (t : OpenTrie) (i : ℕ) (tx : Transaction) : OpenTrie :=
  let r_state := fetch t.map tx.recipient i
  t.update tx.recipient (r_state.deposit tx.value)

/-- One iteration of the loop of `ProcessTxs`. -/
def openTx (f : FollowerNode) (i : ℕ) (t : OpenTrie) (tx : Transaction) : Option OpenTrie :=
  match prefixes tx with
  | .outOfRange => none
  | .syntaxError => some t
  | .digits dec1 dec2 =>
    if f.followerNum = 0 then none
    else
      let destId1 := dec1 % f.followerNum
      let destId2 := dec2 % f.followerNum
      match if destId1 = f.followerID then openDebit t i tx else some t with
      | none => some t
      | some t' => some (if destId2 = f.followerID then openCredit t' i tx else t')

/-- The loop, over the transactions with their positions. -/
def openTxs (f : FollowerNode) (t : OpenTrie) (txs : List (Transaction × ℕ)) : Option OpenTrie :=
  txs.foldlM (fun t p => openTx f p.2 t p.1) t

/-- `ProcessTxs` with the commit of its trie. -/
def processTxsCommit (clk : Clock) (f : FollowerNode) (txs : List TimedTx) :
    Option (FollowerNode × List Hash × List TimedTx) :=
  if txs = [] then some (f, [], [])
  else do
    let (f', txHashs, out) ← processTxs clk f txs
    let t ← openTxs f (opened f.state) ((txs.map (·.tx)).zipIdx)
    let st ← t.commit
    some ({ f' with state := st }, txHashs, out)

/-! ### What the loop writes -/

theorem openTx_map (f : FollowerNode) (i : ℕ) (t : OpenTrie) (tx : Transaction) :
    (openTx f i t tx).map (·.map) = (processTx f i t.map tx).map (·.1) := by
  unfold openTx processTx
  cases prefixes tx with
  | outOfRange => rfl
  | syntaxError => rfl
  | digits dec1 dec2 =>
    dsimp only
    by_cases hnum : f.followerNum = 0
    · rw [if_pos hnum, if_pos hnum]
      rfl
    rw [if_neg hnum, if_neg hnum]
    by_cases hs : dec1 % f.followerNum = f.followerID
    · rw [if_pos hs, if_pos hs, openDebit, debitSender]
      by_cases hlt : (fetch t.map tx.sender i).balance < tx.value
      · simp only [if_pos hlt]
        rfl
      · simp only [if_neg hlt]
        split_ifs <;> rfl
    · rw [if_neg hs, if_neg hs]
      dsimp only
      split_ifs <;> rfl

theorem openTxs_eq (clk : Clock) (f : FollowerNode) (ts : List TimedTx) (i : ℕ) (t : OpenTrie) :
    (openTxs f t ((ts.map (·.tx)).zipIdx i)).map (·.map) =
      (processLoop clk f i t.map ts).map (·.1) := by
  induction ts generalizing i t with
  | nil => rfl
  | cons u ts ih =>
    have hstep := openTx_map f i t u.tx
    rw [List.map_cons, List.zipIdx_cons, openTxs, List.foldlM_cons, processLoop]
    cases hproc : processTx f i t.map u.tx with
    | none =>
      rw [hproc] at hstep
      rw [Option.map_eq_none_iff.mp hstep]
      rfl
    | some res =>
      obtain ⟨st, executed⟩ := res
      rw [hproc] at hstep
      obtain ⟨t₁, ht₁, hmap⟩ := Option.map_eq_some_iff.mp hstep
      dsimp only at hmap
      have hrest := ih (i + 1) t₁
      rw [openTxs, hmap] at hrest
      rw [ht₁]
      simp only [Option.bind_eq_bind, Option.bind_some]
      rw [hrest]
      cases hloop : processLoop clk f (i + 1) st ts with
      | none => rfl
      | some res =>
        obtain ⟨st', hs, out⟩ := res
        cases executed <;> rfl

/-- The owned halves of a transaction that is executed. -/
def openHalves (f : FollowerNode) (i : ℕ) (t : OpenTrie) (tx : Transaction) : OpenTrie :=
  let t₁ := if Owns f tx.sender then
    t.update tx.sender ((fetch t.map tx.sender i).deduct tx.value).1 else t
  if Owns f tx.recipient then openCredit t₁ i tx else t₁

/-- **One iteration on the open trie.**  It panics on an empty address and for zero followers; else
it writes the owned halves of a transaction that is executed. -/
theorem openTx_eq (f : FollowerNode) (i : ℕ) (t : OpenTrie) (tx : Transaction) :
    openTx f i t tx =
      if prefixes tx = .outOfRange ∨ HexLeading tx ∧ f.followerNum = 0 then none
      else some (if HexLeading tx ∧ accepts f (balanceOf t.map) tx = true then openHalves f i t tx
        else t) := by
  cases hp : prefixes tx with
  | outOfRange => simp [openTx, hp]
  | syntaxError =>
    have hhex : ¬ HexLeading tx := by
      intro h
      obtain ⟨dec1, dec2, -, -, hd⟩ := prefixes_of_hexLeading tx h
      rw [hp] at hd
      cases hd
    simp [openTx, hp, hhex]
  | digits dec1 dec2 =>
    obtain ⟨h1, h2⟩ := prefixes_eq_digits tx dec1 dec2 hp
    have hhex : HexLeading tx := ⟨by rw [h1]; rfl, by rw [h2]; rfl⟩
    have hs : dec1 % f.followerNum = f.followerID ↔ Owns f tx.sender := by
      simp [Owns, owner, h1]
    have hr : dec2 % f.followerNum = f.followerID ↔ Owns f tx.recipient := by
      simp [Owns, owner, h2]
    by_cases hnum : f.followerNum = 0
    · simp [openTx, hp, hnum, hhex]
    simp only [openTx, hp, if_neg hnum, hs, hr, openDebit, fetch_balance, openHalves, accepts]
    by_cases hS : Owns f tx.sender
    · by_cases hlt : balanceOf t.map tx.sender < tx.value
      · simp [hS, hlt, hhex, hnum]
      · simp [hS, hlt, hhex, hnum, not_lt.mp hlt]
    · simp [hS, hhex, hnum]

theorem written_openHalves (f : FollowerNode) (i : ℕ) (t : OpenTrie) (tx : Transaction) :
    Written t (openHalves f i t tx) := by
  unfold openHalves openCredit
  split_ifs
  · exact .tail _ _ (.update _ _ _)
  · exact .update _ _ _
  · exact .update _ _ _
  · exact .refl t

theorem written_openTx {f : FollowerNode} {i : ℕ} {t t' : OpenTrie} {tx : Transaction}
    (h : openTx f i t tx = some t') : Written t t' := by
  rw [openTx_eq] at h
  split_ifs at h
  · cases h
    exact written_openHalves f i t tx
  · cases h
    exact .refl t

/-! ### When a batch changes the trie -/

/-- Executing the transaction on `st` changes an account of this follower: the transaction is not
skipped, and an owned half of it makes an account or moves money. -/
def Touches (f : FollowerNode) (st : Trie) (tx : Transaction) : Prop :=
  HexLeading tx ∧ (Owns f tx.sender → tx.value ≤ balanceOf st tx.sender) ∧
    (Owns f tx.sender ∧ (tx.sender ∉ st ∨ tx.value ≠ 0) ∨
      Owns f tx.recipient ∧ (tx.recipient ∉ st ∨ tx.value ≠ 0))

instance (f : FollowerNode) (st : Trie) (tx : Transaction) : Decidable (Touches f st tx) :=
  inferInstanceAs (Decidable (_ ∧ _ ∧ _))

/-- A recipient's half after writes that have left the trie clean is one on the first trie. -/
theorem openCredit_dirty_iff {st : Trie} {t : OpenTrie} (h : Written (opened st) t) (i : ℕ)
    (tx : Transaction) :
    (openCredit t i tx).dirty = true ↔ t.dirty = true ∨ tx.recipient ∉ st ∨ tx.value ≠ 0 := by
  rw [openCredit, update_dirty_iff, lookup_ne_iff t.map tx.recipient i (·.deposit tx.value),
    ne_eq, deposit_eq_self_iff]
  cases hd : t.dirty with
  | true => simp
  | false =>
    rw [h.unchanged hd]
    rfl

theorem update_deduct_dirty_iff {st : Trie} {i : ℕ} {tx : Transaction}
    (hval : tx.value ≤ balanceOf st tx.sender) :
    ((opened st).update tx.sender ((fetch st tx.sender i).deduct tx.value).1).dirty = true ↔
      tx.sender ∉ st ∨ tx.value ≠ 0 := by
  have hle : ¬ (fetch st tx.sender i).balance < tx.value := by
    rw [fetch_balance]
    exact not_lt.mpr hval
  rw [update_dirty_iff]
  show false = true ∨ st.lookup tx.sender ≠ _ ↔ _
  rw [lookup_ne_iff st tx.sender i (fun s => (s.deduct tx.value).1), ne_eq, deduct_eq_self_iff]
  simp [hle]

theorem openHalves_dirty_iff {f : FollowerNode} {i : ℕ} {st : Trie} {tx : Transaction}
    (hval : Owns f tx.sender → tx.value ≤ balanceOf st tx.sender) :
    (openHalves f i (opened st) tx).dirty = true ↔
      Owns f tx.sender ∧ (tx.sender ∉ st ∨ tx.value ≠ 0) ∨
        Owns f tx.recipient ∧ (tx.recipient ∉ st ∨ tx.value ≠ 0) := by
  by_cases hS : Owns f tx.sender
  · have hdebit := update_deduct_dirty_iff (i := i) (hval hS)
    simp only [openHalves, if_pos hS]
    by_cases hR : Owns f tx.recipient
    · rw [if_pos hR, openCredit_dirty_iff (.update _ _ _)]
      simp only [hS, hR, true_and]
      exact or_congr_left hdebit
    · rw [if_neg hR]
      simp only [hS, hR, true_and, false_and, or_false]
      exact hdebit
  · simp only [openHalves, if_neg hS]
    by_cases hR : Owns f tx.recipient
    · rw [if_pos hR, openCredit_dirty_iff (.refl _)]
      simp [hS, hR, opened]
    · simp [hS, hR, opened]

/-- An iteration changes the trie it starts from when the transaction touches it. -/
theorem openTx_dirty_iff {f : FollowerNode} {i : ℕ} {st : Trie} {tx : Transaction}
    (hnum : f.followerNum ≠ 0) (haddr : prefixes tx ≠ .outOfRange) :
    (∃ t, openTx f i (opened st) tx = some t ∧ t.dirty = true) ↔ Touches f st tx := by
  have hrun : ¬ (prefixes tx = .outOfRange ∨ HexLeading tx ∧ f.followerNum = 0) := by
    rintro (h | h)
    · exact haddr h
    · exact hnum h.2
  simp only [openTx_eq, if_neg hrun, Option.some.injEq, exists_eq_left']
  by_cases hexec : HexLeading tx ∧ accepts f (balanceOf st) tx = true
  · have hval : Owns f tx.sender → tx.value ≤ balanceOf st tx.sender := of_decide_eq_true hexec.2
    have hexec' : HexLeading tx ∧ accepts f (balanceOf (opened st).map) tx = true := hexec
    rw [if_pos hexec', openHalves_dirty_iff hval]
    exact ⟨fun h => ⟨hexec.1, hval, h⟩, fun h => h.2.2⟩
  · have hexec' : ¬ (HexLeading tx ∧ accepts f (balanceOf (opened st).map) tx = true) := hexec
    rw [if_neg hexec']
    constructor
    · intro h
      cases h
    · intro h
      exact absurd ⟨h.1, decide_eq_true h.2.1⟩ hexec

theorem openTxs_isSome {f : FollowerNode} (hnum : f.followerNum ≠ 0) {txs : List (Transaction × ℕ)}
    (haddr : ∀ p ∈ txs, prefixes p.1 ≠ .outOfRange) (t : OpenTrie) :
    ∃ t', openTxs f t txs = some t' := by
  induction txs generalizing t with
  | nil => exact ⟨t, rfl⟩
  | cons p txs ih =>
    have hrun : ¬ (prefixes p.1 = .outOfRange ∨ HexLeading p.1 ∧ f.followerNum = 0) := by
      rintro (h | h)
      · exact haddr p List.mem_cons_self h
      · exact hnum h.2
    obtain ⟨t', ht'⟩ := ih (fun q hq => haddr q (List.mem_cons_of_mem p hq))
      (if HexLeading p.1 ∧ accepts f (balanceOf t.map) p.1 = true then openHalves f p.2 t p.1
        else t)
    refine ⟨t', ?_⟩
    rw [openTxs, List.foldlM_cons, openTx_eq, if_neg hrun]
    exact ht'

/-- A batch changes the trie it starts from when one of its transactions touches that trie. -/
theorem openTxs_dirty_iff {f : FollowerNode} (hnum : f.followerNum ≠ 0) {txs : List Transaction}
    (haddr : ∀ tx ∈ txs, prefixes tx ≠ .outOfRange) {st : Trie} {t : OpenTrie}
    (h : openTxs f (opened st) txs.zipIdx = some t) :
    t.dirty = true ↔ ∃ tx ∈ txs, Touches f st tx := by
  have haddr' := forall_mem_zipIdx.mpr haddr
  rw [dirty_foldlM_iff (fun t p t' => written_openTx) h]
  refine Iff.trans ?_ (@exists_mem_zipIdx _ txs (Touches f st))
  constructor
  · rintro ⟨p, hp, hd⟩
    exact ⟨p, hp, (openTx_dirty_iff hnum (haddr' p hp)).mp hd⟩
  · rintro ⟨p, hp, ht⟩
    exact ⟨p, hp, (openTx_dirty_iff hnum (haddr' p hp)).mpr ht⟩

/-! ### The two commits -/

/-- The trie that `ProcessTxs` commits is the one of `processTxs`. -/
theorem processTxs_open (clk : Clock) (f : FollowerNode) {ts : List TimedTx} (hts : ts ≠ []) :
    (openTxs f (opened f.state) (ts.map (·.tx)).zipIdx).map (·.map) =
      (processTxs clk f ts).map fun res => res.1.state := by
  have hloop := openTxs_eq clk f
    (ts.mapIdx fun j t => t.setAllocateTime (clk.allocate j)) 0 (opened f.state)
  rw [mapIdx_stamp_tx] at hloop
  rw [hloop, processTxs, if_neg hts]
  show _ = Option.map _ (Option.bind _ _)
  cases hrun : processLoop clk f 0 f.state
      (ts.mapIdx fun j t => t.setAllocateTime (clk.allocate j)) with
  | none =>
    rw [show (opened f.state).map = f.state from rfl, hrun]
    rfl
  | some res =>
    rw [show (opened f.state).map = f.state from rfl, hrun]
    rfl

/-- A result of `processTxsCommit` is one of `processTxs`: the commit changes nothing. -/
theorem processTxs_of_commit {clk : Clock} {f : FollowerNode} {ts : List TimedTx}
    {res : FollowerNode × List Hash × List TimedTx} (h : processTxsCommit clk f ts = some res) :
    processTxs clk f ts = some res := by
  unfold processTxsCommit at h
  split_ifs at h with hts
  · rw [processTxs, if_pos hts, h]
  obtain ⟨⟨f', txHashs, out⟩, hproc, h⟩ := Option.bind_eq_some_iff.mp h
  obtain ⟨t, hopen, h⟩ := Option.bind_eq_some_iff.mp h
  obtain ⟨st, hcommit, h⟩ := Option.bind_eq_some_iff.mp h
  cases h
  have hmap := processTxs_open clk f hts
  rw [hopen, hproc] at hmap
  have hst : f'.state = st := by
    rw [(commit_eq_some_iff.mp hcommit).1]
    exact (Option.some.inj hmap).symm
  rw [hproc, ← hst]

/-- **`ProcessTxs` returns** on addresses that are not empty exactly when the batch is empty, or
the trie is, or some transaction touches it. -/
theorem processTxsCommit_isSome_iff (clk : Clock) {f : FollowerNode} (hnum : f.followerNum ≠ 0)
    {ts : List TimedTx} (haddr : ∀ t ∈ ts, prefixes t.tx ≠ .outOfRange) :
    (processTxsCommit clk f ts).isSome ↔
      ts = [] ∨ f.state = ∅ ∨ ∃ t ∈ ts, Touches f f.state t.tx := by
  by_cases hts : ts = []
  · simp [processTxsCommit, hts]
  have haddr' : ∀ tx ∈ ts.map (·.tx), prefixes tx ≠ .outOfRange := by
    intro tx htx
    obtain ⟨t, ht, rfl⟩ := List.mem_map.mp htx
    exact haddr t ht
  obtain ⟨t, ht⟩ := openTxs_isSome hnum (forall_mem_zipIdx.mpr haddr') (opened f.state)
  have hmap := processTxs_open clk f hts
  rw [ht] at hmap
  obtain ⟨⟨f', txHashs, out⟩, hproc, -⟩ := Option.map_eq_some_iff.mp hmap.symm
  have hdirty := openTxs_dirty_iff hnum haddr' ht
  simp only [List.mem_map, exists_exists_and_eq_and] at hdirty
  rw [← hdirty, ← Written.commit_isSome_iff (written_foldlM (fun t p t' => written_openTx) ht)]
  simp only [processTxsCommit, hts, if_false, hproc, ht, Option.bind_eq_bind, Option.bind_some,
    false_or]
  cases t.commit <;> simp

/-- `handleProposerAllocateData` with the commit of its trie. -/
def allocateDataCommit (st : Trie) (data : AccountData) : Option Trie :=
  (data.foldl (fun t e => t.update e.1 e.2) (opened st)).commit

theorem foldl_update_map (data : AccountData) (t : OpenTrie) :
    (data.foldl (fun t e => t.update e.1 e.2) t).map = handleProposerAllocateData t.map data := by
  induction data generalizing t with
  | nil => rfl
  | cons e data ih => exact ih (t.update e.1 e.2)

/-- The trie that is committed is the one of `handleProposerAllocateData`. -/
theorem allocateDataCommit_eq {st st' : Trie} {data : AccountData}
    (h : allocateDataCommit st data = some st') : st' = handleProposerAllocateData st data := by
  rw [(commit_eq_some_iff.mp h).1, foldl_update_map]
  rfl

/-- **`handleProposerAllocateData` returns** exactly when the trie is empty or some account of the
message is new to it. -/
theorem allocateDataCommit_isSome_iff (st : Trie) (data : AccountData) :
    (allocateDataCommit st data).isSome ↔
      st = ∅ ∨ ∃ e ∈ data, st.lookup e.1 ≠ some e.2 := by
  have hstep : ∀ (t : OpenTrie) (e : Address × AccountState) (t' : OpenTrie),
      some (t.update e.1 e.2) = some t' → Written t t' := by
    intro t e t' h
    cases h
    exact .update _ _ _
  have hfold : data.foldlM (fun t e => some (t.update e.1 e.2)) (opened st) =
      some (data.foldl (fun t e => t.update e.1 e.2) (opened st)) :=
    List.foldlM_pure
  rw [allocateDataCommit, Written.commit_isSome_iff (written_foldlM hstep hfold),
    dirty_foldlM_iff hstep hfold]
  simp only [Option.some.injEq, exists_eq_left', update_dirty_iff]
  simp [opened]

end Aster.SubMPT
