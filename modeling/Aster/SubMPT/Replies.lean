import Aster.SubMPT.ProposerSteps

/-!
# The timestamps of a reply

A follower stamps the transactions of its batch in place and reports the hashes of the executed
ones; `GatherTxs` takes the stamps for the hash at position `i` from the transaction at position
`i` of the batch.  The hash at position `i` belongs to the `i`-th *executed* transaction, so the
two agree as long as no skipped transaction comes before it.

`executions` marks the executed positions of a batch, and `kept` takes the elements at marked
positions.  The clock is free: the stamps of different positions may be any readings.
-/

namespace Aster.SubMPT

open Aster.Core

/-! ### Marked positions -/

section Marks

variable {α : Type*}

/-- The elements at the marked positions. -/
def kept : List α → List Bool → List α
  | x :: xs, b :: marks => if b then x :: kept xs marks else kept xs marks
  | _, _ => []

/-- The number of marks before position `q`. -/
def rank (marks : List Bool) (q : ℕ) : ℕ := (marks.take q).count true

@[simp] theorem rank_zero (marks : List Bool) : rank marks 0 = 0 := rfl

@[simp] theorem rank_cons_succ (b : Bool) (marks : List Bool) (q : ℕ) :
    rank (b :: marks) (q + 1) = rank marks q + if b then 1 else 0 := by
  cases b <;> simp [rank]

/-- Position `j` of what is kept is the marked position with `j` marks before it. -/
theorem getElem?_kept (xs : List α) (marks : List Bool) (j : ℕ) (x : α) :
    (kept xs marks)[j]? = some x ↔
      ∃ q, xs[q]? = some x ∧ marks[q]? = some true ∧ rank marks q = j := by
  induction xs generalizing marks j with
  | nil => simp [kept]
  | cons y xs ih =>
    cases marks with
    | nil => simp [kept]
    | cons b marks =>
      -- the first position is a case of its own, the others are those of the tails
      have hsplit : (∃ q, (y :: xs)[q]? = some x ∧ (b :: marks)[q]? = some true ∧
          rank (b :: marks) q = j) ↔ (y = x ∧ b = true ∧ j = 0) ∨
          ∃ q, xs[q]? = some x ∧ marks[q]? = some true ∧
            rank marks q + (if b then 1 else 0) = j := by
        constructor
        · rintro ⟨q, hx, hb, hq⟩
          cases q with
          | zero => exact .inl ⟨by simpa using hx, by simpa using hb, hq.symm⟩
          | succ q => exact .inr ⟨q, by simpa using hx, by simpa using hb, by simpa using hq⟩
        · rintro (⟨rfl, rfl, rfl⟩ | ⟨q, hx, hb, hq⟩)
          · exact ⟨0, by simp⟩
          · exact ⟨q + 1, by simpa using hx, by simpa using hb, by simpa using hq⟩
      rw [hsplit]
      cases b with
      | false => simp [kept, ih]
      | true =>
        cases j with
        | zero => simp [kept]
        | succ j => simp [kept, ih]

theorem mem_take_iff {xs : List α} {n : ℕ} {x : α} :
    x ∈ xs.take n ↔ ∃ j < n, xs[j]? = some x := by
  rw [List.mem_iff_getElem?]
  constructor
  · rintro ⟨j, hj⟩
    rw [List.getElem?_take] at hj
    split_ifs at hj with hlt
    exact ⟨j, hlt, hj⟩
  · rintro ⟨j, hlt, hj⟩
    exact ⟨j, by rw [List.getElem?_take, if_pos hlt, hj]⟩

theorem rank_le (marks : List Bool) (q : ℕ) : rank marks q ≤ q :=
  List.count_le_length.trans (List.length_take_le q marks)

/-- All positions before `q` are marked when there are `q` marks. -/
theorem marked_of_rank_eq {marks : List Bool} {q : ℕ} (h : rank marks q = q) :
    ∀ p < q, marks[p]? = some true := by
  induction marks generalizing q with
  | nil =>
    intro p hp
    simp only [rank, List.take_nil, List.count_nil] at h
    omega
  | cons b marks ih =>
    cases q with
    | zero => exact fun p hp => absurd hp (Nat.not_lt_zero p)
    | succ q =>
      have hle := rank_le marks q
      rw [rank_cons_succ] at h
      cases b with
      | false =>
        simp only [Bool.false_eq_true, if_false] at h
        omega
      | true =>
        intro p hp
        cases p with
        | zero => rfl
        | succ p =>
          have hq : rank marks q = q := by simpa using h
          exact ih hq p (Nat.lt_of_succ_lt_succ hp)

theorem rank_eq_of_marked {marks : List Bool} {q : ℕ} (h : ∀ p < q, marks[p]? = some true) :
    rank marks q = q := by
  induction q generalizing marks with
  | zero => rfl
  | succ q ih =>
    cases marks with
    | nil => exact absurd (h 0 (Nat.succ_pos q)) (by simp)
    | cons b marks =>
      have hb : b = true := by simpa using h 0 (Nat.succ_pos q)
      have hrest : ∀ p < q, marks[p]? = some true := by
        intro p hp
        simpa using h (p + 1) (Nat.succ_lt_succ hp)
      rw [rank_cons_succ, ih hrest, if_pos hb]

/-- A marked position counts for those behind it. -/
theorem rank_lt {marks : List Bool} {p q : ℕ} (hp : marks[p]? = some true) (hpq : p < q) :
    rank marks p < rank marks q := by
  induction marks generalizing p q with
  | nil => simp at hp
  | cons b marks ih =>
    obtain ⟨q, rfl⟩ := Nat.exists_eq_add_one_of_ne_zero (Nat.ne_of_gt (Nat.zero_lt_of_lt hpq))
    cases p with
    | zero =>
      have hb : b = true := by simpa using hp
      simp [hb]
    | succ p =>
      have h := ih (p := p) (q := q) (by simpa using hp) (Nat.lt_of_succ_lt_succ hpq)
      simpa using h

end Marks

/-! ### What a follower executes -/

/-- The positions of the batch that run to the end of the loop body; `none` is a panic. -/
def executions (f : FollowerNode) : ℕ → Trie → List Transaction → Option (List Bool)
  | _, _, [] => some []
  | i, st, tx :: txs => do
    let (st', executed) ← processTx f i st tx
    let marks ← executions f (i + 1) st' txs
    some (executed :: marks)

/-- `ProcessTxs` returns and has executed the transaction at position `q`. -/
def Executes (f : FollowerNode) (txs : List Transaction) (q : ℕ) : Prop :=
  (executions f 0 f.state txs).bind (·[q]?) = some true

instance (f : FollowerNode) (txs : List Transaction) (q : ℕ) : Decidable (Executes f txs q) :=
  inferInstanceAs (Decidable (_ = _))

/-- The transaction at position `k` as the loop leaves it. -/
def executionStamp (clk : Clock) (marks : List Bool) (k i : ℕ) (t : TimedTx) : TimedTx :=
  if marks[k]? = some true then t.setExecutionTime (clk.execution i) else t

@[simp] theorem executionStamp_cons_succ (clk : Clock) (b : Bool) (marks : List Bool) (k i : ℕ) :
    executionStamp clk (b :: marks) (k + 1) i = executionStamp clk marks k i := rfl

@[simp] theorem executionStamp_tx (clk : Clock) (marks : List Bool) (k i : ℕ) (t : TimedTx) :
    (executionStamp clk marks k i t).tx = t.tx := by
  rw [executionStamp]
  split_ifs <;> rfl

@[simp] theorem executionStamp_allocateTime (clk : Clock) (marks : List Bool) (k i : ℕ)
    (t : TimedTx) : (executionStamp clk marks k i t).times.allocateTime = t.times.allocateTime := by
  rw [executionStamp]
  split_ifs <;> rfl

theorem processLoop_marks (clk : Clock) (f : FollowerNode) (ts : List TimedTx) (i : ℕ) (st : Trie)
    {st' : Trie} {txHashs : List Hash} {out : List TimedTx}
    (h : processLoop clk f i st ts = some (st', txHashs, out)) :
    ∃ marks, executions f i st (ts.map (·.tx)) = some marks ∧
      txHashs = kept (ts.map (·.tx.txHash)) marks ∧
      ∀ k, out[k]? = ts[k]?.map (executionStamp clk marks k (i + k)) := by
  induction ts generalizing i st st' txHashs out with
  | nil =>
    simp only [processLoop, Option.some.injEq, Prod.mk.injEq] at h
    obtain ⟨-, rfl, rfl⟩ := h
    exact ⟨[], rfl, rfl, fun k => by simp⟩
  | cons t ts ih =>
    rw [processLoop] at h
    obtain ⟨⟨st₁, executed⟩, hstep, h⟩ := Option.bind_eq_some_iff.mp h
    obtain ⟨⟨st₂, hs, out'⟩, hloop, h⟩ := Option.bind_eq_some_iff.mp h
    obtain ⟨marks, hmarks, hkept, hout⟩ := ih (i + 1) st₁ hloop
    refine ⟨executed :: marks, ?_, ?_, ?_⟩
    · rw [List.map_cons, executions, hstep]
      simp only [Option.bind_eq_bind, Option.bind_some, hmarks]
    · cases executed with
      | false =>
        cases h
        simpa [kept] using hkept
      | true =>
        cases h
        simpa [kept] using hkept
    · intro k
      cases k with
      | zero =>
        cases executed with
        | false =>
          cases h
          simp [executionStamp]
        | true =>
          cases h
          simp [executionStamp]
      | succ k =>
        have hk := hout k
        rw [Nat.add_assoc, Nat.add_comm 1 k] at hk
        cases executed with
        | false =>
          cases h
          simpa using hk
        | true =>
          cases h
          simpa using hk

theorem processLoop_of_marks (clk : Clock) (f : FollowerNode) (ts : List TimedTx) (i : ℕ)
    (st : Trie) {marks : List Bool} (h : executions f i st (ts.map (·.tx)) = some marks) :
    ∃ res, processLoop clk f i st ts = some res := by
  induction ts generalizing i st marks with
  | nil => exact ⟨_, rfl⟩
  | cons t ts ih =>
    rw [List.map_cons, executions] at h
    obtain ⟨⟨st₁, executed⟩, hstep, h⟩ := Option.bind_eq_some_iff.mp h
    obtain ⟨marks', hmarks, -⟩ := Option.bind_eq_some_iff.mp h
    obtain ⟨⟨st₂, hs, out⟩, hloop⟩ := ih (i + 1) st₁ hmarks
    rw [processLoop, hstep]
    simp only [Option.bind_eq_bind, Option.bind_some, hloop]
    cases executed with
    | false => exact ⟨_, rfl⟩
    | true => exact ⟨_, rfl⟩

/-- **The reply of `ProcessTxs`**: the hashes of the executed positions, and the batch with an
allocation stamp everywhere and an execution stamp at the executed positions. -/
theorem processTxs_marks {clk : Clock} {f f' : FollowerNode} {ts out : List TimedTx}
    {txHashs : List Hash} (h : processTxs clk f ts = some (f', txHashs, out)) :
    ∃ marks, executions f 0 f.state (ts.map (·.tx)) = some marks ∧
      txHashs = kept (ts.map (·.tx.txHash)) marks ∧
      ∀ k, out[k]? = ts[k]?.map fun t =>
        executionStamp clk marks k k (t.setAllocateTime (clk.allocate k)) := by
  unfold processTxs at h
  split_ifs at h with hts
  · simp only [Option.some.injEq, Prod.mk.injEq] at h
    obtain ⟨-, rfl, rfl⟩ := h
    rw [hts]
    exact ⟨[], rfl, rfl, fun k => by simp⟩
  · obtain ⟨⟨st, hs, out'⟩, hloop, h⟩ := Option.bind_eq_some_iff.mp h
    simp only [Option.some.injEq, Prod.mk.injEq] at h
    obtain ⟨-, rfl, rfl⟩ := h
    obtain ⟨marks, hmarks, hkept, hout⟩ := processLoop_marks clk f _ 0 f.state hloop
    have hmap := mapIdx_stamp_tx clk ts
    have hhash := congrArg (List.map Transaction.txHash) hmap
    simp only [List.map_map, Function.comp_def] at hhash
    refine ⟨marks, by rw [← hmap, hmarks], by rw [hkept, hhash], ?_⟩
    intro k
    rw [hout k, List.getElem?_mapIdx, Option.map_map, Nat.zero_add]
    rfl

theorem processTxs_of_marks (clk : Clock) {f : FollowerNode} {ts : List TimedTx}
    {marks : List Bool} (h : executions f 0 f.state (ts.map (·.tx)) = some marks) :
    ∃ res, processTxs clk f ts = some res := by
  unfold processTxs
  split_ifs with hts
  · exact ⟨_, rfl⟩
  · rw [← mapIdx_stamp_tx clk ts] at h
    obtain ⟨⟨st, hs, out⟩, hloop⟩ := processLoop_of_marks clk f _ 0 f.state h
    simp only [hloop, Option.bind_eq_bind, Option.bind_some]
    exact ⟨_, rfl⟩

/-! ### What `GatherTxs` writes -/

/-- The stamps of a transaction are those of its record in a reply. -/
def SameStamps (times : TxTimes) (t : TimedTx) : Prop :=
  times.allocateTime = t.times.allocateTime ∧ times.executionTime = t.times.executionTime

instance (times : TxTimes) (t : TimedTx) : Decidable (SameStamps times t) :=
  inferInstanceAs (Decidable (_ ∧ _))

/-- **The stamps after `GatherTxs`**, when the pool has its transactions under their hashes.
Only the transactions it moves are stamped, each from the position at which its hash comes
first. -/
theorem gatherTxs_stamps (hs : List Hash) (ts : List TimedTx) (s s' : Sys)
    (h : gatherTxs s hs ts = some s')
    (hkey : ∀ g ∈ hs, ∀ tx, s.allocatedTxpool.lookup g = some tx → tx.txHash = g) :
    (∀ tx, (tx.txHash ∈ hs → s.allocatedTxpool.lookup tx.txHash = none) →
      s'.times tx = s.times tx) ∧
    ∀ j g tx, hs[j]? = some g → g ∉ hs.take j → s.allocatedTxpool.lookup g = some tx →
      ∃ t, ts[j]? = some t ∧ SameStamps (s'.times tx) t := by
  induction hs generalizing s ts with
  | nil =>
    rw [gatherTxs, Option.some.injEq] at h
    subst h
    exact ⟨fun tx _ => rfl, fun j g tx hj => by simp at hj⟩
  | cons g gs ih =>
    have hkey' : ∀ g' ∈ gs, ∀ tx, (s.allocatedTxpool.erase g).lookup g' = some tx →
        tx.txHash = g' := by
      intro g' hg' tx hl
      by_cases heq : g' = g
      · rw [heq, Finmap.lookup_erase] at hl
        cases hl
      · rw [Finmap.lookup_erase_ne heq] at hl
        exact hkey g' (List.mem_cons_of_mem g hg') tx hl
    have herase : ∀ tx : Transaction,
        (tx.txHash ∈ g :: gs → s.allocatedTxpool.lookup tx.txHash = none) → tx.txHash ∈ gs →
        (s.allocatedTxpool.erase g).lookup tx.txHash = none := by
      intro tx hnone hmem
      by_cases heq : tx.txHash = g
      · rw [heq, Finmap.lookup_erase]
      · rw [Finmap.lookup_erase_ne heq]
        exact hnone (List.mem_cons_of_mem g hmem)
    -- a hash behind the first one is looked up in what that one has left
    have hlater : ∀ j g', g' ∉ (g :: gs).take (j + 1) → g' ≠ g ∧ g' ∉ gs.take j ∧
        (s.allocatedTxpool.erase g).lookup g' = s.allocatedTxpool.lookup g' := by
      intro j g' hnot
      rw [List.take_succ_cons, List.mem_cons, not_or] at hnot
      exact ⟨hnot.1, hnot.2, Finmap.lookup_erase_ne hnot.1⟩
    rw [gatherTxs] at h
    split at h
    · rename_i hnone
      obtain ⟨hsame, hstamp⟩ := ih ts.tail _ h hkey'
      refine ⟨fun tx htx => hsame tx (herase tx htx), ?_⟩
      intro j g' tx hj hnot hl
      cases j with
      | zero =>
        obtain rfl : g = g' := by simpa using hj
        rw [hnone] at hl
        cases hl
      | succ j =>
        obtain ⟨-, hnot', hl'⟩ := hlater j g' hnot
        obtain ⟨t, ht, hst⟩ := hstamp j g' tx (by simpa using hj) hnot' (hl'.trans hl)
        exact ⟨t, by rwa [List.getElem?_tail] at ht, hst⟩
    · rename_i tx₀ hl₀
      have hhash₀ : tx₀.txHash = g := hkey g List.mem_cons_self tx₀ hl₀
      split at h
      · cases h
      rename_i t₀ ht₀
      obtain ⟨hsame, hstamp⟩ := ih ts.tail _ h hkey'
      constructor
      · intro tx htx
        have hne : tx ≠ tx₀ := by
          rintro rfl
          have hnone := htx (by rw [hhash₀]; exact List.mem_cons_self)
          rw [hhash₀, hl₀] at hnone
          cases hnone
        rw [hsame tx (herase tx htx)]
        exact Function.update_of_ne hne _ _
      · intro j g' tx hj hnot hl
        cases j with
        | zero =>
          obtain rfl : g = g' := by simpa using hj
          obtain rfl : tx₀ = tx := Option.some.inj (hl₀.symm.trans hl)
          refine ⟨t₀, by rw [← List.head?_eq_getElem?]; exact ht₀, ?_⟩
          rw [hsame tx₀ (fun _ => by rw [hhash₀]; exact Finmap.lookup_erase _ _)]
          simp [SameStamps]
        | succ j =>
          obtain ⟨-, hnot', hl'⟩ := hlater j g' hnot
          obtain ⟨t, ht, hst⟩ := hstamp j g' tx (by simpa using hj) hnot' (hl'.trans hl)
          exact ⟨t, by rwa [List.getElem?_tail] at ht, hst⟩

/-! ### Alignment -/

/-- `TxAllocate` has put the batch into `AllocatedTxpool`: under a hash of the batch there is a
transaction of the batch with that hash, or nothing any more. -/
def Pooled (s : Sys) (ts : List TimedTx) : Prop :=
  ∀ t ∈ ts, ∀ tx, s.allocatedTxpool.lookup t.tx.txHash = some tx →
    tx ∈ ts.map (·.tx) ∧ tx.txHash = t.tx.txHash

/-- The stamps of `tx` are those that `ProcessTxs` gave to `tx` when it executed it. -/
def OwnStamps (f : FollowerNode) (ts out : List TimedTx) (times : Transaction → TxTimes)
    (tx : Transaction) : Prop :=
  ∃ k t, Executes f (ts.map (·.tx)) k ∧ out[k]? = some t ∧ t.tx = tx ∧ SameStamps (times tx) t

/-- After the reply to the batch is handled, every transaction moved to `ProcessedTxpool` has its
own stamps. -/
def Aligned (clk : Clock) (f : FollowerNode) (ts : List TimedTx) (s : Sys) : Prop :=
  ∀ f' txHashs out s' moved, processTxs clk f ts = some (f', txHashs, out) →
    gatherTxs s txHashs out = some s' → s'.processedTxpool = s.processedTxpool ++ moved →
    ∀ tx ∈ moved, OwnStamps f ts out s'.times tx

/-- An executed transaction whose hash is reported there for the first time comes after executed
transactions only, and no other transaction of the batch has its hash. -/
def Gapless (f : FollowerNode) (txs : List Transaction) : Prop :=
  ∀ q tx, Executes f txs q → txs[q]? = some tx →
    (∀ p < q, Executes f txs p → ∀ u, txs[p]? = some u → u.txHash ≠ tx.txHash) →
    (∀ p < q, Executes f txs p) ∧ ∀ u ∈ txs, u.txHash = tx.txHash → u = tx

theorem executes_iff {f : FollowerNode} {txs : List Transaction} {marks : List Bool}
    (h : executions f 0 f.state txs = some marks) (q : ℕ) :
    Executes f txs q ↔ marks[q]? = some true := by
  rw [Executes, h, Option.bind_some]

theorem executes_marks {f : FollowerNode} {txs : List Transaction} {q : ℕ}
    (h : Executes f txs q) : ∃ marks, executions f 0 f.state txs = some marks := by
  obtain ⟨marks, hmarks, -⟩ := Option.bind_eq_some_iff.mp h
  exact ⟨marks, hmarks⟩

section Batch

variable {f : FollowerNode} {txs : List Transaction} {marks : List Bool} {q : ℕ} {tx : Transaction}

/-- The hash of an executed position is reported at its rank. -/
theorem reported_at_rank (hmarks : executions f 0 f.state txs = some marks)
    (hq : Executes f txs q) (htx : txs[q]? = some tx) :
    (kept (txs.map (·.txHash)) marks)[rank marks q]? = some tx.txHash := by
  refine (getElem?_kept _ _ _ _).mpr ⟨q, ?_, (executes_iff hmarks q).mp hq, rfl⟩
  rw [List.getElem?_map, htx]
  rfl

/-- A hash that is reported comes from an executed position. -/
theorem executed_of_reported (hmarks : executions f 0 f.state txs = some marks) {j : ℕ} {g : Hash}
    (h : (kept (txs.map (·.txHash)) marks)[j]? = some g) :
    ∃ q tx, Executes f txs q ∧ txs[q]? = some tx ∧ tx.txHash = g ∧ rank marks q = j := by
  obtain ⟨q, hx, hmark, hrank⟩ := (getElem?_kept _ _ _ _).mp h
  rw [List.getElem?_map] at hx
  obtain ⟨tx, htx, hhash⟩ := Option.map_eq_some_iff.mp hx
  exact ⟨q, tx, (executes_iff hmarks q).mpr hmark, htx, hhash, hrank⟩

/-- The report of an executed position is the first of its hash exactly when no executed position
before it has the hash. -/
theorem first_report_iff (hmarks : executions f 0 f.state txs = some marks)
    (hq : Executes f txs q) :
    tx.txHash ∉ (kept (txs.map (·.txHash)) marks).take (rank marks q) ↔
      ∀ p < q, Executes f txs p → ∀ u, txs[p]? = some u → u.txHash ≠ tx.txHash := by
  constructor
  · intro hnot p hpq hp u hu hhash
    apply hnot
    rw [← hhash, mem_take_iff]
    exact ⟨rank marks p, rank_lt ((executes_iff hmarks p).mp hp) hpq,
      reported_at_rank hmarks hp hu⟩
  · intro hfresh hmem
    obtain ⟨j, hj, hget⟩ := mem_take_iff.mp hmem
    obtain ⟨p, u, hp, hu, hhash, hrank⟩ := executed_of_reported hmarks hget
    have hpq : p < q := by
      by_contra hle
      rcases Nat.lt_or_eq_of_le (not_lt.mp hle) with hlt | heq
      · have := rank_lt ((executes_iff hmarks q).mp hq) hlt
        omega
      · subst heq
        omega
    exact hfresh p hpq hp u hu hhash

end Batch

/-- Without a gap, every moved transaction has its own stamps, whatever the clock reads. -/
theorem aligned_of_gapless {clk : Clock} {f : FollowerNode} {ts : List TimedTx} {s : Sys}
    (hgap : Gapless f (ts.map (·.tx))) (hpool : Pooled s ts) : Aligned clk f ts s := by
  intro f' txHashs out s' moved hproc hgather hmoved tx htx
  obtain ⟨marks, hmarks, hkept, hout⟩ := processTxs_marks hproc
  have hhashes : ts.map (·.tx.txHash) = (ts.map (·.tx)).map (·.txHash) := by
    rw [List.map_map]
    rfl
  rw [hhashes] at hkept
  have hbatch : ∀ g ∈ txHashs, ∀ u, s.allocatedTxpool.lookup g = some u →
      u ∈ ts.map (·.tx) ∧ u.txHash = g := by
    intro g hg u hl
    obtain ⟨j, hj⟩ := List.mem_iff_getElem?.mp hg
    rw [hkept] at hj
    obtain ⟨q, v, -, hv, hhash, -⟩ := executed_of_reported hmarks hj
    obtain ⟨t, ht, rfl⟩ := List.mem_map.mp (List.mem_of_getElem? hv)
    rw [← hhash] at hl ⊢
    exact hpool t ht u hl
  obtain ⟨pool, moved', times, hres, hs'⟩ := gatherTxs_some txHashs out s s' hgather
  have hmem : tx ∈ moved' := by
    rw [hs'] at hmoved
    rwa [List.append_cancel_left hmoved]
  obtain ⟨g, hg, hl⟩ := hres.source tx hmem
  obtain ⟨htxs, hhash⟩ := hbatch g hg tx hl
  -- the first report of the hash, and the position it is about
  obtain ⟨before, after, hsplit, hfirst⟩ := List.eq_append_cons_of_mem hg
  have hj : txHashs[before.length]? = some g := by
    rw [hsplit, List.getElem?_append_right le_rfl, Nat.sub_self]
    rfl
  have hnot : g ∉ txHashs.take before.length := by
    rwa [hsplit, List.take_left]
  obtain ⟨q, u, hq, hu, huhash, hrank⟩ := executed_of_reported hmarks (hkept ▸ hj)
  have hfresh : ∀ p < q, Executes f (ts.map (·.tx)) p → ∀ v, (ts.map (·.tx))[p]? = some v →
      v.txHash ≠ u.txHash := by
    apply (first_report_iff hmarks hq).mp
    rwa [hrank, ← hkept, huhash]
  obtain ⟨hbefore, hunique⟩ := hgap q u hq hu hfresh
  have hqj : before.length = q := by
    rw [← hrank]
    exact rank_eq_of_marked fun p hp => (executes_iff hmarks p).mp (hbefore p hp)
  have htu : tx = u := hunique tx htxs (hhash.trans huhash.symm)
  obtain ⟨t, ht, hst⟩ := (gatherTxs_stamps txHashs out s s' hgather
    fun g' hg' v hv => (hbatch g' hg' v hv).2).2 before.length g tx hj hnot hl
  refine ⟨q, t, hq, hqj ▸ ht, ?_, hst⟩
  rw [hqj, hout q] at ht
  rw [List.getElem?_map] at hu
  obtain ⟨t₀, ht₀, rfl⟩ := Option.map_eq_some_iff.mp hu
  rw [ht₀] at ht
  rw [htu, ← Option.some.inj ht, executionStamp_tx]
  rfl

/-- A clock that shows the position of the transaction. -/
def positionClock : Clock := ⟨fun j => j, fun j => j⟩

/-- The proposer with one transaction in `AllocatedTxpool`. -/
def poolOf (tx : Transaction) : Sys :=
  { freshStart 1 [] with allocatedTxpool := Finmap.insert tx.txHash tx ∅ }

theorem poolOf_lookup {tx u : Transaction} {g : Hash}
    (h : (poolOf tx).allocatedTxpool.lookup g = some u) : u = tx ∧ tx.txHash = g := by
  by_cases heq : g = tx.txHash
  · subst heq
    rw [poolOf, Finmap.lookup_insert] at h
    exact ⟨(Option.some.inj h).symm, rfl⟩
  · rw [poolOf, Finmap.lookup_insert_of_ne _ heq] at h
    cases h

/-- With a clock that tells positions apart, the stamps of a transaction show where they were
taken from; a gap before a transaction of the batch makes that the wrong place. -/
theorem gapless_of_aligned {f : FollowerNode} {ts : List TimedTx}
    (h : ∀ u ∈ ts.map (·.tx), Aligned positionClock f ts (poolOf u)) :
    Gapless f (ts.map (·.tx)) := by
  intro q tx hq htx hfresh
  obtain ⟨marks, hmarks⟩ := executes_marks hq
  obtain ⟨⟨f', txHashs, out⟩, hproc⟩ := processTxs_of_marks positionClock hmarks
  obtain ⟨marks', hmarks', hkept, hout⟩ := processTxs_marks hproc
  obtain rfl : marks = marks' := Option.some.inj (hmarks.symm.trans hmarks')
  have hhashes : ts.map (·.tx.txHash) = (ts.map (·.tx)).map (·.txHash) := by
    rw [List.map_map]
    rfl
  rw [hhashes] at hkept
  have hreport := reported_at_rank hmarks hq htx
  have hnot := (first_report_iff hmarks hq).mpr hfresh
  rw [← hkept] at hreport hnot
  -- every transaction of the batch with this hash is the one at position `q`, and its rank is `q`
  have hself : ∀ u ∈ ts.map (·.tx), u.txHash = tx.txHash → rank marks q = q ∧ u = tx := by
    intro u hu huhash
    obtain ⟨-, -, hlen, hsub⟩ := processTxs_shape hproc
    have hle : txHashs.length ≤ out.length := by
      have h1 := hsub.length_le
      have h2 := congrArg List.length hlen
      simp only [List.length_map] at h1 h2
      omega
    obtain ⟨s', hs'⟩ := gatherTxs_isSome txHashs out (poolOf u) hle
    obtain ⟨pool, moved, times, hres, hs'eq⟩ := gatherTxs_some txHashs out _ s' hs'
    have hl : (poolOf u).allocatedTxpool.lookup tx.txHash = some u := by
      rw [← huhash]
      exact Finmap.lookup_insert _
    have hmoved : u ∈ moved :=
      hres.complete tx.txHash (List.mem_of_getElem? hreport) u hl
    obtain ⟨t, ht, hst⟩ := (gatherTxs_stamps txHashs out _ s' hs'
      fun g _ v hv => by rw [(poolOf_lookup hv).1]; exact (poolOf_lookup hv).2).2
        (rank marks q) tx.txHash u hreport hnot hl
    obtain ⟨k, t', hk, ht', hown, hst'⟩ :=
      h u hu f' txHashs out s' moved hproc hs' (by rw [hs'eq]) u hmoved
    -- both stamps are readings at the positions they come from
    have hallocate : ∀ {j : ℕ} {t : TimedTx}, out[j]? = some t → t.times.allocateTime = j := by
      intro j t hj
      rw [hout j] at hj
      obtain ⟨t₀, -, rfl⟩ := Option.map_eq_some_iff.mp hj
      exact executionStamp_allocateTime _ _ _ _ _
    have hkq : k = rank marks q := by
      rw [← hallocate ht', ← hallocate ht, ← hst'.1, ← hst.1]
    have hku : (ts.map (·.tx))[k]? = some u := by
      rw [hout k] at ht'
      obtain ⟨t₀, ht₀, rfl⟩ := Option.map_eq_some_iff.mp ht'
      rw [List.getElem?_map, ht₀, ← hown, executionStamp_tx]
      rfl
    have hkeq : k = q := by
      rcases Nat.lt_or_eq_of_le (hkq ▸ rank_le marks q) with hlt | heq
      · exact absurd huhash (hfresh k hlt hk u hku)
      · exact heq
    rw [hkeq] at hku
    exact ⟨hkq.symm.trans hkeq, Option.some.inj (hku.symm.trans htx)⟩
  refine ⟨?_, fun u hu huhash => (hself u hu huhash).2⟩
  intro p hp
  have hrank := (hself tx (List.mem_of_getElem? htx) rfl).1
  exact (executes_iff hmarks p).mpr (marked_of_rank_eq hrank p hp)

/-- A transfer of more than the balance, and one behind it. -/
def gapBatch : List TimedTx :=
  [⟨⟨"1a", "2b", 0, initBalance + 1, [1]⟩, ⟨0, 0, 0⟩⟩, ⟨⟨"3c", "4d", 0, 5, [2]⟩, ⟨0, 0, 0⟩⟩]

end Aster.SubMPT
