import Aster.SubMPT.Inclusion

/-!
# The scheduling loop keeps its token

The loop of `RunProposerNode` is driven by one token: a scheduling signal, the parts of an epoch
that are under way, or a `blockGenerate`.  `SchedulingTxs` and `blockGenerate` each have a path
that takes the token and does not hand it on: the tenth empty round, which waits for itself on
`stopchan`, and a `blockGenerate` that makes no block.  In every run without these two, and
without a panic, the token is never lost.

`SchedulingTxs` calls `wg.Add(1)` after it has started a `TxAllocate` goroutine.
`wait_group_negative_iff` says when the goroutine's `wg.Done` comes too early, and that `wg.Wait`
does not return too early.
-/

namespace Aster.SubMPT

open Aster.Core Aster.Lib Aster.Lib.Transition

variable {cfg : Config} {n : ℕ} {feed : List Transaction} {guard : Sys → Label → Prop}
  {s s' : Sys} {l : Label}

/-- The proposer has not stopped its followers, no signal is there or to come, nothing of an
epoch is under way and no `blockGenerate` runs. -/
def Stuck (s : Sys) : Prop :=
  s.main ≠ .stopped ∧ s.signals = 0 ∧ s.pieces = [] ∧ s.generating = []

instance (s : Sys) : Decidable (Stuck s) := inferInstanceAs (Decidable (_ ∧ _))

/-- The condition on a step: the token is handed on and nothing panics. -/
def handsOn (cfg : Config) (s : Sys) : Label → Prop
  | .schedule _ => (s.pendingTxpool = [] → s.poollencount < 9) ∧
      ∀ tx ∈ localTxpool cfg s, prefixes tx ≠ .outOfRange
  | .insert _ => 0 < s.wg
  | .generate _ _ =>
      s.processedTxpool ≠ [] ∧ s.curChain.currentBlock.hash ∉ s.blockHashGenDone
  | _ => True

instance (cfg : Config) (s : Sys) : (l : Label) → Decidable (handsOn cfg s l)
  | .schedule _ => inferInstanceAs (Decidable (_ ∧ _))
  | .insert _ => inferInstanceAs (Decidable (0 < s.wg))
  | .generate _ _ => inferInstanceAs (Decidable (_ ∧ _))
  | .inject _ | .stop | .launch _ | .addWg | .send _ | .endScheduling | .process _ _ |
    .gather _ | .record _ => inferInstanceAs (Decidable True)

/-- The main goroutine runs, and the token is somewhere. -/
structure ProgressInv (s : Sys) : Prop where
  alive : s.alive = true
  token : s.pieces = [] → 0 < s.signals + s.generating.length

/-- Steps that only move the parts of an epoch. -/
theorem ProgressInv.of_length (hi : ProgressInv s) (hm : s'.main = s.main)
    (hp : s'.pieces.length = s.pieces.length) (hs : s'.signals = s.signals)
    (hg : s'.generating = s.generating) : ProgressInv s' := by
  refine ⟨?_, fun hnil => ?_⟩
  · rw [Sys.alive, hm]
    exact hi.alive
  · rw [hs, hg]
    rw [hnil] at hp
    exact hi.token (List.length_eq_zero_iff.mp hp.symm)

theorem progressInv_step (hcfg : cfg.Standard n) (hr : Runs cfg n feed guard s)
    (hi : ProgressInv s) (hg : handsOn cfg s l) (h : Step cfg s l s') : ProgressInv s' := by
  cases h with
  | emptyRound order main signals hsel hsig hp hround =>
    have hlt := hg.1 hp
    rcases hround with ⟨h9, -, -⟩ | ⟨-, rfl, rfl⟩
    · omega
    · exact ⟨rfl, hi.token⟩
  | badBatch order _ _ _ hperm hnone =>
    exact absurd hnone
      (allocTxs_ne_none hcfg fun tx htx => hg.2 tx (hperm.mem_iff.mp htx))
  | batch order allocMap _ hsig =>
    refine ⟨rfl, fun hnil => ?_⟩
    rw [pieces_batch hcfg ((tokenInv hcfg hr).no_pieces (.inl hsig)).1] at hnil
    have hlen := congrArg List.length hnil
    simp only [List.length_map, List.length_range, List.length_nil] at hlen
    exact absurd hlen hcfg.pos.ne'
  | launch k batch a _ _ ha =>
    refine hi.of_length rfl ?_ rfl rfl
    have hlen := length_of_getElem? ha
    simp only [Sys.pieces, List.length_append, List.length_map, List.length_singleton]
    omega
  | endScheduling batch hm => exact ⟨rfl, hi.token⟩
  | send k a _ ha =>
    refine hi.of_length rfl ?_ rfl rfl
    have hlen := length_of_getElem? ha
    simp only [Sys.pieces, List.length_append, List.length_map, List.length_singleton]
    omega
  | skip k a main wg _ ha hready => exact absurd ((callsInv hcfg hr).ready hcfg ha) hready
  | insert k a main wg _ ha hd =>
    have hpos : 0 < s.wg := hg
    rcases hd with ⟨h0, -, -⟩ | ⟨-, rfl, rfl⟩
    · omega
    · exact ⟨hi.alive, hi.token⟩
  | process k clk m f' txHashs txs hm =>
    refine hi.of_length rfl ?_ rfl rfl
    have hlen := length_of_getElem? hm
    simp only [Sys.pieces, List.length_append, List.length_map, List.length_singleton]
    omega
  | gatherPanic k r _ hrep hlen =>
    have hle := (callsInv hcfg hr).reply_length
      (List.mem_append_left _ (List.mem_of_getElem? hrep))
    omega
  | gather k r pool moved times _ hrep =>
    refine hi.of_length rfl ?_ rfl rfl
    have hlen := length_of_getElem? hrep
    simp only [Sys.pieces, receive, List.length_append, List.length_map, List.length_singleton]
    omega
  | record k r _ hk =>
    refine ⟨hi.alive, fun hnil => ?_⟩
    rw [(tokenInv hcfg hr).record_generating hcfg hk, if_pos hnil]
    exact Nat.succ_pos _
  | noBlock k e now _ _ hno =>
    rcases hno with hno | hno
    · exact absurd hno hg.2
    · exact absurd hno hg.1
  | block k e now b done chain _ _ =>
    refine ⟨hi.alive, fun _ => ?_⟩
    show 0 < s.signals + 1 + (s.generating.eraseIdx k).length
    omega
  | _ => exact ⟨hi.alive, hi.token⟩

/-- **The scheduling loop is never stuck** in a run in which the pool is not empty ten rounds in
a row, every `blockGenerate` finds transactions on a head without successor, and nothing
panics. -/
theorem scheduling_never_stuck (hcfg : cfg.Standard n) (h : Runs cfg n feed (handsOn cfg) s) :
    s.alive = true ∧ ¬ Stuck s := by
  have hi : ProgressInv s := by
    refine h.invariant ?_ fun s s' l hr hi hg hs => progressInv_step hcfg hr hi hg hs
    rintro s ⟨times, chain, followers, rfl, -⟩
    exact ⟨rfl, fun _ => Nat.zero_lt_one⟩
  refine ⟨hi.alive, ?_⟩
  rintro ⟨-, hsig, hp, hgen⟩
  have htok := hi.token hp
  rw [hsig, hgen] at htok
  exact absurd htok (Nat.lt_irrefl 0)

/-- After the orderly epoch a new signal is due. -/
theorem scheduling_never_stuck_orderly :
    ∃ s, Runs (standardConfig 2) 2 [crossTx 5] (handsOn (standardConfig 2)) s ∧
      s.signals = 1 ∧ s.alive = true ∧ ¬ Stuck s := by
  obtain ⟨s, hr, hp⟩ := exists_reach_of_run (orderlyEpoch (crossTx 5))
    (fun s : Sys => s.signals = 1)
    (fresh_runs 2 [crossTx 5] (handsOn (standardConfig 2))) (by decide +kernel)
  exact ⟨s, hr, hp, scheduling_never_stuck (standardConfig_standard (by decide)) hr⟩

/-- Two ways to be stuck: an epoch whose only transaction is refused, after which
`blockGenerate` does not signal, and the tenth empty round. -/
theorem scheduling_stuck :
    (∃ s, Runs (standardConfig 1) 1 [localTx (initBalance + 1)] anyStep s ∧
      s.main = .select ∧ Stuck s) ∧
    ∃ s, Runs (standardConfig 1) 1 [] anyStep s ∧ s.main = .stopping ∧ Stuck s :=
  ⟨exists_reach_of_run
      [.inject 0, .schedule [localTx (initBalance + 1)], .launch 0, .addWg, .send 0, .insert 0,
        .endScheduling, .process 0 ⟨id, id⟩, .gather 0, .record 0, .generate 0 0]
      (fun s : Sys => s.main = .select ∧ Stuck s)
      (fresh_runs 1 [localTx (initBalance + 1)] anyStep) (by decide +kernel),
    exists_reach_of_run (List.replicate 10 (.schedule []))
      (fun s : Sys => s.main = .stopping ∧ Stuck s) (fresh_runs 1 [] anyStep)
      (by decide +kernel)⟩

/-! ### The `WaitGroup` -/

/-- The step ends with the `wg.Done` of a `TxAllocate` goroutine. -/
def finishes (cfg : Config) (s : Sys) : Label → Prop
  | .send k => ∀ a ∈ s.starting[k]?, a.followerID ∉ cfg.readyMap
  | .insert _ => True
  | _ => False

theorem WgDone.crashed_iff {main : MainState} {wg : ℕ} (h : WgDone s main wg)
    (hm : s.main ≠ .crashed) : main = .crashed ↔ s.wg = 0 := by
  rcases h with ⟨hw, hmain, -⟩ | ⟨hw, hmain, -⟩
  · simp [hw, hmain]
  · rw [hmain]
    exact ⟨fun hc => absurd hc hm, fun hzero => by omega⟩

/-- With a goroutine that is not done, the counter is zero only before the first `wg.Add(1)` that
counts it. -/
theorem TasksInv.wg_eq_zero_iff (hi : TasksInv s) (hm : s.main ≠ .crashed)
    (hpos : 0 < s.starting.length + s.inserting.length) :
    s.wg = 0 ↔ s.adding = true ∧ s.starting.length + s.inserting.length = 1 := by
  have hc := hi.counted hm
  cases hadd : s.adding with
  | false =>
    rw [hadd, Bool.toNat_false] at hc
    simp
    omega
  | true =>
    rw [hadd, Bool.toNat_true] at hc
    simp
    omega

/-- **The `WaitGroup` of `SchedulingTxs`**, for any followers, ready or not, and any interleaving.
A `wg.Done` makes the counter negative, which is a panic, exactly if it is that of the only
`TxAllocate` goroutine that is not done and the loop has not yet called `wg.Add(1)` for the last
one that it started.  When `wg.Wait` returns, every goroutine is done. -/
theorem wait_group_negative_iff (h : Runs cfg n feed guard s) :
    (∀ l s', step cfg s l = some s' → finishes cfg s l → (s'.main = .crashed ↔ s.wg = 0) ∧
      (s.wg = 0 ↔ s.adding = true ∧ s.starting.length + s.inserting.length = 1)) ∧
    ∀ s', step cfg s .endScheduling = some s' →
      s'.launching = [] ∧ s'.starting = [] ∧ s'.inserting = [] := by
  have hi := tasksInv h
  refine ⟨fun l s' hs hf => ?_, fun s' hs => ?_⟩
  · cases step_cases hs with
    | send k a hm ha hready => exact absurd hready (hf a ha)
    | skip k a main wg hm ha hready hd =>
      have hlen := length_of_getElem? ha
      exact ⟨hd.crashed_iff hm, hi.wg_eq_zero_iff hm (by omega)⟩
    | insert k a main wg hm ha hd =>
      have hlen := length_of_getElem? ha
      exact ⟨hd.crashed_iff hm, hi.wg_eq_zero_iff hm (by omega)⟩
    | _ => exact absurd hf id
  · cases step_cases hs with
    | endScheduling batch hm hl hadd hw =>
      exact (tasksInv_step hi (step_cases hs)).none_left (.inl rfl)

/-- With `wg.Add(1)` before its insert, the goroutine of a single follower ends well. -/
theorem wait_group_negative_iff_counted :
    ∃ s s', Runs (standardConfig 1) 1 [localTx 5] anyStep s ∧
      step (standardConfig 1) s (.insert 0) = some s' ∧ s'.main ≠ .crashed := by
  obtain ⟨s, hr, hw, henabled⟩ := exists_reach_of_run
    [.inject 0, .schedule [localTx 5], .launch 0, .addWg, .send 0]
    (fun s : Sys => s.wg = 1 ∧ (step (standardConfig 1) s (.insert 0)).isSome = true)
    (fresh_runs 1 [localTx 5] anyStep) (by decide +kernel)
  obtain ⟨s', hs⟩ := Option.isSome_iff_exists.mp henabled
  refine ⟨s, s', hr, hs, fun hc => ?_⟩
  have hzero := (((wait_group_negative_iff hr).1 _ s' hs trivial).1).mp hc
  omega

/-- One follower, ready, or not in `ReadyMap`: its goroutine is done before `wg.Add(1)`. -/
theorem wait_group_negative :
    (∃ s, Runs (standardConfig 1) 1 [localTx 5] anyStep s ∧ s.adding = true ∧ s.wg = 0 ∧
      (step (standardConfig 1) s (.insert 0)).map Sys.main = some .crashed) ∧
    ∃ s, Runs { standardConfig 1 with readyMap := ∅ } 1 [localTx 5] anyStep s ∧
      s.adding = true ∧ s.wg = 0 ∧
      (step { standardConfig 1 with readyMap := ∅ } s (.send 0)).map Sys.main =
        some .crashed :=
  ⟨exists_reach_of_run [.inject 0, .schedule [localTx 5], .launch 0, .send 0]
      (fun s : Sys => s.adding = true ∧ s.wg = 0 ∧
        (step (standardConfig 1) s (.insert 0)).map Sys.main = some .crashed)
      (fresh_runs 1 [localTx 5] anyStep) (by decide +kernel),
    exists_reach_of_run [.inject 0, .schedule [localTx 5], .launch 0]
      (fun s : Sys => s.adding = true ∧ s.wg = 0 ∧
        (step { standardConfig 1 with readyMap := ∅ } s (.send 0)).map Sys.main = some .crashed)
      (.start (freshStart_starts 1 [localTx 5])) (by decide +kernel)⟩

end Aster.SubMPT
