import Aster.Pbft.Votes

/-!
# Handlers that wait

A handler can wait in two places, with `tcpPoolLock` held: `handleCommit` for `askForLock`, which
only `handleSendOldSeq` releases, and `WaitToStop` of the main node for `Propose`, which may itself
wait for `sequenceLock`, which only `handleCommit` releases.

* `blocked_of_waitAskFor`: a backup that waits for `askForLock` while it is taken waits for ever.
* **`no_handler_blocked`**: no handler waits for ever as long as neither wait is entered while its
  lock is taken.
-/

namespace Aster.Pbft

open Aster.Core Aster.Chain Aster.Lib.Transition Node

/-- A handler waits. -/
def Waiting (n : Node) : Prop := n.status = .waitStop ∨ ∃ seqEnd, n.status = .waitAskFor seqEnd

/-- Whatever happens, the handler still waits. -/
def BlockedForEver (cfg : PbftConfig) (s : Replica) : Prop :=
  ∀ s', Reach (replicaStep cfg) anyStep (· = s) s' → Waiting s'.node

variable {cfg : PbftConfig}

theorem replicaStep_cases {s s' : Replica} {mv : Move} (h : replicaStep cfg s mv = some s') :
    ∃ out, s.node.move cfg mv = some (s'.node, out) := by
  obtain ⟨⟨n', out⟩, hmove, rfl⟩ := Option.map_eq_some_iff.mp h
  exact ⟨out, hmove⟩

/-! ### Handlers that come to their end -/

/-- The handler has ended or panicked, and `Propose` is where it was. -/
structure Ended (n n' : Node) : Prop where
  proposing : n'.proposing = n.proposing
  status : n'.status = n.status ∨ n'.status = .crashed

section Ended

variable {n n' n'' : Node} {out : List Packet}

theorem Ended.refl (n : Node) : Ended n n := ⟨rfl, .inl rfl⟩

theorem Ended.trans (h : Ended n n') (h' : Ended n' n'') : Ended n n'' := by
  refine ⟨h'.proposing.trans h.proposing, ?_⟩
  rcases h'.status with heq | hcrash
  · rw [heq]
    exact h.status
  · exact .inr hcrash

theorem Ended.crash (n : Node) : Ended n n.crash := ⟨rfl, .inr rfl⟩

theorem ended_unlockSequence (n : Node) : Ended n n.unlockSequence := by
  rcases unlockSequence_cases n with heq | heq | heq
  · rw [heq]
    exact .refl n
  · rw [heq]
    exact ⟨rfl, .inl rfl⟩
  · rw [heq]
    exact .crash n

theorem ended_handleinPrePrepare {digest : Digest} {r : Option Request} {flag : Bool}
    (h : n.handleinPrePrepare cfg digest r = some (n', flag)) : Ended n n' := by
  rcases handleinPrePrepare_cases h with rfl | rfl
  · exact .refl n'
  · exact ⟨rfl, .inl rfl⟩

theorem ended_handlePrePrepare {m : PrePrepare} (h : n.handlePrePrepare cfg m = (n', out)) :
    Ended n n' := by
  rcases handlePrePrepare_cases h with ⟨rfl, -⟩ | ⟨rfl, -⟩ | ⟨-, rfl, -⟩
  · exact .refl n'
  · exact .crash n
  · exact ⟨rfl, .inl rfl⟩

theorem ended_handlePrepare {v : Vote} (h : n.handlePrepare cfg v = (n', out)) : Ended n n' := by
  rcases handlePrepare_cases h with ⟨rfl, -⟩ | ⟨rfl, -⟩ | ⟨-, -, rfl, -⟩
  · exact .refl n'
  · exact ⟨rfl, .inl rfl⟩
  · exact ⟨rfl, .inl rfl⟩

theorem ended_execute (v : Vote) (r : Option Request) : Ended n (n.execute cfg v r) := by
  rcases execute_cases cfg n v r with heq | ⟨req, b, ledger, ok, -, -, -, heq | heq⟩
  · rw [heq]
    exact ⟨rfl, .inr rfl⟩
  · rw [heq]
    exact ⟨rfl, .inr rfl⟩
  · rw [heq]
    have hround : Ended n (n.afterRound v ledger) := ⟨rfl, .inl rfl⟩
    exact hround.trans (ended_unlockSequence _)

theorem ended_storeOld (rs : List (Option Request)) (height : UInt64) :
    Ended n (storeOld cfg n rs height) := by
  induction rs generalizing n height with
  | nil => exact .refl n
  | cons r rs ih =>
    have hone : Ended n { n.store (cfg.getDigest r) r height with
        isReply := insert (cfg.getDigest r) n.isReply } := ⟨rfl, .inl rfl⟩
    exact hone.trans (ih (height + 1))

theorem ended_handleSendOldSeq {m : SendOldMessage} (h : n.handleSendOldSeq cfg m = (n', out)) :
    Ended n n' := by
  rcases handleSendOldSeq_cases h with ⟨rfl, -⟩ | ⟨n₁, hseq, hend⟩
  · exact .crash n
  · have hfirst : Ended n n₁ := by
      rcases handleforSequentialRequest_cases hseq with rfl | ⟨k, ledger, -, rfl⟩
      · exact .refl n₁
      · exact ⟨rfl, .inl rfl⟩
    have hloop : Ended n₁ (n₁.afterOld cfg m) :=
      (ended_storeOld m.oldRequest m.seqStartHeight).trans ⟨rfl, .inl rfl⟩
    have hstored := hfirst.trans hloop
    rcases hend with ⟨rfl, -⟩ | ⟨n₂, hnext, hlast⟩
    · exact hstored.trans (.crash _)
    · have hprepared : Ended (n₁.afterOld cfg m) n₂ := by
        rcases prepareNext_cases hnext with ⟨rfl, -⟩ | ⟨d, r, flag, -, -, hin, -⟩
        · exact .refl _
        · exact ended_handleinPrePrepare hin
      refine (hstored.trans hprepared).trans ?_
      rcases hlast with rfl | rfl
      · exact ⟨rfl, .inl rfl⟩
      · exact .crash n₂

theorem ended_askFor {seqEnd : UInt64} (hrun : n.status = .running) (hfree : n.askForLock = false)
    (h : n.askFor seqEnd = (n', out)) : Ended n n' := by
  rcases askFor_cases h with ⟨htaken, -⟩ | ⟨-, rfl, -⟩
  · rw [hfree] at htaken
    cases htaken
  · have htaken : Ended n { n with askForLock := true, status := .running } :=
      ⟨rfl, .inl hrun.symm⟩
    exact htaken.trans (ended_unlockSequence _)

end Ended

/-! ### Runs in which no wait is entered with its lock taken -/

/-- This commit makes the node ask for a request it does not have. -/
def asksFor (cfg : PbftConfig) (n : Node) (v : Vote) : Prop :=
  v.sender ≠ none ∧ 2 * cfg.f ≤ (addKey (n.cntCommitConfirm v.digest) v.sender).length ∧
    v.digest ∉ n.isReply ∧ v.digest ∉ n.requestPool

instance (n : Node) (v : Vote) : Decidable (asksFor cfg n v) := inferInstanceAs (Decidable (_ ∧ _))

/-- A commit that asks for a request comes while `askForLock` is free, and a stop message comes to
the main node while `Propose` is not waiting for `sequenceLock`. -/
def LocksFree (cfg : PbftConfig) (s : Replica) : Move → Prop
  | .handle (.commit v) => asksFor cfg s.node v → s.node.askForLock = false
  | .handle .stop =>
      ¬ (s.node.nodeID = view ∧ s.node.proposing = .locking ∧ s.node.sequenceLock = true)
  | _ => True

instance (s : Replica) : (mv : Move) → Decidable (LocksFree cfg s mv)
  | .handle (.commit v) =>
      inferInstanceAs (Decidable (asksFor cfg s.node v → s.node.askForLock = false))
  | .handle .stop => inferInstanceAs (Decidable (¬ (_ ∧ _ ∧ _)))
  | .handle (.prePrepare _) | .handle (.prepare _) | .handle (.requestOld _)
  | .handle (.sendOld _) | .handle (.outside _) | .resume | .propose _ | .fill _ =>
      inferInstanceAs (Decidable True)

theorem ended_handleCommit {n n' : Node} {v : Vote} {out : List Packet}
    (hrun : n.status = .running) (hfree : asksFor cfg n v → n.askForLock = false)
    (h : n.handleCommit cfg v = (n', out)) : Ended n n' := by
  rcases handleCommit_cases h with ⟨-, rfl, -⟩ | ⟨hsender, hcounted⟩
  · exact .crash n
  · rcases hcounted with ⟨rfl, -⟩ | ⟨henough, hfirst, ⟨hmissing, hask⟩ | ⟨r, -, rfl, -⟩⟩
    · exact ⟨rfl, .inl rfl⟩
    · have hpool : v.digest ∉ n.requestPool := Finmap.lookup_eq_none.mp hmissing
      have hlock := hfree ⟨hsender, henough, hfirst, hpool⟩
      have hmark : Ended n { n.voteCommit v with
          isReply := insert v.digest n.isReply } := ⟨rfl, .inl rfl⟩
      exact hmark.trans (ended_askFor hrun hlock hask)
    · have hvote : Ended n (n.voteCommit v) := ⟨rfl, .inl rfl⟩
      exact hvote.trans (ended_execute v r)

theorem ended_handle {s : Replica} {m : Msg} {n' : Node} {out : List Packet}
    (hrun : s.node.status = .running) (hg : LocksFree cfg s (.handle m)) (hstop : m ≠ .stop)
    (h : s.node.handle cfg m = (n', out)) : Ended s.node n' := by
  cases m with
  | prePrepare m => exact ended_handlePrePrepare h
  | prepare v => exact ended_handlePrepare h
  | commit v => exact ended_handleCommit hrun hg h
  | requestOld m =>
    rcases handleRequestOldSeq_cases h with ⟨rfl, -⟩ | ⟨-, rfl, -⟩ | ⟨j, -, rfl, -⟩
    · exact .refl _
    · exact .crash _
    · exact .refl _
  | sendOld m => exact ended_handleSendOldSeq h
  | stop => exact absurd rfl hstop
  | outside addsTxs =>
    obtain ⟨rfl | rfl, -⟩ := outside_cases h
    · exact .refl _
    · exact .crash _

/-- No handler waits for `askForLock`.  When the stop signal waits, `Propose` can take it, at once
or after one more block; and `Propose` has returned only when the node has stopped. -/
structure Unblocked (n : Node) : Prop where
  asks : ∀ seqEnd, n.status ≠ .waitAskFor seqEnd
  stops : n.status = .waitStop → n.nodeID = view ∧
    (n.proposing = .select ∨ n.proposing = .locking ∧ n.sequenceLock = false)
  proposes : n.nodeID = view → n.status = .running → n.proposing ≠ .returned

theorem unblocked_start (nodeID : ℕ) (curChain : Ledger) :
    Unblocked (newPbftNode nodeID curChain) := by
  constructor
  case asks =>
    intro seqEnd h
    cases h
  case stops =>
    intro h
    cases h
  case proposes =>
    intro hid _ h
    have hselect : (newPbftNode nodeID curChain).proposing = .select := if_pos hid
    rw [hselect] at h
    cases h

/-- A node whose handler has ended, or whose process has, is not blocked. -/
theorem unblocked_of_status {n : Node} (hstatus : n.status = .running ∨ n.status = .crashed)
    (hpropose : n.nodeID = view → n.status = .running → n.proposing ≠ .returned) :
    Unblocked n := by
  refine ⟨?_, ?_, hpropose⟩
  · intro seqEnd h
    rw [h] at hstatus
    rcases hstatus with h | h <;> cases h
  · intro h
    rw [h] at hstatus
    rcases hstatus with h | h <;> cases h

/-- The process ends, or `Propose` is back at its `select`. -/
theorem proposeBlock_status (cfg : PbftConfig) (n : Node) (now : Time) :
    (n.proposeBlock cfg now).1.status = .crashed ∨
      ((n.proposeBlock cfg now).1.status = n.status ∧
        (n.proposeBlock cfg now).1.proposing = .select ∧
        (n.proposeBlock cfg now).1.nodeID = n.nodeID) := by
  unfold proposeBlock
  cases generateBlock cfg.chain n.curChain 0 now with
  | none => exact .inl rfl
  | some res => exact .inr ⟨rfl, rfl, rfl⟩

theorem unblocked_propose {n n' : Node} {now : Time} {out : List Packet} (h : Unblocked n)
    (hpropose : n.propose cfg now = some (n', out)) : Unblocked n' := by
  obtain ⟨hid, -, hcases⟩ := propose_cases hpropose
  rcases hcases with ⟨-, -, rfl, -⟩ | ⟨-, hwait, rfl, -⟩ | ⟨-, -, hblock⟩
  · refine ⟨?_, ?_, ?_⟩
    · intro seqEnd hstatus
      cases hstatus
    · intro hstatus
      cases hstatus
    · intro _ hstatus
      cases hstatus
  · refine ⟨h.asks, fun hstatus => absurd hstatus hwait, ?_⟩
    intro _ _ hreturned
    cases hreturned
  · obtain rfl : (n.proposeBlock cfg now).1 = n' := congrArg Prod.fst hblock
    rcases proposeBlock_status cfg n now with hcrash | ⟨hstatus, hselect, hsame⟩
    · refine unblocked_of_status (.inr hcrash) ?_
      intro _ hrun
      rw [hcrash] at hrun
      cases hrun
    · refine ⟨?_, ?_, ?_⟩
      · rw [hstatus]
        exact h.asks
      · exact fun _ => ⟨hsame.trans hid, .inl hselect⟩
      · intro _ _ hreturned
        rw [hselect] at hreturned
        cases hreturned

theorem unblocked_stop {s : Replica} (h : Unblocked s.node) (hrun : s.node.status = .running)
    (hg : LocksFree cfg s (.handle .stop)) : Unblocked s.node.waitToStop := by
  by_cases hid : s.node.nodeID = view
  · have hstatus : s.node.waitToStop.status = .waitStop := if_pos hid
    refine ⟨?_, ?_, ?_⟩
    · intro seqEnd hask
      rw [hstatus] at hask
      cases hask
    · intro _
      refine ⟨hid, ?_⟩
      show s.node.proposing = .select ∨ s.node.proposing = .locking ∧ s.node.sequenceLock = false
      cases hpropose : s.node.proposing with
      | select => exact .inl rfl
      | locking =>
        refine .inr ⟨rfl, ?_⟩
        exact Bool.eq_false_iff.mpr fun hlock => hg ⟨hid, hpropose, hlock⟩
      | returned => exact absurd hpropose (h.proposes hid hrun)
    · intro _ hrunning
      rw [hstatus] at hrunning
      cases hrunning
  · have hstatus : s.node.waitToStop.status = .stopped := if_neg hid
    refine ⟨?_, ?_, fun hmain => absurd hmain hid⟩
    · intro seqEnd hask
      rw [hstatus] at hask
      cases hask
    · intro hwait
      rw [hstatus] at hwait
      cases hwait

theorem unblocked_step {s s' : Replica} {mv : Move} (h : Unblocked s.node)
    (hg : LocksFree cfg s mv) (hstep : replicaStep cfg s mv = some s') : Unblocked s'.node := by
  obtain ⟨out, hmove⟩ := replicaStep_cases hstep
  have hid := (move_ballots hmove).nodeID_eq
  cases mv with
  | handle m =>
    obtain ⟨hrun, hres⟩ := move_handle hmove
    by_cases hstop : m = .stop
    · subst hstop
      have hnode : s.node.waitToStop = s'.node := congrArg Prod.fst hres
      rw [← hnode]
      exact unblocked_stop h hrun hg
    · have hended := ended_handle hrun hg hstop hres
      refine unblocked_of_status (by rw [← hrun]; exact hended.status) ?_
      intro hmain _
      rw [hended.proposing]
      exact h.proposes (hid ▸ hmain) hrun
  | resume =>
    obtain ⟨seqEnd, hask, -, -⟩ := move_resume hmove
    exact absurd hask (h.asks seqEnd)
  | propose now => exact unblocked_propose h hmove
  | fill txs =>
    obtain ⟨hnode, -⟩ := move_fill hmove
    rw [hnode]
    exact ⟨h.asks, h.stops, h.proposes⟩

theorem unblocked_of_run {s : Replica} (h : Reach (replicaStep cfg) (LocksFree cfg) AtStart s) :
    Unblocked s.node := by
  induction h with
  | start hs =>
    obtain ⟨nodeID, curChain, rfl⟩ := hs
    exact unblocked_start nodeID curChain
  | next _ hg hstep ih => exact unblocked_step ih hg hstep

/-! ### Waiting for ever -/

theorem BlockedForEver.next {s s' : Replica} {mv : Move} (h : BlockedForEver cfg s)
    (hstep : replicaStep cfg s mv = some s') : BlockedForEver cfg s' := by
  intro t ht
  refine h t ?_
  induction ht with
  | start heq =>
    subst heq
    exact .next (.start rfl) trivial hstep
  | next _ hg hnext ih => exact .next ih hg hnext

theorem BlockedForEver.waiting {s : Replica} (h : BlockedForEver cfg s) : Waiting s.node :=
  h s (.start rfl)

/-- `Propose` at its `select` takes the stop signal. -/
theorem not_blocked_of_select {s : Replica} (hid : s.node.nodeID = view)
    (hstatus : s.node.status = .waitStop) (hselect : s.node.proposing = .select) :
    ¬ BlockedForEver cfg s := by
  intro hblocked
  have hmain : ¬ (s.node.nodeID ≠ view ∨ s.node.status = .crashed) := by
    rw [hid, hstatus]
    decide
  have hmove : s.node.move cfg (.propose 0) =
      some ({ s.node with status := .stopped, proposing := .returned }, []) := by
    show s.node.propose cfg 0 = _
    rw [propose, if_neg hmain]
    simp only [hselect, hstatus, if_true]
  have hstep : replicaStep cfg s (.propose 0) = some ⟨_, s.received ++ []⟩ :=
    congrArg (Option.map _) hmove
  rcases (hblocked.next hstep).waiting with hstop | ⟨seqEnd, hask⟩
  · cases hstop
  · cases hask

/-- **No handler is blocked for ever.**  In every run in which no wait is entered while its lock
is taken, every state reached has a continuation in which no handler waits. -/
theorem no_handler_blocked {s : Replica}
    (h : Reach (replicaStep cfg) (LocksFree cfg) AtStart s) : ¬ BlockedForEver cfg s := by
  intro hblocked
  have hfree := unblocked_of_run h
  rcases hblocked.waiting with hstop | ⟨seqEnd, hask⟩
  · obtain ⟨hid, hselect | ⟨hlocking, hlock⟩⟩ := hfree.stops hstop
    · exact not_blocked_of_select hid hstop hselect hblocked
    · -- `Propose` gets the lock, and after the block it is at its `select`
      have hmain : ¬ (s.node.nodeID ≠ view ∨ s.node.status = .crashed) := by
        rw [hid, hstop]
        decide
      have hmove : s.node.move cfg (.propose 0) = some (s.node.proposeBlock cfg 0) := by
        show s.node.propose cfg 0 = _
        rw [propose, if_neg hmain]
        simp only [hlocking, hlock, Bool.false_eq_true, if_false]
      have hstep : replicaStep cfg s (.propose 0) =
          some ⟨(s.node.proposeBlock cfg 0).1, s.received ++ []⟩ :=
        congrArg (Option.map _) hmove
      have hnext := hblocked.next hstep
      rcases proposeBlock_status cfg s.node 0 with hcrash | ⟨hstatus, hselect, hsame⟩
      · rcases hnext.waiting with hwait | ⟨seqEnd, hask⟩
        · rw [hcrash] at hwait
          cases hwait
        · rw [hcrash] at hask
          cases hask
      · exact not_blocked_of_select (hsame.trans hid) (hstatus.trans hstop) hselect hnext
  · exact hfree.asks seqEnd hask

/-- The main node waits in `WaitToStop`, and not for ever. -/
theorem no_handler_blocked_stop :
    ∃ s, Reach (replicaStep (shortShard false)) (LocksFree (shortShard false)) AtStart s ∧
      s.node.status = .waitStop ∧ ¬ BlockedForEver (shortShard false) s := by
  have hstart : Reach (replicaStep (shortShard false)) (LocksFree (shortShard false)) AtStart
      ⟨newPbftNode view shortLedger, []⟩ := .start ⟨view, shortLedger, rfl⟩
  obtain ⟨s, hreach, hstatus⟩ := exists_reach_of_run [.propose 0, .handle .stop]
    (fun s => s.node.status = .waitStop) hstart (by decide +kernel)
  exact ⟨s, hreach, hstatus, no_handler_blocked hreach⟩

/-- While a handler waits, no message is handled that could release `askForLock`. -/
theorem blocked_of_waitAskFor {s : Replica} {seqEnd : UInt64} (hid : s.node.nodeID ≠ view)
    (hstatus : s.node.status = .waitAskFor seqEnd) (hlock : s.node.askForLock = true) :
    BlockedForEver cfg s := by
  intro t ht
  have hkept : t.node.nodeID ≠ view ∧ t.node.status = .waitAskFor seqEnd ∧
      t.node.askForLock = true := by
    induction ht with
    | start heq =>
      subst heq
      exact ⟨hid, hstatus, hlock⟩
    | @next t t' mv _ _ hstep ih =>
      obtain ⟨hid, hstatus, hlock⟩ := ih
      obtain ⟨out, hmove⟩ := replicaStep_cases hstep
      cases mv with
      | handle m =>
        simp only [move, hstatus] at hmove
        cases hmove
      | resume =>
        simp only [move, hstatus, hlock, if_true] at hmove
        cases hmove
      | propose now => exact absurd (propose_cases hmove).1 hid
      | fill txs =>
        have hnode : _ = t'.node := congrArg Prod.fst (Option.some.inj hmove)
        rw [← hnode]
        exact ⟨hid, hstatus, hlock⟩
  exact .inr ⟨seqEnd, hkept.2.1⟩

/-- Commits of two nodes for two requests that backup 1 does not have. -/
def missingRequests : List Move :=
  [.handle (.commit ⟨[1], 1, some 0⟩), .handle (.commit ⟨[1], 1, some 2⟩),
    .handle (.commit ⟨[2], 2, some 0⟩), .handle (.commit ⟨[2], 2, some 2⟩)]

/-- The second of them waits for `askForLock` for ever. -/
theorem handler_blocked :
    ∃ s, Reach (replicaStep (shortShard false)) anyStep AtStart s ∧
      BlockedForEver (shortShard false) s := by
  have hstart : Reach (replicaStep (shortShard false)) anyStep AtStart
      ⟨newPbftNode 1 shortLedger, []⟩ := .start ⟨1, shortLedger, rfl⟩
  obtain ⟨s, hreach, hid, hstatus, hlock⟩ := exists_reach_of_run missingRequests
    (fun s => s.node.nodeID ≠ view ∧ s.node.status = .waitAskFor 2 ∧ s.node.askForLock = true)
    hstart (by decide +kernel)
  exact ⟨s, hreach, blocked_of_waitAskFor hid hstatus hlock⟩

end Aster.Pbft
