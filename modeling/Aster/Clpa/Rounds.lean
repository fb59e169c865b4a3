import Aster.Clpa.Transfer

/-!
# The partition maps over many rounds

The leader of a shard over any number of rounds: partition messages come at any time, and
`HandleinPropose` goes through a round whenever it finds `PartitionOn`.  `sendAccounts_and_Txs`
selects accounts with the last map of `ModifiedMap`, `proposePartition` puts the map at
`AccountTransferRound` into the message, and `accountTransfer_do` sets that round to the length
`ModifiedMap` had at the proposal and takes `PartitionOn` back.  So the three name the same map only
when a message finds the round before it finished.

* Handlers are atomic and interleave in any way; `getPartitionReady` may become true at any time.
* What a block does to the chain and the pool of the leader is left open.
* `none` is a step that is not enabled, or a panic.
-/

namespace Aster.Clpa

open Aster.Core Aster.Chain Aster.Lib.Transition

/-- Where `HandleinPropose`, and the consensus on what it proposes, are. -/
inductive Phase where
  | idle
  /-- A block was proposed. -/
  | block
  /-- `sendPartitionReady` was called, and `getPartitionReady` is asked. -/
  | waiting
  /-- The accounts were sent, selected with the map `m`. -/
  | sent (m : PartitionMap)
  /-- The message `atm` was proposed. -/
  | proposed (m : PartitionMap) (atm : AccountTransferMsg)

structure LeaderRun where
  leader : Leader
  partitionOn : Bool
  phase : Phase
  /-- The maps of all partition messages, in the order of their arrival. -/
  received : List PartitionMap
  /-- For each committed message, the map that accounts were selected with and `ModifiedMap`. -/
  committed : List (PartitionMap × PartitionMap)

inductive LeaderMove
  /-- `handlePartitionMsg`. -/
  | partitionMsg (m : PartitionMap)
  /-- `handleAccountStateAndTxMsg`. -/
  | accounts (msg : AccountStateAndTx)
  /-- `handleRelay` and `handleInjectTx`. -/
  | addTxs (txs : List PoolTx)
  | proposeBlock
  | commitBlock (ledger : Ledger) (txpool : Option (List PoolTx))
  | sendPartitionReady
  | sendAccounts (keys : List Address)
  | proposePartition (js : List UInt64) (addrs : List Address)
  | commitPartition

namespace LeaderRun

variable (sh : Shards) (i : UInt64) (s : LeaderRun)

def handlePartitionMsg (m : PartitionMap) : LeaderRun :=
  { s with
    leader := { s.leader with modifiedMap := s.leader.modifiedMap ++ [m] }
    partitionOn := true
    received := s.received ++ [m] }

def addTxs (txs : List PoolTx) : Option LeaderRun := do
  let queue ← s.leader.txpool
  some { s with leader := { s.leader with txpool := some (queue ++ txs) } }

/-- The branch of `HandleinPropose` for a block. -/
def proposeBlock : Option LeaderRun :=
  match s.phase with
  | .idle => if s.partitionOn then none else some { s with phase := .block }
  | _ => none

def commitBlock (ledger : Ledger) (txpool : Option (List PoolTx)) : Option LeaderRun :=
  match s.phase with
  | .block => some { s with
      leader := { s.leader with ledger := ledger, txpool := txpool }
      phase := .idle }
  | _ => none

/-- The other branch, up to the first wait. -/
def sendPartitionReady : Option LeaderRun :=
  match s.phase with
  | .idle => if s.partitionOn then some { s with phase := .waiting } else none
  | _ => none

def sendAccounts (keys : List Address) : Option LeaderRun :=
  match s.phase with
  | .waiting => do
    let m ← s.leader.modifiedMap.getLast?
    let (leader, _) ← sendAccountsAndTxs sh i s.leader keys
    if Iterates m keys then some { s with leader := leader, phase := .sent m } else none
  | _ => none

def proposePartition (js : List UInt64) (addrs : List Address) : Option LeaderRun :=
  match s.phase with
  | .sent m =>
    if Collected sh i s.leader ∧ Iterates s.leader.accountStateTx js then do
      let (leader, atm) ← Clpa.proposePartition i s.leader js addrs
      some { s with leader := leader, phase := .proposed m atm }
    else none
  | _ => none

def commitPartition : Option LeaderRun :=
  match s.phase with
  | .proposed m atm => do
    let leader ← accountTransferDo sh i s.leader atm
    some { s with
      leader := leader
      partitionOn := false
      phase := .idle
      committed := s.committed ++ [(m, atm.modifiedMap)] }
  | _ => none

end LeaderRun

def leaderStep (sh : Shards) (i : UInt64) (s : LeaderRun) : LeaderMove → Option LeaderRun
  | .partitionMsg m => some (s.handlePartitionMsg m)
  | .accounts msg => some { s with leader := handleAccountStateAndTxMsg sh s.leader msg }
  | .addTxs txs => s.addTxs txs
  | .proposeBlock => s.proposeBlock
  | .commitBlock ledger txpool => s.commitBlock ledger txpool
  | .sendPartitionReady => s.sendPartitionReady
  | .sendAccounts keys => s.sendAccounts sh i keys
  | .proposePartition js addrs => s.proposePartition sh i js addrs
  | .commitPartition => s.commitPartition sh i

/-- A leader with a new `Data_supportCLPA`. -/
structure NewLeader (s : LeaderRun) : Prop where
  modifiedMap : s.leader.modifiedMap = []
  round : s.leader.accountTransferRound = 0
  partitionOn : s.partitionOn = false
  phase : s.phase = .idle
  received : s.received = []
  committed : s.committed = []

/-- The committed maps are the received ones, in order and from the first on, and accounts were
selected with the map that was committed. -/
structure InOrder (s : LeaderRun) : Prop where
  order : (s.committed.map (·.2)) <+: s.received
  same : ∀ c ∈ s.committed, c.1 = c.2

/-- A partition message is handled only when no round is pending. -/
def OneAtATime (s : LeaderRun) : LeaderMove → Prop
  | .partitionMsg _ => s.partitionOn = false
  | _ => True

instance (s : LeaderRun) : (move : LeaderMove) → Decidable (OneAtATime s move)
  | .partitionMsg _ => inferInstanceAs (Decidable (_ = _))
  | .accounts _ => isTrue trivial
  | .addTxs _ => isTrue trivial
  | .proposeBlock => isTrue trivial
  | .commitBlock _ _ => isTrue trivial
  | .sendPartitionReady => isTrue trivial
  | .sendAccounts _ => isTrue trivial
  | .proposePartition _ _ => isTrue trivial
  | .commitPartition => isTrue trivial

/-! ### What the calls do to the maps -/

variable {sh : Shards} {i : UInt64}

theorem sendAccountsAndTxs_maps {l l' : Leader} {keys : List Address}
    {msgs : List (UInt64 × AccountStateAndTx)}
    (h : sendAccountsAndTxs sh i l keys = some (l', msgs)) :
    l'.modifiedMap = l.modifiedMap ∧ l'.accountTransferRound = l.accountTransferRound := by
  obtain ⟨m, -, h⟩ := Option.bind_eq_some_iff.mp h
  obtain ⟨addrs, -, h⟩ := Option.bind_eq_some_iff.mp h
  obtain ⟨states, -, h⟩ := Option.bind_eq_some_iff.mp h
  obtain ⟨queue, -, h⟩ := Option.bind_eq_some_iff.mp h
  cases h
  exact ⟨rfl, rfl⟩

theorem proposePartition_maps {l l' : Leader} {js : List UInt64} {addrs : List Address}
    {atm : AccountTransferMsg} (h : proposePartition i l js addrs = some (l', atm)) :
    l'.modifiedMap = l.modifiedMap ∧ l'.accountTransferRound = l.accountTransferRound ∧
      l.modifiedMap[l.accountTransferRound]? = some atm.modifiedMap ∧
      atm.atid = l.modifiedMap.length := by
  obtain ⟨⟨received, txs⟩, -, h⟩ := Option.bind_eq_some_iff.mp h
  obtain ⟨m, hm, h⟩ := Option.bind_eq_some_iff.mp h
  by_cases herror : txs.all (belongs i m) = false
  · rw [if_pos herror] at h
    cases h
  · rw [if_neg herror] at h
    obtain ⟨queue, -, h⟩ := Option.bind_eq_some_iff.mp h
    split_ifs at h with horder
    obtain ⟨states, -, h⟩ := Option.bind_eq_some_iff.mp h
    cases h
    exact ⟨rfl, rfl, hm, rfl⟩

theorem accountTransferDo_maps {l l' : Leader} {atm : AccountTransferMsg}
    (h : accountTransferDo sh i l atm = some l') :
    l'.accountTransferRound = atm.atid ∧
      l'.modifiedMap = if l.modifiedMap.length = atm.atid then l.modifiedMap
        else l.modifiedMap ++ [atm.modifiedMap] := by
  obtain ⟨ledger, -, h⟩ := Option.bind_eq_some_iff.mp h
  cases h
  exact ⟨rfl, rfl⟩

/-! ### The invariant -/

/-- What a phase says about the maps: a round has begun, and it is about the last map. -/
def InPhase (partitionOn : Bool) (received : List PartitionMap) : Phase → Prop
  | .idle => True
  | .block => True
  | .waiting => partitionOn = true
  | .sent m => partitionOn = true ∧ received.getLast? = some m
  | .proposed m atm => partitionOn = true ∧ received.getLast? = some m ∧ atm.modifiedMap = m ∧
      atm.atid = received.length

/-- All maps but the one of a pending round were committed. -/
structure InStep (s : LeaderRun) : Prop where
  maps : s.leader.modifiedMap = s.received
  round : s.leader.accountTransferRound = s.committed.length
  same : ∀ c ∈ s.committed, c.1 = c.2
  off : s.partitionOn = false → s.received = s.committed.map (·.2)
  on : s.partitionOn = true → ∃ m, s.received = s.committed.map (·.2) ++ [m]
  phase : InPhase s.partitionOn s.received s.phase

variable {s s' : LeaderRun}

theorem NewLeader.inStep (h : NewLeader s) : InStep s where
  maps := by rw [h.modifiedMap, h.received]
  round := by rw [h.round, h.committed, List.length_nil]
  same := by
    rw [h.committed]
    exact fun c hc => absurd hc List.not_mem_nil
  off := fun _ => by rw [h.received, h.committed, List.map_nil]
  on := by
    rw [h.partitionOn]
    intro hon
    cases hon
  phase := by
    rw [h.phase]
    trivial

/-- A step of the leader that leaves the maps and the round alone. -/
theorem InStep.keep (h : InStep s) {l : Leader} {phase : Phase}
    (hmaps : l.modifiedMap = s.leader.modifiedMap)
    (hround : l.accountTransferRound = s.leader.accountTransferRound)
    (hphase : InPhase s.partitionOn s.received phase) :
    InStep { s with leader := l, phase := phase } where
  maps := hmaps.trans h.maps
  round := hround.trans h.round
  same := h.same
  off := h.off
  on := h.on
  phase := hphase

theorem InStep.handlePartitionMsg (h : InStep s) (hoff : s.partitionOn = false)
    (m : PartitionMap) : InStep (s.handlePartitionMsg m) where
  maps := by
    show s.leader.modifiedMap ++ [m] = s.received ++ [m]
    rw [h.maps]
  round := h.round
  same := h.same
  off := by
    intro hon
    cases hon
  on := fun _ => ⟨m, by
    show s.received ++ [m] = _
    rw [h.off hoff]
    rfl⟩
  phase := by
    -- no round is pending, so the phase is one of the first two
    show InPhase true (s.received ++ [m]) s.phase
    have hphase := h.phase
    rw [hoff] at hphase
    cases hp : s.phase with
    | idle => trivial
    | block => trivial
    | waiting =>
      rw [hp] at hphase
      cases hphase
    | sent m' =>
      rw [hp] at hphase
      cases hphase.1
    | proposed m' atm =>
      rw [hp] at hphase
      cases hphase.1

theorem InStep.proposeBlock (h : InStep s) (hstep : s.proposeBlock = some s') : InStep s' := by
  unfold LeaderRun.proposeBlock at hstep
  split at hstep
  · split_ifs at hstep
    cases hstep
    exact h.keep rfl rfl trivial
  · cases hstep

theorem InStep.commitBlock (h : InStep s) {ledger : Ledger} {txpool : Option (List PoolTx)}
    (hstep : s.commitBlock ledger txpool = some s') : InStep s' := by
  unfold LeaderRun.commitBlock at hstep
  split at hstep
  · cases hstep
    exact h.keep rfl rfl trivial
  · cases hstep

theorem InStep.sendPartitionReady (h : InStep s) (hstep : s.sendPartitionReady = some s') :
    InStep s' := by
  unfold LeaderRun.sendPartitionReady at hstep
  split at hstep
  · split_ifs at hstep with hon
    cases hstep
    exact h.keep rfl rfl hon
  · cases hstep

theorem InStep.sendAccounts (h : InStep s) {keys : List Address}
    (hstep : s.sendAccounts sh i keys = some s') : InStep s' := by
  unfold LeaderRun.sendAccounts at hstep
  split at hstep
  · rename_i hphase
    obtain ⟨m, hm, hstep⟩ := Option.bind_eq_some_iff.mp hstep
    obtain ⟨⟨leader, msgs⟩, hsend, hstep⟩ := Option.bind_eq_some_iff.mp hstep
    dsimp only at hstep
    split_ifs at hstep with horder
    cases hstep
    obtain ⟨hmaps, hround⟩ := sendAccountsAndTxs_maps hsend
    have hon : s.partitionOn = true := by
      have hin := h.phase
      rwa [hphase] at hin
    exact h.keep hmaps hround ⟨hon, h.maps ▸ hm⟩
  · cases hstep

/-- The map at the round is the last one, which is the one that is not committed. -/
theorem InStep.pending (h : InStep s) (hon : s.partitionOn = true) {m : PartitionMap}
    (hlast : s.received.getLast? = some m) :
    s.received = s.committed.map (·.2) ++ [m] ∧
      s.leader.modifiedMap[s.leader.accountTransferRound]? = some m := by
  obtain ⟨m', hm'⟩ := h.on hon
  rw [hm', List.getLast?_concat] at hlast
  cases hlast
  refine ⟨hm', ?_⟩
  rw [h.maps, h.round, hm', ← List.length_map (f := Prod.snd), List.getElem?_concat_length]

theorem InStep.proposePartition (h : InStep s) {js : List UInt64} {addrs : List Address}
    (hstep : s.proposePartition sh i js addrs = some s') : InStep s' := by
  unfold LeaderRun.proposePartition at hstep
  split at hstep
  · rename_i m hphase
    split_ifs at hstep with hcollected
    obtain ⟨⟨leader, atm⟩, hpropose, hstep⟩ := Option.bind_eq_some_iff.mp hstep
    cases hstep
    obtain ⟨hmaps, hround, hm, hatid⟩ := proposePartition_maps hpropose
    have hin := h.phase
    rw [hphase] at hin
    have hpending := (h.pending hin.1 hin.2).2
    refine h.keep hmaps hround ⟨hin.1, hin.2, ?_, h.maps ▸ hatid⟩
    exact Option.some.inj (hm.symm.trans hpending)
  · cases hstep

theorem InStep.commitPartition (h : InStep s) (hstep : s.commitPartition sh i = some s') :
    InStep s' := by
  unfold LeaderRun.commitPartition at hstep
  split at hstep
  · rename_i m atm hphase
    obtain ⟨leader, hdo, hstep⟩ := Option.bind_eq_some_iff.mp hstep
    cases hstep
    obtain ⟨hround, hmaps⟩ := accountTransferDo_maps hdo
    have hin := h.phase
    rw [hphase] at hin
    obtain ⟨hon, hlast, hsame, hatid⟩ := hin
    have hreceived := (h.pending hon hlast).1
    rw [if_pos (by rw [h.maps, hatid]), h.maps] at hmaps
    refine ⟨hmaps, ?_, ?_, ?_, ?_, trivial⟩
    · show leader.accountTransferRound = (s.committed ++ [(m, atm.modifiedMap)]).length
      rw [hround, hatid, hreceived, List.length_append, List.length_append, List.length_map]
      rfl
    · intro c hc
      rcases List.mem_append.mp hc with hc | hc
      · exact h.same c hc
      · rw [List.mem_singleton.mp hc]
        exact hsame.symm
    · intro _
      show s.received = (s.committed ++ [(m, atm.modifiedMap)]).map (·.2)
      rw [hreceived, List.map_append, hsame]
      rfl
    · intro hfalse
      cases hfalse
  · cases hstep

theorem InStep.step (h : InStep s) {move : LeaderMove} (hguard : OneAtATime s move)
    (hstep : leaderStep sh i s move = some s') : InStep s' := by
  cases move with
  | partitionMsg m =>
    cases hstep
    exact h.handlePartitionMsg hguard m
  | accounts msg =>
    cases hstep
    exact h.keep rfl rfl h.phase
  | addTxs txs =>
    obtain ⟨queue, -, hstep⟩ := Option.bind_eq_some_iff.mp hstep
    cases hstep
    exact h.keep rfl rfl h.phase
  | proposeBlock => exact h.proposeBlock hstep
  | commitBlock ledger txpool => exact h.commitBlock hstep
  | sendPartitionReady => exact h.sendPartitionReady hstep
  | sendAccounts keys => exact h.sendAccounts hstep
  | proposePartition js addrs => exact h.proposePartition hstep
  | commitPartition => exact h.commitPartition hstep

/-- **The maps are applied once and in order** in every run in which a partition message finds no
round pending. -/
theorem partition_maps_in_order (sh : Shards) (i : UInt64)
    (h : Reach (leaderStep sh i) OneAtATime NewLeader s) : InOrder s := by
  have hin : InStep s :=
    Reach.invariant (fun s hs => hs.inStep) (fun s s' move _ hs hg hstep => hs.step hg hstep) h
  refine ⟨?_, hin.same⟩
  cases hon : s.partitionOn with
  | false =>
    rw [hin.off hon]
  | true =>
    obtain ⟨m, hm⟩ := hin.on hon
    rw [hm]
    exact List.prefix_append _ _

/-! ### Two and three maps -/

/-- The leader of shard 0 of two, with an empty pool. -/
def newRun : LeaderRun := ⟨⟨shortLedger, some [], [], 0, ∅, [], ∅, false⟩, false, .idle, [], []⟩

theorem newRun_new : NewLeader newRun := ⟨rfl, rfl, rfl, rfl, rfl, rfl⟩

/-- The map that moves one account to shard 1. -/
def moveTo1 (a : Address) : PartitionMap := Finmap.singleton a 1

/-- A round in which accounts are selected with the map for `a`, and shard 1 sends none. -/
def roundFor (a : Address) : List LeaderMove :=
  [.sendPartitionReady, .sendAccounts [a], .accounts ⟨[], [], 1, []⟩, .proposePartition [1] [],
    .commitPartition]

theorem partition_maps_in_order_two_rounds :
    ∃ s, Reach (leaderStep shortShards 0) OneAtATime NewLeader s ∧ s.committed.length = 2 ∧
      InOrder s := by
  have hstart : Reach (leaderStep shortShards 0) OneAtATime NewLeader newRun := .start newRun_new
  obtain ⟨s, hs, hlen⟩ := exists_reach_of_run
    (.partitionMsg (moveTo1 "0000000000000000") :: roundFor "0000000000000000" ++
      .partitionMsg (moveTo1 "0000000000000002") :: roundFor "0000000000000002")
    (fun s => s.committed.length = 2) hstart (by decide +kernel)
  exact ⟨s, hs, hlen, partition_maps_in_order shortShards 0 hs⟩

/-- Two maps come before the first round begins: accounts are selected with the second, the first is
committed, and the second never is. -/
theorem second_map_skipped :
    ∃ s, Reach (leaderStep shortShards 0) anyStep NewLeader s ∧
      s.received = [moveTo1 "0000000000000000", moveTo1 "0000000000000002",
        moveTo1 "0000000000000004"] ∧
      s.committed = [(moveTo1 "0000000000000002", moveTo1 "0000000000000000"),
        (moveTo1 "0000000000000004", moveTo1 "0000000000000004")] := by
  have hstart : Reach (leaderStep shortShards 0) anyStep NewLeader newRun := .start newRun_new
  exact exists_reach_of_run
    (.partitionMsg (moveTo1 "0000000000000000") :: .partitionMsg (moveTo1 "0000000000000002") ::
      roundFor "0000000000000002" ++
      .partitionMsg (moveTo1 "0000000000000004") :: roundFor "0000000000000004")
    _ hstart (by decide +kernel)

end Aster.Clpa
