import Aster.Local.VirtualNodes
import Aster.SubMPT.Join

/-!
# Concurrent joins

Every `F_Join` message is handled in a goroutine of its own, without a common lock.  The handler
takes the length of `FollowerIDs` as the id of the new follower, and makes it longer only at its
end, after `AddNode` has returned.  The stages of a handler are steps here, and any number of
handlers interleave.

**`concurrent_joins_distinct`**: the ids are distinct in the runs in which a handler takes its id
only while no other is between taking its id and appending it.
-/

namespace Aster.SubMPT

open Aster.Local Aster.Lib.Transition

/-! ### The handlers -/

/-- A goroutine of `handleFollowerJoin`. -/
inductive JoinHandler where
  /-- It goes on to read `len(p.FollowerIDs)`. -/
  | received (ipPort : String)
  /-- It goes on to record the address and to send the id in `P_AllocFId`. -/
  | numbered (ipPort : String) (newNodeId : ℕ)
  /-- It goes on to call `AddNode`. -/
  | allocated (newNodeId : ℕ)
  /-- It goes on to increment `FollowerNum` and to append the id. -/
  | added (newNodeId : ℕ)
  | finished
  deriving DecidableEq

namespace JoinHandler

/-- The id that has been taken and not been appended yet. -/
def pending : JoinHandler → Option ℕ
  | .received _ | .finished => none
  | .numbered _ newNodeId | .allocated newNodeId | .added newNodeId => some newNodeId

def isReceived : JoinHandler → Bool
  | .received _ => true
  | _ => false

def isFinished : JoinHandler → Bool
  | .finished => true
  | _ => false

/-- The number of ids that the handler has sent and not appended. -/
def sent : JoinHandler → ℕ
  | .received _ | .numbered _ _ | .finished => 0
  | .allocated _ | .added _ => 1

/-- The number of nodes that the handler has put on the ring without appending their ids. -/
def onRing : JoinHandler → ℕ
  | .received _ | .numbered _ _ | .allocated _ | .finished => 0
  | .added _ => 1

end JoinHandler

/-- The proposer, as far as joins concern it. -/
structure JoiningProposer where
  consistentHash : ConsistentHash
  followerIDs : List ℕ
  /-- `params.FollowerNum`. -/
  followerNum : ℕ
  /-- The addresses of its followers in `ip_nodeTable`, which is the table of `params`. -/
  ipTable : ℕ → String
  handlers : List JoinHandler
  /-- History: the ids sent in `P_AllocFId`, with the address. -/
  allocFids : List (ℕ × String)

inductive JoiningLabel where
  /-- An `F_Join` message arrives. -/
  | receive (ipPort : String)
  /-- The handler of the message `k` goes on; `AddNode` needs the results of `roll`. -/
  | advance (k : ℕ) (rolls : ℕ → ℕ)

namespace JoiningProposer

/-- The next stage of a handler, and what it does to the proposer. -/
def stage (s : JoiningProposer) (rolls : ℕ → ℕ) :
    JoinHandler → Option (JoiningProposer × JoinHandler)
  | .received ipPort => some (s, .numbered ipPort s.followerIDs.length)
  | .numbered ipPort newNodeId =>
    let ipTable := Function.update s.ipTable newNodeId ipPort
    some ({ s with
      ipTable := ipTable
      allocFids := s.allocFids ++ [(newNodeId, ipTable newNodeId)] }, .allocated newNodeId)
  | .allocated newNodeId => do
    -- the error is not looked at
    let (consistentHash, _) ← s.consistentHash.addNode (toString newNodeId) 1 rolls
    some ({ s with consistentHash := consistentHash }, .added newNodeId)
  | .added newNodeId =>
    some ({ s with
      followerNum := s.followerNum + 1
      followerIDs := s.followerIDs ++ [newNodeId] }, .finished)
  | .finished => none

/-- All handlers have finished. -/
def Finished (s : JoiningProposer) : Prop := ∀ h ∈ s.handlers, h = .finished

instance (s : JoiningProposer) : Decidable s.Finished :=
  inferInstanceAs (Decidable (∀ h ∈ s.handlers, h = .finished))

end JoiningProposer

def joiningStep (s : JoiningProposer) : JoiningLabel → Option JoiningProposer
  | .receive ipPort => some { s with handlers := s.handlers ++ [.received ipPort] }
  | .advance k rolls => do
    let h ← s.handlers[k]?
    let (s', h') ← s.stage rolls h
    some { s' with handlers := s'.handlers.set k h' }

/-- A handler reads the length of `FollowerIDs` only while no other is between this and appending
its id. -/
def ReadsAlone (s : JoiningProposer) : JoiningLabel → Prop
  | .receive _ => True
  | .advance k _ =>
    s.handlers[k]?.any (·.isReceived) = true → ∀ h ∈ s.handlers, h.pending = none

instance (s : JoiningProposer) (l : JoiningLabel) : Decidable (ReadsAlone s l) :=
  match l with
  | .receive _ => inferInstanceAs (Decidable True)
  | .advance _ _ => inferInstanceAs (Decidable (_ → _))

/-- The followers `0, ..., n - 1` are registered and on the ring, which comes from calls without
an error, and nobody is joining. -/
structure JoiningStart (n : ℕ) (s : JoiningProposer) : Prop where
  ring : ∃ encryptor replicas ops, (newConsistentHash newSkiplistHashRing encryptor true
    replicas).callsWithoutError ops = some s.consistentHash
  nodes : ∀ x, x ∈ s.consistentHash.hashRing.nodes ↔ ∃ i < n, x = toString i
  followerIDs : s.followerIDs = List.range n
  followerNum : s.followerNum = n
  handlers : s.handlers = []
  allocFids : s.allocFids = []

/-- The proposer that `NewProposerNode` makes, with `FollowerNum = n`. -/
def startJoining (n : ℕ) (encryptor : Encryptor) (rolls : ℕ → ℕ → ℕ) (ipTable : ℕ → String) :
    Option JoiningProposer := do
  let p ← newProposerNode n encryptor rolls
  some ⟨p.consistentHash, p.followerIDs, n, ipTable, [], []⟩

/-- `AddNode` puts the next number on the ring. -/
theorem addNode_next {c : ConsistentHash} {m : SortedRing} {k : ℕ} (hon : OnRing c m)
    (hnodes : ∀ x, x ∈ c.hashRing.nodes ↔ ∃ i < k, x = toString i) (rolls : ℕ → ℕ) :
    ∃ c' ts m', c.addNode (toString k) 1 rolls = some (c', .ok ts) ∧ OnRing c' m' ∧
      ∀ x, x ∈ c'.hashRing.nodes ↔ ∃ i < k + 1, x = toString i := by
  have hnew : toString k ∉ c.hashRing.nodes := by
    rw [hnodes]
    rintro ⟨i, hi, he⟩
    exact absurd (toString_nat_inj he) hi.ne'
  obtain ⟨c', ts, m', hrun, hon', hframe, -⟩ := hon.addNode hnew 1 rolls
  refine ⟨c', ts, m', hrun, hon', fun x => ?_⟩
  have hx : x ∈ c'.hashRing.nodes ↔ x = toString k ∨ x ∈ c.hashRing.nodes := by
    rw [SkiplistHashRing.nodes, hframe.nodes]
    exact Finmap.mem_insert
  rw [hx, hnodes]
  constructor
  · rintro (rfl | ⟨i, hi, rfl⟩)
    · exact ⟨k, by omega, rfl⟩
    · exact ⟨i, by omega, rfl⟩
  · rintro ⟨i, hi, rfl⟩
    by_cases he : i = k
    · exact .inl (by rw [he])
    · exact .inr ⟨i, by omega, rfl⟩

theorem callsWithoutError_snoc (c : ConsistentHash) (ops : List HashCall) (op : HashCall) :
    c.callsWithoutError (ops ++ [op]) =
      (c.callsWithoutError ops).bind fun c' => c'.callsWithoutError [op] := by
  induction ops generalizing c with
  | nil => rfl
  | cons op' ops ih =>
    rw [List.cons_append, ConsistentHash.callsWithoutError, ConsistentHash.callsWithoutError]
    simp only [Option.bind_eq_bind, Option.bind_assoc]
    congr 1
    funext r
    obtain ⟨c', err⟩ := r
    cases err with
    | none => exact ih c'
    | some err => rfl

/-- The calls of `NewProposerNode` return no error and put the followers on the ring. -/
theorem callsWithoutError_followers (encryptor : Encryptor) (replicas : ℤ) (rolls : ℕ → ℕ → ℕ)
    (n : ℕ) :
    ∃ c, (newConsistentHash newSkiplistHashRing encryptor true replicas).callsWithoutError
        ((List.range n).map fun i => .addNode (toString i) 1 (rolls i)) = some c ∧
      ∀ x, x ∈ c.hashRing.nodes ↔ ∃ i < n, x = toString i := by
  induction n with
  | zero =>
    refine ⟨_, rfl, fun x => ⟨fun hx => absurd hx Finmap.notMem_empty, ?_⟩⟩
    rintro ⟨i, hi, -⟩
    exact absurd hi (Nat.not_lt_zero i)
  | succ n ih =>
    obtain ⟨c, hrun, hnodes⟩ := ih
    obtain ⟨⟨m, hon⟩, -⟩ := (onRing_new encryptor true replicas).calls hrun
    obtain ⟨c', ts, -, hadd, -, hnodes'⟩ := addNode_next hon hnodes (rolls n)
    refine ⟨c', ?_, hnodes'⟩
    rw [List.range_succ, List.map_append, List.map_singleton, callsWithoutError_snoc, hrun]
    show (c.call (.addNode (toString n) 1 (rolls n))).bind _ = some c'
    rw [ConsistentHash.call, hadd]
    rfl

theorem joiningStart_new (n : ℕ) (encryptor : Encryptor) (rolls : ℕ → ℕ → ℕ)
    (ipTable : ℕ → String) :
    ∃ s, startJoining n encryptor rolls ipTable = some s ∧ JoiningStart n s := by
  obtain ⟨c, hrun, hnodes⟩ := callsWithoutError_followers encryptor 2 rolls n
  refine ⟨⟨c, List.range n, n, ipTable, [], []⟩, ?_, ⟨encryptor, 2, _, hrun⟩, hnodes, rfl, rfl,
    rfl, rfl⟩
  rw [startJoining, newProposerNode, hrun]
  rfl

/-! ### The invariant -/

/-- The ids go on from `n` without a gap after `joins` joins; `sent` and `onRing` of them are ahead
of `FollowerIDs`. -/
structure Settled (n joins sent onRing : ℕ) (s : JoiningProposer) : Prop where
  ring : ∃ m, OnRing s.consistentHash m
  nodes : ∀ x, x ∈ s.consistentHash.hashRing.nodes ↔ ∃ i < n + joins + onRing, x = toString i
  followerIDs : s.followerIDs = List.range (n + joins)
  followerNum : s.followerNum = n + joins
  allocFids : s.allocFids.map Prod.fst = List.range' n (joins + sent)

section Stages

variable {n joins : ℕ} {s s' : JoiningProposer} {h h' : JoinHandler} {rolls : ℕ → ℕ}

theorem Settled.congr {sent onRing : ℕ} (hs : Settled n joins sent onRing s)
    (handlers : List JoinHandler) : Settled n joins sent onRing { s with handlers := handlers } :=
  ⟨hs.ring, hs.nodes, hs.followerIDs, hs.followerNum, hs.allocFids⟩

/-- `AddNode` puts the next id on the ring. -/
theorem Settled.addNode (hs : Settled n joins 1 0 s) (rolls : ℕ → ℕ) :
    ∃ c ts, s.consistentHash.addNode (toString (n + joins)) 1 rolls = some (c, .ok ts) ∧
      Settled n joins 1 1 { s with consistentHash := c } := by
  obtain ⟨m, hon⟩ := hs.ring
  obtain ⟨c, ts, m', hrun, hon', hnodes⟩ := addNode_next hon hs.nodes rolls
  exact ⟨c, ts, hrun, ⟨m', hon'⟩, hnodes, hs.followerIDs, hs.followerNum, hs.allocFids⟩

/-- A handler with the next id goes on. -/
theorem Settled.stage (hs : Settled n joins h.sent h.onRing s) (hp : h.pending = some (n + joins))
    (hstage : s.stage rolls h = some (s', h')) :
    s'.handlers = s.handlers ∧
      ((h'.pending = some (n + joins) ∧ h'.isFinished = false ∧
        Settled n joins h'.sent h'.onRing s') ∨
      (h' = .finished ∧ Settled n (joins + 1) 0 0 s')) := by
  cases h with
  | received ipPort => cases hp
  | finished => cases hp
  | numbered ipPort newNodeId =>
    obtain rfl := Option.some.inj hp
    obtain ⟨rfl, rfl⟩ := Prod.mk.inj (Option.some.inj hstage)
    refine ⟨rfl, .inl ⟨rfl, rfl, hs.ring, hs.nodes, hs.followerIDs, hs.followerNum, ?_⟩⟩
    have hids := hs.allocFids
    show (s.allocFids ++ [_]).map Prod.fst = List.range' n (joins + 1)
    rw [List.map_append, hids, List.range'_1_concat]
    rfl
  | allocated newNodeId =>
    obtain rfl := Option.some.inj hp
    obtain ⟨c, ts, hrun, hs'⟩ := Settled.addNode hs rolls
    rw [JoiningProposer.stage, hrun] at hstage
    obtain ⟨rfl, rfl⟩ := Prod.mk.inj (Option.some.inj hstage)
    exact ⟨rfl, .inl ⟨rfl, rfl, hs'⟩⟩
  | added newNodeId =>
    obtain rfl := Option.some.inj hp
    obtain ⟨rfl, rfl⟩ := Prod.mk.inj (Option.some.inj hstage)
    refine ⟨rfl, .inr ⟨rfl, hs.ring, hs.nodes, ?_, ?_, hs.allocFids⟩⟩
    · show s.followerIDs ++ [n + joins] = List.range (n + joins + 1)
      rw [hs.followerIDs, List.range_succ]
    · show s.followerNum + 1 = n + (joins + 1)
      rw [hs.followerNum]
      rfl

end Stages

/-- The handlers that have finished. -/
def JoiningProposer.joins (s : JoiningProposer) : ℕ := s.handlers.countP (·.isFinished)

/-- At most one handler has an id pending, and it is the next one. -/
inductive JoinPhase (n : ℕ) (s : JoiningProposer) : Prop
  | quiet : (∀ h ∈ s.handlers, h.pending = none) → Settled n s.joins 0 0 s → JoinPhase n s
  | running (k : ℕ) (h : JoinHandler) : s.handlers[k]? = some h →
      h.pending = some (n + s.joins) →
      (∀ j h', j ≠ k → s.handlers[j]? = some h' → h'.pending = none) →
      Settled n s.joins h.sent h.onRing s → JoinPhase n s

section Steps

variable {n : ℕ} {s s' : JoiningProposer} {k : ℕ} {h h' : JoinHandler}

theorem countP_set_of_not {l : List JoinHandler} (hk : l[k]? = some h)
    (hh : h.isFinished = false) (h' : JoinHandler) :
    (l.set k h').countP (·.isFinished) =
      l.countP (·.isFinished) + if h'.isFinished then 1 else 0 := by
  obtain ⟨hlt, hget⟩ := List.getElem?_eq_some_iff.mp hk
  rw [List.countP_set hlt, hget, hh]
  simp

theorem joiningStep_advance {rolls : ℕ → ℕ} (hk : s.handlers[k]? = some h)
    (hstep : joiningStep s (.advance k rolls) = some s') :
    ∃ s₁ h', s.stage rolls h = some (s₁, h') ∧
      s' = { s₁ with handlers := s₁.handlers.set k h' } := by
  rw [joiningStep, hk] at hstep
  simp only [Option.bind_eq_bind, Option.bind_some] at hstep
  obtain ⟨⟨s₁, h'⟩, hstage, hs'⟩ := Option.bind_eq_some_iff.mp hstep
  exact ⟨s₁, h', hstage, (Option.some.inj hs').symm⟩

theorem JoinPhase.receive (hs : JoinPhase n s) (ipPort : String) :
    JoinPhase n { s with handlers := s.handlers ++ [.received ipPort] } := by
  have hjoins : ({ s with handlers := s.handlers ++ [.received ipPort] } :
      JoiningProposer).joins = s.joins := by
    rw [JoiningProposer.joins, List.countP_append]
    rfl
  cases hs with
  | quiet hnone hset =>
    refine .quiet (fun h hh => ?_) ?_
    · rcases List.mem_append.mp hh with hh | hh
      · exact hnone h hh
      · rw [List.mem_singleton.mp hh]
        rfl
    · rw [hjoins]
      exact hset.congr _
  | running k h hk hp hothers hset =>
    have hlt := (List.getElem?_eq_some_iff.mp hk).1
    refine .running k h ?_ ?_ (fun j h' hj hj' => ?_) ?_
    · exact (List.getElem?_append_left hlt).trans hk
    · rw [hjoins]
      exact hp
    · by_cases hjl : j < s.handlers.length
      · exact hothers j h' hj ((List.getElem?_append_left hjl).symm.trans hj')
      · have hmem : h' ∈ [JoinHandler.received ipPort] := by
          exact List.mem_of_getElem? ((List.getElem?_append_right (not_lt.mp hjl)).symm.trans hj')
        rw [List.mem_singleton.mp hmem]
        rfl
    · rw [hjoins]
      exact hset.congr _

/-- The handlers after one of them has gone on. -/
theorem JoinPhase.set (hk : s.handlers[k]? = some h) (hh : h.isFinished = false)
    (hothers : ∀ j h', j ≠ k → s.handlers[j]? = some h' → h'.pending = none)
    (hnext : (h'.pending = some (n + s.joins) ∧ h'.isFinished = false ∧
        Settled n s.joins h'.sent h'.onRing s') ∨
      (h' = .finished ∧ Settled n (s.joins + 1) 0 0 s')) (hs' : s'.handlers = s.handlers) :
    JoinPhase n { s' with handlers := s'.handlers.set k h' } := by
  have hlt := (List.getElem?_eq_some_iff.mp hk).1
  have hjoins : ({ s' with handlers := s'.handlers.set k h' } : JoiningProposer).joins =
      s.joins + if h'.isFinished then 1 else 0 := by
    rw [JoiningProposer.joins, hs']
    exact countP_set_of_not hk hh h'
  have hself : (s'.handlers.set k h')[k]? = some h' := by
    rw [hs', List.getElem?_set_self hlt]
  have hothers' : ∀ j h₁, j ≠ k → (s'.handlers.set k h')[j]? = some h₁ → h₁.pending = none := by
    intro j h₁ hj hh₁
    rw [hs', List.getElem?_set_ne hj.symm] at hh₁
    exact hothers j h₁ hj hh₁
  rcases hnext with ⟨hp, hf, hset⟩ | ⟨rfl, hset⟩
  · rw [hf] at hjoins
    refine .running k h' hself ?_ hothers' ?_
    · rw [hjoins]
      exact hp
    · rw [hjoins]
      exact hset.congr _
  · refine .quiet (fun h₁ hh₁ => ?_) ?_
    · obtain ⟨j, hj⟩ := List.mem_iff_getElem?.mp hh₁
      by_cases hjk : j = k
      · rw [hjk] at hj
        rw [← Option.some.inj (hself.symm.trans hj)]
        rfl
      · exact hothers' j h₁ hjk hj
    · rw [hjoins]
      exact hset.congr _

theorem JoinPhase.step {l : JoiningLabel} (hs : JoinPhase n s) (hguard : ReadsAlone s l)
    (hstep : joiningStep s l = some s') : JoinPhase n s' := by
  cases l with
  | receive ipPort =>
    obtain rfl := Option.some.inj hstep
    exact hs.receive ipPort
  | advance k rolls =>
    cases hk : s.handlers[k]? with
    | none =>
      rw [joiningStep, hk] at hstep
      cases hstep
    | some h =>
      obtain ⟨s₁, h', hstage, rfl⟩ := joiningStep_advance hk hstep
      have hmem := List.mem_of_getElem? hk
      cases hs with
      | quiet hnone hset =>
        -- without an id pending, the handler is at its start
        cases h with
        | received ipPort =>
          obtain ⟨rfl, rfl⟩ := Prod.mk.inj (Option.some.inj hstage)
          refine JoinPhase.set hk rfl
            (fun j h₁ _ hj => hnone h₁ (List.mem_of_getElem? hj)) (.inl ⟨?_, rfl, hset⟩) rfl
          show some s.followerIDs.length = _
          rw [hset.followerIDs, List.length_range]
        | finished => cases hstage
        | numbered ipPort newNodeId => cases hnone _ hmem
        | allocated newNodeId => cases hnone _ hmem
        | added newNodeId => cases hnone _ hmem
      | running k₀ h₀ hk₀ hp hothers hset =>
        by_cases hkk : k = k₀
        · subst hkk
          obtain rfl := Option.some.inj (hk₀.symm.trans hk)
          obtain ⟨hsame, hnext⟩ := hset.stage hp hstage
          have hh : h₀.isFinished = false := by
            cases h₀ with
            | finished => cases hp
            | _ => rfl
          exact JoinPhase.set hk hh hothers hnext hsame
        · -- another handler would have to read its id, or has finished
          have hnone := hothers k h hkk hk
          cases h with
          | received ipPort =>
            rw [ReadsAlone, hk] at hguard
            have hbusy := hguard rfl h₀ (List.mem_of_getElem? hk₀)
            rw [hp] at hbusy
            cases hbusy
          | finished => cases hstage
          | numbered ipPort newNodeId => cases hnone
          | allocated newNodeId => cases hnone
          | added newNodeId => cases hnone

theorem joinPhase_of_reach (hs : Reach joiningStep ReadsAlone (JoiningStart n) s) :
    JoinPhase n s := by
  refine hs.invariant (fun s hs => ?_) fun s s' l _ hphase hguard hstep =>
    hphase.step hguard hstep
  have hjoins : s.joins = 0 := by
    rw [JoiningProposer.joins, hs.handlers]
    rfl
  refine .quiet (fun h hh => ?_) ?_
  · rw [hs.handlers] at hh
    cases hh
  · rw [hjoins]
    obtain ⟨encryptor, replicas, ops, hrun⟩ := hs.ring
    constructor
    case ring => exact ((onRing_new encryptor true replicas).calls hrun).1
    case nodes => exact hs.nodes
    case followerIDs => exact hs.followerIDs
    case followerNum => exact hs.followerNum
    case allocFids =>
      rw [hs.allocFids]
      rfl

/-- While a handler has not finished, some handler can go on. -/
theorem JoinPhase.exists_step (hs : JoinPhase n s) (hfin : ¬ s.Finished) :
    ∃ l, ReadsAlone s l ∧ (joiningStep s l).isSome := by
  have hadvance : ∀ k h, s.handlers[k]? = some h → (s.stage (fun _ => 0) h).isSome →
      (joiningStep s (.advance k fun _ => 0)).isSome := by
    intro k h hk hstage
    obtain ⟨⟨s₁, h'⟩, hrun⟩ := Option.isSome_iff_exists.mp hstage
    rw [joiningStep, hk]
    simp [hrun]
  cases hs with
  | quiet hnone hset =>
    rw [JoiningProposer.Finished] at hfin
    push Not at hfin
    obtain ⟨h, hh, hne⟩ := hfin
    obtain ⟨k, hk⟩ := List.mem_iff_getElem?.mp hh
    refine ⟨.advance k fun _ => 0, fun _ => hnone, hadvance k h hk ?_⟩
    have hpending := hnone h hh
    cases h with
    | received ipPort => rfl
    | finished => exact absurd rfl hne
    | numbered ipPort newNodeId => cases hpending
    | allocated newNodeId => cases hpending
    | added newNodeId => cases hpending
  | running k h hk hp hothers hset =>
    refine ⟨.advance k fun _ => 0, fun hreceived => ?_, hadvance k h hk ?_⟩
    · rw [hk] at hreceived
      cases h with
      | received ipPort => cases hp
      | _ => cases hreceived
    · cases h with
      | received ipPort => rfl
      | finished => cases hp
      | numbered ipPort newNodeId => rfl
      | allocated newNodeId =>
        obtain rfl := Option.some.inj hp
        obtain ⟨c, ts, hrun, -⟩ := Settled.addNode hset fun _ => 0
        rw [JoiningProposer.stage, hrun]
        rfl
      | added newNodeId => rfl

end Steps

/-- **Joins that take their ids one at a time get distinct ids.**  For any number of `F_Join`
messages and every interleaving in which a handler reads the length of `FollowerIDs` only while no
other is between its read and its append: once all handlers have finished, each has sent one id,
the ids are pairwise distinct, `FollowerIDs` are `0, 1, ...` without a gap or repetition and as
many as `FollowerNum`, and the nodes of the ring are their decimal ids; and until then some
handler can go on. -/
theorem concurrent_joins_distinct {n : ℕ} {s : JoiningProposer}
    (hs : Reach joiningStep ReadsAlone (JoiningStart n) s) :
    (s.Finished → s.allocFids.length = s.handlers.length ∧
      (s.allocFids.map Prod.fst).Nodup ∧
      s.followerIDs = List.range (n + s.handlers.length) ∧
      s.followerNum = s.followerIDs.length ∧
      ∀ x, x ∈ s.consistentHash.hashRing.nodes ↔ ∃ i ∈ s.followerIDs, x = toString i) ∧
    (¬ s.Finished → ∃ l, ReadsAlone s l ∧ (joiningStep s l).isSome) := by
  have hphase := joinPhase_of_reach hs
  refine ⟨fun hfin => ?_, hphase.exists_step⟩
  have hjoins : s.joins = s.handlers.length := by
    refine List.countP_eq_length.mpr fun h hh => ?_
    rw [hfin h hh]
    rfl
  cases hphase with
  | running k h hk hp hothers hset =>
    rw [hfin h (List.mem_of_getElem? hk)] at hp
    cases hp
  | quiet hnone hset =>
    rw [hjoins] at hset
    have hids := hset.allocFids
    refine ⟨?_, ?_, hset.followerIDs, ?_, fun x => ?_⟩
    · have hlen := congrArg List.length hids
      rw [List.length_map, List.length_range'] at hlen
      exact hlen
    · rw [hids]
      exact List.nodup_range'
    · rw [hset.followerNum, hset.followerIDs, List.length_range]
    · rw [hset.nodes, hset.followerIDs]
      simp only [List.mem_range, Nat.add_zero]

/-- The two handlers one after the other. -/
def oneAfterTheOther : List JoiningLabel :=
  [.receive "x", .receive "y"] ++ List.replicate 4 (.advance 0 fun _ => 0) ++
    List.replicate 4 (.advance 1 fun _ => 0)

theorem concurrent_joins_distinct_two :
    ∃ s, Reach joiningStep ReadsAlone (JoiningStart 1) s ∧ s.handlers.length = 2 ∧
      s.followerIDs = List.range 3 := by
  obtain ⟨s₀, hnew, hstart⟩ := joiningStart_new 1 constantEncryptor (fun _ _ => 0) fun _ => ""
  have hcheck : (startJoining 1 constantEncryptor (fun _ _ => 0) fun _ => "").any (fun s₀ =>
      (run joiningStep ReadsAlone s₀ oneAfterTheOther).any fun s =>
        decide (s.Finished ∧ s.handlers.length = 2)) = true := by
    decide +kernel
  rw [hnew, Option.any_some] at hcheck
  obtain ⟨s, hs, hfin, htwo⟩ := exists_reach_of_run oneAfterTheOther
    (fun s => s.Finished ∧ s.handlers.length = 2) (.start hstart) hcheck
  obtain ⟨-, -, hids, -⟩ := (concurrent_joins_distinct hs).1 hfin
  rw [htwo] at hids
  exact ⟨s, hs, htwo, hids⟩

/-- Both handlers read the length before one of them appends its id. -/
def readTogether : List JoiningLabel :=
  [.receive "x", .receive "y"] ++
    (List.replicate 4 [.advance 0 fun _ => 0, .advance 1 fun _ => 0]).flatten

/-- Two followers get the id 1, and only one of them is on the ring. -/
theorem joins_share_id :
    ∃ s, Reach joiningStep anyStep (JoiningStart 1) s ∧ s.Finished ∧
      s.allocFids = [(1, "x"), (1, "y")] ∧ s.followerIDs = [0, 1, 1] ∧ s.followerNum = 3 ∧
      s.consistentHash.hashRing.nodes.lookup "2" = none := by
  obtain ⟨s₀, hnew, hstart⟩ := joiningStart_new 1 constantEncryptor (fun _ _ => 0) fun _ => ""
  have hcheck : (startJoining 1 constantEncryptor (fun _ _ => 0) fun _ => "").any (fun s₀ =>
      (run joiningStep anyStep s₀ readTogether).any fun s =>
        decide (s.Finished ∧ s.allocFids = [(1, "x"), (1, "y")] ∧ s.followerIDs = [0, 1, 1] ∧
          s.followerNum = 3 ∧ s.consistentHash.hashRing.nodes.lookup "2" = none)) = true := by
    decide +kernel
  rw [hnew, Option.any_some] at hcheck
  exact exists_reach_of_run readTogether
    (fun s => s.Finished ∧ s.allocFids = [(1, "x"), (1, "y")] ∧ s.followerIDs = [0, 1, 1] ∧
      s.followerNum = 3 ∧ s.consistentHash.hashRing.nodes.lookup "2" = none) (.start hstart) hcheck

end Aster.SubMPT
