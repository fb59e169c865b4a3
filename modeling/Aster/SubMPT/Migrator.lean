import Aster.SubMPT.Follower
import Aster.Local.ConsistentHash
import Aster.Lib.Transition

/-!
# The migrator of the proposer

`batchExecuteMigrator` runs the migration tasks of an `AddNode` or a `RemoveNode` concurrently.
Each task runs `localMigrator`: it asks the source follower for the states of its keys, polls
`ReceiveRequestDataMap` until there is a response of that follower, takes the response under the
lock and forwards it to the target follower.  The map has one slot for each follower, whoever
asked.

Each section that runs under one lock is one step:

* `start`: a task sends its `P_RequestData`, with its keys in the order of the map iteration;
* `answer`: a follower runs `handleProposerRequest`;
* `receive`: the proposer runs `handleFollowerResponse`;
* `observe`: the polling loop of a task finds a response and ends;
* `forward`: the task takes the lock again and sends the response on; when another task has taken
  it, the nil message makes the task panic with the lock held, and the panic is recovered;
* `allocate`: a follower runs `handleProposerAllocateData`.

Messages may overtake each other, so the network is a bag for each kind of message.  Messages
carry the index of the task they were made for, which no step reads.
-/

namespace Aster.SubMPT

open Aster.Core Aster.Local

/-- `strconv.Atoi` on the ids of followers, which are decimal numerals. -/
def atoi (s : String) : ℕ :=
  if s.toList.all Char.isDigit then Nat.ofDigitChars 10 s.toList 0 else 0

/-- `strconv.Itoa` and back. -/
theorem atoi_toString (n : ℕ) : atoi (toString n) = n := by
  have hdigits : (Nat.toDigits 10 n).all Char.isDigit = true := by
    rw [List.all_eq_true]
    exact fun ch hch => Nat.isDigit_of_mem_toDigits (by decide) (by decide) hch
  rw [atoi, toList_toString, if_pos hdigits]
  exact Nat.ofDigitChars_ten_toDigits

/-- The keys and values of a `F_ResponseData` or a `P_AllocateData` message. -/
abbrev AccountData := List (Address × AccountState)

/-- The states that `handleProposerRequest` puts into its response. -/
def handleProposerRequest (st : Trie) (keys : List Address) : AccountData :=
  keys.map fun key => (key, fetch st key 0)

/-- The trie after `handleProposerAllocateData`. -/
def handleProposerAllocateData (st : Trie) (data : AccountData) : Trie :=
  data.foldl (fun st e => st.insert e.1 e.2) st

/-- How far a task is in `localMigrator`. -/
inductive Stage where
  /-- Its request is still to be sent. -/
  | idle
  /-- It polls `ReceiveRequestDataMap`. -/
  | waiting
  /-- It has seen a response and is about to take the lock again. -/
  | seen
  | done
  deriving DecidableEq

structure RequestDataMsg where
  task : ℕ
  /-- The follower that is asked. -/
  fid : ℕ
  keys : List Address
  deriving DecidableEq

/-- A `F_ResponseData` message from a follower, or a `P_AllocateData` message to one. -/
structure DataMsg where
  task : ℕ
  fid : ℕ
  data : AccountData
  deriving DecidableEq

structure MigratorSys where
  tasks : List Migration
  stage : ℕ → Stage
  requests : List RequestDataMsg
  responses : List DataMsg
  receiveRequestDataMap : ℕ → Option DataMsg
  /-- A task panicked while it held `ReceiveRequestDataMapLock`. -/
  lockLost : Bool
  allocations : List DataMsg
  /-- The state tries of the followers. -/
  followers : ℕ → Trie

inductive MigratorLabel where
  | start (i : ℕ) (keys : List Address)
  | answer (j : ℕ)
  | receive (j : ℕ)
  | observe (i : ℕ)
  | forward (i : ℕ)
  | allocate (j : ℕ)
  deriving DecidableEq

def MigratorSys.setStage (s : MigratorSys) (i : ℕ) (stage : Stage) : MigratorSys :=
  { s with stage := Function.update s.stage i stage }

namespace MigratorSys

def start (s : MigratorSys) (i : ℕ) (keys : List Address) : Option MigratorSys := do
  let t ← s.tasks[i]?
  if s.stage i = .idle ∧ keys.Nodup ∧ keys.toFinset = t.datas then
    some { s.setStage i .waiting with
      requests := s.requests ++ [⟨i, atoi t.source, keys⟩] }
  else none

def answer (s : MigratorSys) (j : ℕ) : Option MigratorSys := do
  let r ← s.requests[j]?
  some { s with
    requests := s.requests.eraseIdx j
    responses := s.responses ++
      [⟨r.task, r.fid, handleProposerRequest (s.followers r.fid) r.keys⟩] }

/-- `handleFollowerResponse`. -/
def receive (s : MigratorSys) (j : ℕ) : Option MigratorSys := do
  let msg ← s.responses[j]?
  if s.lockLost then none
  else some { s with
    responses := s.responses.eraseIdx j
    receiveRequestDataMap := Function.update s.receiveRequestDataMap msg.fid (some msg) }

def observe (s : MigratorSys) (i : ℕ) : Option MigratorSys := do
  let t ← s.tasks[i]?
  if s.lockLost = false ∧ s.stage i = .waiting ∧
      (s.receiveRequestDataMap (atoi t.source)).isSome then
    some (s.setStage i .seen)
  else none

def forward (s : MigratorSys) (i : ℕ) : Option MigratorSys := do
  let t ← s.tasks[i]?
  if s.lockLost = false ∧ s.stage i = .seen then
    match s.receiveRequestDataMap (atoi t.source) with
    | none => some { s.setStage i .done with lockLost := true }
    | some msgs => some { s.setStage i .done with
        allocations := s.allocations ++ [⟨i, atoi t.target, msgs.data⟩]
        receiveRequestDataMap := Function.update s.receiveRequestDataMap (atoi t.source) none }
  else none

def allocate (s : MigratorSys) (j : ℕ) : Option MigratorSys := do
  let msg ← s.allocations[j]?
  some { s with
    allocations := s.allocations.eraseIdx j
    followers := Function.update s.followers msg.fid
      (handleProposerAllocateData (s.followers msg.fid) msg.data) }

end MigratorSys

def migratorStep (s : MigratorSys) : MigratorLabel → Option MigratorSys
  | .start i keys => s.start i keys
  | .answer j => s.answer j
  | .receive j => s.receive j
  | .observe i => s.observe i
  | .forward i => s.forward i
  | .allocate j => s.allocate j

/-- `batchExecuteMigrator` has started the tasks. -/
def startMigrator (tasks : List Migration) (followers : ℕ → Trie) : MigratorSys where
  tasks := tasks
  stage := fun _ => .idle
  requests := []
  responses := []
  receiveRequestDataMap := fun _ => none
  lockLost := false
  allocations := []
  followers := followers

/-- All tasks have finished, and the data they sent has arrived. -/
def MigratorSys.Finished (s : MigratorSys) : Prop :=
  (∀ i < s.tasks.length, s.stage i = .done) ∧ s.allocations = []

instance (s : MigratorSys) : Decidable s.Finished := inferInstanceAs (Decidable (_ ∧ _))

end Aster.SubMPT
