import Aster.SubMPT.MigratorInvariants
import Aster.Local.Transit

/-!
# The order of the migration tasks

Seen from one key, every task of a call goes from the old owner of the key to the new one, or
from one of the two to itself.  Tasks that keep apart therefore leave the state of the old owner
as it is and bring it to the new one, in whatever order they run.  Tasks that do not keep apart
may bring a state that is out of date.
-/

namespace Aster.SubMPT

open Aster.Core Aster.Local Aster.Lib Aster.Lib.Transition

/-! ### The state of a key while the tasks run -/

/-- The old owner of the key still has its state, and the new one has it too once a task that
moves the key has finished. -/
structure Carried (k old new : String) (v : AccountState) (s : MigratorSys) : Prop where
  kept : fetch (s.followers (atoi old)) k 0 = v
  arrived : ∀ i t, s.tasks[i]? = some t → k ∈ t.datas → t.source = old → t.target = new →
    s.stage i = .done → (∀ a ∈ s.allocations, a.task ≠ i) →
    (s.followers (atoi new)).lookup k = some v

section Carried

variable {s s' : MigratorSys} {l : MigratorLabel} {k old new : String} {v : AccountState}

theorem carried_start (ts : List Migration) (followers : ℕ → Trie) (k old new : String) :
    Carried k old new (fetch (followers (atoi old)) k 0) (startMigrator ts followers) :=
  ⟨rfl, fun _ _ _ _ _ _ hdone => Stage.noConfusion hdone⟩

/-- A step that writes nothing and finishes no task. -/
theorem Carried.of_same (h : Carried k old new v s) (htasks : s'.tasks = s.tasks)
    (hfollowers : s'.followers = s.followers)
    (hdone : ∀ i, s'.stage i = .done → (∀ a ∈ s'.allocations, a.task ≠ i) →
      s.stage i = .done ∧ ∀ a ∈ s.allocations, a.task ≠ i) : Carried k old new v s' := by
  constructor
  case kept =>
    rw [hfollowers]
    exact h.kept
  case arrived =>
    intro i t ht hk hsource htarget hstage hnone
    rw [htasks] at ht
    obtain ⟨hstage, hnone⟩ := hdone i hstage hnone
    rw [hfollowers]
    exact h.arrived i t ht hk hsource htarget hstage hnone

theorem fetch_of_lookup {st : Trie} {a : Address} {v : AccountState} (h : st.lookup a = some v)
    (i : ℕ) : fetch st a i = v := by
  rw [fetch, h]
  rfl

/-- No message but the one that arrives was on behalf of another task. -/
theorem task_ne_of_eraseIdx {allocations : List DataMsg} {i j : ℕ} {msg : DataMsg}
    (hmsg : allocations[j]? = some msg) (hi : i ≠ msg.task)
    (hnone : ∀ a ∈ allocations.eraseIdx j, a.task ≠ i) : ∀ a ∈ allocations, a.task ≠ i := by
  intro a ha
  obtain rfl | ha := mem_eraseIdx_or_eq hmsg ha
  · exact hi.symm
  · exact hnone a ha

/-- Data arrives that is not for the key. -/
theorem Carried.allocate_of_not_mem (h : Carried k old new v s) {j : ℕ} {msg : DataMsg}
    (hmsg : s.allocations[j]? = some msg) {t : Migration} (ht : s.tasks[msg.task]? = some t)
    (hcurrent : Current s.followers t msg.data) (hk : k ∉ t.datas) :
    Carried k old new v (s.allocatedAt j msg) := by
  have hnot : k ∉ msg.data.map Prod.fst := by
    rw [← List.mem_toFinset, hcurrent.keys]
    exact hk
  have hsame : ∀ fid, ((s.allocatedAt j msg).followers fid).lookup k =
      (s.followers fid).lookup k := by
    intro fid
    show (Function.update s.followers msg.fid _ fid).lookup k = _
    by_cases heq : fid = msg.fid
    · rw [heq, Function.update_self]
      exact lookup_handleProposerAllocateData_of_not_mem _ hnot
    · rw [Function.update_of_ne heq]
  constructor
  case kept =>
    rw [fetch_congr (hsame _)]
    exact h.kept
  case arrived =>
    intro i u hu hku hsource htarget hstage hnone
    have hi : i ≠ msg.task := by
      intro heq
      subst heq
      obtain rfl : t = u := Option.some.inj (ht.symm.trans hu)
      exact hk hku
    rw [hsame]
    exact h.arrived i u hu hku hsource htarget hstage (task_ne_of_eraseIdx hmsg hi hnone)

/-- Data arrives that is for the key: it is what the source of the task has. -/
theorem Carried.allocate_of_mem (h : Carried k old new v s)
    (htransit : Transit s.tasks k old new) {j : ℕ} {msg : DataMsg}
    (hmsg : s.allocations[j]? = some msg) {t : Migration} (ht : s.tasks[msg.task]? = some t)
    (hfid : msg.fid = atoi t.target) (hcurrent : Current s.followers t msg.data)
    (hk : k ∈ t.datas) :
    Carried k old new v (s.allocatedAt j msg) := by
  have hin : k ∈ msg.data.map Prod.fst := by
    rw [← List.mem_toFinset, hcurrent.keys]
    exact hk
  have hwritten : (handleProposerAllocateData (s.followers msg.fid) msg.data).lookup k =
      some (fetch (s.followers (atoi t.source)) k 0) := by
    apply lookup_handleProposerAllocateData _ hin
    intro e he hek
    rw [hcurrent.values e he, hek]
  have hends := htransit.ends t (List.mem_of_getElem? ht) hk
  have hvalue : t.source = old → fetch (s.followers (atoi t.source)) k 0 = v := by
    intro hsource
    rw [hsource]
    exact h.kept
  constructor
  case kept =>
    show fetch (Function.update s.followers msg.fid _ (atoi old)) k 0 = v
    by_cases heq : atoi old = msg.fid
    swap
    · rw [Function.update_of_ne heq]
      exact h.kept
    rw [heq, Function.update_self, fetch_of_lookup hwritten]
    obtain ⟨hsource, -⟩ | ⟨hself, hsource | -⟩ := hends
    · exact hvalue hsource
    · exact hvalue hsource
    · -- the new owner is the same follower
      rw [hself, ← hfid, ← heq]
      exact h.kept
  case arrived =>
    intro i u hu hku hsource htarget hstage hnone
    show (Function.update s.followers msg.fid _ (atoi new)).lookup k = some v
    by_cases hi : i = msg.task
    · subst hi
      obtain rfl : t = u := Option.some.inj (ht.symm.trans hu)
      rw [← htarget, ← hfid, Function.update_self, hwritten, hvalue hsource]
    · have hbefore := h.arrived i u hu hku hsource htarget hstage
        (task_ne_of_eraseIdx hmsg hi hnone)
      by_cases heq : atoi new = msg.fid
      swap
      · rw [Function.update_of_ne heq]
        exact hbefore
      rw [heq, Function.update_self, hwritten]
      obtain ⟨hsource, -⟩ | ⟨-, hsource | hsource⟩ := hends
      · rw [hvalue hsource]
      · rw [hvalue hsource]
      · rw [hsource, fetch_of_lookup hbefore]

/-- **One step of the migrator**, seen from the key. -/
theorem Carried.step (h : Carried k old new v s) (hinv : MigratorInv s)
    (htransit : Transit s.tasks k old new) (hstep : migratorStep s l = some s') :
    Carried k old new v s' := by
  cases migratorStep_cases hstep with
  | @start i keys t ht hidle hkeys =>
    refine h.of_same rfl rfl ?_
    intro j hdone hnone
    have hj : j ≠ i := by
      intro heq
      subst heq
      exact Stage.noConfusion ((setStage_stage_self s j .waiting).symm.trans hdone)
    exact ⟨(setStage_stage_of_ne s .waiting hj).symm.trans hdone, hnone⟩
  | answer hr => exact h.of_same rfl rfl fun _ hdone hnone => ⟨hdone, hnone⟩
  | receive hmsg => exact h.of_same rfl rfl fun _ hdone hnone => ⟨hdone, hnone⟩
  | @observe i t msg ht hwaiting hmsg =>
    refine h.of_same rfl rfl ?_
    intro j hdone hnone
    have hj : j ≠ i := by
      intro heq
      subst heq
      exact Stage.noConfusion ((setStage_stage_self s j .seen).symm.trans hdone)
    exact ⟨(setStage_stage_of_ne s .seen hj).symm.trans hdone, hnone⟩
  | nilMessage ht hseen hnone => exact absurd hnone (hinv.no_nilMessage ht hseen)
  | @forward i t msgs ht hseen hmsgs =>
    refine h.of_same rfl rfl ?_
    intro j hdone hnone
    -- the data of the task itself is on the way now
    have hj : j ≠ i := by
      intro heq
      subst heq
      exact hnone _ (List.mem_append_right _ List.mem_cons_self) rfl
    exact ⟨(setStage_stage_of_ne s .done hj).symm.trans hdone,
      fun a ha => hnone a (List.mem_append_left _ ha)⟩
  | @allocate j msg hmsg =>
    obtain ⟨t, ht, -, hfid, hcurrent⟩ := hinv.allocation msg (List.mem_of_getElem? hmsg)
    by_cases hk : k ∈ t.datas
    · exact h.allocate_of_mem htransit hmsg ht hfid hcurrent hk
    · exact h.allocate_of_not_mem hmsg ht hcurrent hk

theorem tasks_step (hstep : migratorStep s l = some s') : s'.tasks = s.tasks := by
  cases migratorStep_cases hstep <;> rfl

/-- **Every run that keeps the tasks apart** carries the key. -/
theorem carried_of_reach {ts : List Migration} {followers : ℕ → Trie}
    (hreach : Reach migratorStep keepsApart (· = startMigrator ts followers) s) :
    s.tasks = ts ∧ MigratorInv s ∧ ∀ k old new, Transit ts k old new →
      Carried k old new (fetch (followers (atoi old)) k 0) s := by
  apply Reach.invariant ?_ ?_ hreach
  · intro s₀ hs₀
    subst hs₀
    exact ⟨rfl, migratorInv_start ts followers,
      fun k old new _ => carried_start ts followers k old new⟩
  · intro s₀ s₁ l _ hs₀ hguard hstep
    obtain ⟨htasks, hinv, hcarried⟩ := hs₀
    refine ⟨(tasks_step hstep).trans htasks, hinv.step hguard hstep, ?_⟩
    intro k old new htransit
    exact (hcarried k old new htransit).step hinv (htasks ▸ htransit) hstep

end Carried

/-! ### The tasks of a whole call -/

/-- Nodes come with the numbers of followers, by `strconv.Itoa`. -/
def Numbered : HashCall → Prop
  | .addNode nodeID _ _ => ∃ fid < 2 ^ 63, nodeID = toString (fid : ℕ)
  | .removeNode _ | .getNode _ => True

theorem Numbered.valid {op : HashCall} (h : Numbered op) : op.Valid := by
  cases op with
  | addNode nodeID weight rolls =>
    obtain ⟨fid, -, rfl⟩ := h
    exact validID_toString fid
  | removeNode nodeID => trivial
  | getNode dataKey => trivial

/-- The hash function of the example: the second virtual node of the joining node lies between
the key and the first. -/
def nestedHash (x : String) : ℤ :=
  if x = "k" then 10 else if x = "1_1" then 20 else if x = "1_0" then 50 else 100

def nestedEncryptor : Encryptor where
  encrypt := nestedHash
  nonneg := by
    intro x
    unfold nestedHash
    split_ifs <;> decide
  lt := by
    intro x
    unfold nestedHash
    split_ifs <;> decide

/-- One follower, which has the key. -/
def beforeJoin : List HashCall := [.addNode "0" 1 fun _ => 0, .getNode "k"]

def joinCall : HashCall := .addNode "1" 1 fun _ => 0

/-- The tasks of the join: to the new node, and from the new node to itself. -/
def joinTasks : List Migration := [⟨"0", "1", {"k"}⟩, ⟨"1", "1", {"k"}⟩]

/-- Follower 0 has the account, with a balance of 7. -/
def richFollower : ℕ → Trie
  | 0 => Finmap.singleton "k" ⟨3, 7⟩
  | _ => ∅

theorem joinCall_tasks :
    ∃ c c', (newConsistentHash newSkiplistHashRing nestedEncryptor true 2).callsWithoutError
        beforeJoin = some c ∧ c.migrationTasks joinCall = some (c', joinTasks) ∧
      c.ringOwner "k" = some "0" ∧ c'.ringOwner "k" = some "1" := by
  have hrun : (((newConsistentHash newSkiplistHashRing nestedEncryptor true 2).callsWithoutError
      beforeJoin).bind fun c => (c.migrationTasks joinCall).map fun (c', ts) =>
        (c.ringOwner "k", c'.ringOwner "k", ts)) = some (some "0", some "1", joinTasks) := by
    decide +kernel
  obtain ⟨c, hc, hjoin⟩ := Option.bind_eq_some_iff.mp hrun
  obtain ⟨⟨c', ts⟩, hts, hall⟩ := Option.map_eq_some_iff.mp hjoin
  obtain ⟨hold, hnew, rfl⟩ : c.ringOwner "k" = some "0" ∧ c'.ringOwner "k" = some "1" ∧
      ts = joinTasks := by
    simpa only [Prod.mk.injEq] using hall
  exact ⟨c, c', hc, hts, hold, hnew⟩

theorem joinTasks_start (guard : MigratorSys → MigratorLabel → Prop) :
    Reach migratorStep guard (· = startMigrator joinTasks richFollower)
      (startMigrator joinTasks richFollower) := .start rfl

/-- The tasks one after the other. -/
def serialRun : List MigratorLabel :=
  [.start 0 ["k"], .answer 0, .receive 0, .observe 0, .forward 0, .allocate 0,
    .start 1 ["k"], .answer 0, .receive 0, .observe 1, .forward 1, .allocate 0]

/-- The second task asks the new follower before the first has brought the key there, and
writes the answer after that. -/
def staleRun : List MigratorLabel :=
  [.start 1 ["k"], .answer 0, .start 0 ["k"], .answer 0, .receive 1, .observe 0, .forward 0,
    .allocate 0, .receive 0, .observe 1, .forward 1, .allocate 0]

end Aster.SubMPT
