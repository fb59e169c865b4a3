import Aster.SubMPT.Migrator

/-!
# Tasks that keep apart

When a task starts only while no task with the same source or with a common key is under way,
the tasks do not disturb each other: the slot of a follower holds the response for the one task
that waits for it, and what a task carries is what its source still has.  So each task acts as
if it copied its keys in one step, when its data arrives.
-/

namespace Aster.SubMPT

open Aster.Core Aster.Local Aster.Lib Aster.Lib.Transition

variable {s s' : MigratorSys} {l : MigratorLabel}

/-! ### What a step can do -/

namespace MigratorSys

/-- A task has sent its request. -/
def requested (s : MigratorSys) (i : ℕ) (t : Migration) (keys : List Address) : MigratorSys :=
  { s.setStage i .waiting with requests := s.requests ++ [⟨i, atoi t.source, keys⟩] }

/-- A follower has answered a request. -/
def answered (s : MigratorSys) (j : ℕ) (r : RequestDataMsg) : MigratorSys :=
  { s with
    requests := s.requests.eraseIdx j
    responses := s.responses ++
      [⟨r.task, r.fid, handleProposerRequest (s.followers r.fid) r.keys⟩] }

/-- A response has been put into its slot. -/
def received (s : MigratorSys) (j : ℕ) (msg : DataMsg) : MigratorSys :=
  { s with
    responses := s.responses.eraseIdx j
    receiveRequestDataMap := Function.update s.receiveRequestDataMap msg.fid (some msg) }

/-- A task has taken the response from the slot and sent it on. -/
def forwarded (s : MigratorSys) (i : ℕ) (t : Migration) (msgs : DataMsg) : MigratorSys :=
  { s.setStage i .done with
    allocations := s.allocations ++ [⟨i, atoi t.target, msgs.data⟩]
    receiveRequestDataMap := Function.update s.receiveRequestDataMap (atoi t.source) none }

/-- The data of a task has arrived. -/
def allocatedAt (s : MigratorSys) (j : ℕ) (msg : DataMsg) : MigratorSys :=
  { s with
    allocations := s.allocations.eraseIdx j
    followers := Function.update s.followers msg.fid
      (handleProposerAllocateData (s.followers msg.fid) msg.data) }

end MigratorSys

inductive MigratorRule (s : MigratorSys) : MigratorLabel → MigratorSys → Prop
  | start {i : ℕ} {keys : List Address} {t : Migration} : s.tasks[i]? = some t →
      s.stage i = .idle → keys.toFinset = t.datas →
      MigratorRule s (.start i keys) (s.requested i t keys)
  | answer {j : ℕ} {r : RequestDataMsg} : s.requests[j]? = some r →
      MigratorRule s (.answer j) (s.answered j r)
  | receive {j : ℕ} {msg : DataMsg} : s.responses[j]? = some msg → s.lockLost = false →
      MigratorRule s (.receive j) (s.received j msg)
  | observe {i : ℕ} {t : Migration} {msg : DataMsg} : s.tasks[i]? = some t →
      s.stage i = .waiting → s.receiveRequestDataMap (atoi t.source) = some msg →
      MigratorRule s (.observe i) (s.setStage i .seen)
  | nilMessage {i : ℕ} {t : Migration} : s.tasks[i]? = some t → s.stage i = .seen →
      s.receiveRequestDataMap (atoi t.source) = none →
      MigratorRule s (.forward i) { s.setStage i .done with lockLost := true }
  | forward {i : ℕ} {t : Migration} {msgs : DataMsg} : s.tasks[i]? = some t →
      s.stage i = .seen → s.receiveRequestDataMap (atoi t.source) = some msgs →
      MigratorRule s (.forward i) (s.forwarded i t msgs)
  | allocate {j : ℕ} {msg : DataMsg} : s.allocations[j]? = some msg →
      MigratorRule s (.allocate j) (s.allocatedAt j msg)

theorem migratorStep_cases (h : migratorStep s l = some s') : MigratorRule s l s' := by
  cases l with
  | start i keys =>
    obtain ⟨t, ht, h⟩ := Option.bind_eq_some_iff.mp h
    split_ifs at h with hc
    obtain rfl := Option.some.inj h
    exact .start ht hc.1 hc.2.2
  | answer j =>
    obtain ⟨r, hr, h⟩ := Option.bind_eq_some_iff.mp h
    obtain rfl := Option.some.inj h
    exact .answer hr
  | receive j =>
    obtain ⟨msg, hmsg, h⟩ := Option.bind_eq_some_iff.mp h
    split_ifs at h with hc
    obtain rfl := Option.some.inj h
    exact .receive hmsg (Bool.eq_false_iff.mpr hc)
  | observe i =>
    obtain ⟨t, ht, h⟩ := Option.bind_eq_some_iff.mp h
    split_ifs at h with hc
    obtain rfl := Option.some.inj h
    obtain ⟨msg, hmsg⟩ := Option.isSome_iff_exists.mp hc.2.2
    exact .observe ht hc.2.1 hmsg
  | forward i =>
    obtain ⟨t, ht, h⟩ := Option.bind_eq_some_iff.mp h
    split_ifs at h with hc
    cases hmsg : s.receiveRequestDataMap (atoi t.source) with
    | none =>
      rw [hmsg] at h
      obtain rfl := Option.some.inj h
      exact .nilMessage ht hc.2 hmsg
    | some msgs =>
      rw [hmsg] at h
      obtain rfl := Option.some.inj h
      exact .forward ht hc.2 hmsg
  | allocate j =>
    obtain ⟨msg, hmsg, h⟩ := Option.bind_eq_some_iff.mp h
    obtain rfl := Option.some.inj h
    exact .allocate hmsg

/-! ### The condition on a run -/

/-- The task has sent its request, and the data it sent on has not arrived. -/
def MigratorSys.UnderWay (s : MigratorSys) (i : ℕ) : Prop :=
  s.stage i = .waiting ∨ s.stage i = .seen ∨ ∃ a ∈ s.allocations, a.task = i

instance (s : MigratorSys) (i : ℕ) : Decidable (s.UnderWay i) :=
  inferInstanceAs (Decidable (_ ∨ _ ∨ _))

/-- The tasks have different sources and no common key. -/
def Apart (t u : Migration) : Prop :=
  atoi t.source ≠ atoi u.source ∧ Disjoint t.datas u.datas

instance (t u : Migration) : Decidable (Apart t u) := inferInstanceAs (Decidable (_ ∧ _))

theorem Apart.symm {t u : Migration} (h : Apart t u) : Apart u t := ⟨h.1.symm, h.2.symm⟩

/-- The condition on a step: a task starts only while no task that is not apart from it is
under way. -/
def keepsApart (s : MigratorSys) : MigratorLabel → Prop
  | .start i _ => ∀ j < s.tasks.length, s.UnderWay j →
      ∀ t ∈ s.tasks[i]?, ∀ u ∈ s.tasks[j]?, Apart t u
  | _ => True

instance (s : MigratorSys) : (l : MigratorLabel) → Decidable (keepsApart s l)
  | .start _ _ => inferInstanceAs (Decidable (∀ j < s.tasks.length, _))
  | .answer _ | .receive _ | .observe _ | .forward _ | .allocate _ =>
    inferInstanceAs (Decidable True)

/-! ### The invariant -/

section Stages

variable {i j : ℕ} {a b x : Stage}

theorem setStage_stage_self (s : MigratorSys) (i : ℕ) (x : Stage) :
    (s.setStage i x).stage i = x := Function.update_self _ _ _

theorem setStage_stage_of_ne (s : MigratorSys) (x : Stage) (h : j ≠ i) :
    (s.setStage i x).stage j = s.stage j := Function.update_of_ne h _ _

theorem ne_of_stage (hi : s.stage i = a) (hj : s.stage j = b) (hne : b ≠ a) : j ≠ i := by
  intro heq
  rw [heq, hi] at hj
  exact hne hj.symm

/-- A task at another stage than the one that moves keeps its stage. -/
theorem setStage_stage_of_stage (hi : s.stage i = a) (hj : s.stage j = b) (hne : b ≠ a) :
    (s.setStage i x).stage j = b :=
  (setStage_stage_of_ne s x (ne_of_stage hi hj hne)).trans hj

/-- A task that is now at another stage than the one that moved was there before. -/
theorem stage_of_setStage (hj : (s.setStage i x).stage j = b) (hne : b ≠ x) :
    j ≠ i ∧ s.stage j = b := by
  have hji : j ≠ i := by
    intro heq
    rw [heq, setStage_stage_self] at hj
    exact hne hj.symm
  exact ⟨hji, (setStage_stage_of_ne s x hji).symm.trans hj⟩

end Stages

/-- The message carries the keys of the task, with what the source has. -/
structure Current (followers : ℕ → Trie) (t : Migration) (data : AccountData) : Prop where
  keys : (data.map Prod.fst).toFinset = t.datas
  values : ∀ e ∈ data, e.2 = fetch (followers (atoi t.source)) e.1 0

/-- Whether the slot of the task's source holds the response for the task. -/
def inSlot (s : MigratorSys) (i : ℕ) (t : Migration) : ℕ :=
  if (s.receiveRequestDataMap (atoi t.source)).any fun msg => msg.task = i then 1 else 0

/-- The number of messages on behalf of a task. -/
def tokens (s : MigratorSys) (i : ℕ) (t : Migration) : ℕ :=
  s.requests.countP (·.task = i) + s.responses.countP (·.task = i) + inSlot s i t +
    s.allocations.countP (·.task = i)

/-- At every moment a task that is under way has its keys in one place: with its request, with
one message of data, or in the slot of its source. -/
structure MigratorInv (s : MigratorSys) : Prop where
  lock : s.lockLost = false
  apart : ∀ i j t u, i ≠ j → s.tasks[i]? = some t → s.tasks[j]? = some u → s.UnderWay i →
    s.UnderWay j → Apart t u
  request : ∀ r ∈ s.requests, ∃ t, s.tasks[r.task]? = some t ∧ s.stage r.task = .waiting ∧
    r.fid = atoi t.source ∧ r.keys.toFinset = t.datas
  response : ∀ m ∈ s.responses, ∃ t, s.tasks[m.task]? = some t ∧ s.stage m.task = .waiting ∧
    m.fid = atoi t.source ∧ Current s.followers t m.data
  slot : ∀ fid m, s.receiveRequestDataMap fid = some m → ∃ t, s.tasks[m.task]? = some t ∧
    (s.stage m.task = .waiting ∨ s.stage m.task = .seen) ∧ fid = atoi t.source ∧
    Current s.followers t m.data
  allocation : ∀ a ∈ s.allocations, ∃ t, s.tasks[a.task]? = some t ∧ s.stage a.task = .done ∧
    a.fid = atoi t.target ∧ Current s.followers t a.data
  waiting : ∀ i t, s.tasks[i]? = some t → s.stage i = .waiting → tokens s i t = 1
  seen : ∀ i t, s.tasks[i]? = some t → s.stage i = .seen → inSlot s i t = 1
  once : ∀ i t, s.tasks[i]? = some t → tokens s i t ≤ 1

theorem migratorInv_start (tasks : List Migration) (followers : ℕ → Trie) :
    MigratorInv (startMigrator tasks followers) := by
  constructor
  case lock => rfl
  case apart =>
    intro _ j _ _ _ _ _ _ hj
    obtain h | h | ⟨a, ha, -⟩ := hj
    · cases h
    · cases h
    · cases ha
  case request => exact nofun
  case response => exact nofun
  case slot => exact nofun
  case allocation => exact nofun
  case waiting => exact nofun
  case seen => exact nofun
  case once => exact fun i t _ => Nat.zero_le 1

theorem inSlot_eq_one {i : ℕ} {t : Migration} :
    inSlot s i t = 1 ↔
      ∃ m, s.receiveRequestDataMap (atoi t.source) = some m ∧ m.task = i := by
  unfold inSlot
  cases s.receiveRequestDataMap (atoi t.source) <;> simp

theorem exists_getElem?_zero {α : Type} {l : List α} (h : l ≠ []) : ∃ x, l[0]? = some x := by
  cases l with
  | nil => exact absurd rfl h
  | cons x l => exact ⟨x, rfl⟩

theorem current_handleProposerRequest {followers : ℕ → Trie} {t : Migration} {fid : ℕ}
    {keys : List Address} (hfid : fid = atoi t.source) (hkeys : keys.toFinset = t.datas) :
    Current followers t (handleProposerRequest (followers fid) keys) where
  keys := by
    rw [handleProposerRequest, List.map_map, ← hkeys]
    congr 1
    exact List.map_id keys
  values := by
    intro e he
    obtain ⟨key, -, rfl⟩ := List.mem_map.mp he
    rw [hfid]

theorem lookup_handleProposerAllocateData_of_not_mem (st : Trie) {data : AccountData}
    {k : Address} (hk : k ∉ data.map Prod.fst) :
    (handleProposerAllocateData st data).lookup k = st.lookup k := by
  induction data generalizing st with
  | nil => rfl
  | cons e data ih =>
    obtain ⟨hne, hrest⟩ := not_or.mp (List.mem_cons.not.mp hk)
    show (handleProposerAllocateData (st.insert e.1 e.2) data).lookup k = st.lookup k
    rw [ih _ hrest]
    exact Finmap.lookup_insert_of_ne st hne

theorem lookup_handleProposerAllocateData (st : Trie) {data : AccountData} {k : Address}
    {v : AccountState} (hk : k ∈ data.map Prod.fst) (hv : ∀ e ∈ data, e.1 = k → e.2 = v) :
    (handleProposerAllocateData st data).lookup k = some v := by
  induction data generalizing st with
  | nil => cases hk
  | cons e data ih =>
    show (handleProposerAllocateData (st.insert e.1 e.2) data).lookup k = some v
    by_cases hrest : k ∈ data.map Prod.fst
    · exact ih _ hrest fun e' he' => hv e' (List.mem_cons_of_mem e he')
    · obtain hk | hk := List.mem_cons.mp hk
      · rw [lookup_handleProposerAllocateData_of_not_mem _ hrest, hk, Finmap.lookup_insert,
          hv e List.mem_cons_self hk.symm]
      · exact absurd hk hrest

theorem fetch_congr {st st' : Trie} {k : Address} (h : st.lookup k = st'.lookup k) (i : ℕ) :
    fetch st k i = fetch st' k i := by
  unfold fetch
  rw [h]

/-- What a task carries stays current when data for other keys arrives. -/
theorem Current.allocate {followers : ℕ → Trie} {t u : Migration} {data data' : AccountData}
    {fid : ℕ} (h : Current followers u data) (hdata : Current followers t data')
    (hd : Disjoint u.datas t.datas) :
    Current (Function.update followers fid
      (handleProposerAllocateData (followers fid) data')) u data where
  keys := h.keys
  values := by
    intro e he
    have hmem : e.1 ∈ u.datas := by
      rw [← h.keys]
      exact List.mem_toFinset.mpr (List.mem_map_of_mem he)
    have hnot : e.1 ∉ data'.map Prod.fst := by
      intro hin
      rw [← List.mem_toFinset, hdata.keys] at hin
      exact Finset.disjoint_left.mp hd hmem hin
    rw [h.values e he]
    by_cases hfid : atoi u.source = fid
    · subst hfid
      rw [Function.update_self]
      exact fetch_congr (lookup_handleProposerAllocateData_of_not_mem _ hnot).symm 0
    · rw [Function.update_of_ne hfid]

namespace MigratorInv

/-- A task that has not started has no message. -/
theorem tokens_idle (h : MigratorInv s) {i : ℕ} {t : Migration} (hi : s.stage i = .idle) :
    tokens s i t = 0 := by
  have hrequests : s.requests.countP (·.task = i) = 0 := by
    rw [List.countP_eq_zero]
    intro r hr heq
    obtain ⟨_, _, hstage, _⟩ := h.request r hr
    rw [of_decide_eq_true heq, hi] at hstage
    cases hstage
  have hresponses : s.responses.countP (·.task = i) = 0 := by
    rw [List.countP_eq_zero]
    intro m hm heq
    obtain ⟨_, _, hstage, _⟩ := h.response m hm
    rw [of_decide_eq_true heq, hi] at hstage
    cases hstage
  have hallocations : s.allocations.countP (·.task = i) = 0 := by
    rw [List.countP_eq_zero]
    intro m hm heq
    obtain ⟨_, _, hstage, _⟩ := h.allocation m hm
    rw [of_decide_eq_true heq, hi] at hstage
    cases hstage
  have hslot : inSlot s i t ≠ 1 := by
    intro hone
    obtain ⟨m, hm, rfl⟩ := inSlot_eq_one.mp hone
    obtain ⟨_, _, hstage | hstage, _⟩ := h.slot _ m hm
    · rw [hi] at hstage
      cases hstage
    · rw [hi] at hstage
      cases hstage
  have hle : inSlot s i t ≤ 1 := by
    unfold inSlot
    split <;> omega
  unfold tokens
  omega

/-- The response in a slot is for the task under way with that source. -/
theorem slot_task (h : MigratorInv s) {i : ℕ} {t : Migration} {m : DataMsg}
    (ht : s.tasks[i]? = some t) (hi : s.UnderWay i)
    (hm : s.receiveRequestDataMap (atoi t.source) = some m) : m.task = i := by
  obtain ⟨u, hu, hstage, hsource, -⟩ := h.slot _ m hm
  by_contra hne
  have hway : s.UnderWay m.task := by
    obtain hw | hs := hstage
    · exact .inl hw
    · exact .inr (.inl hs)
  exact (h.apart i m.task t u (Ne.symm hne) ht hu hi hway).1 hsource

/-- A task with a message is under way. -/
theorem underWay_response (h : MigratorInv s) {m : DataMsg} (hm : m ∈ s.responses) :
    s.UnderWay m.task := by
  obtain ⟨_, _, hstage, _⟩ := h.response m hm
  exact .inl hstage

theorem underWay_slot (h : MigratorInv s) {fid : ℕ} {m : DataMsg}
    (hm : s.receiveRequestDataMap fid = some m) : s.UnderWay m.task := by
  obtain ⟨_, _, hstage | hstage, _⟩ := h.slot fid m hm
  · exact .inl hstage
  · exact .inr (.inl hstage)

/-! ### Each step keeps the invariant -/

section Start

variable {i : ℕ} {keys : List Address} {t : Migration}

theorem underWay_requested {j : ℕ} (hj : j ≠ i) (h : (s.requested i t keys).UnderWay j) :
    s.UnderWay j := by
  have hstage : (s.requested i t keys).stage j = s.stage j := setStage_stage_of_ne s _ hj
  unfold MigratorSys.UnderWay at h
  rw [hstage] at h
  exact h

theorem tokens_requested (j : ℕ) (u : Migration) :
    tokens (s.requested i t keys) j u = tokens s j u + if i = j then 1 else 0 := by
  have hsnoc : (s.requested i t keys).requests.countP (·.task = j) =
      s.requests.countP (·.task = j) + if i = j then 1 else 0 :=
    countP_task_snoc RequestDataMsg.task _ _ j
  show (s.requested i t keys).requests.countP (·.task = j) +
    s.responses.countP (·.task = j) + inSlot s j u + s.allocations.countP (·.task = j) = _
  rw [hsnoc, tokens]
  omega

/-- A task starts: nothing of it is on the way yet, and the tasks under way are apart from
it. -/
theorem start (h : MigratorInv s) (hguard : keepsApart s (.start i keys))
    (ht : s.tasks[i]? = some t) (hidle : s.stage i = .idle) (hkeys : keys.toFinset = t.datas) :
    MigratorInv (s.requested i t keys) := by
  have hfrom : ∀ {j : ℕ} {u : Migration}, s.tasks[j]? = some u → s.UnderWay j → Apart t u := by
    intro j u hu hw
    exact hguard j (List.getElem?_eq_some_iff.mp hu).1 hw t ht u hu
  constructor
  case lock => exact h.lock
  case apart =>
    intro j k u v hne hu hv hj hk
    by_cases hji : j = i
    · subst hji
      obtain rfl : t = u := Option.some.inj (ht.symm.trans hu)
      exact hfrom hv (underWay_requested (Ne.symm hne) hk)
    by_cases hki : k = i
    · subst hki
      obtain rfl : t = v := Option.some.inj (ht.symm.trans hv)
      exact (hfrom hu (underWay_requested hji hj)).symm
    exact h.apart j k u v hne hu hv (underWay_requested hji hj) (underWay_requested hki hk)
  case request =>
    intro r hr
    obtain hr | hr := List.mem_append.mp hr
    · obtain ⟨u, hu, hstage, hrest⟩ := h.request r hr
      exact ⟨u, hu, setStage_stage_of_stage hidle hstage (by decide), hrest⟩
    · obtain rfl := List.mem_singleton.mp hr
      exact ⟨t, ht, setStage_stage_self s i .waiting, rfl, hkeys⟩
  case response =>
    intro m hm
    obtain ⟨u, hu, hstage, hrest⟩ := h.response m hm
    exact ⟨u, hu, setStage_stage_of_stage hidle hstage (by decide), hrest⟩
  case slot =>
    intro fid m hm
    obtain ⟨u, hu, hstage, hrest⟩ := h.slot fid m hm
    refine ⟨u, hu, ?_, hrest⟩
    obtain hstage | hstage := hstage
    · exact .inl (setStage_stage_of_stage hidle hstage (by decide))
    · exact .inr (setStage_stage_of_stage hidle hstage (by decide))
  case allocation =>
    intro a ha
    obtain ⟨u, hu, hstage, hrest⟩ := h.allocation a ha
    exact ⟨u, hu, setStage_stage_of_stage hidle hstage (by decide), hrest⟩
  case seen =>
    intro j u hu hstage
    exact h.seen j u hu (stage_of_setStage hstage (by decide)).2
  case waiting =>
    intro j u hu hstage
    rw [tokens_requested]
    by_cases heq : i = j
    · rw [if_pos heq, h.tokens_idle (heq ▸ hidle)]
    · rw [if_neg heq]
      exact h.waiting j u hu
        ((setStage_stage_of_ne s .waiting (Ne.symm heq)).symm.trans hstage)
  case once =>
    intro j u hu
    rw [tokens_requested]
    by_cases heq : i = j
    · rw [if_pos heq, h.tokens_idle (heq ▸ hidle)]
    · rw [if_neg heq]
      exact h.once j u hu

end Start

section Answer

variable {j : ℕ} {r : RequestDataMsg}

theorem tokens_answered (hr : s.requests[j]? = some r) (i : ℕ) (t : Migration) :
    tokens (s.answered j r) i t = tokens s i t := by
  have herase := countP_task_eraseIdx RequestDataMsg.task hr i
  have hsnoc : (s.answered j r).responses.countP (·.task = i) =
      s.responses.countP (·.task = i) + if r.task = i then 1 else 0 :=
    countP_task_snoc DataMsg.task _ _ i
  show (s.requests.eraseIdx j).countP (·.task = i) +
    (s.answered j r).responses.countP (·.task = i) + inSlot s i t +
      s.allocations.countP (·.task = i) = _
  rw [hsnoc, tokens, herase]
  omega

/-- A follower answers: the response carries what the source has. -/
theorem answer (h : MigratorInv s) (hr : s.requests[j]? = some r) :
    MigratorInv (s.answered j r) := by
  constructor
  case lock => exact h.lock
  case apart => exact h.apart
  case request => exact fun r' hr' => h.request r' (List.mem_of_mem_eraseIdx hr')
  case response =>
    intro m hm
    obtain hm | hm := List.mem_append.mp hm
    · exact h.response m hm
    · obtain rfl := List.mem_singleton.mp hm
      obtain ⟨t, ht, hstage, hfid, hkeys⟩ := h.request r (List.mem_of_getElem? hr)
      exact ⟨t, ht, hstage, hfid, current_handleProposerRequest hfid hkeys⟩
  case slot => exact h.slot
  case allocation => exact h.allocation
  case seen => exact h.seen
  case waiting =>
    intro i t ht hstage
    rw [tokens_answered hr]
    exact h.waiting i t ht hstage
  case once =>
    intro i t ht
    rw [tokens_answered hr]
    exact h.once i t ht

end Answer

section Receive

variable {j : ℕ} {msg : DataMsg}

/-- The slot of a response that is on the way is free. -/
theorem slot_free (h : MigratorInv s) (hm : msg ∈ s.responses) :
    s.receiveRequestDataMap msg.fid = none := by
  obtain ⟨t, ht, -, hfid, -⟩ := h.response msg hm
  cases hslot : s.receiveRequestDataMap msg.fid with
  | none => rfl
  | some m =>
    -- the two messages would be for one task
    rw [hfid] at hslot
    have htask := h.slot_task ht (h.underWay_response hm) hslot
    have hin : inSlot s msg.task t = 1 := inSlot_eq_one.mpr ⟨m, hslot, htask⟩
    have hpos : 0 < s.responses.countP (·.task = msg.task) := countP_task_pos DataMsg.task hm
    have honce := h.once msg.task t ht
    unfold tokens at honce
    omega

theorem inSlot_received (h : MigratorInv s) (hm : msg ∈ s.responses) {i : ℕ} {u : Migration}
    (hu : s.tasks[i]? = some u) :
    inSlot (s.received j msg) i u = inSlot s i u + if msg.task = i then 1 else 0 := by
  obtain ⟨t, ht, -, hfid, -⟩ := h.response msg hm
  unfold inSlot MigratorSys.received
  by_cases hsource : atoi u.source = msg.fid
  · rw [hsource, h.slot_free hm]
    simp
  · have hne : msg.task ≠ i := by
      intro heq
      subst heq
      obtain rfl : t = u := Option.some.inj (ht.symm.trans hu)
      exact hsource hfid.symm
    simp [Function.update_of_ne hsource, hne]

theorem tokens_received (h : MigratorInv s) (hmsg : s.responses[j]? = some msg) {i : ℕ}
    {u : Migration} (hu : s.tasks[i]? = some u) :
    tokens (s.received j msg) i u = tokens s i u := by
  have herase := countP_task_eraseIdx DataMsg.task hmsg i
  show s.requests.countP (·.task = i) + (s.responses.eraseIdx j).countP (·.task = i) +
    inSlot (s.received j msg) i u + s.allocations.countP (·.task = i) = _
  rw [h.inSlot_received (List.mem_of_getElem? hmsg) hu, tokens, herase]
  omega

/-- `handleFollowerResponse` fills a free slot. -/
theorem receive (h : MigratorInv s) (hmsg : s.responses[j]? = some msg) :
    MigratorInv (s.received j msg) := by
  have hmem := List.mem_of_getElem? hmsg
  obtain ⟨t, ht, hstage, hfid, hcurrent⟩ := h.response msg hmem
  constructor
  case lock => exact h.lock
  case apart => exact h.apart
  case request => exact h.request
  case response => exact fun m hm => h.response m (List.mem_of_mem_eraseIdx hm)
  case slot =>
    intro fid m hm
    by_cases heq : fid = msg.fid
    · subst heq
      obtain rfl : msg = m := by simpa [MigratorSys.received] using hm
      exact ⟨t, ht, .inl hstage, hfid, hcurrent⟩
    · exact h.slot fid m ((Function.update_of_ne heq _ _).symm.trans hm)
  case allocation => exact h.allocation
  case seen =>
    intro i u hu hseen
    have hne : i ≠ msg.task := ne_of_stage hstage hseen (by decide)
    rw [h.inSlot_received hmem hu, h.seen i u hu hseen, if_neg (Ne.symm hne)]
  case waiting =>
    intro i u hu hwaiting
    rw [h.tokens_received hmsg hu]
    exact h.waiting i u hu hwaiting
  case once =>
    intro i u hu
    rw [h.tokens_received hmsg hu]
    exact h.once i u hu

end Receive

section Observe

variable {i : ℕ} {t : Migration} {msg : DataMsg}

theorem underWay_setStage {x : Stage} (hi : s.UnderWay i) {j : ℕ}
    (h : (s.setStage i x).UnderWay j) : s.UnderWay j := by
  by_cases hj : j = i
  · exact hj ▸ hi
  · unfold MigratorSys.UnderWay at h
    rw [setStage_stage_of_ne s x hj] at h
    exact h

/-- The polling loop of a task ends: what it found is for this task. -/
theorem observe (h : MigratorInv s) (ht : s.tasks[i]? = some t)
    (hwaiting : s.stage i = .waiting)
    (hmsg : s.receiveRequestDataMap (atoi t.source) = some msg) :
    MigratorInv (s.setStage i .seen) := by
  have hin : inSlot s i t = 1 :=
    inSlot_eq_one.mpr ⟨msg, hmsg, h.slot_task ht (.inl hwaiting) hmsg⟩
  have honce := h.once i t ht
  unfold tokens at honce
  constructor
  case lock => exact h.lock
  case apart =>
    intro j k u v hne hu hv hj hk
    exact h.apart j k u v hne hu hv (underWay_setStage (.inl hwaiting) hj)
      (underWay_setStage (.inl hwaiting) hk)
  case request =>
    intro r hr
    have hne : r.task ≠ i := by
      intro heq
      have hpos : 0 < s.requests.countP (·.task = r.task) := countP_task_pos RequestDataMsg.task hr
      rw [heq] at hpos
      omega
    rw [setStage_stage_of_ne s .seen hne]
    exact h.request r hr
  case response =>
    intro m hm
    have hne : m.task ≠ i := by
      intro heq
      have hpos : 0 < s.responses.countP (·.task = m.task) := countP_task_pos DataMsg.task hm
      rw [heq] at hpos
      omega
    rw [setStage_stage_of_ne s .seen hne]
    exact h.response m hm
  case slot =>
    intro fid m hm
    obtain ⟨u, hu, hstage, hrest⟩ := h.slot fid m hm
    refine ⟨u, hu, ?_, hrest⟩
    by_cases heq : m.task = i
    · rw [heq]
      exact .inr (setStage_stage_self s i .seen)
    · rw [setStage_stage_of_ne s .seen heq]
      exact hstage
  case allocation =>
    intro a ha
    obtain ⟨u, hu, hstage, hrest⟩ := h.allocation a ha
    exact ⟨u, hu, setStage_stage_of_stage hwaiting hstage (by decide), hrest⟩
  case seen =>
    intro j u hu hseen
    by_cases hj : j = i
    · subst hj
      obtain rfl : t = u := Option.some.inj (ht.symm.trans hu)
      exact hin
    · rw [setStage_stage_of_ne s .seen hj] at hseen
      exact h.seen j u hu hseen
  case waiting =>
    intro j u hu hstage
    exact h.waiting j u hu (stage_of_setStage hstage (by decide)).2
  case once => exact h.once

end Observe

section Forward

variable {i : ℕ} {t : Migration} {msgs : DataMsg}

theorem underWay_forwarded (hi : s.UnderWay i) {j : ℕ}
    (h : (s.forwarded i t msgs).UnderWay j) : s.UnderWay j := by
  obtain hw | hw | ⟨a, ha, htask⟩ := h
  · exact underWay_setStage hi (.inl hw)
  · exact underWay_setStage hi (.inr (.inl hw))
  · obtain ha | ha := List.mem_append.mp ha
    · exact .inr (.inr ⟨a, ha, htask⟩)
    · obtain rfl := List.mem_singleton.mp ha
      exact htask ▸ hi

theorem inSlot_forwarded (ht : s.tasks[i]? = some t) (htask : msgs.task = i)
    (hmsgs : s.receiveRequestDataMap (atoi t.source) = some msgs) {j : ℕ} {u : Migration}
    (hu : s.tasks[j]? = some u) :
    inSlot (s.forwarded i t msgs) j u + (if i = j then 1 else 0) = inSlot s j u := by
  unfold inSlot MigratorSys.forwarded
  by_cases hsource : atoi u.source = atoi t.source
  · simp [hsource, hmsgs, htask]
  · have hne : i ≠ j := by
      intro heq
      subst heq
      obtain rfl : t = u := Option.some.inj (ht.symm.trans hu)
      exact hsource rfl
    simp [Function.update_of_ne hsource, hne]

theorem tokens_forwarded (ht : s.tasks[i]? = some t) (htask : msgs.task = i)
    (hmsgs : s.receiveRequestDataMap (atoi t.source) = some msgs) {j : ℕ} {u : Migration}
    (hu : s.tasks[j]? = some u) : tokens (s.forwarded i t msgs) j u = tokens s j u := by
  have hsnoc : (s.forwarded i t msgs).allocations.countP (·.task = j) =
      s.allocations.countP (·.task = j) + if i = j then 1 else 0 :=
    countP_task_snoc DataMsg.task _ _ j
  show s.requests.countP (·.task = j) + s.responses.countP (·.task = j) +
    inSlot (s.forwarded i t msgs) j u +
      (s.forwarded i t msgs).allocations.countP (·.task = j) = _
  rw [hsnoc, tokens, ← inSlot_forwarded ht htask hmsgs hu]
  omega

/-- A task forwards the response that it found. -/
theorem forward (h : MigratorInv s) (ht : s.tasks[i]? = some t) (hseen : s.stage i = .seen)
    (hmsgs : s.receiveRequestDataMap (atoi t.source) = some msgs) :
    MigratorInv (s.forwarded i t msgs) := by
  have hway : s.UnderWay i := .inr (.inl hseen)
  have htask : msgs.task = i := h.slot_task ht hway hmsgs
  constructor
  case lock => exact h.lock
  case apart =>
    intro j k u v hne hu hv hj hk
    exact h.apart j k u v hne hu hv (underWay_forwarded hway hj) (underWay_forwarded hway hk)
  case request =>
    intro r hr
    obtain ⟨u, hu, hstage, hrest⟩ := h.request r hr
    exact ⟨u, hu, setStage_stage_of_stage hseen hstage (by decide), hrest⟩
  case response =>
    intro m hm
    obtain ⟨u, hu, hstage, hrest⟩ := h.response m hm
    exact ⟨u, hu, setStage_stage_of_stage hseen hstage (by decide), hrest⟩
  case slot =>
    intro fid m hm
    by_cases hfid : fid = atoi t.source
    · subst hfid
      simp [MigratorSys.forwarded] at hm
    · obtain ⟨u, hu, hstage, hsource, hcurrent⟩ :=
        h.slot fid m ((Function.update_of_ne hfid _ _).symm.trans hm)
      have hne : m.task ≠ i := by
        intro heq
        rw [heq] at hu
        obtain rfl : t = u := Option.some.inj (ht.symm.trans hu)
        exact hfid hsource
      rw [← setStage_stage_of_ne s .done hne] at hstage
      exact ⟨u, hu, hstage, hsource, hcurrent⟩
  case allocation =>
    intro a ha
    obtain ha | ha := List.mem_append.mp ha
    · obtain ⟨u, hu, hstage, hrest⟩ := h.allocation a ha
      exact ⟨u, hu, setStage_stage_of_stage hseen hstage (by decide), hrest⟩
    · obtain rfl := List.mem_singleton.mp ha
      obtain ⟨u, hu, -, -, hcurrent⟩ := h.slot _ msgs hmsgs
      rw [htask] at hu
      obtain rfl : t = u := Option.some.inj (ht.symm.trans hu)
      exact ⟨t, ht, setStage_stage_self s i .done, rfl, hcurrent⟩
  case seen =>
    intro j u hu hstage
    obtain ⟨hne, hstage⟩ := stage_of_setStage hstage (by decide)
    have hadd := inSlot_forwarded ht htask hmsgs hu
    rw [if_neg (Ne.symm hne), h.seen j u hu hstage] at hadd
    exact hadd
  case waiting =>
    intro j u hu hstage
    rw [tokens_forwarded ht htask hmsgs hu]
    exact h.waiting j u hu (stage_of_setStage hstage (by decide)).2
  case once =>
    intro j u hu
    rw [tokens_forwarded ht htask hmsgs hu]
    exact h.once j u hu

end Forward

section Allocate

variable {j : ℕ} {msg : DataMsg}

theorem underWay_allocatedAt {i : ℕ} (h : (s.allocatedAt j msg).UnderWay i) : s.UnderWay i := by
  obtain hw | hw | ⟨a, ha, htask⟩ := h
  · exact .inl hw
  · exact .inr (.inl hw)
  · exact .inr (.inr ⟨a, List.mem_of_mem_eraseIdx ha, htask⟩)

theorem tokens_allocatedAt (hmsg : s.allocations[j]? = some msg) (i : ℕ) (u : Migration) :
    tokens (s.allocatedAt j msg) i u + (if msg.task = i then 1 else 0) = tokens s i u := by
  have herase := countP_task_eraseIdx DataMsg.task hmsg i
  show s.requests.countP (·.task = i) + s.responses.countP (·.task = i) + inSlot s i u +
    (s.allocations.eraseIdx j).countP (·.task = i) + _ = _
  rw [tokens, herase]
  omega

/-- The message sent on by a task is its only one. -/
theorem task_ne_of_mem_eraseIdx (h : MigratorInv s) (hmsg : s.allocations[j]? = some msg)
    {a : DataMsg} (ha : a ∈ s.allocations.eraseIdx j) : a.task ≠ msg.task := by
  intro heq
  obtain ⟨t, ht, -⟩ := h.allocation msg (List.mem_of_getElem? hmsg)
  have hpos : 0 < (s.allocations.eraseIdx j).countP (·.task = a.task) :=
    countP_task_pos DataMsg.task ha
  have herase := countP_task_eraseIdx DataMsg.task hmsg msg.task
  rw [if_pos rfl] at herase
  have honce := h.once msg.task t ht
  unfold tokens at honce
  rw [heq] at hpos
  omega

/-- `handleProposerAllocateData` writes keys that no other task under way has. -/
theorem allocate (h : MigratorInv s) (hmsg : s.allocations[j]? = some msg) :
    MigratorInv (s.allocatedAt j msg) := by
  have hmem := List.mem_of_getElem? hmsg
  obtain ⟨t, ht, hdone, -, hcurrent⟩ := h.allocation msg hmem
  have hkeep : ∀ {i u data}, s.tasks[i]? = some u → i ≠ msg.task → s.UnderWay i →
      Current s.followers u data → Current (s.allocatedAt j msg).followers u data := by
    intro i u data hu hne hi hdata
    have hmsgWay : s.UnderWay msg.task := .inr (.inr ⟨msg, hmem, rfl⟩)
    exact hdata.allocate hcurrent (h.apart i msg.task u t hne hu ht hi hmsgWay).2
  constructor
  case lock => exact h.lock
  case apart =>
    intro i k u v hne hu hv hi hk
    exact h.apart i k u v hne hu hv (underWay_allocatedAt hi) (underWay_allocatedAt hk)
  case request => exact h.request
  case response =>
    intro m hm
    obtain ⟨u, hu, hstage, hfid, hdata⟩ := h.response m hm
    have hne : m.task ≠ msg.task := ne_of_stage hdone hstage (by decide)
    exact ⟨u, hu, hstage, hfid, hkeep hu hne (h.underWay_response hm) hdata⟩
  case slot =>
    intro fid m hm
    obtain ⟨u, hu, hstage, hfid, hdata⟩ := h.slot fid m hm
    have hne : m.task ≠ msg.task := by
      obtain hstage | hstage := hstage
      · exact ne_of_stage hdone hstage (by decide)
      · exact ne_of_stage hdone hstage (by decide)
    exact ⟨u, hu, hstage, hfid, hkeep hu hne (h.underWay_slot hm) hdata⟩
  case allocation =>
    intro a ha
    have ha' := List.mem_of_mem_eraseIdx ha
    obtain ⟨u, hu, hstage, hfid, hdata⟩ := h.allocation a ha'
    have hne : a.task ≠ msg.task := h.task_ne_of_mem_eraseIdx hmsg ha
    exact ⟨u, hu, hstage, hfid, hkeep hu hne (.inr (.inr ⟨a, ha', rfl⟩)) hdata⟩
  case seen => exact h.seen
  case waiting =>
    intro i u hu hstage
    have hne : i ≠ msg.task := ne_of_stage hdone hstage (by decide)
    have hcount := tokens_allocatedAt hmsg i u
    rw [if_neg (Ne.symm hne)] at hcount
    exact hcount.trans (h.waiting i u hu hstage)
  case once =>
    intro i u hu
    have hcount := tokens_allocatedAt hmsg i u
    have honce := h.once i u hu
    omega

end Allocate

/-- There is no nil message. -/
theorem no_nilMessage (h : MigratorInv s) {i : ℕ} {t : Migration} (ht : s.tasks[i]? = some t)
    (hseen : s.stage i = .seen) : s.receiveRequestDataMap (atoi t.source) ≠ none := by
  intro hnone
  obtain ⟨m, hm, -⟩ := inSlot_eq_one.mp (h.seen i t ht hseen)
  rw [hnone] at hm
  cases hm

/-- **Every step that keeps the tasks apart keeps the invariant.** -/
theorem step (h : MigratorInv s) (hguard : keepsApart s l) (hstep : migratorStep s l = some s') :
    MigratorInv s' := by
  cases migratorStep_cases hstep with
  | start ht hidle hkeys => exact h.start hguard ht hidle hkeys
  | answer hr => exact h.answer hr
  | receive hmsg => exact h.receive hmsg
  | observe ht hwaiting hmsg => exact h.observe ht hwaiting hmsg
  | nilMessage ht hseen hnone => exact absurd hnone (h.no_nilMessage ht hseen)
  | forward ht hseen hmsgs => exact h.forward ht hseen hmsgs
  | allocate hmsg => exact h.allocate hmsg

/-- **The tasks do not get stuck**: while they have not finished, some step is possible that
keeps them apart. -/
theorem exists_step (h : MigratorInv s) (hfin : ¬ s.Finished) :
    ∃ l, keepsApart s l ∧ (migratorStep s l).isSome := by
  by_cases hallocations : s.allocations = []
  swap
  · obtain ⟨msg, hmsg⟩ := exists_getElem?_zero hallocations
    refine ⟨.allocate 0, trivial, ?_⟩
    rw [migratorStep, MigratorSys.allocate, hmsg]
    rfl
  by_cases hrequests : s.requests = []
  swap
  · obtain ⟨r, hr⟩ := exists_getElem?_zero hrequests
    refine ⟨.answer 0, trivial, ?_⟩
    rw [migratorStep, MigratorSys.answer, hr]
    rfl
  by_cases hresponses : s.responses = []
  swap
  · obtain ⟨msg, hmsg⟩ := exists_getElem?_zero hresponses
    refine ⟨.receive 0, trivial, ?_⟩
    rw [migratorStep, MigratorSys.receive, hmsg, h.lock]
    rfl
  -- nothing is on the way, so the responses that are waited for are in their slots
  have hin : ∀ i t, s.tasks[i]? = some t → s.UnderWay i →
      ∃ m, s.receiveRequestDataMap (atoi t.source) = some m := by
    intro i t ht hi
    have hone : inSlot s i t = 1 := by
      obtain hwaiting | hseen | ⟨a, ha, -⟩ := hi
      · have htokens := h.waiting i t ht hwaiting
        rw [tokens, hrequests, hresponses, hallocations] at htokens
        simpa using htokens
      · exact h.seen i t ht hseen
      · rw [hallocations] at ha
        cases ha
    obtain ⟨m, hm, -⟩ := inSlot_eq_one.mp hone
    exact ⟨m, hm⟩
  by_cases hway : ∃ i < s.tasks.length, s.UnderWay i
  · obtain ⟨i, hi, hway⟩ := hway
    obtain ⟨m, hm⟩ := hin i _ (List.getElem?_eq_getElem hi) hway
    obtain hwaiting | hseen | ⟨a, ha, -⟩ := hway
    · refine ⟨.observe i, trivial, ?_⟩
      simp [migratorStep, MigratorSys.observe, List.getElem?_eq_getElem hi, h.lock, hwaiting, hm]
    · refine ⟨.forward i, trivial, ?_⟩
      simp [migratorStep, MigratorSys.forward, List.getElem?_eq_getElem hi, h.lock, hseen, hm]
    · rw [hallocations] at ha
      cases ha
  · -- a task that has not started can start, since none is under way
    have hidle : ∃ i, ∃ hi : i < s.tasks.length, s.stage i = .idle := by
      by_contra hnone
      refine hfin ⟨fun i hi => ?_, hallocations⟩
      cases hstage : s.stage i with
      | idle => exact absurd ⟨i, hi, hstage⟩ hnone
      | waiting => exact absurd ⟨i, hi, .inl hstage⟩ hway
      | seen => exact absurd ⟨i, hi, .inr (.inl hstage)⟩ hway
      | done => rfl
    obtain ⟨i, hi, hstage⟩ := hidle
    refine ⟨.start i (s.tasks[i]).datas.toList, ?_, ?_⟩
    · intro j hj hwayj
      exact absurd ⟨j, hj, hwayj⟩ hway
    · simp [migratorStep, MigratorSys.start, List.getElem?_eq_getElem hi, hstage,
        Finset.nodup_toList]

end MigratorInv

end Aster.SubMPT
