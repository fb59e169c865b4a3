import Aster.Local.Placement

/-!
# The migration tasks, seen from one key

The tasks of one call may have keys in common.  A node that comes takes a key from its old owner
with one virtual node, and then from itself with the next.  A node that leaves passes a key to
itself until its last virtual node goes.
-/

namespace Aster.Local

/-- Every task with the key goes from the old owner to the new one, or from one of the two to
itself, and there is one that moves it. -/
structure Transit (ts : List Migration) (k old new : String) : Prop where
  ends : ∀ t ∈ ts, k ∈ t.datas → (t.source = old ∧ t.target = new) ∨
    (t.source = t.target ∧ (t.source = old ∨ t.source = new))
  moves : ∃ t ∈ ts, k ∈ t.datas ∧ t.source = old ∧ t.target = new

section Transit

variable {recorded : Set String} {ts : List Migration} {t : Migration}
  {loc loc' : String → String} {k n : String}

theorem Migration.apply_of_mem (loc : String → String) (h : k ∈ t.datas) :
    t.apply loc k = t.target := if_pos h

theorem Migration.apply_of_not_mem (loc : String → String) (h : k ∉ t.datas) :
    t.apply loc k = loc k := if_neg h

/-- A key that no task has stays. -/
theorem Moved.eq_of_not_mem (h : Moved recorded ts loc loc') (hk : ∀ t ∈ ts, k ∉ t.datas) :
    loc' k = loc k := by
  induction ts generalizing loc with
  | nil => exact congrFun h k
  | cons t ts ih =>
    rw [ih h.2 fun t' ht' => hk t' (List.mem_cons_of_mem t ht')]
    exact Migration.apply_of_not_mem _ (hk t List.mem_cons_self)

/-- When all tasks go to one node, the keys there stay there. -/
theorem Moved.eq_target (h : Moved recorded ts loc loc') (htarget : ∀ t ∈ ts, t.target = n)
    (hk : loc k = n) : loc' k = n := by
  induction ts generalizing loc with
  | nil => exact (congrFun h k).trans hk
  | cons t ts ih =>
    apply ih h.2 fun t' ht' => htarget t' (List.mem_cons_of_mem t ht')
    by_cases hmem : k ∈ t.datas
    · rw [Migration.apply_of_mem _ hmem, htarget t List.mem_cons_self]
    · rw [Migration.apply_of_not_mem _ hmem, hk]

/-- When all tasks go to one node, a key comes there with the first task that has it. -/
theorem Moved.transit_of_target (h : Moved recorded ts loc loc')
    (htarget : ∀ t ∈ ts, t.target = n) (hk : ∃ t ∈ ts, k ∈ t.datas) :
    Transit ts k (loc k) (loc' k) := by
  induction ts generalizing loc with
  | nil =>
    obtain ⟨t, ht, -⟩ := hk
    cases ht
  | cons t ts ih =>
    have hrest : ∀ t' ∈ ts, t'.target = n := fun t' ht' => htarget t' (List.mem_cons_of_mem t ht')
    by_cases hmem : k ∈ t.datas
    · have hsource : t.source = loc k := ((h.1 k hmem).2).symm
      have hhere : t.apply loc k = n := by
        rw [Migration.apply_of_mem _ hmem, htarget t List.mem_cons_self]
      have hnew : loc' k = n := h.2.eq_target hrest hhere
      have hhead : t.source = loc k ∧ t.target = loc' k :=
        ⟨hsource, (htarget t List.mem_cons_self).trans hnew.symm⟩
      refine ⟨fun t' ht' hk' => ?_, t, List.mem_cons_self, hmem, hhead⟩
      obtain rfl | ht' := List.mem_cons.mp ht'
      · exact .inl hhead
      · -- a later task with the key finds it at the node
        have hlater := (ih h.2 hrest ⟨t', ht', hk'⟩).ends t' ht' hk'
        rw [hhere, hnew] at hlater
        rw [hnew]
        have hto : t'.target = n := hrest t' ht'
        have hfrom : t'.source = n := by
          obtain ⟨hs, -⟩ | ⟨-, hs | hs⟩ := hlater
          · exact hs
          · exact hs
          · exact hs
        exact .inr ⟨hfrom.trans hto.symm, .inr hfrom⟩
    · have hk' : ∃ t' ∈ ts, k ∈ t'.datas := by
        obtain ⟨t', ht', hin⟩ := hk
        obtain rfl | ht' := List.mem_cons.mp ht'
        · exact absurd hin hmem
        · exact ⟨t', ht', hin⟩
      have htail := ih h.2 hrest hk'
      rw [Migration.apply_of_not_mem _ hmem] at htail
      refine ⟨fun t' ht' hin => ?_, ?_⟩
      · obtain rfl | ht' := List.mem_cons.mp ht'
        · exact absurd hin hmem
        · exact htail.ends t' ht' hin
      · obtain ⟨t', ht', hin⟩ := htail.moves
        exact ⟨t', List.mem_cons_of_mem t ht', hin⟩

/-- When all tasks start from one node, a key leaves with the last task that has it. -/
theorem Moved.transit_of_source (h : Moved recorded ts loc loc')
    (hsource : ∀ t ∈ ts, t.source = n) (hk : ∃ t ∈ ts, k ∈ t.datas) :
    Transit ts k (loc k) (loc' k) := by
  induction ts generalizing loc with
  | nil =>
    obtain ⟨t, ht, -⟩ := hk
    cases ht
  | cons t ts ih =>
    have hrest : ∀ t' ∈ ts, t'.source = n := fun t' ht' => hsource t' (List.mem_cons_of_mem t ht')
    by_cases hlater : ∃ t' ∈ ts, k ∈ t'.datas
    · have htail := ih h.2 hrest hlater
      obtain ⟨u, hu, huk, husource, hutarget⟩ := htail.moves
      -- a later task finds the key at the node again
      have hhere : t.apply loc k = n := husource.symm.trans (hrest u hu)
      have hold : k ∈ t.datas → loc k = n := by
        intro hmem
        exact (h.1 k hmem).2.trans (hsource t List.mem_cons_self)
      have hloc : t.apply loc k = loc k := by
        by_cases hmem : k ∈ t.datas
        · rw [hhere, hold hmem]
        · exact Migration.apply_of_not_mem _ hmem
      rw [hloc] at htail hhere
      refine ⟨fun t' ht' hin => ?_, ?_⟩
      · obtain rfl | ht' := List.mem_cons.mp ht'
        · have hto : t'.target = n := by
            rw [← Migration.apply_of_mem loc hin, hloc, hhere]
          have hfrom : t'.source = n := hsource t' List.mem_cons_self
          exact .inr ⟨hfrom.trans hto.symm, .inl (hfrom.trans hhere.symm)⟩
        · exact htail.ends t' ht' hin
      · exact ⟨u, List.mem_cons_of_mem t hu, huk, husource.trans hloc, hutarget⟩
    · have hnot : ∀ t' ∈ ts, k ∉ t'.datas := fun t' ht' hin => hlater ⟨t', ht', hin⟩
      have hmem : k ∈ t.datas := by
        obtain ⟨t', ht', hin⟩ := hk
        obtain rfl | ht' := List.mem_cons.mp ht'
        · exact hin
        · exact absurd hin (hnot t' ht')
      have hhead : t.source = loc k ∧ t.target = loc' k := by
        refine ⟨((h.1 k hmem).2).symm, ?_⟩
        rw [h.2.eq_of_not_mem hnot, Migration.apply_of_mem _ hmem]
      refine ⟨fun t' ht' hin => ?_, t, List.mem_cons_self, hmem, hhead⟩
      obtain rfl | ht' := List.mem_cons.mp ht'
      · exact .inl hhead
      · exact absurd hin (hnot t' ht')

end Transit

/-! ### The tasks of a call -/

theorem Moved.recorded_of_mem {recorded : Set String} {ts : List Migration}
    {loc loc' : String → String} (h : Moved recorded ts loc loc') {t : Migration} (ht : t ∈ ts)
    {k : String} (hk : k ∈ t.datas) : k ∈ recorded := by
  induction ts generalizing loc with
  | nil => cases ht
  | cons t' ts ih =>
    obtain rfl | ht := List.mem_cons.mp ht
    · exact (h.1 k hk).1
    · exact ih h.2 ht

section Owners

variable {c : ConsistentHash} {m : SortedRing} {recorded : Set String} {loc : String → String}
  {k : String}

theorem Placed.ringOwner_of_recorded (h : Placed c m recorded loc) (hk : k ∈ recorded) :
    c.ringOwner k = some (loc k) := by
  rw [h.ringOwner_eq, h.owned k hk]

theorem Placed.loc_mem (h : Placed c m recorded loc) (hk : k ∈ recorded) :
    loc k ∈ c.hashRing.nodeToReplicas := by
  obtain ⟨i, hi⟩ := h.ring.owner_known (h.owned k hk)
  exact hi.mem

end Owners

/-- The state after a call of `AddNode` or `RemoveNode` that returns without an error, and the
tasks that it hands to `batchExecuteMigrator`. -/
def ConsistentHash.migrationTasks (c : ConsistentHash) :
    HashCall → Option (ConsistentHash × List Migration)
  | .addNode nodeID weight rolls =>
    (c.addNode nodeID weight rolls).bind fun (c', r) => r.toOption.map (c', ·)
  | .removeNode nodeID => (c.removeNode nodeID).bind fun (c', r) => r.toOption.map (c', ·)
  | .getNode _ => none

theorem toOption_pair_eq_some {c₁ c' : ConsistentHash} {r : Except String (List Migration)}
    {ts : List Migration} (h : r.toOption.map (c₁, ·) = some (c', ts)) : c₁ = c' ∧ r = .ok ts := by
  cases r with
  | error err => cases h
  | ok ts' =>
    obtain ⟨rfl, rfl⟩ := Prod.mk.inj (Option.some.inj h)
    exact ⟨rfl, rfl⟩

/-- Where no key is recorded, a node comes without tasks. -/
theorem Placed.addNode_unrecorded {c : ConsistentHash} {m : SortedRing} {loc : String → String}
    (h : Placed c m ∅ loc) {nodeID : String} (hid : ValidID nodeID) (weight : ℤ)
    (rolls : ℕ → ℕ) :
    ∃ c' r, c.addNode nodeID weight rolls = some (c', r) ∧ r.toOption.getD [] = [] ∧
      ∃ m' loc', Placed c' m' ∅ loc' := by
  obtain ⟨c', r, hrun, herr, hspec⟩ := h.addNode hid weight rolls
  refine ⟨c', r, hrun, ?_⟩
  cases r with
  | error err =>
    rw [herr err rfl]
    exact ⟨rfl, m, loc, h⟩
  | ok ts =>
    obtain ⟨m', loc', -, hplaced, hmoved, htarget, -⟩ := hspec ts rfl
    refine ⟨List.eq_nil_iff_forall_not_mem.mpr fun t ht => ?_, m', loc', hplaced⟩
    obtain ⟨k, hk⟩ := Finset.nonempty_iff_ne_empty.mpr (htarget t ht).1
    exact absurd (hmoved.recorded_of_mem ht hk) (Set.notMem_empty k)

/-- **What a call does to a key it migrates**: the tasks bring it from its owner before the call
to its owner after the call, and both are nodes of the ring. -/
theorem Placed.transit {c c' : ConsistentHash} {m : SortedRing} {recorded : Set String}
    {loc : String → String} (h : Placed c m recorded loc) {op : HashCall} (hop : op.Valid)
    {ts : List Migration} (hts : c.migrationTasks op = some (c', ts)) {t : Migration}
    (ht : t ∈ ts) {k : String} (hk : k ∈ t.datas) :
    ∃ old new, c.ringOwner k = some old ∧ c'.ringOwner k = some new ∧ Transit ts k old new ∧
      old ∈ c.hashRing.nodeToReplicas ∧
      (new ∈ c.hashRing.nodeToReplicas ∨ ∃ weight rolls, op = .addNode new weight rolls) := by
  cases op with
  | addNode nodeID weight rolls =>
    obtain ⟨c₁, r, hrun, -, hspec⟩ := h.addNode hop weight rolls
    rw [ConsistentHash.migrationTasks, hrun] at hts
    obtain ⟨rfl, rfl⟩ := toOption_pair_eq_some hts
    obtain ⟨m', loc', -, hplaced, hmoved, htarget, hnodes⟩ := hspec ts rfl
    have htransit := hmoved.transit_of_target (fun t ht => (htarget t ht).2) ⟨t, ht, hk⟩
    have hrec : k ∈ recorded := hmoved.recorded_of_mem ht hk
    refine ⟨loc k, loc' k, h.ringOwner_of_recorded hrec, hplaced.ringOwner_of_recorded hrec,
      htransit, h.loc_mem hrec, ?_⟩
    obtain heq | hmem := hnodes _ (hplaced.loc_mem hrec)
    · exact .inr ⟨weight, rolls, by rw [heq]⟩
    · exact .inl hmem
  | removeNode nodeID =>
    obtain ⟨c₁, r, hrun, hspec⟩ := h.removeNode nodeID
    rw [ConsistentHash.migrationTasks, hrun] at hts
    obtain ⟨rfl, rfl⟩ := toOption_pair_eq_some hts
    obtain ⟨m', loc', -, hplaced, hmoved, hsource, hnodes⟩ := hspec ts rfl
    have htransit := hmoved.transit_of_source hsource ⟨t, ht, hk⟩
    have hrec : k ∈ recorded := hmoved.recorded_of_mem ht hk
    exact ⟨loc k, loc' k, h.ringOwner_of_recorded hrec, hplaced.ringOwner_of_recorded hrec,
      htransit, h.loc_mem hrec, .inl (hnodes _ (hplaced.loc_mem hrec))⟩
  | getNode dataKey => cases hts

end Aster.Local
