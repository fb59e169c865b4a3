import Aster.Lib.Transition

/-!
# The lock of the hash ring

`Lock` takes `doubleLock` and then, with `doubleLock` held, waits for `lock`.  `Unlock` and the
goroutine that a `Lock` with an expiry time starts both need `doubleLock` before they can release
`lock`.  All sections but this wait run under `doubleLock` to their end, so they are steps here.

* The token of a goroutine is the goroutine itself; ids of goroutines are not used again.
* A timer goroutine may find both its context cancelled and its time over, and then does either.
* `LockInv`: who has the two locks, in every run;
* `Blocked.step`: once a `Lock` waits for a lock that is held, or the holder calls `Lock` again,
  nothing leads out of it;
* **`ring_lock_released_iff`**: mutual exclusion and ownership, and when a lock can be released.
-/

namespace Aster.Local

open Aster.Lib.Transition

/-- Where a goroutine is. -/
inductive Phase where
  | idle
  /-- `Lock` waits for `doubleLock`. -/
  | locking (expireSeconds : ℤ)
  /-- `Lock` has `doubleLock` and waits for `lock`. -/
  | acquiring (expireSeconds : ℤ)
  /-- `Unlock` waits for `doubleLock`. -/
  | unlocking
  deriving DecidableEq

inductive TimerState where
  /-- In the `select`. -/
  | running
  /-- The time is over, and `unlock` waits for `doubleLock`. -/
  | expired
  | ended
  deriving DecidableEq

/-- The goroutine that `Lock` starts for an expiry time. -/
structure Timer (G : Type*) where
  token : G
  cancelled : Bool
  state : TimerState
  deriving DecidableEq

/-- `LockEntity`; `none` is the empty token, and `cancel` is the timer whose context it cancels. -/
structure LockEntity (G : Type*) where
  lock : Bool
  doubleLock : Option G
  cancel : Option ℕ
  owner : Option G
  deriving DecidableEq

/-- A ring with the goroutines that use its lock.  The last fields record history that no step
reads. -/
structure LockSys (G : Type*) where
  ring : LockEntity G
  phase : G → Phase
  timers : List (Timer G)
  /-- `lock.Unlock` was called without the lock, which ends the process. -/
  fatal : Bool
  /-- The caller of every acquisition, by its number. -/
  acquired : List G
  /-- The acquisitions that were not released, the latest first. -/
  holding : List ℕ
  /-- The releases: the acquisition, and the caller whose `Unlock` or timer it was. -/
  released : List (ℕ × G)

namespace LockSys

def new (G : Type*) : LockSys G where
  ring := ⟨false, none, none, none⟩
  phase := fun _ => .idle
  timers := []
  fatal := false
  acquired := []
  holding := []
  released := []

variable {G : Type*} [DecidableEq G]

def setPhase (s : LockSys G) (g : G) (p : Phase) : LockSys G :=
  { s with phase := Function.update s.phase g p }

def setTimer (s : LockSys G) (i : ℕ) (t : Timer G) : LockSys G :=
  { s with timers := s.timers.set i t }

/-- The timers after `s.cancel()`, which does nothing when it is nil. -/
def cancelTimer (s : LockSys G) : List (Timer G) :=
  match s.ring.cancel with
  | none => s.timers
  | some i => s.timers.modify i fun t => { t with cancelled := true }

/-- `unlock` behind `doubleLock.Lock()`. -/
def unlock (s : LockSys G) (token : G) : LockSys G :=
  if s.ring.owner ≠ some token then s
  else if s.ring.lock then
    { s with
      ring := { s.ring with lock := false, owner := none }
      timers := s.cancelTimer
      holding := s.holding.tail
      released := s.released ++ (s.holding.take 1).map fun k => (k, token) }
  else { s with fatal := true }

/-- `Lock` behind `lock.Lock()`. -/
def acquire (s : LockSys G) (g : G) (expireSeconds : ℤ) : LockSys G :=
  { s with
    ring :=
      { lock := true
        doubleLock := none
        cancel := if expireSeconds ≤ 0 then s.ring.cancel else some s.timers.length
        owner := some g }
    timers := if expireSeconds ≤ 0 then s.timers else s.timers ++ [⟨g, false, .running⟩]
    acquired := s.acquired ++ [g]
    holding := s.acquired.length :: s.holding }

end LockSys

/-- The steps of goroutines and timers. -/
inductive LockLabel (G : Type*) where
  | callLock (g : G) (expireSeconds : ℤ)
  | takeDoubleLock (g : G)
  | takeLock (g : G)
  | callUnlock (g : G)
  | finishUnlock (g : G)
  | expire (i : ℕ)
  | finishExpiry (i : ℕ)
  | endTimer (i : ℕ)

section

variable {G : Type*} [DecidableEq G]

open LockSys

def lockStep (s : LockSys G) (l : LockLabel G) : Option (LockSys G) :=
  if s.fatal then none
  else
    match l with
    | .callLock g expireSeconds =>
      if s.phase g = .idle then some (s.setPhase g (.locking expireSeconds)) else none
    | .takeDoubleLock g =>
      match s.phase g, s.ring.doubleLock with
      | .locking expireSeconds, none => some
          ({ s with ring := { s.ring with doubleLock := some g } }.setPhase g
            (.acquiring expireSeconds))
      | _, _ => none
    | .takeLock g =>
      match s.phase g, s.ring.lock with
      | .acquiring expireSeconds, false => some ((s.acquire g expireSeconds).setPhase g .idle)
      | _, _ => none
    | .callUnlock g => if s.phase g = .idle then some (s.setPhase g .unlocking) else none
    | .finishUnlock g =>
      if s.phase g = .unlocking ∧ s.ring.doubleLock = none then
        some ((s.unlock g).setPhase g .idle)
      else none
    | .expire i =>
      match s.timers[i]? with
      | some t => if t.state = .running then some (s.setTimer i { t with state := .expired })
          else none
      | none => none
    | .finishExpiry i =>
      match s.timers[i]? with
      | some t =>
        if t.state = .expired ∧ s.ring.doubleLock = none then
          some ((s.setTimer i { t with state := .ended }).unlock t.token)
        else none
      | none => none
    | .endTimer i =>
      match s.timers[i]? with
      | some t =>
        if t.state = .running ∧ t.cancelled then
          some (s.setTimer i { t with state := .ended })
        else none
      | none => none

/-- What a step can do. -/
inductive LockStep (s : LockSys G) : LockSys G → Prop where
  | callLock (g : G) (expireSeconds : ℤ) (hp : s.phase g = .idle) :
      LockStep s (s.setPhase g (.locking expireSeconds))
  | takeDoubleLock (g : G) (expireSeconds : ℤ) (hp : s.phase g = .locking expireSeconds)
      (hd : s.ring.doubleLock = none) :
      LockStep s ({ s with ring := { s.ring with doubleLock := some g } }.setPhase g
        (.acquiring expireSeconds))
  | takeLock (g : G) (expireSeconds : ℤ) (hp : s.phase g = .acquiring expireSeconds)
      (hl : s.ring.lock = false) :
      LockStep s ((s.acquire g expireSeconds).setPhase g .idle)
  | callUnlock (g : G) (hp : s.phase g = .idle) : LockStep s (s.setPhase g .unlocking)
  | finishUnlock (g : G) (hp : s.phase g = .unlocking) (hd : s.ring.doubleLock = none) :
      LockStep s ((s.unlock g).setPhase g .idle)
  | timer (i : ℕ) (t : Timer G) (state : TimerState) (ht : s.timers[i]? = some t)
      (hs : t.state = .running) : LockStep s (s.setTimer i { t with state := state })
  | finishExpiry (i : ℕ) (t : Timer G) (ht : s.timers[i]? = some t) (hs : t.state = .expired)
      (hd : s.ring.doubleLock = none) :
      LockStep s ((s.setTimer i { t with state := .ended }).unlock t.token)

theorem lockStep_cases {s s' : LockSys G} {l : LockLabel G} (h : lockStep s l = some s') :
    s.fatal = false ∧ LockStep s s' := by
  unfold lockStep at h
  split_ifs at h with hf
  refine ⟨by simpa using hf, ?_⟩
  cases l with
  | callLock g expireSeconds =>
    dsimp only at h
    split_ifs at h with hp
    cases h
    exact .callLock g expireSeconds hp
  | takeDoubleLock g =>
    dsimp only at h
    split at h
    · rename_i expireSeconds hp hd
      cases h
      exact .takeDoubleLock g expireSeconds hp hd
    · cases h
  | takeLock g =>
    dsimp only at h
    split at h
    · rename_i expireSeconds hp hl
      cases h
      exact .takeLock g expireSeconds hp hl
    · cases h
  | callUnlock g =>
    dsimp only at h
    split_ifs at h with hp
    cases h
    exact .callUnlock g hp
  | finishUnlock g =>
    dsimp only at h
    split_ifs at h with hp
    cases h
    exact .finishUnlock g hp.1 hp.2
  | expire i =>
    dsimp only at h
    split at h
    · rename_i t ht
      split_ifs at h with hs
      cases h
      exact .timer i t .expired ht hs
    · cases h
  | finishExpiry i =>
    dsimp only at h
    split at h
    · rename_i t ht
      split_ifs at h with hs
      cases h
      exact .finishExpiry i t ht hs.1 hs.2
    · cases h
  | endTimer i =>
    dsimp only at h
    split at h
    · rename_i t ht
      split_ifs at h with hs
      cases h
      exact .timer i t .ended ht hs.1
    · cases h

/-! ### Who has the locks -/

/-- An acquisition holds the lock, and its caller is the owner; or nobody does. -/
def HeldBy (s : LockSys G) : Prop :=
  (s.ring.lock = false ∧ s.ring.owner = none ∧ s.holding = []) ∨
    ∃ k g, s.ring.lock = true ∧ s.ring.owner = some g ∧ s.holding = [k] ∧
      s.acquired[k]? = some g

structure LockInv (s : LockSys G) : Prop where
  fatal : s.fatal = false
  held : HeldBy s
  doubleLock : ∀ g, s.ring.doubleLock = some g ↔ ∃ expireSeconds,
    s.phase g = .acquiring expireSeconds
  released : ∀ r ∈ s.released, s.acquired[r.1]? = some r.2

omit [DecidableEq G] in
theorem LockInv.not_acquiring {s : LockSys G} (h : LockInv s) {g : G}
    (hd : s.ring.doubleLock ≠ some g) (expireSeconds : ℤ) :
    s.phase g ≠ .acquiring expireSeconds :=
  fun hp => hd ((h.doubleLock g).mpr ⟨expireSeconds, hp⟩)

/-- `unlock` does nothing for another token, and otherwise gives the lock back. -/
theorem LockInv.unlock_cases {s : LockSys G} (h : LockInv s) (token : G) :
    (s.ring.owner ≠ some token ∧ s.unlock token = s) ∨
      ∃ k, s.ring.owner = some token ∧ s.acquired[k]? = some token ∧
        s.unlock token = { s with
          ring := { s.ring with lock := false, owner := none }
          timers := s.cancelTimer
          holding := []
          released := s.released ++ [(k, token)] } := by
  by_cases ho : s.ring.owner = some token
  · rcases h.held with ⟨-, hnone, -⟩ | ⟨k, g, hl, hg, hhold, hk⟩
    · rw [ho] at hnone
      cases hnone
    · rw [ho, Option.some.injEq] at hg
      subst hg
      refine .inr ⟨k, ho, hk, ?_⟩
      simp [unlock, ho, hl, hhold]
  · exact .inl ⟨ho, by simp [unlock, ho]⟩

theorem lockInv_unlock {s : LockSys G} (h : LockInv s) (token : G) :
    LockInv (s.unlock token) := by
  rcases h.unlock_cases token with ⟨-, he⟩ | ⟨k, -, hk, he⟩
  · rw [he]
    exact h
  · rw [he]
    refine ⟨h.fatal, .inl ⟨rfl, rfl, rfl⟩, h.doubleLock, ?_⟩
    intro r hr
    rcases List.mem_append.mp hr with hr | hr
    · exact h.released r hr
    · rw [List.mem_singleton.mp hr]
      exact hk

/-- A goroutine that has nothing to do with `doubleLock` before and after. -/
theorem LockInv.setPhase {s : LockSys G} (h : LockInv s) {g : G} {p : Phase}
    (hg : ∀ e, s.phase g ≠ .acquiring e) (hp : ∀ e, p ≠ .acquiring e) :
    LockInv (s.setPhase g p) := by
  refine ⟨h.fatal, h.held, fun g' => (h.doubleLock g').trans ?_, h.released⟩
  by_cases he : g' = g
  · subst he
    simp [LockSys.setPhase, hg, hp]
  · simp [LockSys.setPhase, Function.update_of_ne he]

theorem LockInv.unlock_phase {s : LockSys G} (h : LockInv s) (token : G) :
    (s.unlock token).phase = s.phase := by
  rcases h.unlock_cases token with ⟨-, he⟩ | ⟨k, -, -, he⟩
  · rw [he]
  · rw [he]

theorem lockInv_step {s s' : LockSys G} (h : LockInv s) (hs : LockStep s s') : LockInv s' := by
  cases hs with
  | callLock g e hp => exact h.setPhase (by simp [hp]) (by simp)
  | takeDoubleLock g e hp hd =>
    refine ⟨h.fatal, h.held, fun g' => ?_, h.released⟩
    have hnone := h.not_acquiring (g := g') (by simp [hd])
    by_cases he : g' = g
    · subst he
      simp [LockSys.setPhase]
    · simp [LockSys.setPhase, Function.update_of_ne he, hnone, Ne.symm he]
  | takeLock g e hp hl =>
    have hd := (h.doubleLock g).mpr ⟨e, hp⟩
    have hhold : s.holding = [] := by
      rcases h.held with ⟨-, -, hhold⟩ | ⟨k, g', hl', -⟩
      · exact hhold
      · rw [hl] at hl'
        cases hl'
    refine ⟨h.fatal, .inr ⟨s.acquired.length, g, rfl, rfl, ?_, ?_⟩, fun g' => ?_, ?_⟩
    · simp [acquire, LockSys.setPhase, hhold]
    · simp [acquire, LockSys.setPhase]
    · by_cases he : g' = g
      · subst he
        simp [acquire, LockSys.setPhase]
      · have hnone := h.not_acquiring (g := g') (by simpa [hd] using Ne.symm he)
        simp [acquire, LockSys.setPhase, Function.update_of_ne he, hnone]
    · intro r hr
      have hr' := h.released r hr
      show (s.acquired ++ [g])[r.1]? = some r.2
      rw [List.getElem?_append_left (List.getElem?_eq_some_iff.mp hr').1, hr']
  | callUnlock g hp => exact h.setPhase (by simp [hp]) (by simp)
  | finishUnlock g hp hd =>
    refine (lockInv_unlock h g).setPhase ?_ (by simp)
    rw [h.unlock_phase]
    simp [hp]
  | timer i t state ht hs => exact ⟨h.fatal, h.held, h.doubleLock, h.released⟩
  | finishExpiry i t ht hs hd =>
    have hset : LockInv (s.setTimer i { t with state := .ended }) :=
      ⟨h.fatal, h.held, h.doubleLock, h.released⟩
    exact lockInv_unlock hset t.token

theorem lockInv {s : LockSys G} (h : Reach lockStep anyStep (· = LockSys.new G) s) :
    LockInv s := by
  refine h.invariant ?_ fun s s' l _ hi _ hs => lockInv_step hi (lockStep_cases hs).2
  rintro s rfl
  exact ⟨rfl, .inl ⟨rfl, rfl, rfl⟩, by simp [LockSys.new], by simp [LockSys.new]⟩

/-! ### Locks that are never released -/

/-- The lock is held by `g`, and a `Lock` has `doubleLock`; or `g` is in `Lock` itself, and no timer
of `g` is left. -/
def Blocked (s : LockSys G) (g : G) : Prop :=
  s.ring.owner = some g ∧ s.ring.lock = true ∧
    (s.ring.doubleLock ≠ none ∨ (∃ expireSeconds, s.phase g = .locking expireSeconds) ∧
      ∀ t ∈ s.timers, t.token = g → t.state = .ended)

/-- A goroutine that does not wait in `Lock` goes on. -/
theorem Blocked.setPhase {s : LockSys G} {g g' : G} (h : Blocked s g) (p : Phase)
    (hg : ∀ expireSeconds, s.phase g' ≠ .locking expireSeconds) : Blocked (s.setPhase g' p) g := by
  obtain ⟨ho, hl, hb⟩ := h
  refine ⟨ho, hl, hb.imp_right ?_⟩
  rintro ⟨⟨e, he⟩, ht⟩
  have hne : g ≠ g' := by
    rintro rfl
    exact hg e he
  exact ⟨⟨e, by simp [LockSys.setPhase, Function.update_of_ne hne, he]⟩, ht⟩

theorem Blocked.step {s s' : LockSys G} {g : G} (h : Blocked s g) (hs : LockStep s s') :
    Blocked s' g := by
  obtain ⟨ho, hl, hb⟩ := h
  cases hs with
  | callLock g' e hp => exact Blocked.setPhase ⟨ho, hl, hb⟩ _ (by simp [hp])
  | takeDoubleLock g' e hp hd => exact ⟨ho, hl, .inl (by simp [LockSys.setPhase])⟩
  | takeLock g' e hp hfree =>
    rw [hl] at hfree
    cases hfree
  | callUnlock g' hp => exact Blocked.setPhase ⟨ho, hl, hb⟩ _ (by simp [hp])
  | finishUnlock g' hp hd =>
    obtain ⟨⟨e', he'⟩, -⟩ := hb.resolve_left (not_not.mpr hd)
    have hne : g ≠ g' := by
      rintro rfl
      simp [hp] at he'
    have hother : s.unlock g' = s := by simp [unlock, ho, hne]
    rw [hother]
    exact Blocked.setPhase ⟨ho, hl, hb⟩ _ (by simp [hp])
  | timer i t state ht hrun =>
    refine ⟨ho, hl, hb.imp_right ?_⟩
    rintro ⟨hphase, hall⟩
    refine ⟨hphase, fun t' ht' hg => ?_⟩
    rcases List.mem_or_eq_of_mem_set ht' with hmem | rfl
    · exact hall t' hmem hg
    · have := hall t (List.mem_of_getElem? ht) hg
      rw [hrun] at this
      cases this
  | finishExpiry i t ht hexp hd =>
    obtain ⟨hphase, hall⟩ := hb.resolve_left (not_not.mpr hd)
    have hne : g ≠ t.token := by
      rintro rfl
      have := hall t (List.mem_of_getElem? ht) rfl
      rw [hexp] at this
      cases this
    have hother : (s.setTimer i { t with state := .ended }).unlock t.token =
        s.setTimer i { t with state := .ended } := by
      simp [unlock, setTimer, ho, hne]
    rw [hother]
    refine ⟨ho, hl, .inr ⟨hphase, fun t' ht' hg => ?_⟩⟩
    rcases List.mem_or_eq_of_mem_set ht' with hmem | rfl
    · exact hall t' hmem hg
    · rfl

/-- **Blocked for ever.** -/
theorem Blocked.reach {s s' : LockSys G} {g : G} (h : Blocked s g)
    (hr : Reach lockStep anyStep (· = s) s') : Blocked s' g := by
  induction hr with
  | start hs =>
    rw [hs]
    exact h
  | next _ _ hs ih => exact ih.step (lockStep_cases hs).2

/-- Some continuation releases the lock. -/
def CanRelease (s : LockSys G) : Prop :=
  ∃ s', Reach lockStep anyStep (· = s) s' ∧ s'.holding = []

theorem not_canRelease_of_blocked {s : LockSys G} {g : G}
    (h : Reach lockStep anyStep (· = LockSys.new G) s) (hb : Blocked s g) : ¬CanRelease s := by
  rintro ⟨s', hr, hempty⟩
  have hl := (hb.reach hr).2.1
  rcases (lockInv (h.append hr)).held with ⟨hfree, -⟩ | ⟨k, g', -, -, hk, -⟩
  · rw [hl] at hfree
    cases hfree
  · rw [hempty] at hk
    cases hk

/-- The owner's `unlock` gives the lock back. -/
theorem LockInv.holding_unlock {s : LockSys G} (h : LockInv s) {g : G}
    (ho : s.ring.owner = some g) : (s.unlock g).holding = [] := by
  rcases h.unlock_cases g with ⟨hne, -⟩ | ⟨k, -, -, he⟩
  · exact absurd ho hne
  · rw [he]

theorem canRelease_of_unlocking {s : LockSys G} (h : LockInv s) {g : G}
    (ho : s.ring.owner = some g) (hd : s.ring.doubleLock = none)
    (hp : s.phase g = .unlocking) : CanRelease s := by
  have hstep : lockStep s (.finishUnlock g) = some ((s.unlock g).setPhase g .idle) := by
    simp [lockStep, h.fatal, hp, hd]
  exact ⟨_, .next (.start rfl) trivial hstep, h.holding_unlock ho⟩

theorem canRelease_of_step {s s' : LockSys G} {l : LockLabel G} (hs : lockStep s l = some s')
    (h : CanRelease s') : CanRelease s := by
  obtain ⟨s'', hr, hempty⟩ := h
  have hnext : Reach lockStep anyStep (· = s) s' := .next (.start rfl) trivial hs
  exact ⟨s'', hnext.append hr, hempty⟩

/-- The holder calls `Unlock`, or is in it. -/
theorem canRelease_of_phase {s : LockSys G} (h : LockInv s) {g : G}
    (ho : s.ring.owner = some g) (hd : s.ring.doubleLock = none)
    (hp : ∀ e, s.phase g ≠ .locking e) : CanRelease s := by
  cases hphase : s.phase g with
  | idle =>
    have hstep : lockStep s (.callUnlock g) = some (s.setPhase g .unlocking) := by
      simp [lockStep, h.fatal, hphase]
    have hnext := lockInv_step h (lockStep_cases hstep).2
    exact canRelease_of_step hstep
      (canRelease_of_unlocking hnext ho hd (by simp [LockSys.setPhase]))
  | locking e => exact absurd hphase (hp e)
  | acquiring e => exact absurd hphase (h.not_acquiring (by simp [hd]) e)
  | unlocking => exact canRelease_of_unlocking h ho hd hphase

theorem canRelease_of_expired {s : LockSys G} (h : LockInv s) {i : ℕ} {t : Timer G}
    (ho : s.ring.owner = some t.token) (hd : s.ring.doubleLock = none)
    (ht : s.timers[i]? = some t) (hs : t.state = .expired) : CanRelease s := by
  have hstep : lockStep s (.finishExpiry i) =
      some ((s.setTimer i { t with state := .ended }).unlock t.token) := by
    simp [lockStep, h.fatal, ht, hs, hd]
  have hset : LockInv (s.setTimer i { t with state := .ended }) :=
    ⟨h.fatal, h.held, h.doubleLock, h.released⟩
  exact ⟨_, .next (.start rfl) trivial hstep, hset.holding_unlock ho⟩

/-- A timer of the holder expires. -/
theorem canRelease_of_timer {s : LockSys G} (h : LockInv s) {t : Timer G}
    (ho : s.ring.owner = some t.token) (hd : s.ring.doubleLock = none) (ht : t ∈ s.timers)
    (hs : t.state ≠ .ended) : CanRelease s := by
  obtain ⟨i, hi⟩ := List.getElem?_of_mem ht
  cases hstate : t.state with
  | running =>
    have hstep : lockStep s (.expire i) = some (s.setTimer i { t with state := .expired }) := by
      simp [lockStep, h.fatal, hi, hstate]
    have hnext := lockInv_step h (lockStep_cases hstep).2
    have hlt := (List.getElem?_eq_some_iff.mp hi).1
    refine canRelease_of_step hstep (canRelease_of_expired hnext
      (t := { t with state := .expired }) (i := i) ho hd ?_ rfl)
    simp [setTimer, hlt]
  | expired => exact canRelease_of_expired h ho hd hi hstate
  | ended => exact absurd hstate hs

/-- **Who holds the ring's lock, and when it can be released.**  In every run at most one
acquisition holds the lock, a release is of an acquisition of the same caller, and no mutex is
unlocked twice.  A lock that is held can be released unless a `Lock` waits for it with
`doubleLock`, or its holder waits in `Lock` itself and has no timer left. -/
theorem ring_lock_released_iff {s : LockSys G}
    (h : Reach lockStep anyStep (· = LockSys.new G) s) :
    s.fatal = false ∧ s.holding.length ≤ 1 ∧ (∀ r ∈ s.released, s.acquired[r.1]? = some r.2) ∧
      ∀ k g, s.holding = [k] → s.acquired[k]? = some g →
        (CanRelease s ↔ s.ring.doubleLock = none ∧
          ((∀ expireSeconds, s.phase g ≠ .locking expireSeconds) ∨
            ∃ t ∈ s.timers, t.token = g ∧ t.state ≠ .ended)) := by
  have hi := lockInv h
  refine ⟨hi.fatal, ?_, hi.released, fun k g hk hg => ?_⟩
  · rcases hi.held with ⟨-, -, hhold⟩ | ⟨k, g, -, -, hhold, -⟩
    · simp [hhold]
    · simp [hhold]
  have hown : s.ring.lock = true ∧ s.ring.owner = some g := by
    rcases hi.held with ⟨-, -, hhold⟩ | ⟨k', g', hl, ho, hhold, hg'⟩
    · rw [hk] at hhold
      cases hhold
    · rw [hk, List.singleton_inj] at hhold
      rw [← hhold, hg, Option.some.injEq] at hg'
      exact ⟨hl, hg' ▸ ho⟩
  constructor
  · intro hcan
    have hnot : ¬Blocked s g := fun hb => not_canRelease_of_blocked h hb hcan
    have hd : s.ring.doubleLock = none := by
      by_contra hne
      exact hnot ⟨hown.2, hown.1, .inl hne⟩
    refine ⟨hd, ?_⟩
    by_contra hno
    push Not at hno
    exact hnot ⟨hown.2, hown.1, .inr hno⟩
  · rintro ⟨hd, hphase | ⟨t, ht, rfl, hs⟩⟩
    · exact canRelease_of_phase hi hown.2 hd hphase
    · exact canRelease_of_timer hi hown.2 hd ht hs

/-- One goroutine locks for a second and calls `Lock` again: the timer can release the lock. -/
theorem ring_lock_released_one : ∃ s : LockSys Bool,
    Reach lockStep anyStep (· = LockSys.new Bool) s ∧ s.holding = [0] ∧ CanRelease s := by
  have hstart : Reach lockStep anyStep (· = LockSys.new Bool) (LockSys.new Bool) := .start rfl
  obtain ⟨s, hr, hhold, hacq, hd, ht⟩ := exists_reach_of_run
    [.callLock true 1, .takeDoubleLock true, .takeLock true, .callLock true 1]
    (fun s => s.holding = [0] ∧ s.acquired[0]? = some true ∧ s.ring.doubleLock = none ∧
      ⟨true, false, .running⟩ ∈ s.timers)
    hstart (by decide +kernel)
  exact ⟨s, hr, hhold, ((ring_lock_released_iff hr).2.2.2 0 true hhold hacq).mpr
    ⟨hd, .inr ⟨_, ht, rfl, by decide⟩⟩⟩

/-- `true` holds the lock, and `false` waits for it with `doubleLock`. -/
theorem ring_lock_stuck : ∃ s : LockSys Bool,
    Reach lockStep anyStep (· = LockSys.new Bool) s ∧ s.holding = [0] ∧ ¬CanRelease s := by
  have hstart : Reach lockStep anyStep (· = LockSys.new Bool) (LockSys.new Bool) := .start rfl
  obtain ⟨s, hr, hhold, ho, hl, hd⟩ := exists_reach_of_run
    [.callLock true 1, .takeDoubleLock true, .takeLock true, .callLock false 1,
      .takeDoubleLock false]
    (fun s => s.holding = [0] ∧ s.ring.owner = some true ∧ s.ring.lock = true ∧
      s.ring.doubleLock ≠ none)
    hstart (by decide +kernel)
  exact ⟨s, hr, hhold, not_canRelease_of_blocked hr ⟨ho, hl, .inl hd⟩⟩

end

end Aster.Local
