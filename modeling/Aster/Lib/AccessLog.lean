import Mathlib.Data.List.Basic
import Mathlib.Tactic

/-!
# Logs of accesses

A log lists accesses, the newest first.  Each access has a key, the value that it read and the
value that it left.  The log is coherent when every access read what the latest access to its
key before it left, and the initial value when there was none.

A store tracks the log on the keys it owns when it holds the latest values of these keys.
-/

namespace Aster.Lib.AccessLog

variable {E K V : Type*} [DecidableEq K] (key : E → K) (read left : E → V) (init : V)

/-- What the latest access to the key left. -/
def latest : List E → K → V
  | [], _ => init
  | e :: log, k => if k = key e then left e else latest log k

def Coherent : List E → Prop
  | [] => True
  | e :: log => read e = latest key left init log (key e) ∧ Coherent log

/-- The store has the latest values of the keys it owns. -/
def Tracks (own : K → Prop) (store : K → V) (log : List E) : Prop :=
  ∀ k, own k → store k = latest key left init log k

variable {key left init} {own : K → Prop} {store store' : K → V} {log new : List E} {e : E}

/-- A store that writes what the access leaves keeps track. -/
theorem Tracks.write (h : Tracks key left init own store log) (hkey : store' (key e) = left e)
    (hother : ∀ k, k ≠ key e → store' k = store k) :
    Tracks key left init own store' (e :: log) := by
  intro k hk
  rw [latest]
  split_ifs with heq
  · rw [heq, hkey]
  · rw [hother k heq, h k hk]

theorem latest_append_of_ne {k : K} (h : ∀ e ∈ new, k ≠ key e) :
    latest key left init (new ++ log) k = latest key left init log k := by
  induction new with
  | nil => rfl
  | cons e new ih =>
    show (if k = key e then left e else latest key left init (new ++ log) k) = _
    rw [if_neg (h e List.mem_cons_self)]
    exact ih fun e' he' => h e' (List.mem_cons_of_mem e he')

/-- Accesses to keys of others leave a store on track. -/
theorem Tracks.append_foreign (h : Tracks key left init own store log)
    (hnew : ∀ e ∈ new, ¬ own (key e)) : Tracks key left init own store (new ++ log) := by
  intro k hk
  rw [latest_append_of_ne, h k hk]
  intro e he heq
  exact hnew e he (heq ▸ hk)

end Aster.Lib.AccessLog
