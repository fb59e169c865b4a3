import Aster.Lib.Streams

/-!
# Rate-limited connections

`rateLimitedWriter.Write` and `rateLimitedReader.Read` ask the limiter for as many tokens as the
buffer has bytes, in a loop that takes off at most a burst in every round.  `Write` asks for what
it takes off.  `Read` asks for all that is left, so that it fails at once on a buffer larger than
the burst.

* `writeLoop_grants`: the requests of `Write`;
* `readLoop_eq`: the one request of `Read`;
* **`requests_granted_iff`**: both methods.

Of the limiter only this is used: a request fails when it exceeds the burst.
-/

namespace Aster.Network

open Aster.Lib.Streams

/-- `WaitN`, by its error. -/
def waitN (burst n : ℕ) : Bool := n ≤ burst

/-- The loop of both methods with the requests it makes, and whether the last one was granted;
`request` is what is asked for.  `none` is a loop that has not ended. -/
def waitLoop (request : ℕ → ℕ → ℕ) (burst : ℕ) : ℕ → ℕ → Option (List ℕ × Bool)
  | 0, _ => none
  | fuel + 1, n =>
    if n = 0 then some ([], true)
    else
      let writeByteNum := if n < burst then n else burst
      let tokens := request writeByteNum n
      if waitN burst tokens then
        (waitLoop request burst fuel (n - writeByteNum)).map fun r => (tokens :: r.1, r.2)
      else some ([tokens], false)

/-- The loop of `rateLimitedWriter.Write`. -/
def writeLoop : ℕ → ℕ → ℕ → Option (List ℕ × Bool) := waitLoop fun writeByteNum _ => writeByteNum

/-- The loop of `rateLimitedReader.Read`. -/
def readLoop : ℕ → ℕ → ℕ → Option (List ℕ × Bool) := waitLoop fun _ n => n

/-- `rateLimitedWriter.Write`: what is written to the connection, or nothing after an error. -/
def rateLimitedWrite (burst fuel : ℕ) (p : List UInt8) : Option (List UInt8) :=
  (writeLoop burst fuel p.length).map fun r => if r.2 then p else []

/-- `rateLimitedReader.Read` into a buffer of length `n`; `none` is an error, also `io.EOF`. -/
def rateLimitedRead (burst n : ℕ) (conn : Pieces UInt8) : Option (List UInt8 × Pieces UInt8) :=
  match readLoop burst (n + 1) n with
  | some (_, true) => conn.read n
  | _ => none

/-- The loop ends without an error; no request exceeds the burst, and the requests add up to the
length of the buffer. -/
def Grants (loop : ℕ → ℕ → ℕ → Option (List ℕ × Bool)) (burst n : ℕ) : Prop :=
  ∃ requests, (∀ fuel, n < fuel → loop burst fuel n = some (requests, true)) ∧
    (∀ r ∈ requests, r ≤ burst) ∧ requests.sum = n

/-- The requests of `Write` are bursts and a rest. -/
theorem writeLoop_grants {burst : ℕ} (hburst : 1 ≤ burst) (n : ℕ) :
    Grants writeLoop burst n := by
  induction n using Nat.strong_induction_on with
  | _ n ih =>
    by_cases hn : n = 0
    · refine ⟨[], fun fuel hfuel => ?_, by simp, by simp [hn]⟩
      obtain ⟨fuel, rfl⟩ := Nat.exists_eq_add_one_of_ne_zero (by omega : fuel ≠ 0)
      simp [writeLoop, waitLoop, hn]
    · obtain ⟨k, hk, hk1, hkb, hkn⟩ : ∃ k, (if n < burst then n else burst) = k ∧ 1 ≤ k ∧
          k ≤ burst ∧ k ≤ n := by
        split_ifs with hlt
        · exact ⟨n, rfl, by omega, by omega, le_rfl⟩
        · exact ⟨burst, rfl, hburst, le_rfl, by omega⟩
      obtain ⟨requests, hrun, hle, hsum⟩ := ih (n - k) (by omega)
      refine ⟨k :: requests, fun fuel hfuel => ?_, by simpa using ⟨hkb, hle⟩, ?_⟩
      · obtain ⟨fuel, rfl⟩ := Nat.exists_eq_add_one_of_ne_zero (by omega : fuel ≠ 0)
        have hrest := hrun fuel (by omega)
        rw [writeLoop] at hrest
        simp [writeLoop, waitLoop, hn, hk, waitN, hkb, hrest]
      · rw [List.sum_cons, hsum]
        omega

/-- A buffer that is not empty makes `Read` ask once, for its whole length. -/
theorem readLoop_eq {n fuel : ℕ} (hn : n ≠ 0) (hfuel : n < fuel) (burst : ℕ) :
    readLoop burst fuel n = some ([n], decide (n ≤ burst)) := by
  obtain ⟨fuel, rfl⟩ := Nat.exists_eq_add_one_of_ne_zero (by omega : fuel ≠ 0)
  obtain ⟨fuel, rfl⟩ := Nat.exists_eq_add_one_of_ne_zero (by omega : fuel ≠ 0)
  by_cases hle : n ≤ burst
  · have hall : n - (if n < burst then n else burst) = 0 := by split_ifs <;> omega
    simp [readLoop, waitLoop, hn, waitN, hle, hall]
  · simp [readLoop, waitLoop, hn, waitN, hle]

theorem readLoop_grants_iff (burst n : ℕ) : Grants readLoop burst n ↔ n ≤ burst := by
  constructor
  · rintro ⟨requests, hrun, -⟩
    by_contra hlt
    have hone := hrun (n + 1) n.lt_succ_self
    rw [readLoop_eq (by omega) n.lt_succ_self] at hone
    simp [hlt] at hone
  · intro hle
    by_cases hn : n = 0
    · refine ⟨[], fun fuel hfuel => ?_, by simp, by simp [hn]⟩
      obtain ⟨fuel, rfl⟩ := Nat.exists_eq_add_one_of_ne_zero (by omega : fuel ≠ 0)
      simp [readLoop, waitLoop, hn]
    · refine ⟨[n], fun fuel hfuel => ?_, by simpa using hle, by simp⟩
      rw [readLoop_eq hn hfuel, decide_eq_true hle]

/-- **The tokens of a buffer.**  `Write` ends, no request exceeds the burst, and the requests add
up to the length of the buffer; `Read` does so exactly when the buffer is not longer than the
burst. -/
theorem requests_granted_iff {burst : ℕ} (hburst : 1 ≤ burst) (n : ℕ) :
    Grants writeLoop burst n ∧ (Grants readLoop burst n ↔ n ≤ burst) :=
  ⟨writeLoop_grants hburst n, readLoop_grants_iff burst n⟩

/-- Three bursts and a rest for `Write`, and a buffer that `Read` may fill. -/
theorem requests_granted_ten :
    Grants writeLoop 3 10 ∧ writeLoop 3 11 10 = some ([3, 3, 3, 1], true) ∧
      Grants readLoop 3 3 :=
  ⟨(requests_granted_iff (by decide) 10).1, by decide,
    (requests_granted_iff (by decide) 3).2.mpr le_rfl⟩

/-- The buffer of `ReadFromConn` with the default `params.Bandwidth`. -/
theorem requests_refused :
    readLoop 1000 1025 1024 = some ([1024], false) ∧ ¬ Grants readLoop 1000 1024 :=
  ⟨by decide, by rw [readLoop_grants_iff]; decide⟩

/-- With any burst at all, the whole buffer is written. -/
theorem rateLimitedWrite_eq {burst fuel : ℕ} (hburst : 1 ≤ burst) {p : List UInt8}
    (hfuel : p.length < fuel) : rateLimitedWrite burst fuel p = some p := by
  obtain ⟨requests, hrun, -⟩ := writeLoop_grants hburst p.length
  rw [rateLimitedWrite, hrun fuel hfuel]
  rfl

/-- Without enough burst for the buffer nothing is ever read. -/
theorem rateLimitedRead_eq {n : ℕ} (hn : n ≠ 0) (burst : ℕ) (conn : Pieces UInt8) :
    rateLimitedRead burst n conn = if n ≤ burst then conn.read n else none := by
  rw [rateLimitedRead, readLoop_eq hn n.lt_succ_self]
  split_ifs with hle
  · rw [decide_eq_true hle]
  · rw [decide_eq_false hle]

end Aster.Network
