import Aster.Network.Framing

/-!
# Reading a dialled connection

`ReadFromConn` reads into a buffer of 1024 bytes, through the limiter, and adds what it gets to
`messageBuffer`.  After every read it takes messages out until `readMessage` returns an error.  But
`ReadBytes` of a `bytes.Buffer` returns no error other than `io.EOF`, which `readMessage` turns
into nil: without a complete line it returns what there is, and after that the empty string.

* `messageLoop_eq`: the inner loop logs the lines, the rest, and then empty messages for ever;
* **`read_from_conn_iff`**: only a connection on which nothing is read is handled as it should.
-/

namespace Aster.Network

open Aster.Lib.Streams

inductive IoError where
  | eof
  | shortBuffer
  deriving DecidableEq

/-- `ReadBytes('\n')` of a `bytes.Buffer`: the bytes, the error and the buffer after it. -/
def bufferReadBytes (buffer : List UInt8) : (List UInt8 × Option IoError) × List UInt8 :=
  match cutLine newline buffer with
  | some (line, rest) => ((line, none), rest)
  | none => ((buffer, some .eof), [])

def readMessage (buffer : List UInt8) : Except IoError (List UInt8) × List UInt8 :=
  match bufferReadBytes buffer with
  | ((_, some .shortBuffer), rest) => (.error .shortBuffer, rest)
  | ((message, some .eof), rest) | ((message, none), rest) => (.ok message, rest)

/-- At most `fuel` rounds of the inner loop: the messages that are logged, and `messageBuffer` if
the loop has ended. -/
def messageLoop : ℕ → List UInt8 → List (List UInt8) × Option (List UInt8)
  | 0, _ => ([], none)
  | fuel + 1, messageBuffer =>
    match readMessage messageBuffer with
    | (.ok message, rest) => (message :: (messageLoop fuel rest).1, (messageLoop fuel rest).2)
    | (.error _, rest) => ([], some rest)

/-- The outer loop from a state of `messageBuffer` on: the messages that are logged, and whether
the function has returned. -/
def readFromConn (burst : ℕ) : ℕ → List UInt8 → Pieces UInt8 → List (List UInt8) × Bool
  | 0, _, _ => ([], false)
  | fuel + 1, messageBuffer, conn =>
    match rateLimitedRead burst 1024 conn with
    | none => ([], true)
    | some (p, conn) =>
      match messageLoop fuel (messageBuffer ++ p) with
      | (messages, none) => (messages, false)
      | (messages, some messageBuffer) =>
        let rest := readFromConn burst fuel messageBuffer conn
        (messages ++ rest.1, rest.2)

theorem readMessage_eq (buffer : List UInt8) :
    readMessage buffer =
      match cutLine newline buffer with
      | some (line, rest) => (.ok line, rest)
      | none => (.ok buffer, []) := by
  rw [readMessage, bufferReadBytes]
  cases cutLine newline buffer <;> rfl

theorem messageLoop_nil (fuel : ℕ) :
    messageLoop fuel [] = (List.replicate fuel [], none) := by
  induction fuel with
  | zero => rfl
  | succ fuel ih => simp [messageLoop, readMessage_eq, cutLine, ih, List.replicate_succ]

/-- **The inner loop does not end.**  It logs the lines of the buffer, what is left, and then the
empty message in every round. -/
theorem messageLoop_eq (fuel : ℕ) (buffer : List UInt8) :
    messageLoop fuel buffer =
      ((lines newline buffer ++ remainder newline buffer :: List.replicate fuel []).take fuel,
        none) := by
  induction fuel generalizing buffer with
  | zero => rfl
  | succ fuel ih =>
    rw [messageLoop, readMessage_eq]
    cases hcut : cutLine newline buffer with
    | none =>
      have hnot := cutLine_eq_none_iff.mp hcut
      simp [lines_of_not_mem hnot, remainder_of_not_mem hnot, messageLoop_nil]
    | some c =>
      obtain ⟨line, rest⟩ := c
      -- one more empty message does not show among the first `fuel` ones
      have htake : (lines newline rest ++ remainder newline rest ::
            List.replicate (fuel + 1) []).take fuel =
          (lines newline rest ++ remainder newline rest :: List.replicate fuel []).take fuel := by
        rw [List.replicate_succ', ← List.cons_append, ← List.append_assoc]
        refine List.take_append_of_le_length ?_
        rw [List.length_append, List.length_cons, List.length_replicate]
        omega
      simp only [ih, lines_of_cutLine hcut, remainder_of_cutLine hcut, List.cons_append,
        List.take_succ_cons, htake]

/-- **What `ReadFromConn` makes of a connection.**  It returns with the lines of the stream as its
messages only when there is no stream, or when the limiter refuses the first read and the stream
has no line.  Otherwise it never returns from its first read `p`. -/
theorem read_from_conn_iff (burst : ℕ) (conn : Pieces UInt8) :
    ((∃ fuel, readFromConn burst fuel [] conn = (lines newline conn.all, true)) ↔
      conn.all = [] ∨ (burst < 1024 ∧ newline ∉ conn.all)) ∧
    ∀ p conn', rateLimitedRead burst 1024 conn = some (p, conn') → ∀ fuel,
      readFromConn burst (fuel + 1) [] conn =
        ((lines newline p ++ remainder newline p :: List.replicate fuel []).take fuel, false) := by
  have hfirst : ∀ p conn', rateLimitedRead burst 1024 conn = some (p, conn') → ∀ fuel,
      readFromConn burst (fuel + 1) [] conn =
        ((lines newline p ++ remainder newline p :: List.replicate fuel []).take fuel, false) := by
    intro p conn' hread fuel
    simp only [readFromConn, hread, List.nil_append, messageLoop_eq]
  refine ⟨?_, hfirst⟩
  rw [rateLimitedRead_eq (by decide)] at hfirst
  constructor
  · rintro ⟨fuel, hrun⟩
    obtain _ | fuel := fuel
    · exact absurd (congrArg Prod.snd hrun) Bool.false_ne_true
    by_cases hburst : 1024 ≤ burst
    · refine .inl ?_
      by_contra hall
      cases hread : conn.read 1024 with
      | none => exact hall (Pieces.read_eq_none_iff.mp hread)
      | some c =>
        rw [hfirst c.1 c.2 (by rw [if_pos hburst, hread]) fuel] at hrun
        exact absurd (congrArg Prod.snd hrun) Bool.false_ne_true
    · refine .inr ⟨by omega, ?_⟩
      simp only [readFromConn, rateLimitedRead_eq (by decide : 1024 ≠ 0), if_neg hburst,
        Prod.mk.injEq, and_true] at hrun
      exact lines_eq_nil_iff.mp hrun.symm
  · intro h
    have hnone : rateLimitedRead burst 1024 conn = none := by
      rw [rateLimitedRead_eq (by decide)]
      rcases h with hall | ⟨hburst, -⟩
      · rw [Pieces.read_eq_none_iff.mpr hall, ite_self]
      · rw [if_neg (by omega)]
    have hlines : lines newline conn.all = [] := by
      rcases h with hall | ⟨-, hnot⟩
      · rw [hall]
        rfl
      · exact lines_of_not_mem hnot
    exact ⟨1, by simp [readFromConn, hnone, hlines]⟩

/-- A connection on which one line arrives. -/
def oneLine : Pieces UInt8 := ⟨[[97, newline]], by decide⟩

/-- The line is logged, and then the empty message, without an end. -/
theorem read_from_conn_loops :
    readFromConn 1024 6 [] oneLine = ([[97, newline], [], [], [], []], false) ∧
    (∀ fuel, (readFromConn 1024 fuel [] oneLine).2 = false) ∧
    ¬ ∃ fuel, readFromConn 1024 fuel [] oneLine = (lines newline oneLine.all, true) := by
  have hloop : ∀ fuel, (readFromConn 1024 fuel [] oneLine).2 = false := by
    intro fuel
    cases fuel with
    | zero => rfl
    | succ fuel =>
      simp [readFromConn, rateLimitedRead_eq, oneLine, Pieces.read, messageLoop_eq]
  refine ⟨by decide +kernel, hloop, ?_⟩
  rintro ⟨fuel, hrun⟩
  have hend := congrArg Prod.snd hrun
  rw [hloop fuel] at hend
  exact absurd hend Bool.false_ne_true

end Aster.Network
