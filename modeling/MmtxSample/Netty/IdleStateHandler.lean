import Mathlib.Data.Nat.Notation
import Mathlib.Tactic.SplitIfs

/-!
# `IdleStateHandler`

The handler that watches a channel for silence: `READER_IDLE` fires when `readerIdleTime` has passed
without a read, `WRITER_IDLE` when `writerIdleTime` has passed without a completed write, and
`ALL_IDLE` when `allIdleTime` has passed with neither. A time of 0 turns an event off. Times are in
nanoseconds.
-/

namespace Netty

/-- `IdleState` of the events. -/
inductive IdleState
  | readerIdle
  | writerIdle
  | allIdle
  deriving DecidableEq, Repr

/-- The three settings, and when the channel was last read and last written. -/
structure IdleStateHandler where
  readerIdleTime : ℕ
  writerIdleTime : ℕ
  allIdleTime : ℕ
  lastReadTime : ℕ
  lastWriteTime : ℕ
  deriving DecidableEq, Repr

def seconds (n : ℕ) : ℕ := n * 1000000000

theorem seconds_ne_zero {n : ℕ} (h : n ≠ 0) : seconds n ≠ 0 := Nat.mul_ne_zero h (by decide)

namespace IdleStateHandler

/-- `new IdleStateHandler(readerIdleTimeSeconds, writerIdleTimeSeconds, allIdleTimeSeconds)` on a
channel that opens at time 0. -/
def ofSeconds (reader writer all : ℕ) : IdleStateHandler :=
  ⟨seconds reader, seconds writer, seconds all, 0, 0⟩

def channelRead (h : IdleStateHandler) (now : ℕ) : IdleStateHandler :=
  { h with lastReadTime := now }

def writeComplete (h : IdleStateHandler) (now : ℕ) : IdleStateHandler :=
  { h with lastWriteTime := now }

/-- When the event fires if nothing happens before. -/
def deadline (h : IdleStateHandler) : IdleState → Option ℕ
  | .readerIdle => if h.readerIdleTime = 0 then none else some (h.lastReadTime + h.readerIdleTime)
  | .writerIdle => if h.writerIdleTime = 0 then none else some (h.lastWriteTime + h.writerIdleTime)
  | .allIdle =>
    if h.allIdleTime = 0 then none else some (max h.lastReadTime h.lastWriteTime + h.allIdleTime)

/-- The event fires now. -/
def due (h : IdleStateHandler) (now : ℕ) (event : IdleState) : Bool :=
  (h.deadline event).any (· ≤ now)

/-- No event fires before the time `t`. -/
def quietUntil (h : IdleStateHandler) (t : ℕ) : Bool :=
  [IdleState.readerIdle, .writerIdle, .allIdle].all fun event => (h.deadline event).all (t ≤ ·)

/-- The constructor arguments, in order. -/
def settings (h : IdleStateHandler) : ℕ × ℕ × ℕ :=
  (h.readerIdleTime, h.writerIdleTime, h.allIdleTime)

variable {h : IdleStateHandler} {reader all : ℕ}

/-- With only the reader's time set, no event but `READER_IDLE` fires. -/
theorem deadline_of_reader (hs : h.settings = (reader, 0, 0)) (hpos : reader ≠ 0)
    (event : IdleState) :
    h.deadline event = if event = .readerIdle then some (h.lastReadTime + reader) else none := by
  obtain ⟨hr, hw, ha⟩ : h.readerIdleTime = reader ∧ h.writerIdleTime = 0 ∧
    h.allIdleTime = 0 := by simpa [settings] using hs
  cases event <;> simp [deadline, hr, hw, ha, hpos]

/-- With only the common time set, no event but `ALL_IDLE` fires. -/
theorem deadline_of_all (hs : h.settings = (0, 0, all)) (hpos : all ≠ 0) (event : IdleState) :
    h.deadline event =
      if event = .allIdle then some (max h.lastReadTime h.lastWriteTime + all) else none := by
  obtain ⟨hr, hw, ha⟩ : h.readerIdleTime = 0 ∧ h.writerIdleTime = 0 ∧
    h.allIdleTime = all := by simpa [settings] using hs
  cases event <;> simp [deadline, hr, hw, ha, hpos]

theorem due_of_reader (hs : h.settings = (reader, 0, 0)) (hpos : reader ≠ 0) (now : ℕ)
    (event : IdleState) :
    h.due now event = true ↔ event = .readerIdle ∧ h.lastReadTime + reader ≤ now := by
  rw [due, deadline_of_reader hs hpos]
  split_ifs with he <;> simp [he]

theorem due_of_all (hs : h.settings = (0, 0, all)) (hpos : all ≠ 0) (now : ℕ)
    (event : IdleState) :
    h.due now event = true ↔
      event = .allIdle ∧ max h.lastReadTime h.lastWriteTime + all ≤ now := by
  rw [due, deadline_of_all hs hpos]
  split_ifs with he <;> simp [he]

theorem quietUntil_of_reader (hs : h.settings = (reader, 0, 0)) (hpos : reader ≠ 0) (t : ℕ) :
    h.quietUntil t = true ↔ t ≤ h.lastReadTime + reader := by
  simp [quietUntil, deadline_of_reader hs hpos]

theorem quietUntil_of_all (hs : h.settings = (0, 0, all)) (hpos : all ≠ 0) (t : ℕ) :
    h.quietUntil t = true ↔ t ≤ max h.lastReadTime h.lastWriteTime + all := by
  simp [quietUntil, deadline_of_all hs hpos]

end IdleStateHandler

end Netty
