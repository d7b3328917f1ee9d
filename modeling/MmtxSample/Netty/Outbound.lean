import Mathlib.Tactic.TypeStar

/-!
# The outbound buffer of a channel

`write` appends to the buffer and sends nothing; `flush` sends everything appended so far, in order.
`sent` and `pending` together are the history of the writes (`writes`), whatever is flushed when.
-/

namespace Netty

/-- What a channel has sent, and what it has been given to write since the last flush. -/
structure Outbound (α : Type*) where
  sent : List α
  pending : List α
  deriving DecidableEq, Repr

namespace Outbound

variable {α : Type*}

def empty : Outbound α := ⟨[], []⟩

def write (o : Outbound α) (x : α) : Outbound α := { o with pending := o.pending ++ [x] }

def flush (o : Outbound α) : Outbound α := ⟨o.sent ++ o.pending, []⟩

def writeAndFlush (o : Outbound α) (x : α) : Outbound α := (o.write x).flush

/-- Everything written so far, in order. -/
def writes (o : Outbound α) : List α := o.sent ++ o.pending

@[simp] theorem pending_write (o : Outbound α) (x : α) :
    (o.write x).pending = o.pending ++ [x] := rfl

@[simp] theorem writes_write (o : Outbound α) (x : α) : (o.write x).writes = o.writes ++ [x] := by
  simp [writes, write]

@[simp] theorem writes_flush (o : Outbound α) : o.flush.writes = o.writes := by
  simp [writes, flush]

@[simp] theorem pending_writeAndFlush (o : Outbound α) (x : α) :
    (o.writeAndFlush x).pending = [] := rfl

@[simp] theorem sent_writeAndFlush (o : Outbound α) (x : α) :
    (o.writeAndFlush x).sent = o.writes ++ [x] := by
  simp [writeAndFlush, write, flush, writes]

@[simp] theorem writes_writeAndFlush (o : Outbound α) (x : α) :
    (o.writeAndFlush x).writes = o.writes ++ [x] := by
  simp [writeAndFlush]

end Outbound

end Netty
