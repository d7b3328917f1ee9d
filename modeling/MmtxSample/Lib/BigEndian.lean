import Mathlib.Tactic.Ring
import Mathlib.Algebra.Order.Ring.Nat

/-!
# Unsigned big-endian numbers

`toBytes k n` is `n` in `k` bytes, most significant first (`n` modulo `256 ^ k`); `value` reads
such bytes back. `value_toBytes` is the round trip.
-/

namespace BigEndian

/-- The low `k` bytes of `n`, most significant first. -/
def toBytes : Nat → Nat → List UInt8
  | 0, _ => []
  | k + 1, n => UInt8.ofNat (n / 256 ^ k) :: toBytes k n

/-- The unsigned number the bytes spell, most significant first. -/
def value : List UInt8 → Nat
  | [] => 0
  | b :: bs => b.toNat * 256 ^ bs.length + value bs

@[simp] theorem length_toBytes (k n : Nat) : (toBytes k n).length = k := by
  induction k with
  | zero => rfl
  | succ k ih => simp [toBytes, ih]

theorem value_toBytes (k n : Nat) : value (toBytes k n) = n % 256 ^ k := by
  induction k with
  | zero => simp [toBytes, value, Nat.mod_one]
  | succ k ih =>
    have hbyte : (UInt8.ofNat (n / 256 ^ k)).toNat = n / 256 ^ k % 256 := by simp
    rw [toBytes, value, ih, length_toBytes, hbyte, pow_succ, Nat.mod_mul]
    ring

theorem value_toBytes_of_lt {k n : Nat} (h : n < 256 ^ k) : value (toBytes k n) = n := by
  rw [value_toBytes, Nat.mod_eq_of_lt h]

end BigEndian
