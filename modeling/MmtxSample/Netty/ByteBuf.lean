import MmtxSample.Lib.BigEndian

/-!
# Java integers and arrays, Netty byte buffers

The part of the platform the frame code computes with. A `ByteBuf` is its written bytes and a
reader index inside them; every operation checks its bounds as Netty's does and throws otherwise.
Only the order of the written bytes matters here, so the writer index is the number of bytes
written. `getByte` takes an absolute index and is checked against the capacity: the frames a
decoder hands on are slices, whose capacity is their length.
-/

namespace Java

/-- `Integer.MAX_VALUE`. -/
def intMax : Nat := 2147483647

/-- The `int` a sum of `int`s wraps around to. -/
def toInt (x : Int) : Int := x.bmod 4294967296

/-- The runtime exceptions the modelled code can throw. -/
inductive Exception
  | nullPointer
  | illegalArgument
  | indexOutOfBounds
  | negativeArraySize
  deriving DecidableEq, Repr

/-- A `byte[]`. Its length is an `int`. -/
structure Bytes where
  data : List UInt8
  length_le : data.length ≤ intMax
  deriving DecidableEq, Repr

namespace Bytes

/-- The length of the array. -/
def length (b : Bytes) : Nat := b.data.length

/-- The empty array. -/
def empty : Bytes := ⟨[], Nat.zero_le _⟩

end Bytes

/-- `new byte[n]`, of which only the length matters until it is filled. -/
def newBytes (n : Int) : Except Exception Nat :=
  if n < 0 then .error .negativeArraySize else .ok n.toNat

/-- Intermediate wrap-around does not show. -/
theorem toInt_toInt_add (x y : Int) : toInt (toInt x + y) = toInt (x + y) :=
  Int.bmod_add_bmod

theorem toInt_of_le {n : Nat} (h : n ≤ intMax) : toInt n = n := by
  unfold toInt intMax at *
  rw [Int.bmod_eq_of_le] <;> omega

theorem toInt_neg {n : Nat} (h₁ : intMax < n) (h₂ : n ≤ intMax + 5) : toInt n < 0 := by
  unfold toInt intMax at *
  rw [Int.bmod_def]
  omega

end Java

namespace Netty

open Java (Exception)

/-- A buffer: the bytes written and how many of them have been read. -/
structure ByteBuf where
  bytes : List UInt8
  readerIndex : Nat
  readerIndex_le : readerIndex ≤ bytes.length
  deriving DecidableEq, Repr

namespace ByteBuf

/-- A buffer of these bytes, none of them read. -/
def wrap (bytes : List UInt8) : ByteBuf := ⟨bytes, 0, Nat.zero_le _⟩

/-- The bytes between the reader and the writer index: what a channel sends of a buffer. -/
def readable (b : ByteBuf) : List UInt8 := b.bytes.drop b.readerIndex

def readableBytes (b : ByteBuf) : Nat := b.bytes.length - b.readerIndex

/-! ## Writing -/

/-- `alloc().buffer(initialCapacity)`. -/
def alloc (initialCapacity : Int) : Except Exception ByteBuf :=
  if initialCapacity < 0 then .error .illegalArgument else .ok (wrap [])

def writeBytes (b : ByteBuf) (src : List UInt8) : ByteBuf where
  bytes := b.bytes ++ src
  readerIndex := b.readerIndex
  readerIndex_le := by
    have := b.readerIndex_le
    rw [List.length_append]
    omega

def writeByte (b : ByteBuf) (value : UInt8) : ByteBuf := b.writeBytes [value]

/-- Four bytes of the two's complement, most significant first. -/
def writeInt (b : ByteBuf) (value : Int) : ByteBuf :=
  b.writeBytes (BigEndian.toBytes 4 (value % 4294967296).toNat)

/-- `Unpooled.copiedBuffer(b)`. -/
def copiedBuffer (b : ByteBuf) : ByteBuf := wrap b.readable

/-! ## Reading -/

def getByte (b : ByteBuf) (index : Nat) : Except Exception UInt8 :=
  match b.bytes[index]? with
  | some value => .ok value
  | none => .error .indexOutOfBounds

def skipBytes (b : ByteBuf) (length : Nat) : Except Exception ByteBuf :=
  if h : b.readerIndex + length ≤ b.bytes.length then
    .ok ⟨b.bytes, b.readerIndex + length, h⟩
  else .error .indexOutOfBounds

/-- `readBytes(dst)` for an array `dst` of this length: the bytes it is filled with, and the
buffer after them. -/
def readBytes (b : ByteBuf) (length : Nat) : Except Exception (List UInt8 × ByteBuf) :=
  if h : b.readerIndex + length ≤ b.bytes.length then
    .ok (b.readable.take length, ⟨b.bytes, b.readerIndex + length, h⟩)
  else .error .indexOutOfBounds

/-! ## What the operations compute -/

@[simp] theorem readableBytes_wrap (bytes : List UInt8) :
    (wrap bytes).readableBytes = bytes.length := rfl

@[simp] theorem writeBytes_wrap (bytes src : List UInt8) :
    (wrap bytes).writeBytes src = wrap (bytes ++ src) := rfl

@[simp] theorem writeByte_wrap (bytes : List UInt8) (value : UInt8) :
    (wrap bytes).writeByte value = wrap (bytes ++ [value]) := rfl

theorem writeInt_wrap (bytes : List UInt8) {n : Nat} (h : n ≤ Java.intMax) :
    (wrap bytes).writeInt n = wrap (bytes ++ BigEndian.toBytes 4 n) := by
  have hmod : ((n : Int) % 4294967296).toNat = n := by
    unfold Java.intMax at h
    omega
  rw [writeInt, hmod, writeBytes_wrap]

theorem alloc_nat (n : Nat) : alloc n = .ok (wrap []) := by
  simp [alloc]

theorem getByte_wrap_error {bytes : List UInt8} {i : Nat} (h : bytes.length ≤ i) :
    (wrap bytes).getByte i = .error .indexOutOfBounds := by
  simp [getByte, wrap, List.getElem?_eq_none h]

/-- Reading `length` bytes after skipping `k` of a fresh buffer. -/
theorem skip_readBytes_wrap {bytes : List UInt8} {k length : Nat} (h : k + length = bytes.length) :
    ∃ b b', (wrap bytes).skipBytes k = .ok b ∧ b.readBytes length = .ok (bytes.drop k, b') := by
  refine ⟨⟨bytes, k, by omega⟩, ⟨bytes, k + length, h.le⟩, ?_, ?_⟩
  · simp [skipBytes, wrap, show k ≤ bytes.length by omega]
  · have htake : (bytes.drop k).take length = bytes.drop k :=
      List.take_of_length_le (by rw [List.length_drop]; omega)
    simp [readBytes, h.le, readable, htake]

end ByteBuf

end Netty
