import MmtxSample.Lib.BigEndian
import MmtxSample.Lib.Parsing

/-!
# `LengthFieldBasedFrameDecoder`

The cutter behind Netty's length-field decoder, with its five settings as parameters: the length
of a frame is the unsigned big-endian number found `lengthFieldOffset` bytes in and
`lengthFieldLength` bytes wide, plus `lengthAdjustment`, plus everything up to the end of the
length field. A frame shorter than that end is corrupt: the bytes up to it are skipped. A frame
longer than `maxFrameLength` is too long: it is discarded, also where it has not arrived yet.
Anything else is handed on without its first `initialBytesToStrip` bytes.
-/

namespace Netty

open Framing

/-- The constructor arguments, in order. -/
structure LengthFieldBasedFrameDecoder where
  maxFrameLength : Nat
  lengthFieldOffset : Nat
  lengthFieldLength : Nat
  lengthAdjustment : Int
  initialBytesToStrip : Nat
  deriving DecidableEq, Repr

/-- What the decoder throws. -/
inductive DecoderException
  | corruptedFrame
  | tooLongFrame
  deriving DecidableEq, Repr

namespace LengthFieldBasedFrameDecoder

variable (d : LengthFieldBasedFrameDecoder)

def lengthFieldEndOffset : Nat := d.lengthFieldOffset + d.lengthFieldLength

/-- The number in the length field. -/
def unadjustedFrameLength (buf : List UInt8) : Nat :=
  BigEndian.value ((buf.drop d.lengthFieldOffset).take d.lengthFieldLength)

def frameLength (buf : List UInt8) : Int :=
  d.unadjustedFrameLength buf + d.lengthAdjustment + d.lengthFieldEndOffset

/-- One attempt to cut a frame off the bytes held. -/
def decode (buf : List UInt8) : Cut UInt8 (List UInt8) DecoderException :=
  if buf.length < d.lengthFieldEndOffset then .wait
  else if d.frameLength buf < d.lengthFieldEndOffset then
    .fail .corruptedFrame d.lengthFieldEndOffset
  else if d.frameLength buf > d.maxFrameLength then
    .fail .tooLongFrame (d.frameLength buf).toNat
  else if buf.length < (d.frameLength buf).toNat then .wait
  else if d.initialBytesToStrip > (d.frameLength buf).toNat then
    .fail .corruptedFrame (d.frameLength buf).toNat
  else
    .emit ((buf.take (d.frameLength buf).toNat).drop d.initialBytesToStrip)
      (buf.drop (d.frameLength buf).toNat)

/-! ## What is cut does not depend on what follows -/

variable {d}

theorem frameLength_append {buf : List UInt8} (h : d.lengthFieldEndOffset ≤ buf.length)
    (later : List UInt8) : d.frameLength (buf ++ later) = d.frameLength buf := by
  have hfield : ((buf ++ later).drop d.lengthFieldOffset).take d.lengthFieldLength =
      (buf.drop d.lengthFieldOffset).take d.lengthFieldLength := by
    unfold lengthFieldEndOffset at h
    rw [List.drop_append_of_le_length (by omega),
      List.take_append_of_le_length (by rw [List.length_drop]; omega)]
  rw [frameLength, unadjustedFrameLength, hfield]
  rfl

/-- The decoder never changes its mind, whatever its settings, as long as there is a length field
to wait for. -/
theorem decode_stable (hpos : 0 < d.lengthFieldEndOffset) : Stable d.decode where
  nil := by rw [decode, if_pos (by simpa using hpos)]
  emit {buf b rest} h := by
    unfold decode at h
    split_ifs at h with h₁ h₂ h₃ h₄ h₅
    obtain ⟨rfl, rfl⟩ := Cut.emit.inj h
    refine ⟨?_, ?_⟩
    · rw [List.length_drop]
      omega
    · intro later
      rw [decode, frameLength_append (by omega), List.length_append, if_neg (by omega), if_neg h₂,
        if_neg h₃, if_neg (by omega), if_neg h₅, List.take_append_of_le_length (by omega),
        List.drop_append_of_le_length (by omega)]
  fail {buf e skip} h := by
    unfold decode at h
    split_ifs at h with h₁ h₂ h₃ h₄ h₅ <;> obtain ⟨rfl, rfl⟩ := Cut.fail.inj h
    · refine ⟨hpos, fun later => ?_⟩
      rw [decode, frameLength_append (by omega), List.length_append, if_neg (by omega), if_pos h₂]
    · refine ⟨by omega, fun later => ?_⟩
      rw [decode, frameLength_append (by omega), List.length_append, if_neg (by omega), if_neg h₂,
        if_pos h₃]
    · refine ⟨by omega, fun later => ?_⟩
      rw [decode, frameLength_append (by omega), List.length_append, if_neg (by omega), if_neg h₂,
        if_neg h₃, if_neg (by omega), if_pos h₅]

/-! ## Length that counts its own header, nothing stripped

The settings `(max, 0, w, -w, 0)`: the number in the first `w` bytes is the length of the whole
frame. -/

/-- The settings under which the length field counts the whole frame. -/
def wholeFrame (max w : Nat) : LengthFieldBasedFrameDecoder := ⟨max, 0, w, -w, 0⟩

variable {max w : Nat}

theorem wholeFrame_frameLength (buf : List UInt8) :
    (wholeFrame max w).frameLength buf = BigEndian.value (buf.take w) := by
  simp [frameLength, unadjustedFrameLength, lengthFieldEndOffset, wholeFrame]

/-- The decoder's contract under these settings: with the header `L` held, `L < w` is corrupt,
`L > max` is too long, and otherwise the first `L` bytes are the frame. -/
theorem wholeFrame_decode (buf : List UInt8) :
    (wholeFrame max w).decode buf =
      if buf.length < w then .wait
      else if BigEndian.value (buf.take w) < w then .fail .corruptedFrame w
      else if max < BigEndian.value (buf.take w) then
        .fail .tooLongFrame (BigEndian.value (buf.take w))
      else if buf.length < BigEndian.value (buf.take w) then .wait
      else .emit (buf.take (BigEndian.value (buf.take w)))
        (buf.drop (BigEndian.value (buf.take w))) := by
  unfold decode
  rw [wholeFrame_frameLength]
  simp [lengthFieldEndOffset, wholeFrame]

/-- Every frame handed on is as long as its header says, and between the two bounds. -/
theorem wholeFrame_emit {buf frame rest : List UInt8}
    (h : (wholeFrame max w).decode buf = .emit frame rest) :
    w ≤ frame.length ∧ frame.length ≤ max ∧ BigEndian.value (frame.take w) = frame.length := by
  rw [wholeFrame_decode] at h
  split_ifs at h with h₁ h₂ h₃ h₄
  obtain ⟨rfl, -⟩ := Cut.emit.inj h
  rw [List.length_take, List.take_take, Nat.min_eq_left (by omega), Nat.min_eq_left (by omega)]
  omega

/-- A code word whose first `w` bytes spell its length, within the bounds, is self-delimiting. -/
theorem wholeFrame_framed {e : List UInt8} (hval : BigEndian.value (e.take w) = e.length)
    (hw : w ≤ e.length) (hmax : e.length ≤ max) :
    Framed (wholeFrame max w).decode e e where
  emit rest := by
    have hhead : BigEndian.value ((e ++ rest).take w) = e.length := by
      rw [List.take_append_of_le_length hw, hval]
    rw [wholeFrame_decode, hhead, List.length_append, if_neg (by omega), if_neg (by omega),
      if_neg (by omega), if_neg (by omega), List.take_left, List.drop_left]
  wait p hp hne := by
    have hlt : p.length < e.length :=
      lt_of_le_of_ne hp.length_le fun h => hne (hp.eq_of_length h)
    rw [wholeFrame_decode]
    by_cases hpw : p.length < w
    · rw [if_pos hpw]
    · have hhead : BigEndian.value (p.take w) = e.length := by
        obtain ⟨q, rfl⟩ := hp
        rw [← hval, List.take_append_of_le_length (by omega)]
      rw [if_neg hpw, hhead, if_neg (by omega), if_neg (by omega), if_pos hlt]

theorem wholeFrame_decode_nil (hw : 0 < w) : (wholeFrame max w).decode [] = .wait := by
  rw [wholeFrame_decode, if_pos (by simpa using hw)]

end LengthFieldBasedFrameDecoder

end Netty
