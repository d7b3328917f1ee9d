import MmtxSample.Netty.ByteBuf
import MmtxSample.Netty.LengthFieldBasedFrameDecoder

/-!
# The frames on the wire

Four places in the source write a frame by hand: `sendPingMsg` and `sendPongMsg` of
`CustomHeartbeatHandler`, the loop of `TestServerController.insertRow` and `Client.sendData`. All
of them write a four-byte length that counts the whole frame, a type byte, and the payload. The
two that carry a payload compute the length as the `int` sum `5 + getBytes().length`, allocate a
buffer of that capacity and check nothing.

`frame` is the format as such. The writers are translated as they stand, with the allocation that
throws when the sum has wrapped around, and then shown to write `frame` (`heartbeatBuf_eq`,
`customBuf_eq`) or, for an array of more than `Integer.MAX_VALUE - 5` bytes, to throw
(`customBuf_overflow`).

Both pipelines cut the stream with `LengthFieldBasedFrameDecoder(1024, 0, 4, -4, 0)`
(`frameDecoder`). A frame is one of its self-delimiting code words as long as the payload has at
most 1019 bytes (`frame_framed`); a longer one it discards (`frame_tooLong`).
-/

namespace MmtxSample

open Java Netty Framing

namespace CustomHeartbeatHandler

def PING_MSG : UInt8 := 1
def PONG_MSG : UInt8 := 2
def CUSTOM_MSG : UInt8 := 3

end CustomHeartbeatHandler

open CustomHeartbeatHandler

/-- The format: the length of the whole frame, the type, the payload. -/
def frame (type : UInt8) (payload : List UInt8) : List UInt8 :=
  BigEndian.toBytes 4 (5 + payload.length) ++ type :: payload

/-! ## The writers -/

/-- The buffer `sendPingMsg` and `sendPongMsg` write. -/
def heartbeatBuf (type : UInt8) : Except Exception ByteBuf := do
  let buf ← ByteBuf.alloc 5
  return (buf.writeInt 5).writeByte type

/-- The buffer `insertRow` and `sendData` write, for the bytes of their string. -/
def customBuf (content : Bytes) : Except Exception ByteBuf := do
  let buf ← ByteBuf.alloc (toInt (5 + content.length))
  return ((buf.writeInt (toInt (5 + content.length))).writeByte CUSTOM_MSG).writeBytes content.data

/-- The buffer `TestServerController.insertRow` pushes to every channel. -/
def TestServerController.insertRowBuf (msg : Bytes) : Except Exception ByteBuf := customBuf msg

/-- The buffer `Client.sendData` sends. -/
def Client.sendDataBuf (content : Bytes) : Except Exception ByteBuf := customBuf content

theorem heartbeatBuf_eq (type : UInt8) : heartbeatBuf type = .ok (.wrap (frame type [])) := by
  have hint : (ByteBuf.wrap []).writeInt 5 = .wrap ([] ++ BigEndian.toBytes 4 5) :=
    ByteBuf.writeInt_wrap [] (n := 5) (by decide)
  show (do let buf ← ByteBuf.alloc (5 : Nat); pure ((buf.writeInt 5).writeByte type)) = _
  rw [ByteBuf.alloc_nat]
  show Except.ok (((ByteBuf.wrap []).writeInt 5).writeByte type) = _
  rw [hint]
  rfl

theorem customBuf_eq {content : Bytes} (h : 5 + content.length ≤ intMax) :
    customBuf content = .ok (.wrap (frame CUSTOM_MSG content.data)) := by
  have hlen : toInt (5 + content.length) = ((5 + content.length : Nat) : Int) := by
    exact_mod_cast toInt_of_le h
  unfold customBuf
  rw [hlen, ByteBuf.alloc_nat]
  show Except.ok ((((ByteBuf.wrap []).writeInt _).writeByte CUSTOM_MSG).writeBytes content.data) = _
  rw [ByteBuf.writeInt_wrap _ h, ByteBuf.writeByte_wrap, ByteBuf.writeBytes_wrap]
  simp [frame, Bytes.length]

theorem customBuf_overflow {content : Bytes} (h : intMax < 5 + content.length) :
    customBuf content = .error .illegalArgument := by
  have hneg : toInt (5 + content.length) < 0 := by
    have hle := content.length_le
    exact_mod_cast toInt_neg h (by unfold Bytes.length; omega)
  unfold customBuf ByteBuf.alloc
  rw [if_pos hneg]
  rfl

/-! ## Frames as lists of bytes -/

@[simp] theorem length_frame (type : UInt8) (payload : List UInt8) :
    (frame type payload).length = 5 + payload.length := by
  simp [frame]
  omega

@[simp] theorem drop_frame (type : UInt8) (payload : List UInt8) :
    (frame type payload).drop 5 = payload := by
  rw [frame, ← List.singleton_append, ← List.append_assoc]
  exact List.drop_left' (by simp)

theorem frame_type (type : UInt8) (payload : List UInt8) :
    (frame type payload)[4]? = some type := by
  rw [frame, List.getElem?_append_right (by simp)]
  simp

theorem frame_header {type : UInt8} {payload : List UInt8} (h : 5 + payload.length ≤ intMax) :
    BigEndian.value ((frame type payload).take 4) = 5 + payload.length := by
  have htake : (frame type payload).take 4 = BigEndian.toBytes 4 (5 + payload.length) :=
    List.take_left' (by simp)
  unfold intMax at h
  rw [htake, BigEndian.value_toBytes_of_lt (by omega)]

/-! ## The decoder of both pipelines -/

/-- `new LengthFieldBasedFrameDecoder(1024, 0, 4, -4, 0)`, in `Server.start` and `Client.start`. -/
def frameDecoder : LengthFieldBasedFrameDecoder where
  maxFrameLength := 1024
  lengthFieldOffset := 0
  lengthFieldLength := 4
  lengthAdjustment := -4
  initialBytesToStrip := 0

theorem frameDecoder_eq : frameDecoder = .wholeFrame 1024 4 := rfl

/-- What the decoder hands on has 4 to 1024 bytes, as its header says. -/
theorem frameDecoder_emit {buf f rest : List UInt8} (h : frameDecoder.decode buf = .emit f rest) :
    4 ≤ f.length ∧ f.length ≤ 1024 ∧ BigEndian.value (f.take 4) = f.length :=
  LengthFieldBasedFrameDecoder.wholeFrame_emit h

theorem frameDecoder_nil : frameDecoder.decode [] = .wait :=
  LengthFieldBasedFrameDecoder.wholeFrame_decode_nil (by decide)

theorem frame_framed (type : UInt8) {payload : List UInt8} (h : payload.length ≤ 1019) :
    Framed frameDecoder.decode (frame type payload) (frame type payload) :=
  LengthFieldBasedFrameDecoder.wholeFrame_framed
    (by rw [frame_header (by unfold intMax; omega), length_frame])
    (by rw [length_frame]; omega) (by rw [length_frame]; omega)

/-- A longer frame is discarded as soon as its header is there, whatever follows. -/
theorem frame_tooLong (type : UInt8) {payload : List UInt8} (h : 1019 < payload.length)
    (hint : 5 + payload.length ≤ intMax) (rest : List UInt8) :
    frameDecoder.decode (frame type payload ++ rest) =
      .fail .tooLongFrame (5 + payload.length) := by
  have hhead : BigEndian.value ((frame type payload ++ rest).take 4) = 5 + payload.length := by
    rw [List.take_append_of_le_length (by rw [length_frame]; omega), frame_header hint]
  rw [frameDecoder_eq, LengthFieldBasedFrameDecoder.wholeFrame_decode, hhead, if_neg, if_neg,
    if_pos]
  · omega
  · omega
  · rw [List.length_append, length_frame]; omega

end MmtxSample
