import MmtxSample.Frames
import MmtxSample.Netty.IdleStateHandler

/-!
# The handlers

`CustomHeartbeatHandler` reads the type byte of a frame and answers a ping, prints a pong, or hands
the frame to the subclass; `ServerHandler` prints the payload and writes the frame back, and
`ClientHandler` prints the payload. The abstract class is a record of the methods its subclasses
override; a handler call returns what it asks of its channel, in order, or the exception it throws.

The source has the base class twice, once for the server and once for the client. The two copies
differ only in that the server's registers its channels (`MmtxSample.Registry`); what is modelled
here they have in common.

`channelRead0_of_type` says what a handler makes of a frame that has a type byte, and
`channelRead0_ok_iff` that it throws on exactly the frames of fewer than 5 bytes.
-/

namespace MmtxSample

open Java Netty CustomHeartbeatHandler

/-- What a handler prints. -/
inductive Line
  | sentPing (name : String) (heartbeatCount : Int)
  | sentPong (name : String) (heartbeatCount : Int)
  | getPong (name : String)
  | content (name : String) (data : List UInt8)
  | idle (state : IdleState)
  | readerTimeout
  deriving DecidableEq, Repr

/-- What a handler asks of its channel. `ctx.write` leaves the bytes in the outbound buffer; the
writes of the base class also flush it. -/
inductive Effect
  | println (line : Line)
  | write (bytes : List UInt8)
  | writeAndFlush (bytes : List UInt8)
  | close
  deriving DecidableEq, Repr

/-- The branch `channelRead0` takes; `handleData` with the array it fills. -/
inductive Branch
  | sendPongMsg
  | getPong
  | handleData (data : List UInt8)
  deriving DecidableEq, Repr

/-- The outcome of a `channelRead0` that does not throw. -/
structure Handled where
  branch : Branch
  heartbeatCount : Int
  effects : List Effect
  deriving DecidableEq, Repr

/-- The abstract class: its name and the methods subclasses override. -/
structure CustomHeartbeatHandler where
  name : String
  handleData : ByteBuf → Except Exception (List UInt8 × List Effect)
  handleReaderIdle : List Effect
  handleWriterIdle : List Effect
  handleAllIdle : Int → Except Exception (Int × List Effect)

namespace CustomHeartbeatHandler

def sendPingMsg (name : String) (heartbeatCount : Int) : Except Exception (Int × List Effect) := do
  let buf ← heartbeatBuf PING_MSG
  return (toInt (heartbeatCount + 1),
    [.writeAndFlush buf.readable, .println (.sentPing name (toInt (heartbeatCount + 1)))])

def sendPongMsg (name : String) (heartbeatCount : Int) : Except Exception (Int × List Effect) := do
  let buf ← heartbeatBuf PONG_MSG
  return (toInt (heartbeatCount + 1),
    [.writeAndFlush buf.readable, .println (.sentPong name (toInt (heartbeatCount + 1)))])

def channelRead0 (self : CustomHeartbeatHandler) (heartbeatCount : Int) (byteBuf : ByteBuf) :
    Except Exception Handled := do
  if (← byteBuf.getByte 4) = PING_MSG then
    let (count, effects) ← sendPongMsg self.name heartbeatCount
    return ⟨.sendPongMsg, count, effects⟩
  else if (← byteBuf.getByte 4) = PONG_MSG then
    return ⟨.getPong, heartbeatCount, [.println (.getPong self.name)]⟩
  else
    let (data, effects) ← self.handleData byteBuf
    return ⟨.handleData data, heartbeatCount, effects⟩

def userEventTriggered (self : CustomHeartbeatHandler) (heartbeatCount : Int) :
    IdleState → Except Exception (Int × List Effect)
  | .readerIdle => .ok (heartbeatCount, self.handleReaderIdle)
  | .writerIdle => .ok (heartbeatCount, self.handleWriterIdle)
  | .allIdle => self.handleAllIdle heartbeatCount

/-- The base class's idle methods print the state. -/
def printIdle (state : IdleState) : List Effect := [.println (.idle state)]

end CustomHeartbeatHandler

/-! ## The two subclasses -/

def ServerHandler.handleData (buf : ByteBuf) : Except Exception (List UInt8 × List Effect) := do
  let length ← newBytes ((buf.readableBytes : Int) - 5)
  let responseBuf := buf.copiedBuffer
  let buf ← buf.skipBytes 5
  let (data, _) ← buf.readBytes length
  return (data, [.println (.content "server" data), .write responseBuf.readable])

def serverHandler : CustomHeartbeatHandler where
  name := "server"
  handleData := ServerHandler.handleData
  handleReaderIdle := printIdle .readerIdle ++ [.println .readerTimeout, .close]
  handleWriterIdle := printIdle .writerIdle
  handleAllIdle := fun heartbeatCount => .ok (heartbeatCount, printIdle .allIdle)

def ClientHandler.handleData (byteBuf : ByteBuf) : Except Exception (List UInt8 × List Effect) := do
  let length ← newBytes ((byteBuf.readableBytes : Int) - 5)
  let byteBuf ← byteBuf.skipBytes 5
  let (data, _) ← byteBuf.readBytes length
  return (data, [.println (.content "client" data)])

def ClientHandler.handleAllIdle (heartbeatCount : Int) : Except Exception (Int × List Effect) := do
  let (count, effects) ← sendPingMsg "client" heartbeatCount
  return (count, printIdle .allIdle ++ effects)

def clientHandler : CustomHeartbeatHandler where
  name := "client"
  handleData := ClientHandler.handleData
  handleReaderIdle := printIdle .readerIdle
  handleWriterIdle := printIdle .writerIdle
  handleAllIdle := ClientHandler.handleAllIdle

/-! ## The other senders -/

/-- `channel.writeAndFlush` of a buffer, unless making it threw. -/
def writeAndFlush (buf : Except Exception ByteBuf) : Except Exception (List Effect) :=
  buf.map fun buf => [.writeAndFlush buf.readable]

/-- What the loop of `insertRow` asks of a channel that has passed its checks. -/
def TestServerController.insertRowEffects (msg : Bytes) : Except Exception (List Effect) :=
  writeAndFlush (insertRowBuf msg)

/-- What `sendData` asks of a channel that has passed its checks. -/
def Client.sendDataEffects (content : Bytes) : Except Exception (List Effect) :=
  writeAndFlush (sendDataBuf content)

/-- The two ends of a connection. -/
inductive Side
  | client
  | server
  deriving DecidableEq, Repr

/-- The handler each end puts last in its pipeline. -/
def Side.handler : Side → CustomHeartbeatHandler
  | .client => clientHandler
  | .server => serverHandler

/-- What `handleData` of each end does with a payload: the server also writes its frame back,
without flushing. -/
def Side.dataEffects : Side → (f data : List UInt8) → List Effect
  | .client, _, data => [.println (.content "client" data)]
  | .server, f, data => [.println (.content "server" data), .write f]

/-! ## What the methods compute -/

theorem sendPingMsg_eq (name : String) (n : Int) :
    sendPingMsg name n = .ok (toInt (n + 1),
      [.writeAndFlush (frame PING_MSG []), .println (.sentPing name (toInt (n + 1)))]) := by
  rw [sendPingMsg, heartbeatBuf_eq]
  rfl

theorem sendPongMsg_eq (name : String) (n : Int) :
    sendPongMsg name n = .ok (toInt (n + 1),
      [.writeAndFlush (frame PONG_MSG []), .println (.sentPong name (toInt (n + 1)))]) := by
  rw [sendPongMsg, heartbeatBuf_eq]
  rfl

theorem writeAndFlush_custom {content : Bytes} (h : 5 + content.length ≤ intMax) :
    writeAndFlush (customBuf content) =
      .ok [.writeAndFlush (frame CUSTOM_MSG content.data)] := by
  rw [customBuf_eq h]
  rfl

theorem writeAndFlush_overflow {content : Bytes} (h : intMax < 5 + content.length) :
    writeAndFlush (customBuf content) = .error .illegalArgument := by
  rw [customBuf_overflow h]
  rfl

theorem clientHandler_allIdle (n : Int) :
    clientHandler.userEventTriggered n .allIdle = .ok (toInt (n + 1),
      [.println (.idle .allIdle), .writeAndFlush (frame PING_MSG []),
        .println (.sentPing "client" (toInt (n + 1)))]) := by
  show ClientHandler.handleAllIdle n = _
  rw [ClientHandler.handleAllIdle, sendPingMsg_eq]
  rfl

/-- `handleData` of either end takes everything after the first 5 bytes. -/
theorem handleData_ok (side : Side) {f : List UInt8} (h : 5 ≤ f.length) :
    side.handler.handleData (.wrap f) = .ok (f.drop 5, side.dataEffects f (f.drop 5)) := by
  have hlen : newBytes (((ByteBuf.wrap f).readableBytes : Int) - 5) = .ok (f.length - 5) := by
    rw [ByteBuf.readableBytes_wrap, newBytes, if_neg (by omega)]
    congr 1
    omega
  obtain ⟨b, b', hskip, hread⟩ :=
    ByteBuf.skip_readBytes_wrap (show 5 + (f.length - 5) = f.length by omega)
  cases side with
  | client =>
    show ClientHandler.handleData (.wrap f) = _
    simp only [ClientHandler.handleData, hlen, hskip, hread, bind, Except.bind]
    rfl
  | server =>
    show ServerHandler.handleData (.wrap f) = _
    simp only [ServerHandler.handleData, hlen, hskip, hread, bind, Except.bind]
    rfl

/-- What a handler does with a frame that has a type byte. -/
theorem channelRead0_of_type (side : Side) (n : Int) {f : List UInt8} {type : UInt8}
    (htype : f[4]? = some type) :
    side.handler.channelRead0 n (.wrap f) =
      if type = PING_MSG then
        .ok ⟨.sendPongMsg, toInt (n + 1), [.writeAndFlush (frame PONG_MSG []),
          .println (.sentPong side.handler.name (toInt (n + 1)))]⟩
      else if type = PONG_MSG then
        .ok ⟨.getPong, n, [.println (.getPong side.handler.name)]⟩
      else .ok ⟨.handleData (f.drop 5), n, side.dataEffects f (f.drop 5)⟩ := by
  have hlen : 5 ≤ f.length := (List.getElem?_eq_some_iff.1 htype).1
  have hget : (ByteBuf.wrap f).getByte 4 = .ok type := by
    rw [ByteBuf.getByte, ByteBuf.wrap, htype]
  simp only [channelRead0, hget, sendPongMsg_eq, handleData_ok side hlen, bind, Except.bind]
  split_ifs <;> rfl

/-- A frame without a type byte makes the handler throw. -/
theorem channelRead0_short (side : Side) (n : Int) {f : List UInt8} (h : f.length ≤ 4) :
    side.handler.channelRead0 n (.wrap f) = .error .indexOutOfBounds := by
  simp only [channelRead0, ByteBuf.getByte_wrap_error h, bind, Except.bind]

/-- **A frame is handled without an exception exactly when it has a type byte.** -/
theorem channelRead0_ok_iff (side : Side) (n : Int) (f : List UInt8) :
    (∃ handled, side.handler.channelRead0 n (.wrap f) = .ok handled) ↔ 5 ≤ f.length := by
  constructor
  · rintro ⟨handled, h⟩
    by_contra hlt
    rw [channelRead0_short side n (by omega)] at h
    cases h
  · intro h
    rw [channelRead0_of_type side n (List.getElem?_eq_getElem (show 4 < f.length by omega))]
    split_ifs <;> exact ⟨_, rfl⟩

end MmtxSample
