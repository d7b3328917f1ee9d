import MmtxSample.Handlers
import MmtxSample.Netty.Outbound

/-!
# One end of a connection

The pipelines of `Server.start` and `Client.start` put the frame decoder before the handler. An
`Endpoint` is what one end keeps: the bytes its decoder holds and the decoder's exceptions, and the
`HandlerContext` behind it, with the handler's `heartbeatCount`, the outbound buffer of the channel
and a record of what `channelRead0` has done.

* `HandlerContext.fire`: one frame the decoder hands on. A handler that throws has no effect: the
  exception goes to `exceptionCaught`, which neither handler overrides.
* `HandlerContext.perform`: the effects of a handler call, or of another thread that uses the
  channel.
* `Endpoint.channelRead`: one read. The decoder cuts it and fires the frames in order.

`channelReads_eq` separates the two halves: reads are cut by one reader, and the handler gets all
the frames in order.
-/

namespace MmtxSample

open Java Netty CustomHeartbeatHandler Framing

/-- What a handler works on. -/
structure HandlerContext where
  heartbeatCount : Int
  outbound : Outbound (List UInt8)
  isActive : Bool
  handled : List (Except Exception Handled)

namespace HandlerContext

/-- The context of a channel that has just become active. -/
def initial : HandlerContext := ⟨0, Outbound.empty, true, []⟩

def perform1 (c : HandlerContext) : Effect → HandlerContext
  | .println _ => c
  | .write bytes => { c with outbound := c.outbound.write bytes }
  | .writeAndFlush bytes => { c with outbound := c.outbound.writeAndFlush bytes }
  | .close => { c with isActive := false }

/-- Carry out effects in order. -/
def perform (c : HandlerContext) (effects : List Effect) : HandlerContext :=
  effects.foldl perform1 c

/-- `channelRead0` on one frame, with its effects. -/
def fire (self : CustomHeartbeatHandler) (c : HandlerContext) (f : List UInt8) : HandlerContext :=
  match self.channelRead0 c.heartbeatCount (.wrap f) with
  | .ok h =>
    perform { c with heartbeatCount := h.heartbeatCount, handled := c.handled ++ [.ok h] } h.effects
  | .error ex => { c with handled := c.handled ++ [.error ex] }

/-- An event of the `IdleStateHandler`, with its effects. -/
def userEventTriggered (self : CustomHeartbeatHandler) (c : HandlerContext) (event : IdleState) :
    HandlerContext :=
  match self.userEventTriggered c.heartbeatCount event with
  | .ok (count, effects) => perform { c with heartbeatCount := count } effects
  | .error _ => c

/-- The effects of another thread that uses the channel, unless it threw. -/
def attempt (c : HandlerContext) : Except Exception (List Effect) → HandlerContext
  | .ok effects => c.perform effects
  | .error _ => c

/-- The body of the loop of `TestServerController.insertRow`, on one channel and in one step. -/
def insertRow (c : HandlerContext) (msg : Bytes) : HandlerContext :=
  if c.isActive then c.attempt (TestServerController.insertRowEffects msg) else c

/-- `Client.sendData` in one step, when the field `channel` is not null. Its steps one by one are in
`MmtxSample.Reconnect`. -/
def sendData (c : HandlerContext) (content : Bytes) : HandlerContext :=
  if c.isActive then c.attempt (Client.sendDataEffects content) else c

/-! ## What the operations do to each field -/

@[simp] theorem perform_cons (c : HandlerContext) (effect : Effect) (effects : List Effect) :
    c.perform (effect :: effects) = (c.perform1 effect).perform effects := rfl

@[simp] theorem perform_handled (c : HandlerContext) (effects : List Effect) :
    (c.perform effects).handled = c.handled := by
  induction effects generalizing c with
  | nil => rfl
  | cons effect effects ih =>
    rw [perform_cons, ih]
    cases effect <;> rfl

/-- The outcome of `channelRead0` is recorded. -/
theorem fire_handled (self : CustomHeartbeatHandler) (c : HandlerContext) (f : List UInt8) :
    (fire self c f).handled = c.handled ++ [self.channelRead0 c.heartbeatCount (.wrap f)] := by
  unfold fire
  split <;> rename_i h <;> simp [h]

theorem fire_ok {self : CustomHeartbeatHandler} {c : HandlerContext} {f : List UInt8} {h : Handled}
    (hread : self.channelRead0 c.heartbeatCount (.wrap f) = .ok h) :
    fire self c f = perform
      { c with heartbeatCount := h.heartbeatCount, handled := c.handled ++ [.ok h] } h.effects := by
  rw [fire, hread]

/-- What a frame does to the outbound buffer: a ping is answered and flushed, a pong is not
answered, and a custom frame is written back by the server alone. -/
theorem outbound_fire (side : Side) (c : HandlerContext) (type : UInt8) (payload : List UInt8) :
    (c.fire side.handler (frame type payload)).outbound =
      if type = PING_MSG then c.outbound.writeAndFlush (frame PONG_MSG [])
      else if type = PONG_MSG then c.outbound
      else match side with
        | .client => c.outbound
        | .server => c.outbound.write (frame type payload) := by
  have hread := channelRead0_of_type side c.heartbeatCount (frame_type type payload)
  split_ifs at hread ⊢
  · rw [fire_ok hread]
    rfl
  · rw [fire_ok hread]
    rfl
  · rw [fire_ok hread]
    cases side <;> rfl

theorem sent_le_fire (side : Side) (c : HandlerContext) (type : UInt8) (payload : List UInt8) :
    c.outbound.sent.length ≤
      (c.fire side.handler (frame type payload)).outbound.sent.length := by
  rw [outbound_fire]
  split_ifs
  · simp [Outbound.writes]
  · exact Nat.le_refl _
  · cases side <;> exact Nat.le_refl _

/-- No frame closes the channel. -/
theorem isActive_fire (side : Side) (c : HandlerContext) (type : UInt8) (payload : List UInt8) :
    (c.fire side.handler (frame type payload)).isActive = c.isActive := by
  have hread := channelRead0_of_type side c.heartbeatCount (frame_type type payload)
  split_ifs at hread
  · rw [fire_ok hread]
    rfl
  · rw [fire_ok hread]
    rfl
  · rw [fire_ok hread]
    cases side <;> rfl

/-- An idle client pings. -/
theorem userEventTriggered_allIdle (c : HandlerContext) :
    c.userEventTriggered Side.client.handler .allIdle = { c with
      heartbeatCount := toInt (c.heartbeatCount + 1)
      outbound := c.outbound.writeAndFlush (frame PING_MSG []) } := by
  show userEventTriggered clientHandler c .allIdle = _
  rw [userEventTriggered, clientHandler_allIdle]
  rfl

theorem attempt_custom (c : HandlerContext) {content : Bytes} (h : 5 + content.length ≤ intMax) :
    c.attempt (writeAndFlush (customBuf content)) =
      { c with outbound := c.outbound.writeAndFlush (frame CUSTOM_MSG content.data) } := by
  rw [writeAndFlush_custom h]
  rfl

/-- A push to an active channel. -/
theorem insertRow_eq {c : HandlerContext} (hactive : c.isActive = true) {msg : Bytes}
    (h : 5 + msg.length ≤ intMax) :
    c.insertRow msg =
      { c with outbound := c.outbound.writeAndFlush (frame CUSTOM_MSG msg.data) } := by
  rw [insertRow, if_pos hactive]
  exact attempt_custom c h

/-- A message of the client on its active channel. -/
theorem sendData_eq {c : HandlerContext} (hactive : c.isActive = true) {content : Bytes}
    (h : 5 + content.length ≤ intMax) :
    c.sendData content =
      { c with outbound := c.outbound.writeAndFlush (frame CUSTOM_MSG content.data) } := by
  rw [sendData, if_pos hactive]
  exact attempt_custom c h

theorem attempt_overflow (c : HandlerContext) {content : Bytes}
    (h : ¬ 5 + content.length ≤ intMax) : c.attempt (writeAndFlush (customBuf content)) = c := by
  rw [writeAndFlush_overflow (Nat.lt_of_not_le h)]
  rfl

/-- A push that is too long for its writer. -/
theorem insertRow_overflow (c : HandlerContext) {msg : Bytes} (h : ¬ 5 + msg.length ≤ intMax) :
    c.insertRow msg = c := by
  have hthrow : c.attempt (TestServerController.insertRowEffects msg) = c := attempt_overflow c h
  rw [insertRow, hthrow, ite_self]

/-- A message that is too long for its writer. -/
theorem sendData_overflow (c : HandlerContext) {content : Bytes}
    (h : ¬ 5 + content.length ≤ intMax) : c.sendData content = c := by
  have hthrow : c.attempt (Client.sendDataEffects content) = c := attempt_overflow c h
  rw [sendData, hthrow, ite_self]

end HandlerContext

/-! ## What the two ends write to each other -/

/-- What the client writes: pings and messages. -/
def ClientFrame (f : List UInt8) : Prop :=
  ∃ type payload, f = frame type payload ∧ (type = PING_MSG ∨ type = CUSTOM_MSG) ∧
    5 + payload.length ≤ intMax

/-- What the server writes: pongs, pushes and echoes. -/
def ServerFrame (f : List UInt8) : Prop :=
  ∃ type payload, f = frame type payload ∧ (type = PONG_MSG ∨ type = CUSTOM_MSG) ∧
    5 + payload.length ≤ intMax

/-- The frame the server writes in answer to a frame of the client. -/
def answer (f : List UInt8) : List UInt8 := if f[4]? = some PING_MSG then frame PONG_MSG [] else f

theorem ClientFrame.answer {f : List UInt8} (hf : ClientFrame f) : ServerFrame (answer f) := by
  obtain ⟨type, payload, rfl, htype, hint⟩ := hf
  rw [MmtxSample.answer, frame_type]
  rcases htype with rfl | rfl
  · rw [if_pos rfl]
    exact ⟨PONG_MSG, [], rfl, Or.inl rfl, by decide⟩
  · rw [if_neg (by decide)]
    exact ⟨CUSTOM_MSG, payload, rfl, Or.inr rfl, hint⟩

/-- The server answers each frame of the client with one frame. -/
theorem HandlerContext.writes_fire_server (c : HandlerContext) {f : List UInt8}
    (hf : ClientFrame f) :
    (c.fire Side.server.handler f).outbound.writes = c.outbound.writes ++ [answer f] := by
  obtain ⟨type, payload, rfl, htype, -⟩ := hf
  rw [outbound_fire .server c type payload, answer, frame_type]
  rcases htype with rfl | rfl
  · rw [if_pos rfl, if_pos rfl, Outbound.writes_writeAndFlush]
  · rw [if_neg (by decide), if_neg (by decide), if_neg (by decide), Outbound.writes_write]

/-- The client answers no frame of the server. -/
theorem HandlerContext.outbound_fire_client (c : HandlerContext) {f : List UInt8}
    (hf : ServerFrame f) : (c.fire Side.client.handler f).outbound = c.outbound := by
  obtain ⟨type, payload, rfl, htype, -⟩ := hf
  rw [outbound_fire .client c type payload]
  rcases htype with rfl | rfl
  · rw [if_neg (by decide), if_pos rfl]
  · rw [if_neg (by decide), if_neg (by decide)]

/-- The state of one end of a connection. -/
structure Endpoint where
  reader : Reader UInt8
  decoderErrors : List DecoderException
  context : HandlerContext

namespace Endpoint

/-- An end whose channel has just become active. -/
def initial : Endpoint := ⟨Reader.empty, [], HandlerContext.initial⟩

/-- One read: the decoder cuts it and the handler gets the frames. -/
def channelRead (self : CustomHeartbeatHandler) (e : Endpoint) (chunk : List UInt8) : Endpoint :=
  let out := read frameDecoder.decode e.reader chunk
  { reader := out.reader
    decoderErrors := e.decoderErrors ++ out.error.toList
    context := out.frames.foldl (HandlerContext.fire self) e.context }

/-- Several reads, one after the other. -/
def channelReads (self : CustomHeartbeatHandler) (e : Endpoint) (chunks : List (List UInt8)) :
    Endpoint :=
  chunks.foldl (channelRead self) e

/-- Several reads cut the stream as one reader does, and fire all its frames in order. -/
theorem channelReads_eq (self : CustomHeartbeatHandler) (e : Endpoint)
    (chunks : List (List UInt8)) :
    channelReads self e chunks =
      { reader := (feed frameDecoder.decode e.reader chunks).2.1
        decoderErrors := e.decoderErrors ++ (feed frameDecoder.decode e.reader chunks).2.2
        context := (feed frameDecoder.decode e.reader chunks).1.foldl
          (HandlerContext.fire self) e.context } := by
  induction chunks generalizing e with
  | nil => simp [channelReads, feed]
  | cons chunk chunks ih =>
    show channelReads self (channelRead self e chunk) chunks = _
    rw [ih]
    simp [feed, channelRead]

/-- A read that brings exactly one frame, to an end that holds nothing, fires that frame. -/
theorem channelRead_frame (self : CustomHeartbeatHandler) {e : Endpoint} {f : List UInt8}
    (hreader : e.reader = Reader.empty) (hf : Framed frameDecoder.decode f f) :
    channelRead self e f = { e with context := HandlerContext.fire self e.context f } := by
  have hread := read_framed frameDecoder_nil hf
  simp [channelRead, hreader, hread]

/-- A frame of any length, read alone by an end that holds nothing, is fired or discarded. -/
theorem channelRead_frame_or (self : CustomHeartbeatHandler) {e : Endpoint}
    (hreader : e.reader = Reader.empty) (type : UInt8) {payload : List UInt8}
    (hint : 5 + payload.length ≤ intMax) :
    (channelRead self e (frame type payload)).reader = Reader.empty ∧
      ((channelRead self e (frame type payload)).context =
          HandlerContext.fire self e.context (frame type payload) ∨
        (channelRead self e (frame type payload)).context = e.context) := by
  by_cases hle : payload.length ≤ 1019
  · rw [channelRead_frame self hreader (frame_framed type hle)]
    exact ⟨hreader, Or.inl rfl⟩
  · have hfail := frame_tooLong type (Nat.lt_of_not_le hle) hint []
    rw [List.append_nil, ← length_frame type payload] at hfail
    have hread := read_discarded frameDecoder_nil hfail
    simp [channelRead, hreader, hread]

/-- The client reads frames of the server: it writes nothing. -/
theorem channelReads_client {e : Endpoint} (hreader : e.reader = Reader.empty)
    {fs : List (List UInt8)} (hfs : ∀ f ∈ fs, ServerFrame f) :
    (channelReads Side.client.handler e fs).reader = Reader.empty ∧
      (channelReads Side.client.handler e fs).context.outbound = e.context.outbound ∧
      (channelReads Side.client.handler e fs).context.isActive = e.context.isActive := by
  induction fs generalizing e with
  | nil => exact ⟨hreader, rfl, rfl⟩
  | cons f fs ih =>
    have hf := hfs f List.mem_cons_self
    have hout := HandlerContext.outbound_fire_client e.context hf
    obtain ⟨type, payload, rfl, -, hint⟩ := hf
    have hactive := HandlerContext.isActive_fire .client e.context type payload
    obtain ⟨hempty, hcontext⟩ := channelRead_frame_or Side.client.handler hreader type hint
    obtain ⟨hreader', hout', hactive'⟩ := ih hempty fun g hg => hfs g (List.mem_cons_of_mem _ hg)
    refine ⟨hreader', hout'.trans ?_, hactive'.trans ?_⟩
    · rcases hcontext with h | h <;> rw [h]
      exact hout
    · rcases hcontext with h | h <;> rw [h]
      exact hactive

/-- The server reads frames of the client: all it writes is frames of its own. -/
theorem channelReads_server {e : Endpoint} (hreader : e.reader = Reader.empty)
    {fs : List (List UInt8)} (hfs : ∀ f ∈ fs, ClientFrame f) :
    (channelReads Side.server.handler e fs).reader = Reader.empty ∧
      (channelReads Side.server.handler e fs).context.isActive = e.context.isActive ∧
      e.context.outbound.sent.length ≤
        (channelReads Side.server.handler e fs).context.outbound.sent.length ∧
      ∃ answers, (∀ f ∈ answers, ServerFrame f) ∧
        (channelReads Side.server.handler e fs).context.outbound.writes =
          e.context.outbound.writes ++ answers := by
  induction fs generalizing e with
  | nil => exact ⟨hreader, rfl, Nat.le_refl _, [], by simp, (List.append_nil _).symm⟩
  | cons f fs ih =>
    have hf := hfs f List.mem_cons_self
    have hwrites := HandlerContext.writes_fire_server e.context hf
    have hanswer := hf.answer
    obtain ⟨type, payload, rfl, -, hint⟩ := hf
    have hactive := HandlerContext.isActive_fire .server e.context type payload
    have hsent := HandlerContext.sent_le_fire .server e.context type payload
    obtain ⟨hempty, hcontext⟩ := channelRead_frame_or Side.server.handler hreader type hint
    obtain ⟨hreader', hactive', hsent', answers, hanswers, hwrites'⟩ :=
      ih hempty fun g hg => hfs g (List.mem_cons_of_mem _ hg)
    rcases hcontext with h | h
    · rw [h] at hactive' hsent' hwrites'
      refine ⟨hreader', hactive'.trans hactive, hsent.trans hsent',
        answer (frame type payload) :: answers, ?_, ?_⟩
      · exact fun g hg => (List.mem_cons.1 hg).elim (· ▸ hanswer) (hanswers g)
      · exact hwrites'.trans (by rw [hwrites, List.append_assoc, List.singleton_append])
    · rw [h] at hactive' hsent' hwrites'
      exact ⟨hreader', hactive', hsent', answers, hanswers, hwrites'⟩

end Endpoint

end MmtxSample
