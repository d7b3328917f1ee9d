import MmtxSample.Endpoint

/-!
# The stream between two ends

What one end writes reaches the other as a stream of bytes, cut into reads anywhere. Three results
about it:

* `roundTrip`: messages whose payloads have at most 1019 bytes are dispatched as they were sent, for
  every way of cutting the stream.
* `passes_iff_admissible`: a payload of 1020 bytes or more is written all the same, and the peer's
  decoder discards the frame. The only longer payloads that do no harm are those whose length
  overflows the `int` sum: there the writer throws and nothing is written.
* `handled_iff`: whatever a peer sends, `channelRead0` throws on exactly the frames whose length
  field is 4. The decoder lets them through, and they have no type byte.
-/

namespace MmtxSample

open Java Netty CustomHeartbeatHandler Framing

/-! ## Messages -/

/-- The buffers that effects hand to the channel. -/
def written (effects : List Effect) : List (List UInt8) :=
  effects.filterMap fun
    | .write bytes | .writeAndFlush bytes => some bytes
    | _ => none

/-- The messages an end writes of its own accord: the calls of the four senders. -/
inductive Outgoing
  | ping (name : String) (heartbeatCount : Int)
  | pong (name : String) (heartbeatCount : Int)
  | insertRow (msg : Bytes)
  | sendData (content : Bytes)
  deriving DecidableEq

namespace Outgoing

/-- What the sender asks of the channel. -/
def effects : Outgoing → Except Exception (List Effect)
  | ping name heartbeatCount => (sendPingMsg name heartbeatCount).map Prod.snd
  | pong name heartbeatCount => (sendPongMsg name heartbeatCount).map Prod.snd
  | insertRow msg => TestServerController.insertRowEffects msg
  | sendData content => Client.sendDataEffects content

/-- The buffers the sender hands to the channel, or the exception it throws. -/
def frames (m : Outgoing) : Except Exception (List (List UInt8)) := m.effects.map written

/-- The bytes it puts on the wire; none when it throws. -/
def wire (m : Outgoing) : List UInt8 :=
  match m.frames with
  | .ok fs => fs.flatten
  | .error _ => []

/-- The length of the payload. -/
def size : Outgoing → Nat
  | ping _ _ | pong _ _ => 0
  | insertRow content | sendData content => content.length

/-- The branch the receiver is to take. -/
def branch : Outgoing → Branch
  | ping _ _ => .sendPongMsg
  | pong _ _ => .getPong
  | insertRow content | sendData content => .handleData content.data

def type : Outgoing → UInt8
  | ping _ _ => PING_MSG
  | pong _ _ => PONG_MSG
  | insertRow _ | sendData _ => CUSTOM_MSG

def payload : Outgoing → List UInt8
  | ping _ _ | pong _ _ => []
  | insertRow content | sendData content => content.data

theorem length_payload (m : Outgoing) : m.payload.length = m.size := by
  cases m <;> rfl

/-- The senders agree with the format, as long as the sum is an `int`: each writes one frame. -/
theorem frames_eq {m : Outgoing} (h : 5 + m.size ≤ intMax) :
    m.frames = .ok [frame m.type m.payload] := by
  unfold frames
  cases m with
  | ping name heartbeatCount =>
    rw [effects, sendPingMsg_eq]
    rfl
  | pong name heartbeatCount =>
    rw [effects, sendPongMsg_eq]
    rfl
  | insertRow content | sendData content =>
    have heffects : writeAndFlush (customBuf content) = _ := writeAndFlush_custom h
    exact congrArg (Except.map written) heffects

theorem frames_overflow {m : Outgoing} (h : intMax < 5 + m.size) :
    m.frames = .error .illegalArgument := by
  cases m with
  | ping name heartbeatCount | pong name heartbeatCount =>
    exact absurd (show intMax < 5 from h) (by decide)
  | insertRow content | sendData content =>
    have heffects : writeAndFlush (customBuf content) = _ := writeAndFlush_overflow h
    exact congrArg (Except.map written) heffects

theorem wire_eq {m : Outgoing} (h : 5 + m.size ≤ intMax) : m.wire = frame m.type m.payload := by
  rw [wire, frames_eq h]
  exact List.append_nil _

theorem wire_overflow {m : Outgoing} (h : intMax < 5 + m.size) : m.wire = [] := by
  rw [wire, frames_overflow h]

theorem wire_framed {m : Outgoing} (h : m.size ≤ 1019) :
    Framed frameDecoder.decode m.wire m.wire := by
  rw [wire_eq (by unfold intMax; omega)]
  exact frame_framed m.type (by rw [length_payload]; exact h)

/-- The receiver takes the branch of the message, whatever its counter. -/
theorem channelRead0_wire (side : Side) (n : Int) {m : Outgoing} (h : m.size ≤ 1019) :
    ∃ handled, side.handler.channelRead0 n (.wrap m.wire) = .ok handled ∧
      handled.branch = m.branch := by
  rw [wire_eq (by unfold intMax; omega), channelRead0_of_type side n (frame_type m.type m.payload),
    drop_frame]
  cases m with
  | ping name heartbeatCount => exact ⟨_, rfl, rfl⟩
  | pong name heartbeatCount => exact ⟨_, rfl, rfl⟩
  | insertRow content => exact ⟨_, rfl, rfl⟩
  | sendData content => exact ⟨_, rfl, rfl⟩

end Outgoing

/-! ## The round trip -/

/-- The branches taken by the calls of `channelRead0`, `none` where it threw. -/
def HandlerContext.branches (c : HandlerContext) : List (Option Branch) :=
  c.handled.map fun
    | .ok h => some h.branch
    | .error _ => none

theorem branches_fire (side : Side) (c : HandlerContext) {m : Outgoing} (h : m.size ≤ 1019) :
    (c.fire side.handler m.wire).branches = c.branches ++ [some m.branch] := by
  obtain ⟨handled, hread, hbranch⟩ := Outgoing.channelRead0_wire side c.heartbeatCount h
  rw [HandlerContext.branches, HandlerContext.fire_handled, hread]
  simp [HandlerContext.branches, hbranch]

theorem branches_foldl_fire (side : Side) (c : HandlerContext) (ms : List Outgoing)
    (h : ∀ m ∈ ms, m.size ≤ 1019) :
    ((ms.map Outgoing.wire).foldl (HandlerContext.fire side.handler) c).branches =
      c.branches ++ ms.map fun m => some m.branch := by
  induction ms generalizing c with
  | nil => simp
  | cons m ms ih =>
    rw [List.map_cons, List.foldl_cons, ih _ fun m' hm' => h m' (List.mem_cons_of_mem _ hm'),
      branches_fire side c (h m List.mem_cons_self)]
    simp

theorem forall₂_framed {ms : List Outgoing} (h : ∀ m ∈ ms, m.size ≤ 1019) :
    List.Forall₂ (Framed frameDecoder.decode) (ms.map Outgoing.wire) (ms.map Outgoing.wire) :=
  List.forall₂_same.2 fun w hw => by
    obtain ⟨m, hm, rfl⟩ := List.mem_map.1 hw
    exact Outgoing.wire_framed (h m hm)

/-- **The stream round trip.** Whatever messages with payloads of at most 1019 bytes one end writes,
and however the bytes are cut into reads, the other end takes exactly the branches of these
messages in order, a custom message with its payload, its decoder reports nothing, and no byte is
left over. -/
theorem roundTrip (side : Side) (ms : List Outgoing) (hms : ∀ m ∈ ms, m.size ≤ 1019)
    (reads : List (List UInt8)) (hreads : reads.flatten = ms.flatMap Outgoing.wire) :
    let received := Endpoint.initial.channelReads side.handler reads
    received.context.branches = ms.map (fun m => some m.branch) ∧
      received.decoderErrors = [] ∧ received.reader.held = [] ∧ received.reader.skip = 0 := by
  have hstream : reads.flatten = (ms.map Outgoing.wire).flatten := by
    rw [hreads, List.flatMap_def]
  have hfeed := feed_framed frameDecoder_nil (forall₂_framed hms) hstream
  intro received
  have hreceived : received = Endpoint.initial.channelReads side.handler reads := rfl
  rw [Endpoint.channelReads_eq] at hreceived
  simp only [Endpoint.initial, hfeed] at hreceived
  rw [hreceived]
  exact ⟨branches_foldl_fire side _ ms hms, rfl, rfl, rfl⟩

/-- Three messages in four reads: one cut inside a length field, one read empty, one inside the
frame of the custom message. -/
theorem roundTrip_three_messages :
    let received := Endpoint.initial.channelReads serverHandler
      [[0, 0], [0, 5, 1, 0, 0, 0, 8], [], [3, 49, 50, 51, 0, 0, 0, 5, 2]]
    received.context.branches =
        [some .sendPongMsg, some (.handleData [49, 50, 51]), some .getPong] ∧
      received.decoderErrors = [] ∧ received.reader.held = [] ∧ received.reader.skip = 0 :=
  roundTrip .server [.ping "client" 0, .sendData ⟨[49, 50, 51], by decide⟩, .pong "client" 0]
    (by decide) _ (by decide)

/-! ## Admissible sizes -/

/-- The decoder hands the frame on, whatever follows it. -/
def Passes (f : List UInt8) : Prop := ∀ rest, frameDecoder.decode (f ++ rest) = .emit f rest

/-- Everything one end puts on the wire: its messages, and the server's echo of a frame that its own
decoder has cut off what it held. -/
inductive Sent
  | message (m : Outgoing)
  | echo (f : List UInt8) (cut : ∃ buf rest, frameDecoder.decode buf = .emit f rest)

/-- The frames put on the wire, or the exception that kept them off it. -/
def Sent.frames : Sent → Except Exception (List (List UInt8))
  | .message m => m.frames
  | .echo f _ => (ServerHandler.handleData (.wrap f)).map fun r => written r.2

/-- A payload of at most 1019 bytes, or one whose length makes the `int` sum overflow. -/
def Sent.Admissible : Sent → Prop
  | .message m => m.size ≤ 1019 ∨ intMax < 5 + m.size
  | .echo _ _ => True

/-- The decoder hands the frame of a payload on exactly when the payload has at most 1019 bytes. -/
theorem passes_frame_iff (type : UInt8) {payload : List UInt8} (h : 5 + payload.length ≤ intMax) :
    Passes (frame type payload) ↔ payload.length ≤ 1019 := by
  constructor
  · intro hpass
    by_contra hlong
    have hfail := frame_tooLong type (by omega) h []
    rw [hpass []] at hfail
    cases hfail
  · exact fun hle rest => (frame_framed type hle).emit rest

/-- What one decoder has handed on, the other hands on as well. -/
theorem passes_of_emit {buf f rest : List UInt8} (h : frameDecoder.decode buf = .emit f rest) :
    Passes f := by
  obtain ⟨hmin, hmax, hfield⟩ := frameDecoder_emit h
  have hframed : Framed frameDecoder.decode f f :=
    LengthFieldBasedFrameDecoder.wholeFrame_framed hfield hmin hmax
  exact hframed.emit

/-- The echo of a frame is that frame. -/
theorem echo_frames {f : List UInt8} {cut : ∃ buf rest, frameDecoder.decode buf = .emit f rest}
    {fs : List (List UInt8)} (h : (Sent.echo f cut).frames = .ok fs) : fs = [f] := by
  change (ServerHandler.handleData (.wrap f)).map (fun r => written r.2) = .ok fs at h
  by_cases hlen : 5 ≤ f.length
  · have hdata : ServerHandler.handleData (.wrap f) = _ := handleData_ok .server hlen
    rw [hdata] at h
    exact (Except.ok.inj h).symm
  · have hneg : newBytes (((ByteBuf.wrap f).readableBytes : Int) - 5) =
        .error .negativeArraySize := by
      rw [ByteBuf.readableBytes_wrap, newBytes, if_pos (by omega)]
    simp only [ServerHandler.handleData, hneg, bind, Except.bind] at h
    cases h

/-- **What the peer's decoder takes.** Every frame that something sent puts on the wire is handed on
by the peer's decoder exactly when its payload has at most 1019 bytes or is so long that the
writer throws. -/
theorem passes_iff_admissible (s : Sent) :
    (∀ fs, s.frames = .ok fs → ∀ f ∈ fs, Passes f) ↔ s.Admissible := by
  cases s with
  | echo f cut =>
    refine ⟨fun _ => trivial, ?_⟩
    intro _ fs hfs g hg
    obtain rfl := echo_frames hfs
    obtain ⟨buf, rest, hemit⟩ := cut
    rw [List.mem_singleton.1 hg]
    exact passes_of_emit hemit
  | message m =>
    by_cases hint : 5 + m.size ≤ intMax
    · have hframes : (Sent.message m).frames = .ok [frame m.type m.payload] :=
        Outgoing.frames_eq hint
      have hpayload : 5 + m.payload.length ≤ intMax := by
        rw [Outgoing.length_payload]
        exact hint
      have hiff := passes_frame_iff m.type hpayload
      rw [Outgoing.length_payload] at hiff
      constructor
      · exact fun h => Or.inl (hiff.1 (h _ hframes _ List.mem_cons_self))
      · intro h fs hfs f hf
        obtain rfl := Except.ok.inj (hframes.symm.trans hfs)
        rw [List.mem_singleton.1 hf]
        exact hiff.2 (h.resolve_right (by omega))
    · refine ⟨fun _ => Or.inr (by omega), ?_⟩
      intro _ fs hfs
      rw [Sent.frames, Outgoing.frames_overflow (by omega)] at hfs
      cases hfs

/-- A payload of 1020 bytes or more is written, as long as the sum is an `int`; whatever follows
its frame, the decoder raises `TooLongFrameException` and discards it. -/
theorem long_discarded {m : Outgoing} (hlong : 1019 < m.size) (hint : 5 + m.size ≤ intMax) :
    (Sent.message m).frames = .ok [frame m.type m.payload] ∧
      ∀ rest, frameDecoder.decode (frame m.type m.payload ++ rest) =
        .fail .tooLongFrame (5 + m.size) := by
  refine ⟨Outgoing.frames_eq hint, ?_⟩
  intro rest
  rw [← Outgoing.length_payload] at hlong hint ⊢
  exact frame_tooLong m.type hlong hint rest

/-- The shortest message that is lost, in bytes: 1020 times the letter a. -/
def longMessage : Bytes := ⟨List.replicate 1020 97, by rw [List.length_replicate]; decide⟩

theorem length_longMessage : longMessage.length = 1020 := List.length_replicate

/-- Pushing it writes a frame that the peer's decoder does not hand on. -/
theorem longMessage_lost :
    (Sent.message (.insertRow longMessage)).frames = .ok [frame CUSTOM_MSG longMessage.data] ∧
      ¬ Passes (frame CUSTOM_MSG longMessage.data) := by
  have hsize : (Outgoing.insertRow longMessage).size = 1020 := length_longMessage
  obtain ⟨hframes, hdiscard⟩ :=
    long_discarded (m := .insertRow longMessage) (by omega) (by rw [hsize]; decide)
  refine ⟨hframes, ?_⟩
  intro hpass
  have hemit := (hpass []).symm.trans (hdiscard [])
  cases hemit

/-! ## Arbitrary peers -/

/-- The length field of a frame. -/
def lengthField (f : List UInt8) : Nat := BigEndian.value (f.take 4)

/-- The frames the pipeline's decoder emits of a stream. -/
def emitted (reads : List (List UInt8)) : List (List UInt8) :=
  (feed frameDecoder.decode Reader.empty reads).1

theorem emitted_length {reads : List (List UInt8)} {f : List UInt8} (h : f ∈ emitted reads) :
    4 ≤ f.length ∧ f.length ≤ 1024 ∧ lengthField f = f.length :=
  frames_of_feed (P := fun f => 4 ≤ f.length ∧ f.length ≤ 1024 ∧ lengthField f = f.length)
    (fun _ _ _ hemit => frameDecoder_emit hemit) Reader.empty reads f h

/-- The handler is called once for each frame, and what each call does depends on its frame
alone but for the counter. -/
theorem handled_foldl_fire (self : CustomHeartbeatHandler) (c : HandlerContext)
    (fs : List (List UInt8)) :
    ∃ rs, (fs.foldl (HandlerContext.fire self) c).handled = c.handled ++ rs ∧
      List.Forall₂ (fun f r => ∃ n, r = self.channelRead0 n (.wrap f)) fs rs := by
  induction fs generalizing c with
  | nil => exact ⟨[], by simp, .nil⟩
  | cons f fs ih =>
    obtain ⟨rs, hrs, hall⟩ := ih (c.fire self f)
    refine ⟨self.channelRead0 c.heartbeatCount (.wrap f) :: rs, ?_, .cons ⟨_, rfl⟩ hall⟩
    rw [List.foldl_cons, hrs, HandlerContext.fire_handled]
    simp

theorem forall_mem_iff_of_forall₂ {α β : Type*} {R : α → β → Prop} {P : α → Prop} {Q : β → Prop}
    {as : List α} {bs : List β} (h : List.Forall₂ R as bs)
    (hiff : ∀ a ∈ as, ∀ b, R a b → (Q b ↔ P a)) : (∀ b ∈ bs, Q b) ↔ ∀ a ∈ as, P a := by
  induction h with
  | nil => simp
  | @cons a b as bs hab _ ih =>
    rw [List.forall_mem_cons, List.forall_mem_cons, hiff a List.mem_cons_self b hab,
      ih fun a' ha' => hiff a' (List.mem_cons_of_mem _ ha')]

/-- **What a handler survives.** Of any bytes, cut into reads in any way, every frame the decoder
emits is handled without an exception if and only if no emitted frame has the length field 4. -/
theorem handled_iff (side : Side) (reads : List (List UInt8)) :
    (∀ r ∈ (Endpoint.initial.channelReads side.handler reads).context.handled, ∃ h, r = .ok h) ↔
      ∀ f ∈ emitted reads, lengthField f ≠ 4 := by
  obtain ⟨rs, hrs, hall⟩ :=
    handled_foldl_fire side.handler HandlerContext.initial (emitted reads)
  have hhandled : (Endpoint.initial.channelReads side.handler reads).context.handled = rs := by
    rw [Endpoint.channelReads_eq]
    exact hrs
  rw [hhandled]
  refine forall_mem_iff_of_forall₂ hall ?_
  rintro f hf r ⟨n, rfl⟩
  obtain ⟨hmin, -, hfield⟩ := emitted_length hf
  rw [channelRead0_ok_iff side n f, hfield]
  omega

/-- Four bytes from a peer, a bare header, make the server's handler throw. -/
theorem bare_header_throws :
    emitted [[0, 0, 0, 4]] = [[0, 0, 0, 4]] ∧
      (Endpoint.initial.channelReads serverHandler [[0, 0, 0, 4]]).context.handled =
        [.error .indexOutOfBounds] := by
  decide

end MmtxSample
