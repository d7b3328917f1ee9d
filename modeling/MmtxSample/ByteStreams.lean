import Mathlib.Data.List.DropRight
import MmtxSample.RoundTrip

/-!
# Whatever bytes arrive

A peer may send anything: frames of any type, lengths that are wrong, payloads that are too long,
bytes cut into reads anywhere. The decoder never changes its mind (`frameDecoder_stable`), so a
stream of bytes has one list of frames (`framesOf`) and one list of decoder exceptions
(`exceptionsOf`), whatever its reads. An end may lag behind them after a read in which the decoder
has thrown, since it cuts no further in that read; a read without an exception catches up
(`dispatched`).

* `only_bytes_matter`: two ends that have read the same bytes, each with no exception in its last
  read, are in the same state; without that condition the one has done part of what the other has.
* `server_answers`: what the server writes and sends, frame by frame.
* `mixed_sizes`: messages of any size on one stream. A message too long for the decoder is lost, and
  nothing else is.
-/

namespace MmtxSample

open Java Netty CustomHeartbeatHandler Framing

theorem frameDecoder_stable : Stable frameDecoder.decode :=
  LengthFieldBasedFrameDecoder.decode_stable (by decide)

/-- The frames in a stream of bytes. -/
def framesOf (bytes : List UInt8) : List (List UInt8) :=
  frames (scan frameDecoder.decode bytes).1

/-- The exceptions the decoder throws on a stream of bytes. -/
def exceptionsOf (bytes : List UInt8) : List DecoderException :=
  failures (scan frameDecoder.decode bytes).1

/-- The decoder threw nothing in the last read. -/
def LastReadClean (self : CustomHeartbeatHandler) (reads : List (List UInt8)) : Prop :=
  ∀ earlier chunk, reads = earlier ++ [chunk] →
    (Endpoint.initial.channelReads self reads).decoderErrors =
      (Endpoint.initial.channelReads self earlier).decoderErrors

theorem lastReadClean_snoc {self : CustomHeartbeatHandler} {earlier : List (List UInt8)}
    {chunk : List UInt8} : LastReadClean self (earlier ++ [chunk]) ↔
      (Endpoint.initial.channelReads self (earlier ++ [chunk])).decoderErrors =
        (Endpoint.initial.channelReads self earlier).decoderErrors := by
  refine ⟨fun h => h earlier chunk rfl, ?_⟩
  rintro h earlier' chunk' heq
  obtain ⟨rfl, hchunk⟩ := List.append_inj' heq rfl
  obtain rfl := (List.cons.inj hchunk).1
  exact h

/-! ## One state for each stream -/

/-- While the decoder waits, less than a frame is held. -/
theorem held_of_wait {held : List UInt8} (hwait : frameDecoder.decode held = .wait) :
    held.length < 1024 := by
  rw [frameDecoder_eq, LengthFieldBasedFrameDecoder.wholeFrame_decode] at hwait
  split_ifs at hwait <;> omega

theorem scan_initial (bytes : List UInt8) :
    Reader.empty.scan frameDecoder.decode bytes = scan frameDecoder.decode bytes := by
  simp [Reader.scan, Reader.empty]

/-- The reads so far and what is still held make up the stream. -/
theorem channelReads_scan (self : CustomHeartbeatHandler) (reads : List (List UInt8)) :
    let received := Endpoint.initial.channelReads self reads
    let held := received.reader.scan frameDecoder.decode []
    ∃ done, received.context = done.foldl (HandlerContext.fire self) HandlerContext.initial ∧
      framesOf reads.flatten = done ++ frames held.1 ∧
      exceptionsOf reads.flatten = received.decoderErrors ++ failures held.1 ∧
      (scan frameDecoder.decode reads.flatten).2 = held.2 := by
  intro received held
  have hfeed := scan_feed frameDecoder_stable Reader.empty reads []
  rw [List.append_nil, scan_initial] at hfeed
  have hreceived : received = ⟨_, _, _⟩ := Endpoint.channelReads_eq self Endpoint.initial reads
  subst held
  rw [hreceived]
  exact ⟨_, rfl, hfeed⟩

/-- A read in which the decoder throws nothing leaves nothing that could be cut. -/
theorem held_of_clean {self : CustomHeartbeatHandler} {reads : List (List UInt8)}
    (hclean : LastReadClean self reads) :
    let received := Endpoint.initial.channelReads self reads
    frameDecoder.decode received.reader.held = .wait ∧
      received.reader.scan frameDecoder.decode [] = ([], received.reader) := by
  induction reads using List.reverseRecOn with
  | nil => exact ⟨frameDecoder_nil, rfl⟩
  | append_singleton earlier chunk _ =>
    have herrors := hclean earlier chunk rfl
    have hsnoc : Endpoint.initial.channelReads self (earlier ++ [chunk]) =
        (Endpoint.initial.channelReads self earlier).channelRead self chunk := by
      simp [Endpoint.channelReads]
    rw [hsnoc] at herrors ⊢
    refine scan_reader frameDecoder_stable _ chunk ?_
    simpa [Endpoint.channelRead] using herrors

/-- What an end has done after any reads: it has fired some of the frames of the bytes, from the
front, and all of them if its last read was clean. -/
theorem dispatched (self : CustomHeartbeatHandler) (reads : List (List UInt8)) :
    let received := Endpoint.initial.channelReads self reads
    ∃ done, done <+: framesOf reads.flatten ∧
      received.context = done.foldl (HandlerContext.fire self) HandlerContext.initial ∧
      received.decoderErrors <+: exceptionsOf reads.flatten ∧
      (LastReadClean self reads → done = framesOf reads.flatten ∧
        received.decoderErrors = exceptionsOf reads.flatten ∧
        received.reader = (scan frameDecoder.decode reads.flatten).2) := by
  obtain ⟨done, hcontext, hframes, hexceptions, hleft⟩ := channelReads_scan self reads
  refine ⟨done, ⟨_, hframes.symm⟩, hcontext, ⟨_, hexceptions.symm⟩, ?_⟩
  intro hclean
  have hheld := (held_of_clean hclean).2
  rw [hheld] at hframes hexceptions hleft
  simp only [frames_nil, failures_nil, List.append_nil] at hframes hexceptions
  exact ⟨hframes.symm, hexceptions.symm, hleft.symm⟩

/-- **Only the bytes matter.** An end whose last read was clean has done everything that any other
way of reading the same bytes makes it do, and holds less than 1024 bytes; if the other last read
was clean as well, the two ends are in the same state. -/
theorem only_bytes_matter (side : Side) (reads reads' : List (List UInt8))
    (hbytes : reads'.flatten = reads.flatten) (hclean : LastReadClean side.handler reads) :
    let received := Endpoint.initial.channelReads side.handler reads
    let received' := Endpoint.initial.channelReads side.handler reads'
    (∃ rest : List (List UInt8),
        received.context = rest.foldl (HandlerContext.fire side.handler) received'.context) ∧
      received'.decoderErrors <+: received.decoderErrors ∧
      received.reader.held.length < 1024 ∧
      (LastReadClean side.handler reads' → received' = received) := by
  intro received received'
  obtain ⟨done, -, hcontext, -, hcaught⟩ := dispatched side.handler reads
  obtain ⟨done', ⟨rest, hrest⟩, hcontext', herrors', hcaught'⟩ := dispatched side.handler reads'
  obtain ⟨hdone, herrors, hreader⟩ := hcaught hclean
  rw [hbytes] at hrest herrors' hcaught'
  refine ⟨⟨rest, ?_⟩, ?_, held_of_wait (held_of_clean hclean).1, ?_⟩
  · show received.context = rest.foldl _ received'.context
    rw [hcontext, hcontext', ← List.foldl_append, hrest, hdone]
  · rw [herrors]
    exact herrors'
  · intro hclean'
    obtain ⟨hdone', herrors'', hreader'⟩ := hcaught' hclean'
    have hcontexts : received'.context = received.context := by
      rw [hcontext, hcontext', hdone, hdone']
    show Endpoint.mk _ _ _ = Endpoint.mk _ _ _
    congr 1
    · exact hreader'.trans hreader.symm
    · exact herrors''.trans herrors.symm

/-- A corrupt header and a ping. Read at once, they leave the ping unread, since the decoder has
thrown; read one after the other, the ping is answered. -/
theorem only_bytes_matter_corrupt_header :
    let received := Endpoint.initial.channelReads serverHandler [[0, 0, 0, 2], [0, 0, 0, 5, 1]]
    let received' := Endpoint.initial.channelReads serverHandler [[0, 0, 0, 2, 0, 0, 0, 5, 1]]
    received'.context.heartbeatCount ≠ received.context.heartbeatCount ∧
      ((∃ rest : List (List UInt8),
          received.context = rest.foldl (HandlerContext.fire serverHandler) received'.context) ∧
        received'.decoderErrors <+: received.decoderErrors ∧
        received.reader.held.length < 1024 ∧
        (LastReadClean serverHandler [[0, 0, 0, 2, 0, 0, 0, 5, 1]] → received' = received)) := by
  have hclean : LastReadClean serverHandler ([[0, 0, 0, 2]] ++ [[0, 0, 0, 5, 1]]) :=
    lastReadClean_snoc.2 (by decide)
  exact ⟨by decide, only_bytes_matter .server _ _ (by decide) hclean⟩

/-! ## The answers of the server -/

def IsPing (f : List UInt8) : Prop := f[4]? = some PING_MSG

instance : DecidablePred IsPing := fun f => inferInstanceAs (Decidable (f[4]? = some PING_MSG))

/-- What the server writes when a frame arrives: a pong for a ping, nothing for a pong or for a bare
header, and any other frame itself. -/
def answers (f : List UInt8) : List (List UInt8) :=
  match f[4]? with
  | none => []
  | some type =>
    if type = PING_MSG then [frame PONG_MSG []] else if type = PONG_MSG then [] else [f]

/-- The server after some frames. All it wrote up to the last ping is sent, and what it wrote since
is not. -/
structure Answered (fs : List (List UInt8)) (c : HandlerContext) : Prop where
  isActive : c.isActive = true
  heartbeatCount : c.heartbeatCount = toInt (fs.countP IsPing)
  sent : c.outbound.sent = (fs.rdropWhile (¬ IsPing ·)).flatMap answers
  pending : c.outbound.pending = (fs.rtakeWhile (¬ IsPing ·)).flatMap answers

theorem fire_ping (c : HandlerContext) {f : List UInt8} (hping : IsPing f) :
    (c.fire Side.server.handler f).isActive = c.isActive ∧
      (c.fire Side.server.handler f).heartbeatCount = toInt (c.heartbeatCount + 1) ∧
      (c.fire Side.server.handler f).outbound =
        c.outbound.writeAndFlush (frame PONG_MSG []) := by
  have hread := channelRead0_of_type .server c.heartbeatCount hping
  rw [if_pos rfl] at hread
  rw [HandlerContext.fire_ok hread]
  exact ⟨rfl, rfl, rfl⟩

/-- A frame that is no ping only adds its answer to what is pending. -/
theorem fire_not_ping (c : HandlerContext) {f : List UInt8} (hping : ¬ IsPing f) :
    (c.fire Side.server.handler f).isActive = c.isActive ∧
      (c.fire Side.server.handler f).heartbeatCount = c.heartbeatCount ∧
      (c.fire Side.server.handler f).outbound =
        { c.outbound with pending := c.outbound.pending ++ answers f } := by
  unfold answers
  cases htype : f[4]? with
  | none =>
    have hread := channelRead0_short .server c.heartbeatCount (List.getElem?_eq_none_iff.1 htype)
    simp [HandlerContext.fire, hread]
  | some type =>
    have hread := channelRead0_of_type .server c.heartbeatCount htype
    have hne : type ≠ PING_MSG := fun h => hping (htype.trans (congrArg some h))
    rw [if_neg hne] at hread
    by_cases hpong : type = PONG_MSG
    · rw [if_pos hpong] at hread
      rw [HandlerContext.fire_ok hread]
      refine ⟨rfl, rfl, ?_⟩
      show c.outbound = ⟨c.outbound.sent, c.outbound.pending ++ if _ then _ else if _ then _ else _⟩
      rw [if_neg hne, if_pos hpong, List.append_nil]
    · rw [if_neg hpong] at hread
      rw [HandlerContext.fire_ok hread]
      simp [HandlerContext.perform, HandlerContext.perform1, Side.dataEffects, Outbound.write, hne,
        hpong]

theorem Answered.fire {fs : List (List UInt8)} {c : HandlerContext} (h : Answered fs c)
    (f : List UInt8) : Answered (fs ++ [f]) (c.fire Side.server.handler f) := by
  by_cases hping : IsPing f
  · obtain ⟨hactive, hcount, hout⟩ := fire_ping c hping
    have hanswers : answers f = [frame PONG_MSG []] := by simp [answers, show f[4]? = _ from hping]
    refine ⟨hactive.trans h.isActive, ?_, ?_, ?_⟩
    · rw [hcount, h.heartbeatCount, toInt_toInt_add]
      simp [hping]
    · rw [hout, Outbound.sent_writeAndFlush, Outbound.writes, h.sent, h.pending,
        List.rdropWhile_concat_neg _ _ _ (by simpa using hping), ← List.flatMap_append,
        List.rdropWhile_append_rtakeWhile, List.flatMap_append, List.flatMap_singleton, hanswers]
    · rw [hout, Outbound.pending_writeAndFlush,
        List.rtakeWhile_concat_neg _ _ _ (by simpa using hping), List.flatMap_nil]
  · obtain ⟨hactive, hcount, hout⟩ := fire_not_ping c hping
    refine ⟨hactive.trans h.isActive, ?_, ?_, ?_⟩
    · rw [hcount, h.heartbeatCount]
      simp [hping]
    · rw [hout, List.rdropWhile_concat_pos _ _ _ (by simpa using hping)]
      exact h.sent
    · rw [hout, List.rtakeWhile_concat_pos _ _ _ (by simpa using hping), List.flatMap_append,
        List.flatMap_singleton, h.pending]

theorem answered_foldl (fs : List (List UInt8)) :
    Answered fs (fs.foldl (HandlerContext.fire Side.server.handler) HandlerContext.initial) := by
  induction fs using List.reverseRecOn with
  | nil => exact ⟨rfl, rfl, rfl, rfl⟩
  | append_singleton fs f ih =>
    rw [List.foldl_append]
    exact ih.fire f

/-- **The server on any bytes.** Whatever arrives, the server's channel stays active and the server
answers frames of the bytes, from the front, one after the other; all of them if the last read was
clean. What it wrote up to the last ping is sent. -/
theorem server_answers (reads : List (List UInt8)) :
    ∃ done, done <+: framesOf reads.flatten ∧
      Answered done (Endpoint.initial.channelReads Side.server.handler reads).context ∧
      (LastReadClean Side.server.handler reads → done = framesOf reads.flatten) := by
  obtain ⟨done, hprefix, hcontext, -, hcaught⟩ := dispatched Side.server.handler reads
  refine ⟨done, hprefix, ?_, fun hclean => (hcaught hclean).1⟩
  rw [hcontext]
  exact answered_foldl done

/-! ## Messages of any size -/

/-- What the decoder makes of a message: the frame of a short one, an exception for a long one, and
nothing where the writer has thrown. -/
def Outgoing.item (m : Outgoing) : List (Item (List UInt8) DecoderException) :=
  if m.size ≤ 1019 then [.frame m.wire]
  else if 5 + m.size ≤ intMax then [.failure .tooLongFrame]
  else []

theorem scan_wire (m : Outgoing) (rest : List UInt8) :
    scan frameDecoder.decode (m.wire ++ rest) =
      prepend m.item (scan frameDecoder.decode rest) := by
  unfold Outgoing.item
  split_ifs with hle hint
  · exact scan_framed frameDecoder_stable (Outgoing.wire_framed hle) rest
  · refine scan_discarded frameDecoder_stable ?_ rest
    intro later
    rw [Outgoing.wire_eq hint, length_frame]
    exact frame_tooLong m.type (by rw [Outgoing.length_payload]; omega)
      (by rw [Outgoing.length_payload]; exact hint) later
  · rw [Outgoing.wire_overflow (by omega), prepend_nil]
    rfl

theorem scan_wires (ms : List Outgoing) :
    scan frameDecoder.decode (ms.flatMap Outgoing.wire) =
      (ms.flatMap Outgoing.item, Reader.empty) := by
  induction ms with
  | nil => exact scan_wait frameDecoder_nil
  | cons m ms ih =>
    rw [List.flatMap_cons, scan_wire, ih]
    rfl

theorem framesOf_wires (ms : List Outgoing) :
    framesOf (ms.flatMap Outgoing.wire) = (ms.filter (·.size ≤ 1019)).map Outgoing.wire := by
  rw [framesOf, scan_wires]
  induction ms with
  | nil => rfl
  | cons m ms ih =>
    rw [List.flatMap_cons, frames_append, ih, Outgoing.item]
    split_ifs with hle hint <;> simp [hle]

theorem exceptionsOf_wires (ms : List Outgoing) :
    (exceptionsOf (ms.flatMap Outgoing.wire)).length =
      ms.countP fun m => 1019 < m.size ∧ 5 + m.size ≤ intMax := by
  rw [exceptionsOf, scan_wires]
  induction ms with
  | nil => rfl
  | cons m ms ih =>
    rw [List.flatMap_cons, failures_append, List.length_append, ih, Outgoing.item, List.countP_cons]
    split_ifs with hle hint h h <;> simp_all <;> omega

/-- **Messages of any size on one stream.** Whatever one end writes, and however the bytes are cut
into reads, the other end takes the branches of the messages with at most 1019 bytes of payload,
from the front and in order, each with its payload. If its last read was clean, it has taken all of
them, it holds nothing of the others, and its decoder has thrown once for each longer message that
could be written. -/
theorem mixed_sizes (side : Side) (ms : List Outgoing) (reads : List (List UInt8))
    (hreads : reads.flatten = ms.flatMap Outgoing.wire) :
    let received := Endpoint.initial.channelReads side.handler reads
    let short := ms.filter (·.size ≤ 1019)
    received.context.branches <+: short.map (fun m => some m.branch) ∧
      (LastReadClean side.handler reads →
        received.context.branches = short.map (fun m => some m.branch) ∧
          received.reader = Reader.empty ∧
          received.decoderErrors.length =
            ms.countP fun m => 1019 < m.size ∧ 5 + m.size ≤ intMax) := by
  intro received short
  obtain ⟨done, hprefix, hcontext, -, hcaught⟩ := dispatched side.handler reads
  rw [hreads, framesOf_wires] at hprefix hcaught
  have hbranches : ∀ ms' : List Outgoing, ms' <+: short → done = ms'.map Outgoing.wire →
      received.context.branches = ms'.map fun m => some m.branch := by
    intro ms' hms' hdone
    show HandlerContext.branches (Endpoint.context _) = _
    rw [hcontext, hdone, branches_foldl_fire side _ ms' fun m hm => ?_]
    · rfl
    · simpa using List.of_mem_filter (hms'.subset hm)
  refine ⟨?_, ?_⟩
  · obtain ⟨ms', hms', hdone⟩ := List.prefix_map_iff.1 hprefix
    rw [hbranches ms' hms' hdone]
    exact hms'.map _
  · intro hclean
    obtain ⟨hdone, herrors, hreader⟩ := hcaught hclean
    rw [scan_wires] at hreader
    refine ⟨hbranches short List.prefix_rfl hdone, hreader, ?_⟩
    rw [← exceptionsOf_wires ms, ← herrors]

/-- A lost message between a ping and a pong, each in a read of its own. -/
theorem mixed_sizes_longMessage :
    let ms : List Outgoing := [.ping "server" 0, .insertRow longMessage, .pong "server" 0]
    let received := Endpoint.initial.channelReads clientHandler (ms.map Outgoing.wire)
    received.context.branches = [some .sendPongMsg, some .getPong] ∧
      received.reader = Reader.empty ∧ received.decoderErrors.length = 1 := by
  have hclean : LastReadClean clientHandler
      ([(Outgoing.ping "server" 0).wire, (Outgoing.insertRow longMessage).wire] ++
        [(Outgoing.pong "server" 0).wire]) :=
    lastReadClean_snoc.2 (by decide +kernel)
  have hshort : ¬ longMessage.length ≤ 1019 := by
    rw [length_longMessage]
    decide
  obtain ⟨hbranches, hreader, herrors⟩ := (mixed_sizes .client
    [.ping "server" 0, .insertRow longMessage, .pong "server" 0] _ List.flatMap_def.symm).2 hclean
  refine ⟨hbranches.trans ?_, hreader, herrors.trans ?_⟩
  · simp [Outgoing.size, Outgoing.branch, hshort]
  · simp [Outgoing.size, length_longMessage, intMax]

end MmtxSample
