import MmtxSample.ByteStreams
import MmtxSample.Exchange

/-!
# The connection as bytes

Between the two handlers are two streams of bytes. An end puts frames of any length on its stream,
and only what it has flushed can be read; the other end reads as many bytes at a time as the network
hands it, and its decoder cuts them. A `Link` moves by such reads, by the client's idle timer, by
calls of `Client.sendData` and by pushes, in any order.

The relation `Matches` compares a link with an `Exchange` of whole frames. The frames that a decoder
takes (`Fits`) are the frames of the exchange; the longer ones are not there. Both ends have handled
the same frames, and what the decoder of an end has made of the bytes it has read is what has been
delivered to it (`Consumed`). A read of the link becomes as many deliveries as it completes frames,
so the link refines the exchange (`link_refines`), and the laws of the exchange hold of it.

* `link_conserved`: the conservation laws of the exchange, for bytes and for messages of any size.
* `link_drained`: when all that is flushed has been read, what the client lacks is the server's
  pending echoes.
-/

namespace MmtxSample

open Java Netty CustomHeartbeatHandler Framing TransitionSystem

/-- Both ends, how many bytes of the other's stream each has read, and for the record the payloads
pushed and sent and how often the client's timer has fired. -/
structure Link where
  client : Endpoint
  server : Endpoint
  serverRead : Nat
  clientRead : Nat
  pushed : List (List UInt8)
  sent : List (List UInt8)
  idles : Nat

namespace Link

inductive Action
  | allIdle
  | sendData (content : Bytes)
  | push (msg : Bytes)
  | serverReads (n : Nat)
  | clientReads (n : Nat)

/-- What has been flushed and not been read. -/
def unread (src : HandlerContext) (read : Nat) : List UInt8 := src.outbound.sent.flatten.drop read

def initial : Link := ⟨Endpoint.initial, Endpoint.initial, 0, 0, [], [], 0⟩

/-- A push, on the channel of the server's end. -/
def pushes (l : Link) (msg : Bytes) : Link :=
  { l with server.context := l.server.context.insertRow msg, pushed := l.pushed ++ [msg.data] }

/-- A call of `sendData`, on the channel of the client's end. -/
def sends (l : Link) (content : Bytes) : Link :=
  { l with
    client.context := l.client.context.sendData content
    sent := l.sent ++ [content.data] }

def step (l : Link) : Action → Option Link
  | .allIdle => some { l with
      client.context := l.client.context.userEventTriggered Side.client.handler .allIdle
      idles := l.idles + 1 }
  | .sendData content => some (l.sends content)
  | .push msg => some (l.pushes msg)
  | .serverReads n =>
    if n ≤ (unread l.client.context l.serverRead).length then some { l with
      server := l.server.channelRead Side.server.handler
        ((unread l.client.context l.serverRead).take n)
      serverRead := l.serverRead + n }
    else none
  | .clientReads n =>
    if n ≤ (unread l.server.context l.clientRead).length then some { l with
      client := l.client.channelRead Side.client.handler
        ((unread l.server.context l.clientRead).take n)
      clientRead := l.clientRead + n }
    else none

def machine : Machine Link Action := ⟨initial, step⟩

/-- The frames on their way from `src` to `dst`, which has read `read` bytes: written or flushed,
read in part, or read and not cut yet. -/
def inFlight (src : HandlerContext) (dst : Endpoint) (read : Nat) : List (List UInt8) :=
  frames (dst.reader.scan frameDecoder.decode (src.outbound.writes.flatten.drop read)).1

def toServer (l : Link) : List (List UInt8) := inFlight l.client.context l.server l.serverRead

def toClient (l : Link) : List (List UInt8) := inFlight l.server.context l.client l.clientRead

/-! ## Frames that fit and frames that do not -/

/-- The decoder takes the frame. -/
def Fits (f : List UInt8) : Prop := f.length ≤ 1024

instance : DecidablePred Fits := fun f => inferInstanceAs (Decidable (f.length ≤ 1024))

/-- A payload that fits. -/
def Short (payload : List UInt8) : Prop := payload.length ≤ 1019

instance : DecidablePred Short := fun p => inferInstanceAs (Decidable (p.length ≤ 1019))

/-- A frame as one of the writers makes it. -/
def Written (f : List UInt8) : Prop :=
  ∃ type payload, f = frame type payload ∧ 5 + payload.length ≤ intMax ∧
    (payload = [] ∨ type = CUSTOM_MSG)

theorem fits_frame (type : UInt8) (payload : List UInt8) :
    Fits (frame type payload) ↔ Short payload := by
  unfold Fits Short
  rw [length_frame]
  omega

/-- What the decoder makes of a written frame. -/
def item (f : List UInt8) : Item (List UInt8) DecoderException :=
  if Fits f then .frame f else .failure .tooLongFrame

theorem scan_written {f : List UInt8} (hf : Written f) (rest : List UInt8) :
    scan frameDecoder.decode (f ++ rest) =
      prepend [item f] (scan frameDecoder.decode rest) := by
  obtain ⟨type, payload, rfl, hint, -⟩ := hf
  unfold item
  split_ifs with hfits
  · exact scan_framed frameDecoder_stable (frame_framed type ((fits_frame type payload).1 hfits))
      rest
  · have hlong : ¬ payload.length ≤ 1019 := fun hle => hfits ((fits_frame type payload).2 hle)
    refine scan_discarded frameDecoder_stable ?_ rest
    intro later
    rw [length_frame]
    exact frame_tooLong type (by omega) hint later

theorem scan_flatten {fs : List (List UInt8)} (hfs : ∀ f ∈ fs, Written f) :
    scan frameDecoder.decode fs.flatten = (fs.map item, Reader.empty) := by
  induction fs with
  | nil => exact scan_wait frameDecoder_nil
  | cons f fs ih =>
    rw [List.flatten_cons, scan_written (hfs f List.mem_cons_self),
      ih fun g hg => hfs g (List.mem_cons_of_mem _ hg)]
    rfl

theorem frames_map_item (fs : List (List UInt8)) : frames (fs.map item) = fs.filter Fits := by
  induction fs with
  | nil => rfl
  | cons f fs ih =>
    by_cases hfits : Fits f <;> simp [item, hfits, ih]

theorem failures_map_item (fs : List (List UInt8)) :
    (failures (fs.map item)).length = fs.countP (¬ Fits ·) := by
  induction fs with
  | nil => rfl
  | cons f fs ih =>
    by_cases hfits : Fits f <;> simp [item, hfits, ih]

/-! ## Contexts that agree -/

/-- A context of the link and one of the exchange: they differ in the frames that do not fit, and in
what is flushed. -/
structure Agree (c c' : HandlerContext) : Prop where
  heartbeatCount : c'.heartbeatCount = c.heartbeatCount
  isActive : c'.isActive = c.isActive
  handled : c'.handled = c.handled
  writes : c'.outbound.writes = c.outbound.writes.filter Fits
  format : ∀ f ∈ c.outbound.writes, Written f

/-- The second context has added to what the first had written and flushed. -/
structure Grows (c d : HandlerContext) : Prop where
  writes : c.outbound.writes <+: d.outbound.writes
  sent : c.outbound.sent <+: d.outbound.sent

theorem Grows.refl (c : HandlerContext) : Grows c c := ⟨List.prefix_rfl, List.prefix_rfl⟩

theorem Grows.trans {c d e : HandlerContext} (h : Grows c d) (h' : Grows d e) : Grows c e :=
  ⟨h.writes.trans h'.writes, h.sent.trans h'.sent⟩

theorem Grows.perform1 (c : HandlerContext) (effect : Effect) : Grows c (c.perform1 effect) := by
  cases effect with
  | println line => exact .refl c
  | write bytes => exact ⟨by simp [HandlerContext.perform1], List.prefix_rfl⟩
  | writeAndFlush bytes =>
    refine ⟨by simp [HandlerContext.perform1], ?_⟩
    simp only [HandlerContext.perform1, Outbound.sent_writeAndFlush, Outbound.writes]
    exact (List.prefix_append _ _).trans (List.prefix_append _ _)
  | close => exact ⟨List.prefix_rfl, List.prefix_rfl⟩

theorem Grows.perform (c : HandlerContext) (effects : List Effect) :
    Grows c (c.perform effects) := by
  induction effects generalizing c with
  | nil => exact .refl c
  | cons effect effects ih => exact (Grows.perform1 c effect).trans (ih (c.perform1 effect))

theorem Grows.fire (self : CustomHeartbeatHandler) (c : HandlerContext) (f : List UInt8) :
    Grows c (c.fire self f) := by
  unfold HandlerContext.fire
  split
  · rename_i handled _
    have hgrows := Grows.perform { c with
      heartbeatCount := handled.heartbeatCount
      handled := c.handled ++ [.ok handled] } handled.effects
    exact ⟨hgrows.writes, hgrows.sent⟩
  · exact ⟨List.prefix_rfl, List.prefix_rfl⟩

theorem Grows.fires (self : CustomHeartbeatHandler) (c : HandlerContext) (fs : List (List UInt8)) :
    Grows c (fs.foldl (HandlerContext.fire self) c) := by
  induction fs generalizing c with
  | nil => exact .refl c
  | cons f fs ih => exact (Grows.fire self c f).trans (ih (c.fire self f))

theorem Grows.userEventTriggered (self : CustomHeartbeatHandler) (c : HandlerContext)
    (event : IdleState) : Grows c (c.userEventTriggered self event) := by
  unfold HandlerContext.userEventTriggered
  split
  · rename_i count effects _
    have hgrows := Grows.perform { c with heartbeatCount := count } effects
    exact ⟨hgrows.writes, hgrows.sent⟩
  · exact .refl c

theorem Grows.attempt (c : HandlerContext) (effects : Except Exception (List Effect)) :
    Grows c (c.attempt effects) := by
  cases effects with
  | ok effects => exact .perform c effects
  | error ex => exact .refl c

theorem Grows.sendData (c : HandlerContext) (content : Bytes) : Grows c (c.sendData content) := by
  unfold HandlerContext.sendData
  split_ifs
  · exact .attempt c _
  · exact .refl c

theorem Grows.insertRow (c : HandlerContext) (msg : Bytes) : Grows c (c.insertRow msg) := by
  unfold HandlerContext.insertRow
  split_ifs
  · exact .attempt c _
  · exact .refl c

theorem Agree.perform1 {c c' : HandlerContext} (h : Agree c c') (effect : Effect)
    (heffect : ∀ f ∈ written [effect], Written f ∧ Fits f) :
    Agree (c.perform1 effect) (c'.perform1 effect) := by
  cases effect with
  | println line => exact h
  | write bytes | writeAndFlush bytes =>
    obtain ⟨hwritten, hfits⟩ := heffect bytes (by simp [written])
    exact {
      heartbeatCount := h.heartbeatCount
      isActive := h.isActive
      handled := h.handled
      writes := by simp [HandlerContext.perform1, h.writes, hfits]
      format := by
        intro f hf
        simp only [HandlerContext.perform1, Outbound.writes_write, Outbound.writes_writeAndFlush,
          List.mem_append, List.mem_singleton] at hf
        rcases hf with hf | rfl
        · exact h.format f hf
        · exact hwritten }
  | close => exact { h with isActive := rfl }

theorem Agree.perform {c c' : HandlerContext} (h : Agree c c') (effects : List Effect)
    (heffects : ∀ f ∈ written effects, Written f ∧ Fits f) :
    Agree (c.perform effects) (c'.perform effects) := by
  induction effects generalizing c c' with
  | nil => exact h
  | cons effect effects ih =>
    have hsplit : written (effect :: effects) = written [effect] ++ written effects := by
      rw [written, written, written, ← List.filterMap_append]
      rfl
    rw [hsplit] at heffects
    exact ih (h.perform1 effect fun f hf => heffects f (List.mem_append_left _ hf))
      fun f hf => heffects f (List.mem_append_right _ hf)

/-- What a handler writes when it gets a frame that fits. -/
theorem written_of_channelRead0 {side : Side} {n : Int} {f : List UInt8} {handled : Handled}
    (hwritten : Written f) (hfits : Fits f)
    (hread : side.handler.channelRead0 n (.wrap f) = .ok handled) :
    ∀ g ∈ written handled.effects, Written g ∧ Fits g := by
  have hf : Written f ∧ Fits f := ⟨hwritten, hfits⟩
  have hpong : Written (frame PONG_MSG []) ∧ Fits (frame PONG_MSG []) :=
    ⟨⟨PONG_MSG, [], rfl, by decide, Or.inl rfl⟩, by decide⟩
  obtain ⟨type, payload, rfl, -⟩ := hwritten
  rw [channelRead0_of_type side n (frame_type type payload)] at hread
  split_ifs at hread <;> obtain rfl := Except.ok.inj hread
  · simpa [written] using hpong
  · simp [written]
  · cases side with
    | client => simp [written, Side.dataEffects]
    | server => simpa [written, Side.dataEffects] using hf

theorem Agree.fire {c c' : HandlerContext} (h : Agree c c') (side : Side) {f : List UInt8}
    (hwritten : Written f) (hfits : Fits f) :
    Agree (c.fire side.handler f) (c'.fire side.handler f) := by
  unfold HandlerContext.fire
  rw [h.heartbeatCount, h.handled]
  split
  · rename_i handled hread
    refine Agree.perform ?_ handled.effects (written_of_channelRead0 hwritten hfits hread)
    exact ⟨rfl, h.isActive, rfl, h.writes, h.format⟩
  · exact ⟨rfl, h.isActive, rfl, h.writes, h.format⟩

/-! ## What a decoder has made of what it has read -/

/-- The decoder of `dst` has read these bytes and cut these frames. -/
def Consumed (dst : Endpoint) (bytes : List UInt8) (got : List (List UInt8)) : Prop :=
  ∃ done, (∀ later, scan frameDecoder.decode (bytes ++ later) =
      prepend done (dst.reader.scan frameDecoder.decode later)) ∧
    frames done = got ∧ failures done = dst.decoderErrors

theorem consumed_initial : Consumed Endpoint.initial [] [] :=
  ⟨[], fun later => (scan_initial later).symm, rfl, rfl⟩

theorem Consumed.channelRead {dst : Endpoint} {bytes : List UInt8} {got : List (List UInt8)}
    (h : Consumed dst bytes got) (self : CustomHeartbeatHandler) (chunk : List UInt8) :
    Consumed (dst.channelRead self chunk) (bytes ++ chunk)
      (got ++ (read frameDecoder.decode dst.reader chunk).frames) := by
  obtain ⟨done, hscan, rfl, hfailures⟩ := h
  refine ⟨done ++ (read frameDecoder.decode dst.reader chunk).items, ?_, by simp, ?_⟩
  · intro later
    rw [List.append_assoc, hscan, scan_read frameDecoder_stable, prepend_prepend]
    rfl
  · rw [failures_append, hfailures, Framing.failures_items]
    rfl

/-- The frames that fit are those cut and those in flight, and the decoder throws no more often than
there are frames that do not fit. -/
theorem Consumed.filter {src : HandlerContext} {dst : Endpoint} {read : Nat}
    {got : List (List UInt8)} (h : Consumed dst (src.outbound.writes.flatten.take read) got)
    (hwritten : ∀ f ∈ src.outbound.writes, Written f) :
    src.outbound.writes.filter Fits = got ++ inFlight src dst read ∧
      dst.decoderErrors.length ≤ src.outbound.writes.countP (¬ Fits ·) := by
  obtain ⟨done, hscan, rfl, hfailures⟩ := h
  have hall := hscan (src.outbound.writes.flatten.drop read)
  rw [List.take_append_drop, scan_flatten hwritten] at hall
  have hitems : src.outbound.writes.map item = _ := congrArg Prod.fst hall
  refine ⟨?_, ?_⟩
  · rw [← frames_map_item, hitems]
    exact frames_append _ _
  · rw [← failures_map_item, hitems, ← hfailures]
    simp [prepend]

/-! ## The refinement -/

/-- The link `l` and the exchange `e`, when the decoders have cut the frames `fs` for the server and
`gs` for the client that have not been fired yet. -/
structure Related (l : Link) (e : Exchange) (fs gs : List (List UInt8)) : Prop where
  client : Agree l.client.context e.client
  server : Agree l.server.context e.server
  toServer : Consumed l.server (l.client.context.outbound.writes.flatten.take l.serverRead)
    (e.client.outbound.writes.take e.serverGot ++ fs)
  toClient : Consumed l.client (l.server.context.outbound.writes.flatten.take l.clientRead)
    (e.server.outbound.writes.take e.clientGot ++ gs)
  serverRead_le : l.serverRead ≤ l.client.context.outbound.sent.flatten.length
  clientRead_le : l.clientRead ≤ l.server.context.outbound.sent.flatten.length
  pushed : e.pushed = l.pushed.filter Short
  sent : e.sent = l.sent.filter Short
  idles : e.idles = l.idles
  flushed : l.client.context.outbound.pending = []

/-- Nothing has been cut that has not been fired. -/
def Matches (l : Link) (e : Exchange) : Prop := Related l e [] []

variable {l : Link} {e : Exchange} {fs gs : List (List UInt8)}

theorem matches_initial : Matches initial Exchange.initial where
  client := ⟨rfl, rfl, rfl, rfl, fun f hf => by cases hf⟩
  server := ⟨rfl, rfl, rfl, rfl, fun f hf => by cases hf⟩
  toServer := consumed_initial
  toClient := consumed_initial
  serverRead_le := Nat.le_refl _
  clientRead_le := Nat.le_refl _
  pushed := rfl
  sent := rfl
  idles := rfl
  flushed := rfl

theorem take_of_extends {α : Type*} {xs ys : List α} (h : xs <+: ys) {n : Nat}
    (hn : n ≤ xs.length) : ys.take n = xs.take n := by
  obtain ⟨zs, rfl⟩ := h
  exact List.take_append_of_le_length hn

theorem flatten_mono {α : Type*} {xs ys : List (List α)} (h : xs <+: ys) :
    xs.flatten <+: ys.flatten := by
  obtain ⟨zs, rfl⟩ := h
  exact ⟨zs.flatten, List.flatten_append.symm⟩

/-- What has been read of a stream is read still when more is written. -/
theorem Grows.take {c d : HandlerContext} (h : Grows c d) {read : Nat}
    (hread : read ≤ c.outbound.sent.flatten.length) :
    d.outbound.writes.flatten.take read = c.outbound.writes.flatten.take read ∧
      read ≤ d.outbound.sent.flatten.length := by
  have hsent : c.outbound.sent.flatten <+: c.outbound.writes.flatten :=
    flatten_mono (List.prefix_append _ _)
  exact ⟨take_of_extends (flatten_mono h.writes) (hread.trans hsent.length_le),
    hread.trans (flatten_mono h.sent).length_le⟩

/-- The client's context changes, and with it what is sent. -/
theorem Related.client_grows (h : Related l e fs gs) {c c' : HandlerContext}
    {sent sent' : List (List UInt8)} (hagree : Agree c c') (hgrows : Grows l.client.context c)
    (hwrites : e.client.outbound.writes <+: c'.outbound.writes)
    (hgot : e.serverGot ≤ e.client.outbound.writes.length) (hflushed : c.outbound.pending = [])
    (hsent : sent' = sent.filter Short) :
    Related { l with client.context := c, sent := sent } { e with client := c', sent := sent' }
      fs gs := by
  obtain ⟨htake, hle⟩ := hgrows.take h.serverRead_le
  exact { h with
    client := hagree
    toServer := by
      show Consumed l.server (c.outbound.writes.flatten.take l.serverRead)
        (c'.outbound.writes.take e.serverGot ++ fs)
      rw [htake, take_of_extends hwrites hgot]
      exact h.toServer
    serverRead_le := hle
    sent := hsent
    flushed := hflushed }

/-- The server's context changes, and with it what is pushed. -/
theorem Related.server_grows (h : Related l e fs gs) {c c' : HandlerContext}
    {pushed pushed' : List (List UInt8)} (hagree : Agree c c') (hgrows : Grows l.server.context c)
    (hwrites : e.server.outbound.writes <+: c'.outbound.writes)
    (hgot : e.clientGot ≤ e.server.outbound.writes.length)
    (hpushed : pushed' = pushed.filter Short) :
    Related { l with server.context := c, pushed := pushed }
      { e with server := c', pushed := pushed' } fs gs := by
  obtain ⟨htake, hle⟩ := hgrows.take h.clientRead_le
  exact { h with
    server := hagree
    toClient := by
      show Consumed l.client (c.outbound.writes.flatten.take l.clientRead)
        (c'.outbound.writes.take e.clientGot ++ gs)
      rw [htake, take_of_extends hwrites hgot]
      exact h.toClient
    clientRead_le := hle
    pushed := hpushed }

/-- What is still to be delivered to the server: what has been cut, then what is in flight. -/
theorem Related.toServer_eq (h : Related l e fs gs) : e.toServer = fs ++ l.toServer := by
  have hfilter := (h.toServer.filter h.client.format).1
  rw [← h.client.writes, List.append_assoc] at hfilter
  rw [Exchange.toServer]
  exact List.append_cancel_left ((List.take_append_drop _ _).trans hfilter)

theorem Related.toClient_eq (h : Related l e fs gs) : e.toClient = gs ++ l.toClient := by
  have hfilter := (h.toClient.filter h.server.format).1
  rw [← h.server.writes, List.append_assoc] at hfilter
  rw [Exchange.toClient]
  exact List.append_cancel_left ((List.take_append_drop _ _).trans hfilter)

/-- The first frame cut for the server is fired. -/
theorem Related.fire_server {f : List UInt8} (h : Related l e (f :: fs) gs) (hinv : e.Inv) :
    ∃ e', e.step .deliverToServer = some e' ∧
      Related { l with server.context := l.server.context.fire Side.server.handler f }
        e' fs gs := by
  have hqueue : e.toServer = f :: (fs ++ l.toServer) := h.toServer_eq
  obtain ⟨htake, -, hmem⟩ := Exchange.take_succ_of_drop hqueue
  rw [h.client.writes] at hmem
  obtain ⟨hmem, hfits⟩ := List.mem_filter.1 hmem
  have hagree := h.server.fire .server (h.client.format f hmem) (of_decide_eq_true hfits)
  have hdelivered : Related l { e with serverGot := e.serverGot + 1 } fs gs :=
    { h with toServer := by simpa [htake] using h.toServer }
  refine ⟨{ e with server := e.server.fire Side.server.handler f, serverGot := e.serverGot + 1 },
    by simp [Exchange.step, hqueue], ?_⟩
  exact hdelivered.server_grows hagree (.fire _ _ _) (Grows.fire _ _ _).writes hinv.clientGot_le
    h.pushed

/-- The first frame cut for the client is fired. -/
theorem Related.fire_client {f : List UInt8} (h : Related l e fs (f :: gs)) (hinv : e.Inv) :
    ∃ e', e.step .deliverToClient = some e' ∧
      Related { l with client.context := l.client.context.fire Side.client.handler f }
        e' fs gs := by
  have hqueue : e.toClient = f :: (gs ++ l.toClient) := h.toClient_eq
  obtain ⟨htake, -, hmem⟩ := Exchange.take_succ_of_drop hqueue
  have hframe := hinv.server_frames f hmem
  rw [h.server.writes] at hmem
  obtain ⟨hmem, hfits⟩ := List.mem_filter.1 hmem
  have hagree := h.client.fire .client (h.server.format f hmem) (of_decide_eq_true hfits)
  have hdelivered : Related l { e with clientGot := e.clientGot + 1 } fs gs :=
    { h with toClient := by simpa [htake] using h.toClient }
  refine ⟨{ e with client := e.client.fire Side.client.handler f, clientGot := e.clientGot + 1 },
    by simp [Exchange.step, hqueue], ?_⟩
  refine hdelivered.client_grows hagree (.fire _ _ _) (Grows.fire _ _ _).writes hinv.serverGot_le
    ?_ h.sent
  rw [HandlerContext.outbound_fire_client _ hframe]
  exact h.flushed

/-- All the frames cut for the server are fired. -/
theorem Related.fires_server (h : Related l e fs gs) (hinv : e.Inv) :
    ∃ ks e', Exchange.machine.exec e ks = some e' ∧
      Related { l with
        server.context := fs.foldl (HandlerContext.fire Side.server.handler) l.server.context }
        e' [] gs := by
  induction fs generalizing l e with
  | nil => exact ⟨[], e, rfl, h⟩
  | cons f fs ih =>
    obtain ⟨e₁, hstep, hrelated⟩ := h.fire_server hinv
    obtain ⟨ks, e', hexec, hrelated'⟩ := ih hrelated (hinv.step hstep)
    exact ⟨.deliverToServer :: ks, e', Machine.exec_cons_eq_some.2 ⟨e₁, hstep, hexec⟩, hrelated'⟩

/-- All the frames cut for the client are fired. -/
theorem Related.fires_client (h : Related l e fs gs) (hinv : e.Inv) :
    ∃ ks e', Exchange.machine.exec e ks = some e' ∧
      Related { l with
        client.context := gs.foldl (HandlerContext.fire Side.client.handler) l.client.context }
        e' fs [] := by
  induction gs generalizing l e with
  | nil => exact ⟨[], e, rfl, h⟩
  | cons f gs ih =>
    obtain ⟨e₁, hstep, hrelated⟩ := h.fire_client hinv
    obtain ⟨ks, e', hexec, hrelated'⟩ := ih hrelated (hinv.step hstep)
    exact ⟨.deliverToClient :: ks, e', Machine.exec_cons_eq_some.2 ⟨e₁, hstep, hexec⟩, hrelated'⟩

/-- A message on an active channel. One that fits is a message of the exchange; one that does not is
none, whether its frame is written or its writer throws. -/
theorem Agree.sendData {c c' : HandlerContext} (h : Agree c c') (hactive : c.isActive = true)
    (content : Bytes) :
    Grows c (c.sendData content) ∧
      (c.outbound.pending = [] → (c.sendData content).outbound.pending = []) ∧
      (Short content.data → Agree (c.sendData content) (c'.sendData content)) ∧
      (¬ Short content.data → Agree (c.sendData content) c') := by
  by_cases hint : 5 + content.length ≤ intMax
  · have hwritten : Written (frame CUSTOM_MSG content.data) :=
      ⟨CUSTOM_MSG, content.data, rfl, hint, Or.inr rfl⟩
    have hgrows := Grows.perform1 c (.writeAndFlush (frame CUSTOM_MSG content.data))
    have hactive' : c'.isActive = true := h.isActive.trans hactive
    rw [HandlerContext.sendData_eq hactive hint, HandlerContext.sendData_eq hactive' hint]
    refine ⟨hgrows, fun _ => rfl, ?_, ?_⟩
    · intro hshort
      refine h.perform1 (.writeAndFlush (frame CUSTOM_MSG content.data)) ?_
      intro f hf
      obtain rfl : f = frame CUSTOM_MSG content.data := by simpa [written] using hf
      exact ⟨hwritten, (fits_frame _ _).2 hshort⟩
    · intro hlong
      have hfits : ¬ Fits (frame CUSTOM_MSG content.data) := fun hfits =>
        hlong ((fits_frame _ _).1 hfits)
      exact { h with
        writes := by simp [h.writes, hfits]
        format := by
          intro f hf
          rw [Outbound.writes_writeAndFlush, List.mem_append, List.mem_singleton] at hf
          rcases hf with hf | rfl
          · exact h.format f hf
          · exact hwritten }
  · rw [HandlerContext.sendData_overflow c hint, HandlerContext.sendData_overflow c' hint]
    exact ⟨.refl c, id, fun _ => h, fun _ => h⟩

theorem filter_short_append (payloads : List (List UInt8)) (payload : List UInt8) :
    (payloads ++ [payload]).filter Short =
      payloads.filter Short ++ if Short payload then [payload] else [] := by
  rw [List.filter_append, List.filter_singleton]
  split_ifs with h <;> simp [h]

theorem Related.allIdle (h : Matches l e) (hinv : e.Inv) :
    ∃ ks e', Exchange.machine.exec e ks = some e' ∧ Matches { l with
      client.context := l.client.context.userEventTriggered Side.client.handler .allIdle
      idles := l.idles + 1 } e' := by
  have hping : ∀ f ∈ written [.writeAndFlush (frame PING_MSG [])], Written f ∧ Fits f := by
    intro f hf
    obtain rfl : f = frame PING_MSG [] := by simpa [written] using hf
    exact ⟨⟨PING_MSG, [], rfl, by decide, Or.inl rfl⟩, by decide⟩
  have hcount : Agree { l.client.context with
      heartbeatCount := toInt (l.client.context.heartbeatCount + 1) } { e.client with
      heartbeatCount := toInt (e.client.heartbeatCount + 1) } :=
    { h.client with heartbeatCount := by rw [h.client.heartbeatCount] }
  have hgrows := Grows.perform1 l.client.context (.writeAndFlush (frame PING_MSG []))
  have hgrows' := Grows.perform1 e.client (.writeAndFlush (frame PING_MSG []))
  refine ⟨[.allIdle], { e with
    client := e.client.userEventTriggered Side.client.handler .allIdle
    idles := e.idles + 1 }, rfl, ?_⟩
  rw [HandlerContext.userEventTriggered_allIdle, HandlerContext.userEventTriggered_allIdle]
  have hrelated := h.client_grows (hcount.perform1 _ hping) ⟨hgrows.writes, hgrows.sent⟩
    hgrows'.writes hinv.serverGot_le rfl h.sent
  exact { hrelated with idles := congrArg (· + 1) h.idles }

theorem Related.sendData (h : Matches l e) (hinv : e.Inv) (content : Bytes) :
    ∃ ks e', Exchange.machine.exec e ks = some e' ∧ Matches { l with
      client.context := l.client.context.sendData content, sent := l.sent ++ [content.data] }
        e' := by
  have hactive : l.client.context.isActive = true := h.client.isActive.symm.trans hinv.client_active
  obtain ⟨hgrows, hflushed, hshort, hlong⟩ := h.client.sendData hactive content
  have hsent := filter_short_append l.sent content.data
  by_cases hfits : Short content.data
  · have hwrites : e.client.outbound.writes <+: (e.client.sendData content).outbound.writes := by
      have hint : 5 + content.length ≤ intMax := by
        unfold Short at hfits
        unfold intMax Bytes.length
        omega
      rw [HandlerContext.sendData_eq hinv.client_active hint]
      simp
    refine ⟨[.sendData content hfits], { e with
      client := e.client.sendData content, sent := e.sent ++ [content.data] }, rfl, ?_⟩
    refine h.client_grows (hshort hfits) hgrows hwrites hinv.serverGot_le (hflushed h.flushed) ?_
    rw [hsent, if_pos hfits, h.sent]
  · refine ⟨[], e, rfl, ?_⟩
    refine h.client_grows (hlong hfits) hgrows List.prefix_rfl hinv.serverGot_le
      (hflushed h.flushed) ?_
    rw [hsent, if_neg hfits, List.append_nil, h.sent]

theorem Related.push (h : Matches l e) (hinv : e.Inv) (msg : Bytes) :
    ∃ ks e', Exchange.machine.exec e ks = some e' ∧ Matches (l.pushes msg) e' := by
  have hactive : l.server.context.isActive = true := h.server.isActive.symm.trans hinv.server_active
  obtain ⟨hgrows, -, hshort, hlong⟩ := h.server.sendData hactive msg
  have hpushed := filter_short_append l.pushed msg.data
  by_cases hfits : Short msg.data
  · have hwrites : e.server.outbound.writes <+: (e.server.insertRow msg).outbound.writes := by
      have hint : 5 + msg.length ≤ intMax := by
        unfold Short at hfits
        unfold intMax Bytes.length
        omega
      rw [HandlerContext.insertRow_eq hinv.server_active hint]
      simp
    refine ⟨[.push msg hfits], { e with
      server := e.server.insertRow msg, pushed := e.pushed ++ [msg.data] }, rfl, ?_⟩
    refine h.server_grows (hshort hfits) hgrows hwrites hinv.clientGot_le ?_
    rw [hpushed, if_pos hfits, h.pushed]
  · refine ⟨[], e, rfl, ?_⟩
    refine h.server_grows (hlong hfits) hgrows List.prefix_rfl hinv.clientGot_le ?_
    rw [hpushed, if_neg hfits, List.append_nil, h.pushed]

/-- The bytes read so far and the next `n` bytes. -/
theorem take_add_of_sent (src : HandlerContext) {read n : Nat}
    (hn : n ≤ (unread src read).length) (hread : read ≤ src.outbound.sent.flatten.length) :
    src.outbound.writes.flatten.take (read + n) =
        src.outbound.writes.flatten.take read ++ (unread src read).take n ∧
      read + n ≤ src.outbound.sent.flatten.length := by
  unfold unread at hn ⊢
  rw [List.length_drop] at hn
  refine ⟨?_, by omega⟩
  have hle : n ≤ (src.outbound.sent.flatten.drop read).length := by
    rw [List.length_drop]
    exact hn
  rw [List.take_add, Outbound.writes, List.flatten_append,
    List.drop_append_of_le_length (by omega), List.take_append_of_le_length hle]

theorem Related.serverReads (h : Matches l e) (hinv : e.Inv) {n : Nat}
    (hn : n ≤ (unread l.client.context l.serverRead).length) :
    ∃ ks e', Exchange.machine.exec e ks = some e' ∧ Matches { l with
      server := l.server.channelRead Side.server.handler
        ((unread l.client.context l.serverRead).take n)
      serverRead := l.serverRead + n } e' := by
  obtain ⟨htake, hle⟩ := take_add_of_sent l.client.context hn h.serverRead_le
  have hconsumed := h.toServer.channelRead Side.server.handler
    ((unread l.client.context l.serverRead).take n)
  rw [← htake, List.append_nil] at hconsumed
  have hrelated : Related { l with
      server := { l.server.channelRead Side.server.handler
        ((unread l.client.context l.serverRead).take n) with context := l.server.context }
      serverRead := l.serverRead + n } e _ [] :=
    { h with toServer := hconsumed, serverRead_le := hle }
  exact hrelated.fires_server hinv

theorem Related.clientReads (h : Matches l e) (hinv : e.Inv) {n : Nat}
    (hn : n ≤ (unread l.server.context l.clientRead).length) :
    ∃ ks e', Exchange.machine.exec e ks = some e' ∧ Matches { l with
      client := l.client.channelRead Side.client.handler
        ((unread l.server.context l.clientRead).take n)
      clientRead := l.clientRead + n } e' := by
  obtain ⟨htake, hle⟩ := take_add_of_sent l.server.context hn h.clientRead_le
  have hconsumed := h.toClient.channelRead Side.client.handler
    ((unread l.server.context l.clientRead).take n)
  rw [← htake, List.append_nil] at hconsumed
  have hrelated : Related { l with
      client := { l.client.channelRead Side.client.handler
        ((unread l.server.context l.clientRead).take n) with context := l.client.context }
      clientRead := l.clientRead + n } e [] _ :=
    { h with toClient := hconsumed, clientRead_le := hle }
  exact hrelated.fires_client hinv

/-- **The link refines the exchange.** -/
theorem link_refines : Machine.Refines machine Exchange.machine Matches where
  init := matches_initial
  step l a l' ks e he h hstep := by
    have hinv := Exchange.inv_reaches he
    cases a with
    | allIdle => exact Option.some.inj hstep ▸ Related.allIdle h hinv
    | sendData content => exact Option.some.inj hstep ▸ Related.sendData h hinv content
    | push msg => exact Option.some.inj hstep ▸ Related.push h hinv msg
    | serverReads n =>
      obtain ⟨hn, hstep⟩ := Option.ite_none_right_eq_some.1 hstep
      exact Option.some.inj hstep ▸ Related.serverReads h hinv hn
    | clientReads n =>
      obtain ⟨hn, hstep⟩ := Option.ite_none_right_eq_some.1 hstep
      exact Option.some.inj hstep ▸ Related.clientReads h hinv hn

/-- What the client has sent only grows. -/
theorem sent_step {a : Action} {l' : Link} (h : l.step a = some l') : l.sent <+: l'.sent := by
  cases a with
  | sendData content => exact Option.some.inj h ▸ List.prefix_append _ _
  | allIdle | push msg => exact Option.some.inj h ▸ List.prefix_rfl
  | serverReads n | clientReads n =>
    obtain ⟨-, h⟩ := Option.ite_none_right_eq_some.1 h
    exact Option.some.inj h ▸ List.prefix_rfl

/-! ## Conservation -/

theorem Agree.received {c c' : HandlerContext} (h : Agree c c') :
    Exchange.received c' = Exchange.received c ∧
      Exchange.pongsReceived c' = Exchange.pongsReceived c := by
  simp only [Exchange.received, Exchange.pongsReceived, h.handled, and_self]

/-- Only messages are too long. -/
theorem countType_filter {type : UInt8} (htype : type ≠ CUSTOM_MSG) {fs : List (List UInt8)}
    (hfs : ∀ f ∈ fs, Written f) :
    Exchange.countType type (fs.filter Fits) = Exchange.countType type fs := by
  rw [Exchange.countType, Exchange.countType, List.countP_filter]
  refine List.countP_congr ?_
  intro f hf
  obtain ⟨type', payload, rfl, -, hshort⟩ := hfs f hf
  simp only [frame_type, Option.some.injEq, Bool.and_eq_true, decide_eq_true_eq,
    and_iff_left_iff_imp]
  rintro rfl
  refine (fits_frame _ _).2 ?_
  rcases hshort with rfl | hcustom
  · exact Nat.zero_le _
  · exact absurd hcustom htype

/-- What the client has handled and is still to get merges the short pushes with the echoes. -/
theorem customs_toClient {as : List Action} (h : machine.Reaches as l) :
    Interleaving (l.pushed.filter Short) (Exchange.received l.server.context)
      (Exchange.received l.client.context ++ Exchange.customs l.toClient) := by
  obtain ⟨ks, e, he, hmatches⟩ := link_refines.reaches h
  have hclient : e.toClient = l.toClient := hmatches.toClient_eq
  have hmerge := (Exchange.inv_reaches he).customs_toClient
  rwa [hclient, hmatches.client.received.1, hmatches.server.received.1, hmatches.pushed] at hmerge

/-- What the server has handled and is still to get is what the client has sent, if it is short. -/
theorem customs_toServer {as : List Action} (h : machine.Reaches as l) :
    Exchange.received l.server.context ++ Exchange.customs l.toServer = l.sent.filter Short := by
  obtain ⟨ks, e, he, hmatches⟩ := link_refines.reaches h
  have hserver : e.toServer = l.toServer := hmatches.toServer_eq
  have hsent := (Exchange.inv_reaches he).customs_toServer
  rwa [hserver, hmatches.server.received.1, hmatches.sent] at hsent

/-- The client has written a ping each time its timer fired, and keeps nothing unflushed. -/
theorem pings_written {as : List Action} (h : machine.Reaches as l) :
    l.idles = Exchange.countType PING_MSG l.client.context.outbound.writes ∧
      l.client.context.outbound.pending = [] := by
  obtain ⟨ks, e, he, hmatches⟩ := link_refines.reaches h
  have hidles := (Exchange.inv_reaches he).idles
  rw [hmatches.client.writes, countType_filter (by decide) hmatches.client.format,
    hmatches.idles] at hidles
  exact ⟨hidles.symm, hmatches.flushed⟩

/-- **Conservation on the wire.** In every reachable state of a link, however the bytes have been
cut and whatever the size of the messages: the client has written a ping each time its timer fired,
and keeps nothing unflushed; each ping is in flight, or its pong is, or its pong has been handled;
what the client has handled and is still to get is a merge of the short pushes and of the echoes, in
order and unchanged; what the server has handled and is still to get is the short messages the
client has sent; and each decoder throws at most once for each frame that does not fit. -/
theorem link_conserved {as : List Action} (h : machine.Reaches as l) :
    l.idles = Exchange.countType PING_MSG l.client.context.outbound.writes ∧
      l.client.context.outbound.pending = [] ∧
      Exchange.countType PING_MSG l.client.context.outbound.writes =
        Exchange.countType PING_MSG l.toServer + Exchange.countType PONG_MSG l.toClient +
          Exchange.pongsReceived l.client.context ∧
      Interleaving (l.pushed.filter Short) (Exchange.received l.server.context)
        (Exchange.received l.client.context ++ Exchange.customs l.toClient) ∧
      Exchange.received l.server.context ++ Exchange.customs l.toServer = l.sent.filter Short ∧
      l.server.decoderErrors.length ≤ l.client.context.outbound.writes.countP (¬ Fits ·) ∧
      l.client.decoderErrors.length ≤ l.server.context.outbound.writes.countP (¬ Fits ·) := by
  obtain ⟨ks, e, he, hmatches⟩ := link_refines.reaches h
  have hinv := Exchange.inv_reaches he
  have hserver : e.toServer = l.toServer := hmatches.toServer_eq
  have hclient : e.toClient = l.toClient := hmatches.toClient_eq
  have hpings := hinv.pings
  rw [hserver, hclient, hmatches.client.writes,
    countType_filter (by decide) hmatches.client.format, hmatches.client.received.2] at hpings
  obtain ⟨hidles, hflushed⟩ := pings_written h
  exact ⟨hidles, hflushed, hpings, customs_toClient h, customs_toServer h,
    (hmatches.toServer.filter hmatches.client.format).2,
    (hmatches.toClient.filter hmatches.server.format).2⟩

/-- Two pings, the first cut inside its length field and the second unread, when four bytes of the
pong have been read. -/
theorem link_conserved_run :
    ∃ l, machine.Reaches [.allIdle, .serverReads 3, .serverReads 2, .clientReads 4, .allIdle] l ∧
      l.idles = 2 ∧
      l.idles = Exchange.countType PING_MSG l.toServer + Exchange.countType PONG_MSG l.toClient +
        Exchange.pongsReceived l.client.context ∧
      Exchange.countType PING_MSG l.toServer = 1 ∧ Exchange.countType PONG_MSG l.toClient = 1 := by
  have hrun : ∃ l,
      machine.Reaches [.allIdle, .serverReads 3, .serverReads 2, .clientReads 4, .allIdle] l ∧
        l.idles = 2 ∧ Exchange.countType PING_MSG l.toServer = 1 ∧
        Exchange.countType PONG_MSG l.toClient = 1 := ⟨_, rfl, by decide⟩
  obtain ⟨l, hl, hidles, hserver, hclient⟩ := hrun
  obtain ⟨hwritten, -, hpings, -⟩ := link_conserved hl
  exact ⟨l, hl, hidles, hwritten.trans hpings, hserver, hclient⟩

/-! ## A drained link -/

/-- The end has read all that the other has flushed, and its decoder holds no frame that it could
cut. -/
structure Drained (src : HandlerContext) (dst : Endpoint) (read : Nat) : Prop where
  read : read = src.outbound.sent.flatten.length
  cut : frames (dst.reader.scan frameDecoder.decode []).1 = []

/-- What is in flight to an end that has drained its stream has not been flushed. -/
theorem Drained.inFlight_eq {src : HandlerContext} {dst : Endpoint} {read : Nat}
    {got : List (List UInt8)} (h : Drained src dst read)
    (hconsumed : Consumed dst (src.outbound.writes.flatten.take read) got)
    (hformat : ∀ f ∈ src.outbound.writes, Written f) :
    inFlight src dst read = src.outbound.pending.filter Fits := by
  obtain ⟨done, hscan, -⟩ := hconsumed
  have hread := h.read
  have hflat : src.outbound.writes.flatten =
      src.outbound.sent.flatten ++ src.outbound.pending.flatten := by
    rw [Outbound.writes, List.flatten_append]
  rw [hflat, hread, List.take_left] at hscan
  have hsent := scan_flatten fun f hf => hformat f (List.mem_append_left _ hf)
  have hpending := scan_flatten fun f hf => hformat f (List.mem_append_right _ hf)
  have hnil := hscan []
  rw [List.append_nil, hsent] at hnil
  have hheld : src.outbound.sent.map item =
      done ++ (dst.reader.scan frameDecoder.decode []).1 := congrArg Prod.fst hnil
  have hlater := hscan src.outbound.pending.flatten
  rw [scan_append frameDecoder_stable, hsent, scan_initial, hpending, hheld] at hlater
  have hitems : done ++ (dst.reader.scan frameDecoder.decode []).1 ++
      src.outbound.pending.map item =
        done ++ (dst.reader.scan frameDecoder.decode src.outbound.pending.flatten).1 :=
    congrArg Prod.fst hlater
  rw [List.append_assoc] at hitems
  rw [inFlight, hflat, hread, List.drop_left, ← List.append_cancel_left hitems, frames_append,
    h.cut, List.nil_append, frames_map_item]

/-- Nothing is on its way to a server that has drained its stream. -/
theorem toServer_of_drained {as : List Action} (h : machine.Reaches as l)
    (hserver : Drained l.client.context l.server l.serverRead) : l.toServer = [] := by
  obtain ⟨ks, e, -, hmatches⟩ := link_refines.reaches h
  rw [toServer, hserver.inFlight_eq hmatches.toServer hmatches.client.format, hmatches.flushed]
  rfl

/-- A server that has drained its stream has handled all that is short. -/
theorem received_of_drained {as : List Action} (h : machine.Reaches as l)
    (hserver : Drained l.client.context l.server l.serverRead) :
    Exchange.received l.server.context = l.sent.filter Short := by
  have hsent := customs_toServer h
  rw [toServer_of_drained h hserver] at hsent
  simpa [Exchange.customs] using hsent

/-- A pong never waits in the buffer. -/
def NoPong (c : HandlerContext) : Prop := ∀ f ∈ c.outbound.pending, f[4]? ≠ some PONG_MSG

theorem NoPong.fire {c : HandlerContext} (h : NoPong c) (f : List UInt8) :
    NoPong (c.fire Side.server.handler f) := by
  by_cases hping : IsPing f
  · intro g hg
    rw [(fire_ping c hping).2.2] at hg
    cases hg
  · intro g hg
    rw [(fire_not_ping c hping).2.2] at hg
    rcases List.mem_append.1 hg with hg | hg
    · exact h g hg
    · unfold answers at hg
      split at hg
      · cases hg
      · rename_i type htype
        split_ifs at hg with hping' hpong
        · exact absurd (htype.trans (congrArg some hping')) hping
        · cases hg
        · obtain rfl := List.mem_singleton.1 hg
          rw [htype]
          exact fun heq => hpong (Option.some.inj heq)

theorem NoPong.insertRow {c : HandlerContext} (h : NoPong c) (msg : Bytes) :
    NoPong (c.insertRow msg) := by
  unfold HandlerContext.insertRow
  split_ifs with hactive
  · unfold TestServerController.insertRowEffects writeAndFlush
    cases TestServerController.insertRowBuf msg with
    | ok buf => exact fun f hf => by cases hf
    | error ex => exact h
  · exact h

theorem noPong_reaches {as : List Action} (h : machine.Reaches as l) : NoPong l.server.context := by
  refine Machine.invariant (M := machine) (I := fun l => NoPong l.server.context) ?_ ?_ h
  · exact fun f hf => by cases hf
  · intro l a l' hl hstep
    cases a with
    | allIdle | sendData content => exact Option.some.inj hstep ▸ hl
    | push msg => exact Option.some.inj hstep ▸ hl.insertRow msg
    | serverReads n =>
      obtain ⟨-, hstep⟩ := Option.ite_none_right_eq_some.1 hstep
      obtain rfl := Option.some.inj hstep
      exact List.foldlRecOn (motive := NoPong) _ _ hl fun c hc f _ => hc.fire f
    | clientReads n =>
      obtain ⟨-, hstep⟩ := Option.ite_none_right_eq_some.1 hstep
      exact Option.some.inj hstep ▸ hl

/-- **What a drained link has delivered.** When both ends have drained their streams, the client has
handled a pong for every ping, and so for every time its timer fired, the server has handled all the
short messages the client has sent, and the client has handled all the short pushes and all the
echoes but those that are pending in the server's buffer. -/
theorem link_drained {as : List Action} (h : machine.Reaches as l)
    (hserver : Drained l.client.context l.server l.serverRead)
    (hclient : Drained l.server.context l.client l.clientRead) :
    Exchange.pongsReceived l.client.context =
        Exchange.countType PING_MSG l.client.context.outbound.writes ∧
      Exchange.pongsReceived l.client.context = l.idles ∧
      Exchange.received l.server.context = l.sent.filter Short ∧
      Interleaving (l.pushed.filter Short) (l.sent.filter Short)
        (Exchange.received l.client.context ++
          Exchange.customs (l.server.context.outbound.pending.filter Fits)) := by
  obtain ⟨ks, e, he, hmatches⟩ := link_refines.reaches h
  have htoServer : e.toServer = [] := hmatches.toServer_eq.trans (toServer_of_drained h hserver)
  have hpending : l.toClient = l.server.context.outbound.pending.filter Fits :=
    hclient.inFlight_eq hmatches.toClient hmatches.server.format
  have htoClient : e.toClient = l.toClient := hmatches.toClient_eq
  have hpongs : Exchange.countType PONG_MSG (l.server.context.outbound.pending.filter Fits) = 0 :=
    List.countP_eq_zero.2 fun f hf => by
      simpa using noPong_reaches h f (List.mem_of_mem_filter hf)
  have hpings := (Exchange.inv_reaches he).pings
  have hall := received_of_drained h hserver
  have hcustoms := customs_toClient h
  rw [htoServer, htoClient, hpending, hpongs, hmatches.client.writes,
    countType_filter (by decide) hmatches.client.format, hmatches.client.received.2] at hpings
  rw [hpending, hall] at hcustoms
  have hanswered : Exchange.pongsReceived l.client.context =
      Exchange.countType PING_MSG l.client.context.outbound.writes := by
    simpa [Exchange.countType] using hpings.symm
  exact ⟨hanswered, hanswered.trans (pings_written h).1.symm, hall, hcustoms⟩

/-- A ping, when its pong has been read to the last byte, and a message whose echo is pending. -/
theorem link_drained_run :
    ∃ l, machine.Reaches [.allIdle, .sendData ⟨[97], by decide⟩, .serverReads 3, .serverReads 8,
        .clientReads 4, .clientReads 1] l ∧
      Exchange.pongsReceived l.client.context = 1 ∧
      Exchange.received l.server.context = [[97]] ∧
      Interleaving [] [[97]] (Exchange.received l.client.context ++
        Exchange.customs (l.server.context.outbound.pending.filter Fits)) ∧
      Exchange.received l.client.context = [] := by
  have hrun : ∃ l, machine.Reaches [.allIdle, .sendData ⟨[97], by decide⟩, .serverReads 3,
      .serverReads 8, .clientReads 4, .clientReads 1] l ∧
        Drained l.client.context l.server l.serverRead ∧
        Drained l.server.context l.client l.clientRead ∧
        l.idles = 1 ∧ l.pushed = [] ∧ l.sent = [[97]] ∧
        Exchange.received l.client.context = [] :=
    ⟨_, rfl, ⟨by decide, by decide⟩, ⟨by decide, by decide⟩, by decide⟩
  obtain ⟨l, hl, hserver, hclient, hidles, hpushed, hsent, hreceived⟩ := hrun
  obtain ⟨-, hpongs, hall, hmerge⟩ := link_drained hl hserver hclient
  rw [hpushed, hsent] at hmerge
  rw [hsent] at hall
  exact ⟨l, hl, hpongs.trans hidles, hall, hmerge, hreceived⟩

end Link

end MmtxSample
