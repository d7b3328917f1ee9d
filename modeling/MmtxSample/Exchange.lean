import MmtxSample.Endpoint
import MmtxSample.Lib.Interleaving
import MmtxSample.Lib.Machine

/-!
# The exchange between a client and the server

A `ClientHandler` and a `ServerHandler` at the two ends of a connection. What an end has written and
the other has not handled yet is in flight, flushed or not (`toServer`, `toClient`); a delivery
takes the head of either queue and runs `channelRead0` of the receiver on it. Besides deliveries
the client's idle timer, calls of `Client.sendData` and pushes happen, in any order.

The invariant `Inv` says what each end writes (the client pings and custom frames, the server pongs
and custom frames), that an end has handled exactly the frames delivered to it, and that the
server has answered them: one pong for each ping, one echo for each custom frame, between its
pushes. `exchange_conserved` reads the conservation laws off it. The measure `inFlight` counts a
frame to the server twice, so that a delivery lowers it although the server answers
(`inFlight_deliver`); `exchange_ends` is the bound on deliveries that follows.
-/

namespace MmtxSample

open Java Netty CustomHeartbeatHandler Framing TransitionSystem

/-- Both ends, how many frames each has been delivered, and for the record what has been pushed and
sent and how often the client's timer has fired. -/
structure Exchange where
  client : HandlerContext
  server : HandlerContext
  serverGot : Nat
  clientGot : Nat
  pushed : List (List UInt8)
  sent : List (List UInt8)
  idles : Nat

namespace Exchange

inductive Action
  | allIdle
  | sendData (content : Bytes) (le : content.length ≤ 1019)
  | push (msg : Bytes) (le : msg.length ≤ 1019)
  | deliverToServer
  | deliverToClient

def Action.IsDelivery : Action → Prop
  | deliverToServer | deliverToClient => True
  | _ => False

/-- The frames on their way to the server. -/
def toServer (s : Exchange) : List (List UInt8) := s.client.outbound.writes.drop s.serverGot

/-- The frames on their way to the client. -/
def toClient (s : Exchange) : List (List UInt8) := s.server.outbound.writes.drop s.clientGot

def initial : Exchange := ⟨HandlerContext.initial, HandlerContext.initial, 0, 0, [], [], 0⟩

def step (s : Exchange) : Action → Option Exchange
  | .allIdle => some { s with
      client := s.client.userEventTriggered Side.client.handler .allIdle
      idles := s.idles + 1 }
  | .sendData content _ => some { s with
      client := s.client.sendData content, sent := s.sent ++ [content.data] }
  | .push msg _ => some { s with
      server := s.server.insertRow msg, pushed := s.pushed ++ [msg.data] }
  | .deliverToServer =>
    match s.toServer with
    | [] => none
    | f :: _ => some { s with
        server := s.server.fire Side.server.handler f, serverGot := s.serverGot + 1 }
  | .deliverToClient =>
    match s.toClient with
    | [] => none
    | f :: _ => some { s with
        client := s.client.fire Side.client.handler f, clientGot := s.clientGot + 1 }

def machine : Machine Exchange Action := ⟨initial, step⟩

/-! ## What is counted -/

/-- How many of the frames have this type. -/
def countType (type : UInt8) (fs : List (List UInt8)) : Nat := fs.countP (·[4]? = some type)

/-- The payloads of the custom frames. -/
def customs (fs : List (List UInt8)) : List (List UInt8) :=
  fs.filterMap fun f => if f[4]? = some CUSTOM_MSG then some (f.drop 5) else none

/-- The payloads `handleData` has been given. -/
def received (c : HandlerContext) : List (List UInt8) :=
  c.handled.filterMap fun
    | .ok ⟨.handleData data, _, _⟩ => some data
    | _ => none

/-- How many pongs have been handled. -/
def pongsReceived (c : HandlerContext) : Nat :=
  c.handled.countP fun
    | .ok ⟨.getPong, _, _⟩ => true
    | _ => false

section
variable (fs : List (List UInt8)) (type : UInt8) (payload : List UInt8)

@[simp] theorem countType_append (gs : List (List UInt8)) :
    countType type (fs ++ gs) = countType type fs + countType type gs := by
  simp [countType]

@[simp] theorem customs_append (gs : List (List UInt8)) :
    customs (fs ++ gs) = customs fs ++ customs gs := by
  simp [customs]

@[simp] theorem countType_frame (type' : UInt8) :
    countType type [frame type' payload] = if type' = type then 1 else 0 := by
  simp [countType, frame_type, List.countP_cons]

@[simp] theorem customs_frame :
    customs [frame type payload] = if type = CUSTOM_MSG then [payload] else [] := by
  simp only [customs, List.filterMap_cons, frame_type, drop_frame, Option.some.injEq]
  split_ifs <;> rfl

end

/-! ## One frame handled -/

/-- The types a writer uses. -/
def Known (type : UInt8) : Prop := type = PING_MSG ∨ type = PONG_MSG ∨ type = CUSTOM_MSG

theorem received_fire (side : Side) (c : HandlerContext) {type : UInt8} (htype : Known type)
    (payload : List UInt8) :
    received (c.fire side.handler (frame type payload)) =
      received c ++ customs [frame type payload] := by
  rw [received, HandlerContext.fire_handled, List.filterMap_append, ← received,
    channelRead0_of_type side _ (frame_type type payload), customs_frame]
  rcases htype with rfl | rfl | rfl <;> simp [PING_MSG, PONG_MSG, CUSTOM_MSG]

theorem pongsReceived_fire (side : Side) (c : HandlerContext) (type : UInt8)
    (payload : List UInt8) :
    pongsReceived (c.fire side.handler (frame type payload)) =
      pongsReceived c + countType PONG_MSG [frame type payload] := by
  rw [pongsReceived, HandlerContext.fire_handled, List.countP_append, ← pongsReceived,
    channelRead0_of_type side _ (frame_type type payload), countType_frame]
  by_cases hping : type = PING_MSG
  · simp [hping, PING_MSG, PONG_MSG]
  · by_cases hpong : type = PONG_MSG
    · simp [hpong, PING_MSG, PONG_MSG]
    · simp [hping, hpong]

/-- A ping is answered by a pong, and a custom frame by the same payload. -/
theorem countType_answer {f : List UInt8} (hf : ClientFrame f) :
    countType PONG_MSG [answer f] = countType PING_MSG [f] ∧ customs [answer f] = customs [f] := by
  obtain ⟨type, payload, rfl, htype, -⟩ := hf
  rw [answer, frame_type]
  rcases htype with rfl | rfl
  · rw [if_pos rfl]
    simp [PING_MSG, PONG_MSG, CUSTOM_MSG]
  · rw [if_neg (by decide)]
    simp [PING_MSG, PONG_MSG, CUSTOM_MSG]

/-! ## The invariant -/

structure Inv (s : Exchange) : Prop where
  client_active : s.client.isActive = true
  server_active : s.server.isActive = true
  client_frames : ∀ f ∈ s.client.outbound.writes, ClientFrame f
  server_frames : ∀ f ∈ s.server.outbound.writes, ServerFrame f
  serverGot_le : s.serverGot ≤ s.client.outbound.writes.length
  clientGot_le : s.clientGot ≤ s.server.outbound.writes.length
  server_received : received s.server = customs (s.client.outbound.writes.take s.serverGot)
  client_received : received s.client = customs (s.server.outbound.writes.take s.clientGot)
  client_pongs :
    pongsReceived s.client = countType PONG_MSG (s.server.outbound.writes.take s.clientGot)
  answered : countType PONG_MSG s.server.outbound.writes =
    countType PING_MSG (s.client.outbound.writes.take s.serverGot)
  echoed : Interleaving s.pushed (received s.server) (customs s.server.outbound.writes)
  sent : s.sent = customs s.client.outbound.writes
  idles : countType PING_MSG s.client.outbound.writes = s.idles
  flushed : s.client.outbound.pending = []

theorem inv_initial : Inv initial where
  client_active := rfl
  server_active := rfl
  client_frames := by simp [initial, HandlerContext.initial, Outbound.empty, Outbound.writes]
  server_frames := by simp [initial, HandlerContext.initial, Outbound.empty, Outbound.writes]
  serverGot_le := Nat.zero_le _
  clientGot_le := Nat.zero_le _
  server_received := rfl
  client_received := rfl
  client_pongs := rfl
  answered := rfl
  echoed := .nil
  sent := rfl
  idles := rfl
  flushed := rfl

/-- The client writes and flushes one more frame. -/
theorem Inv.client_writes {s : Exchange} (h : Inv s) {c : HandlerContext} {f : List UInt8}
    {sent : List (List UInt8)} {idles : Nat} (hf : ClientFrame f)
    (hactive : c.isActive = s.client.isActive) (hhandled : c.handled = s.client.handled)
    (hout : c.outbound = s.client.outbound.writeAndFlush f)
    (hsent : sent = s.sent ++ customs [f]) (hidles : idles = s.idles + countType PING_MSG [f]) :
    Inv { s with client := c, sent := sent, idles := idles } := by
  have hwrites : c.outbound.writes = s.client.outbound.writes ++ [f] := by
    rw [hout, Outbound.writes_writeAndFlush]
  have htake : c.outbound.writes.take s.serverGot = s.client.outbound.writes.take s.serverGot := by
    rw [hwrites, List.take_append_of_le_length h.serverGot_le]
  have hlen := h.serverGot_le
  exact { h with
    client_active := hactive.trans h.client_active
    client_frames := fun g hg => by
      rcases List.mem_append.1 (hwrites ▸ hg) with hg | hg
      · exact h.client_frames g hg
      · exact List.mem_singleton.1 hg ▸ hf
    serverGot_le := by
      show s.serverGot ≤ c.outbound.writes.length
      rw [hwrites, List.length_append]
      omega
    server_received := h.server_received.trans (by rw [← htake])
    client_received := by
      show received c = _
      rw [received, hhandled, ← received, h.client_received]
    client_pongs := by
      show pongsReceived c = _
      rw [pongsReceived, hhandled, ← pongsReceived, h.client_pongs]
    answered := h.answered.trans (by rw [← htake])
    sent := by
      show sent = customs c.outbound.writes
      rw [hsent, hwrites, customs_append, h.sent]
    idles := by
      show countType PING_MSG c.outbound.writes = idles
      rw [hidles, hwrites, countType_append, h.idles]
    flushed := by
      show c.outbound.pending = []
      rw [hout, Outbound.pending_writeAndFlush] }

/-- The head of a queue is the next frame of the writes. -/
theorem take_succ_of_drop {α : Type*} {l rest : List α} {n : Nat} {x : α}
    (h : l.drop n = x :: rest) : l.take (n + 1) = l.take n ++ [x] ∧ n + 1 ≤ l.length ∧ x ∈ l := by
  have hlt : n < l.length := by
    by_contra hge
    rw [List.drop_eq_nil_of_le (by omega)] at h
    cases h
  have hx : l[n] = x := by
    rw [List.drop_eq_getElem_cons hlt] at h
    exact (List.cons.inj h).1
  exact ⟨by rw [List.take_succ_eq_append_getElem hlt, hx], hlt, hx ▸ List.getElem_mem hlt⟩

/-- The server writes one more frame, when it has been delivered `n` frames in all. -/
theorem Inv.server_writes {s : Exchange} (h : Inv s) {c : HandlerContext} {f : List UInt8}
    {n : Nat} {pushed : List (List UInt8)} (hf : ServerFrame f)
    (hactive : c.isActive = s.server.isActive)
    (hwrites : c.outbound.writes = s.server.outbound.writes ++ [f])
    (hn : n ≤ s.client.outbound.writes.length)
    (hreceived : received c = customs (s.client.outbound.writes.take n))
    (hanswered : countType PONG_MSG c.outbound.writes =
      countType PING_MSG (s.client.outbound.writes.take n))
    (hechoed : Interleaving pushed (received c) (customs c.outbound.writes)) :
    Inv { s with server := c, serverGot := n, pushed := pushed } := by
  have htake : c.outbound.writes.take s.clientGot = s.server.outbound.writes.take s.clientGot := by
    rw [hwrites, List.take_append_of_le_length h.clientGot_le]
  have hlen := h.clientGot_le
  exact { h with
    server_active := hactive.trans h.server_active
    server_frames := fun g hg => by
      rcases List.mem_append.1 (hwrites ▸ hg) with hg | hg
      · exact h.server_frames g hg
      · exact List.mem_singleton.1 hg ▸ hf
    serverGot_le := hn
    clientGot_le := by
      show s.clientGot ≤ c.outbound.writes.length
      rw [hwrites, List.length_append]
      omega
    server_received := hreceived
    client_received := h.client_received.trans (by rw [← htake])
    client_pongs := h.client_pongs.trans (by rw [← htake])
    answered := hanswered
    echoed := hechoed }

/-- What a delivery to the server does. -/
theorem step_deliverToServer {s t : Exchange} (h : s.step .deliverToServer = some t) :
    ∃ f rest, s.toServer = f :: rest ∧ t = { s with
      server := s.server.fire Side.server.handler f, serverGot := s.serverGot + 1 } := by
  cases hq : s.toServer with
  | nil => simp [step, hq] at h
  | cons f rest => exact ⟨f, rest, rfl, by simpa [step, hq] using h.symm⟩

/-- What a delivery to the client does. -/
theorem step_deliverToClient {s t : Exchange} (h : s.step .deliverToClient = some t) :
    ∃ f rest, s.toClient = f :: rest ∧ t = { s with
      client := s.client.fire Side.client.handler f, clientGot := s.clientGot + 1 } := by
  cases hq : s.toClient with
  | nil => simp [step, hq] at h
  | cons f rest => exact ⟨f, rest, rfl, by simpa [step, hq] using h.symm⟩

theorem Inv.deliverToServer {s t : Exchange} (h : Inv s)
    (hstep : s.step .deliverToServer = some t) : Inv t := by
  obtain ⟨f, rest, hq, rfl⟩ := step_deliverToServer hstep
  obtain ⟨htake, hlen, hmem⟩ := take_succ_of_drop hq
  have hf := h.client_frames f hmem
  have hwrites := HandlerContext.writes_fire_server s.server hf
  obtain ⟨hpong, hcustom⟩ := countType_answer hf
  have hserver := hf.answer
  obtain ⟨type, payload, rfl, htype, -⟩ := hf
  have hreceived := received_fire .server s.server
    (htype.elim Or.inl fun h => Or.inr (Or.inr h)) payload
  refine h.server_writes hserver (HandlerContext.isActive_fire .server s.server type payload)
    hwrites hlen ?_ ?_ ?_
  · rw [hreceived, htake, customs_append, h.server_received]
  · rw [hwrites, htake, countType_append, countType_append, h.answered, hpong]
  · rw [hreceived, hwrites, customs_append, hcustom]
    exact h.echoed.append_right _

theorem Inv.deliverToClient {s t : Exchange} (h : Inv s)
    (hstep : s.step .deliverToClient = some t) : Inv t := by
  obtain ⟨f, rest, hq, rfl⟩ := step_deliverToClient hstep
  obtain ⟨htake, hlen, hmem⟩ := take_succ_of_drop hq
  have hf := h.server_frames f hmem
  have hout := HandlerContext.outbound_fire_client s.client hf
  have hwrites : (s.client.fire Side.client.handler f).outbound.writes =
      s.client.outbound.writes := congrArg _ hout
  obtain ⟨type, payload, rfl, htype, -⟩ := hf
  exact {
    client_active :=
      (HandlerContext.isActive_fire .client s.client type payload).trans h.client_active
    server_active := h.server_active
    client_frames := fun g hg => h.client_frames g (hwrites ▸ hg)
    server_frames := h.server_frames
    serverGot_le := by
      show s.serverGot ≤ List.length (Outbound.writes _)
      rw [hwrites]
      exact h.serverGot_le
    clientGot_le := hlen
    server_received := by
      show _ = customs (List.take _ (Outbound.writes _))
      rw [hwrites]
      exact h.server_received
    client_received := by
      show received (s.client.fire _ _) = customs (List.take (s.clientGot + 1) _)
      rw [received_fire .client s.client (Or.inr htype) payload, htake, customs_append,
        h.client_received]
    client_pongs := by
      show pongsReceived (s.client.fire _ _) = countType _ (List.take (s.clientGot + 1) _)
      rw [pongsReceived_fire, htake, countType_append, h.client_pongs]
    answered := by
      show _ = countType _ (List.take _ (Outbound.writes _))
      rw [hwrites]
      exact h.answered
    echoed := h.echoed
    sent := by
      show _ = customs (Outbound.writes _)
      rw [hwrites]
      exact h.sent
    idles := by
      show countType _ (Outbound.writes _) = _
      rw [hwrites]
      exact h.idles
    flushed := by
      show Outbound.pending (HandlerContext.outbound _) = []
      rw [hout]
      exact h.flushed }

theorem Inv.step {s t : Exchange} {a : Action} (h : Inv s) (hstep : s.step a = some t) :
    Inv t := by
  cases a with
  | allIdle =>
    obtain rfl := Option.some.inj hstep
    rw [HandlerContext.userEventTriggered_allIdle]
    exact h.client_writes ⟨PING_MSG, [], rfl, Or.inl rfl, by decide⟩ rfl rfl rfl
      (by simp [PING_MSG, CUSTOM_MSG]) (by simp)
  | sendData content le =>
    obtain rfl := Option.some.inj hstep
    have hint : 5 + content.length ≤ intMax := by unfold intMax; omega
    rw [HandlerContext.sendData_eq h.client_active hint]
    exact h.client_writes ⟨CUSTOM_MSG, content.data, rfl, Or.inr rfl, hint⟩ rfl rfl rfl
      (by simp) (by simp [PING_MSG, CUSTOM_MSG])
  | push msg le =>
    obtain rfl := Option.some.inj hstep
    have hint : 5 + msg.length ≤ intMax := by unfold intMax; omega
    rw [HandlerContext.insertRow_eq h.server_active hint]
    refine h.server_writes ⟨CUSTOM_MSG, msg.data, rfl, Or.inr rfl, hint⟩ rfl (by simp)
      h.serverGot_le h.server_received ?_ ?_
    · simp [h.answered, show CUSTOM_MSG ≠ PONG_MSG by decide]
    · have hcustoms : customs (s.server.outbound.writes ++ [frame CUSTOM_MSG msg.data]) =
          customs s.server.outbound.writes ++ [msg.data] := by simp
      simpa [received] using hcustoms ▸ h.echoed.append_left [msg.data]
  | deliverToServer => exact h.deliverToServer hstep
  | deliverToClient => exact h.deliverToClient hstep

theorem inv_reaches {as : List Action} {s : Exchange} (h : machine.Reaches as s) : Inv s :=
  Machine.invariant (M := machine) inv_initial (fun _ _ _ hs hstep => hs.step hstep) h

/-! ## Conservation -/

/-- No ping is on its way to the client. -/
theorem Inv.toClient_ne_ping {s : Exchange} (h : Inv s) :
    ∀ f ∈ s.toClient, f[4]? ≠ some PING_MSG := by
  intro f hf
  obtain ⟨type, payload, rfl, htype, -⟩ := h.server_frames f (List.mem_of_mem_drop hf)
  rw [frame_type]
  rcases htype with rfl | rfl <;> decide

/-- No pong is on its way to the server. -/
theorem Inv.toServer_ne_pong {s : Exchange} (h : Inv s) :
    ∀ f ∈ s.toServer, f[4]? ≠ some PONG_MSG := by
  intro f hf
  obtain ⟨type, payload, rfl, htype, -⟩ := h.client_frames f (List.mem_of_mem_drop hf)
  rw [frame_type]
  rcases htype with rfl | rfl <;> decide

/-- Each ping is on its way, or its pong is, or its pong has been handled. -/
theorem Inv.pings {s : Exchange} (h : Inv s) :
    countType PING_MSG s.client.outbound.writes =
      countType PING_MSG s.toServer + countType PONG_MSG s.toClient + pongsReceived s.client := by
  have hclient : countType PING_MSG s.client.outbound.writes =
      countType PING_MSG (s.client.outbound.writes.take s.serverGot) +
        countType PING_MSG s.toServer := by
    rw [← countType_append, toServer, List.take_append_drop]
  have hserver : countType PONG_MSG s.server.outbound.writes =
      countType PONG_MSG (s.server.outbound.writes.take s.clientGot) +
        countType PONG_MSG s.toClient := by
    rw [← countType_append, toClient, List.take_append_drop]
  rw [hclient, ← h.answered, hserver, h.client_pongs]
  omega

/-- What the client has handled and is still to get merges the pushes with the echoes. -/
theorem Inv.customs_toClient {s : Exchange} (h : Inv s) :
    Interleaving s.pushed (received s.server) (received s.client ++ customs s.toClient) := by
  rw [h.client_received, ← customs_append, toClient, List.take_append_drop]
  exact h.echoed

/-- What the server has handled and is still to get is what the client has sent. -/
theorem Inv.customs_toServer {s : Exchange} (h : Inv s) :
    received s.server ++ customs s.toServer = s.sent := by
  rw [h.server_received, ← customs_append, toServer, List.take_append_drop, h.sent]

/-! ## Quiescence -/

/-- The frames in flight, those to the server counted twice. -/
def inFlight (s : Exchange) : Nat := 2 * s.toServer.length + s.toClient.length

/-- A delivery lowers the measure: the server answers a frame with one frame, the client with
none. -/
theorem inFlight_deliver {s t : Exchange} {a : Action} (h : Inv s) (ha : a.IsDelivery)
    (hstep : s.step a = some t) : t.inFlight < s.inFlight := by
  cases a with
  | deliverToServer =>
    obtain ⟨f, rest, hq, rfl⟩ := step_deliverToServer hstep
    obtain ⟨-, hlen, hmem⟩ := take_succ_of_drop hq
    have hwrites := HandlerContext.writes_fire_server s.server (h.client_frames f hmem)
    have hclient := h.clientGot_le
    simp only [inFlight, toServer, toClient, List.length_drop, hwrites, List.length_append,
      List.length_singleton]
    omega
  | deliverToClient =>
    obtain ⟨f, rest, hq, rfl⟩ := step_deliverToClient hstep
    obtain ⟨-, hlen, hmem⟩ := take_succ_of_drop hq
    simp only [inFlight, toServer, toClient, List.length_drop,
      HandlerContext.outbound_fire_client s.client (h.server_frames f hmem)]
    omega
  | _ => cases ha

/-- Deliveries alone come to an end: there are no more of them than the measure says. -/
theorem exchange_ends {s t : Exchange} {as : List Action} (h : Inv s)
    (has : ∀ a ∈ as, a.IsDelivery) (hexec : machine.exec s as = some t) :
    as.length + t.inFlight ≤ s.inFlight := by
  induction as generalizing s with
  | nil =>
    obtain rfl := Option.some.inj hexec
    simp
  | cons a as ih =>
    obtain ⟨u, hstep, hexec⟩ := Machine.exec_cons_eq_some.1 hexec
    have hlt := inFlight_deliver h (has a List.mem_cons_self) hstep
    have hle := ih (h.step hstep) (fun b hb => has b (List.mem_cons_of_mem _ hb)) hexec
    simp only [List.length_cons]
    omega

/-- Where no delivery is possible, nothing is in flight. -/
theorem quiescent {s : Exchange} (h : ∀ a, a.IsDelivery → s.step a = none) :
    s.toServer = [] ∧ s.toClient = [] := by
  constructor
  · cases hq : s.toServer with
    | nil => rfl
    | cons f rest => simpa [step, hq] using h .deliverToServer trivial
  · cases hq : s.toClient with
    | nil => rfl
    | cons f rest => simpa [step, hq] using h .deliverToClient trivial

/-- **Conservation and quiescence.** In every reachable state: no ping is on its way to the client
and no pong to the server; the client has written a ping each time its timer fired, and keeps
nothing unflushed; each ping is on its way, or its pong is, or its pong has been handled; what the
client has handled and is still to get is a merge of the pushes and of the echoes, in order and
unchanged, and what the server has handled and is still to get is what the client has sent; a
delivery lowers the measure, so that deliveries alone come to an end, and they end with nothing in
flight. -/
theorem exchange_conserved {as : List Action} {s : Exchange} (h : machine.Reaches as s) :
    (∀ f ∈ s.toClient, f[4]? ≠ some PING_MSG) ∧
    (∀ f ∈ s.toServer, f[4]? ≠ some PONG_MSG) ∧
    s.idles = countType PING_MSG s.client.outbound.writes ∧
    s.client.outbound.pending = [] ∧
    countType PING_MSG s.client.outbound.writes =
      countType PING_MSG s.toServer + countType PONG_MSG s.toClient + pongsReceived s.client ∧
    Interleaving s.pushed (received s.server) (received s.client ++ customs s.toClient) ∧
    received s.server ++ customs s.toServer = s.sent ∧
    (∀ a t, a.IsDelivery → s.step a = some t → t.inFlight < s.inFlight) ∧
    (∀ ds t, (∀ d ∈ ds, d.IsDelivery) → machine.exec s ds = some t →
      ds.length + t.inFlight ≤ s.inFlight ∧
      ((∀ a, a.IsDelivery → t.step a = none) → t.toServer = [] ∧ t.toClient = [])) := by
  have hinv := inv_reaches h
  exact ⟨hinv.toClient_ne_ping, hinv.toServer_ne_pong, hinv.idles.symm, hinv.flushed, hinv.pings,
    hinv.customs_toClient, hinv.customs_toServer, fun a t => inFlight_deliver hinv,
    fun ds t hds hexec => ⟨exchange_ends hinv hds hexec, quiescent⟩⟩

/-- Two pings, of which one has been answered, a message of the client that is on its way, and a
push that its client has handled before the pong. -/
theorem exchange_conserved_run :
    ∃ s, machine.Reaches [.allIdle, .push ⟨[97], by decide⟩ (by decide), .deliverToServer,
        .deliverToClient, .sendData ⟨[98], by decide⟩ (by decide), .allIdle] s ∧
      s.idles = 2 ∧
      s.idles = countType PING_MSG s.toServer + countType PONG_MSG s.toClient +
        pongsReceived s.client ∧
      countType PING_MSG s.toServer = 1 ∧ countType PONG_MSG s.toClient = 1 ∧
      received s.client ++ customs s.toClient = [[97]] ∧
      received s.server ++ customs s.toServer = [[98]] := by
  have hrun : ∃ s, machine.Reaches [.allIdle, .push ⟨[97], by decide⟩ (by decide),
      .deliverToServer, .deliverToClient, .sendData ⟨[98], by decide⟩ (by decide), .allIdle] s ∧
      s.idles = 2 ∧ s.sent = [[98]] ∧ countType PING_MSG s.toServer = 1 ∧
      countType PONG_MSG s.toClient = 1 ∧ received s.client ++ customs s.toClient = [[97]] :=
    ⟨_, rfl, by decide⟩
  obtain ⟨s, hs, hidles, hsent, hserver, hclient, hreceived⟩ := hrun
  obtain ⟨-, -, hwritten, -, hpings, -, hall, -⟩ := exchange_conserved hs
  exact ⟨s, hs, hidles, hwritten.trans hpings, hserver, hclient, hreceived, hall.trans hsent⟩

end Exchange

end MmtxSample
