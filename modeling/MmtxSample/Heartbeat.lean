import MmtxSample.Endpoint
import MmtxSample.Lib.KeepAlive

/-!
# The heartbeat

A client and the server with the idle handlers of their pipelines: the client pings when its channel
has been silent for 5 seconds, and the server closes a channel on which it has read nothing for 10.
The link delivers at once: whatever an action makes an end flush is read by the other end, and what
that end flushes in turn, before time passes (`deliver`).

The client's clock is restarted by reads too, so a push, which the client reads, puts off its ping,
and the server's clock does not notice. `simulates` shows that nothing else happens between the two
ends: the system is the two-clock machine of `KeepAlive`, where a push is a touch and `sendData` a
word of the speaker. `kept_alive_iff` is the verdict: the server reaches `handleReaderIdle` in no
state of a run exactly when each push that comes 5 seconds or more after the server's last read is
followed by a `sendData` before 10 have passed.
-/

namespace MmtxSample

open Java Netty CustomHeartbeatHandler Framing TransitionSystem

/-- One end with the idle handler of its pipeline, and how many frames of the other end it has
read. -/
structure Peer where
  endpoint : Endpoint
  idle : IdleStateHandler
  got : Nat

namespace Peer

def outbound (p : Peer) : Outbound (List UInt8) := p.endpoint.context.outbound

def isActive (p : Peer) : Bool := p.endpoint.context.isActive

/-- What the endpoint has become. If that flushed anything, a write is complete. -/
def update (p : Peer) (now : Nat) (e : Endpoint) : Peer :=
  { p with
    endpoint := e
    idle := if p.outbound.sent.length < e.context.outbound.sent.length then
        p.idle.writeComplete now
      else p.idle }

/-- A handler call or another thread uses the channel. -/
def act (p : Peer) (now : Nat) (f : HandlerContext → HandlerContext) : Peer :=
  p.update now { p.endpoint with context := f p.endpoint.context }

/-- The end reads frames of the other end, if there are any. -/
def reads (side : Side) (p : Peer) (now : Nat) (fs : List (List UInt8)) : Peer :=
  if fs = [] then p
  else
    { p with idle := p.idle.channelRead now, got := p.got + fs.length }.update now
      (p.endpoint.channelReads side.handler fs)

end Peer

/-- Both ends, and the time in nanoseconds. -/
structure Heartbeat where
  now : Nat
  client : Peer
  server : Peer

namespace Heartbeat

inductive Action
  | wait (d : Nat)
  | push (msg : Bytes)
  | sendData (content : Bytes)
  | idle (side : Side) (event : IdleState)

def initial : Heartbeat where
  now := 0
  client := ⟨Endpoint.initial, .ofSeconds 0 0 5, 0⟩
  server := ⟨Endpoint.initial, .ofSeconds 10 0 0, 0⟩

/-- What the client has flushed and the server has not read. -/
def toServer (s : Heartbeat) : List (List UInt8) := s.client.outbound.sent.drop s.server.got

/-- What the server has flushed and the client has not read. -/
def toClient (s : Heartbeat) : List (List UInt8) := s.server.outbound.sent.drop s.client.got

def deliverToServer (s : Heartbeat) : Heartbeat :=
  { s with server := s.server.reads .server s.now s.toServer }

def deliverToClient (s : Heartbeat) : Heartbeat :=
  { s with client := s.client.reads .client s.now s.toClient }

/-- Deliver what is in flight, and what comes back (`Wired.deliver`: then nothing is in flight). -/
def deliver (s : Heartbeat) : Heartbeat := s.deliverToServer.deliverToClient.deliverToServer

/-- Time passes only up to the next event of an idle handler. Once the server has closed the
channel nothing happens on it. -/
def step (s : Heartbeat) (a : Action) : Option Heartbeat :=
  if s.server.isActive then
    match a with
    | .wait d =>
      if s.client.idle.quietUntil (s.now + d) ∧ s.server.idle.quietUntil (s.now + d) then
        some { s with now := s.now + d }
      else none
    | .push msg => some (deliver { s with server := s.server.act s.now (·.insertRow msg) })
    | .sendData content =>
      some (deliver { s with client := s.client.act s.now (·.sendData content) })
    | .idle .client event =>
      if s.client.idle.due s.now event then
        some (deliver { s with
          client := s.client.act s.now (·.userEventTriggered clientHandler event) })
      else none
    | .idle .server event =>
      if s.server.idle.due s.now event then
        some (deliver { s with
          server := s.server.act s.now (·.userEventTriggered serverHandler event) })
      else none
  else none

def machine : Machine Heartbeat Action := ⟨initial, step⟩

/-! ## Delivery -/

/-- What holds of the two ends, also while something is in flight. -/
structure Wired (s : Heartbeat) : Prop where
  client_reader : s.client.endpoint.reader = Reader.empty
  server_reader : s.server.endpoint.reader = Reader.empty
  client_idle : s.client.idle.settings = (0, 0, seconds 5)
  server_idle : s.server.idle.settings = (seconds 10, 0, 0)
  client_active : s.client.isActive = true
  client_pending : s.client.outbound.pending = []
  lastReadTime_le : s.client.idle.lastReadTime ≤ s.now
  lastWriteTime_le : s.client.idle.lastWriteTime ≤ s.now
  server_got : s.server.got ≤ s.client.outbound.sent.length
  client_got : s.client.got ≤ s.server.outbound.sent.length
  client_frames : ∀ f ∈ s.toServer, ClientFrame f
  server_frames : ∀ f ∈ s.server.outbound.writes.drop s.client.got, ServerFrame f

theorem Peer.update_settings (p : Peer) (now : Nat) (e : Endpoint) :
    (p.update now e).idle.settings = p.idle.settings := by
  unfold Peer.update
  dsimp only
  split <;> rfl

theorem Peer.update_lastReadTime (p : Peer) (now : Nat) (e : Endpoint) :
    (p.update now e).idle.lastReadTime = p.idle.lastReadTime := by
  unfold Peer.update
  dsimp only
  split <;> rfl

theorem deliverToServer_eq_self {s : Heartbeat} (h : s.toServer = []) : s.deliverToServer = s := by
  rw [deliverToServer, h, Peer.reads, if_pos rfl]

theorem deliverToClient_eq_self {s : Heartbeat} (h : s.toClient = []) : s.deliverToClient = s := by
  rw [deliverToClient, h, Peer.reads, if_pos rfl]

/-- The server reads what is in flight to it. -/
theorem Wired.deliverToServer {s : Heartbeat} (h : Wired s) :
    Wired s.deliverToServer ∧ s.deliverToServer.toServer = [] ∧
      s.deliverToServer.server.isActive = s.server.isActive ∧
      s.deliverToServer.server.idle.lastReadTime =
        if s.toServer = [] then s.server.idle.lastReadTime else s.now := by
  by_cases hq : s.toServer = []
  · rw [deliverToServer_eq_self hq, if_pos hq]
    exact ⟨h, hq, rfl, rfl⟩
  · obtain ⟨hreader, hactive, hsent, answers, hanswers, hwrites⟩ :=
      Endpoint.channelReads_server h.server_reader h.client_frames
    have hlen : s.server.got + s.toServer.length = s.client.outbound.sent.length := by
      have hgot := h.server_got
      rw [toServer, List.length_drop]
      omega
    have hserver : s.deliverToServer = { s with
        server := { s.server with
          idle := s.server.idle.channelRead s.now
          got := s.server.got + s.toServer.length }.update s.now
            (s.server.endpoint.channelReads Side.server.handler s.toServer) } := by
      rw [Heartbeat.deliverToServer, Peer.reads, if_neg hq]
    have hnone : s.deliverToServer.toServer = [] := by
      rw [hserver]
      exact List.drop_eq_nil_of_le hlen.ge
    refine ⟨?_, hnone, by rw [hserver]; exact hactive, ?_⟩
    · rw [hserver] at hnone ⊢
      exact { h with
        server_reader := hreader
        server_idle := (Peer.update_settings _ _ _).trans h.server_idle
        server_got := hlen.le
        client_got := h.client_got.trans hsent
        client_frames := by simp [hnone]
        server_frames := by
          intro f hf
          have hgot : s.client.got ≤ s.server.endpoint.context.outbound.writes.length :=
            h.client_got.trans (by simp [Outbound.writes, Peer.outbound])
          have hf : f ∈ (s.server.endpoint.channelReads Side.server.handler
              s.toServer).context.outbound.writes.drop s.client.got := hf
          rw [hwrites, List.drop_append_of_le_length hgot] at hf
          exact (List.mem_append.1 hf).elim (h.server_frames f) (hanswers f) }
    · rw [hserver, if_neg hq]
      exact Peer.update_lastReadTime _ _ _

/-- The client reads what is in flight to it, and writes nothing. -/
theorem Wired.deliverToClient {s : Heartbeat} (h : Wired s) :
    Wired s.deliverToClient ∧ s.deliverToClient.toClient = [] ∧
      s.deliverToClient.toServer = s.toServer ∧
      s.deliverToClient.client.idle.lastWriteTime = s.client.idle.lastWriteTime ∧
      s.deliverToClient.client.idle.lastReadTime =
        if s.toClient = [] then s.client.idle.lastReadTime else s.now := by
  by_cases hq : s.toClient = []
  · rw [deliverToClient_eq_self hq, if_pos hq]
    exact ⟨h, hq, rfl, rfl, rfl⟩
  · have hframes : ∀ f ∈ s.toClient, ServerFrame f := by
      intro f hf
      refine h.server_frames f ?_
      rw [Outbound.writes, List.drop_append_of_le_length h.client_got]
      exact List.mem_append_left _ hf
    obtain ⟨hreader, hout, hactive⟩ := Endpoint.channelReads_client h.client_reader hframes
    have hlen : s.client.got + s.toClient.length = s.server.outbound.sent.length := by
      have hgot := h.client_got
      rw [toClient, List.length_drop]
      omega
    have hclient : s.deliverToClient = { s with
        client := {
          endpoint := s.client.endpoint.channelReads Side.client.handler s.toClient
          idle := s.client.idle.channelRead s.now
          got := s.client.got + s.toClient.length } } := by
      rw [Heartbeat.deliverToClient, Peer.reads, if_neg hq, Peer.update, if_neg]
      rw [hout]
      exact Nat.lt_irrefl _
    have hnone : s.deliverToClient.toClient = [] := by
      rw [hclient]
      exact List.drop_eq_nil_of_le hlen.ge
    have htoServer : s.deliverToClient.toServer = s.toServer := by
      rw [hclient]
      show List.drop s.server.got (Outbound.sent (HandlerContext.outbound (Endpoint.context _))) = _
      rw [hout]
      rfl
    refine ⟨?_, hnone, htoServer, by rw [hclient]; rfl, by rw [hclient, if_neg hq]; rfl⟩
    rw [hclient] at hnone htoServer ⊢
    exact { h with
      client_reader := hreader
      client_idle := h.client_idle
      client_active := hactive.trans h.client_active
      client_pending := (congrArg Outbound.pending hout).trans h.client_pending
      lastReadTime_le := Nat.le_refl _
      lastWriteTime_le := h.lastWriteTime_le
      server_got := h.server_got.trans_eq (congrArg (List.length ∘ Outbound.sent) hout).symm
      client_got := hlen.le
      client_frames := htoServer ▸ h.client_frames
      server_frames := by
        intro f hf
        refine h.server_frames f (List.mem_of_mem_drop (i := s.toClient.length) ?_)
        rwa [List.drop_drop] }

/-- Once everything is delivered, the server has read at this moment if anything was in flight to
it, and the client if anything was in flight to it then. -/
theorem Wired.deliver {s : Heartbeat} (h : Wired s) :
    Wired s.deliver ∧ s.deliver.toServer = [] ∧ s.deliver.toClient = [] ∧
      s.deliver.server.isActive = s.server.isActive ∧
      s.deliver.server.idle.lastReadTime =
        (if s.toServer = [] then s.server.idle.lastReadTime else s.now) ∧
      s.deliver.client.idle.lastWriteTime = s.client.idle.lastWriteTime ∧
      s.deliver.client.idle.lastReadTime =
        if s.deliverToServer.toClient = [] then s.client.idle.lastReadTime else s.now := by
  obtain ⟨h₁, hserver₁, hactive₁, hread₁⟩ := h.deliverToServer
  obtain ⟨h₂, hclient₂, hserver₂, hwrite₂, hread₂⟩ := h₁.deliverToClient
  have hsame : s.deliver = s.deliverToServer.deliverToClient :=
    deliverToServer_eq_self (hserver₂.trans hserver₁)
  rw [hsame]
  exact ⟨h₂, hserver₂.trans hserver₁, hclient₂, hactive₁, hread₁, hwrite₂, hread₂⟩

/-! ## The two clocks -/

/-- The state between two actions: nothing is in flight, and the server has closed the channel only
when its time was up. -/
structure Settled (s : Heartbeat) : Prop where
  wired : Wired s
  toServer : s.toServer = []
  toClient : s.toClient = []
  closed : s.server.isActive = false → s.server.idle.lastReadTime + seconds 10 ≤ s.now

/-- The clocks of the two idle handlers. -/
def clocks (s : Heartbeat) : KeepAlive.Clocks where
  now := s.now
  touched := max s.client.idle.lastReadTime s.client.idle.lastWriteTime
  heard := s.server.idle.lastReadTime

/-- What an action is to the clocks. A message too long for its writer is not sent. -/
def Action.event : Action → KeepAlive.Event
  | wait d => .wait d
  | push msg => if 5 + msg.length ≤ intMax then .touch else .skip
  | sendData content => if 5 + content.length ≤ intMax then .speak else .skip
  | idle .client _ => .idle
  | idle .server _ => .expire

/-- The machine of the two clocks: the client pings after 5 seconds, the server waits for 10. -/
def clockMachine : Machine KeepAlive.Clocks KeepAlive.Event :=
  KeepAlive.machine (seconds 5) (seconds 10)

theorem settled_initial : Settled initial where
  wired := {
    client_reader := rfl
    server_reader := rfl
    client_idle := rfl
    server_idle := rfl
    client_active := rfl
    client_pending := rfl
    lastReadTime_le := Nat.le_refl _
    lastWriteTime_le := Nat.le_refl _
    server_got := Nat.le_refl _
    client_got := Nat.le_refl _
    client_frames := by simp [toServer, initial, Endpoint.initial, HandlerContext.initial,
      Outbound.empty, Peer.outbound]
    server_frames := by simp [initial, Endpoint.initial, HandlerContext.initial,
      Outbound.empty, Outbound.writes, Peer.outbound] }
  toServer := rfl
  toClient := rfl
  closed := by simp [initial, Endpoint.initial, HandlerContext.initial, Peer.isActive]

/-! ## One action -/

theorem Peer.act_eq_self {p : Peer} {now : Nat} {f : HandlerContext → HandlerContext}
    (h : f p.endpoint.context = p.endpoint.context) : p.act now f = p := by
  have hsame : p.act now f = p.update now p.endpoint := by rw [Peer.act, h]
  have hlt : ¬ p.outbound.sent.length < p.endpoint.context.outbound.sent.length := Nat.lt_irrefl _
  rw [hsame, Peer.update, if_neg hlt]

theorem deliver_eq_self {s : Heartbeat} (hserver : s.toServer = []) (hclient : s.toClient = []) :
    s.deliver = s := by
  rw [deliver, deliverToServer_eq_self hserver, deliverToClient_eq_self hclient,
    deliverToServer_eq_self hserver]

/-- Something at the server writes frames of the server. -/
theorem Wired.server_act {s : Heartbeat} (h : Wired s) (f : HandlerContext → HandlerContext)
    (fs : List (List UInt8)) (hfs : ∀ g ∈ fs, ServerFrame g)
    (hwrites : (f s.server.endpoint.context).outbound.writes = s.server.outbound.writes ++ fs)
    (hsent : s.server.outbound.sent.length ≤ (f s.server.endpoint.context).outbound.sent.length) :
    Wired { s with server := s.server.act s.now f } :=
  { h with
    server_reader := h.server_reader
    server_idle := (Peer.update_settings _ _ _).trans h.server_idle
    client_got := h.client_got.trans hsent
    server_frames := by
      intro g hg
      have hgot : s.client.got ≤ s.server.outbound.writes.length :=
        h.client_got.trans (by simp [Outbound.writes])
      have hg : g ∈ (f s.server.endpoint.context).outbound.writes.drop s.client.got := hg
      rw [hwrites, List.drop_append_of_le_length hgot] at hg
      exact (List.mem_append.1 hg).elim (h.server_frames g) (hfs g) }

/-- Something at the client writes and flushes a frame of the client. -/
theorem Wired.client_act {s : Heartbeat} (h : Wired s) (hq : s.toServer = [])
    (f : HandlerContext → HandlerContext) {g : List UInt8} (hg : ClientFrame g)
    (hactive : (f s.client.endpoint.context).isActive = true)
    (hout : (f s.client.endpoint.context).outbound = s.client.outbound.writeAndFlush g) :
    Wired { s with client := s.client.act s.now f } ∧
      ({ s with client := s.client.act s.now f } : Heartbeat).toServer = [g] ∧
      (s.client.act s.now f).idle.lastWriteTime = s.now := by
  have hsent : (f s.client.endpoint.context).outbound.sent = s.client.outbound.sent ++ [g] := by
    rw [hout, Outbound.sent_writeAndFlush, Outbound.writes, h.client_pending, List.append_nil]
  have hgot : s.server.got = s.client.outbound.sent.length :=
    Nat.le_antisymm h.server_got (List.drop_eq_nil_iff.1 hq)
  have hdrop : ({ s with client := s.client.act s.now f } : Heartbeat).toServer = [g] := by
    show List.drop s.server.got (f s.client.endpoint.context).outbound.sent = [g]
    rw [hsent, hgot, List.drop_left]
  have hidle : (s.client.act s.now f).idle = s.client.idle.writeComplete s.now := by
    have hlt : s.client.outbound.sent.length <
        (f s.client.endpoint.context).outbound.sent.length := by rw [hsent]; simp
    exact if_pos hlt
  refine ⟨?_, hdrop, by rw [hidle]; rfl⟩
  exact { h with
    client_reader := h.client_reader
    client_idle := by
      show (s.client.act s.now f).idle.settings = _
      rw [hidle]
      exact h.client_idle
    client_active := hactive
    client_pending := by
      show (f s.client.endpoint.context).outbound.pending = []
      rw [hout, Outbound.pending_writeAndFlush]
    lastReadTime_le := by
      show (s.client.act s.now f).idle.lastReadTime ≤ s.now
      rw [hidle]
      exact h.lastReadTime_le
    lastWriteTime_le := by
      show (s.client.act s.now f).idle.lastWriteTime ≤ s.now
      rw [hidle]
      exact Nat.le_refl _
    server_got := by
      show s.server.got ≤ (f s.client.endpoint.context).outbound.sent.length
      rw [hsent, hgot]
      simp
    client_frames := by
      intro g' hg'
      rw [hdrop] at hg'
      exact List.mem_singleton.1 hg' ▸ hg }

/-- What the server flushes touches the client's clock alone. -/
theorem Wired.clocks_deliver_server {s : Heartbeat} (h : Wired s) (hq : s.toServer = []) :
    s.deliver.clocks = { s.clocks with
      touched := if s.toClient = [] then s.clocks.touched else s.now } := by
  obtain ⟨-, -, -, -, hread, hwrite, hread'⟩ := h.deliver
  rw [deliverToServer_eq_self hq] at hread'
  rw [if_pos hq] at hread
  have hnow : s.deliver.now = s.now := rfl
  have hle := h.lastWriteTime_le
  rw [clocks, hread, hread', hwrite, hnow]
  split_ifs
  · rfl
  · rw [Nat.max_eq_left hle]
    rfl

/-- What the client flushes restarts both clocks. -/
theorem Wired.clocks_deliver_client {s : Heartbeat} (h : Wired s) (hq : s.toServer ≠ [])
    (hwrite : s.client.idle.lastWriteTime = s.now) : s.deliver.clocks = ⟨s.now, s.now, s.now⟩ := by
  obtain ⟨-, -, -, -, hread, hwrite', hread'⟩ := h.deliver
  rw [if_neg hq] at hread
  have hnow : s.deliver.now = s.now := rfl
  have hle := h.lastReadTime_le
  rw [clocks, hread, hwrite', hwrite, hread', hnow]
  split_ifs
  · rw [Nat.max_eq_right hle]
  · rw [Nat.max_self]

theorem Wired.settled {s : Heartbeat} (h : Wired s)
    (hclosed : s.server.isActive = false →
      s.deliver.server.idle.lastReadTime + seconds 10 ≤ s.now) : Settled s.deliver := by
  obtain ⟨hwired, hserver, hclient, hactive, -⟩ := h.deliver
  exact ⟨hwired, hserver, hclient, fun hfalse => hclosed (hactive ▸ hfalse)⟩

/-- An action whose effect the clocks see as `event`. -/
def Steps (s t : Heartbeat) (event : KeepAlive.Event) : Prop :=
  Settled t ∧ clockMachine.step s.clocks event = some t.clocks

theorem Settled.push {s : Heartbeat} (h : Settled s) (hactive : s.server.isActive = true)
    (msg : Bytes) :
    Steps s (deliver { s with server := s.server.act s.now (·.insertRow msg) })
      (Action.push msg).event := by
  by_cases hint : 5 + msg.length ≤ intMax
  · have hrow := HandlerContext.insertRow_eq (c := s.server.endpoint.context) hactive hint
    have hsent : s.server.outbound.sent.length <
        (s.server.endpoint.context.insertRow msg).outbound.sent.length := by
      simp [hrow, Outbound.writes, Peer.outbound]
    have hwired := h.wired.server_act (·.insertRow msg) [frame CUSTOM_MSG msg.data]
      (fun g hg => List.mem_singleton.1 hg ▸ ⟨CUSTOM_MSG, msg.data, rfl, Or.inr rfl, hint⟩)
      (by simp [hrow, Peer.outbound]) hsent.le
    have hclient : ({ s with server := s.server.act s.now (·.insertRow msg) } :
        Heartbeat).toClient ≠ [] := by
      intro hnil
      have hle := List.drop_eq_nil_iff.1 hnil
      exact absurd (hsent.trans_le hle) (Nat.not_lt.2 h.wired.client_got)
    refine ⟨hwired.settled ?_, ?_⟩
    · intro hfalse
      have hfalse : (s.server.endpoint.context.insertRow msg).isActive = false := hfalse
      rw [hrow] at hfalse
      exact absurd (hactive.symm.trans hfalse) (by decide)
    · rw [hwired.clocks_deliver_server h.toServer, if_neg hclient, Action.event, if_pos hint]
      simp only [clockMachine, KeepAlive.machine, KeepAlive.step, clocks,
        Peer.act, Peer.update_lastReadTime]
  · have hrow := HandlerContext.insertRow_overflow s.server.endpoint.context hint
    rw [Peer.act_eq_self (f := (·.insertRow msg)) hrow, deliver_eq_self h.toServer h.toClient,
      Action.event, if_neg hint]
    exact ⟨h, rfl⟩

/-- A frame written by the client of its own accord. -/
theorem Settled.client_act {s : Heartbeat} (h : Settled s) (hactive : s.server.isActive = true)
    (f : HandlerContext → HandlerContext) {g : List UInt8} (hg : ClientFrame g)
    (hclient : (f s.client.endpoint.context).isActive = true)
    (hout : (f s.client.endpoint.context).outbound = s.client.outbound.writeAndFlush g) :
    Settled (deliver { s with client := s.client.act s.now f }) ∧
      (deliver { s with client := s.client.act s.now f }).clocks = ⟨s.now, s.now, s.now⟩ := by
  obtain ⟨hwired, hserver, hwrite⟩ := h.wired.client_act h.toServer f hg hclient hout
  refine ⟨hwired.settled ?_, ?_⟩
  · intro hfalse
    exact absurd (hactive.symm.trans hfalse) (by decide)
  · exact hwired.clocks_deliver_client (by rw [hserver]; simp) hwrite

theorem Settled.sendData {s : Heartbeat} (h : Settled s) (hactive : s.server.isActive = true)
    (content : Bytes) :
    Steps s (deliver { s with client := s.client.act s.now (·.sendData content) })
      (Action.sendData content).event := by
  by_cases hint : 5 + content.length ≤ intMax
  · have hsend := HandlerContext.sendData_eq (c := s.client.endpoint.context) h.wired.client_active
      hint
    obtain ⟨hsettled, hclocks⟩ := h.client_act hactive (·.sendData content)
      ⟨CUSTOM_MSG, content.data, rfl, Or.inr rfl, hint⟩
      (by rw [hsend]; exact h.wired.client_active) (by rw [hsend]; rfl)
    refine ⟨hsettled, ?_⟩
    rw [hclocks, Action.event, if_pos hint]
    rfl
  · have hsend := HandlerContext.sendData_overflow s.client.endpoint.context hint
    rw [Peer.act_eq_self (f := (·.sendData content)) hsend, deliver_eq_self h.toServer h.toClient,
      Action.event, if_neg hint]
    exact ⟨h, rfl⟩

theorem Settled.allIdle {s : Heartbeat} (h : Settled s) (hactive : s.server.isActive = true)
    (hdue : s.clocks.touched + seconds 5 ≤ s.clocks.now) :
    Steps s (deliver { s with
      client := s.client.act s.now (·.userEventTriggered clientHandler .allIdle) }) .idle := by
  have hping := HandlerContext.userEventTriggered_allIdle s.client.endpoint.context
  obtain ⟨hsettled, hclocks⟩ := h.client_act hactive (·.userEventTriggered clientHandler .allIdle)
    ⟨PING_MSG, [], rfl, Or.inl rfl, by decide⟩
    ((congrArg HandlerContext.isActive hping).trans h.wired.client_active)
    (congrArg HandlerContext.outbound hping)
  refine ⟨hsettled, ?_⟩
  rw [hclocks]
  exact if_pos hdue

theorem Settled.readerIdle {s : Heartbeat} (h : Settled s) (hdue : s.clocks.Due (seconds 10)) :
    Steps s (deliver { s with
      server := s.server.act s.now (·.userEventTriggered serverHandler .readerIdle) }) .expire := by
  have hwired := h.wired.server_act (·.userEventTriggered serverHandler .readerIdle) []
    (by simp) (List.append_nil _).symm (Nat.le_refl _)
  have hread := Peer.update_lastReadTime s.server s.now { s.server.endpoint with
    context := s.server.endpoint.context.userEventTriggered serverHandler .readerIdle }
  -- closing flushes nothing
  have hsame := deliver_eq_self (s := { s with
    server := s.server.act s.now (·.userEventTriggered serverHandler .readerIdle) })
    h.toServer h.toClient
  rw [hsame]
  refine ⟨⟨hwired, h.toServer, h.toClient, ?_⟩, ?_⟩
  · intro _
    exact (congrArg (· + seconds 10) hread).trans_le hdue
  · rw [show clockMachine.step s.clocks .expire = some s.clocks from if_pos hdue, clocks, clocks,
      Peer.act, hread]

theorem Settled.step {s t : Heartbeat} {a : Action} (h : Settled s) (hstep : s.step a = some t) :
    Steps s t a.event := by
  unfold Heartbeat.step at hstep
  obtain ⟨hactive, hstep⟩ := Option.ite_none_right_eq_some.1 hstep
  cases a with
  | wait d =>
    obtain ⟨⟨hclient, hserver⟩, hstep⟩ := Option.ite_none_right_eq_some.1 hstep
    obtain rfl := Option.some.inj hstep
    have hclient := (IdleStateHandler.quietUntil_of_all h.wired.client_idle
      (seconds_ne_zero (by decide)) _).1 hclient
    have hserver := (IdleStateHandler.quietUntil_of_reader h.wired.server_idle
      (seconds_ne_zero (by decide)) _).1 hserver
    refine ⟨⟨?_, h.toServer, h.toClient, ?_⟩, if_pos ⟨hclient, hserver⟩⟩
    · exact { h.wired with
        lastReadTime_le := h.wired.lastReadTime_le.trans (Nat.le_add_right _ _)
        lastWriteTime_le := h.wired.lastWriteTime_le.trans (Nat.le_add_right _ _) }
    · intro hfalse
      exact absurd (hactive.symm.trans hfalse) (by decide)
  | push msg => exact Option.some.inj hstep ▸ h.push hactive msg
  | sendData content => exact Option.some.inj hstep ▸ h.sendData hactive content
  | idle side event =>
    cases side with
    | client =>
      obtain ⟨hfire, hstep⟩ := Option.ite_none_right_eq_some.1 hstep
      obtain ⟨rfl, hdue⟩ := (IdleStateHandler.due_of_all h.wired.client_idle
        (seconds_ne_zero (by decide)) _ _).1 hfire
      exact Option.some.inj hstep ▸ h.allIdle hactive hdue
    | server =>
      obtain ⟨hfire, hstep⟩ := Option.ite_none_right_eq_some.1 hstep
      obtain ⟨rfl, hdue⟩ := (IdleStateHandler.due_of_reader h.wired.server_idle
        (seconds_ne_zero (by decide)) _ _).1 hfire
      exact Option.some.inj hstep ▸ h.readerIdle hdue

theorem settled_reaches {as : List Action} {s : Heartbeat} (h : machine.Reaches as s) : Settled s :=
  Machine.invariant (M := machine) settled_initial (fun _ _ _ hs hstep => (hs.step hstep).1) h

/-- **The heartbeat is two clocks.** Whatever else the two ends do, their idle handlers take the
steps of the two-clock machine. -/
theorem simulates : machine.Simulates clockMachine clocks Action.event where
  init := rfl
  step _ _ _ _ hs hstep := ((settled_reaches hs).step hstep).2

/-! ## When the server never times out -/

/-- The server cannot reach `handleReaderIdle`, and it has not closed the channel. -/
def KeptAlive (s : Heartbeat) : Prop :=
  s.step (.idle .server .readerIdle) = none ∧ s.server.isActive = true

instance : DecidablePred KeptAlive := fun s =>
  inferInstanceAs (Decidable (s.step (.idle .server .readerIdle) = none ∧ s.server.isActive = true))

def Action.duration : Action → Nat
  | wait d => d
  | _ => 0

def elapsed (as : List Action) : Nat := (as.map Action.duration).sum

/-- The client sends something of its own accord. -/
def Action.Sends : Action → Prop
  | sendData content => 5 + content.length ≤ intMax
  | _ => False

/-- Each push (of a message its writer can encode) that comes 5 seconds or more after the server has
last read anything is followed by a `sendData` before 10 have passed since then. -/
def PushesMadeGood (as : List Action) : Prop :=
  ∀ pre msg mid s, pre ++ .push msg :: mid <+: as → machine.Reaches pre s →
    5 + msg.length ≤ intMax → s.server.idle.lastReadTime + seconds 5 ≤ s.now →
    (∀ a ∈ mid, ¬ a.Sends) → s.now + elapsed mid < s.server.idle.lastReadTime + seconds 10

theorem keptAlive_iff {s : Heartbeat} (h : Settled s) :
    KeptAlive s ↔ ¬ s.clocks.Due (seconds 10) := by
  have hdue := IdleStateHandler.due_of_reader h.wired.server_idle (seconds_ne_zero (by decide))
    s.now .readerIdle
  cases hactive : s.server.isActive with
  | true =>
    rw [KeptAlive, hactive, Heartbeat.step, if_pos hactive]
    by_cases hfire : s.server.idle.due s.now .readerIdle = true
    · simp [hfire, (hdue.1 hfire).2, clocks, KeepAlive.Clocks.Due]
    · have hnot : ¬ s.clocks.Due (seconds 10) := fun h => hfire (hdue.2 ⟨rfl, h⟩)
      simp [hfire, hnot]
  | false =>
    have hclosed : s.clocks.Due (seconds 10) := h.closed hactive
    simp [KeptAlive, hactive, hclosed]

theorem event_eq_touch {a : Action} :
    a.event = .touch ↔ ∃ msg : Bytes, a = .push msg ∧ 5 + msg.length ≤ intMax := by
  cases a with
  | wait d => simp [Action.event]
  | push msg => simp [Action.event]
  | sendData content =>
    simp only [Action.event]
    split_ifs <;> simp
  | idle side event => cases side <;> simp [Action.event]

theorem event_eq_speak {a : Action} : a.event = .speak ↔ a.Sends := by
  cases a with
  | wait d => simp [Action.event, Action.Sends]
  | push msg =>
    simp only [Action.event, Action.Sends]
    split_ifs <;> simp
  | sendData content => simp [Action.event, Action.Sends]
  | idle side event => cases side <;> simp [Action.event, Action.Sends]

theorem elapsed_event (as : List Action) :
    KeepAlive.elapsed (as.map Action.event) = elapsed as := by
  rw [KeepAlive.elapsed, elapsed, List.map_map]
  congr 2
  funext a
  cases a with
  | wait d => rfl
  | push msg =>
    simp only [Function.comp, Action.event]
    split_ifs <;> rfl
  | sendData content =>
    simp only [Function.comp, Action.event]
    split_ifs <;> rfl
  | idle side event => cases side <;> rfl

theorem seconds_ten : seconds 10 = seconds 5 + seconds 5 := by decide

/-- The condition on the run is the condition on its clocks. -/
theorem madeGood_iff {as : List Action} {s : Heartbeat} (h : machine.Reaches as s) :
    KeepAlive.MadeGood (seconds 5) (seconds 10) (as.map Action.event) ↔ PushesMadeGood as := by
  constructor
  · intro hgood pre msg mid t hpre ht hint hlate hmid
    have hevents : pre.map Action.event ++ .touch :: mid.map Action.event <+:
        as.map Action.event := by
      simpa [Action.event, hint] using hpre.map Action.event
    have hspeak : KeepAlive.Event.speak ∉ mid.map Action.event := by
      simpa [event_eq_speak] using hmid
    have hgood := hgood _ _ _ hevents (simulates.reaches ht)
      (by rw [seconds_ten, ← Nat.add_assoc]; exact Nat.add_le_add_right hlate _) hspeak
    rwa [elapsed_event] at hgood
  · intro hgood pre' mid' c hpre hc hlate hmid
    obtain ⟨p, hp, heq⟩ := List.prefix_map_iff.1 hpre
    obtain ⟨pre, rest, rfl, rfl, hrest⟩ := List.map_eq_append_iff.1 heq.symm
    obtain ⟨a, mid, rfl, ha, rfl⟩ := List.map_eq_cons_iff.1 hrest
    obtain ⟨msg, rfl, hint⟩ := event_eq_touch.1 ha
    obtain ⟨t, ht⟩ := h.of_prefix ((List.prefix_append _ _).trans hp)
    obtain rfl := (simulates.reaches ht).unique hc
    have hsends : ∀ a ∈ mid, ¬ a.Sends := by simpa [event_eq_speak] using hmid
    rw [elapsed_event]
    refine hgood pre msg mid t hp ht hint ?_ hsends
    rw [seconds_ten, ← Nat.add_assoc] at hlate
    exact Nat.le_of_add_le_add_right hlate

/-- **When the server keeps the connection.** In a run the server can reach `handleReaderIdle` in no
state, and has closed the channel in none, exactly when every late push is made good by a
`sendData`. -/
theorem kept_alive_iff {as : List Action} {s : Heartbeat} (h : machine.Reaches as s) :
    machine.Along as KeptAlive ↔ PushesMadeGood as := by
  have halong : machine.Along as KeptAlive ↔
      machine.Along as fun t => ¬ t.clocks.Due (seconds 10) := by
    constructor
    · exact fun hkept p hp t ht => (keptAlive_iff (settled_reaches ht)).1 (hkept p hp t ht)
    · exact fun hdue p hp t ht => (keptAlive_iff (settled_reaches ht)).2 (hdue p hp t ht)
  rw [halong, ← madeGood_iff h, ← KeepAlive.never_due_iff (by decide) (simulates.reaches h)]
  exact (simulates.along (P := fun c => ¬ c.Due (seconds 10)) h).symm

/-- The second push comes after 8 seconds in which the server has read nothing, and is made good by
a message one second later. -/
theorem kept_alive_run :
    let as : List Action := [.wait (seconds 4), .push ⟨[97], by decide⟩, .wait (seconds 4),
      .push ⟨[97], by decide⟩, .wait (seconds 1), .sendData ⟨[98], by decide⟩]
    ∃ s, machine.Reaches as s ∧ machine.Along as KeptAlive ∧ PushesMadeGood as := by
  intro as
  have hrun : ∃ s, machine.Reaches as s := ⟨_, rfl⟩
  have hcheck : ∀ p ∈ as.inits, ∀ s ∈ machine.exec machine.init p, KeptAlive s := by
    decide +kernel
  have hkept : machine.Along as KeptAlive :=
    fun p hp s hs => hcheck p ((List.mem_inits p as).2 hp) s hs
  obtain ⟨s, hs⟩ := hrun
  exact ⟨s, hs, hkept, (kept_alive_iff hs).1 hkept⟩

/-- Pushes every 4 seconds keep the client from pinging: after 10 seconds the server closes the
channel, and the client is still there. -/
theorem pushes_starve_heartbeat :
    ∃ s t, machine.Reaches [.wait (seconds 4), .push ⟨[97], by decide⟩, .wait (seconds 4),
        .push ⟨[97], by decide⟩, .wait (seconds 2)] s ∧ s.client.isActive = true ∧
      s.step (.idle .server .readerIdle) = some t ∧ t.server.isActive = false :=
  ⟨_, _, rfl, rfl, rfl, rfl⟩

end Heartbeat

end MmtxSample
