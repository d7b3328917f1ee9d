import MmtxSample.Calls
import MmtxSample.Link

/-!
# A client and its connections

A client that loses connections and makes new ones has had many channels, and `sendData` writes to
the one it finds in its field `channel`. A `Session` is the client together with the link behind
each of its channels: the client takes its steps, and the write of a call that finds an active
channel is one on the link of that channel. Meanwhile the links carry their traffic, those of old
channels too, since the server may go on reading what has arrived.

A session projects onto the client (`projects_client`) and onto each link (`link_reaches`), and what
the links carry is what the client has written to their channels (`sent_eq_written`). A call that
finds no active channel, or whose channel is lost before its write, is lost without a word. For the
others,

* `sent_in_order`: what the server has handled on the client's connections, taken one connection
  after the other, is short messages in the order in which they were written, none of them twice.
  When the calls do not overlap, this is the order of the calls.
* `sent_delivered`: a short message whose call begins when the client has a connection whose
  listener has run, and is over while that connection is active, is handled, in its place, once the
  server has read all that the link has carried.
-/

namespace MmtxSample

open Java Netty CustomHeartbeatHandler TransitionSystem

structure Session where
  client : Client
  links : ℕ → Link

namespace Session

inductive Label
  | client (e : Client.Event)
  | traffic (n : ℕ) (a : Link.Action)

def Label.event? : Label → Option Client.Event
  | client e => some e
  | traffic _ _ => none

/-- What the link of an attempt may do by itself. The client's end reads and pings while its channel
is active; the server's end may outlive it. -/
def Carries (stage : Stage) : Link.Action → Prop
  | .sendData _ => False
  | .allIdle | .clientReads _ => stage.isActive = true
  | .push _ | .serverReads _ => stage.hasConnected = true

instance (stage : Stage) : (a : Link.Action) → Decidable (Carries stage a)
  | .sendData _ => isFalse id
  | .allIdle | .clientReads _ => inferInstanceAs (Decidable (stage.isActive = true))
  | .push _ | .serverReads _ => inferInstanceAs (Decidable (stage.hasConnected = true))

/-- The links after an event of the client. -/
def carryOut (s : Session) (e : Client.Event) : ℕ → Link :=
  match s.client.message e with
  | some (n, content) => Function.update s.links n ((s.links n).sends content)
  | none => s.links

def step (s : Session) : Label → Option Session
  | .client e => (s.client.step e).map fun client => ⟨client, s.carryOut e⟩
  | .traffic n a =>
    if Carries (s.client.stage n) a then ((s.links n).step a).map fun link =>
      { s with links := Function.update s.links n link }
    else none

def machine : Machine Session Label := ⟨⟨Client.start, fun _ => .initial⟩, step⟩

/-- The payloads of the calls of `sendData`, in the order in which they begin. -/
def sends (ls : List Label) : List (List UInt8) := Client.sends (ls.filterMap Label.event?)

variable {s t u v : Session} {ls : List Label}

/-! ## One step -/

theorem step_client {e : Client.Event} (h : s.step (.client e) = some t) :
    s.client.step e = some t.client ∧ t.links = s.carryOut e := by
  obtain ⟨client, hclient, rfl⟩ := Option.map_eq_some_iff.1 h
  exact ⟨hclient, rfl⟩

theorem step_traffic {n : ℕ} {a : Link.Action} (h : s.step (.traffic n a) = some t) :
    ∃ link, (s.links n).step a = some link ∧ Carries (s.client.stage n) a ∧
      t = { s with links := Function.update s.links n link } := by
  obtain ⟨hcarries, h⟩ := Option.ite_none_right_eq_some.1 h
  obtain ⟨link, hlink, rfl⟩ := Option.map_eq_some_iff.1 h
  exact ⟨link, hlink, hcarries, rfl⟩

/-- The client sees its own steps alone. -/
theorem projects_client : Machine.Projects machine Client.machine client Label.event? where
  init := rfl
  step := by
    rintro ls s l t - hstep
    cases l with
    | client e => exact (step_client hstep).1
    | traffic n a =>
      obtain ⟨link, -, -, rfl⟩ := step_traffic hstep
      rfl

/-- What a link may do by itself sends nothing. -/
theorem sent_of_carries {stage : Stage} {a : Link.Action} {link link' : Link}
    (hcarries : Carries stage a) (h : link.step a = some link') : link'.sent = link.sent := by
  cases a with
  | sendData content => exact hcarries.elim
  | allIdle | push msg => exact Option.some.inj h ▸ rfl
  | serverReads n | clientReads n =>
    obtain ⟨-, h⟩ := Option.ite_none_right_eq_some.1 h
    exact Option.some.inj h ▸ rfl

theorem carryOut_cases (s : Session) (e : Client.Event) (n : ℕ) :
    s.carryOut e n = s.links n ∨
      (s.client.isActive n = true ∧ ∃ content, s.carryOut e n = (s.links n).sends content) := by
  cases hmessage : s.client.message e with
  | none => exact Or.inl (by rw [carryOut, hmessage])
  | some x =>
    obtain ⟨m, content⟩ := x
    obtain ⟨r, -, -, -, hactive⟩ := Client.message_eq_some hmessage
    rw [carryOut, hmessage]
    by_cases hn : n = m
    · subst hn
      exact Or.inr ⟨hactive, content, Function.update_self ..⟩
    · exact Or.inl (Function.update_of_ne hn ..)

/-- What a step does to a link is a step of the link or nothing. -/
theorem step_links {l : Label} (hstep : s.step l = some t) (n : ℕ) :
    t.links n = s.links n ∨ ∃ a, (s.links n).step a = some (t.links n) := by
  cases l with
  | client e =>
    obtain ⟨-, hlinks⟩ := step_client hstep
    rw [hlinks]
    rcases s.carryOut_cases e n with hsame | ⟨-, content, hsends⟩
    · exact Or.inl hsame
    · exact Or.inr ⟨.sendData content, congrArg some hsends.symm⟩
  | traffic m a =>
    obtain ⟨link, hlink, -, rfl⟩ := step_traffic hstep
    by_cases hn : n = m
    · subst hn
      simp only [Function.update_self]
      exact Or.inr ⟨a, hlink⟩
    · exact Or.inl (Function.update_of_ne hn ..)

/-- Each link is a link. -/
theorem link_reaches (h : machine.Reaches ls s) (n : ℕ) :
    ∃ as, Link.machine.Reaches as (s.links n) :=
  Machine.reaches_part (M := machine) (f := fun s => s.links n) rfl
    (fun _ _ _ hstep => step_links hstep n) h

/-- The client does nothing more with a connection that it has lost. -/
theorem client_of_step {l : Label} {n : ℕ} (hstep : s.step l = some t)
    (hlost : s.client.isActive n = false) : (t.links n).client = (s.links n).client := by
  cases l with
  | client e =>
    obtain ⟨-, hlinks⟩ := step_client hstep
    rw [hlinks]
    rcases s.carryOut_cases e n with hsame | ⟨hactive, -⟩
    · rw [hsame]
    · cases hlost.symm.trans hactive
  | traffic m a =>
    obtain ⟨link, hlink, hcarries, rfl⟩ := step_traffic hstep
    by_cases hn : n = m
    · subst hn
      simp only [Function.update_self]
      cases a with
      | sendData content => exact hcarries.elim
      | allIdle | clientReads m => cases hlost.symm.trans hcarries
      | push msg => exact Option.some.inj hlink ▸ rfl
      | serverReads m =>
        obtain ⟨-, hlink⟩ := Option.ite_none_right_eq_some.1 hlink
        exact Option.some.inj hlink ▸ rfl
    · simp only [Function.update_of_ne hn]

/-! ## The order of the messages -/

theorem filter_short_singleton {payload : List UInt8} (h : Link.Short payload) :
    [payload].filter Link.Short = [payload] := by
  simpa using h

/-- **The links carry what the client has written,** but for messages that are too long for the
decoder. -/
theorem sent_eq_written (h : machine.Reaches ls s) (n : ℕ) :
    (s.links n).sent.filter Link.Short = (s.client.writtenTo n).filter Link.Short := by
  refine Machine.invariant (M := machine) (I := fun s => ∀ n, (s.links n).sent.filter Link.Short =
    (s.client.writtenTo n).filter Link.Short) (fun n => rfl) ?_ h n
  intro s l t ih hstep n
  cases l with
  | traffic m a =>
    obtain ⟨link, hlink, hcarries, rfl⟩ := step_traffic hstep
    by_cases hn : n = m
    · subst hn
      simp only [Function.update_self, sent_of_carries hcarries hlink]
      exact ih n
    · simp only [Function.update_of_ne hn]
      exact ih n
  | client e =>
    obtain ⟨hclient, hlinks⟩ := step_client hstep
    rcases Client.written_of_step hclient with ⟨hnone, hsame⟩ | ⟨m, content, hmessage, hwrite⟩
    · rw [hlinks, Client.writtenTo_congr hsame, ← ih n, carryOut, hnone]
    · have hsent : (t.links n).sent = (s.links n).sent ++ if m = n then [content.data] else [] := by
        rw [hlinks, carryOut, hmessage]
        by_cases hn : n = m
        · subst hn
          simp [Link.sends]
        · simp [hn, Ne.symm hn]
      rw [hsent, List.filter_append, ih n]
      split_ifs at hwrite with hint
      · rw [Client.writtenTo_snoc hwrite n, List.filter_append]
      · have hlong : ¬ Link.Short content.data := by
          unfold Link.Short
          unfold intMax Bytes.length at hint
          omega
        rw [Client.writtenTo_congr (hwrite.trans (List.append_nil _))]
        split_ifs <;> simp [hlong]

/-- The server has handled the short messages of a connection from the front. -/
theorem received_sublist (h : machine.Reaches ls s) (n : ℕ) :
    (Exchange.received (s.links n).server.context).Sublist
      ((s.client.writtenTo n).filter Link.Short) := by
  obtain ⟨as, has⟩ := link_reaches h n
  rw [← sent_eq_written h, ← Link.customs_toServer has]
  exact List.sublist_append_left _ _

/-- **In order, and at most once.** What the server has handled on the client's connections, one
connection after the other, is a sublist of the short messages in the order in which `sendData` has
written them, however many connections there have been and whatever has become of them. When each
call begins after the ones before it are over, it is a sublist of the short messages in the order of
the calls. -/
theorem sent_in_order (h : machine.Reaches ls s) :
    ((List.range s.client.connects).flatMap fun n =>
        Exchange.received (s.links n).server.context).Sublist
      (s.client.payloads.filter Link.Short) ∧
    (Client.Sequential (ls.filterMap Label.event?) →
      ((List.range s.client.connects).flatMap fun n =>
        Exchange.received (s.links n).server.context).Sublist ((sends ls).filter Link.Short)) ∧
    ∀ n, s.client.connects ≤ n → Exchange.received (s.links n).server.context = [] := by
  have hclient := projects_client.reaches h
  obtain ⟨horder, hunused⟩ := Client.written_in_order hclient
  have hwritten : ((List.range s.client.connects).flatMap fun n =>
      Exchange.received (s.links n).server.context).Sublist
        (s.client.payloads.filter Link.Short) := by
    rw [← horder, List.filter_flatMap]
    exact List.Sublist.flatMap_right _ fun n _ => received_sublist h n
  refine ⟨hwritten, ?_, ?_⟩
  · intro hseq
    exact hwritten.trans ((Client.written_sublist hclient hseq).filter _)
  · intro n hn
    have hnone := received_sublist h n
    rw [hunused n hn] at hnone
    exact List.sublist_nil.1 hnone

/-- The message on the second connection is handled first, and a call between the two is lost. -/
theorem sent_in_order_run :
    let content : Bytes := ⟨[49], by decide⟩
    let content' : Bytes := ⟨[50], by decide⟩
    let call (content : Bytes) : List Label :=
      .client (.sendData 0 content) :: List.replicate 3 (.client (.step 0))
    let ls : List Label := [.client (.success 0), .client (.operationComplete 0)] ++ call content ++
      [.client (.sendData 0 content), .client (.step 0), .client (.lose 0), .client (.step 0),
        .client (.channelInactive 0), .client (.success 1), .client (.operationComplete 1)] ++
      call content' ++ [.traffic 1 (.serverReads 6), .traffic 0 (.serverReads 6)]
    ∃ s, machine.Reaches ls s ∧ sends ls = [[49], [49], [50]] ∧
      ((List.range s.client.connects).flatMap fun n =>
        Exchange.received (s.links n).server.context) = [[49], [50]] ∧
      ((List.range s.client.connects).flatMap fun n =>
        Exchange.received (s.links n).server.context).Sublist ((sends ls).filter Link.Short) := by
  intro content content' call ls
  have hrun : (machine.exec machine.init ls).map (fun s =>
      (List.range s.client.connects).flatMap fun n =>
        Exchange.received (s.links n).server.context) = some [[49], [50]] := by decide +kernel
  obtain ⟨s, hs, hreceived⟩ := Option.map_eq_some_iff.1 hrun
  have hthread : Client.CalledBy 0 (ls.filterMap Label.event?) := by
    unfold Client.CalledBy
    decide
  have hseq := Client.sequential_of_calledBy (projects_client.reaches hs) hthread
  exact ⟨s, hs, rfl, hreceived, (sent_in_order hs).2.1 hseq⟩

/-! ## What is delivered -/

theorem sent_step {l : Label} (hstep : s.step l = some t) (n : ℕ) :
    (s.links n).sent <+: (t.links n).sent := by
  rcases step_links hstep n with hsame | ⟨a, ha⟩
  · rw [hsame]
  · exact Link.sent_step ha

theorem sent_exec (h : machine.exec s ls = some t) (n : ℕ) :
    (s.links n).sent <+: (t.links n).sent :=
  Machine.exec_invariant (M := machine) (I := fun t => (s.links n).sent <+: (t.links n).sent)
    (fun _ _ _ hs hl => hs.trans (sent_step hl n)) List.prefix_rfl h

/-- **What is sent on a connection is delivered.** A call of `sendData` with a short message begins
when the client has a connection whose listener has run, and is over while that connection is still
active. The server has handled the message once it has read all that the link has carried: in its
place among the short messages written to the connection, which is right after those written before
the call if no other thread has come between. -/
theorem sent_delivered {pre mid post : List Label} {n r : ℕ} {content : Bytes}
    (hu : machine.Reaches pre u) (hconnected : u.client.stage n = .connected true)
    (hshort : Link.Short content.data)
    (hv : machine.Reaches (pre ++ .client (.sendData r content) :: mid) v)
    (hover : v.client.calls r = none) (hactive : v.client.isActive n = true)
    (h : machine.Reaches (pre ++ .client (.sendData r content) :: mid ++ post) s)
    (hdrained : Link.Drained (s.links n).client.context (s.links n).server
      (s.links n).serverRead) :
    ∃ before, (u.links n).sent.filter Link.Short <+: before ∧
      (Client.CalledBy r (mid.filterMap Label.event?) →
        before = (u.links n).sent.filter Link.Short) ∧
      before ++ [content.data] <+: (v.links n).sent.filter Link.Short ∧
      before ++ [content.data] <+: Exchange.received (s.links n).server.context := by
  have hevents : (pre ++ .client (.sendData r content) :: mid).filterMap Label.event? =
      pre.filterMap Label.event? ++ .sendData r content :: mid.filterMap Label.event? := by
    simp [Label.event?]
  have hclient := projects_client.reaches hv
  rw [hevents] at hclient
  have hint : 5 + content.length ≤ intMax := by
    unfold Link.Short at hshort
    unfold intMax Bytes.length
    omega
  obtain ⟨before, hgrows, halone, hwritten⟩ := Client.written_of_call (projects_client.reaches hu)
    hconnected hint hclient hover hactive
  have hplace : before.filter Link.Short ++ [content.data] <+:
      (v.links n).sent.filter Link.Short := by
    have hfilter := hwritten.filter (fun p => decide (Link.Short p))
    rwa [List.filter_append, filter_short_singleton hshort, ← sent_eq_written hv] at hfilter
  obtain ⟨v', hv', hpost⟩ := Machine.reaches_append.1 h
  obtain rfl := hv'.unique hv
  obtain ⟨as, has⟩ := link_reaches h n
  refine ⟨before.filter Link.Short, ?_, ?_, hplace, ?_⟩
  · rw [sent_eq_written hu]
    exact hgrows.filter _
  · intro hthread
    rw [halone hthread, sent_eq_written hu]
  · rw [Link.received_of_drained has hdrained]
    exact hplace.trans ((sent_exec hpost n).filter _)

/-- A message that is read in two parts, while another thread's call is between its check and its
write. -/
theorem sent_delivered_run :
    let content : Bytes := ⟨[49], by decide⟩
    let content' : Bytes := ⟨[50], by decide⟩
    let pre : List Label := [.client (.success 0), .client (.operationComplete 0),
      .client (.sendData 1 content'), .client (.step 1), .client (.step 1)]
    let mid : List Label := List.replicate 3 (.client (.step 0))
    let post : List Label := [.client (.step 1), .client (.lose 0), .traffic 0 (.serverReads 2),
      .traffic 0 (.serverReads 10)]
    ∃ s, machine.Reaches (pre ++ .client (.sendData 0 content) :: mid ++ post) s ∧
      [[49]] <+: Exchange.received (s.links 0).server.context := by
  intro content content' pre mid post
  have hpre : (machine.exec machine.init pre).map
      (fun u => (u.client.stage 0, (u.links 0).sent)) = some (.connected true, []) := by
    decide +kernel
  have hmid : (machine.exec machine.init (pre ++ .client (.sendData 0 content) :: mid)).map
      (fun v => (v.client.calls 0, v.client.isActive 0)) = some (none, true) := by
    decide +kernel
  have hrun : (machine.exec machine.init
      (pre ++ .client (.sendData 0 content) :: mid ++ post)).map
      (fun s => ((s.links 0).serverRead, (s.links 0).client.context.outbound.sent.flatten.length,
        Framing.frames ((s.links 0).server.reader.scan frameDecoder.decode []).1)) =
          some (12, 12, []) := by
    decide +kernel
  obtain ⟨u, hu, hstate⟩ := Option.map_eq_some_iff.1 hpre
  obtain ⟨hconnected, hsent⟩ := Prod.mk.inj hstate
  obtain ⟨v, hv, hstate⟩ := Option.map_eq_some_iff.1 hmid
  obtain ⟨hover, hactive⟩ := Prod.mk.inj hstate
  obtain ⟨s, hs, hlink⟩ := Option.map_eq_some_iff.1 hrun
  obtain ⟨hread, hlink⟩ := Prod.mk.inj hlink
  obtain ⟨hlength, hcut⟩ := Prod.mk.inj hlink
  obtain ⟨before, -, halone, -, hdelivered⟩ := sent_delivered hu hconnected (by decide) hv hover
    hactive hs ⟨hread.trans hlength.symm, hcut⟩
  have hthread : Client.CalledBy 0 (mid.filterMap Label.event?) := by
    unfold Client.CalledBy
    decide
  rw [halone hthread, hsent] at hdelivered
  exact ⟨s, hs, hdelivered⟩

end Session

end MmtxSample
