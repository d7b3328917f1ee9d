import MmtxSample.Broadcast
import MmtxSample.Registry.Progress
import MmtxSample.Session

/-!
# The server and its clients

A `Deployment` is the server with any number of clients, each of which connects, loses its
connection and connects again. Every attempt of a client is a channel of the server: the server's
part is a `Broadcast` over pairs of a client and the number of an attempt, and the part of a client
is a `Session` whose links are those of its own channels. The server sees a channel become active
only when the attempt has made its connection; for the rest, all of them go their own ways, and the
two ends of a connection may see it go at different times.

The server may hold the channel of a connection that the client has lost together with that of its
new one, and a push is carried out on both. What becomes of it all is read off the parts: a run of
the deployment is one of the server (`server_reaches`) and one of each client's session
(`session_reaches`).

* `client_in_order`: over all its connections, a client handles what has been pushed to it in the
  order of the pushes, merged with the echoes of its own messages. The connections that it has lost
  are done with before anything is pushed to the next one (`Past`).
* `comes_back`: whatever has happened, a client can get a new connection by its own steps, and the
  server its channel.
-/

namespace MmtxSample

open Java Netty TransitionSystem

/-- A channel is an attempt of a client. -/
structure Deployment (ι : Type*) where
  server : Broadcast (ι × ℕ)
  clients : ι → Client

namespace Deployment

variable {ι : Type*}

inductive Label (ι : Type*)
  | server (l : Registry.Label (ι × ℕ))
  | client (i : ι) (e : Client.Event)
  | traffic (i : ι) (n : ℕ) (a : Link.Action)

/-- A client with its links. -/
def session (s : Deployment ι) (i : ι) : Session := ⟨s.clients i, fun n => s.server.links (i, n)⟩

/-- Only a connection that has been made becomes an active channel. -/
def Admits (s : Deployment ι) : Registry.Label (ι × ℕ) → Prop
  | .channelActive c => ((s.clients c.1).stage c.2).hasConnected = true
  | _ => True

instance (s : Deployment ι) : DecidablePred s.Admits := fun l => by
  cases l <;> unfold Admits <;> infer_instance

/-- What the client has handled on its first `k` connections. -/
def handled (s : Deployment ι) (i : ι) (k : ℕ) : List (List UInt8) :=
  (List.range k).flatMap fun n => Exchange.received (s.server.links (i, n)).client.context

/-- The short messages the client has sent on its first `k` connections. -/
def sent (s : Deployment ι) (i : ι) (k : ℕ) : List (List UInt8) :=
  (List.range k).flatMap fun n => (s.server.links (i, n)).sent.filter Link.Short

theorem handled_succ (s : Deployment ι) (i : ι) (k : ℕ) :
    s.handled i (k + 1) =
      s.handled i k ++ Exchange.received (s.server.links (i, k)).client.context := by
  rw [handled, List.range_succ, List.flatMap_append, List.flatMap_singleton]
  rfl

theorem sent_succ (s : Deployment ι) (i : ι) (k : ℕ) :
    s.sent i (k + 1) = s.sent i k ++ (s.server.links (i, k)).sent.filter Link.Short := by
  rw [sent, List.range_succ, List.flatMap_append, List.flatMap_singleton]
  rfl

variable [DecidableEq ι]

def Label.event? (i : ι) : Label ι → Option Client.Event
  | client j e => if j = i then some e else none
  | _ => none

def setSession (s : Deployment ι) (i : ι) (x : Session) : Deployment ι where
  server := { s.server with links := fun c => if c.1 = i then x.links c.2 else s.server.links c }
  clients := Function.update s.clients i x.client

def step (ids : ChannelIds (ι × ℕ)) (s : Deployment ι) : Label ι → Option (Deployment ι)
  | .server l =>
    if s.Admits l then (s.server.step ids (.registry l)).map fun server => { s with server }
    else none
  | .client i e => ((s.session i).step (.client e)).map (s.setSession i)
  | .traffic i n a =>
    if Broadcast.Carries (s.server.registry.life (i, n)) a then
      ((s.session i).step (.traffic n a)).map (s.setSession i)
    else none

def machine (ids : ChannelIds (ι × ℕ)) : Machine (Deployment ι) (Label ι) :=
  ⟨⟨.initial, fun _ => Client.start⟩, step ids⟩

/-- The payloads of the calls of `sendData` of a client, in the order in which they begin. -/
def sends (i : ι) (ls : List (Label ι)) : List (List UInt8) :=
  Client.sends (ls.filterMap (Label.event? i))

/-- The payloads pushed to a client, on whichever of its channels. -/
def pushedTo (i : ι) (ledger : List (Push (ι × ℕ))) : List (List UInt8) :=
  ledger.filterMap fun x => if x.channel.1 = i then some x.msg.data else none

variable {ids : ChannelIds (ι × ℕ)} {s t : Deployment ι} {i : ι} {ls : List (Label ι)}

/-! ## One step -/

theorem step_server {l : Registry.Label (ι × ℕ)}
    (h : (machine ids).step s (.server l) = some t) :
    s.Admits l ∧ (Broadcast.machine ids).step s.server (.registry l) = some t.server ∧
      t.clients = s.clients := by
  obtain ⟨hadmits, h⟩ := Option.ite_none_right_eq_some.1 h
  obtain ⟨server, hserver, rfl⟩ := Option.map_eq_some_iff.1 h
  exact ⟨hadmits, hserver, rfl⟩

theorem step_client {e : Client.Event} (h : (machine ids).step s (.client i e) = some t) :
    ∃ x, (s.session i).step (.client e) = some x ∧ t = s.setSession i x := by
  obtain ⟨x, hx, rfl⟩ := Option.map_eq_some_iff.1 h
  exact ⟨x, hx, rfl⟩

theorem step_traffic {n : ℕ} {a : Link.Action}
    (h : (machine ids).step s (.traffic i n a) = some t) :
    Broadcast.Carries (s.server.registry.life (i, n)) a ∧
      ∃ x, (s.session i).step (.traffic n a) = some x ∧ t = s.setSession i x := by
  obtain ⟨hcarries, h⟩ := Option.ite_none_right_eq_some.1 h
  obtain ⟨x, hx, rfl⟩ := Option.map_eq_some_iff.1 h
  exact ⟨hcarries, x, hx, rfl⟩

@[simp] theorem session_setSession (s : Deployment ι) (i : ι) (x : Session) :
    (s.setSession i x).session i = x := by
  simp [session, setSession]

theorem session_setSession_of_ne {j : ι} (hj : j ≠ i) (x : Session) :
    (s.setSession i x).session j = s.session j := by
  simp [session, setSession, hj]

/-- Each client takes its own steps. -/
theorem projects_client (ids : ChannelIds (ι × ℕ)) (i : ι) :
    Machine.Projects (machine ids) Client.machine (fun s => s.clients i) (Label.event? i) where
  init := rfl
  step := by
    intro ls s l t _ hstep
    cases l with
    | server l =>
      obtain ⟨-, -, hclients⟩ := step_server hstep
      exact congrFun hclients i
    | client j e =>
      obtain ⟨x, hx, rfl⟩ := step_client hstep
      by_cases hj : j = i
      · subst hj
        have hclient : Client.machine.step (s.clients j) e = some x.client :=
          (Session.step_client hx).1
        simpa [Label.event?, setSession] using hclient
      · simp [Label.event?, setSession, hj, Ne.symm hj]
    | traffic j n a =>
      obtain ⟨-, x, hx, rfl⟩ := step_traffic hstep
      obtain ⟨link, -, -, rfl⟩ := Session.step_traffic hx
      by_cases hj : j = i
      · subst hj
        simp [Label.event?, setSession, session]
      · simp [Label.event?, setSession, Ne.symm hj]

theorem current_reaches (h : (machine ids).Reaches ls s) (i : ι) :
    ∃ k, (s.clients i).Current k :=
  Client.current_reaches ((projects_client ids i).reaches h)

/-- The links of the client's session that a step leaves alone are the server's. -/
theorem server_setSession (s : Deployment ι) (i : ι) (client : Client) :
    (s.setSession i ⟨client, (s.session i).links⟩).server = s.server := by
  have hlinks : (fun c : ι × ℕ => if c.1 = i then s.server.links (i, c.2)
      else s.server.links c) = s.server.links := by
    funext c
    split_ifs with hc
    · exact congrArg s.server.links (Prod.ext hc.symm rfl)
    · rfl
  simp only [setSession, session, hlinks]

theorem server_setSession_update (s : Deployment ι) (i : ι) (client : Client) (n : ℕ)
    (link : Link) :
    (s.setSession i ⟨client, Function.update (s.session i).links n link⟩).server =
      { s.server with links := Function.update s.server.links (i, n) link } := by
  have hlinks : (fun c : ι × ℕ => if c.1 = i then
      Function.update (s.session i).links n link c.2 else s.server.links c) =
      Function.update s.server.links (i, n) link := by
    funext ⟨j, m⟩
    by_cases hj : j = i
    · subst hj
      by_cases hm : m = n
      · subst hm
        simp
      · simp [hm, session]
    · simp [hj]
  simp only [setSession, hlinks]

/-! ## The parts of a run -/

/-- The server's part of a step. -/
theorem server_of_step {l : Label ι} (h : (machine ids).step s l = some t) :
    t.server = s.server ∨ ∃ k, (Broadcast.machine ids).step s.server k = some t.server := by
  cases l with
  | server l =>
    obtain ⟨-, hserver, -⟩ := step_server h
    exact Or.inr ⟨.registry l, hserver⟩
  | client i e =>
    obtain ⟨x, hx, rfl⟩ := step_client h
    obtain ⟨client, hclient, rfl⟩ := Option.map_eq_some_iff.1 hx
    cases hmessage : (s.session i).client.message e with
    | none =>
      rw [Session.carryOut, hmessage]
      exact Or.inl (server_setSession s i client)
    | some x =>
      obtain ⟨n, content⟩ := x
      rw [Session.carryOut, hmessage]
      refine Or.inr ⟨.traffic (i, n) (.sendData content), ?_⟩
      rw [server_setSession_update]
      exact Broadcast.step_of_link trivial rfl
  | traffic i n a =>
    obtain ⟨hcarries, x, hx, rfl⟩ := step_traffic h
    obtain ⟨link, hlink, -, rfl⟩ := Session.step_traffic hx
    refine Or.inr ⟨.traffic (i, n) a, ?_⟩
    rw [server_setSession_update]
    exact Broadcast.step_of_link hcarries hlink

theorem server_reaches (h : (machine ids).Reaches ls s) :
    ∃ ks, (Broadcast.machine ids).Reaches ks s.server :=
  Machine.reaches_part (M := machine ids) (f := server) rfl (fun _ _ _ => server_of_step) h

/-- A channel becomes active by one event. -/
theorem eq_channelActive {u v : Registry (ι × ℕ)} {l : Registry.Label (ι × ℕ)} {c : ι × ℕ}
    (hstep : Registry.step ids u l = some v) (hfresh : u.life c = .fresh)
    (hlife : v.life c ≠ .fresh) : l = .channelActive c := by
  have hturn := Registry.life_step hstep
  cases l with
  | channelActive c' | becomesInactive c' | channelInactive c' =>
    obtain ⟨hbefore, hlater⟩ := hturn
    by_cases hc : c = c'
    · subst hc
      first | rfl | cases hbefore.symm.trans hfresh
    · rw [hlater, Function.update_of_ne hc] at hlife
      exact absurd hfresh hlife
  | request r mapping | next r key | done r | step r =>
    rw [show v.life = u.life from hturn] at hlife
    exact absurd hfresh hlife

/-- The server has seen connections alone that have been made. -/
theorem connected_reaches (h : (machine ids).Reaches ls s) :
    ∀ c, s.server.registry.life c ≠ .fresh →
      ((s.clients c.1).stage c.2).hasConnected = true := by
  refine Machine.history_invariant (M := machine ids) (I := fun _ s =>
    ∀ c, s.server.registry.life c ≠ .fresh →
      ((s.clients c.1).stage c.2).hasConnected = true) ?_ ?_ h
  · intro c hc
    exact absurd rfl hc
  · intro ls s l t hs ih hstep c hc
    cases l with
    | server l =>
      obtain ⟨hadmits, hserver, hclients⟩ := step_server hstep
      rw [hclients]
      by_cases hfresh : s.server.registry.life c = .fresh
      · obtain rfl := eq_channelActive (Broadcast.step_registry hserver).1 hfresh hc
        exact hadmits
      · exact ih c hfresh
    | client i e =>
      obtain ⟨x, hx, rfl⟩ := step_client hstep
      have hconnected := ih c hc
      by_cases hi : c.1 = i
      · obtain ⟨k, hcurrent⟩ := current_reaches hs i
        subst hi
        simpa [setSession] using
          hcurrent.hasConnected_of_step (Session.step_client hx).1 hconnected
      · simpa [setSession, hi] using hconnected
    | traffic i n a =>
      obtain ⟨-, x, hx, rfl⟩ := step_traffic hstep
      obtain ⟨link, -, -, rfl⟩ := Session.step_traffic hx
      by_cases hi : c.1 = i
      · subst hi
        simpa [setSession, session] using ih c hc
      · simpa [setSession, hi] using ih c hc

/-- The server has pushed on connections alone that have been made. -/
theorem connected_of_ledger (h : (machine ids).Reaches ls s) {x : Push (ι × ℕ)}
    (hx : x ∈ s.server.ledger) :
    ((s.clients x.channel.1).stage x.channel.2).hasConnected = true := by
  obtain ⟨ks, hks⟩ := server_reaches h
  exact connected_reaches h x.channel (Broadcast.life_of_ledger hks x hx)

theorem ledger_of_step {l : Label ι} (h : (machine ids).step s l = some t) :
    ∃ added, t.server.ledger = s.server.ledger ++ added := by
  rcases server_of_step h with hsame | ⟨k, hk⟩
  · exact ⟨[], by rw [hsame, List.append_nil]⟩
  · exact ⟨_, Broadcast.ledger_step hk⟩

/-- A client's part of a step. -/
theorem session_of_step (hs : (machine ids).Reaches ls s) {l : Label ι}
    (h : (machine ids).step s l = some t) (i : ι) :
    t.session i = s.session i ∨ ∃ k, (s.session i).step k = some (t.session i) := by
  cases l with
  | server l =>
    obtain ⟨-, hserver, hclients⟩ := step_server h
    obtain ⟨-, ht⟩ := Broadcast.step_registry hserver
    have hlinks : t.server.links = (s.server.carryOut (s.server.push l)).links := by rw [ht]
    cases hpush : s.server.push l with
    | none =>
      rw [hpush] at hlinks
      refine Or.inl ?_
      simp only [session, hclients, hlinks, Broadcast.carryOut]
    | some x =>
      rw [hpush] at hlinks
      obtain ⟨r, ⟨j, n⟩, msg⟩ := x
      by_cases hj : j = i
      · subst hj
        have hactive : s.server.registry.life (j, n) = .active :=
          of_decide_eq_true (Broadcast.push_eq_some hpush).2.1
        have hconnected : ((s.clients j).stage n).hasConnected = true :=
          connected_reaches hs (j, n) (by simp [hactive])
        refine Or.inr ⟨.traffic n (.push msg), ?_⟩
        have hsession : t.session j = { s.session j with
            links := Function.update (s.session j).links n
              (((s.session j).links n).pushes msg) } := by
          simp only [session, hclients, hlinks, Broadcast.carryOut]
          exact congrArg _ (Function.update_comp_eq_of_injective s.server.links
            (Prod.mk_right_injective j) n _)
        rw [hsession]
        exact if_pos hconnected
      · refine Or.inl ?_
        have hne : ∀ m, (i, m) ≠ (j, n) := fun m hm => hj (congrArg Prod.fst hm).symm
        simp only [session, hclients, hlinks, Broadcast.carryOut, Function.update_of_ne (hne _)]
  | client j e =>
    obtain ⟨x, hx, rfl⟩ := step_client h
    by_cases hj : j = i
    · subst hj
      rw [session_setSession]
      exact Or.inr ⟨.client e, hx⟩
    · exact Or.inl (session_setSession_of_ne (Ne.symm hj) x)
  | traffic j n a =>
    obtain ⟨-, x, hx, rfl⟩ := step_traffic h
    by_cases hj : j = i
    · subst hj
      rw [session_setSession]
      exact Or.inr ⟨.traffic n a, hx⟩
    · exact Or.inl (session_setSession_of_ne (Ne.symm hj) x)

theorem session_reaches (h : (machine ids).Reaches ls s) (i : ι) :
    ∃ ks, Session.machine.Reaches ks (s.session i) := by
  refine Machine.history_invariant (M := machine ids) (I := fun _ s =>
    ∃ ks, Session.machine.Reaches ks (s.session i)) ⟨[], rfl⟩ ?_ h
  rintro ls s l t hs ⟨ks, hks⟩ hstep
  rcases session_of_step hs hstep i with hsame | ⟨k, hk⟩
  · exact ⟨ks, hsame ▸ hks⟩
  · exact ⟨ks ++ [k], Machine.reaches_snoc.2 ⟨_, hks, hk⟩⟩

/-- A step leaves the client's last attempt the last one, or it is the start of a new one. -/
theorem current_of_step (hs : (machine ids).Reaches ls s) {l : Label ι}
    (h : (machine ids).step s l = some t) {k : ℕ} (hcurrent : (s.clients i).Current k) :
    (t.clients i).Current k ∨
      ((t.clients i).Current (k + 1) ∧ (t.clients i).stage (k + 1) = .connecting) := by
  have hclient := (projects_client ids i).step ls s l t hs h
  cases hevent : l.event? i with
  | none =>
    rw [hevent] at hclient
    have hclient : t.clients i = s.clients i := hclient
    exact Or.inl (hclient ▸ hcurrent)
  | some e =>
    rw [hevent] at hclient
    obtain ⟨m, hm, hturn⟩ := hcurrent.turn hclient
    rcases hturn.last with rfl | rfl
    · exact Or.inl hm
    · exact Or.inr ⟨hm, hturn.stage_eq⟩

/-! ## The order of the pushes to a client -/

/-- What the client has handled on its first `k` connections are short messages pushed to it, in the
order of the ledger, and echoes of its own, in the order in which it has sent them. -/
def Merges (s : Deployment ι) (i : ι) (k : ℕ) (ledger : List (Push (ι × ℕ))) : Prop :=
  ∃ pushes echoes, Interleaving pushes echoes (s.handled i k) ∧
    pushes.Sublist ((pushedTo i ledger).filter Link.Short) ∧ echoes.Sublist (s.sent i k)

/-- The connections before number `k` are done with: the client has handled there what it ever will,
and this was pushed before anything was pushed to connection `k`. -/
def Past (s : Deployment ι) (i : ι) (k : ℕ) : Prop :=
  ∃ old new, s.server.ledger = old ++ new ∧
    (∀ x ∈ old, x.channel.1 = i → x.channel.2 < k) ∧ s.Merges i k old

theorem payloads_sublist (c : ι × ℕ) (ledger : List (Push (ι × ℕ))) :
    (Broadcast.payloads c ledger).Sublist (pushedTo c.1 ledger) := by
  induction ledger with
  | nil => exact List.Sublist.refl _
  | cons x ledger ih =>
    simp only [Broadcast.payloads, pushedTo] at ih ⊢
    by_cases hc : x.channel = c
    · simpa [hc] using ih
    · by_cases hi : x.channel.1 = c.1
      · simpa [hc, hi] using ih.cons x.msg.data
      · simpa [hc, hi] using ih

theorem payloads_eq_nil {c : ι × ℕ} {ledger : List (Push (ι × ℕ))}
    (h : ∀ x ∈ ledger, x.channel ≠ c) : Broadcast.payloads c ledger = [] :=
  List.filterMap_eq_nil_iff.2 fun x hx => if_neg (h x hx)

/-- What has been pushed to connection `k` was pushed after everything handled before. -/
theorem Past.merges (hs : (machine ids).Reaches ls s) {k : ℕ} (h : s.Past i k) :
    s.Merges i (k + 1) s.server.ledger := by
  obtain ⟨old, new, hledger, hold, pushes, echoes, hmerge, hpushes, hechoes⟩ := h
  obtain ⟨ks, hks⟩ := server_reaches hs
  obtain ⟨⟨as, has⟩, hpushed⟩ := Broadcast.link_reaches hks (i, k)
  obtain ⟨a, b, hlast⟩ := (Link.customs_toClient has).take_of_append
  have hnone : Broadcast.payloads (i, k) old = [] := by
    refine payloads_eq_nil fun x hx hc => ?_
    have hlt := hold x hx (congrArg Prod.fst hc)
    rw [hc] at hlt
    exact Nat.lt_irrefl k hlt
  have hnew : (s.server.links (i, k)).pushed.Sublist (pushedTo i new) := by
    have happend : Broadcast.payloads (i, k) (old ++ new) =
        Broadcast.payloads (i, k) old ++ Broadcast.payloads (i, k) new := List.filterMap_append
    rw [hpushed, hledger, happend, hnone, List.nil_append]
    exact payloads_sublist (i, k) new
  have hreceived : (Exchange.received (s.server.links (i, k)).server.context).Sublist
      ((s.server.links (i, k)).sent.filter Link.Short) := by
    rw [← Link.customs_toServer has]
    exact List.sublist_append_left _ _
  have hpushedTo : (pushedTo i s.server.ledger).filter Link.Short =
      (pushedTo i old).filter Link.Short ++ (pushedTo i new).filter Link.Short := by
    rw [hledger, ← List.filter_append]
    exact congrArg (List.filter _) List.filterMap_append
  refine ⟨_, _, handled_succ s i k ▸ hmerge.append hlast, ?_, ?_⟩
  · rw [hpushedTo]
    exact hpushes.append ((List.take_sublist a _).trans (hnew.filter _))
  · rw [sent_succ]
    exact hechoes.append ((List.take_sublist b _).trans hreceived)

/-- What a step does to the client's links: it sends no less on any, and what the client has handled
on the connections that it has lost is settled. -/
theorem links_of_step (hs : (machine ids).Reaches ls s) {l : Label ι}
    (h : (machine ids).step s l = some t) {k : ℕ} (hcurrent : (s.clients i).Current k) :
    (∀ n, (s.server.links (i, n)).sent <+: (t.server.links (i, n)).sent) ∧
      ∀ n, n < k → (t.server.links (i, n)).client = (s.server.links (i, n)).client := by
  rcases session_of_step hs h i with hsame | ⟨k', hk'⟩
  · have hlinks : ∀ n, t.server.links (i, n) = s.server.links (i, n) :=
      congrFun (congrArg Session.links hsame)
    exact ⟨fun n => by rw [hlinks], fun n _ => by rw [hlinks]⟩
  · refine ⟨fun n => Session.sent_step hk' n, fun n hn => ?_⟩
    exact Session.client_of_step hk' (Stage.isActive_of_lifeline (hcurrent.ended n hn))

theorem Merges.step {k : ℕ} {ledger : List (Push (ι × ℕ))} (h : s.Merges i k ledger)
    (hsent : ∀ n, (s.server.links (i, n)).sent <+: (t.server.links (i, n)).sent)
    (hclient : ∀ n, n < k → (t.server.links (i, n)).client = (s.server.links (i, n)).client) :
    t.Merges i k ledger := by
  obtain ⟨pushes, echoes, hmerge, hpushes, hechoes⟩ := h
  have hhandled : t.handled i k = s.handled i k :=
    List.flatMap_congr fun n hn => by rw [hclient n (List.mem_range.1 hn)]
  refine ⟨pushes, echoes, hhandled ▸ hmerge, hpushes, hechoes.trans ?_⟩
  exact List.Sublist.flatMap_right _ fun n _ => (hsent n).sublist.filter _

theorem past_reaches (h : (machine ids).Reaches ls s) (i : ι) :
    ∃ k, (s.clients i).Current k ∧ s.Past i k := by
  refine Machine.history_invariant (M := machine ids)
    (I := fun _ s => ∃ k, (s.clients i).Current k ∧ s.Past i k) ?_ ?_ h
  · exact ⟨0, Client.current_start, [], [], rfl, by simp, [], [], .nil, List.nil_sublist _,
      List.nil_sublist _⟩
  · rintro ls s l t hs ⟨k, hcurrent, old, new, hledger, hold, hmerges⟩ hstep
    have ht : (machine ids).Reaches (ls ++ [l]) t := Machine.reaches_snoc.2 ⟨s, hs, hstep⟩
    obtain ⟨hsent, hclient⟩ := links_of_step hs hstep hcurrent
    obtain ⟨added, hadded⟩ := ledger_of_step hstep
    have hpast : t.Past i k :=
      ⟨old, new ++ added, by rw [hadded, hledger, List.append_assoc], hold,
        hmerges.step hsent hclient⟩
    rcases current_of_step hs hstep hcurrent with hsame | ⟨hnext, hconnecting⟩
    · exact ⟨k, hsame, hpast⟩
    · refine ⟨k + 1, hnext, t.server.ledger, [], (List.append_nil _).symm, ?_, hpast.merges ht⟩
      rintro ⟨r, ⟨j, n⟩, msg⟩ hx rfl
      have hconnected := connected_of_ledger ht hx
      have hle : n ≤ k + 1 := by
        by_contra hn
        rw [hnext.unused n (Nat.lt_of_not_le hn)] at hconnected
        cases hconnected
      have hne : n ≠ k + 1 := by
        rintro rfl
        rw [hconnecting] at hconnected
        cases hconnected
      exact lt_of_le_of_ne hle hne

/-- What a client has sent, one connection after the other, is what it has written. -/
theorem sent_eq_payloads (h : (machine ids).Reaches ls s) (i : ι) :
    s.sent i (s.clients i).connects = (s.clients i).payloads.filter Link.Short := by
  obtain ⟨ks, hks⟩ := session_reaches h i
  have horder := (Client.written_in_order ((projects_client ids i).reaches h)).1
  rw [← horder, List.filter_flatMap]
  exact List.flatMap_congr fun n _ => Session.sent_eq_written hks n

/-- **What a client handles, over all its connections.** However often the client has lost its
connection and made a new one, and whichever of its channels the pushes were carried out on: what it
has handled, one connection after the other, is a merge of short messages pushed to it, in the order
of the pushes and none of them twice, with echoes of its own short messages, in the order in which
`sendData` has written them. When its calls of `sendData` do not overlap, the echoes are in the
order of the calls. -/
theorem client_in_order (h : (machine ids).Reaches ls s) (i : ι) :
    ∃ pushes echoes, Interleaving pushes echoes (s.handled i (s.clients i).connects) ∧
      pushes.Sublist ((pushedTo i s.server.ledger).filter Link.Short) ∧
      echoes.Sublist ((s.clients i).payloads.filter Link.Short) ∧
      (Client.Sequential (ls.filterMap (Label.event? i)) →
        echoes.Sublist ((sends i ls).filter Link.Short)) := by
  obtain ⟨k, hcurrent, hpast⟩ := past_reaches h i
  obtain ⟨pushes, echoes, hmerge, hpushes, hechoes⟩ := hpast.merges h
  have hwritten : echoes.Sublist ((s.clients i).payloads.filter Link.Short) := by
    rwa [← sent_eq_payloads h i, hcurrent.connects]
  refine ⟨pushes, echoes, hcurrent.connects ▸ hmerge, hpushes, hwritten, ?_⟩
  intro hseq
  have hclient := (projects_client ids i).reaches h
  exact hwritten.trans ((Client.written_sublist hclient hseq).filter _)

/-- The ids of the channels of a single client. -/
def oneClient : ChannelIds (Unit × ℕ) where
  asLongText c := String.ofList (List.replicate c.2 'a')
  unique := by
    rintro ⟨⟨⟩, m⟩ ⟨⟨⟩, n⟩ h
    simpa using congrArg String.length h

/-- The second push finds the channel that the client has lost and its new one, and is carried out
on both. On the new one the echo of a message comes before it. -/
theorem client_in_order_run :
    let body (r n : ℕ) : List (Label Unit) :=
      .server (.next r (oneClient.asLongText ((), n))) :: List.replicate 4 (.server (.step r))
    let ls : List (Label Unit) :=
      [.client () (.success 0), .client () (.operationComplete 0),
        .server (.channelActive ((), 0)), .server (.request 0 (.insertRow ⟨[97], by decide⟩))] ++
      body 0 0 ++
      [.server (.done 0), .traffic () 0 (.clientReads 6), .client () (.lose 0),
        .client () (.channelInactive 0), .client () (.success 1),
        .client () (.operationComplete 1), .server (.channelActive ((), 1)),
        .client () (.sendData 0 ⟨[99], by decide⟩)] ++
      List.replicate 3 (.client () (.step 0)) ++ [.traffic () 1 (.serverReads 6),
        .server (.request 1 (.insertRow ⟨[98], by decide⟩))] ++
      body 1 0 ++ body 1 1 ++ [.server (.done 1), .traffic () 1 (.clientReads 12)]
    ∃ s, (machine oneClient).Reaches ls s ∧
      pushedTo () s.server.ledger = [[97], [98], [98]] ∧ sends () ls = [[99]] ∧
      s.handled () (s.clients ()).connects = [[97], [99], [98]] ∧
      ∃ pushes echoes, Interleaving pushes echoes (s.handled () (s.clients ()).connects) ∧
        pushes.Sublist ((pushedTo () s.server.ledger).filter Link.Short) ∧
        echoes.Sublist ((sends () ls).filter Link.Short) := by
  intro body ls
  have hrun : ((machine oneClient).exec (machine oneClient).init ls).map (fun s =>
      (pushedTo () s.server.ledger, s.handled () (s.clients ()).connects)) =
        some ([[97], [98], [98]], [[97], [99], [98]]) := by decide +kernel
  obtain ⟨s, hs, hlists⟩ := Option.map_eq_some_iff.1 hrun
  obtain ⟨hpushed, hhandled⟩ := Prod.mk.inj hlists
  have hthread : Client.CalledBy 0 (ls.filterMap (Label.event? ())) := by
    unfold Client.CalledBy
    decide
  have hseq := Client.sequential_of_calledBy ((projects_client oneClient ()).reaches hs) hthread
  obtain ⟨pushes, echoes, hmerge, hpushes, -, hechoes⟩ := client_in_order hs ()
  exact ⟨s, hs, hpushed, rfl, hhandled, pushes, echoes, hmerge, hpushes, hechoes hseq⟩

/-! ## A client can always come back -/

variable (ids) in
/-- The steps of a client. -/
theorem exec_client {es : List Client.Event} {client : Client}
    (h : Client.machine.exec (s.clients i) es = some client) :
    ∃ t, (machine ids).exec s (es.map (.client i)) = some t ∧ t.clients i = client ∧
      t.server.registry = s.server.registry := by
  induction es generalizing s with
  | nil => exact ⟨s, rfl, Option.some.inj h, rfl⟩
  | cons e es ih =>
    obtain ⟨client', hclient', hrest⟩ := Machine.exec_cons_eq_some.1 h
    have hstep : (machine ids).step s (.client i e) =
        some (s.setSession i ⟨client', (s.session i).carryOut e⟩) := by
      have hsession : (s.session i).step (.client e) =
          some ⟨client', (s.session i).carryOut e⟩ := congrArg (Option.map _) hclient'
      exact congrArg (Option.map _) hsession
    have hlater : Client.machine.exec
        ((s.setSession i ⟨client', (s.session i).carryOut e⟩).clients i) es = some client := by
      simpa [setSession] using hrest
    obtain ⟨t, hexec, hclient, hregistry⟩ := ih hlater
    exact ⟨t, Machine.exec_cons_eq_some.2 ⟨_, hstep, hexec⟩, hclient, hregistry⟩

variable (ids) in
/-- A connection that the server has not seen becomes an active channel, in the map. -/
theorem exists_channelActive {n : ℕ} (hconnected : ((s.clients i).stage n).hasConnected = true)
    (hfresh : s.server.registry.life (i, n) = .fresh) :
    ∃ t, (machine ids).step s (.server (.channelActive (i, n))) = some t ∧
      t.clients = s.clients ∧ t.server.registry.isActive (i, n) = true ∧
      t.server.registry.channels.lookup (ids.asLongText (i, n)) = some (i, n) := by
  obtain ⟨registry, hregistry⟩ := Registry.step_of_act ids (s := s.server.registry)
    (l := .channelActive (i, n)) (by simp [Registry.act, hfresh])
  have hserver : s.server.step ids (.registry (.channelActive (i, n))) =
      some { s.server with registry := registry } := congrArg (Option.map _) hregistry
  refine ⟨{ s with server := { s.server with registry := registry } }, ?_, rfl, ?_, ?_⟩
  · exact (if_pos hconnected).trans (congrArg (Option.map _) hserver)
  · have hlife := (Registry.life_step hregistry).2
    simp [Registry.isActive, hlife]
  · have hchannels := Registry.channels_step hregistry
    simp [hchannels, Registry.mapOp, ConcurrentMap.MapOp.apply]

/-- **A client can always come back.** Whatever has happened, its channels having been removed or
still being there, and whatever requests and other clients are doing meanwhile: by events of its own
alone and one `channelActive`, the client gets a new connection, to which its field `channel` refers
and which is active and in the map under its id. -/
theorem comes_back (h : (machine ids).Reaches ls s) (i : ι) :
    ∃ (es : List Client.Event) (n : ℕ) (t : Deployment ι),
      (machine ids).exec s (es.map (.client i) ++ [.server (.channelActive (i, n))]) = some t ∧
      (t.clients i).stage n = .connected true ∧ (t.clients i).channel = some n ∧
      t.server.registry.isActive (i, n) = true ∧
      t.server.registry.channels.lookup (ids.asLongText (i, n)) = some (i, n) := by
  obtain ⟨k, hcurrent⟩ := current_reaches h i
  obtain ⟨es, client, n, hexec, hstage, hchannel, hnew⟩ := hcurrent.canReconnect
  have hfresh : s.server.registry.life (i, n) = .fresh := by
    by_contra hlife
    cases hnew.symm.trans (connected_reaches h (i, n) hlife)
  obtain ⟨u, hu, rfl, hregistry⟩ := exec_client ids hexec
  obtain ⟨t, ht, hclients, hactive, hlookup⟩ := exists_channelActive ids (s := u)
    (by rw [hstage]; rfl) (by rwa [hregistry])
  refine ⟨es, n, t, Machine.exec_append_eq_some.2 ⟨u, hu, ?_⟩, ?_, ?_, hactive, hlookup⟩
  · exact Machine.exec_cons_eq_some.2 ⟨t, ht, rfl⟩
  · rwa [hclients]
  · rwa [hclients]

/-- A client comes back when its channel has been removed. -/
theorem comes_back_run :
    let ls : List (Label Unit) :=
      [.client () (.success 0), .client () (.operationComplete 0),
        .server (.channelActive ((), 0)), .server (.request 0 .remove),
        .server (.next 0 (oneClient.asLongText ((), 0)))] ++
      List.replicate 4 (.server (.step 0)) ++ [.server (.done 0)]
    ∃ s, (machine oneClient).Reaches ls s ∧
      s.server.registry.channels.lookup (oneClient.asLongText ((), 0)) = none ∧
      ∃ (es : List Client.Event) (n : ℕ) (t : Deployment Unit),
        (machine oneClient).exec s
          (es.map (.client ()) ++ [.server (.channelActive ((), n))]) = some t ∧
        t.server.registry.channels.lookup (oneClient.asLongText ((), n)) = some ((), n) := by
  intro ls
  have hrun : ((machine oneClient).exec (machine oneClient).init ls).map
      (fun s => s.server.registry.channels.lookup (oneClient.asLongText ((), 0))) =
        some none := by decide +kernel
  obtain ⟨s, hs, hremoved⟩ := Option.map_eq_some_iff.1 hrun
  obtain ⟨es, n, t, hexec, -, -, -, hlookup⟩ := comes_back hs ()
  exact ⟨s, hs, hremoved, es, n, t, hexec, hlookup⟩

end Deployment

end MmtxSample
