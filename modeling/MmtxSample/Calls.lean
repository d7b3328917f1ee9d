import Mathlib.Data.List.Flatten
import MmtxSample.Attempts

/-!
# What the calls of `sendData` write

Between the check of a call and its write anything may happen, and calls of several threads may
overlap. What they write, they write in the order of their writes, and every write goes to the last
connection; so the connections, one after the other, carry the messages in the order in which they
were written (`written_in_order`).

* `written_sublist`: when each call begins after the ones before it are over, this is the order of
  the calls. Calls of a single thread are like that (`sequential_of_calledBy`).
* `written_of_call`: a call that begins when the client has a connection whose listener has run, and
  is over while that connection is active, has written its message to it.
-/

namespace MmtxSample

open Java CustomHeartbeatHandler TransitionSystem

namespace Client

/-- The payloads of the calls, in the order in which they begin. -/
def sends (es : List Event) : List (List UInt8) :=
  es.filterMap fun
    | .sendData _ content => some content.data
    | _ => none

/-- Each call begins when no other is under way. -/
def Sequential (es : List Event) : Prop :=
  ∀ before r content, before ++ [.sendData r content] <+: es →
    ∀ s, machine.Reaches before s → ∀ r', s.calls r' = none

/-- All calls are those of thread `r`. -/
def CalledBy (r : ℕ) (es : List Event) : Prop := ∀ e ∈ es, ∀ r', e.thread? = some r' → r' = r

/-- The payloads written, in order. -/
def payloads (s : Client) : List (List UInt8) := s.written.map fun w => w.2.drop 5

/-- The payloads written to the channel of attempt `n`. -/
def writtenTo (s : Client) (n : ℕ) : List (List UInt8) :=
  s.written.filterMap fun w => if w.1 = n then some (w.2.drop 5) else none

/-- The message that an event puts on a connection. -/
def message (s : Client) : Event → Option (ℕ × Bytes)
  | .step r =>
    match s.calls r, s.channel with
    | some (.write content), some n => if s.isActive n then some (n, content) else none
    | _, _ => none
  | _ => none

variable {s t u v : Client} {e : Event} {es : List Event} {k n r : ℕ}

/-! ## One step -/

theorem payloads_congr (h : t.written = s.written) : t.payloads = s.payloads := by
  rw [payloads, h, payloads]

theorem writtenTo_congr (h : t.written = s.written) : t.writtenTo = s.writtenTo := by
  funext n
  rw [writtenTo, h, writtenTo]

theorem payloads_snoc {m : ℕ} {payload : List UInt8}
    (h : t.written = s.written ++ [(m, frame CUSTOM_MSG payload)]) :
    t.payloads = s.payloads ++ [payload] := by
  simp [payloads, h, drop_frame]

theorem writtenTo_snoc {m : ℕ} {payload : List UInt8}
    (h : t.written = s.written ++ [(m, frame CUSTOM_MSG payload)]) (n : ℕ) :
    t.writtenTo n = s.writtenTo n ++ if m = n then [payload] else [] := by
  rw [writtenTo, h, List.filterMap_append, ← writtenTo]
  by_cases hm : m = n <;> simp [hm, drop_frame]

theorem message_eq_some {content : Bytes} (h : s.message e = some (n, content)) :
    ∃ r, e = .step r ∧ s.calls r = some (.write content) ∧ s.channel = some n ∧
      s.isActive n = true := by
  unfold message at h
  split at h
  · rename_i r
    split at h
    · rename_i hcall hchannel
      obtain ⟨hactive, h⟩ := Option.ite_none_right_eq_some.1 h
      obtain ⟨rfl, rfl⟩ := Prod.mk.inj (Option.some.inj h)
      exact ⟨r, rfl, hcall, hchannel, hactive⟩
    · cases h
  · cases h

theorem message_of_thread (h : e.thread? = none) : s.message e = none := by
  cases e with
  | step r => cases h
  | _ => rfl

/-- The write of a call that finds an active channel. -/
theorem message_write {content : Bytes} (hcall : s.calls r = some (.write content))
    (hchannel : s.channel = some n) (hactive : s.isActive n = true) :
    s.message (.step r) = some (n, content) ∧
      (s.stepCall r (.write content)).written = s.written ++
        if 5 + content.length ≤ intMax then [(n, frame CUSTOM_MSG content.data)] else [] := by
  refine ⟨by simp [message, hcall, hchannel, hactive], ?_⟩
  split_ifs with hint
  · rw [stepCall_write hchannel hint]
    exact congrArg written (if_pos hactive)
  · rw [stepCall_overflow hchannel hint, List.append_nil]
    rfl

/-- A step writes its message, unless the frame could not be made. -/
theorem written_of_step (hstep : s.step e = some t) :
    (s.message e = none ∧ t.written = s.written) ∨
    ∃ n content, s.message e = some (n, content) ∧ t.written = s.written ++
      if 5 + content.length ≤ intMax then [(n, frame CUSTOM_MSG content.data)] else [] := by
  rcases calls_cases hstep with
    ⟨hthread, -, hsame⟩ | ⟨r, content, rfl, -, rfl⟩ | ⟨r, call, rfl, hcall, rfl⟩
  · exact Or.inl ⟨message_of_thread hthread, hsame⟩
  · exact Or.inl ⟨rfl, rfl⟩
  · cases hmessage : s.message (.step r) with
    | some x =>
      obtain ⟨n, content⟩ := x
      obtain ⟨r', hr, hcall', hchannel, hactive⟩ := message_eq_some hmessage
      obtain rfl := Event.step.inj hr
      obtain rfl := Option.some.inj (hcall.symm.trans hcall')
      exact Or.inr ⟨n, content, rfl, (message_write hcall hchannel hactive).2⟩
    | none =>
      refine Or.inl ⟨rfl, ?_⟩
      rcases s.stepCall_cases r call with
        ⟨call', hnext, -⟩ | hover | ⟨n, content, rfl, hchannel, hactive, -⟩
      · rw [hnext]
        rfl
      · rw [hover]
        rfl
      · cases hmessage.symm.trans (message_write hcall hchannel hactive).1

/-- What has been written to a channel is not taken back. -/
theorem writtenTo_of_step (hstep : s.step e = some t) (n : ℕ) :
    s.writtenTo n <+: t.writtenTo n := by
  rcases written_of_step hstep with ⟨-, hsame⟩ | ⟨m, content, -, hwrite⟩
  · rw [writtenTo_congr hsame]
  · split_ifs at hwrite
    · rw [writtenTo_snoc hwrite n]
      exact List.prefix_append _ _
    · rw [writtenTo_congr (hwrite.trans (List.append_nil _))]

/-! ## One connection after the other -/

/-- The writes are in the order of the connections, of which number `k` is the last. -/
structure Filed (s : Client) (k : ℕ) : Prop where
  current : s.Current k
  order : (List.range (k + 1)).flatMap s.writtenTo = s.payloads
  unused : ∀ n, k < n → s.writtenTo n = []

/-- Nothing is written, but there may be a new attempt. -/
theorem Filed.of_same {m : ℕ} (h : s.Filed k) (hcurrent : t.Current m) (hm : m = k ∨ m = k + 1)
    (hsame : t.written = s.written) : t.Filed m := by
  have hto := writtenTo_congr hsame
  have hpayloads := payloads_congr hsame
  rcases hm with rfl | rfl
  · exact ⟨hcurrent, by rw [hto, hpayloads, h.order], by simpa [hto] using h.unused⟩
  · refine ⟨hcurrent, ?_, fun n hn => by rw [hto, h.unused n (Nat.lt_of_succ_lt hn)]⟩
    rw [List.range_succ, List.flatMap_append, List.flatMap_singleton, hto, h.order, hpayloads,
      h.unused (k + 1) (Nat.lt_succ_self k), List.append_nil]

/-- A message to the last connection comes after all the others. -/
theorem Filed.of_write (h : s.Filed k) (hcurrent : t.Current k) {payload : List UInt8}
    (hwrite : t.written = s.written ++ [(k, frame CUSTOM_MSG payload)]) : t.Filed k := by
  have hbefore : (List.range k).flatMap t.writtenTo = (List.range k).flatMap s.writtenTo := by
    refine List.flatMap_congr fun n hn => ?_
    rw [writtenTo_snoc hwrite, if_neg (Nat.ne_of_gt (List.mem_range.1 hn)), List.append_nil]
  refine ⟨hcurrent, ?_, fun n hn => ?_⟩
  · have horder := h.order
    rw [List.range_succ, List.flatMap_append, List.flatMap_singleton] at horder ⊢
    rw [hbefore, writtenTo_snoc hwrite, if_pos rfl, ← List.append_assoc, horder,
      payloads_snoc hwrite]
  · rw [writtenTo_snoc hwrite, if_neg (Nat.ne_of_lt hn), List.append_nil, h.unused n hn]

theorem filed_reaches (h : machine.Reaches es s) : ∃ k, s.Filed k := by
  refine Machine.invariant (M := machine) (I := fun s => ∃ k, s.Filed k) ?_ ?_ h
  · exact ⟨0, current_start, rfl, fun n _ => rfl⟩
  · rintro s e t ⟨k, hfiled⟩ hstep
    obtain ⟨m, hcurrent, hturn⟩ := hfiled.current.turn hstep
    rcases written_of_step hstep with ⟨-, hsame⟩ | ⟨n, content, hmessage, hwrite⟩
    · exact ⟨m, hfiled.of_same hcurrent hturn.last hsame⟩
    · split_ifs at hwrite
      · obtain ⟨r, rfl, -, hchannel, hactive⟩ := message_eq_some hmessage
        obtain rfl := hturn.eq_of_thread rfl
        obtain ⟨rfl, -⟩ := hfiled.current.found hchannel hactive
        exact ⟨n, hfiled.of_write hcurrent hwrite⟩
      · exact ⟨m, hfiled.of_same hcurrent hturn.last (hwrite.trans (List.append_nil _))⟩

/-- **The connections carry the messages in the order of the writes,** one connection after the
other, and only those made so far carry any. -/
theorem written_in_order (h : machine.Reaches es s) :
    (List.range s.connects).flatMap s.writtenTo = s.payloads ∧
      ∀ n, s.connects ≤ n → s.writtenTo n = [] := by
  obtain ⟨k, hfiled⟩ := filed_reaches h
  rw [hfiled.current.connects]
  exact ⟨hfiled.order, fun n hn => hfiled.unused n hn⟩

/-! ## Calls that do not overlap -/

theorem Sequential.of_prefix {es' : List Event} (h : Sequential es) (hes : es' <+: es) :
    Sequential es' :=
  fun before r content hbefore => h before r content (hbefore.trans hes)

/-- One call at most is under way, and its message comes after those written. -/
structure InOrder (es : List Event) (s : Client) : Prop where
  alone : ∀ r r', s.calls r ≠ none → s.calls r' ≠ none → r = r'
  written : s.payloads.Sublist (sends es)
  next : ∀ r call, s.calls r = some call →
    (s.payloads ++ [call.content.data]).Sublist (sends es)

/-- A call begins, and no other is under way. -/
theorem InOrder.sendData (h : InOrder es s) (hnone : ∀ r', s.calls r' = none) (r : ℕ)
    (content : Bytes) :
    InOrder (es ++ [.sendData r content]) (s.setCall r (some (.notNull content))) := by
  have hsends : sends (es ++ [.sendData r content]) = sends es ++ [content.data] := by
    simp [sends]
  have hcalls : ∀ r' call, (s.setCall r (some (.notNull content))).calls r' = some call →
      r' = r ∧ call = .notNull content := by
    intro r' call hcall
    rw [calls_setCall, hnone] at hcall
    split_ifs at hcall with hr
    exact ⟨hr, (Option.some.inj hcall).symm⟩
  refine ⟨?_, ?_, ?_⟩
  · intro r₁ r₂ h₁ h₂
    obtain ⟨call₁, h₁⟩ := Option.ne_none_iff_exists'.1 h₁
    obtain ⟨call₂, h₂⟩ := Option.ne_none_iff_exists'.1 h₂
    exact (hcalls r₁ call₁ h₁).1.trans (hcalls r₂ call₂ h₂).1.symm
  · rw [hsends]
    exact h.written.trans (List.sublist_append_left _ _)
  · intro r' call hcall
    obtain ⟨-, rfl⟩ := hcalls r' call hcall
    rw [hsends]
    exact h.written.append_right _

/-- The call takes a step. -/
theorem InOrder.step (h : InOrder es s) {call : SendData} (hcall : s.calls r = some call) :
    InOrder (es ++ [.step r]) (s.stepCall r call) := by
  have hsends : sends (es ++ [.step r]) = sends es := by simp [sends]
  have hother : ∀ r', r' ≠ r → (s.stepCall r call).calls r' = none := by
    intro r' hr
    rw [stepCall_calls_of_ne hr]
    by_contra hr'
    exact hr (h.alone r' r hr' (by simp [hcall]))
  have halone : ∀ r', (s.stepCall r call).calls r' ≠ none → r' = r := by
    intro r' hr'
    by_contra hr
    exact hr' (hother r' hr)
  refine ⟨fun r₁ r₂ h₁ h₂ => (halone r₁ h₁).trans (halone r₂ h₂).symm, ?_, ?_⟩
  · rw [hsends]
    rcases s.stepCall_cases r call with
      ⟨call', hnext, -⟩ | hover | ⟨n, content, rfl, -, -, -, hwrite⟩
    · rw [hnext]
      exact h.written
    · rw [hover]
      exact h.written
    · rw [payloads_snoc (by rw [hwrite])]
      exact h.next r _ hcall
  · intro r' call' hcall'
    obtain rfl := halone r' (by simp [hcall'])
    obtain ⟨hcontent, -, hnext⟩ := stepCall_calls_self hcall'
    rw [hsends, hcontent, hnext]
    exact h.next r' call hcall

theorem inOrder_reaches (h : machine.Reaches es s) (hseq : Sequential es) : InOrder es s := by
  refine Machine.history_invariant (M := machine) (I := fun es s => Sequential es → InOrder es s)
    ?_ ?_ h hseq
  · intro _
    exact ⟨fun r r' hr => absurd rfl hr, List.Sublist.refl _, fun r call hcall => by cases hcall⟩
  · intro es s e t hs ih hstep hseq
    have hbefore := ih (hseq.of_prefix (List.prefix_append _ _))
    rcases calls_cases hstep with
      ⟨hthread, hcalls, hwritten⟩ | ⟨r, content, rfl, -, rfl⟩ | ⟨r, call, rfl, hcall, rfl⟩
    · have hsends : sends (es ++ [e]) = sends es := by
        cases e with
        | sendData r content => cases hthread
        | _ => simp [sends]
      have hpayloads := payloads_congr hwritten
      refine ⟨by simpa [hcalls] using hbefore.alone, ?_, ?_⟩
      · rw [hpayloads, hsends]
        exact hbefore.written
      · rw [hcalls, hpayloads, hsends]
        exact hbefore.next
    · exact hbefore.sendData (hseq es r content List.prefix_rfl s hs) r content
    · exact hbefore.step hcall

/-- **Calls that do not overlap write in their order.** -/
theorem written_sublist (h : machine.Reaches es s) (hseq : Sequential es) :
    s.payloads.Sublist (sends es) :=
  (inOrder_reaches h hseq).written

/-- Other threads have no call under way. -/
theorem calls_of_calledBy (h : machine.Reaches es s) (hthread : CalledBy r es) {r' : ℕ}
    (hr : r' ≠ r) : s.calls r' = none := by
  refine Machine.history_invariant (M := machine)
    (I := fun es s => CalledBy r es → s.calls r' = none) ?_ ?_ h hthread
  · exact fun _ => rfl
  · intro es s e t _ ih hstep hthread
    have hsame := ih fun e he => hthread e (List.mem_append_left _ he)
    have he : ∀ r', e.thread? = some r' → r' = r := hthread e (by simp)
    rcases calls_cases hstep with
      ⟨-, hcalls, -⟩ | ⟨r'', content, rfl, -, rfl⟩ | ⟨r'', call, rfl, -, rfl⟩
    · rw [hcalls, hsame]
    · obtain rfl := he r'' rfl
      rw [calls_setCall, if_neg hr, hsame]
    · obtain rfl := he r'' rfl
      rw [stepCall_calls_of_ne hr, hsame]

/-- The calls of one thread do not overlap. -/
theorem sequential_of_calledBy (h : machine.Reaches es s) (hthread : CalledBy r es) :
    Sequential es := by
  intro before r' content hes u hu r''
  obtain ⟨after, rfl⟩ := hes
  obtain ⟨v, hv, -⟩ := Machine.reaches_append.1 h
  obtain ⟨u', hu', hstep⟩ := Machine.reaches_snoc.1 hv
  obtain rfl := hu'.unique hu
  obtain rfl : r' = r := hthread (.sendData r' content) (by simp) r' rfl
  by_cases hr : r'' = r'
  · subst hr
    exact (step_sendData hstep).1
  · refine calls_of_calledBy hu (fun e he => hthread e ?_) hr
    exact List.mem_append_left _ (List.mem_append_left _ he)

/-! ## A call while the connection lasts -/

/-- A step of a call that finds an active channel: the call goes on, or writes. -/
theorem stepCall_of_active {call : SendData} (hchannel : s.channel = some n)
    (hactive : s.isActive n = true) (hint : 5 + call.content.length ≤ intMax) :
    (∃ call', s.stepCall r call = s.setCall r (some call') ∧ call'.content = call.content) ∨
      s.stepCall r call = { s.setCall r none with
        written := s.written ++ [(n, frame CUSTOM_MSG call.content.data)] } := by
  cases call with
  | notNull content =>
    refine Or.inl ⟨.isActive content, ?_, rfl⟩
    rw [stepCall, sendData, hchannel]
  | isActive content =>
    refine Or.inl ⟨.write content, ?_, rfl⟩
    rw [stepCall, sendData, hchannel]
    exact congrArg (s.setCall r) (if_pos hactive)
  | write content => exact Or.inr ((stepCall_write hchannel hint).trans (if_pos hactive))

/-- A connection whose listener has run is one still, or is lost. -/
theorem Current.connected_of_step (h : s.Current k) (hstep : s.step e = some t)
    (hconnected : s.stage n = .connected true) :
    t.stage n = .connected true ∨ (t.stage n).hasLost = true := by
  rcases h.next_of_step hstep n with hsame | hnext
  · exact Or.inl (hsame.trans hconnected)
  · rw [hconnected] at hnext
    generalize t.stage n = stage at hnext
    cases hnext with
    | lose => exact Or.inr rfl

/-- What has become of a call of thread `r` that began when the client was in state `u` and had the
connection `n`, after the events `mid`. -/
inductive Sending (u : Client) (n r : ℕ) (content : Bytes) (mid : List Event) (s : Client) : Prop
  | lost (hlost : (s.stage n).hasLost = true)
  | underWay (hconnected : s.stage n = .connected true) (call : SendData)
    (hcall : s.calls r = some call) (hcontent : call.content = content)
    (hgrows : u.writtenTo n <+: s.writtenTo n)
    (halone : CalledBy r mid → s.writtenTo n = u.writtenTo n)
  | ended (hconnected : s.stage n = .connected true) {before : List (List UInt8)}
    (hgrows : u.writtenTo n <+: before) (halone : CalledBy r mid → before = u.writtenTo n)
    (hwritten : before ++ [content.data] <+: s.writtenTo n)

variable {content : Bytes} {mid : List Event}

theorem CalledBy.of_snoc (h : CalledBy r (mid ++ [e])) : CalledBy r mid :=
  fun e he => h e (List.mem_append_left _ he)

/-- The call is under way, and the connection outlasts the step. -/
theorem Sending.step_underWay (hcurrent : s.Current n) (hint : 5 + content.length ≤ intMax)
    (hstep : s.step e = some t) (hconnected : s.stage n = .connected true)
    (hconnected' : t.stage n = .connected true) {call : SendData}
    (hcall : s.calls r = some call) (hcontent : call.content = content)
    (hgrows : u.writtenTo n <+: s.writtenTo n)
    (halone : CalledBy r mid → s.writtenTo n = u.writtenTo n) :
    Sending u n r content (mid ++ [e]) t := by
  have hgrows' := hgrows.trans (writtenTo_of_step hstep n)
  rcases calls_cases hstep with
    ⟨-, hcalls, hwritten⟩ | ⟨r', content', rfl, hnone, rfl⟩ | ⟨r', call', rfl, hcall', rfl⟩
  · refine .underWay hconnected' call (hcalls ▸ hcall) hcontent hgrows' fun h => ?_
    rw [← halone h.of_snoc, writtenTo_congr hwritten]
  · have hr : r ≠ r' := by
      rintro rfl
      cases hnone.symm.trans hcall
    refine .underWay hconnected' call ?_ hcontent hgrows' fun h => halone h.of_snoc
    rw [calls_setCall, if_neg hr, hcall]
  · by_cases hr : r = r'
    · subst hr
      obtain rfl := Option.some.inj (hcall.symm.trans hcall')
      subst hcontent
      have hchannel : s.channel = some n := hcurrent.channel.2 (by rw [hconnected]; rfl)
      have hactive : s.isActive n = true := by rw [isActive, hconnected]; rfl
      rcases stepCall_of_active (r := r) hchannel hactive hint with
        ⟨call', hnext, hcontent⟩ | hwrite
      · refine .underWay hconnected' call' ?_ hcontent hgrows' fun h => ?_
        · rw [hnext, calls_setCall, if_pos rfl]
        · rw [hnext]
          exact halone h.of_snoc
      · have hwritten : (s.stepCall r call).written =
            s.written ++ [(n, frame CUSTOM_MSG call.content.data)] := by rw [hwrite]
        refine .ended hconnected' hgrows (fun h => halone h.of_snoc) ?_
        rw [writtenTo_snoc hwritten n, if_pos rfl]
    · have hsame : (s.stepCall r' call').calls r = some call :=
        (stepCall_calls_of_ne hr).trans hcall
      refine .underWay hconnected' call hsame hcontent hgrows' fun h => ?_
      exact absurd (h (.step r') (by simp) r' rfl).symm hr

theorem Sending.step (h : Sending u n r content mid s) (hcurrent : s.Current k)
    (hint : 5 + content.length ≤ intMax) (hstep : s.step e = some t) :
    Sending u n r content (mid ++ [e]) t := by
  cases h with
  | lost hlost =>
    rcases hcurrent.next_of_step hstep n with hsame | hnext
    · exact .lost (by rwa [hsame])
    · exact .lost (hnext.hasLost hlost)
  | underWay hconnected call hcall hcontent hgrows halone =>
    obtain rfl := hcurrent.eq_of_lifeline (n := n) (by simp [hconnected, Stage.lifeline])
    rcases hcurrent.connected_of_step hstep hconnected with hconnected' | hlost
    · exact .step_underWay hcurrent hint hstep hconnected hconnected' hcall hcontent hgrows halone
    · exact .lost hlost
  | ended hconnected hgrows halone hwritten =>
    rcases hcurrent.connected_of_step hstep hconnected with hconnected' | hlost
    · exact .ended hconnected' hgrows (fun h => halone h.of_snoc)
        (hwritten.trans (writtenTo_of_step hstep n))
    · exact .lost hlost

/-- **A call that is over while its connection is there has written.** It began when the client had
the connection, whose listener had run; its message comes after what had been written by then, and
right after it if no other thread has come between. -/
theorem written_of_call {pre : List Event} (hu : machine.Reaches pre u)
    (hconnected : u.stage n = .connected true) (hint : 5 + content.length ≤ intMax)
    (hv : machine.Reaches (pre ++ .sendData r content :: mid) v) (hover : v.calls r = none)
    (hactive : v.isActive n = true) :
    ∃ before, u.writtenTo n <+: before ∧ (CalledBy r mid → before = u.writtenTo n) ∧
      before ++ [content.data] <+: v.writtenTo n := by
  obtain ⟨u', hu', hexec⟩ := Machine.reaches_append.1 hv
  obtain rfl := hu'.unique hu
  obtain ⟨t, hmove, hmid⟩ := Machine.exec_cons_eq_some.1 hexec
  have hbegin : u'.step (.sendData r content) = some t := hmove
  obtain ⟨k, hcurrent⟩ := current_reaches hu
  obtain ⟨m, ht, -⟩ := hcurrent.turn hbegin
  obtain ⟨hnone, rfl⟩ := step_sendData hbegin
  have hsending := Machine.exec_history_invariant (M := machine)
    (I := fun mid s => (∃ k, s.Current k) ∧ Sending u' n r content mid s) ?_ ?_ hmid
  · cases hsending.2 with
    | lost hlost =>
      cases (Stage.isActive_of_hasLost hlost).symm.trans hactive
    | underWay hconnected call hcall => cases hover.symm.trans hcall
    | ended hconnected hgrows halone hwritten => exact ⟨_, hgrows, halone, hwritten⟩
  · refine ⟨⟨m, ht⟩, .underWay hconnected (.notNull content) ?_ rfl List.prefix_rfl fun _ => rfl⟩
    rw [calls_setCall, if_pos rfl]
  · rintro mid s e t ⟨⟨k, hcurrent⟩, hsending⟩ hstep
    obtain ⟨m, hm, -⟩ := hcurrent.turn hstep
    exact ⟨⟨m, hm⟩, hsending.step hcurrent hint hstep⟩

end Client

end MmtxSample
