import MmtxSample.Retries

/-!
# The stages of an attempt

Every attempt of the client goes through its stages in order (`Stage.Next`): it is made, succeeds or
fails, and from then on it is on its way to its end. So an attempt that has made a connection stays
one that has (`hasConnected`), and a connection that is lost stays lost (`hasLost`). When the client
gets a connection after all that may have happened, it is therefore a new one
(`Current.canReconnect`).
-/

namespace MmtxSample

open TransitionSystem

/-- The attempt has made its connection. The server may read from it even when it is lost. -/
def Stage.hasConnected : Stage → Bool
  | connected _ | lost _ | closed => true
  | _ => false

/-- The turns in the life of an attempt. -/
inductive Stage.Next : Stage → Stage → Prop
  | connect : Next .unused .connecting
  | success : Next .connecting (.connected false)
  | failure : Next .connecting .failed
  | schedule : Next .failed .scheduled
  | run : Next .scheduled .retried
  | listen : Next (.connected false) (.connected true)
  | lose (listened : Bool) : Next (.connected listened) (.lost listened)
  | listenLost : Next (.lost false) (.lost true)
  | channelInactive : Next (.lost true) .closed

theorem Stage.Next.hasConnected {stage stage' : Stage} (h : stage.Next stage')
    (hconnected : stage.hasConnected = true) : stage'.hasConnected = true := by
  cases h with
  | connect | success | failure | schedule | run => cases hconnected
  | _ => rfl

/-- The attempt had a connection, which is lost. -/
def Stage.hasLost : Stage → Bool
  | lost _ | closed => true
  | _ => false

theorem Stage.isActive_of_hasLost {stage : Stage} (h : stage.hasLost = true) :
    stage.isActive = false := by
  cases stage with
  | connected b => cases h
  | _ => rfl

theorem Stage.Next.hasLost {stage stage' : Stage} (h : stage.Next stage')
    (hlost : stage.hasLost = true) : stage'.hasLost = true := by
  cases h with
  | listenLost | channelInactive => rfl
  | _ => cases hlost

namespace Client

variable {s t : Client} {e : Event} {k : ℕ}

theorem next_setStage {m : ℕ} {stage stage' : Stage} (hstage : s.stage m = stage)
    (hnext : stage.Next stage') (n : ℕ) :
    (s.setStage m stage').stage n = s.stage n ∨
      (s.stage n).Next ((s.setStage m stage').stage n) := by
  rw [stage_setStage]
  split_ifs with hn
  · subst hn
    exact Or.inr (hstage ▸ hnext)
  · exact Or.inl rfl

/-- The last attempt ends, and the next one starts. -/
theorem Current.next_doConnect (h : s.Current k) {m : ℕ} {stage stage' : Stage}
    (hstage : s.stage m = stage) (hlive : stage.lifeline ≠ none) (hover : stage'.lifeline = none)
    (hnext : stage.Next stage') (n : ℕ) :
    (s.setStage m stage').doConnect.stage n = s.stage n ∨
      (s.stage n).Next ((s.setStage m stage').doConnect.stage n) := by
  obtain rfl := h.eq_of_lifeline (n := m) (by rwa [hstage])
  have hconnects : (s.setStage m stage').connects = m + 1 := h.connects
  rw [h.doConnect_eq hover, stage_connect, hconnects]
  split_ifs with hn
  · subst hn
    rw [h.unused (m + 1) (Nat.lt_succ_self m)]
    exact Or.inr .connect
  · exact next_setStage hstage hnext n

/-- An attempt keeps its stage or goes on to the next. -/
theorem Current.next_of_step (h : s.Current k) (hstep : s.step e = some t) (n : ℕ) :
    t.stage n = s.stage n ∨ (s.stage n).Next (t.stage n) := by
  cases e with
  | success m =>
    simp only [step] at hstep
    split at hstep
    · rename_i hstage
      obtain rfl := Option.some.inj hstep
      exact next_setStage hstage .success n
    · cases hstep
  | failure m =>
    simp only [step] at hstep
    split at hstep
    · rename_i hstage
      obtain rfl := Option.some.inj hstep
      exact next_setStage hstage .failure n
    · cases hstep
  | operationComplete m =>
    simp only [step] at hstep
    split at hstep
    · rename_i hstage
      obtain rfl := Option.some.inj hstep
      exact next_setStage hstage .listen n
    · rename_i hstage
      obtain rfl := Option.some.inj hstep
      exact next_setStage hstage .listenLost n
    · rename_i hstage
      obtain rfl := Option.some.inj hstep
      exact next_setStage hstage .schedule n
    · cases hstep
  | lose m =>
    simp only [step] at hstep
    split at hstep
    · rename_i listened hstage
      obtain rfl := Option.some.inj hstep
      exact next_setStage hstage (.lose listened) n
    · cases hstep
  | run m =>
    simp only [step] at hstep
    split at hstep
    · rename_i hstage
      obtain rfl := Option.some.inj hstep
      exact h.next_doConnect hstage (Option.some_ne_none _) rfl .run n
    · cases hstep
  | channelInactive m =>
    simp only [step] at hstep
    split at hstep
    · rename_i hstage
      obtain rfl := Option.some.inj hstep
      exact h.next_doConnect hstage (Option.some_ne_none _) rfl .channelInactive n
    · cases hstep
  | sendData r content | step r =>
    obtain ⟨calls, written, rfl⟩ := calls_of_step hstep rfl
    exact Or.inl rfl

theorem Current.hasConnected_of_step (h : s.Current k) (hstep : s.step e = some t) {n : ℕ}
    (hconnected : (s.stage n).hasConnected = true) : (t.stage n).hasConnected = true := by
  rcases h.next_of_step hstep n with hsame | hnext
  · rwa [hsame]
  · exact hnext.hasConnected hconnected

/-- A connection that is lost is not made again. -/
theorem Current.hasLost_of_exec (h : s.Current k) {es : List Event}
    (hexec : machine.exec s es = some t) {n : ℕ} (hlost : (s.stage n).hasLost = true) :
    (t.stage n).hasLost = true := by
  have hinv := Machine.exec_invariant (M := machine)
    (I := fun s => (∃ k, s.Current k) ∧ (s.stage n).hasLost = true) ?_ ⟨⟨k, h⟩, hlost⟩ hexec
  · exact hinv.2
  · rintro s e t ⟨⟨k, hcurrent⟩, hlost⟩ hstep
    obtain ⟨m, hm, -⟩ := hcurrent.turn hstep
    refine ⟨⟨m, hm⟩, ?_⟩
    rcases hcurrent.next_of_step hstep n with hsame | hnext
    · rwa [hsame]
    · exact hnext.hasLost hlost

/-- A client without a connection can get one, and it is a new one. -/
theorem Current.canReconnect_of_not_connected (h : s.Current k)
    (hnone : ∀ b, s.stage k ≠ .connected b) :
    ∃ es t n, machine.exec s es = some t ∧ t.stage n = .connected true ∧ t.channel = some n ∧
      (s.stage n).hasConnected = false := by
  obtain ⟨es, t, n, hexec, hstage, hchannel⟩ := h.canConnect
  refine ⟨es, t, n, hexec, hstage, hchannel, ?_⟩
  have hlost : (s.stage n).hasLost = false := by
    by_contra hlost
    have hlater := h.hasLost_of_exec hexec (Bool.of_not_eq_false hlost)
    rw [hstage] at hlater
    cases hlater
  cases hn : s.stage n with
  | connected b =>
    obtain rfl := h.eq_of_lifeline (n := n) (by simp [hn, Stage.lifeline])
    exact absurd hn (hnone b)
  | lost b | closed =>
    rw [hn] at hlost
    cases hlost
  | _ => rfl

/-- Whatever has happened, the client can get a new connection. -/
theorem Current.canReconnect (h : s.Current k) :
    ∃ es t n, machine.exec s es = some t ∧ t.stage n = .connected true ∧ t.channel = some n ∧
      (s.stage n).hasConnected = false := by
  by_cases hconnected : ∃ b, s.stage k = .connected b
  · obtain ⟨b, hstage⟩ := hconnected
    have hstep : machine.step s (.lose k) = some (s.setStage k (.lost b)) := by
      simp [machine, step, hstage]
    have hlost : (s.setStage k (.lost b)).stage k = .lost b :=
      (stage_setStage s k _ k).trans (if_pos rfl)
    have hcurrent : (s.setStage k (.lost b)).Current k :=
      h.setStage (by simp [Stage.lifeline]) (h.channel.trans (by rw [hstage]; rfl)) h.channel_le
    obtain ⟨es, t, n, hexec, hn, hchannel, hnew⟩ :=
      hcurrent.canReconnect_of_not_connected (by simp [hlost])
    refine ⟨.lose k :: es, t, n, Machine.exec_cons_eq_some.2 ⟨_, hstep, hexec⟩, hn, hchannel, ?_⟩
    rw [stage_setStage] at hnew
    split_ifs at hnew with hnk
    · cases hnew
    · exact hnew
  · exact h.canReconnect_of_not_connected fun b hb => hconnected ⟨b, hb⟩

end Client

end MmtxSample
