import MmtxSample.Registry.Loop

/-!
# The loops come to an end

The loops of `TestServerController` run over a map that others change while they run, and take no
lock. A request is never stuck: as long as it has not returned and not thrown, its own thread can
take its next step, whatever the other threads have done (`exists_step`). And it is never kept busy
for ever: for each key its iterator returns it takes at most five steps, the iterator returns no key
twice, and the keys it may return are those of the map at its start and those that are put while it
runs. So the number of its own steps is bounded by the size of the map and the number of channels
that become active meanwhile (`Paced`), and the order in which threads move is no part of it.
-/

namespace MmtxSample

open TransitionSystem ConcurrentMap

variable {Channel : Type*}

/-- How many steps of the body are left at most before the iterator is asked again. -/
def Place.stepsLeft : Place Channel → ℕ
  | get _ => 4
  | isActive _ _ => 3
  | notNull _ _ | close _ _ => 2
  | write _ _ | remove _ _ => 1
  | head | returned | aborted _ => 0

/-- One step more for the end of the loop. -/
def Place.ended : Place Channel → ℕ
  | returned => 1
  | _ => 0

theorem Place.ended_le (place : Place Channel) : place.ended ≤ 1 := by
  cases place <;> simp [ended]

/-- A place in the body of `insertRow` alone. -/
def Place.OfInsertRow : Place Channel → Prop
  | notNull _ _ | write _ _ => True
  | _ => False

/-- A channel becomes active, and is put into the map. -/
def Registry.Label.Arrives : Registry.Label Channel → Prop
  | .channelActive _ => True
  | _ => False

instance (l : Registry.Label Channel) : Decidable l.Arrives := by
  cases l <;> unfold Registry.Label.Arrives <;> infer_instance

/-- How many channels become active. -/
def arrivals (ls : List (Registry.Label Channel)) : ℕ := ls.countP (·.Arrives)

/-- How many steps the thread of a request takes. -/
def ownSteps (r : ℕ) (ls : List (Registry.Label Channel)) : ℕ := ls.countP (·.actor = some r)

theorem arrivals_snoc (ls : List (Registry.Label Channel)) (l : Registry.Label Channel) :
    arrivals (ls ++ [l]) = arrivals ls + if l.Arrives then 1 else 0 := by
  simp [arrivals, List.countP_cons]

theorem ownSteps_snoc (r : ℕ) (ls : List (Registry.Label Channel)) (l : Registry.Label Channel) :
    ownSteps r (ls ++ [l]) = ownSteps r ls + if l.actor = some r then 1 else 0 := by
  simp [ownSteps, List.countP_cons]

namespace Request

/-- A request that has taken `steps` steps and has had no more than `keys` keys to choose from. -/
structure Paced (keys steps : ℕ) (q : Request Channel) : Prop where
  sound : q.iter.Sound
  ofInsertRow : q.place.OfInsertRow → ∃ msg, q.mapping = .insertRow msg
  offered : q.iter.offered.card ≤ keys
  steps : steps + q.place.stepsLeft ≤ 5 * q.iter.returned.card + q.place.ended

variable {keys steps : ℕ} {q q' : Request Channel}

theorem paced_start (channels : Contents String Channel) (mapping : Mapping) :
    (start channels mapping).Paced channels.keys.card 0 where
  sound := WeakIterator.sound_start channels
  ofInsertRow h := h.elim
  offered := Nat.le_refl _
  steps := Nat.zero_le _

/-- It takes no more steps than the keys allow. -/
theorem Paced.steps_le (h : q.Paced keys steps) : steps ≤ 5 * keys + 1 := by
  have hsteps := h.steps
  have hoffered := h.offered
  have hreturned := Finset.card_le_card h.sound.returned
  have hended := q.place.ended_le
  omega

theorem Paced.next {key : String} (h : q.Paced keys steps) (hnext : q.next key = some q') :
    q'.Paced keys (steps + 1) := by
  obtain ⟨hplace, it, hit, rfl⟩ := next_eq_some hnext
  obtain ⟨hnew, hreturned, -⟩ := WeakIterator.next_eq_some hit
  have hsteps := h.steps
  rw [hplace] at hsteps
  exact {
    sound := h.sound.next hit
    ofInsertRow := fun h => h.elim
    offered := (WeakIterator.offered_next hit).2 ▸ h.offered
    steps := by
      show steps + 1 + 4 ≤ 5 * it.returned.card + 0
      rw [hreturned, Finset.card_insert_of_notMem hnew]
      simp only [Place.stepsLeft, Place.ended] at hsteps
      omega }

theorem Paced.done (h : q.Paced keys steps) (hdone : q.done = some q') :
    q'.Paced keys (steps + 1) := by
  obtain ⟨hplace, -, rfl⟩ := done_eq_some hdone
  have hsteps := h.steps
  rw [hplace] at hsteps
  exact ⟨h.sound, fun h => h.elim, h.offered, Nat.succ_le_succ hsteps⟩

/-- A step of the body leaves fewer steps to the end of the body, and is taken inside the loop. -/
theorem Body.stepsLeft {channels : Contents String Channel} {isActive : Channel → Bool}
    (hbody : Body channels isActive q q') :
    q'.place.stepsLeft + 1 ≤ q.place.stepsLeft ∧ q.place.ended = 0 := by
  cases hbody with
  | @write key c msg hplace hmapping =>
    rw [hplace]
    cases TestServerController.insertRowBuf msg <;> exact ⟨Nat.le_refl _, rfl⟩
  | inactive hplace =>
    rcases hplace with hplace | hplace <;> simp [hplace, record, Place.stepsLeft, Place.ended]
  | get hplace | nullPointer hplace | null hplace =>
    simp [hplace, moveTo, Place.stepsLeft, Place.ended]
  | active hplace | activeRemove hplace | notNull hplace | close hplace | remove hplace =>
    simp [hplace, record, Place.stepsLeft, Place.ended]

/-- Only a push comes to the places of `insertRow`. -/
theorem Body.ofInsertRow {channels : Contents String Channel} {isActive : Channel → Bool}
    (hbody : Body channels isActive q q')
    (h : q.place.OfInsertRow → ∃ msg, q.mapping = .insertRow msg)
    (hplace' : q'.place.OfInsertRow) : ∃ msg, q'.mapping = .insertRow msg := by
  rw [hbody.keeps.1]
  cases hbody with
  | active _ hmapping | write _ hmapping => exact ⟨_, hmapping⟩
  | notNull hplace => exact h (by rw [hplace]; trivial)
  | get | nullPointer | activeRemove | inactive | null | close | remove => exact hplace'.elim

theorem Paced.body {channels : Contents String Channel} {isActive : Channel → Bool}
    (h : q.Paced keys steps) (hbody : Body channels isActive q q') :
    q'.Paced keys (steps + 1) := by
  obtain ⟨hleft, hended⟩ := hbody.stepsLeft
  obtain ⟨-, hiter, -⟩ := hbody.keeps
  have hsteps := h.steps
  exact {
    sound := hiter ▸ h.sound
    ofInsertRow := hbody.ofInsertRow h.ofInsertRow
    offered := hiter ▸ h.offered
    steps := by
      rw [hiter]
      omega }

/-- The map changes. -/
theorem Paced.observe (h : q.Paced keys steps) {op : Option (MapOp String Channel)} {added : ℕ}
    (hop : ∀ key c, op = some (.put key c) → added = 1) :
    (q.observe op).Paced (keys + added) steps := by
  have hoffered := h.offered
  cases op with
  | none => exact ⟨h.sound, h.ofInsertRow, hoffered.trans (Nat.le_add_right _ _), h.steps⟩
  | some op =>
    have hcard := WeakIterator.card_offered_observe q.iter op
    exact {
      sound := h.sound.observe op
      ofInsertRow := h.ofInsertRow
      offered := by
        cases op with
        | put key c =>
          obtain rfl := hop key c rfl
          exact hcard.trans (Nat.add_le_add_right hoffered 1)
        | remove key =>
          exact hcard.trans (hoffered.trans (Nat.le_add_right _ _))
      steps := by
        show _ ≤ 5 * (q.iter.observe op).returned.card + _
        rw [WeakIterator.returned_observe]
        exact h.steps }

/-- Inside the body there is always a next step. -/
theorem isSome_step {channels : Contents String Channel} {isActive : Channel → Bool}
    (h : q.place.OfInsertRow → ∃ msg, q.mapping = .insertRow msg) (hhead : q.place ≠ .head)
    (hreturned : q.place ≠ .returned) (haborted : ∀ ex, q.place ≠ .aborted ex) :
    (q.step channels isActive).isSome := by
  cases hplace : q.place with
  | head => exact absurd hplace hhead
  | returned => exact absurd hplace hreturned
  | aborted ex => exact absurd hplace (haborted ex)
  | get key | close key c | remove key c => simp only [step, hplace, Option.isSome_some]
  | isActive key c =>
    cases c with
    | none => simp only [step, hplace, Option.isSome_some]
    | some c =>
      by_cases hactive : isActive c = true
      · cases hmapping : q.mapping <;>
          simp only [step, hplace, hactive, hmapping, if_true, Option.isSome_some]
      · simp only [step, hplace, if_neg hactive, Option.isSome_some]
  | notNull key c =>
    cases c with
    | none => simp only [step, hplace, Option.isSome_some]
    | some c =>
      by_cases hactive : isActive c = true
      · simp only [step, hplace, if_pos hactive, Option.isSome_some]
      · simp only [step, hplace, if_neg hactive, Option.isSome_some]
  | write key c =>
    obtain ⟨msg, hmapping⟩ := h (by rw [hplace]; trivial)
    simp only [step, hplace, hmapping, Option.isSome_some]

end Request

namespace Registry

/-- Only `channelActive` puts into the map. -/
theorem arrives_of_put {ids : ChannelIds Channel} {s : Registry Channel} {l : Label Channel}
    {key : String} {c : Channel} (h : s.mapOp ids l = some (.put key c)) : l.Arrives := by
  cases l with
  | channelActive c' => trivial
  | step r =>
    obtain ⟨q, -, hop⟩ := Option.bind_eq_some_iff.1 h
    obtain ⟨key', c', -, heq⟩ := Request.mapOp_eq_some hop
    cases heq
  | _ => cases h

variable [DecidableEq Channel] {ids : ChannelIds Channel} {s : Registry Channel}

variable (ids) in
/-- A step that something is done in is a step of the registry. -/
theorem step_of_act {l : Label Channel} (h : (s.act l).isSome) : ∃ t, step ids s l = some t := by
  obtain ⟨u, hu⟩ := Option.isSome_iff_exists.1 h
  exact ⟨_, by rw [step, hu]; rfl⟩

variable (ids) in
/-- A request that is not over can take a step of its own. -/
theorem exists_step {r : ℕ} {q : Request Channel} {keys steps : ℕ} (hq : s.requests r = some q)
    (h : q.Paced keys steps) (hreturned : q.place ≠ .returned)
    (haborted : ∀ ex, q.place ≠ .aborted ex) :
    ∃ l t, l.actor = some r ∧ step ids s l = some t := by
  by_cases hhead : q.place = .head
  · by_cases hfinish : q.iter.CanFinish
    · have hact : (s.act (.done r)).isSome := by simp [act, hq, Request.done, hhead, hfinish]
      obtain ⟨t, ht⟩ := step_of_act ids hact
      exact ⟨.done r, t, rfl, ht⟩
    · obtain ⟨key, it, hit⟩ := h.sound.exists_next hfinish
      have hact : (s.act (.next r key)).isSome := by simp [act, hq, Request.next, hhead, hit]
      obtain ⟨t, ht⟩ := step_of_act ids hact
      exact ⟨.next r key, t, rfl, ht⟩
  · have hstep : (q.step s.channels s.isActive).isSome :=
      Request.isSome_step h.ofInsertRow hhead hreturned haborted
    have hact : (s.act (.step r)).isSome := by simpa [act, hq] using hstep
    obtain ⟨t, ht⟩ := step_of_act ids hact
    exact ⟨.step r, t, rfl, ht⟩

/-- A request keeps its pace from its start on. -/
theorem paced_reaches {pre mid : List (Label Channel)} {r : ℕ} {mapping : Mapping}
    {u : Registry Channel} (hu : (machine ids).Reaches pre u)
    (h : (machine ids).Reaches (pre ++ .request r mapping :: mid) s) :
    ∃ q, s.requests r = some q ∧
      q.Paced (u.channels.keys.card + arrivals mid) (ownSteps r mid) := by
  have hinv : ∃ q, s.requests r = some q ∧ ∃ mid',
      pre ++ .request r mapping :: mid = pre ++ .request r mapping :: mid' ∧
        q.Paced (u.channels.keys.card + arrivals mid') (ownSteps r mid') := by
    refine request_invariant (I := fun ls _ q => ∃ mid', ls = pre ++ .request r mapping :: mid' ∧
      q.Paced (u.channels.keys.card + arrivals mid') (ownSteps r mid')) ?_ ?_ h
    · intro u' v hu' _
      obtain rfl := hu'.unique hu
      exact ⟨[], rfl, Request.paced_start _ mapping⟩
    · rintro p v l w q q' - hv hstep - hq hafter ⟨mid', rfl, hpaced⟩
      refine ⟨mid' ++ [l], by simp, ?_⟩
      have hmoved : q'.Paced (u.channels.keys.card + arrivals mid')
          (ownSteps r (mid' ++ [l])) := by
        rw [ownSteps_snoc]
        rcases Request.after_cases hafter with ⟨hactor, rfl⟩ | ⟨key, rfl, hnext⟩ | ⟨rfl, hdone⟩ |
          ⟨rfl, hbody⟩
        · rw [if_neg hactor]
          exact hpaced
        · simpa [Label.actor] using hpaced.next hnext
        · simpa [Label.actor] using hpaced.done hdone
        · simpa [Label.actor] using hpaced.body (Request.body_of_step hbody)
      rw [arrivals_snoc, ← Nat.add_assoc]
      exact hmoved.observe fun key c hop => if_pos (arrives_of_put hop)
  obtain ⟨q, hq, mid', hmid, hpaced⟩ := hinv
  obtain rfl := (List.cons.inj (List.append_cancel_left hmid)).2
  exact ⟨q, hq, hpaced⟩

/-- **The loops are wait-free.** Whatever the other threads and the channels do, a request takes at
most five steps of its own for each channel that was in the map at its start or has become active
since, and one to return; and as long as it has neither returned nor thrown, it can take its next
step. -/
theorem request_wait_free {pre mid : List (Label Channel)} {r : ℕ} {mapping : Mapping}
    {u : Registry Channel} (hu : (machine ids).Reaches pre u)
    (h : (machine ids).Reaches (pre ++ .request r mapping :: mid) s) :
    ownSteps r mid ≤ 5 * (u.channels.keys.card + arrivals mid) + 1 ∧
      ∃ q, s.requests r = some q ∧ (q.place = .returned ∨ (∃ ex, q.place = .aborted ex) ∨
        ∃ l t, l.actor = some r ∧ step ids s l = some t) := by
  obtain ⟨q, hq, hpaced⟩ := paced_reaches hu h
  refine ⟨hpaced.steps_le, q, hq, ?_⟩
  by_cases hreturned : q.place = .returned
  · exact Or.inl hreturned
  · by_cases haborted : ∃ ex, q.place = .aborted ex
    · exact Or.inr (Or.inl haborted)
    · have hstep := exists_step ids hq hpaced hreturned fun ex hex => haborted ⟨ex, hex⟩
      exact Or.inr (Or.inr hstep)

/-- A removal of two channels that takes as many steps as it may. -/
theorem request_wait_free_run :
    let ids : ChannelIds String := ⟨id, Function.injective_id⟩
    let pre : List (Label String) := [.channelActive "a"]
    let mid : List (Label String) := [.next 0 "a", .step 0, .step 0, .step 0, .step 0,
      .channelActive "b", .next 0 "b", .step 0, .step 0, .step 0, .step 0, .done 0]
    ∃ u s, (machine ids).Reaches pre u ∧
      (machine ids).Reaches (pre ++ .request 0 .remove :: mid) s ∧ ownSteps 0 mid = 11 ∧
      ownSteps 0 mid ≤ 5 * (u.channels.keys.card + arrivals mid) + 1 := by
  intro ids pre mid
  have hpre : ∃ u, (machine ids).Reaches pre u := ⟨_, rfl⟩
  have hrun : ∃ s, (machine ids).Reaches (pre ++ .request 0 .remove :: mid) s := ⟨_, rfl⟩
  obtain ⟨u, hu⟩ := hpre
  obtain ⟨s, hs⟩ := hrun
  exact ⟨u, s, hu, hs, by decide, (request_wait_free hu hs).1⟩

end Registry

end MmtxSample
