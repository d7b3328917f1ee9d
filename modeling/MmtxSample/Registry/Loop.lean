import MmtxSample.Registry.Invariant

/-!
# What a loop owes a channel

Both loops of `TestServerController` run over the keys of an iterator that returns every key which
stays in the map. So a loop owes a visit to each channel that is in the map and active from its
start on (`StaysActive`): the key has not been returned yet, or it is in hand, or the visit has come
to its end (`Request.Owes`). Only a write and a removal end the visit of such a channel
(`Request.Owes.body`), and after a removal it has not stayed (`owes_step`). A loop that is done has
no visit left to make (`Request.Owes.met_of_done`).

* `request_invariant`: the rule for a request: what its start establishes, and every step of the
  registry keeps, holds of the request in every later state.
* `checked_reaches`: the log of a request tells the truth about every check.
* `staysActive_of_ends`: a channel does not come back. One that is in the map and active when the
  loop begins and when it ends has been so all the time.
-/

namespace MmtxSample

open TransitionSystem ConcurrentMap

variable {Channel : Type*}

/-- The key in hand. -/
def Place.key : Place Channel → Option String
  | get key | isActive key _ | notNull key _ | write key _ | close key _ | remove key _ => some key
  | _ => none

namespace Request

/-- The request owes a visit to a channel that stays in the map and active, until `met`. -/
structure Owes (ids : ChannelIds Channel) (c : Channel) (met : Prop) (q : Request Channel) :
    Prop where
  owed : ids.asLongText c ∈ q.iter.throughout
  visit : ids.asLongText c ∉ q.iter.returned ∨ q.place.key = some (ids.asLongText c) ∨ met
  fetched : q.place ≠ .isActive (ids.asLongText c) none ∧ q.place ≠ .notNull (ids.asLongText c) none

variable {ids : ChannelIds Channel} {c : Channel} {met met' : Prop} {q q' : Request Channel}

theorem owes_start {channels : Contents String Channel} (mapping : Mapping)
    (h : ids.asLongText c ∈ channels) : (start channels mapping).Owes ids c met where
  owed := WeakIterator.mem_throughout_start h
  visit := Or.inl (Finset.notMem_empty _)
  fetched := ⟨by simp [start], by simp [start]⟩

theorem Owes.imp (h : q.Owes ids c met) (hmet : met → met') : q.Owes ids c met' where
  owed := h.owed
  visit := h.visit.imp_right (Or.imp_right hmet)
  fetched := h.fetched

/-- The map changes, and the channel is still in it. -/
theorem Owes.observe (h : q.Owes ids c met) {channels : Contents String Channel}
    {op : Option (MapOp String Channel)}
    (hc : ids.asLongText c ∈ op.elim channels (MapOp.apply channels)) :
    (q.observe op).Owes ids c met := by
  cases op with
  | none => exact h
  | some op =>
    exact {
      owed := WeakIterator.mem_throughout_observe h.owed hc
      visit := (WeakIterator.returned_observe q.iter op).symm ▸ h.visit
      fetched := h.fetched }

/-- The request keeps its key in hand. -/
theorem Owes.hold (h : q.Owes ids c met) (hiter : q'.iter = q.iter)
    (hkey : q'.place.key = q.place.key)
    (hfetched : q'.place ≠ .isActive (ids.asLongText c) none ∧
      q'.place ≠ .notNull (ids.asLongText c) none) : q'.Owes ids c met where
  owed := hiter ▸ h.owed
  visit := by
    rw [hiter, hkey]
    exact h.visit
  fetched := hfetched

/-- A request without a key in hand has fetched nothing. -/
theorem fetched_of_key (h : q.place.key = none) (key : String) :
    q.place ≠ .isActive key none ∧ q.place ≠ .notNull key none := by
  constructor
  · intro hplace
    rw [hplace] at h
    cases h
  · intro hplace
    rw [hplace] at h
    cases h

/-- The request puts down the key of another channel. -/
theorem Owes.putDown (h : q.Owes ids c met) (hother : q.place.key ≠ some (ids.asLongText c))
    (hiter : q'.iter = q.iter) (hkey : q'.place.key = none) : q'.Owes ids c met where
  owed := hiter ▸ h.owed
  visit := by
    rw [hiter]
    exact h.visit.imp_right fun hvisit => Or.inr (hvisit.resolve_left hother)
  fetched := fetched_of_key hkey _

/-- The visit comes to its end. -/
theorem Owes.finish (h : q.Owes ids c met) (hmet : met) (hiter : q'.iter = q.iter)
    (hkey : q'.place.key = none) : q'.Owes ids c met where
  owed := hiter ▸ h.owed
  visit := Or.inr (Or.inr hmet)
  fetched := fetched_of_key hkey _

theorem Owes.next {key : String} (h : q.Owes ids c met) (hnext : q.next key = some q') :
    q'.Owes ids c met := by
  obtain ⟨hplace, it, hit, rfl⟩ := next_eq_some hnext
  obtain ⟨-, hreturned, hthroughout⟩ := WeakIterator.next_eq_some hit
  refine ⟨hthroughout.symm ▸ h.owed, ?_, by simp⟩
  by_cases hkey : key = ids.asLongText c
  · exact Or.inr (Or.inl (congrArg some hkey))
  · rcases h.visit with hnot | hhand | hmet
    · refine Or.inl ?_
      intro hmem
      rcases Finset.mem_insert.1 (hreturned ▸ hmem) with heq | hmem
      · exact hkey heq.symm
      · exact hnot hmem
    · rw [hplace] at hhand
      cases hhand
    · exact Or.inr (Or.inr hmet)

theorem Owes.done (h : q.Owes ids c met) (hdone : q.done = some q') : q'.Owes ids c met := by
  obtain ⟨hplace, -, rfl⟩ := done_eq_some hdone
  exact h.putDown (by rw [hplace]; simp [Place.key]) rfl rfl

/-- A loop that is done has met what it owed. -/
theorem Owes.met_of_done (h : q.Owes ids c met) (hdone : q.done = some q') : met := by
  obtain ⟨hplace, hfinish, -⟩ := done_eq_some hdone
  rcases h.visit with hnot | hhand | hmet
  · exact absurd (hfinish h.owed) hnot
  · rw [hplace] at hhand
    cases hhand
  · exact hmet

/-- The step that writes. -/
theorem Body.eq_write {channels : Contents String Channel} {isActive : Channel → Bool}
    {key : String} (hbody : Body channels isActive q q') (hplace : q.place = .write key c) :
    ∃ msg, q.mapping = .insertRow msg ∧ q' = q.write c (TestServerController.insertRowBuf msg) := by
  cases hbody with
  | @write _ _ msg hplace' hmapping =>
    obtain ⟨-, rfl⟩ := Place.write.inj (hplace'.symm.trans hplace)
    exact ⟨msg, hmapping, rfl⟩
  | inactive hplace' _ => rcases hplace' with hplace' | hplace' <;> cases hplace'.symm.trans hplace
  | get hplace' | nullPointer hplace' | active hplace' | activeRemove hplace' | null hplace'
  | notNull hplace' | close hplace' | remove hplace' => cases hplace'.symm.trans hplace

theorem write_keeps (q : Request Channel) (c : Channel)
    (buf : Except Java.Exception Netty.ByteBuf) :
    (q.write c buf).iter = q.iter ∧ (q.write c buf).place.key = none := by
  cases buf <;> exact ⟨rfl, rfl⟩

/-- The key in hand is that of another channel. -/
theorem key_ne_of_ne {c' : Channel} (hkey : q.place.key = some (ids.asLongText c')) (hc : c' ≠ c) :
    q.place.key ≠ some (ids.asLongText c) := by
  rw [hkey]
  intro heq
  exact hc (ids.unique (Option.some.inj heq))

/-- A step of the body keeps what is owed to a channel that is in the map and active, unless it
ends the visit. -/
theorem Owes.body {channels : Contents String Channel} {isActive : Channel → Bool}
    (h : q.Owes ids c met) (hfetched : q.Fetched ids)
    (hlookup : channels.lookup (ids.asLongText c) = some c) (hactive : isActive c = true)
    (hbody : Body channels isActive q q')
    (hwrite : q.place = .write (ids.asLongText c) c → met)
    (hremove : q.place = .remove (ids.asLongText c) c → met) : q'.Owes ids c met := by
  cases hbody with
  | @get key hplace =>
    refine h.hold rfl (by rw [hplace]; rfl) ⟨?_, by simp [moveTo]⟩
    intro heq
    obtain ⟨rfl, hnone⟩ := Place.isActive.inj heq
    cases hnone.symm.trans hlookup
  | @nullPointer key hplace =>
    refine h.putDown ?_ rfl rfl
    intro hkey
    rw [hplace] at hkey
    obtain rfl : key = ids.asLongText c := Option.some.inj hkey
    exact h.fetched.1 hplace
  | active hplace _ _ | activeRemove hplace _ _ | notNull hplace _ | close hplace =>
    exact h.hold rfl (by rw [hplace]; rfl) (by simp [record])
  | @inactive key c' hplace hinactive =>
    have hkey : q.place.key = some (ids.asLongText c') := by
      rcases hplace with hplace | hplace <;>
      · simp only [Fetched, hplace] at hfetched
        rw [hplace, hfetched]
        rfl
    have hc : c' ≠ c := by
      rintro rfl
      cases hactive.symm.trans hinactive
    exact h.putDown (key_ne_of_ne hkey hc) rfl rfl
  | @null key hplace =>
    refine h.putDown ?_ rfl rfl
    intro hkey
    rw [hplace] at hkey
    obtain rfl : key = ids.asLongText c := Option.some.inj hkey
    exact h.fetched.2 hplace
  | @write key c' msg hplace _ =>
    obtain ⟨hiter, hnone⟩ := write_keeps q c' (TestServerController.insertRowBuf msg)
    simp only [Fetched, hplace] at hfetched
    subst hfetched
    by_cases hc : c' = c
    · subst hc
      exact h.finish (hwrite hplace) hiter hnone
    · exact h.putDown (key_ne_of_ne (by rw [hplace]; rfl) hc) hiter hnone
  | @remove key c' hplace =>
    simp only [Fetched, hplace] at hfetched
    obtain ⟨rfl, -, -⟩ := hfetched
    by_cases hc : c' = c
    · subst hc
      exact h.finish (hremove hplace) rfl rfl
    · exact h.putDown (key_ne_of_ne (by rw [hplace]; rfl) hc) rfl rfl

end Request

namespace Registry

variable {ids : ChannelIds Channel} {s t : Registry Channel} {l : Label Channel} {c : Channel}

/-- The only step of a request that changes the map. -/
theorem mapOp_of_actor {r : ℕ} {op : MapOp String Channel} (hactor : l.actor = some r)
    (h : s.mapOp ids l = some op) :
    ∃ q key c, s.requests r = some q ∧ q.place = .remove key c ∧ op = .remove key := by
  cases l with
  | step r' =>
    obtain rfl : r' = r := Option.some.inj hactor
    obtain ⟨q, hq, hop⟩ := Option.bind_eq_some_iff.1 h
    obtain ⟨key, c, hplace, rfl⟩ := Request.mapOp_eq_some hop
    exact ⟨q, key, c, hq, hplace, rfl⟩
  | channelActive c | becomesInactive c | channelInactive c => cases hactor
  | request r' mapping | next r' key | done r' => cases h

variable [DecidableEq Channel]

/-! ## A request through a run -/

/-- **The rule for a request.** -/
theorem request_invariant {pre mid : List (Label Channel)} {r : ℕ} {mapping : Mapping}
    {I : List (Label Channel) → Registry Channel → Request Channel → Prop}
    (hstart : ∀ u v, (machine ids).Reaches pre u → step ids u (.request r mapping) = some v →
      I (pre ++ [.request r mapping]) v (.start u.channels mapping))
    (hstep : ∀ p u l v q q', pre <+: p → (machine ids).Reaches p u → step ids u l = some v →
      (machine ids).Reaches (p ++ [l]) v → u.requests r = some q → q.after u r l = some q' →
      I p u q → I (p ++ [l]) v (q'.observe (u.mapOp ids l)))
    (h : (machine ids).Reaches (pre ++ .request r mapping :: mid) s) :
    ∃ q, s.requests r = some q ∧ I (pre ++ .request r mapping :: mid) s q := by
  induction mid using List.reverseRecOn generalizing s with
  | nil =>
    obtain ⟨u, hu, hstep⟩ := Machine.reaches_snoc.1 h
    obtain ⟨v, hact, hs⟩ := step_eq_some hstep
    obtain ⟨-, hact⟩ := Option.ite_none_right_eq_some.1 hact
    obtain rfl := Option.some.inj hact
    refine ⟨.start u.channels mapping, ?_, hstart u s hu hstep⟩
    rw [hs]
    exact (requests_setRequest u r r _).trans (if_pos rfl)
  | append_singleton mid l ih =>
    rw [← List.cons_append, ← List.append_assoc] at h ⊢
    obtain ⟨u, hu, hlast⟩ := Machine.reaches_snoc.1 h
    obtain ⟨q, hq, hI⟩ := ih hu
    obtain ⟨q', hafter, hq'⟩ := requests_step hlast hq
    exact ⟨_, hq', hstep _ u l s q q' (List.prefix_append _ _) hu hlast h hq hafter hI⟩

/-- The last step of a run is the end of a loop. -/
theorem returned_of_done {ls : List (Label Channel)} {r : ℕ}
    (h : (machine ids).Reaches (ls ++ [.done r]) s) :
    ∃ u q q', (machine ids).Reaches ls u ∧ u.requests r = some q ∧ q.done = some q' ∧
      s.requests r = some q' ∧ q'.place = .returned := by
  obtain ⟨u, hu, hstep⟩ := Machine.reaches_snoc.1 h
  obtain ⟨v, hact, -⟩ := step_eq_some hstep
  obtain ⟨q, hq, -⟩ := Option.bind_eq_some_iff.1 hact
  obtain ⟨q', hafter, hq'⟩ := requests_step hstep hq
  have hdone : q.done = some q' := (if_pos rfl).symm.trans hafter
  refine ⟨u, q, q', hu, hq, hdone, hq', ?_⟩
  obtain ⟨-, -, rfl⟩ := Request.done_eq_some hdone
  rfl

/-- A step of the request, taken when its log was `before`, asked the channel whether it is active,
and the channel answered `b`. -/
def CheckedAt (ids : ChannelIds Channel) (ls : List (Label Channel)) (r : ℕ)
    (before : List (Done Channel)) (c : Channel) (b : Bool) : Prop :=
  ∃ p u q, p ++ [.step r] <+: ls ∧ (machine ids).Reaches p u ∧ u.requests r = some q ∧
    q.log = before ∧ u.isActive c = b

/-- The log tells the truth about every check. -/
theorem checked_reaches {ls : List (Label Channel)} (h : (machine ids).Reaches ls s) :
    ∀ r q, s.requests r = some q → ∀ before c b, before ++ [.checked c b] <+: q.log →
      CheckedAt ids ls r before c b := by
  refine Machine.history_invariant (M := machine ids) (I := fun ls s =>
    ∀ r q, s.requests r = some q → ∀ before c b, before ++ [.checked c b] <+: q.log →
      CheckedAt ids ls r before c b) ?_ ?_ h
  · intro r q hq
    cases hq
  · intro ls s l t hs ih hstep r q' hq' before c b hlog
    rcases requests_of_step hstep hq' with ⟨mapping, -, rfl⟩ | ⟨q, q₁, hq, hafter, rfl⟩
    · have hnil := List.prefix_nil.1 hlog
      simp at hnil
    rw [Request.log_observe] at hlog
    have hold : before ++ [.checked c b] <+: q.log → CheckedAt ids (ls ++ [l]) r before c b := by
      intro hlog
      obtain ⟨p, u, q₀, hp, hrest⟩ := ih r q hq before c b hlog
      exact ⟨p, u, q₀, hp.trans (List.prefix_append _ _), hrest⟩
    rcases Request.log_of_after hafter with hsame | ⟨rfl, hbody⟩
    · exact hold (hsame ▸ hlog)
    · rcases hbody.log with hsame | ⟨done, hnew, hdone⟩
      · exact hold (hsame ▸ hlog)
      · rw [hnew] at hlog
        rcases List.prefix_concat_iff.1 hlog with heq | hlog
        · obtain ⟨rfl, hlast⟩ := List.append_inj' heq rfl
          exact ⟨ls, s, q, List.prefix_rfl, hs, hq, rfl, hdone c b (List.cons.inj hlast).1.symm⟩
        · exact hold hlog

/-! ## A channel that stays -/

/-- The channel is in the map and active in every state from `pre` on to the end of `ls`. -/
def StaysActive (ids : ChannelIds Channel) (pre ls : List (Label Channel)) (c : Channel) : Prop :=
  ∀ p u, pre <+: p → p <+: ls → (machine ids).Reaches p u →
    u.channels.lookup (ids.asLongText c) = some c ∧ u.isActive c = true

theorem StaysActive.of_prefix {pre ls ls' : List (Label Channel)} {c : Channel}
    (h : StaysActive ids pre ls c) (hls : ls' <+: ls) : StaysActive ids pre ls' c :=
  fun p u hpre hp => h p u hpre (hp.trans hls)

/-- The step that removes a key takes its entry out of the map. -/
theorem lookup_of_remove {r : ℕ} {q : Request Channel} {key : String}
    (hstep : step ids s (.step r) = some t) (hq : s.requests r = some q)
    (hplace : q.place = .remove key c) : t.channels.lookup key = none := by
  have hop : s.mapOp ids (.step r) = some (.remove key) := by
    simp [mapOp, hq, Request.mapOp, hplace]
  rw [channels_step hstep, hop]
  exact Finmap.lookup_erase _ _

/-- A step keeps what a request owes to a channel that stays. Only a write may end the visit: a
removal would take the channel out of the map. -/
theorem owes_step {pre p : List (Label Channel)} {r : ℕ} {q q' : Request Channel} {met : Prop}
    (hpre : pre <+: p) (hs : (machine ids).Reaches p s) (hstep : step ids s l = some t)
    (ht : (machine ids).Reaches (p ++ [l]) t) (hstays : StaysActive ids pre (p ++ [l]) c)
    (hq : s.requests r = some q) (hafter : q.after s r l = some q') (h : q.Owes ids c met)
    (hwrite : Request.Body s.channels s.isActive q q' →
      q.place = .write (ids.asLongText c) c → met) :
    (q'.observe (s.mapOp ids l)).Owes ids c met := by
  have hlast : p <+: p ++ [l] := List.prefix_append _ _
  obtain ⟨hlookup, hactive⟩ := hstays p s hpre hlast hs
  have hlater := (hstays _ t (hpre.trans hlast) List.prefix_rfl ht).1
  have hmem : ids.asLongText c ∈ t.channels := Finmap.mem_iff.2 ⟨c, hlater⟩
  rw [channels_step hstep] at hmem
  refine Request.Owes.observe ?_ hmem
  rcases Request.after_cases hafter with ⟨-, rfl⟩ | ⟨key, -, hnext⟩ | ⟨-, hdone⟩ | ⟨rfl, hbody⟩
  · exact h
  · exact h.next hnext
  · exact h.done hdone
  · have hbody := Request.body_of_step hbody
    refine h.body ((inv_reaches hs).fetched r q hq) hlookup hactive hbody (hwrite hbody) ?_
    intro hplace
    cases (lookup_of_remove hstep hq hplace).symm.trans hlater

/-- A channel that has been active is never fresh again. -/
theorem life_ne_fresh_step (h : s.life c ≠ .fresh) (hstep : step ids s l = some t) :
    t.life c ≠ .fresh := by
  have hlife := life_step hstep
  cases l with
  | channelActive c' | becomesInactive c' | channelInactive c' =>
    obtain ⟨-, hlife⟩ := hlife
    rw [hlife]
    by_cases hc : c = c'
    · subst hc
      simp
    · rwa [Function.update_of_ne hc]
  | request r mapping | next r key | done r | step r =>
    rwa [show t.life = s.life from hlife]

theorem life_ne_fresh_later {p ls : List (Label Channel)} {u : Registry Channel} (hp : p <+: ls)
    (hu : (machine ids).Reaches p u) (h : (machine ids).Reaches ls s) (hlife : u.life c ≠ .fresh) :
    s.life c ≠ .fresh :=
  Machine.Reaches.keeps (I := fun s => s.life c ≠ .fresh)
    (fun _ _ _ hI hstep => life_ne_fresh_step hI hstep) hp hu h hlife

/-- A channel that is not fresh is put into the map by no step. -/
theorem lookup_of_step (h : s.life c ≠ .fresh) (hstep : step ids s l = some t)
    (hlookup : t.channels.lookup (ids.asLongText c) = some c) :
    s.channels.lookup (ids.asLongText c) = some c := by
  rw [channels_step hstep] at hlookup
  cases hop : s.mapOp ids l with
  | none => rwa [hop] at hlookup
  | some op =>
    rw [hop] at hlookup
    have hlookup : (op.apply s.channels).lookup (ids.asLongText c) = some c := hlookup
    cases op with
    | remove key =>
      have hne : ids.asLongText c ≠ key := by
        rintro rfl
        rw [MapOp.apply, Finmap.lookup_erase] at hlookup
        cases hlookup
      rwa [MapOp.apply, Finmap.lookup_erase_ne hne] at hlookup
    | put key c' =>
      -- only `channelActive` puts, and it finds its channel fresh
      obtain ⟨rfl, rfl⟩ : l = .channelActive c' ∧ key = ids.asLongText c' := by
        cases l with
        | channelActive c₀ =>
          obtain ⟨rfl, rfl⟩ := MapOp.put.inj (Option.some.inj hop)
          exact ⟨rfl, rfl⟩
        | step r =>
          obtain ⟨q, -, hop⟩ := Option.bind_eq_some_iff.1 hop
          obtain ⟨key', c₀, -, heq⟩ := Request.mapOp_eq_some hop
          cases heq
        | _ => cases hop
      have hne : c ≠ c' := by
        rintro rfl
        exact h (life_step hstep).1
      rwa [MapOp.apply, Finmap.lookup_insert_of_ne _ fun heq => hne (ids.unique heq)] at hlookup

/-- A channel that is not fresh becomes active by no step. -/
theorem isActive_of_step (h : s.life c ≠ .fresh) (hstep : step ids s l = some t)
    (hactive : t.isActive c = true) : s.isActive c = true := by
  have hactive : t.life c = .active := of_decide_eq_true hactive
  refine decide_eq_true ?_
  have hlife := life_step hstep
  cases l with
  | channelActive c' | becomesInactive c' | channelInactive c' =>
    obtain ⟨hbefore, hlife⟩ := hlife
    rw [hlife] at hactive
    by_cases hc : c = c'
    · subst hc
      first | exact absurd hbefore h | simp at hactive
    · rwa [Function.update_of_ne hc] at hactive
  | request r mapping | next r key | done r | step r =>
    rwa [show t.life = s.life from hlife] at hactive

/-- A channel that is in the map and active when the loop begins and when it ends has been so all
the time. -/
theorem staysActive_of_ends {pre ls : List (Label Channel)} {u : Registry Channel}
    (hu : (machine ids).Reaches pre u) (h : (machine ids).Reaches ls s)
    (hfresh : u.life c ≠ .fresh) (hlookup : s.channels.lookup (ids.asLongText c) = some c)
    (hactive : s.isActive c = true) : StaysActive ids pre ls c := by
  intro p v hpre hp hv
  have hlife : v.life c ≠ .fresh := life_ne_fresh_later hpre hu hv hfresh
  by_contra hleft
  have hend := Machine.Reaches.keeps (I := fun s => s.life c ≠ .fresh ∧
    ¬ (s.channels.lookup (ids.asLongText c) = some c ∧ s.isActive c = true)) ?_ hp hv h
    ⟨hlife, hleft⟩
  · exact hend.2 ⟨hlookup, hactive⟩
  · rintro s l t ⟨hlife, hleft⟩ hstep
    refine ⟨life_ne_fresh_step hlife hstep, ?_⟩
    rintro ⟨hlookup, hactive⟩
    exact hleft ⟨lookup_of_step hlife hstep hlookup, isActive_of_step hlife hstep hactive⟩

end Registry

end MmtxSample
