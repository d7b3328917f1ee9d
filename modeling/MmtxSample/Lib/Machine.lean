import Mathlib.Data.List.Infix

/-!
# Machines that move by labels

A `Machine` is a partial, deterministic step function on states. Whatever a system leaves open
(which thread moves next, which element an iterator hands out, whether a packet is lost) is put
into the label, so a run is a list of labels and every interleaving is one such list.

The rules of this file are the ones every safety proof uses:

* `Machine.invariant`: what holds at the start and is kept by each step holds at the end of
  every run.
* `Machine.history_invariant`: the same for facts about a state *and the labels that led to it*,
  which is the form needed when an invariant talks about what has happened so far
  (`Machine.exec_history_invariant`: what has happened since some state).
* `Machine.Along`: a predicate holds in every state a run passes through.
* `Machine.Simulates`: one machine seen as another, state by state and step by step.
* `Machine.Projects`: one machine as a part of another, whose other steps leave it alone.
* `Machine.Refines`: one machine related to another that takes any number of steps for each of its
  own.
-/

namespace TransitionSystem

/-- Where an element of a list with a new last one stands: it is the new one, or it stood in the
list before. -/
theorem snoc_eq_append_cons {α : Type*} {xs pre post : List α} {x y : α} :
    xs ++ [x] = pre ++ y :: post ↔
      (pre = xs ∧ y = x ∧ post = []) ∨ ∃ post', post = post' ++ [x] ∧ xs = pre ++ y :: post' := by
  constructor
  · intro h
    induction post using List.reverseRecOn with
    | nil =>
      obtain ⟨hxs, hx⟩ := List.append_inj' h rfl
      exact Or.inl ⟨hxs.symm, (List.cons.inj hx).1.symm, rfl⟩
    | append_singleton post' last =>
      have hlast : xs ++ [x] = (pre ++ y :: post') ++ [last] := by simpa using h
      obtain ⟨hxs, hx⟩ := List.append_inj' hlast rfl
      exact Or.inr ⟨post', by rw [(List.cons.inj hx).1], hxs⟩
  · rintro (⟨rfl, rfl, rfl⟩ | ⟨post', rfl, rfl⟩)
    · rfl
    · simp

/-- A system with one start state that moves by labelled steps; `none` means the label is not
enabled in the state. -/
structure Machine (S L : Type*) where
  init : S
  step : S → L → Option S

namespace Machine

variable {S L : Type*} (M : Machine S L)

/-- Perform the labels in order. -/
def exec : S → List L → Option S
  | s, [] => some s
  | s, l :: ls => (M.step s l).bind fun t => exec t ls

/-- The labels `ls` lead from the start to `s`. -/
def Reaches (ls : List L) (s : S) : Prop := M.exec M.init ls = some s

@[simp] theorem exec_nil (s : S) : M.exec s [] = some s := rfl

@[simp] theorem exec_cons (s : S) (l : L) (ls : List L) :
    M.exec s (l :: ls) = (M.step s l).bind fun t => M.exec t ls := rfl

theorem exec_append (s : S) (ls ms : List L) :
    M.exec s (ls ++ ms) = (M.exec s ls).bind fun t => M.exec t ms := by
  induction ls generalizing s with
  | nil => rfl
  | cons l ls ih =>
    cases h : M.step s l with
    | none => simp [h]
    | some t => simpa [h] using ih t

variable {M}

theorem exec_append_eq_some {s u : S} {ls ms : List L} :
    M.exec s (ls ++ ms) = some u ↔ ∃ t, M.exec s ls = some t ∧ M.exec t ms = some u := by
  rw [exec_append, Option.bind_eq_some_iff]

theorem exec_cons_eq_some {s u : S} {l : L} {ls : List L} :
    M.exec s (l :: ls) = some u ↔ ∃ t, M.step s l = some t ∧ M.exec t ls = some u := by
  rw [exec_cons, Option.bind_eq_some_iff]

/-! ## Reached states -/

@[simp] theorem reaches_nil {s : S} : M.Reaches [] s ↔ s = M.init := by
  simp [Reaches, eq_comm]

theorem reaches_append {ls ms : List L} {u : S} :
    M.Reaches (ls ++ ms) u ↔ ∃ t, M.Reaches ls t ∧ M.exec t ms = some u :=
  exec_append_eq_some

theorem reaches_snoc {ls : List L} {l : L} {u : S} :
    M.Reaches (ls ++ [l]) u ↔ ∃ t, M.Reaches ls t ∧ M.step t l = some u := by
  simp [reaches_append]

theorem Reaches.unique {ls : List L} {s t : S} (hs : M.Reaches ls s) (ht : M.Reaches ls t) :
    s = t :=
  Option.some.inj (hs.symm.trans ht)

/-- A run passes through a state after each of its prefixes. -/
theorem Reaches.of_prefix {ls p : List L} {u : S} (h : M.Reaches ls u) (hp : p <+: ls) :
    ∃ s, M.Reaches p s := by
  obtain ⟨q, rfl⟩ := hp
  obtain ⟨s, hs, -⟩ := reaches_append.1 h
  exact ⟨s, hs⟩

/-! ## Invariants -/

/-- What each step keeps, every run keeps. -/
theorem exec_invariant {I : S → Prop} (hstep : ∀ s l t, I s → M.step s l = some t → I t)
    {s u : S} {ls : List L} (hs : I s) (h : M.exec s ls = some u) : I u := by
  induction ls generalizing s with
  | nil => exact Option.some.inj h ▸ hs
  | cons l ls ih =>
    obtain ⟨t, ht, hu⟩ := exec_cons_eq_some.1 h
    exact ih (hstep s l t hs ht) hu

/-- **The invariant rule.** -/
theorem invariant {I : S → Prop} (hinit : I M.init)
    (hstep : ∀ s l t, I s → M.step s l = some t → I t)
    {u : S} {ls : List L} (h : M.Reaches ls u) : I u :=
  exec_invariant hstep hinit h

/-- What each step keeps, once it holds in a run, holds from then on. -/
theorem Reaches.keeps {I : S → Prop} (hstep : ∀ s l t, I s → M.step s l = some t → I t)
    {p ls : List L} {s u : S} (hp : p <+: ls) (hs : M.Reaches p s) (h : M.Reaches ls u)
    (hI : I s) : I u := by
  obtain ⟨q, rfl⟩ := hp
  obtain ⟨t, ht, hexec⟩ := reaches_append.1 h
  exact exec_invariant hstep (ht.unique hs ▸ hI) hexec

/-- **The invariant rule with history.** The invariant may mention the labels performed so
far, and a step may assume that its state is reached by them. -/
theorem history_invariant {I : List L → S → Prop} (hinit : I [] M.init)
    (hstep : ∀ ls s l t, M.Reaches ls s → I ls s → M.step s l = some t → I (ls ++ [l]) t)
    {ls : List L} {u : S} (h : M.Reaches ls u) : I ls u := by
  induction ls using List.reverseRecOn generalizing u with
  | nil => exact reaches_nil.1 h ▸ hinit
  | append_singleton ls l ih =>
    obtain ⟨s, hs, ht⟩ := reaches_snoc.1 h
    exact hstep ls s l u hs (ih hs) ht

/-- The same from any state on, with the labels performed since. -/
theorem exec_history_invariant {I : List L → S → Prop} {s : S} (hstart : I [] s)
    (hstep : ∀ ls t l v, I ls t → M.step t l = some v → I (ls ++ [l]) v)
    {ls : List L} {u : S} (h : M.exec s ls = some u) : I ls u := by
  induction ls using List.reverseRecOn generalizing u with
  | nil => exact Option.some.inj h ▸ hstart
  | append_singleton ls l ih =>
    obtain ⟨t, ht, hlast⟩ := exec_append_eq_some.1 h
    obtain ⟨v, hv, hu⟩ := exec_cons_eq_some.1 hlast
    exact Option.some.inj hu ▸ hstep ls t l v (ih ht) hv

/-! ## Predicates along a run -/

/-- `P` holds in every state the run `ls` passes through, its ends included. -/
def Along (M : Machine S L) (ls : List L) (P : S → Prop) : Prop :=
  ∀ p, p <+: ls → ∀ s, M.Reaches p s → P s

theorem Along.last {ls : List L} {P : S → Prop} (h : M.Along ls P) {u : S}
    (hu : M.Reaches ls u) : P u :=
  h ls List.prefix_rfl u hu

theorem Along.of_prefix {ls p : List L} {P : S → Prop} (h : M.Along ls P) (hp : p <+: ls) :
    M.Along p P :=
  fun q hq => h q (hq.trans hp)

/-! ## Simulation -/

variable {T K : Type*} {N : Machine T K} {f : S → T} {g : L → K}

/-- Seen through `f`, every step of `M` from a reached state is the step of `N` that `g` names. -/
structure Simulates (M : Machine S L) (N : Machine T K) (f : S → T) (g : L → K) : Prop where
  init : f M.init = N.init
  step : ∀ ls s l t, M.Reaches ls s → M.step s l = some t → N.step (f s) (g l) = some (f t)

theorem Simulates.reaches (h : Simulates M N f g) {ls : List L} {s : S} (hs : M.Reaches ls s) :
    N.Reaches (ls.map g) (f s) := by
  refine history_invariant (I := fun ls s => N.Reaches (ls.map g) (f s)) ?_ ?_ hs
  · exact reaches_nil.2 h.init
  · intro ls s l t hs ih hstep
    rw [List.map_append, List.map_singleton, reaches_snoc]
    exact ⟨f s, ih, h.step ls s l t hs hstep⟩

/-- A run of `M` and its image pass through the same states, as `N` sees them. -/
theorem Simulates.along (h : Simulates M N f g) {ls : List L} {s : S} (hs : M.Reaches ls s)
    {P : T → Prop} : N.Along (ls.map g) P ↔ M.Along ls fun s => P (f s) := by
  constructor
  · intro hP p hp t ht
    exact hP _ (hp.map g) _ (h.reaches ht)
  · intro hP p hp t ht
    obtain ⟨p, hpre, rfl⟩ := List.prefix_map_iff.1 hp
    obtain ⟨u, hu⟩ := hs.of_prefix hpre
    exact (h.reaches hu).unique ht ▸ hP p hpre u hu

/-- Seen through `f`, every step of `M` from a reached state is the step of `N` that `g` names, or
nothing where `g` names none. -/
structure Projects (M : Machine S L) (N : Machine T K) (f : S → T) (g : L → Option K) : Prop where
  init : f M.init = N.init
  step : ∀ ls s l t, M.Reaches ls s → M.step s l = some t →
    match g l with
    | some k => N.step (f s) k = some (f t)
    | none => f t = f s

theorem Projects.reaches {g : L → Option K} (h : Projects M N f g) {ls : List L} {s : S}
    (hs : M.Reaches ls s) : N.Reaches (ls.filterMap g) (f s) := by
  refine history_invariant (I := fun ls s => N.Reaches (ls.filterMap g) (f s)) ?_ ?_ hs
  · exact reaches_nil.2 h.init
  · intro ls s l t hs ih hstep
    have hproject := h.step ls s l t hs hstep
    rw [List.filterMap_append]
    cases hg : g l with
    | none =>
      rw [hg] at hproject
      simpa [hg, hproject] using ih
    | some k =>
      rw [hg] at hproject
      rw [List.filterMap_cons, hg, List.filterMap_nil, reaches_snoc]
      exact ⟨f s, ih, hproject⟩

/-- A part of the state that each step leaves alone or takes a step of `N` to is reached by `N`. -/
theorem reaches_part (hinit : f M.init = N.init)
    (hstep : ∀ s l t, M.step s l = some t → f t = f s ∨ ∃ k, N.step (f s) k = some (f t))
    {ls : List L} {s : S} (hs : M.Reaches ls s) : ∃ ks, N.Reaches ks (f s) := by
  refine invariant (I := fun s => ∃ ks, N.Reaches ks (f s)) ⟨[], reaches_nil.2 hinit⟩ ?_ hs
  rintro s l t ⟨ks, hks⟩ hmove
  rcases hstep s l t hmove with hsame | ⟨k, hk⟩
  · exact ⟨ks, hsame ▸ hks⟩
  · exact ⟨ks ++ [k], reaches_snoc.2 ⟨f s, hks, hk⟩⟩

/-- Every step of `M` is matched by some steps of `N`, from a state that `N` reaches. -/
structure Refines (M : Machine S L) (N : Machine T K) (R : S → T → Prop) : Prop where
  init : R M.init N.init
  step : ∀ s l s' ks t, N.Reaches ks t → R s t → M.step s l = some s' →
    ∃ ks' t', N.exec t ks' = some t' ∧ R s' t'

theorem Refines.reaches {R : S → T → Prop} (h : Refines M N R) {ls : List L} {s : S}
    (hs : M.Reaches ls s) : ∃ ks t, N.Reaches ks t ∧ R s t := by
  refine invariant (I := fun s => ∃ ks t, N.Reaches ks t ∧ R s t) ⟨[], _, rfl, h.init⟩ ?_ hs
  rintro s l s' ⟨ks, t, ht, hR⟩ hstep
  obtain ⟨ks', t', hexec, hR'⟩ := h.step s l s' ks t ht hR hstep
  exact ⟨ks ++ ks', t', reaches_append.2 ⟨t, ht, hexec⟩, hR'⟩

end Machine

end TransitionSystem
