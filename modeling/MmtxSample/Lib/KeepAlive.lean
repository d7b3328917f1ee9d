import Mathlib.Algebra.Ring.Nat
import MmtxSample.Lib.Machine

/-!
# Keep-alive under two clocks

One party keeps a link alive: it speaks when its own clock has run for `p` units. The other watches
the link: its clock runs out when it has heard nothing for `q` units, with `p < q`. What the watcher
hears restarts both clocks. But the speaker's clock may also be restarted by something the watcher
does not hear (a *touch*), and then the next word comes later than `p` after the last one.

A touch that comes less than `q - p` after the watcher has last heard something does no harm. A
later one is fatal unless the speaker says something of its own accord in time. `never_due_iff` is
this as an equivalence, for every run.
-/

namespace KeepAlive

open TransitionSystem Machine

/-- The time, and when each of the two clocks was last restarted. -/
structure Clocks where
  now : Nat
  touched : Nat
  heard : Nat
  deriving DecidableEq, Repr

/-- What can happen. `idle` is the speaker's clock running out, `expire` the watcher's, and `skip`
something that restarts neither. -/
inductive Event
  | wait (d : Nat)
  | touch
  | speak
  | idle
  | expire
  | skip
  deriving DecidableEq, Repr

variable (p q : Nat)

/-- The watcher's clock has run out. -/
def Clocks.Due (c : Clocks) : Prop := c.heard + q ≤ c.now

instance (c : Clocks) : Decidable (c.Due q) := inferInstanceAs (Decidable (c.heard + q ≤ c.now))

/-- A clock that runs out is dealt with before more time passes. -/
def step (c : Clocks) : Event → Option Clocks
  | .wait d =>
    if c.now + d ≤ c.touched + p ∧ c.now + d ≤ c.heard + q then some { c with now := c.now + d }
    else none
  | .touch => some { c with touched := c.now }
  | .speak => some { c with touched := c.now, heard := c.now }
  | .idle =>
    if c.touched + p ≤ c.now then some { c with touched := c.now, heard := c.now } else none
  | .expire => if c.Due q then some c else none
  | .skip => some c

def machine : Machine Clocks Event := ⟨⟨0, 0, 0⟩, step p q⟩

def Event.duration : Event → Nat
  | wait d => d
  | _ => 0

/-- How long the events take. -/
def elapsed (es : List Event) : Nat := (es.map Event.duration).sum

@[simp] theorem elapsed_snoc (es : List Event) (e : Event) :
    elapsed (es ++ [e]) = elapsed es + e.duration := by
  simp [elapsed]

/-- Each touch that comes `q - p` or more after the last word is followed by another word before
`q` have passed since that last one. -/
def MadeGood (es : List Event) : Prop :=
  ∀ pre mid c, pre ++ .touch :: mid <+: es → (machine p q).Reaches pre c →
    c.heard + q ≤ c.now + p → .speak ∉ mid → c.now + elapsed mid < c.heard + q

variable {p q}

theorem MadeGood.of_prefix {es fs : List Event} (h : MadeGood p q es) (hfs : fs <+: es) :
    MadeGood p q fs :=
  fun pre mid c hpre => h pre mid c (hpre.trans hfs)

/-! ## A touch that is made good is harmless -/

/-- The clocks have been left by a late touch, of which the watcher has heard nothing since. -/
def Late (p q : Nat) (es : List Event) (c : Clocks) : Prop :=
  ∃ pre mid c₀, es = pre ++ .touch :: mid ∧ (machine p q).Reaches pre c₀ ∧
    c₀.heard + q ≤ c₀.now + p ∧ .speak ∉ mid ∧
    c.heard = c₀.heard ∧ c.now = c₀.now + elapsed mid

/-- The invariant: the speaker's clock has not passed its limit, and it runs out before the
watcher's unless the last touch was late. -/
structure Sound (p q : Nat) (es : List Event) (c : Clocks) : Prop where
  now_le : c.now ≤ c.touched + p
  ahead : c.touched + p < c.heard + q ∨ Late p q es c

theorem Late.snoc {es : List Event} {c d : Clocks} {e : Event} (h : Late p q es c)
    (he : e ≠ .speak) (hheard : d.heard = c.heard) (hnow : d.now = c.now + e.duration) :
    Late p q (es ++ [e]) d := by
  obtain ⟨pre, mid, c₀, rfl, hpre, hlate, hmid, hheard₀, hnow₀⟩ := h
  refine ⟨pre, mid ++ [e], c₀, by simp, hpre, hlate, ?_, hheard.trans hheard₀, ?_⟩
  · simpa using ⟨hmid, he.symm⟩
  · rw [elapsed_snoc, hnow, hnow₀, Nat.add_assoc]

theorem Sound.not_due {es : List Event} {c : Clocks} (h : Sound p q es c)
    (hgood : MadeGood p q es) : ¬ c.Due q := by
  have hnow := h.now_le
  unfold Clocks.Due
  rcases h.ahead with hahead | ⟨pre, mid, c₀, rfl, hpre, hlate, hmid, hheard, hnow₀⟩
  · omega
  · have hlt := hgood pre mid c₀ List.prefix_rfl hpre hlate hmid
    omega

theorem sound_reaches (hpq : p < q) {es : List Event} {c : Clocks}
    (h : (machine p q).Reaches es c) (hgood : MadeGood p q es) : Sound p q es c := by
  refine history_invariant (M := machine p q)
    (I := fun es c => MadeGood p q es → Sound p q es c) ?_ ?_ h hgood
  · exact fun _ => ⟨Nat.zero_le _, Or.inl (by simpa [machine] using hpq)⟩
  · intro es c e d hc ih hstep hgood
    have hsound := ih (hgood.of_prefix (List.prefix_append es [e]))
    have hdue := hsound.not_due (hgood.of_prefix (List.prefix_append es [e]))
    obtain ⟨hnow, hahead⟩ := hsound
    cases e with
    | wait t =>
      simp only [machine, step, Option.ite_none_right_eq_some, Option.some.injEq] at hstep
      obtain ⟨⟨hle, -⟩, rfl⟩ := hstep
      exact ⟨hle, hahead.imp_right fun hlate => hlate.snoc (by simp) rfl rfl⟩
    | touch =>
      obtain rfl := Option.some.inj hstep
      refine ⟨Nat.le_add_right _ _, ?_⟩
      by_cases hlate : c.heard + q ≤ c.now + p
      · exact Or.inr ⟨es, [], c, rfl, hc, hlate, List.not_mem_nil, rfl, rfl⟩
      · exact Or.inl (Nat.lt_of_not_le hlate)
    | speak =>
      obtain rfl := Option.some.inj hstep
      exact ⟨Nat.le_add_right _ _, Or.inl (Nat.add_lt_add_left hpq _)⟩
    | idle =>
      simp only [machine, step, Option.ite_none_right_eq_some, Option.some.injEq] at hstep
      obtain ⟨-, rfl⟩ := hstep
      exact ⟨Nat.le_add_right _ _, Or.inl (Nat.add_lt_add_left hpq _)⟩
    | expire =>
      simp only [machine, step, if_neg hdue] at hstep
      cases hstep
    | skip =>
      obtain rfl := Option.some.inj hstep
      exact ⟨hnow, hahead.imp_right fun hlate => hlate.snoc (by simp) rfl rfl⟩

/-! ## A late touch that is not made good is fatal -/

/-- After a late touch nothing but a word of the speaker's own accord restarts the watcher's clock,
as long as that clock does not run out. -/
theorem unheard_of_late {pre mid : List Event} {c₀ c : Clocks} (hpre : (machine p q).Reaches pre c₀)
    (hlate : c₀.heard + q ≤ c₀.now + p) (hmid : .speak ∉ mid)
    (hnever : (machine p q).Along (pre ++ .touch :: mid) fun c => ¬ c.Due q)
    (hc : (machine p q).Reaches (pre ++ .touch :: mid) c) :
    c.heard = c₀.heard ∧ c₀.now ≤ c.touched ∧ c.now = c₀.now + elapsed mid := by
  induction mid using List.reverseRecOn generalizing c with
  | nil =>
    obtain ⟨c₁, hc₁, hstep⟩ := reaches_snoc.1 hc
    obtain rfl := hc₁.unique hpre
    obtain rfl := Option.some.inj hstep
    exact ⟨rfl, Nat.le_refl _, rfl⟩
  | append_singleton mid e ih =>
    rw [← List.cons_append, ← List.append_assoc] at hc hnever
    obtain ⟨hmid, he⟩ : Event.speak ∉ mid ∧ e ≠ .speak := by simpa [eq_comm] using hmid
    obtain ⟨c₁, hc₁, hstep⟩ := reaches_snoc.1 hc
    have hbefore := hnever.of_prefix (List.prefix_append _ [e])
    obtain ⟨hheard, htouched, hnow⟩ := ih hmid hbefore hc₁
    have hdue : ¬ c₁.Due q := hbefore.last hc₁
    rw [elapsed_snoc]
    cases e with
    | wait t =>
      simp only [machine, step, Option.ite_none_right_eq_some, Option.some.injEq] at hstep
      obtain ⟨-, rfl⟩ := hstep
      exact ⟨hheard, htouched, by show c₁.now + t = _ + (_ + t); omega⟩
    | touch =>
      obtain rfl := Option.some.inj hstep
      exact ⟨hheard, by show c₀.now ≤ c₁.now; omega, hnow⟩
    | speak => exact absurd rfl he
    | idle =>
      -- the speaker's clock runs out when the watcher's has run out already
      simp only [machine, step, Option.ite_none_right_eq_some, Option.some.injEq] at hstep
      unfold Clocks.Due at hdue
      omega
    | expire =>
      simp only [machine, step, if_neg hdue] at hstep
      cases hstep
    | skip =>
      obtain rfl := Option.some.inj hstep
      exact ⟨hheard, htouched, hnow⟩

/-- **When the watcher's clock never runs out.** In a run the clock runs out nowhere exactly when
every late touch is made good. -/
theorem never_due_iff (hpq : p < q) {es : List Event} {c : Clocks}
    (h : (machine p q).Reaches es c) :
    ((machine p q).Along es fun c => ¬ c.Due q) ↔ MadeGood p q es := by
  constructor
  · intro hnever pre mid c₀ hmid hpre hlate hspeak
    obtain ⟨c₁, hc₁⟩ := h.of_prefix hmid
    have hlater := hnever.of_prefix hmid
    have hnotdue : ¬ c₁.Due q := hlater.last hc₁
    obtain ⟨hheard, -, hnow⟩ := unheard_of_late hpre hlate hspeak hlater hc₁
    unfold Clocks.Due at hnotdue
    omega
  · intro hgood fs hfs d hd
    exact (sound_reaches hpq hd (hgood.of_prefix hfs)).not_due (hgood.of_prefix hfs)

end KeepAlive
