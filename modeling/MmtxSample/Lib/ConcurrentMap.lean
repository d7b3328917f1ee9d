import Mathlib.Data.Finmap

/-!
# A concurrent map and its iterators

A map whose operations are atomic, and the *weakly consistent* iterators over its keys. Such an
iterator works while the map changes under it. It promises three things, and nothing else: it
returns no key twice, it returns no key that has been in the map at no time since it was created,
and before it says it is done it returns every key that has been in the map at all times since then.

What an iterator may still do depends on what has happened to the map, so a `WeakIterator` watches
the operations (`observe`): it keeps the keys it has returned, those it may return, and those it
owes.
-/

namespace ConcurrentMap

/-- The contents of the map. -/
abbrev Contents (K V : Type*) := Finmap fun _ : K => V

/-- An atomic change of the map. -/
inductive MapOp (K V : Type*)
  | put (key : K) (value : V)
  | remove (key : K)
  deriving DecidableEq

structure WeakIterator (K : Type*) where
  returned : Finset K
  offered : Finset K
  throughout : Finset K

variable {K V : Type*}

/-- A new iterator over the map: it owes all its keys. -/
def WeakIterator.start (m : Contents K V) : WeakIterator K := ⟨∅, m.keys, m.keys⟩

theorem WeakIterator.mem_throughout_start {m : Contents K V} {key : K} (h : key ∈ m) :
    key ∈ (start m).throughout :=
  Finmap.mem_keys.2 h

/-- Whatever an iterator has returned or owes, it has been free to return. -/
structure WeakIterator.Sound (it : WeakIterator K) : Prop where
  returned : it.returned ⊆ it.offered
  throughout : it.throughout ⊆ it.offered

theorem WeakIterator.sound_start (m : Contents K V) : (start m).Sound :=
  ⟨Finset.empty_subset _, Finset.Subset.refl _⟩

variable [DecidableEq K]

def MapOp.apply (m : Contents K V) : MapOp K V → Contents K V
  | put key value => m.insert key value
  | remove key => m.erase key

namespace WeakIterator

/-- The map changes: a new key may be returned, and a removed one is owed no longer. -/
def observe (it : WeakIterator K) : MapOp K V → WeakIterator K
  | .put key _ => { it with offered := insert key it.offered }
  | .remove key => { it with throughout := it.throughout.erase key }

/-- Return a key. -/
def next (it : WeakIterator K) (key : K) : Option (WeakIterator K) :=
  if key ∈ it.offered ∧ key ∉ it.returned then
    some { it with returned := insert key it.returned }
  else none

/-- There is no next key: every key owed has been returned. -/
def CanFinish (it : WeakIterator K) : Prop := it.throughout ⊆ it.returned

instance (it : WeakIterator K) : Decidable it.CanFinish :=
  inferInstanceAs (Decidable (it.throughout ⊆ it.returned))

@[simp] theorem returned_observe (it : WeakIterator K) (op : MapOp K V) :
    (it.observe op).returned = it.returned := by
  cases op <;> rfl

theorem next_eq_some {it it' : WeakIterator K} {key : K} (h : it.next key = some it') :
    key ∉ it.returned ∧ it'.returned = insert key it.returned ∧
      it'.throughout = it.throughout := by
  unfold next at h
  obtain ⟨⟨-, hnot⟩, hsome⟩ := Option.ite_none_right_eq_some.1 h
  obtain rfl := Option.some.inj hsome
  exact ⟨hnot, rfl, rfl⟩

/-- A key that is in the map after the change is still owed. -/
theorem mem_throughout_observe {it : WeakIterator K} {m : Contents K V} {op : MapOp K V} {key : K}
    (h : key ∈ it.throughout) (hkey : key ∈ op.apply m) : key ∈ (it.observe op).throughout := by
  cases op with
  | put key' value => exact h
  | remove key' => exact Finset.mem_erase.2 ⟨(Finmap.mem_erase.1 hkey).1, h⟩

/-! ## Iterating comes to an end -/

theorem Sound.observe {it : WeakIterator K} (h : it.Sound) (op : MapOp K V) :
    (it.observe op).Sound := by
  cases op with
  | put key value =>
    exact ⟨h.returned.trans (Finset.subset_insert _ _),
      h.throughout.trans (Finset.subset_insert _ _)⟩
  | remove key => exact ⟨h.returned, (Finset.erase_subset _ _).trans h.throughout⟩

/-- A key returned is one on offer, and returning it changes nothing else. -/
theorem offered_next {it it' : WeakIterator K} {key : K} (h : it.next key = some it') :
    key ∈ it.offered ∧ it'.offered = it.offered := by
  obtain ⟨⟨hmem, -⟩, hsome⟩ := Option.ite_none_right_eq_some.1 h
  exact ⟨hmem, Option.some.inj hsome ▸ rfl⟩

theorem Sound.next {it it' : WeakIterator K} {key : K} (h : it.Sound)
    (hnext : it.next key = some it') : it'.Sound := by
  obtain ⟨-, hreturned, hthroughout⟩ := next_eq_some hnext
  obtain ⟨hmem, hoffered⟩ := offered_next hnext
  refine ⟨?_, ?_⟩
  · rw [hreturned, hoffered]
    exact Finset.insert_subset hmem h.returned
  · rw [hthroughout, hoffered]
    exact h.throughout

/-- An iterator that cannot finish has a key to return. -/
theorem Sound.exists_next {it : WeakIterator K} (h : it.Sound) (hfinish : ¬ it.CanFinish) :
    ∃ key it', it.next key = some it' := by
  obtain ⟨key, howed, hnot⟩ := Finset.not_subset.1 hfinish
  exact ⟨key, _, if_pos ⟨h.throughout howed, hnot⟩⟩

/-- The keys on offer grow by one with each `put`, and with nothing else. -/
theorem card_offered_observe (it : WeakIterator K) (op : MapOp K V) :
    (it.observe op).offered.card ≤ it.offered.card +
      match op with
      | .put _ _ => 1
      | .remove _ => 0 := by
  cases op with
  | put key value => exact Finset.card_insert_le _ _
  | remove key => exact Nat.le_refl _

end WeakIterator

end ConcurrentMap
