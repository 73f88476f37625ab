import KvProxy.Lib.SortedMap

/-!
# Iterators of an ordered map

An iterator is at an entry, named by its key, or at the end.  It is valid as
long as its entry is in the map: once the entry is erased, neither reading
through it nor advancing it means anything, which is `none` here.

* `deref_split` / `next_split` — an iterator in the middle of a traversal;
* `next_erase` — an erased iterator cannot be advanced.
-/

/-- An iterator: at the entry of a key, or past the last entry. -/
inductive Cursor (κ : Type*) where
  | entry (k : κ)
  | stop
  deriving DecidableEq

namespace SortedMap

variable {κ β : Type*} [LinearOrder κ]

/-- The iterator at the first of some entries. -/
def cursorOf : List (κ × β) → Cursor κ
  | [] => .stop
  | e :: _ => .entry e.1

/-- `m.begin()`. -/
def first (m : SortedMap κ β) : Cursor κ := cursorOf m.entries

/-- `*it`; undefined at the end and at an erased entry. -/
def deref (m : SortedMap κ β) : Cursor κ → Option (κ × β)
  | .entry k => (m.lookup k).map (fun v => (k, v))
  | .stop => none

/-- `it++`; undefined at the end and at an erased entry. -/
def next (m : SortedMap κ β) : Cursor κ → Option (Cursor κ)
  | .entry k =>
      (m.lookup k).map (fun _ => cursorOf (m.entries.filter (fun e => decide (k < e.1))))
  | .stop => none

/-- `m.erase(it)`; undefined at the end and at an erased entry. -/
def erase (m : SortedMap κ β) : Cursor κ → Option (SortedMap κ β)
  | .entry k => (m.lookup k).map (fun _ => m.filter (fun e => decide (e.1 ≠ k)))
  | .stop => none

variable {m : SortedMap κ β}

theorem deref_split {done rest : List (κ × β)} {e : κ × β} (h : m.entries = done ++ e :: rest) :
    m.deref (.entry e.1) = some e := by
  have hmem : (e.1, e.2) ∈ m := by simp [mem_def, h]
  simp [deref, lookup_eq_some_iff.mpr hmem]

theorem next_split {done rest : List (κ × β)} {e : κ × β} (h : m.entries = done ++ e :: rest) :
    m.next (.entry e.1) = some (cursorOf rest) := by
  have hmem : (e.1, e.2) ∈ m := by simp [mem_def, h]
  have hsorted := m.sorted
  rw [h, List.pairwise_append, List.pairwise_cons] at hsorted
  obtain ⟨_, ⟨habove, _⟩, hbelow⟩ := hsorted
  have hdone : done.filter (fun f => decide (e.1 < f.1)) = [] := by
    refine List.filter_eq_nil_iff.mpr ?_
    intro f hf
    simpa using (hbelow f hf e List.mem_cons_self).le
  have hrest : rest.filter (fun f => decide (e.1 < f.1)) = rest := by
    refine List.filter_eq_self.mpr ?_
    intro f hf
    simpa using habove f hf
  simp [next, lookup_eq_some_iff.mpr hmem, h, hdone, hrest]

/-- An iterator whose entry was erased cannot be advanced. -/
theorem next_erase {m' : SortedMap κ β} {c : Cursor κ} (h : m.erase c = some m') :
    m'.next c = none := by
  cases c with
  | stop => rfl
  | entry k =>
      obtain ⟨v, _, rfl⟩ := Option.map_eq_some_iff.mp h
      have hnone : (m.filter (fun e => decide (e.1 ≠ k))).lookup k = none := by
        rw [lookup_eq_none_iff]
        intro w hw
        simp at hw
      rw [next, hnone, Option.map_none]

theorem erase_split {done rest : List (κ × β)} {e : κ × β} (h : m.entries = done ++ e :: rest) :
    ∃ m', m.erase (.entry e.1) = some m' := by
  have hmem : (e.1, e.2) ∈ m := by simp [mem_def, h]
  exact ⟨_, by rw [erase, lookup_eq_some_iff.mpr hmem, Option.map_some]⟩

end SortedMap
