import Mathlib.Data.Finset.Card
import Mathlib.Data.List.Induction

/-!
# Numbering values in order of first occurrence

The values of a sequence, each where it occurs for the first time, are numbered
from one on.  The number of a value does not change when the sequence goes on:

* `firsts_concat` — one more value is at the end of the list or already in it;
* `number_concat` — and no number changes;
* `number_inj` — two values have different numbers.
-/

namespace Numbering

variable {β : Type*} [DecidableEq β]

/-- The values of a sequence in order of first occurrence. -/
def firsts (xs : List β) : List β := xs.foldl (fun ys x => if x ∈ ys then ys else ys ++ [x]) []

/-- The number of a value. -/
def number (xs : List β) (x : β) : Nat := (firsts xs).idxOf x + 1

@[simp] theorem firsts_nil : firsts ([] : List β) = [] := rfl

theorem firsts_concat (xs : List β) (x : β) :
    firsts (xs ++ [x]) = if x ∈ firsts xs then firsts xs else firsts xs ++ [x] := by
  rw [firsts, List.foldl_append]
  rfl

@[simp] theorem mem_firsts {xs : List β} {y : β} : y ∈ firsts xs ↔ y ∈ xs := by
  induction xs using List.reverseRecOn with
  | nil => simp
  | append_singleton xs x ih =>
      rw [firsts_concat]
      split_ifs with hx
      · rw [ih, List.mem_append, List.mem_singleton]
        constructor
        · exact Or.inl
        · rintro (hy | rfl)
          · exact hy
          · exact ih.mp hx
      · simp [ih]

theorem nodup_firsts (xs : List β) : (firsts xs).Nodup := by
  induction xs using List.reverseRecOn with
  | nil => simp
  | append_singleton xs x ih =>
      rw [firsts_concat]
      split_ifs with hx
      · exact ih
      · exact List.nodup_append.mpr ⟨ih, List.nodup_singleton x, by
          intro y hy z hz
          rw [List.mem_singleton.mp hz]
          exact ne_of_mem_of_not_mem hy hx⟩

theorem length_firsts (xs : List β) : (firsts xs).length = xs.toFinset.card := by
  have hset : xs.toFinset = (firsts xs).toFinset := by
    ext y
    simp
  rw [hset, List.toFinset_card_of_nodup (nodup_firsts xs)]

theorem card_le_append (xs ys : List β) : xs.toFinset.card ≤ (xs ++ ys).toFinset.card := by
  rw [List.toFinset_append]
  exact Finset.card_le_card Finset.subset_union_left

/-- **A number stays.** -/
theorem number_concat {xs : List β} {y : β} (hy : y ∈ xs) (x : β) :
    number (xs ++ [x]) y = number xs y := by
  unfold number
  rw [firsts_concat]
  split_ifs with hx
  · rfl
  · rw [List.idxOf_append_of_mem (mem_firsts.mpr hy)]

/-- The value with a number. -/
theorem getElem?_number {xs : List β} {y : β} (hy : y ∈ xs) :
    (firsts xs)[number xs y - 1]? = some y := by
  have hlt : (firsts xs).idxOf y < (firsts xs).length :=
    List.idxOf_lt_length_iff.mpr (mem_firsts.mpr hy)
  rw [number, Nat.add_sub_cancel, List.getElem?_eq_getElem hlt, List.getElem_idxOf hlt]

/-- **Different values have different numbers.** -/
theorem number_inj {xs : List β} {x y : β} (hx : x ∈ xs) (hy : y ∈ xs) :
    number xs x = number xs y ↔ x = y := by
  constructor
  · intro h
    have hvalue := getElem?_number hx
    rw [h, getElem?_number hy] at hvalue
    exact (Option.some.inj hvalue).symm
  · rintro rfl
    rfl

/-- A place in the list is the number of what is there. -/
theorem number_of_getElem? {xs : List β} {k : Nat} {y : β} (h : (firsts xs)[k]? = some y) :
    number xs y = k + 1 := by
  obtain ⟨hk, rfl⟩ := List.getElem?_eq_some_iff.mp h
  rw [number, (nodup_firsts xs).idxOf_getElem]

end Numbering
