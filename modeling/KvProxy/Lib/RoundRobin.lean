import KvProxy.Lib.Grouping
import Mathlib.Data.Int.CardIntervalMod
import Mathlib.Data.List.Induction
import Mathlib.Tactic.Common

/-!
# Round robin

A sequence is dealt to `n` hands in turn: the element at place `i` goes to hand
`i % n`.

* `deal_concat` — one more element;
* `length_deal`, `length_deal_le` — how much a hand gets, and that no hand gets two
  more than another;
* `deal_perm` — together the hands have every element once.
-/

namespace RoundRobin

variable {α : Type*}

/-- What hand `w` gets. -/
def deal (n w : Nat) (xs : List α) : List α :=
  (xs.zipIdx.filter (fun x => x.2 % n = w)).map Prod.fst

@[simp] theorem deal_nil (n w : Nat) : deal n w ([] : List α) = [] := rfl

theorem deal_concat (n w : Nat) (xs : List α) (x : α) :
    deal n w (xs ++ [x]) = deal n w xs ++ if xs.length % n = w then [x] else [] := by
  rw [deal, List.zipIdx_append, List.filter_append, List.map_append]
  congr 1
  by_cases hw : xs.length % n = w
  · simp [hw]
  · simp [hw]

theorem length_deal {n w : Nat} (hw : w < n) (xs : List α) :
    (deal n w xs).length = xs.length / n + if w < xs.length % n then 1 else 0 := by
  have hcount : (deal n w xs).length = xs.length.count (fun i => i ≡ w [MOD n]) := by
    induction xs using List.reverseRecOn with
    | nil => rfl
    | append_singleton xs x ih =>
        rw [deal_concat, List.length_append, List.length_append, List.length_singleton, ih,
          Nat.count_succ]
        congr 1
        simp only [Nat.ModEq, Nat.mod_eq_of_lt hw]
        split_ifs <;> rfl
  rw [hcount, Nat.count_modEq_card _ (Nat.zero_lt_of_lt hw), Nat.mod_eq_of_lt hw]

/-- No hand gets two more than another. -/
theorem length_deal_le {n v w : Nat} (hv : v < n) (hw : w < n) (xs : List α) :
    (deal n v xs).length ≤ (deal n w xs).length + 1 := by
  rw [length_deal hv, length_deal hw]
  split_ifs <;> omega

/-- **Every element is dealt once.** -/
theorem deal_perm {n : Nat} (hn : 0 < n) (xs : List α) :
    ((List.range n).flatMap (fun w => deal n w xs)).Perm xs := by
  have hmod : ∀ x ∈ xs.zipIdx, x.2 % n ∈ List.range n := fun x _ =>
    List.mem_range.mpr (Nat.mod_lt x.2 hn)
  have hparts := Grouping.flatMap_filter_perm List.nodup_range hmod
  have hmap := hparts.map Prod.fst
  rwa [List.map_flatMap, List.zipIdx_map_fst] at hmap

end RoundRobin
