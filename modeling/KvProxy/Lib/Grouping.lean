import Mathlib.Data.List.Induction
import Mathlib.Data.List.Perm.Basic
import KvProxy.Lib.SortedMap

/-!
# Lists by key

A map from keys to lists, filled one value at a time: a value goes to the end
of the list of its key, or to the end of every list there is.

* `lookup_groupBy` — a list filled by key has, for each key, the values of
  that key in their order;
* `lookup_groupBy_of` — the same when only some of the values are taken;
* `lookup_pushAll` — a value for every key goes to the end of each list;
* `flatMap_filter_perm` — the values of all keys are all values.
-/

namespace SortedMap

variable {κ α β : Type*} [LinearOrder κ]

/-- `m[k].push_back(v)`. -/
def pushAt (m : SortedMap κ (List β)) (k : κ) (v : β) : SortedMap κ (List β) :=
  m.insert k (m.getD k [] ++ [v])

/-- `m[k].push_back(v)` for every key `k` of the map. -/
def pushAll (m : SortedMap κ (List β)) (v : β) : SortedMap κ (List β) :=
  m.entries.foldl (fun n e => n.pushAt e.1 v) m

theorem lookup_pushAt (m : SortedMap κ (List β)) (k j : κ) (v : β) :
    (m.pushAt k v).lookup j = if j = k then some (m.getD k [] ++ [v]) else m.lookup j := by
  rw [pushAt, lookup_insert]

/-- A list filled by key. -/
theorem lookup_groupBy (f : α → κ) (g : α → β) (xs : List α) (k : κ) :
    (xs.foldl (fun m x => m.pushAt (f x) (g x)) (∅ : SortedMap κ (List β))).lookup k =
      if ∃ x ∈ xs, f x = k then some ((xs.filter (fun x => f x = k)).map g) else none := by
  induction xs using List.reverseRecOn with
  | nil => simp
  | append_singleton xs x ih =>
      rw [List.foldl_append, List.foldl_cons, List.foldl_nil, lookup_pushAt]
      by_cases hk : k = f x
      · subst hk
        rw [if_pos rfl, if_pos ⟨x, by simp, rfl⟩, getD, ih]
        split_ifs with hsome
        · simp
        · -- the first value of its key
          have hnone : xs.filter (fun y => decide (f y = f x)) = [] := by
            refine List.filter_eq_nil_iff.mpr ?_
            intro y hy
            simpa using fun heq => hsome ⟨y, hy, heq⟩
          simp [hnone]
      · have hne : f x ≠ k := Ne.symm hk
        have hiff : (∃ y ∈ xs ++ [x], f y = k) ↔ ∃ y ∈ xs, f y = k := by
          simp [or_and_right, exists_or, hne]
        have hfilter : (xs ++ [x]).filter (fun y => decide (f y = k)) =
            xs.filter (fun y => decide (f y = k)) := by
          simp [hne]
        rw [if_neg hk, ih, hfilter]
        simp only [hiff]

/-- A list filled by key with those of the values that have a property. -/
theorem lookup_groupBy_of (p : α → Prop) [DecidablePred p] (f : α → κ) (xs : List α) (k : κ) :
    (xs.foldl (fun m x => if p x then m.pushAt (f x) x else m)
        (∅ : SortedMap κ (List α))).lookup k =
      if xs.filter (fun x => p x ∧ f x = k) = [] then none
      else some (xs.filter (fun x => p x ∧ f x = k)) := by
  have hfold : (xs.filter (fun x => decide (p x))).foldl (fun m x => m.pushAt (f x) x)
      (∅ : SortedMap κ (List α)) = xs.foldl (fun m x => if p x then m.pushAt (f x) x else m) ∅ := by
    rw [List.foldl_filter]
    simp only [decide_eq_true_eq]
  have hfilter : (xs.filter (fun x => decide (p x))).filter (fun x => decide (f x = k)) =
      xs.filter (fun x => decide (p x ∧ f x = k)) := by
    rw [List.filter_filter]
    refine List.filter_congr ?_
    intro x _
    simp [Bool.and_comm]
  have hsome : (∃ x ∈ xs.filter (fun x => decide (p x)), f x = k) ↔
      xs.filter (fun x => decide (p x ∧ f x = k)) ≠ [] := by
    rw [← hfilter, ne_eq, List.filter_eq_nil_iff]
    simp [and_assoc]
  have hgroup := lookup_groupBy f id (xs.filter (fun x => decide (p x))) k
  rw [List.map_id] at hgroup
  simp only [id] at hgroup
  rw [← hfold, hgroup, hfilter]
  by_cases hnil : xs.filter (fun x => decide (p x ∧ f x = k)) = []
  · rw [if_pos hnil, if_neg (fun h => hsome.mp h hnil)]
  · rw [if_neg hnil, if_pos (hsome.mpr hnil)]

/-- Values for keys that are in the map already, each at most once. -/
theorem lookup_foldl_pushAt (v : β) {es : List (κ × List β)}
    (hsorted : es.Pairwise (fun a b => a.1 < b.1)) (m : SortedMap κ (List β)) (k : κ) :
    (es.foldl (fun n e => n.pushAt e.1 v) m).lookup k =
      if ∃ e ∈ es, e.1 = k then some (m.getD k [] ++ [v]) else m.lookup k := by
  induction es generalizing m with
  | nil => simp
  | cons e es ih =>
      obtain ⟨hbelow, htail⟩ := List.pairwise_cons.mp hsorted
      rw [List.foldl_cons, ih htail]
      by_cases hk : e.1 = k
      · subst hk
        have hlater : ¬ ∃ x ∈ es, x.1 = e.1 := by
          intro h
          obtain ⟨x, hx, heq⟩ := h
          exact absurd heq (ne_of_gt (hbelow x hx))
        rw [if_neg hlater, lookup_pushAt, if_pos rfl, if_pos ⟨e, by simp, rfl⟩]
      · have hsame : (m.pushAt e.1 v).getD k [] = m.getD k [] := by
          rw [getD, lookup_pushAt, if_neg (Ne.symm hk), getD]
        have hiff : (∃ x ∈ e :: es, x.1 = k) ↔ ∃ x ∈ es, x.1 = k := by simp [hk]
        rw [hsame, lookup_pushAt, if_neg (Ne.symm hk)]
        simp only [hiff]

/-- A value for every key. -/
theorem lookup_pushAll (m : SortedMap κ (List β)) (v : β) (k : κ) :
    (m.pushAll v).lookup k = (m.lookup k).map (fun vs => vs ++ [v]) := by
  rw [pushAll, lookup_foldl_pushAt v m.sorted]
  cases hlookup : m.lookup k with
  | none =>
      have hnone : ¬ ∃ e ∈ m.entries, e.1 = k := by
        intro h
        obtain ⟨e, he, rfl⟩ := h
        exact lookup_eq_none_iff.mp hlookup e.2 he
      rw [if_neg hnone]
      rfl
  | some vs =>
      have hmem := lookup_eq_some_iff.mp hlookup
      rw [if_pos ⟨(k, vs), hmem, rfl⟩, getD, hlookup]
      rfl

end SortedMap

namespace Grouping

variable {α β : Type*} [DecidableEq β]

/-- **The parts of a list by key** make up the list. -/
theorem flatMap_filter_perm {f : α → β} {keys : List β} (hkeys : keys.Nodup) {xs : List α}
    (h : ∀ x ∈ xs, f x ∈ keys) :
    (keys.flatMap (fun k => xs.filter (fun x => f x = k))).Perm xs := by
  induction xs with
  | nil => simp
  | cons x xs ih =>
      have hone : keys.flatMap (fun k => if f x = k then [x] else []) = [x] := by
        obtain ⟨before, behind, rfl⟩ := List.append_of_mem (h x List.mem_cons_self)
        have hother : ∀ k ∈ before ++ behind, ¬ f x = k := by
          rintro k hk rfl
          exact (List.nodup_middle.mp hkeys).notMem hk
        rw [List.flatMap_append, List.flatMap_cons, if_pos rfl,
          List.flatMap_eq_nil_iff.mpr (fun k hk => if_neg (hother k (by simp [hk]))),
          List.flatMap_eq_nil_iff.mpr (fun k hk => if_neg (hother k (by simp [hk])))]
        rfl
      have hcons : (fun k => (x :: xs).filter (fun y => f y = k)) =
          fun k => (if f x = k then [x] else []) ++ xs.filter (fun y => f y = k) := by
        funext k
        by_cases hk : f x = k
        · simp [hk]
        · simp [hk]
      rw [hcons]
      refine (List.flatMap_append_perm _ _ _).symm.trans ?_
      rw [hone]
      exact (ih (fun y hy => h y (List.mem_cons_of_mem _ hy))).cons x

end Grouping
