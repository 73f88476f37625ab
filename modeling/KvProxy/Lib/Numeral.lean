import Mathlib.Data.Nat.Digits.Defs
import Mathlib.Data.Nat.Digits.Lemmas

/-!
# Numerals

Lists of digits in some base, the most significant one first, and the numbers they
stand for.  Mathlib's `Nat.ofDigits` has the least significant digit first, so the two
are each other's reversal.

* `value_lt` — the number is below the power of the base that the length gives;
* `value_eq_iff` — two numerals stand for one number exactly when they are the same up
  to leading zeros.
-/

namespace Numeral

/-- The number that digits stand for, by Horner's rule. -/
def value (b : Nat) (ds : List Nat) : Nat := ds.foldl (fun n d => n * b + d) 0

/-- The digits from the first that is not zero on. -/
def significant (ds : List Nat) : List Nat := ds.dropWhile (fun d => d = 0)

@[simp] theorem value_nil (b : Nat) : value b [] = 0 := rfl

theorem value_concat (b : Nat) (ds : List Nat) (d : Nat) :
    value b (ds ++ [d]) = value b ds * b + d := by
  rw [value, List.foldl_append]
  rfl

theorem value_eq_ofDigits (b : Nat) (ds : List Nat) : value b ds = Nat.ofDigits b ds.reverse := by
  induction ds using List.reverseRecOn with
  | nil => rfl
  | append_singleton ds d ih =>
      rw [value_concat, ih, List.reverse_concat, Nat.ofDigits_cons, Nat.mul_comm, Nat.add_comm]

theorem value_lt {b : Nat} (hb : 1 < b) {ds : List Nat} (hds : ∀ d ∈ ds, d < b) :
    value b ds < b ^ ds.length := by
  rw [value_eq_ofDigits, ← List.length_reverse]
  exact Nat.ofDigits_lt_base_pow_length hb (fun d hd => hds d (List.mem_reverse.mp hd))

/-- Leading zeros do not count. -/
theorem value_significant (b : Nat) (ds : List Nat) : value b (significant ds) = value b ds := by
  induction ds with
  | nil => rfl
  | cons d ds ih =>
      by_cases hd : d = 0
      · subst hd
        rw [significant, List.dropWhile_cons_of_pos (by simp), ← significant, ih, value, value,
          List.foldl_cons, Nat.zero_mul, Nat.zero_add]
      · rw [significant, List.dropWhile_cons_of_neg (by simpa using hd)]

/-- The significant digits are Mathlib's digits of the number. -/
theorem digits_value {b : Nat} (hb : 1 < b) {ds : List Nat} (hds : ∀ d ∈ ds, d < b) :
    Nat.digits b (value b ds) = (significant ds).reverse := by
  rw [← value_significant, value_eq_ofDigits]
  refine Nat.digits_ofDigits b hb _ ?_ ?_
  · intro d hd
    exact hds d ((List.dropWhile_sublist _).subset (List.mem_reverse.mp hd))
  · intro hne
    rw [List.getLast_reverse]
    unfold significant at hne ⊢
    have hhead := List.head_dropWhile_not (fun d : Nat => decide (d = 0))
      (fun h => hne (List.reverse_eq_nil_iff.mpr h))
    simpa using hhead

theorem value_eq_iff {b : Nat} (hb : 1 < b) {ds es : List Nat} (hds : ∀ d ∈ ds, d < b)
    (hes : ∀ d ∈ es, d < b) : value b ds = value b es ↔ significant ds = significant es := by
  constructor
  · intro h
    have hdigits := congrArg (Nat.digits b) h
    rw [digits_value hb hds, digits_value hb hes] at hdigits
    exact List.reverse_injective hdigits
  · intro h
    rw [← value_significant, h, value_significant]

end Numeral
