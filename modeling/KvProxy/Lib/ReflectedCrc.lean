import Mathlib.Algebra.Group.Nat.Defs
import Mathlib.Logic.Function.Iterate
import Mathlib.Tactic.Common

/-!
# Reflected cyclic redundancy checks

A reflected check takes the bits of its state from the low end: a bit that is
set is paid for with the polynomial.  The step is linear in exclusive or, so what
`n` steps do to a state is decided by its `n` low bits alone, and the bits above
only move down:

* `bits_xor` — any number of steps is linear;
* `bits_shift` — a state without low bits moves down;
* `bits_eq` — so a table of the `n` low bits does the work of `n` steps.
-/

namespace ReflectedCrc

section Steps

variable {w : Nat} (poly : BitVec w)

/-- One bit of input, already in the low bit of the state. -/
def bit (c : BitVec w) : BitVec w := if c.getLsbD 0 then (c >>> 1) ^^^ poly else c >>> 1

/-- The bits of `n` low places, one at a time. -/
def bits (n : Nat) : BitVec w → BitVec w := (bit poly)^[n]

/-- The `n` low bits of a state. -/
def low (n : Nat) (c : BitVec w) : BitVec w := c &&& BitVec.ofNat w (2 ^ n - 1)

theorem getLsbD_low (n : Nat) (c : BitVec w) (i : Nat) :
    (low n c).getLsbD i = (c.getLsbD i && decide (i < n)) := by
  by_cases hi : i < w
  · rw [low, BitVec.getLsbD_and, BitVec.getLsbD_ofNat, Nat.testBit_two_pow_sub_one]
    simp [hi]
  · simp [BitVec.getLsbD_of_ge _ i (Nat.le_of_not_lt hi)]

/-- **A step is linear.** -/
theorem bit_xor (x y : BitVec w) : bit poly (x ^^^ y) = bit poly x ^^^ bit poly y := by
  simp only [bit, BitVec.getLsbD_xor, BitVec.ushiftRight_xor_distrib]
  cases hx : x.getLsbD 0 with
  | false =>
      cases hy : y.getLsbD 0 with
      | false => simp
      | true => simp [BitVec.xor_assoc]
  | true =>
      cases hy : y.getLsbD 0 with
      | false => simp [BitVec.xor_assoc, BitVec.xor_comm poly]
      | true =>
          -- the polynomial is taken twice, which is not at all
          have htwice : poly ^^^ (y >>> 1 ^^^ poly) = y >>> 1 := by
            rw [BitVec.xor_comm, BitVec.xor_assoc, BitVec.xor_self, BitVec.xor_zero]
          simp [BitVec.xor_assoc, htwice]

theorem bits_xor (n : Nat) (x y : BitVec w) :
    bits poly n (x ^^^ y) = bits poly n x ^^^ bits poly n y := by
  unfold bits
  induction n generalizing x y with
  | zero => rfl
  | succ n ih => rw [Function.iterate_succ_apply, bit_xor, ih, Function.iterate_succ_apply,
      Function.iterate_succ_apply]

/-- Without low bits, the state moves down. -/
theorem bits_shift {n : Nat} {c : BitVec w} (h : ∀ i, i < n → c.getLsbD i = false) :
    bits poly n c = c >>> n := by
  unfold bits
  induction n with
  | zero => simp
  | succ n ih =>
      have hlow : (c >>> n).getLsbD 0 = false := by simpa using h n (Nat.lt_succ_self n)
      rw [Function.iterate_succ_apply', ih (fun i hi => h i (by omega)), bit, hlow,
        BitVec.shiftRight_add]
      rfl

/-- **Many steps at once**: those of the low bits, and the others moved down. -/
theorem bits_eq (n : Nat) (c : BitVec w) : bits poly n c = (c >>> n) ^^^ bits poly n (low n c) := by
  -- taking the low bits out leaves a state that only moves down
  have hhigh : ∀ i, i < n → (c ^^^ low n c).getLsbD i = false := by
    intro i hi
    simp [getLsbD_low, hi]
  have hsplit : (c ^^^ low n c) ^^^ low n c = c := by
    rw [BitVec.xor_assoc, BitVec.xor_self, BitVec.xor_zero]
  have hshift : (low n c) >>> n = 0#w := by
    apply BitVec.eq_of_getLsbD_eq
    intro i _
    simp [getLsbD_low]
  calc bits poly n c
      = bits poly n ((c ^^^ low n c) ^^^ low n c) := by rw [hsplit]
    _ = ((c ^^^ low n c) >>> n) ^^^ bits poly n (low n c) := by
        rw [bits_xor, bits_shift poly hhigh]
    _ = (c >>> n) ^^^ bits poly n (low n c) := by
        rw [BitVec.ushiftRight_xor_distrib, hshift, BitVec.xor_zero]

end Steps

end ReflectedCrc
