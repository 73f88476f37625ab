import Mathlib.Tactic.Common

/-!
# Fixed-width integers as integers

Values of C integer types are represented by `Int` and `Nat`; a conversion to
a width is applied where the language applies one.  Signed conversion keeps
the two's complement representative, as the compilers in use do, so that
`int32 (a + b)` is the wrapped sum of two `int`s.
-/

namespace MachineInt

/-- Conversion to a signed 32-bit `int`. -/
def int32 (x : Int) : Int := (x + 2147483648) % 4294967296 - 2147483648

/-- Conversion to an unsigned 32-bit integer. -/
def uint32 (x : Int) : Nat := (x % 4294967296).toNat

/-- Conversion to an unsigned 16-bit integer. -/
def uint16 (x : Int) : Nat := (x % 65536).toNat

/-- Conversion to a 64-bit `size_t`. -/
def sizeT (x : Int) : Nat := (x % 18446744073709551616).toNat

theorem int32_eq_self {x : Int} (hlo : -2147483648 ≤ x) (hhi : x < 2147483648) :
    int32 x = x := by
  unfold int32
  omega

theorem int32_lower (x : Int) : -2147483648 ≤ int32 x := by
  unfold int32
  omega

theorem int32_upper (x : Int) : int32 x < 2147483648 := by
  unfold int32
  omega

theorem int32_le (n : Nat) : int32 n ≤ n := by
  unfold int32
  omega

theorem int32_zero : int32 0 = 0 := int32_eq_self (by omega) (by omega)

/-- Sums may be converted late. -/
theorem int32_add (a b : Int) : int32 (int32 a + int32 b) = int32 (a + b) := by
  unfold int32
  omega

theorem int32_add_of_eq_zero (a : Int) {b : Int} (h : int32 b = 0) : int32 a = int32 (a + b) := by
  unfold int32 at h ⊢
  omega

theorem uint32_eq_self {x : Int} (hlo : 0 ≤ x) (hhi : x < 4294967296) :
    (uint32 x : Int) = x := by
  unfold uint32
  omega

theorem uint32_of_neg {x : Int} (hlo : -2147483648 ≤ x) (hneg : x < 0) :
    2147483648 ≤ uint32 x := by
  unfold uint32
  omega

theorem sizeT_eq_self {x : Int} (hlo : 0 ≤ x) (hhi : x < 18446744073709551616) :
    (sizeT x : Int) = x := by
  unfold sizeT
  omega

end MachineInt
