import Mathlib.Tactic.Common

/-!
# Byte memory around a pointer

A buffer is the memory around the pointer to its first byte: offset `0` is
that byte, and every other offset, negative ones included, denotes whatever
lies there.  A read outside the buffer is therefore an ordinary read of an
unspecified byte, and a statement about every memory covers every such byte.
-/

/-- Memory around a pointer, by offset. -/
abbrev ByteMem := Int → UInt8

namespace ByteMem

/-- Memory that starts with the given bytes, over a background. -/
def ofList (bytes : List UInt8) (background : ByteMem) : ByteMem := fun i =>
  if 0 ≤ i then bytes.getD i.toNat (background i) else background i

/-- The memory around `pointer + p`. -/
def shift (m : ByteMem) (p : Int) : ByteMem := fun i => m (p + i)

/-- The `len` bytes at offset `p`. -/
def slice (m : ByteMem) (p : Int) (len : Nat) : List UInt8 :=
  (List.range len).map (fun k : Nat => m (p + (k : Int)))

/-- `memcpy` of the given bytes to offset `p`. -/
def write (m : ByteMem) (p : Int) (bytes : List UInt8) : ByteMem := fun i =>
  if p ≤ i then bytes.getD (i - p).toNat (m i) else m i

@[simp] theorem length_slice (m : ByteMem) (p : Int) (len : Nat) :
    (m.slice p len).length = len := by
  simp [slice]

@[simp] theorem slice_zero (m : ByteMem) (p : Int) : m.slice p 0 = [] := rfl

theorem slice_succ (m : ByteMem) (p : Int) (len : Nat) :
    m.slice p (len + 1) = m p :: m.slice (p + 1) len := by
  simp only [slice, List.range_succ_eq_map, List.map_cons, List.map_map]
  refine congrArg₂ List.cons (by simp) (List.map_congr_left ?_)
  intro k _
  simp only [Function.comp]
  congr 1
  push_cast
  omega

theorem slice_add (m : ByteMem) (p : Int) (a b : Nat) :
    m.slice p (a + b) = m.slice p a ++ m.slice (p + a) b := by
  induction a generalizing p with
  | zero => simp
  | succ a ih =>
      rw [Nat.succ_add, slice_succ, slice_succ, ih]
      have hpos : p + 1 + (a : Int) = p + ((a + 1 : Nat) : Int) := by
        push_cast
        omega
      rw [hpos, List.cons_append]

theorem slice_congr {m n : ByteMem} {p : Int} {len : Nat}
    (h : ∀ i, p ≤ i → i < p + len → m i = n i) : m.slice p len = n.slice p len := by
  refine List.map_congr_left ?_
  intro k hk
  have hlt : k < len := List.mem_range.mp hk
  exact h _ (by omega) (by omega)

/-- Two slices of one length agree exactly when the bytes do. -/
theorem slice_eq_iff {m n : ByteMem} {p : Int} {len : Nat} :
    m.slice p len = n.slice p len ↔ ∀ i, p ≤ i → i < p + len → m i = n i := by
  refine ⟨fun h i hlo hhi => ?_, slice_congr⟩
  have hk : (i - p).toNat < len := by omega
  have hi : p + ((i - p).toNat : Int) = i := by omega
  have hget := congrArg (fun bs : List UInt8 => bs[(i - p).toNat]?) h
  simp only [slice, List.getElem?_map, List.getElem?_range hk, Option.map_some, hi] at hget
  exact Option.some.inj hget

theorem write_of_lt (m : ByteMem) {p i : Int} (bytes : List UInt8) (h : i < p) :
    m.write p bytes i = m i := by
  simp [write, Int.not_le.mpr h]

theorem write_of_ge (m : ByteMem) {p i : Int} (bytes : List UInt8)
    (h : p + bytes.length ≤ i) : m.write p bytes i = m i := by
  unfold write
  split_ifs with hp
  · have hk : bytes.length ≤ (i - p).toNat := by omega
    simp [List.getD_eq_getElem?_getD, List.getElem?_eq_none hk]
  · rfl

theorem write_of_mem (m : ByteMem) {p i : Int} (bytes : List UInt8)
    (hlo : p ≤ i) (hhi : i < p + bytes.length) :
    some (m.write p bytes i) = bytes[(i - p).toNat]? := by
  have hk : (i - p).toNat < bytes.length := by omega
  simp [write, hlo, List.getD_eq_getElem?_getD, List.getElem?_eq_getElem hk]

/-- What was just copied is read back. -/
theorem slice_write_self (m : ByteMem) (p : Int) (bytes : List UInt8) :
    (m.write p bytes).slice p bytes.length = bytes := by
  apply List.ext_getElem?
  intro k
  by_cases hk : k < bytes.length
  · have hw := write_of_mem m bytes (p := p) (i := p + k) (by omega) (by omega)
    have htoNat : (p + (k : Int) - p).toNat = k := by omega
    rw [htoNat] at hw
    simp only [slice, List.getElem?_map, List.getElem?_range hk, Option.map_some]
    exact hw
  · simp [slice, hk]

/-- A copy does not change what lies before it. -/
theorem slice_write_before (m : ByteMem) {p q : Int} {len : Nat} (bytes : List UInt8)
    (h : q + len ≤ p) : (m.write p bytes).slice q len = m.slice q len :=
  slice_congr (fun _ _ hhi => write_of_lt m bytes (by omega))

theorem write_nil (m : ByteMem) (p : Int) : m.write p [] = m := by
  funext i
  simp [write]

/-- Two copies one behind the other are one copy. -/
theorem write_write_append (m : ByteMem) (p : Int) (a b : List UInt8) :
    (m.write p a).write (p + a.length) b = m.write p (a ++ b) := by
  funext i
  by_cases hlo : i < p
  · rw [write_of_lt _ _ (by omega), write_of_lt _ _ hlo, write_of_lt _ _ hlo]
  · have hp : p ≤ i := by omega
    by_cases hmid : i < p + a.length
    · rw [write_of_lt _ _ hmid]
      simp only [write, hp, if_true, List.getD_eq_getElem?_getD]
      rw [List.getElem?_append_left (by omega)]
    · have hge : p + a.length ≤ i := by omega
      have hk : (i - (p + a.length)).toNat = (i - p).toNat - a.length := by omega
      rw [write, if_pos hge, write_of_ge m a hge, write, if_pos hp, hk,
        List.getD_eq_getElem?_getD, List.getD_eq_getElem?_getD,
        List.getElem?_append_right (by omega)]

/-- A copy to the start of a buffer, continued. -/
theorem write_zero_append (m : ByteMem) (a b : List UInt8) :
    (m.write 0 a).write a.length b = m.write 0 (a ++ b) := by
  have hwrite := write_write_append m 0 a b
  rwa [Int.zero_add] at hwrite

theorem ofList_of_lt {bytes : List UInt8} {background : ByteMem} {i : Int}
    (hlo : 0 ≤ i) (hhi : i < bytes.length) :
    some (ofList bytes background i) = bytes[i.toNat]? := by
  have hk : i.toNat < bytes.length := by omega
  simp [ofList, hlo, List.getD_eq_getElem?_getD, List.getElem?_eq_getElem hk]

/-- Writing at the start of a buffer is the same as placing the bytes there. -/
theorem write_zero (m : ByteMem) (bytes : List UInt8) : m.write 0 bytes = ofList bytes m := by
  funext i
  simp [write, ofList]

theorem slice_ofList (bytes : List UInt8) (background : ByteMem) :
    (ofList bytes background).slice 0 bytes.length = bytes := by
  rw [← write_zero, slice_write_self]

/-- A piece of what was placed, read back. -/
theorem slice_ofList_mid (a b c : List UInt8) (background : ByteMem) :
    (ofList (a ++ (b ++ c)) background).slice a.length b.length = b := by
  have hwhole := slice_ofList (a ++ (b ++ c)) background
  rw [List.length_append, List.length_append, slice_add, slice_add, Int.zero_add] at hwhole
  have hrest := (List.append_inj hwhole (by simp)).2
  exact (List.append_inj hrest (by simp)).1

theorem ofList_of_ge (bytes : List UInt8) (background : ByteMem) {i : Int}
    (h : (bytes.length : Int) ≤ i) : ofList bytes background i = background i := by
  rw [← write_zero, write_of_ge _ _ (by omega)]

/-- A shorter slice at the same offset. -/
theorem slice_prefix (m : ByteMem) (p : Int) {a b : Nat} (h : a ≤ b) :
    m.slice p a <+: m.slice p b := by
  obtain ⟨c, rfl⟩ := Nat.exists_eq_add_of_le h
  rw [slice_add]
  exact List.prefix_append _ _

@[simp] theorem shift_zero (m : ByteMem) : m.shift 0 = m := by
  funext i
  simp [shift]

/-- A pointer into a buffer points to the rest of its bytes. -/
theorem shift_ofList (bytes : List UInt8) (background : ByteMem) {p : Nat}
    (h : p ≤ bytes.length) :
    (ofList bytes background).shift p = ofList (bytes.drop p) ((ofList bytes background).shift p) := by
  funext i
  by_cases hlo : 0 ≤ i
  · have hk : ((p : Int) + i).toNat = p + i.toNat := by omega
    by_cases hhi : i.toNat < (bytes.drop p).length
    · have hlt : p + i.toNat < bytes.length := by
        rw [List.length_drop] at hhi
        omega
      simp [shift, ofList, hlo, hk, List.getD_eq_getElem?_getD, List.getElem?_drop,
        List.getElem?_eq_getElem hlt, show (0 : Int) ≤ p + i by omega]
    · rw [ofList_of_ge _ _ (by omega)]
  · simp [ofList, hlo]

end ByteMem
