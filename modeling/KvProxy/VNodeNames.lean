import Mathlib.Data.List.Nodup
import KvProxy.ConsistentHash

/-!
# The names of virtual nodes

`createVNodes` names a virtual node by its id and its number, printed with
`"%d-%d"`.  Both are `uint32_t` and printed as `int`, so the separator is also the
sign of either of them.  A name can be taken apart all the same: a numeral is an
optional sign and at least one digit, and the first character behind its sign that
is not a digit is the separator.

`str_key` has 20 bytes; a name that is longer than 19 is written past its end, and
is the text named here all the same.

* `int2str_append_inj` — a numeral ends where its digits do;
* `vnodeName_inj` — so a name is read in one way only.
-/

namespace KvProxy

open MachineInt

/-- Digits end at the first character that is none. -/
theorem toDigits_append_inj {m n : Nat} {s t : Text} (hs : ∀ c ∈ s.head?, c.isDigit = false)
    (ht : ∀ c ∈ t.head?, c.isDigit = false) (h : Nat.toDigits 10 m ++ s = Nat.toDigits 10 n ++ t) :
    m = n ∧ s = t := by
  have hcut : ∀ (k : Nat) {u : Text}, (∀ c ∈ u.head?, c.isDigit = false) →
      (Nat.toDigits 10 k ++ u).takeWhile Char.isDigit = Nat.toDigits 10 k := by
    intro k u hu
    rw [List.takeWhile_append_of_pos
      (fun c hc => Nat.isDigit_of_mem_toDigits (by decide) (by decide) hc)]
    cases u with
    | nil => simp
    | cons c u => simp [hu c rfl]
  have hdigits : Nat.toDigits 10 m = Nat.toDigits 10 n := by
    rw [← hcut m hs, h, hcut n ht]
  constructor
  · have hvalue := congrArg (fun ds => Nat.ofDigitChars 10 ds 0) hdigits
    simpa [Nat.ofDigitChars_toDigits] using hvalue
  · rw [hdigits] at h
    exact List.append_cancel_left h

/-- The first digit is not a sign. -/
theorem toDigits_append_ne (m : Nat) (s t : Text) : Nat.toDigits 10 m ++ s ≠ '-' :: t := by
  intro h
  cases hdigits : Nat.toDigits 10 m with
  | nil => exact Nat.toDigits_ne_nil hdigits
  | cons c ds =>
      have hdigit : c.isDigit = true :=
        Nat.isDigit_of_mem_toDigits (by decide) (by decide) (hdigits ▸ List.mem_cons_self)
      rw [hdigits, List.cons_append, List.cons.injEq] at h
      rw [h.1] at hdigit
      exact absurd hdigit (by decide)

/-- **A numeral ends where its digits do**, whatever its sign. -/
theorem int2str_append_inj {m n : Int} {s t : Text} (hs : ∀ c ∈ s.head?, c.isDigit = false)
    (ht : ∀ c ∈ t.head?, c.isDigit = false) (h : int2str m ++ s = int2str n ++ t) :
    m = n ∧ s = t := by
  unfold int2str at h
  split_ifs at h with hm hn hn
  · obtain ⟨habs, hrest⟩ := toDigits_append_inj hs ht (List.cons.inj h).2
    exact ⟨by omega, hrest⟩
  · exact absurd h.symm (toDigits_append_ne _ _ _)
  · exact absurd h (toDigits_append_ne _ _ _)
  · obtain ⟨habs, hrest⟩ := toDigits_append_inj hs ht h
    exact ⟨by omega, hrest⟩

/-! ## Names as bytes -/

/-- The text of a name. -/
def vnodeText (index i : Nat) : Text := int2str (int32 index) ++ '-' :: int2str (int32 i)

theorem toNat_lt_of_mem_int2str {n : Int} {c : Char} (hc : c ∈ int2str n) : c.toNat < 128 := by
  have hdigit : ∀ k : Nat, c ∈ Nat.toDigits 10 k → c.toNat < 128 := by
    intro k hk
    have h : c.isDigit = true := Nat.isDigit_of_mem_toDigits (by decide) (by decide) hk
    have hle := (Char.isDigit_iff_toNat.mp h).2
    simp at hle
    omega
  unfold int2str at hc
  split_ifs at hc with hn
  · rcases List.mem_cons.mp hc with rfl | hc
    · decide
    · exact hdigit _ hc
  · exact hdigit _ hc

theorem toNat_lt_of_mem_vnodeText (index i : Nat) : ∀ c ∈ vnodeText index i, c.toNat < 128 := by
  intro c hc
  rcases List.mem_append.mp hc with hc | hc
  · exact toNat_lt_of_mem_int2str hc
  · rcases List.mem_cons.mp hc with rfl | hc
    · decide
    · exact toNat_lt_of_mem_int2str hc

/-- Text in ASCII can be read back from its bytes. -/
theorem map_ofNat_map_toUInt8 {s : Text} (h : ∀ c ∈ s, c.toNat < 128) :
    (s.map Char.toUInt8).map (fun b => Char.ofNat b.toNat) = s := by
  rw [List.map_map]
  refine (List.map_congr_left ?_).trans (List.map_id s)
  intro c hc
  have hc := h c hc
  have hbyte : c.toUInt8.toNat = c.toNat := by
    rw [Char.toUInt8, UInt32.toNat_toUInt8]
    exact Nat.mod_eq_of_lt (by change c.toNat < 256; omega)
  simp [hbyte]

/-- **A name is read in one way only.** -/
theorem vnodeName_inj {a b i j : Nat} (ha : a < 4294967296) (hb : b < 4294967296)
    (hi : i < 4294967296) (hj : j < 4294967296) (h : vnodeName a i = vnodeName b j) :
    a = b ∧ i = j := by
  have htext : vnodeText a i = vnodeText b j := by
    rw [← map_ofNat_map_toUInt8 (toNat_lt_of_mem_vnodeText a i),
      ← map_ofNat_map_toUInt8 (toNat_lt_of_mem_vnodeText b j)]
    exact congrArg _ h
  obtain ⟨hindex, hrest⟩ := int2str_append_inj (by simp) (by simp) htext
  have hnumber : int2str (int32 i) ++ [] = int2str (int32 j) ++ [] := by
    simpa using hrest
  obtain ⟨hnumber, _⟩ := int2str_append_inj (by simp) (by simp) hnumber
  unfold int32 at hindex hnumber
  exact ⟨by omega, by omega⟩

/-! ## Virtual nodes of a group -/

/-- Two texts that the checksum does not tell apart. -/
def Collide (x y : List UInt8) : Prop := x ≠ y ∧ crc32 0 x = crc32 0 y

/-- The hosts of a group have different ids. -/
def DistinctIds (hosts : Hosts) : Prop := (hosts.entries.map (fun e => e.2.1)).Nodup

/-- **Names of virtual nodes are unambiguous**: the id and the number can be told
from the name, so two virtual nodes of a group whose hosts have different ids sit
at one position of the ring only where the checksum collides. -/
theorem vnode_names_unambiguous :
    (∀ a b i j : UInt32,
      vnodeName a.toNat i.toNat = vnodeName b.toNat j.toNat → a = b ∧ i = j) ∧
    ∀ hosts : Hosts, (∀ e ∈ hosts, e.2.1 < 4294967296 ∧ e.2.2 < 4294967296) →
      DistinctIds hosts →
      ∀ e ∈ hosts, ∀ f ∈ hosts, ∀ i < e.2.2, ∀ j < f.2.2,
        vnodeKey e.2.1 i = vnodeKey f.2.1 j →
          (e = f ∧ i = j) ∨ Collide (vnodeName e.2.1 i) (vnodeName f.2.1 j) := by
  constructor
  · intro a b i j h
    obtain ⟨hid, hnumber⟩ := vnodeName_inj a.toNat_lt b.toNat_lt i.toNat_lt j.toNat_lt h
    exact ⟨UInt32.toNat_inj.mp hid, UInt32.toNat_inj.mp hnumber⟩
  · intro hosts htyped hdistinct e he f hf i hi j hj hkey
    obtain ⟨heid, heweight⟩ := htyped e he
    obtain ⟨hfid, hfweight⟩ := htyped f hf
    by_cases hname : vnodeName e.2.1 i = vnodeName f.2.1 j
    · obtain ⟨hid, hnumber⟩ := vnodeName_inj heid hfid (by omega) (by omega) hname
      exact Or.inl ⟨List.inj_on_of_nodup_map hdistinct he hf hid, hnumber⟩
    · exact Or.inr ⟨hname, UInt32.toNat_inj.mp hkey⟩

end KvProxy
