import KvProxy.ParseResp

/-!
# Well-formed packets of the binary protocol

A `Packet` is a request or a response as the binary protocol defines it: a
header of 24 bytes that starts with the magic byte of its direction, and a
body of the length the header gives.  A value of the type is well formed by
construction.

Packets lie in a buffer one behind the other, of which the first `n` bytes
have been received (`Held`).
-/

namespace KvProxy

open MachineInt

/-- A well-formed packet that starts with the given magic byte. -/
structure Packet (magic : UInt8) where
  bytes : List UInt8
  header_le : 24 ≤ bytes.length
  length_lt : bytes.length < 2147483648
  magic_eq : ByteMem.ofList bytes (fun _ => 0) 0 = magic
  body_eq : be32 (ByteMem.ofList bytes (fun _ => 0)) 8 = bytes.length - 24

namespace Packet

variable {magic : UInt8}

/-- The length of a packet. -/
def length (p : Packet magic) : Nat := p.bytes.length

/-- The packet at the start of a buffer. -/
def mem (p : Packet magic) : ByteMem := ByteMem.ofList p.bytes (fun _ => 0)

/-- The opcode, as it is compared. -/
def opcode (p : Packet magic) : Int := (p.mem 1).toNat

/-- The header a reader makes of the packet. -/
def header (p : Packet magic) : MemcachedHeader where
  keylen := be16 p.mem 2
  extlen := (p.mem 4).toNat
  bodylen := p.length - 24
  opcode := p.opcode

theorem eq_of_bytes {p q : Packet magic} (h : p.bytes = q.bytes) : p = q := by
  cases p
  cases q
  simpa using h

/-- The bytes of packets one behind the other. -/
def concat (ps : List (Packet magic)) : List UInt8 := ps.flatMap Packet.bytes

@[simp] theorem concat_nil : concat ([] : List (Packet magic)) = [] := rfl

@[simp] theorem concat_cons (p : Packet magic) (ps : List (Packet magic)) :
    concat (p :: ps) = p.bytes ++ concat ps := rfl

@[simp] theorem concat_append (ps qs : List (Packet magic)) :
    concat (ps ++ qs) = concat ps ++ concat qs := by
  simp [concat]

theorem length_concat_cons (p : Packet magic) (ps : List (Packet magic)) :
    (concat (p :: ps)).length = p.length + (concat ps).length := by
  simp [length]

/-- The declared length of a packet is its length. -/
theorem packetLen_header (p : Packet magic) : packetLen true p.header = p.length := by
  have hle := p.header_le
  have hlt := p.length_lt
  simp only [packetLen, headerLen, header, length, if_true]
  rw [int32_eq_self (by omega) (by omega)]
  omega

end Packet

/-- Every packet has its header. -/
theorem length_le_concat {magic : UInt8} (ps : List (Packet magic)) :
    24 * ps.length ≤ (Packet.concat ps).length := by
  induction ps with
  | nil => simp
  | cons p ps ih =>
      have hle : 24 ≤ p.length := p.header_le
      rw [Packet.length_concat_cons, List.length_cons]
      omega

/-- Of the first `n` bytes of a buffer, those from offset `o` on are those of
the list. -/
def Held (m : ByteMem) (o n : Nat) (bytes : List UInt8) : Prop :=
  ∀ i : Nat, o + i < n → ∀ b, bytes[i]? = some b → m ((o + i : Nat) : Int) = b

theorem Held.left {m : ByteMem} {o n : Nat} {xs ys : List UInt8} (h : Held m o n (xs ++ ys)) :
    Held m o n xs := by
  intro i hi b hb
  refine h i hi b ?_
  have hlt : i < xs.length := (List.getElem?_eq_some_iff.mp hb).1
  rw [List.getElem?_append_left hlt]
  exact hb

theorem Held.right {m : ByteMem} {o n : Nat} {xs ys : List UInt8} (h : Held m o n (xs ++ ys)) :
    Held m (o + xs.length) n ys := by
  intro i hi b hb
  have hnext := h (xs.length + i) (by omega) b (by
    rw [List.getElem?_append_right (by omega), Nat.add_sub_cancel_left]
    exact hb)
  rwa [← Nat.add_assoc] at hnext

/-- A buffer holds what was copied to its start. -/
theorem held_write (m : ByteMem) (bytes : List UInt8) (n : Nat) :
    Held (m.write 0 (bytes.take n)) 0 n bytes := by
  intro i hi b hb
  have hlt : i < bytes.length := (List.getElem?_eq_some_iff.mp hb).1
  have hget := ByteMem.write_of_mem m (bytes.take n) (p := 0) (i := (i : Int)) (by omega)
    (by simp; omega)
  have hk : ((i : Int) - 0).toNat = i := by omega
  rw [hk, List.getElem?_take_of_lt (by omega), hb] at hget
  rw [Nat.zero_add]
  exact Option.some.inj hget

/-- Reading a header whose 24 bytes are there. -/
theorem tryReadBinary_held {magic : UInt8} {bytes : List UInt8} (hle : 24 ≤ bytes.length)
    (hmagic : ByteMem.ofList bytes (fun _ => 0) 0 = magic) {m : ByteMem} {o n : Nat}
    (hheld : Held m o n bytes) (hn : o + 24 ≤ n) (hsize : n < 2147483648)
    (header : MemcachedHeader) :
    tryReadBinary magic (m.shift o) (int32 ((n : Int) - o)) header =
      (1, ⟨be16 (ByteMem.ofList bytes (fun _ => 0)) 2, (ByteMem.ofList bytes (fun _ => 0) 4).toNat,
        int32 (be32 (ByteMem.ofList bytes (fun _ => 0)) 8),
        (ByteMem.ofList bytes (fun _ => 0) 1).toNat⟩) := by
  have hat : ∀ i : Nat, i < 24 → ∀ j : Int, j = i →
      m.shift o j = ByteMem.ofList bytes (fun _ => 0) j := by
    intro i hi j hj
    subst hj
    have hmem : some (ByteMem.ofList bytes (fun _ => 0) i) = bytes[(i : Int).toNat]? :=
      ByteMem.ofList_of_lt (by omega) (by omega)
    have hb : bytes[i]? = some (ByteMem.ofList bytes (fun _ => 0) i) := by simpa using hmem.symm
    have hbyte := hheld i (by omega) _ hb
    simpa [ByteMem.shift] using hbyte
  have hbe16 : be16 (m.shift o) 2 = be16 (ByteMem.ofList bytes (fun _ => 0)) 2 := by
    unfold be16
    rw [hat 2 (by omega) 2 rfl, hat 3 (by omega) (2 + 1) rfl]
  have hbe32 : be32 (m.shift o) 8 = be32 (ByteMem.ofList bytes (fun _ => 0)) 8 := by
    unfold be32
    rw [hat 8 (by omega) 8 rfl, hat 9 (by omega) (8 + 1) rfl, hat 10 (by omega) (8 + 2) rfl,
      hat 11 (by omega) (8 + 3) rfl]
  have hfirst : m.shift o 0 = magic := (hat 0 (by omega) 0 rfl).trans hmagic
  rw [int32_eq_self (by omega) (by omega), tryReadBinary_of_magic header (by omega) hfirst,
    hbe16, hbe32, hat 4 (by omega) 4 rfl, hat 1 (by omega) 1 rfl]

/-- Reading the header of a packet whose first 24 bytes are there. -/
theorem tryReadBinary_packet {magic : UInt8} (p : Packet magic) {m : ByteMem} {o n : Nat}
    (hheld : Held m o n p.bytes) (hn : o + 24 ≤ n) (hsize : n < 2147483648)
    (header : MemcachedHeader) :
    tryReadBinary magic (m.shift o) (int32 ((n : Int) - o)) header = (1, p.header) := by
  have hbody : int32 (be32 p.mem 8) = p.length - 24 := by
    have hle := p.header_le
    have hlt := p.length_lt
    have hbe : be32 p.mem 8 = p.length - 24 := p.body_eq
    have hlen : p.length = p.bytes.length := rfl
    rw [hbe]
    exact int32_eq_self (by omega) (by omega)
  have hread := tryReadBinary_held p.header_le p.magic_eq hheld hn hsize header
  have hmem : ByteMem.ofList p.bytes (fun _ => 0) = p.mem := rfl
  rw [hread, hmem, hbody]
  rfl

/-- The first byte of a buffer that starts with a packet. -/
theorem Held.first_byte {magic : UInt8} (p : Packet magic) {m : ByteMem} {n : Nat}
    (h : Held m 0 n p.bytes) (hn : 0 < n) : m 0 = magic := by
  have hle := p.header_le
  have hmem : some (p.mem 0) = p.bytes[(0 : Int).toNat]? :=
    ByteMem.ofList_of_lt (by omega) (by omega)
  rw [show p.mem 0 = magic from p.magic_eq] at hmem
  simpa using h 0 (by omega) _ hmem.symm

/-- Bytes that have been received whole can be read back. -/
theorem Held.slice {m : ByteMem} {o n : Nat} {bytes : List UInt8} (h : Held m o n bytes)
    (hn : o + bytes.length ≤ n) : m.slice o bytes.length = bytes := by
  apply List.ext_getElem?
  intro i
  by_cases hi : i < bytes.length
  · have hb : bytes[i]? = some (bytes.get ⟨i, hi⟩) := by simp [hi]
    have hget := h i (by omega) _ hb
    rw [hb]
    simp only [ByteMem.slice, List.getElem?_map, List.getElem?_range hi, Option.map_some]
    rw [← hget, Int.natCast_add]
  · rw [List.getElem?_eq_none (by simpa using hi), List.getElem?_eq_none (by simpa using hi)]

end KvProxy
