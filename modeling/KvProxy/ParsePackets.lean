import KvProxy.RequestStream

/-!
# Parsing quiet gets

`parse_req` walks over the quiet gets at the start of a buffer, one item for
each, before it meets the request that decides what it returns.

* `run_quiet` — the walk;
* `parseReq_batch` — a forwarded request behind it ends the batch;
* `reqItem_keyBytes` — the key of an item is the key of its packet.
-/

namespace KvProxy

open MachineInt

/-- What the opcode of a quiet get makes of its item. -/
def quietFlags : ReqFlags := ⟨false, false, 0, true⟩

/-- The items of quiet gets that lie one behind the other from offset `o`. -/
def quietItemsAt (o : Nat) : List (Packet magicReq) → List Req
  | [] => []
  | q :: qs => reqItem true o q.header quietFlags :: quietItemsAt (o + q.length) qs

/-- **The walk over quiet gets** that have arrived. -/
theorem run_quiet {m : ByteMem} {n : Nat} (hn : n < 2147483648) {qs : List (Packet magicReq)}
    (hquiet : ∀ q ∈ qs, q.opcode = cmdGetkq) {o : Nat} (fuel : Nat) {s : ReqLoop}
    (hpos : s.position = o) (hheld : Held m o n (Packet.concat qs))
    (hfit : o + (Packet.concat qs).length ≤ n) :
    ∃ header, Loop.run (parseReqBody m n true) (qs.length + fuel) s =
      Loop.run (parseReqBody m n true) fuel
        ⟨((o + (Packet.concat qs).length : Nat) : Int), s.reqData ++ quietItemsAt o qs,
          s.isAgin || !qs.isEmpty, header⟩ := by
  induction qs generalizing o s with
  | nil =>
      refine ⟨s.header, ?_⟩
      simp [quietItemsAt, ← hpos]
  | cons q qs ih =>
      have hle : 24 ≤ q.length := q.header_le
      rw [Packet.length_concat_cons] at hfit
      have hop : dispatch q.opcode = .ok quietFlags := by
        rw [hquiet q List.mem_cons_self]
        exact dispatch_getkq
      have htakes := parseReqBody_takes hn q hheld.left hop (by omega) (by omega) (by omega) hpos
      have hright : Held m (o + q.length) n (Packet.concat qs) := hheld.right
      obtain ⟨header, hrest⟩ := ih (fun p hp => hquiet p (List.mem_cons_of_mem _ hp))
        (s := ⟨((o + q.length : Nat) : Int), s.reqData ++ [reqItem true o q.header quietFlags],
          quietFlags.isAgin, q.header⟩) rfl hright (by omega)
      refine ⟨header, ?_⟩
      rw [List.length_cons, show qs.length + 1 + fuel = (qs.length + fuel) + 1 by omega,
        Loop.run_pass _ htakes, hrest, Packet.length_concat_cons, Nat.add_assoc, quietItemsAt,
        List.append_assoc]
      simp [quietFlags]

/-- The parser as the walk over the quiet gets leaves it. -/
theorem parseReq_quiet {m : ByteMem} {n : Nat} (hn : n < 2147483648)
    {qs : List (Packet magicReq)} (hquiet : ∀ q ∈ qs, q.opcode = cmdGetkq)
    (hheld : Held m 0 n (Packet.concat qs)) (hfit : (Packet.concat qs).length ≤ n)
    (hbin : isBinaryProtocol m = true) (header : MemcachedHeader) :
    ∃ fuel header', parseReq true header m n 0 [] =
      (Loop.run (parseReqBody m n true) (fuel + 1 + 1)
        ⟨(Packet.concat qs).length, quietItemsAt 0 qs, !qs.isEmpty, header'⟩).map
        (fun r => (r.1, r.2.position, r.2.reqData)) := by
  have hcount := length_le_concat qs
  obtain ⟨fuel, hfuel⟩ : ∃ fuel, loopFuel = qs.length + (fuel + 1 + 1) :=
    ⟨loopFuel - qs.length - 2, by unfold loopFuel; omega⟩
  obtain ⟨header', hrun⟩ := run_quiet hn hquiet (o := 0) (fuel + 1 + 1)
    (s := ⟨0, [], false, header⟩) rfl hheld (by omega)
  refine ⟨fuel, header', ?_⟩
  unfold parseReq
  simp only [hbin]
  rw [if_neg (by simp), hfuel, hrun]
  simp

/-- **A whole batch**: quiet gets and a request that ends them. -/
theorem parseReq_batch {m : ByteMem} {n : Nat} (hn : n < 2147483648)
    {qs : List (Packet magicReq)} (hquiet : ∀ q ∈ qs, q.opcode = cmdGetkq) {last : Packet magicReq}
    {flags : ReqFlags} (hlast : dispatch last.opcode = .ok flags) (hplain : flags.isAgin = false)
    (hheld : Held m 0 n (Packet.concat (qs ++ [last])))
    (hfit : (Packet.concat (qs ++ [last])).length ≤ n) (hbin : isBinaryProtocol m = true)
    (header : MemcachedHeader) :
    parseReq true header m n 0 [] =
      some (.success, ((Packet.concat (qs ++ [last])).length : Int), quietItemsAt 0 qs ++
        [reqItem true (Packet.concat qs).length last.header flags]) := by
  have hle : 24 ≤ last.length := last.header_le
  have hlen : (Packet.concat (qs ++ [last])).length = (Packet.concat qs).length + last.length := by
    simp [Packet.length]
  rw [Packet.concat_append] at hheld
  have hright : Held m (Packet.concat qs).length n last.bytes := by
    have hright := hheld.right
    rw [Nat.zero_add] at hright
    exact hright.left
  obtain ⟨fuel, header', hparse⟩ :=
    parseReq_quiet hn hquiet hheld.left (by omega) hbin header
  have htakes := parseReqBody_takes hn last hright hlast (by omega) (by omega) (by omega)
    (s := ⟨(Packet.concat qs).length, quietItemsAt 0 qs, !qs.isEmpty, header'⟩) rfl
  rw [hplain] at htakes
  rw [hparse, Loop.run_leave (fuel + 1) htakes, hlen]
  rfl

/-! ## Keys -/

/-- The key of a request. -/
def Packet.key {magic : UInt8} (p : Packet magic) : List UInt8 :=
  p.mem.slice (24 + (p.mem 4).toNat) (be16 p.mem 2).toNat

/-- The key is a part of the request. -/
def Packet.KeyInside {magic : UInt8} (p : Packet magic) : Prop :=
  24 + (p.mem 4).toNat + (be16 p.mem 2).toNat ≤ p.length

instance {magic : UInt8} (p : Packet magic) : Decidable p.KeyInside :=
  inferInstanceAs (Decidable (_ ≤ _))

/-- A byte of a packet that has arrived. -/
theorem Held.byte {magic : UInt8} {p : Packet magic} {m : ByteMem} {o n i : Nat}
    (h : Held m o n p.bytes) (hn : o + p.length ≤ n) (hi : i < p.length) :
    m ((o + i : Nat) : Int) = p.mem (i : Int) := by
  have hlen : p.length = p.bytes.length := rfl
  have hmem : some (p.mem (i : Int)) = p.bytes[(i : Int).toNat]? :=
    ByteMem.ofList_of_lt (by omega) (by omega)
  rw [Int.toNat_natCast] at hmem
  exact h i (by omega) _ hmem.symm

/-- The key of an item is that of its packet. -/
theorem reqItem_keyBytes {m : ByteMem} {o n : Nat} {p : Packet magicReq} (flags : ReqFlags)
    (hheld : Held m o n p.bytes) (hfit : o + p.length ≤ n) (hkey : p.KeyInside) :
    (reqItem true o p.header flags).keyBytes m = p.key := by
  obtain ⟨hpos, hlt⟩ := be16_bounds p.mem 2
  have hlen : uint16 p.header.keylen = (be16 p.mem 2).toNat := by
    simp only [Packet.header, uint16]
    omega
  unfold Packet.KeyInside at hkey
  simp only [Req.keyBytes, reqItem, hlen, Packet.key, ByteMem.slice]
  refine List.map_congr_left ?_
  intro k hk
  have hin := List.mem_range.mp hk
  have hbyte := hheld.byte hfit (i := 24 + (p.mem 4).toNat + k) (by omega)
  have hleft : ((o + (24 + (p.mem 4).toNat + k) : Nat) : Int) =
      (o : Int) + headerLen true + p.header.extlen + (k : Int) := by
    simp only [headerLen, Packet.header, if_true]
    omega
  have hright : ((24 + (p.mem 4).toNat + k : Nat) : Int) =
      24 + ((p.mem 4).toNat : Int) + (k : Int) := by
    omega
  rw [hleft, hright] at hbyte
  exact hbyte

end KvProxy
