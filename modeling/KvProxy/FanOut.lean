import KvProxy.Lib.Grouping
import KvProxy.ParsePackets

/-!
# A multi-get goes out to the owners of its keys

A client asks for several keys with one quiet get for each and a no-op behind
them.  `parse_req` makes items of the packets, `createReqGroup` gives every get
to the owner of its key and the no-op to every host that has a get, and
`create_req` writes a host's gets and then the no-op.

* `createReqGroup_multiGet` — the groups are the gets by owner, with the no-op
  at the end of each;
* `fan_out` — what every host is sent.
-/

namespace KvProxy

open MachineInt

/-- Quiet gets with keys, and a no-op. -/
structure MultiGet where
  quiet : List (Packet magicReq)
  noop : Packet magicReq
  quiet_ne : quiet ≠ []
  quiet_getkq : ∀ q ∈ quiet, q.opcode = cmdGetkq
  keys_inside : ∀ q ∈ quiet, q.KeyInside
  keys_ne : ∀ q ∈ quiet, q.key ≠ []
  noop_opcode : noop.opcode = cmdNoop

/-- The bytes of a multi-get. -/
def MultiGet.bytes (b : MultiGet) : List UInt8 := Packet.concat (b.quiet ++ [b.noop])

/-- The ring that answers reads. -/
def HostTable.readRing (hosts : HostTable) : ConsistentHash :=
  if (hosts.rings .hostsRead).getSize > 0 then hosts.rings .hostsRead else hosts.rings .hosts

/-- The host that owns a key. -/
def HostTable.owner (hosts : HostTable) (key : List UInt8) : Nat := (hosts.readRing.find key).2

/-- What a no-op's opcode makes of its item. -/
def noopFlags : ReqFlags := ⟨false, true, endMark, false⟩

/-- The bytes are a quiet get of the key. -/
def BinaryGetOf (bytes key : List UInt8) : Prop :=
  ∃ p : Packet magicReq, p.bytes = bytes ∧ p.opcode = cmdGetkq ∧ p.key = key

/-- A host is asked for a key: a request of its group is a get of the key. -/
def Asks (getOf : List UInt8 → List UInt8 → Prop) (m : ByteMem) (g : ReqGroups) (a : Nat)
    (key : List UInt8) : Prop :=
  ∃ reqs, g.group.lookup a = some reqs ∧ ∃ r ∈ reqs, getOf (r.bytes m) key

/-- What the groups of a multi-get should be: the hosts that own a key of it, each
sent its gets in order and the no-op once, every key asked of its owner only,
and nothing for the backup hosts. -/
structure FansOut (hosts : HostTable) (b : MultiGet) (m : ByteMem) (g : ReqGroups) : Prop where
  owners : ∀ a, (∃ reqs, g.group.lookup a = some reqs) ↔ ∃ q ∈ b.quiet, hosts.owner q.key = a
  sent : ∀ a reqs, g.group.lookup a = some reqs → ∀ buf,
    (createReq m reqs buf 0).1.slice 0 (createReq m reqs buf 0).2 =
      Packet.concat (b.quiet.filter (fun q => hosts.owner q.key = a)) ++ b.noop.bytes
  asked : ∀ q ∈ b.quiet, ∀ a, Asks BinaryGetOf m g a q.key ↔ a = hosts.owner q.key
  backup : g.backup = ∅
  sync : g.sync = ∅

/-! ## Grouping -/

section Grouping

variable {cfg : ProxyConfig} {hosts : HostTable} {m : ByteMem}

theorem owner_ne_zero (hring : hosts.readRing.hash.entries ≠ [])
    (halias : ∀ e ∈ hosts.readRing.hash, 1 ≤ e.2.2) (key : List UInt8) : hosts.owner key ≠ 0 := by
  obtain ⟨e, he, hfind, _⟩ := hosts.readRing.find_spec key hring
  have hpos := halias e he
  rw [HostTable.owner, hfind]
  omega

/-- A get goes to the owner of its key, if it has one. -/
theorem groupReq_get {r : Req} (heach : r.each = false) (hupdate : r.update = false)
    (hkey : r.keyLen ≠ 0) (s : ReqGroups × List Req) :
    groupReq cfg hosts m s r =
      if hosts.owner (r.keyBytes m) = 0 then s
      else ({ s.1 with group := s.1.group.pushAt (hosts.owner (r.keyBytes m)) r }, s.2) := by
  have hfind : ((hosts.rings (if r.update ≠ true ∧ (hosts.rings .hostsRead).getSize > 0 then
      .hostsRead else .hosts)).find (r.keyBytes m)).2 = hosts.owner (r.keyBytes m) := by
    unfold HostTable.owner HostTable.readRing
    simp only [hupdate, ne_eq, Bool.false_eq_true, not_false_eq_true, true_and]
    split_ifs <;> rfl
  unfold groupReq
  simp only [heach, Bool.false_eq_true, if_false, hkey, hfind]
  simp only [groupBackup, hupdate, Bool.false_eq_true, false_and, if_false]
  rfl

/-- A no-op is kept for every host. -/
theorem groupReq_noop {r : Req} (heach : r.each = true) (hupdate : r.update = false)
    (s : ReqGroups × List Req) : groupReq cfg hosts m s r = (s.1, s.2 ++ [r]) := by
  unfold groupReq
  simp [heach, groupBackup, hupdate]

theorem foldl_groupReq {gets : List Req}
    (hgets : ∀ r ∈ gets, r.each = false ∧ r.update = false ∧ r.keyLen ≠ 0)
    (howned : ∀ r ∈ gets, hosts.owner (r.keyBytes m) ≠ 0) (s : ReqGroups × List Req) :
    gets.foldl (groupReq cfg hosts m) s =
      ({ s.1 with group :=
        gets.foldl (fun g r => g.pushAt (hosts.owner (r.keyBytes m)) r) s.1.group }, s.2) := by
  induction gets generalizing s with
  | nil => rfl
  | cons r gets ih =>
      obtain ⟨heach, hupdate, hkey⟩ := hgets r List.mem_cons_self
      rw [List.foldl_cons, groupReq_get heach hupdate hkey,
        if_neg (howned r List.mem_cons_self),
        ih (fun x hx => hgets x (List.mem_cons_of_mem _ hx))
          (fun x hx => howned x (List.mem_cons_of_mem _ hx))]
      rfl

/-- **`createReqGroup` on gets and a no-op.** -/
theorem createReqGroup_gets {gets : List Req} {noop : Req}
    (hgets : ∀ r ∈ gets, r.each = false ∧ r.update = false ∧ r.keyLen ≠ 0)
    (howned : ∀ r ∈ gets, hosts.owner (r.keyBytes m) ≠ 0)
    (hnoop : noop.each = true ∧ noop.update = false) :
    createReqGroup cfg hosts m (gets ++ [noop]) =
      ⟨SortedMap.pushAll (gets.foldl (fun g r => SortedMap.pushAt g (hosts.owner (r.keyBytes m)) r) ∅)
        noop, ∅, ∅⟩ := by
  unfold createReqGroup
  rw [List.foldl_append, foldl_groupReq hgets howned, List.foldl_cons, List.foldl_nil,
    groupReq_noop hnoop.1 hnoop.2]
  rfl

end Grouping

/-! ## The items of a multi-get -/

/-- The items of quiet gets have the keys and the bytes of their packets. -/
theorem quietItemsAt_map {m : ByteMem} {n o : Nat} {qs : List (Packet magicReq)}
    (hheld : Held m o n (Packet.concat qs)) (hfit : o + (Packet.concat qs).length ≤ n)
    (hkeys : ∀ q ∈ qs, q.KeyInside) :
    (quietItemsAt o qs).map (fun r => (r.keyBytes m, r.bytes m)) =
      qs.map (fun q => (q.key, q.bytes)) := by
  induction qs generalizing o with
  | nil => rfl
  | cons q qs ih =>
      rw [Packet.length_concat_cons] at hfit
      have hright : Held m (o + q.length) n (Packet.concat qs) := hheld.right
      rw [quietItemsAt, List.map_cons, List.map_cons,
        reqItem_keyBytes quietFlags hheld.left (by omega) (hkeys q List.mem_cons_self),
        reqItem_bytes q quietFlags hheld.left (by omega),
        ih hright (by omega) (fun p hp => hkeys p (List.mem_cons_of_mem _ hp))]

theorem mem_quietItemsAt {o : Nat} {qs : List (Packet magicReq)} {r : Req}
    (h : r ∈ quietItemsAt o qs) : r.each = false ∧ r.update = false ∧ r.ext = 0 := by
  induction qs generalizing o with
  | nil => simp [quietItemsAt] at h
  | cons q qs ih =>
      rcases List.mem_cons.mp h with rfl | hmem
      · exact ⟨rfl, rfl, rfl⟩
      · exact ih hmem

/-- What a host's gets and the no-op make together. -/
theorem payload_gets {m : ByteMem} {gets : List Req} {noop : Req}
    (hgets : ∀ r ∈ gets, r.ext = 0) (hnoop : noop.ext = endMark) :
    payload ((gets ++ [noop]).map (fun r => (r.ext, r.bytes m))) =
      gets.flatMap (fun r => r.bytes m) ++ noop.bytes m := by
  have hmarked : (gets.map (fun r => (r.ext, r.bytes m))).filter
      (fun it => decide (it.1 = endMark)) = [] := by
    refine List.filter_eq_nil_iff.mpr ?_
    intro it hit
    obtain ⟨r, hr, rfl⟩ := List.mem_map.mp hit
    simp [hgets r hr, endMark]
  have hplain : (gets.map (fun r => (r.ext, r.bytes m))).filter
      (fun it => decide (it.1 ≠ endMark)) = gets.map (fun r => (r.ext, r.bytes m)) := by
    refine List.filter_eq_self.mpr ?_
    intro it hit
    obtain ⟨r, hr, rfl⟩ := List.mem_map.mp hit
    simp [hgets r hr, endMark]
  simp only [payload, unmarked, lastMarked, List.map_append, List.filter_append, hmarked, hplain,
    List.map_cons, List.map_nil, List.flatMap_append]
  simp [hnoop, List.flatMap_map]

/-- The key of an item is a part of the buffer, so it is empty only without a
length. -/
theorem keyLen_ne_zero {m : ByteMem} {r : Req} (h : r.keyBytes m ≠ []) : r.keyLen ≠ 0 := by
  intro hzero
  rw [Req.keyBytes, hzero, ByteMem.slice_zero] at h
  exact h rfl

/-- The group of a host, if it has one. -/
theorem lookup_gets (hosts : HostTable) (m : ByteMem) (gets : List Req) (noop : Req) (a : Nat) :
    (SortedMap.pushAll
        (gets.foldl (fun g r => SortedMap.pushAt g (hosts.owner (r.keyBytes m)) r) ∅)
        noop).lookup a =
      if ∃ r ∈ gets, hosts.owner (r.keyBytes m) = a then
        some (gets.filter (fun r => hosts.owner (r.keyBytes m) = a) ++ [noop])
      else none := by
  have hgroup := SortedMap.lookup_groupBy (fun r : Req => hosts.owner (r.keyBytes m)) id gets a
  simp only [id, List.map_id_fun] at hgroup
  rw [SortedMap.lookup_pushAll, hgroup]
  split_ifs <;> rfl

theorem MultiGet.held (b : MultiGet) (memory : ByteMem) :
    Held (ByteMem.ofList b.bytes memory) 0 b.bytes.length b.bytes := by
  have hheld := held_write memory b.bytes b.bytes.length
  rwa [List.take_length, ByteMem.write_zero] at hheld

theorem MultiGet.isBinary (b : MultiGet) (memory : ByteMem) :
    isBinaryProtocol (ByteMem.ofList b.bytes memory) = true := by
  have hheld := b.held memory
  obtain ⟨q, qs, hquiet⟩ := List.exists_cons_of_ne_nil b.quiet_ne
  have hlen : 0 < b.bytes.length := by
    have hcount := length_le_concat (b.quiet ++ [b.noop])
    rw [List.length_append, List.length_singleton] at hcount
    unfold MultiGet.bytes
    omega
  have hbytes : b.bytes = q.bytes ++ Packet.concat (qs ++ [b.noop]) := by
    simp [MultiGet.bytes, hquiet]
  rw [hbytes] at hheld
  have hfirst := hheld.left.first_byte q (by rw [← hbytes]; exact hlen)
  rw [← hbytes] at hfirst
  simp [isBinaryProtocol, hfirst]

/-- The items of a multi-get: a get for each quiet packet, and the no-op. -/
structure BatchItems (b : MultiGet) (m : ByteMem) (gets : List Req) (noop : Req) : Prop where
  pairs : gets.map (fun r => (r.keyBytes m, r.bytes m)) = b.quiet.map (fun q => (q.key, q.bytes))
  plain : ∀ r ∈ gets, r.each = false ∧ r.update = false ∧ r.ext = 0
  noop_bytes : noop.bytes m = b.noop.bytes
  noop_each : noop.each = true
  noop_update : noop.update = false
  noop_ext : noop.ext = endMark

/-- `parse_req` on a multi-get. -/
theorem parseReq_multiGet (b : MultiGet) (hsize : b.bytes.length < 2147483648) (memory : ByteMem)
    (header : MemcachedHeader) :
    ∃ pos gets noop, parseReq true header (ByteMem.ofList b.bytes memory) b.bytes.length 0 [] =
        some (.success, pos, gets ++ [noop]) ∧
      BatchItems b (ByteMem.ofList b.bytes memory) gets noop := by
  have hheld := b.held memory
  have hnoopFlags : dispatch b.noop.opcode = .ok noopFlags := by
    rw [b.noop_opcode]
    decide
  have hparse := parseReq_batch hsize b.quiet_getkq hnoopFlags rfl hheld le_rfl
    (b.isBinary memory) header
  have hlen : b.bytes.length = (Packet.concat b.quiet).length + b.noop.length := by
    simp [MultiGet.bytes, Packet.length]
  have hsplit : Held (ByteMem.ofList b.bytes memory) 0 b.bytes.length
      (Packet.concat b.quiet ++ Packet.concat [b.noop]) := by
    rw [← Packet.concat_append]
    exact hheld
  have hright := hsplit.right
  rw [Nat.zero_add] at hright
  refine ⟨_, _, _, hparse, ?_, fun r hr => mem_quietItemsAt hr, ?_, rfl, rfl, rfl⟩
  · exact quietItemsAt_map hsplit.left (by omega) b.keys_inside
  · exact reqItem_bytes b.noop noopFlags hright.left (by omega)

namespace BatchItems

variable {hosts : HostTable} {b : MultiGet} {m : ByteMem} {gets : List Req} {noop : Req}
  (h : BatchItems b m gets noop)

include h

/-- The gets ask for the keys of the multi-get. -/
theorem exists_key_iff (P : List UInt8 → Prop) :
    (∃ r ∈ gets, P (r.keyBytes m)) ↔ ∃ q ∈ b.quiet, P q.key := by
  have hkeys : gets.map (fun r => r.keyBytes m) = b.quiet.map Packet.key := by
    have hfst := congrArg (List.map Prod.fst) h.pairs
    rw [List.map_map, List.map_map] at hfst
    exact hfst
  have hmem : (∃ k ∈ gets.map (fun r => r.keyBytes m), P k) ↔
      ∃ k ∈ b.quiet.map Packet.key, P k := by
    rw [hkeys]
  simpa using hmem

/-- Every get has a key. -/
theorem keyed {r : Req} (hr : r ∈ gets) : r.keyLen ≠ 0 := by
  refine keyLen_ne_zero (m := m) ?_
  intro hnil
  obtain ⟨q, hq, hqnil⟩ := (h.exists_key_iff (fun k => k = [])).mp ⟨r, hr, hnil⟩
  exact b.keys_ne q hq hqnil

/-- The groups of a multi-get whose keys all have an owner. -/
theorem createReqGroup_eq (cfg : ProxyConfig) (howned : ∀ q ∈ b.quiet, hosts.owner q.key ≠ 0) :
    createReqGroup cfg hosts m (gets ++ [noop]) =
      ⟨SortedMap.pushAll (gets.foldl (fun g r => SortedMap.pushAt g (hosts.owner (r.keyBytes m)) r) ∅)
        noop, ∅, ∅⟩ := by
  refine createReqGroup_gets ?_ ?_ ⟨h.noop_each, h.noop_update⟩
  · intro r hr
    obtain ⟨heach, hupdate, _⟩ := h.plain r hr
    exact ⟨heach, hupdate, h.keyed hr⟩
  · intro r hr hzero
    obtain ⟨q, hq, hqzero⟩ := (h.exists_key_iff (fun k => hosts.owner k = 0)).mp ⟨r, hr, hzero⟩
    exact howned q hq hqzero

/-- What is written for a host. -/
theorem createReq_eq (a : Nat) (buf : ByteMem) :
    (createReq m (gets.filter (fun r => hosts.owner (r.keyBytes m) = a) ++ [noop]) buf 0).1.slice 0
        (createReq m (gets.filter (fun r => hosts.owner (r.keyBytes m) = a) ++ [noop]) buf 0).2 =
      Packet.concat (b.quiet.filter (fun q => hosts.owner q.key = a)) ++ b.noop.bytes := by
  rw [createReq, slice_appendItems, payload_gets, h.noop_bytes]
  · have hbytes := congrArg (fun l : List (List UInt8 × List UInt8) =>
      (l.filter (fun x => decide (hosts.owner x.1 = a))).flatMap Prod.snd) h.pairs
    simp only [List.filter_map, List.flatMap_map] at hbytes
    exact congrArg (fun bytes => bytes ++ b.noop.bytes) hbytes
  · exact fun r hr => (h.plain r (List.mem_of_mem_filter hr)).2.2
  · exact h.noop_ext

/-- A get whose bytes are a packet for a key goes to the owner of that key. -/
theorem owner_of_get {r : Req} {key : List UInt8} (hr : r ∈ gets)
    (hget : BinaryGetOf (r.bytes m) key) : hosts.owner (r.keyBytes m) = hosts.owner key := by
  obtain ⟨p, hbytes, _, hkey⟩ := hget
  have hpair : (r.keyBytes m, r.bytes m) ∈ b.quiet.map (fun q => (q.key, q.bytes)) := by
    rw [← h.pairs]
    exact List.mem_map_of_mem hr
  obtain ⟨q, _, hq⟩ := List.mem_map.mp hpair
  obtain ⟨hkey', hbytes'⟩ := Prod.mk.inj hq
  obtain rfl : q = p := Packet.eq_of_bytes (hbytes'.trans hbytes.symm)
  rw [← hkey', hkey]

/-- The no-op is no get. -/
theorem noop_not_get {key : List UInt8} : ¬ BinaryGetOf (noop.bytes m) key := by
  intro hget
  obtain ⟨p, hbytes, hop, _⟩ := hget
  have hp : p = b.noop := Packet.eq_of_bytes (hbytes.trans h.noop_bytes)
  rw [hp, b.noop_opcode] at hop
  exact absurd hop (by decide)

/-- There is a get for every quiet packet. -/
theorem exists_get {q : Packet magicReq} (hq : q ∈ b.quiet) :
    ∃ r ∈ gets, r.keyBytes m = q.key ∧ r.bytes m = q.bytes := by
  have hpair : (q.key, q.bytes) ∈ gets.map (fun r => (r.keyBytes m, r.bytes m)) := by
    rw [h.pairs]
    exact List.mem_map_of_mem hq
  obtain ⟨r, hr, hrq⟩ := List.mem_map.mp hpair
  obtain ⟨hkey, hbytes⟩ := Prod.mk.inj hrq
  exact ⟨r, hr, hkey, hbytes⟩

/-- **The groups of a multi-get** whose keys all have an owner. -/
theorem fansOut (cfg : ProxyConfig) (howned : ∀ q ∈ b.quiet, hosts.owner q.key ≠ 0) :
    FansOut hosts b m (createReqGroup cfg hosts m (gets ++ [noop])) := by
  rw [h.createReqGroup_eq cfg howned]
  have hlookup := lookup_gets hosts m gets noop
  refine ⟨?_, ?_, ?_, rfl, rfl⟩
  · intro a
    simp only [hlookup, ← h.exists_key_iff (fun k => hosts.owner k = a)]
    split_ifs with hsome <;> simp [hsome]
  · intro a reqs hreqs buf
    simp only [hlookup] at hreqs
    split_ifs at hreqs with hsome
    obtain rfl := Option.some.inj hreqs
    exact h.createReq_eq a buf
  · intro q hq a
    simp only [Asks, hlookup]
    constructor
    · intro hasks
      obtain ⟨reqs, hreqs, r, hr, hget⟩ := hasks
      split_ifs at hreqs with hsome
      obtain rfl := Option.some.inj hreqs
      rcases List.mem_append.mp hr with hmem | hlast
      · have howner := of_decide_eq_true (List.mem_filter.mp hmem).2
        rw [← howner]
        exact h.owner_of_get (List.mem_of_mem_filter hmem) hget
      · obtain rfl := List.mem_singleton.mp hlast
        exact absurd hget h.noop_not_get
    · intro ha
      obtain ⟨r, hr, hkey, hbytes⟩ := h.exists_get hq
      have howner : hosts.owner (r.keyBytes m) = a := by rw [hkey, ha]
      rw [if_pos ⟨r, hr, howner⟩]
      refine ⟨_, rfl, r, ?_, q, hbytes.symm, b.quiet_getkq q hq, rfl⟩
      exact List.mem_append_left _ (List.mem_filter.mpr ⟨hr, decide_eq_true howner⟩)

end BatchItems

/-- A multi-get whose keys all have an owner. -/
theorem createReqGroup_multiGet (cfg : ProxyConfig) {hosts : HostTable} (b : MultiGet)
    (hsize : b.bytes.length < 2147483648) (howned : ∀ q ∈ b.quiet, hosts.owner q.key ≠ 0)
    (memory : ByteMem) (header : MemcachedHeader) :
    ∃ pos items, parseReq true header (ByteMem.ofList b.bytes memory) b.bytes.length 0 [] =
        some (.success, pos, items) ∧
      FansOut hosts b (ByteMem.ofList b.bytes memory)
        (createReqGroup cfg hosts (ByteMem.ofList b.bytes memory) items) := by
  obtain ⟨pos, gets, noop, hparse, hitems⟩ := parseReq_multiGet b hsize memory header
  exact ⟨pos, _, hparse, hitems.fansOut cfg howned⟩

/-- **Fan-out of a multi-get.**  Parsed, grouped and written out, the packets of
a multi-get reach the owners of their keys and nobody else. -/
theorem fan_out (cfg : ProxyConfig) {hosts : HostTable} (b : MultiGet)
    (hsize : b.bytes.length < 2147483648) (hring : hosts.readRing.hash.entries ≠ [])
    (halias : ∀ e ∈ hosts.readRing.hash, 1 ≤ e.2.2) (memory : ByteMem) (header : MemcachedHeader) :
    ∃ pos items, parseReq true header (ByteMem.ofList b.bytes memory) b.bytes.length 0 [] =
        some (.success, pos, items) ∧
      FansOut hosts b (ByteMem.ofList b.bytes memory)
        (createReqGroup cfg hosts (ByteMem.ofList b.bytes memory) items) :=
  createReqGroup_multiGet cfg b hsize (fun q _ => owner_ne_zero hring halias q.key) memory header

/-- Gets of `"a"` and `"b"`. -/
def twoGets : MultiGet where
  quiet := [quietPacket 97, quietPacket 98]
  noop := noopRequest
  quiet_ne := by simp
  quiet_getkq := by decide
  keys_inside := by decide
  keys_ne := by decide
  noop_opcode := rfl

/-- Two hosts, which read and write. -/
def twoHosts : HostTable :=
  ((HostTable.start ⟨[⟨"127.0.0.1".toList, 11211, 1, 1⟩, ⟨"127.0.0.2".toList, 11211, 2, 1⟩],
    [], []⟩).map Prod.fst).getD .new

theorem fan_out_two_gets : ∃ pos items,
    parseReq true ⟨0, 0, 0, 0⟩ (ByteMem.ofList twoGets.bytes (fun _ => 0)) twoGets.bytes.length
        0 [] = some (.success, pos, items) ∧
      FansOut twoHosts twoGets (ByteMem.ofList twoGets.bytes (fun _ => 0))
        (createReqGroup .default twoHosts (ByteMem.ofList twoGets.bytes (fun _ => 0)) items) := by
  have halias : ∀ e ∈ twoHosts.readRing.hash.entries, 1 ≤ e.2.2 := by decide +kernel
  exact fan_out .default twoGets (by decide) (by decide +kernel) halias _ _

end KvProxy
