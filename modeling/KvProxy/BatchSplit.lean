import KvProxy.BatchParse
import KvProxy.Routing
import Mathlib.Data.List.Flatten
import Mathlib.Data.List.Forall2

/-!
# How a batch is split among its hosts

A batch has quiet gets and one request behind them, which may be a no-op.  A request
with a key belongs to one host, for a read that of the key among the read hosts, if
there are any, and the no-op to every host that has another request of the batch.

* `Batch.asks` — the requests of a host;
* `Batch.lookup_group` — `createReqGroup` puts the items of just these in its group;
* `Batch.payload_group` — `create_req` writes just their bytes;
* `Batch.parts_complete_iff` — when what a host is sent is a complete batch again.
-/

namespace KvProxy

open MachineInt

/-- The key of a request, if it is for one host. -/
def Packet.requestKey (p : Packet magicReq) : Option (List UInt8) :=
  if p.opcode = cmdNoop then none else some p.key

/-- The ring a request is looked up in: the default ring for an update, and the ring
that answers reads for any other request. -/
def HostTable.ringFor (hosts : HostTable) (p : Packet magicReq) : ConsistentHash :=
  if p.opcode ∈ updateOpcodes then hosts.rings .hosts else hosts.readRing

/-- The host a request with a key is routed to. -/
def HostTable.routed (hosts : HostTable) (p : Packet magicReq) : Nat :=
  ((hosts.ringFor p).find p.key).2

/-- An item is looked up in the ring of its request. -/
theorem ItemOf.groupAlias {m : ByteMem} {o : Nat} {p : Packet magicReq} {r : Req}
    (h : ItemOf m o p r) (hosts : HostTable) : hosts.groupAlias m r = hosts.routed p := by
  unfold HostTable.groupAlias HostTable.routed HostTable.ringFor HostTable.readRing
  rw [h.key]
  by_cases hupdate : p.opcode ∈ updateOpcodes
  · simp [h.update, hupdate]
  · by_cases hsize : (hosts.rings .hostsRead).getSize > 0
    · simp [h.update, hupdate, hsize]
    · simp [h.update, hupdate, hsize]

namespace Batch

variable (b : Batch) (hosts : HostTable)

/-- The requests of a batch that are for one host. -/
def keyed : List (Packet magicReq) := b.packets.filter (fun p => p.opcode ≠ cmdNoop)

/-- What a host is asked, if it is asked anything. -/
def asks (a : Nat) : List (Packet magicReq) :=
  b.packets.filter (fun p => p.opcode = cmdNoop ∨ hosts.routed p = a)

/-- A request of the batch is routed to the host. -/
def Talked (a : Nat) : Prop := ∃ p ∈ b.keyed, hosts.routed p = a

/-- The items of the packets of the batch. -/
def items : List Req :=
  quietItemsAt 0 b.quiet ++
    [reqItem true (Packet.concat b.quiet).length b.last.header (closingFlags b.last.opcode)]

/-- The item of a packet, wherever it lies. -/
def Decodes (m : ByteMem) (p : Packet magicReq) (r : Req) : Prop := ∃ o, ItemOf m o p r

variable {b hosts}

/-- The no-op of a batch comes behind its requests with a key. -/
theorem asks_eq (a : Nat) :
    b.asks hosts a = b.keyed.filter (fun p => hosts.routed p = a) ++
      b.packets.filter (fun p => p.opcode = cmdNoop) := by
  have hquiet : ∀ q ∈ b.quiet, ¬ q.opcode = cmdNoop := by
    intro q hq hnoop
    rw [b.quiet_getkq q hq] at hnoop
    exact absurd hnoop (by decide)
  have hnone : b.quiet.filter (fun p => p.opcode = cmdNoop) = [] := by
    refine List.filter_eq_nil_iff.mpr fun q hq => ?_
    simpa using hquiet q hq
  have hall : b.quiet.filter (fun p => p.opcode ≠ cmdNoop) = b.quiet := by
    refine List.filter_eq_self.mpr fun q hq => ?_
    simpa using hquiet q hq
  have hown : b.quiet.filter (fun p => p.opcode = cmdNoop ∨ hosts.routed p = a) =
      b.quiet.filter (fun p => hosts.routed p = a) := by
    refine List.filter_congr fun q hq => decide_eq_decide.mpr ?_
    exact ⟨fun h => h.resolve_left (hquiet q hq), Or.inr⟩
  simp only [asks, keyed, packets, List.filter_append, hnone, hall, hown, List.nil_append]
  by_cases hnoop : b.last.opcode = cmdNoop
  · simp [hnoop]
  · simp [hnoop, List.filter_cons]

/-- Every packet of a batch has its item. -/
theorem decodes (b : Batch) (memory : ByteMem) :
    List.Forall₂ (Decodes (ByteMem.ofList b.bytes memory)) b.packets b.items := by
  have hlen : b.packets.length = b.items.length := by
    simp [packets, items, length_quietItemsAt]
  rw [List.forall₂_iff_get]
  refine ⟨hlen, fun i hi hi' => ?_⟩
  have hget : b.packets[i]? = some (b.packets.get ⟨i, hi⟩) := by simp [hi]
  obtain ⟨r, hr, hitem⟩ := b.itemOf [] memory hget
  rw [List.append_nil] at hitem
  have hget' : b.items[i]? = some (b.items.get ⟨i, hi'⟩) := by simp [hi']
  obtain rfl : b.items.get ⟨i, hi'⟩ = r := Option.some.inj (hget'.symm.trans hr)
  exact ⟨_, hitem⟩

/-- `parse_req` on a batch. -/
theorem parseReq_eq (b : Batch) (hsize : b.bytes.length < 2147483648) (memory : ByteMem)
    (header : MemcachedHeader) :
    parseReq true header (ByteMem.ofList b.bytes memory) b.bytes.length 0 [] =
      some (.success, (b.bytes.length : Int), b.items) := by
  have hheld := held_write memory b.bytes b.bytes.length
  rw [List.take_length, ByteMem.write_zero] at hheld
  have hbin := b.isBinary [] memory
  rw [List.append_nil] at hbin
  exact parseReq_batch hsize b.quiet_getkq (dispatch_closing b.last_closing) rfl hheld le_rfl
    hbin header

/-! ## The groups -/

section Groups

variable {cfg : ProxyConfig} {m : ByteMem} {p : Packet magicReq} {r : Req}

theorem Decodes.keyed_iff (h : Decodes m p r) (hkey : p.opcode ≠ cmdNoop → p.key ≠ []) :
    r.Keyed ↔ p.opcode ≠ cmdNoop := by
  obtain ⟨o, hitem⟩ := h
  unfold Req.Keyed
  rw [← Bool.not_eq_true, hitem.each]
  constructor
  · exact And.left
  · intro hne
    refine ⟨hne, ?_⟩
    have hlen : r.keyLen ≠ 0 := keyLen_ne_zero (m := m) (by rw [hitem.key]; exact hkey hne)
    omega

variable (b) in
/-- The requests with a key have one that is not empty, and an owner. -/
structure Owned (hosts : HostTable) : Prop where
  keys_ne : ∀ p ∈ b.keyed, p.key ≠ []
  owner_ne : ∀ p ∈ b.keyed, hosts.routed p ≠ 0

theorem mem_keyed : p ∈ b.keyed ↔ p ∈ b.packets ∧ p.opcode ≠ cmdNoop := by
  simp [keyed]

/-- The items that go to a host and those that go to every host are those of the
requests that do. -/
theorem decodes_parts (h : b.Owned hosts) (memory : ByteMem) (a : Nat) :
    List.Forall₂ (Decodes (ByteMem.ofList b.bytes memory))
        (b.keyed.filter (fun p => hosts.routed p = a))
        (b.items.filter (fun r => r.Keyed ∧
          hosts.groupAlias (ByteMem.ofList b.bytes memory) r ≠ 0 ∧
          hosts.groupAlias (ByteMem.ofList b.bytes memory) r = a)) ∧
      List.Forall₂ (Decodes (ByteMem.ofList b.bytes memory))
        (b.packets.filter (fun p => p.opcode = cmdNoop)) (b.items.filter (fun r => r.each)) := by
  -- each item is kept just as its packet is
  have hall : List.Forall₂ (fun p r => p ∈ b.packets ∧
      Decodes (ByteMem.ofList b.bytes memory) p r) b.packets b.items := by
    have hmem : ∀ p ∈ b.packets, p ∈ b.packets := fun _ hp => hp
    exact (List.forall₂_and_left b.packets b.items).mpr ⟨hmem, b.decodes memory⟩
  constructor
  · have hkept := List.rel_filter (p := fun p => decide (p.opcode ≠ cmdNoop ∧ hosts.routed p = a))
      (q := fun r => decide (r.Keyed ∧ hosts.groupAlias (ByteMem.ofList b.bytes memory) r ≠ 0 ∧
        hosts.groupAlias (ByteMem.ofList b.bytes memory) r = a)) ?_ hall
    · have hfilter : b.keyed.filter (fun p => hosts.routed p = a) =
          b.packets.filter (fun p => p.opcode ≠ cmdNoop ∧ hosts.routed p = a) := by
        rw [keyed, List.filter_filter]
        refine List.filter_congr fun p _ => ?_
        rw [← Bool.decide_and, decide_eq_decide, and_comm]
      rw [hfilter]
      exact hkept.imp fun _ _ h => h.2
    · rintro p r ⟨hp, hitem⟩
      have hkeyed := hitem.keyed_iff (fun hne => h.keys_ne p (mem_keyed.mpr ⟨hp, hne⟩))
      obtain ⟨o, hof⟩ := hitem
      simp only [decide_eq_true_eq, hkeyed, hof.groupAlias hosts]
      constructor
      · rintro ⟨hne, rfl⟩
        exact ⟨hne, h.owner_ne p (mem_keyed.mpr ⟨hp, hne⟩), rfl⟩
      · rintro ⟨hne, _, hown⟩
        exact ⟨hne, hown⟩
  · refine (List.rel_filter (p := fun p => decide (p.opcode = cmdNoop)) (q := fun r => r.each) ?_
      hall).imp fun _ _ h => h.2
    rintro p r ⟨_, o, hitem⟩
    simp only [decide_eq_true_eq]
    exact hitem.each.symm

/-- What the writers make of the items of requests. -/
theorem payload_decoded {ps : List (Packet magicReq)} {rs : List Req}
    (h : List.Forall₂ (Decodes m) ps rs) :
    payload (rs.map (fun r => (r.ext, r.bytes m))) =
      Packet.concat (ps.filter (fun p => p.opcode ≠ cmdNoop)) ++
        ((ps.filter (fun p => p.opcode = cmdNoop)).getLast?.map Packet.bytes).getD [] := by
  have hparts : unmarked (rs.map (fun r => (r.ext, r.bytes m))) =
        Packet.concat (ps.filter (fun p => p.opcode ≠ cmdNoop)) ∧
      ((rs.map (fun r => (r.ext, r.bytes m))).filter (fun it => it.1 = endMark)).map Prod.snd =
        (ps.filter (fun p => p.opcode = cmdNoop)).map Packet.bytes := by
    induction h with
    | nil => exact ⟨rfl, rfl⟩
    | @cons p r ps rs hitem _ ih =>
        obtain ⟨o, hof⟩ := hitem
        simp only [unmarked] at ih ⊢
        by_cases hnoop : p.opcode = cmdNoop
        · simpa [hnoop, hof.mark.mpr hnoop, hof.bytes] using ih
        · have hmark : r.ext ≠ endMark := fun hext => hnoop (hof.mark.mp hext)
          simpa [hnoop, hmark, hof.bytes] using ih
  rw [payload, hparts.1, lastMarked, ← List.getLast?_map, ← List.getLast?_map, hparts.2]

/-- The no-op, if there is one, is the last packet. -/
theorem noops_eq (b : Batch) :
    b.packets.filter (fun p => p.opcode = cmdNoop) =
      if b.last.opcode = cmdNoop then [b.last] else [] := by
  have hnone : b.quiet.filter (fun p => p.opcode = cmdNoop) = [] := by
    refine List.filter_eq_nil_iff.mpr fun q hq => ?_
    rw [b.quiet_getkq q hq]
    decide
  simp only [packets, List.filter_append, hnone, List.nil_append]
  by_cases hnoop : b.last.opcode = cmdNoop
  · simp [hnoop]
  · simp [hnoop]

/-- The group of a host has the items of what it is asked. -/
theorem lookup_group (h : b.Owned hosts) (cfg : ProxyConfig) (memory : ByteMem) (a : Nat) :
    (b.Talked hosts a → ∃ reqs,
      (createReqGroup cfg hosts (ByteMem.ofList b.bytes memory) b.items).group.lookup a =
        some reqs ∧ List.Forall₂ (Decodes (ByteMem.ofList b.bytes memory)) (b.asks hosts a) reqs) ∧
      (¬b.Talked hosts a →
        (createReqGroup cfg hosts (ByteMem.ofList b.bytes memory) b.items).group.lookup a =
          none) := by
  obtain ⟨hown, heach⟩ := decodes_parts h memory a
  rw [(lookup_createReqGroup cfg hosts _ b.items a).1]
  constructor
  · rintro ⟨p, hp, hpa⟩
    have hne : b.items.filter (fun r => r.Keyed ∧
        hosts.groupAlias (ByteMem.ofList b.bytes memory) r ≠ 0 ∧
        hosts.groupAlias (ByteMem.ofList b.bytes memory) r = a) ≠ [] := by
      intro hnil
      rw [hnil, List.forall₂_nil_right_iff] at hown
      exact absurd (List.mem_filter.mpr ⟨hp, decide_eq_true hpa⟩) (by rw [hown]; simp)
    refine ⟨_, by rw [hostEntry, if_neg hne], ?_⟩
    rw [asks_eq]
    exact List.rel_append hown heach
  · intro hnot
    have hnil : b.keyed.filter (fun p => hosts.routed p = a) = [] := by
      refine List.filter_eq_nil_iff.mpr fun p hp hpa => hnot ⟨p, hp, of_decide_eq_true hpa⟩
    rw [hnil, List.forall₂_nil_left_iff] at hown
    rw [hostEntry, if_pos hown]

/-- Without backup hosts nothing goes there. -/
theorem backups_empty (hbackup : (hosts.rings .hostsBackup).hash.entries = [])
    (cfg : ProxyConfig) (m : ByteMem) :
    (createReqGroup cfg hosts m b.items).backup = ∅ ∧
      (createReqGroup cfg hosts m b.items).sync = ∅ := by
  have hzero : ∀ r, hosts.backupAlias m r = 0 := by
    intro r
    unfold HostTable.backupAlias
    rw [if_neg]
    rw [getSize_pos_iff]
    simpa using hbackup
  refine ⟨SortedMap.ext_lookup fun a => ?_, SortedMap.ext_lookup fun a => ?_⟩
  · rw [(lookup_createReqGroup cfg hosts m b.items a).2.1]
    simp [hostEntry, hzero]
  · rw [(lookup_createReqGroup cfg hosts m b.items a).2.2]
    simp [hostEntry, hzero]

/-- **What is written for a host** is what it is asked, and nothing else. -/
theorem payload_group {reqs : List Req} {a : Nat}
    (h : List.Forall₂ (Decodes m) (b.asks hosts a) reqs) :
    payload (reqs.map (fun r => (r.ext, r.bytes m))) = Packet.concat (b.asks hosts a) := by
  have hkeyed : ∀ p ∈ b.keyed.filter (fun p => hosts.routed p = a), p.opcode ≠ cmdNoop :=
    fun p hp => (mem_keyed.mp (List.mem_of_mem_filter hp)).2
  have hself : (b.keyed.filter (fun p => hosts.routed p = a)).filter
      (fun p => p.opcode ≠ cmdNoop) = b.keyed.filter (fun p => hosts.routed p = a) :=
    List.filter_eq_self.mpr (fun p hp => decide_eq_true (hkeyed p hp))
  have hnone : (b.keyed.filter (fun p => hosts.routed p = a)).filter
      (fun p => p.opcode = cmdNoop) = [] :=
    List.filter_eq_nil_iff.mpr (fun p hp => by simpa using hkeyed p hp)
  rw [payload_decoded h, asks_eq, List.filter_append, List.filter_append, hself, hnone, noops_eq]
  by_cases hnoop : b.last.opcode = cmdNoop
  · simp [hnoop]
  · simp [hnoop]

end Groups

/-! ## The part of a host as a batch of its own -/

variable (b hosts) in
/-- The request that closes the batch is for this host. -/
def Closes (a : Nat) : Prop := b.last.opcode = cmdNoop ∨ hosts.routed b.last = a

instance (a : Nat) : Decidable (b.Closes hosts a) := inferInstanceAs (Decidable (_ ∨ _))

/-- The quiet gets of a host. -/
def quietPart (b : Batch) (hosts : HostTable) (a : Nat) : List (Packet magicReq) :=
  b.quiet.filter (fun q => hosts.routed q = a)

theorem asks_eq_quietPart (a : Nat) :
    b.asks hosts a = b.quietPart hosts a ++ if b.Closes hosts a then [b.last] else [] := by
  have hown : b.quiet.filter (fun p => p.opcode = cmdNoop ∨ hosts.routed p = a) =
      b.quietPart hosts a := by
    refine List.filter_congr fun q hq => decide_eq_decide.mpr ?_
    refine ⟨fun h => h.resolve_left ?_, Or.inr⟩
    rw [b.quiet_getkq q hq]
    decide
  have hlast : [b.last].filter (fun p => p.opcode = cmdNoop ∨ hosts.routed p = a) =
      if b.Closes hosts a then [b.last] else [] := by
    by_cases hcloses : b.last.opcode = cmdNoop ∨ hosts.routed b.last = a
    · simp [Closes, hcloses]
    · simp [Closes, hcloses]
  rw [asks, packets, List.filter_append, hown, hlast]

/-- The part of a host that the batch closes. -/
def part (b : Batch) (hosts : HostTable) (a : Nat) : Batch where
  quiet := b.quietPart hosts a
  last := b.last
  quiet_getkq := fun q hq => b.quiet_getkq q (List.mem_of_mem_filter hq)
  last_closing := b.last_closing
  keys_inside := by
    intro p hp
    refine b.keys_inside p ?_
    rcases List.mem_append.mp hp with hq | hl
    · exact List.mem_append_left _ (List.mem_of_mem_filter hq)
    · exact List.mem_append_right _ hl

theorem part_packets {a : Nat} (h : b.Closes hosts a) :
    (b.part hosts a).packets = b.asks hosts a := by
  rw [asks_eq_quietPart, if_pos h]
  rfl

/-- Quiet gets alone are waited for. -/
theorem parseReq_quiet_again {qs : List (Packet magicReq)} (hne : qs ≠ [])
    (hquiet : ∀ q ∈ qs, q.opcode = cmdGetkq) (hsize : (Packet.concat qs).length < 2147483648)
    (memory : ByteMem) (header : MemcachedHeader) :
    ∃ pos items, parseReq true header (ByteMem.ofList (Packet.concat qs) memory)
      (Packet.concat qs).length 0 [] = some (.again, pos, items) := by
  have hheld := held_write memory (Packet.concat qs) (Packet.concat qs).length
  rw [List.take_length, ByteMem.write_zero] at hheld
  obtain ⟨q, rest, rfl⟩ := List.exists_cons_of_ne_nil hne
  have hlen : 0 < (Packet.concat (q :: rest)).length := by
    have hcount := length_le_concat (q :: rest)
    rw [List.length_cons] at hcount
    omega
  have hbin : isBinaryProtocol (ByteMem.ofList (Packet.concat (q :: rest)) memory) = true := by
    have hfirst := hheld.left.first_byte q hlen
    rw [isBinaryProtocol, hfirst]
    rfl
  obtain ⟨fuel, header', hparse⟩ := parseReq_quiet hsize hquiet hheld le_rfl hbin header
  rw [hparse, Loop.run_leave (fuel + 1) (parseReqBody_behind le_rfl hsize rfl)]
  exact ⟨_, _, rfl⟩

/-- Read again by `parse_req`, what is written for a group is a complete batch of the
requests of its host if the request that closes the batch is for that host, and is
waited for if it is not. -/
def PartsComplete (b : Batch) (hosts : HostTable) (m : ByteMem) (g : ReqGroups) : Prop :=
  ∀ a reqs, g.group.lookup a = some reqs →
    ∀ buf sent, sent = (createReq m reqs buf 0).1.slice 0 (createReq m reqs buf 0).2 →
      ∀ memory header, ∃ code pos items,
        parseReq true header (ByteMem.ofList sent memory) sent.length 0 [] =
          some (code, pos, items) ∧
        (code = .success ↔ b.Closes hosts a) ∧ (code = .again ↔ ¬b.Closes hosts a) ∧
        (b.Closes hosts a →
          List.Forall₂ (Decodes (ByteMem.ofList sent memory)) (b.asks hosts a) items)

/-- **What a host is sent, read as a batch.**  Parsed, grouped and written out, the part
of a host can be served by another proxy in its place exactly if the request that closes
the batch is for that host. -/
theorem parts_complete_iff (b : Batch) (cfg : ProxyConfig) {hosts : HostTable}
    (howned : b.Owned hosts) (hsize : b.bytes.length < 2147483648) (memory : ByteMem)
    (header : MemcachedHeader) :
    ∃ pos items, parseReq true header (ByteMem.ofList b.bytes memory) b.bytes.length 0 [] =
        some (.success, pos, items) ∧
      b.PartsComplete hosts (ByteMem.ofList b.bytes memory)
        (createReqGroup cfg hosts (ByteMem.ofList b.bytes memory) items) := by
  refine ⟨_, b.items, b.parseReq_eq hsize memory header, fun a reqs hreqs buf sent hsent memory'
    header' => ?_⟩
  obtain ⟨htalked, hnot⟩ := lookup_group howned cfg memory a
  have hyes : b.Talked hosts a := by
    by_contra hno
    rw [hnot hno] at hreqs
    cases hreqs
  obtain ⟨reqs', hreqs', hdecodes⟩ := htalked hyes
  obtain rfl := Option.some.inj (hreqs'.symm.trans hreqs)
  have hbytes : sent = Packet.concat (b.asks hosts a) := by
    rw [hsent, createReq, slice_appendItems, payload_group hdecodes]
  have hle : (Packet.concat (b.asks hosts a)).length < 2147483648 := by
    refine lt_of_le_of_lt ?_ hsize
    exact (List.Sublist.flatMap List.filter_sublist _).length_le
  subst hbytes
  by_cases hcloses : b.Closes hosts a
  · have hpart : (b.part hosts a).bytes = Packet.concat (b.asks hosts a) := by
      rw [Batch.bytes, part_packets hcloses]
    have hparse := (b.part hosts a).parseReq_eq (by rwa [hpart]) memory' header'
    have hitems := (b.part hosts a).decodes memory'
    rw [hpart] at hparse hitems
    rw [part_packets hcloses] at hitems
    exact ⟨_, _, _, hparse, by simp [hcloses], by simp [hcloses], fun _ => hitems⟩
  · -- the host has quiet gets only
    have hasks : b.asks hosts a = b.quietPart hosts a := by
      rw [asks_eq_quietPart, if_neg hcloses, List.append_nil]
    have hne : b.quietPart hosts a ≠ [] := by
      obtain ⟨p, hp, hpa⟩ := hyes
      rw [← hasks]
      exact List.ne_nil_of_mem
        (List.mem_filter.mpr ⟨(mem_keyed.mp hp).1, decide_eq_true (.inr hpa)⟩)
    rw [hasks] at hle ⊢
    obtain ⟨pos', items', hparse⟩ := parseReq_quiet_again hne
      (fun q hq => b.quiet_getkq q (List.mem_of_mem_filter hq)) hle memory' header'
    exact ⟨_, _, _, hparse, by simp [hcloses], by simp [hcloses], fun h => absurd h hcloses⟩

/-- Two hosts that answer reads as well, and a backup host. -/
def readAndBackup : HostTable :=
  ((HostTable.start ⟨[⟨"127.0.0.1".toList, 11211, 1, 1⟩, ⟨"127.0.0.2".toList, 11211, 2, 1⟩],
    [⟨"127.0.0.3".toList, 11211, 1, 1⟩],
    [⟨"127.0.0.1".toList, 11211, 1, 1⟩, ⟨"127.0.0.2".toList, 11211, 2, 1⟩]⟩).map
      Prod.fst).getD .new

theorem parts_complete_get_and_store : ∃ pos items,
    parseReq true ⟨0, 0, 0, 0⟩ (ByteMem.ofList getAndStore.bytes (fun _ => 0))
        getAndStore.bytes.length 0 [] = some (.success, pos, items) ∧
      getAndStore.PartsComplete readAndBackup (ByteMem.ofList getAndStore.bytes (fun _ => 0))
        (createReqGroup .default readAndBackup (ByteMem.ofList getAndStore.bytes (fun _ => 0))
          items) :=
  parts_complete_iff getAndStore .default ⟨by decide +kernel, by decide +kernel⟩ (by decide) _ _

end Batch

end KvProxy
