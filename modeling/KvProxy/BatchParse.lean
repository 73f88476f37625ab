import KvProxy.Framing

/-!
# Batches, complete and cut off

A batch is any number of quiet gets and one other supported request.  On a
complete batch `parse_req` decodes every packet of it, whatever lies behind.
On a part of a batch it should ask for more; but the length of a request is
compared with the whole buffer and not with what is left of it, so that the
closing request of a batch with quiet gets is taken before all of it is there.

* `batch_parsed` — a complete batch parses to its packets;
* `run_cutQuiet` — what the pass at the request does in which a part ends;
* `cut_batch_waits` — when a part of a batch is waited for.
-/

namespace KvProxy

open MachineInt

/-- The opcodes of updates. -/
def updateOpcodes : List Int :=
  [cmdSet, cmdAdd, cmdReplace, cmdDelete, cmdIncrement, cmdDecrement, cmdAppend, cmdPrepend]

/-- The opcodes of the requests that close a batch: all supported ones but quiet
gets and `quit`. -/
def closingOpcodes : List Int := cmdGet :: cmdNoop :: updateOpcodes

/-- What a closing opcode makes of its item. -/
def closingFlags (opcode : Int) : ReqFlags where
  update := opcode ∈ updateOpcodes
  each := opcode = cmdNoop
  ext := if opcode = cmdNoop then endMark else 0
  isAgin := false

theorem dispatch_closing {opcode : Int} (h : opcode ∈ closingOpcodes) :
    dispatch opcode = .ok (closingFlags opcode) := by
  have hall : ∀ c ∈ closingOpcodes, dispatch c = .ok (closingFlags c) := by decide
  exact hall opcode h

/-- A complete batch of packets whose keys lie inside them. -/
structure Batch where
  quiet : List (Packet magicReq)
  last : Packet magicReq
  quiet_getkq : ∀ q ∈ quiet, q.opcode = cmdGetkq
  last_closing : last.opcode ∈ closingOpcodes
  keys_inside : ∀ p ∈ quiet ++ [last], p.KeyInside

/-- The packets of a batch. -/
def Batch.packets (b : Batch) : List (Packet magicReq) := b.quiet ++ [b.last]

/-- The bytes of a batch. -/
def Batch.bytes (b : Batch) : List UInt8 := Packet.concat b.packets

/-- The item is that of the packet at offset `o`. -/
structure ItemOf (m : ByteMem) (o : Nat) (p : Packet magicReq) (r : Req) : Prop where
  content : r.content = o
  bytes : r.bytes m = p.bytes
  key : r.keyBytes m = p.key
  update : r.update = true ↔ p.opcode ∈ updateOpcodes
  each : r.each = true ↔ p.opcode = cmdNoop
  mark : r.ext = endMark ↔ p.opcode = cmdNoop

/-! ## A complete batch -/

/-- A quiet get is no update and no no-op. -/
theorem quietFlags_opcode : (quietFlags.update = true ↔ cmdGetkq ∈ updateOpcodes) ∧
    (quietFlags.each = true ↔ cmdGetkq = cmdNoop) ∧
    (quietFlags.ext = endMark ↔ cmdGetkq = cmdNoop) := by
  decide

/-- A quiet get decodes to its item. -/
theorem itemOf_quiet {m : ByteMem} {o n : Nat} {p : Packet magicReq} (hop : p.opcode = cmdGetkq)
    (hheld : Held m o n p.bytes) (hfit : o + p.length ≤ n) (hkey : p.KeyInside) :
    ItemOf m o p (reqItem true o p.header quietFlags) where
  content := rfl
  bytes := reqItem_bytes p quietFlags hheld hfit
  key := reqItem_keyBytes quietFlags hheld hfit hkey
  update := by
    rw [hop]
    exact quietFlags_opcode.1
  each := by
    rw [hop]
    exact quietFlags_opcode.2.1
  mark := by
    rw [hop]
    exact quietFlags_opcode.2.2

/-- The items of quiet gets, by their places. -/
theorem itemOf_quietItemsAt {m : ByteMem} {n o : Nat} {qs : List (Packet magicReq)}
    (hquiet : ∀ q ∈ qs, q.opcode = cmdGetkq) (hkeys : ∀ q ∈ qs, q.KeyInside)
    (hheld : Held m o n (Packet.concat qs)) (hfit : o + (Packet.concat qs).length ≤ n)
    {i : Nat} {p : Packet magicReq} (hp : qs[i]? = some p) :
    ∃ r, (quietItemsAt o qs)[i]? = some r ∧
      ItemOf m (o + (Packet.concat (qs.take i)).length) p r := by
  induction qs generalizing o i with
  | nil => simp at hp
  | cons q qs ih =>
      rw [Packet.length_concat_cons] at hfit
      cases i with
      | zero =>
          obtain rfl : q = p := by simpa using hp
          refine ⟨_, rfl, ?_⟩
          rw [List.take_zero, Packet.concat_nil, List.length_nil, Nat.add_zero]
          exact itemOf_quiet (hquiet q List.mem_cons_self) hheld.left (by omega)
            (hkeys q List.mem_cons_self)
      | succ i =>
          have hright : Held m (o + q.length) n (Packet.concat qs) := hheld.right
          obtain ⟨r, hr, hitem⟩ := ih (fun x hx => hquiet x (List.mem_cons_of_mem _ hx))
            (fun x hx => hkeys x (List.mem_cons_of_mem _ hx)) hright (by omega) hp
          refine ⟨r, hr, ?_⟩
          rw [List.take_succ_cons, Packet.length_concat_cons, ← Nat.add_assoc]
          exact hitem

theorem length_quietItemsAt (o : Nat) (qs : List (Packet magicReq)) :
    (quietItemsAt o qs).length = qs.length := by
  induction qs generalizing o with
  | nil => rfl
  | cons q qs ih => rw [quietItemsAt, List.length_cons, List.length_cons, ih]

/-- A closing request decodes to its item. -/
theorem itemOf_closing {m : ByteMem} {o n : Nat} {p : Packet magicReq}
    (hheld : Held m o n p.bytes) (hfit : o + p.length ≤ n) (hkey : p.KeyInside) :
    ItemOf m o p (reqItem true o p.header (closingFlags p.opcode)) where
  content := rfl
  bytes := reqItem_bytes p _ hheld hfit
  key := reqItem_keyBytes _ hheld hfit hkey
  update := by simp [reqItem, closingFlags]
  each := by simp [reqItem, closingFlags]
  mark := by
    by_cases hop : p.opcode = cmdNoop
    · simp [reqItem, closingFlags, hop]
    · simp [reqItem, closingFlags, hop, endMark]

section Complete

variable (b : Batch) (trailing : List UInt8) (memory : ByteMem)

theorem Batch.length_bytes : b.bytes.length = (Packet.concat b.quiet).length + b.last.length := by
  simp [Batch.bytes, Batch.packets, Packet.length]

/-- The buffer holds the quiet gets and behind them the closing request. -/
theorem Batch.held :
    Held (ByteMem.ofList (b.bytes ++ trailing) memory) 0 (b.bytes ++ trailing).length
        (Packet.concat b.quiet) ∧
      Held (ByteMem.ofList (b.bytes ++ trailing) memory) (Packet.concat b.quiet).length
        (b.bytes ++ trailing).length b.last.bytes := by
  have hwhole := held_write memory (b.bytes ++ trailing) (b.bytes ++ trailing).length
  rw [List.take_length, ByteMem.write_zero] at hwhole
  have hbytes : b.bytes = Packet.concat b.quiet ++ Packet.concat [b.last] :=
    Packet.concat_append _ _
  have hsplit := hwhole.left
  nth_rewrite 3 [hbytes] at hsplit
  refine ⟨hsplit.left, ?_⟩
  have hright := hsplit.right.left
  rwa [Nat.zero_add] at hright

theorem Batch.isBinary : isBinaryProtocol (ByteMem.ofList (b.bytes ++ trailing) memory) = true := by
  obtain ⟨hquiet, hlast⟩ := b.held trailing memory
  have hlen := b.length_bytes
  have hle : 24 ≤ b.last.length := b.last.header_le
  have hn : 0 < (b.bytes ++ trailing).length := by
    rw [List.length_append]
    omega
  have hfirst : ByteMem.ofList (b.bytes ++ trailing) memory 0 = magicReq := by
    cases hqs : b.quiet with
    | nil =>
        rw [hqs, Packet.concat_nil, List.length_nil] at hlast
        exact hlast.first_byte b.last hn
    | cons q qs =>
        rw [hqs, Packet.concat_cons] at hquiet
        exact hquiet.left.first_byte q hn
  simp [isBinaryProtocol, hfirst]

/-- The items of a batch are those of its packets, at their places. -/
theorem Batch.itemOf {i : Nat} {p : Packet magicReq} (hp : b.packets[i]? = some p) :
    ∃ r, (quietItemsAt 0 b.quiet ++
        [reqItem true (Packet.concat b.quiet).length b.last.header
          (closingFlags b.last.opcode)])[i]? = some r ∧
      ItemOf (ByteMem.ofList (b.bytes ++ trailing) memory)
        (Packet.concat (b.packets.take i)).length p r := by
  obtain ⟨hquiet, hlast⟩ := b.held trailing memory
  have hcount := length_quietItemsAt 0 b.quiet
  have hlen := b.length_bytes
  have hfit : b.bytes.length ≤ (b.bytes ++ trailing).length := by
    rw [List.length_append]
    omega
  unfold Batch.packets at hp ⊢
  by_cases hi : i < b.quiet.length
  · rw [List.getElem?_append_left hi] at hp
    obtain ⟨r, hr, hitem⟩ := itemOf_quietItemsAt b.quiet_getkq
      (fun q hq => b.keys_inside q (List.mem_append_left _ hq)) hquiet (by omega) hp
    refine ⟨r, ?_, ?_⟩
    · rw [List.getElem?_append_left (by omega), hr]
    · rw [Nat.zero_add] at hitem
      rw [List.take_append_of_le_length (by omega)]
      exact hitem
  · -- the closing request is the last item
    have hbound := (List.getElem?_eq_some_iff.mp hp).1
    rw [List.length_append, List.length_singleton] at hbound
    obtain rfl : i = b.quiet.length := by omega
    rw [List.getElem?_append_right le_rfl, Nat.sub_self] at hp
    obtain rfl := Option.some.inj hp
    refine ⟨reqItem true (Packet.concat b.quiet).length b.last.header
      (closingFlags b.last.opcode), ?_, ?_⟩
    · rw [List.getElem?_append_right (by omega), hcount, Nat.sub_self, List.getElem?_cons_zero]
    · rw [List.take_left]
      exact itemOf_closing hlast (by omega) (b.keys_inside b.last (by simp))

/-- **A complete batch parses to its packets**, whatever follows it. -/
theorem batch_parsed (hsize : (b.bytes ++ trailing).length < 2147483648)
    (header : MemcachedHeader) :
    ∃ items, parseReq true header (ByteMem.ofList (b.bytes ++ trailing) memory)
        (b.bytes ++ trailing).length 0 [] = some (.success, (b.bytes.length : Int), items) ∧
      items.length = b.quiet.length + 1 ∧
      ∀ i p, b.packets[i]? = some p → ∃ r, items[i]? = some r ∧
        ItemOf (ByteMem.ofList (b.bytes ++ trailing) memory)
          (Packet.concat (b.packets.take i)).length p r := by
  have hwhole := held_write memory (b.bytes ++ trailing) (b.bytes ++ trailing).length
  rw [List.take_length, ByteMem.write_zero] at hwhole
  have hfit : b.bytes.length ≤ (b.bytes ++ trailing).length := by
    rw [List.length_append]
    omega
  have hparse := parseReq_batch hsize b.quiet_getkq (dispatch_closing b.last_closing) rfl
    hwhole.left hfit (b.isBinary trailing memory) header
  refine ⟨_, hparse, ?_, fun i p hp => b.itemOf trailing memory hp⟩
  rw [List.length_append, length_quietItemsAt, List.length_singleton]

end Complete

/-- A quiet get of `"a"` and a request that stores 25 bytes. -/
def getAndStore : Batch where
  quiet := [quietPacket 97]
  last := storeRequest.toPacket (by decide)
  quiet_getkq := by decide
  last_closing := by decide
  keys_inside := by decide

theorem get_and_store_parsed : ∃ items,
    parseReq true ⟨0, 0, 0, 0⟩ (ByteMem.ofList (getAndStore.bytes ++ [7]) (fun _ => 0))
        (getAndStore.bytes ++ [7]).length 0 [] =
      some (.success, (getAndStore.bytes.length : Int), items) ∧
      items.length = getAndStore.quiet.length + 1 ∧
      ∀ i p, getAndStore.packets[i]? = some p → ∃ r, items[i]? = some r ∧
        ItemOf (ByteMem.ofList (getAndStore.bytes ++ [7]) (fun _ => 0))
          (Packet.concat (getAndStore.packets.take i)).length p r :=
  batch_parsed getAndStore [7] (fun _ => 0) (by decide) ⟨0, 0, 0, 0⟩

/-! ## A batch that is cut off -/

/-- A batch of requests of any length. -/
structure WireBatch where
  quiet : List WireRequest
  last : WireRequest
  quiet_getkq : ∀ q ∈ quiet, q.opcode = cmdGetkq
  last_closing : last.opcode ∈ closingOpcodes

namespace WireBatch

/-- The requests of a batch. -/
def requests (b : WireBatch) : List WireRequest := b.quiet ++ [b.last]

/-- The bytes of a batch. -/
def bytes (b : WireBatch) : List UInt8 := WireRequest.concat b.requests

/-- `parse_req` asks for more on the first `n` bytes of the batch. -/
def AsksForMore (b : WireBatch) (n : Nat) (memory : ByteMem) (header : MemcachedHeader) : Prop :=
  ∃ pos items, parseReq true header (ByteMem.ofList (b.bytes.take n) memory) n 0 [] =
    some (.again, pos, items)

/-- The request in which the first `n` bytes end has not got its header yet, or
its length is an `int` and it is a quiet get or longer than these bytes. -/
def CutSafe (b : WireBatch) (n : Nat) : Prop :=
  ∀ before p after, b.requests = before ++ p :: after →
    (WireRequest.concat before).length + 24 ≤ n →
    n < (WireRequest.concat before).length + p.length →
      p.length < 2147483648 ∧ (p.opcode = cmdGetkq ∨ n < p.length)

end WireBatch

/-- A request whose header has arrived, and whose length, as an `int`, is not more
than the bytes that have. -/
theorem reqAccepted_wire {p : WireRequest} {m : ByteMem} {o n : Nat} (hsmall : n < 2147483648)
    (hheld : Held m o n p.bytes) (hhead : o + 24 ≤ n) {flags : ReqFlags}
    (hop : dispatch p.opcode = .ok flags) (hfit : int32 p.length ≤ n)
    (header : MemcachedHeader) :
    ∃ hd, ReqAccepted m n true header o hd flags ∧ packetLen true hd = int32 p.length := by
  have hlen : p.length = p.bytes.length := rfl
  refine ⟨_, ⟨?_, tryReadBinary_held p.header_le p.magic_eq hheld hhead hsmall header, hop, ?_⟩, ?_⟩
  · rw [int32_eq_self (by omega) (by omega)]
    omega
  all_goals
    simp only [packetLen, headerLen, if_true, p.body_eq]
    unfold int32 at hfit ⊢
    omega

/-- **The pass at the closing request** whose length, as an `int`, is not more than
the bytes that have arrived: it is taken for complete. -/
theorem parseReqBody_closing {p : WireRequest} {m : ByteMem} {o n : Nat}
    (hsmall : n < 2147483648) (hheld : Held m o n p.bytes) (hhead : o + 24 ≤ n)
    (hop : p.opcode ∈ closingOpcodes) (hfit : int32 p.length ≤ n) {s : ReqLoop}
    (hpos : s.position = o) : (parseReqBody m n true s).1 = some .success := by
  obtain ⟨hd, hacc, _⟩ := reqAccepted_wire hsmall hheld hhead (dispatch_closing hop) hfit s.header
  rw [← hpos] at hacc
  rw [parseReqBody_of_accepted hacc]
  rfl

/-- The run from a quiet get that is not complete. -/
theorem run_cutQuiet {p : WireRequest} {m : ByteMem} {o n : Nat} (hsmall : n < 2147483648)
    (ho : o < n) (hpart : n < o + p.length) (hheld : Held m o n p.bytes)
    (hop : p.opcode = cmdGetkq) (hlen : o + 24 ≤ n → p.length < 2147483648) {s : ReqLoop}
    (hpos : s.position = o) (fuel : Nat) :
    ∃ u, Loop.run (parseReqBody m n true) (fuel + 1 + 1) s = some (.again, u) := by
  by_cases hhead : n < o + 24
  · exact ⟨_, Loop.run_leave (fuel + 1) (Prod.ext (parseReqBody_short ho hhead hpos) rfl)⟩
  · have hint := int32_eq_self (x := (p.length : Int)) (by omega) (by omega)
    have hforward : dispatch p.opcode = .ok quietFlags := by
      rw [hop]
      exact dispatch_getkq
    by_cases hfew : n < p.length
    · have hwait := parseReqBody_waits hsmall ho (p.toPacket (hlen (by omega))) hheld hforward
        (Or.inr ⟨by omega, hfew⟩) hpos
      exact ⟨_, Loop.run_leave (fuel + 1) (Prod.ext hwait rfl)⟩
    · -- it is taken early, and the next pass is behind the buffer
      obtain ⟨hd, hacc, hpacket⟩ :=
        reqAccepted_wire hsmall hheld (by omega) hforward (by omega) s.header
      rw [← hpos] at hacc
      have htaken := parseReqBody_of_accepted hacc
      rw [hpacket, hint, hpos] at htaken
      have hbehind : ¬ int32 ((n : Int) - int32 ((o : Int) + p.length)) > 0 := by
        unfold int32
        omega
      have hleave : ∀ t : ReqLoop, t.position = int32 ((o : Int) + p.length) → t.isAgin = true →
          parseReqBody m n true t = (some .again, t) := by
        intro t ht hagin
        rw [← ht] at hbehind
        rw [parseReqBody_done hbehind, hagin]
        rfl
      rw [Loop.run_pass (fuel + 1) htaken]
      exact ⟨_, Loop.run_leave fuel (hleave _ rfl rfl)⟩

/-- Fewer bytes than all of them end inside a request, or in front of it. -/
theorem exists_cut {ps : List WireRequest} {n : Nat} (hn : n < (WireRequest.concat ps).length) :
    ∃ before p after, ps = before ++ p :: after ∧ (WireRequest.concat before).length ≤ n ∧
      n < (WireRequest.concat before).length + p.length := by
  induction ps generalizing n with
  | nil => simp at hn
  | cons q ps ih =>
      have hlen : (WireRequest.concat (q :: ps)).length =
          q.length + (WireRequest.concat ps).length := by
        simp [WireRequest.length]
      by_cases hq : n < q.length
      · exact ⟨[], q, ps, rfl, by simp, by simpa using hq⟩
      · obtain ⟨before, p, after, rfl, hle, hlt⟩ := ih (n := n - q.length) (by omega)
        have hbefore : (WireRequest.concat (q :: before)).length =
            q.length + (WireRequest.concat before).length := by
          simp [WireRequest.length]
        exact ⟨q :: before, p, after, rfl, by omega, by omega⟩

namespace WireBatch

variable {b : WireBatch} {before after : List WireRequest} {p : WireRequest}

/-- In front of any request of a batch there are quiet gets only, and a request
that is not the closing one is a quiet get too. -/
theorem quiet_before (hsplit : b.requests = before ++ p :: after) :
    (∀ q ∈ before, q ∈ b.quiet) ∧ (p ∈ b.quiet ∨ p = b.last) := by
  unfold requests at hsplit
  rcases List.append_eq_append_iff.mp hsplit with ⟨more, rfl, hmore⟩ | ⟨more, hquiet, hmore⟩
  · cases more with
    | nil =>
        obtain ⟨rfl, _⟩ := List.cons.inj hmore
        exact ⟨fun q hq => by simpa using hq, Or.inr rfl⟩
    | cons q more => simp at hmore
  · refine ⟨fun q hq => by simp [hquiet, hq], ?_⟩
    cases more with
    | nil =>
        obtain ⟨rfl, _⟩ := List.cons.inj hmore
        exact Or.inr rfl
    | cons q more =>
        obtain ⟨rfl, _⟩ := List.cons.inj hmore
        exact Or.inl (by simp [hquiet])

variable {n : Nat}

/-- The parser as it comes to the request in which the first `n` bytes end. -/
theorem parseReq_eq (hsplit : b.requests = before ++ p :: after)
    (hle : (WireRequest.concat before).length ≤ n) (hn : 0 < n) (hint : n < 2147483648)
    (memory : ByteMem) (header : MemcachedHeader) :
    Held (ByteMem.ofList (b.bytes.take n) memory) (WireRequest.concat before).length n p.bytes ∧
      ∃ fuel items header', parseReq true header (ByteMem.ofList (b.bytes.take n) memory) n 0 [] =
        (Loop.run (parseReqBody (ByteMem.ofList (b.bytes.take n) memory) n true) (fuel + 1 + 1)
          ⟨(WireRequest.concat before).length, items, !before.isEmpty, header'⟩).map
          (fun r => (r.1, r.2.position, r.2.reqData)) := by
  have hheld := held_write memory b.bytes n
  rw [ByteMem.write_zero] at hheld
  have hbytes : b.bytes = WireRequest.concat before ++ WireRequest.concat (p :: after) := by
    rw [bytes, hsplit, WireRequest.concat_append]
  have hsplit' : Held (ByteMem.ofList (b.bytes.take n) memory) 0 n
      (WireRequest.concat before ++ WireRequest.concat (p :: after)) := by
    rw [← hbytes]
    exact hheld
  have hfirst : ByteMem.ofList (b.bytes.take n) memory 0 = magicReq := by
    rw [← WireRequest.concat_append] at hsplit'
    cases before with
    | nil => exact wire_first_byte hsplit' hn
    | cons q before => exact wire_first_byte hsplit' hn
  have hright := hsplit'.right.left
  rw [Nat.zero_add] at hright
  have hquiet : ∀ q ∈ before, q.opcode = cmdGetkq :=
    fun q hq => b.quiet_getkq q ((quiet_before hsplit).1 q hq)
  exact ⟨hright, parseReq_quietWire hquiet hint hsplit'.left hle hfirst header⟩

/-- A part that ends where the parser waits makes it ask for more. -/
theorem asksForMore_of_cutSafe (hn : 0 < n) (hcut : n < b.bytes.length) (hint : n < 2147483648)
    (hsafe : b.CutSafe n) (memory : ByteMem) (header : MemcachedHeader) :
    b.AsksForMore n memory header := by
  obtain ⟨before, p, after, hsplit, hle, hlt⟩ := exists_cut hcut
  obtain ⟨hheld, fuel, items, header', hparse⟩ := parseReq_eq hsplit hle hn hint memory header
  have hrun : ∃ u, Loop.run (parseReqBody (ByteMem.ofList (b.bytes.take n) memory) n true)
      (fuel + 1 + 1) ⟨(WireRequest.concat before).length, items, !before.isEmpty, header'⟩ =
        some (.again, u) := by
    rcases hle.lt_or_eq with ho | ho
    · rcases (quiet_before hsplit).2 with hquiet | rfl
      · exact run_cutQuiet hint ho hlt hheld (b.quiet_getkq p hquiet)
          (fun hhead => (hsafe before p after hsplit hhead hlt).1) rfl fuel
      · -- the closing request is waited for
        have hwait : (parseReqBody (ByteMem.ofList (b.bytes.take n) memory) n true
            ⟨(WireRequest.concat before).length, items, !before.isEmpty, header'⟩).1 =
              some .again := by
          by_cases hhead : n < (WireRequest.concat before).length + 24
          · exact parseReqBody_short ho hhead rfl
          · obtain ⟨hlen, hmore⟩ := hsafe before b.last after hsplit (by omega) hlt
            have hfew : n < b.last.length := by
              refine hmore.resolve_left ?_
              intro hop
              have hclosing := b.last_closing
              rw [hop] at hclosing
              exact absurd hclosing (by decide)
            exact parseReqBody_waits hint ho (b.last.toPacket hlen) hheld
              (dispatch_closing b.last_closing) (Or.inr ⟨by omega, hfew⟩) rfl
        exact ⟨_, Loop.run_leave (fuel + 1) (Prod.ext hwait rfl)⟩
    · -- the part ends between two requests
      have hsome : before.isEmpty = false := by
        cases before with
        | nil =>
            rw [WireRequest.concat_nil, List.length_nil] at ho
            omega
        | cons q before => rfl
      have hbehind := parseReqBody_behind (m := ByteMem.ofList (b.bytes.take n) memory) ho.ge
        (by omega) (s := ⟨(WireRequest.concat before).length, items, !before.isEmpty, header'⟩) rfl
      rw [hsome] at hbehind ⊢
      exact ⟨_, Loop.run_leave (fuel + 1) hbehind⟩
  obtain ⟨u, hrun⟩ := hrun
  rw [AsksForMore, hparse, hrun]
  exact ⟨_, _, rfl⟩

/-- A closing request that is taken too early ends the batch. -/
theorem cutSafe_of_asksForMore (hn : 0 < n) (hint : n < 2147483648)
    (hquiet : ∀ q ∈ b.quiet, q.length < 2147483648) {memory : ByteMem} {header : MemcachedHeader}
    (h : b.AsksForMore n memory header) : b.CutSafe n := by
  intro before p after hsplit hhead hlt
  obtain ⟨hheld, fuel, items, header', hparse⟩ :=
    parseReq_eq hsplit (by omega) hn hint memory header
  rcases (quiet_before hsplit).2 with hmem | rfl
  · exact ⟨hquiet p hmem, Or.inl (b.quiet_getkq p hmem)⟩
  · by_contra hearly
    -- the length, as an `int`, is not more than what has arrived
    have hfit : int32 b.last.length ≤ n := by
      have hbody := b.last.body_eq
      have hbound : be32 (ByteMem.ofList b.last.bytes (fun _ => 0)) 8 < 4294967296 := be32_lt _ _
      have hlen : b.last.length = b.last.bytes.length := rfl
      unfold int32
      omega
    have hdone := parseReqBody_closing hint hheld hhead b.last_closing hfit
      (s := ⟨(WireRequest.concat before).length, items, !before.isEmpty, header'⟩) rfl
    obtain ⟨pos, list, hagain⟩ := h
    rw [hparse, Loop.run_leave (fuel + 1) (Prod.ext hdone rfl)] at hagain
    simp at hagain

end WireBatch

/-- **A batch that is cut off.**  `parse_req` asks for more if the part ends where
it waits; and otherwise it does not, unless a quiet get claims a length of
`2 ^ 31` or more and sends the parser back. -/
theorem cut_batch_waits (b : WireBatch) {n : Nat} (hn : 0 < n) (hcut : n < b.bytes.length)
    (hint : n < 2147483648) (memory : ByteMem) (header : MemcachedHeader) :
    (b.CutSafe n → b.AsksForMore n memory header) ∧
      ((∀ q ∈ b.quiet, q.length < 2147483648) → b.AsksForMore n memory header → b.CutSafe n) :=
  ⟨fun hsafe => b.asksForMore_of_cutSafe hn hcut hint hsafe memory header,
    fun hquiet h => b.cutSafe_of_asksForMore hn hint hquiet h⟩

/-- A quiet get of `"a"` as a request of any length. -/
def quietWireGet : WireRequest where
  bytes := (quietPacket 97).bytes
  header_le := (quietPacket 97).header_le
  magic_eq := (quietPacket 97).magic_eq
  body_eq := (quietPacket 97).body_eq

theorem quietWireGet_getkq : ∀ q ∈ [quietWireGet], q.opcode = cmdGetkq := by decide

theorem storeRequest_closing : storeRequest.opcode ∈ closingOpcodes := by decide

/-- A quiet get of 25 bytes and a request of 58 bytes that stores a value. -/
def getThenStore : WireBatch where
  quiet := [quietWireGet]
  last := storeRequest
  quiet_getkq := quietWireGet_getkq
  last_closing := storeRequest_closing

/-- Of the second request 25 bytes are there, and it is longer than all 50. -/
theorem getThenStore_cutSafe : getThenStore.CutSafe 50 := by
  have hget : quietWireGet.length = 25 := by decide
  have hstore : getThenStore.last.length = 58 := by decide
  intro before p after hsplit hhead hlt
  cases before with
  | nil =>
      obtain ⟨rfl, _⟩ := List.cons.inj hsplit
      rw [WireRequest.concat_nil, List.length_nil] at hlt
      omega
  | cons q before =>
      obtain ⟨_, hrest⟩ := List.cons.inj hsplit
      cases before with
      | nil =>
          obtain ⟨rfl, _⟩ := List.cons.inj hrest
          omega
      | cons x before => simp at hrest

theorem get_then_store_waits : getThenStore.AsksForMore 50 (fun _ => 0) ⟨0, 0, 0, 0⟩ :=
  (cut_batch_waits getThenStore (by decide) (by decide) (by decide) _ _).1 getThenStore_cutSafe

/-- With 60 of the 83 bytes the store is taken for complete. -/
theorem cut_store_taken : 60 < getThenStore.bytes.length ∧
    ¬ getThenStore.AsksForMore 60 (fun _ => 0) ⟨0, 0, 0, 0⟩ := by
  refine ⟨by decide, ?_⟩
  intro h
  have hstore : storeRequest.length = 58 := by decide
  have hquiet : ∀ q ∈ getThenStore.quiet, q.length < 2147483648 := by decide
  obtain ⟨_, hop | hlong⟩ := getThenStore.cutSafe_of_asksForMore (by decide) (by decide) hquiet h
    [quietWireGet] storeRequest [] rfl (by decide) (by decide)
  · exact absurd hop (by decide)
  · omega

end KvProxy
