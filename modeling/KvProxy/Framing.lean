import KvProxy.Lib.Steps
import KvProxy.ParsePackets

/-!
# Where the requests of a stream begin

`readEvent` keeps no place inside a request between two events: what it does
not leave in the input buffer it drains, and the next event takes the first
byte it finds for the start of a request.  It drains the whole buffer after a
batch, after a parse error, and when the buffer has become too long, wherever
in a request the buffer ends.

* `Framed` — an event ends at a request boundary, or leaves the buffer alone;
* `parseReq_whole` / `parseReq_waits` — what `parse_req` makes of whole
  requests, and of a request that is still arriving;
* `requests_genuine` — in a run of such events every request that is passed on
  is one of the stream, at its place;
* `value_taken_for_request` — a stored value that is taken for a request.
-/

namespace KvProxy

open MachineInt

/-- A well-formed request of any opcode and any length. -/
structure WireRequest where
  bytes : List UInt8
  header_le : 24 ≤ bytes.length
  magic_eq : ByteMem.ofList bytes (fun _ => 0) 0 = magicReq
  body_eq : be32 (ByteMem.ofList bytes (fun _ => 0)) 8 = bytes.length - 24

namespace WireRequest

/-- The length of a request. -/
def length (p : WireRequest) : Nat := p.bytes.length

/-- The opcode, as it is compared. -/
def opcode (p : WireRequest) : Int := (ByteMem.ofList p.bytes (fun _ => 0) 1).toNat

/-- The bytes of requests one behind the other. -/
def concat (ps : List WireRequest) : List UInt8 := ps.flatMap WireRequest.bytes

@[simp] theorem concat_nil : concat [] = [] := rfl

@[simp] theorem concat_cons (p : WireRequest) (ps : List WireRequest) :
    concat (p :: ps) = p.bytes ++ concat ps := rfl

@[simp] theorem concat_append (ps qs : List WireRequest) :
    concat (ps ++ qs) = concat ps ++ concat qs := by
  simp [concat]

/-- A request whose length is an `int` is a packet. -/
def toPacket (p : WireRequest) (h : p.length < 2147483648) : Packet magicReq :=
  ⟨p.bytes, p.header_le, h, p.magic_eq, p.body_eq⟩

end WireRequest

/-- The connection of a client: how many bytes of its stream have been drained,
the input buffer, and what its thread keeps. -/
structure ClientState where
  drained : Nat
  buffer : List UInt8
  worker : Worker

/-- One event of the thread. -/
def streamStep (cfg : ProxyConfig) (s : ClientState) : ThreadEvent → Option ClientState
  | .mine segment out =>
      (readEvent cfg out (s.buffer ++ segment) s.worker).result.map (fun got =>
        ⟨s.drained + ((s.buffer ++ segment).length - got.1.length), got.1, got.2⟩)
  | .other foreign out =>
      (readEvent cfg out foreign s.worker).result.map (fun got => { s with worker := got.2 })

/-- Offset `k` of the stream is where a request begins, or the end of the last. -/
def AtBoundary (ps : List WireRequest) (k : Nat) : Prop :=
  ∃ before after, ps = before ++ after ∧ k = (WireRequest.concat before).length

/-- Of a request that begins at offset `o` of a buffer of `n` bytes, too little
has arrived for it to be taken for complete, or it is a quiet get, which is
then parsed again. -/
def KeptWaiting (p : WireRequest) (o n : Nat) : Prop :=
  n < o + 24 ∨
    (∃ flags, dispatch p.opcode = .ok flags) ∧ p.length < 2147483648 ∧
      (n < p.length ∨ p.opcode = cmdGetkq ∧ o + p.length < 2147483648)

/-- The `n` bytes behind offset `k` of the stream are quiet gets and a part of a
request that is waited for, and the event parses them. -/
structure Waits (cfg : ProxyConfig) (ps : List WireRequest) (k n : Nat) : Prop where
  binary : cfg.useBinary = true
  fits : ¬ ((n : Int) > fastBuffSize ∧ (n : Int) > cfg.reqBufSize)
  part : ∃ before quiet p after, ps = before ++ (quiet ++ p :: after) ∧
    k = (WireRequest.concat before).length ∧ (∀ q ∈ quiet, q.opcode = cmdGetkq) ∧
    (WireRequest.concat quiet).length < n ∧ n < (WireRequest.concat quiet).length + p.length ∧
    KeptWaiting p (WireRequest.concat quiet).length n

/-- The bytes an event finds are fewer than `2 ^ 31`, and end at a request
boundary of the stream or inside a request that is waited for. -/
def Framed (cfg : ProxyConfig) (ps : List WireRequest) (s : ClientState) : ThreadEvent → Prop
  | .mine segment _ =>
      (s.buffer ++ segment).length < 2147483648 ∧
        (AtBoundary ps (s.drained + (s.buffer ++ segment).length) ∨
          Waits cfg ps s.drained (s.buffer ++ segment).length)
  | .other _ _ => True

/-- The item is a request of the stream, at its place. -/
def IsRequest (ps : List WireRequest) (drained : Nat) (m : ByteMem) (r : Req) : Prop :=
  ∃ before p after, ps = before ++ p :: after ∧
    (drained : Int) + r.content = (WireRequest.concat before).length ∧ r.bytes m = p.bytes

/-- What the event passes to `createReqGroup` are requests of the stream. -/
def Genuine (cfg : ProxyConfig) (ps : List WireRequest) (s : ClientState) : ThreadEvent → Prop
  | .mine segment out =>
      passedRequests (readEvent cfg out (s.buffer ++ segment) s.worker).effects =
          (passedItems cfg out (s.buffer ++ segment) s.worker).map
            (fun r => r.bytes (ByteMem.ofList (s.buffer ++ segment) out.memory)) ∧
        ∀ r ∈ passedItems cfg out (s.buffer ++ segment) s.worker,
          IsRequest ps s.drained (ByteMem.ofList (s.buffer ++ segment) out.memory) r
  | .other _ _ => True

/-- The steps are the events of the thread. -/
theorem run_streamStep (cfg : ProxyConfig) (events : List ThreadEvent) (s : ClientState) :
    (Steps.run (streamStep cfg) s events).map (fun t => (t.buffer, t.worker)) =
      (runEvents cfg events s.buffer s.worker).result := by
  induction events generalizing s with
  | nil => rfl
  | cons ev events ih =>
      cases ev with
      | mine segment out =>
          cases hres : (readEvent cfg out (s.buffer ++ segment) s.worker).result with
          | none =>
              have hlabel : ((readEvent cfg out (s.buffer ++ segment) s.worker).label
                  (Prod.mk true)).result = none := by
                rw [Act.label_result]
                exact hres
              rw [runEvents, Act.bind_of_none _ hlabel]
              simp [Steps.run, streamStep, hres]
          | some got =>
              rw [runEvents_mine hres, ← ih ⟨s.drained + ((s.buffer ++ segment).length -
                got.1.length), got.1, got.2⟩]
              simp [Steps.run, streamStep, hres]
      | other foreign out =>
          cases hres : (readEvent cfg out foreign s.worker).result with
          | none =>
              have hlabel : ((readEvent cfg out foreign s.worker).label
                  (Prod.mk false)).result = none := by
                rw [Act.label_result]
                exact hres
              rw [runEvents, Act.bind_of_none _ hlabel]
              simp [Steps.run, streamStep, hres]
          | some got =>
              rw [runEvents_other hres, ← ih { s with worker := got.2 }]
              simp [Steps.run, streamStep, hres]

/-! ## Boundaries -/

theorem concat_eq_nil {ps : List WireRequest} (h : (WireRequest.concat ps).length = 0) : ps = [] := by
  cases ps with
  | nil => rfl
  | cons p ps =>
      have hle := p.header_le
      rw [WireRequest.concat_cons, List.length_append] at h
      omega

/-- From one boundary to another lie whole requests. -/
theorem AtBoundary.between {before after : List WireRequest} {n : Nat}
    (h : AtBoundary (before ++ after) ((WireRequest.concat before).length + n)) :
    ∃ whole rest, after = whole ++ rest ∧ n = (WireRequest.concat whole).length := by
  obtain ⟨before', after', hsplit, hlen⟩ := h
  rcases List.append_eq_append_iff.mp hsplit with ⟨whole, rfl, rfl⟩ | ⟨more, rfl, rfl⟩
  · refine ⟨whole, after', rfl, ?_⟩
    rw [WireRequest.concat_append, List.length_append] at hlen
    omega
  · refine ⟨[], after, rfl, ?_⟩
    rw [WireRequest.concat_append, List.length_append] at hlen
    rw [WireRequest.concat_nil, List.length_nil]
    omega

/-- A place of the stream cuts it in one way, because no request is empty. -/
theorem after_unique {before before' after after' : List WireRequest}
    (hsplit : before ++ after = before' ++ after')
    (hlen : (WireRequest.concat before).length = (WireRequest.concat before').length) :
    after = after' := by
  rcases List.append_eq_append_iff.mp hsplit with ⟨more, rfl, rfl⟩ | ⟨more, rfl, rfl⟩
  · rw [WireRequest.concat_append, List.length_append] at hlen
    rw [concat_eq_nil (by omega : (WireRequest.concat more).length = 0), List.nil_append]
  · rw [WireRequest.concat_append, List.length_append] at hlen
    rw [concat_eq_nil (by omega : (WireRequest.concat more).length = 0), List.nil_append]

/-- The requests of a part of the stream are requests of the stream. -/
theorem IsRequest.shift {before whole rest : List WireRequest} {m : ByteMem} {r : Req}
    (h : IsRequest whole 0 m r) :
    IsRequest (before ++ (whole ++ rest)) (WireRequest.concat before).length m r := by
  obtain ⟨left, p, right, rfl, hplace, hbytes⟩ := h
  refine ⟨before ++ left, p, right ++ rest, by simp, ?_, hbytes⟩
  rw [WireRequest.concat_append, List.length_append]
  push_cast at hplace ⊢
  omega

/-- A stream starts with the magic byte of a request. -/
theorem wire_first_byte {p : WireRequest} {ps : List WireRequest} {m : ByteMem} {n : Nat}
    (hheld : Held m 0 n (WireRequest.concat (p :: ps))) (hn : 0 < n) : m 0 = magicReq := by
  have hle := p.header_le
  have hbyte : some (ByteMem.ofList p.bytes (fun _ => 0) 0) = p.bytes[(0 : Int).toNat]? :=
    ByteMem.ofList_of_lt (by omega) (by omega)
  rw [p.magic_eq] at hbyte
  simpa using hheld.left 0 (by omega) _ hbyte.symm

/-! ## Whole requests -/

/-- The parser is at a request of the list, and has made items of requests. -/
def AtRequest (ps : List WireRequest) (m : ByteMem) (s : ReqLoop) : Prop :=
  (∃ before after, ps = before ++ after ∧ s.position = (WireRequest.concat before).length) ∧
    ∀ r ∈ s.reqData, IsRequest ps 0 m r

/-- One pass over whole requests. -/
theorem AtRequest.pass {ps : List WireRequest} {m : ByteMem} {n : Nat}
    (hn : n = (WireRequest.concat ps).length) (hsmall : n < 2147483648)
    (hheld : Held m 0 n (WireRequest.concat ps)) {isBinary : Bool}
    (hbin : ps ≠ [] → isBinary = true) {s : ReqLoop} (h : AtRequest ps m s) :
    AtRequest ps m (parseReqBody m n isBinary s).2 := by
  obtain ⟨⟨before, after, rfl, hpos⟩, hitems⟩ := h
  rcases parseReqBody_cases m n isBinary s with ⟨_, hsame, hdata, _⟩ | ⟨hd, flags, hacc, heq⟩
  · refine ⟨⟨before, after, rfl, hsame.trans hpos⟩, ?_⟩
    rw [hdata]
    exact hitems
  · cases after with
    | nil =>
        -- behind the last request nothing is accepted
        have hrem := hacc.remaining
        rw [hpos, hn, List.append_nil, Int.sub_self] at hrem
        exact absurd hrem (by decide)
    | cons p after =>
        obtain rfl := hbin (by simp)
        rw [WireRequest.concat_append, WireRequest.concat_cons] at hheld
        have hlen : n = (WireRequest.concat before).length +
            (p.length + (WireRequest.concat after).length) := by
          rw [hn]
          simp [WireRequest.length]
        have hright := hheld.right.left
        rw [Nat.zero_add] at hright
        have hhead : 24 ≤ p.length := p.header_le
        have hshort : p.length < 2147483648 := by omega
        have hread : readRequest m n true s.header s.position =
            (1, (p.toPacket hshort).header) := by
          rw [hpos]
          exact tryReadBinary_packet (p.toPacket hshort) hright (by omega) hsmall s.header
        obtain rfl : hd = (p.toPacket hshort).header := by
          have hsame := hacc.read.symm.trans hread
          simpa using hsame
        have hnext : int32 (s.position + packetLen true (p.toPacket hshort).header) =
            ((WireRequest.concat (before ++ [p])).length : Int) := by
          have hbytes : (p.toPacket hshort).length = p.length := rfl
          rw [hpos, Packet.packetLen_header, hbytes, int32_eq_self (by omega) (by omega)]
          simp [WireRequest.length]
        rw [heq]
        refine ⟨⟨before ++ [p], after, by simp, hnext⟩, ?_⟩
        intro r hr
        rcases List.mem_append.mp hr with hold | hnew
        · exact hitems r hold
        · obtain rfl := List.mem_singleton.mp hnew
          refine ⟨before, p, after, rfl, ?_, ?_⟩
          · rw [Int.natCast_zero, Int.zero_add]
            exact hpos
          · rw [hpos]
            exact reqItem_bytes (p.toPacket hshort) flags hright (by
              have hbytes : (p.toPacket hshort).length = p.length := rfl
              omega)

/-- **`parse_req` on whole requests** makes items of requests only. -/
theorem parseReq_whole {ps : List WireRequest} {m : ByteMem} {n : Nat}
    (hn : n = (WireRequest.concat ps).length) (hsmall : n < 2147483648)
    (hheld : Held m 0 n (WireRequest.concat ps)) (useBinary : Bool) (header : MemcachedHeader) :
    ∀ r ∈ parsedBatch (parseReq useBinary header m n 0 []), IsRequest ps 0 m r := by
  intro r hr
  unfold parseReq at hr
  dsimp only at hr
  split_ifs at hr with hproto
  · simp [parsedBatch] at hr
  · have hbin : ps ≠ [] → isBinaryProtocol m = true := by
      intro hne
      obtain ⟨p, rest, rfl⟩ := List.exists_cons_of_ne_nil hne
      have hpos : 0 < n := by
        have hle := p.header_le
        rw [hn, WireRequest.concat_cons, List.length_append]
        omega
      simp [isBinaryProtocol, wire_first_byte hheld hpos]
    have hstart : AtRequest ps m ⟨0, [], false, header⟩ := by
      refine ⟨⟨[], ps, rfl, rfl⟩, ?_⟩
      intro r hr
      simp at hr
    cases hrun : Loop.run (parseReqBody m n (isBinaryProtocol m)) loopFuel
        ⟨0, [], false, header⟩ with
    | none =>
        rw [hrun, Option.map_none] at hr
        simp [parsedBatch] at hr
    | some last =>
        have hend := Loop.run_invariant hrun (AtRequest ps m) (fun _ => AtRequest ps m) hstart
          (fun t ht _ => ht.pass hn hsmall hheld hbin)
          (fun t code u ht hlast => by
            have hpass := ht.pass hn hsmall hheld hbin
            rwa [hlast] at hpass)
        rw [hrun, Option.map_some] at hr
        obtain ⟨code, u⟩ := last
        cases code with
        | success => exact hend.2 r hr
        | again => simp [parsedBatch] at hr
        | error => simp [parsedBatch] at hr
        | ignore => simp [parsedBatch] at hr

/-! ## A request that is still arriving -/

/-- Requests that lie in a buffer of an `int` length are packets. -/
theorem exists_packets {ps : List WireRequest} (h : (WireRequest.concat ps).length < 2147483648) :
    ∃ qs : List (Packet magicReq), Packet.concat qs = WireRequest.concat ps ∧
      qs.map Packet.opcode = ps.map WireRequest.opcode := by
  induction ps with
  | nil => exact ⟨[], rfl, rfl⟩
  | cons p ps ih =>
      rw [WireRequest.concat_cons, List.length_append] at h
      obtain ⟨qs, hconcat, hops⟩ := ih (by omega)
      refine ⟨p.toPacket (show p.bytes.length < 2147483648 by omega) :: qs, ?_, ?_⟩
      · rw [Packet.concat_cons, hconcat]
        rfl
      · rw [List.map_cons, hops]
        rfl

/-- The pass at a request that is waited for ends in asking for more. -/
theorem run_keptWaiting {p : WireRequest} {m : ByteMem} {o n : Nat} (hsmall : n < 2147483648)
    (ho : o < n) (hpart : n < o + p.length) (hheld : Held m o n p.bytes)
    (hkept : KeptWaiting p o n) {s : ReqLoop} (hpos : s.position = o) (fuel : Nat) :
    ∃ u, Loop.run (parseReqBody m n true) (fuel + 1 + 1) s = some (.again, u) := by
  have hleave : (parseReqBody m n true s).1 = some .again →
      ∃ u, Loop.run (parseReqBody m n true) (fuel + 1 + 1) s = some (.again, u) :=
    fun h => ⟨_, Loop.run_leave (fuel + 1) (Prod.ext h rfl)⟩
  rcases hkept with hshort | ⟨⟨flags, hforward⟩, hlen, hmore⟩
  · exact hleave (parseReqBody_short ho hshort hpos)
  · by_cases hhead : n < o + 24
    · exact hleave (parseReqBody_short ho hhead hpos)
    · have hbytes : (p.toPacket hlen).length = p.length := rfl
      by_cases hfew : n < p.length
      · exact hleave (parseReqBody_waits hsmall ho (p.toPacket hlen) hheld hforward
          (Or.inr ⟨by omega, by omega⟩) hpos)
      · -- a quiet get is taken early, and the next pass is behind the buffer
        obtain ⟨hop, hend⟩ := hmore.resolve_left hfew
        have hquiet : dispatch (p.toPacket hlen).opcode = .ok quietFlags := by
          have hsame : (p.toPacket hlen).opcode = cmdGetkq := hop
          rw [hsame]
          exact dispatch_getkq
        have htakes := parseReqBody_takes hsmall (p.toPacket hlen) hheld hquiet (by omega)
          (by omega) (by omega) hpos
        have hbehind := parseReqBody_behind (m := m) (n := n) (o := o + (p.toPacket hlen).length)
          (by omega) (by omega)
          (s := ⟨((o + (p.toPacket hlen).length : Nat) : Int),
            s.reqData ++ [reqItem true o (p.toPacket hlen).header quietFlags], quietFlags.isAgin,
            (p.toPacket hlen).header⟩) rfl
        rw [Loop.run_pass (fuel + 1) htakes, Loop.run_leave fuel hbehind]
        exact ⟨_, rfl⟩

/-- The parser as the walk over quiet gets leaves it. -/
theorem parseReq_quietWire {quiet : List WireRequest} {m : ByteMem} {n : Nat}
    (hquiet : ∀ q ∈ quiet, q.opcode = cmdGetkq) (hsmall : n < 2147483648)
    (hheld : Held m 0 n (WireRequest.concat quiet)) (hfit : (WireRequest.concat quiet).length ≤ n)
    (hfirst : m 0 = magicReq) (header : MemcachedHeader) :
    ∃ fuel items header', parseReq true header m n 0 [] =
      (Loop.run (parseReqBody m n true) (fuel + 1 + 1)
        ⟨(WireRequest.concat quiet).length, items, !quiet.isEmpty, header'⟩).map
        (fun r => (r.1, r.2.position, r.2.reqData)) := by
  have hbin : isBinaryProtocol m = true := by simp [isBinaryProtocol, hfirst]
  obtain ⟨qs, hconcat, hops⟩ :=
    exists_packets (show (WireRequest.concat quiet).length < 2147483648 by omega)
  have hquiet' : ∀ q ∈ qs, q.opcode = cmdGetkq := by
    intro q hq
    have hmem : q.opcode ∈ quiet.map WireRequest.opcode := by
      rw [← hops]
      exact List.mem_map_of_mem hq
    obtain ⟨w, hw, hop⟩ := List.mem_map.mp hmem
    rw [← hop]
    exact hquiet w hw
  have hempty : qs.isEmpty = quiet.isEmpty := by
    have hsame := congrArg List.isEmpty hops
    rwa [List.isEmpty_map, List.isEmpty_map] at hsame
  rw [← hconcat] at hheld hfit
  obtain ⟨fuel, header', hparse⟩ := parseReq_quiet hsmall hquiet' hheld hfit hbin header
  rw [hconcat, hempty] at hparse
  exact ⟨fuel, _, header', hparse⟩

/-- **`parse_req` on quiet gets and a request that is waited for.** -/
theorem parseReq_waits {quiet after : List WireRequest} {p : WireRequest} {m : ByteMem} {n : Nat}
    (hquiet : ∀ q ∈ quiet, q.opcode = cmdGetkq) (hsmall : n < 2147483648)
    (hheld : Held m 0 n (WireRequest.concat (quiet ++ p :: after)))
    (hstart : (WireRequest.concat quiet).length < n)
    (hpart : n < (WireRequest.concat quiet).length + p.length)
    (hkept : KeptWaiting p (WireRequest.concat quiet).length n) (header : MemcachedHeader) :
    m 0 = magicReq ∧ ∃ pos items, parseReq true header m n 0 [] = some (.again, pos, items) := by
  have hfirst : m 0 = magicReq := by
    cases quiet with
    | nil => exact wire_first_byte hheld (by omega)
    | cons q quiet => exact wire_first_byte hheld (by omega)
  refine ⟨hfirst, ?_⟩
  rw [WireRequest.concat_append, WireRequest.concat_cons] at hheld
  have hright := hheld.right.left
  rw [Nat.zero_add] at hright
  obtain ⟨fuel, items, header', hparse⟩ :=
    parseReq_quietWire hquiet hsmall hheld.left hstart.le hfirst header
  obtain ⟨u, hrun⟩ := run_keptWaiting hsmall hstart hpart hright hkept
    (s := ⟨(WireRequest.concat quiet).length, items, !quiet.isEmpty, header'⟩) rfl fuel
  rw [hparse, hrun]
  exact ⟨_, _, rfl⟩

/-! ## Runs -/

/-- The drained bytes end at a boundary, and the buffer and what is still to
come go on from there. -/
structure InStream (ps : List WireRequest) (future : List UInt8) (s : ClientState) : Prop where
  fresh : s.worker.Fresh
  place : ∃ before after, ps = before ++ after ∧ s.drained = (WireRequest.concat before).length ∧
    s.buffer ++ future <+: WireRequest.concat after

/-- What an event finds of the stream. -/
theorem held_of_start {bytes buffer future : List UInt8} (h : buffer ++ future <+: bytes)
    (memory : ByteMem) : Held (ByteMem.ofList buffer memory) 0 buffer.length bytes := by
  obtain ⟨rest, rfl⟩ := h
  have hheld := held_write memory (buffer ++ (future ++ rest)) buffer.length
  rw [List.take_left, ByteMem.write_zero, ← List.append_assoc] at hheld
  exact hheld

/-- An event whose last request is waited for keeps the buffer. -/
theorem readEvent_waits {cfg : ProxyConfig} {before after : List WireRequest}
    {buffer future : List UInt8} (hsmall : buffer.length < 2147483648)
    (hfuture : buffer ++ future <+: WireRequest.concat after)
    (hwaits : Waits cfg (before ++ after) (WireRequest.concat before).length buffer.length)
    {w : Worker} (hw : w.Fresh) (out : Outside) :
    passedItems cfg out buffer w = [] ∧
      readEvent cfg out buffer w = pure (buffer, ⟨w.thread, 0, []⟩) := by
  obtain ⟨before', quiet, p, more, hsplit, hplace, hquiet, hstart, hpart, hkept⟩ := hwaits.part
  obtain rfl := after_unique hsplit hplace
  obtain ⟨hfirst, pos, items, hparse⟩ := parseReq_waits hquiet hsmall
    (held_of_start hfuture out.memory) hstart hpart hkept out.header
  have hint := int32_eq_self (x := (buffer.length : Int)) (by omega) (by omega)
  have hstatus : ¬ ((ByteMem.ofList buffer out.memory).slice 0 6 = statusCmd ∧
      (buffer.length : Int) ≤ 8) := by
    intro h
    have heq := h.1
    rw [ByteMem.slice_succ, hfirst] at heq
    exact absurd (List.cons.inj heq).1 (by decide)
  constructor
  · unfold passedItems
    rw [copiedLen_eq hsmall, hint, if_neg hwaits.fits, if_neg hstatus, hw.1, hw.2, hwaits.binary,
      hparse]
    rfl
  · rw [readEvent_eq, copiedLen_eq hsmall, hint, if_neg hwaits.fits, if_neg hstatus, hw.1, hw.2,
      hwaits.binary, hparse, Act.bind_of_some _ (Act.ofOption_result _)]
    rfl

/-- **One event of the client** passes requests of the stream on, and the next
one finds the stream at a boundary again. -/
theorem InStream.mine {cfg : ProxyConfig} {ps : List WireRequest} {segment future : List UInt8}
    {out : Outside} {s : ClientState} (h : InStream ps (segment ++ future) s)
    (hframed : Framed cfg ps s (.mine segment out)) :
    Genuine cfg ps s (.mine segment out) ∧
      ∀ s', streamStep cfg s (.mine segment out) = some s' → InStream ps future s' := by
  obtain ⟨hfresh, before, after, rfl, hplace, hfuture⟩ := h
  obtain ⟨hsmall, hend⟩ := hframed
  rw [← List.append_assoc] at hfuture
  have hpassed := passedRequests_readEvent cfg out (s.buffer ++ segment) s.worker
  simp only [Genuine, streamStep]
  generalize s.buffer ++ segment = buffer at hsmall hend hfuture hpassed ⊢
  rw [hplace] at hend
  rcases hend with hbound | hwaits
  · obtain ⟨whole, rest, rfl, hn⟩ := hbound.between
    have hheld := held_of_start hfuture out.memory
    rw [WireRequest.concat_append] at hheld
    refine ⟨⟨hpassed, ?_⟩, ?_⟩
    · intro r hr
      have hitem := parseReq_whole hn hsmall hheld.left cfg.useBinary out.header r
        (mem_parsedBatch hsmall hfresh.1 hfresh.2 hr)
      rw [hplace]
      exact hitem.shift
    · intro s' hs'
      obtain ⟨got, hgot, rfl⟩ := Option.map_eq_some_iff.mp hs'
      refine ⟨(readEvent_fresh cfg out buffer hfresh).result got hgot, ?_⟩
      rcases readEvent_left hsmall hgot with hkept | hdrained
      · refine ⟨before, whole ++ rest, rfl, ?_, ?_⟩
        · simp [hkept, hplace]
        · rw [hkept]
          exact hfuture
      · refine ⟨before ++ whole, rest, by simp, ?_, ?_⟩
        · simp [hdrained, hplace, hn]
        · -- the buffer was those requests
          rw [WireRequest.concat_append] at hfuture
          obtain ⟨tail, htail⟩ := hfuture
          rw [List.append_assoc] at htail
          obtain ⟨_, hnext⟩ := List.append_inj htail hn
          rw [hdrained, List.nil_append]
          exact ⟨tail, hnext⟩
  · obtain ⟨hnothing, hevent⟩ := readEvent_waits hsmall hfuture hwaits hfresh out
    rw [hevent, hnothing]
    refine ⟨⟨rfl, by simp⟩, ?_⟩
    intro s' hs'
    obtain rfl := Option.some.inj hs'
    refine ⟨⟨rfl, rfl⟩, before, after, rfl, ?_, hfuture⟩
    simp [hplace]

/-- **No phantom requests.**  In a run whose events are framed, every request
that an event passes to `createReqGroup` is one of the stream, at its place. -/
theorem requests_genuine (cfg : ProxyConfig) {ps : List WireRequest} {events : List ThreadEvent}
    (hstream : (segments events).flatten <+: WireRequest.concat ps) {w : Worker} (hw : w.Fresh)
    (hframed : Steps.EveryStep (streamStep cfg) (Framed cfg ps) ⟨0, [], w⟩ events) :
    Steps.EveryStep (streamStep cfg) (Genuine cfg ps) ⟨0, [], w⟩ events := by
  have hrun : ∀ s, InStream ps (segments events).flatten s →
      Steps.EveryStep (streamStep cfg) (Framed cfg ps) s events →
      Steps.EveryStep (streamStep cfg) (Genuine cfg ps) s events := by
    clear hstream hframed
    induction events with
    | nil => exact fun _ _ _ => trivial
    | cons ev events ih =>
        intro s hs hframed
        obtain ⟨hhere, hlater⟩ := hframed
        cases ev with
        | mine segment out =>
            obtain ⟨hgenuine, hnext⟩ := InStream.mine hs hhere
            exact ⟨hgenuine, fun s' hs' => ih s' (hnext s' hs') (hlater s' hs')⟩
        | other foreign out =>
            refine ⟨trivial, fun s' hs' => ih s' ?_ (hlater s' hs')⟩
            simp only [streamStep] at hs'
            obtain ⟨got, hgot, rfl⟩ := Option.map_eq_some_iff.mp hs'
            exact ⟨(readEvent_fresh cfg out foreign hs.fresh).result got hgot, hs.place⟩
  exact hrun ⟨0, [], w⟩ ⟨hw, [], ps, rfl, rfl, hstream⟩ hframed

/-- A set of `"k"` to a value that looks like a get of `"a"`. -/
def storeRequest : WireRequest where
  bytes := [0x80, 1, 0, 1, 8, 0, 0, 0, 0, 0, 0, 34, 0, 0, 0, 0, 0, 0, 0, 0, 0, 0, 0, 0,
    0, 0, 0, 0, 0, 0, 0, 0, 107] ++ (getPacket 97).bytes
  header_le := by decide
  magic_eq := by decide
  body_eq := by decide

/-- A request for the version, which the proxy does not support. -/
def versionRequest : WireRequest where
  bytes := [0x80, 11, 0, 0, 0, 0, 0, 0, 0, 0, 0, 0, 0, 0, 0, 0, 0, 0, 0, 0, 0, 0, 0, 0]
  header_le := by decide
  magic_eq := by decide
  body_eq := by decide

/-- A thread that has served nothing. -/
def idleClient : ClientState := ⟨0, [], ⟨.new (fun _ => 0), 0, []⟩⟩

/-- The set in two segments. -/
theorem requests_genuine_two_segments :
    Steps.EveryStep (streamStep .default) (Genuine .default [storeRequest]) idleClient
      [.mine (storeRequest.bytes.take 40) silentHost,
        .mine (storeRequest.bytes.drop 40) silentHost] := by
  have hwaits : Waits .default [storeRequest] 0 40 := by
    refine ⟨rfl, by decide, [], [], storeRequest, [], rfl, rfl, by simp, by decide, by decide, ?_⟩
    exact Or.inr ⟨⟨_, rfl⟩, by decide, Or.inl (by decide)⟩
  have hprefix : storeRequest.bytes.take 40 ++ [] <+: WireRequest.concat [storeRequest] := by
    decide
  have hfresh : idleClient.worker.Fresh := ⟨rfl, rfl⟩
  have hpart : Waits .default ([] ++ [storeRequest]) (WireRequest.concat []).length
      (storeRequest.bytes.take 40).length := hwaits
  obtain ⟨_, hevent⟩ := readEvent_waits (by decide) hprefix hpart hfresh silentHost
  have hstep : streamStep .default idleClient (.mine (storeRequest.bytes.take 40) silentHost) =
      some ⟨0, storeRequest.bytes.take 40, ⟨.new (fun _ => 0), 0, []⟩⟩ := by
    rw [streamStep, show idleClient.buffer ++ storeRequest.bytes.take 40 =
      storeRequest.bytes.take 40 from rfl, hevent]
    rfl
  refine requests_genuine .default (by decide) hfresh ⟨⟨by decide, Or.inr hwaits⟩, ?_⟩
  intro s' hs'
  obtain rfl := Option.some.inj (hstep.symm.trans hs')
  exact ⟨⟨by decide, Or.inl ⟨[storeRequest], [], rfl, by decide⟩⟩, fun _ _ => trivial⟩

/-- **A stored value is taken for a request.**  The first segment ends inside the
set, and is drained because of the request in front of it; the second is the
value. -/
theorem value_taken_for_request :
    ¬ Steps.EveryStep (streamStep .default) (Genuine .default [versionRequest, storeRequest])
      idleClient
      [.mine (versionRequest.bytes ++ storeRequest.bytes.take 33) silentHost,
        .mine (storeRequest.bytes.drop 33) silentHost] := by
  intro hall
  have hfresh : idleClient.worker.Fresh := ⟨rfl, rfl⟩
  -- the first event fails on the opcode and drains both parts
  have hfirst : parseReq ProxyConfig.default.useBinary silentHost.header (ByteMem.ofList
      (versionRequest.bytes ++ storeRequest.bytes.take 33) silentHost.memory)
      (versionRequest.bytes ++ storeRequest.bytes.take 33).length 0 [] = some (.error, 0, []) := by
    decide +kernel
  have hstep : streamStep .default idleClient
      (.mine (versionRequest.bytes ++ storeRequest.bytes.take 33) silentHost) =
        some ⟨57, [], ⟨.new (fun _ => 0), 0, []⟩⟩ := by
    have hevent : readEvent .default silentHost
        (versionRequest.bytes ++ storeRequest.bytes.take 33) idleClient.worker = _ :=
      readEvent_of_fits hfresh (by decide) (by decide) hfirst
    rw [streamStep, show idleClient.buffer ++ (versionRequest.bytes ++ storeRequest.bytes.take 33) =
      versionRequest.bytes ++ storeRequest.bytes.take 33 from rfl, hevent]
    rfl
  obtain ⟨hgenuine, _⟩ := hall.2 _ hstep
  have hsecond : reqItem true 0 (getPacket 97).header ⟨false, false, 0, false⟩ ∈
      passedItems .default silentHost (storeRequest.bytes.drop 33) ⟨.new (fun _ => 0), 0, []⟩ := by
    decide +kernel
  obtain ⟨before, p, after, hsplit, hplace, _⟩ := hgenuine.2 _ hsecond
  -- no request begins at offset 57
  rcases before with _ | ⟨x, _ | ⟨y, before⟩⟩
  · simp [reqItem] at hplace
  · obtain ⟨rfl, _⟩ := List.cons.inj hsplit
    exact absurd hplace (by decide)
  · simp at hsplit

end KvProxy
