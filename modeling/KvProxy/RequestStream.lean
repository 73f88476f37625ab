import KvProxy.Packet
import KvProxy.ReadEvent

/-!
# A client's byte stream and the requests taken from it

A client sends runs of requests, each a number of quiet gets and one request
of another kind.  The bytes arrive in segments; each read event sees what has
accumulated since the last drain.

`parse_req` returns after the first request that is not a quiet get, and the
event then drains everything it has seen.  So bytes of the next run that have
already arrived are lost with it, and a last request that is taken for
complete too early is passed on with whatever lies behind the received bytes.

* `run_batch` — what `parse_req` makes of the first `n` bytes of a run;
* `readEvent_run` — what an event makes of them;
* `requests_passed_once` — if every event sees a part of one run, and cuts
  its last request at no length at which it passes for complete, each request
  is passed on once and in order;
* `pipelined_request_lost` — two gets in one segment.
-/

namespace KvProxy

open MachineInt

/-- Quiet gets and the request that ends them. -/
structure RequestRun where
  quiet : List (Packet magicReq)
  last : Packet magicReq
  quiet_getkq : ∀ q ∈ quiet, q.opcode = cmdGetkq
  last_forwarded : ∃ flags, dispatch last.opcode = .ok flags ∧ flags.isAgin = false

namespace RequestRun

/-- The requests of a run, in order. -/
def packets (r : RequestRun) : List (Packet magicReq) := r.quiet ++ [r.last]

/-- The bytes of a run. -/
def bytes (r : RequestRun) : List UInt8 := Packet.concat r.packets

/-- The requests of a run as byte strings. -/
def requests (r : RequestRun) : List (List UInt8) := r.packets.map Packet.bytes

/-- If the first `n` bytes of the run end inside its last request, behind the
header, they are fewer than that request has. -/
def SafeCut (r : RequestRun) (n : Nat) : Prop :=
  (Packet.concat r.quiet).length + 24 ≤ n → n < r.bytes.length → n < r.last.length

instance (r : RequestRun) (n : Nat) : Decidable (r.SafeCut n) := by
  unfold SafeCut
  infer_instance

end RequestRun

/-! ## Parsing the first bytes of a run -/

theorem dispatch_getkq : dispatch cmdGetkq = .ok ⟨false, false, 0, true⟩ := by decide

/-- A pass that finds less than a header. -/
theorem parseReqBody_short {m : ByteMem} {n o : Nat} (ho : o < n) (hshort : n < o + 24)
    {s : ReqLoop} (hpos : s.position = o) : (parseReqBody m n true s).1 = some .again := by
  have hint : int32 ((n : Int) - s.position) = (n : Int) - o := by
    rw [hpos, int32_eq_self (by omega) (by omega)]
  have hread : readRequest m n true s.header s.position = (0, s.header) := by
    have hlt : int32 ((n : Int) - s.position) < 24 := by omega
    simp [readRequest, tryReadRequestBinary, tryReadBinary, hlt]
  unfold parseReqBody
  rw [if_pos (by omega)]
  simp [hread]

/-- A pass that finds less than a header, or a header and fewer bytes in all
than the request has. -/
theorem parseReqBody_waits {m : ByteMem} {n o : Nat} (hn : n < 2147483648) (ho : o < n)
    (p : Packet magicReq) (hheld : Held m o n p.bytes) {flags : ReqFlags}
    (hforward : dispatch p.opcode = .ok flags)
    (hpart : n < o + 24 ∨ (o + 24 ≤ n ∧ n < p.length)) {s : ReqLoop} (hpos : s.position = o) :
    (parseReqBody m n true s).1 = some .again := by
  rcases hpart with hshort | ⟨hhead, hbody⟩
  · exact parseReqBody_short ho hshort hpos
  · have hrem : int32 ((n : Int) - s.position) > 0 := by
      rw [hpos, int32_eq_self (by omega) (by omega)]
      omega
    have hread : readRequest m n true s.header s.position = (1, p.header) := by
      rw [hpos]
      exact tryReadBinary_packet p hheld hhead hn s.header
    have hlong : (n : Int) < packetLen true p.header := by
      rw [Packet.packetLen_header]
      omega
    have hop : dispatch p.header.opcode = .ok flags := hforward
    unfold parseReqBody
    rw [if_pos hrem]
    simp [hread, hop, hlong]

/-- A pass that takes a request, complete or not. -/
theorem parseReqBody_takes {m : ByteMem} {n o : Nat} (hn : n < 2147483648)
    (p : Packet magicReq) (hheld : Held m o n p.bytes) {flags : ReqFlags}
    (hforward : dispatch p.opcode = .ok flags) (hhead : o + 24 ≤ n) (hfit : p.length ≤ n)
    (hend : o + p.length < 2147483648) {s : ReqLoop} (hpos : s.position = o) :
    parseReqBody m n true s =
      (if flags.isAgin then none else some .success,
        ⟨((o + p.length : Nat) : Int), s.reqData ++ [reqItem true o p.header flags],
          flags.isAgin, p.header⟩) := by
  have hlen := p.packetLen_header
  have hacc : ReqAccepted m n true s.header s.position p.header flags := by
    refine ⟨?_, ?_, hforward, ?_⟩
    · rw [hpos, int32_eq_self (by omega) (by omega)]
      omega
    · rw [hpos]
      exact tryReadBinary_packet p hheld hhead hn s.header
    · rw [hlen]
      omega
  rw [parseReqBody_of_accepted hacc, hpos, hlen, int32_eq_self (by omega) (by omega)]
  rfl

/-- A pass with nothing left. -/
theorem parseReqBody_done {m : ByteMem} {size : Int} {isBinary : Bool} {s : ReqLoop}
    (hnone : ¬ int32 (size - s.position) > 0) :
    parseReqBody m size isBinary s = (some (if s.isAgin then .again else .success), s) := by
  unfold parseReqBody
  rw [if_neg hnone]

/-- A pass behind the received bytes. -/
theorem parseReqBody_behind {m : ByteMem} {n o : Nat} (ho : n ≤ o) (hsmall : o < 2147483648)
    {s : ReqLoop} (hpos : s.position = o) :
    parseReqBody m n true s = (some (if s.isAgin then .again else .success), s) := by
  apply parseReqBody_done
  rw [hpos, int32_eq_self (by omega) (by omega)]
  omega

/-- The bytes of the item made of a request. -/
theorem reqItem_bytes {m : ByteMem} {o n : Nat} (p : Packet magicReq) (flags : ReqFlags)
    (hheld : Held m o n p.bytes) (hfit : o + p.length ≤ n) :
    (reqItem true o p.header flags).bytes m = p.bytes := by
  have hlt : p.length < 2147483648 := p.length_lt
  have hu := uint32_eq_self (x := (p.length : Int)) (by omega) (by omega)
  have hlen : uint32 (packetLen true p.header) = p.bytes.length := by
    rw [Packet.packetLen_header]
    have heq : p.length = p.bytes.length := rfl
    omega
  simp only [Req.bytes, reqItem, hlen]
  exact hheld.slice hfit

/-- What `parse_req` makes of requests from offset `o` on, of which the first
`n` bytes are there: it asks for more until all of them are complete, and then
yields them behind the items it has. -/
def ParsesBatch (m : ByteMem) (o n : Nat) (ps : List (Packet magicReq)) (before : List Req)
    (out : Option (ExtRet × ReqLoop)) : Prop :=
  ∃ code u, out = some (code, u) ∧
    (n < o + (Packet.concat ps).length → code = .again) ∧
    (n = o + (Packet.concat ps).length → code = .success ∧
      u.reqData.map (fun r => r.bytes m) =
        before.map (fun r => r.bytes m) ++ ps.map Packet.bytes)

theorem ParsesBatch.of_again {m : ByteMem} {o n : Nat} {ps : List (Packet magicReq)}
    {before : List Req} {u : ReqLoop} (hshort : n < o + (Packet.concat ps).length) :
    ParsesBatch m o n ps before (some (.again, u)) := by
  refine ⟨.again, u, rfl, fun _ => rfl, ?_⟩
  intro hn
  omega

/-- A request that is not complete makes the parser ask for more. -/
theorem parsesBatch_of_waits {m : ByteMem} {n o : Nat} (hn : n < 2147483648) (ho : o < n)
    {p : Packet magicReq} {ps : List (Packet magicReq)}
    (hheld : Held m o n (Packet.concat (p :: ps))) {flags : ReqFlags}
    (hforward : dispatch p.opcode = .ok flags)
    (hpart : n < o + 24 ∨ (o + 24 ≤ n ∧ n < p.length)) {s : ReqLoop} (hpos : s.position = o)
    (fuel : Nat) :
    ParsesBatch m o n (p :: ps) s.reqData (Loop.run (parseReqBody m n true) (fuel + 1) s) := by
  have hle : 24 ≤ p.length := p.header_le
  have hwait := parseReqBody_waits hn ho p hheld.left hforward hpart hpos
  have hleave : parseReqBody m n true s = (some .again, (parseReqBody m n true s).2) :=
    Prod.ext hwait rfl
  rw [Loop.run_leave fuel hleave]
  apply ParsesBatch.of_again
  rw [Packet.length_concat_cons]
  omega

/-- Behind the received bytes the parser asks for more, if the last request it
took did. -/
theorem parsesBatch_of_behind {m : ByteMem} {n o : Nat} (ho : n ≤ o) (hsmall : o < 2147483648)
    {ps : List (Packet magicReq)} (hshort : n < o + (Packet.concat ps).length) {s : ReqLoop}
    (hpos : s.position = o) (hagin : s.isAgin = true) (fuel : Nat) :
    ParsesBatch m o n ps s.reqData (Loop.run (parseReqBody m n true) (fuel + 1) s) := by
  have hleave := parseReqBody_behind (m := m) ho hsmall hpos
  rw [hagin] at hleave
  rw [Loop.run_leave fuel hleave]
  exact .of_again hshort

/-- The last request, when all of it is there. -/
theorem parsesBatch_last {m : ByteMem} {n o : Nat} {last : Packet magicReq} {flags : ReqFlags}
    (hlast : dispatch last.opcode = .ok flags) (hplain : flags.isAgin = false)
    (hheld : Held m o n last.bytes) (hn : n = o + last.length) (hsmall : n < 2147483648)
    {s : ReqLoop} (hpos : s.position = o) (fuel : Nat) :
    ParsesBatch m o n [last] s.reqData (Loop.run (parseReqBody m n true) (fuel + 1) s) := by
  have hle : 24 ≤ last.length := last.header_le
  have htaken := parseReqBody_takes hsmall last hheld hlast (by omega) (by omega) (by omega) hpos
  rw [hplain] at htaken
  refine ⟨.success, _, Loop.run_leave fuel htaken, ?_, ?_⟩
  · intro hshort
    simp only [Packet.length_concat_cons, Packet.concat_nil, List.length_nil] at hshort
    omega
  · intro _
    refine ⟨rfl, ?_⟩
    rw [List.map_append, List.map_cons, List.map_nil, reqItem_bytes last flags hheld (by omega)]
    rfl

/-- A request in front of a batch that is parsed. -/
theorem ParsesBatch.cons {m : ByteMem} {o n : Nat} {q : Packet magicReq} {flags : ReqFlags}
    (hheld : Held m o n q.bytes) {ps : List (Packet magicReq)} {before : List Req}
    {out : Option (ExtRet × ReqLoop)}
    (h : ParsesBatch m (o + q.length) n ps (before ++ [reqItem true o q.header flags]) out) :
    ParsesBatch m o n (q :: ps) before out := by
  obtain ⟨code, u, hout, hagain, hdone⟩ := h
  refine ⟨code, u, hout, ?_, ?_⟩
  · intro hshort
    apply hagain
    rw [Packet.length_concat_cons] at hshort
    omega
  · intro hn
    rw [Packet.length_concat_cons] at hn
    obtain ⟨hcode, hitems⟩ := hdone (by omega)
    refine ⟨hcode, ?_⟩
    rw [hitems, List.map_append, List.map_cons, List.map_nil,
      reqItem_bytes q _ hheld (by omega), List.append_assoc]
    rfl

/-- **`parse_req` on the first `n` bytes of a run.** -/
theorem run_batch {m : ByteMem} {n : Nat} {last : Packet magicReq} {flags : ReqFlags}
    (hlast : dispatch last.opcode = .ok flags) (hplain : flags.isAgin = false)
    (quiet : List (Packet magicReq)) (hquiet : ∀ q ∈ quiet, q.opcode = cmdGetkq)
    {o fuel : Nat} {s : ReqLoop} (hpos : s.position = o) (hagin : n ≤ o → s.isAgin = true)
    (hheld : Held m o n (Packet.concat (quiet ++ [last])))
    (hend : n ≤ o + (Packet.concat (quiet ++ [last])).length)
    (hsmall : o + (Packet.concat (quiet ++ [last])).length < 2147483648)
    (hsafe : o + (Packet.concat quiet).length + 24 ≤ n →
      n < o + (Packet.concat (quiet ++ [last])).length → n < last.length)
    (hfuel : quiet.length < fuel) :
    ParsesBatch m o n (quiet ++ [last]) s.reqData
      (Loop.run (parseReqBody m n true) fuel s) := by
  induction quiet generalizing o fuel s with
  | nil =>
      obtain ⟨fuel, rfl⟩ : ∃ k, fuel = k + 1 := ⟨fuel - 1, by omega⟩
      have hle : 24 ≤ last.length := last.header_le
      have hlen : (Packet.concat ([] ++ [last])).length = last.length := by
        simp [Packet.length]
      rw [hlen] at hend hsmall hsafe
      simp only [Packet.concat_nil, List.length_nil, Nat.add_zero] at hsafe
      by_cases ho : n ≤ o
      · exact parsesBatch_of_behind ho (by omega) (by omega) hpos (hagin ho) fuel
      · by_cases htake : o + 24 ≤ n ∧ last.length ≤ n
        · -- by `hsafe` the request is complete, and it is the last
          have hn : n = o + last.length := by
            by_contra hne
            have := hsafe htake.1 (by omega)
            omega
          exact parsesBatch_last hlast hplain hheld.left hn (by omega) hpos fuel
        · exact parsesBatch_of_waits (by omega) (by omega) hheld hlast (by omega) hpos fuel
  | cons q qs ih =>
      obtain ⟨fuel, rfl⟩ : ∃ k, fuel = k + 1 := ⟨fuel - 1, by omega⟩
      rw [List.length_cons] at hfuel
      have hle : 24 ≤ q.length := q.header_le
      have hop : dispatch q.opcode = .ok ⟨false, false, 0, true⟩ := by
        rw [hquiet q List.mem_cons_self]
        exact dispatch_getkq
      have hhere : Held m o n q.bytes := hheld.left
      rw [List.cons_append, Packet.length_concat_cons] at hend hsmall hsafe
      rw [Packet.length_concat_cons] at hsafe
      by_cases ho : n ≤ o
      · apply parsesBatch_of_behind ho (by omega) _ hpos (hagin ho) fuel
        rw [List.cons_append, Packet.length_concat_cons]
        omega
      · by_cases htake : o + 24 ≤ n ∧ q.length ≤ n
        · have htaken := parseReqBody_takes (by omega) q hhere hop htake.1 htake.2
            (by omega) hpos
          rw [Loop.run_pass fuel htaken]
          have hright : Held m (o + q.length) n (Packet.concat (qs ++ [last])) := hheld.right
          apply ParsesBatch.cons hhere
          exact ih (fun p hp => hquiet p (List.mem_cons_of_mem _ hp))
            (s := ⟨((o + q.length : Nat) : Int),
              s.reqData ++ [reqItem true o q.header ⟨false, false, 0, true⟩], true, q.header⟩)
            rfl (fun _ => rfl) hright (by omega) (by omega) (by omega)
            (show qs.length < fuel by omega)
        · exact parsesBatch_of_waits (by omega) (by omega) hheld hop (by omega) hpos fuel

/-- A run starts with the magic byte of a request. -/
theorem RequestRun.first_byte (r : RequestRun) {m : ByteMem} {n : Nat}
    (hheld : Held m 0 n r.bytes) (hn : 0 < n) : m 0 = magicReq := by
  unfold RequestRun.bytes RequestRun.packets at hheld
  cases hquiet : r.quiet with
  | nil =>
      rw [hquiet] at hheld
      exact Held.first_byte r.last hheld.left hn
  | cons q qs =>
      rw [hquiet] at hheld
      exact Held.first_byte q hheld.left hn

/-- `parse_req` on the first `n` bytes of a run, called as an event calls it. -/
theorem parseReq_run (r : RequestRun) {m : ByteMem} {n : Nat} (hn : 0 < n)
    (hle : n ≤ r.bytes.length) (hsmall : r.bytes.length < 2147483648)
    (hheld : Held m 0 n r.bytes) (hsafe : r.SafeCut n) (header : MemcachedHeader) :
    ∃ code pos items, parseReq true header m n 0 [] = some (code, pos, items) ∧
      (n < r.bytes.length → code = .again) ∧
      (n = r.bytes.length → code = .success ∧
        items.map (fun q => q.bytes m) = r.requests) := by
  have hbin : isBinaryProtocol m = true := by
    simp [isBinaryProtocol, r.first_byte hheld hn]
  obtain ⟨flags, hforward, hplain⟩ := r.last_forwarded
  have hcount : 24 * r.packets.length ≤ r.bytes.length := length_le_concat r.packets
  have hpackets : r.packets.length = r.quiet.length + 1 := by simp [RequestRun.packets]
  obtain ⟨code, u, hrun, hagain, hdone⟩ := run_batch hforward hplain r.quiet r.quiet_getkq
    (m := m) (n := n) (o := 0) (s := ⟨0, [], false, header⟩) rfl (fun h => by omega) hheld
    (by simpa [RequestRun.bytes, RequestRun.packets] using hle)
    (by simpa [RequestRun.bytes, RequestRun.packets] using hsmall)
    (by simpa [RequestRun.SafeCut, RequestRun.bytes, RequestRun.packets] using hsafe)
    (show r.quiet.length < loopFuel by unfold loopFuel; omega)
  refine ⟨code, u.position, u.reqData, ?_, ?_, ?_⟩
  · unfold parseReq
    simp only [hbin]
    rw [if_neg (by simp), hrun, Option.map_some]
  · intro hshort
    exact hagain (by rw [Nat.zero_add]; exact hshort)
  · intro hall
    exact hdone (by rw [Nat.zero_add]; exact hall)

/-! ## One event -/

/-- **One event on the first `n` bytes of a run.**  The bytes stay in the
buffer until the run is complete; then its requests are passed on and the
buffer is empty. -/
theorem readEvent_run {cfg : ProxyConfig} {out : Outside} (hbin : cfg.useBinary = true)
    (hreturn : out.HostsReturn cfg) (r : RequestRun) (hfits : r.bytes.length ≤ cfg.reqBufSize)
    {n : Nat} (hn : 0 < n) (hle : n ≤ r.bytes.length) (hsafe : r.SafeCut n) {w : Worker}
    (hw : w.Fresh) :
    (n < r.bytes.length → Passes (readEvent cfg out (r.bytes.take n) w) [] ∧
      ∀ got, (readEvent cfg out (r.bytes.take n) w).result = some got →
        got.1 = r.bytes.take n) ∧
    (n = r.bytes.length → Passes (readEvent cfg out (r.bytes.take n) w) r.requests ∧
      ∀ got, (readEvent cfg out (r.bytes.take n) w).result = some got → got.1 = []) := by
  have hsize := cfg.reqBufSize_lt
  have hlen : (r.bytes.take n).length = n := by
    rw [List.length_take]
    omega
  have hheld : Held (ByteMem.ofList (r.bytes.take n) out.memory) 0 n r.bytes := by
    rw [← ByteMem.write_zero]
    exact held_write _ _ _
  obtain ⟨code, pos, items, hparse, hagain, hdone⟩ :=
    parseReq_run r hn hle (by omega) hheld hsafe out.header
  have hstatus : (ByteMem.ofList (r.bytes.take n) out.memory).slice 0 6 ≠ statusCmd := by
    intro heq
    rw [ByteMem.slice_succ, r.first_byte hheld hn] at heq
    exact absurd (List.cons.inj heq).1 (by decide)
  have hevent : readEvent cfg out (r.bytes.take n) w =
      finishEvent cfg out (r.bytes.take n) n w.thread code items := by
    have hparse' : parseReq cfg.useBinary out.header
        (ByteMem.ofList (r.bytes.take n) out.memory) (r.bytes.take n).length 0 [] =
          some (code, pos, items) := by
      rw [hlen, hbin]
      exact hparse
    rw [readEvent_of_fits hw (by omega) hstatus hparse', hlen]
  rw [hevent]
  constructor
  · intro hshort
    rw [hagain hshort]
    refine ⟨.pure _, ?_⟩
    intro got hgot
    obtain rfl := Option.some.inj hgot
    rfl
  · intro hall
    obtain ⟨hcode, hitems⟩ := hdone hall
    rw [hcode]
    have hserve := serveBatch_passes hreturn (ByteMem.ofList (r.bytes.take n) out.memory) items
      w.thread
    rw [hitems] at hserve
    have hdrain : (r.bytes.take n).drop (uint32 (n : Int)) = [] := by
      apply List.drop_eq_nil_of_le
      have := uint32_eq_self (x := (n : Int)) (by omega) (by omega)
      omega
    constructor
    · have hpass := hserve.bind (fun t _ =>
        Passes.pure ((r.bytes.take n).drop (uint32 (n : Int)), (⟨t, 0, []⟩ : Worker)))
      rwa [List.append_nil] at hpass
    · intro got hgot
      obtain ⟨t, _, hlast, _⟩ := Act.bind_result_some hgot
      obtain rfl := Option.some.inj hlast
      exact hdrain

/-- An event that finds nothing in the buffer passes nothing on. -/
theorem readEvent_empty {cfg : ProxyConfig} {out : Outside} (hreturn : out.HostsReturn cfg)
    {w : Worker} (hw : w.Fresh) :
    Passes (readEvent cfg out [] w) [] ∧
      ∀ got, (readEvent cfg out [] w).result = some got → got.1 = [] := by
  by_cases hstatus : (ByteMem.ofList [] out.memory).slice 0 6 = statusCmd
  · have hevent : readEvent cfg out [] w = ⟨[.reply out.status], some ([], w)⟩ := by
      have hroom : ¬ ((0 : Int) > fastBuffSize ∧ (0 : Int) > cfg.reqBufSize) := by
        intro h
        exact absurd h.1 (by decide)
      have hzero : int32 (([] : List UInt8).length : Int) = 0 := by decide
      have hcopied : copiedLen [] = 0 := by decide
      rw [readEvent_eq, hzero, hcopied, if_neg hroom, if_pos ⟨hstatus, by decide⟩]
      simp
    rw [hevent]
    refine ⟨⟨rfl, rfl⟩, ?_⟩
    intro got hgot
    obtain rfl := Option.some.inj hgot
    rfl
  · -- without a byte the parser fails on the protocol, or has nothing to do
    obtain ⟨code, hcode, hparse⟩ : ∃ code, (code = .error ∨ code = .success) ∧
        parseReq cfg.useBinary out.header (ByteMem.ofList [] out.memory)
          ([] : List UInt8).length 0 [] = some (code, 0, []) := by
      unfold parseReq
      by_cases hproto : cfg.useBinary ≠ isBinaryProtocol (ByteMem.ofList [] out.memory)
      · exact ⟨.error, Or.inl rfl, by simp [hproto]⟩
      · refine ⟨.success, Or.inr rfl, ?_⟩
        have hleave : parseReqBody (ByteMem.ofList [] out.memory) ([] : List UInt8).length
            (isBinaryProtocol (ByteMem.ofList [] out.memory)) ⟨0, [], false, out.header⟩ =
              (some .success, ⟨0, [], false, out.header⟩) := by
          have hnone : ¬ int32 ((([] : List UInt8).length : Int) - 0) > 0 := by decide
          exact if_neg hnone
        have hrun := Loop.run_leave 4294967296 hleave
        simp only
        rw [if_neg hproto]
        simp only [loopFuel]
        rw [hrun, Option.map_some]
    rw [readEvent_of_fits hw (by simp) hstatus hparse]
    rcases hcode with rfl | rfl
    · refine ⟨.pure _, ?_⟩
      intro got hgot
      obtain rfl := Option.some.inj hgot
      rfl
    · have hserve := serveBatch_passes hreturn (ByteMem.ofList [] out.memory) [] w.thread
      constructor
      · exact hserve.bind (fun t _ => Passes.pure ([], (⟨t, 0, []⟩ : Worker)))
      · intro got hgot
        obtain ⟨t, _, hlast, _⟩ := Act.bind_result_some hgot
        obtain rfl := Option.some.inj hlast
        rfl

/-! ## All events of a thread -/

/-- An event of a thread: a segment of the client's stream arrives, or another
connection of the thread is read. -/
inductive ThreadEvent where
  | mine (segment : List UInt8) (out : Outside)
  | other (buffer : List UInt8) (out : Outside)

/-- The events of a thread, on the input buffer of the client's connection; an
effect tells whether it belongs to that connection. -/
def runEvents (cfg : ProxyConfig) :
    List ThreadEvent → List UInt8 → Worker → Act (Bool × ProxyEffect) (List UInt8 × Worker)
  | [], buffer, w => pure (buffer, w)
  | .mine segment out :: rest, buffer, w => do
      let got ← (readEvent cfg out (buffer ++ segment) w).label (Prod.mk true)
      runEvents cfg rest got.1 got.2
  | .other foreign out :: rest, buffer, w => do
      let got ← (readEvent cfg out foreign w).label (Prod.mk false)
      runEvents cfg rest buffer got.2

/-- The segments in which the client's stream arrives. -/
def segments : List ThreadEvent → List (List UInt8)
  | [] => []
  | .mine segment _ :: rest => segment :: segments rest
  | .other _ _ :: rest => segments rest

/-- The requests of the client that are passed to `createReqGroup`. -/
def clientRequests (effects : List (Bool × ProxyEffect)) : List (List UInt8) :=
  passedRequests (effects.filterMap (fun e => if e.1 then some e.2 else none))

/-- An event comes to its end: the hosts it talks to do not keep the response
parser for ever, nor does another connection the request parser. -/
def ThreadEvent.Returns (cfg : ProxyConfig) : ThreadEvent → Prop
  | .mine _ out => out.HostsReturn cfg
  | .other foreign out => ∀ w : Worker, w.Fresh → (readEvent cfg out foreign w).result.isSome

/-- Every event sees a part of one run only, at a safe cut; `n` bytes of the
first run are in the buffer. -/
def SegmentsSafe : List RequestRun → Nat → List (List UInt8) → Prop
  | _, _, [] => True
  | [], n, _ :: rest => SegmentsSafe [] n rest
  | r :: rs, n, segment :: rest =>
      n + segment.length ≤ r.bytes.length ∧ r.SafeCut (n + segment.length) ∧
        if n + segment.length = r.bytes.length then SegmentsSafe rs 0 rest
        else SegmentsSafe (r :: rs) (n + segment.length) rest

/-- The buffer between two events: the first `n` bytes of the next run. -/
inductive Pending : List RequestRun → Nat → List UInt8 → Prop
  | done : Pending [] 0 []
  | within {r : RequestRun} {rs : List RequestRun} {n : Nat} (h : n < r.bytes.length) :
      Pending (r :: rs) n (r.bytes.take n)

theorem RequestRun.bytes_pos (r : RequestRun) : 0 < r.bytes.length := by
  have hcount : 24 * r.packets.length ≤ r.bytes.length := length_le_concat r.packets
  have hpackets : r.packets.length = r.quiet.length + 1 := by simp [RequestRun.packets]
  omega

/-- Nothing of the next run is there. -/
theorem Pending.start (runs : List RequestRun) : Pending runs 0 [] := by
  cases runs with
  | nil => exact .done
  | cons r rs => exact .within r.bytes_pos

/-- **A segment arrives.**  Either its run is complete and passed on, or the
bytes are kept; in both cases the rest of the stream is still to come. -/
theorem readEvent_segment {cfg : ProxyConfig} {out : Outside} (hbin : cfg.useBinary = true)
    (hreturn : out.HostsReturn cfg) {runs : List RequestRun} {n : Nat} {buffer : List UInt8}
    (hpend : Pending runs n buffer) (hfits : ∀ r ∈ runs, r.bytes.length ≤ cfg.reqBufSize)
    {segment more : List UInt8} {rest : List (List UInt8)}
    (hstream : segment ++ more = (runs.flatMap RequestRun.bytes).drop n)
    (hsafe : SegmentsSafe runs n (segment :: rest)) {w : Worker} (hw : w.Fresh) :
    ∃ runs' n' passed, Passes (readEvent cfg out (buffer ++ segment) w) passed ∧
      (∀ got, (readEvent cfg out (buffer ++ segment) w).result = some got →
        Pending runs' n' got.1) ∧
      more = (runs'.flatMap RequestRun.bytes).drop n' ∧ SegmentsSafe runs' n' rest ∧
      runs.flatMap RequestRun.requests = passed ++ runs'.flatMap RequestRun.requests ∧
      ∀ r ∈ runs', r ∈ runs := by
  cases hpend with
  | done =>
      obtain ⟨rfl, rfl⟩ : segment = [] ∧ more = [] := by simpa using hstream
      obtain ⟨hpass, hleft⟩ := readEvent_empty hreturn hw
      refine ⟨[], 0, [], hpass, ?_, rfl, hsafe, rfl, fun _ h => h⟩
      intro got hgot
      rw [hleft got hgot]
      exact .done
  | @within r rs n h =>
      obtain ⟨hle, hcut, hnext⟩ := hsafe
      rw [List.flatMap_cons, List.drop_append_of_le_length (by omega)] at hstream
      -- the buffer is a longer start of the same run
      have hbuf : r.bytes.take n ++ segment = r.bytes.take (n + segment.length) := by
        have htake := congrArg (List.take segment.length) hstream
        rw [List.take_left, List.take_append_of_le_length (by rw [List.length_drop]; omega)] at htake
        rw [List.take_add, ← htake]
      have hmore : more = (r.bytes ++ rs.flatMap RequestRun.bytes).drop (n + segment.length) := by
        have hdrop := congrArg (List.drop segment.length) hstream
        rw [List.drop_left, ← List.drop_append_of_le_length (by omega), List.drop_drop] at hdrop
        exact hdrop
      rw [hbuf]
      by_cases hzero : n + segment.length = 0
      · obtain ⟨hpass, hleft⟩ := readEvent_empty hreturn hw
        rw [if_neg (by omega)] at hnext
        rw [hzero, List.take_zero]
        refine ⟨r :: rs, 0, [], hpass, ?_, ?_, ?_, rfl, fun _ h => h⟩
        · intro got hgot
          rw [hleft got hgot]
          exact .start _
        · rw [hmore, hzero]
          rfl
        · rw [← hzero]
          exact hnext
      · obtain ⟨hagain, hdone⟩ := readEvent_run hbin hreturn r (hfits r List.mem_cons_self)
          (Nat.pos_of_ne_zero hzero) hle hcut hw
        by_cases hfull : n + segment.length = r.bytes.length
        · obtain ⟨hpass, hleft⟩ := hdone hfull
          rw [if_pos hfull] at hnext
          refine ⟨rs, 0, r.requests, hpass, ?_, ?_, hnext, rfl,
            fun _ h => List.mem_cons_of_mem _ h⟩
          · intro got hgot
            rw [hleft got hgot]
            exact .start rs
          · rw [hmore, hfull, List.drop_left]
            rfl
        · obtain ⟨hpass, hleft⟩ := hagain (by omega)
          rw [if_neg hfull] at hnext
          refine ⟨r :: rs, n + segment.length, [], hpass, ?_, hmore, hnext, rfl, fun _ h => h⟩
          intro got hgot
          rw [hleft got hgot]
          exact .within (by omega)

theorem clientRequests_append (xs ys : List (Bool × ProxyEffect)) :
    clientRequests (xs ++ ys) = clientRequests xs ++ clientRequests ys := by
  simp [clientRequests]

theorem clientRequests_mine (xs : List ProxyEffect) :
    clientRequests (xs.map (Prod.mk true)) = passedRequests xs := by
  simp [clientRequests, List.filterMap_map]

theorem clientRequests_other (xs : List ProxyEffect) :
    clientRequests (xs.map (Prod.mk false)) = [] := by
  simp [clientRequests, List.filterMap_map, passedRequests]

theorem runEvents_mine {cfg : ProxyConfig} {segment buffer : List UInt8} {out : Outside}
    {w : Worker} {got : List UInt8 × Worker}
    (h : (readEvent cfg out (buffer ++ segment) w).result = some got) (rest : List ThreadEvent) :
    runEvents cfg (.mine segment out :: rest) buffer w =
      ⟨(readEvent cfg out (buffer ++ segment) w).effects.map (Prod.mk true) ++
        (runEvents cfg rest got.1 got.2).effects, (runEvents cfg rest got.1 got.2).result⟩ := by
  have hlabel : ((readEvent cfg out (buffer ++ segment) w).label (Prod.mk true)).result =
      some got := by
    rw [Act.label_result]
    exact h
  rw [runEvents, Act.bind_of_some _ hlabel, Act.label_effects]

theorem runEvents_other {cfg : ProxyConfig} {foreign buffer : List UInt8} {out : Outside}
    {w : Worker} {got : List UInt8 × Worker}
    (h : (readEvent cfg out foreign w).result = some got) (rest : List ThreadEvent) :
    runEvents cfg (.other foreign out :: rest) buffer w =
      ⟨(readEvent cfg out foreign w).effects.map (Prod.mk false) ++
        (runEvents cfg rest buffer got.2).effects, (runEvents cfg rest buffer got.2).result⟩ := by
  have hlabel : ((readEvent cfg out foreign w).label (Prod.mk false)).result = some got := by
    rw [Act.label_result]
    exact h
  rw [runEvents, Act.bind_of_some _ hlabel, Act.label_effects]

/-- The events of a thread that finds the buffer in the middle of a run. -/
theorem runEvents_passes {cfg : ProxyConfig} (hbin : cfg.useBinary = true)
    (events : List ThreadEvent) {runs : List RequestRun} {n : Nat} {buffer : List UInt8}
    {w : Worker} (hfits : ∀ r ∈ runs, r.bytes.length ≤ cfg.reqBufSize)
    (hpend : Pending runs n buffer)
    (hstream : (segments events).flatten = (runs.flatMap RequestRun.bytes).drop n)
    (hsafe : SegmentsSafe runs n (segments events))
    (hreturn : ∀ ev ∈ events, ev.Returns cfg) (hw : w.Fresh) :
    (runEvents cfg events buffer w).result.isSome ∧
      clientRequests (runEvents cfg events buffer w).effects =
        runs.flatMap RequestRun.requests := by
  induction events generalizing runs n buffer w with
  | nil =>
      -- the stream is over, so no run is left
      cases hpend with
      | done => exact ⟨rfl, rfl⟩
      | @within r rs n h =>
          have hover := List.drop_eq_nil_iff.mp hstream.symm
          rw [List.flatMap_cons, List.length_append] at hover
          omega
  | cons ev rest ih =>
      have hlater : ∀ ev' ∈ rest, ev'.Returns cfg :=
        fun ev' hmem => hreturn ev' (List.mem_cons_of_mem _ hmem)
      cases ev with
      | mine segment out =>
          obtain ⟨runs', n', passed, ⟨hres, hpass⟩, hbuffer, hmore, hnext, hall, hsub⟩ :=
            readEvent_segment hbin (hreturn _ List.mem_cons_self) hpend hfits hstream hsafe hw
          obtain ⟨got, hgot⟩ := Option.isSome_iff_exists.mp hres
          have hfresh := (readEvent_fresh cfg out (buffer ++ segment) hw).result got hgot
          obtain ⟨hdone, hrest⟩ := ih (fun r hr => hfits r (hsub r hr)) (hbuffer got hgot) hmore
            hnext hlater hfresh
          rw [runEvents_mine hgot]
          refine ⟨hdone, ?_⟩
          rw [clientRequests_append, clientRequests_mine, hpass, hrest, hall]
      | other foreign out =>
          obtain ⟨got, hgot⟩ := Option.isSome_iff_exists.mp (hreturn _ List.mem_cons_self w hw)
          have hfresh := (readEvent_fresh cfg out foreign hw).result got hgot
          obtain ⟨hdone, hrest⟩ := ih hfits hpend hstream hsafe hlater hfresh
          rw [runEvents_other hgot]
          refine ⟨hdone, ?_⟩
          rw [clientRequests_append, clientRequests_other, hrest, List.nil_append]

/-- All events return, and the requests they pass to `createReqGroup` are those
of the runs, each once and in order. -/
def PassedOnce (cfg : ProxyConfig) (runs : List RequestRun) (events : List ThreadEvent)
    (w : Worker) : Prop :=
  (runEvents cfg events [] w).result.isSome ∧
    clientRequests (runEvents cfg events [] w).effects = runs.flatMap RequestRun.requests

/-- **No request is lost or duplicated** as long as every event returns, sees a
part of one run only, and does not cut the last request of the run where it
passes for complete. -/
theorem requests_passed_once {cfg : ProxyConfig} (hbin : cfg.useBinary = true)
    (runs : List RequestRun) (hfits : ∀ r ∈ runs, r.bytes.length ≤ cfg.reqBufSize)
    (events : List ThreadEvent)
    (hstream : (segments events).flatten = runs.flatMap RequestRun.bytes)
    (hreturn : ∀ ev ∈ events, ev.Returns cfg) (hsafe : SegmentsSafe runs 0 (segments events))
    {w : Worker} (hw : w.Fresh) : PassedOnce cfg runs events w :=
  runEvents_passes hbin events hfits (.start runs) hstream hsafe hreturn hw

instance decidableSegmentsSafe :
    (runs : List RequestRun) → (n : Nat) → (segs : List (List UInt8)) →
      Decidable (SegmentsSafe runs n segs)
  | _, _, [] => isTrue trivial
  | [], n, _ :: rest => decidableSegmentsSafe [] n rest
  | r :: rs, n, segment :: rest =>
      have := decidableSegmentsSafe rs 0 rest
      have := decidableSegmentsSafe (r :: rs) (n + segment.length) rest
      inferInstanceAs (Decidable (_ ∧ _ ∧ ite _ _ _))

/-- A get of a key of one byte. -/
def getPacket (key : UInt8) : Packet magicReq where
  bytes := [0x80, 0, 0, 1, 0, 0, 0, 0, 0, 0, 0, 1, 0, 0, 0, 0, 0, 0, 0, 0, 0, 0, 0, 0, key]
  header_le := by simp
  length_lt := by simp
  magic_eq := rfl
  body_eq := by simp [be32, ByteMem.ofList]

/-- A quiet get of a key of one byte. -/
def quietPacket (key : UInt8) : Packet magicReq where
  bytes := [0x80, 13, 0, 1, 0, 0, 0, 0, 0, 0, 0, 1, 0, 0, 0, 0, 0, 0, 0, 0, 0, 0, 0, 0, key]
  header_le := by simp
  length_lt := by simp
  magic_eq := rfl
  body_eq := by simp [be32, ByteMem.ofList]

/-- A no-op. -/
def noopRequest : Packet magicReq where
  bytes := [0x80, 10, 0, 0, 0, 0, 0, 0, 0, 0, 0, 0, 0, 0, 0, 0, 0, 0, 0, 0, 0, 0, 0, 0]
  header_le := by decide
  length_lt := by decide
  magic_eq := rfl
  body_eq := rfl

/-- A get on its own. -/
def getRun (key : UInt8) : RequestRun where
  quiet := []
  last := getPacket key
  quiet_getkq := by simp
  last_forwarded := ⟨⟨false, false, 0, false⟩, rfl, rfl⟩

/-- A quiet get and a no-op. -/
def quietRun (key : UInt8) : RequestRun where
  quiet := [quietPacket key]
  last := noopRequest
  quiet_getkq := by
    intro q hq
    obtain rfl := List.mem_singleton.mp hq
    rfl
  last_forwarded := ⟨⟨false, true, endMark, false⟩, rfl, rfl⟩

/-- One host, which takes every message and says nothing. -/
def silentHost : Outside where
  hosts := ((HostTable.start ⟨[⟨"127.0.0.1".toList, 11211, 1, 1⟩], [], []⟩).map Prod.fst).getD .new
  memory := fun _ => 0
  header := ⟨0, 0, 0, 0⟩
  status := []
  asyncLen := 0
  groupIo := fun _ => ⟨5, [.sent 1000], [.selectTimeout]⟩
  syncIo := fun _ => ⟨5, [.sent 1000], [.selectTimeout]⟩

theorem silentHost_returns : silentHost.HostsReturn .default :=
  fun _ _ _ _ => ⟨rfl, rfl⟩

/-- Two runs in three segments, with an event of another connection between
the first two. -/
def inTurn : List ThreadEvent :=
  [.mine ((quietRun 97).bytes.take 10) silentHost, .other [1] silentHost,
    .mine ((quietRun 97).bytes.drop 10) silentHost, .mine (getRun 98).bytes silentHost]

theorem requests_passed_in_turn :
    PassedOnce .default [quietRun 97, getRun 98] inTurn ⟨.new (fun _ => 0), 0, []⟩ := by
  have hother : (ThreadEvent.other [1] silentHost).Returns .default := by
    intro w hw
    have hparse : parseReq true silentHost.header (ByteMem.ofList [1] silentHost.memory) 1 0 [] =
        some (.error, 0, []) := by
      decide +kernel
    rw [readEvent_of_fits hw (by decide) (by decide) hparse]
    rfl
  refine requests_passed_once rfl _ (by decide) _ (by decide +kernel) ?_ (by decide +kernel)
    ⟨rfl, rfl⟩
  intro ev hev
  simp only [inTurn, List.mem_cons, List.not_mem_nil, or_false] at hev
  rcases hev with rfl | rfl | rfl | rfl
  · exact silentHost_returns
  · exact hother
  · exact silentHost_returns
  · exact silentHost_returns

/-- **The second of two pipelined gets is lost.**  Both arrive in one segment;
the event passes on the first and drains both. -/
theorem pipelined_request_lost :
    (∀ r ∈ [getRun 97, getRun 98], r.bytes.length ≤ ProxyConfig.default.reqBufSize) ∧
    (segments [.mine ((getRun 97).bytes ++ (getRun 98).bytes) silentHost]).flatten =
      [getRun 97, getRun 98].flatMap RequestRun.bytes ∧
    (∀ ev ∈ [ThreadEvent.mine ((getRun 97).bytes ++ (getRun 98).bytes) silentHost],
      ev.Returns .default) ∧
    clientRequests (runEvents .default
      [.mine ((getRun 97).bytes ++ (getRun 98).bytes) silentHost] []
      ⟨.new (fun _ => 0), 0, []⟩).effects = [(getPacket 97).bytes] ∧
    ¬ PassedOnce .default [getRun 97, getRun 98]
      [.mine ((getRun 97).bytes ++ (getRun 98).bytes) silentHost] ⟨.new (fun _ => 0), 0, []⟩ := by
  have hpassed : clientRequests (runEvents .default
      [.mine ((getRun 97).bytes ++ (getRun 98).bytes) silentHost] []
      ⟨.new (fun _ => 0), 0, []⟩).effects = [(getPacket 97).bytes] := by
    decide +kernel
  refine ⟨by decide, by decide +kernel, ?_, hpassed, ?_⟩
  · intro ev hev
    obtain rfl := List.mem_singleton.mp hev
    exact silentHost_returns
  · intro hsplit
    obtain ⟨_, hall⟩ := hsplit
    rw [hpassed] at hall
    exact absurd hall (by decide)

end KvProxy
