import KvProxy.ParseResp

/-!
# When the parser loops end

Both loops move `*position` by a length taken from the wire and converted to
a signed `int`.  A length of zero or less stalls the loop or sends it
backwards.  The loops advance at every pass, and so end, exactly when no
accepted header on the way declares such a length (and no position leaves the
range of `int`).
-/

namespace KvProxy

open MachineInt

/-- Every pass of `parse_req`'s loop that does not return increases the
position. -/
def ReqAdvances (originReq : ByteMem) (size : Int) (s : ReqLoop) : Prop :=
  ∀ t, Loop.Reaches (parseReqBody originReq size (isBinaryProtocol originReq)) s t →
    (parseReqBody originReq size (isBinaryProtocol originReq) t).1 = none →
    t.position < (parseReqBody originReq size (isBinaryProtocol originReq) t).2.position

/-- Every pass of `parse_resp`'s loop that does not return increases the
position. -/
def RespAdvances (originResp : ByteMem) (size : Int) (s : RespLoop) : Prop :=
  ∀ t, Loop.Reaches (parseRespBody originResp size (isBinaryProtocol originResp)) s t →
    (parseRespBody originResp size (isBinaryProtocol originResp) t).1 = none →
    t.position < (parseRespBody originResp size (isBinaryProtocol originResp) t).2.position

/-- A positive length that does not carry the position out of `int`. -/
def Forward (isBinary : Bool) (p : Int) (hd : MemcachedHeader) : Prop :=
  0 < packetLen isBinary hd ∧ p + packetLen isBinary hd < 2147483648

/-- The quiet gets accepted from offset `p₀` on have positive lengths. -/
def ReqLengthsForward (originReq : ByteMem) (size p₀ : Int) (header : MemcachedHeader) : Prop :=
  ∀ p hdr hd flags,
    ReqWalk originReq size (isBinaryProtocol originReq) p₀ header p hdr →
    ReqAccepted originReq size (isBinaryProtocol originReq) hdr p hd flags →
    flags.isAgin = true → Forward (isBinaryProtocol originReq) p hd

/-- The responses accepted from offset `p₀` on have positive lengths. -/
def RespLengthsForward (originResp : ByteMem) (size p₀ : Int) (header : MemcachedHeader) : Prop :=
  ∀ p hdr hd,
    RespWalk originResp size (isBinaryProtocol originResp) p₀ header p hdr →
    RespAccepted originResp size (isBinaryProtocol originResp) hdr p hd →
    Forward (isBinaryProtocol originResp) p hd

/-- From a position in the buffer, the new position is larger exactly after a
positive length without overflow. -/
theorem lt_int32_add_iff {p : Int} (isBinary : Bool) (hd : MemcachedHeader) (hlo : 0 ≤ p)
    (hhi : p < 2147483648) : p < int32 (p + packetLen isBinary hd) ↔ Forward isBinary p hd := by
  have hplo : -2147483648 ≤ packetLen isBinary hd := int32_lower _
  have hphi : packetLen isBinary hd < 2147483648 := int32_upper _
  unfold Forward
  generalize packetLen isBinary hd = len at *
  unfold int32
  omega

/-- A position that starts as a non-negative `int` stays an `int`. -/
theorem ReqWalk.lt_max {originReq : ByteMem} {size p₀ p : Int} {isBinary : Bool}
    {header hdr : MemcachedHeader} (h : ReqWalk originReq size isBinary p₀ header p hdr)
    (hhi : p₀ < 2147483648) : p < 2147483648 := by
  cases h with
  | start => exact hhi
  | next before hacc hquiet => exact int32_upper _

theorem RespWalk.lt_max {originResp : ByteMem} {size p₀ p : Int} {isBinary : Bool}
    {header hdr : MemcachedHeader} (h : RespWalk originResp size isBinary p₀ header p hdr)
    (hhi : p₀ < 2147483648) : p < 2147483648 := by
  cases h with
  | start => exact hhi
  | next before hacc => exact int32_upper _

/-- A loop that only advances stays at or above its start. -/
theorem nonneg_of_advancing {σ : Type} {body : σ → Option ExtRet × σ} (position : σ → Int)
    {s t : σ} (hstart : 0 ≤ position s)
    (hadv : ∀ t, Loop.Reaches body s t → (body t).1 = none → position t < position (body t).2)
    (h : Loop.Reaches body s t) : 0 ≤ position t := by
  have hinv := h.invariant (fun u => Loop.Reaches body s u ∧ 0 ≤ position u) ?_ ⟨.here s, hstart⟩
  · exact hinv.2
  · intro u hsplit hround
    obtain ⟨hu, hpos⟩ := hsplit
    have := hadv u hu hround
    exact ⟨hu.snoc hround, by omega⟩

/-- Forward lengths lead only to positions at or above the start. -/
theorem ReqLengthsForward.nonneg {originReq : ByteMem} {size p₀ p : Int}
    {header hdr : MemcachedHeader} (hfwd : ReqLengthsForward originReq size p₀ header)
    (hstart : 0 ≤ p₀)
    (h : ReqWalk originReq size (isBinaryProtocol originReq) p₀ header p hdr) : 0 ≤ p := by
  induction h with
  | start => exact hstart
  | @next p hdr hd flags before hacc hquiet ih =>
      obtain ⟨hlen, hend⟩ := hfwd p hdr hd flags before hacc hquiet
      rw [int32_eq_self (by omega) hend]
      omega

theorem RespLengthsForward.nonneg {originResp : ByteMem} {size p₀ p : Int}
    {header hdr : MemcachedHeader} (hfwd : RespLengthsForward originResp size p₀ header)
    (hstart : 0 ≤ p₀)
    (h : RespWalk originResp size (isBinaryProtocol originResp) p₀ header p hdr) : 0 ≤ p := by
  induction h with
  | start => exact hstart
  | @next p hdr hd before hacc ih =>
      obtain ⟨hlen, hend⟩ := hfwd p hdr hd before hacc
      rw [int32_eq_self (by omega) hend]
      omega

/-- `parse_req` advances at every pass exactly when the lengths go forward. -/
theorem reqAdvances_iff (originReq : ByteMem) (size : Int) (s : ReqLoop)
    (hlo : 0 ≤ s.position) (hhi : s.position < 2147483648) :
    ReqAdvances originReq size s ↔ ReqLengthsForward originReq size s.position s.header := by
  constructor
  · intro hadv p hdr hd flags hwalk hacc hquiet
    have hmax := hwalk.lt_max hhi
    obtain ⟨t, hreach, rfl, rfl⟩ := hwalk.reached
    have hpass := parseReqBody_of_accepted hacc
    rw [hquiet] at hpass
    have hlt := hadv t hreach (by rw [hpass]; rfl)
    rw [hpass] at hlt
    have hpos := nonneg_of_advancing ReqLoop.position hlo hadv hreach
    exact (lt_int32_add_iff _ hd hpos hmax).mp hlt
  · intro hfwd t hreach hround
    have hwalk := reaches_reqWalk hreach
    obtain ⟨hd, flags, hacc, hquiet, hnext⟩ := parseReqBody_accepted hround
    rw [hnext]
    exact (lt_int32_add_iff _ hd (hfwd.nonneg hlo hwalk) (hwalk.lt_max hhi)).mpr
      (hfwd _ _ _ _ hwalk hacc hquiet)

/-- `parse_resp` advances at every pass exactly when the lengths go forward. -/
theorem respAdvances_iff (originResp : ByteMem) (size : Int) (s : RespLoop)
    (hlo : 0 ≤ s.position) (hhi : s.position < 2147483648) :
    RespAdvances originResp size s ↔ RespLengthsForward originResp size s.position s.header := by
  constructor
  · intro hadv p hdr hd hwalk hacc
    have hmax := hwalk.lt_max hhi
    obtain ⟨t, hreach, rfl, rfl⟩ := hwalk.reached
    have hpass := parseRespBody_of_accepted hacc
    have hlt := hadv t hreach (by rw [hpass])
    rw [hpass] at hlt
    have hpos := nonneg_of_advancing RespLoop.position hlo hadv hreach
    exact (lt_int32_add_iff _ hd hpos hmax).mp hlt
  · intro hfwd t hreach hround
    have hwalk := reaches_respWalk hreach
    obtain ⟨hd, hacc, hnext⟩ := parseRespBody_accepted hround
    rw [hnext]
    exact (lt_int32_add_iff _ hd (hfwd.nonneg hlo hwalk) (hwalk.lt_max hhi)).mpr
      (hfwd _ _ _ hwalk hacc)

/-- A loop over `int` positions that only advance ends within `loopFuel`
passes. -/
theorem run_of_advancing {σ : Type} {body : σ → Option ExtRet × σ} (position : σ → Int) {s : σ}
    (hrange : ∀ t, Loop.Reaches body s t → position t < 2147483648)
    (hstart : 0 ≤ position s)
    (hadv : ∀ t, Loop.Reaches body s t → (body t).1 = none → position t < position (body t).2) :
    ∃ r u, Loop.run body loopFuel s = some (r, u) := by
  refine Loop.run_of_measure (fun t => (2147483648 - position t).toNat) ?_ ?_
  · intro t hreach hround
    have hlt := hadv t hreach hround
    have hnext := hrange _ (hreach.snoc hround)
    show (2147483648 - position (body t).2).toNat < (2147483648 - position t).toNat
    omega
  · show (2147483648 - position s).toNat < loopFuel
    unfold loopFuel
    omega

theorem parseReq_isSome_of_advances {originReq : ByteMem} {size position : Int}
    {header : MemcachedHeader} {reqData : List Req} (useBinary : Bool)
    (hlo : 0 ≤ position) (hhi : position < 2147483648)
    (h : ReqAdvances originReq size ⟨position, reqData, false, header⟩) :
    (parseReq useBinary header originReq size position reqData).isSome := by
  obtain ⟨r, u, hrun⟩ := run_of_advancing ReqLoop.position
    (fun t ht => (reaches_reqWalk ht).lt_max hhi) hlo h
  by_cases hproto : useBinary = isBinaryProtocol originReq
  · simp [parseReq, hproto, hrun]
  · simp [parseReq, hproto]

theorem parseResp_isSome_of_advances {originResp : ByteMem} {size position : Int}
    {header : MemcachedHeader} {respData : List Resp} {isAgin : Bool}
    (hlo : 0 ≤ position) (hhi : position < 2147483648)
    (h : RespAdvances originResp size ⟨position, respData, isAgin, header⟩) :
    (parseResp isAgin header originResp size position respData).isSome := by
  obtain ⟨r, u, hrun⟩ := run_of_advancing RespLoop.position
    (fun t ht => (reaches_respWalk ht).lt_max hhi) hlo h
  simp [parseResp, hrun]

/-- **The parser loops end.**  On every buffer and from every start position,
each of the two functions advances at every pass that does not return, and
therefore returns, exactly when the lengths it meets go forward. -/
theorem parser_loops_end_iff (mem : ByteMem) (size position : Int) (header : MemcachedHeader)
    (isAgin : Bool) (reqData : List Req) (respData : List Resp)
    (hlo : 0 ≤ position) (hhi : position ≤ size) (hsize : size < 2147483648) :
    ((ReqAdvances mem size ⟨position, reqData, false, header⟩ ∧
        ∀ useBinary, (parseReq useBinary header mem size position reqData).isSome) ↔
      ReqLengthsForward mem size position header) ∧
    ((RespAdvances mem size ⟨position, respData, isAgin, header⟩ ∧
        (parseResp isAgin header mem size position respData).isSome) ↔
      RespLengthsForward mem size position header) := by
  have hreq := reqAdvances_iff mem size ⟨position, reqData, false, header⟩ hlo
    (by show position < _; omega)
  have hresp := respAdvances_iff mem size ⟨position, respData, isAgin, header⟩ hlo
    (by show position < _; omega)
  refine ⟨⟨fun h => hreq.mp h.1, fun h => ?_⟩, ⟨fun h => hresp.mp h.1, fun h => ?_⟩⟩
  · have hadv := hreq.mpr h
    exact ⟨hadv, fun useBinary => parseReq_isSome_of_advances useBinary hlo (by omega) hadv⟩
  · have hadv := hresp.mpr h
    exact ⟨hadv, parseResp_isSome_of_advances hlo (by omega) hadv⟩

/-- A quiet get whose body length field is `0xffffffe8`, the `int` `-24`. -/
def stallingRequest : List UInt8 :=
  [0x80, 0x0d, 0, 0, 0, 0, 0, 0, 0xff, 0xff, 0xff, 0xe8, 0, 0, 0, 0, 0, 0, 0, 0, 0, 0, 0, 0]

/-- The stalling request is accepted at position `0` whatever the header
variable holds, and its length is zero. -/
theorem stallingRequest_accepted (header : MemcachedHeader) :
    ReqAccepted (ByteMem.ofList stallingRequest (fun _ => 0)) 24 true header 0
      ⟨0, 0, -24, 13⟩ ⟨false, false, 0, true⟩ where
  remaining := by decide
  read := by
    have hread := @tryReadBinary_of_magic magicReq
      ((ByteMem.ofList stallingRequest (fun _ => 0)).shift 0) (int32 (24 - 0)) header
      (by decide) (by decide)
    exact hread.trans (by decide +kernel)
  forwarded := rfl
  fits := by decide

/-- `parse_req` makes the same pass over the stalling request again and again:
the position does not move and the loop never returns. -/
theorem stalling_request_never_parsed :
    ¬ ReqAdvances (ByteMem.ofList stallingRequest (fun _ => 0)) 24 ⟨0, [], false, ⟨0, 0, 0, 0⟩⟩ ∧
    ∀ fuel, Loop.run (parseReqBody (ByteMem.ofList stallingRequest (fun _ => 0)) 24
      (isBinaryProtocol (ByteMem.ofList stallingRequest (fun _ => 0)))) fuel
      ⟨0, [], false, ⟨0, 0, 0, 0⟩⟩ = none := by
  have hbin : isBinaryProtocol (ByteMem.ofList stallingRequest (fun _ => 0)) = true := by decide
  have hpass : ∀ s : ReqLoop, s.position = 0 →
      (parseReqBody (ByteMem.ofList stallingRequest (fun _ => 0)) 24 true s).1 = none ∧
      (parseReqBody (ByteMem.ofList stallingRequest (fun _ => 0)) 24 true s).2.position = 0 := by
    intro s hs
    have hacc := stallingRequest_accepted s.header
    rw [← hs] at hacc
    rw [parseReqBody_of_accepted hacc, hs]
    refine ⟨rfl, ?_⟩
    show int32 (0 + packetLen true ⟨0, 0, -24, 13⟩) = 0
    decide
  constructor
  · intro hadv
    have hstart := hpass ⟨0, [], false, ⟨0, 0, 0, 0⟩⟩ rfl
    have hlt := hadv _ (.here _) (by rw [hbin]; exact hstart.1)
    rw [hbin, hstart.2] at hlt
    exact absurd hlt (by decide)
  · rw [hbin]
    exact Loop.run_eq_none (fun s => s.position = 0) (fun s hs => (hpass s hs).1)
      (fun s hs => (hpass s hs).2) rfl

/-- A quiet get without key and body. -/
def quietRequest : List UInt8 :=
  [0x80, 0x0d, 0, 0, 0, 0, 0, 0, 0, 0, 0, 0, 0, 0, 0, 0, 0, 0, 0, 0, 0, 0, 0, 0]

/-- The law at one quiet get: its 24 bytes go forward, and nothing is left to
accept behind it. -/
theorem parser_loops_end_quiet :
    (parseReq true ⟨0, 0, 0, 0⟩ (ByteMem.ofList quietRequest (fun _ => 0)) 24 0 []).isSome := by
  have hlaw := parser_loops_end_iff (ByteMem.ofList quietRequest (fun _ => 0)) 24 0
    ⟨0, 0, 0, 0⟩ false [] [] (by decide) (by decide) (by decide)
  refine (hlaw.1.mpr ?_).2 true
  have hbin : isBinaryProtocol (ByteMem.ofList quietRequest (fun _ => 0)) = true := by decide
  have hread : ∀ header hd flags,
      ReqAccepted (ByteMem.ofList quietRequest (fun _ => 0)) 24 true header 0 hd flags →
      hd = ⟨0, 0, 0, 13⟩ := by
    intro header hd flags hacc
    have hone : tryReadBinary magicReq ((ByteMem.ofList quietRequest (fun _ => 0)).shift 0)
        (int32 (24 - 0)) header = (1, hd) := hacc.read
    rw [(tryReadBinary_eq_one hone).2.2]
    decide +kernel
  unfold ReqLengthsForward
  rw [hbin]
  intro p hdr hd flags hwalk hacc _
  have hp : p = 0 ∨ p = 24 := by
    clear hacc
    induction hwalk with
    | start => exact Or.inl rfl
    | next before hacc' hquiet ih =>
        rcases ih with rfl | rfl
        · rw [hread _ _ _ hacc']
          exact Or.inr (by decide)
        · exact absurd hacc'.remaining (by decide)
  rcases hp with rfl | rfl
  · rw [hread _ _ _ hacc]
    exact ⟨by decide, by decide⟩
  · exact absurd hacc.remaining (by decide)

end KvProxy
