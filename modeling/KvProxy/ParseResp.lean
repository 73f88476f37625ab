import KvProxy.ParseReq

/-!
# Parsing what a backend has sent so far

`PARSE_RESP(memcached)`.  It is called again on a growing buffer with the
position and the list of the previous call, and goes on to the end of what
has been received.  As in `parse_req`, the completeness test compares a
response's length with the length of the whole buffer.

The flag `is_agin` is not initialised: a call whose loop makes no pass
returns on whatever the variable held, which is an argument here.
-/

namespace KvProxy

open MachineInt

/-- The variables of the loop of `parse_resp`. -/
structure RespLoop where
  position : Int
  respData : List Resp
  isAgin : Bool
  header : MemcachedHeader
  deriving DecidableEq

/-- The header read at offset `p`, and whether it could be read. -/
def readResponse (originResp : ByteMem) (size : Int) (isBinary : Bool)
    (header : MemcachedHeader) (p : Int) : Int × MemcachedHeader :=
  if isBinary then
    tryReadResponseBinary (originResp.shift p) (int32 (size - p)) header
  else tryReadResponseText (originResp.shift p) (int32 (size - p)) header

/-- The item built for a response at offset `p`; a no-op closes a batch. -/
def respItem (isBinary : Bool) (p : Int) (hd : MemcachedHeader) : Resp where
  content := p
  contentLen := uint32 (packetLen isBinary hd)
  ext := if hd.opcode = cmdNoop then endMark else 0

/-- One pass of the loop of `parse_resp`, guard included. -/
def parseRespBody (originResp : ByteMem) (size : Int) (isBinary : Bool) (s : RespLoop) :
    Option ExtRet × RespLoop :=
  if int32 (size - s.position) > 0 then
    let rd := readResponse originResp size isBinary s.header s.position
    let s := { s with isAgin := false, header := rd.2 }
    if rd.1 = -1 then (some .error, s)
    else if rd.1 = 0 then (some .again, s)
    else if size < packetLen isBinary rd.2 then (some .again, s)
    else
      (none, {
        position := int32 (s.position + headerLen isBinary + rd.2.bodylen)
        respData := s.respData ++ [respItem isBinary s.position rd.2]
        isAgin := rd.2.opcode = cmdGetkq
        header := rd.2 })
  else (some (if s.isAgin then .again else .success), s)

/-- `parse_resp` with the uninitialised `is_agin` and `header` as arguments;
`none` when the loop never ends. -/
def parseResp (isAgin : Bool) (header : MemcachedHeader) (originResp : ByteMem)
    (size position : Int) (respData : List Resp) : Option (ExtRet × Int × List Resp) :=
  (Loop.run (parseRespBody originResp size (isBinaryProtocol originResp)) loopFuel
    ⟨position, respData, isAgin, header⟩).map
    (fun r => (r.1, r.2.position, r.2.respData))

/-! ## One pass -/

/-- A response header at offset `p` that the loop turns into an item. -/
structure RespAccepted (originResp : ByteMem) (size : Int) (isBinary : Bool)
    (header : MemcachedHeader) (p : Int) (hd : MemcachedHeader) : Prop where
  remaining : 0 < int32 (size - p)
  read : readResponse originResp size isBinary header p = (1, hd)
  fits : packetLen isBinary hd ≤ size

theorem readResponse_code (originResp : ByteMem) (size : Int) (isBinary : Bool)
    (header : MemcachedHeader) (p : Int) :
    (readResponse originResp size isBinary header p).1 = 1 ∨
      (readResponse originResp size isBinary header p).1 = 0 ∨
      (readResponse originResp size isBinary header p).1 = -1 := by
  cases isBinary with
  | true =>
      simp only [readResponse, if_true, tryReadResponseBinary, tryReadBinary]
      split_ifs <;> simp
  | false =>
      simp only [readResponse, Bool.false_eq_true, if_false, tryReadResponseText]
      split
      · exact Or.inl rfl
      · split
        · exact Or.inr (Or.inl rfl)
        · exact Or.inl rfl

/-- **Everything one pass can do.**  It leaves without an item, or it appends
the item of an accepted response and goes round. -/
theorem parseRespBody_cases (originResp : ByteMem) (size : Int) (isBinary : Bool) (s : RespLoop) :
    ((∃ code, (parseRespBody originResp size isBinary s).1 = some code) ∧
      (parseRespBody originResp size isBinary s).2.position = s.position ∧
      (parseRespBody originResp size isBinary s).2.respData = s.respData ∧
      ∀ hd, ¬ RespAccepted originResp size isBinary s.header s.position hd) ∨
    (∃ hd, RespAccepted originResp size isBinary s.header s.position hd ∧
      parseRespBody originResp size isBinary s =
        (none, ⟨int32 (s.position + packetLen isBinary hd),
          s.respData ++ [respItem isBinary s.position hd], hd.opcode = cmdGetkq, hd⟩)) := by
  unfold parseRespBody
  by_cases hrem : int32 (size - s.position) > 0
  · rw [if_pos hrem]
    cases hrd : readResponse originResp size isBinary s.header s.position with
    | mk ret hd =>
        have hcode := readResponse_code originResp size isBinary s.header s.position
        rw [hrd] at hcode
        dsimp only at hcode ⊢
        rcases hcode with rfl | rfl | rfl
        · by_cases hfit : size < packetLen isBinary hd
          · refine Or.inl ⟨⟨.again, by simp [hfit]⟩, by simp [hfit], by simp [hfit], ?_⟩
            intro hd' hacc
            obtain rfl : hd = hd' := by simpa [hrd] using hacc.read
            have := hacc.fits
            omega
          · refine Or.inr ⟨hd, ⟨hrem, hrd, by omega⟩, ?_⟩
            simp [hfit, int32_position]
        · refine Or.inl ⟨⟨.again, by simp⟩, by simp, by simp, ?_⟩
          intro hd' hacc
          have hread := hacc.read
          simp [hrd] at hread
        · refine Or.inl ⟨⟨.error, by simp⟩, by simp, by simp, ?_⟩
          intro hd' hacc
          have hread := hacc.read
          simp [hrd] at hread
  · rw [if_neg hrem]
    exact Or.inl ⟨⟨_, rfl⟩, rfl, rfl, fun hd hacc => hrem hacc.remaining⟩

/-- A pass that goes round appends the item of an accepted response. -/
theorem parseRespBody_accepted {originResp : ByteMem} {size : Int} {isBinary : Bool}
    {s : RespLoop} (hround : (parseRespBody originResp size isBinary s).1 = none) :
    ∃ hd, RespAccepted originResp size isBinary s.header s.position hd ∧
      (parseRespBody originResp size isBinary s).2 =
        ⟨int32 (s.position + packetLen isBinary hd),
          s.respData ++ [respItem isBinary s.position hd], hd.opcode = cmdGetkq, hd⟩ := by
  rcases parseRespBody_cases originResp size isBinary s with ⟨⟨code, hcode⟩, _⟩ | ⟨hd, hacc, heq⟩
  · simp [hround] at hcode
  · exact ⟨hd, hacc, by rw [heq]⟩

/-- The pass made at an accepted response. -/
theorem parseRespBody_of_accepted {originResp : ByteMem} {size : Int} {isBinary : Bool}
    {s : RespLoop} {hd : MemcachedHeader}
    (hacc : RespAccepted originResp size isBinary s.header s.position hd) :
    parseRespBody originResp size isBinary s =
      (none, ⟨int32 (s.position + packetLen isBinary hd),
        s.respData ++ [respItem isBinary s.position hd], hd.opcode = cmdGetkq, hd⟩) := by
  rcases parseRespBody_cases originResp size isBinary s with ⟨_, _, _, hno⟩ | ⟨hd', hacc', heq⟩
  · exact absurd hacc (hno hd)
  · obtain rfl : hd' = hd := by
      have := hacc'.read.symm.trans hacc.read
      simpa using this
    exact heq

/-- A pass that leaves appends nothing. -/
theorem parseRespBody_leave {originResp : ByteMem} {size : Int} {isBinary : Bool}
    {s t : RespLoop} {code : ExtRet}
    (hleave : parseRespBody originResp size isBinary s = (some code, t)) :
    t.position = s.position ∧ t.respData = s.respData := by
  rcases parseRespBody_cases originResp size isBinary s with ⟨_, hpos, hdata, _⟩ | ⟨hd, _, heq⟩
  · rw [hleave] at hpos hdata
    exact ⟨hpos, hdata⟩
  · simp [hleave] at heq

/-! ## The offsets a run visits -/

/-- `RespWalk … p header`: starting at offset `p₀`, following the lengths of
accepted responses leads to offset `p`. -/
inductive RespWalk (originResp : ByteMem) (size : Int) (isBinary : Bool)
    (p₀ : Int) (header₀ : MemcachedHeader) : Int → MemcachedHeader → Prop
  | start : RespWalk originResp size isBinary p₀ header₀ p₀ header₀
  | next {p : Int} {header hd : MemcachedHeader}
      (before : RespWalk originResp size isBinary p₀ header₀ p header)
      (hacc : RespAccepted originResp size isBinary header p hd) :
      RespWalk originResp size isBinary p₀ header₀ (int32 (p + packetLen isBinary hd)) hd

/-- Every pass is made at an offset of the walk. -/
theorem reaches_respWalk {originResp : ByteMem} {size : Int} {isBinary : Bool} {s t : RespLoop}
    (h : Loop.Reaches (parseRespBody originResp size isBinary) s t) :
    RespWalk originResp size isBinary s.position s.header t.position t.header := by
  refine h.invariant
    (fun u => RespWalk originResp size isBinary s.position s.header u.position u.header) ?_ .start
  intro u hu hround
  obtain ⟨hd, hacc, hnext⟩ := parseRespBody_accepted hround
  rw [hnext]
  exact .next hu hacc

/-- Every offset of the walk gets its pass. -/
theorem RespWalk.reached {originResp : ByteMem} {size : Int} {isBinary : Bool} {s : RespLoop}
    {p : Int} {header : MemcachedHeader}
    (h : RespWalk originResp size isBinary s.position s.header p header) :
    ∃ t, Loop.Reaches (parseRespBody originResp size isBinary) s t ∧
      t.position = p ∧ t.header = header := by
  induction h with
  | start => exact ⟨s, .here s, rfl, rfl⟩
  | @next p header hd before hacc ih =>
      obtain ⟨t, hreach, rfl, rfl⟩ := ih
      have hpass := parseRespBody_of_accepted hacc
      have hsnoc := hreach.snoc (by rw [hpass])
      rw [hpass] at hsnoc
      exact ⟨_, hsnoc, rfl, rfl⟩

end KvProxy
