import KvProxy.Lib.Loop
import KvProxy.Header

/-!
# Parsing a batch of requests

`PARSE_REQ(memcached)`.  A batch is a run of quiet gets closed by any other
request; the loop appends one item per request and returns at the first that
is not a quiet get.  The test for a complete request compares the request's
length with `size`, the length of the whole buffer, not with what is left of
it after `position`.

* `parseReqBody_cases` — everything one pass can do;
* `ReqWalk` — the offsets at which passes are made, read off the buffer by
  following the lengths of accepted quiet gets;
* `reaches_reqWalk` / `ReqWalk.reached` — the loop visits exactly these.
-/

namespace KvProxy

open MachineInt

/-- A bound no returning parser loop exceeds: a pass is decided by the
position, a 32-bit `int`, so a loop that repeats one never ends. -/
def loopFuel : Nat := 4294967297

/-- `header_len`: the binary header is fixed, a text request has none. -/
def headerLen (isBinary : Bool) : Int := if isBinary then 24 else 0

/-- What an opcode makes of a request item, and whether the batch goes on. -/
structure ReqFlags where
  update : Bool
  each : Bool
  ext : UInt8
  isAgin : Bool
  deriving DecidableEq, Repr

/-- The opcode dispatch of `parse_req`: the flags of the item, or the code
returned without one. -/
def dispatch (opcode : Int) : Except ExtRet ReqFlags :=
  let plain : ReqFlags := ⟨false, false, 0, false⟩
  if opcode = cmdSet then .ok { plain with update := true }
  else if opcode = cmdGet then .ok plain
  else if opcode = cmdGetkq then .ok { plain with isAgin := true }
  else if opcode = cmdNoop then .ok { plain with each := true, ext := endMark }
  else if opcode = cmdAdd then .ok { plain with update := true }
  else if opcode = cmdDelete then .ok { plain with update := true }
  else if opcode = cmdIncrement then .ok { plain with update := true }
  else if opcode = cmdDecrement then .ok { plain with update := true }
  else if opcode = cmdAppend then .ok { plain with update := true }
  else if opcode = cmdPrepend then .ok { plain with update := true }
  else if opcode = cmdReplace then .ok { plain with update := true }
  else if opcode = cmdQuit then .error .ignore
  else .error .error

/-- The variables of the loop of `parse_req`. -/
structure ReqLoop where
  position : Int
  reqData : List Req
  isAgin : Bool
  header : MemcachedHeader
  deriving DecidableEq

/-- The header read at offset `p`, and whether it could be read. -/
def readRequest (originReq : ByteMem) (size : Int) (isBinary : Bool)
    (header : MemcachedHeader) (p : Int) : Int × MemcachedHeader :=
  if isBinary then
    tryReadRequestBinary (originReq.shift p) (int32 (size - p)) header
  else tryReadRequestText (originReq.shift p) (int32 (size - p)) header

/-- The length `header_len + header.bodylen`, an `int` sum. -/
def packetLen (isBinary : Bool) (hd : MemcachedHeader) : Int :=
  int32 (headerLen isBinary + hd.bodylen)

/-- The item built for a request at offset `p`. -/
def reqItem (isBinary : Bool) (p : Int) (hd : MemcachedHeader) (flags : ReqFlags) : Req where
  key := p + headerLen isBinary + hd.extlen
  keyLen := uint16 hd.keylen
  content := p
  contentLen := uint32 (packetLen isBinary hd)
  update := flags.update
  each := flags.each
  ext := flags.ext

/-- One pass of the loop of `parse_req`, guard included. -/
def parseReqBody (originReq : ByteMem) (size : Int) (isBinary : Bool) (s : ReqLoop) :
    Option ExtRet × ReqLoop :=
  if int32 (size - s.position) > 0 then
    let rd := readRequest originReq size isBinary s.header s.position
    let s := { s with isAgin := false, header := rd.2 }
    if rd.1 = -1 then (some .error, s)
    else if rd.1 = 0 then (some .again, s)
    else
      match dispatch rd.2.opcode with
      | .error code => (some code, s)
      | .ok flags =>
          if size < packetLen isBinary rd.2 then (some .again, { s with isAgin := flags.isAgin })
          else
            let s := {
              position := int32 (s.position + headerLen isBinary + rd.2.bodylen)
              reqData := s.reqData ++ [reqItem isBinary s.position rd.2 flags]
              isAgin := flags.isAgin
              header := rd.2 }
            if flags.isAgin then (none, s) else (some .success, s)
  else (some (if s.isAgin then .again else .success), s)

/-- `parse_req` with the static `use_binary` and the uninitialised `header`
as arguments; `none` when the loop never ends. -/
def parseReq (useBinary : Bool) (header : MemcachedHeader) (originReq : ByteMem)
    (size position : Int) (reqData : List Req) : Option (ExtRet × Int × List Req) :=
  let isBinary := isBinaryProtocol originReq
  if useBinary ≠ isBinary then some (.error, position, reqData)
  else
    (Loop.run (parseReqBody originReq size isBinary) loopFuel
      ⟨position, reqData, false, header⟩).map
      (fun r => (r.1, r.2.position, r.2.reqData))

/-! ## One pass -/

/-- A request header at offset `p` that the loop turns into an item: it can
be read, its opcode is forwarded, and its length passes the size test. -/
structure ReqAccepted (originReq : ByteMem) (size : Int) (isBinary : Bool)
    (header : MemcachedHeader) (p : Int) (hd : MemcachedHeader) (flags : ReqFlags) : Prop where
  remaining : 0 < int32 (size - p)
  read : readRequest originReq size isBinary header p = (1, hd)
  forwarded : dispatch hd.opcode = .ok flags
  fits : packetLen isBinary hd ≤ size

/-- The position after a request, with the sum taken in `int`. -/
theorem int32_position (isBinary : Bool) (p : Int) (hd : MemcachedHeader) :
    int32 (p + headerLen isBinary + hd.bodylen) = int32 (p + packetLen isBinary hd) := by
  unfold packetLen int32
  omega

/-- The readers return `1`, `0` or `-1`. -/
theorem readRequest_code (originReq : ByteMem) (size : Int) (isBinary : Bool)
    (header : MemcachedHeader) (p : Int) :
    (readRequest originReq size isBinary header p).1 = 1 ∨
      (readRequest originReq size isBinary header p).1 = 0 ∨
      (readRequest originReq size isBinary header p).1 = -1 := by
  cases isBinary with
  | true =>
      simp only [readRequest, if_true, tryReadRequestBinary, tryReadBinary]
      split_ifs <;> simp
  | false => exact Or.inl rfl

/-- **Everything one pass can do.**  It leaves without an item, or it appends
the item of an accepted request and goes round exactly after a quiet get. -/
theorem parseReqBody_cases (originReq : ByteMem) (size : Int) (isBinary : Bool) (s : ReqLoop) :
    ((∃ code, (parseReqBody originReq size isBinary s).1 = some code) ∧
      (parseReqBody originReq size isBinary s).2.position = s.position ∧
      (parseReqBody originReq size isBinary s).2.reqData = s.reqData ∧
      ∀ hd flags, ¬ ReqAccepted originReq size isBinary s.header s.position hd flags) ∨
    (∃ hd flags, ReqAccepted originReq size isBinary s.header s.position hd flags ∧
      parseReqBody originReq size isBinary s =
        (if flags.isAgin then none else some .success,
          ⟨int32 (s.position + packetLen isBinary hd),
            s.reqData ++ [reqItem isBinary s.position hd flags], flags.isAgin, hd⟩)) := by
  unfold parseReqBody
  by_cases hrem : int32 (size - s.position) > 0
  · rw [if_pos hrem]
    cases hrd : readRequest originReq size isBinary s.header s.position with
    | mk ret hd =>
        have hcode := readRequest_code originReq size isBinary s.header s.position
        rw [hrd] at hcode
        dsimp only at hcode ⊢
        rcases hcode with rfl | rfl | rfl
        · cases hdis : dispatch hd.opcode with
          | error code =>
              refine Or.inl ⟨⟨code, by simp⟩, by simp, by simp, ?_⟩
              intro hd' flags hacc
              obtain rfl : hd = hd' := by simpa [hrd] using hacc.read
              have hforward := hacc.forwarded
              simp [hdis] at hforward
          | ok flags =>
              by_cases hfit : size < packetLen isBinary hd
              · refine Or.inl ⟨⟨.again, by simp [hfit]⟩, by simp [hfit], by simp [hfit], ?_⟩
                intro hd' flags' hacc
                obtain rfl : hd = hd' := by simpa [hrd] using hacc.read
                have := hacc.fits
                omega
              · refine Or.inr ⟨hd, flags, ⟨hrem, hrd, hdis, by omega⟩, ?_⟩
                simp only [hfit, if_false, int32_position]
                cases flags.isAgin <;> simp
        · refine Or.inl ⟨⟨.again, by simp⟩, by simp, by simp, ?_⟩
          intro hd' flags hacc
          have hread := hacc.read
          simp [hrd] at hread
        · refine Or.inl ⟨⟨.error, by simp⟩, by simp, by simp, ?_⟩
          intro hd' flags hacc
          have hread := hacc.read
          simp [hrd] at hread
  · rw [if_neg hrem]
    exact Or.inl ⟨⟨_, rfl⟩, rfl, rfl, fun hd flags hacc => hrem hacc.remaining⟩

/-- A pass that appends nothing leaves the loop. -/
theorem parseReqBody_accepted {originReq : ByteMem} {size : Int} {isBinary : Bool} {s : ReqLoop}
    (hround : (parseReqBody originReq size isBinary s).1 = none) :
    ∃ hd flags, ReqAccepted originReq size isBinary s.header s.position hd flags ∧
      flags.isAgin = true ∧
      (parseReqBody originReq size isBinary s).2 =
        ⟨int32 (s.position + packetLen isBinary hd),
          s.reqData ++ [reqItem isBinary s.position hd flags], true, hd⟩ := by
  rcases parseReqBody_cases originReq size isBinary s with ⟨⟨code, hcode⟩, _⟩ | ⟨hd, flags, hacc, heq⟩
  · simp [hround] at hcode
  · rw [heq] at hround ⊢
    cases hagin : flags.isAgin with
    | false => simp [hagin] at hround
    | true => exact ⟨hd, flags, hacc, hagin, rfl⟩

/-- The pass made at an accepted request. -/
theorem parseReqBody_of_accepted {originReq : ByteMem} {size : Int} {isBinary : Bool}
    {s : ReqLoop} {hd : MemcachedHeader} {flags : ReqFlags}
    (hacc : ReqAccepted originReq size isBinary s.header s.position hd flags) :
    parseReqBody originReq size isBinary s =
      (if flags.isAgin then none else some .success,
        ⟨int32 (s.position + packetLen isBinary hd),
          s.reqData ++ [reqItem isBinary s.position hd flags], flags.isAgin, hd⟩) := by
  rcases parseReqBody_cases originReq size isBinary s with
    ⟨_, _, _, hno⟩ | ⟨hd', flags', hacc', heq⟩
  · exact absurd hacc (hno hd flags)
  · obtain rfl : hd' = hd := by
      have := hacc'.read.symm.trans hacc.read
      simpa using this
    obtain rfl : flags' = flags := by
      have := hacc'.forwarded.symm.trans hacc.forwarded
      simpa using this
    exact heq

/-! ## The offsets a run visits -/

/-- `ReqWalk … p header`: starting at offset `p₀`, following the lengths of
accepted quiet gets leads to offset `p`; `header` is the header variable
there. -/
inductive ReqWalk (originReq : ByteMem) (size : Int) (isBinary : Bool)
    (p₀ : Int) (header₀ : MemcachedHeader) : Int → MemcachedHeader → Prop
  | start : ReqWalk originReq size isBinary p₀ header₀ p₀ header₀
  | next {p : Int} {header hd : MemcachedHeader} {flags : ReqFlags}
      (before : ReqWalk originReq size isBinary p₀ header₀ p header)
      (hacc : ReqAccepted originReq size isBinary header p hd flags)
      (hquiet : flags.isAgin = true) :
      ReqWalk originReq size isBinary p₀ header₀ (int32 (p + packetLen isBinary hd)) hd

/-- Every pass is made at an offset of the walk. -/
theorem reaches_reqWalk {originReq : ByteMem} {size : Int} {isBinary : Bool} {s t : ReqLoop}
    (h : Loop.Reaches (parseReqBody originReq size isBinary) s t) :
    ReqWalk originReq size isBinary s.position s.header t.position t.header := by
  refine h.invariant
    (fun u => ReqWalk originReq size isBinary s.position s.header u.position u.header) ?_ .start
  intro u hu hround
  obtain ⟨hd, flags, hacc, hquiet, hnext⟩ := parseReqBody_accepted hround
  rw [hnext]
  exact .next hu hacc hquiet

/-- Every offset of the walk gets its pass. -/
theorem ReqWalk.reached {originReq : ByteMem} {size : Int} {isBinary : Bool} {s : ReqLoop}
    {p : Int} {header : MemcachedHeader}
    (h : ReqWalk originReq size isBinary s.position s.header p header) :
    ∃ t, Loop.Reaches (parseReqBody originReq size isBinary) s t ∧
      t.position = p ∧ t.header = header := by
  induction h with
  | start => exact ⟨s, .here s, rfl, rfl⟩
  | @next p header hd flags before hacc hquiet ih =>
      obtain ⟨t, hreach, rfl, rfl⟩ := ih
      have hpass := parseReqBody_of_accepted hacc
      rw [hquiet] at hpass
      have hsnoc := hreach.snoc (by rw [hpass]; rfl)
      rw [hpass] at hsnoc
      exact ⟨_, hsnoc, rfl, rfl⟩

end KvProxy
