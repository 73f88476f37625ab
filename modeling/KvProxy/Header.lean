import KvProxy.Extension

/-!
# Reading one request or response header

`memcached_header` and the four functions of `memcached.cpp` that fill it in,
for the binary and the text protocol.  Each returns `1` with the header set,
`0` when more bytes are needed, or `-1` on a wrong magic byte.  A header that
is not set keeps whatever the caller's variable held, which is why every
reader takes the old header.
-/

namespace KvProxy

open MachineInt

/-- `memcached_header`; all four fields are `int`s. -/
structure MemcachedHeader where
  keylen : Int
  extlen : Int
  bodylen : Int
  opcode : Int
  deriving DecidableEq, Repr

/-! ## Constants of the binary protocol -/

/-- `PROTOCOL_BINARY_REQ`. -/
def magicReq : UInt8 := 0x80

/-- `PROTOCOL_BINARY_RES`. -/
def magicRes : UInt8 := 0x81

/-! `PROTOCOL_BINARY_CMD_*`, as the `int` an opcode is compared as. -/

def cmdGet : Int := 0x00
def cmdSet : Int := 0x01
def cmdAdd : Int := 0x02
def cmdReplace : Int := 0x03
def cmdDelete : Int := 0x04
def cmdIncrement : Int := 0x05
def cmdDecrement : Int := 0x06
def cmdQuit : Int := 0x07
def cmdNoop : Int := 0x0a
def cmdGetkq : Int := 0x0d
def cmdAppend : Int := 0x0e
def cmdPrepend : Int := 0x0f

/-! ## Binary headers -/

/-- `ntohs` of the two bytes at an offset. -/
def be16 (m : ByteMem) (p : Int) : Int :=
  (m p).toNat * 256 + (m (p + 1)).toNat

/-- `ntohl` of the four bytes at an offset, before the conversion to `int`. -/
def be32 (m : ByteMem) (p : Int) : Int :=
  (m p).toNat * 16777216 + (m (p + 1)).toNat * 65536 +
    (m (p + 2)).toNat * 256 + (m (p + 3)).toNat

/-- `is_binary_protocol`: the magic byte of either direction. -/
def isBinaryProtocol (data : ByteMem) : Bool :=
  data 0 = magicReq || data 0 = magicRes

/-- The 24-byte header both directions share: opcode at `1`, key length at
`2`, extras length at `4`, body length at `8`. -/
def tryReadBinary (magic : UInt8) (data : ByteMem) (size : Int)
    (header : MemcachedHeader) : Int × MemcachedHeader :=
  if size < 24 then (0, header)
  else if data 0 ≠ magic then (-1, header)
  else (1, {
    keylen := be16 data 2
    extlen := (data 4).toNat
    bodylen := int32 (be32 data 8)
    opcode := (data 1).toNat })

/-- `try_read_request_binary`. -/
def tryReadRequestBinary := tryReadBinary magicReq

/-- `try_read_response_binary`. -/
def tryReadResponseBinary := tryReadBinary magicRes

/-! ## Text headers -/

/-- `strncmp(data, word, |word|) == 0` for a word without NUL. -/
def startsWith (data : ByteMem) (word : List UInt8) : Bool :=
  data.slice 0 word.length = word

/-- The bytes of a literal. -/
def asciiBytes (s : String) : List UInt8 := s.toList.map Char.toUInt8

/-- `get_opcode`; an unknown command reads as `0`, which is `cmdGet`. -/
def getOpcode (data : ByteMem) : Int :=
  if startsWith data (asciiBytes "get") then cmdGet
  else if startsWith data (asciiBytes "set") then cmdSet
  else if startsWith data (asciiBytes "add") then cmdAdd
  else if startsWith data (asciiBytes "replace") then cmdReplace
  else if startsWith data (asciiBytes "delete") then cmdDelete
  else if startsWith data (asciiBytes "incr") then cmdIncrement
  else if startsWith data (asciiBytes "decr") then cmdDecrement
  else if startsWith data (asciiBytes "quit") then cmdQuit
  else if startsWith data (asciiBytes "append") then cmdAppend
  else if startsWith data (asciiBytes "prepend") then cmdPrepend
  else 0

/-- `isdigit`. -/
def isDigitByte (c : UInt8) : Bool := 48 ≤ c && c ≤ 57

/-- `atoi` of a digit string: the value as a `long`, converted to `int`. -/
def atoi (digits : List UInt8) : Int :=
  int32 (digits.foldl (fun n c => n * 10 + (c.toNat - 48 : Int)) 0)

/-- The locals of the scan in `try_read_request_text`; `extlen` is the field
of the header under construction. -/
structure TextScan where
  cmdLen : Int
  keyLen : Int
  contentLen : Int
  splitCounter : Int
  extlen : Int
  digits : List UInt8
  deriving DecidableEq, Repr

/-- One iteration of the scan at index `i`, reading `c`: whether it breaks,
and the locals after it.  `'n'` after the key is taken for `noreply` and ends
the scan. -/
def scanRequestStep (c : UInt8) (i : Int) (st : TextScan) : Bool × TextScan :=
  if st.cmdLen = 0 ∧ c = 32 then
    (false, { st with cmdLen := i, extlen := i + 1, splitCounter := st.splitCounter + 1 })
  else if st.cmdLen > 0 ∧ st.keyLen = 0 ∧ c = 32 then
    (false, { st with keyLen := i - st.extlen, splitCounter := st.splitCounter + 1 })
  else if st.cmdLen > 0 ∧ st.keyLen = 0 ∧ c = 13 then
    (false, { st with keyLen := i - st.extlen })
  else if st.cmdLen > 0 ∧ st.keyLen > 0 ∧ c = 10 then
    (true, { st with contentLen := i + 1 })
  else if st.keyLen > 0 ∧ c = 110 then (true, st)
  else if st.keyLen > 0 ∧ c = 32 ∧ st.splitCounter < 4 then
    (false, { st with splitCounter := st.splitCounter + 1 })
  else if st.splitCounter = 4 ∧ isDigitByte c ∧ st.digits.length < 10 then
    (false, { st with digits := st.digits ++ [c] })
  else (false, st)

/-- The scan over the remaining `n` bytes from index `i`. -/
def scanRequest (data : ByteMem) : Nat → Int → TextScan → TextScan
  | 0, _, st => st
  | n + 1, i, st =>
      match scanRequestStep (data i) i st with
      | (true, st') => st'
      | (false, st') => scanRequest data n (i + 1) st'

/-- `try_read_request_text`; it always reports a header. -/
def tryReadRequestText (data : ByteMem) (size : Int) (header : MemcachedHeader) :
    Int × MemcachedHeader :=
  let st := scanRequest data size.toNat 0 ⟨0, 0, 0, 0, header.extlen, []⟩
  let dataLen := atoi st.digits
  (1, {
    keylen := st.keyLen
    extlen := st.extlen
    bodylen :=
      if dataLen > 0 then int32 (st.contentLen + dataLen + 2)
      else int32 (st.contentLen + dataLen)
    opcode := getOpcode data })

/-- One iteration of the scan in `try_read_response_text`: the locals are the
header line's length, the space count and the digits of the byte count. -/
def scanResponseStep (c : UInt8) (i : Int) (st : Int × Int × List UInt8) :
    Bool × (Int × Int × List UInt8) :=
  let (contentLen, splitCounter, digits) := st
  if c = 32 then (false, (contentLen, splitCounter + 1, digits))
  else if c = 13 then (true, (i + 2, splitCounter, digits))
  else if splitCounter = 3 ∧ isDigitByte c ∧ digits.length < 10 then
    (false, (contentLen, splitCounter, digits ++ [c]))
  else (false, st)

/-- The scan over the remaining `n` bytes from index `i`. -/
def scanResponse (data : ByteMem) : Nat → Int → Int × Int × List UInt8 → Int × Int × List UInt8
  | 0, _, st => st
  | n + 1, i, st =>
      match scanResponseStep (data i) i st with
      | (true, st') => st'
      | (false, st') => scanResponse data n (i + 1) st'

/-- `try_read_response_text`: a `VALUE` block with its data and the length of
`END`, or else everything received. -/
def tryReadResponseText (data : ByteMem) (size : Int) (header : MemcachedHeader) :
    Int × MemcachedHeader :=
  if size < 5 ∨ startsWith data (asciiBytes "VALUE") = false then
    (1, { header with bodylen := size, opcode := 0 })
  else
    let st := scanResponse data size.toNat 0 (0, 0, [])
    let bodyLen := int32 (st.1 + atoi st.2.2 + 7)
    if size < bodyLen then (0, header)
    else (1, { header with bodylen := bodyLen, opcode := 0 })

/-! ## What a header can say -/

theorem be16_bounds (m : ByteMem) (p : Int) : 0 ≤ be16 m p ∧ be16 m p < 65536 := by
  have hhi := (m p).toNat_lt
  have hlo := (m (p + 1)).toNat_lt
  unfold be16
  omega

theorem be32_lt (m : ByteMem) (p : Int) : be32 m p < 4294967296 := by
  have h0 := (m p).toNat_lt
  have h1 := (m (p + 1)).toNat_lt
  have h2 := (m (p + 2)).toNat_lt
  have h3 := (m (p + 3)).toNat_lt
  unfold be32
  omega

theorem tryReadBinary_eq_one {magic : UInt8} {data : ByteMem} {size : Int}
    {header hd : MemcachedHeader} (h : tryReadBinary magic data size header = (1, hd)) :
    24 ≤ size ∧ data 0 = magic ∧
      hd = ⟨be16 data 2, (data 4).toNat, int32 (be32 data 8), (data 1).toNat⟩ := by
  unfold tryReadBinary at h
  split_ifs at h with hsize hmagic
  · simp at h
  · simp at h
  · exact ⟨by omega, by simpa using hmagic, by simpa using h.symm⟩

theorem tryReadBinary_of_magic {magic : UInt8} {data : ByteMem} {size : Int}
    (header : MemcachedHeader) (hsize : 24 ≤ size) (hmagic : data 0 = magic) :
    tryReadBinary magic data size header =
      (1, ⟨be16 data 2, (data 4).toNat, int32 (be32 data 8), (data 1).toNat⟩) := by
  have : ¬ size < 24 := by omega
  simp [tryReadBinary, this, hmagic]

end KvProxy
