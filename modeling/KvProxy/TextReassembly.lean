import KvProxy.Reassembly
import KvProxy.TextRequest
import KvProxy.TextResponse

/-!
# Every split of a text response

A text response is a status line, or blocks of values closed by `END`.  The calls
of `parse_resp` on a response that arrives in chunks should say "again" until the
last byte is there and then "success", with the bytes of the response in the list.

A status line is taken as soon as any of it is there.  Blocks are measured by the
first one: its header line and its byte count, as far as they have arrived, and
seven bytes.  What lies behind that length is taken with it, so that the calls are
right when no chunk but the last goes beyond it.

* `readLoop_chunks` — calls that wait for every chunk but the last;
* `overfull_codes` — a response that does not fit the buffer is not parsed;
* `text_reassembles` — when the calls are right.
-/

namespace KvProxy

open MachineInt

/-! ## The responses -/

/-- `VALUE key flags bytes`, and the data. -/
structure ValueBlock where
  key : List UInt8
  flags : List UInt8
  count : List UInt8
  data : List UInt8
  key_valid : ValidKey key
  flags_digits : Digits flags
  count_digits : Digits count
  count_eq : decimal count = data.length

namespace ValueBlock

/-- The header line before the byte count. -/
def start (b : ValueBlock) : List UInt8 := asciiBytes "VALUE" ++ spaced [b.key, b.flags] ++ [32]

/-- The header line without its end. -/
def line (b : ValueBlock) : List UInt8 := b.start ++ b.count

/-- The bytes of a block. -/
def bytes (b : ValueBlock) : List UInt8 := b.line ++ 13 :: 10 :: (b.data ++ [13, 10])

end ValueBlock

/-- A line that is no header line of a block, and not binary. -/
structure StatusLine where
  line : List UInt8
  one_line : ∀ c ∈ line, c ≠ 13 ∧ c ≠ 10
  no_value : ¬ asciiBytes "VALUE" <+: line
  text : line.head? ≠ some magicReq ∧ line.head? ≠ some magicRes

/-- A text response. -/
inductive TextResponse where
  | status (l : StatusLine)
  | values (blocks : List ValueBlock)

/-- The bytes of a response. -/
def TextResponse.bytes : TextResponse → List UInt8
  | .status l => l.line ++ [13, 10]
  | .values blocks => blocks.flatMap ValueBlock.bytes ++ asciiBytes "END\r\n"

/-- Whatever the uninitialised variables hold, the calls of `parse_resp` return
what they should, and the list has the bytes of the response behind what was in it
before. -/
def TextReassembles (cfg : BackendConfig) (r : TextResponse) (chunks : List (List UInt8)) : Prop :=
  ∀ fd recvs t respList, Chunked recvs chunks →
    parseCodes (readFromBackend cfg fd recvs t respList).effects = expectedCodes chunks ∧
    ∃ t' items, (readFromBackend cfg fd recvs t respList).result = some (t', respList ++ items) ∧
      (items.map (fun i => i.bytes t'.respBuf)).flatten = r.bytes

/-- How many bytes have been received at the end of each chunk but the last. -/
def properEnds : Nat → List (List UInt8) → List Nat
  | n, c :: c' :: chunks => (n + c.length) :: properEnds (n + c.length) (c' :: chunks)
  | _, _ => []

/-- The length of the blocks, as it is measured when `n` bytes have arrived. -/
def ValueBlock.measured (b : ValueBlock) (n : Nat) : Nat :=
  (if b.line.length < n then b.line.length + 2 else 0) +
    decimal ((b.count.take (n - b.start.length)).take 10) + 7

/-- The response fits the buffer.  A status line, or `END` alone, comes in one chunk;
with blocks, the byte count of the first has at most ten digits or its data is empty,
and every chunk but the last ends with at least the word `VALUE` and before the length
that is measured then. -/
def TextResponse.Framed (cfg : BackendConfig) (chunks : List (List UInt8)) (r : TextResponse) :
    Prop :=
  r.bytes.length < cfg.respBufSize ∧
    match r with
    | .values (b :: _) => (b.count.length ≤ 10 ∨ b.data = []) ∧
        ∀ n ∈ properEnds 0 chunks, 5 ≤ n ∧ n < b.measured n
    | _ => chunks.length = 1

/-- The first block is measured right, and its key has no `VALUE` in it. -/
def TextResponse.Measured : TextResponse → Prop
  | .values (b :: _) => (b.count.length ≤ 10 ∨ b.data = []) ∧ ¬ asciiBytes "VALUE" <:+: b.key
  | _ => True

/-! ## The calls on all chunks -/

section Chunks

variable {cfg : BackendConfig} {whole : List UInt8}

/-- With the first `n` bytes of the response, the parser asks for more. -/
def WaitsAt (whole : List UInt8) (n : Nat) : Prop :=
  ∀ isAgin header base, parseResp isAgin header (ByteMem.ofList (whole.take n) base) n 0 [] =
    some (.again, 0, [])

/-- With the first `n` bytes of the response, the parser is content. -/
def TakesAt (whole : List UInt8) (n : Nat) : Prop :=
  ∀ isAgin header base, ∃ pos items,
    parseResp isAgin header (ByteMem.ofList (whole.take n) base) n 0 [] =
      some (.success, pos, items)

/-- The chunks still to come bring the rest of the response. -/
structure PiecesLeft (cfg : BackendConfig) (whole : List UInt8) (n : Nat)
    (chunks : List (List UInt8)) : Prop where
  room : whole.length < cfg.respBufSize
  pieces : ∀ c ∈ chunks, c ≠ []
  some_left : chunks ≠ []
  received : n ≤ whole.length
  flatten : chunks.flatten = whole.drop n

namespace PiecesLeft

variable {n : Nat} {c c' : List UInt8} {chunks : List (List UInt8)}

theorem total (h : PiecesLeft cfg whole n (c :: chunks)) :
    n + c.length + chunks.flatten.length = whole.length := by
  have hreceived := h.received
  have hlen := congrArg List.length h.flatten
  rw [List.flatten_cons, List.length_append, List.length_drop] at hlen
  omega

theorem next (h : PiecesLeft cfg whole n (c :: c' :: chunks)) :
    PiecesLeft cfg whole (n + c.length) (c' :: chunks) := by
  have htotal := h.total
  refine ⟨h.room, fun x hx => h.pieces x (List.mem_cons_of_mem _ hx), by simp, by omega, ?_⟩
  rw [← List.drop_drop, ← h.flatten, List.flatten_cons (l := c), List.drop_left]

/-- The round of the next chunk. -/
theorem round (h : PiecesLeft cfg whole n (c :: chunks)) (fd : Nat) (t : Thread) (base : ByteMem)
    (respList : List Resp) {isAgin : Bool} {header : MemcachedHeader} {code : ExtRet} {pos : Int}
    {items : List Resp}
    (hparse : parseResp isAgin header (ByteMem.ofList (whole.take (n + c.length)) base)
      ((n + c.length : Nat) : Int) 0 [] = some (code, pos, items)) :
    readRound cfg fd (.data c isAgin header) ⟨0, t.holding base whole n, respList⟩ =
      ⟨[.select fd, .recv fd c, .parsed code items],
        some (afterParse (t.holding base whole (n + c.length))
          (code, pos, respList ++ items))⟩ := by
  have htotal := h.total
  have hroom := h.room
  refine readRound_holding fd t base h.received (by omega) (h.pieces c List.mem_cons_self)
    h.flatten ?_ respList
  rw [Thread.holding, ByteMem.write_zero]
  exact hparse

/-- A chunk on which the parser is content ends the reading. -/
theorem success (h : PiecesLeft cfg whole n (c :: chunks)) (fd : Nat) (t : Thread) (base : ByteMem)
    (respList : List Resp) (isAgin : Bool) (header : MemcachedHeader) {pos : Int}
    {items : List Resp}
    (hparse : parseResp isAgin header (ByteMem.ofList (whole.take (n + c.length)) base)
      ((n + c.length : Nat) : Int) 0 [] = some (.success, pos, items)) (recvs : List RecvResult) :
    parseCodes (readLoop cfg fd (.data c isAgin header :: recvs)
        ⟨0, t.holding base whole n, respList⟩).effects = [.success] ∧
      (readLoop cfg fd (.data c isAgin header :: recvs)
        ⟨0, t.holding base whole n, respList⟩).result =
        some (.leave, ⟨0, t.holding base whole (n + c.length), respList ++ items⟩) := by
  have hround := h.round fd t base respList hparse
  rw [readLoop_leave (by rw [hround]) (afterParse_success_leaves _ _ _), hround]
  exact ⟨rfl, rfl⟩

/-- A chunk on which it waits is followed by the next one. -/
theorem again (h : PiecesLeft cfg whole n (c :: chunks)) (fd : Nat) (t : Thread) (base : ByteMem)
    (respList : List Resp) (hwaits : WaitsAt whole (n + c.length)) (isAgin : Bool)
    (header : MemcachedHeader) (recvs : List RecvResult) :
    parseCodes (readLoop cfg fd (.data c isAgin header :: recvs)
        ⟨0, t.holding base whole n, respList⟩).effects =
      .again :: parseCodes (readLoop cfg fd recvs
        ⟨0, t.holding base whole (n + c.length), respList⟩).effects ∧
      (readLoop cfg fd (.data c isAgin header :: recvs)
        ⟨0, t.holding base whole n, respList⟩).result =
        (readLoop cfg fd recvs ⟨0, t.holding base whole (n + c.length), respList⟩).result := by
  have hround := h.round fd t base respList (hwaits isAgin header base)
  rw [List.append_nil] at hround
  have hnext : (readRound cfg fd (.data c isAgin header)
      ⟨0, t.holding base whole n, respList⟩).result =
        some (.goOn, ⟨0, t.holding base whole (n + c.length), respList⟩) := by
    rw [hround]
    rfl
  rw [readLoop_goOn hnext]
  refine ⟨?_, rfl⟩
  simp only [parseCodes_append]
  rw [hround]
  rfl

/-- **Calls that wait** for every chunk but the last return what they should. -/
theorem readLoop_chunks (h : PiecesLeft cfg whole n chunks) (fd : Nat) (t : Thread)
    (base : ByteMem) (respList : List Resp) (hwaits : ∀ m ∈ properEnds n chunks, WaitsAt whole m)
    {pos : Int} {items : List Resp}
    (hlast : ∀ isAgin header, parseResp isAgin header (ByteMem.ofList whole base) whole.length 0 [] =
      some (.success, pos, items)) {recvs : List RecvResult} (hrecvs : Chunked recvs chunks) :
    parseCodes (readLoop cfg fd recvs ⟨0, t.holding base whole n, respList⟩).effects =
        expectedCodes chunks ∧
      (readLoop cfg fd recvs ⟨0, t.holding base whole n, respList⟩).result =
        some (.leave, ⟨0, t.holding base whole whole.length, respList ++ items⟩) := by
  induction chunks generalizing n recvs with
  | nil => exact absurd rfl h.some_left
  | cons c chunks ih =>
      have htotal := h.total
      obtain ⟨ev, recvs, ⟨isAgin, header, rfl⟩, hrest, rfl⟩ := List.forall₂_cons_right_iff.mp hrecvs
      cases chunks with
      | nil =>
          rw [List.flatten_nil, List.length_nil, Nat.add_zero] at htotal
          have hend := h.success fd t base respList isAgin header
            (by rw [htotal, List.take_length]; exact hlast isAgin header) recvs
          rw [htotal] at hend
          exact hend
      | cons c' chunks =>
          rw [properEnds] at hwaits
          obtain ⟨hhere, hlater⟩ := List.forall_mem_cons.mp hwaits
          obtain ⟨hcodes, hresult⟩ := h.again fd t base respList hhere isAgin header recvs
          obtain ⟨hcodes', hresult'⟩ := ih h.next hlater hrest
          rw [hcodes, hresult, hcodes', hresult', expectedCodes_cons]
          exact ⟨rfl, rfl⟩

/-- **Calls that return what they should** wait for every chunk but the last, where
they wait or are content. -/
theorem waits_of_codes (h : PiecesLeft cfg whole n chunks) (fd : Nat) (t : Thread) (base : ByteMem)
    (respList : List Resp)
    (heither : ∀ m ∈ properEnds n chunks, WaitsAt whole m ∨ TakesAt whole m)
    (hcodes : ∀ recvs, Chunked recvs chunks → parseCodes (readLoop cfg fd recvs
      ⟨0, t.holding base whole n, respList⟩).effects = expectedCodes chunks) :
    ∀ m ∈ properEnds n chunks, WaitsAt whole m := by
  induction chunks generalizing n with
  | nil => exact absurd rfl h.some_left
  | cons c chunks ih =>
      cases chunks with
      | nil => simp [properEnds]
      | cons c' chunks =>
          rw [properEnds] at heither ⊢
          obtain ⟨hhere, hlater⟩ := List.forall_mem_cons.mp heither
          have hwaits : WaitsAt whole (n + c.length) := by
            rcases hhere with hwaits | htakes
            · exact hwaits
            · -- the reading would end here
              obtain ⟨recvs, hrecvs⟩ := exists_chunked (c' :: chunks)
              obtain ⟨pos, items, hparse⟩ := htakes false ⟨0, 0, 0, 0⟩ base
              have hend := (h.success fd t base respList false ⟨0, 0, 0, 0⟩ hparse recvs).1
              rw [hcodes _ (hrecvs.cons ⟨_, _, rfl⟩), expectedCodes_cons] at hend
              simp at hend
          refine List.forall_mem_cons.mpr ⟨hwaits, ih h.next hlater ?_⟩
          intro recvs hrecvs
          have hfirst := (h.again fd t base respList hwaits false ⟨0, 0, 0, 0⟩ recvs).1
          rw [hcodes _ (hrecvs.cons ⟨_, _, rfl⟩), expectedCodes_cons] at hfirst
          exact (List.cons.inj hfirst).2.symm

end PiecesLeft

/-! ## A response that does not fit the buffer -/

/-- A round makes at most one call. -/
theorem readRound_codes (cfg : BackendConfig) (fd : Nat) (ev : RecvResult) (s : ReadState) :
    (parseCodes (readRound cfg fd ev s).effects).length ≤ 1 := by
  rcases readRound_cases cfg fd ev s with
    ⟨flow, _, _, hround⟩ | ⟨bytes, isAgin, header, rfl, hround⟩
  · rw [hround]
    exact Nat.zero_le 1
  · rw [hround]
    rcases recvData_cases cfg fd bytes isAgin header s with
      ⟨_, heq⟩ | ⟨_, _, heq⟩ | ⟨_, _, _, heq⟩ | ⟨code, pos, items, _, _, _, heq⟩
    · rw [heq]
      exact Nat.zero_le 1
    · rw [heq]
      exact Nat.zero_le 1
    · rw [heq]
      exact Nat.zero_le 1
    · rw [heq]
      exact le_refl 1

/-- So there are at most as many calls as rounds. -/
theorem readLoop_codes (cfg : BackendConfig) (fd : Nat) (recvs : List RecvResult) (s : ReadState) :
    (parseCodes (readLoop cfg fd recvs s).effects).length ≤ recvs.length := by
  induction recvs generalizing s with
  | nil => exact Nat.zero_le 0
  | cons ev recvs ih =>
      have hround := readRound_codes cfg fd ev s
      rcases readLoop_cons cfg fd ev recvs s with ⟨s', _, heq⟩ | ⟨_, heq⟩
      · have hrest := ih s'
        rw [heq, parseCodes_append, List.length_append, List.length_cons]
        omega
      · rw [heq, List.length_cons]
        omega

/-- A round that fills the buffer makes none. -/
theorem readRound_overfull (fd : Nat) {bytes : List UInt8} {s : ReadState}
    (hfull : cfg.respBufSize ≤ s.thread.respBufLen + bytes.length) (isAgin : Bool)
    (header : MemcachedHeader) :
    parseCodes (readRound cfg fd (.data bytes isAgin header) s).effects = [] := by
  have hlen : (s.thread.receive (chunkOf cfg s bytes)).respBufLen ≥ cfg.respBufSize := by
    simp only [Thread.receive, chunkOf, List.length_take]
    omega
  rw [readRound_data]
  rcases recvData_cases cfg fd bytes isAgin header s with
    ⟨_, heq⟩ | ⟨_, _, heq⟩ | ⟨_, hroom, _⟩ | ⟨_, _, _, _, hroom, _⟩
  · rw [heq]
    rfl
  · rw [heq]
    rfl
  · omega
  · omega

/-- A round that goes on has put the chunk into the buffer. -/
theorem readRound_received {fd : Nat} {bytes : List UInt8} {s s' : ReadState}
    (hroom : s.thread.respBufLen + bytes.length < cfg.respBufSize) (hne : bytes ≠ [])
    {isAgin : Bool} {header : MemcachedHeader}
    (hgoes : (readRound cfg fd (.data bytes isAgin header) s).result = some (.goOn, s')) :
    s'.thread.respBufLen = s.thread.respBufLen + bytes.length := by
  have hchunk : chunkOf cfg s bytes = bytes := by
    rw [chunkOf, List.take_of_length_le]
    omega
  have hlen : (s.thread.receive bytes).respBufLen = s.thread.respBufLen + bytes.length := rfl
  rw [readRound_data] at hgoes
  rcases recvData_cases cfg fd bytes isAgin header s with
    ⟨hclosed, _⟩ | ⟨_, hfull, _⟩ | ⟨_, _, _, heq⟩ | ⟨code, pos, items, _, _, _, heq⟩
  · rw [hchunk] at hclosed
    exact absurd hclosed hne
  · rw [hchunk, hlen] at hfull
    omega
  · rw [heq] at hgoes
    cases hgoes
  · rw [heq, hchunk] at hgoes
    obtain ⟨hflow, hs⟩ := Prod.mk.inj (Option.some.inj hgoes)
    rw [← hs, ← hlen]
    cases code <;> rfl

/-- **A response that does not fit** is not parsed when its last byte arrives. -/
theorem overfull_codes (fd : Nat) {recvs : List RecvResult} {chunks : List (List UInt8)}
    (hrecvs : Chunked recvs chunks) (hpieces : ∀ c ∈ chunks, c ≠ []) (hsome : chunks ≠ [])
    {s : ReadState} (hfull : cfg.respBufSize ≤ s.thread.respBufLen + chunks.flatten.length) :
    (parseCodes (readLoop cfg fd recvs s).effects).length < chunks.length := by
  induction chunks generalizing recvs s with
  | nil => exact absurd rfl hsome
  | cons c chunks ih =>
      obtain ⟨ev, recvs, ⟨isAgin, header, rfl⟩, hrest, rfl⟩ := List.forall₂_cons_right_iff.mp hrecvs
      have hlength : recvs.length = chunks.length := hrest.length_eq
      rw [List.flatten_cons, List.length_append] at hfull
      rw [List.length_cons]
      rcases Nat.lt_or_ge (s.thread.respBufLen + c.length) cfg.respBufSize with hroom | hover
      · have hmore : chunks ≠ [] := by
          rintro rfl
          rw [List.flatten_nil, List.length_nil] at hfull
          omega
        have hround := readRound_codes cfg fd (.data c isAgin header) s
        have hpos := List.length_pos_iff.mpr hmore
        rcases readLoop_cons cfg fd (.data c isAgin header) recvs s with ⟨s', hgo, heq⟩ | ⟨_, heq⟩
        · have hlen := readRound_received hroom (hpieces c List.mem_cons_self) hgo
          have hlater := ih hrest (fun x hx => hpieces x (List.mem_cons_of_mem _ hx)) hmore (s := s')
            (by omega)
          rw [heq, parseCodes_append, List.length_append]
          omega
        · rw [heq]
          omega
      · have hnone := readRound_overfull fd hover isAgin header
        rcases readLoop_cons cfg fd (.data c isAgin header) recvs s with ⟨s', _, heq⟩ | ⟨_, heq⟩
        · have hlater := readLoop_codes cfg fd recvs s'
          rw [heq, parseCodes_append, hnone, List.nil_append]
          omega
        · rw [heq, hnone]
          exact Nat.succ_pos _

end Chunks

/-! ## The first block -/

namespace ValueBlock

theorem value_prefix (b : ValueBlock) : asciiBytes "VALUE" <+: b.line := by
  simp [line, start]

theorem line_not_return (b : ValueBlock) : (13 : UInt8) ∉ b.line := by
  have hkey := b.key_valid.not_return
  have hflags : (13 : UInt8) ∉ b.flags := fun h => absurd (b.flags_digits.digit 13 h) (by decide)
  have hcount : (13 : UInt8) ∉ b.count := fun h => absurd (b.count_digits.digit 13 h) (by decide)
  have hword : (13 : UInt8) ∉ asciiBytes "VALUE" := by decide
  simp [line, start, hkey, hflags, hcount, hword]

/-- The third space is before the count. -/
theorem behindSpaces_start (b : ValueBlock) (t : List UInt8) :
    behindSpaces 3 (b.start ++ t) = t := by
  have hword : (32 : UInt8) ∉ asciiBytes "VALUE" := by decide
  simp [start, behindSpaces_word hword, behindSpaces_word b.key_valid.not_space,
    behindSpaces_word b.flags_digits.plain.not_space]

theorem line_spaces (b : ValueBlock) : b.line.count 32 = 3 := by
  have hword : (asciiBytes "VALUE").count 32 = 0 := by decide
  have hkey := List.count_eq_zero_of_not_mem b.key_valid.not_space
  have hflags := List.count_eq_zero_of_not_mem b.flags_digits.plain.not_space
  have hcount := List.count_eq_zero_of_not_mem b.count_digits.plain.not_space
  simp [line, start, List.count_append, hword, hkey, hflags, hcount]

/-- Ten digits of the count are enough. -/
theorem count_take_ten {b : ValueBlock} (h : b.count.length ≤ 10 ∨ b.data = []) :
    decimal (b.count.take 10) = b.data.length := by
  rcases h with hlen | hnil
  · rw [List.take_of_length_le hlen, b.count_eq]
  · have hle := decimal_prefix (List.take_prefix 10 b.count)
    rw [b.count_eq, hnil, List.length_nil] at hle
    rw [hnil, List.length_nil]
    omega

theorem length_bytes (b : ValueBlock) :
    b.bytes.length = b.line.length + 2 + b.data.length + 2 := by
  simp only [bytes, List.length_append, List.length_cons, List.length_nil]
  omega

/-- With the whole header line, the measured length is that of the block and `END`. -/
theorem measured_eq {b : ValueBlock} (h : b.count.length ≤ 10 ∨ b.data = []) {n : Nat}
    (hn : b.line.length < n) : b.measured n = b.bytes.length + 5 := by
  have hall : b.count.take (n - b.start.length) = b.count := by
    refine List.take_of_length_le ?_
    rw [line, List.length_append] at hn
    omega
  rw [measured, if_pos hn, hall, count_take_ten h, b.length_bytes]

end ValueBlock

section Blocks

variable (b : ValueBlock) (more : List ValueBlock)

/-- What follows the first block. -/
def tailBytes : List UInt8 := more.flatMap ValueBlock.bytes ++ asciiBytes "END\r\n"

theorem bytes_values : (TextResponse.values (b :: more)).bytes = b.bytes ++ tailBytes more := by
  simp [TextResponse.bytes, tailBytes]

theorem five_le_tailBytes : 5 ≤ (tailBytes more).length := by
  have hend : (asciiBytes "END\r\n").length = 5 := by decide
  rw [tailBytes, List.length_append]
  omega

theorem take_values (n : Nat) : ∃ rest, (TextResponse.values (b :: more)).bytes.take n =
    (b.line ++ 13 :: rest).take n ∧ (TextResponse.values (b :: more)).bytes = b.line ++ 13 :: rest := by
  refine ⟨10 :: (b.data ++ [13, 10]) ++ tailBytes more, ?_, ?_⟩
  · rw [bytes_values, ValueBlock.bytes]
    simp
  · rw [bytes_values, ValueBlock.bytes]
    simp

/-- The header line, of which `n` bytes have arrived. -/
theorem respLine_values (n : Nat) :
    respLine ((TextResponse.values (b :: more)).bytes.take n) = b.line.take n ∧
      ((13 : UInt8) ∈ (TextResponse.values (b :: more)).bytes.take n ↔ b.line.length < n) := by
  obtain ⟨rest, htake, _⟩ := take_values b more n
  have hreturn := b.line_not_return
  rw [htake, List.take_append]
  rcases Nat.lt_or_ge b.line.length n with hin | hcut
  · obtain ⟨k, hk⟩ : ∃ k, n - b.line.length = k + 1 := ⟨n - b.line.length - 1, by omega⟩
    rw [List.take_of_length_le hin.le, hk, List.take_succ_cons, respLine_append hreturn]
    simp [hin]
  · have hreturn' : (13 : UInt8) ∉ b.line.take n := fun h => hreturn (List.mem_of_mem_take h)
    rw [show n - b.line.length = 0 by omega, List.take_zero, List.append_nil,
      respLine_of_not_mem hreturn']
    exact ⟨rfl, ⟨fun h => absurd h hreturn', fun h => absurd h (by omega)⟩⟩

/-- **The length that is measured.** -/
theorem valueLen_values (hsize : (TextResponse.values (b :: more)).bytes.length < 2147483648)
    (n : Nat) : valueLen ((TextResponse.values (b :: more)).bytes.take n) = b.measured n := by
  obtain ⟨hline, hmem⟩ := respLine_values b more n
  have htail := five_le_tailBytes more
  have hlen := b.length_bytes
  rw [bytes_values, List.length_append] at hsize
  have hdigits : respDigits ((TextResponse.values (b :: more)).bytes.take n) =
      (b.count.take (n - b.start.length)).take 10 := by
    rw [respDigits, hline, ValueBlock.line, behindSpaces_take b.behindSpaces_start,
      List.filter_eq_self.mpr]
    intro c hc
    exact b.count_digits.digit c (List.mem_of_mem_take hc)
  have hle : decimal ((b.count.take (n - b.start.length)).take 10) ≤ b.data.length := by
    rw [← b.count_eq]
    exact decimal_prefix ((List.take_prefix _ _).trans (List.take_prefix _ _))
  have hatoi : atoi ((b.count.take (n - b.start.length)).take 10) =
      decimal ((b.count.take (n - b.start.length)).take 10) := by
    rw [atoi_eq_decimal, int32_eq_self (by omega) (by omega)]
    intro c hc
    exact b.count_digits.digit c (List.mem_of_mem_take (List.mem_of_mem_take hc))
  rw [valueLen, hdigits, hatoi, hline, ValueBlock.measured]
  by_cases hn : b.line.length < n
  · rw [if_pos (hmem.mpr hn), if_pos hn, List.take_of_length_le hn.le,
      int32_eq_self (by omega) (by omega)]
    push_cast
    omega
  · rw [if_neg (fun h => hn (hmem.mp h)), if_neg hn, int32_eq_self (by omega) (by omega)]
    push_cast
    omega

/-- The word has arrived with the first five bytes. -/
theorem value_take {n : Nat} (hn : 5 ≤ n) :
    asciiBytes "VALUE" <+: (TextResponse.values (b :: more)).bytes.take n := by
  have hword : (asciiBytes "VALUE").length = 5 := rfl
  have hfive : 5 ≤ b.line.length := b.value_prefix.length_le
  obtain ⟨rest, htake, _⟩ := take_values b more n
  rw [htake, List.take_append]
  refine List.IsPrefix.trans ?_ (List.prefix_append _ _)
  rw [List.prefix_take_iff]
  exact ⟨b.value_prefix, by omega⟩

theorem take_text {n : Nat} (hn : 0 < n) (base : ByteMem) :
    isBinaryProtocol (ByteMem.ofList ((TextResponse.values (b :: more)).bytes.take n) base) =
      false := by
  obtain ⟨m, rfl⟩ : ∃ m, n = m + 1 := ⟨n - 1, by omega⟩
  obtain ⟨rest, hrest⟩ := b.value_prefix
  rw [bytes_values, ValueBlock.bytes, ← hrest]
  rfl

theorem take_spaces (n : Nat) :
    (respLine ((TextResponse.values (b :: more)).bytes.take n)).count 32 ≤ 3 := by
  rw [(respLine_values b more n).1, ← b.line_spaces]
  exact (List.take_sublist n b.line).count_le 32

variable {b more}

section Cut

variable (hsize : (TextResponse.values (b :: more)).bytes.length < 2147483648) {n : Nat}
  (hle : n ≤ (TextResponse.values (b :: more)).bytes.length)

include hsize hle

omit hsize in
theorem length_take_values :
    ((TextResponse.values (b :: more)).bytes.take n).length = n := by
  rw [List.length_take]
  omega

/-- Before the measured length the parser waits. -/
theorem waitsAt_values (hfive : 5 ≤ n) (hshort : n < b.measured n) :
    WaitsAt (TextResponse.values (b :: more)).bytes n := by
  intro isAgin header base
  have hlen := length_take_values hle
  have hwaits := parseResp_waits (by omega) (take_text b more (by omega) base) isAgin header
    (value_take b more hfive) (take_spaces b more n)
    (by rw [valueLen_values b more hsize, hlen]; omega)
  rwa [hlen] at hwaits

/-- From the measured length on it takes everything, unless `VALUE` follows there. -/
theorem takes_measured (hfive : 5 ≤ n) (hlong : b.measured n ≤ n)
    (hnot : ¬ asciiBytes "VALUE" <+:
      ((TextResponse.values (b :: more)).bytes.take n).drop (b.measured n))
    (isAgin : Bool) (header : MemcachedHeader) (base : ByteMem) :
    parseResp isAgin header
        (ByteMem.ofList ((TextResponse.values (b :: more)).bytes.take n) base) n 0 [] =
      some (.success, (n : Int), ⟨0, b.measured n, 0⟩ :: restItems (b.measured n) n) := by
  have hlen := length_take_values hle
  have htakes := parseResp_measured (by omega) (take_text b more (by omega) base) isAgin header
    (value_take b more hfive) (take_spaces b more n) (valueLen_values b more hsize n)
    (by rw [hlen]; exact hlong) hnot
  rwa [hlen] at htakes

end Cut

theorem not_value_cons {c : UInt8} (hc : c ≠ 86) (t : List UInt8) :
    ¬ asciiBytes "VALUE" <+: c :: t := by
  intro h
  have hword : asciiBytes "VALUE" = 86 :: asciiBytes "ALUE" := by decide
  rw [hword] at h
  exact hc (List.cons_prefix_cons.mp h).1.symm

/-- Behind the first block and five bytes, no block starts. -/
theorem no_value_behind (b : ValueBlock) (more : List ValueBlock) :
    ¬ asciiBytes "VALUE" <+:
      (TextResponse.values (b :: more)).bytes.drop (b.bytes.length + 5) := by
  rw [bytes_values, ← List.drop_drop, List.drop_left]
  cases more with
  | nil =>
      have hend : (tailBytes []).drop 5 = [] := by decide
      rw [hend]
      decide
  | cons b' more =>
      have hnext : tailBytes (b' :: more) = asciiBytes "VALUE" ++ 32 :: (b'.key ++ 32 ::
          (b'.flags ++ 32 :: (b'.count ++ 13 :: 10 :: (b'.data ++ 13 :: 10 :: tailBytes more)))) := by
        simp [tailBytes, ValueBlock.bytes, ValueBlock.line, ValueBlock.start]
      have hfive : (asciiBytes "VALUE").length = 5 := rfl
      rw [hnext, ← hfive, List.drop_left]
      exact not_value_cons (by decide) _

/-- A word in the header line behind `VALUE` is in the key. -/
theorem no_value_in_line {b : ValueBlock} (hkey : ¬ asciiBytes "VALUE" <:+: b.key) {len : Nat}
    (hlen : 7 ≤ len) : ¬ asciiBytes "VALUE" <+: b.line.drop len := by
  intro hp
  obtain ⟨q, rfl⟩ := Nat.exists_eq_add_of_le (show 6 ≤ len by omega)
  have hline : b.line = (asciiBytes "VALUE" ++ [32]) ++ (b.key ++ 32 :: (b.flags ++ 32 :: b.count)) := by
    simp [ValueBlock.line, ValueBlock.start]
  have hsix : (asciiBytes "VALUE" ++ [32]).length = 6 := rfl
  rw [hline, ← List.drop_drop, ← hsix, List.drop_left, List.drop_append] at hp
  have hword : (32 : UInt8) ∉ asciiBytes "VALUE" := by decide
  rcases Nat.lt_or_ge b.key.length q with hout | hin
  · -- behind the key there are only digits and spaces
    obtain ⟨k, hk⟩ : ∃ k, q - b.key.length = k + 1 := ⟨q - b.key.length - 1, by omega⟩
    rw [List.drop_of_length_le hout.le, List.nil_append, hk, List.drop_succ_cons] at hp
    have hmem : (86 : UInt8) ∈ b.flags ++ 32 :: b.count :=
      List.mem_of_mem_drop (hp.subset (by decide))
    rcases List.mem_append.mp hmem with hflags | hrest
    · exact absurd (b.flags_digits.digit 86 hflags) (by decide)
    · rcases List.mem_cons.mp hrest with hspace | hcount
      · exact absurd hspace (by decide)
      · exact absurd (b.count_digits.digit 86 hcount) (by decide)
  · rw [show q - b.key.length = 0 by omega, List.drop_zero] at hp
    exact hkey ((prefix_before hword hp).isInfix.trans (List.drop_suffix q b.key).isInfix)

/-- A cut that is not waited for is taken for the whole, when the first block is
measured right and its key has no `VALUE` in it. -/
theorem takesAt_values (hmeasured : (TextResponse.values (b :: more)).Measured)
    (hsize : (TextResponse.values (b :: more)).bytes.length < 2147483648) {n : Nat} (hpos : 0 < n)
    (hle : n ≤ (TextResponse.values (b :: more)).bytes.length)
    (hnot : ¬ (5 ≤ n ∧ n < b.measured n)) : TakesAt (TextResponse.values (b :: more)).bytes n := by
  obtain ⟨hcount, hkey⟩ := hmeasured
  have hlen := length_take_values hle
  intro isAgin header base
  by_cases hfive : 5 ≤ n
  · have hlong : b.measured n ≤ n := by omega
    rcases Nat.lt_or_ge b.line.length n with hline | hline
    · refine ⟨_, _, takes_measured hsize hle hfive hlong ?_ isAgin header base⟩
      rw [ValueBlock.measured_eq hcount hline]
      exact fun hp => no_value_behind b more (hp.trans ((List.take_prefix _ _).drop _))
    · refine ⟨_, _, takes_measured hsize hle hfive hlong ?_ isAgin header base⟩
      obtain ⟨rest, htake, _⟩ := take_values b more n
      rw [htake, List.take_append_of_le_length hline]
      intro hp
      refine no_value_in_line hkey ?_ (hp.trans ((List.take_prefix _ _).drop _))
      unfold ValueBlock.measured
      omega
  · have hshort : ¬ asciiBytes "VALUE" <+: (TextResponse.values (b :: more)).bytes.take n := by
      intro hp
      have hword : (asciiBytes "VALUE").length = 5 := rfl
      have := hp.length_le
      omega
    have hother := parseResp_other (by omega) (take_text b more hpos base) isAgin header
      (by rw [← List.length_pos_iff, hlen]; exact hpos) hshort
    rw [hlen] at hother
    exact ⟨_, _, hother⟩

/-- **The last call** takes the first block with what is behind it, and the rest. -/
theorem parseResp_values (hcount : b.count.length ≤ 10 ∨ b.data = [])
    (hsize : (TextResponse.values (b :: more)).bytes.length < 2147483648) (isAgin : Bool)
    (header : MemcachedHeader) (base : ByteMem) :
    parseResp isAgin header (ByteMem.ofList (TextResponse.values (b :: more)).bytes base)
        (TextResponse.values (b :: more)).bytes.length 0 [] =
      some (.success, ((TextResponse.values (b :: more)).bytes.length : Int),
        ⟨0, b.bytes.length + 5, 0⟩ ::
          restItems (b.bytes.length + 5) (TextResponse.values (b :: more)).bytes.length) := by
  have htail := five_le_tailBytes more
  have hblock := b.length_bytes
  have htotal : (TextResponse.values (b :: more)).bytes.length =
      b.bytes.length + (tailBytes more).length := by
    rw [bytes_values, List.length_append]
  have hlen := ValueBlock.measured_eq hcount
    (n := (TextResponse.values (b :: more)).bytes.length) (by omega)
  have hlast := takes_measured hsize (le_refl _) (by omega) (by rw [hlen]; omega) (by
    rw [hlen, List.take_length]
    exact no_value_behind b more) isAgin header base
  rwa [hlen, List.take_length] at hlast

end Blocks

/-- What was taken in two pieces is the whole. -/
theorem restItems_bytes {t : List UInt8} {len : Nat} (h : len ≤ t.length) (base : ByteMem) :
    ((⟨0, len, 0⟩ :: restItems len t.length : List Resp).map
      (fun i => i.bytes (ByteMem.ofList t base))).flatten = t := by
  have hwhole := ByteMem.slice_ofList t base
  obtain ⟨rest, hrest⟩ := Nat.exists_eq_add_of_le h
  rw [hrest, ByteMem.slice_add, Int.zero_add] at hwhole
  rw [List.map_cons, List.flatten_cons, Resp.bytes, hrest]
  unfold restItems
  split_ifs with hlt
  · rw [Nat.add_sub_cancel_left]
    simpa [Resp.bytes] using hwhole
  · obtain rfl : rest = 0 := by omega
    simpa using hwhole

/-! ## Lines that are taken at once -/

/-- Text that is not binary and starts with no block. -/
structure PlainText (t : List UInt8) : Prop where
  no_value : ¬ asciiBytes "VALUE" <+: t
  text : t.head? ≠ some magicReq ∧ t.head? ≠ some magicRes

theorem StatusLine.plainText (l : StatusLine) : PlainText (TextResponse.status l).bytes := by
  have hword : (13 : UInt8) ∉ asciiBytes "VALUE" := by decide
  refine ⟨fun hp => l.no_value (prefix_before hword hp), ?_⟩
  have htext := l.text
  rw [TextResponse.bytes]
  cases hline : l.line with
  | nil => decide
  | cons c cs =>
      rw [hline] at htext
      exact htext

theorem plainText_end : PlainText (TextResponse.values []).bytes := ⟨by decide, by decide⟩

/-- However little of it has arrived, it is taken. -/
theorem PlainText.parsed {t : List UInt8} (h : PlainText t) (hsize : t.length < 2147483648) {n : Nat}
    (hpos : 0 < n) (hle : n ≤ t.length) (isAgin : Bool) (header : MemcachedHeader) (base : ByteMem) :
    parseResp isAgin header (ByteMem.ofList (t.take n) base) n 0 [] =
      some (.success, (n : Int), [⟨0, n, 0⟩]) := by
  have hlen : (t.take n).length = n := by
    rw [List.length_take]
    omega
  obtain ⟨m, rfl⟩ : ∃ m, n = m + 1 := ⟨n - 1, by omega⟩
  have hne : t ≠ [] := by
    rintro rfl
    simp at hle
  have htext : isBinaryProtocol (ByteMem.ofList (t.take (m + 1)) base) = false := by
    have hhead := h.text
    obtain ⟨c, cs, rfl⟩ := List.exists_cons_of_ne_nil hne
    simp only [List.head?_cons, ne_eq, Option.some.injEq] at hhead
    rw [List.take_succ_cons, ← Bool.not_eq_true, isBinaryProtocol_ofList, not_or]
    exact hhead
  have hother := parseResp_other (by omega) htext isAgin header
    (by rw [← List.length_pos_iff, hlen]; exact hpos)
    (fun hp => h.no_value (hp.trans (List.take_prefix _ _)))
  rwa [hlen] at hother

/-! ## The whole response -/

section Whole

variable {cfg : BackendConfig} {r : TextResponse} {chunks : List (List UInt8)}

/-- `readFromBackend` starts the loop with an empty buffer. -/
theorem holding_empty (t : Thread) (whole : List UInt8) (respList : List Resp) :
    (⟨0, { t with respBufLen := 0 }, respList⟩ : ReadState) =
      ⟨0, t.holding t.respBuf whole 0, respList⟩ := by
  simp [Thread.holding, ByteMem.write_nil]

theorem properEnds_bounds {whole : List UInt8} {n : Nat} (h : PiecesLeft cfg whole n chunks)
    {m : Nat} (hm : m ∈ properEnds n chunks) : n < m ∧ m < whole.length := by
  induction chunks generalizing n with
  | nil => simp [properEnds] at hm
  | cons c chunks ih =>
      cases chunks with
      | nil => simp [properEnds] at hm
      | cons c' chunks =>
          have htotal := h.total
          have hpos := List.length_pos_iff.mpr (h.pieces c List.mem_cons_self)
          have hpos' := List.length_pos_iff.mpr (h.pieces c' (by simp))
          rw [List.flatten_cons, List.length_append] at htotal
          rw [properEnds] at hm
          rcases List.mem_cons.mp hm with rfl | hm
          · omega
          · have := ih h.next hm
            omega

theorem properEnds_eq_nil (hsome : chunks ≠ []) :
    (∀ n, n ∉ properEnds 0 chunks) ↔ chunks.length = 1 := by
  match chunks, hsome with
  | [c], _ => simp [properEnds]
  | c :: c' :: chunks, _ =>
      simp only [properEnds, List.length_cons]
      exact ⟨fun h => absurd List.mem_cons_self (h _), fun h => absurd h (by omega)⟩

/-- Calls that wait for every chunk but the last, and then take the response. -/
theorem reassembles_of_waits (h : PiecesLeft cfg r.bytes 0 chunks)
    (hwaits : ∀ n ∈ properEnds 0 chunks, WaitsAt r.bytes n) {pos : Int} {items : List Resp}
    (hlast : ∀ isAgin header base,
      parseResp isAgin header (ByteMem.ofList r.bytes base) r.bytes.length 0 [] =
        some (.success, pos, items))
    (hitems : ∀ base, (items.map (fun i => i.bytes (ByteMem.ofList r.bytes base))).flatten =
      r.bytes) : TextReassembles cfg r chunks := by
  intro fd recvs t respList hrecvs
  obtain ⟨hcodes, hresult⟩ := h.readLoop_chunks fd t t.respBuf respList hwaits
    (fun isAgin header => hlast isAgin header t.respBuf) hrecvs
  rw [readFromBackend_eq, holding_empty t r.bytes]
  refine ⟨hcodes, ?_⟩
  rw [hresult]
  refine ⟨_, items, rfl, ?_⟩
  simp only [Thread.holding, List.take_length, ByteMem.write_zero]
  exact hitems t.respBuf

/-- What calls that return what they should do with the chunks. -/
theorem waits_of_reassembles (h : PiecesLeft cfg r.bytes 0 chunks)
    (heither : ∀ n ∈ properEnds 0 chunks, WaitsAt r.bytes n ∨ TakesAt r.bytes n)
    (hright : TextReassembles cfg r chunks) : ∀ n ∈ properEnds 0 chunks, WaitsAt r.bytes n := by
  refine h.waits_of_codes 0 (Thread.new (fun _ => 0)) (fun _ => 0) [] heither ?_
  intro recvs hrecvs
  have hcodes := (hright 0 recvs (Thread.new (fun _ => 0)) [] hrecvs).1
  rw [readFromBackend_eq, holding_empty _ r.bytes] at hcodes
  exact hcodes

/-- A response that is reassembled fits the buffer. -/
theorem room_of_reassembles (hpieces : ∀ c ∈ chunks, c ≠ []) (hflatten : chunks.flatten = r.bytes)
    (hsome : chunks ≠ []) (hright : TextReassembles cfg r chunks) :
    r.bytes.length < cfg.respBufSize := by
  by_contra hfull
  obtain ⟨recvs, hrecvs⟩ := exists_chunked chunks
  have hcodes := (hright 0 recvs (Thread.new (fun _ => 0)) [] hrecvs).1
  have hfew : (parseCodes (readLoop cfg 0 recvs
      ⟨0, { Thread.new (fun _ => 0) with respBufLen := 0 }, []⟩).effects).length < chunks.length := by
    refine overfull_codes 0 hrecvs hpieces hsome ?_
    rw [hflatten]
    exact le_trans (not_lt.mp hfull) (Nat.le_add_left _ _)
  rw [readFromBackend_eq] at hcodes
  rw [hcodes, expectedCodes, List.length_append, List.length_replicate,
    List.length_singleton] at hfew
  omega

theorem waits_ne_takes {whole : List UInt8} {n : Nat} (hwaits : WaitsAt whole n)
    (htakes : TakesAt whole n) : False := by
  obtain ⟨pos, items, hparse⟩ := htakes false ⟨0, 0, 0, 0⟩ (fun _ => 0)
  rw [hwaits] at hparse
  simp at hparse

/-- A line is reassembled when it comes in one chunk. -/
theorem line_reassembles_iff (hplain : PlainText r.bytes) (h : PiecesLeft cfg r.bytes 0 chunks) :
    TextReassembles cfg r chunks ↔ chunks.length = 1 := by
  have hsize : r.bytes.length < 2147483648 := h.room.trans cfg.respBufSize_lt
  rw [← properEnds_eq_nil h.some_left]
  constructor
  · intro hright n hn
    have htakes : ∀ m ∈ properEnds 0 chunks, TakesAt r.bytes m := by
      intro m hm isAgin header base
      obtain ⟨hlo, hhi⟩ := properEnds_bounds h hm
      exact ⟨_, _, hplain.parsed hsize hlo hhi.le isAgin header base⟩
    have hwaits := waits_of_reassembles h (fun m hm => Or.inr (htakes m hm)) hright
    exact waits_ne_takes (hwaits n hn) (htakes n hn)
  · intro hnone
    have hpos : 0 < r.bytes.length := by
      have hflatten := h.flatten
      rw [List.drop_zero] at hflatten
      obtain ⟨c, cs, rfl⟩ := List.exists_cons_of_ne_nil h.some_left
      have hc := List.length_pos_iff.mpr (h.pieces c List.mem_cons_self)
      rw [← hflatten, List.flatten_cons, List.length_append]
      omega
    have hlast : ∀ isAgin header base,
        parseResp isAgin header (ByteMem.ofList r.bytes base) r.bytes.length 0 [] =
          some (.success, (r.bytes.length : Int), [⟨0, r.bytes.length, 0⟩]) := by
      intro isAgin header base
      have hparse := hplain.parsed hsize hpos (le_refl _) isAgin header base
      rwa [List.take_length] at hparse
    refine reassembles_of_waits h (fun n hn => absurd hn (hnone n)) hlast ?_
    intro base
    have hbytes := restItems_bytes (le_refl r.bytes.length) base
    rwa [restItems, if_neg (lt_irrefl _)] at hbytes

/-- Blocks are reassembled when every chunk but the last is waited for. -/
theorem values_reassembles {b : ValueBlock} {more : List ValueBlock}
    (h : PiecesLeft cfg (TextResponse.values (b :: more)).bytes 0 chunks)
    (hcount : b.count.length ≤ 10 ∨ b.data = [])
    (hcuts : ∀ n ∈ properEnds 0 chunks, 5 ≤ n ∧ n < b.measured n) :
    TextReassembles cfg (.values (b :: more)) chunks := by
  have hsize := h.room.trans cfg.respBufSize_lt
  have htail := five_le_tailBytes more
  have htotal : (TextResponse.values (b :: more)).bytes.length =
      b.bytes.length + (tailBytes more).length := by
    rw [bytes_values, List.length_append]
  refine reassembles_of_waits h ?_ (parseResp_values hcount hsize) (restItems_bytes (by omega))
  intro n hn
  obtain ⟨hfive, hshort⟩ := hcuts n hn
  exact waitsAt_values hsize (properEnds_bounds h hn).2.le hfive hshort

/-- And only then, when the first block is measured right and its key has no `VALUE`
in it. -/
theorem cuts_of_reassembles {b : ValueBlock} {more : List ValueBlock}
    (h : PiecesLeft cfg (TextResponse.values (b :: more)).bytes 0 chunks)
    (hmeasured : (TextResponse.values (b :: more)).Measured)
    (hright : TextReassembles cfg (.values (b :: more)) chunks) :
    ∀ n ∈ properEnds 0 chunks, 5 ≤ n ∧ n < b.measured n := by
  have hsize := h.room.trans cfg.respBufSize_lt
  have htakes : ∀ n ∈ properEnds 0 chunks, ¬ (5 ≤ n ∧ n < b.measured n) →
      TakesAt (TextResponse.values (b :: more)).bytes n := by
    intro n hn hnot
    obtain ⟨hlo, hhi⟩ := properEnds_bounds h hn
    exact takesAt_values hmeasured hsize hlo hhi.le hnot
  have hwaits := waits_of_reassembles h (by
    intro n hn
    by_cases hcut : 5 ≤ n ∧ n < b.measured n
    · exact Or.inl (waitsAt_values hsize (properEnds_bounds h hn).2.le hcut.1 hcut.2)
    · exact Or.inr (htakes n hn hcut)) hright
  intro n hn
  by_contra hnot
  exact waits_ne_takes (hwaits n hn) (htakes n hn hnot)

/-- **Reassembly of text.**  For every text response and every split of it into
chunks, the calls of `parse_resp` return what they should and find the bytes of the
response when it is framed; and only then, unless the first block is measured wrong
or its key has `VALUE` in it. -/
theorem text_reassembles (cfg : BackendConfig) (r : TextResponse) {chunks : List (List UInt8)}
    (hpieces : ∀ c ∈ chunks, c ≠ []) (hflatten : chunks.flatten = r.bytes) :
    (r.Framed cfg chunks → TextReassembles cfg r chunks) ∧
      (r.Measured → TextReassembles cfg r chunks → r.Framed cfg chunks) := by
  have hsome : chunks ≠ [] := by
    rintro rfl
    have hlen := congrArg List.length hflatten
    cases r with
    | status l => simp [TextResponse.bytes] at hlen
    | values blocks => simp [TextResponse.bytes, asciiBytes] at hlen
  have hleft : r.bytes.length < cfg.respBufSize → PiecesLeft cfg r.bytes 0 chunks :=
    fun hroom => ⟨hroom, hpieces, hsome, Nat.zero_le _, by rw [hflatten, List.drop_zero]⟩
  constructor
  · intro hframed
    obtain ⟨hroom, hcuts⟩ := hframed
    cases r with
    | status l => exact (line_reassembles_iff l.plainText (hleft hroom)).mpr hcuts
    | values blocks =>
        cases blocks with
        | nil => exact (line_reassembles_iff plainText_end (hleft hroom)).mpr hcuts
        | cons b more => exact values_reassembles (hleft hroom) hcuts.1 hcuts.2
  · intro hmeasured hright
    have hroom := room_of_reassembles hpieces hflatten hsome hright
    refine ⟨hroom, ?_⟩
    cases r with
    | status l => exact (line_reassembles_iff l.plainText (hleft hroom)).mp hright
    | values blocks =>
        cases blocks with
        | nil => exact (line_reassembles_iff plainText_end (hleft hroom)).mp hright
        | cons b more =>
            exact ⟨hmeasured.1, cuts_of_reassembles (hleft hroom) hmeasured hright⟩

end Whole

theorem oneByte_parts : ValidKey [97] ∧ Digits [48] ∧ Digits [49] ∧
    decimal [49] = ([120] : List UInt8).length :=
  ⟨validKey_letter (by decide), ⟨by simp, by simp [isDigitByte]⟩, ⟨by simp, by simp [isDigitByte]⟩,
    by decide⟩

/-- `VALUE a 0 1`, with the data `x`. -/
def oneByteBlock : ValueBlock where
  key := [97]
  flags := [48]
  count := [49]
  data := [120]
  key_valid := oneByte_parts.1
  flags_digits := oneByte_parts.2.1
  count_digits := oneByte_parts.2.2.1
  count_eq := oneByte_parts.2.2.2

/-- The response of 21 bytes comes in two chunks, and is cut before the end of the
data. -/
theorem text_reassembles_one_value :
    TextReassembles .default (.values [oneByteBlock])
      [(TextResponse.values [oneByteBlock]).bytes.take 14,
        (TextResponse.values [oneByteBlock]).bytes.drop 14] :=
  (text_reassembles .default (.values [oneByteBlock]) (by decide) (by decide)).1
    ⟨by decide +kernel, Or.inl (by decide), by decide⟩

theorem stored_parts : (∀ c ∈ asciiBytes "STORED", c ≠ 13 ∧ c ≠ 10) ∧
    ¬ asciiBytes "VALUE" <+: asciiBytes "STORED" ∧
    (asciiBytes "STORED").head? ≠ some magicReq ∧ (asciiBytes "STORED").head? ≠ some magicRes := by
  decide +kernel

/-- `STORED`. -/
def storedLine : StatusLine where
  line := asciiBytes "STORED"
  one_line := stored_parts.1
  no_value := stored_parts.2.1
  text := stored_parts.2.2

/-- What the host sends, in two pieces. -/
def storedRecvs : List RecvResult :=
  [.data (asciiBytes "ST") false ⟨0, 0, 0, 0⟩, .data (asciiBytes "ORED\r\n") false ⟨0, 0, 0, 0⟩]

/-- **A status line cut short.**  Of `STORED` in two chunks, the first is taken for
the response. -/
theorem stored_cut_short :
    parseCodes (readFromBackend .default 5 storedRecvs (Thread.new (fun _ => 0)) []).effects =
      [.success] ∧
    ¬ TextReassembles .default (.status storedLine) [asciiBytes "ST", asciiBytes "ORED\r\n"] := by
  have hcodes : parseCodes (readFromBackend .default 5 storedRecvs
      (Thread.new (fun _ => 0)) []).effects = [.success] := by
    decide +kernel
  refine ⟨hcodes, ?_⟩
  intro h
  have hchunked : Chunked storedRecvs [asciiBytes "ST", asciiBytes "ORED\r\n"] :=
    .cons ⟨_, _, rfl⟩ (.cons ⟨_, _, rfl⟩ .nil)
  have hexpected := (h 5 storedRecvs (Thread.new (fun _ => 0)) [] hchunked).1
  rw [hcodes] at hexpected
  exact absurd hexpected (by decide)

end KvProxy
