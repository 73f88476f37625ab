import KvProxy.Packet
import KvProxy.TextScan

/-!
# What text is taken for

`get_opcode` compares the bytes at a position with the names of the commands and
takes everything else for `get`; it does not know how many bytes have arrived.
The offset of the key is written at the first space only.

* `received_only_iff` — when `parse_req` makes the same of the received bytes
  whatever lies behind them and whatever the header held before;
* `unsupported_refused_iff` — when it refuses a command it does not know.
-/

namespace KvProxy

open MachineInt

/-! ## Outside the passes over text -/

/-- In text mode, what starts with a magic byte is refused. -/
theorem parseReq_magic {m : ByteMem} (hmagic : isBinaryProtocol m = true) (header : MemcachedHeader)
    (size p : Int) (before : List Req) :
    parseReq false header m size p before = some (.error, p, before) := by
  unfold parseReq
  dsimp only
  rw [hmagic, if_pos (by simp)]

/-- Behind the received bytes there is nothing to parse. -/
theorem parseReq_nothing {m : ByteMem} (htext : isBinaryProtocol m = false) {size p : Int}
    (hrem : ¬ 0 < int32 (size - p)) (header : MemcachedHeader) (before : List Req) :
    parseReq false header m size p before = some (.success, p, before) := by
  have hpass : parseReqBody m size false ⟨p, before, false, header⟩ =
      (some .success, ⟨p, before, false, header⟩) := by
    unfold parseReqBody
    rw [if_neg hrem]
    rfl
  have hfuel : loopFuel = 4294967296 + 1 := rfl
  unfold parseReq
  dsimp only
  rw [htext, if_neg (by simp), hfuel, Loop.run_leave _ hpass]
  rfl

/-- The protocol is read off the first byte. -/
theorem isBinaryProtocol_ofList {c : UInt8} {cs : List UInt8} (memory : ByteMem) :
    isBinaryProtocol (ByteMem.ofList (c :: cs) memory) = true ↔ c = magicReq ∨ c = magicRes := by
  have hfirst : ByteMem.ofList (c :: cs) memory 0 = c := rfl
  simp [isBinaryProtocol, hfirst]

/-! ## The bytes received -/

/-- `parse_req` makes the same of the received bytes whatever lies behind them,
and whatever the header variable holds. -/
def ReceivedOnly (bytes : List UInt8) (p : Nat) (before : List Req) : Prop :=
  ∀ memory memory' header header',
    parseReq false header (ByteMem.ofList bytes memory) bytes.length p before =
      parseReq false header' (ByteMem.ofList bytes memory') bytes.length p before

/-- The received bytes decide: there are none at the position, they are refused
for their first byte, or they have a whole word at the position. -/
def WordReceived (bytes : List UInt8) (p : Nat) : Prop :=
  bytes.length ≤ p ∨ bytes.head? = some magicReq ∨ bytes.head? = some magicRes ∨
    32 ∈ bytes.drop p ∨ asciiBytes "quit" <+: bytes.drop p

section Words

variable {t w : List UInt8}

/-- A word that has been received is found. -/
theorem startsWith_of_prefix (h : w <+: t) (memory : ByteMem) :
    startsWith (ByteMem.ofList t memory) w = true := by
  have hwhole := ByteMem.slice_ofList t memory
  have hcut := ByteMem.slice_prefix (ByteMem.ofList t memory) 0 h.length_le
  rw [hwhole] at hcut
  have heq : (ByteMem.ofList t memory).slice 0 w.length = w :=
    (List.prefix_of_prefix_length_le hcut h (by simp)).eq_of_length (by simp)
  simpa [startsWith] using heq

/-- A word that is found has been received, or is longer than what has. -/
theorem prefix_of_startsWith {memory : ByteMem}
    (h : startsWith (ByteMem.ofList t memory) w = true) : w <+: t ∨ t <+: w := by
  have hword : (ByteMem.ofList t memory).slice 0 w.length = w := by simpa [startsWith] using h
  have hwhole := ByteMem.slice_ofList t memory
  rcases Nat.le_total w.length t.length with hle | hle
  · left
    have hcut := ByteMem.slice_prefix (ByteMem.ofList t memory) 0 hle
    rwa [hword, hwhole] at hcut
  · right
    have hcut := ByteMem.slice_prefix (ByteMem.ofList t memory) 0 hle
    rwa [hword, hwhole] at hcut

/-- A word ends before a byte that is not in it. -/
theorem prefix_before {c : UInt8} {cmd rest : List UInt8} (hw : c ∉ w)
    (hp : w <+: cmd ++ c :: rest) : w <+: cmd := by
  rcases List.prefix_or_prefix_of_prefix hp (List.prefix_append cmd (c :: rest)) with hp' | ⟨u, rfl⟩
  · exact hp'
  · rw [List.prefix_append_right_inj] at hp
    cases u with
    | nil => simp
    | cons c' u =>
        obtain ⟨rfl, _⟩ := List.cons_prefix_cons.mp hp
        exact absurd (by simp) hw

/-- A space that has been received decides the comparison with a word. -/
theorem startsWith_word {cmd rest : List UInt8} (hw : (32 : UInt8) ∉ w) (memory : ByteMem) :
    startsWith (ByteMem.ofList (cmd ++ 32 :: rest) memory) w = true ↔ w <+: cmd := by
  constructor
  · intro h
    have hp : w <+: cmd ++ 32 :: rest := by
      rcases prefix_of_startsWith h with hp | hp
      · exact hp
      · exact absurd (hp.subset (by simp)) hw
    exact prefix_before hw hp
  · intro h
    exact startsWith_of_prefix (h.trans (List.prefix_append _ _)) memory

/-- So it decides the opcode. -/
theorem getOpcode_word {cmd : List UInt8} (rest rest' : List UInt8) (memory memory' : ByteMem) :
    getOpcode (ByteMem.ofList (cmd ++ 32 :: rest) memory) =
      getOpcode (ByteMem.ofList (cmd ++ 32 :: rest') memory') := by
  have hword : ∀ w, (32 : UInt8) ∉ w →
      startsWith (ByteMem.ofList (cmd ++ 32 :: rest) memory) w =
        startsWith (ByteMem.ofList (cmd ++ 32 :: rest') memory') w := by
    intro w hw
    rw [Bool.eq_iff_iff, startsWith_word hw, startsWith_word hw]
  unfold getOpcode
  rw [hword (asciiBytes "get") (by decide), hword (asciiBytes "set") (by decide),
    hword (asciiBytes "add") (by decide), hword (asciiBytes "replace") (by decide),
    hword (asciiBytes "delete") (by decide), hword (asciiBytes "incr") (by decide),
    hword (asciiBytes "decr") (by decide), hword (asciiBytes "quit") (by decide),
    hword (asciiBytes "append") (by decide), hword (asciiBytes "prepend") (by decide)]

/-- The walk does not depend on the offset of the key from before. -/
theorem scanBytes_received (ht : (32 : UInt8) ∈ t) (e e' : Int) :
    scanBytes t 0 ⟨0, 0, 0, 0, e, []⟩ = scanBytes t 0 ⟨0, 0, 0, 0, e', []⟩ := by
  obtain ⟨cmd, rest, rfl, hcmd⟩ := List.eq_append_cons_of_mem ht
  rw [scanBytes_firstSpace hcmd, scanBytes_firstSpace hcmd]

end Words

/-- The pass over received text. -/
theorem parseReq_ofList {bytes : List UInt8} (hsize : bytes.length < 2147483648) {p : Nat}
    (hp : p < bytes.length) {memory : ByteMem}
    (htext : isBinaryProtocol (ByteMem.ofList bytes memory) = false) (header : MemcachedHeader)
    (before : List Req) :
    parseReq false header (ByteMem.ofList bytes memory) bytes.length p before =
      some (textResult (ByteMem.ofList bytes memory) bytes.length p before
        (tryReadRequestText
          (ByteMem.ofList (bytes.drop p) ((ByteMem.ofList bytes memory).shift p))
          (bytes.drop p).length header).2) := by
  have hrem : int32 ((bytes.length : Int) - p) = (bytes.drop p).length := by
    rw [int32_eq_self (by omega) (by omega), List.length_drop]
    omega
  have hpos : 0 < (bytes.drop p).length := by
    rw [List.length_drop]
    omega
  rw [parseReq_text htext (by rw [hrem]; omega), hrem, ← ByteMem.shift_ofList bytes memory hp.le]

/-- With a space in the text, the bytes decide. -/
theorem receivedOnly_of_space {bytes : List UInt8} (hsize : bytes.length < 2147483648) {p : Nat}
    (hp : p < bytes.length) (htext : ∀ memory, isBinaryProtocol (ByteMem.ofList bytes memory) = false)
    (hspace : (32 : UInt8) ∈ bytes.drop p) (before : List Req) : ReceivedOnly bytes p before := by
  intro memory memory' header header'
  obtain ⟨cmd, rest, hcut, _⟩ := List.eq_append_cons_of_mem hspace
  have hquit : startsWith ((ByteMem.ofList bytes memory).shift p) (asciiBytes "quit") =
      startsWith ((ByteMem.ofList bytes memory').shift p) (asciiBytes "quit") := by
    rw [ByteMem.shift_ofList bytes memory hp.le, ByteMem.shift_ofList bytes memory' hp.le, hcut,
      Bool.eq_iff_iff, startsWith_word (by decide), startsWith_word (by decide)]
  have hop : getOpcode ((ByteMem.ofList bytes memory).shift p) =
      getOpcode ((ByteMem.ofList bytes memory').shift p) := by
    rw [ByteMem.shift_ofList bytes memory hp.le, ByteMem.shift_ofList bytes memory' hp.le, hcut]
    exact getOpcode_word rest rest _ _
  rw [parseReq_ofList hsize hp (htext memory), parseReq_ofList hsize hp (htext memory'),
    tryReadRequestText_ofList, tryReadRequestText_ofList, textResult, textResult, hquit, textFlags,
    textFlags, hop, ← ByteMem.shift_ofList bytes memory hp.le,
    ← ByteMem.shift_ofList bytes memory' hp.le, hop,
    scanBytes_received hspace header.extlen header'.extlen]

/-- So they do when they start with `quit`. -/
theorem receivedOnly_of_quit {bytes : List UInt8} (hsize : bytes.length < 2147483648) {p : Nat}
    (hp : p < bytes.length) (htext : ∀ memory, isBinaryProtocol (ByteMem.ofList bytes memory) = false)
    (hquit : asciiBytes "quit" <+: bytes.drop p) (before : List Req) :
    ReceivedOnly bytes p before := by
  have hignored : ∀ memory header,
      parseReq false header (ByteMem.ofList bytes memory) bytes.length p before =
        some (.ignore, (p : Int), before) := by
    intro memory header
    have hword : startsWith ((ByteMem.ofList bytes memory).shift p) (asciiBytes "quit") = true := by
      rw [ByteMem.shift_ofList bytes memory hp.le]
      exact startsWith_of_prefix hquit _
    rw [parseReq_ofList hsize hp (htext memory), textResult, if_pos hword]
  intro memory memory' header header'
  rw [hignored, hignored]

/-- Blanks behind text do not complete a word. -/
theorem startsWith_blank {t w : List UInt8} (hw : (32 : UInt8) ∉ w) (ht : ¬ w <+: t) {memory : ByteMem}
    (hblank : memory t.length = 32) : startsWith (ByteMem.ofList t memory) w = false := by
  rw [Bool.eq_false_iff]
  intro h
  have hword : (ByteMem.ofList t memory).slice 0 w.length = w := by simpa [startsWith] using h
  rcases prefix_of_startsWith h with hp | hp
  · exact ht hp
  · obtain ⟨rest, hrest⟩ := Nat.exists_eq_add_of_le hp.length_le
    cases rest with
    | zero => exact ht (hp.eq_of_length (by omega) ▸ List.prefix_rfl)
    | succ rest =>
        have hmem : (32 : UInt8) ∈ w := by
          rw [← hword, hrest, ByteMem.slice_add, ByteMem.slice_succ, Int.zero_add,
            ByteMem.ofList_of_ge t memory (le_refl _), hblank]
          simp
        exact hw hmem

/-- Without a space the offset of the key is what the header held before. -/
theorem parseReq_noSpace {bytes : List UInt8} (hsize : bytes.length < 2147483648) {p : Nat}
    (hp : p < bytes.length)
    (htext : isBinaryProtocol (ByteMem.ofList bytes (fun _ => 32)) = false)
    (hspace : (32 : UInt8) ∉ bytes.drop p) (hquit : ¬ asciiBytes "quit" <+: bytes.drop p)
    (header : MemcachedHeader) (before : List Req) :
    ∃ item : Req, parseReq false header (ByteMem.ofList bytes (fun _ => 32)) bytes.length p before =
        some (.success, (p : Int), before ++ [item]) ∧
      item.key = p + header.extlen := by
  have hblank : (ByteMem.ofList bytes (fun _ => 32)).shift p ((bytes.drop p).length : Int) = 32 := by
    rw [ByteMem.shift, ByteMem.ofList_of_ge]
    rw [List.length_drop]
    omega
  have hword : startsWith ((ByteMem.ofList bytes (fun _ => 32)).shift p) (asciiBytes "quit") =
      false := by
    rw [ByteMem.shift_ofList bytes _ hp.le]
    exact startsWith_blank (by decide) hquit hblank
  have hlen : packetLen false (tryReadRequestText
      (ByteMem.ofList (bytes.drop p) ((ByteMem.ofList bytes (fun _ => 32)).shift p))
      (bytes.drop p).length header).2 = 0 := by
    rw [tryReadRequestText_ofList, scanBytes_noSpace hspace]
    rfl
  have hpos : int32 ((p : Int) + 0) = p := by
    rw [Int.add_zero, int32_eq_self (by omega) (by omega)]
  rw [parseReq_ofList hsize hp htext, textResult, hword, hlen, if_neg (by simp),
    if_neg (by omega), hpos]
  refine ⟨_, rfl, ?_⟩
  rw [tryReadRequestText_ofList, scanBytes_noSpace hspace, reqItem]
  simp [headerLen]

/-- **The bytes received.**  `parse_req` depends on them only exactly when a space
of the text at the position has arrived, or it starts with `quit`, or nothing is
parsed at all. -/
theorem received_only_iff {bytes : List UInt8} (hne : bytes ≠ [])
    (hsize : bytes.length < 2147483648) {p : Nat} (hp : p < 2147483648) (before : List Req) :
    ReceivedOnly bytes p before ↔ WordReceived bytes p := by
  obtain ⟨c, cs, rfl⟩ := List.exists_cons_of_ne_nil hne
  unfold WordReceived
  rw [List.head?_cons, Option.some.injEq, Option.some.injEq]
  by_cases hmagic : c = magicReq ∨ c = magicRes
  · refine ⟨fun _ => Or.inr (hmagic.imp id Or.inl), fun _ memory memory' header header' => ?_⟩
    rw [parseReq_magic ((isBinaryProtocol_ofList memory).mpr hmagic),
      parseReq_magic ((isBinaryProtocol_ofList memory').mpr hmagic)]
  have htext : ∀ memory, isBinaryProtocol (ByteMem.ofList (c :: cs) memory) = false := by
    intro memory
    rw [← Bool.not_eq_true, isBinaryProtocol_ofList]
    exact hmagic
  rcases Nat.lt_or_ge p (c :: cs).length with hin | hout
  · constructor
    · intro h
      by_contra hnot
      push Not at hnot
      obtain ⟨_, _, _, hspace, hquit⟩ := hnot
      -- two headers that differ in the offset
      obtain ⟨item, hparse, hkey⟩ := parseReq_noSpace hsize hin (htext _) hspace hquit
        ⟨0, 0, 0, 0⟩ before
      obtain ⟨item', hparse', hkey'⟩ := parseReq_noSpace hsize hin (htext _) hspace hquit
        ⟨0, 1, 0, 0⟩ before
      have hsame := h (fun _ => 32) (fun _ => 32) ⟨0, 0, 0, 0⟩ ⟨0, 1, 0, 0⟩
      rw [hparse, hparse'] at hsame
      obtain rfl : item = item' := by simpa using hsame
      simp only at hkey hkey'
      omega
    · intro h
      rcases h with hle | hreq | hres | hspace | hquit
      · omega
      · exact absurd (Or.inl hreq) hmagic
      · exact absurd (Or.inr hres) hmagic
      · exact receivedOnly_of_space hsize hin htext hspace before
      · exact receivedOnly_of_quit hsize hin htext hquit before
  · refine ⟨fun _ => Or.inl hout, fun _ memory memory' header header' => ?_⟩
    have hrem : ¬ 0 < int32 (((c :: cs).length : Int) - p) := by
      rw [int32_eq_self (by omega) (by omega)]
      omega
    rw [parseReq_nothing (htext memory) hrem, parseReq_nothing (htext memory') hrem]

theorem received_only_iff_get :
    ReceivedOnly (asciiBytes "get a\r\n") 0 [] ↔ WordReceived (asciiBytes "get a\r\n") 0 :=
  received_only_iff (by decide) (by decide) (by decide) []

/-- What lies behind a received `s` in one of two memories. -/
def etBehind : ByteMem := ByteMem.ofList (asciiBytes "set") (fun _ => 0)

/-- **A command completed by the memory behind it.**  Of a received `s`, `parse_req`
makes an update with `et` behind it, and a read with zeros. -/
theorem s_completed_behind : ¬ ReceivedOnly (asciiBytes "s") 0 [] := by
  intro h
  have hsame := h etBehind (fun _ => 0) ⟨0, 0, 0, 0⟩ ⟨0, 0, 0, 0⟩
  exact absurd hsame (by decide +kernel)

/-! ## Unsupported commands -/

/-- The commands of the text protocol that are forwarded or ignored. -/
def textCommands : List (List UInt8) :=
  ["get", "gets", "set", "add", "replace", "append", "prepend", "delete", "incr", "decr",
    "quit"].map asciiBytes

/-- Their opcodes, and those of the quiet get and the no-op. -/
def binaryCommands : List Int :=
  [cmdGet, cmdSet, cmdAdd, cmdReplace, cmdDelete, cmdIncrement, cmdDecrement, cmdQuit, cmdAppend,
    cmdPrepend, cmdGetkq, cmdNoop]

/-- A line with an unsupported command and its arguments, and what has arrived
behind it. -/
structure UnsupportedLine where
  word : List UInt8
  args : List UInt8
  rest : List UInt8
  word_ne : word ≠ []
  word_printable : ∀ c ∈ word, 32 < c ∧ c ≠ 127
  unsupported : word ∉ textCommands
  args_spaced : args = [] ∨ args.head? = some 32
  args_line : ∀ c ∈ args, c ≠ 13 ∧ c ≠ 10

/-- The bytes of a line. -/
def UnsupportedLine.bytes (l : UnsupportedLine) : List UInt8 := l.word ++ l.args ++ [13, 10] ++ l.rest

/-- `parse_req` refuses the bytes in the given mode, and appends nothing. -/
def Refused (useBinary : Bool) (bytes : List UInt8) : Prop :=
  ∀ memory header before,
    parseReq useBinary header (ByteMem.ofList bytes memory) bytes.length 0 before =
      some (.error, 0, before)

/-- Text that is not refused for its first byte is not refused. -/
theorem textResult_ne_error (m : ByteMem) (size p : Int) (before : List Req)
    (hd : MemcachedHeader) : (textResult m size p before hd).1 ≠ .error := by
  unfold textResult
  split_ifs <;> simp

/-- An opcode that is not in the list has no branch of its own. -/
theorem dispatch_unlisted {op : Int} (hop : op ∉ binaryCommands) :
    dispatch op = .error .error := by
  simp only [binaryCommands, List.mem_cons, List.not_mem_nil, or_false, not_or] at hop
  obtain ⟨hget, hset, hadd, hreplace, hdelete, hincr, hdecr, hquit, happend, hprepend, hgetkq,
    hnoop⟩ := hop
  rw [dispatch, if_neg hset, if_neg hget, if_neg hgetkq, if_neg hnoop, if_neg hadd,
    if_neg hdelete, if_neg hincr, if_neg hdecr, if_neg happend, if_neg hprepend, if_neg hreplace,
    if_neg hquit]

/-- A pass at a request that is not forwarded. -/
theorem parseReqBody_undispatched {m : ByteMem} {size : Int} {isBinary : Bool} {s : ReqLoop}
    {hd : MemcachedHeader} {code : ExtRet} (hrem : 0 < int32 (size - s.position))
    (hread : readRequest m size isBinary s.header s.position = (1, hd))
    (hdispatch : dispatch hd.opcode = .error code) :
    parseReqBody m size isBinary s = (some code, { s with isAgin := false, header := hd }) := by
  unfold parseReqBody
  rw [if_pos hrem, hread]
  simp [hdispatch]

/-- In binary mode it is refused. -/
theorem refused_binary {q : Packet magicReq} (hop : q.opcode ∉ binaryCommands) :
    Refused true q.bytes := by
  intro memory header before
  have hlt := q.length_lt
  have hle := q.header_le
  have hheld : Held (ByteMem.ofList q.bytes memory) 0 q.bytes.length q.bytes := by
    have hwrite := held_write memory q.bytes q.bytes.length
    rwa [List.take_length, ByteMem.write_zero] at hwrite
  have hbin : isBinaryProtocol (ByteMem.ofList q.bytes memory) = true := by
    have hfirst := hheld.first_byte q (by omega)
    simp [isBinaryProtocol, hfirst]
  have hread : readRequest (ByteMem.ofList q.bytes memory) q.bytes.length true header 0 =
      (1, q.header) := by
    rw [readRequest, if_pos rfl]
    exact tryReadBinary_packet q hheld (by omega) hlt header
  have hdispatch : dispatch q.header.opcode = .error .error := dispatch_unlisted hop
  have hrem : 0 < int32 ((q.bytes.length : Int) - 0) := by
    rw [Int.sub_zero, int32_eq_self (by omega) (by omega)]
    omega
  have hpass : parseReqBody (ByteMem.ofList q.bytes memory) q.bytes.length true
      ⟨0, before, false, header⟩ = (some .error, ⟨0, before, false, q.header⟩) :=
    parseReqBody_undispatched (s := ⟨0, before, false, header⟩) hrem hread hdispatch
  have hfuel : loopFuel = 4294967296 + 1 := rfl
  unfold parseReq
  dsimp only
  rw [hbin, if_neg (by simp), hfuel, Loop.run_leave _ hpass]
  rfl

/-- **Unsupported commands.**  Binary mode refuses every opcode that is not in its
list; text mode refuses a line with an unsupported command exactly when the line
starts with a magic byte. -/
theorem unsupported_refused_iff (l : UnsupportedLine)
    (hsize : l.bytes.length < 2147483648) :
    (Refused false l.bytes ↔ l.word.head? = some magicReq ∨ l.word.head? = some magicRes) ∧
      ∀ q : Packet magicReq, q.opcode ∉ binaryCommands → Refused true q.bytes := by
  refine ⟨?_, fun q hop => refused_binary hop⟩
  obtain ⟨c, word, hcons⟩ := List.exists_cons_of_ne_nil l.word_ne
  have hbytes : l.bytes = c :: (word ++ l.args ++ [13, 10] ++ l.rest) := by
    simp [UnsupportedLine.bytes, hcons]
  rw [hcons, List.head?_cons, Option.some.injEq, Option.some.injEq]
  constructor
  · intro h
    by_contra hmagic
    have htext : isBinaryProtocol (ByteMem.ofList l.bytes (fun _ => 0)) = false := by
      rw [← Bool.not_eq_true, hbytes, isBinaryProtocol_ofList]
      exact hmagic
    have hne : l.bytes ≠ [] := by simp [hbytes]
    have herror := h (fun _ => 0) ⟨0, 0, 0, 0⟩ []
    rw [parseReq_received hne hsize htext] at herror
    exact textResult_ne_error _ _ _ _ _ (congrArg Prod.fst (Option.some.inj herror))
  · intro hmagic memory header before
    refine parseReq_magic ?_ header _ _ before
    rw [hbytes, isBinaryProtocol_ofList]
    exact hmagic

theorem touch_word : asciiBytes "touch" ≠ [] ∧ (∀ c ∈ asciiBytes "touch", 32 < c ∧ c ≠ 127) ∧
    asciiBytes "touch" ∉ textCommands := by
  decide +kernel

theorem touch_args : (asciiBytes " k 0").head? = some 32 ∧
    ∀ c ∈ asciiBytes " k 0", c ≠ 13 ∧ c ≠ 10 := by
  decide +kernel

/-- `touch k 0`. -/
def touchLine : UnsupportedLine where
  word := asciiBytes "touch"
  args := asciiBytes " k 0"
  rest := []
  word_ne := touch_word.1
  word_printable := touch_word.2.1
  unsupported := touch_word.2.2
  args_spaced := Or.inr touch_args.1
  args_line := touch_args.2

theorem unsupported_refused_iff_touch :
    (Refused false touchLine.bytes ↔
        touchLine.word.head? = some magicReq ∨ touchLine.word.head? = some magicRes) ∧
      ∀ q : Packet magicReq, q.opcode ∉ binaryCommands → Refused true q.bytes :=
  unsupported_refused_iff touchLine (by decide)

/-- **A `touch` taken for a read.** -/
theorem touch_taken_for_read :
    ¬ Refused false touchLine.bytes ∧
      parseReq false ⟨0, 0, 0, 0⟩ (ByteMem.ofList touchLine.bytes (fun _ => 0))
        touchLine.bytes.length 0 [] = some (.success, 11, [⟨6, 1, 0, 11, false, false, 0⟩]) := by
  have hparse : parseReq false ⟨0, 0, 0, 0⟩ (ByteMem.ofList touchLine.bytes (fun _ => 0))
      touchLine.bytes.length 0 [] = some (.success, 11, [⟨6, 1, 0, 11, false, false, 0⟩]) := by
    decide +kernel
  refine ⟨fun h => ?_, hparse⟩
  have herror := h (fun _ => 0) ⟨0, 0, 0, 0⟩ []
  rw [hparse] at herror
  simp at herror

end KvProxy
