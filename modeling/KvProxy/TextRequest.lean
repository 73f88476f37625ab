import Mathlib.Algebra.Group.Nat.Defs
import KvProxy.TextCommands
import KvProxy.TextRouting

/-!
# Well-formed text requests

The requests of the text protocol that the proxy forwards, whole and cut.  A
request is a command, a key and what is behind it: a storage command has a byte
count there, and the data block on the next line.

* `scan_cut` — what the walk makes of a request of which `n` bytes have arrived;
* `parseReq_cut` — what `parse_req` makes of them.
-/

namespace KvProxy

open MachineInt

/-! ## The requests -/

/-- The commands that store a value. -/
inductive StoreCmd where
  | set
  | add
  | replace
  | append
  | prepend
  deriving DecidableEq, Repr

def StoreCmd.word : StoreCmd → List UInt8
  | .set => asciiBytes "set"
  | .add => asciiBytes "add"
  | .replace => asciiBytes "replace"
  | .append => asciiBytes "append"
  | .prepend => asciiBytes "prepend"

/-- The commands that count. -/
inductive ArithCmd where
  | incr
  | decr
  deriving DecidableEq, Repr

def ArithCmd.word : ArithCmd → List UInt8
  | .incr => asciiBytes "incr"
  | .decr => asciiBytes "decr"

/-- A text request; numbers are the bytes a client writes for them. -/
inductive TextRequest where
  | store (cmd : StoreCmd) (key flags exptime count : List UInt8) (noreply : Bool)
      (data : List UInt8)
  | get (key : List UInt8) (more : List (List UInt8))
  | delete (key : List UInt8) (noreply : Bool)
  | arith (cmd : ArithCmd) (key value : List UInt8) (noreply : Bool)
  deriving DecidableEq, Repr

/-- The option at the end of a line. -/
def noreplyText (noreply : Bool) : List UInt8 := if noreply then asciiBytes " noreply" else []

/-- A number in decimal digits. -/
structure Digits (t : List UInt8) : Prop where
  ne_nil : t ≠ []
  digit : ∀ c ∈ t, isDigitByte c = true

/-- Its value. -/
def decimal (t : List UInt8) : Nat := t.foldl (fun n c => n * 10 + (c.toNat - 48)) 0

namespace TextRequest

def command : TextRequest → List UInt8
  | store cmd _ _ _ _ _ _ => cmd.word
  | get _ _ => asciiBytes "get"
  | delete _ _ => asciiBytes "delete"
  | arith cmd _ _ _ => cmd.word

/-- The first key. -/
def key : TextRequest → List UInt8
  | store _ key _ _ _ _ _ => key
  | get key _ => key
  | delete key _ => key
  | arith _ key _ _ => key

/-- What is behind the first key, to the end of the request. -/
def behind : TextRequest → List UInt8
  | store _ _ flags exptime count noreply data =>
      spaced [flags, exptime, count] ++ (noreplyText noreply ++ [13, 10] ++ data ++ [13, 10])
  | get _ more => spaced more ++ [13, 10]
  | delete _ noreply => noreplyText noreply ++ [13, 10]
  | arith _ _ value noreply => spaced [value] ++ (noreplyText noreply ++ [13, 10])

/-- The bytes of a request. -/
def bytes (r : TextRequest) : List UInt8 := r.command ++ 32 :: (r.key ++ r.behind)

/-- The request reads and does not write. -/
def isGet : TextRequest → Bool
  | get _ _ => true
  | _ => false

/-- Keys are valid, numbers are numbers, and the data is as long as it says. -/
def WellFormed : TextRequest → Prop
  | store _ key flags exptime count _ data =>
      ValidKey key ∧ Digits flags ∧ (Digits exptime ∨ ∃ t, exptime = 45 :: t ∧ Digits t) ∧
        Digits count ∧ decimal count = data.length
  | get key more => ValidKey key ∧ ∀ k ∈ more, ValidKey k
  | delete key _ => ValidKey key
  | arith _ key value _ => ValidKey key ∧ Digits value

/-- The bytes before those behind the key. -/
def headLen (r : TextRequest) : Nat := r.command.length + 1 + r.key.length

theorem length_bytes (r : TextRequest) : r.bytes.length = r.headLen + r.behind.length := by
  simp only [bytes, headLen, List.length_append, List.length_cons]
  omega

theorem headLen_pos (r : TextRequest) : 0 < r.headLen := by
  unfold headLen
  omega

/-- The words of the commands. -/
def words : List (List UInt8) :=
  ["get", "set", "add", "replace", "append", "prepend", "delete", "incr", "decr"].map asciiBytes

theorem words_spec : ∀ w ∈ words, w ≠ [] ∧ (32 : UInt8) ∉ w ∧ w.head? ≠ some 113 ∧
    w.head? ≠ some magicReq ∧ w.head? ≠ some magicRes := by
  decide

/-- The matcher takes no other command for a get. -/
theorem words_opcode : ∀ w ∈ words,
    (getOpcode (ByteMem.ofList (w ++ [32]) (fun _ => 0)) = cmdGet ↔ w = asciiBytes "get") := by
  decide

theorem storeCmd_word (cmd : StoreCmd) : cmd.word ∈ words ∧ cmd.word ≠ asciiBytes "get" := by
  cases cmd <;> decide

theorem arithCmd_word (cmd : ArithCmd) : cmd.word ∈ words ∧ cmd.word ≠ asciiBytes "get" := by
  cases cmd <;> decide

theorem command_word (r : TextRequest) :
    r.command ∈ words ∧ (r.command = asciiBytes "get" ↔ r.isGet = true) := by
  cases r with
  | store cmd key flags exptime count noreply data =>
      obtain ⟨hmem, hne⟩ := storeCmd_word cmd
      exact ⟨hmem, ⟨fun h => absurd h hne, fun h => absurd h (by simp [isGet])⟩⟩
  | get key more => exact ⟨by simp [command, words], ⟨fun _ => rfl, fun _ => rfl⟩⟩
  | delete key noreply =>
      exact ⟨by simp [command, words],
        ⟨fun h => absurd h (by simp [command, asciiBytes]), fun h => absurd h (by simp [isGet])⟩⟩
  | arith cmd key value noreply =>
      obtain ⟨hmem, hne⟩ := arithCmd_word cmd
      exact ⟨hmem, ⟨fun h => absurd h hne, fun h => absurd h (by simp [isGet])⟩⟩

/-- A command is an update unless it is a get. -/
theorem getOpcode_command (r : TextRequest) (rest : List UInt8) (memory : ByteMem) :
    getOpcode (ByteMem.ofList (r.command ++ 32 :: rest) memory) = cmdGet ↔ r.isGet = true := by
  obtain ⟨hmem, hget⟩ := r.command_word
  rw [getOpcode_word rest [] memory (fun _ => 0), words_opcode r.command hmem, hget]

theorem validKey {r : TextRequest} (h : r.WellFormed) : ValidKey r.key := by
  cases r with
  | store cmd key flags exptime count noreply data => exact h.1
  | get key more => exact h.1
  | delete key noreply => exact h
  | arith cmd key value noreply => exact h.1

/-- What ends the key. -/
theorem behind_head (r : TextRequest) : r.behind.head? = some 32 ∨ r.behind.head? = some 13 := by
  cases r with
  | store cmd key flags exptime count noreply data => exact Or.inl rfl
  | get key more =>
      cases more with
      | nil => exact Or.inr rfl
      | cons k more => exact Or.inl rfl
  | delete key noreply =>
      cases noreply with
      | true => exact Or.inl rfl
      | false => exact Or.inr rfl
  | arith cmd key value noreply => exact Or.inl rfl

theorem behind_ne_nil (r : TextRequest) : r.behind ≠ [] := by
  intro hnil
  rcases r.behind_head with hb | hb
  · simp [hnil] at hb
  · simp [hnil] at hb

end TextRequest

/-! ## A request of which some bytes have arrived -/

/-- The length `parse_req` gives a request, from what has arrived behind its key;
`i` bytes lie before. -/
def behindLen (i : Int) (t : List UInt8) : Int :=
  if atoi (countDigits t) > 0 then int32 (lineEnd i t + atoi (countDigits t) + 2)
  else int32 (lineEnd i t + atoi (countDigits t))

theorem behindLen_nil (i : Int) : behindLen i [] = 0 := by
  rw [behindLen, lineEnd_nil]
  rfl

/-- The length is an `int`. -/
theorem int32_behindLen (i : Int) (t : List UInt8) : int32 (behindLen i t) = behindLen i t := by
  unfold behindLen int32
  split_ifs <;> omega

section Cut

variable {r : TextRequest} (h : r.WellFormed)

include h

/-- The walk over a request of which more than the key has arrived. -/
theorem scan_behindKey {t : List UInt8} (ht : t <+: r.behind) (hne : t ≠ []) (e : Int) :
    ∃ splits, (scanBytes (r.command ++ 32 :: (r.key ++ t)) 0 ⟨0, 0, 0, 0, e, []⟩).2 =
      ⟨r.command.length, r.key.length, lineEnd r.headLen t, splits, r.command.length + 1,
        countDigits t⟩ := by
  obtain ⟨hcmd, hspace, _⟩ := TextRequest.words_spec r.command r.command_word.1
  have hkey := TextRequest.validKey h
  have hhead : t.head? = r.behind.head? := by
    obtain ⟨c, cs, rfl⟩ := List.exists_cons_of_ne_nil hne
    obtain ⟨u, hu⟩ := ht
    rw [← hu]
    rfl
  obtain ⟨splits, hscan⟩ := scanBytes_request hcmd hspace hkey.ne_nil hkey.not_space
    hkey.not_return (hhead ▸ r.behind_head) e
  refine ⟨splits, ?_⟩
  rw [hscan]
  simp [TextRequest.headLen]

/-- **The length of a cut request.** -/
theorem scan_cut (n : Nat) (e : Int) :
    textLen (scanBytes (r.bytes.take n) 0 ⟨0, 0, 0, 0, e, []⟩).2 =
      behindLen r.headLen (r.behind.take (n - r.headLen)) := by
  obtain ⟨hcmd, hspace, _⟩ := TextRequest.words_spec r.command r.command_word.1
  have hkey := TextRequest.validKey h
  rcases Nat.lt_or_ge r.headLen n with hbehind | hhead
  · obtain ⟨splits, hscan⟩ := scan_behindKey h (List.take_prefix (n - r.headLen) r.behind)
      (by
        simp only [ne_eq, List.take_eq_nil_iff, not_or]
        exact ⟨by omega, r.behind_ne_nil⟩) e
    have hcut : r.bytes.take n =
        r.command ++ 32 :: (r.key ++ r.behind.take (n - r.headLen)) := by
      have hsplit : r.bytes = (r.command ++ 32 :: r.key) ++ r.behind := by
        simp [TextRequest.bytes]
      have hlen : (r.command ++ 32 :: r.key).length = r.headLen := by
        simp only [TextRequest.headLen, List.length_append, List.length_cons]
        omega
      rw [hsplit, List.take_append, hlen, List.take_of_length_le (by omega)]
      simp
    rw [hcut, hscan]
    rfl
  · rw [show n - r.headLen = 0 by omega, List.take_zero, behindLen_nil, TextRequest.bytes,
      List.take_append]
    rcases Nat.lt_or_ge r.command.length n with hcmdIn | hcmdCut
    · -- cut in the key
      obtain ⟨k, hk⟩ : ∃ k, n - r.command.length = k + 1 := ⟨n - r.command.length - 1, by omega⟩
      have hkle : k ≤ r.key.length := by
        simp only [TextRequest.headLen] at hhead
        omega
      rw [List.take_of_length_le hcmdIn.le, hk, List.take_succ_cons, List.take_append_of_le_length hkle,
        scanBytes_cutKey hspace (fun hm => hkey.not_space (List.mem_of_mem_take hm))
          (fun hm => hkey.not_return (List.mem_of_mem_take hm))]
      rfl
    · -- cut in the command
      rw [show n - r.command.length = 0 by omega, List.take_zero, List.append_nil,
        scanBytes_noSpace (fun hm => hspace (List.mem_of_mem_take hm))]
      rfl

/-- **What `parse_req` makes of a request of which `n` bytes have arrived.** -/
theorem parseReq_cut {n : Nat} (hn : 0 < n) (hle : n ≤ r.bytes.length) (hsize : n < 2147483648)
    (memory : ByteMem) (header : MemcachedHeader) (before : List Req) :
    parseReq false header (ByteMem.ofList (r.bytes.take n) memory) n 0 before =
      some (if (n : Int) < behindLen r.headLen (r.behind.take (n - r.headLen)) then
          (.again, 0, before)
        else (.success, behindLen r.headLen (r.behind.take (n - r.headLen)), before ++
          [reqItem false 0
            (tryReadRequestText (ByteMem.ofList (r.bytes.take n) memory) n header).2
            (textFlags (ByteMem.ofList (r.bytes.take n) memory))])) := by
  obtain ⟨hcmd, _, hq, hreq, hres⟩ := TextRequest.words_spec r.command r.command_word.1
  obtain ⟨c, cs, hcons⟩ := List.exists_cons_of_ne_nil hcmd
  simp only [hcons, List.head?_cons, ne_eq, Option.some.injEq] at hq hreq hres
  obtain ⟨m, rfl⟩ : ∃ m, n = m + 1 := ⟨n - 1, by omega⟩
  have hlen : (r.bytes.take (m + 1)).length = m + 1 := by
    rw [List.length_take]
    omega
  have hfirst : r.bytes.take (m + 1) = c :: (cs ++ 32 :: (r.key ++ r.behind)).take m := by
    simp [TextRequest.bytes, hcons]
  have htext : isBinaryProtocol (ByteMem.ofList (r.bytes.take (m + 1)) memory) = false := by
    rw [← Bool.not_eq_true, hfirst, isBinaryProtocol_ofList]
    exact not_or.mpr ⟨hreq, hres⟩
  have hquit : startsWith (ByteMem.ofList (r.bytes.take (m + 1)) memory) (asciiBytes "quit") =
      false := by
    rw [Bool.eq_false_iff, hfirst]
    intro hquit
    exact hq (startsWith_first hquit)
  have hparse := parseReq_received (by rw [hfirst]; simp) (by rw [hlen]; exact hsize) htext header before
  have hbody : packetLen false
      (tryReadRequestText (ByteMem.ofList (r.bytes.take (m + 1)) memory)
        (r.bytes.take (m + 1)).length header).2 =
        behindLen r.headLen (r.behind.take (m + 1 - r.headLen)) := by
    rw [tryReadRequestText_ofList, packetLen, headerLen, if_neg (by simp), Int.zero_add,
      scan_cut h, int32_behindLen]
  rw [textResult, ByteMem.shift_zero, hquit, if_neg (by simp), hbody, Int.zero_add,
    int32_behindLen, hlen] at hparse
  rw [hparse]

end Cut

/-! ## The byte count -/

/-- A word with nothing in it that the walk stops at. -/
structure Plain (t : List UInt8) : Prop where
  not_space : (32 : UInt8) ∉ t
  not_newline : (10 : UInt8) ∉ t
  not_n : (110 : UInt8) ∉ t

theorem Digits.plain {t : List UInt8} (h : Digits t) : Plain t where
  not_space hm := absurd (h.digit 32 hm) (by decide)
  not_newline hm := absurd (h.digit 10 hm) (by decide)
  not_n hm := absurd (h.digit 110 hm) (by decide)

/-- A negative number is such a word too. -/
theorem plain_exptime {t : List UInt8} (h : Digits t ∨ ∃ u, t = 45 :: u ∧ Digits u) : Plain t := by
  rcases h with h | ⟨u, rfl, h⟩
  · exact h.plain
  · obtain ⟨hspace, hnewline, hn⟩ := h.plain
    exact ⟨by simp [hspace], by simp [hnewline], by simp [hn]⟩

section Store

variable {flags exptime count : List UInt8} (hflags : Plain flags) (hexptime : Plain exptime)
  (hcount : Digits count) (noreply : Bool) (data : List UInt8)

/-- What is between the key and the byte count. -/
def beforeCount (flags exptime : List UInt8) : List UInt8 := spaced [flags, exptime] ++ [32]

/-- What is behind the byte count. -/
def behindCount (noreply : Bool) (data : List UInt8) : List UInt8 :=
  noreplyText noreply ++ [13, 10] ++ data ++ [13, 10]

theorem behind_store (cmd : StoreCmd) (key : List UInt8) :
    (TextRequest.store cmd key flags exptime count noreply data).behind =
      beforeCount flags exptime ++ (count ++ behindCount noreply data) := by
  simp [TextRequest.behind, beforeCount, behindCount]

include hflags hexptime

theorem beforeCount_plain :
    (10 : UInt8) ∉ beforeCount flags exptime ∧ (110 : UInt8) ∉ beforeCount flags exptime := by
  constructor
  · simp [beforeCount, hflags.not_newline, hexptime.not_newline]
  · simp [beforeCount, hflags.not_n, hexptime.not_n]

/-- The third space behind the key is before the count. -/
theorem behindSpaces_beforeCount (t : List UInt8) :
    behindSpaces 3 (beforeCount flags exptime ++ t) = t := by
  simp [beforeCount, behindSpaces_word hflags.not_space, behindSpaces_word hexptime.not_space]

include hcount

/-- The digits found in a cut storage request are those of the count that have
arrived. -/
theorem countDigits_store (j : Nat) :
    countDigits ((beforeCount flags exptime ++ (count ++ behindCount noreply data)).take j) =
      (count.take (j - (beforeCount flags exptime).length)).take 10 := by
  obtain ⟨hten, hn⟩ := beforeCount_plain hflags hexptime
  -- behind the count the walk stops before a digit
  have hrest : ∀ k, ((scanned (behindCount noreply data)).take k).filter isDigitByte = [] := by
    intro k
    have hstop : (scanned (behindCount noreply data)).filter isDigitByte = [] := by
      cases noreply with
      | true => rfl
      | false => rfl
    have hsub := (List.take_sublist k (scanned (behindCount noreply data))).filter isDigitByte
    rwa [hstop, List.sublist_nil] at hsub
  have hdigits : ∀ k, (count.take k).filter isDigitByte = count.take k := by
    intro k
    rw [List.filter_eq_self]
    intro c hc
    exact hcount.digit c (List.mem_of_mem_take hc)
  rw [countDigits, scanned_take, scanned_append hten hn,
    scanned_append hcount.plain.not_newline hcount.plain.not_n,
    behindSpaces_take (behindSpaces_beforeCount hflags hexptime), List.take_append,
    List.filter_append, hdigits, hrest, List.append_nil]

/-- The end of the line is found when it has arrived, and without `noreply`. -/
theorem lineEnd_store (i : Int) (j : Nat) :
    lineEnd i ((beforeCount flags exptime ++ (count ++ behindCount noreply data)).take j) =
      if noreply = false ∧ (beforeCount flags exptime).length + count.length + 2 ≤ j then
        i + (beforeCount flags exptime).length + count.length + 2 else 0 := by
  obtain ⟨hten, hn⟩ := beforeCount_plain hflags hexptime
  have hplain := hcount.plain
  cases noreply with
  | false =>
      have hsplit : beforeCount flags exptime ++ (count ++ behindCount false data) =
          (beforeCount flags exptime ++ count ++ [13]) ++ 10 :: (data ++ [13, 10]) := by
        simp [behindCount, noreplyText]
      rw [hsplit, lineEnd_take (by simp [hten, hplain.not_newline]) (by simp [hn, hplain.not_n])]
      simp only [List.length_append, List.length_cons, List.length_nil, true_and]
      split_ifs with hj hj' hj'
      · push_cast
        omega
      · omega
      · omega
      · rfl
  | true =>
      have hsplit : beforeCount flags exptime ++ (count ++ behindCount true data) =
          (beforeCount flags exptime ++ count ++ [32]) ++
            110 :: (asciiBytes "oreply" ++ [13, 10] ++ data ++ [13, 10]) := by
        have hword : asciiBytes " noreply" = 32 :: 110 :: asciiBytes "oreply" := by decide
        simp [behindCount, noreplyText, hword]
      rw [hsplit, lineEnd_take_n (by simp [hten, hplain.not_newline]) (by simp [hn, hplain.not_n]),
        if_neg (by simp)]

end Store

/-! ## Lines with fewer words -/

section ShortLine

variable {w : List UInt8} (hten : (10 : UInt8) ∉ w) (hn : (110 : UInt8) ∉ w) (noreply : Bool)

include hten hn

/-- A line that has no fourth space has no count. -/
theorem countDigits_shortLine (hspaces : ∀ c, behindSpaces 3 (w ++ [c]) = []) (j : Nat) :
    countDigits ((w ++ (noreplyText noreply ++ [13, 10])).take j) = [] := by
  refine countDigits_take ?_ j
  rw [scanned_append hten hn]
  cases noreply with
  | true =>
      have hscan : scanned (noreplyText true ++ [13, 10]) = [32] := rfl
      rw [hscan, hspaces, List.filter_nil]
  | false =>
      have hscan : scanned (noreplyText false ++ [13, 10]) = [13] := rfl
      rw [hscan, hspaces, List.filter_nil]

/-- Its end is its last byte. -/
theorem lineEnd_shortLine (i : Int) (j : Nat) :
    lineEnd i ((w ++ (noreplyText noreply ++ [13, 10])).take j) =
      if noreply = false ∧ (w ++ (noreplyText noreply ++ [13, 10])).length ≤ j then
        i + (w ++ (noreplyText noreply ++ [13, 10])).length else 0 := by
  cases noreply with
  | false =>
      have hsplit : w ++ (noreplyText false ++ [13, 10]) = (w ++ [13]) ++ 10 :: [] := by
        simp [noreplyText]
      rw [hsplit, lineEnd_take (by simp [hten]) (by simp [hn])]
      simp only [List.length_append, List.length_cons, List.length_nil, true_and]
      split_ifs with hj hj' hj'
      · push_cast
        omega
      · omega
      · omega
      · rfl
  | true =>
      have hword : noreplyText true = 32 :: 110 :: asciiBytes "oreply" := by decide
      have hsplit : w ++ (noreplyText true ++ [13, 10]) =
          (w ++ [32]) ++ 110 :: (asciiBytes "oreply" ++ [13, 10]) := by
        simp [hword]
      rw [hsplit, lineEnd_take_n (by simp [hten]) (by simp [hn]), if_neg (by simp)]

end ShortLine

theorem behindSpaces_three (c : UInt8) : behindSpaces 3 [c] = [] ∧ behindSpaces 2 [c] = [] := by
  by_cases hc : c = 32
  · subst hc
    decide
  · simp [behindSpaces, hc]

theorem behindSpaces_value {value : List UInt8} (h : Plain value) (c : UInt8) :
    behindSpaces 3 (spaced [value] ++ [c]) = [] := by
  rw [spaced_cons, spaced_nil, List.append_nil, List.cons_append, behindSpaces_space,
    behindSpaces_word h.not_space, (behindSpaces_three c).2]

/-! ## Decimal numbers -/

theorem decimal_foldl (n : Nat) (t : List UInt8) :
    t.foldl (fun n c => n * 10 + (c.toNat - 48)) n = n * 10 ^ t.length + decimal t := by
  unfold decimal
  induction t generalizing n with
  | nil => simp
  | cons c t ih =>
      rw [List.foldl_cons, List.foldl_cons, ih, ih (0 * 10 + (c.toNat - 48)), List.length_cons,
        Nat.pow_succ, Nat.add_mul, Nat.mul_assoc, Nat.mul_comm 10, Nat.zero_mul, Nat.zero_add,
        Nat.add_assoc]

theorem decimal_append (s t : List UInt8) :
    decimal (s ++ t) = decimal s * 10 ^ t.length + decimal t := by
  rw [decimal, List.foldl_append, decimal_foldl]
  rfl

/-- The first digits of a number are not more than it. -/
theorem decimal_prefix {s t : List UInt8} (h : s <+: t) : decimal s ≤ decimal t := by
  obtain ⟨u, rfl⟩ := h
  have hpow : 0 < 10 ^ u.length := Nat.pow_pos (by decide)
  have hle := Nat.le_mul_of_pos_right (decimal s) hpow
  rw [decimal_append]
  omega

/-- `atoi` of digits is their value, as an `int`. -/
theorem atoi_eq_decimal {t : List UInt8} (h : ∀ c ∈ t, isDigitByte c = true) :
    atoi t = int32 (decimal t) := by
  have hfold : ∀ n : Nat, t.foldl (fun n c => n * 10 + (c.toNat - 48 : Int)) (n : Int) =
      (t.foldl (fun n c => n * 10 + (c.toNat - 48)) n : Nat) := by
    intro n
    induction t generalizing n with
    | nil => rfl
    | cons c t ih =>
        have hc : 48 ≤ c.toNat := by
          have hdigit := h c List.mem_cons_self
          simp only [isDigitByte, Bool.and_eq_true, decide_eq_true_eq] at hdigit
          exact UInt8.le_iff_toNat_le.mp hdigit.1
        rw [List.foldl_cons, List.foldl_cons, ← ih (fun x hx => h x (List.mem_cons_of_mem _ hx))]
        congr 1
        push_cast
        omega
  rw [atoi]
  exact congrArg int32 (hfold 0)

/-- Of a number below `2^31`, the first ten digits are the number or less than a
tenth of it. -/
theorem atoi_take_ten {t : List UInt8} (h : Digits t) (hlt : decimal t < 2147483648) :
    (t.length ≤ 10 → atoi (t.take 10) = decimal t) ∧
      (10 < t.length → 0 ≤ atoi (t.take 10) ∧ 10 * atoi (t.take 10) ≤ decimal t) := by
  have hten : ∀ c ∈ t.take 10, isDigitByte c = true :=
    fun c hc => h.digit c (List.mem_of_mem_take hc)
  have hsplit : decimal t = decimal (t.take 10) * 10 ^ (t.drop 10).length + decimal (t.drop 10) := by
    rw [← decimal_append, List.take_append_drop]
  have hle : decimal (t.take 10) ≤ decimal t := decimal_prefix (List.take_prefix 10 t)
  have hval : atoi (t.take 10) = decimal (t.take 10) := by
    rw [atoi_eq_decimal hten, int32_eq_self (by omega) (by omega)]
  rw [hval]
  constructor
  · intro hlen
    rw [List.take_of_length_le hlen]
  · intro hlen
    refine ⟨by omega, ?_⟩
    have hmore : 10 ≤ 10 ^ (t.drop 10).length := by
      rw [List.length_drop]
      exact Nat.le_self_pow (by omega) 10
    have := Nat.mul_le_mul_left (decimal (t.take 10)) hmore
    omega

end KvProxy
