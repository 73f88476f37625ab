import KvProxy.TextRequest

/-!
# Framing of text requests

`try_read_request_text` has no way to say that a request is incomplete: it gives a
length, and `parse_req` waits when the length is more than what has arrived.  The
length is that of the line, if its end was found, and of the data, if the count
was; `noreply` hides the end of the line, and the two bytes behind an empty data
block are not counted.

* `text_parsed_iff` — when a whole request is one item with its own bytes;
* `cut_text_awaited_iff` — when the rest of a cut request is waited for.
-/

namespace KvProxy

open MachineInt

/-! ## Whole requests -/

/-- The request is parsed as one item: its bytes are the request, its key is the
first key, and it is a read exactly when the request is a get. -/
def ParsedExactly (r : TextRequest) (memory : ByteMem) (header : MemcachedHeader) : Prop :=
  ∃ pos item, parseReq false header (ByteMem.ofList r.bytes memory) r.bytes.length 0 [] =
      some (.success, pos, [item]) ∧
    item.bytes (ByteMem.ofList r.bytes memory) = r.bytes ∧
    item.keyBytes (ByteMem.ofList r.bytes memory) = r.key ∧
    (item.update = false ↔ r.isGet = true)

/-- The requests with the right length: no `noreply`, and of a storage command some
data, with a count of at most ten digits.  For a get, see `WholeLine`. -/
def TextRequest.Framed : TextRequest → Prop
  | .store _ _ _ _ count noreply data => noreply = false ∧ data ≠ [] ∧ count.length ≤ 10
  | .get key more => WholeLine (key :: more)
  | .delete _ noreply => noreply = false
  | .arith _ _ _ noreply => noreply = false

section Whole

variable {r : TextRequest} (h : r.WellFormed)

include h

/-- The item of a whole request. -/
theorem textItem_spec (memory : ByteMem) (header : MemcachedHeader) :
    (reqItem false 0
        (tryReadRequestText (ByteMem.ofList r.bytes memory) r.bytes.length header).2
        (textFlags (ByteMem.ofList r.bytes memory))).keyBytes (ByteMem.ofList r.bytes memory) =
      r.key ∧
    (reqItem false 0
        (tryReadRequestText (ByteMem.ofList r.bytes memory) r.bytes.length header).2
        (textFlags (ByteMem.ofList r.bytes memory))).contentLen =
      uint32 (behindLen r.headLen r.behind) := by
  obtain ⟨splits, hscan⟩ := scan_behindKey h (List.prefix_refl r.behind)
    r.behind_ne_nil header.extlen
  have hkey := TextRequest.validKey h
  have hkeyLen : uint16 r.key.length = r.key.length := by
    have := hkey.length_le
    unfold uint16
    omega
  have hread := tryReadRequestText_ofList r.bytes memory header
  rw [show r.bytes = r.command ++ 32 :: (r.key ++ r.behind) from rfl] at hread ⊢
  rw [hscan] at hread
  rw [hread]
  constructor
  · have hoffset : (0 : Int) + headerLen false + (r.command.length + 1 : Int) =
        ((r.command ++ [32]).length : Int) := by
      simp [headerLen]
    simp only [Req.keyBytes, reqItem, hkeyLen, hoffset]
    have hparts : r.command ++ 32 :: (r.key ++ r.behind) =
        (r.command ++ [32]) ++ (r.key ++ r.behind) := by
      simp
    rw [hparts]
    exact ByteMem.slice_ofList_mid _ _ _ memory
  · simp only [reqItem, packetLen, headerLen, Bool.false_eq_true, if_false, Int.zero_add]
    exact congrArg uint32 (int32_behindLen r.headLen r.behind)

/-- A whole request is parsed exactly when its length is. -/
theorem parsedExactly_iff_length (hsize : r.bytes.length < 2147483648) (memory : ByteMem)
    (header : MemcachedHeader) :
    ParsedExactly r memory header ↔ behindLen r.headLen r.behind = r.bytes.length := by
  have hpos : 0 < r.bytes.length := by
    have := r.headLen_pos
    rw [r.length_bytes]
    omega
  have hparse := parseReq_cut h hpos (le_refl _) hsize memory header []
  have hall : r.bytes.length - r.headLen = r.behind.length := by
    rw [r.length_bytes]
    omega
  rw [hall, List.take_length, List.take_length, List.nil_append] at hparse
  obtain ⟨hkey, hlen⟩ := textItem_spec h memory header
  have hint := int32_behindLen r.headLen r.behind
  unfold ParsedExactly
  rw [hparse]
  constructor
  · rintro ⟨pos, item, hres, hbytes, _⟩
    split_ifs at hres with hfit
    · simp at hres
    · simp only [Option.some.injEq, Prod.mk.injEq, true_and, List.cons.injEq, and_true] at hres
      obtain ⟨_, rfl⟩ := hres
      have hlength := congrArg List.length hbytes
      rw [Req.bytes, ByteMem.length_slice, hlen] at hlength
      unfold uint32 at hlength
      unfold int32 at hint
      omega
  · intro hwhole
    rw [if_neg (by omega)]
    refine ⟨_, _, rfl, ?_, hkey, ?_⟩
    · have hnat : uint32 (r.bytes.length : Int) = r.bytes.length := by
        unfold uint32
        omega
      rw [Req.bytes, hlen, hwhole, hnat]
      exact ByteMem.slice_ofList r.bytes memory
    · have hop := r.getOpcode_command (r.key ++ r.behind) memory
      simp only [reqItem, textFlags, decide_eq_false_iff_not, not_not]
      exact hop

end Whole

/-! ## The length of a request -/

/-- With no count, the length is that of the line. -/
theorem behindLen_noCount {t : List UInt8} (h : countDigits t = []) (i : Int) :
    behindLen i t = int32 (lineEnd i t) := by
  have hzero : atoi [] = 0 := rfl
  rw [behindLen, h, hzero, if_neg (by omega), Int.add_zero]

/-- The length of a cut storage request. -/
theorem behindLen_store {flags exptime count : List UInt8} (hflags : Plain flags)
    (hexptime : Plain exptime) (hcount : Digits count) (cmd : StoreCmd) (key : List UInt8)
    (noreply : Bool) (data : List UInt8) (i : Int) (j : Nat) {v line : Int}
    (hv : v = atoi ((count.take (j - (beforeCount flags exptime).length)).take 10))
    (hline : line = if noreply = false ∧ (beforeCount flags exptime).length + count.length + 2 ≤ j
      then i + (beforeCount flags exptime).length + count.length + 2 else 0) :
    behindLen i ((TextRequest.store cmd key flags exptime count noreply data).behind.take j) =
      if v > 0 then int32 (line + v + 2) else int32 (line + v) := by
  rw [behindLen, behind_store, countDigits_store hflags hexptime hcount,
    lineEnd_store hflags hexptime hcount, ← hv, ← hline]

/-- The length of a cut line of a deletion. -/
theorem behindLen_delete (key : List UInt8) (noreply : Bool) (i : Int) (j : Nat) :
    behindLen i ((TextRequest.delete key noreply).behind.take j) =
      int32 (if noreply = false ∧ (TextRequest.delete key noreply).behind.length ≤ j then
        i + (TextRequest.delete key noreply).behind.length else 0) := by
  have hdigits := countDigits_shortLine (w := []) (by simp) (by simp) noreply
    (fun c => (behindSpaces_three c).1) j
  have hend := lineEnd_shortLine (w := []) (by simp) (by simp) noreply i j
  rw [List.nil_append] at hdigits hend
  rw [TextRequest.behind, behindLen_noCount hdigits, hend]

/-- The length of a cut line of a count. -/
theorem behindLen_arith (cmd : ArithCmd) (key : List UInt8) {value : List UInt8}
    (hvalue : Plain value) (noreply : Bool) (i : Int) (j : Nat) :
    behindLen i ((TextRequest.arith cmd key value noreply).behind.take j) =
      int32 (if noreply = false ∧ (TextRequest.arith cmd key value noreply).behind.length ≤ j then
        i + (TextRequest.arith cmd key value noreply).behind.length else 0) := by
  have hten : (10 : UInt8) ∉ spaced [value] := by simp [hvalue.not_newline]
  have hn : (110 : UInt8) ∉ spaced [value] := by simp [hvalue.not_n]
  rw [TextRequest.behind,
    behindLen_noCount (countDigits_shortLine hten hn noreply (behindSpaces_value hvalue) j),
    lineEnd_shortLine hten hn]

/-- A whole line without `noreply` has its own length. -/
theorem shortLine_length_iff {i len total : Nat} (hpos : 0 < i) (htotal : total = i + len)
    (hsize : total < 2147483648) (noreply : Bool) :
    int32 (if noreply = false ∧ len ≤ len then (i : Int) + len else 0) = total ↔
      noreply = false := by
  unfold int32
  cases noreply with
  | false =>
      simp
      omega
  | true =>
      simp
      omega

/-- **The length of a whole request.** -/
theorem behindLen_whole_iff {r : TextRequest} (h : r.WellFormed)
    (hsize : r.bytes.length < 2147483648) :
    behindLen r.headLen r.behind = r.bytes.length ↔ r.Framed := by
  have hlength := r.length_bytes
  cases r with
  | store cmd key flags exptime count noreply data =>
      obtain ⟨_, hflags, hexptime, hcount, hdata⟩ := h
      have hbehind : (TextRequest.store cmd key flags exptime count noreply data).behind.length =
          (beforeCount flags exptime).length + count.length +
            ((noreplyText noreply).length + 2 + data.length + 2) := by
        rw [behind_store]
        simp only [behindCount, List.length_append, List.length_cons, List.length_nil]
        omega
      have hnoreply : (noreplyText noreply).length = if noreply = false then 0 else 8 := by
        cases noreply <;> rfl
      have hlen := behindLen_store hflags.plain (plain_exptime hexptime) hcount cmd key noreply data
        (TextRequest.store cmd key flags exptime count noreply data).headLen
        (TextRequest.store cmd key flags exptime count noreply data).behind.length rfl rfl
      have hall : count.take ((TextRequest.store cmd key flags exptime count noreply data).behind.length
          - (beforeCount flags exptime).length) = count := List.take_of_length_le (by omega)
      rw [List.take_length, hall] at hlen
      obtain ⟨hshort, hlong⟩ := atoi_take_ten hcount (by omega)
      have hne : data ≠ [] ↔ data.length ≠ 0 := by simp
      rw [hlen, TextRequest.Framed, hne]
      unfold int32
      cases noreply with
      | false => split_ifs <;> grind
      | true => split_ifs <;> grind
  | get key more =>
      obtain ⟨hkey, hmore⟩ := h
      have hbytes : (TextRequest.get key more).bytes = textGet (key :: more) := by
        simp [TextRequest.bytes, TextRequest.command, TextRequest.key, TextRequest.behind, textGet]
      have hlen : behindLen (TextRequest.get key more).headLen (TextRequest.get key more).behind =
          lineLen (key :: more) := by
        have hhead : ((TextRequest.get key more).headLen : Int) + (spaced more).length + 2 =
            ((textGet (key :: more)).length : Int) := by
          rw [← hbytes, hlength, TextRequest.behind]
          push_cast [List.length_append, List.length_cons, List.length_nil]
          omega
        rw [TextRequest.behind, behindLen, countDigits_spaced key hmore,
          lineEnd_line (spaced_not_newline hmore), hhead]
        rfl
      rw [hbytes] at hsize ⊢
      rw [hlen]
      exact lineLen_eq_iff hsize
  | delete key noreply =>
      have hlen := behindLen_delete key noreply (TextRequest.delete key noreply).headLen
        (TextRequest.delete key noreply).behind.length
      rw [List.take_length] at hlen
      rw [hlen, TextRequest.Framed]
      exact shortLine_length_iff (TextRequest.headLen_pos _) hlength hsize noreply
  | arith cmd key value noreply =>
      have hlen := behindLen_arith cmd key h.2.plain noreply
        (TextRequest.arith cmd key value noreply).headLen
        (TextRequest.arith cmd key value noreply).behind.length
      rw [List.take_length] at hlen
      rw [hlen, TextRequest.Framed]
      exact shortLine_length_iff (TextRequest.headLen_pos _) hlength hsize noreply

/-- **Whole text requests.**  A well-formed request is parsed as one item with its
own bytes exactly when it has no `noreply`, has some data with a count of at most
ten digits, or is a get whose keys say nothing else. -/
theorem text_parsed_iff {r : TextRequest} (h : r.WellFormed) (hsize : r.bytes.length < 2147483648)
    (memory : ByteMem) (header : MemcachedHeader) : ParsedExactly r memory header ↔ r.Framed := by
  rw [parsedExactly_iff_length h hsize, behindLen_whole_iff h hsize]

/-- `set a 0 0 n` with data of `n` bytes. -/
def setRequest (count data : List UInt8) : TextRequest :=
  .store .set [97] [48] [48] count false data

theorem digits_byte {c : UInt8} (h : isDigitByte c = true) : Digits [c] where
  ne_nil := by simp
  digit := by simpa using h

theorem setRequest_wellFormed {c : UInt8} (hdigit : isDigitByte c = true) {data : List UInt8}
    (hlen : c.toNat - 48 = data.length) : (setRequest [c] data).WellFormed :=
  ⟨validKey_letter (by decide), digits_byte (by decide), Or.inl (digits_byte (by decide)),
    digits_byte hdigit, by simpa [decimal] using hlen⟩

theorem text_parsed_iff_set :
    ParsedExactly (setRequest [49] [120]) (fun _ => 0) ⟨0, 0, 0, 0⟩ ↔
      (setRequest [49] [120]).Framed :=
  text_parsed_iff (setRequest_wellFormed (by decide) (by decide)) (by decide) _ _

/-- **An empty value.**  Of `set a 0 0 0`, a line and the end of an empty data
block, the item is the line. -/
theorem empty_value_cut :
    (setRequest [48] []).WellFormed ∧
      ¬ ParsedExactly (setRequest [48] []) (fun _ => 0) ⟨0, 0, 0, 0⟩ := by
  have hwell : (setRequest [48] []).WellFormed := setRequest_wellFormed (by decide) (by decide)
  refine ⟨hwell, ?_⟩
  rw [parsedExactly_iff_length hwell (by decide)]
  decide

/-! ## Cut requests -/

/-- With the first `n` bytes of a request, `parse_req` asks for more. -/
def CutAwaited (r : TextRequest) (n : Nat) (memory : ByteMem) (header : MemcachedHeader) : Prop :=
  ∃ pos items, parseReq false header (ByteMem.ofList (r.bytes.take n) memory) n 0 [] =
    some (.again, pos, items)

/-- Digits of a count have arrived, and with the part of the line that was measured
they say more than `n` bytes.  A storage command has a count and is measured up to
the end of its line, if that has arrived and no `noreply` hides it; a get has one
when its keys look like it; the other commands have none. -/
def TextRequest.CountArrived (n : Nat) : TextRequest → Prop
  | .store cmd key flags exptime count noreply _ =>
      let start := cmd.word.length + 1 + key.length + (beforeCount flags exptime).length
      let v := atoi ((count.take (n - start)).take 10)
      let line := if noreply = false ∧ start + count.length + 2 ≤ n then start + count.length + 2
        else 0
      0 < v ∧ n < line + v + 2 ∧ line + v + 2 < 2147483648
  | .get key more =>
      let v := atoi (countDigits ((spaced more ++ [13, 10]).take (n - (3 + 1 + key.length))))
      0 < v ∧ n < v + 2 ∧ v + 2 < 2147483648
  | .delete _ _ => False
  | .arith _ _ _ _ => False

/-- More is asked for exactly when the length of the request says so. -/
theorem cutAwaited_iff_length {r : TextRequest} (h : r.WellFormed) {n : Nat} (hn : 0 < n)
    (hle : n ≤ r.bytes.length) (hsize : n < 2147483648) (memory : ByteMem)
    (header : MemcachedHeader) :
    CutAwaited r n memory header ↔
      (n : Int) < behindLen r.headLen (r.behind.take (n - r.headLen)) := by
  unfold CutAwaited
  rw [parseReq_cut h hn hle hsize]
  constructor
  · rintro ⟨pos, items, hres⟩
    by_contra hfit
    rw [if_neg hfit] at hres
    simp at hres
  · intro hfit
    rw [if_pos hfit]
    exact ⟨_, _, rfl⟩

/-- A length with a count. -/
theorem lt_countedLen_iff {n : Nat} (hsize : n < 2147483648) (line : Int) {v : Int}
    (hv : -2147483648 ≤ v ∧ v < 2147483648) (hline : 0 ≤ line ∧ line ≤ n) :
    ((n : Int) < if v > 0 then int32 (line + v + 2) else int32 (line + v)) ↔
      0 < v ∧ n < line + v + 2 ∧ line + v + 2 < 2147483648 := by
  unfold int32
  split_ifs <;> omega

/-- **The length of a cut request.** -/
theorem lt_behindLen_cut_iff {r : TextRequest} (h : r.WellFormed) {n : Nat}
    (hcut : n < r.bytes.length) (hsize : n < 2147483648) :
    (n : Int) < behindLen r.headLen (r.behind.take (n - r.headLen)) ↔ r.CountArrived n := by
  have hlength := r.length_bytes
  have hpos := List.length_pos_iff.mpr r.behind_ne_nil
  cases r with
  | store cmd key flags exptime count noreply data =>
      obtain ⟨_, hflags, hexptime, hcount, _⟩ := h
      have hhead : (TextRequest.store cmd key flags exptime count noreply data).headLen =
          cmd.word.length + 1 + key.length := rfl
      rw [behindLen_store hflags.plain (plain_exptime hexptime) hcount cmd key noreply data _ _
        rfl rfl, lt_countedLen_iff hsize _ ⟨atoi_lower _, atoi_upper _⟩ (by split_ifs <;> omega),
        TextRequest.CountArrived, hhead, Nat.sub_sub]
      have hline : (noreply = false ∧ (beforeCount flags exptime).length + count.length + 2 ≤
            n - (cmd.word.length + 1 + key.length)) ↔
          (noreply = false ∧ cmd.word.length + 1 + key.length + (beforeCount flags exptime).length +
            count.length + 2 ≤ n) := by
        grind
      simp only [hline]
      split_ifs <;> push_cast <;> omega
  | get key more =>
      obtain ⟨hkey, hmore⟩ := h
      have hten : (10 : UInt8) ∉ (spaced more ++ [13, 10]).take
          (n - (TextRequest.get key more).headLen) := by
        have hbefore : (10 : UInt8) ∉ spaced more ++ [13] := by simp [spaced_not_newline hmore]
        have hend : spaced more ++ [13, 10] = (spaced more ++ [13]) ++ [10] := by simp
        have hshort : n - (TextRequest.get key more).headLen ≤ (spaced more ++ [13]).length := by
          rw [TextRequest.behind, hend, List.length_append, List.length_singleton] at hlength
          omega
        rw [hend, List.take_append_of_le_length hshort]
        exact fun hm => hbefore (List.mem_of_mem_take hm)
      have hiff := lt_countedLen_iff hsize 0
        ⟨atoi_lower (countDigits ((spaced more ++ [13, 10]).take (n - (3 + 1 + key.length)))),
          atoi_upper _⟩ ⟨by omega, by omega⟩
      rw [behindLen, TextRequest.behind, lineEnd_of_not_mem hten, TextRequest.CountArrived]
      simp only [Int.zero_add] at hiff ⊢
      exact hiff
  | delete key noreply =>
      rw [behindLen_delete, if_neg (by omega)]
      simp [TextRequest.CountArrived, int32]
  | arith cmd key value noreply =>
      rw [behindLen_arith cmd key h.2.plain, if_neg (by omega)]
      simp [TextRequest.CountArrived, int32]

/-- **Cut text requests.**  The rest of a well-formed request of which `n` bytes
have arrived is waited for exactly when digits of its count have, and say so. -/
theorem cut_text_awaited_iff {r : TextRequest} (h : r.WellFormed) {n : Nat} (hn : 0 < n)
    (hcut : n < r.bytes.length) (hsize : n < 2147483648) (memory : ByteMem)
    (header : MemcachedHeader) : CutAwaited r n memory header ↔ r.CountArrived n := by
  rw [cutAwaited_iff_length h hn hcut.le hsize, lt_behindLen_cut_iff h hcut hsize]

theorem cut_text_awaited_iff_set :
    CutAwaited (setRequest [49] [120]) 14 (fun _ => 0) ⟨0, 0, 0, 0⟩ ↔
      (setRequest [49] [120]).CountArrived 14 :=
  cut_text_awaited_iff (setRequest_wellFormed (by decide) (by decide)) (by decide) (by decide)
    (by decide) _ _

/-- **A cut in the key.**  With `set a` of `set a 0 0 1`, an item of no bytes is
parsed. -/
theorem cut_key_taken :
    (setRequest [49] [120]).WellFormed ∧
      ¬ CutAwaited (setRequest [49] [120]) 5 (fun _ => 0) ⟨0, 0, 0, 0⟩ := by
  have hwell : (setRequest [49] [120]).WellFormed := setRequest_wellFormed (by decide) (by decide)
  refine ⟨hwell, ?_⟩
  rw [cutAwaited_iff_length hwell (by decide) (by decide) (by decide)]
  decide

end KvProxy
