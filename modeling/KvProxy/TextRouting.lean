import KvProxy.FanOut
import KvProxy.TextScan

/-!
# Routing of a text multi-get

The text request `get k1 … kn` is one line.  `try_read_request_text` reads the
first key of it, takes a letter `n` behind that key for `noreply` and the digits
behind the fourth space for the length of a value, and `createReqGroup` sends
the item to the owner of the first key.  The binary multi-get has an item for
every key.

* `scanBytes_textGet` — what the scan makes of a line;
* `textRoutes_iff` — when the line asks the owners of its keys;
* `routes_alike_iff` — when it asks whom the binary multi-get asks.
-/

namespace KvProxy

open MachineInt

/-- A key a client may send: up to 250 bytes, no spaces or control characters. -/
structure ValidKey (key : List UInt8) : Prop where
  ne_nil : key ≠ []
  length_le : key.length ≤ 250
  printable : ∀ c ∈ key, 32 < c ∧ c ≠ 127

/-- The keys, each behind a space. -/
def spaced (keys : List (List UInt8)) : List UInt8 := keys.flatMap (fun k => 32 :: k)

/-- `get k1 … kn\r\n`. -/
def textGet (keys : List (List UInt8)) : List UInt8 := asciiBytes "get" ++ spaced keys ++ [13, 10]

/-- The bytes are a text request for the key, maybe among others. -/
def TextGetOf (bytes key : List UInt8) : Prop :=
  ∃ keys, (∀ k ∈ keys, ValidKey k) ∧ bytes = textGet keys ∧ key ∈ keys

/-- The text request is accepted, and each key is asked of its owner only. -/
def TextRoutes (cfg : ProxyConfig) (hosts : HostTable) (keys : List (List UInt8))
    (memory : ByteMem) (header : MemcachedHeader) : Prop :=
  ∃ pos items, parseReq false header (ByteMem.ofList (textGet keys) memory)
      (textGet keys).length 0 [] = some (.success, pos, items) ∧
    ∀ k ∈ keys, ∀ a, Asks TextGetOf (ByteMem.ofList (textGet keys) memory)
      (createReqGroup cfg hosts (ByteMem.ofList (textGet keys) memory) items) a k ↔
        a = hosts.owner k

/-- The binary multi-get is accepted, and each key is asked of its owner only. -/
def BinaryRoutes (cfg : ProxyConfig) (hosts : HostTable) (b : MultiGet) (memory : ByteMem)
    (header : MemcachedHeader) : Prop :=
  ∃ pos items, parseReq true header (ByteMem.ofList b.bytes memory) b.bytes.length 0 [] =
      some (.success, pos, items) ∧
    ∀ k ∈ b.quiet.map Packet.key, ∀ a, Asks BinaryGetOf (ByteMem.ofList b.bytes memory)
      (createReqGroup cfg hosts (ByteMem.ofList b.bytes memory) items) a k ↔ a = hosts.owner k

/-- The digits taken for the length of a value: the first ten behind the fourth
space, up to a letter `n`. -/
def lengthDigits : List (List UInt8) → List UInt8
  | _ :: second :: third :: more =>
      if 110 ∈ second ++ third then []
      else (((spaced more).takeWhile (fun c => c ≠ 110)).filter isDigitByte).take 10
  | _ => []

/-- The item of the line is the line: with no `n` behind the first key, the
digits say nothing; with one, they happen to say the length of the line. -/
def WholeLine (keys : List (List UInt8)) : Prop :=
  if 110 ∈ spaced keys.tail then atoi (lengthDigits keys) + 2 = (textGet keys).length
  else atoi (lengthDigits keys) = 0

/-- One host owns all the keys. -/
def OneOwner (hosts : HostTable) (keys : List (List UInt8)) : Prop :=
  ∃ a, a ≠ 0 ∧ ∀ k ∈ keys, hosts.owner k = a

/-! ## The line -/

theorem ValidKey.not_space {key : List UInt8} (h : ValidKey key) : (32 : UInt8) ∉ key := by
  intro hmem
  exact absurd (h.printable 32 hmem).1 (by decide)

theorem ValidKey.not_return {key : List UInt8} (h : ValidKey key) : (13 : UInt8) ∉ key := by
  intro hmem
  exact absurd (h.printable 13 hmem).1 (by decide)

theorem ValidKey.not_newline {key : List UInt8} (h : ValidKey key) : (10 : UInt8) ∉ key := by
  intro hmem
  exact absurd (h.printable 10 hmem).1 (by decide)

@[simp] theorem spaced_nil : spaced [] = [] := rfl

@[simp] theorem spaced_cons (k : List UInt8) (keys : List (List UInt8)) :
    spaced (k :: keys) = 32 :: (k ++ spaced keys) := by
  simp [spaced]

theorem spaced_not_newline {keys : List (List UInt8)} (hvalid : ∀ k ∈ keys, ValidKey k) :
    (10 : UInt8) ∉ spaced keys := by
  intro hmem
  obtain ⟨k, hk, hten⟩ := List.mem_flatMap.mp hmem
  rcases List.mem_cons.mp hten with hspace | hkey
  · exact absurd hspace (by decide)
  · exact (hvalid k hk).not_newline hkey

/-- The line without its end. -/
def lineBody (keys : List (List UInt8)) : List UInt8 := asciiBytes "get" ++ spaced keys ++ [13]

theorem textGet_eq (keys : List (List UInt8)) : textGet keys = lineBody keys ++ [10] := by
  simp [textGet, lineBody]

theorem lineBody_not_newline {keys : List (List UInt8)} (hvalid : ∀ k ∈ keys, ValidKey k) :
    (10 : UInt8) ∉ lineBody keys := by
  have hspaced := spaced_not_newline hvalid
  have hget : (10 : UInt8) ∉ asciiBytes "get" := by decide
  simp [lineBody, hspaced, hget]

/-- The only newline of a list that ends with it is the last byte. -/
theorem eq_nil_of_newline {xs ys zs : List UInt8} (hys : (10 : UInt8) ∉ ys)
    (h : xs ++ 10 :: zs = ys ++ [10]) : zs = [] := by
  rcases List.eq_nil_or_concat zs with rfl | ⟨zs', z, rfl⟩
  · rfl
  · have hsplit : (xs ++ 10 :: zs') ++ [z] = ys ++ [10] := by simpa using h
    have hys' : xs ++ 10 :: zs' = ys := (List.append_inj_left' hsplit rfl)
    exact absurd (by simp [← hys']) hys

/-- A line ends at its only newline: what has more bytes of the memory, or fewer,
is no line. -/
theorem slice_textGet {keys keys' : List (List UInt8)} (hvalid : ∀ k ∈ keys, ValidKey k)
    (hvalid' : ∀ k ∈ keys', ValidKey k) {memory : ByteMem} {len : Nat}
    (h : (ByteMem.ofList (textGet keys) memory).slice 0 len = textGet keys') :
    len = (textGet keys).length := by
  have hline := ByteMem.slice_ofList (textGet keys) memory
  rcases lt_trichotomy len (textGet keys).length with hlt | heq | hgt
  · -- no newline has come yet
    obtain ⟨rest, hrest⟩ := Nat.exists_eq_add_of_le hlt.le
    rw [hrest, ByteMem.slice_add, h, textGet_eq, textGet_eq, List.append_assoc] at hline
    have hnil : rest = 0 := by
      have hmore := eq_nil_of_newline (lineBody_not_newline hvalid) hline
      simpa using congrArg List.length hmore
    omega
  · exact heq
  · obtain ⟨rest, hrest⟩ := Nat.exists_eq_add_of_le hgt.le
    rw [hrest, ByteMem.slice_add, hline, textGet_eq, textGet_eq, List.append_assoc] at h
    have hnil : rest = 0 := by
      have hmore := eq_nil_of_newline (lineBody_not_newline hvalid') h
      simpa using congrArg List.length hmore
    omega

/-! ## The scan -/

theorem takeWhile_ne_self {cs : List UInt8} (hn : (110 : UInt8) ∉ cs) :
    cs.takeWhile (fun c => decide (c ≠ 110)) = cs := by
  refine List.takeWhile_eq_self_iff.mpr ?_
  intro c hc
  exact decide_eq_true (ne_of_mem_of_not_mem hc hn)

/-- The scan reads a line up to its end, or to an `n` in it. -/
theorem scanned_line {cs : List UInt8} (hten : (10 : UInt8) ∉ cs) :
    scanned (cs ++ [13, 10]) =
      if 110 ∈ cs then cs.takeWhile (fun c => c ≠ 110) else cs ++ [13] := by
  by_cases hmem : 110 ∈ cs
  · obtain ⟨before, behind, rfl, hbefore⟩ := List.eq_append_cons_of_mem hmem
    have hten' : (10 : UInt8) ∉ before := fun h => hten (List.mem_append_left _ h)
    rw [if_pos hmem, List.append_assoc, scanned_append hten' hbefore, List.cons_append, scanned_n,
      List.append_nil, List.takeWhile_append_of_pos]
    · simp
    · intro c hc
      exact decide_eq_true (ne_of_mem_of_not_mem hc hbefore)
  · rw [if_neg hmem, scanned_append hten hmem, scanned_cons (by decide) (by decide),
      scanned_newline]

/-- Its length, as the scan finds it. -/
theorem lineEnd_line {cs : List UInt8} (hten : (10 : UInt8) ∉ cs) (i : Int) :
    lineEnd i (cs ++ [13, 10]) = if 110 ∈ cs then 0 else i + cs.length + 2 := by
  by_cases hmem : 110 ∈ cs
  · obtain ⟨before, behind, rfl, hbefore⟩ := List.eq_append_cons_of_mem hmem
    have hten' : (10 : UInt8) ∉ before := fun h => hten (List.mem_append_left _ h)
    rw [if_pos hmem, List.append_assoc, lineEnd_append hten' hbefore, List.cons_append, lineEnd_n]
  · rw [if_neg hmem, lineEnd_append hten hmem, lineEnd_cons (by decide) (by decide),
      lineEnd_newline, Int.add_assoc]
    rfl

/-- The return at the end is no digit. -/
theorem digits_line {cs : List UInt8} (hten : (10 : UInt8) ∉ cs) :
    (scanned (cs ++ [13, 10])).filter isDigitByte =
      (cs.takeWhile (fun c => c ≠ 110)).filter isDigitByte := by
  rw [scanned_line hten]
  split_ifs with hmem
  · rfl
  · rw [takeWhile_ne_self hmem, List.filter_append]
    simp [isDigitByte]

/-- A key before the fourth space is passed over, or has an `n`. -/
theorem behindSpaces_key {k : List UInt8} (hk : ValidKey k) (n : Nat) (t : List UInt8) :
    behindSpaces (n + 1) (scanned (k ++ t)) =
      if 110 ∈ k then [] else behindSpaces (n + 1) (scanned t) := by
  by_cases hmem : 110 ∈ k
  · obtain ⟨before, behind, rfl, hbefore⟩ := List.eq_append_cons_of_mem hmem
    have hten : (10 : UInt8) ∉ before := fun h => hk.not_newline (List.mem_append_left _ h)
    have hspace : (32 : UInt8) ∉ before := fun h => hk.not_space (List.mem_append_left _ h)
    rw [if_pos hmem, List.append_assoc, scanned_append hten hbefore, List.cons_append, scanned_n,
      List.append_nil, behindSpaces_lastWord hspace]
  · rw [if_neg hmem, scanned_append hk.not_newline hmem, behindSpaces_word hk.not_space]

/-- The digits the scan finds in a line. -/
theorem countDigits_spaced (k : List UInt8) {more : List (List UInt8)}
    (hmore : ∀ x ∈ more, ValidKey x) :
    countDigits (spaced more ++ [13, 10]) = lengthDigits (k :: more) := by
  -- each key takes the scan to the next space
  have hnext : ∀ (n : Nat) (x : List UInt8) (t : List UInt8),
      behindSpaces (n + 1) (scanned (32 :: (x ++ t))) = behindSpaces n (scanned (x ++ t)) := by
    intro n x t
    rw [scanned_cons (by decide) (by decide), behindSpaces_space]
  match more, hmore with
  | [], _ => rfl
  | [second], hmore =>
      have hsecond := hmore second List.mem_cons_self
      rw [countDigits, spaced_cons, spaced_nil, List.append_nil, List.cons_append, hnext,
        behindSpaces_key hsecond]
      split_ifs <;> rfl
  | second :: third :: more, hmore =>
      obtain ⟨hsecond, hmore⟩ := List.forall_mem_cons.mp hmore
      obtain ⟨hthird, hmore⟩ := List.forall_mem_cons.mp hmore
      rw [countDigits, spaced_cons, spaced_cons, List.cons_append, List.append_assoc, hnext,
        behindSpaces_key hsecond, List.cons_append, List.append_assoc, hnext,
        behindSpaces_key hthird]
      simp only [lengthDigits, List.mem_append]
      by_cases hn2 : 110 ∈ second
      · simp [hn2]
      by_cases hn3 : 110 ∈ third
      · simp [hn2, hn3]
      simp only [hn2, hn3, or_self, if_false]
      cases more with
      | nil => rfl
      | cons fourth more =>
          have hline := spaced_not_newline hmore
          rw [spaced_cons] at hline ⊢
          have hblank : (32 :: (fourth ++ spaced more)).takeWhile (fun c => decide (c ≠ 110)) =
              32 :: (fourth ++ spaced more).takeWhile (fun c => decide (c ≠ 110)) := by
            simp
          rw [List.cons_append, scanned_cons (by decide) (by decide), behindSpaces_space,
            behindSpaces_zero, digits_line (List.not_mem_of_not_mem_cons hline), hblank]
          simp [isDigitByte]

/-- **What the scan makes of a line.** -/
theorem scanBytes_textGet {k : List UInt8} {more : List (List UInt8)} (hk : ValidKey k)
    (hmore : ∀ x ∈ more, ValidKey x) (e : Int) :
    ∃ splits, (scanBytes (textGet (k :: more)) 0 ⟨0, 0, 0, 0, e, []⟩).2 =
      ⟨3, k.length, if 110 ∈ spaced more then 0 else (textGet (k :: more)).length, splits, 4,
        lengthDigits (k :: more)⟩ := by
  have hline : textGet (k :: more) = asciiBytes "get" ++ 32 :: (k ++ (spaced more ++ [13, 10])) := by
    simp [textGet]
  have hlength : ((textGet (k :: more)).length : Int) =
      3 + 1 + k.length + (spaced more).length + 2 := by
    rw [hline]
    simp [asciiBytes]
    omega
  have hhead : (spaced more ++ [13, 10]).head? = some 32 ∨
      (spaced more ++ [13, 10]).head? = some 13 := by
    cases more with
    | nil => exact Or.inr rfl
    | cons second more => exact Or.inl rfl
  have hget : asciiBytes "get" ≠ [] := by decide
  obtain ⟨splits, hscan⟩ := scanBytes_request hget (by decide)
    hk.ne_nil hk.not_space hk.not_return hhead e
  refine ⟨splits, ?_⟩
  rw [hlength, hline, hscan, lineEnd_line (spaced_not_newline hmore), countDigits_spaced k hmore]
  rfl

/-! ## The item of a line -/

/-- The length `parse_req` gives the item of a line. -/
def lineLen (keys : List (List UInt8)) : Int :=
  let contentLen : Int := if 110 ∈ spaced keys.tail then 0 else (textGet keys).length
  let dataLen := atoi (lengthDigits keys)
  if dataLen > 0 then int32 (contentLen + dataLen + 2) else int32 (contentLen + dataLen)

/-- The header of a line. -/
def lineHeader (keys : List (List UInt8)) (k : List UInt8) : MemcachedHeader :=
  ⟨k.length, 4, lineLen keys, cmdGet⟩

/-- The item of a line. -/
def lineItem (keys : List (List UInt8)) (k : List UInt8) : Req :=
  reqItem false 0 (lineHeader keys k) ⟨false, false, 0, false⟩

theorem atoi_lower (digits : List UInt8) : -2147483648 ≤ atoi digits := int32_lower _

theorem atoi_upper (digits : List UInt8) : atoi digits < 2147483648 := int32_upper _

/-- The item is as long as the line. -/
theorem lineLen_eq_iff {keys : List (List UInt8)} (hsize : (textGet keys).length < 2147483648) :
    lineLen keys = (textGet keys).length ↔ WholeLine keys := by
  have hlo := atoi_lower (lengthDigits keys)
  have hhi := atoi_upper (lengthDigits keys)
  have hfive : 5 ≤ (textGet keys).length := by
    simp [textGet, asciiBytes]
  unfold lineLen WholeLine int32
  dsimp only
  split_ifs <;> omega

/-- The length is an `int`. -/
theorem int32_lineLen (keys : List (List UInt8)) : int32 (lineLen keys) = lineLen keys := by
  unfold lineLen int32
  dsimp only
  split_ifs <;> omega

theorem packetLen_lineHeader (keys : List (List UInt8)) (k : List UInt8) :
    packetLen false (lineHeader keys k) = lineLen keys := by
  rw [packetLen, headerLen, if_neg (by simp), Int.zero_add]
  exact int32_lineLen keys

section Line

variable {k : List UInt8} {more : List (List UInt8)} (hk : ValidKey k)
  (hmore : ∀ x ∈ more, ValidKey x) (memory : ByteMem)

include hk hmore

theorem tryReadRequestText_textGet (header : MemcachedHeader) :
    tryReadRequestText (ByteMem.ofList (textGet (k :: more)) memory)
        (textGet (k :: more)).length header = (1, lineHeader (k :: more) k) := by
  obtain ⟨splits, hscan⟩ := scanBytes_textGet hk hmore header.extlen
  have hline := ByteMem.slice_ofList (textGet (k :: more)) memory
  have hop : getOpcode (ByteMem.ofList (textGet (k :: more)) memory) = cmdGet := by
    rfl
  unfold tryReadRequestText
  rw [scanRequest_eq_scanBytes, Int.toNat_natCast, hline, hscan, hop]
  rfl

/-- A line is one item, if the length it is read with has arrived. -/
theorem parseReq_textGet (hsize : (textGet (k :: more)).length < 2147483648)
    (header : MemcachedHeader) :
    parseReq false header (ByteMem.ofList (textGet (k :: more)) memory)
        (textGet (k :: more)).length 0 [] =
      some (if lineLen (k :: more) ≤ (textGet (k :: more)).length then
        (.success, lineLen (k :: more), [lineItem (k :: more) k]) else (.again, 0, [])) := by
  have hne : textGet (k :: more) ≠ [] := by simp [textGet_eq]
  have hbin : isBinaryProtocol (ByteMem.ofList (textGet (k :: more)) memory) = false := rfl
  have hquit : startsWith (ByteMem.ofList (textGet (k :: more)) memory) (asciiBytes "quit") =
      false := rfl
  have hflags : textFlags (ByteMem.ofList (textGet (k :: more)) memory) =
      ⟨false, false, 0, false⟩ := rfl
  rw [parseReq_received hne hsize hbin,
    tryReadRequestText_textGet hk hmore memory, textResult, ByteMem.shift_zero, hquit,
    packetLen_lineHeader, hflags, Int.zero_add, int32_lineLen, List.nil_append]
  by_cases hfit : lineLen (k :: more) ≤ (textGet (k :: more)).length
  · rw [if_neg (by simp), if_neg (by omega), if_pos hfit]
    rfl
  · rw [if_neg (by simp), if_pos (by omega), if_neg hfit]

omit hmore in
theorem lineItem_keyBytes :
    (lineItem (k :: more) k).keyBytes (ByteMem.ofList (textGet (k :: more)) memory) = k := by
  have hlen : uint16 k.length = k.length := by
    have := hk.length_le
    unfold uint16
    omega
  have hparts : textGet (k :: more) =
      (asciiBytes "get" ++ [32]) ++ (k ++ (spaced more ++ [13, 10])) := by
    simp [textGet]
  simp only [Req.keyBytes, lineItem, reqItem, lineHeader, headerLen, hlen]
  rw [hparts]
  exact ByteMem.slice_ofList_mid (asciiBytes "get" ++ [32]) k (spaced more ++ [13, 10]) memory

omit hmore in
/-- The groups of a line: the item goes to the owner of the first key. -/
theorem lookup_lineItem (cfg : ProxyConfig) (hosts : HostTable) (a : Nat) :
    (createReqGroup cfg hosts (ByteMem.ofList (textGet (k :: more)) memory)
        [lineItem (k :: more) k]).group.lookup a =
      if a = hosts.owner k ∧ a ≠ 0 then some [lineItem (k :: more) k] else none := by
  have hkey : (lineItem (k :: more) k).keyBytes
      (ByteMem.ofList (textGet (k :: more)) memory) = k := lineItem_keyBytes hk memory
  have hlen : (lineItem (k :: more) k).keyLen ≠ 0 :=
    keyLen_ne_zero (by rw [hkey]; exact hk.ne_nil)
  have hgroup : createReqGroup cfg hosts (ByteMem.ofList (textGet (k :: more)) memory)
      [lineItem (k :: more) k] = if hosts.owner k = 0 then ⟨∅, ∅, ∅⟩
        else ⟨SortedMap.pushAt ∅ (hosts.owner k) (lineItem (k :: more) k), ∅, ∅⟩ := by
    unfold createReqGroup
    rw [List.foldl_cons, List.foldl_nil, groupReq_get rfl rfl hlen, hkey]
    split_ifs <;> rfl
  rw [hgroup]
  split_ifs with hzero hand hand
  · exact absurd (hand.1.trans hzero) hand.2
  · rfl
  · obtain ⟨rfl, _⟩ := hand
    rw [SortedMap.lookup_pushAt, if_pos rfl]
    rfl
  · have hother : a ≠ hosts.owner k := fun h => hand ⟨h, h ▸ hzero⟩
    rw [SortedMap.lookup_pushAt, if_neg hother]
    rfl

/-- Whom a line asks: the owner of its first key for all of them, if the item
is the line, and else nobody. -/
theorem asks_lineItem (cfg : ProxyConfig) (hosts : HostTable)
    (hsize : (textGet (k :: more)).length < 2147483648) (a : Nat) {key : List UInt8}
    (hkey : key ∈ k :: more) :
    Asks TextGetOf (ByteMem.ofList (textGet (k :: more)) memory)
        (createReqGroup cfg hosts (ByteMem.ofList (textGet (k :: more)) memory)
          [lineItem (k :: more) k]) a key ↔
      WholeLine (k :: more) ∧ a = hosts.owner k ∧ a ≠ 0 := by
  have hvalid : ∀ x ∈ k :: more, ValidKey x := List.forall_mem_cons.mpr ⟨hk, hmore⟩
  have hbytes : (lineItem (k :: more) k).bytes (ByteMem.ofList (textGet (k :: more)) memory) =
      (ByteMem.ofList (textGet (k :: more)) memory).slice 0 (uint32 (lineLen (k :: more))) := by
    rw [← packetLen_lineHeader (k :: more) k]
    rfl
  simp only [Asks, lookup_lineItem hk]
  constructor
  · intro h
    obtain ⟨reqs, hreqs, r, hr, keys, hkeys, hline, _⟩ := h
    split_ifs at hreqs with hand
    obtain rfl := Option.some.inj hreqs
    obtain rfl := List.mem_singleton.mp hr
    rw [hbytes] at hline
    have hlen := slice_textGet hvalid hkeys hline
    refine ⟨(lineLen_eq_iff hsize).mp ?_, hand⟩
    have hint := int32_lineLen (k :: more)
    unfold uint32 at hlen
    unfold int32 at hint
    omega
  · intro h
    obtain ⟨hwhole, hand⟩ := h
    have hlen := (lineLen_eq_iff hsize).mpr hwhole
    rw [if_pos hand]
    refine ⟨_, rfl, _, List.mem_singleton_self _, k :: more, hvalid, ?_, hkey⟩
    have hnat : uint32 (textGet (k :: more)).length = (textGet (k :: more)).length := by
      unfold uint32
      omega
    rw [hbytes, hlen, hnat, ByteMem.slice_ofList]

end Line

/-- **When a line asks the owners of its keys.** -/
theorem textRoutes_iff (cfg : ProxyConfig) (hosts : HostTable) {keys : List (List UInt8)}
    (hne : keys ≠ []) (hvalid : ∀ k ∈ keys, ValidKey k)
    (hsize : (textGet keys).length < 2147483648) (memory : ByteMem) (header : MemcachedHeader) :
    TextRoutes cfg hosts keys memory header ↔ WholeLine keys ∧ OneOwner hosts keys := by
  obtain ⟨k, more, rfl⟩ := List.exists_cons_of_ne_nil hne
  obtain ⟨hk, hmore⟩ := List.forall_mem_cons.mp hvalid
  unfold TextRoutes
  rw [parseReq_textGet hk hmore memory hsize]
  constructor
  · intro h
    obtain ⟨pos, items, hparse, hasks⟩ := h
    split_ifs at hparse with hfit
    · simp only [Option.some.injEq, Prod.mk.injEq, true_and] at hparse
      obtain ⟨_, rfl⟩ := hparse
      have hasks' : ∀ key ∈ k :: more, ∀ a, WholeLine (k :: more) ∧ a = hosts.owner k ∧ a ≠ 0 ↔
          a = hosts.owner key := by
        intro key hkey a
        rw [← asks_lineItem hk hmore memory cfg hosts hsize a hkey]
        exact hasks key hkey a
      obtain ⟨hwhole, _, hzero⟩ := (hasks' k List.mem_cons_self (hosts.owner k)).mpr rfl
      refine ⟨hwhole, hosts.owner k, hzero, ?_⟩
      intro key hkey
      exact ((hasks' key hkey (hosts.owner k)).mp ⟨hwhole, rfl, hzero⟩).symm
    · simp at hparse
  · intro h
    obtain ⟨hwhole, a, hzero, howner⟩ := h
    have hlen := (lineLen_eq_iff hsize).mpr hwhole
    rw [if_pos hlen.le]
    refine ⟨_, _, rfl, ?_⟩
    intro key hkey b
    rw [asks_lineItem hk hmore memory cfg hosts hsize b hkey, howner key hkey,
      howner k List.mem_cons_self]
    constructor
    · intro h
      exact h.2.1
    · intro h
      exact ⟨hwhole, h, h ▸ hzero⟩

/-- A line is shorter than the packets for the same keys. -/
theorem length_textGet_le (b : MultiGet) :
    (textGet (b.quiet.map Packet.key)).length ≤ b.bytes.length := by
  have hkeys : ∀ qs : List (Packet magicReq), (∀ q ∈ qs, q.KeyInside) →
      (spaced (qs.map Packet.key)).length ≤ (Packet.concat qs).length := by
    intro qs hinside
    induction qs with
    | nil => simp
    | cons q qs ih =>
        have hq : 24 + (q.mem 4).toNat + q.key.length ≤ q.length := by
          have hin := hinside q List.mem_cons_self
          unfold Packet.KeyInside at hin
          rwa [Packet.key, ByteMem.length_slice]
        have hrest := ih (fun p hp => hinside p (List.mem_cons_of_mem _ hp))
        rw [List.map_cons, spaced_cons, Packet.length_concat_cons, List.length_cons,
          List.length_append]
        omega
  have hquiet := hkeys b.quiet b.keys_inside
  have hnoop : 24 ≤ b.noop.length := b.noop.header_le
  have hbytes : b.bytes.length = (Packet.concat b.quiet).length + b.noop.length := by
    simp [MultiGet.bytes, Packet.length]
  rw [hbytes]
  simp only [textGet, List.length_append, List.length_cons, List.length_nil]
  have hget : (asciiBytes "get").length = 3 := rfl
  omega

/-- **Text and binary multi-gets.**  A line and a multi-get of the same keys
ask each key of its owner exactly when one host owns all of them and no key
behind the first looks like an option of another command. -/
theorem routes_alike_iff (cfg : ProxyConfig) (hosts : HostTable) {keys : List (List UInt8)}
    (hvalid : ∀ k ∈ keys, ValidKey k) {b : MultiGet} (hkeys : b.quiet.map Packet.key = keys)
    (hsize : b.bytes.length < 2147483648) (memory : ByteMem) (header : MemcachedHeader) :
    (TextRoutes cfg hosts keys memory header ∧ BinaryRoutes cfg hosts b memory header) ↔
      WholeLine keys ∧ OneOwner hosts keys := by
  have hshorter := length_textGet_le b
  rw [hkeys] at hshorter
  have hne : keys ≠ [] := by
    rw [← hkeys]
    simpa using b.quiet_ne
  rw [textRoutes_iff cfg hosts hne hvalid (by omega)]
  refine ⟨And.left, fun h => ⟨h, ?_⟩⟩
  obtain ⟨_, a, hzero, howner⟩ := h
  have hmem : ∀ q ∈ b.quiet, q.key ∈ keys := by
    intro q hq
    rw [← hkeys]
    exact List.mem_map_of_mem hq
  obtain ⟨pos, items, hparse, hfan⟩ := createReqGroup_multiGet cfg b hsize
    (fun q hq => by rw [howner q.key (hmem q hq)]; exact hzero) memory header
  refine ⟨pos, items, hparse, ?_⟩
  intro k hk a
  obtain ⟨q, hq, rfl⟩ := List.mem_map.mp hk
  exact hfan.asked q hq a

theorem validKey_letter {c : UInt8} (h : 32 < c ∧ c ≠ 127) : ValidKey [c] where
  ne_nil := by simp
  length_le := by simp
  printable := by simpa using h

theorem routes_alike_iff_two_gets :
    (TextRoutes .default twoHosts [[97], [98]] (fun _ => 0) ⟨0, 0, 0, 0⟩ ∧
        BinaryRoutes .default twoHosts twoGets (fun _ => 0) ⟨0, 0, 0, 0⟩) ↔
      WholeLine [[97], [98]] ∧ OneOwner twoHosts [[97], [98]] := by
  have hvalid : ∀ k ∈ [[97], [98]], ValidKey k := by
    simp only [List.mem_cons, List.not_mem_nil, or_false, forall_eq_or_imp, forall_eq]
    exact ⟨validKey_letter (by decide), validKey_letter (by decide)⟩
  exact routes_alike_iff .default twoHosts hvalid (b := twoGets) rfl (by decide) _ _

theorem quietPackets_wellFormed : ∀ q ∈ [quietPacket 97, quietPacket 73],
    q.opcode = cmdGetkq ∧ q.KeyInside ∧ q.key ≠ [] := by
  decide

theorem noopRequest_opcode : noopRequest.opcode = cmdNoop := rfl

/-- Gets of `"a"` and `"I"`, which have different owners. -/
def getsOfTwo : MultiGet where
  quiet := [quietPacket 97, quietPacket 73]
  noop := noopRequest
  quiet_ne := List.cons_ne_nil _ _
  quiet_getkq q hq := (quietPackets_wellFormed q hq).1
  keys_inside q hq := (quietPackets_wellFormed q hq).2.1
  keys_ne q hq := (quietPackets_wellFormed q hq).2.2
  noop_opcode := noopRequest_opcode

/-- `get a I` goes to the owner of `a`. -/
theorem text_asks_first_owner :
    ¬ (TextRoutes .default twoHosts [[97], [73]] (fun _ => 0) ⟨0, 0, 0, 0⟩ ∧
      BinaryRoutes .default twoHosts getsOfTwo (fun _ => 0) ⟨0, 0, 0, 0⟩) := by
  intro h
  have hvalid : ∀ k ∈ [[97], [73]], ValidKey k := by
    simp only [List.mem_cons, List.not_mem_nil, or_false, forall_eq_or_imp, forall_eq]
    exact ⟨validKey_letter (by decide), validKey_letter (by decide)⟩
  obtain ⟨_, a, _, howner⟩ := (textRoutes_iff .default twoHosts (by simp) hvalid (by decide) _ _).mp h.1
  have hfirst : twoHosts.owner [97] = a := howner _ (by simp)
  have hsecond : twoHosts.owner [73] = a := howner _ (by simp)
  have hne : twoHosts.owner [97] ≠ twoHosts.owner [73] := by decide +kernel
  exact hne (hfirst.trans hsecond.symm)

end KvProxy
