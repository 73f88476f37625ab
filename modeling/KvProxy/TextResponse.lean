import KvProxy.Answer
import KvProxy.TextCommands

/-!
# Reading text responses

`try_read_response_text` takes text that does not start with `VALUE` as a whole,
however little of it has arrived.  Of text that does, it measures the header line
and the byte count in it, as far as they have arrived, and adds seven bytes for
the end of the data and `END`.

* `walk_response` — which digits the walk over a header line keeps;
* `scanResponse_line` — what it finds, when the byte count ends the line;
* `parseResp_other` — text that is taken as a whole;
* `parseResp_waits` / `parseResp_measured` — a block that is waited for, or taken
  with everything behind it.
-/

namespace KvProxy

open MachineInt

/-- The header line, as far as it has arrived. -/
def respLine (t : List UInt8) : List UInt8 := t.takeWhile (fun c => c ≠ 13)

/-- The digits of the byte count, up to ten of them. -/
def respDigits (t : List UInt8) : List UInt8 :=
  ((behindSpaces 3 (respLine t)).filter isDigitByte).take 10

/-- The length a block is read with. -/
def valueLen (t : List UInt8) : Int :=
  int32 ((if 13 ∈ t then ((respLine t).length : Int) + 2 else 0) + atoi (respDigits t) + 7)

/-! ## The walk over a header line -/

/-- A walk over bytes, up to the step that ends it. -/
def walk {σ : Type} (step : UInt8 → Int → σ → Bool × σ) : List UInt8 → Int → σ → σ
  | [], _, s => s
  | c :: cs, i, s =>
      match step c i s with
      | (true, s') => s'
      | (false, s') => walk step cs (i + 1) s'

theorem scanResponse_eq_walk (data : ByteMem) (n : Nat) (i : Int) (s : Int × Int × List UInt8) :
    scanResponse data n i s = walk scanResponseStep (data.slice i n) i s := by
  induction n generalizing i s with
  | zero => rfl
  | succ n ih =>
      rw [ByteMem.slice_succ, scanResponse, walk]
      cases hstep : scanResponseStep (data i) i s with
      | mk leaves s' =>
          cases leaves with
          | true => rfl
          | false => exact ih (i + 1) s'

/-- One byte of the line behind the third space. -/
theorem scanResponseStep_digit {c : UInt8} (hspace : c ≠ 32) (hreturn : c ≠ 13) (i : Int)
    {d : List UInt8} (hd : d.length ≤ 10) :
    scanResponseStep c i (0, 3, d) = (false, (0, 3, (d ++ [c].filter isDigitByte).take 10)) := by
  simp only [scanResponseStep, hspace, hreturn, if_false, true_and]
  rw [take_digit c hd]
  by_cases hkept : isDigitByte c ∧ d.length < 10
  · rw [if_pos hkept, if_pos hkept]
  · rw [if_neg hkept, if_neg hkept]

theorem respLine_cons {c : UInt8} (hc : c ≠ 13) (t : List UInt8) :
    respLine (c :: t) = c :: respLine t := by
  simp [respLine, hc]

theorem respLine_of_not_mem {t : List UInt8} (h : (13 : UInt8) ∉ t) : respLine t = t := by
  refine List.takeWhile_eq_self_iff.mpr ?_
  intro c hc
  exact decide_eq_true (ne_of_mem_of_not_mem hc h)

theorem respLine_append {cs : List UInt8} (h : (13 : UInt8) ∉ cs) (rest : List UInt8) :
    respLine (cs ++ 13 :: rest) = cs := by
  unfold respLine
  rw [List.takeWhile_append_of_pos (fun c hc => decide_eq_true (ne_of_mem_of_not_mem hc h))]
  simp

/-- The word that a line goes on with. -/
def firstWord (t : List UInt8) : List UInt8 := t.takeWhile (fun c => c ≠ 32)

theorem walk_response_contentLen (t : List UInt8) (i splits : Int) (d : List UInt8) :
    (walk scanResponseStep t i (0, splits, d)).1 =
      if 13 ∈ t then i + (respLine t).length + 2 else 0 := by
  induction t generalizing i splits d with
  | nil => rfl
  | cons c t ih =>
      by_cases hc : c = 13
      · subst hc
        simp [walk, scanResponseStep, respLine]
      · obtain ⟨splits', d', hstep⟩ : ∃ splits' d',
            scanResponseStep c i (0, splits, d) = (false, (0, splits', d')) := by
          unfold scanResponseStep
          dsimp only
          rw [if_neg hc]
          split_ifs
          · exact ⟨_, _, rfl⟩
          · exact ⟨_, _, rfl⟩
          · exact ⟨_, _, rfl⟩
        rw [walk, hstep]
        dsimp only
        rw [ih, respLine_cons hc, List.length_cons]
        simp only [List.mem_cons, Ne.symm hc, false_or]
        push_cast
        congr 1
        omega

/-- Behind the fourth space nothing is kept. -/
theorem walk_response_behind (t : List UInt8) (i : Int) {splits : Int} (hsplits : 3 < splits)
    (content : Int) (d : List UInt8) :
    (walk scanResponseStep t i (content, splits, d)).2.2 = d := by
  induction t generalizing i splits with
  | nil => rfl
  | cons c t ih =>
      have hthree : splits ≠ 3 := by omega
      rw [walk, scanResponseStep]
      simp only [hthree, false_and, if_false]
      split_ifs with hspace hreturn
      · exact ih (i + 1) (by omega)
      · rfl
      · exact ih (i + 1) hsplits

/-- Between the third and the fourth, up to ten digits. -/
theorem walk_response_within (t : List UInt8) (i : Int) {d : List UInt8} (hd : d.length ≤ 10) :
    (walk scanResponseStep t i (0, 3, d)).2.2 =
      (d ++ (firstWord (respLine t)).filter isDigitByte).take 10 := by
  induction t generalizing i d with
  | nil => simp [walk, firstWord, respLine, List.take_of_length_le hd]
  | cons c t ih =>
      by_cases hspace : c = 32
      · subst hspace
        rw [walk, scanResponseStep]
        simp only [if_true]
        rw [walk_response_behind t (i + 1) (by omega), respLine_cons (by decide)]
        simp [firstWord, List.take_of_length_le hd]
      · by_cases hreturn : c = 13
        · subst hreturn
          simp [walk, scanResponseStep, respLine, firstWord, List.take_of_length_le hd]
        · rw [walk, scanResponseStep_digit hspace hreturn i hd]
          dsimp only
          rw [ih (i + 1) (by simp), take_take_append, List.append_assoc, ← List.filter_append,
            List.singleton_append, respLine_cons hreturn]
          simp [firstWord, hspace]

/-- **What the walk over a response keeps**, with `k` spaces to come. -/
theorem walk_response (t : List UInt8) (k : Nat) (i : Int) :
    (walk scanResponseStep t i (0, 3 - k, [])).2.2 =
      ((firstWord (behindSpaces k (respLine t))).filter isDigitByte).take 10 := by
  induction t generalizing k i with
  | nil => simp [walk, respLine, firstWord]
  | cons c t ih =>
      cases k with
      | zero =>
          have hthree : (3 : Int) - ((0 : Nat) : Int) = 3 := rfl
          rw [hthree, walk_response_within (d := []) _ i (Nat.zero_le 10), behindSpaces_zero,
            List.nil_append]
      | succ k =>
          have hthree : (3 : Int) - ((k + 1 : Nat) : Int) ≠ 3 := by omega
          by_cases hspace : c = 32
          · subst hspace
            have hsplits : (3 : Int) - ((k + 1 : Nat) : Int) + 1 = 3 - k := by
              push_cast
              omega
            rw [walk, scanResponseStep, respLine_cons (by decide), behindSpaces_space]
            simp only [if_true]
            rw [hsplits]
            exact ih k (i + 1)
          · by_cases hreturn : c = 13
            · subst hreturn
              simp [walk, scanResponseStep, respLine, firstWord]
            · rw [walk, scanResponseStep, respLine_cons hreturn, behindSpaces_cons hspace]
              simp only [hspace, hreturn, hthree, false_and, if_false]
              exact ih (k + 1) (i + 1)

/-- **What the walk over a header line finds.** -/
theorem scanResponse_line {t : List UInt8} (hspaces : (respLine t).count 32 ≤ 3)
    (memory : ByteMem) :
    ∃ splits, scanResponse (ByteMem.ofList t memory) t.length 0 (0, 0, []) =
      (if 13 ∈ t then ((respLine t).length : Int) + 2 else 0, splits, respDigits t) := by
  have hcontent := walk_response_contentLen t 0 0 []
  have hdigits := walk_response t 3 0
  have hword : firstWord (behindSpaces 3 (respLine t)) = behindSpaces 3 (respLine t) := by
    refine List.takeWhile_eq_self_iff.mpr ?_
    intro c hc
    have hcount := count_behindSpaces 3 (respLine t)
    have hnone : (32 : UInt8) ∉ behindSpaces 3 (respLine t) :=
      List.count_eq_zero.mp (by omega)
    exact decide_eq_true (ne_of_mem_of_not_mem hc hnone)
  rw [Int.zero_add] at hcontent
  rw [hword] at hdigits
  rw [scanResponse_eq_walk, ByteMem.slice_ofList]
  exact ⟨_, Prod.ext hcontent (Prod.ext rfl hdigits)⟩

/-! ## One response -/

/-- The word a block starts with is found when it has arrived. -/
theorem startsWith_value {t : List UInt8} (hsize : 5 ≤ t.length) (memory : ByteMem) :
    startsWith (ByteMem.ofList t memory) (asciiBytes "VALUE") = true ↔
      asciiBytes "VALUE" <+: t := by
  refine ⟨fun h => ?_, fun h => startsWith_of_prefix h memory⟩
  rcases prefix_of_startsWith h with hp | hp
  · exact hp
  · have hlen : (asciiBytes "VALUE").length = 5 := rfl
    have heq : t = asciiBytes "VALUE" := hp.eq_of_length_le (by omega)
    rw [heq]

/-- Text that does not start with `VALUE` is read as a whole. -/
theorem tryReadResponseText_other {t : List UInt8} (hnot : ¬ asciiBytes "VALUE" <+: t)
    (memory : ByteMem) (header : MemcachedHeader) :
    tryReadResponseText (ByteMem.ofList t memory) t.length header =
      (1, { header with bodylen := t.length, opcode := 0 }) := by
  have hword : (t.length : Int) < 5 ∨
      startsWith (ByteMem.ofList t memory) (asciiBytes "VALUE") = false := by
    by_cases hsize : t.length < 5
    · exact Or.inl (by omega)
    · right
      rw [← Bool.not_eq_true, startsWith_value (by omega)]
      exact hnot
  rw [tryReadResponseText, if_pos hword]

/-- A block is read with the length that has arrived of it. -/
theorem tryReadResponseText_value {t : List UInt8} (hvalue : asciiBytes "VALUE" <+: t)
    (hspaces : (respLine t).count 32 ≤ 3) (memory : ByteMem) (header : MemcachedHeader) :
    tryReadResponseText (ByteMem.ofList t memory) t.length header =
      if (t.length : Int) < valueLen t then (0, header)
      else (1, { header with bodylen := valueLen t, opcode := 0 }) := by
  have hsize : 5 ≤ t.length := hvalue.length_le
  have hword : ¬ ((t.length : Int) < 5 ∨
      startsWith (ByteMem.ofList t memory) (asciiBytes "VALUE") = false) := by
    rw [not_or, Bool.not_eq_false, startsWith_value hsize]
    exact ⟨by omega, hvalue⟩
  obtain ⟨splits, hscan⟩ := scanResponse_line hspaces memory
  rw [tryReadResponseText, if_neg hword, Int.toNat_natCast, hscan]
  rfl

/-! ## One pass -/

section Pass

variable {t : List UInt8} (hsize : t.length < 2147483648) (memory : ByteMem) {p : Nat}
  (hp : p < t.length)

include hsize hp

theorem readResponse_text (header : MemcachedHeader) :
    readResponse (ByteMem.ofList t memory) t.length false header p =
      tryReadResponseText (ByteMem.ofList (t.drop p) ((ByteMem.ofList t memory).shift p))
        (t.drop p).length header := by
  have hrem : int32 ((t.length : Int) - p) = (t.drop p).length := by
    rw [int32_eq_self (by omega) (by omega), List.length_drop]
    omega
  rw [readResponse, if_neg (by simp), hrem, ← ByteMem.shift_ofList t memory hp.le]

omit hsize hp in
/-- A pass that reads no response. -/
theorem parseRespBody_unread {m : ByteMem} {size : Int} {isBinary : Bool} {s : RespLoop}
    {hd : MemcachedHeader} (hrem : 0 < int32 (size - s.position))
    (hread : readResponse m size isBinary s.header s.position = (0, hd)) :
    parseRespBody m size isBinary s = (some .again, { s with isAgin := false, header := hd }) := by
  unfold parseRespBody
  rw [if_pos hrem, hread]
  simp

/-- A pass that takes a response of the given length. -/
theorem parseRespBody_text {s : RespLoop} (hpos : s.position = p) {hd : MemcachedHeader} {len : Nat}
    (hread : tryReadResponseText (ByteMem.ofList (t.drop p) ((ByteMem.ofList t memory).shift p))
      (t.drop p).length s.header = (1, hd)) (hbody : hd.bodylen = len) (hop : hd.opcode = 0)
    (hfit : p + len ≤ t.length) :
    parseRespBody (ByteMem.ofList t memory) t.length false s =
      (none, ⟨((p + len : Nat) : Int), s.respData ++ [⟨p, len, 0⟩], false, hd⟩) := by
  have hlen : packetLen false hd = len := by
    rw [packetLen, headerLen, if_neg (by simp), Int.zero_add, hbody,
      int32_eq_self (by omega) (by omega)]
  have hnat : uint32 (len : Int) = len := by
    unfold uint32
    omega
  have hrem : 0 < int32 ((t.length : Int) - s.position) := by
    rw [hpos, int32_eq_self (by omega) (by omega)]
    omega
  have hacc : RespAccepted (ByteMem.ofList t memory) t.length false s.header s.position hd := by
    refine ⟨hrem, ?_, ?_⟩
    · rw [hpos, readResponse_text hsize memory hp]
      exact hread
    · rw [hlen]
      omega
  rw [parseRespBody_of_accepted hacc, hlen, hpos, int32_eq_self (by omega) (by omega), respItem,
    hlen, hnat, hop]
  rfl

end Pass

/-! ## One call -/

/-- The item of the text behind a position, if there is any. -/
def restItems (p n : Nat) : List Resp := if p < n then [⟨p, n - p, 0⟩] else []

section Call

variable {t : List UInt8} (hsize : t.length < 2147483648) (memory : ByteMem)

include hsize

/-- Text that does not start with `VALUE` ends the loop. -/
theorem run_other {p : Nat} (hp : p ≤ t.length) (hnot : ¬ asciiBytes "VALUE" <+: t.drop p)
    (items : List Resp) (fuel : Nat) (isAgin : Bool) (hagin : p = t.length → isAgin = false)
    (header : MemcachedHeader) :
    (Loop.run (parseRespBody (ByteMem.ofList t memory) t.length false) (fuel + 2)
        ⟨p, items, isAgin, header⟩).map (fun r => (r.1, r.2.position, r.2.respData)) =
      some (.success, (t.length : Int), items ++ restItems p t.length) := by
  rcases Nat.lt_or_ge p t.length with hlt | hge
  · have hpass := parseRespBody_text (s := ⟨p, items, isAgin, header⟩) hsize memory hlt rfl
      (tryReadResponseText_other hnot _ header) rfl rfl (by rw [List.length_drop]; omega)
    have hend : p + (t.drop p).length = t.length := by
      rw [List.length_drop]
      omega
    rw [hend] at hpass
    have hleave := parseRespBody_ends (ByteMem.ofList t memory) false (le_refl t.length)
      hsize ⟨(t.length : Int), items ++ [⟨p, (t.drop p).length, 0⟩], false,
        { header with bodylen := ((t.drop p).length : Int), opcode := 0 }⟩ rfl
    rw [Loop.run_pass _ hpass, Loop.run_leave _ hleave, restItems, if_pos hlt, List.length_drop]
    rfl
  · obtain rfl : p = t.length := by omega
    have hleave := parseRespBody_ends (ByteMem.ofList t memory) false (le_refl t.length)
      hsize ⟨(t.length : Int), items, isAgin, header⟩ rfl
    rw [hagin rfl] at hleave ⊢
    rw [Loop.run_leave _ hleave, restItems, if_neg (lt_irrefl _), List.append_nil]
    rfl

variable {memory} (htext : isBinaryProtocol (ByteMem.ofList t memory) = false) (isAgin : Bool)
  (header : MemcachedHeader)

include htext

/-- **Text that is taken as a whole.** -/
theorem parseResp_other (hne : t ≠ []) (hnot : ¬ asciiBytes "VALUE" <+: t) :
    parseResp isAgin header (ByteMem.ofList t memory) t.length 0 [] =
      some (.success, (t.length : Int), [⟨0, t.length, 0⟩]) := by
  have hpos := List.length_pos_iff.mpr hne
  have hrun := run_other hsize memory (p := 0) (Nat.zero_le _)
    (by rwa [List.drop_zero]) [] 4294967295 isAgin (fun h => absurd h (by omega)) header
  have hfuel : loopFuel = 4294967295 + 2 := rfl
  rw [restItems, if_pos hpos] at hrun
  rw [parseResp, htext, hfuel]
  exact hrun

variable (hvalue : asciiBytes "VALUE" <+: t) (hspaces : (respLine t).count 32 ≤ 3)

include hvalue hspaces

/-- **A block that is waited for.** -/
theorem parseResp_waits (hlong : (t.length : Int) < valueLen t) :
    parseResp isAgin header (ByteMem.ofList t memory) t.length 0 [] = some (.again, 0, []) := by
  have hfive : 5 ≤ t.length := hvalue.length_le
  have hrem : 0 < int32 ((t.length : Int) - 0) := by
    rw [Int.sub_zero, int32_eq_self (by omega) (by omega)]
    omega
  have hread : readResponse (ByteMem.ofList t memory) t.length false header 0 = (0, header) := by
    have htext' := readResponse_text hsize memory (p := 0) (by omega) header
    rw [List.drop_zero, tryReadResponseText_value hvalue hspaces, if_pos hlong] at htext'
    exact htext'
  have hpass : parseRespBody (ByteMem.ofList t memory) t.length false ⟨0, [], isAgin, header⟩ =
      (some .again, ⟨0, [], false, header⟩) :=
    parseRespBody_unread (s := ⟨0, [], isAgin, header⟩) hrem hread
  have hfuel : loopFuel = 4294967296 + 1 := rfl
  rw [parseResp, htext, hfuel, Loop.run_leave _ hpass]
  rfl

/-- **A block that is taken**, with all that is behind the length it is read with. -/
theorem parseResp_measured {len : Nat} (hlen : valueLen t = len) (hfit : len ≤ t.length)
    (hnot : ¬ asciiBytes "VALUE" <+: t.drop len) :
    parseResp isAgin header (ByteMem.ofList t memory) t.length 0 [] =
      some (.success, (t.length : Int), ⟨0, len, 0⟩ :: restItems len t.length) := by
  have hfive : 5 ≤ t.length := hvalue.length_le
  have hread := tryReadResponseText_value hvalue hspaces ((ByteMem.ofList t memory).shift (0 : Nat))
    header
  rw [hlen, if_neg (by omega)] at hread
  have hpass := parseRespBody_text (s := ⟨0, [], isAgin, header⟩) hsize memory (p := 0) (by omega) rfl
    (by rw [List.drop_zero]; exact hread) rfl rfl (by omega)
  rw [Nat.zero_add] at hpass
  have hrun := run_other hsize memory hfit hnot [⟨0, len, 0⟩] 4294967294
    false (fun _ => rfl) { header with bodylen := (len : Int), opcode := 0 }
  have hfuel : loopFuel = (4294967294 + 2) + 1 := rfl
  rw [parseResp, htext, hfuel, Loop.run_pass _ hpass]
  exact hrun

end Call

end KvProxy
