import KvProxy.Packet
import KvProxy.Reading

/-!
# Reassembling a host's answer

A host answers a batch with a sequence of well-formed packets, all but the
last of them hits of quiet gets.  The bytes arrive in any number of pieces,
each followed by a call of `parse_resp` that resumes where the last one ended.

The parser takes a packet for complete when the received bytes are as many as
the packet is long, wherever it starts.  One that is taken too early is read
rightly all the same if the next piece goes beyond it (`CutsPassed`).

* `run_taken` — one call: the packets it takes, also those taken too early;
* `takenCode_of_passed` — it does not report success before the answer is there;
* `readLoop_answer` — all calls: the items of all packets, at their offsets;
* `readFromBackend_answer` — the answer lies at the start of `resp_buf` and
  its items are in the list.
-/

namespace KvProxy

open MachineInt

/-- The items of response packets that lie one behind the other from offset `o`. -/
def respItemsAt (o : Nat) : List (Packet magicRes) → List Resp
  | [] => []
  | p :: ps => respItem true o p.header :: respItemsAt (o + p.length) ps

theorem respItem_contentLen (o : Nat) (p : Packet magicRes) :
    (respItem true o p.header).contentLen = p.length := by
  have hlt := p.length_lt
  have hlen : p.length = p.bytes.length := rfl
  have hu := uint32_eq_self (x := (p.length : Int)) (by omega) (by omega)
  simp only [respItem, Packet.packetLen_header]
  omega

/-- The bytes `create_resp` reads for one item. -/
theorem respItem_bytes (m : ByteMem) (o : Nat) (p : Packet magicRes) :
    (respItem true o p.header).bytes m = m.slice o p.length := by
  rw [Resp.bytes, respItem_contentLen]
  rfl

/-- A pass that finds less than a header, or a header without its body. -/
theorem parseRespBody_waits {m : ByteMem} {n o : Nat} (hn : n < 2147483648) (ho : o < n)
    (p : Packet magicRes) (hheld : Held m o n p.bytes)
    (hpart : n < o + 24 ∨ (o + 24 ≤ n ∧ n < p.length)) {s : RespLoop} (hpos : s.position = o) :
    (parseRespBody m n true s).1 = some .again := by
  have hrem : int32 ((n : Int) - s.position) > 0 := by
    rw [hpos, int32_eq_self (by omega) (by omega)]
    omega
  unfold parseRespBody
  rw [if_pos hrem]
  rcases hpart with hshort | ⟨hhead, hbody⟩
  · have hread : readResponse m n true s.header s.position = (0, s.header) := by
      have hlt : int32 ((n : Int) - s.position) < 24 := by
        rw [hpos, int32_eq_self (by omega) (by omega)]
        omega
      simp [readResponse, tryReadResponseBinary, tryReadBinary, hlt]
    simp [hread]
  · have hread : readResponse m n true s.header s.position = (1, p.header) := by
      rw [hpos]
      exact tryReadBinary_packet p hheld hhead hn s.header
    have hlong : (n : Int) < packetLen true p.header := by
      rw [Packet.packetLen_header]
      omega
    simp [hread, hlong]

/-- A pass that finds a header, and as many bytes received as the packet is
long. -/
theorem parseRespBody_takes {m : ByteMem} {n o : Nat} (hn : n < 2147483648)
    (p : Packet magicRes) (hheld : Held m o n p.bytes) (hhead : o + 24 ≤ n) (hfit : p.length ≤ n)
    (hsmall : o + p.length < 2147483648) {s : RespLoop} (hpos : s.position = o) :
    parseRespBody m n true s =
      (none, ⟨((o + p.length : Nat) : Int), s.respData ++ [respItem true o p.header],
        p.opcode = cmdGetkq, p.header⟩) := by
  have hlen := p.packetLen_header
  have hacc : RespAccepted m n true s.header s.position p.header := by
    refine ⟨?_, ?_, ?_⟩
    · rw [hpos, int32_eq_self (by omega) (by omega)]
      omega
    · rw [hpos]
      exact tryReadBinary_packet p hheld hhead hn s.header
    · rw [hlen]
      omega
  rw [parseRespBody_of_accepted hacc, hpos, hlen, int32_eq_self (by omega) (by omega)]
  rfl

/-- A pass with nothing left, or with a position behind what was received,
returns on the last packet. -/
theorem parseRespBody_ends (m : ByteMem) (isBinary : Bool) {n o : Nat} (hno : n ≤ o)
    (ho : o < 2147483648) (s : RespLoop) (hpos : s.position = o) :
    parseRespBody m n isBinary s = (some (if s.isAgin then .again else .success), s) := by
  have hnone : ¬ int32 ((n : Int) - s.position) > 0 := by
    rw [hpos, int32_eq_self (by omega) (by omega)]
    omega
  unfold parseRespBody
  rw [if_neg hnone]

/-- The packets a call takes when `n` bytes have been received: those whose
header is there and that are not longer than all that was received. -/
def taken (o n : Nat) : List (Packet magicRes) → List (Packet magicRes)
  | [] => []
  | p :: ps => if o + 24 ≤ n ∧ p.length ≤ n then p :: taken (o + p.length) n ps else []

/-- What that call returns, begun with the given `is_agin`. -/
def takenCode (o n : Nat) (isAgin : Bool) : List (Packet magicRes) → ExtRet
  | [] => if isAgin then .again else .success
  | p :: ps =>
      if n ≤ o then (if isAgin then .again else .success)
      else if o + 24 ≤ n ∧ p.length ≤ n then takenCode (o + p.length) n (p.opcode = cmdGetkq) ps
      else .again

/-- **One call of the parser** on packets from its position on. -/
theorem run_taken {m : ByteMem} {n : Nat} (hn : n < 2147483648) (ps : List (Packet magicRes))
    {o fuel : Nat} {s : RespLoop} (hpos : s.position = o)
    (hall : n ≤ o + (Packet.concat ps).length)
    (hsmall : o + (Packet.concat ps).length < 2147483648)
    (hheld : Held m o n (Packet.concat ps)) (hfuel : ps.length < fuel) :
    ∃ u : RespLoop, Loop.run (parseRespBody m n true) fuel s =
        some (takenCode o n s.isAgin ps, u) ∧
      u.position = ((o + (Packet.concat (taken o n ps)).length : Nat) : Int) ∧
      u.respData = s.respData ++ respItemsAt o (taken o n ps) := by
  induction ps generalizing o fuel s with
  | nil =>
      obtain ⟨fuel, rfl⟩ : ∃ k, fuel = k + 1 := ⟨fuel - 1, by simp at hfuel; omega⟩
      simp only [Packet.concat_nil, List.length_nil, Nat.add_zero] at hall hsmall
      refine ⟨s, Loop.run_leave fuel (parseRespBody_ends m _ hall hsmall s hpos), ?_, ?_⟩
      · simpa [taken] using hpos
      · simp [taken, respItemsAt]
  | cons p ps ih =>
      obtain ⟨fuel, rfl⟩ : ∃ k, fuel = k + 1 := ⟨fuel - 1, by omega⟩
      rw [List.length_cons] at hfuel
      rw [Packet.length_concat_cons] at hall hsmall
      by_cases hno : n ≤ o
      · have hnone : ¬ (o + 24 ≤ n ∧ p.length ≤ n) := by omega
        refine ⟨s, ?_, ?_, ?_⟩
        · rw [Loop.run_leave fuel (parseRespBody_ends m _ hno (by omega) s hpos), takenCode,
            if_pos hno]
        · simpa [taken, hnone] using hpos
        · simp [taken, hnone, respItemsAt]
      · by_cases htake : o + 24 ≤ n ∧ p.length ≤ n
        · rw [Loop.run_pass fuel
            (parseRespBody_takes hn p hheld.left htake.1 htake.2 (by omega) hpos)]
          obtain ⟨u, hrun, hupos, hudata⟩ := ih (o := o + p.length)
            (s := ⟨((o + p.length : Nat) : Int), s.respData ++ [respItem true o p.header],
              p.opcode = cmdGetkq, p.header⟩) rfl (by omega) (by omega) hheld.right
            (show ps.length < fuel by omega)
          refine ⟨u, ?_, ?_, ?_⟩
          · rw [hrun, takenCode, if_neg hno, if_pos htake]
          · rw [hupos, taken, if_pos htake, Packet.length_concat_cons, Nat.add_assoc]
          · rw [hudata, taken, if_pos htake, respItemsAt, List.append_assoc]
            rfl
        · have hwait := parseRespBody_waits hn (by omega) p hheld.left (by omega) hpos
          have hleave : parseRespBody m n true s =
              (some .again, (parseRespBody m n true s).2) := Prod.ext hwait rfl
          obtain ⟨hsame, hdata⟩ := parseRespBody_leave hleave
          refine ⟨(parseRespBody m n true s).2, ?_, ?_, ?_⟩
          · rw [Loop.run_leave fuel hleave, takenCode, if_neg hno, if_neg htake]
          · rw [hsame, hpos]
            simp [taken, htake]
          · rw [hdata]
            simp [taken, htake, respItemsAt]

/-- All packets but the last are hits of quiet gets. -/
def QuietFirst {magic : UInt8} (ps : List (Packet magic)) : Prop :=
  ∀ p ∈ ps.dropLast, p.opcode = cmdGetkq

instance {magic : UInt8} (ps : List (Packet magic)) : Decidable (QuietFirst ps) :=
  inferInstanceAs (Decidable (∀ p ∈ ps.dropLast, _))

theorem QuietFirst.tail {magic : UInt8} {p : Packet magic} {ps : List (Packet magic)}
    (h : QuietFirst (p :: ps)) : QuietFirst ps := by
  cases ps with
  | nil => intro q hq; simp at hq
  | cons r rs => exact fun q hq => h q (List.mem_cons_of_mem _ hq)

theorem QuietFirst.right {magic : UInt8} {ps qs : List (Packet magic)}
    (h : QuietFirst (ps ++ qs)) : QuietFirst qs := by
  induction ps with
  | nil => exact h
  | cons p ps ih => exact ih h.tail

theorem respItemsAt_append (o : Nat) (ps qs : List (Packet magicRes)) :
    respItemsAt o (ps ++ qs) =
      respItemsAt o ps ++ respItemsAt (o + (Packet.concat ps).length) qs := by
  induction ps generalizing o with
  | nil => simp [respItemsAt]
  | cons p ps ih =>
      rw [List.cons_append, respItemsAt, ih, respItemsAt, Packet.length_concat_cons,
        ← Nat.add_assoc, List.cons_append]

/-! ## Packets that are taken too early -/

/-- A packet that is taken too early after `n` bytes is passed when `next` bytes
have been received; a hit of a quiet get that ends the answer need only be complete
then. -/
def EarlyPassed (o n next : Nat) : List (Packet magicRes) → Prop
  | [] => True
  | p :: ps =>
      (o + 24 ≤ n → n < o + p.length → p.length ≤ n →
        o + p.length < next ∨ (o + p.length = next ∧ ps = [] ∧ p.opcode = cmdGetkq)) ∧
        EarlyPassed (o + p.length) n next ps

/-- Every packet that is taken too early is passed by the next chunk; `n` bytes
have been received before. -/
def CutsPassed (ps : List (Packet magicRes)) : Nat → List (List UInt8) → Prop
  | _, [] => True
  | n, bytes :: chunks =>
      EarlyPassed 0 (n + bytes.length) (n + bytes.length + (chunks.headD []).length) ps ∧
        CutsPassed ps (n + bytes.length) chunks

instance decidableEarlyPassed (o n next : Nat) :
    (ps : List (Packet magicRes)) → Decidable (EarlyPassed o n next ps)
  | [] => isTrue trivial
  | p :: ps =>
      have := decidableEarlyPassed (o + p.length) n next ps
      inferInstanceAs (Decidable (_ ∧ _))

instance decidableCutsPassed (ps : List (Packet magicRes)) :
    (n : Nat) → (chunks : List (List UInt8)) → Decidable (CutsPassed ps n chunks)
  | _, [] => isTrue trivial
  | n, bytes :: chunks =>
      have := decidableCutsPassed ps (n + bytes.length) chunks
      inferInstanceAs (Decidable (_ ∧ _))

theorem taken_append (o n : Nat) (ps : List (Packet magicRes)) :
    ∃ rest, ps = taken o n ps ++ rest := by
  induction ps generalizing o with
  | nil => exact ⟨[], rfl⟩
  | cons p ps ih =>
      rw [taken]
      split_ifs
      · obtain ⟨rest, hrest⟩ := ih (o + p.length)
        exact ⟨rest, by rw [List.cons_append, ← hrest]⟩
      · exact ⟨p :: ps, rfl⟩

/-- Packets that start behind the received bytes are not taken. -/
theorem earlyPassed_of_le {o n : Nat} (next : Nat) (h : n ≤ o) (ps : List (Packet magicRes)) :
    EarlyPassed o n next ps := by
  induction ps generalizing o with
  | nil => trivial
  | cons p ps ih => exact ⟨fun hhead => absurd hhead (by omega), ih (by omega)⟩

/-- Packets that have arrived are not taken too early. -/
theorem earlyPassed_append {o n next : Nat} {ps qs : List (Packet magicRes)}
    (h : o + (Packet.concat ps).length ≤ n) :
    EarlyPassed o n next (ps ++ qs) ↔ EarlyPassed (o + (Packet.concat ps).length) n next qs := by
  induction ps generalizing o with
  | nil => simp
  | cons p ps ih =>
      rw [Packet.length_concat_cons] at h ⊢
      rw [List.cons_append, EarlyPassed, ih (by omega), Nat.add_assoc]
      exact ⟨fun hall => hall.2, fun hrest => ⟨fun _ hlt => absurd hlt (by omega), hrest⟩⟩

theorem taken_of_le {o n : Nat} {ps : List (Packet magicRes)}
    (h : o + (Packet.concat ps).length ≤ n) : taken o n ps = ps := by
  induction ps generalizing o with
  | nil => rfl
  | cons p ps ih =>
      have hle : 24 ≤ p.length := p.header_le
      rw [Packet.length_concat_cons] at h
      rw [taken, if_pos (by omega), ih (by omega)]

/-- Packets that start behind the received bytes are left. -/
theorem taken_of_ge {o n : Nat} (h : n ≤ o) (ps : List (Packet magicRes)) : taken o n ps = [] := by
  cases ps with
  | nil => rfl
  | cons p ps => rw [taken, if_neg (by omega)]

/-- A call that starts behind the received bytes makes no pass. -/
theorem takenCode_of_ge {o n : Nat} (h : n ≤ o) (isAgin : Bool) (ps : List (Packet magicRes)) :
    takenCode o n isAgin ps = if isAgin then .again else .success := by
  cases ps with
  | nil => rfl
  | cons p ps => rw [takenCode, if_pos h]

theorem takenCode_cases (o n : Nat) (isAgin : Bool) (ps : List (Packet magicRes)) :
    takenCode o n isAgin ps = .again ∨ takenCode o n isAgin ps = .success := by
  induction ps generalizing o isAgin with
  | nil => cases isAgin <;> simp [takenCode]
  | cons p ps ih =>
      rw [takenCode]
      split_ifs
      · exact Or.inl rfl
      · exact Or.inr rfl
      · exact ih _ _
      · exact Or.inl rfl

/-- **A call before the last piece.**  Where what is taken too early is passed by the
next piece, the call returns "again", and the next one starts within what is received
then, or has nothing left to take. -/
theorem takenCode_of_passed {o n next : Nat} {ps : List (Packet magicRes)}
    (hquiet : QuietFirst ps) (ho : o < n) (hnext : n < next)
    (hall : next ≤ o + (Packet.concat ps).length) (hpassed : EarlyPassed o n next ps)
    (isAgin : Bool) :
    takenCode o n isAgin ps = .again ∧
      (o + (Packet.concat (taken o n ps)).length < next ∨
        (o + (Packet.concat (taken o n ps)).length = next ∧ taken o n ps = ps)) := by
  induction ps generalizing o isAgin with
  | nil =>
      rw [Packet.concat_nil, List.length_nil] at hall
      omega
  | cons p ps ih =>
      obtain ⟨hhere, hlater⟩ := hpassed
      rw [Packet.length_concat_cons] at hall
      by_cases htake : o + 24 ≤ n ∧ p.length ≤ n
      · rw [takenCode, if_neg (by omega), if_pos htake, taken, if_pos htake,
          Packet.length_concat_cons, ← Nat.add_assoc]
        by_cases hmore : o + p.length < n
        · obtain ⟨hcode, hpos⟩ := ih hquiet.tail hmore (by omega) hlater (p.opcode = cmdGetkq)
          refine ⟨hcode, ?_⟩
          rcases hpos with hlt | ⟨hend, hwhole⟩
          · exact Or.inl hlt
          · exact Or.inr ⟨hend, by rw [hwhole]⟩
        · -- `p` is the last packet taken, and packets are left unless it ends the answer
          have hget : p.opcode = cmdGetkq ∧
              (o + p.length < next ∨ (o + p.length = next ∧ ps = [])) := by
            by_cases hearly : o + p.length < next
            · have hne : ps ≠ [] := by
                rintro rfl
                rw [Packet.concat_nil, List.length_nil] at hall
                omega
              refine ⟨hquiet p ?_, Or.inl hearly⟩
              rw [List.dropLast_cons_of_ne_nil hne]
              exact List.mem_cons_self
            · rcases hhere htake.1 (by omega) htake.2 with hlt | ⟨hend, hnil, hget⟩
              · exact absurd hlt hearly
              · exact ⟨hget, Or.inr ⟨hend, hnil⟩⟩
          rw [takenCode_of_ge (by omega), taken_of_ge (by omega), decide_eq_true hget.1]
          refine ⟨rfl, ?_⟩
          rw [Packet.concat_nil, List.length_nil, Nat.add_zero]
          rcases hget.2 with hlt | ⟨hend, hnil⟩
          · exact Or.inl hlt
          · exact Or.inr ⟨hend, by rw [hnil]⟩
      · rw [takenCode, if_neg (by omega), if_neg htake, taken, if_neg htake]
        exact ⟨rfl, Or.inl (by rw [Packet.concat_nil, List.length_nil]; omega)⟩

/-! ## One call -/

/-- `parse_resp` resumed behind the packets `before`. -/
theorem parseResp_taken {m : ByteMem} {n : Nat} {before rest : List (Packet magicRes)}
    (hsmall : (Packet.concat (before ++ rest)).length < 2147483648)
    (hheld : Held m 0 n (Packet.concat (before ++ rest))) (hpos : 0 < n)
    (hall : n ≤ (Packet.concat (before ++ rest)).length) (isAgin : Bool)
    (header : MemcachedHeader) :
    parseResp isAgin header m n (Packet.concat before).length [] =
      some (takenCode (Packet.concat before).length n isAgin rest,
        (((Packet.concat before).length +
          (Packet.concat (taken (Packet.concat before).length n rest)).length : Nat) : Int),
        respItemsAt (Packet.concat before).length
          (taken (Packet.concat before).length n rest)) := by
  have hbin : isBinaryProtocol m = true := by
    cases hps : before ++ rest with
    | nil =>
        rw [hps] at hall
        simp at hall
        omega
    | cons p ps =>
        rw [hps] at hheld
        have hfirst := Held.first_byte p hheld.left hpos
        simp [isBinaryProtocol, hfirst]
  rw [Packet.concat_append] at hheld hall hsmall
  rw [List.length_append] at hall hsmall
  have hcount := length_le_concat rest
  obtain ⟨u, hrun, hupos, hdata⟩ := run_taken (m := m) (n := n) (by omega) rest
    (o := (Packet.concat before).length) (s := ⟨(Packet.concat before).length, [], isAgin, header⟩)
    rfl (by omega) (by omega) (by simpa using hheld.right)
    (show rest.length < loopFuel by unfold loopFuel; omega)
  unfold parseResp
  rw [hbin, hrun, Option.map_some, hupos, hdata, List.nil_append]

/-! ## Delivery in pieces -/

/-- The rounds bring exactly these bytes, in any pieces, with interruptions
anywhere, and then nothing. -/
inductive Delivers : List RecvResult → List UInt8 → Prop
  | idle {recvs : List RecvResult}
      (hidle : ∀ ev ∈ recvs, ∀ bytes isAgin header, ev ≠ .data bytes isAgin header) :
      Delivers recvs []
  | wait {ev : RecvResult} {rest : List RecvResult} {bytes : List UInt8}
      (hev : ev = .selectIntr ∨ ev = .notSet ∨ ev = .intr) (hrest : Delivers rest bytes) :
      Delivers (ev :: rest) bytes
  | piece {bytes more : List UInt8} {isAgin : Bool} {header : MemcachedHeader}
      {rest : List RecvResult} (hne : bytes ≠ []) (hrest : Delivers rest more) :
      Delivers (.data bytes isAgin header :: rest) (bytes ++ more)

/-- The bytes of a `recv` that returned a count. -/
def RecvResult.bytes? : RecvResult → Option (List UInt8)
  | .data bytes _ _ => some bytes
  | _ => none

/-- The pieces that the rounds bring. -/
def piecesOf (recvs : List RecvResult) : List (List UInt8) := recvs.filterMap RecvResult.bytes?

theorem piecesOf_wait {ev : RecvResult} (hev : ev = .selectIntr ∨ ev = .notSet ∨ ev = .intr)
    (rest : List RecvResult) : piecesOf (ev :: rest) = piecesOf rest := by
  rcases hev with rfl | rfl | rfl <;> rfl

theorem piecesOf_idle {recvs : List RecvResult}
    (hidle : ∀ ev ∈ recvs, ∀ bytes isAgin header, ev ≠ .data bytes isAgin header) :
    piecesOf recvs = [] := by
  rw [piecesOf, List.filterMap_eq_nil_iff]
  intro ev hev
  cases ev with
  | data bytes isAgin header => exact absurd rfl (hidle _ hev bytes isAgin header)
  | _ => rfl

/-- They are not empty, and make up what is delivered. -/
theorem Delivers.pieces {recvs : List RecvResult} {bytes : List UInt8} (h : Delivers recvs bytes) :
    (∀ c ∈ piecesOf recvs, c ≠ []) ∧ (piecesOf recvs).flatten = bytes := by
  induction h with
  | idle hidle => simp [piecesOf_idle hidle]
  | wait hev hrest ih => rwa [piecesOf_wait hev]
  | @piece bytes more isAgin header rest hne hrest ih =>
      obtain ⟨hpieces, hflatten⟩ := ih
      have hcons : piecesOf (.data bytes isAgin header :: rest) = bytes :: piecesOf rest := rfl
      rw [hcons, List.flatten_cons, hflatten]
      exact ⟨List.forall_mem_cons.mpr ⟨hne, hpieces⟩, rfl⟩

/-- Rounds without data leave everything as it is. -/
theorem readLoop_idle (cfg : BackendConfig) (fd : Nat) (recvs : List RecvResult) (s : ReadState)
    (hidle : ∀ ev ∈ recvs, ∀ bytes isAgin header, ev ≠ .data bytes isAgin header) :
    ∃ flow, flow ≠ .leaveAtOnce ∧ (readLoop cfg fd recvs s).result = some (flow, s) := by
  induction recvs with
  | nil => exact ⟨.leave, by decide, rfl⟩
  | cons ev rest ih =>
      obtain ⟨flow, hflow, hround⟩ := readRound_other cfg fd (hidle ev List.mem_cons_self)
      have hres : (readRound cfg fd ev s).result = some (flow, s) := by rw [hround]
      rcases readLoop_cons cfg fd ev rest s with ⟨s', hgo, heq⟩ | ⟨_, heq⟩
      · obtain ⟨_, rfl⟩ := Prod.mk.inj (Option.some.inj (hres.symm.trans hgo))
        rw [heq]
        exact ih (fun ev' h => hidle ev' (List.mem_cons_of_mem _ h))
      · rw [heq]
        exact ⟨flow, hflow, hres⟩

/-- An interrupted round changes nothing. -/
theorem readLoop_wait (cfg : BackendConfig) (fd : Nat) {ev : RecvResult}
    (hev : ev = .selectIntr ∨ ev = .notSet ∨ ev = .intr) (rest : List RecvResult)
    (s : ReadState) :
    (readLoop cfg fd (ev :: rest) s).result = (readLoop cfg fd rest s).result := by
  have hround : (readRound cfg fd ev s).result = some (.goOn, s) := by
    rcases hev with rfl | rfl | rfl <;> rfl
  rw [readLoop_goOn hround]

/-- The thread whose `resp_buf` holds the first `n` bytes of an answer. -/
def Thread.holding (t : Thread) (base : ByteMem) (whole : List UInt8) (n : Nat) : Thread :=
  { t with respBuf := base.write 0 (whole.take n), respBufLen := n }

/-- A further piece in `resp_buf`, which then holds a longer start of the answer. -/
theorem receive_holding (t : Thread) (base : ByteMem) {whole bytes more : List UInt8} {n : Nat}
    (hn : n ≤ whole.length) (hbytes : bytes ++ more = whole.drop n) :
    (t.holding base whole n).receive bytes = t.holding base whole (n + bytes.length) := by
  have htake : whole.take n ++ bytes = whole.take (n + bytes.length) := by
    rw [List.take_add, ← hbytes, List.take_left]
  have hlen : (whole.take n).length = n := by
    rw [List.length_take]
    exact Nat.min_eq_left hn
  have hwrite := ByteMem.write_zero_append base (whole.take n) bytes
  rw [hlen, htake] at hwrite
  simp only [Thread.receive, Thread.holding, hwrite]

/-- **One round** that brings a piece of what a host sends, with what the parser
makes of it. -/
theorem readRound_holding {cfg : BackendConfig} (fd : Nat) (t : Thread) (base : ByteMem)
    {whole bytes more : List UInt8} {n : Nat} (hn : n ≤ whole.length)
    (hroom : n + bytes.length < cfg.respBufSize) (hne : bytes ≠ [])
    (hbytes : bytes ++ more = whole.drop n) {isAgin : Bool} {header : MemcachedHeader}
    {pos pos' : Int} {code : ExtRet} {items : List Resp}
    (hparse : parseResp isAgin header (t.holding base whole (n + bytes.length)).respBuf
      ((n + bytes.length : Nat) : Int) pos [] = some (code, pos', items)) (respList : List Resp) :
    readRound cfg fd (.data bytes isAgin header) ⟨pos, t.holding base whole n, respList⟩ =
      ⟨[.select fd, .recv fd bytes, .parsed code items],
        some (afterParse (t.holding base whole (n + bytes.length))
          (code, pos', respList ++ items))⟩ := by
  have hreceive := receive_holding t base hn hbytes
  generalize hs : (⟨pos, t.holding base whole n, respList⟩ : ReadState) = s
  have hspos : s.pos = pos := by rw [← hs]
  have hslen : s.thread.respBufLen = n := by rw [← hs]; rfl
  -- nothing is cut off
  have hchunk : chunkOf cfg s bytes = bytes := by
    rw [chunkOf, List.take_of_length_le]
    omega
  have hthread : s.thread.receive bytes = t.holding base whole (n + bytes.length) := by
    rw [← hs]
    exact hreceive
  have hlength : (t.holding base whole (n + bytes.length)).respBufLen = n + bytes.length := rfl
  rw [readRound_data]
  rcases recvData_cases cfg fd bytes isAgin header s with
    ⟨hclosed, _⟩ | ⟨_, hfull, _⟩ | ⟨_, _, hstuck, _⟩ | ⟨code', pos'', items', _, _, hsome, heq⟩
  · rw [hchunk] at hclosed
    exact absurd hclosed hne
  · rw [hchunk, hthread, hlength] at hfull
    omega
  · rw [hchunk, hthread, hlength, hspos, hparse] at hstuck
    exact absurd hstuck (by simp)
  · rw [hchunk, hthread, hlength, hspos, hparse] at hsome
    obtain ⟨rfl, hpair⟩ := Prod.mk.inj (Option.some.inj hsome)
    obtain ⟨rfl, rfl⟩ := Prod.mk.inj hpair
    rw [heq, hchunk, hthread, ← hs]

/-- The round of a piece of an answer, with the packets `before` already taken. -/
theorem readRound_piece {cfg : BackendConfig} (fd : Nat) (t : Thread) (base : ByteMem)
    {before rest : List (Packet magicRes)} {n : Nat}
    (hn : n ≤ (Packet.concat (before ++ rest)).length)
    (hroom : (Packet.concat (before ++ rest)).length < cfg.respBufSize)
    {bytes more : List UInt8} (hne : bytes ≠ [])
    (hbytes : bytes ++ more = (Packet.concat (before ++ rest)).drop n) (isAgin : Bool)
    (header : MemcachedHeader) (respList : List Resp) :
    readRound cfg fd (.data bytes isAgin header)
        ⟨(Packet.concat before).length, t.holding base (Packet.concat (before ++ rest)) n,
          respList⟩ =
      ⟨[.select fd, .recv fd bytes,
          .parsed (takenCode (Packet.concat before).length (n + bytes.length) isAgin rest)
            (respItemsAt (Packet.concat before).length
              (taken (Packet.concat before).length (n + bytes.length) rest))],
        some (afterParse (t.holding base (Packet.concat (before ++ rest)) (n + bytes.length))
          (takenCode (Packet.concat before).length (n + bytes.length) isAgin rest,
            (((Packet.concat before).length + (Packet.concat
              (taken (Packet.concat before).length (n + bytes.length) rest)).length : Nat) : Int),
            respList ++ respItemsAt (Packet.concat before).length
              (taken (Packet.concat before).length (n + bytes.length) rest)))⟩ := by
  have hcfg := cfg.respBufSize_lt
  have hpos := List.length_pos_iff.mpr hne
  have hlen : n + bytes.length ≤ (Packet.concat (before ++ rest)).length := by
    have := congrArg List.length hbytes
    rw [List.length_append, List.length_drop] at this
    omega
  have hheld : Held (t.holding base (Packet.concat (before ++ rest)) (n + bytes.length)).respBuf 0
      (n + bytes.length) (Packet.concat (before ++ rest)) := held_write _ _ _
  exact readRound_holding fd t base hn (by omega) hne hbytes
    (parseResp_taken (by omega) hheld (by omega) hlen isAgin header) respList

/-- **A reading under way**: it has received `n` bytes of the answer and has taken
the packets `before`. -/
def readingAt (before rest : List (Packet magicRes)) (n : Nat) (t : Thread) (base : ByteMem)
    (respList : List Resp) : ReadState :=
  ⟨(Packet.concat before).length, t.holding base (Packet.concat (before ++ rest)) n, respList⟩

/-- The state in which `readFromBackend` enters its loop. -/
theorem readingAt_start (ps : List (Packet magicRes)) (t : Thread) (respList : List Resp) :
    (⟨0, { t with respBufLen := 0 }, respList⟩ : ReadState) =
      readingAt [] ps 0 t t.respBuf respList := by
  simp [readingAt, Thread.holding, ByteMem.write_nil]

/-- A piece on which the parser says "again" leads to the next round. -/
theorem readRound_again {cfg : BackendConfig} (fd : Nat) (t : Thread) (base : ByteMem)
    {before rest : List (Packet magicRes)} {n : Nat}
    (hn : n ≤ (Packet.concat (before ++ rest)).length)
    (hroom : (Packet.concat (before ++ rest)).length < cfg.respBufSize)
    {bytes more : List UInt8} (hne : bytes ≠ [])
    (hbytes : bytes ++ more = (Packet.concat (before ++ rest)).drop n) (isAgin : Bool)
    (header : MemcachedHeader) (respList : List Resp)
    (hcode : takenCode (Packet.concat before).length (n + bytes.length) isAgin rest = .again)
    {here later : List (Packet magicRes)}
    (hhere : taken (Packet.concat before).length (n + bytes.length) rest = here)
    (hsplit : rest = here ++ later) :
    readRound cfg fd (.data bytes isAgin header) (readingAt before rest n t base respList) =
      ⟨[.select fd, .recv fd bytes, .parsed .again (respItemsAt (Packet.concat before).length here)],
        some (.goOn, readingAt (before ++ here) later (n + bytes.length) t base
          (respList ++ respItemsAt (Packet.concat before).length here))⟩ := by
  rw [readingAt, readRound_piece fd t base hn hroom hne hbytes isAgin header respList, hcode, hhere,
    readingAt, List.append_assoc, ← hsplit, Packet.concat_append before here, List.length_append]
  rfl

/-- The next piece goes beyond the position of the parser, or to it when nothing is
left to take. -/
def NextReaches (before rest : List (Packet magicRes)) (n : Nat) : List (List UInt8) → Prop
  | [] => rest = []
  | c :: _ =>
      (Packet.concat before).length < n + c.length ∨
        ((Packet.concat before).length = n + c.length ∧ rest = [])

/-- **All pieces of the answer.** -/
theorem readLoop_answer {cfg : BackendConfig} (fd : Nat) {recvs : List RecvResult}
    {more : List UInt8} (hdel : Delivers recvs more) (t : Thread) (base : ByteMem)
    (before : List (Packet magicRes)) {rest : List (Packet magicRes)} {n : Nat}
    (respList : List Resp) (hquiet : QuietFirst rest)
    (hroom : (Packet.concat (before ++ rest)).length < cfg.respBufSize)
    (hn : n ≤ (Packet.concat (before ++ rest)).length)
    (hmore : more = (Packet.concat (before ++ rest)).drop n)
    (hreach : NextReaches before rest n (piecesOf recvs))
    (hcuts : CutsPassed (before ++ rest) n (piecesOf recvs)) :
    ∃ flow pos, flow ≠ .leaveAtOnce ∧
      (readLoop cfg fd recvs (readingAt before rest n t base respList)).result =
        some (flow, ⟨pos, t.holding base (Packet.concat (before ++ rest))
            (Packet.concat (before ++ rest)).length,
          respList ++ respItemsAt (Packet.concat before).length rest⟩) := by
  induction hdel generalizing before rest n respList with
  | @idle recvs hidle =>
      rw [piecesOf_idle hidle] at hreach
      obtain rfl : rest = [] := hreach
      have hend : n = (Packet.concat (before ++ [])).length :=
        le_antisymm hn (List.drop_eq_nil_iff.mp hmore.symm)
      obtain ⟨flow, hflow, hres⟩ := readLoop_idle cfg fd recvs (readingAt before [] n t base respList)
        hidle
      refine ⟨flow, (Packet.concat before).length, hflow, ?_⟩
      rw [hres, readingAt, hend]
      simp only [respItemsAt, List.append_nil]
  | wait hev hrest ih =>
      rw [piecesOf_wait hev] at hreach hcuts
      rw [readLoop_wait cfg fd hev]
      exact ih _ respList hquiet hroom hn hmore hreach hcuts
  | @piece bytes more isAgin header recvs hne hrest ih =>
      have hpieces : piecesOf (.data bytes isAgin header :: recvs) = bytes :: piecesOf recvs := rfl
      rw [hpieces] at hreach hcuts
      obtain ⟨hhere, hlater⟩ := hcuts
      have hwhole : (Packet.concat (before ++ rest)).length =
          (Packet.concat before).length + (Packet.concat rest).length := by simp
      have hlen := congrArg List.length hmore
      rw [List.length_append, List.length_drop] at hlen
      have hdrop : more = (Packet.concat (before ++ rest)).drop (n + bytes.length) := by
        rw [← List.drop_drop, ← hmore, List.drop_left]
      obtain ⟨later, hsplit⟩ := taken_append (Packet.concat before).length (n + bytes.length) rest
      -- what is known where the parser says "again": the next round has the rest
      have hgoes : takenCode (Packet.concat before).length (n + bytes.length) isAgin rest = .again →
          NextReaches (before ++ taken (Packet.concat before).length (n + bytes.length) rest) later
            (n + bytes.length) (piecesOf recvs) →
          ∃ flow pos, flow ≠ .leaveAtOnce ∧ (readLoop cfg fd (.data bytes isAgin header :: recvs)
              (readingAt before rest n t base respList)).result =
            some (flow, ⟨pos, t.holding base (Packet.concat (before ++ rest))
                (Packet.concat (before ++ rest)).length,
              respList ++ respItemsAt (Packet.concat before).length rest⟩) := by
        intro hcode hnext
        have hround := readRound_again fd t base hn hroom hne hmore isAgin header respList hcode
          rfl hsplit
        generalize taken (Packet.concat before).length (n + bytes.length) rest = here at *
        subst hsplit
        rw [← List.append_assoc] at hroom hlater hdrop hn hlen
        obtain ⟨flow, pos, hflow, hres⟩ := ih _ (respList ++ respItemsAt _ here) hquiet.right hroom
          (by omega) hdrop hnext hlater
        refine ⟨flow, pos, hflow, ?_⟩
        rw [readLoop_goOn (by rw [hround]), hres, respItemsAt_append, ← List.append_assoc,
          ← List.append_assoc, Packet.concat_append before here, List.length_append]
      cases hlast : piecesOf recvs with
      | nil =>
          -- the answer is complete, and all of it is taken
          obtain ⟨_, hflatten⟩ := hrest.pieces
          rw [hlast, List.flatten_nil] at hflatten
          rw [← hflatten, List.length_nil] at hlen
          have hend : n + bytes.length = (Packet.concat (before ++ rest)).length := by omega
          have hall : taken (Packet.concat before).length (n + bytes.length) rest = rest :=
            taken_of_le (by omega)
          rcases takenCode_cases (Packet.concat before).length (n + bytes.length) isAgin rest with
            hcode | hcode
          · refine hgoes hcode ?_
            rw [hlast]
            rw [hall] at hsplit
            exact List.append_cancel_left (hsplit.symm.trans (List.append_nil rest).symm)
          · have hround := readRound_piece fd t base hn hroom hne hmore isAgin header respList
            rw [hcode, hall] at hround
            refine ⟨.leave, 0, by decide, ?_⟩
            rw [readingAt, readLoop_leave (by rw [hround]) (afterParse_success_leaves _ _ _), hround,
              ← hend]
            rfl
      | cons c cs =>
          obtain ⟨hcne, hflatten⟩ := hrest.pieces
          rw [hlast] at hcne hflatten
          have hcpos := List.length_pos_iff.mpr (hcne c List.mem_cons_self)
          have hmorelen : c.length ≤ more.length := by
            rw [← hflatten, List.flatten_cons, List.length_append]
            omega
          have ho : (Packet.concat before).length < n + bytes.length := by
            rcases hreach with hlt | ⟨_, rfl⟩
            · exact hlt
            · rw [Packet.concat_nil, List.length_nil] at hwhole
              omega
          rw [hlast, List.headD_cons, earlyPassed_append (by omega), Nat.zero_add] at hhere
          obtain ⟨hcode, hpos⟩ := takenCode_of_passed hquiet ho (by omega) (by omega) hhere isAgin
          refine hgoes hcode ?_
          rw [hlast, NextReaches, Packet.concat_append, List.length_append]
          rcases hpos with hlt | ⟨hend, hall⟩
          · exact Or.inl hlt
          · rw [hall] at hsplit
            exact Or.inr ⟨hend,
              List.append_cancel_left (hsplit.symm.trans (List.append_nil rest).symm)⟩

/-- **The reading of a whole answer.**  The answer is at the start of
`resp_buf`, over whatever was there, and its items follow those of the hosts
before. -/
theorem readFromBackend_answer {cfg : BackendConfig} (fd : Nat) {recvs : List RecvResult}
    {ps : List (Packet magicRes)} (hdel : Delivers recvs (Packet.concat ps))
    (hquiet : QuietFirst ps) (hroom : (Packet.concat ps).length < cfg.respBufSize)
    (hcuts : CutsPassed ps 0 (piecesOf recvs)) (t : Thread) (respList : List Resp) :
    (readFromBackend cfg fd recvs t respList).result =
      some ({ t with respBuf := t.respBuf.write 0 (Packet.concat ps), respBufLen := 0 },
        respList ++ respItemsAt 0 ps) := by
  have hreach : NextReaches [] ps 0 (piecesOf recvs) := by
    obtain ⟨hpieces, hflatten⟩ := hdel.pieces
    cases hlast : piecesOf recvs with
    | nil =>
        rw [hlast, List.flatten_nil] at hflatten
        have hlen := length_le_concat ps
        rw [← hflatten, List.length_nil] at hlen
        exact List.length_eq_zero_iff.mp (by omega)
    | cons c cs =>
        rw [hlast] at hpieces
        have hpos := List.length_pos_iff.mpr (hpieces c List.mem_cons_self)
        exact Or.inl (by simpa using hpos)
  obtain ⟨flow, pos, hflow, hres⟩ := readLoop_answer fd hdel t t.respBuf [] (n := 0) respList
    hquiet hroom (Nat.zero_le _) rfl hreach hcuts
  rw [readFromBackend_eq, readingAt_start ps, hres, Option.map_some]
  have hholding : { t.holding t.respBuf (Packet.concat ([] ++ ps))
      (Packet.concat ([] ++ ps)).length with respBufLen := 0 } =
      { t with respBuf := t.respBuf.write 0 (Packet.concat ps), respBufLen := 0 } := by
    simp [Thread.holding]
  unfold readDone
  cases flow with
  | goOn => rw [← hholding]; rfl
  | leave => rw [← hholding]; rfl
  | leaveAtOnce => exact absurd rfl hflow

end KvProxy
