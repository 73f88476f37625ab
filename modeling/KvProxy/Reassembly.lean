import KvProxy.MergedReply

/-!
# Every split of an answer

The calls of `parse_resp` on an answer that arrives in chunks should say
"again" until the last byte is there and then "success", with the packets of
the answer in the list.

A packet that starts at offset `o` is taken as soon as its header is there and
as many bytes as it is long have been received since the start of the buffer.
If that is too early, the position lies behind the received bytes.  The item is
still right, because it is a place in the buffer that the later bytes fill.
What goes wrong is the answer of the parser: on the last packet it is "success"
too early, and if the next chunk does not reach beyond the packet, the next
call makes no pass and returns on an uninitialised variable.

* `earlyPassed_of_taken` — the packet taken too early is the last one taken;
* `reassembles_iff` — the calls are right exactly when each such packet is
  passed by the next chunk.
-/

namespace KvProxy

/-- The code of a call of `parse_resp`. -/
def Effect.code : Effect → Option ExtRet
  | .parsed code _ => some code
  | _ => none

/-- What the calls of `parse_resp` along a trace returned. -/
def parseCodes (effects : List Effect) : List ExtRet := effects.filterMap Effect.code

@[simp] theorem parseCodes_append (xs ys : List Effect) :
    parseCodes (xs ++ ys) = parseCodes xs ++ parseCodes ys := by
  simp [parseCodes]

/-- One `recv` for each chunk, with anything in the uninitialised variables of the
parser. -/
def Chunked (recvs : List RecvResult) (chunks : List (List UInt8)) : Prop :=
  List.Forall₂ (fun ev bytes => ∃ isAgin header, ev = .data bytes isAgin header) recvs chunks

/-- "Again" for every chunk but the last, and "success" for that. -/
def expectedCodes (chunks : List (List UInt8)) : List ExtRet :=
  List.replicate (chunks.length - 1) .again ++ [.success]

/-- Whatever the uninitialised variables hold, the calls of `parse_resp` return
what they should, and the list has the packets of the answer behind what was in
it before. -/
def Reassembles (cfg : BackendConfig) (ps : List (Packet magicRes)) (chunks : List (List UInt8)) :
    Prop :=
  ∀ fd recvs t respList, Chunked recvs chunks →
    parseCodes (readFromBackend cfg fd recvs t respList).effects = expectedCodes chunks ∧
    ∃ t' items, (readFromBackend cfg fd recvs t respList).result = some (t', respList ++ items) ∧
      items.map (fun r => r.bytes t'.respBuf) = ps.map Packet.bytes

/-! ## One call -/

/-- **The last packet taken** is the only one that can be taken too early. -/
theorem earlyPassed_of_taken {o n next : Nat} {ps : List (Packet magicRes)}
    (h : o + (Packet.concat (taken o n ps)).length < next) : EarlyPassed o n next ps := by
  induction ps generalizing o with
  | nil => trivial
  | cons p ps ih =>
      rw [taken] at h
      by_cases htake : o + 24 ≤ n ∧ p.length ≤ n
      · rw [if_pos htake, Packet.length_concat_cons, ← Nat.add_assoc] at h
        exact ⟨fun _ _ _ => Or.inl (by omega), ih h⟩
      · have hle : 24 ≤ p.length := p.header_le
        refine ⟨fun hhead _ hfit => absurd ⟨hhead, hfit⟩ htake, ?_⟩
        by_cases hno : n ≤ o + p.length
        · exact earlyPassed_of_le next hno ps
        · omega

/-- The last packet is not a hit of a quiet get. -/
def Terminated (ps : List (Packet magicRes)) : Prop := ∃ p ∈ ps.getLast?, p.opcode ≠ cmdGetkq

instance (ps : List (Packet magicRes)) : Decidable (Terminated ps) :=
  match h : ps.getLast? with
  | none => isFalse (by simp [Terminated, h])
  | some p => decidable_of_iff (p.opcode ≠ cmdGetkq) (by simp [Terminated, h])

theorem Terminated.right {ps qs : List (Packet magicRes)} (h : Terminated (ps ++ qs))
    (hqs : qs ≠ []) : Terminated qs := by
  rwa [Terminated, List.getLast?_append_of_ne_nil _ hqs] at h

/-- A call that takes the last packet returns "success". -/
theorem takenCode_eq_success {o n : Nat} {ps : List (Packet magicRes)} (hlast : Terminated ps)
    (hall : taken o n ps = ps) (isAgin : Bool) : takenCode o n isAgin ps = .success := by
  induction ps generalizing o isAgin with
  | nil =>
      obtain ⟨p, hp, _⟩ := hlast
      simp at hp
  | cons p ps ih =>
      rw [taken] at hall
      split_ifs at hall with htake
      rw [List.cons.injEq] at hall
      rw [takenCode, if_neg (by omega), if_pos htake]
      cases ps with
      | nil =>
          obtain ⟨q, hq, hne⟩ := hlast
          obtain rfl : p = q := by simpa using hq
          simp [takenCode, hne]
      | cons q qs =>
          have hsplit : Terminated ([p] ++ q :: qs) := hlast
          exact ih (hsplit.right (by simp)) hall.2 _

/-! ## The calls on all chunks -/

theorem exists_chunked (chunks : List (List UInt8)) : ∃ recvs, Chunked recvs chunks := by
  induction chunks with
  | nil => exact ⟨[], .nil⟩
  | cons bytes chunks ih =>
      obtain ⟨recvs, hrecvs⟩ := ih
      exact ⟨.data bytes false ⟨0, 0, 0, 0⟩ :: recvs, .cons ⟨_, _, rfl⟩ hrecvs⟩

theorem expectedCodes_cons (bytes c : List UInt8) (chunks : List (List UInt8)) :
    expectedCodes (bytes :: c :: chunks) = .again :: expectedCodes (c :: chunks) := by
  simp [expectedCodes, List.replicate_succ]

section Chunks

variable {cfg : BackendConfig} {before rest : List (Packet magicRes)} {n : Nat}
  {bytes : List UInt8} {chunks : List (List UInt8)}

/-- A chunk on which the parser says "success" ends the reading. -/
theorem readLoop_success (fd : Nat) (t : Thread) (base : ByteMem) (respList : List Resp)
    (hn : n ≤ (Packet.concat (before ++ rest)).length)
    (hroom : (Packet.concat (before ++ rest)).length < cfg.respBufSize) (hne : bytes ≠ [])
    (hbytes : (bytes :: chunks).flatten = (Packet.concat (before ++ rest)).drop n)
    {isAgin : Bool} (header : MemcachedHeader) (recvs : List RecvResult)
    (hcode : takenCode (Packet.concat before).length (n + bytes.length) isAgin rest = .success) :
    parseCodes (readLoop cfg fd (.data bytes isAgin header :: recvs)
        (readingAt before rest n t base respList)).effects = [.success] ∧
      (readLoop cfg fd (.data bytes isAgin header :: recvs)
        (readingAt before rest n t base respList)).result =
        some (.leave, ⟨0, t.holding base (Packet.concat (before ++ rest)) (n + bytes.length),
          respList ++ respItemsAt (Packet.concat before).length
            (taken (Packet.concat before).length (n + bytes.length) rest)⟩) := by
  have hround := readRound_piece fd t base hn hroom hne hbytes isAgin header respList
  rw [hcode] at hround
  rw [readingAt, readLoop_leave (by rw [hround]) (afterParse_success_leaves _ _ _), hround]
  exact ⟨rfl, rfl⟩

/-- A chunk on which the parser says "again" is followed by the next one. -/
theorem readLoop_again (fd : Nat) (t : Thread) (base : ByteMem) (respList : List Resp)
    (hn : n ≤ (Packet.concat (before ++ rest)).length)
    (hroom : (Packet.concat (before ++ rest)).length < cfg.respBufSize) (hne : bytes ≠ [])
    (hbytes : (bytes :: chunks).flatten = (Packet.concat (before ++ rest)).drop n)
    {isAgin : Bool} (header : MemcachedHeader) (recvs : List RecvResult)
    (hcode : takenCode (Packet.concat before).length (n + bytes.length) isAgin rest = .again)
    {here later : List (Packet magicRes)}
    (hhere : taken (Packet.concat before).length (n + bytes.length) rest = here)
    (hsplit : rest = here ++ later) :
    parseCodes (readLoop cfg fd (.data bytes isAgin header :: recvs)
        (readingAt before rest n t base respList)).effects =
      .again :: parseCodes (readLoop cfg fd recvs (readingAt (before ++ here) later
        (n + bytes.length) t base
        (respList ++ respItemsAt (Packet.concat before).length here))).effects ∧
      (readLoop cfg fd (.data bytes isAgin header :: recvs)
        (readingAt before rest n t base respList)).result =
        (readLoop cfg fd recvs (readingAt (before ++ here) later (n + bytes.length) t base
          (respList ++ respItemsAt (Packet.concat before).length here))).result := by
  have hround := readRound_again fd t base hn hroom hne hbytes isAgin header respList hcode hhere
    hsplit
  rw [readLoop_goOn (by rw [hround]), hround]
  exact ⟨rfl, rfl⟩

/-- The chunks still to come bring the rest of an answer, of which the packets
`rest` have not been taken. -/
structure ChunksLeft (cfg : BackendConfig) (before rest : List (Packet magicRes)) (n : Nat)
    (chunks : List (List UInt8)) : Prop where
  quiet : QuietFirst rest
  last : Terminated rest
  room : (Packet.concat (before ++ rest)).length < cfg.respBufSize
  pieces : ∀ c ∈ chunks, c ≠ []
  some_left : chunks ≠ []
  flatten : chunks.flatten = (Packet.concat (before ++ rest)).drop n

namespace ChunksLeft

theorem rest_ne_nil (h : ChunksLeft cfg before rest n chunks) : rest ≠ [] := by
  intro hnil
  obtain ⟨p, hp, _⟩ := h.last
  simp [hnil] at hp

/-- After the next chunk the answer is complete, or further chunks come. -/
theorem total (h : ChunksLeft cfg before rest n (bytes :: chunks)) :
    n + bytes.length + chunks.flatten.length = (Packet.concat (before ++ rest)).length ∧
      0 < bytes.length := by
  have hpos := List.length_pos_iff.mpr (h.pieces bytes List.mem_cons_self)
  have hlen := congrArg List.length h.flatten
  rw [List.flatten_cons, List.length_append, List.length_drop] at hlen
  omega

theorem next {here later : List (Packet magicRes)} {c : List UInt8}
    (h : ChunksLeft cfg before rest n (bytes :: c :: chunks)) (hsplit : rest = here ++ later)
    (hlater : later ≠ []) :
    ChunksLeft cfg (before ++ here) later (n + bytes.length) (c :: chunks) := by
  have hwhole : before ++ here ++ later = before ++ rest := by rw [hsplit, List.append_assoc]
  refine ⟨?_, ?_, ?_, ?_, by simp, ?_⟩
  · have hquiet := h.quiet
    rw [hsplit] at hquiet
    exact hquiet.right
  · have hlast := h.last
    rw [hsplit] at hlast
    exact hlast.right hlater
  · rw [hwhole]
    exact h.room
  · exact fun c hc => h.pieces c (List.mem_cons_of_mem _ hc)
  · rw [hwhole, ← List.drop_drop, ← h.flatten, List.flatten_cons (l := bytes), List.drop_left]

theorem position_lt (h : ChunksLeft cfg before rest n chunks) :
    (Packet.concat before).length < (Packet.concat (before ++ rest)).length := by
  have hrest := List.length_pos_iff.mpr h.rest_ne_nil
  have hle := length_le_concat rest
  rw [Packet.concat_append, List.length_append]
  omega

/-- **Calls that return what they should** have no packet taken too early that the
next chunk does not pass. -/
theorem cutsPassed (h : ChunksLeft cfg before rest n chunks) (fd : Nat) (t : Thread)
    (base : ByteMem) (respList : List Resp)
    (hcodes : ∀ recvs, Chunked recvs chunks → parseCodes (readLoop cfg fd recvs
      (readingAt before rest n t base respList)).effects = expectedCodes chunks) :
    (Packet.concat before).length < n + (chunks.headD []).length ∧
      CutsPassed (before ++ rest) n chunks := by
  induction chunks generalizing before rest n respList with
  | nil => exact absurd rfl h.some_left
  | cons bytes chunks ih =>
      obtain ⟨htotal, hpos⟩ := h.total
      have hn : n ≤ (Packet.concat (before ++ rest)).length := by omega
      have hne := h.pieces bytes List.mem_cons_self
      cases chunks with
      | nil =>
          -- the answer is complete, and no packet is taken too early
          rw [List.flatten_nil, List.length_nil, Nat.add_zero] at htotal
          refine ⟨?_, ?_, trivial⟩
          · rw [List.headD_cons, htotal]
            exact h.position_lt
          · have hnone : EarlyPassed 0 (n + bytes.length) (n + bytes.length)
                ((before ++ rest) ++ []) := (earlyPassed_append (by omega)).mpr trivial
            rwa [List.append_nil] at hnone
      | cons c chunks =>
          obtain ⟨recvs, hrecvs⟩ := exists_chunked (c :: chunks)
          -- the reading does not end here, whatever the variables hold
          have hgoes : ∀ isAgin, takenCode (Packet.concat before).length (n + bytes.length) isAgin
              rest ≠ .success := by
            intro isAgin hcode
            have hend := (readLoop_success fd t base respList hn h.room hne h.flatten
              ⟨0, 0, 0, 0⟩ recvs hcode).1
            rw [hcodes _ (hrecvs.cons ⟨_, _, rfl⟩), expectedCodes_cons] at hend
            simp at hend
          have ho : (Packet.concat before).length < n + bytes.length := by
            by_contra hno
            refine hgoes false ?_
            cases hrest : rest with
            | nil => exact absurd hrest h.rest_ne_nil
            | cons p ps => rw [takenCode, if_pos (by omega)]; rfl
          obtain ⟨later, hsplit⟩ := taken_append (Packet.concat before).length
            (n + bytes.length) rest
          have hlater : later ≠ [] := by
            intro hnil
            rw [hnil, List.append_nil] at hsplit
            exact hgoes false (takenCode_eq_success h.last hsplit.symm false)
          have hagain : ∀ isAgin, takenCode (Packet.concat before).length (n + bytes.length)
              isAgin rest = .again :=
            fun isAgin => (takenCode_cases _ _ _ _).resolve_right (hgoes isAgin)
          obtain ⟨hpassed, hrest⟩ := ih (h.next hsplit hlater) _ (by
            intro recvs' hrecvs'
            have hhere := (readLoop_again fd t base respList hn h.room hne h.flatten
              ⟨0, 0, 0, 0⟩ recvs' (hagain false) rfl hsplit).1
            rw [hcodes _ (hrecvs'.cons ⟨_, _, rfl⟩), expectedCodes_cons] at hhere
            exact (List.cons.inj hhere).2.symm)
          rw [List.append_assoc, ← hsplit] at hrest
          refine ⟨ho, ?_, hrest⟩
          obtain ⟨_, hcpos⟩ := (h.next hsplit hlater).total
          rw [earlyPassed_append (by omega), Nat.zero_add, List.headD_cons]
          rw [Packet.concat_append, List.length_append] at hpassed
          exact earlyPassed_of_taken hpassed

/-- **Where every packet taken too early is passed** by the next chunk, the calls
return what they should and the list has the whole answer. -/
theorem readLoop_whole (h : ChunksLeft cfg before rest n chunks) (fd : Nat) (t : Thread)
    (base : ByteMem) (respList : List Resp)
    (ho : (Packet.concat before).length < n + (chunks.headD []).length)
    (hcuts : CutsPassed (before ++ rest) n chunks) {recvs : List RecvResult}
    (hrecvs : Chunked recvs chunks) :
    parseCodes (readLoop cfg fd recvs (readingAt before rest n t base respList)).effects =
        expectedCodes chunks ∧
      (readLoop cfg fd recvs (readingAt before rest n t base respList)).result =
        some (.leave, ⟨0, t.holding base (Packet.concat (before ++ rest))
            (Packet.concat (before ++ rest)).length,
          respList ++ respItemsAt (Packet.concat before).length rest⟩) := by
  induction chunks generalizing before rest n respList recvs with
  | nil => exact absurd rfl h.some_left
  | cons bytes chunks ih =>
      obtain ⟨htotal, hpos⟩ := h.total
      have hwhole : (Packet.concat (before ++ rest)).length =
          (Packet.concat before).length + (Packet.concat rest).length := by simp
      have hn : n ≤ (Packet.concat (before ++ rest)).length := by omega
      have hne := h.pieces bytes List.mem_cons_self
      obtain ⟨ev, recvs, ⟨isAgin, header, rfl⟩, hrest, rfl⟩ := List.forall₂_cons_right_iff.mp hrecvs
      rw [List.headD_cons] at ho
      cases chunks with
      | nil =>
          rw [List.flatten_nil, List.length_nil, Nat.add_zero] at htotal
          have hall : taken (Packet.concat before).length (n + bytes.length) rest = rest :=
            taken_of_le (by omega)
          have hend := readLoop_success fd t base respList hn h.room hne h.flatten header recvs
            (takenCode_eq_success h.last hall isAgin)
          rw [hall, htotal] at hend
          exact hend
      | cons c chunks =>
          obtain ⟨hhere, hlater⟩ := hcuts
          obtain ⟨later, hsplit⟩ := taken_append (Packet.concat before).length
            (n + bytes.length) rest
          rw [List.flatten_cons, List.length_append] at htotal
          have hcpos := List.length_pos_iff.mpr (h.pieces c (by simp))
          rw [earlyPassed_append (by omega), Nat.zero_add, List.headD_cons] at hhere
          obtain ⟨hagain, hpos⟩ := takenCode_of_passed h.quiet ho (by omega) (by omega) hhere isAgin
          -- the answer has an end, which has not been taken
          have hmore : taken (Packet.concat before).length (n + bytes.length) rest ≠ rest := by
            intro hall
            rw [takenCode_eq_success h.last hall isAgin] at hagain
            exact absurd hagain (by decide)
          have hlt := hpos.resolve_right (fun h => hmore h.2)
          have hne' : later ≠ [] := by
            intro hnil
            rw [hnil, List.append_nil] at hsplit
            exact hmore hsplit.symm
          obtain ⟨hcodes, hresult⟩ := readLoop_again fd t base respList hn h.room hne h.flatten
            header recvs hagain rfl hsplit
          have hrec := ih (h.next hsplit hne')
            (respList ++ respItemsAt (Packet.concat before).length
              (taken (Packet.concat before).length (n + bytes.length) rest))
            (by rwa [Packet.concat_append, List.length_append])
            (by rwa [List.append_assoc, ← hsplit]) hrest
          have hitems : respItemsAt (Packet.concat before).length rest =
              respItemsAt (Packet.concat before).length
                (taken (Packet.concat before).length (n + bytes.length) rest) ++
              respItemsAt (Packet.concat (before ++
                taken (Packet.concat before).length (n + bytes.length) rest)).length later := by
            conv_lhs => rw [hsplit]
            rw [respItemsAt_append, Packet.concat_append before, List.length_append]
          rw [hcodes, hresult, hrec.1, hrec.2, expectedCodes_cons, List.append_assoc before,
            ← hsplit, hitems, List.append_assoc]
          exact ⟨rfl, rfl⟩

end ChunksLeft

end Chunks

/-! ## The whole answer -/

/-- The items of an answer at the start of a buffer are its packets. -/
theorem respItemsAt_bytes {m : ByteMem} {o n : Nat} {ps : List (Packet magicRes)}
    (hheld : Held m o n (Packet.concat ps)) (hn : o + (Packet.concat ps).length ≤ n) :
    (respItemsAt o ps).map (fun r => r.bytes m) = ps.map Packet.bytes := by
  induction ps generalizing o with
  | nil => rfl
  | cons p ps ih =>
      rw [Packet.length_concat_cons] at hn
      have hhere : (respItem true o p.header).bytes m = p.bytes := by
        rw [respItem_bytes]
        exact hheld.left.slice (by simp only [Packet.length] at hn; omega)
      have hrest : Held m (o + p.length) n (Packet.concat ps) := hheld.right
      rw [respItemsAt, List.map_cons, List.map_cons, hhere, ih hrest (by omega)]

/-- **Reassembly.**  For every answer and every split of it into chunks, the calls
of `parse_resp` return what they should and find the packets of the answer
exactly when every packet that is taken too early is passed by the next chunk. -/
theorem reassembles_iff {cfg : BackendConfig} {ps : List (Packet magicRes)}
    {chunks : List (List UInt8)} (hquiet : QuietFirst ps) (hlast : Terminated ps)
    (hroom : (Packet.concat ps).length < cfg.respBufSize) (hpieces : ∀ c ∈ chunks, c ≠ [])
    (hflatten : chunks.flatten = Packet.concat ps) :
    Reassembles cfg ps chunks ↔ CutsPassed ps 0 chunks := by
  have hsome : chunks ≠ [] := by
    intro hnil
    obtain ⟨p, hp, _⟩ := hlast
    have hlen := length_le_concat ps
    rw [← hflatten, hnil, List.flatten_nil, List.length_nil] at hlen
    have hzero : ps = [] := List.length_eq_zero_iff.mp (by omega)
    simp [hzero] at hp
  have hleft : ChunksLeft cfg [] ps 0 chunks :=
    ⟨hquiet, hlast, hroom, hpieces, hsome, hflatten⟩
  constructor
  · intro h
    refine (hleft.cutsPassed 0 (Thread.new (fun _ => 0)) (fun _ => 0) [] ?_).2
    intro recvs hrecvs
    have hcodes := (h 0 recvs (Thread.new (fun _ => 0)) [] hrecvs).1
    rwa [readFromBackend_eq, readingAt_start ps] at hcodes
  · intro hcuts fd recvs t respList hrecvs
    have hhead : (Packet.concat ([] : List (Packet magicRes))).length <
        0 + (chunks.headD []).length := by
      cases chunks with
      | nil => exact absurd rfl hsome
      | cons c chunks =>
          have hpos := List.length_pos_iff.mpr (hpieces c List.mem_cons_self)
          simpa using hpos
    obtain ⟨hcodes, hresult⟩ := hleft.readLoop_whole fd t t.respBuf respList hhead hcuts hrecvs
    rw [readFromBackend_eq, readingAt_start ps]
    refine ⟨hcodes, ?_⟩
    rw [hresult]
    refine ⟨_, respItemsAt 0 ps, rfl, ?_⟩
    exact respItemsAt_bytes (held_write _ _ _) (by simp)

/-- An answer with two hits. -/
def twoHitsAnswer : List (Packet magicRes) := [hitPacket 97, hitPacket 98, noopPacket]

/-- The answer in three chunks that end at the given offsets and at its end. -/
def inThreeChunks (a b : Nat) : List (List UInt8) :=
  [(Packet.concat twoHitsAnswer).take a, ((Packet.concat twoHitsAnswer).drop a).take (b - a),
    (Packet.concat twoHitsAnswer).drop b]

/-- The first chunk ends in the second hit, of which all but four bytes are there;
the second chunk goes beyond it. -/
theorem reassembles_two_hits : Reassembles .default twoHitsAnswer (inThreeChunks 56 70) :=
  (reassembles_iff (by decide) (by decide) (by decide +kernel) (by decide +kernel)
    (by decide +kernel)).mpr (by decide +kernel)

/-- **The answer is taken for complete** when the second chunk ends in the second
hit as well: the second call makes no pass, and finds `false` in the
uninitialised variable. -/
theorem answer_cut_short :
    parseCodes (readFromBackend .default 5
      ((inThreeChunks 56 58).map (fun bytes => .data bytes false ⟨0, 0, 0, 0⟩))
      (Thread.new (fun _ => 0)) []).effects = [.again, .success] ∧
    ¬ Reassembles .default twoHitsAnswer (inThreeChunks 56 58) := by
  have hcodes : parseCodes (readFromBackend .default 5
      ((inThreeChunks 56 58).map (fun bytes => .data bytes false ⟨0, 0, 0, 0⟩))
      (Thread.new (fun _ => 0)) []).effects = [.again, .success] := by
    decide +kernel
  refine ⟨hcodes, ?_⟩
  intro h
  have hchunked : Chunked ((inThreeChunks 56 58).map
      (fun bytes => .data bytes false ⟨0, 0, 0, 0⟩)) (inThreeChunks 56 58) :=
    .cons ⟨_, _, rfl⟩ (.cons ⟨_, _, rfl⟩ (.cons ⟨_, _, rfl⟩ .nil))
  have hexpected := (h 5 _ (Thread.new (fun _ => 0)) [] hchunked).1
  rw [hcodes] at hexpected
  exact absurd hexpected (by decide)

end KvProxy
