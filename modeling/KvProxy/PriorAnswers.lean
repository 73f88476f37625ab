import Mathlib.Data.Int.Interval
import KvProxy.FailAccounting
import KvProxy.ParserProgress

/-!
# The answers of the hosts before

`readFromBackend` appends to the response list of a batch, which has the
answers of the hosts before it.  On a parse error it clears the list, and with
it these answers; and where a call of the parser goes round for ever there is no
list at all.

* `ResponsesEnd`, `Misframed` — the bytes of a host let `parse_resp` return, and
  lead it to an error;
* `parseResp_isSome_iff`, `parseResp_error_iff` — nothing else does;
* `prior_answers_kept_iff` — the call returns the list with what was in it
  exactly when every call of the parser meets bytes of the first kind, and
  nothing was in the list or none meets bytes of the second.
-/

namespace KvProxy

open MachineInt

/-- The buffer starts with a magic byte, and following the lengths of its
responses from a position on leads to 24 bytes that do not start with that of a
response. -/
structure Misframed (m : ByteMem) (size pos : Int) : Prop where
  binary : isBinaryProtocol m = true
  place : ∃ header p header', RespWalk m size true pos header p header' ∧
    24 ≤ int32 (size - p) ∧ m p ≠ magicRes

/-- Following the lengths of the responses from a position on leads to a place at
which none is accepted. -/
def ResponsesEnd (m : ByteMem) (size pos : Int) : Prop :=
  ∃ header p header', RespWalk m size (isBinaryProtocol m) pos header p header' ∧
    ∀ hd, ¬ RespAccepted m size (isBinaryProtocol m) header' p hd

/-- What is asked of the received bytes, and the position, in a round that comes to
the parser. -/
def RoundParsed (cfg : BackendConfig) (P : ByteMem → Int → Int → Prop) (s : ReadState) :
    RecvResult → Prop
  | .data bytes _ _ =>
      chunkOf cfg s bytes ≠ [] →
      (s.thread.receive (chunkOf cfg s bytes)).respBufLen < cfg.respBufSize →
        P (s.thread.receive (chunkOf cfg s bytes)).respBuf
          (s.thread.receive (chunkOf cfg s bytes)).respBufLen s.pos
  | _ => True

/-- The same of every round of a reading. -/
def ReadingParsed (cfg : BackendConfig) (fd : Nat) (P : ByteMem → Int → Int → Prop) :
    List RecvResult → ReadState → Prop
  | [], _ => True
  | ev :: rest, s =>
      RoundParsed cfg P s ev ∧
        ∀ s', (readRound cfg fd ev s).result = some (.goOn, s') → ReadingParsed cfg fd P rest s'

/-- Every call of the parser finds an end. -/
def ReadingEnds (cfg : BackendConfig) (fd : Nat) : List RecvResult → ReadState → Prop :=
  ReadingParsed cfg fd ResponsesEnd

/-- No call of the parser is led to an error. -/
def ReadingFramed (cfg : BackendConfig) (fd : Nat) : List RecvResult → ReadState → Prop :=
  ReadingParsed cfg fd (fun m size pos => ¬ Misframed m size pos)

/-! ## When the parser fails -/

/-- Reading a response fails on a wrong magic byte only. -/
theorem readResponse_fails_iff (m : ByteMem) (size : Int) (isBinary : Bool)
    (header : MemcachedHeader) (p : Int) :
    (readResponse m size isBinary header p).1 = -1 ↔
      isBinary = true ∧ 24 ≤ int32 (size - p) ∧ m p ≠ magicRes := by
  have hfirst : m.shift p 0 = m p := by
    rw [ByteMem.shift, Int.add_zero]
  cases isBinary with
  | false =>
      simp only [readResponse, Bool.false_eq_true, if_false, tryReadResponseText, false_and,
        iff_false]
      split_ifs <;> simp
  | true =>
      simp only [readResponse, if_true, tryReadResponseBinary, tryReadBinary, hfirst, true_and]
      split_ifs with hsize hmagic
      · refine ⟨fun h => absurd h (by simp), fun h => ?_⟩
        omega
      · exact ⟨fun _ => ⟨by omega, hmagic⟩, fun _ => rfl⟩
      · exact ⟨fun h => absurd h (by simp), fun h => absurd h.2 hmagic⟩

/-- A pass fails when reading does. -/
theorem parseRespBody_error_iff (m : ByteMem) (size : Int) (isBinary : Bool) (s : RespLoop) :
    (parseRespBody m size isBinary s).1 = some .error ↔
      isBinary = true ∧ 24 ≤ int32 (size - s.position) ∧ m s.position ≠ magicRes := by
  rw [← readResponse_fails_iff m size isBinary s.header s.position]
  unfold parseRespBody
  by_cases hrem : int32 (size - s.position) > 0
  · rw [if_pos hrem]
    dsimp only
    by_cases hcode : (readResponse m size isBinary s.header s.position).1 = -1
    · rw [if_pos hcode]
      simp [hcode]
    · rw [if_neg hcode]
      split_ifs <;> simp [hcode]
  · have hcode : (readResponse m size isBinary s.header s.position).1 ≠ -1 := by
      intro hcode
      have hsize := ((readResponse_fails_iff m size isBinary s.header s.position).mp hcode).2.1
      omega
    rw [if_neg hrem]
    cases s.isAgin <;> simp [hcode]

/-! ## What decides a pass -/

section Position

variable {m : ByteMem} {size : Int} {isBinary : Bool}

/-- Whether a response is read, and its length, is a matter of the bytes: the
variable `header` hands on fields only that no length is made of. -/
theorem readResponse_header_irrel {header hd : MemcachedHeader} {p : Int}
    (h : readResponse m size isBinary header p = (1, hd)) (header' : MemcachedHeader) :
    ∃ hd', readResponse m size isBinary header' p = (1, hd') ∧
      packetLen isBinary hd' = packetLen isBinary hd := by
  cases isBinary with
  | true =>
      obtain ⟨hsize, hmagic, _⟩ := tryReadBinary_eq_one h
      have hread : readResponse m size true header' p = _ :=
        tryReadBinary_of_magic header' hsize hmagic
      have hread₀ : readResponse m size true header p = _ :=
        tryReadBinary_of_magic header hsize hmagic
      exact ⟨_, hread, by rw [(Prod.mk.inj (h.symm.trans hread₀)).2]⟩
  | false =>
      simp only [readResponse, Bool.false_eq_true, if_false, tryReadResponseText] at h ⊢
      by_cases hother : int32 (size - p) < 5 ∨
          startsWith (m.shift p) (asciiBytes "VALUE") = false
      · rw [if_pos hother] at h ⊢
        obtain ⟨_, rfl⟩ := Prod.mk.inj h
        exact ⟨_, rfl, rfl⟩
      · rw [if_neg hother] at h ⊢
        split_ifs at h ⊢ with hlen
        · exact absurd (Prod.mk.inj h).1 (by decide)
        · obtain ⟨_, rfl⟩ := Prod.mk.inj h
          exact ⟨_, rfl, rfl⟩

/-- So is whether it is accepted. -/
theorem RespAccepted.header_irrel {header hd : MemcachedHeader} {p : Int}
    (h : RespAccepted m size isBinary header p hd) (header' : MemcachedHeader) :
    ∃ hd', RespAccepted m size isBinary header' p hd' ∧
      packetLen isBinary hd' = packetLen isBinary hd := by
  obtain ⟨hd', hread, hlen⟩ := readResponse_header_irrel h.read header'
  exact ⟨hd', ⟨h.remaining, hread, hlen ▸ h.fits⟩, hlen⟩

/-- And the walk. -/
theorem RespWalk.header_irrel {p₀ p : Int} {header₀ header : MemcachedHeader}
    (h : RespWalk m size isBinary p₀ header₀ p header) (header₀' : MemcachedHeader) :
    ∃ header', RespWalk m size isBinary p₀ header₀' p header' := by
  induction h with
  | start => exact ⟨header₀', .start⟩
  | next before hacc ih =>
      obtain ⟨header', hwalk⟩ := ih
      obtain ⟨hd', hacc', hlen⟩ := hacc.header_irrel header'
      exact ⟨hd', hlen ▸ .next hwalk hacc'⟩

/-- What a pass does is decided by the position. -/
theorem parseRespBody_position {a b : RespLoop} (hpos : a.position = b.position)
    (hround : (parseRespBody m size isBinary a).1 = none) :
    (parseRespBody m size isBinary b).1 = none ∧
      (parseRespBody m size isBinary a).2.position =
        (parseRespBody m size isBinary b).2.position := by
  obtain ⟨hd, hacc, hnext⟩ := parseRespBody_accepted hround
  rw [hpos] at hacc
  obtain ⟨hd', hacc', hlen⟩ := hacc.header_irrel b.header
  rw [hnext, parseRespBody_of_accepted hacc', hpos, hlen]
  exact ⟨rfl, rfl⟩

/-- The positions at which passes are made. -/
theorem RespWalk.position_range {p₀ p : Int} {header₀ header : MemcachedHeader}
    (h : RespWalk m size isBinary p₀ header₀ p header) :
    p = p₀ ∨ (-2147483648 ≤ p ∧ p < 2147483648) := by
  cases h with
  | start => exact Or.inl rfl
  | next before hacc => exact Or.inr ⟨int32_lower _, int32_upper _⟩

/-- A run that comes to a pass that leaves ends there, within `loopFuel`. -/
theorem run_of_walk {s t u : RespLoop} {code : ExtRet}
    (h : Loop.Reaches (parseRespBody m size isBinary) s t)
    (hleave : parseRespBody m size isBinary t = (some code, u)) :
    Loop.run (parseRespBody m size isBinary) loopFuel s = some (code, u) := by
  refine Loop.run_of_reaches RespLoop.position
    (insert s.position (Finset.Ico (-2147483648 : Int) 2147483648))
    (fun a b hpos hround => parseRespBody_position hpos hround) ?_ ?_ h hleave
  · intro x hx
    rw [Finset.mem_insert, Finset.mem_Ico]
    exact (reaches_respWalk hx).position_range
  · have hcard := Finset.card_insert_le s.position (Finset.Ico (-2147483648 : Int) 2147483648)
    rw [Int.card_Ico] at hcard
    unfold loopFuel
    omega

end Position

/-- **When `parse_resp` returns.** -/
theorem parseResp_isSome_iff (isAgin : Bool) (header : MemcachedHeader) (m : ByteMem)
    (size pos : Int) (respData : List Resp) :
    (parseResp isAgin header m size pos respData).isSome ↔ ResponsesEnd m size pos := by
  unfold parseResp
  rw [Option.isSome_map]
  constructor
  · intro h
    obtain ⟨⟨code, u⟩, hrun⟩ := Option.isSome_iff_exists.mp h
    obtain ⟨t, hreach, hlast⟩ := Loop.exists_last_of_run hrun
    rcases parseRespBody_cases m size (isBinaryProtocol m) t with ⟨_, _, _, hno⟩ | ⟨hd, _, heq⟩
    · exact ⟨header, t.position, t.header, reaches_respWalk hreach, hno⟩
    · simp [hlast] at heq
  · rintro ⟨header₀, p, header', hwalk, hno⟩
    obtain ⟨header'', hwalk'⟩ := hwalk.header_irrel header
    obtain ⟨t, hreach, rfl, rfl⟩ :=
      RespWalk.reached (s := ⟨pos, respData, isAgin, header⟩) hwalk'
    rcases parseRespBody_cases m size (isBinaryProtocol m) t with ⟨⟨code, hcode⟩, _⟩ | ⟨hd, hacc, _⟩
    · rw [run_of_walk hreach (Prod.ext hcode rfl)]
      rfl
    · obtain ⟨hd', hacc', _⟩ := hacc.header_irrel header'
      exact absurd hacc' (hno hd')

/-- **When `parse_resp` fails.** -/
theorem parseResp_error_iff (isAgin : Bool) (header : MemcachedHeader) (m : ByteMem)
    (size pos : Int) :
    (∃ pos' items, parseResp isAgin header m size pos [] = some (.error, pos', items)) ↔
      Misframed m size pos := by
  unfold parseResp
  constructor
  · intro h
    obtain ⟨pos', items, hparse⟩ := h
    obtain ⟨⟨code, u⟩, hrun, heq⟩ := Option.map_eq_some_iff.mp hparse
    obtain rfl : code = .error := congrArg Prod.fst heq
    obtain ⟨t, hreach, hlast⟩ := Loop.exists_last_of_run hrun
    have herror : (parseRespBody m size (isBinaryProtocol m) t).1 = some .error := by rw [hlast]
    obtain ⟨hbin, hsize, hmagic⟩ := (parseRespBody_error_iff _ _ _ _).mp herror
    rw [hbin] at hreach
    exact ⟨hbin, header, t.position, t.header, reaches_respWalk hreach, hsize, hmagic⟩
  · intro h
    obtain ⟨header₀, p, header', hwalk, hsize, hmagic⟩ := h.place
    obtain ⟨header'', hwalk'⟩ := hwalk.header_irrel header
    obtain ⟨t, hreach, rfl, _⟩ :=
      RespWalk.reached (s := ⟨pos, [], isAgin, header⟩) hwalk'
    have herror := (parseRespBody_error_iff m size true t).mpr ⟨rfl, hsize, hmagic⟩
    have hrun := run_of_walk hreach (Prod.ext herror rfl)
    rw [h.binary, hrun]
    exact ⟨_, _, rfl⟩

/-! ## The rounds of a reading -/

theorem parseError_cons_select (fd : Nat) (effects : List Effect) :
    parseError (.select fd :: effects) = parseError effects := rfl

/-- A round without a parse has nothing to ask. -/
theorem RoundParsed.of_other {cfg : BackendConfig} (P : ByteMem → Int → Int → Prop)
    {ev : RecvResult} (hev : ∀ bytes isAgin header, ev ≠ .data bytes isAgin header)
    (s : ReadState) : RoundParsed cfg P s ev := by
  cases ev with
  | data bytes isAgin header => exact absurd rfl (hev bytes isAgin header)
  | _ => trivial

/-- One round returns when the parser does. -/
theorem readRound_isSome_iff (cfg : BackendConfig) (fd : Nat) (ev : RecvResult) (s : ReadState) :
    (readRound cfg fd ev s).result.isSome ↔ RoundParsed cfg ResponsesEnd s ev := by
  rcases readRound_cases cfg fd ev s with
    ⟨flow, _, hev, hround⟩ | ⟨bytes, isAgin, header, rfl, hround⟩
  · rw [hround]
    exact ⟨fun _ => .of_other _ hev s, fun _ => rfl⟩
  · rw [hround]
    have hends := parseResp_isSome_iff isAgin header
      (s.thread.receive (chunkOf cfg s bytes)).respBuf
      (s.thread.receive (chunkOf cfg s bytes)).respBufLen s.pos []
    rcases recvData_cases cfg fd bytes isAgin header s with
      ⟨hclosed, heq⟩ | ⟨_, hfull, heq⟩ | ⟨hne, hroom, hnone, heq⟩ | ⟨code, pos, items, _, _, hparse, heq⟩
    · rw [heq]
      exact ⟨fun _ hne => absurd hclosed hne, fun _ => rfl⟩
    · rw [heq]
      exact ⟨fun _ _ hroom => absurd hfull (by omega), fun _ => rfl⟩
    · rw [heq]
      refine ⟨fun h => absurd h (by simp), fun h => ?_⟩
      have hsome := hends.mpr (h hne hroom)
      rw [hnone] at hsome
      exact absurd hsome (by simp)
    · rw [heq]
      exact ⟨fun _ _ _ => hends.mp (by rw [hparse]; rfl), fun _ => rfl⟩

/-- One round: a parse error is what wrong framing leads to, and it returns. -/
theorem readRound_parseError (cfg : BackendConfig) (fd : Nat) (ev : RecvResult) (s : ReadState) :
    (parseError (readRound cfg fd ev s).effects = false ↔
        RoundParsed cfg (fun m size pos => ¬ Misframed m size pos) s ev) ∧
      (parseError (readRound cfg fd ev s).effects = true →
        (readRound cfg fd ev s).result.isSome) := by
  rcases readRound_cases cfg fd ev s with
    ⟨flow, _, hev, hround⟩ | ⟨bytes, isAgin, header, rfl, hround⟩
  · rw [hround]
    exact ⟨⟨fun _ => .of_other _ hev s, fun _ => rfl⟩, fun _ => rfl⟩
  · rw [hround, parseError_cons_select]
    have herror := parseResp_error_iff isAgin header
      (s.thread.receive (chunkOf cfg s bytes)).respBuf
      (s.thread.receive (chunkOf cfg s bytes)).respBufLen s.pos
    rcases recvData_cases cfg fd bytes isAgin header s with
      ⟨hclosed, heq⟩ | ⟨_, hfull, heq⟩ | ⟨_, _, hnone, heq⟩ | ⟨code, pos, items, hne, hroom, hparse, heq⟩
    · rw [heq]
      exact ⟨⟨fun _ hne => absurd hclosed hne, fun _ => rfl⟩, fun _ => rfl⟩
    · rw [heq]
      exact ⟨⟨fun _ _ hroom => absurd hfull (by omega), fun _ => rfl⟩, fun _ => rfl⟩
    · -- a parser that does not return has not failed
      rw [heq]
      refine ⟨⟨fun _ _ _ hmis => ?_, fun _ => rfl⟩, fun h => ?_⟩
      swap
      · simp [parseError, Effect.isParseError] at h
      obtain ⟨pos, items, hparse⟩ := herror.mpr hmis
      rw [hnone] at hparse
      cases hparse
    · rw [heq]
      refine ⟨?_, fun _ => rfl⟩
      have hcode : Misframed (s.thread.receive (chunkOf cfg s bytes)).respBuf
          (s.thread.receive (chunkOf cfg s bytes)).respBufLen s.pos ↔ code = .error := by
        rw [← herror, hparse]
        simp
      have heffects : parseError [.recv fd (chunkOf cfg s bytes), .parsed code items] =
          decide (code = .error) := by
        simp [parseError, Effect.isParseError]
      rw [heffects, decide_eq_false_iff_not, ← hcode]
      exact ⟨fun h _ _ => h, fun h => h hne hroom⟩

/-- **All rounds.** -/
theorem readLoop_parseError (cfg : BackendConfig) (fd : Nat) (recvs : List RecvResult)
    (s : ReadState) :
    (parseError (readLoop cfg fd recvs s).effects = false ↔ ReadingFramed cfg fd recvs s) ∧
      (parseError (readLoop cfg fd recvs s).effects = true →
        (readLoop cfg fd recvs s).result.isSome) := by
  induction recvs generalizing s with
  | nil => exact ⟨⟨fun _ => trivial, fun _ => rfl⟩, fun _ => rfl⟩
  | cons ev rest ih =>
      obtain ⟨hround, hreturns⟩ := readRound_parseError cfg fd ev s
      rcases readLoop_cons cfg fd ev rest s with ⟨s', hgoes, heq⟩ | ⟨hleaves, heq⟩
      · obtain ⟨hrest, hrestReturns⟩ := ih s'
        have hok := (readRound_list hgoes).2 rfl
        rw [heq, parseError_append, hok, Bool.false_or, hrest]
        exact ⟨⟨fun h => ⟨hround.mp hok, (forall_goOn_iff hgoes _).mpr h⟩, fun h => h.2 s' hgoes⟩,
          hrestReturns⟩
      · rw [heq, hround]
        exact ⟨⟨fun h => ⟨h, fun s' hs' => absurd hs' (hleaves s')⟩, And.left⟩, hreturns⟩

/-- All rounds return when every call of the parser does. -/
theorem readLoop_isSome_iff (cfg : BackendConfig) (fd : Nat) (recvs : List RecvResult)
    (s : ReadState) :
    (readLoop cfg fd recvs s).result.isSome ↔ ReadingEnds cfg fd recvs s := by
  induction recvs generalizing s with
  | nil => exact ⟨fun _ => trivial, fun _ => rfl⟩
  | cons ev rest ih =>
      have hround := readRound_isSome_iff cfg fd ev s
      rcases readLoop_cons cfg fd ev rest s with ⟨s', hgoes, heq⟩ | ⟨hleaves, heq⟩
      · rw [heq, ih s']
        exact ⟨fun h => ⟨hround.mp (by rw [hgoes]; rfl), (forall_goOn_iff hgoes _).mpr h⟩,
          fun h => h.2 s' hgoes⟩
      · rw [heq, hround]
        exact ⟨fun h => ⟨h, fun s' hs' => absurd hs' (hleaves s')⟩, And.left⟩

/-- A reading returns when every call of the parser does. -/
theorem readFromBackend_isSome_iff (cfg : BackendConfig) (fd : Nat) (recvs : List RecvResult)
    (t : Thread) (respList : List Resp) :
    (readFromBackend cfg fd recvs t respList).result.isSome ↔
      ReadingEnds cfg fd recvs ⟨0, { t with respBufLen := 0 }, respList⟩ := by
  rw [readFromBackend_eq, Option.isSome_map]
  exact readLoop_isSome_iff cfg fd recvs _

/-- A reading that comes to a parse error leaves an empty list. -/
theorem readFromBackend_cleared {cfg : BackendConfig} {fd : Nat} {recvs : List RecvResult}
    {t : Thread} {respList : List Resp} {r : Thread × List Resp}
    (h : ¬ ReadingFramed cfg fd recvs ⟨0, { t with respBufLen := 0 }, respList⟩)
    (hr : (readFromBackend cfg fd recvs t respList).result = some r) : r.2 = [] := by
  have heffects : parseError (readFromBackend cfg fd recvs t respList).effects = true := by
    rw [readFromBackend_eq]
    rwa [← (readLoop_parseError cfg fd recvs _).1, Bool.not_eq_false] at h
  rw [readFromBackend_list hr, listAfter, if_pos heffects]

/-- One that does not appends. -/
theorem readFromBackend_kept {cfg : BackendConfig} {fd : Nat} {recvs : List RecvResult}
    {t : Thread} {respList : List Resp} {r : Thread × List Resp}
    (h : ReadingFramed cfg fd recvs ⟨0, { t with respBufLen := 0 }, respList⟩)
    (hr : (readFromBackend cfg fd recvs t respList).result = some r) : respList <+: r.2 := by
  have heffects : parseError (readFromBackend cfg fd recvs t respList).effects = false := by
    rw [readFromBackend_eq]
    exact (readLoop_parseError cfg fd recvs _).1.mpr h
  rw [readFromBackend_list hr, listAfter, heffects, if_neg (by simp)]
  exact List.prefix_append _ _

/-- **The answers of the hosts before.**  Whatever a host sends and however it
fails, the call returns with what was in the list at its front exactly when every
call of the parser finds an end, and the list was empty or no call is led to an
error. -/
theorem prior_answers_kept_iff (cfg : BackendConfig) (fd : Nat) (recvs : List RecvResult)
    (t : Thread) (respList : List Resp) :
    (∃ r, (readFromBackend cfg fd recvs t respList).result = some r ∧ respList <+: r.2) ↔
      ReadingEnds cfg fd recvs ⟨0, { t with respBufLen := 0 }, respList⟩ ∧
        (respList = [] ∨
          ReadingFramed cfg fd recvs ⟨0, { t with respBufLen := 0 }, respList⟩) := by
  rw [← readFromBackend_isSome_iff]
  constructor
  · rintro ⟨r, hr, hkept⟩
    refine ⟨by rw [hr]; rfl, ?_⟩
    by_contra hnot
    rw [not_or] at hnot
    obtain ⟨hne, hmis⟩ := hnot
    rw [readFromBackend_cleared hmis hr] at hkept
    exact hne (List.prefix_nil.mp hkept)
  · rintro ⟨hsome, hlist⟩
    obtain ⟨r, hr⟩ := Option.isSome_iff_exists.mp hsome
    refine ⟨r, hr, ?_⟩
    rcases hlist with rfl | hframed
    · exact List.nil_prefix
    · exact readFromBackend_kept hframed hr

/-- The answer to the quiet get of the first host, 30 bytes in its buffer. -/
def firstAnswer : Resp := ⟨0, 30, 0x0d⟩

/-- What the second host sends: 24 bytes with the magic byte of a request. -/
def echoedRequest : List UInt8 := packetHeader 0x80 0x0a 0 0 0

/-- **An answer lost.**  The second host fails, and the list comes back without
the answer of the first. -/
theorem first_answer_cleared :
    ¬ ∃ r, (readFromBackend .default 6 [.data echoedRequest false ⟨0, 0, 0, 0⟩]
      (.new (fun _ => 0)) [firstAnswer]).result = some r ∧ [firstAnswer] <+: r.2 := by
  rintro ⟨r, hr, hkept⟩
  have hres : ((readFromBackend .default 6 [.data echoedRequest false ⟨0, 0, 0, 0⟩]
      (.new (fun _ => 0)) [firstAnswer]).result.map Prod.snd) = some [] := by
    decide +kernel
  rw [hr, Option.map_some, Option.some_inj] at hres
  rw [hres] at hkept
  exact absurd (List.prefix_nil.mp hkept) (by simp)

end KvProxy
