import KvProxy.Backend

/-!
# What a reading of one host yields

`readFromBackend` appends to a response list that it shares with the hosts
before it.  The file separates the two: what is parsed from a host's bytes
does not depend on the list (`readFromBackend_erase`), and the list afterwards
is the old one with the parsed items behind it, or empty after a parse error
(`readFromBackend_list`).
-/

namespace KvProxy

/-! ## The parser does not look at its list -/

theorem parseRespBody_append (originResp : ByteMem) (size : Int) (isBinary : Bool)
    (before : List Resp) (s : RespLoop) :
    parseRespBody originResp size isBinary { s with respData := before ++ s.respData } =
      ((parseRespBody originResp size isBinary s).1,
        { (parseRespBody originResp size isBinary s).2 with
          respData := before ++ (parseRespBody originResp size isBinary s).2.respData }) := by
  simp only [parseRespBody]
  split_ifs
  · rfl
  · rfl
  · rfl
  · simp [List.append_assoc]
  · rfl
  · rfl

/-- `parse_resp` behind a list is `parse_resp` on its own, behind that list. -/
theorem parseResp_append (isAgin : Bool) (header : MemcachedHeader) (originResp : ByteMem)
    (size position : Int) (before : List Resp) :
    parseResp isAgin header originResp size position before =
      (parseResp isAgin header originResp size position []).map
        (fun r => (r.1, r.2.1, before ++ r.2.2)) := by
  have hcomm := Loop.run_comm
    (fun s : RespLoop => { s with respData := before ++ s.respData })
    (parseRespBody_append originResp size (isBinaryProtocol originResp) before) loopFuel
    ⟨position, [], isAgin, header⟩
  simp only [List.append_nil] at hcomm
  simp only [parseResp, hcomm, Option.map_map]
  rfl

/-! ## One recv -/

/-- The bytes a `recv` can put into what is left of the buffer. -/
def chunkOf (cfg : BackendConfig) (s : ReadState) (bytes : List UInt8) : List UInt8 :=
  bytes.take (cfg.respBufSize - s.thread.respBufLen)

/-- **Everything a `recv` with a count can lead to**: a closed connection, a
full buffer, a parser that never returns, or a parse. -/
theorem recvData_cases (cfg : BackendConfig) (fd : Nat) (bytes : List UInt8) (isAgin : Bool)
    (header : MemcachedHeader) (s : ReadState) :
    (chunkOf cfg s bytes = [] ∧
      recvData cfg fd bytes isAgin header s =
        ⟨[.recv fd [], .destroy fd],
          some (.goOn, { s with thread := { s.thread with respBufLen := 0 } })⟩) ∨
    (chunkOf cfg s bytes ≠ [] ∧
      cfg.respBufSize ≤ (s.thread.receive (chunkOf cfg s bytes)).respBufLen ∧
      recvData cfg fd bytes isAgin header s =
        ⟨[.recv fd (chunkOf cfg s bytes)],
          some (.leaveAtOnce, { s with thread := s.thread.receive (chunkOf cfg s bytes) })⟩) ∨
    (chunkOf cfg s bytes ≠ [] ∧
      (s.thread.receive (chunkOf cfg s bytes)).respBufLen < cfg.respBufSize ∧
      parseResp isAgin header (s.thread.receive (chunkOf cfg s bytes)).respBuf
        (s.thread.receive (chunkOf cfg s bytes)).respBufLen s.pos [] = none ∧
      recvData cfg fd bytes isAgin header s = ⟨[.recv fd (chunkOf cfg s bytes)], none⟩) ∨
    ∃ code pos items, chunkOf cfg s bytes ≠ [] ∧
      (s.thread.receive (chunkOf cfg s bytes)).respBufLen < cfg.respBufSize ∧
      parseResp isAgin header (s.thread.receive (chunkOf cfg s bytes)).respBuf
        (s.thread.receive (chunkOf cfg s bytes)).respBufLen s.pos [] =
          some (code, pos, items) ∧
      recvData cfg fd bytes isAgin header s =
        ⟨[.recv fd (chunkOf cfg s bytes), .parsed code items],
          some (afterParse (s.thread.receive (chunkOf cfg s bytes))
            (code, pos, s.respList ++ items))⟩ := by
  unfold recvData chunkOf
  by_cases hclosed : bytes.take (cfg.respBufSize - s.thread.respBufLen) = []
  · left
    simp [hclosed]
  · right
    by_cases hfull : cfg.respBufSize ≤
        (s.thread.receive (bytes.take (cfg.respBufSize - s.thread.respBufLen))).respBufLen
    · left
      exact ⟨hclosed, hfull, by simp [hclosed, hfull]⟩
    · right
      cases hparse : parseResp isAgin header
          (s.thread.receive (bytes.take (cfg.respBufSize - s.thread.respBufLen))).respBuf
          (s.thread.receive (bytes.take (cfg.respBufSize - s.thread.respBufLen))).respBufLen
          s.pos [] with
      | none =>
          left
          refine ⟨hclosed, by omega, rfl, ?_⟩
          have hnone := parseResp_append isAgin header
            (s.thread.receive (bytes.take (cfg.respBufSize - s.thread.respBufLen))).respBuf
            (s.thread.receive (bytes.take (cfg.respBufSize - s.thread.respBufLen))).respBufLen
            s.pos s.respList
          rw [hparse, Option.map_none] at hnone
          simp only [Act.emit_bind, hclosed, hfull, if_false, hnone]
          rw [Act.bind_of_none _ rfl]
          rfl
      | some parse =>
          right
          refine ⟨parse.1, parse.2.1, parse.2.2, hclosed, by omega, rfl, ?_⟩
          have hsome := parseResp_append isAgin header
            (s.thread.receive (bytes.take (cfg.respBufSize - s.thread.respBufLen))).respBuf
            (s.thread.receive (bytes.take (cfg.respBufSize - s.thread.respBufLen))).respBufLen
            s.pos s.respList
          rw [hparse, Option.map_some] at hsome
          simp only [Act.emit_bind, hclosed, hfull, if_false, hsome]
          rw [Act.bind_of_some _ rfl]
          simp

/-! ## The response list -/

/-- The items an effect reports as parsed. -/
def Effect.items : Effect → List Resp
  | .parsed _ items => items
  | _ => []

/-- The items parsed along a trace. -/
def parsedItems (effects : List Effect) : List Resp := effects.flatMap Effect.items

/-- Whether the effect reports a parse error. -/
def Effect.isParseError : Effect → Bool
  | .parsed code _ => code = .error
  | _ => false

/-- Whether a parse along a trace ended in an error. -/
def parseError (effects : List Effect) : Bool := effects.any Effect.isParseError

@[simp] theorem parsedItems_append (xs ys : List Effect) :
    parsedItems (xs ++ ys) = parsedItems xs ++ parsedItems ys := by
  simp [parsedItems]

@[simp] theorem parseError_append (xs ys : List Effect) :
    parseError (xs ++ ys) = (parseError xs || parseError ys) := by
  simp [parseError]

/-- The response list after parsing: the old one and the items, or nothing. -/
def listAfter (before : List Resp) (effects : List Effect) : List Resp :=
  if parseError effects then [] else before ++ parsedItems effects

theorem listAfter_append (before : List Resp) (xs ys : List Effect)
    (hx : parseError xs = false) :
    listAfter before (xs ++ ys) = listAfter (listAfter before xs) ys := by
  simp [listAfter, hx]

/-- A round that is not a `recv` with a count waits or leaves. -/
theorem readRound_other (cfg : BackendConfig) (fd : Nat) {ev : RecvResult}
    (hev : ∀ bytes isAgin header, ev ≠ .data bytes isAgin header) :
    ∃ flow, flow ≠ .leaveAtOnce ∧
      ∀ s : ReadState, readRound cfg fd ev s = ⟨[.select fd], some (flow, s)⟩ := by
  cases ev with
  | data bytes isAgin header => exact absurd rfl (hev bytes isAgin header)
  | selectIntr => exact ⟨.goOn, by decide, fun _ => rfl⟩
  | selectError => exact ⟨.leave, by decide, fun _ => rfl⟩
  | selectTimeout => exact ⟨.leave, by decide, fun _ => rfl⟩
  | notSet => exact ⟨.goOn, by decide, fun _ => rfl⟩
  | again => exact ⟨.leave, by decide, fun _ => rfl⟩
  | intr => exact ⟨.goOn, by decide, fun _ => rfl⟩
  | error => exact ⟨.leave, by decide, fun _ => rfl⟩

theorem readRound_data (cfg : BackendConfig) (fd : Nat) (bytes : List UInt8) (isAgin : Bool)
    (header : MemcachedHeader) (s : ReadState) :
    readRound cfg fd (.data bytes isAgin header) s =
      ⟨.select fd :: (recvData cfg fd bytes isAgin header s).effects,
        (recvData cfg fd bytes isAgin header s).result⟩ := rfl

/-- A round without data, or one that receives. -/
theorem readRound_cases (cfg : BackendConfig) (fd : Nat) (ev : RecvResult) (s : ReadState) :
    (∃ flow, flow ≠ .leaveAtOnce ∧ (∀ bytes isAgin header, ev ≠ .data bytes isAgin header) ∧
      readRound cfg fd ev s = ⟨[.select fd], some (flow, s)⟩) ∨
    ∃ bytes isAgin header, ev = .data bytes isAgin header ∧
      readRound cfg fd ev s =
        ⟨.select fd :: (recvData cfg fd bytes isAgin header s).effects,
          (recvData cfg fd bytes isAgin header s).result⟩ := by
  by_cases hev : ∀ bytes isAgin header, ev ≠ .data bytes isAgin header
  · obtain ⟨flow, hflow, hround⟩ := readRound_other cfg fd hev
    exact Or.inl ⟨flow, hflow, hev, hround s⟩
  · push Not at hev
    obtain ⟨bytes, isAgin, header, rfl⟩ := hev
    exact Or.inr ⟨bytes, isAgin, header, rfl, readRound_data cfg fd bytes isAgin header s⟩

/-- One round: the list afterwards, and an error ends the loop. -/
theorem readRound_list {cfg : BackendConfig} {fd : Nat} {ev : RecvResult} {s : ReadState}
    {r : Flow × ReadState} (h : (readRound cfg fd ev s).result = some r) :
    r.2.respList = listAfter s.respList (readRound cfg fd ev s).effects ∧
      (r.1 = .goOn → parseError (readRound cfg fd ev s).effects = false) := by
  rcases readRound_cases cfg fd ev s with
    ⟨flow, _, _, hround⟩ | ⟨bytes, isAgin, header, rfl, hround⟩
  · rw [hround] at h ⊢
    obtain rfl : (flow, s) = r := by simpa using h
    simp [listAfter, parseError, parsedItems, Effect.isParseError, Effect.items]
  · rw [hround] at h ⊢
    rcases recvData_cases cfg fd bytes isAgin header s with
      ⟨_, heq⟩ | ⟨_, _, heq⟩ | ⟨_, _, _, heq⟩ | ⟨code, pos, items, _, _, _, heq⟩
    · rw [heq] at h ⊢
      obtain rfl := Option.some.inj h
      simp [listAfter, parseError, parsedItems, Effect.isParseError, Effect.items]
    · rw [heq] at h ⊢
      obtain rfl := Option.some.inj h
      simp [listAfter, parseError, parsedItems, Effect.isParseError, Effect.items]
    · rw [heq] at h
      exact absurd h (by simp)
    · rw [heq] at h ⊢
      obtain rfl := Option.some.inj h
      cases code with
      | again => simp [afterParse, listAfter, parseError, parsedItems, Effect.isParseError, Effect.items]
      | success => simp [afterParse, listAfter, parseError, parsedItems, Effect.isParseError, Effect.items]
      | error => simp [afterParse, listAfter, parseError, Effect.isParseError]
      | ignore => simp [afterParse, listAfter, parseError, parsedItems, Effect.isParseError, Effect.items]

/-- A round that goes on is followed by the next one. -/
theorem readLoop_goOn {cfg : BackendConfig} {fd : Nat} {ev : RecvResult} {s s' : ReadState}
    (h : (readRound cfg fd ev s).result = some (.goOn, s')) (rest : List RecvResult) :
    readLoop cfg fd (ev :: rest) s =
      ⟨(readRound cfg fd ev s).effects ++ (readLoop cfg fd rest s').effects,
        (readLoop cfg fd rest s').result⟩ := by
  rw [readLoop, Act.bind_of_some _ h]

/-- A round that leaves is the last one. -/
theorem readLoop_leave {cfg : BackendConfig} {fd : Nat} {ev : RecvResult} {s s' : ReadState}
    {flow : Flow} (h : (readRound cfg fd ev s).result = some (flow, s')) (hflow : flow ≠ .goOn)
    (rest : List RecvResult) : readLoop cfg fd (ev :: rest) s = readRound cfg fd ev s := by
  rw [readLoop, Act.bind_of_some _ h]
  cases flow with
  | goOn => exact absurd rfl hflow
  | leave => simp [← h]
  | leaveAtOnce => simp [← h]

/-- A parser that is content ends the reading. -/
theorem afterParse_success_leaves (t : Thread) (pos : Int) (items : List Resp) :
    (afterParse t (.success, pos, items)).1 ≠ .goOn := by
  simp [afterParse]

/-- What is asked of the state behind a round that goes on. -/
theorem forall_goOn_iff {cfg : BackendConfig} {fd : Nat} {ev : RecvResult} {s s' : ReadState}
    (h : (readRound cfg fd ev s).result = some (.goOn, s')) (P : ReadState → Prop) :
    (∀ u, (readRound cfg fd ev s).result = some (.goOn, u) → P u) ↔ P s' := by
  simp [h]

/-- How the read loop goes on after a round. -/
theorem readLoop_cons (cfg : BackendConfig) (fd : Nat) (ev : RecvResult) (rest : List RecvResult)
    (s : ReadState) :
    (∃ s', (readRound cfg fd ev s).result = some (.goOn, s') ∧
      readLoop cfg fd (ev :: rest) s =
        ⟨(readRound cfg fd ev s).effects ++ (readLoop cfg fd rest s').effects,
          (readLoop cfg fd rest s').result⟩) ∨
    ((∀ s', (readRound cfg fd ev s).result ≠ some (.goOn, s')) ∧
      readLoop cfg fd (ev :: rest) s = readRound cfg fd ev s) := by
  cases hres : (readRound cfg fd ev s).result with
  | none =>
      rw [readLoop, Act.bind_of_none _ hres]
      exact Or.inr ⟨by simp, by rw [← hres]⟩
  | some round =>
      obtain ⟨flow, s'⟩ := round
      by_cases hflow : flow = .goOn
      · subst hflow
        exact Or.inl ⟨s', rfl, readLoop_goOn hres rest⟩
      · exact Or.inr ⟨by simp [hflow], readLoop_leave hres hflow rest⟩

theorem readLoop_list {cfg : BackendConfig} {fd : Nat} {recvs : List RecvResult} {s : ReadState}
    {r : Flow × ReadState} (h : (readLoop cfg fd recvs s).result = some r) :
    r.2.respList = listAfter s.respList (readLoop cfg fd recvs s).effects := by
  induction recvs generalizing s with
  | nil =>
      obtain rfl : (Flow.leave, s) = r := by simpa [readLoop] using h
      simp [readLoop, listAfter, parseError, parsedItems, Effect.isParseError, Effect.items]
  | cons ev rest ih =>
      rcases readLoop_cons cfg fd ev rest s with ⟨s', hround, heq⟩ | ⟨_, heq⟩
      · obtain ⟨hlist, hok⟩ := readRound_list hround
        rw [heq] at h ⊢
        rw [listAfter_append _ _ _ (hok rfl), ← hlist]
        exact ih h
      · rw [heq] at h ⊢
        exact (readRound_list h).1

/-- `readFromBackend` is its loop, with the length reset. -/
theorem readFromBackend_eq (cfg : BackendConfig) (fd : Nat) (recvs : List RecvResult)
    (t : Thread) (respList : List Resp) :
    readFromBackend cfg fd recvs t respList =
      ⟨(readLoop cfg fd recvs ⟨0, { t with respBufLen := 0 }, respList⟩).effects,
        (readLoop cfg fd recvs ⟨0, { t with respBufLen := 0 }, respList⟩).result.map readDone⟩ := by
  unfold readFromBackend
  cases hres : (readLoop cfg fd recvs ⟨0, { t with respBufLen := 0 }, respList⟩).result with
  | none => rw [Act.bind_of_none _ hres, Option.map_none]
  | some last =>
      rw [Act.bind_of_some _ hres, Option.map_some]
      simp

theorem readDone_respList (last : Flow × ReadState) : (readDone last).2 = last.2.respList := by
  unfold readDone
  cases last.1 <;> rfl

/-- **The list after a reading**: the old one with the parsed items behind it,
or, after a parse error, nothing at all. -/
theorem readFromBackend_list {cfg : BackendConfig} {fd : Nat} {recvs : List RecvResult}
    {t : Thread} {respList : List Resp} {r : Thread × List Resp}
    (h : (readFromBackend cfg fd recvs t respList).result = some r) :
    r.2 = listAfter respList (readFromBackend cfg fd recvs t respList).effects := by
  rw [readFromBackend_eq] at h ⊢
  obtain ⟨last, hlast, rfl⟩ := Option.map_eq_some_iff.mp h
  rw [readDone_respList]
  exact readLoop_list hlast

/-! ## Reading does not depend on the list -/

/-- A read state without its list. -/
def ReadState.erase (s : ReadState) : ReadState := { s with respList := [] }

theorem afterParse_erase (t : Thread) (code : ExtRet) (pos : Int) (xs ys : List Resp) :
    (afterParse t (code, pos, xs)).1 = (afterParse t (code, pos, ys)).1 ∧
      (afterParse t (code, pos, xs)).2.erase = (afterParse t (code, pos, ys)).2.erase := by
  unfold afterParse
  cases code <;> exact ⟨rfl, rfl⟩

/-- Two computations that differ in the response list of their result only. -/
def SameReading (x y : Act Effect (Flow × ReadState)) : Prop :=
  x.effects = y.effects ∧
    x.result.map (fun r => (r.1, r.2.erase)) = y.result.map (fun r => (r.1, r.2.erase))

theorem recvData_erase (cfg : BackendConfig) (fd : Nat) (bytes : List UInt8) (isAgin : Bool)
    (header : MemcachedHeader) {s s' : ReadState} (hs : s.erase = s'.erase) :
    SameReading (recvData cfg fd bytes isAgin header s)
      (recvData cfg fd bytes isAgin header s') := by
  obtain ⟨pos, t, xs⟩ := s
  obtain ⟨pos', t', ys⟩ := s'
  obtain ⟨rfl, rfl⟩ : pos = pos' ∧ t = t' := by simpa [ReadState.erase] using hs
  have hparse := fun before => parseResp_append isAgin header
    (t.receive (bytes.take (cfg.respBufSize - t.respBufLen))).respBuf
    (t.receive (bytes.take (cfg.respBufSize - t.respBufLen))).respBufLen pos before
  unfold SameReading recvData
  simp only [Act.emit_bind]
  split_ifs
  · exact ⟨rfl, rfl⟩
  · exact ⟨rfl, rfl⟩
  · rw [hparse xs, hparse ys]
    cases parseResp isAgin header
        (t.receive (bytes.take (cfg.respBufSize - t.respBufLen))).respBuf
        (t.receive (bytes.take (cfg.respBufSize - t.respBufLen))).respBufLen pos [] with
    | none => exact ⟨rfl, rfl⟩
    | some parse =>
        obtain ⟨hflow, hstate⟩ := afterParse_erase
          (t.receive (bytes.take (cfg.respBufSize - t.respBufLen))) parse.1 parse.2.1
          (xs ++ parse.2.2) (ys ++ parse.2.2)
        rw [Act.bind_of_some _ rfl, Act.bind_of_some _ rfl]
        simp [hflow, hstate]

theorem readRound_erase (cfg : BackendConfig) (fd : Nat) (ev : RecvResult) {s s' : ReadState}
    (hs : s.erase = s'.erase) :
    SameReading (readRound cfg fd ev s) (readRound cfg fd ev s') := by
  by_cases hev : ∀ bytes isAgin header, ev ≠ .data bytes isAgin header
  · obtain ⟨flow, _, hround⟩ := readRound_other cfg fd hev
    rw [hround, hround]
    exact ⟨rfl, by simp [hs]⟩
  · push Not at hev
    obtain ⟨bytes, isAgin, header, rfl⟩ := hev
    obtain ⟨heff, hres⟩ := recvData_erase cfg fd bytes isAgin header hs
    rw [readRound_data, readRound_data]
    exact ⟨by rw [heff], hres⟩

theorem readLoop_erase (cfg : BackendConfig) (fd : Nat) (recvs : List RecvResult)
    {s s' : ReadState} (hs : s.erase = s'.erase) :
    SameReading (readLoop cfg fd recvs s) (readLoop cfg fd recvs s') := by
  induction recvs generalizing s s' with
  | nil => exact ⟨rfl, by simp [readLoop, hs]⟩
  | cons ev rest ih =>
      obtain ⟨heff, hres⟩ := readRound_erase cfg fd ev hs
      rcases readLoop_cons cfg fd ev rest s with ⟨u, hu, hl⟩ | ⟨hu, hl⟩
      · rw [hu, Option.map_some] at hres
        obtain ⟨r, hr, hpair⟩ := Option.map_eq_some_iff.mp hres.symm
        obtain ⟨flow, u'⟩ := r
        obtain ⟨rfl, hback⟩ := Prod.mk.inj hpair
        obtain ⟨hloop, hend⟩ := ih hback.symm
        rw [hl, readLoop_goOn hr]
        exact ⟨by rw [heff, hloop], hend⟩
      · rcases readLoop_cons cfg fd ev rest s' with ⟨v, hv, _⟩ | ⟨_, hl'⟩
        · rw [hv, Option.map_some] at hres
          obtain ⟨r, hr, hpair⟩ := Option.map_eq_some_iff.mp hres
          obtain ⟨flow, u'⟩ := r
          obtain ⟨rfl, _⟩ := Prod.mk.inj hpair
          exact absurd hr (hu u')
        · rw [hl, hl']
          exact ⟨heff, hres⟩

/-- **What a reading does, and whether it returns, is a matter of the host's
own bytes**: it is the same whatever list it is given. -/
theorem readFromBackend_erase (cfg : BackendConfig) (fd : Nat) (recvs : List RecvResult)
    (t : Thread) (xs ys : List Resp) :
    (readFromBackend cfg fd recvs t xs).effects = (readFromBackend cfg fd recvs t ys).effects ∧
      ((readFromBackend cfg fd recvs t xs).result.isSome =
        (readFromBackend cfg fd recvs t ys).result.isSome) := by
  obtain ⟨heff, hres⟩ := readLoop_erase cfg fd recvs
    (show (ReadState.mk 0 { t with respBufLen := 0 } xs).erase =
      (ReadState.mk 0 { t with respBufLen := 0 } ys).erase from rfl)
  rw [readFromBackend_eq, readFromBackend_eq]
  refine ⟨heff, ?_⟩
  have hsome := congrArg Option.isSome hres
  simpa using hsome

end KvProxy
