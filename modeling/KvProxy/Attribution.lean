import KvProxy.Packet
import KvProxy.Reading

/-!
# Whose answer a response belongs to

A connection stays in the pool from one exchange to the next.  It is a FIFO:
what the backend answers to a request lies behind what it answered before and
what the proxy has not received yet.  `readFromBackend` receives from the
front of it and leaves on a timeout, an error, a full buffer or a parse that
reports success, in each case with the connection still in the pool and
whatever is on its way still to come.

* `readLoop_within`, `readFromBackend_respBuf` — the responses of a reading are
  ranges of the bytes it received, the first of them at the front;
* `Exchange`, `Pooled` — exchanges over a pooled connection, each byte on it
  carrying the number of the exchange it was produced for;
* `responses_attributed_iff` — in a run every response belongs to its exchange
  exactly when every exchange that parses a response finds the connection
  drained;
* `late_answer_taken_for_next` — a reply that comes after the timeout.
-/

namespace KvProxy

open MachineInt

/-! ## What a reading receives -/

/-- The bytes an effect receives. -/
def Effect.got : Effect → List UInt8
  | .recv _ bytes => bytes
  | _ => []

/-- The bytes received along a trace. -/
def received (effects : List Effect) : List UInt8 := effects.flatMap Effect.got

/-- Nothing is received behind the end of the stream. -/
def EndsAtClose : List Effect → Prop
  | [] => True
  | e :: rest =>
      match e with
      | .recv _ [] => received rest = []
      | _ => EndsAtClose rest

@[simp] theorem received_append (xs ys : List Effect) :
    received (xs ++ ys) = received xs ++ received ys := by
  simp [received]

@[simp] theorem received_nil : received [] = [] := rfl

@[simp] theorem received_cons (e : Effect) (xs : List Effect) :
    received (e :: xs) = e.got ++ received xs := rfl

theorem afterParse_thread (t : Thread) (parse : ExtRet × Int × List Resp) :
    (afterParse t parse).2.thread = t := by
  unfold afterParse
  cases parse.1 <;> rfl

/-- A round leaves the receive buffer with what it received behind the rest;
behind a close nothing is received. -/
theorem readRound_respBuf {cfg : BackendConfig} {fd : Nat} {ev : RecvResult} {s : ReadState}
    {r : Flow × ReadState} (h : (readRound cfg fd ev s).result = some r) :
    r.2.thread.respBuf =
        s.thread.respBuf.write s.thread.respBufLen (received (readRound cfg fd ev s).effects) ∧
      ((r.2.thread.respBufLen =
            s.thread.respBufLen + (received (readRound cfg fd ev s).effects).length ∧
          ∀ rest, EndsAtClose ((readRound cfg fd ev s).effects ++ rest) → EndsAtClose rest) ∨
        (received (readRound cfg fd ev s).effects = [] ∧
          ∀ rest, EndsAtClose ((readRound cfg fd ev s).effects ++ rest) → received rest = [])) := by
  rcases readRound_cases cfg fd ev s with
    ⟨flow, _, _, hround⟩ | ⟨bytes, isAgin, header, rfl, hround⟩
  · rw [hround] at h ⊢
    obtain rfl := Option.some.inj h
    refine ⟨by simp [Effect.got, ByteMem.write_nil], Or.inl ⟨by simp [Effect.got], ?_⟩⟩
    exact fun rest hrest => hrest
  · rw [hround] at h ⊢
    have hopen : ∀ (tail rest : List Effect), chunkOf cfg s bytes ≠ [] →
        EndsAtClose (.select fd :: .recv fd (chunkOf cfg s bytes) :: tail ++ rest) →
        EndsAtClose (tail ++ rest) := by
      intro tail rest hne hclose
      cases hchunk : chunkOf cfg s bytes with
      | nil => exact absurd hchunk hne
      | cons b bs =>
          rw [hchunk] at hclose
          exact hclose
    rcases recvData_cases cfg fd bytes isAgin header s with
      ⟨_, heq⟩ | ⟨hne, _, heq⟩ | ⟨_, _, _, heq⟩ | ⟨code, pos, items, hne, _, _, heq⟩
    · rw [heq] at h ⊢
      obtain rfl := Option.some.inj h
      refine ⟨by simp [Effect.got, ByteMem.write_nil], Or.inr ⟨rfl, ?_⟩⟩
      intro rest hrest
      have hnone : received (.destroy fd :: rest) = [] := hrest
      simpa [Effect.got] using hnone
    · rw [heq] at h ⊢
      obtain rfl := Option.some.inj h
      refine ⟨by simp [Effect.got, Thread.receive],
        Or.inl ⟨by simp [Effect.got, Thread.receive], ?_⟩⟩
      exact fun rest hrest => hopen [] rest hne hrest
    · rw [heq] at h
      exact absurd h (by simp)
    · rw [heq] at h ⊢
      obtain rfl := Option.some.inj h
      rw [afterParse_thread]
      refine ⟨by simp [Effect.got, Thread.receive],
        Or.inl ⟨by simp [Effect.got, Thread.receive], ?_⟩⟩
      exact fun rest hrest => hopen [.parsed code items] rest hne hrest

/-- A reading that receives nothing leaves the receive buffer as it is. -/
theorem readLoop_received_nil {cfg : BackendConfig} {fd : Nat} {recvs : List RecvResult}
    {s : ReadState} {r : Flow × ReadState} (hres : (readLoop cfg fd recvs s).result = some r)
    (hnone : received (readLoop cfg fd recvs s).effects = []) :
    r.2.thread.respBuf = s.thread.respBuf := by
  induction recvs generalizing s with
  | nil =>
      obtain rfl : (Flow.leave, s) = r := by simpa [readLoop] using hres
      rfl
  | cons ev rest ih =>
      rcases readLoop_cons cfg fd ev rest s with ⟨s', hround, heq⟩ | ⟨_, heq⟩
      · obtain ⟨hbuf, _⟩ := readRound_respBuf hround
        rw [heq] at hres hnone
        rw [received_append, List.append_eq_nil_iff] at hnone
        rw [hnone.1, ByteMem.write_nil] at hbuf
        exact (ih hres hnone.2).trans hbuf
      · rw [heq] at hres hnone
        obtain ⟨hbuf, _⟩ := readRound_respBuf hres
        rw [hbuf, hnone, ByteMem.write_nil]

/-- **The receive buffer of a reading**: what it has received, in order. -/
theorem readLoop_respBuf {cfg : BackendConfig} {fd : Nat} {recvs : List RecvResult}
    {s : ReadState} {r : Flow × ReadState} (hres : (readLoop cfg fd recvs s).result = some r)
    (hclose : EndsAtClose (readLoop cfg fd recvs s).effects) (base : ByteMem) (got : List UInt8)
    (hbuf : s.thread.respBuf = base.write 0 got) (hlen : s.thread.respBufLen = got.length) :
    r.2.thread.respBuf = base.write 0 (got ++ received (readLoop cfg fd recvs s).effects) := by
  induction recvs generalizing s got with
  | nil =>
      obtain rfl : (Flow.leave, s) = r := by simpa [readLoop] using hres
      simpa [readLoop, Effect.got] using hbuf
  | cons ev rest ih =>
      rcases readLoop_cons cfg fd ev rest s with ⟨s', hround, heq⟩ | ⟨_, heq⟩
      · obtain ⟨hnext, hopen | ⟨hnone, hafter⟩⟩ := readRound_respBuf hround
        · obtain ⟨hlen', hrest⟩ := hopen
          rw [heq] at hres hclose ⊢
          rw [hbuf, hlen, ByteMem.write_zero_append] at hnext
          rw [received_append, ← List.append_assoc]
          apply ih hres (hrest _ hclose) _ hnext
          rw [hlen', hlen, List.length_append]
        · rw [heq] at hres hclose ⊢
          have hlater := hafter _ hclose
          rw [received_append, hnone, hlater, List.nil_append, List.append_nil,
            readLoop_received_nil hres hlater, hnext, hnone, ByteMem.write_nil, hbuf]
      · rw [heq] at hres ⊢
        obtain ⟨hnext, _⟩ := readRound_respBuf hres
        rw [hnext, hbuf, hlen, ByteMem.write_zero_append]

/-- What a `recv` with a count receives. -/
theorem received_readRound_data (cfg : BackendConfig) (fd : Nat) (bytes : List UInt8)
    (isAgin : Bool) (header : MemcachedHeader) (s : ReadState) :
    received (readRound cfg fd (.data bytes isAgin header) s).effects = chunkOf cfg s bytes := by
  rw [readRound_data]
  rcases recvData_cases cfg fd bytes isAgin header s with
    ⟨hnil, heq⟩ | ⟨_, _, heq⟩ | ⟨_, _, _, heq⟩ | ⟨code, pos, items, _, _, _, heq⟩
  · simp [heq, hnil, Effect.got]
  · simp [heq, Effect.got]
  · simp [heq, Effect.got]
  · simp [heq, Effect.got]

/-- A round receives no more than the buffer has room for. -/
theorem length_received_readRound (cfg : BackendConfig) (fd : Nat) (ev : RecvResult)
    (s : ReadState) :
    (received (readRound cfg fd ev s).effects).length ≤ cfg.respBufSize - s.thread.respBufLen := by
  rcases readRound_cases cfg fd ev s with
    ⟨flow, _, _, hround⟩ | ⟨bytes, isAgin, header, rfl, _⟩
  · rw [hround]
    simp [Effect.got]
  · rw [received_readRound_data]
    exact List.length_take_le _ _

theorem length_received_readLoop {cfg : BackendConfig} {fd : Nat} {recvs : List RecvResult}
    {s : ReadState} (hclose : EndsAtClose (readLoop cfg fd recvs s).effects) :
    (received (readLoop cfg fd recvs s).effects).length ≤
      cfg.respBufSize - s.thread.respBufLen := by
  induction recvs generalizing s with
  | nil => simp [readLoop, Effect.got]
  | cons ev rest ih =>
      have hround := length_received_readRound cfg fd ev s
      rcases readLoop_cons cfg fd ev rest s with ⟨s', hgo, heq⟩ | ⟨_, heq⟩
      · rw [heq] at hclose ⊢
        rw [received_append, List.length_append]
        obtain ⟨_, ⟨hlen, hopen⟩ | ⟨_, hafter⟩⟩ := readRound_respBuf hgo
        · have hrest := ih (hopen _ hclose)
          dsimp only at hlen
          omega
        · rw [hafter _ hclose]
          simpa using hround
      · rw [heq]
        exact hround

/-- After a reading `resp_buf` starts with the bytes it received. -/
theorem readFromBackend_respBuf {cfg : BackendConfig} {fd : Nat} {recvs : List RecvResult}
    {t : Thread} {respList : List Resp} {r : Thread × List Resp}
    (hres : (readFromBackend cfg fd recvs t respList).result = some r)
    (hclose : EndsAtClose (readFromBackend cfg fd recvs t respList).effects) :
    r.1.respBuf =
      t.respBuf.write 0 (received (readFromBackend cfg fd recvs t respList).effects) := by
  rw [readFromBackend_eq] at hres hclose ⊢
  obtain ⟨last, hlast, rfl⟩ := Option.map_eq_some_iff.mp hres
  have hbuf := readLoop_respBuf hlast hclose t.respBuf [] (ByteMem.write_nil _ _).symm rfl
  have hdone : (readDone last).1.respBuf = last.2.thread.respBuf := by
    unfold readDone
    cases last.1 <;> rfl
  rw [hdone, hbuf, List.nil_append]

/-! ## Where the responses of a reading lie -/

/-- Every response `parse_resp` accepts, called at position `pos` on the first
`n` bytes, has a positive length and ends within `total` bytes. -/
def Enclosed (total : Nat) (originResp : ByteMem) (n pos : Int) (header : MemcachedHeader) : Prop :=
  ∀ p hdr hd, RespWalk originResp n (isBinaryProtocol originResp) pos header p hdr →
    RespAccepted originResp n (isBinaryProtocol originResp) hdr p hd →
    0 < packetLen (isBinaryProtocol originResp) hd ∧
      p + packetLen (isBinaryProtocol originResp) hd ≤ total

/-- Every call of `parse_resp` in a reading is `Enclosed`. -/
def RoundsEnclosed (cfg : BackendConfig) (fd total : Nat) : List RecvResult → ReadState → Prop
  | [], _ => True
  | ev :: rest, s =>
      (∀ bytes isAgin header, ev = .data bytes isAgin header →
        Enclosed total (s.thread.receive (chunkOf cfg s bytes)).respBuf
          (s.thread.receive (chunkOf cfg s bytes)).respBufLen s.pos header) ∧
      ∀ s', (readRound cfg fd ev s).result = some (.goOn, s') → RoundsEnclosed cfg fd total rest s'

/-- A response that is a non-empty range of the first `total` bytes. -/
structure Resp.Within (total : Nat) (r : Resp) : Prop where
  start : 0 ≤ r.content
  pos : 0 < r.contentLen
  stop : r.content + r.contentLen ≤ total

/-- What the loop of `parse_resp` keeps: it is on the walk, its items are
within the bytes, and the first of them is where it began. -/
structure WalkedWithin (total : Nat) (originResp : ByteMem) (n pos : Int)
    (header : MemcachedHeader) (s : RespLoop) : Prop where
  walk : RespWalk originResp n (isBinaryProtocol originResp) pos header s.position s.header
  nonneg : 0 ≤ s.position
  items : ∀ r ∈ s.respData, r.Within total
  first : ∀ r ∈ s.respData.head?, r.content = pos
  unmoved : s.respData = [] → s.position = pos

/-- A pass that goes round keeps it. -/
theorem WalkedWithin.pass {total : Nat} (htotal : total < 2147483648) {originResp : ByteMem}
    {n pos : Int} {header : MemcachedHeader} (henc : Enclosed total originResp n pos header)
    {s : RespLoop} (h : WalkedWithin total originResp n pos header s)
    (hround : (parseRespBody originResp n (isBinaryProtocol originResp) s).1 = none) :
    WalkedWithin total originResp n pos header
      (parseRespBody originResp n (isBinaryProtocol originResp) s).2 := by
  obtain ⟨hd, hacc, hnext⟩ := parseRespBody_accepted hround
  obtain ⟨hlen, hend⟩ := henc _ _ _ h.walk hacc
  have hnonneg := h.nonneg
  have hpos : int32 (s.position + packetLen (isBinaryProtocol originResp) hd) =
      s.position + packetLen (isBinaryProtocol originResp) hd :=
    int32_eq_self (by omega) (by omega)
  have hcast : (uint32 (packetLen (isBinaryProtocol originResp) hd) : Int) =
      packetLen (isBinaryProtocol originResp) hd :=
    uint32_eq_self (by omega) (by omega)
  have hitem : (respItem (isBinaryProtocol originResp) s.position hd).Within total := by
    refine ⟨hnonneg, ?_, ?_⟩
    · simp only [respItem]
      omega
    · simp only [respItem, hcast]
      exact hend
  rw [hnext]
  refine ⟨.next h.walk hacc, ?_, ?_, ?_, ?_⟩
  · simp only [hpos]
    omega
  · intro r hr
    rcases List.mem_append.mp hr with hr | hr
    · exact h.items r hr
    · obtain rfl := List.mem_singleton.mp hr
      exact hitem
  · intro r hr
    cases hdata : s.respData with
    | nil =>
        rw [hdata] at hr
        obtain rfl : respItem (isBinaryProtocol originResp) s.position hd = r := by simpa using hr
        exact h.unmoved hdata
    | cons q qs =>
        rw [hdata] at hr
        exact h.first r (by rw [hdata]; exact hr)
  · intro hnil
    exact absurd hnil (by simp)

/-- One call of `parse_resp`. -/
theorem parseResp_within {total : Nat} (htotal : total < 2147483648) {originResp : ByteMem}
    {n pos pos' : Int} {isAgin : Bool} {header : MemcachedHeader} {code : ExtRet}
    {items : List Resp} (henc : Enclosed total originResp n pos header) (hpos : 0 ≤ pos)
    (h : parseResp isAgin header originResp n pos [] = some (code, pos', items)) :
    (∀ r ∈ items, r.Within total) ∧ (∀ r ∈ items.head?, r.content = pos) ∧ 0 ≤ pos' ∧
      (items = [] → pos' = pos) := by
  obtain ⟨⟨code', u⟩, hrun, heq⟩ := Option.map_eq_some_iff.mp h
  obtain ⟨rfl, rfl, rfl⟩ : code' = code ∧ u.position = pos' ∧ u.respData = items := by
    simpa using heq
  refine Loop.run_invariant hrun (WalkedWithin total originResp n pos header)
    (fun _ u => (∀ r ∈ u.respData, r.Within total) ∧ (∀ r ∈ u.respData.head?, r.content = pos) ∧
      0 ≤ u.position ∧ (u.respData = [] → u.position = pos))
    ⟨.start, hpos, by simp, by simp, fun _ => rfl⟩ ?_ ?_
  · exact fun s hs hround => hs.pass htotal henc hround
  · intro t code u ht hleave
    obtain ⟨hsame, hdata⟩ := parseRespBody_leave hleave
    rw [hsame, hdata]
    exact ⟨ht.items, ht.first, ht.nonneg, ht.unmoved⟩

/-- One round. -/
theorem readRound_within {cfg : BackendConfig} (fd : Nat) {total : Nat} (htotal : total < 2147483648)
    {ev : RecvResult} {s : ReadState} (hpos : 0 ≤ s.pos)
    (henc : ∀ bytes isAgin header, ev = .data bytes isAgin header →
      Enclosed total (s.thread.receive (chunkOf cfg s bytes)).respBuf
        (s.thread.receive (chunkOf cfg s bytes)).respBufLen s.pos header) :
    (∀ r ∈ parsedItems (readRound cfg fd ev s).effects, r.Within total) ∧
      (∀ r ∈ (parsedItems (readRound cfg fd ev s).effects).head?, r.content = s.pos) ∧
      ∀ s', (readRound cfg fd ev s).result = some (.goOn, s') → 0 ≤ s'.pos ∧
        (parsedItems (readRound cfg fd ev s).effects = [] → s'.pos = s.pos) := by
  rcases readRound_cases cfg fd ev s with
    ⟨flow, _, _, hround⟩ | ⟨bytes, isAgin, header, rfl, hround⟩
  · rw [hround]
    refine ⟨by simp [parsedItems, Effect.items], by simp [parsedItems, Effect.items], ?_⟩
    intro s' hs'
    obtain ⟨_, rfl⟩ := Prod.mk.inj (Option.some.inj hs')
    exact ⟨hpos, fun _ => rfl⟩
  · rw [hround]
    rcases recvData_cases cfg fd bytes isAgin header s with
      ⟨_, heq⟩ | ⟨_, _, heq⟩ | ⟨_, _, _, heq⟩ | ⟨code, pos, items, _, _, hparse, heq⟩
    · rw [heq]
      refine ⟨by simp [parsedItems, Effect.items], by simp [parsedItems, Effect.items], ?_⟩
      intro s' hs'
      obtain ⟨_, rfl⟩ := Prod.mk.inj (Option.some.inj hs')
      exact ⟨hpos, fun _ => rfl⟩
    · rw [heq]
      refine ⟨by simp [parsedItems, Effect.items], by simp [parsedItems, Effect.items], ?_⟩
      intro s' hs'
      exact absurd hs' (by simp)
    · rw [heq]
      refine ⟨by simp [parsedItems, Effect.items], by simp [parsedItems, Effect.items], ?_⟩
      intro s' hs'
      exact absurd hs' (by simp)
    · obtain ⟨hitems, hfirst, hpos', hnone⟩ :=
        parseResp_within htotal (henc bytes isAgin header rfl) hpos hparse
      have hparsed : parsedItems (.select fd ::
          [.recv fd (chunkOf cfg s bytes), .parsed code items]) = items := by
        simp [parsedItems, Effect.items]
      rw [heq, hparsed]
      refine ⟨hitems, hfirst, ?_⟩
      intro s' hs'
      cases code with
      | again =>
          obtain ⟨_, rfl⟩ := Prod.mk.inj (Option.some.inj hs')
          exact ⟨hpos', hnone⟩
      | ignore =>
          obtain ⟨_, rfl⟩ := Prod.mk.inj (Option.some.inj hs')
          exact ⟨hpos', hnone⟩
      | success => exact absurd hs' (by simp [afterParse])
      | error => exact absurd hs' (by simp [afterParse])

/-- **The responses of a reading** lie within the bytes, the first of them at
the position at which the reading begins. -/
theorem readLoop_within {cfg : BackendConfig} {fd total : Nat} (htotal : total < 2147483648)
    {recvs : List RecvResult} {s : ReadState} (hpos : 0 ≤ s.pos)
    (henc : RoundsEnclosed cfg fd total recvs s) :
    (∀ r ∈ parsedItems (readLoop cfg fd recvs s).effects, r.Within total) ∧
      ∀ r ∈ (parsedItems (readLoop cfg fd recvs s).effects).head?, r.content = s.pos := by
  induction recvs generalizing s with
  | nil => simp [readLoop, parsedItems, Effect.items]
  | cons ev rest ih =>
      obtain ⟨hhere, hlater⟩ := henc
      obtain ⟨hitems, hfirst, hgo⟩ := readRound_within fd htotal hpos hhere
      rcases readLoop_cons cfg fd ev rest s with ⟨s', hround, heq⟩ | ⟨_, heq⟩
      · obtain ⟨hpos', hsame⟩ := hgo s' hround
        obtain ⟨hitems', hfirst'⟩ := ih hpos' (hlater s' hround)
        rw [heq, parsedItems_append]
        constructor
        · intro r hr
          exact (List.mem_append.mp hr).elim (hitems r) (hitems' r)
        · intro r hr
          cases hfront : parsedItems (readRound cfg fd ev s).effects with
          | nil =>
              rw [hfront, List.nil_append] at hr
              rw [hfirst' r hr, hsame hfront]
          | cons q qs =>
              rw [hfront] at hr hfirst
              exact hfirst r hr
      · rw [heq]
        exact ⟨hitems, hfirst⟩

/-! ## Exchanges over a pooled connection -/

/-- The place of one thread and one host in the pool: the connection, `0` if
there is none, and what the backend has answered on it and was not received
yet, each byte with the number of the exchange it answers. -/
structure Pooled where
  fd : Nat
  flight : List (Nat × UInt8)
  deriving DecidableEq

/-- `getConnection`: the pooled connection, or else a new one. -/
def Pooled.getConnection (c : Pooled) (fresh : Nat) : Pooled :=
  if 0 < c.fd then c else ⟨fresh, []⟩

/-- One exchange: a request, what the outside does to it, what the backend
answers to it, and the state of the thread it finds. -/
structure Exchange where
  message : List UInt8
  message_ne : message ≠ []
  fresh : Nat
  sends : List SendResult
  answer : List UInt8
  recvs : List RecvResult
  thread : Thread
  respList : List Resp

/-- A connection is given up. -/
def Effect.isDestroy : Effect → Bool
  | .destroy _ => true
  | _ => false

namespace Exchange

variable (cfg : BackendConfig) (n : Nat) (e : Exchange) (c : Pooled)

/-- The sending of the request. -/
def sending : Act Effect (Nat × Nat) :=
  writeToBackend (c.getConnection e.fresh).fd e.message e.sends

/-- The connection the answer is read from, if the request is sent. -/
def answersOn : Option Nat :=
  if (c.getConnection e.fresh).fd = 0 then none
  else
    match (e.sending c).result with
    | none => none
    | some sent => if sent.2 ≥ e.message.length then some sent.1 else none

/-- Answers to earlier exchanges that are still to come on the connection; a
connection that was given up while sending takes its own with it. -/
def stale : List (Nat × UInt8) :=
  if (e.sending c).effects.any Effect.isDestroy then [] else (c.getConnection e.fresh).flight

/-- What is on the connection while the answer is read. -/
def flight : List (Nat × UInt8) := e.stale c ++ e.answer.map (Prod.mk n)

/-- The reading of the answer. -/
def reading (fd : Nat) : Act Effect (Thread × List Resp) :=
  readFromBackend cfg fd e.recvs e.thread e.respList

/-- The place in the pool after the exchange, unless it never ends. -/
def after : Option Pooled :=
  match e.answersOn c with
  | none => some ⟨0, []⟩
  | some fd => (e.reading cfg fd).result.map (fun _ =>
      if (e.reading cfg fd).effects.any Effect.isDestroy then ⟨0, []⟩
      else ⟨fd, (e.flight n c).drop (received (e.reading cfg fd).effects).length⟩)

/-- The kernel delivers what is on the connection, from the front, and
nothing once the connection is closed. -/
def Faithful : Prop :=
  ∀ fd, e.answersOn c = some fd →
    received (e.reading cfg fd).effects <+: (e.flight n c).map Prod.snd ∧
      EndsAtClose (e.reading cfg fd).effects

/-- Every response header that `parse_resp` accepts in the exchange declares a
positive length and ends within the bytes the exchange receives. -/
def AnswerEnclosed : Prop :=
  ∀ fd, e.answersOn c = some fd →
    RoundsEnclosed cfg fd (received (e.reading cfg fd).effects).length e.recvs
      ⟨0, { e.thread with respBufLen := 0 }, e.respList⟩

/-- Every byte of every response that the exchange puts into the response list
was received in the exchange, was produced for the exchange, and is what
`resp_buf` holds there in the end. -/
def Attributed : Prop :=
  ∀ fd, e.answersOn c = some fd → ∀ r ∈ parsedItems (e.reading cfg fd).effects,
    ∀ i : Int, r.content ≤ i → i < r.content + r.contentLen →
      0 ≤ i ∧ i < (received (e.reading cfg fd).effects).length ∧
      ∃ b, (e.flight n c)[i.toNat]? = some (n, b) ∧
        ∀ out, (e.reading cfg fd).result = some out → out.1.respBuf i = b

/-- No answer to an earlier exchange is still to come on the connection when
the exchange reads a response. -/
def Drained : Prop :=
  ∀ fd, e.answersOn c = some fd →
    e.stale c = [] ∨ parsedItems (e.reading cfg fd).effects = []

end Exchange

/-- What holds of every exchange of a run, at the connection it finds. -/
def InRun (cfg : BackendConfig) (P : Nat → Exchange → Pooled → Prop) :
    Nat → Pooled → List Exchange → Prop
  | _, _, [] => True
  | n, c, e :: rest =>
      P n e c ∧ ∀ c', e.after cfg n c = some c' → InRun cfg P (n + 1) c' rest

namespace Exchange

variable {cfg : BackendConfig} {n : Nat} {e : Exchange} {c : Pooled}

/-- What is to come on a connection was produced for exchanges before the
`n`th. -/
def Past (n : Nat) (flight : List (Nat × UInt8)) : Prop := ∀ x ∈ flight, x.1 < n

theorem stale_past (h : Past n c.flight) : Past n (e.stale c) := by
  intro x hx
  unfold stale Pooled.getConnection at hx
  split_ifs at hx
  · exact absurd hx (by simp)
  · exact h x hx
  · exact absurd hx (by simp)

theorem flight_past (h : Past n c.flight) : Past (n + 1) (e.flight n c) := by
  intro x hx
  rcases List.mem_append.mp hx with hx | hx
  · have := stale_past h x hx
    omega
  · obtain ⟨b, _, rfl⟩ := List.mem_map.mp hx
    exact Nat.lt_succ_self n

/-- **One exchange** leaves only answers to itself and to earlier exchanges on
the connection. -/
theorem after_past {c' : Pooled} (h : Past n c.flight) (hafter : e.after cfg n c = some c') :
    Past (n + 1) c'.flight := by
  unfold after at hafter
  cases hfd : e.answersOn c with
  | none =>
      rw [hfd] at hafter
      obtain rfl := Option.some.inj hafter
      exact fun x hx => absurd hx (by simp)
  | some fd =>
      rw [hfd] at hafter
      obtain ⟨_, _, rfl⟩ := Option.map_eq_some_iff.mp hafter
      split_ifs
      · exact fun x hx => absurd hx (by simp)
      · exact fun x hx => flight_past h x (List.mem_of_mem_drop hx)

/-- The responses of an exchange, and the first of them. -/
theorem reading_within {fd : Nat} (hfaith : e.Faithful cfg n c) (henc : e.AnswerEnclosed cfg c)
    (hfd : e.answersOn c = some fd) :
    (∀ r ∈ parsedItems (e.reading cfg fd).effects,
      r.Within (received (e.reading cfg fd).effects).length) ∧
      ∀ r ∈ (parsedItems (e.reading cfg fd).effects).head?, r.content = 0 := by
  have hroom : (received (e.reading cfg fd).effects).length < 2147483648 := by
    have hclose := (hfaith fd hfd).2
    have hsize := cfg.respBufSize_lt
    unfold reading at hclose ⊢
    rw [readFromBackend_eq] at hclose ⊢
    have := length_received_readLoop hclose
    dsimp only at this ⊢
    omega
  have hwithin := readLoop_within hroom (le_refl 0) (henc fd hfd)
  have heff : (e.reading cfg fd).effects =
      (readLoop cfg fd e.recvs ⟨0, { e.thread with respBufLen := 0 }, e.respList⟩).effects := by
    unfold reading
    rw [readFromBackend_eq]
  rw [heff] at hwithin ⊢
  exact hwithin

/-- **One exchange.**  Its responses belong to it exactly when it finds the
connection drained, or parses nothing. -/
theorem attributed_iff_drained (hpast : Past n c.flight) (hfaith : e.Faithful cfg n c)
    (henc : e.AnswerEnclosed cfg c) : e.Attributed cfg n c ↔ e.Drained cfg c := by
  constructor
  · intro hattr fd hfd
    obtain ⟨hwithin, hfirst⟩ := reading_within hfaith henc hfd
    cases hitems : parsedItems (e.reading cfg fd).effects with
    | nil => exact Or.inr rfl
    | cons r rs =>
        left
        -- the first byte of the first response is the front of the FIFO
        have hmem : r ∈ parsedItems (e.reading cfg fd).effects := by simp [hitems]
        have hzero : r.content = 0 := hfirst r (by simp [hitems])
        have hpos := (hwithin r hmem).pos
        obtain ⟨_, _, b, hfront, _⟩ := hattr fd hfd r hmem 0 (by omega) (by omega)
        cases hstale : e.stale c with
        | nil => rfl
        | cons x xs =>
            have hx := stale_past (e := e) hpast x (by simp [hstale])
            simp only [flight, hstale, Int.toNat_zero, List.cons_append, List.getElem?_cons_zero,
              Option.some.injEq] at hfront
            rw [hfront] at hx
            exact absurd hx (lt_irrefl n)
  · intro hdrained fd hfd r hr i hlo hhi
    obtain ⟨hfront, hclose⟩ := hfaith fd hfd
    have hwithin := (reading_within hfaith henc hfd).1 r hr
    have hstart := hwithin.start
    have hstop := hwithin.stop
    refine ⟨by omega, by omega, ?_⟩
    have hstale : e.stale c = [] := by
      rcases hdrained fd hfd with h | h
      · exact h
      · rw [h] at hr
        exact absurd hr (by simp)
    obtain ⟨more, hmore⟩ := hfront
    have hlt : i.toNat < (received (e.reading cfg fd).effects).length := by omega
    -- the byte received there is one of this exchange's answer
    have hbyte : (e.answer)[i.toNat]? = (received (e.reading cfg fd).effects)[i.toNat]? := by
      have hmap : (e.flight n c).map Prod.snd = e.answer := by
        simp [flight, hstale, Function.comp_def]
      rw [hmap] at hmore
      rw [← hmore, List.getElem?_append_left hlt]
    obtain ⟨b, hb⟩ : ∃ b, (received (e.reading cfg fd).effects)[i.toNat]? = some b :=
      ⟨_, List.getElem?_eq_getElem hlt⟩
    refine ⟨b, ?_, ?_⟩
    · simp [flight, hstale, hbyte, hb]
    · intro out hout
      have hmem := ByteMem.write_of_mem e.thread.respBuf (received (e.reading cfg fd).effects)
        (p := 0) (i := i) (by omega) (by omega)
      rw [Int.sub_zero, hb] at hmem
      rw [readFromBackend_respBuf hout hclose]
      exact Option.some.inj hmem

end Exchange

/-- A run on a connection with nothing on it but answers to earlier exchanges. -/
theorem inRun_attributed_iff (cfg : BackendConfig) (run : List Exchange) {n : Nat} {c : Pooled}
    (hpast : Exchange.Past n c.flight)
    (hfaith : InRun cfg (fun n e c => e.Faithful cfg n c) n c run)
    (henc : InRun cfg (fun _ e c => e.AnswerEnclosed cfg c) n c run) :
    InRun cfg (fun n e c => e.Attributed cfg n c) n c run ↔
      InRun cfg (fun _ e c => e.Drained cfg c) n c run := by
  induction run generalizing n c with
  | nil => exact Iff.rfl
  | cons e rest ih =>
      obtain ⟨hf, hfrest⟩ := hfaith
      obtain ⟨he, herest⟩ := henc
      have hhere := Exchange.attributed_iff_drained hpast hf he
      have hlater : ∀ c', e.after cfg n c = some c' →
          (InRun cfg (fun n e c => e.Attributed cfg n c) (n + 1) c' rest ↔
            InRun cfg (fun _ e c => e.Drained cfg c) (n + 1) c' rest) :=
        fun c' hc' => ih (Exchange.after_past hpast hc') (hfrest c' hc') (herest c' hc')
      exact and_congr hhere (forall₂_congr hlater)

/-- **Response attribution.**  In a run of exchanges, from an empty place in
the pool, every response belongs to the exchange that puts it into the list
exactly when every exchange that parses a response finds no answer to an
earlier exchange on the connection. -/
theorem responses_attributed_iff (cfg : BackendConfig) (run : List Exchange)
    (hfaith : InRun cfg (fun n e c => e.Faithful cfg n c) 0 ⟨0, []⟩ run)
    (henc : InRun cfg (fun _ e c => e.AnswerEnclosed cfg c) 0 ⟨0, []⟩ run) :
    InRun cfg (fun n e c => e.Attributed cfg n c) 0 ⟨0, []⟩ run ↔
      InRun cfg (fun _ e c => e.Drained cfg c) 0 ⟨0, []⟩ run :=
  inRun_attributed_iff cfg run (fun _ hx => absurd hx List.not_mem_nil) hfaith henc

/-! ## Answers of one packet -/

/-- A response packet that is received in one piece is enclosed. -/
theorem enclosed_packet (p : Packet magicRes) {m : ByteMem} (hheld : Held m 0 p.length p.bytes)
    (header : MemcachedHeader) : Enclosed p.length m p.length 0 header := by
  have hle : 24 ≤ p.length := p.header_le
  have hlt : p.length < 2147483648 := p.length_lt
  have hbin : isBinaryProtocol m = true := by
    have hfirst := Held.first_byte p hheld (by omega)
    simp [isBinaryProtocol, hfirst]
  have hlen := p.packetLen_header
  have hfront : ∀ {hdr hd}, RespAccepted m p.length true hdr 0 hd → hd = p.header := by
    intro hdr hd hacc
    have hread := tryReadBinary_packet p hheld (by omega) hlt hdr
    have heq := hacc.read
    simp only [readResponse, if_true, tryReadResponseBinary] at heq
    rw [show ((0 : Nat) : Int) = 0 from rfl] at hread
    rw [hread] at heq
    exact (Prod.mk.inj heq).2.symm
  have hend : ∀ {hdr hd}, ¬ RespAccepted m p.length true hdr (p.length : Int) hd := by
    intro hdr hd hacc
    have hrem := hacc.remaining
    simp [int32] at hrem
  have hwalk : ∀ {o hdr}, RespWalk m p.length true 0 header o hdr → o = 0 ∨ o = p.length := by
    intro o hdr h
    induction h with
    | start => exact Or.inl rfl
    | next before hacc ih =>
        rcases ih with rfl | rfl
        · right
          rw [hfront hacc, hlen, Int.zero_add, int32_eq_self (by omega) (by omega)]
        · exact absurd hacc hend
  unfold Enclosed
  rw [hbin]
  intro o hdr hd h hacc
  rcases hwalk h with rfl | rfl
  · rw [hfront hacc, hlen]
    omega
  · exact absurd hacc hend

theorem received_readLoop_single (cfg : BackendConfig) (fd : Nat) (bytes : List UInt8)
    (isAgin : Bool) (header : MemcachedHeader) (s : ReadState) :
    received (readLoop cfg fd [.data bytes isAgin header] s).effects = chunkOf cfg s bytes := by
  rcases readLoop_cons cfg fd (.data bytes isAgin header) [] s with ⟨s', _, heq⟩ | ⟨_, heq⟩
  · rw [heq, received_append, received_readRound_data]
    simp [readLoop, Effect.got]
  · rw [heq, received_readRound_data]

/-- An exchange that receives one whole packet, and nothing else. -/
theorem Exchange.answerEnclosed_of_packet {cfg : BackendConfig} {e : Exchange} {isAgin : Bool}
    {header : MemcachedHeader} (p : Packet magicRes)
    (hrecvs : e.recvs = [.data p.bytes isAgin header]) (hroom : p.length ≤ cfg.respBufSize)
    (c : Pooled) : e.AnswerEnclosed cfg c := by
  intro fd _
  have hchunk : chunkOf cfg ⟨0, { e.thread with respBufLen := 0 }, e.respList⟩ p.bytes =
      p.bytes := List.take_of_length_le hroom
  have hreceived : received (e.reading cfg fd).effects = p.bytes := by
    rw [Exchange.reading, readFromBackend_eq, hrecvs, received_readLoop_single, hchunk]
  rw [hreceived, hrecvs]
  refine ⟨?_, fun _ _ => trivial⟩
  intro bytes isAgin' header' hev
  obtain ⟨rfl, rfl, rfl⟩ : p.bytes = bytes ∧ isAgin = isAgin' ∧ header = header' := by
    simpa using hev
  rw [hchunk]
  have hheld := held_write e.thread.respBuf p.bytes p.bytes.length
  rw [List.take_length] at hheld
  have hlen : ((({ e.thread with respBufLen := 0 } : Thread).receive p.bytes).respBufLen : Int) =
      p.length := by
    simp [Thread.receive, Packet.length]
  rw [hlen]
  exact enclosed_packet p hheld header

/-- A host's answer to a get: four bytes of flags and a value of one byte. -/
def valuePacket (value : UInt8) : Packet magicRes where
  bytes := [0x81, 0, 0, 0, 4, 0, 0, 0, 0, 0, 0, 5, 0, 0, 0, 0, 0, 0, 0, 0, 0, 0, 0, 0,
    0, 0, 0, 0, value]
  header_le := by simp
  length_lt := by simp
  magic_eq := rfl
  body_eq := by simp [be32, ByteMem.ofList]

/-- A get of the key, answered with the value, on connection `5`. -/
def getExchange (key value : UInt8) (recvs : List RecvResult) : Exchange where
  message := [0x80, 0, 0, 1, 0, 0, 0, 0, 0, 0, 0, 1, 0, 0, 0, 0, 0, 0, 0, 0, 0, 0, 0, 0, key]
  message_ne := by simp
  fresh := 5
  sends := [.sent 1000]
  answer := (valuePacket value).bytes
  recvs := recvs
  thread := .new (fun _ => 0)
  respList := []

/-- The round in which that answer is received. -/
def valueRound (value : UInt8) : RecvResult :=
  .data (valuePacket value).bytes false ⟨0, 0, 0, 0⟩

/-- A get that receives one whole answer, its own or not. -/
theorem getExchange_enclosed (key value got : UInt8) (c : Pooled) :
    (getExchange key value [valueRound got]).AnswerEnclosed .default c :=
  Exchange.answerEnclosed_of_packet (valuePacket got) rfl
    (by simp [valuePacket, Packet.length, BackendConfig.default]) c

theorem Exchange.faithful_of_effects {cfg : BackendConfig} {n : Nat} {e : Exchange} {c : Pooled}
    (fd : Nat) (effects : List Effect) (hon : e.answersOn c = some fd)
    (heff : (e.reading cfg fd).effects = effects)
    (hfront : received effects <+: (e.flight n c).map Prod.snd)
    (hclose : EndsAtClose effects) : e.Faithful cfg n c := by
  intro fd' hfd'
  obtain rfl := Option.some.inj (hon.symm.trans hfd')
  rw [heff]
  exact ⟨hfront, hclose⟩

/-- Two gets, each with its own answer. -/
theorem responses_attributed_in_turn :
    InRun .default (fun n e c => e.Attributed .default n c) 0 ⟨0, []⟩
      [getExchange 97 120 [valueRound 120], getExchange 98 121 [valueRound 121]] := by
  have hafter : (getExchange 97 120 [valueRound 120]).after .default 0 ⟨0, []⟩ =
      some ⟨5, []⟩ := by
    decide +kernel
  refine (responses_attributed_iff .default _ ?_ ?_).mpr ?_
  · refine ⟨Exchange.faithful_of_effects 5
      [.select 5, .recv 5 (valuePacket 120).bytes, .parsed .success [⟨0, 29, 0⟩]]
      (by decide +kernel) (by decide +kernel) (by decide +kernel) trivial, ?_⟩
    intro c hc
    obtain rfl := Option.some.inj (hafter.symm.trans hc)
    exact ⟨Exchange.faithful_of_effects 5
      [.select 5, .recv 5 (valuePacket 121).bytes, .parsed .success [⟨0, 29, 0⟩]]
      (by decide +kernel) (by decide +kernel) (by decide +kernel) trivial, fun _ _ => trivial⟩
  · exact ⟨getExchange_enclosed _ _ _ _, fun c _ =>
      ⟨getExchange_enclosed _ _ _ c, fun _ _ => trivial⟩⟩
  · refine ⟨fun _ _ => Or.inl (by decide +kernel), ?_⟩
    intro c hc
    obtain rfl := Option.some.inj (hafter.symm.trans hc)
    exact ⟨fun _ _ => Or.inl (by decide +kernel), fun _ _ => trivial⟩

/-- **The late answer is taken for the next one.**  The first get times out;
its answer comes afterwards, and the second get parses it as its own. -/
theorem late_answer_taken_for_next :
    InRun .default (fun n e c => e.Faithful .default n c) 0 ⟨0, []⟩
      [getExchange 97 120 [.selectTimeout], getExchange 98 121 [valueRound 120]] ∧
    InRun .default (fun _ e c => e.AnswerEnclosed .default c) 0 ⟨0, []⟩
      [getExchange 97 120 [.selectTimeout], getExchange 98 121 [valueRound 120]] ∧
    ¬ InRun .default (fun n e c => e.Attributed .default n c) 0 ⟨0, []⟩
      [getExchange 97 120 [.selectTimeout], getExchange 98 121 [valueRound 120]] := by
  have hafter : (getExchange 97 120 [.selectTimeout]).after .default 0 ⟨0, []⟩ =
      some ⟨5, (valuePacket 120).bytes.map (Prod.mk 0)⟩ := by
    decide +kernel
  refine ⟨?_, ?_, ?_⟩
  · refine ⟨Exchange.faithful_of_effects 5 [.select 5] (by decide +kernel) (by decide +kernel)
      (by decide +kernel) trivial, ?_⟩
    intro c hc
    obtain rfl := Option.some.inj (hafter.symm.trans hc)
    exact ⟨Exchange.faithful_of_effects 5
      [.select 5, .recv 5 (valuePacket 120).bytes, .parsed .success [⟨0, 29, 0⟩]]
      (by decide +kernel) (by decide +kernel) (by decide +kernel) trivial, fun _ _ => trivial⟩
  · refine ⟨fun _ _ => ⟨fun _ _ _ hev => absurd hev (by simp), fun _ _ => trivial⟩, ?_⟩
    exact fun c _ => ⟨getExchange_enclosed _ _ _ c, fun _ _ => trivial⟩
  · intro hrun
    have hsecond := (hrun.2 _ hafter).1
    obtain ⟨_, _, b, hbyte, _⟩ := hsecond 5 (by decide +kernel) ⟨0, 29, 0⟩ (by decide +kernel)
      0 (by decide) (by decide)
    have hfront : ((getExchange 98 121 [valueRound 120]).flight 1
        ⟨5, (valuePacket 120).bytes.map (Prod.mk 0)⟩)[0]? = some (0, 0x81) := by
      decide +kernel
    have htag := hfront.symm.trans hbyte
    exact absurd (congrArg (Option.map Prod.fst) htag) (by simp)

end KvProxy
