import KvProxy.Lib.Act
import KvProxy.Lib.SortedMap
import KvProxy.Encode
import KvProxy.ParseResp

/-!
# Talking to the backend hosts

`talkToBackend`, `talkToBackendAsync` and what they call: for each host of a
batch, in the order of the aliases, write its requests into `backend_buf`,
get a connection, send, and read the answer into `resp_buf`; then, for a
client, write the gathered responses into `client_buf`.

The answers of the pool and of the kernel are inputs, one `HostIo` per host.
A script that ends stands for a failed send, or for a silent host.  What the
functions do to the outside, and the calls the development speaks about, are
the effects of an `Act`; the effects of a batch carry the alias of the host
whose turn they belong to.

A `Thread` holds what the functions keep per thread index.  The fields of the
failure counters are shared by all threads; they are threaded through here
because one call is modelled at a time.
-/

namespace KvProxy

/-- The sizes `KvProxy` was configured with, all below `2 ^ 31`. -/
structure BackendConfig where
  respBufSize : Nat
  clientBufSize : Int
  stLimit : Nat
  respBufSize_lt : respBufSize < 2147483648
  clientBufSize_lt : clientBufSize < 2147483648

/-- The default configuration: packets of at most one megabyte. -/
def BackendConfig.default : BackendConfig where
  respBufSize := 1048576
  clientBufSize := 1048576
  stLimit := 2100000000
  respBufSize_lt := by decide
  clientBufSize_lt := by decide

/-- The buffers of one thread, and the failure counters. -/
structure Thread where
  backendBuf : ByteMem
  backendBufLen : Nat
  respBuf : ByteMem
  respBufLen : Nat
  clientBuf : ByteMem
  clientBufLen : Int
  stFail : SortedMap Nat Nat
  stContFail : SortedMap Nat Nat

/-- The thread as the constructor leaves it: uninitialised memory, nothing
in it, and no failure counted. -/
def Thread.new (memory : ByteMem) : Thread where
  backendBuf := memory
  backendBufLen := 0
  respBuf := memory
  respBufLen := 0
  clientBuf := memory
  clientBufLen := 0
  stFail := ∅
  stContFail := ∅

/-- The bytes for the client. -/
def Thread.reply (t : Thread) : List UInt8 := t.clientBuf.slice 0 t.clientBufLen.toNat

/-- What one `send` returns: a positive count (at most what was asked for),
`EINTR`, or an error, with the connection `getConnection` gives after it. -/
inductive SendResult where
  | sent (more : Nat)
  | intr
  | error (reconnect : Nat)
  deriving DecidableEq, Repr

/-- What one round of the read loop sees: `select` interrupted, failing,
timing out or naming another descriptor; or `recv` with data (none when the
peer has closed), `EAGAIN`, `EINTR` or another error.  `isAgin` and `header`
are the uninitialised locals of the parser call. -/
inductive RecvResult where
  | selectIntr
  | selectError
  | selectTimeout
  | notSet
  | data (bytes : List UInt8) (isAgin : Bool) (header : MemcachedHeader)
  | again
  | intr
  | error
  deriving DecidableEq, Repr

/-- The outside as one host's turn sees it; connection `0` is none. -/
structure HostIo where
  conn : Nat
  sends : List SendResult
  recvs : List RecvResult

/-- What a turn does that the development speaks about. -/
inductive Effect where
  | write (bytes : List UInt8)
  | send (fd : Nat) (bytes : List UInt8)
  | destroy (fd : Nat)
  | select (fd : Nat)
  | recv (fd : Nat) (bytes : List UInt8)
  | parsed (code : ExtRet) (items : List Resp)
  | countFail (isFail : Bool) (aliasIndex : Nat)
  deriving DecidableEq

/-! ## Failure counters -/

/-- The counters after `countFail`. -/
def Thread.count (stLimit : Nat) (t : Thread) (isFail : Bool) (aliasIndex : Nat) : Thread :=
  if isFail then
    if t.stFail.getD aliasIndex 0 < stLimit then
      { t with
        stFail := t.stFail.insert aliasIndex (t.stFail.getD aliasIndex 0 + 1)
        stContFail := t.stContFail.insert aliasIndex (t.stContFail.getD aliasIndex 0 + 1) }
    else t
  else if t.stContFail.getD aliasIndex 0 ≠ 0 then
    { t with stContFail := t.stContFail.insert aliasIndex 0 }
  else t

/-- `countFail(is_fail, alias_index)`. -/
def countFail (cfg : BackendConfig) (t : Thread) (isFail : Bool) (aliasIndex : Nat) :
    Act Effect Thread := do
  Act.emit (.countFail isFail aliasIndex)
  pure (t.count cfg.stLimit isFail aliasIndex)

/-- The counters are all that changes. -/
theorem Thread.respBuf_count (stLimit : Nat) (t : Thread) (isFail : Bool) (aliasIndex : Nat) :
    (t.count stLimit isFail aliasIndex).respBuf = t.respBuf := by
  unfold Thread.count
  split_ifs <;> rfl

theorem countFail_bind {α : Type} (cfg : BackendConfig) (t : Thread) (isFail : Bool)
    (aliasIndex : Nat) (f : Thread → Act Effect α) :
    countFail cfg t isFail aliasIndex >>= f =
      ⟨.countFail isFail aliasIndex :: (f (t.count cfg.stLimit isFail aliasIndex)).effects,
        (f (t.count cfg.stLimit isFail aliasIndex)).result⟩ := rfl

/-! ## Sending -/

/-- The loop of `writeToBackend` on the connection and the count of bytes
sent so far.  After an error it goes on, with what was not sent yet, on the
new connection. -/
def writeLoop (msg : List UInt8) : List SendResult → Nat → Nat → Act Effect (Nat × Nat)
  | [], fd, _ => do
      Act.emit (.destroy fd)
      pure (0, 0)
  | .sent more :: rest, fd, sendLen => do
      let chunk := (msg.drop sendLen).take (more + 1)
      Act.emit (.send fd chunk)
      if sendLen + chunk.length ≥ msg.length then pure (fd, sendLen + chunk.length)
      else writeLoop msg rest fd (sendLen + chunk.length)
  | .intr :: rest, fd, sendLen => writeLoop msg rest fd sendLen
  | .error reconnect :: rest, fd, sendLen => do
      Act.emit (.destroy fd)
      if reconnect = 0 then pure (0, 0) else writeLoop msg rest reconnect sendLen

/-- `writeToBackend`: the connection it ends with and the count it returns. -/
def writeToBackend (fd : Nat) (msg : List UInt8) (sends : List SendResult) :
    Act Effect (Nat × Nat) := do
  Act.emit (.write msg)
  writeLoop msg sends fd 0

/-! ## Receiving -/

/-- The locals of `readFromBackend` and what it works on. -/
structure ReadState where
  pos : Int
  thread : Thread
  respList : List Resp

/-- How a round of the read loop ends. -/
inductive Flow where
  | goOn
  | leave
  | leaveAtOnce
  deriving DecidableEq, Repr

/-- Received bytes go behind those already in `resp_buf`. -/
def Thread.receive (t : Thread) (bytes : List UInt8) : Thread :=
  { t with
    respBuf := t.respBuf.write t.respBufLen bytes
    respBufLen := t.respBufLen + bytes.length }

/-- What `readFromBackend` makes of the parser's result: an error empties the
whole response list. -/
def afterParse (t : Thread) (parse : ExtRet × Int × List Resp) : Flow × ReadState :=
  match parse.1 with
  | .success => (.leave, ⟨0, t, parse.2.2⟩)
  | .error => (.leave, ⟨0, t, []⟩)
  | _ => (.goOn, ⟨parse.2.1, t, parse.2.2⟩)

/-- A `recv` that returned a count.  A full buffer leaves the function without
a parse. -/
def recvData (cfg : BackendConfig) (fd : Nat) (bytes : List UInt8) (isAgin : Bool)
    (header : MemcachedHeader) (s : ReadState) : Act Effect (Flow × ReadState) := do
  let chunk := bytes.take (cfg.respBufSize - s.thread.respBufLen)
  Act.emit (.recv fd chunk)
  if chunk = [] then
    Act.emit (.destroy fd)
    pure (.goOn, { s with thread := { s.thread with respBufLen := 0 } })
  else if cfg.respBufSize ≤ (s.thread.receive chunk).respBufLen then
    pure (.leaveAtOnce, { s with thread := s.thread.receive chunk })
  else
    let parse ← Act.ofOption (parseResp isAgin header (s.thread.receive chunk).respBuf
      (s.thread.receive chunk).respBufLen s.pos s.respList)
    Act.emit (.parsed parse.1 (parse.2.2.drop s.respList.length))
    pure (afterParse (s.thread.receive chunk) parse)

/-- One round of the read loop. -/
def readRound (cfg : BackendConfig) (fd : Nat) (ev : RecvResult) (s : ReadState) :
    Act Effect (Flow × ReadState) := do
  Act.emit (.select fd)
  match ev with
  | .selectIntr => pure (.goOn, s)
  | .selectError => pure (.leave, s)
  | .selectTimeout => pure (.leave, s)
  | .notSet => pure (.goOn, s)
  | .data bytes isAgin header => recvData cfg fd bytes isAgin header s
  | .again => pure (.leave, s)
  | .intr => pure (.goOn, s)
  | .error => pure (.leave, s)

/-- The read loop; a script that ends is a timeout. -/
def readLoop (cfg : BackendConfig) (fd : Nat) :
    List RecvResult → ReadState → Act Effect (Flow × ReadState)
  | [], s => do
      Act.emit (.select fd)
      pure (.leave, s)
  | ev :: rest, s => do
      let round ← readRound cfg fd ev s
      match round.1 with
      | .goOn => readLoop cfg fd rest round.2
      | _ => pure round

/-- What follows the read loop: `resp_buf_len` is reset, except when the
buffer was full. -/
def readDone (last : Flow × ReadState) : Thread × List Resp :=
  match last.1 with
  | .leaveAtOnce => (last.2.thread, last.2.respList)
  | _ => ({ last.2.thread with respBufLen := 0 }, last.2.respList)

/-- `readFromBackend`. -/
def readFromBackend (cfg : BackendConfig) (fd : Nat) (recvs : List RecvResult) (t : Thread)
    (respList : List Resp) : Act Effect (Thread × List Resp) := do
  let last ← readLoop cfg fd recvs ⟨0, { t with respBufLen := 0 }, respList⟩
  pure (readDone last)

/-! ## A batch -/

/-- One host of a batch: its alias, its items and the outside it meets. -/
structure Turn where
  aliasIndex : Nat
  items : List Item
  io : HostIo

/-- The thread after the request writer has run on the items of a turn. -/
def Thread.staged (t : Thread) (items : List Item) : Thread :=
  { t with
    backendBuf := (appendItems items t.backendBuf t.backendBufLen).1
    backendBufLen := (appendItems items t.backendBuf t.backendBufLen).2 }

/-- The bytes in the send buffer. -/
def Thread.message (t : Thread) : List UInt8 := t.backendBuf.slice 0 t.backendBufLen

/-- The reset of `backend_buf_len` at the end of the loop body. -/
def Thread.reset (t : Thread) : Thread := { t with backendBufLen := 0 }

/-- The loop body of `talkToBackend`: write the request, connect, send, read,
count.  A failed connection goes on to the next host and skips the reset. -/
def talkTurn (cfg : BackendConfig) (turn : Turn) (t : Thread) (respList : List Resp) :
    Act Effect (Thread × List Resp) := do
  let t := t.staged turn.items
  if t.backendBufLen ≠ 0 then
    if turn.io.conn = 0 then
      let t ← countFail cfg t true turn.aliasIndex
      pure (t, respList)
    else
      let sent ← writeToBackend turn.io.conn t.message turn.io.sends
      if sent.2 ≥ t.backendBufLen then
        let got ← readFromBackend cfg sent.1 turn.io.recvs t respList
        let t ← countFail cfg got.1 got.2.isEmpty turn.aliasIndex
        pure (t.reset, got.2)
      else if sent.2 ≤ 0 then
        let t ← countFail cfg t true turn.aliasIndex
        pure (t.reset, respList)
      else pure (t.reset, respList)
  else pure (t.reset, respList)

/-- The loop over the hosts of a batch; an effect carries its host's alias. -/
def talkTurns (cfg : BackendConfig) :
    List Turn → Thread → List Resp → Act (Nat × Effect) (Thread × List Resp)
  | [], t, respList => pure (t, respList)
  | turn :: rest, t, respList => do
      let got ← (talkTurn cfg turn t respList).label (Prod.mk turn.aliasIndex)
      talkTurns cfg rest got.1 got.2

/-- The turns of a client's batch, whose requests lie in `originReq`. -/
def reqTurns (originReq : ByteMem) (groups : SortedMap Nat (List Req)) (io : Nat → HostIo) :
    List Turn :=
  groups.entries.map (fun g => ⟨g.1, g.2.map (fun r => (r.ext, r.bytes originReq)), io g.1⟩)

/-- The turns of a batch of the async queue. -/
def asyncTurns (groups : SortedMap Nat (List Comm)) (io : Nat → HostIo) : List Turn :=
  groups.entries.map (fun g => ⟨g.1, g.2.map (fun c => (c.ext, c.content)), io g.1⟩)

/-- `talkToBackend`. -/
def talkToBackend (cfg : BackendConfig) (originReq : ByteMem) (groups : SortedMap Nat (List Req))
    (io : Nat → HostIo) (t : Thread) : Act (Nat × Effect) Thread := do
  let got ← talkTurns cfg (reqTurns originReq groups io) t []
  let resp := createResp got.1.respBuf got.2 got.1.clientBuf 0 cfg.clientBufSize
  pure { got.1 with clientBuf := resp.2.1, clientBufLen := resp.2.2 }

/-- `talkToBackendAsync`. -/
def talkToBackendAsync (cfg : BackendConfig) (groups : SortedMap Nat (List Comm))
    (io : Nat → HostIo) (t : Thread) : Act (Nat × Effect) Thread := do
  let got ← talkTurns cfg (asyncTurns groups io) t []
  pure { got.1 with clientBufLen := 0 }

/-! ## How a batch goes on after a turn -/

theorem talkTurns_of_some {cfg : BackendConfig} {turn : Turn} {t : Thread} {respList : List Resp}
    {got : Thread × List Resp} (h : (talkTurn cfg turn t respList).result = some got)
    (rest : List Turn) :
    talkTurns cfg (turn :: rest) t respList =
      ⟨(talkTurn cfg turn t respList).effects.map (Prod.mk turn.aliasIndex) ++
        (talkTurns cfg rest got.1 got.2).effects, (talkTurns cfg rest got.1 got.2).result⟩ := by
  have hlabel : ((talkTurn cfg turn t respList).label (Prod.mk turn.aliasIndex)).result =
      some got := h
  rw [talkTurns, Act.bind_of_some _ hlabel]
  rfl

theorem talkTurns_of_none {cfg : BackendConfig} {turn : Turn} {t : Thread} {respList : List Resp}
    (h : (talkTurn cfg turn t respList).result = none) (rest : List Turn) :
    talkTurns cfg (turn :: rest) t respList =
      ⟨(talkTurn cfg turn t respList).effects.map (Prod.mk turn.aliasIndex), none⟩ := by
  have hlabel : ((talkTurn cfg turn t respList).label (Prod.mk turn.aliasIndex)).result =
      none := h
  rw [talkTurns, Act.bind_of_none _ hlabel]
  rfl

/-! ## The send buffer of a turn -/

/-- The send buffer of a staged turn. -/
theorem staged_backendBufLen (t : Thread) (items : List Item) :
    (t.staged items).backendBufLen = t.backendBufLen + (payload items).length := by
  simp [Thread.staged, appendItems_eq]

/-- On an empty send buffer the message is the payload. -/
theorem staged_message {t : Thread} (items : List Item) (h : t.backendBufLen = 0) :
    (t.staged items).message = payload items := by
  simp only [Thread.message, Thread.staged, h]
  exact slice_appendItems items t.backendBuf

/-! ## Which effects belong to what -/

/-- An effect of `writeToBackend`'s loop. -/
def Effect.IsSending : Effect → Prop
  | .send _ _ => True
  | .destroy _ => True
  | _ => False

/-- An effect of `readFromBackend`. -/
def Effect.IsReading : Effect → Prop
  | .select _ => True
  | .recv _ _ => True
  | .destroy _ => True
  | .parsed _ _ => True
  | _ => False

/-- `writeToBackend` sends everything or reports nothing sent. -/
theorem writeLoop_spec (msg : List UInt8) (sends : List SendResult) (fd sendLen : Nat) :
    (writeLoop msg sends fd sendLen).Spec Effect.IsSending
      (fun r => r.2 = 0 ∨ msg.length ≤ r.2) := by
  induction sends generalizing fd sendLen with
  | nil =>
      apply (Act.Spec.emit (e := Effect.destroy fd) trivial).bind
      intro _ _
      exact .pure (Or.inl rfl)
  | cons result rest ih =>
      cases result with
      | sent more =>
          apply (Act.Spec.emit (e := Effect.send fd _) trivial).bind
          intro _ _
          split_ifs with hall
          · exact .pure (Or.inr hall)
          · exact ih _ _
      | intr => exact ih _ _
      | error reconnect =>
          apply (Act.Spec.emit (e := Effect.destroy fd) trivial).bind
          intro _ _
          split_ifs with hnone
          · exact .pure (Or.inl rfl)
          · exact ih _ _

/-- `writeToBackend` returns whatever the sends do. -/
theorem writeLoop_returns (msg : List UInt8) (sends : List SendResult) (fd sendLen : Nat) :
    ∃ r, (writeLoop msg sends fd sendLen).result = some r := by
  induction sends generalizing fd sendLen with
  | nil => exact ⟨_, rfl⟩
  | cons result rest ih =>
      cases result with
      | sent more =>
          simp only [writeLoop, Act.emit_bind]
          split_ifs
          · exact ⟨_, rfl⟩
          · exact ih _ _
      | intr => exact ih _ _
      | error reconnect =>
          simp only [writeLoop, Act.emit_bind]
          split_ifs
          · exact ⟨_, rfl⟩
          · exact ih _ _

theorem writeToBackend_bind {α : Type} {fd : Nat} {msg : List UInt8} {sends : List SendResult}
    {sent : Nat × Nat} (h : (writeLoop msg sends fd 0).result = some sent)
    (f : Nat × Nat → Act Effect α) :
    writeToBackend fd msg sends >>= f =
      ⟨.write msg :: ((writeLoop msg sends fd 0).effects ++ (f sent).effects),
        (f sent).result⟩ := by
  have hres : (writeToBackend fd msg sends).result = some sent := by
    simp [writeToBackend, h]
  rw [Act.bind_of_some f hres]
  simp [writeToBackend]

/-- Reading changes the receive buffer of a thread and nothing else. -/
def Thread.SameButResp (t t' : Thread) : Prop :=
  ∃ buf len, t' = { t with respBuf := buf, respBufLen := len }

theorem Thread.SameButResp.refl (t : Thread) : t.SameButResp t := ⟨t.respBuf, t.respBufLen, rfl⟩

theorem Thread.SameButResp.trans {t t' t'' : Thread} (h : t.SameButResp t')
    (h' : t'.SameButResp t'') : t.SameButResp t'' := by
  obtain ⟨buf, len, rfl⟩ := h
  obtain ⟨buf', len', rfl⟩ := h'
  exact ⟨buf', len', rfl⟩

theorem recvData_spec (cfg : BackendConfig) (fd : Nat) (bytes : List UInt8) (isAgin : Bool)
    (header : MemcachedHeader) (s : ReadState) :
    (recvData cfg fd bytes isAgin header s).Spec Effect.IsReading
      (fun r => s.thread.SameButResp r.2.thread) := by
  apply (Act.Spec.emit (e := Effect.recv fd _) trivial).bind
  intro _ _
  split_ifs
  · apply (Act.Spec.emit (e := Effect.destroy fd) trivial).bind
    intro _ _
    exact .pure ⟨_, _, rfl⟩
  · exact .pure ⟨_, _, rfl⟩
  · apply (Act.Spec.ofOption (P := fun _ => True) (fun _ _ => trivial)).bind
    intro parse _
    apply (Act.Spec.emit (e := Effect.parsed parse.1 _) trivial).bind
    intro _ _
    refine .pure ?_
    unfold afterParse
    cases parse.1 with
    | again => exact ⟨_, _, rfl⟩
    | success => exact ⟨_, _, rfl⟩
    | error => exact ⟨_, _, rfl⟩
    | ignore => exact ⟨_, _, rfl⟩

theorem readRound_spec (cfg : BackendConfig) (fd : Nat) (ev : RecvResult) (s : ReadState) :
    (readRound cfg fd ev s).Spec Effect.IsReading
      (fun r => s.thread.SameButResp r.2.thread) := by
  apply (Act.Spec.emit (e := Effect.select fd) trivial).bind
  intro _ _
  cases ev with
  | data bytes isAgin header => exact recvData_spec cfg fd bytes isAgin header s
  | _ => exact .pure (Thread.SameButResp.refl _)

theorem readLoop_spec (cfg : BackendConfig) (fd : Nat) (recvs : List RecvResult) (s : ReadState) :
    (readLoop cfg fd recvs s).Spec Effect.IsReading
      (fun r => s.thread.SameButResp r.2.thread) := by
  induction recvs generalizing s with
  | nil =>
      apply (Act.Spec.emit (e := Effect.select fd) trivial).bind
      intro _ _
      exact .pure (Thread.SameButResp.refl _)
  | cons ev rest ih =>
      apply (readRound_spec cfg fd ev s).bind
      intro round hround
      cases hflow : round.1 with
      | goOn => exact (ih round.2).imp (fun _ h => h) (fun _ h => hround.trans h)
      | leave => exact .pure hround
      | leaveAtOnce => exact .pure hround

/-- **`readFromBackend`** selects, receives, parses and destroys, and touches
only the receive buffer. -/
theorem readFromBackend_spec (cfg : BackendConfig) (fd : Nat) (recvs : List RecvResult)
    (t : Thread) (respList : List Resp) :
    (readFromBackend cfg fd recvs t respList).Spec Effect.IsReading
      (fun r => t.SameButResp r.1) := by
  apply (readLoop_spec cfg fd recvs _).bind
  intro last hlast
  have hsame : t.SameButResp last.2.thread := Thread.SameButResp.trans ⟨t.respBuf, 0, rfl⟩ hlast
  refine .pure ?_
  unfold readDone
  cases last.1 with
  | leaveAtOnce => exact hsame
  | goOn => exact hsame.trans ⟨_, 0, rfl⟩
  | leave => exact hsame.trans ⟨_, 0, rfl⟩

/-! ## When a batch returns -/

/-- A turn returns if the reading of its host does. -/
theorem talkTurn_returns {cfg : BackendConfig} {turn : Turn}
    (h : ∀ fd t respList, (readFromBackend cfg fd turn.io.recvs t respList).result.isSome)
    (t : Thread) (respList : List Resp) : ∃ got, (talkTurn cfg turn t respList).result = some got := by
  unfold talkTurn
  simp only
  split_ifs with hlen hconn
  · exact ⟨_, rfl⟩
  · obtain ⟨sent, hsent⟩ :=
      writeLoop_returns (t.staged turn.items).message turn.io.sends turn.io.conn 0
    rw [writeToBackend_bind hsent]
    split_ifs
    · obtain ⟨got, hgot⟩ := Option.isSome_iff_exists.mp (h sent.1 (t.staged turn.items) respList)
      rw [Act.bind_of_some _ hgot]
      exact ⟨_, rfl⟩
    · exact ⟨_, rfl⟩
    · exact ⟨_, rfl⟩
  · exact ⟨_, rfl⟩

/-- **A client's batch returns** if the reading of every host does. -/
theorem talkToBackend_returns {cfg : BackendConfig} {io : Nat → HostIo}
    (h : ∀ a fd t respList, (readFromBackend cfg fd (io a).recvs t respList).result.isSome)
    (originReq : ByteMem) (groups : SortedMap Nat (List Req)) (t : Thread) :
    (talkToBackend cfg originReq groups io t).result.isSome := by
  have hturns : ∀ (turns : List Turn) (t : Thread) (respList : List Resp),
      (∀ turn ∈ turns, ∃ a, turn.io = io a) →
      ∃ got, (talkTurns cfg turns t respList).result = some got := by
    intro turns
    induction turns with
    | nil => exact fun t respList _ => ⟨_, rfl⟩
    | cons turn rest ih =>
        intro t respList hio
        obtain ⟨a, ha⟩ := hio turn List.mem_cons_self
        obtain ⟨got, hgot⟩ := talkTurn_returns (ha ▸ h a) t respList
        rw [talkTurns_of_some hgot]
        exact ih got.1 got.2 (fun turn' hmem => hio turn' (List.mem_cons_of_mem _ hmem))
  obtain ⟨got, hgot⟩ := hturns (reqTurns originReq groups io) t [] (by
    intro turn hturn
    obtain ⟨g, _, rfl⟩ := List.mem_map.mp hturn
    exact ⟨g.1, rfl⟩)
  unfold talkToBackend
  rw [Act.bind_of_some _ hgot]
  rfl

end KvProxy
