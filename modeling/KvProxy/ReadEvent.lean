import KvProxy.Backend
import KvProxy.Hosts

/-!
# A read event of a client connection

`readEvent` and `createReqGroup`.  libevent appends what arrives on a client's
socket to the connection's input buffer and calls `readEvent`, which parses
the whole buffer from its start and, unless more bytes are needed, drains all
of it; a parsed batch is grouped by host, talked over with the hosts, and
answered.

The input buffer is the list of its bytes.  What the event finds outside of
the thread is one `Outside`: the host tables, the memory behind the copied
bytes, an uninitialised local of the parser, the text of the status command,
the length of the async queue, and the hosts.

* `serveBatch_passes` — a batch passes its requests to `createReqGroup` once;
* `readEvent_pushes` — an event queues one batch at most;
* `readEvent_fresh` — an event leaves the parser state of the thread reset.
-/

namespace KvProxy

open MachineInt

/-- The configuration of a proxy; `useBinary` is what `get_conf` says about
the protocol. -/
structure ProxyConfig where
  backend : BackendConfig
  reqBufSize : Nat
  syncStr : List UInt8
  asyncSize : Int
  useBinary : Bool
  reqBufSize_lt : reqBufSize < 2147483648

/-- The default configuration of a binary proxy. -/
def ProxyConfig.default : ProxyConfig where
  backend := .default
  reqBufSize := 1048576
  syncStr := []
  asyncSize := 50000
  useBinary := true
  reqBufSize_lt := BackendConfig.default.respBufSize_lt

/-- `FAST_BUFF_SIZE`. -/
def fastBuffSize : Int := 10240

/-! ## Grouping a batch by host -/

/-- The groups `createReqGroup` fills. -/
structure ReqGroups where
  group : SortedMap Nat (List Req)
  backup : SortedMap Nat (List Req)
  sync : SortedMap Nat (List Req)

/-- `(*group)[alias].push_back(req)`. -/
def pushReq (group : SortedMap Nat (List Req)) (aliasIndex : Nat) (r : Req) :
    SortedMap Nat (List Req) :=
  group.insert aliasIndex (group.getD aliasIndex [] ++ [r])

/-- `strncmp(m + p, text, n) == 0` for a text of length `n`. -/
def strncmpEq (m : ByteMem) : Int → List UInt8 → Bool
  | _, [] => true
  | p, c :: cs => if m p ≠ c then false else if c = 0 then true else strncmpEq m (p + 1) cs

/-- The second half of an iteration: an update also goes to its backup host,
in the sync group if its key starts with `sync_str`. -/
def groupBackup (cfg : ProxyConfig) (hosts : HostTable) (originReq : ByteMem) (r : Req)
    (g : ReqGroups) : ReqGroups :=
  if r.update = true ∧ (hosts.rings .hostsBackup).getSize > 0 then
    let host := (hosts.rings .hostsBackup).find (r.keyBytes originReq)
    if host.2 = 0 then g
    else if strncmpEq originReq r.key cfg.syncStr then { g with sync := pushReq g.sync host.2 r }
    else { g with backup := pushReq g.backup host.2 r }
  else g

/-- One iteration of the loop of `createReqGroup`, on the groups and
`req_list_each`. -/
def groupReq (cfg : ProxyConfig) (hosts : HostTable) (originReq : ByteMem)
    (s : ReqGroups × List Req) (r : Req) : ReqGroups × List Req :=
  if r.each then (groupBackup cfg hosts originReq r s.1, s.2 ++ [r])
  else if r.keyLen = 0 then s
  else
    let ring := if r.update ≠ true ∧ (hosts.rings .hostsRead).getSize > 0 then .hostsRead else .hosts
    let host := (hosts.rings ring).find (r.keyBytes originReq)
    if host.2 = 0 then s
    else
      (groupBackup cfg hosts originReq r { s.1 with group := pushReq s.1.group host.2 r }, s.2)

/-- A request for every host of a group. -/
def pushEach (group : SortedMap Nat (List Req)) (r : Req) : SortedMap Nat (List Req) :=
  group.entries.foldl (fun m e => pushReq m e.1 r) group

/-- `createReqGroup` on the list of parsed requests. -/
def createReqGroup (cfg : ProxyConfig) (hosts : HostTable) (originReq : ByteMem)
    (reqData : List Req) : ReqGroups :=
  let s := reqData.foldl (groupReq cfg hosts originReq) (⟨∅, ∅, ∅⟩, [])
  s.2.foldl
    (fun g r => { g with group := pushEach g.group r, backup := pushEach g.backup r }) s.1

/-! ## The event -/

/-- What an event does that the development speaks about: the requests it
passes to `createReqGroup`, what it does to the hosts, the batch it queues,
and the bytes it sends to the client. -/
inductive ProxyEffect where
  | grouped (requests : List (List UInt8))
  | backend (aliasIndex : Nat) (e : Effect)
  | pushAsync (batch : SortedMap Nat (List Comm))
  | reply (bytes : List UInt8)

/-- What an event finds outside of its thread. -/
structure Outside where
  hosts : HostTable
  memory : ByteMem
  header : MemcachedHeader
  status : List UInt8
  asyncLen : Nat
  groupIo : Nat → HostIo
  syncIo : Nat → HostIo

/-- The state a thread keeps between events. -/
structure Worker where
  thread : Thread
  position : Int
  reqListData : List Req

/-- The batch that is queued for the backup hosts; it owns its bytes. -/
def asyncBatch (buf : ByteMem) (backup : SortedMap Nat (List Req)) : SortedMap Nat (List Comm) :=
  backup.entries.foldl
    (fun m g => m.insert g.1 (g.2.map (fun r => ⟨r.bytes buf, r.ext⟩))) ∅

/-- The batch is queued unless the queue is full; its length is compared as an
`int`. -/
def queueBackup (cfg : ProxyConfig) (out : Outside) (buf : ByteMem)
    (backup : SortedMap Nat (List Req)) : Act ProxyEffect Unit :=
  if backup.entries ≠ [] ∧ int32 out.asyncLen < cfg.asyncSize then
    Act.emit (.pushAsync (asyncBatch buf backup))
  else pure ()

/-- `talkToBackend` in an event. -/
def talkToHosts (cfg : ProxyConfig) (buf : ByteMem) (group : SortedMap Nat (List Req))
    (io : Nat → HostIo) (t : Thread) : Act ProxyEffect Thread :=
  (talkToBackend cfg.backend buf group io t).label (fun e => .backend e.1 e.2)

/-- The sync group, if there is one, is talked over after the group; its
replies take the place of the group's in `client_buf`. -/
def talkToSync (cfg : ProxyConfig) (out : Outside) (buf : ByteMem)
    (sync : SortedMap Nat (List Req)) (t : Thread) : Act ProxyEffect Thread :=
  if sync.entries ≠ [] then talkToHosts cfg buf sync out.syncIo t else pure t

/-- The reply, if it is not empty. -/
def replyToClient (t : Thread) : Act ProxyEffect Unit :=
  if t.clientBufLen > 0 then Act.emit (.reply t.reply) else pure ()

/-- What `readEvent` does with a parsed batch. -/
def serveBatch (cfg : ProxyConfig) (out : Outside) (buf : ByteMem) (reqData : List Req)
    (t : Thread) : Act ProxyEffect Thread := do
  Act.emit (.grouped (reqData.map (fun r => r.bytes buf)))
  let groups := createReqGroup cfg out.hosts buf reqData
  let t ← talkToHosts cfg buf groups.group out.groupIo t
  queueBackup cfg out buf groups.backup
  let t ← talkToSync cfg out buf groups.sync t
  replyToClient t
  pure t

/-- The text of the status command. -/
def statusCmd : List UInt8 := [115, 116, 97, 116, 117, 115]

/-- How an event ends after the parse: a batch is served, an error or a
request to quit only drained, and a batch that is not complete is left in the
buffer.  The parser state is reset in each case. -/
def finishEvent (cfg : ProxyConfig) (out : Outside) (buffer : List UInt8) (bufLen : Int)
    (t : Thread) (code : ExtRet) (reqData : List Req) : Act ProxyEffect (List UInt8 × Worker) :=
  match code with
  | .success => do
      let t ← serveBatch cfg out (ByteMem.ofList buffer out.memory) reqData t
      pure (buffer.drop (uint32 bufLen), ⟨t, 0, []⟩)
  | .again => pure (buffer, ⟨t, 0, []⟩)
  | _ => pure (buffer.drop (uint32 bufLen), ⟨t, 0, []⟩)

/-- `readEvent` on the connection's input buffer: what is left in the buffer,
and the thread.  A buffer that is too long is dropped. -/
def readEvent (cfg : ProxyConfig) (out : Outside) (buffer : List UInt8) (w : Worker) :
    Act ProxyEffect (List UInt8 × Worker) := do
  let bufLen := int32 buffer.length
  if bufLen > fastBuffSize ∧ bufLen > cfg.reqBufSize then
    pure (buffer.drop (uint32 bufLen), w)
  else
    -- `CopyReadBuf` takes an unsigned length and returns what it copied
    let bufLen := int32 (min (uint32 bufLen) buffer.length : Nat)
    let buf := ByteMem.ofList buffer out.memory
    if buf.slice 0 6 = statusCmd ∧ bufLen ≤ 8 then
      Act.emit (.reply out.status)
      pure (buffer.drop (uint32 bufLen), w)
    else
      let parse ← Act.ofOption
        (parseReq cfg.useBinary out.header buf bufLen w.position w.reqListData)
      finishEvent cfg out buffer bufLen w.thread parse.1 parse.2.2

/-! ## Which requests are passed on -/

/-- The requests an effect passes to `createReqGroup`. -/
def ProxyEffect.requests : ProxyEffect → List (List UInt8)
  | .grouped requests => requests
  | _ => []

/-- The requests passed to `createReqGroup` along a trace. -/
def passedRequests (effects : List ProxyEffect) : List (List UInt8) :=
  effects.flatMap ProxyEffect.requests

@[simp] theorem passedRequests_append (xs ys : List ProxyEffect) :
    passedRequests (xs ++ ys) = passedRequests xs ++ passedRequests ys := by
  simp [passedRequests]

/-- A computation that returns and passes exactly these requests. -/
def Passes {α : Type} (x : Act ProxyEffect α) (requests : List (List UInt8)) : Prop :=
  x.result.isSome ∧ passedRequests x.effects = requests

theorem Passes.pure {α : Type} (a : α) : Passes (Pure.pure a) [] := Act.Yields.pure _ a

theorem Passes.bind {α β : Type} {x : Act ProxyEffect α} {f : α → Act ProxyEffect β}
    {requests more : List (List UInt8)} (hx : Passes x requests)
    (hf : ∀ a, x.result = some a → Passes (f a) more) : Passes (x >>= f) (requests ++ more) :=
  Act.Yields.bind hx hf

/-- The reading of every host the event talks to returns. -/
def Outside.HostsReturn (out : Outside) (cfg : ProxyConfig) : Prop :=
  ∀ a fd t respList,
    (readFromBackend cfg.backend fd (out.groupIo a).recvs t respList).result.isSome ∧
    (readFromBackend cfg.backend fd (out.syncIo a).recvs t respList).result.isSome

/-- A computation that passes nothing on, whether it returns or not. -/
def Quiet {α : Type} (x : Act ProxyEffect α) : Prop :=
  x.Spec (fun e => e.requests = []) (fun _ => True)

theorem Quiet.passedRequests {α : Type} {x : Act ProxyEffect α} (h : Quiet x) :
    passedRequests x.effects = [] :=
  List.flatMap_eq_nil_iff.mpr h.effects

theorem talkToHosts_quiet (cfg : ProxyConfig) (buf : ByteMem) (group : SortedMap Nat (List Req))
    (io : Nat → HostIo) (t : Thread) : Quiet (talkToHosts cfg buf group io t) := by
  refine ⟨?_, fun _ _ => trivial⟩
  intro e he
  obtain ⟨x, _, rfl⟩ := List.mem_map.mp he
  rfl

/-! What a batch comes to, for a reading of its effects that passes over what is sent to
the hosts and to the client. -/

section Yields

variable {γ : Type*} {f : ProxyEffect → List γ} (hbackend : ∀ a e, f (.backend a e) = [])

include hbackend

theorem talkToHosts_yields {cfg : ProxyConfig} {io : Nat → HostIo}
    (h : ∀ a fd t respList,
      (readFromBackend cfg.backend fd (io a).recvs t respList).result.isSome)
    (buf : ByteMem) (group : SortedMap Nat (List Req)) (t : Thread) :
    (talkToHosts cfg buf group io t).Yields f [] := by
  refine ⟨talkToBackend_returns h buf group t, List.flatMap_eq_nil_iff.mpr fun e he => ?_⟩
  obtain ⟨x, _, rfl⟩ := List.mem_map.mp he
  exact hbackend _ _

theorem talkToSync_yields {cfg : ProxyConfig} {out : Outside} (h : out.HostsReturn cfg)
    (buf : ByteMem) (sync : SortedMap Nat (List Req)) (t : Thread) :
    (talkToSync cfg out buf sync t).Yields f [] := by
  unfold talkToSync
  split_ifs
  · exact talkToHosts_yields hbackend (fun a fd t respList => (h a fd t respList).2) buf sync t
  · exact .pure f _

omit hbackend in
theorem replyToClient_yields (hreply : ∀ bytes, f (.reply bytes) = []) (t : Thread) :
    (replyToClient t).Yields f [] := by
  unfold replyToClient
  split_ifs
  · have hemit := Act.Yields.emit f (.reply t.reply)
    rwa [hreply] at hemit
  · exact .pure f _

/-- **A batch** comes to what its requests and its backup batch come to. -/
theorem serveBatch_yields (hreply : ∀ bytes, f (.reply bytes) = []) {cfg : ProxyConfig}
    {out : Outside} (h : out.HostsReturn cfg) (buf : ByteMem) (reqData : List Req) (t : Thread) :
    (serveBatch cfg out buf reqData t).Yields f
      (f (.grouped (reqData.map (fun r => r.bytes buf))) ++
        (queueBackup cfg out buf (createReqGroup cfg out.hosts buf reqData).backup).effects.flatMap
          f) := by
  have hqueue : (queueBackup cfg out buf (createReqGroup cfg out.hosts buf reqData).backup).Yields f
      ((queueBackup cfg out buf (createReqGroup cfg out.hosts buf reqData).backup).effects.flatMap
        f) := by
    refine ⟨?_, rfl⟩
    unfold queueBackup
    split_ifs <;> rfl
  have hrest : ∀ t', (do
      queueBackup cfg out buf (createReqGroup cfg out.hosts buf reqData).backup
      let t ← talkToSync cfg out buf (createReqGroup cfg out.hosts buf reqData).sync t'
      replyToClient t
      pure t : Act ProxyEffect Thread).Yields f
        ((queueBackup cfg out buf (createReqGroup cfg out.hosts buf reqData).backup).effects.flatMap
          f) := by
    intro t'
    have hbehind := hqueue.bind (fun _ _ =>
      (talkToSync_yields hbackend h buf (createReqGroup cfg out.hosts buf reqData).sync t').bind
        (fun t'' _ => (replyToClient_yields hreply t'').bind
          (fun _ _ => Act.Yields.pure f t'')))
    rwa [List.append_nil, List.append_nil, List.append_nil] at hbehind
  have htalk := talkToHosts_yields hbackend (fun a fd t respList => (h a fd t respList).1) buf
    (createReqGroup cfg out.hosts buf reqData).group t
  exact (Act.Yields.emit f _).bind (fun _ _ => htalk.bind (fun t' _ => hrest t'))

end Yields

/-- **A batch** passes its requests to `createReqGroup`, once and in order. -/
theorem serveBatch_passes {cfg : ProxyConfig} {out : Outside} (h : out.HostsReturn cfg)
    (buf : ByteMem) (reqData : List Req) (t : Thread) :
    Passes (serveBatch cfg out buf reqData t) (reqData.map (fun r => r.bytes buf)) := by
  have hbatch := serveBatch_yields (f := ProxyEffect.requests) (fun _ _ => rfl) (fun _ => rfl) h
    buf reqData t
  have hqueue : (queueBackup cfg out buf
      (createReqGroup cfg out.hosts buf reqData).backup).effects.flatMap
        ProxyEffect.requests = [] := by
    unfold queueBackup
    split_ifs <;> rfl
  rw [hqueue, List.append_nil] at hbatch
  exact hbatch

/-- The length of what an event has copied from the input buffer. -/
def copiedLen (buffer : List UInt8) : Int :=
  int32 (min (uint32 (int32 buffer.length)) buffer.length : Nat)

/-- The requests of a parse that ended in success. -/
def parsedBatch : Option (ExtRet × Int × List Req) → List Req
  | some (.success, _, items) => items
  | _ => []

/-- The requests an event passes to `createReqGroup`, with their places in the
buffer. -/
def passedItems (cfg : ProxyConfig) (out : Outside) (buffer : List UInt8) (w : Worker) : List Req :=
  if int32 buffer.length > fastBuffSize ∧ int32 buffer.length > cfg.reqBufSize then []
  else if (ByteMem.ofList buffer out.memory).slice 0 6 = statusCmd ∧ copiedLen buffer ≤ 8 then []
  else
    parsedBatch (parseReq cfg.useBinary out.header (ByteMem.ofList buffer out.memory)
      (copiedLen buffer) w.position w.reqListData)

/-- The second half of a batch passes nothing on. -/
theorem serveBatch_rest_quiet (cfg : ProxyConfig) (out : Outside) (buf : ByteMem)
    (groups : ReqGroups) (t : Thread) :
    Quiet (do
      let t ← talkToHosts cfg buf groups.group out.groupIo t
      queueBackup cfg out buf groups.backup
      let t ← talkToSync cfg out buf groups.sync t
      replyToClient t
      pure t) := by
  apply (talkToHosts_quiet cfg buf groups.group out.groupIo t).bind
  intro t _
  have hqueue : Quiet (queueBackup cfg out buf groups.backup) := by
    unfold queueBackup
    split_ifs
    · exact .emit rfl
    · exact .pure trivial
  have hsync : Quiet (talkToSync cfg out buf groups.sync t) := by
    unfold talkToSync
    split_ifs
    · exact talkToHosts_quiet cfg buf groups.sync out.syncIo t
    · exact .pure trivial
  apply hqueue.bind
  intro _ _
  apply hsync.bind
  intro t _
  have hreply : Quiet (replyToClient t) := by
    unfold replyToClient
    split_ifs
    · exact .emit rfl
    · exact .pure trivial
  apply hreply.bind
  intro _ _
  exact .pure trivial

theorem passedRequests_serveBatch (cfg : ProxyConfig) (out : Outside) (buf : ByteMem)
    (reqData : List Req) (t : Thread) :
    passedRequests (serveBatch cfg out buf reqData t).effects =
      reqData.map (fun r => r.bytes buf) := by
  have hrest := (serveBatch_rest_quiet cfg out buf (createReqGroup cfg out.hosts buf reqData)
    t).passedRequests
  unfold serveBatch
  rw [Act.emit_bind]
  unfold passedRequests at hrest ⊢
  rw [List.flatMap_cons, hrest, List.append_nil]
  rfl

/-- What an event passes on once the parser has run, or not returned. -/
theorem passedRequests_parsed (cfg : ProxyConfig) (out : Outside) (buffer : List UInt8)
    (bufLen : Int) (t : Thread) (parse : Option (ExtRet × Int × List Req)) :
    passedRequests (Act.ofOption parse >>= fun r =>
        finishEvent cfg out buffer bufLen t r.1 r.2.2).effects =
      (parsedBatch parse).map (fun r => r.bytes (ByteMem.ofList buffer out.memory)) := by
  cases parse with
  | none => rfl
  | some r =>
      obtain ⟨code, pos, items⟩ := r
      rw [Act.bind_of_some _ (Act.ofOption_result _)]
      cases code with
      | success =>
          have hserve := passedRequests_serveBatch cfg out (ByteMem.ofList buffer out.memory) items t
          rw [Act.ofOption_effects, List.nil_append]
          unfold finishEvent
          dsimp only
          cases hres : (serveBatch cfg out (ByteMem.ofList buffer out.memory) items t).result with
          | none =>
              rw [Act.bind_of_none _ hres]
              exact hserve
          | some t' =>
              rw [Act.bind_of_some _ hres, Act.pure_effects, List.append_nil]
              exact hserve
      | again => rfl
      | error => rfl
      | ignore => rfl

/-- `readEvent` with the copied length by its name. -/
theorem readEvent_eq (cfg : ProxyConfig) (out : Outside) (buffer : List UInt8) (w : Worker) :
    readEvent cfg out buffer w =
      if int32 buffer.length > fastBuffSize ∧ int32 buffer.length > cfg.reqBufSize then
        pure (buffer.drop (uint32 (int32 buffer.length)), w)
      else if (ByteMem.ofList buffer out.memory).slice 0 6 = statusCmd ∧ copiedLen buffer ≤ 8 then
        Act.emit (.reply out.status) >>= fun _ =>
          pure (buffer.drop (uint32 (copiedLen buffer)), w)
      else
        Act.ofOption (parseReq cfg.useBinary out.header (ByteMem.ofList buffer out.memory)
            (copiedLen buffer) w.position w.reqListData) >>= fun parse =>
          finishEvent cfg out buffer (copiedLen buffer) w.thread parse.1 parse.2.2 := by
  unfold readEvent copiedLen
  rfl

/-- **What an event passes on**, also one that never returns. -/
theorem passedRequests_readEvent (cfg : ProxyConfig) (out : Outside) (buffer : List UInt8)
    (w : Worker) :
    passedRequests (readEvent cfg out buffer w).effects =
      (passedItems cfg out buffer w).map (fun r => r.bytes (ByteMem.ofList buffer out.memory)) := by
  rw [readEvent_eq]
  unfold passedItems
  by_cases hlong : int32 buffer.length > fastBuffSize ∧ int32 buffer.length > cfg.reqBufSize
  · rw [if_pos hlong, if_pos hlong]
    rfl
  · rw [if_neg hlong, if_neg hlong]
    by_cases hstatus : (ByteMem.ofList buffer out.memory).slice 0 6 = statusCmd ∧
        copiedLen buffer ≤ 8
    · rw [if_pos hstatus, if_pos hstatus]
      rfl
    · rw [if_neg hstatus, if_neg hstatus, passedRequests_parsed]

theorem copiedLen_eq {buffer : List UInt8} (h : buffer.length < 2147483648) :
    copiedLen buffer = buffer.length := by
  have hint := int32_eq_self (x := (buffer.length : Int)) (by omega) (by omega)
  have hunsigned := uint32_eq_self (x := (buffer.length : Int)) (by omega) (by omega)
  have hmin : (min (uint32 (buffer.length : Int)) buffer.length : Nat) = buffer.length := by omega
  rw [copiedLen, hint, hmin, hint]

/-- An event keeps the buffer or drains it. -/
theorem readEvent_left {cfg : ProxyConfig} {out : Outside} {buffer : List UInt8} {w : Worker}
    {got : List UInt8 × Worker} (hsmall : buffer.length < 2147483648)
    (h : (readEvent cfg out buffer w).result = some got) : got.1 = buffer ∨ got.1 = [] := by
  have hint := int32_eq_self (x := (buffer.length : Int)) (by omega) (by omega)
  have hdrop : buffer.drop (uint32 (buffer.length : Int)) = [] := by
    apply List.drop_eq_nil_of_le
    have := uint32_eq_self (x := (buffer.length : Int)) (by omega) (by omega)
    omega
  rw [readEvent_eq, copiedLen_eq hsmall, hint] at h
  split_ifs at h
  · obtain rfl := Option.some.inj h
    exact Or.inr hdrop
  · obtain ⟨_, _, hlast, _⟩ := Act.bind_result_some h
    obtain rfl := Option.some.inj hlast
    exact Or.inr hdrop
  · obtain ⟨parse, _, hlast, _⟩ := Act.bind_result_some h
    cases hcode : parse.1 with
    | success =>
        rw [hcode] at hlast
        obtain ⟨t, _, hend, _⟩ := Act.bind_result_some hlast
        obtain rfl := Option.some.inj hend
        exact Or.inr hdrop
    | again =>
        rw [hcode] at hlast
        obtain rfl := Option.some.inj hlast
        exact Or.inl rfl
    | error =>
        rw [hcode] at hlast
        obtain rfl := Option.some.inj hlast
        exact Or.inr hdrop
    | ignore =>
        rw [hcode] at hlast
        obtain rfl := Option.some.inj hlast
        exact Or.inr hdrop

/-- What an event passes on is what the parser makes of its buffer. -/
theorem mem_parsedBatch {cfg : ProxyConfig} {out : Outside} {buffer : List UInt8} {w : Worker}
    {r : Req} (hsmall : buffer.length < 2147483648) (hpos : w.position = 0)
    (hlist : w.reqListData = []) (h : r ∈ passedItems cfg out buffer w) :
    r ∈ parsedBatch (parseReq cfg.useBinary out.header (ByteMem.ofList buffer out.memory)
      buffer.length 0 []) := by
  unfold passedItems at h
  rw [copiedLen_eq hsmall, hpos, hlist] at h
  split_ifs at h
  · simp at h
  · simp at h
  · exact h

/-! ## The batch of an event -/

/-- The batches an effect queues. -/
def ProxyEffect.pushed : ProxyEffect → List (SortedMap Nat (List Comm))
  | .pushAsync batch => [batch]
  | _ => []

/-- An event queues one batch at most. -/
theorem readEvent_pushes (cfg : ProxyConfig) (out : Outside) (buffer : List UInt8) (w : Worker) :
    (readEvent cfg out buffer w).AtMost ProxyEffect.pushed 1 := by
  have hnone : ∀ {α : Type} (a : α), (pure a : Act ProxyEffect α).AtMost ProxyEffect.pushed 0 :=
    fun _ => .of_none (by simp)
  have htalk : ∀ group io t,
      (talkToHosts cfg (ByteMem.ofList buffer out.memory) group io t).AtMost
        ProxyEffect.pushed 0 := by
    intro group io t
    refine .of_none fun e he => ?_
    obtain ⟨x, _, rfl⟩ := List.mem_map.mp he
    rfl
  have hqueue : ∀ backup, (queueBackup cfg out (ByteMem.ofList buffer out.memory) backup).AtMost
      ProxyEffect.pushed 1 := by
    intro backup
    unfold queueBackup
    split_ifs
    · exact Nat.le_refl 1
    · exact (hnone ()).mono (Nat.zero_le 1)
  have hsync : ∀ sync t, (talkToSync cfg out (ByteMem.ofList buffer out.memory) sync t).AtMost
      ProxyEffect.pushed 0 := by
    intro sync t
    unfold talkToSync
    split_ifs
    · exact htalk sync out.syncIo t
    · exact hnone t
  have hreply : ∀ t, (replyToClient t).AtMost ProxyEffect.pushed 0 := by
    intro t
    unfold replyToClient
    split_ifs
    · exact .of_none (by simp [ProxyEffect.pushed])
    · exact hnone ()
  have hserve : ∀ reqs t, (serveBatch cfg out (ByteMem.ofList buffer out.memory) reqs t).AtMost
      ProxyEffect.pushed 1 := by
    intro reqs t
    have hgrouped : (Act.emit (.grouped (reqs.map (fun r => r.bytes
        (ByteMem.ofList buffer out.memory))))).AtMost ProxyEffect.pushed 0 :=
      .of_none (by simp [ProxyEffect.pushed])
    exact hgrouped.bind fun _ => (htalk _ _ _).bind fun _ => (hqueue _).bind fun _ =>
      (hsync _ _).bind fun t => (hreply t).bind fun _ => hnone t
  have hfinish : ∀ parse : ExtRet × Int × List Req,
      (finishEvent cfg out buffer (copiedLen buffer) w.thread parse.1 parse.2.2).AtMost
        ProxyEffect.pushed 1 := by
    intro parse
    cases parse.1 with
    | success => exact (hserve _ _).bind fun t => hnone _
    | again => exact (hnone _).mono (Nat.zero_le 1)
    | error => exact (hnone _).mono (Nat.zero_le 1)
    | ignore => exact (hnone _).mono (Nat.zero_le 1)
  rw [readEvent_eq]
  split_ifs
  · exact (hnone _).mono (Nat.zero_le 1)
  · have hstatus : (Act.emit (.reply out.status)).AtMost ProxyEffect.pushed 0 :=
      .of_none (by simp [ProxyEffect.pushed])
    exact (hstatus.bind fun _ => hnone _).mono (Nat.zero_le 1)
  · have hparse : (Act.ofOption (parseReq cfg.useBinary out.header
        (ByteMem.ofList buffer out.memory) (copiedLen buffer) w.position w.reqListData) :
        Act ProxyEffect _).AtMost ProxyEffect.pushed 0 := .of_none (by simp)
    exact (hparse.bind hfinish).mono (Nat.le_refl 1)

/-! ## The parser state between events -/

/-- The parser state as every event should find it. -/
def Worker.Fresh (w : Worker) : Prop := w.position = 0 ∧ w.reqListData = []

/-- **An event leaves the parser state reset**, whatever it received. -/
theorem readEvent_fresh (cfg : ProxyConfig) (out : Outside) (buffer : List UInt8) {w : Worker}
    (h : w.Fresh) :
    (readEvent cfg out buffer w).Spec (fun _ => True) (fun r => r.2.Fresh) := by
  unfold readEvent
  simp only
  split_ifs
  · exact .pure h
  · apply (Act.Spec.emit trivial).bind
    intro _ _
    exact .pure h
  · apply (Act.Spec.ofOption (P := fun _ => True) (fun _ _ => trivial)).bind
    intro parse _
    cases parse.1 with
    | success =>
        have hserve : (serveBatch cfg out (ByteMem.ofList buffer out.memory) parse.2.2
            w.thread).Spec (fun _ => True) (fun _ => True) := ⟨fun _ _ => trivial, fun _ _ => trivial⟩
        apply hserve.bind
        intro t _
        exact .pure ⟨rfl, rfl⟩
    | again => exact .pure ⟨rfl, rfl⟩
    | error => exact .pure ⟨rfl, rfl⟩
    | ignore => exact .pure ⟨rfl, rfl⟩

/-- An event whose bytes fit the request buffer and are not the status command
parses them. -/
theorem readEvent_of_fits {cfg : ProxyConfig} {out : Outside} {buffer : List UInt8} {w : Worker}
    (hw : w.Fresh) (hlen : buffer.length ≤ cfg.reqBufSize)
    (hstatus : (ByteMem.ofList buffer out.memory).slice 0 6 ≠ statusCmd)
    {parse : ExtRet × Int × List Req}
    (hparse : parseReq cfg.useBinary out.header (ByteMem.ofList buffer out.memory) buffer.length
      0 [] = some parse) :
    readEvent cfg out buffer w =
      finishEvent cfg out buffer buffer.length w.thread parse.1 parse.2.2 := by
  have hsize := cfg.reqBufSize_lt
  have hint := int32_eq_self (x := (buffer.length : Int)) (by omega) (by omega)
  have hroom : ¬ ((buffer.length : Int) > fastBuffSize ∧ (buffer.length : Int) > cfg.reqBufSize) := by
    omega
  rw [readEvent_eq, copiedLen_eq (by omega), hint, if_neg hroom, if_neg (fun h => hstatus h.1),
    hw.1, hw.2, hparse]
  exact Act.bind_of_some _ rfl

end KvProxy
