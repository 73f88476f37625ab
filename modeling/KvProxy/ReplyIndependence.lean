import KvProxy.MergedReply
import KvProxy.ReadEvent

/-!
# The backup hosts and the reply

`readEvent` talks over a batch with the default or read hosts, queues the
updates for the async thread, and talks over those with `sync_str` in front of
their key with the backup hosts itself.  Both talks go through `talkToBackend`,
which empties `client_buf` and writes what it has read there; the reply is what
`client_buf` holds in the end.

* `repliedBytes_serveBatch` — the reply to a batch;
* `sync_eq_nil_iff` — when a batch has a sync group;
* `reply_independent_iff` — the reply depends on the backup hosts exactly when
  there is one.
-/

namespace KvProxy

open MachineInt

/-- The bytes an effect adds to the client's write buffer. -/
def ProxyEffect.replied : ProxyEffect → List UInt8
  | .reply bytes => bytes
  | _ => []

/-- The bytes added to the client's write buffer along a trace. -/
def repliedBytes (effects : List ProxyEffect) : List UInt8 := effects.flatMap ProxyEffect.replied

/-- The backup hosts as an event can notice them: what the sync group meets, and
how many batches the async thread has not sent yet. -/
structure BackupBehaviour where
  asyncLen : Nat
  syncIo : Nat → HostIo

/-- The outside with the given hosts. -/
def Outside.withHosts (out : Outside) (groupIo : Nat → HostIo) (backup : BackupBehaviour) :
    Outside :=
  { out with groupIo := groupIo, asyncLen := backup.asyncLen, syncIo := backup.syncIo }

/-- `readEvent` accepts the buffer as a batch of these requests. -/
structure Accepted (cfg : ProxyConfig) (out : Outside) (buffer : List UInt8) (items : List Req) :
    Prop where
  fits : ¬ (int32 buffer.length > fastBuffSize ∧ int32 buffer.length > cfg.reqBufSize)
  noStatus : ¬ ((ByteMem.ofList buffer out.memory).slice 0 6 = statusCmd ∧ copiedLen buffer ≤ 8)
  parsed : ∃ pos, parseReq cfg.useBinary out.header (ByteMem.ofList buffer out.memory)
    (copiedLen buffer) 0 [] = some (.success, pos, items)

/-- Whatever the thread was left with and whatever the default and read hosts
do, any two behaviours of the backup hosts lead to the same reply. -/
def ReplyIndependent (cfg : ProxyConfig) (out : Outside) (buffer : List UInt8) : Prop :=
  ∀ w : Worker, w.Fresh → ∀ groupIo backup backup',
    repliedBytes (readEvent cfg (out.withHosts groupIo backup) buffer w).effects =
      repliedBytes (readEvent cfg (out.withHosts groupIo backup') buffer w).effects

/-- An update that goes to a backup host before the client is answered: its key
starts with `sync_str`, and it has a default host and a backup host. -/
def SyncReplicated (cfg : ProxyConfig) (hosts : HostTable) (originReq : ByteMem) (r : Req) : Prop :=
  r.update = true ∧ strncmpEq originReq r.key cfg.syncStr = true ∧
    (r.each = true ∨
      r.keyLen ≠ 0 ∧ ((hosts.rings .hosts).find (r.keyBytes originReq)).2 ≠ 0) ∧
    (hosts.rings .hostsBackup).getSize > 0 ∧
    ((hosts.rings .hostsBackup).find (r.keyBytes originReq)).2 ≠ 0

instance (cfg : ProxyConfig) (hosts : HostTable) (originReq : ByteMem) (r : Req) :
    Decidable (SyncReplicated cfg hosts originReq r) :=
  inferInstanceAs (Decidable (_ ∧ _))

/-! ## The sync group -/

theorem pushReq_ne_nil (group : SortedMap Nat (List Req)) (a : Nat) (r : Req) :
    (pushReq group a r).entries ≠ [] := by
  intro hnil
  have hlookup : (pushReq group a r).lookup a = some (group.getD a [] ++ [r]) := by
    rw [pushReq, SortedMap.lookup_insert, if_pos rfl]
  have hmem := SortedMap.lookup_eq_some_iff.mp hlookup
  rw [SortedMap.mem_def, hnil] at hmem
  simp at hmem

section Sync

variable (cfg : ProxyConfig) (hosts : HostTable) (originReq : ByteMem)

theorem groupBackup_sync_eq_nil_iff (r : Req) (g : ReqGroups) :
    (groupBackup cfg hosts originReq r g).sync.entries = [] ↔
      g.sync.entries = [] ∧ ¬ (r.update = true ∧ strncmpEq originReq r.key cfg.syncStr = true ∧
        (hosts.rings .hostsBackup).getSize > 0 ∧
        ((hosts.rings .hostsBackup).find (r.keyBytes originReq)).2 ≠ 0) := by
  unfold groupBackup
  dsimp only
  split_ifs with hupdate hhost hsync
  · simp [hhost]
  · simp [pushReq_ne_nil, hupdate, hhost, hsync]
  · simp [hsync]
  · simp only [not_and] at hupdate
    constructor
    · intro hnil
      exact ⟨hnil, fun h => hupdate h.1 h.2.2.1⟩
    · exact And.left

/-- One request and the sync group. -/
theorem groupReq_sync_eq_nil_iff (s : ReqGroups × List Req) (r : Req) :
    (groupReq cfg hosts originReq s r).1.sync.entries = [] ↔
      s.1.sync.entries = [] ∧ ¬ SyncReplicated cfg hosts originReq r := by
  unfold groupReq SyncReplicated
  dsimp only
  by_cases hupdate : r.update = true
  · -- an update is looked up in the default ring
    have hring : ¬ (r.update ≠ true ∧ (hosts.rings .hostsRead).getSize > 0) := by simp [hupdate]
    rw [if_neg hring]
    split_ifs with heach hkey hhost
    · rw [groupBackup_sync_eq_nil_iff]
      simp [heach]
    · simp [heach, hkey]
    · simp [heach, hhost]
    · rw [groupBackup_sync_eq_nil_iff]
      simp [heach, hkey, hhost]
  · split_ifs <;> simp [groupBackup, hupdate]

theorem foldl_groupReq_sync_eq_nil_iff (reqs : List Req) (s : ReqGroups × List Req) :
    (reqs.foldl (groupReq cfg hosts originReq) s).1.sync.entries = [] ↔
      s.1.sync.entries = [] ∧ ∀ r ∈ reqs, ¬ SyncReplicated cfg hosts originReq r := by
  induction reqs generalizing s with
  | nil => simp
  | cons r reqs ih =>
      rw [List.foldl_cons, ih, groupReq_sync_eq_nil_iff, List.forall_mem_cons, and_assoc]

/-- **When a batch has no sync group.** -/
theorem sync_eq_nil_iff (reqs : List Req) :
    (createReqGroup cfg hosts originReq reqs).sync.entries = [] ↔
      ∀ r ∈ reqs, ¬ SyncReplicated cfg hosts originReq r := by
  have heach : ∀ (each : List Req) (g : ReqGroups), (each.foldl (fun g r =>
      { g with group := pushEach g.group r, backup := pushEach g.backup r }) g).sync = g.sync := by
    intro each
    induction each with
    | nil => exact fun g => rfl
    | cons r each ih => exact fun g => ih _
  unfold createReqGroup
  simp only [heach]
  rw [foldl_groupReq_sync_eq_nil_iff]
  simp

end Sync

/-! ## The reply -/

@[simp] theorem repliedBytes_nil : repliedBytes [] = [] := rfl

@[simp] theorem repliedBytes_cons (e : ProxyEffect) (es : List ProxyEffect) :
    repliedBytes (e :: es) = e.replied ++ repliedBytes es := by
  simp [repliedBytes]

@[simp] theorem repliedBytes_append (xs ys : List ProxyEffect) :
    repliedBytes (xs ++ ys) = repliedBytes xs ++ repliedBytes ys := by
  simp [repliedBytes]

theorem repliedBytes_talkToHosts (cfg : ProxyConfig) (buf : ByteMem)
    (group : SortedMap Nat (List Req)) (io : Nat → HostIo) (t : Thread) :
    repliedBytes (talkToHosts cfg buf group io t).effects = [] := by
  unfold talkToHosts repliedBytes
  rw [Act.label_effects, List.flatMap_eq_nil_iff]
  intro e he
  obtain ⟨x, _, rfl⟩ := List.mem_map.mp he
  rfl

theorem repliedBytes_talkToSync (cfg : ProxyConfig) (out : Outside) (buf : ByteMem)
    (sync : SortedMap Nat (List Req)) (t : Thread) :
    repliedBytes (talkToSync cfg out buf sync t).effects = [] := by
  unfold talkToSync
  split_ifs
  · exact repliedBytes_talkToHosts cfg buf sync out.syncIo t
  · rfl

theorem repliedBytes_queueBackup_bind {α : Type} (cfg : ProxyConfig) (out : Outside) (buf : ByteMem)
    (backup : SortedMap Nat (List Req)) (f : Unit → Act ProxyEffect α) :
    repliedBytes (queueBackup cfg out buf backup >>= f).effects = repliedBytes (f ()).effects := by
  unfold queueBackup
  split_ifs
  · rw [Act.emit_bind]
    rfl
  · rw [Act.pure_bind]

/-- What the client gets of a thread: `client_buf`, if the talks have returned. -/
def answerOf : Option Thread → List UInt8
  | some t => if t.clientBufLen > 0 then t.reply else []
  | none => []

theorem repliedBytes_replyToClient (t : Thread) :
    repliedBytes (replyToClient t >>= fun _ => (pure t : Act ProxyEffect Thread)).effects =
      answerOf (some t) := by
  unfold replyToClient
  by_cases hlen : t.clientBufLen > 0
  · rw [if_pos hlen, Act.emit_bind]
    simp [ProxyEffect.replied, answerOf, hlen]
  · rw [if_neg hlen, Act.pure_bind]
    simp [answerOf, hlen]

/-- **The reply to a batch** is what the last talk has left in `client_buf`. -/
theorem repliedBytes_serveBatch (cfg : ProxyConfig) (out : Outside) (buf : ByteMem)
    (reqData : List Req) (t : Thread) :
    repliedBytes (serveBatch cfg out buf reqData t).effects =
      answerOf ((talkToHosts cfg buf (createReqGroup cfg out.hosts buf reqData).group out.groupIo
        t).result.bind (fun t' =>
          (talkToSync cfg out buf (createReqGroup cfg out.hosts buf reqData).sync t').result)) := by
  unfold serveBatch
  simp only [Act.emit_bind, repliedBytes_cons, ProxyEffect.replied, List.nil_append]
  cases hgroup : (talkToHosts cfg buf (createReqGroup cfg out.hosts buf reqData).group out.groupIo
      t).result with
  | none =>
      rw [Act.bind_of_none _ hgroup]
      exact repliedBytes_talkToHosts cfg buf _ out.groupIo t
  | some t' =>
      rw [Act.bind_of_some _ hgroup, repliedBytes_append, repliedBytes_talkToHosts, List.nil_append,
        Option.bind_some, repliedBytes_queueBackup_bind]
      cases hsync : (talkToSync cfg out buf (createReqGroup cfg out.hosts buf reqData).sync
          t').result with
      | none =>
          rw [Act.bind_of_none _ hsync]
          exact repliedBytes_talkToSync cfg out buf _ t'
      | some t'' =>
          rw [Act.bind_of_some _ hsync, repliedBytes_append, repliedBytes_talkToSync,
            List.nil_append]
          exact repliedBytes_replyToClient t''

/-- An accepted buffer is served. -/
theorem repliedBytes_readEvent {cfg : ProxyConfig} {out : Outside} {buffer : List UInt8}
    {items : List Req} (h : Accepted cfg out buffer items) {w : Worker} (hw : w.Fresh) :
    repliedBytes (readEvent cfg out buffer w).effects =
      repliedBytes (serveBatch cfg out (ByteMem.ofList buffer out.memory) items
        w.thread).effects := by
  obtain ⟨pos, hparse⟩ := h.parsed
  obtain ⟨hpos, hlist⟩ := hw
  have hevent : readEvent cfg out buffer w =
      serveBatch cfg out (ByteMem.ofList buffer out.memory) items w.thread >>= fun t =>
        pure (buffer.drop (uint32 (copiedLen buffer)), ⟨t, 0, []⟩) := by
    rw [readEvent_eq, if_neg h.fits, if_neg h.noStatus, hpos, hlist, hparse,
      Act.bind_of_some _ rfl]
    rfl
  rw [hevent]
  cases hserve : (serveBatch cfg out (ByteMem.ofList buffer out.memory) items w.thread).result with
  | none => rw [Act.bind_of_none _ hserve]
  | some t =>
      rw [Act.bind_of_some _ hserve]
      simp

/-! ## Hosts that do not answer, and one that does -/

/-- No connection to any host. -/
def unreachable : Nat → HostIo := fun _ => ⟨0, [], []⟩

/-- The answer to an update. -/
def storedPacket : Packet magicRes where
  bytes := packetHeader 0x81 0x01 0 0 0
  header_le := by decide
  length_lt := by decide
  magic_eq := rfl
  body_eq := rfl

/-- One host takes a message of up to `n + 1` bytes and answers; no other can be
reached. -/
def onlyAnswering (a n : Nat) : Nat → HostIo := fun b =>
  if b = a then ⟨1, [.sent n], [.data storedPacket.bytes false ⟨0, 0, 0, 0⟩]⟩ else ⟨0, [], []⟩

theorem Thread.backendBufLen_count (stLimit : Nat) (t : Thread) (isFail : Bool) (a : Nat) :
    (t.count stLimit isFail a).backendBufLen = t.backendBufLen := by
  unfold Thread.count
  split_ifs <;> rfl

/-- A turn without a connection leaves its request in the send buffer. -/
theorem talkTurn_unreachable (cfg : BackendConfig) {turn : Turn} (hconn : turn.io.conn = 0)
    (t : Thread) (respList : List Resp) :
    ∃ t', (talkTurn cfg turn t respList).result = some (t', respList) ∧ t'.respBuf = t.respBuf ∧
      (t.backendBufLen ≠ 0 → t'.backendBufLen ≠ 0) := by
  have hstaged := staged_backendBufLen t turn.items
  unfold talkTurn
  simp only
  split_ifs with hlen
  · rw [countFail_bind]
    refine ⟨_, rfl, Thread.respBuf_count _ _ _ _, ?_⟩
    intro _
    rw [Thread.backendBufLen_count]
    exact hlen
  · exact ⟨_, rfl, rfl, fun h => absurd hstaged (by omega)⟩

theorem talkTurns_unreachable (cfg : BackendConfig) {turns : List Turn}
    (hconn : ∀ turn ∈ turns, turn.io.conn = 0) (t : Thread) (respList : List Resp) :
    ∃ t', (talkTurns cfg turns t respList).result = some (t', respList) ∧ t'.respBuf = t.respBuf ∧
      (t.backendBufLen ≠ 0 → t'.backendBufLen ≠ 0) := by
  induction turns generalizing t with
  | nil => exact ⟨t, rfl, rfl, id⟩
  | cons turn rest ih =>
      obtain ⟨u, hturn, hbuf, hlen⟩ :=
        talkTurn_unreachable cfg (hconn turn List.mem_cons_self) t respList
      obtain ⟨t', hrest, hbuf', hlen'⟩ := ih (fun x hx => hconn x (List.mem_cons_of_mem _ hx)) u
      rw [talkTurns_of_some hturn]
      exact ⟨t', hrest, hbuf'.trans hbuf, fun h => hlen' (hlen h)⟩

theorem received_stored {cfg : BackendConfig} (hresp : 1048576 ≤ cfg.respBufSize) (a n : Nat) :
    Received cfg (onlyAnswering a n a).recvs [storedPacket] where
  delivers := by
    rw [onlyAnswering, if_pos rfl]
    exact .piece (by decide) (.idle (by simp))
  quiet := by decide
  room := by
    have hlen : (Packet.concat [storedPacket]).length = 24 := by decide
    omega
  cuts := by
    rw [onlyAnswering, if_pos rfl]
    show CutsPassed [storedPacket] 0 [storedPacket.bytes]
    decide

/-- A message that is taken at once is sent whole. -/
theorem readsFrom_onlyAnswering (a : Nat) {n : Nat} {t : Thread} {items : List Item}
    (hlen : (t.staged items).backendBufLen ≠ 0) (hn : (t.staged items).backendBufLen ≤ n) :
    readsFrom ⟨a, items, onlyAnswering a n a⟩ t = some 1 := by
  have hmsg : (t.staged items).message.length = (t.staged items).backendBufLen :=
    ByteMem.length_slice _ _ _
  have hall : (t.staged items).message.take (n + 1) = (t.staged items).message :=
    List.take_of_length_le (by omega)
  simp [readsFrom, onlyAnswering, hlen, writeLoop, hall, hmsg]

/-- The contents of the one response. -/
theorem payload_stored (m : ByteMem) :
    payload (respItems (m.write 0 (Packet.concat [storedPacket])) (respItemsAt 0 [storedPacket])) =
      storedPacket.bytes := by
  have hbytes : (respItem true (0 : Nat) storedPacket.header).bytes
      (m.write 0 (Packet.concat [storedPacket])) = storedPacket.bytes := by
    rw [respItem_bytes]
    exact ByteMem.slice_write_self m 0 storedPacket.bytes
  have hext : (respItem true (0 : Nat) storedPacket.header).ext = 0 := rfl
  simp only [respItemsAt, respItems, List.map_cons, List.map_nil, hbytes, hext]
  simp [payload, unmarked, lastMarked, endMark]

section Talks

variable (cfg : BackendConfig) (originReq : ByteMem) {t : Thread}

/-- Hosts that cannot be reached leave nothing for the client. -/
theorem talkToBackend_unreachable (groups : SortedMap Nat (List Req)) (hlen : t.backendBufLen ≠ 0) :
    ∃ t', (talkToBackend cfg originReq groups unreachable t).result = some t' ∧
      t'.clientBufLen = 0 ∧ t'.backendBufLen ≠ 0 := by
  have hconn : ∀ turn ∈ reqTurns originReq groups unreachable, turn.io.conn = 0 := by
    intro turn hturn
    obtain ⟨g, _, rfl⟩ := List.mem_map.mp hturn
    rfl
  obtain ⟨u, hres, _, hstale⟩ := talkTurns_unreachable cfg hconn t []
  unfold talkToBackend
  rw [Act.bind_of_some _ hres]
  exact ⟨_, rfl, rfl, hstale hlen⟩

/-- A host that answers is the reply. -/
theorem talkToBackend_onlyAnswering {groups : SortedMap Nat (List Req)} {a : Nat} {reqs : List Req}
    {rest : List (Nat × List Req)} (hgroups : groups.entries = (a, reqs) :: rest)
    (hlen : t.backendBufLen ≠ 0) (hresp : 1048576 ≤ cfg.respBufSize)
    (hclient : 1048576 ≤ cfg.clientBufSize) :
    ∃ n t', (talkToBackend cfg originReq groups (onlyAnswering a n) t).result = some t' ∧
      answerOf (some t') = storedPacket.bytes := by
  have hstaged := staged_backendBufLen t (reqs.map (fun r => (r.ext, r.bytes originReq)))
  generalize hitems : reqs.map (fun r => (r.ext, r.bytes originReq)) = items at hstaged
  have hturns : ∀ io, reqTurns originReq groups io =
      ⟨a, items, io a⟩ :: rest.map (fun g => ⟨g.1, g.2.map (fun r => (r.ext, r.bytes originReq)),
        io g.1⟩) := by
    intro io
    rw [reqTurns, hgroups, List.map_cons, hitems]
  refine ⟨(t.staged items).backendBufLen, ?_⟩
  generalize hio : onlyAnswering a (t.staged items).backendBufLen = io
  have hreceived := received_stored hresp a (t.staged items).backendBufLen
  have hfrom := readsFrom_onlyAnswering a (hstaged ▸ by omega) (le_refl (t.staged items).backendBufLen)
  rw [hio] at hreceived hfrom
  obtain ⟨u, hturn, hbuf⟩ := talkTurn_answer hfrom hreceived []
  -- the later hosts of the group are others
  have hconn : ∀ turn ∈ rest.map (fun g => (⟨g.1, g.2.map (fun r => (r.ext, r.bytes originReq)),
      io g.1⟩ : Turn)), turn.io.conn = 0 := by
    intro turn hmem
    obtain ⟨g, hg, rfl⟩ := List.mem_map.mp hmem
    have hsorted := groups.sorted
    rw [hgroups] at hsorted
    have hlt := (List.pairwise_cons.mp hsorted).1 g hg
    have hne : g.1 ≠ a := ne_of_gt hlt
    simp [← hio, onlyAnswering, hne]
  obtain ⟨t', hrest, hbuf', _⟩ := talkTurns_unreachable cfg hconn u ([] ++ respItemsAt 0 [storedPacket])
  have hall : (talkTurns cfg (reqTurns originReq groups io) t []).result =
      some (t', respItemsAt 0 [storedPacket]) := by
    rw [hturns, talkTurns_of_some hturn]
    exact hrest
  have hpayload := payload_stored t.respBuf
  rw [← hbuf, ← hbuf'] at hpayload
  have hsize : storedPacket.bytes.length = 24 := by decide
  have hcreate := createResp_eq t'.respBuf (respItemsAt 0 [storedPacket]) t'.clientBuf
    (le_refl (0 : Int)) cfg.clientBufSize_lt (by rw [hpayload, hsize]; omega)
  rw [hpayload] at hcreate
  unfold talkToBackend
  rw [Act.bind_of_some _ hall]
  refine ⟨_, rfl, ?_⟩
  simp only [hcreate, answerOf, Thread.reply, hsize]
  exact ByteMem.slice_write_self _ _ _

end Talks

/-! ## Two runs -/

/-- A thread that still has the request of an unreachable host in its send
buffer. -/
def leftoverThread : Thread := { Thread.new (fun _ => 0) with backendBufLen := 25 }

section TwoRuns

variable {cfg : ProxyConfig} {out : Outside} {buffer : List UInt8} {items : List Req}
  (h : Accepted cfg out buffer items)

include h

theorem repliedBytes_withHosts {w : Worker} (hw : w.Fresh) (groupIo : Nat → HostIo)
    (backup : BackupBehaviour) :
    repliedBytes (readEvent cfg (out.withHosts groupIo backup) buffer w).effects =
      repliedBytes (serveBatch cfg (out.withHosts groupIo backup)
        (ByteMem.ofList buffer out.memory) items w.thread).effects := by
  have hacc : Accepted cfg (out.withHosts groupIo backup) buffer items :=
    ⟨h.fits, h.noStatus, h.parsed⟩
  exact repliedBytes_readEvent hacc hw

/-- Without a sync group the two runs differ in the async queue only. -/
theorem independent_of_no_sync
    (hnil : (createReqGroup cfg out.hosts (ByteMem.ofList buffer out.memory) items).sync.entries =
      []) : ReplyIndependent cfg out buffer := by
  intro w hw groupIo backup backup'
  have hnone : ∀ b t, talkToSync cfg (out.withHosts groupIo b) (ByteMem.ofList buffer out.memory)
      (createReqGroup cfg out.hosts (ByteMem.ofList buffer out.memory) items).sync t = pure t := by
    intro b t
    rw [talkToSync, if_neg (by simpa using hnil)]
  rw [repliedBytes_withHosts h hw, repliedBytes_withHosts h hw, repliedBytes_serveBatch,
    repliedBytes_serveBatch]
  simp only [Outside.withHosts] at hnone ⊢
  simp only [hnone]

/-- With a sync group, a backup host that answers and one that cannot be reached
make the difference. -/
theorem dependent_of_sync (hresp : 1048576 ≤ cfg.backend.respBufSize)
    (hclient : 1048576 ≤ cfg.backend.clientBufSize)
    (hsync : (createReqGroup cfg out.hosts (ByteMem.ofList buffer out.memory) items).sync.entries ≠
      []) : ¬ ReplyIndependent cfg out buffer := by
  intro hsame
  have hserve := repliedBytes_withHosts h (w := ⟨leftoverThread, 0, []⟩) ⟨rfl, rfl⟩
  obtain ⟨⟨a, reqs⟩, rest, hentries⟩ := List.exists_cons_of_ne_nil hsync
  generalize hm : ByteMem.ofList buffer out.memory = m at hserve hentries hsync
  obtain ⟨t, hgroup, _, hstale⟩ := talkToBackend_unreachable cfg.backend m
    (createReqGroup cfg out.hosts m items).group (t := leftoverThread) (by decide)
  have hrun : ∀ syncIo t', (talkToBackend cfg.backend m
      (createReqGroup cfg out.hosts m items).sync syncIo t).result = some t' →
      repliedBytes (readEvent cfg (out.withHosts unreachable ⟨0, syncIo⟩) buffer
        ⟨leftoverThread, 0, []⟩).effects = answerOf (some t') := by
    intro syncIo t' hio
    have hfirst : (talkToHosts cfg m (createReqGroup cfg out.hosts m items).group unreachable
        leftoverThread).result = some t := hgroup
    have hsecond : (talkToSync cfg (out.withHosts unreachable ⟨0, syncIo⟩) m
        (createReqGroup cfg out.hosts m items).sync t).result = some t' := by
      rw [talkToSync, if_pos hsync]
      exact hio
    rw [hserve, repliedBytes_serveBatch]
    exact congrArg answerOf ((congrArg (Option.bind · _) hfirst).trans hsecond)
  obtain ⟨n, t₁, hanswered, hreply⟩ := talkToBackend_onlyAnswering cfg.backend m hentries hstale
    hresp hclient
  obtain ⟨t₂, hsilent, hempty, _⟩ := talkToBackend_unreachable cfg.backend m
    (createReqGroup cfg out.hosts m items).sync hstale
  have hnothing : answerOf (some t₂) = [] := by simp [answerOf, hempty]
  have hruns := hsame ⟨leftoverThread, 0, []⟩ ⟨rfl, rfl⟩ unreachable ⟨0, onlyAnswering a n⟩
    ⟨0, unreachable⟩
  rw [hrun _ _ hanswered, hrun _ _ hsilent, hreply, hnothing] at hruns
  exact absurd hruns (by decide)

end TwoRuns

/-- **The reply and the backup hosts.**  Of a batch that `readEvent` accepts, the
reply depends on the backup hosts exactly if an update of it is replicated
synchronously.  The buffers have the megabyte the constructor gives them at
least. -/
theorem reply_independent_iff {cfg : ProxyConfig} {out : Outside} {buffer : List UInt8}
    {items : List Req} (hresp : 1048576 ≤ cfg.backend.respBufSize)
    (hclient : 1048576 ≤ cfg.backend.clientBufSize) (h : Accepted cfg out buffer items) :
    ReplyIndependent cfg out buffer ↔
      ∀ r ∈ items, ¬ SyncReplicated cfg out.hosts (ByteMem.ofList buffer out.memory) r := by
  rw [← sync_eq_nil_iff]
  constructor
  · intro hsame
    by_contra hsync
    exact dependent_of_sync h hresp hclient hsync hsame
  · exact independent_of_no_sync h

/-- A proxy that replicates keys that start with `+` synchronously. -/
def plusConfig : ProxyConfig := { ProxyConfig.default with syncStr := [43] }

/-- A default host and a backup host. -/
def replicatedOutside : Outside where
  hosts := ((HostTable.start ⟨[⟨"127.0.0.1".toList, 11211, 1, 1⟩],
    [⟨"127.0.0.2".toList, 11211, 2, 1⟩], []⟩).map Prod.fst).getD .new
  memory := fun _ => 0
  header := ⟨0, 0, 0, 0⟩
  status := []
  asyncLen := 0
  groupIo := unreachable
  syncIo := unreachable

/-- A set of a two-byte key to `"x"`. -/
def setBytes (first second : UInt8) : List UInt8 :=
  packetHeader 0x80 0x01 2 8 11 ++ [0, 0, 0, 0, 0, 0, 0, 0, first, second, 120]

/-- The item of a set. -/
def setItem : Req := ⟨32, 2, 0, 35, true, false, 0⟩

theorem accepted_set {first second : UInt8}
    (hparse : parseReq true ⟨0, 0, 0, 0⟩ (ByteMem.ofList (setBytes first second) (fun _ => 0)) 35 0
      [] = some (.success, 35, [setItem])) :
    Accepted plusConfig replicatedOutside (setBytes first second) [setItem] := by
  have hlen : (setBytes first second).length = 35 := rfl
  have hcopied : copiedLen (setBytes first second) = 35 := by
    rw [copiedLen, hlen]
    decide
  refine ⟨?_, fun h => absurd h.2 (by rw [hcopied]; decide), 35, ?_⟩
  · rw [hlen]
    decide
  · rw [hcopied]
    exact hparse

theorem reply_independent_async :
    ReplyIndependent plusConfig replicatedOutside (setBytes 45 97) ↔
      ∀ r ∈ [setItem], ¬ SyncReplicated plusConfig replicatedOutside.hosts
        (ByteMem.ofList (setBytes 45 97) (fun _ => 0)) r :=
  reply_independent_iff (by decide) (by decide) (accepted_set (by decide +kernel))

/-- **A set of `"+a"`** is answered by the backup host, or not at all. -/
theorem reply_from_backup :
    ¬ ReplyIndependent plusConfig replicatedOutside (setBytes 43 97) := by
  refine dependent_of_sync (accepted_set (by decide +kernel)) (by decide) (by decide) ?_
  decide +kernel

end KvProxy
