import KvProxy.BatchSplit
import KvProxy.MergedReply
import KvProxy.SendBuffer
import KvProxy.WriteDelivery
import Mathlib.Data.List.Flatten

/-!
# A batch whose hosts all answer

An event with one complete batch, in a proxy without backup hosts, whose hosts take
what they are sent and answer it.

* `talkTurns_sent` — what the hosts of a list of turns are sent;
* `Batch.readEvent_served` — what each host is sent, and the reply.
-/

namespace KvProxy

open MachineInt

/-! ## What is sent -/

/-- The bytes an effect sends. -/
def Effect.sent : Effect → List UInt8
  | .send _ bytes => bytes
  | _ => []

/-- The bytes that are sent to a host. -/
def sentTo (a : Nat) (effects : List (Nat × Effect)) : List UInt8 :=
  effects.flatMap (fun e => if e.1 = a then e.2.sent else [])

/-- The host is connected and takes a message of this length on its connection. -/
structure HostIo.Takes (io : HostIo) (len : Nat) : Prop where
  connected : io.conn ≠ 0
  steady : ∀ reconnect, SendResult.error reconnect ∉ io.sends
  getsOut : GetsOut len io.sends 0

theorem GetsOut.mono {len len' : Nat} (hle : len ≤ len') {sends : List SendResult} {n : Nat}
    (h : GetsOut len' sends n) : GetsOut len sends n := by
  induction sends generalizing n with
  | nil => exact h
  | cons result rest ih =>
      cases result with
      | sent more =>
          rcases h with hall | hrest
          · exact .inl (hle.trans hall)
          · exact .inr (ih hrest)
      | intr => exact ih (n := n) h
      | error reconnect => exact ⟨h.1, ih h.2⟩

theorem HostIo.Takes.mono {io : HostIo} {len len' : Nat} (hle : len ≤ len') (h : io.Takes len') :
    io.Takes len :=
  ⟨h.connected, h.steady, h.getsOut.mono hle⟩

/-- A message that a host takes is sent once, on one connection. -/
theorem writeLoop_takes {msg : List UInt8} {sends : List SendResult}
    (hsteady : ∀ reconnect, SendResult.error reconnect ∉ sends) (fd : Nat) {sendLen : Nat}
    (hlt : sendLen < msg.length) (hout : GetsOut msg.length sends sendLen) :
    (writeLoop msg sends fd sendLen).result = some (fd, msg.length) ∧
      (writeLoop msg sends fd sendLen).effects.flatMap Effect.sent = msg.drop sendLen := by
  induction sends generalizing sendLen with
  | nil => exact absurd hout id
  | cons result rest ih =>
      have hrest : ∀ reconnect, SendResult.error reconnect ∉ rest :=
        fun reconnect hmem => hsteady reconnect (List.mem_cons_of_mem _ hmem)
      cases result with
      | sent more =>
          have hchunk : ((msg.drop sendLen).take (more + 1)).length =
              min (more + 1) (msg.length - sendLen) := by
            rw [List.length_take, List.length_drop]
          simp only [writeLoop, Act.emit_bind]
          by_cases hall : msg.length ≤ sendLen + (more + 1)
          · -- this `send` takes all that is left
            have hwhole : (msg.drop sendLen).take (more + 1) = msg.drop sendLen := by
              apply List.take_of_length_le
              rw [List.length_drop]
              omega
            have hlen : sendLen + (msg.drop sendLen).length = msg.length := by
              rw [List.length_drop]
              omega
            rw [hwhole, if_pos (by omega), hlen]
            exact ⟨rfl, by simp [Effect.sent]⟩
          · obtain ⟨hres, hsent⟩ := ih hrest (Nat.lt_of_not_le hall)
              (hout.resolve_left hall)
            have hmin : ((msg.drop sendLen).take (more + 1)).length = more + 1 := by omega
            rw [hmin, if_neg (by omega)]
            refine ⟨hres, ?_⟩
            rw [List.flatMap_cons, hsent, ← List.drop_drop]
            exact List.take_append_drop (more + 1) (msg.drop sendLen)
      | intr => exact ih hrest hlt hout
      | error reconnect => exact absurd List.mem_cons_self (hsteady reconnect)

/-- Reading sends nothing. -/
theorem readTurn_sends_nothing (cfg : BackendConfig) (turn : Turn) (fd : Nat) (t : Thread)
    (respList : List Resp) :
    (readTurn cfg turn fd t respList).effects.flatMap Effect.sent = [] := by
  have hspec : (readTurn cfg turn fd t respList).Spec (fun e => e.sent = []) (fun _ => True) := by
    have hread : (readFromBackend cfg fd turn.io.recvs t respList).Spec
        (fun e => e.sent = []) (fun _ => True) := by
      refine (readFromBackend_spec cfg fd turn.io.recvs t respList).imp ?_ (fun _ _ => trivial)
      intro e he
      cases e <;> first | rfl | exact absurd he id
    refine hread.bind fun got _ => ?_
    have hcount : (countFail cfg got.1 got.2.isEmpty turn.aliasIndex).Spec
        (fun e => e.sent = []) (fun _ => True) := by
      refine ⟨fun e he => ?_, fun _ _ => trivial⟩
      obtain rfl : e = .countFail got.2.isEmpty turn.aliasIndex := by simpa [countFail] using he
      rfl
    exact hcount.bind (fun _ _ => .pure trivial)
  exact List.flatMap_eq_nil_iff.mpr hspec.effects

/-- **A turn whose host takes the message.** -/
theorem talkTurn_sent (cfg : BackendConfig) {turn : Turn} (hne : payload turn.items ≠ [])
    (htakes : turn.io.Takes (payload turn.items).length) {t : Thread} (hempty : t.backendBufLen = 0)
    (respList : List Resp) :
    readsFrom turn t = some turn.io.conn ∧
      (talkTurn cfg turn t respList).effects.flatMap Effect.sent = payload turn.items ∧
      ∀ r, (talkTurn cfg turn t respList).result = some r → r.1.backendBufLen = 0 := by
  have hmsg := staged_message turn.items hempty
  have hlen : (t.staged turn.items).backendBufLen = (payload turn.items).length := by
    rw [staged_backendBufLen, hempty, Nat.zero_add]
  have hpos : 0 < (payload turn.items).length := List.length_pos_iff.mpr hne
  obtain ⟨hres, hsent⟩ := writeLoop_takes htakes.steady turn.io.conn hpos htakes.getsOut
  refine ⟨?_, ?_, ?_⟩
  · unfold readsFrom
    rw [if_neg (by have := htakes.connected; omega), hmsg, hres, hlen]
    simp
  · unfold talkTurn
    simp only
    rw [if_pos (by omega), if_neg htakes.connected, hmsg, writeToBackend_bind hres,
      if_pos (by omega)]
    have hread := readTurn_sends_nothing cfg turn turn.io.conn (t.staged turn.items) respList
    unfold readTurn at hread
    rw [List.flatMap_cons, List.flatMap_append, hread, hsent]
    simp [Effect.sent]
  · intro r hr
    rcases (talkTurn_writes cfg turn t respList).result r hr with hzero | ⟨hconn, _⟩
    · exact hzero
    · exact absurd hconn htakes.connected

theorem sentTo_append (a : Nat) (xs ys : List (Nat × Effect)) :
    sentTo a (xs ++ ys) = sentTo a xs ++ sentTo a ys := by
  simp [sentTo]

theorem sentTo_label (a v : Nat) (xs : List Effect) :
    sentTo a (xs.map (Prod.mk v)) = if v = a then xs.flatMap Effect.sent else [] := by
  unfold sentTo
  rw [List.flatMap_map]
  by_cases hva : v = a
  · simp [hva]
  · simp [hva]

/-- **Turns whose hosts take their messages and answer**: all are reached, and each is
sent its own. -/
theorem talkTurns_sent {cfg : BackendConfig} {turns : List Turn}
    (hturns : ∀ turn ∈ turns, payload turn.items ≠ [] ∧
      turn.io.Takes (payload turn.items).length ∧ ∃ ps, Received cfg turn.io.recvs ps)
    {t : Thread} (hempty : t.backendBufLen = 0) (respList : List Resp) :
    AllReached cfg turns t respList ∧
      (∀ a, sentTo a (talkTurns cfg turns t respList).effects =
        (turns.filter (fun turn => turn.aliasIndex = a)).flatMap (fun turn => payload turn.items)) ∧
      ∀ r, (talkTurns cfg turns t respList).result = some r → r.1.backendBufLen = 0 := by
  induction turns generalizing t respList with
  | nil =>
      refine ⟨trivial, fun a => rfl, fun r hr => ?_⟩
      obtain rfl := Option.some.inj hr
      exact hempty
  | cons turn rest ih =>
      obtain ⟨hne, htakes, ps, hreceived⟩ := hturns turn List.mem_cons_self
      obtain ⟨hfrom, hsent, hleft⟩ := talkTurn_sent cfg hne htakes hempty respList
      obtain ⟨u, hres, _⟩ := talkTurn_answer hfrom hreceived respList
      have hrest := fun (s : Thread) (hs : s.backendBufLen = 0) (l : List Resp) =>
        ih (fun x hx => hturns x (List.mem_cons_of_mem _ hx)) hs l
      obtain ⟨_, hmore, hend⟩ := hrest u (hleft _ hres) (respList ++ respItemsAt 0 ps)
      refine ⟨⟨⟨_, hfrom⟩, fun t' respList' hres' => ?_⟩, fun a => ?_, ?_⟩
      · exact (hrest t' (hleft _ hres') respList').1
      · rw [talkTurns_of_some hres, sentTo_append, sentTo_label, hmore a, hsent]
        by_cases ha : turn.aliasIndex = a
        · rw [if_pos ha, List.filter_cons_of_pos (by simpa using ha), List.flatMap_cons]
        · rw [if_neg ha, List.filter_cons_of_neg (by simpa using ha), List.nil_append]
      · rw [talkTurns_of_some hres]
        exact hend

/-! ## The event -/

/-- What an event sends to a host. -/
def hostSent (a : Nat) (effects : List ProxyEffect) : List UInt8 :=
  effects.flatMap (fun e =>
    match e with
    | .backend v e => if v = a then e.sent else []
    | _ => [])

/-- What an event sends to the client. -/
def clientSent (effects : List ProxyEffect) : List UInt8 :=
  effects.flatMap (fun e =>
    match e with
    | .reply bytes => bytes
    | _ => [])

/-- The entries of a map that have a key. -/
theorem SortedMap.entries_filter {β : Type} (m : SortedMap Nat β) (k : Nat) :
    m.entries.filter (fun e => e.1 = k) = (m.lookup k).toList.map (Prod.mk k) := by
  have hfilter : (m.filter (fun e => e.1 = k)).entries = m.entries.filter (fun e => e.1 = k) := rfl
  cases hlook : m.lookup k with
  | none =>
      have hnone : m.filter (fun e => e.1 = k) = ∅ := by
        refine SortedMap.ext_mem fun e => ?_
        simp only [SortedMap.mem_filter, decide_eq_true_eq, SortedMap.not_mem_empty, iff_false]
        rintro ⟨he, rfl⟩
        have hsome := SortedMap.lookup_eq_some_iff.mpr he
        rw [hlook] at hsome
        cases hsome
      rw [← hfilter, hnone]
      rfl
  | some v =>
      have hone : m.filter (fun e => e.1 = k) = (∅ : SortedMap Nat β).insert k v := by
        refine SortedMap.ext_mem fun e => ?_
        simp only [SortedMap.mem_filter, decide_eq_true_eq, SortedMap.mem_insert,
          SortedMap.not_mem_empty, false_and, or_false]
        constructor
        · rintro ⟨he, rfl⟩
          exact Prod.ext rfl (Option.some.inj ((SortedMap.lookup_eq_some_iff.mpr he).symm.trans hlook))
        · rintro rfl
          exact ⟨SortedMap.lookup_eq_some_iff.mp hlook, rfl⟩
      rw [← hfilter, hone]
      rfl

namespace Batch

instance (b : Batch) (hosts : HostTable) (a : Nat) : Decidable (b.Talked hosts a) :=
  inferInstanceAs (Decidable (∃ p ∈ b.keyed, _))

/-- The hosts that a request of the batch is routed to, in ascending order. -/
def talkedTo (b : Batch) (hosts : HostTable) : List Nat :=
  (b.keyed.map hosts.routed).dedup.insertionSort (fun x y => x ≤ y)

/-- The hosts of a batch take what they are sent and answer it, the answers fit the
buffers, and no answer lies on top of another. -/
structure Served (b : Batch) (cfg : ProxyConfig) (out : Outside)
    (answers : Nat → List (Packet magicRes)) : Prop where
  noBackup : (out.hosts.rings .hostsBackup).hash.entries = []
  owned : b.Owned out.hosts
  keyed_ne : b.keyed ≠ []
  small : b.bytes.length ≤ cfg.reqBufSize
  takes : ∀ a, b.Talked out.hosts a → (out.groupIo a).Takes b.bytes.length
  received : ∀ a, b.Talked out.hosts a → Received cfg.backend (out.groupIo a).recvs (answers a)
  ends : ∀ a, b.Talked out.hosts a →
    ((∃ p ∈ answers a, p.opcode = cmdNoop) ↔ b.last.opcode = cmdNoop)
  fits : ((Packet.concat ((b.talkedTo out.hosts).flatMap answers)).length : Int) ≤
    cfg.backend.clientBufSize
  intact : Intact ((b.talkedTo out.hosts).map answers)

variable {b : Batch} {hosts : HostTable}

theorem mem_talkedTo {a : Nat} : a ∈ b.talkedTo hosts ↔ b.Talked hosts a := by
  simp [talkedTo, Talked]

theorem talkedTo_sorted (b : Batch) (hosts : HostTable) :
    (b.talkedTo hosts).Pairwise (fun x y => x < y) := by
  have hle : (b.talkedTo hosts).Pairwise (fun x y => x ≤ y) := List.pairwise_insertionSort _ _
  have hnodup : (b.talkedTo hosts).Nodup :=
    (List.perm_insertionSort _ _).nodup_iff.mpr (List.nodup_dedup _)
  exact hle.imp₂ (fun _ _ hle hne => lt_of_le_of_ne hle hne) hnodup

/-- The groups of a batch are for the hosts that its requests are routed to. -/
theorem groups_talkedTo (h : b.Owned hosts) (cfg : ProxyConfig) (memory : ByteMem) :
    (createReqGroup cfg hosts (ByteMem.ofList b.bytes memory) b.items).group.entries.map Prod.fst =
      b.talkedTo hosts := by
  generalize hg : (createReqGroup cfg hosts (ByteMem.ofList b.bytes memory) b.items).group = group
  refine List.Pairwise.eq_of_mem_iff (List.pairwise_map.mpr group.sorted) (b.talkedTo_sorted hosts)
    fun a => ?_
  obtain ⟨htalked, hnot⟩ := lookup_group h cfg memory a
  rw [hg] at htalked hnot
  rw [mem_talkedTo]
  constructor
  · intro hmem
    obtain ⟨e, he, rfl⟩ := List.mem_map.mp hmem
    by_contra hno
    have hsome := SortedMap.lookup_eq_some_iff.mpr he
    rw [hnot hno] at hsome
    cases hsome
  · intro hyes
    obtain ⟨reqs, hreqs, _⟩ := htalked hyes
    exact List.mem_map_of_mem (SortedMap.lookup_eq_some_iff.mp hreqs)

/-- A host's part is not longer than the batch. -/
theorem length_asks_le (a : Nat) :
    (Packet.concat (b.asks hosts a)).length ≤ b.bytes.length := by
  unfold asks Batch.bytes Packet.concat
  exact (List.Sublist.flatMap (List.filter_sublist) _).length_le

theorem asks_ne_nil {a : Nat} (h : b.Talked hosts a) : Packet.concat (b.asks hosts a) ≠ [] := by
  obtain ⟨p, hp, hpa⟩ := h
  have hmem : p ∈ b.asks hosts a :=
    List.mem_filter.mpr ⟨(mem_keyed.mp hp).1, decide_eq_true (.inr hpa)⟩
  have hle := length_le_concat (b.asks hosts a)
  have hpos := List.length_pos_of_mem hmem
  intro hnil
  rw [hnil, List.length_nil] at hle
  omega

section Event

variable {cfg : ProxyConfig} {out : Outside} {answers : Nat → List (Packet magicRes)}

/-- The turns of a batch, host by host. -/
theorem Served.turns (h : b.Served cfg out answers) (memory : ByteMem) :
    ∀ g ∈ (createReqGroup cfg out.hosts (ByteMem.ofList b.bytes memory) b.items).group.entries,
      b.Talked out.hosts g.1 ∧
        payload (g.2.map (fun r => (r.ext, r.bytes (ByteMem.ofList b.bytes memory)))) =
          Packet.concat (b.asks out.hosts g.1) := by
  intro g hg
  have hsome := SortedMap.lookup_eq_some_iff.mpr hg
  obtain ⟨htalked, hnot⟩ := lookup_group h.owned cfg memory g.1
  have hyes : b.Talked out.hosts g.1 := by
    by_contra hno
    rw [hnot hno] at hsome
    cases hsome
  obtain ⟨reqs, hreqs, hdecodes⟩ := htalked hyes
  obtain rfl := Option.some.inj (hreqs.symm.trans hsome)
  exact ⟨hyes, payload_group hdecodes⟩

/-- The answers have what the reply needs. -/
theorem Served.answered (h : b.Served cfg out answers) (memory : ByteMem) :
    Answered cfg.backend
      (createReqGroup cfg out.hosts (ByteMem.ofList b.bytes memory) b.items).group out.groupIo
      answers (b.last.opcode = cmdNoop) := by
  have hturns := h.turns memory
  have htalked := groups_talkedTo h.owned cfg memory
  generalize (createReqGroup cfg out.hosts (ByteMem.ofList b.bytes memory) b.items).group = group
    at hturns htalked ⊢
  have hall : group.entries.flatMap (fun g => hits (answers g.1)) =
      (b.talkedTo out.hosts).flatMap (fun a => hits (answers a)) := by
    rw [← htalked, List.flatMap_map]
  -- the hits of an answer are a part of it, and so are the hits and its no-op
  have hsplit : ∀ a, b.Talked out.hosts a →
      (Packet.concat (answers a)).length = (hits (answers a)).length + (noops (answers a)).length := by
    intro a ha
    rw [concat_eq_hits_append (h.received a ha).quiet, List.length_append]
  have hsum : ((b.talkedTo out.hosts).flatMap (fun a => hits (answers a))).length +
      ((b.talkedTo out.hosts).flatMap (fun a => noops (answers a))).length =
        (Packet.concat ((b.talkedTo out.hosts).flatMap answers)).length := by
    have hmem : ∀ a ∈ b.talkedTo out.hosts, b.Talked out.hosts a := fun a ha => mem_talkedTo.mp ha
    generalize b.talkedTo out.hosts = as at hmem
    induction as with
    | nil => rfl
    | cons a as ih =>
        have hrest := ih (fun x hx => hmem x (List.mem_cons_of_mem _ hx))
        have hone := hsplit a (hmem a List.mem_cons_self)
        simp only [List.flatMap_cons, List.length_append, Packet.concat_append] at hrest ⊢
        omega
  have hfits := h.fits
  refine ⟨fun g hg => (h.received g.1 (hturns g hg).1).delivers,
    fun g hg => (h.received g.1 (hturns g hg).1).quiet, fun g hg => ?_, ?_, ?_⟩
  · simpa using h.ends g.1 (hturns g hg).1
  · rw [hall]
    omega
  · intro g hg p hp hop
    have hnoop : p.length ≤ ((b.talkedTo out.hosts).flatMap (fun a => noops (answers a))).length := by
      have hmem : g.1 ∈ b.talkedTo out.hosts := mem_talkedTo.mpr (hturns g hg).1
      have hsub : p.bytes.Sublist ((b.talkedTo out.hosts).flatMap (fun a => noops (answers a))) := by
        have hin : p ∈ (answers g.1).filter (fun p => p.opcode = cmdNoop) :=
          List.mem_filter.mpr ⟨hp, decide_eq_true hop⟩
        have hown : p.bytes.Sublist (noops (answers g.1)) :=
          List.sublist_flatten_of_mem (List.mem_map_of_mem hin)
        exact hown.trans (List.sublist_flatten_of_mem (List.mem_map_of_mem hmem))
      exact hsub.length_le
    rw [hall]
    omega

/-- **Talking to the hosts of a batch.** -/
theorem Served.talkToBackend (h : b.Served cfg out answers) (memory : ByteMem) {t : Thread}
    (hempty : t.backendBufLen = 0) {group : SortedMap Nat (List Req)}
    (hgroup : (createReqGroup cfg out.hosts (ByteMem.ofList b.bytes memory) b.items).group =
      group) :
    ∃ t' tail, (KvProxy.talkToBackend cfg.backend (ByteMem.ofList b.bytes memory) group out.groupIo
        t).result = some t' ∧ t'.backendBufLen = 0 ∧
      (∀ a, sentTo a (KvProxy.talkToBackend cfg.backend (ByteMem.ofList b.bytes memory) group
          out.groupIo t).effects =
        if b.Talked out.hosts a then Packet.concat (b.asks out.hosts a) else []) ∧
      t'.reply = (b.talkedTo out.hosts).flatMap (fun a => hits (answers a)) ++ tail ∧
      (b.last.opcode = cmdNoop → ∃ a p, b.Talked out.hosts a ∧ p ∈ answers a ∧
        p.opcode = cmdNoop ∧ tail = p.bytes) ∧
      (b.last.opcode ≠ cmdNoop → tail = []) := by
  have hturns := h.turns memory
  have hanswered := h.answered memory
  have htalked := groups_talkedTo h.owned cfg memory
  rw [hgroup] at hturns hanswered htalked
  have hready : ∀ turn ∈ reqTurns (ByteMem.ofList b.bytes memory) group out.groupIo,
      payload turn.items ≠ [] ∧ turn.io.Takes (payload turn.items).length ∧
        ∃ ps, Received cfg.backend turn.io.recvs ps := by
    intro turn hturn
    obtain ⟨g, hg, rfl⟩ := List.mem_map.mp hturn
    obtain ⟨hyes, hpayload⟩ := hturns g hg
    dsimp only
    rw [hpayload]
    exact ⟨asks_ne_nil hyes, (h.takes g.1 hyes).mono (length_asks_le g.1),
      _, h.received g.1 hyes⟩
  obtain ⟨hreached, hsent, hleft⟩ := talkTurns_sent hready hempty []
  have hhost : decide (b.last.opcode = cmdNoop) = true → group.entries ≠ [] := by
    intro _ hnil
    obtain ⟨p, hp⟩ := List.exists_mem_of_ne_nil _ h.keyed_ne
    have hmem : out.hosts.routed p ∈ b.talkedTo out.hosts := mem_talkedTo.mpr ⟨p, hp, rfl⟩
    rw [← htalked, hnil] at hmem
    cases hmem
  obtain ⟨t', tail, hres, hreply, hnoop, hplain⟩ := talkToBackend_reply hreached hanswered
    (fun g hg => (h.received g.1 (hturns g hg).1).room)
    (fun g hg => (h.received g.1 (hturns g hg).1).cuts) hhost rfl
  have has : group.entries.map (fun g => answers g.1) = (b.talkedTo out.hosts).map answers := by
    rw [← htalked, List.map_map]
    rfl
  have hquiet : ∀ ps ∈ (b.talkedTo out.hosts).map answers, QuietFirst ps := by
    intro ps hps
    obtain ⟨a, ha, rfl⟩ := List.mem_map.mp hps
    exact (h.received a (mem_talkedTo.mp ha)).quiet
  rw [has, (answers_intact_iff _ hquiet t.respBuf).mpr h.intact, List.flatMap_map] at hreply
  refine ⟨t', tail, hres, ?_, fun a => ?_, hreply, fun hop => ?_, fun hop => hplain (by simpa using hop)⟩
  · obtain ⟨got, hgot, hlast, _⟩ := Act.bind_result_some hres
    obtain rfl := Option.some.inj hlast
    exact hleft got hgot
  · obtain ⟨got, _, _, heffects⟩ := Act.bind_result_some hres
    have hsame : (KvProxy.talkToBackend cfg.backend (ByteMem.ofList b.bytes memory) group out.groupIo
        t).effects = (talkTurns cfg.backend (reqTurns (ByteMem.ofList b.bytes memory) group
          out.groupIo) t []).effects := by
      rw [KvProxy.talkToBackend, heffects, Act.pure_effects, List.append_nil]
    have hpart : ((reqTurns (ByteMem.ofList b.bytes memory) group out.groupIo).filter
        (fun turn => turn.aliasIndex = a)).flatMap (fun turn => payload turn.items) =
          (group.entries.filter (fun g => g.1 = a)).flatMap (fun g =>
            payload (g.2.map (fun r => (r.ext, r.bytes (ByteMem.ofList b.bytes memory))))) := by
      rw [reqTurns, List.filter_map, List.flatMap_map]
      rfl
    obtain ⟨htalk, hnot⟩ := lookup_group h.owned cfg memory a
    rw [hgroup] at htalk hnot
    rw [hsame, hsent a, hpart, SortedMap.entries_filter]
    by_cases hyes : b.Talked out.hosts a
    · obtain ⟨reqs, hreqs, hdecodes⟩ := htalk hyes
      rw [if_pos hyes, hreqs, ← payload_group hdecodes]
      simp
    · rw [if_neg hyes, hnot hyes]
      rfl
  · obtain ⟨g, hg, p, hp, hpop, htail⟩ := hnoop (by simpa using hop)
    exact ⟨g.1, p, (hturns g hg).1, hp, hpop, htail⟩

theorem clientSent_append (xs ys : List ProxyEffect) :
    clientSent (xs ++ ys) = clientSent xs ++ clientSent ys := by
  simp [clientSent]

theorem hostSent_append (a : Nat) (xs ys : List ProxyEffect) :
    hostSent a (xs ++ ys) = hostSent a xs ++ hostSent a ys := by
  simp [hostSent]

theorem hostSent_backend (a : Nat) (effects : List (Nat × Effect)) :
    hostSent a (effects.map (fun e => .backend e.1 e.2)) = sentTo a effects := by
  unfold hostSent sentTo
  rw [List.flatMap_map]

theorem clientSent_backend (effects : List (Nat × Effect)) :
    clientSent (effects.map (fun e => .backend e.1 e.2)) = [] := by
  unfold clientSent
  rw [List.flatMap_map]
  exact List.flatMap_eq_nil_iff.mpr (fun _ _ => rfl)

/-- What the client is sent is the reply. -/
theorem clientSent_replyToClient (t : Thread) (a : Nat) :
    clientSent (replyToClient t).effects = t.reply ∧ hostSent a (replyToClient t).effects = [] ∧
      (replyToClient t).result = some () := by
  unfold replyToClient
  split_ifs with hlen
  · simp [clientSent, hostSent]
  · have hnil : t.reply = [] := by
      have hzero : t.clientBufLen.toNat = 0 := by omega
      rw [Thread.reply, hzero, ByteMem.slice_zero]
    simp [clientSent, hostSent, hnil]

/-- No request starts like the status command. -/
theorem not_statusCmd (b : Batch) (memory : ByteMem) :
    (ByteMem.ofList b.bytes memory).slice 0 6 ≠ statusCmd := by
  have hbin := b.isBinary [] memory
  rw [List.append_nil] at hbin
  intro hstatus
  have hfirst : ByteMem.ofList b.bytes memory 0 = 115 := by
    have hhead := congrArg List.head? hstatus
    exact Option.some.inj hhead
  rw [isBinaryProtocol, hfirst] at hbin
  exact absurd hbin (by decide)

/-- **An event with a batch whose hosts answer.**  Each host is sent what it is asked
and nothing else; the client gets what the hosts answer, in the order of their aliases,
and one of the no-ops. -/
theorem readEvent_served (h : b.Served cfg out answers) (hbin : cfg.useBinary = true) {w : Worker}
    (hfresh : w.Fresh) (hempty : w.thread.backendBufLen = 0) :
    ∃ t' tail, (readEvent cfg out b.bytes w).result = some ([], ⟨t', 0, []⟩) ∧
      t'.backendBufLen = 0 ∧
      (∀ a, hostSent a (readEvent cfg out b.bytes w).effects =
        if b.Talked out.hosts a then Packet.concat (b.asks out.hosts a) else []) ∧
      clientSent (readEvent cfg out b.bytes w).effects =
        (b.talkedTo out.hosts).flatMap (fun a => hits (answers a)) ++ tail ∧
      (b.last.opcode = cmdNoop → ∃ a p, b.Talked out.hosts a ∧ p ∈ answers a ∧
        p.opcode = cmdNoop ∧ tail = p.bytes) ∧
      (b.last.opcode ≠ cmdNoop → tail = []) := by
  have hsize : b.bytes.length < 2147483648 := h.small.trans_lt cfg.reqBufSize_lt
  have hparse := b.parseReq_eq hsize out.memory out.header
  rw [← hbin] at hparse
  obtain ⟨t', tail, hres, hleft, hsent, hreply, hnoop, hplain⟩ :=
    h.talkToBackend out.memory hempty rfl
  obtain ⟨hbackup, hsync⟩ := backups_empty h.noBackup cfg (ByteMem.ofList b.bytes out.memory)
  -- the batch is served by its hosts alone
  have hserve : serveBatch cfg out (ByteMem.ofList b.bytes out.memory) b.items w.thread =
      ⟨.grouped (b.items.map (fun r => r.bytes (ByteMem.ofList b.bytes out.memory))) ::
        ((KvProxy.talkToBackend cfg.backend (ByteMem.ofList b.bytes out.memory)
          (createReqGroup cfg out.hosts (ByteMem.ofList b.bytes out.memory) b.items).group
          out.groupIo w.thread).effects.map (fun e => .backend e.1 e.2) ++
            (replyToClient t').effects), some t'⟩ := by
    have htalk : (talkToHosts cfg (ByteMem.ofList b.bytes out.memory)
        (createReqGroup cfg out.hosts (ByteMem.ofList b.bytes out.memory) b.items).group
        out.groupIo w.thread).result = some t' := hres
    unfold serveBatch
    rw [Act.emit_bind, Act.bind_of_some _ htalk, hbackup, hsync]
    have hend := (clientSent_replyToClient t' 0).2.2
    simp only [queueBackup, talkToSync, SortedMap.entries_empty, ne_eq, not_true_eq_false,
      false_and, if_false, Act.pure_bind, Act.bind_of_some _ hend, Act.pure_effects,
      Act.pure_result, List.append_nil]
    rfl
  have hdrop : b.bytes.drop (uint32 (b.bytes.length : Int)) = [] := by
    have hlen := uint32_eq_self (x := (b.bytes.length : Int)) (by omega) (by omega)
    exact List.drop_eq_nil_of_le (by omega)
  rw [readEvent_of_fits hfresh h.small (b.not_statusCmd out.memory) hparse]
  unfold finishEvent
  dsimp only
  rw [hserve, Act.bind_of_some (a := t') _ rfl]
  refine ⟨t', tail, ?_, hleft, fun a => ?_, ?_, hnoop, hplain⟩
  · simp [hdrop]
  · simp only [Act.pure_effects, List.append_nil]
    have hhead : ∀ xs : List ProxyEffect, hostSent a (.grouped
        (b.items.map (fun r => r.bytes (ByteMem.ofList b.bytes out.memory))) :: xs) =
          hostSent a xs := fun _ => rfl
    rw [hhead, hostSent_append, hostSent_backend, hsent a, (clientSent_replyToClient t' a).2.1,
      List.append_nil]
  · simp only [Act.pure_effects, List.append_nil]
    have hhead : ∀ xs : List ProxyEffect, clientSent (.grouped
        (b.items.map (fun r => r.bytes (ByteMem.ofList b.bytes out.memory))) :: xs) =
          clientSent xs := fun _ => rfl
    rw [hhead, clientSent_append, clientSent_backend, (clientSent_replyToClient t' 0).1, hreply]
    rfl

end Event

end Batch

end KvProxy
