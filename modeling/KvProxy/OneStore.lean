import KvProxy.BatchServed
import KvProxy.Lib.Sharding

/-!
# The hosts behind the proxy are one store

The hosts keep a cell for each key and answer a request from the cell of its key.  A
client that sends one batch at a time and waits for the reply talks to several of them
through the proxy.  Whatever hosts go offline and come back in the meantime, a key whose
requests all go to one host has its cell there, and the client's batches of such keys are
answered as one store of all keys answers them.

The hosts answer in time, as in `Batch.Served`: a host that does not, or answers that
lie on top of each other, are the subject of other modules.

* `HostService` — how a host answers;
* `HostService.Meets.seenAs` — an event, in terms of what the hosts store;
* `HostService.serveVisits_seen` — a run of events.
-/

namespace KvProxy

open MachineInt Sharding

/-- How a host answers a request: with quiet hits only if it is a quiet get, with one
response if it is another request with a key, and with a no-op if it is a no-op. -/
structure HostService (Cell : Type) where
  apply : Packet magicReq → Cell → List (Packet magicRes) × Cell
  noop : Packet magicReq → Packet magicRes
  quiet : ∀ p c, p.opcode = cmdGetkq → ∀ q ∈ (apply p c).1, q.opcode = cmdGetkq
  plain : ∀ p c, p.opcode ≠ cmdGetkq → ∃ q, (apply p c).1 = [q] ∧ q.opcode ≠ cmdNoop
  noop_opcode : ∀ p, (noop p).opcode = cmdNoop

/-- An event of a worker: one batch of a client, and what the event finds outside. -/
structure Visit where
  batch : Batch
  out : Outside

/-- The effects of events one after the other; each finds its batch in an input buffer
of its own. -/
def serveVisits (cfg : ProxyConfig) : Worker → List Visit → Option (List (List ProxyEffect))
  | _, [] => some []
  | w, v :: rest => do
      let done ← (readEvent cfg v.out v.batch.bytes w).result
      let more ← serveVisits cfg done.2 rest
      some ((readEvent cfg v.out v.batch.bytes w).effects :: more)

namespace HostService

variable {Cell : Type} (S : HostService Cell)

/-- The service of a host, request by request. -/
def service : Service (List UInt8) Cell (Packet magicReq) (List (Packet magicRes)) where
  key := Packet.requestKey
  apply := S.apply
  plain := fun p => [S.noop p]

/-- The answer of a host to what it is sent. -/
def answer (store : List UInt8 → Cell) (qs : List (Packet magicReq)) : List (Packet magicRes) :=
  (S.service.serve store qs).1.flatMap Prod.snd

/-- The answers to the requests with a key that are routed to a host. -/
def answersOf (hosts : HostTable) (a : Nat)
    (answered : List (Packet magicReq × List (Packet magicRes))) : List (Packet magicRes) :=
  (answered.filter (fun x => x.1.opcode ≠ cmdNoop ∧ hosts.routed x.1 = a)).flatMap Prod.snd

/-- The stores after an event. -/
def storesAfter (stores : Nat → List UInt8 → Cell) (v : Visit) : Nat → List UInt8 → Cell :=
  fun a =>
    if v.batch.Talked v.out.hosts a then
      (S.service.serve (stores a) (v.batch.asks v.out.hosts a)).2
    else stores a

/-- The hosts take what an event sends them and answer it from their stores, and the
answers arrive whole, fit the buffers and do not lie on top of each other. -/
structure Meets (cfg : ProxyConfig) (stores : Nat → List UInt8 → Cell) (v : Visit) : Prop where
  noBackup : (v.out.hosts.rings .hostsBackup).hash.entries = []
  owned : v.batch.Owned v.out.hosts
  keyed_ne : v.batch.keyed ≠ []
  small : v.batch.bytes.length ≤ cfg.reqBufSize
  takes : ∀ a, v.batch.Talked v.out.hosts a → (v.out.groupIo a).Takes v.batch.bytes.length
  delivers : ∀ a, v.batch.Talked v.out.hosts a → Delivers (v.out.groupIo a).recvs
    (Packet.concat (S.answer (stores a) (v.batch.asks v.out.hosts a)))
  room : ∀ a, v.batch.Talked v.out.hosts a →
    (Packet.concat (S.answer (stores a) (v.batch.asks v.out.hosts a))).length <
      cfg.backend.respBufSize
  cuts : ∀ a, v.batch.Talked v.out.hosts a →
    CutsPassed (S.answer (stores a) (v.batch.asks v.out.hosts a)) 0
      (piecesOf (v.out.groupIo a).recvs)
  fits : ((Packet.concat ((v.batch.talkedTo v.out.hosts).flatMap
    (fun a => S.answer (stores a) (v.batch.asks v.out.hosts a)))).length : Int) ≤
      cfg.backend.clientBufSize
  intact : Intact ((v.batch.talkedTo v.out.hosts).map
    (fun a => S.answer (stores a) (v.batch.asks v.out.hosts a)))

/-- The hosts do so in every event, from the stores the events before it left. -/
def MeetsAll (cfg : ProxyConfig) : (Nat → List UInt8 → Cell) → List Visit → Prop
  | _, [] => True
  | stores, v :: rest => S.Meets cfg stores v ∧ MeetsAll cfg (S.storesAfter stores v) rest

/-- What an event should look like to the hosts and to the client: every host is sent
its part of the batch and nothing else; and if the batch is about the keys `p` only, the
client gets what one store answers to the batch, ordered by the hosts of the requests, each
answer once, and behind it the no-op. -/
structure SeenAs (p : List UInt8 → Prop) (store : List UInt8 → Cell) (v : Visit)
    (effects : List ProxyEffect) : Prop where
  sent : ∀ a, hostSent a effects =
    if v.batch.Talked v.out.hosts a then Packet.concat (v.batch.asks v.out.hosts a) else []
  replied : (∀ q ∈ v.batch.keyed, p q.key) →
    clientSent effects =
      Packet.concat ((v.batch.talkedTo v.out.hosts).flatMap (fun a =>
        answersOf v.out.hosts a (S.service.serve store v.batch.packets).1)) ++
      if v.batch.last.opcode = cmdNoop then (S.noop v.batch.last).bytes else []
  once : ((v.batch.talkedTo v.out.hosts).flatMap (fun a =>
      answersOf v.out.hosts a (S.service.serve store v.batch.packets).1)).Perm
    (((S.service.serve store v.batch.packets).1.filter
      (fun x => x.1.opcode ≠ cmdNoop)).flatMap Prod.snd)

/-- What a run of events should look like: the one store serves the requests about the
keys `p`. -/
def SeenAsOne (p : List UInt8 → Prop) [DecidablePred p] :
    (List UInt8 → Cell) → List Visit → List (List ProxyEffect) → Prop
  | _, [], seen => seen = []
  | store, v :: rest, seen => ∃ effects more, seen = effects :: more ∧ S.SeenAs p store v effects ∧
      SeenAsOne p (S.service.serve store (v.batch.packets.filter (S.service.Within p))).2 rest more

/-! ## One answer -/

variable {S} {b : Batch} {hosts : HostTable} {store : List UInt8 → Cell} {a : Nat}

theorem key_eq_none_iff (p : Packet magicReq) : S.service.key p = none ↔ p.opcode = cmdNoop := by
  simp [service, Packet.requestKey]

theorem key_eq_some_iff {p : Packet magicReq} {k : List UInt8} :
    S.service.key p = some k ↔ p.opcode ≠ cmdNoop ∧ p.key = k := by
  simp [service, Packet.requestKey]

/-- What a host is asked is its part of the requests. -/
theorem asks_eq_part (b : Batch) (hosts : HostTable) (a : Nat) :
    b.asks hosts a = b.packets.filter (S.service.PartOf hosts.routed a) := by
  refine List.filter_congr fun p _ => decide_eq_decide.mpr ?_
  rw [Service.PartOf, key_eq_none_iff]

/-- How a request is answered. -/
theorem mem_answered {qs : List (Packet magicReq)} {x : Packet magicReq × List (Packet magicRes)}
    (h : x ∈ (S.service.serve store qs).1) :
    x.1 ∈ qs ∧ ((x.1.opcode = cmdNoop ∧ x.2 = [S.noop x.1]) ∨
      (x.1.opcode ≠ cmdNoop ∧ ∃ c, x.2 = (S.apply x.1 c).1)) := by
  obtain ⟨hmem, hans⟩ := Service.mem_serve h
  refine ⟨hmem, ?_⟩
  simp only [service, Packet.requestKey] at hans
  by_cases hnoop : x.1.opcode = cmdNoop
  · simpa [hnoop] using hans
  · simpa [hnoop] using hans

/-- A response is a no-op exactly if the request is. -/
theorem noop_iff {qs : List (Packet magicReq)} {x : Packet magicReq × List (Packet magicRes)}
    (h : x ∈ (S.service.serve store qs).1) {q : Packet magicRes} (hq : q ∈ x.2) :
    q.opcode = cmdNoop ↔ x.1.opcode = cmdNoop := by
  obtain ⟨_, ⟨hnoop, hans⟩ | ⟨hkey, c, hans⟩⟩ := mem_answered h
  · rw [hans, List.mem_singleton] at hq
    rw [hq, S.noop_opcode]
    exact ⟨fun _ => hnoop, fun _ => rfl⟩
  · rw [hans] at hq
    refine ⟨fun hop => absurd hop ?_, fun hop => absurd hop hkey⟩
    by_cases hquiet : x.1.opcode = cmdGetkq
    · rw [S.quiet x.1 c hquiet q hq]
      decide
    · obtain ⟨r, hr, hne⟩ := S.plain x.1 c hquiet
      rw [hr, List.mem_singleton] at hq
      rwa [hq]

/-- The request that closes a batch is no quiet get. -/
theorem last_ne_getkq (b : Batch) : b.last.opcode ≠ cmdGetkq := by
  have hall : ∀ c ∈ closingOpcodes, c ≠ cmdGetkq := by decide
  exact hall _ b.last_closing

/-- All responses of a host but the last are quiet. -/
theorem answer_quietFirst (b : Batch) (hosts : HostTable) (store : List UInt8 → Cell) (a : Nat) :
    QuietFirst (S.answer store (b.asks hosts a)) := by
  have hsplit : b.asks hosts a =
      b.quiet.filter (fun p => p.opcode = cmdNoop ∨ hosts.routed p = a) ++
        [b.last].filter (fun p => p.opcode = cmdNoop ∨ hosts.routed p = a) := by
    rw [Batch.asks, Batch.packets, List.filter_append]
  rw [hsplit, answer, Service.serve_append, List.flatMap_append]
  generalize hσ : (S.service.serve store
    (b.quiet.filter (fun p => p.opcode = cmdNoop ∨ hosts.routed p = a))).2 = σ
  have hquiet : ∀ q ∈ (S.service.serve store (b.quiet.filter
      (fun p => p.opcode = cmdNoop ∨ hosts.routed p = a))).1.flatMap Prod.snd,
      q.opcode = cmdGetkq := by
    intro q hq
    obtain ⟨x, hx, hqx⟩ := List.mem_flatMap.mp hq
    obtain ⟨hmem, hans⟩ := mem_answered hx
    have hop := b.quiet_getkq x.1 (List.mem_of_mem_filter hmem)
    obtain ⟨hnoop, _⟩ | ⟨_, c, hans⟩ := hans
    · rw [hop] at hnoop
      exact absurd hnoop (by decide)
    · rw [hans] at hqx
      exact S.quiet x.1 c hop q hqx
  -- the closing request has one response, if it is for this host
  have hlast : ((S.service.serve σ ([b.last].filter
      (fun p => p.opcode = cmdNoop ∨ hosts.routed p = a))).1.flatMap Prod.snd).length ≤ 1 := by
    by_cases hown : b.last.opcode = cmdNoop ∨ hosts.routed b.last = a
    · rw [List.filter_cons_of_pos (by simpa using hown), List.filter_nil, Service.serve,
        Service.serve, List.flatMap_cons, List.flatMap_nil, List.append_nil]
      have hmem : (b.last, (S.service.step σ b.last).1) ∈ (S.service.serve σ [b.last]).1 := by
        simp [Service.serve]
      obtain ⟨_, ⟨_, hans⟩ | ⟨_, c, hans⟩⟩ := mem_answered hmem
      · dsimp only at hans ⊢
        rw [hans]
        simp
      · obtain ⟨q, hq, _⟩ := S.plain b.last c (last_ne_getkq b)
        dsimp only at hans ⊢
        rw [hans, hq]
        simp
    · rw [List.filter_cons_of_neg (by simpa using hown)]
      simp [Service.serve]
  intro q hq
  generalize (S.service.serve σ ([b.last].filter
    (fun p => p.opcode = cmdNoop ∨ hosts.routed p = a))).1.flatMap Prod.snd = ys at hlast hq
  cases ys with
  | nil =>
      rw [List.append_nil] at hq
      exact hquiet q (List.mem_of_mem_dropLast hq)
  | cons y more =>
      rw [List.length_cons] at hlast
      obtain rfl : more = [] := List.length_eq_zero_iff.mp (by omega)
      rw [List.dropLast_concat] at hq
      exact hquiet q hq

/-- A host that owns a key of the batch answers with a no-op if the batch has one. -/
theorem answer_ends (b : Batch) (hosts : HostTable) (store : List UInt8 → Cell) (a : Nat) :
    (∃ p ∈ S.answer store (b.asks hosts a), p.opcode = cmdNoop) ↔ b.last.opcode = cmdNoop := by
  constructor
  · rintro ⟨q, hq, hop⟩
    obtain ⟨x, hx, hqx⟩ := List.mem_flatMap.mp hq
    have hnoop := (noop_iff hx hqx).mp hop
    have hmem : x.1 ∈ b.packets.filter (fun p => p.opcode = cmdNoop) :=
      List.mem_filter.mpr ⟨List.mem_of_mem_filter (mem_answered hx).1, decide_eq_true hnoop⟩
    rw [Batch.noops_eq] at hmem
    split_ifs at hmem with hlast
    · exact hlast
    · cases hmem
  · intro hlast
    have hmem : b.last ∈ b.asks hosts a := by
      refine List.mem_filter.mpr ⟨by simp [Batch.packets], decide_eq_true (.inl hlast)⟩
    rw [← Service.serve_requests (S := S.service) store (b.asks hosts a)] at hmem
    obtain ⟨x, hx, hxl⟩ := List.mem_map.mp hmem
    obtain ⟨_, ⟨hnoop, hans⟩ | ⟨hkey, _⟩⟩ := mem_answered hx
    · exact ⟨S.noop x.1, List.mem_flatMap.mpr ⟨x, hx, by simp [hans]⟩, S.noop_opcode _⟩
    · rw [hxl] at hkey
      exact absurd hlast hkey

/-- The hits of an answer are the answers to the requests with a key. -/
theorem hits_answered {qs : List (Packet magicReq)} :
    hits ((S.service.serve store qs).1.flatMap Prod.snd) =
      Packet.concat (((S.service.serve store qs).1.filter
        (fun x => x.1.opcode ≠ cmdNoop)).flatMap Prod.snd) := by
  have hall : ∀ x ∈ (S.service.serve store qs).1, ∀ q ∈ x.2,
      (q.opcode = cmdNoop ↔ x.1.opcode = cmdNoop) := fun x hx q hq => noop_iff hx hq
  unfold hits
  congr 1
  generalize (S.service.serve store qs).1 = answered at hall
  induction answered with
  | nil => rfl
  | cons x answered ih =>
      have hrest := ih (fun y hy => hall y (List.mem_cons_of_mem _ hy))
      have hone := hall x List.mem_cons_self
      rw [List.flatMap_cons, List.filter_append, hrest]
      by_cases hnoop : x.1.opcode = cmdNoop
      · rw [List.filter_cons_of_neg (by simpa using hnoop),
          List.filter_eq_nil_iff.mpr (fun q hq => by simpa using (hone q hq).mpr hnoop),
          List.nil_append]
      · rw [List.filter_cons_of_pos (by simpa using hnoop), List.flatMap_cons,
          List.filter_eq_self.mpr (fun q hq => by simpa using fun hop => hnoop ((hone q hq).mp hop))]

/-! ## One event -/

variable {cfg : ProxyConfig} {stores : Nat → List UInt8 → Cell} {v : Visit}

theorem Meets.served (h : S.Meets cfg stores v) :
    v.batch.Served cfg v.out (fun a => S.answer (stores a) (v.batch.asks v.out.hosts a)) where
  noBackup := h.noBackup
  owned := h.owned
  keyed_ne := h.keyed_ne
  small := h.small
  takes := h.takes
  received := fun a ha =>
    ⟨h.delivers a ha, answer_quietFirst v.batch v.out.hosts (stores a) a, h.room a ha, h.cuts a ha⟩
  ends := fun a _ => answer_ends v.batch v.out.hosts (stores a) a
  fits := h.fits
  intact := h.intact

/-- The stores after an event, for any host: one that is not talked to would only be
asked for a no-op. -/
theorem storesAfter_eq (S : HostService Cell) (stores : Nat → List UInt8 → Cell) (v : Visit) :
    S.storesAfter stores v = fun a => (S.service.serve (stores a)
      (v.batch.packets.filter (S.service.PartOf v.out.hosts.routed a))).2 := by
  funext a
  rw [← asks_eq_part, storesAfter]
  split_ifs with htalked
  · rfl
  · have hnone : v.batch.keyed.filter (fun p => v.out.hosts.routed p = a) = [] :=
      List.filter_eq_nil_iff.mpr (fun p hp hpa => htalked ⟨p, hp, of_decide_eq_true hpa⟩)
    rw [Batch.asks_eq, hnone, List.nil_append, Batch.noops_eq]
    split_ifs with hnoop
    · simp [Service.serve, Service.step, service, Packet.requestKey, hnoop]
    · rfl

/-- The answers of the hosts, together. -/
theorem answers_once (b : Batch) (hosts : HostTable) (store : List UInt8 → Cell) :
    ((b.talkedTo hosts).flatMap (fun a =>
        answersOf hosts a (S.service.serve store b.packets).1)).Perm
      (((S.service.serve store b.packets).1.filter
        (fun x => x.1.opcode ≠ cmdNoop)).flatMap Prod.snd) := by
  have hkeys : (b.talkedTo hosts).Nodup := (b.talkedTo_sorted hosts).imp (fun h => ne_of_lt h)
  have howned : ∀ x ∈ (S.service.serve store b.packets).1.filter (fun x => x.1.opcode ≠ cmdNoop),
      hosts.routed x.1 ∈ b.talkedTo hosts := by
    intro x hx
    obtain ⟨hmem, hne⟩ := List.mem_filter.mp hx
    refine Batch.mem_talkedTo.mpr ⟨x.1, Batch.mem_keyed.mpr ⟨(mem_answered hmem).1, ?_⟩, rfl⟩
    simpa using hne
  have hmap := (Grouping.flatMap_filter_perm hkeys howned).flatMap_right Prod.snd
  rw [List.flatMap_assoc] at hmap
  refine (List.Perm.of_eq ?_).trans hmap
  refine List.flatMap_congr fun a _ => ?_
  rw [answersOf, List.filter_filter]
  congr 1
  refine List.filter_congr fun x _ => ?_
  rw [Bool.decide_and, Bool.and_comm]

/-- **One event**, when the stores at the homes of the keys `p` are those of one store. -/
theorem Meets.seenAs (h : S.Meets cfg stores v) (hbin : cfg.useBinary = true) {w : Worker}
    (hfresh : w.Fresh) (hempty : w.thread.backendBufLen = 0) {p : List UInt8 → Prop}
    [DecidablePred p] {home : List UInt8 → Nat}
    (hroute : S.service.RoutedHome p home v.out.hosts.routed v.batch.packets)
    (hstore : Service.Homed p home stores store) :
    ∃ t', (readEvent cfg v.out v.batch.bytes w).result = some ([], ⟨t', 0, []⟩) ∧
      t'.backendBufLen = 0 ∧ S.SeenAs p store v (readEvent cfg v.out v.batch.bytes w).effects := by
  obtain ⟨t', tail, hres, hleft, hsent, hreply, hnoop, hplain⟩ :=
    Batch.readEvent_served h.served hbin hfresh hempty
  refine ⟨t', hres, hleft, hsent, fun hkeys => ?_, answers_once v.batch v.out.hosts store⟩
  have hwithin : ∀ q ∈ v.batch.packets, S.service.Within p q := by
    intro q hq k hk
    simp only [service, Packet.requestKey] at hk
    split_ifs at hk with hop
    · cases hk
    · obtain rfl := Option.some.inj hk
      exact hkeys q (Batch.mem_keyed.mpr ⟨hq, hop⟩)
  have hhits : ∀ a, hits (S.answer (stores a) (v.batch.asks v.out.hosts a)) =
      Packet.concat (answersOf v.out.hosts a (S.service.serve store v.batch.packets).1) := by
    intro a
    have hown : ∀ answered : List (Packet magicReq × List (Packet magicRes)),
        (answered.filter (fun x => S.service.PartOf v.out.hosts.routed a x.1)).filter
          (fun x => x.1.opcode ≠ cmdNoop) =
        answered.filter (fun x => x.1.opcode ≠ cmdNoop ∧ v.out.hosts.routed x.1 = a) := by
      intro answered
      rw [List.filter_filter]
      refine List.filter_congr fun x _ => ?_
      rw [← Bool.decide_and, decide_eq_decide, Service.PartOf, key_eq_none_iff]
      by_cases hop : x.1.opcode = cmdNoop
      · simp [hop]
      · simp [hop]
    rw [answer, hits_answered, asks_eq_part (S := S), hstore.answers hroute hwithin a, hown,
      answersOf]
  have htail : tail = if v.batch.last.opcode = cmdNoop then (S.noop v.batch.last).bytes else [] := by
    split_ifs with hop
    · obtain ⟨a, q, _, hq, hqop, rfl⟩ := hnoop hop
      obtain ⟨x, hx, hqx⟩ := List.mem_flatMap.mp hq
      have hxop := (noop_iff hx hqx).mp hqop
      obtain ⟨hmem, ⟨_, hans⟩ | ⟨hne, _⟩⟩ := mem_answered hx
      · have hlast : x.1 ∈ v.batch.packets.filter (fun p => p.opcode = cmdNoop) :=
          List.mem_filter.mpr ⟨List.mem_of_mem_filter hmem, decide_eq_true hxop⟩
        rw [Batch.noops_eq, if_pos hop, List.mem_singleton] at hlast
        rw [hans, List.mem_singleton] at hqx
        rw [hqx, hlast]
      · exact absurd hxop hne
    · exact hplain hop
  have hall : (v.batch.talkedTo v.out.hosts).flatMap
      (fun a => hits (S.answer (stores a) (v.batch.asks v.out.hosts a))) =
        Packet.concat ((v.batch.talkedTo v.out.hosts).flatMap
          (fun a => answersOf v.out.hosts a (S.service.serve store v.batch.packets).1)) := by
    rw [Packet.concat, List.flatMap_assoc]
    exact List.flatMap_congr (fun a _ => hhits a)
  rw [hreply, htail, hall]

/-! ## A run of events -/

/-- **The hosts are one store.**  In every run of events with one batch each, whose hosts
take what they are sent and answer from their stores, a batch about keys whose requests
all go to one host is answered as by one store. -/
theorem serveVisits_seen (S : HostService Cell) {cfg : ProxyConfig}
    (hbin : cfg.useBinary = true) {p : List UInt8 → Prop} [DecidablePred p]
    {home : List UInt8 → Nat} {visits : List Visit}
    (hroute : ∀ v ∈ visits, S.service.RoutedHome p home v.out.hosts.routed v.batch.packets)
    {stores : Nat → List UInt8 → Cell} {store : List UInt8 → Cell}
    (hstore : ∀ k, p k → stores (home k) k = store k) {w : Worker} (hfresh : w.Fresh)
    (hempty : w.thread.backendBufLen = 0) (hmeets : S.MeetsAll cfg stores visits) :
    ∃ seen, serveVisits cfg w visits = some seen ∧ S.SeenAsOne p store visits seen := by
  induction visits generalizing stores store w with
  | nil => exact ⟨[], rfl, rfl⟩
  | cons v visits ih =>
      obtain ⟨hfirst, hrest⟩ := hmeets
      have hhere := hroute v List.mem_cons_self
      obtain ⟨t', hres, hleft, hseen⟩ := hfirst.seenAs hbin hfresh hempty hhere hstore
      have hnext := Service.Homed.serve (S := S.service) hstore hhere
      rw [← storesAfter_eq] at hnext
      obtain ⟨seen, hrun, hall⟩ := ih (fun x hx => hroute x (List.mem_cons_of_mem _ hx)) hnext
        (w := ⟨t', 0, []⟩) ⟨rfl, rfl⟩ hleft hrest
      refine ⟨(readEvent cfg v.out v.batch.bytes w).effects :: seen, ?_, _, seen, rfl, hseen, hall⟩
      simp [serveVisits, hres, hrun]

end HostService

end KvProxy
