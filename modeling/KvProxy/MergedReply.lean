import KvProxy.Answer
import KvProxy.FailAccounting

/-!
# The reply that is merged from the answers of several hosts

All hosts of a batch are read into one `resp_buf`, each from its start, while
the items of their answers are only offsets into it; `create_resp` follows the
offsets after the last host has been read.  So at each offset it finds the
byte of the last answer that is long enough (`overlay_get`), whosever response
the offset belongs to.

* `talkTurns_answers` — the items and the buffer after a batch in which every
  host answers;
* `answers_intact_iff`, `lastMarked_answers` — what `create_resp` finds at the
  items;
* `merged_reply_iff` — the reply is the merge of the answers exactly when no
  later answer overwrote a byte of an earlier one with another byte (and a
  no-op batch has a host to answer it);
* `second_answer_overwrites_first` — two hosts with one hit each.
-/

namespace KvProxy

open MachineInt

/-- The responses of an answer other than no-ops. -/
def hits (ps : List (Packet magicRes)) : List UInt8 :=
  Packet.concat (ps.filter (fun p => p.opcode ≠ cmdNoop))

/-- The no-op responses of an answer. -/
def noops (ps : List (Packet magicRes)) : List UInt8 :=
  Packet.concat (ps.filter (fun p => p.opcode = cmdNoop))

/-- The byte at offset `k` of the last of the answers that is longer than `k`. -/
def topByte : List (List (Packet magicRes)) → Nat → Option UInt8
  | [], _ => none
  | ps :: rest, k => (topByte rest k).or (Packet.concat ps)[k]?

/-- No later answer has another byte on top of a response of an earlier one. -/
def Intact : List (List (Packet magicRes)) → Prop
  | [] => True
  | ps :: rest =>
      (∀ k b, (hits ps)[k]? = some b → ∀ c, topByte rest k = some c → c = b) ∧ Intact rest

/-- The receive buffer after the answers have been read into it one by one. -/
def overlay (m : ByteMem) (answers : List (List (Packet magicRes))) : ByteMem :=
  answers.foldl (fun m ps => m.write 0 (Packet.concat ps)) m

/-- What lies at an offset of the receive buffer in the end. -/
theorem overlay_get (answers : List (List (Packet magicRes))) (m : ByteMem) (k : Nat) :
    overlay m answers k = (topByte answers k).getD (m k) := by
  induction answers generalizing m with
  | nil => rfl
  | cons ps rest ih =>
      rw [overlay, List.foldl_cons, ← overlay, ih, topByte]
      cases htop : topByte rest k with
      | some c => rfl
      | none =>
          simp only [Option.getD_none, Option.none_or]
          by_cases hk : k < (Packet.concat ps).length
          · have hw := ByteMem.write_of_mem m (Packet.concat ps) (p := 0) (i := (k : Int))
              (by omega) (by omega)
            simp only [Int.sub_zero, Int.toNat_natCast] at hw
            rw [← hw, Option.getD_some]
          · rw [ByteMem.write_of_ge m _ (by omega), List.getElem?_eq_none (by omega),
              Option.getD_none]

/-! ## The items of an answer -/

theorem respItem_marked (o : Nat) (p : Packet magicRes) :
    (respItem true o p.header).ext = endMark ↔ p.opcode = cmdNoop := by
  have hop : p.header.opcode = p.opcode := rfl
  by_cases hnoop : p.opcode = cmdNoop
  · simp [respItem, hop, hnoop]
  · simp only [respItem, hop, hnoop, if_false, iff_false]
    decide

theorem unmarked_append (xs ys : List Item) : unmarked (xs ++ ys) = unmarked xs ++ unmarked ys := by
  simp [unmarked]

theorem respItems_append (m : ByteMem) (xs ys : List Resp) :
    respItems m (xs ++ ys) = respItems m xs ++ respItems m ys := by
  simp [respItems]

/-- A no-op comes last in an answer. -/
theorem QuietFirst.noop_last {p : Packet magicRes} {ps : List (Packet magicRes)}
    (h : QuietFirst (p :: ps)) (hnoop : p.opcode = cmdNoop) : ps = [] := by
  cases ps with
  | nil => rfl
  | cons q qs =>
      have hget := h p (by simp)
      rw [hnoop] at hget
      exact absurd hget (by decide)

/-- An answer is its responses followed by its no-op. -/
theorem concat_eq_hits_append {ps : List (Packet magicRes)} (h : QuietFirst ps) :
    Packet.concat ps = hits ps ++ noops ps := by
  induction ps with
  | nil => rfl
  | cons p ps ih =>
      by_cases hnoop : p.opcode = cmdNoop
      · rw [h.noop_last hnoop]
        simp [hits, noops, hnoop]
      · have htail := ih h.tail
        simp only [hits, noops] at htail ⊢
        rw [List.filter_cons_of_pos (by simpa using hnoop),
          List.filter_cons_of_neg (by simpa using hnoop), Packet.concat_cons, Packet.concat_cons,
          htail, List.append_assoc]

/-- The unmarked contents of an answer's items are one slice of the buffer. -/
theorem unmarked_answer (m : ByteMem) {ps : List (Packet magicRes)} (h : QuietFirst ps) (o : Nat) :
    unmarked (respItems m (respItemsAt o ps)) = m.slice o (hits ps).length := by
  induction ps generalizing o with
  | nil => rfl
  | cons p ps ih =>
      have hmark := respItem_marked o p
      have hcons : respItems m (respItemsAt o (p :: ps)) =
          ((respItem true o p.header).ext, m.slice o p.length) ::
            respItems m (respItemsAt (o + p.length) ps) := by
        simp [respItemsAt, respItems, respItem_bytes]
      rw [hcons]
      by_cases hnoop : p.opcode = cmdNoop
      · rw [h.noop_last hnoop]
        simp [unmarked, hmark.mpr hnoop, respItemsAt, respItems, hits, hnoop]
      · have hne : (respItem true o p.header).ext ≠ endMark := fun heq => hnoop (hmark.mp heq)
        have htail := ih h.tail (o + p.length)
        have hhits : (hits (p :: ps)).length = p.length + (hits ps).length := by
          simp only [hits]
          rw [List.filter_cons_of_pos (by simpa using hnoop), Packet.length_concat_cons]
        rw [hhits, ByteMem.slice_add]
        simp only [unmarked] at htail ⊢
        rw [List.filter_cons_of_pos (by simpa using hne), List.flatMap_cons, htail]
        simp

/-- The unmarked contents of all items: one slice per answer, all from the
start of the buffer. -/
theorem unmarked_answers (m : ByteMem) (answers : List (List (Packet magicRes)))
    (hquiet : ∀ ps ∈ answers, QuietFirst ps) :
    unmarked (respItems m (answers.flatMap (respItemsAt 0))) =
      answers.flatMap (fun ps => m.slice 0 (hits ps).length) := by
  induction answers with
  | nil => rfl
  | cons ps rest ih =>
      rw [List.flatMap_cons, List.flatMap_cons, respItems_append, unmarked_append,
        unmarked_answer m (hquiet ps List.mem_cons_self),
        ih (fun qs hqs => hquiet qs (List.mem_cons_of_mem _ hqs))]
      rfl

/-- The responses of one answer are still in the buffer exactly when the
answers behind it have no other byte there. -/
theorem slice_overlay_iff {ps : List (Packet magicRes)} (hquiet : QuietFirst ps)
    (rest : List (List (Packet magicRes))) (m : ByteMem) :
    (overlay (m.write 0 (Packet.concat ps)) rest).slice 0 (hits ps).length = hits ps ↔
      ∀ k b, (hits ps)[k]? = some b → ∀ c, topByte rest k = some c → c = b := by
  have hown : ∀ (k : Nat) (b : UInt8), (hits ps)[k]? = some b → m.write 0 (Packet.concat ps) k = b := by
    intro k b hb
    have hk : k < (hits ps).length := (List.getElem?_eq_some_iff.mp hb).1
    have hconcat := concat_eq_hits_append hquiet
    have hlen : (Packet.concat ps).length = (hits ps).length + (noops ps).length := by
      rw [hconcat, List.length_append]
    have hw := ByteMem.write_of_mem m (Packet.concat ps) (p := 0) (i := (k : Int))
      (by omega) (by omega)
    rw [Int.sub_zero, Int.toNat_natCast, hconcat, List.getElem?_append_left hk, hb,
      ← hconcat] at hw
    exact Option.some.inj hw
  have hself : hits ps = (m.write 0 (Packet.concat ps)).slice 0 (hits ps).length := by
    rw [concat_eq_hits_append hquiet, ← ByteMem.write_zero_append,
      ByteMem.slice_write_before _ _ (by omega), ByteMem.slice_write_self]
  constructor
  · intro heq k b hb c hc
    have hk : k < (hits ps).length := (List.getElem?_eq_some_iff.mp hb).1
    have hsame := ByteMem.slice_eq_iff.mp (heq.trans hself) (k : Int) (by omega) (by omega)
    rw [overlay_get, hc, hown k b hb] at hsame
    exact hsame
  · intro hkeep
    refine Eq.trans (ByteMem.slice_congr ?_) hself.symm
    intro i hlo hhi
    obtain ⟨k, rfl⟩ : ∃ k : Nat, i = k := ⟨i.toNat, by omega⟩
    have hk : k < (hits ps).length := by omega
    have hb : (hits ps)[k]? = some ((hits ps).get ⟨k, hk⟩) := by simp [hk]
    rw [overlay_get, hown k _ hb]
    cases htop : topByte rest k with
    | none => rfl
    | some c => exact hkeep k _ hb c htop

/-- **What `create_resp` finds at the items** is what the hosts sent exactly
when no answer lies on top of an earlier one. -/
theorem answers_intact_iff (answers : List (List (Packet magicRes)))
    (hquiet : ∀ ps ∈ answers, QuietFirst ps) (m : ByteMem) :
    answers.flatMap (fun ps => (overlay m answers).slice 0 (hits ps).length) =
      answers.flatMap hits ↔ Intact answers := by
  induction answers generalizing m with
  | nil => simp [Intact]
  | cons ps rest ih =>
      have hrest := ih (fun qs hqs => hquiet qs (List.mem_cons_of_mem _ hqs))
        (m.write 0 (Packet.concat ps))
      have hover : overlay m (ps :: rest) = overlay (m.write 0 (Packet.concat ps)) rest := rfl
      rw [List.flatMap_cons, List.flatMap_cons, hover, Intact, ← hrest,
        ← slice_overlay_iff (hquiet ps List.mem_cons_self) rest m]
      constructor
      · intro heq
        exact List.append_inj heq (by simp)
      · intro hsplit
        obtain ⟨hhead, htail⟩ := hsplit
        rw [hhead, htail]

/-! ## The no-op of the reply -/

theorem lastMarked_concat (items : List Item) {it : Item} (hmark : it.1 = endMark) :
    lastMarked (items ++ [it]) = it.2 := by
  simp [lastMarked, List.filter_append, hmark]

/-- The no-op of a complete answer is its last packet. -/
theorem QuietFirst.noop_split {ps : List (Packet magicRes)} (h : QuietFirst ps)
    (hnoop : ∃ p ∈ ps, p.opcode = cmdNoop) :
    ∃ qs p, ps = qs ++ [p] ∧ p.opcode = cmdNoop := by
  induction ps with
  | nil => exact absurd hnoop (by simp)
  | cons q qs ih =>
      by_cases hq : q.opcode = cmdNoop
      · exact ⟨[], q, by rw [h.noop_last hq]; rfl, hq⟩
      · have hrest : ∃ p ∈ qs, p.opcode = cmdNoop := by
          obtain ⟨p, hp, hop⟩ := hnoop
          rcases List.mem_cons.mp hp with rfl | hp
          · exact absurd hop hq
          · exact ⟨p, hp, hop⟩
        obtain ⟨rs, p, rfl, hop⟩ := ih h.tail hrest
        exact ⟨q :: rs, p, rfl, hop⟩

/-- The no-op `create_resp` ends with is the one of the last host, and nothing
has been received on top of it. -/
theorem lastMarked_answers (m : ByteMem) (init : List (List (Packet magicRes)))
    (qs : List (Packet magicRes)) {p : Packet magicRes} (hnoop : p.opcode = cmdNoop) :
    lastMarked (respItems (overlay m (init ++ [qs ++ [p]]))
      ((init ++ [qs ++ [p]]).flatMap (respItemsAt 0))) = p.bytes := by
  have hover : overlay m (init ++ [qs ++ [p]]) =
      (overlay m init).write 0 (Packet.concat qs ++ p.bytes) := by
    simp [overlay]
  have hitems : (init ++ [qs ++ [p]]).flatMap (respItemsAt 0) =
      (init.flatMap (respItemsAt 0) ++ respItemsAt 0 qs) ++
        [respItem true (Packet.concat qs).length p.header] := by
    simp [respItemsAt_append, respItemsAt]
  have hslice : (overlay m (init ++ [qs ++ [p]])).slice (Packet.concat qs).length p.length =
      p.bytes := by
    rw [hover, ← ByteMem.write_zero_append]
    exact ByteMem.slice_write_self _ _ _
  rw [hitems, respItems_append]
  simp only [respItems, List.map_cons, List.map_nil]
  rw [lastMarked_concat _ ((respItem_marked (Packet.concat qs).length p).mpr hnoop),
    respItem_bytes]
  exact hslice

theorem respItemsAt_unmarked {ps : List (Packet magicRes)}
    (hnone : ∀ p ∈ ps, p.opcode ≠ cmdNoop) (o : Nat) :
    ∀ r ∈ respItemsAt o ps, r.ext ≠ endMark := by
  induction ps generalizing o with
  | nil => intro r hr; simp [respItemsAt] at hr
  | cons p ps ih =>
      intro r hr
      rw [respItemsAt, List.mem_cons] at hr
      rcases hr with rfl | hr
      · exact fun hmark => hnone p List.mem_cons_self ((respItem_marked o p).mp hmark)
      · exact ih (fun q hq => hnone q (List.mem_cons_of_mem _ hq)) _ r hr

/-- Without a no-op among the answers the reply ends with the responses. -/
theorem lastMarked_eq_nil (m : ByteMem) (answers : List (List (Packet magicRes)))
    (hnone : ∀ ps ∈ answers, ∀ p ∈ ps, p.opcode ≠ cmdNoop) :
    lastMarked (respItems m (answers.flatMap (respItemsAt 0))) = [] := by
  have hfilter : (respItems m (answers.flatMap (respItemsAt 0))).filter
      (fun it => it.1 = endMark) = [] := by
    rw [List.filter_eq_nil_iff]
    intro it hit
    obtain ⟨r, hr, rfl⟩ := List.mem_map.mp hit
    obtain ⟨ps, hps, hr⟩ := List.mem_flatMap.mp hr
    simpa using respItemsAt_unmarked (hnone ps hps) 0 r hr
  rw [lastMarked, hfilter]
  rfl

/-! ## A batch in which every host answers -/

/-- Every turn of a batch gets a connection and sends its whole message, at
the state in which it starts. -/
def AllReached (cfg : BackendConfig) : List Turn → Thread → List Resp → Prop
  | [], _, _ => True
  | turn :: rest, t, respList =>
      (∃ fd, readsFrom turn t = some fd) ∧
        ∀ t' respList', (talkTurn cfg turn t respList).result = some (t', respList') →
          AllReached cfg rest t' respList'

/-- The answer of a host is received whole, in pieces of which each passes what
the parser has taken too early. -/
structure Received (cfg : BackendConfig) (recvs : List RecvResult)
    (ps : List (Packet magicRes)) : Prop where
  delivers : Delivers recvs (Packet.concat ps)
  quiet : QuietFirst ps
  room : (Packet.concat ps).length < cfg.respBufSize
  cuts : CutsPassed ps 0 (piecesOf recvs)

/-- **One turn** writes its host's answer over the start of `resp_buf`. -/
theorem talkTurn_answer {cfg : BackendConfig} {turn : Turn} {t : Thread} {fd : Nat}
    (hfrom : readsFrom turn t = some fd) {ps : List (Packet magicRes)}
    (h : Received cfg turn.io.recvs ps) (respList : List Resp) :
    ∃ t', (talkTurn cfg turn t respList).result = some (t', respList ++ respItemsAt 0 ps) ∧
      t'.respBuf = t.respBuf.write 0 (Packet.concat ps) := by
  obtain ⟨sending, _, hturn⟩ := talkTurn_of_readsFrom cfg hfrom respList
  have hread := readFromBackend_answer fd h.delivers h.quiet h.room h.cuts
    (t.staged turn.items) respList
  rw [hturn]
  unfold readTurn
  rw [Act.bind_of_some _ hread, countFail_bind]
  exact ⟨_, rfl, Thread.respBuf_count _ _ _ _⟩

/-- **All turns** of a batch. -/
theorem talkTurns_answers {cfg : BackendConfig} (answers : Nat → List (Packet magicRes))
    (turns : List Turn) (t : Thread) (respList : List Resp)
    (hreached : AllReached cfg turns t respList)
    (h : ∀ turn ∈ turns, Received cfg turn.io.recvs (answers turn.aliasIndex)) :
    ∃ t', (talkTurns cfg turns t respList).result = some (t', respList ++
        (turns.map (fun turn => answers turn.aliasIndex)).flatMap (respItemsAt 0)) ∧
      t'.respBuf = overlay t.respBuf (turns.map (fun turn => answers turn.aliasIndex)) := by
  induction turns generalizing t respList with
  | nil => exact ⟨t, by simp [talkTurns], rfl⟩
  | cons turn rest ih =>
      obtain ⟨⟨fd, hfrom⟩, hlater⟩ := hreached
      obtain ⟨u, hres, hbuf⟩ := talkTurn_answer hfrom (h turn List.mem_cons_self) respList
      obtain ⟨t', hrest, hover⟩ := ih u _ (hlater u _ hres)
        (fun turn' hmem => h turn' (List.mem_cons_of_mem _ hmem))
      rw [talkTurns_of_some hres]
      refine ⟨t', ?_, ?_⟩
      · rw [hrest, List.append_assoc]
        rfl
      · rw [hover, hbuf]
        rfl

/-- What `talkToBackend` leaves for the client when every host answers: the
contents of the items as they lie in `resp_buf` at the end. -/
theorem talkToBackend_answers {cfg : BackendConfig} {originReq : ByteMem}
    {groups : SortedMap Nat (List Req)} {io : Nat → HostIo} {t : Thread}
    (answers : Nat → List (Packet magicRes))
    (hreached : AllReached cfg (reqTurns originReq groups io) t [])
    (h : ∀ g ∈ groups.entries, Received cfg (io g.1).recvs (answers g.1)) {as : List _}
    (has : as = groups.entries.map (fun g => answers g.1))
    (hfit : ((payload (respItems (overlay t.respBuf as) (as.flatMap (respItemsAt 0)))).length :
      Int) ≤ cfg.clientBufSize) :
    ∃ t', (talkToBackend cfg originReq groups io t).result = some t' ∧
      t'.reply = payload (respItems (overlay t.respBuf as) (as.flatMap (respItemsAt 0))) := by
  have hmap : (reqTurns originReq groups io).map (fun turn => answers turn.aliasIndex) = as := by
    rw [has]
    simp [reqTurns, Function.comp_def]
  obtain ⟨u, hres, hbuf⟩ := talkTurns_answers answers (reqTurns originReq groups io) t [] hreached
    (by simpa only [reqTurns, List.forall_mem_map] using h)
  rw [hmap, List.nil_append] at hres
  rw [hmap] at hbuf
  have hcreate := createResp_eq (overlay t.respBuf as) (as.flatMap (respItemsAt 0)) u.clientBuf
    (le_refl (0 : Int)) cfg.clientBufSize_lt (by omega)
  unfold talkToBackend
  rw [Act.bind_of_some _ hres]
  refine ⟨_, rfl, ?_⟩
  simp only [Thread.reply, hbuf, hcreate]
  rw [Int.zero_add, Int.toNat_natCast]
  exact ByteMem.slice_write_self _ _ _

/-- The hosts of a batch answer completely and validly, and the answers fit
the client's buffer; `noop` says whether the batch ended in a no-op. -/
structure Answered (cfg : BackendConfig) (groups : SortedMap Nat (List Req)) (io : Nat → HostIo)
    (answers : Nat → List (Packet magicRes)) (noop : Bool) : Prop where
  delivers : ∀ g ∈ groups.entries, Delivers (io g.1).recvs (Packet.concat (answers g.1))
  quiet : ∀ g ∈ groups.entries, QuietFirst (answers g.1)
  ends : ∀ g ∈ groups.entries, (∃ p ∈ answers g.1, p.opcode = cmdNoop) ↔ noop = true
  fits : ((groups.entries.flatMap (fun g => hits (answers g.1))).length : Int) ≤ cfg.clientBufSize
  noop_fits : ∀ g ∈ groups.entries, ∀ p ∈ answers g.1, p.opcode = cmdNoop →
    ((groups.entries.flatMap (fun g => hits (answers g.1))).length : Int) + p.length ≤
      cfg.clientBufSize

/-- `talkToBackend` returns and leaves in `client_buf` all responses of all
hosts, in the order of the aliases, and, for a batch that ended in a no-op,
one of the no-ops. -/
def Merged (cfg : BackendConfig) (originReq : ByteMem) (groups : SortedMap Nat (List Req))
    (io : Nat → HostIo) (answers : Nat → List (Packet magicRes)) (noop : Bool) (t : Thread) :
    Prop :=
  ∃ t' tail, (talkToBackend cfg originReq groups io t).result = some t' ∧
    t'.reply = groups.entries.flatMap (fun g => hits (answers g.1)) ++ tail ∧
    (noop = true → ∃ g ∈ groups.entries, ∃ p ∈ answers g.1, p.opcode = cmdNoop ∧
      tail = p.bytes) ∧
    (noop = false → tail = [])

/-- The end of the reply, in a batch with a host. -/
theorem lastMarked_tail (m : ByteMem) {as : List (List (Packet magicRes))} {noop : Bool}
    (hquiet : ∀ ps ∈ as, QuietFirst ps)
    (hends : ∀ ps ∈ as, (∃ p ∈ ps, p.opcode = cmdNoop) ↔ noop = true)
    (hhost : noop = true → as ≠ []) :
    (noop = true → ∃ ps ∈ as, ∃ p ∈ ps, p.opcode = cmdNoop ∧
      lastMarked (respItems (overlay m as) (as.flatMap (respItemsAt 0))) = p.bytes) ∧
    (noop = false →
      lastMarked (respItems (overlay m as) (as.flatMap (respItemsAt 0))) = []) := by
  constructor
  · intro hnoop
    obtain ⟨init, last, rfl⟩ := (List.eq_nil_or_concat' as).resolve_left (hhost hnoop)
    have hmem : last ∈ init ++ [last] := by simp
    obtain ⟨qs, p, rfl, hop⟩ := (hquiet last hmem).noop_split ((hends last hmem).mpr hnoop)
    exact ⟨_, hmem, p, by simp, hop, lastMarked_answers m init qs hop⟩
  · intro hno
    apply lastMarked_eq_nil
    intro ps hps p hp hop
    have htrue := (hends ps hps).mp ⟨p, hp, hop⟩
    rw [hno] at htrue
    exact absurd htrue (by decide)

/-- The reply of a batch whose no-op, if it has one, reached a host: for each
answer as many bytes of `resp_buf` as its hits have, and the end. -/
theorem talkToBackend_reply {cfg : BackendConfig} {originReq : ByteMem}
    {groups : SortedMap Nat (List Req)} {io : Nat → HostIo} {t : Thread}
    {answers : Nat → List (Packet magicRes)} {noop : Bool}
    (hreached : AllReached cfg (reqTurns originReq groups io) t [])
    (h : Answered cfg groups io answers noop)
    (hroom : ∀ g ∈ groups.entries, (Packet.concat (answers g.1)).length < cfg.respBufSize)
    (hcuts : ∀ g ∈ groups.entries, CutsPassed (answers g.1) 0 (piecesOf (io g.1).recvs))
    (hhost : noop = true → groups.entries ≠ []) {as : List (List (Packet magicRes))}
    (has : as = groups.entries.map (fun g => answers g.1)) :
    ∃ t' tail, (talkToBackend cfg originReq groups io t).result = some t' ∧
      t'.reply =
        as.flatMap (fun ps => (overlay t.respBuf as).slice 0 (hits ps).length) ++ tail ∧
      (noop = true → ∃ g ∈ groups.entries, ∃ p ∈ answers g.1, p.opcode = cmdNoop ∧
        tail = p.bytes) ∧
      (noop = false → tail = []) := by
  have hquiet : ∀ ps ∈ as, QuietFirst ps := by
    rw [has]
    simpa only [List.forall_mem_map] using h.quiet
  have hends : ∀ ps ∈ as, (∃ p ∈ ps, p.opcode = cmdNoop) ↔ noop = true := by
    rw [has]
    simpa only [List.forall_mem_map] using h.ends
  have hsome : noop = true → as ≠ [] := by
    intro hnoop hempty
    rw [has] at hempty
    exact hhost hnoop (List.map_eq_nil_iff.mp hempty)
  obtain ⟨htail, hnone⟩ := lastMarked_tail t.respBuf hquiet hends hsome
  have hend : noop = true → ∃ g ∈ groups.entries, ∃ p ∈ answers g.1, p.opcode = cmdNoop ∧
      lastMarked (respItems (overlay t.respBuf as) (as.flatMap (respItemsAt 0))) = p.bytes := by
    intro hnoop
    obtain ⟨ps, hps, p, hp, hop, hbytes⟩ := htail hnoop
    rw [has] at hps
    obtain ⟨g, hg, rfl⟩ := List.mem_map.mp hps
    exact ⟨g, hg, p, hp, hop, hbytes⟩
  have hpayload : payload (respItems (overlay t.respBuf as) (as.flatMap (respItemsAt 0))) =
      as.flatMap (fun ps => (overlay t.respBuf as).slice 0 (hits ps).length) ++
        lastMarked (respItems (overlay t.respBuf as) (as.flatMap (respItemsAt 0))) := by
    rw [payload, unmarked_answers _ as hquiet]
  -- the reply is as long as it should be, whatever its bytes are
  have hlen : (as.flatMap (fun ps => (overlay t.respBuf as).slice 0 (hits ps).length)).length =
      (groups.entries.flatMap (fun g => hits (answers g.1))).length := by
    rw [has]
    simp [List.length_flatMap, Function.comp_def]
  have hfit : ((payload (respItems (overlay t.respBuf as)
      (as.flatMap (respItemsAt 0)))).length : Int) ≤ cfg.clientBufSize := by
    rw [hpayload, List.length_append, hlen]
    cases hnoop : noop with
    | false =>
        rw [hnone hnoop]
        simpa using h.fits
    | true =>
        obtain ⟨g, hg, p, hp, hop, hbytes⟩ := hend hnoop
        rw [hbytes]
        push_cast
        exact h.noop_fits g hg p hp hop
  obtain ⟨t', hres, hreply⟩ := talkToBackend_answers answers hreached
    (fun g hg => ⟨h.delivers g hg, h.quiet g hg, hroom g hg, hcuts g hg⟩) has hfit
  exact ⟨t', _, hres, hreply.trans hpayload, hend, hnone⟩

/-- **The merged reply.**  When every host is reached and its answer is
received whole, the reply is the merge of the answers exactly when no later
answer has another byte on top of a response of an earlier one, and a batch
that ended in a no-op has a host. -/
theorem merged_reply_iff {cfg : BackendConfig} {originReq : ByteMem}
    {groups : SortedMap Nat (List Req)} {io : Nat → HostIo} {t : Thread}
    {answers : Nat → List (Packet magicRes)} {noop : Bool}
    (hreached : AllReached cfg (reqTurns originReq groups io) t [])
    (h : Answered cfg groups io answers noop)
    (hroom : ∀ g ∈ groups.entries, (Packet.concat (answers g.1)).length < cfg.respBufSize)
    (hcuts : ∀ g ∈ groups.entries, CutsPassed (answers g.1) 0 (piecesOf (io g.1).recvs)) :
    Merged cfg originReq groups io answers noop t ↔
      Intact (groups.entries.map (fun g => answers g.1)) ∧
        (noop = true → groups.entries ≠ []) := by
  generalize has : groups.entries.map (fun g => answers g.1) = as
  have hquiet : ∀ ps ∈ as, QuietFirst ps := by
    rw [← has]
    simpa only [List.forall_mem_map] using h.quiet
  have hhits : groups.entries.flatMap (fun g => hits (answers g.1)) = as.flatMap hits := by
    rw [← has, List.flatMap_map]
  have hlen : (as.flatMap (fun ps => (overlay t.respBuf as).slice 0 (hits ps).length)).length =
      (as.flatMap hits).length := by
    simp [List.length_flatMap]
  constructor
  · intro hmerged
    obtain ⟨u, tail, hu, htail, hnoop, _⟩ := hmerged
    -- a no-op without a host is not answered
    have hhost : noop = true → groups.entries ≠ [] := by
      intro htrue
      obtain ⟨g, hg, _⟩ := hnoop htrue
      exact List.ne_nil_of_mem hg
    obtain ⟨t', tail', hres, hreply, _⟩ :=
      talkToBackend_reply hreached h hroom hcuts hhost has.symm
    obtain rfl := Option.some.inj (hres.symm.trans hu)
    rw [hreply, hhits] at htail
    exact ⟨(answers_intact_iff as hquiet t.respBuf).mp (List.append_inj htail hlen).1, hhost⟩
  · intro hsplit
    obtain ⟨hintact, hhost⟩ := hsplit
    obtain ⟨t', tail, hres, hreply, hend⟩ :=
      talkToBackend_reply hreached h hroom hcuts hhost has.symm
    refine ⟨t', tail, hres, ?_, hend⟩
    rw [hreply, (answers_intact_iff as hquiet t.respBuf).mpr hintact, hhits]

/-- A hit of a quiet get: the key and the value `"x"`. -/
def hitPacket (key : UInt8) : Packet magicRes where
  bytes := packetHeader 0x81 0x0d 1 4 6 ++ [0, 0, 0, 0, key, 120]
  header_le := by simp [packetHeader]
  length_lt := by simp [packetHeader]
  magic_eq := rfl
  body_eq := by simp [be32, ByteMem.ofList, packetHeader]

/-- The answer to a no-op. -/
def noopPacket : Packet magicRes where
  bytes := packetHeader 0x81 0x0a 0 0 0
  header_le := by decide
  length_lt := by decide
  magic_eq := rfl
  body_eq := rfl

/-- Host `1` misses `"a"` and host `2` finds `"b"`. -/
def oneHit : Nat → List (Packet magicRes)
  | 1 => [noopPacket]
  | _ => [hitPacket 98, noopPacket]

/-- Both hosts find their key. -/
def twoHits : Nat → List (Packet magicRes)
  | 1 => [hitPacket 97, noopPacket]
  | _ => [hitPacket 98, noopPacket]

/-- Both hosts take the request; an answer comes in two pieces, ten bytes first. -/
def inTwoPieces (answers : Nat → List (Packet magicRes)) : Nat → HostIo := fun a =>
  ⟨a + 4, [.sent 100],
    [.data ((Packet.concat (answers a)).take 10) false ⟨0, 0, 0, 0⟩, .selectIntr,
      .data ((Packet.concat (answers a)).drop 10) false ⟨0, 0, 0, 0⟩]⟩

theorem inTwoPieces_delivers {answers : Nat → List (Packet magicRes)} {a : Nat}
    (hlen : 10 < (Packet.concat (answers a)).length) :
    Delivers (inTwoPieces answers a).recvs (Packet.concat (answers a)) := by
  have hfirst : (Packet.concat (answers a)).take 10 ≠ [] := by
    apply List.ne_nil_of_length_pos
    rw [List.length_take]
    omega
  have hlast : (Packet.concat (answers a)).drop 10 ≠ [] := by
    apply List.ne_nil_of_length_pos
    rw [List.length_drop]
    omega
  have hdel : Delivers (inTwoPieces answers a).recvs ((Packet.concat (answers a)).take 10 ++
      ((Packet.concat (answers a)).drop 10 ++ [])) :=
    .piece hfirst (.wait (.inl rfl) (.piece hlast (.idle (by simp))))
  rwa [List.append_nil, List.take_append_drop] at hdel

/-- A batch of two hosts. -/
theorem AllReached.of_two {cfg : BackendConfig} {a b : Turn} {t : Thread} (fd fd' : Nat)
    (hfirst : readsFrom a t = some fd)
    (hsecond : (talkTurn cfg a t []).result.map (fun r => readsFrom b r.1) = some (some fd')) :
    AllReached cfg [a, b] t [] := by
  refine ⟨⟨fd, hfirst⟩, fun t' respList hres => ⟨⟨fd', ?_⟩, fun _ _ _ => trivial⟩⟩
  rw [hres] at hsecond
  exact Option.some.inj hsecond

theorem twoKeys_answered {answers : Nat → List (Packet magicRes)}
    (hlen : ∀ a ∈ [1, 2], 10 < (Packet.concat (answers a)).length)
    (hquiet : ∀ a ∈ [1, 2], QuietFirst (answers a))
    (hends : ∀ a ∈ [1, 2], ∃ p ∈ answers a, p.opcode = cmdNoop)
    (hfits : ∀ a ∈ [1, 2], (hits (answers 1)).length + (hits (answers 2)).length +
      (Packet.concat (answers a)).length ≤ 1048576) :
    Answered .default twoKeysGroups (inTwoPieces answers) answers true := by
  have hkeys : ∀ g ∈ twoKeysGroups.entries, g.1 ∈ [1, 2] := by decide +kernel
  have hall : twoKeysGroups.entries.flatMap (fun g => hits (answers g.1)) =
      hits (answers 1) ++ hits (answers 2) := by
    have hmap : twoKeysGroups.entries.map Prod.fst = [1, 2] := by decide +kernel
    have hcomp : twoKeysGroups.entries.flatMap (fun g => hits (answers g.1)) =
        (twoKeysGroups.entries.map Prod.fst).flatMap (fun a => hits (answers a)) :=
      (List.flatMap_map _ _ _).symm
    rw [hcomp, hmap]
    simp
  have hcap : (BackendConfig.default).clientBufSize = 1048576 := rfl
  refine ⟨fun g hg => inTwoPieces_delivers (hlen _ (hkeys g hg)),
    fun g hg => hquiet _ (hkeys g hg), fun g hg => by simpa using hends _ (hkeys g hg), ?_, ?_⟩
  · have := hfits 1 (by simp)
    rw [hall, List.length_append, hcap]
    omega
  · intro g hg p hp _
    have hroom := hfits _ (hkeys g hg)
    have hsub : p.length ≤ (Packet.concat (answers g.1)).length := by
      obtain ⟨before, after, hsplit⟩ := List.append_of_mem hp
      rw [hsplit, Packet.concat_append, List.length_append, Packet.length_concat_cons]
      omega
    rw [hall, List.length_append, hcap]
    omega

theorem merged_reply_one_hit :
    Merged .default twoKeys twoKeysGroups (inTwoPieces oneHit) oneHit true (.new (fun _ => 0)) := by
  have hkeys : ∀ g ∈ twoKeysGroups.entries, g.1 = 1 ∨ g.1 = 2 := by decide +kernel
  refine (merged_reply_iff ?_ ?_ ?_ ?_).mpr ⟨?_, ?_⟩
  · exact AllReached.of_two 5 6 (by decide +kernel) (by decide +kernel)
  · exact twoKeys_answered (by decide) (by decide) (by decide) (by decide)
  · intro g hg
    rcases hkeys g hg with h | h <;> rw [h] <;> decide
  · intro g hg
    rcases hkeys g hg with h | h <;> rw [h] <;> decide
  · refine ⟨?_, ?_, trivial⟩
    · intro k b hb
      have hmiss : hits (oneHit 1) = [] := by decide
      exact absurd hb (by simp [hmiss])
    · intro k b _ c hc
      exact absurd hc (by simp [topByte])
  · decide

/-- **The second answer overwrites the first.**  Both hosts are reached and
send their hit and their no-op, and the client gets the hit of host `2` twice. -/
theorem second_answer_overwrites_first :
    AllReached .default (reqTurns twoKeys twoKeysGroups (inTwoPieces twoHits))
      (.new (fun _ => 0)) [] ∧
    Answered .default twoKeysGroups (inTwoPieces twoHits) twoHits true ∧
    (talkToBackend .default twoKeys twoKeysGroups (inTwoPieces twoHits)
      (.new (fun _ => 0))).result.map Thread.reply =
        some ((hitPacket 98).bytes ++ (hitPacket 98).bytes ++ noopPacket.bytes) ∧
    ¬ Merged .default twoKeys twoKeysGroups (inTwoPieces twoHits) twoHits true
      (.new (fun _ => 0)) := by
  have hreply : (talkToBackend .default twoKeys twoKeysGroups (inTwoPieces twoHits)
      (.new (fun _ => 0))).result.map Thread.reply =
        some ((hitPacket 98).bytes ++ (hitPacket 98).bytes ++ noopPacket.bytes) := by
    decide +kernel
  have hhits : twoKeysGroups.entries.flatMap (fun g => hits (twoHits g.1)) =
      (hitPacket 97).bytes ++ (hitPacket 98).bytes := by
    decide +kernel
  refine ⟨?_, ?_, hreply, ?_⟩
  · exact AllReached.of_two 5 6 (by decide +kernel) (by decide +kernel)
  · exact twoKeys_answered (by decide) (by decide) (by decide) (by decide)
  · intro hsplit
    obtain ⟨t', tail, hres, heq, _, _⟩ := hsplit
    rw [hres, Option.map_some, heq, hhits] at hreply
    have hbytes := Option.some.inj hreply
    rw [List.append_assoc, List.append_assoc] at hbytes
    have hfirst := (List.append_inj hbytes rfl).1
    exact absurd hfirst (by decide)

end KvProxy
