import KvProxy.Reading

/-!
# Which host a failure is counted for

After a host has been read, `talkToBackend` counts a failure if the response
list is empty.  The list is shared by the hosts of the batch, so the test asks
whether *some* host has answered since the last parse error, not whether this
one has.

* `talkTurn_silent`, `talkTurn_read` — what one turn counts, in terms of what
  this host's own bytes parse to;
* `talkTurns_counted_iff` — a batch counts every host rightly exactly when
  each turn is fair: a host that gives no response finds an empty list, and
  no response of a host is thrown away by a parse error of its own;
* `silent_host_counted_alive` — a silent host behind one that answers.
-/

namespace KvProxy

/-- The call of `countFail` an effect stands for. -/
def Effect.counted : Effect → Option (Bool × Nat)
  | .countFail isFail aliasIndex => some (isFail, aliasIndex)
  | _ => none

/-- The calls of `countFail` along a trace. -/
def countCalls (effects : List Effect) : List (Bool × Nat) := effects.filterMap Effect.counted

/-- The effects of one host's turn. -/
def effectsOf (aliasIndex : Nat) (effects : List (Nat × Effect)) : List Effect :=
  effects.filterMap (fun e => if e.1 = aliasIndex then some e.2 else none)

/-- One call of `countFail` for the host, with `is_fail` exactly when none of
its effects is a parsed response. -/
def Counted (aliasIndex : Nat) (effects : List Effect) : Prop :=
  countCalls effects = [(decide (parsedItems effects = []), aliasIndex)]

/-- What the bytes of one host parse to, on their own: its responses, and
whether they end in a parse error. -/
structure Answer where
  items : List Resp
  garbled : Bool
  deriving DecidableEq

/-- The answer of a host, read with no response of another host around;
`none` when the parser never returns on it. -/
def hostAnswer (cfg : BackendConfig) (fd : Nat) (recvs : List RecvResult) (t : Thread) :
    Option Answer :=
  (readFromBackend cfg fd recvs t []).result.map (fun _ =>
    ⟨parsedItems (readFromBackend cfg fd recvs t []).effects,
      parseError (readFromBackend cfg fd recvs t []).effects⟩)

/-- The connection a turn reads from, if it gets a connection and sends its
whole message. -/
def readsFrom (turn : Turn) (t : Thread) : Option Nat :=
  if (t.staged turn.items).backendBufLen = 0 ∨ turn.io.conn = 0 then none
  else
    match (writeLoop (t.staged turn.items).message turn.io.sends turn.io.conn 0).result with
    | none => none
    | some sent => if sent.2 ≥ (t.staged turn.items).backendBufLen then some sent.1 else none

/-- What a turn does once its message is sent. -/
def readTurn (cfg : BackendConfig) (turn : Turn) (fd : Nat) (t : Thread) (respList : List Resp) :
    Act Effect (Thread × List Resp) := do
  let got ← readFromBackend cfg fd turn.io.recvs t respList
  let t ← countFail cfg got.1 got.2.isEmpty turn.aliasIndex
  pure (t.reset, got.2)

/-- A turn that reads sends its message and then reads. -/
theorem talkTurn_of_readsFrom (cfg : BackendConfig) {turn : Turn} {t : Thread} {fd : Nat}
    (h : readsFrom turn t = some fd) (respList : List Resp) :
    ∃ sending : List Effect, (∀ e ∈ sending, e.IsSending) ∧
      talkTurn cfg turn t respList =
        ⟨.write (t.staged turn.items).message ::
            (sending ++ (readTurn cfg turn fd (t.staged turn.items) respList).effects),
          (readTurn cfg turn fd (t.staged turn.items) respList).result⟩ := by
  unfold readsFrom at h
  split_ifs at h with hskip
  push Not at hskip
  obtain ⟨hlen, hconn⟩ := hskip
  cases hsent : (writeLoop (t.staged turn.items).message turn.io.sends turn.io.conn 0).result with
  | none => simp [hsent] at h
  | some sent =>
      simp only [hsent] at h
      split_ifs at h with hall
      obtain rfl := Option.some.inj h
      refine ⟨_,
        (writeLoop_spec (t.staged turn.items).message turn.io.sends turn.io.conn 0).effects, ?_⟩
      unfold talkTurn
      simp only
      rw [if_pos hlen, if_neg hconn, writeToBackend_bind hsent, if_pos hall]
      rfl

theorem countCalls_append (xs ys : List Effect) :
    countCalls (xs ++ ys) = countCalls xs ++ countCalls ys := by
  simp [countCalls]

theorem countCalls_cons_write (bytes : List UInt8) (xs : List Effect) :
    countCalls (.write bytes :: xs) = countCalls xs := rfl

theorem parsedItems_cons_write (bytes : List UInt8) (xs : List Effect) :
    parsedItems (.write bytes :: xs) = parsedItems xs := rfl

/-- Sending and reading count nothing. -/
theorem countCalls_eq_nil {xs : List Effect} (h : ∀ e ∈ xs, e.IsSending ∨ e.IsReading) :
    countCalls xs = [] := by
  unfold countCalls
  rw [List.filterMap_eq_nil_iff]
  intro e he
  cases e with
  | countFail isFail aliasIndex => exact absurd (h _ he) (by simp [Effect.IsSending, Effect.IsReading])
  | _ => rfl

/-- Sending parses nothing. -/
theorem parsedItems_eq_nil {xs : List Effect} (h : ∀ e ∈ xs, e.IsSending) :
    parsedItems xs = [] := by
  unfold parsedItems
  rw [List.flatMap_eq_nil_iff]
  intro e he
  cases e with
  | parsed code items => exact absurd (h _ he) (by simp [Effect.IsSending])
  | _ => rfl

/-- A turn that reads nothing returns, keeps the list, and counts a failure
if it had something to send. -/
theorem talkTurn_silent (cfg : BackendConfig) {turn : Turn} {t : Thread} (respList : List Resp)
    (hnone : readsFrom turn t = none) :
    (∃ t', (talkTurn cfg turn t respList).result = some (t', respList)) ∧
      parsedItems (talkTurn cfg turn t respList).effects = [] ∧
      ((t.staged turn.items).backendBufLen ≠ 0 →
        countCalls (talkTurn cfg turn t respList).effects = [(true, turn.aliasIndex)]) := by
  unfold talkTurn
  simp only
  split_ifs with hlen hconn
  · rw [countFail_bind]
    exact ⟨⟨_, rfl⟩, rfl, fun _ => rfl⟩
  · obtain ⟨sent, hsent⟩ :=
      writeLoop_returns (t.staged turn.items).message turn.io.sends turn.io.conn 0
    have hspec := writeLoop_spec (t.staged turn.items).message turn.io.sends turn.io.conn 0
    have hfail : ¬ sent.2 ≥ (t.staged turn.items).backendBufLen := by
      intro hall
      simp [readsFrom, hlen, hconn, hsent, hall] at hnone
    have hzero : sent.2 ≤ 0 := by
      have hmsg : (t.staged turn.items).message.length = (t.staged turn.items).backendBufLen :=
        ByteMem.length_slice _ _ _
      rcases hspec.result sent hsent with hzero | hall
      · omega
      · exact absurd (hmsg ▸ hall) hfail
    rw [writeToBackend_bind hsent, if_neg hfail, if_pos hzero, countFail_bind]
    refine ⟨⟨_, rfl⟩, ?_, fun _ => ?_⟩
    · rw [parsedItems_cons_write, parsedItems_append,
        parsedItems_eq_nil hspec.effects]
      rfl
    · rw [countCalls_cons_write, countCalls_append,
        countCalls_eq_nil (fun e he => Or.inl (hspec.effects e he))]
      rfl
  · exact ⟨⟨_, rfl⟩, rfl, fun h => absurd h hlen⟩

/-- A turn that reads parses the host's answer, does not return where the
parser does not, and counts a failure if the whole list is empty after it. -/
theorem talkTurn_read (cfg : BackendConfig) {turn : Turn} {t : Thread} (respList : List Resp)
    {fd : Nat} (hsome : readsFrom turn t = some fd) :
    (hostAnswer cfg fd turn.io.recvs (t.staged turn.items) = none →
      (talkTurn cfg turn t respList).result = none) ∧
    ∀ answer, hostAnswer cfg fd turn.io.recvs (t.staged turn.items) = some answer →
      parsedItems (talkTurn cfg turn t respList).effects = answer.items ∧
      ∃ t', (talkTurn cfg turn t respList).result =
          some (t', if answer.garbled then [] else respList ++ answer.items) ∧
        countCalls (talkTurn cfg turn t respList).effects =
          [((if answer.garbled then [] else respList ++ answer.items).isEmpty,
            turn.aliasIndex)] := by
  obtain ⟨sending, hsending, hturn⟩ := talkTurn_of_readsFrom cfg hsome respList
  obtain ⟨hreadEff, hreadRes⟩ := readFromBackend_erase cfg fd turn.io.recvs
    (t.staged turn.items) respList []
  have hreadQuiet := countCalls_eq_nil (fun e he => Or.inr
    ((readFromBackend_spec cfg fd turn.io.recvs (t.staged turn.items) []).effects e he))
  rw [hturn]
  unfold readTurn hostAnswer
  cases hgot : (readFromBackend cfg fd turn.io.recvs (t.staged turn.items) respList).result with
  | none =>
      have hnone : (readFromBackend cfg fd turn.io.recvs
          (t.staged turn.items) []).result = none := by
        rw [hgot] at hreadRes
        simpa using hreadRes.symm
      rw [Act.bind_of_none _ hgot, hnone]
      exact ⟨fun _ => rfl, fun answer hans => absurd hans (by simp)⟩
  | some got =>
      have hlist := readFromBackend_list hgot
      rw [hreadEff] at hlist
      rw [Act.bind_of_some _ hgot, countFail_bind, hreadEff]
      refine ⟨fun hnone => ?_, fun answer hans => ?_⟩
      · rw [hgot, Option.map_eq_none_iff.mp hnone] at hreadRes
        exact absurd hreadRes (by simp)
      · obtain ⟨r, _, rfl⟩ := Option.map_eq_some_iff.mp hans
        refine ⟨?_, _, by rw [hlist]; rfl, ?_⟩
        · rw [parsedItems_cons_write, parsedItems_append,
            parsedItems_append, parsedItems_eq_nil hsending]
          simp [parsedItems, Effect.items]
        · rw [countCalls_cons_write, countCalls_append, countCalls_append,
            countCalls_eq_nil (fun e he => Or.inl (hsending e he)), hreadQuiet, hlist]
          rfl

/-- What a turn needs for a right count, given the list the hosts before it
have left: if it gets as far as reading, the parser returns, a parse error
comes before the first response of this host, and a host without a response
finds an empty list. -/
def TurnFair (cfg : BackendConfig) (turn : Turn) (t : Thread) (respList : List Resp) : Prop :=
  ∀ fd, readsFrom turn t = some fd →
    ∃ answer, hostAnswer cfg fd turn.io.recvs (t.staged turn.items) = some answer ∧
      (payload turn.items ≠ [] →
        (answer.garbled = true → answer.items = []) ∧
        (answer.garbled = false → answer.items = [] → respList = []))

/-- **One turn** returns and counts its host rightly exactly when it is fair. -/
theorem talkTurn_counted_iff (cfg : BackendConfig) (turn : Turn) (t : Thread)
    (respList : List Resp) :
    ((talkTurn cfg turn t respList).result.isSome ∧
      (payload turn.items ≠ [] →
        Counted turn.aliasIndex (talkTurn cfg turn t respList).effects)) ↔
    TurnFair cfg turn t respList := by
  unfold Counted TurnFair
  cases hfrom : readsFrom turn t with
  | none =>
      obtain ⟨⟨t', hres⟩, hitems, hcalls⟩ := talkTurn_silent cfg respList hfrom
      rw [hres, hitems]
      refine ⟨fun _ fd hfd => absurd hfd (by simp), fun _ => ⟨rfl, fun hpay => ?_⟩⟩
      rw [hcalls]
      · rfl
      · rw [staged_backendBufLen]
        have := List.length_pos_iff.mpr hpay
        omega
  | some fd =>
      obtain ⟨hstuck, hread⟩ := talkTurn_read cfg respList hfrom
      cases hans : hostAnswer cfg fd turn.io.recvs (t.staged turn.items) with
      | none =>
          rw [hstuck hans]
          constructor
          · intro hsplit
            obtain ⟨hsome, _⟩ := hsplit
            exact absurd hsome (by simp)
          · intro hfair
            obtain ⟨answer, hanswer, _⟩ := hfair fd rfl
            rw [hans] at hanswer
            exact absurd hanswer (by simp)
      | some answer =>
          obtain ⟨hitems, t', hres, hcalls⟩ := hread answer hans
          rw [hres, hitems, hcalls]
          have hflag : ([((if answer.garbled then [] else respList ++ answer.items).isEmpty,
              turn.aliasIndex)] = [(decide (answer.items = []), turn.aliasIndex)]) ↔
              (answer.garbled = true → answer.items = []) ∧
                (answer.garbled = false → answer.items = [] → respList = []) := by
            cases answer.garbled with
            | true => simp
            | false => cases hits : answer.items <;> simp
          rw [hflag]
          constructor
          · intro hsplit fd' hfd'
            obtain ⟨_, hcount⟩ := hsplit
            obtain rfl := Option.some.inj hfd'
            exact ⟨answer, hans, hcount⟩
          · intro hfair
            obtain ⟨answer', hans', hcount⟩ := hfair fd rfl
            obtain rfl := Option.some.inj (hans.symm.trans hans')
            exact ⟨rfl, hcount⟩

/-- Every turn of a batch is fair, at the state in which it starts. -/
def AllFair (cfg : BackendConfig) : List Turn → Thread → List Resp → Prop
  | [], _, _ => True
  | turn :: rest, t, respList =>
      TurnFair cfg turn t respList ∧
        ∀ t' respList', (talkTurn cfg turn t respList).result = some (t', respList') →
          AllFair cfg rest t' respList'

theorem effectsOf_append (a : Nat) (xs ys : List (Nat × Effect)) :
    effectsOf a (xs ++ ys) = effectsOf a xs ++ effectsOf a ys := by
  simp [effectsOf]

theorem effectsOf_label_self (a : Nat) (xs : List Effect) :
    effectsOf a (xs.map (Prod.mk a)) = xs := by
  induction xs with
  | nil => rfl
  | cons x xs ih => simp [effectsOf]

theorem effectsOf_label_of_ne {a b : Nat} (h : b ≠ a) (xs : List Effect) :
    effectsOf a (xs.map (Prod.mk b)) = [] := by
  simp [effectsOf, h]

/-- A host without a turn has no effects. -/
theorem effectsOf_talkTurns (cfg : BackendConfig) {a : Nat} (turns : List Turn) (t : Thread)
    (respList : List Resp) (ha : ∀ turn ∈ turns, turn.aliasIndex ≠ a) :
    effectsOf a (talkTurns cfg turns t respList).effects = [] := by
  induction turns generalizing t respList with
  | nil => rfl
  | cons turn rest ih =>
      have hne := ha turn List.mem_cons_self
      cases hres : (talkTurn cfg turn t respList).result with
      | none => rw [talkTurns_of_none hres, effectsOf_label_of_ne hne]
      | some got =>
          rw [talkTurns_of_some hres, effectsOf_append, effectsOf_label_of_ne hne]
          exact ih got.1 got.2 (fun turn' h => ha turn' (List.mem_cons_of_mem _ h))

/-- **A batch** returns and counts every host with a request rightly exactly
when all its turns are fair. -/
theorem talkTurns_counted_iff (cfg : BackendConfig) (turns : List Turn) (t : Thread)
    (respList : List Resp) (hnodup : (turns.map Turn.aliasIndex).Nodup) :
    ((talkTurns cfg turns t respList).result.isSome ∧
      ∀ turn ∈ turns, payload turn.items ≠ [] → Counted turn.aliasIndex
        (effectsOf turn.aliasIndex (talkTurns cfg turns t respList).effects)) ↔
    AllFair cfg turns t respList := by
  induction turns generalizing t respList with
  | nil => simp [talkTurns, AllFair]
  | cons turn rest ih =>
      rw [List.map_cons, List.nodup_cons] at hnodup
      have hother : ∀ turn' ∈ rest, turn'.aliasIndex ≠ turn.aliasIndex := by
        intro turn' hmem heq
        exact hnodup.1 (heq ▸ List.mem_map_of_mem hmem)
      rw [AllFair, ← talkTurn_counted_iff]
      cases hres : (talkTurn cfg turn t respList).result with
      | none =>
          rw [talkTurns_of_none hres]
          simp
      | some got =>
          rw [talkTurns_of_some hres, List.forall_mem_cons]
          simp only [effectsOf_append, effectsOf_label_self]
          rw [effectsOf_talkTurns cfg rest got.1 got.2 hother, List.append_nil]
          have hrest : (∀ turn' ∈ rest, payload turn'.items ≠ [] → Counted turn'.aliasIndex
                (effectsOf turn'.aliasIndex
                  ((talkTurn cfg turn t respList).effects.map (Prod.mk turn.aliasIndex)) ++
                effectsOf turn'.aliasIndex (talkTurns cfg rest got.1 got.2).effects)) ↔
              ∀ turn' ∈ rest, payload turn'.items ≠ [] → Counted turn'.aliasIndex
                (effectsOf turn'.aliasIndex (talkTurns cfg rest got.1 got.2).effects) := by
            refine forall₂_congr (fun turn' hmem => ?_)
            rw [effectsOf_label_of_ne (hother turn' hmem).symm, List.nil_append]
          rw [hrest]
          have hnext := ih got.1 got.2 hnodup.2
          constructor
          · intro hsplit
            obtain ⟨hsome, hfirst, hlater⟩ := hsplit
            refine ⟨⟨rfl, hfirst⟩, fun t' respList' heq => ?_⟩
            obtain rfl := Option.some.inj heq
            exact hnext.mp ⟨hsome, hlater⟩
          · intro hsplit
            obtain ⟨⟨_, hfirst⟩, hfair⟩ := hsplit
            obtain ⟨hsome, hlater⟩ := hnext.mpr (hfair got.1 got.2 rfl)
            exact ⟨hsome, hfirst, hlater⟩

/-- One call of `talkToBackend` returns and, for every host whose `create_req`
output is not empty, calls `countFail` once, with `is_fail` exactly when no
response was parsed in this host's turn. -/
def FailsCounted (cfg : BackendConfig) (originReq : ByteMem) (groups : SortedMap Nat (List Req))
    (io : Nat → HostIo) (t : Thread) : Prop :=
  (talkToBackend cfg originReq groups io t).result.isSome ∧
    ∀ g ∈ groups.entries, (createReq originReq g.2 t.backendBuf 0).2 ≠ 0 →
      Counted g.1 (effectsOf g.1 (talkToBackend cfg originReq groups io t).effects)

/-- **Failure accounting.**  `talkToBackend` counts every host rightly exactly
when each turn is fair: the parser returns on what the host sends, a parse
error of the host comes before its first response, and a host that gives no
response finds no response of an earlier host in the list. -/
theorem fails_counted_iff (cfg : BackendConfig) (originReq : ByteMem)
    (groups : SortedMap Nat (List Req)) (io : Nat → HostIo) (t : Thread) :
    FailsCounted cfg originReq groups io t ↔ AllFair cfg (reqTurns originReq groups io) t [] := by
  have hnodup : ((reqTurns originReq groups io).map Turn.aliasIndex).Nodup := by
    have hkeys : (reqTurns originReq groups io).map Turn.aliasIndex =
        groups.entries.map Prod.fst := by
      simp [reqTurns, Function.comp_def]
    rw [hkeys]
    exact List.pairwise_map.mpr (groups.sorted.imp ne_of_lt)
  have hbatch : (talkToBackend cfg originReq groups io t).effects =
        (talkTurns cfg (reqTurns originReq groups io) t []).effects ∧
      (talkToBackend cfg originReq groups io t).result.isSome =
        (talkTurns cfg (reqTurns originReq groups io) t []).result.isSome := by
    unfold talkToBackend
    cases hres : (talkTurns cfg (reqTurns originReq groups io) t []).result with
    | none =>
        rw [Act.bind_of_none _ hres]
        exact ⟨rfl, rfl⟩
    | some got =>
        rw [Act.bind_of_some _ hres]
        simp
  have hout : ∀ reqData, (createReq originReq reqData t.backendBuf 0).2 ≠ 0 ↔
      payload (reqData.map (fun r => (r.ext, r.bytes originReq))) ≠ [] := by
    intro reqData
    simp [createReq, appendItems_eq]
  rw [← talkTurns_counted_iff cfg _ t [] hnodup, FailsCounted, hbatch.1, hbatch.2]
  refine and_congr_right (fun _ => ?_)
  simp only [hout, reqTurns, List.forall_mem_map]

/-- A binary header: magic, opcode, key length, extras length and body length. -/
def packetHeader (magic opcode keyLen extLen bodyLen : UInt8) : List UInt8 :=
  [magic, opcode, 0, keyLen, extLen, 0, 0, 0, 0, 0, 0, bodyLen,
    0, 0, 0, 0, 0, 0, 0, 0, 0, 0, 0, 0]

/-- A client's batch: quiet gets of `"a"` and `"b"`, and a no-op. -/
def twoKeys : ByteMem :=
  ByteMem.ofList (packetHeader 0x80 0x0d 1 0 1 ++ [97] ++ packetHeader 0x80 0x0d 1 0 1 ++ [98] ++
    packetHeader 0x80 0x0a 0 0 0) (fun _ => 0)

/-- Its groups when the ring gives `"a"` to host `1` and `"b"` to host `2`. -/
def twoKeysGroups : SortedMap Nat (List Req) :=
  ((∅ : SortedMap Nat (List Req)).insert 1
    [⟨24, 1, 0, 25, false, false, 0⟩, ⟨74, 0, 50, 24, false, true, endMark⟩]).insert 2
    [⟨49, 1, 25, 25, false, false, 0⟩, ⟨74, 0, 50, 24, false, true, endMark⟩]

/-- A host's answer to its quiet get of `key` and the no-op. -/
def hitAnswer (key : UInt8) : List UInt8 :=
  packetHeader 0x81 0x0d 1 4 6 ++ [0, 0, 0, 0, key, 120] ++ packetHeader 0x81 0x0a 0 0 0

/-- Host `1` answers, host `2` takes the request and says nothing. -/
def secondSilent : Nat → HostIo := fun a =>
  if a = 1 then ⟨5, [.sent 100], [.data (hitAnswer 97) false ⟨0, 0, 0, 0⟩]⟩
  else ⟨6, [.sent 100], [.selectTimeout]⟩

/-- **The silent host is counted alive.**  Nothing is parsed in the turn of
host `2`, and the call made for it is `countFail(false, 2)`. -/
theorem silent_host_counted_alive :
    ¬ FailsCounted .default twoKeys twoKeysGroups secondSilent (.new (fun _ => 0)) ∧
    parsedItems (effectsOf 2 (talkToBackend .default twoKeys twoKeysGroups secondSilent
      (.new (fun _ => 0))).effects) = [] ∧
    countCalls (effectsOf 2 (talkToBackend .default twoKeys twoKeysGroups secondSilent
      (.new (fun _ => 0))).effects) = [(false, 2)] := by
  have hitems : parsedItems (effectsOf 2 (talkToBackend .default twoKeys twoKeysGroups
      secondSilent (.new (fun _ => 0))).effects) = [] := by
    decide +kernel
  have hcalls : countCalls (effectsOf 2 (talkToBackend .default twoKeys twoKeysGroups
      secondSilent (.new (fun _ => 0))).effects) = [(false, 2)] := by
    decide +kernel
  refine ⟨fun hcounted => ?_, hitems, hcalls⟩
  have htwo := hcounted.2
    (2, [⟨49, 1, 25, 25, false, false, 0⟩, ⟨74, 0, 50, 24, false, true, endMark⟩])
    (by decide +kernel) (by decide +kernel)
  rw [Counted, hitems, hcalls] at htwo
  exact absurd htwo (by decide)

end KvProxy
