import KvProxy.Backend

/-!
# What is handed to `writeToBackend`

`create_req` appends at `backend_buf_len`, so a message consists of its own
group's bytes only if the length is `0` when the turn starts.  Every way
through a turn resets it, except the `continue` after a failed connection:
then the bytes stay, and the next turn that gets a connection, of whatever
host, call or client, sends them in front of its own.

* `talkTurn_writes` — what one turn hands over and leaves behind;
* `talkTurns_writes` — the same for the turns of a batch;
* `messages_isolated` — a run of calls in which no connection follows a
  failed one hands over every group's own bytes;
* `stale_request_sent` — and what happens where one does.
-/

namespace KvProxy

/-- A call on one thread: of a worker, or of the async thread. -/
inductive Call where
  | sync (originReq : ByteMem) (groups : SortedMap Nat (List Req)) (io : Nat → HostIo)
  | async (groups : SortedMap Nat (List Comm)) (io : Nat → HostIo)

namespace Call

/-- The turns of a call. -/
def turns : Call → List Turn
  | .sync originReq groups io => reqTurns originReq groups io
  | .async groups io => asyncTurns groups io

/-- Make the call. -/
def run (cfg : BackendConfig) : Call → Thread → Act (Nat × Effect) Thread
  | .sync originReq groups io, t => talkToBackend cfg originReq groups io t
  | .async groups io, t => talkToBackendAsync cfg groups io t

/-- What the request writer produces for a host's group from an empty buffer
(of whatever contents). -/
def output (call : Call) (buf : ByteMem) (aliasIndex : Nat) : Option (List UInt8) :=
  match call with
  | .sync originReq groups _ =>
      (groups.lookup aliasIndex).map (fun reqData =>
        (createReq originReq reqData buf 0).1.slice 0 (createReq originReq reqData buf 0).2)
  | .async groups _ =>
      (groups.lookup aliasIndex).map (fun reqData =>
        (createReqAsync reqData buf 0).1.slice 0 (createReqAsync reqData buf 0).2)

end Call

/-- Calls one after the other on one thread. -/
def runCalls (cfg : BackendConfig) : List Call → Thread → Act (Nat × Effect) Thread
  | [], t => pure t
  | call :: calls, t => do
      let t ← call.run cfg t
      runCalls cfg calls t

/-- The output for a group is the payload of the group's turn. -/
theorem Call.output_of_mem {call : Call} {turn : Turn} (hturn : turn ∈ call.turns)
    (buf : ByteMem) : call.output buf turn.aliasIndex = some (payload turn.items) := by
  cases call with
  | sync originReq groups io =>
      obtain ⟨g, hg, rfl⟩ := List.mem_map.mp hturn
      have hlook : groups.lookup g.1 = some g.2 := SortedMap.lookup_eq_some_iff.mpr hg
      simp only [Call.output, hlook, Option.map_some, createReq]
      rw [slice_appendItems]
  | async groups io =>
      obtain ⟨g, hg, rfl⟩ := List.mem_map.mp hturn
      have hlook : groups.lookup g.1 = some g.2 := SortedMap.lookup_eq_some_iff.mpr hg
      simp only [Call.output, hlook, Option.map_some, createReqAsync]
      rw [slice_appendItems]

/-- **One turn.**  It hands over its own payload if it started on an empty
buffer, and leaves the buffer empty unless it got no connection. -/
theorem talkTurn_writes (cfg : BackendConfig) (turn : Turn) (t : Thread) (respList : List Resp) :
    (talkTurn cfg turn t respList).Spec
      (fun e => ∀ bytes, e = .write bytes →
        turn.io.conn ≠ 0 ∧ (t.backendBufLen = 0 → bytes = payload turn.items))
      (fun r => r.1.backendBufLen = 0 ∨
        (turn.io.conn = 0 ∧
          r.1.backendBufLen = t.backendBufLen + (payload turn.items).length)) := by
  have hquiet : ∀ e : Effect, e.IsSending ∨ e.IsReading ∨ (∃ b a, e = .countFail b a) →
      ∀ bytes, e = .write bytes →
        turn.io.conn ≠ 0 ∧ (t.backendBufLen = 0 → bytes = payload turn.items) := by
    intro e hclass bytes heq
    subst heq
    rcases hclass with hclass | hclass | ⟨b, a, heq⟩
    · exact absurd hclass id
    · exact absurd hclass id
    · exact absurd heq (by simp)
  have hcount : ∀ (t' : Thread) (b : Bool),
      (countFail cfg t' b turn.aliasIndex).Spec
        (fun e => ∀ bytes, e = .write bytes →
          turn.io.conn ≠ 0 ∧ (t.backendBufLen = 0 → bytes = payload turn.items))
        (fun r => r.backendBufLen = t'.backendBufLen) := by
    intro t' b
    apply (Act.Spec.emit (hquiet _ (Or.inr (Or.inr ⟨b, _, rfl⟩)))).bind
    intro _ _
    refine .pure ?_
    unfold Thread.count
    split_ifs <;> rfl
  unfold talkTurn
  simp only
  split_ifs with hlen hconn
  · apply (hcount _ true).bind
    intro t' ht'
    refine .pure (Or.inr ⟨hconn, ?_⟩)
    rw [ht', staged_backendBufLen]
  · -- connected: the bytes are handed over, and every way out resets the length
    have hwrite : (writeToBackend turn.io.conn (t.staged turn.items).message turn.io.sends).Spec
        (fun e => ∀ bytes, e = .write bytes →
          turn.io.conn ≠ 0 ∧ (t.backendBufLen = 0 → bytes = payload turn.items))
        (fun _ => True) := by
      refine Act.Spec.bind (Act.Spec.emit (e := Effect.write _) ?_) ?_
      · intro bytes heq
        obtain rfl := (Effect.write.inj heq)
        exact ⟨hconn, fun hempty => staged_message turn.items hempty⟩
      · intro _ _
        exact (writeLoop_spec _ _ _ _).imp (fun e he => hquiet e (Or.inl he)) (fun _ _ => trivial)
    apply hwrite.bind
    intro sent _
    split_ifs
    · apply ((readFromBackend_spec cfg _ _ _ _).imp
        (fun e he => hquiet e (Or.inr (Or.inl he))) (fun _ h => h)).bind
      intro got _
      apply (hcount _ _).bind
      intro t' _
      exact .pure (Or.inl rfl)
    · apply (hcount _ true).bind
      intro t' _
      exact .pure (Or.inl rfl)
    · exact .pure (Or.inl rfl)
  · exact .pure (Or.inl rfl)

/-- No turn gets a connection after a turn with something to send got none. -/
def NoConnectionAfterFailure (turns : List Turn) : Prop :=
  ∀ before turn after, turns = before ++ turn :: after →
    payload turn.items ≠ [] → turn.io.conn = 0 → ∀ later ∈ after, later.io.conn = 0

/-- The send buffer is empty, or no turn still to come gets a connection. -/
def Clean (t : Thread) (turns : List Turn) : Prop :=
  t.backendBufLen = 0 ∨ ∀ turn ∈ turns, turn.io.conn = 0

/-- A turn keeps the send buffer clean for the turns after it. -/
theorem Clean.next {t t' : Thread} {turn : Turn} {rest : List Turn}
    (h : Clean t (turn :: rest)) (hno : NoConnectionAfterFailure (turn :: rest))
    (hlen : t'.backendBufLen = 0 ∨ (turn.io.conn = 0 ∧
      t'.backendBufLen = t.backendBufLen + (payload turn.items).length)) : Clean t' rest := by
  rcases hlen with hzero | ⟨hconn, hlen⟩
  · exact Or.inl hzero
  · rcases h with hempty | hnone
    · by_cases hpay : payload turn.items = []
      · left
        simp [hlen, hempty, hpay]
      · right
        exact hno [] turn rest rfl hpay hconn
    · right
      exact fun later hlater => hnone later (List.mem_cons_of_mem _ hlater)

theorem NoConnectionAfterFailure.tail {turn : Turn} {rest : List Turn}
    (h : NoConnectionAfterFailure (turn :: rest)) : NoConnectionAfterFailure rest := by
  intro before later after hsplit
  exact h (turn :: before) later after (by rw [hsplit, List.cons_append])

/-- **A batch.**  Started clean, with `later` the turns of the calls to come,
it hands over each group's own payload and ends clean. -/
theorem talkTurns_writes (cfg : BackendConfig) (later turns : List Turn) (t : Thread)
    (respList : List Resp) (hclean : Clean t (turns ++ later))
    (hno : NoConnectionAfterFailure (turns ++ later)) :
    (talkTurns cfg turns t respList).Spec
      (fun e => ∀ bytes, e.2 = .write bytes →
        ∃ turn ∈ turns, turn.aliasIndex = e.1 ∧ bytes = payload turn.items)
      (fun r => Clean r.1 later) := by
  induction turns generalizing t respList with
  | nil => exact .pure hclean
  | cons turn rest ih =>
      refine Act.Spec.bind (P := fun r => Clean r.1 (rest ++ later)) ?_ ?_
      · refine Act.Spec.label ((talkTurn_writes cfg turn t respList).imp (fun _ h => h) ?_) ?_
        · intro r hlen
          exact hclean.next hno hlen
        · intro e he bytes heq
          obtain ⟨hconn, hbytes⟩ := he bytes heq
          refine ⟨turn, List.mem_cons_self, rfl, hbytes ?_⟩
          rcases hclean with hempty | hnone
          · exact hempty
          · exact absurd (hnone turn (by simp)) hconn
      · intro got hgot
        refine (ih got.1 got.2 hgot hno.tail).imp ?_ (fun _ h => h)
        intro e he bytes heq
        obtain ⟨turn', hmem, hrest⟩ := he bytes heq
        exact ⟨turn', List.mem_cons_of_mem _ hmem, hrest⟩

/-- One call. -/
theorem Call.run_writes (cfg : BackendConfig) (later : List Turn) (call : Call) (t : Thread)
    (hclean : Clean t (call.turns ++ later))
    (hno : NoConnectionAfterFailure (call.turns ++ later)) :
    (call.run cfg t).Spec
      (fun e => ∀ bytes, e.2 = .write bytes →
        ∃ turn ∈ call.turns, turn.aliasIndex = e.1 ∧ bytes = payload turn.items)
      (fun t' => Clean t' later) := by
  cases call with
  | sync originReq groups io =>
      apply (talkTurns_writes cfg later _ t [] hclean hno).bind
      intro got hgot
      exact .pure hgot
  | async groups io =>
      apply (talkTurns_writes cfg later _ t [] hclean hno).bind
      intro got hgot
      exact .pure hgot

theorem NoConnectionAfterFailure.drop {before after : List Turn}
    (h : NoConnectionAfterFailure (before ++ after)) : NoConnectionAfterFailure after := by
  induction before with
  | nil => exact h
  | cons turn before ih => exact ih h.tail

/-- **A run of calls** ends clean. -/
theorem runCalls_clean {cfg : BackendConfig} {calls : List Call} {later : List Turn}
    {t t' : Thread} (hclean : Clean t (calls.flatMap Call.turns ++ later))
    (hno : NoConnectionAfterFailure (calls.flatMap Call.turns ++ later))
    (hrun : (runCalls cfg calls t).result = some t') : Clean t' later := by
  induction calls generalizing t with
  | nil =>
      obtain rfl : t = t' := by simpa [runCalls] using hrun
      exact hclean
  | cons call calls ih =>
      rw [List.flatMap_cons, List.append_assoc] at hclean hno
      obtain ⟨t₁, hcall, hrest, _⟩ := Act.bind_result_some hrun
      have hnext := (call.run_writes cfg _ t hclean hno).result t₁ hcall
      exact ih hnext hno.drop hrest

/-- **Request isolation.**  On one thread, in every sequence of calls that
starts with an empty send buffer, with any outcome of every send and receive
and in which no turn gets a connection after a turn with something to send
got none: every message handed to `writeToBackend` for a host is what the
request writer produces for that host's group from an empty buffer. -/
theorem messages_isolated (cfg : BackendConfig) {t : Thread} (hempty : t.backendBufLen = 0)
    (calls before after : List Call) (hno : NoConnectionAfterFailure (calls.flatMap Call.turns))
    {call : Call} (hsplit : calls = before ++ call :: after)
    {t' : Thread} (hrun : (runCalls cfg before t).result = some t')
    {aliasIndex : Nat} {bytes : List UInt8}
    (hwrite : (aliasIndex, Effect.write bytes) ∈ (call.run cfg t').effects) (buf : ByteMem) :
    call.output buf aliasIndex = some bytes := by
  rw [hsplit, List.flatMap_append, List.flatMap_cons] at hno
  have hclean : Clean t' (call.turns ++ after.flatMap Call.turns) :=
    runCalls_clean (Or.inl hempty) hno hrun
  obtain ⟨turn, hturn, rfl, rfl⟩ :=
    (call.run_writes cfg _ t' hclean hno.drop).effects _ hwrite bytes rfl
  exact Call.output_of_mem hturn buf

/-- A binary `GET` request for a key of one byte. -/
def getOneByte (key : UInt8) : List UInt8 :=
  [0x80, 0, 0, 1, 0, 0, 0, 0, 0, 0, 0, 1, 0, 0, 0, 0, 0, 0, 0, 0, 0, 0, 0, 0, key]

/-- A client's call with that request for one host. -/
def getCall (key : UInt8) (aliasIndex conn : Nat) : Call :=
  .sync (ByteMem.ofList (getOneByte key) (fun _ => 0))
    ((∅ : SortedMap Nat (List Req)).insert aliasIndex [⟨24, 1, 0, 25, false, false, 0⟩])
    (fun _ => ⟨conn, [.sent 1000], []⟩)

/-- Two calls that both get a connection: the second message is its own request. -/
theorem messages_isolated_get :
    (2, Effect.write (getOneByte 98)) ∈
      (runCalls .default [getCall 97 1 5, getCall 98 2 6] (.new (fun _ => 0))).effects ∧
    (getCall 98 2 6).output (fun _ => 0) 2 = some (getOneByte 98) := by
  refine ⟨by decide +kernel, ?_⟩
  refine messages_isolated .default (t := .new (fun _ => 0)) rfl
    [getCall 97 1 5, getCall 98 2 6] [getCall 97 1 5] [] ?_ rfl rfl (by decide +kernel) _
  intro before turn after hsplit _ hconn
  -- both turns have a connection
  have hall : ∀ turn ∈ [getCall 97 1 5, getCall 98 2 6].flatMap Call.turns,
      turn.io.conn ≠ 0 := by
    decide +kernel
  exact absurd hconn (hall turn (by rw [hsplit]; simp))

/-- **The stale request.**  Host `1` gets no connection in the first call.  In
the second call, of another client and for host `2`, the message handed over
is the request for host `1` followed by the one for host `2`. -/
theorem stale_request_sent :
    (2, Effect.write (getOneByte 97 ++ getOneByte 98)) ∈
      (runCalls .default [getCall 97 1 0, getCall 98 2 6] (.new (fun _ => 0))).effects ∧
    (getCall 98 2 6).output (fun _ => 0) 2 = some (getOneByte 98) := by
  decide +kernel

end KvProxy
