import KvProxy.AsyncQueue
import KvProxy.Status

/-!
# The workers, the async thread and the health thread together

The workers serve events, and the async thread sends the batches that the events have
queued.  Each of them does to what is shared one thing after the other: it counts a
failure or a success of a host, or it tests the length of the queue and then pushes.  The
other workers, the async thread and the health thread come between these.  An event finds
the hosts as they are when it starts.  Now and then somebody looks at the status page.

The hosts, their counters and the health thread are those of the health model, and the
queue is that of the queue model.  So a call of `countFail` is one step, though two calls
that overlap can lose a failure, for which nothing is locked; and `delHost` is the exact
removal.  What has happened so far is kept beside the state: what
each party is to do, what was done, in its order, and the batches that found the queue
full.

* `readEvent_offers` — the length of the queue decides on the batch of an event only;
* `proxyStep`, `ProxyMove` — the steps, and everything that a step can do.
-/

namespace KvProxy

open MachineInt

/-! ## The batch that an event offers -/

/-- The effect is left out where the queue has no room. -/
def ProxyEffect.kept (room : Bool) : ProxyEffect → Bool
  | .pushAsync _ => room
  | _ => true

/-- An event that has not tested the queue. -/
def offeringEvent (cfg : ProxyConfig) (out : Outside) (buffer : List UInt8) (w : Worker) :
    Act ProxyEffect (List UInt8 × Worker) :=
  readEvent { cfg with asyncSize := 1 } { out with asyncLen := 0 } buffer w

section Offer

variable (cfg : ProxyConfig) (out : Outside)

/-- The queue has room for the batch of an event. -/
def Outside.hasRoom : Bool := decide (int32 out.asyncLen < cfg.asyncSize)

theorem talkToHosts_kept (room : Bool) (buf : ByteMem) (group : SortedMap Nat (List Req))
    (io : Nat → HostIo) (t : Thread) :
    (talkToHosts cfg buf group io t).only (ProxyEffect.kept room) =
      talkToHosts cfg buf group io t := by
  refine Act.only_eq_self fun e he => ?_
  obtain ⟨x, _, rfl⟩ := List.mem_map.mp he
  rfl

theorem talkToSync_kept (room : Bool) (buf : ByteMem) (sync : SortedMap Nat (List Req))
    (t : Thread) :
    (talkToSync cfg out buf sync t).only (ProxyEffect.kept room) = talkToSync cfg out buf sync t := by
  unfold talkToSync
  split_ifs
  · exact talkToHosts_kept cfg room buf sync out.syncIo t
  · rfl

theorem replyToClient_kept (room : Bool) (t : Thread) :
    (replyToClient t).only (ProxyEffect.kept room) = replyToClient t := by
  unfold replyToClient
  split_ifs
  · exact Act.only_emit rfl
  · rfl

/-- The batch is offered, and queued where there is room. -/
theorem queueBackup_kept (buf : ByteMem) (backup : SortedMap Nat (List Req)) :
    (queueBackup { cfg with asyncSize := 1 } { out with asyncLen := 0 } buf backup).only
      (ProxyEffect.kept (out.hasRoom cfg)) = queueBackup cfg out buf backup := by
  have hempty : int32 ((0 : Nat) : Int) < 1 := by decide
  unfold queueBackup
  by_cases hnone : backup.entries = []
  · rw [if_neg (fun h => h.1 hnone), if_neg (fun h => h.1 hnone)]
    rfl
  · by_cases hroom : int32 out.asyncLen < cfg.asyncSize
    · have hkept : out.hasRoom cfg = true := decide_eq_true hroom
      rw [if_pos ⟨hnone, hempty⟩, if_pos ⟨hnone, hroom⟩, hkept]
      rfl
    · have hkept : out.hasRoom cfg = false := decide_eq_false hroom
      rw [if_pos ⟨hnone, hempty⟩, if_neg (fun h => hroom h.2), hkept]
      rfl

theorem serveBatch_kept (buf : ByteMem) (reqs : List Req) (t : Thread) :
    (serveBatch { cfg with asyncSize := 1 } { out with asyncLen := 0 } buf reqs t).only
      (ProxyEffect.kept (out.hasRoom cfg)) = serveBatch cfg out buf reqs t := by
  simp only [serveBatch, Act.only_bind, talkToHosts_kept, talkToSync_kept, replyToClient_kept,
    queueBackup_kept, Act.only_pure]
  rfl

/-- **The queue and an event.**  How long the queue is decides on the batch only, and on
nothing else that an event does. -/
theorem readEvent_offers (buffer : List UInt8) (w : Worker) :
    readEvent cfg out buffer w =
      (offeringEvent cfg out buffer w).only (ProxyEffect.kept (out.hasRoom cfg)) := by
  rw [offeringEvent, readEvent_eq, readEvent_eq]
  split_ifs
  · rfl
  · rfl
  · rw [Act.only_bind, Act.only_ofOption]
    congr 1
    funext parse
    cases parse.1 with
    | success =>
        simp only [finishEvent, Act.only_bind, serveBatch_kept, Act.only_pure]
    | again => rfl
    | error => rfl
    | ignore => rfl

end Offer

/-! ## The parties -/

/-- A worker, or the async thread. -/
inductive Party (threads : Nat) where
  | worker (w : Fin threads)
  | async
  deriving DecidableEq

/-- What a party does to what is shared: a call of `countFail`, or a batch for the queue. -/
inductive Todo where
  | count (isFail : Bool) (aliasIndex : Nat)
  | queue (batch : SortedMap Nat (List Comm))

/-- The part of an effect that is shared. -/
def ProxyEffect.todo : ProxyEffect → Option Todo
  | .backend _ (.countFail isFail a) => some (.count isFail a)
  | .pushAsync batch => some (.queue batch)
  | _ => none

/-- What an event has to do. -/
def eventTodos (effects : List ProxyEffect) : List Todo := effects.filterMap ProxyEffect.todo

/-- What the async thread has to do for a batch. -/
def asyncTodos (effects : List (Nat × Effect)) : List Todo :=
  effects.filterMap (fun e => (ProxyEffect.backend e.1 e.2).todo)

/-- The call of `countFail`, if it is one. -/
def Todo.call : Todo → Option (Bool × Nat)
  | .count isFail a => some (isFail, a)
  | .queue _ => none

/-- The batch, if it is one. -/
def Todo.batch : Todo → Option (SortedMap Nat (List Comm))
  | .count _ _ => none
  | .queue batch => some batch

/-- It is about listed hosts: a batch about backup hosts. -/
def Todo.Listed (hosts : HostTable.GroupHosts) : Todo → Prop
  | .count _ a => ∃ g, HostTable.Lists hosts g a
  | .queue batch => ∀ a ∈ batch.keys, HostTable.Lists hosts .hostsBackup a

/-- What the health thread counts next. -/
def HealthPc.todos : HealthPc → List Todo
  | .online a _ => [.count false a]
  | _ => []

theorem HealthPc.todos_success {pc : HealthPc} {todo : Todo} (h : todo ∈ pc.todos) :
    ∃ a, todo = .count false a := by
  cases pc with
  | online a rest => exact ⟨a, List.mem_singleton.mp h⟩
  | _ => cases h

/-- The health model and the queue model; what each party has still to do; and, of what has
happened, what each party was to do, what was done, with the party or for the health
thread, and the batches for which the queue had no room. -/
structure Proxy (threads : Nat) where
  health : HealthState
  queue : AsyncQueue (SortedMap Nat (List Comm)) threads
  pending : Party threads → List Todo
  reported : Party threads → List Todo
  made : List (Option (Party threads) × Todo)
  dropped : List (SortedMap Nat (List Comm))

/-- A worker starts to serve an event; a party does what is next; the async thread goes on,
or starts to send a batch; somebody looks at the status page; the health thread goes on, or
gets the result of a connection attempt. -/
inductive ProxyAct (threads : Nat) where
  | event (w : Fin threads) (out : Outside) (buffer : List UInt8) (worker : Worker)
  | go (p : Party threads)
  | async
  | send (io : Nat → HostIo) (thread : Thread)
  | status (v : Monitor)
  | next
  | connect (ok : Bool)

/-- What the async thread does to the queue in this phase, unless it is to send a batch. -/
def AsyncPhase.action {threads : Nat} :
    AsyncPhase → QueueAction (SortedMap Nat (List Comm)) threads
  | .look => .look
  | .swap => .swap
  | .drain => .done

namespace Proxy

variable {threads : Nat}

/-- The proxy before its first event. -/
def started (t : HostTable) : Proxy threads :=
  ⟨.started t, .new, fun _ => [], fun _ => [], [], []⟩

/-- The calls of `countFail`, in their order. -/
def calls (s : Proxy threads) : List (Bool × Nat) := s.made.filterMap (fun x => x.2.call)

/-- Those of the workers and of the async thread. -/
def partyCalls (s : Proxy threads) : List (Bool × Nat) :=
  s.made.filterMap (fun x => if x.1 = none then none else x.2.call)

/-- What a party has done. -/
def madeBy (s : Proxy threads) (p : Party threads) : List Todo :=
  s.made.filterMap (fun x => if x.1 = some p then some x.2 else none)

/-- The batches that were pushed or dropped, in their order. -/
def offered (s : Proxy threads) : List (SortedMap Nat (List Comm)) :=
  s.made.filterMap (fun x => x.2.batch)

/-- What `getStatus` reads, with the hosts, the counters and the queue as they are. -/
def monitor (s : Proxy threads) (v : Monitor) : Monitor :=
  { v with
    counters := s.health.counters
    table := s.health.table
    asyncLen := s.queue.asyncReq.length }

/-- A party that has nothing to do gets something. -/
def begin (s : Proxy threads) (p : Party threads) (todos : List Todo) : Proxy threads :=
  { s with
    pending := Function.update s.pending p todos
    reported := Function.update s.reported p (s.reported p ++ todos) }

/-- A party has done what was next. -/
def done (s : Proxy threads) (p : Party threads) (rest : List Todo) (todo : Todo) : Proxy threads :=
  { s with
    pending := Function.update s.pending p rest
    made := s.made ++ [(some p, todo)] }

/-- A worker tests the length of the queue, and pushes when it has found room. -/
def offer (asyncSize : Int) (s : Proxy threads) (w : Fin threads)
    (batch : SortedMap Nat (List Comm)) (rest : List Todo) : Option (Proxy threads) :=
  match s.queue.worker w with
  | none =>
      (s.queue.step asyncSize (.check w batch)).map (fun q =>
        if q.worker w = none then
          { s.done (.worker w) rest (.queue batch) with queue := q, dropped := s.dropped ++ [batch] }
        else { s with queue := q })
  | some _ =>
      (s.queue.step asyncSize (.push w)).map (fun q =>
        { s.done (.worker w) rest (.queue batch) with queue := q })

/-- A party does what is next; the async thread has no batches for the queue. -/
def perform (asyncSize : Int) (s : Proxy threads) (p : Party threads) (rest : List Todo) :
    Todo → Option (Proxy threads)
  | .count isFail a =>
      some { s.done p rest (.count isFail a) with
        health := { s.health with counters := s.health.counters.countFail stLimit isFail a } }
  | .queue batch =>
      match p with
      | .worker w => s.offer asyncSize w batch rest
      | .async => none

end Proxy

/-- One step of the proxy. -/
def proxyStep {threads : Nat} (cfg : ProxyConfig) (health : HealthConfig) (s : Proxy threads) :
    ProxyAct threads → Option (Proxy threads)
  | .event w out buffer worker =>
      if s.pending (.worker w) = [] then
        some (s.begin (.worker w) (eventTodos
          (offeringEvent cfg { out with hosts := s.health.table } buffer worker).effects))
      else none
  | .go p =>
      match s.pending p with
      | [] => none
      | todo :: rest => s.perform cfg.asyncSize p rest todo
  | .async =>
      if s.pending .async = [] then
        (s.queue.step cfg.asyncSize s.queue.phase.action).map (fun q => { s with queue := q })
      else none
  | .send io thread =>
      -- the batch is taken from the local queue when it has been sent
      match s.pending .async, s.queue.asyncReqTmp with
      | [], batch :: _ =>
          (s.queue.step cfg.asyncSize .process).map (fun q =>
            { s with queue := q }.begin .async
              (asyncTodos (talkToBackendAsync cfg.backend batch io thread).effects))
      | _, _ => none
  | .status v =>
      some { s with health := { s.health with table := (s.monitor v).getStatus.2.table } }
  | .next =>
      (healthNext health s.health).map (fun h =>
        { s with health := h, made := s.made ++ s.health.pc.todos.map (Prod.mk none) })
  | .connect ok => (healthConnect health s.health ok).map (fun h => { s with health := h })

namespace AsyncQueue

variable {β : Type} {threads : Nat} {asyncSize : Int} {q q' : AsyncQueue β threads}

/-- A worker that tests the length goes on to push, or does not. -/
theorem check_cases {w : Fin threads} (hfree : q.worker w = none) {batch : β}
    (h : q.step asyncSize (.check w batch) = some q') :
    (q'.worker w = none ∧ q' = q) ∨
      (q'.worker w ≠ none ∧ q'.worker = Function.update q.worker w (some batch) ∧
        q'.pushed = q.pushed) := by
  simp only [step, if_pos hfree] at h
  split_ifs at h
  · obtain rfl := Option.some.inj h
    exact .inr ⟨by simp, rfl, rfl⟩
  · obtain rfl := Option.some.inj h
    exact .inl ⟨hfree, rfl⟩

/-- A worker pushes the batch that it holds. -/
theorem push_eq {w : Fin threads} {batch : β} (hheld : q.worker w = some batch)
    (h : q.step asyncSize (.push w) = some q') :
    q'.worker = Function.update q.worker w none ∧ q'.pushed = q.pushed ++ [batch] := by
  simp only [step, hheld, Option.some.injEq] at h
  subst h
  exact ⟨rfl, rfl⟩

/-- It is an action of the async thread. -/
def OfThread : QueueAction β threads → Prop
  | .check _ _ => False
  | .push _ => False
  | _ => True

/-- The async thread leaves the workers alone. -/
theorem thread_eq {act : QueueAction β threads} (hact : OfThread act)
    (h : q.step asyncSize act = some q') : q'.worker = q.worker ∧ q'.pushed = q.pushed := by
  cases act with
  | check w batch => exact hact.elim
  | push w => exact hact.elim
  | look =>
      by_cases hphase : q.phase = .look
      · rw [step, if_pos hphase] at h
        obtain rfl := Option.some.inj h
        exact ⟨rfl, rfl⟩
      · simp [step, hphase] at h
  | swap =>
      simp only [step] at h
      split_ifs at h
      obtain rfl := Option.some.inj h
      exact ⟨rfl, rfl⟩
  | process =>
      simp only [step] at h
      split at h
      · obtain rfl := Option.some.inj h
        exact ⟨rfl, rfl⟩
      · cases h
  | done =>
      simp only [step] at h
      split_ifs at h
      obtain rfl := Option.some.inj h
      exact ⟨rfl, rfl⟩

end AsyncQueue

/-- Everything a step can do. -/
inductive ProxyMove {threads : Nat} (cfg : ProxyConfig) (health : HealthConfig) (s : Proxy threads) :
    Proxy threads → Prop
  | event (w : Fin threads) (hidle : s.pending (.worker w) = []) (out : Outside)
      (buffer : List UInt8) (worker : Worker) :
      ProxyMove cfg health s (s.begin (.worker w) (eventTodos
        (offeringEvent cfg { out with hosts := s.health.table } buffer worker).effects))
  | counts (p : Party threads) (isFail : Bool) (a : Nat) (rest : List Todo)
      (hpending : s.pending p = .count isFail a :: rest) :
      ProxyMove cfg health s { s.done p rest (.count isFail a) with
        health := { s.health with counters := s.health.counters.countFail stLimit isFail a } }
  | clears (w : Fin threads) (batch : SortedMap Nat (List Comm)) (rest : List Todo)
      (q : AsyncQueue (SortedMap Nat (List Comm)) threads)
      (hpending : s.pending (.worker w) = .queue batch :: rest) (hfree : s.queue.worker w = none)
      (hq : s.queue.step cfg.asyncSize (.check w batch) = some q)
      (hworker : q.worker = Function.update s.queue.worker w (some batch))
      (hpushed : q.pushed = s.queue.pushed) : ProxyMove cfg health s { s with queue := q }
  | drops (w : Fin threads) (batch : SortedMap Nat (List Comm)) (rest : List Todo)
      (hpending : s.pending (.worker w) = .queue batch :: rest) (hfree : s.queue.worker w = none)
      (hq : s.queue.step cfg.asyncSize (.check w batch) = some s.queue) :
      ProxyMove cfg health s
        { s.done (.worker w) rest (.queue batch) with dropped := s.dropped ++ [batch] }
  | pushes (w : Fin threads) (batch held : SortedMap Nat (List Comm)) (rest : List Todo)
      (q : AsyncQueue (SortedMap Nat (List Comm)) threads)
      (hpending : s.pending (.worker w) = .queue batch :: rest)
      (hheld : s.queue.worker w = some held)
      (hq : s.queue.step cfg.asyncSize (.push w) = some q) :
      ProxyMove cfg health s { s.done (.worker w) rest (.queue batch) with queue := q }
  | turns (act : QueueAction (SortedMap Nat (List Comm)) threads)
      (q : AsyncQueue (SortedMap Nat (List Comm)) threads) (hact : AsyncQueue.OfThread act)
      (hq : s.queue.step cfg.asyncSize act = some q) : ProxyMove cfg health s { s with queue := q }
  | sends (batch : SortedMap Nat (List Comm)) (later : List (SortedMap Nat (List Comm)))
      (q : AsyncQueue (SortedMap Nat (List Comm)) threads) (hidle : s.pending .async = [])
      (htmp : s.queue.asyncReqTmp = batch :: later)
      (hq : s.queue.step cfg.asyncSize .process = some q) (io : Nat → HostIo) (thread : Thread) :
      ProxyMove cfg health s ({ s with queue := q }.begin .async
        (asyncTodos (talkToBackendAsync cfg.backend batch io thread).effects))
  | status (v : Monitor) :
      ProxyMove cfg health s
        { s with health := { s.health with table := (s.monitor v).getStatus.2.table } }
  | next (u : HealthState) (hu : healthNext health s.health = some u) :
      ProxyMove cfg health s
        { s with health := u, made := s.made ++ s.health.pc.todos.map (Prod.mk none) }
  | connect (u : HealthState) (ok : Bool) (hu : healthConnect health s.health ok = some u) :
      ProxyMove cfg health s { s with health := u }

section Move

variable {threads : Nat} {cfg : ProxyConfig} {health : HealthConfig} {s s' : Proxy threads}

theorem ProxyMove.of_offer {w : Fin threads} {batch : SortedMap Nat (List Comm)} {rest : List Todo}
    (hpending : s.pending (.worker w) = .queue batch :: rest)
    (h : s.offer cfg.asyncSize w batch rest = some s') : ProxyMove cfg health s s' := by
  cases hw : s.queue.worker w with
  | none =>
      simp only [Proxy.offer, hw] at h
      obtain ⟨q, hq, rfl⟩ := Option.map_eq_some_iff.mp h
      rcases AsyncQueue.check_cases hw hq with ⟨hfull, rfl⟩ | ⟨hroom, hworker, hpushed⟩
      · rw [if_pos hfull]
        exact .drops w batch rest hpending hw hq
      · rw [if_neg hroom]
        exact .clears w batch rest q hpending hw hq hworker hpushed
  | some held =>
      simp only [Proxy.offer, hw] at h
      obtain ⟨q, hq, rfl⟩ := Option.map_eq_some_iff.mp h
      exact .pushes w batch held rest q hpending hw hq

theorem AsyncPhase.action_ofThread (phase : AsyncPhase) :
    AsyncQueue.OfThread
      (phase.action : QueueAction (SortedMap Nat (List Comm)) threads) := by
  cases phase <;> trivial

theorem ProxyMove.of_step {act : ProxyAct threads} (h : proxyStep cfg health s act = some s') :
    ProxyMove cfg health s s' := by
  cases act with
  | event w out buffer worker =>
      simp only [proxyStep] at h
      split_ifs at h with hidle
      obtain rfl := Option.some.inj h
      exact .event w hidle out buffer worker
  | go p =>
      cases hpending : s.pending p with
      | nil => simp [proxyStep, hpending] at h
      | cons todo rest =>
          simp only [proxyStep, hpending] at h
          cases todo with
          | count isFail a =>
              obtain rfl := Option.some.inj h
              exact .counts p isFail a rest hpending
          | queue batch =>
              cases p with
              | worker w => exact .of_offer hpending h
              | async => cases h
  | async =>
      simp only [proxyStep] at h
      split_ifs at h
      obtain ⟨q, hq, rfl⟩ := Option.map_eq_some_iff.mp h
      exact .turns _ q s.queue.phase.action_ofThread hq
  | send io thread =>
      simp only [proxyStep] at h
      split at h
      next batch later hidle htmp =>
        obtain ⟨q, hq, rfl⟩ := Option.map_eq_some_iff.mp h
        exact .sends batch later q hidle htmp hq io thread
      · cases h
  | status v =>
      obtain rfl := Option.some.inj h
      exact .status v
  | next =>
      obtain ⟨u, hu, rfl⟩ := Option.map_eq_some_iff.mp h
      exact .next u hu
  | connect ok =>
      obtain ⟨u, hu, rfl⟩ := Option.map_eq_some_iff.mp h
      exact .connect u ok hu

end Move

end KvProxy
