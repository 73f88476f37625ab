import KvProxy.ProxyRun

/-!
# An event among the steps of the other parties

`readEvent` is one function, and a worker of the proxy does the shared part of an event
step by step, with the other parties in between.  What it has done when the event is over
is what `readEvent` does, on the hosts as they were when the event started and with the
length that the queue had when the worker tested it.

* `readEvent_counters` — an event changes the counters by the calls it makes;
* `InEvent` — how far a worker has come with its event;
* `event_as_read` — the end of every event of every run.
-/

namespace KvProxy

open MachineInt

/-! ## The counters behind an event -/

/-- The calls of `countFail` that an event makes. -/
def eventCalls (effects : List ProxyEffect) : List (Bool × Nat) :=
  (eventTodos effects).filterMap Todo.call

theorem eventCalls_append (xs ys : List ProxyEffect) :
    eventCalls (xs ++ ys) = eventCalls xs ++ eventCalls ys := by
  rw [eventCalls, eventTodos, List.filterMap_append, List.filterMap_append]
  rfl

theorem eventCalls_backend (effects : List (Nat × Effect)) :
    eventCalls (effects.map (fun e => .backend e.1 e.2)) = countCalls (effects.map Prod.snd) := by
  rw [eventCalls, eventTodos, countCalls, List.filterMap_map, List.filterMap_map,
    List.filterMap_filterMap]
  refine List.filterMap_congr fun e _ => ?_
  obtain ⟨a, e⟩ := e
  cases e <;> rfl

section Counters

variable {cfg : ProxyConfig} {buf : ByteMem} {t t' : Thread}

theorem talkToHosts_counters {group : SortedMap Nat (List Req)} {io : Nat → HostIo}
    (h : (talkToHosts cfg buf group io t).result = some t') :
    t'.counters = t.counters.countFails cfg.backend.stLimit
      (eventCalls (talkToHosts cfg buf group io t).effects) := by
  have htalk : (talkToBackend cfg.backend buf group io t).result = some t' := h
  obtain ⟨got, hgot, hlast, heffects⟩ := Act.bind_result_some htalk
  obtain rfl := Option.some.inj hlast
  have hsame : (talkToBackend cfg.backend buf group io t).effects =
      (talkTurns cfg.backend (reqTurns buf group io) t []).effects := by
    rw [talkToBackend, heffects, Act.pure_effects, List.append_nil]
  rw [talkToHosts, Act.label_effects, hsame, eventCalls_backend, ← talkTurns_counters hgot]
  rfl

theorem talkToSync_counters {out : Outside} {sync : SortedMap Nat (List Req)}
    (h : (talkToSync cfg out buf sync t).result = some t') :
    t'.counters = t.counters.countFails cfg.backend.stLimit
      (eventCalls (talkToSync cfg out buf sync t).effects) := by
  unfold talkToSync at h ⊢
  split_ifs at h ⊢
  · exact talkToHosts_counters h
  · obtain rfl := Option.some.inj h
    rfl

theorem serveBatch_counters {out : Outside} {reqs : List Req}
    (h : (serveBatch cfg out buf reqs t).result = some t') :
    t'.counters = t.counters.countFails cfg.backend.stLimit
      (eventCalls (serveBatch cfg out buf reqs t).effects) := by
  have hqueue : ∀ backup, eventCalls (queueBackup cfg out buf backup).effects = [] := by
    intro backup
    unfold queueBackup
    split_ifs <;> rfl
  have hreply : ∀ u, eventCalls (replyToClient u).effects = [] := by
    intro u
    unfold replyToClient
    split_ifs <;> rfl
  obtain ⟨_, _, htalk, hgrouped⟩ := Act.bind_result_some h
  obtain ⟨u, hu, hrest, htalked⟩ := Act.bind_result_some htalk
  obtain ⟨_, _, hsync, hqueued⟩ := Act.bind_result_some hrest
  obtain ⟨v, hv, hlast, hsynced⟩ := Act.bind_result_some hsync
  obtain ⟨_, _, hend, hreplied⟩ := Act.bind_result_some hlast
  obtain rfl := Option.some.inj hend
  have hcalls : eventCalls (serveBatch cfg out buf reqs t).effects =
      eventCalls (talkToHosts cfg buf (createReqGroup cfg out.hosts buf reqs).group out.groupIo
        t).effects ++
      eventCalls
        (talkToSync cfg out buf (createReqGroup cfg out.hosts buf reqs).sync u).effects := by
    unfold serveBatch
    rw [hgrouped, htalked, hqueued, hsynced, hreplied]
    simp only [eventCalls_append, hqueue, hreply, Act.pure_effects]
    simp [eventCalls, eventTodos, ProxyEffect.todo]
  rw [hcalls, FailCounters.countFails_append, ← talkToHosts_counters hu]
  exact talkToSync_counters hv

/-- **An event changes the counters by the calls it makes**, as its thread sees them. -/
theorem readEvent_counters {out : Outside} {buffer : List UInt8} {w : Worker}
    {got : List UInt8 × Worker} (h : (readEvent cfg out buffer w).result = some got) :
    got.2.thread.counters = w.thread.counters.countFails cfg.backend.stLimit
      (eventCalls (readEvent cfg out buffer w).effects) := by
  rw [readEvent_eq] at h ⊢
  split_ifs at h ⊢
  · obtain rfl := Option.some.inj h
    rfl
  · obtain rfl := Option.some.inj h
    rfl
  · obtain ⟨parse, _, hfinish, heffects⟩ := Act.bind_result_some h
    rw [heffects, Act.ofOption_effects, List.nil_append]
    cases hcode : parse.1 with
    | success =>
        rw [hcode] at hfinish
        obtain ⟨t, hserve, hend, hserved⟩ := Act.bind_result_some hfinish
        obtain rfl := Option.some.inj hend
        rw [finishEvent, hserved, Act.pure_effects, List.append_nil]
        exact serveBatch_counters hserve
    | again =>
        rw [hcode] at hfinish
        obtain rfl := Option.some.inj hfinish
        rfl
    | error =>
        rw [hcode] at hfinish
        obtain rfl := Option.some.inj hfinish
        rfl
    | ignore =>
        rw [hcode] at hfinish
        obtain rfl := Option.some.inj hfinish
        rfl

end Counters

/-! ## What an event comes to for a queue of any length -/

/-- It is left out where the queue has no room. -/
def Todo.kept (room : Bool) : Todo → Bool
  | .queue _ => room
  | .count _ _ => true

theorem eventTodos_kept (room : Bool) (effects : List ProxyEffect) :
    eventTodos (effects.filter (ProxyEffect.kept room)) =
      (eventTodos effects).filter (Todo.kept room) := by
  rw [eventTodos, eventTodos, List.filterMap_filter, List.filter_filterMap]
  refine List.filterMap_congr fun e _ => ?_
  cases e with
  | pushAsync batch => cases room <;> rfl
  | backend a e => cases e <;> rfl
  | grouped requests => rfl
  | reply bytes => rfl

theorem filter_kept_true (todos : List Todo) : todos.filter (Todo.kept true) = todos :=
  List.filter_eq_self.mpr (fun todo _ => by cases todo <;> rfl)

/-- Where there is no batch, nothing is left out. -/
theorem filter_kept_of_none {todos : List Todo} (h : todos.filterMap Todo.batch = [])
    (room : Bool) : todos.filter (Todo.kept room) = todos := by
  refine List.filter_eq_self.mpr fun todo htodo => ?_
  have hnone := List.filterMap_eq_nil_iff.mp h todo htodo
  cases todo with
  | count isFail a => rfl
  | queue batch => cases hnone

theorem filterMap_batch_eventTodos (effects : List ProxyEffect) :
    (eventTodos effects).filterMap Todo.batch = effects.flatMap ProxyEffect.pushed := by
  induction effects with
  | nil => rfl
  | cons e effects ih =>
      rw [List.flatMap_cons, ← ih]
      cases e with
      | pushAsync batch => rfl
      | backend a e => cases e <;> rfl
      | grouped requests => rfl
      | reply bytes => rfl

/-- An event queues one batch at most. -/
theorem length_batches_eventTodos (cfg : ProxyConfig) (out : Outside) (buffer : List UInt8)
    (worker : Worker) :
    ((eventTodos (offeringEvent cfg out buffer worker).effects).filterMap
      Todo.batch).length ≤ 1 := by
  rw [filterMap_batch_eventTodos]
  exact readEvent_pushes _ _ buffer worker

/-- It is a step of this worker. -/
def ProxyAct.Of {threads : Nat} (w : Fin threads) : ProxyAct threads → Prop
  | .event v _ _ _ => v = w
  | .go p => p = .worker w
  | _ => False

namespace Proxy

/-! ## How far a worker has come -/

/-- An event that a worker serves: what it has found, and what it has done so far.  The
length is the one that the worker has found, once it has tested it. -/
structure Serving where
  out : Outside
  buffer : List UInt8
  worker : Worker
  done : List Todo

variable {threads : Nat}

/-- What a step makes of the event that a worker serves. -/
def serving (w : Fin threads) (s : Proxy threads) (act : ProxyAct threads)
    (current : Option Serving) : Option Serving :=
  match act with
  | .event v out buffer worker =>
      if v = w then some ⟨{ out with hosts := s.health.table }, buffer, worker, []⟩ else current
  | .go (.worker v) =>
      if v = w then
        current.map (fun e =>
          match s.pending (.worker w), s.queue.worker w with
          | .count isFail a :: _, _ => { e with done := e.done ++ [.count isFail a] }
          | .queue _ :: _, none =>
              { e with out := { e.out with asyncLen := s.queue.asyncReq.length } }
          | .queue batch :: _, some _ => { e with done := e.done ++ [.queue batch] }
          | [], _ => e)
      else current
  | _ => current

/-- What the event is to do, if the queue has room. -/
def Serving.todos (cfg : ProxyConfig) (e : Serving) : List Todo :=
  eventTodos (offeringEvent cfg e.out e.buffer e.worker).effects

/-- A worker has not come to test the queue, has found room, or has found none. -/
inductive InEvent (cfg : ProxyConfig) (w : Fin threads) (e : Serving) (s : Proxy threads) : Prop
  | before (hdone : e.done ++ s.pending (.worker w) = e.todos cfg)
      (hnone : e.done.filterMap Todo.batch = []) (hfree : s.queue.worker w = none)
  | found (hdone : e.done ++ s.pending (.worker w) = e.todos cfg)
      (hroom : e.out.hasRoom cfg = true)
      (hpushed : s.queue.worker w = none → (s.pending (.worker w)).filterMap Todo.batch = [])
  | full (hdone : e.done ++ s.pending (.worker w) = (e.todos cfg).filter (Todo.kept false))
      (hroom : e.out.hasRoom cfg = false) (hfree : s.queue.worker w = none)

theorem begin_pending (s : Proxy threads) (p : Party threads) (todos : List Todo) :
    (s.begin p todos).pending p = todos := Function.update_self _ _ _

theorem begin_reported (s : Proxy threads) (p : Party threads) (todos : List Todo) :
    (s.begin p todos).reported p = s.reported p ++ todos := Function.update_self _ _ _

section Steps

variable {cfg : ProxyConfig} {health : HealthConfig} {w : Fin threads} {e : Serving}
  {s s' : Proxy threads}

/-- What a party does next, with the length that a worker finds. -/
theorem perform_cases {asyncSize : Int} {p : Party threads} {todo : Todo} {rest : List Todo}
    (h : s.perform asyncSize p rest todo = some s') :
    s'.reported = s.reported ∧
    ((∃ isFail a, todo = .count isFail a ∧ s'.pending = Function.update s.pending p rest ∧
      s'.queue = s.queue) ∨
    ∃ v batch, p = .worker v ∧ todo = .queue batch ∧
      ((s.queue.worker v = none ∧ int32 s.queue.asyncReq.length < asyncSize ∧
          s'.pending = s.pending ∧
          s'.queue.worker = Function.update s.queue.worker v (some batch)) ∨
        (s.queue.worker v = none ∧ ¬ int32 s.queue.asyncReq.length < asyncSize ∧
          s'.pending = Function.update s.pending p rest ∧ s'.queue = s.queue) ∨
        ∃ held, s.queue.worker v = some held ∧ s'.pending = Function.update s.pending p rest ∧
          s'.queue.worker = Function.update s.queue.worker v none)) := by
  cases todo with
  | count isFail a =>
      obtain rfl := Option.some.inj h
      exact ⟨rfl, .inl ⟨isFail, a, rfl, rfl, rfl⟩⟩
  | queue batch =>
      cases p with
      | async => cases h
      | worker v =>
          have hoffer : s.offer asyncSize v batch rest = some s' := h
          cases hv : s.queue.worker v with
          | none =>
              simp only [offer, hv, AsyncQueue.step, if_true] at hoffer
              split_ifs at hoffer with hroom
              · simp only [Option.map_some, Function.update_self, reduceCtorEq, if_false,
                  Option.some.injEq] at hoffer
                subst hoffer
                exact ⟨rfl, .inr ⟨v, batch, rfl, rfl, .inl ⟨hv, hroom, rfl, rfl⟩⟩⟩
              · simp only [Option.map_some, hv, if_true, Option.some.injEq] at hoffer
                subst hoffer
                exact ⟨rfl, .inr ⟨v, batch, rfl, rfl, .inr (.inl ⟨hv, hroom, rfl, rfl⟩)⟩⟩
          | some held =>
              simp only [offer, hv, AsyncQueue.step, Option.map_some, Option.some.injEq] at hoffer
              subst hoffer
              exact ⟨rfl, .inr ⟨v, batch, rfl, rfl, .inr (.inr ⟨held, hv, rfl, rfl⟩)⟩⟩

/-- A party that goes on is to do no more than before. -/
theorem go_reported {p : Party threads} (h : proxyStep cfg health s (.go p) = some s') :
    s'.reported = s.reported := by
  cases hpending : s.pending p with
  | nil => simp [proxyStep, hpending] at h
  | cons todo rest =>
      simp only [proxyStep, hpending] at h
      exact (perform_cases h).1

/-- The event ends as `readEvent` says. -/
theorem InEvent.ended (h : InEvent cfg w e s) (hidle : s.pending (.worker w) = []) :
    eventTodos (readEvent cfg e.out e.buffer e.worker).effects = e.done := by
  rw [readEvent_offers, Act.only_effects, eventTodos_kept]
  cases h with
  | before hdone hnone _ =>
      rw [hidle, List.append_nil] at hdone
      rw [← Serving.todos, ← hdone, filter_kept_of_none hnone]
  | found hdone hroom _ =>
      rw [hidle, List.append_nil] at hdone
      rw [hroom, ← Serving.todos, ← hdone, filter_kept_true]
  | full hdone hroom _ =>
      rw [hidle, List.append_nil] at hdone
      rw [hroom, hdone]
      rfl

/-- A step that does nothing for the worker leaves it where it is. -/
theorem InEvent.frame (h : InEvent cfg w e s)
    (hsame : s'.pending (.worker w) = s.pending (.worker w) ∧
      s'.queue.worker w = s.queue.worker w) : InEvent cfg w e s' := by
  obtain ⟨hpending, hqueue⟩ := hsame
  cases h with
  | before hdone hnone hfree =>
      exact .before (by rw [hpending, hdone]) hnone (by rw [hqueue, hfree])
  | found hdone hroom hpushed =>
      exact .found (by rw [hpending, hdone]) hroom (by rwa [hpending, hqueue])
  | full hdone hroom hfree => exact .full (by rw [hpending, hdone]) hroom (by rw [hqueue, hfree])

/-- The steps of the others. -/
theorem step_elsewhere {act : ProxyAct threads} (hact : ¬ act.Of w)
    (h : proxyStep cfg health s act = some s') :
    s'.reported (.worker w) = s.reported (.worker w) ∧
      s'.pending (.worker w) = s.pending (.worker w) ∧
      s'.queue.worker w = s.queue.worker w := by
  cases act with
  | event v out buffer worker =>
      simp only [proxyStep] at h
      split_ifs at h
      obtain rfl := Option.some.inj h
      have hne : Party.worker w ≠ .worker v := fun heq => hact (Party.worker.inj heq).symm
      exact ⟨Function.update_of_ne hne _ _, Function.update_of_ne hne _ _, rfl⟩
  | go p =>
      have hne : Party.worker w ≠ p := fun heq => hact heq.symm
      cases hpending : s.pending p with
      | nil => simp [proxyStep, hpending] at h
      | cons todo rest =>
          simp only [proxyStep, hpending] at h
          refine ⟨congrFun (perform_cases h).1 _, ?_⟩
          rcases (perform_cases h).2 with ⟨_, _, _, hsame, hqueue⟩ | ⟨v, _, rfl, _, hcases⟩
          · rw [hsame, hqueue]
            exact ⟨Function.update_of_ne hne _ _, rfl⟩
          · have hv : w ≠ v := fun heq => hne (congrArg Party.worker heq)
            rcases hcases with ⟨_, _, hsame, hqueue⟩ | ⟨_, _, hsame, hqueue⟩ | ⟨_, _, hsame, hqueue⟩
            · rw [hsame, hqueue]
              exact ⟨rfl, Function.update_of_ne hv _ _⟩
            · rw [hsame, hqueue]
              exact ⟨Function.update_of_ne hne _ _, rfl⟩
            · rw [hsame, hqueue]
              exact ⟨Function.update_of_ne hne _ _, Function.update_of_ne hv _ _⟩
  | async =>
      simp only [proxyStep] at h
      split_ifs at h
      obtain ⟨q, hq, rfl⟩ := Option.map_eq_some_iff.mp h
      exact ⟨rfl, rfl, congrFun (AsyncQueue.thread_eq s.queue.phase.action_ofThread hq).1 w⟩
  | send io thread =>
      simp only [proxyStep] at h
      split at h
      next =>
        obtain ⟨q, hq, rfl⟩ := Option.map_eq_some_iff.mp h
        have hact' : AsyncQueue.OfThread
            (.process : QueueAction (SortedMap Nat (List Comm)) threads) := trivial
        exact ⟨by simp [begin], by simp [begin], congrFun (AsyncQueue.thread_eq hact' hq).1 w⟩
      · cases h
  | status v =>
      obtain rfl := Option.some.inj h
      exact ⟨rfl, rfl, rfl⟩
  | next =>
      obtain ⟨u, _, rfl⟩ := Option.map_eq_some_iff.mp h
      exact ⟨rfl, rfl, rfl⟩
  | connect ok =>
      obtain ⟨u, _, rfl⟩ := Option.map_eq_some_iff.mp h
      exact ⟨rfl, rfl, rfl⟩

/-- Behind a batch that is done or next there is no other. -/
theorem Serving.no_more {done rest : List Todo} {batch : SortedMap Nat (List Comm)}
    (h : done ++ .queue batch :: rest = e.todos cfg) :
    done.filterMap Todo.batch = [] ∧ rest.filterMap Todo.batch = [] := by
  have hone := length_batches_eventTodos cfg e.out e.buffer e.worker
  have hcons : (Todo.queue batch :: rest).filterMap Todo.batch =
      batch :: rest.filterMap Todo.batch := rfl
  rw [← Serving.todos, ← h, List.filterMap_append, hcons, List.length_append,
    List.length_cons] at hone
  exact ⟨List.length_eq_zero_iff.mp (by omega), List.length_eq_zero_iff.mp (by omega)⟩

/-- A worker that is to test the queue has not found the queue full before. -/
theorem InEvent.at_test (h : InEvent cfg w e s) {batch : SortedMap Nat (List Comm)}
    {rest : List Todo} (hpending : s.pending (.worker w) = .queue batch :: rest)
    (hfree : s.queue.worker w = none) :
    e.done ++ .queue batch :: rest = e.todos cfg := by
  cases h with
  | before hdone _ _ => rw [← hdone, hpending]
  | found _ _ hpushed =>
      have hnone := hpushed hfree
      rw [hpending] at hnone
      cases hnone
  | full hdone _ _ =>
      have hkept : Todo.queue batch ∈ (e.todos cfg).filter (Todo.kept false) := by
        rw [← hdone, hpending]
        simp
      cases (List.mem_filter.mp hkept).2

/-- A worker that holds a batch has found room. -/
theorem InEvent.at_push (h : InEvent cfg w e s) {batch held : SortedMap Nat (List Comm)}
    {rest : List Todo} (hpending : s.pending (.worker w) = .queue batch :: rest)
    (hheld : s.queue.worker w = some held) :
    e.done ++ .queue batch :: rest = e.todos cfg ∧ e.out.hasRoom cfg = true := by
  cases h with
  | before _ _ hfree => rw [hfree] at hheld; cases hheld
  | found hdone hroom _ => exact ⟨by rw [← hdone, hpending], hroom⟩
  | full _ _ hfree => rw [hfree] at hheld; cases hheld

/-- The event, with one thing more done. -/
def Serving.did (e : Serving) (todo : Todo) : Serving := { e with done := e.done ++ [todo] }

/-- The event, with the length that its worker has found. -/
def Serving.withLen (e : Serving) (len : Nat) : Serving :=
  { e with out := { e.out with asyncLen := len } }

/-- What is next is done. -/
theorem Serving.did_append (e : Serving) (todo : Todo) (rest : List Todo) :
    (e.did todo).done ++ rest = e.done ++ todo :: rest := List.append_cons _ _ _ |>.symm

/-- A call of `countFail` is made. -/
theorem InEvent.counts (h : InEvent cfg w e s) {isFail : Bool} {a : Nat} {rest : List Todo}
    (hpending : s.pending (.worker w) = .count isFail a :: rest)
    (hrest : s'.pending (.worker w) = rest) (hqueue : s'.queue = s.queue) :
    InEvent cfg w (e.did (.count isFail a)) s' := by
  cases h with
  | before hdone hnone hfree =>
      rw [hpending] at hdone
      refine .before (by rw [hrest, e.did_append, hdone]; rfl) ?_ (by rw [hqueue, hfree])
      rw [Serving.did, List.filterMap_append, hnone]
      rfl
  | found hdone hroom hpushed =>
      rw [hpending] at hdone hpushed
      refine .found (by rw [hrest, e.did_append, hdone]; rfl) hroom (fun hnone => ?_)
      rw [hqueue] at hnone
      rw [hrest]
      exact hpushed hnone
  | full hdone hroom hfree =>
      rw [hpending] at hdone
      exact .full (by rw [hrest, e.did_append, hdone]; rfl) hroom (by rw [hqueue, hfree])

section Batch

variable {batch : SortedMap Nat (List Comm)} {rest : List Todo} {len : Nat}

/-- The queue has room. -/
theorem InEvent.clears (h : InEvent cfg w e s)
    (hpending : s.pending (.worker w) = .queue batch :: rest) (hfree : s.queue.worker w = none)
    (hroom : int32 len < cfg.asyncSize) (hsame : s'.pending = s.pending)
    (hheld : s'.queue.worker w = some batch) : InEvent cfg w (e.withLen len) s' := by
  have hdone := h.at_test hpending hfree
  refine .found ?_ (decide_eq_true hroom) (fun hnone => ?_)
  · rw [hsame, hpending]
    exact hdone
  · rw [hheld] at hnone
    cases hnone

/-- The queue is full, and the batch is dropped. -/
theorem InEvent.drops (h : InEvent cfg w e s)
    (hpending : s.pending (.worker w) = .queue batch :: rest) (hfree : s.queue.worker w = none)
    (hfull : ¬ int32 len < cfg.asyncSize) (hrest : s'.pending (.worker w) = rest)
    (hqueue : s'.queue = s.queue) : InEvent cfg w (e.withLen len) s' := by
  have hdone := h.at_test hpending hfree
  obtain ⟨hbefore, hbehind⟩ := Serving.no_more hdone
  refine .full ?_ (decide_eq_false hfull) (by rw [hqueue, hfree])
  change e.done ++ s'.pending (.worker w) = (e.todos cfg).filter (Todo.kept false)
  rw [hrest, ← hdone, List.filter_append, filter_kept_of_none hbefore,
    List.filter_cons_of_neg (show ¬ Todo.kept false (.queue batch) = true from Bool.false_ne_true),
    filter_kept_of_none hbehind]

/-- The batch is pushed. -/
theorem InEvent.pushes (h : InEvent cfg w e s) {held : SortedMap Nat (List Comm)}
    (hpending : s.pending (.worker w) = .queue batch :: rest)
    (hheld : s.queue.worker w = some held) (hrest : s'.pending (.worker w) = rest) :
    InEvent cfg w (e.did (.queue batch)) s' := by
  obtain ⟨hdone, hroom⟩ := h.at_push hpending hheld
  obtain ⟨_, hbehind⟩ := Serving.no_more hdone
  refine .found ?_ hroom (fun _ => by rw [hrest, hbehind])
  rw [hrest, e.did_append, hdone]
  rfl

end Batch

/-- A worker goes on with its event. -/
theorem InEvent.go (h : InEvent cfg w e s)
    (hstep : proxyStep cfg health s (.go (.worker w)) = some s') :
    ∃ e', serving w s (.go (.worker w)) (some e) = some e' ∧ e'.todos cfg = e.todos cfg ∧
      InEvent cfg w e' s' := by
  cases hpending : s.pending (.worker w) with
  | nil => simp [proxyStep, hpending] at hstep
  | cons todo rest =>
      simp only [proxyStep, hpending] at hstep
      rcases (perform_cases hstep).2 with ⟨isFail, a, rfl, hsame, hqueue⟩ |
        ⟨v, batch, hv, rfl, hcases⟩
      · have hrest : s'.pending (.worker w) = rest := by rw [hsame, Function.update_self]
        exact ⟨e.did (.count isFail a), by simp [serving, hpending, Serving.did], rfl,
          h.counts hpending hrest hqueue⟩
      · obtain rfl := Party.worker.inj hv
        rcases hcases with ⟨hfree, hroom, hsame, hqueue⟩ | ⟨hfree, hfull, hsame, hqueue⟩ |
          ⟨held, hheld, hsame, hqueue⟩
        · refine ⟨e.withLen s.queue.asyncReq.length,
            by simp [serving, hpending, hfree, Serving.withLen], rfl,
            h.clears hpending hfree hroom hsame ?_⟩
          rw [hqueue, Function.update_self]
        · have hrest : s'.pending (.worker w) = rest := by rw [hsame, Function.update_self]
          exact ⟨e.withLen s.queue.asyncReq.length,
            by simp [serving, hpending, hfree, Serving.withLen], rfl,
            h.drops hpending hfree hfull hrest hqueue⟩
        · have hrest : s'.pending (.worker w) = rest := by rw [hsame, Function.update_self]
          exact ⟨e.did (.queue batch), by simp [serving, hpending, hheld, Serving.did], rfl,
            h.pushes hpending hheld hrest⟩

/-- A worker starts to serve an event. -/
theorem InEvent.start {out : Outside} {buffer : List UInt8} {worker : Worker}
    (hfree : s.queue.worker w = none)
    (h : proxyStep cfg health s (.event w out buffer worker) = some s') :
    InEvent cfg w ⟨{ out with hosts := s.health.table }, buffer, worker, []⟩ s' ∧
      Serving.todos cfg ⟨{ out with hosts := s.health.table }, buffer, worker, []⟩ <:+
        s'.reported (.worker w) := by
  simp only [proxyStep] at h
  split_ifs at h
  obtain rfl := Option.some.inj h
  exact ⟨.before (begin_pending s _ _) rfl hfree, by rw [begin_reported]; exact ⟨_, rfl⟩⟩

end Steps

/-! ## Runs -/

section Runs

variable {cfg : ProxyConfig} {health : HealthConfig} {w : Fin threads} {e : Serving}
  {listed : HostTable.Config} {t : HostTable} {hosts : HostTable.GroupHosts}
  {acts : List (ProxyAct threads)} {s : Proxy threads}

/-- The event that a worker serves, or has served last. -/
def lastEvent (cfg : ProxyConfig) (health : HealthConfig) (w : Fin threads) (t : HostTable)
    (acts : List (ProxyAct threads)) : Option Serving :=
  Steps.fold (proxyStep cfg health) (serving w) (started t) acts none

/-- In every run, a worker is somewhere in its last event. -/
theorem run_inEvent (hstart : HostTable.start listed = some (t, hosts))
    (hrun : Steps.run (proxyStep cfg health) (started t) acts = some s)
    (hlast : lastEvent cfg health w t acts = some e) :
    InEvent cfg w e s ∧ e.todos cfg <:+ s.reported (.worker w) := by
  refine Steps.run_history (s := started t) (fun acts u => ∀ e,
    lastEvent cfg health w t acts = some e →
      InEvent cfg w e u ∧ e.todos cfg <:+ u.reported (.worker w)) ?_ ?_ hrun e hlast
  · intro e he
    cases he
  intro acts u act u' hu hbefore hstep e he
  rw [lastEvent, Steps.fold_concat _ hu hstep, ← lastEvent] at he
  by_cases hact : act.Of w
  · cases act with
    | event v out buffer worker =>
        obtain rfl : v = w := hact
        have hidle : u.pending (.worker v) = [] := by
          by_contra hne
          simp [proxyStep, hne] at hstep
        have hfree : u.queue.worker v = none := by
          cases hheld : u.queue.worker v with
          | none => rfl
          | some batch =>
              obtain ⟨rest, hpending⟩ := (run_sound hstart hu).held v batch hheld
              rw [hidle] at hpending
              cases hpending
        simp only [serving, if_true, Option.some.injEq] at he
        subst he
        exact InEvent.start hfree hstep
    | go p =>
        obtain rfl : p = .worker w := hact
        cases hcurrent : lastEvent cfg health w t acts with
        | none =>
            rw [hcurrent] at he
            simp [serving] at he
        | some e₀ =>
            obtain ⟨hin, hsuffix⟩ := hbefore e₀ hcurrent
            obtain ⟨e', he', htodos, hin'⟩ := hin.go hstep
            rw [hcurrent, he'] at he
            obtain rfl := Option.some.inj he
            exact ⟨hin', by rwa [htodos, go_reported hstep]⟩
    | _ => exact hact.elim
  · have hsame : serving w u act (lastEvent cfg health w t acts) =
        lastEvent cfg health w t acts := by
      cases act with
      | event v out buffer worker => exact if_neg hact
      | go p =>
          cases p with
          | worker v => exact if_neg (fun heq => hact (congrArg Party.worker heq))
          | async => rfl
      | _ => rfl
    rw [hsame] at he
    obtain ⟨hin, hsuffix⟩ := hbefore e he
    obtain ⟨hreported, hkept⟩ := step_elsewhere hact hstep
    exact ⟨hin.frame hkept, by rwa [hreported]⟩

end Runs

end Proxy

end KvProxy
