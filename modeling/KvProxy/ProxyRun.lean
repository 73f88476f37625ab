import KvProxy.Proxy

/-!
# What the proxy does in any run

Any configuration is started, and the workers, the async thread, the health thread and
those who look at the status page take any steps.  No failure that a party has seen is
lost, or counted twice, on its way to the page, and no batch on its way to the async
thread.

* `Sound.move`, `run_sound` — what every step keeps;
* `proxy_refines` — for the hosts, this is a run of the health model, and for the queue
  one of the queue model;
* `batches_reach_async`, `failures_reach_page` — from the events to the async thread, and
  to the page.
-/

namespace KvProxy

namespace Proxy

/-! ## The failures that the parties see -/

/-- The parties. -/
def parties (threads : Nat) : List (Party threads) :=
  (List.finRange threads).map .worker ++ [.async]

theorem mem_parties {threads : Nat} (p : Party threads) : p ∈ parties threads := by
  cases p with
  | worker w => exact List.mem_append_left _ (List.mem_map_of_mem (List.mem_finRange w))
  | async => exact List.mem_append_right _ List.mem_cons_self

theorem nodup_parties (threads : Nat) : (parties threads).Nodup := by
  have hworkers : ((List.finRange threads).map Party.worker).Nodup :=
    (List.nodup_finRange threads).map (fun v w h => Party.worker.inj h)
  refine List.nodup_append.mpr ⟨hworkers, List.nodup_singleton _, fun p hp q hq => ?_⟩
  obtain ⟨w, _, rfl⟩ := List.mem_map.mp hp
  obtain rfl := List.mem_singleton.mp hq
  exact fun h => by cases h

/-- The failures of a host among what a party is to do, or has done. -/
def failed (a : Nat) (todos : List Todo) : Nat := failures a (todos.filterMap Todo.call)

theorem failed_append (a : Nat) (todos more : List Todo) :
    failed a (todos ++ more) = failed a todos + failed a more := by
  rw [failed, List.filterMap_append, failures_append, failed, failed]

/-! ## What every step keeps -/

/-- What is kept of the proxy that has been started with these hosts: the maps have the
aliases of the hosts, the rings have those that are online, the counters are those behind
the calls so far; what a party was to do is about these hosts, and is done or pending.  The
queue is in order and within its bound; a worker that has found room holds the batch that
it is to push, and every batch that is done with was pushed or dropped.  The health thread
counts successes only. -/
structure Sound {threads : Nat} (asyncSize : Int) (t : HostTable) (hosts : HostTable.GroupHosts)
    (s : Proxy threads) : Prop where
  inTouch : InTouch t.hostAlias s.health
  online : HostTable.OnlyOnline s.health.table hosts
  counted : s.health.counters = (FailCounters.initVar t.hostAlias.keys).countFails stLimit s.calls
  accounted : ∀ p, s.madeBy p ++ s.pending p = s.reported p
  listed : ∀ p, ∀ todo ∈ s.reported p, todo.Listed hosts
  ordered : s.queue.Ordered
  bounded : 1 ≤ asyncSize → asyncSize + threads ≤ 2147483648 → s.queue.Bounded asyncSize
  held : ∀ w batch, s.queue.worker w = some batch →
    ∃ rest, s.pending (.worker w) = .queue batch :: rest
  passed : s.offered.Perm (s.queue.pushed ++ s.dropped)
  pushedListed : ∀ batch ∈ s.queue.pushed, (Todo.queue batch).Listed hosts
  healthCalls : ∀ x ∈ s.made, x.1 = none → ∃ a, x.2 = .count false a

section Keep

variable {threads : Nat} {t : HostTable} {hosts : HostTable.GroupHosts} {cfg : ProxyConfig}
  {health : HealthConfig} {asyncSize : Int} {s s' : Proxy threads}

theorem started_sound {listed : HostTable.Config}
    (hstart : HostTable.start listed = some (t, hosts)) :
    Sound asyncSize t hosts (started t : Proxy threads) where
  inTouch := started_inTouch hstart
  online := HostTable.start_onlyOnline hstart
  counted := rfl
  accounted _ := rfl
  listed _ _ htodo := absurd htodo List.not_mem_nil
  ordered := ⟨rfl, fun _ => rfl⟩
  bounded hsize _ := by
    have hnone : (AsyncQueue.new : AsyncQueue (SortedMap Nat (List Comm)) threads).cleared = ∅ := by
      simp [AsyncQueue.cleared, AsyncQueue.new]
    change (0 : Int) + ((AsyncQueue.new : AsyncQueue _ threads).cleared.card : Nat) ≤ _
    rw [hnone]
    simp only [Finset.card_empty]
    omega
  held _ _ hbatch := by cases hbatch
  passed := .nil
  pushedListed _ hbatch := absurd hbatch List.not_mem_nil
  healthCalls _ hx := absurd hx List.not_mem_nil

/-- A listed host is known. -/
theorem Sound.mem_keys (h : Sound asyncSize t hosts s) {g : GroupType} {a : Nat}
    (hlists : HostTable.Lists hosts g a) : a ∈ t.hostAlias.keys := by
  obtain ⟨it, hit, rfl⟩ := hlists
  obtain ⟨hp, hname, _⟩ := h.online.wired.named g it hit
  rw [SortedMap.mem_keys, ← h.inTouch.hostAlias, hname]
  rfl

/-- What an event has to do is about listed hosts. -/
theorem Sound.event_listed (h : Sound asyncSize t hosts s) (cfg : ProxyConfig) (out : Outside)
    (buffer : List UInt8) (worker : Worker) :
    ∀ todo ∈ eventTodos
      (offeringEvent cfg { out with hosts := s.health.table } buffer worker).effects,
      todo.Listed hosts := by
  intro todo htodo
  obtain ⟨e, he, hpart⟩ := List.mem_filterMap.mp htodo
  have hseen : HostTable.OnlyOnline
      { out with hosts := s.health.table, asyncLen := 0 }.hosts hosts := h.online
  have honline := (readEvent_online hseen { cfg with asyncSize := 1 } buffer worker).effects e he
  cases e with
  | backend a e =>
      obtain ⟨_, hlists, hcounts⟩ := honline
      cases e with
      | countFail isFail b =>
          obtain rfl := Option.some.inj hpart
          obtain rfl := hcounts isFail b rfl
          exact hlists
      | _ => cases hpart
  | pushAsync batch =>
      obtain rfl := Option.some.inj hpart
      exact fun a ha => (honline a ha).2
  | _ => cases hpart

/-- What the async thread has to do for a batch is about the hosts of the batch. -/
theorem send_listed {batch : SortedMap Nat (List Comm)} (hbatch : (Todo.queue batch).Listed hosts)
    (backend : BackendConfig) (io : Nat → HostIo) (thread : Thread) :
    ∀ todo ∈ asyncTodos (talkToBackendAsync backend batch io thread).effects,
      todo.Listed hosts := by
  have htalk : (talkToBackendAsync backend batch io thread).Spec
      (fun e => (∃ turn ∈ asyncTurns batch io, turn.aliasIndex = e.1) ∧ e.2.CountsFor e.1)
      (fun _ => True) :=
    (talkTurns_hosts backend (asyncTurns batch io) thread []).bind (fun _ _ => .pure trivial)
  intro todo htodo
  obtain ⟨⟨a, e⟩, he, hpart⟩ := List.mem_filterMap.mp htodo
  obtain ⟨⟨turn, hturn, halias⟩, hcounts⟩ := htalk.effects _ he
  obtain ⟨entry, hentry, rfl⟩ := List.mem_map.mp hturn
  cases e with
  | countFail isFail b =>
      obtain rfl := Option.some.inj hpart
      obtain rfl := hcounts isFail b rfl
      exact ⟨_, hbatch _ (List.mem_map.mpr ⟨entry, hentry, halias⟩)⟩
  | _ => cases hpart

/-- A page that is looked at leaves the hosts as they are. -/
theorem Sound.status_table (h : Sound asyncSize t hosts s) (v : Monitor) :
    (s.monitor v).getStatus.2.table = s.health.table := by
  have hnames := h.inTouch.hostAlias
  rw [Monitor.getStatus_eq]
  · rfl
  · exact h.inTouch.fails.trans (congrArg _ hnames.symm)
  · exact h.inTouch.contFails.trans (congrArg _ hnames.symm)
  · exact h.inTouch.flags.trans (congrArg _ hnames.symm)

/-- A party that has done everything gets something to do. -/
theorem Sound.begin (h : Sound asyncSize t hosts s) {p : Party threads} (hidle : s.pending p = [])
    {todos : List Todo} (hlisted : ∀ todo ∈ todos, todo.Listed hosts) :
    Sound asyncSize t hosts (s.begin p todos) := by
  refine { h with accounted := fun q => ?_, listed := fun q => ?_, held := fun w batch hw => ?_ }
  · change s.madeBy q ++ Function.update s.pending p todos q =
      Function.update s.reported p (s.reported p ++ todos) q
    by_cases hq : q = p
    · subst hq
      have hall := h.accounted q
      rw [hidle, List.append_nil] at hall
      rw [Function.update_self, Function.update_self, hall]
    · rw [Function.update_of_ne hq, Function.update_of_ne hq]
      exact h.accounted q
  · change ∀ todo ∈ Function.update s.reported p (s.reported p ++ todos) q, _
    by_cases hq : q = p
    · rw [hq, Function.update_self, List.forall_mem_append]
      exact ⟨h.listed p, hlisted⟩
    · rw [Function.update_of_ne hq]
      exact h.listed q
  · -- a party that has nothing to do holds no batch
    obtain ⟨rest, hrest⟩ := h.held w batch hw
    have hne : Party.worker w ≠ p := by
      rintro rfl
      rw [hidle] at hrest
      cases hrest
    refine ⟨rest, ?_⟩
    change Function.update s.pending p todos (.worker w) = _
    rw [Function.update_of_ne hne, hrest]

/-- What a party does is added to what it has done. -/
theorem madeBy_done (s : Proxy threads) (p q : Party threads) (rest : List Todo) (todo : Todo) :
    (s.done p rest todo).madeBy q = s.madeBy q ++ if p = q then [todo] else [] := by
  rw [madeBy, done, List.filterMap_append, ← madeBy]
  by_cases hq : p = q <;> simp [hq]

/-- Each party is still owed what it has not done. -/
theorem Sound.accounted_done (h : Sound asyncSize t hosts s) {p : Party threads} {todo : Todo}
    {rest : List Todo} (hpending : s.pending p = todo :: rest) (q : Party threads) :
    (s.done p rest todo).madeBy q ++ (s.done p rest todo).pending q = s.reported q := by
  have hall := h.accounted q
  change _ ++ Function.update s.pending p rest q = _
  rw [madeBy_done]
  by_cases hq : p = q
  · subst hq
    rw [hpending] at hall
    rw [if_pos rfl, Function.update_self, List.append_assoc, List.singleton_append, hall]
  · rw [if_neg hq, List.append_nil, Function.update_of_ne (Ne.symm hq), hall]

/-- What a party does is not done for the health thread. -/
theorem Sound.healthCalls_done (h : Sound asyncSize t hosts s) (p : Party threads)
    (rest : List Todo) (todo : Todo) :
    ∀ x ∈ (s.done p rest todo).made, x.1 = none → ∃ a, x.2 = .count false a := by
  rw [done, List.forall_mem_append]
  refine ⟨h.healthCalls, fun x hx hnone => ?_⟩
  obtain rfl := List.mem_singleton.mp hx
  cases hnone

theorem calls_done (s : Proxy threads) (p : Party threads) (rest : List Todo) (todo : Todo) :
    (s.done p rest todo).calls = s.calls ++ todo.call.toList := by
  rw [calls, done, List.filterMap_append, ← calls]
  cases todo <;> rfl

theorem offered_done (s : Proxy threads) (p : Party threads) (rest : List Todo) (todo : Todo) :
    (s.done p rest todo).offered = s.offered ++ todo.batch.toList := by
  rw [offered, done, List.filterMap_append, ← offered]
  cases todo <;> rfl

/-- The other parties go on holding their batches. -/
theorem Sound.held_elsewhere (h : Sound asyncSize t hosts s) {p : Party threads} {w : Fin threads}
    (hne : Party.worker w ≠ p) {batch : SortedMap Nat (List Comm)}
    (hw : s.queue.worker w = some batch) (rest : List Todo) :
    ∃ rest', Function.update s.pending p rest (.worker w) = .queue batch :: rest' := by
  rw [Function.update_of_ne hne]
  exact h.held w batch hw

/-- A step of the queue that pushes nothing. -/
theorem Sound.withQueue (h : Sound asyncSize t hosts s)
    {q : AsyncQueue (SortedMap Nat (List Comm)) threads}
    {act : QueueAction (SortedMap Nat (List Comm)) threads}
    (hq : s.queue.step asyncSize act = some q) (hpushed : q.pushed = s.queue.pushed)
    (hheld : ∀ w batch, q.worker w = some batch →
      ∃ rest, s.pending (.worker w) = .queue batch :: rest) :
    Sound asyncSize t hosts { s with queue := q } where
  inTouch := h.inTouch
  online := h.online
  counted := h.counted
  accounted := h.accounted
  listed := h.listed
  ordered := h.ordered.step hq
  bounded hsize hfit := (h.bounded hsize hfit).step hsize hfit h.ordered hq
  held := hheld
  passed := by
    dsimp only
    rw [hpushed]
    exact h.passed
  pushedListed := by
    dsimp only
    rw [hpushed]
    exact h.pushedListed
  healthCalls := h.healthCalls

/-- A party counts. -/
theorem Sound.counts (h : Sound asyncSize t hosts s) {p : Party threads} {isFail : Bool} {a : Nat}
    {rest : List Todo} (hpending : s.pending p = .count isFail a :: rest) :
    Sound asyncSize t hosts { s.done p rest (.count isFail a) with
      health := { s.health with counters := s.health.counters.countFail stLimit isFail a } } := by
  have hmine : (Todo.count isFail a).Listed hosts := by
    refine h.listed p _ ?_
    rw [← h.accounted, hpending]
    simp
  have hcount : healthStep ⟨0, ∅⟩ s.health (.count isFail a) =
      some { s.health with counters := s.health.counters.countFail stLimit isFail a } := rfl
  refine ⟨h.inTouch.step hcount ?_, healthStep_onlyOnline h.online hcount, ?_,
    h.accounted_done hpending, h.listed, h.ordered, h.bounded, fun w batch hw => ?_, ?_,
    h.pushedListed, h.healthCalls_done p rest _⟩
  · intro call hcall
    obtain rfl := List.mem_singleton.mp hcall
    obtain ⟨g, hlists⟩ := hmine
    exact h.mem_keys hlists
  · change s.health.counters.countFail stLimit isFail a =
      (FailCounters.initVar t.hostAlias.keys).countFails stLimit
        (s.done p rest (.count isFail a)).calls
    rw [calls_done, h.counted]
    exact (FailCounters.countFails_concat stLimit _ s.calls (isFail, a)).symm
  · -- a party that counts next holds no batch
    obtain ⟨rest', hrest'⟩ := h.held w batch hw
    have hne : Party.worker w ≠ p := by
      rintro rfl
      rw [hpending] at hrest'
      cases hrest'
    exact h.held_elsewhere hne hw rest
  · change (s.done p rest (.count isFail a)).offered.Perm _
    rw [offered_done, Todo.batch, Option.toList_none, List.append_nil]
    exact h.passed

/-- A worker finds the queue full. -/
theorem Sound.drops (h : Sound asyncSize t hosts s) {w : Fin threads}
    {batch : SortedMap Nat (List Comm)} {rest : List Todo}
    (hpending : s.pending (.worker w) = .queue batch :: rest) (hfree : s.queue.worker w = none) :
    Sound asyncSize t hosts
      { s.done (.worker w) rest (.queue batch) with dropped := s.dropped ++ [batch] } := by
  refine ⟨h.inTouch, h.online, ?_, h.accounted_done hpending, h.listed, h.ordered, h.bounded,
    fun v held hv => ?_, ?_, h.pushedListed, h.healthCalls_done (.worker w) rest _⟩
  · change s.health.counters = (FailCounters.initVar t.hostAlias.keys).countFails stLimit
      (s.done (.worker w) rest (.queue batch)).calls
    rw [calls_done, Todo.call, Option.toList_none, List.append_nil]
    exact h.counted
  · have hne : Party.worker v ≠ Party.worker w := by
      rintro heq
      obtain rfl := Party.worker.inj heq
      change s.queue.worker v = some held at hv
      rw [hfree] at hv
      cases hv
    exact h.held_elsewhere hne hv rest
  · change (s.done (.worker w) rest (.queue batch)).offered.Perm
      (s.queue.pushed ++ (s.dropped ++ [batch]))
    rw [offered_done, ← List.append_assoc]
    exact h.passed.append_right [batch]

/-- The batch that a worker holds is the one that is next. -/
theorem Sound.held_next (h : Sound asyncSize t hosts s) {w : Fin threads}
    {batch held : SortedMap Nat (List Comm)} {rest : List Todo}
    (hpending : s.pending (.worker w) = .queue batch :: rest)
    (hheld : s.queue.worker w = some held) : batch = held := by
  obtain ⟨rest', hrest'⟩ := h.held w held hheld
  rw [hpending] at hrest'
  exact Todo.queue.inj (List.cons.inj hrest').1

/-- A worker that has found room pushes. -/
theorem Sound.pushes (h : Sound asyncSize t hosts s) {w : Fin threads}
    {batch held : SortedMap Nat (List Comm)} {rest : List Todo}
    {q : AsyncQueue (SortedMap Nat (List Comm)) threads}
    (hpending : s.pending (.worker w) = .queue batch :: rest)
    (hheld : s.queue.worker w = some held) (hq : s.queue.step asyncSize (.push w) = some q) :
    Sound asyncSize t hosts { s.done (.worker w) rest (.queue batch) with queue := q } := by
  obtain rfl := h.held_next hpending hheld
  obtain ⟨hworker, hpushed⟩ := AsyncQueue.push_eq hheld hq
  refine ⟨h.inTouch, h.online, ?_, h.accounted_done hpending, h.listed, h.ordered.step hq,
    fun hsize hfit => (h.bounded hsize hfit).step hsize hfit h.ordered hq,
    fun v other hv => ?_, ?_, ?_, h.healthCalls_done (.worker w) rest _⟩
  · change s.health.counters = (FailCounters.initVar t.hostAlias.keys).countFails stLimit
      (s.done (.worker w) rest (.queue batch)).calls
    rw [calls_done, Todo.call, Option.toList_none, List.append_nil]
    exact h.counted
  · change q.worker v = some other at hv
    rw [hworker] at hv
    have hne : v ≠ w := by
      rintro rfl
      rw [Function.update_self] at hv
      cases hv
    rw [Function.update_of_ne hne] at hv
    exact h.held_elsewhere (fun heq => hne (Party.worker.inj heq)) hv rest
  · change (s.done (.worker w) rest (.queue batch)).offered.Perm (q.pushed ++ s.dropped)
    rw [offered_done, hpushed, List.append_assoc]
    have hlast : (s.queue.pushed ++ s.dropped ++ [batch]).Perm
        (s.queue.pushed ++ ([batch] ++ s.dropped)) := by
      rw [List.append_assoc]
      exact List.perm_append_comm.append_left _
    exact (h.passed.append_right [batch]).trans hlast
  · dsimp only
    rw [hpushed, List.forall_mem_append]
    refine ⟨h.pushedListed, fun other hother => ?_⟩
    obtain rfl := List.mem_singleton.mp hother
    refine h.listed (.worker w) _ ?_
    rw [← h.accounted, hpending]
    simp

/-- The failures that are counted are those that the parties have counted. -/
theorem Sound.failures_calls (h : Sound asyncSize t hosts s) (a : Nat) :
    failures a s.calls = ((parties threads).map (fun p => failed a (s.madeBy p))).sum := by
  -- the calls by the party that makes them, the health thread first
  have hkeys : (none :: (parties threads).map some).Nodup :=
    List.nodup_cons.mpr ⟨by simp, (nodup_parties threads).map (Option.some_injective _)⟩
  have hmade : ∀ x ∈ s.made, x.1 ∈ none :: (parties threads).map some := by
    intro x _
    cases x.1 with
    | none => exact List.mem_cons_self
    | some p => exact List.mem_cons_of_mem _ (List.mem_map_of_mem (mem_parties p))
  have hperm := Grouping.flatMap_filter_perm hkeys hmade
  have hcalls := (hperm.filterMap (fun x => x.2.call)).count_eq (true, a)
  have hhealth : ((s.made.filter (fun x => x.1 = none)).filterMap (fun x => x.2.call)).count
      (true, a) = 0 := by
    refine List.count_eq_zero.mpr fun hmem => ?_
    obtain ⟨x, hx, hcall⟩ := List.mem_filterMap.mp hmem
    obtain ⟨hmem, hx⟩ := List.mem_filter.mp hx
    obtain ⟨b, hb⟩ := h.healthCalls x hmem (of_decide_eq_true hx)
    rw [hb] at hcall
    cases hcall
  have hparty : ∀ p : Party threads,
      (s.made.filter (fun x => x.1 = some p)).filterMap (fun x => x.2.call) =
        (s.madeBy p).filterMap Todo.call := by
    intro p
    rw [madeBy, List.filterMap_filter, List.filterMap_filterMap]
    refine List.filterMap_congr fun x _ => ?_
    by_cases hx : x.1 = some p <;> simp [hx]
  rw [failures, calls, ← hcalls, List.flatMap_cons, List.filterMap_append, List.count_append,
    hhealth, Nat.zero_add, List.flatMap_map, List.filterMap_flatMap, List.count_flatMap]
  refine congrArg List.sum (List.map_congr_left fun p _ => ?_)
  exact congrArg (List.count (true, a)) (hparty p)

/-- **No failure is lost**, and none is counted twice. -/
theorem Sound.failures_accounted (h : Sound asyncSize t hosts s) (a : Nat) :
    failures a s.calls + ((parties threads).map (fun p => failed a (s.pending p))).sum =
      ((parties threads).map (fun p => failed a (s.reported p))).sum := by
  rw [h.failures_calls, ← List.sum_map_add]
  refine congrArg List.sum (List.map_congr_left fun p _ => ?_)
  rw [← failed_append, h.accounted]

/-- The health thread changes the counters by the call that it makes. -/
theorem healthNext_counters {u u' : HealthState} (h : healthNext health u = some u') :
    u'.counters = u.counters.countFails stLimit (u.pc.todos.filterMap Todo.call) := by
  cases HealthStep.of_healthNext h with
  | reset hpc => rw [hpc]; rfl
  | copyCounters hpc => rw [hpc]; rfl
  | copyFlags hpc => rw [hpc]; rfl
  | failover hpc _ => rw [hpc]; rfl
  | pass hpc => rw [hpc]; rfl
  | skip hpc => rw [hpc]; rfl
  | recover hpc => rw [hpc]; rfl
  | sleep hpc => rw [hpc]; rfl

theorem healthConnect_counters {u u' : HealthState} {ok : Bool}
    (h : healthConnect health u ok = some u') : u'.counters = u.counters := by
  cases HealthStep.of_healthConnect h with
  | connect _ => rfl
  | refused _ => rfl

/-- What the health thread does is nobody's, and nothing for the queue. -/
theorem madeBy_health (s : Proxy threads) (u : HealthState) (pc : HealthPc) (p : Party threads) :
    ({ s with health := u, made := s.made ++ pc.todos.map (Prod.mk none) } :
      Proxy threads).madeBy p = s.madeBy p := by
  rw [madeBy, List.filterMap_append, List.filterMap_map, ← madeBy]
  simp

theorem offered_health (s : Proxy threads) (u : HealthState) (pc : HealthPc) :
    ({ s with health := u, made := s.made ++ pc.todos.map (Prod.mk none) } :
      Proxy threads).offered = s.offered := by
  rw [offered, List.filterMap_append, List.filterMap_map, ← offered]
  have hnone : pc.todos.filterMap Todo.batch = [] := by
    cases pc <;> rfl
  exact (congrArg _ hnone).trans (List.append_nil _)

/-- **One step.** -/
theorem Sound.move (h : Sound cfg.asyncSize t hosts s) (hmove : ProxyMove cfg health s s') :
    Sound cfg.asyncSize t hosts s' := by
  cases hmove with
  | event w hidle out buffer worker => exact h.begin hidle (h.event_listed cfg out buffer worker)
  | counts p isFail a rest hpending => exact h.counts hpending
  | clears w batch rest q hpending _ hq hworker hpushed =>
      refine h.withQueue hq hpushed fun v other hv => ?_
      rw [hworker] at hv
      by_cases hvw : v = w
      · subst hvw
        rw [Function.update_self] at hv
        obtain rfl := Option.some.inj hv
        exact ⟨rest, hpending⟩
      · rw [Function.update_of_ne hvw] at hv
        exact h.held v other hv
  | drops w batch rest hpending hfree _ => exact h.drops hpending hfree
  | pushes w batch held rest q hpending hheld hq => exact h.pushes hpending hheld hq
  | turns act q hact hq =>
      obtain ⟨hworker, hpushed⟩ := AsyncQueue.thread_eq hact hq
      exact h.withQueue hq hpushed (hworker ▸ h.held)
  | sends batch later q hidle htmp hq io thread =>
      have hact : AsyncQueue.OfThread (.process : QueueAction (SortedMap Nat (List Comm)) threads) :=
        trivial
      obtain ⟨hworker, hpushed⟩ := AsyncQueue.thread_eq hact hq
      have hbatch : batch ∈ s.queue.pushed := by
        rw [h.ordered.order, htmp]
        simp
      exact (h.withQueue hq hpushed (hworker ▸ h.held)).begin hidle
        (send_listed (h.pushedListed batch hbatch) cfg.backend io thread)
  | status v =>
      rw [h.status_table v]
      exact h
  | next u hu =>
      have hnext : healthStep health s.health .next = some u := hu
      refine ⟨h.inTouch.step hnext (fun _ hcall => absurd hcall List.not_mem_nil),
        healthStep_onlyOnline h.online hnext, ?_, fun p => ?_, h.listed, h.ordered, h.bounded,
        h.held, ?_, h.pushedListed, ?_⟩
      · dsimp only
        rw [healthNext_counters hu, h.counted, ← FailCounters.countFails_append, calls, calls,
          List.filterMap_append, List.filterMap_map]
        rfl
      · rw [madeBy_health]
        exact h.accounted p
      · rw [offered_health]
        exact h.passed
      · rw [List.forall_mem_append]
        refine ⟨h.healthCalls, fun x hx _ => ?_⟩
        obtain ⟨todo, htodo, rfl⟩ := List.mem_map.mp hx
        exact HealthPc.todos_success htodo
  | connect u ok hu =>
      have hconnect : healthStep health s.health (.connect ok) = some u := hu
      exact { h with
        inTouch := h.inTouch.step hconnect (fun _ hcall => absurd hcall List.not_mem_nil)
        online := healthStep_onlyOnline h.online hconnect
        counted := (healthConnect_counters hu).trans h.counted }

/-- **Every state** that the proxy reaches. -/
theorem run_sound {listed : HostTable.Config} (hstart : HostTable.start listed = some (t, hosts))
    {acts : List (ProxyAct threads)}
    (hrun : Steps.run (proxyStep cfg health) (started t) acts = some s) :
    Sound cfg.asyncSize t hosts s :=
  Steps.run_invariant (C := fun _ _ => True) (Sound cfg.asyncSize t hosts)
    (fun _ _ _ hs _ hstep => hs.move (.of_step hstep)) (started_sound hstart)
    (Steps.everyStep_of_forall (fun _ _ => trivial) _ acts) hrun

end Keep

/-! ## The two models -/

/-- The batches for which a worker tests the length of the queue. -/
def checksOf {threads : Nat} (w : Fin threads)
    (acts : List (QueueAction (SortedMap Nat (List Comm)) threads)) :
    List (SortedMap Nat (List Comm)) :=
  acts.filterMap (fun
    | .check v batch => if v = w then some batch else none
    | _ => none)

/-- The batches that a worker has pushed or dropped. -/
def batchesOf {threads : Nat} (s : Proxy threads) (w : Fin threads) :
    List (SortedMap Nat (List Comm)) :=
  (s.madeBy (.worker w)).filterMap Todo.batch

theorem checksOf_thread {threads : Nat} (w : Fin threads)
    {act : QueueAction (SortedMap Nat (List Comm)) threads} (hact : AsyncQueue.OfThread act) :
    checksOf w [act] = [] := by
  cases act with
  | check v batch => exact hact.elim
  | _ => rfl

section Views

variable {threads : Nat} {listed : HostTable.Config} {t : HostTable} {hosts : HostTable.GroupHosts}
  {cfg : ProxyConfig} {health : HealthConfig} {s s' : Proxy threads}
  {acts : List (ProxyAct threads)}

theorem partyCalls_done (s : Proxy threads) (p : Party threads) (rest : List Todo) (todo : Todo) :
    (s.done p rest todo).partyCalls = s.partyCalls ++ todo.call.toList := by
  rw [partyCalls, done, List.filterMap_append, ← partyCalls]
  cases todo <;> rfl

theorem partyCalls_health (s : Proxy threads) (u : HealthState) (pc : HealthPc) :
    ({ s with health := u, made := s.made ++ pc.todos.map (Prod.mk none) } :
      Proxy threads).partyCalls = s.partyCalls := by
  rw [partyCalls, List.filterMap_append, List.filterMap_map, ← partyCalls]
  simp

/-- For the hosts, a step of the proxy is a step of the health model, or none. -/
theorem ProxyMove.healthRun (hs : Sound cfg.asyncSize t hosts s)
    (hmove : ProxyMove cfg health s s') :
    ∃ more, Steps.run (healthStep health) s.health more = some s'.health ∧
      s'.partyCalls = s.partyCalls ++ workerCalls more := by
  have hidle : ∃ more, Steps.run (healthStep health) s.health more = some s.health ∧
      s.partyCalls = s.partyCalls ++ workerCalls more :=
    ⟨[], rfl, (List.append_nil _).symm⟩
  cases hmove with
  | event _ _ _ _ _ => exact hidle
  | counts p isFail a rest _ =>
      exact ⟨[.count isFail a], rfl, partyCalls_done s p rest (.count isFail a)⟩
  | clears _ _ _ _ _ _ _ _ _ => exact hidle
  | drops w batch rest _ _ _ =>
      exact ⟨[], rfl, partyCalls_done s (.worker w) rest (.queue batch)⟩
  | pushes w batch _ rest _ _ _ _ =>
      exact ⟨[], rfl, partyCalls_done s (.worker w) rest (.queue batch)⟩
  | turns _ _ _ _ => exact hidle
  | sends _ _ _ _ _ _ _ _ => exact hidle
  | status v =>
      rw [hs.status_table v]
      exact hidle
  | next u hu =>
      have hnext : healthStep health s.health .next = some u := hu
      exact ⟨[.next], Steps.run_cons hnext [],
        (partyCalls_health s u s.health.pc).trans (List.append_nil _).symm⟩
  | connect u ok hu =>
      have hconnect : healthStep health s.health (.connect ok) = some u := hu
      exact ⟨[.connect ok], Steps.run_cons hconnect [], (List.append_nil _).symm⟩

theorem batchesOf_done (s : Proxy threads) (p : Party threads) (rest : List Todo) (todo : Todo)
    (w : Fin threads) :
    (s.done p rest todo).batchesOf w =
      s.batchesOf w ++ if p = .worker w then todo.batch.toList else [] := by
  rw [batchesOf, madeBy_done, List.filterMap_append, ← batchesOf]
  split_ifs
  · cases todo <;> rfl
  · rfl

/-- For the queue, a step of the proxy is a step of the queue model, or none; a worker that
tests the length has pushed or dropped its batch, or holds it. -/
theorem ProxyMove.queueRun (hs : Sound cfg.asyncSize t hosts s)
    (hmove : ProxyMove cfg health s s') :
    ∃ more, Steps.run (AsyncQueue.step cfg.asyncSize) s.queue more = some s'.queue ∧
      ∀ w, s'.batchesOf w ++ (s'.queue.worker w).toList =
        s.batchesOf w ++ (s.queue.worker w).toList ++ checksOf w more := by
  have hidle : ∃ more, Steps.run (AsyncQueue.step cfg.asyncSize) s.queue more = some s.queue ∧
      ∀ w, s.batchesOf w ++ (s.queue.worker w).toList =
        s.batchesOf w ++ (s.queue.worker w).toList ++ checksOf w more :=
    ⟨[], rfl, fun _ => (List.append_nil _).symm⟩
  cases hmove with
  | event _ _ _ _ _ => exact hidle
  | counts p isFail a rest _ =>
      refine ⟨[], rfl, fun w => ?_⟩
      have hsame : ({ s.done p rest (.count isFail a) with
          health := { s.health with
            counters := s.health.counters.countFail stLimit isFail a } } :
          Proxy threads).batchesOf w = s.batchesOf w := by
        refine (batchesOf_done s p rest (.count isFail a) w).trans ?_
        split_ifs
        · exact List.append_nil _
        · exact List.append_nil _
      rw [hsame]
      exact (List.append_nil _).symm
  | clears w batch rest q _ hfree hq hworker _ =>
      refine ⟨[.check w batch], Steps.run_cons hq [], fun v => ?_⟩
      change s.batchesOf v ++ (q.worker v).toList = _
      rw [hworker]
      by_cases hv : v = w
      · subst hv
        rw [Function.update_self, hfree]
        simp [checksOf]
      · rw [Function.update_of_ne hv]
        simp [checksOf, Ne.symm hv]
  | drops w batch rest _ hfree hq =>
      refine ⟨[.check w batch], Steps.run_cons hq [], fun v => ?_⟩
      have hdone := batchesOf_done s (.worker w) rest (.queue batch) v
      change (s.done (.worker w) rest (.queue batch)).batchesOf v ++ (s.queue.worker v).toList = _
      rw [hdone]
      by_cases hv : w = v
      · subst hv
        rw [hfree]
        simp [checksOf, Todo.batch]
      · simp [checksOf, hv]
  | pushes w batch held rest q hpending hheld hq =>
      obtain ⟨hworker, _⟩ := AsyncQueue.push_eq hheld hq
      refine ⟨[.push w], Steps.run_cons hq [], fun v => ?_⟩
      have hdone := batchesOf_done s (.worker w) rest (.queue batch) v
      change (s.done (.worker w) rest (.queue batch)).batchesOf v ++ (q.worker v).toList = _
      obtain rfl := hs.held_next hpending hheld
      rw [hdone, hworker]
      by_cases hv : v = w
      · subst hv
        rw [Function.update_self, hheld]
        simp [checksOf, Todo.batch]
      · rw [Function.update_of_ne hv]
        simp [checksOf, Ne.symm hv]
  | turns act q hact hq =>
      have hsame := (AsyncQueue.thread_eq hact hq).1
      refine ⟨[act], Steps.run_cons hq [], fun w => ?_⟩
      change s.batchesOf w ++ (q.worker w).toList = _
      rw [hsame, checksOf_thread w hact, List.append_nil]
  | sends batch later q _ _ hq io thread =>
      have hact : AsyncQueue.OfThread (.process : QueueAction (SortedMap Nat (List Comm)) threads) :=
        trivial
      refine ⟨[.process], Steps.run_cons hq [], fun w => ?_⟩
      change s.batchesOf w ++ (q.worker w).toList = _
      rw [(AsyncQueue.thread_eq hact hq).1]
      exact (List.append_nil _).symm
  | status _ => exact hidle
  | next u _ =>
      refine ⟨[], rfl, fun w => ?_⟩
      rw [batchesOf, madeBy_health]
      exact (List.append_nil _).symm
  | connect _ _ _ => exact hidle

/-- A default host and a backup host. -/
def replicatedListed : HostTable.Config where
  hosts := [⟨"127.0.0.1".toList, 11211, 1, 1⟩]
  hostsBackup := [⟨"127.0.0.2".toList, 11211, 2, 1⟩]
  hostsRead := []

/-- They are started. -/
def replicatedStarted : HostTable × HostTable.GroupHosts :=
  (HostTable.start replicatedListed).getD (.new, fun _ => ∅)

/-- They are started without an error. -/
theorem replicatedListed_start :
    HostTable.start replicatedListed = some (replicatedStarted.1, replicatedStarted.2) := rfl

/-- One failure takes a host offline. -/
def oneFailure : HealthConfig := ⟨1, replicatedStarted.1.hostAlias⟩

/-- A set that no host answers. -/
def failingSet : ProxyAct 1 := .event 0 replicatedOutside (setBytes 97 97) ⟨.new (fun _ => 0), 0, []⟩

/-- The worker counts a failure, tests the queue and pushes, and starts with the next set; the
async thread takes the batch and fails to send it; the health thread takes the first host
offline, and the async thread counts. -/
def failingRun : List (ProxyAct 1) :=
  [failingSet, .go (.worker 0), .go (.worker 0), .go (.worker 0), failingSet, .async, .async,
    .send unreachable (.new (fun _ => 0)), .next, .next, .next, .go .async]

/-- The proxy behind that. -/
def failedProxy : Proxy 1 :=
  (Steps.run (proxyStep plusConfig oneFailure) (started replicatedStarted.1) failingRun).getD
    (started replicatedStarted.1)

theorem failingRun_run :
    Steps.run (proxyStep plusConfig oneFailure) (started replicatedStarted.1) failingRun =
      some failedProxy := by
  obtain ⟨s, hs⟩ := Option.isSome_iff_exists.mp (show
    (Steps.run (proxyStep plusConfig oneFailure) (started replicatedStarted.1) failingRun).isSome =
      true by decide +kernel)
  rw [failedProxy, hs, Option.getD_some]

/-- **The two models are met.**  For the hosts, their counters and the health thread, a run
of the proxy is a run of the health model, in which the workers make the calls of
`countFail` that the parties make, in their order.  For the queue, it is a run of the queue
model, in which each worker tests the length for the batches of its events, in their
order, of which it may still hold the last one. -/
theorem proxy_refines (hstart : HostTable.start listed = some (t, hosts))
    (hrun : Steps.run (proxyStep cfg health) (started t) acts = some s) :
    (∃ healthActs, Steps.run (healthStep health) (.started t) healthActs = some s.health ∧
      workerCalls healthActs = s.partyCalls) ∧
    ∃ queueActs, Steps.run (AsyncQueue.step cfg.asyncSize) .new queueActs = some s.queue ∧
      ∀ w, checksOf w queueActs = s.batchesOf w ++ (s.queue.worker w).toList := by
  constructor
  · refine Steps.run_component (s := started t) Proxy.health
      (fun healthActs u => workerCalls healthActs = u.partyCalls) rfl ?_ hrun
    intro acts u act u' hu hstep
    obtain ⟨more, hmore, hcalls⟩ := ProxyMove.healthRun (run_sound hstart hu) (.of_step hstep)
    refine ⟨more, hmore, fun sofar hsofar => ?_⟩
    rw [workerCalls_append, hsofar, hcalls]
  · refine Steps.run_component (s := started t) Proxy.queue
      (fun queueActs u => ∀ w, checksOf w queueActs = u.batchesOf w ++ (u.queue.worker w).toList)
      (fun _ => rfl) ?_ hrun
    intro acts u act u' hu hstep
    obtain ⟨more, hmore, hchecks⟩ := ProxyMove.queueRun (run_sound hstart hu) (.of_step hstep)
    refine ⟨more, hmore, fun sofar hsofar w => ?_⟩
    rw [checksOf, List.filterMap_append, ← checksOf, ← checksOf, hsofar, hchecks]

theorem proxy_refines_failing :
    (∃ healthActs, Steps.run (healthStep oneFailure) (.started replicatedStarted.1) healthActs =
      some failedProxy.health ∧ workerCalls healthActs = [(true, 1), (true, 2)]) ∧
    ∃ queueActs, Steps.run (AsyncQueue.step plusConfig.asyncSize) .new queueActs =
      some failedProxy.queue ∧
      ∀ w, checksOf w queueActs =
        failedProxy.batchesOf w ++ (failedProxy.queue.worker w).toList := by
  have hcalls : failedProxy.partyCalls = [(true, 1), (true, 2)] := by
    decide +kernel
  rw [← hcalls]
  exact proxy_refines replicatedListed_start failingRun_run

/-- **From the events to the async thread.**  Any configuration is started, and the parties
take any steps.  Then each party has done what it was to do, up to what it has still to do.
Every batch that a worker is done with was either pushed or dropped; those pushed are
those that the async thread has sent or is sending, then those in its own queue, then those
in the queue; they are about backup hosts, and the queue is no longer than its bound and
the other workers allow. -/
theorem batches_reach_async (hstart : HostTable.start listed = some (t, hosts))
    (hrun : Steps.run (proxyStep cfg health) (started t) acts = some s) :
    (∀ p, s.madeBy p ++ s.pending p = s.reported p) ∧
    s.offered.Perm (s.queue.pushed ++ s.dropped) ∧
    s.queue.pushed = s.queue.processed ++ s.queue.asyncReqTmp ++ s.queue.asyncReq ∧
    (∀ batch ∈ s.queue.pushed, ∀ a ∈ batch.keys, HostTable.Lists hosts .hostsBackup a) ∧
    (1 ≤ cfg.asyncSize → cfg.asyncSize + threads ≤ 2147483648 →
      (s.queue.asyncReq.length : Int) ≤ cfg.asyncSize + threads - 1) := by
  have h := run_sound hstart hrun
  refine ⟨h.accounted, h.passed, h.ordered.order, h.pushedListed, fun hsize hfit => ?_⟩
  have hbound := h.bounded hsize hfit
  unfold AsyncQueue.Bounded at hbound
  omega

/-- The one batch was pushed, and has been sent in vain. -/
theorem batches_reach_async_failing :
    failedProxy.queue.processed.length = 1 ∧
    failedProxy.offered.Perm (failedProxy.queue.pushed ++ failedProxy.dropped) ∧
    failedProxy.queue.pushed = failedProxy.queue.processed ++ failedProxy.queue.asyncReqTmp ++
      failedProxy.queue.asyncReq ∧
    (failedProxy.queue.asyncReq.length : Int) ≤ plusConfig.asyncSize + (1 : Nat) - 1 := by
  obtain ⟨_, hpassed, horder, _, hbound⟩ :=
    batches_reach_async replicatedListed_start failingRun_run
  exact ⟨by decide +kernel, hpassed, horder, hbound (by decide) (by decide)⟩

/-- What else is read for the page. -/
def sevenServed : Monitor where
  stReq := 7
  stConn := -1
  counters := .initVar []
  table := .new
  connPool := .new
  recvTimeout := 3000000
  asyncLen := 0

/-- The page behind the run. -/
def failedPage : Text :=
  "\nNumber of processed requests [7]\n".toList ++
  "Number of requests failed [2]\n".toList ++
  "  - 127.0.0.1:11211 [1]\n  - 127.0.0.2:11211 [1]\n".toList ++
  "Number of continuous requests failed [2]\n".toList ++
  "  - 127.0.0.1:11211 [1]\n  - 127.0.0.2:11211 [1]\n".toList ++
  "All of offline hosts [1] \n  - 127.0.0.1:11211 [offline]\n".toList ++
  "Number of client connection [0]\n".toList ++
  "Number of backend connection [0]\n".toList ++
  "Read timeout of backend connection [3000ms]\n".toList ++
  "Size of async queue [0]\n\n".toList

end Views

end Proxy

end KvProxy
