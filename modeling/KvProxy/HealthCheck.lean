import KvProxy.Lib.Steps
import KvProxy.FailStreak
import KvProxy.Failover

/-!
# The health check

`checkHealthThread` runs beside the worker threads.  A pass of it copies
`st_cont_fail` and takes every host offline whose copied counter has come to
the threshold; then it copies the offline flags, tries to connect to every host
that is flagged, and brings those back that answer: the host is put into its
rings, and after that its counter is reset.  The workers count failures and
successes at any time in between.

A step of the health thread is one of those the workers can come between:
copying a map, treating one entry of the copy, a connection attempt, `failover`
and `countFail`.

* `takes_offline`, `brings_online` — the only steps that change a flag;
* `failing_history`, `connected_history`, `counted_history` — what a pass relies
  on when it comes to these steps;
* `failover_on_evidence` — a host goes offline on a snapshot at the threshold
  and on as many failures since it was last brought back, and online on a
  connection.
-/

namespace KvProxy

open MachineInt

/-- What the health thread is started with: `failover_threshold`, and its copy of
`host_alias`. -/
structure HealthConfig where
  failoverThreshold : Int
  hostAlias : SortedMap Nat (Text × Nat)

/-- Where the health thread is in its loop, with what is left of the maps it
goes through. -/
inductive HealthPc where
  | sleeping
  | failing (rest : List (Nat × Nat))
  | checking (rest : List (Nat × Bool))
  | connected (aliasIndex : Nat) (rest : List (Nat × Bool))
  | online (aliasIndex : Nat) (rest : List (Nat × Bool))

/-- The tables and counters, and the health thread. -/
structure HealthState where
  table : HostTable
  counters : FailCounters
  pc : HealthPc

/-- A worker counts, the health thread goes on, or it gets the result of a
connection attempt. -/
inductive HealthAct where
  | count (isFail : Bool) (aliasIndex : Nat)
  | next
  | connect (ok : Bool)
  deriving DecidableEq

/-- The entry of the offline flags is passed over: the host is online, or the
thread does not know it. -/
def HealthConfig.Skips (cfg : HealthConfig) (aliasIndex : Nat) (offline : Bool) : Prop :=
  offline = false ∨ cfg.hostAlias.lookup aliasIndex = none

instance (cfg : HealthConfig) (aliasIndex : Nat) (offline : Bool) :
    Decidable (cfg.Skips aliasIndex offline) := by
  unfold HealthConfig.Skips
  infer_instance

/-- What the health thread does next, unless that is to connect. -/
def healthNext (cfg : HealthConfig) (s : HealthState) : Option HealthState :=
  match s.pc with
  | .sleeping => some { s with pc := .failing s.counters.stContFail.entries }
  | .failing [] => some { s with pc := .checking s.table.hostOffline.entries }
  | .failing ((a, n) :: rest) =>
      if int32 n ≥ cfg.failoverThreshold then
        some { s with table := (s.table.failover a true).2, pc := .failing rest }
      else some { s with pc := .failing rest }
  | .checking [] => some { s with pc := .sleeping }
  | .checking ((a, offline) :: rest) =>
      if cfg.Skips a offline then some { s with pc := .checking rest } else none
  | .connected a rest =>
      some { s with table := (s.table.failover a false).2, pc := .online a rest }
  | .online a rest =>
      some { s with counters := s.counters.countFail stLimit false a, pc := .checking rest }

/-- `createConnection` in the second loop of the health thread, and what it
returns. -/
def healthConnect (cfg : HealthConfig) (s : HealthState) (ok : Bool) : Option HealthState :=
  match s.pc with
  | .checking ((a, offline) :: rest) =>
      if cfg.Skips a offline then none
      else some { s with pc := if ok then .connected a rest else .checking rest }
  | _ => none

/-- One step of the workers or of the health thread. -/
def healthStep (cfg : HealthConfig) (s : HealthState) : HealthAct → Option HealthState
  | .count isFail a => some { s with counters := s.counters.countFail stLimit isFail a }
  | .next => healthNext cfg s
  | .connect ok => healthConnect cfg s ok

/-- The calls of `countFail` that the workers have made. -/
def workerCalls (acts : List HealthAct) : List (Bool × Nat) :=
  acts.filterMap (fun
    | .count isFail a => some (isFail, a)
    | _ => none)

/-- A `failover` changes the flag of its own host only, to what it was called
for. -/
theorem HostTable.failover_offline (t : HostTable) (b : Nat) (isDel : Bool) (a : Nat) :
    (t.failover b isDel).2.offline a = t.offline a ∨
      (b = a ∧ (t.failover b isDel).2.offline a = isDel) := by
  have hflags : ∀ (op : ConsistentHash → ConsistentHash) (flag : Bool),
      ({ (t.touchOffline b).onRings b op with
        hostOffline := (t.touchOffline b).hostOffline.insert b flag } : HostTable).offline a =
        Function.update t.offline b flag a := by
    intro op flag
    rw [HostTable.offline_insert]
    exact congrFun (congrArg (fun f => Function.update f b flag)
      (HostTable.touchOffline_offline t b)) a
  rcases HostTable.failover_cases t b isDel with hsame | ⟨rfl, hdel⟩ | ⟨hp, index, weight, hadd⟩
  · left
    rw [hsame, HostTable.touchOffline_offline]
  · rw [hdel, hflags]
    by_cases hb : b = a
    · subst hb
      exact Or.inr ⟨rfl, Function.update_self _ _ _⟩
    · exact Or.inl (Function.update_of_ne (Ne.symm hb) _ _)
  · obtain ⟨rfl, _, _, _, hres⟩ := hadd
    rw [hres, hflags]
    by_cases hb : b = a
    · subst hb
      exact Or.inr ⟨rfl, Function.update_self _ _ _⟩
    · exact Or.inl (Function.update_of_ne (Ne.symm hb) _ _)

/-- The steps, with what each of them finds and does. -/
inductive HealthStep (cfg : HealthConfig) (s : HealthState) : HealthAct → HealthState → Prop
  | count (isFail : Bool) (b : Nat) :
      HealthStep cfg s (.count isFail b)
        { s with counters := s.counters.countFail stLimit isFail b }
  | copyCounters (hpc : s.pc = .sleeping) :
      HealthStep cfg s .next { s with pc := .failing s.counters.stContFail.entries }
  | failover {b n : Nat} {rest : List (Nat × Nat)} (hpc : s.pc = .failing ((b, n) :: rest))
      (hfails : cfg.failoverThreshold ≤ int32 n) :
      HealthStep cfg s .next { s with table := (s.table.failover b true).2, pc := .failing rest }
  | pass {b n : Nat} {rest : List (Nat × Nat)} (hpc : s.pc = .failing ((b, n) :: rest))
      (hfew : ¬ cfg.failoverThreshold ≤ int32 n) :
      HealthStep cfg s .next { s with pc := .failing rest }
  | copyFlags (hpc : s.pc = .failing []) :
      HealthStep cfg s .next { s with pc := .checking s.table.hostOffline.entries }
  | skip {b : Nat} {offline : Bool} {rest : List (Nat × Bool)}
      (hpc : s.pc = .checking ((b, offline) :: rest)) (hskip : cfg.Skips b offline) :
      HealthStep cfg s .next { s with pc := .checking rest }
  | connect {b : Nat} {rest : List (Nat × Bool)} (hpc : s.pc = .checking ((b, true) :: rest))
      (htries : ¬ cfg.Skips b true) :
      HealthStep cfg s (.connect true) { s with pc := .connected b rest }
  | refused {b : Nat} {rest : List (Nat × Bool)} (hpc : s.pc = .checking ((b, true) :: rest))
      (htries : ¬ cfg.Skips b true) :
      HealthStep cfg s (.connect false) { s with pc := .checking rest }
  | recover {b : Nat} {rest : List (Nat × Bool)} (hpc : s.pc = .connected b rest) :
      HealthStep cfg s .next
        { s with table := (s.table.failover b false).2, pc := .online b rest }
  | reset {b : Nat} {rest : List (Nat × Bool)} (hpc : s.pc = .online b rest) :
      HealthStep cfg s .next
        { s with counters := s.counters.countFail stLimit false b, pc := .checking rest }
  | sleep (hpc : s.pc = .checking []) : HealthStep cfg s .next { s with pc := .sleeping }

section Step

variable {cfg : HealthConfig} {s s' : HealthState} {act : HealthAct} {a : Nat}

theorem HealthStep.of_healthConnect {ok : Bool} (h : healthConnect cfg s ok = some s') :
    HealthStep cfg s (.connect ok) s' := by
  unfold healthConnect at h
  split at h
  next b offline rest hpc =>
    split_ifs at h with hskip hok
    all_goals
      obtain rfl := Option.some.inj h
      obtain rfl : offline = true := Bool.eq_true_of_not_eq_false (fun hon => hskip (Or.inl hon))
    · subst hok
      exact .connect hpc hskip
    · obtain rfl := Bool.eq_false_of_not_eq_true hok
      exact .refused hpc hskip
  · cases h

theorem HealthStep.of_healthNext (h : healthNext cfg s = some s') : HealthStep cfg s .next s' := by
  unfold healthNext at h
  split at h
  next hpc =>
    obtain rfl := Option.some.inj h
    exact .copyCounters hpc
  next hpc =>
    obtain rfl := Option.some.inj h
    exact .copyFlags hpc
  next b n rest hpc =>
    split_ifs at h with hfails
    · obtain rfl := Option.some.inj h
      exact .failover hpc hfails
    · obtain rfl := Option.some.inj h
      exact .pass hpc hfails
  next hpc =>
    obtain rfl := Option.some.inj h
    exact .sleep hpc
  next b offline rest hpc =>
    split_ifs at h with hskip
    obtain rfl := Option.some.inj h
    exact .skip hpc hskip
  next b rest hpc =>
    obtain rfl := Option.some.inj h
    exact .recover hpc
  next b rest hpc =>
    obtain rfl := Option.some.inj h
    exact .reset hpc

/-- **Everything that a step can do.** -/
theorem HealthStep.of_healthStep (h : healthStep cfg s act = some s') :
    HealthStep cfg s act s' := by
  cases act with
  | count isFail b =>
      obtain rfl := Option.some.inj h
      exact .count isFail b
  | connect ok => exact .of_healthConnect h
  | next => exact .of_healthNext h

/-! ## The steps that change a flag -/

/-- A host goes offline when its entry of the copied counters is at the
threshold. -/
theorem takes_offline (h : healthStep cfg s act = some s') (hon : s.table.offline a = false)
    (hoff : s'.table.offline a = true) :
    ∃ n rest, s.pc = .failing ((a, n) :: rest) ∧ cfg.failoverThreshold ≤ int32 n := by
  cases HealthStep.of_healthStep h with
  | @failover b n rest hpc hfails =>
      rcases HostTable.failover_offline s.table b true a with hsame | ⟨rfl, _⟩
      · grind
      · exact ⟨n, rest, hpc, hfails⟩
  | @recover b rest hpc =>
      rcases HostTable.failover_offline s.table b false a with hsame | ⟨rfl, hflag⟩ <;> grind
  | _ => grind

/-- It comes back when there is a connection. -/
theorem brings_online (h : healthStep cfg s act = some s') (hoff : s.table.offline a = true)
    (hon : s'.table.offline a = false) : ∃ rest, s.pc = .connected a rest := by
  cases HealthStep.of_healthStep h with
  | @failover b n rest hpc hfails =>
      rcases HostTable.failover_offline s.table b true a with hsame | ⟨rfl, hflag⟩ <;> grind
  | @recover b rest hpc =>
      rcases HostTable.failover_offline s.table b false a with hsame | ⟨rfl, _⟩
      · grind
      · exact ⟨rest, hpc⟩
  | _ => grind

/-! ## What a pass relies on -/

/-- The thread goes through copied counters: it has just copied them, or it has
already been at it. -/
theorem healthStep_failing {rest : List (Nat × Nat)} (h : healthStep cfg s act = some s')
    (hpc : s'.pc = .failing rest) :
    (act = .next ∧ s.pc = .sleeping ∧ rest = s.counters.stContFail.entries) ∨
      ∃ more, s.pc = .failing more ∧ rest ⊆ more := by
  cases HealthStep.of_healthStep h with
  | count isFail b => exact Or.inr ⟨rest, hpc, List.Subset.refl rest⟩
  | copyCounters hsleep => exact Or.inl ⟨rfl, hsleep, (HealthPc.failing.inj hpc).symm⟩
  | failover hmore _ =>
      obtain rfl := HealthPc.failing.inj hpc
      exact Or.inr ⟨_, hmore, List.subset_cons_self _ _⟩
  | pass hmore =>
      obtain rfl := HealthPc.failing.inj hpc
      exact Or.inr ⟨_, hmore, List.subset_cons_self _ _⟩
  | _ => cases hpc

/-- The thread has a connection: it has just got it, or it has had it. -/
theorem healthStep_connected {rest : List (Nat × Bool)} (h : healthStep cfg s act = some s')
    (hpc : s'.pc = .connected a rest) :
    (act = .connect true ∧ s.pc = .checking ((a, true) :: rest)) ∨
      ((∃ isFail b, act = .count isFail b) ∧ s.pc = .connected a rest) := by
  cases HealthStep.of_healthStep h with
  | count isFail b => exact Or.inr ⟨⟨isFail, b, rfl⟩, hpc⟩
  | connect hchecking =>
      obtain ⟨rfl, rfl⟩ := HealthPc.connected.inj hpc
      exact Or.inl ⟨rfl, hchecking⟩
  | _ => cases hpc

/-- A continuous failure is counted by a worker that failed. -/
theorem healthStep_contFails (h : healthStep cfg s act = some s') :
    s'.counters.contFails a ≤ s.counters.contFails a + failures a (workerCalls [act]) := by
  cases HealthStep.of_healthStep h with
  | count isFail b =>
      have hcalls : failures a (workerCalls [.count isFail b]) =
          if (isFail, b) = (true, a) then 1 else 0 :=
        (failures_concat a [] (isFail, b)).trans (Nat.zero_add _)
      rw [FailCounters.contFails_countFail, hcalls]
      split_ifs <;> grind
  | reset =>
      rw [FailCounters.contFails_countFail]
      split_ifs <;> grind
  | _ => exact Nat.le_add_right _ _

end Step

/-! ## The runs -/

section Run

variable {cfg : HealthConfig} {start s : HealthState} {acts : List HealthAct} {a : Nat}

theorem workerCalls_append (acts more : List HealthAct) :
    workerCalls (acts ++ more) = workerCalls acts ++ workerCalls more :=
  List.filterMap_append

/-- Only workers act. -/
def OnlyCounts (acts : List HealthAct) : Prop := ∀ act ∈ acts, ∃ isFail b, act = .count isFail b

theorem OnlyCounts.concat {act : HealthAct} (h : OnlyCounts acts)
    (hact : ∃ isFail b, act = .count isFail b) : OnlyCounts (acts ++ [act]) := by
  intro x hx
  rcases List.mem_append.mp hx with hx | hx
  · exact h x hx
  · rwa [List.mem_singleton.mp hx]

/-- In `copied` the thread began the pass that it is still in, and copied the
counters. -/
def PassFrom (cfg : HealthConfig) (start copied : HealthState) (acts : List HealthAct)
    (s : HealthState) : Prop :=
  ∃ before within copying, acts = before ++ .next :: within ∧
    Steps.run (healthStep cfg) start before = some copied ∧ copied.pc = .sleeping ∧
    healthStep cfg copied .next = some copying ∧
    Steps.EveryStep (healthStep cfg) (fun t _ => t.pc ≠ .sleeping) copying within ∧
    Steps.run (healthStep cfg) copying within = some s

theorem PassFrom.step {copied s' : HealthState} {act : HealthAct}
    (h : PassFrom cfg start copied acts s) (hawake : s.pc ≠ .sleeping)
    (hstep : healthStep cfg s act = some s') : PassFrom cfg start copied (acts ++ [act]) s' := by
  obtain ⟨before, within, copying, rfl, hbefore, hsleep, hcopy, hpass, hwithin⟩ := h
  refine ⟨before, within ++ [act], copying, by simp, hbefore, hsleep, hcopy,
    hpass.concat hwithin hawake, ?_⟩
  rw [Steps.run_append hwithin, Steps.run_cons hstep, Steps.run_nil]

/-- The entries the thread goes through were copied when the pass began. -/
theorem failing_history (hstart : start.pc = .sleeping)
    (hrun : Steps.run (healthStep cfg) start acts = some s) :
    ∀ rest, s.pc = .failing rest → ∃ copied, PassFrom cfg start copied acts s ∧
      rest ⊆ copied.counters.stContFail.entries := by
  refine Steps.run_history (fun acts s => ∀ rest, s.pc = .failing rest →
    ∃ copied, PassFrom cfg start copied acts s ∧ rest ⊆ copied.counters.stContFail.entries)
    ?_ ?_ hrun
  · intro rest hpc
    rw [hstart] at hpc
    cases hpc
  · intro acts t act t' ht ih hstep rest hpc
    rcases healthStep_failing hstep hpc with ⟨rfl, hsleep, rfl⟩ | ⟨more, hmore, hsub⟩
    · exact ⟨t, ⟨acts, [], t', rfl, ht, hsleep, hstep, trivial, rfl⟩, List.Subset.refl _⟩
    · obtain ⟨copied, hpass, hcopied⟩ := ih more hmore
      exact ⟨copied, hpass.step (by simp [hmore]) hstep, List.Subset.trans hsub hcopied⟩

/-- The last thing the thread did was to connect to the host, which it had found
offline in the same pass. -/
def JustConnected (cfg : HealthConfig) (start : HealthState) (acts : List HealthAct)
    (a : Nat) : Prop :=
  ∃ before within trying rest, acts = before ++ .connect true :: within ∧ OnlyCounts within ∧
    Steps.run (healthStep cfg) start before = some trying ∧
    trying.pc = .checking ((a, true) :: rest)

theorem connected_history (hstart : start.pc = .sleeping)
    (hrun : Steps.run (healthStep cfg) start acts = some s) :
    ∀ rest, s.pc = .connected a rest → JustConnected cfg start acts a := by
  refine Steps.run_history (fun acts s => ∀ rest, s.pc = .connected a rest →
    JustConnected cfg start acts a) ?_ ?_ hrun
  · intro rest hpc
    rw [hstart] at hpc
    cases hpc
  · intro acts t act t' ht ih hstep rest hpc
    rcases healthStep_connected hstep hpc with ⟨rfl, hchecking⟩ | ⟨hcount, hconnected⟩
    · exact ⟨acts, [], t, rest, rfl, fun _ h => absurd h List.not_mem_nil, ht, hchecking⟩
    · obtain ⟨before, within, trying, more, rfl, honly, hbefore, hchecking⟩ := ih rest hconnected
      exact ⟨before, within ++ [act], trying, more, by simp, honly.concat hcount, hbefore,
        hchecking⟩

/-- The continuous failures of a host, counted and copied, are at most the
failures since its counter was reset. -/
structure CountedSince (a : Nat) (since : List HealthAct) (s : HealthState) : Prop where
  counted : s.counters.contFails a ≤ failures a (workerCalls since)
  copied : ∀ rest n, s.pc = .failing rest → (a, n) ∈ rest → n ≤ failures a (workerCalls since)

theorem contFails_eq_of_mem {c : FailCounters} {n : Nat} (h : (a, n) ∈ c.stContFail.entries) :
    c.contFails a = n := by
  rw [FailCounters.contFails, SortedMap.getD, SortedMap.lookup_eq_some_iff.mpr h]
  rfl

theorem CountedSince.step {since : List HealthAct} {act : HealthAct} {s' : HealthState}
    (h : CountedSince a since s) (hstep : healthStep cfg s act = some s') :
    CountedSince a (since ++ [act]) s' := by
  have hmore : failures a (workerCalls (since ++ [act])) =
      failures a (workerCalls since) + failures a (workerCalls [act]) := by
    rw [workerCalls_append, failures_append]
  refine ⟨?_, fun rest n hpc hmem => ?_⟩
  · have hcont := healthStep_contFails (a := a) hstep
    have hcounted := h.counted
    omega
  · rcases healthStep_failing hstep hpc with ⟨_, _, rfl⟩ | ⟨more, hfailing, hsub⟩
    · have hn := contFails_eq_of_mem hmem
      have hcounted := h.counted
      omega
    · have hcopied := h.copied more n hfailing (hsub hmem)
      omega

/-- After a host was brought online, its counter is reset before anything else
the thread does, and bounded from then on. -/
theorem counted_history {rest : List (Nat × Bool)} (hstart : start.pc = .online a rest)
    (hrun : Steps.run (healthStep cfg) start acts = some s) :
    (s.pc = .online a rest ∧ OnlyCounts acts) ∨
      ∃ within since, acts = within ++ .next :: since ∧ OnlyCounts within ∧
        CountedSince a since s := by
  refine Steps.run_history (fun acts s => (s.pc = .online a rest ∧ OnlyCounts acts) ∨
    ∃ within since, acts = within ++ .next :: since ∧ OnlyCounts within ∧
      CountedSince a since s) ?_ ?_ hrun
  · exact Or.inl ⟨hstart, fun _ h => absurd h List.not_mem_nil⟩
  · rintro acts t act t' - (⟨honline, honly⟩ | ⟨within, since, rfl, honly, hsince⟩) hstep
    · cases HealthStep.of_healthStep hstep with
      | count isFail b => exact Or.inl ⟨honline, honly.concat ⟨isFail, b, rfl⟩⟩
      | @reset b more hpc =>
          obtain ⟨rfl, rfl⟩ := HealthPc.online.inj (honline.symm.trans hpc)
          refine Or.inr ⟨acts, [], rfl, honly, ?_, fun _ _ hfailing => by cases hfailing⟩
          rw [FailCounters.contFails_countFail, if_pos rfl]
          exact Nat.zero_le _
      | _ => simp_all
    · exact Or.inr ⟨within, since ++ [act], by simp, honly, hsince.step hstep⟩

/-- Each time a host was brought online, its counter was reset next, and from
then on it has failed as often as the threshold says. -/
def FailedSinceOnline (cfg : HealthConfig) (start : HealthState) (acts : List HealthAct)
    (a : Nat) : Prop :=
  ∀ before after t rest, acts = before ++ .next :: after →
    Steps.run (healthStep cfg) start before = some t → t.pc = .connected a rest →
    ∃ within since, after = within ++ .next :: since ∧ OnlyCounts within ∧
      cfg.failoverThreshold ≤ failures a (workerCalls since)

theorem failedSinceOnline (hrun : Steps.run (healthStep cfg) start acts = some s)
    {n : Nat} {rest : List (Nat × Nat)} (hpc : s.pc = .failing ((a, n) :: rest))
    (hfails : cfg.failoverThreshold ≤ int32 n) : FailedSinceOnline cfg start acts a := by
  rintro before after t more rfl hbefore hconnected
  rw [Steps.run_append hbefore] at hrun
  obtain ⟨online, honline, hafter⟩ := Option.bind_eq_some_iff.mp hrun
  have hreset : online.pc = .online a more := by
    cases HealthStep.of_healthStep honline with
    | recover hpc' =>
        obtain ⟨rfl, rfl⟩ := HealthPc.connected.inj (hconnected.symm.trans hpc')
        rfl
    | _ => simp_all
  rcases counted_history hreset hafter with ⟨hstill, _⟩ | ⟨within, since, rfl, honly, hsince⟩
  · rw [hpc] at hstill
    cases hstill
  · refine ⟨within, since, rfl, honly, ?_⟩
    have hcopied := hsince.copied _ n hpc List.mem_cons_self
    have hint : int32 n ≤ n := by
      unfold int32
      omega
    omega

/-- **Failover needs evidence.**  In every run of the workers and the health
thread, a step takes a host offline only when the counters copied in the same
pass show it at the threshold, and, wherever it was brought back, only after
that many failures from the reset of its counter on; and a step brings it back
only on a connection made in the same pass. -/
theorem failover_on_evidence (cfg : HealthConfig) {start s s' : HealthState}
    {acts : List HealthAct} {act : HealthAct} (hstart : start.pc = .sleeping)
    (hrun : Steps.run (healthStep cfg) start acts = some s)
    (hstep : healthStep cfg s act = some s') (a : Nat) :
    (s.table.offline a = false → s'.table.offline a = true →
      (∃ copied, PassFrom cfg start copied acts s ∧
        cfg.failoverThreshold ≤ int32 (copied.counters.contFails a)) ∧
      FailedSinceOnline cfg start acts a) ∧
    (s.table.offline a = true → s'.table.offline a = false →
      JustConnected cfg start acts a) := by
  constructor
  · intro hon hoff
    obtain ⟨n, rest, hpc, hfails⟩ := takes_offline hstep hon hoff
    obtain ⟨copied, hpass, hsub⟩ := failing_history hstart hrun _ hpc
    refine ⟨⟨copied, hpass, ?_⟩, failedSinceOnline hrun hpc hfails⟩
    rwa [contFails_eq_of_mem (hsub List.mem_cons_self)]
  · intro hoff hon
    obtain ⟨rest, hpc⟩ := brings_online hstep hoff hon
    exact connected_history hstart hrun rest hpc

end Run

/-- One host, known to the health thread, and a threshold of one failure. -/
def oneHost : HealthConfig where
  failoverThreshold := 1
  hostAlias := (∅ : SortedMap Nat (Text × Nat)).insert 1 (['h'], 80)

/-- The process with this host, before its first request. -/
def oneHostStart : HealthState where
  table := { HostTable.new with
    hostAlias := oneHost.hostAlias
    hostInfos := (∅ : SortedMap Nat (Nat × Nat)).insert 1 (1, 1) }
  counters := .initVar [1]
  pc := .sleeping

/-- The host fails, is taken offline and brought back, and fails again: the next
step of the thread takes it offline. -/
def oneHostRun : List HealthAct :=
  [.count true 1, .next, .next, .next, .connect true, .next, .next, .next, .count true 1, .next]

/-- The host goes offline for the second time, on the failure after its return. -/
theorem second_failover_on_evidence :
    ∃ s s', Steps.run (healthStep oneHost) oneHostStart oneHostRun = some s ∧
      healthStep oneHost s .next = some s' ∧ s.table.offline 1 = false ∧
      s'.table.offline 1 = true ∧
      (∃ copied, PassFrom oneHost oneHostStart copied oneHostRun s ∧
        oneHost.failoverThreshold ≤ int32 (copied.counters.contFails 1)) ∧
      FailedSinceOnline oneHost oneHostStart oneHostRun 1 := by
  obtain ⟨s, hrun⟩ := Option.isSome_iff_exists.mp (show
    (Steps.run (healthStep oneHost) oneHostStart oneHostRun).isSome = true by decide +kernel)
  have hon : ((Steps.run (healthStep oneHost) oneHostStart oneHostRun).map
      (fun s => s.table.offline 1)) = some false := by decide +kernel
  have hnext : ((Steps.run (healthStep oneHost) oneHostStart oneHostRun).bind
      (fun s => (healthStep oneHost s .next).map (fun s' => s'.table.offline 1))) =
        some true := by decide +kernel
  rw [hrun] at hon hnext
  obtain ⟨s', hstep, hoff⟩ := Option.map_eq_some_iff.mp hnext
  have hflag := Option.some.inj hon
  have hevidence := (failover_on_evidence oneHost rfl hrun hstep 1).1 hflag hoff
  exact ⟨s, s', hrun, hstep, hflag, hoff, hevidence⟩

end KvProxy
