import KvProxy.Preference

/-!
# A pass of the health check

The workers count while the health thread goes through its maps.  They change none of
the tables, so a pass does to the hosts what it would do alone, on the counters that it
has copied: it takes every host offline whose counter has come to the threshold, tries
each host that is flagged then exactly once, in the order of the aliases, and brings
those back that answer.  It comes to its end after a number of steps that the size of
its maps bounds.  A pass that takes a host off a ring does so as in
`HostTable.failover`, with `delHost` as the exact removal.

* `takeOffline`, `bringBack` — what the two loops do, alone;
* `InPass.step` — where the thread is in a pass, step by step, from one lemma for each step;
* `offline_takeOffline`, `offline_bringBack` — the flags behind the loops;
* `health_pass` — every pass ends, and what it has done then.
-/

namespace KvProxy

open MachineInt

/-- What the first loop does with a copied counter. -/
def takeOfflineAt (cfg : HealthConfig) (t : HostTable) (e : Nat × Nat) : HostTable :=
  if int32 e.2 ≥ cfg.failoverThreshold then (t.failover e.1 true).2 else t

/-- What it does with all of them. -/
def takeOffline (cfg : HealthConfig) (counts : List (Nat × Nat)) (t : HostTable) : HostTable :=
  counts.foldl (takeOfflineAt cfg) t

/-- The hosts among some flags that the second loop tries. -/
def tried (cfg : HealthConfig) (flags : List (Nat × Bool)) : List Nat :=
  (flags.filter (fun e => ¬ cfg.Skips e.1 e.2)).map Prod.fst

/-- What the second loop does with the hosts that it tries, each with its answer. -/
def bringBack (answered : List (Nat × Bool)) (t : HostTable) : HostTable :=
  answered.foldl (fun t x => if x.2 then (t.failover x.1 false).2 else t) t

/-- The answers to the connection attempts. -/
def connects (acts : List HealthAct) : List Bool :=
  acts.filterMap (fun
    | .connect ok => some ok
    | _ => none)

/-- The steps of the health thread itself. -/
def ownSteps (acts : List HealthAct) : Nat :=
  acts.countP (fun
    | .count _ _ => false
    | _ => true)

/-- The tables behind the first loop of a pass that copies the counters in `s`. -/
def HealthState.taken (cfg : HealthConfig) (s : HealthState) : HostTable :=
  takeOffline cfg s.counters.stContFail.entries s.table

/-- The flags that it copies. -/
def HealthState.flags (cfg : HealthConfig) (s : HealthState) : List (Nat × Bool) :=
  (s.taken cfg).hostOffline.entries

/-- The part of the flags that the thread has been through, with the answers so far. -/
structure Checked (cfg : HealthConfig) (s : HealthState) (answers : List Bool)
    (done : List (Nat × Bool)) (t : HostTable) : Prop where
  answered : answers.length = (tried cfg done).length
  table : t = bringBack ((tried cfg done).zip answers) (s.taken cfg)

/-- Where the thread is in the pass that has copied the counters in `s`, after the steps
`acts`. -/
inductive InPass (cfg : HealthConfig) (s : HealthState) (acts : List HealthAct)
    (u : HealthState) : Prop
  | failing (done rest : List (Nat × Nat)) (hpc : u.pc = .failing rest)
      (hcounts : s.counters.stContFail.entries = done ++ rest)
      (htable : u.table = takeOffline cfg done s.table) (hnone : connects acts = [])
      (hsteps : ownSteps acts = done.length)
  | checking (done rest : List (Nat × Bool)) (hpc : u.pc = .checking rest)
      (hflags : s.flags cfg = done ++ rest)
      (hchecked : Checked cfg s (connects acts) done u.table)
      (hsteps : ownSteps acts ≤ s.counters.stContFail.entries.length + 1 + 3 * done.length)
  | connected (a : Nat) (answers : List Bool) (done rest : List (Nat × Bool))
      (hpc : u.pc = .connected a rest) (hflags : s.flags cfg = done ++ (a, true) :: rest)
      (htries : ¬ cfg.Skips a true) (hanswers : connects acts = answers ++ [true])
      (hchecked : Checked cfg s answers done u.table)
      (hsteps : ownSteps acts ≤ s.counters.stContFail.entries.length + 2 + 3 * done.length)
  | online (a : Nat) (done rest : List (Nat × Bool)) (hpc : u.pc = .online a rest)
      (hflags : s.flags cfg = done ++ (a, true) :: rest)
      (hchecked : Checked cfg s (connects acts) (done ++ [(a, true)]) u.table)
      (hsteps : ownSteps acts ≤ s.counters.stContFail.entries.length + 3 + 3 * done.length)

/-- The pass has come to its end. -/
structure PassDone (cfg : HealthConfig) (s : HealthState) (acts : List HealthAct)
    (u : HealthState) : Prop where
  sleeping : u.pc = .sleeping
  checked : Checked cfg s (connects acts) (s.flags cfg) u.table

/-! ## Step by step -/

section Steps

variable {cfg : HealthConfig} {s u u' : HealthState} {acts : List HealthAct} {act : HealthAct}

theorem connects_concat (acts : List HealthAct) (act : HealthAct) :
    connects (acts ++ [act]) = connects acts ++ connects [act] := List.filterMap_append

theorem ownSteps_concat (acts : List HealthAct) (act : HealthAct) :
    ownSteps (acts ++ [act]) = ownSteps acts + ownSteps [act] := List.countP_append

theorem takeOffline_concat (cfg : HealthConfig) (counts : List (Nat × Nat)) (e : Nat × Nat)
    (t : HostTable) :
    takeOffline cfg (counts ++ [e]) t = takeOfflineAt cfg (takeOffline cfg counts t) e := by
  rw [takeOffline, List.foldl_append, List.foldl_cons, List.foldl_nil, takeOffline]

theorem bringBack_append (answered more : List (Nat × Bool)) (t : HostTable) :
    bringBack (answered ++ more) t = bringBack more (bringBack answered t) := List.foldl_append

theorem tried_skip {done : List (Nat × Bool)} {e : Nat × Bool} (h : cfg.Skips e.1 e.2) :
    tried cfg (done ++ [e]) = tried cfg done := by
  rw [tried, List.filter_append, List.filter_cons_of_neg (by simpa using h), List.filter_nil,
    List.append_nil, tried]

theorem tried_try {done : List (Nat × Bool)} {e : Nat × Bool} (h : ¬ cfg.Skips e.1 e.2) :
    tried cfg (done ++ [e]) = tried cfg done ++ [e.1] := by
  rw [tried, List.filter_append, List.filter_cons_of_pos (by simpa using h), List.filter_nil,
    List.map_append, tried, List.map_singleton]

/-- An entry that is passed over. -/
theorem Checked.skip {answers : List Bool} {done : List (Nat × Bool)} {t : HostTable}
    (h : Checked cfg s answers done t) {e : Nat × Bool} (hskip : cfg.Skips e.1 e.2) :
    Checked cfg s answers (done ++ [e]) t := by
  refine ⟨?_, ?_⟩
  · rw [tried_skip hskip]
    exact h.answered
  · rw [tried_skip hskip]
    exact h.table

/-- A host that is tried, with its answer. -/
theorem Checked.try {answers : List Bool} {done : List (Nat × Bool)} {t : HostTable}
    (h : Checked cfg s answers done t) {e : Nat × Bool} (htries : ¬ cfg.Skips e.1 e.2)
    (ok : Bool) :
    Checked cfg s (answers ++ [ok]) (done ++ [e]) (if ok then (t.failover e.1 false).2 else t) := by
  refine ⟨?_, ?_⟩
  · rw [tried_try htries, List.length_append, List.length_append, h.answered]
    rfl
  · rw [tried_try htries, List.zip_append h.answered.symm, bringBack_append, ← h.table]
    rfl

/-! Where the thread is, told by its place in the loop. -/

section Places

variable (h : InPass cfg s acts u)

include h

theorem InPass.awake : u.pc ≠ .sleeping := by
  intro hsleep
  cases h with
  | failing _ _ hpc => cases hsleep.symm.trans hpc
  | checking _ _ hpc => cases hsleep.symm.trans hpc
  | connected _ _ _ _ hpc => cases hsleep.symm.trans hpc
  | online _ _ _ hpc => cases hsleep.symm.trans hpc

theorem InPass.of_failing {rest : List (Nat × Nat)} (hpc : u.pc = .failing rest) :
    ∃ done, s.counters.stContFail.entries = done ++ rest ∧
      u.table = takeOffline cfg done s.table ∧ connects acts = [] ∧
      ownSteps acts = done.length := by
  cases h with
  | failing done _ hhere hcounts htable hnone hsteps =>
      obtain rfl := HealthPc.failing.inj (hhere.symm.trans hpc)
      exact ⟨done, hcounts, htable, hnone, hsteps⟩
  | checking _ _ hhere => cases hhere.symm.trans hpc
  | connected _ _ _ _ hhere => cases hhere.symm.trans hpc
  | online _ _ _ hhere => cases hhere.symm.trans hpc

theorem InPass.of_checking {rest : List (Nat × Bool)} (hpc : u.pc = .checking rest) :
    ∃ done, s.flags cfg = done ++ rest ∧ Checked cfg s (connects acts) done u.table ∧
      ownSteps acts ≤ s.counters.stContFail.entries.length + 1 + 3 * done.length := by
  cases h with
  | checking done _ hhere hflags hchecked hsteps =>
      obtain rfl := HealthPc.checking.inj (hhere.symm.trans hpc)
      exact ⟨done, hflags, hchecked, hsteps⟩
  | failing _ _ hhere => cases hhere.symm.trans hpc
  | connected _ _ _ _ hhere => cases hhere.symm.trans hpc
  | online _ _ _ hhere => cases hhere.symm.trans hpc

theorem InPass.of_connected {a : Nat} {rest : List (Nat × Bool)} (hpc : u.pc = .connected a rest) :
    ∃ answers done, s.flags cfg = done ++ (a, true) :: rest ∧ ¬ cfg.Skips a true ∧
      connects acts = answers ++ [true] ∧ Checked cfg s answers done u.table ∧
      ownSteps acts ≤ s.counters.stContFail.entries.length + 2 + 3 * done.length := by
  cases h with
  | connected _ answers done _ hhere hflags htries hanswers hchecked hsteps =>
      obtain ⟨rfl, rfl⟩ := HealthPc.connected.inj (hhere.symm.trans hpc)
      exact ⟨answers, done, hflags, htries, hanswers, hchecked, hsteps⟩
  | failing _ _ hhere => cases hhere.symm.trans hpc
  | checking _ _ hhere => cases hhere.symm.trans hpc
  | online _ _ _ hhere => cases hhere.symm.trans hpc

theorem InPass.of_online {a : Nat} {rest : List (Nat × Bool)} (hpc : u.pc = .online a rest) :
    ∃ done, s.flags cfg = done ++ (a, true) :: rest ∧
      Checked cfg s (connects acts) (done ++ [(a, true)]) u.table ∧
      ownSteps acts ≤ s.counters.stContFail.entries.length + 3 + 3 * done.length := by
  cases h with
  | online _ done _ hhere hflags hchecked hsteps =>
      obtain ⟨rfl, rfl⟩ := HealthPc.online.inj (hhere.symm.trans hpc)
      exact ⟨done, hflags, hchecked, hsteps⟩
  | failing _ _ hhere => cases hhere.symm.trans hpc
  | checking _ _ hhere => cases hhere.symm.trans hpc
  | connected _ _ _ _ hhere => cases hhere.symm.trans hpc

end Places

/-! What each step makes of it. -/

section Moves

theorem connects_next : connects (acts ++ [.next]) = connects acts := by
  rw [connects_concat]
  exact List.append_nil _

theorem connects_connect (ok : Bool) : connects (acts ++ [.connect ok]) = connects acts ++ [ok] :=
  connects_concat acts (.connect ok)

theorem ownSteps_next : ownSteps (acts ++ [.next]) = ownSteps acts + 1 :=
  ownSteps_concat acts .next

theorem ownSteps_connect (ok : Bool) : ownSteps (acts ++ [.connect ok]) = ownSteps acts + 1 :=
  ownSteps_concat acts (.connect ok)

variable (h : InPass cfg s acts u)

include h

/-- The workers leave the tables and the thread alone. -/
theorem InPass.count (isFail : Bool) (b : Nat) :
    InPass cfg s (acts ++ [.count isFail b])
      { u with counters := u.counters.countFail stLimit isFail b } := by
  have hconnects : connects (acts ++ [.count isFail b]) = connects acts := by
    rw [connects_concat]
    exact List.append_nil _
  have hown : ownSteps (acts ++ [.count isFail b]) = ownSteps acts :=
    ownSteps_concat acts (.count isFail b)
  cases h with
  | failing done rest hpc hcounts htable hnone hsteps =>
      exact .failing done rest hpc hcounts htable (hconnects.trans hnone) (hown.trans hsteps)
  | checking done rest hpc hflags hchecked hsteps =>
      exact .checking done rest hpc hflags (by rwa [hconnects]) (by rwa [hown])
  | connected a answers done rest hpc hflags htries hanswers hchecked hsteps =>
      exact .connected a answers done rest hpc hflags htries (hconnects.trans hanswers) hchecked
        (by rwa [hown])
  | online a done rest hpc hflags hchecked hsteps =>
      exact .online a done rest hpc hflags (by rwa [hconnects]) (by rwa [hown])

/-- An entry of the first loop. -/
theorem InPass.take {e : Nat × Nat} {rest : List (Nat × Nat)} (hpc : u.pc = .failing (e :: rest)) :
    InPass cfg s (acts ++ [.next])
      { u with table := takeOfflineAt cfg u.table e, pc := .failing rest } := by
  obtain ⟨done, hcounts, htable, hnone, hsteps⟩ := h.of_failing hpc
  refine .failing (done ++ [e]) rest rfl (by rw [hcounts, List.append_cons]) ?_
    (connects_next.trans hnone) ?_
  · rw [takeOffline_concat, ← htable]
  · rw [ownSteps_next, hsteps, List.length_append, List.length_singleton]

/-- The first loop is at its end, and the flags are copied. -/
theorem InPass.copyFlags (hpc : u.pc = .failing []) :
    InPass cfg s (acts ++ [.next]) { u with pc := .checking u.table.hostOffline.entries } := by
  obtain ⟨done, hcounts, htable, hnone, hsteps⟩ := h.of_failing hpc
  rw [List.append_nil] at hcounts
  rw [← hcounts] at htable hsteps
  refine .checking [] _ rfl (by rw [htable]; rfl) ⟨?_, htable⟩ ?_
  · rw [connects_next, hnone]
    rfl
  · rw [ownSteps_next, List.length_nil]
    omega

/-- An entry of the second loop is passed over. -/
theorem InPass.skip {e : Nat × Bool} {rest : List (Nat × Bool)} (hpc : u.pc = .checking (e :: rest))
    (hskip : cfg.Skips e.1 e.2) : InPass cfg s (acts ++ [.next]) { u with pc := .checking rest } := by
  obtain ⟨done, hflags, hchecked, hsteps⟩ := h.of_checking hpc
  refine .checking (done ++ [e]) rest rfl (by rw [hflags, List.append_cons]) ?_ ?_
  · rw [connects_next]
    exact hchecked.skip hskip
  · rw [ownSteps_next, List.length_append, List.length_singleton]
    omega

section Tries

variable {a : Nat} {rest : List (Nat × Bool)}

/-- The host answers; it is still offline then. -/
theorem InPass.connect (hpc : u.pc = .checking ((a, true) :: rest)) (htries : ¬ cfg.Skips a true) :
    InPass cfg s (acts ++ [.connect true]) { u with pc := .connected a rest } := by
  obtain ⟨done, hflags, hchecked, hsteps⟩ := h.of_checking hpc
  refine .connected a (connects acts) done rest rfl hflags htries (connects_connect true) hchecked ?_
  rw [ownSteps_connect]
  omega

/-- The host does not answer. -/
theorem InPass.refused (hpc : u.pc = .checking ((a, true) :: rest)) (htries : ¬ cfg.Skips a true) :
    InPass cfg s (acts ++ [.connect false]) { u with pc := .checking rest } := by
  obtain ⟨done, hflags, hchecked, hsteps⟩ := h.of_checking hpc
  refine .checking (done ++ [(a, true)]) rest rfl (by rw [hflags, List.append_cons]) ?_ ?_
  · rw [connects_connect]
    exact hchecked.try htries false
  · rw [ownSteps_connect, List.length_append, List.length_singleton]
    omega

/-- The host that has answered is brought back. -/
theorem InPass.recover (hpc : u.pc = .connected a rest) :
    InPass cfg s (acts ++ [.next])
      { u with table := (u.table.failover a false).2, pc := .online a rest } := by
  obtain ⟨answers, done, hflags, htries, hanswers, hchecked, hsteps⟩ := h.of_connected hpc
  refine .online a done rest rfl hflags ?_ ?_
  · rw [connects_next, hanswers]
    exact hchecked.try htries true
  · rw [ownSteps_next]
    omega

/-- Its counter is reset. -/
theorem InPass.reset (hpc : u.pc = .online a rest) :
    InPass cfg s (acts ++ [.next])
      { u with counters := u.counters.countFail stLimit false a, pc := .checking rest } := by
  obtain ⟨done, hflags, hchecked, hsteps⟩ := h.of_online hpc
  refine .checking (done ++ [(a, true)]) rest rfl (by rw [hflags, List.append_cons]) ?_ ?_
  · rw [connects_next]
    exact hchecked
  · rw [ownSteps_next, List.length_append, List.length_singleton]
    omega

end Tries

/-- The second loop is at its end. -/
theorem InPass.sleep (hpc : u.pc = .checking []) :
    PassDone cfg s (acts ++ [.next]) { u with pc := .sleeping } := by
  obtain ⟨done, hflags, hchecked, _⟩ := h.of_checking hpc
  rw [List.append_nil] at hflags
  refine ⟨rfl, ?_⟩
  rw [connects_next, hflags]
  exact hchecked

/-- **One step** of the workers or the health thread in a pass. -/
theorem InPass.step (hstep : healthStep cfg u act = some u') :
    InPass cfg s (acts ++ [act]) u' ∨ PassDone cfg s (acts ++ [act]) u' := by
  cases HealthStep.of_healthStep hstep with
  | count isFail b => exact Or.inl (h.count isFail b)
  | copyCounters hpc => exact absurd hpc h.awake
  | failover hpc hfails =>
      have htake := h.take hpc
      rw [takeOfflineAt, if_pos hfails] at htake
      exact Or.inl htake
  | pass hpc hfew =>
      have htake := h.take hpc
      rw [takeOfflineAt, if_neg hfew] at htake
      exact Or.inl htake
  | copyFlags hpc => exact Or.inl (h.copyFlags hpc)
  | skip hpc hskip => exact Or.inl (h.skip hpc hskip)
  | connect hpc htries => exact Or.inl (h.connect hpc htries)
  | refused hpc htries => exact Or.inl (h.refused hpc htries)
  | recover hpc => exact Or.inl (h.recover hpc)
  | reset hpc => exact Or.inl (h.reset hpc)
  | sleep hpc => exact Or.inr (h.sleep hpc)

end Moves

/-- **A run from the copy on** is in the pass, or the pass has come to its end in it. -/
theorem inPass_or_done {copying : HealthState} (hsleep : s.pc = .sleeping)
    (hcopy : healthStep cfg s .next = some copying)
    (hrun : Steps.run (healthStep cfg) copying acts = some u) :
    InPass cfg s acts u ∨ ∃ before after done, acts = before ++ after ∧
      Steps.run (healthStep cfg) copying before = some done ∧ PassDone cfg s before done := by
  refine Steps.run_history (fun acts u => InPass cfg s acts u ∨ ∃ before after done,
    acts = before ++ after ∧ Steps.run (healthStep cfg) copying before = some done ∧
      PassDone cfg s before done) ?_ ?_ hrun
  · left
    have hnext : healthNext cfg s = some copying := hcopy
    rw [healthNext, hsleep] at hnext
    obtain rfl := Option.some.inj hnext
    exact .failing [] _ rfl rfl rfl rfl rfl
  · rintro acts t act t' ht (hin | ⟨before, after, done, rfl, hbefore, hdone⟩) hstep
    · rcases hin.step hstep with hstill | hdone
      · exact Or.inl hstill
      · refine Or.inr ⟨acts ++ [act], [], t', by simp, ?_, hdone⟩
        rw [Steps.run_append ht, Steps.run_cons hstep, Steps.run_nil]
    · exact Or.inr ⟨before, after ++ [act], done, by simp, hbefore, hdone⟩

/-- The steps that a pass may take. -/
def passBound (cfg : HealthConfig) (s : HealthState) : Nat :=
  s.counters.stContFail.entries.length + 1 + 3 * (s.flags cfg).length

theorem InPass.ownSteps_le (h : InPass cfg s acts u) : ownSteps acts ≤ passBound cfg s := by
  unfold passBound
  cases h with
  | failing done rest hpc hcounts htable hnone hsteps =>
      rw [hcounts, List.length_append]
      omega
  | checking done rest hpc hflags hchecked hsteps =>
      rw [hflags, List.length_append]
      omega
  | connected a answers done rest hpc hflags htries hanswers hchecked hsteps =>
      rw [hflags, List.length_append, List.length_cons]
      omega
  | online a done rest hpc hflags hchecked hsteps =>
      rw [hflags, List.length_append, List.length_cons]
      omega

end Steps

/-! ## The flags behind the loops -/

namespace HostTable

variable {t : HostTable} {a b : Nat}

/-- A `failover` leaves the names and the values of the hosts alone. -/
theorem failover_known (t : HostTable) (b : Nat) (isDel : Bool) :
    (t.failover b isDel).2.hostAlias = t.hostAlias ∧
      (t.failover b isDel).2.hostInfos = t.hostInfos := by
  rcases failover_cases t b isDel with hsame | ⟨_, hdel⟩ | ⟨hp, index, weight, _, _, _, _, hadd⟩
  · rw [hsame]
    exact ⟨rfl, rfl⟩
  · rw [hdel]
    exact ⟨rfl, rfl⟩
  · rw [hadd]
    exact ⟨rfl, rfl⟩

/-- A flag that is set behind the ring operations. -/
theorem offline_onRings (t : HostTable) (b : Nat) (op : ConsistentHash → ConsistentHash)
    (flag : Bool) :
    ({ (t.touchOffline b).onRings b op with
      hostOffline := (t.touchOffline b).hostOffline.insert b flag } : HostTable).offline =
      Function.update t.offline b flag := by
  rw [offline_insert]
  exact congrArg (fun f => Function.update f b flag) (touchOffline_offline t b)

/-- Taking a host offline works for every host that is known. -/
theorem offline_failover_true (t : HostTable) (b a : Nat) :
    (t.failover b true).2.offline a = true ↔
      t.offline a = true ∨ (a = b ∧ (t.hostAlias.lookup b).isSome) := by
  unfold failover
  simp only [if_true]
  cases hoff : t.offline b with
  | true =>
      simp only [if_true, touchOffline_offline]
      refine ⟨Or.inl, ?_⟩
      rintro (hon | ⟨rfl, _⟩)
      · exact hon
      · exact hoff
  | false =>
      cases hname : t.hostAlias.lookup b with
      | none => simp [touchOffline_offline]
      | some hp =>
          simp only [Bool.false_eq_true, if_false]
          change ({ (t.touchOffline b).onRings b (fun h => (h.delHost true b).2) with
            hostOffline := (t.touchOffline b).hostOffline.insert b true } : HostTable).offline a =
              true ↔ _
          rw [offline_onRings]
          by_cases ha : a = b
          · simp [ha]
          · simp [ha]

/-- Bringing a host back works for every host that is known with its values. -/
theorem offline_failover_false (t : HostTable) (b a : Nat)
    (hknown : (t.hostAlias.lookup b).isSome ∧ (t.hostInfos.lookup b).isSome) :
    (t.failover b false).2.offline a = true ↔ t.offline a = true ∧ a ≠ b := by
  obtain ⟨hp, hname⟩ := Option.isSome_iff_exists.mp hknown.1
  obtain ⟨info, hinfo⟩ := Option.isSome_iff_exists.mp hknown.2
  unfold failover
  simp only [Bool.false_eq_true, if_false]
  cases hoff : t.offline b with
  | false =>
      simp only [if_true, touchOffline_offline]
      refine ⟨fun hon => ⟨hon, ?_⟩, fun h => h.1⟩
      rintro rfl
      rw [hoff] at hon
      cases hon
  | true =>
      simp only [Bool.true_eq_false, if_false, hname, hinfo]
      change ({ (t.touchOffline b).onRings b
          (fun h => (h.addHost true (hostPort hp) b info.1 info.2).2) with
        hostOffline := (t.touchOffline b).hostOffline.insert b false } : HostTable).offline a =
          true ↔ _
      rw [offline_onRings]
      by_cases ha : a = b
      · simp [ha]
      · simp [ha]

end HostTable

section Flags

variable {cfg : HealthConfig} {t : HostTable} {a : Nat}

theorem takeOffline_known (cfg : HealthConfig) (counts : List (Nat × Nat)) (t : HostTable) :
    (takeOffline cfg counts t).hostAlias = t.hostAlias ∧
      (takeOffline cfg counts t).hostInfos = t.hostInfos := by
  induction counts using List.reverseRecOn with
  | nil => exact ⟨rfl, rfl⟩
  | append_singleton counts e ih =>
      rw [takeOffline_concat, takeOfflineAt]
      split_ifs
      · have hsame := (takeOffline cfg counts t).failover_known e.1 true
        exact ⟨hsame.1.trans ih.1, hsame.2.trans ih.2⟩
      · exact ih

/-- **The first loop** takes the known hosts offline whose counter is at the threshold. -/
theorem offline_takeOffline (counts : List (Nat × Nat)) :
    (takeOffline cfg counts t).offline a = true ↔
      t.offline a = true ∨ ((t.hostAlias.lookup a).isSome ∧
        ∃ n, (a, n) ∈ counts ∧ cfg.failoverThreshold ≤ int32 n) := by
  induction counts using List.reverseRecOn with
  | nil => simp [takeOffline]
  | append_singleton counts e ih =>
      have hmem : (∃ n, (a, n) ∈ counts ++ [e] ∧ cfg.failoverThreshold ≤ int32 n) ↔
          (∃ n, (a, n) ∈ counts ∧ cfg.failoverThreshold ≤ int32 n) ∨
            (a = e.1 ∧ cfg.failoverThreshold ≤ int32 e.2) := by
        constructor
        · rintro ⟨n, hn, hfails⟩
          rcases List.mem_append.mp hn with hn | hn
          · exact Or.inl ⟨n, hn, hfails⟩
          · obtain rfl := List.mem_singleton.mp hn
            exact Or.inr ⟨rfl, hfails⟩
        · rintro (⟨n, hn, hfails⟩ | ⟨rfl, hfails⟩)
          · exact ⟨n, List.mem_append_left _ hn, hfails⟩
          · exact ⟨e.2, List.mem_append_right _ List.mem_cons_self, hfails⟩
      rw [takeOffline_concat, takeOfflineAt, hmem]
      by_cases hfails : cfg.failoverThreshold ≤ int32 e.2
      · rw [if_pos hfails, HostTable.offline_failover_true, ih, (takeOffline_known cfg counts t).1]
        constructor
        · rintro ((hoff | ⟨hknown, hn⟩) | ⟨rfl, hknown⟩)
          · exact Or.inl hoff
          · exact Or.inr ⟨hknown, Or.inl hn⟩
          · exact Or.inr ⟨hknown, Or.inr ⟨rfl, hfails⟩⟩
        · rintro (hoff | ⟨hknown, hn | ⟨rfl, _⟩⟩)
          · exact Or.inl (Or.inl hoff)
          · exact Or.inl (Or.inr ⟨hknown, hn⟩)
          · exact Or.inr ⟨rfl, hknown⟩
      · rw [if_neg hfails, ih]
        simp only [hfails, and_false, or_false]

/-- **The second loop** brings the hosts back that answer. -/
theorem offline_bringBack (answers : Nat → Bool) (hosts : List Nat)
    (hknown : ∀ b ∈ hosts, (t.hostAlias.lookup b).isSome ∧ (t.hostInfos.lookup b).isSome) :
    (bringBack (hosts.zip (hosts.map answers)) t).offline a = true ↔
      t.offline a = true ∧ ¬ (a ∈ hosts ∧ answers a = true) := by
  induction hosts generalizing t with
  | nil => simp [bringBack]
  | cons b hosts ih =>
      obtain ⟨hb, hrest⟩ := List.forall_mem_cons.mp hknown
      rw [List.map_cons, List.zip_cons_cons, bringBack, List.foldl_cons, ← bringBack]
      dsimp only
      by_cases hok : answers b = true
      · have hsame := t.failover_known b false
        rw [if_pos hok, ih (by rw [hsame.1, hsame.2]; exact hrest),
          HostTable.offline_failover_false t b a hb, List.mem_cons]
        constructor
        · rintro ⟨⟨hoff, hne⟩, hnot⟩
          exact ⟨hoff, fun h => hnot ⟨h.1.resolve_left hne, h.2⟩⟩
        · rintro ⟨hoff, hnot⟩
          refine ⟨⟨hoff, ?_⟩, fun h => hnot ⟨Or.inr h.1, h.2⟩⟩
          rintro rfl
          exact hnot ⟨Or.inl rfl, hok⟩
      · rw [if_neg hok, ih hrest, List.mem_cons]
        refine and_congr_right fun _ => not_congr ?_
        constructor
        · exact fun h => ⟨Or.inr h.1, h.2⟩
        · rintro ⟨rfl | hmem, hans⟩
          · exact absurd hans hok
          · exact ⟨hmem, hans⟩

/-- Answers in a list, as a function of the hosts that gave them. -/
theorem exists_answers {hosts : List Nat} (hnodup : hosts.Nodup) {answered : List Bool}
    (hlen : answered.length = hosts.length) : ∃ answers : Nat → Bool, answered = hosts.map answers := by
  induction hosts generalizing answered with
  | nil => exact ⟨fun _ => false, List.eq_nil_of_length_eq_zero hlen⟩
  | cons b hosts ih =>
      obtain ⟨hb, hrest⟩ := List.nodup_cons.mp hnodup
      cases answered with
      | nil => cases hlen
      | cons ok answered =>
          obtain ⟨answers, rfl⟩ := ih hrest (Nat.succ.inj hlen)
          refine ⟨Function.update answers b ok, ?_⟩
          rw [List.map_cons, Function.update_self]
          congr 1
          refine List.map_congr_left fun c hc => ?_
          rw [Function.update_of_ne]
          rintro rfl
          exact hb hc

end Flags

/-! ## The whole pass -/

/-- The host is offline, or it is known and its counter is at the threshold. -/
def HealthState.Failing (cfg : HealthConfig) (s : HealthState) (a : Nat) : Prop :=
  s.table.offline a = true ∨
    ((s.table.hostAlias.lookup a).isSome ∧ cfg.failoverThreshold ≤ int32 (s.counters.contFails a))

instance (cfg : HealthConfig) (s : HealthState) (a : Nat) : Decidable (s.Failing cfg a) :=
  inferInstanceAs (Decidable (_ ∨ _))

/-- The known hosts that are failing, in the order of their aliases. -/
def HealthState.failingHosts (cfg : HealthConfig) (s : HealthState) : List Nat :=
  s.table.hostAlias.keys.filter (fun a => s.Failing cfg a)

namespace HealthState

variable {cfg : HealthConfig} {s : HealthState} {a : Nat}

/-- An entry of the counters, in terms of the counters. -/
theorem counted_iff (hthreshold : 0 < cfg.failoverThreshold) :
    (∃ n, (a, n) ∈ s.counters.stContFail.entries ∧ cfg.failoverThreshold ≤ int32 n) ↔
      cfg.failoverThreshold ≤ int32 (s.counters.contFails a) := by
  constructor
  · rintro ⟨n, hn, hfails⟩
    rwa [contFails_eq_of_mem hn]
  · intro hfails
    cases hlook : s.counters.stContFail.lookup a with
    | some n =>
        have hmem := SortedMap.lookup_eq_some_iff.mp hlook
        exact ⟨n, hmem, by rwa [contFails_eq_of_mem hmem] at hfails⟩
    | none =>
        -- a counter that is not there is zero
        have hzero : int32 ((0 : Nat) : Int) = 0 := int32_zero
        rw [FailCounters.contFails, SortedMap.getD, hlook, Option.getD_none, hzero] at hfails
        omega

theorem offline_taken (hthreshold : 0 < cfg.failoverThreshold) :
    (s.taken cfg).offline a = true ↔ s.Failing cfg a := by
  rw [taken, offline_takeOffline, counted_iff hthreshold]
  rfl

/-- **The hosts that are tried** are the failing ones. -/
theorem tried_flags (hthreshold : 0 < cfg.failoverThreshold)
    (halias : cfg.hostAlias = s.table.hostAlias) :
    tried cfg (s.flags cfg) = s.failingHosts cfg := by
  have htried : (tried cfg (s.flags cfg)).Pairwise (fun a b => a < b) :=
    List.pairwise_map.mpr ((s.taken cfg).hostOffline.sorted.filter _)
  have hfailing : (s.failingHosts cfg).Pairwise (fun a b => a < b) :=
    s.table.hostAlias.keys_sorted.filter _
  refine htried.eq_of_mem_iff hfailing fun a => ?_
  have hflag : (a, true) ∈ s.flags cfg ↔ s.Failing cfg a := by
    rw [← offline_taken hthreshold, flags, ← SortedMap.mem_def, ← SortedMap.lookup_eq_some_iff,
      HostTable.offline, SortedMap.getD]
    cases (s.taken cfg).hostOffline.lookup a with
    | none => simp
    | some flag => simp
  have hknown : a ∈ s.table.hostAlias.keys ↔ cfg.hostAlias.lookup a ≠ none := by
    rw [halias, SortedMap.mem_keys, Option.isSome_iff_ne_none]
  rw [tried, failingHosts, List.mem_filter, hknown, decide_eq_true_eq, ← hflag, List.mem_map]
  constructor
  · rintro ⟨e, he, rfl⟩
    obtain ⟨hmem, htries⟩ := List.mem_filter.mp he
    simp only [HealthConfig.Skips, not_or, decide_eq_true_eq] at htries
    obtain ⟨b, flag⟩ := e
    obtain rfl : flag = true := Bool.eq_true_of_not_eq_false htries.1
    exact ⟨htries.2, hmem⟩
  · rintro ⟨hknown, hmem⟩
    refine ⟨(a, true), List.mem_filter.mpr ⟨hmem, ?_⟩, rfl⟩
    simp [HealthConfig.Skips, hknown]

theorem mem_failingHosts : a ∈ s.failingHosts cfg ↔
    (s.table.hostAlias.lookup a).isSome ∧ s.Failing cfg a := by
  rw [failingHosts, List.mem_filter, decide_eq_true_eq, SortedMap.mem_keys]

end HealthState

namespace HostTable

/-- Every host that is known has its values. -/
def Valued (t : HostTable) : Prop :=
  ∀ a, (t.hostAlias.lookup a).isSome → (t.hostInfos.lookup a).isSome

/-- The aliases behind one more call. -/
theorem setHostAlias_known (t : HostTable) (host : Text) (port : Nat) :
    (t.setHostAlias host port).1.hostInfos = t.hostInfos ∧
      ∀ a, ((t.setHostAlias host port).1.hostAlias.lookup a).isSome →
        a = (t.setHostAlias host port).2 ∨ (t.hostAlias.lookup a).isSome := by
  unfold setHostAlias
  cases t.hostAlias.entries.find? (fun it => it.2 = (host, port)) with
  | some it => exact ⟨rfl, fun a ha => Or.inr ha⟩
  | none =>
      refine ⟨rfl, fun a ha => ?_⟩
      dsimp only at ha ⊢
      rw [SortedMap.lookup_insert] at ha
      split_ifs at ha with heq
      · exact Or.inl heq
      · exact Or.inr ha

theorem Valued.addEntries {t : HostTable} (h : t.Valued) (type : GroupType) (es : List HostEntry)
    (tmp : Hosts) : (es.foldl (HostTable.addEntry type) (t, tmp)).1.Valued := by
  induction es generalizing t tmp with
  | nil => exact h
  | cons e es ih =>
      rw [List.foldl_cons]
      refine ih ?_ _
      obtain ⟨hinfos, hknown⟩ := t.setHostAlias_known e.host e.port
      intro a ha
      change ((t.setHostAlias e.host e.port).1.hostAlias.lookup a).isSome = true at ha
      change (((t.setHostAlias e.host e.port).1.hostInfos.insert
        (t.setHostAlias e.host e.port).2 (e.index, e.weight)).lookup a).isSome = true
      rw [SortedMap.lookup_insert, hinfos]
      split_ifs with heq
      · rfl
      · exact h a ((hknown a ha).resolve_left heq)

theorem Valued.setHosts {t t' : HostTable} (h : t.Valued) {type : GroupType}
    {es : List HostEntry} {tmp : Hosts} (hset : t.setHosts type es = some (t', tmp)) :
    t'.Valued := by
  have hloop := h.addEntries type es ∅
  simp only [HostTable.setHosts] at hset
  split_ifs at hset with hempty hdefault
  · obtain ⟨rfl, _⟩ := Prod.mk.inj (Option.some.inj hset)
    exact hloop
  · obtain ⟨rfl, _⟩ := Prod.mk.inj (Option.some.inj hset)
    exact hloop

theorem start_valued {cfg : Config} {t : HostTable} {hosts : GroupHosts}
    (hstart : start cfg = some (t, hosts)) : t.Valued := by
  simp only [start, Option.bind_eq_bind, Option.bind_eq_some_iff, Option.some.injEq,
    Prod.mk.injEq, Prod.exists] at hstart
  obtain ⟨t₁, h₁, hs₁, t₂, h₂, hs₂, t₃, h₃, hs₃, rfl, _⟩ := hstart
  have hnew : new.Valued := fun a ha => by cases ha
  have hlast := ((hnew.setHosts hs₁).setHosts hs₂).setHosts hs₃
  exact hlast

end HostTable

/-- No step changes what is known of the hosts. -/
theorem healthRun_known {cfg : HealthConfig} {first s : HealthState} {acts : List HealthAct}
    (hrun : Steps.run (healthStep cfg) first acts = some s) :
    s.table.hostAlias = first.table.hostAlias ∧ s.table.hostInfos = first.table.hostInfos := by
  refine Steps.run_history (fun _ s => s.table.hostAlias = first.table.hostAlias ∧
    s.table.hostInfos = first.table.hostInfos) ⟨rfl, rfl⟩ ?_ hrun
  intro acts t act t' _ ih hstep
  rcases healthStep_table hstep with hsame | ⟨b, isDel, hfailover⟩
  · rw [hsame]
    exact ih
  · have hknown := t.table.failover_known b isDel
    rw [hfailover, hknown.1, hknown.2]
    exact ih

/-- What a pass from `s` on should have done when it ends in `u`: it has tried each known
host that is offline or at the threshold once, in the order of the aliases, and what is
offline then is what was offline or at the threshold and has not answered. -/
def PassMeets (cfg : HealthConfig) (s : HealthState) (acts : List HealthAct)
    (u : HealthState) : Prop :=
  ∃ answers : Nat → Bool, connects acts = (s.failingHosts cfg).map answers ∧
    ∀ a, u.table.offline a = true ↔
      s.Failing cfg a ∧ ¬ ((s.table.hostAlias.lookup a).isSome ∧ answers a = true)

theorem PassDone.meets {cfg : HealthConfig} {s u : HealthState} {acts : List HealthAct}
    (h : PassDone cfg s acts u) (hthreshold : 0 < cfg.failoverThreshold)
    (halias : cfg.hostAlias = s.table.hostAlias) (hvalued : s.table.Valued) :
    PassMeets cfg s acts u := by
  obtain ⟨hanswered, htable⟩ := h.checked
  rw [HealthState.tried_flags hthreshold halias] at hanswered htable
  have hnodup : (s.failingHosts cfg).Nodup :=
    (s.table.hostAlias.keys_sorted.filter _).imp (fun hlt => ne_of_lt hlt)
  obtain ⟨answers, hans⟩ := exists_answers hnodup hanswered
  refine ⟨answers, hans, fun a => ?_⟩
  have hknown := takeOffline_known cfg s.counters.stContFail.entries s.table
  rw [htable, hans, offline_bringBack, HealthState.offline_taken hthreshold]
  · refine and_congr_right fun hfailing => not_congr ?_
    rw [HealthState.mem_failingHosts]
    simp only [hfailing, and_true]
  · intro b hb
    have hname := (HealthState.mem_failingHosts.mp hb).1
    rw [HealthState.taken, hknown.1, hknown.2]
    exact ⟨hname, hvalued b hname⟩

/-- **A pass of the health check.**  The hosts are started, and the workers and the health
thread take any steps up to a state in which the thread copies the counters.  After a
bounded number of its own steps, with those of the workers in between, the pass has come
to its end, and it has done to every host what its counter and its answer say, with
`delHost` as the exact removal. -/
theorem health_pass {listed : HostTable.Config} {t : HostTable} {hosts : HostTable.GroupHosts}
    (hstart : HostTable.start listed = some (t, hosts)) {cfg : HealthConfig}
    (hthreshold : 0 < cfg.failoverThreshold) (halias : cfg.hostAlias = t.hostAlias)
    {first s copying s' : HealthState} (htable : first.table = t) {history acts : List HealthAct}
    (hhistory : Steps.run (healthStep cfg) first history = some s) (hsleep : s.pc = .sleeping)
    (hcopy : healthStep cfg s .next = some copying)
    (hrun : Steps.run (healthStep cfg) copying acts = some s')
    (hmany : passBound cfg s < ownSteps acts) :
    ∃ before after u, acts = before ++ after ∧
      Steps.run (healthStep cfg) copying before = some u ∧ u.pc = .sleeping ∧
      PassMeets cfg s before u := by
  rcases inPass_or_done hsleep hcopy hrun with hin | ⟨before, after, u, rfl, hbefore, hdone⟩
  · have hfew := hin.ownSteps_le
    omega
  · obtain ⟨hnames, hinfos⟩ := healthRun_known hhistory
    rw [htable] at hnames hinfos
    refine ⟨before, after, u, rfl, hbefore, hdone.sleeping, hdone.meets hthreshold ?_ ?_⟩
    · rw [halias, hnames]
    · intro a ha
      rw [hnames] at ha
      rw [hinfos]
      exact HostTable.start_valued hstart a ha

/-- The steps of a pass and the next copy, in which the other host fails meanwhile and the
first one answers. -/
def answeredPass : List HealthAct :=
  [.next, .count true 2, .next, .next, .connect true, .next, .next, .next, .next, .next, .next]

/-- The first host has failed, is taken offline, and answers. -/
theorem health_pass_answered : ∃ s copying s' before after u,
    Steps.run (healthStep twoHealth) ⟨twoStarted.1, .initVar [1, 2], .sleeping⟩
      [.count true 1] = some s ∧
    healthStep twoHealth s .next = some copying ∧
    Steps.run (healthStep twoHealth) copying answeredPass = some s' ∧
    answeredPass = before ++ after ∧ Steps.run (healthStep twoHealth) copying before = some u ∧
    u.pc = .sleeping ∧ PassMeets twoHealth s before u := by
  obtain ⟨s, hhistory⟩ := Option.isSome_iff_exists.mp (show
    (Steps.run (healthStep twoHealth) ⟨twoStarted.1, .initVar [1, 2], .sleeping⟩
      [.count true 1]).isSome = true by decide +kernel)
  obtain ⟨copying, hcopy⟩ := Option.isSome_iff_exists.mp (show
    (healthStep twoHealth s .next).isSome = true by
      obtain rfl := Option.some.inj hhistory
      rfl)
  have hwhole : (Steps.run (healthStep twoHealth) ⟨twoStarted.1, .initVar [1, 2], .sleeping⟩
      ([.count true 1] ++ .next :: answeredPass)).isSome = true := by
    decide +kernel
  rw [Steps.run_append hhistory, Steps.run_cons hcopy] at hwhole
  obtain ⟨s', hrun⟩ := Option.isSome_iff_exists.mp hwhole
  have hbound : passBound twoHealth s < ownSteps answeredPass := by
    obtain rfl := Option.some.inj hhistory
    decide +kernel
  have hsleep : s.pc = .sleeping := by
    obtain rfl := Option.some.inj hhistory
    rfl
  obtain ⟨before, after, u, hsplit, hbefore, hend, hmeets⟩ :=
    health_pass twoListed_start (by decide) rfl rfl hhistory hsleep hcopy hrun hbound
  exact ⟨s, copying, s', before, after, u, hhistory, hcopy, hrun, hsplit, hbefore, hend, hmeets⟩

end KvProxy
