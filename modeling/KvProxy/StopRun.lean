import KvProxy.Dispatch

/-!
# Stopping the server

`stopRun` writes `EXIT_CODE` behind what is in the pipe of each thread, while the
listener may go on for as long as the time given to it.  A thread that reads the code
leaves its event loop.

* `PipeMove` — what a step can do to a pipe and to what its thread has taken;
* `stop_drains` — what is served and what is not when the threads have stopped.
-/

namespace KvProxy.Server

open RoundRobin

/-- What is left of a thread's part when `stopRun` has been called and the sockets in
`part` were accepted before it: the thread has the exit code in front of everything
later, or is behind its loop and has taken all of the part. -/
def Draining (part : List Int) (t : EventThread) : Prop :=
  (∃ fds post, t.pipe = fds ++ exitCode :: post ∧ t.taken ++ fds = part ∧ exitCode ∉ fds ∧
    (t.pc = .stopped → t.lost ≠ [])) ∨
  (t.pc = .stopped ∧ t.taken = part)

/-- Before `stopRun` there is no exit code, and no thread stops unless it has given up a
socket. -/
def Unstopped (t : EventThread) : Prop :=
  exitCode ∉ t.pipe ∧ (t.pc = .stopped → t.lost ≠ [])

/-- What a step can do to the pipe of a thread and to what the thread has taken.  Only
`stopRun` writes the exit code. -/
inductive PipeMove (stopping : Prop) (t t' : EventThread) : Prop
  | gets (xs : List Int) (hcode : exitCode ∈ xs → stopping) (hpipe : t'.pipe = t.pipe ++ xs)
      (hsame : t'.taken = t.taken ∧ t'.lost = t.lost) (hpc : t'.pc = t.pc)
  | exits (hpipe : t.pipe = exitCode :: t'.pipe) (hpc : t'.pc = .stopped)
      (hsame : t'.taken = t.taken)
  | takes (confd : Int) (hpipe : t.pipe = confd :: t'.pipe) (hfd : confd ≠ exitCode)
      (htaken : t'.taken = t.taken ++ [confd]) (hpc : t.pc = .waiting)
      (hlost : t'.pc = .stopped → t'.lost ≠ [])
  | goesOn (hpipe : t'.pipe = t.pipe) (hsame : t'.taken = t.taken ∧ t'.lost = t.lost)
      (hpc : t'.pc ≠ .stopped ∧ t.pc ≠ .stopped)

theorem PipeMove.rfl' {stopping : Prop} (t : EventThread) : PipeMove stopping t t :=
  .gets [] (by simp) (by simp) ⟨rfl, rfl⟩ rfl

/-- A step of one thread. -/
theorem pipeMove_set {stopping : Prop} {s s' : Server} {v : Nat} {t : EventThread}
    (hset : s'.thread = Function.update s.thread v t) (h : PipeMove stopping (s.thread v) t)
    (w : Nat) : PipeMove stopping (s.thread w) (s'.thread w) := by
  rw [hset]
  by_cases hwv : w = v
  · subst hwv
    rwa [Function.update_self]
  · rw [Function.update_of_ne hwv]
    exact PipeMove.rfl' _

theorem pipeMove_of_process {s s' : Server} {v c : Nat} {made : Bool}
    (h : s.threadProcess v c made = some s') {stopping : Prop} (w : Nat) :
    PipeMove stopping (s.thread w) (s'.thread w) := by
  unfold threadProcess at h
  split at h
  · rename_i confd rest hpc hpipe
    dsimp only at h
    split_ifs at h with hexit hmade
    · obtain rfl := Option.some.inj h
      subst hexit
      refine pipeMove_set rfl ?_ w
      exact .exits hpipe rfl rfl
    · obtain rfl := Option.some.inj h
      refine pipeMove_set rfl ?_ w
      exact .takes confd hpipe hexit rfl hpc (by simp)
    · obtain ⟨conn, _, hset⟩ := Option.bind_eq_some_iff.mp h
      obtain rfl := Option.some.inj hset
      refine pipeMove_set rfl ?_ w
      exact .takes confd hpipe hexit rfl hpc (by simp)
  · cases h

theorem pipeMove_of_store {s s' : Server} {v : Nat} (h : s.store v = some s') {stopping : Prop}
    (w : Nat) : PipeMove stopping (s.thread w) (s'.thread w) := by
  unfold store at h
  dsimp only at h
  split at h
  · rename_i r hpc
    obtain rfl := Option.some.inj h
    refine pipeMove_set rfl ?_ w
    exact .goesOn rfl ⟨rfl, rfl⟩ ⟨by simp, by simp [hpc]⟩
  · rename_i bev r hpc
    obtain ⟨queue, _, hset⟩ := Option.bind_eq_some_iff.mp h
    obtain rfl := Option.some.inj hset
    refine pipeMove_set rfl ?_ w
    exact .goesOn rfl ⟨rfl, rfl⟩ ⟨by simp, by simp [hpc]⟩
  · rename_i hpc
    obtain rfl := Option.some.inj h
    refine pipeMove_set rfl ?_ w
    exact .goesOn rfl ⟨rfl, rfl⟩ ⟨by simp, by simp [hpc]⟩
  · cases h

theorem pipeMove_of_step {n : Nat} {s s' : Server} {a : ServerAct} (h : step n s a = some s')
    (w : Nat) : PipeMove (a = .stop) (s.thread w) (s'.thread w) := by
  cases a with
  | accept fd =>
      simp only [step] at h
      split_ifs at h with hfd
      obtain rfl := Option.some.inj h
      have hcode : exitCode ∉ [fd] := by
        unfold exitCode
        simp only [List.mem_singleton]
        omega
      refine pipeMove_set rfl ?_ w
      exact .gets [fd] (fun hmem => absurd hmem hcode) rfl ⟨rfl, rfl⟩ rfl
  | process v c made =>
      simp only [step] at h
      split_ifs at h with hv
      exact pipeMove_of_process h w
  | close v bev =>
      simp only [step, closeEventCb] at h
      split_ifs at h with hv hbev
      obtain rfl := Option.some.inj h
      refine pipeMove_set rfl ?_ w
      exact .goesOn rfl ⟨rfl, rfl⟩ ⟨by simp, by simp [hbev.1]⟩
  | status v =>
      simp only [step, getStatus] at h
      split_ifs at h with hv hpc hneg
      · obtain rfl := Option.some.inj h
        refine pipeMove_set rfl ?_ w
        exact .goesOn rfl ⟨rfl, rfl⟩ ⟨by simp, by simp [hpc]⟩
      · obtain rfl := Option.some.inj h
        exact PipeMove.rfl' _
  | store v =>
      simp only [step] at h
      split_ifs at h with hv
      exact pipeMove_of_store h w
  | stop =>
      obtain rfl := Option.some.inj h
      simp only [stopRun]
      split_ifs
      · exact .gets [exitCode] (fun _ => trivial) rfl ⟨rfl, rfl⟩ rfl
      · exact PipeMove.rfl' _

theorem Draining.taken_isKept {part : List Int} {t : EventThread} (h : Draining part t) :
    t.taken <+: part ∧ (t.pc = .stopped → t.lost = [] → t.taken = part) := by
  rcases h with ⟨fds, post, _, htaken, _, hlost⟩ | ⟨_, htaken⟩
  · exact ⟨⟨fds, htaken⟩, fun hpc hnone => absurd hnone (hlost hpc)⟩
  · exact ⟨by rw [htaken], fun _ _ => htaken⟩

theorem Draining.pipeMove {stopping : Prop} {part : List Int} {t t' : EventThread}
    (h : Draining part t) (hmove : PipeMove stopping t t') : Draining part t' := by
  rcases h with ⟨fds, post, hfds, htaken, hcode, hlost⟩ | ⟨hstop, htaken⟩
  · cases hmove with
    | gets xs _ hpipe hsame hpc =>
        refine .inl ⟨fds, post ++ xs, by rw [hpipe, hfds]; simp, by rw [hsame.1, htaken], hcode, ?_⟩
        rw [hpc, hsame.2]
        exact hlost
    | exits hpipe hpc hsame =>
        -- the exit code is the next thing in the pipe, so the part has been taken
        cases fds with
        | nil => exact .inr ⟨hpc, by rw [hsame, ← htaken, List.append_nil]⟩
        | cons fd fds =>
            rw [hfds, List.cons_append, List.cons.injEq] at hpipe
            exact absurd (hpipe.1 ▸ List.mem_cons_self) hcode
    | takes confd hpipe hfd htakes _ hlost' =>
        cases fds with
        | nil =>
            rw [hfds, List.nil_append, List.cons.injEq] at hpipe
            exact absurd hpipe.1.symm hfd
        | cons fd fds =>
            rw [hfds, List.cons_append, List.cons.injEq] at hpipe
            obtain ⟨rfl, hrest⟩ := hpipe
            refine .inl ⟨fds, post, hrest.symm, ?_, fun hmem => hcode (List.mem_cons_of_mem _ hmem),
              hlost'⟩
            rw [htakes, List.append_assoc, List.singleton_append, htaken]
    | goesOn hpipe hsame hpc =>
        exact .inl ⟨fds, post, by rw [hpipe, hfds], by rw [hsame.1, htaken], hcode,
          fun hstop => absurd hstop hpc.1⟩
  · cases hmove with
    | gets xs _ hpipe hsame hpc => exact .inr ⟨by rw [hpc, hstop], by rw [hsame.1, htaken]⟩
    | exits hpipe hpc hsame => exact .inr ⟨hpc, by rw [hsame, htaken]⟩
    | takes confd _ _ _ hpc _ => exact absurd (hpc.symm.trans hstop) (by simp)
    | goesOn _ _ hpc => exact absurd hstop hpc.2

theorem Unstopped.pipeMove {stopping : Prop} (hstopping : ¬stopping) {t t' : EventThread}
    (h : Unstopped t) (hmove : PipeMove stopping t t') : Unstopped t' := by
  obtain ⟨hcode, hlost⟩ := h
  cases hmove with
  | gets xs hxs hpipe hsame hpc =>
      refine ⟨?_, by rwa [hpc, hsame.2]⟩
      rw [hpipe, List.mem_append]
      rintro (hmem | hmem)
      · exact hcode hmem
      · exact hstopping (hxs hmem)
  | exits hpipe _ _ => exact absurd (hpipe ▸ List.mem_cons_self) hcode
  | takes confd hpipe _ _ _ hlost' =>
      exact ⟨fun hmem => hcode (hpipe ▸ List.mem_cons_of_mem _ hmem), hlost'⟩
  | goesOn hpipe _ hpc => exact ⟨hpipe ▸ hcode, fun hstop => absurd hstop hpc.1⟩

/-- `stopRun` puts the exit code behind the sockets accepted so far. -/
theorem Draining.of_stop {n w : Nat} {s : Server} (hw : w < n) (hsound : Sound n s)
    (h : Unstopped (s.thread w)) :
    Draining (deal n w s.accepted) ((s.stopRun n).thread w) := by
  have hall : ∀ fd ∈ (s.thread w).pipe, decide (fd ≠ exitCode) = true := by
    rintro fd hfd
    exact decide_eq_true (fun heq => h.1 (heq ▸ hfd))
  simp only [stopRun, if_pos hw]
  refine .inl ⟨(s.thread w).pipe, [], rfl, ?_, h.1, h.2⟩
  rw [(hsound.thread w hw).inTurn, List.filter_eq_self.mpr hall]

theorem Unstopped.run {n w : Nat} {s s' : Server} (h : Unstopped (s.thread w))
    {acts : List ServerAct} (hacts : ServerAct.stop ∉ acts)
    (hrun : Steps.run (step n) s acts = some s') : Unstopped (s'.thread w) := by
  induction acts generalizing s with
  | nil =>
      obtain rfl := Option.some.inj hrun
      exact h
  | cons a acts ih =>
      rw [List.mem_cons, not_or] at hacts
      obtain ⟨t, ht, hrest⟩ := Option.bind_eq_some_iff.mp hrun
      exact ih (h.pipeMove (Ne.symm hacts.1) (pipeMove_of_step ht w)) hacts.2 hrest

theorem Draining.run {n w : Nat} {part : List Int} {s s' : Server}
    (h : Draining part (s.thread w)) {acts : List ServerAct}
    (hrun : Steps.run (step n) s acts = some s') : Draining part (s'.thread w) :=
  Steps.run_invariant (C := fun _ _ => True) (fun s => Draining part (s.thread w))
    (fun _ _ _ hs _ hstep => hs.pipeMove (pipeMove_of_step hstep w)) h
    (Steps.everyStep_of_forall (fun _ _ => trivial) s acts) hrun

/-- **What was accepted before `stopRun` is served, and nothing that came later**: a
thread takes its part of the sockets accepted before the call in their order, none of
those accepted after it, and is not behind its loop before it has taken the whole part,
unless it failed to make a bufferevent. -/
theorem stop_drains {n : Nat} (hn : 0 < n) (hcount : n < 2147483648)
    {queues : Nat → ConnQueue}
    (hqueues : ∀ w, w < n → ∃ mHead mTail, ConnQueue.new mHead mTail = some (queues w))
    {before after : List ServerAct} (hbefore : ServerAct.stop ∉ before) {s₁ s : Server}
    (hrun₁ : Steps.run (step n) (new queues) before = some s₁)
    (hrun : Steps.run (step n) s₁ (.stop :: after) = some s) {w : Nat} (hw : w < n) :
    (s.thread w).taken <+: deal n w s₁.accepted ∧
      ((s.thread w).pc = .stopped → (s.thread w).lost = [] →
        (s.thread w).taken = deal n w s₁.accepted) := by
  have hsound : Sound n s₁ := Sound.run hn hcount (sound_start hn hqueues) hrun₁
  have hstart : Unstopped ((new queues).thread w) := by
    simp [Unstopped, new, EventThread.new]
  have hdrain := Draining.of_stop hw hsound (hstart.run hbefore hrun₁)
  have hdrained : Draining (deal n w s₁.accepted) (s.thread w) := hdrain.run hrun
  exact hdrained.taken_isKept

/-- A connection accepted before the call, and one accepted after it. -/
def stopAndAccept : List ServerAct := [.stop, .accept 8, .process 0 3 true, .store 0, .process 0 4 true]

theorem stopAndAccept_run :
    ((Steps.run (step 1) (new (fun _ => emptyQueue)) [.accept 7]).bind
      (fun s₁ => Steps.run (step 1) s₁ stopAndAccept)).map
        (fun s => ((s.thread 0).pc, (s.thread 0).lost)) = some (.stopped, []) := by decide

theorem stop_drains_first_connection : ∃ s₁ s,
    Steps.run (step 1) (new (fun _ => emptyQueue)) [.accept 7] = some s₁ ∧
      Steps.run (step 1) s₁ stopAndAccept = some s ∧
      (s.thread 0).pc = .stopped ∧ (s.thread 0).taken = deal 1 0 s₁.accepted := by
  obtain ⟨s, hs, heq⟩ := Option.map_eq_some_iff.mp stopAndAccept_run
  obtain ⟨s₁, hs₁, hrun⟩ := Option.bind_eq_some_iff.mp hs
  rw [Prod.mk.injEq] at heq
  have hdrains := stop_drains (by decide) (by decide) (fun _ _ => ⟨1, 2, emptyQueue_new⟩)
    (by decide) hs₁ hrun (w := 0) (by decide)
  exact ⟨s₁, s, hs₁, hrun, heq.1, hdrains.2 heq.1 heq.2⟩

end KvProxy.Server
