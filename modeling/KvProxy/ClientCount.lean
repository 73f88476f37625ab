import KvProxy.Dispatch
import Mathlib.Algebra.BigOperators.Ring.Finset
import Mathlib.Tactic.Ring

/-!
# Counting the clients

`connectionEvent` adds one to `st_conn` and `closeEvent` takes one off, in whichever
thread the connection belongs to, and `getStatus` sets a negative count to zero.  None
of them takes a lock.

* `undone` — what a writing half undoes;
* `connections_counted` — what `st_conn` counts, for every interleaving;
* `count_right_alone` — when it counts the connections.
-/

namespace KvProxy.Server

open MachineInt

/-- The connections of a thread that are in the count: one that is being opened is in
the list already. -/
def counted (t : EventThread) : Int :=
  match t.pc with
  | .opening _ => t.bevs.length - 1
  | _ => t.bevs.length

/-- What `st_conn` stands for. -/
def counts (n : Nat) (s : Server) : Int := ∑ w ∈ Finset.range n, counted (s.thread w)

/-- How far `st_conn` has moved since the thread has read it.  The writing half undoes
this; `st_conn = 0` undoes everything. -/
def undone (s : Server) : ServerAct → Int
  | .store w =>
      match (s.thread w).pc with
      | .opening stConn => s.stConn - stConn
      | .closing _ stConn => s.stConn - stConn
      | .clamping => s.stConn
      | _ => 0
  | _ => 0

/-- What the writing halves of a run undo. -/
def undoneBy (n : Nat) : Server → List ServerAct → Int
  | _, [] => 0
  | s, a :: rest => undone s a + ((step n s a).map (fun s' => undoneBy n s' rest)).getD 0

theorem counted_of_ne_opening {t : EventThread} (h : ∀ r, t.pc ≠ .opening r) :
    counted t = t.bevs.length := by
  unfold counted
  split
  · rename_i r hpc
    exact absurd hpc (h r)
  · rfl

/-- One thread changes. -/
theorem counts_update {n : Nat} {s s' : Server} {w : Nat} {t : EventThread} {d : Int}
    (hset : s'.thread = Function.update s.thread w t) (hw : w < n)
    (ht : counted t = counted (s.thread w) + d) : counts n s' = counts n s + d := by
  have hmem := Finset.mem_range.mpr hw
  have hfun : (fun v => counted (s'.thread v)) =
      Function.update (fun v => counted (s.thread v)) w (counted t) := by
    funext v
    rw [hset]
    by_cases hvw : v = w
    · subst hvw
      rw [Function.update_self, Function.update_self]
    · rw [Function.update_of_ne hvw, Function.update_of_ne hvw]
  have hsum := Finset.add_sum_erase (Finset.range n) (fun v => counted (s.thread v)) hmem
  rw [counts, counts, hfun, Finset.sum_update_of_mem hmem, ← hsum, ht,
    Finset.erase_eq]
  ring

theorem counts_eq_of_same {n : Nat} {s s' : Server}
    (h : ∀ w, w < n → counted (s'.thread w) = counted (s.thread w)) : counts n s' = counts n s :=
  Finset.sum_congr rfl (fun w hw => h w (Finset.mem_range.mp hw))

theorem counts_process {n : Nat} {s s' : Server} {w c : Nat} {made : Bool} (hw : w < n)
    (h : s.threadProcess w c made = some s') : s'.stConn = s.stConn ∧ counts n s' = counts n s := by
  unfold threadProcess at h
  split at h
  · rename_i confd rest hpc hpipe
    dsimp only at h
    have hold : counted (s.thread w) = (s.thread w).bevs.length :=
      counted_of_ne_opening (by simp [hpc])
    split_ifs at h with hexit hmade
    · obtain rfl := Option.some.inj h
      refine ⟨rfl, (counts_update (d := 0) rfl hw ?_).trans (Int.add_zero _)⟩
      rw [hold, Int.add_zero]
      rfl
    · obtain rfl := Option.some.inj h
      refine ⟨rfl, (counts_update (d := 0) rfl hw ?_).trans (Int.add_zero _)⟩
      rw [hold, Int.add_zero]
      rfl
    · obtain ⟨conn, _, hset⟩ := Option.bind_eq_some_iff.mp h
      obtain rfl := Option.some.inj hset
      refine ⟨rfl, (counts_update (d := 0) rfl hw ?_).trans (Int.add_zero _)⟩
      rw [hold]
      simp [counted]
  · cases h

/-- A thread that waits and goes on to something else than opening. -/
theorem counts_setPc {n : Nat} {s : Server} {w : Nat} {pc : ThreadPc} (hw : w < n)
    (hpc : (s.thread w).pc = .waiting) (hopen : ∀ r, pc ≠ .opening r) :
    counts n (s.setThread w { s.thread w with pc := pc }) = counts n s := by
  refine (counts_update (d := 0) rfl hw ?_).trans (Int.add_zero _)
  rw [counted_of_ne_opening hopen, counted_of_ne_opening (by simp [hpc]), Int.add_zero]

/-- The writing half moves the count from where it was read. -/
theorem counts_store {n : Nat} {s s' : Server} {w : Nat} (hsound : Sound n s) (hw : w < n)
    (h : s.store w = some s') :
    s'.stConn = int32 (s.stConn + (counts n s' - counts n s) - undone s (.store w)) := by
  unfold store at h
  dsimp only at h
  split at h
  · rename_i r hpc
    obtain rfl := Option.some.inj h
    have hcounts : counts n { s.setThread w { s.thread w with pc := .waiting } with
        stConn := int32 (r + 1) } = counts n s + 1 :=
      counts_update rfl hw (by simp [counted, hpc])
    rw [hcounts]
    simp only [undone, hpc]
    congr 1
    omega
  · rename_i bev r hpc
    obtain ⟨queue, hdelete, hset⟩ := Option.bind_eq_some_iff.mp h
    obtain rfl := Option.some.inj hset
    have hlen : ((s.thread w).bevs.filter (fun b => b.1 ≠ bev.1)).length + 1 =
        (s.thread w).bevs.length := by
      have ht := hsound.thread w hw
      have hnodup : ((s.thread w).bevs.map Prod.fst).Nodup := by
        have hnodes := (List.nodup_cons.mp ht.linked.nodup).2
        exact List.nodup_reverse.mp (List.nodup_append.mp hnodes).1
      exact (perm_filter_bevs hnodup (ht.closing bev r hpc)).length_eq.symm
    have hcounts : counts n { s.setThread w { s.thread w with
          queue := queue, bevs := (s.thread w).bevs.filter (fun b => b.1 ≠ bev.1),
          pc := .waiting, closed := (s.thread w).closed ++ [bev.2] } with
        stConn := int32 (r - 1) } = counts n s + -1 := by
      refine counts_update (s := s) rfl hw ?_
      rw [counted_of_ne_opening (by simp), counted_of_ne_opening (by simp [hpc]), ← hlen]
      push_cast
      omega
    rw [hcounts]
    simp only [undone, hpc]
    congr 1
    omega
  · rename_i hpc
    obtain rfl := Option.some.inj h
    have hcounts : counts n { s.setThread w { s.thread w with pc := .waiting } with stConn := 0 } =
        counts n s + 0 :=
      counts_update (s := s) rfl hw (by simp [counted, hpc])
    have hzero : s.stConn + (counts n s + 0 - counts n s) - s.stConn = 0 := by omega
    simp only [hcounts, undone, hpc, hzero, int32_zero]
  · cases h

theorem counts_accept (n : Nat) (s : Server) (fd : Int) :
    counts n (s.listenerEventCb n fd) = counts n s := by
  unfold listenerEventCb
  generalize uint32 (s.lastThread + 1) % n = num
  refine counts_eq_of_same fun w hw => ?_
  simp only [setThread]
  by_cases hturn : w = num
  · subst hturn
    rw [Function.update_self]
    rfl
  · rw [Function.update_of_ne hturn]

theorem listenerEventCb_stConn (n : Nat) (s : Server) (fd : Int) :
    (s.listenerEventCb n fd).stConn = s.stConn := by
  unfold listenerEventCb
  generalize uint32 (s.lastThread + 1) % n = num
  rfl

/-- A step moves the count as far as `st_conn`, but for what it undoes. -/
theorem counts_step {n : Nat} {s s' : Server} {a : ServerAct} (hsound : Sound n s)
    (h : step n s a = some s') (hrange : int32 s.stConn = s.stConn) :
    s'.stConn = int32 (s.stConn + (counts n s' - counts n s) - undone s a) := by
  have hsame : s'.stConn = s.stConn ∧ counts n s' = counts n s → undone s a = 0 →
      s'.stConn = int32 (s.stConn + (counts n s' - counts n s) - undone s a) := by
    intro hs hu
    rw [hs.1, hs.2, hu, Int.sub_self, Int.add_zero, Int.sub_zero, hrange]
  cases a with
  | accept fd =>
      simp only [step] at h
      split_ifs at h with hfd
      obtain rfl := Option.some.inj h
      exact hsame ⟨listenerEventCb_stConn n s fd, counts_accept n s fd⟩ rfl
  | process w c made =>
      simp only [step] at h
      split_ifs at h with hw
      exact hsame (counts_process hw h) rfl
  | close w bev =>
      simp only [step, closeEventCb] at h
      split_ifs at h with hw hbev
      obtain rfl := Option.some.inj h
      exact hsame ⟨rfl, counts_setPc hw hbev.1 (by simp)⟩ rfl
  | status w =>
      simp only [step, getStatus] at h
      split_ifs at h with hw hpc hneg
      · obtain rfl := Option.some.inj h
        exact hsame ⟨rfl, counts_setPc hw hpc (by simp)⟩ rfl
      · obtain rfl := Option.some.inj h
        exact hsame ⟨rfl, rfl⟩ rfl
  | store w =>
      simp only [step] at h
      split_ifs at h with hw
      exact counts_store hsound hw h
  | stop =>
      obtain rfl := Option.some.inj h
      refine hsame ⟨rfl, counts_eq_of_same fun w hw => ?_⟩ rfl
      simp only [stopRun, if_pos hw]
      rfl

theorem counts_run {n : Nat} (hn : 0 < n) (hcount : n < 2147483648) {s s' : Server} {u : Int}
    (hsound : Sound n s) (hs : s.stConn = int32 (counts n s - u)) {acts : List ServerAct}
    (hrun : Steps.run (step n) s acts = some s') :
    s'.stConn = int32 (counts n s' - (u + undoneBy n s acts)) := by
  induction acts generalizing s u with
  | nil =>
      obtain rfl := Option.some.inj hrun
      simpa [undoneBy] using hs
  | cons a acts ih =>
      obtain ⟨t, ht, hrest⟩ := Option.bind_eq_some_iff.mp hrun
      have hrange : int32 s.stConn = s.stConn := by
        rw [hs]
        exact int32_eq_self (int32_lower _) (int32_upper _)
      have hstep := counts_step hsound ht hrange
      have hnext : t.stConn = int32 (counts n t - (u + undone s a)) := by
        rw [hstep, hs]
        unfold int32
        omega
      rw [ih (hsound.move hn hcount (move_of_step ht)) hnext hrest]
      simp only [undoneBy, ht, Option.map_some, Option.getD_some, Int.add_assoc]

/-- **What `st_conn` counts**, however the threads are interleaved: the connections the
threads have opened and not closed, less what the writing halves have undone of each
other's counts. -/
theorem connections_counted {n : Nat} (hn : 0 < n) (hcount : n < 2147483648)
    {queues : Nat → ConnQueue}
    (hqueues : ∀ w, w < n → ∃ mHead mTail, ConnQueue.new mHead mTail = some (queues w))
    {acts : List ServerAct} {s : Server}
    (hrun : Steps.run (step n) (new queues) acts = some s) :
    s.stConn = int32 (counts n s - undoneBy n (new queues) acts) := by
  have hsound : Sound n (new queues) := sound_start hn hqueues
  have hzero : counts n (new queues) = 0 := Finset.sum_eq_zero (fun w _ => rfl)
  have hstart : (new queues).stConn = int32 (counts n (new queues) - 0) := by
    rw [hzero, Int.sub_zero, int32_zero]
    rfl
  have hend := counts_run hn hcount hsound hstart hrun
  rwa [Int.zero_add] at hend

/-- Two threads count at the same time. -/
def twoAtOnce : List ServerAct :=
  [.accept 7, .accept 8, .process 0 3 true, .process 1 3 true, .store 0, .store 1]

theorem twoAtOnce_run :
    (Steps.run (step 2) (new (fun _ => emptyQueue)) twoAtOnce).map
      (fun s => (s.stConn, counts 2 s, undoneBy 2 (new (fun _ => emptyQueue)) twoAtOnce)) =
        some (1, 2, 1) := by decide

theorem two_at_once_counted : ∃ s,
    Steps.run (step 2) (new (fun _ => emptyQueue)) twoAtOnce = some s ∧ s.stConn = 1 ∧
      counts 2 s = 2 ∧
      s.stConn = int32 (counts 2 s - undoneBy 2 (new (fun _ => emptyQueue)) twoAtOnce) := by
  obtain ⟨s, hs, heq⟩ := Option.map_eq_some_iff.mp twoAtOnce_run
  rw [Prod.mk.injEq, Prod.mk.injEq] at heq
  exact ⟨s, hs, heq.1, heq.2.1, connections_counted (by decide) (by decide)
    (fun _ _ => ⟨1, 2, emptyQueue_new⟩) hs⟩

/-- A thread that is not between two halves. -/
def Idle (t : EventThread) : Prop := t.pc = .waiting ∨ t.pc = .stopped

instance (t : EventThread) : Decidable (Idle t) := inferInstanceAs (Decidable (_ ∨ _))

/-- The thread that reads `st_conn` in this step. -/
def reader : ServerAct → Option Nat
  | .process w _ _ => some w
  | .close w _ => some w
  | .status w => some w
  | _ => none

/-- A thread reads `st_conn` while the others are idle, and there are not so many
connections that an `int` cannot count them. -/
def Alone (n : Nat) (s : Server) (a : ServerAct) : Prop :=
  (∀ w ∈ reader a, ∀ v, v < n → v ≠ w → Idle (s.thread v)) ∧
    ∑ w ∈ Finset.range n, (s.thread w).bevs.length < 2147483648

instance (n : Nat) (s : Server) (a : ServerAct) : Decidable (Alone n s a) :=
  inferInstanceAs (Decidable (_ ∧ _))

/-- One thread at most is between two halves, and what it has read is still there. -/
structure Serial (n : Nat) (s : Server) : Prop where
  opening : ∀ w, w < n → ∀ r, (s.thread w).pc = .opening r → r = s.stConn
  closing : ∀ w, w < n → ∀ bev r, (s.thread w).pc = .closing bev r → r = s.stConn
  clamping : ∀ w, w < n → (s.thread w).pc ≠ .clamping
  others : ∀ v w, v < n → w < n → v ≠ w → Idle (s.thread v) ∨ Idle (s.thread w)

theorem Serial.of_idle {n : Nat} {s : Server} (h : ∀ w, w < n → Idle (s.thread w)) :
    Serial n s where
  opening := by
    intro w hw r hpc
    rcases h w hw with hidle | hidle <;> simp [hidle] at hpc
  closing := by
    intro w hw bev r hpc
    rcases h w hw with hidle | hidle <;> simp [hidle] at hpc
  clamping := by
    intro w hw hpc
    rcases h w hw with hidle | hidle <;> simp [hidle] at hpc
  others := fun v _ hv _ _ => .inl (h v hv)

/-- A thread reads while the others are idle. -/
theorem Serial.enter {n : Nat} {s s' : Server} {w : Nat} {t : EventThread}
    (hidle : ∀ v, v < n → v ≠ w → Idle (s.thread v))
    (hset : s'.thread = Function.update s.thread w t)
    (hopening : ∀ r, t.pc = .opening r → r = s'.stConn)
    (hclosing : ∀ bev r, t.pc = .closing bev r → r = s'.stConn)
    (hclamping : t.pc ≠ .clamping) : Serial n s' := by
  have hother : ∀ v, v < n → v ≠ w → Idle (s'.thread v) := by
    intro v hv hvw
    rw [hset, Function.update_of_ne hvw]
    exact hidle v hv hvw
  have hself : s'.thread w = t := by rw [hset, Function.update_self]
  refine ⟨?_, ?_, ?_, ?_⟩
  · intro v hv r hpc
    by_cases hvw : v = w
    · subst hvw
      rw [hself] at hpc
      exact hopening r hpc
    · rcases hother v hv hvw with hv' | hv' <;> simp [hv'] at hpc
  · intro v hv bev r hpc
    by_cases hvw : v = w
    · subst hvw
      rw [hself] at hpc
      exact hclosing bev r hpc
    · rcases hother v hv hvw with hv' | hv' <;> simp [hv'] at hpc
  · intro v hv hpc
    by_cases hvw : v = w
    · subst hvw
      rw [hself] at hpc
      exact hclamping hpc
    · rcases hother v hv hvw with hv' | hv' <;> simp [hv'] at hpc
  · intro u v hu hv huv
    by_cases huw : u = w
    · exact .inr (hother v hv (fun hvw => huv (huw.trans hvw.symm)))
    · exact .inl (hother u hu huw)

/-- The main thread reads nothing. -/
theorem Serial.same {n : Nat} {s s' : Server} (h : Serial n s) (hstConn : s'.stConn = s.stConn)
    (hpc : ∀ w, w < n → (s'.thread w).pc = (s.thread w).pc) : Serial n s' where
  opening := by
    intro w hw r hw'
    rw [hstConn]
    exact h.opening w hw r ((hpc w hw).symm.trans hw')
  closing := by
    intro w hw bev r hw'
    rw [hstConn]
    exact h.closing w hw bev r ((hpc w hw).symm.trans hw')
  clamping := fun w hw hw' => h.clamping w hw ((hpc w hw).symm.trans hw')
  others := by
    intro v w hv hw hvw
    unfold Idle
    rw [hpc v hv, hpc w hw]
    exact h.others v w hv hw hvw

theorem counts_of_idle {n : Nat} {s : Server} (h : ∀ w, w < n → Idle (s.thread w)) :
    counts n s = (∑ w ∈ Finset.range n, (s.thread w).bevs.length : Nat) := by
  rw [Nat.cast_sum]
  refine Finset.sum_congr rfl fun w hw => counted_of_ne_opening fun r hpc => ?_
  rcases h w (Finset.mem_range.mp hw) with hidle | hidle <;> simp [hidle] at hpc

theorem Serial.process {n : Nat} {s s' : Server} {w c : Nat} {made : Bool}
    (hidle : ∀ v, v < n → v ≠ w → Idle (s.thread v)) (h : s.threadProcess w c made = some s') :
    Serial n s' := by
  unfold threadProcess at h
  split at h
  · dsimp only at h
    split_ifs at h with hexit hmade
    · obtain rfl := Option.some.inj h
      exact Serial.enter hidle rfl (by simp) (by simp) (by simp)
    · obtain rfl := Option.some.inj h
      exact Serial.enter hidle rfl (by simp) (by simp) (by simp)
    · obtain ⟨conn, _, hset⟩ := Option.bind_eq_some_iff.mp h
      obtain rfl := Option.some.inj hset
      exact Serial.enter hidle rfl (by simp [setThread]) (by simp) (by simp)
  · cases h

/-- The writing half leaves every thread idle. -/
theorem Serial.store {n : Nat} {s s' : Server} {w : Nat} (hs : Serial n s) (hw : w < n)
    (h : s.store w = some s') : Serial n s' := by
  have hbusy : ¬Idle (s.thread w) → ∀ v, v < n → v ≠ w → Idle (s.thread v) := by
    intro hw' v hv hvw
    exact (hs.others v w hv hw hvw).resolve_right hw'
  unfold Server.store at h
  dsimp only at h
  split at h
  · rename_i r hpc
    obtain rfl := Option.some.inj h
    exact Serial.enter (hbusy (by simp [Idle, hpc])) rfl (by simp) (by simp) (by simp)
  · rename_i bev r hpc
    obtain ⟨queue, _, hset⟩ := Option.bind_eq_some_iff.mp h
    obtain rfl := Option.some.inj hset
    exact Serial.enter (hbusy (by simp [Idle, hpc])) rfl (by simp) (by simp) (by simp)
  · rename_i hpc
    exact absurd hpc (hs.clamping w hw)
  · cases h

theorem Serial.undone_eq_zero {n : Nat} {s s' : Server} (hs : Serial n s) {a : ServerAct}
    (h : step n s a = some s') : undone s a = 0 := by
  cases a with
  | store w =>
      simp only [step] at h
      split_ifs at h with hw
      simp only [undone]
      split
      · rename_i r hpc
        rw [hs.opening w hw r hpc, Int.sub_self]
      · rename_i bev r hpc
        rw [hs.closing w hw bev r hpc, Int.sub_self]
      · rename_i hpc
        exact absurd hpc (hs.clamping w hw)
      · rfl
  | _ => rfl

theorem Serial.step {n : Nat} {s s' : Server} (hs : Serial n s)
    (hcounts : s.stConn = int32 (counts n s)) {a : ServerAct} (halone : Alone n s a)
    (h : step n s a = some s') : Serial n s' := by
  obtain ⟨hidle, hbound⟩ := halone
  cases a with
  | accept fd =>
      simp only [Server.step] at h
      split_ifs at h with hfd
      obtain rfl := Option.some.inj h
      refine hs.same (listenerEventCb_stConn n s fd) fun w _ => ?_
      unfold listenerEventCb
      generalize uint32 (s.lastThread + 1) % n = num
      simp only [setThread]
      by_cases hturn : w = num
      · subst hturn
        rw [Function.update_self]
      · rw [Function.update_of_ne hturn]
  | process w c made =>
      simp only [Server.step] at h
      split_ifs at h with hw
      exact Serial.process (hidle w rfl) h
  | close w bev =>
      simp only [Server.step, closeEventCb] at h
      split_ifs at h with hw hbev
      obtain rfl := Option.some.inj h
      exact Serial.enter (hidle w rfl) rfl (by simp) (by simp [setThread]) (by simp)
  | status w =>
      simp only [Server.step, getStatus] at h
      split_ifs at h with hw hpc hneg
      · -- all threads are idle, and their connections are counted
        have hall : ∀ v, v < n → Idle (s.thread v) := by
          intro v hv
          by_cases hvw : v = w
          · subst hvw
            exact .inl hpc
          · exact hidle w rfl v hv hvw
        rw [counts_of_idle hall, int32_eq_self (by omega) (by omega)] at hcounts
        omega
      · obtain rfl := Option.some.inj h
        exact hs
  | store w =>
      simp only [Server.step] at h
      split_ifs at h with hw
      exact hs.store hw h
  | stop =>
      obtain rfl := Option.some.inj h
      refine hs.same rfl fun w hw => ?_
      simp only [stopRun, if_pos hw]

/-- **The count is right when no two threads count at once**: whenever all threads are
idle it is the number of open connections, and `getStatus` never has to correct it. -/
theorem count_right_alone {n : Nat} (hn : 0 < n) (hcount : n < 2147483648)
    {queues : Nat → ConnQueue}
    (hqueues : ∀ w, w < n → ∃ mHead mTail, ConnQueue.new mHead mTail = some (queues w))
    {acts : List ServerAct} {s : Server}
    (halone : Steps.EveryStep (step n) (Alone n) (new queues) acts)
    (hrun : Steps.run (step n) (new queues) acts = some s) :
    (∀ w, w < n → (s.thread w).pc ≠ .clamping) ∧
      ((∀ w, w < n → Idle (s.thread w)) →
        s.stConn = int32 (∑ w ∈ Finset.range n, (s.thread w).bevs.length : Nat)) := by
  have hstart : Sound n (new queues) ∧ Serial n (new queues) ∧
      (new queues).stConn = int32 (counts n (new queues)) := by
    refine ⟨sound_start hn hqueues, Serial.of_idle fun w _ => .inl rfl, ?_⟩
    have hzero : counts n (new queues) = 0 := Finset.sum_eq_zero (fun w _ => rfl)
    rw [hzero, int32_zero]
    rfl
  have hend := Steps.run_invariant
    (fun s => Sound n s ∧ Serial n s ∧ s.stConn = int32 (counts n s)) ?_ hstart halone hrun
  · refine ⟨hend.2.1.clamping, fun hidle => ?_⟩
    rw [hend.2.2, counts_of_idle hidle]
  · rintro t a t' ⟨hsound, hserial, hcounts⟩ ha ht
    refine ⟨hsound.move hn hcount (move_of_step ht), hserial.step hcounts ha ht, ?_⟩
    have hrange : int32 t.stConn = t.stConn := by
      rw [hcounts]
      exact int32_eq_self (int32_lower _) (int32_upper _)
    rw [counts_step hsound ht hrange, hserial.undone_eq_zero ht, hcounts]
    unfold int32
    omega

/-- Two connections, each counted before the other is taken; the first is closed. -/
def oneByOne : List ServerAct :=
  [.accept 7, .accept 8, .process 0 3 true, .store 0, .process 1 3 true, .store 1, .status 0,
    .close 0 (3, 7), .store 0]

theorem oneByOne_run :
    (Steps.run (step 2) (new (fun _ => emptyQueue)) oneByOne).map
      (fun s => (decide (∀ w : Fin 2, Idle (s.thread w)),
        ∑ w ∈ Finset.range 2, (s.thread w).bevs.length)) = some (true, 1) := by decide

theorem two_connections_counted_alone : ∃ s,
    Steps.run (step 2) (new (fun _ => emptyQueue)) oneByOne = some s ∧ s.stConn = 1 := by
  obtain ⟨s, hs, heq⟩ := Option.map_eq_some_iff.mp oneByOne_run
  rw [Prod.mk.injEq, decide_eq_true_iff] at heq
  have hcounted := count_right_alone (by decide) (by decide) (fun _ _ => ⟨1, 2, emptyQueue_new⟩)
    (by decide) hs
  refine ⟨s, hs, ?_⟩
  rw [hcounted.2 (fun w hw => heq.1 ⟨w, hw⟩), heq.2]
  rfl

end KvProxy.Server
