import KvProxy.ConnQueue
import KvProxy.Lib.MachineInt
import KvProxy.Lib.RoundRobin

/-!
# Handing connections to the threads

The listener of `serv.cpp` runs in the main thread.  It writes the descriptor of every
connection it accepts to the pipe of one of the threads, each in its turn, and the
thread takes descriptors from its pipe one by one: it makes a bufferevent for the
socket, puts the connection into its list and counts it.  `stopRun` writes `EXIT_CODE`
to every pipe.

The parties are interleaved step by step.  `st_conn` belongs to all threads and has no
lock, so a thread reads it in one step and writes it in another.  A write to a pipe is
taken as never blocked, and four bytes are written and read at once.

* `Move` — everything a step can do;
* `Sound` — what every step keeps;
* `connections_dispatched` — where the accepted connections are, at every moment.
-/

namespace KvProxy

open MachineInt RoundRobin

/-- `insertConn` returns the connection, for which `new` has found a free address. -/
theorem ConnQueue.insertConn_some {q : ConnQueue} {c fd t : Nat} {r : Nat × ConnQueue}
    (h : q.insertConn c fd t = some r) : q.heap c = none ∧ r.1 = c := by
  simp only [ConnQueue.insertConn, Option.bind_eq_bind, Option.bind_eq_some_iff] at h
  obtain ⟨heap, hnew, heap₁, _, head, _, heap₂, _, head', _, heap₃, _, heap₄, _, next, _, heap₅, _,
    hret⟩ := h
  refine ⟨?_, by rw [← Option.some.inj hret]⟩
  unfold newConn Links.newNode at hnew
  split_ifs at hnew with hfree
  exact Option.isNone_iff_eq_none.mp hfree

/-- `EXIT_CODE`. -/
def exitCode : Int := -1

/-- Where a thread is: in its event loop, between the two halves of `st_conn++`, of
`st_conn--` for a bufferevent that is closed, or of `st_conn = 0` in `getStatus`; or
behind its loop. -/
inductive ThreadPc where
  | waiting
  | opening (stConn : Int)
  | closing (bev : Nat × Int) (stConn : Int)
  | clamping
  | stopped
  deriving DecidableEq, Repr

/-- A `LibeventThread`: its pipe, its list of connections, and its bufferevents, each
with the `Conn` it is called back with and its socket.  The rest is history: the
sockets taken from the pipe, those closed, and those that got no bufferevent. -/
structure EventThread where
  pipe : List Int
  queue : ConnQueue
  bevs : List (Nat × Int)
  pc : ThreadPc
  taken : List Int
  closed : List Int
  lost : List Int

/-- The listener and the threads; `accepted` has the sockets in the order in which they
were accepted. -/
structure Server where
  lastThread : Int
  thread : Nat → EventThread
  stConn : Int
  accepted : List Int

/-- The steps.  `c` is what `new` returns, and `made` says whether there is a
bufferevent. -/
inductive ServerAct where
  | accept (fd : Int)
  | process (w : Nat) (c : Nat) (made : Bool)
  | close (w : Nat) (bev : Nat × Int)
  | status (w : Nat)
  | store (w : Nat)
  | stop
  deriving DecidableEq, Repr

/-- A thread before its loop. -/
def EventThread.new (queue : ConnQueue) : EventThread := ⟨[], queue, [], .waiting, [], [], []⟩

namespace Server

/-- Before the first step. -/
def new (queues : Nat → ConnQueue) : Server := ⟨-1, fun w => .new (queues w), 0, []⟩

def setThread (s : Server) (w : Nat) (t : EventThread) : Server :=
  { s with thread := Function.update s.thread w t }

/-- `listenerEventCb`. -/
def listenerEventCb (threadCount : Nat) (s : Server) (fd : Int) : Server :=
  let num := uint32 (s.lastThread + 1) % threadCount
  { s.setThread num { s.thread num with pipe := (s.thread num).pipe ++ [fd] } with
    lastThread := int32 num
    accepted := s.accepted ++ [fd] }

/-- `threadProcess`, up to the reading half of `connectionEvent`. -/
def threadProcess (s : Server) (w c : Nat) (made : Bool) : Option Server :=
  match (s.thread w).pc, (s.thread w).pipe with
  | .waiting, confd :: rest =>
      let t := { s.thread w with pipe := rest }
      if confd = exitCode then some (s.setThread w { t with pc := .stopped })
      else if made = false then
        some (s.setThread w
          { t with pc := .stopped, taken := t.taken ++ [confd], lost := t.lost ++ [confd] })
      else do
        let conn ← t.queue.insertConn c (uint32 confd) w
        some (s.setThread w { t with
          queue := conn.2
          bevs := t.bevs ++ [(c, confd)]
          pc := .opening s.stConn
          taken := t.taken ++ [confd] })
  | _, _ => none

/-- The reading half of `closeEvent`, called for one of the bufferevents. -/
def closeEventCb (s : Server) (w : Nat) (bev : Nat × Int) : Option Server :=
  if (s.thread w).pc = .waiting ∧ bev ∈ (s.thread w).bevs then
    some (s.setThread w { s.thread w with pc := .closing bev s.stConn })
  else none

/-- The test of `st_conn` in `getStatus`. -/
def getStatus (s : Server) (w : Nat) : Option Server :=
  if (s.thread w).pc = .waiting then
    if s.stConn < 0 then some (s.setThread w { s.thread w with pc := .clamping }) else some s
  else none

/-- The writing half, and what follows it: the rest of `closeEventCb` deletes the
connection and closes the socket. -/
def store (s : Server) (w : Nat) : Option Server :=
  let t := s.thread w
  match t.pc with
  | .opening stConn =>
      some { s.setThread w { t with pc := .waiting } with stConn := int32 (stConn + 1) }
  | .closing bev stConn => do
      let queue ← t.queue.deleteConn bev.1
      some { s.setThread w { t with
          queue := queue
          bevs := t.bevs.filter (fun b => b.1 ≠ bev.1)
          pc := .waiting
          closed := t.closed ++ [bev.2] } with
        stConn := int32 (stConn - 1) }
  | .clamping => some { s.setThread w { t with pc := .waiting } with stConn := 0 }
  | _ => none

/-- `stopRun`. -/
def stopRun (threadCount : Nat) (s : Server) : Server :=
  { s with
    thread := fun w =>
      if w < threadCount then { s.thread w with pipe := (s.thread w).pipe ++ [exitCode] }
      else s.thread w }

/-- One step of the main thread or of thread `w`.  The kernel gives no negative
descriptor. -/
def step (threadCount : Nat) (s : Server) : ServerAct → Option Server
  | .accept fd => if 0 ≤ fd then some (s.listenerEventCb threadCount fd) else none
  | .process w c made => if w < threadCount then s.threadProcess w c made else none
  | .close w bev => if w < threadCount then s.closeEventCb w bev else none
  | .status w => if w < threadCount then s.getStatus w else none
  | .store w => if w < threadCount then s.store w else none
  | .stop => some (s.stopRun threadCount)

/-- Everything a step can do. -/
inductive Move (n : Nat) (s : Server) : Server → Prop
  | accepts (fd : Int) (hfd : 0 ≤ fd) : Move n s (s.listenerEventCb n fd)
  | exits (w : Nat) (rest : List Int) (hw : w < n) (hpc : (s.thread w).pc = .waiting)
      (hpipe : (s.thread w).pipe = exitCode :: rest) :
      Move n s (s.setThread w { s.thread w with pipe := rest, pc := .stopped })
  | loses (w : Nat) (confd : Int) (rest : List Int) (hw : w < n)
      (hpc : (s.thread w).pc = .waiting) (hpipe : (s.thread w).pipe = confd :: rest)
      (hfd : confd ≠ exitCode) :
      Move n s (s.setThread w { s.thread w with
        pipe := rest, pc := .stopped, taken := (s.thread w).taken ++ [confd],
        lost := (s.thread w).lost ++ [confd] })
  | takes (w c : Nat) (confd : Int) (rest : List Int) (queue : ConnQueue) (hw : w < n)
      (hpc : (s.thread w).pc = .waiting) (hpipe : (s.thread w).pipe = confd :: rest)
      (hfd : confd ≠ exitCode)
      (hinsert : (s.thread w).queue.insertConn c (uint32 confd) w = some (c, queue)) :
      Move n s (s.setThread w { s.thread w with
        pipe := rest, queue := queue, bevs := (s.thread w).bevs ++ [(c, confd)],
        pc := .opening s.stConn, taken := (s.thread w).taken ++ [confd] })
  | closes (w : Nat) (bev : Nat × Int) (hw : w < n) (hpc : (s.thread w).pc = .waiting)
      (hbev : bev ∈ (s.thread w).bevs) :
      Move n s (s.setThread w { s.thread w with pc := .closing bev s.stConn })
  | looks (w : Nat) (hw : w < n) (hpc : (s.thread w).pc = .waiting) (hpos : 0 ≤ s.stConn) :
      Move n s s
  | clamps (w : Nat) (hw : w < n) (hpc : (s.thread w).pc = .waiting) (hneg : s.stConn < 0) :
      Move n s (s.setThread w { s.thread w with pc := .clamping })
  | opened (w : Nat) (r : Int) (hw : w < n) (hpc : (s.thread w).pc = .opening r) :
      Move n s { s.setThread w { s.thread w with pc := .waiting } with stConn := int32 (r + 1) }
  | closed (w : Nat) (bev : Nat × Int) (r : Int) (queue : ConnQueue) (hw : w < n)
      (hpc : (s.thread w).pc = .closing bev r)
      (hdelete : (s.thread w).queue.deleteConn bev.1 = some queue) :
      Move n s { s.setThread w { s.thread w with
          queue := queue, bevs := (s.thread w).bevs.filter (fun b => b.1 ≠ bev.1),
          pc := .waiting, closed := (s.thread w).closed ++ [bev.2] } with
        stConn := int32 (r - 1) }
  | clamped (w : Nat) (hw : w < n) (hpc : (s.thread w).pc = .clamping) :
      Move n s { s.setThread w { s.thread w with pc := .waiting } with stConn := 0 }
  | stops : Move n s (s.stopRun n)

theorem move_of_process {n : Nat} {s s' : Server} {w c : Nat} {made : Bool} (hw : w < n)
    (h : s.threadProcess w c made = some s') : Move n s s' := by
  unfold threadProcess at h
  split at h
  · rename_i confd rest hpc hpipe
    dsimp only at h
    split_ifs at h with hexit hmade
    · obtain rfl := Option.some.inj h
      subst hexit
      exact .exits w rest hw hpc hpipe
    · obtain rfl := Option.some.inj h
      exact .loses w confd rest hw hpc hpipe hexit
    · obtain ⟨⟨c', queue⟩, hinsert, hset⟩ := Option.bind_eq_some_iff.mp h
      obtain rfl := Option.some.inj hset
      have hc : c' = c := (ConnQueue.insertConn_some hinsert).2
      subst hc
      exact .takes w c' confd rest queue hw hpc hpipe hexit hinsert
  · cases h

theorem move_of_store {n : Nat} {s s' : Server} {w : Nat} (hw : w < n)
    (h : s.store w = some s') : Move n s s' := by
  unfold store at h
  dsimp only at h
  split at h
  · rename_i r hpc
    obtain rfl := Option.some.inj h
    exact .opened w r hw hpc
  · rename_i bev r hpc
    obtain ⟨queue, hdelete, hset⟩ := Option.bind_eq_some_iff.mp h
    obtain rfl := Option.some.inj hset
    exact .closed w bev r queue hw hpc hdelete
  · rename_i hpc
    obtain rfl := Option.some.inj h
    exact .clamped w hw hpc
  · cases h

theorem move_of_step {n : Nat} {s s' : Server} {a : ServerAct} (h : step n s a = some s') :
    Move n s s' := by
  cases a with
  | accept fd =>
      simp only [step] at h
      split_ifs at h with hfd
      obtain rfl := Option.some.inj h
      exact .accepts fd hfd
  | process w c made =>
      simp only [step] at h
      split_ifs at h with hw
      exact move_of_process hw h
  | close w bev =>
      simp only [step, closeEventCb] at h
      split_ifs at h with hw hbev
      obtain rfl := Option.some.inj h
      exact .closes w bev hw hbev.1 hbev.2
  | status w =>
      simp only [step, getStatus] at h
      split_ifs at h with hw hpc hneg
      · obtain rfl := Option.some.inj h
        exact .clamps w hw hpc hneg
      · obtain rfl := Option.some.inj h
        exact .looks w hw hpc (Int.not_lt.mp hneg)
  | store w =>
      simp only [step] at h
      split_ifs at h with hw
      exact move_of_store hw h
  | stop =>
      obtain rfl := Option.some.inj h
      exact .stops

/-! ## Where the connections are -/

/-- What holds of thread `w` when these sockets have been accepted. -/
structure ThreadSound (n : Nat) (accepted : List Int) (w : Nat) (t : EventThread) : Prop where
  inTurn : deal n w accepted = t.taken ++ t.pipe.filter (fun fd => fd ≠ exitCode)
  linked : t.queue.ListOf (t.bevs.map Prod.fst)
  accounted : t.taken.Perm (t.bevs.map Prod.snd ++ t.closed ++ t.lost)
  closing : ∀ bev r, t.pc = .closing bev r → bev ∈ t.bevs

/-- What holds of the server. -/
structure Sound (n : Nat) (s : Server) : Prop where
  thread : ∀ w, w < n → ThreadSound n s.accepted w (s.thread w)
  last : -1 ≤ s.lastThread ∧ s.lastThread < n
  next : uint32 (s.lastThread + 1) % n = s.accepted.length % n

theorem sound_new {n : Nat} (hn : 0 < n) {queues : Nat → ConnQueue}
    (hqueues : ∀ w, w < n → (queues w).ListOf []) : Sound n (new queues) where
  thread := by
    intro w hw
    exact ⟨rfl, hqueues w hw, List.Perm.nil, by simp [new, EventThread.new]⟩
  last := by
    simp only [new]
    omega
  next := rfl

/-- A thread that stays sound. -/
theorem Sound.set {n : Nat} {s : Server} (h : Sound n s) {w : Nat} {t : EventThread}
    (ht : ThreadSound n s.accepted w t) (stConn : Int) :
    Sound n { s.setThread w t with stConn := stConn } where
  thread := by
    intro v hv
    by_cases hvw : v = w
    · subst hvw
      simpa [setThread] using ht
    · simpa [setThread, hvw] using h.thread v hv
  last := h.last
  next := h.next

theorem ThreadSound.setPc {n w : Nat} {accepted : List Int} {t : EventThread} {pc : ThreadPc}
    (h : ThreadSound n accepted w t) (hpc : ∀ bev r, pc = .closing bev r → bev ∈ t.bevs) :
    ThreadSound n accepted w { t with pc := pc } :=
  ⟨h.inTurn, h.linked, h.accounted, hpc⟩

theorem ThreadSound.exits {n w : Nat} {accepted : List Int} {t : EventThread} {rest : List Int}
    (h : ThreadSound n accepted w t) (hpipe : t.pipe = exitCode :: rest) :
    ThreadSound n accepted w { t with pipe := rest, pc := .stopped } where
  inTurn := by rw [h.inTurn, hpipe, List.filter_cons_of_neg (by simp)]
  linked := h.linked
  accounted := h.accounted
  closing := by simp

theorem ThreadSound.loses {n w : Nat} {accepted : List Int} {t : EventThread} {confd : Int}
    {rest : List Int} (h : ThreadSound n accepted w t) (hpipe : t.pipe = confd :: rest)
    (hfd : confd ≠ exitCode) :
    ThreadSound n accepted w { t with
      pipe := rest, pc := .stopped, taken := t.taken ++ [confd],
      lost := t.lost ++ [confd] } where
  inTurn := by
    rw [h.inTurn, hpipe, List.filter_cons_of_pos (by simpa using hfd)]
    simp
  linked := h.linked
  accounted := by
    rw [← List.append_assoc]
    exact h.accounted.append_right [confd]
  closing := by simp

theorem ThreadSound.takes {n w c : Nat} {accepted : List Int} {t : EventThread} {confd : Int}
    {rest : List Int} {queue : ConnQueue} (h : ThreadSound n accepted w t)
    (hpipe : t.pipe = confd :: rest) (hfd : confd ≠ exitCode)
    (hinsert : t.queue.insertConn c (uint32 confd) w = some (c, queue)) (stConn : Int) :
    ThreadSound n accepted w { t with
      pipe := rest, queue := queue, bevs := t.bevs ++ [(c, confd)], pc := .opening stConn,
      taken := t.taken ++ [confd] } where
  inTurn := by
    rw [h.inTurn, hpipe, List.filter_cons_of_pos (by simpa using hfd)]
    simp
  linked := by
    have hfresh : c ∉ t.queue.nodes (t.bevs.map Prod.fst) := by
      intro hc
      obtain ⟨node, hnode⟩ := h.linked.linked.mem hc
      rw [(ConnQueue.insertConn_some hinsert).1] at hnode
      cases hnode
    obtain ⟨heap, heq, hlist⟩ := h.linked.insertConn hfresh (uint32 confd) w
    rw [hinsert, Option.some.injEq, Prod.mk.injEq] at heq
    rw [List.map_append, heq.2]
    exact hlist
  accounted := by
    refine (h.accounted.append_right [confd]).trans (List.perm_iff_count.mpr fun fd => ?_)
    simp only [List.map_append, List.map_singleton, List.count_append]
    omega
  closing := by simp

/-- A bufferevent among others with connections of their own. -/
theorem perm_filter_bevs {bevs : List (Nat × Int)} (hnodup : (bevs.map Prod.fst).Nodup)
    {bev : Nat × Int} (hbev : bev ∈ bevs) :
    bevs.Perm (bev :: bevs.filter (fun b => b.1 ≠ bev.1)) := by
  obtain ⟨before, behind, rfl⟩ := List.append_of_mem hbev
  have hother : ∀ b ∈ before ++ behind, b.1 ≠ bev.1 := by
    intro b hb heq
    rw [List.map_append, List.map_cons] at hnodup
    refine (List.nodup_middle.mp hnodup).notMem ?_
    rw [← List.map_append, ← heq]
    exact List.mem_map_of_mem hb
  have hfilter : (before ++ bev :: behind).filter (fun b => b.1 ≠ bev.1) = before ++ behind := by
    rw [List.filter_append, List.filter_cons_of_neg (by simp), ← List.filter_append,
      List.filter_eq_self.mpr (fun b hb => decide_eq_true (hother b hb))]
  rw [hfilter]
  exact List.perm_middle

theorem ThreadSound.closed {n w : Nat} {accepted : List Int} {t : EventThread}
    {bev : Nat × Int} {r : Int} {queue : ConnQueue} (h : ThreadSound n accepted w t)
    (hpc : t.pc = .closing bev r) (hdelete : t.queue.deleteConn bev.1 = some queue) :
    ThreadSound n accepted w { t with
      queue := queue, bevs := t.bevs.filter (fun b => b.1 ≠ bev.1), pc := .waiting,
      closed := t.closed ++ [bev.2] } where
  inTurn := h.inTurn
  linked := by
    have hbev := h.closing bev r hpc
    obtain ⟨heap, heq, hlist⟩ := h.linked.deleteConn (List.mem_map_of_mem hbev)
    rw [hdelete, Option.some.injEq] at heq
    rw [heq]
    have hmap : (t.bevs.filter (fun b => b.1 ≠ bev.1)).map Prod.fst =
        (t.bevs.map Prod.fst).filter (fun x => x ≠ bev.1) := by
      rw [List.filter_map]
      rfl
    rw [hmap]
    exact hlist
  accounted := by
    have hnodup : (t.bevs.map Prod.fst).Nodup := by
      have hnodes := (List.nodup_cons.mp h.linked.nodup).2
      exact List.nodup_reverse.mp (List.nodup_append.mp hnodes).1
    have hperm := (perm_filter_bevs hnodup (h.closing bev r hpc)).map Prod.snd
    have hless := h.accounted.trans ((hperm.append_right t.closed).append_right t.lost)
    refine hless.trans (List.perm_iff_count.mpr fun fd => ?_)
    simp only [List.map_cons, List.count_append, List.count_cons, List.count_nil]
    omega
  closing := by simp

/-- The listener gives the socket to the thread whose turn it is. -/
theorem Sound.accepts {n : Nat} (hn : 0 < n) (hcount : n < 2147483648) {s : Server}
    (h : Sound n s) {fd : Int} (hfd : 0 ≤ fd) : Sound n (s.listenerEventCb n fd) := by
  have hmod := Nat.mod_lt s.accepted.length hn
  have hlast : int32 ((s.accepted.length % n : Nat) : Int) = (s.accepted.length % n : Nat) :=
    int32_eq_self (by omega) (by omega)
  refine ⟨?_, ?_, ?_⟩
  · intro w hw
    have ht := h.thread w hw
    simp only [listenerEventCb, setThread, h.next]
    by_cases hturn : w = s.accepted.length % n
    · subst hturn
      rw [Function.update_self]
      refine ⟨?_, ht.linked, ht.accounted, ht.closing⟩
      have hne : fd ≠ exitCode := by
        unfold exitCode
        omega
      rw [deal_concat, if_pos rfl, ht.inTurn, List.filter_append,
        List.filter_cons_of_pos (by simpa using hne), List.filter_nil, List.append_assoc]
    · rw [Function.update_of_ne hturn]
      refine ⟨?_, ht.linked, ht.accounted, ht.closing⟩
      rw [deal_concat, if_neg (Ne.symm hturn), List.append_nil, ht.inTurn]
  · simp only [listenerEventCb, h.next, hlast]
    omega
  · have huint : uint32 (((s.accepted.length % n : Nat) : Int) + 1) = s.accepted.length % n + 1 := by
      unfold uint32
      omega
    simp only [listenerEventCb, h.next, hlast, huint, List.length_append, List.length_singleton]
    rw [Nat.mod_add_mod]

theorem Sound.move {n : Nat} (hn : 0 < n) (hcount : n < 2147483648) {s s' : Server}
    (h : Sound n s) (hmove : Move n s s') : Sound n s' := by
  cases hmove with
  | accepts fd hfd => exact h.accepts hn hcount hfd
  | exits w rest hw hpc hpipe => exact h.set ((h.thread w hw).exits hpipe) s.stConn
  | loses w confd rest hw hpc hpipe hfd => exact h.set ((h.thread w hw).loses hpipe hfd) s.stConn
  | takes w c confd rest queue hw hpc hpipe hfd hinsert =>
      exact h.set ((h.thread w hw).takes hpipe hfd hinsert s.stConn) s.stConn
  | closes w bev hw hpc hbev =>
      refine h.set ((h.thread w hw).setPc ?_) s.stConn
      rintro _ _ ⟨⟩
      exact hbev
  | looks w hw hpc hpos => exact h
  | clamps w hw hpc hneg => exact h.set ((h.thread w hw).setPc (by simp)) s.stConn
  | opened w r hw hpc => exact h.set ((h.thread w hw).setPc (by simp)) _
  | closed w bev r queue hw hpc hdelete => exact h.set ((h.thread w hw).closed hpc hdelete) _
  | clamped w hw hpc => exact h.set ((h.thread w hw).setPc (by simp)) _
  | stops =>
      refine ⟨?_, h.last, h.next⟩
      intro w hw
      have ht := h.thread w hw
      simp only [stopRun, if_pos hw]
      refine ⟨?_, ht.linked, ht.accounted, ht.closing⟩
      rw [ht.inTurn, List.filter_append, List.filter_cons_of_neg (by simp), List.filter_nil,
        List.append_nil]

/-- In every state that a run reaches. -/
theorem Sound.run {n : Nat} (hn : 0 < n) (hcount : n < 2147483648) {s s' : Server}
    (h : Sound n s) {acts : List ServerAct} (hrun : Steps.run (step n) s acts = some s') :
    Sound n s' :=
  Steps.run_invariant (C := fun _ _ => True) (Sound n)
    (fun _ _ _ hs _ hstep => hs.move hn hcount (move_of_step hstep)) h
    (Steps.everyStep_of_forall (fun _ _ => trivial) s acts) hrun

/-- A thread that is between two halves can go on, and one that waits can take what is
in its pipe; no pointer of its list leads nowhere. -/
theorem Sound.ready {n : Nat} {s : Server} (h : Sound n s) {w : Nat} (hw : w < n) :
    ((s.thread w).pc ≠ .waiting → (s.thread w).pc ≠ .stopped → (step n s (.store w)).isSome) ∧
      ((s.thread w).pc = .waiting → (s.thread w).pipe ≠ [] →
        ∀ c, (s.thread w).queue.heap c = none → ∀ made, (step n s (.process w c made)).isSome) := by
  have ht := h.thread w hw
  constructor
  · intro hbusy hstop
    simp only [step, if_pos hw, store]
    cases hpc : (s.thread w).pc with
    | waiting => exact absurd hpc hbusy
    | opening r => rfl
    | closing bev r =>
        obtain ⟨heap, hdelete, _⟩ := ht.linked.deleteConn (List.mem_map_of_mem (ht.closing bev r hpc))
        simp [hdelete]
    | clamping => rfl
    | stopped => exact absurd hpc hstop
  · intro hpc hpipe c hc made
    obtain ⟨confd, rest, hpipe⟩ := List.exists_cons_of_ne_nil hpipe
    have hfresh : c ∉ (s.thread w).queue.nodes ((s.thread w).bevs.map Prod.fst) := by
      intro hmem
      obtain ⟨node, hnode⟩ := ht.linked.linked.mem hmem
      rw [hc] at hnode
      cases hnode
    obtain ⟨heap, hinsert, _⟩ := ht.linked.insertConn hfresh (uint32 confd) w
    simp only [step, if_pos hw, threadProcess, hpc, hpipe]
    split_ifs
    · rfl
    · rfl
    · simp [hinsert]

/-- Where the accepted sockets are: dealt out in turn, each in one pipe or with one
bufferevent, closed, or given up, and the bufferevents' connections in the list of
their thread. -/
structure Dispatched (n : Nat) (s : Server) : Prop where
  inTurn : ∀ w, w < n → (s.thread w).taken ++ (s.thread w).pipe.filter (fun fd => fd ≠ exitCode) =
    deal n w s.accepted
  once : s.accepted.Perm ((List.range n).flatMap (fun w => (s.thread w).bevs.map Prod.snd ++
    (s.thread w).closed ++ (s.thread w).lost ++
    (s.thread w).pipe.filter (fun fd => fd ≠ exitCode)))
  balanced : ∀ v w, v < n → w < n →
    (s.thread v).taken.length + ((s.thread v).pipe.filter (fun fd => fd ≠ exitCode)).length ≤
      (s.thread w).taken.length + ((s.thread w).pipe.filter (fun fd => fd ≠ exitCode)).length + 1
  linked : ∀ w, w < n → (s.thread w).queue.ListOf ((s.thread w).bevs.map Prod.fst)
  goesOn : ∀ w, w < n → (s.thread w).pc ≠ .waiting → (s.thread w).pc ≠ .stopped →
    (step n s (.store w)).isSome
  takesOn : ∀ w, w < n → (s.thread w).pc = .waiting → (s.thread w).pipe ≠ [] →
    ∀ c, (s.thread w).queue.heap c = none → ∀ made, (step n s (.process w c made)).isSome

theorem Sound.dispatched {n : Nat} (hn : 0 < n) {s : Server} (h : Sound n s) :
    Dispatched n s where
  inTurn := fun w hw => (h.thread w hw).inTurn.symm
  once := by
    refine (deal_perm hn s.accepted).symm.trans (List.Perm.flatMap_left _ ?_)
    intro w hw
    have ht := h.thread w (List.mem_range.mp hw)
    rw [ht.inTurn]
    exact ht.accounted.append_right _
  balanced := by
    intro v w hv hw
    have hle := length_deal_le hv hw s.accepted
    rwa [(h.thread v hv).inTurn, (h.thread w hw).inTurn, List.length_append,
      List.length_append] at hle
  linked := fun w hw => (h.thread w hw).linked
  goesOn := fun _ hw => (h.ready hw).1
  takesOn := fun _ hw => (h.ready hw).2

/-- A queue as its constructor leaves it. -/
theorem listOf_of_new {mHead mTail : Nat} {q : ConnQueue}
    (h : ConnQueue.new mHead mTail = some q) : q.ListOf [] := by
  by_cases hne : mHead = mTail
  · subst hne
    simp [ConnQueue.new, newConn, Links.newNode] at h
  · obtain ⟨heap, hnew, hlist⟩ := ConnQueue.listOf_new hne
    rw [h, Option.some.injEq] at hnew
    rwa [hnew]

/-- The start, with freshly constructed queues. -/
theorem sound_start {n : Nat} (hn : 0 < n) {queues : Nat → ConnQueue}
    (hqueues : ∀ w, w < n → ∃ mHead mTail, ConnQueue.new mHead mTail = some (queues w)) :
    Sound n (new queues) := by
  refine sound_new hn fun w hw => ?_
  obtain ⟨mHead, mTail, hnew⟩ := hqueues w hw
  exact listOf_of_new hnew

/-- **Every accepted connection goes to one thread**, and the threads take turns: in every
state of every run. -/
theorem connections_dispatched {n : Nat} (hn : 0 < n) (hcount : n < 2147483648)
    {queues : Nat → ConnQueue}
    (hqueues : ∀ w, w < n → ∃ mHead mTail, ConnQueue.new mHead mTail = some (queues w))
    {acts : List ServerAct} {s : Server}
    (hrun : Steps.run (step n) (new queues) acts = some s) : Dispatched n s := by
  exact Sound.dispatched hn (Sound.run hn hcount (sound_start hn hqueues) hrun)

/-- A queue with its sentinels at `1` and `2`. -/
def emptyQueue : ConnQueue := (ConnQueue.new 1 2).get rfl

theorem emptyQueue_new : ConnQueue.new 1 2 = some emptyQueue := (Option.some_get rfl).symm

/-- Three connections for two threads; the first is closed again. -/
def threeConnections : List ServerAct :=
  [.accept 7, .accept 8, .process 0 3 true, .accept 9, .process 1 3 true, .store 0,
    .close 0 (3, 7), .store 1, .store 0]

theorem threeConnections_run :
    (Steps.run (step 2) (new (fun _ => emptyQueue)) threeConnections).isSome = true := by decide

theorem three_connections_dispatched : ∃ s,
    Steps.run (step 2) (new (fun _ => emptyQueue)) threeConnections = some s ∧
      Dispatched 2 s := by
  obtain ⟨s, hs⟩ := Option.isSome_iff_exists.mp threeConnections_run
  exact ⟨s, hs, connections_dispatched (by decide) (by decide)
    (fun _ _ => ⟨1, 2, emptyQueue_new⟩) hs⟩

end Server

end KvProxy
