import KvProxy.ConnPool
import KvProxy.Lib.Steps

/-!
# Giving up a connection while others connect

`destoryConnection` first closes the descriptor and then, under the lock of the
pool, zeroes the places that hold it.  Between the two the kernel may hand the
same number to another thread, which stores it: the second step then zeroes
the place of that new connection, which stays open and is in no place.

The threads take these steps in any order.  Every connection has the serial
number of its socket, which tells connections with the same descriptor apart.

* `Sound.step` — a step that does not reuse a descriptor that is being given up
  keeps every connection in its place;
* `connections_kept` — so does a run;
* `connection_lost` — the race.
-/

namespace KvProxy

/-- The pool and the kernel, with what the threads are doing.

`calls` has, for a thread between the two steps of `destoryConnection`, the
descriptor and the connection the call was made for.  The rest is history:
`home` has the place and the descriptor of every connection that was stored,
`holder` the connection that was stored last in a place, and `givenUp` the
connections for which `destoryConnection` was called. -/
structure RaceState (T : Nat) where
  pool : ConnPool
  sockets : Sockets
  calls : Fin T → Option (Nat × Nat)
  home : Nat → Option (Place × Nat)
  holder : Place → Option Nat
  givenUp : List Nat

/-- The atomic steps of the threads.  A thread uses the places of its own
index. -/
inductive RaceAct (T : Nat) where
  /-- `close(conn)` in `destoryConnection(conn)`, called for a connection. -/
  | close (thread : Fin T) (conn : Nat) (connection : Nat)
  /-- The loops of that call, under the write lock. -/
  | zero (thread : Fin T)
  /-- The creating branch of `getConnection`, under the write lock. -/
  | create (thread : Fin T) (host : Text) (port : Nat) (result : ConnectResult)

namespace RaceState

variable {T : Nat}

/-- Before the first step. -/
def new : RaceState T := ⟨.new, .new, fun _ => none, fun _ => none, fun _ => none, []⟩

/-- A descriptor is put into a place; it is the socket opened last. -/
def store (s : RaceState T) (place : Place) (fd : Nat) : RaceState T :=
  { s with
    pool := s.pool.set place fd
    home := Function.update s.home s.sockets.count (some (place, fd))
    holder := Function.update s.holder place (some s.sockets.count)
    sockets := s.sockets.socket fd }

/-- One atomic step. -/
def step (s : RaceState T) : RaceAct T → Option (RaceState T)
  | .close thread conn connection =>
      if s.calls thread = none ∧ (s.home connection).map Prod.snd = some conn then
        some { s with
          sockets := s.sockets.close conn
          calls := Function.update s.calls thread (some (conn, connection))
          givenUp := connection :: s.givenUp }
      else none
  | .zero thread =>
      match s.calls thread with
      | none => none
      | some (conn, _) =>
          some { s with
            pool := s.pool.zero conn
            calls := Function.update s.calls thread none }
  | .create thread host port result =>
      if s.calls thread = none ∧ s.pool.fdAt (thread, host, port) ≤ 0 then
        match createConnection s.sockets result with
        | none => none
        | some (conn, k) =>
            if conn > 0 then some (s.store (thread, host, port) conn.toNat)
            else some { s with
              pool := s.pool.set (thread, host, port) conn
              holder := Function.update s.holder (thread, host, port) none
              sockets := k }
      else none

/-- Every connection that was stored, is still open and was not given up is in
its place. -/
def Kept (s : RaceState T) : Prop :=
  ∀ connection place fd, s.home connection = some (place, fd) →
    s.sockets.serial fd = some connection → connection ∉ s.givenUp → s.pool.fdAt place = fd

/-- A call that is about to zero the places of its descriptor finds nothing but
its own connection there. -/
def Precise (s : RaceState T) : Prop :=
  ∀ thread conn connection place, s.calls thread = some (conn, connection) →
    s.pool.fdAt place = conn → s.holder place = some connection

/-- The step does not confuse two connections with one descriptor:
`destoryConnection` is called for a connection that is still open, and no
connection gets the descriptor of one that is being given up. -/
def Timely (s : RaceState T) : RaceAct T → Prop
  | .close _ conn connection => s.sockets.serial conn = some connection
  | .zero _ => True
  | .create _ _ _ (.connected fd) => ∀ thread, (s.calls thread).map Prod.fst ≠ some fd
  | .create _ _ _ _ => True

instance (s : RaceState T) : (act : RaceAct T) → Decidable (s.Timely act)
  | .close _ conn connection =>
      inferInstanceAs (Decidable (s.sockets.serial conn = some connection))
  | .zero _ => isTrue trivial
  | .create _ _ _ (.connected fd) =>
      inferInstanceAs (Decidable (∀ thread, (s.calls thread).map Prod.fst ≠ some fd))
  | .create _ _ _ .noSocket => isTrue trivial
  | .create _ _ _ (.refused _) => isTrue trivial

end RaceState

/-! ## Sockets -/

theorem Sockets.serial_socket {k : Sockets} {fd fd' n : Nat}
    (h : (k.socket fd).serial fd' = some n) :
    (fd' = fd ∧ n = k.count) ∨ (fd' ≠ fd ∧ k.serial fd' = some n) := by
  unfold socket at h
  by_cases heq : fd' = fd
  · subst heq
    simp only [Function.update_self, Option.some.injEq] at h
    exact Or.inl ⟨rfl, h.symm⟩
  · simp only [Function.update_of_ne heq] at h
    exact Or.inr ⟨heq, h⟩

theorem Sockets.serial_socket_of_open {k : Sockets} {fd fd' n : Nat} (hnew : ¬ k.IsOpen fd)
    (h : k.serial fd' = some n) : (k.socket fd).serial fd' = some n := by
  have hne : fd' ≠ fd := by
    intro heq
    subst heq
    exact hnew (by simp [IsOpen, h])
  exact (Function.update_of_ne hne ..).trans h

theorem Sockets.serial_close {k : Sockets} {fd fd' n : Nat}
    (h : (k.close fd).serial fd' = some n) : fd' ≠ fd ∧ k.serial fd' = some n := by
  unfold close at h
  by_cases heq : fd' = fd
  · subst heq
    simp at h
  · simp only [Function.update_of_ne heq] at h
    exact ⟨heq, h⟩

namespace RaceState

variable {T : Nat}

/-! ## The invariant -/

/-- What holds in every state of a run of timely steps. -/
structure Sound (s : RaceState T) : Prop where
  kept : s.Kept
  /-- What has a descriptor that is being given up was not stored. -/
  pending : ∀ thread fd connection other, s.calls thread = some (fd, connection) →
    s.sockets.serial fd = some other → s.home other = none
  /-- A descriptor is given up by one call at a time. -/
  alone : ∀ thread thread' fd connection other, s.calls thread = some (fd, connection) →
    s.calls thread' = some (fd, other) → connection = other
  /-- A place holds a connection that is open or being given up. -/
  held : ∀ place (fd : Nat), 0 < fd → s.pool.slot place = some (fd : Int) →
    ∃ connection, s.holder place = some connection ∧ s.home connection = some (place, fd) ∧
      (s.sockets.serial fd = some connection ∨ ∃ thread, s.calls thread = some (fd, connection))
  homes : ∀ connection place fd, s.home connection = some (place, fd) →
    0 < fd ∧ connection < s.sockets.count
  serials : ∀ fd connection, s.sockets.serial fd = some connection →
    connection < s.sockets.count
  called : ∀ thread fd connection, s.calls thread = some (fd, connection) → 0 < fd

namespace Sound

variable {s : RaceState T}

/-- The connection in a place of a descriptor that is being given up is the one
the call was made for. -/
theorem holder_of_call (h : s.Sound) {thread : Fin T} {fd connection : Nat} {place : Place}
    (hcall : s.calls thread = some (fd, connection)) (hslot : s.pool.slot place = some (fd : Int)) :
    s.holder place = some connection ∧ s.home connection = some (place, fd) := by
  obtain ⟨other, hholder, hhome, hserial | ⟨thread', hcall'⟩⟩ :=
    h.held place fd (h.called thread fd connection hcall) hslot
  · have hnone := h.pending thread fd connection other hcall hserial
    rw [hhome] at hnone
    cases hnone
  · obtain rfl := h.alone thread thread' fd connection other hcall hcall'
    exact ⟨hholder, hhome⟩

theorem precise (h : s.Sound) : s.Precise := by
  intro thread conn connection place hcall hfd
  have hslot := (ConnPool.fdAt_eq_iff (h.called thread conn connection hcall)).mp hfd
  exact (h.holder_of_call hcall hslot).1

/-- No descriptor that is being given up is in two places. -/
theorem once (h : s.Sound) {thread : Fin T} {fd connection : Nat}
    (hcall : s.calls thread = some (fd, connection)) (a b : Place)
    (ha : s.pool.slot a = some (fd : Int)) (hb : s.pool.slot b = some (fd : Int)) : a = b := by
  have hhome := (h.holder_of_call hcall ha).2
  rw [(h.holder_of_call hcall hb).2] at hhome
  simpa using hhome.symm

/-- `close`, called for an open connection. -/
theorem close (h : s.Sound) {thread : Fin T} {conn connection : Nat} {place : Place}
    (hidle : s.calls thread = none) (hhome : s.home connection = some (place, conn))
    (hserial : s.sockets.serial conn = some connection) :
    ({ s with
      sockets := s.sockets.close conn
      calls := Function.update s.calls thread (some (conn, connection))
      givenUp := connection :: s.givenUp } : RaceState T).Sound := by
  have hcalls : ∀ t call, Function.update s.calls thread (some (conn, connection)) t = some call →
      (t = thread ∧ call = (conn, connection)) ∨ (t ≠ thread ∧ s.calls t = some call) := by
    intro t call ht
    by_cases hth : t = thread
    · subst hth
      simp only [Function.update_self, Option.some.injEq] at ht
      exact Or.inl ⟨rfl, ht.symm⟩
    · rw [Function.update_of_ne hth] at ht
      exact Or.inr ⟨hth, ht⟩
  -- nobody else is giving up this descriptor: it is that of a stored connection
  have hfree : ∀ t other, s.calls t ≠ some (conn, other) := by
    intro t other ht
    have hnone := h.pending t conn other connection ht hserial
    rw [hhome] at hnone
    cases hnone
  refine ⟨?_, ?_, ?_, ?_, h.homes, ?_, ?_⟩
  · intro n p fd hn hfd hgiven
    exact h.kept n p fd hn (Sockets.serial_close hfd).2 (fun hmem => hgiven (List.mem_cons_of_mem _ hmem))
  · intro t fd n other ht hother
    obtain ⟨hne, hold⟩ := Sockets.serial_close hother
    rcases hcalls t _ ht with ⟨_, heq⟩ | ⟨_, hcall⟩
    · exact absurd (congrArg Prod.fst heq) hne
    · exact h.pending t fd n other hcall hold
  · intro t t' fd n other ht ht'
    rcases hcalls t _ ht with ⟨_, heq⟩ | ⟨_, hcall⟩
    · rcases hcalls t' _ ht' with ⟨_, heq'⟩ | ⟨_, hcall'⟩
      · exact (congrArg Prod.snd heq).trans (congrArg Prod.snd heq').symm
      · rw [show fd = conn from congrArg Prod.fst heq] at hcall'
        exact absurd hcall' (hfree t' other)
    · rcases hcalls t' _ ht' with ⟨_, heq'⟩ | ⟨_, hcall'⟩
      · rw [show fd = conn from congrArg Prod.fst heq'] at hcall
        exact absurd hcall (hfree t n)
      · exact h.alone t t' fd n other hcall hcall'
  · intro p fd hfd hslot
    obtain ⟨n, hholder, hn, hopen | ⟨t, ht⟩⟩ := h.held p fd hfd hslot
    · by_cases hconn : fd = conn
      · subst hconn
        rw [hserial] at hopen
        obtain rfl := Option.some.inj hopen
        exact ⟨connection, hholder, hn, Or.inr ⟨thread, Function.update_self ..⟩⟩
      · refine ⟨n, hholder, hn, Or.inl ?_⟩
        simp only [Sockets.close, Function.update_of_ne hconn, hopen]
    · have hne : t ≠ thread := by
        intro heq
        rw [heq, hidle] at ht
        cases ht
      exact ⟨n, hholder, hn, Or.inr ⟨t, (Function.update_of_ne hne ..).trans ht⟩⟩
  · intro fd other hother
    exact h.serials fd other (Sockets.serial_close hother).2
  · intro t fd n ht
    rcases hcalls t _ ht with ⟨_, heq⟩ | ⟨_, hcall⟩
    · rw [show fd = conn from congrArg Prod.fst heq]
      exact (h.homes connection place conn hhome).1
    · exact h.called t fd n hcall

/-- The places of the descriptor are zeroed. -/
theorem zero (h : s.Sound) {thread : Fin T} {conn connection : Nat}
    (hcall : s.calls thread = some (conn, connection)) :
    ({ s with
      pool := s.pool.zero conn
      calls := Function.update s.calls thread none } : RaceState T).Sound := by
  have hpos := h.called thread conn connection hcall
  have hslots : ∀ p, (s.pool.zero conn).slot p =
      (s.pool.slot p).map (fun v => if v = (conn : Int) then 0 else v) :=
    ConnPool.slot_zero (h.once hcall)
  have hcalls : ∀ t call, Function.update s.calls thread none t = some call →
      s.calls t = some call := by
    intro t call ht
    by_cases hth : t = thread
    · subst hth
      simp at ht
    · rwa [Function.update_of_ne hth] at ht
  refine ⟨?_, ?_, ?_, ?_, h.homes, h.serials, ?_⟩
  · intro n p fd hn hopen hgiven
    have hfd := h.kept n p fd hn hopen hgiven
    -- what is given up was not stored, so this is another descriptor
    have hne : (fd : Int) ≠ conn := by
      intro heq
      obtain rfl : fd = conn := by omega
      have hnone := h.pending thread fd connection n hcall hopen
      rw [hn] at hnone
      cases hnone
    have hfdpos := (h.homes n p fd hn).1
    rw [ConnPool.fdAt_eq_iff hfdpos] at hfd ⊢
    rw [hslots, hfd, Option.map_some, if_neg hne]
  · intro t fd n other ht hother
    exact h.pending t fd n other (hcalls t _ ht) hother
  · intro t t' fd n other ht ht'
    exact h.alone t t' fd n other (hcalls t _ ht) (hcalls t' _ ht')
  · intro p fd hfd hslot
    rw [hslots] at hslot
    obtain ⟨v, hv, heq⟩ := Option.map_eq_some_iff.mp hslot
    split_ifs at heq with hvconn
    · omega
    · subst heq
      obtain ⟨n, hholder, hn, hopen | ⟨t, ht⟩⟩ := h.held p fd hfd hv
      · exact ⟨n, hholder, hn, Or.inl hopen⟩
      · have hne : t ≠ thread := by
          intro hth
          subst hth
          rw [hcall] at ht
          have hsame : conn = fd := congrArg Prod.fst (Option.some.inj ht)
          exact hvconn (by rw [hsame])
        exact ⟨n, hholder, hn, Or.inr ⟨t, (Function.update_of_ne hne ..).trans ht⟩⟩
  · intro t fd n ht
    exact h.called t fd n (hcalls t _ ht)

/-- A new connection takes a place that is not live. -/
theorem store (h : s.Sound) {place : Place} {fd : Nat} (hdead : s.pool.fdAt place ≤ 0)
    (hfd : 0 < fd) (hnew : ¬ s.sockets.IsOpen fd)
    (hfree : ∀ thread, (s.calls thread).map Prod.fst ≠ some fd) : (s.store place fd).Sound := by
  have hcall : ∀ thread fd' n, s.calls thread = some (fd', n) → fd' ≠ fd := by
    intro thread fd' n hthread heq
    subst heq
    exact hfree thread (by rw [hthread]; rfl)
  -- the serial number is new
  have hold : ∀ n, n ≠ s.sockets.count →
      Function.update s.home s.sockets.count (some (place, fd)) n = s.home n :=
    fun n hn => Function.update_of_ne hn ..
  refine ⟨?_, ?_, h.alone, ?_, ?_, ?_, h.called⟩
  · intro n p fd' hhome hopen hgiven
    have hslot : ∀ q, (s.store place fd).pool.fdAt q =
        if q = place then (fd : Int) else s.pool.fdAt q := by
      intro q
      simp only [RaceState.store, ConnPool.fdAt, ConnPool.slot_set]
      split_ifs <;> rfl
    rw [hslot]
    rcases Sockets.serial_socket hopen with ⟨rfl, rfl⟩ | ⟨hne, hopen'⟩
    · simp only [RaceState.store, Function.update_self, Option.some.injEq, Prod.mk.injEq] at hhome
      rw [if_pos hhome.1.symm]
    · have hn := Nat.ne_of_lt (h.serials fd' n hopen')
      have hhome' : s.home n = some (p, fd') := (hold n hn).symm.trans hhome
      have hkept := h.kept n p fd' hhome' hopen' hgiven
      have hpos := (h.homes n p fd' hhome').1
      rw [if_neg (fun heq => by rw [heq] at hkept; omega), hkept]
  · intro thread fd' n other hthread hopen
    rcases Sockets.serial_socket hopen with ⟨heq, _⟩ | ⟨_, hopen'⟩
    · exact absurd heq (hcall thread fd' n hthread)
    · exact (hold other (Nat.ne_of_lt (h.serials fd' other hopen'))).trans
        (h.pending thread fd' n other hthread hopen')
  · intro p fd' hpos hslot
    simp only [RaceState.store, ConnPool.slot_set] at hslot ⊢
    split_ifs at hslot with hp
    · subst hp
      obtain rfl := Int.ofNat.inj (Option.some.inj hslot)
      refine ⟨s.sockets.count, Function.update_self .., Function.update_self .., Or.inl ?_⟩
      exact Function.update_self ..
    · obtain ⟨n, hholder, hhome, hlive⟩ := h.held p fd' hpos hslot
      have hn := Nat.ne_of_lt (h.homes n p fd' hhome).2
      refine ⟨n, (Function.update_of_ne hp ..).trans hholder, (hold n hn).trans hhome, ?_⟩
      rcases hlive with hopen | hthread
      · exact Or.inl (Sockets.serial_socket_of_open hnew hopen)
      · exact Or.inr hthread
  · intro n p fd' hhome
    by_cases hn : n = s.sockets.count
    · subst hn
      simp only [RaceState.store, Function.update_self, Option.some.injEq, Prod.mk.injEq] at hhome
      rw [← hhome.2]
      exact ⟨hfd, Nat.lt_succ_self _⟩
    · obtain ⟨hpos, hlt⟩ := h.homes n p fd' ((hold n hn).symm.trans hhome)
      exact ⟨hpos, Nat.lt_succ_of_lt hlt⟩
  · intro fd' n hopen
    rcases Sockets.serial_socket hopen with ⟨_, rfl⟩ | ⟨_, hopen'⟩
    · exact Nat.lt_succ_self _
    · exact Nat.lt_succ_of_lt (h.serials fd' n hopen')

/-- A socket that is not stored changes nothing. -/
theorem socket (h : s.Sound) {fd : Nat} (hnew : ¬ s.sockets.IsOpen fd) :
    ({ s with sockets := s.sockets.socket fd } : RaceState T).Sound := by
  -- the new serial number has no place
  have hcount : s.home s.sockets.count = none := by
    cases hhome : s.home s.sockets.count with
    | none => rfl
    | some e => exact absurd (h.homes _ e.1 e.2 hhome).2 (Nat.lt_irrefl _)
  refine ⟨?_, ?_, h.alone, ?_, ?_, ?_, h.called⟩
  · intro n p fd' hhome hopen hgiven
    rcases Sockets.serial_socket hopen with ⟨_, rfl⟩ | ⟨_, hopen'⟩
    · simp only [hcount, reduceCtorEq] at hhome
    · exact h.kept n p fd' hhome hopen' hgiven
  · intro thread fd' n other hthread hopen
    rcases Sockets.serial_socket hopen with ⟨_, rfl⟩ | ⟨_, hopen'⟩
    · exact hcount
    · exact h.pending thread fd' n other hthread hopen'
  · intro p fd' hpos hslot
    obtain ⟨n, hholder, hhome, hopen | hthread⟩ := h.held p fd' hpos hslot
    · exact ⟨n, hholder, hhome, Or.inl (Sockets.serial_socket_of_open hnew hopen)⟩
    · exact ⟨n, hholder, hhome, Or.inr hthread⟩
  · intro n p fd' hhome
    obtain ⟨hpos, hlt⟩ := h.homes n p fd' hhome
    exact ⟨hpos, Nat.lt_succ_of_lt hlt⟩
  · intro fd' n hopen
    rcases Sockets.serial_socket hopen with ⟨_, rfl⟩ | ⟨_, hopen'⟩
    · exact Nat.lt_succ_self _
    · exact Nat.lt_succ_of_lt (h.serials fd' n hopen')

/-- A failed attempt is noted in a place that is not live. -/
theorem storeFailed (h : s.Sound) {place : Place} (hdead : s.pool.fdAt place ≤ 0) :
    ({ s with
      pool := s.pool.set place (-1)
      holder := Function.update s.holder place none } : RaceState T).Sound := by
  refine ⟨?_, h.pending, h.alone, ?_, h.homes, h.serials, h.called⟩
  · intro n p fd hhome hopen hgiven
    have hkept := h.kept n p fd hhome hopen hgiven
    have hpos := (h.homes n p fd hhome).1
    have hp : p ≠ place := by
      intro heq
      rw [heq] at hkept
      omega
    rw [← hkept]
    simp only [ConnPool.fdAt, ConnPool.slot_set, if_neg hp]
  · intro p fd hpos hslot
    simp only [ConnPool.slot_set] at hslot
    split_ifs at hslot with hp
    · have hneg := Option.some.inj hslot
      omega
    · obtain ⟨n, hholder, hlive⟩ := h.held p fd hpos hslot
      exact ⟨n, (Function.update_of_ne hp ..).trans hholder, hlive⟩

/-- **One step** that is timely keeps the invariant. -/
theorem step {act : RaceAct T} {s' : RaceState T} (h : s.Sound) (htimely : s.Timely act)
    (hstep : s.step act = some s') : s'.Sound := by
  cases act with
  | close thread conn connection =>
      simp only [RaceState.step] at hstep
      split_ifs at hstep with hguard
      obtain rfl := Option.some.inj hstep
      obtain ⟨⟨place, fd⟩, hhome, rfl⟩ := Option.map_eq_some_iff.mp hguard.2
      exact h.close hguard.1 hhome htimely
  | zero thread =>
      cases hcall : s.calls thread with
      | none => simp [RaceState.step, hcall] at hstep
      | some call =>
          simp only [RaceState.step, hcall, Option.some.injEq] at hstep
          subst hstep
          exact h.zero hcall
  | create thread host port result =>
      simp only [RaceState.step] at hstep
      split_ifs at hstep with hguard
      cases result with
      | noSocket =>
          simp only [createConnection] at hstep
          rw [if_neg (by decide)] at hstep
          obtain rfl := Option.some.inj hstep
          exact h.storeFailed hguard.2
      | refused fd =>
          simp only [createConnection] at hstep
          split_ifs at hstep with hfd
          simp only at hstep
          rw [if_neg (by decide)] at hstep
          obtain rfl := Option.some.inj hstep
          exact (h.socket hfd.2).storeFailed hguard.2
      | connected fd =>
          simp only [createConnection] at hstep
          split_ifs at hstep with hfd
          simp only at hstep
          rw [if_pos (by omega)] at hstep
          obtain rfl := Option.some.inj hstep
          exact h.store hguard.2 hfd.1 hfd.2 htimely

end Sound

theorem sound_new : (new : RaceState T).Sound := by
  refine ⟨?_, ?_, ?_, ?_, ?_, ?_, ?_⟩
  · intro n p fd hhome
    exact absurd hhome (by simp [new])
  all_goals simp [new, Sockets.new, ConnPool.new, ConnPool.slot]

/-- **Connections are kept** in every run whose steps are timely: one that is
open stays in its place until it is given up, and giving one up zeroes nothing
but its own place. -/
theorem connections_kept {acts : List (RaceAct T)} {s : RaceState T}
    (htimely : Steps.EveryStep step Timely new acts) (h : Steps.run step new acts = some s) :
    s.Kept ∧ s.Precise := by
  have hsound := Steps.run_invariant Sound (fun _ _ _ hs hact hstep => hs.step hact hstep)
    sound_new htimely h
  exact ⟨hsound.kept, hsound.precise⟩

/-- The first of two threads. -/
def threadA : Fin 2 := ⟨0, Nat.zero_lt_two⟩

/-- The second of two threads. -/
def threadB : Fin 2 := ⟨1, Nat.one_lt_two⟩

/-- Two threads connect to a host; the first gives its connection up and
connects again, with the same descriptor. -/
def reconnectActs : List (RaceAct 2) :=
  [.create threadA "127.0.0.1".toList 11211 (.connected 5),
    .create threadB "127.0.0.1".toList 11211 (.connected 6), .close threadA 5 0, .zero threadA,
    .create threadA "127.0.0.1".toList 11211 (.connected 5)]

theorem connections_kept_reconnect :
    ∃ s, Steps.run step new reconnectActs = some s ∧ s.Kept ∧ s.Precise := by
  have hrun : (Steps.run step new reconnectActs).isSome := by decide +kernel
  obtain ⟨s, hs⟩ := Option.isSome_iff_exists.mp hrun
  exact ⟨s, hs, connections_kept (by decide +kernel) hs⟩

/-- The second thread connects between the two steps of the first. -/
def reusedActs : List (RaceAct 2) :=
  [.create threadA "127.0.0.1".toList 11211 (.connected 5), .close threadA 5 0,
    .create threadB "127.0.0.1".toList 11211 (.connected 5)]

/-- **The race.**  The second thread gets the descriptor that the first has
closed; the first then zeroes the place of the new connection, which is open
and was given up by nobody. -/
theorem connection_lost :
    (∃ s : RaceState 2, Steps.run step new reusedActs = some s ∧ ¬ s.Precise) ∧
    ∃ s : RaceState 2, Steps.run step new (reusedActs ++ [.zero threadA]) = some s ∧ ¬ s.Kept := by
  refine ⟨⟨_, rfl, ?_⟩, ⟨_, rfl, ?_⟩⟩
  · intro h
    have hholder := h threadA 5 0 (1, "127.0.0.1".toList, 11211) (by decide +kernel) (by decide +kernel)
    revert hholder
    decide +kernel
  · intro h
    have hfd := h 1 (1, "127.0.0.1".toList, 11211) 5 (by decide +kernel) (by decide +kernel)
      (by decide +kernel)
    revert hfd
    decide +kernel

end RaceState

end KvProxy
