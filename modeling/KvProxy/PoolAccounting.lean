import KvProxy.ConnPool
import KvProxy.Lib.Steps

/-!
# Every open socket is in the pool

The pool should know every backend socket that is open: the descriptors in its
places are the open ones, each in one place, apart from the one the health
thread has just opened to try a host.  `getConnectionSize` should report how
many they are.

Three things break that.  A socket whose `connect` fails is not closed; a
second `initConnection` for a host, which `setHosts` makes for a host of
several groups, takes the places of live connections; and `getConnectionSize`
counts the places of connections that were given up, or never made.

* `Accounted.step` — a step that does none of the first two keeps the account;
* `pool_accounted` — so does a run, and then the number is right exactly when
  no place is dead;
* `pool_leaks` — the three defects.
-/

namespace KvProxy

/-- The pool, the kernel, and the descriptor the health thread holds. -/
structure PoolState where
  pool : ConnPool
  sockets : Sockets
  health : Option Nat

/-- The calls of the pool, with what the kernel does to each. -/
inductive PoolOp where
  | init (host : Text) (port : Nat) (results : List ConnectResult)
  | get (place : Place) (result : ConnectResult)
  | destroy (conn : Int)
  | healthCreate (result : ConnectResult)
  | healthClose

namespace PoolState

/-- Before the first call. -/
def new : PoolState := ⟨.new, .new, none⟩

/-- One call.  The health thread closes what it has opened before it opens
something else. -/
def step (s : PoolState) : PoolOp → Option PoolState
  | .init host port results =>
      (ConnPool.initConnection host port results 0 (s.pool, s.sockets)).map
        (fun r => { s with pool := r.1, sockets := r.2 })
  | .get place result =>
      (ConnPool.getConnection place result (s.pool, s.sockets)).map
        (fun r => { s with pool := r.2.1, sockets := r.2.2 })
  | .destroy conn =>
      let r := ConnPool.destoryConnection conn (s.pool, s.sockets)
      some { s with pool := r.1, sockets := r.2 }
  | .healthCreate result =>
      if s.health = none then
        (createConnection s.sockets result).map (fun r =>
          { s with sockets := r.2, health := if r.1 > (0 : Int) then some r.1.toNat else none })
      else none
  | .healthClose =>
      match s.health with
      | none => none
      | some fd =>
          some { s with sockets := ConnPool.closeConnection (fd : Int) s.sockets, health := none }

/-- The open sockets are the descriptors in the places, and the one of the
health thread; no descriptor is in two places, nor is that of the health thread
in one. -/
structure Accounted (s : PoolState) : Prop where
  opened : ∀ fd : Nat, s.sockets.IsOpen fd ↔
    (0 < fd ∧ ∃ place, s.pool.slot place = some (fd : Int)) ∨ s.health = some fd
  once : ∀ (fd : Nat) a b, 0 < fd → s.pool.slot a = some (fd : Int) →
    s.pool.slot b = some (fd : Int) → a = b
  held : ∀ fd : Nat, s.health = some fd → 0 < fd ∧ ∀ a, s.pool.slot a ≠ some (fd : Int)

/-- The live connections in the places. -/
def live (s : PoolState) : List (Place × Int) := s.pool.slots.filter (fun e => 0 < e.2)

/-- `getConnectionSize` reports the number of live connections. -/
def CountsLive (s : PoolState) : Prop := s.pool.getConnectionSize = s.live.length

/-- Every place holds a connection. -/
def NoDeadPlace (s : PoolState) : Prop := ∀ place v, s.pool.slot place = some v → 0 < v

end PoolState

/-- No socket is left behind by the attempt. -/
def ConnectResult.Clean : ConnectResult → Prop
  | .refused _ => False
  | _ => True

instance : (r : ConnectResult) → Decidable r.Clean
  | .refused _ => isFalse id
  | .noSocket => isTrue trivial
  | .connected _ => isTrue trivial

namespace PoolState

/-- The call leaves no socket behind: every `connect` on a socket succeeds, no
connection is put over a live one, and the descriptor of the health thread is
given up by nobody else. -/
def Lossless (s : PoolState) : PoolOp → Prop
  | .init host port results => ∀ e ∈ results.zipIdx,
      e.1.Clean ∧ (e.1 = .noSocket ∨ s.pool.fdAt (e.2, host, port) ≤ 0)
  | .get place result => 0 < s.pool.fdAt place ∨ result.Clean
  | .destroy conn => ∀ fd ∈ s.health, conn ≠ (fd : Int)
  | .healthCreate result => result.Clean
  | .healthClose => True

instance (s : PoolState) : (op : PoolOp) → Decidable (s.Lossless op)
  | .init host port results => inferInstanceAs (Decidable (∀ e ∈ results.zipIdx,
      e.1.Clean ∧ (e.1 = .noSocket ∨ s.pool.fdAt (e.2, host, port) ≤ 0)))
  | .get place result => inferInstanceAs (Decidable (0 < s.pool.fdAt place ∨ result.Clean))
  | .destroy conn => inferInstanceAs (Decidable (∀ fd ∈ s.health, conn ≠ (fd : Int)))
  | .healthCreate result => inferInstanceAs (Decidable result.Clean)
  | .healthClose => isTrue trivial

end PoolState

/-! ## Sockets -/

theorem Sockets.isOpen_socket (k : Sockets) (fd fd' : Nat) :
    (k.socket fd).IsOpen fd' ↔ fd' = fd ∨ k.IsOpen fd' := by
  unfold IsOpen socket
  by_cases h : fd' = fd
  · subst h
    simp
  · simp [h]

theorem Sockets.isOpen_close (k : Sockets) (fd fd' : Nat) :
    (k.close fd).IsOpen fd' ↔ fd' ≠ fd ∧ k.IsOpen fd' := by
  unfold IsOpen close
  by_cases h : fd' = fd
  · subst h
    simp
  · simp [h]

/-- A clean attempt opens one new socket and returns it, or does nothing. -/
theorem createConnection_clean {k k' : Sockets} {result : ConnectResult} {conn : Int}
    (hclean : result.Clean) (h : createConnection k result = some (conn, k')) :
    (conn = -1 ∧ k' = k) ∨ result ≠ .noSocket ∧
      ∃ fd : Nat, 0 < fd ∧ ¬ k.IsOpen fd ∧ conn = fd ∧ k' = k.socket fd := by
  cases result with
  | noSocket =>
      obtain ⟨rfl, rfl⟩ : -1 = conn ∧ k = k' := by simpa [createConnection] using h
      exact Or.inl ⟨rfl, rfl⟩
  | refused fd => exact absurd hclean (by simp [ConnectResult.Clean])
  | connected fd =>
      rw [createConnection] at h
      split_ifs at h with hfd
      obtain ⟨rfl, rfl⟩ : (fd : Int) = conn ∧ k.socket fd = k' := by simpa using h
      exact Or.inr ⟨by simp, fd, hfd.1, hfd.2, rfl, rfl⟩

namespace PoolState.Accounted

variable {s : PoolState}

/-- A place that is not live holds no descriptor. -/
theorem dead_place {place : Place} (hdead : s.pool.fdAt place ≤ 0) {fd : Nat} (hfd : 0 < fd) :
    s.pool.slot place ≠ some (fd : Int) := by
  intro h
  simp [ConnPool.fdAt, h] at hdead
  omega

/-- A new connection takes a place that is not live. -/
theorem store (h : s.Accounted) {place : Place} (hdead : s.pool.fdAt place ≤ 0) {fd : Nat}
    (hfd : 0 < fd) (hnew : ¬ s.sockets.IsOpen fd) :
    ({ s with pool := s.pool.set place fd, sockets := s.sockets.socket fd } : PoolState).Accounted := by
  -- the new descriptor is in no other place and not the health thread's
  have hnowhere : ∀ a, s.pool.slot a ≠ some (fd : Int) :=
    fun a ha => hnew ((h.opened fd).mpr (Or.inl ⟨hfd, a, ha⟩))
  have hhealth : s.health ≠ some fd := fun hh => hnew ((h.opened fd).mpr (Or.inr hh))
  have hslot : ∀ (fd' : Nat) a, 0 < fd' →
      ((s.pool.set place fd).slot a = some (fd' : Int) ↔
        (a = place ∧ fd' = fd) ∨ s.pool.slot a = some (fd' : Int)) := by
    intro fd' a hpos
    rw [ConnPool.slot_set]
    split_ifs with ha
    · subst ha
      have hno := dead_place hdead hpos
      simp only [Option.some.injEq, Int.natCast_inj, true_and, hno, or_false]
      exact eq_comm
    · simp [ha]
  refine ⟨?_, ?_, ?_⟩
  · intro fd'
    simp only
    rw [Sockets.isOpen_socket, h.opened fd']
    constructor
    · intro hcases
      rcases hcases with rfl | ⟨hpos, a, ha⟩ | hh
      · exact Or.inl ⟨hfd, place, (hslot fd' place hfd).mpr (Or.inl ⟨rfl, rfl⟩)⟩
      · exact Or.inl ⟨hpos, a, (hslot fd' a hpos).mpr (Or.inr ha)⟩
      · exact Or.inr hh
    · intro hcases
      rcases hcases with ⟨hpos, a, ha⟩ | hh
      · rcases (hslot fd' a hpos).mp ha with ⟨_, rfl⟩ | hold
        · exact Or.inl rfl
        · exact Or.inr (Or.inl ⟨hpos, a, hold⟩)
      · exact Or.inr (Or.inr hh)
  · intro fd' a b hpos ha hb
    rcases (hslot fd' a hpos).mp ha with ⟨rfl, rfl⟩ | ha'
    · rcases (hslot fd' b hpos).mp hb with ⟨rfl, _⟩ | hb'
      · rfl
      · exact absurd hb' (hnowhere b)
    · rcases (hslot fd' b hpos).mp hb with ⟨rfl, rfl⟩ | hb'
      · exact absurd ha' (hnowhere a)
      · exact h.once fd' a b hpos ha' hb'
  · intro fd' hh
    obtain ⟨hpos, hapart⟩ := h.held fd' hh
    refine ⟨hpos, ?_⟩
    intro a ha
    rcases (hslot fd' a hpos).mp ha with ⟨_, rfl⟩ | hold
    · exact hhealth hh
    · exact hapart a hold

/-- A failed attempt is noted in a place that is not live. -/
theorem storeFailed (h : s.Accounted) {place : Place} (hdead : s.pool.fdAt place ≤ 0) :
    ({ s with pool := s.pool.set place (-1) } : PoolState).Accounted := by
  have hslot : ∀ (fd : Nat) a, 0 < fd →
      ((s.pool.set place (-1)).slot a = some (fd : Int) ↔ s.pool.slot a = some (fd : Int)) := by
    intro fd a hpos
    rw [ConnPool.slot_set]
    split_ifs with ha
    · subst ha
      have hno := dead_place hdead hpos
      have hneg : (-1 : Int) ≠ fd := by omega
      simp [hno, hneg]
    · rfl
  refine ⟨?_, ?_, ?_⟩
  · intro fd
    simp only
    rw [h.opened fd]
    refine or_congr_left (and_congr_right (fun hpos => exists_congr (fun a => ?_)))
    exact (hslot fd a hpos).symm
  · intro fd a b hpos ha hb
    exact h.once fd a b hpos ((hslot fd a hpos).mp ha) ((hslot fd b hpos).mp hb)
  · intro fd hh
    obtain ⟨hpos, hapart⟩ := h.held fd hh
    exact ⟨hpos, fun a ha => hapart a ((hslot fd a hpos).mp ha)⟩

/-- The loop of `initConnection`. -/
theorem initConnection {host : Text} {port : Nat} {results : List ConnectResult} {id : Nat}
    {r : ConnPool × Sockets} (h : s.Accounted)
    (hlossless : ∀ e ∈ results.zipIdx id,
      e.1.Clean ∧ (e.1 = .noSocket ∨ s.pool.fdAt (e.2, host, port) ≤ 0))
    (hinit : ConnPool.initConnection host port results id (s.pool, s.sockets) = some r) :
    ({ s with pool := r.1, sockets := r.2 } : PoolState).Accounted := by
  induction results generalizing id s with
  | nil =>
      obtain rfl := Option.some.inj hinit
      exact h
  | cons result rest ih =>
      rw [List.zipIdx_cons, List.forall_mem_cons] at hlossless
      obtain ⟨⟨hclean, hdead⟩, hrest⟩ := hlossless
      rw [ConnPool.initConnection] at hinit
      cases hcreate : createConnection s.sockets result with
      | none => simp [hcreate] at hinit
      | some out =>
          obtain ⟨conn, k⟩ := out
          simp only [hcreate] at hinit
          rcases createConnection_clean hclean hcreate with
            ⟨rfl, rfl⟩ | ⟨hsocket, fd, hfd, hnew, rfl, rfl⟩
          · rw [if_neg (by decide)] at hinit
            exact ih h hrest hinit
          · rw [if_pos (by omega)] at hinit
            have hstore := h.store (hdead.resolve_left hsocket) hfd hnew
            refine ih (s := { s with
              pool := s.pool.set (id, host, port) fd
              sockets := s.sockets.socket fd }) hstore (fun e he => ?_) hinit
            -- the places of the threads still to come are as they were
            have hlater := List.le_snd_of_mem_zipIdx he
            have hother : ((e.2, host, port) : Place) ≠ (id, host, port) := by
              intro heq
              have := congrArg Prod.fst heq
              simp only at this
              omega
            have hsame : (s.pool.set (id, host, port) fd).fdAt (e.2, host, port) =
                s.pool.fdAt (e.2, host, port) := by
              simp only [ConnPool.fdAt, ConnPool.slot_set, if_neg hother]
            rw [hsame]
            exact hrest e he

/-- A connection is given up. -/
theorem destroy (h : s.Accounted) {fd : Nat} (hfd : 0 < fd) (hhealth : s.health ≠ some fd) :
    ({ s with pool := s.pool.zero fd, sockets := s.sockets.close fd } : PoolState).Accounted := by
  have hslot : ∀ (fd' : Nat) a, 0 < fd' → ((s.pool.zero fd).slot a = some (fd' : Int) ↔
      fd' ≠ fd ∧ s.pool.slot a = some (fd' : Int)) := by
    intro fd' a hpos
    rw [ConnPool.slot_zero (fun a b => h.once fd a b hfd), Option.map_eq_some_iff]
    constructor
    · intro hcases
      obtain ⟨v, hv, heq⟩ := hcases
      split_ifs at heq with hvfd
      · omega
      · subst heq
        exact ⟨fun hsame => hvfd (by rw [hsame]), hv⟩
    · intro hcases
      obtain ⟨hne, hv⟩ := hcases
      exact ⟨fd', hv, if_neg (by omega)⟩
  refine ⟨?_, ?_, ?_⟩
  · intro fd'
    simp only
    rw [Sockets.isOpen_close, h.opened fd']
    constructor
    · intro hcases
      obtain ⟨hne, ⟨hpos, a, ha⟩ | hh⟩ := hcases
      · exact Or.inl ⟨hpos, a, (hslot fd' a hpos).mpr ⟨hne, ha⟩⟩
      · exact Or.inr hh
    · intro hcases
      rcases hcases with ⟨hpos, a, ha⟩ | hh
      · obtain ⟨hne, hold⟩ := (hslot fd' a hpos).mp ha
        exact ⟨hne, Or.inl ⟨hpos, a, hold⟩⟩
      · exact ⟨fun heq => hhealth (heq ▸ hh), Or.inr hh⟩
  · intro fd' a b hpos ha hb
    exact h.once fd' a b hpos ((hslot fd' a hpos).mp ha).2 ((hslot fd' b hpos).mp hb).2
  · intro fd' hh
    obtain ⟨hpos, hapart⟩ := h.held fd' hh
    exact ⟨hpos, fun a ha => hapart a ((hslot fd' a hpos).mp ha).2⟩

/-- `getConnection` keeps the account when it finds a live connection, or leaves
no socket behind. -/
theorem getConnection {place : Place} {result : ConnectResult} {r : Int × (ConnPool × Sockets)}
    (h : s.Accounted) (hlossless : s.Lossless (.get place result))
    (hr : ConnPool.getConnection place result (s.pool, s.sockets) = some r) :
    PoolState.Accounted ⟨r.2.1, r.2.2, s.health⟩ := by
  rw [ConnPool.getConnection] at hr
  split_ifs at hr with hlive
  · obtain rfl := Option.some.inj hr
    exact h
  · cases hcreate : createConnection s.sockets result with
    | none => simp [hcreate] at hr
    | some out =>
        obtain ⟨conn, k⟩ := out
        simp only [hcreate, Option.some.injEq] at hr
        subst hr
        have hdead : s.pool.fdAt place ≤ 0 := by simpa using hlive
        have hclean : result.Clean := by
          rcases hlossless with hpos | hclean
          · omega
          · exact hclean
        rcases createConnection_clean hclean hcreate with
          ⟨rfl, rfl⟩ | ⟨_, fd, hfd, hnew, rfl, rfl⟩
        · exact h.storeFailed hdead
        · exact h.store hdead hfd hnew

/-- The health thread holds the descriptor it has just opened. -/
theorem healthCreated (h : s.Accounted) (hnone : s.health = none) {fd : Nat} (hfd : 0 < fd)
    (hnew : ¬ s.sockets.IsOpen fd) :
    PoolState.Accounted ⟨s.pool, s.sockets.socket fd, some fd⟩ := by
  refine ⟨?_, h.once, ?_⟩
  · intro fd'
    simp only [Option.some.injEq]
    rw [Sockets.isOpen_socket, h.opened fd', hnone]
    simp [or_comm, eq_comm]
  · intro fd' hh
    obtain rfl := Option.some.inj hh
    exact ⟨hfd, fun a ha => hnew ((h.opened _).mpr (Or.inl ⟨hfd, a, ha⟩))⟩

/-- The health thread closes the descriptor it holds, which no place has. -/
theorem healthClosed (h : s.Accounted) {fd : Nat} (hhealth : s.health = some fd) :
    PoolState.Accounted ⟨s.pool, s.sockets.close fd, none⟩ := by
  obtain ⟨_, hapart⟩ := h.held fd hhealth
  refine ⟨?_, h.once, fun _ hh => absurd hh (by simp)⟩
  intro fd'
  simp only
  rw [Sockets.isOpen_close, h.opened fd', hhealth]
  constructor
  · intro hcases
    obtain ⟨hne, hplace | hheld⟩ := hcases
    · exact Or.inl hplace
    · exact absurd (Option.some.inj hheld).symm hne
  · intro hcases
    rcases hcases with ⟨hpos, a, ha⟩ | hheld
    · refine ⟨?_, Or.inl ⟨hpos, a, ha⟩⟩
      intro heq
      subst heq
      exact hapart a ha
    · exact absurd hheld (by simp)

/-- **One call** that leaves no socket behind keeps the account. -/
theorem step {op : PoolOp} {s' : PoolState} (h : s.Accounted) (hlossless : s.Lossless op)
    (hstep : s.step op = some s') : s'.Accounted := by
  cases op with
  | init host port results =>
      obtain ⟨r, hr, rfl⟩ := Option.map_eq_some_iff.mp hstep
      exact h.initConnection hlossless hr
  | get place result =>
      obtain ⟨r, hr, rfl⟩ := Option.map_eq_some_iff.mp hstep
      exact h.getConnection hlossless hr
  | destroy conn =>
      obtain rfl := Option.some.inj hstep
      unfold ConnPool.destoryConnection
      split_ifs with hconn
      · exact h
      · have hcast : conn = (conn.toNat : Int) := by omega
        have hpos : 0 < conn.toNat := by omega
        have hgiven := h.destroy hpos (fun hh => hlossless conn.toNat hh hcast)
        rw [← hcast] at hgiven
        exact hgiven
  | healthCreate result =>
      rw [PoolState.step] at hstep
      split_ifs at hstep with hnone
      obtain ⟨⟨conn, k⟩, hr, rfl⟩ := Option.map_eq_some_iff.mp hstep
      rcases createConnection_clean hlossless hr with
        ⟨rfl, rfl⟩ | ⟨_, fd, hfd, hnew, rfl, rfl⟩
      · have hneg : ¬ ((-1 : Int) > 0) := by decide
        simp only [hneg, if_false]
        rw [← hnone]
        exact h
      · have hpos : ((fd : Nat) : Int) > 0 := by omega
        simp only [hpos, if_true, Int.toNat_natCast]
        exact h.healthCreated hnone hfd hnew
  | healthClose =>
      cases hhealth : s.health with
      | none => simp [PoolState.step, hhealth] at hstep
      | some fd =>
          simp only [PoolState.step, hhealth, Option.some.injEq] at hstep
          subst hstep
          obtain ⟨hfd, _⟩ := h.held fd hhealth
          have hclose : ConnPool.closeConnection (fd : Int) s.sockets = s.sockets.close fd := by
            unfold ConnPool.closeConnection
            rw [if_pos (by omega), Int.toNat_natCast]
          rw [hclose]
          exact h.healthClosed hhealth

end PoolState.Accounted

namespace PoolState

theorem accounted_new : new.Accounted := by
  refine ⟨?_, ?_, ?_⟩
  · intro fd
    simp [new, Sockets.IsOpen, Sockets.new, ConnPool.new, ConnPool.slot]
  · intro fd a b _ ha _
    exact absurd ha (by simp [new, ConnPool.new, ConnPool.slot])
  · intro fd hh
    exact absurd hh (by simp [new])

/-- The number is right exactly when every place is counted rightly. -/
theorem countsLive_iff (s : PoolState) : s.CountsLive ↔ s.NoDeadPlace := by
  unfold CountsLive NoDeadPlace live
  rw [ConnPool.length_slots, eq_comm, List.length_filter_eq_length_iff]
  constructor
  · intro h place v hslot
    simpa using h (place, v) (ConnPool.mem_slots.mpr hslot)
  · intro h e he
    simpa using h e.1 e.2 (ConnPool.mem_slots.mp he)

/-- **The pool accounts for every open socket** in every run whose calls leave
none behind; what `getConnectionSize` reports is then the number of live
connections exactly when no place is dead. -/
theorem pool_accounted {ops : List PoolOp} {s : PoolState}
    (hlossless : Steps.EveryStep step Lossless new ops) (h : Steps.run step new ops = some s) :
    s.Accounted ∧ (s.CountsLive ↔ s.NoDeadPlace) :=
  ⟨Steps.run_invariant Accounted (fun _ _ _ hs hop hstep => hs.step hop hstep) accounted_new
    hlossless h, s.countsLive_iff⟩

/-- A host of the tests. -/
def localhost : Text := "127.0.0.1".toList

/-- One thread connects, its connection breaks and is replaced, and the health
thread tries the host. -/
def replacedOps : List PoolOp :=
  [.init localhost 11211 [.connected 5], .destroy 5, .get (0, localhost, 11211) (.connected 6),
    .healthCreate (.connected 5), .healthClose]

theorem pool_accounted_replaced :
    ∃ s, Steps.run step new replacedOps = some s ∧ s.Accounted ∧
      (s.CountsLive ↔ s.NoDeadPlace) := by
  have hrun : (Steps.run step new replacedOps).isSome := by decide +kernel
  obtain ⟨s, hs⟩ := Option.isSome_iff_exists.mp hrun
  exact ⟨s, hs, pool_accounted (by decide +kernel) hs⟩

/-- **The account is lost** by a refused connect, by a second
`initConnection` for a host, and, in the number, by giving up a connection. -/
theorem pool_leaks :
    (∃ s, Steps.run step new [.healthCreate (.refused 5)] = some s ∧ ¬ s.Accounted) ∧
    (∃ s, Steps.run step new [.init localhost 11211 [.connected 5],
      .init localhost 11211 [.connected 6]] = some s ∧ ¬ s.Accounted) ∧
    (∃ s, Steps.run step new [.init localhost 11211 [.connected 5], .destroy 5] = some s ∧
      s.pool.getConnectionSize = 1 ∧ s.live = [] ∧ ¬ s.CountsLive) := by
  refine ⟨⟨_, rfl, ?_⟩, ⟨_, rfl, ?_⟩, ⟨_, rfl, by decide +kernel, by decide +kernel, ?_⟩⟩
  · intro h
    rcases (h.opened 5).mp (by decide) with ⟨_, a, ha⟩ | hh
    · exact absurd ha (by simp [new, ConnPool.new, ConnPool.slot])
    · exact absurd hh (by decide)
  · -- descriptor `5` is open, and `6` has taken its place
    intro h
    rcases (h.opened 5).mp (by decide +kernel) with ⟨_, a, ha⟩ | hh
    · have hslot : (((ConnPool.new.set (0, localhost, 11211) 5).set
          (0, localhost, 11211) 6).slot a) = some (5 : Int) := ha
      rw [ConnPool.slot_set, ConnPool.slot_set] at hslot
      split_ifs at hslot
      · exact absurd hslot (by decide)
      · exact absurd hslot (by simp [ConnPool.new, ConnPool.slot])
    · exact absurd hh (by decide)
  · unfold CountsLive
    decide +kernel

end PoolState

end KvProxy
