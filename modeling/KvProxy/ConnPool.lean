import KvProxy.ConsistentHash

/-!
# The connection pool

`ConnPool` of `conn_pool.cpp`: a table with one place per thread, host and
port, which holds the descriptor of an open connection, `0` after the
connection was given up, or `-1` after a failed attempt.

The kernel is part of the state: it knows the descriptors that are open, and
which socket each of them is.  Descriptors are reused, so every socket carries
the number of sockets opened before it.  A new descriptor is positive, because
`0` is the standard input of the process, and not open.

* `slot_set` / `slot_zero` — what the two updates of the table do to a place;
* `length_slots` — `getConnectionSize` counts places, not connections.
-/

namespace KvProxy

/-! ## Sockets -/

/-- The open sockets by descriptor, each with its serial number, and how many
were opened so far. -/
structure Sockets where
  serial : Nat → Option Nat
  count : Nat

namespace Sockets

/-- No socket is open. -/
def new : Sockets := ⟨fun _ => none, 0⟩

/-- The descriptor is open. -/
def IsOpen (k : Sockets) (fd : Nat) : Prop := k.serial fd ≠ none

instance (k : Sockets) (fd : Nat) : Decidable (k.IsOpen fd) :=
  inferInstanceAs (Decidable (k.serial fd ≠ none))

/-- `socket()` with the descriptor it returns. -/
def socket (k : Sockets) (fd : Nat) : Sockets :=
  ⟨Function.update k.serial fd (some k.count), k.count + 1⟩

/-- `close(fd)`; closing a descriptor that is not open does nothing. -/
def close (k : Sockets) (fd : Nat) : Sockets :=
  { k with serial := Function.update k.serial fd none }

end Sockets

/-- How an attempt to connect goes: there is no socket, or there is one, on
which `connect` fails or succeeds. -/
inductive ConnectResult where
  | noSocket
  | refused (fd : Nat)
  | connected (fd : Nat)
  deriving DecidableEq, Repr

/-- `createConnection(host, port)`: what it returns, and the open sockets
afterwards.  `none` where the kernel cannot return that descriptor.  When
`connect` fails the socket stays open. -/
def createConnection (k : Sockets) : ConnectResult → Option (Int × Sockets)
  | .noSocket => some (-1, k)
  | .refused fd => if 0 < fd ∧ ¬ k.IsOpen fd then some (-1, k.socket fd) else none
  | .connected fd => if 0 < fd ∧ ¬ k.IsOpen fd then some (fd, k.socket fd) else none

/-! ## The table -/

/-- A place in the pool: thread, host and port. -/
abbrev Place := Nat × Text × Nat

/-- `conn_list`. -/
structure ConnPool where
  connList : SortedMap Nat (SortedMap Text (SortedMap Nat Int))

namespace ConnPool

/-- The empty pool. -/
def new : ConnPool := ⟨∅⟩

/-- What a place holds, if there is such a place. -/
def slot (p : ConnPool) (place : Place) : Option Int :=
  (p.connList.lookup place.1).bind (fun hosts =>
    (hosts.lookup place.2.1).bind (fun ports => ports.lookup place.2.2))

/-- `conn_list[id][host][port]`, where a new place reads as `0`. -/
def fdAt (p : ConnPool) (place : Place) : Int := (p.slot place).getD 0

/-- `conn_list[id][host][port] = conn`. -/
def set (p : ConnPool) (place : Place) (conn : Int) : ConnPool :=
  let hosts := p.connList.getD place.1 ∅
  let ports := hosts.getD place.2.1 ∅
  ⟨p.connList.insert place.1 (hosts.insert place.2.1 (ports.insert place.2.2 conn))⟩

/-- The innermost loop of `destoryConnection`: the first port with the
descriptor is zeroed, and the loop is left. -/
def zeroEntry (conn : Int) : List (Nat × Int) → List (Nat × Int)
  | [] => []
  | e :: es => if e.2 = conn then (e.1, 0) :: es else e :: zeroEntry conn es

theorem map_fst_zeroEntry (conn : Int) (es : List (Nat × Int)) :
    (zeroEntry conn es).map Prod.fst = es.map Prod.fst := by
  induction es with
  | nil => rfl
  | cons e es ih =>
      unfold zeroEntry
      split_ifs
      · rfl
      · rw [List.map_cons, List.map_cons, ih]

/-- The ports of one host after that loop. -/
def zeroPorts (conn : Int) (ports : SortedMap Nat Int) : SortedMap Nat Int where
  entries := zeroEntry conn ports.entries
  sorted := by
    have h := List.pairwise_map.mpr ports.sorted
    rw [← map_fst_zeroEntry conn] at h
    exact List.pairwise_map.mp h

/-- The three nested loops of `destoryConnection`. -/
def zero (p : ConnPool) (conn : Int) : ConnPool :=
  ⟨p.connList.mapValues (fun hosts => hosts.mapValues (zeroPorts conn))⟩

/-- `getConnectionSize`: three nested loops that count every innermost entry. -/
def getConnectionSize (p : ConnPool) : Nat :=
  p.connList.entries.foldl (fun n a =>
    a.2.entries.foldl (fun n b => b.2.entries.foldl (fun n _ => n + 1) n) n) 0

/-! ## The operations -/

/-- `initConnection(host, port, size)` from thread `id` on, with one result per
thread: a connection that succeeds takes its place, whatever was there. -/
def initConnection (host : Text) (port : Nat) :
    List ConnectResult → Nat → ConnPool × Sockets → Option (ConnPool × Sockets)
  | [], _, s => some s
  | result :: rest, id, s =>
      match createConnection s.2 result with
      | none => none
      | some (conn, k) =>
          initConnection host port rest (id + 1)
            (if conn > 0 then s.1.set (id, host, port) conn else s.1, k)

/-- `getConnection(id, host, port)`: what it returns, and the pool. -/
def getConnection (place : Place) (result : ConnectResult) (s : ConnPool × Sockets) :
    Option (Int × (ConnPool × Sockets)) :=
  if s.1.fdAt place > 0 then some (s.1.fdAt place, s)
  else
    match createConnection s.2 result with
    | none => none
    | some (conn, k) => some (conn, (s.1.set place conn, k))

/-- `closeConnection(conn)`. -/
def closeConnection (conn : Int) (k : Sockets) : Sockets :=
  if conn > 0 then k.close conn.toNat else k

/-- `destoryConnection(conn)`: close, then zero the places. -/
def destoryConnection (conn : Int) (s : ConnPool × Sockets) : ConnPool × Sockets :=
  if conn ≤ 0 then s else (s.1.zero conn, s.2.close conn.toNat)

/-! ## What the updates do to a place -/

theorem slot_set (p : ConnPool) (place other : Place) (conn : Int) :
    (p.set place conn).slot other = if other = place then some conn else p.slot other := by
  obtain ⟨id, host, port⟩ := place
  obtain ⟨id', host', port'⟩ := other
  simp only [slot, set, SortedMap.lookup_insert, SortedMap.getD, Prod.mk.injEq]
  by_cases hid : id' = id
  · subst hid
    cases p.connList.lookup id' with
    | none =>
        by_cases hhost : host' = host
        · subst hhost
          by_cases hport : port' = port <;> simp [SortedMap.lookup_insert, hport]
        · simp [SortedMap.lookup_insert, hhost]
    | some hosts =>
        by_cases hhost : host' = host
        · subst hhost
          by_cases hport : port' = port
          · simp [SortedMap.lookup_insert, hport]
          · cases hl : hosts.lookup host' <;> simp [SortedMap.lookup_insert, hport, hl]
        · simp [SortedMap.lookup_insert, hhost]
  · simp [hid]

theorem fdAt_eq_iff {p : ConnPool} {place : Place} {fd : Nat} (hfd : 0 < fd) :
    p.fdAt place = fd ↔ p.slot place = some (fd : Int) := by
  unfold fdAt
  cases p.slot place with
  | none =>
      simp only [Option.getD_none, reduceCtorEq, iff_false]
      omega
  | some v => simp

/-- Where a descriptor is in one place at most, the loop zeroes it. -/
theorem zeroEntry_eq_map {conn : Int} {es : List (Nat × Int)}
    (h : es.Pairwise (fun a b => ¬ (a.2 = conn ∧ b.2 = conn))) :
    zeroEntry conn es = es.map (fun e => (e.1, if e.2 = conn then 0 else e.2)) := by
  induction es with
  | nil => rfl
  | cons e es ih =>
      obtain ⟨hhead, htail⟩ := List.pairwise_cons.mp h
      unfold zeroEntry
      split_ifs with he
      · -- behind the place that was found nothing is to be zeroed
        have hrest : es = es.map (fun e => (e.1, if e.2 = conn then 0 else e.2)) := by
          conv_lhs => rw [← List.map_id es]
          refine List.map_congr_left ?_
          intro b hb
          have hne : b.2 ≠ conn := fun hconn => hhead b hb ⟨he, hconn⟩
          simp [hne]
        rw [List.map_cons, if_pos he, ← hrest]
      · rw [List.map_cons, if_neg he, ih htail]

theorem zeroPorts_eq_mapValues {conn : Int} {ports : SortedMap Nat Int}
    (h : ∀ i j, ports.lookup i = some conn → ports.lookup j = some conn → i = j) :
    zeroPorts conn ports = ports.mapValues (fun v => if v = conn then 0 else v) := by
  have hpair : ports.entries.Pairwise (fun a b => ¬ (a.2 = conn ∧ b.2 = conn)) := by
    refine ports.sorted.imp_of_mem ?_
    intro a b ha hb hlt hboth
    have hsame := h a.1 b.1
      (SortedMap.lookup_eq_some_iff.mpr (by rw [← hboth.1]; exact ha))
      (SortedMap.lookup_eq_some_iff.mpr (by rw [← hboth.2]; exact hb))
    omega
  simp only [zeroPorts, SortedMap.mapValues, zeroEntry_eq_map hpair]

/-- A descriptor that is in one place at most is zeroed there, and nothing else
changes. -/
theorem slot_zero {p : ConnPool} {conn : Int}
    (h : ∀ a b, p.slot a = some conn → p.slot b = some conn → a = b) (place : Place) :
    (p.zero conn).slot place = (p.slot place).map (fun v => if v = conn then 0 else v) := by
  obtain ⟨id, host, port⟩ := place
  simp only [slot, zero, SortedMap.lookup_mapValues]
  cases hhosts : p.connList.lookup id with
  | none => rfl
  | some hosts =>
      simp only [Option.map_some, Option.bind_some, SortedMap.lookup_mapValues]
      cases hports : hosts.lookup host with
      | none => rfl
      | some ports =>
          simp only [Option.map_some, Option.bind_some]
          rw [zeroPorts_eq_mapValues, SortedMap.lookup_mapValues]
          intro i j hi hj
          have hsame := h (id, host, i) (id, host, j) (by simp [slot, hhosts, hports, hi])
            (by simp [slot, hhosts, hports, hj])
          simpa using hsame

/-! ## The places as a list -/

/-- All places with what they hold, in the order in which they are counted. -/
def slots (p : ConnPool) : List (Place × Int) :=
  p.connList.entries.flatMap (fun a => a.2.entries.flatMap (fun b =>
    b.2.entries.map (fun c => ((a.1, b.1, c.1), c.2))))

theorem mem_slots {p : ConnPool} {place : Place} {v : Int} :
    (place, v) ∈ p.slots ↔ p.slot place = some v := by
  obtain ⟨id, host, port⟩ := place
  simp only [slots, List.mem_flatMap, List.mem_map, slot, Option.bind_eq_some_iff,
    SortedMap.lookup_eq_some_iff, SortedMap.mem_def]
  constructor
  · intro h
    obtain ⟨a, ha, b, hb, c, hc, heq⟩ := h
    simp only [Prod.mk.injEq] at heq
    obtain ⟨⟨rfl, rfl, rfl⟩, rfl⟩ := heq
    exact ⟨a.2, ha, b.2, hb, hc⟩
  · intro h
    obtain ⟨hosts, hhosts, ports, hports, hport⟩ := h
    exact ⟨(id, hosts), hhosts, (host, ports), hports, (port, v), hport, rfl⟩

/-- A loop that counts what its body counts. -/
theorem foldl_count {α β : Type} (f : α → List β) (xs : List α) (n : Nat) :
    xs.foldl (fun n a => n + (f a).length) n = n + (xs.flatMap f).length := by
  induction xs generalizing n with
  | nil => rfl
  | cons x xs ih =>
      rw [List.foldl_cons, ih, List.flatMap_cons, List.length_append, Nat.add_assoc]

/-- `getConnectionSize` is the number of places. -/
theorem length_slots (p : ConnPool) : p.getConnectionSize = p.slots.length := by
  have hports : ∀ (ports : List (Nat × Int)) (n : Nat),
      ports.foldl (fun n _ => n + 1) n = n + ports.length := by
    intro ports n
    simp
  have hhosts : ∀ (id : Nat) (hosts : List (Text × SortedMap Nat Int)) (n : Nat),
      hosts.foldl (fun n b => n + b.2.entries.length) n =
        n + (hosts.flatMap (fun b =>
          b.2.entries.map (fun c => (((id, b.1, c.1) : Place), c.2)))).length := by
    intro id hosts n
    rw [← foldl_count]
    simp only [List.length_map]
  unfold getConnectionSize slots
  simp only [hports]
  rw [← Nat.zero_add (List.length _), ← foldl_count]
  refine List.foldl_ext _ _ _ ?_
  intro n a _
  exact hhosts a.1 a.2.entries n

end ConnPool

end KvProxy
