import Mathlib
import KvProxy.ConnPool
import KvProxy.HealthPass
import KvProxy.OfflineHosts

/-!
# The status page

`getStatus` writes a page on the hosts, from the failure counters and the offline flags.
It goes through three maps, and looks every alias up in `host_alias` in a way that stores
an empty entry for an alias that is not there.

The maps of a running proxy all have the aliases of the listed hosts, and no others.  So
the page has one line in each failure section for each host, in the order of the aliases,
and looking at it changes nothing but a negative number of connections.

* `Monitor.getStatus_eq` — the page, where the maps have the same aliases;
* `started_inTouch`, `InTouch.step` — they do at the start, and after every step of the
  health thread and of workers that count for known hosts.
-/

namespace KvProxy

open MachineInt

/-! ## The page as it is written -/

/-- A part of the page while its loop goes on: the lines, the number in its heading, and
`host_alias`. -/
structure StatusPart where
  text : Text
  number : Int
  hostAlias : SortedMap Nat (Text × Nat)

/-- `host_alias[alias_index]`; reading an absent alias stores the empty pair. -/
def aliasAt (hostAlias : SortedMap Nat (Text × Nat)) (a : Nat) :
    (Text × Nat) × SortedMap Nat (Text × Nat) :=
  let hp := hostAlias.getD a ([], 0)
  (hp, hostAlias.insert a hp)

/-- The line of a host with the failures that are counted for it. -/
def failLine (hp : Text × Nat) (count : Nat) : Text :=
  "  - ".toList ++ HostTable.hostPort hp ++ " [".toList ++ int2str (int32 count) ++ "]\n".toList

/-- The line of a host that is offline. -/
def offlineLine (hp : Text × Nat) : Text :=
  "  - ".toList ++ HostTable.hostPort hp ++ " [offline]\n".toList

/-- One turn of the loops over `st_fail` and `st_cont_fail`. -/
def StatusPart.addFail (s : StatusPart) (it : Nat × Nat) : StatusPart :=
  let (hp, hostAlias) := aliasAt s.hostAlias it.1
  ⟨s.text ++ failLine hp it.2, int32 (s.number + it.2), hostAlias⟩

/-- One turn of the loop over `host_offline`. -/
def StatusPart.addOffline (s : StatusPart) (it : Nat × Bool) : StatusPart :=
  if it.2 = false then s
  else
    let (hp, hostAlias) := aliasAt s.hostAlias it.1
    ⟨s.text ++ offlineLine hp, int32 (s.number + 1), hostAlias⟩

/-- What `getStatus` reads of a `KvProxy`; of the queue it reads the length. -/
structure Monitor where
  stReq : Nat
  stConn : Int
  counters : FailCounters
  table : HostTable
  connPool : ConnPool
  recvTimeout : Int
  asyncLen : Nat

/-- The page, from its parts. -/
def statusPage (v : Monitor) (failed contFailed offline : StatusPart) : Text :=
  "\nNumber of processed requests [".toList ++
    (if v.stReq ≥ stLimit then int2str (int32 v.stReq) ++ "+".toList else int2str (int32 v.stReq)) ++
    "]\n".toList ++
  "Number of requests failed [".toList ++ int2str failed.number ++ "]\n".toList ++ failed.text ++
  "Number of continuous requests failed [".toList ++ int2str contFailed.number ++ "]\n".toList ++
    contFailed.text ++
  "All of offline hosts [".toList ++ int2str offline.number ++ "] \n".toList ++ offline.text ++
  "Number of client connection [".toList ++ int2str v.stConn ++ "]\n".toList ++
  "Number of backend connection [".toList ++ int2str (int32 v.connPool.getConnectionSize) ++
    "]\n".toList ++
  "Read timeout of backend connection [".toList ++ int2str (v.recvTimeout.tdiv 1000) ++
    "ms]\n".toList ++
  "Size of async queue [".toList ++ int2str (int32 v.asyncLen) ++ "]\n".toList ++
  "\n".toList

/-- `getStatus`: the page, and what is left behind. -/
def Monitor.getStatus (v : Monitor) : Text × Monitor :=
  let failed := v.counters.stFail.entries.foldl .addFail ⟨[], 0, v.table.hostAlias⟩
  let contFailed := v.counters.stContFail.entries.foldl .addFail ⟨[], 0, failed.hostAlias⟩
  let offline := v.table.hostOffline.entries.foldl .addOffline ⟨[], 0, contFailed.hostAlias⟩
  let v := { v with
    stConn := if v.stConn < 0 then 0 else v.stConn
    table := { v.table with hostAlias := offline.hostAlias } }
  (statusPage v failed contFailed offline, v)

/-! ## The page where the maps have the same aliases -/

/-- A failure section on these hosts, each with its number. -/
def toldFails (names : SortedMap Nat (Text × Nat)) (count : Nat → Nat)
    (es : List (Nat × (Text × Nat))) : StatusPart where
  text := es.flatMap (fun e => failLine e.2 (count e.1))
  number := int32 (es.map (fun e => count e.1)).sum
  hostAlias := names

/-- The list of those hosts that are offline. -/
def toldOffline (names : SortedMap Nat (Text × Nat)) (offline : Nat → Bool)
    (es : List (Nat × (Text × Nat))) : StatusPart where
  text := (es.filter (fun e => offline e.1)).flatMap (fun e => offlineLine e.2)
  number := int32 (es.countP (fun e => offline e.1))
  hostAlias := names

section Parts

variable {names : SortedMap Nat (Text × Nat)}

/-- A host that is known is read as it is. -/
theorem aliasAt_known {e : Nat × (Text × Nat)} (he : e ∈ names) : aliasAt names e.1 = (e.2, names) := by
  have hlook : names.lookup e.1 = some e.2 := SortedMap.lookup_eq_some_iff.mpr he
  rw [aliasAt, SortedMap.getD, hlook, Option.getD_some, SortedMap.insert_of_lookup hlook]

theorem addFail_known {s : StatusPart} {e : Nat × (Text × Nat)} (he : e ∈ s.hostAlias) (n : Nat) :
    s.addFail (e.1, n) = ⟨s.text ++ failLine e.2 n, int32 (s.number + n), s.hostAlias⟩ := by
  rw [StatusPart.addFail, aliasAt_known he]

theorem addOffline_known {s : StatusPart} {e : Nat × (Text × Nat)} (he : e ∈ s.hostAlias) :
    s.addOffline (e.1, true) = ⟨s.text ++ offlineLine e.2, int32 (s.number + 1), s.hostAlias⟩ := by
  rw [StatusPart.addOffline, if_neg (by simp), aliasAt_known he]

/-- **The loops over the counters**, on known hosts. -/
theorem foldl_addFail (count : Nat → Nat) {es : List (Nat × (Text × Nat))}
    (hes : ∀ e ∈ es, e ∈ names) :
    (es.map (fun e => (e.1, count e.1))).foldl .addFail ⟨[], 0, names⟩ =
      toldFails names count es := by
  induction es using List.reverseRecOn with
  | nil =>
      have hzero : int32 ((0 : Nat) : Int) = 0 := int32_zero
      rw [toldFails, List.map_nil, List.map_nil, List.sum_nil, hzero, List.foldl_nil,
        List.flatMap_nil]
  | append_singleton es e ih =>
      have he : e ∈ names := hes e (by simp)
      have hnumber : int32 (int32 (es.map (fun e => count e.1)).sum + count e.1) =
          int32 ((es ++ [e]).map (fun e => count e.1)).sum := by
        rw [List.map_append, List.sum_append, List.map_singleton, List.sum_singleton]
        unfold int32
        omega
      rw [List.map_append, List.foldl_append, ih (fun e he => hes e (List.mem_append_left _ he)),
        List.map_singleton, List.foldl_cons, List.foldl_nil, addFail_known he, toldFails,
        hnumber, toldFails, List.flatMap_append, List.flatMap_singleton]

/-- **The loop over the flags**, on known hosts. -/
theorem foldl_addOffline (offline : Nat → Bool) {es : List (Nat × (Text × Nat))}
    (hes : ∀ e ∈ es, e ∈ names) :
    (es.map (fun e => (e.1, offline e.1))).foldl .addOffline ⟨[], 0, names⟩ =
      toldOffline names offline es := by
  induction es using List.reverseRecOn with
  | nil =>
      have hzero : int32 ((0 : Nat) : Int) = 0 := int32_zero
      rw [toldOffline, List.countP_nil, hzero, List.map_nil, List.foldl_nil, List.filter_nil,
        List.flatMap_nil]
  | append_singleton es e ih =>
      have he : e ∈ names := hes e (by simp)
      rw [List.map_append, List.foldl_append, ih (fun e he => hes e (List.mem_append_left _ he)),
        List.map_singleton, List.foldl_cons, List.foldl_nil]
      cases hoff : offline e.1 with
      | false =>
          rw [StatusPart.addOffline, if_pos rfl, toldOffline, toldOffline, List.filter_append,
            List.filter_cons_of_neg (by simpa using hoff), List.filter_nil, List.append_nil,
            List.countP_append, List.countP_cons_of_neg (by simpa using hoff), List.countP_nil,
            Nat.add_zero]
      | true =>
          have hnumber : int32 (int32 (es.countP (fun e => offline e.1)) + 1) =
              int32 ((es ++ [e]).countP (fun e => offline e.1)) := by
            rw [List.countP_append, List.countP_cons_of_pos (by simpa using hoff), List.countP_nil]
            unfold int32
            omega
          rw [addOffline_known he, toldOffline, hnumber, toldOffline, List.filter_append,
            List.filter_cons_of_pos (by simpa using hoff), List.filter_nil, List.flatMap_append,
            List.flatMap_singleton]

/-- The entries of a map with the known keys. -/
theorem entries_of_keys {β : Type} {m : SortedMap Nat β} (hkeys : m.keys = names.keys) (d : β) :
    m.entries = names.entries.map (fun e => (e.1, m.getD e.1 d)) := by
  rw [m.entries_eq_map_keys d, hkeys, SortedMap.keys, List.map_map]
  rfl

theorem failPart_eq {counts : SortedMap Nat Nat} (hkeys : counts.keys = names.keys) :
    counts.entries.foldl .addFail ⟨[], 0, names⟩ =
      toldFails names (fun a => counts.getD a 0) names.entries := by
  rw [entries_of_keys hkeys 0]
  exact foldl_addFail (fun a => counts.getD a 0) (fun e he => he)

theorem offlinePart_eq {flags : SortedMap Nat Bool} (hkeys : flags.keys = names.keys) :
    flags.entries.foldl .addOffline ⟨[], 0, names⟩ =
      toldOffline names (fun a => flags.getD a false) names.entries := by
  rw [entries_of_keys hkeys false]
  exact foldl_addOffline (fun a => flags.getD a false) (fun e he => he)

end Parts

/-- The page that tells of each of these hosts its numbers and its flag. -/
def toldPage (names : SortedMap Nat (Text × Nat)) (fails contFails : Nat → Nat)
    (offline : Nat → Bool) (v : Monitor) : Text :=
  statusPage v (toldFails names fails names.entries) (toldFails names contFails names.entries)
    (toldOffline names offline names.entries)

/-- **The page**, where the counters and the flags are those of the known hosts. -/
theorem Monitor.getStatus_eq {v : Monitor} (hfails : v.counters.stFail.keys = v.table.hostAlias.keys)
    (hcont : v.counters.stContFail.keys = v.table.hostAlias.keys)
    (hflags : v.table.hostOffline.keys = v.table.hostAlias.keys) :
    v.getStatus =
      (toldPage v.table.hostAlias v.counters.fails v.counters.contFails v.table.offline
        { v with stConn := max v.stConn 0 }, { v with stConn := max v.stConn 0 }) := by
  have hconn : (if v.stConn < 0 then 0 else v.stConn) = max v.stConn 0 := by
    split_ifs <;> omega
  dsimp only [Monitor.getStatus]
  rw [hconn, failPart_eq hfails]
  dsimp only [toldFails]
  rw [failPart_eq hcont]
  dsimp only [toldFails]
  rw [offlinePart_eq hflags]
  rfl

/-- **The status command**, in an event of its own, is answered with the page. -/
theorem readEvent_status (cfg : ProxyConfig) (out : Outside) {buffer : List UInt8} (w : Worker)
    (hcmd : statusCmd <+: buffer) (hshort : buffer.length ≤ 8) :
    readEvent cfg out buffer w = ⟨[.reply out.status], some ([], w)⟩ := by
  have hint : int32 buffer.length = buffer.length := int32_eq_self (by omega) (by omega)
  have hroom : ¬ ((buffer.length : Int) > fastBuffSize ∧ (buffer.length : Int) > cfg.reqBufSize) := by
    unfold fastBuffSize
    omega
  have hcopied : copiedLen buffer = buffer.length := copiedLen_eq (by omega)
  have hslice : (ByteMem.ofList buffer out.memory).slice 0 6 = statusCmd := by
    obtain ⟨rest, rfl⟩ := hcmd
    exact ByteMem.slice_ofList_mid [] statusCmd rest out.memory
  have hdrained : buffer.drop (uint32 buffer.length) = [] := by
    refine List.drop_eq_nil_of_le ?_
    unfold uint32
    omega
  rw [readEvent_eq, hint, hcopied, if_neg hroom, if_pos ⟨hslice, by omega⟩, hdrained]
  rfl

/-! ## The aliases in the maps -/

/-- The hosts that the health thread still has before it. -/
def HealthPc.hosts : HealthPc → List Nat
  | .sleeping => []
  | .failing rest => rest.map Prod.fst
  | .checking rest => rest.map Prod.fst
  | .connected a rest => a :: rest.map Prod.fst
  | .online a rest => a :: rest.map Prod.fst

/-- The maps have the aliases of the known hosts, and the health thread has no others. -/
structure InTouch (names : SortedMap Nat (Text × Nat)) (s : HealthState) : Prop where
  hostAlias : s.table.hostAlias = names
  flags : s.table.hostOffline.keys = names.keys
  fails : s.counters.stFail.keys = names.keys
  contFails : s.counters.stContFail.keys = names.keys
  pc : ∀ a ∈ s.pc.hosts, a ∈ names.keys

/-- Counting for a host that has its counters. -/
theorem FailCounters.keys_countFail {c : FailCounters} {keys : List Nat}
    (hfails : c.stFail.keys = keys) (hcont : c.stContFail.keys = keys) {b : Nat} (hb : b ∈ keys)
    (limit : Nat) (isFail : Bool) :
    (c.countFail limit isFail b).stFail.keys = keys ∧
      (c.countFail limit isFail b).stContFail.keys = keys := by
  have hinsert : ∀ n, (c.stContFail.insert b n).keys = keys := fun n =>
    (SortedMap.keys_insert_of_mem (hcont.symm ▸ hb) n).trans hcont
  unfold FailCounters.countFail
  split_ifs
  · exact ⟨(SortedMap.keys_insert_of_mem (hfails.symm ▸ hb) _).trans hfails, hinsert _⟩
  · exact ⟨hfails, hcont⟩
  · exact ⟨hfails, hinsert 0⟩
  · exact ⟨hfails, hcont⟩

/-- A `failover` for a host that has its flag. -/
theorem HostTable.keys_failover (t : HostTable) {b : Nat} (hb : b ∈ t.hostOffline.keys)
    (isDel : Bool) : (t.failover b isDel).2.hostOffline.keys = t.hostOffline.keys := by
  have htouch : (t.touchOffline b).hostOffline.keys = t.hostOffline.keys :=
    SortedMap.keys_insert_of_mem hb _
  rcases failover_cases t b isDel with hsame | ⟨_, hdel⟩ | ⟨hp, index, weight, _, _, _, _, hadd⟩
  · rw [hsame, htouch]
  · rw [hdel]
    exact (SortedMap.keys_insert_of_mem (htouch.symm ▸ hb) _).trans htouch
  · rw [hadd]
    exact (SortedMap.keys_insert_of_mem (htouch.symm ▸ hb) _).trans htouch

section Run

variable {names : SortedMap Nat (Text × Nat)} {cfg : HealthConfig} {s s' : HealthState}
  {act : HealthAct}

/-- The tables behind a `failover` for a known host. -/
theorem InTouch.failover (h : InTouch names s) {b : Nat} (hb : b ∈ names.keys) (isDel : Bool)
    {pc : HealthPc} (hpc : ∀ a ∈ pc.hosts, a ∈ names.keys) :
    InTouch names { s with table := (s.table.failover b isDel).2, pc := pc } where
  hostAlias := (s.table.failover_known b isDel).1.trans h.hostAlias
  flags := (s.table.keys_failover (h.flags.symm ▸ hb) isDel).trans h.flags
  fails := h.fails
  contFails := h.contFails
  pc := hpc

/-- **One step** in which a worker counts for a known host, or the health thread goes on. -/
theorem InTouch.step (h : InTouch names s) (hstep : healthStep cfg s act = some s')
    (hknown : ∀ call ∈ workerCalls [act], call.2 ∈ names.keys) : InTouch names s' := by
  have hbefore : ∀ {pc : HealthPc}, s.pc = pc → ∀ a ∈ pc.hosts, a ∈ names.keys := fun hpc =>
    hpc ▸ h.pc
  cases HealthStep.of_healthStep hstep with
  | count isFail b =>
      obtain ⟨hfails, hcont⟩ := FailCounters.keys_countFail h.fails h.contFails
        (hknown (isFail, b) List.mem_cons_self) stLimit isFail
      exact ⟨h.hostAlias, h.flags, hfails, hcont, h.pc⟩
  | copyCounters _ =>
      exact ⟨h.hostAlias, h.flags, h.fails, h.contFails, fun a ha => h.contFails ▸ ha⟩
  | copyFlags _ => exact ⟨h.hostAlias, h.flags, h.fails, h.contFails, fun a ha => h.flags ▸ ha⟩
  | failover hpc _ =>
      obtain ⟨hb, hrest⟩ := List.forall_mem_cons.mp (hbefore hpc)
      exact h.failover hb true hrest
  | recover hpc =>
      obtain ⟨hb, hrest⟩ := List.forall_mem_cons.mp (hbefore hpc)
      exact h.failover hb false (List.forall_mem_cons.mpr ⟨hb, hrest⟩)
  | reset hpc =>
      obtain ⟨hb, hrest⟩ := List.forall_mem_cons.mp (hbefore hpc)
      obtain ⟨hfails, hcont⟩ := FailCounters.keys_countFail h.fails h.contFails hb stLimit false
      exact ⟨h.hostAlias, h.flags, hfails, hcont, hrest⟩
  | connect hpc =>
      exact ⟨h.hostAlias, h.flags, h.fails, h.contFails, fun a ha => hbefore hpc a ha⟩
  | pass hpc =>
      exact ⟨h.hostAlias, h.flags, h.fails, h.contFails, (List.forall_mem_cons.mp (hbefore hpc)).2⟩
  | skip hpc =>
      exact ⟨h.hostAlias, h.flags, h.fails, h.contFails, (List.forall_mem_cons.mp (hbefore hpc)).2⟩
  | refused hpc =>
      exact ⟨h.hostAlias, h.flags, h.fails, h.contFails, (List.forall_mem_cons.mp (hbefore hpc)).2⟩
  | sleep _ => exact ⟨h.hostAlias, h.flags, h.fails, h.contFails, fun a ha => absurd ha List.not_mem_nil⟩

end Run

namespace HostTable

theorem setHosts_hostOffline {t t' : HostTable} {type : GroupType} {es : List HostEntry}
    {tmp : Hosts} (hset : t.setHosts type es = some (t', tmp)) : t'.hostOffline = t.hostOffline := by
  have hloop : ∀ (es : List HostEntry) (s : HostTable × Hosts),
      (es.foldl (HostTable.addEntry type) s).1.hostOffline = s.1.hostOffline := by
    intro es
    induction es with
    | nil => exact fun s => rfl
    | cons e es ih =>
        intro s
        rw [List.foldl_cons, ih]
        exact (addEntry_rings type s e).2
  have hsame := hloop es (t, ∅)
  simp only [HostTable.setHosts] at hset
  split_ifs at hset
  · obtain ⟨rfl, _⟩ := Prod.mk.inj (Option.some.inj hset)
    exact hsame
  · obtain ⟨rfl, _⟩ := Prod.mk.inj (Option.some.inj hset)
    exact hsame

/-- `initVar` makes a flag for each known host. -/
theorem start_flags {cfg : Config} {t : HostTable} {hosts : GroupHosts}
    (hstart : start cfg = some (t, hosts)) : t.hostOffline.keys = t.hostAlias.keys := by
  simp only [start, Option.bind_eq_bind, Option.bind_eq_some_iff, Option.some.injEq,
    Prod.mk.injEq, Prod.exists] at hstart
  obtain ⟨t₁, h₁, hs₁, t₂, h₂, hs₂, t₃, h₃, hs₃, rfl, _⟩ := hstart
  have hnone : t₃.hostOffline = ∅ :=
    ((setHosts_hostOffline hs₃).trans (setHosts_hostOffline hs₂)).trans (setHosts_hostOffline hs₁)
  have hinsert : t₃.initVar.hostOffline =
      (∅ : SortedMap Nat Bool).insertAll (t₃.hostAlias.entries.map (fun it => (it.1, false))) := by
    rw [SortedMap.insertAll, List.foldl_map, ← hnone]
    rfl
  refine SortedMap.keys_eq_of_isSome fun a => ?_
  rw [hinsert, SortedMap.isSome_lookup_insertAll, List.map_map, SortedMap.lookup_empty,
    ← SortedMap.mem_keys]
  change a ∈ t₃.hostAlias.keys ∨ _ ↔ a ∈ t₃.hostAlias.keys
  simp

end HostTable

/-- `initVar` makes the counters of the hosts. -/
theorem FailCounters.keys_initVar (names : SortedMap Nat (Text × Nat)) :
    (FailCounters.initVar names.keys).stFail.keys = names.keys := by
  have hinsert : (FailCounters.initVar names.keys).stFail =
      (∅ : SortedMap Nat Nat).insertAll (names.keys.map (fun a => (a, 0))) := by
    rw [SortedMap.insertAll, List.foldl_map]
    rfl
  refine SortedMap.keys_eq_of_isSome fun a => ?_
  rw [hinsert, SortedMap.isSome_lookup_insertAll, List.map_map, SortedMap.lookup_empty,
    ← SortedMap.mem_keys]
  change a ∈ names.keys.map id ∨ _ ↔ a ∈ names.keys
  simp

/-- The process before its first request. -/
def HealthState.started (t : HostTable) : HealthState := ⟨t, .initVar t.hostAlias.keys, .sleeping⟩

/-- The maps that the process starts with. -/
theorem started_inTouch {listed : HostTable.Config} {t : HostTable} {hosts : HostTable.GroupHosts}
    (hstart : HostTable.start listed = some (t, hosts)) : InTouch t.hostAlias (.started t) := by
  have hcounters := FailCounters.keys_initVar t.hostAlias
  exact ⟨rfl, HostTable.start_flags hstart, hcounters, hcounters,
    fun a ha => absurd ha List.not_mem_nil⟩

end KvProxy
