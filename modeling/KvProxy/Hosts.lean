import Mathlib.Data.Finset.Insert
import KvProxy.ConsistentHash

/-!
# Host groups, aliases and failover

The part of `KvProxy` that knows the backends: three groups of hosts with a
ring each, one alias per `host:port` shared by all groups, one table of index
and weight per alias, and the offline flags the health check sets.

A group is given here by its entries after the texts have been split into
host, port, index and weight, in the order in which the configuration map
lists them.
-/

namespace KvProxy

/-- The three values of `type` in `setHosts`. -/
inductive GroupType where
  | hosts
  | hostsBackup
  | hostsRead
  deriving DecidableEq, Repr

/-- One entry `host:port = "index:weight"` of a group. -/
structure HostEntry where
  host : Text
  port : Nat
  index : Nat
  weight : Nat
  deriving DecidableEq, Repr

/-- The host tables of a `KvProxy`; `aliasCount` is the static counter of
`setHostAlias`. -/
structure HostTable where
  hostAlias : SortedMap Nat (Text × Nat)
  hostInfos : SortedMap Nat (Nat × Nat)
  hostOffline : SortedMap Nat Bool
  members : GroupType → Finset Nat
  rings : GroupType → ConsistentHash
  aliasCount : Nat

namespace HostTable

/-- The tables before the first `setHosts`. -/
def new : HostTable where
  hostAlias := ∅
  hostInfos := ∅
  hostOffline := ∅
  members _ := ∅
  rings _ := .new
  aliasCount := 0

/-- `host + ":" + int2str(port)`. -/
def hostPort (hp : Text × Nat) : Text :=
  hp.1 ++ ':' :: int2str (MachineInt.int32 hp.2)

/-- `setHostAlias(host, port)`: the alias of a known pair, or the next one. -/
def setHostAlias (t : HostTable) (host : Text) (port : Nat) : HostTable × Nat :=
  match t.hostAlias.entries.find? (fun it => it.2 = (host, port)) with
  | some it => (t, it.1)
  | none =>
      ({ t with
          hostAlias := t.hostAlias.insert (t.aliasCount + 1) (host, port)
          aliasCount := t.aliasCount + 1 },
        t.aliasCount + 1)

/-- One iteration of the loop of `setHosts`, on the tables and `hosts_tmp`.
The connections it opens belong to the pool. -/
def addEntry (type : GroupType) (s : HostTable × Hosts) (e : HostEntry) : HostTable × Hosts :=
  let (t, aliasIndex) := s.1.setHostAlias e.host e.port
  ({ t with
      hostInfos := t.hostInfos.insert aliasIndex (e.index, e.weight)
      members := Function.update t.members type (insert aliasIndex (t.members type)) },
    s.2.insert (toLex (hostPort (e.host, e.port), aliasIndex)) (e.index, e.weight))

/-- `setHosts(type, …)` on the entries of the group, with the `hosts_tmp` it
hands to the ring; `none` when it exits because the default group is empty. -/
def setHosts (t : HostTable) (type : GroupType) (entries : List HostEntry) :
    Option (HostTable × Hosts) :=
  let (t, hostsTmp) := entries.foldl (addEntry type) (t, ∅)
  if hostsTmp.entries.isEmpty then
    if type = .hosts then none else some (t, hostsTmp)
  else
    some ({ t with
        rings := Function.update t.rings type ((t.rings type).setHosts true hostsTmp false) },
      hostsTmp)

/-- `initVar`, of which the failure counters are kept elsewhere. -/
def initVar (t : HostTable) : HostTable :=
  { t with hostOffline :=
      t.hostAlias.entries.foldl (fun m it => m.insert it.1 false) t.hostOffline }

/-- `host_offline[alias_index]`; reading an absent key stores `false`. -/
def offline (t : HostTable) (aliasIndex : Nat) : Bool :=
  t.hostOffline.getD aliasIndex false

/-- The tables after an access of `host_offline[alias_index]`. -/
def touchOffline (t : HostTable) (aliasIndex : Nat) : HostTable :=
  { t with hostOffline := t.hostOffline.insert aliasIndex (t.offline aliasIndex) }

/-- Apply a ring operation in every group the alias belongs to. -/
def onRings (t : HostTable) (aliasIndex : Nat) (op : ConsistentHash → ConsistentHash) : HostTable :=
  { t with rings := fun g => if aliasIndex ∈ t.members g then op (t.rings g) else t.rings g }

/-- `failover(alias_index, is_del)` with the ring mutexes free.  `delHost` is read as the
exact removal of the alias from a ring; as written its loop goes wrong at the first entry
that it erases (`delHost_exact_iff`). -/
def failover (t : HostTable) (aliasIndex : Nat) (isDel : Bool) : Bool × HostTable :=
  let t₁ := t.touchOffline aliasIndex
  if isDel then
    if t.offline aliasIndex then (true, t₁)
    else
      match t.hostAlias.lookup aliasIndex with
      | none => (false, t₁)
      | some _ =>
          let t₂ := t₁.onRings aliasIndex (fun h => (h.delHost true aliasIndex).2)
          (true, { t₂ with hostOffline := t₂.hostOffline.insert aliasIndex true })
  else
    if t.offline aliasIndex = false then (true, t₁)
    else
      match t.hostAlias.lookup aliasIndex, t.hostInfos.lookup aliasIndex with
      | some hp, some (index, weight) =>
          let t₂ := t₁.onRings aliasIndex
            (fun h => (h.addHost true (hostPort hp) aliasIndex index weight).2)
          (true, { t₂ with hostOffline := t₂.hostOffline.insert aliasIndex false })
      | _, _ => (false, t₁)

/-- The configuration of the three groups. -/
structure Config where
  hosts : List HostEntry
  hostsBackup : List HostEntry
  hostsRead : List HostEntry

/-- The host maps `setHosts` built from the configuration, one per group. -/
abbrev GroupHosts := GroupType → Hosts

/-- The start of `main`: the three `setHosts` calls and `initVar`. -/
def start (cfg : Config) : Option (HostTable × GroupHosts) := do
  let (t, hosts) ← new.setHosts .hosts cfg.hosts
  let (t, hostsBackup) ← t.setHosts .hostsBackup cfg.hostsBackup
  let (t, hostsRead) ← t.setHosts .hostsRead cfg.hostsRead
  some (t.initVar, fun
    | .hosts => hosts
    | .hostsBackup => hostsBackup
    | .hostsRead => hostsRead)

/-- A sequence of failover calls. -/
def failovers (t : HostTable) (ops : List (Nat × Bool)) : HostTable :=
  ops.foldl (fun t op => (t.failover op.1 op.2).2) t

end HostTable

end KvProxy
