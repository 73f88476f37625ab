import KvProxy.Lib.Steps
import KvProxy.Routing

/-!
# Replication to the backup hosts

A worker that has an update sends it to the update's default host, and only
then hands it over to the backup host: it pushes it on `async_req`, or, if
`strncmp` finds `sync_str` from the key on, sends it there itself.  One thread
empties the queue: it swaps the queue with an empty local one and applies the
local one from the front.

A request batch holds at most one update, because `parse_req` ends a batch
with the first request that is not a `GETKQ`; so a queued batch is one update
here (`createReqGroup_update`, `readEvent_replicates`).

Nothing orders the two steps of one worker against those of another.  For two
workers with the same key the default host and the backup host can see the
updates in different orders (`overtaken_update_diverges`).  What the queue does
promise is that updates reach the backup host in the order in which they were
handed over (`exec_handed`).  An update that is sent at once does not wait for
those of its key that are still queued; a key that is at least as long as
`sync_str` has updates of one kind only, and there it cannot happen.

* `replicas_agree_iff` — the replicas of a key agree exactly when the last update
  forwarded is the last one handed over;
* `readEvent_replicates` — the second step of a worker is what its event does.
-/

namespace KvProxy

open MachineInt

/-- An update request in a worker's buffer: its key, the bytes that lie behind the
key, and what is sent. -/
structure Update where
  key : List UInt8
  behind : List UInt8
  comm : Comm
  key_ne_nil : key ≠ []
  deriving DecidableEq

/-- The update a request is, with the `n` bytes behind its key. -/
def Req.toUpdate (q : Req) (m : ByteMem) (n : Nat) (hkey : 0 < q.keyLen) : Update where
  key := q.keyBytes m
  behind := m.slice (q.key + q.keyLen) n
  comm := ⟨q.bytes m, q.ext⟩
  key_ne_nil := by
    refine List.ne_nil_of_length_pos ?_
    rwa [Req.keyBytes, ByteMem.length_slice]

/-- A proxy with a backup group.  The two rings have hosts, and no host has alias
`0`. -/
structure Replicas where
  cfg : ProxyConfig
  hosts : HostTable
  default_ne_nil : (hosts.rings .hosts).hash.entries ≠ []
  backup_ne_nil : (hosts.rings .hostsBackup).hash.entries ≠ []
  alias_pos : ∀ type, ∀ e ∈ (hosts.rings type).hash, 1 ≤ e.2.2

/-- The workers (an idle worker has no update, a busy one has an update that
its default host has applied), the updates each host has applied, oldest
first, and the two queues. -/
structure Replication (n : Nat) where
  worker : Fin n → Option Update
  log : Nat → List Update
  asyncReq : List Update
  asyncReqTmp : List Update

/-- One step of a worker or of the async thread. -/
inductive Action (n : Nat) where
  | forward (w : Fin n) (u : Update)
  | replicate (w : Fin n)
  | swap
  | apply
  deriving DecidableEq

namespace Replication

variable {n : Nat}

/-- Nothing has been received yet. -/
def new : Replication n := ⟨fun _ => none, fun _ => [], [], []⟩

/-- A host applies an update. -/
def applyAt (s : Replication n) (host : Nat) (u : Update) : Replication n :=
  { s with log := Function.update s.log host (s.log host ++ [u]) }

/-- A worker takes up an update or becomes idle. -/
def setWorker (s : Replication n) (w : Fin n) (u : Option Update) : Replication n :=
  { s with worker := Function.update s.worker w u }

@[simp] theorem setWorker_log (s : Replication n) (w : Fin n) (o : Option Update) :
    (s.setWorker w o).log = s.log := rfl

@[simp] theorem setWorker_asyncReq (s : Replication n) (w : Fin n) (o : Option Update) :
    (s.setWorker w o).asyncReq = s.asyncReq := rfl

/-- The updates of a key that a host has applied. -/
def applied (s : Replication n) (host : Nat) (key : List UInt8) : List Update :=
  (s.log host).filter (fun u => u.key = key)

/-- The last update of a key that a host has applied. -/
def lastApplied (s : Replication n) (host : Nat) (key : List UInt8) : Option Update :=
  (s.applied host key).getLast?

/-- The updates of a key that wait in the two queues. -/
def waiting (s : Replication n) (key : List UInt8) : List Update :=
  (s.asyncReqTmp ++ s.asyncReq).filter (fun u => u.key = key)

/-- All workers are idle and both queues are empty. -/
def Quiescent (s : Replication n) : Prop :=
  (∀ w, s.worker w = none) ∧ s.asyncReq = [] ∧ s.asyncReqTmp = []

instance (s : Replication n) : Decidable s.Quiescent := by
  unfold Quiescent
  infer_instance

end Replication

namespace Replicas

variable {n : Nat}

/-- The alias `hash.find` gives for a key. -/
def defaultHost (r : Replicas) (key : List UInt8) : Nat := ((r.hosts.rings .hosts).find key).2

/-- The alias `hash_backup.find` gives for a key. -/
def backupHost (r : Replicas) (key : List UInt8) : Nat :=
  ((r.hosts.rings .hostsBackup).find key).2

/-- `strncmp(key, sync_str, …) == 0`, which reads on behind a shorter key. -/
def isSync (r : Replicas) (u : Update) : Bool :=
  strncmpEq (ByteMem.ofList (u.key ++ u.behind) (fun _ => 0)) 0 r.cfg.syncStr

/-- `async_req` is not full. -/
def HasRoom (r : Replicas) (s : Replication n) : Prop := int32 s.asyncReq.length < r.cfg.asyncSize

instance (r : Replicas) (s : Replication n) : Decidable (r.HasRoom s) :=
  inferInstanceAs (Decidable (_ < _))

/-- What `readEvent` does with an update after the default host has it:
`createReqGroup` has put it in the sync group or in the async batch, and the
batch is dropped when the queue is full. -/
def handOver (r : Replicas) (s : Replication n) (u : Update) : Replication n :=
  if 0 < (r.hosts.rings .hostsBackup).getSize ∧ r.backupHost u.key ≠ 0 then
    if r.isSync u then s.applyAt (r.backupHost u.key) u
    else if r.HasRoom s then { s with asyncReq := s.asyncReq ++ [u] }
    else s
  else s

/-- One step; `none` where the step cannot be taken.  The async thread swaps
the queues only when its own is empty. -/
def exec (r : Replicas) (s : Replication n) : Action n → Option (Replication n)
  | .forward w u =>
      if s.worker w = none then
        if r.defaultHost u.key = 0 then some s
        else some ((s.setWorker w (some u)).applyAt (r.defaultHost u.key) u)
      else none
  | .replicate w =>
      match s.worker w with
      | none => none
      | some u => some (r.handOver (s.setWorker w none) u)
  | .swap =>
      if s.asyncReqTmp = [] ∧ s.asyncReq ≠ [] then
        some { s with asyncReq := [], asyncReqTmp := s.asyncReq }
      else none
  | .apply =>
      match s.asyncReqTmp with
      | [] => none
      | u :: rest =>
          some (({ s with asyncReqTmp := rest } : Replication n).applyAt (r.backupHost u.key) u)

/-- At no step of a run is the queue full. -/
def NeverFull (r : Replicas) (acts : List (Action n)) : Prop :=
  Steps.EveryStep r.exec (fun s _ => r.HasRoom s) .new acts

instance (r : Replicas) (acts : List (Action n)) : Decidable (r.NeverFull acts) :=
  inferInstanceAs (Decidable (Steps.EveryStep _ _ _ _))

/-! ## What a step does -/

theorem find_alias_ne_zero {ring : ConsistentHash} (hne : ring.hash.entries ≠ [])
    (halias : ∀ e ∈ ring.hash, 1 ≤ e.2.2) (key : List UInt8) : (ring.find key).2 ≠ 0 := by
  obtain ⟨e, he, hfind, _⟩ := ring.find_spec key hne
  have hpos := halias e he
  rw [hfind]
  omega

theorem defaultHost_ne_zero (r : Replicas) (key : List UInt8) : r.defaultHost key ≠ 0 :=
  find_alias_ne_zero r.default_ne_nil (r.alias_pos .hosts) key

theorem backupHost_ne_zero (r : Replicas) (key : List UInt8) : r.backupHost key ≠ 0 :=
  find_alias_ne_zero r.backup_ne_nil (r.alias_pos .hostsBackup) key

theorem handOver_eq (r : Replicas) (s : Replication n) (u : Update) :
    r.handOver s u = if r.isSync u then s.applyAt (r.backupHost u.key) u
      else if r.HasRoom s then { s with asyncReq := s.asyncReq ++ [u] } else s := by
  rw [handOver, if_pos ⟨List.length_pos_iff.mpr r.backup_ne_nil, r.backupHost_ne_zero u.key⟩]

/-- Everything a step can do while the queue has room. -/
theorem exec_cases {r : Replicas} {s s' : Replication n} {a : Action n}
    (hroom : r.HasRoom s) (h : r.exec s a = some s') :
    (∃ w u, a = .forward w u ∧ s' = (s.setWorker w (some u)).applyAt (r.defaultHost u.key) u) ∨
    (∃ w u, a = .replicate w ∧ s.worker w = some u ∧ r.isSync u = true ∧
      s' = (s.setWorker w none).applyAt (r.backupHost u.key) u) ∨
    (∃ w u, a = .replicate w ∧ s.worker w = some u ∧ r.isSync u = false ∧
      s' = { s.setWorker w none with asyncReq := s.asyncReq ++ [u] }) ∨
    (a = .swap ∧ s.asyncReqTmp = [] ∧
      s' = { s with asyncReq := [], asyncReqTmp := s.asyncReq }) ∨
    (∃ u rest, a = .apply ∧ s.asyncReqTmp = u :: rest ∧
      s' = ({ s with asyncReqTmp := rest } : Replication n).applyAt
        (r.backupHost u.key) u) := by
  cases a with
  | forward w u =>
      by_cases hidle : s.worker w = none
      · simp only [exec, if_pos hidle, if_neg (r.defaultHost_ne_zero u.key),
          Option.some.injEq] at h
        exact Or.inl ⟨w, u, rfl, h.symm⟩
      · simp [exec, hidle] at h
  | replicate w =>
      cases hw : s.worker w with
      | none => simp [exec, hw] at h
      | some u =>
          simp only [exec, hw, Option.some.injEq] at h
          rw [handOver_eq] at h
          cases hsync : r.isSync u with
          | true =>
              rw [if_pos hsync] at h
              exact Or.inr (Or.inl ⟨w, u, rfl, hw, hsync, h.symm⟩)
          | false =>
              have hroom' : r.HasRoom (s.setWorker w none) := hroom
              rw [if_neg (by simp [hsync]), if_pos hroom'] at h
              exact Or.inr (Or.inr (Or.inl ⟨w, u, rfl, hw, hsync, h.symm⟩))
  | swap =>
      by_cases hempty : s.asyncReqTmp = [] ∧ s.asyncReq ≠ []
      · simp only [exec, if_pos hempty, Option.some.injEq] at h
        exact Or.inr (Or.inr (Or.inr (Or.inl ⟨rfl, hempty.1, h.symm⟩)))
      · simp [exec, hempty] at h
  | apply =>
      cases htmp : s.asyncReqTmp with
      | nil => simp [exec, htmp] at h
      | cons u rest =>
          simp only [exec, htmp, Option.some.injEq] at h
          exact Or.inr (Or.inr (Or.inr (Or.inr ⟨u, rest, rfl, rfl, h.symm⟩)))

/-- The updates of a key in the order in which the backup host gets them: those it
has applied, then those in the two queues. -/
def handed (r : Replicas) (s : Replication n) (key : List UInt8) : List Update :=
  s.applied (r.backupHost key) key ++ s.waiting key

/-- The update of a key that a step hands over. -/
def handover (key : List UInt8) (s : Replication n) : Action n → Option Update
  | .replicate w => (s.worker w).filter (fun u => u.key = key)
  | _ => none

/-- The update of a key that a step forwards to its default host. -/
def forwarded (key : List UInt8) : Action n → Option Update
  | .forward _ u => if u.key = key then some u else none
  | _ => none

theorem applied_applyAt (s : Replication n) (host host' : Nat) (u : Update) (key : List UInt8) :
    (s.applyAt host u).applied host' key =
      s.applied host' key ++ if host = host' ∧ u.key = key then [u] else [] := by
  unfold Replication.applied Replication.applyAt
  by_cases hhost : host = host'
  · subst hhost
    by_cases hkey : u.key = key
    · simp [hkey]
    · simp [hkey]
  · have hne : host' ≠ host := Ne.symm hhost
    simp [hhost, Function.update_of_ne hne]

/-- What a host has applied depends on its log alone. -/
theorem applied_setWorker (s : Replication n) (w : Fin n) (o : Option Update) (host : Nat)
    (key : List UInt8) : (s.setWorker w o).applied host key = s.applied host key := rfl

/-- What is handed over at once comes before what waits. -/
def due (r : Replicas) (key : List UInt8) (s : Replication n) (a : Action n)
    (last : Option Update) : Option Update :=
  match handover key s a with
  | none => last
  | some u => if r.isSync u = true ∧ s.waiting key ≠ [] then last else some u

section Step

variable {r : Replicas} {s s' : Replication n} {a : Action n} {key : List UInt8}

/-- **Handing over is first in, first out.**  A step that hands over an update adds it
to the sequence of its key, behind what waits or, sent at once, before it; no other
step changes that sequence. -/
theorem exec_handed (hroom : r.HasRoom s) (hne : r.defaultHost key ≠ r.backupHost key)
    (h : r.exec s a = some s') :
    r.handed s' key =
      match handover key s a with
      | none => r.handed s key
      | some u =>
          if r.isSync u then s.applied (r.backupHost key) key ++ u :: s.waiting key
          else r.handed s key ++ [u] := by
  rcases exec_cases hroom h with ⟨w, u, rfl, rfl⟩ | ⟨w, u, rfl, hw, hsync, rfl⟩ |
    ⟨w, u, rfl, hw, hasync, rfl⟩ | ⟨rfl, htmp, rfl⟩ | ⟨u, rest, rfl, htmp, rfl⟩
  · -- forwarding appends to the log of another host
    have hother : ¬(r.defaultHost u.key = r.backupHost key ∧ u.key = key) := by
      intro hsplit
      obtain ⟨hhost, rfl⟩ := hsplit
      exact hne hhost
    rw [handed, applied_applyAt, if_neg hother, List.append_nil, applied_setWorker]
    rfl
  · rw [handed, applied_applyAt, applied_setWorker]
    by_cases hkey : u.key = key
    · have hover : handover key s (.replicate w) = some u := by simp [handover, hw, hkey]
      rw [if_pos ⟨by rw [hkey], hkey⟩, hover]
      simp only [hsync, if_true]
      rw [List.append_assoc]
      rfl
    · have hover : handover key s (.replicate w) = none := by simp [handover, hw, hkey]
      rw [if_neg (fun hboth => hkey hboth.2), hover, List.append_nil]
      rfl
  · by_cases hkey : u.key = key
    · have hover : handover key s (.replicate w) = some u := by simp [handover, hw, hkey]
      rw [hover]
      simp [handed, hasync, Replication.applied, Replication.waiting, Replication.setWorker, hkey]
    · have hover : handover key s (.replicate w) = none := by simp [handover, hw, hkey]
      rw [hover]
      simp [handed, Replication.applied, Replication.waiting, Replication.setWorker, hkey]
  · simp [handed, handover, htmp, Replication.applied, Replication.waiting]
  · rw [handed, applied_applyAt]
    by_cases hkey : u.key = key
    · rw [if_pos ⟨by rw [hkey], hkey⟩]
      simp [handed, handover, htmp, hkey, Replication.applied, Replication.waiting,
        Replication.applyAt]
    · rw [if_neg (fun hboth => hkey hboth.2)]
      simp [handed, handover, htmp, hkey, Replication.applied, Replication.waiting,
        Replication.applyAt]

/-- The last one of that sequence. -/
theorem exec_due (hroom : r.HasRoom s) (hne : r.defaultHost key ≠ r.backupHost key)
    (h : r.exec s a = some s') :
    (r.handed s' key).getLast? = r.due key s a (r.handed s key).getLast? := by
  rw [exec_handed hroom hne h, due]
  cases handover key s a with
  | none => rfl
  | some u =>
      dsimp only
      cases hsync : r.isSync u with
      | false => simp
      | true =>
          rw [if_pos rfl]
          cases hwait : s.waiting key with
          | nil => simp
          | cons v rest => simp [handed, hwait, List.getLast?_append]

/-- Only forwarding adds to the updates of a key at its default host. -/
theorem exec_lastApplied (hroom : r.HasRoom s) (hne : r.defaultHost key ≠ r.backupHost key)
    (h : r.exec s a = some s') :
    s'.lastApplied (r.defaultHost key) key =
      (forwarded key a).or (s.lastApplied (r.defaultHost key) key) := by
  have hother : ∀ u : Update, ¬(r.backupHost u.key = r.defaultHost key ∧ u.key = key) := by
    intro u hsplit
    obtain ⟨hhost, rfl⟩ := hsplit
    exact hne hhost.symm
  unfold Replication.lastApplied
  rcases exec_cases hroom h with ⟨w, u, rfl, rfl⟩ | ⟨w, u, rfl, _, _, rfl⟩ |
    ⟨w, u, rfl, _, _, rfl⟩ | ⟨rfl, _, rfl⟩ | ⟨u, rest, rfl, _, rfl⟩
  · rw [applied_applyAt, applied_setWorker]
    by_cases hkey : u.key = key
    · rw [if_pos ⟨by rw [hkey], hkey⟩]
      simp [forwarded, hkey]
    · rw [if_neg (fun hboth => hkey hboth.2)]
      simp [forwarded, hkey]
  · rw [applied_applyAt, applied_setWorker, if_neg (hother u), List.append_nil]
    rfl
  · rfl
  · rfl
  · rw [applied_applyAt, if_neg (hother u), List.append_nil]
    rfl

/-- What is queued is not to be sent at once. -/
theorem exec_queued (hroom : r.HasRoom s)
    (hq : ∀ u ∈ s.asyncReqTmp ++ s.asyncReq, r.isSync u = false) (h : r.exec s a = some s') :
    ∀ u ∈ s'.asyncReqTmp ++ s'.asyncReq, r.isSync u = false := by
  intro v hv
  rcases exec_cases hroom h with ⟨w, u, _, rfl⟩ | ⟨w, u, _, _, _, rfl⟩ |
    ⟨w, u, _, _, hasync, rfl⟩ | ⟨_, htmp, rfl⟩ | ⟨u, rest, _, htmp, rfl⟩
  · exact hq v hv
  · exact hq v hv
  · rw [← List.append_assoc, List.mem_append, List.mem_singleton] at hv
    rcases hv with hv | rfl
    · exact hq v hv
    · exact hasync
  · apply hq
    simpa [htmp] using hv
  · apply hq
    rw [htmp, List.cons_append]
    exact List.mem_cons_of_mem _ hv

end Step

/-! ## Runs -/

/-- The last update of a key that a run forwards. -/
def lastForwarded (acts : List (Action n)) (key : List UInt8) : Option Update :=
  (acts.filterMap (forwarded key)).getLast?

/-- The last update of a key that a run hands over. -/
def lastHanded (r : Replicas) (acts : List (Action n)) (key : List UInt8) : Option Update :=
  Steps.fold r.exec (fun s a last => (handover key s a).or last) .new acts none

/-- The last update of a key that the backup host is to get: the last one handed over,
where one that is sent at once goes before those that wait. -/
def lastDue (r : Replicas) (acts : List (Action n)) (key : List UInt8) : Option Update :=
  Steps.fold r.exec (r.due key) .new acts none

variable {r : Replicas} {acts : List (Action n)} {s : Replication n} {key : List UInt8}

/-- **A whole run.** -/
theorem run_last (hne : r.defaultHost key ≠ r.backupHost key) (hroom : r.NeverFull acts)
    (hrun : Steps.run r.exec .new acts = some s) :
    s.lastApplied (r.defaultHost key) key = lastForwarded acts key ∧
      (r.handed s key).getLast? = r.lastDue acts key := by
  refine Steps.everyStep_history (fun acts s =>
    s.lastApplied (r.defaultHost key) key = lastForwarded acts key ∧
      (r.handed s key).getLast? = r.lastDue acts key) ⟨rfl, rfl⟩ ?_ hroom hrun
  rintro acts t a t' ht ⟨hforwarded, hdue⟩ hfree hexec
  constructor
  · rw [exec_lastApplied hfree hne hexec, hforwarded, lastForwarded, lastForwarded,
      List.filterMap_append, List.getLast?_append]
    cases hkey : forwarded key a <;> simp [hkey]
  · rw [exec_due hfree hne hexec, hdue, lastDue, lastDue, Steps.fold_concat _ ht hexec]

/-- `strncmp` reads as many bytes as the text has. -/
theorem strncmpEq_congr {m m' : ByteMem} {p p' : Int} {text : List UInt8}
    (h : ∀ i : Nat, i < text.length → m (p + i) = m' (p' + i)) :
    strncmpEq m p text = strncmpEq m' p' text := by
  induction text generalizing p p' with
  | nil => rfl
  | cons c text ih =>
      have hfirst : m p = m' p' := by simpa using h 0 (by simp)
      rw [strncmpEq, strncmpEq, hfirst, ih]
      intro i hi
      have hnext := h (i + 1) (by simpa using hi)
      rwa [Int.natCast_add, Int.add_comm (i : Int), ← Int.add_assoc, ← Int.add_assoc] at hnext

/-- A key that is long enough decides by itself. -/
theorem isSync_of_key {u v : Update} (hkey : u.key = v.key)
    (hlen : r.cfg.syncStr.length ≤ u.key.length) : r.isSync u = r.isSync v := by
  refine strncmpEq_congr fun i hi => ?_
  have hget : ∀ bytes : List UInt8, i < (u.key ++ bytes).length →
      some (ByteMem.ofList (u.key ++ bytes) (fun _ => 0) (0 + (i : Int))) = u.key[i]? := by
    intro bytes hlt
    rw [ByteMem.ofList_of_lt (by omega) (by omega)]
    have hindex : (0 + (i : Int)).toNat = i := by omega
    rw [hindex, List.getElem?_append_left (by omega)]
  have hleft := hget u.behind (by rw [List.length_append]; omega)
  have hright := hget v.behind (by rw [List.length_append]; omega)
  rw [hkey] at hleft hright
  rw [hkey]
  exact Option.some.inj (hleft.trans hright.symm)

/-- **A key that is long enough.**  Nothing of it is sent at once while another update
of it waits, and the last one handed over is the last to arrive. -/
theorem lastDue_eq_lastHanded (hlen : r.cfg.syncStr.length ≤ key.length)
    (hroom : r.NeverFull acts) (hrun : Steps.run r.exec .new acts = some s) :
    r.lastDue acts key = r.lastHanded acts key := by
  refine (Steps.everyStep_history (fun acts s =>
    (∀ u ∈ s.asyncReqTmp ++ s.asyncReq, r.isSync u = false) ∧
      r.lastDue acts key = r.lastHanded acts key) ⟨by simp [Replication.new], rfl⟩ ?_ hroom hrun).2
  rintro acts t a t' ht ⟨hqueued, hsame⟩ hfree hexec
  refine ⟨exec_queued hfree hqueued hexec, ?_⟩
  rw [lastDue, lastHanded, Steps.fold_concat _ ht hexec, Steps.fold_concat _ ht hexec, ← lastDue,
    ← lastHanded, hsame, due]
  cases hover : handover key t a with
  | none => rfl
  | some u =>
      have hukey : u.key = key := by
        cases a with
        | replicate w => simpa using (Option.filter_eq_some_iff.mp hover).2
        | forward w v => cases hover
        | swap => cases hover
        | apply => cases hover
      have hnot : ¬ (r.isSync u = true ∧ t.waiting key ≠ []) := by
        rintro ⟨hsync, hwaits⟩
        obtain ⟨v, hv⟩ := List.exists_mem_of_ne_nil _ hwaits
        obtain ⟨hmem, hvkey⟩ := List.mem_filter.mp hv
        have hfalse := hqueued v hmem
        rw [← isSync_of_key (hukey.trans (of_decide_eq_true hvkey).symm) (by rwa [hukey]),
          hsync] at hfalse
        exact absurd hfalse (by decide)
      dsimp only
      rw [if_neg hnot]
      rfl

/-- **When replicas agree.**  For any number of workers and any interleaving, with the
queue never full: when all workers are idle and both queues are empty, a key has the
same last update at its backup host and at its default host exactly when the two are
one host or the last update forwarded is the last one due at the backup host.  For a
key that is at least as long as `sync_str` that is the last one handed over. -/
theorem replicas_agree_iff (r : Replicas) (acts : List (Action n)) {s : Replication n}
    (hrun : Steps.run r.exec .new acts = some s) (hroom : r.NeverFull acts)
    (hquiet : s.Quiescent) (key : List UInt8) :
    (s.lastApplied (r.backupHost key) key = s.lastApplied (r.defaultHost key) key ↔
      r.defaultHost key = r.backupHost key ∨ r.lastDue acts key = lastForwarded acts key) ∧
    (r.cfg.syncStr.length ≤ key.length → r.lastDue acts key = r.lastHanded acts key) := by
  refine ⟨?_, fun hlen => lastDue_eq_lastHanded hlen hroom hrun⟩
  by_cases hne : r.defaultHost key = r.backupHost key
  · simp [hne]
  · obtain ⟨hforwarded, hdue⟩ := run_last hne hroom hrun
    obtain ⟨_, hqueue, htmp⟩ := hquiet
    have hlast : s.lastApplied (r.backupHost key) key = r.lastDue acts key := by
      rw [← hdue, handed, Replication.waiting, hqueue, htmp]
      simp [Replication.lastApplied]
    rw [hlast, hforwarded]
    simp [hne]

/-! ## The event behind the steps -/

/-- The batch that is queued for an update. -/
def batchOf (r : Replicas) (u : Update) : SortedMap Nat (List Comm) :=
  (∅ : SortedMap Nat (List Comm)).insert (r.backupHost u.key) [u.comm]

section Event

variable (r : Replicas) (m : ByteMem) {gets : List Req} {q : Req} (hkey : 0 < q.keyLen)

/-- The update of a request, with as many bytes behind the key as `strncmp` may read. -/
def updateOf : Update := q.toUpdate m r.cfg.syncStr.length hkey

/-- `strncmp` finds in the update what it finds in the buffer. -/
theorem isSync_updateOf : r.isSync (r.updateOf m hkey) = strncmpEq m q.key r.cfg.syncStr := by
  refine strncmpEq_congr fun i hi => ?_
  have hbytes : (r.updateOf m hkey).key ++ (r.updateOf m hkey).behind =
      m.slice q.key (q.keyLen + r.cfg.syncStr.length) := by
    rw [ByteMem.slice_add]
    rfl
  have hlen : i < (m.slice q.key (q.keyLen + r.cfg.syncStr.length)).length := by
    rw [ByteMem.length_slice]
    omega
  have hget : some (ByteMem.ofList (m.slice q.key (q.keyLen + r.cfg.syncStr.length)) (fun _ => 0)
      (0 + (i : Int))) = some (m (q.key + i)) := by
    rw [ByteMem.ofList_of_lt (by omega) (by omega)]
    have hrange : i < q.keyLen + r.cfg.syncStr.length := by omega
    simp [ByteMem.slice, hrange]
  rw [hbytes]
  exact Option.some.inj hget

variable (hgets : ∀ x ∈ gets, x.update = false ∧ x.each = false) (hupdate : q.update = true)
  (heach : q.each = false)

include hgets hupdate heach

/-- **A batch with an update.**  The update comes last in the list of its default host.
It is all there is for the backup hosts, in one of the two maps. -/
theorem createReqGroup_update :
    (∃ own, (createReqGroup r.cfg r.hosts m (gets ++ [q])).group.lookup
        (r.defaultHost (r.updateOf m hkey).key) = some (own ++ [q])) ∧
      (createReqGroup r.cfg r.hosts m (gets ++ [q])).backup =
        (if r.isSync (r.updateOf m hkey) then ∅
          else (∅ : SortedMap Nat (List Req)).insert (r.backupHost (r.updateOf m hkey).key) [q]) ∧
      (createReqGroup r.cfg r.hosts m (gets ++ [q])).sync =
        if r.isSync (r.updateOf m hkey) then
          (∅ : SortedMap Nat (List Req)).insert (r.backupHost (r.updateOf m hkey).key) [q]
        else ∅ := by
  have hgroupAlias : r.hosts.groupAlias m q = r.defaultHost (r.updateOf m hkey).key := by
    simp only [HostTable.groupAlias, hupdate, ne_eq, not_true_eq_false, false_and, if_false]
    rfl
  have hbackupAlias : r.hosts.backupAlias m q = r.backupHost (r.updateOf m hkey).key := by
    exact if_pos (List.length_pos_iff.mpr r.backup_ne_nil)
  have hdefault := r.defaultHost_ne_zero (r.updateOf m hkey).key
  have hbackup := r.backupHost_ne_zero (r.updateOf m hkey).key
  have hbacked : q.Backed r.hosts m :=
    ⟨hupdate, Or.inr ⟨hkey, by rw [hgroupAlias]; exact hdefault⟩⟩
  have hnoneEach : (gets ++ [q]).filter (fun x => x.each) = [] := by
    rw [List.filter_append, List.filter_eq_nil_iff.mpr (fun x hx => by simp [(hgets x hx).2])]
    simp [heach]
  -- a get has nothing for the backup hosts
  have hown : ∀ (sync : Bool) (a : Nat), (gets ++ [q]).filter (fun x =>
      (x.Backed r.hosts m ∧ strncmpEq m x.key r.cfg.syncStr = sync) ∧
        r.hosts.backupAlias m x ≠ 0 ∧ r.hosts.backupAlias m x = a) =
      if r.isSync (r.updateOf m hkey) = sync ∧ r.backupHost (r.updateOf m hkey).key = a then [q]
      else [] := by
    intro sync a
    rw [List.filter_append, List.filter_eq_nil_iff.mpr, List.nil_append]
    · rw [isSync_updateOf]
      by_cases hhere : strncmpEq m q.key r.cfg.syncStr = sync ∧
          r.backupHost (r.updateOf m hkey).key = a
      · obtain ⟨hhas, rfl⟩ := hhere
        simp [hbackupAlias, hbackup, hbacked, hhas]
      · rw [if_neg hhere, List.filter_eq_nil_iff]
        intro x hx
        obtain rfl := List.mem_singleton.mp hx
        rw [hbackupAlias, decide_eq_true_iff]
        exact fun h => hhere ⟨h.1.2, h.2.2⟩
    · intro x hx
      simp [Req.Backed, (hgets x hx).1]
  refine ⟨⟨gets.filter (fun x => x.Keyed ∧ r.hosts.groupAlias m x ≠ 0 ∧
      r.hosts.groupAlias m x = r.defaultHost (r.updateOf m hkey).key), ?_⟩,
    SortedMap.ext_lookup fun a => ?_, SortedMap.ext_lookup fun a => ?_⟩
  · rw [(lookup_createReqGroup _ _ _ _ _).1, hnoneEach, List.filter_append]
    have hkeyed : q.Keyed := ⟨heach, hkey⟩
    simp [hostEntry, hgroupAlias, hdefault, hkeyed]
  · rw [(lookup_createReqGroup _ _ _ _ _).2.1, hnoneEach, hown]
    cases hsync : r.isSync (r.updateOf m hkey) with
    | true => simp [hostEntry]
    | false =>
        by_cases ha : r.backupHost (r.updateOf m hkey).key = a
        · simp [hostEntry, ha, SortedMap.lookup_insert]
        · simp [hostEntry, ha, SortedMap.lookup_insert, Ne.symm ha]
  · rw [(lookup_createReqGroup _ _ _ _ _).2.2, hown]
    cases hsync : r.isSync (r.updateOf m hkey) with
    | false => simp [hostEntry]
    | true =>
        by_cases ha : r.backupHost (r.updateOf m hkey).key = a
        · simp [hostEntry, ha, SortedMap.lookup_insert]
        · simp [hostEntry, ha, SortedMap.lookup_insert, Ne.symm ha]

/-- What `readEvent` queues of the batch. -/
theorem queueBackup_update {out : Outside} (hout : out.hosts = r.hosts) :
    (queueBackup r.cfg out m (createReqGroup r.cfg out.hosts m (gets ++ [q])).backup).effects =
      if r.isSync (r.updateOf m hkey) = false ∧ int32 out.asyncLen < r.cfg.asyncSize then
        [.pushAsync (r.batchOf (r.updateOf m hkey))]
      else [] := by
  rw [hout, (createReqGroup_update r m hkey hgets hupdate heach).2.1]
  cases hsync : r.isSync (r.updateOf m hkey) with
  | true => simp [queueBackup]
  | false =>
      by_cases hroom : int32 out.asyncLen < r.cfg.asyncSize
      · have hsome : ((∅ : SortedMap Nat (List Req)).insert
            (r.backupHost (r.updateOf m hkey).key) [q]).entries ≠ [] := by
          simp [SortedMap.insert, SortedMap.insertEntry]
        simp only [Bool.false_eq_true, if_false, queueBackup, hroom, hsome, ne_eq, not_false_eq_true,
          and_self, if_true, Act.emit_effects]
        rfl
      · simp [queueBackup, hroom]

/-- **The second step of a worker is what its event does.**  After an event has sent an
update to its default host, as the last request of its list there, it queues the batch
of the update, or sends the update to its backup host: as the worker's `replicate` does
on a queue of that length. -/
theorem readEvent_replicates {out : Outside} (hout : out.hosts = r.hosts)
    (hreturn : out.HostsReturn r.cfg) {buffer : List UInt8} {w : Worker} (hw : w.Fresh)
    (hlen : buffer.length ≤ r.cfg.reqBufSize)
    (hm : m = ByteMem.ofList buffer out.memory) (hstatus : m.slice 0 6 ≠ statusCmd) {pos : Int}
    (hparse : parseReq r.cfg.useBinary out.header m buffer.length 0 [] =
      some (.success, pos, gets ++ [q]))
    {s s' : Replication n} {i : Fin n} (hworker : s.worker i = some (r.updateOf m hkey))
    (hqueue : s.asyncReq.length = out.asyncLen) (hstep : r.exec s (.replicate i) = some s') :
    s'.asyncReq.map r.batchOf =
        s.asyncReq.map r.batchOf ++ (readEvent r.cfg out buffer w).effects.flatMap ProxyEffect.pushed ∧
      s'.log = (if (createReqGroup r.cfg out.hosts m (gets ++ [q])).sync.entries = [] then s
        else s.applyAt (r.backupHost (r.updateOf m hkey).key) (r.updateOf m hkey)).log := by
  subst hm
  have hevent : (readEvent r.cfg out buffer w).effects.flatMap ProxyEffect.pushed =
      if r.isSync (r.updateOf (ByteMem.ofList buffer out.memory) hkey) = false ∧
          int32 out.asyncLen < r.cfg.asyncSize then
        [r.batchOf (r.updateOf (ByteMem.ofList buffer out.memory) hkey)]
      else [] := by
    have hbatch := serveBatch_yields (f := ProxyEffect.pushed) (fun _ _ => rfl) (fun _ => rfl) hreturn
      (ByteMem.ofList buffer out.memory) (gets ++ [q]) w.thread
    rw [queueBackup_update r _ hkey hgets hupdate heach hout] at hbatch
    rw [readEvent_of_fits hw hlen hstatus hparse]
    have hserved := hbatch.bind (fun t _ =>
      Act.Yields.pure ProxyEffect.pushed (buffer.drop (uint32 buffer.length), (⟨t, 0, []⟩ : Worker)))
    refine hserved.2.trans ?_
    split_ifs <;> rfl
  have hsync := (createReqGroup_update r (ByteMem.ofList buffer out.memory) hkey hgets hupdate
    heach).2.2
  simp only [exec, hworker, Option.some.injEq, handOver_eq] at hstep
  rw [hevent, hout, hsync, ← hqueue, ← hstep]
  cases r.isSync (r.updateOf (ByteMem.ofList buffer out.memory) hkey) with
  | true =>
      have hsome : ((∅ : SortedMap Nat (List Req)).insert
          (r.backupHost (r.updateOf (ByteMem.ofList buffer out.memory) hkey).key) [q]).entries ≠
            [] := by
        simp [SortedMap.insert, SortedMap.insertEntry]
      simp [hsome, Replication.applyAt]
  | false =>
      by_cases hfree : r.HasRoom (s.setWorker i none)
      · have hroom : int32 s.asyncReq.length < r.cfg.asyncSize := hfree
        simp [hfree, hroom]
      · have hfull : ¬ int32 s.asyncReq.length < r.cfg.asyncSize := hfree
        simp [hfree, hfull]

end Event

/-! ## Two updates of one key -/

/-- One default host, one backup host, keys with `"+"` in front replicated at once. -/
def pair : Replicas where
  cfg := { ProxyConfig.default with syncStr := [43] }
  hosts := ((HostTable.start ⟨[⟨"a".toList, 1, 1, 1⟩], [⟨"b".toList, 1, 1, 1⟩], []⟩).map
    Prod.fst).getD .new
  default_ne_nil := by decide +kernel
  backup_ne_nil := by decide +kernel
  alias_pos := by
    have hall : ∀ type, ∀ e ∈ ((((HostTable.start ⟨[⟨"a".toList, 1, 1, 1⟩],
        [⟨"b".toList, 1, 1, 1⟩], []⟩).map Prod.fst).getD .new).rings type).hash.entries,
          1 ≤ e.2.2 := by
      intro type
      cases type <;> decide +kernel
    exact hall

/-- An update of the key `"k"`. -/
def updateOfK (value : UInt8) : Update := ⟨[107], [value], ⟨[107, value], 0⟩, by decide⟩

/-- Two workers that overlap on the key and hand their updates over in the order in
which they forwarded them. -/
def inOrder : List (Action 2) :=
  [.forward 0 (updateOfK 1), .forward 1 (updateOfK 2), .replicate 0, .replicate 1,
    .swap, .apply, .apply]

/-- The same two updates, the second handed over before the first. -/
def overtaken : List (Action 2) :=
  [.forward 0 (updateOfK 1), .forward 1 (updateOfK 2), .replicate 1, .replicate 0,
    .swap, .apply, .apply]

/-- The state a run of `pair` ends in. -/
def pairEnd (acts : List (Action 2)) : Replication 2 :=
  (Steps.run pair.exec .new acts).getD Replication.new

/-- Updates that are handed over in their order end up the same at both hosts. -/
theorem replicas_agree_in_order :
    (pairEnd inOrder).lastApplied (pair.backupHost [107]) [107] =
      (pairEnd inOrder).lastApplied (pair.defaultHost [107]) [107] :=
  (replicas_agree_iff pair inOrder (s := pairEnd inOrder) rfl (by decide +kernel)
    (by decide +kernel) [107]).1.mpr (Or.inr (by decide +kernel))

/-- **The two hosts can disagree for good.**  Two workers overlap on one key:
all steps can be taken, the queue is never full, everything is idle and empty
at the end, and the backup host's last update is not the default host's. -/
theorem overtaken_update_diverges :
    Steps.run pair.exec .new overtaken = some (pairEnd overtaken) ∧
    pair.NeverFull overtaken ∧ (pairEnd overtaken).Quiescent ∧
    (pairEnd overtaken).lastApplied (pair.backupHost [107]) [107] ≠
      (pairEnd overtaken).lastApplied (pair.defaultHost [107]) [107] :=
  ⟨rfl, by decide +kernel, by decide +kernel, by decide +kernel⟩

/-- A set of `"k"`. -/
def setOfK : List UInt8 :=
  [0x80, 0x01, 0, 1, 8, 0, 0, 0, 0, 0, 0, 10, 0, 0, 0, 0, 0, 0, 0, 0, 0, 0, 0, 0,
    0, 0, 0, 0, 0, 0, 0, 0, 107, 120]

/-- Its item. -/
def setOfKItem : Req := ⟨32, 1, 0, 34, true, false, 0⟩

/-- It arrives while no host can be reached. -/
def setOutside : Outside where
  hosts := pair.hosts
  memory := fun _ => 0
  header := ⟨0, 0, 0, 0⟩
  status := []
  asyncLen := 0
  groupIo := fun _ => ⟨0, [], []⟩
  syncIo := fun _ => ⟨0, [], []⟩

theorem setOfKItem_keyLen : 0 < setOfKItem.keyLen := by decide

/-- The worker with the set, which its default host has applied. -/
def holdsSet : Replication 2 :=
  Replication.new.setWorker 0
    (some (pair.updateOf (ByteMem.ofList setOfK (fun _ => 0)) setOfKItem_keyLen))

/-- The event of the set queues what the worker queues. -/
theorem readEvent_replicates_set : ∃ s', pair.exec holdsSet (.replicate 0) = some s' ∧
    s'.asyncReq.length = 1 ∧
    s'.asyncReq.map pair.batchOf =
      (readEvent pair.cfg setOutside setOfK ⟨.new (fun _ => 0), 0, []⟩).effects.flatMap
        ProxyEffect.pushed := by
  have hparse : parseReq pair.cfg.useBinary setOutside.header
      (ByteMem.ofList setOfK setOutside.memory) setOfK.length 0 [] =
        some (.success, 34, [] ++ [setOfKItem]) := by
    decide +kernel
  have hreturn : setOutside.HostsReturn pair.cfg := fun _ _ _ _ => ⟨rfl, rfl⟩
  have hfresh : (⟨.new (fun _ => 0), 0, []⟩ : Worker).Fresh := ⟨rfl, rfl⟩
  refine ⟨_, rfl, by decide +kernel, ?_⟩
  exact (readEvent_replicates pair _ setOfKItem_keyLen (by simp) rfl rfl rfl hreturn
    hfresh (by decide) rfl (by decide +kernel) hparse (s := holdsSet) (i := 0) rfl rfl rfl).1

end Replicas

end KvProxy
