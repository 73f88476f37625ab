import KvProxy.Preference
import KvProxy.ReplyIndependence
import KvProxy.Routing

/-!
# A host that is offline gets no request

Whatever the configuration lists, and in whatever order the workers and the health thread
go on: every entry of a ring is one of a host that its group lists and that is not
flagged offline.  Hosts may collide on a ring, and may be listed with several indices.
So none of the maps of `createReqGroup` has an entry for a host that is offline, an
update goes to default hosts, and what is queued or sent for the backup goes to backup
hosts.  An event, whatever its bytes are, does something to hosts of these maps only.
It sees the tables as they are when it starts.  As in `HostTable.failover`, `delHost` is
the exact removal: as written it can leave entries of a host that goes offline behind.

* `OnlyOnline.failover` — one call;
* `OnlyOnline.sentOnline`, `readEvent_online` — one event;
* `events_stay_online` — every event in every state that is reached.
-/

namespace KvProxy

namespace HostTable

/-- The group lists the alias. -/
def Lists (hosts : GroupHosts) (g : GroupType) (a : Nat) : Prop :=
  ∃ it ∈ hosts g, (ofLex it.1).2 = a

/-- Every entry of a ring is one of a host of its group that is not flagged offline. -/
structure OnlyOnline (t : HostTable) (hosts : GroupHosts) : Prop where
  wired : Wired t hosts
  online : ∀ g, ∀ e ∈ (t.rings g).hash, t.offline e.2.2 = false ∧ ∃ it ∈ hosts g, ofLex it.1 = e.2

variable {t : HostTable} {hosts : GroupHosts}

/-- Behind the three `setHosts` calls and `initVar` all hosts are online. -/
theorem start_onlyOnline {cfg : Config} (hstart : start cfg = some (t, hosts)) :
    OnlyOnline t hosts := by
  obtain ⟨hwired, hall, hrings⟩ := start_offline hstart
  refine ⟨hwired, fun g e he => ⟨hall _, ?_⟩⟩
  rw [hrings, insertHosts_eq_insertAll] at he
  rcases SortedMap.mem_of_mem_insertAll he with hnew | hold
  · obtain ⟨it, hit, i, _, rfl⟩ := mem_vnodes.mp hnew
    exact ⟨it, hit, rfl⟩
  · exact absurd hold (SortedMap.not_mem_empty e)

/-- A ring operation for a host of the group, with the flag that it sets. -/
theorem OnlyOnline.onRings (h : OnlyOnline t hosts) {a : Nat}
    {op : ConsistentHash → ConsistentHash} {flag : Bool}
    (hop : ∀ g, Lists hosts g a → ∀ e ∈ (op (t.rings g)).hash,
      (e.2.2 = a → flag = false ∧ ∃ it ∈ hosts g, ofLex it.1 = e.2) ∧
        (e.2.2 ≠ a → e ∈ (t.rings g).hash)) :
    OnlyOnline { (t.touchOffline a).onRings a op with
      hostOffline := (t.touchOffline a).hostOffline.insert a flag } hosts := by
  refine ⟨⟨h.wired.fresh, h.wired.member, h.wired.named, h.wired.recorded⟩, fun g e he => ?_⟩
  have hflags : ({ (t.touchOffline a).onRings a op with
      hostOffline := (t.touchOffline a).hostOffline.insert a flag } : HostTable).offline =
      Function.update t.offline a flag := by
    rw [offline_insert]
    exact congrArg (fun f => Function.update f a flag) (touchOffline_offline t a)
  rw [hflags]
  change e ∈ (if a ∈ t.members g then op (t.rings g) else t.rings g).hash at he
  by_cases hmem : a ∈ t.members g
  · rw [if_pos hmem] at he
    obtain ⟨hown, hother⟩ := hop g ((h.wired.member g a).mp hmem) e he
    by_cases hea : e.2.2 = a
    · rw [hea, Function.update_self]
      exact hown hea
    · rw [Function.update_of_ne hea]
      exact h.online g e (hother hea)
  · -- the group does not list the host, so the ring has no entry of it
    rw [if_neg hmem] at he
    obtain ⟨hon, it, hit, hkey⟩ := h.online g e he
    have hea : e.2.2 ≠ a := by
      rintro rfl
      exact hmem ((h.wired.member g _).mpr ⟨it, hit, congrArg Prod.snd hkey⟩)
    rw [Function.update_of_ne hea]
    exact ⟨hon, it, hit, hkey⟩

/-- **One call** of `failover`. -/
theorem OnlyOnline.failover (h : OnlyOnline t hosts) (a : Nat) (isDel : Bool) :
    OnlyOnline (t.failover a isDel).2 hosts := by
  rcases failover_cases t a isDel with hsame | ⟨_, hdel⟩ | ⟨hp, index, weight, hadd⟩
  · rw [hsame]
    refine ⟨⟨h.wired.fresh, h.wired.member, h.wired.named, h.wired.recorded⟩, fun g e he => ?_⟩
    rw [touchOffline_offline]
    exact h.online g e he
  · rw [hdel]
    refine h.onRings fun g _ e he => ?_
    obtain ⟨hold, hne⟩ := SortedMap.mem_filter.mp he
    have hne' : e.2.2 ≠ a := by simpa using hne
    exact ⟨fun hea => absurd hea hne', fun _ => hold⟩
  · obtain ⟨_, _, hname, _, hres⟩ := hadd
    rw [hres]
    refine h.onRings fun g hlists e he => ?_
    have hinserted : e ∈ (t.rings g).hash.insertAll
        (vnodes [(toLex (hostPort hp, a), (index, weight))]) := by
      rw [← insertHosts_eq_insertAll]
      exact he
    rcases SortedMap.mem_of_mem_insertAll hinserted with hnew | hold
    · obtain ⟨back, hback, i, _, rfl⟩ := mem_vnodes.mp hnew
      obtain rfl := List.mem_singleton.mp hback
      -- the host comes back under the text that its group has for it
      obtain ⟨it, hit, halias⟩ := hlists
      obtain ⟨hp', hname', htext⟩ := h.wired.named g it hit
      rw [halias, hname, Option.some.injEq] at hname'
      refine ⟨fun _ => ⟨rfl, it, hit, Prod.ext ?_ halias⟩, fun hne => absurd rfl hne⟩
      rw [htext, ← hname']
      rfl
    · refine ⟨fun hea => ⟨rfl, ?_⟩, fun _ => hold⟩
      exact (h.online g e hold).2

/-- What a ring finds is a host of the group that is online, or there is none. -/
theorem OnlyOnline.find (h : OnlyOnline t hosts) (g : GroupType) (key : List UInt8)
    (hne : ((t.rings g).find key).2 ≠ 0) :
    t.offline ((t.rings g).find key).2 = false ∧ Lists hosts g ((t.rings g).find key).2 := by
  unfold ConsistentHash.find at hne ⊢
  cases hc : (t.rings g).hash.clockwise (crc32 0 key).toNat with
  | none =>
      rw [hc] at hne
      exact absurd rfl hne
  | some e =>
      obtain ⟨hon, it, hit, hkey⟩ := h.online g e (SortedMap.clockwise_spec hc).1
      exact ⟨hon, it, hit, congrArg Prod.snd hkey⟩

/-! ## The maps of `createReqGroup` -/

/-- The host of a request, and the group it is found in. -/
theorem OnlyOnline.groupAlias (h : OnlyOnline t hosts) {m : ByteMem} {r : Req}
    (hne : t.groupAlias m r ≠ 0) :
    t.offline (t.groupAlias m r) = false ∧
      (Lists hosts .hosts (t.groupAlias m r) ∨
        r.update = false ∧ Lists hosts .hostsRead (t.groupAlias m r)) := by
  unfold HostTable.groupAlias at hne ⊢
  by_cases hread : r.update ≠ true ∧ (t.rings .hostsRead).getSize > 0
  · rw [if_pos hread] at hne ⊢
    obtain ⟨hon, hlists⟩ := h.find .hostsRead (r.keyBytes m) hne
    exact ⟨hon, Or.inr ⟨Bool.eq_false_of_not_eq_true hread.1, hlists⟩⟩
  · rw [if_neg hread] at hne ⊢
    obtain ⟨hon, hlists⟩ := h.find .hosts (r.keyBytes m) hne
    exact ⟨hon, Or.inl hlists⟩

/-- The backup host of a request. -/
theorem OnlyOnline.backupAlias (h : OnlyOnline t hosts) {m : ByteMem} {r : Req}
    (hne : t.backupAlias m r ≠ 0) :
    t.offline (t.backupAlias m r) = false ∧ Lists hosts .hostsBackup (t.backupAlias m r) := by
  unfold HostTable.backupAlias at hne ⊢
  split_ifs at hne ⊢ with hsize
  · exact h.find .hostsBackup (r.keyBytes m) hne
  · exact absurd rfl hne

/-- The maps have entries for online hosts only: in the first one those of default hosts
and, for what is no update, of read hosts, and in the others those of backup hosts, for
updates.  A request for every host goes along with them. -/
structure SentOnline (t : HostTable) (hosts : GroupHosts) (g : ReqGroups) : Prop where
  group : ∀ a rs, g.group.lookup a = some rs → t.offline a = false ∧
    (Lists hosts .hosts a ∨ Lists hosts .hostsRead a) ∧
    ∀ r ∈ rs, r.each = true ∨ Lists hosts .hosts a ∨ r.update = false
  backup : ∀ a rs, g.backup.lookup a = some rs → t.offline a = false ∧
    Lists hosts .hostsBackup a ∧ ∀ r ∈ rs, r.each = true ∨ r.update = true
  sync : ∀ a rs, g.sync.lookup a = some rs → t.offline a = false ∧
    Lists hosts .hostsBackup a ∧ ∀ r ∈ rs, r.update = true

/-- An entry holds own requests, and behind them those for every host. -/
theorem entry_of_filter {p : Req → Prop} [DecidablePred p] {reqs each rs : List Req}
    (h : hostEntry (reqs.filter (fun r => p r)) each = some rs) :
    (∃ r, p r) ∧ ∀ r ∈ rs, p r ∨ r ∈ each := by
  unfold hostEntry at h
  split_ifs at h with hnil
  obtain rfl := Option.some.inj h
  have hown : ∀ r ∈ reqs.filter (fun r => p r), p r := fun r hr => by
    simpa using (List.mem_filter.mp hr).2
  obtain ⟨first, hfirst⟩ := List.exists_mem_of_ne_nil _ hnil
  refine ⟨⟨first, hown first hfirst⟩, fun r hr => ?_⟩
  rcases List.mem_append.mp hr with hr | hr
  · exact Or.inl (hown r hr)
  · exact Or.inr hr

/-- **The requests of one event.** -/
theorem OnlyOnline.sentOnline (h : OnlyOnline t hosts) (cfg : ProxyConfig) (m : ByteMem)
    (reqs : List Req) : SentOnline t hosts (createReqGroup cfg t m reqs) := by
  have heach : ∀ r ∈ reqs.filter (fun r => r.each), r.each = true := fun r hr =>
    (List.mem_filter.mp hr).2
  refine ⟨fun a rs hrs => ?_, fun a rs hrs => ?_, fun a rs hrs => ?_⟩
  · rw [(lookup_createReqGroup cfg t m reqs a).1] at hrs
    obtain ⟨⟨r, _, hne, hr⟩, hall⟩ := entry_of_filter hrs
    obtain ⟨hon, hlists⟩ := h.groupAlias hne
    rw [hr] at hon hlists
    refine ⟨hon, hlists.imp_right And.right, fun r hr => ?_⟩
    rcases hall r hr with ⟨_, hne, hr⟩ | hr
    · obtain ⟨_, hlists⟩ := h.groupAlias hne
      rw [hr] at hlists
      exact Or.inr (hlists.imp_right And.left)
    · exact Or.inl (heach r hr)
  · rw [(lookup_createReqGroup cfg t m reqs a).2.1] at hrs
    obtain ⟨⟨r, _, hne, hr⟩, hall⟩ := entry_of_filter hrs
    obtain ⟨hon, hlists⟩ := h.backupAlias hne
    rw [hr] at hon hlists
    refine ⟨hon, hlists, fun r hr => ?_⟩
    rcases hall r hr with ⟨hbacked, _⟩ | hr
    · exact Or.inr hbacked.1.1
    · exact Or.inl (heach r hr)
  · rw [(lookup_createReqGroup cfg t m reqs a).2.2] at hrs
    obtain ⟨⟨r, _, hne, hr⟩, hall⟩ := entry_of_filter hrs
    obtain ⟨hon, hlists⟩ := h.backupAlias hne
    rw [hr] at hon hlists
    refine ⟨hon, hlists, fun r hr => ?_⟩
    rcases hall r hr with ⟨hbacked, _⟩ | hr
    · exact hbacked.1.1
    · exact absurd hr List.not_mem_nil

end HostTable

/-- A step of the workers or the health thread. -/
theorem healthStep_onlyOnline {hosts : HostTable.GroupHosts} {cfg : HealthConfig}
    {s s' : HealthState} {act : HealthAct} (hs : HostTable.OnlyOnline s.table hosts)
    (hstep : healthStep cfg s act = some s') : HostTable.OnlyOnline s'.table hosts := by
  rcases healthStep_table hstep with hsame | ⟨b, isDel, hfailover⟩
  · rw [hsame]
    exact hs
  · rw [hfailover]
    exact hs.failover b isDel

/-- **Every state** that the workers and the health thread reach. -/
theorem healthRun_onlyOnline {listed : HostTable.Config} {t : HostTable}
    {hosts : HostTable.GroupHosts} (hstart : HostTable.start listed = some (t, hosts))
    {health : HealthConfig} {first s : HealthState} (htable : first.table = t)
    {acts : List HealthAct} (hrun : Steps.run (healthStep health) first acts = some s) :
    HostTable.OnlyOnline s.table hosts := by
  have hfirst : HostTable.OnlyOnline first.table hosts := by
    rw [htable]
    exact HostTable.start_onlyOnline hstart
  exact Steps.run_invariant (C := fun _ _ => True)
    (fun u => HostTable.OnlyOnline u.table hosts)
    (fun _ _ _ hu _ hstep => healthStep_onlyOnline hu hstep) hfirst
    (Steps.everyStep_of_forall (fun _ _ => trivial) first acts) hrun

/-! ## The events -/

/-- What it counts, it counts for this host. -/
def Effect.CountsFor (a : Nat) (e : Effect) : Prop := ∀ isFail b, e = .countFail isFail b → b = a

/-- What an event does to hosts, it does to hosts that are listed and not flagged offline,
and it counts for the host that it talks to. -/
def ProxyEffect.Online (t : HostTable) (hosts : HostTable.GroupHosts) : ProxyEffect → Prop
  | .backend a e => t.offline a = false ∧ (∃ g, HostTable.Lists hosts g a) ∧ e.CountsFor a
  | .pushAsync batch => ∀ a ∈ batch.keys, t.offline a = false ∧ HostTable.Lists hosts .hostsBackup a
  | _ => True

/-- A turn counts for its own host. -/
theorem talkTurn_counts (cfg : BackendConfig) (turn : Turn) (t : Thread) (respList : List Resp) :
    (talkTurn cfg turn t respList).Spec (Effect.CountsFor turn.aliasIndex) (fun _ => True) := by
  have hsending : ∀ e : Effect, e.IsSending → e.CountsFor turn.aliasIndex := by
    rintro e he isFail b rfl
    exact absurd he id
  have hreading : ∀ e : Effect, e.IsReading → e.CountsFor turn.aliasIndex := by
    rintro e he isFail b rfl
    exact absurd he id
  have hcount : ∀ (t' : Thread) (isFail : Bool), (countFail cfg t' isFail turn.aliasIndex).Spec
      (Effect.CountsFor turn.aliasIndex) (fun _ => True) := by
    intro t' isFail
    refine Act.Spec.bind (Act.Spec.emit ?_) (fun _ _ => .pure trivial)
    rintro isFail' b heq
    exact (Effect.countFail.inj heq).2.symm
  have hwrite : (writeToBackend turn.io.conn (t.staged turn.items).message turn.io.sends).Spec
      (Effect.CountsFor turn.aliasIndex) (fun _ => True) := by
    refine Act.Spec.bind (Act.Spec.emit (e := Effect.write _) (fun _ _ heq => by cases heq)) ?_
    intro _ _
    exact (writeLoop_spec _ _ _ _).imp hsending (fun _ _ => trivial)
  unfold talkTurn
  simp only
  split_ifs
  · exact (hcount _ true).bind (fun _ _ => .pure trivial)
  · apply hwrite.bind
    intro sent _
    split_ifs
    · apply ((readFromBackend_spec cfg _ _ _ _).imp hreading (fun _ _ => trivial)).bind
      intro got _
      exact (hcount _ _).bind (fun _ _ => .pure trivial)
    · exact (hcount _ true).bind (fun _ _ => .pure trivial)
    · exact .pure trivial
  · exact .pure trivial

/-- **A batch** does something to the hosts of its turns only. -/
theorem talkTurns_hosts (cfg : BackendConfig) (turns : List Turn) (t : Thread)
    (respList : List Resp) :
    (talkTurns cfg turns t respList).Spec
      (fun e => (∃ turn ∈ turns, turn.aliasIndex = e.1) ∧ e.2.CountsFor e.1) (fun _ => True) := by
  induction turns generalizing t respList with
  | nil => exact .pure trivial
  | cons turn rest ih =>
      refine Act.Spec.bind (P := fun _ => True) ?_ fun got _ => ?_
      · exact (talkTurn_counts cfg turn t respList).label
          (fun e he => ⟨⟨turn, List.mem_cons_self, rfl⟩, he⟩)
      · refine (ih got.1 got.2).imp ?_ (fun _ h => h)
        rintro e ⟨⟨turn', hturn, heq⟩, hcount⟩
        exact ⟨⟨turn', List.mem_cons_of_mem _ hturn, heq⟩, hcount⟩

section Event

variable {hosts : HostTable.GroupHosts} {out : Outside}

/-- Talking to the hosts of a map that has online hosts only. -/
theorem talkToHosts_online {t : HostTable} (cfg : ProxyConfig) (buf : ByteMem)
    {group : SortedMap Nat (List Req)} (io : Nat → HostIo) (thread : Thread)
    (hgroup : ∀ a rs, group.lookup a = some rs →
      t.offline a = false ∧ ∃ g, HostTable.Lists hosts g a) :
    (talkToHosts cfg buf group io thread).Spec (ProxyEffect.Online t hosts) (fun _ => True) := by
  have hturns := talkTurns_hosts cfg.backend (reqTurns buf group io) thread []
  have htalk : (talkToBackend cfg.backend buf group io thread).Spec
      (fun e => (∃ turn ∈ reqTurns buf group io, turn.aliasIndex = e.1) ∧ e.2.CountsFor e.1)
      (fun _ => True) :=
    hturns.bind (fun _ _ => .pure trivial)
  refine htalk.label ?_
  rintro ⟨a, e⟩ ⟨⟨turn, hturn, rfl⟩, hcount⟩
  obtain ⟨entry, hentry, rfl⟩ := List.mem_map.mp hturn
  obtain ⟨hon, hlists⟩ := hgroup entry.1 entry.2 (SortedMap.lookup_eq_some_iff.mpr hentry)
  exact ⟨hon, hlists, hcount⟩

/-- The batch that is queued has the hosts of the map. -/
theorem mem_keys_asyncBatch {buf : ByteMem} {backup : SortedMap Nat (List Req)} {a : Nat}
    (ha : a ∈ (asyncBatch buf backup).keys) : ∃ rs, backup.lookup a = some rs := by
  have hinsert : asyncBatch buf backup = (∅ : SortedMap Nat (List Comm)).insertAll
      (backup.entries.map (fun g => (g.1, g.2.map (fun r => ⟨r.bytes buf, r.ext⟩)))) := by
    rw [SortedMap.insertAll, List.foldl_map]
    rfl
  rw [SortedMap.mem_keys, hinsert, SortedMap.isSome_lookup_insertAll, List.map_map] at ha
  rcases ha with ha | hnone
  · obtain ⟨entry, hentry, rfl⟩ := List.mem_map.mp ha
    exact ⟨entry.2, SortedMap.lookup_eq_some_iff.mpr hentry⟩
  · cases hnone

/-- **One batch** of an event. -/
theorem serveBatch_online (h : HostTable.OnlyOnline out.hosts hosts) (cfg : ProxyConfig)
    (buf : ByteMem) (reqs : List Req) (thread : Thread) :
    (serveBatch cfg out buf reqs thread).Spec (ProxyEffect.Online out.hosts hosts)
      (fun _ => True) := by
  have hsent := h.sentOnline cfg buf reqs
  unfold serveBatch
  apply (Act.Spec.emit (e := ProxyEffect.grouped _) trivial).bind
  intro _ _
  apply (talkToHosts_online cfg buf out.groupIo thread ?_).bind
  · intro thread _
    have hqueue : (queueBackup cfg out buf (createReqGroup cfg out.hosts buf reqs).backup).Spec
        (ProxyEffect.Online out.hosts hosts) (fun _ => True) := by
      unfold queueBackup
      split_ifs
      · refine .emit fun a ha => ?_
        obtain ⟨rs, hrs⟩ := mem_keys_asyncBatch ha
        obtain ⟨hon, hlists, _⟩ := hsent.backup a rs hrs
        exact ⟨hon, hlists⟩
      · exact .pure trivial
    apply hqueue.bind
    intro _ _
    have hsync : (talkToSync cfg out buf (createReqGroup cfg out.hosts buf reqs).sync thread).Spec
        (ProxyEffect.Online out.hosts hosts) (fun _ => True) := by
      unfold talkToSync
      split_ifs
      · refine talkToHosts_online cfg buf out.syncIo thread fun a rs hrs => ?_
        obtain ⟨hon, hlists, _⟩ := hsent.sync a rs hrs
        exact ⟨hon, _, hlists⟩
      · exact .pure trivial
    apply hsync.bind
    intro thread _
    have hreply : (replyToClient thread).Spec (ProxyEffect.Online out.hosts hosts)
        (fun _ => True) := by
      unfold replyToClient
      split_ifs
      · exact .emit trivial
      · exact .pure trivial
    apply hreply.bind
    intro _ _
    exact .pure trivial
  · intro a rs hrs
    obtain ⟨hon, hlists, _⟩ := hsent.group a rs hrs
    exact ⟨hon, hlists.elim (fun hdefault => ⟨_, hdefault⟩) (fun hread => ⟨_, hread⟩)⟩

/-- **One event**, whatever has arrived. -/
theorem readEvent_online (h : HostTable.OnlyOnline out.hosts hosts) (cfg : ProxyConfig)
    (buffer : List UInt8) (w : Worker) :
    (readEvent cfg out buffer w).Spec (ProxyEffect.Online out.hosts hosts) (fun _ => True) := by
  rw [readEvent_eq]
  split_ifs
  · exact .pure trivial
  · apply (Act.Spec.emit (e := ProxyEffect.reply _) trivial).bind
    intro _ _
    exact .pure trivial
  · apply (Act.Spec.ofOption (P := fun _ => True) (fun _ _ => trivial)).bind
    intro parse _
    cases parse.1 with
    | success =>
        apply (serveBatch_online h cfg _ parse.2.2 w.thread).bind
        intro _ _
        exact .pure trivial
    | again => exact .pure trivial
    | error => exact .pure trivial
    | ignore => exact .pure trivial

end Event

/-- Two default hosts that share a position, the first of them also a backup host with
another index. -/
def collidingListed : HostTable.Config where
  hosts := [⟨"127.0.0.1".toList, 11211, 1, 2⟩, ⟨"127.0.0.2".toList, 11211, 1, 1⟩]
  hostsBackup := [⟨"127.0.0.1".toList, 11211, 3, 1⟩]
  hostsRead := []

/-- They are started. -/
def collidingStarted : HostTable × HostTable.GroupHosts :=
  (HostTable.start collidingListed).getD (.new, fun _ => ∅)

/-- They are started without an error. -/
theorem collidingListed_start :
    HostTable.start collidingListed = some (collidingStarted.1, collidingStarted.2) := rfl

/-- What an event finds when no host can be reached. -/
def collidingOutside (t : HostTable) : Outside := { replicatedOutside with hosts := t }

end KvProxy
