import KvProxy.FanOut

/-!
# Where `createReqGroup` puts a request

The first loop of `createReqGroup` gives a request with a key to the owner of
the key in one ring, and an update also to its owner in the backup ring, in one
of two maps.  The second loop gives the requests for every host to all hosts
that have an entry by then.

* `Routed` — the three maps, host by host;
* `requests_routed` — they are what the loops fill in;
* `sync_by_key_iff` — when the choice between the two backup maps is one by the
  key alone.
-/

namespace KvProxy

open MachineInt

/-- The owner of a key in a ring, if the ring has hosts. -/
def ConsistentHash.ownerOf (ring : ConsistentHash) (key : List UInt8) : Option Nat :=
  if ring.hash.entries = [] then none else some (ring.find key).2

/-- The owner of a request: that of its key in the read ring, if it is a read and
there is one, and otherwise in the default ring. -/
def HostTable.groupOwner (hosts : HostTable) (m : ByteMem) (r : Req) : Option Nat :=
  if r.update = false ∧ (hosts.rings .hostsRead).hash.entries ≠ [] then
    (hosts.rings .hostsRead).ownerOf (r.keyBytes m)
  else (hosts.rings .hosts).ownerOf (r.keyBytes m)

/-- The owner of a request in the backup ring. -/
def HostTable.backupOwner (hosts : HostTable) (m : ByteMem) (r : Req) : Option Nat :=
  (hosts.rings .hostsBackup).ownerOf (r.keyBytes m)

/-- A request for one host. -/
def Req.Keyed (r : Req) : Prop := r.each = false ∧ 0 < r.keyLen

instance (r : Req) : Decidable r.Keyed := inferInstanceAs (Decidable (_ ∧ _))

/-- An update that has a default owner. -/
def Req.Stored (hosts : HostTable) (m : ByteMem) (r : Req) : Prop :=
  r.Keyed ∧ r.update = true ∧ (hosts.rings .hosts).ownerOf (r.keyBytes m) ≠ none

instance (hosts : HostTable) (m : ByteMem) (r : Req) : Decidable (r.Stored hosts m) :=
  inferInstanceAs (Decidable (_ ∧ _))

/-- What the list of a host should be: its own requests and behind them those
for every host.  A host without own requests has no entry. -/
def hostEntry (keyed each : List Req) : Option (List Req) :=
  if keyed = [] then none else some (keyed ++ each)

/-- The maps `createReqGroup` should fill. -/
structure Routed (cfg : ProxyConfig) (hosts : HostTable) (m : ByteMem) (reqs : List Req)
    (g : ReqGroups) : Prop where
  group : ∀ a, g.group.lookup a =
    hostEntry (reqs.filter (fun r => r.Keyed ∧ hosts.groupOwner m r = some a))
      (reqs.filter (fun r => r.each))
  backup : ∀ a, g.backup.lookup a =
    hostEntry (reqs.filter (fun r => r.Stored hosts m ∧ strncmpEq m r.key cfg.syncStr = false ∧
        hosts.backupOwner m r = some a)) (reqs.filter (fun r => r.each))
  sync : ∀ a, g.sync.lookup a =
    hostEntry (reqs.filter (fun r => r.Stored hosts m ∧ strncmpEq m r.key cfg.syncStr = true ∧
        hosts.backupOwner m r = some a)) []

/-! ## One request -/

/-- The alias of the host that is found for a request; 0 is that of no host. -/
def HostTable.groupAlias (hosts : HostTable) (m : ByteMem) (r : Req) : Nat :=
  ((hosts.rings (if r.update ≠ true ∧ (hosts.rings .hostsRead).getSize > 0 then .hostsRead
    else .hosts)).find (r.keyBytes m)).2

/-- The alias of the backup host that is found for a request. -/
def HostTable.backupAlias (hosts : HostTable) (m : ByteMem) (r : Req) : Nat :=
  if (hosts.rings .hostsBackup).getSize > 0 then
    ((hosts.rings .hostsBackup).find (r.keyBytes m)).2
  else 0

/-- An update that comes to the second half of its iteration. -/
def Req.Backed (hosts : HostTable) (m : ByteMem) (r : Req) : Prop :=
  r.update = true ∧ (r.each = true ∨ 0 < r.keyLen ∧ hosts.groupAlias m r ≠ 0)

instance (hosts : HostTable) (m : ByteMem) (r : Req) : Decidable (r.Backed hosts m) :=
  inferInstanceAs (Decidable (_ ∧ _))

section Loops

variable (cfg : ProxyConfig) (hosts : HostTable) (m : ByteMem)

/-- The second half of an iteration puts an update into one of two maps. -/
theorem groupBackup_eq (r : Req) (g : ReqGroups) :
    groupBackup cfg hosts m r g =
      if r.update = true ∧ hosts.backupAlias m r ≠ 0 then
        if strncmpEq m r.key cfg.syncStr then
          { g with sync := g.sync.pushAt (hosts.backupAlias m r) r }
        else { g with backup := g.backup.pushAt (hosts.backupAlias m r) r }
      else g := by
  unfold groupBackup HostTable.backupAlias
  by_cases hsize : (hosts.rings .hostsBackup).getSize > 0
  · by_cases hupdate : r.update = true
    · by_cases hfound : ((hosts.rings .hostsBackup).find (r.keyBytes m)).2 = 0
      · simp [hsize, hupdate, hfound]
      · simp only [hsize, hupdate, hfound, and_self, if_true, if_false, ne_eq, not_false_eq_true]
        rfl
    · simp [hupdate]
  · simp [hsize]

/-- The first half of an iteration, for a request with a key. -/
theorem groupReq_keyed {r : Req} (hkeyed : r.Keyed) (s : ReqGroups × List Req) :
    groupReq cfg hosts m s r =
      if hosts.groupAlias m r = 0 then s
      else (groupBackup cfg hosts m r
        { s.1 with group := s.1.group.pushAt (hosts.groupAlias m r) r }, s.2) := by
  have hkey : r.keyLen ≠ 0 := by
    have hpos := hkeyed.2
    omega
  unfold groupReq
  rw [hkeyed.1, if_neg (by simp), if_neg hkey]
  rfl

/-- **One request**: what it does to each map. -/
theorem groupReq_eq (s : ReqGroups × List Req) (r : Req) :
    groupReq cfg hosts m s r =
      (⟨if r.Keyed ∧ hosts.groupAlias m r ≠ 0 then
          s.1.group.pushAt (hosts.groupAlias m r) r else s.1.group,
        if (r.Backed hosts m ∧ strncmpEq m r.key cfg.syncStr = false) ∧
            hosts.backupAlias m r ≠ 0 then
          s.1.backup.pushAt (hosts.backupAlias m r) r else s.1.backup,
        if (r.Backed hosts m ∧ strncmpEq m r.key cfg.syncStr = true) ∧
            hosts.backupAlias m r ≠ 0 then
          s.1.sync.pushAt (hosts.backupAlias m r) r else s.1.sync⟩,
        if r.each then s.2 ++ [r] else s.2) := by
  have hgroup : ∀ g : ReqGroups, r.Backed hosts m → groupBackup cfg hosts m r g =
      ⟨g.group,
        if (r.Backed hosts m ∧ strncmpEq m r.key cfg.syncStr = false) ∧
            hosts.backupAlias m r ≠ 0 then
          g.backup.pushAt (hosts.backupAlias m r) r else g.backup,
        if (r.Backed hosts m ∧ strncmpEq m r.key cfg.syncStr = true) ∧
            hosts.backupAlias m r ≠ 0 then
          g.sync.pushAt (hosts.backupAlias m r) r else g.sync⟩ := by
    intro g hbacked
    rw [groupBackup_eq]
    by_cases hzero : hosts.backupAlias m r = 0
    · simp [hzero]
    · cases hsync : strncmpEq m r.key cfg.syncStr <;> simp [hzero, hbacked, hbacked.1]
  have hread : ∀ g : ReqGroups, r.update = false → groupBackup cfg hosts m r g = g := by
    intro g hupdate
    simp [groupBackup_eq, hupdate]
  by_cases heach : r.each = true
  · have hnot : ¬ r.Keyed := by simp [Req.Keyed, heach]
    have hboth : groupReq cfg hosts m s r = (groupBackup cfg hosts m r s.1, s.2 ++ [r]) := by
      simp [groupReq, heach]
    rw [hboth]
    by_cases hupdate : r.update = true
    · rw [hgroup s.1 ⟨hupdate, Or.inl heach⟩]
      simp [heach, hnot]
    · rw [hread s.1 (by simpa using hupdate)]
      simp [heach, hupdate, hnot, Req.Backed]
  · by_cases hkeyed : r.Keyed
    · rw [groupReq_keyed cfg hosts m hkeyed]
      by_cases hzero : hosts.groupAlias m r = 0
      · simp [heach, hzero, Req.Backed]
      · rw [if_neg hzero]
        by_cases hupdate : r.update = true
        · rw [hgroup _ ⟨hupdate, Or.inr ⟨hkeyed.2, hzero⟩⟩]
          simp [heach, hkeyed, hzero]
        · rw [hread _ (by simpa using hupdate)]
          simp [heach, hkeyed, hzero, hupdate, Req.Backed]
    · -- without a key the request is dropped
      have hkey : r.keyLen = 0 := by
        by_contra hne
        exact hkeyed ⟨by simpa using heach, by omega⟩
      have hskip : groupReq cfg hosts m s r = s := by simp [groupReq, heach, hkey]
      rw [hskip]
      simp [heach, hkey, hkeyed, Req.Backed]

/-- The first loop fills each map on its own. -/
theorem foldl_groupReq_eq (reqs : List Req) (s : ReqGroups × List Req) :
    reqs.foldl (groupReq cfg hosts m) s =
      (⟨reqs.foldl (fun g r => if r.Keyed ∧ hosts.groupAlias m r ≠ 0 then
            g.pushAt (hosts.groupAlias m r) r else g) s.1.group,
        reqs.foldl (fun g r => if (r.Backed hosts m ∧ strncmpEq m r.key cfg.syncStr = false) ∧
            hosts.backupAlias m r ≠ 0 then
            g.pushAt (hosts.backupAlias m r) r else g) s.1.backup,
        reqs.foldl (fun g r => if (r.Backed hosts m ∧ strncmpEq m r.key cfg.syncStr = true) ∧
            hosts.backupAlias m r ≠ 0 then
            g.pushAt (hosts.backupAlias m r) r else g) s.1.sync⟩,
        s.2 ++ reqs.filter (fun r => r.each)) := by
  induction reqs generalizing s with
  | nil => simp
  | cons r reqs ih =>
      rw [List.foldl_cons, groupReq_eq, ih]
      cases hr : r.each <;> simp [hr]

/-- A map filled with the requests that have a property and an alias. -/
theorem lookup_aliased (p : Req → Prop) [DecidablePred p] (aliasOf : Req → Nat)
    (reqs : List Req) (a : Nat) :
    (reqs.foldl (fun g r => if p r ∧ aliasOf r ≠ 0 then
        SortedMap.pushAt g (aliasOf r) r else g) ∅).lookup a =
      hostEntry (reqs.filter (fun r => p r ∧ aliasOf r ≠ 0 ∧ aliasOf r = a)) [] := by
  rw [SortedMap.lookup_groupBy_of (fun r => p r ∧ aliasOf r ≠ 0) aliasOf]
  simp only [and_assoc, hostEntry, List.append_nil]

/-- The second loop adds the requests for every host to the entries there are. -/
theorem lookup_foldl_pushEach (each : List Req) (g : ReqGroups) (a : Nat) :
    let g' := each.foldl (fun g r =>
      { g with group := pushEach g.group r, backup := pushEach g.backup r }) g
    g'.group.lookup a = (g.group.lookup a).map (fun rs => rs ++ each) ∧
      g'.backup.lookup a = (g.backup.lookup a).map (fun rs => rs ++ each) ∧ g'.sync = g.sync := by
  induction each generalizing g with
  | nil => simp
  | cons r each ih =>
      obtain ⟨hgroup, hbackup, hsync⟩ := ih
        { g with group := pushEach g.group r, backup := pushEach g.backup r }
      have hpush : ∀ n : SortedMap Nat (List Req),
          ((pushEach n r).lookup a).map (fun rs => rs ++ each) =
            (n.lookup a).map (fun rs => rs ++ r :: each) := by
        intro n
        have hall : (pushEach n r).lookup a = (n.lookup a).map (fun rs => rs ++ [r]) :=
          SortedMap.lookup_pushAll n r a
        rw [hall, Option.map_map]
        congr 1
        funext rs
        simp
      refine ⟨?_, ?_, hsync⟩
      · rw [List.foldl_cons, hgroup, hpush]
      · rw [List.foldl_cons, hbackup, hpush]

theorem map_hostEntry (keyed each : List Req) :
    (hostEntry keyed []).map (fun rs => rs ++ each) = hostEntry keyed each := by
  unfold hostEntry
  split_ifs <;> simp

/-- **The maps, by the aliases that are found.** -/
theorem lookup_createReqGroup (reqs : List Req) (a : Nat) :
    (createReqGroup cfg hosts m reqs).group.lookup a =
        hostEntry (reqs.filter (fun r => r.Keyed ∧ hosts.groupAlias m r ≠ 0 ∧
          hosts.groupAlias m r = a)) (reqs.filter (fun r => r.each)) ∧
      (createReqGroup cfg hosts m reqs).backup.lookup a =
        hostEntry (reqs.filter (fun r => (r.Backed hosts m ∧
          strncmpEq m r.key cfg.syncStr = false) ∧ hosts.backupAlias m r ≠ 0 ∧
          hosts.backupAlias m r = a)) (reqs.filter (fun r => r.each)) ∧
      (createReqGroup cfg hosts m reqs).sync.lookup a =
        hostEntry (reqs.filter (fun r => (r.Backed hosts m ∧
          strncmpEq m r.key cfg.syncStr = true) ∧ hosts.backupAlias m r ≠ 0 ∧
          hosts.backupAlias m r = a)) [] := by
  unfold createReqGroup
  dsimp only
  rw [foldl_groupReq_eq]
  obtain ⟨hgroup, hbackup, hsync⟩ := lookup_foldl_pushEach ([] ++ reqs.filter (fun r => r.each))
    _ a
  rw [hgroup, hbackup, hsync, lookup_aliased, lookup_aliased, lookup_aliased, map_hostEntry,
    map_hostEntry, List.nil_append]
  exact ⟨rfl, rfl, rfl⟩

end Loops

/-! ## Owners -/

theorem getSize_pos_iff (ring : ConsistentHash) : ring.getSize > 0 ↔ ring.hash.entries ≠ [] :=
  List.length_pos_iff

/-- The alias that is found is that of the owner, if there is one. -/
theorem find_alias_iff {ring : ConsistentHash} (halias : ∀ e ∈ ring.hash, 1 ≤ e.2.2)
    (key : List UInt8) (a : Nat) :
    (ring.find key).2 ≠ 0 ∧ (ring.find key).2 = a ↔ ring.ownerOf key = some a := by
  unfold ConsistentHash.ownerOf
  by_cases hnil : ring.hash.entries = []
  · have hzero : (ring.find key).2 = 0 := by
      rw [(ring.find_eq_noFound_iff halias key).mpr hnil]
      rfl
    simp [hnil, hzero]
  · obtain ⟨e, he, hfind, _⟩ := ring.find_spec key hnil
    have hpos := halias e he
    have hne : (ring.find key).2 ≠ 0 := by
      rw [hfind]
      omega
    simp [hnil, hne]

section Owners

variable {hosts : HostTable} (halias : ∀ type, ∀ e ∈ (hosts.rings type).hash, 1 ≤ e.2.2)
  (m : ByteMem) (r : Req)

include halias

theorem groupAlias_iff (a : Nat) :
    hosts.groupAlias m r ≠ 0 ∧ hosts.groupAlias m r = a ↔ hosts.groupOwner m r = some a := by
  unfold HostTable.groupAlias
  rw [find_alias_iff (halias _)]
  unfold HostTable.groupOwner
  simp only [getSize_pos_iff, ne_eq, Bool.not_eq_true]
  split_ifs <;> rfl

theorem backupAlias_iff (a : Nat) :
    hosts.backupAlias m r ≠ 0 ∧ hosts.backupAlias m r = a ↔ hosts.backupOwner m r = some a := by
  unfold HostTable.backupAlias HostTable.backupOwner
  by_cases hsize : (hosts.rings .hostsBackup).getSize > 0
  · rw [if_pos hsize, find_alias_iff (halias _)]
  · have hnil : (hosts.rings .hostsBackup).hash.entries = [] := by
      simpa [getSize_pos_iff] using hsize
    rw [if_neg hsize]
    simp [ConsistentHash.ownerOf, hnil]

/-- An update that is for one host comes to the second half if it has a default
owner. -/
theorem backed_iff (heach : r.each = true → r.update = false) :
    r.Backed hosts m ↔ r.Stored hosts m := by
  have hnone : hosts.groupAlias m r ≠ 0 ↔ hosts.groupOwner m r ≠ none := by
    have hiff := groupAlias_iff halias m r (hosts.groupAlias m r)
    constructor
    · intro hne
      rw [hiff.mp ⟨hne, rfl⟩]
      simp
    · intro hne
      obtain ⟨a, ha⟩ := Option.ne_none_iff_exists'.mp hne
      exact ((groupAlias_iff halias m r a).mpr ha).1
  unfold Req.Backed Req.Stored Req.Keyed
  rw [hnone]
  unfold HostTable.groupOwner
  cases hr : r.each <;> cases hu : r.update <;> simp_all

end Owners

/-- **Where the requests of a list go.** -/
theorem requests_routed (cfg : ProxyConfig) {hosts : HostTable} (m : ByteMem) {reqs : List Req}
    (heach : ∀ r ∈ reqs, r.each = true → r.update = false)
    (halias : ∀ type, ∀ e ∈ (hosts.rings type).hash, 1 ≤ e.2.2) :
    Routed cfg hosts m reqs (createReqGroup cfg hosts m reqs) := by
  have hbacked : ∀ (sync : Bool) (a : Nat),
      reqs.filter (fun r => (r.Backed hosts m ∧ strncmpEq m r.key cfg.syncStr = sync) ∧
        hosts.backupAlias m r ≠ 0 ∧ hosts.backupAlias m r = a) =
      reqs.filter (fun r => r.Stored hosts m ∧ strncmpEq m r.key cfg.syncStr = sync ∧
        hosts.backupOwner m r = some a) := by
    intro sync a
    refine List.filter_congr ?_
    intro r hr
    rw [decide_eq_decide, backupAlias_iff halias, backed_iff halias m r (heach r hr), and_assoc]
  refine ⟨?_, ?_, ?_⟩
  · intro a
    rw [(lookup_createReqGroup cfg hosts m reqs a).1]
    simp only [groupAlias_iff halias]
  · intro a
    rw [(lookup_createReqGroup cfg hosts m reqs a).2.1, hbacked]
  · intro a
    rw [(lookup_createReqGroup cfg hosts m reqs a).2.2, hbacked]

/-- A default host, a backup host and a host for reads. -/
def threeHosts : HostTable :=
  ((HostTable.start ⟨[⟨"127.0.0.1".toList, 11211, 1, 1⟩], [⟨"127.0.0.2".toList, 11211, 2, 1⟩],
    [⟨"127.0.0.3".toList, 11211, 3, 1⟩]⟩).map Prod.fst).getD .new

/-- A read of `"a"`, an update of `"b"` and a request for every host. -/
def mixedRequests : List Req :=
  [⟨0, 1, 0, 1, false, false, 0⟩, ⟨1, 1, 1, 1, true, false, 0⟩, ⟨2, 0, 2, 1, false, true, endMark⟩]

theorem threeHosts_alias : ∀ type, ∀ e ∈ (threeHosts.rings type).hash, 1 ≤ e.2.2 := by
  have hall : ∀ type, ∀ e ∈ (threeHosts.rings type).hash.entries, 1 ≤ e.2.2 := by
    intro type
    cases type <;> decide +kernel
  exact hall

theorem mixed_requests_routed :
    Routed .default threeHosts (ByteMem.ofList [97, 98, 99] (fun _ => 0)) mixedRequests
      (createReqGroup .default threeHosts (ByteMem.ofList [97, 98, 99] (fun _ => 0))
        mixedRequests) :=
  requests_routed .default _ (by decide) threeHosts_alias

/-! ## The sync map -/

/-- A request is in the list of some host. -/
def Listed (group : SortedMap Nat (List Req)) (r : Req) : Prop :=
  ∃ a reqs, group.lookup a = some reqs ∧ r ∈ reqs

/-- The request is in the sync map rather than the backup map exactly when its
key starts with `sync_str`. -/
def SyncByKey (cfg : ProxyConfig) (hosts : HostTable) (m : ByteMem) (reqs : List Req) (r : Req) :
    Prop :=
  let g := createReqGroup cfg hosts m reqs
  (Listed g.sync r ∧ ¬ Listed g.backup r ↔ cfg.syncStr <+: r.keyBytes m) ∧
    (Listed g.backup r ∧ ¬ Listed g.sync r ↔ ¬ cfg.syncStr <+: r.keyBytes m)

/-- `strncmp` with a text without NUL compares bytes. -/
theorem strncmpEq_iff (m : ByteMem) {text : List UInt8} (hnul : (0 : UInt8) ∉ text) (p : Int) :
    strncmpEq m p text = true ↔ m.slice p text.length = text := by
  induction text generalizing p with
  | nil => simp [strncmpEq]
  | cons c text ih =>
      have hc : c ≠ 0 := (List.ne_of_not_mem_cons hnul).symm
      rw [strncmpEq, List.length_cons, ByteMem.slice_succ, List.cons.injEq,
        ← ih (List.not_mem_of_not_mem_cons hnul)]
      by_cases hbyte : m p = c
      · simp [hbyte, hc]
      · simp [hbyte]

/-- A key starts with a text if it is long enough and its bytes are those. -/
theorem start_keyBytes_iff (m : ByteMem) (r : Req) (text : List UInt8) :
    text <+: r.keyBytes m ↔ text.length ≤ r.keyLen ∧ m.slice r.key text.length = text := by
  constructor
  · intro h
    have hlen : text.length ≤ r.keyLen := by
      have hle := h.length_le
      rwa [Req.keyBytes, ByteMem.length_slice] at hle
    obtain ⟨rest, hrest⟩ := Nat.exists_eq_add_of_le hlen
    refine ⟨hlen, ?_⟩
    rw [Req.keyBytes, hrest, ByteMem.slice_add] at h
    have htake := List.prefix_iff_eq_take.mp h
    rw [List.take_left' (by simp)] at htake
    exact htake.symm
  · intro h
    obtain ⟨hlen, hbytes⟩ := h
    obtain ⟨rest, hrest⟩ := Nat.exists_eq_add_of_le hlen
    rw [Req.keyBytes, hrest, ByteMem.slice_add, hbytes]
    exact List.prefix_append _ _

/-- A request is listed for some host if it is among the own requests of one. -/
theorem listed_iff {group : SortedMap Nat (List Req)} {p : Req → Prop} [DecidablePred p]
    {aliasOf : Req → Nat} {reqs each : List Req}
    (hlookup : ∀ a, group.lookup a =
      hostEntry (reqs.filter (fun r => p r ∧ aliasOf r ≠ 0 ∧ aliasOf r = a)) each)
    {r : Req} (hr : r ∈ reqs) (hone : r ∉ each) (hfound : aliasOf r ≠ 0) :
    Listed group r ↔ p r := by
  simp only [Listed, hlookup, hostEntry]
  constructor
  · intro h
    obtain ⟨a, list, hlist, hmem⟩ := h
    split_ifs at hlist
    obtain rfl := Option.some.inj hlist
    rcases List.mem_append.mp hmem with hown | hall
    · exact (of_decide_eq_true (List.mem_filter.mp hown).2).1
    · exact absurd hall hone
  · intro h
    have hown : r ∈ reqs.filter (fun x => p x ∧ aliasOf x ≠ 0 ∧ aliasOf x = aliasOf r) :=
      List.mem_filter.mpr ⟨hr, decide_eq_true ⟨h, hfound, rfl⟩⟩
    refine ⟨aliasOf r, _, if_neg (List.ne_nil_of_mem hown), ?_⟩
    exact List.mem_append_left _ hown

/-- **The choice between the backup maps.**  It is one by the key unless the key is
shorter than `sync_str` and the bytes behind it make up for what is missing. -/
theorem sync_by_key_iff (cfg : ProxyConfig) (hosts : HostTable) (m : ByteMem) {reqs : List Req}
    {r : Req} (hnul : (0 : UInt8) ∉ cfg.syncStr) (hr : r ∈ reqs) (hkeyed : r.Keyed)
    (hupdate : r.update = true) (howner : hosts.groupAlias m r ≠ 0)
    (hbackup : hosts.backupAlias m r ≠ 0) :
    SyncByKey cfg hosts m reqs r ↔
      ¬ (r.keyLen < cfg.syncStr.length ∧
        m.slice r.key cfg.syncStr.length = cfg.syncStr) := by
  have hbacked : r.Backed hosts m := ⟨hupdate, Or.inr ⟨hkeyed.2, howner⟩⟩
  have heach : r ∉ reqs.filter (fun x => x.each) := by
    intro hmem
    have heach := (List.mem_filter.mp hmem).2
    rw [hkeyed.1] at heach
    cases heach
  have hinBackup := listed_iff (fun a => (lookup_createReqGroup cfg hosts m reqs a).2.1) hr heach
    hbackup
  have hinSync := listed_iff (fun a => (lookup_createReqGroup cfg hosts m reqs a).2.2) hr
    List.not_mem_nil hbackup
  have hcompare := strncmpEq_iff m hnul r.key
  have hstart := start_keyBytes_iff m r cfg.syncStr
  unfold SyncByKey
  dsimp only
  rw [hinBackup, hinSync, hstart, ← hcompare]
  cases hsync : strncmpEq m r.key cfg.syncStr
  · simp [hbacked]
  · simp only [hbacked, true_and, and_true, reduceCtorEq, not_false_eq_true, true_iff, not_true,
      false_iff, false_and, not_le]
    omega

/-- A proxy that replicates at once what has a key with `"+a"` in front. -/
def syncPlusA : ProxyConfig := { ProxyConfig.default with syncStr := [43, 97] }

/-- An update of the key `"+"` at the start of the buffer. -/
def updateOfPlus : Req := ⟨0, 1, 0, 2, true, false, 0⟩

theorem updateOfPlus_found :
    threeHosts.groupAlias (ByteMem.ofList [43, 98] (fun _ => 0)) updateOfPlus ≠ 0 ∧
      threeHosts.backupAlias (ByteMem.ofList [43, 98] (fun _ => 0)) updateOfPlus ≠ 0 ∧
      threeHosts.groupAlias (ByteMem.ofList [43, 97] (fun _ => 0)) updateOfPlus ≠ 0 ∧
      threeHosts.backupAlias (ByteMem.ofList [43, 97] (fun _ => 0)) updateOfPlus ≠ 0 := by
  decide +kernel

/-- With the value `"b"` behind the key the choice is one by the key. -/
theorem sync_by_key_plus_b :
    SyncByKey syncPlusA threeHosts (ByteMem.ofList [43, 98] (fun _ => 0)) [updateOfPlus]
      updateOfPlus :=
  (sync_by_key_iff syncPlusA threeHosts _ (by decide) (by simp) (by decide) rfl
    updateOfPlus_found.1 updateOfPlus_found.2.1).mpr (by decide)

/-- The value `"a"` behind the key `"+"` is taken for a part of the key. -/
theorem value_taken_for_key :
    ¬ SyncByKey syncPlusA threeHosts (ByteMem.ofList [43, 97] (fun _ => 0)) [updateOfPlus]
      updateOfPlus := by
  intro h
  obtain ⟨_, _, hgroup, hbackup⟩ := updateOfPlus_found
  have hbacked : updateOfPlus.Backed threeHosts (ByteMem.ofList [43, 97] (fun _ => 0)) :=
    ⟨rfl, Or.inr ⟨by decide, hgroup⟩⟩
  have hcompare : strncmpEq (ByteMem.ofList [43, 97] (fun _ => 0)) updateOfPlus.key
      syncPlusA.syncStr = true := by decide
  have hinSync := (listed_iff (fun a => (lookup_createReqGroup syncPlusA threeHosts _
    [updateOfPlus] a).2.2) (List.mem_singleton_self _) List.not_mem_nil hbackup).mpr
    ⟨hbacked, hcompare⟩
  have hnotBackup := mt (listed_iff (fun a => (lookup_createReqGroup syncPlusA threeHosts _
    [updateOfPlus] a).2.1) (List.mem_singleton_self _) (by decide) hbackup).mp
    (fun hp => by simp [hcompare] at hp)
  have hstart := (h.1.mp ⟨hinSync, hnotBackup⟩).length_le
  exact absurd hstart (by decide)

end KvProxy
