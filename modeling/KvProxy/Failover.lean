import KvProxy.Hosts

/-!
# Failover and the rings of the online hosts

What each ring should be at any time: the ring `setHosts` builds from those
hosts of the group that are not flagged offline, each with the index and the
weight of this group's own configuration.

A ring is compared through its entries.  As long as no two hosts of a group
share a position, the ring of a set of hosts consists of exactly their
virtual nodes (`mem_ringOf`), so taking a host out or in is a change of the
set (`delHost_ringOf`, `addHost_ringOf`).  Taking out is what `delHost` is for
and not what its loop does (`delHost_exact_iff`); this goes for all that
follows about rings under `failover`.

`failover` adds a host from one table of index and weight per alias, which
the last group that lists the host has written.  So the rings are right as
long as a host that comes back has one index and one weight in all its groups
(`failovers_keep_rings`), and wrong after the first return of a host listed
with two indices (`two_ids_ring_not_restored`).
-/

namespace KvProxy

/-- The virtual nodes of a list of hosts, in the order `createVNodes` makes them. -/
def vnodes (hosts : List (Lex (Text × Nat) × (Nat × Nat))) : List (Nat × (Text × Nat)) :=
  hosts.flatMap (fun it =>
    (List.range it.2.2).map (fun i => (vnodeKey it.2.1 i, ofLex it.1)))

theorem mem_vnodes {hosts : List (Lex (Text × Nat) × (Nat × Nat))} {e : Nat × (Text × Nat)} :
    e ∈ vnodes hosts ↔
      ∃ it ∈ hosts, ∃ i < it.2.2, e = (vnodeKey it.2.1 i, ofLex it.1) := by
  simp only [vnodes, List.mem_flatMap, List.mem_map, List.mem_range]
  constructor
  · intro hsplit
    obtain ⟨it, hit, i, hi, rfl⟩ := hsplit
    exact ⟨it, hit, i, hi, rfl⟩
  · intro hsplit
    obtain ⟨it, hit, i, hi, rfl⟩ := hsplit
    exact ⟨it, hit, i, hi, rfl⟩

/-- The two loops of `createVNodes` insert the virtual nodes one by one. -/
theorem insertHosts_eq_insertAll (ring : Ring)
    (hosts : List (Lex (Text × Nat) × (Nat × Nat))) :
    insertHosts ring hosts = ring.insertAll (vnodes hosts) := by
  induction hosts generalizing ring with
  | nil => rfl
  | cons it hosts ih =>
      have hinner : insertVNodes ring (ofLex it.1) it.2.1 it.2.2 =
          ring.insertAll
            ((List.range it.2.2).map (fun i => (vnodeKey it.2.1 i, ofLex it.1))) := by
        simp only [insertVNodes, SortedMap.insertAll, List.foldl_map]
      rw [insertHosts, List.foldl_cons, ← insertHosts, ih, hinner]
      simp only [SortedMap.insertAll, vnodes, List.flatMap_cons, List.foldl_append]

/-- No two hosts of a group have a virtual node at one position. -/
def VNodesApart (hosts : Hosts) : Prop :=
  ∀ a ∈ hosts.entries, ∀ b ∈ hosts.entries, ∀ i < a.2.2, ∀ j < b.2.2,
    vnodeKey a.2.1 i = vnodeKey b.2.1 j → ofLex a.1 = ofLex b.1

instance (hosts : Hosts) : Decidable (VNodesApart hosts) := by
  unfold VNodesApart
  infer_instance

/-- The hosts of a group that are not flagged offline. -/
def online (hosts : Hosts) (offline : Nat → Bool) : Hosts :=
  hosts.filter (fun it => !offline (ofLex it.1).2)

/-- The ring `setHosts` builds from the online hosts of a group. -/
def ringOf (hosts : Hosts) (offline : Nat → Bool) : Ring :=
  (ConsistentHash.new.setHosts true (online hosts offline) false).hash

theorem ringOf_eq (hosts : Hosts) (offline : Nat → Bool) :
    ringOf hosts offline = insertHosts ∅ (online hosts offline).entries := rfl

/-- The ring of the online hosts consists of their virtual nodes. -/
theorem mem_ringOf {hosts : Hosts} (hapart : VNodesApart hosts) {offline : Nat → Bool}
    {e : Nat × (Text × Nat)} :
    e ∈ ringOf hosts offline ↔
      ∃ it ∈ hosts, offline (ofLex it.1).2 = false ∧
        ∃ i < it.2.2, e = (vnodeKey it.2.1 i, ofLex it.1) := by
  have honline : ∀ it, it ∈ (online hosts offline).entries ↔
      it ∈ hosts ∧ offline (ofLex it.1).2 = false := by
    intro it
    rw [← SortedMap.mem_def, online, SortedMap.mem_filter, Bool.not_eq_true']
  rw [ringOf_eq, insertHosts_eq_insertAll, SortedMap.mem_insertAll, mem_vnodes]
  · simp only [honline, SortedMap.not_mem_empty, false_and, or_false, and_assoc]
  · intro x hx y hy hkey
    obtain ⟨a, ha, i, hi, rfl⟩ := mem_vnodes.mp hx
    obtain ⟨b, hb, j, hj, rfl⟩ := mem_vnodes.mp hy
    have hhost := hapart a ((honline a).mp ha).1 b ((honline b).mp hb).1 i hi j hj hkey
    exact Prod.ext hkey hhost

/-- Removing the entries of an alias is taking its host out of the group. -/
theorem delHost_ringOf {hosts : Hosts} (hapart : VNodesApart hosts) {h : ConsistentHash}
    {offline : Nat → Bool} (hring : h.hash = ringOf hosts offline) (a : Nat) :
    (h.delHost true a).2.hash = ringOf hosts (Function.update offline a true) := by
  apply SortedMap.ext_mem
  intro e
  have hdel : (h.delHost true a).2.hash =
      (ringOf hosts offline).filter (fun e => e.2.2 ≠ a) := by
    rw [← hring]
    rfl
  rw [hdel, SortedMap.mem_filter, mem_ringOf hapart, mem_ringOf hapart]
  constructor
  · intro hsplit
    obtain ⟨⟨it, hit, hon, i, hi, rfl⟩, hne⟩ := hsplit
    have hne' : (ofLex it.1).2 ≠ a := by simpa using hne
    exact ⟨it, hit, by rw [Function.update_of_ne hne']; exact hon, i, hi, rfl⟩
  · intro hsplit
    obtain ⟨it, hit, hon, i, hi, rfl⟩ := hsplit
    have hne : (ofLex it.1).2 ≠ a := by
      intro heq
      simp [heq] at hon
    rw [Function.update_of_ne hne] at hon
    exact ⟨⟨it, hit, hon, i, hi, rfl⟩, by simpa using hne⟩

/-- Adding the host of an alias with the index and the weight of the group is
taking it into the group. -/
theorem addHost_ringOf {hosts : Hosts} (hapart : VNodesApart hosts) {h : ConsistentHash}
    {offline : Nat → Bool} (hring : h.hash = ringOf hosts offline)
    {hostPort : Text} {a index weight : Nat}
    (hmem : (toLex (hostPort, a), (index, weight)) ∈ hosts)
    (honly : ∀ it ∈ hosts, (ofLex it.1).2 = a → it.1 = toLex (hostPort, a)) :
    (h.addHost true hostPort a index weight).2.hash =
      ringOf hosts (Function.update offline a false) := by
  apply SortedMap.ext_mem
  intro e
  have hadd : (h.addHost true hostPort a index weight).2.hash =
      (ringOf hosts offline).insertAll (vnodes [(toLex (hostPort, a), (index, weight))]) := by
    rw [← insertHosts_eq_insertAll, ← hring]
    rfl
  rw [hadd, SortedMap.mem_insertAll, mem_ringOf hapart, mem_ringOf hapart, mem_vnodes]
  · constructor
    · intro hcases
      rcases hcases with ⟨it, hit, i, hi, rfl⟩ | ⟨⟨it, hit, hon, i, hi, rfl⟩, _⟩
      · obtain rfl := List.mem_singleton.mp hit
        exact ⟨_, hmem, by simp, i, hi, rfl⟩
      · refine ⟨it, hit, ?_, i, hi, rfl⟩
        by_cases heq : (ofLex it.1).2 = a
        · simp [heq]
        · rw [Function.update_of_ne heq]
          exact hon
    · intro hsplit
      obtain ⟨it, hit, hon, i, hi, rfl⟩ := hsplit
      by_cases heq : (ofLex it.1).2 = a
      · have hkey := honly it hit heq
        have hval : it.2 = (index, weight) := by
          refine SortedMap.value_unique (k := it.1) hit ?_
          rw [hkey]
          exact hmem
        refine Or.inl ⟨it, ?_, i, hi, rfl⟩
        rw [List.mem_singleton]
        exact Prod.ext hkey hval
      · rw [Function.update_of_ne heq] at hon
        refine Or.inr ⟨⟨it, hit, hon, i, hi, rfl⟩, ?_⟩
        intro x hx hpos
        obtain ⟨new, hnew, j, hj, rfl⟩ := mem_vnodes.mp hx
        obtain rfl := List.mem_singleton.mp hnew
        have hhost := hapart _ hmem it hit j hj i hi hpos
        rw [← hhost] at heq
        exact heq rfl
  · intro x hx y hy hkey
    obtain ⟨b, hb, i, hi, rfl⟩ := mem_vnodes.mp hx
    obtain ⟨c, hc, j, hj, rfl⟩ := mem_vnodes.mp hy
    obtain rfl := List.mem_singleton.mp hb
    obtain rfl := List.mem_singleton.mp hc
    exact Prod.ext hkey rfl

namespace HostTable

/-! ## What `setHosts` leaves behind -/

/-- The tables agree with the host maps of the groups: membership, the text of
each alias, and one record of index and weight per alias, written by some
group that lists it. -/
structure Wired (t : HostTable) (hosts : GroupHosts) : Prop where
  fresh : ∀ e ∈ t.hostAlias, e.1 ≤ t.aliasCount
  member : ∀ g a, a ∈ t.members g ↔ ∃ it ∈ hosts g, (ofLex it.1).2 = a
  named : ∀ g, ∀ it ∈ hosts g, ∃ hp,
    t.hostAlias.lookup (ofLex it.1).2 = some hp ∧ (ofLex it.1).1 = hostPort hp
  recorded : ∀ g, ∀ it ∈ hosts g, ∃ g', ∃ rec ∈ hosts g',
    (ofLex rec.1).2 = (ofLex it.1).2 ∧ t.hostInfos.lookup (ofLex it.1).2 = some rec.2

/-- An alias has one text in all groups. -/
theorem Wired.key_eq {t : HostTable} {hosts : GroupHosts} (h : Wired t hosts)
    {g g' : GroupType} {it rec : Lex (Text × Nat) × (Nat × Nat)} (hit : it ∈ hosts g)
    (hrec : rec ∈ hosts g') (halias : (ofLex rec.1).2 = (ofLex it.1).2) : rec.1 = it.1 := by
  obtain ⟨hp, hlook, htext⟩ := h.named g it hit
  obtain ⟨hp', hlook', htext'⟩ := h.named g' rec hrec
  rw [halias, hlook, Option.some.injEq] at hlook'
  apply ofLex.injective
  refine Prod.ext ?_ halias
  rw [htext, htext', hlook']

/-- The alias a host gets names it, and no other alias changes. -/
theorem setHostAlias_spec {t : HostTable} (hfresh : ∀ e ∈ t.hostAlias, e.1 ≤ t.aliasCount)
    (host : Text) (port : Nat) :
    ∃ ha n, (t.setHostAlias host port).1 = { t with hostAlias := ha, aliasCount := n } ∧
      (∀ e ∈ ha, e.1 ≤ n) ∧
      ha.lookup (t.setHostAlias host port).2 = some (host, port) ∧
      ∀ b hp, t.hostAlias.lookup b = some hp → ha.lookup b = some hp := by
  unfold setHostAlias
  cases hfind : t.hostAlias.entries.find? (fun it => it.2 = (host, port)) with
  | some it =>
      have hval : it.2 = (host, port) := by simpa using List.find?_some hfind
      have hmem : (it.1, (host, port)) ∈ t.hostAlias := by
        rw [← hval]
        exact List.mem_of_find?_eq_some hfind
      exact ⟨t.hostAlias, t.aliasCount, rfl, hfresh, SortedMap.lookup_eq_some_iff.mpr hmem,
        fun b hp hb => hb⟩
  | none =>
      refine ⟨_, _, rfl, ?_, SortedMap.lookup_insert_self _ _ _, ?_⟩
      · intro e he
        rcases SortedMap.mem_insert.mp he with rfl | ⟨hold, _⟩
        · exact le_refl _
        · exact Nat.le_succ_of_le (hfresh e hold)
      · intro b hp hb
        have hle := hfresh _ (SortedMap.lookup_eq_some_iff.mp hb)
        rw [SortedMap.lookup_insert_of_ne _ _ (by simp at hle; omega)]
        exact hb

/-- The maps of all groups with one more item. -/
theorem mem_update_insert {hosts : GroupHosts} {type g : GroupType} {tmp : Hosts}
    {it item : Lex (Text × Nat) × (Nat × Nat)} :
    it ∈ Function.update hosts type (tmp.insert item.1 item.2) g ↔
      (g = type ∧ it = item) ∨
        (it ∈ Function.update hosts type tmp g ∧ (g = type → it.1 ≠ item.1)) := by
  by_cases hg : g = type
  · subst hg
    rw [Function.update_self, Function.update_self, SortedMap.mem_insert]
    simp
  · rw [Function.update_of_ne hg, Function.update_of_ne hg]
    simp [hg]

/-- **One entry.**  The loop body of `setHosts` keeps the tables in agreement
with the growing host map of its group. -/
theorem Wired.addEntry {t : HostTable} {hosts : GroupHosts} {type : GroupType} {tmp : Hosts}
    (h : Wired t (Function.update hosts type tmp)) (e : HostEntry) :
    Wired (HostTable.addEntry type (t, tmp) e).1
      (Function.update hosts type (HostTable.addEntry type (t, tmp) e).2) := by
  obtain ⟨ha, n, ht, hfresh, hself, hkeep⟩ := setHostAlias_spec h.fresh e.host e.port
  set a := (t.setHostAlias e.host e.port).2 with hadef
  set item : Lex (Text × Nat) × (Nat × Nat) :=
    (toLex (hostPort (e.host, e.port), a), (e.index, e.weight)) with hitem
  have htable : (HostTable.addEntry type (t, tmp) e).1 =
      { t with
        hostAlias := ha
        aliasCount := n
        hostInfos := t.hostInfos.insert a (e.index, e.weight)
        members := Function.update t.members type (insert a (t.members type)) } := by
    simp only [HostTable.addEntry, ht, hadef]
  have htmp : (HostTable.addEntry type (t, tmp) e).2 = tmp.insert item.1 item.2 := rfl
  have hhere : item ∈ Function.update hosts type (tmp.insert item.1 item.2) type :=
    mem_update_insert.mpr (Or.inl ⟨rfl, rfl⟩)
  -- an old entry of another alias is still there
  have hold : ∀ g it, it ∈ Function.update hosts type tmp g → (ofLex it.1).2 ≠ a →
      it ∈ Function.update hosts type (tmp.insert item.1 item.2) g := by
    intro g it hit hne
    refine mem_update_insert.mpr (Or.inr ⟨hit, ?_⟩)
    intro _ heq
    rw [heq] at hne
    exact hne rfl
  rw [htable, htmp]
  refine ⟨hfresh, ?_, ?_, ?_⟩
  · intro g b
    have hmembers : b ∈ Function.update t.members type (insert a (t.members type)) g ↔
        (g = type ∧ b = a) ∨ b ∈ t.members g := by
      by_cases hg : g = type
      · subst hg
        simp
      · simp [hg]
    rw [hmembers, h.member g b]
    constructor
    · intro hcases
      rcases hcases with ⟨rfl, rfl⟩ | ⟨it, hit, rfl⟩
      · exact ⟨item, hhere, rfl⟩
      · by_cases hb : (ofLex it.1).2 = a
        · by_cases hg : g = type
          · subst hg
            exact ⟨item, hhere, hb.symm⟩
          · exact ⟨it, mem_update_insert.mpr (Or.inr ⟨hit, fun h => absurd h hg⟩), rfl⟩
        · exact ⟨it, hold g it hit hb, rfl⟩
    · intro hsplit
      obtain ⟨it, hit, rfl⟩ := hsplit
      rcases mem_update_insert.mp hit with ⟨rfl, rfl⟩ | ⟨hit, _⟩
      · exact Or.inl ⟨rfl, rfl⟩
      · exact Or.inr ⟨it, hit, rfl⟩
  · intro g it hit
    rcases mem_update_insert.mp hit with ⟨rfl, rfl⟩ | ⟨hit, _⟩
    · exact ⟨(e.host, e.port), hself, rfl⟩
    · obtain ⟨hp, hlook, htext⟩ := h.named g it hit
      exact ⟨hp, hkeep _ _ hlook, htext⟩
  · intro g it hit
    by_cases hb : (ofLex it.1).2 = a
    · refine ⟨type, item, hhere, hb.symm, ?_⟩
      rw [hb]
      exact SortedMap.lookup_insert_self _ _ _
    · rcases mem_update_insert.mp hit with ⟨rfl, rfl⟩ | ⟨hit, _⟩
      · exact absurd rfl hb
      · obtain ⟨g', rec, hrec, halias, hlook⟩ := h.recorded g it hit
        refine ⟨g', rec, hold g' rec hrec (by rwa [halias]), halias, ?_⟩
        rw [SortedMap.lookup_insert_of_ne _ _ hb]
        exact hlook

theorem addEntry_rings (type : GroupType) (s : HostTable × Hosts) (e : HostEntry) :
    (HostTable.addEntry type s e).1.rings = s.1.rings ∧
      (HostTable.addEntry type s e).1.hostOffline = s.1.hostOffline := by
  simp only [HostTable.addEntry, setHostAlias]
  cases s.1.hostAlias.entries.find? (fun it => it.2 = (e.host, e.port)) with
  | none => exact ⟨rfl, rfl⟩
  | some it => exact ⟨rfl, rfl⟩

/-- The whole loop of `setHosts`. -/
theorem Wired.addEntries {hosts : GroupHosts} {type : GroupType} (es : List HostEntry)
    {t : HostTable} {tmp : Hosts} (h : Wired t (Function.update hosts type tmp)) :
    Wired (es.foldl (HostTable.addEntry type) (t, tmp)).1
        (Function.update hosts type (es.foldl (HostTable.addEntry type) (t, tmp)).2) ∧
      (es.foldl (HostTable.addEntry type) (t, tmp)).1.rings = t.rings ∧
      (es.foldl (HostTable.addEntry type) (t, tmp)).1.hostOffline = t.hostOffline := by
  induction es generalizing t tmp with
  | nil => exact ⟨h, rfl, rfl⟩
  | cons e es ih =>
      rw [List.foldl_cons]
      obtain ⟨hw, hrings, hoff⟩ := ih (h.addEntry e)
      obtain ⟨hrings', hoff'⟩ := addEntry_rings type (t, tmp) e
      exact ⟨hw, hrings.trans hrings', hoff.trans hoff'⟩

/-- **`setHosts`.**  For a group that is still empty it wires the tables to
the group's host map and builds its ring from that map. -/
theorem Wired.setHosts {t t' : HostTable} {hosts : GroupHosts} {type : GroupType}
    {es : List HostEntry} {tmp : Hosts} (h : Wired t hosts)
    (hrings : ∀ g, (t.rings g).hash = insertHosts ∅ (hosts g).entries)
    (hempty : hosts type = ∅) (hset : t.setHosts type es = some (t', tmp)) :
    Wired t' (Function.update hosts type tmp) ∧ t'.hostOffline = t.hostOffline ∧
      ∀ g, (t'.rings g).hash = insertHosts ∅ (Function.update hosts type tmp g).entries := by
  have hstart : Wired t (Function.update hosts type ∅) := by
    rw [← hempty, Function.update_eq_self]
    exact h
  obtain ⟨hw, hsame, hoff⟩ := hstart.addEntries es
  simp only [HostTable.setHosts] at hset
  set r := es.foldl (HostTable.addEntry type) (t, ∅) with hr
  have hring : (t.rings type).hash = ∅ := by
    rw [hrings, hempty]
    rfl
  by_cases hnil : r.2.entries.isEmpty
  · -- no host was listed: the ring is left as it was, which is empty
    rw [if_pos hnil] at hset
    have hfin : r = (t', tmp) := by
      split_ifs at hset
      simpa using hset
    rw [hfin] at hw hsame hoff hnil
    refine ⟨hw, hoff, ?_⟩
    intro g
    by_cases hg : g = type
    · subst hg
      rw [hsame, hring, Function.update_self, List.isEmpty_iff.mp hnil]
      rfl
    · rw [hsame, hrings, Function.update_of_ne hg]
  · rw [if_neg hnil, Option.some.injEq, Prod.mk.injEq] at hset
    obtain ⟨rfl, rfl⟩ := hset
    refine ⟨⟨hw.fresh, hw.member, hw.named, hw.recorded⟩, hoff, ?_⟩
    intro g
    by_cases hg : g = type
    · subst hg
      have hbuild : ((r.1.rings g).setHosts true r.2 false).hash =
          insertHosts (r.1.rings g).hash r.2.entries := by
        simp [ConsistentHash.setHosts, ConsistentHash.createVNodes, hsame, hring]
      simp only [Function.update_self]
      rw [hbuild, hsame, hring]
    · simp only [Function.update_of_ne hg]
      rw [hsame, hrings]

theorem wired_new : Wired new (fun _ => ∅) where
  fresh e he := absurd he (SortedMap.not_mem_empty e)
  member g a := by simp [new]
  named g it hit := absurd hit (SortedMap.not_mem_empty it)
  recorded g it hit := absurd hit (SortedMap.not_mem_empty it)

/-- `initVar` puts every host online. -/
theorem initVar_offline {t : HostTable} (h : t.hostOffline = ∅) (a : Nat) :
    t.initVar.offline a = false := by
  unfold initVar offline
  rw [h]
  have hall : ∀ (es : List (Nat × (Text × Nat))) (m : SortedMap Nat Bool),
      m.getD a false = false →
        (es.foldl (fun m it => m.insert it.1 false) m).getD a false = false := by
    intro es
    induction es with
    | nil => exact fun m hm => hm
    | cons it es ih =>
        intro m hm
        rw [List.foldl_cons]
        apply ih
        rw [SortedMap.getD_insert, hm, ite_self]
  exact hall _ _ rfl

/-- The tables agree with the configuration, and every ring is the ring of
the online hosts of its group. -/
structure InStep (t : HostTable) (hosts : GroupHosts) : Prop where
  wired : Wired t hosts
  rings : ∀ g, (t.rings g).hash = ringOf (hosts g) t.offline

theorem start_offline {cfg : Config} {t : HostTable} {hosts : GroupHosts}
    (hstart : start cfg = some (t, hosts)) :
    Wired t hosts ∧ (∀ a, t.offline a = false) ∧
      ∀ g, (t.rings g).hash = insertHosts ∅ (hosts g).entries := by
  simp only [start, Option.bind_eq_bind, Option.bind_eq_some_iff, Option.some.injEq,
    Prod.mk.injEq, Prod.exists] at hstart
  obtain ⟨t₁, h₁, hs₁, t₂, h₂, hs₂, t₃, h₃, hs₃, rfl, hhosts⟩ := hstart
  obtain ⟨hw₁, ho₁, hr₁⟩ := wired_new.setHosts (fun g => rfl) rfl hs₁
  obtain ⟨hw₂, ho₂, hr₂⟩ := hw₁.setHosts hr₁ rfl hs₂
  obtain ⟨hw₃, ho₃, hr₃⟩ := hw₂.setHosts hr₂ rfl hs₃
  have hoff : t₃.hostOffline = ∅ := ho₃.trans (ho₂.trans ho₁)
  have hgroups : Function.update (Function.update (Function.update (fun _ => ∅)
      GroupType.hosts h₁) GroupType.hostsBackup h₂) GroupType.hostsRead h₃ = hosts := by
    rw [← hhosts]
    funext g
    cases g with
    | hosts => rfl
    | hostsBackup => rfl
    | hostsRead => rfl
  rw [hgroups] at hw₃ hr₃
  exact ⟨⟨hw₃.fresh, hw₃.member, hw₃.named, hw₃.recorded⟩, initVar_offline hoff, hr₃⟩

/-- The three `setHosts` calls and `initVar` bring the rings into step. -/
theorem start_inStep {cfg : Config} {t : HostTable} {hosts : GroupHosts}
    (hstart : start cfg = some (t, hosts)) : InStep t hosts := by
  obtain ⟨hw, hoff, hrings⟩ := start_offline hstart
  refine ⟨hw, fun g => ?_⟩
  have hall : online (hosts g) t.offline = hosts g := by
    apply SortedMap.ext_mem
    intro it
    simp [online, hoff]
  rw [hrings, ringOf_eq, hall]

/-! ## Failover -/

/-- The groups that list an alias give it one index and one weight. -/
def OneInfo (hosts : GroupHosts) (a : Nat) : Prop :=
  ∀ g g', ∀ it ∈ hosts g, ∀ it' ∈ hosts g',
    (ofLex it.1).2 = a → (ofLex it'.1).2 = a → it.2 = it'.2

/-- Everything one `failover` call can do: nothing but touch the flag, take
the host out of its rings, or put it back with the recorded values. -/
theorem failover_cases (t : HostTable) (a : Nat) (isDel : Bool) :
    (t.failover a isDel).2 = t.touchOffline a ∨
    (isDel = true ∧ (t.failover a isDel).2 =
      { (t.touchOffline a).onRings a (fun h => (h.delHost true a).2) with
        hostOffline := (t.touchOffline a).hostOffline.insert a true }) ∨
    ∃ hp index weight, isDel = false ∧ t.offline a = true ∧
      t.hostAlias.lookup a = some hp ∧ t.hostInfos.lookup a = some (index, weight) ∧
      (t.failover a isDel).2 =
        { (t.touchOffline a).onRings a
            (fun h => (h.addHost true (hostPort hp) a index weight).2) with
          hostOffline := (t.touchOffline a).hostOffline.insert a false } := by
  unfold failover
  cases isDel with
  | true =>
      cases hoff : t.offline a with
      | true => exact Or.inl rfl
      | false =>
          cases hname : t.hostAlias.lookup a with
          | none => exact Or.inl rfl
          | some hp => exact Or.inr (Or.inl ⟨rfl, rfl⟩)
  | false =>
      cases hoff : t.offline a with
      | false => exact Or.inl rfl
      | true =>
          cases hname : t.hostAlias.lookup a with
          | none => exact Or.inl rfl
          | some hp =>
              cases hinfo : t.hostInfos.lookup a with
              | none => exact Or.inl rfl
              | some info =>
                  exact Or.inr (Or.inr ⟨hp, info.1, info.2, rfl, rfl, rfl, rfl, rfl⟩)

theorem offline_insert (m : SortedMap Nat Bool) (t : HostTable) (a : Nat) (b : Bool) :
    ({ t with hostOffline := m.insert a b } : HostTable).offline =
      Function.update ({ t with hostOffline := m } : HostTable).offline a b := by
  funext c
  simp only [offline, SortedMap.getD_insert, Function.update_apply]

/-- Reading a flag changes no flag. -/
theorem touchOffline_offline (t : HostTable) (a : Nat) :
    (t.touchOffline a).offline = t.offline := by
  rw [touchOffline, offline_insert, Function.update_eq_self]

/-- The flag of a host that a group does not list is no matter to its ring. -/
theorem ringOf_update_of_unlisted {hosts : Hosts} {a : Nat}
    (hno : ∀ it ∈ hosts, (ofLex it.1).2 ≠ a) (offline : Nat → Bool) (b : Bool) :
    ringOf hosts (Function.update offline a b) = ringOf hosts offline := by
  have hsame : online hosts (Function.update offline a b) = online hosts offline := by
    apply SortedMap.ext_mem
    intro it
    simp only [online, SortedMap.mem_filter]
    refine and_congr_right (fun hit => ?_)
    rw [Function.update_of_ne (hno it hit)]
  rw [ringOf_eq, ringOf_eq, hsame]

/-- A ring operation that follows the flag in every group that lists the
alias keeps all rings in step. -/
theorem InStep.onRings {t : HostTable} {hosts : GroupHosts} (h : InStep t hosts) {a : Nat}
    {op : ConsistentHash → ConsistentHash} {b : Bool}
    (hop : ∀ g, a ∈ t.members g →
      (op (t.rings g)).hash = ringOf (hosts g) (Function.update t.offline a b)) :
    InStep { (t.touchOffline a).onRings a op with
      hostOffline := (t.touchOffline a).hostOffline.insert a b } hosts := by
  refine ⟨⟨h.wired.fresh, h.wired.member, h.wired.named, h.wired.recorded⟩, ?_⟩
  intro g
  have hflags : ({ (t.touchOffline a).onRings a op with
      hostOffline := (t.touchOffline a).hostOffline.insert a b } : HostTable).offline =
      Function.update t.offline a b := by
    rw [offline_insert]
    exact congrArg (fun f => Function.update f a b) (touchOffline_offline t a)
  rw [hflags]
  by_cases hmem : a ∈ t.members g
  · simpa [HostTable.onRings, touchOffline, hmem] using hop g hmem
  · have hno : ∀ it ∈ hosts g, (ofLex it.1).2 ≠ a := by
      intro it hit heq
      exact hmem ((h.wired.member g a).mpr ⟨it, hit, heq⟩)
    rw [ringOf_update_of_unlisted hno, ← h.rings g]
    simp [HostTable.onRings, touchOffline, hmem]

/-- **One call.**  A `failover` keeps the rings in step when a host that it
brings back has one index and weight in all its groups. -/
theorem InStep.failover {t : HostTable} {hosts : GroupHosts} (h : InStep t hosts)
    (hapart : ∀ g, VNodesApart (hosts g)) {a : Nat} {isDel : Bool}
    (hone : isDel = false → t.offline a = true → OneInfo hosts a) :
    InStep (t.failover a isDel).2 hosts := by
  rcases failover_cases t a isDel with hsame | ⟨_, hdel⟩ | ⟨hp, index, weight, hadd⟩
  · rw [hsame]
    refine ⟨⟨h.wired.fresh, h.wired.member, h.wired.named, h.wired.recorded⟩, fun g => ?_⟩
    rw [touchOffline_offline]
    exact h.rings g
  · rw [hdel]
    exact h.onRings (fun g _ => delHost_ringOf (hapart g) (h.rings g) a)
  · obtain ⟨hisDel, hoff, hname, hinfo, hres⟩ := hadd
    rw [hres]
    apply h.onRings
    intro g hmem
    obtain ⟨it, hit, halias⟩ := (h.wired.member g a).mp hmem
    -- the record is the one of this group, because all groups agree
    obtain ⟨g', rec, hrec, hrecAlias, hlook⟩ := h.wired.recorded g it hit
    rw [halias] at hrecAlias hlook
    have hval : it.2 = (index, weight) := by
      rw [hone hisDel hoff g g' it hit rec hrec halias hrecAlias]
      rw [hinfo, Option.some.injEq] at hlook
      exact hlook.symm
    obtain ⟨hp', hname', htext⟩ := h.wired.named g it hit
    rw [halias, hname, Option.some.injEq] at hname'
    have hkey : it.1 = toLex (hostPort hp, a) := by
      apply ofLex.injective
      exact Prod.ext (by rw [htext, hname']; rfl) halias
    refine addHost_ringOf (hapart g) (h.rings g) ?_ ?_
    · rw [← hkey, ← hval]
      exact hit
    · intro it' hit' halias'
      rw [← hkey]
      exact h.wired.key_eq hit hit' (halias'.trans halias.symm)

theorem failovers_append (t : HostTable) (ops : List (Nat × Bool)) (op : Nat × Bool) :
    t.failovers (ops ++ [op]) = ((t.failovers ops).failover op.1 op.2).2 := by
  simp [failovers]

/-- Every return of an offline host in a history is of a host with one index
and one weight. -/
def ReturnsUniform (t : HostTable) (hosts : GroupHosts) (ops : List (Nat × Bool)) : Prop :=
  ∀ before a after, ops = before ++ (a, false) :: after →
    (t.failovers before).offline a = true → OneInfo hosts a

/-- **A whole history.**  The rings stay in step through every sequence of
calls whose returning hosts are uniform. -/
theorem InStep.failovers {t : HostTable} {hosts : GroupHosts} (h : InStep t hosts)
    (hapart : ∀ g, VNodesApart (hosts g)) {ops : List (Nat × Bool)}
    (hret : ReturnsUniform t hosts ops) : InStep (t.failovers ops) hosts := by
  induction ops using List.reverseRecOn with
  | nil => exact h
  | append_singleton ops op ih =>
      have hbefore : InStep (t.failovers ops) hosts := by
        apply ih
        intro before a after hsplit
        exact hret before a (after ++ [op]) (by simp [hsplit])
      rw [failovers_append]
      apply hbefore.failover hapart
      intro hadd
      exact hret ops op.1 [] (by rw [← hadd])

/-- **Failover keeps the rings equal to the online hosts.**  After the start,
in every history of calls in which each host that returns has one index and
one weight in all its groups, each ring is the ring `setHosts` builds from
the online hosts of its group; so it is the ring of the start whenever all
hosts are online again. -/
theorem failovers_keep_rings {cfg : Config} {t : HostTable} {hosts : GroupHosts}
    (hstart : start cfg = some (t, hosts)) (hapart : ∀ g, VNodesApart (hosts g))
    {ops : List (Nat × Bool)} (hret : ReturnsUniform t hosts ops) :
    (∀ g, ((t.failovers ops).rings g).hash =
      ringOf (hosts g) (t.failovers ops).offline) ∧
    ((∀ a, (t.failovers ops).offline a = false) →
      ∀ g, ((t.failovers ops).rings g).hash = (t.rings g).hash) := by
  have hfin := (start_inStep hstart).failovers hapart hret
  refine ⟨hfin.rings, ?_⟩
  intro hall g
  have hflags : (t.failovers ops).offline = t.offline := by
    funext a
    rw [hall, (start_offline hstart).2.1]
  rw [hfin.rings, (start_inStep hstart).rings, hflags]

/-- One host in `hosts` and in `hosts_backup`, with the given indices. -/
def sharedHost (index indexBackup : Nat) : Config where
  hosts := [⟨"a".toList, 1, index, 1⟩]
  hostsBackup := [⟨"a".toList, 1, indexBackup, 1⟩]
  hostsRead := []

/-- The start of `sharedHost`. -/
def sharedStart (index indexBackup : Nat) : HostTable × GroupHosts :=
  (start (sharedHost index indexBackup)).getD (new, fun _ => ∅)

/-- A host listed with one index leaves and returns, and all rings are restored. -/
theorem one_id_rings_restored :
    (sharedStart 1 1).1.offline 1 = false ∧
    ∀ g, (((sharedStart 1 1).1.failovers [(1, true), (1, false)]).rings g).hash =
      ((sharedStart 1 1).1.rings g).hash := by
  have hstart : start (sharedHost 1 1) = some ((sharedStart 1 1).1, (sharedStart 1 1).2) := rfl
  have hinfo : ∀ g, ∀ it ∈ ((sharedStart 1 1).2 g).entries, it.2 = (1, 1) := by
    intro g
    cases g with
    | hosts => decide +kernel
    | hostsBackup => decide +kernel
    | hostsRead => decide +kernel
  refine ⟨by decide +kernel, ?_⟩
  refine (failovers_keep_rings hstart ?_ ?_).2 ?_
  · intro g
    cases g with
    | hosts => decide +kernel
    | hostsBackup => decide +kernel
    | hostsRead => decide +kernel
  · intro before a after _ _ g g' it hit it' hit' _ _
    rw [hinfo g it hit, hinfo g' it' hit']
  · intro a
    have hflags : ((sharedStart 1 1).1.failovers [(1, true), (1, false)]).hostOffline =
        (∅ : SortedMap Nat Bool).insert 1 false := by
      decide +kernel
    rw [offline, hflags, SortedMap.getD_insert]
    split_ifs
    · rfl
    · rfl

/-- A host with index `1` in `hosts` and `2` in `hosts_backup` leaves and
returns: it is online, no two hosts share a position, and the default ring
is neither the ring of its online hosts nor the ring of the start. -/
theorem two_ids_ring_not_restored :
    start (sharedHost 1 2) = some (sharedStart 1 2) ∧
    (∀ g, VNodesApart ((sharedStart 1 2).2 g)) ∧
    ((sharedStart 1 2).1.failovers [(1, true), (1, false)]).offline 1 = false ∧
    (((sharedStart 1 2).1.failovers [(1, true), (1, false)]).rings .hosts).hash ≠
      ringOf ((sharedStart 1 2).2 .hosts)
        ((sharedStart 1 2).1.failovers [(1, true), (1, false)]).offline ∧
    (((sharedStart 1 2).1.failovers [(1, true), (1, false)]).rings .hosts).hash ≠
      ((sharedStart 1 2).1.rings .hosts).hash := by
  refine ⟨rfl, ?_, by decide +kernel, by decide +kernel, by decide +kernel⟩
  intro g
  cases g with
  | hosts => decide +kernel
  | hostsBackup => decide +kernel
  | hostsRead => decide +kernel

end HostTable

end KvProxy
