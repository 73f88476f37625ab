import Mathlib.Data.List.TakeWhile
import KvProxy.Failover
import KvProxy.HostEntries

/-!
# Hosts as they are listed

A line of a group lists a host as `host:port="index:weight"`, in the spelling in which
the proxy itself writes a host.  What is written in this way is read back, whatever the
variables of `str2int` held.  Behind the start every ring has the virtual nodes of the
hosts that are listed for its group, each under the name and the alias of its host.

* `parseHostEntry_listed` — one line is read back;
* `hostEntries_listed` — so is a group;
* `Listed`, `start_listed` — what the loops of `setHosts` make of the entries;
* `mem_rings_listed` — what is in the rings then.
-/

namespace KvProxy

open MachineInt

/-! ## One line -/

namespace HostEntry

/-- The key of a line that lists a host, which is the `host_port` of `setHosts`. -/
def key (e : HostEntry) : Text := HostTable.hostPort (e.host, e.port)

/-- Its value. -/
def value (e : HostEntry) : Text := int2str (int32 e.index) ++ ':' :: int2str (int32 e.weight)

/-- A host that can be listed: a name without a colon, and numbers of 32 bits. -/
structure Proper (e : HostEntry) : Prop where
  host_ne : e.host ≠ []
  host_colon : ':' ∉ e.host
  port_lt : e.port < 4294967296
  index_lt : e.index < 4294967296
  weight_lt : e.weight < 4294967296

instance (e : HostEntry) : Decidable e.Proper :=
  decidable_of_iff (e.host ≠ [] ∧ ':' ∉ e.host ∧ e.port < 4294967296 ∧ e.index < 4294967296 ∧
      e.weight < 4294967296)
    ⟨fun h => ⟨h.1, h.2.1, h.2.2.1, h.2.2.2.1, h.2.2.2.2⟩,
      fun h => ⟨h.host_ne, h.host_colon, h.port_lt, h.index_lt, h.weight_lt⟩⟩

end HostEntry

/-- The digits of a number are read as the number. -/
theorem digitsValue_toDigits (n : Nat) : digitsValue (Nat.toDigits 10 n) = n := by
  have hread := Nat.ofDigitChars_toDigits (b := 10) (n := n) (by decide) (by decide)
  rw [Nat.ofDigitChars_eq_foldl] at hread
  exact hread

theorem takeWhile_toDigits (n : Nat) :
    (Nat.toDigits 10 n).takeWhile Char.isDigit = Nat.toDigits 10 n := by
  have hdigits : ∀ c ∈ Nat.toDigits 10 n, Char.isDigit c = true := fun _ hc =>
    Nat.isDigit_of_mem_toDigits (by decide) (by decide) hc
  exact List.takeWhile_eq_self_iff.mpr hdigits

theorem scanDigits_toDigits (neg : Bool) (n : Nat) :
    scanDigits neg (Nat.toDigits 10 n) = some (int32 (clampLong (if neg then -n else n))) := by
  simp only [scanDigits, takeWhile_toDigits, Nat.toDigits_ne_nil, if_false, digitsValue_toDigits]

/-- **`%d` reads what `%d` prints.** -/
theorem scanInt_int2str {n : Int} (hlo : -2147483648 ≤ n) (hhi : n < 2147483648) :
    scanInt (int2str n) = some n := by
  have hclamp : clampLong n = n := by
    unfold clampLong
    omega
  by_cases hneg : n < 0
  · have habs : (-(n.natAbs : Int)) = n := by omega
    have hminus : (('-' :: Nat.toDigits 10 n.natAbs).dropWhile isSpace) =
        '-' :: Nat.toDigits 10 n.natAbs := List.dropWhile_cons_of_neg (by decide)
    rw [int2str, if_pos hneg, scanInt, hminus]
    dsimp only
    rw [if_pos rfl, scanDigits_toDigits, if_pos rfl, habs, hclamp, int32_eq_self hlo hhi]
  · have habs : ((n.natAbs : Nat) : Int) = n := by omega
    obtain ⟨d, ds, hdigits⟩ := List.exists_cons_of_ne_nil
      (Nat.toDigits_ne_nil (n := n.natAbs) (b := 10))
    have hdigit : d.isDigit = true :=
      Nat.isDigit_of_mem_toDigits (by decide) (by decide) (hdigits ▸ List.mem_cons_self)
    -- the first digit is no blank and no sign
    have hspace : isSpace d = false := by
      have hd : 48 ≤ d.toNat ∧ d.toNat ≤ 57 := Char.isDigit_iff_toNat.mp hdigit
      have hne : d ≠ ' ' := by
        rintro rfl
        exact absurd hdigit (by decide)
      simp only [isSpace, hne, false_or, decide_eq_false_iff_not]
      omega
    have hminus : d ≠ '-' := by
      rintro rfl
      exact absurd hdigit (by decide)
    have hplus : d ≠ '+' := by
      rintro rfl
      exact absurd hdigit (by decide)
    have hread := scanDigits_toDigits false n.natAbs
    rw [hdigits] at hread
    rw [int2str, if_neg hneg, hdigits, scanInt, List.dropWhile_cons_of_neg (by simp [hspace])]
    dsimp only
    rw [if_neg hminus, if_neg hplus, hread, if_neg (by decide), habs, hclamp,
      int32_eq_self hlo hhi]

/-- A number of 32 bits is read back, whatever the variable held. -/
theorem uint32_str2int (unset : Int) {n : Nat} (h : n < 4294967296) :
    uint32 (str2int unset (int2str (int32 n))) = n := by
  rw [str2int, scanInt_int2str (int32_lower n) (int32_upper n), Option.getD_some]
  unfold uint32 int32
  omega

theorem int2str_ne_nil (n : Int) : int2str n ≠ [] := by
  unfold int2str
  split_ifs
  · exact List.cons_ne_nil _ _
  · exact Nat.toDigits_ne_nil

/-- What is not a digit and not a sign is in no number. -/
theorem not_mem_int2str {c : Char} (hdigit : c.isDigit = false) (hminus : c ≠ '-') (n : Int) :
    c ∉ int2str n := by
  have hdigits : ∀ k : Nat, c ∉ Nat.toDigits 10 k := by
    intro k hk
    have hc := Nat.isDigit_of_mem_toDigits (by decide) (by decide) hk
    rw [hdigit] at hc
    cases hc
  unfold int2str
  split_ifs
  · exact List.not_mem_cons_of_ne_of_not_mem hminus (hdigits _)
  · exact hdigits _

namespace HostEntry

variable {e : HostEntry}

theorem Proper.pairOf_key (h : e.Proper) : PairOf e.key e.host (int2str (int32 e.port)) :=
  ⟨rfl, ⟨h.host_colon, not_mem_int2str (by decide) (by decide) _⟩, h.host_ne, int2str_ne_nil _⟩

theorem pairOf_value (e : HostEntry) :
    PairOf e.value (int2str (int32 e.index)) (int2str (int32 e.weight)) :=
  ⟨rfl, ⟨not_mem_int2str (by decide) (by decide) _, not_mem_int2str (by decide) (by decide) _⟩,
    int2str_ne_nil _, int2str_ne_nil _⟩

/-- **A listed host is read back.** -/
theorem parseHostEntry_listed (unset : Unset) (h : e.Proper) :
    parseHostEntry unset e.key e.value = some e := by
  rw [parseHostEntry_pair unset h.pairOf_key e.pairOf_value, uint32_str2int _ h.port_lt,
    uint32_str2int _ h.index_lt, uint32_str2int _ h.weight_lt]

end HostEntry

/-- **A group of listed hosts is read back**, in the order of its map. -/
theorem hostEntries_listed (unset : Text → Unset) {group : SortedMap Text Text}
    {es : List HostEntry} (hproper : ∀ e ∈ es, e.Proper)
    (hgroup : group.entries = es.map (fun e => (e.key, e.value))) :
    hostEntries unset group = some es := by
  unfold hostEntries
  rw [hgroup]
  clear hgroup
  induction es with
  | nil => rfl
  | cons e es ih =>
      rw [List.map_cons, List.mapM_cons,
        HostEntry.parseHostEntry_listed _ (hproper e List.mem_cons_self),
        ih (fun x hx => hproper x (List.mem_cons_of_mem _ hx))]
      rfl

/-! ## What the loops of `setHosts` make of the entries -/

namespace HostTable

/-- A pair of host and port has one alias. -/
def OneAlias (t : HostTable) : Prop :=
  ∀ a b hp, t.hostAlias.lookup a = some hp → t.hostAlias.lookup b = some hp → a = b

/-- Every alias of `t` names in `t'` what it names in `t`. -/
def Keeps (t t' : HostTable) : Prop :=
  ∀ a hp, t.hostAlias.lookup a = some hp → t'.hostAlias.lookup a = some hp

/-- A host map has the entries, each under an alias of its host, and nothing else. -/
structure Listed (t : HostTable) (tmp : Hosts) (es : List HostEntry) : Prop where
  there : ∀ e ∈ es, ∃ a, t.hostAlias.lookup a = some (e.host, e.port) ∧
    (toLex (e.key, a), (e.index, e.weight)) ∈ tmp
  only : ∀ it ∈ tmp, ∃ e ∈ es, ∃ a, t.hostAlias.lookup a = some (e.host, e.port) ∧
    it = (toLex (e.key, a), (e.index, e.weight))

theorem Keeps.trans {t t' t'' : HostTable} (h : Keeps t t') (h' : Keeps t' t'') : Keeps t t'' :=
  fun a hp ha => h' a hp (h a hp ha)

theorem Listed.keep {t t' : HostTable} {tmp : Hosts} {es : List HostEntry} (h : Listed t tmp es)
    (hkeep : Keeps t t') : Listed t' tmp es where
  there e he := by
    obtain ⟨a, ha, hmem⟩ := h.there e he
    exact ⟨a, hkeep a _ ha, hmem⟩
  only it hit := by
    obtain ⟨e, he, a, ha, heq⟩ := h.only it hit
    exact ⟨e, he, a, hkeep a _ ha, heq⟩

/-- A pair that has an alias is found, so it does not get another one. -/
theorem OneAlias.setHostAlias {t : HostTable} (h : OneAlias t) (host : Text) (port : Nat) :
    OneAlias (t.setHostAlias host port).1 := by
  unfold HostTable.setHostAlias
  cases hfind : t.hostAlias.entries.find? (fun it => it.2 = (host, port)) with
  | some it => exact h
  | none =>
      have hnew : ∀ a, t.hostAlias.lookup a ≠ some (host, port) := by
        intro a ha
        have hne := List.find?_eq_none.mp hfind _ (SortedMap.lookup_eq_some_iff.mp ha)
        simp at hne
      intro a b hp ha hb
      dsimp only at ha hb
      rw [SortedMap.lookup_insert] at ha hb
      split_ifs at ha hb with hta htb htb
      · rw [hta, htb]
      · obtain rfl := Option.some.inj ha
        exact absurd hb (hnew b)
      · obtain rfl := Option.some.inj hb
        exact absurd ha (hnew a)
      · exact h a b hp ha hb

/-- The tables that the loops of `setHosts` work on. -/
structure Numbers (t : HostTable) : Prop where
  fresh : ∀ e ∈ t.hostAlias, e.1 ≤ t.aliasCount
  one : OneAlias t

/-- **One entry** joins the listed ones. -/
theorem Numbers.addEntry {t : HostTable} (h : Numbers t) {tmp : Hosts} {es : List HostEntry}
    (hlisted : Listed t tmp es) (type : GroupType) {e : HostEntry}
    (hnew : e.key ∉ es.map HostEntry.key) :
    Numbers (HostTable.addEntry type (t, tmp) e).1 ∧
      Keeps t (HostTable.addEntry type (t, tmp) e).1 ∧
      Listed (HostTable.addEntry type (t, tmp) e).1 (HostTable.addEntry type (t, tmp) e).2
        (es ++ [e]) := by
  obtain ⟨ha, n, ht, hfresh, hself, hkeep⟩ := setHostAlias_spec h.fresh e.host e.port
  have hone := h.one.setHostAlias e.host e.port
  rw [ht] at hone
  have htable : (HostTable.addEntry type (t, tmp) e).1.hostAlias = ha ∧
      (HostTable.addEntry type (t, tmp) e).1.aliasCount = n := by
    simp [HostTable.addEntry, ht]
  have hkeeps : Keeps t (HostTable.addEntry type (t, tmp) e).1 := by
    intro a hp hlook
    rw [htable.1]
    exact hkeep a hp hlook
  have htmp : (HostTable.addEntry type (t, tmp) e).2 =
      tmp.insert (toLex (e.key, (t.setHostAlias e.host e.port).2)) (e.index, e.weight) := rfl
  have hthere := hlisted.keep hkeeps
  refine ⟨⟨by rw [htable.1, htable.2]; exact hfresh, ?_⟩, hkeeps, ?_, ?_⟩
  · intro a b hp hlook hlook'
    rw [htable.1] at hlook hlook'
    exact hone a b hp hlook hlook'
  · intro x hx
    rw [htmp]
    rcases List.mem_append.mp hx with hx | hx
    · obtain ⟨a, hlook, hmem⟩ := hthere.there x hx
      refine ⟨a, hlook, SortedMap.mem_insert.mpr (Or.inr ⟨hmem, ?_⟩)⟩
      -- the keys of the entries differ, so the new one replaces none
      intro heq
      have hkey := congrArg (fun k => (ofLex k).1) heq
      exact hnew (List.mem_map.mpr ⟨x, hx, hkey⟩)
    · obtain rfl := List.mem_singleton.mp hx
      refine ⟨_, ?_, SortedMap.mem_insert.mpr (Or.inl rfl)⟩
      rw [htable.1]
      exact hself
  · intro it hit
    rw [htmp] at hit
    rcases SortedMap.mem_insert.mp hit with rfl | ⟨hold, _⟩
    · refine ⟨e, List.mem_append_right _ List.mem_cons_self, _, ?_, rfl⟩
      rw [htable.1]
      exact hself
    · obtain ⟨x, hx, a, hlook, heq⟩ := hthere.only it hold
      exact ⟨x, List.mem_append_left _ hx, a, hlook, heq⟩

/-- **The loop of `setHosts`** lists the entries of its group. -/
theorem Numbers.addEntries {t : HostTable} (h : Numbers t) (type : GroupType) {es : List HostEntry}
    (hkeys : (es.map HostEntry.key).Nodup) :
    Numbers (es.foldl (HostTable.addEntry type) (t, ∅)).1 ∧
      Keeps t (es.foldl (HostTable.addEntry type) (t, ∅)).1 ∧
      Listed (es.foldl (HostTable.addEntry type) (t, ∅)).1
        (es.foldl (HostTable.addEntry type) (t, ∅)).2 es := by
  induction es using List.reverseRecOn with
  | nil =>
      refine ⟨h, fun _ _ ha => ha, fun e he => absurd he List.not_mem_nil, ?_⟩
      exact fun it hit => absurd hit (SortedMap.not_mem_empty it)
  | append_singleton es e ih =>
      rw [List.map_append, List.nodup_append] at hkeys
      obtain ⟨hnumbers, hkeep, hlisted⟩ := ih hkeys.1
      have hnew : e.key ∉ es.map HostEntry.key :=
        fun hmem => hkeys.2.2 _ hmem _ (by simp) rfl
      rw [List.foldl_append, List.foldl_cons, List.foldl_nil]
      obtain ⟨hnumbers', hkeep', hlisted'⟩ := hnumbers.addEntry hlisted type hnew
      exact ⟨hnumbers', hkeep.trans hkeep', hlisted'⟩

theorem Numbers.setHosts {t t' : HostTable} (h : Numbers t) {type : GroupType}
    {es : List HostEntry} {tmp : Hosts} (hkeys : (es.map HostEntry.key).Nodup)
    (hset : t.setHosts type es = some (t', tmp)) :
    Numbers t' ∧ Keeps t t' ∧ Listed t' tmp es := by
  obtain ⟨hnumbers, hkeep, hlisted⟩ := h.addEntries type hkeys
  simp only [HostTable.setHosts] at hset
  split_ifs at hset with hempty hdefault
  · obtain ⟨rfl, rfl⟩ := Prod.mk.inj (Option.some.inj hset)
    exact ⟨hnumbers, hkeep, hlisted⟩
  · -- the ring is built from the map, and the aliases stay
    obtain ⟨rfl, rfl⟩ := Prod.mk.inj (Option.some.inj hset)
    exact ⟨⟨hnumbers.fresh, hnumbers.one⟩, hkeep, hlisted.there, hlisted.only⟩

theorem numbers_new : Numbers new := by
  refine ⟨fun e he => absurd he (SortedMap.not_mem_empty e), fun a b hp ha => ?_⟩
  cases ha

/-- The entries of a group. -/
def Config.group (cfg : Config) : GroupType → List HostEntry
  | .hosts => cfg.hosts
  | .hostsBackup => cfg.hostsBackup
  | .hostsRead => cfg.hostsRead

/-- **The host maps of the start** list the entries of their groups. -/
theorem start_listed {cfg : Config} {t : HostTable} {hosts : GroupHosts}
    (hkeys : ∀ g, ((cfg.group g).map HostEntry.key).Nodup)
    (hstart : start cfg = some (t, hosts)) :
    OneAlias t ∧ ∀ g, Listed t (hosts g) (cfg.group g) := by
  simp only [start, Option.bind_eq_bind, Option.bind_eq_some_iff, Option.some.injEq,
    Prod.mk.injEq, Prod.exists] at hstart
  obtain ⟨t₁, h₁, hs₁, t₂, h₂, hs₂, t₃, h₃, hs₃, rfl, rfl⟩ := hstart
  obtain ⟨hn₁, _, hl₁⟩ := numbers_new.setHosts (hkeys .hosts) hs₁
  obtain ⟨hn₂, hk₂, hl₂⟩ := hn₁.setHosts (hkeys .hostsBackup) hs₂
  obtain ⟨hn₃, hk₃, hl₃⟩ := hn₂.setHosts (hkeys .hostsRead) hs₃
  refine ⟨hn₃.one, fun g => ?_⟩
  -- `initVar` leaves the aliases as they are
  cases g with
  | hosts => exact ⟨((hl₁.keep hk₂).keep hk₃).there, ((hl₁.keep hk₂).keep hk₃).only⟩
  | hostsBackup => exact ⟨(hl₂.keep hk₃).there, (hl₂.keep hk₃).only⟩
  | hostsRead => exact ⟨hl₃.there, hl₃.only⟩

/-! ## What is in the rings -/

/-- No two listed hosts have a virtual node at one position. -/
def EntriesApart (es : List HostEntry) : Prop :=
  ∀ e ∈ es, ∀ f ∈ es, ∀ i < e.weight, ∀ j < f.weight,
    vnodeKey e.index i = vnodeKey f.index j → e = f

instance (es : List HostEntry) : Decidable (EntriesApart es) := by
  unfold EntriesApart
  infer_instance

theorem Listed.apart {t : HostTable} {tmp : Hosts} {es : List HostEntry} (h : Listed t tmp es)
    (hone : OneAlias t) (hapart : EntriesApart es) : VNodesApart tmp := by
  intro x hx y hy i hi j hj hkey
  obtain ⟨e, he, a, ha, rfl⟩ := h.only x hx
  obtain ⟨f, hf, b, hb, rfl⟩ := h.only y hy
  obtain rfl := hapart e he f hf i hi j hj hkey
  rw [hone a b _ ha hb]

/-- **The rings of the start** have the virtual nodes of the listed hosts, each under the
name of its host and its alias, and nothing else. -/
theorem mem_rings_listed {cfg : Config} {t : HostTable} {hosts : GroupHosts}
    (hkeys : ∀ g, ((cfg.group g).map HostEntry.key).Nodup)
    (hapart : ∀ g, EntriesApart (cfg.group g)) (hstart : start cfg = some (t, hosts))
    (g : GroupType) (pos : Nat) (name : Text) (a : Nat) :
    (pos, (name, a)) ∈ (t.rings g).hash ↔
      ∃ e ∈ cfg.group g, ∃ i < e.weight, pos = vnodeKey e.index i ∧ name = e.key ∧
        t.hostAlias.lookup a = some (e.host, e.port) := by
  obtain ⟨hone, hlisted⟩ := start_listed hkeys hstart
  obtain ⟨_, hoff, _⟩ := start_offline hstart
  rw [(start_inStep hstart).rings g, mem_ringOf ((hlisted g).apart hone (hapart g))]
  constructor
  · rintro ⟨it, hit, _, i, hi, heq⟩
    obtain ⟨e, he, b, hb, rfl⟩ := (hlisted g).only it hit
    obtain ⟨rfl, hv⟩ := Prod.mk.inj heq
    obtain ⟨rfl, rfl⟩ := Prod.mk.inj hv
    exact ⟨e, he, i, hi, rfl, rfl, hb⟩
  · rintro ⟨e, he, i, hi, rfl, rfl, ha⟩
    obtain ⟨b, hb, hmem⟩ := (hlisted g).there e he
    obtain rfl := hone a b _ ha hb
    exact ⟨_, hmem, hoff _, i, hi, rfl⟩

end HostTable

end KvProxy
