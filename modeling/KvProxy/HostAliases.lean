import Mathlib.Order.Interval.Set.Defs
import KvProxy.Lib.Numbering
import KvProxy.Hosts

/-!
# Aliases of hosts

`setHostAlias` looks a pair of host and port up in the map it extends, and gives it
the next value of a static `uint32_t` otherwise.  One counter and one map serve all
three groups.  The ring's answer for a key without a host is the alias `0`, so no
host may have it.

`HostTable` counts aliases in `Nat`; here the counter has its width.  Up to 2^32 - 1
pairs the two are the same (`aliases_start`).

* `Numbered.setHostAlias` — a pair gets its number in order of first occurrence;
* `aliases_bijective` — so aliases and pairs determine each other.
-/

namespace KvProxy

open Numbering

/-- The map `host_alias`, and the static counter of `setHostAlias`. -/
structure AliasTable where
  hostAlias : SortedMap Nat (Text × Nat)
  index : Nat

namespace AliasTable

/-- Before the first call. -/
def new : AliasTable := ⟨∅, 0⟩

/-- `setHostAlias(host, port)`. -/
def setHostAlias (t : AliasTable) (host : Text) (port : Nat) : AliasTable × Nat :=
  match t.hostAlias.entries.find? (fun it => it.2 = (host, port)) with
  | some it => (t, it.1)
  | none =>
      let index := (t.index + 1) % 4294967296
      (⟨t.hostAlias.insert index (host, port), index⟩, index)

/-- A sequence of calls, with what each returns. -/
def setHostAliases (t : AliasTable) (calls : List (Text × Nat)) : AliasTable × List Nat :=
  calls.foldl (fun s c => ((s.1.setHostAlias c.1 c.2).1, s.2 ++ [(s.1.setHostAlias c.1 c.2).2])) (t, [])

/-- The table has the pairs of these calls under their numbers. -/
structure Numbered (calls : List (Text × Nat)) (t : AliasTable) : Prop where
  counter : t.index = (firsts calls).length
  zero : t.hostAlias.lookup 0 = none
  pair : ∀ k, t.hostAlias.lookup (k + 1) = (firsts calls)[k]?

/-- A pair that is not found is a new one, and the counter can go on. -/
theorem Numbered.not_found {calls : List (Text × Nat)} {t : AliasTable} (h : Numbered calls t)
    {host : Text} {port : Nat}
    (hfind : t.hostAlias.entries.find? (fun it => it.2 = (host, port)) = none)
    (hfew : (firsts (calls ++ [(host, port)])).length < 4294967296) :
    firsts (calls ++ [(host, port)]) = firsts calls ++ [(host, port)] ∧
      (t.index + 1) % 4294967296 = t.index + 1 := by
  have hnew : (host, port) ∉ firsts calls := by
    intro hseen
    obtain ⟨k, hk⟩ := List.getElem?_of_mem hseen
    have hmem := SortedMap.lookup_eq_some_iff.mp ((h.pair k).trans hk)
    have hne := List.find?_eq_none.mp hfind _ hmem
    simp at hne
  have hfirsts : firsts (calls ++ [(host, port)]) = firsts calls ++ [(host, port)] := by
    rw [firsts_concat, if_neg hnew]
  refine ⟨hfirsts, Nat.mod_eq_of_lt ?_⟩
  rw [hfirsts, List.length_append, List.length_singleton] at hfew
  rw [h.counter]
  exact hfew

/-- **One call.**  A pair gets its number, new or old. -/
theorem Numbered.setHostAlias {calls : List (Text × Nat)} {t : AliasTable} (h : Numbered calls t)
    (host : Text) (port : Nat)
    (hfew : (firsts (calls ++ [(host, port)])).length < 4294967296) :
    Numbered (calls ++ [(host, port)]) (t.setHostAlias host port).1 ∧
      (t.setHostAlias host port).2 = number (calls ++ [(host, port)]) (host, port) := by
  unfold AliasTable.setHostAlias
  cases hfind : t.hostAlias.entries.find? (fun it => it.2 = (host, port)) with
  | some it =>
      have hval : it.2 = (host, port) := by simpa using List.find?_some hfind
      have hlookup : t.hostAlias.lookup it.1 = some (host, port) := by
        rw [SortedMap.lookup_eq_some_iff, ← hval]
        exact List.mem_of_find?_eq_some hfind
      obtain ⟨k, hk⟩ : ∃ k, it.1 = k + 1 := by
        refine Nat.exists_eq_succ_of_ne_zero ?_
        intro hzero
        rw [hzero, h.zero] at hlookup
        cases hlookup
      rw [hk, h.pair] at hlookup
      have hseen : (host, port) ∈ firsts calls := List.mem_of_getElem? hlookup
      have hfirsts : firsts (calls ++ [(host, port)]) = firsts calls := by
        rw [firsts_concat, if_pos hseen]
      refine ⟨⟨by rw [hfirsts]; exact h.counter, h.zero, by rw [hfirsts]; exact h.pair⟩, ?_⟩
      rw [number_concat (mem_firsts.mp hseen), number_of_getElem? hlookup]
      exact hk
  | none =>
      obtain ⟨hfirsts, hindex⟩ := h.not_found hfind hfew
      dsimp only
      rw [hindex, h.counter]
      refine ⟨⟨?_, ?_, ?_⟩, ?_⟩
      · rw [hfirsts, List.length_append, List.length_singleton]
      · rw [SortedMap.lookup_insert_of_ne _ _ (Nat.succ_ne_zero _).symm]
        exact h.zero
      · intro k
        rw [SortedMap.lookup_insert, hfirsts, h.pair, List.getElem?_append]
        rcases Nat.lt_trichotomy k (firsts calls).length with hk | rfl | hk
        · rw [if_neg (by omega), if_pos hk]
        · simp
        · rw [if_neg (by omega), if_neg (by omega), List.getElem?_eq_none hk.le,
            List.getElem?_eq_none (by rw [List.length_singleton]; omega)]
      · refine (number_of_getElem? ?_).symm
        rw [hfirsts, List.getElem?_concat_length]

theorem setHostAliases_concat (t : AliasTable) (calls : List (Text × Nat)) (c : Text × Nat) :
    t.setHostAliases (calls ++ [c]) =
      (((t.setHostAliases calls).1.setHostAlias c.1 c.2).1,
        (t.setHostAliases calls).2 ++ [((t.setHostAliases calls).1.setHostAlias c.1 c.2).2]) := by
  rw [setHostAliases, List.foldl_append]
  rfl

/-- **Every sequence of calls** numbers its pairs, as long as there are fewer than 2^32. -/
theorem numbered_run {calls : List (Text × Nat)} (hfew : calls.toFinset.card < 4294967296) :
    Numbered calls (new.setHostAliases calls).1 ∧
      (new.setHostAliases calls).2 = calls.map (number calls) := by
  induction calls using List.reverseRecOn with
  | nil =>
      refine ⟨⟨rfl, rfl, ?_⟩, rfl⟩
      intro k
      rfl
  | append_singleton calls c ih =>
      obtain ⟨hnumbered, haliases⟩ := ih ((card_le_append calls [c]).trans_lt hfew)
      obtain ⟨hnext, halias⟩ := hnumbered.setHostAlias c.1 c.2
        (by rw [length_firsts]; exact hfew)
      rw [setHostAliases_concat]
      refine ⟨hnext, ?_⟩
      dsimp only
      rw [haliases, halias, List.map_append, List.map_singleton]
      congr 1
      refine List.map_congr_left ?_
      intro p hp
      exact (number_concat hp c).symm

theorem Numbered.lookup_number {calls : List (Text × Nat)} {t : AliasTable} (h : Numbered calls t)
    {p : Text × Nat} (hp : p ∈ calls) : t.hostAlias.lookup (number calls p) = some p := by
  rw [number, h.pair]
  exact getElem?_number hp

/-- Every number up to that of the last pair is the alias of a pair. -/
theorem Numbered.exists_pair {calls : List (Text × Nat)} {t : AliasTable} (h : Numbered calls t)
    {a : Nat} (ha : a ∈ Set.Icc 1 calls.toFinset.card) :
    ∃ p ∈ calls, t.hostAlias.lookup a = some p ∧ number calls p = a := by
  obtain ⟨hlo, hhi⟩ := ha
  obtain ⟨k, rfl⟩ : ∃ k, a = k + 1 := ⟨a - 1, by omega⟩
  rw [← length_firsts] at hhi
  have hk := List.getElem?_eq_getElem (l := firsts calls) (i := k) hhi
  exact ⟨_, mem_firsts.mp (List.mem_of_getElem? hk), (h.pair k).trans hk, number_of_getElem? hk⟩

theorem Numbered.bijOn {calls : List (Text × Nat)} {t : AliasTable} (h : Numbered calls t) :
    Set.BijOn t.hostAlias.lookup (Set.Icc 1 calls.toFinset.card)
      (Set.image some { p | p ∈ calls }) := by
  refine ⟨?_, ?_, ?_⟩
  · intro a ha
    obtain ⟨p, hp, hlookup, _⟩ := h.exists_pair ha
    exact ⟨p, hp, hlookup.symm⟩
  · intro a ha b hb heq
    obtain ⟨p, _, hpa, rfl⟩ := h.exists_pair ha
    obtain ⟨q, _, hqb, rfl⟩ := h.exists_pair hb
    rw [hpa, hqb, Option.some.injEq] at heq
    rw [heq]
  · rintro _ ⟨p, hp, rfl⟩
    have hlast := List.getElem?_eq_some_iff.mp (getElem?_number hp)
    refine ⟨number calls p, ⟨Nat.succ_pos _, ?_⟩, h.lookup_number hp⟩
    rw [← length_firsts]
    exact hlast.1

theorem Numbered.outside {calls : List (Text × Nat)} {t : AliasTable} (h : Numbered calls t)
    {a : Nat} (ha : a ∉ Set.Icc 1 calls.toFinset.card) : t.hostAlias.lookup a = none := by
  cases a with
  | zero => exact h.zero
  | succ k =>
      rw [h.pair]
      refine List.getElem?_eq_none ?_
      rw [Set.mem_Icc, ← length_firsts] at ha
      omega

/-- Aliases and pairs determine each other: what the calls returned, and what
`host_alias` holds behind them. -/
structure Bijective (calls : List (Text × Nat)) (t : AliasTable) (aliases : List Nat) : Prop where
  answered : aliases.length = calls.length
  same : ∀ x ∈ calls.zip aliases, ∀ y ∈ calls.zip aliases, x.1 = y.1 ↔ x.2 = y.2
  nonzero : 0 ∉ aliases
  named : ∀ x ∈ calls.zip aliases, t.hostAlias.lookup x.2 = some x.1
  bijOn : Set.BijOn t.hostAlias.lookup (Set.Icc 1 calls.toFinset.card)
    (Set.image some { p | p ∈ calls })
  outside : ∀ a, a ∉ Set.Icc 1 calls.toFinset.card → t.hostAlias.lookup a = none

/-- **Host aliases are a bijection**: over every sequence of calls with fewer than 2^32
pairs. -/
theorem aliases_bijective {calls : List (Text × Nat)} (hfew : calls.toFinset.card < 4294967296) :
    Bijective calls (new.setHostAliases calls).1 (new.setHostAliases calls).2 := by
  obtain ⟨hnumbered, haliases⟩ := numbered_run hfew
  rw [haliases]
  have hzip : ∀ x ∈ calls.zip (calls.map (number calls)), x.1 ∈ calls ∧ x.2 = number calls x.1 := by
    intro x hx
    have hpairs := List.zip_map' (f := id) (g := number calls) (l := calls)
    rw [List.map_id] at hpairs
    rw [hpairs] at hx
    obtain ⟨p, hp, rfl⟩ := List.mem_map.mp hx
    exact ⟨hp, rfl⟩
  refine ⟨by simp, ?_, ?_, ?_, hnumbered.bijOn, fun _ => hnumbered.outside⟩
  · intro x hx y hy
    obtain ⟨hxm, hxn⟩ := hzip x hx
    obtain ⟨hym, hyn⟩ := hzip y hy
    rw [hxn, hyn, number_inj hxm hym]
  · intro hzero
    obtain ⟨p, _, hp⟩ := List.mem_map.mp hzero
    exact absurd hp (Nat.succ_ne_zero _)
  · intro x hx
    obtain ⟨hxm, hxn⟩ := hzip x hx
    rw [hxn, hnumbered.lookup_number hxm]

/-- Three calls for two pairs. -/
theorem aliases_bijective_two :
    Bijective [(['a'], 1), (['b'], 1), (['a'], 1)]
      (new.setHostAliases [(['a'], 1), (['b'], 1), (['a'], 1)]).1 [1, 2, 1] :=
  @aliases_bijective [(['a'], 1), (['b'], 1), (['a'], 1)] (by decide)

end AliasTable

/-! ## The aliases of all groups -/

namespace HostTable

/-- The aliases among the host tables. -/
def aliases (t : HostTable) : AliasTable := ⟨t.hostAlias, t.aliasCount⟩

/-- The pair a group entry asks an alias for. -/
def pairOf (e : HostEntry) : Text × Nat := (e.host, e.port)

theorem aliases_setHostAlias {calls : List (Text × Nat)} {t : HostTable}
    (h : t.aliases.Numbered calls) (e : HostEntry)
    (hfew : (firsts (calls ++ [pairOf e])).length < 4294967296) :
    (t.setHostAlias e.host e.port).1.aliases = (t.aliases.setHostAlias e.host e.port).1 := by
  unfold HostTable.setHostAlias AliasTable.setHostAlias
  cases hfind : t.hostAlias.entries.find? (fun it => it.2 = (e.host, e.port)) with
  | some it => simp [aliases, hfind]
  | none =>
      obtain ⟨_, hindex⟩ := h.not_found hfind hfew
      simp only [aliases] at hindex ⊢
      simp [hfind, hindex]

theorem aliases_addEntry (type : GroupType) (s : HostTable × Hosts) (e : HostEntry) :
    (addEntry type s e).1.aliases = (s.1.setHostAlias e.host e.port).1.aliases := rfl

/-- The loop of `setHosts` makes its calls behind those before it. -/
theorem aliases_addEntries {calls : List (Text × Nat)} (type : GroupType) (es : List HostEntry)
    {s : HostTable × Hosts}
    (h : s.1.aliases = (AliasTable.new.setHostAliases calls).1)
    (hfew : (calls ++ es.map pairOf).toFinset.card < 4294967296) :
    (es.foldl (addEntry type) s).1.aliases =
      (AliasTable.new.setHostAliases (calls ++ es.map pairOf)).1 := by
  induction es generalizing calls s with
  | nil => simpa using h
  | cons e es ih =>
      have hcalls : calls ++ (e :: es).map pairOf = (calls ++ [pairOf e]) ++ es.map pairOf := by
        simp
      rw [hcalls] at hfew ⊢
      have hone := (card_le_append (calls ++ [pairOf e]) (es.map pairOf)).trans_lt hfew
      have hbefore := (card_le_append calls [pairOf e]).trans_lt hone
      refine ih ?_ hfew
      have hnumbered := (AliasTable.numbered_run hbefore).1
      rw [← h] at hnumbered
      rw [aliases_addEntry, aliases_setHostAlias hnumbered e (by rwa [length_firsts]),
        AliasTable.setHostAliases_concat, ← h]
      rfl

theorem aliases_setHosts {calls : List (Text × Nat)} {t t' : HostTable} {type : GroupType}
    {es : List HostEntry} {hostsTmp : Hosts} (hset : t.setHosts type es = some (t', hostsTmp))
    (h : t.aliases = (AliasTable.new.setHostAliases calls).1)
    (hfew : (calls ++ es.map pairOf).toFinset.card < 4294967296) :
    t'.aliases = (AliasTable.new.setHostAliases (calls ++ es.map pairOf)).1 := by
  have hloop := aliases_addEntries (s := (t, ∅)) type es h hfew
  simp only [setHosts] at hset
  -- the ring is no part of the aliases
  split_ifs at hset with hempty hdefault
  · obtain ⟨rfl, _⟩ := Prod.mk.inj (Option.some.inj hset)
    exact hloop
  · obtain ⟨rfl, _⟩ := Prod.mk.inj (Option.some.inj hset)
    exact hloop

/-- **The aliases behind the start** are those of one sequence of calls over the three
groups. -/
theorem aliases_start {cfg : Config} {t : HostTable} {hosts : GroupHosts}
    (hstart : start cfg = some (t, hosts))
    (hfew : ((cfg.hosts ++ cfg.hostsBackup ++ cfg.hostsRead).map pairOf).toFinset.card < 4294967296) :
    t.aliases = (AliasTable.new.setHostAliases
      ((cfg.hosts ++ cfg.hostsBackup ++ cfg.hostsRead).map pairOf)).1 := by
  obtain ⟨r₁, h₁, hrest⟩ := Option.bind_eq_some_iff.mp hstart
  obtain ⟨r₂, h₂, hrest⟩ := Option.bind_eq_some_iff.mp hrest
  obtain ⟨r₃, h₃, hrest⟩ := Option.bind_eq_some_iff.mp hrest
  obtain ⟨rfl, _⟩ := Prod.mk.inj (Option.some.inj hrest)
  rw [List.map_append, List.map_append] at hfew ⊢
  have hboth := (card_le_append _ (cfg.hostsRead.map pairOf)).trans_lt hfew
  have hfirst := (card_le_append _ (cfg.hostsBackup.map pairOf)).trans_lt hboth
  have hone : r₁.1.aliases = (AliasTable.new.setHostAliases ([] ++ cfg.hosts.map pairOf)).1 :=
    aliases_setHosts h₁ rfl hfirst
  have htwo := aliases_setHosts h₂ hone hboth
  have hthree := aliases_setHosts h₃ htwo hfew
  exact hthree

end HostTable

end KvProxy
