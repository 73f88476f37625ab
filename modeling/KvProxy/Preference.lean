import KvProxy.HealthCheck
import KvProxy.FanOut

/-!
# Which host answers for a key while hosts come and go

The virtual nodes of a group stand around its ring, and from the position of a key
they are met in an order that never changes.  The workers count failures, the health
thread takes hosts out of the rings and puts them back, and at any moment the key
belongs to the first host of its order that is not flagged offline.  A read goes
around the ring of the read hosts first, and around the default ring when none of them
is left.  As in `HostTable.failover`, `delHost` is the exact removal.

* `find_ringOf` — a lookup in the ring of the online hosts is a search in that order;
* `healthStep_inStep` — no step of the workers or the health thread disturbs this;
* `first_online_answers` — the owners in every state, and when they change.
-/

namespace KvProxy

/-- The hosts of a group in the order in which they are met from the position of a key
on, each once for every virtual node that it has. -/
def preference (hosts : Hosts) (key : List UInt8) : List (Text × Nat) :=
  ((ringOf hosts (fun _ => false)).clockwiseFrom (crc32 0 key).toNat).map Prod.snd

/-- The first of some hosts that is not flagged. -/
def firstOnline (offline : Nat → Bool) (pref : List (Text × Nat)) : Text × Nat :=
  (pref.find? (fun v => !offline v.2)).getD noFound

/-- The order in which the hosts stand for a read. -/
def readPreference (hosts : HostTable.GroupHosts) (key : List UInt8) : List (Text × Nat) :=
  preference (hosts .hostsRead) key ++ preference (hosts .hosts) key

/-! ## Searching an order -/

section FirstOnline

variable {offline : Nat → Bool} {pref : List (Text × Nat)} {a : Nat}

/-- A host that is not the first can go offline unnoticed. -/
theorem firstOnline_offline (h : (firstOnline offline pref).2 ≠ a) :
    firstOnline (Function.update offline a true) pref = firstOnline offline pref := by
  unfold firstOnline at h ⊢
  induction pref with
  | nil => rfl
  | cons v pref ih =>
      by_cases hv : offline v.2 = true
      · -- the host is passed, with or without the new flag
        have hv' : Function.update offline a true v.2 = true := by
          rw [Function.update_apply, hv, ite_self]
        rw [List.find?_cons_of_neg (by simp [hv])] at h
        rw [List.find?_cons_of_neg (by simp [hv']), List.find?_cons_of_neg (by simp [hv])]
        exact ih h
      · rw [List.find?_cons_of_pos (by simp [hv])] at h
        have hv' : Function.update offline a true v.2 = offline v.2 :=
          Function.update_of_ne h _ _
        rw [List.find?_cons_of_pos (by simp [hv', hv]), List.find?_cons_of_pos (by simp [hv])]

/-- A host that comes back is the first now, or is not noticed. -/
theorem firstOnline_online (offline : Nat → Bool) (pref : List (Text × Nat)) (a : Nat) :
    firstOnline (Function.update offline a false) pref = firstOnline offline pref ∨
      (firstOnline (Function.update offline a false) pref).2 = a := by
  unfold firstOnline
  induction pref with
  | nil => exact Or.inl rfl
  | cons v pref ih =>
      by_cases ha : v.2 = a
      · right
        rw [List.find?_cons_of_pos (by simp [ha])]
        exact ha
      · have hsame : Function.update offline a false v.2 = offline v.2 :=
          Function.update_of_ne ha _ _
        by_cases hv : offline v.2 = true
        · rw [List.find?_cons_of_neg (by simp [hsame, hv]), List.find?_cons_of_neg (by simp [hv])]
          exact ih
        · left
          rw [List.find?_cons_of_pos (by simp [hsame, hv]), List.find?_cons_of_pos (by simp [hv])]

/-- The first host of all stays the first one as long as it is online. -/
theorem firstOnline_of_first {offline' : Nat → Bool} (hall : ∀ b, offline b = false)
    (hon : offline' (firstOnline offline pref).2 = false) :
    firstOnline offline' pref = firstOnline offline pref := by
  unfold firstOnline at hon ⊢
  cases pref with
  | nil => rfl
  | cons v pref =>
      rw [List.find?_cons_of_pos (by simp [hall])] at hon
      rw [List.find?_cons_of_pos (by simpa using hon), List.find?_cons_of_pos (by simp [hall])]

end FirstOnline

/-! ## Lookups in the ring of the online hosts -/

section Rings

variable {hosts : Hosts} {offline : Nat → Bool}

/-- The ring of the online hosts is what is left of the ring of all hosts. -/
theorem ringOf_eq_filter (hapart : VNodesApart hosts) (offline : Nat → Bool) :
    ringOf hosts offline =
      (ringOf hosts (fun _ => false)).filter (fun e => !offline e.2.2) := by
  apply SortedMap.ext_mem
  intro e
  rw [SortedMap.mem_filter, mem_ringOf hapart, mem_ringOf hapart]
  constructor
  · rintro ⟨it, hit, hon, i, hi, rfl⟩
    exact ⟨⟨it, hit, rfl, i, hi, rfl⟩, by simpa using hon⟩
  · rintro ⟨⟨it, hit, _, i, hi, rfl⟩, hon⟩
    exact ⟨it, hit, by simpa using hon, i, hi, rfl⟩

/-- The first online virtual node. -/
theorem clockwise_ringOf (hapart : VNodesApart hosts) (offline : Nat → Bool)
    (key : List UInt8) :
    ((ringOf hosts offline).clockwise (crc32 0 key).toNat).map Prod.snd =
      (preference hosts key).find? (fun v => !offline v.2) := by
  rw [ringOf_eq_filter hapart, SortedMap.clockwise_filter_eq, preference, List.find?_map]
  rfl

/-- **A lookup** in the ring of the online hosts is a search in the order of the key. -/
theorem find_ringOf (hapart : VNodesApart hosts) {h : ConsistentHash}
    (hring : h.hash = ringOf hosts offline) (key : List UInt8) :
    h.find key = firstOnline offline (preference hosts key) := by
  rw [firstOnline, ← clockwise_ringOf hapart, ← hring, ConsistentHash.find]
  cases h.hash.clockwise (crc32 0 key).toNat with
  | none => rfl
  | some e => rfl

end Rings

namespace HostTable

variable {t : HostTable} {hosts : GroupHosts}

/-- A read is searched for among the read hosts, and then among all default hosts. -/
theorem InStep.find_readRing (h : InStep t hosts) (hapart : ∀ g, VNodesApart (hosts g))
    (key : List UInt8) : t.readRing.find key = firstOnline t.offline (readPreference hosts key) := by
  have hread := clockwise_ringOf (hapart .hostsRead) t.offline key
  rw [← h.rings] at hread
  rw [readRing, firstOnline, readPreference, List.find?_append, ← hread]
  by_cases hsize : (t.rings .hostsRead).getSize > 0
  · -- the read ring has an entry, so it has a first one
    have hne : (t.rings .hostsRead).hash.clockwise (crc32 0 key).toNat ≠ none := by
      rw [Ne, SortedMap.clockwise_eq_none_iff]
      exact List.ne_nil_of_length_pos hsize
    obtain ⟨e, he⟩ := Option.ne_none_iff_exists'.mp hne
    rw [if_pos hsize, ConsistentHash.find_eq he, he]
    rfl
  · have hnil : (t.rings .hostsRead).hash.entries = [] :=
      List.eq_nil_of_length_eq_zero (Nat.eq_zero_of_not_pos hsize)
    rw [if_neg hsize, SortedMap.clockwise_eq_none_iff.mpr hnil,
      find_ringOf (hapart .hosts) (h.rings .hosts) key]
    rfl

/-- **The owner of a key** is the first host in its order that is online. -/
theorem InStep.owner_eq (h : InStep t hosts) (hapart : ∀ g, VNodesApart (hosts g))
    (key : List UInt8) : t.owner key = (firstOnline t.offline (readPreference hosts key)).2 := by
  rw [owner, h.find_readRing hapart]

end HostTable

/-! ## Runs of the workers and the health thread -/

section Run

variable {cfg : HealthConfig} {s s' : HealthState} {act : HealthAct} {hosts : HostTable.GroupHosts}

/-- A step calls `failover` for one host, or leaves the tables as they are. -/
theorem healthStep_table (h : healthStep cfg s act = some s') :
    s'.table = s.table ∨ ∃ b isDel, s'.table = (s.table.failover b isDel).2 := by
  cases HealthStep.of_healthStep h with
  | failover hpc hfails => exact Or.inr ⟨_, _, rfl⟩
  | recover hpc => exact Or.inr ⟨_, _, rfl⟩
  | _ => exact Or.inl rfl

/-- A step changes the flag of one host at most. -/
theorem healthStep_flag (h : healthStep cfg s act = some s') :
    ∃ b, ∀ a, a ≠ b → s'.table.offline a = s.table.offline a := by
  rcases healthStep_table h with hsame | ⟨b, isDel, hfailover⟩
  · exact ⟨0, fun a _ => by rw [hsame]⟩
  · refine ⟨b, fun a hne => ?_⟩
    rw [hfailover]
    exact (s.table.failover_offline b isDel a).resolve_right (fun hflag => hne hflag.1.symm)

/-- **One step** keeps the rings equal to the online hosts. -/
theorem healthStep_inStep (hapart : ∀ g, VNodesApart (hosts g))
    (hone : ∀ a, HostTable.OneInfo hosts a) (hs : HostTable.InStep s.table hosts)
    (h : healthStep cfg s act = some s') : HostTable.InStep s'.table hosts := by
  rcases healthStep_table h with hsame | ⟨b, isDel, hfailover⟩
  · rw [hsame]
    exact hs
  · rw [hfailover]
    exact hs.failover hapart (fun _ _ => hone b)

/-- The rings in every state that is reached. -/
theorem healthRun_inStep (hapart : ∀ g, VNodesApart (hosts g))
    (hone : ∀ a, HostTable.OneInfo hosts a) (hs : HostTable.InStep s.table hosts)
    {acts : List HealthAct} (hrun : Steps.run (healthStep cfg) s acts = some s') :
    HostTable.InStep s'.table hosts :=
  Steps.run_invariant (C := fun _ _ => True) (fun t => HostTable.InStep t.table hosts)
    (fun _ _ _ ht _ hstep => healthStep_inStep hapart hone ht hstep) hs
    (Steps.everyStep_of_forall (fun _ _ => trivial) s acts) hrun

/-- A key changes its owner when the owner goes offline, or when another host comes back
and owns the key then. -/
theorem healthStep_owner (hapart : ∀ g, VNodesApart (hosts g))
    (hs : HostTable.InStep s.table hosts) (hs' : HostTable.InStep s'.table hosts)
    (h : healthStep cfg s act = some s') {key : List UInt8}
    (hmoved : s'.table.owner key ≠ s.table.owner key) :
    ∃ a, (s.table.offline a = false ∧ s'.table.offline a = true ∧ s.table.owner key = a) ∨
      (s.table.offline a = true ∧ s'.table.offline a = false ∧ s'.table.owner key = a) := by
  obtain ⟨b, hothers⟩ := healthStep_flag h
  have hflags : s'.table.offline = Function.update s.table.offline b (s'.table.offline b) := by
    funext a
    by_cases ha : a = b
    · rw [ha, Function.update_self]
    · rw [Function.update_of_ne ha, hothers a ha]
  have hbefore := hs.owner_eq hapart key
  have hafter := hs'.owner_eq hapart key
  rw [hbefore, hafter] at hmoved
  rw [hbefore, hafter]
  refine ⟨b, ?_⟩
  cases hon : s.table.offline b with
  | false =>
      cases hoff : s'.table.offline b with
      | false =>
          rw [hoff, ← hon, Function.update_eq_self] at hflags
          rw [hflags] at hmoved
          exact absurd rfl hmoved
      | true =>
          refine Or.inl ⟨rfl, rfl, ?_⟩
          by_contra hne
          rw [hflags, hoff, firstOnline_offline hne] at hmoved
          exact hmoved rfl
  | true =>
      cases hoff : s'.table.offline b with
      | true =>
          rw [hoff, ← hon, Function.update_eq_self] at hflags
          rw [hflags] at hmoved
          exact absurd rfl hmoved
      | false =>
          rw [hoff] at hflags
          refine Or.inr ⟨rfl, rfl, ?_⟩
          rcases firstOnline_online s.table.offline (readPreference hosts key) b with hsame | hnow
          · rw [hflags, hsame] at hmoved
            exact absurd rfl hmoved
          · rw [hflags]
            exact hnow

end Run

/-- Two hosts, as they are listed. -/
def twoListed : HostTable.Config where
  hosts := [⟨"127.0.0.1".toList, 11211, 1, 1⟩, ⟨"127.0.0.2".toList, 11211, 2, 1⟩]
  hostsBackup := []
  hostsRead := []

/-- They are started. -/
def twoStarted : HostTable × HostTable.GroupHosts :=
  (HostTable.start twoListed).getD (.new, fun _ => ∅)

/-- One failure takes a host offline. -/
def twoHealth : HealthConfig := ⟨1, twoStarted.1.hostAlias⟩

/-- They are started without an error. -/
theorem twoListed_start : HostTable.start twoListed = some (twoStarted.1, twoStarted.2) := rfl

theorem twoStarted_apart : ∀ g, VNodesApart (twoStarted.2 g) := by
  intro g
  cases g with
  | hosts => decide +kernel
  | hostsBackup => decide +kernel
  | hostsRead => decide +kernel

theorem twoStarted_oneInfo : ∀ a, HostTable.OneInfo twoStarted.2 a := by
  have hall : ∀ it ∈ (twoStarted.2 .hosts).entries, it.2 = ((ofLex it.1).2, 1) := by
    decide +kernel
  have hinfo : ∀ g, ∀ it ∈ twoStarted.2 g, it.2 = ((ofLex it.1).2, 1) := by
    intro g it hit
    cases g with
    | hosts => exact hall it hit
    | hostsBackup => exact absurd hit (SortedMap.not_mem_empty it)
    | hostsRead => exact absurd hit (SortedMap.not_mem_empty it)
  intro a g g' it hit it' hit' ha ha'
  rw [hinfo g it hit, hinfo g' it' hit', ha, ha']

end KvProxy
