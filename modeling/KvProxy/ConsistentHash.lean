import Mathlib.Data.Char
import Mathlib.Data.List.Lex
import Mathlib.Data.Prod.Lex
import KvProxy.Lib.Cursor
import KvProxy.Lib.Loop
import KvProxy.Crc32

/-!
# The consistent-hashing ring

`ConsistentHash` of `hash.cpp`.  The ring maps a checksum to a host, written
as the pair of its `host:port` text and its alias; a key belongs to the host
at the least ring position at or above the key's own checksum, wrapping to
the least position of all.

Every mutator works on a copy of the ring and swaps it in while it holds the
ring's mutex, taken with `trylock`; a busy mutex makes the mutator return
`false` with the ring untouched.  The outcome of `trylock` is an argument
here.

The lookup is `SortedMap.clockwise`, so the three laws below are the general
facts about minima of the rotated order, read at the ring:

* `find_delHost` — a host that does not own a key can leave unnoticed;
* `find_addHost` — a joining host can only take keys for itself;
* `find_eq_noFound_iff` / `find_spec` — what a lookup returns.

The loop of `delHost` erases entries from the map it iterates over, and then
advances the erased iterator.  `delHost` is what the loop is for;
`delHostLoop` has the iterators:

* `delHostLoop_eq` — the loop gets to the end when there is nothing to erase,
  and otherwise uses the iterator of the first entry it erases.
-/

namespace KvProxy

open MachineInt

/-- A `std::string` of configuration text. -/
abbrev Text := List Char

/-- `int2str`, and every other `%d`. -/
def int2str (n : Int) : Text :=
  if n < 0 then '-' :: Nat.toDigits 10 n.natAbs else Nat.toDigits 10 n.natAbs

/-- The name `"%d-%d"` of a virtual node, as the bytes its checksum reads.
Both numbers are unsigned and printed as signed. -/
def vnodeName (index i : Nat) : List UInt8 :=
  (int2str (int32 index) ++ '-' :: int2str (int32 i)).map Char.toUInt8

/-- The ring position of a virtual node. -/
def vnodeKey (index i : Nat) : Nat := (crc32 0 (vnodeName index i)).toNat

/-- A ring: position to host text and alias. -/
abbrev Ring := SortedMap Nat (Text × Nat)

/-- The argument of `createVNodes`: host text and alias to index and weight. -/
abbrev Hosts := SortedMap (Lex (Text × Nat)) (Nat × Nat)

/-- The two maps of a `ConsistentHash`: the live ring and the working copy. -/
structure ConsistentHash where
  hash : Ring
  hashTmp : Ring
  deriving DecidableEq

/-- The pair `find` returns on an empty ring. -/
def noFound : Text × Nat := ("no_found".toList, 0)

/-- The inner loop of `createVNodes`: the `weight` virtual nodes of one host,
each overwriting whatever sits at its position. -/
def insertVNodes (ring : Ring) (v : Text × Nat) (index weight : Nat) : Ring :=
  (List.range weight).foldl (fun h i => h.insert (vnodeKey index i) v) ring

/-- The outer loop of `createVNodes`. -/
def insertHosts (ring : Ring) (hosts : List (Lex (Text × Nat) × (Nat × Nat))) : Ring :=
  hosts.foldl (fun h it => insertVNodes h (ofLex it.1) it.2.1 it.2.2) ring

namespace ConsistentHash

/-- A freshly constructed ring. -/
def new : ConsistentHash := ⟨∅, ∅⟩

/-- `getSize`. -/
def getSize (h : ConsistentHash) : Nat := h.hash.entries.length

/-- `createVNodes(hosts)`; after the swap the working copy is the old ring. -/
def createVNodes (h : ConsistentHash) (trylock : Bool) (hosts : Hosts) :
    Bool × ConsistentHash :=
  if trylock then (true, ⟨insertHosts h.hash hosts.entries, h.hash⟩)
  else (false, h)

/-- `setHosts(hosts, force)`. -/
def setHosts (h : ConsistentHash) (trylock : Bool) (hosts : Hosts)
    (force : Bool) : ConsistentHash :=
  if h.hash.entries.isEmpty || force then (h.createVNodes trylock hosts).2 else h

/-- `delHost(alias_index)`, with its erase loop read as removing exactly the
entries of the alias; `delHostLoop` is the loop itself. -/
def delHost (h : ConsistentHash) (trylock : Bool) (aliasIndex : Nat) :
    Bool × ConsistentHash :=
  if trylock then (true, ⟨h.hash.filter (fun e => e.2.2 ≠ aliasIndex), h.hash⟩)
  else (false, h)

/-- One pass of the loop of `delHost` over the working copy.  The result is the
copy at the end of the loop, or `none` where an iterator is used that is not
valid. -/
def delHostBody (aliasIndex : Nat) (s : Ring × Cursor Nat) :
    Option (Option Ring) × (Ring × Cursor Nat) :=
  if s.2 = .stop then (some (some s.1), s)
  else
    match s.1.deref s.2 with
    | none => (some none, s)
    | some e =>
        match if e.2.2 = aliasIndex then s.1.erase s.2 else some s.1 with
        | none => (some none, s)
        | some ring =>
            match ring.next s.2 with
            | none => (some none, s)
            | some it => (none, (ring, it))

/-- The loop of `delHost`, for at most the given number of passes. -/
def delHostLoop (fuel aliasIndex : Nat) (ring : Ring) : Option (Option Ring) :=
  (Loop.run (delHostBody aliasIndex) fuel (ring, ring.first)).map Prod.fst

/-- `addHost(host_port, alias_index, index, weight)`. -/
def addHost (h : ConsistentHash) (trylock : Bool) (hostPort : Text)
    (aliasIndex index weight : Nat) : Bool × ConsistentHash :=
  h.createVNodes trylock ((∅ : Hosts).insert (toLex (hostPort, aliasIndex)) (index, weight))

/-- `find(key, key_len)` on the bytes of the key: `lower_bound`, wrapping to
`begin` at the end of the ring. -/
def find (h : ConsistentHash) (key : List UInt8) : Text × Nat :=
  match h.hash.clockwise (crc32 0 key).toNat with
  | some e => e.2
  | none => noFound

theorem find_eq {h : ConsistentHash} {key : List UInt8} {e : Nat × (Text × Nat)}
    (he : h.hash.clockwise (crc32 0 key).toNat = some e) : h.find key = e.2 := by
  simp [find, he]

/-- Adding one host runs the inner loop once. -/
theorem addHost_hash (h : ConsistentHash) (hostPort : Text) (aliasIndex index weight : Nat) :
    (h.addHost true hostPort aliasIndex index weight).2.hash =
      insertVNodes h.hash (hostPort, aliasIndex) index weight := rfl

/-- Removing the virtual nodes of a host that does not own the key leaves the
key's owner in place. -/
theorem find_delHost (h : ConsistentHash) (key : List UInt8) {a : Nat}
    (hne : (h.find key).2 ≠ a) :
    (h.delHost true a).2.find key = h.find key := by
  cases hc : h.hash.clockwise (crc32 0 key).toNat with
  | none =>
      have hnil := SortedMap.clockwise_eq_none_iff.mp hc
      have hdel : (h.delHost true a).2.hash.clockwise (crc32 0 key).toNat = none := by
        simp [delHost, SortedMap.filter, hnil]
      simp only [find, hc, hdel]
  | some e =>
      rw [find_eq hc] at hne ⊢
      exact find_eq (SortedMap.clockwise_filter hc (by simpa using hne))

/-- The owner after a round of insertions is the old one or the inserted host. -/
theorem clockwise_insertVNodes (v : Text × Nat) (index weight k : Nat) (ring : Ring) :
    (insertVNodes ring v index weight).clockwise k = ring.clockwise k ∨
      ∃ j, (insertVNodes ring v index weight).clockwise k = some (j, v) := by
  unfold insertVNodes
  generalize List.range weight = is
  induction is generalizing ring with
  | nil => exact Or.inl rfl
  | cons i is ih =>
      rw [List.foldl_cons]
      rcases ih (ring.insert (vnodeKey index i) v) with hsame | hnew
      · rcases SortedMap.clockwise_insert ring k (vnodeKey index i) v with hold | hhere
        · exact Or.inl (hsame.trans hold)
        · exact Or.inr ⟨_, hsame.trans hhere⟩
      · exact Or.inr hnew

/-- Adding a host moves a key to that host or not at all, also where a new
virtual node lands on an existing one. -/
theorem find_addHost (h : ConsistentHash) (key : List UInt8) (hostPort : Text)
    (a index weight : Nat) :
    (h.addHost true hostPort a index weight).2.find key = h.find key ∨
      (h.addHost true hostPort a index weight).2.find key = (hostPort, a) := by
  rcases clockwise_insertVNodes (hostPort, a) index weight (crc32 0 key).toNat h.hash
    with hsame | ⟨j, hnew⟩
  · left
    unfold find
    rw [addHost_hash, hsame]
  · right
    exact find_eq (by rw [addHost_hash, hnew])

/-- Only an empty ring finds nothing, because no host has alias `0`. -/
theorem find_eq_noFound_iff (h : ConsistentHash)
    (hpos : ∀ e ∈ h.hash, 1 ≤ e.2.2) (key : List UInt8) :
    h.find key = noFound ↔ h.hash.entries = [] := by
  rw [← SortedMap.clockwise_eq_none_iff (k := (crc32 0 key).toNat)]
  cases hc : h.hash.clockwise (crc32 0 key).toNat with
  | none => simp [find, hc]
  | some e =>
      have halias := hpos e (SortedMap.clockwise_spec hc).1
      have hne : e.2 ≠ noFound := by
        intro heq
        rw [heq] at halias
        exact absurd halias (by decide)
      simp [find, hc, hne]

/-- On a ring with entries a lookup returns the value at the least position
at or above the key's checksum, or at the least position of all. -/
theorem find_spec (h : ConsistentHash) (key : List UInt8) (hne : h.hash.entries ≠ []) :
    ∃ e ∈ h.hash, h.find key = e.2 ∧
      (((crc32 0 key).toNat ≤ e.1 ∧
          ∀ f ∈ h.hash, (crc32 0 key).toNat ≤ f.1 → e.1 ≤ f.1) ∨
        ((∀ f ∈ h.hash, f.1 < (crc32 0 key).toNat) ∧ ∀ f ∈ h.hash, e.1 ≤ f.1)) := by
  cases hc : h.hash.clockwise (crc32 0 key).toNat with
  | none => exact absurd (SortedMap.clockwise_eq_none_iff.mp hc) hne
  | some e =>
      obtain ⟨he, hmin⟩ := SortedMap.clockwise_spec hc
      refine ⟨e, he, find_eq hc, ?_⟩
      unfold SortedMap.Before at hmin
      rcases le_or_gt (crc32 0 key).toNat e.1 with hle | hgt
      · refine Or.inl ⟨hle, fun f hf hk => ?_⟩
        have := hmin f hf
        omega
      · refine Or.inr ⟨fun f hf => ?_, fun f hf => ?_⟩
        all_goals
          have := hmin f hf
          omega

/-- **The consistent-hashing law.**  Taking a host out of the ring moves only
the keys it owned, putting a host in moves keys only to it, and a lookup is
the wrapped successor of the key's checksum. -/
theorem consistent_hashing (h : ConsistentHash) (hpos : ∀ e ∈ h.hash, 1 ≤ e.2.2)
    (key : List UInt8) (a : Nat) (_ha : 1 ≤ a) :
    ((h.find key).2 ≠ a → (h.delHost true a).2.find key = h.find key) ∧
    (∀ hostPort index weight,
      (h.addHost true hostPort a index weight).2.find key = h.find key ∨
        (h.addHost true hostPort a index weight).2.find key = (hostPort, a)) ∧
    (h.find key = noFound ↔ h.hash.entries = []) ∧
    (h.hash.entries ≠ [] → ∃ e ∈ h.hash, h.find key = e.2 ∧
      (((crc32 0 key).toNat ≤ e.1 ∧
          ∀ f ∈ h.hash, (crc32 0 key).toNat ≤ f.1 → e.1 ≤ f.1) ∨
        ((∀ f ∈ h.hash, f.1 < (crc32 0 key).toNat) ∧ ∀ f ∈ h.hash, e.1 ≤ f.1))) :=
  ⟨find_delHost h key, fun hostPort index weight => find_addHost h key hostPort a index weight,
    find_eq_noFound_iff h hpos key, find_spec h key⟩

/-- The law at a ring of two hosts and the key `"a"`, whose owner stays when
the other host leaves. -/
theorem consistent_hashing_two_hosts :
    let h := (new.addHost true "x:1".toList 1 1 2).2.addHost true "y:1".toList 2 2 1 |>.2
    (h.find [97]).2 = 1 ∧ (h.delHost true 2).2.find [97] = h.find [97] := by
  have howner : ((((new.addHost true "x:1".toList 1 1 2).2.addHost true "y:1".toList 2 2 1).2).find
      [97]).2 = 1 := by
    decide +kernel
  refine ⟨howner, ?_⟩
  refine (consistent_hashing _ ?_ [97] 2 (by decide)).1 ?_
  · intro e he
    have hall : ∀ e ∈ (((new.addHost true "x:1".toList 1 1 2).2.addHost true
        "y:1".toList 2 2 1).2).hash.entries, 1 ≤ e.2.2 := by
      decide +kernel
    exact hall e he
  · rw [howner]
    decide

/-! ## The loop of `delHost` -/

section DelHostLoop

variable {ring : Ring} {done rest : List (Nat × (Text × Nat))} {e : Nat × (Text × Nat)}

/-- An entry of another alias is passed. -/
theorem delHostBody_pass {a : Nat} (h : ring.entries = done ++ e :: rest) (hne : e.2.2 ≠ a) :
    delHostBody a (ring, .entry e.1) = (none, (ring, SortedMap.cursorOf rest)) := by
  simp [delHostBody, SortedMap.deref_split h, hne, SortedMap.next_split h]

/-- An entry of the alias is erased, and then its iterator is advanced. -/
theorem delHostBody_erase {a : Nat} (h : ring.entries = done ++ e :: rest) (heq : e.2.2 = a) :
    delHostBody a (ring, .entry e.1) = (some none, (ring, .entry e.1)) := by
  obtain ⟨ring', hring⟩ := SortedMap.erase_split h
  simp [delHostBody, SortedMap.deref_split h, heq, hring, SortedMap.next_erase hring]

/-- The loop from an entry on. -/
theorem run_delHostBody (a fuel : Nat) (h : ring.entries = done ++ rest) :
    (Loop.run (delHostBody a) fuel (ring, SortedMap.cursorOf rest)).map Prod.fst =
      if fuel ≤ (rest.takeWhile (fun e => e.2.2 ≠ a)).length then none
      else some (if ∃ e ∈ rest, e.2.2 = a then none else some ring) := by
  induction rest generalizing done fuel with
  | nil =>
      cases fuel with
      | zero => rfl
      | succ fuel =>
          have hleave : delHostBody a (ring, .stop) = (some (some ring), (ring, .stop)) := rfl
          rw [SortedMap.cursorOf, Loop.run_leave fuel hleave]
          simp
  | cons e rest ih =>
      cases fuel with
      | zero => rfl
      | succ fuel =>
          by_cases he : e.2.2 = a
          · rw [SortedMap.cursorOf, Loop.run_leave fuel (delHostBody_erase h he)]
            simp [he]
          · have hsplit : ring.entries = (done ++ [e]) ++ rest := by rw [h, List.append_cons]
            have hany : (∃ x ∈ e :: rest, x.2.2 = a) ↔ ∃ x ∈ rest, x.2.2 = a := by simp [he]
            rw [SortedMap.cursorOf, Loop.run_pass fuel (delHostBody_pass h he), ih fuel hsplit]
            simp only [hany, List.takeWhile_cons, decide_eq_true he, if_true, List.length_cons,
              Nat.add_le_add_iff_right]

/-- **The loop of `delHost`**, with enough passes, comes to the end of a ring
without entries of the alias, and uses an erased iterator on every other
ring. -/
theorem delHostLoop_eq (a fuel : Nat) (ring : Ring) :
    delHostLoop fuel a ring =
      if fuel ≤ (ring.entries.takeWhile (fun e => e.2.2 ≠ a)).length then none
      else some (if ∃ e ∈ ring.entries, e.2.2 = a then none else some ring) :=
  run_delHostBody a fuel (List.nil_append _).symm

end DelHostLoop

/-- Where the loop comes to its end it has done what `delHost` is for. -/
theorem delHost_of_loop {h : ConsistentHash} {a fuel : Nat} {ring : Ring}
    (hloop : delHostLoop fuel a h.hash = some (some ring)) : (h.delHost true a).2.hash = ring := by
  rw [delHostLoop_eq] at hloop
  split_ifs at hloop with hfuel hany
  · cases Option.some.inj hloop
  · obtain rfl := Option.some.inj (Option.some.inj hloop)
    refine SortedMap.ext_mem ?_
    intro e
    have hne : e ∈ h.hash → e.2.2 ≠ a := fun he heq => hany ⟨e, he, heq⟩
    simp only [delHost, if_true, SortedMap.mem_filter, decide_eq_true_eq]
    exact ⟨fun he => he.1, fun he => ⟨he, hne he⟩⟩

/-- The loop of `delHost` ends, all its iterators are valid, and it has removed
the entries of the alias and no others. -/
def DelHostExact (h : ConsistentHash) (a : Nat) : Prop :=
  ∃ fuel ring, delHostLoop fuel a h.hash = some (some ring) ∧
    ∀ e, e ∈ ring ↔ e ∈ h.hash ∧ e.2.2 ≠ a

/-- **Erasing in `delHost`** is well defined and exact for those rings that have
nothing to erase. -/
theorem delHost_exact_iff (h : ConsistentHash) (a : Nat) :
    h.DelHostExact a ↔ ∀ e ∈ h.hash, e.2.2 ≠ a := by
  constructor
  · intro hexact e he heq
    obtain ⟨fuel, ring, hloop, _⟩ := hexact
    have hany : ∃ e ∈ h.hash.entries, e.2.2 = a := ⟨e, he, heq⟩
    rw [delHostLoop_eq] at hloop
    split_ifs at hloop
    cases Option.some.inj hloop
  · intro hnone
    have hany : ¬ ∃ e ∈ h.hash.entries, e.2.2 = a := fun ⟨e, he, heq⟩ => hnone e he heq
    refine ⟨(h.hash.entries.takeWhile (fun e => e.2.2 ≠ a)).length + 1, h.hash, ?_, ?_⟩
    · rw [delHostLoop_eq, if_neg (by omega), if_neg hany]
    · intro e
      exact ⟨fun he => ⟨he, hnone e he⟩, fun he => he.1⟩

/-- A ring of one virtual node, of alias `1`, which `delHost(1)` is to
remove. -/
theorem delHost_uses_erased :
    delHostLoop 1 1 (new.addHost true "x:1".toList 1 1 1).2.hash = some none ∧
      ¬ (new.addHost true "x:1".toList 1 1 1).2.DelHostExact 1 := by
  have hloop : ∀ fuel,
      delHostLoop (fuel + 1) 1 (new.addHost true "x:1".toList 1 1 1).2.hash = some none := by
    intro fuel
    have hentries : ∃ k, (new.addHost true "x:1".toList 1 1 1).2.hash.entries =
        [(k, ("x:1".toList, 1))] := ⟨vnodeKey 1 0, rfl⟩
    obtain ⟨k, hk⟩ := hentries
    rw [delHostLoop_eq, hk]
    simp
  refine ⟨hloop 0, ?_⟩
  intro hexact
  obtain ⟨fuel, ring, hsome, _⟩ := hexact
  cases fuel with
  | zero => cases hsome
  | succ fuel =>
      rw [hloop fuel] at hsome
      cases Option.some.inj hsome

end ConsistentHash

end KvProxy
