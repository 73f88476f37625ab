import KvProxy.Hosts
import KvProxy.Util

/-!
# The entries of a host group

`setHosts` reads a group of the configuration, `host:port` to `id:weight`.  It
accepts a text when `split` has two entries for it, and then reads the entries of
number 0 and 1.  With an empty field in between or in front, these are not the two
entries there are; and a number is read into a variable that is not set before,
so it is not set at all when the text has no digits.

* `parseHostEntry_isSome_iff` — what is accepted, in terms of the fields;
* `parseHostEntry_pair` — what is read from two proper pairs;
* `hostEntries_isSome_iff`, `setHostGroup_of_refused` — the group as a whole;
* `host_entry_exact_iff` — when exactly the proper entries are accepted, and read.
-/

namespace KvProxy

open MachineInt

/-- What the variables of `str2int` happen to hold, for the three numbers of an
entry. -/
structure Unset where
  port : Int
  index : Int
  weight : Int

/-- The loop body of `setHosts`, up to where the host is known; `none` when it
exits. -/
def parseHostEntry (unset : Unset) (key value : Text) : Option HostEntry :=
  let hostVals := split key ':'
  if hostVals.entries.length ≠ 2 then none
  else
    let infoVals := split value ':'
    if infoVals.entries.length ≠ 2 then none
    else some {
      host := hostVals.getD 0 []
      port := uint32 (str2int unset.port (hostVals.getD 1 []))
      index := uint32 (str2int unset.index (infoVals.getD 0 []))
      weight := uint32 (str2int unset.weight (infoVals.getD 1 [])) }

/-- The entries of a group, in the order of the map. -/
def hostEntries (unset : Text → Unset) (group : SortedMap Text Text) : Option (List HostEntry) :=
  group.entries.mapM (fun e => parseHostEntry (unset e.1) e.1 e.2)

/-- `setHosts(type, …)` on a group of the configuration. -/
def HostTable.setHostGroup (t : HostTable) (type : GroupType) (unset : Text → Unset)
    (group : SortedMap Text Text) : Option (HostTable × Hosts) :=
  (hostEntries unset group).bind (t.setHosts type)

/-- `text` is `a:b`, with one `:` and something on both sides of it. -/
def PairOf (text a b : Text) : Prop :=
  text = a ++ ':' :: b ∧ (':' ∉ a ∧ ':' ∉ b) ∧ a ≠ [] ∧ b ≠ []

instance (text a b : Text) : Decidable (PairOf text a b) := inferInstanceAs (Decidable (_ ∧ _))

/-- Exactly two of the fields of a text are not empty. -/
def TwoFilled (text : Text) : Prop := ((fields text ':').filter (fun f => f ≠ [])).length = 2

instance (text : Text) : Decidable (TwoFilled text) := inferInstanceAs (Decidable (_ = _))

/-- The entry is accepted when both of its texts are pairs, and then it is read
from their parts, whatever the variables held. -/
def EntryExact (key value : Text) : Prop :=
  ∀ unset,
    ((parseHostEntry unset key value).isSome ↔
      (∃ host port, PairOf key host port) ∧ ∃ index weight, PairOf value index weight) ∧
    ∀ e, parseHostEntry unset key value = some e →
      ∃ host port index weight p i w, PairOf key host port ∧ PairOf value index weight ∧
        (scanInt port = some p ∧ scanInt index = some i ∧ scanInt weight = some w) ∧
        e = ⟨host, uint32 p, uint32 i, uint32 w⟩

/-! ## What is accepted -/

theorem size_eq_two_iff (text : Text) : (split text ':').entries.length = 2 ↔ TwoFilled text := by
  rw [size_split, TwoFilled]

/-- **An entry is accepted** when both texts have two fields that are not empty. -/
theorem parseHostEntry_isSome_iff (unset : Unset) (key value : Text) :
    (parseHostEntry unset key value).isSome ↔ TwoFilled key ∧ TwoFilled value := by
  rw [← size_eq_two_iff, ← size_eq_two_iff]
  by_cases hkey : (split key ':').entries.length = 2
  · by_cases hvalue : (split value ':').entries.length = 2
    · simp [parseHostEntry, hkey, hvalue]
    · simp [parseHostEntry, hkey, hvalue]
  · simp [parseHostEntry, hkey]

theorem PairOf.fields_eq {text a b : Text} (h : PairOf text a b) : fields text ':' = [a, b] := by
  obtain ⟨rfl, ⟨ha, hb⟩, _⟩ := h
  rw [fields, List.splitOn_append_cons_self, List.splitOn_eq_singleton ha,
    List.splitOn_eq_singleton hb]
  rfl

theorem PairOf.twoFilled {text a b : Text} (h : PairOf text a b) : TwoFilled text := by
  have hfields := h.fields_eq
  obtain ⟨_, _, ha, hb⟩ := h
  simp [TwoFilled, hfields, ha, hb]

/-- The two entries of a pair are its parts. -/
theorem PairOf.getD_split {text a b : Text} (h : PairOf text a b) :
    (split text ':').getD 0 [] = a ∧ (split text ':').getD 1 [] = b := by
  have hfields := h.fields_eq
  simp [SortedMap.getD, lookup_split, hfields, getD_nonEmpty]

/-- **Two pairs are read from their parts.** -/
theorem parseHostEntry_pair (unset : Unset) {key value host port index weight : Text}
    (hkey : PairOf key host port) (hvalue : PairOf value index weight) :
    parseHostEntry unset key value =
      some ⟨host, uint32 (str2int unset.port port), uint32 (str2int unset.index index),
        uint32 (str2int unset.weight weight)⟩ := by
  obtain ⟨hhost, hport⟩ := hkey.getD_split
  obtain ⟨hindex, hweight⟩ := hvalue.getD_split
  have hksize := (size_eq_two_iff key).mpr hkey.twoFilled
  have hvsize := (size_eq_two_iff value).mpr hvalue.twoFilled
  simp [parseHostEntry, hksize, hvsize, hhost, hport, hindex, hweight]

/-- The loop of `setHosts` comes to its end when every entry of the group is
accepted. -/
theorem hostEntries_isSome_iff (unset : Text → Unset) (group : SortedMap Text Text) :
    (hostEntries unset group).isSome ↔
      ∀ e ∈ group.entries, TwoFilled e.1 ∧ TwoFilled e.2 := by
  unfold hostEntries
  induction group.entries with
  | nil => simp
  | cons e es ih =>
      have hfirst := parseHostEntry_isSome_iff (unset e.1) e.1 e.2
      rw [List.mapM_cons, List.forall_mem_cons, ← hfirst, ← ih]
      cases parseHostEntry (unset e.1) e.1 e.2 with
      | none => simp
      | some host =>
          cases es.mapM (fun e => parseHostEntry (unset e.1) e.1 e.2) with
          | none => simp
          | some hosts => simp

/-- One entry that is not accepted ends `setHosts`. -/
theorem HostTable.setHostGroup_of_refused (t : HostTable) (type : GroupType)
    (unset : Text → Unset) {group : SortedMap Text Text} {e : Text × Text}
    (he : e ∈ group.entries) (hrefused : ¬ (TwoFilled e.1 ∧ TwoFilled e.2)) :
    t.setHostGroup type unset group = none := by
  have hnone : ¬ (hostEntries unset group).isSome := by
    rw [hostEntries_isSome_iff]
    exact fun hall => hrefused (hall e he)
  rw [Option.not_isSome_iff_eq_none] at hnone
  rw [HostTable.setHostGroup, hnone, Option.bind_none]

/-- **Host entries.**  Exactly the proper entries are accepted, and read from their
parts, when one of the two texts does not have two fields that are not empty, or
both are pairs whose three numbers begin with digits. -/
theorem host_entry_exact_iff (key value : Text) :
    EntryExact key value ↔
      ¬ (TwoFilled key ∧ TwoFilled value) ∨
        ∃ host port index weight, PairOf key host port ∧ PairOf value index weight ∧
          (scanInt port).isSome ∧ (scanInt index).isSome ∧ (scanInt weight).isSome := by
  constructor
  · intro hexact
    by_cases hfilled : TwoFilled key ∧ TwoFilled value
    · obtain ⟨e, he⟩ := Option.isSome_iff_exists.mp
        ((parseHostEntry_isSome_iff ⟨0, 0, 0⟩ key value).mpr hfilled)
      obtain ⟨host, port, index, weight, p, i, w, hkey, hvalue, ⟨hp, hi, hw⟩, _⟩ :=
        (hexact ⟨0, 0, 0⟩).2 e he
      exact Or.inr ⟨host, port, index, weight, hkey, hvalue, by simp [hp], by simp [hi],
        by simp [hw]⟩
    · exact Or.inl hfilled
  · rintro (hrefused | ⟨host, port, index, weight, hkey, hvalue, hp, hi, hw⟩) unset
    · have hnone : ¬ (parseHostEntry unset key value).isSome := by
        rw [parseHostEntry_isSome_iff]
        exact hrefused
      refine ⟨⟨fun h => absurd h hnone, ?_⟩, fun e he => absurd (by rw [he]; rfl) hnone⟩
      rintro ⟨⟨_, _, hkey⟩, _, _, hvalue⟩
      exact absurd ⟨hkey.twoFilled, hvalue.twoFilled⟩ hrefused
    · obtain ⟨p, hp⟩ := Option.isSome_iff_exists.mp hp
      obtain ⟨i, hi⟩ := Option.isSome_iff_exists.mp hi
      obtain ⟨w, hw⟩ := Option.isSome_iff_exists.mp hw
      have hread := parseHostEntry_pair unset hkey hvalue
      refine ⟨⟨fun _ => ⟨⟨host, port, hkey⟩, index, weight, hvalue⟩, fun _ => by rw [hread]; rfl⟩, ?_⟩
      intro e he
      refine ⟨host, port, index, weight, p, i, w, hkey, hvalue, ⟨hp, hi, hw⟩, ?_⟩
      rw [hread] at he
      simp only [str2int, hp, hi, hw, Option.getD_some] at he
      exact (Option.some.inj he).symm

/-- **Not a pair, and accepted.**  `a::1` has two fields that are not empty; the port
is read from the field between the colons. -/
theorem two_colons_accepted :
    (∀ n, (parseHostEntry ⟨n, 0, 0⟩ "a::1".toList "1:1".toList).map (fun e => e.port) =
      some (uint32 n)) ∧
    ¬ EntryExact "a::1".toList "1:1".toList := by
  constructor
  · intro n
    rfl
  · intro hexact
    obtain ⟨e, he⟩ := Option.isSome_iff_exists.mp
      (show (parseHostEntry ⟨0, 0, 0⟩ "a::1".toList "1:1".toList).isSome = true by decide +kernel)
    obtain ⟨host, port, _, _, _, _, _, hkey, _⟩ := (hexact ⟨0, 0, 0⟩).2 e he
    have hfields := hkey.fields_eq
    have hlen : (fields "a::1".toList ':').length = 3 := by decide +kernel
    rw [hfields] at hlen
    simp at hlen

end KvProxy
