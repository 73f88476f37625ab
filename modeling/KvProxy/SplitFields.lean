import KvProxy.Util

/-!
# Fields and their numbers

`split` of `util.h` counts fields in a `uint32_t` and keeps them in a map over `int`.
`Util` numbers them by natural numbers, which is right for the lines of a configuration
file; here the two conversions are made.  They only matter to a field that is number
2^31 or more, and not empty: its key is negative, or that of another field.

* `Agrees` — the two maps agree, character by character, up to such a field;
* `split_exact_iff` — so `split` extracts the fields of a text exactly when there is none.
-/

namespace KvProxy

open MachineInt

namespace MachineSplit

/-- The body of the loop of `split`: `ret` and `i`. -/
def splitStep (chr : Char) (s : SortedMap Int Text × Nat) (c : Char) : SortedMap Int Text × Nat :=
  if c ≠ chr then (s.1.insert (int32 s.2) (s.1.getD (int32 s.2) [] ++ [c]), s.2)
  else (s.1, (s.2 + 1) % 4294967296)

/-- `split(content, chr)`. -/
def split (content : Text) (chr : Char) : SortedMap Int Text :=
  (content.foldl (splitStep chr) (∅, 0)).1

/-- Every field that is not empty has a number below 2^31. -/
def FewFields (content : Text) (chr : Char) : Prop :=
  ∀ (j : Nat) (text : Text), (fields content chr)[j]? = some text → text ≠ [] → j < 2147483648

/-- The map over `int` is the one over natural numbers. -/
structure Agrees (s : SortedMap Int Text × Nat) (t : SortedMap Nat Text × Nat) : Prop where
  number : s.2 = t.2 % 4294967296
  entry : ∀ k : Nat, s.1.lookup k = t.1.lookup k
  negative : ∀ k : Int, k < 0 → s.1.lookup k = none

theorem Agrees.step {chr c : Char} {s : SortedMap Int Text × Nat} {t : SortedMap Nat Text × Nat}
    (h : Agrees s t) (hfew : c ≠ chr → t.2 < 2147483648) :
    Agrees (splitStep chr s c) (KvProxy.splitStep chr t c) := by
  unfold splitStep KvProxy.splitStep
  by_cases hc : c = chr
  · rw [if_neg (not_not.mpr hc), if_neg (not_not.mpr hc)]
    refine ⟨?_, h.entry, h.negative⟩
    dsimp only
    rw [h.number]
    omega
  · rw [if_pos hc, if_pos hc]
    have hsmall := hfew hc
    have hkey : int32 s.2 = (t.2 : Int) := by
      rw [h.number, Nat.mod_eq_of_lt (by omega)]
      exact int32_eq_self (by omega) (by omega)
    have hcur : s.1.getD (int32 s.2) [] = t.1.getD t.2 [] := by
      rw [SortedMap.getD, SortedMap.getD, hkey, h.entry]
    refine ⟨h.number, ?_, ?_⟩
    · intro k
      dsimp only
      rw [hcur, hkey, SortedMap.lookup_insert, SortedMap.lookup_insert, h.entry]
      simp only [Int.natCast_inj]
    · intro k hk
      dsimp only
      rw [SortedMap.lookup_insert_of_ne _ _ (by rw [hkey]; omega)]
      exact h.negative k hk

/-! ## Whole texts -/

theorem FewFields.of_concat {content : Text} {chr c : Char}
    (h : FewFields (content ++ [c]) chr) : FewFields content chr := by
  intro j text hj hne
  by_cases hc : c = chr
  · subst hc
    refine h j text ?_ hne
    rw [fields_concat_sep, List.getElem?_append_left (List.getElem?_eq_some_iff.mp hj).1]
    exact hj
  · obtain ⟨before, last, hfields, hconcat⟩ := fields_concat_of_ne hc content
    rw [hfields] at hj
    by_cases hlt : j < before.length
    · refine h j text ?_ hne
      rw [List.getElem?_append_left hlt] at hj
      rw [hconcat, List.getElem?_append_left hlt]
      exact hj
    · have hlen := (List.getElem?_eq_some_iff.mp hj).1
      rw [List.length_append, List.length_singleton] at hlen
      obtain rfl : j = before.length := by omega
      -- the last field has grown, and is not empty now
      refine h before.length (last ++ [c]) ?_ (by simp)
      rw [hconcat, List.getElem?_concat_length]

/-- The field that a character goes to has a number below 2^31. -/
theorem FewFields.last {content : Text} {chr c : Char} (h : FewFields (content ++ [c]) chr)
    (hc : c ≠ chr) : (content.foldl (KvProxy.splitStep chr) (∅, 0)).2 < 2147483648 := by
  obtain ⟨before, last, hfields, hconcat⟩ := fields_concat_of_ne hc content
  have hnumber := (splitBehind_run content chr).number
  rw [hfields, List.length_append, List.length_singleton] at hnumber
  refine h _ (last ++ [c]) ?_ (by simp)
  rw [hconcat, Nat.add_right_cancel hnumber, List.getElem?_concat_length]

theorem agrees_run {content : Text} {chr : Char} (h : FewFields content chr) :
    Agrees (content.foldl (splitStep chr) (∅, 0))
      (content.foldl (KvProxy.splitStep chr) (∅, 0)) := by
  induction content using List.reverseRecOn with
  | nil => exact ⟨rfl, fun k => rfl, fun k _ => rfl⟩
  | append_singleton content c ih =>
      rw [List.foldl_append, List.foldl_cons, List.foldl_nil, List.foldl_append, List.foldl_cons,
        List.foldl_nil]
      exact (ih h.of_concat).step h.last

/-- Keys are of the type `int`. -/
theorem key_lt {content : Text} {chr : Char} {k : Int} {text : Text}
    (h : (split content chr).lookup k = some text) : k < 2147483648 := by
  unfold split at h
  induction content using List.reverseRecOn generalizing text with
  | nil => cases h
  | append_singleton content c ih =>
      rw [List.foldl_append, List.foldl_cons, List.foldl_nil, splitStep] at h
      split_ifs at h with hc
      · dsimp only at h
        rw [SortedMap.lookup_insert] at h
        split_ifs at h with hk
        · rw [hk]
          exact int32_upper _
        · exact ih h
      · exact ih h

/-! ## Field extraction -/

/-- `split` extracts the fields: an entry for each that is not empty, and the text is
its entries at their numbers with the separators between them. -/
structure SplitExact (content : Text) (chr : Char) : Prop where
  entry : ∀ (i : Int) (text : Text), (split content chr).lookup i = some text ↔
    ∃ j : Nat, i = j ∧ (fields content chr)[j]? = some text ∧ text ≠ []
  joined : [chr].intercalate ((List.range (content.count chr + 1)).map
    (fun j : Nat => (split content chr).getD j [])) = content

theorem nonEmpty_eq_some {text given : Text} :
    nonEmpty text = some given ↔ text = given ∧ given ≠ [] := by
  unfold nonEmpty
  split_ifs with h
  · simp [h, eq_comm]
  · constructor
    · rintro ⟨⟩
      exact ⟨rfl, h⟩
    · rintro ⟨rfl, -⟩
      rfl

theorem length_fields (content : Text) (chr : Char) :
    (fields content chr).length = content.count chr + 1 := by
  induction content using List.reverseRecOn with
  | nil => rfl
  | append_singleton content c ih =>
      by_cases hc : c = chr
      · subst hc
        simp [fields_concat_sep, ih]
      · obtain ⟨before, last, hfields, hconcat⟩ := fields_concat_of_ne hc content
        rw [hfields] at ih
        rw [hconcat, List.count_append, List.count_singleton, if_neg (by simpa using hc)]
        simpa using ih

theorem entry_of_few {content : Text} {chr : Char} (h : FewFields content chr) (j : Nat) :
    (split content chr).lookup j = ((fields content chr)[j]?).bind nonEmpty := by
  rw [split, (agrees_run h).entry]
  exact lookup_split content chr j

theorem SplitExact.of_few {content : Text} {chr : Char} (h : FewFields content chr) :
    SplitExact content chr where
  entry := by
    intro i text
    constructor
    · intro hi
      have hpos : 0 ≤ i := by
        by_contra hneg
        rw [split, (agrees_run h).negative i (by omega)] at hi
        cases hi
      obtain ⟨j, rfl⟩ := Int.eq_ofNat_of_zero_le hpos
      rw [entry_of_few h, Option.bind_eq_some_iff] at hi
      obtain ⟨given, hgiven, htext⟩ := hi
      obtain ⟨rfl, hne⟩ := nonEmpty_eq_some.mp htext
      exact ⟨j, rfl, hgiven, hne⟩
    · rintro ⟨j, rfl, hj, hne⟩
      rw [entry_of_few h, hj, Option.bind_some, nonEmpty_eq_some]
      exact ⟨rfl, hne⟩
  joined := by
    have hmap : (List.range (content.count chr + 1)).map
        (fun j : Nat => (split content chr).getD j []) = fields content chr := by
      apply List.ext_getElem
      · rw [List.length_map, List.length_range, length_fields]
      · intro j hj hlen
        rw [List.getElem_map, List.getElem_range, SortedMap.getD, entry_of_few h,
          List.getElem?_eq_getElem hlen, Option.bind_some, getD_nonEmpty]
    rw [hmap]
    exact List.intercalate_splitOn chr

/-- An entry for each field means keys for them. -/
theorem SplitExact.few {content : Text} {chr : Char} (h : SplitExact content chr) :
    FewFields content chr := by
  intro j text hj hne
  have hkey := key_lt ((h.entry j text).mpr ⟨j, rfl, hj, hne⟩)
  omega

/-- **`split` is field extraction** for the texts without a field that is number 2^31 or
more and not empty, and for no other. -/
theorem split_exact_iff (content : Text) (chr : Char) :
    SplitExact content chr ↔ FewFields content chr :=
  ⟨SplitExact.few, SplitExact.of_few⟩

theorem fields_replicate (chr : Char) (n : Nat) (content : Text) :
    fields (List.replicate n chr ++ content) chr = List.replicate n [] ++ fields content chr := by
  induction n with
  | zero => rfl
  | succ n ih => rw [List.replicate_succ, List.cons_append, fields_cons_sep, ih,
      List.replicate_succ, List.cons_append]

theorem not_fewFields {n : Nat} (hn : 2147483648 ≤ n) {chr c : Char} (hc : c ≠ chr) :
    ¬ FewFields (List.replicate n chr ++ [c]) chr := by
  intro h
  have hlast := h n [c] ?_ (by simp)
  · omega
  · rw [fields_replicate, fields_cons_of_ne hc rfl]
    simp

/-- Behind 2^31 separators a field has no entry at its number. -/
theorem split_many_fields : ¬ SplitExact (List.replicate 2147483648 ':' ++ ['x']) ':' := by
  intro h
  exact not_fewFields le_rfl (by decide : 'x' ≠ ':') h.few

end MachineSplit

end KvProxy
