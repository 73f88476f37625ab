import KvProxy.ConsistentHash

/-!
# Text helpers

`split` and `str2int` of `util.h`.  `split` collects the fields of a text in a
map from their numbers, growing the entry of the field it is in; a field without
characters gets no entry.  `str2int` is `sscanf` with `%d` into a variable that
is not set before.

The texts come from lines of the configuration file, which are shorter than 200
bytes, so the field number is a natural number here.

* `lookup_split` — the entry at a number is the field of that number, if it is not
  empty;
* `entries_split` — so the map lists the fields that are not empty.
-/

namespace KvProxy

open MachineInt

/-- The body of the loop of `split`: `ret` and `i`. -/
def splitStep (chr : Char) (s : SortedMap Nat Text × Nat) (c : Char) : SortedMap Nat Text × Nat :=
  if c ≠ chr then (s.1.insert s.2 (s.1.getD s.2 [] ++ [c]), s.2)
  else (s.1, s.2 + 1)

/-- `split(content, chr)`. -/
def split (content : Text) (chr : Char) : SortedMap Nat Text :=
  (content.foldl (splitStep chr) (∅, 0)).1

/-- `isspace`. -/
def isSpace (c : Char) : Bool := c = ' ' ∨ (9 ≤ c.toNat ∧ c.toNat ≤ 13)

/-- The value of decimal digits. -/
def digitsValue (digits : Text) : Nat := digits.foldl (fun n d => 10 * n + (d.toNat - 48)) 0

/-- Conversion of a number to `long`, as `strtol` does it. -/
def clampLong (n : Int) : Int := max (-9223372036854775808) (min n 9223372036854775807)

/-- What `%d` reads from the text behind blanks and sign. -/
def scanDigits (neg : Bool) (text : Text) : Option Int :=
  let digits := text.takeWhile Char.isDigit
  if digits = [] then none
  else some (int32 (clampLong (if neg then -digitsValue digits else digitsValue digits)))

/-- `sscanf(str, "%d", &n)`: the number at the start of a text, behind blanks; `none`
when there is no digit and `n` is left alone. -/
def scanInt (str : Text) : Option Int :=
  match str.dropWhile isSpace with
  | [] => none
  | c :: rest =>
      if c = '-' then scanDigits true rest
      else if c = '+' then scanDigits false rest
      else scanDigits false (c :: rest)

/-- `str2int(str)`, where `n` is what its variable happens to hold. -/
def str2int (n : Int) (str : Text) : Int := (scanInt str).getD n

/-! ## The fields of a text -/

/-- The fields of a text. -/
def fields (content : Text) (chr : Char) : List Text := content.splitOn chr

/-- A field, as an entry of a map that has no empty ones. -/
def nonEmpty (text : Text) : Option Text := if text = [] then none else some text

theorem fields_cons_sep (chr : Char) (content : Text) :
    fields (chr :: content) chr = [] :: fields content chr := by
  rw [fields, List.splitOn_cons_eq_if_modifyHead, if_pos (beq_self_eq_true chr), ← fields]

theorem fields_cons_of_ne {chr c : Char} (hc : c ≠ chr) {content first : Text} {more : List Text}
    (h : fields content chr = first :: more) :
    fields (c :: content) chr = (c :: first) :: more := by
  rw [fields, List.splitOn_cons_eq_if_modifyHead, if_neg (by simpa using hc), ← fields, h]
  rfl

/-- A separator at the end begins a field. -/
theorem fields_concat_sep (chr : Char) (content : Text) :
    fields (content ++ [chr]) chr = fields content chr ++ [[]] := by
  rw [fields, List.splitOn_append_cons_self]
  rfl

/-- Another character at the end belongs to the last field. -/
theorem fields_concat_of_ne {chr c : Char} (hc : c ≠ chr) (content : Text) :
    ∃ before last, fields content chr = before ++ [last] ∧
      fields (content ++ [c]) chr = before ++ [last ++ [c]] := by
  induction content with
  | nil => exact ⟨[], [], rfl, fields_cons_of_ne hc rfl⟩
  | cons x content ih =>
      obtain ⟨before, last, hfields, hconcat⟩ := ih
      by_cases hx : x = chr
      · subst hx
        refine ⟨[] :: before, last, ?_, ?_⟩
        · rw [fields_cons_sep, hfields, List.cons_append]
        · rw [List.cons_append, fields_cons_sep, hconcat, List.cons_append]
      · cases before with
        | nil => exact ⟨[], x :: last, fields_cons_of_ne hx hfields, fields_cons_of_ne hx hconcat⟩
        | cons first before =>
            exact ⟨(x :: first) :: before, last, fields_cons_of_ne hx hfields,
              fields_cons_of_ne hx hconcat⟩

/-- The map and the number, behind a part of the text. -/
structure SplitBehind (chr : Char) (done : Text) (s : SortedMap Nat Text × Nat) : Prop where
  number : s.2 + 1 = (fields done chr).length
  entry : ∀ j, s.1.lookup j = ((fields done chr)[j]?).bind nonEmpty

theorem getD_nonEmpty (text : Text) : (nonEmpty text).getD [] = text := by
  unfold nonEmpty
  split_ifs with h
  · rw [h]
    rfl
  · rfl

/-- One more character. -/
theorem SplitBehind.step {chr : Char} {done : Text} {s : SortedMap Nat Text × Nat}
    (h : SplitBehind chr done s) (c : Char) : SplitBehind chr (done ++ [c]) (splitStep chr s c) := by
  by_cases hc : c = chr
  · subst hc
    have hstep : splitStep c s c = (s.1, s.2 + 1) := by simp [splitStep]
    rw [hstep]
    refine ⟨by simp [fields_concat_sep, h.number], fun j => ?_⟩
    dsimp only
    rw [h.entry, fields_concat_sep, List.getElem?_append]
    split_ifs with hj
    · rfl
    · rw [List.getElem?_eq_none (Nat.le_of_not_lt hj)]
      cases hlast : ([[]] : List Text)[j - (fields done c).length]? with
      | none => rfl
      | some text =>
          obtain rfl := List.mem_singleton.mp (List.mem_of_getElem? hlast)
          rfl
  · obtain ⟨before, last, hfields, hconcat⟩ := fields_concat_of_ne hc done
    have hstep : splitStep chr s c = (s.1.insert s.2 (s.1.getD s.2 [] ++ [c]), s.2) := by
      simp [splitStep, hc]
    have hnumber : s.2 = before.length := by
      have hlen := h.number
      rw [hfields] at hlen
      simpa using hlen
    have hcur : s.1.getD s.2 [] = last := by
      rw [SortedMap.getD, h.entry, hfields, hnumber]
      simp [getD_nonEmpty]
    rw [hstep, hcur]
    refine ⟨by simp [hconcat, hnumber], fun j => ?_⟩
    rw [SortedMap.lookup_insert, hconcat]
    by_cases hj : j = s.2
    · rw [if_pos hj, hj, hnumber]
      simp [nonEmpty]
    · rw [if_neg hj, h.entry, hfields, List.getElem?_append, List.getElem?_append]
      split_ifs with hlt
      · rfl
      · have hout : ([last] : List Text).length ≤ j - before.length := by
          simp only [List.length_singleton]
          omega
        rw [List.getElem?_eq_none hout, List.getElem?_eq_none (by simpa using hout)]

/-- The map and the number behind the whole text. -/
theorem splitBehind_run (content : Text) (chr : Char) :
    SplitBehind chr content (content.foldl (splitStep chr) (∅, 0)) := by
  induction content using List.reverseRecOn with
  | nil =>
      refine ⟨rfl, fun j => ?_⟩
      cases j with
      | zero => rfl
      | succ j => rfl
  | append_singleton content c ih =>
      rw [List.foldl_append, List.foldl_cons, List.foldl_nil]
      exact ih.step c

/-- **The entries of `split`** are the fields that are not empty, under their
numbers. -/
theorem lookup_split (content : Text) (chr : Char) (j : Nat) :
    (split content chr).lookup j = ((fields content chr)[j]?).bind nonEmpty :=
  (splitBehind_run content chr).entry j

/-- The fields that are not empty, with their numbers. -/
def filledFields (content : Text) (chr : Char) : List (Nat × Text) :=
  ((fields content chr).zipIdx.filter (fun f => f.1 ≠ [])).map Prod.swap

theorem filledFields_sorted (content : Text) (chr : Char) :
    (filledFields content chr).Pairwise (fun a b => a.1 < b.1) := by
  have hnumbers : ((fields content chr).zipIdx.map Prod.snd).Pairwise (· < ·) := by
    rw [List.zipIdx_map_snd]
    exact List.pairwise_lt_range'
  rw [filledFields, List.pairwise_map]
  exact (List.pairwise_map.mp hnumbers).filter _

theorem mem_filledFields {content : Text} {chr : Char} {e : Nat × Text} :
    e ∈ filledFields content chr ↔ ((fields content chr)[e.1]?).bind nonEmpty = some e.2 := by
  have hmem : e ∈ filledFields content chr ↔
      (fields content chr)[e.1]? = some e.2 ∧ e.2 ≠ [] := by
    rw [filledFields, List.mem_map]
    constructor
    · rintro ⟨f, hf, rfl⟩
      rw [List.mem_filter, List.mem_zipIdx_iff_getElem?] at hf
      simpa using hf
    · intro h
      refine ⟨e.swap, ?_, Prod.swap_swap e⟩
      rw [List.mem_filter, List.mem_zipIdx_iff_getElem?]
      simpa using h
  rw [hmem, Option.bind_eq_some_iff]
  constructor
  · rintro ⟨hfield, hne⟩
    exact ⟨e.2, hfield, if_neg hne⟩
  · rintro ⟨text, hfield, htext⟩
    unfold nonEmpty at htext
    split_ifs at htext with hne
    obtain rfl := Option.some.inj htext
    exact ⟨hfield, hne⟩

/-- **The map `split` returns**, as the list of its entries. -/
theorem entries_split (content : Text) (chr : Char) :
    (split content chr).entries = filledFields content chr := by
  have hmap : split content chr = ⟨filledFields content chr, filledFields_sorted content chr⟩ := by
    apply SortedMap.ext_mem
    intro e
    have hentry : e ∈ split content chr ↔ e ∈ filledFields content chr := by
      rw [mem_filledFields, ← lookup_split, SortedMap.lookup_eq_some_iff]
    exact hentry
  rw [hmap]

/-- Its size is the number of fields that are not empty. -/
theorem size_split (content : Text) (chr : Char) :
    (split content chr).entries.length =
      ((fields content chr).filter (fun f => f ≠ [])).length := by
  have hfields : ((fields content chr).zipIdx.filter (fun f => f.1 ≠ [])).map Prod.fst =
      (fields content chr).filter (fun f => f ≠ []) := by
    have hmap := List.filter_map (f := Prod.fst) (p := fun f : Text => f ≠ [])
      (l := (fields content chr).zipIdx)
    rw [List.zipIdx_map_fst] at hmap
    exact hmap.symm
  rw [entries_split, filledFields, List.length_map, ← hfields, List.length_map]

end KvProxy
