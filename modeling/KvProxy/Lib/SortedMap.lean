import Mathlib.Data.List.Sort
import Mathlib.Order.Basic
import Mathlib.Tactic.Common

/-!
# Ordered maps

A finite map over a linearly ordered key type, stored as its entry list in
strictly ascending key order.  The order is a field of the structure, so the
iteration order of a map is never a separate hypothesis.

Besides insertion and filtering, the file develops the two lookups an ordered
map offers: exact lookup, and the *clockwise* lookup that takes the least key
at or above a point and wraps to the least key of all when there is none.

* `ext_mem` — a map is determined by its entries, regardless of how it was
  built;
* `mem_insert` / `mem_filter` — what the two updates do to the entries;
* `clockwise_eq_some_iff` — the clockwise lookup returns the minimum of the
  rotated order `Before k`, which makes `clockwise_filter` and
  `clockwise_insert` facts about minima;
* `clockwise_filter_eq` — the lookup in a part of the map goes on past what is
  missing.
-/

universe u v

/-- A finite map with its entries in strictly ascending key order. -/
structure SortedMap (κ : Type u) (β : Type v) [LinearOrder κ] where
  entries : List (κ × β)
  sorted : entries.Pairwise (fun a b => a.1 < b.1)

namespace SortedMap

variable {κ : Type u} {β : Type v} [LinearOrder κ]

instance : Membership (κ × β) (SortedMap κ β) where
  mem m e := e ∈ m.entries

theorem mem_def {m : SortedMap κ β} {e : κ × β} : e ∈ m ↔ e ∈ m.entries := Iff.rfl

/-- The map without entries. -/
def empty : SortedMap κ β := ⟨[], List.Pairwise.nil⟩

instance : EmptyCollection (SortedMap κ β) := ⟨empty⟩

instance : Inhabited (SortedMap κ β) := ⟨empty⟩

instance [DecidableEq β] : DecidableEq (SortedMap κ β) := fun m n =>
  decidable_of_iff (m.entries = n.entries) (by cases m; cases n; simp)

@[simp] theorem entries_empty : (∅ : SortedMap κ β).entries = [] := rfl

@[simp] theorem not_mem_empty (e : κ × β) : e ∉ (∅ : SortedMap κ β) := by
  simp [mem_def]

/-- A key has at most one entry. -/
theorem value_unique {m : SortedMap κ β} {k : κ} {v w : β}
    (hv : (k, v) ∈ m) (hw : (k, w) ∈ m) : v = w := by
  have hkeys : (m.entries.map Prod.fst).Nodup :=
    List.pairwise_map.mpr (m.sorted.imp ne_of_lt)
  have hpair : (k, v) = (k, w) := List.inj_on_of_nodup_map hkeys hv hw rfl
  exact (Prod.ext_iff.mp hpair).2

/-- **Extensionality.**  Two maps with the same entries are the same map. -/
theorem ext_mem {m n : SortedMap κ β} (h : ∀ e, e ∈ m ↔ e ∈ n) : m = n := by
  cases m with
  | mk es hs =>
      cases n with
      | mk fs ht =>
          have hes : es = fs := by
            refine List.Perm.eq_of_pairwise ?_ hs ht ?_
            · intro a b _ _ hab hba
              exact absurd hab (not_lt.mpr hba.le)
            · refine (List.perm_ext_iff_of_nodup ?_ ?_).mpr h
              · exact hs.imp (fun hlt heq => absurd hlt (by simp [heq]))
              · exact ht.imp (fun hlt heq => absurd hlt (by simp [heq]))
          subst hes
          rfl

/-- Insertion into an ascending entry list, replacing an equal key. -/
def insertEntry (k : κ) (v : β) : List (κ × β) → List (κ × β)
  | [] => [(k, v)]
  | e :: es =>
      if k < e.1 then (k, v) :: e :: es
      else if e.1 < k then e :: insertEntry k v es
      else (k, v) :: es

theorem mem_insertEntry_of {k : κ} {v : β} {es : List (κ × β)} {e : κ × β}
    (h : e ∈ insertEntry k v es) : e = (k, v) ∨ e ∈ es := by
  induction es with
  | nil => simpa [insertEntry] using h
  | cons x es ih =>
      simp only [insertEntry] at h
      split_ifs at h <;> grind

theorem insertEntry_sorted (k : κ) (v : β) {es : List (κ × β)}
    (hs : es.Pairwise (fun a b => a.1 < b.1)) :
    (insertEntry k v es).Pairwise (fun a b => a.1 < b.1) := by
  induction es with
  | nil => simp [insertEntry]
  | cons x es ih =>
      rw [List.pairwise_cons] at hs
      simp only [insertEntry]
      split_ifs with hlt hgt
      · refine List.Pairwise.cons ?_ (List.pairwise_cons.mpr hs)
        intro e he
        rcases List.mem_cons.mp he with rfl | he
        · exact hlt
        · exact hlt.trans (hs.1 e he)
      · refine List.Pairwise.cons ?_ (ih hs.2)
        intro e he
        rcases mem_insertEntry_of he with rfl | he
        · exact hgt
        · exact hs.1 e he
      · have hk : k = x.1 := le_antisymm (not_lt.mp hgt) (not_lt.mp hlt)
        exact List.Pairwise.cons (fun e he => hk ▸ hs.1 e he) hs.2

theorem mem_insertEntry {k : κ} {v : β} {es : List (κ × β)} {e : κ × β}
    (hs : es.Pairwise (fun a b => a.1 < b.1)) :
    e ∈ insertEntry k v es ↔ e = (k, v) ∨ (e ∈ es ∧ e.1 ≠ k) := by
  induction es with
  | nil => simp [insertEntry]
  | cons x es ih =>
      rw [List.pairwise_cons] at hs
      have htail := ih hs.2
      simp only [insertEntry]
      split_ifs with hlt hgt
      · have hne : ∀ e ∈ x :: es, e.1 ≠ k := by
          intro e he
          rcases List.mem_cons.mp he with rfl | he
          · exact (ne_of_gt hlt)
          · exact ne_of_gt (hlt.trans (hs.1 e he))
        grind
      · have hne : x.1 ≠ k := ne_of_lt hgt
        grind
      · have hk : k = x.1 := le_antisymm (not_lt.mp hgt) (not_lt.mp hlt)
        have hne : ∀ e ∈ es, e.1 ≠ k := fun e he => hk ▸ ne_of_gt (hs.1 e he)
        grind

/-- `m[k] = v`: insert, or overwrite the entry of an equal key. -/
def insert (m : SortedMap κ β) (k : κ) (v : β) : SortedMap κ β :=
  ⟨insertEntry k v m.entries, insertEntry_sorted k v m.sorted⟩

theorem mem_insert {m : SortedMap κ β} {k : κ} {v : β} {e : κ × β} :
    e ∈ m.insert k v ↔ e = (k, v) ∨ (e ∈ m ∧ e.1 ≠ k) :=
  mem_insertEntry m.sorted

/-- Keep the entries that satisfy `p`. -/
def filter (p : κ × β → Bool) (m : SortedMap κ β) : SortedMap κ β :=
  ⟨m.entries.filter p, m.sorted.filter p⟩

@[simp] theorem mem_filter {p : κ × β → Bool} {m : SortedMap κ β} {e : κ × β} :
    e ∈ m.filter p ↔ e ∈ m ∧ p e = true :=
  List.mem_filter

/-- The value stored at a key. -/
def lookup (m : SortedMap κ β) (k : κ) : Option β :=
  (m.entries.find? (fun e => e.1 = k)).map Prod.snd

theorem lookup_eq_some_iff {m : SortedMap κ β} {k : κ} {v : β} :
    m.lookup k = some v ↔ (k, v) ∈ m := by
  constructor
  · intro h
    obtain ⟨e, he, rfl⟩ := Option.map_eq_some_iff.mp h
    have hk : e.1 = k := by simpa using List.find?_some he
    subst hk
    exact List.mem_of_find?_eq_some he
  · intro h
    cases hf : m.entries.find? (fun e => e.1 = k) with
    | none =>
        have := List.find?_eq_none.mp hf _ h
        simp at this
    | some e =>
        have hk : e.1 = k := by simpa using List.find?_some hf
        have hmem : (k, e.2) ∈ m := by
          subst hk
          exact List.mem_of_find?_eq_some hf
        simp [lookup, hf, value_unique hmem h]

theorem lookup_eq_none_iff {m : SortedMap κ β} {k : κ} :
    m.lookup k = none ↔ ∀ v, (k, v) ∉ m := by
  constructor
  · intro h v hv
    simp [lookup_eq_some_iff.mpr hv] at h
  · intro h
    cases hl : m.lookup k with
    | none => rfl
    | some v => exact absurd (lookup_eq_some_iff.mp hl) (h v)

/-- Two maps with the same lookups are the same. -/
theorem ext_lookup {m n : SortedMap κ β} (h : ∀ k, m.lookup k = n.lookup k) : m = n := by
  refine ext_mem fun e => ?_
  obtain ⟨k, v⟩ := e
  rw [← lookup_eq_some_iff, ← lookup_eq_some_iff, h]

theorem lookup_insert_self (m : SortedMap κ β) (k : κ) (v : β) :
    (m.insert k v).lookup k = some v :=
  lookup_eq_some_iff.mpr (mem_insert.mpr (Or.inl rfl))

theorem lookup_insert_of_ne (m : SortedMap κ β) {k j : κ} (v : β) (h : j ≠ k) :
    (m.insert k v).lookup j = m.lookup j := by
  cases hl : m.lookup j with
  | none =>
      rw [lookup_eq_none_iff] at hl ⊢
      intro w hw
      rcases mem_insert.mp hw with heq | hmem
      · exact h (Prod.ext_iff.mp heq).1
      · exact hl w hmem.1
  | some w =>
      rw [lookup_eq_some_iff] at hl ⊢
      exact mem_insert.mpr (Or.inr ⟨hl, h⟩)

/-- The value a reading `m[k]` yields when an absent key reads as `d`. -/
def getD (m : SortedMap κ β) (k : κ) (d : β) : β := (m.lookup k).getD d

theorem getD_insert (m : SortedMap κ β) (k j : κ) (v d : β) :
    (m.insert k v).getD j d = if j = k then v else m.getD j d := by
  unfold getD
  split_ifs with h
  · rw [h, lookup_insert_self]
    rfl
  · rw [lookup_insert_of_ne m v h]

/-- The same keys with other values. -/
def mapValues {γ : Type*} (f : β → γ) (m : SortedMap κ β) : SortedMap κ γ :=
  ⟨m.entries.map (fun e => (e.1, f e.2)), List.pairwise_map.mpr m.sorted⟩

theorem lookup_mapValues {γ : Type*} (f : β → γ) (m : SortedMap κ β) (k : κ) :
    (m.mapValues f).lookup k = (m.lookup k).map f := by
  simp only [lookup, mapValues, List.find?_map, Option.map_map]
  rfl

/-- The lookup in an updated map. -/
theorem lookup_insert (m : SortedMap κ β) (k j : κ) (v : β) :
    (m.insert k v).lookup j = if j = k then some v else m.lookup j := by
  split_ifs with h
  · rw [h, lookup_insert_self]
  · exact lookup_insert_of_ne m v h

/-- Writing the value that is there changes nothing. -/
theorem insert_of_lookup {m : SortedMap κ β} {k : κ} {v : β} (h : m.lookup k = some v) :
    m.insert k v = m := by
  rw [lookup_eq_some_iff] at h
  apply ext_mem
  intro e
  rw [mem_insert]
  constructor
  · rintro (rfl | ⟨he, _⟩)
    · exact h
    · exact he
  · intro he
    by_cases hk : e.1 = k
    · subst hk
      exact Or.inl (Prod.ext rfl (value_unique he h))
    · exact Or.inr ⟨he, hk⟩

@[simp] theorem lookup_empty (k : κ) : (∅ : SortedMap κ β).lookup k = none := rfl

/-! ## Keys -/

/-- The keys of a map, in their order. -/
def keys (m : SortedMap κ β) : List κ := m.entries.map Prod.fst

theorem mem_keys {m : SortedMap κ β} {k : κ} : k ∈ m.keys ↔ (m.lookup k).isSome := by
  rw [keys, List.mem_map, Option.isSome_iff_exists]
  constructor
  · rintro ⟨e, he, rfl⟩
    exact ⟨e.2, lookup_eq_some_iff.mpr he⟩
  · rintro ⟨v, hv⟩
    exact ⟨(k, v), lookup_eq_some_iff.mp hv, rfl⟩

theorem keys_sorted (m : SortedMap κ β) : m.keys.Pairwise (fun a b => a < b) :=
  List.pairwise_map.mpr m.sorted

/-- Maps with the same keys have them in the same order. -/
theorem keys_eq_of_isSome {γ : Type*} {m : SortedMap κ β} {n : SortedMap κ γ}
    (h : ∀ k, (m.lookup k).isSome ↔ (n.lookup k).isSome) : m.keys = n.keys :=
  m.keys_sorted.eq_of_mem_iff n.keys_sorted fun k => by rw [mem_keys, mem_keys, h]

/-- A new value for a key that is there. -/
theorem keys_insert_of_mem {m : SortedMap κ β} {k : κ} (h : k ∈ m.keys) (v : β) :
    (m.insert k v).keys = m.keys := by
  refine keys_eq_of_isSome fun j => ?_
  rw [lookup_insert]
  split_ifs with hj
  · rw [hj, ← mem_keys]
    exact iff_of_true rfl h
  · exact Iff.rfl

/-- The entries, read off the keys. -/
theorem entries_eq_map_keys (m : SortedMap κ β) (d : β) :
    m.entries = m.keys.map (fun k => (k, m.getD k d)) := by
  rw [keys, List.map_map]
  refine (List.map_id _).symm.trans (List.map_congr_left fun e he => ?_)
  have hlook : m.lookup e.1 = some e.2 := lookup_eq_some_iff.mpr he
  simp [getD, hlook]

/-! ## Bulk insertion -/

/-- Insert a list of entries from left to right. -/
def insertAll (m : SortedMap κ β) (es : List (κ × β)) : SortedMap κ β :=
  es.foldl (fun m e => m.insert e.1 e.2) m

/-- Inserting entries that give each key one value adds exactly them and
replaces what was at their keys. -/
theorem mem_insertAll {m : SortedMap κ β} {es : List (κ × β)} {e : κ × β}
    (hfun : ∀ x ∈ es, ∀ y ∈ es, x.1 = y.1 → x = y) :
    e ∈ m.insertAll es ↔ e ∈ es ∨ (e ∈ m ∧ ∀ x ∈ es, x.1 ≠ e.1) := by
  induction es generalizing m with
  | nil => simp [insertAll]
  | cons x es ih =>
      have htail := ih (m := m.insert x.1 x.2)
        (fun a ha b hb => hfun a (List.mem_cons_of_mem _ ha) b (List.mem_cons_of_mem _ hb))
      have hx := hfun x List.mem_cons_self
      rw [insertAll, List.foldl_cons, ← insertAll, htail, mem_insert]
      constructor
      · intro hcases
        rcases hcases with hes | ⟨rfl | ⟨hm, hne⟩, hno⟩
        · exact Or.inl (List.mem_cons_of_mem _ hes)
        · exact Or.inl List.mem_cons_self
        · exact Or.inr ⟨hm, by grind⟩
      · intro hcases
        rcases hcases with hes | ⟨hm, hno⟩
        · rcases List.mem_cons.mp hes with rfl | hes
          · by_cases hagain : e ∈ es
            · exact Or.inl hagain
            · refine Or.inr ⟨Or.inl rfl, fun y hy heq => hagain ?_⟩
              rw [hx y (List.mem_cons_of_mem _ hy) heq.symm]
              exact hy
          · exact Or.inl hes
        · refine Or.inr ⟨Or.inr ⟨hm, ?_⟩, ?_⟩
          · exact (hno x List.mem_cons_self).symm
          · exact fun y hy => hno y (List.mem_cons_of_mem _ hy)

/-- Inserting adds nothing else. -/
theorem mem_of_mem_insertAll {m : SortedMap κ β} {es : List (κ × β)} {e : κ × β}
    (he : e ∈ m.insertAll es) : e ∈ es ∨ e ∈ m := by
  induction es generalizing m with
  | nil => exact Or.inr he
  | cons x es ih =>
      rcases ih he with hes | hm
      · exact Or.inl (List.mem_cons_of_mem _ hes)
      · rcases mem_insert.mp hm with rfl | ⟨hm, _⟩
        · exact Or.inl List.mem_cons_self
        · exact Or.inr hm

/-- The keys after inserting are the old ones and the new ones. -/
theorem isSome_lookup_insertAll {m : SortedMap κ β} {es : List (κ × β)} {k : κ} :
    ((m.insertAll es).lookup k).isSome ↔ k ∈ es.map Prod.fst ∨ (m.lookup k).isSome := by
  induction es generalizing m with
  | nil => simp [insertAll]
  | cons x es ih =>
      rw [insertAll, List.foldl_cons, ← insertAll, ih, lookup_insert, List.map_cons,
        List.mem_cons]
      split_ifs with hk
      · simp [hk]
      · simp [hk]

/-- A map is its entries, inserted one by one. -/
theorem insertAll_entries (m : SortedMap κ β) : insertAll ∅ m.entries = m := by
  apply ext_mem
  intro e
  rw [mem_insertAll]
  · simp [mem_def]
  · intro x hx y hy hkey
    refine Prod.ext hkey (value_unique hx ?_)
    rw [hkey]
    exact hy

/-! ## Clockwise lookup -/

/-- The entry with the least key at or above `k`. -/
def lowerBound (m : SortedMap κ β) (k : κ) : Option (κ × β) :=
  m.entries.find? (fun e => k ≤ e.1)

/-- The least key at or above `k`, or the least key of all. -/
def clockwise (m : SortedMap κ β) (k : κ) : Option (κ × β) :=
  (m.lowerBound k).or m.entries.head?

/-- Going upwards from `k` and wrapping once, `a` is met no later than `b`. -/
def Before (k a b : κ) : Prop :=
  (k ≤ a ∧ (b < k ∨ a ≤ b)) ∨ (a < k ∧ b < k ∧ a ≤ b)

theorem Before.antisymm {k a b : κ} (hab : Before k a b) (hba : Before k b a) :
    a = b := by
  unfold Before at hab hba
  grind

/-- The head of a sorted entry list is its least entry. -/
theorem head_le {m : SortedMap κ β} {e f : κ × β}
    (he : m.entries.head? = some e) (hf : f ∈ m) : e.1 ≤ f.1 := by
  have hs := m.sorted
  rw [mem_def] at hf
  cases hm : m.entries with
  | nil => simp [hm] at he
  | cons x es =>
      rw [hm] at hs he hf
      obtain rfl : x = e := by simpa using he
      rcases List.mem_cons.mp hf with rfl | hf
      · exact le_refl _
      · exact (List.rel_of_pairwise_cons hs hf).le

/-- `lowerBound` returns the least entry at or above its argument. -/
theorem lowerBound_le {m : SortedMap κ β} {k : κ} {e f : κ × β}
    (he : m.lowerBound k = some e) (hf : f ∈ m) (hk : k ≤ f.1) : e.1 ≤ f.1 := by
  obtain ⟨_, before, after, hsplit, hbefore⟩ := List.find?_eq_some_iff_append.mp he
  have hs := m.sorted
  rw [mem_def, hsplit] at hf
  rw [hsplit] at hs
  rcases List.mem_append.mp hf with hf | hf
  · have hlow := hbefore f hf
    simp [hk] at hlow
  · have htail := (List.pairwise_append.mp hs).2.1
    rcases List.mem_cons.mp hf with rfl | hf
    · exact le_refl _
    · exact (List.rel_of_pairwise_cons htail hf).le

theorem lowerBound_eq_none_iff {m : SortedMap κ β} {k : κ} :
    m.lowerBound k = none ↔ ∀ e ∈ m, e.1 < k := by
  unfold lowerBound
  rw [List.find?_eq_none]
  simp [mem_def]

@[simp] theorem clockwise_eq_none_iff {m : SortedMap κ β} {k : κ} :
    m.clockwise k = none ↔ m.entries = [] := by
  unfold clockwise lowerBound
  constructor
  · intro h
    simpa using (Option.or_eq_none_iff.mp h).2
  · intro h
    simp [h]

theorem clockwise_spec {m : SortedMap κ β} {k : κ} {e : κ × β}
    (h : m.clockwise k = some e) : e ∈ m ∧ ∀ f ∈ m, Before k e.1 f.1 := by
  unfold clockwise at h
  cases hlow : m.lowerBound k with
  | some x =>
      obtain rfl : x = e := by simpa [hlow] using h
      have hk : k ≤ x.1 := by simpa using List.find?_some hlow
      refine ⟨List.mem_of_find?_eq_some hlow, fun f hf => Or.inl ⟨hk, ?_⟩⟩
      rcases lt_or_ge f.1 k with hlt | hge
      · exact Or.inl hlt
      · exact Or.inr (lowerBound_le hlow hf hge)
  | none =>
      have hhead : m.entries.head? = some e := by simpa [hlow] using h
      have hall := lowerBound_eq_none_iff.mp hlow
      have hmem : e ∈ m := List.mem_of_mem_head? hhead
      exact ⟨hmem, fun f hf => Or.inr ⟨hall e hmem, hall f hf, head_le hhead hf⟩⟩

/-- **The clockwise lookup is a minimum.**  It returns the one entry that the
rotated order `Before k` puts first. -/
theorem clockwise_eq_some_iff {m : SortedMap κ β} {k : κ} {e : κ × β} :
    m.clockwise k = some e ↔ e ∈ m ∧ ∀ f ∈ m, Before k e.1 f.1 := by
  constructor
  · exact clockwise_spec
  · intro hsplit
    obtain ⟨he, hmin⟩ := hsplit
    cases hc : m.clockwise k with
    | none =>
        have hnil := clockwise_eq_none_iff.mp hc
        rw [mem_def, hnil] at he
        simp at he
    | some f =>
        obtain ⟨hf, hfmin⟩ := clockwise_spec hc
        have hkey : f.1 = e.1 := (hfmin e he).antisymm (hmin f hf)
        have hval : f.2 = e.2 := by
          refine value_unique (m := m) (k := f.1) hf ?_
          rw [hkey]
          exact he
        rw [Prod.ext hkey hval]

/-- Dropping other entries does not move the clockwise successor. -/
theorem clockwise_filter {m : SortedMap κ β} {k : κ} {e : κ × β}
    {p : κ × β → Bool} (h : m.clockwise k = some e) (hp : p e = true) :
    (m.filter p).clockwise k = some e := by
  obtain ⟨he, hmin⟩ := clockwise_eq_some_iff.mp h
  refine clockwise_eq_some_iff.mpr ⟨mem_filter.mpr ⟨he, hp⟩, ?_⟩
  intro f hf
  exact hmin f (mem_filter.mp hf).1

/-- The entries in the order in which they are met, going upwards from `k` and
wrapping once. -/
def clockwiseFrom (m : SortedMap κ β) (k : κ) : List (κ × β) :=
  m.entries.filter (fun e => k ≤ e.1) ++ m.entries.filter (fun e => ¬ k ≤ e.1)

/-- The clockwise lookup returns the first of them. -/
theorem clockwise_eq_head? (m : SortedMap κ β) (k : κ) :
    m.clockwise k = (m.clockwiseFrom k).head? := by
  unfold clockwise lowerBound clockwiseFrom
  rw [List.head?_append, List.head?_filter, List.head?_filter]
  cases hlow : m.entries.find? (fun e => k ≤ e.1) with
  | some e => rfl
  | none =>
      -- all entries are below `k`, and the first of them is the head
      have hall : ∀ e ∈ m.entries, ¬ k ≤ e.1 := by
        intro e he
        simpa using List.find?_eq_none.mp hlow e he
      cases hentries : m.entries with
      | nil => rfl
      | cons e es =>
          have hfirst := hall e (by simp [hentries])
          rw [List.find?_cons_of_pos (by simpa using hfirst)]
          rfl

/-- What is dropped from the map is skipped on the way. -/
theorem clockwise_filter_eq (m : SortedMap κ β) (p : κ × β → Bool) (k : κ) :
    (m.filter p).clockwise k = (m.clockwiseFrom k).find? p := by
  have hfrom : (m.filter p).clockwiseFrom k = (m.clockwiseFrom k).filter p := by
    simp only [clockwiseFrom, filter, List.filter_append, List.filter_filter, Bool.and_comm]
  rw [clockwise_eq_head?, hfrom, List.head?_filter]

/-- One insertion leaves the clockwise successor alone or becomes it. -/
theorem clockwise_insert (m : SortedMap κ β) (k j : κ) (v : β) :
    (m.insert j v).clockwise k = m.clockwise k ∨
      (m.insert j v).clockwise k = some (j, v) := by
  cases hc : (m.insert j v).clockwise k with
  | none =>
      have hnil := clockwise_eq_none_iff.mp hc
      have hmem : (j, v) ∈ m.insert j v := mem_insert.mpr (Or.inl rfl)
      rw [mem_def, hnil] at hmem
      simp at hmem
  | some e =>
      obtain ⟨he, hmin⟩ := clockwise_eq_some_iff.mp hc
      rcases mem_insert.mp he with rfl | ⟨hold, hne⟩
      · exact Or.inr rfl
      · refine Or.inl (clockwise_eq_some_iff.mpr ⟨hold, ?_⟩).symm
        intro f hf
        by_cases hfj : f.1 = j
        · -- the old entry at `j` sits where the new one does
          have := hmin (j, v) (mem_insert.mpr (Or.inl rfl))
          simpa [hfj] using this
        · exact hmin f (mem_insert.mpr (Or.inr ⟨hf, hfj⟩))

end SortedMap
