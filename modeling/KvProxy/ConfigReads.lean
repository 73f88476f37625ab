import KvProxy.Config

/-!
# Reading the configuration

The getters of `Config` read `conf` by indexing, which puts an empty entry where
there is none.  An empty value reads like a missing one, so `getConfStr` and
`getConfBool` with a key do not notice the difference; without a key they return
the whole section, with the keys that were only asked for.

* `getConfStr_eq`, `getConfBool_eq`, … — what each getter returns;
* `ConfCall.run_value` — what a call leaves behind;
* `reads_unchanged_iff` — when every call of a sequence returns what it would
  return as the first one.
-/

namespace KvProxy

namespace Config

/-- `conf[section][key]`. -/
def indexKey (c : Config) (sec key : Text) : Text × Config :=
  ((c.conf.getD sec ∅).getD key [], c.store sec key ((c.conf.getD sec ∅).getD key []))

/-- `conf[section]`. -/
def indexSection (c : Config) (sec : Text) : SortedMap Text Text × Config :=
  (c.conf.getD sec ∅, { c with conf := c.conf.insert sec (c.conf.getD sec ∅) })

/-- `getConfStr(section, key)`. -/
def getConfStr (c : Config) (sec key : Text) : Text × Config :=
  if sec = [] ∨ key = [] then ([], c)
  else
    let (val, c) := c.indexKey sec key
    if val = [] then ([], c) else c.indexKey sec key

/-- `getConfStr(section)`. -/
def getConfStrSection (c : Config) (sec : Text) : SortedMap Text Text × Config :=
  if sec = [] then (∅, c)
  else
    let (m, c) := c.indexSection sec
    if m.entries = [] then (∅, c)
    else (m.entries.foldl (fun ret it => ret.insert it.1 it.2) ∅, c)

/-- The values that stand for `true`. -/
def isOn (val : Text) : Bool :=
  val = "on".toList ∨ val = "1".toList ∨ val = "yes".toList

/-- `getConfBool(section, key)`. -/
def getConfBool (c : Config) (sec key : Text) : Bool × Config :=
  if sec = [] ∨ key = [] then (false, c)
  else
    let (val, c) := c.indexKey sec key
    if val = [] then (false, c)
    else
      let (val, c) := c.indexKey sec key
      (isOn val, c)

/-- `getConfBool(section)`: the values are read once more by their keys. -/
def getConfBoolSection (c : Config) (sec : Text) : SortedMap Text Bool × Config :=
  if sec = [] then (∅, c)
  else
    let (m, c) := c.indexSection sec
    if m.entries = [] then (∅, c)
    else
      m.entries.foldl (fun s it =>
        ((s.1.insert it.1 (isOn (s.2.indexKey sec it.1).1)), (s.2.indexKey sec it.1).2)) (∅, c)

end Config

/-- A call of a getter. -/
inductive ConfCall where
  | str (sec key : Text)
  | strSection (sec : Text)
  | bool (sec key : Text)
  | boolSection (sec : Text)
  deriving DecidableEq

/-- What a getter returns. -/
inductive ConfResult where
  | str (val : Text)
  | strSection (vals : SortedMap Text Text)
  | bool (val : Bool)
  | boolSection (vals : SortedMap Text Bool)
  deriving DecidableEq

/-- A call: what it returns, and the configuration behind it. -/
def ConfCall.run (c : Config) : ConfCall → ConfResult × Config
  | .str sec key => (.str (c.getConfStr sec key).1, (c.getConfStr sec key).2)
  | .strSection sec => (.strSection (c.getConfStrSection sec).1, (c.getConfStrSection sec).2)
  | .bool sec key => (.bool (c.getConfBool sec key).1, (c.getConfBool sec key).2)
  | .boolSection sec => (.boolSection (c.getConfBoolSection sec).1, (c.getConfBoolSection sec).2)

/-- What the calls of a sequence return, one after the other. -/
def confResults : Config → List ConfCall → List ConfResult
  | _, [] => []
  | c, call :: rest => (call.run c).1 :: confResults (call.run c).2 rest

/-- The section and the key that a call indexes. -/
def ConfCall.keyOf : ConfCall → Option (Text × Text)
  | .str sec key => if sec = [] ∨ key = [] then none else some (sec, key)
  | .bool sec key => if sec = [] ∨ key = [] then none else some (sec, key)
  | _ => none

/-- The section that a call returns. -/
def ConfCall.sectionOf : ConfCall → Option Text
  | .strSection sec => if sec = [] then none else some sec
  | .boolSection sec => if sec = [] then none else some sec
  | _ => none

/-- The first call asks for a key that is not in the configuration, and the second
one for the section of that key. -/
def Spoils (c : Config) (call later : ConfCall) : Prop :=
  ∃ e ∈ call.keyOf, later.sectionOf = some e.1 ∧ c.value e.1 e.2 = none

instance (c : Config) (call later : ConfCall) : Decidable (Spoils c call later) :=
  inferInstanceAs (Decidable (∃ e ∈ call.keyOf, _))

/-! ## What the getters return -/

namespace Config

theorem indexKey_fst (c : Config) (sec key : Text) :
    (c.indexKey sec key).1 = (c.value sec key).getD [] := by
  rw [indexKey, SortedMap.getD, lookup_getD]

theorem value_indexKey (c : Config) (sec key sec' key' : Text) :
    (c.indexKey sec key).2.value sec' key' =
      if sec' = sec ∧ key' = key then some ((c.value sec key).getD []) else c.value sec' key' := by
  rw [indexKey, value_store, SortedMap.getD, lookup_getD]

/-- Indexing a key that is there changes nothing. -/
theorem indexKey_of_value {c : Config} {sec key val : Text} (h : c.value sec key = some val) :
    c.indexKey sec key = (val, c) := by
  obtain ⟨m, hm, hval⟩ := Option.bind_eq_some_iff.mp h
  have hsec : c.conf.getD sec ∅ = m := by rw [SortedMap.getD, hm, Option.getD_some]
  have hkey : m.getD key [] = val := by rw [SortedMap.getD, hval, Option.getD_some]
  rw [indexKey, hsec, hkey, store, hsec, SortedMap.insert_of_lookup hval,
    SortedMap.insert_of_lookup hm]

theorem indexKey_again (c : Config) (sec key : Text) :
    (c.indexKey sec key).2.indexKey sec key = c.indexKey sec key := by
  have hvalue : (c.indexKey sec key).2.value sec key = some (c.indexKey sec key).1 := by
    rw [value_indexKey, if_pos ⟨rfl, rfl⟩, indexKey_fst]
  exact indexKey_of_value hvalue

theorem value_indexSection (c : Config) (sec sec' key : Text) :
    (c.indexSection sec).2.value sec' key = c.value sec' key := by
  simp only [indexSection, value, SortedMap.lookup_insert]
  split_ifs with hsec
  · subst hsec
    exact c.lookup_getD sec' key
  · rfl

theorem isOn_nil : isOn [] = false := by decide

theorem getConfStr_eq (c : Config) (sec key : Text) :
    c.getConfStr sec key =
      if sec = [] ∨ key = [] then ([], c)
      else ((c.value sec key).getD [], (c.indexKey sec key).2) := by
  unfold getConfStr
  split_ifs with hempty
  · rfl
  · dsimp only
    rw [indexKey_again, ← indexKey_fst]
    split_ifs with hval
    · rw [hval]
    · rfl

theorem getConfBool_eq (c : Config) (sec key : Text) :
    c.getConfBool sec key =
      if sec = [] ∨ key = [] then (false, c)
      else (isOn ((c.value sec key).getD []), (c.indexKey sec key).2) := by
  unfold getConfBool
  split_ifs with hempty
  · rfl
  · dsimp only
    rw [indexKey_again, ← indexKey_fst]
    split_ifs with hval
    · rw [hval, isOn_nil]
    · rfl

theorem eq_empty_of_entries {m : SortedMap Text Text} (h : m.entries = []) : m = ∅ := by
  apply SortedMap.ext_mem
  simp [SortedMap.mem_def, h]

theorem getConfStrSection_eq (c : Config) (sec : Text) :
    c.getConfStrSection sec =
      if sec = [] then (∅, c) else (c.conf.getD sec ∅, (c.indexSection sec).2) := by
  unfold getConfStrSection
  split_ifs with hsec
  · rfl
  · have hcopy := SortedMap.insertAll_entries (c.conf.getD sec ∅)
    dsimp only [indexSection]
    split_ifs with hempty
    · rw [eq_empty_of_entries hempty]
    · exact Prod.ext hcopy rfl

/-- The loop of `getConfBool(section)`: every value is the one of the entry. -/
theorem foldl_isOn {c : Config} {sec : Text} {es : List (Text × Text)}
    (h : ∀ e ∈ es, c.value sec e.1 = some e.2) (ret : SortedMap Text Bool) :
    es.foldl (fun s it =>
        ((s.1.insert it.1 (isOn (s.2.indexKey sec it.1).1)), (s.2.indexKey sec it.1).2)) (ret, c) =
      (ret.insertAll (es.map (fun e => (e.1, isOn e.2))), c) := by
  induction es generalizing ret with
  | nil => rfl
  | cons e es ih =>
      rw [List.foldl_cons, indexKey_of_value (h e List.mem_cons_self)]
      exact ih (fun x hx => h x (List.mem_cons_of_mem _ hx)) _

theorem getConfBoolSection_eq (c : Config) (sec : Text) :
    c.getConfBoolSection sec =
      if sec = [] then (∅, c)
      else ((c.conf.getD sec ∅).mapValues isOn, (c.indexSection sec).2) := by
  unfold getConfBoolSection
  split_ifs with hsec
  · rfl
  · have hvalues : ∀ e ∈ (c.conf.getD sec ∅).entries,
        (c.indexSection sec).2.value sec e.1 = some e.2 := by
      intro e he
      rw [value_indexSection, ← lookup_getD]
      exact SortedMap.lookup_eq_some_iff.mpr he
    have hloop := foldl_isOn hvalues ∅
    have hcopy := SortedMap.insertAll_entries ((c.conf.getD sec ∅).mapValues isOn)
    dsimp only
    split_ifs with hempty
    · have hnone : c.conf.getD sec ∅ = ∅ := eq_empty_of_entries hempty
      rw [hnone]
      rfl
    · exact hloop.trans (Prod.ext hcopy rfl)

end Config

/-! ## Sequences of calls -/

section Calls

variable {loaded c : Config}

/-- **What a call leaves behind**: the key that it asks for, with an empty value if
it was not there. -/
theorem ConfCall.run_value (c : Config) (call : ConfCall) (sec key : Text) :
    (call.run c).2.value sec key =
      if call.keyOf = some (sec, key) then some ((c.value sec key).getD []) else c.value sec key := by
  have hindexed : ∀ sec' key', ¬ (sec' = [] ∨ key' = []) →
      (c.indexKey sec' key').2.value sec key =
        if (if sec' = [] ∨ key' = [] then none else some (sec', key')) = some (sec, key)
          then some ((c.value sec key).getD []) else c.value sec key := by
    intro sec' key' hne
    rw [if_neg hne, Config.value_indexKey]
    by_cases hsame : sec = sec' ∧ key = key'
    · obtain ⟨rfl, rfl⟩ := hsame
      rw [if_pos ⟨rfl, rfl⟩, if_pos rfl]
    · rw [if_neg hsame, if_neg (fun heq => hsame (by simpa [eq_comm] using heq))]
  cases call with
  | str sec' key' =>
      simp only [run, keyOf, Config.getConfStr_eq]
      by_cases hne : sec' = [] ∨ key' = []
      · simp [hne]
      · rw [if_neg hne]
        exact hindexed sec' key' hne
  | bool sec' key' =>
      simp only [run, keyOf, Config.getConfBool_eq]
      by_cases hne : sec' = [] ∨ key' = []
      · simp [hne]
      · rw [if_neg hne]
        exact hindexed sec' key' hne
  | strSection sec' =>
      simp only [run, keyOf, Config.getConfStrSection_eq, reduceCtorEq, if_false]
      by_cases hsec : sec' = []
      · rw [if_pos hsec]
      · rw [if_neg hsec]
        exact c.value_indexSection sec' sec key
  | boolSection sec' =>
      simp only [run, keyOf, Config.getConfBoolSection_eq, reduceCtorEq, if_false]
      by_cases hsec : sec' = []
      · rw [if_pos hsec]
      · rw [if_neg hsec]
        exact c.value_indexSection sec' sec key

/-- The configuration behind some calls: as it was loaded, with an empty value for
every key that was asked for and was not there. -/
def Touched (loaded : Config) (calls : List ConfCall) (c : Config) : Prop :=
  ∀ sec key, c.value sec key =
    if loaded.value sec key = none ∧ ∃ call ∈ calls, call.keyOf = some (sec, key) then some []
    else loaded.value sec key

theorem Touched.step {calls : List ConfCall} (h : Touched loaded calls c) (call : ConfCall) :
    Touched loaded (calls ++ [call]) (call.run c).2 := by
  intro sec key
  have hmem : (∃ x ∈ calls ++ [call], x.keyOf = some (sec, key)) ↔
      (∃ x ∈ calls, x.keyOf = some (sec, key)) ∨ call.keyOf = some (sec, key) := by
    simp [or_and_right, exists_or]
  rw [call.run_value, h sec key]
  simp only [hmem]
  cases hval : loaded.value sec key with
  | none =>
      by_cases hcall : call.keyOf = some (sec, key)
      · simp only [hcall, if_true, or_true, and_self]
        split_ifs <;> rfl
      · simp [hcall]
  | some val => simp

theorem Touched.getD_value {calls : List ConfCall} (h : Touched loaded calls c) (sec key : Text) :
    (c.value sec key).getD [] = (loaded.value sec key).getD [] := by
  rw [h sec key]
  split_ifs with htouched
  · rw [htouched.1]
    rfl
  · rfl

/-- Nothing that is missing in the section was asked for. -/
def NoMiss (loaded : Config) (calls : List ConfCall) (sec : Text) : Prop :=
  ∀ call ∈ calls, ∀ key, call.keyOf = some (sec, key) → loaded.value sec key ≠ none

/-- A section has other keys when something that is missing in it was asked for. -/
theorem Touched.noMiss_of_keys {calls : List ConfCall} (h : Touched loaded calls c) {sec : Text}
    (hkeys : ∀ key, (c.value sec key).isSome = (loaded.value sec key).isSome) :
    NoMiss loaded calls sec := by
  intro call hcall key hkey hnone
  have hsome := hkeys key
  rw [h sec key, if_pos ⟨hnone, call, hcall, hkey⟩, hnone] at hsome
  cases hsome

/-- The section is as it was loaded otherwise. -/
theorem Touched.section_eq {calls : List ConfCall} (h : Touched loaded calls c) {sec : Text}
    (hmiss : NoMiss loaded calls sec) : c.conf.getD sec ∅ = loaded.conf.getD sec ∅ := by
  apply SortedMap.ext_mem
  intro e
  rw [← SortedMap.lookup_eq_some_iff (k := e.1), ← SortedMap.lookup_eq_some_iff (k := e.1),
    Config.lookup_getD, Config.lookup_getD, h sec e.1, if_neg]
  rintro ⟨hnone, call, hcall, hkey⟩
  exact hmiss call hcall e.1 hkey hnone

/-- A function of the section that shows its keys. -/
theorem Touched.section_eq_iff {calls : List ConfCall} (h : Touched loaded calls c) (sec : Text)
    {β : Type} (f : Text → β) :
    (c.conf.getD sec ∅).mapValues f = (loaded.conf.getD sec ∅).mapValues f ↔
      NoMiss loaded calls sec := by
  constructor
  · intro heq
    apply h.noMiss_of_keys
    intro key
    have hlook := congrArg (fun m => (SortedMap.lookup m key).isSome) heq
    simpa [SortedMap.lookup_mapValues, Config.lookup_getD] using hlook
  · intro hmiss
    rw [h.section_eq hmiss]

/-- What a call returns, in terms of the values and the sections. -/
def ConfCall.answer (c : Config) : ConfCall → ConfResult
  | .str sec key => .str (if sec = [] ∨ key = [] then [] else (c.value sec key).getD [])
  | .strSection sec => .strSection (if sec = [] then ∅ else (c.conf.getD sec ∅).mapValues id)
  | .bool sec key =>
      .bool (if sec = [] ∨ key = [] then false else Config.isOn ((c.value sec key).getD []))
  | .boolSection sec =>
      .boolSection (if sec = [] then ∅ else (c.conf.getD sec ∅).mapValues Config.isOn)

theorem ConfCall.run_fst (c : Config) (call : ConfCall) : (call.run c).1 = call.answer c := by
  cases call with
  | str sec key =>
      simp only [run, answer, Config.getConfStr_eq]
      split_ifs <;> rfl
  | strSection sec =>
      have hid : (c.conf.getD sec ∅).mapValues id = c.conf.getD sec ∅ := by
        simp [SortedMap.mapValues]
      simp only [run, answer, Config.getConfStrSection_eq, hid]
      split_ifs <;> rfl
  | bool sec key =>
      simp only [run, answer, Config.getConfBool_eq]
      split_ifs <;> rfl
  | boolSection sec =>
      simp only [run, answer, Config.getConfBoolSection_eq]
      split_ifs <;> rfl

theorem spoils_iff_of_sectionOf {calls : List ConfCall} {call : ConfCall} {sec : Text}
    (h : call.sectionOf = some sec) :
    (∀ before ∈ calls, ¬ Spoils loaded before call) ↔ NoMiss loaded calls sec := by
  constructor
  · intro hspoils before hbefore key hkey hnone
    exact hspoils before hbefore ⟨(sec, key), hkey, h, hnone⟩
  · rintro hmiss before hbefore ⟨⟨sec', key⟩, hkey, hsec, hnone⟩
    obtain rfl := Option.some.inj (h.symm.trans hsec)
    exact hmiss before hbefore key hkey hnone

theorem not_spoils_of_sectionOf {call : ConfCall} (h : call.sectionOf = none)
    (before : ConfCall) : ¬ Spoils loaded before call := by
  rintro ⟨e, _, hsec, _⟩
  rw [h] at hsec
  cases hsec

/-- **One call** returns what it would have returned first, unless a call before it
has spoilt it. -/
theorem Touched.run_eq_iff {calls : List ConfCall} (h : Touched loaded calls c) (call : ConfCall) :
    (call.run c).1 = (call.run loaded).1 ↔ ∀ before ∈ calls, ¬ Spoils loaded before call := by
  rw [call.run_fst, call.run_fst]
  cases call with
  | str sec key =>
      simp only [ConfCall.answer, h.getD_value, true_iff]
      exact fun before _ => not_spoils_of_sectionOf rfl before
  | bool sec key =>
      simp only [ConfCall.answer, h.getD_value, true_iff]
      exact fun before _ => not_spoils_of_sectionOf rfl before
  | strSection sec =>
      by_cases hsec : sec = []
      · simp only [ConfCall.answer, hsec, if_true, true_iff]
        exact fun before _ => not_spoils_of_sectionOf (by simp [ConfCall.sectionOf]) before
      · rw [spoils_iff_of_sectionOf (show ConfCall.sectionOf (.strSection sec) = some sec from
          if_neg hsec), ← h.section_eq_iff sec id]
        simp only [ConfCall.answer, if_neg hsec, ConfResult.strSection.injEq]
  | boolSection sec =>
      by_cases hsec : sec = []
      · simp only [ConfCall.answer, hsec, if_true, true_iff]
        exact fun before _ => not_spoils_of_sectionOf (by simp [ConfCall.sectionOf]) before
      · rw [spoils_iff_of_sectionOf (show ConfCall.sectionOf (.boolSection sec) = some sec from
          if_neg hsec), ← h.section_eq_iff sec Config.isOn]
        simp only [ConfCall.answer, if_neg hsec, ConfResult.boolSection.injEq]

/-- The calls behind some others. -/
theorem Touched.results_eq_iff {done : List ConfCall} (h : Touched loaded done c)
    (calls : List ConfCall) :
    confResults c calls = calls.map (fun call => (call.run loaded).1) ↔
      (∀ before ∈ done, ∀ call ∈ calls, ¬ Spoils loaded before call) ∧
        calls.Pairwise (fun before call => ¬ Spoils loaded before call) := by
  induction calls generalizing done c with
  | nil => simp [confResults]
  | cons call calls ih =>
      rw [confResults, List.map_cons, List.cons.injEq, h.run_eq_iff call, ih (h.step call),
        List.pairwise_cons]
      constructor
      · rintro ⟨hcall, hlater, hpairs⟩
        refine ⟨fun before hbefore x hx => ?_, fun x hx => ?_, hpairs⟩
        · rcases List.mem_cons.mp hx with rfl | hx
          · exact hcall before hbefore
          · exact hlater before (List.mem_append_left _ hbefore) x hx
        · exact hlater call (List.mem_append_right _ List.mem_cons_self) x hx
      · rintro ⟨hdone, hcall, hpairs⟩
        refine ⟨fun before hbefore => hdone before hbefore call List.mem_cons_self,
          fun before hbefore x hx => ?_, hpairs⟩
        rcases List.mem_append.mp hbefore with hbefore | hbefore
        · exact hdone before hbefore x (List.mem_cons_of_mem _ hx)
        · rw [List.mem_singleton.mp hbefore]
          exact hcall x hx

end Calls

/-- **Reads do not change the configuration** exactly when no call for a whole
section comes after a call for a key that this section does not have. -/
theorem reads_unchanged_iff (loaded : Config) (calls : List ConfCall) :
    confResults loaded calls = calls.map (fun call => (call.run loaded).1) ↔
      calls.Pairwise (fun before call => ¬ Spoils loaded before call) := by
  have hnone : Touched loaded [] loaded := by
    intro sec key
    simp
  rw [hnone.results_eq_iff calls]
  simp

/-- A configuration with one entry. -/
def oneEntry : Config := Config.new.store ['s'] ['k'] "on".toList

/-- **A read that changes what another one returns.**  Before the key `x` was asked
for, the section has one key; then it has two. -/
theorem miss_changes_section :
    (oneEntry.getConfStrSection ['s']).1.entries = [(['k'], "on".toList)] ∧
      confResults oneEntry [.str ['s'] ['x'], .strSection ['s']] ≠
        [ConfCall.str ['s'] ['x'], .strSection ['s']].map (fun call => (call.run oneEntry).1) := by
  decide +kernel

end KvProxy
