import KvProxy.Config

/-!
# Configuration files

A configuration file as it is written: sections, entries with or without quotes
around the value, empty lines and comments, one per line.  `loadConf` reads back what was written:
each key of each section has the value written last, and nothing else is there.

* `FileLine.confLine_render` — what a written line says is what was meant;
* `load_written` — reading the lines is storing the entries one by one;
* `config_round_trip` — what is stored in the end.
-/

namespace KvProxy

/-- A line of a configuration file.  An entry may have blanks around its `=`, and
behind a value without quotes. -/
inductive FileLine where
  | sectionName (name : Text)
  | entry (key before after value : Text)
  | bareEntry (key before after value behind : Text)
  | blank (text : Text)
  | comment (before text : Text)
  deriving DecidableEq

namespace FileLine

/-- The line as it is written. -/
def render : FileLine → Text
  | .sectionName name => '[' :: name ++ [']']
  | .entry key before after value => key ++ before ++ '=' :: after ++ '"' :: value ++ ['"']
  | .bareEntry key before after value behind => key ++ before ++ '=' :: after ++ value ++ behind
  | .blank text => text
  | .comment before text => before ++ ';' :: text

/-- A text of blanks, on one line. -/
def Blanks (text : Text) : Prop := ∀ c ∈ text, AtMost32 c ∧ c ≠ '\n'

instance (text : Text) : Decidable (Blanks text) := List.decidableBAll _ _

/-- A text of printable characters, without `=`. -/
def Printable (text : Text) : Prop := ∀ c ∈ text, ¬ AtMost32 c ∧ c ≠ '='

instance (text : Text) : Decidable (Printable text) := List.decidableBAll _ _

/-- What a key may be: printable, and not begun like a comment or a section. -/
def KeyOk (key : Text) : Prop :=
  key ≠ [] ∧ Printable key ∧ key.head? ≠ some ';' ∧ key.head? ≠ some '['

instance (key : Text) : Decidable (KeyOk key) := inferInstanceAs (Decidable (_ ∧ _))

/-- A text of printable characters, without quotes. -/
def Bare (text : Text) : Prop := ∀ c ∈ text, ¬ AtMost32 c ∧ c ≠ '"'

instance (text : Text) : Decidable (Bare text) := List.decidableBAll _ _

/-- What a value without quotes around it may be. -/
def BareOk (value : Text) : Prop := value ≠ [] ∧ Bare value

instance (value : Text) : Decidable (BareOk value) := inferInstanceAs (Decidable (_ ∧ _))

/-- The texts of a line. -/
def TextsOk : FileLine → Prop
  | .sectionName name => ']' ∉ name ∧ '\n' ∉ name
  | .entry key before after value =>
      KeyOk key ∧ (Blanks before ∧ '\x00' ∉ before) ∧ Blanks after ∧
        value ≠ [] ∧ '"' ∉ value ∧ '\n' ∉ value
  | .bareEntry key before after value behind =>
      KeyOk key ∧ (Blanks before ∧ '\x00' ∉ before) ∧ Blanks after ∧ BareOk value ∧ Blanks behind
  | .blank text => Blanks text
  | .comment before text => Blanks before ∧ '\n' ∉ text

instance : (l : FileLine) → Decidable l.TextsOk
  | .sectionName _ => inferInstanceAs (Decidable (_ ∧ _))
  | .entry _ _ _ _ => inferInstanceAs (Decidable (_ ∧ _))
  | .bareEntry _ _ _ _ _ => inferInstanceAs (Decidable (_ ∧ _))
  | .blank text => inferInstanceAs (Decidable (Blanks text))
  | .comment _ _ => inferInstanceAs (Decidable (_ ∧ _))

/-- A line that can be written: its texts are right, and it is at most 199 bytes
long. -/
def Ok (l : FileLine) : Prop := l.TextsOk ∧ l.render.length ≤ 199

instance (l : FileLine) : Decidable l.Ok := inferInstanceAs (Decidable (_ ∧ _))

/-- What a line means. -/
def meaning : FileLine → ConfLine
  | .sectionName name => .section name true
  | .entry key _ _ value => .entry key value true
  | .bareEntry key _ _ value _ => .entry key value true
  | _ => .nothing

end FileLine

/-- The file, with a newline behind every line. -/
def fileText (lines : List FileLine) : Text := lines.flatMap (fun l => l.render ++ ['\n'])

/-- The entries of a file in the order in which they are written, each with the
section it stands in. -/
def written : Text → List FileLine → List (Text × Text × Text)
  | _, [] => []
  | _, .sectionName name :: rest => written name rest
  | sec, .entry key _ _ value :: rest => (sec, key, value) :: written sec rest
  | sec, .bareEntry key _ _ value _ :: rest => (sec, key, value) :: written sec rest
  | sec, .blank _ :: rest => written sec rest
  | sec, .comment _ _ :: rest => written sec rest

/-- The value written last for a key of a section. -/
def lastValue (sec key : Text) (entries : List (Text × Text × Text)) : Option Text :=
  ((entries.filter (fun e => e.1 = sec ∧ e.2.1 = key)).getLast?).map (fun e => e.2.2)

/-- The section of the entry named `extension` that is written last outside the
section `kvproxy`. -/
def lastExtension (entries : List (Text × Text × Text)) : Text :=
  (((entries.filter (fun e => e.1 ≠ "kvproxy".toList ∧ e.2.1 = "extension".toList)).getLast?).map
    Prod.fst).getD []

namespace FileLine

/-! ## What a written line says -/

theorem dropWhile_blanks {text : Text} (h : Blanks text) (rest : Text) :
    (text ++ rest).dropWhile (fun c => AtMost32 c) = rest.dropWhile (fun c => AtMost32 c) :=
  List.dropWhile_append_of_pos (fun c hc => by simpa using (h c hc).1)

theorem takeWhile_stop {stop : Char} {text : Text} (h : stop ∉ text) :
    (text ++ [stop]).takeWhile (· ≠ stop) = text := by
  rw [takeWhile_ne h, List.takeWhile_cons_of_neg (by simp), List.append_nil]

theorem confLine_section {name : Text} (h : ']' ∉ name) :
    confLine (render (.sectionName name)) = .section name true := by
  have hline : confLine ('[' :: (name ++ [']'])) =
      .section ((name ++ [']']).takeWhile (· ≠ ']')) (']' ∈ name ++ [']']) := rfl
  rw [takeWhile_stop h] at hline
  exact hline.trans (by simp)

theorem confLine_blank {text : Text} (h : Blanks text) : confLine text = .nothing := by
  have hdrop := dropWhile_blanks h []
  rw [List.append_nil] at hdrop
  rw [confLine, hdrop]
  rfl

theorem confLine_comment {before : Text} (h : Blanks before) (text : Text) :
    confLine (render (.comment before text)) = .nothing := by
  have hblank : ¬ AtMost32 ';' := by decide
  simp [confLine, render, dropWhile_blanks h, hblank]

/-- Blanks in front of a value are left out. -/
theorem confValue_blanks {after : Text} (hafter : Blanks after) (text : Text) :
    confValue (after ++ text) = confValue text := by
  induction after with
  | nil => rfl
  | cons c after ih =>
      rw [List.cons_append, confValue_blank (hafter c List.mem_cons_self).1]
      exact ih (fun x hx => hafter x (List.mem_cons_of_mem _ hx))

theorem confValue_written {after value : Text} (hafter : Blanks after) (hvalue : '"' ∉ value) :
    confValue (after ++ '"' :: value ++ ['"']) = (value, true) := by
  rw [List.append_assoc, confValue_blanks hafter, List.cons_append, confValue_quote,
    takeWhile_stop hvalue]
  simp

theorem confValue_bare {after value behind : Text} (hafter : Blanks after) (hvalue : BareOk value)
    (hbehind : Blanks behind) : confValue (after ++ value ++ behind) = (value, true) := by
  have hchars := hvalue.2
  rw [List.append_assoc, confValue_blanks hafter]
  clear hvalue
  induction value with
  | nil =>
      have hnothing := confValue_blanks hbehind []
      rw [List.append_nil] at hnothing
      rw [List.nil_append, hnothing]
      rfl
  | cons c value ih =>
      obtain ⟨hc, hquote⟩ := hchars c List.mem_cons_self
      rw [List.cons_append, confValue_char hc hquote,
        ih (fun x hx => hchars x (List.mem_cons_of_mem _ hx))]

/-- An entry has the value that is behind its `=`. -/
theorem confLine_valued {key before text value : Text} (hkey : KeyOk key)
    (hbefore : Blanks before) (hzero : '\x00' ∉ before) (hvalue : confValue text = (value, true)) :
    confLine (key ++ before ++ '=' :: text) = .entry key value true := by
  obtain ⟨hne, hchars, hcomment, hsection⟩ := hkey
  obtain ⟨first, key, rfl⟩ := List.exists_cons_of_ne_nil hne
  have hfirst := hchars first List.mem_cons_self
  have hin : ∀ c ∈ key ++ before, inKey c = true := by
    intro c hc
    rcases List.mem_append.mp hc with hc | hc
    · have hok := hchars c (List.mem_cons_of_mem _ hc)
      have hne : c ≠ '\x00' := fun heq => hok.1 (heq ▸ by decide)
      simp [inKey, hok.2, hne]
    · have hne : c ≠ '\x00' := fun heq => hzero (heq ▸ hc)
      have heq : c ≠ '=' := fun heq => absurd (hbefore c hc).1 (heq ▸ by decide)
      simp [inKey, heq, hne]
  have hvisible : visible (key ++ before) = key := by
    rw [visible, List.filter_append, List.filter_eq_self.mpr, List.filter_eq_nil_iff.mpr,
      List.append_nil]
    · intro c hc
      simpa using (hbefore c hc).1
    · intro c hc
      simpa using (hchars c (List.mem_cons_of_mem _ hc)).1
  have hbehind : valueBehind (key ++ before ++ '=' :: text) = confValue text := by
    rw [valueBehind, List.dropWhile_append_of_pos hin]
    rfl
  have hkey : (key ++ before ++ '=' :: text).takeWhile inKey = key ++ before := by
    rw [List.takeWhile_append_of_pos hin, List.takeWhile_cons_of_neg (by decide), List.append_nil]
  rw [List.cons_append, List.cons_append, confLine,
    List.dropWhile_cons_of_neg (by simpa using hfirst.1)]
  dsimp only
  rw [if_neg (fun heq => hcomment (by simp [heq])), if_neg (fun heq => hsection (by simp [heq])),
    hkey, hvisible, hbehind, hvalue]

/-- **A written line says what was meant.** -/
theorem confLine_render {l : FileLine} (h : l.TextsOk) : confLine l.render = l.meaning := by
  cases l with
  | sectionName name => exact confLine_section h.1
  | entry key before after value =>
      obtain ⟨hkey, ⟨hbefore, hzero⟩, hafter, _, hvalue, _⟩ := h
      have hline := confLine_valued hkey hbefore hzero (confValue_written hafter hvalue)
      simpa [render, meaning] using hline
  | bareEntry key before after value behind =>
      obtain ⟨hkey, ⟨hbefore, hzero⟩, hafter, hvalue, hbehind⟩ := h
      have hline := confLine_valued hkey hbefore hzero (confValue_bare hafter hvalue hbehind)
      simpa [render, meaning] using hline
  | blank text => exact confLine_blank h
  | comment before text => exact confLine_comment h.1 text

theorem Blanks.no_newline {text : Text} (h : Blanks text) : '\n' ∉ text :=
  fun hmem => (h '\n' hmem).2 rfl

/-- It is one line. -/
theorem render_no_newline {l : FileLine} (h : l.TextsOk) : '\n' ∉ l.render := by
  cases l with
  | sectionName name => simpa [render] using h.2
  | entry key before after value =>
      obtain ⟨⟨_, hchars, _⟩, ⟨hbefore, _⟩, hafter, _, _, hvalue⟩ := h
      have hkey : '\n' ∉ key := fun hmem => (hchars '\n' hmem).1 (by decide)
      simp [render, hkey, hbefore.no_newline, hafter.no_newline, hvalue]
  | bareEntry key before after value behind =>
      obtain ⟨⟨_, hchars, _⟩, ⟨hbefore, _⟩, hafter, ⟨_, hbare⟩, hbehind⟩ := h
      have hkey : '\n' ∉ key := fun hmem => (hchars '\n' hmem).1 (by decide)
      have hvalue : '\n' ∉ value := fun hmem => (hbare '\n' hmem).1 (by decide)
      simp [render, hkey, hbefore.no_newline, hafter.no_newline, hvalue, hbehind.no_newline]
  | blank text => exact h.no_newline
  | comment before text => simpa [render] using ⟨h.1.no_newline, h.2⟩

end FileLine

/-! ## Reading a file -/

/-- What an entry leaves behind. -/
def Config.addEntry (c : Config) (e : Text × Text × Text) : Config :=
  { c.store e.1 e.2.1 e.2.2 with
    extName := if e.1 ≠ "kvproxy".toList ∧ e.2.1 = "extension".toList then e.1 else c.extName }

/-- A line with an entry stores it. -/
theorem loadLine_entry {sec key value line : Text} (c : Config) (hkey : key ≠ [])
    (hvalue : value ≠ []) (h : (scanText sec line).texts = (sec, key, value)) :
    loadLine (sec, c) line = (sec, c.addEntry (sec, key, value)) := by
  obtain ⟨hsec, hkey', hval⟩ : (scanText sec line).curSec = sec ∧
      (scanText sec line).curKey = key ∧ (scanText sec line).curVal = value := by
    simpa [LineScan.texts] using h
  simp only [loadLine, Config.take, hsec, hkey', hval, hkey, hvalue, ne_eq, not_false_eq_true,
    and_self, if_true]
  by_cases hext : sec ≠ "kvproxy".toList ∧ key = "extension".toList
  · rw [if_pos hext, Config.addEntry, if_pos hext]
  · rw [if_neg hext, Config.addEntry, if_neg hext]
    rfl

/-- **Reading the lines of a file is storing its entries**, one after the other. -/
theorem load_written {lines : List FileLine} (h : ∀ l ∈ lines, l.TextsOk) (sec : Text)
    (c : Config) :
    ((lines.map FileLine.render).foldl loadLine (sec, c)).2 =
      (written sec lines).foldl Config.addEntry c := by
  induction lines generalizing sec c with
  | nil => rfl
  | cons l lines ih =>
      have hl := h l List.mem_cons_self
      have hrest := ih (fun x hx => h x (List.mem_cons_of_mem _ hx))
      have hmeans := FileLine.confLine_render hl
      obtain ⟨hname, hentry, hnothing⟩ := scanText_closed sec l.render
      rw [List.map_cons, List.foldl_cons]
      cases l with
      | sectionName name =>
          rw [loadLine_of_no_key c (hname hmeans)]
          exact hrest name c
      | entry key before after value =>
          rw [loadLine_entry c hl.1.1 hl.2.2.2.1 (hentry hmeans)]
          exact hrest sec _
      | bareEntry key before after value behind =>
          rw [loadLine_entry c hl.1.1 hl.2.2.2.1.1 (hentry hmeans)]
          exact hrest sec _
      | blank text =>
          rw [loadLine_of_no_key c (hnothing hmeans)]
          exact hrest sec c
      | comment before text =>
          rw [loadLine_of_no_key c (hnothing hmeans)]
          exact hrest sec c

/-- The lines of a written file, and the empty one at its end. -/
theorem fileLines_fileText {lines : List FileLine} (h : ∀ l ∈ lines, l.TextsOk) :
    fileLines (fileText lines) = lines.map FileLine.render ++ [[]] := by
  induction lines with
  | nil => rfl
  | cons l lines ih =>
      have hl := FileLine.render_no_newline (h l List.mem_cons_self)
      have htext : fileText (l :: lines) = l.render ++ '\n' :: fileText lines := by
        simp [fileText]
      rw [htext, fileLines_line hl, ih (fun x hx => h x (List.mem_cons_of_mem _ hx))]
      rfl

/-- A written file is accepted, and its entries are stored one by one. -/
theorem loadConf_fileText {lines : List FileLine} (h : ∀ l ∈ lines, l.Ok) :
    loadConf (fileText lines) = some ((written [] lines).foldl Config.addEntry .new) := by
  have htexts : ∀ l ∈ lines, l.TextsOk := fun l hl => (h l hl).1
  have hfit : ∀ line ∈ lines.map FileLine.render ++ [[]], Fits line := by
    intro line hline
    rcases List.mem_append.mp hline with hline | hline
    · obtain ⟨l, hl, rfl⟩ := List.mem_map.mp hline
      exact Nat.lt_succ_of_le (h l hl).2
    · rw [List.mem_singleton.mp hline]
      decide
  have hlast : ∀ s : Text × Config, (loadLine s []).2 = s.2 := by
    intro s
    rw [loadLine_of_no_key s.2 ((scanText_closed s.1 []).2.2 rfl)]
  rw [loadConf_eq, fileLines_fileText htexts, if_pos hfit, List.foldl_append, List.foldl_cons,
    List.foldl_nil, hlast, load_written htexts]

/-! ## What is stored in the end -/

theorem Config.value_addEntry (c : Config) (e : Text × Text × Text) (sec key : Text) :
    (c.addEntry e).value sec key =
      if sec = e.1 ∧ key = e.2.1 then some e.2.2 else c.value sec key :=
  c.value_store e.1 e.2.1 e.2.2 sec key

theorem Config.isSome_addEntry (c : Config) (e : Text × Text × Text) (sec : Text) :
    ((c.addEntry e).conf.lookup sec).isSome ↔ sec = e.1 ∨ (c.conf.lookup sec).isSome := by
  have hconf : (c.addEntry e).conf.lookup sec =
      (c.conf.insert e.1 ((c.conf.getD e.1 ∅).insert e.2.1 e.2.2)).lookup sec := rfl
  rw [hconf, SortedMap.lookup_insert]
  split_ifs with he
  · simp [he]
  · simp [he]

/-- The filtered list behind one more entry: it is its last member, or there is no
change. -/
theorem getLast?_filter_concat {α : Type} (p : α → Bool) (xs : List α) (x : α) :
    ((xs ++ [x]).filter p).getLast? = if p x then some x else (xs.filter p).getLast? := by
  by_cases hx : p x = true
  · simp [List.filter_append, hx]
  · simp [List.filter_append, hx]

/-- **Every key has the value written last.** -/
theorem stored_value (entries : List (Text × Text × Text)) (sec key : Text) :
    (entries.foldl Config.addEntry .new).value sec key = lastValue sec key entries := by
  induction entries using List.reverseRecOn with
  | nil => rfl
  | append_singleton entries e ih =>
      rw [List.foldl_append, List.foldl_cons, List.foldl_nil, Config.value_addEntry, ih, lastValue,
        lastValue, getLast?_filter_concat]
      by_cases he : sec = e.1 ∧ key = e.2.1
      · simp [he]
      · rw [if_neg he, if_neg (by simpa using fun h1 h2 => he ⟨h1.symm, h2.symm⟩)]

/-- Only sections with an entry are there. -/
theorem stored_section (entries : List (Text × Text × Text)) (sec : Text) :
    ((entries.foldl Config.addEntry .new).conf.lookup sec).isSome ↔
      ∃ e ∈ entries, e.1 = sec := by
  induction entries using List.reverseRecOn with
  | nil => simp [Config.new]
  | append_singleton entries e ih =>
      rw [List.foldl_append, List.foldl_cons, List.foldl_nil, Config.isSome_addEntry, ih]
      constructor
      · rintro (rfl | ⟨x, hx, rfl⟩)
        · exact ⟨e, List.mem_append_right _ List.mem_cons_self, rfl⟩
        · exact ⟨x, List.mem_append_left _ hx, rfl⟩
      · rintro ⟨x, hx, rfl⟩
        rcases List.mem_append.mp hx with hx | hx
        · exact Or.inr ⟨x, hx, rfl⟩
        · exact Or.inl (by rw [List.mem_singleton.mp hx])

/-- The extension is set by the last entry that sets it. -/
theorem stored_extension (entries : List (Text × Text × Text)) :
    (entries.foldl Config.addEntry .new).extName = lastExtension entries := by
  induction entries using List.reverseRecOn with
  | nil => rfl
  | append_singleton entries e ih =>
      rw [List.foldl_append, List.foldl_cons, List.foldl_nil, Config.addEntry, ih, lastExtension,
        lastExtension, getLast?_filter_concat]
      dsimp only
      by_cases he : e.1 ≠ "kvproxy".toList ∧ e.2.1 = "extension".toList
      · rw [if_pos he, if_pos (decide_eq_true he)]
        rfl
      · rw [if_neg he, if_neg (fun h => he (of_decide_eq_true h))]

/-- **Round trip.**  A file of sections, entries, empty lines and comments, each
line at most 199 bytes long, is accepted; every key of every section has the
value written last, no other section is there, and the extension is the section
of the last entry of that name outside `kvproxy`. -/
theorem config_round_trip (lines : List FileLine) (hok : ∀ l ∈ lines, l.Ok) :
    ∃ c, loadConf (fileText lines) = some c ∧
      (∀ sec key, c.value sec key = lastValue sec key (written [] lines)) ∧
      (∀ sec, (c.conf.lookup sec).isSome ↔ ∃ e ∈ written [] lines, e.1 = sec) ∧
      c.extName = lastExtension (written [] lines) :=
  ⟨_, loadConf_fileText hok, stored_value _, stored_section _, stored_extension _⟩

/-- A key that is written twice, a comment, blanks and a value with a semicolon. -/
def sampleFile : List FileLine :=
  [.comment [' '] "ports".toList, .sectionName "kvproxy".toList,
    .entry "port".toList [] [' '] "80".toList, .blank [],
    .sectionName "memcached".toList, .entry "extension".toList [' '] [' '] "a; b.so".toList,
    .sectionName "kvproxy".toList, .entry "port".toList [] [] "81".toList]

/-- It is read back: the second port, and the extension. -/
theorem sample_file_read :
    ∃ c, loadConf (fileText sampleFile) = some c ∧
      c.value "kvproxy".toList "port".toList = some "81".toList ∧
      c.value "memcached".toList "extension".toList = some "a; b.so".toList ∧
      c.extName = "memcached".toList := by
  obtain ⟨c, hload, hvalue, _, hext⟩ := config_round_trip sampleFile (by decide +kernel)
  refine ⟨c, hload, ?_, ?_, ?_⟩
  · rw [hvalue]
    decide +kernel
  · rw [hvalue]
    decide +kernel
  · rw [hext]
    decide +kernel

end KvProxy
