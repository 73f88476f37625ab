import KvProxy.Config

/-!
# The padding of the line buffer

The loop over the line runs to the end of the buffer, not of the line.  Whether
the zeros behind the line are stored depends on where the scan is when the line
ends: they belong to a section that is not closed by `]`, and to a quoted value
that is not closed by a second quote.

* `loadConf_scans` — what `loadConf` takes are the scans of the cells, read as
  characters;
* `confLine_sublists` — the texts of a line are subsequences of it, whatever the
  line is;
* `invents_nothing_iff` — when nothing but characters of the file is stored.
-/

namespace KvProxy

open scoped List

/-- The scans of the lines of a file, one after the other. -/
def cellScans : List (Option Char) → List Text → List (LineScan (Option Char))
  | _, [] => []
  | sec, line :: rest => scanCells sec line :: cellScans (scanCells sec line).curSec rest

/-- The texts that are stored behind a scan: section, key and value of an entry,
and the name of the extension. -/
def storedTexts (t : List (Option Char) × List (Option Char) × List (Option Char)) :
    List (List (Option Char)) :=
  (if t.2.1 ≠ [] ∧ t.2.2 ≠ [] then [t.1, t.2.1, t.2.2] else []) ++
    (if t.1.map cellChar ≠ "kvproxy".toList ∧ t.2.1.map cellChar = "extension".toList
      then [t.1] else [])

/-- All texts that are stored while a file is read. -/
def storedCells (file : Text) : List (List (Option Char)) :=
  (cellScans [] (fileLines file)).flatMap (fun s => storedTexts s.texts)

/-- Every stored text is a subsequence of the characters of a line of the file, and
no cell of the padding is stored. -/
structure InventsNothing (file : Text) : Prop where
  characters : ∀ text ∈ storedCells file, ∃ line ∈ fileLines file, text.map cellChar <+ line
  noPadding : ∀ text ∈ storedCells file, none ∉ text

/-- Every quoted value is closed; and so is the section of every entry that has a
value or names the extension.  `closed` tells whether the section in force is. -/
def AllClosed : Bool → List Text → Prop
  | _, [] => True
  | closed, line :: rest =>
      match confLine line with
      | .nothing => AllClosed closed rest
      | .section _ closed' => AllClosed closed' rest
      | .entry key value quoted =>
          quoted = true ∧ (closed = true ∨ (value = [] ∧ key ≠ "extension".toList)) ∧
            AllClosed closed rest

/-! ## The scans of a file -/

/-- **`loadConf` takes the scans of the cells**, read as characters. -/
theorem foldl_loadLine_eq (lines : List Text) (sec : List (Option Char)) (c : Config) :
    (lines.foldl loadLine (sec.map cellChar, c)).2 =
      (cellScans sec lines).foldl (fun c s => c.take (s.map cellChar)) c := by
  induction lines generalizing sec c with
  | nil => rfl
  | cons line lines ih =>
      have hline : loadLine (sec.map cellChar, c) line =
          ((scanCells sec line).curSec.map cellChar, c.take ((scanCells sec line).map cellChar)) := by
        simp only [loadLine, scanText_eq_map]
        rfl
      rw [List.foldl_cons, hline, ih]
      rfl

theorem loadConf_scans {file : Text} {c : Config} (h : loadConf file = some c) :
    (∀ line ∈ fileLines file, Fits line) ∧
      c = (cellScans [] (fileLines file)).foldl (fun c s => c.take (s.map cellChar)) .new := by
  rw [loadConf_eq] at h
  split_ifs at h with hfits
  refine ⟨hfits, ?_⟩
  rw [← foldl_loadLine_eq]
  exact (Option.some.inj h).symm

/-! ## The texts of a line -/

theorem visible_sublist (text : Text) : visible text <+ text := List.filter_sublist

theorem confValue_sublist (text : Text) : (confValue text).1 <+ text := by
  unfold confValue
  split
  · exact visible_sublist text
  next c quoted hdrop =>
    have hsplit : text = text.takeWhile (· ≠ '"') ++ c :: quoted := by
      rw [← hdrop, List.takeWhile_append_dropWhile]
    calc visible (text.takeWhile (· ≠ '"')) ++ quoted.takeWhile (· ≠ '"')
        <+ text.takeWhile (· ≠ '"') ++ c :: quoted :=
          (visible_sublist _).append ((List.takeWhile_sublist _).trans (List.sublist_cons_self _ _))
      _ = text := hsplit.symm

theorem valueBehind_sublist (text : Text) : (valueBehind text).1 <+ text := by
  unfold valueBehind
  split
  · exact List.nil_sublist _
  next c rest hdrop =>
    split_ifs
    · exact ((confValue_sublist rest).trans (List.sublist_cons_self c rest)).trans
        (hdrop ▸ List.dropWhile_sublist _)
    · exact List.nil_sublist _

/-- **The texts of a line are subsequences of it**, and a key is not empty. -/
theorem confLine_sublists (line : Text) :
    (∀ name closed, confLine line = .section name closed → name <+ line) ∧
      ∀ key value closed, confLine line = .entry key value closed →
        key <+ line ∧ value <+ line ∧ key ≠ [] := by
  unfold confLine
  split
  · exact ⟨fun _ _ h => (by cases h), fun _ _ _ h => (by cases h)⟩
  next first rest hdrop =>
    have hrest : first :: rest <+ line := hdrop ▸ List.dropWhile_sublist _
    split_ifs
    · exact ⟨fun _ _ h => (by cases h), fun _ _ _ h => (by cases h)⟩
    · refine ⟨?_, fun _ _ _ h => (by cases h)⟩
      rintro name closed ⟨⟩
      exact ((List.takeWhile_sublist _).trans (List.sublist_cons_self first rest)).trans hrest
    · refine ⟨fun _ _ h => (by cases h), ?_⟩
      rintro key value closed ⟨⟩
      refine ⟨?_, ?_, List.cons_ne_nil _ _⟩
      · exact (((visible_sublist _).trans (List.takeWhile_sublist _)).cons_cons first).trans hrest
      · exact ((valueBehind_sublist rest).trans (List.sublist_cons_self first rest)).trans hrest

/-! ## What is stored -/

/-- The text is a subsequence of a line of the file, cell by cell. -/
def FromLine (lines : List Text) (text : List (Option Char)) : Prop :=
  ∃ line ∈ lines, text <+ line.map some

theorem FromLine.none_not_mem {lines : List Text} {text : List (Option Char)}
    (h : FromLine lines text) : none ∉ text := by
  obtain ⟨line, _, hsub⟩ := h
  intro hmem
  simpa using hsub.subset hmem

theorem FromLine.characters {lines : List Text} {text : List (Option Char)}
    (h : FromLine lines text) : ∃ line ∈ lines, text.map cellChar <+ line := by
  obtain ⟨line, hline, hsub⟩ := h
  refine ⟨line, hline, ?_⟩
  have hchars := hsub.map cellChar
  rwa [map_cellChar_some] at hchars

/-- One line, with everything closed: what it stores comes from the file. -/
theorem storedTexts_fromLine {lines : List Text} {line : Text} (hline : line ∈ lines)
    {sec : List (Option Char)} {closed : Bool} (hsec : closed = true → FromLine lines sec)
    {key value : Text} (hentry : confLine line = .entry key value true)
    (hstored : closed = true ∨ (value = [] ∧ key ≠ "extension".toList)) :
    ∀ text ∈ storedTexts (sec, key.map some, value.map some), FromLine lines text := by
  obtain ⟨hkey, hvalue, _⟩ := (confLine_sublists line).2 key value true hentry
  intro text htext
  rcases List.mem_append.mp htext with htext | htext
  · split_ifs at htext with hne
    · have hclosed : closed = true := by
        refine hstored.resolve_right (fun h => hne.2 ?_)
        rw [h.1]
        rfl
      rcases List.mem_cons.mp htext with rfl | htext
      · exact hsec hclosed
      · rcases List.mem_cons.mp htext with rfl | htext
        · exact ⟨line, hline, hkey.map some⟩
        · rw [List.mem_singleton.mp htext]
          exact ⟨line, hline, hvalue.map some⟩
    · exact absurd htext List.not_mem_nil
  · split_ifs at htext with hext
    · have hclosed : closed = true := by
        refine hstored.resolve_right (fun h => h.2 ?_)
        have hname := hext.2
        rwa [map_cellChar_some] at hname
      rw [List.mem_singleton.mp htext]
      exact hsec hclosed
    · exact absurd htext List.not_mem_nil

/-- Nothing is stored for a line without a key. -/
theorem storedTexts_no_key (sec : List (Option Char)) : storedTexts (sec, [], []) = [] := by
  simp [storedTexts]

theorem scanCells_curSec (sec : List (Option Char)) (line : Text) :
    (scanCells sec line).curSec = ((confLine line).texts (lineSize - line.length) sec).1 :=
  congrArg Prod.fst (scanCells_texts sec line)

/-- **Everything closed**: all that is stored comes from the lines. -/
theorem fromLine_of_allClosed {file : List Text} {lines : List Text} (hlines : ∀ l ∈ lines, l ∈ file)
    {closed : Bool} {sec : List (Option Char)} (hsec : closed = true → FromLine file sec)
    (h : AllClosed closed lines) :
    ∀ s ∈ cellScans sec lines, ∀ text ∈ storedTexts s.texts, FromLine file text := by
  induction lines generalizing closed sec with
  | nil => exact fun s hs => absurd hs List.not_mem_nil
  | cons line lines ih =>
      have hline := hlines line List.mem_cons_self
      have hrest := fun l hl => hlines l (List.mem_cons_of_mem _ hl)
      intro s hs
      rw [cellScans, scanCells_curSec] at hs
      rw [AllClosed] at h
      cases hmeans : confLine line with
      | nothing =>
          simp only [hmeans] at h hs
          rcases List.mem_cons.mp hs with rfl | hs
          · rw [scanCells_texts, hmeans, ConfLine.texts, storedTexts_no_key]
            exact fun text htext => absurd htext List.not_mem_nil
          · exact ih hrest hsec h s hs
      | «section» name closed' =>
          simp only [hmeans] at h hs
          rcases List.mem_cons.mp hs with rfl | hs
          · rw [scanCells_texts, hmeans, ConfLine.texts, storedTexts_no_key]
            exact fun text htext => absurd htext List.not_mem_nil
          · refine ih hrest (fun hclosed => ⟨line, hline, ?_⟩) h s hs
            rw [ConfLine.texts, hclosed, padding, if_pos rfl, List.append_nil]
            exact ((confLine_sublists line).1 name closed' hmeans).map some
      | entry key value quoted =>
          simp only [hmeans] at h hs
          obtain ⟨rfl, hstored, h⟩ := h
          rcases List.mem_cons.mp hs with rfl | hs
          · rw [scanCells_texts, hmeans, ConfLine.texts, padding, if_pos rfl, List.append_nil]
            exact storedTexts_fromLine hline hsec hmeans hstored
          · exact ih hrest hsec h s hs

/-- An entry with a value is stored. -/
theorem mem_storedTexts_entry {sec key val : List (Option Char)} (hkey : key ≠ []) (hval : val ≠ []) :
    sec ∈ storedTexts (sec, key, val) ∧ val ∈ storedTexts (sec, key, val) := by
  rw [storedTexts, if_pos ⟨hkey, hval⟩]
  exact ⟨List.mem_append_left _ (by simp), List.mem_append_left _ (by simp)⟩

/-- The extension is stored with its section, whatever its value; a section with
padding is not `kvproxy`. -/
theorem mem_storedTexts_extension {sec : List (Option Char)} (hpad : none ∈ sec)
    (val : List (Option Char)) : sec ∈ storedTexts (sec, "extension".toList.map some, val) := by
  have hzero : '\x00' ∈ sec.map cellChar := List.mem_map.mpr ⟨none, hpad, rfl⟩
  have hname : sec.map cellChar ≠ "kvproxy".toList := by
    intro heq
    rw [heq] at hzero
    revert hzero
    decide
  refine List.mem_append_right _ ?_
  rw [if_pos ⟨hname, map_cellChar_some _⟩]
  exact List.mem_singleton_self sec

/-- **Something not closed**: a cell of the padding is stored. -/
theorem allClosed_of_noPadding {lines : List Text} (hfits : ∀ l ∈ lines, Fits l) {closed : Bool}
    {sec : List (Option Char)} (hsec : closed = false → none ∈ sec)
    (h : ∀ s ∈ cellScans sec lines, ∀ text ∈ storedTexts s.texts, none ∉ text) :
    AllClosed closed lines := by
  induction lines generalizing closed sec with
  | nil => trivial
  | cons line lines ih =>
      have hpad : 0 < lineSize - line.length := Nat.sub_pos_of_lt (hfits line List.mem_cons_self)
      have hpadding : none ∈ padding false (lineSize - line.length) := by
        rw [padding, if_neg (by decide)]
        exact List.mem_replicate.mpr ⟨Nat.pos_iff_ne_zero.mp hpad, rfl⟩
      have hrest := fun l hl => hfits l (List.mem_cons_of_mem _ hl)
      have hfirst := h _ List.mem_cons_self
      have hmore := fun s hs => h s (List.mem_cons_of_mem _ hs)
      rw [scanCells_texts] at hfirst
      rw [scanCells_curSec] at hmore
      rw [AllClosed]
      cases hmeans : confLine line with
      | nothing =>
          simp only [hmeans] at hmore ⊢
          exact ih hrest hsec hmore
      | «section» name closed' =>
          simp only [hmeans] at hmore ⊢
          refine ih hrest (fun hopen => ?_) hmore
          subst hopen
          exact List.mem_append_right _ hpadding
      | entry key value quoted =>
          simp only [hmeans] at hfirst hmore ⊢
          have hkey : key.map some ≠ [] := by
            simpa using ((confLine_sublists line).2 key value quoted hmeans).2.2
          have hquoted : quoted = true := by
            refine Bool.eq_true_of_not_eq_false (fun hopen => ?_)
            subst hopen
            have hval := List.mem_append_right (value.map some) hpadding
            exact hfirst _ (mem_storedTexts_entry hkey (List.ne_nil_of_mem hval)).2 hval
          refine ⟨hquoted, ?_, ih hrest hsec hmore⟩
          by_cases hclosed : closed = true
          · exact Or.inl hclosed
          · have hsec := hsec (Bool.eq_false_of_not_eq_true hclosed)
            refine Or.inr ⟨?_, ?_⟩
            · by_contra hvalue
              refine hfirst _ (mem_storedTexts_entry hkey ?_).1 hsec
              simp [hvalue]
            · rintro rfl
              exact hfirst _ (mem_storedTexts_extension hsec _) hsec

/-- **The parser invents no characters** exactly when every quoted value of the
file is closed on its line, and so is the section of every entry that has a value
or names the extension. -/
theorem invents_nothing_iff {file : Text} {c : Config} (h : loadConf file = some c) :
    c = (cellScans [] (fileLines file)).foldl (fun c s => c.take (s.map cellChar)) .new ∧
      (InventsNothing file ↔ AllClosed true (fileLines file)) := by
  obtain ⟨hfits, hc⟩ := loadConf_scans h
  refine ⟨hc, fun hnothing => ?_, fun hclosed => ?_⟩
  · have hscans : ∀ s ∈ cellScans [] (fileLines file), ∀ text ∈ storedTexts s.texts,
        none ∉ text :=
      fun s hs text htext => hnothing.noPadding text (List.mem_flatMap.mpr ⟨s, hs, htext⟩)
    exact allClosed_of_noPadding hfits (fun hopen => by cases hopen) hscans
  · obtain ⟨first, hfirst⟩ := List.exists_mem_of_ne_nil _ (List.splitOn_ne_nil '\n' file)
    have hall : ∀ text ∈ storedCells file, FromLine (fileLines file) text := by
      intro text htext
      obtain ⟨s, hs, htext⟩ := List.mem_flatMap.mp htext
      exact fromLine_of_allClosed (fun _ hl => hl)
        (fun _ => ⟨first, hfirst, List.nil_sublist _⟩) hclosed s hs text htext
    exact ⟨fun text htext => (hall text htext).characters,
      fun text htext => (hall text htext).none_not_mem⟩

instance decidableAllClosed : (closed : Bool) → (lines : List Text) →
    Decidable (AllClosed closed lines)
  | _, [] => isTrue trivial
  | closed, line :: rest => by
      have := fun closed' => decidableAllClosed closed' rest
      unfold AllClosed
      cases confLine line <;> infer_instance

/-- A file with a section and a quoted value, both closed. -/
def closedFile : Text := "[s]\nk = \"v w\"\n".toList

/-- Nothing is invented there. -/
theorem closed_file_invents_nothing : ∃ c, loadConf closedFile = some c ∧ InventsNothing closedFile := by
  obtain ⟨c, hc⟩ := Option.isSome_iff_exists.mp
    (show (loadConf closedFile).isSome = true by decide +kernel)
  exact ⟨c, hc, (invents_nothing_iff hc).2.mpr (by decide +kernel)⟩

/-- A file whose only value is not closed. -/
def openFile : Text := "[s]\nk=\"v\n".toList

/-- **The padding is stored.**  The value is followed by 196 zero bytes that are
nowhere in the file. -/
theorem padding_stored :
    ((loadConf openFile).bind (fun c => c.value ['s'] ['k'])) =
        some ('v' :: List.replicate 196 '\x00') ∧
      (∀ line ∈ fileLines openFile, ¬ 'v' :: List.replicate 196 '\x00' <+ line) ∧
      ¬ InventsNothing openFile := by
  refine ⟨by decide +kernel, by decide +kernel, fun h => ?_⟩
  exact h.noPadding (some 'v' :: List.replicate 196 none) (by decide +kernel) (by decide +kernel)

end KvProxy
