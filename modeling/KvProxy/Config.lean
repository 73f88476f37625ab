import Mathlib.Data.List.Basic
import KvProxy.Lib.Loop
import KvProxy.ConsistentHash

/-!
# The configuration file

`Config` of `config.cpp`.  `loadConf` reads the file line by line into a buffer
of 200 bytes that it has filled with zeros, and goes over the whole buffer with
a scan of four states.  The section is kept from line to line, the key and the
value are not.  A line that does not fit into the buffer makes the process exit.

The scan is written over cells of any type that hold a character: the buffer has
characters for cells, and cells that know whether they come from the line or
from the padding are scanned by the same code (`scanLine_map`).

A character stands for a byte, and `char` is signed: a byte from 128 on is below
every printable character.

* `loadLoop_eq`, `loadConf_eq` — the file is accepted when every line fits, and
  then it is read as the list of its lines;
* `scanLine_cells` — what the scan makes of a line and the padding behind it, for
  every line (`confLine`).
-/

namespace KvProxy

/-- The states of the scan, `PARSE_INIT` and so on. -/
inductive ParseState where
  | init
  | section
  | key
  | value
  deriving DecidableEq

/-- `line[i] <= 32`. -/
def AtMost32 (c : Char) : Prop := c.toNat ≤ 32 ∨ 128 ≤ c.toNat

instance (c : Char) : Decidable (AtMost32 c) := inferInstanceAs (Decidable (_ ∨ _))

/-- The variables of `loadConf` that the scan of a line works on. -/
structure LineScan (α : Type) where
  process : ParseState
  valQuote : Bool
  curSec : List α
  curKey : List α
  curVal : List α
  deriving DecidableEq

/-- The variables at the start of a line. -/
def LineScan.start {α : Type} (curSec : List α) : LineScan α where
  process := .init
  valQuote := false
  curSec := curSec
  curKey := []
  curVal := []

section Scan

variable {α : Type} (char : α → Char)

/-- The body of the loop over the buffer, and whether it breaks. -/
def scanCell (s : LineScan α) (c : α) : Bool × LineScan α :=
  if s.process = .init ∧ char c = ';' then (true, s)
  else if s.process = .init ∧ AtMost32 (char c) then (false, s)
  else if s.process = .init ∧ char c = '[' then
    (false, { s with process := .section, curSec := [] })
  else if s.process = .section ∧ char c = ']' then (true, s)
  else if s.process = .section then (false, { s with curSec := s.curSec ++ [c] })
  else if s.process = .init ∧ ¬ AtMost32 (char c) then
    (false, { s with process := .key, curKey := [c] })
  else if s.process = .key ∧ char c = '=' then (false, { s with process := .value })
  else if s.process = .key ∧ ¬ AtMost32 (char c) then
    (false, { s with curKey := s.curKey ++ [c] })
  else if s.process = .value ∧ AtMost32 (char c) ∧ s.valQuote = false then (false, s)
  else if s.process = .value ∧ char c = '"' ∧ s.valQuote = false then
    (false, { s with valQuote := true })
  else if s.process = .value ∧ char c = '"' ∧ s.valQuote = true then (true, s)
  else if s.process = .value then (false, { s with curVal := s.curVal ++ [c] })
  else if char c = '\x00' then (true, s)
  else (false, s)

/-- The loop over the buffer. -/
def scanLine : List α → LineScan α → LineScan α
  | [], s => s
  | c :: rest, s => if (scanCell char s c).1 then (scanCell char s c).2
      else scanLine rest (scanCell char s c).2

end Scan

/-- `sizeof(line)`. -/
def lineSize : Nat := 200

/-- The buffer with a line in it. -/
def lineBuffer (line : Text) : Text := line ++ List.replicate (lineSize - line.length) '\x00'

/-- `conf` and `ext_name`. -/
structure Config where
  conf : SortedMap Text (SortedMap Text Text)
  extName : Text
  deriving DecidableEq

/-- The variables before `loadConf`. -/
def Config.new : Config := ⟨∅, []⟩

/-- `conf[section][key] = val`. -/
def Config.store (c : Config) (sec key val : Text) : Config :=
  { c with conf := c.conf.insert sec ((c.conf.getD sec ∅).insert key val) }

/-- What is done with a line after the scan. -/
def Config.take (c : Config) (s : LineScan Char) : Config :=
  let c := if s.curKey ≠ [] ∧ s.curVal ≠ [] then c.store s.curSec s.curKey s.curVal else c
  if s.curSec ≠ "kvproxy".toList ∧ s.curKey = "extension".toList then
    { c with extName := s.curSec }
  else c

/-- The scan of a line in its buffer. -/
def scanText (curSec line : Text) : LineScan Char :=
  scanLine id (lineBuffer line) (.start curSec)

/-- One line: `cur_sec` and the configuration behind it. -/
def loadLine (s : Text × Config) (line : Text) : Text × Config :=
  ((scanText s.1 line).curSec, s.2.take (scanText s.1 line))

/-- The stream `cnf_file`: what is left of the file, and its state bits. -/
structure ConfStream where
  rest : Text
  eof : Bool
  fail : Bool
  deriving DecidableEq

/-- `cnf_file.getline(line, sizeof(line))` on a stream that is good: at most 199
characters, up to a newline, which is taken from the stream. -/
def ConfStream.getline (f : ConfStream) : Text × ConfStream :=
  let line := (f.rest.takeWhile (· ≠ '\n')).take (lineSize - 1)
  match f.rest.drop line.length with
  | [] => (line, ⟨[], true, line = []⟩)
  | c :: more => (line, if c = '\n' then ⟨more, false, false⟩ else ⟨c :: more, false, true⟩)

/-- One pass of the loop over the lines.  At its end `loadConf` returns, or exits
(`none`) when the file has not been read to the end. -/
def loadBody (s : ConfStream × (Text × Config)) :
    Option (Option Config) × (ConfStream × (Text × Config)) :=
  if s.1.eof ∨ s.1.fail then (some (if s.1.eof then some s.2.2 else none), s)
  else (none, (s.1.getline.2, loadLine s.2 s.1.getline.1))

/-- `loadConf`, on the contents of the file. -/
def loadConf (file : Text) : Option Config :=
  (Loop.run loadBody (file.length + 2) (⟨file, false, false⟩, ([], .new))).bind Prod.fst

/-! ## The lines of a file -/

/-- The lines of a file, the empty one behind the last newline included. -/
def fileLines (file : Text) : List Text := file.splitOn '\n'

/-- A line that fits into the buffer. -/
def Fits (line : Text) : Prop := line.length < lineSize

instance (line : Text) : Decidable (Fits line) := inferInstanceAs (Decidable (_ < _))

theorem fileLines_line {line : Text} (h : '\n' ∉ line) (more : Text) :
    fileLines (line ++ '\n' :: more) = line :: fileLines more := by
  rw [fileLines, List.splitOn_append_cons_self, List.splitOn_eq_singleton h]
  rfl

theorem fileLines_last {line : Text} (h : '\n' ∉ line) : fileLines line = [line] :=
  List.splitOn_eq_singleton h

/-- A text is one line, or a line and more. -/
theorem text_cases (file : Text) :
    '\n' ∉ file ∨ ∃ line more, '\n' ∉ line ∧ file = line ++ '\n' :: more := by
  by_cases h : '\n' ∈ file
  · obtain ⟨line, more, hfile, hline⟩ := List.eq_append_cons_of_mem h
    exact Or.inr ⟨line, more, hline, hfile⟩
  · exact Or.inl h

theorem takeWhile_ne {stop : Char} {text : Text} (h : stop ∉ text) (more : Text) :
    (text ++ more).takeWhile (· ≠ stop) = text ++ more.takeWhile (· ≠ stop) :=
  List.takeWhile_append_of_pos (fun c hc => by simpa using fun heq : c = stop => h (heq ▸ hc))

/-- A line that fits is read whole, with its newline. -/
theorem getline_line {line : Text} (h : '\n' ∉ line) (hfits : Fits line) (more : Text) :
    (ConfStream.mk (line ++ '\n' :: more) false false).getline =
      (line, ⟨more, false, false⟩) := by
  have htake : (line ++ List.takeWhile (· ≠ '\n') ('\n' :: more)).take (lineSize - 1) = line := by
    rw [List.takeWhile_cons_of_neg (by simp), List.append_nil]
    exact List.take_of_length_le (Nat.le_sub_one_of_lt hfits)
  simp only [ConfStream.getline, takeWhile_ne h, htake, List.drop_left, if_true]

/-- The last line, without a newline. -/
theorem getline_last {line : Text} (h : '\n' ∉ line) (hfits : Fits line) :
    (ConfStream.mk line false false).getline = (line, ⟨[], true, line = []⟩) := by
  have htake : (line.takeWhile (· ≠ '\n')).take (lineSize - 1) = line := by
    have hline := takeWhile_ne h []
    rw [List.append_nil] at hline
    rw [hline, List.takeWhile_nil, List.append_nil]
    exact List.take_of_length_le (Nat.le_sub_one_of_lt hfits)
  simp only [ConfStream.getline, htake, List.drop_length]

/-- A line that does not fit. -/
theorem getline_long {line : Text} (h : '\n' ∉ line) (hlong : ¬ Fits line) (more : Text) :
    (ConfStream.mk (line ++ more) false false).getline.2.fail = true ∧
      (ConfStream.mk (line ++ more) false false).getline.2.eof = false := by
  have hle : lineSize - 1 < line.length := by
    have hpos : 0 < lineSize := by decide
    unfold Fits at hlong
    omega
  have htake : (line ++ more.takeWhile (· ≠ '\n')).take (lineSize - 1) =
      line.take (lineSize - 1) := List.take_append_of_le_length (Nat.le_of_lt hle)
  obtain ⟨c, behind, hbehind⟩ := List.exists_cons_of_ne_nil
    (List.ne_nil_of_length_pos (l := line.drop (lineSize - 1)) (by
      rw [List.length_drop]
      omega))
  have hdrop : (line ++ more).drop (line.take (lineSize - 1)).length = c :: (behind ++ more) := by
    rw [List.length_take, Nat.min_eq_left (Nat.le_of_lt hle),
      List.drop_append_of_le_length (Nat.le_of_lt hle), hbehind]
    rfl
  have hc : c ≠ '\n' := by
    intro heq
    apply h
    rw [← List.take_append_drop (lineSize - 1) line, hbehind, heq]
    exact List.mem_append_right _ List.mem_cons_self
  simp only [ConfStream.getline, takeWhile_ne h, htake, hdrop, if_neg hc, and_self]

/-- A stream that has failed is given up. -/
theorem loadBody_failed {f : ConfStream} (hfail : f.fail = true) (heof : f.eof = false)
    (t : Text × Config) : loadBody (f, t) = (some none, (f, t)) := by
  simp [loadBody, hfail, heof]

/-- A file that has come to its end is done. -/
theorem loadBody_eof {f : ConfStream} (heof : f.eof = true) (t : Text × Config) :
    loadBody (f, t) = (some (some t.2), (f, t)) := by
  simp [loadBody, heof]

/-- **The loop over the lines**: it comes to its end with every line read, or exits
at the first line that does not fit. -/
theorem loadLoop_eq (fuel : Nat) (file : Text) (t : Text × Config) (hfuel : file.length + 1 < fuel) :
    ∃ s, Loop.run loadBody fuel (⟨file, false, false⟩, t) =
      some (if ∀ line ∈ fileLines file, Fits line
        then some ((fileLines file).foldl loadLine t).2 else none, s) := by
  induction fuel generalizing file t with
  | zero => omega
  | succ fuel ih =>
      have hpass : loadBody (⟨file, false, false⟩, t) =
          (none, ((ConfStream.mk file false false).getline.2,
            loadLine t (ConfStream.mk file false false).getline.1)) := by
        simp [loadBody]
      rw [Loop.run_pass fuel hpass]
      obtain ⟨fuel, rfl⟩ : ∃ n, fuel = n + 1 := ⟨fuel - 1, by omega⟩
      rcases text_cases file with hlast | ⟨line, more, hline, rfl⟩
      · by_cases hfits : Fits file
        · rw [getline_last hlast hfits, fileLines_last hlast, if_pos (by simpa using hfits)]
          exact ⟨_, Loop.run_leave fuel (loadBody_eof rfl _)⟩
        · have hlong := getline_long hlast hfits []
          rw [List.append_nil] at hlong
          rw [if_neg (fun hall => hfits (hall file (by simp [fileLines_last hlast])))]
          exact ⟨_, Loop.run_leave fuel (loadBody_failed hlong.1 hlong.2 _)⟩
      · rw [fileLines_line hline]
        by_cases hfits : Fits line
        · obtain ⟨s, hs⟩ := ih more (loadLine t line) (by simp at hfuel; omega)
          refine ⟨s, ?_⟩
          rw [getline_line hline hfits, hs]
          simp [hfits]
        · have hlong := getline_long hline hfits ('\n' :: more)
          rw [if_neg (fun hall => hfits (hall line List.mem_cons_self))]
          exact ⟨_, Loop.run_leave fuel (loadBody_failed hlong.1 hlong.2 _)⟩

/-- **What `loadConf` accepts**, and what it reads. -/
theorem loadConf_eq (file : Text) :
    loadConf file = if ∀ line ∈ fileLines file, Fits line
      then some ((fileLines file).foldl loadLine ([], .new)).2 else none := by
  obtain ⟨s, hs⟩ := loadLoop_eq (file.length + 2) file ([], .new) (by omega)
  rw [loadConf, hs]
  rfl

/-! ## The scan of a line -/

section Cells

variable {α β : Type} {char : α → Char}

theorem scanCell_init (q : Bool) (sec key val : List α) (c : α) :
    scanCell char ⟨.init, q, sec, key, val⟩ c =
      if char c = ';' then (true, ⟨.init, q, sec, key, val⟩)
      else if AtMost32 (char c) then (false, ⟨.init, q, sec, key, val⟩)
      else if char c = '[' then (false, ⟨.section, q, [], key, val⟩)
      else (false, ⟨.key, q, sec, [c], val⟩) := by
  by_cases hblank : AtMost32 (char c)
  · simp [scanCell, hblank]
  · simp [scanCell, hblank]

theorem scanCell_section (q : Bool) (sec key val : List α) (c : α) :
    scanCell char ⟨.section, q, sec, key, val⟩ c =
      if char c = ']' then (true, ⟨.section, q, sec, key, val⟩)
      else (false, ⟨.section, q, sec ++ [c], key, val⟩) := by
  simp [scanCell]

theorem scanCell_key (q : Bool) (sec key val : List α) (c : α) :
    scanCell char ⟨.key, q, sec, key, val⟩ c =
      if char c = '=' then (false, ⟨.value, q, sec, key, val⟩)
      else if ¬ AtMost32 (char c) then (false, ⟨.key, q, sec, key ++ [c], val⟩)
      else if char c = '\x00' then (true, ⟨.key, q, sec, key, val⟩)
      else (false, ⟨.key, q, sec, key, val⟩) := by
  simp [scanCell]

theorem scanCell_value (sec key val : List α) (c : α) :
    scanCell char ⟨.value, false, sec, key, val⟩ c =
      if AtMost32 (char c) then (false, ⟨.value, false, sec, key, val⟩)
      else if char c = '"' then (false, ⟨.value, true, sec, key, val⟩)
      else (false, ⟨.value, false, sec, key, val ++ [c]⟩) := by
  simp [scanCell]

theorem scanCell_quoted (sec key val : List α) (c : α) :
    scanCell char ⟨.value, true, sec, key, val⟩ c =
      if char c = '"' then (true, ⟨.value, true, sec, key, val⟩)
      else (false, ⟨.value, true, sec, key, val ++ [c]⟩) := by
  simp [scanCell]

/-- The texts of a scan, with every cell changed. -/
def LineScan.map (f : α → β) (s : LineScan α) : LineScan β where
  process := s.process
  valQuote := s.valQuote
  curSec := s.curSec.map f
  curKey := s.curKey.map f
  curVal := s.curVal.map f

theorem scanCell_map (f : α → β) (g : β → Char) (s : LineScan α) (c : α) :
    scanCell g (s.map f) (f c) =
      ((scanCell (g ∘ f) s c).1, (scanCell (g ∘ f) s c).2.map f) := by
  obtain ⟨process, q, sec, key, val⟩ := s
  cases process with
  | init =>
      simp only [LineScan.map, scanCell_init, Function.comp_apply]
      split_ifs <;> rfl
  | «section» =>
      simp only [LineScan.map, scanCell_section, Function.comp_apply]
      split_ifs <;> simp
  | key =>
      simp only [LineScan.map, scanCell_key, Function.comp_apply]
      split_ifs <;> simp
  | value =>
      cases q with
      | false =>
          simp only [LineScan.map, scanCell_value, Function.comp_apply]
          split_ifs <;> simp
      | true =>
          simp only [LineScan.map, scanCell_quoted, Function.comp_apply]
          split_ifs <;> simp

/-- **The scan does not look at more than the characters.** -/
theorem scanLine_map (f : α → β) (g : β → Char) (cells : List α) (s : LineScan α) :
    scanLine g (cells.map f) (s.map f) = (scanLine (g ∘ f) cells s).map f := by
  induction cells generalizing s with
  | nil => rfl
  | cons c rest ih =>
      rw [List.map_cons, scanLine, scanLine, scanCell_map]
      dsimp only
      split_ifs
      · rfl
      · exact ih _

end Cells

/-- The cells of the buffer: characters of the line, and padding. -/
def lineCells (line : Text) (pad : Nat) : List (Option Char) :=
  line.map some ++ List.replicate pad none

/-- The character in a cell. -/
def cellChar (c : Option Char) : Char := c.getD '\x00'

theorem cellChar_some (c : Char) : cellChar (some c) = c := rfl

theorem lineCells_chars (line : Text) :
    (lineCells line (lineSize - line.length)).map cellChar = lineBuffer line := by
  simp [lineCells, lineBuffer, Function.comp_def, cellChar]

/-- What a line says. -/
inductive ConfLine where
  | nothing
  | section (name : Text) (closed : Bool)
  | entry (key value : Text) (closed : Bool)
  deriving DecidableEq

/-- What is left of a text without quotes. -/
def visible (text : Text) : Text := text.filter (fun c => ¬ AtMost32 c)

/-- The value behind a `=`, and whether a quote that it opens is closed. -/
def confValue (text : Text) : Text × Bool :=
  match text.dropWhile (· ≠ '"') with
  | [] => (visible text, true)
  | _ :: quoted =>
      (visible (text.takeWhile (· ≠ '"')) ++ quoted.takeWhile (· ≠ '"'), '"' ∈ quoted)

/-- A key goes on up to a `=` or a zero byte. -/
def inKey (c : Char) : Bool := c ≠ '=' ∧ c ≠ '\x00'

/-- The value behind a key, if a `=` comes. -/
def valueBehind (text : Text) : Text × Bool :=
  match text.dropWhile inKey with
  | [] => ([], true)
  | c :: text => if c = '=' then confValue text else ([], true)

/-- What a line says, in terms of its text. -/
def confLine (line : Text) : ConfLine :=
  match line.dropWhile (fun c => AtMost32 c) with
  | [] => .nothing
  | first :: rest =>
      if first = ';' then .nothing
      else if first = '[' then .section (rest.takeWhile (· ≠ ']')) (']' ∈ rest)
      else
        .entry (first :: visible (rest.takeWhile inKey)) (valueBehind rest).1 (valueBehind rest).2

/-- The padding that a scan runs into when its text is not closed. -/
def padding (closed : Bool) (pad : Nat) : List (Option Char) :=
  if closed then [] else List.replicate pad none

/-- The section, the key and the value behind a line. -/
def ConfLine.texts (pad : Nat) (sec : List (Option Char)) :
    ConfLine → List (Option Char) × List (Option Char) × List (Option Char)
  | .nothing => (sec, [], [])
  | .section name closed => (name.map some ++ padding closed pad, [], [])
  | .entry key value closed => (sec, key.map some, value.map some ++ padding closed pad)

/-- The section, the key and the value of a scan. -/
def LineScan.texts {α : Type} (s : LineScan α) : List α × List α × List α :=
  (s.curSec, s.curKey, s.curVal)

section States

variable {sec key val : List (Option Char)}

theorem lineCells_cons (c : Char) (text : Text) (pad : Nat) :
    lineCells (c :: text) pad = some c :: lineCells text pad := rfl

theorem lineCells_nil (pad : Nat) : lineCells [] pad = List.replicate pad none := rfl

/-- A scan that collects cells up to a character, wherever it collects them, goes
into the padding when that character is missing. -/
theorem scanLine_collect {stop : Char} (hstop : stop ≠ '\x00')
    (put : List (Option Char) → LineScan (Option Char))
    (hput : ∀ text c, scanCell cellChar (put text) c =
      if cellChar c = stop then (true, put text) else (false, put (text ++ [c])))
    (got : List (Option Char)) (text : Text) (pad : Nat) :
    scanLine cellChar (lineCells text pad) (put got) =
      put (got ++ ((text.takeWhile (· ≠ stop)).map some ++ padding (stop ∈ text) pad)) := by
  induction text generalizing got with
  | nil =>
      induction pad generalizing got with
      | zero => simp [lineCells, scanLine, padding]
      | succ pad ih =>
          have hpad : cellChar none ≠ stop := hstop.symm
          have hrest := ih (got ++ [none])
          simp only [lineCells_nil, List.takeWhile_nil, List.map_nil, List.nil_append, padding,
            List.not_mem_nil, decide_false, Bool.false_eq_true, if_false] at hrest ⊢
          rw [List.replicate_succ, scanLine, hput, if_neg hpad, if_neg (by simp), hrest]
          simp
  | cons c text ih =>
      rw [lineCells_cons, scanLine, hput, cellChar_some]
      by_cases hc : c = stop
      · simp [hc, padding]
      · simp [hc, ih, Ne.symm hc]

theorem scanLine_section (q : Bool) (text : Text) (pad : Nat) :
    scanLine cellChar (lineCells text pad) ⟨.section, q, sec, key, val⟩ =
      ⟨.section, q, sec ++ ((text.takeWhile (· ≠ ']')).map some ++ padding (']' ∈ text) pad),
        key, val⟩ :=
  scanLine_collect (by decide) (fun text => ⟨.section, q, text, key, val⟩)
    (fun text c => scanCell_section q text key val c) sec text pad

theorem scanLine_quoted (text : Text) (pad : Nat) :
    scanLine cellChar (lineCells text pad) ⟨.value, true, sec, key, val⟩ =
      ⟨.value, true, sec, key,
        val ++ ((text.takeWhile (· ≠ '"')).map some ++ padding ('"' ∈ text) pad)⟩ :=
  scanLine_collect (by decide) (fun text => ⟨.value, true, sec, key, text⟩)
    (fun text c => scanCell_quoted sec key text c) val text pad

theorem scanLine_key_pad (pad : Nat) :
    scanLine cellChar (List.replicate pad none) ⟨.key, false, sec, key, val⟩ =
      ⟨.key, false, sec, key, val⟩ := by
  cases pad with
  | zero => rfl
  | succ pad => simp [List.replicate_succ, scanLine, scanCell_key, cellChar, AtMost32]

theorem scanLine_value_pad (pad : Nat) :
    scanLine cellChar (List.replicate pad none) ⟨.value, false, sec, key, val⟩ =
      ⟨.value, false, sec, key, val⟩ := by
  induction pad with
  | zero => rfl
  | succ pad ih => simp [List.replicate_succ, scanLine, scanCell_value, cellChar, AtMost32, ih]

theorem not_atMost32_quote : ¬ AtMost32 '"' := by decide

theorem confValue_quote (text : Text) :
    confValue ('"' :: text) = (text.takeWhile (· ≠ '"'), decide ('"' ∈ text)) := by
  simp [confValue, visible]

theorem confValue_blank {c : Char} (hc : AtMost32 c) (text : Text) :
    confValue (c :: text) = confValue text := by
  have hquote : c ≠ '"' := by
    rintro rfl
    exact not_atMost32_quote hc
  simp [confValue, visible, hquote, hc]

theorem confValue_char {c : Char} (hc : ¬ AtMost32 c) (hquote : c ≠ '"') (text : Text) :
    confValue (c :: text) = (c :: (confValue text).1, (confValue text).2) := by
  unfold confValue
  rw [List.dropWhile_cons_of_pos (by simpa using hquote),
    List.takeWhile_cons_of_pos (by simpa using hquote)]
  split
  · simp [visible, hc]
  · simp [visible, hc]

theorem scanLine_value (text : Text) (pad : Nat) :
    (scanLine cellChar (lineCells text pad) ⟨.value, false, sec, key, val⟩).texts =
      (sec, key, val ++ ((confValue text).1.map some ++ padding (confValue text).2 pad)) := by
  induction text generalizing val with
  | nil => simp [lineCells_nil, scanLine_value_pad, padding, confValue, visible, LineScan.texts]
  | cons c text ih =>
      rw [lineCells_cons, scanLine, scanCell_value, cellChar_some]
      by_cases hblank : AtMost32 c
      · rw [if_pos hblank, confValue_blank hblank]
        exact ih
      · by_cases hquote : c = '"'
        · subst hquote
          rw [if_neg hblank, if_pos rfl, confValue_quote]
          exact congrArg LineScan.texts (scanLine_quoted text pad)
        · rw [if_neg hblank, if_neg hquote, confValue_char hblank hquote]
          exact ih.trans (by simp)

theorem valueBehind_cons {c : Char} (hc : inKey c = true) (text : Text) :
    valueBehind (c :: text) = valueBehind text := by
  rw [valueBehind, List.dropWhile_cons_of_pos hc, ← valueBehind]

theorem scanLine_key (text : Text) (pad : Nat) :
    (scanLine cellChar (lineCells text pad) ⟨.key, false, sec, key, val⟩).texts =
      (sec, key ++ (visible (text.takeWhile inKey)).map some,
        val ++ ((valueBehind text).1.map some ++ padding (valueBehind text).2 pad)) := by
  induction text generalizing key with
  | nil => simp [lineCells_nil, scanLine_key_pad, padding, valueBehind, visible, LineScan.texts]
  | cons c text ih =>
      rw [lineCells_cons, scanLine, scanCell_key, cellChar_some]
      by_cases heq : c = '='
      · subst heq
        have hvalue : valueBehind ('=' :: text) = confValue text := rfl
        rw [if_pos rfl, hvalue]
        exact (scanLine_value text pad).trans (by simp [inKey, visible])
      · by_cases hzero : c = '\x00'
        · subst hzero
          have hvalue : valueBehind ('\x00' :: text) = ([], true) := rfl
          have hblank : AtMost32 '\x00' := by decide
          rw [hvalue]
          simp [hblank, LineScan.texts, inKey, visible, padding]
        · have hin : inKey c = true := by simp [inKey, heq, hzero]
          rw [if_neg heq, valueBehind_cons hin, List.takeWhile_cons_of_pos hin]
          by_cases hblank : AtMost32 c
          · rw [if_neg (not_not.mpr hblank), if_neg hzero]
            exact ih.trans (by simp [visible, hblank])
          · rw [if_pos hblank]
            exact ih.trans (by simp [visible, hblank])

end States

/-- **The scan of a line**: what the line says in terms of its text, with the
padding behind a section or a quoted value that is not closed. -/
theorem scanLine_cells (line : Text) (pad : Nat) (sec : List (Option Char)) :
    (scanLine cellChar (lineCells line pad) (.start sec)).texts = (confLine line).texts pad sec := by
  induction line with
  | nil =>
      have hskip : ∀ n, scanLine cellChar (List.replicate n none) (.start sec) = .start sec := by
        intro n
        induction n with
        | zero => rfl
        | succ n ih =>
            have hcell : scanCell cellChar (.start sec) none = (false, .start sec) :=
              (scanCell_init false sec [] [] none).trans (by simp [cellChar, AtMost32, LineScan.start])
            rw [List.replicate_succ, scanLine, hcell]
            exact ih
      rw [lineCells_nil, hskip]
      rfl
  | cons c line ih =>
      rw [lineCells_cons, scanLine, LineScan.start, scanCell_init, cellChar_some]
      by_cases hcomment : c = ';'
      · subst hcomment
        rfl
      · by_cases hblank : AtMost32 c
        · have hline : confLine (c :: line) = confLine line := by simp [confLine, hblank]
          rw [if_neg hcomment, if_pos hblank, hline]
          exact ih
        · by_cases hsec : c = '['
          · subst hsec
            have hline : confLine ('[' :: line) =
                .section (line.takeWhile (· ≠ ']')) (']' ∈ line) := by
              simp [confLine, hblank]
            rw [if_neg hcomment, if_neg hblank, if_pos rfl, hline]
            exact congrArg LineScan.texts (scanLine_section false line pad)
          · have hline : confLine (c :: line) =
                .entry (c :: visible (line.takeWhile inKey)) (valueBehind line).1
                  (valueBehind line).2 := by
              simp [confLine, hblank, hcomment, hsec]
            rw [if_neg hcomment, if_neg hblank, if_neg hsec, hline]
            exact scanLine_key line pad

theorem LineScan.texts_map {α β : Type} (f : α → β) (s : LineScan α) :
    (s.map f).texts = (s.texts.1.map f, s.texts.2.1.map f, s.texts.2.2.map f) := rfl

/-- The scan of a line, with the cells of its buffer. -/
def scanCells (sec : List (Option Char)) (line : Text) : LineScan (Option Char) :=
  scanLine cellChar (lineCells line (lineSize - line.length)) (.start sec)

theorem scanText_eq_map (sec : List (Option Char)) (line : Text) :
    scanText (sec.map cellChar) line = (scanCells sec line).map cellChar := by
  have hmap := scanLine_map cellChar id (lineCells line (lineSize - line.length)) (.start sec)
  rw [lineCells_chars] at hmap
  exact hmap

theorem scanCells_texts (sec : List (Option Char)) (line : Text) :
    (scanCells sec line).texts = (confLine line).texts (lineSize - line.length) sec :=
  scanLine_cells line _ sec

/-! ## What a line does to the configuration -/

theorem map_cellChar_some (text : Text) : (text.map some).map cellChar = text := by
  simp [Function.comp_def, cellChar]

/-- The texts of the scan of a line whose section or value is closed. -/
theorem scanText_closed (sec line : Text) :
    (∀ {name : Text}, confLine line = .section name true →
      (scanText sec line).texts = (name, [], [])) ∧
    (∀ {key value : Text}, confLine line = .entry key value true →
      (scanText sec line).texts = (sec, key, value)) ∧
    (confLine line = .nothing → (scanText sec line).texts = (sec, [], [])) := by
  have htexts : (scanText sec line).texts = ((scanCells (sec.map some) line).map cellChar).texts := by
    rw [← scanText_eq_map, map_cellChar_some]
  rw [LineScan.texts_map, scanCells_texts] at htexts
  rw [htexts]
  refine ⟨fun h => ?_, fun h => ?_, fun h => ?_⟩
  · simp [h, ConfLine.texts, padding, Function.comp_def, cellChar]
  · simp [h, ConfLine.texts, padding, Function.comp_def, cellChar]
  · simp [h, ConfLine.texts, Function.comp_def, cellChar]

/-- A line without a key only sets the section. -/
theorem loadLine_of_no_key {sec name line : Text} (c : Config)
    (h : (scanText sec line).texts = (name, [], [])) : loadLine (sec, c) line = (name, c) := by
  obtain ⟨hsec, hkey, _⟩ : (scanText sec line).curSec = name ∧ (scanText sec line).curKey = [] ∧
      (scanText sec line).curVal = [] := by simpa [LineScan.texts] using h
  simp [loadLine, Config.take, hsec, hkey]

/-- `conf`, read at a key of a section. -/
def Config.value (c : Config) (sec key : Text) : Option Text :=
  (c.conf.lookup sec).bind (fun m => m.lookup key)

theorem Config.lookup_getD (c : Config) (sec key : Text) :
    (c.conf.getD sec ∅).lookup key = c.value sec key := by
  cases h : c.conf.lookup sec with
  | none => simp [Config.value, SortedMap.getD, h]
  | some m => simp [Config.value, SortedMap.getD, h]

theorem Config.value_store (c : Config) (sec key val sec' key' : Text) :
    (c.store sec key val).value sec' key' =
      if sec' = sec ∧ key' = key then some val else c.value sec' key' := by
  by_cases hsec : sec' = sec
  · subst hsec
    have hvalue : (c.store sec' key val).value sec' key' =
        ((c.conf.getD sec' ∅).insert key val).lookup key' := by
      simp [Config.value, Config.store, SortedMap.lookup_insert]
    rw [hvalue, SortedMap.lookup_insert, Config.lookup_getD]
    simp
  · simp [Config.value, Config.store, SortedMap.lookup_insert, hsec]

end KvProxy
