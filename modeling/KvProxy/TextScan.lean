import Mathlib.Data.List.TakeWhile
import KvProxy.ParseReq

/-!
# Reading text requests

`try_read_request_text` walks over the bytes once.  The command ends at the
first space and the key at the next space or return; behind the key the walk
ends at the end of the line or at a letter `n`, which it takes for `noreply`, and
up to ten digits behind the fourth space are the length of the data.  The text
readers never ask for more bytes: `parse_req` makes one pass over text.

* `scanBytes_request` — what the walk makes of a command, a key and what is
  behind them;
* `parseReq_text` — what `parse_req` makes of text.
-/

namespace KvProxy

open MachineInt

/-! ## The walk -/

/-- The scan over given bytes, and whether it has ended. -/
def scanBytes : List UInt8 → Int → TextScan → Bool × TextScan
  | [], _, s => (false, s)
  | c :: cs, i, s =>
      match scanRequestStep c i s with
      | (true, s') => (true, s')
      | (false, s') => scanBytes cs (i + 1) s'

theorem scanRequest_eq_scanBytes (data : ByteMem) (n : Nat) (i : Int) (s : TextScan) :
    scanRequest data n i s = (scanBytes (data.slice i n) i s).2 := by
  induction n generalizing i s with
  | zero => rfl
  | succ n ih =>
      rw [ByteMem.slice_succ, scanRequest, scanBytes]
      cases hstep : scanRequestStep (data i) i s with
      | mk leaves s' =>
          cases leaves with
          | true => rfl
          | false => exact ih (i + 1) s'

/-- A byte that does not end the scan. -/
theorem scanBytes_cons {c : UInt8} {i : Int} {s s' : TextScan} (cs : List UInt8)
    (hstep : scanRequestStep c i s = (false, s')) :
    scanBytes (c :: cs) i s = scanBytes cs (i + 1) s' := by
  rw [scanBytes, hstep]

/-- A byte that does. -/
theorem scanBytes_last {c : UInt8} {i : Int} {s s' : TextScan} (cs : List UInt8)
    (hstep : scanRequestStep c i s = (true, s')) : scanBytes (c :: cs) i s = (true, s') := by
  rw [scanBytes, hstep]

/-- Bytes the scan passes over. -/
theorem scanBytes_skip {s : TextScan} {cs : List UInt8} (rest : List UInt8) (i : Int)
    (hskip : ∀ c ∈ cs, ∀ j, scanRequestStep c j s = (false, s)) :
    scanBytes (cs ++ rest) i s = scanBytes rest (i + cs.length) s := by
  induction cs generalizing i with
  | nil => simp
  | cons c cs ih =>
      rw [List.cons_append, scanBytes_cons _ (hskip c List.mem_cons_self i),
        ih (i + 1) (fun x hx => hskip x (List.mem_cons_of_mem _ hx))]
      congr 1
      push_cast [List.length_cons]
      omega

/-! ## The command and the key -/

/-- Up to the first space nothing is written. -/
theorem scanBytes_command {cmd : List UInt8} (hcmd : (32 : UInt8) ∉ cmd) (rest : List UInt8)
    (e : Int) :
    scanBytes (cmd ++ rest) 0 ⟨0, 0, 0, 0, e, []⟩ =
      scanBytes rest cmd.length ⟨0, 0, 0, 0, e, []⟩ := by
  rw [scanBytes_skip, Int.zero_add]
  intro c hc j
  have hspace : c ≠ 32 := ne_of_mem_of_not_mem hc hcmd
  simp [scanRequestStep, hspace]

/-- Text with no space in it. -/
theorem scanBytes_noSpace {cs : List UInt8} (hcs : (32 : UInt8) ∉ cs) (e : Int) :
    scanBytes cs 0 ⟨0, 0, 0, 0, e, []⟩ = (false, ⟨0, 0, 0, 0, e, []⟩) := by
  have h := scanBytes_command hcs [] e
  rwa [List.append_nil] at h

/-- The first space sets the offset of the key, whatever it was before. -/
theorem scanBytes_firstSpace {cmd : List UInt8} (hcmd : (32 : UInt8) ∉ cmd) (rest : List UInt8)
    (e : Int) :
    scanBytes (cmd ++ 32 :: rest) 0 ⟨0, 0, 0, 0, e, []⟩ =
      scanBytes rest (cmd.length + 1) ⟨cmd.length, 0, 0, 1, cmd.length + 1, []⟩ := by
  rw [scanBytes_command hcmd]
  exact scanBytes_cons rest (by simp [scanRequestStep])

/-- Bytes of a key are passed over. -/
theorem scanBytes_keyBytes (n : Int) {key : List UInt8} (hspace : (32 : UInt8) ∉ key)
    (hreturn : (13 : UInt8) ∉ key) (rest : List UInt8) (i : Int) :
    scanBytes (key ++ rest) i ⟨n, 0, 0, 1, n + 1, []⟩ =
      scanBytes rest (i + key.length) ⟨n, 0, 0, 1, n + 1, []⟩ := by
  refine scanBytes_skip rest i ?_
  intro c hc j
  have hspace' : c ≠ 32 := ne_of_mem_of_not_mem hc hspace
  have hreturn' : c ≠ 13 := ne_of_mem_of_not_mem hc hreturn
  simp [scanRequestStep, hspace', hreturn']

/-! ## Behind the key -/

/-- What the walk reads behind the key: up to the end of the line or an `n`. -/
def scanned (t : List UInt8) : List UInt8 := t.takeWhile (fun c => c ≠ 10 ∧ c ≠ 110)

/-- What lies behind the first `n` spaces. -/
def behindSpaces : Nat → List UInt8 → List UInt8
  | 0, cs => cs
  | _ + 1, [] => []
  | n + 1, c :: cs => if c = 32 then behindSpaces n cs else behindSpaces (n + 1) cs

/-- The length of the line, or `0` if the walk does not come to its end; `i`
bytes of it lie before `t`. -/
def lineEnd (i : Int) (t : List UInt8) : Int :=
  if t[(scanned t).length]? = some 10 then i + (scanned t).length + 1 else 0

/-- The digits taken for the length of the data, in the bytes behind the key:
the first ten behind the fourth space of the line. -/
def countDigits (t : List UInt8) : List UInt8 :=
  ((behindSpaces 3 (scanned t)).filter isDigitByte).take 10

@[simp] theorem scanned_nil : scanned [] = [] := rfl

theorem scanned_cons {c : UInt8} (hten : c ≠ 10) (hn : c ≠ 110) (t : List UInt8) :
    scanned (c :: t) = c :: scanned t := by
  simp [scanned, hten, hn]

@[simp] theorem behindSpaces_zero (cs : List UInt8) : behindSpaces 0 cs = cs := by
  cases cs <;> rfl

@[simp] theorem behindSpaces_nil (n : Nat) : behindSpaces n [] = [] := by
  cases n <;> rfl

@[simp] theorem behindSpaces_space (n : Nat) (cs : List UInt8) :
    behindSpaces (n + 1) (32 :: cs) = behindSpaces n cs := by
  simp [behindSpaces]

theorem behindSpaces_cons {c : UInt8} (hc : c ≠ 32) (n : Nat) (cs : List UInt8) :
    behindSpaces (n + 1) (c :: cs) = behindSpaces (n + 1) cs := by
  simp [behindSpaces, hc]

theorem lineEnd_cons {c : UInt8} (hten : c ≠ 10) (hn : c ≠ 110) (i : Int) (t : List UInt8) :
    lineEnd i (c :: t) = lineEnd (i + 1) t := by
  simp only [lineEnd, scanned_cons hten hn, List.length_cons, List.getElem?_cons_succ]
  split_ifs
  · push_cast
    omega
  · rfl

@[simp] theorem scanned_newline (t : List UInt8) : scanned (10 :: t) = [] := by
  simp [scanned]

@[simp] theorem scanned_n (t : List UInt8) : scanned (110 :: t) = [] := by
  simp [scanned]

@[simp] theorem lineEnd_nil (i : Int) : lineEnd i [] = 0 := by
  simp [lineEnd]

@[simp] theorem lineEnd_newline (i : Int) (t : List UInt8) : lineEnd i (10 :: t) = i + 1 := by
  simp [lineEnd]

@[simp] theorem lineEnd_n (i : Int) (t : List UInt8) : lineEnd i (110 :: t) = 0 := by
  simp [lineEnd]

/-- Bytes within the line are read. -/
theorem scanned_append {cs : List UInt8} (hten : (10 : UInt8) ∉ cs) (hn : (110 : UInt8) ∉ cs)
    (t : List UInt8) : scanned (cs ++ t) = cs ++ scanned t := by
  induction cs with
  | nil => rfl
  | cons c cs ih =>
      rw [List.cons_append, scanned_cons (List.ne_of_not_mem_cons hten).symm
        (List.ne_of_not_mem_cons hn).symm, ih (List.not_mem_of_not_mem_cons hten)
        (List.not_mem_of_not_mem_cons hn), List.cons_append]

theorem lineEnd_append {cs : List UInt8} (hten : (10 : UInt8) ∉ cs) (hn : (110 : UInt8) ∉ cs)
    (i : Int) (t : List UInt8) : lineEnd i (cs ++ t) = lineEnd (i + cs.length) t := by
  induction cs generalizing i with
  | nil => simp
  | cons c cs ih =>
      rw [List.cons_append, lineEnd_cons (List.ne_of_not_mem_cons hten).symm
        (List.ne_of_not_mem_cons hn).symm, ih (List.not_mem_of_not_mem_cons hten)
        (List.not_mem_of_not_mem_cons hn)]
      congr 1
      push_cast [List.length_cons]
      omega

/-- Bytes with too few spaces are passed over. -/
theorem behindSpaces_append {n : Nat} {cs : List UInt8} (h : cs.count 32 < n) (t : List UInt8) :
    behindSpaces n (cs ++ t) = behindSpaces (n - cs.count 32) t := by
  induction cs generalizing n with
  | nil => rfl
  | cons c cs ih =>
      obtain ⟨n, rfl⟩ : ∃ m, n = m + 1 := ⟨n - 1, by omega⟩
      by_cases hc : c = 32
      · subst hc
        rw [List.count_cons_self] at h ⊢
        rw [List.cons_append, behindSpaces_space, ih (by omega), Nat.add_sub_add_right]
      · rw [List.count_cons_of_ne hc] at h ⊢
        rw [List.cons_append, behindSpaces_cons hc, ih h]

theorem behindSpaces_few {n : Nat} {cs : List UInt8} (h : cs.count 32 < n) :
    behindSpaces n cs = [] := by
  have happend := behindSpaces_append h []
  rwa [List.append_nil, behindSpaces_nil] at happend

theorem count_behindSpaces (n : Nat) (cs : List UInt8) :
    (behindSpaces n cs).count 32 = cs.count 32 - n := by
  induction cs generalizing n with
  | nil => simp
  | cons c cs ih =>
      cases n with
      | zero => simp
      | succ n =>
          by_cases hc : c = 32
          · subst hc
            rw [behindSpaces_space, ih, List.count_cons_self, Nat.add_sub_add_right]
          · rw [behindSpaces_cons hc, ih, List.count_cons_of_ne hc]

/-- A word is passed over until the next space. -/
theorem behindSpaces_word {cs : List UInt8} (hspace : (32 : UInt8) ∉ cs) (n : Nat)
    (t : List UInt8) : behindSpaces (n + 1) (cs ++ t) = behindSpaces (n + 1) t := by
  have hcount : cs.count 32 = 0 := List.count_eq_zero_of_not_mem hspace
  rw [behindSpaces_append (by omega), hcount, Nat.sub_zero]

theorem behindSpaces_lastWord {cs : List UInt8} (hspace : (32 : UInt8) ∉ cs) (n : Nat) :
    behindSpaces (n + 1) cs = [] :=
  behindSpaces_few (by rw [List.count_eq_zero_of_not_mem hspace]; exact Nat.succ_pos n)

/-! ## What has arrived behind the key -/

theorem scanned_take (t : List UInt8) (j : Nat) : scanned (t.take j) = (scanned t).take j := by
  unfold scanned
  rw [List.take_takeWhile]

theorem behindSpaces_mono {xs ys : List UInt8} (h : xs <+: ys) (n : Nat) :
    behindSpaces n xs <+: behindSpaces n ys := by
  obtain ⟨zs, rfl⟩ := h
  induction xs generalizing n with
  | nil => simp
  | cons c xs ih =>
      cases n with
      | zero => simp
      | succ n =>
          by_cases hc : c = 32
          · subst hc
            rw [List.cons_append, behindSpaces_space, behindSpaces_space]
            exact ih n
          · rw [List.cons_append, behindSpaces_cons hc, behindSpaces_cons hc]
            exact ih (n + 1)

/-- Of a cut line, what has arrived of a word behind all its spaces. -/
theorem behindSpaces_take {n : Nat} {cs : List UInt8} (h : ∀ t, behindSpaces n (cs ++ t) = t)
    (word : List UInt8) (j : Nat) :
    behindSpaces n ((cs ++ word).take j) = word.take (j - cs.length) := by
  rw [List.take_append]
  rcases Nat.lt_or_ge cs.length j with hin | hcut
  · rw [List.take_of_length_le hin.le, h]
  · have hnil := h []
    have hpre := behindSpaces_mono (List.take_prefix j cs) n
    rw [List.append_nil] at hnil
    rw [hnil, List.prefix_nil] at hpre
    rw [show j - cs.length = 0 by omega, List.take_zero, List.append_nil, hpre]

/-- Cutting a line adds no digits. -/
theorem countDigits_take {t : List UInt8}
    (h : (behindSpaces 3 (scanned t)).filter isDigitByte = []) (j : Nat) :
    countDigits (t.take j) = [] := by
  have hsub := (behindSpaces_mono (List.take_prefix j (scanned t)) 3).sublist.filter isDigitByte
  rw [h, List.sublist_nil] at hsub
  rw [countDigits, scanned_take, hsub, List.take_nil]

/-- With no newline there is no end of the line. -/
theorem lineEnd_of_not_mem {cs : List UInt8} (hten : (10 : UInt8) ∉ cs) (i : Int) :
    lineEnd i cs = 0 := by
  rw [lineEnd, if_neg]
  intro h
  exact hten (List.mem_of_getElem? h)

/-- Of a cut line, the end is found when it has arrived. -/
theorem lineEnd_take {cs : List UInt8} (hten : (10 : UInt8) ∉ cs) (hn : (110 : UInt8) ∉ cs)
    (rest : List UInt8) (i : Int) (j : Nat) :
    lineEnd i ((cs ++ 10 :: rest).take j) = if cs.length < j then i + cs.length + 1 else 0 := by
  rw [List.take_append]
  split_ifs with hj
  · obtain ⟨k, hk⟩ : ∃ k, j - cs.length = k + 1 := ⟨j - cs.length - 1, by omega⟩
    rw [List.take_of_length_le hj.le, hk, List.take_succ_cons, lineEnd_append hten hn,
      lineEnd_newline]
  · rw [show j - cs.length = 0 by omega, List.take_zero, List.append_nil,
      lineEnd_of_not_mem (fun h => hten (List.mem_of_mem_take h))]

/-- Behind an `n` it is not looked for. -/
theorem lineEnd_take_n {cs : List UInt8} (hten : (10 : UInt8) ∉ cs) (hn : (110 : UInt8) ∉ cs)
    (rest : List UInt8) (i : Int) (j : Nat) : lineEnd i ((cs ++ 110 :: rest).take j) = 0 := by
  rw [List.take_append]
  by_cases hj : cs.length < j
  · obtain ⟨k, hk⟩ : ∃ k, j - cs.length = k + 1 := ⟨j - cs.length - 1, by omega⟩
    rw [List.take_of_length_le hj.le, hk, List.take_succ_cons, lineEnd_append hten hn, lineEnd_n]
  · rw [show j - cs.length = 0 by omega, List.take_zero, List.append_nil,
      lineEnd_of_not_mem (fun h => hten (List.mem_of_mem_take h))]

/-! ## The walk behind the key -/

theorem take_take_append {α : Type*} (n : Nat) (xs ys : List α) :
    (xs.take n ++ ys).take n = (xs ++ ys).take n := by
  rw [List.take_append, List.take_append, List.take_take, List.length_take, Nat.min_self]
  congr 2
  omega

/-- A digit is kept while there are fewer than ten of them. -/
theorem take_digit (c : UInt8) {d : List UInt8} (hd : d.length ≤ 10) :
    (d ++ [c].filter isDigitByte).take 10 =
      if isDigitByte c ∧ d.length < 10 then d ++ [c] else d := by
  by_cases hdigit : isDigitByte c = true
  · by_cases hlen : d.length < 10
    · have htake : (d ++ [c]).take 10 = d ++ [c] := List.take_of_length_le (by simp; omega)
      simp [hdigit, hlen, htake]
    · have htake : (d ++ [c]).take 10 = d := by
        rw [List.take_append_of_le_length (by omega), List.take_of_length_le hd]
      simp [hlen, hdigit, htake]
  · simp [hdigit, List.take_of_length_le hd]

section AfterKey

variable {cmdLen keyLen e : Int} (hcmd : 0 < cmdLen) (hkey : 0 < keyLen)

include hcmd hkey

/-- One byte behind the key, within the line. -/
theorem scanRequestStep_afterKey {c : UInt8} (hten : c ≠ 10) (hn : c ≠ 110) (i splits : Int)
    (d : List UInt8) :
    scanRequestStep c i ⟨cmdLen, keyLen, 0, splits, e, d⟩ =
      if c = 32 ∧ splits < 4 then (false, ⟨cmdLen, keyLen, 0, splits + 1, e, d⟩)
      else if splits = 4 ∧ isDigitByte c ∧ d.length < 10 then
        (false, ⟨cmdLen, keyLen, 0, splits, e, d ++ [c]⟩)
      else (false, ⟨cmdLen, keyLen, 0, splits, e, d⟩) := by
  have hcmd' : cmdLen ≠ 0 := by omega
  have hkey' : keyLen ≠ 0 := by omega
  unfold scanRequestStep
  simp only [hcmd', hkey', hten, hn, hkey, false_and, and_false, if_false, true_and]

/-- Behind the fourth space, up to ten digits are collected. -/
theorem scanRequestStep_digit {c : UInt8} (hten : c ≠ 10) (hn : c ≠ 110) (i : Int)
    {d : List UInt8} (hd : d.length ≤ 10) :
    scanRequestStep c i ⟨cmdLen, keyLen, 0, 4, e, d⟩ =
      (false, ⟨cmdLen, keyLen, 0, 4, e, (d ++ [c].filter isDigitByte).take 10⟩) := by
  rw [scanRequestStep_afterKey hcmd hkey hten hn, if_neg (by simp)]
  rw [take_digit c hd]
  by_cases hkept : isDigitByte c ∧ d.length < 10
  · rw [if_pos ⟨rfl, hkept⟩, if_pos hkept]
  · rw [if_neg (fun h => hkept h.2), if_neg hkept]

/-- **The walk behind the key**, with `n` spaces to come before the digits. -/
theorem scanBytes_afterKey (t : List UInt8) (n : Nat) (i : Int) {d : List UInt8}
    (hd : d.length ≤ 10) :
    ∃ splits, (scanBytes t i ⟨cmdLen, keyLen, 0, 4 - n, e, d⟩).2 =
      ⟨cmdLen, keyLen, lineEnd i t, splits, e,
        (d ++ (behindSpaces n (scanned t)).filter isDigitByte).take 10⟩ := by
  induction t generalizing n i d with
  | nil =>
      refine ⟨4 - n, ?_⟩
      simp [scanBytes, List.take_of_length_le hd]
  | cons c t ih =>
      by_cases hten : c = 10
      · subst hten
        have hstep : scanRequestStep 10 i ⟨cmdLen, keyLen, 0, 4 - n, e, d⟩ =
            (true, ⟨cmdLen, keyLen, i + 1, 4 - n, e, d⟩) := by
          have hcmd' : cmdLen ≠ 0 := by omega
          simp [scanRequestStep, hcmd, hkey, hcmd']
        refine ⟨4 - n, ?_⟩
        rw [scanBytes_last t hstep]
        simp [List.take_of_length_le hd]
      by_cases hn : c = 110
      · subst hn
        have hstep : scanRequestStep 110 i ⟨cmdLen, keyLen, 0, 4 - n, e, d⟩ =
            (true, ⟨cmdLen, keyLen, 0, 4 - n, e, d⟩) := by
          simp [scanRequestStep, hkey]
        refine ⟨4 - n, ?_⟩
        rw [scanBytes_last t hstep]
        simp [List.take_of_length_le hd]
      rw [scanned_cons hten hn, lineEnd_cons hten hn]
      cases n with
      | zero =>
          obtain ⟨splits, hrest⟩ := ih 0 (i + 1) (d := (d ++ [c].filter isDigitByte).take 10)
            (by simp)
          have hfilter : (c :: scanned t).filter isDigitByte =
              [c].filter isDigitByte ++ (scanned t).filter isDigitByte := by
            rw [← List.filter_append, List.singleton_append]
          have hfour : (4 : Int) - ((0 : Nat) : Int) = 4 := rfl
          rw [hfour, take_take_append, behindSpaces_zero, List.append_assoc, ← hfilter] at hrest
          refine ⟨splits, ?_⟩
          rw [hfour, scanBytes_cons t (scanRequestStep_digit hcmd hkey hten hn i hd), behindSpaces_zero]
          exact hrest
      | succ n =>
          have hstep := scanRequestStep_afterKey (e := e) hcmd hkey hten hn i
            (4 - ((n + 1 : Nat) : Int)) d
          by_cases hspace : c = 32
          · subst hspace
            have hsplits : (4 : Int) - ((n + 1 : Nat) : Int) + 1 = 4 - n := by
              push_cast
              omega
            rw [if_pos ⟨rfl, by push_cast; omega⟩, hsplits] at hstep
            rw [scanBytes_cons t hstep, behindSpaces_space]
            exact ih n (i + 1) hd
          · rw [if_neg (fun h => hspace h.1), if_neg (by push_cast; omega)] at hstep
            rw [scanBytes_cons t hstep, behindSpaces_cons hspace]
            exact ih (n + 1) (i + 1) hd

end AfterKey

/-- **What the walk makes of a request**: a command, a key that a space or a
return ends, and what lies behind it. -/
theorem scanBytes_request {cmd key : List UInt8} (hcmd : cmd ≠ []) (hcmdSpace : (32 : UInt8) ∉ cmd)
    (hkey : key ≠ []) (hspace : (32 : UInt8) ∉ key) (hreturn : (13 : UInt8) ∉ key)
    {t : List UInt8} (ht : t.head? = some 32 ∨ t.head? = some 13) (e : Int) :
    ∃ splits, (scanBytes (cmd ++ 32 :: (key ++ t)) 0 ⟨0, 0, 0, 0, e, []⟩).2 =
      ⟨cmd.length, key.length, lineEnd (cmd.length + 1 + key.length) t, splits, cmd.length + 1,
        countDigits t⟩ := by
  have hcmdPos : (0 : Int) < cmd.length := by
    have := List.length_pos_iff.mpr hcmd
    omega
  have hkeyPos : (0 : Int) < key.length := by
    have := List.length_pos_iff.mpr hkey
    omega
  have hkeyLen : (cmd.length : Int) + 1 + key.length - (cmd.length + 1) = key.length := by omega
  rw [scanBytes_firstSpace hcmdSpace, scanBytes_keyBytes cmd.length hspace hreturn]
  rcases ht with ht | ht
  · obtain ⟨t, rfl⟩ : ∃ t', t = 32 :: t' := ⟨t.tail, (List.cons_head?_tail ht).symm⟩
    have hstep : scanRequestStep 32 (cmd.length + 1 + key.length)
        ⟨cmd.length, 0, 0, 1, cmd.length + 1, []⟩ =
          (false, ⟨cmd.length, key.length, 0, 4 - (2 : Nat), cmd.length + 1, []⟩) := by
      simp [scanRequestStep, hcmd, hkeyLen]
    obtain ⟨splits, hrest⟩ := scanBytes_afterKey (e := cmd.length + 1) hcmdPos hkeyPos t 2
      (cmd.length + 1 + key.length + 1) (d := []) (Nat.zero_le 10)
    refine ⟨splits, ?_⟩
    rw [scanBytes_cons t hstep, hrest, lineEnd_cons (by decide) (by decide), countDigits,
      scanned_cons (by decide) (by decide), behindSpaces_space, List.nil_append]
  · obtain ⟨t, rfl⟩ : ∃ t', t = 13 :: t' := ⟨t.tail, (List.cons_head?_tail ht).symm⟩
    have hstep : scanRequestStep 13 (cmd.length + 1 + key.length)
        ⟨cmd.length, 0, 0, 1, cmd.length + 1, []⟩ =
          (false, ⟨cmd.length, key.length, 0, 4 - (3 : Nat), cmd.length + 1, []⟩) := by
      simp [scanRequestStep, hcmd, hkeyLen]
    obtain ⟨splits, hrest⟩ := scanBytes_afterKey (e := cmd.length + 1) hcmdPos hkeyPos t 3
      (cmd.length + 1 + key.length + 1) (d := []) (Nat.zero_le 10)
    refine ⟨splits, ?_⟩
    rw [scanBytes_cons t hstep, hrest, lineEnd_cons (by decide) (by decide), countDigits,
      scanned_cons (by decide) (by decide), behindSpaces_cons (by decide), List.nil_append]

/-- What it makes of a request that is cut in its key. -/
theorem scanBytes_cutKey {cmd key : List UInt8} (hcmdSpace : (32 : UInt8) ∉ cmd)
    (hspace : (32 : UInt8) ∉ key) (hreturn : (13 : UInt8) ∉ key) (e : Int) :
    (scanBytes (cmd ++ 32 :: key) 0 ⟨0, 0, 0, 0, e, []⟩).2 =
      ⟨cmd.length, 0, 0, 1, cmd.length + 1, []⟩ := by
  have h := scanBytes_keyBytes cmd.length hspace hreturn [] (cmd.length + 1)
  rw [List.append_nil] at h
  rw [scanBytes_firstSpace hcmdSpace, h]
  rfl

/-! ## The header -/

/-- The length of a request, as the walk leaves it. -/
def textLen (s : TextScan) : Int :=
  if atoi s.digits > 0 then int32 (s.contentLen + atoi s.digits + 2)
  else int32 (s.contentLen + atoi s.digits)

/-- The header read from received bytes. -/
theorem tryReadRequestText_ofList (t : List UInt8) (memory : ByteMem) (header : MemcachedHeader) :
    tryReadRequestText (ByteMem.ofList t memory) t.length header =
      (1, {
        keylen := (scanBytes t 0 ⟨0, 0, 0, 0, header.extlen, []⟩).2.keyLen
        extlen := (scanBytes t 0 ⟨0, 0, 0, 0, header.extlen, []⟩).2.extlen
        bodylen := textLen (scanBytes t 0 ⟨0, 0, 0, 0, header.extlen, []⟩).2
        opcode := getOpcode (ByteMem.ofList t memory) }) := by
  unfold tryReadRequestText
  rw [scanRequest_eq_scanBytes, Int.toNat_natCast, ByteMem.slice_ofList]
  rfl

/-! ## The pass over text -/

/-- The first byte of a word that memory starts with. -/
theorem startsWith_first {m : ByteMem} {c : UInt8} {word : List UInt8}
    (h : startsWith m (c :: word) = true) : m 0 = c := by
  have hslice : m.slice 0 (word.length + 1) = c :: word := by simpa [startsWith] using h
  rw [ByteMem.slice_succ] at hslice
  exact (List.cons.inj hslice).1

/-- The flags of a text request. -/
def textFlags (m : ByteMem) : ReqFlags := ⟨decide (getOpcode m ≠ cmdGet), false, 0, false⟩

/-- The opcodes of text requests other than `quit`. -/
theorem getOpcode_mem {m : ByteMem} (hquit : ¬ startsWith m (asciiBytes "quit") = true) :
    getOpcode m ∈ [cmdGet, cmdSet, cmdAdd, cmdReplace, cmdDelete, cmdIncrement, cmdDecrement,
      cmdAppend, cmdPrepend] := by
  have hite : ∀ {c : Prop} [Decidable c] {a b : Int} {ops : List Int}, a ∈ ops → b ∈ ops →
      (if c then a else b) ∈ ops := by
    intro c _ a b ops ha hb
    split
    · exact ha
    · exact hb
  unfold getOpcode
  rw [if_neg hquit]
  repeat' apply hite
  all_goals decide

/-- Text is never refused: `quit` is ignored, and everything else is forwarded. -/
theorem dispatch_getOpcode (m : ByteMem) :
    dispatch (getOpcode m) =
      if startsWith m (asciiBytes "quit") then .error .ignore else .ok (textFlags m) := by
  have hfirst : startsWith m (asciiBytes "quit") = true → m 0 = 113 := startsWith_first
  have hother : ∀ {c : UInt8} {word : List UInt8}, c ≠ 113 →
      startsWith m (asciiBytes "quit") = true → startsWith m (c :: word) = false := by
    intro c word hc hquit
    rw [Bool.eq_false_iff]
    intro hword
    exact hc ((startsWith_first hword).symm.trans (hfirst hquit))
  by_cases hquit : startsWith m (asciiBytes "quit") = true
  · have hget : startsWith m (asciiBytes "get") = false := hother (by decide) hquit
    have hset : startsWith m (asciiBytes "set") = false := hother (by decide) hquit
    have hadd : startsWith m (asciiBytes "add") = false := hother (by decide) hquit
    have hreplace : startsWith m (asciiBytes "replace") = false := hother (by decide) hquit
    have hdelete : startsWith m (asciiBytes "delete") = false := hother (by decide) hquit
    have hincr : startsWith m (asciiBytes "incr") = false := hother (by decide) hquit
    have hdecr : startsWith m (asciiBytes "decr") = false := hother (by decide) hquit
    have hop : getOpcode m = cmdQuit := by
      simp [getOpcode, hget, hset, hadd, hreplace, hdelete, hincr, hdecr, hquit]
    rw [hop, if_pos hquit]
    rfl
  · have hforward : ∀ op ∈ [cmdGet, cmdSet, cmdAdd, cmdReplace, cmdDelete, cmdIncrement,
        cmdDecrement, cmdAppend, cmdPrepend],
        dispatch op = .ok ⟨decide (op ≠ cmdGet), false, 0, false⟩ := by
      decide
    rw [if_neg hquit]
    exact hforward _ (getOpcode_mem hquit)

/-- What `parse_req` returns for a text request with the given header. -/
def textResult (m : ByteMem) (size p : Int) (before : List Req) (hd : MemcachedHeader) :
    ExtRet × Int × List Req :=
  if startsWith (m.shift p) (asciiBytes "quit") then (.ignore, p, before)
  else if size < packetLen false hd then (.again, p, before)
  else (.success, int32 (p + packetLen false hd),
    before ++ [reqItem false p hd (textFlags (m.shift p))])

/-- The pass over a text request. -/
theorem parseReqBody_text {m : ByteMem} {size p : Int} (hrem : 0 < int32 (size - p))
    {header hd : MemcachedHeader} (hread : readRequest m size false header p = (1, hd))
    (hop : hd.opcode = getOpcode (m.shift p)) (before : List Req) :
    parseReqBody m size false ⟨p, before, false, header⟩ =
      (some (textResult m size p before hd).1,
        ⟨(textResult m size p before hd).2.1, (textResult m size p before hd).2.2, false, hd⟩) := by
  have hdispatch := dispatch_getOpcode (m.shift p)
  rw [← hop] at hdispatch
  have hone : ¬ (1 : Int) = -1 ∧ ¬ (1 : Int) = 0 := by decide
  unfold parseReqBody textResult
  dsimp only
  rw [if_pos hrem, hread, if_neg hone.1, if_neg hone.2, hdispatch]
  by_cases hquit : startsWith (m.shift p) (asciiBytes "quit") = true
  · rw [if_pos hquit, if_pos hquit]
  · rw [if_neg hquit, if_neg hquit]
    dsimp only
    by_cases hfit : size < packetLen false hd
    · rw [if_pos hfit, if_pos hfit]
      rfl
    · rw [if_neg hfit, if_neg hfit, int32_position]
      rfl

/-- **What `parse_req` makes of text**: one pass, over the bytes from the
position on. -/
theorem parseReq_text {m : ByteMem} (htext : isBinaryProtocol m = false) {size p : Int}
    (hrem : 0 < int32 (size - p)) (header : MemcachedHeader) (before : List Req) :
    parseReq false header m size p before =
      some (textResult m size p before
        (tryReadRequestText (m.shift p) (int32 (size - p)) header).2) := by
  have hread : readRequest m size false header p =
      (1, (tryReadRequestText (m.shift p) (int32 (size - p)) header).2) := rfl
  have hfuel : loopFuel = 4294967296 + 1 := rfl
  unfold parseReq
  dsimp only
  rw [htext, if_neg (by simp), hfuel, Loop.run_leave _ (parseReqBody_text hrem hread rfl before)]
  rfl

/-- From the start of the received bytes. -/
theorem parseReq_received {bytes : List UInt8} (hne : bytes ≠ [])
    (hsize : bytes.length < 2147483648) {memory : ByteMem}
    (htext : isBinaryProtocol (ByteMem.ofList bytes memory) = false) (header : MemcachedHeader)
    (before : List Req) :
    parseReq false header (ByteMem.ofList bytes memory) bytes.length 0 before =
      some (textResult (ByteMem.ofList bytes memory) bytes.length 0 before
        (tryReadRequestText (ByteMem.ofList bytes memory) bytes.length header).2) := by
  have hpos := List.length_pos_iff.mpr hne
  have hint : int32 ((bytes.length : Int) - 0) = bytes.length := by
    rw [Int.sub_zero, int32_eq_self (by omega) (by omega)]
  rw [parseReq_text htext (by rw [hint]; omega), hint, ByteMem.shift_zero]

end KvProxy
