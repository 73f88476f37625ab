import KvProxy.Lib.Numeral
import KvProxy.TextRequest
import KvProxy.TextResponse

/-!
# Lengths in decimal digits

The text readers keep the digits of a length in an array of ten bytes.  A digit is kept
while fewer than ten are there, so ten of them leave no place for the terminator.  Which
digits are kept is a matter of where the walk is: behind the fourth space of a request
every digit is kept, in whatever word, up to the end of the line or an `n`; of a response,
the digits between the third space and the fourth.

* `walk_request` — what the walk over a request keeps, for any bytes;
* `lengths_read_iff` — when the array is large enough, the length that of the field, and
  the sum behind it an `int`.
-/

namespace KvProxy

open MachineInt

/-! ## Writes to the array -/

section Walks

variable {σ : Type} (step : UInt8 → Int → σ → Bool × σ) (digits : σ → List UInt8)

/-- The indices of `chr_data_len` that are written to: each digit that is kept goes
behind those kept before, and the terminator behind the last. -/
def writes : List UInt8 → Int → σ → List Nat
  | [], _, s => [(digits s).length]
  | c :: cs, i, s =>
      match step c i s with
      | (true, s') => [(digits s').length]
      | (false, s') =>
          if digits s' = digits s then writes cs (i + 1) s'
          else (digits s).length :: writes cs (i + 1) s'

variable {step digits}

/-- The terminator is written last, and behind the digits. -/
theorem mem_writes_walk (cs : List UInt8) (i : Int) (s : σ) :
    (digits (walk step cs i s)).length ∈ writes step digits cs i s := by
  induction cs generalizing i s with
  | nil => exact List.mem_singleton_self _
  | cons c cs ih =>
      rw [walk, writes]
      cases hstep : step c i s with
      | mk leaves s' =>
          cases leaves with
          | true => exact List.mem_singleton_self _
          | false =>
              dsimp only
              split_ifs
              · exact ih (i + 1) s'
              · exact List.mem_cons_of_mem _ (ih (i + 1) s')

section Grows

variable (hgrow : ∀ c i s, (digits s).length ≤ (digits (step c i s).2).length)

include hgrow

theorem length_le_walk (cs : List UInt8) (i : Int) (s : σ) :
    (digits s).length ≤ (digits (walk step cs i s)).length := by
  induction cs generalizing i s with
  | nil => exact le_rfl
  | cons c cs ih =>
      have hfirst := hgrow c i s
      rw [walk]
      cases hstep : step c i s with
      | mk leaves s' =>
          rw [hstep] at hfirst
          cases leaves with
          | true => exact hfirst
          | false => exact hfirst.trans (ih (i + 1) s')

theorem writes_le_walk {cs : List UInt8} {i : Int} {s : σ} {k : Nat}
    (hk : k ∈ writes step digits cs i s) : k ≤ (digits (walk step cs i s)).length := by
  induction cs generalizing i s with
  | nil => exact (List.mem_singleton.mp hk).le
  | cons c cs ih =>
      have hfirst := hgrow c i s
      rw [writes] at hk
      rw [walk]
      cases hstep : step c i s with
      | mk leaves s' =>
          rw [hstep] at hk hfirst
          cases leaves with
          | true => exact (List.mem_singleton.mp hk).le
          | false =>
              dsimp only at hk ⊢
              split_ifs at hk
              · exact ih hk
              · rcases List.mem_cons.mp hk with rfl | hk
                · exact hfirst.trans (length_le_walk hgrow cs (i + 1) s')
                · exact ih hk

/-- So an array is large enough for the writes when the terminator fits. -/
theorem writes_lt_iff (cs : List UInt8) (i : Int) (s : σ) (n : Nat) :
    (∀ k ∈ writes step digits cs i s, k < n) ↔ (digits (walk step cs i s)).length < n := by
  constructor
  · intro h
    exact h _ (mem_writes_walk cs i s)
  · intro h k hk
    exact (writes_le_walk hgrow hk).trans_lt h

end Grows

end Walks

theorem walk_eq_scanBytes (cs : List UInt8) (i : Int) (s : TextScan) :
    walk scanRequestStep cs i s = (scanBytes cs i s).2 := by
  induction cs generalizing i s with
  | nil => rfl
  | cons c cs ih =>
      rw [walk, scanBytes]
      cases hstep : scanRequestStep c i s with
      | mk leaves s' =>
          cases leaves with
          | true => rfl
          | false => exact ih (i + 1) s'

theorem scanRequest_eq_walk (data : ByteMem) (n : Nat) (i : Int) (s : TextScan) :
    scanRequest data n i s = walk scanRequestStep (data.slice i n) i s := by
  rw [scanRequest_eq_scanBytes, walk_eq_scanBytes]

theorem scanRequestStep_grows (c : UInt8) (i : Int) (s : TextScan) :
    s.digits.length ≤ (scanRequestStep c i s).2.digits.length := by
  unfold scanRequestStep
  split_ifs <;> simp

theorem scanResponseStep_grows (c : UInt8) (i : Int) (s : Int × Int × List UInt8) :
    s.2.2.length ≤ (scanResponseStep c i s).2.2.2.length := by
  obtain ⟨contentLen, splitCounter, digits⟩ := s
  unfold scanResponseStep
  dsimp only
  split_ifs <;> simp

/-! ## The walk over a request -/

/-- What lies behind a word of at least one byte, from the byte that ends it on. -/
def behindWord (p : UInt8 → Bool) : List UInt8 → List UInt8
  | [] => []
  | _ :: cs => cs.dropWhile p

/-- What lies behind the key, from the byte that ends it on.  The command ends at a
space and the key at a space or a return, but neither at its first byte. -/
def behindKey (t : List UInt8) : List UInt8 :=
  behindWord (fun c => c ≠ 32 ∧ c ≠ 13) (behindWord (fun c => c ≠ 32) t).tail

/-- The bytes up to the key, with it. -/
def upToKey (t : List UInt8) : List UInt8 := t.take (t.length - (behindKey t).length)

/-- The digits behind the fourth space, up to the end of the line or an `n` behind the
key. -/
def passedDigits (t : List UInt8) : List UInt8 :=
  (behindSpaces 4 (upToKey t ++ scanned (behindKey t))).filter isDigitByte

/-- The length of the line, if its end comes before an `n` behind the key; else `0`. -/
def lineLength (t : List UInt8) : Int := lineEnd (upToKey t).length (behindKey t)

theorem behindWord_cases (p : UInt8 → Bool) (t : List UInt8) :
    ((∀ c ∈ t.tail, p c = true) ∧ behindWord p t = []) ∨
      ∃ c w x r, t = c :: (w ++ x :: r) ∧ (∀ y ∈ w, p y = true) ∧ p x = false ∧
        behindWord p t = x :: r := by
  cases t with
  | nil => exact .inl ⟨by simp, rfl⟩
  | cons c cs =>
      have hsplit := List.takeWhile_append_dropWhile (p := p) (l := cs)
      cases hdrop : cs.dropWhile p with
      | nil =>
          rw [hdrop, List.append_nil] at hsplit
          refine .inl ⟨fun x hx => ?_, hdrop⟩
          rw [List.tail_cons, ← hsplit] at hx
          exact List.mem_takeWhile_imp hx
      | cons x r =>
          rw [hdrop] at hsplit
          have hx := List.head_dropWhile_not p (l := cs) (by rw [hdrop]; simp)
          simp only [hdrop, List.head_cons] at hx
          refine .inr ⟨c, cs.takeWhile p, x, r, by rw [hsplit], fun y hy => ?_, hx, hdrop⟩
          exact List.mem_takeWhile_imp hy

theorem count_le_one (c : UInt8) : [c].count 32 ≤ 1 := List.count_le_length

/-- Before its first space the walk counts a space at its first byte only. -/
theorem scanBytes_firstWord {c : UInt8} {w : List UInt8} (hw : (32 : UInt8) ∉ w)
    (rest : List UInt8) (e : Int) :
    ∃ e', scanBytes (c :: (w ++ rest)) 0 ⟨0, 0, 0, 0, e, []⟩ =
      scanBytes rest (w.length + 1) ⟨0, 0, 0, [c].count 32, e', []⟩ := by
  have hpass : ∀ e', scanBytes (w ++ rest) 1 ⟨0, 0, 0, [c].count 32, e', []⟩ =
      scanBytes rest (1 + w.length) ⟨0, 0, 0, [c].count 32, e', []⟩ := by
    intro e'
    refine scanBytes_skip rest 1 ?_
    intro x hx j
    have hspace : x ≠ 32 := ne_of_mem_of_not_mem hx hw
    have hfew : (([c].count 32 : Nat) : Int) ≠ 4 := by
      have := count_le_one c
      omega
    simp [scanRequestStep, hspace, hfew]
  rw [Int.add_comm (w.length : Int)]
  by_cases hc : c = 32
  · subst hc
    refine ⟨1, ?_⟩
    rw [← hpass]
    exact scanBytes_cons _ (by simp [scanRequestStep])
  · refine ⟨e, ?_⟩
    rw [← hpass, List.count_singleton, if_neg (by simpa using hc)]
    exact scanBytes_cons _ (by simp [scanRequestStep, hc])

/-- Within the key it counts a space at the first byte only. -/
theorem scanBytes_keyWord {n k : Nat} (hn : 0 < n) (hk : k ≤ 2) {c : UInt8} {w : List UInt8}
    (hspace : (32 : UInt8) ∉ w) (hreturn : (13 : UInt8) ∉ w) (rest : List UInt8) :
    scanBytes (c :: (w ++ rest)) (n + 1) ⟨n, 0, 0, k, n + 1, []⟩ =
      scanBytes rest (n + 1 + (w.length + 1)) ⟨n, 0, 0, (k + [c].count 32 : Nat), n + 1, []⟩ := by
  have hpass : scanBytes (w ++ rest) (n + 1 + 1) ⟨n, 0, 0, (k + [c].count 32 : Nat), n + 1, []⟩ =
      scanBytes rest (n + 1 + 1 + w.length) ⟨n, 0, 0, (k + [c].count 32 : Nat), n + 1, []⟩ := by
    refine scanBytes_skip rest _ ?_
    intro x hx j
    have hspace' : x ≠ 32 := ne_of_mem_of_not_mem hx hspace
    have hreturn' : x ≠ 13 := ne_of_mem_of_not_mem hx hreturn
    have hfew : ((k + [c].count 32 : Nat) : Int) ≠ 4 := by
      have := count_le_one c
      omega
    simp only [scanRequestStep, hspace', hreturn', hfew, and_false, false_and, if_false,
      lt_irrefl, gt_iff_lt]
  have hpos : (n : Int) + 1 + 1 + w.length = n + 1 + (w.length + 1) := by omega
  rw [← hpos, ← hpass]
  apply scanBytes_cons
  have hn' : n ≠ 0 := by omega
  have hfew : (k : Int) ≠ 4 := by omega
  by_cases hc : c = 32
  · subst hc
    simp [scanRequestStep, hn']
  · by_cases hret : c = 13
    · subst hret
      simp [scanRequestStep, hn']
    · simp [scanRequestStep, hc, hret, hfew]

/-- The byte that ends the key. -/
theorem scanBytes_keyEnd {n k : Nat} (hn : 0 < n) {x : UInt8} (hx : x = 32 ∨ x = 13) (j : Int)
    (more : List UInt8) :
    scanBytes (x :: more) j ⟨n, 0, 0, k, n + 1, []⟩ =
      scanBytes more (j + 1) ⟨n, j - (n + 1), 0, (k + [x].count 32 : Nat), n + 1, []⟩ := by
  apply scanBytes_cons
  have hn' : n ≠ 0 := by omega
  rcases hx with rfl | rfl
  · simp [scanRequestStep, hn, hn']
  · simp [scanRequestStep, hn]

theorem upToKey_eq {t head : List UInt8} (h : t = head ++ behindKey t) : upToKey t = head := by
  have hlen : t.length - (behindKey t).length = head.length := by
    have := congrArg List.length h
    rw [List.length_append] at this
    omega
  rw [upToKey, hlen]
  nth_rewrite 1 [h]
  rw [List.take_left]

/-- A word has a space at its first byte only. -/
theorem count_word {c : UInt8} {w : List UInt8} (hw : (32 : UInt8) ∉ w) :
    (c :: w).count 32 = [c].count 32 := by
  rw [List.count_cons, List.count_eq_zero_of_not_mem hw, List.count_singleton, Nat.zero_add]

/-- The walk where the key does not end. -/
theorem walk_request_cut {t : List UInt8} (hkey : behindKey t = []) (hfew : t.count 32 < 4) :
    passedDigits t = [] ∧ lineLength t = 0 := by
  have hwhole : upToKey t = t := upToKey_eq (by rw [hkey, List.append_nil])
  constructor
  · rw [passedDigits, hkey, hwhole, scanned_nil, List.append_nil, behindSpaces_few hfew,
      List.filter_nil]
  · rw [lineLength, hkey, lineEnd_nil]

/-- The byte that ends the key may be one of the spaces. -/
theorem behindSpaces_pastKey {head : List UInt8} {x : UInt8} (hx : x = 32 ∨ x = 13) {m : Nat}
    (hfew : head.count 32 < 4) (hm : m + (head.count 32 + [x].count 32) = 4) (t : List UInt8) :
    behindSpaces 4 (head ++ x :: t) = behindSpaces m t := by
  rw [behindSpaces_append hfew]
  rcases hx with rfl | rfl
  · rw [List.count_singleton_self] at hm
    rw [show 4 - head.count 32 = m + 1 by omega, behindSpaces_space]
  · have hzero : [(13 : UInt8)].count 32 = 0 := by decide
    rw [hzero] at hm
    obtain ⟨m, rfl⟩ : ∃ m', m = m' + 1 := ⟨m - 1, by omega⟩
    rw [show 4 - head.count 32 = m + 1 by omega, behindSpaces_cons (by decide)]

section FromKey

variable {head r : List UInt8} {n : Nat} (hn : 0 < n) (hlen : head.length = n + 1)
  (hcount : head.count 32 ≤ 2)

include hn hlen hcount

/-- The walk from the key on, behind the bytes `head`, where `x` ends the key. -/
theorem scanBytes_endedKey {c x : UInt8} {w more : List UInt8} (hspace : (32 : UInt8) ∉ w)
    (hreturn : (13 : UInt8) ∉ w) (hx : x = 32 ∨ x = 13)
    (hkey : behindKey (head ++ c :: (w ++ x :: more)) = x :: more) :
    (scanBytes (c :: (w ++ x :: more)) (n + 1) ⟨n, 0, 0, head.count 32, n + 1, []⟩).2.digits =
        (passedDigits (head ++ c :: (w ++ x :: more))).take 10 ∧
      (scanBytes (c :: (w ++ x :: more)) (n + 1)
        ⟨n, 0, 0, head.count 32, n + 1, []⟩).2.contentLen =
        lineLength (head ++ c :: (w ++ x :: more)) := by
  have hup : upToKey (head ++ c :: (w ++ x :: more)) = head ++ c :: w :=
    upToKey_eq (by rw [hkey, List.append_assoc, List.cons_append])
  have hfew : (head ++ c :: w).count 32 = head.count 32 + [c].count 32 := by
    rw [List.count_append, count_word hspace]
  have hc := count_le_one c
  have hx1 := count_le_one x
  have hlen' : ((head ++ c :: w).length : Int) = n + 1 + (w.length + 1) := by
    rw [List.length_append, hlen, List.length_cons]
    push_cast
    rfl
  -- the spaces that are still to come
  obtain ⟨m, hm⟩ : ∃ m : Nat, m + (head.count 32 + [c].count 32 + [x].count 32) = 4 :=
    ⟨4 - (head.count 32 + [c].count 32 + [x].count 32), by omega⟩
  have hsplits : ((head.count 32 + [c].count 32 + [x].count 32 : Nat) : Int) = 4 - m := by omega
  have hscan := scanBytes_keyWord hn hcount (c := c) hspace hreturn (x :: more)
  rw [scanBytes_keyEnd hn hx, hsplits] at hscan
  have hcmdPos : (0 : Int) < n := by omega
  have hkeyPos : (0 : Int) < n + 1 + (w.length + 1) - (n + 1) := by omega
  obtain ⟨splits, hrest⟩ := scanBytes_afterKey (e := n + 1) hcmdPos hkeyPos more m
    (n + 1 + (w.length + 1) + 1) (d := []) (Nat.zero_le 10)
  have hten : x ≠ 10 ∧ x ≠ 110 := by rcases hx with rfl | rfl <;> decide
  rw [hscan, hrest]
  constructor
  · rw [passedDigits, hup, hkey, scanned_cons hten.1 hten.2,
      behindSpaces_pastKey hx (by rw [hfew]; omega) (by rw [hfew]; exact hm), List.nil_append]
  · rw [lineLength, hup, hkey, lineEnd_cons hten.1 hten.2, hlen']

/-- The walk from the key on. -/
theorem scanBytes_fromKey
    (hkey : behindKey (head ++ r) = behindWord (fun c => c ≠ 32 ∧ c ≠ 13) r) :
    (scanBytes r (n + 1) ⟨n, 0, 0, head.count 32, n + 1, []⟩).2.digits =
        (passedDigits (head ++ r)).take 10 ∧
      (scanBytes r (n + 1) ⟨n, 0, 0, head.count 32, n + 1, []⟩).2.contentLen =
        lineLength (head ++ r) := by
  rcases behindWord_cases (fun c => c ≠ 32 ∧ c ≠ 13) r with
    ⟨hword, hbehind⟩ | ⟨c, w, x, more, rfl, hword, hx, hbehind⟩
  · -- nothing ends the key
    rw [hbehind] at hkey
    cases r with
    | nil =>
        obtain ⟨hpassed, hhead⟩ := walk_request_cut hkey (by rw [List.append_nil]; omega)
        rw [hpassed, hhead]
        exact ⟨rfl, rfl⟩
    | cons c w =>
        have hspace : (32 : UInt8) ∉ w := fun h => by simpa using hword 32 h
        have hreturn : (13 : UInt8) ∉ w := fun h => by simpa using hword 13 h
        have hscan := scanBytes_keyWord hn hcount (c := c) hspace hreturn []
        rw [List.append_nil] at hscan
        obtain ⟨hpassed, hhead⟩ := walk_request_cut hkey (by
          rw [List.count_append, count_word hspace]
          have := count_le_one c
          omega)
        rw [hscan, hpassed, hhead]
        exact ⟨rfl, rfl⟩
  · have hspace : (32 : UInt8) ∉ w := fun h => by simpa using hword 32 h
    have hreturn : (13 : UInt8) ∉ w := fun h => by simpa using hword 13 h
    have hends : x = 32 ∨ x = 13 := by
      by_contra hne
      rw [not_or] at hne
      simp [hne] at hx
    exact scanBytes_endedKey hn hlen hcount hspace hreturn hends (hkey.trans hbehind)

end FromKey

/-- **What the walk over a request keeps**: up to ten of the digits it passes. -/
theorem walk_request (t : List UInt8) (e : Int) :
    (scanBytes t 0 ⟨0, 0, 0, 0, e, []⟩).2.digits = (passedDigits t).take 10 ∧
      (scanBytes t 0 ⟨0, 0, 0, 0, e, []⟩).2.contentLen = lineLength t := by
  rcases behindWord_cases (fun c => c ≠ 32) t with
    ⟨hword, hbehind⟩ | ⟨c, w, x, r, rfl, hword, hx, hbehind⟩
  · -- no space ends the command
    have hkey : behindKey t = [] := by
      rw [behindKey, hbehind]
      rfl
    cases t with
    | nil => exact ⟨rfl, rfl⟩
    | cons c w =>
        have hw : (32 : UInt8) ∉ w := fun h => by simpa using hword 32 h
        obtain ⟨e', hscan⟩ := scanBytes_firstWord (c := c) hw [] e
        rw [List.append_nil] at hscan
        obtain ⟨hpassed, hhead⟩ := walk_request_cut hkey (by
          rw [count_word hw]
          have := count_le_one c
          omega)
        rw [hscan, hpassed, hhead]
        exact ⟨rfl, rfl⟩
  · have hw : (32 : UInt8) ∉ w := fun h => by simpa using hword 32 h
    obtain rfl : x = 32 := by simpa using hx
    have happend : c :: (w ++ 32 :: r) = (c :: w ++ [32]) ++ r := by simp
    have hcount : (c :: w ++ [32]).count 32 = [c].count 32 + 1 := by
      rw [List.count_append, count_word hw, List.count_singleton_self]
    have hkey : behindKey (c :: w ++ [32] ++ r) = behindWord (fun c => c ≠ 32 ∧ c ≠ 13) r := by
      rw [behindKey, ← happend, hbehind, List.tail_cons]
    have hrest := scanBytes_fromKey (n := w.length + 1) (Nat.succ_pos _) (by simp)
      (by rw [hcount]; have := count_le_one c; omega) hkey
    obtain ⟨e', hscan⟩ := scanBytes_firstWord (c := c) hw (32 :: r) e
    have hstep : scanRequestStep 32 (w.length + 1) ⟨0, 0, 0, [c].count 32, e', []⟩ =
        (false, ⟨(w.length + 1 : Nat), 0, 0, ([c].count 32 + 1 : Nat), (w.length + 1 : Nat) + 1, []⟩) := by
      simp [scanRequestStep]
    rw [hcount, ← happend, Nat.cast_succ] at hrest
    rw [hscan, scanBytes_cons r hstep, Nat.cast_succ w.length]
    exact hrest

/-! ## The length -/

/-- The value of a digit. -/
def digitOf (c : UInt8) : Nat := c.toNat - 48

/-- The digits from the first that is not zero on. -/
def significantDigits (ds : List UInt8) : List Nat := Numeral.significant (ds.map digitOf)

/-- The digits of a field: its first run of them. -/
def digitRun (field : List UInt8) : List UInt8 :=
  (field.dropWhile (fun c => !isDigitByte c)).takeWhile isDigitByte

/-- The field of a request that has the length of its data, behind the fourth space of
the line. -/
def requestField (t : List UInt8) : List UInt8 :=
  firstWord (behindSpaces 4 (t.takeWhile (fun c => c ≠ 10)))

/-- The field of a response that has it, behind the third. -/
def responseField (t : List UInt8) : List UInt8 := firstWord (behindSpaces 3 (respLine t))

theorem digitOf_lt {c : UInt8} (hc : isDigitByte c = true) : digitOf c < 10 := by
  simp only [isDigitByte, Bool.and_eq_true, decide_eq_true_eq, UInt8.le_iff_toNat_le] at hc
  have hhi : c.toNat ≤ 57 := hc.2
  unfold digitOf
  omega

theorem decimal_eq_value (ds : List UInt8) : decimal ds = Numeral.value 10 (ds.map digitOf) := by
  rw [Numeral.value, List.foldl_map]
  rfl

section Digits

variable {ds : List UInt8} (hds : ∀ c ∈ ds, isDigitByte c = true)

include hds

theorem map_digitOf_lt : ∀ d ∈ ds.map digitOf, d < 10 := by
  intro d hd
  obtain ⟨c, hc, rfl⟩ := List.mem_map.mp hd
  exact digitOf_lt (hds c hc)

theorem decimal_lt (hlen : ds.length < 10) : decimal ds < 1000000000 := by
  have hlt := Numeral.value_lt (by decide) (map_digitOf_lt hds)
  rw [List.length_map, ← decimal_eq_value] at hlt
  exact hlt.trans_le (Nat.pow_le_pow_right (by decide) (Nat.le_of_lt_succ hlen))

theorem decimal_eq_iff {es : List UInt8} (hes : ∀ c ∈ es, isDigitByte c = true) :
    decimal ds = decimal es ↔ significantDigits ds = significantDigits es := by
  rw [decimal_eq_value, decimal_eq_value]
  exact Numeral.value_eq_iff (by decide) (map_digitOf_lt hds) (map_digitOf_lt hes)

end Digits

theorem digitRun_digits (field : List UInt8) : ∀ c ∈ digitRun field, isDigitByte c = true :=
  fun _ hc => List.mem_takeWhile_imp hc

/-- A length is read safely: the writes to the array of ten bytes are within it, what is
obtained is the number in the field, and the length computed from it is an `int`. -/
structure ReadsLength (indices : List Nat) (obtained : Int) (field : List UInt8)
    (total : Int) : Prop where
  within : ∀ k ∈ indices, k < 10
  value : obtained = decimal (digitRun field)
  inRange : -2147483648 ≤ total ∧ total < 2147483648

/-- The digits that are passed are fewer than ten, and those of the field up to leading
zeros; and the number is not too large to be added to `rest`. -/
structure PlainLength (passed field : List UInt8) (rest : Int) : Prop where
  few : passed.length < 10
  same : significantDigits passed = significantDigits (digitRun field)
  short : rest + decimal (digitRun field) < 2147483648

/-- **When a length is read safely**, where up to ten of the digits passed are kept. -/
theorem readsLength_iff {indices : List Nat} {passed field kept : List UInt8} (rest : Int → Int)
    (hpassed : ∀ c ∈ passed, isDigitByte c = true) (hkept : kept = passed.take 10)
    (hindices : (∀ k ∈ indices, k < 10) ↔ kept.length < 10) (hrest : ∀ n, 0 ≤ rest n) :
    ReadsLength indices (atoi kept) field (rest (atoi kept) + atoi kept) ↔
      PlainLength passed field (rest (decimal (digitRun field))) := by
  have hlen : kept.length < 10 ↔ passed.length < 10 := by
    rw [hkept, List.length_take]
    omega
  -- fewer than ten digits are all kept, and their number is an int
  have hvalue : passed.length < 10 → atoi kept = decimal passed := by
    intro hfew
    have hlt := decimal_lt hpassed hfew
    rw [hkept, List.take_of_length_le hfew.le, atoi_eq_decimal hpassed,
      int32_eq_self (by omega) (by omega)]
  have hsame := decimal_eq_iff hpassed (digitRun_digits field)
  constructor
  · rintro ⟨hwithin, hnumber, -, hhi⟩
    have hfew := hlen.mp (hindices.mp hwithin)
    refine ⟨hfew, hsame.mp ?_, ?_⟩
    · rw [hvalue hfew] at hnumber
      exact_mod_cast hnumber
    · rwa [hnumber] at hhi
  · rintro ⟨hfew, hdigits, hhi⟩
    have hnumber : atoi kept = decimal (digitRun field) := by
      rw [hvalue hfew, hsame.mpr hdigits]
    refine ⟨hindices.mpr (hlen.mpr hfew), hnumber, ?_⟩
    rw [hnumber]
    have := hrest (decimal (digitRun field))
    omega

/-! ## The readers -/

/-- The walk of `try_read_request_text`. -/
def requestScan (data : ByteMem) (size : Int) (header : MemcachedHeader) : TextScan :=
  scanRequest data size.toNat 0 ⟨0, 0, 0, 0, header.extlen, []⟩

/-- The sum for `bodylen`, before it is an `int`. -/
def requestTotal (s : TextScan) : Int :=
  if atoi s.digits > 0 then s.contentLen + atoi s.digits + 2 else s.contentLen + atoi s.digits

/-- `try_read_request_text` reads the length safely. -/
def RequestLengthRead (data : ByteMem) (size : Int) (header : MemcachedHeader) : Prop :=
  ReadsLength
    (writes scanRequestStep TextScan.digits (data.slice 0 size.toNat) 0
      ⟨0, 0, 0, 0, header.extlen, []⟩)
    (atoi (requestScan data size header).digits)
    (requestField (data.slice 0 size.toNat))
    (requestTotal (requestScan data size header))

/-- The line of a request and its digits are plain: to the number are added the length of
the line and the two bytes behind data. -/
def PlainRequest (t : List UInt8) : Prop :=
  PlainLength (passedDigits t) (requestField t)
    (lineLength t + if 0 < (decimal (digitRun (requestField t)) : Int) then 2 else 0)

/-- The walk of `try_read_response_text`. -/
def responseScan (data : ByteMem) (size : Int) : Int × Int × List UInt8 :=
  scanResponse data size.toNat 0 (0, 0, [])

/-- The sum for `body_len`, before it is an `int`. -/
def responseTotal (s : Int × Int × List UInt8) : Int := s.1 + atoi s.2.2 + 7

/-- `try_read_response_text` reads a length, and does not take the response as it is. -/
def HasLength (data : ByteMem) (size : Int) : Prop :=
  ¬ (size < 5 ∨ startsWith data (asciiBytes "VALUE") = false)

/-- `try_read_response_text` reads the length safely, if it reads one. -/
def ResponseLengthRead (data : ByteMem) (size : Int) : Prop :=
  HasLength data size →
    ReadsLength
      (writes scanResponseStep (fun s => s.2.2) (data.slice 0 size.toNat) 0 (0, 0, []))
      (atoi (responseScan data size).2.2)
      (responseField (data.slice 0 size.toNat))
      (responseTotal (responseScan data size))

/-- The line of a response and its digits are plain: to the number are added the length
of the line and the seven bytes behind data. -/
def PlainResponse (t : List UInt8) : Prop :=
  PlainLength ((responseField t).filter isDigitByte) (responseField t)
    ((if 13 ∈ t then ((respLine t).length : Int) + 2 else 0) + 7)

/-- The header has the sum when the length is read safely. -/
theorem RequestLengthRead.bodylen {data : ByteMem} {size : Int} {header : MemcachedHeader}
    (h : RequestLengthRead data size header) :
    (tryReadRequestText data size header).2.bodylen =
      requestTotal (requestScan data size header) := by
  have hbody : (tryReadRequestText data size header).2.bodylen =
      int32 (requestTotal (requestScan data size header)) := by
    unfold requestTotal
    rw [apply_ite int32]
    rfl
  rw [hbody, int32_eq_self h.inRange.1 h.inRange.2]

/-- A response is waited for up to the sum. -/
theorem ResponseLengthRead.wait {data : ByteMem} {size : Int} (h : ResponseLengthRead data size)
    (hvalue : HasLength data size) (header : MemcachedHeader) :
    tryReadResponseText data size header =
      if size < responseTotal (responseScan data size) then (0, header)
      else (1, { header with bodylen := responseTotal (responseScan data size), opcode := 0 }) := by
  have hrange := (h hvalue).inRange
  have hread : tryReadResponseText data size header =
      if size < int32 (responseTotal (responseScan data size)) then (0, header)
      else (1, { header with
        bodylen := int32 (responseTotal (responseScan data size)), opcode := 0 }) := by
    unfold tryReadResponseText
    rw [if_neg hvalue]
    rfl
  rw [hread, int32_eq_self hrange.1 hrange.2]

theorem lineEnd_nonneg {i : Int} (hi : 0 ≤ i) (t : List UInt8) : 0 ≤ lineEnd i t := by
  unfold lineEnd
  split_ifs <;> omega

theorem filter_digits (t : List UInt8) : ∀ c ∈ t.filter isDigitByte, isDigitByte c = true :=
  fun _ hc => (List.mem_filter.mp hc).2

theorem requestLengthRead_iff (data : ByteMem) (size : Int) (header : MemcachedHeader)
    {t : List UInt8} (ht : data.slice 0 size.toNat = t) :
    RequestLengthRead data size header ↔ PlainRequest t := by
  have hwalk : requestScan data size header =
      walk scanRequestStep t 0 ⟨0, 0, 0, 0, header.extlen, []⟩ := by
    rw [requestScan, scanRequest_eq_walk, ht]
  obtain ⟨hdigits, hcontent⟩ := walk_request t header.extlen
  rw [← walk_eq_scanBytes, ← hwalk] at hdigits hcontent
  have htotal : requestTotal (requestScan data size header) =
      (lineLength t + if 0 < atoi (requestScan data size header).digits then 2 else 0) +
        atoi (requestScan data size header).digits := by
    rw [requestTotal, hcontent]
    split_ifs <;> omega
  have hindices := writes_lt_iff scanRequestStep_grows t 0
    ⟨0, 0, 0, 0, header.extlen, []⟩ 10
  rw [← hwalk] at hindices
  rw [RequestLengthRead, ht, htotal]
  refine readsLength_iff (fun n => lineLength t + if 0 < n then 2 else 0)
    (filter_digits _) hdigits hindices ?_
  intro n
  have hhead : 0 ≤ lineLength t := lineEnd_nonneg (Int.natCast_nonneg _) _
  split_ifs <;> omega

example : RequestLengthRead (ByteMem.ofList (asciiBytes "set a 0 0 3\r\n") (fun _ => 0)) 13
    ⟨0, 0, 0, 0⟩ :=
  (requestLengthRead_iff _ _ _ (ByteMem.slice_ofList _ _)).mpr ⟨by decide, by decide, by decide⟩

theorem responseLengthRead_iff (data : ByteMem) (size : Int) {t : List UInt8}
    (ht : data.slice 0 size.toNat = t) :
    ResponseLengthRead data size ↔ (HasLength data size → PlainResponse t) := by
  have hwalk : responseScan data size = walk scanResponseStep t 0 (0, 0, []) := by
    rw [responseScan, scanResponse_eq_walk, ht]
  have hdigits := walk_response t 3 0
  have hzero : (3 : Int) - ((3 : Nat) : Int) = 0 := rfl
  rw [hzero, ← hwalk] at hdigits
  have hcontent := walk_response_contentLen t 0 0 []
  rw [← hwalk, Int.zero_add] at hcontent
  have htotal : responseTotal (responseScan data size) =
      ((if 13 ∈ t then ((respLine t).length : Int) + 2 else 0) + 7) +
        atoi (responseScan data size).2.2 := by
    rw [responseTotal, hcontent]
    omega
  have hindices := writes_lt_iff scanResponseStep_grows t 0 (0, 0, []) 10
  rw [← hwalk] at hindices
  rw [ResponseLengthRead, ht, htotal]
  refine imp_congr_right fun _ => ?_
  refine readsLength_iff (fun _ => (if 13 ∈ t then ((respLine t).length : Int) + 2 else 0) + 7)
    (filter_digits _) hdigits hindices ?_
  intro n
  split_ifs <;> omega

/-- **When the lengths are read safely**, for every buffer. -/
theorem lengths_read_iff (data : ByteMem) (size : Int) (header : MemcachedHeader) :
    (RequestLengthRead data size header ↔ PlainRequest (data.slice 0 size.toNat)) ∧
      (ResponseLengthRead data size ↔
        (HasLength data size → PlainResponse (data.slice 0 size.toNat))) :=
  ⟨requestLengthRead_iff data size header rfl, responseLengthRead_iff data size rfl⟩

/-- Ten digits: the terminator goes behind the array. -/
theorem ten_digits_unterminated :
    ¬ RequestLengthRead (ByteMem.ofList (asciiBytes "set a 0 0 1000000000\r\n") (fun _ => 0)) 22
      ⟨0, 0, 0, 0⟩ := by
  intro h
  have hten : 10 < 10 := h.within 10 (by decide)
  exact lt_irrefl 10 hten

end KvProxy
