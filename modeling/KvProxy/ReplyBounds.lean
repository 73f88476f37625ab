import KvProxy.Encode

/-!
# The reply buffer

`create_resp` tests before every copy whether the content still fits the
client's buffer.  The sum it tests is unsigned for an item of the list and
signed for the end item, and it wraps; and where the test fails, `*length`
keeps the count of what was copied before, which `talkToBackend` then takes for
the length of the reply.

* `createResp_agree` — a byte that has been copied over does not depend on what
  the buffer held;
* `reply_all_or_nothing_iff` — the replies for which nothing is written behind
  the buffer and nothing is sent of a reply that does not fit.
-/

namespace KvProxy

open MachineInt

/-- A call of `create_resp` on an empty reply writes within the buffer, leaves
the whole reply when it succeeds and no reply when it does not. -/
structure AllOrNothing (originResp : ByteMem) (respData : List Resp) (size : Int) : Prop where
  bounded : ∀ buf p, size ≤ p → (createResp originResp respData buf 0 size).2.1 p = buf p
  whole : ∀ buf, (createResp originResp respData buf 0 size).1 = .success →
    (createResp originResp respData buf 0 size).2.2 =
        (payload (respItems originResp respData)).length ∧
      (createResp originResp respData buf 0 size).2.1.slice 0
        (payload (respItems originResp respData)).length = payload (respItems originResp respData)
  nothing : ∀ buf, (createResp originResp respData buf 0 size).1 = .error →
    (createResp originResp respData buf 0 size).2.2 = 0

/-- The first content that is copied does not fit: the first one without the
mark that is not empty, or, with none, that of the last item with the mark,
which then is shorter than `2 ^ 31`. -/
def Oversized (size : Int) (respData : List Resp) : Prop :=
  match (respData.filter (fun r => r.ext ≠ endMark ∧ r.contentLen ≠ 0)).head? with
  | some r => size < r.contentLen
  | none => ∃ r, (respData.filter (fun r => r.ext = endMark)).getLast? = some r ∧
      size < r.contentLen ∧ r.contentLen < 2147483648

/-! ## Copies and what was there before -/

/-- A copy writes the same bytes into any two buffers. -/
theorem write_agree {a b : ByteMem} {i : Int} (h : a i = b i) (p : Int) (bytes : List UInt8) :
    a.write p bytes i = b.write p bytes i := by
  simp only [ByteMem.write, h]

/-- A copied byte is the same in any two buffers. -/
theorem write_agree_of_mem (a b : ByteMem) {p i : Int} (bytes : List UInt8) (hlo : p ≤ i)
    (hhi : i < p + bytes.length) : a.write p bytes i = b.write p bytes i := by
  apply Option.some.inj
  rw [ByteMem.write_of_mem a bytes hlo hhi, ByteMem.write_of_mem b bytes hlo hhi]

section Agree

variable (originResp : ByteMem) (size : Int)

/-- Two runs of the loop on buffers that agree at a byte agree there at the end,
and in everything else. -/
theorem createRespLoop_agree {i : Int} (respData : List Resp) (length content len : Int)
    {a b : ByteMem} (h : a i = b i) :
    ∃ code length' content' len', ∃ a' b' : ByteMem, a' i = b' i ∧
      createRespLoop originResp size respData ⟨a, length, content, len⟩ =
        (code, ⟨a', length', content', len'⟩) ∧
      createRespLoop originResp size respData ⟨b, length, content, len⟩ =
        (code, ⟨b', length', content', len'⟩) := by
  induction respData generalizing a b length content len with
  | nil => exact ⟨.success, length, content, len, a, b, h, rfl, rfl⟩
  | cons r rest ih =>
      simp only [createRespLoop]
      split_ifs
      · exact ⟨.error, length, content, len, a, b, h, rfl, rfl⟩
      · exact ih _ _ _ (write_agree h _ _)
      · exact ih _ _ _ h

/-- The part of `create_resp` behind its loop. -/
def respEnd (r : ExtRet × RespOut) : ExtRet × ByteMem × Int :=
  if r.1 = .error then (.error, r.2.buf, r.2.length)
  else if r.2.endLen ≠ 0 then
    if int32 (r.2.length + r.2.endLen) > size then (.error, r.2.buf, r.2.length)
    else (.success,
      r.2.buf.write r.2.length (originResp.slice r.2.endContent (sizeT r.2.endLen)),
      int32 (r.2.length + r.2.endLen))
  else (.success, r.2.buf, r.2.length)

theorem createResp_eq_respEnd (respData : List Resp) (buf : ByteMem) (length : Int) :
    createResp originResp respData buf length size =
      respEnd originResp size
        (createRespLoop originResp size respData ⟨buf, length, 0, 0⟩) := rfl

/-- The end item is copied. -/
theorem respEnd_copies {o : RespOut} (hsome : o.endLen ≠ 0)
    (htest : ¬ int32 (o.length + o.endLen) > size) :
    respEnd originResp size (.success, o) =
      (.success, o.buf.write o.length (originResp.slice o.endContent (sizeT o.endLen)),
        int32 (o.length + o.endLen)) := by
  unfold respEnd
  dsimp only
  rw [if_neg (by decide), if_pos hsome, if_neg htest]

/-- The end item does not fit. -/
theorem respEnd_unfit {o : RespOut} (hsome : o.endLen ≠ 0)
    (htest : int32 (o.length + o.endLen) > size) :
    respEnd originResp size (.success, o) = (.error, o.buf, o.length) := by
  unfold respEnd
  dsimp only
  rw [if_neg (by decide), if_pos hsome, if_pos htest]

theorem respEnd_agree {i : Int} {code : ExtRet} {length content len : Int} {a b : ByteMem}
    (h : a i = b i) :
    (respEnd originResp size (code, ⟨a, length, content, len⟩)).2.1 i =
      (respEnd originResp size (code, ⟨b, length, content, len⟩)).2.1 i := by
  unfold respEnd
  dsimp only
  split_ifs
  · exact h
  · exact h
  · exact write_agree h _ _
  · exact h

/-- A byte that all buffers have in common once the loop is at some item, they
have in common at the end. -/
theorem createResp_agree {i : Int} {respData : List Resp} {length content len : Int}
    {a b : ByteMem} (h : a i = b i) :
    (respEnd originResp size
        (createRespLoop originResp size respData ⟨a, length, content, len⟩)).2.1 i =
      (respEnd originResp size
        (createRespLoop originResp size respData ⟨b, length, content, len⟩)).2.1 i := by
  obtain ⟨code, length', content', len', a', b', hab, ha, hb⟩ :=
    createRespLoop_agree originResp size respData length content len h
  rw [ha, hb]
  exact respEnd_agree originResp size hab

end Agree

/-! ## The item that does not fit -/

/-- The loop goes on behind items that were all copied. -/
theorem createRespLoop_append {originResp : ByteMem} {size : Int} {before : List Resp}
    {o o' : RespOut} (h : createRespLoop originResp size before o = (.success, o'))
    (rest : List Resp) :
    createRespLoop originResp size (before ++ rest) o = createRespLoop originResp size rest o' := by
  induction before generalizing o with
  | nil =>
      obtain rfl : o = o' := congrArg Prod.snd h
      rfl
  | cons r before ih =>
      rw [List.cons_append]
      simp only [createRespLoop] at h ⊢
      split_ifs at h ⊢
      · exact absurd (congrArg Prod.fst h) (by simp)
      · exact ih h
      · exact ih h

/-- The length of the contents without the mark. -/
def unmarkedLen : List Resp → Nat
  | [] => 0
  | r :: rest => (if r.ext ≠ endMark then r.contentLen else 0) + unmarkedLen rest

theorem unmarkedLen_cons (r : Resp) (rest : List Resp) :
    unmarkedLen (r :: rest) = (if r.ext ≠ endMark then r.contentLen else 0) + unmarkedLen rest :=
  rfl

theorem length_unmarked (originResp : ByteMem) (respData : List Resp) :
    (unmarked (respItems originResp respData)).length = unmarkedLen respData := by
  induction respData with
  | nil => rfl
  | cons r rest ih =>
      have hbytes : (r.bytes originResp).length = r.contentLen := ByteMem.length_slice _ _ _
      rw [unmarkedLen_cons, ← ih]
      by_cases hmark : r.ext = endMark
      · simp [unmarked, respItems, hmark]
      · simp [unmarked, respItems, hmark, hbytes]

/-- Among contents that are together too long there is a first one that does
not fit. -/
theorem exists_first_unfit {size : Nat} {respData : List Resp} {length : Nat}
    (hlen : length ≤ size) (hlong : size < length + unmarkedLen respData) :
    ∃ before r rest, respData = before ++ r :: rest ∧ r.ext ≠ endMark ∧
      length + unmarkedLen before ≤ size ∧
      size < length + unmarkedLen before + r.contentLen := by
  induction respData generalizing length with
  | nil =>
      rw [show unmarkedLen [] = 0 from rfl] at hlong
      omega
  | cons r rest ih =>
      rw [unmarkedLen_cons] at hlong
      by_cases hhere : r.ext ≠ endMark ∧ size < length + r.contentLen
      · exact ⟨[], r, rest, rfl, hhere.1, hlen, hhere.2⟩
      · have hnext : length + (if r.ext ≠ endMark then r.contentLen else 0) ≤ size := by
          split_ifs with hmark
          · exact Nat.le_of_not_lt (fun h => hhere ⟨hmark, h⟩)
          · exact hlen
        obtain ⟨before, r', rest', rfl, hmark, hfit, hunfit⟩ := ih hnext (by omega)
        refine ⟨r :: before, r', rest', rfl, hmark, ?_, ?_⟩
        · rw [unmarkedLen_cons]
          omega
        · rw [unmarkedLen_cons]
          omega

section Unfit

variable {originResp : ByteMem} {size : Int} {before rest : List Resp} {r : Resp}
  (hsize : size < 2147483648) (hfit : (unmarkedLen before : Int) ≤ size)

include hsize hfit

/-- The loop comes to an item behind those that fit. -/
theorem createRespLoop_at (buf : ByteMem) :
    createRespLoop originResp size (before ++ r :: rest) ⟨buf, 0, 0, 0⟩ =
      createRespLoop originResp size (r :: rest)
        ⟨buf.write 0 (unmarked (respItems originResp before)), unmarkedLen before,
          (endOf before ⟨buf, 0, 0, 0⟩).1, (endOf before ⟨buf, 0, 0, 0⟩).2⟩ := by
  have hloop := createRespLoop_eq originResp hsize before ⟨buf, 0, 0, 0⟩ (Int.le_refl 0)
    (by rw [length_unmarked]; simpa using hfit)
  rw [length_unmarked, Int.zero_add] at hloop
  exact createRespLoop_append hloop (r :: rest)

variable (hmark : r.ext ≠ endMark)

include hmark

/-- An item that does not fit, and whose length does not wrap, ends the loop
with what was copied before. -/
theorem createResp_unfit (hunfit : size < unmarkedLen before + r.contentLen)
    (hwrap : unmarkedLen before + r.contentLen < 4294967296) (buf : ByteMem) :
    createResp originResp (before ++ r :: rest) buf 0 size =
      (.error, buf.write 0 (unmarked (respItems originResp before)), (unmarkedLen before : Int)) := by
  have hsum := uint32_eq_self (x := (unmarkedLen before : Int) + r.contentLen) (by omega) (by omega)
  have hcap := uint32_eq_self (x := size) (by omega) (by omega)
  have htest : uint32 ((unmarkedLen before : Int) + r.contentLen) > uint32 size := by omega
  rw [createResp_eq_respEnd, createRespLoop_at hsize hfit, createRespLoop, if_pos hmark,
    if_pos htest]
  rfl

/-- One whose length does wrap is copied over the end of the buffer. -/
theorem createResp_wraps (hlen : r.contentLen < 4294967296)
    (hwrap : 4294967296 ≤ unmarkedLen before + r.contentLen) (a b : ByteMem) :
    (createResp originResp (before ++ r :: rest) a 0 size).2.1 size =
      (createResp originResp (before ++ r :: rest) b 0 size).2.1 size := by
  have htest : ¬ uint32 ((unmarkedLen before : Int) + r.contentLen) > uint32 size := by
    unfold uint32
    omega
  have hcopied : (r.bytes originResp).length = r.contentLen := ByteMem.length_slice _ _ _
  have hend : ∀ buf : ByteMem, endOf before ⟨buf, 0, 0, 0⟩ = endOf before ⟨a, 0, 0, 0⟩ :=
    fun _ => rfl
  rw [createResp_eq_respEnd, createResp_eq_respEnd, createRespLoop_at hsize hfit,
    createRespLoop_at hsize hfit, hend b, createRespLoop, createRespLoop, if_pos hmark,
    if_pos hmark, if_neg htest, if_neg htest]
  have hcovers : size < (unmarkedLen before : Int) + (r.bytes originResp).length := by omega
  exact createResp_agree originResp size (write_agree_of_mem _ _ _ hfit hcovers)

end Unfit

/-! ## The end item -/

/-- The contents without the mark fit: what is left is the end item. -/
theorem createResp_copied {originResp : ByteMem} {size : Int} (hsize : size < 2147483648)
    {respData : List Resp} (hfit : (unmarkedLen respData : Int) ≤ size) (buf : ByteMem) :
    createResp originResp respData buf 0 size =
      respEnd originResp size (.success,
        ⟨buf.write 0 (unmarked (respItems originResp respData)), unmarkedLen respData,
          (endOf respData ⟨buf, 0, 0, 0⟩).1, (endOf respData ⟨buf, 0, 0, 0⟩).2⟩) := by
  have hloop := createRespLoop_eq originResp hsize respData ⟨buf, 0, 0, 0⟩ (Int.le_refl 0)
    (by rw [length_unmarked]; simpa using hfit)
  rw [length_unmarked, Int.zero_add] at hloop
  rw [createResp_eq_respEnd, hloop]

theorem length_lastMarked (originResp : ByteMem) {respData : List Resp} {r : Resp}
    (hlast : (respData.filter (fun r => r.ext = endMark)).getLast? = some r) :
    (lastMarked (respItems originResp respData)).length = r.contentLen := by
  have hbytes : lastMarked (respItems originResp respData) = r.bytes originResp := by
    simp only [lastMarked, respItems, List.filter_map, List.getLast?_map, Option.map_map]
    have hmarked : (respData.filter ((fun it : Item => decide (it.1 = endMark)) ∘
        fun r => (r.ext, r.bytes originResp))).getLast? = some r := hlast
    rw [hmarked]
    rfl
  rw [hbytes]
  exact ByteMem.length_slice _ _ _

theorem lastMarked_none (originResp : ByteMem) {respData : List Resp}
    (hlast : (respData.filter (fun r => r.ext = endMark)).getLast? = none) :
    lastMarked (respItems originResp respData) = [] := by
  simp only [lastMarked, respItems, List.filter_map, List.getLast?_map, Option.map_map]
  have hmarked : (respData.filter ((fun it : Item => decide (it.1 = endMark)) ∘
      fun r => (r.ext, r.bytes originResp))).getLast? = none := hlast
  rw [hmarked]
  rfl

/-- The count that a copy of an `int` length makes of a 32-bit length is not
below it. -/
theorem le_sizeT_int32 {n : Nat} (h : n < 4294967296) : n ≤ sizeT (int32 n) := by
  unfold sizeT int32
  omega

section End

variable {originResp : ByteMem} {size : Int} {respData : List Resp} {r : Resp}
  (hsize : size < 2147483648) (hfit : (unmarkedLen respData : Int) ≤ size)
  (hlast : (respData.filter (fun r => r.ext = endMark)).getLast? = some r)
  (hunfit : size < unmarkedLen respData + r.contentLen)

include hsize hfit hlast hunfit

/-- An end item that does not fit, and whose length does not wrap, leaves what
was copied before. -/
theorem createResp_end_unfit (hwrap : unmarkedLen respData + r.contentLen < 2147483648)
    (buf : ByteMem) :
    createResp originResp respData buf 0 size =
      (.error, buf.write 0 (unmarked (respItems originResp respData)),
        (unmarkedLen respData : Int)) := by
  have hlen := int32_eq_self (x := (r.contentLen : Int)) (by omega) (by omega)
  have hsum := int32_eq_self (x := (unmarkedLen respData : Int) + r.contentLen) (by omega) (by omega)
  have hend : endOf respData ⟨buf, 0, 0, 0⟩ = (r.content, (r.contentLen : Int)) := by
    simp only [endOf, hlast, hlen]
  have hsome : (r.contentLen : Int) ≠ 0 := by omega
  have htest : int32 ((unmarkedLen respData : Int) + r.contentLen) > size := by
    rw [hsum]
    omega
  rw [createResp_copied hsize hfit, hend]
  exact respEnd_unfit originResp size hsome htest

/-- One whose length does wrap is copied over the end of the buffer. -/
theorem createResp_end_wraps (hlen : r.contentLen < 4294967296)
    (hwrap : 2147483648 ≤ unmarkedLen respData + r.contentLen) (a b : ByteMem) :
    (createResp originResp respData a 0 size).2.1 size =
      (createResp originResp respData b 0 size).2.1 size := by
  have hend : ∀ buf : ByteMem, endOf respData ⟨buf, 0, 0, 0⟩ = (r.content, int32 r.contentLen) := by
    intro buf
    simp only [endOf, hlast]
  have hsome : int32 r.contentLen ≠ 0 := by
    unfold int32
    omega
  have htest : ¬ int32 ((unmarkedLen respData : Int) + int32 r.contentLen) > size := by
    unfold int32
    omega
  have hcovers : size < (unmarkedLen respData : Int) +
      (originResp.slice r.content (sizeT (int32 r.contentLen))).length := by
    have hcopied := le_sizeT_int32 hlen
    rw [ByteMem.length_slice]
    omega
  have hcopies : ∀ buf : ByteMem, (createResp originResp respData buf 0 size).2.1 =
      (buf.write 0 (unmarked (respItems originResp respData))).write (unmarkedLen respData)
        (originResp.slice r.content (sizeT (int32 r.contentLen))) := by
    intro buf
    rw [createResp_copied hsize hfit, hend]
    exact congrArg (fun x => x.2.1) (respEnd_copies originResp size
      (o := ⟨_, unmarkedLen respData, r.content, int32 r.contentLen⟩) hsome htest)
  rw [hcopies, hcopies]
  exact write_agree_of_mem _ _ _ hfit hcovers

end End

/-! ## All or nothing -/

/-- A byte of the buffer's end that does not depend on the buffer has been
written. -/
theorem not_bounded_of_agree {originResp : ByteMem} {respData : List Resp} {size : Int}
    (h : ∀ a b, (createResp originResp respData a 0 size).2.1 size =
      (createResp originResp respData b 0 size).2.1 size) :
    ¬ AllOrNothing originResp respData size := by
  intro hall
  have hzero := hall.bounded (fun _ => 0) size (Int.le_refl _)
  have hone := hall.bounded (fun _ => 1) size (Int.le_refl _)
  rw [h (fun _ => 0) (fun _ => 1), hone] at hzero
  exact absurd hzero (by decide)

/-- A failure with nothing copied. -/
theorem allOrNothing_of_error {originResp : ByteMem} {respData : List Resp} {size : Int}
    (h : ∀ buf, createResp originResp respData buf 0 size = (.error, buf, 0)) :
    AllOrNothing originResp respData size where
  bounded buf p _ := by rw [h]
  whole buf hsuccess := by
    rw [h] at hsuccess
    exact absurd hsuccess (by simp)
  nothing buf _ := by rw [h]

theorem length_payload (originResp : ByteMem) (respData : List Resp) :
    (payload (respItems originResp respData)).length =
      unmarkedLen respData + (lastMarked (respItems originResp respData)).length := by
  rw [payload, List.length_append, length_unmarked]

/-- Contents that make up no bytes are empty. -/
theorem unmarkedLen_eq_zero_iff (respData : List Resp) :
    unmarkedLen respData = 0 ↔
      respData.filter (fun r => r.ext ≠ endMark ∧ r.contentLen ≠ 0) = [] := by
  induction respData with
  | nil => simp [unmarkedLen]
  | cons r rest ih =>
      rw [unmarkedLen_cons, Nat.add_eq_zero_iff, ih]
      by_cases hmark : r.ext = endMark
      · simp [hmark]
      · by_cases hempty : r.contentLen = 0
        · simp [hmark, hempty]
        · simp [hmark, hempty]

theorem write_unmarked_nil (originResp : ByteMem) {respData : List Resp}
    (h : unmarkedLen respData = 0) (buf : ByteMem) :
    buf.write 0 (unmarked (respItems originResp respData)) = buf := by
  have hnil : unmarked (respItems originResp respData) = [] := by
    rw [← List.length_eq_zero_iff, length_unmarked, h]
  rw [hnil, ByteMem.write_nil]

section Reply

variable {originResp : ByteMem} {respData : List Resp} {size : Int} (hpos : 0 < size)
  (hsize : size < 2147483648)

include hsize

/-- A reply that fits. -/
theorem allOrNothing_of_fits
    (hfit : ((payload (respItems originResp respData)).length : Int) ≤ size) :
    AllOrNothing originResp respData size := by
  have heq : ∀ buf, createResp originResp respData buf 0 size =
      (.success, buf.write 0 (payload (respItems originResp respData)),
        ((payload (respItems originResp respData)).length : Int)) := by
    intro buf
    rw [createResp_eq originResp respData buf (Int.le_refl 0) hsize (by omega), Int.zero_add]
  refine ⟨?_, ?_, ?_⟩
  · intro buf p hp
    rw [heq]
    exact ByteMem.write_of_ge _ _ (by omega)
  · intro buf _
    rw [heq]
    exact ⟨rfl, ByteMem.slice_write_self _ _ _⟩
  · intro buf herror
    rw [heq] at herror
    exact absurd herror (by simp)

/-- An end item that makes the reply too long. -/
theorem oversized_of_end (hitems : ∀ r ∈ respData, r.contentLen < 4294967296)
    (hfit : (unmarkedLen respData : Int) ≤ size)
    (hlong : size < unmarkedLen respData + (lastMarked (respItems originResp respData)).length)
    (hall : AllOrNothing originResp respData size) : Oversized size respData := by
  cases hlast : (respData.filter (fun r => r.ext = endMark)).getLast? with
  | none =>
      rw [lastMarked_none originResp hlast, List.length_nil] at hlong
      omega
  | some r =>
      rw [length_lastMarked originResp hlast] at hlong
      have hlen := hitems r (List.mem_filter.mp (List.mem_of_getLast? hlast)).1
      rcases Nat.lt_or_ge (unmarkedLen respData + r.contentLen) 2147483648 with hplain | hwraps
      · have hnothing := hall.nothing (fun _ => 0)
        rw [createResp_end_unfit hsize hfit hlast hlong hplain] at hnothing
        have hzero : (unmarkedLen respData : Int) = 0 := hnothing rfl
        have hnone : unmarkedLen respData = 0 := by omega
        have hhead : (respData.filter
            (fun r => r.ext ≠ endMark ∧ r.contentLen ≠ 0)).head? = none := by
          rw [(unmarkedLen_eq_zero_iff respData).mp hnone, List.head?_nil]
        rw [Oversized, hhead]
        exact ⟨r, hlast, by omega, by omega⟩
      · exact absurd hall
          (not_bounded_of_agree (createResp_end_wraps hsize hfit hlast hlong hlen hwraps))

include hpos

/-- A reply of which nothing is copied. -/
theorem allOrNothing_of_oversized (hitems : ∀ r ∈ respData, r.contentLen < 4294967296)
    (hover : Oversized size respData) : AllOrNothing originResp respData size := by
  refine allOrNothing_of_error ?_
  intro buf
  unfold Oversized at hover
  cases hfilter : respData.filter (fun r => r.ext ≠ endMark ∧ r.contentLen ≠ 0) with
  | cons r tail =>
      rw [hfilter, List.head?_cons] at hover
      obtain ⟨before, rest, rfl, hbefore, hr, _⟩ := List.filter_eq_cons_iff.mp hfilter
      have hnone : unmarkedLen before = 0 := by
        rw [unmarkedLen_eq_zero_iff, List.filter_eq_nil_iff]
        exact hbefore
      have hmark : r.ext ≠ endMark := (of_decide_eq_true hr).1
      have hlen := hitems r (by simp)
      rw [createResp_unfit hsize (by omega) hmark (by omega) (by omega),
        write_unmarked_nil originResp hnone, hnone]
      rfl
  | nil =>
      rw [hfilter, List.head?_nil] at hover
      obtain ⟨r, hlast, hlong, hint⟩ := hover
      have hnone : unmarkedLen respData = 0 := (unmarkedLen_eq_zero_iff respData).mpr hfilter
      rw [createResp_end_unfit hsize (by omega) hlast (by omega) (by omega),
        write_unmarked_nil originResp hnone, hnone]
      rfl

/-- Contents without the mark that are together too long. -/
theorem oversized_of_unmarked (hitems : ∀ r ∈ respData, r.contentLen < 4294967296)
    (hlong : size < unmarkedLen respData) (hall : AllOrNothing originResp respData size) :
    Oversized size respData := by
  have hlong' : size.toNat < 0 + unmarkedLen respData := by omega
  obtain ⟨before, r, rest, rfl, hmark, hfit, hunfit⟩ :=
    exists_first_unfit (Nat.zero_le size.toNat) hlong'
  have hlen := hitems r (by simp)
  rw [Nat.zero_add] at hfit hunfit
  rcases Nat.lt_or_ge (unmarkedLen before + r.contentLen) 4294967296 with hplain | hwraps
  · have hnothing := hall.nothing (fun _ => 0)
    rw [createResp_unfit hsize (by omega) hmark (by omega) hplain] at hnothing
    have hzero : (unmarkedLen before : Int) = 0 := hnothing rfl
    have hnone : unmarkedLen before = 0 := by omega
    have hempty := (unmarkedLen_eq_zero_iff before).mp hnone
    have hsome : r.contentLen ≠ 0 := by omega
    have hhead : ((before ++ r :: rest).filter
        (fun r => r.ext ≠ endMark ∧ r.contentLen ≠ 0)).head? = some r := by
      rw [List.filter_append, hempty, List.nil_append,
        List.filter_cons_of_pos (by simp [hmark, hsome]), List.head?_cons]
    rw [Oversized, hhead]
    show size < r.contentLen
    omega
  · exact absurd hall
      (not_bounded_of_agree (createResp_wraps hsize (by omega) hmark hlen hwraps))

end Reply

/-- **All or nothing.**  `create_resp` keeps to the buffer and leaves a whole
reply or none exactly when the reply fits, or its first content alone does
not. -/
theorem reply_all_or_nothing_iff (originResp : ByteMem) {respData : List Resp}
    (hitems : ∀ r ∈ respData, r.contentLen < 4294967296) {size : Int} (hpos : 0 < size)
    (hsize : size < 2147483648) :
    AllOrNothing originResp respData size ↔
      ((payload (respItems originResp respData)).length : Int) ≤ size ∨
        Oversized size respData := by
  constructor
  · intro hall
    by_cases hfit : ((payload (respItems originResp respData)).length : Int) ≤ size
    · exact Or.inl hfit
    · right
      rw [length_payload] at hfit
      by_cases hunmarked : (unmarkedLen respData : Int) ≤ size
      · exact oversized_of_end hsize hitems hunmarked (by omega) hall
      · exact oversized_of_unmarked hpos hsize hitems (by omega) hall
  · rintro (hfit | hover)
    · exact allOrNothing_of_fits hsize hfit
    · exact allOrNothing_of_oversized hpos hsize hitems hover

/-- Two responses of ten bytes. -/
def twoResponses : List Resp := [⟨0, 10, 0⟩, ⟨10, 10, 0⟩]

/-- They fit a buffer of twenty bytes. -/
theorem two_responses_whole : AllOrNothing (fun _ => 1) twoResponses 20 := by
  refine (reply_all_or_nothing_iff _ (by decide) (by decide) (by decide)).mpr (Or.inl ?_)
  decide

/-- **A truncated reply.**  In a buffer of fifteen bytes the second response does
not fit; `create_resp` fails, and the length it leaves is that of the first. -/
theorem first_response_left :
    (createResp (fun _ => 1) twoResponses (fun _ => 0) 0 15).1 = .error ∧
    (createResp (fun _ => 1) twoResponses (fun _ => 0) 0 15).2.2 = 10 ∧
    ¬ AllOrNothing (fun _ => 1) twoResponses 15 := by
  have hcode : (createResp (fun _ => 1) twoResponses (fun _ => 0) 0 15).1 = .error := by
    decide +kernel
  have hlength : (createResp (fun _ => 1) twoResponses (fun _ => 0) 0 15).2.2 = 10 := by
    decide +kernel
  refine ⟨hcode, hlength, ?_⟩
  intro hall
  have hzero := hall.nothing _ hcode
  rw [hlength] at hzero
  exact absurd hzero (by decide)

end KvProxy
