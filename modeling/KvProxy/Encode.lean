import KvProxy.Extension

/-!
# Writing requests and responses

`CREATE_REQ`, `CREATE_REQ_ASYNC` and `CREATE_RESP` of `memcached.cpp`.  All
three append the contents of their items to a buffer at its current length,
and move the content of the last item marked `'e'` behind all the others.

The two request writers test no bound, and their lengths are naturals here:
an `int` sum of lengths would wrap only where the copy has long left the
buffer.  `create_resp` does test a bound, on a sum of an `int` and a
`uint32_t`, and keeps the machine arithmetic.

* `appendItems_eq` — a writer copies `payload` to the end of the buffer;
* `createResp_eq` — so does `create_resp` as long as everything fits.
-/

namespace KvProxy

open MachineInt

/-- An item as a writer sees it: the first byte of `ext`, and the content. -/
abbrev Item := UInt8 × List UInt8

/-- The locals of a request writer; `endStr` stands for `end_str` and `end_len`. -/
structure WriteState where
  buf : ByteMem
  length : Nat
  endStr : List UInt8

/-- One iteration: copy the content, or keep it for the end. -/
def appendItem (o : WriteState) (it : Item) : WriteState :=
  if it.1 ≠ endMark then
    { o with buf := o.buf.write o.length it.2, length := o.length + it.2.length }
  else { o with endStr := it.2 }

/-- The body shared by `create_req` and `create_req_async`. -/
def appendItems (items : List Item) (buf : ByteMem) (length : Nat) : ByteMem × Nat :=
  let o := items.foldl appendItem ⟨buf, length, []⟩
  if o.endStr.length ≠ 0 then
    (o.buf.write o.length o.endStr, o.length + o.endStr.length)
  else (o.buf, o.length)

/-- `create_req`, which always returns `SUCCESS`. -/
def createReq (originReq : ByteMem) (reqData : List Req) : ByteMem → Nat → ByteMem × Nat :=
  appendItems (reqData.map (fun r => (r.ext, r.bytes originReq)))

/-- `create_req_async`, which always returns `SUCCESS`. -/
def createReqAsync (reqData : List Comm) : ByteMem → Nat → ByteMem × Nat :=
  appendItems (reqData.map (fun c => (c.ext, c.content)))

/-- The contents without the mark. -/
def unmarked (items : List Item) : List UInt8 :=
  (items.filter (fun it => it.1 ≠ endMark)).flatMap Prod.snd

/-- The content of the last item with the mark. -/
def lastMarked (items : List Item) : List UInt8 :=
  ((items.filter (fun it => it.1 = endMark)).getLast?.map Prod.snd).getD []

/-- What a writer makes of its items. -/
def payload (items : List Item) : List UInt8 := unmarked items ++ lastMarked items

theorem foldl_appendItem (items : List Item) (o : WriteState) :
    items.foldl appendItem o =
      ⟨o.buf.write o.length (unmarked items), o.length + (unmarked items).length,
        ((items.filter (fun it => it.1 = endMark)).getLast?.map Prod.snd).getD o.endStr⟩ := by
  induction items generalizing o with
  | nil => simp [unmarked, ByteMem.write_nil]
  | cons it items ih =>
      rw [List.foldl_cons, ih]
      by_cases hmark : it.1 = endMark
      · simp [appendItem, unmarked, hmark, List.getLast?_cons]
      · simp only [appendItem, unmarked, hmark, ne_eq, not_false_eq_true, if_true, decide_true,
          decide_false, List.filter_cons_of_pos, List.flatMap_cons, List.length_append,
          Bool.false_eq_true, List.filter_cons_of_neg]
        rw [← ByteMem.write_write_append, Int.natCast_add, Nat.add_assoc]

/-- **A writer appends its payload.** -/
theorem appendItems_eq (items : List Item) (buf : ByteMem) (length : Nat) :
    appendItems items buf length =
      (buf.write length (payload items), length + (payload items).length) := by
  have hend : ((items.filter (fun it => it.1 = endMark)).getLast?.map Prod.snd).getD [] =
      lastMarked items := rfl
  simp only [appendItems, foldl_appendItem, hend]
  by_cases hnil : (lastMarked items).length = 0
  · have hempty : lastMarked items = [] := List.length_eq_zero_iff.mp hnil
    rw [if_neg (by simpa using hnil)]
    simp [payload, hempty]
  · rw [if_pos hnil, payload, ← ByteMem.write_write_append, List.length_append, Int.natCast_add,
      Nat.add_assoc]

/-- A writer that starts on an empty buffer leaves its payload there. -/
theorem slice_appendItems (items : List Item) (buf : ByteMem) :
    (appendItems items buf 0).1.slice 0 (appendItems items buf 0).2 = payload items := by
  rw [appendItems_eq]
  simpa using ByteMem.slice_write_self buf 0 (payload items)

/-! ## Responses -/

/-- The locals of `create_resp`. -/
structure RespOut where
  buf : ByteMem
  length : Int
  endContent : Int
  endLen : Int

/-- The loop of `create_resp`.  The bound is tested on an unsigned sum. -/
def createRespLoop (originResp : ByteMem) (size : Int) : List Resp → RespOut → ExtRet × RespOut
  | [], o => (.success, o)
  | r :: rest, o =>
      if r.ext ≠ endMark then
        if uint32 (o.length + r.contentLen) > uint32 size then (.error, o)
        else createRespLoop originResp size rest
          { o with
            buf := o.buf.write o.length (r.bytes originResp)
            length := int32 (o.length + r.contentLen) }
      else createRespLoop originResp size rest
        { o with endContent := r.content, endLen := int32 r.contentLen }

/-- `create_resp`: the code, the buffer and the length it leaves. -/
def createResp (originResp : ByteMem) (respData : List Resp) (buf : ByteMem)
    (length size : Int) : ExtRet × ByteMem × Int :=
  let (code, o) := createRespLoop originResp size respData ⟨buf, length, 0, 0⟩
  if code = .error then (.error, o.buf, o.length)
  else if o.endLen ≠ 0 then
    if int32 (o.length + o.endLen) > size then (.error, o.buf, o.length)
    else (.success, o.buf.write o.length (originResp.slice o.endContent (sizeT o.endLen)),
      int32 (o.length + o.endLen))
  else (.success, o.buf, o.length)

/-- The items of a response list, read from a buffer. -/
def respItems (originResp : ByteMem) (respData : List Resp) : List Item :=
  respData.map (fun r => (r.ext, r.bytes originResp))

/-- The end item the loop of `create_resp` is left with. -/
def endOf (respData : List Resp) (o : RespOut) : Int × Int :=
  match (respData.filter (fun r => r.ext = endMark)).getLast? with
  | some r => (r.content, int32 r.contentLen)
  | none => (o.endContent, o.endLen)

theorem endOf_cons_marked {r : Resp} (hmark : r.ext = endMark) (rest : List Resp) (o : RespOut) :
    endOf (r :: rest) o =
      endOf rest { o with endContent := r.content, endLen := int32 r.contentLen } := by
  unfold endOf
  rw [List.filter_cons_of_pos (by simpa using hmark), List.getLast?_cons]
  cases (rest.filter (fun r => r.ext = endMark)).getLast? with
  | none => rfl
  | some q => rfl

/-- The loop of `create_resp` while everything fits. -/
theorem createRespLoop_eq (originResp : ByteMem) {size : Int} (hsize : size < 2147483648)
    (respData : List Resp) (o : RespOut) (hlen : 0 ≤ o.length)
    (hfit : o.length + (unmarked (respItems originResp respData)).length ≤ size) :
    createRespLoop originResp size respData o =
      (.success, ⟨o.buf.write o.length (unmarked (respItems originResp respData)),
        o.length + (unmarked (respItems originResp respData)).length,
        (endOf respData o).1, (endOf respData o).2⟩) := by
  induction respData generalizing o with
  | nil => simp [createRespLoop, respItems, unmarked, endOf, ByteMem.write_nil]
  | cons r rest ih =>
      by_cases hmark : r.ext = endMark
      · have hrest : unmarked (respItems originResp (r :: rest)) =
            unmarked (respItems originResp rest) := by
          simp [unmarked, respItems, hmark]
        rw [hrest] at hfit ⊢
        rw [createRespLoop, if_neg (by simpa using hmark), endOf_cons_marked hmark]
        exact ih _ hlen hfit
      · have hsplit : unmarked (respItems originResp (r :: rest)) =
            r.bytes originResp ++ unmarked (respItems originResp rest) := by
          simp [unmarked, respItems, hmark]
        have hbytes : (r.bytes originResp).length = r.contentLen := ByteMem.length_slice _ _ _
        rw [hsplit, List.length_append, hbytes] at hfit
        -- the unsigned test is the plain one, because the sum stays below the size
        have hsum := uint32_eq_self (x := o.length + r.contentLen) (by omega) (by omega)
        have hcap := uint32_eq_self (x := size) (by omega) (by omega)
        have hpass : ¬ uint32 (o.length + r.contentLen) > uint32 size := by omega
        have hint := int32_eq_self (x := o.length + r.contentLen) (by omega) (by omega)
        have hend : endOf (r :: rest) o = endOf rest o := by
          unfold endOf
          rw [List.filter_cons_of_neg (by simpa using hmark)]
        rw [createRespLoop, if_pos hmark, if_neg hpass, hint, hsplit]
        rw [ih _ (by simp only; omega) (by simp only; omega), hend]
        simp only [endOf]
        rw [← ByteMem.write_write_append, List.length_append, hbytes, Int.natCast_add,
          Int.add_assoc]

/-- The content of the last marked item, as `create_resp` copies it. -/
theorem slice_endOf (originResp : ByteMem) (respData : List Resp) (buf : ByteMem) (length : Int)
    (hsmall : (lastMarked (respItems originResp respData)).length < 2147483648) :
    originResp.slice (endOf respData ⟨buf, length, 0, 0⟩).1
        (endOf respData ⟨buf, length, 0, 0⟩).2.toNat =
      lastMarked (respItems originResp respData) ∧
    (endOf respData ⟨buf, length, 0, 0⟩).2 =
      (lastMarked (respItems originResp respData)).length := by
  have hlast : lastMarked (respItems originResp respData) =
      (((respData.filter (fun r => r.ext = endMark)).getLast?.map
        (fun r => r.bytes originResp)).getD []) := by
    simp only [lastMarked, respItems, List.filter_map, List.getLast?_map, Option.map_map]
    rfl
  rw [hlast] at hsmall ⊢
  unfold endOf
  cases hmark : (respData.filter (fun r => r.ext = endMark)).getLast? with
  | none => simp
  | some r =>
      simp only [hmark, Option.map_some, Option.getD_some, Resp.bytes, ByteMem.length_slice]
        at hsmall ⊢
      rw [int32_eq_self (by omega) (by omega)]
      simp

/-- **`create_resp` appends its payload** when the reply fits. -/
theorem createResp_eq (originResp : ByteMem) (respData : List Resp) (buf : ByteMem)
    {length size : Int} (hlen : 0 ≤ length) (hsize : size < 2147483648)
    (hfit : length + (payload (respItems originResp respData)).length ≤ size) :
    createResp originResp respData buf length size =
      (.success, buf.write length (payload (respItems originResp respData)),
        length + (payload (respItems originResp respData)).length) := by
  have hpay : (payload (respItems originResp respData)).length =
      (unmarked (respItems originResp respData)).length +
        (lastMarked (respItems originResp respData)).length := List.length_append
  rw [hpay] at hfit
  obtain ⟨hslice, hendLen⟩ := slice_endOf originResp respData buf length (by omega)
  have hloop := createRespLoop_eq originResp hsize respData ⟨buf, length, 0, 0⟩ hlen
    (by simp only; omega)
  simp only [createResp, hloop]
  rw [if_neg (by decide)]
  by_cases hnone : (endOf respData ⟨buf, length, 0, 0⟩).2 = 0
  · have hnil : lastMarked (respItems originResp respData) = [] :=
      List.length_eq_zero_iff.mp (by omega)
    rw [if_neg (not_not.mpr hnone)]
    simp [payload, hnil]
  · have hsum := int32_eq_self (x := length + (unmarked (respItems originResp respData)).length +
      (endOf respData ⟨buf, length, 0, 0⟩).2) (by omega) (by omega)
    have hcast : sizeT (endOf respData ⟨buf, length, 0, 0⟩).2 =
        (endOf respData ⟨buf, length, 0, 0⟩).2.toNat := by
      have := sizeT_eq_self (x := (endOf respData ⟨buf, length, 0, 0⟩).2) (by omega) (by omega)
      omega
    rw [if_pos hnone, if_neg (by rw [hsum]; omega), hsum, hcast, hslice, hendLen, payload,
      ← ByteMem.write_write_append, List.length_append, Int.natCast_add, Int.add_assoc]

end KvProxy
