import KvProxy.Encode
import KvProxy.ReadEvent

/-!
# The two request writers

`create_req` and `create_req_async` of `memcached.cpp`, each as it is written: the
first copies from pointers into the request buffer, the second from the strings that
`readEvent` made of them for the queue.  Both keep `*length` and the length of the end
item in an `int`, while a content is up to 2^32 - 1 bytes long.

`Encode` reads both with natural lengths; that is right while the length fits
(`createReq_eq_encode`).  A content from 2^31 on gives the end item a negative length,
and `memcpy` a size that no memory has: the body length of a request on the wire can
make one.

* `Follows` — the async loop follows the sync loop, item by item;
* `createReq_length` — the length is the sum, as an `int`;
* `encodes_alike_iff` — so the two agree, on the whole payload, when that fits.
-/

namespace KvProxy

open MachineInt

namespace MachineWriter

/-- The locals of `create_req`; `endStr` is an offset in the request buffer. -/
structure ReqOut where
  buf : ByteMem
  length : Int
  endStr : Int
  endLen : Int

/-- One iteration of the loop of `create_req`. -/
def reqItem (originReq : ByteMem) (o : ReqOut) (it : Req) : ReqOut :=
  if it.ext ≠ endMark then
    { o with
      buf := o.buf.write o.length (originReq.slice it.content it.contentLen)
      length := int32 (o.length + it.contentLen) }
  else { o with endStr := it.content, endLen := int32 it.contentLen }

/-- `create_req`; `end_str` starts as a null pointer, which is not used. -/
def createReq (originReq : ByteMem) (reqData : List Req) (buf : ByteMem) (length : Int) :
    ByteMem × Int :=
  let o := reqData.foldl (reqItem originReq) ⟨buf, length, 0, 0⟩
  if o.endLen ≠ 0 then
    (o.buf.write o.length (originReq.slice o.endStr (sizeT o.endLen)), int32 (o.length + o.endLen))
  else (o.buf, o.length)

/-- The locals of `create_req_async`; `endStr` is the memory at the string. -/
structure CommOut where
  buf : ByteMem
  length : Int
  endStr : ByteMem
  endLen : Int

/-- `c_str()` of a content: the bytes, a zero, and what lies behind them. -/
def cStr (behind : ByteMem) (content : List UInt8) : ByteMem :=
  ByteMem.ofList (content ++ [0]) behind

/-- One iteration of the loop of `create_req_async`. -/
def commItem (behind : ByteMem) (o : CommOut) (it : Comm) : CommOut :=
  if it.ext ≠ endMark then
    { o with
      buf := o.buf.write o.length ((cStr behind it.content).slice 0 it.content.length)
      length := int32 (o.length + it.content.length) }
  else { o with endStr := cStr behind it.content, endLen := int32 it.content.length }

/-- `create_req_async`. -/
def createReqAsync (behind : ByteMem) (reqData : List Comm) (buf : ByteMem) (length : Int) :
    ByteMem × Int :=
  let o := reqData.foldl (commItem behind) ⟨buf, length, fun _ => 0, 0⟩
  if o.endLen ≠ 0 then
    (o.buf.write o.length (o.endStr.slice 0 (sizeT o.endLen)), int32 (o.length + o.endLen))
  else (o.buf, o.length)

/-- The copy `readEvent` queues of an item. -/
def asyncItem (originReq : ByteMem) (r : Req) : Comm := ⟨r.bytes originReq, r.ext⟩

/-- The items of a group. -/
def reqItems (originReq : ByteMem) (group : List Req) : List Item :=
  group.map (fun r => (r.ext, r.bytes originReq))

/-! ## The async loop follows the sync loop -/

theorem slice_cStr (behind : ByteMem) (content : List UInt8) {n : Nat} (hn : n ≤ content.length) :
    (cStr behind content).slice 0 n = content.take n := by
  have hmid := ByteMem.slice_ofList_mid [] (content.take n) (content.drop n ++ [0]) behind
  rw [List.length_take, Nat.min_eq_left hn] at hmid
  rw [cStr, ← hmid, List.nil_append, ← List.append_assoc, List.take_append_drop]
  rfl

/-- The locals of the two loops: the same, and the end string has the bytes of the end
item as far as its length goes. -/
structure Follows (originReq : ByteMem) (o : ReqOut) (p : CommOut) : Prop where
  buf : p.buf = o.buf
  length : p.length = o.length
  endLen : p.endLen = o.endLen
  endStr : ∀ n : Nat, (n : Int) ≤ o.endLen → p.endStr.slice 0 n = originReq.slice o.endStr n

/-- One item. -/
theorem Follows.item {originReq : ByteMem} {o : ReqOut} {p : CommOut} (h : Follows originReq o p)
    (behind : ByteMem) (r : Req) :
    Follows originReq (reqItem originReq o r) (commItem behind p (asyncItem originReq r)) := by
  have hcopy : ∀ n ≤ r.contentLen,
      (cStr behind (r.bytes originReq)).slice 0 n = originReq.slice r.content n := by
    intro n hn
    have hlen : (r.bytes originReq).length = r.contentLen := ByteMem.length_slice _ _ _
    have htake := List.prefix_iff_eq_take.mp (ByteMem.slice_prefix originReq r.content hn)
    rw [ByteMem.length_slice] at htake
    rw [slice_cStr behind _ (by rw [hlen]; exact hn), htake]
    rfl
  have hlen : ((asyncItem originReq r).content).length = r.contentLen := ByteMem.length_slice _ _ _
  have hext : (asyncItem originReq r).ext = r.ext := rfl
  unfold reqItem commItem
  rw [hext]
  by_cases hmark : r.ext = endMark
  · rw [if_neg (not_not.mpr hmark), if_neg (not_not.mpr hmark), hlen]
    refine ⟨h.buf, h.length, rfl, ?_⟩
    intro n hn
    refine hcopy n ?_
    have hle := int32_le r.contentLen
    dsimp only at hn
    omega
  · rw [if_pos hmark, if_pos hmark, hlen]
    refine ⟨?_, ?_, h.endLen, h.endStr⟩
    · dsimp only
      rw [h.buf, h.length]
      exact congrArg _ (hcopy r.contentLen (le_refl _))
    · dsimp only
      rw [h.length]

/-- The whole loop. -/
theorem Follows.items {originReq : ByteMem} (behind : ByteMem) (group : List Req) {o : ReqOut}
    {p : CommOut} (h : Follows originReq o p) :
    Follows originReq (group.foldl (reqItem originReq) o)
      ((group.map (asyncItem originReq)).foldl (commItem behind) p) := by
  induction group generalizing o p with
  | nil => exact h
  | cons r group ih => exact ih (h.item behind r)

/-! ## What the sync loop leaves -/

/-- The last item with the mark. -/
def lastEnd (group : List Req) : Option Req := (group.filter (fun r => r.ext = endMark)).getLast?

theorem lastMarked_reqItems (originReq : ByteMem) (group : List Req) :
    lastMarked (reqItems originReq group) =
      ((lastEnd group).map (fun r => r.bytes originReq)).getD [] := by
  simp only [lastMarked, reqItems, lastEnd, List.filter_map, List.getLast?_map, Option.map_map]
  rfl

theorem unmarked_cons (originReq : ByteMem) (r : Req) (group : List Req) :
    unmarked (reqItems originReq (r :: group)) =
      (if r.ext = endMark then [] else r.bytes originReq) ++ unmarked (reqItems originReq group) := by
  by_cases hmark : r.ext = endMark
  · simp [unmarked, reqItems, hmark]
  · simp [unmarked, reqItems, hmark]

theorem lastEnd_cons_marked {γ : Type} {r : Req} (hmark : r.ext = endMark) (group : List Req)
    (f : Req → γ) (d : γ) :
    ((lastEnd (r :: group)).map f).getD d = ((lastEnd group).map f).getD (f r) := by
  unfold lastEnd
  rw [List.filter_cons_of_pos (by simpa using hmark), List.getLast?_cons]
  cases (group.filter (fun r => r.ext = endMark)).getLast? with
  | none => rfl
  | some q => rfl

theorem lastEnd_cons_unmarked {r : Req} (hmark : r.ext ≠ endMark) (group : List Req) :
    lastEnd (r :: group) = lastEnd group := by
  unfold lastEnd
  rw [List.filter_cons_of_neg (by simpa using hmark)]

/-- The loop adds the contents without the mark; what it copies is in place as long as the
length stays an `int`. -/
theorem foldl_reqItem (originReq : ByteMem) (group : List Req) {o : ReqOut}
    (hlo : -2147483648 ≤ o.length) (hhi : o.length < 2147483648) :
    (group.foldl (reqItem originReq) o).length =
        int32 (o.length + (unmarked (reqItems originReq group)).length) ∧
      (group.foldl (reqItem originReq) o).endStr = ((lastEnd group).map Req.content).getD o.endStr ∧
      (group.foldl (reqItem originReq) o).endLen =
        ((lastEnd group).map (fun r => int32 r.contentLen)).getD o.endLen ∧
      (o.length + (unmarked (reqItems originReq group)).length < 2147483648 →
        (group.foldl (reqItem originReq) o).buf =
          o.buf.write o.length (unmarked (reqItems originReq group))) := by
  induction group generalizing o with
  | nil =>
      refine ⟨?_, rfl, rfl, ?_⟩
      · simp [unmarked, reqItems, int32_eq_self hlo hhi]
      · simp [unmarked, reqItems, ByteMem.write_nil]
  | cons r group ih =>
      rw [List.foldl_cons, unmarked_cons]
      by_cases hmark : r.ext = endMark
      · have hitem : reqItem originReq o r =
            { o with endStr := r.content, endLen := int32 r.contentLen } := by
          simp [reqItem, hmark]
        obtain ⟨hlength, hstr, hend, hbuf⟩ := ih (o := reqItem originReq o r)
          (by rw [hitem]; exact hlo) (by rw [hitem]; exact hhi)
        rw [hitem] at hlength hstr hend hbuf ⊢
        dsimp only at hlength hstr hend hbuf
        rw [if_pos hmark, List.nil_append, lastEnd_cons_marked hmark, lastEnd_cons_marked hmark]
        exact ⟨hlength, hstr, hend, hbuf⟩
      · have hitem : reqItem originReq o r =
            { o with
              buf := o.buf.write o.length (r.bytes originReq)
              length := int32 (o.length + r.contentLen) } := by
          simp [reqItem, hmark, Req.bytes]
        obtain ⟨hlength, hstr, hend, hbuf⟩ := ih (o := reqItem originReq o r)
          (by rw [hitem]; exact int32_lower _) (by rw [hitem]; exact int32_upper _)
        have hbytes : (r.bytes originReq).length = r.contentLen := ByteMem.length_slice _ _ _
        rw [hitem] at hlength hstr hend hbuf ⊢
        dsimp only at hlength hstr hend hbuf
        rw [if_neg hmark, lastEnd_cons_unmarked hmark, List.length_append, hbytes]
        refine ⟨?_, hstr, hend, ?_⟩
        · rw [hlength]
          unfold int32
          omega
        · intro hfit
          have hint := int32_eq_self (x := o.length + r.contentLen) (by omega) (by omega)
          rw [hint] at hbuf ⊢
          rw [hbuf (by omega), ← ByteMem.write_write_append, hbytes]

/-! ## What the writers leave -/

variable {originReq : ByteMem} {group : List Req} {length : Int}

theorem map_lastEnd {γ : Type} (f : Nat → γ) (originReq : ByteMem) (group : List Req) :
    ((lastEnd group).map (fun r => f r.contentLen)).getD (f 0) =
      f (lastMarked (reqItems originReq group)).length := by
  rw [lastMarked_reqItems]
  cases lastEnd group with
  | none => rfl
  | some r => simp [Req.bytes]

/-- The length of the end item, as the loop leaves it. -/
theorem length_lastMarked (originReq : ByteMem) (group : List Req) :
    ((lastEnd group).map (fun r => int32 r.contentLen)).getD 0 =
      int32 (lastMarked (reqItems originReq group)).length := by
  have h := map_lastEnd (fun n => int32 n) originReq group
  rwa [Int.ofNat_zero, int32_zero] at h

/-- **The length** is the sum of the lengths of the payload, as an `int`. -/
theorem createReq_length (hlo : -2147483648 ≤ length) (hhi : length < 2147483648) (buf : ByteMem) :
    (createReq originReq group buf length).2 =
      int32 (length + (payload (reqItems originReq group)).length) := by
  obtain ⟨hlength, _, hend, _⟩ :=
    foldl_reqItem originReq group (o := ⟨buf, length, 0, 0⟩) hlo hhi
  dsimp only at hlength hend
  rw [length_lastMarked originReq] at hend
  rw [createReq, payload, List.length_append, hlength, hend, Int.natCast_add, ← Int.add_assoc]
  split_ifs with hsome
  · exact int32_add _ _
  · exact int32_add_of_eq_zero _ (not_not.mp hsome)

/-- The end item is read back from where the loop has found it. -/
theorem slice_lastEnd (originReq : ByteMem) (group : List Req) (d : Int) :
    originReq.slice (((lastEnd group).map Req.content).getD d)
        (lastMarked (reqItems originReq group)).length =
      lastMarked (reqItems originReq group) := by
  rw [lastMarked_reqItems]
  cases lastEnd group with
  | none => rfl
  | some r => simp [Req.bytes]

/-- **What is copied**, when the payload fits: the payload, to the end of the buffer. -/
theorem createReq_fits (hlo : 0 ≤ length) (buf : ByteMem)
    (hfit : length + (payload (reqItems originReq group)).length < 2147483648) :
    createReq originReq group buf length =
      (buf.write length (payload (reqItems originReq group)),
        length + (payload (reqItems originReq group)).length) := by
  rw [payload, List.length_append] at hfit ⊢
  obtain ⟨hlength, hstr, hend, hbuf⟩ :=
    foldl_reqItem originReq group (o := ⟨buf, length, 0, 0⟩)
      (show -2147483648 ≤ length by omega) (show length < 2147483648 by omega)
  dsimp only at hlength hstr hend hbuf
  rw [int32_eq_self (by omega) (by omega)] at hlength
  rw [length_lastMarked originReq, int32_eq_self (by omega) (by omega)] at hend
  rw [createReq, hlength, hstr, hend, hbuf (by omega), Int.natCast_add, ← Int.add_assoc]
  by_cases hnone : (lastMarked (reqItems originReq group)).length = 0
  · have hnil : lastMarked (reqItems originReq group) = [] := List.length_eq_zero_iff.mp hnone
    rw [if_neg (by simpa using hnone), hnil]
    simp
  · have hsize := sizeT_eq_self (x := (lastMarked (reqItems originReq group)).length) (by omega)
      (by omega)
    rw [if_pos (by simpa using hnone), Int.ofNat_inj.mp hsize, slice_lastEnd,
      int32_eq_self (by omega) (by omega), ← ByteMem.write_write_append]

/-- **The async writer follows**, while the end item has a length as an `int`. -/
theorem createReqAsync_eq (hlo : 0 ≤ length) (hhi : length < 2147483648) (behind buf : ByteMem)
    (hshort : (lastMarked (reqItems originReq group)).length < 2147483648) :
    createReqAsync behind (group.map (asyncItem originReq)) buf length =
      createReq originReq group buf length := by
  have hstart : Follows originReq ⟨buf, length, 0, 0⟩ ⟨buf, length, fun _ => 0, 0⟩ := by
    refine ⟨rfl, rfl, rfl, ?_⟩
    intro n hn
    obtain rfl : n = 0 := by
      dsimp only at hn
      omega
    rfl
  obtain ⟨hbuf, hlength, hend, hstr⟩ := hstart.items behind group
  obtain ⟨_, _, hlast, _⟩ := foldl_reqItem originReq group (o := ⟨buf, length, 0, 0⟩)
    (show -2147483648 ≤ length by omega) hhi
  dsimp only at hlast
  rw [length_lastMarked originReq, int32_eq_self (by omega) (by omega)] at hlast
  have hsize := sizeT_eq_self (x := (lastMarked (reqItems originReq group)).length) (by omega)
    (by omega)
  rw [createReqAsync, createReq, hbuf, hlength, hend, hlast, Int.ofNat_inj.mp hsize,
    hstr _ (by rw [hlast])]

/-- The two writers do the same, and copy the payload to the end of the buffer. -/
def EncodesAlike (originReq behind : ByteMem) (group : List Req) (buf : ByteMem) (length : Int) :
    Prop :=
  createReqAsync behind (group.map (asyncItem originReq)) buf length =
      createReq originReq group buf length ∧
    createReq originReq group buf length =
      (buf.write length (payload (reqItems originReq group)),
        length + (payload (reqItems originReq group)).length)

/-- **The async path encodes what the sync path encodes**, exactly when the length behind
the payload is an `int`. -/
theorem encodes_alike_iff (originReq behind : ByteMem) (group : List Req) (buf : ByteMem)
    {length : Int} (hlo : 0 ≤ length) (hhi : length < 2147483648) :
    EncodesAlike originReq behind group buf length ↔
      length + (payload (reqItems originReq group)).length < 2147483648 := by
  constructor
  · rintro ⟨_, heq⟩
    have hlength : (createReq originReq group buf length).2 =
        int32 (length + (payload (reqItems originReq group)).length) :=
      createReq_length (by omega) hhi buf
    rw [heq] at hlength
    dsimp only at hlength
    rw [hlength]
    exact int32_upper _
  · intro hfit
    refine ⟨createReqAsync_eq hlo hhi behind buf ?_, createReq_fits hlo buf hfit⟩
    rw [payload, List.length_append] at hfit
    omega

/-- A GETKQ of 25 bytes and a NOOP without a body. -/
theorem encodes_alike_batch :
    EncodesAlike (fun _ => 0) (fun _ => 1)
      [⟨24, 1, 0, 25, false, false, 0⟩, ⟨49, 0, 25, 24, false, true, 101⟩] (fun _ => 2) 0 :=
  (encodes_alike_iff (fun _ => 0) (fun _ => 1) _ (fun _ => 2) (by decide) (by decide)).mpr
    (by decide)

theorem createReq_batch_length (originReq : ByteMem) (n : Nat) :
    (createReq originReq
        [⟨24, 1, 0, 25, false, false, 0⟩, ⟨49, 0, 25, n, false, true, 101⟩] (fun _ => 2) 0).2 =
      int32 (0 + ((25 + n : Nat) : Int)) ∧
    (payload (reqItems originReq
      [⟨24, 1, 0, 25, false, false, 0⟩, ⟨49, 0, 25, n, false, true, 101⟩])).length = 25 + n := by
  have hpayload : (payload (reqItems originReq
      [⟨24, 1, 0, 25, false, false, 0⟩, ⟨49, 0, 25, n, false, true, 101⟩])).length = 25 + n := by
    simp [payload, unmarked, lastMarked, reqItems, endMark, Req.bytes]
  refine ⟨?_, hpayload⟩
  rw [createReq_length (by decide) (by decide), hpayload]

/-- A GETKQ of the key `"a"`, and a NOOP with the body length `0xffffff00`. -/
def negativeBatch : List UInt8 :=
  [0x80, 0x0d, 0, 1, 0, 0, 0, 0, 0, 0, 0, 1, 0, 0, 0, 0, 0, 0, 0, 0, 0, 0, 0, 0, 97,
    0x80, 0x0a, 0, 0, 0, 0, 0, 0, 255, 255, 255, 0, 0, 0, 0, 0, 0, 0, 0, 0, 0, 0, 0, 0]

/-- `parse_req` takes the batch; the content of its NOOP has `4294967064` bytes, and
`create_req` leaves a length below zero. -/
theorem end_length_negative :
    parseReq true ⟨0, 0, 0, 0⟩ (ByteMem.ofList negativeBatch (fun _ => 0)) 49 0 [] =
      some (.success, -207,
        [⟨24, 1, 0, 25, false, false, 0⟩, ⟨49, 0, 25, 4294967064, false, true, 101⟩]) ∧
    (createReq (ByteMem.ofList negativeBatch (fun _ => 0))
      [⟨24, 1, 0, 25, false, false, 0⟩, ⟨49, 0, 25, 4294967064, false, true, 101⟩]
      (fun _ => 2) 0).2 = -207 ∧
    ¬ EncodesAlike (ByteMem.ofList negativeBatch (fun _ => 0)) (fun _ => 1)
      [⟨24, 1, 0, 25, false, false, 0⟩, ⟨49, 0, 25, 4294967064, false, true, 101⟩]
      (fun _ => 2) 0 := by
  have hbatch := createReq_batch_length (ByteMem.ofList negativeBatch (fun _ => 0)) 4294967064
  have hint : int32 (0 + ((25 + 4294967064 : Nat) : Int)) = -207 := by decide
  rw [hint] at hbatch
  refine ⟨by decide +kernel, hbatch.1, ?_⟩
  rintro ⟨_, heq⟩
  have hlength := congrArg Prod.snd heq
  rw [hbatch.1, hbatch.2] at hlength
  exact absurd hlength (by decide)

/-! ## In the proxy -/

/-- `Encode` has the same writers, as long as the length is an `int`. -/
theorem createReq_eq_encode {originReq : ByteMem} {group : List Req} {n : Nat} (buf : ByteMem)
    (hfit : n + (payload (reqItems originReq group)).length < 2147483648) :
    createReq originReq group buf n =
      ((KvProxy.createReq originReq group buf n).1,
        ((KvProxy.createReq originReq group buf n).2 : Int)) := by
  rw [createReq_fits (by omega) buf (by omega), KvProxy.createReq, appendItems_eq, Int.natCast_add]
  rfl

end MachineWriter

end KvProxy
