import KvProxy.ParseReq

/-!
# Parsed requests and the buffer they point into

The items of `parse_req` are offsets and lengths taken from the wire.  They
stay inside the buffer exactly when every header the loop accepts declares
lengths that do: the size test of the loop does not imply it, because it
ignores how much of the buffer precedes the request, and nothing compares the
key with the body.
-/

namespace KvProxy

open MachineInt

/-- The content of an item, and its key unless empty, lie in `[0, size)`, and
the key lies in the content. -/
def Req.Inside (size : Int) (r : Req) : Prop :=
  0 ≤ r.content ∧ r.content + r.contentLen ≤ size ∧
    (0 < r.keyLen → 0 ≤ r.key ∧ r.key + r.keyLen ≤ size ∧
      r.content ≤ r.key ∧ r.key + r.keyLen ≤ r.content + r.contentLen)

instance (size : Int) (r : Req) : Decidable (r.Inside size) := by
  unfold Req.Inside
  infer_instance

/-- `parse_req`, started at position `0` with an empty list, appends `r`:
some pass of its loop ends with `r` in the list. -/
def ReqAppended (originReq : ByteMem) (size : Int) (header : MemcachedHeader) (r : Req) : Prop :=
  ∃ t, Loop.Reaches (parseReqBody originReq size (isBinaryProtocol originReq))
      ⟨0, [], false, header⟩ t ∧
    r ∈ (parseReqBody originReq size (isBinaryProtocol originReq) t).2.reqData

/-- Every item `parse_req` appends stays inside the buffer. -/
def RequestsInside (originReq : ByteMem) (size : Int) (header : MemcachedHeader) : Prop :=
  ∀ r, ReqAppended originReq size header r → r.Inside size

/-- The declared lengths of a request at offset `p` keep to the buffer: the
request ends inside it, and extras and key end inside the request. -/
def LengthsFit (size : Int) (isBinary : Bool) (p : Int) (hd : MemcachedHeader) : Prop :=
  0 ≤ packetLen isBinary hd ∧ p + packetLen isBinary hd ≤ size ∧
    (0 < uint16 hd.keylen →
      headerLen isBinary + hd.extlen + uint16 hd.keylen ≤ packetLen isBinary hd)

instance (size : Int) (isBinary : Bool) (p : Int) (hd : MemcachedHeader) :
    Decidable (LengthsFit size isBinary p hd) := by
  unfold LengthsFit
  infer_instance

/-- Every header accepted on the way through the buffer declares lengths that
keep to it. -/
def RequestsFit (originReq : ByteMem) (size : Int) (header : MemcachedHeader) : Prop :=
  ∀ p hdr hd flags,
    ReqWalk originReq size (isBinaryProtocol originReq) 0 header p hdr →
    ReqAccepted originReq size (isBinaryProtocol originReq) hdr p hd flags →
    LengthsFit size (isBinaryProtocol originReq) p hd

/-! ## Extras are never negative where there is a key -/

/-- The scan sets `extlen` when it ends the command word, before it can find
a key. -/
def TextScan.KeyAfterCommand (st : TextScan) : Prop :=
  0 ≤ st.cmdLen ∧ (0 < st.cmdLen → 0 ≤ st.extlen) ∧ (st.keyLen ≠ 0 → 0 < st.cmdLen)

theorem scanRequestStep_keyAfterCommand (c : UInt8) {i : Int} (hi : 0 ≤ i) {st : TextScan}
    (h : st.KeyAfterCommand) : (scanRequestStep c i st).2.KeyAfterCommand := by
  unfold TextScan.KeyAfterCommand at h ⊢
  unfold scanRequestStep
  split_ifs <;> grind

theorem scanRequest_keyAfterCommand (data : ByteMem) (n : Nat) {i : Int} (hi : 0 ≤ i)
    {st : TextScan} (h : st.KeyAfterCommand) : (scanRequest data n i st).KeyAfterCommand := by
  induction n generalizing i st with
  | zero => exact h
  | succ n ih =>
      have hstep := scanRequestStep_keyAfterCommand (data i) hi h
      rw [scanRequest]
      cases hs : scanRequestStep (data i) i st with
      | mk stop st' =>
          rw [hs] at hstep
          cases stop with
          | true => exact hstep
          | false => exact ih (by omega) hstep

/-- A key, in either protocol, starts at or after its request. -/
theorem readRequest_extlen_nonneg {originReq : ByteMem} {size : Int} {isBinary : Bool}
    {header hd : MemcachedHeader} {p : Int}
    (h : readRequest originReq size isBinary header p = (1, hd))
    (hkey : 0 < uint16 hd.keylen) : 0 ≤ hd.extlen := by
  cases isBinary with
  | true =>
      obtain ⟨_, _, rfl⟩ := tryReadBinary_eq_one h
      exact Int.natCast_nonneg _
  | false =>
      have hfresh : (⟨0, 0, 0, 0, header.extlen, []⟩ : TextScan).KeyAfterCommand :=
        ⟨by simp, by simp, by simp⟩
      have hscan := scanRequest_keyAfterCommand (originReq.shift p) (int32 (size - p)).toNat
        (Int.le_refl 0) hfresh
      simp only [readRequest, Bool.false_eq_true, if_false, tryReadRequestText, Prod.mk.injEq,
        true_and] at h
      subst h
      dsimp only at hkey ⊢
      have hne : (scanRequest (originReq.shift p) (int32 (size - p)).toNat 0
          ⟨0, 0, 0, 0, header.extlen, []⟩).keyLen ≠ 0 := by
        intro hzero
        rw [hzero] at hkey
        simp [uint16] at hkey
      exact hscan.2.1 (hscan.2.2 hne)

/-! ## Items against headers -/

/-- The item of an accepted request is inside exactly when the header's
lengths fit. -/
theorem reqItem_inside_iff {originReq : ByteMem} {size : Int} {isBinary : Bool}
    {header hd : MemcachedHeader} {p : Int} {flags : ReqFlags} (hsize : size < 2147483648)
    (hp : 0 ≤ p) (hacc : ReqAccepted originReq size isBinary header p hd flags) :
    (reqItem isBinary p hd flags).Inside size ↔ LengthsFit size isBinary p hd := by
  have hlo : -2147483648 ≤ packetLen isBinary hd := int32_lower _
  have hhi : packetLen isBinary hd < 2147483648 := int32_upper _
  have hhdr : 0 ≤ headerLen isBinary := by cases isBinary <;> decide
  have hext := readRequest_extlen_nonneg hacc.read
  have hcast : 0 ≤ packetLen isBinary hd →
      (uint32 (packetLen isBinary hd) : Int) = packetLen isBinary hd :=
    fun h => uint32_eq_self h (by omega)
  unfold Req.Inside LengthsFit reqItem
  dsimp only
  constructor
  · intro hsplit
    obtain ⟨_, hend, hkey⟩ := hsplit
    have hnonneg : 0 ≤ packetLen isBinary hd := by
      by_contra hneg
      have := uint32_of_neg hlo (by omega)
      omega
    rw [hcast hnonneg] at hend hkey
    refine ⟨hnonneg, hend, fun hk => ?_⟩
    have := hkey hk
    omega
  · intro hsplit
    obtain ⟨hnonneg, hend, hkey⟩ := hsplit
    rw [hcast hnonneg]
    refine ⟨hp, hend, fun hk => ?_⟩
    have := hkey hk
    have := hext hk
    omega

/-- Under fitting lengths the walk stays in the buffer. -/
theorem ReqWalk.inside {originReq : ByteMem} {size : Int} {header hdr : MemcachedHeader} {p : Int}
    (hsize : size < 2147483648) (hpos : 0 ≤ size) (hfit : RequestsFit originReq size header)
    (h : ReqWalk originReq size (isBinaryProtocol originReq) 0 header p hdr) :
    0 ≤ p ∧ p ≤ size := by
  induction h with
  | start => omega
  | @next p hdr hd flags before hacc hquiet ih =>
      obtain ⟨hlen, hend, _⟩ := hfit p hdr hd flags before hacc
      rw [int32_eq_self (by omega) (by omega)]
      omega

/-- One round of the parser, under fitting lengths: an item of its list was
there before or lies inside. -/
theorem parseReqBody_inside {originReq : ByteMem} {size : Int} {header : MemcachedHeader}
    (hsize : size < 2147483648) (hpos : 0 ≤ size) (hfit : RequestsFit originReq size header)
    {u : ReqLoop} (hu : Loop.Reaches (parseReqBody originReq size (isBinaryProtocol originReq))
      ⟨0, [], false, header⟩ u) {r : Req}
    (hr : r ∈ (parseReqBody originReq size (isBinaryProtocol originReq) u).2.reqData) :
    r ∈ u.reqData ∨ r.Inside size := by
  rcases parseReqBody_cases originReq size (isBinaryProtocol originReq) u with
    ⟨_, _, hsame, _⟩ | ⟨hd, flags, hacc, heq⟩
  · exact Or.inl (hsame ▸ hr)
  · rw [heq] at hr
    rcases List.mem_append.mp hr with hr | hr
    · exact Or.inl hr
    · have hwalk := reaches_reqWalk hu
      have hp := (hwalk.inside hsize hpos hfit).1
      rw [List.mem_singleton.mp hr]
      exact Or.inr ((reqItem_inside_iff hsize hp hacc).mpr (hfit _ _ _ _ hwalk hacc))

/-- All rounds before a state. -/
theorem reached_inside {originReq : ByteMem} {size : Int} {header : MemcachedHeader}
    (hsize : size < 2147483648) (hpos : 0 ≤ size) (hfit : RequestsFit originReq size header)
    {t : ReqLoop} (ht : Loop.Reaches (parseReqBody originReq size (isBinaryProtocol originReq))
      ⟨0, [], false, header⟩ t) :
    ∀ r ∈ t.reqData, r.Inside size := by
  have hinv := ht.invariant
    (fun u => Loop.Reaches (parseReqBody originReq size (isBinaryProtocol originReq))
      ⟨0, [], false, header⟩ u ∧ ∀ r ∈ u.reqData, r.Inside size) ?_ ⟨.here _, by simp⟩
  · exact hinv.2
  · intro u hsplit hround
    obtain ⟨hu, hin⟩ := hsplit
    refine ⟨hu.snoc hround, fun r hr => ?_⟩
    rcases parseReqBody_inside hsize hpos hfit hu hr with hold | hnew
    · exact hin r hold
    · exact hnew

/-- **Parsed requests stay inside the received buffer exactly when the wire
lengths do.** -/
theorem requests_inside_iff (originReq : ByteMem) (size : Int) (header : MemcachedHeader)
    (hpos : 0 < size) (hsize : size < 2147483648) :
    RequestsInside originReq size header ↔ RequestsFit originReq size header := by
  constructor
  · intro hinside p hdr hd flags hwalk hacc
    obtain ⟨t, hreach, rfl, rfl⟩ := hwalk.reached (s := ⟨0, [], false, header⟩)
    have hitem : (reqItem (isBinaryProtocol originReq) t.position hd flags).Inside size := by
      refine hinside _ ⟨t, hreach, ?_⟩
      rw [parseReqBody_of_accepted hacc]
      simp
    exact (reqItem_inside_iff hsize hitem.1 hacc).mp hitem
  · intro hfit r hsplit
    obtain ⟨t, hreach, hr⟩ := hsplit
    rcases parseReqBody_inside hsize (by omega) hfit hreach hr with hold | hnew
    · exact reached_inside hsize (by omega) hfit hreach r hold
    · exact hnew

/-- A quiet get without a body, and the bare header of a get whose ten-byte
key has not arrived: 48 bytes, which pass the test for a request of 34. -/
def truncatedBatch : List UInt8 :=
  [0x80, 0x0d, 0, 0, 0, 0, 0, 0, 0, 0, 0, 0, 0, 0, 0, 0, 0, 0, 0, 0, 0, 0, 0, 0,
   0x80, 0x00, 0, 10, 0, 0, 0, 0, 0, 0, 0, 10, 0, 0, 0, 0, 0, 0, 0, 0, 0, 0, 0, 0]

/-- The parser accepts the truncated batch and hands out an item that ends,
with its key, ten bytes behind the buffer. -/
theorem truncated_batch_leaves_buffer :
    parseReq true ⟨0, 0, 0, 0⟩ (ByteMem.ofList truncatedBatch (fun _ => 0)) 48 0 [] =
      some (.success, 58, [⟨24, 0, 0, 24, false, false, 0⟩, ⟨48, 10, 24, 34, false, false, 0⟩]) ∧
    ReqAppended (ByteMem.ofList truncatedBatch (fun _ => 0)) 48 ⟨0, 0, 0, 0⟩
      ⟨48, 10, 24, 34, false, false, 0⟩ ∧
    ¬ Req.Inside 48 ⟨48, 10, 24, 34, false, false, 0⟩ := by
  refine ⟨by decide +kernel, ?_, by decide⟩
  refine ⟨_, .pass (by decide +kernel) (.here _), ?_⟩
  decide +kernel

/-- A complete get of the key `"a"`. -/
def getRequest : List UInt8 :=
  [0x80, 0, 0, 1, 0, 0, 0, 0, 0, 0, 0, 1, 0, 0, 0, 0, 0, 0, 0, 0, 0, 0, 0, 0, 97]

/-- The law at a complete request: its one header fits, so its item is inside. -/
theorem requests_inside_get :
    RequestsInside (ByteMem.ofList getRequest (fun _ => 0)) 25 ⟨0, 0, 0, 0⟩ := by
  refine (requests_inside_iff _ 25 ⟨0, 0, 0, 0⟩ (by decide) (by decide)).mpr ?_
  have hbin : isBinaryProtocol (ByteMem.ofList getRequest (fun _ => 0)) = true := by decide
  have hread : readRequest (ByteMem.ofList getRequest (fun _ => 0)) 25 true ⟨0, 0, 0, 0⟩ 0 =
      (1, ⟨1, 0, 1, 0⟩) := by decide +kernel
  have honce : ∀ hd flags,
      ReqAccepted (ByteMem.ofList getRequest (fun _ => 0)) 25 true ⟨0, 0, 0, 0⟩ 0 hd flags →
      hd = ⟨1, 0, 1, 0⟩ ∧ flags.isAgin = false := by
    intro hd flags hacc
    have hhd : (⟨1, 0, 1, 0⟩ : MemcachedHeader) = hd := by simpa [hread] using hacc.read
    subst hhd
    have hflags : (⟨false, false, 0, false⟩ : ReqFlags) = flags := Except.ok.inj hacc.forwarded
    exact ⟨rfl, hflags ▸ rfl⟩
  unfold RequestsFit
  rw [hbin]
  intro p hdr hd flags hwalk hacc
  have hstart : p = 0 ∧ hdr = ⟨0, 0, 0, 0⟩ := by
    clear hacc
    induction hwalk with
    | start => exact ⟨rfl, rfl⟩
    | next before hacc' hquiet ih =>
        obtain ⟨rfl, rfl⟩ := ih
        simp [(honce _ _ hacc').2] at hquiet
  obtain ⟨rfl, rfl⟩ := hstart
  rw [(honce hd flags hacc).1]
  decide

end KvProxy
