import KvProxy.ParseResp

/-!
# Parsed responses and the buffer they point into

`parse_resp` is called again each time more bytes have been received, with the
position the call before has left.  Its items are offsets and lengths taken
from the wire.  They stay inside what has been received exactly when every
header that the loop accepts declares a length that does: the size test of the
loop compares the length of a response with all that has been received, not
with what is left behind the position, and a length that is negative as an
`int` passes it.

* `callInside_iff` — one call;
* `responses_inside_iff` — the calls on a growing buffer.
-/

namespace KvProxy

open MachineInt

/-- The content of an item lies in `[0, size)`. -/
def Resp.Inside (size : Int) (r : Resp) : Prop :=
  0 ≤ r.content ∧ r.content + r.contentLen ≤ size

instance Resp.decidableInside (size : Int) (r : Resp) : Decidable (r.Inside size) := by
  unfold Resp.Inside
  infer_instance

/-- A call of `parse_resp` when some of the bytes have been received: how many,
what lies behind them in the buffer, and what its locals hold. -/
structure RespCall where
  received : Nat
  behind : ByteMem
  isAgin : Bool
  header : MemcachedHeader

/-- The buffer at a call. -/
def RespCall.buf (c : RespCall) (bytes : List UInt8) : ByteMem :=
  ByteMem.ofList (bytes.take c.received) c.behind

/-- The calls are made on growing parts of the bytes. -/
structure Growing (bytes : List UInt8) (calls : List RespCall) : Prop where
  growing : calls.Pairwise (fun a b => a.received ≤ b.received)
  received : ∀ c ∈ calls, 0 < c.received ∧ c.received ≤ bytes.length
  small : bytes.length < 2147483648

/-! ## The property -/

/-- Whenever a pass of the call is made, the position is in `[0, size]` and the
items appended so far lie in what has been received. -/
def CallInside (bytes : List UInt8) (c : RespCall) (position : Int) (respData : List Resp) :
    Prop :=
  ∀ t, Loop.Reaches (parseRespBody (c.buf bytes) c.received (isBinaryProtocol (c.buf bytes)))
      ⟨position, respData, c.isAgin, c.header⟩ t →
    0 ≤ t.position ∧ t.position ≤ c.received ∧
      ∃ items, t.respData = respData ++ items ∧ ∀ r ∈ items, r.Inside c.received

/-- So it is in all calls, each of which goes on from where the call before has
left the position and the list. -/
def RunInside (bytes : List UInt8) : List RespCall → Int → List Resp → Prop
  | [], _, _ => True
  | c :: rest, position, respData =>
      CallInside bytes c position respData ∧
        ∀ code position' respData',
          parseResp c.isAgin c.header (c.buf bytes) c.received position respData =
            some (code, position', respData') → RunInside bytes rest position' respData'

/-! ## The condition -/

/-- Every response header that the call accepts, following the lengths from the
position on, declares a length that is not negative and ends in what has been
received. -/
def CallFits (bytes : List UInt8) (c : RespCall) (position : Int) : Prop :=
  ∀ p hdr hd,
    RespWalk (c.buf bytes) c.received (isBinaryProtocol (c.buf bytes)) position c.header p hdr →
    RespAccepted (c.buf bytes) c.received (isBinaryProtocol (c.buf bytes)) hdr p hd →
    0 ≤ packetLen (isBinaryProtocol (c.buf bytes)) hd ∧
      p + packetLen (isBinaryProtocol (c.buf bytes)) hd ≤ c.received

/-- The headers of all calls do. -/
def RunFits (bytes : List UInt8) : List RespCall → Int → List Resp → Prop
  | [], _, _ => True
  | c :: rest, position, respData =>
      CallFits bytes c position ∧
        ∀ code position' respData',
          parseResp c.isAgin c.header (c.buf bytes) c.received position respData =
            some (code, position', respData') → RunFits bytes rest position' respData'

/-! ## One call -/

/-- The item of a response lies inside exactly when its length fits. -/
theorem respItem_inside_iff {size p : Int} (isBinary : Bool) (hd : MemcachedHeader)
    (hsize : size < 2147483648) (hp : 0 ≤ p) :
    (respItem isBinary p hd).Inside size ↔
      0 ≤ packetLen isBinary hd ∧ p + packetLen isBinary hd ≤ size := by
  have hlo : -2147483648 ≤ packetLen isBinary hd := int32_lower _
  have hhi : packetLen isBinary hd < 2147483648 := int32_upper _
  unfold Resp.Inside respItem
  dsimp only
  by_cases hneg : packetLen isBinary hd < 0
  · have hhuge := uint32_of_neg hlo hneg
    omega
  · have hcast := uint32_eq_self (x := packetLen isBinary hd) (by omega) (by omega)
    omega

/-- What an accepted binary header consists of. -/
theorem RespAccepted.binary_header {m : ByteMem} {size p : Int} {header hd : MemcachedHeader}
    (h : RespAccepted m size true header p hd) :
    24 ≤ int32 (size - p) ∧ hd = ⟨be16 (m.shift p) 2, (m.shift p 4).toNat,
      int32 (be32 (m.shift p) 8), (m.shift p 1).toNat⟩ := by
  obtain ⟨hsize, _, hhd⟩ := tryReadBinary_eq_one h.read
  exact ⟨hsize, hhd⟩

section Call

variable {bytes : List UInt8} {c : RespCall} {position : Int} (hsmall : c.received < 2147483648)
  (hlo : 0 ≤ position) (hhi : position ≤ c.received)

include hsmall hlo hhi

/-- Under fitting lengths the walk stays in what has been received. -/
theorem CallFits.walk_inside (hfit : CallFits bytes c position) {p : Int} {hdr : MemcachedHeader}
    (h : RespWalk (c.buf bytes) c.received (isBinaryProtocol (c.buf bytes)) position c.header p
      hdr) : 0 ≤ p ∧ p ≤ c.received := by
  induction h with
  | start => exact ⟨hlo, hhi⟩
  | @next p hdr hd before hacc ih =>
      obtain ⟨hlen, hend⟩ := hfit p hdr hd before hacc
      rw [int32_eq_self (by omega) (by omega)]
      omega

/-- **One call.** -/
theorem callInside_iff (respData : List Resp) :
    CallInside bytes c position respData ↔ CallFits bytes c position := by
  constructor
  · intro hinside p hdr hd hwalk hacc
    obtain ⟨t, hreach, rfl, rfl⟩ :=
      hwalk.reached (s := ⟨position, respData, c.isAgin, c.header⟩)
    have hpass := parseRespBody_of_accepted hacc
    have hnext := hreach.snoc (by rw [hpass])
    obtain ⟨hpos, _, items, hdata, _⟩ := hinside t hreach
    obtain ⟨_, _, items', hdata', hitems⟩ := hinside _ hnext
    rw [hpass, hdata, List.append_assoc] at hdata'
    have hsame := List.append_cancel_left hdata'
    have hitem := hitems (respItem (isBinaryProtocol (c.buf bytes)) t.position hd)
      (by rw [← hsame]; simp)
    exact (respItem_inside_iff _ hd (by omega) hpos).mp hitem
  · intro hfit t hreach
    have hwalk := reaches_respWalk hreach
    refine ⟨(hfit.walk_inside hsmall hlo hhi hwalk).1, (hfit.walk_inside hsmall hlo hhi hwalk).2, ?_⟩
    -- along the passes, every item appended belongs to a header that fits
    have hinv := hreach.invariant
      (fun u => Loop.Reaches
          (parseRespBody (c.buf bytes) c.received (isBinaryProtocol (c.buf bytes)))
          ⟨position, respData, c.isAgin, c.header⟩ u ∧
        ∃ items, u.respData = respData ++ items ∧ ∀ r ∈ items, r.Inside c.received) ?_
      ⟨.here _, [], by simp, by simp⟩
    · exact hinv.2
    · intro u hsplit hround
      obtain ⟨hu, items, hdata, hitems⟩ := hsplit
      obtain ⟨hd, hacc, hnext⟩ := parseRespBody_accepted hround
      have hp := (hfit.walk_inside hsmall hlo hhi (reaches_respWalk hu)).1
      have hitem := (respItem_inside_iff _ hd (by omega) hp).mpr
        (hfit _ _ hd (reaches_respWalk hu) hacc)
      refine ⟨hu.snoc hround, items ++ [respItem (isBinaryProtocol (c.buf bytes)) u.position hd],
        ?_, ?_⟩
      · rw [hnext, hdata, List.append_assoc]
      · intro r hr
        rcases List.mem_append.mp hr with hold | hnew
        · exact hitems r hold
        · rw [List.mem_singleton.mp hnew]
          exact hitem

end Call

/-- The position a call leaves is one at which it has made a pass. -/
theorem CallInside.position_after {bytes : List UInt8} {c : RespCall} {position : Int}
    {respData : List Resp} (h : CallInside bytes c position respData) {code : ExtRet}
    {position' : Int} {respData' : List Resp}
    (hparse : parseResp c.isAgin c.header (c.buf bytes) c.received position respData =
      some (code, position', respData')) : 0 ≤ position' ∧ position' ≤ c.received := by
  obtain ⟨⟨code', u⟩, hrun, heq⟩ := Option.map_eq_some_iff.mp hparse
  obtain ⟨t, hreach, hlast⟩ := Loop.exists_last_of_run hrun
  obtain ⟨hpos, _⟩ := parseRespBody_leave hlast
  have hsame : u.position = position' := congrArg (fun x => x.2.1) heq
  rw [← hsame, hpos]
  exact ⟨(h t hreach).1, (h t hreach).2.1⟩

/-! ## All calls -/

theorem runInside_iff {bytes : List UInt8} {calls : List RespCall} (h : Growing bytes calls)
    {position : Int} (hlo : 0 ≤ position) (hhi : ∀ c ∈ calls, position ≤ c.received)
    (respData : List Resp) :
    RunInside bytes calls position respData ↔ RunFits bytes calls position respData := by
  induction calls generalizing position respData with
  | nil => exact Iff.rfl
  | cons c rest ih =>
      have hc := h.received c List.mem_cons_self
      have hcall : CallInside bytes c position respData ↔ CallFits bytes c position :=
        callInside_iff (by have := h.small; omega) hlo (hhi c List.mem_cons_self) respData
      have hrest : Growing bytes rest := ⟨(List.pairwise_cons.mp h.growing).2,
        fun c' hc' => h.received c' (List.mem_cons_of_mem _ hc'), h.small⟩
      have hnext : CallInside bytes c position respData → ∀ code position' respData',
          parseResp c.isAgin c.header (c.buf bytes) c.received position respData =
            some (code, position', respData') →
          (RunInside bytes rest position' respData' ↔ RunFits bytes rest position' respData') := by
        intro hinside code position' respData' hparse
        obtain ⟨hlo', hhi'⟩ := hinside.position_after hparse
        refine ih hrest hlo' ?_ respData'
        intro c' hc'
        have hgrows := (List.pairwise_cons.mp h.growing).1 c' hc'
        omega
      rw [RunInside, RunFits, ← hcall]
      refine and_congr_right (fun hinside => ?_)
      exact forall_congr' (fun code => forall_congr' (fun position' => forall_congr'
        (fun respData' => imp_congr_right (hnext hinside code position' respData'))))

/-- **Parsed responses stay inside the received bytes exactly when the wire
lengths do**, in every run of calls on a growing buffer. -/
theorem responses_inside_iff {bytes : List UInt8} {calls : List RespCall}
    (h : Growing bytes calls) : RunInside bytes calls 0 [] ↔ RunFits bytes calls 0 [] :=
  runInside_iff h (Int.le_refl 0) (fun _ _ => Int.natCast_nonneg _) []

/-- The response to a no-op. -/
def noopResponse : List UInt8 :=
  [0x81, 0x0a, 0, 0, 0, 0, 0, 0, 0, 0, 0, 0, 0, 0, 0, 0, 0, 0, 0, 0, 0, 0, 0, 0]

/-- A call when some of it has been received. -/
def noopCall (received : Nat) : RespCall := ⟨received, fun _ => 0, false, ⟨0, 0, 0, 0⟩⟩

/-- Received in two pieces: the first call waits for the rest of the header, and
in the second the response ends where the received bytes do. -/
theorem noop_response_inside : RunInside noopResponse [noopCall 10, noopCall 24] 0 [] := by
  have hgrows : Growing noopResponse [noopCall 10, noopCall 24] := by
    refine ⟨.cons ?_ (.cons (by simp) .nil), ?_, by decide⟩
    · simp [noopCall]
    · simp [noopCall, noopResponse]
  have hbin : ∀ n, 0 < n → isBinaryProtocol ((noopCall n).buf noopResponse) = true := by
    intro n hn
    obtain ⟨k, rfl⟩ : ∃ k, n = k + 1 := ⟨n - 1, by omega⟩
    simp [isBinaryProtocol, RespCall.buf, noopCall, noopResponse, ByteMem.ofList, magicRes]
  refine (responses_inside_iff hgrows).mpr ⟨?_, ?_⟩
  · intro p hdr hd hwalk hacc
    rw [hbin 10 (by decide)] at hwalk hacc
    have hstart : p = 0 := by
      clear hacc
      induction hwalk with
      | start => rfl
      | next before hacc ih =>
          subst ih
          exact absurd hacc.binary_header.1 (by decide)
    subst hstart
    exact absurd hacc.binary_header.1 (by decide)
  · intro code position respData hparse
    have hwait : parseResp false ⟨0, 0, 0, 0⟩ ((noopCall 10).buf noopResponse) 10 0 [] =
        some (.again, 0, []) := by
      decide +kernel
    obtain ⟨_, rfl⟩ : code = .again ∧ position = 0 := by
      have heq := hparse.symm.trans hwait
      simp only [Option.some.injEq, Prod.mk.injEq] at heq
      exact ⟨heq.1, heq.2.1⟩
    refine ⟨?_, fun _ _ _ _ => trivial⟩
    intro p hdr hd hwalk hacc
    have hb := hbin 24 (by decide)
    rw [hb] at hwalk hacc ⊢
    have hlen : ∀ hdr hd, RespAccepted ((noopCall 24).buf noopResponse) 24 true hdr 0 hd →
        packetLen true hd = 24 := by
      intro hdr hd hacc
      rw [hacc.binary_header.2]
      decide +kernel
    have hwhere : p = 0 ∨ p = 24 := by
      clear hacc
      induction hwalk with
      | start => exact Or.inl rfl
      | next before hacc ih =>
          rcases ih with rfl | rfl
          · right
            rw [hlen _ _ hacc]
            decide
          · exact absurd hacc.binary_header.1 (by decide)
    rcases hwhere with rfl | rfl
    · rw [hlen _ _ hacc]
      decide
    · exact absurd hacc.binary_header.1 (by decide)

/-- A quiet response without a body, and the header of a response with ten bytes
of body that are still to come. -/
def headerArrived : List UInt8 :=
  [0x81, 0x0d, 0, 0, 0, 0, 0, 0, 0, 0, 0, 0, 0, 0, 0, 0, 0, 0, 0, 0, 0, 0, 0, 0,
   0x81, 0x00, 0, 0, 0, 0, 0, 0, 0, 0, 0, 10, 0, 0, 0, 0, 0, 0, 0, 0, 0, 0, 0, 0]

/-- **An item beyond the received bytes.**  The response of 34 bytes is compared
with the 48 bytes in the buffer, of which 24 lie before it. -/
theorem item_beyond_received :
    parseResp false ⟨0, 0, 0, 0⟩ (ByteMem.ofList headerArrived (fun _ => 0)) 48 0 [] =
      some (.success, 58, [⟨0, 24, 0⟩, ⟨24, 34, 0⟩]) ∧
    ¬ RunInside (headerArrived ++ List.replicate 10 7)
      [⟨48, fun _ => 0, false, ⟨0, 0, 0, 0⟩⟩] 0 [] := by
  refine ⟨by decide +kernel, ?_⟩
  intro hinside
  have hreach := hinside.1 _ (.pass (by decide +kernel) (.pass (by decide +kernel) (.here _)))
  have hposition := hreach.2.1
  revert hposition
  decide +kernel

end KvProxy
