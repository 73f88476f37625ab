import KvProxy.Backend

/-!
# What the backend receives of a message

`writeToBackend` goes on after a failed `send`: it gives the connection up,
gets another one, and sends what has not been sent yet.  The new connection
has received nothing of the message so far, so a message that was begun on one
connection and finished on another arrives on neither.

The lengths are `int`s here: a message of `2 ^ 31` bytes or more has a negative
`msg_len`, and the first `send` that gets anything through ends the loop.
`writeLoop_eq` says that shorter messages go as in `Backend`.

* `receivedLast` — what the connection that is left has received;
* `delivers_whole_iff` — it is the whole message exactly when no connection is
  replaced in the middle of a message that gets out.
-/

namespace KvProxy

open MachineInt

namespace IntSized

/-- The loop of `writeToBackend`.  The kernel sends at most `2 ^ 31 - 1` bytes at
once. -/
def writeLoop (content : ByteMem) (msgLen : Int) :
    List SendResult → Nat → Int → Act Effect (Nat × Int)
  | [], fd, _ => do
      Act.emit (.destroy fd)
      pure (0, 0)
  | .sent more :: rest, fd, sendLen => do
      let retLen := min (more + 1) (min (sizeT (msgLen - sendLen)) 2147483647)
      Act.emit (.send fd (content.slice sendLen retLen))
      if int32 (sendLen + retLen) ≥ msgLen then pure (fd, int32 (sendLen + retLen))
      else writeLoop content msgLen rest fd (int32 (sendLen + retLen))
  | .intr :: rest, fd, sendLen => writeLoop content msgLen rest fd sendLen
  | .error reconnect :: rest, fd, sendLen => do
      Act.emit (.destroy fd)
      if reconnect = 0 then pure (0, 0) else writeLoop content msgLen rest reconnect sendLen

/-- `writeToBackend(conn_fd, content, len)`. -/
def writeToBackend (fd : Nat) (content : ByteMem) (len : UInt32) (sends : List SendResult) :
    Act Effect (Nat × Int) := do
  Act.emit (.write (content.slice 0 len.toNat))
  writeLoop content (int32 len.toNat) sends fd 0

end IntSized

/-! ## What is received -/

/-- What the connection in use has received after an effect. -/
def receive (got : List UInt8) : Effect → List UInt8
  | .send _ bytes => got ++ bytes
  | .destroy _ => []
  | _ => got

/-- What the connection that is left has received. -/
def receivedLast (effects : List Effect) : List UInt8 := effects.foldl receive []

/-- If the message is reported as sent, the connection that is left has received
it, once and nothing else. -/
def DeliversWhole (fd : Nat) (content : ByteMem) (len : UInt32) (sends : List SendResult) : Prop :=
  ∀ conn sendLen, (IntSized.writeToBackend fd content len sends).result = some (conn, sendLen) →
    (len.toNat : Int) ≤ sendLen →
    receivedLast (IntSized.writeToBackend fd content len sends).effects = content.slice 0 len.toNat

/-- The results get what is left of a message out, on whatever connections. -/
def GetsOut (len : Nat) : List SendResult → Nat → Prop
  | [], _ => False
  | .sent more :: rest, sendLen =>
      len ≤ sendLen + (more + 1) ∨ GetsOut len rest (sendLen + (more + 1))
  | .intr :: rest, sendLen => GetsOut len rest sendLen
  | .error reconnect :: rest, sendLen => reconnect ≠ 0 ∧ GetsOut len rest sendLen

/-- No connection is replaced when a part of the message has been sent on it and
the rest gets out. -/
def Uncut (len : Nat) : List SendResult → Nat → Prop
  | [], _ => True
  | .sent more :: rest, sendLen =>
      len ≤ sendLen + (more + 1) ∨ Uncut len rest (sendLen + (more + 1))
  | .intr :: rest, sendLen => Uncut len rest sendLen
  | .error reconnect :: rest, sendLen =>
      reconnect = 0 ∨ (if sendLen = 0 then Uncut len rest 0 else ¬ GetsOut len rest sendLen)

instance decidableGetsOut (len : Nat) :
    (sends : List SendResult) → (sendLen : Nat) → Decidable (GetsOut len sends sendLen)
  | [], _ => isFalse id
  | .sent more :: rest, sendLen =>
      have := decidableGetsOut len rest (sendLen + (more + 1))
      inferInstanceAs (Decidable (_ ∨ _))
  | .intr :: rest, sendLen => decidableGetsOut len rest sendLen
  | .error _ :: rest, sendLen =>
      have := decidableGetsOut len rest sendLen
      inferInstanceAs (Decidable (_ ∧ _))

instance decidableUncut (len : Nat) :
    (sends : List SendResult) → (sendLen : Nat) → Decidable (Uncut len sends sendLen)
  | [], _ => isTrue trivial
  | .sent more :: rest, sendLen =>
      have := decidableUncut len rest (sendLen + (more + 1))
      inferInstanceAs (Decidable (_ ∨ _))
  | .intr :: rest, sendLen => decidableUncut len rest sendLen
  | .error _ :: rest, _ =>
      have := decidableUncut len rest 0
      inferInstanceAs (Decidable (_ ∨ _))

/-! ## Short messages -/

/-- The chunk that a `send` takes. -/
theorem slice_drop_take (content : ByteMem) {len n k : Nat} (h : n ≤ len) :
    ((content.slice 0 len).drop n).take k = content.slice n (min k (len - n)) := by
  obtain ⟨rest, rfl⟩ := Nat.exists_eq_add_of_le h
  have hdrop : (content.slice 0 (n + rest)).drop n = content.slice n rest := by
    rw [ByteMem.slice_add, List.drop_left' (by simp), Int.zero_add]
  rw [hdrop, Nat.add_sub_cancel_left]
  rcases Nat.le_total k rest with hk | hk
  · obtain ⟨more, rfl⟩ := Nat.exists_eq_add_of_le hk
    rw [ByteMem.slice_add, List.take_left' (by simp), Nat.min_eq_left hk]
  · rw [List.take_of_length_le (by simpa using hk), Nat.min_eq_right hk]

/-- A message of fewer than `2 ^ 31` bytes goes as if the lengths had no bound. -/
theorem writeLoop_eq (content : ByteMem) {len : Nat} (hlen : len < 2147483648)
    (sends : List SendResult) (fd : Nat) {sendLen : Nat} (hsend : sendLen < len) :
    IntSized.writeLoop content len sends fd sendLen =
      ⟨(writeLoop (content.slice 0 len) sends fd sendLen).effects,
        (writeLoop (content.slice 0 len) sends fd sendLen).result.map
          (fun r => (r.1, (r.2 : Int)))⟩ := by
  induction sends generalizing fd sendLen with
  | nil => rfl
  | cons result rest ih =>
      cases result with
      | sent more =>
          have hleft : sizeT ((len : Int) - sendLen) = len - sendLen := by
            unfold sizeT
            omega
          have hmin : min (more + 1) (min (len - sendLen) 2147483647) =
              min (more + 1) (len - sendLen) := by
            omega
          have hsum : int32 ((sendLen : Int) + (min (more + 1) (len - sendLen) : Nat)) =
              ((sendLen + min (more + 1) (len - sendLen) : Nat) : Int) := by
            unfold int32
            omega
          simp only [IntSized.writeLoop, writeLoop, Act.emit_bind, hleft, hmin, hsum,
            slice_drop_take content hsend.le, ByteMem.length_slice, ge_iff_le, Int.ofNat_le]
          split_ifs with hall
          · rfl
          · rw [ih fd (by omega)]
      | intr => exact ih fd hsend
      | error reconnect =>
          simp only [IntSized.writeLoop, writeLoop, Act.emit_bind]
          split_ifs with hnone
          · rfl
          · rw [ih reconnect hsend]

/-! ## The message on the connection that is left -/

section WriteLoop

variable {msg : List UInt8}

/-- The loop reports the message as sent exactly when the results get it out. -/
theorem getsOut_iff {sends : List SendResult} {fd sendLen : Nat} (hsend : sendLen < msg.length) :
    (∃ r, (writeLoop msg sends fd sendLen).result = some r ∧ msg.length ≤ r.2) ↔
      GetsOut msg.length sends sendLen := by
  induction sends generalizing fd sendLen with
  | nil =>
      simp only [writeLoop, Act.emit_bind, Act.pure_result, Option.some.injEq, exists_eq_left',
        GetsOut, iff_false]
      omega
  | cons result rest ih =>
      cases result with
      | sent more =>
          simp only [writeLoop, Act.emit_bind, GetsOut, List.length_take, List.length_drop]
          split_ifs with hall
          · simp only [Act.pure_result, Option.some.injEq, exists_eq_left']
            omega
          · rw [ih (by omega), show min (more + 1) (msg.length - sendLen) = more + 1 by omega]
            exact ⟨Or.inr, fun h => h.resolve_left (by omega)⟩
      | intr => exact ih hsend
      | error reconnect =>
          simp only [writeLoop, Act.emit_bind, GetsOut]
          split_ifs with hnone
          · simp only [Act.pure_result, Option.some.injEq, exists_eq_left', hnone, ne_eq,
              not_true_eq_false, false_and, iff_false]
            omega
          · rw [ih hsend]
            exact ⟨fun h => ⟨hnone, h⟩, fun h => h.2⟩

/-- Where a connection has missed a part of the message, no later one has all of
it. -/
theorem received_short (sends : List SendResult) (fd : Nat) {sendLen : Nat} {got : List UInt8}
    (hsend : sendLen < msg.length) (hgot : got.length < sendLen) :
    ((writeLoop msg sends fd sendLen).effects.foldl receive got).length < msg.length := by
  induction sends generalizing fd sendLen got with
  | nil =>
      simp only [writeLoop, Act.emit_bind, Act.pure_effects, List.foldl_cons, List.foldl_nil,
        receive, List.length_nil]
      omega
  | cons result rest ih =>
      cases result with
      | sent more =>
          have hlength : (receive got (.send fd ((msg.drop sendLen).take (more + 1)))).length =
              got.length + min (more + 1) (msg.length - sendLen) := by
            simp [receive]
          simp only [writeLoop, Act.emit_bind, List.foldl_cons, List.length_take, List.length_drop]
          split_ifs with hall
          · rw [Act.pure_effects, List.foldl_nil, hlength]
            omega
          · exact ih fd (by omega) (by omega)
      | intr => exact ih fd hsend hgot
      | error reconnect =>
          simp only [writeLoop, Act.emit_bind, List.foldl_cons]
          split_ifs with hnone
          · simp only [Act.pure_effects, List.foldl_nil, receive, List.length_nil]
            omega
          · refine ih reconnect hsend ?_
            simp only [receive, List.length_nil]
            omega

/-- **The loop**, on a connection that has received what was sent so far: a
message that gets out is received whole exactly when it is not cut. -/
theorem received_iff {sends : List SendResult} {fd sendLen : Nat} (hsend : sendLen < msg.length)
    (hout : GetsOut msg.length sends sendLen) :
    (writeLoop msg sends fd sendLen).effects.foldl receive (msg.take sendLen) = msg ↔
      Uncut msg.length sends sendLen := by
  induction sends generalizing fd sendLen with
  | nil => exact absurd hout id
  | cons result rest ih =>
      cases result with
      | sent more =>
          have hgot : receive (msg.take sendLen) (.send fd ((msg.drop sendLen).take (more + 1))) =
              msg.take (sendLen + (more + 1)) := by
            rw [receive, List.take_add (i := sendLen)]
          simp only [writeLoop, Act.emit_bind, List.foldl_cons, hgot, List.length_take,
            List.length_drop, Uncut]
          split_ifs with hall
          · rw [Act.pure_effects, List.foldl_nil, List.take_of_length_le (by omega)]
            simp only [true_iff]
            omega
          · have hmin : min (more + 1) (msg.length - sendLen) = more + 1 := by omega
            rw [hmin, ih (by omega) (hout.resolve_left (by omega))]
            exact ⟨Or.inr, fun h => h.resolve_left (by omega)⟩
      | intr => exact ih hsend hout
      | error reconnect =>
          obtain ⟨hconn, hrest⟩ := hout
          simp only [writeLoop, Act.emit_bind, List.foldl_cons, if_neg hconn, Uncut, receive]
          by_cases hzero : sendLen = 0
          · -- nothing was sent on the connection that is replaced
            subst hzero
            rw [if_pos rfl, ← ih hsend hrest, List.take_zero]
            exact ⟨Or.inr, fun h => h.resolve_left hconn⟩
          · rw [if_neg hzero]
            have hshort : ((writeLoop msg rest reconnect sendLen).effects.foldl receive []).length <
                msg.length :=
              received_short rest reconnect hsend (Nat.pos_of_ne_zero hzero)
            constructor
            · intro hall
              rw [hall] at hshort
              exact absurd hshort (Nat.lt_irrefl _)
            · intro huncut
              exact absurd hrest (huncut.resolve_left hconn)

theorem uncut_of_not_getsOut {len : Nat} {sends : List SendResult} {sendLen : Nat}
    (h : ¬ GetsOut len sends sendLen) : Uncut len sends sendLen := by
  induction sends generalizing sendLen with
  | nil => trivial
  | cons result rest ih =>
      cases result with
      | sent more =>
          simp only [GetsOut, not_or] at h
          exact Or.inr (ih h.2)
      | intr => exact ih h
      | error reconnect =>
          simp only [GetsOut, not_and_or, not_not] at h
          rcases h with hnone | hrest
          · exact Or.inl hnone
          · right
            split_ifs with hzero
            · exact ih (hzero ▸ hrest)
            · exact hrest

/-- The loop from the start of a message. -/
theorem writeLoop_delivers_iff (sends : List SendResult) (fd : Nat) (hmsg : 0 < msg.length) :
    (∀ r, (writeLoop msg sends fd 0).result = some r → msg.length ≤ r.2 →
      (writeLoop msg sends fd 0).effects.foldl receive [] = msg) ↔ Uncut msg.length sends 0 := by
  by_cases hout : GetsOut msg.length sends 0
  · rw [← received_iff hmsg hout, List.take_zero]
    constructor
    · intro h
      obtain ⟨r, hr, hle⟩ := (getsOut_iff hmsg).mpr hout
      exact h r hr hle
    · exact fun h _ _ _ => h
  · refine iff_of_true ?_ (uncut_of_not_getsOut hout)
    intro r hr hle
    exact absurd ((getsOut_iff hmsg).mp ⟨r, hr, hle⟩) hout

end WriteLoop

/-- What is reported as sent is an `int`. -/
theorem IntSized.writeLoop_lt (content : ByteMem) (msgLen : Int) (sends : List SendResult)
    (fd : Nat) (sendLen : Int) :
    (IntSized.writeLoop content msgLen sends fd sendLen).Spec (fun _ => True)
      (fun r => r.2 < 2147483648) := by
  induction sends generalizing fd sendLen with
  | nil =>
      apply (Act.Spec.emit (e := Effect.destroy fd) trivial).bind
      intro _ _
      exact .pure (by decide)
  | cons result rest ih =>
      cases result with
      | sent more =>
          apply (Act.Spec.emit (e := Effect.send fd _) trivial).bind
          intro _ _
          split_ifs with hall
          · exact .pure (int32_upper _)
          · exact ih _ _
      | intr => exact ih _ _
      | error reconnect =>
          apply (Act.Spec.emit (e := Effect.destroy fd) trivial).bind
          intro _ _
          split_ifs with hnone
          · exact .pure (by decide)
          · exact ih _ _

/-- **Whole messages.**  The connection that `writeToBackend` leaves has received
a message that is reported as sent exactly when no connection was replaced in
the middle of it.  (A message of `2 ^ 31` bytes or more is never reported as
sent.) -/
theorem delivers_whole_iff (fd : Nat) (content : ByteMem) {len : UInt32} (hlen : 0 < len.toNat)
    (sends : List SendResult) :
    DeliversWhole fd content len sends ↔ (len.toNat < 2147483648 → Uncut len.toNat sends 0) := by
  have hresult : (IntSized.writeToBackend fd content len sends).result =
      (IntSized.writeLoop content (int32 len.toNat) sends fd 0).result := by
    simp [IntSized.writeToBackend]
  have heffects : receivedLast (IntSized.writeToBackend fd content len sends).effects =
      (IntSized.writeLoop content (int32 len.toNat) sends fd 0).effects.foldl receive [] := by
    simp [IntSized.writeToBackend, receivedLast, receive]
  unfold DeliversWhole
  rw [hresult, heffects]
  by_cases hshort : len.toNat < 2147483648
  · -- the loop is the one without a bound on the lengths
    have hint : int32 len.toNat = (len.toNat : Int) := int32_eq_self (by omega) (by omega)
    have hloop := writeLoop_eq content hshort sends fd hlen
    rw [Int.natCast_zero] at hloop
    have hlength : (content.slice 0 len.toNat).length = len.toNat := ByteMem.length_slice ..
    have hdelivers := writeLoop_delivers_iff sends fd (by rw [hlength]; exact hlen)
    rw [hlength] at hdelivers
    simp only [hshort, true_imp_iff]
    rw [← hdelivers, hint, hloop]
    simp only [Option.map_eq_some_iff]
    constructor
    · intro h r hr hle
      exact h r.1 r.2 ⟨r, hr, rfl⟩ (by omega)
    · intro h conn sendLen hsome hle
      obtain ⟨r, hr, heq⟩ := hsome
      simp only [Prod.mk.injEq] at heq
      exact h r hr (by omega)
  · constructor
    · exact fun _ h => absurd h hshort
    · intro _ conn sendLen hsome hle
      have hlt := (IntSized.writeLoop_lt content (int32 len.toNat) sends fd 0).result _ hsome
      simp only at hlt
      omega

/-- Three bytes, sent in two parts with an interruption in between, after a
connection that was dead from the start. -/
theorem delivers_whole_two_parts :
    DeliversWhole 5 (fun i => i.toNat.toUInt8) 3 [.error 6, .sent 0, .intr, .sent 1] :=
  (delivers_whole_iff 5 _ (by decide) _).mpr (fun _ => by decide)

/-- **A message is cut**: one byte of three is sent on the first connection and
two on the second, and the message is reported as sent. -/
theorem message_cut : ¬ DeliversWhole 5 (fun i => i.toNat.toUInt8) 3 [.sent 0, .error 6, .sent 1] ∧
    (IntSized.writeToBackend 5 (fun i => i.toNat.toUInt8) 3 [.sent 0, .error 6, .sent 1]).result =
      some (6, 3) ∧
    receivedLast (IntSized.writeToBackend 5 (fun i => i.toNat.toUInt8) 3
      [.sent 0, .error 6, .sent 1]).effects = [1, 2] := by
  have hresult : (IntSized.writeToBackend 5 (fun i => i.toNat.toUInt8) 3
      [.sent 0, .error 6, .sent 1]).result = some (6, 3) := by
    decide +kernel
  have hreceived : receivedLast (IntSized.writeToBackend 5 (fun i => i.toNat.toUInt8) 3
      [.sent 0, .error 6, .sent 1]).effects = [1, 2] := by
    decide +kernel
  refine ⟨?_, hresult, hreceived⟩
  intro h
  have hall := h 6 3 hresult (by decide)
  rw [hreceived] at hall
  revert hall
  decide

end KvProxy
