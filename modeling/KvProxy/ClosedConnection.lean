import KvProxy.Reading

/-!
# A connection that the host has closed

When `recv` returns zero, `readFromBackend` destroys the connection and goes
round once more: the next `select` is on a descriptor that is closed, or has
been given to somebody else by then.

* `readLoop_open` — without a zero nothing is destroyed;
* `readLoop_closed` — after a zero there is another `select`;
* `closed_not_used_iff` — a destroyed connection is left alone exactly when
  there is none.
-/

namespace KvProxy

/-- The effect is a `select` or a `recv` on the descriptor. -/
def Effect.Uses (fd : Nat) : Effect → Prop
  | .select fd' => fd' = fd
  | .recv fd' _ => fd' = fd
  | _ => False

/-- Once the descriptor has been destroyed, it is not used any more. -/
def NoUseAfterDestroy (fd : Nat) (effects : List Effect) : Prop :=
  ∀ before after, effects = before ++ .destroy fd :: after → ∀ e ∈ after, ¬ e.Uses fd

/-- A `recv` of this round does not return zero. -/
def RoundOpen (cfg : BackendConfig) (s : ReadState) : RecvResult → Prop
  | .data bytes _ _ => chunkOf cfg s bytes ≠ []
  | _ => True

/-- No `recv` that a reading comes to returns zero. -/
def ReadingOpen (cfg : BackendConfig) (fd : Nat) : List RecvResult → ReadState → Prop
  | [], _ => True
  | ev :: rest, s =>
      RoundOpen cfg s ev ∧
        ∀ s', (readRound cfg fd ev s).result = some (.goOn, s') → ReadingOpen cfg fd rest s'

/-! ## One round -/

/-- A round with something received, or without a `recv`, destroys nothing. -/
theorem readRound_open {cfg : BackendConfig} (fd : Nat) {ev : RecvResult} {s : ReadState}
    (h : RoundOpen cfg s ev) : .destroy fd ∉ (readRound cfg fd ev s).effects := by
  rcases readRound_cases cfg fd ev s with
    ⟨flow, _, _, hround⟩ | ⟨bytes, isAgin, header, rfl, hround⟩
  · rw [hround]
    simp
  · rw [hround]
    rcases recvData_cases cfg fd bytes isAgin header s with
      ⟨hclosed, _⟩ | ⟨_, _, heq⟩ | ⟨_, _, _, heq⟩ | ⟨code, pos, items, _, _, _, heq⟩
    · exact absurd hclosed h
    · rw [heq]
      simp
    · rw [heq]
      simp
    · rw [heq]
      simp

/-- A round that receives nothing destroys the connection and goes on. -/
theorem readRound_closed {cfg : BackendConfig} (fd : Nat) {ev : RecvResult} {s : ReadState}
    (h : ¬ RoundOpen cfg s ev) :
    (readRound cfg fd ev s).effects = [.select fd, .recv fd [], .destroy fd] ∧
      ∃ s', (readRound cfg fd ev s).result = some (.goOn, s') := by
  cases ev with
  | data bytes isAgin header =>
      have hclosed : chunkOf cfg s bytes = [] := not_not.mp h
      rw [readRound_data]
      rcases recvData_cases cfg fd bytes isAgin header s with
        ⟨_, heq⟩ | ⟨hne, _⟩ | ⟨hne, _⟩ | ⟨code, pos, items, hne, _⟩
      · rw [heq]
        exact ⟨rfl, _, rfl⟩
      · exact absurd hclosed hne
      · exact absurd hclosed hne
      · exact absurd hclosed hne
  | _ => exact absurd trivial h

/-- Every round, and the end of every reading, begins with a `select`. -/
theorem readLoop_select (cfg : BackendConfig) (fd : Nat) (recvs : List RecvResult)
    (s : ReadState) : ∃ effects, (readLoop cfg fd recvs s).effects = .select fd :: effects := by
  cases recvs with
  | nil => exact ⟨[], rfl⟩
  | cons ev rest =>
      have hround : ∃ effects, (readRound cfg fd ev s).effects = .select fd :: effects := by
        unfold readRound
        rw [Act.emit_bind]
        exact ⟨_, rfl⟩
      obtain ⟨effects, heffects⟩ := hround
      rcases readLoop_cons cfg fd ev rest s with ⟨s', _, heq⟩ | ⟨_, heq⟩
      · rw [heq, heffects]
        exact ⟨_, rfl⟩
      · rw [heq, heffects]
        exact ⟨_, rfl⟩

/-! ## All rounds -/

theorem readLoop_open {cfg : BackendConfig} {fd : Nat} {recvs : List RecvResult} {s : ReadState}
    (h : ReadingOpen cfg fd recvs s) : .destroy fd ∉ (readLoop cfg fd recvs s).effects := by
  induction recvs generalizing s with
  | nil => simp [readLoop]
  | cons ev rest ih =>
      obtain ⟨hround, hlater⟩ := h
      rcases readLoop_cons cfg fd ev rest s with ⟨s', hgoes, heq⟩ | ⟨_, heq⟩
      · rw [heq]
        intro hmem
        rcases List.mem_append.mp hmem with hhere | hrest
        · exact readRound_open fd hround hhere
        · exact ih (hlater s' hgoes) hrest
      · rw [heq]
        exact readRound_open fd hround

theorem readLoop_closed {cfg : BackendConfig} {fd : Nat} {recvs : List RecvResult} {s : ReadState}
    (h : ¬ ReadingOpen cfg fd recvs s) :
    ∃ before after,
      (readLoop cfg fd recvs s).effects = before ++ .destroy fd :: .select fd :: after := by
  induction recvs generalizing s with
  | nil => exact absurd trivial h
  | cons ev rest ih =>
      by_cases hround : RoundOpen cfg s ev
      · -- the zero comes in a later round
        rcases readLoop_cons cfg fd ev rest s with ⟨s', hgoes, heq⟩ | ⟨hleaves, _⟩
        · have hlater : ¬ ReadingOpen cfg fd rest s' :=
            fun hopen => h ⟨hround, (forall_goOn_iff hgoes _).mpr hopen⟩
          obtain ⟨before, after, hrest⟩ := ih hlater
          refine ⟨(readRound cfg fd ev s).effects ++ before, after, ?_⟩
          rw [heq, hrest, List.append_assoc]
        · exact absurd ⟨hround, fun s' hs' => absurd hs' (hleaves s')⟩ h
      · obtain ⟨heffects, s', hgoes⟩ := readRound_closed fd hround
        obtain ⟨after, hselect⟩ := readLoop_select cfg fd rest s'
        refine ⟨[.select fd, .recv fd []], after, ?_⟩
        rw [readLoop_goOn hgoes, heffects, hselect]
        rfl

/-- **No use of a closed connection.**  A reading leaves a destroyed connection
alone exactly when no `recv` it comes to returns zero. -/
theorem closed_not_used_iff (cfg : BackendConfig) (fd : Nat) (recvs : List RecvResult)
    (t : Thread) (respList : List Resp) :
    NoUseAfterDestroy fd (readFromBackend cfg fd recvs t respList).effects ↔
      ReadingOpen cfg fd recvs ⟨0, { t with respBufLen := 0 }, respList⟩ := by
  rw [readFromBackend_eq]
  constructor
  · intro hleft
    by_contra hclosed
    obtain ⟨before, after, heffects⟩ := readLoop_closed hclosed
    exact hleft before _ heffects (.select fd) List.mem_cons_self rfl
  · intro hopen before after heffects
    have hnone := readLoop_open hopen
    rw [heffects] at hnone
    exact absurd (List.mem_append_right before List.mem_cons_self) hnone

/-- **A closed connection used.**  The host closes the connection before it
answers, and the descriptor is selected on once more after it was destroyed. -/
theorem destroyed_then_selected :
    (readFromBackend .default 5 [.data [] false ⟨0, 0, 0, 0⟩] (.new (fun _ => 0)) []).effects =
      [.select 5, .recv 5 [], .destroy 5, .select 5] ∧
    ¬ NoUseAfterDestroy 5
      (readFromBackend .default 5 [.data [] false ⟨0, 0, 0, 0⟩] (.new (fun _ => 0)) []).effects := by
  have heffects : (readFromBackend .default 5 [.data [] false ⟨0, 0, 0, 0⟩]
      (.new (fun _ => 0)) []).effects = [.select 5, .recv 5 [], .destroy 5, .select 5] := rfl
  refine ⟨heffects, ?_⟩
  intro hleft
  exact hleft [.select 5, .recv 5 []] [.select 5] heffects (.select 5) List.mem_cons_self rfl

end KvProxy
