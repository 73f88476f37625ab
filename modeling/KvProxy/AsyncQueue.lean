import Mathlib.Data.Fintype.Card
import KvProxy.Lib.MachineInt
import KvProxy.Lib.Steps

/-!
# The queue to the async thread

`readEvent` hands a batch for the backup hosts to `async_req`, and
`asyncReqThread` takes it from there.  A worker tests the length of the queue
without the lock and pushes with it; the async thread tests the length without
the lock, swaps the queue with its own under the lock, and then works through
its own.  The parties are interleaved step by step.

The length is a `size_t` that the worker's test converts to `int`.

* `Accounted.order` — at every moment the batches pushed are those processed,
  then those in the local queue, then those in `async_req`;
* `queue_accounted` — that holds in every run, and so does the bound on the
  length as long as it stays below `2 ^ 31`;
* `queue_overruns_int` — at `2 ^ 31` batches the test lets everything through.
-/

namespace KvProxy

open MachineInt

/-- Where the async thread is: before its length test, before the swap, or in
the inner loop. -/
inductive AsyncPhase where
  | look
  | swap
  | drain
  deriving DecidableEq, Repr

/-- The two queues, the workers (one that has passed the length test holds the
batch it is about to push) and the async thread.  `pushed` and `processed`
record the batches in the order in which that happened. -/
structure AsyncQueue (β : Type) (threads : Nat) where
  worker : Fin threads → Option β
  asyncReq : List β
  asyncReqTmp : List β
  phase : AsyncPhase
  pushed : List β
  processed : List β

/-- One step of a worker or of the async thread. -/
inductive QueueAction (β : Type) (threads : Nat) where
  | check (w : Fin threads) (batch : β)
  | push (w : Fin threads)
  | look
  | swap
  | process
  | done

namespace AsyncQueue

variable {β : Type} {threads : Nat}

/-- Nothing has been queued yet. -/
def new : AsyncQueue β threads := ⟨fun _ => none, [], [], .look, [], []⟩

/-- One step; `none` where the party is not at that point.  A batch that finds
the queue full is dropped. -/
def step (asyncSize : Int) (q : AsyncQueue β threads) :
    QueueAction β threads → Option (AsyncQueue β threads)
  | .check w batch =>
      if q.worker w = none then
        if int32 q.asyncReq.length < asyncSize then
          some { q with worker := Function.update q.worker w (some batch) }
        else some q
      else none
  | .push w =>
      match q.worker w with
      | none => none
      | some batch =>
          some { q with
            worker := Function.update q.worker w none
            asyncReq := q.asyncReq ++ [batch]
            pushed := q.pushed ++ [batch] }
  | .look =>
      if q.phase = .look then
        some { q with phase := if q.asyncReq.length > 0 then .swap else .drain }
      else none
  | .swap =>
      if q.phase = .swap then
        some { q with asyncReq := q.asyncReqTmp, asyncReqTmp := q.asyncReq, phase := .drain }
      else none
  | .process =>
      match q.phase, q.asyncReqTmp with
      | .drain, batch :: rest =>
          some { q with asyncReqTmp := rest, processed := q.processed ++ [batch] }
      | _, _ => none
  | .done =>
      if q.phase = .drain ∧ q.asyncReqTmp = [] then some { q with phase := .look } else none

/-- Everything a step can do. -/
inductive Move (asyncSize : Int) (q : AsyncQueue β threads) : AsyncQueue β threads → Prop
  | clears (w : Fin threads) (batch : β) (hidle : q.worker w = none)
      (hroom : int32 q.asyncReq.length < asyncSize) :
      Move asyncSize q { q with worker := Function.update q.worker w (some batch) }
  | drops : Move asyncSize q q
  | pushes (w : Fin threads) (batch : β) (hbusy : q.worker w = some batch) :
      Move asyncSize q { q with
        worker := Function.update q.worker w none
        asyncReq := q.asyncReq ++ [batch]
        pushed := q.pushed ++ [batch] }
  | looks (phase : AsyncPhase) (hphase : q.phase = .look) :
      Move asyncSize q { q with phase := phase }
  | swaps (hphase : q.phase = .swap) :
      Move asyncSize q { q with
        asyncReq := q.asyncReqTmp, asyncReqTmp := q.asyncReq, phase := .drain }
  | processes (batch : β) (rest : List β) (hphase : q.phase = .drain)
      (htmp : q.asyncReqTmp = batch :: rest) :
      Move asyncSize q { q with asyncReqTmp := rest, processed := q.processed ++ [batch] }
  | restarts (htmp : q.asyncReqTmp = []) : Move asyncSize q { q with phase := .look }

theorem move_of_step {asyncSize : Int} {q q' : AsyncQueue β threads} {a : QueueAction β threads}
    (h : step asyncSize q a = some q') : Move asyncSize q q' := by
  cases a with
  | check w batch =>
      simp only [step] at h
      split_ifs at h with hidle hroom
      · obtain rfl := Option.some.inj h
        exact .clears w batch hidle hroom
      · obtain rfl := Option.some.inj h
        exact .drops
  | push w =>
      cases hw : q.worker w with
      | none => simp [step, hw] at h
      | some batch =>
          simp only [step, hw, Option.some.injEq] at h
          subst h
          exact .pushes w batch hw
  | look =>
      by_cases hphase : q.phase = .look
      · rw [step, if_pos hphase] at h
        obtain rfl := Option.some.inj h
        exact .looks _ hphase
      · simp [step, hphase] at h
  | swap =>
      by_cases hphase : q.phase = .swap
      · rw [step, if_pos hphase] at h
        obtain rfl := Option.some.inj h
        exact .swaps hphase
      · simp [step, hphase] at h
  | process =>
      cases hphase : q.phase with
      | look => simp [step, hphase] at h
      | swap => simp [step, hphase] at h
      | drain =>
          cases htmp : q.asyncReqTmp with
          | nil => simp [step, hphase, htmp] at h
          | cons batch rest =>
              simp only [step, hphase, htmp, Option.some.injEq] at h
              subst h
              rw [← hphase]
              exact .processes batch rest hphase htmp
  | done =>
      by_cases hphase : q.phase = .drain ∧ q.asyncReqTmp = []
      · rw [step, if_pos hphase] at h
        obtain rfl := Option.some.inj h
        exact .restarts hphase.2
      · simp [step, hphase] at h

/-! ## No batch is lost -/

/-- At every moment the batches pushed are those processed, then those in the
local queue, then those in `async_req`; the local queue is empty outside of the
inner loop of the async thread. -/
structure Ordered (q : AsyncQueue β threads) : Prop where
  order : q.pushed = q.processed ++ q.asyncReqTmp ++ q.asyncReq
  drained : q.phase ≠ .drain → q.asyncReqTmp = []

theorem Ordered.step {asyncSize : Int} {q q' : AsyncQueue β threads} {a : QueueAction β threads}
    (hq : q.Ordered) (h : step asyncSize q a = some q') : q'.Ordered := by
  obtain ⟨horder, hdrained⟩ := hq
  cases move_of_step h with
  | clears w batch _ _ => exact ⟨horder, hdrained⟩
  | drops => exact ⟨horder, hdrained⟩
  | pushes w batch _ =>
      refine ⟨?_, hdrained⟩
      simp only
      rw [horder, List.append_assoc]
  | looks phase hphase => exact ⟨horder, fun _ => hdrained (by rw [hphase]; decide)⟩
  | swaps hphase =>
      -- the local queue is empty, so the swap hands over the whole of `async_req`
      have htmp := hdrained (by rw [hphase]; decide)
      refine ⟨?_, fun hne => absurd rfl hne⟩
      simp only
      rw [horder, htmp, List.append_nil, List.append_nil]
  | processes batch rest hphase htmp =>
      refine ⟨?_, fun hne => absurd hphase hne⟩
      simp only
      rw [horder, htmp]
      simp
  | restarts htmp => exact ⟨horder, fun _ => htmp⟩

/-! ## How long the queue gets -/

/-- The workers that have passed the length test and not pushed yet. -/
def cleared (q : AsyncQueue β threads) : Finset (Fin threads) :=
  Finset.univ.filter (fun w => (q.worker w).isSome)

/-- Every cleared worker is counted as if it had pushed already. -/
def Bounded (asyncSize : Int) (q : AsyncQueue β threads) : Prop :=
  (q.asyncReq.length : Int) + q.cleared.card ≤ asyncSize + threads - 1

theorem card_cleared_le (q : AsyncQueue β threads) : q.cleared.card ≤ threads := by
  have h := Finset.card_filter_le (Finset.univ : Finset (Fin threads))
    (fun w => (q.worker w).isSome)
  simpa [cleared] using h

/-- A worker that passes the test. -/
theorem card_cleared_check {q : AsyncQueue β threads} {w : Fin threads} (hidle : q.worker w = none)
    (batch : β) :
    ({ q with worker := Function.update q.worker w (some batch) } :
      AsyncQueue β threads).cleared.card = q.cleared.card + 1 ∧ q.cleared.card < threads := by
  have hnot : w ∉ q.cleared := by simp [cleared, hidle]
  have hinsert : ({ q with worker := Function.update q.worker w (some batch) } :
      AsyncQueue β threads).cleared = insert w q.cleared := by
    ext v
    by_cases hv : v = w
    · subst hv
      simp [cleared]
    · simp [cleared, hv]
  have hcard := Finset.card_insert_of_notMem hnot
  refine ⟨by rw [hinsert, hcard], ?_⟩
  have hle := card_cleared_le
    ({ q with worker := Function.update q.worker w (some batch) } : AsyncQueue β threads)
  rw [hinsert, hcard] at hle
  exact hle

/-- A worker that pushes. -/
theorem card_cleared_push {q : AsyncQueue β threads} {w : Fin threads} {batch : β}
    (hbusy : q.worker w = some batch) (asyncReq pushed : List β) :
    ({ q with
        worker := Function.update q.worker w none
        asyncReq := asyncReq
        pushed := pushed } : AsyncQueue β threads).cleared.card + 1 = q.cleared.card := by
  have hmem : w ∈ q.cleared := by simp [cleared, hbusy]
  have herase : ({ q with
      worker := Function.update q.worker w none
      asyncReq := asyncReq
      pushed := pushed } : AsyncQueue β threads).cleared = q.cleared.erase w := by
    ext v
    by_cases hv : v = w
    · subst hv
      simp [cleared]
    · simp [cleared, hv]
  rw [herase]
  exact Finset.card_erase_add_one hmem

theorem Bounded.step {asyncSize : Int} (hsize : 1 ≤ asyncSize)
    (hfit : asyncSize + threads ≤ 2147483648) {q q' : AsyncQueue β threads}
    {a : QueueAction β threads} (hq : q.Bounded asyncSize) (hord : q.Ordered)
    (h : step asyncSize q a = some q') : q'.Bounded asyncSize := by
  have hcard := card_cleared_le q
  unfold Bounded at hq ⊢
  cases move_of_step h with
  | clears w batch hidle hroom =>
      -- the length fits an `int`, so the test is on the length itself
      rw [int32_eq_self (by omega) (by omega)] at hroom
      obtain ⟨hnew, hlt⟩ := card_cleared_check hidle batch
      rw [hnew]
      simp only
      omega
  | drops => exact hq
  | pushes w batch hbusy =>
      have hpush := card_cleared_push hbusy (q.asyncReq ++ [batch]) (q.pushed ++ [batch])
      simp only [List.length_append, List.length_singleton]
      omega
  | looks phase _ => exact hq
  | swaps hphase =>
      have hnil := hord.drained (by rw [hphase]; decide)
      have hsame : ({ q with
          asyncReq := q.asyncReqTmp
          asyncReqTmp := q.asyncReq
          phase := .drain } : AsyncQueue β threads).cleared = q.cleared := rfl
      have hfirst : 0 ≤ asyncSize - 1 := Int.sub_nonneg_of_le hsize
      rw [hsame]
      simp only [hnil, List.length_nil]
      omega
  | processes batch rest _ _ => exact hq
  | restarts _ => exact hq

/-- **The async queue loses, repeats and reorders nothing**, and its length
stays below the bound as long as the bound is one an `int` can hold. -/
theorem queue_accounted {asyncSize : Int} (hsize : 1 ≤ asyncSize)
    {acts : List (QueueAction β threads)} {q : AsyncQueue β threads}
    (h : Steps.run (step asyncSize) new acts = some q) :
    q.pushed = q.processed ++ q.asyncReqTmp ++ q.asyncReq ∧
      (asyncSize + threads ≤ 2147483648 →
        (q.asyncReq.length : Int) ≤ asyncSize + threads - 1) := by
  have hany : Steps.EveryStep (step asyncSize) (fun _ _ => True) new acts :=
    Steps.everyStep_of_forall (fun _ _ => trivial) new acts
  have hnew : (new : AsyncQueue β threads).Ordered := ⟨rfl, fun _ => rfl⟩
  refine ⟨(Steps.run_invariant Ordered (fun _ _ _ hq _ hs => hq.step hs) hnew hany h).order, ?_⟩
  intro hfit
  have hbound := Steps.run_invariant (fun q => q.Ordered ∧ q.Bounded asyncSize)
    (fun _ _ _ hq _ hs => ⟨hq.1.step hs, hq.2.step hsize hfit hq.1 hs⟩)
    ⟨hnew, ?_⟩ hany h
  · have := hbound.2
    unfold Bounded at this
    omega
  · have hnone : (new : AsyncQueue β threads).cleared = ∅ := by simp [cleared, new]
    unfold Bounded
    rw [hnone]
    simp only [new, List.length_nil, Finset.card_empty]
    omega

/-- Two workers and a queue of one: both pass the test on the empty queue and
push, which is as far as it gets. -/
theorem queue_accounted_two_workers :
    ∃ q : AsyncQueue Nat 2,
      Steps.run (step 1) new [.check 0 7, .check 1 8, .push 1, .push 0, .look, .swap, .process] =
        some q ∧ q.pushed = [8, 7] ∧ q.processed = [8] ∧
      q.pushed = q.processed ++ q.asyncReqTmp ++ q.asyncReq ∧
      (q.asyncReq.length : Int) ≤ 1 + (2 : Nat) - 1 := by
  have hrun : Steps.run (step 1) (new : AsyncQueue Nat 2)
      [.check 0 7, .check 1 8, .push 1, .push 0, .look, .swap, .process] =
        some ⟨_, [], [7], .drain, [8, 7], [8]⟩ := rfl
  obtain ⟨horder, hbound⟩ := queue_accounted (by decide) hrun
  exact ⟨_, hrun, rfl, rfl, horder, hbound (by decide)⟩

/-! ## A queue longer than an `int` -/

/-- The queue after `k` batches, while nobody takes them away. -/
def filled (k : Nat) : AsyncQueue Unit 2 :=
  ⟨fun _ => none, List.replicate k (), [], .look, List.replicate k (), []⟩

theorem step_check {asyncSize : Int} {q : AsyncQueue β threads} {w : Fin threads}
    (hidle : q.worker w = none) (hroom : int32 q.asyncReq.length < asyncSize) (batch : β) :
    step asyncSize q (.check w batch) =
      some { q with worker := Function.update q.worker w (some batch) } := by
  rw [step, if_pos hidle, if_pos hroom]

/-- One worker adds one batch. -/
theorem filled_succ {asyncSize : Int} {k : Nat} (hroom : int32 k < asyncSize) :
    Steps.run (step asyncSize) (filled k) [.check 0 (), .push 0] = some (filled (k + 1)) := by
  have hlen : int32 (filled k).asyncReq.length < asyncSize := by
    simpa [filled] using hroom
  rw [Steps.run_cons (step_check rfl hlen ())]
  simp [Steps.run, step, filled, List.replicate_succ']

theorem filled_reached {asyncSize : Int} {k : Nat} (hroom : ∀ j < k, int32 (j : Nat) < asyncSize) :
    ∃ acts, Steps.run (step asyncSize) new acts = some (filled k) := by
  induction k with
  | zero => exact ⟨[], rfl⟩
  | succ k ih =>
      obtain ⟨acts, hacts⟩ := ih (fun j hj => hroom j (by omega))
      refine ⟨acts ++ [.check 0 (), .push 0], ?_⟩
      rw [Steps.run_append hacts]
      exact filled_succ (hroom k (Nat.lt_succ_self k))

/-- Two workers pass the test on the same length. -/
theorem filled_add_two {asyncSize : Int} {k : Nat} (hroom : int32 k < asyncSize) :
    Steps.run (step asyncSize) (filled k) [.check 0 (), .check 1 (), .push 0, .push 1] =
      some (filled (k + 2)) := by
  have hlen : int32 (filled k).asyncReq.length < asyncSize := by
    simpa [filled] using hroom
  rw [Steps.run_cons (step_check rfl hlen ())]
  have hagain := step_check (q := { filled k with
    worker := Function.update (filled k).worker 0 (some ()) }) (w := 1) rfl hlen ()
  have hidle : Function.update (Function.update (Function.update (Function.update
      (fun _ : Fin 2 => (none : Option Unit)) 0 (some ())) 1 (some ())) 0 none) 1 none =
        fun _ => none :=
    funext (fun | 0 => rfl | 1 => rfl)
  rw [Steps.run_cons hagain]
  simp [Steps.run, step, filled, List.replicate_succ', hidle]

/-- **The bound fails beyond the range of `int`.**  With the largest
`async_size` two workers bring the queue to `2 ^ 31` batches; converted to
`int` that is negative, and the next batch is let in too. -/
theorem queue_overruns_int :
    ∃ acts, ∃ q : AsyncQueue Unit 2, Steps.run (step 2147483647) new acts = some q ∧
      ¬ (q.asyncReq.length : Int) ≤ 2147483647 + (2 : Nat) - 1 := by
  have hroom : ∀ j < 2147483646, int32 (j : Nat) < 2147483647 := by
    intro j hj
    rw [int32_eq_self (by omega) (by omega)]
    omega
  obtain ⟨acts, hacts⟩ := filled_reached hroom
  refine ⟨acts ++ ([.check 0 (), .check 1 (), .push 0, .push 1] ++ [.check 0 (), .push 0]),
    filled 2147483649, ?_, ?_⟩
  · rw [Steps.run_append hacts, Steps.run_append (filled_add_two (by decide))]
    exact filled_succ (by decide)
  · simp only [filled, List.length_replicate]
    decide

end AsyncQueue

end KvProxy
