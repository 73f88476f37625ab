import Mathlib.Data.List.Induction
import Mathlib.Tactic.Common

/-!
# Systems of guarded steps

A system is a step function `σ → α → Option σ`: an action either cannot be
taken in a state (`none`) or leads to the next state.  A run is a list of
actions, taken one after the other; an interleaving of several parties is one
run over the actions of all of them.

* `EveryStep` — what holds of every action of a run, at the state it is taken in;
* `run_invariant` — what every step preserves holds in every state reached;
* `everyStep_history` — so does what every step carries on from the actions so far;
* `fold` — what the actions of a run add up to, each at the state it is taken in;
* `run_component` — a run of a system is one of each of its components.
-/

namespace Steps

variable {σ α : Type*}

/-- The state after the actions, if each of them can be taken. -/
def run (step : σ → α → Option σ) : σ → List α → Option σ
  | s, [] => some s
  | s, a :: rest => (step s a).bind (fun s' => run step s' rest)

/-- `C` holds of every action of a run, at the state in which it is taken. -/
def EveryStep (step : σ → α → Option σ) (C : σ → α → Prop) : σ → List α → Prop
  | _, [] => True
  | s, a :: rest => C s a ∧ ∀ s', step s a = some s' → EveryStep step C s' rest

variable {step : σ → α → Option σ}

@[simp] theorem run_nil (s : σ) : run step s [] = some s := rfl

theorem run_cons {s s' : σ} {a : α} (h : step s a = some s') (rest : List α) :
    run step s (a :: rest) = run step s' rest := by
  simp [run, h]

theorem run_append {s s' : σ} {acts : List α} (h : run step s acts = some s') (rest : List α) :
    run step s (acts ++ rest) = run step s' rest := by
  induction acts generalizing s with
  | nil =>
      obtain rfl := Option.some.inj h
      rfl
  | cons a acts ih =>
      obtain ⟨t, ht, hrest⟩ := Option.bind_eq_some_iff.mp h
      rw [List.cons_append, run_cons ht]
      exact ih hrest

/-- **Invariants.**  What every step that meets `C` preserves holds in every
state that a run of such steps reaches. -/
theorem run_invariant {C : σ → α → Prop} (I : σ → Prop)
    (hstep : ∀ s a s', I s → C s a → step s a = some s' → I s') {s s' : σ} {acts : List α}
    (hs : I s) (hevery : EveryStep step C s acts) (hrun : run step s acts = some s') : I s' := by
  induction acts generalizing s with
  | nil =>
      obtain rfl := Option.some.inj hrun
      exact hs
  | cons a acts ih =>
      obtain ⟨t, ht, hrest⟩ := Option.bind_eq_some_iff.mp hrun
      exact ih (hstep s a t hs hevery.1 ht) (hevery.2 t ht) hrest

/-- The last action of a run. -/
theorem exists_of_run_concat {s s' : σ} {acts : List α} {a : α}
    (h : run step s (acts ++ [a]) = some s') :
    ∃ t, run step s acts = some t ∧ step t a = some s' := by
  induction acts generalizing s with
  | nil =>
      obtain ⟨t, ht, hrest⟩ := Option.bind_eq_some_iff.mp h
      obtain rfl := Option.some.inj hrest
      exact ⟨s, rfl, ht⟩
  | cons b acts ih =>
      obtain ⟨u, hu, hrest⟩ := Option.bind_eq_some_iff.mp h
      obtain ⟨t, ht, hlast⟩ := ih hrest
      exact ⟨t, by rw [run_cons hu, ht], hlast⟩

/-- A condition on every step of a run, on those before the last and on the last. -/
theorem EveryStep.of_concat {C : σ → α → Prop} {s t : σ} {acts : List α} {a : α}
    (h : EveryStep step C s (acts ++ [a])) (hrun : run step s acts = some t) :
    EveryStep step C s acts ∧ C t a := by
  induction acts generalizing s with
  | nil =>
      obtain rfl := Option.some.inj hrun
      exact ⟨trivial, h.1⟩
  | cons b acts ih =>
      obtain ⟨u, hu, hrest⟩ := Option.bind_eq_some_iff.mp hrun
      refine ⟨⟨h.1, fun s' hs' => ?_⟩, (ih (h.2 u hu) hrest).2⟩
      obtain rfl := Option.some.inj (hu.symm.trans hs')
      exact (ih (h.2 u hu) hrest).1

/-- **Histories.**  What holds at the start, and what every step that meets `C` carries
on from the actions taken so far, holds of every run of such steps and the state it
reaches. -/
theorem everyStep_history {C : σ → α → Prop} {s : σ} (P : List α → σ → Prop) (hs : P [] s)
    (hstep : ∀ acts t a t', run step s acts = some t → P acts t → C t a → step t a = some t' →
      P (acts ++ [a]) t') {acts : List α} {s' : σ} (hevery : EveryStep step C s acts)
    (hrun : run step s acts = some s') : P acts s' := by
  induction acts using List.reverseRecOn generalizing s' with
  | nil =>
      obtain rfl := Option.some.inj hrun
      exact hs
  | append_singleton acts a ih =>
      obtain ⟨t, ht, hlast⟩ := exists_of_run_concat hrun
      obtain ⟨hbefore, hhere⟩ := hevery.of_concat ht
      exact hstep acts t a s' ht (ih hbefore ht) hhere hlast

/-- A condition that holds of every action anywhere holds along every run. -/
theorem everyStep_of_forall {C : σ → α → Prop} (h : ∀ s a, C s a) (s : σ) (acts : List α) :
    EveryStep step C s acts := by
  induction acts generalizing s with
  | nil => trivial
  | cons a acts ih => exact ⟨h s a, fun s' _ => ih s'⟩

/-- The same of every run. -/
theorem run_history {s : σ} (P : List α → σ → Prop) (hs : P [] s)
    (hstep : ∀ acts t a t', run step s acts = some t → P acts t → step t a = some t' →
      P (acts ++ [a]) t') {acts : List α} {s' : σ} (hrun : run step s acts = some s') :
    P acts s' :=
  everyStep_history (C := fun _ _ => True) P hs
    (fun acts t a t' ht hP _ hlast => hstep acts t a t' ht hP hlast)
    (everyStep_of_forall (fun _ _ => trivial) s acts) hrun

/-- **Components.**  Where every step of a system is a run of one of its components, which
carries on what is known of the component's actions so far, so is every run. -/
theorem run_component {σ' α' : Type*} {step' : σ' → α' → Option σ'} (view : σ → σ') {s : σ}
    (P : List α' → σ → Prop) (hs : P [] s)
    (hstep : ∀ acts t a t', run step s acts = some t → step t a = some t' →
      ∃ more, run step' (view t) more = some (view t') ∧ ∀ sofar, P sofar t → P (sofar ++ more) t')
    {acts : List α} {s' : σ} (hrun : run step s acts = some s') :
    ∃ acts', run step' (view s) acts' = some (view s') ∧ P acts' s' := by
  refine run_history (fun _ t => ∃ acts', run step' (view s) acts' = some (view t) ∧ P acts' t)
    ⟨[], rfl, hs⟩ ?_ hrun
  rintro acts t a t' ht ⟨acts', hview, hsofar⟩ hlast
  obtain ⟨more, hmore, hcarry⟩ := hstep acts t a t' ht hlast
  exact ⟨acts' ++ more, (run_append hview more).trans hmore, hcarry acts' hsofar⟩

/-- What the actions of a run add up to, each at the state in which it is taken. -/
def fold {η : Type*} (step : σ → α → Option σ) (f : σ → α → η → η) : σ → List α → η → η
  | _, [], x => x
  | s, a :: rest, x =>
      match step s a with
      | none => x
      | some s' => fold step f s' rest (f s a x)

/-- One more action adds what it adds at the end. -/
theorem fold_concat {η : Type*} (f : σ → α → η → η) {s t t' : σ} {acts : List α} {a : α}
    (hrun : run step s acts = some t) (ha : step t a = some t') (x : η) :
    fold step f s (acts ++ [a]) x = f t a (fold step f s acts x) := by
  induction acts generalizing s x with
  | nil =>
      obtain rfl := Option.some.inj hrun
      simp [fold, ha]
  | cons b acts ih =>
      obtain ⟨u, hu, hrest⟩ := Option.bind_eq_some_iff.mp hrun
      simp only [List.cons_append, fold, hu]
      exact ih hrest (f s b x)

/-- A condition on every step, and on one more. -/
theorem EveryStep.concat {C : σ → α → Prop} {s t : σ} {acts : List α}
    (h : EveryStep step C s acts) (hrun : run step s acts = some t) {a : α} (ha : C t a) :
    EveryStep step C s (acts ++ [a]) := by
  induction acts generalizing s with
  | nil =>
      obtain rfl := Option.some.inj hrun
      exact ⟨ha, fun _ _ => trivial⟩
  | cons b acts ih =>
      obtain ⟨u, hu, hrest⟩ := Option.bind_eq_some_iff.mp hrun
      refine ⟨h.1, fun s' hs' => ?_⟩
      obtain rfl := Option.some.inj (hu.symm.trans hs')
      exact ih (h.2 u hu) hrest

instance decidableEveryStep {C : σ → α → Prop} [∀ s a, Decidable (C s a)] :
    (s : σ) → (acts : List α) → Decidable (EveryStep step C s acts)
  | _, [] => isTrue trivial
  | s, a :: rest =>
      match h : step s a with
      | none => decidable_of_iff (C s a) ⟨fun hC => ⟨hC, by simp [h]⟩, fun hall => hall.1⟩
      | some s' =>
          have := decidableEveryStep (C := C) s' rest
          decidable_of_iff (C s a ∧ EveryStep step C s' rest) (by simp [EveryStep, h])

end Steps
