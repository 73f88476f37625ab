import Mathlib.Data.Finset.Card
import Mathlib.Data.Finset.Range
import Mathlib.Tactic.Common

/-!
# Loops that may not end

A loop is a body `σ → Option ρ × σ`: one pass either leaves with a result or
goes round again, and in both cases yields the state after the pass.  Nothing
forces a loop to end, so running one takes a bound on the number of passes.

* `Reaches` — the states in which a pass is about to be made;
* `Reaches.invariant` and `run_invariant` — what one pass preserves holds
  along the loop and of its result;
* `run_of_measure` — a loop whose reachable passes decrease a measure ends;
* `run_of_reaches` — a loop whose passes are decided by one of finitely many
  values ends, if it ends at all, within that many passes.
-/

namespace Loop

variable {σ ρ : Type*}

/-- Run the loop for at most the given number of passes. -/
def run (body : σ → Option ρ × σ) : Nat → σ → Option (ρ × σ)
  | 0, _ => none
  | fuel + 1, s =>
      match body s with
      | (some r, t) => some (r, t)
      | (none, t) => run body fuel t

/-- `Reaches body s t`: a run begun in `s` makes a pass from `t`. -/
inductive Reaches (body : σ → Option ρ × σ) : σ → σ → Prop
  | here (s : σ) : Reaches body s s
  | pass {s t : σ} (hround : (body s).1 = none) (rest : Reaches body (body s).2 t) :
      Reaches body s t

variable {body : σ → Option ρ × σ}

/-- A pass that goes round uses one unit of the bound. -/
theorem run_pass {s t : σ} (fuel : Nat) (h : body s = (none, t)) :
    run body (fuel + 1) s = run body fuel t := by
  simp [run, h]

/-- A pass that leaves ends the run. -/
theorem run_leave {s t : σ} {r : ρ} (fuel : Nat) (h : body s = (some r, t)) :
    run body (fuel + 1) s = some (r, t) := by
  simp [run, h]

theorem Reaches.snoc {s t : σ} (h : Reaches body s t) (hround : (body t).1 = none) :
    Reaches body s (body t).2 := by
  induction h with
  | here s => exact .pass hround (.here _)
  | pass hfirst rest ih => exact .pass hfirst (ih hround)

/-- What every pass that goes round preserves holds at every later pass. -/
theorem Reaches.invariant {s t : σ} (h : Reaches body s t) (I : σ → Prop)
    (hstep : ∀ u, I u → (body u).1 = none → I (body u).2) (hs : I s) : I t := by
  induction h with
  | here s => exact hs
  | pass hround rest ih => exact ih (hstep _ hs hround)

/-- The result of a run comes from a pass that leaves, made from a reachable
state. -/
theorem exists_last_of_run {fuel : Nat} {s u : σ} {r : ρ}
    (h : run body fuel s = some (r, u)) :
    ∃ t, Reaches body s t ∧ body t = (some r, u) := by
  induction fuel generalizing s with
  | zero => simp [run] at h
  | succ fuel ih =>
      cases hb : body s with
      | mk out next =>
          cases out with
          | some r' =>
              obtain ⟨rfl, rfl⟩ : r' = r ∧ next = u := by
                simpa [run_leave fuel hb] using h
              exact ⟨s, .here s, hb⟩
          | none =>
              rw [run_pass fuel hb] at h
              obtain ⟨t, hreach, ht⟩ := ih h
              refine ⟨t, .pass (by rw [hb]) ?_, ht⟩
              rwa [hb]

/-- A loop whose body commutes with a change of the state does so as a whole. -/
theorem run_comm (f : σ → σ) (hbody : ∀ s, body (f s) = ((body s).1, f (body s).2))
    (fuel : Nat) (s : σ) :
    run body fuel (f s) = (run body fuel s).map (fun r => (r.1, f r.2)) := by
  induction fuel generalizing s with
  | zero => rfl
  | succ fuel ih =>
      cases hb : body s with
      | mk out next =>
          have hf : body (f s) = (out, f next) := by rw [hbody, hb]
          cases out with
          | some r => rw [run_leave fuel hb, run_leave fuel hf, Option.map_some]
          | none => rw [run_pass fuel hb, run_pass fuel hf, ih]

/-- Invariant rule for the result of a run. -/
theorem run_invariant {fuel : Nat} {s u : σ} {r : ρ}
    (h : run body fuel s = some (r, u)) (I : σ → Prop) (Q : ρ → σ → Prop)
    (hs : I s) (hstep : ∀ t, I t → (body t).1 = none → I (body t).2)
    (hleave : ∀ t r' u', I t → body t = (some r', u') → Q r' u') : Q r u := by
  obtain ⟨t, hreach, ht⟩ := exists_last_of_run h
  exact hleave t r u (hreach.invariant I hstep hs) ht

/-- **Termination.**  If every pass made along the run decreases `μ`, a bound
above the initial measure is enough. -/
theorem run_of_measure (μ : σ → Nat) {fuel : Nat} {s : σ}
    (hdec : ∀ t, Reaches body s t → (body t).1 = none → μ (body t).2 < μ t)
    (hfuel : μ s < fuel) : ∃ r u, run body fuel s = some (r, u) := by
  induction fuel generalizing s with
  | zero => omega
  | succ fuel ih =>
      cases hb : body s with
      | mk out next =>
          cases out with
          | some r => exact ⟨r, next, run_leave fuel hb⟩
          | none =>
              rw [run_pass fuel hb]
              have hround : (body s).1 = none := by rw [hb]
              have hlt : μ next < μ s := by
                simpa [hb] using hdec s (.here s) hround
              refine ih (fun t ht => hdec t (.pass hround ?_)) (by omega)
              rwa [hb]

/-- A loop in which every pass goes round never returns. -/
theorem run_eq_none (I : σ → Prop) (hround : ∀ t, I t → (body t).1 = none)
    (hstep : ∀ t, I t → I (body t).2) {s : σ} (hs : I s) (fuel : Nat) :
    run body fuel s = none := by
  induction fuel generalizing s with
  | zero => rfl
  | succ fuel ih =>
      have hb : body s = (none, (body s).2) := Prod.ext (hround s hs) rfl
      rw [run_pass fuel hb]
      exact ih (hstep s hs)

/-- A reachable state is reached after some number of passes. -/
theorem Reaches.exists_iterate {s t : σ} (h : Reaches body s t) :
    ∃ k, (fun x => (body x).2)^[k] s = t ∧
      ∀ i < k, (body ((fun x => (body x).2)^[i] s)).1 = none := by
  induction h with
  | here s => exact ⟨0, rfl, by simp⟩
  | @pass s t hround rest ih =>
      obtain ⟨k, ht, hrest⟩ := ih
      refine ⟨k + 1, ht, ?_⟩
      intro i hi
      cases i with
      | zero => exact hround
      | succ i => exact hrest i (by omega)

/-- A pass that leaves after `k` others ends a run with a bound above `k`. -/
theorem run_of_iterate {k fuel : Nat} {s u : σ} {r : ρ}
    (hround : ∀ i < k, (body ((fun x => (body x).2)^[i] s)).1 = none)
    (hleave : body ((fun x => (body x).2)^[k] s) = (some r, u)) (hfuel : k < fuel) :
    run body fuel s = some (r, u) := by
  induction k generalizing s fuel with
  | zero =>
      obtain ⟨fuel, rfl⟩ : ∃ j, fuel = j + 1 := ⟨fuel - 1, by omega⟩
      exact run_leave fuel hleave
  | succ k ih =>
      obtain ⟨fuel, rfl⟩ : ∃ j, fuel = j + 1 := ⟨fuel - 1, by omega⟩
      have hfirst : body s = (none, (body s).2) := Prod.ext (hround 0 (by omega)) rfl
      rw [run_pass fuel hfirst]
      exact ih (fun i hi => hround (i + 1) (by omega)) hleave (by omega)

/-- **A bound that is enough.**  If what a pass does is decided by a value of the
state and only finitely many values occur, a loop that ends does so within as
many passes: a value that comes back would come back for ever. -/
theorem run_of_reaches {κ : Type*} [DecidableEq κ] (obs : σ → κ) (seen : Finset κ) {s t u : σ}
    {r : ρ} {fuel : Nat}
    (hdet : ∀ a b, obs a = obs b → (body a).1 = none →
      (body b).1 = none ∧ obs (body a).2 = obs (body b).2)
    (hseen : ∀ x, Reaches body s x → obs x ∈ seen) (hfuel : seen.card ≤ fuel)
    (h : Reaches body s t) (hleave : body t = (some r, u)) :
    run body fuel s = some (r, u) := by
  obtain ⟨k, rfl, hround⟩ := h.exists_iterate
  have hreach : ∀ i ≤ k, Reaches body s ((fun x => (body x).2)^[i] s) := by
    intro i
    induction i with
    | zero => exact fun _ => .here s
    | succ i ih =>
        intro hi
        rw [Function.iterate_succ_apply']
        exact (ih (by omega)).snoc (hround i (by omega))
  -- an earlier state with the value of a later one would go round where the last one leaves
  have hdistinct : ∀ i j, i < j → j ≤ k →
      obs ((fun x => (body x).2)^[i] s) ≠ obs ((fun x => (body x).2)^[j] s) := by
    intro i j hij hj hsame
    have hlater : ∀ d, j + d ≤ k →
        obs ((fun x => (body x).2)^[i + d] s) = obs ((fun x => (body x).2)^[j + d] s) := by
      intro d
      induction d with
      | zero => exact fun _ => hsame
      | succ d ih =>
          intro hd
          have hnext := (hdet _ _ (ih (by omega)) (hround (i + d) (by omega))).2
          rw [← Function.iterate_succ_apply' (fun x => (body x).2),
            ← Function.iterate_succ_apply' (fun x => (body x).2)] at hnext
          exact hnext
    have hlast := hlater (k - j) (by omega)
    rw [show j + (k - j) = k by omega] at hlast
    have hgoes := (hdet _ _ hlast (hround (i + (k - j)) (by omega))).1
    rw [hleave] at hgoes
    cases hgoes
  have hcard : (Finset.range (k + 1)).card ≤ seen.card := by
    refine Finset.card_le_card_of_injOn (fun i => obs ((fun x => (body x).2)^[i] s)) ?_ ?_
    · intro i hi
      have hik : i < k + 1 := by simpa using hi
      exact hseen _ (hreach i (by omega))
    · intro i hi j hj hsame
      have hik : i < k + 1 := by simpa using hi
      have hjk : j < k + 1 := by simpa using hj
      rcases lt_trichotomy i j with hlt | heq | hgt
      · exact absurd hsame (hdistinct i j hlt (by omega))
      · exact heq
      · exact absurd hsame.symm (hdistinct j i hgt (by omega))
  rw [Finset.card_range] at hcard
  exact run_of_iterate hround hleave (by omega)

end Loop
