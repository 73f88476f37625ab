import Mathlib.Logic.Function.Basic
import Mathlib.Tactic.Common

/-!
# A store on several hosts

A service answers requests from a store of cells.  A request concerns the cell of one
key, or none.  Where all requests of a key go to one host, each host can serve its own
part of the requests from a store of its own, and the requests without a key besides.

* `serve_filter` — what is left out does not matter to the other keys;
* `Homed` — the store at a key's home is that of one store, for some keys;
* `Homed.answers`, `Homed.serve` — it stays so, and the answers are those of one store.
-/

namespace Sharding

/-- A service: `apply` for a request with a key, `plain` for one without. -/
structure Service (Key Cell Req Ans : Type*) where
  key : Req → Option Key
  apply : Req → Cell → Ans × Cell
  plain : Req → Ans

variable {Key Cell Req Ans Host : Type*} [DecidableEq Key]

namespace Service

variable (S : Service Key Cell Req Ans)

/-- One request. -/
def step (store : Key → Cell) (r : Req) : Ans × (Key → Cell) :=
  match S.key r with
  | none => (S.plain r, store)
  | some k => ((S.apply r (store k)).1, Function.update store k (S.apply r (store k)).2)

/-- Requests one after the other, each with its answer. -/
def serve : (Key → Cell) → List Req → List (Req × Ans) × (Key → Cell)
  | store, [] => ([], store)
  | store, r :: rs =>
      ((r, (S.step store r).1) :: (serve (S.step store r).2 rs).1, (serve (S.step store r).2 rs).2)

/-- A request that concerns no other key than these. -/
def Within (p : Key → Prop) (r : Req) : Prop := ∀ k ∈ S.key r, p k

instance (p : Key → Prop) [DecidablePred p] : DecidablePred (S.Within p) := fun r =>
  inferInstanceAs (Decidable (∀ k ∈ S.key r, p k))

/-- What a host is sent: the requests routed to it, and those without a key. -/
def PartOf (route : Req → Host) (a : Host) (r : Req) : Prop := S.key r = none ∨ route r = a

instance (route : Req → Host) (a : Host) [DecidableEq Host] : DecidablePred (S.PartOf route a) :=
  fun _ => inferInstanceAs (Decidable (_ ∨ _))

/-- The requests of these keys go to the homes of their keys. -/
def RoutedHome (p : Key → Prop) (home : Key → Host) (route : Req → Host) (rs : List Req) : Prop :=
  ∀ r ∈ rs, ∀ k, S.key r = some k → p k → route r = home k

variable {S}

theorem serve_requests (store : Key → Cell) (rs : List Req) :
    (S.serve store rs).1.map Prod.fst = rs := by
  induction rs generalizing store with
  | nil => rfl
  | cons r rs ih => rw [serve, List.map_cons, ih]

theorem serve_append (store : Key → Cell) (xs ys : List Req) :
    S.serve store (xs ++ ys) =
      ((S.serve store xs).1 ++ (S.serve (S.serve store xs).2 ys).1,
        (S.serve (S.serve store xs).2 ys).2) := by
  induction xs generalizing store with
  | nil => rfl
  | cons x xs ih =>
      rw [List.cons_append, serve, ih]
      rfl

/-- An answer is what `plain` or `apply` says. -/
theorem mem_serve {store : Key → Cell} {rs : List Req} {x : Req × Ans}
    (h : x ∈ (S.serve store rs).1) :
    x.1 ∈ rs ∧ ((S.key x.1 = none ∧ x.2 = S.plain x.1) ∨
      (S.key x.1 ≠ none ∧ ∃ c, x.2 = (S.apply x.1 c).1)) := by
  induction rs generalizing store with
  | nil => cases h
  | cons r rs ih =>
      rw [serve] at h
      rcases List.mem_cons.mp h with rfl | hmem
      · refine ⟨List.mem_cons_self, ?_⟩
        unfold step
        cases hkey : S.key r with
        | none => exact .inl ⟨rfl, rfl⟩
        | some k => exact .inr ⟨by simp, store k, rfl⟩
      · obtain ⟨hr, hans⟩ := ih hmem
        exact ⟨List.mem_cons_of_mem _ hr, hans⟩

/-- A request that concerns no other key than these is answered alike from stores that
agree on them, and they agree on them afterwards. -/
theorem step_agree {p : Key → Prop} {σ τ : Key → Cell} (h : ∀ k, p k → σ k = τ k) {r : Req}
    (hr : S.Within p r) :
    (S.step σ r).1 = (S.step τ r).1 ∧ ∀ k, p k → (S.step σ r).2 k = (S.step τ r).2 k := by
  unfold step
  cases hkey : S.key r with
  | none => exact ⟨rfl, h⟩
  | some k =>
      have hcell : σ k = τ k := h k (hr k hkey)
      dsimp only
      refine ⟨by rw [hcell], fun j hj => ?_⟩
      by_cases hjk : j = k
      · subst hjk
        rw [Function.update_self, Function.update_self, hcell]
      · rw [Function.update_of_ne hjk, Function.update_of_ne hjk, h j hj]

/-- Any other request leaves their cells alone. -/
theorem step_elsewhere {p : Key → Prop} (τ : Key → Cell) {r : Req} (hr : ¬S.Within p r) (k : Key)
    (hk : p k) : (S.step τ r).2 k = τ k := by
  unfold step
  cases hkey : S.key r with
  | none => rfl
  | some j =>
      refine Function.update_of_ne (fun hkj => hr fun i hi => ?_) _ _
      obtain rfl := Option.some.inj (hkey.symm.trans hi)
      exact hkj ▸ hk

/-- **What is left out does not matter to the other keys.** -/
theorem serve_filter {p : Key → Prop} [DecidablePred p] {σ τ : Key → Cell}
    (h : ∀ k, p k → σ k = τ k) (rs : List Req) :
    (S.serve σ (rs.filter (S.Within p))).1 = (S.serve τ rs).1.filter (fun x => S.Within p x.1) ∧
      ∀ k, p k → (S.serve σ (rs.filter (S.Within p))).2 k = (S.serve τ rs).2 k := by
  induction rs generalizing σ τ with
  | nil => exact ⟨rfl, h⟩
  | cons r rs ih =>
      by_cases hr : S.Within p r
      · obtain ⟨hanswer, hagree⟩ := step_agree h hr
        obtain ⟨hrest, hend⟩ := ih hagree
        rw [List.filter_cons_of_pos (by simpa using hr), serve, serve,
          List.filter_cons_of_pos (by simpa using hr), hrest, hanswer]
        exact ⟨rfl, hend⟩
      · obtain ⟨hrest, hend⟩ := ih (σ := σ) (τ := (S.step τ r).2)
          (fun k hk => (h k hk).trans (step_elsewhere τ hr k hk).symm)
        rw [List.filter_cons_of_neg (by simpa using hr), serve,
          List.filter_cons_of_neg (by simpa using hr), hrest]
        exact ⟨rfl, hend⟩

/-- At each of these keys the store of the key's home has what the one store has. -/
def Homed (p : Key → Prop) (home : Key → Host) (stores : Host → Key → Cell) (store : Key → Cell) :
    Prop :=
  ∀ k, p k → stores (home k) k = store k

variable [DecidableEq Host] {p : Key → Prop} [DecidablePred p] {home : Key → Host}
  {route : Req → Host} {stores : Host → Key → Cell} {store : Key → Cell} {rs : List Req}

omit [DecidableEq Key] [DecidableEq Host] [DecidablePred p] in
/-- Requests that concern no other keys are sent to the homes of their keys. -/
theorem partOf_iff (hroute : S.RoutedHome p home route rs) {r : Req} (hr : r ∈ rs)
    (hwithin : S.Within p r) (a : Host) :
    S.PartOf route a r ↔ S.Within (fun k => p k ∧ home k = a) r := by
  unfold PartOf Within
  cases hkey : S.key r with
  | none => simp
  | some k =>
      have hpk : p k := hwithin k hkey
      simp [hroute r hr k hkey hpk, hpk]

/-- **The answers of the hosts are those of one store**, for requests that concern no
other keys. -/
theorem Homed.answers (h : Homed p home stores store) (hroute : S.RoutedHome p home route rs)
    (hrs : ∀ r ∈ rs, S.Within p r) (a : Host) :
    (S.serve (stores a) (rs.filter (S.PartOf route a))).1 =
      (S.serve store rs).1.filter (fun x => S.PartOf route a x.1) := by
  have hpart : ∀ r ∈ rs, S.PartOf route a r ↔ S.Within (fun k => p k ∧ home k = a) r :=
    fun r hr => partOf_iff hroute hr (hrs r hr) a
  have hagree : ∀ k, p k ∧ home k = a → stores a k = store k := by
    rintro k ⟨hk, rfl⟩
    exact h k hk
  rw [List.filter_congr (fun r hr => decide_eq_decide.mpr (hpart r hr)), (serve_filter hagree rs).1]
  refine List.filter_congr fun x hx => decide_eq_decide.mpr (hpart x.1 ?_).symm
  rw [← serve_requests store rs]
  exact List.mem_map_of_mem hx

/-- **It stays so** when every host serves its part of any requests, and the one store
those that concern no other keys. -/
theorem Homed.serve (h : Homed p home stores store) (hroute : S.RoutedHome p home route rs) :
    Homed p home (fun a => (S.serve (stores a) (rs.filter (S.PartOf route a))).2)
      (S.serve store (rs.filter (S.Within p))).2 := by
  intro k hk
  -- both have served all requests that concern no other key than `k`
  have hlocal := (serve_filter (S := S) (p := fun j => j = k) (σ := stores (home k))
    (fun _ _ => rfl) (rs.filter (S.PartOf route (home k)))).2 k rfl
  have hagree : ∀ j, j = k → stores (home k) j = store j := by
    rintro j rfl
    exact h j hk
  have hstore := (serve_filter (S := S) (p := fun j => j = k) hagree (rs.filter (S.Within p))).2 k rfl
  have hsame : (rs.filter (S.PartOf route (home k))).filter (S.Within (fun j => j = k)) =
      (rs.filter (S.Within p)).filter (S.Within (fun j => j = k)) := by
    rw [List.filter_filter, List.filter_filter]
    refine List.filter_congr fun r hr => ?_
    rw [← Bool.decide_and, ← Bool.decide_and, decide_eq_decide]
    constructor
    · rintro ⟨honly, _⟩
      exact ⟨honly, fun j hj => (honly j hj) ▸ hk⟩
    · rintro ⟨honly, hwithin⟩
      refine ⟨honly, (partOf_iff hroute hr hwithin (home k)).mpr fun j hj => ?_⟩
      rw [honly j hj]
      exact ⟨hk, rfl⟩
  rw [hsame, hstore] at hlocal
  exact hlocal.symm

end Service

end Sharding
