import Mathlib.Tactic.Common

/-!
# Computations with observable effects

`Act ε α` is a computation that performs effects `ε` in order and then
returns an `α`, or never returns.  The effects of a computation that never
returns are those it performed before it stopped making progress.
-/

/-- The effects of a computation, and its result unless it never returns. -/
structure Act (ε α : Type) where
  effects : List ε
  result : Option α

namespace Act

variable {ε α β : Type}

/-- Perform one effect. -/
def emit (e : ε) : Act ε Unit := ⟨[e], some ()⟩

/-- Return what an optional value holds; `none` is a computation that never
returns. -/
def ofOption (a : Option α) : Act ε α := ⟨[], a⟩

/-- Sequencing: the second computation starts only if the first returns. -/
def andThen (x : Act ε α) (f : α → Act ε β) : Act ε β :=
  match x.result with
  | none => ⟨x.effects, none⟩
  | some a => ⟨x.effects ++ (f a).effects, (f a).result⟩

instance : Monad (Act ε) where
  pure a := ⟨[], some a⟩
  bind := andThen

@[simp] theorem pure_effects (a : α) : (pure a : Act ε α).effects = [] := rfl

@[simp] theorem pure_result (a : α) : (pure a : Act ε α).result = some a := rfl

@[simp] theorem emit_effects (e : ε) : (emit e).effects = [e] := rfl

@[simp] theorem emit_result (e : ε) : (emit e).result = some () := rfl

@[simp] theorem ofOption_effects (a : Option α) : (ofOption a : Act ε α).effects = [] := rfl

@[simp] theorem ofOption_result (a : Option α) : (ofOption a : Act ε α).result = a := rfl

theorem bind_of_some {x : Act ε α} {a : α} (f : α → Act ε β) (h : x.result = some a) :
    x >>= f = ⟨x.effects ++ (f a).effects, (f a).result⟩ := by
  show andThen x f = _
  simp [andThen, h]

theorem bind_of_none {x : Act ε α} (f : α → Act ε β) (h : x.result = none) :
    x >>= f = ⟨x.effects, none⟩ := by
  show andThen x f = _
  simp [andThen, h]

@[simp] theorem pure_bind (a : α) (f : α → Act ε β) : (pure a : Act ε α) >>= f = f a := by
  rw [bind_of_some f (pure_result a)]
  simp

@[simp] theorem emit_bind (e : ε) (f : Unit → Act ε β) :
    emit e >>= f = ⟨e :: (f ()).effects, (f ()).result⟩ := by
  rw [bind_of_some f (emit_result e)]
  simp

/-- A computation that returns went through its first part. -/
theorem bind_result_some {x : Act ε α} {f : α → Act ε β} {b : β}
    (h : (x >>= f).result = some b) :
    ∃ a, x.result = some a ∧ (f a).result = some b ∧
      (x >>= f).effects = x.effects ++ (f a).effects := by
  cases hx : x.result with
  | none => simp [bind_of_none f hx] at h
  | some a =>
      rw [bind_of_some f hx] at h ⊢
      exact ⟨a, rfl, h, rfl⟩

/-- The same computation with its effects renamed. -/
def label {ε' : Type} (f : ε → ε') (x : Act ε α) : Act ε' α := ⟨x.effects.map f, x.result⟩

@[simp] theorem label_effects {ε' : Type} (f : ε → ε') (x : Act ε α) :
    (x.label f).effects = x.effects.map f := rfl

@[simp] theorem label_result {ε' : Type} (f : ε → ε') (x : Act ε α) :
    (x.label f).result = x.result := rfl

/-! ## Specifications -/

/-- Every effect satisfies `E`, and the result, if there is one, satisfies `Q`. -/
structure Spec (x : Act ε α) (E : ε → Prop) (Q : α → Prop) : Prop where
  effects : ∀ e ∈ x.effects, E e
  result : ∀ a, x.result = some a → Q a

variable {E : ε → Prop} {P : α → Prop} {Q : β → Prop}

theorem Spec.pure {a : α} (h : P a) : Spec (Pure.pure a : Act ε α) E P where
  effects e he := absurd he (by simp)
  result b hb := by
    obtain rfl : a = b := by simpa using hb
    exact h

theorem Spec.emit {e : ε} (h : E e) : Spec (Act.emit e) E (fun _ => True) where
  effects x hx := by
    obtain rfl : x = e := by simpa using hx
    exact h
  result _ _ := trivial

theorem Spec.ofOption {o : Option α} (h : ∀ a, o = some a → P a) :
    Spec (Act.ofOption o : Act ε α) E P where
  effects e he := absurd he (by simp)
  result := h

theorem Spec.imp {x : Act ε α} {E' : ε → Prop} {P' : α → Prop} (h : Spec x E P)
    (hE : ∀ e, E e → E' e) (hP : ∀ a, P a → P' a) : Spec x E' P' where
  effects e he := hE e (h.effects e he)
  result a ha := hP a (h.result a ha)

theorem Spec.label {ε' : Type} {E' : ε' → Prop} {f : ε → ε'} {x : Act ε α} (h : Spec x E P)
    (hE : ∀ e, E e → E' (f e)) : Spec (x.label f) E' P where
  effects e' he' := by
    obtain ⟨e, he, rfl⟩ := List.mem_map.mp he'
    exact hE e (h.effects e he)
  result := h.result

/-- Sequencing: the second part may use what the first part promises. -/
theorem Spec.bind {x : Act ε α} {f : α → Act ε β} (hx : Spec x E P)
    (hf : ∀ a, P a → Spec (f a) E Q) : Spec (x >>= f) E Q := by
  cases hr : x.result with
  | none =>
      rw [bind_of_none f hr]
      exact ⟨hx.effects, fun b hb => absurd hb (by simp)⟩
  | some a =>
      have hfa := hf a (hx.result a hr)
      rw [bind_of_some f hr]
      refine ⟨fun e he => ?_, hfa.result⟩
      rcases List.mem_append.mp he with he | he
      · exact hx.effects e he
      · exact hfa.effects e he

/-! ## What the effects come to -/

/-- A computation that returns, and whose effects come to `ys`. -/
def Yields {γ : Type*} (f : ε → List γ) (x : Act ε α) (ys : List γ) : Prop :=
  x.result.isSome ∧ x.effects.flatMap f = ys

section Yields

variable {γ : Type*} (f : ε → List γ)

theorem Yields.pure (a : α) : Yields f (Pure.pure a : Act ε α) [] := ⟨rfl, rfl⟩

theorem Yields.emit (e : ε) : Yields f (Act.emit e) (f e) := by
  refine ⟨rfl, ?_⟩
  simp

variable {f}

theorem Yields.bind {x : Act ε α} {k : α → Act ε β} {ys zs : List γ} (hx : Yields f x ys)
    (hk : ∀ a, x.result = some a → Yields f (k a) zs) : Yields f (x >>= k) (ys ++ zs) := by
  obtain ⟨hres, hys⟩ := hx
  obtain ⟨a, ha⟩ := Option.isSome_iff_exists.mp hres
  obtain ⟨hres', hzs⟩ := hk a ha
  rw [bind_of_some k ha]
  exact ⟨hres', by rw [List.flatMap_append, hys, hzs]⟩

end Yields

/-- A computation whose effects come to at most so many. -/
def AtMost {γ : Type*} (f : ε → List γ) (x : Act ε α) (n : Nat) : Prop :=
  (x.effects.flatMap f).length ≤ n

section AtMost

variable {γ : Type*} {f : ε → List γ}

theorem AtMost.of_none {x : Act ε α} (h : ∀ e ∈ x.effects, f e = []) : AtMost f x 0 := by
  unfold AtMost
  rw [List.flatMap_eq_nil_iff.mpr h]
  exact Nat.le_refl 0

theorem AtMost.mono {x : Act ε α} {n m : Nat} (h : AtMost f x n) (hle : n ≤ m) : AtMost f x m :=
  Nat.le_trans h hle

theorem AtMost.bind {x : Act ε α} {k : α → Act ε β} {n m : Nat} (hx : AtMost f x n)
    (hk : ∀ a, AtMost f (k a) m) : AtMost f (x >>= k) (n + m) := by
  unfold AtMost at hx hk ⊢
  cases hr : x.result with
  | none =>
      rw [bind_of_none k hr]
      exact Nat.le_add_right_of_le hx
  | some a =>
      rw [bind_of_some k hr, List.flatMap_append, List.length_append]
      exact Nat.add_le_add hx (hk a)

end AtMost

/-! ## Leaving effects out -/

section Only

variable (p : ε → Bool)

/-- The same computation with these effects only. -/
def only (x : Act ε α) : Act ε α := ⟨x.effects.filter p, x.result⟩

@[simp] theorem only_effects (x : Act ε α) : (x.only p).effects = x.effects.filter p := rfl

@[simp] theorem only_pure (a : α) : (pure a : Act ε α).only p = pure a := rfl

@[simp] theorem only_ofOption (a : Option α) : (ofOption a : Act ε α).only p = ofOption a := rfl

theorem only_bind (x : Act ε α) (f : α → Act ε β) :
    (x >>= f).only p = x.only p >>= fun a => (f a).only p := by
  cases hx : x.result with
  | none =>
      rw [bind_of_none f hx, bind_of_none (x := x.only p) _ hx]
      rfl
  | some a =>
      rw [bind_of_some f hx, bind_of_some (x := x.only p) _ hx]
      exact congrArg (fun es => (⟨es, (f a).result⟩ : Act ε β)) (List.filter_append ..)

variable {p}

theorem only_eq_self {x : Act ε α} (h : ∀ e ∈ x.effects, p e = true) : x.only p = x := by
  have hall : x.effects.filter p = x.effects := List.filter_eq_self.mpr h
  rw [only, hall]

theorem only_emit {e : ε} (h : p e = true) : (emit e).only p = emit e :=
  only_eq_self (fun _ hx => List.mem_singleton.mp hx ▸ h)

end Only

end Act
