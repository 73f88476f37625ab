import Mathlib.Data.List.Induction
import Mathlib.Data.List.Nodup
import Mathlib.Logic.Function.Basic
import Mathlib.Logic.Relation

/-!
# Doubly linked nodes in a heap

A heap maps the addresses in use to nodes with a link back and a link forward.
Using an address that is not in use is a failure, and so is an allocation that
returns one that is.

A `Segment` is a list of nodes in which each links to its neighbours; the links
out of its two ends are given.  What is linked in, or out, only touches the two
neighbours:

* `segment_append` — a segment can be cut anywhere;
* `Segment.insert`, `Segment.remove` — a node between two others comes or goes;
* `Segment.walk_next`, `Segment.walk_prev` — the nodes met on the way along the links.
-/

namespace Links

/-- A node with its two links. -/
structure Node (α β : Type*) where
  prev : Option α
  next : Option α
  data : β

/-- The nodes in use. -/
abbrev Heap (α β : Type*) := α → Option (Node α β)

variable {α β : Type*}

section Operations

variable [DecidableEq α]

/-- A new node at an address that is not in use. -/
def newNode (h : Heap α β) (a : α) (n : Node α β) : Option (Heap α β) :=
  if (h a).isNone then some (Function.update h a (some n)) else none

/-- A change of the node at an address. -/
def writeNode (h : Heap α β) (a : α) (f : Node α β → Node α β) : Option (Heap α β) :=
  (h a).map (fun n => Function.update h a (some (f n)))

/-- The node at an address is given back. -/
def freeNode (h : Heap α β) (a : α) : Option (Heap α β) :=
  if (h a).isSome then some (Function.update h a none) else none

end Operations

/-! ## Segments -/

/-- The nodes at these addresses are linked in this order, back to `p` before the
first and on to `q` behind the last. -/
def Segment (h : Heap α β) : Option α → List α → Option α → Prop
  | _, [], _ => True
  | p, a :: rest, q =>
      ∃ n, h a = some n ∧ n.prev = p ∧ n.next = rest.head?.or q ∧ Segment h (some a) rest q

theorem segment_cons {h : Heap α β} {p q : Option α} {a : α} {rest : List α} :
    Segment h p (a :: rest) q ↔
      ∃ n, h a = some n ∧ n.prev = p ∧ n.next = rest.head?.or q ∧ Segment h (some a) rest q :=
  Iff.rfl

/-- Nodes elsewhere do not matter. -/
theorem Segment.congr {h h' : Heap α β} {p q : Option α} {xs : List α}
    (hs : Segment h p xs q) (heq : ∀ a ∈ xs, h' a = h a) : Segment h' p xs q := by
  induction xs generalizing p with
  | nil => trivial
  | cons a rest ih =>
      obtain ⟨n, ha, hprev, hnext, hrest⟩ := hs
      exact ⟨n, (heq a List.mem_cons_self).trans ha, hprev, hnext,
        ih hrest (fun b hb => heq b (List.mem_cons_of_mem a hb))⟩

/-- **A segment can be cut anywhere.** -/
theorem segment_append {h : Heap α β} {p q : Option α} {xs ys : List α} :
    Segment h p (xs ++ ys) q ↔
      Segment h p xs (ys.head?.or q) ∧ Segment h (xs.getLast?.or p) ys q := by
  induction xs generalizing p with
  | nil => simp [Segment]
  | cons a rest ih =>
      have hhead : (rest ++ ys).head?.or q = rest.head?.or (ys.head?.or q) := by
        rw [List.head?_append, Option.or_assoc]
      have hlast : (a :: rest).getLast?.or p = rest.getLast?.or (some a) := by
        cases hrest : rest.getLast? with
        | none => simp [List.getLast?_cons, hrest]
        | some b => simp [List.getLast?_cons, hrest]
      rw [List.cons_append, segment_cons, segment_cons, hhead, hlast]
      constructor
      · rintro ⟨n, ha, hprev, hnext, hrest⟩
        exact ⟨⟨n, ha, hprev, hnext, (ih.mp hrest).1⟩, (ih.mp hrest).2⟩
      · rintro ⟨⟨n, ha, hprev, hnext, hleft⟩, hright⟩
        exact ⟨n, ha, hprev, hnext, ih.mpr ⟨hleft, hright⟩⟩

theorem Segment.mem {h : Heap α β} {p q : Option α} {xs : List α} (hs : Segment h p xs q)
    {a : α} (ha : a ∈ xs) : ∃ n, h a = some n := by
  obtain ⟨ys, zs, rfl⟩ := List.append_of_mem ha
  obtain ⟨n, hn, _⟩ := (segment_append.mp hs).2
  exact ⟨n, hn⟩

/-- The links of a node between two others. -/
theorem Segment.between {h : Heap α β} {p q : Option α} {xs ys : List α} {a b c : α}
    (hs : Segment h p (xs ++ a :: c :: b :: ys) q) :
    ∃ n, h c = some n ∧ n.prev = some a ∧ n.next = some b := by
  obtain ⟨_, _, _, _, n, hc, hprev, hnext, _⟩ := (segment_append.mp hs).2
  exact ⟨n, hc, hprev, hnext⟩

/-- **A node comes between two others.** -/
theorem Segment.insert {h h' : Heap α β} {p q : Option α} {xs ys : List α} {a b c : α}
    (hs : Segment h p (xs ++ a :: b :: ys) q) (hold : ∀ x ∈ xs ++ ys, h' x = h x)
    (ha : ∀ n, h a = some n → ∃ n', h' a = some n' ∧ n'.prev = n.prev ∧ n'.next = some c)
    (hb : ∀ n, h b = some n → ∃ n', h' b = some n' ∧ n'.prev = some c ∧ n'.next = n.next)
    (hc : ∃ n', h' c = some n' ∧ n'.prev = some a ∧ n'.next = some b) :
    Segment h' p (xs ++ a :: c :: b :: ys) q := by
  obtain ⟨hleft, na, hna, hprev, _, nb, hnb, _, hnext, hright⟩ := segment_append.mp hs
  obtain ⟨na', hna', haprev, hanext⟩ := ha na hna
  obtain ⟨nb', hnb', hbprev, hbnext⟩ := hb nb hnb
  obtain ⟨nc', hnc', hcprev, hcnext⟩ := hc
  refine segment_append.mpr ⟨hleft.congr (fun x hx => hold x (List.mem_append_left ys hx)), ?_⟩
  refine ⟨na', hna', haprev.trans hprev, hanext, ?_⟩
  refine ⟨nc', hnc', hcprev, hcnext, ?_⟩
  exact ⟨nb', hnb', hbprev, hbnext.trans hnext,
    hright.congr (fun x hx => hold x (List.mem_append_right xs hx))⟩

/-- **A node between two others goes.** -/
theorem Segment.remove {h h' : Heap α β} {p q : Option α} {xs ys : List α} {a b c : α}
    (hs : Segment h p (xs ++ a :: c :: b :: ys) q) (hold : ∀ x ∈ xs ++ ys, h' x = h x)
    (ha : ∀ n, h a = some n → ∃ n', h' a = some n' ∧ n'.prev = n.prev ∧ n'.next = some b)
    (hb : ∀ n, h b = some n → ∃ n', h' b = some n' ∧ n'.prev = some a ∧ n'.next = n.next) :
    Segment h' p (xs ++ a :: b :: ys) q := by
  obtain ⟨hleft, na, hna, hprev, _, _, _, _, _, nb, hnb, _, hnext, hright⟩ := segment_append.mp hs
  obtain ⟨na', hna', haprev, hanext⟩ := ha na hna
  obtain ⟨nb', hnb', hbprev, hbnext⟩ := hb nb hnb
  refine segment_append.mpr ⟨hleft.congr (fun x hx => hold x (List.mem_append_left ys hx)), ?_⟩
  refine ⟨na', hna', haprev.trans hprev, hanext, ?_⟩
  exact ⟨nb', hnb', hbprev, hbnext.trans hnext,
    hright.congr (fun x hx => hold x (List.mem_append_right xs hx))⟩

/-! ## Walks -/

/-- The nodes met from `p` on by following one of the links up to its end. -/
inductive Walk (h : Heap α β) (link : Node α β → Option α) : Option α → List α → Prop
  | stop : Walk h link none []
  | node {a : α} {n : Node α β} {rest : List α} (ha : h a = some n)
      (hrest : Walk h link (link n) rest) : Walk h link (some a) (a :: rest)

/-- There is only one such list. -/
theorem Walk.iff_eq {h : Heap α β} {link : Node α β → Option α} {p : Option α} {xs : List α}
    (hx : Walk h link p xs) (ys : List α) : Walk h link p ys ↔ ys = xs := by
  constructor
  · intro hy
    induction hx generalizing ys with
    | stop =>
        cases hy
        rfl
    | node ha _ ih =>
        cases hy with
        | node hb hrest =>
            obtain rfl := Option.some.inj (ha.symm.trans hb)
            rw [ih _ hrest]
  · rintro rfl
    exact hx

/-- **Forward**: the nodes of a segment, in order. -/
theorem Segment.walk_next {h : Heap α β} {p : Option α} {xs : List α} (hs : Segment h p xs none) :
    Walk h Node.next xs.head? xs := by
  induction xs generalizing p with
  | nil => exact .stop
  | cons a rest ih =>
      obtain ⟨n, ha, _, hnext, hrest⟩ := hs
      refine .node ha ?_
      rw [hnext, Option.or_none]
      exact ih hrest

/-- **Backward**: the same nodes, from the last one on. -/
theorem Segment.walk_prev {h : Heap α β} {q : Option α} {xs : List α} (hs : Segment h none xs q) :
    Walk h Node.prev xs.getLast? xs.reverse := by
  induction xs using List.reverseRecOn generalizing q with
  | nil => exact .stop
  | append_singleton rest a ih =>
      obtain ⟨hleft, n, ha, hprev, _⟩ := segment_append.mp hs
      rw [List.getLast?_concat, List.reverse_append, List.reverse_singleton, List.singleton_append]
      refine .node ha ?_
      rw [hprev, Option.or_none]
      exact ih hleft

/-- One link, either way. -/
def Linked (h : Heap α β) (a b : α) : Prop :=
  ∃ n, h a = some n ∧ (n.prev = some b ∨ n.next = some b)

/-- The links of a segment that begins and ends with none stay in it. -/
theorem Segment.linked_mem {h : Heap α β} {xs : List α} (hs : Segment h none xs none) {a b : α}
    (ha : a ∈ xs) (hab : Linked h a b) : b ∈ xs := by
  obtain ⟨n, hn, hlink⟩ := hab
  obtain ⟨ys, zs, rfl⟩ := List.append_of_mem ha
  obtain ⟨_, n', hn', hprev, hnext, _⟩ := segment_append.mp hs
  obtain rfl := Option.some.inj (hn.symm.trans hn')
  rcases hlink with hlink | hlink
  · rw [hlink, Option.or_none] at hprev
    exact List.mem_append_left _ (List.mem_of_getLast? hprev.symm)
  · rw [hlink, Option.or_none] at hnext
    exact List.mem_append_right _ (List.mem_cons_of_mem a (List.mem_of_head? hnext.symm))

/-- So does everything reached along them. -/
theorem Segment.reaches_mem {h : Heap α β} {xs : List α} (hs : Segment h none xs none) {a b : α}
    (ha : a ∈ xs) (hab : Relation.ReflTransGen (Linked h) a b) : b ∈ xs := by
  induction hab with
  | refl => exact ha
  | tail _ hlink ih => exact hs.linked_mem ih hlink

end Links
