import KvProxy.Lib.Links
import KvProxy.Lib.Steps

/-!
# The list of client connections

`ConnQueue` of `serv.cpp`: a doubly linked list of the connections of a thread
between two sentinels.  `insertConn` links a new node in behind `m_head`, and
`deleteConn` unlinks and deletes the node it is given.

`new` returns some address that is not in use, so an address can come back behind a
`delete`; which one it returns is an argument here.  The nodes in the heap are those
of one queue: no two queues share any.

* `ListOf` — the nodes in use are the sentinels and the live connections, and they
  are linked in order;
* `ListOf.insertConn`, `ListOf.deleteConn` — both calls keep it;
* `conn_list_intact` — so does every sequence of them.
-/

namespace KvProxy

open Links

/-- A `Conn` without its links.  `m_thread` is not set before `insertConn` does; the
buffers are set at each event and belong to it. -/
structure ConnData where
  fd : Nat
  thread : Option Nat
  deriving DecidableEq, Repr

/-- A queue, with the nodes in use. -/
structure ConnQueue where
  heap : Heap Nat ConnData
  mHead : Nat
  mTail : Nat

/-- The constructor of `Conn`. -/
def newConn (heap : Heap Nat ConnData) (c fd : Nat) : Option (Heap Nat ConnData) :=
  newNode heap c ⟨none, none, ⟨fd, none⟩⟩

namespace ConnQueue

/-- The constructor of `ConnQueue`. -/
def new (mHead mTail : Nat) : Option ConnQueue := do
  let heap ← newConn (fun _ => none) mHead 0
  let heap ← newConn heap mTail 0
  let heap ← writeNode heap mTail (fun n => { n with next := none })
  let heap ← writeNode heap mHead (fun n => { n with prev := none })
  let heap ← writeNode heap mHead (fun n => { n with next := some mTail })
  let heap ← writeNode heap mTail (fun n => { n with prev := some mHead })
  some ⟨heap, mHead, mTail⟩

/-- `insertConn(fd, t)`, where `new` returns `c`. -/
def insertConn (q : ConnQueue) (c fd t : Nat) : Option (Nat × ConnQueue) := do
  let heap ← newConn q.heap c fd
  let heap ← writeNode heap c (fun n => { n with data := { n.data with thread := some t } })
  let head ← heap q.mHead
  let next := head.next
  let heap ← writeNode heap c (fun n => { n with prev := some q.mHead })
  let head ← heap q.mHead
  let heap ← writeNode heap c (fun n => { n with next := head.next })
  let heap ← writeNode heap q.mHead (fun n => { n with next := some c })
  let next ← next
  let heap ← writeNode heap next (fun n => { n with prev := some c })
  some (c, { q with heap := heap })

/-- `deleteConn(c)`. -/
def deleteConn (q : ConnQueue) (c : Nat) : Option ConnQueue := do
  let n ← q.heap c
  let prev ← n.prev
  let heap ← writeNode q.heap prev (fun m => { m with next := n.next })
  let n ← heap c
  let next ← n.next
  let heap ← writeNode heap next (fun m => { m with prev := n.prev })
  let heap ← freeNode heap c
  some { q with heap := heap }

end ConnQueue

/-- The calls of a queue. -/
inductive ConnOp where
  | insert (c fd t : Nat)
  | delete (c : Nat)
  deriving DecidableEq, Repr

namespace ConnQueue

/-- One call; `none` where a pointer is used that leads nowhere. -/
def step (q : ConnQueue) : ConnOp → Option ConnQueue
  | .insert c fd t => (q.insertConn c fd t).map Prod.snd
  | .delete c => q.deleteConn c

/-! ## The shape of the list -/

/-- The nodes along `m_next` for given connections, in order of insertion. -/
def nodes (q : ConnQueue) (conns : List Nat) : List Nat := q.mHead :: (conns.reverse ++ [q.mTail])

/-- The nodes in use are the sentinels and these connections, and they are linked. -/
structure ListOf (q : ConnQueue) (conns : List Nat) : Prop where
  nodup : (q.nodes conns).Nodup
  linked : Segment q.heap none (q.nodes conns) none
  used : ∀ a, a ∉ q.nodes conns → q.heap a = none

/-- What the calls of `insertConn` do to the heap. -/
theorem insertConn_eq {q : ConnQueue} {c b : Nat} {na nb : Node Nat ConnData} (fd t : Nat)
    (hc : q.heap c = none) (ha : q.heap q.mHead = some na) (hnext : na.next = some b)
    (hb : q.heap b = some nb) (hne : b ≠ q.mHead) :
    q.insertConn c fd t = some (c, { q with
      heap := Function.update (Function.update (Function.update q.heap
        c (some ⟨some q.mHead, some b, ⟨fd, some t⟩⟩))
        q.mHead (some { na with next := some c }))
        b (some { nb with prev := some c }) }) := by
  have hca : q.mHead ≠ c := by
    rintro rfl
    simp [hc] at ha
  have hcb : b ≠ c := by
    rintro rfl
    simp [hc] at hb
  simp [insertConn, newConn, newNode, writeNode, hc, ha, hnext, hb, hca, hcb, hne]

/-- What the calls of `deleteConn` do to the heap. -/
theorem deleteConn_eq {q : ConnQueue} {a b c : Nat} {na nb nc : Node Nat ConnData}
    (hc : q.heap c = some nc) (hprev : nc.prev = some a) (hnext : nc.next = some b)
    (ha : q.heap a = some na) (hb : q.heap b = some nb) (hac : a ≠ c) (hbc : b ≠ c)
    (hab : a ≠ b) :
    q.deleteConn c = some { q with
      heap := Function.update (Function.update (Function.update q.heap
        a (some { na with next := some b }))
        b (some { nb with prev := some a }))
        c none } := by
  simp [deleteConn, writeNode, freeNode, hc, hprev, hnext, ha, hb, hac.symm, hbc.symm, hab.symm]

/-! ## One call -/

/-- **`insertConn`** puts a new node behind `m_head`. -/
theorem ListOf.insertConn {q : ConnQueue} {conns : List Nat} (h : q.ListOf conns) {c : Nat}
    (hc : c ∉ q.nodes conns) (fd t : Nat) :
    ∃ heap, q.insertConn c fd t = some (c, { q with heap := heap }) ∧
      ConnQueue.ListOf { q with heap := heap } (conns ++ [c]) := by
  obtain ⟨b, ys, hys⟩ : ∃ b ys, conns.reverse ++ [q.mTail] = b :: ys :=
    List.exists_cons_of_ne_nil (by simp)
  have hnodes : q.nodes conns = q.mHead :: b :: ys := by rw [nodes, hys]
  have hmore : ∀ heap, ConnQueue.nodes { q with heap := heap } (conns ++ [c]) =
      q.mHead :: c :: b :: ys := by
    intro heap
    rw [nodes, List.reverse_concat, List.cons_append, hys]
  obtain ⟨hnodup, hlinked, hused⟩ := h
  rw [hnodes] at hc hnodup hlinked
  have hfree : q.heap c = none := hused c (by rwa [hnodes])
  have hends := hlinked
  obtain ⟨na, hna, hprev, hnext, nb, hnb, _⟩ := hends
  have hab : q.mHead ≠ b := List.ne_of_not_mem_cons (List.nodup_cons.mp hnodup).1
  have hca : c ≠ q.mHead := List.ne_of_not_mem_cons hc
  have hcb : c ≠ b := List.ne_of_not_mem_cons (List.not_mem_of_not_mem_cons hc)
  refine ⟨_, insertConn_eq fd t hfree hna hnext hnb hab.symm, ?_, ?_, ?_⟩
  · rw [hmore]
    simp only [List.nodup_cons, List.mem_cons, not_or] at hnodup hc ⊢
    exact ⟨⟨hca.symm, hnodup.1⟩, hc.2, hnodup.2⟩
  · rw [hmore]
    dsimp only
    have hwhole : Segment q.heap none ([] ++ q.mHead :: b :: ys) none := hlinked
    refine Segment.insert hwhole ?_ ?_ ?_ ?_
    · intro x hx
      simp only [List.nodup_cons, List.mem_cons, not_or] at hnodup hc
      rw [Function.update_of_ne (ne_of_mem_of_not_mem hx hnodup.2.1),
        Function.update_of_ne (ne_of_mem_of_not_mem hx hnodup.1.2),
        Function.update_of_ne (ne_of_mem_of_not_mem hx hc.2.2)]
    · intro n hn
      obtain rfl := Option.some.inj (hna.symm.trans hn)
      refine ⟨{ na with next := some c }, ?_, rfl, rfl⟩
      rw [Function.update_of_ne hab, Function.update_self]
    · intro n hn
      obtain rfl := Option.some.inj (hnb.symm.trans hn)
      exact ⟨{ nb with prev := some c }, Function.update_self .., rfl, rfl⟩
    · refine ⟨⟨some q.mHead, some b, ⟨fd, some t⟩⟩, ?_, rfl, rfl⟩
      rw [Function.update_of_ne hcb, Function.update_of_ne hca, Function.update_self]
  · rw [hmore]
    intro x hx
    simp only [List.mem_cons, not_or] at hx
    dsimp only
    rw [Function.update_of_ne hx.2.2.1, Function.update_of_ne hx.1, Function.update_of_ne hx.2.1]
    exact hused x (by simp [hnodes, hx])

/-- A live node is between two others, of which either may be a sentinel. -/
theorem ListOf.neighbours {q : ConnQueue} {conns : List Nat} (h : q.ListOf conns) {c : Nat}
    (hc : c ∈ conns) :
    ∃ xs a b ys, q.nodes conns = xs ++ a :: c :: b :: ys ∧
      ∀ heap, ConnQueue.nodes { q with heap := heap } (conns.filter (fun x => x ≠ c)) =
        xs ++ a :: b :: ys := by
  have hconns : conns.Nodup := by
    have hnodup := (List.nodup_cons.mp h.nodup).2
    exact List.nodup_reverse.mp (List.nodup_append.mp hnodup).1
  obtain ⟨older, newer, rfl⟩ := List.append_of_mem hc
  have hfilter : (older ++ c :: newer).filter (fun x => x ≠ c) = older ++ newer := by
    obtain ⟨_, hnewer, hdisjoint⟩ := List.nodup_append.mp hconns
    rw [List.filter_append, List.filter_cons_of_neg (by simp),
      List.filter_eq_self.mpr (fun x hx => by simpa using hdisjoint x hx c List.mem_cons_self),
      List.filter_eq_self.mpr (fun x hx => by
        simpa using ne_of_mem_of_not_mem hx (List.nodup_cons.mp hnewer).1)]
  obtain ⟨xs, a, hxs⟩ : ∃ xs a, q.mHead :: newer.reverse = xs ++ [a] :=
    (List.eq_nil_or_concat' _).resolve_left (List.cons_ne_nil _ _)
  obtain ⟨b, ys, hys⟩ : ∃ b ys, older.reverse ++ [q.mTail] = b :: ys :=
    List.exists_cons_of_ne_nil (by simp)
  refine ⟨xs, a, b, ys, ?_, ?_⟩
  · calc q.nodes (older ++ c :: newer)
        = (q.mHead :: newer.reverse) ++ c :: (older.reverse ++ [q.mTail]) := by simp [nodes]
      _ = xs ++ a :: c :: b :: ys := by
          rw [hxs, hys, List.append_assoc, List.singleton_append]
  · intro heap
    calc ConnQueue.nodes { q with heap := heap } ((older ++ c :: newer).filter (fun x => x ≠ c))
        = (q.mHead :: newer.reverse) ++ (older.reverse ++ [q.mTail]) := by
          rw [hfilter]
          simp [nodes]
      _ = xs ++ a :: b :: ys := by rw [hxs, hys, List.append_assoc, List.singleton_append]

/-- **`deleteConn`** takes a live node out. -/
theorem ListOf.deleteConn {q : ConnQueue} {conns : List Nat} (h : q.ListOf conns) {c : Nat}
    (hc : c ∈ conns) :
    ∃ heap, q.deleteConn c = some { q with heap := heap } ∧
      ConnQueue.ListOf { q with heap := heap } (conns.filter (fun x => x ≠ c)) := by
  obtain ⟨xs, a, b, ys, hnodes, hless⟩ := h.neighbours hc
  obtain ⟨hnodup, hlinked, hused⟩ := h
  rw [hnodes] at hnodup hlinked
  obtain ⟨nc, hnc, hprev, hnext⟩ := hlinked.between
  obtain ⟨na, hna⟩ := hlinked.mem (a := a) (by simp)
  obtain ⟨nb, hnb⟩ := hlinked.mem (a := b) (by simp)
  have hshort : (xs ++ a :: b :: ys).Nodup :=
    hnodup.sublist (((List.sublist_cons_self c (b :: ys)).cons_cons a).append_left xs)
  simp only [List.nodup_append, List.nodup_cons, List.mem_cons, not_or] at hnodup
  obtain ⟨hxs, ⟨⟨hac, hab, hays⟩, ⟨hcb, hcys⟩, hbys, hys⟩, hdisjoint⟩ := hnodup
  have hold : ∀ x ∈ xs ++ ys, x ≠ a ∧ x ≠ b ∧ x ≠ c := by
    intro x hx
    rcases List.mem_append.mp hx with hx | hx
    · exact ⟨hdisjoint x hx a (Or.inl rfl), hdisjoint x hx b (Or.inr (Or.inr (Or.inl rfl))),
        hdisjoint x hx c (Or.inr (Or.inl rfl))⟩
    · exact ⟨ne_of_mem_of_not_mem hx hays, ne_of_mem_of_not_mem hx hbys,
        ne_of_mem_of_not_mem hx hcys⟩
  refine ⟨_, deleteConn_eq hnc hprev hnext hna hnb hac (Ne.symm hcb) hab, ?_, ?_, ?_⟩
  · rw [hless]
    exact hshort
  · rw [hless]
    dsimp only
    refine Segment.remove hlinked ?_ ?_ ?_
    · intro x hx
      obtain ⟨hxa, hxb, hxc⟩ := hold x hx
      rw [Function.update_of_ne hxc, Function.update_of_ne hxb, Function.update_of_ne hxa]
    · intro n hn
      obtain rfl := Option.some.inj (hna.symm.trans hn)
      refine ⟨{ na with next := some b }, ?_, rfl, rfl⟩
      rw [Function.update_of_ne hac, Function.update_of_ne hab, Function.update_self]
    · intro n hn
      obtain rfl := Option.some.inj (hnb.symm.trans hn)
      refine ⟨{ nb with prev := some a }, ?_, rfl, rfl⟩
      rw [Function.update_of_ne (Ne.symm hcb), Function.update_self]
  · rw [hless]
    intro x hx
    dsimp only
    by_cases hxc : x = c
    · rw [hxc, Function.update_self]
    · simp only [List.mem_append, List.mem_cons, not_or] at hx
      rw [Function.update_of_ne hxc, Function.update_of_ne hx.2.2.1, Function.update_of_ne hx.2.1]
      exact hused x (by simp [hnodes, hx, hxc])

/-! ## Every sequence of calls -/

/-- The connections inserted and not yet deleted, in order of insertion. -/
def live (ops : List ConnOp) : List Nat :=
  ops.foldl (fun conns op =>
    match op with
    | .insert c _ _ => conns ++ [c]
    | .delete c => conns.filter (fun x => x ≠ c)) []

/-- Given the calls before: `new` returns no address in use, and `deleteConn` is called
for a live connection. -/
def Allowed (mHead mTail : Nat) (before : List ConnOp) : ConnOp → Prop
  | .insert c _ _ => c ≠ mHead ∧ c ≠ mTail ∧ c ∉ live before
  | .delete c => c ∈ live before

/-- Every call is allowed behind those before it. -/
def AllAllowed (mHead mTail : Nat) (ops : List ConnOp) : Prop :=
  ∀ before op rest, ops = before ++ op :: rest → Allowed mHead mTail before op

theorem allAllowed_concat {mHead mTail : Nat} {ops : List ConnOp} {op : ConnOp} :
    AllAllowed mHead mTail (ops ++ [op]) ↔
      AllAllowed mHead mTail ops ∧ Allowed mHead mTail ops op := by
  constructor
  · intro h
    refine ⟨?_, h ops op [] rfl⟩
    intro before op' rest heq
    exact h before op' (rest ++ [op]) (by rw [heq]; simp)
  · rintro ⟨hops, hop⟩ before op' rest heq
    rcases List.eq_nil_or_concat' rest with rfl | ⟨rest, last, rfl⟩
    · obtain ⟨rfl, hlast⟩ := List.append_inj' heq rfl
      obtain rfl := List.singleton_inj.mp hlast
      exact hop
    · rw [← List.cons_append, ← List.append_assoc] at heq
      exact hops before op' rest (List.append_inj' heq rfl).1

/-- A node that some chain of links leads to, from one of the sentinels. -/
def Reachable (q : ConnQueue) (a : Nat) : Prop :=
  Relation.ReflTransGen (Linked q.heap) q.mHead a ∨ Relation.ReflTransGen (Linked q.heap) q.mTail a

/-- The queue before the first call. -/
theorem listOf_new {mHead mTail : Nat} (hne : mHead ≠ mTail) :
    ∃ heap, new mHead mTail = some ⟨heap, mHead, mTail⟩ ∧
      ConnQueue.ListOf ⟨heap, mHead, mTail⟩ [] := by
  refine ⟨Function.update (Function.update (fun _ => none)
    mHead (some ⟨none, some mTail, ⟨0, none⟩⟩)) mTail (some ⟨some mHead, none, ⟨0, none⟩⟩),
    ?_, ?_, ?_, ?_⟩
  · simp [new, newConn, newNode, writeNode, hne, hne.symm, Function.update_comm hne.symm]
  · simp [nodes, hne]
  · refine ⟨⟨none, some mTail, ⟨0, none⟩⟩, ?_, rfl, rfl, ⟨some mHead, none, ⟨0, none⟩⟩, ?_, rfl,
      rfl, trivial⟩
    · simp [hne]
    · simp
  · intro a ha
    simp only [nodes, List.reverse_nil, List.nil_append, List.mem_cons, List.not_mem_nil,
      or_false, not_or] at ha
    simp [ha]

theorem live_concat_insert (ops : List ConnOp) (c fd t : Nat) :
    live (ops ++ [.insert c fd t]) = live ops ++ [c] := by
  simp [live]

theorem live_concat_delete (ops : List ConnOp) (c : Nat) :
    live (ops ++ [.delete c]) = (live ops).filter (fun x => x ≠ c) := by
  simp [live]

/-- Every allowed sequence of calls can be made, and leaves the list of the live connections. -/
theorem listOf_run {q : ConnQueue} (hq : q.ListOf []) {ops : List ConnOp}
    (hops : AllAllowed q.mHead q.mTail ops) :
    ∃ heap, Steps.run step q ops = some { q with heap := heap } ∧
      ConnQueue.ListOf { q with heap := heap } (live ops) := by
  induction ops using List.reverseRecOn with
  | nil => exact ⟨q.heap, rfl, hq⟩
  | append_singleton ops op ih =>
      obtain ⟨hops, hop⟩ := allAllowed_concat.mp hops
      obtain ⟨heap, hrun, hlist⟩ := ih hops
      cases op with
      | insert c fd t =>
          have hfresh : c ∉ ConnQueue.nodes { q with heap := heap } (live ops) := by
            simp only [nodes, List.mem_cons, List.mem_append, List.mem_reverse, List.not_mem_nil,
              or_false, not_or]
            exact ⟨hop.1, hop.2.2, hop.2.1⟩
          obtain ⟨heap', hinsert, hlist'⟩ := hlist.insertConn hfresh fd t
          refine ⟨heap', ?_, ?_⟩
          · rw [Steps.run_append hrun]
            simp [Steps.run, step, hinsert]
          · rw [live_concat_insert]
            exact hlist'
      | delete c =>
          obtain ⟨heap', hdelete, hlist'⟩ := hlist.deleteConn hop
          refine ⟨heap', ?_, ?_⟩
          · rw [Steps.run_append hrun]
            simp [Steps.run, step, hdelete]
          · rw [live_concat_delete]
            exact hlist'

/-- A deleted node was not a sentinel. -/
theorem delete_ne {q : ConnQueue} (hq : q.ListOf []) {ops : List ConnOp}
    (hops : AllAllowed q.mHead q.mTail ops) {c : Nat} (hc : .delete c ∈ ops) :
    c ≠ q.mHead ∧ c ≠ q.mTail := by
  obtain ⟨before, rest, rfl⟩ := List.append_of_mem hc
  have hbefore : AllAllowed q.mHead q.mTail before := by
    intro before' op rest' heq
    exact hops before' op (rest' ++ .delete c :: rest) (by rw [heq]; simp)
  have hlive : c ∈ live before := hops before (.delete c) rest rfl
  obtain ⟨heap, _, hlist⟩ := listOf_run hq hbefore
  obtain ⟨hhead, hconns⟩ := List.nodup_cons.mp hlist.nodup
  obtain ⟨_, _, hdisjoint⟩ := List.nodup_append.mp hconns
  constructor
  · rintro rfl
    exact hhead (by simp [hlive])
  · exact hdisjoint c (List.mem_reverse.mpr hlive) q.mTail List.mem_cons_self

/-- **The list of connections stays intact**: behind every sequence of calls, the links
lead from `m_head` over the live connections, the newest first, to `m_tail`, and back,
and to no other node. -/
theorem conn_list_intact {mHead mTail : Nat} (hne : mHead ≠ mTail) {ops : List ConnOp}
    (hops : AllAllowed mHead mTail ops) :
    ∃ q₀ q, new mHead mTail = some q₀ ∧ Steps.run step q₀ ops = some q ∧
      (∀ xs, Walk q.heap Node.next (some mHead) xs ↔
        xs = mHead :: ((live ops).reverse ++ [mTail])) ∧
      (∀ xs, Walk q.heap Node.prev (some mTail) xs ↔
        xs = (mHead :: ((live ops).reverse ++ [mTail])).reverse) ∧
      (∀ a, q.Reachable a → a = mHead ∨ a = mTail ∨ a ∈ live ops) ∧
      ∀ c, .delete c ∈ ops → c ∉ live ops → ¬ q.Reachable c := by
  obtain ⟨heap₀, hnew, hlist₀⟩ := listOf_new hne
  obtain ⟨heap, hrun, hlist⟩ := listOf_run hlist₀ hops
  have hreach : ∀ a, ConnQueue.Reachable ⟨heap, mHead, mTail⟩ a →
      a = mHead ∨ a = mTail ∨ a ∈ live ops := by
    intro a ha
    have hmem : a ∈ ConnQueue.nodes ⟨heap, mHead, mTail⟩ (live ops) := by
      rcases ha with ha | ha
      · exact hlist.linked.reaches_mem (by simp [nodes]) ha
      · exact hlist.linked.reaches_mem (by simp [nodes]) ha
    simp only [nodes, List.mem_cons, List.mem_append, List.mem_reverse, List.not_mem_nil,
      or_false] at hmem
    tauto
  have hback := hlist.linked.walk_prev
  rw [nodes, ← List.cons_append, List.getLast?_concat] at hback
  refine ⟨_, _, hnew, hrun, hlist.linked.walk_next.iff_eq, hback.iff_eq, hreach, ?_⟩
  intro c hc hdead hcreach
  obtain ⟨hhead, htail⟩ := delete_ne hlist₀ hops hc
  rcases hreach c hcreach with h | h | h
  · exact hhead h
  · exact htail h
  · exact hdead h

/-- Two connections, of which the first goes, and its address comes back. -/
theorem conn_list_intact_reused :
    ∃ q₀ q, new 1 2 = some q₀ ∧
      Steps.run step q₀ [.insert 3 7 0, .insert 4 8 0, .delete 3, .insert 3 9 0] = some q ∧
      Walk q.heap Node.next (some 1) [1, 3, 4, 2] ∧ Walk q.heap Node.prev (some 2) [2, 4, 3, 1] := by
  have hops : AllAllowed 1 2
      ([] ++ [.insert 3 7 0] ++ [.insert 4 8 0] ++ [.delete 3] ++ [.insert 3 9 0]) := by
    simp only [allAllowed_concat]
    refine ⟨⟨⟨⟨?_, ?_⟩, ?_⟩, ?_⟩, ?_⟩
    · intro before op rest h
      simp at h
    all_goals simp [Allowed, live]
  obtain ⟨q₀, q, hnew, hrun, hnext, hprev, _⟩ := conn_list_intact (by decide) hops
  exact ⟨q₀, q, hnew, hrun, (hnext _).mpr rfl, (hprev _).mpr rfl⟩

end ConnQueue

end KvProxy
