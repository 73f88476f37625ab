import KvProxy.Failover

/-!
# The ring has no memory

Hosts are taken out of a ring and put back any number of times.  As long as no
two hosts of the group share a position, and a host is always put back with its
own index and weight, the ring is at any time the one `setHosts` builds from the
hosts that are in: the canonical form is `ringOf`, and every call changes the
set of hosts in it and nothing else.

* `RingOp.lastDeleted_delHost`, `RingOp.lastDeleted_addHost` — what a further call
  makes of the hosts that are out;
* `ring_has_no_memory` — the ring after a sequence of calls is built from scratch.
-/

namespace KvProxy

/-- A call that changes the ring of a group. -/
inductive RingOp where
  | delHost (aliasIndex : Nat)
  | addHost (hostPort : Text) (aliasIndex index weight : Nat)
  deriving DecidableEq

namespace RingOp

/-- The alias a call is about. -/
def aliasIndex : RingOp → Nat
  | .delHost a => a
  | .addHost _ a _ _ => a

/-- The call, with the lock free. -/
def apply (h : ConsistentHash) : RingOp → ConsistentHash
  | .delHost a => (h.delHost true a).2
  | .addHost hostPort a index weight => (h.addHost true hostPort a index weight).2

/-- A host is put back as the group lists it. -/
def Own (hosts : Hosts) : RingOp → Prop
  | .delHost _ => True
  | .addHost hostPort a index weight => (toLex (hostPort, a), (index, weight)) ∈ hosts

instance (hosts : Hosts) : (op : RingOp) → Decidable (op.Own hosts)
  | .delHost _ => isTrue trivial
  | .addHost hostPort a index weight =>
      inferInstanceAs (Decidable ((toLex (hostPort, a), (index, weight)) ∈ hosts.entries))

/-- The last call about an alias. -/
def lastOp (ops : List RingOp) (a : Nat) : Option RingOp :=
  (ops.filter (fun op => op.aliasIndex = a)).getLast?

/-- The last call about an alias was a delete. -/
def lastDeleted (ops : List RingOp) (a : Nat) : Bool := lastOp ops a = some (.delHost a)

theorem lastOp_concat (ops : List RingOp) (op : RingOp) (a : Nat) :
    lastOp (ops ++ [op]) a = if op.aliasIndex = a then some op else lastOp ops a := by
  by_cases halias : op.aliasIndex = a
  · simp [lastOp, List.filter_append, halias]
  · simp [lastOp, List.filter_append, halias]

theorem lastDeleted_delHost (ops : List RingOp) (a : Nat) :
    lastDeleted (ops ++ [.delHost a]) = Function.update (lastDeleted ops) a true := by
  funext b
  by_cases hb : b = a
  · subst hb
    simp [lastDeleted, lastOp_concat, aliasIndex]
  · simp [lastDeleted, lastOp_concat, aliasIndex, hb, Ne.symm hb]

theorem lastDeleted_addHost (ops : List RingOp) (hostPort : Text) (a index weight : Nat) :
    lastDeleted (ops ++ [.addHost hostPort a index weight]) =
      Function.update (lastDeleted ops) a false := by
  funext b
  by_cases hb : b = a
  · subst hb
    simp [lastDeleted, lastOp_concat, aliasIndex]
  · simp [lastDeleted, lastOp_concat, aliasIndex, hb, Ne.symm hb]

end RingOp

/-- No two hosts of a group have one alias. -/
def AliasesApart (hosts : Hosts) : Prop :=
  ∀ it ∈ hosts.entries, ∀ it' ∈ hosts.entries, (ofLex it.1).2 = (ofLex it'.1).2 → it.1 = it'.1

instance (hosts : Hosts) : Decidable (AliasesApart hosts) := by
  unfold AliasesApart
  infer_instance

/-- **The ring has no memory.**  After any calls of `delHost`, and of `addHost`
with a host's own index and weight, the ring is the one that `setHosts` builds
from scratch from the hosts whose last call was not a delete. -/
theorem ring_has_no_memory (hosts : Hosts) (halias : AliasesApart hosts)
    (hapart : VNodesApart hosts) (ops : List RingOp) (hown : ∀ op ∈ ops, op.Own hosts) :
    (ops.foldl RingOp.apply (ConsistentHash.new.setHosts true hosts false)).hash =
      (ConsistentHash.new.setHosts true
        (hosts.filter (fun it => !RingOp.lastDeleted ops (ofLex it.1).2)) false).hash := by
  change _ = ringOf hosts (RingOp.lastDeleted ops)
  -- one more call at the end: the ring before it is in canonical form
  induction ops using List.reverseRecOn with
  | nil =>
      have hall : online hosts (RingOp.lastDeleted []) = hosts := by
        apply SortedMap.ext_mem
        simp [online, RingOp.lastDeleted, RingOp.lastOp]
      rw [ringOf, hall]
      rfl
  | append_singleton ops op ih =>
      have hring := ih (fun x hx => hown x (List.mem_append_left _ hx))
      have hlast := hown op (List.mem_append_right _ List.mem_cons_self)
      rw [List.foldl_append, List.foldl_cons, List.foldl_nil]
      cases op with
      | delHost a =>
          rw [RingOp.lastDeleted_delHost]
          exact delHost_ringOf hapart hring a
      | addHost hostPort a index weight =>
          rw [RingOp.lastDeleted_addHost]
          exact addHost_ringOf hapart hring hlast (fun it hit heq => halias it hit _ hlast heq)

/-- Two hosts of weight two. -/
def weightTwoHosts : Hosts :=
  ((∅ : Hosts).insert (toLex ("a:80".toList, 1)) (1, 2)).insert (toLex ("b:80".toList, 2)) (2, 2)

/-- The first host leaves twice and returns once, the second leaves in between
and returns: the ring is that of the second host. -/
theorem two_hosts_no_memory :
    ([RingOp.delHost 1, .delHost 2, .addHost "a:80".toList 1 1 2, .delHost 1,
        .addHost "b:80".toList 2 2 2].foldl RingOp.apply
          (ConsistentHash.new.setHosts true weightTwoHosts false)).hash =
      (ConsistentHash.new.setHosts true
        ((∅ : Hosts).insert (toLex ("b:80".toList, 2)) (2, 2)) false).hash := by
  refine (ring_has_no_memory weightTwoHosts (by decide +kernel) (by decide +kernel)
    [.delHost 1, .delHost 2, .addHost "a:80".toList 1 1 2, .delHost 1,
      .addHost "b:80".toList 2 2 2] (by decide +kernel)).trans ?_
  decide +kernel

end KvProxy
