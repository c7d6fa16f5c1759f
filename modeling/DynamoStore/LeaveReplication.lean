import DynamoStore.LeaveTransfers
import DynamoStore.ReplicaSets

/-!
# Leaving preserves replication

If every stored key is held by exactly its replicas, then after a node has left
while no message was lost, the replicas on the smaller ring hold it. The departure
of a replica lets one newcomer in, and it is to the newcomer that the entry goes.
-/

namespace LeaveReplication

open RpcPrograms GossipNode StateMachine
open RingOwners ClusterStores HandlerRuns ReplicaSets KeyTransfers LeaveTransfers

variable {hash : String → UInt64} {r : ConsistentHashingRing} {members : Set String}

/-- Exactly the replicas store the entry. -/
def HeldByReplicas (hash : String → UInt64) (r : ConsistentHashingRing) (members : Set String)
    (state : String → GossipNode) (key : String) (d : Data) : Prop :=
  ∀ n ∈ members, stored state n key = if n ∈ replicas hash r key then some d else none

theorem HeldByReplicas.eq {state : String → GossipNode} {key n : String} {d e : Data}
    (held : HeldByReplicas hash r members state key d) (hn : n ∈ members)
    (he : stored state n key = some e) : e = d ∧ n ∈ replicas hash r key := by
  rw [held n hn] at he
  split at he
  · rename_i hmem
    exact ⟨(Option.some.inj he).symm, hmem⟩
  · cases he

theorem gains_iff {x p key : String} : Gains hash r (r.removeNode hash x) p key ↔
    p ∉ replicas hash r key ∧ p ∈ replicas hash (r.removeNode hash x) key := by
  rw [Gains, checkDataBelonging_eq_false_iff, checkDataBelonging_iff]

/-- A replica makes room for a newcomer, which is offered its entry and takes it. -/
theorem newcomer_takes (ring : RingOf hash members r)
    {x p key : String} (apart : NoCollision hash r.numVirtualNodes (insert x members))
    (hx : x ∈ members) {state : String → GossipNode} {d : Data}
    (held : HeldByReplicas hash r members state key d)
    (hp : p ∈ replicas hash (r.removeNode hash x) key) (hnew : p ∉ replicas hash r key) :
    Gains hash r (r.removeNode hash x) p key ∧ stored state x key = some d ∧
      Takes (stored state) p key d := by
  refine ⟨gains_iff.mpr ⟨hnew, hp⟩, ?_, ?_⟩
  · rw [held x hx, if_pos (mem_replicas_of_newcomer ring apart hp hnew)]
  · rw [Takes, held p (remains_of_mem_replicas ring apart hp).1, if_neg hnew]
    exact takenOver_none d

section Relocated

variable {x key : String} {d : Data} {state : String → GossipNode} {dest : String → Option String}
variable (ring : RingOf hash members r)
variable (apart : NoCollision hash r.numVirtualNodes (insert x members)) (hx : x ∈ members)
variable (held : HeldByReplicas hash r members state key d)
variable (others : ∀ n ∈ members, n ≠ x → n ∈ (state x).stubs)
variable (moves : Moves x (fun p key => p ∈ (state x).stubs ∧
  Gains hash r (r.removeNode hash x) p key) dest (stored state))

include ring apart hx held others moves

/-- A key that goes nowhere has gained no replica. -/
theorem mem_replicas_of_stays (hnone : dest key = none) {p : String}
    (hp : p ∈ replicas hash (r.removeNode hash x) key) : p ∈ replicas hash r key := by
  by_contra hnew
  obtain ⟨hpm, hpx⟩ := remains_of_mem_replicas ring apart hp
  obtain ⟨hgains, hxd, htakes⟩ := newcomer_takes ring apart hx held hp hnew
  have hmoved := moves.all key p d ⟨others p hpm hpx, hgains⟩ hxd htakes
  simp [hnone] at hmoved

/-- Wherever the key goes, all its replicas on the smaller ring hold the entry. -/
theorem relocate_replicated {p : String} (hp : p ∈ replicas hash (r.removeNode hash x) key) :
    relocate x dest (stored state) p key = some d := by
  obtain ⟨hpm, hpx⟩ := remains_of_mem_replicas ring apart hp
  cases hdest : dest key with
  | none =>
    have hold := mem_replicas_of_stays ring apart hx held others moves hdest hp
    rw [relocate_of_none hdest, held p hpm, if_pos hold]
  | some q =>
    obtain ⟨hq, hgains⟩ := moves.offered key q hdest
    obtain ⟨hqnew, hq'⟩ := gains_iff.mp hgains
    by_cases hnew : p ∈ replicas hash r key
    · have hpq : p ≠ q := fun h => hqnew (h ▸ hnew)
      simp [relocate, hdest, hpx, hpq, held p hpm, hnew]
    · have hpq : p = q := replicas_newcomer_unique ring apart hp hnew hq' hqnew
      subst hpq
      obtain ⟨e, he, _⟩ := moves.takes key p hdest
      rw [relocate_dest hdest hpx, he, (held.eq hx he).1]

end Relocated

/-- A node leaves while no message is lost. Then all replicas of a stored key on
the ring without the node hold its entry, and the node itself holds it only if
the key has gained no replica. -/
theorem leave_keeps_replication (ring : RingOf hash members r)
    (apart : NoCollision hash r.numVirtualNodes members) {w : Net}
    (shared : ∀ n ∈ members, (w.state n).ring = r) {x : String} (hx : x ∈ members)
    (own : x ∉ (w.state x).stubs) (others : ∀ n ∈ members, n ≠ x → n ∈ (w.state x).stubs)
    (held : ∀ m ∈ members, ∀ key e, stored w.state m key = some e →
      ∃ d, HeldByReplicas hash r members w.state key d)
    {env : Env String Int64} (reliable : env.Reliable) :
    ∃ w', exec hash env 1 x (leaveNetwork hash x) w = some (w', ()) ∧
      (∀ n ∈ members, (w'.state n).ring = r.removeNode hash x) ∧
      ∀ m ∈ members, ∀ key d, stored w.state m key = some d →
        Replicated hash (r.removeNode hash x) w'.state key d ∧
        (stored w'.state x key ≠ none →
          ∀ p ∈ replicas hash (r.removeNode hash x) key, p ∈ replicas hash r key) := by
  have apart' : NoCollision hash r.numVirtualNodes (insert x members) := by
    rw [Set.insert_eq_of_mem hx]
    exact apart
  obtain ⟨w', dest, hrun, hstored, hmoves, hdismissed⟩ := leaveNetwork_run hash w 0 reliable x own
  rw [shared x hx] at hmoves
  refine ⟨w', hrun, fun n hn => ?_, fun m hm key d hd => ?_⟩
  · rw [hdismissed.ring n]
    by_cases hnx : n = x
    · subst hnx
      simp [mem_told, apply, own, shared n hn]
    · simp [mem_told, apply, hnx, others n hn hnx, shared n hn]
  · obtain ⟨d', hheld⟩ := held m hm key d hd
    obtain ⟨rfl, _⟩ := hheld.eq hm hd
    refine ⟨fun p hp => ?_, fun hleft p hp => ?_⟩
    · rw [hstored]
      exact relocate_replicated ring apart' hx hheld others hmoves hp
    · cases hdest : dest key with
      | none => exact mem_replicas_of_stays ring apart' hx hheld others hmoves hdest hp
      | some q =>
        rw [hstored, relocate_self hdest] at hleft
        exact absurd rfl hleft

section FourNodes

/-- Node A leaves, and node D becomes a replica of the key. -/
theorem leave_keeps_replication_sample :
    ∃ w', exec fourNodes calmEnv 1 "A" (leaveNetwork fourNodes "A")
        ⟨holding fourNodes ["A", "B", "C", "D"] ["A", "B", "C"] "k" ("v", [("A", 1)]), 0⟩ =
          some (w', ()) ∧
      Replicated fourNodes ((ringWith fourNodes ["A", "B", "C", "D"]).removeNode fourNodes "A")
        w'.state "k" ("v", [("A", 1)]) := by
  have held : HeldByReplicas fourNodes (ringWith fourNodes ["A", "B", "C", "D"])
      {n | n ∈ ["A", "B", "C", "D"]}
      (holding fourNodes ["A", "B", "C", "D"] ["A", "B", "C"] "k" ("v", [("A", 1)])) "k"
      ("v", [("A", 1)]) := by
    have replicas : replicas fourNodes (ringWith fourNodes ["A", "B", "C", "D"]) "k" =
        ["A", "B", "C"] := by
      decide +kernel
    intro n _
    rw [replicas, stored_holding]
    simp
  obtain ⟨w', hrun, _, hafter⟩ := leave_keeps_replication (x := "A")
    (w := ⟨holding fourNodes ["A", "B", "C", "D"] ["A", "B", "C"] "k" ("v", [("A", 1)]), 0⟩)
    (ringOf_ringWith _ noCollision_fourNodes)
    (by rw [numVirtualNodes_ringWith]; exact noCollision_fourNodes)
    (fun n hn => if_pos hn) (by simp) (fun h => (mem_holding_stubs.mp h).2.2 rfl)
    (fun n hn hne => mem_holding_stubs.mpr ⟨by simp, hn, hne⟩)
    (fun m _ key e he => by
      rw [stored_holding] at he
      split at he
      · rename_i hmem
        rw [hmem.2]
        exact ⟨_, held⟩
      · cases he) calmEnv_reliable
  refine ⟨w', hrun, (hafter "A" (by simp) "k" _ ?_).1⟩
  rw [stored_holding]
  simp

end FourNodes

end LeaveReplication
