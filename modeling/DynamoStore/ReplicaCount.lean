import DynamoStore.HandlerRuns
import DynamoStore.ReplicaSets
import DynamoStore.Lib.RpcInterleaving
import Mathlib.Data.Finset.Card

/-!
# The counter of the ring's nodes

`node_count_` counts calls, while the map counts nodes: adding a node that is there,
or removing one that is not, changes the counter only. The counter limits the length
of every replica list, so lists get short once it has fallen behind the map. Counting
too many nodes does no harm.
-/

namespace ReplicaCount

open RpcPrograms RpcInterleaving ClockwiseWalk MachineWords ConsistentHashingRing RingOwners
open GossipNode ClusterStores HandlerRuns

/-- What the handlers do to a ring. -/
inductive Call where
  | addNode (nodeId : String)
  | removeNode (nodeId : String)
  deriving DecidableEq

namespace Call

def nodeId : Call → String
  | addNode nodeId => nodeId
  | removeNode nodeId => nodeId

def run (hash : String → UInt64) : Call → ConsistentHashingRing → ConsistentHashingRing
  | addNode nodeId, r => r.addNode hash nodeId
  | removeNode nodeId, r => r.removeNode hash nodeId

/-- The set of nodes after a call. -/
def members : Call → Finset String → Finset String
  | addNode nodeId, ids => insert nodeId ids
  | removeNode nodeId, ids => ids.erase nodeId

end Call

/-- The calls among `calls` that add a node that is there already. -/
def repeated : List Call → Finset String → Nat
  | [], _ => 0
  | .addNode nodeId :: calls, ids =>
    (if nodeId ∈ ids then 1 else 0) + repeated calls (insert nodeId ids)
  | .removeNode nodeId :: calls, ids => repeated calls (ids.erase nodeId)

/-- The calls among `calls` that remove a node that is not there. -/
def unmatched : List Call → Finset String → Nat
  | [], _ => 0
  | .addNode nodeId :: calls, ids => unmatched calls (insert nodeId ids)
  | .removeNode nodeId :: calls, ids =>
    (if nodeId ∈ ids then 0 else 1) + unmatched calls (ids.erase nodeId)

def membersAfter (calls : List Call) (ids : Finset String) : Finset String :=
  calls.foldl (fun ids call => call.members ids) ids

def ringAfter (hash : String → UInt64) (calls : List Call) (r : ConsistentHashingRing) :
    ConsistentHashingRing :=
  calls.foldl (fun r call => call.run hash r) r

/-- The number of nodes with a position on the ring. -/
def distinctNodes (r : ConsistentHashingRing) : Nat :=
  (r.ring.entries.map Prod.snd).eraseDups.length

variable {hash : String → UInt64} {r : ConsistentHashingRing} {ids : Finset String}

section Counting

/-- Every replica list has its length exactly if the counter has not fallen behind, or
there is nothing to fall behind of. -/
theorem replica_lengths_iff (low : -(2 ^ 31) ≤ r.nodeCount) (high : r.nodeCount < 2 ^ 31 - 1) :
    (∀ key, ∀ n : Nat, 1 ≤ n → n < 2 ^ 31 →
      (r.getReplicasNodes hash key n).length = min n (distinctNodes r)) ↔
      (2 ≤ distinctNodes r → distinctNodes r ≤ r.nodeCount) := by
  have lengths : ∀ key, ∀ n : Nat, (r.getReplicasNodes hash key n).length =
      min (max (toSize (min r.nodeCount n)) 1) (distinctNodes r) := by
    intro key n
    rw [getReplicasNodes_eq, List.length_take, length_owners, distinctNodes]
  constructor
  · intro h htwo
    by_contra hless
    by_cases hneg : r.nodeCount < 0
    · -- a negative counter is a huge `size_t`
      have hone := h "" 1 le_rfl (by omega)
      have hsize : toSize (min r.nodeCount (1 : Nat)) = (r.nodeCount + 2 ^ 64).toNat := by
        rw [toSize, min_eq_left (by omega), ← Int.add_emod_right, Int.emod_eq_of_lt (by omega)
          (by omega)]
      rw [lengths, hsize] at hone
      omega
    · have hn : ((max (r.nodeCount.toNat + 1) 2 : Nat) : Int) < 2 ^ 64 := by omega
      have hmore := h "" (max (r.nodeCount.toNat + 1) 2) (by omega) (by omega)
      rw [lengths, toSize_of_nonneg (by omega) (by omega)] at hmore
      omega
  · intro h key n hn hint
    rw [lengths]
    by_cases htwo : 2 ≤ distinctNodes r
    · have := h htwo
      rw [toSize_of_nonneg (by omega) (by omega)]
      omega
    · omega

theorem distinctNodes_eq (ring : RingOf hash ids r) (some_virtual : 0 < r.numVirtualNodes) :
    distinctNodes r = ids.card := by
  have hset : (owners hash r "").toFinset = ids := by
    ext id
    rw [List.mem_toFinset, ring.mem_owners some_virtual, Finset.mem_coe]
  have hlength : (owners hash r "").length = distinctNodes r := length_owners
  rw [← hlength, ← hset, List.toFinset_card_of_nodup nodup_owners]

end Counting

section Histories

variable {calls : List Call} {known : Set String}

theorem numVirtualNodes_run (call : Call) :
    (call.run hash r).numVirtualNodes = r.numVirtualNodes := by
  cases call <;> rfl

theorem ringOf_run (call : Call) (ring : RingOf hash ids r)
    (apart : NoCollision hash r.numVirtualNodes (insert call.nodeId ids)) :
    RingOf hash (call.members ids) (call.run hash r) := by
  cases call with
  | addNode nodeId =>
    rw [Call.members, Finset.coe_insert]
    exact ringOf_addNode ring apart
  | removeNode nodeId =>
    rw [Call.members, Finset.coe_erase]
    exact ringOf_removeNode ring apart

theorem members_subset {call : Call} (hcall : call.nodeId ∈ known) (hids : ∀ id ∈ ids, id ∈ known) :
    ∀ id ∈ call.members ids, id ∈ known := by
  intro id hid
  cases call with
  | addNode nodeId =>
    rcases Finset.mem_insert.mp hid with rfl | hid
    · exact hcall
    · exact hids id hid
  | removeNode nodeId => exact hids id (Finset.mem_of_mem_erase hid)

/-- The ring has the positions of the nodes that are there. -/
theorem ringOf_ringAfter (apart : NoCollision hash r.numVirtualNodes known)
    (hids : ∀ id ∈ ids, id ∈ known) (hcalls : ∀ call ∈ calls, call.nodeId ∈ known)
    (ring : RingOf hash ids r) :
    RingOf hash (membersAfter calls ids) (ringAfter hash calls r) ∧
      (ringAfter hash calls r).numVirtualNodes = r.numVirtualNodes := by
  induction calls generalizing r ids with
  | nil => exact ⟨ring, rfl⟩
  | cons call calls ih =>
    rw [List.forall_mem_cons] at hcalls
    have hinsert : insert call.nodeId (ids : Set String) ⊆ known := by
      intro id hid
      rcases hid with rfl | hid
      · exact hcalls.1
      · exact hids id hid
    obtain ⟨hring, hvirtual⟩ := @ih (call.run hash r) (call.members ids)
      (by rw [numVirtualNodes_run]; exact apart) (members_subset hcalls.1 hids) hcalls.2
      (ringOf_run call ring (apart.subset hinsert))
    exact ⟨hring, hvirtual.trans (numVirtualNodes_run call)⟩

variable (hash) in
/-- The counter differs from the number of nodes by the repeated and unmatched calls. -/
theorem nodeCount_ringAfter (calls : List Call) (r : ConsistentHashingRing)
    (ids : Finset String) :
    (ringAfter hash calls r).nodeCount + ids.card + unmatched calls ids =
      r.nodeCount + (membersAfter calls ids).card + repeated calls ids := by
  induction calls generalizing r ids with
  | nil => simp [ringAfter, membersAfter, unmatched, repeated]
  | cons call calls ih =>
    have hcount := ih (call.run hash r) (call.members ids)
    change (ringAfter hash calls (call.run hash r)).nodeCount + ids.card +
        unmatched (call :: calls) ids =
      r.nodeCount + (membersAfter calls (call.members ids)).card + repeated (call :: calls) ids
    cases call with
    | addNode nodeId =>
      have hrun : (Call.run hash (.addNode nodeId) r).nodeCount = r.nodeCount + 1 := rfl
      simp only [Call.members] at hcount hrun ⊢
      rw [hrun] at hcount
      rw [unmatched, repeated]
      by_cases hmem : nodeId ∈ ids
      · rw [Finset.insert_eq_of_mem hmem] at hcount ⊢
        rw [if_pos hmem]
        omega
      · rw [Finset.card_insert_of_notMem hmem] at hcount
        rw [if_neg hmem]
        omega
    | removeNode nodeId =>
      have hrun : (Call.run hash (.removeNode nodeId) r).nodeCount = r.nodeCount - 1 := rfl
      simp only [Call.members] at hcount hrun ⊢
      rw [hrun] at hcount
      rw [unmatched, repeated]
      by_cases hmem : nodeId ∈ ids
      · have hcard := Finset.card_erase_add_one hmem
        rw [if_pos hmem]
        omega
      · rw [Finset.erase_eq_of_notMem hmem] at hcount ⊢
        rw [if_neg hmem]
        omega

variable (hash) in
/-- The counter stays within the number of calls. -/
theorem abs_nodeCount_le (calls : List Call) (r : ConsistentHashingRing) :
    r.nodeCount - calls.length ≤ (ringAfter hash calls r).nodeCount ∧
      (ringAfter hash calls r).nodeCount ≤ r.nodeCount + calls.length := by
  induction calls generalizing r with
  | nil => simp [ringAfter]
  | cons call calls ih =>
    have hrest := ih (call.run hash r)
    have hstep : (call.run hash r).nodeCount = r.nodeCount + 1 ∨
        (call.run hash r).nodeCount = r.nodeCount - 1 := by
      cases call
      · exact Or.inl rfl
      · exact Or.inr rfl
    change r.nodeCount - (call :: calls).length ≤
        (ringAfter hash calls (call.run hash r)).nodeCount ∧
      (ringAfter hash calls (call.run hash r)).nodeCount ≤ r.nodeCount + (call :: calls).length
    rw [List.length_cons]
    omega

variable (hash) in
theorem ringAfter_concat (calls : List Call) (call : Call) (r : ConsistentHashingRing) :
    ringAfter hash (calls ++ [call]) r = call.run hash (ringAfter hash calls r) := by
  rw [ringAfter, List.foldl_append]
  rfl

/-- The ring of a node is always the result of some calls, whatever requests are handled
and in whatever order. -/
theorem ring_of_reach {allowed : String → Request → Prop}
    {ok : String → Request → Action → GossipNode → Prop} {state : String → GossipNode}
    {c : Config String GossipNode Action Request Reply Int64} (r : String → ConsistentHashingRing)
    (start : ∀ n, (state n).ring = r n)
    (hreach : Reach (apply hash) (serve hash) allowed ok (.start state) c) (n : String) :
    ∃ calls, (c.shared.state n).ring = ringAfter hash calls (r n) := by
  refine invariant_of_reach (I := fun n node => ∃ calls, node.ring = ringAfter hash calls (r n))
    ?_ hreach (fun m => ⟨[], start m⟩) n
  rintro n a node ⟨calls, hcalls⟩
  cases a with
  | addNode nodeId =>
    refine ⟨calls ++ [.addNode nodeId], ?_⟩
    rw [ringAfter_concat, ← hcalls]
    rfl
  | removeNode nodeId =>
    refine ⟨calls ++ [.removeNode nodeId], ?_⟩
    rw [ringAfter_concat, ← hcalls]
    rfl
  | _ => exact ⟨calls, hcalls⟩

end Histories

/-- A history of calls on a new ring, of a length that the `int` counter can count. All
replica lists have their lengths all the time exactly if, whenever there are two nodes
or more, no more calls have removed an absent node than have added a present one. The
ring of a node in any run has such a history. -/
theorem replica_counts_iff {numVirtualNodes : Nat} (some_virtual : 0 < numVirtualNodes)
    {known : Set String} (apart : NoCollision hash numVirtualNodes known) (calls : List Call)
    (hcalls : ∀ call ∈ calls, call.nodeId ∈ known) (countable : calls.length < 2 ^ 31 - 1) :
    ((∀ before, before <+: calls → ∀ key, ∀ n : Nat, 1 ≤ n → n < 2 ^ 31 →
      ((ringAfter hash before (init numVirtualNodes)).getReplicasNodes hash key n).length =
        min n (distinctNodes (ringAfter hash before (init numVirtualNodes)))) ↔
      ∀ before, before <+: calls → 2 ≤ (membersAfter before ∅).card →
        unmatched before ∅ ≤ repeated before ∅) ∧
    ∀ (allowed : String → Request → Prop) (ok : String → Request → Action → GossipNode → Prop)
      (c : Config String GossipNode Action Request Reply Int64),
      Reach (apply hash) (serve hash) allowed ok
        (.start fun _ => GossipNode.new numVirtualNodes) c →
      ∀ n, ∃ history, (c.shared.state n).ring =
        ringAfter hash history (init numVirtualNodes) := by
  refine ⟨forall₂_congr fun before hbefore => ?_,
    fun _ _ _ hreach => ring_of_reach (fun _ => init numVirtualNodes) (fun _ => rfl) hreach⟩
  have hcount := nodeCount_ringAfter hash before (init numVirtualNodes) ∅
  obtain ⟨ring, hvirtual⟩ := @ringOf_ringAfter hash (init numVirtualNodes) ∅
    before known apart (by simp)
    (fun call hcall => hcalls call (hbefore.subset hcall))
    (by rw [Finset.coe_empty]; exact ringOf_init hash numVirtualNodes)
  have hlength := hbefore.length_le
  obtain ⟨hlow, hhigh⟩ := abs_nodeCount_le hash before (init numVirtualNodes)
  have hzero : (init numVirtualNodes).nodeCount = 0 := rfl
  rw [replica_lengths_iff (by omega) (by omega),
    distinctNodes_eq ring (by rw [hvirtual]; exact some_virtual)]
  rw [hzero, Finset.card_empty] at hcount
  refine imp_congr_right fun _ => ?_
  omega

section FourNodes

/-- Node B joins twice before node C leaves without having joined. -/
theorem replica_counts_sample :
    ((ringAfter fourNodes [.addNode "A", .addNode "B", .addNode "B", .removeNode "C"]
      (init 1)).getReplicasNodes fourNodes "k" (3 : Nat)).length = 2 := by
  have counts := (replica_counts_iff (by decide) ReplicaSets.noCollision_fourNodes
    [.addNode "A", .addNode "B", .addNode "B", .removeNode "C"] (by decide) (by decide)).1.mpr
      fun before hbefore => by
        have all : ∀ before ∈ [Call.addNode "A", .addNode "B", .addNode "B",
            .removeNode "C"].inits, 2 ≤ (membersAfter before ∅).card →
              unmatched before ∅ ≤ repeated before ∅ := by
          decide +kernel
        exact all before ((List.mem_inits before _).mpr hbefore)
  rw [counts _ (List.prefix_refl _) "k" 3 (by decide) (by decide)]
  decide +kernel

set_option synthInstance.maxSize 1000 in
/-- Node A knows B and C, and is told twice that B leaves. Two nodes remain on its ring,
and it counts one. -/
theorem replica_list_too_short :
    ∃ (w : Net) (replies : List (String × Request × Reply)),
      session (apply fourNodes) (serve fourNodes) (fun _ _ _ _ => True) calmEnv 3
        [("A", .adminCmd "JoinNetwork" ["B", "C"]), ("A", .leaveNetwork "B"),
          ("A", .leaveNetwork "B")] ⟨fun _ => GossipNode.new 1, 0⟩ = some (w, replies) ∧
      NoCollision fourNodes 1 {n | n ∈ ["A", "B", "C", "D"]} ∧
      distinctNodes (w.state "A").ring = 2 ∧
      ((w.state "A").ring.getReplicasNodes fourNodes "k" (2 : Nat)).length ≠
        min 2 (distinctNodes (w.state "A").ring) := by
  obtain ⟨⟨w, replies⟩, hsession, hnodes, hlength⟩ :
      ∃ x ∈ session (apply fourNodes) (serve fourNodes) (fun _ _ _ _ => True) calmEnv 3
        [("A", .adminCmd "JoinNetwork" ["B", "C"]), ("A", .leaveNetwork "B"),
          ("A", .leaveNetwork "B")] ⟨fun _ => GossipNode.new 1, 0⟩,
        distinctNodes (x.1.state "A").ring = 2 ∧
          ((x.1.state "A").ring.getReplicasNodes fourNodes "k" (2 : Nat)).length ≠
            min 2 (distinctNodes (x.1.state "A").ring) := by
    decide +kernel
  exact ⟨w, replies, hsession, ReplicaSets.noCollision_fourNodes, hnodes, hlength⟩

end FourNodes

end ReplicaCount
