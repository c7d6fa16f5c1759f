import DynamoStore.RingOwners
import DynamoStore.ClusterStores

/-!
# Replica sets

The first `REPLICA_N` owners of a key are its replicas. When a node leaves the
ring, every other replica of a key stays one, and at most one node becomes one.
When a node is added, no other node becomes a replica, and on a ring with enough
nodes some replica has to give way to the new one.
-/

namespace ReplicaSets

open GossipNode StateMachine ClockwiseWalk MachineWords
open RingOwners ClusterStores

/-- The replicas of a key. -/
def replicas (hash : String → UInt64) (r : ConsistentHashingRing) (key : String) : List String :=
  (owners hash r key).take replicaN

/-- Every replica stores the entry. -/
def Replicated (hash : String → UInt64) (r : ConsistentHashingRing)
    (state : String → GossipNode) (key : String) (d : Data) : Prop :=
  ∀ n ∈ replicas hash r key, stored state n key = some d

instance (hash : String → UInt64) (r : ConsistentHashingRing) (state : String → GossipNode)
    (key : String) (d : Data) : Decidable (Replicated hash r state key d) :=
  inferInstanceAs (Decidable (∀ n ∈ replicas hash r key, stored state n key = some d))

variable {hash : String → UInt64} {r : ConsistentHashingRing} {key x n : String}
variable {members : Set String}

theorem checkDataBelonging_iff :
    r.checkDataBelonging hash key n replicaN = true ↔ n ∈ replicas hash r key := by
  have hsize : max (toSize (replicaN : Int)) 1 = replicaN := by
    rw [toSize_of_nonneg (by decide) (by decide)]
    rfl
  rw [checkDataBelonging_eq, hsize, decide_eq_true_eq, replicas]

theorem checkDataBelonging_eq_false_iff :
    r.checkDataBelonging hash key n replicaN = false ↔ n ∉ replicas hash r key := by
  rw [← checkDataBelonging_iff, Bool.not_eq_true]

theorem RingOf.mem_of_mem_replicas (ring : RingOf hash members r)
    (hn : n ∈ replicas hash r key) : n ∈ members := by
  obtain ⟨p, hp⟩ := mem_owners.mp (List.mem_of_mem_take hn)
  exact ((ring p n).mp hp).1

section Leave

variable (ring : RingOf hash members r)
variable (apart : NoCollision hash r.numVirtualNodes (insert x members))

include ring apart

theorem replicas_removeNode : replicas hash (r.removeNode hash x) key =
    ((owners hash r key).filter fun id => id ≠ x).take replicaN := by
  rw [replicas, owners_removeNode ring apart]

theorem remains_of_mem_replicas (hn : n ∈ replicas hash (r.removeNode hash x) key) :
    n ∈ members ∧ n ≠ x := by
  refine ⟨(RingOf.mem_of_mem_replicas (ringOf_removeNode ring apart) hn).1, ?_⟩
  rw [replicas_removeNode ring apart] at hn
  simpa using (List.mem_filter.mp (List.mem_of_mem_take hn)).2

/-- Only the departure of a replica makes room. -/
theorem mem_replicas_of_newcomer (hn : n ∈ replicas hash (r.removeNode hash x) key)
    (hnew : n ∉ replicas hash r key) : x ∈ replicas hash r key := by
  rw [replicas_removeNode ring apart] at hn
  rcases take_filter_ne_cases (l := owners hash r key) nodup_owners x replicaN with
    ⟨_, heq⟩ | ⟨front, back, _, _, htake, _⟩
  · rw [heq] at hn
    exact absurd hn hnew
  · rw [replicas, htake]
    exact List.mem_append_right _ List.mem_cons_self

theorem replicas_newcomer_unique {m : String}
    (hn : n ∈ replicas hash (r.removeNode hash x) key) (hnew : n ∉ replicas hash r key)
    (hm : m ∈ replicas hash (r.removeNode hash x) key) (hnew' : m ∉ replicas hash r key) :
    n = m := by
  rw [replicas_removeNode ring apart] at hn hm
  exact newcomer_unique nodup_owners hn hnew hm hnew'

end Leave

section Join

variable (ring : RingOf hash members r)
variable (apart : NoCollision hash r.numVirtualNodes (insert x members)) (fresh : x ∉ members)

include ring apart fresh

/-- Nobody but the new node becomes a replica. -/
theorem mem_replicas_of_addNode (hne : n ≠ x) (hn : n ∈ replicas hash (r.addNode hash x) key) :
    n ∈ replicas hash r key := by
  rw [replicas, owners_addNode ring apart fresh]
  exact mem_take_filter_ne nodup_owners hne hn

/-- A new replica displaces another one, if the ring has enough nodes. -/
theorem exists_displaced (hx : x ∈ replicas hash (r.addNode hash x) key)
    (enough : replicaN ≤ (owners hash r key).length) :
    ∃ m ∈ replicas hash r key, m ∉ replicas hash (r.addNode hash x) key := by
  rw [replicas, owners_addNode ring apart fresh]
  rw [owners_addNode ring apart fresh] at enough
  exact displaced_exists nodup_owners hx enough

/-- A node that is not a replica any more has room only on a ring with enough nodes. -/
theorem enough_of_displaced (hn : n ∈ owners hash r key)
    (hnot : n ∉ replicas hash (r.addNode hash x) key) :
    replicaN ≤ (owners hash r key).length := by
  by_contra few
  rw [owners_addNode ring apart fresh] at hn few
  have hmem : n ∈ owners hash (r.addNode hash x) key := (List.mem_filter.mp hn).1
  have short : (owners hash (r.addNode hash x) key).length ≤ replicaN := by
    have hlength := length_le_filter_ne (l := owners hash (r.addNode hash x) key) nodup_owners x
    omega
  rw [replicas, List.take_of_length_le short] at hnot
  exact hnot hmem

end Join

section Samples

theorem numVirtualNodes_ringWith (l : List String) : (ringWith hash l).numVirtualNodes = 1 :=
  numVirtualNodes_foldl_addNode l _

theorem ringOf_ringWith (l : List String) (apart : NoCollision hash 1 {n | n ∈ l}) :
    RingOf hash {n | n ∈ l} (ringWith hash l) := by
  have hring := ringOf_foldl_addNode l (ringOf_init hash 1)
    (by rw [Set.empty_union]; exact apart)
  rw [Set.empty_union] at hring
  exact hring

theorem noCollision_fourNodes : NoCollision fourNodes 1 {n | n ∈ ["A", "B", "C", "D"]} := by
  have apart : ∀ id ∈ ["A", "B", "C", "D"], ∀ id' ∈ ["A", "B", "C", "D"], ∀ i < 1, ∀ i' < 1,
      ConsistentHashingRing.virtualNode fourNodes id i =
        ConsistentHashingRing.virtualNode fourNodes id' i' → id = id' ∧ i = i' := by
    decide +kernel
  exact apart

end Samples

end ReplicaSets
