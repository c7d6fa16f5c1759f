import DynamoStore.Lib.ClockwiseWalk
import DynamoStore.MachineWords

/-!
# The consistent hashing ring

Virtual nodes sit at hashed positions of a sorted map. `hash` stands for
`std::hash<std::string>`, of which nothing is assumed here. The two lookup loops
are `do`-`while` loops that stop on either of two conditions. Their translations
take as fuel the number of positions; `DynamoStore.RingOwners` proves that they
never run out of it, and that both visit the same owners.
-/

open ClockwiseWalk MachineWords

structure ConsistentHashingRing where
  numVirtualNodes : Nat
  ring : SortedMap UInt64 String
  nodeCount : Int

namespace ConsistentHashingRing

def init (numVirtualNodes : Nat) : ConsistentHashingRing := ⟨numVirtualNodes, .empty, 0⟩

variable (hash : String → UInt64)

/-- The position of one virtual node: the hash of the id followed by the index. -/
def virtualNode (nodeId : String) (i : Nat) : UInt64 := hash (nodeId ++ toString i)

def addNode (r : ConsistentHashingRing) (nodeId : String) : ConsistentHashingRing where
  numVirtualNodes := r.numVirtualNodes
  ring := (List.range r.numVirtualNodes).foldl
    (fun ring i => ring.insert (virtualNode hash nodeId i) nodeId) r.ring
  nodeCount := r.nodeCount + 1

def removeNode (r : ConsistentHashingRing) (nodeId : String) : ConsistentHashingRing where
  numVirtualNodes := r.numVirtualNodes
  ring := (List.range r.numVirtualNodes).foldl
    (fun ring i => ring.erase (virtualNode hash nodeId i)) r.ring
  nodeCount := r.nodeCount - 1

def getNode (r : ConsistentHashingRing) (key : String) : String :=
  match r.ring.seek (hash key) with
  | none => ""
  | some it => it.2

/-- The loop of `getReplicasNodes`; `nodesVec` also plays the part of `nodes_set`. -/
def replicasLoop (ring : SortedMap UInt64 String) (returnReplicas : Nat) (begin : UInt64) :
    Nat → UInt64 × String → List String → Option (List String)
  | 0, _, _ => none
  | fuel + 1, it, nodesVec =>
    let nodesVec := if it.2 ∈ nodesVec then nodesVec else nodesVec ++ [it.2]
    match ring.seek (it.1 + 1) with
    | none => none
    | some it =>
      if nodesVec.length < returnReplicas ∧ it.1 ≠ begin then
        replicasLoop ring returnReplicas begin fuel it nodesVec
      else some nodesVec

def getReplicasNodes (r : ConsistentHashingRing) (key : String) (numReplicas : Int) :
    List String :=
  let returnReplicas := min r.nodeCount numReplicas
  match r.ring.seek (hash key) with
  | none => []
  | some it =>
    (replicasLoop r.ring (toSize returnReplicas) it.1 r.ring.entries.length it []).getD []

/-- The loop of `checkDataBelonging`. -/
def belongingLoop (ring : SortedMap UInt64 String) (nodeId : String) (numReplicas : Nat)
    (begin : UInt64) : Nat → UInt64 × String → List String → Option Bool
  | 0, _, _ => none
  | fuel + 1, it, nodesSet =>
    if it.2 ∉ nodesSet ∧ it.2 = nodeId then some true
    else
      let nodesSet := if it.2 ∈ nodesSet then nodesSet else nodesSet ++ [it.2]
      match ring.seek (it.1 + 1) with
      | none => none
      | some it =>
        if nodesSet.length < numReplicas ∧ it.1 ≠ begin then
          belongingLoop ring nodeId numReplicas begin fuel it nodesSet
        else some false

def checkDataBelonging (r : ConsistentHashingRing) (key nodeId : String) (numReplicas : Int) :
    Bool :=
  match r.ring.seek (hash key) with
  | none => false
  | some it =>
    (belongingLoop r.ring nodeId (toSize numReplicas) it.1 r.ring.entries.length it []).getD false

end ConsistentHashingRing
