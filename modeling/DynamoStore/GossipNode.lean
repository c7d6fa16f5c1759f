import DynamoStore.Lib.RpcPrograms
import DynamoStore.ConsistentHashingRing
import DynamoStore.StateMachine

/-!
# The gossip node

A node serves clients, other nodes and the admin. Its service methods are
programs over the node state; `self` is the `node_id_`, which is also the address
under which the others reach the node. A service method and the client call of
the same RPC have names that differ in C++ only by case: here the service method
`JoinNetwork` is `serveJoinNetwork`, and the caller's `joinNetwork` keeps its
name.

Time points are nanoseconds in 64 bits. A stub that is missing from `stubs` is a
null pointer in the source, so a call through it crashes the process.
-/

open RpcPrograms

structure GossipNode where
  ring : ConsistentHashingRing
  stateMachine : StateMachine
  stubs : Map Unit
  membersHeartbeatList : Map Int64
  alive : Bool

namespace GossipNode

open StateMachine

def replicaN : Nat := 3
def wCount : Nat := 2
def rCount : Nat := 2
/-- In milliseconds. -/
def checkAliveInterval : Int64 := 10000
/-- In milliseconds. -/
def heartbeatInterval : Int64 := 5000

/-- The node that the constructor makes, outside of any network. -/
def new (numVirtualNodes : Nat) : GossipNode where
  ring := .init numVirtualNodes
  stateMachine := .empty
  stubs := ∅
  membersHeartbeatList := ∅
  alive := false

inductive PutReturn where
  | ok
  | failed
  | notCoordinator
  | noVersion
  deriving DecidableEq

/-- What a node can be asked to do: the RPCs, and one turn of the loop in `main`. -/
inductive Request where
  | joinNetwork (nodeId : String)
  | leaveNetwork (nodeId : String)
  | gossip (memberList : List (String × Int64))
  | clientGet (key : String)
  | clientPut (key : String) (data : Data)
  | peerGet (key : String)
  | peerPut (key : String) (data : Data)
  | adminCmd (cmd : String) (aliveServers : List String)
  | mainLoopTurn
  deriving DecidableEq

/-- Responses with status OK, and the one other status. A turn of the main loop
responds to nobody. -/
inductive Reply where
  | joinNetwork (success : Bool)
  | leaveNetwork (success : Bool)
  | gossip (success : Bool)
  | clientGet (getResData : List Data) (coordinator : String)
  | clientPut (ret : PutReturn) (coordinator : String)
  | peerGet (data : Data)
  | peerPut (success : Bool)
  | adminCmd (success : Bool)
  | cancelled
  | turnDone
  deriving DecidableEq

/-- Everything a handler can do to the state of its node. -/
inductive Action where
  | put (key value : String) (version : Version)
  | remove (key : String)
  | addNode (nodeId : String)
  | removeNode (nodeId : String)
  | clearStubs
  | newStub (addr : String)
  | eraseStub (addr : String)
  | setHeartbeat (nodeId : String) (time : Int64)
  | touchHeartbeat (nodeId : String)
  | eraseHeartbeat (nodeId : String)
  | setAlive (alive : Bool)

/-- An entry that `operator[]` creates holds the epoch. -/
def heartbeat (node : GossipNode) (nodeId : String) : Int64 :=
  (node.membersHeartbeatList.lookup nodeId).getD 0

def durationMs (curTime time : Int64) : Int64 := (curTime - time) / 1000000

variable (hash : String → UInt64)

def apply : Action → GossipNode → GossipNode
  | .put key value version, node =>
    { node with stateMachine := node.stateMachine.put key value version }
  | .remove key, node => { node with stateMachine := node.stateMachine.remove key }
  | .addNode nodeId, node => { node with ring := node.ring.addNode hash nodeId }
  | .removeNode nodeId, node => { node with ring := node.ring.removeNode hash nodeId }
  | .clearStubs, node => { node with stubs := ∅ }
  | .newStub addr, node => { node with stubs := node.stubs.insert addr () }
  | .eraseStub addr, node => { node with stubs := node.stubs.erase addr }
  | .setHeartbeat nodeId time, node =>
    { node with membersHeartbeatList := node.membersHeartbeatList.insert nodeId time }
  | .touchHeartbeat nodeId, node =>
    { node with membersHeartbeatList :=
        node.membersHeartbeatList.insert nodeId (node.heartbeat nodeId) }
  | .eraseHeartbeat nodeId, node =>
    { node with membersHeartbeatList := node.membersHeartbeatList.erase nodeId }
  | .setAlive alive, node => { node with alive := alive }

abbrev Handler := Prog String GossipNode Action Request Reply Int64

open Prog

/-- 0 when the peer has applied the put, 1 otherwise: the flag is inverted. -/
def peerPut (peerServer key value : String) (vectorClock : Version) : Handler Int := do
  let node ← read
  if peerServer ∈ node.stubs then
    match ← send peerServer (.peerPut key (value, vectorClock)) with
    | some (.peerPut success) => return if success = false then 0 else 1
    | _ => return 1
  else crash

/-- The data of the peer, or none where the source returns 1. -/
def peerGet (peerServer key : String) : Handler (Option Data) := do
  let node ← read
  if peerServer ∈ node.stubs then
    match ← send peerServer (.peerGet key) with
    | some (.peerGet data) => return some data
    | _ => return none
  else crash

/-- The check before a peer is contacted. -/
def recentHeartbeat (peerServer : String) : Handler Bool := do
  let curTime ← clock
  perform (.touchHeartbeat peerServer)
  let node ← read
  return durationMs curTime (node.heartbeat peerServer) < checkAliveInterval

def assignedCoordinator : List String → Handler String
  | [] => return ""
  | candidate :: quorumMember => do
    let recent ← recentHeartbeat candidate
    if recent then return candidate else assignedCoordinator quorumMember

def isCoordinator (self : String) (quorumMember : List String) : Bool :=
  quorumMember.any fun curServer => curServer = self

section Clients

variable (self key : String)

/-- The loop of `ClientGet`. A failed call does not look at `REPLICA_N`. -/
def clientGetLoop : List String → Nat → Nat → List Data → Handler (Nat × List Data)
  | [], successCnt, _, results => return (successCnt, results)
  | peerServer :: replicaServers, successCnt, tryCnt, results => do
    if peerServer = self then
      let node ← read
      let results := results ++ [node.stateMachine.readData key]
      if tryCnt + 1 = replicaN then return (successCnt + 1, results)
      else clientGetLoop replicaServers (successCnt + 1) (tryCnt + 1) results
    else
      let recent ← recentHeartbeat peerServer
      if recent then
        match ← peerGet peerServer key with
        | some data =>
          if tryCnt + 1 = replicaN then return (successCnt + 1, results ++ [data])
          else clientGetLoop replicaServers (successCnt + 1) (tryCnt + 1) (results ++ [data])
        | none => clientGetLoop replicaServers successCnt (tryCnt + 1) results
      else clientGetLoop replicaServers successCnt tryCnt results

def serveClientGet : Handler Reply := do
  let node ← read
  let replicaServers := node.ring.getReplicasNodes hash key (2 * replicaN : Nat)
  let (successCnt, results) ← clientGetLoop self key replicaServers 0 0 []
  let coordinatorCandidate ← assignedCoordinator replicaServers
  if rCount ≤ successCnt then
    return .clientGet (getLatestData results) coordinatorCandidate
  else return .cancelled

/-- The loop of `ClientPut`. The own store is written without a comparison. -/
def clientPutLoop (value : String) (newVersion : Version) :
    List String → Nat → Nat → Handler Nat
  | [], successCnt, _ => return successCnt
  | peerServer :: replicaServers, successCnt, tryCnt => do
    if peerServer = self then
      perform (.put key value newVersion)
      if tryCnt + 1 = replicaN then return successCnt + 1
      else clientPutLoop value newVersion replicaServers (successCnt + 1) (tryCnt + 1)
    else
      let recent ← recentHeartbeat peerServer
      if recent then
        let res ← peerPut peerServer key value newVersion
        if res = 0 then
          if tryCnt + 1 = replicaN then return successCnt + 1
          else clientPutLoop value newVersion replicaServers (successCnt + 1) (tryCnt + 1)
        else clientPutLoop value newVersion replicaServers successCnt (tryCnt + 1)
      else clientPutLoop value newVersion replicaServers successCnt tryCnt

def serveClientPut (data : Data) : Handler Reply := do
  let node ← read
  let replicaServers := node.ring.getReplicasNodes hash key (2 * replicaN : Nat)
  let coordinatorCandidate ← assignedCoordinator replicaServers
  if isCoordinator self replicaServers = false then
    return .clientPut .notCoordinator coordinatorCandidate
  else
    let newVersion := updateVersion data.2 self
    let successCnt ← clientPutLoop self key data.1 newVersion replicaServers 0 0
    return .clientPut (if wCount ≤ successCnt then .ok else .failed) coordinatorCandidate

/-- Only a version that is judged later replaces the stored one. -/
def servePeerPut (data : Data) : Handler Reply := do
  let node ← read
  if checkConflictVersion data.2 (node.stateMachine.getVersion key) = 1 then
    perform (.put key data.1 data.2)
    return .peerPut false
  else return .peerPut true

def servePeerGet : Handler Reply := do
  let node ← read
  return .peerGet (node.stateMachine.readData key)

end Clients

section Membership

variable (self : String)

/-- The keys that `nodeId` does not own on the ring of this node. -/
def getJoinTransferKey (nodeId : String) (numReplicas : Int) : Handler (List String) := do
  let node ← read
  let allKeys ← iterate node.stateMachine.getAllKeys
  return allKeys.filter fun key => node.ring.checkDataBelonging hash key nodeId numReplicas = false

/-- The keys that `nodeId` owns on the ring of this node and not on the old one. -/
def getLeaveTransferKey (oldRing : ConsistentHashingRing) (nodeId : String) (numReplicas : Int) :
    Handler (List String) := do
  let node ← read
  let allKeys ← iterate node.stateMachine.getAllKeys
  return allKeys.filter fun key =>
    oldRing.checkDataBelonging hash key nodeId numReplicas = false ∧
      node.ring.checkDataBelonging hash key nodeId numReplicas = true

/-- One transfer of a key with the value and version stored now. -/
def transferKey (nodeId key : String) : Handler Int := do
  let node ← read
  peerPut nodeId key (node.stateMachine.getValue key) (node.stateMachine.getVersion key)

def joinNetworkLoop : List String → Bool → Handler Bool
  | [], flag => return flag
  | addr :: stubs, flag => do
    match ← send addr (.joinNetwork self) with
    | some (.joinNetwork true) => joinNetworkLoop stubs flag
    | _ => joinNetworkLoop stubs false

def joinNetwork : Handler Bool := do
  perform (.addNode self)
  let time ← clock
  perform (.setHeartbeat self time)
  let node ← read
  let stubs ← iterate node.stubs.keys
  joinNetworkLoop self stubs true

/-- The transfer loop of `JoinNetwork`: a key is removed once the new node has it. -/
def joinTransferLoop (nodeId : String) : List String → Bool → Handler Bool
  | [], success => return success
  | key :: keys, success => do
    let res ← transferKey nodeId key
    if res = 0 then
      perform (.remove key)
      joinTransferLoop nodeId keys success
    else joinTransferLoop nodeId keys false

def serveJoinNetwork (nodeId : String) : Handler Reply := do
  perform (.addNode nodeId)
  let time ← clock
  perform (.setHeartbeat nodeId time)
  perform (.newStub nodeId)
  let keys ← getJoinTransferKey hash self replicaN
  let success ← joinTransferLoop nodeId keys true
  return .joinNetwork success

/-- A transfer that is tried again while it fails. -/
def transferWithRetries (nodeId key : String) : Nat → Handler Int
  | 0 => transferKey nodeId key
  | retries + 1 => do
    let res ← transferKey nodeId key
    if 0 < res then transferWithRetries nodeId key retries else return res

def leaveTransferLoop (nodeId : String) : List String → Handler Unit
  | [] => return ()
  | key :: keys => do
    let res ← transferWithRetries nodeId key 4
    if res = 0 then
      perform (.remove key)
      leaveTransferLoop nodeId keys
    else leaveTransferLoop nodeId keys

def leaveNetworkLoop (oldRing : ConsistentHashingRing) : List String → Handler Unit
  | [] => return ()
  | addr :: stubs => do
    match ← send addr (.leaveNetwork self) with
    | some (.leaveNetwork true) =>
      let keys ← getLeaveTransferKey hash oldRing addr replicaN
      leaveTransferLoop addr keys
      leaveNetworkLoop oldRing stubs
    | _ => leaveNetworkLoop oldRing stubs

def leaveNetwork : Handler Unit := do
  let node ← read
  let oldRing := node.ring
  perform (.removeNode self)
  let stubs ← iterate node.stubs.keys
  leaveNetworkLoop hash self oldRing stubs

def serveLeaveNetwork (nodeId : String) : Handler Reply := do
  perform (.removeNode nodeId)
  perform (.eraseStub nodeId)
  perform (.eraseHeartbeat nodeId)
  return .leaveNetwork true

def addAliveServers : List String → Handler Unit
  | [] => return ()
  | addr :: aliveServers => do
    if addr ≠ self then
      perform (.addNode addr)
      perform (.newStub addr)
      addAliveServers aliveServers
    else addAliveServers aliveServers

def serveAdminCmd (cmd : String) (aliveServers : List String) : Handler Reply := do
  if cmd = "JoinNetwork" then
    perform .clearStubs
    addAliveServers self aliveServers
    let _ ← joinNetwork self
    perform (.setAlive true)
    return .adminCmd true
  else if cmd = "LeaveNetwork" then
    perform (.setAlive false)
    leaveNetwork hash self
    return .adminCmd true
  else if cmd = "Ping" then
    let node ← read
    return .adminCmd node.alive
  else return .adminCmd false

end Membership

section Heartbeats

/-- The later of a received time and the own one, which starts at the minimum. -/
def mergeHeartbeats : List (String × Int64) → Handler Unit
  | [] => return ()
  | pair :: memberList => do
    let node ← read
    let own := (node.membersHeartbeatList.lookup pair.1).getD Int64.minValue
    perform (.setHeartbeat pair.1 (if own < pair.2 then pair.2 else own))
    mergeHeartbeats memberList

def serveGossip (memberList : List (String × Int64)) : Handler Reply := do
  mergeHeartbeats memberList
  return .gossip true

def gossipLoop (memberList : List (String × Int64)) : List String → Handler Unit
  | [] => return ()
  | addr :: stubs => do
    let recent ← recentHeartbeat addr
    if recent then
      let _ ← send addr (.gossip memberList)
      gossipLoop memberList stubs
    else gossipLoop memberList stubs

def gossip (self : String) : Handler Unit := do
  let time ← clock
  perform (.setHeartbeat self time)
  let node ← read
  let members ← iterate node.membersHeartbeatList.keys
  let stubs ← iterate node.stubs.keys
  gossipLoop (members.map fun member => (member, node.heartbeat member)) stubs

/-- One turn of the loop in `main`. -/
def mainLoopTurn (self : String) : Handler Reply := do
  let node ← read
  if node.alive then
    let curTime ← clock
    perform (.touchHeartbeat self)
    let node ← read
    if heartbeatInterval < durationMs curTime (node.heartbeat self) then
      gossip self
      return .turnDone
    else return .turnDone
  else return .turnDone

end Heartbeats

/-- The service of the node `self`. -/
def serve (self : String) : Request → Handler Reply
  | .joinNetwork nodeId => serveJoinNetwork hash self nodeId
  | .leaveNetwork nodeId => serveLeaveNetwork nodeId
  | .gossip memberList => serveGossip memberList
  | .clientGet key => serveClientGet hash self key
  | .clientPut key data => serveClientPut hash self key data
  | .peerGet key => servePeerGet key
  | .peerPut key data => servePeerPut key data
  | .adminCmd cmd aliveServers => serveAdminCmd hash self cmd aliveServers
  | .mainLoopTurn => mainLoopTurn self

end GossipNode
