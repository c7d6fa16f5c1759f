import DynamoStore.Lib.CallAssertions
import DynamoStore.RingOwners
import DynamoStore.HandlerRuns
import DynamoStore.ClusterStores

/-!
# Stubs for the owners on the ring

`ring`, `stubs` and the heartbeats are three tables of a node, kept in step by hand.
Handlers keep the owners on the ring among the stubs, with one exception: the admin
command to join clears the stubs and fills them again from the list it is given, while
the ring keeps everything it had. As long as each such list names the owners that the
node already has on its ring, every owner has a stub between any two steps of any run,
and no handler that works on these tables undisturbed calls through a missing stub.
-/

namespace MissingStubs

open RpcPrograms RpcInterleaving CallAssertions GossipNode RingOwners ClusterStores HandlerRuns
open ConsistentHashingRing (virtualNode)

/-- The node `id` owns a position on the ring. -/
def OwnsPosition (node : GossipNode) (id : String) : Prop :=
  ∃ p, (p, id) ∈ node.ring.ring.entries

/-- Every owner on the ring has a stub, the node itself and those in `pending` apart. An
owner sits only at its own virtual nodes, so that removing it leaves nothing behind. -/
structure Linked (hash : String → UInt64) (own : String) (pending : List String)
    (node : GossipNode) : Prop where
  placed : ∀ p id, (p, id) ∈ node.ring.ring.entries →
    ∃ i < node.ring.numVirtualNodes, p = virtualNode hash id i
  stub : ∀ id, OwnsPosition node id → id ≠ own → id ∈ node.stubs ∨ id ∈ pending

/-- What a handler leaves alone when it only stores data or looks at heartbeats. -/
structure SameTables (s s' : GossipNode) : Prop where
  ring : s'.ring = s.ring
  stubs : s'.stubs = s.stubs

/-- The list that an admin command brings. -/
def listOf : Request → List String
  | .adminCmd _ aliveServers => aliveServers
  | _ => []

/-- Only the admin command to join clears the stubs: its list has every other owner on
the ring. -/
def Listed (self : String) (q : Request) : Action → GossipNode → Prop
  | .clearStubs, node => ∀ id, OwnsPosition node id → id ≠ self → id ∈ listOf q
  | _, _ => True

theorem ownsPosition_iff {node : GossipNode} {id : String} :
    OwnsPosition node id ↔ id ∈ node.ring.ring.entries.map Prod.snd := by
  simp [OwnsPosition]

instance decidableListed (self : String) (q : Request) :
    ∀ a node, Decidable (Listed self q a node)
  | .clearStubs, node =>
    decidable_of_iff (∀ id ∈ node.ring.ring.entries.map Prod.snd, id ≠ self → id ∈ listOf q)
      (forall_congr' fun _ => imp_congr_left ownsPosition_iff.symm)
  | .put .., _ | .remove _, _ | .addNode _, _ | .removeNode _, _ | .newStub _, _
  | .eraseStub _, _ | .setHeartbeat .., _ | .touchHeartbeat _, _ | .eraseHeartbeat _, _
  | .setAlive _, _ => .isTrue trivial

variable {hash : String → UInt64} {self key : String} {pending : List String}
variable {node s s' : GossipNode}

section Tables

theorem SameTables.linked (same : SameTables s s') (linked : Linked hash self pending s) :
    Linked hash self pending s' := by
  obtain ⟨placed, stub⟩ := linked
  constructor
  · rw [same.ring]
    exact placed
  · intro id ⟨p, hp⟩
    rw [same.stubs]
    rw [same.ring] at hp
    exact stub id ⟨p, hp⟩

theorem linked_new (numVirtualNodes : Nat) :
    Linked hash self [] (GossipNode.new numVirtualNodes) := by
  constructor
  · intro p id h
    cases h
  · rintro id ⟨p, h⟩
    cases h

theorem linked_addNode (linked : Linked hash self pending node) (nodeId : String) :
    Linked hash self (nodeId :: pending) (apply hash (.addNode nodeId) node) := by
  constructor
  · intro p id h
    rcases mem_addNode.mp h with ⟨rfl, hplace⟩ | ⟨hold, _⟩
    · exact hplace
    · exact linked.placed p id hold
  · rintro id ⟨p, h⟩ hne
    rcases mem_addNode.mp h with ⟨rfl, _⟩ | ⟨hold, _⟩
    · exact Or.inr List.mem_cons_self
    · exact (linked.stub id ⟨p, hold⟩ hne).imp_right (List.mem_cons_of_mem nodeId)

theorem linked_addNode_self (linked : Linked hash self pending node) :
    Linked hash self pending (apply hash (.addNode self) node) := by
  obtain ⟨placed, stub⟩ := linked_addNode linked self
  refine ⟨placed, fun id howns hne => (stub id howns hne).imp_right fun h => ?_⟩
  exact (List.mem_cons.mp h).resolve_left hne

theorem linked_newStub {nodeId : String} {rest : List String}
    (linked : Linked hash self pending node) (h : ∀ id ∈ pending, id ≠ nodeId → id ∈ rest) :
    Linked hash self rest (apply hash (.newStub nodeId) node) := by
  refine ⟨linked.placed, fun id howns hne => ?_⟩
  by_cases hid : id = nodeId
  · exact Or.inl ((AList.mem_insert _).mpr (Or.inl hid))
  · rcases linked.stub id howns hne with hstub | hpending
    · exact Or.inl ((AList.mem_insert _).mpr (Or.inr hstub))
    · exact Or.inr (h id hpending hid)

/-- Removing a node takes the last of its positions from the ring. -/
theorem linked_removeNode (linked : Linked hash self pending node) (nodeId : String) :
    Linked hash self pending (apply hash (.removeNode nodeId) node) ∧
      ¬ OwnsPosition (apply hash (.removeNode nodeId) node) nodeId := by
  refine ⟨⟨fun p id h => linked.placed p id (mem_removeNode.mp h).1, ?_⟩, ?_⟩
  · rintro id ⟨p, h⟩
    exact linked.stub id ⟨p, (mem_removeNode.mp h).1⟩
  · rintro ⟨p, h⟩
    obtain ⟨hold, hoff⟩ := mem_removeNode.mp h
    obtain ⟨i, hi, hp⟩ := linked.placed p nodeId hold
    exact hoff i hi hp

theorem linked_eraseStub {nodeId : String} (linked : Linked hash self pending node)
    (gone : ¬ OwnsPosition node nodeId) :
    Linked hash self pending (apply hash (.eraseStub nodeId) node) := by
  refine ⟨linked.placed, fun id howns hne => (linked.stub id howns hne).imp_left fun hstub => ?_⟩
  refine AList.mem_erase.mpr ⟨?_, hstub⟩
  rintro rfl
  exact gone howns

/-- The condition on the admin command is what clearing the stubs has to rely on. -/
theorem linked_clearStubs {cmd : String} {aliveServers : List String}
    (linked : Linked hash self [] node)
    (listed : Listed self (.adminCmd cmd aliveServers) .clearStubs node) :
    Linked hash self aliveServers (apply hash .clearStubs node) :=
  ⟨linked.placed, fun id howns hne => Or.inr (listed id howns hne)⟩

end Tables

section Handlers

variable {terms : Terms GossipNode Action}

/-- A call to the node `addr` goes through, unless missing stubs are none of the concern. -/
def Callable (terms : Terms GossipNode Action) (addr : String) (node : GossipNode) : Prop :=
  terms.crashes ∨ addr ∈ node.stubs

/-- The terms of a handler of the node: its tables stay linked during calls, and so do the
stubs that it counts on. -/
structure Suits (hash : String → UInt64) (own : String) (terms : Terms GossipNode Action) :
    Prop where
  boundary : ∀ s, Linked hash own [] s → terms.boundary s
  linked : ∀ s s', terms.meanwhile s s' → Linked hash own [] s → Linked hash own [] s'
  callable : ∀ s s' addr, terms.meanwhile s s' → Callable terms addr s → Callable terms addr s'

/-- The tables are linked and the servers that the handler works on can be called. -/
structure Knows (hash : String → UInt64) (own : String) (terms : Terms GossipNode Action)
    (servers : List String) (node : GossipNode) : Prop where
  linked : Linked hash own [] node
  callable : ∀ addr ∈ servers, Callable terms addr node

/-- The actions that change neither the ring nor the stubs. -/
def KeepsTables : Action → Prop
  | .addNode _ | .removeNode _ | .clearStubs | .newStub _ | .eraseStub _ => False
  | _ => True

theorem sameTables_apply {a : Action} (keeps : KeepsTables a) :
    SameTables s (apply hash a s) := by
  cases a <;> first | exact False.elim keeps | exact ⟨rfl, rfl⟩

theorem Knows.apply {a : Action} {servers : List String} (keeps : KeepsTables a)
    (knows : Knows hash self terms servers s) :
    Knows hash self terms servers (GossipNode.apply hash a s) := by
  have same : SameTables s (GossipNode.apply hash a s) := sameTables_apply keeps
  refine ⟨same.linked knows.linked, fun addr haddr => ?_⟩
  rw [Callable, same.stubs]
  exact knows.callable addr haddr

variable {servers : List String} (suits : Suits hash self terms)

theorem linked_keeps {a : Action} (keeps : KeepsTables a) :
    Keeps (apply hash) terms (Linked hash self pending) (Prog.perform a : Handler Unit)
      fun _ => Linked hash self pending :=
  Keeps.perform fun _ linked _ => (sameTables_apply keeps).linked linked

theorem quiet_keeps {a : Action} (keeps : KeepsTables a) :
    Keeps (apply hash) terms (Knows hash self terms servers) (Prog.perform a : Handler Unit)
      fun _ => Knows hash self terms servers :=
  Keeps.perform fun _ knows _ => knows.apply keeps

theorem recentHeartbeat_keeps (peerServer : String) :
    Keeps (apply hash) terms (Knows hash self terms servers) (recentHeartbeat peerServer)
      fun _ => Knows hash self terms servers := by
  refine Keeps.bind Keeps.clock fun _ => ?_
  refine Keeps.bind (quiet_keeps trivial) fun _ => ?_
  exact Keeps.bind Keeps.read fun _ => Keeps.ret fun _ h => h.1

theorem assignedCoordinator_keeps (quorumMember : List String) :
    Keeps (apply hash) terms (Knows hash self terms servers) (assignedCoordinator quorumMember)
      fun _ => Knows hash self terms servers := by
  induction quorumMember with
  | nil => exact Keeps.ret fun _ h => h
  | cons candidate quorumMember ih =>
    refine Keeps.bind (recentHeartbeat_keeps candidate) fun recent => ?_
    cases recent with
    | true => exact Keeps.ret fun _ h => h
    | false => exact ih

include suits

theorem send_keeps (dst : String) (q : Request) :
    Keeps (apply hash) terms (Knows hash self terms servers)
      (Prog.send dst q : Handler (Option Reply)) fun _ => Knows hash self terms servers := by
  refine Keeps.send (fun s knows => suits.boundary s knows.linked) fun s s' _ knows hs => ?_
  exact ⟨suits.linked s s' hs knows.linked,
    fun addr haddr => suits.callable s s' addr hs (knows.callable addr haddr)⟩

/-- A call through the stub of a server that the handler can call does not crash. -/
theorem call_keeps {α : Type} {peerServer : String} (hpeer : peerServer ∈ servers) (q : Request)
    {body : Option Reply → Handler α}
    (hbody : ∀ r, Keeps (apply hash) terms (Knows hash self terms servers) (body r)
      fun _ => Knows hash self terms servers) :
    Keeps (apply hash) terms (Knows hash self terms servers)
      (Prog.read.bind fun node : GossipNode =>
        if peerServer ∈ node.stubs then (Prog.send peerServer q).bind body else .crash)
      fun _ => Knows hash self terms servers := by
  refine Keeps.bind Keeps.read fun node => ?_
  by_cases hstub : peerServer ∈ node.stubs
  · rw [if_pos hstub]
    exact Keeps.bind ((send_keeps suits _ _).strengthen fun _ h => h.1) hbody
  · rw [if_neg hstub]
    refine Keeps.crash fun s h => (h.1.callable peerServer hpeer).resolve_right ?_
    exact h.2 ▸ hstub

theorem peerPut_keeps {peerServer : String} (hpeer : peerServer ∈ servers) (value : String)
    (version : Version) :
    Keeps (apply hash) terms (Knows hash self terms servers)
      (peerPut peerServer key value version) fun _ => Knows hash self terms servers := by
  refine call_keeps suits hpeer (.peerPut key (value, version)) fun r => ?_
  split
  · exact Keeps.ret fun _ h => h
  · exact Keeps.ret fun _ h => h

theorem peerGet_keeps {peerServer : String} (hpeer : peerServer ∈ servers) :
    Keeps (apply hash) terms (Knows hash self terms servers) (peerGet peerServer key)
      fun _ => Knows hash self terms servers := by
  refine call_keeps suits hpeer (.peerGet key) fun r => ?_
  split
  · exact Keeps.ret fun _ h => h
  · exact Keeps.ret fun _ h => h

theorem clientGetLoop_keeps (replicaServers : List String)
    (hservers : ∀ addr ∈ replicaServers, addr ≠ self → addr ∈ servers)
    (successCnt tryCnt : Nat) (results : List Data) :
    Keeps (apply hash) terms (Knows hash self terms servers)
      (clientGetLoop self key replicaServers successCnt tryCnt results)
      fun _ => Knows hash self terms servers := by
  induction replicaServers generalizing successCnt tryCnt results with
  | nil => exact Keeps.ret fun _ h => h
  | cons peerServer replicaServers ih =>
    rw [List.forall_mem_cons] at hservers
    have rest := ih hservers.2
    rw [clientGetLoop]
    split
    · refine Keeps.bind Keeps.read fun node => ?_
      split
      · exact Keeps.ret fun _ h => h.1
      · exact (rest _ _ _).strengthen fun _ h => h.1
    · rename_i hother
      refine Keeps.bind (recentHeartbeat_keeps peerServer) fun recent => ?_
      split
      · refine Keeps.bind (peerGet_keeps suits (hservers.1 hother)) fun r => ?_
        split
        · split
          · exact Keeps.ret fun _ h => h
          · exact rest _ _ _
        · exact rest _ _ _
      · exact rest _ _ _

theorem clientPutLoop_keeps {value : String} {newVersion : Version}
    (replicaServers : List String)
    (hservers : ∀ addr ∈ replicaServers, addr ≠ self → addr ∈ servers)
    (successCnt tryCnt : Nat) :
    Keeps (apply hash) terms (Knows hash self terms servers)
      (clientPutLoop self key value newVersion replicaServers successCnt tryCnt)
      fun _ => Knows hash self terms servers := by
  induction replicaServers generalizing successCnt tryCnt with
  | nil => exact Keeps.ret fun _ h => h
  | cons peerServer replicaServers ih =>
    rw [List.forall_mem_cons] at hservers
    have rest := ih hservers.2
    rw [clientPutLoop]
    split
    · refine Keeps.bind (quiet_keeps trivial) fun _ => ?_
      split
      · exact Keeps.ret fun _ h => h
      · exact rest _ _
    · rename_i hother
      refine Keeps.bind (recentHeartbeat_keeps peerServer) fun recent => ?_
      split
      · refine Keeps.bind (peerPut_keeps suits (hservers.1 hother) _ _) fun res => ?_
        split
        · split
          · exact Keeps.ret fun _ h => h
          · exact rest _ _
        · exact rest _ _
      · exact rest _ _

theorem transferKey_keeps {nodeId : String} (hnode : nodeId ∈ servers) :
    Keeps (apply hash) terms (Knows hash self terms servers) (transferKey nodeId key)
      fun _ => Knows hash self terms servers :=
  Keeps.bind Keeps.read fun _ => (peerPut_keeps suits hnode _ _).strengthen fun _ h => h.1

theorem joinTransferLoop_keeps {nodeId : String} (hnode : nodeId ∈ servers)
    (keys : List String) (success : Bool) :
    Keeps (apply hash) terms (Knows hash self terms servers)
      (joinTransferLoop nodeId keys success) fun _ => Knows hash self terms servers := by
  induction keys generalizing success with
  | nil => exact Keeps.ret fun _ h => h
  | cons key keys ih =>
    refine Keeps.bind (transferKey_keeps suits hnode) fun res => ?_
    split
    · exact Keeps.bind (quiet_keeps trivial) fun _ => ih success
    · exact ih false

theorem transferWithRetries_keeps {nodeId : String} (hnode : nodeId ∈ servers)
    (retries : Nat) :
    Keeps (apply hash) terms (Knows hash self terms servers)
      (transferWithRetries nodeId key retries) fun _ => Knows hash self terms servers := by
  induction retries with
  | zero => exact transferKey_keeps suits hnode
  | succ retries ih =>
    refine Keeps.bind (transferKey_keeps suits hnode) fun res => ?_
    split
    · exact ih
    · exact Keeps.ret fun _ h => h

theorem leaveTransferLoop_keeps {nodeId : String} (hnode : nodeId ∈ servers)
    (keys : List String) :
    Keeps (apply hash) terms (Knows hash self terms servers) (leaveTransferLoop nodeId keys)
      fun _ => Knows hash self terms servers := by
  induction keys with
  | nil => exact Keeps.ret fun _ h => h
  | cons key keys ih =>
    refine Keeps.bind (transferWithRetries_keeps suits hnode 4) fun res => ?_
    split
    · exact Keeps.bind (quiet_keeps trivial) fun _ => ih
    · exact ih

theorem leaveNetworkLoop_keeps (oldRing : ConsistentHashingRing) (stubs : List String)
    (hstubs : ∀ addr ∈ stubs, addr ∈ servers) :
    Keeps (apply hash) terms (Knows hash self terms servers)
      (leaveNetworkLoop hash self oldRing stubs) fun _ => Knows hash self terms servers := by
  induction stubs with
  | nil => exact Keeps.ret fun _ h => h
  | cons addr stubs ih =>
    rw [List.forall_mem_cons] at hstubs
    refine Keeps.bind (send_keeps suits addr _) fun r => ?_
    split
    · refine Keeps.bind (Φ := fun _ => Knows hash self terms servers) ?_ fun keys => ?_
      · refine Keeps.bind Keeps.read fun node => ?_
        exact Keeps.bind (Keeps.iterate _) fun _ => Keeps.ret fun _ h => h.1.1
      · exact Keeps.bind (leaveTransferLoop_keeps suits hstubs.1 keys) fun _ => ih hstubs.2
    · exact ih hstubs.2

theorem joinNetworkLoop_keeps (stubs : List String) (flag : Bool) :
    Keeps (apply hash) terms (Knows hash self terms servers) (joinNetworkLoop self stubs flag)
      fun _ => Knows hash self terms servers := by
  induction stubs generalizing flag with
  | nil => exact Keeps.ret fun _ h => h
  | cons addr stubs ih =>
    refine Keeps.bind (send_keeps suits addr _) fun r => ?_
    split
    · exact ih flag
    · exact ih false

theorem gossipLoop_keeps (memberList : List (String × Int64)) (stubs : List String) :
    Keeps (apply hash) terms (Knows hash self terms servers) (gossipLoop memberList stubs)
      fun _ => Knows hash self terms servers := by
  induction stubs with
  | nil => exact Keeps.ret fun _ h => h
  | cons addr stubs ih =>
    refine Keeps.bind (recentHeartbeat_keeps addr) fun recent => ?_
    split
    · exact Keeps.bind (send_keeps suits addr _) fun _ => ih
    · exact ih

end Handlers

section Requests

variable {terms : Terms GossipNode Action} (suits : Suits hash self terms)

theorem Knows.of_stubs {servers : List String} (linked : Linked hash self [] node)
    (h : ∀ addr ∈ servers, addr ∈ node.stubs) : Knows hash self terms servers node :=
  ⟨linked, fun addr haddr => Or.inr (h addr haddr)⟩

/-- The other nodes on a replica list have stubs. -/
theorem Knows.of_replicas (linked : Linked hash self [] node) (numReplicas : Int) :
    Knows hash self terms
      ((node.ring.getReplicasNodes hash key numReplicas).filter fun addr => addr ≠ self) node := by
  refine .of_stubs linked fun addr haddr => ?_
  rw [List.mem_filter, getReplicasNodes_eq, decide_eq_true_iff] at haddr
  obtain ⟨hmem, hne⟩ := haddr
  have howns : OwnsPosition node addr := mem_owners.mp (List.mem_of_mem_take hmem)
  exact (linked.stub addr howns hne).resolve_right List.not_mem_nil

theorem keeps_linked {α : Type} {p : Handler α} {servers : List String}
    (h : Keeps (apply hash) terms (Knows hash self terms servers) p
      fun _ => Knows hash self terms servers) :
    Keeps (apply hash) terms (Knows hash self terms servers) p fun _ => Linked hash self [] :=
  h.weaken fun _ _ knows => knows.linked

include suits

theorem serveClientGet_keeps :
    Keeps (apply hash) terms (Linked hash self []) (serveClientGet hash self key)
      fun _ => Linked hash self [] := by
  refine Keeps.bind Keeps.read fun node => ?_
  let servers := (node.ring.getReplicasNodes hash key (2 * replicaN : Nat)).filter
    fun addr => addr ≠ self
  refine Keeps.strengthen (P := Knows hash self terms servers) ?_ ?_
  · refine Keeps.bind (clientGetLoop_keeps suits _ (fun addr h hne => ?_) 0 0 []) fun found => ?_
    · exact List.mem_filter.mpr ⟨h, decide_eq_true hne⟩
    · refine Keeps.bind (assignedCoordinator_keeps _) fun coordinator => ?_
      split
      · exact Keeps.ret fun _ h => h.linked
      · exact Keeps.ret fun _ h => h.linked
  · rintro s ⟨linked, rfl⟩
    exact .of_replicas linked _

theorem serveClientPut_keeps (data : Data) :
    Keeps (apply hash) terms (Linked hash self []) (serveClientPut hash self key data)
      fun _ => Linked hash self [] := by
  refine Keeps.bind Keeps.read fun node => ?_
  let servers := (node.ring.getReplicasNodes hash key (2 * replicaN : Nat)).filter
    fun addr => addr ≠ self
  refine Keeps.strengthen (P := Knows hash self terms servers) ?_ ?_
  · refine Keeps.bind (assignedCoordinator_keeps _) fun coordinator => ?_
    split
    · exact Keeps.ret fun _ h => h.linked
    · refine Keeps.bind (clientPutLoop_keeps suits _ (fun addr h hne => ?_) 0 0) fun cnt => ?_
      · exact List.mem_filter.mpr ⟨h, decide_eq_true hne⟩
      · exact Keeps.ret fun _ h => h.linked
  · rintro s ⟨linked, rfl⟩
    exact .of_replicas linked _

theorem serveJoinNetwork_keeps (nodeId : String) :
    Keeps (apply hash) terms (Linked hash self []) (serveJoinNetwork hash self nodeId)
      fun _ => Linked hash self [] := by
  refine Keeps.bind (Φ := fun _ => Linked hash self [nodeId])
    (Keeps.perform fun _ linked _ => linked_addNode linked nodeId) fun _ => ?_
  refine Keeps.bind Keeps.clock fun time => ?_
  refine Keeps.bind (linked_keeps trivial) fun _ => ?_
  refine Keeps.bind (Φ := fun _ => Knows hash self terms [nodeId])
    (Keeps.perform fun s linked _ => ?_) fun _ => ?_
  · refine .of_stubs (linked_newStub linked (by simp)) fun addr haddr => ?_
    exact (AList.mem_insert _).mpr (Or.inl (List.mem_singleton.mp haddr))
  · refine Keeps.bind (Φ := fun _ => Knows hash self terms [nodeId]) ?_ fun keys => ?_
    · refine Keeps.bind Keeps.read fun node => ?_
      exact Keeps.bind (Keeps.iterate _) fun _ => Keeps.ret fun _ h => h.1.1
    · refine Keeps.bind (joinTransferLoop_keeps suits List.mem_cons_self keys true)
        fun success => ?_
      exact Keeps.ret fun _ h => h.linked

omit suits in
theorem serveLeaveNetwork_keeps (nodeId : String) :
    Keeps (apply hash) terms (Linked hash self []) (serveLeaveNetwork nodeId)
      fun _ => Linked hash self [] := by
  refine Keeps.bind (Φ := fun _ s => Linked hash self [] s ∧ ¬ OwnsPosition s nodeId)
    (Keeps.perform fun _ linked _ => linked_removeNode linked nodeId) fun _ => ?_
  refine Keeps.bind (Φ := fun _ => Linked hash self [])
    (Keeps.perform fun _ h _ => linked_eraseStub h.1 h.2) fun _ => ?_
  refine Keeps.bind (linked_keeps trivial) fun _ => ?_
  exact Keeps.ret fun _ h => h

theorem joinNetwork_keeps :
    Keeps (apply hash) terms (Linked hash self []) (joinNetwork self)
      fun _ => Linked hash self [] := by
  refine Keeps.bind (Φ := fun _ => Knows hash self terms [])
    (Keeps.perform fun s linked _ => .of_stubs (linked_addNode_self linked) (by simp)) fun _ => ?_
  refine Keeps.bind Keeps.clock fun time => ?_
  refine Keeps.bind (quiet_keeps trivial) fun _ => ?_
  refine Keeps.bind Keeps.read fun node => ?_
  refine Keeps.bind (Keeps.iterate _) fun stubs => ?_
  exact (keeps_linked (joinNetworkLoop_keeps suits stubs true)).strengthen fun _ h => h.1.1

theorem leaveNetwork_keeps :
    Keeps (apply hash) terms (Linked hash self []) (leaveNetwork hash self)
      fun _ => Linked hash self [] := by
  refine Keeps.bind Keeps.read fun node => ?_
  refine Keeps.bind (Φ := fun _ s => Linked hash self [] s ∧ s.stubs = node.stubs)
    (Keeps.perform fun s h _ => ⟨(linked_removeNode h.1 self).1, ?_⟩) fun _ => ?_
  · rw [h.2]
    rfl
  · refine Keeps.bind (Keeps.iterate _) fun stubs => ?_
    refine Keeps.strengthen (P := Knows hash self terms stubs)
      (keeps_linked (leaveNetworkLoop_keeps suits _ stubs fun _ h => h)) ?_
    rintro s ⟨⟨linked, hstubs⟩, hperm⟩
    refine .of_stubs linked fun addr haddr => ?_
    rw [hstubs]
    exact AList.mem_keys.mpr (hperm.mem_iff.mp haddr)

omit suits in
theorem addAliveServers_keeps (aliveServers : List String) :
    Keeps (apply hash) terms (Linked hash self aliveServers) (addAliveServers self aliveServers)
      fun _ => Linked hash self [] := by
  induction aliveServers with
  | nil => exact Keeps.ret fun _ h => h
  | cons addr aliveServers ih =>
    rw [addAliveServers]
    split
    · refine Keeps.bind (Φ := fun _ => Linked hash self (addr :: addr :: aliveServers))
        (Keeps.perform fun _ linked _ => linked_addNode linked addr) fun _ => ?_
      refine Keeps.bind (Φ := fun _ => Linked hash self aliveServers)
        (Keeps.perform fun _ linked _ => linked_newStub linked ?_) fun _ => ih
      intro id hid hne
      simpa [hne] using hid
    · rename_i hself
      refine ih.strengthen fun s linked => ⟨linked.placed, fun id howns hne => ?_⟩
      refine (linked.stub id howns hne).imp_right fun hid => ?_
      exact (List.mem_cons.mp hid).resolve_left fun heq => hself fun haddr =>
        hne (heq.trans haddr)

theorem serveAdminCmd_keeps (cmd : String) (aliveServers : List String)
    (listed : ∀ s, terms.ok .clearStubs s →
      Listed self (.adminCmd cmd aliveServers) .clearStubs s) :
    Keeps (apply hash) terms (Linked hash self []) (serveAdminCmd hash self cmd aliveServers)
      fun _ => Linked hash self [] := by
  rw [serveAdminCmd]
  split
  · refine Keeps.bind (Φ := fun _ => Linked hash self aliveServers)
      (Keeps.perform fun s linked hok => linked_clearStubs linked (listed s hok)) fun _ => ?_
    refine Keeps.bind (addAliveServers_keeps aliveServers) fun _ => ?_
    refine Keeps.bind (joinNetwork_keeps suits) fun _ => ?_
    exact Keeps.bind (linked_keeps trivial) fun _ => Keeps.ret fun _ h => h
  · split
    · refine Keeps.bind (linked_keeps trivial) fun _ => ?_
      exact Keeps.bind (leaveNetwork_keeps suits) fun _ => Keeps.ret fun _ h => h
    · split
      · exact Keeps.bind Keeps.read fun _ => Keeps.ret fun _ h => h.1
      · exact Keeps.ret fun _ h => h

omit suits in
theorem mergeHeartbeats_keeps (memberList : List (String × Int64)) :
    Keeps (apply hash) terms (Linked hash self []) (mergeHeartbeats memberList)
      fun _ => Linked hash self [] := by
  induction memberList with
  | nil => exact Keeps.ret fun _ h => h
  | cons pair memberList ih =>
    refine Keeps.bind Keeps.read fun node => ?_
    refine Keeps.bind (Φ := fun _ => Linked hash self [])
      (Keeps.perform fun _ h _ => (sameTables_apply ?_).linked h.1) fun _ => ih
    trivial

theorem gossip_keeps :
    Keeps (apply hash) terms (Linked hash self []) (gossip self)
      fun _ => Linked hash self [] := by
  refine Keeps.bind Keeps.clock fun time => ?_
  refine Keeps.bind (linked_keeps trivial) fun _ => ?_
  refine Keeps.bind Keeps.read fun node => ?_
  refine Keeps.bind (Keeps.iterate _) fun members => ?_
  refine Keeps.bind (Keeps.iterate _) fun stubs => ?_
  refine Keeps.strengthen (P := Knows hash self terms [])
    (keeps_linked (gossipLoop_keeps suits _ stubs)) ?_
  exact fun _ h => .of_stubs h.1.1.1 (by simp)

theorem mainLoopTurn_keeps :
    Keeps (apply hash) terms (Linked hash self []) (mainLoopTurn self)
      fun _ => Linked hash self [] := by
  refine Keeps.bind Keeps.read fun node => ?_
  split
  · refine Keeps.bind (Keeps.clock.strengthen fun _ h => h.1) fun curTime => ?_
    refine Keeps.bind (linked_keeps trivial) fun _ => ?_
    refine Keeps.bind Keeps.read fun node => ?_
    split
    · exact Keeps.bind ((gossip_keeps suits).strengthen fun _ h => h.1) fun _ =>
        Keeps.ret fun _ h => h
    · exact Keeps.ret fun _ h => h.1
  · exact Keeps.ret fun _ h => h.1

theorem serve_keeps (q : Request) (listed : ∀ a s, terms.ok a s → Listed self q a s) :
    Keeps (apply hash) terms (Linked hash self []) (serve hash self q)
      fun _ => Linked hash self [] := by
  cases q with
  | joinNetwork nodeId => exact serveJoinNetwork_keeps suits nodeId
  | leaveNetwork nodeId => exact serveLeaveNetwork_keeps nodeId
  | gossip memberList =>
    exact Keeps.bind (mergeHeartbeats_keeps memberList) fun _ => Keeps.ret fun _ h => h
  | clientGet key => exact serveClientGet_keeps suits
  | clientPut key data => exact serveClientPut_keeps suits data
  | peerGet key => exact Keeps.bind Keeps.read fun _ => Keeps.ret fun _ h => h.1
  | peerPut key data =>
    refine Keeps.bind Keeps.read fun node => ?_
    split
    · refine Keeps.bind ((linked_keeps ?_).strengthen fun _ h => h.1) fun _ =>
        Keeps.ret fun _ h => h
      trivial
    · exact Keeps.ret fun _ h => h.1
  | adminCmd cmd aliveServers =>
    exact serveAdminCmd_keeps suits cmd aliveServers (listed .clearStubs)
  | mainLoopTurn => exact mainLoopTurn_keeps suits

end Requests

section Runs

/-- The tables of a node stay linked, and no stub is taken away. -/
structure StubsStay (hash : String → UInt64) (own : String) (s s' : GossipNode) : Prop where
  linked : Linked hash own [] s → Linked hash own [] s'
  stubs : ∀ addr ∈ s.stubs, addr ∈ s'.stubs

/-- The terms of a handler during whose calls no stub is taken away. -/
def undisturbed (hash : String → UInt64) (self : String) (q : Request) :
    Terms GossipNode Action where
  ok := Listed self q
  boundary := Linked hash self []
  meanwhile := StubsStay hash self
  crashes := False

theorem suits_undisturbed (q : Request) : Suits hash self (undisturbed hash self q) where
  boundary := fun _ linked => linked
  linked := fun _ _ stay linked => stay.linked linked
  callable := fun _ _ addr stay h => h.imp_right (stay.stubs addr)

theorem suits_interleaved (q : Request) :
    Suits hash self (interleaved (Listed self q) (Linked hash self [])) where
  boundary := fun _ linked => linked
  linked := fun _ _ linked' _ => linked'
  callable := fun _ _ _ _ _ => Or.inl trivial

theorem linked_of_reach {allowed : String → Request → Prop} {numVirtualNodes : String → Nat}
    {c : Config String GossipNode Action Request Reply Int64}
    (hreach : Reach (apply hash) (serve hash) allowed Listed
      (.start fun n => .new (numVirtualNodes n)) c) (n : String) :
    Linked hash n [] (c.shared.state n) := by
  refine (assured_of_reach (I := fun n => Linked hash n []) (fun n q => ?_) hreach
    (fun n => linked_new (numVirtualNodes n)) rfl).1 n
  exact serve_keeps (suits_interleaved q) q fun _ _ h => h

/-- As long as the admin, joining a node, lists the owners that are already on its ring,
every other owner on a ring has a stub in every state of every interleaved run, and a
handler on such a state calls through no missing stub while none is taken away. -/
theorem owners_have_stubs {allowed : String → Request → Prop} {numVirtualNodes : String → Nat}
    {c : Config String GossipNode Action Request Reply Int64}
    (hreach : Reach (apply hash) (serve hash) allowed Listed
      (.start fun n => .new (numVirtualNodes n)) c) (n : String) :
    (∀ id, OwnsPosition (c.shared.state n) id → id ≠ n → id ∈ (c.shared.state n).stubs) ∧
    ∀ q node, ¬ Passes (apply hash) (Listed n q) (StubsStay hash n) (serve hash n q)
      (c.shared.state n) .crash node := by
  have linked := linked_of_reach hreach n
  refine ⟨fun id howns hne => ?_, fun q node passes => ?_⟩
  · exact (linked.stub id howns hne).resolve_right List.not_mem_nil
  · have assured : Assures (apply hash) (undisturbed hash n q) (serve hash n q)
        (fun _ => Linked hash n []) (c.shared.state n) :=
      serve_keeps (suits_undisturbed q) q (fun _ _ h => h) _ linked
    exact assured.passes passes

end Runs

section TwoNodes

/-- The admin joins node A to B twice, and lists B both times. -/
theorem owners_have_stubs_sample :
    ∃ c, Reach (apply twoNodes) (serve twoNodes) (fun _ _ => True) Listed
        (.start fun _ => GossipNode.new 1) c ∧
      OwnsPosition (c.shared.state "A") "B" ∧ "B" ∈ (c.shared.state "A").stubs := by
  obtain ⟨⟨w, replies⟩, hsession, howns⟩ :
      ∃ x ∈ session (apply twoNodes) (serve twoNodes) Listed calmEnv 3
        [("A", .adminCmd "JoinNetwork" ["B"]), ("A", .adminCmd "JoinNetwork" ["B"])]
        ⟨fun _ => GossipNode.new 1, 0⟩,
        "B" ∈ (x.1.state "A").ring.ring.entries.map Prod.snd := by
    decide +kernel
  have hreach := reach_of_session (fun _ _ => True) calmEnv_reliable 3 _ (fun _ _ => trivial)
    [] [] hsession
  have howns' := ownsPosition_iff.mpr howns
  exact ⟨_, hreach, howns', (owners_have_stubs hreach "A").1 "B" howns' (by decide)⟩

/-- The admin joins node A to B, and again with an empty list. Node B is still on the ring
of A, so a read at A calls it, but its stub is gone. -/
theorem owner_without_stub :
    ∃ c, Reach (apply twoNodes) (serve twoNodes) (fun _ _ => True) (fun _ _ _ _ => True)
        (.start fun _ => GossipNode.new 1) c ∧
      OwnsPosition (c.shared.state "A") "B" ∧ "B" ∉ (c.shared.state "A").stubs ∧
      ∃ node, Passes (apply twoNodes) (fun _ _ => True) (StubsStay twoNodes "A")
        (serve twoNodes "A" (.clientGet "k")) (c.shared.state "A") .crash node := by
  obtain ⟨⟨w, replies⟩, hsession, howns, hstub, hcrash⟩ :
      ∃ x ∈ session (apply twoNodes) (serve twoNodes) (fun _ _ _ _ => True) calmEnv 3
        [("A", .adminCmd "JoinNetwork" ["B"]), ("A", .adminCmd "JoinNetwork" [])]
        ⟨fun _ => GossipNode.new 1, 0⟩,
        "B" ∈ (x.1.state "A").ring.ring.entries.map Prod.snd ∧
          "B" ∉ (x.1.state "A").stubs ∧
          (run (apply twoNodes) calmEnv (fun _ _ w => some (w, none)) "A"
            (serve twoNodes "A" (.clientGet "k")) x.1).isNone := by
    decide +kernel
  have hreach := reach_of_session (fun _ _ => True) calmEnv_reliable 3 _ (fun _ _ => trivial)
    [] [] hsession
  refine ⟨_, hreach, ownsPosition_iff.mpr howns, hstub, ?_⟩
  exact passes_crash_of_run (fun _ _ => trivial) (fun _ => ⟨fun linked => linked, fun _ h => h⟩)
    (fun _ _ w => ⟨w, none, rfl, rfl⟩) (Option.isNone_iff_eq_none.mp hcrash)

end TwoNodes

end MissingStubs
