import DynamoStore.GossipNode
import DynamoStore.Lib.Effects

/-!
# What each handler does

For each request: the state changes that its handler makes, the requests that it sends, and
what it answers. The requests and replies carry what the handler has read before, so they
are given for a kind of states that the node is always in. The handlers are gone through
once, for all kinds.
-/

namespace HandlerEffects

open GossipNode StateMachine Effects

variable (hash : String → UInt64) (reads : GossipNode → Prop)

/-- Some state of the kind has the server among those that a client's request for the key
goes through. -/
def Replica (key dst : String) : Prop :=
  ∃ node, reads node ∧ dst ∈ node.ring.getReplicasNodes hash key (2 * replicaN : Nat)

/-- Some state of the kind has a stub for the server. -/
def Stubbed (dst : String) : Prop := ∃ node, reads node ∧ dst ∈ node.stubs

/-- A read of the key in some state of the kind finds the data. -/
def Holds (key : String) (data : Data) : Prop :=
  ∃ node, reads node ∧ data = node.stateMachine.readData key

/-- Some state of the kind has these times. -/
def Times (memberList : List (String × Int64)) : Prop :=
  ∃ node, reads node ∧ ∀ pair ∈ memberList, pair.2 = node.heartbeat pair.1

/-- The time that is recorded when a node is told one. -/
def later (node : GossipNode) (pair : String × Int64) : Int64 :=
  let own := (node.membersHeartbeatList.lookup pair.1).getD Int64.minValue
  if own < pair.2 then pair.2 else own

/-- The state changes that node `self` makes when it serves a request. -/
def Does (self : String) : Request → Action → Prop
  | .clientGet _, .touchHeartbeat _ => True
  | .clientPut key data, .put key' value version =>
    key' = key ∧ value = data.1 ∧ version = updateVersion data.2 self
  | .clientPut .., .touchHeartbeat _ => True
  | .peerPut key data, .put key' value version => key' = key ∧ (value, version) = data
  | .gossip memberList, .setHeartbeat x time =>
    ∃ pair ∈ memberList, x = pair.1 ∧ ∃ node, reads node ∧ time = later node pair
  | .joinNetwork nodeId, .addNode x | .joinNetwork nodeId, .newStub x
  | .joinNetwork nodeId, .setHeartbeat x _ => x = nodeId
  | .joinNetwork _, .remove _ => True
  | .leaveNetwork nodeId, .removeNode x | .leaveNetwork nodeId, .eraseStub x
  | .leaveNetwork nodeId, .eraseHeartbeat x => x = nodeId
  | .adminCmd cmd _, .clearStubs => cmd = "JoinNetwork"
  | .adminCmd cmd aliveServers, .addNode x =>
    cmd = "JoinNetwork" ∧ (x = self ∨ x ∈ aliveServers)
  | .adminCmd cmd aliveServers, .newStub x => cmd = "JoinNetwork" ∧ x ∈ aliveServers
  | .adminCmd cmd _, .setHeartbeat x _ => cmd = "JoinNetwork" ∧ x = self
  | .adminCmd cmd _, .setAlive alive =>
    cmd = "JoinNetwork" ∧ alive = true ∨ cmd = "LeaveNetwork" ∧ alive = false
  | .adminCmd cmd _, .removeNode x => cmd = "LeaveNetwork" ∧ x = self
  | .adminCmd cmd _, .remove _ => cmd = "LeaveNetwork"
  | .mainLoopTurn, .touchHeartbeat _ => True
  | .mainLoopTurn, .setHeartbeat x _ => x = self
  | _, _ => False

/-- The requests that it sends for that. -/
def Sends (self : String) : Request → String → Request → Prop
  | .clientGet key, dst, q => q = .peerGet key ∧ Replica hash reads key dst ∧ dst ≠ self
  | .clientPut key data, dst, q =>
    q = .peerPut key (data.1, updateVersion data.2 self) ∧ Replica hash reads key dst ∧ dst ≠ self
  | .joinNetwork nodeId, dst, .peerPut key data => dst = nodeId ∧ Holds reads key data
  | .adminCmd cmd _, dst, .joinNetwork nodeId =>
    cmd = "JoinNetwork" ∧ nodeId = self ∧ Stubbed reads dst
  | .adminCmd cmd _, dst, .leaveNetwork nodeId =>
    cmd = "LeaveNetwork" ∧ nodeId = self ∧ Stubbed reads dst
  | .adminCmd cmd _, dst, .peerPut key data =>
    cmd = "LeaveNetwork" ∧ Stubbed reads dst ∧ Holds reads key data
  | .mainLoopTurn, dst, .gossip memberList => Stubbed reads dst ∧ Times reads memberList
  | _, _, _ => False

/-- The coordinator that a client is told. -/
def Named (key coordinator : String) : Prop :=
  coordinator = "" ∨ Replica hash reads key coordinator

/-- What a client's get collects was read here, or answered by a peer. -/
def Found (answers : String → Request → Reply → Prop) (key : String) (data : Data) : Prop :=
  Holds reads key data ∨ ∃ dst, answers dst (.peerGet key) (.peerGet data)

/-- The replies to a request, if the calls for it get replies as in `answers`. -/
def Answers (answers : String → Request → Reply → Prop) : Request → Reply → Prop
  | .clientGet key, .clientGet getResData coordinator =>
    Named hash reads key coordinator ∧ ∃ results, getResData = getLatestData results ∧
      rCount ≤ results.length ∧ ∀ data ∈ results, Found reads answers key data
  | .clientGet _, .cancelled => True
  | .clientPut key _, .clientPut _ coordinator => Named hash reads key coordinator
  | .peerGet key, .peerGet data => Holds reads key data
  | .peerPut .., .peerPut _ | .joinNetwork _, .joinNetwork _ | .leaveNetwork _, .leaveNetwork true
  | .gossip _, .gossip true | .adminCmd .., .adminCmd _ | .mainLoopTurn, .turnDone => True
  | _, _ => False

/-- The request may be sent, and if the program must not crash, there always is a stub. -/
structure MaySend (limits : Limits String GossipNode Action Request Reply) (dst : String)
    (q : Request) : Prop where
  call : limits.calls dst q
  stub : limits.crashes ∨ ∀ node, limits.reads node → dst ∈ node.stubs

section Handlers

variable {hash} {limits : Limits String GossipNode Action Request Reply} {self key : String}

theorem recentHeartbeat_within (touches : ∀ x, limits.acts (.touchHeartbeat x))
    (peerServer : String) : Within limits (recentHeartbeat peerServer) fun _ => True := by
  refine Within.bind Within.clock fun _ _ => ?_
  refine Within.bind (Within.perform (touches peerServer)) fun _ _ => ?_
  exact Within.bind Within.read fun _ _ => Within.ret trivial

theorem assignedCoordinator_within (touches : ∀ x, limits.acts (.touchHeartbeat x))
    (quorumMember : List String) : Within limits (assignedCoordinator quorumMember)
      fun coordinator => coordinator = "" ∨ coordinator ∈ quorumMember := by
  induction quorumMember with
  | nil => exact Within.ret (Or.inl rfl)
  | cons candidate quorumMember ih =>
    refine Within.bind (recentHeartbeat_within touches candidate) fun recent _ => ?_
    split
    · exact Within.ret (Or.inr List.mem_cons_self)
    · exact ih.mono fun _ h => h.imp_right (List.mem_cons_of_mem candidate)

theorem peerGet_within {peerServer : String} (sent : MaySend limits peerServer (.peerGet key)) :
    Within limits (peerGet peerServer key) fun r =>
      ∀ data, r = some data → limits.answers peerServer (.peerGet key) (.peerGet data) := by
  refine Within.bind Within.read fun node hnode => ?_
  split
  · refine Within.bind (Within.send sent.call) fun r hr => ?_
    split
    · exact Within.ret fun data hdata => hr _ (by rw [← Option.some.inj hdata])
    · exact Within.ret fun data hdata => by cases hdata
  · rename_i missing
    exact Within.crash (sent.stub.resolve_right fun h => missing (h node hnode))

theorem peerPut_within {peerServer value : String} {version : Version}
    (sent : MaySend limits peerServer (.peerPut key (value, version))) :
    Within limits (peerPut peerServer key value version) fun _ => True := by
  refine Within.bind Within.read fun node hnode => ?_
  split
  · refine Within.bind (Within.send sent.call) fun r _ => ?_
    split <;> exact Within.ret trivial
  · rename_i missing
    exact Within.crash (sent.stub.resolve_right fun h => missing (h node hnode))

section Clients

variable (touches : ∀ x, limits.acts (.touchHeartbeat x))

include touches

/-- The loop counts what it has collected. -/
theorem clientGetLoop_within {replicaServers : List String}
    (sent : ∀ dst ∈ replicaServers, dst ≠ self → MaySend limits dst (.peerGet key))
    (tryCnt : Nat) {successCnt : Nat} {results : List Data} (counted : successCnt = results.length)
    (found : ∀ data ∈ results, Found limits.reads limits.answers key data) :
    Within limits (clientGetLoop self key replicaServers successCnt tryCnt results)
      fun r => r.1 = r.2.length ∧ ∀ data ∈ r.2, Found limits.reads limits.answers key data := by
  induction replicaServers generalizing successCnt tryCnt results with
  | nil => exact Within.ret ⟨counted, found⟩
  | cons peerServer replicaServers ih =>
    rw [List.forall_mem_cons] at sent
    have more : ∀ data, Found limits.reads limits.answers key data →
        successCnt + 1 = (results ++ [data]).length ∧
          ∀ data' ∈ results ++ [data], Found limits.reads limits.answers key data' := by
      intro data h
      rw [List.forall_mem_append, List.forall_mem_singleton, List.length_append, counted]
      exact ⟨rfl, found, h⟩
    rw [clientGetLoop]
    split
    · refine Within.bind Within.read fun node hnode => ?_
      have more' := more _ (Or.inl ⟨node, hnode, rfl⟩)
      split
      · exact Within.ret more'
      · exact ih sent.2 _ more'.1 more'.2
    · rename_i other
      refine Within.bind (recentHeartbeat_within touches peerServer) fun recent _ => ?_
      split
      · refine Within.bind (peerGet_within (sent.1 other)) fun r hr => ?_
        split
        · have more' := more _ (Or.inr ⟨peerServer, hr _ rfl⟩)
          split
          · exact Within.ret more'
          · exact ih sent.2 _ more'.1 more'.2
        · exact ih sent.2 _ counted found
      · exact ih sent.2 _ counted found

theorem serveClientGet_within
    (sent : ∀ dst, Replica hash limits.reads key dst → dst ≠ self →
      MaySend limits dst (.peerGet key)) :
    Within limits (serveClientGet hash self key)
      (Answers hash limits.reads limits.answers (.clientGet key)) := by
  refine Within.bind Within.read fun node hnode => ?_
  refine Within.bind (clientGetLoop_within touches (fun dst hdst => sent dst ⟨node, hnode, hdst⟩)
    0 rfl (List.forall_mem_nil _)) fun r ⟨counted, found⟩ => ?_
  refine Within.bind (assignedCoordinator_within touches _) fun coordinator hcoordinator => ?_
  split
  · rename_i enough
    rw [counted] at enough
    exact Within.ret ⟨hcoordinator.imp_right fun h => ⟨node, hnode, h⟩, r.2, rfl, enough, found⟩
  · exact Within.ret trivial

variable {value : String} {newVersion : Version}
variable (puts : limits.acts (.put key value newVersion))

include puts

theorem clientPutLoop_within {replicaServers : List String}
    (sent : ∀ dst ∈ replicaServers, dst ≠ self →
      MaySend limits dst (.peerPut key (value, newVersion))) (successCnt tryCnt : Nat) :
    Within limits (clientPutLoop self key value newVersion replicaServers successCnt tryCnt)
      fun _ => True := by
  induction replicaServers generalizing successCnt tryCnt with
  | nil => exact Within.ret trivial
  | cons peerServer replicaServers ih =>
    rw [List.forall_mem_cons] at sent
    rw [clientPutLoop]
    split
    · refine Within.bind (Within.perform puts) fun _ _ => ?_
      split
      · exact Within.ret trivial
      · exact ih sent.2 _ _
    · rename_i other
      refine Within.bind (recentHeartbeat_within touches peerServer) fun recent _ => ?_
      split
      · refine Within.bind (peerPut_within (sent.1 other)) fun res _ => ?_
        split
        · split
          · exact Within.ret trivial
          · exact ih sent.2 _ _
        · exact ih sent.2 _ _
      · exact ih sent.2 _ _

end Clients

theorem serveClientPut_within {data : Data} (touches : ∀ x, limits.acts (.touchHeartbeat x))
    (puts : limits.acts (.put key data.1 (updateVersion data.2 self)))
    (sent : ∀ dst, Replica hash limits.reads key dst → dst ≠ self →
      MaySend limits dst (.peerPut key (data.1, updateVersion data.2 self))) :
    Within limits (serveClientPut hash self key data)
      (Answers hash limits.reads limits.answers (.clientPut key data)) := by
  refine Within.bind Within.read fun node hnode => ?_
  refine Within.bind (assignedCoordinator_within touches _) fun coordinator hcoordinator => ?_
  have named : Named hash limits.reads key coordinator :=
    hcoordinator.imp_right fun h => ⟨node, hnode, h⟩
  split
  · exact Within.ret named
  · refine Within.bind (clientPutLoop_within touches puts
      (fun dst hdst => sent dst ⟨node, hnode, hdst⟩) 0 0) fun _ _ => ?_
    exact Within.ret named

theorem servePeerGet_within : Within limits (servePeerGet key)
    (Answers hash limits.reads limits.answers (.peerGet key)) :=
  Within.bind Within.read fun node hnode => Within.ret ⟨node, hnode, rfl⟩

theorem servePeerPut_within {data : Data} (puts : limits.acts (.put key data.1 data.2)) :
    Within limits (servePeerPut key data)
      (Answers hash limits.reads limits.answers (.peerPut key data)) := by
  refine Within.bind Within.read fun node _ => ?_
  split
  · exact Within.bind (Within.perform puts) fun _ _ => Within.ret trivial
  · exact Within.ret trivial

section Membership

variable {nodeId : String}

theorem transferKey_within
    (sent : ∀ data, Holds limits.reads key data → MaySend limits nodeId (.peerPut key data)) :
    Within limits (transferKey nodeId key) fun _ => True :=
  Within.bind Within.read fun node hnode => peerPut_within (sent _ ⟨node, hnode, rfl⟩)

theorem joinTransferLoop_within
    (sent : ∀ key data, Holds limits.reads key data → MaySend limits nodeId (.peerPut key data))
    (removes : ∀ key, limits.acts (.remove key)) (keys : List String) (success : Bool) :
    Within limits (joinTransferLoop nodeId keys success) fun _ => True := by
  induction keys generalizing success with
  | nil => exact Within.ret trivial
  | cons key keys ih =>
    refine Within.bind (transferKey_within (sent key)) fun res _ => ?_
    split
    · exact Within.bind (Within.perform (removes key)) fun _ _ => ih _
    · exact ih _

theorem serveJoinNetwork_within (adds : limits.acts (.addNode nodeId))
    (stubs : limits.acts (.newStub nodeId))
    (times : ∀ time, limits.acts (.setHeartbeat nodeId time))
    (removes : ∀ key, limits.acts (.remove key))
    (sent : ∀ key data, Holds limits.reads key data → MaySend limits nodeId (.peerPut key data)) :
    Within limits (serveJoinNetwork hash self nodeId)
      (Answers hash limits.reads limits.answers (.joinNetwork nodeId)) := by
  refine Within.bind (Within.perform adds) fun _ _ => ?_
  refine Within.bind Within.clock fun time _ => ?_
  refine Within.bind (Within.perform (times time)) fun _ _ => ?_
  refine Within.bind (Within.perform stubs) fun _ _ => ?_
  refine Within.bind (Φ := fun _ => True) ?_ fun keys _ =>
    Within.bind (joinTransferLoop_within sent removes keys true) fun _ _ => Within.ret trivial
  refine Within.bind Within.read fun node _ => ?_
  exact Within.bind (Within.iterate _) fun _ _ => Within.ret trivial

theorem serveLeaveNetwork_within (removes : limits.acts (.removeNode nodeId))
    (stubs : limits.acts (.eraseStub nodeId)) (times : limits.acts (.eraseHeartbeat nodeId)) :
    Within limits (serveLeaveNetwork nodeId)
      (Answers hash limits.reads limits.answers (.leaveNetwork nodeId)) := by
  refine Within.bind (Within.perform removes) fun _ _ => ?_
  refine Within.bind (Within.perform stubs) fun _ _ => ?_
  exact Within.bind (Within.perform times) fun _ _ => Within.ret trivial

theorem addAliveServers_within {aliveServers : List String}
    (adds : ∀ x ∈ aliveServers, limits.acts (.addNode x))
    (stubs : ∀ x ∈ aliveServers, limits.acts (.newStub x)) :
    Within limits (addAliveServers self aliveServers) fun _ => True := by
  induction aliveServers with
  | nil => exact Within.ret trivial
  | cons addr aliveServers ih =>
    rw [List.forall_mem_cons] at adds stubs
    rw [addAliveServers]
    split
    · refine Within.bind (Within.perform adds.1) fun _ _ => ?_
      exact Within.bind (Within.perform stubs.1) fun _ _ => ih adds.2 stubs.2
    · exact ih adds.2 stubs.2

theorem joinNetworkLoop_within {stubs : List String}
    (sent : ∀ dst ∈ stubs, limits.calls dst (.joinNetwork self)) (flag : Bool) :
    Within limits (joinNetworkLoop self stubs flag) fun _ => True := by
  induction stubs generalizing flag with
  | nil => exact Within.ret trivial
  | cons addr stubs ih =>
    rw [List.forall_mem_cons] at sent
    refine Within.bind (Within.send sent.1) fun r _ => ?_
    split <;> exact ih sent.2 _

theorem joinNetwork_within (adds : limits.acts (.addNode self))
    (times : ∀ time, limits.acts (.setHeartbeat self time))
    (sent : ∀ dst, Stubbed limits.reads dst → limits.calls dst (.joinNetwork self)) :
    Within limits (joinNetwork self) fun _ => True := by
  refine Within.bind (Within.perform adds) fun _ _ => ?_
  refine Within.bind Within.clock fun time _ => ?_
  refine Within.bind (Within.perform (times time)) fun _ _ => ?_
  refine Within.bind Within.read fun node hnode => ?_
  refine Within.bind (Within.iterate _) fun stubs hstubs => ?_
  refine joinNetworkLoop_within (fun dst hdst => sent dst ⟨node, hnode, ?_⟩) true
  exact AList.mem_keys.mpr (hstubs.mem_iff.mp hdst)

section Leave

variable (removes : ∀ key, limits.acts (.remove key))
variable (transfers : ∀ dst key data, Stubbed limits.reads dst → Holds limits.reads key data →
  MaySend limits dst (.peerPut key data))

include transfers

theorem transferWithRetries_within (stubbed : Stubbed limits.reads nodeId) (retries : Nat) :
    Within limits (transferWithRetries nodeId key retries) fun _ => True := by
  have transfer := transferKey_within fun data => transfers nodeId key data stubbed
  induction retries with
  | zero => exact transfer
  | succ retries ih =>
    refine Within.bind transfer fun res _ => ?_
    split
    · exact ih
    · exact Within.ret trivial

include removes

theorem leaveTransferLoop_within (stubbed : Stubbed limits.reads nodeId) (keys : List String) :
    Within limits (leaveTransferLoop nodeId keys) fun _ => True := by
  induction keys with
  | nil => exact Within.ret trivial
  | cons key keys ih =>
    refine Within.bind (transferWithRetries_within transfers stubbed 4) fun res _ => ?_
    split
    · exact Within.bind (Within.perform (removes key)) fun _ _ => ih
    · exact ih

variable (sent : ∀ dst, Stubbed limits.reads dst → limits.calls dst (.leaveNetwork self))

include sent

theorem leaveNetworkLoop_within (oldRing : ConsistentHashingRing) {stubs : List String}
    (stubbed : ∀ dst ∈ stubs, Stubbed limits.reads dst) :
    Within limits (leaveNetworkLoop hash self oldRing stubs) fun _ => True := by
  induction stubs with
  | nil => exact Within.ret trivial
  | cons addr stubs ih =>
    rw [List.forall_mem_cons] at stubbed
    refine Within.bind (Within.send (sent addr stubbed.1)) fun r _ => ?_
    split
    · refine Within.bind (Φ := fun _ => True) ?_ fun keys _ =>
        Within.bind (leaveTransferLoop_within removes transfers stubbed.1 keys) fun _ _ =>
          ih stubbed.2
      refine Within.bind Within.read fun node _ => ?_
      exact Within.bind (Within.iterate _) fun _ _ => Within.ret trivial
    · exact ih stubbed.2

theorem leaveNetwork_within (leaves : limits.acts (.removeNode self)) :
    Within limits (leaveNetwork hash self) fun _ => True := by
  refine Within.bind Within.read fun node hnode => ?_
  refine Within.bind (Within.perform leaves) fun _ _ => ?_
  refine Within.bind (Within.iterate _) fun stubs hstubs => ?_
  refine leaveNetworkLoop_within removes transfers sent node.ring fun dst hdst => ?_
  exact ⟨node, hnode, AList.mem_keys.mpr (hstubs.mem_iff.mp hdst)⟩

end Leave

end Membership

section Heartbeats

theorem mergeHeartbeats_within {memberList : List (String × Int64)}
    (times : ∀ pair ∈ memberList, ∀ node, limits.reads node →
      limits.acts (.setHeartbeat pair.1 (later node pair))) :
    Within limits (mergeHeartbeats memberList) fun _ => True := by
  induction memberList with
  | nil => exact Within.ret trivial
  | cons pair memberList ih =>
    rw [List.forall_mem_cons] at times
    refine Within.bind Within.read fun node hnode => ?_
    exact Within.bind (Within.perform (times.1 node hnode)) fun _ _ => ih times.2

variable (touches : ∀ x, limits.acts (.touchHeartbeat x))

include touches

theorem gossipLoop_within {memberList : List (String × Int64)} {stubs : List String}
    (sent : ∀ dst ∈ stubs, limits.calls dst (.gossip memberList)) :
    Within limits (gossipLoop memberList stubs) fun _ => True := by
  induction stubs with
  | nil => exact Within.ret trivial
  | cons addr stubs ih =>
    rw [List.forall_mem_cons] at sent
    refine Within.bind (recentHeartbeat_within touches addr) fun recent _ => ?_
    split
    · exact Within.bind (Within.send sent.1) fun _ _ => ih sent.2
    · exact ih sent.2

variable (stamps : ∀ time, limits.acts (.setHeartbeat self time))
variable (sent : ∀ dst memberList, Stubbed limits.reads dst → Times limits.reads memberList →
  limits.calls dst (.gossip memberList))

include stamps sent

theorem gossip_within : Within limits (gossip self) fun _ => True := by
  refine Within.bind Within.clock fun time _ => ?_
  refine Within.bind (Within.perform (stamps time)) fun _ _ => ?_
  refine Within.bind Within.read fun node hnode => ?_
  refine Within.bind (Within.iterate _) fun members _ => ?_
  refine Within.bind (Within.iterate _) fun stubs hstubs => ?_
  refine gossipLoop_within touches fun dst hdst => sent dst _ ⟨node, hnode, ?_⟩ ⟨node, hnode, ?_⟩
  · exact AList.mem_keys.mpr (hstubs.mem_iff.mp hdst)
  · rw [List.forall_mem_map]
    exact fun _ _ => rfl

theorem mainLoopTurn_within : Within limits (mainLoopTurn self)
    (Answers hash limits.reads limits.answers .mainLoopTurn) := by
  refine Within.bind Within.read fun node _ => ?_
  split
  · refine Within.bind Within.clock fun curTime _ => ?_
    refine Within.bind (Within.perform (touches self)) fun _ _ => ?_
    refine Within.bind Within.read fun node _ => ?_
    split
    · exact Within.bind (gossip_within touches stamps sent) fun _ _ => Within.ret trivial
    · exact Within.ret trivial
  · exact Within.ret trivial

end Heartbeats

theorem serveAdminCmd_within {cmd : String} {aliveServers : List String}
    (acts : ∀ a, Does limits.reads self (.adminCmd cmd aliveServers) a → limits.acts a)
    (sends : ∀ dst q, Sends hash limits.reads self (.adminCmd cmd aliveServers) dst q →
      MaySend limits dst q) :
    Within limits (serveAdminCmd hash self cmd aliveServers)
      (Answers hash limits.reads limits.answers (.adminCmd cmd aliveServers)) := by
  rw [serveAdminCmd]
  split
  · rename_i hjoin
    refine Within.bind (Within.perform (acts _ hjoin)) fun _ _ => ?_
    refine Within.bind (addAliveServers_within (fun x hx => acts _ ⟨hjoin, Or.inr hx⟩)
      fun x hx => acts _ ⟨hjoin, hx⟩) fun _ _ => ?_
    refine Within.bind (joinNetwork_within (acts _ ⟨hjoin, Or.inl rfl⟩)
      (fun _ => acts _ ⟨hjoin, rfl⟩)
      fun dst hdst => (sends dst (.joinNetwork self) ⟨hjoin, rfl, hdst⟩).call) fun _ _ => ?_
    exact Within.bind (Within.perform (acts _ (Or.inl ⟨hjoin, rfl⟩))) fun _ _ => Within.ret trivial
  · split
    · rename_i hleave
      refine Within.bind (Within.perform (acts _ (Or.inr ⟨hleave, rfl⟩))) fun _ _ => ?_
      refine Within.bind (leaveNetwork_within (fun _ => acts _ hleave)
        (fun dst key data hdst hdata => sends dst (.peerPut key data) ⟨hleave, hdst, hdata⟩)
        (fun dst hdst => (sends dst (.leaveNetwork self) ⟨hleave, rfl, hdst⟩).call)
        (acts _ ⟨hleave, rfl⟩)) fun _ _ => ?_
      exact Within.ret trivial
    · split
      · exact Within.bind Within.read fun _ _ => Within.ret trivial
      · exact Within.ret trivial

/-- Every handler keeps within what the tables have for its request. -/
theorem serve_within {q : Request} (acts : ∀ a, Does limits.reads self q a → limits.acts a)
    (sends : ∀ dst q', Sends hash limits.reads self q dst q' → MaySend limits dst q') :
    Within limits (serve hash self q) (Answers hash limits.reads limits.answers q) := by
  cases q with
  | joinNetwork nodeId =>
    exact serveJoinNetwork_within (acts _ rfl) (acts _ rfl) (fun _ => acts _ rfl)
      (fun _ => acts _ trivial) fun key data hdata => sends _ (.peerPut key data) ⟨rfl, hdata⟩
  | leaveNetwork nodeId => exact serveLeaveNetwork_within (acts _ rfl) (acts _ rfl) (acts _ rfl)
  | gossip memberList =>
    refine Within.bind (mergeHeartbeats_within fun pair hpair node hnode => ?_) fun _ _ =>
      Within.ret trivial
    exact acts _ ⟨pair, hpair, rfl, node, hnode, rfl⟩
  | clientGet key =>
    exact serveClientGet_within (fun _ => acts _ trivial)
      fun dst hdst hne => sends dst _ ⟨rfl, hdst, hne⟩
  | clientPut key data =>
    exact serveClientPut_within (fun _ => acts _ trivial) (acts _ ⟨rfl, rfl, rfl⟩)
      fun dst hdst hne => sends dst _ ⟨rfl, hdst, hne⟩
  | peerGet key => exact servePeerGet_within
  | peerPut key data => exact servePeerPut_within (acts _ ⟨rfl, rfl⟩)
  | adminCmd cmd _ => exact serveAdminCmd_within acts sends
  | mainLoopTurn =>
    exact mainLoopTurn_within (fun _ => acts _ trivial) (fun _ => acts _ rfl)
      fun dst memberList hdst htimes => (sends dst (.gossip memberList) ⟨hdst, htimes⟩).call

end Handlers

/-- What node `n` answers when all nodes are in states of the kind. -/
def Replies (reads : String → GossipNode → Prop) (n : String) : Request → Reply → Prop :=
  Answers hash (reads n) fun dst => Answers hash (reads dst) fun _ _ _ => False

/-- The entries that a client is given come from nodes. -/
theorem holds_of_found (reads : String → GossipNode → Prop) (n : String) {key : String}
    {data : Data}
    (h : Found (reads n) (fun dst => Answers hash (reads dst) fun _ _ _ => False) key data) :
    ∃ m, Holds (reads m) key data :=
  h.elim (fun h => ⟨n, h⟩) fun h => h

/-- The limits for all requests, in states of a kind that each node is always in. -/
def table (requests : String → Request → Prop) (reads : String → GossipNode → Prop)
    (crashes : Prop) : Table String GossipNode Action Request Reply where
  requests := requests
  reads := reads
  acts n := Does (reads n) n
  calls n := Sends hash (reads n) n
  answers := Replies hash reads
  crashes := crashes

variable {hash} {requests : String → Request → Prop} {reads : String → GossipNode → Prop}
variable {crashes : Prop} {ok : String → Request → Action → GossipNode → Prop}

theorem kept_table (stub : ∀ n q dst q', requests n q → Sends hash (reads n) n q dst q' →
      crashes ∨ ∀ node, reads n node → dst ∈ node.stubs)
    (closed : ∀ n q dst q', requests n q → Sends hash (reads n) n q dst q' → requests dst q')
    (keeps : ∀ n q a node, requests n q → Does (reads n) n q a → ok n q a node → reads n node →
      reads n (apply hash a node)) :
    Kept (table hash requests reads crashes) (apply hash) (serve hash) ok where
  serve n q hq := by
    refine (serve_within (fun _ h => h) fun dst q' h => ⟨h, stub n q dst q' hq h⟩).mono
      fun r hr => ?_
    cases q with
    | clientGet key =>
      cases r with
      | clientGet getResData coordinator =>
        exact hr
      | _ => exact hr
    | _ => exact hr
  calls := closed
  acts := keeps

section Entries

variable (good : String → Data → Prop)

/-- The node stores only entries of a kind. -/
def StoresOnly (node : GossipNode) : Prop :=
  ∀ key data, node.stateMachine.entry key = some data → good key data

/-- The request brings only entries of a kind. -/
def BringsOnly (n : String) : Request → Prop
  | .clientPut key data => good key (data.1, updateVersion data.2 n)
  | .peerPut key data => good key data
  | _ => True

variable {good} (missing : ∀ key, good key (noValue, []))

include missing

theorem good_of_holds {key : String} {data : Data} (h : Holds (StoresOnly good) key data) :
    good key data := by
  obtain ⟨node, stores, rfl⟩ := h
  rw [readData_eq]
  cases hentry : node.stateMachine.entry key with
  | none => exact missing key
  | some data => exact stores key data hentry

variable {n dst : String} {q q' : Request}

theorem bringsOnly_of_sends (h : Sends hash (StoresOnly good) n q dst q')
    (brings : BringsOnly good n q) : BringsOnly good dst q' := by
  cases q with
  | clientGet _ =>
    rw [h.1]
    trivial
  | clientPut _ _ =>
    rw [h.1]
    exact brings
  | joinNetwork _ =>
    cases q' with
    | peerPut _ _ => exact good_of_holds missing h.2
    | _ => exact False.elim h
  | adminCmd _ _ =>
    cases q' with
    | peerPut _ _ => exact good_of_holds missing h.2.2
    | joinNetwork _ | leaveNetwork _ => trivial
    | _ => exact False.elim h
  | mainLoopTurn =>
    cases q' with
    | gossip _ => trivial
    | _ => exact False.elim h
  | _ => exact False.elim h

omit missing

/-- What a put writes is what its request brings. -/
theorem good_of_does {key value : String} {version : Version}
    (does : Does (StoresOnly good) n q (.put key value version)) (brings : BringsOnly good n q) :
    good key (value, version) := by
  cases q with
  | clientPut _ _ =>
    obtain ⟨rfl, rfl, rfl⟩ := does
    exact brings
  | peerPut _ _ =>
    obtain ⟨rfl, rfl⟩ := does
    exact brings
  | _ => exact False.elim does

theorem StoresOnly.of_does {node : GossipNode} {a : Action}
    (does : Does (StoresOnly good) n q a) (brings : BringsOnly good n q)
    (stores : StoresOnly good node) : StoresOnly good (apply hash a node) := by
  intro key data hentry
  cases a with
  | put key' value version =>
    by_cases hkey : key = key'
    · subst hkey
      rw [apply, entry_put_self] at hentry
      rw [← Option.some.inj hentry]
      exact good_of_does does brings
    · rw [apply, entry_put_of_ne _ hkey] at hentry
      exact stores key data hentry
  | remove key' =>
    by_cases hkey : key = key'
    · subst hkey
      rw [apply, entry_remove_self] at hentry
      cases hentry
    · rw [apply, entry_remove_of_ne _ hkey] at hentry
      exact stores key data hentry
  | _ => exact stores key data hentry

include missing

/-- If the requests bring only entries of a kind, and a missing key reads as one of the kind,
no others are ever stored. -/
theorem kept_entries (ok : String → Request → Action → GossipNode → Prop) :
    Kept (table hash (BringsOnly good) (fun _ => StoresOnly good) True) (apply hash) (serve hash)
      ok :=
  kept_table (fun _ _ _ _ _ _ => Or.inl trivial)
    (fun _ _ _ _ brings hsends => bringsOnly_of_sends missing hsends brings)
    fun _ _ _ _ brings does _ stores => stores.of_does does brings

end Entries

end HandlerEffects
