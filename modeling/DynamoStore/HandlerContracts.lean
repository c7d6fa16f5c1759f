import DynamoStore.Lib.RpcInterleaving
import DynamoStore.ClusterStores

/-!
# The handlers under a contract

Three contracts are proved about interleaved runs of the cluster. They differ in
what they say about the stores; here the handlers are gone through once, for every
contract that is indifferent to rings, heartbeats and the like. The handlers of joins and
leaves are gone through for every property of programs that composes.
-/

namespace HandlerContracts

open RpcPrograms RpcInterleaving GossipNode StateMachine ClusterStores
open Contract (Safe Stable)

/-- The actions that change neither the store nor add a stub. -/
def Quiet : Action → Prop
  | .put .. | .remove _ | .newStub _ => False
  | _ => True

abbrev Cluster := Shared String GossipNode Request

theorem stored_of_quiet {hash : String → UInt64} (s : Cluster) (n : String) {a : Action}
    (quiet : Quiet a) : stored (s.modify n (apply hash a)).state = stored s.state := by
  have keeps : KeepsStore a := by cases a <;> first | exact False.elim quiet | trivial
  exact stored_of_keepsStore s.state n keeps

variable (hash : String → UInt64) (C : Contract String GossipNode Request Reply)

def Indifferent (self : String) : Prop := ∀ s a, Quiet a → C.inv s →
  C.inv (s.modify self (apply hash a)) ∧ C.evolves s (s.modify self (apply hash a))

variable {hash C} {ok : Action → GossipNode → Prop} {self key : String}
variable {P : Cluster → Prop}

section Calls

theorem peerGet_safe
    (hpre : ∀ s m, C.inv s → P s → m ∈ (s.state self).stubs → C.pre m (.peerGet key) s)
    (peerServer : String) :
    Safe C (apply hash) ok self P (peerGet peerServer key) fun _ _ => True := by
  refine Safe.bind Safe.read fun node => ?_
  by_cases hstub : peerServer ∈ node.stubs
  · rw [if_pos hstub]
    refine Safe.bind (Safe.send fun s hinv hP => hpre s peerServer hinv hP.1 (hP.2 ▸ hstub))
      fun r => ?_
    split
    · exact Safe.ret fun _ _ => trivial
    · exact Safe.ret fun _ _ => trivial
  · rw [if_neg hstub]
    exact Safe.crash

/-- The result 0 is the reply of a peer that has applied the put. -/
theorem peerPut_safe {value : String} {version : Version} {peerServer : String}
    (hpre : ∀ s, C.inv s → P s → peerServer ∈ (s.state self).stubs →
      C.pre peerServer (.peerPut key (value, version)) s) :
    Safe C (apply hash) ok self P (peerPut peerServer key value version) fun res s =>
      res = 0 → C.post peerServer (.peerPut key (value, version)) (.peerPut false) s := by
  refine Safe.bind Safe.read fun node => ?_
  by_cases hstub : peerServer ∈ node.stubs
  · rw [if_pos hstub]
    refine Safe.bind (Safe.send fun s hinv hP => hpre s hinv hP.1 (hP.2 ▸ hstub)) fun r => ?_
    split
    · rename_i success
      cases success with
      | false => exact Safe.ret fun s h _ => h _ rfl
      | true => exact Safe.ret fun s _ hres => by simp at hres
    · exact Safe.ret fun s _ hres => by simp at hres
  · rw [if_neg hstub]
    exact Safe.crash

end Calls

section Clients

variable (indifferent : Indifferent hash C self) (stable : C.Stable P)

include indifferent stable

theorem quiet_safe {a : Action} (quiet : Quiet a) :
    Safe C (apply hash) ok self P (Prog.perform a : Handler Unit) fun _ s => P s := by
  refine Safe.perform fun s hinv hP _ => ?_
  obtain ⟨hinv', hevo⟩ := indifferent s a quiet hinv
  exact ⟨hinv', hevo, stable hevo hP⟩

theorem recentHeartbeat_safe (peerServer : String) :
    Safe C (apply hash) ok self P (recentHeartbeat peerServer) fun _ s => P s := by
  refine Safe.bind Safe.clock fun _ => ?_
  refine Safe.bind (quiet_safe indifferent stable trivial) fun _ => ?_
  exact Safe.bind Safe.read fun _ => Safe.ret fun _ h => h.1

theorem assignedCoordinator_safe (quorumMember : List String) :
    Safe C (apply hash) ok self P (assignedCoordinator quorumMember) fun _ s => P s := by
  induction quorumMember with
  | nil => exact Safe.ret fun _ h => h
  | cons candidate quorumMember ih =>
    refine Safe.bind (recentHeartbeat_safe indifferent stable candidate) fun recent => ?_
    cases recent with
    | true => exact Safe.ret fun _ h => h
    | false => exact ih

theorem clientGetLoop_safe
    (hpre : ∀ s m, C.inv s → P s → m ∈ (s.state self).stubs → C.pre m (.peerGet key) s)
    (replicaServers : List String) (successCnt tryCnt : Nat) (results : List Data) :
    Safe C (apply hash) ok self P (clientGetLoop self key replicaServers successCnt tryCnt results)
      fun _ s => P s := by
  induction replicaServers generalizing successCnt tryCnt results with
  | nil => exact Safe.ret fun _ h => h
  | cons peerServer replicaServers ih =>
    rw [clientGetLoop]
    split
    · refine Safe.bind Safe.read fun node => ?_
      split
      · exact Safe.ret fun _ h => h.1
      · exact (ih _ _ _).strengthen fun _ h => h.1
    · refine Safe.bind (recentHeartbeat_safe indifferent stable peerServer) fun recent => ?_
      split
      · refine Safe.bind (Safe.keep stable (fun _ h => h) (peerGet_safe hpre peerServer))
          fun r => ?_
        split
        · split
          · exact Safe.ret fun _ h => h.1
          · exact (ih _ _ _).strengthen fun _ h => h.1
        · exact (ih _ _ _).strengthen fun _ h => h.1
      · exact ih _ _ _

theorem serveClientGet_safe
    (hpre : ∀ s m, C.inv s → P s → m ∈ (s.state self).stubs → C.pre m (.peerGet key) s) :
    Safe C (apply hash) ok self P (serveClientGet hash self key) fun _ s => P s := by
  refine Safe.bind Safe.read fun node => ?_
  refine Safe.bind ((clientGetLoop_safe indifferent stable hpre _ 0 0 []).strengthen
    fun _ h => h.1) fun found => ?_
  refine Safe.bind (assignedCoordinator_safe indifferent stable _) fun coordinator => ?_
  split
  · exact Safe.ret fun _ h => h
  · exact Safe.ret fun _ h => h

/-- Every success that the loop counts has put the version into some store. -/
theorem clientPutLoop_safe (Stored : Cluster → Prop) (stored_stable : C.Stable Stored)
    {value : String} {newVersion : Version}
    (hown : ∀ s, C.inv s → P s → ok (.put key value newVersion) (s.state self) →
      C.inv (s.modify self (apply hash (.put key value newVersion))) ∧
        C.evolves s (s.modify self (apply hash (.put key value newVersion))) ∧
        Stored (s.modify self (apply hash (.put key value newVersion))))
    (hpre : ∀ s m, C.inv s → P s → m ∈ (s.state self).stubs →
      C.pre m (.peerPut key (value, newVersion)) s)
    (hpost : ∀ s m, C.post m (.peerPut key (value, newVersion)) (.peerPut false) s → Stored s)
    (replicaServers : List String) (successCnt tryCnt : Nat) :
    Safe C (apply hash) ok self (fun s => P s ∧ (0 < successCnt → Stored s))
      (clientPutLoop self key value newVersion replicaServers successCnt tryCnt)
      fun cnt s => P s ∧ (0 < cnt → Stored s) := by
  induction replicaServers generalizing successCnt tryCnt with
  | nil => exact Safe.ret fun _ h => h
  | cons peerServer replicaServers ih =>
    have stable' : ∀ cnt : Nat, C.Stable fun s => P s ∧ (0 < cnt → Stored s) :=
      fun cnt _ _ hevo h => ⟨stable hevo h.1, fun hcnt => stored_stable hevo (h.2 hcnt)⟩
    rw [clientPutLoop]
    split
    · refine Safe.bind (Φ := fun _ s => P s ∧ Stored s) (Safe.perform fun s hinv hP hok => ?_)
        fun _ => ?_
      · obtain ⟨hinv', hevo, hstored⟩ := hown s hinv hP.1 hok
        exact ⟨hinv', hevo, stable hevo hP.1, hstored⟩
      · split
        · exact Safe.ret fun _ h => ⟨h.1, fun _ => h.2⟩
        · exact (ih _ _).strengthen fun _ h => ⟨h.1, fun _ => h.2⟩
    · refine Safe.bind (recentHeartbeat_safe indifferent (stable' _) peerServer) fun recent => ?_
      split
      · refine Safe.bind (Safe.keep (stable' successCnt) (fun _ h => h)
          (peerPut_safe fun s hinv hP => hpre s peerServer hinv hP.1)) fun res => ?_
        by_cases hres : res = 0
        · rw [if_pos hres]
          split
          · exact Safe.ret fun s h => ⟨h.1.1, fun _ => hpost s peerServer (h.2 hres)⟩
          · exact (ih _ _).strengthen
              fun s h => ⟨h.1.1, fun _ => hpost s peerServer (h.2 hres)⟩
        · rw [if_neg hres]
          exact (ih _ _).strengthen fun s h => h.1
      · exact ih _ _

/-- A client that is told OK has its version in some store. -/
theorem serveClientPut_safe (Stored : Cluster → Prop) (stored_stable : C.Stable Stored)
    {data : Data}
    (hown : ∀ s, C.inv s → P s →
      ok (.put key data.1 (updateVersion data.2 self)) (s.state self) →
      C.inv (s.modify self (apply hash (.put key data.1 (updateVersion data.2 self)))) ∧
        C.evolves s (s.modify self (apply hash (.put key data.1 (updateVersion data.2 self)))) ∧
        Stored (s.modify self (apply hash (.put key data.1 (updateVersion data.2 self)))))
    (hpre : ∀ s m, C.inv s → P s → m ∈ (s.state self).stubs →
      C.pre m (.peerPut key (data.1, updateVersion data.2 self)) s)
    (hpost : ∀ s m, C.post m (.peerPut key (data.1, updateVersion data.2 self))
      (.peerPut false) s → Stored s) :
    Safe C (apply hash) ok self P (serveClientPut hash self key data)
      fun r s => ∀ coordinator, r = .clientPut .ok coordinator → Stored s := by
  refine Safe.bind Safe.read fun node => ?_
  refine Safe.bind ((assignedCoordinator_safe indifferent stable _).strengthen
    fun _ h => h.1) fun coordinator => ?_
  split
  · exact Safe.ret fun s _ c hc => by simp at hc
  · refine Safe.bind ((clientPutLoop_safe indifferent stable Stored stored_stable hown hpre hpost
      _ 0 0).strengthen fun s h => ⟨h, by omega⟩) fun successCnt => ?_
    refine Safe.ret fun s h c hc => h.2 ?_
    by_cases hcnt : wCount ≤ successCnt
    · exact Nat.lt_of_lt_of_le (by decide) hcnt
    · simp [hcnt] at hc

omit indifferent stable in
/-- The guard of `PeerPut` is what the contract has to rely on. -/
theorem servePeerPut_safe {data : Data} {Φ : Reply → Cluster → Prop}
    (hput : ∀ s, C.inv s → P s →
      checkConflictVersion data.2 ((s.state self).stateMachine.getVersion key) = 1 →
      C.inv (s.modify self (apply hash (.put key data.1 data.2))) ∧
        C.evolves s (s.modify self (apply hash (.put key data.1 data.2))) ∧
        Φ (.peerPut false) (s.modify self (apply hash (.put key data.1 data.2))))
    (hreject : ∀ s, P s → Φ (.peerPut true) s) :
    Safe C (apply hash) ok self P (servePeerPut key data) Φ := by
  refine Safe.bind Safe.read fun node => ?_
  split
  · rename_i hcheck
    refine Safe.bind (Φ := fun _ s => Φ (.peerPut false) s)
      (Safe.perform fun s hinv hP _ => ?_) fun _ => Safe.ret fun _ h => h
    exact hput s hinv hP.1 (hP.2 ▸ hcheck)
  · exact Safe.ret fun s h => hreject s h.1

omit indifferent stable in
theorem servePeerGet_safe : Safe C (apply hash) ok self P (servePeerGet key) fun _ s => P s :=
  Safe.bind Safe.read fun _ => Safe.ret fun _ h => h.1

theorem mergeHeartbeats_safe (memberList : List (String × Int64)) :
    Safe C (apply hash) ok self P (mergeHeartbeats memberList) fun _ s => P s := by
  induction memberList with
  | nil => exact Safe.ret fun _ h => h
  | cons pair memberList ih =>
    refine Safe.bind Safe.read fun node => ?_
    exact Safe.bind ((quiet_safe indifferent stable
      (show Quiet (.setHeartbeat _ _) from trivial)).strengthen fun _ h => h.1) fun _ => ih

theorem serveGossip_safe (memberList : List (String × Int64)) :
    Safe C (apply hash) ok self P (serveGossip memberList) fun _ s => P s :=
  Safe.bind (mergeHeartbeats_safe indifferent stable memberList) fun _ => Safe.ret fun _ h => h

theorem gossipLoop_safe {memberList : List (String × Int64)} (stubs : List String)
    (hpre : ∀ addr ∈ stubs, ∀ s, C.inv s → P s → C.pre addr (.gossip memberList) s) :
    Safe C (apply hash) ok self P (gossipLoop memberList stubs) fun _ s => P s := by
  induction stubs with
  | nil => exact Safe.ret fun _ h => h
  | cons addr stubs ih =>
    rw [List.forall_mem_cons] at hpre
    refine Safe.bind (recentHeartbeat_safe indifferent stable addr) fun recent => ?_
    split
    · refine Safe.bind (Safe.keep stable (fun _ h => h)
        (Safe.send hpre.1)) fun _ => ?_
      exact (ih hpre.2).strengthen fun _ h => h.1
    · exact ih hpre.2

theorem gossip_safe
    (hpre : ∀ s m l, C.inv s → P s → m ∈ (s.state self).stubs → C.pre m (.gossip l) s) :
    Safe C (apply hash) ok self P (gossip self) fun _ s => P s := by
  refine Safe.bind Safe.clock fun time => ?_
  refine Safe.bind (quiet_safe indifferent stable trivial) fun _ => ?_
  refine Safe.bind Safe.read fun node => ?_
  refine Safe.bind (Safe.iterate _) fun members => ?_
  refine Safe.bind (Safe.iterate _) fun stubs => ?_
  -- the stubs were read before the loop, in which the own stubs may change
  let sendable : Cluster → Prop := fun s => P s ∧ ∀ addr ∈ stubs, ∀ l, C.pre addr (.gossip l) s
  have sendable_stable : C.Stable sendable := fun hevo h =>
    ⟨stable hevo h.1, fun addr haddr l => C.pre_stable hevo (h.2 addr haddr l)⟩
  have loop : Safe C (apply hash) ok self sendable
      (gossipLoop (members.map fun member => (member, node.heartbeat member)) stubs)
      fun _ s => sendable s :=
    gossipLoop_safe indifferent sendable_stable stubs fun addr haddr s _ h => h.2 addr haddr _
  intro s hinv hP
  obtain ⟨⟨⟨hPs, hnode⟩, _⟩, hperm⟩ := hP
  refine (loop.weaken fun _ _ h => h.1) s hinv ⟨hPs, fun addr haddr l => ?_⟩
  refine hpre s addr l hinv hPs ?_
  rw [← hnode]
  exact AList.mem_keys.mpr (hperm.mem_iff.mp haddr)

theorem mainLoopTurn_safe
    (hpre : ∀ s m l, C.inv s → P s → m ∈ (s.state self).stubs → C.pre m (.gossip l) s) :
    Safe C (apply hash) ok self P (mainLoopTurn self) fun _ s => P s := by
  refine Safe.bind Safe.read fun node => ?_
  split
  · refine Safe.bind (Safe.clock.strengthen fun _ h => h.1) fun curTime => ?_
    refine Safe.bind (quiet_safe indifferent stable trivial) fun _ => ?_
    refine Safe.bind Safe.read fun node => ?_
    split
    · refine Safe.bind ((gossip_safe indifferent stable hpre).strengthen fun _ h => h.1)
        fun _ => ?_
      exact Safe.ret fun _ h => h
    · exact Safe.ret fun _ h => h.1
  · exact Safe.ret fun _ h => h.1

/-- The requests that put nothing, neither on the node itself nor elsewhere. -/
def PutsNothing : Request → Prop
  | .clientGet _ | .peerGet _ | .gossip _ | .mainLoopTurn => True
  | _ => False

/-- The handlers of these requests only send requests of the same kind. -/
theorem putsNothing_safe {q : Request} (quiet : PutsNothing q)
    (hpre : ∀ s m q', PutsNothing q' → C.inv s → P s → m ∈ (s.state self).stubs → C.pre m q' s) :
    Safe C (apply hash) ok self P (serve hash self q) fun _ s => P s := by
  cases q with
  | clientGet key =>
    exact serveClientGet_safe indifferent stable fun s m => hpre s m (.peerGet key) trivial
  | peerGet key => exact servePeerGet_safe
  | gossip memberList => exact serveGossip_safe indifferent stable memberList
  | mainLoopTurn =>
    exact mainLoopTurn_safe indifferent stable fun s m l => hpre s m (.gossip l) trivial
  | _ => exact False.elim quiet

end Clients

section Membership

/-- A property of programs on the node that composes, and that nothing but storing data or
sending it can break. -/
structure Composes (own : String) (Good : ∀ {α : Type}, Handler α → Prop) : Prop where
  ret : ∀ {α : Type} (a : α), Good (.ret a)
  bind : ∀ {α β : Type} {p : Handler α} {f : α → Handler β},
    Good p → (∀ a, Good (f a)) → Good (p.bind f)
  read : Good (Prog.read : Handler GossipNode)
  clock : Good (Prog.clock : Handler Int64)
  iterate : ∀ l, Good (Prog.iterate l : Handler (List String))
  perform : ∀ {a}, KeepsStore a → Good (Prog.perform a : Handler Unit)
  tell : ∀ dst q, q = .joinNetwork own ∨ q = .leaveNetwork own →
    Good (Prog.send dst q : Handler (Option Reply))

variable {Good : ∀ {α : Type}, Handler α → Prop} (composes : Composes self Good)

namespace Composes

include composes

theorem serveLeaveNetwork (nodeId : String) : Good (serveLeaveNetwork nodeId) := by
  refine composes.bind (composes.perform trivial) fun _ => ?_
  refine composes.bind (composes.perform trivial) fun _ => ?_
  exact composes.bind (composes.perform trivial) fun _ => composes.ret _

theorem serveJoinNetwork {nodeId : String}
    (transfers : ∀ keys, Good (joinTransferLoop nodeId keys true)) :
    Good (serveJoinNetwork hash self nodeId) := by
  refine composes.bind (composes.perform trivial) fun _ => ?_
  refine composes.bind composes.clock fun time => ?_
  refine composes.bind (composes.perform trivial) fun _ => ?_
  refine composes.bind (composes.perform trivial) fun _ => ?_
  refine composes.bind ?_ fun keys => composes.bind (transfers keys) fun _ => composes.ret _
  refine composes.bind composes.read fun node => ?_
  exact composes.bind (composes.iterate _) fun _ => composes.ret _

theorem addAliveServers (aliveServers : List String) :
    Good (addAliveServers self aliveServers) := by
  induction aliveServers with
  | nil => exact composes.ret ()
  | cons addr aliveServers ih =>
    rw [GossipNode.addAliveServers]
    split
    · refine composes.bind (composes.perform trivial) fun _ => ?_
      exact composes.bind (composes.perform trivial) fun _ => ih
    · exact ih

theorem joinNetworkLoop (stubs : List String) (flag : Bool) :
    Good (joinNetworkLoop self stubs flag) := by
  induction stubs generalizing flag with
  | nil => exact composes.ret flag
  | cons addr stubs ih =>
    refine composes.bind (composes.tell addr _ (Or.inl rfl)) fun r => ?_
    split
    · exact ih flag
    · exact ih false

theorem joinNetwork : Good (joinNetwork self) := by
  refine composes.bind (composes.perform trivial) fun _ => ?_
  refine composes.bind composes.clock fun time => ?_
  refine composes.bind (composes.perform trivial) fun _ => ?_
  refine composes.bind composes.read fun node => ?_
  refine composes.bind (composes.iterate _) fun stubs => ?_
  exact composes.joinNetworkLoop stubs true

variable (transfers : ∀ addr keys, Good (leaveTransferLoop addr keys))

include transfers

theorem leaveNetworkLoop (oldRing : ConsistentHashingRing) (stubs : List String) :
    Good (leaveNetworkLoop hash self oldRing stubs) := by
  induction stubs with
  | nil => exact composes.ret ()
  | cons addr stubs ih =>
    refine composes.bind (composes.tell addr _ (Or.inr rfl)) fun r => ?_
    split
    · refine composes.bind ?_ fun keys => composes.bind (transfers addr keys) fun _ => ih
      refine composes.bind composes.read fun node => ?_
      exact composes.bind (composes.iterate _) fun _ => composes.ret _
    · exact ih

theorem leaveNetwork : Good (leaveNetwork hash self) := by
  refine composes.bind composes.read fun node => ?_
  refine composes.bind (composes.perform trivial) fun _ => ?_
  refine composes.bind (composes.iterate _) fun stubs => ?_
  exact composes.leaveNetworkLoop transfers node.ring stubs

theorem serveAdminCmd (cmd : String) (aliveServers : List String) :
    Good (serveAdminCmd hash self cmd aliveServers) := by
  rw [GossipNode.serveAdminCmd]
  split
  · refine composes.bind (composes.perform trivial) fun _ => ?_
    refine composes.bind (composes.addAliveServers aliveServers) fun _ => ?_
    refine composes.bind composes.joinNetwork fun _ => ?_
    exact composes.bind (composes.perform trivial) fun _ => composes.ret _
  · split
    · refine composes.bind (composes.perform trivial) fun _ => ?_
      exact composes.bind (composes.leaveNetwork transfers) fun _ => composes.ret _
    · split
      · exact composes.bind composes.read fun _ => composes.ret _
      · exact composes.ret _

end Composes

end Membership

end HandlerContracts
