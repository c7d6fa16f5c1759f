import DynamoStore.HandlerEffects
import DynamoStore.MissingStubs
import DynamoStore.Lib.RpcSchedules

/-!
# The names of servers

A server only learns of others from the admin's lists and from those that join through it.
No other name ever gets onto a ring or among the stubs, no request goes to another server,
and no client is sent to one.
-/

namespace ServerNames

open RpcPrograms RpcInterleaving RpcSchedules GossipNode HandlerEffects Effects MissingStubs
open RingOwners ClusterStores

variable (servers : Set String)

/-- The node has heard of no others. -/
structure Knows (node : GossipNode) : Prop where
  ring : ∀ id, OwnsPosition node id → id ∈ servers
  stubs : ∀ id ∈ node.stubs, id ∈ servers

/-- A request names no others: those that are joined, and those in the list of a join. -/
def NamesOnly : Request → Prop
  | .joinNetwork nodeId => nodeId ∈ servers
  | .adminCmd _ aliveServers => ∀ id ∈ aliveServers, id ∈ servers
  | _ => True

/-- The server is one of them, and so are those that it is told. -/
def Introduced (n : String) (q : Request) : Prop := n ∈ servers ∧ NamesOnly servers q

section Steps

variable {servers} {hash : String → UInt64} {n dst key : String} {q q' : Request}
variable {node : GossipNode}

theorem Knows.mem_of_replica (h : Replica hash (Knows servers) key dst) : dst ∈ servers := by
  obtain ⟨node, knows, hdst⟩ := h
  rw [getReplicasNodes_eq] at hdst
  exact knows.ring dst (mem_owners.mp (List.mem_of_mem_take hdst))

theorem Knows.mem_of_stubbed (h : Stubbed (Knows servers) dst) : dst ∈ servers := by
  obtain ⟨node, knows, hdst⟩ := h
  exact knows.stubs dst hdst

theorem introduced_of_sends (h : Sends hash (Knows servers) n q dst q')
    (introduced : Introduced servers n q) : Introduced servers dst q' := by
  cases q with
  | clientGet _ | clientPut _ _ =>
    rw [h.1]
    exact ⟨Knows.mem_of_replica h.2.1, trivial⟩
  | joinNetwork nodeId =>
    cases q' with
    | peerPut _ _ =>
      rw [h.1]
      exact ⟨introduced.2, trivial⟩
    | _ => exact False.elim h
  | adminCmd _ _ =>
    cases q' with
    | joinNetwork nodeId =>
      refine ⟨Knows.mem_of_stubbed h.2.2, ?_⟩
      rw [h.2.1]
      exact introduced.1
    | leaveNetwork _ => exact ⟨Knows.mem_of_stubbed h.2.2, trivial⟩
    | peerPut _ _ => exact ⟨Knows.mem_of_stubbed h.2.1, trivial⟩
    | _ => exact False.elim h
  | mainLoopTurn =>
    cases q' with
    | gossip _ => exact ⟨Knows.mem_of_stubbed h.1, trivial⟩
    | _ => exact False.elim h
  | _ => exact False.elim h

theorem Knows.addNode {id : String} (knows : Knows servers node) (hid : id ∈ servers) :
    Knows servers (apply hash (.addNode id) node) := by
  refine ⟨fun id' ⟨p, hp⟩ => ?_, knows.stubs⟩
  rcases mem_addNode.mp hp with ⟨rfl, _⟩ | ⟨hold, _⟩
  · exact hid
  · exact knows.ring id' ⟨p, hold⟩

theorem Knows.newStub {id : String} (knows : Knows servers node) (hid : id ∈ servers) :
    Knows servers (apply hash (.newStub id) node) := by
  refine ⟨knows.ring, fun id' hid' => ?_⟩
  rcases (AList.mem_insert _).mp hid' with rfl | hold
  · exact hid
  · exact knows.stubs id' hold

theorem Knows.of_does {a : Action} (does : Does (Knows servers) n q a)
    (introduced : Introduced servers n q) (knows : Knows servers node) :
    Knows servers (apply hash a node) := by
  cases a with
  | addNode id =>
    refine knows.addNode ?_
    cases q with
    | joinNetwork _ =>
      rw [show id = _ from does]
      exact introduced.2
    | adminCmd _ aliveServers =>
      rcases does.2 with rfl | hid
      · exact introduced.1
      · exact introduced.2 id hid
    | _ => exact False.elim does
  | newStub id =>
    refine knows.newStub ?_
    cases q with
    | joinNetwork _ =>
      rw [show id = _ from does]
      exact introduced.2
    | adminCmd _ _ => exact introduced.2 id does.2
    | _ => exact False.elim does
  | removeNode id =>
    exact ⟨fun id' ⟨p, hp⟩ => knows.ring id' ⟨p, (mem_removeNode.mp hp).1⟩, knows.stubs⟩
  | eraseStub id => exact ⟨knows.ring, fun id' hid' => knows.stubs id' (AList.mem_erase.mp hid').2⟩
  | clearStubs => exact ⟨knows.ring, fun id' hid' => absurd hid' (AList.notMem_empty id')⟩
  | _ => exact ⟨knows.ring, knows.stubs⟩

theorem kept (ok : String → Request → Action → GossipNode → Prop) :
    Kept (table hash (Introduced servers) (fun _ => Knows servers) True) (apply hash) (serve hash)
      ok :=
  kept_table (fun _ _ _ _ _ _ => Or.inl trivial)
    (fun _ _ _ _ introduced hsends => introduced_of_sends hsends introduced)
    fun _ _ _ _ introduced does _ knows => knows.of_does does introduced

end Steps

/-- However requests are interleaved: if the servers that requests come to, and those that
they name, are among the given ones, then so are all that any server has on its ring or
among its stubs, all that handlers run on, and all that clients are told as coordinators. -/
theorem servers_introduced {servers : Set String} {hash : String → UInt64}
    {allowed : String → Request → Prop}
    (introduced : ∀ n q, allowed n q → Introduced servers n q) {state : String → GossipNode}
    (knows : ∀ n, Knows servers (state n))
    {ok : String → Request → Action → GossipNode → Prop}
    {c : Config String GossipNode Action Request Reply Int64}
    (hreach : Reach (apply hash) (serve hash) allowed ok (.start state) c) :
    (∀ n, Knows servers (c.shared.state n)) ∧
      (∀ stack ∈ c.threads, ∀ f ∈ stack, f.node ∈ servers) ∧
      (∀ n key getResData coordinator,
        (n, .clientGet key, .clientGet getResData coordinator) ∈ c.finished →
          coordinator = "" ∨ coordinator ∈ servers) ∧
      ∀ n key data ret coordinator,
        (n, .clientPut key data, .clientPut ret coordinator) ∈ c.finished →
          coordinator = "" ∨ coordinator ∈ servers := by
  have within := (kept ok).reach introduced hreach (configWithin_start knows)
  refine ⟨within.states, fun stack hs f hf => (within.frames stack hs f hf).request.1, ?_, ?_⟩
  · intro n key getResData coordinator h
    exact (within.finished _ h).1.imp_right Knows.mem_of_replica
  · intro n key data ret coordinator h
    exact (show Named hash _ key coordinator from within.finished _ h).imp_right
      Knows.mem_of_replica

section TwoNodes

/-- The admin starts nodes A and B; then a client puts a value through A. -/
theorem servers_introduced_sample :
    ∃ c : Config String GossipNode Action Request Reply Int64,
      OwnsPosition (c.shared.state "A") "B" ∧
        (∀ id, OwnsPosition (c.shared.state "A") id → id = "A" ∨ id = "B") ∧
        ("A", .clientPut "k" ("v", []), .clientPut .ok "A") ∈ c.finished := by
  obtain ⟨⟨w, replies⟩, hsession, howns, hreply⟩ :
      ∃ x ∈ session (apply twoNodes) (serve twoNodes) (fun _ _ _ _ => True) calmEnv 3
        [("A", .adminCmd "JoinNetwork" []), ("B", .adminCmd "JoinNetwork" ["A"]),
          ("A", .clientPut "k" ("v", []))]
        ⟨fun _ => GossipNode.new 1, 0⟩,
        "B" ∈ (x.1.state "A").ring.ring.entries.map Prod.snd ∧
          ("A", .clientPut "k" ("v", []), .clientPut .ok "A") ∈ x.2 := by
    decide +kernel
  have hreach := reach_of_session (Introduced {"A", "B"}) calmEnv_reliable 3 _
    (by simp [Introduced, NamesOnly]) [] [] hsession
  have known := (servers_introduced (fun _ _ h => h) (fun n => ?_) hreach).1 "A"
  · exact ⟨_, ownsPosition_iff.mpr howns, known.ring, List.mem_append_left _ hreply⟩
  · exact ⟨fun id ⟨p, hp⟩ => (by cases hp), fun id hid => absurd hid (AList.notMem_empty id)⟩

end TwoNodes

end ServerNames
