import DynamoStore.ReachableStates

/-!
# Stored versions

How one put request changes the store of the node that handles it. A peer's put
never takes a stored version backward. A client's put does so exactly when the node
is among the replicas of the key and the stamped version is not the stored one or
a later one: the own write is not compared with the store.
-/

namespace StoredVersions

open RpcPrograms RpcInterleaving GossipNode StateMachine VectorClocks ConflictVerdict
open ClusterStores ReachableStates

/-- The put requests, with the key and the entry that may be stored. -/
def carried (self : String) : Request → Option (String × Data)
  | .clientPut key data => some (key, (data.1, updateVersion data.2 self))
  | .peerPut key data => some (key, data)
  | _ => none

/-- A put whose clock names each server once. -/
def PutRequest : Request → Prop
  | .clientPut _ data | .peerPut _ data => Distinct data.2
  | _ => False

/-- Every stored clock stays or becomes strictly later, and a put that is older
than what is stored, or concurrent to it, leaves the entry as it is. -/
structure NeverBackward (n : String) (q : Request) (node node' : GossipNode) : Prop where
  clocks : ∀ key,
    SameClock (node.stateMachine.getVersion key) (node'.stateMachine.getVersion key) ∨
      StrictlyBelow (node.stateMachine.getVersion key) (node'.stateMachine.getVersion key)
  outdated : ∀ key d, carried n q = some (key, d) →
    ¬ Below (node.stateMachine.getVersion key) d.2 →
    node'.stateMachine.entry key = node.stateMachine.entry key

variable {hash : String → UInt64} {self key : String}

/-- The own write, if there is one, is judged the same or later. -/
def OwnWriteCovers (hash : String → UInt64) (self : String) (node : GossipNode) : Request → Prop
  | .clientPut key data =>
    self ∈ node.ring.getReplicasNodes hash key (2 * replicaN : Nat) →
      checkConflictVersion (updateVersion data.2 self) (node.stateMachine.getVersion key) = 0 ∨
        checkConflictVersion (updateVersion data.2 self) (node.stateMachine.getVersion key) = 1
  | _ => True

section Outcomes

variable {node node' : GossipNode}

theorem outcome_recentHeartbeat {peerServer : String} {recent : Bool}
    (h : Outcome (apply hash) (recentHeartbeat peerServer) node node' recent) :
    node'.stateMachine = node.stateMachine := by
  simp only [recentHeartbeat, Prog.bind_eq, outcome_bind, outcome_clock, outcome_perform,
    outcome_read] at h
  obtain ⟨_, _, rfl, _, _, rfl, _, _, ⟨rfl, rfl⟩, h⟩ := h
  obtain ⟨rfl, _⟩ := outcome_ret.mp h
  rfl

theorem outcome_assignedCoordinator {quorumMember : List String} {coordinator : String}
    (h : Outcome (apply hash) (assignedCoordinator quorumMember) node node' coordinator) :
    node'.stateMachine = node.stateMachine := by
  induction quorumMember generalizing node with
  | nil => rw [(outcome_ret.mp h).1]
  | cons candidate quorumMember ih =>
    simp only [assignedCoordinator, Prog.bind_eq, outcome_bind] at h
    obtain ⟨node₁, recent, hrecent, h⟩ := h
    have same := outcome_recentHeartbeat hrecent
    cases recent with
    | true => rw [(outcome_ret.mp h).1, same]
    | false => rw [ih h, same]

theorem outcome_peerPut {peerServer value : String} {version : Version} {res : Int}
    (h : Outcome (apply hash) (peerPut peerServer key value version) node node' res) :
    node' = node := by
  simp only [peerPut, Prog.bind_eq, outcome_bind, outcome_read] at h
  obtain ⟨_, _, ⟨rfl, rfl⟩, h⟩ := h
  split at h
  · obtain ⟨node₁, r, hsend, hres⟩ := outcome_bind.mp h
    rw [outcome_send.mp hsend] at hres
    split at hres
    · exact (outcome_ret.mp hres).1
    · exact (outcome_ret.mp hres).1
  · exact absurd h outcome_crash

/-- The loop of `ClientPut` leaves the store alone, except for the own write. -/
theorem outcome_clientPutLoop {value : String} {version : Version}
    {replicaServers : List String} {successCnt tryCnt cnt : Nat}
    (h : Outcome (apply hash) (clientPutLoop self key value version replicaServers
      successCnt tryCnt) node node' cnt) (key' : String) :
    node'.stateMachine.entry key' = node.stateMachine.entry key' ∨
      (key' = key ∧ self ∈ replicaServers ∧
        node'.stateMachine.entry key' = some (value, version)) := by
  induction replicaServers generalizing node successCnt tryCnt with
  | nil =>
    rw [clientPutLoop, Prog.pure_eq, outcome_ret] at h
    exact Or.inl (by rw [h.1])
  | cons peerServer replicaServers ih =>
    rw [clientPutLoop] at h
    have skip {node₁ : GossipNode} (same : node₁.stateMachine = node.stateMachine)
        {successCnt tryCnt : Nat} (h : Outcome (apply hash) (clientPutLoop self key value version
          replicaServers successCnt tryCnt) node₁ node' cnt) :
        node'.stateMachine.entry key' = node.stateMachine.entry key' ∨
          (key' = key ∧ self ∈ peerServer :: replicaServers ∧
            node'.stateMachine.entry key' = some (value, version)) := by
      rcases ih h with hsame | ⟨hkey, hmem, hentry⟩
      · exact Or.inl (by rw [hsame, same])
      · exact Or.inr ⟨hkey, List.mem_cons_of_mem _ hmem, hentry⟩
    split at h
    · rename_i hself
      simp only [Prog.bind_eq, outcome_bind, outcome_perform] at h
      obtain ⟨node₁, _, rfl, h⟩ := h
      have written : ∀ {node₂ : GossipNode}, (node₂.stateMachine.entry key' =
          (apply hash (.put key value version) node).stateMachine.entry key' ∨
          (key' = key ∧ self ∈ replicaServers ∧
            node₂.stateMachine.entry key' = some (value, version))) →
          node₂.stateMachine.entry key' = node.stateMachine.entry key' ∨
            (key' = key ∧ self ∈ peerServer :: replicaServers ∧
              node₂.stateMachine.entry key' = some (value, version)) := by
        rintro node₂ (hsame | ⟨hkey, hmem, hentry⟩)
        · by_cases hkey : key' = key
          · subst hkey
            exact Or.inr ⟨rfl, hself ▸ List.mem_cons_self, by rw [hsame]; simp [apply]⟩
          · exact Or.inl (by rw [hsame]; simp [apply, hkey])
        · exact Or.inr ⟨hkey, List.mem_cons_of_mem _ hmem, hentry⟩
      split at h
      · exact written (Or.inl (by rw [(outcome_ret.mp h).1]))
      · exact written (ih h)
    · simp only [Prog.bind_eq, outcome_bind] at h
      obtain ⟨node₁, recent, hrecent, h⟩ := h
      have same := outcome_recentHeartbeat hrecent
      split at h
      · obtain ⟨node₂, res, hpeer, h⟩ := outcome_bind.mp h
        rw [outcome_peerPut hpeer] at h
        split at h
        · split at h
          · exact Or.inl (by rw [(outcome_ret.mp h).1, same])
          · exact skip same h
        · exact skip same h
      · exact skip same h

/-- A client's put writes at most the stamped version, and only on a replica. -/
theorem outcome_serveClientPut {data : Data} {reply : Reply}
    (h : Outcome (apply hash) (serveClientPut hash self key data) node node' reply)
    (key' : String) :
    node'.stateMachine.entry key' = node.stateMachine.entry key' ∨
      (key' = key ∧ self ∈ node.ring.getReplicasNodes hash key (2 * replicaN : Nat) ∧
        node'.stateMachine.entry key' = some (data.1, updateVersion data.2 self)) := by
  simp only [serveClientPut, Prog.bind_eq, outcome_bind, outcome_read] at h
  obtain ⟨_, _, ⟨rfl, rfl⟩, node₁, coordinator, hcoordinator, h⟩ := h
  have same := outcome_assignedCoordinator hcoordinator
  split at h
  · exact Or.inl (by rw [(outcome_ret.mp h).1, same])
  · obtain ⟨node₂, cnt, hloop, h⟩ := outcome_bind.mp h
    rw [(outcome_ret.mp h).1, ← same]
    exact outcome_clientPutLoop hloop key'

theorem outcome_servePeerPut {data : Data} {reply : Reply}
    (h : Outcome (apply hash) (servePeerPut key data) node node' reply) (key' : String) :
    node'.stateMachine.entry key' = node.stateMachine.entry key' ∨
      (key' = key ∧
        checkConflictVersion data.2 (node.stateMachine.getVersion key) = 1 ∧
        node'.stateMachine.entry key' = some data) := by
  simp only [servePeerPut, Prog.bind_eq, outcome_bind, outcome_read] at h
  obtain ⟨_, _, ⟨rfl, rfl⟩, h⟩ := h
  split at h
  · rename_i hcheck
    obtain ⟨node₁, _, hput, h⟩ := outcome_bind.mp h
    rw [(outcome_ret.mp h).1, outcome_perform.mp hput]
    by_cases hkey : key' = key
    · subst hkey
      exact Or.inr ⟨rfl, hcheck, by simp [apply]⟩
    · exact Or.inl (by simp [apply, hkey])
  · exact Or.inl (by rw [(outcome_ret.mp h).1])

end Outcomes

section Stale

variable (hash self key)

/-- A peer can always be found too long silent. -/
theorem stale_recentHeartbeat (node : GossipNode) (peerServer : String) :
    ∃ node', Outcome (apply hash) (recentHeartbeat peerServer) node node' false ∧
      node'.stateMachine = node.stateMachine := by
  refine ⟨apply hash (.touchHeartbeat peerServer) node, ?_, rfl⟩
  refine outcome_bind.mpr ⟨node, node.heartbeat peerServer + 10000000000, outcome_clock.mpr rfl, ?_⟩
  refine outcome_bind.mpr ⟨_, (), outcome_perform.mpr rfl, ?_⟩
  refine outcome_bind.mpr ⟨_, _, outcome_read.mpr ⟨rfl, rfl⟩, ?_⟩
  refine outcome_ret.mpr ⟨rfl, ?_⟩
  have touched : (apply hash (.touchHeartbeat peerServer) node).heartbeat peerServer =
      node.heartbeat peerServer := by
    simp [apply, heartbeat]
  have late : node.heartbeat peerServer + 10000000000 - node.heartbeat peerServer =
      10000000000 := by
    rw [Int64.add_comm, Int64.add_sub_cancel]
  rw [touched, durationMs, checkAliveInterval, late]
  decide

theorem stale_assignedCoordinator (node : GossipNode) (quorumMember : List String) :
    ∃ node', Outcome (apply hash) (assignedCoordinator quorumMember) node node' "" ∧
      node'.stateMachine = node.stateMachine := by
  induction quorumMember generalizing node with
  | nil => exact ⟨node, outcome_ret.mpr ⟨rfl, rfl⟩, rfl⟩
  | cons candidate quorumMember ih =>
    obtain ⟨node₁, hrecent, hsame⟩ := stale_recentHeartbeat hash node candidate
    obtain ⟨node₂, hrest, hsame'⟩ := ih node₁
    exact ⟨node₂, outcome_bind.mpr ⟨node₁, false, hrecent, hrest⟩, hsame'.trans hsame⟩

/-- With all peers silent the loop comes to the own write. -/
theorem stale_clientPutLoop (node : GossipNode) (value : String) (version : Version)
    (replicaServers : List String) (successCnt tryCnt : Nat)
    (h : self ∈ replicaServers ∨ node.stateMachine.entry key = some (value, version)) :
    ∃ node' cnt, Outcome (apply hash) (clientPutLoop self key value version replicaServers
      successCnt tryCnt) node node' cnt ∧ node'.stateMachine.entry key = some (value, version) := by
  induction replicaServers generalizing node successCnt tryCnt with
  | nil => exact ⟨node, successCnt, .ret _ _, h.resolve_left List.not_mem_nil⟩
  | cons peerServer replicaServers ih =>
    rw [clientPutLoop]
    by_cases hself : peerServer = self
    · rw [if_pos hself]
      have hentry : (apply hash (.put key value version) node).stateMachine.entry key =
          some (value, version) := by simp [apply]
      by_cases htry : tryCnt + 1 = replicaN
      · refine ⟨_, successCnt + 1, outcome_bind.mpr ⟨_, (), outcome_perform.mpr rfl, ?_⟩, hentry⟩
        rw [if_pos htry]
        exact .ret _ _
      · obtain ⟨node', cnt, hloop, hdone⟩ := ih (apply hash (.put key value version) node)
          (successCnt + 1) (tryCnt + 1) (Or.inr hentry)
        refine ⟨node', cnt, outcome_bind.mpr ⟨_, (), outcome_perform.mpr rfl, ?_⟩, hdone⟩
        rw [if_neg htry]
        exact hloop
    · rw [if_neg hself]
      obtain ⟨node₁, hrecent, hsame⟩ := stale_recentHeartbeat hash node peerServer
      have h' : self ∈ replicaServers ∨ node₁.stateMachine.entry key = some (value, version) := by
        rw [hsame]
        exact h.imp_left fun hmem => (List.mem_cons.mp hmem).resolve_left (Ne.symm hself)
      obtain ⟨node', cnt, hloop, hdone⟩ := ih node₁ successCnt tryCnt h'
      exact ⟨node', cnt, outcome_bind.mpr ⟨node₁, false, hrecent, hloop⟩, hdone⟩

theorem stale_serveClientPut (node : GossipNode) (data : Data)
    (hself : self ∈ node.ring.getReplicasNodes hash key (2 * replicaN : Nat)) :
    ∃ node' reply, Outcome (apply hash) (serveClientPut hash self key data) node node' reply ∧
      node'.stateMachine.entry key = some (data.1, updateVersion data.2 self) := by
  obtain ⟨node₁, hcoordinator, _⟩ := stale_assignedCoordinator hash node
    (node.ring.getReplicasNodes hash key (2 * replicaN : Nat))
  obtain ⟨node', cnt, hloop, hdone⟩ := stale_clientPutLoop hash self key node₁
    data.1 (updateVersion data.2 self) _ 0 0 (Or.inl hself)
  refine ⟨node', .clientPut (if wCount ≤ cnt then .ok else .failed) "",
    outcome_bind.mpr ⟨node, node, outcome_read.mpr ⟨rfl, rfl⟩, ?_⟩, hdone⟩
  refine outcome_bind.mpr ⟨node₁, "", hcoordinator, ?_⟩
  have coordinator : isCoordinator self
      (node.ring.getReplicasNodes hash key (2 * replicaN : Nat)) ≠ false := by
    simpa [isCoordinator] using hself
  rw [if_neg coordinator]
  exact outcome_bind.mpr ⟨node', cnt, hloop, .ret _ _⟩

end Stale

section Verdict

variable {node node' : GossipNode} {q : Request}

/-- If at most the carried entry is written, and only over a clock that is the
same or earlier, nothing goes backward. -/
theorem neverBackward_of_write (h : ∀ key', node'.stateMachine.entry key' =
      node.stateMachine.entry key' ∨ ∃ d, carried self q = some (key', d) ∧
        Below (node.stateMachine.getVersion key') d.2 ∧
        node'.stateMachine.entry key' = some d) : NeverBackward self q node node' where
  clocks key := by
    rw [← below_iff_same_or_strictly]
    rcases h key with same | ⟨d, _, below, hentry⟩
    · rw [getVersion_eq, getVersion_eq, same]
      exact Below.refl _
    · rw [getVersion_of_entry hentry]
      exact below
  outdated key d hcarried hbelow := by
    rcases h key with same | ⟨d', hcarried', below, _⟩
    · exact same
    · rw [hcarried] at hcarried'
      cases hcarried'
      exact absurd below hbelow

/-- In a reachable state, a put request takes no stored version backward, whatever
happens meanwhile, if and only if the own write covers the stored version. -/
theorem never_backward_iff (numVirtualNodes : String → Nat)
    {c : Config String GossipNode Action Request Reply Int64}
    (reachable : Reach (apply hash) (serve hash) (WellFormed Set.univ) (fun _ _ _ _ => True)
      (.start fun n => GossipNode.new (numVirtualNodes n)) c)
    (self : String) {q : Request} (put : PutRequest q) :
    (∀ node' reply, Outcome (apply hash) (serve hash self q) (c.shared.state self) node' reply →
      NeverBackward self q (c.shared.state self) node') ↔
      OwnWriteCovers hash self (c.shared.state self) q := by
  have tidy := tidy_of_reach (tidy_new numVirtualNodes) reachable
  have hstored : ∀ key, Distinct ((c.shared.state self).stateMachine.getVersion key) :=
    distinct_getVersion tidy.distinct self
  generalize c.shared.state self = node at hstored ⊢
  cases q with
  | clientPut key data =>
    have hversion : Distinct (updateVersion data.2 self) := distinct_updateVersion put self
    constructor
    · intro never hself
      obtain ⟨node', reply, houtcome, hentry⟩ := stale_serveClientPut hash self key node data hself
      have hclocks := (never node' reply houtcome).clocks key
      rw [← below_iff_same_or_strictly, getVersion_of_entry hentry] at hclocks
      exact (check_zero_or_one_iff hversion (hstored key)).mpr hclocks
    · intro covers node' reply houtcome
      refine neverBackward_of_write fun key' => ?_
      rcases outcome_serveClientPut houtcome key' with same | ⟨rfl, hself, hentry⟩
      · exact Or.inl same
      · have below := (check_zero_or_one_iff hversion (hstored key')).mp (covers hself)
        exact Or.inr ⟨_, rfl, below, hentry⟩
  | peerPut key data =>
    refine ⟨fun _ => trivial, fun _ node' reply houtcome => ?_⟩
    refine neverBackward_of_write fun key' => ?_
    rcases outcome_servePeerPut houtcome key' with same | ⟨rfl, hcheck, hentry⟩
    · exact Or.inl same
    · have below := (check_zero_or_one_iff put (hstored key')).mp (Or.inr hcheck)
      exact Or.inr ⟨_, rfl, below, hentry⟩
  | _ => exact False.elim put

set_option synthInstance.maxSize 1000 in
/-- A coordinator that stores A:1 takes a put with this context, and stores A:2. -/
theorem never_backward_sample :
    ∃ c : Config String GossipNode Action Request Reply Int64,
      Reach (apply twoNodes) (serve twoNodes) (WellFormed Set.univ) (fun _ _ _ _ => True)
        (.start fun _ => GossipNode.new 1) c ∧
      ∃ node' reply,
        Outcome (apply twoNodes) (serve twoNodes "A" (.clientPut "k" ("v2", [("A", 1)])))
          (c.shared.state "A") node' reply ∧
        (c.shared.state "A").stateMachine.getVersion "k" = [("A", 1)] ∧
        node'.stateMachine.entry "k" = some ("v2", [("A", 2)]) ∧
        NeverBackward "A" (.clientPut "k" ("v2", [("A", 1)])) (c.shared.state "A") node' := by
  obtain ⟨⟨w, finished⟩, hsession, hbefore, ⟨w', reply⟩, hrun, hafter⟩ :
      ∃ x ∈ session (apply twoNodes) (serve twoNodes) (fun _ _ _ _ => True) calmEnv 1
        [("A", .adminCmd "JoinNetwork" []), ("A", .clientPut "k" ("v1", []))]
        ⟨fun _ => GossipNode.new 1, 0⟩,
        (x.1.state "A").stateMachine.getVersion "k" = [("A", 1)] ∧
        ∃ y ∈ run (apply twoNodes) calmEnv (fun _ _ _ => none) "A"
          (serve twoNodes "A" (.clientPut "k" ("v2", [("A", 1)]))) x.1,
          (y.1.state "A").stateMachine.entry "k" = some ("v2", [("A", 2)]) := by
    decide +kernel
  have reachable := reach_of_session (WellFormed Set.univ) calmEnv_reliable 1 _
    (by simp [WellFormed, Distinct]) [] [] hsession
  have put : PutRequest (.clientPut "k" ("v2", [("A", 1)])) := by
    rw [PutRequest]
    decide
  have houtcome := outcome_of_run (fun _ _ _ _ _ h => absurd h (by simp)) hrun
  have ahead : OwnWriteCovers twoNodes "A" (w.state "A") (.clientPut "k" ("v2", [("A", 1)])) := by
    intro _
    rw [hbefore]
    decide
  exact ⟨_, reachable, w'.state "A", reply, houtcome, hbefore, hafter,
    (never_backward_iff (fun _ => 1) reachable "A" put).mpr ahead _ _ houtcome⟩

set_option synthInstance.maxSize 1000 in
/-- A coordinator that stores A:2 takes a put without context, and stores A:1. -/
theorem stored_version_goes_backward :
    ∃ c : Config String GossipNode Action Request Reply Int64,
      Reach (apply twoNodes) (serve twoNodes) (WellFormed Set.univ) (fun _ _ _ _ => True)
        (.start fun _ => GossipNode.new 1) c ∧
      ∃ node' reply, Outcome (apply twoNodes) (serve twoNodes "A" (.clientPut "k" ("v3", [])))
          (c.shared.state "A") node' reply ∧
        (c.shared.state "A").stateMachine.getVersion "k" = [("A", 2)] ∧
        node'.stateMachine.getVersion "k" = [("A", 1)] ∧
        ¬ NeverBackward "A" (.clientPut "k" ("v3", [])) (c.shared.state "A") node' := by
  obtain ⟨⟨w, finished⟩, hsession, hbefore, ⟨w', reply⟩, hrun, hafter⟩ :
      ∃ x ∈ session (apply twoNodes) (serve twoNodes) (fun _ _ _ _ => True) calmEnv 1
        [("A", .adminCmd "JoinNetwork" []), ("A", .clientPut "k" ("v1", [])),
          ("A", .clientPut "k" ("v2", [("A", 1)]))] ⟨fun _ => GossipNode.new 1, 0⟩,
        (x.1.state "A").stateMachine.getVersion "k" = [("A", 2)] ∧
        ∃ y ∈ run (apply twoNodes) calmEnv (fun _ _ _ => none) "A"
          (serve twoNodes "A" (.clientPut "k" ("v3", []))) x.1,
          (y.1.state "A").stateMachine.getVersion "k" = [("A", 1)] := by
    decide +kernel
  refine ⟨_, reach_of_session _ calmEnv_reliable 1 _ ?_ [] [] hsession, w'.state "A", reply,
    outcome_of_run (fun _ _ _ _ _ h => absurd h (by simp)) hrun, hbefore, hafter, ?_⟩
  · simp [WellFormed, Distinct]
  · intro never
    have hclocks := never.clocks "k"
    rw [hafter, hbefore] at hclocks
    exact absurd hclocks (by decide)

end Verdict

end StoredVersions
