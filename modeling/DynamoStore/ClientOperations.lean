import DynamoStore.KeyValueStoreClient
import DynamoStore.ReadFilter
import DynamoStore.ReconciledWrites
import DynamoStore.ReplicaSets
import DynamoStore.Stamps

/-!
# A client's calls on a cluster whose quorums agree

All servers of a quorum store the same entry, or none does, and no message is lost.
Then a get returns that entry. A put reads it first, so it sends the clock of that entry
as its context: every server of the quorum takes the stamped entry over, and nobody else
is written. The coordinator that a get names belongs to the quorum, so such a put is
never sent on.
-/

namespace ClientOperations

open RpcPrograms GossipNode StateMachine KeyValueStoreClient
open VectorClocks Stamps RingOwners ClusterStores HandlerRuns KeyTransfers QuorumRuns ReadFilter

variable {hash : String → UInt64} {env : Env String Int64} {depth : Nat} {self key value : String}
variable {w : Net} {alive : String → Bool} {r : ConsistentHashingRing} {d : Data}

/-- The stores after an entry was written on some servers. -/
def written (servers : List String) (key : String) (d : Data) (stores : Stores) : Stores :=
  fun m key' => if m ∈ servers ∧ key' = key then some d else stores m key'

theorem written_nil (stores : Stores) : written [] key d stores = stores := by
  funext m key'
  simp [written]

theorem written_cons (m : String) (servers : List String) (stores : Stores) :
    written servers key d (written [m] key d stores) = written (m :: servers) key d stores := by
  funext n key'
  simp only [written, List.mem_cons, List.not_mem_nil, or_false]
  by_cases hn : n ∈ servers ∧ key' = key
  · rw [if_pos hn, if_pos ⟨Or.inr hn.1, hn.2⟩]
  · by_cases hm : n = m ∧ key' = key
    · rw [if_neg hn, if_pos hm, if_pos ⟨Or.inl hm.1, hm.2⟩]
    · rw [if_neg hn, if_neg hm, if_neg]
      rintro ⟨h | h, hkey⟩
      · exact hm ⟨h, hkey⟩
      · exact hn ⟨h, hkey⟩

theorem stored_act_put (n value : String) (version : Version) :
    stored (act hash w n (.put key value version)).state =
      written [n] key (value, version) (stored w.state) := by
  funext m key'
  rw [World.modify_state, stored_put, written]
  simp only [List.mem_singleton]

theorem mem_owners_of_mem_candidates {m : String} (h : m ∈ candidates hash r key) :
    m ∈ owners hash r key := by
  rw [candidates, getReplicasNodes_eq] at h
  exact List.mem_of_mem_take h

/-- Where everybody is alive and the ring is counted well, a request uses the replicas. -/
theorem quorum_eq_replicas (accurate : Accurate r) (living : ∀ m ∈ owners hash r key, alive m) :
    quorum hash r alive key = ReplicaSets.replicas hash r key := by
  have hcandidates : candidates hash r key = (owners hash r key).take (2 * replicaN) :=
    getReplicasNodes_of_accurate accurate (by decide) (by decide)
  have hall : ((owners hash r key).take (2 * replicaN)).filter alive =
      (owners hash r key).take (2 * replicaN) :=
    List.filter_eq_self.mpr fun m hm => living m (List.mem_of_mem_take hm)
  rw [quorum, contacted, hcandidates, hall, List.take_take]
  rfl

section Put

/-- The coordinator takes its own entry unasked, the others compare. -/
def Willing (self key : String) (d : Data) (state : String → GossipNode) (servers : List String) :
    Prop :=
  ∀ m ∈ servers, m = self ∨ TakenOver d (stored state m key)

variable (hash) in
/-- A peer that takes the entry over. -/
theorem sendPut_accepted (reliable : env.Reliable) {dst : String}
    (willing : TakenOver d (stored w.state dst key)) :
    (sendPut hash env dst key d w).2 = 0 ∧
      SameView w.state (sendPut hash env dst key d w).1.state ∧
      stored (sendPut hash env dst key d w).1.state = written [dst] key d (stored w.state) := by
  have accepts : Accepts (w.state dst) key d := accepts_iff_takes.mpr willing
  rw [sendPut_reliable _ _ _ _ reliable, receive, if_pos (show Accepts (w.next.state dst) key d
    from accepts)]
  exact ⟨if_pos accepts, sameView_put hash w.next dst key d.1 d.2,
    stored_act_put (w := w.next) dst d.1 d.2⟩

variable (hash depth) in
/-- When all servers that the loop would contact are willing, it writes these and no
others. -/
theorem clientPutLoop_accepted (reliable : env.Reliable)
    (sees : SeesAlive env alive self (w.state self)) (newVersion : Version)
    (replicaServers : List String) (nodup : replicaServers.Nodup)
    (reaches : Reaches alive replicaServers self w.state) (successCnt tryCnt : Nat)
    (htry : tryCnt < replicaN)
    (willing : Willing self key (value, newVersion) w.state
      (contacted alive replicaServers tryCnt)) :
    ∃ w', exec hash env (depth + 1) self
        (clientPutLoop self key value newVersion replicaServers successCnt tryCnt) w =
          some (w', successCnt + (contacted alive replicaServers tryCnt).length) ∧
      SameView w.state w'.state ∧ stored w'.state =
        written (contacted alive replicaServers tryCnt) key (value, newVersion)
          (stored w.state) := by
  induction replicaServers generalizing w successCnt tryCnt with
  | nil =>
    refine ⟨w, by simp [clientPutLoop, contacted], SameView.refl _, ?_⟩
    simp [contacted, written_nil]
  | cons peerServer replicaServers ih =>
    obtain ⟨hpeer, nodup⟩ := List.nodup_cons.mp nodup
    -- what follows once the first server is written
    have next : ∀ w₁ : Net, SameView w.state w₁.state → alive peerServer = true →
        stored w₁.state = written [peerServer] key (value, newVersion) (stored w.state) →
        ∃ w', exec hash env (depth + 1) self (if tryCnt + 1 = replicaN then
            return successCnt + 1
            else clientPutLoop self key value newVersion replicaServers (successCnt + 1)
              (tryCnt + 1)) w₁ =
            some (w', successCnt + (contacted alive (peerServer :: replicaServers) tryCnt).length) ∧
          SameView w.state w'.state ∧ stored w'.state =
            written (contacted alive (peerServer :: replicaServers) tryCnt) key
              (value, newVersion) (stored w.state) := by
      intro w₁ view halive hstored
      rw [contacted_of_alive halive replicaServers htry] at willing ⊢
      by_cases hlast : tryCnt + 1 = replicaN
      · have hnone : contacted alive replicaServers (tryCnt + 1) = [] := by
          rw [contacted, hlast, Nat.sub_self, List.take_zero]
        rw [if_pos hlast, hnone]
        exact ⟨w₁, rfl, view, hstored⟩
      · have willing' : Willing self key (value, newVersion) w₁.state
            (contacted alive replicaServers (tryCnt + 1)) := by
          intro m hm
          have hne : m ≠ peerServer := fun h =>
            hpeer (h ▸ (List.mem_filter.mp (List.mem_of_mem_take hm)).1)
          rw [hstored, written, if_neg (by simp [hne])]
          exact willing m (List.mem_cons_of_mem _ hm)
        obtain ⟨w', hrun, view', hstored'⟩ := ih (view.seesAlive sees) nodup (reaches.tail view)
          (successCnt + 1) (tryCnt + 1) (by omega) willing'
        refine ⟨w', ?_, view.trans view', ?_⟩
        · rw [if_neg hlast, hrun, List.length_cons]
          congr 2
          omega
        · rw [hstored', hstored, written_cons]
    rw [clientPutLoop]
    by_cases hown : peerServer = self
    · subst hown
      rw [if_pos rfl, exec_bind, exec_perform, Option.bind_some]
      exact next _ (sameView_put hash w peerServer key value newVersion) sees.1
        (stored_act_put _ _ _)
    · have hview := sameView_look hash self w peerServer
      obtain ⟨found, hlook, hfound⟩ := exec_recentHeartbeat hash env (depth + 1) self w alive
        peerServer
      have halive := (hfound sees hown).symm
      rw [if_neg hown, exec_bind, hlook, Option.bind_some]
      cases found with
      | false =>
        rw [contacted_of_not_alive halive] at willing ⊢
        have willing' : Willing self key (value, newVersion) (look hash self peerServer w).state
            (contacted alive replicaServers tryCnt) := by
          intro m hm
          rw [stored_look]
          exact willing m hm
        obtain ⟨w', hrun, view', hstored'⟩ := ih (hview.seesAlive sees) nodup
          (reaches.tail hview) successCnt tryCnt htry willing'
        refine ⟨w', hrun, hview.trans view', ?_⟩
        rw [hstored', stored_look]
      | true =>
        have hstub : peerServer ∈ ((look hash self peerServer w).state self).stubs := by
          rw [hview.stubs self]
          exact reaches peerServer List.mem_cons_self halive hown
        have htakes : TakenOver (value, newVersion)
            (stored (look hash self peerServer w).state peerServer key) := by
          rw [stored_look]
          rw [contacted_of_alive halive replicaServers htry] at willing
          exact (willing peerServer List.mem_cons_self).resolve_left hown
        obtain ⟨hres, hview', hstored⟩ := sendPut_accepted hash reliable htakes
        simp only [if_true, exec_bind, exec_peerPut peerServer value newVersion hstub,
          Option.bind_some, hres]
        refine next _ (hview.trans hview') halive ?_
        rw [hstored, stored_look]

variable (hash depth) in
/-- A put through a willing quorum is answered with OK. -/
theorem clientPut_accepted (reliable : env.Reliable)
    (sees : SeesAlive env alive self (w.state self)) (ring : (w.state self).ring = r)
    (hself : self ∈ candidates hash r key)
    (reaches : Reaches alive (candidates hash r key) self w.state)
    (enough : wCount ≤ (quorum hash r alive key).length) {context : Version}
    (willing : Willing self key (value, updateVersion context self) w.state
      (quorum hash r alive key)) :
    ∃ w' coordinator, serveOn hash env (depth + 2) self (.clientPut key (value, context)) w =
        some (w', .clientPut .ok coordinator) ∧ SameView w.state w'.state ∧
      stored w'.state = written (quorum hash r alive key) key
        (value, updateVersion context self) (stored w.state) := by
  obtain ⟨w₁, recent, hcoordinator, view, same⟩ := assignedCoordinator_run hash
    (depth + 1) sees (candidates hash r key) (nodup_getReplicasNodes _)
  have hcheck : ¬ isCoordinator self (candidates hash r key) = false := by
    simpa [isCoordinator] using hself
  have willing' : Willing self key (value, updateVersion context self) w₁.state
      (quorum hash r alive key) := by
    intro m hm
    rw [same]
    exact willing m hm
  obtain ⟨w', hrun, view', hstored⟩ := clientPutLoop_accepted hash depth reliable
    (view.seesAlive sees) (updateVersion context self) (candidates hash r key)
    (nodup_getReplicasNodes _) (view.reaches reaches) 0 0 (by decide) willing'
  refine ⟨w', ((candidates hash r key).find? fun m => if m = self then recent else
    alive m).getD "", ?_, view.trans view', by rw [hstored, same]⟩
  rw [serveOn_succ, serve, serveClientPut, exec_bind, exec_read, Option.bind_some, ring, exec_bind,
    hcoordinator, Option.bind_some, if_neg hcheck, exec_bind, hrun, Option.bind_some, Nat.zero_add,
    if_pos enough]
  rfl

end Put

section Clients

/-- The servers of a quorum that a request for the key can use. -/
structure Usable (hash : String → UInt64) (env : Env String Int64) (alive : String → Bool)
    (members : Set String) (r : ConsistentHashingRing) (key : String)
    (state : String → GossipNode) : Prop where
  agree : Agree env alive members r state
  reaches : ∀ n ∈ members, Reaches alive (candidates hash r key) n state
  inside : ∀ m ∈ quorum hash r alive key, m ∈ members
  enough : rCount ≤ (quorum hash r alive key).length

theorem Usable.of_view {members : Set String} {state state' : String → GossipNode}
    (h : Usable hash env alive members r key state) (view : SameView state state') :
    Usable hash env alive members r key state' :=
  ⟨view.agree h.agree, fun n hn => view.reaches (h.reaches n hn), h.inside, h.enough⟩

/-- The servers hold a common entry, or none of them has one. -/
def Common (state : String → GossipNode) (key : String) (servers : List String)
    (e : Option Data) : Prop :=
  ∀ m ∈ servers, stored state m key = e

/-- A client has a stub for the server that it is going to call. -/
def Attached (members : Set String) (client : KeyValueStoreClient) : Prop :=
  client.assignedCoordinator ∈ client.stubs ∧ client.assignedCoordinator ∈ members

variable {members : Set String} {client : KeyValueStoreClient} {e : Option Data}

@[simp] theorem runBeside_perform (a : Change) :
    runBeside hash env depth (Prog.perform a : Code Unit) client w =
      some (change a client, w, ()) :=
  rfl

@[simp] theorem runBeside_pure {α : Type} (a : α) :
    runBeside hash env depth (pure a : Code α) client w = some (client, w, a) := rfl

@[simp] theorem runBeside_iterate (l : List String) :
    runBeside hash env depth (Prog.iterate l : Code (List String)) client w =
      some (client, w.next, env.order w.tick l) := rfl

variable (hash env depth client w) in
/-- The client after it was sent to a coordinator. -/
theorem runBeside_update (coordinator : String) :
    ∃ client', runBeside hash env depth (updateChannelToCoordinator coordinator) client w =
        some (client', w, ()) ∧ client'.assignedCoordinator = coordinator ∧
      coordinator ∈ client'.stubs ∧ client'.stateMachine = client.stateMachine := by
  by_cases h : coordinator ∈ client.stubs
  · exact ⟨change (.assign coordinator) client, by
      simp [updateChannelToCoordinator, runBeside_bind, h], rfl, h, rfl⟩
  · refine ⟨change (.assign coordinator) (change (.newStub coordinator) client), ?_, rfl, ?_, rfl⟩
    · simp [updateChannelToCoordinator, runBeside_bind, h]
    · simp [change]

variable (hash depth) in
/-- A get is the reconciliation of what the quorum stores, by the client that is attached to
a server of the quorum by then. -/
theorem get_reconciles (reliable : env.Reliable)
    (usable : Usable hash env alive members r key w.state) (attached : Attached members client)
    (attempts : Nat) (selections : List Int) :
    ∃ client₁ w₁, runBeside hash env (depth + 2) (get key attempts selections) client w =
        (runBeside hash env (depth + 2) (reconcile key attempts selections
          (getLatestData ((quorum hash r alive key).map (reads w.state key)))) client₁ w₁).map
            (fun x => (x.1, x.2.1, x.2.2.map GetReturn.success)) ∧
      SameView w.state w₁.state ∧ stored w₁.state = stored w.state ∧
      Attached {m | m ∈ quorum hash r alive key} client₁ ∧
      client₁.stateMachine = client.stateMachine := by
  obtain ⟨hstub, hmember⟩ := attached
  obtain ⟨ring, sees⟩ := usable.agree _ hmember
  obtain ⟨w₁, recent, hget, view, same⟩ := clientGet_answered (w := w.next) hash depth key
    reliable sees ring (usable.reaches _ hmember) usable.enough
  have hmem := ReconciledWrites.coordinator_mem_contacted sees.1 recent
    (nodup_getReplicasNodes (2 * replicaN : Nat)) usable.enough
  generalize ((candidates hash r key).find? fun m => if m = client.assignedCoordinator then recent
    else alive m).getD "" = p at hget hmem
  obtain ⟨client₁, hupdate, rfl, hstub₁, hcache⟩ :=
    runBeside_update hash env (depth + 2) w₁ client p
  refine ⟨client₁, w₁, ?_, view, same, ⟨hstub₁, hmem⟩, hcache⟩
  rw [KeyValueStoreClient.get, runBeside_bind, runBeside_read]
  simp only [Option.bind_some, if_pos hstub, runBeside_bind, runBeside_send,
    deliver_reliable reliable, hget, Option.map_some, hupdate, World.next_state]
  generalize runBeside hash env (depth + 2) (reconcile key attempts selections
    (getLatestData ((quorum hash r alive key).map (reads w.state key)))) client₁ w₁ = o
  rcases o with _ | ⟨client₂, w₂, _ | result⟩ <;> rfl

variable (hash depth) in
/-- A put of the client with the clock that it has cached, which the quorum accepts. The
quorum, and nobody else, then stores the value with a stamp of that clock. -/
theorem putRetry_run (reliable : env.Reliable)
    (usable : Usable hash env alive members r key w.state)
    (attached : Attached {m | m ∈ quorum hash r alive key} client) {version : Version}
    (cached : client.stateMachine.getVersion key = version) (value : String)
    (willing : Willing client.assignedCoordinator key
      (value, updateVersion version client.assignedCoordinator) w.state (quorum hash r alive key))
    (attempts : Nat) :
    ∃ client' w', runBeside hash env (depth + 2) (putRetry key value (attempts + 1)) client w =
        some (client', w', some true) ∧ SameView w.state w'.state ∧
      stored w'.state = written (quorum hash r alive key) key
        (value, updateVersion version client.assignedCoordinator) (stored w.state) ∧
      client'.assignedCoordinator = client.assignedCoordinator ∧ client'.stubs = client.stubs ∧
      ∃ coordinator, client'.stateMachine.getVersion key = updateVersion version coordinator := by
  obtain ⟨hstub, hquorum⟩ := attached
  have hmember := usable.inside _ hquorum
  obtain ⟨ring, sees⟩ := usable.agree _ hmember
  obtain ⟨w', coordinator, hput, view, hstored⟩ := clientPut_accepted (w := w.next) hash depth
    reliable sees ring (List.mem_filter.mp (List.mem_of_mem_take hquorum)).1
    (usable.reaches _ hmember) usable.enough willing
  have hanswer : deliver hash env (depth + 2) client.assignedCoordinator
      (.clientPut key (value, client.stateMachine.getVersion key)) w =
        some (w', some (.clientPut .ok coordinator)) := by
    rw [deliver_reliable reliable, cached, hput]
    rfl
  refine ⟨_, w', runBeside_putRetry_ok attempts hstub hanswer, view, hstored, rfl, rfl,
    coordinator, ?_⟩
  rw [cached]
  exact getVersion_put _ _

section CommonEntry

variable (common : Common w.state key (quorum hash r alive key) e)

include common

theorem getLatestData_of_common (enough : rCount ≤ (quorum hash r alive key).length) :
    getLatestData ((quorum hash r alive key).map (reads w.state key)) =
      [e.getD (noValue, [])] := by
  have nonempty : (quorum hash r alive key).map (reads w.state key) ≠ [] := by
    intro h
    rw [List.map_eq_nil_iff] at h
    rw [h] at enough
    exact absurd enough (by decide)
  refine getLatestData_of_all_eq nonempty fun d hd => ?_
  obtain ⟨m, hm, rfl⟩ := List.mem_map.mp hd
  rw [reads, common m hm]

variable (hash depth) in
/-- A get returns the common entry, and the client caches its clock. -/
theorem get_run (reliable : env.Reliable) (usable : Usable hash env alive members r key w.state)
    (attached : Attached members client) (attempts : Nat) (selections : List Int) :
    ∃ client' w', runBeside hash env (depth + 2) (get key attempts selections) client w =
        some (client', w', some (.success (e.getD (noValue, [])).1)) ∧
      SameView w.state w'.state ∧ stored w'.state = stored w.state ∧
      Attached {m | m ∈ quorum hash r alive key} client' ∧
      client'.stateMachine.getVersion key = (e.getD (noValue, [])).2 := by
  obtain ⟨client₁, w', hrun, view, same, attached', _⟩ := get_reconciles hash depth reliable usable
    attached attempts selections
  rw [getLatestData_of_common common usable.enough] at hrun
  exact ⟨change (.put key (e.getD (noValue, [])).1 (e.getD (noValue, [])).2) client₁, w', hrun,
    view, same, attached', getVersion_put _ _⟩

end CommonEntry

/-- A clock that can be stamped another time. -/
structure Stampable (version : Version) : Prop where
  distinct : Distinct version
  small : ∀ pair ∈ version, pair.2 < pair.2 + 1

theorem Stampable.takenOver {e : Option Data} (h : Stampable (versionOf e)) (value p : String) :
    TakenOver (value, updateVersion (versionOf e) p) e :=
  check_updateVersion h.distinct (Below.refl _) fun k hk => h.small (p, k) hk

/-- A put reads first. -/
theorem runBeside_put (value : String) (attempts : Nat) (inputs : Nat → RoundInput) (rounds : Nat)
    {client' : KeyValueStoreClient} {w' : Net} {result : String}
    (hget : runBeside hash env depth (get key attempts (inputs rounds).selections) client w =
      some (client', w', some (.success result))) :
    runBeside hash env depth (KeyValueStoreClient.put key value false attempts inputs rounds)
      client w = runBeside hash env depth (putRetry key value (attempts + 1)) client' w' := by
  rw [KeyValueStoreClient.put, if_pos rfl, runBeside_bind, getUntilSuccess, runBeside_bind, hget]
  rfl

variable (hash depth) in
/-- A put over the common entry. -/
theorem put_run (reliable : env.Reliable) (usable : Usable hash env alive members r key w.state)
    (attached : Attached members client) (common : Common w.state key (quorum hash r alive key) e)
    (stampable : Stampable (versionOf e)) (value : String) (attempts : Nat)
    (inputs : Nat → RoundInput) (rounds : Nat) :
    ∃ client' w' p, runBeside hash env (depth + 2)
        (KeyValueStoreClient.put key value false attempts inputs rounds) client w =
          some (client', w', some true) ∧
      SameView w.state w'.state ∧
      stored w'.state = written (quorum hash r alive key) key
        (value, updateVersion (versionOf e) p) (stored w.state) ∧
      Attached {m | m ∈ quorum hash r alive key} client' := by
  obtain ⟨client₁, w₁, hget, view, same, attached₁, hcached⟩ := get_run hash depth common reliable
    usable attached attempts (inputs rounds).selections
  have hversion : (e.getD (noValue, [])).2 = versionOf e := by
    cases e <;> rfl
  have willing : Willing client₁.assignedCoordinator key
      (value, updateVersion (versionOf e) client₁.assignedCoordinator) w₁.state
      (quorum hash r alive key) := by
    intro m hm
    rw [same, common m hm]
    exact Or.inr (stampable.takenOver value _)
  obtain ⟨client', w', hput, view', hstored, hassigned, hstubs, _⟩ := putRetry_run hash depth
    reliable (usable.of_view view) attached₁ (hcached.trans hversion) value willing attempts
  refine ⟨client', w', client₁.assignedCoordinator, (runBeside_put value attempts inputs rounds
    hget).trans hput, view.trans view', by rw [hstored, same], ?_⟩
  rw [Attached, hassigned, hstubs]
  exact attached₁

end Clients

end ClientOperations
