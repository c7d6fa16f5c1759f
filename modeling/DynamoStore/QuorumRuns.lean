import DynamoStore.KeyTransfers
import DynamoStore.RingOwners
import Mathlib.Data.List.Find

/-!
# Client requests on a cluster that agrees on who is alive

When all nodes find the same servers alive, a get reads the first `REPLICA_N` of
the replica servers that are alive, and a put tries all of these. A put goes on to
further servers after a failure, so it can also write where the get does not read.
-/

namespace QuorumRuns

open RpcPrograms GossipNode StateMachine
open RingOwners ClusterStores HandlerRuns KeyTransfers

/-- Whenever node `self` looks, it finds the servers in `alive` alive. It never looks
for itself before it reads or writes. -/
def SeesAlive (env : Env String Int64) (alive : String → Bool) (self : String)
    (node : GossipNode) : Prop :=
  alive self = true ∧ ∀ m, m ≠ self →
    ∀ i, durationMs (env.now i) (node.heartbeat m) < checkAliveInterval ↔ alive m = true

/-- The stores may differ, and heartbeats that were touched. -/
structure SameView (state state' : String → GossipNode) : Prop where
  ring : ∀ n, (state' n).ring = (state n).ring
  stubs : ∀ n, (state' n).stubs = (state n).stubs
  heartbeat : ∀ n m, (state' n).heartbeat m = (state n).heartbeat m

namespace SameView

variable {state state' state'' : String → GossipNode}

theorem refl (state : String → GossipNode) : SameView state state :=
  ⟨fun _ => rfl, fun _ => rfl, fun _ _ => rfl⟩

theorem trans (h : SameView state state') (h' : SameView state' state'') :
    SameView state state'' :=
  ⟨fun n => (h'.ring n).trans (h.ring n), fun n => (h'.stubs n).trans (h.stubs n),
    fun n m => (h'.heartbeat n m).trans (h.heartbeat n m)⟩

theorem seesAlive {env : Env String Int64} {alive : String → Bool} {self : String}
    (h : SameView state state') (sees : SeesAlive env alive self (state self)) :
    SeesAlive env alive self (state' self) := by
  refine ⟨sees.1, fun m hm i => ?_⟩
  rw [h.heartbeat self m]
  exact sees.2 m hm i

theorem update (n : String) {node : GossipNode} (ring : node.ring = (state n).ring)
    (stubs : node.stubs = (state n).stubs)
    (heartbeat : ∀ m, node.heartbeat m = (state n).heartbeat m) :
    SameView state (Function.update state n node) where
  ring m := by
    by_cases h : m = n
    · subst h
      simpa using ring
    · simp [h]
  stubs m := by
    by_cases h : m = n
    · subst h
      simpa using stubs
    · simp [h]
  heartbeat m := by
    by_cases h : m = n
    · subst h
      simpa using heartbeat
    · simp [h]

end SameView

variable {hash : String → UInt64} {env : Env String Int64} {depth : Nat} {self key : String}
variable {w : Net} {alive : String → Bool}

theorem heartbeat_touch (node : GossipNode) (nodeId m : String) :
    (apply hash (.touchHeartbeat nodeId) node).heartbeat m = node.heartbeat m := by
  by_cases h : m = nodeId
  · subst h
    simp [heartbeat, apply]
  · simp [heartbeat, apply, AList.lookup_insert_ne h]

/-- The world after a heartbeat was looked up. -/
def look (hash : String → UInt64) (n nodeId : String) (w : Net) : Net :=
  act hash w.next n (.touchHeartbeat nodeId)

variable (hash self w) in
theorem sameView_look (nodeId : String) : SameView w.state (look hash self nodeId w).state :=
  SameView.update self rfl rfl fun m => heartbeat_touch _ nodeId m

theorem stored_look (nodeId : String) :
    stored (look hash self nodeId w).state = stored w.state :=
  stored_of_keepsStore _ self (a := .touchHeartbeat nodeId) trivial

variable (hash env depth self w) in
theorem recentHeartbeat_run (peerServer : String) :
    exec hash env depth self (recentHeartbeat peerServer) w =
      some (look hash self peerServer w, decide (durationMs (env.now w.tick)
        ((w.state self).heartbeat peerServer) < checkAliveInterval)) := by
  simp [recentHeartbeat, exec_bind, heartbeat_touch, look]
  rfl

variable (hash env depth self w alive) in
theorem exec_recentHeartbeat (peerServer : String) :
    ∃ recent, exec hash env depth self (recentHeartbeat peerServer) w =
        some (look hash self peerServer w, recent) ∧
      (SeesAlive env alive self (w.state self) → peerServer ≠ self →
        recent = alive peerServer) := by
  refine ⟨_, recentHeartbeat_run hash env depth self w peerServer, fun sees hne => ?_⟩
  rw [Bool.eq_iff_iff, decide_eq_true_eq]
  exact sees.2 peerServer hne w.tick

variable (hash depth) in
/-- The first candidate that is alive; a node may miss itself here. -/
theorem assignedCoordinator_run (sees : SeesAlive env alive self (w.state self))
    (quorumMember : List String) (nodup : quorumMember.Nodup) :
    ∃ w' recent, exec hash env depth self (assignedCoordinator quorumMember) w =
        some (w', (quorumMember.find? fun m => if m = self then recent else alive m).getD "") ∧
      SameView w.state w'.state ∧ stored w'.state = stored w.state := by
  induction quorumMember generalizing w with
  | nil => exact ⟨w, true, rfl, SameView.refl _, rfl⟩
  | cons candidate quorumMember ih =>
    obtain ⟨hcandidate, nodup⟩ := List.nodup_cons.mp nodup
    have hview := sameView_look hash self w candidate
    obtain ⟨found, hlook, hfound⟩ := exec_recentHeartbeat hash env depth self w alive
      candidate
    rw [assignedCoordinator, exec_bind, hlook, Option.bind_some]
    cases found with
    | true =>
      refine ⟨look hash self candidate w, true, ?_, hview, stored_look candidate⟩
      by_cases hself : candidate = self
      · simp [hself]
      · simp [hself, ← hfound sees hself]
    | false =>
      obtain ⟨w', recent, hrun, hview', hstored⟩ := ih (hview.seesAlive sees) nodup
      by_cases hself : candidate = self
      · refine ⟨w', false, ?_, hview.trans hview', hstored.trans (stored_look candidate)⟩
        have hrest : ∀ m ∈ quorumMember, (if m = self then recent else alive m) =
            if m = self then false else alive m := by
          intro m hm
          have hne : m ≠ self := fun h => hcandidate (hself ▸ h ▸ hm)
          rw [if_neg hne, if_neg hne]
        rw [List.find?_cons_of_neg (by simp [hself]), ← List.find?_congr hrest]
        simpa using hrun
      · refine ⟨w', recent, ?_, hview.trans hview', hstored.trans (stored_look candidate)⟩
        rw [List.find?_cons_of_neg (by simp [hself, ← hfound sees hself])]
        simpa using hrun

/-- What a read of a key on a node reports. -/
def reads (state : String → GossipNode) (key m : String) : Data :=
  (stored state m key).getD (noValue, [])

theorem readData_eq_reads (state : String → GossipNode) (m : String) :
    (state m).stateMachine.readData key = reads state key m :=
  readData_eq _

/-- A node has the stubs for the servers that it would call. -/
def Reaches (alive : String → Bool) (servers : List String) (self : String)
    (state : String → GossipNode) : Prop :=
  ∀ m ∈ servers, alive m = true → m ≠ self → m ∈ (state self).stubs

theorem SameView.reaches {servers : List String} {state state' : String → GossipNode}
    (view : SameView state state') (h : Reaches alive servers self state) :
    Reaches alive servers self state' := by
  intro m hm halive hne
  rw [view.stubs self]
  exact h m hm halive hne

theorem Reaches.tail {m : String} {servers : List String} {state state' : String → GossipNode}
    (view : SameView state state') (h : Reaches alive (m :: servers) self state) :
    Reaches alive servers self state' :=
  view.reaches fun m' hm' => h m' (List.mem_cons_of_mem _ hm')

section Get

theorem exec_peerGet (reliable : env.Reliable) (peerServer : String) :
    exec hash env (depth + 1) self (peerGet peerServer key) w =
      if peerServer ∈ (w.state self).stubs then some (w.next, some (reads w.state key peerServer))
      else none := by
  by_cases h : peerServer ∈ (w.state self).stubs
  · simp only [peerGet, exec_bind, exec_read, Option.bind_some, if_pos h, exec_send,
      deliver_reliable reliable, serveOn_succ, serve, servePeerGet, exec_pure, Option.map_some]
    rw [World.next_state, readData_eq_reads]
  · simp only [peerGet, exec_bind, exec_read, Option.bind_some, if_neg h]
    rfl

/-- The servers that a loop reads, or tries to write, before it may stop. -/
def contacted (alive : String → Bool) (servers : List String) (tryCnt : Nat) : List String :=
  (servers.filter alive).take (replicaN - tryCnt)

theorem contacted_of_not_alive {m : String} (h : alive m = false) (servers : List String)
    (tryCnt : Nat) : contacted alive (m :: servers) tryCnt = contacted alive servers tryCnt := by
  simp [contacted, h]

theorem contacted_of_alive {m : String} (h : alive m = true) (servers : List String)
    {tryCnt : Nat} (htry : tryCnt < replicaN) :
    contacted alive (m :: servers) tryCnt = m :: contacted alive servers (tryCnt + 1) := by
  obtain ⟨k, hk⟩ : ∃ k, replicaN - tryCnt = k + 1 := ⟨replicaN - tryCnt - 1, by omega⟩
  have hk' : replicaN - (tryCnt + 1) = k := by omega
  simp [contacted, h, hk, hk']

/-- The get loop crashes on a missing stub, or it reads the servers contacted. -/
def GetOutcome (alive : String → Bool) (self key : String) (state : String → GossipNode)
    (servers : List String) (successCnt tryCnt : Nat) (results : List Data)
    (o : Option (Net × Nat × List Data)) : Prop :=
  (o = none ∧ ¬ Reaches alive servers self state) ∨
    ∃ w', o = some (w', successCnt + (contacted alive servers tryCnt).length,
        results ++ (contacted alive servers tryCnt).map (reads state key)) ∧
      SameView state w'.state ∧ stored w'.state = stored state

/-- The loop after one more server was read. -/
theorem GetOutcome.cons {servers : List String} {successCnt tryCnt : Nat} {results : List Data}
    {w₁ : Net} {peerServer : String} (halive : alive peerServer = true)
    (htry : tryCnt < replicaN) (view : SameView w.state w₁.state)
    (same : stored w₁.state = stored w.state)
    (rest : tryCnt + 1 < replicaN → GetOutcome alive self key w₁.state servers (successCnt + 1)
      (tryCnt + 1) (results ++ [reads w.state key peerServer])
      (exec hash env depth self (clientGetLoop self key servers (successCnt + 1) (tryCnt + 1)
        (results ++ [reads w.state key peerServer])) w₁)) :
    GetOutcome alive self key w.state (peerServer :: servers) successCnt tryCnt results
      (exec hash env depth self (if tryCnt + 1 = replicaN then
        return (successCnt + 1, results ++ [reads w.state key peerServer])
        else clientGetLoop self key servers (successCnt + 1) (tryCnt + 1)
          (results ++ [reads w.state key peerServer])) w₁) := by
  have hreads : reads w₁.state key = reads w.state key := by
    funext m
    rw [reads, reads, same]
  unfold GetOutcome
  rw [contacted_of_alive halive servers htry]
  by_cases hlast : tryCnt + 1 = replicaN
  · refine Or.inr ⟨w₁, ?_, view, same⟩
    rw [if_pos hlast]
    simp [contacted, hlast]
  · rw [if_neg hlast]
    rcases rest (by omega) with ⟨hcrash, hreaches⟩ | ⟨w', hrun, view', same'⟩
    · exact Or.inl ⟨hcrash, fun h => hreaches (h.tail view)⟩
    · refine Or.inr ⟨w', ?_, view.trans view', same'.trans same⟩
      rw [hrun, hreads]
      simp [Nat.add_assoc, Nat.add_comm 1]

theorem GetOutcome.skip {servers : List String} {successCnt tryCnt : Nat} {results : List Data}
    {w₁ : Net} {peerServer : String} {o : Option (Net × Nat × List Data)}
    (halive : alive peerServer = false) (view : SameView w.state w₁.state)
    (same : stored w₁.state = stored w.state)
    (rest : GetOutcome alive self key w₁.state servers successCnt tryCnt results o) :
    GetOutcome alive self key w.state (peerServer :: servers) successCnt tryCnt results o := by
  have hreads : reads w₁.state key = reads w.state key := by
    funext m
    rw [reads, reads, same]
  unfold GetOutcome at rest ⊢
  rw [contacted_of_not_alive halive]
  rcases rest with ⟨hcrash, hreaches⟩ | ⟨w', hrun, view', same'⟩
  · exact Or.inl ⟨hcrash, fun h => hreaches (h.tail view)⟩
  · rw [hreads] at hrun
    exact Or.inr ⟨w', hrun, view.trans view', same'.trans same⟩

variable (hash depth key) in
theorem clientGetLoop_run (reliable : env.Reliable) (sees : SeesAlive env alive self (w.state self))
    (replicaServers : List String) (successCnt tryCnt : Nat)
    (htry : tryCnt < replicaN) (results : List Data) :
    GetOutcome alive self key w.state replicaServers successCnt tryCnt results
      (exec hash env (depth + 1) self
        (clientGetLoop self key replicaServers successCnt tryCnt results) w) := by
  induction replicaServers generalizing w successCnt tryCnt results with
  | nil =>
    refine Or.inr ⟨w, ?_, SameView.refl _, rfl⟩
    simp [clientGetLoop, contacted]
  | cons peerServer replicaServers ih =>
    rw [clientGetLoop]
    by_cases hown : peerServer = self
    · subst hown
      rw [if_pos rfl, exec_bind, exec_read, Option.bind_some]
      simp only [readData_eq_reads]
      exact GetOutcome.cons sees.1 htry (SameView.refl _) rfl
        fun hmore => ih sees _ _ hmore _
    · have hview := sameView_look hash self w peerServer
      obtain ⟨found, hlook, hfound⟩ := exec_recentHeartbeat hash env (depth + 1) self w alive
        peerServer
      have halive := (hfound sees hown).symm
      rw [if_neg hown, exec_bind, hlook, Option.bind_some]
      cases found with
      | false =>
        exact GetOutcome.skip halive hview (stored_look peerServer)
          (ih (hview.seesAlive sees) _ _ htry _)
      | true =>
        have hreads : reads (look hash self peerServer w).state key peerServer =
            reads w.state key peerServer := by
          rw [reads, reads, stored_look]
        simp only [if_true, exec_bind, exec_peerGet reliable, hreads]
        by_cases hstub : peerServer ∈ (w.state self).stubs
        · rw [if_pos (show peerServer ∈ ((look hash self peerServer w).state self).stubs by
            rw [hview.stubs self]; exact hstub), Option.bind_some]
          exact GetOutcome.cons halive htry
            (show SameView w.state (look hash self peerServer w).next.state from hview)
            (stored_look peerServer) fun hmore =>
              ih (w := (look hash self peerServer w).next) (hview.seesAlive sees) _ _ hmore _
        · rw [if_neg (show ¬ peerServer ∈ ((look hash self peerServer w).state self).stubs by
            rw [hview.stubs self]; exact hstub)]
          exact Or.inl ⟨rfl, fun h => hstub (h peerServer List.mem_cons_self halive hown)⟩

/-- The servers that a client request looks at. -/
abbrev candidates (hash : String → UInt64) (r : ConsistentHashingRing) (key : String) :
    List String :=
  r.getReplicasNodes hash key (2 * replicaN : Nat)

/-- The first `REPLICA_N` of them that are alive. -/
abbrev quorum (hash : String → UInt64) (r : ConsistentHashingRing) (alive : String → Bool)
    (key : String) : List String :=
  contacted alive (candidates hash r key) 0

variable {r : ConsistentHashingRing}

variable (hash depth key) in
/-- A get answers with the latest data of the quorum. -/
theorem clientGet_run (reliable : env.Reliable) (sees : SeesAlive env alive self (w.state self))
    (ring : (w.state self).ring = r) :
    (serveOn hash env (depth + 2) self (.clientGet key) w = none ∧
        ¬ Reaches alive (candidates hash r key) self w.state) ∨
      ∃ w' recent, serveOn hash env (depth + 2) self (.clientGet key) w =
          some (w', if rCount ≤ (quorum hash r alive key).length then
            .clientGet (getLatestData ((quorum hash r alive key).map (reads w.state key)))
              (((candidates hash r key).find? fun m =>
                if m = self then recent else alive m).getD "")
            else .cancelled) ∧
        SameView w.state w'.state ∧ stored w'.state = stored w.state := by
  rw [serveOn_succ, serve, serveClientGet, exec_bind, exec_read, Option.bind_some, ring, exec_bind]
  rcases clientGetLoop_run hash depth key reliable sees
    (candidates hash r key) 0 0 (by decide) [] with ⟨hcrash, hreaches⟩ | ⟨w₁, hrun, view, same⟩
  · rw [hcrash]
    exact Or.inl ⟨rfl, hreaches⟩
  · obtain ⟨w₂, recent, hcoordinator, view', same'⟩ := assignedCoordinator_run hash
      (depth + 1) (view.seesAlive sees) (candidates hash r key)
      (nodup_getReplicasNodes _)
    refine Or.inr ⟨w₂, recent, ?_, view.trans view', same'.trans same⟩
    rw [hrun]
    simp only [Option.bind_some, exec_bind, hcoordinator, Nat.zero_add, List.nil_append]
    split <;> rfl

variable (hash depth key) in
/-- With all stubs and a quorum, a get is answered with data. -/
theorem clientGet_answered (reliable : env.Reliable)
    (sees : SeesAlive env alive self (w.state self)) (ring : (w.state self).ring = r)
    (reaches : Reaches alive (candidates hash r key) self w.state)
    (enough : rCount ≤ (quorum hash r alive key).length) :
    ∃ w' recent, serveOn hash env (depth + 2) self (.clientGet key) w =
        some (w', .clientGet (getLatestData ((quorum hash r alive key).map (reads w.state key)))
          (((candidates hash r key).find? fun m =>
            if m = self then recent else alive m).getD "")) ∧
      SameView w.state w'.state ∧ stored w'.state = stored w.state := by
  rcases clientGet_run hash depth key reliable sees ring with
    ⟨_, hcrash⟩ | ⟨w', recent, hget, view, same⟩
  · exact absurd reaches hcrash
  · rw [if_pos enough] at hget
    exact ⟨w', recent, hget, view, same⟩

end Get

section Put

variable {outcome : String → Fate} {d : Data}

/-- What a server stores after the coordinator `self` has written, or tried to. -/
def landing (outcome : String → Fate) (self key : String) (d : Data)
    (state : String → GossipNode) (m : String) : Option Data :=
  if m = self ∨ (outcome m ≠ .requestLost ∧ TakenOver d (stored state m key)) then some d
  else stored state m key

/-- The put loop crashes on a missing stub, or it tries at least the servers contacted. -/
def PutOutcome (alive : String → Bool) (outcome : String → Fate) (self key : String) (d : Data)
    (state : String → GossipNode) (servers : List String) (tryCnt : Nat)
    (o : Option (Net × Nat)) : Prop :=
  (o = none ∧ ¬ Reaches alive servers self state) ∨
    ∃ w' successCnt, o = some (w', successCnt) ∧ SameView state w'.state ∧
      (∀ m key', m ∉ servers ∨ key' ≠ key → stored w'.state m key' = stored state m key') ∧
      ∀ m ∈ contacted alive servers tryCnt,
        stored w'.state m key = landing outcome self key d state m

theorem putOutcome_stop (servers : List String) {tryCnt : Nat} (h : replicaN ≤ tryCnt)
    (successCnt : Nat) :
    PutOutcome alive outcome self key d w.state servers tryCnt (some (w, successCnt)) := by
  refine Or.inr ⟨w, successCnt, rfl, SameView.refl _, fun _ _ _ => rfl, fun m hm => ?_⟩
  rw [contacted, Nat.sub_eq_zero_of_le h, List.take_zero] at hm
  exact absurd hm List.not_mem_nil

theorem PutOutcome.skip {servers : List String} {tryCnt : Nat} {w₁ : Net} {m : String}
    {o : Option (Net × Nat)} (halive : alive m = false) (view : SameView w.state w₁.state)
    (same : stored w₁.state = stored w.state)
    (rest : PutOutcome alive outcome self key d w₁.state servers tryCnt o) :
    PutOutcome alive outcome self key d w.state (m :: servers) tryCnt o := by
  rcases rest with ⟨hcrash, hreaches⟩ | ⟨w', successCnt, hrun, view', others, landed⟩
  · exact Or.inl ⟨hcrash, fun h => hreaches (h.tail view)⟩
  · refine Or.inr ⟨w', successCnt, hrun, view.trans view', ?_, ?_⟩
    · intro n key' h
      rw [others n key' (h.imp_left fun hn hmem => hn (List.mem_cons_of_mem _ hmem)), same]
    · intro n hn
      rw [contacted_of_not_alive halive] at hn
      rw [landed n hn, landing, landing, same]

/-- The loop after one more server was tried. -/
theorem PutOutcome.cons {servers : List String} {tryCnt : Nat} {w₁ : Net} {m : String}
    {o : Option (Net × Nat)} (hm : m ∉ servers) (halive : alive m = true)
    (view : SameView w.state w₁.state)
    (written : stored w₁.state m key = landing outcome self key d w.state m)
    (others : ∀ n key', n ≠ m ∨ key' ≠ key → stored w₁.state n key' = stored w.state n key')
    (rest : PutOutcome alive outcome self key d w₁.state servers (tryCnt + 1) o) :
    PutOutcome alive outcome self key d w.state (m :: servers) tryCnt o := by
  rcases rest with ⟨hcrash, hreaches⟩ | ⟨w', successCnt, hrun, view', others', landed⟩
  · exact Or.inl ⟨hcrash, fun h => hreaches (h.tail view)⟩
  · refine Or.inr ⟨w', successCnt, hrun, view.trans view', ?_, ?_⟩
    · intro n key' h
      rw [others' n key' (h.imp_left fun hn hmem => hn (List.mem_cons_of_mem _ hmem)),
        others n key' (h.imp_left fun hn heq => hn (heq ▸ List.mem_cons_self))]
    · intro n hn
      have hcases : n = m ∨ n ∈ contacted alive servers (tryCnt + 1) := by
        by_cases htry : tryCnt < replicaN
        · rw [contacted_of_alive halive servers htry] at hn
          exact List.mem_cons.mp hn
        · rw [contacted, Nat.sub_eq_zero_of_le (by omega), List.take_zero] at hn
          exact absurd hn List.not_mem_nil
      rcases hcases with rfl | hrest
      · rw [others' n key (Or.inl hm), written]
      · have hmem : n ∈ servers := (List.mem_filter.mp (List.mem_of_mem_take hrest)).1
        have hne : n ≠ m := fun heq => hm (heq ▸ hmem)
        rw [landed n hrest, landing, landing, others n key (Or.inl hne)]

variable (hash w) in
theorem sameView_put (n key value : String) (version : Version) :
    SameView w.state (act hash w n (.put key value version)).state :=
  SameView.update n rfl rfl fun _ => rfl

theorem receive_view (dst : String) (d : Data) :
    SameView w.state (receive hash dst key d w).state := by
  rw [receive]
  split
  · exact sameView_put hash w dst key d.1 d.2
  · exact SameView.refl _

theorem stored_receive (dst : String) (d : Data) (n key' : String) :
    stored (receive hash dst key d w).state n key' =
      if (n = dst ∧ key' = key) ∧ TakenOver d (stored w.state dst key) then some d
      else stored w.state n key' := by
  rw [receive]
  by_cases haccepts : Accepts (w.state dst) key d
  · rw [if_pos haccepts, World.modify_state, stored_put]
    simp only [accepts_iff_takes.mp haccepts, and_true]
  · have hnot : ¬ TakenOver d (stored w.state dst key) := fun h =>
      haccepts (accepts_iff_takes.mpr h)
    rw [if_neg haccepts, if_neg fun h => hnot h.2]

variable (hash key w) in
/-- One call of `peerPut`, by what happens to it. -/
theorem sendPut_outcome (fates : ∀ i dst, env.fate i dst = outcome dst) {dst : String}
    (hne : dst ≠ self) (d : Data) :
    SameView w.state (sendPut hash env dst key d w).1.state ∧
      stored (sendPut hash env dst key d w).1.state dst key =
        landing outcome self key d w.state dst ∧
      ∀ n key', n ≠ dst ∨ key' ≠ key →
        stored (sendPut hash env dst key d w).1.state n key' = stored w.state n key' := by
  have received : outcome dst ≠ .requestLost →
      stored (receive hash dst key d w.next).state dst key =
        landing outcome self key d w.state dst ∧
      ∀ n key', n ≠ dst ∨ key' ≠ key →
        stored (receive hash dst key d w.next).state n key' = stored w.state n key' := by
    intro harrives
    refine ⟨?_, fun n key' h => ?_⟩
    · rw [stored_receive, landing]
      simp [hne, harrives]
    · rw [stored_receive, if_neg fun h' => h.elim (fun hn => hn h'.1.1) fun hk => hk h'.1.2]
      rfl
  rw [sendPut, fates]
  cases hfate : outcome dst with
  | delivered => exact ⟨receive_view (w := w.next) dst d, received (by simp [hfate])⟩
  | replyLost => exact ⟨receive_view (w := w.next) dst d, received (by simp [hfate])⟩
  | requestLost =>
    refine ⟨SameView.refl _, ?_, fun _ _ _ => rfl⟩
    rw [landing]
    simp [hne, hfate]

theorem exec_peerPut_none {dst value : String} {version : Version}
    (hstub : dst ∉ (w.state self).stubs) :
    exec hash env depth self (peerPut dst key value version) w = none := by
  simp only [peerPut, exec_bind, exec_read, Option.bind_some, if_neg hstub]
  rfl

variable (hash depth key) in
theorem clientPutLoop_run (fates : ∀ i dst, env.fate i dst = outcome dst)
    (sees : SeesAlive env alive self (w.state self)) (value : String)
    (newVersion : Version) (replicaServers : List String) (nodup : replicaServers.Nodup)
    (successCnt tryCnt : Nat) :
    PutOutcome alive outcome self key (value, newVersion) w.state replicaServers tryCnt
      (exec hash env (depth + 1) self
        (clientPutLoop self key value newVersion replicaServers successCnt tryCnt) w) := by
  induction replicaServers generalizing w successCnt tryCnt with
  | nil =>
    refine Or.inr ⟨w, successCnt, rfl, SameView.refl _, fun _ _ _ => rfl, fun m hm => ?_⟩
    simp [contacted] at hm
  | cons peerServer replicaServers ih =>
    obtain ⟨hpeer, nodup⟩ := List.nodup_cons.mp nodup
    rw [clientPutLoop]
    by_cases hown : peerServer = self
    · subst hown
      rw [if_pos rfl, exec_bind, exec_perform, Option.bind_some]
      have hview := sameView_put hash w peerServer key value newVersion
      refine PutOutcome.cons hpeer sees.1 hview ?_ ?_ ?_
      · rw [World.modify_state, stored_put, landing]
        simp
      · intro n key' h
        rw [World.modify_state, stored_put,
          if_neg fun h' => h.elim (fun hn => hn h'.1) fun hk => hk h'.2]
      · by_cases hlast : tryCnt + 1 = replicaN
        · rw [if_pos hlast]
          exact putOutcome_stop replicaServers (by omega) _
        · rw [if_neg hlast]
          exact ih (hview.seesAlive sees) nodup _ _
    · have hview := sameView_look hash self w peerServer
      obtain ⟨found, hlook, hfound⟩ := exec_recentHeartbeat hash env (depth + 1) self w alive
        peerServer
      have halive := (hfound sees hown).symm
      rw [if_neg hown, exec_bind, hlook, Option.bind_some]
      cases found with
      | false =>
        exact PutOutcome.skip halive hview (stored_look peerServer)
          (ih (hview.seesAlive sees) nodup _ _)
      | true =>
        by_cases hstub : peerServer ∈ (w.state self).stubs
        · have hstub' : peerServer ∈ ((look hash self peerServer w).state self).stubs := by
            rw [hview.stubs self]
            exact hstub
          obtain ⟨hview', hlanded, hothers⟩ := sendPut_outcome hash key
            (look hash self peerServer w) fates hown (value, newVersion)
          simp only [if_true, exec_bind, exec_peerPut peerServer value newVersion hstub',
            Option.bind_some]
          refine PutOutcome.cons hpeer halive (hview.trans hview') ?_ ?_ ?_
          · rw [hlanded, landing, landing, stored_look]
          · intro n key' h
            rw [hothers n key' h, stored_look]
          · have hrest := ih ((hview.trans hview').seesAlive sees) nodup
            split
            · split
              · rename_i hlast
                exact putOutcome_stop replicaServers (by omega) _
              · exact hrest _ _
            · exact hrest _ _
        · have hstub' : peerServer ∉ ((look hash self peerServer w).state self).stubs := by
            rw [hview.stubs self]
            exact hstub
          simp only [if_true, exec_bind, exec_peerPut_none hstub']
          exact Or.inl ⟨rfl, fun h => hstub (h peerServer List.mem_cons_self halive hown)⟩

variable {r : ConsistentHashingRing}

variable (depth) in
/-- A node that is not a candidate writes nothing. -/
theorem clientPut_refused (sees : SeesAlive env alive self (w.state self))
    (ring : (w.state self).ring = r) (hself : self ∉ candidates hash r key) (data : Data) :
    ∃ w' coordinator, serveOn hash env (depth + 1) self (.clientPut key data) w =
      some (w', .clientPut .notCoordinator coordinator) ∧ stored w'.state = stored w.state := by
  obtain ⟨w', recent, hcoordinator, _, same⟩ := assignedCoordinator_run hash
    depth sees (candidates hash r key) (nodup_getReplicasNodes _)
  have hcheck : isCoordinator self (candidates hash r key) = false := by
    rw [isCoordinator, List.any_eq_false]
    intro m hm
    have hne : m ≠ self := fun h => hself (h ▸ hm)
    simpa using hne
  refine ⟨w', ((candidates hash r key).find? fun m => if m = self then recent else
    alive m).getD "", ?_, same⟩
  rw [serveOn_succ, serve, serveClientPut, exec_bind, exec_read, Option.bind_some, ring, exec_bind,
    hcoordinator, Option.bind_some, if_pos hcheck]
  rfl

variable (hash depth key) in
/-- A put through one of the candidates stores the entry wherever it lands. -/
theorem clientPut_run (fates : ∀ i dst, env.fate i dst = outcome dst)
    (sees : SeesAlive env alive self (w.state self)) (ring : (w.state self).ring = r)
    (hself : self ∈ candidates hash r key) (value : String) (context : Version) :
    (serveOn hash env (depth + 2) self (.clientPut key (value, context)) w = none ∧
        ¬ Reaches alive (candidates hash r key) self w.state) ∨
      ∃ w' ret coordinator, serveOn hash env (depth + 2) self (.clientPut key (value, context)) w =
          some (w', .clientPut ret coordinator) ∧ SameView w.state w'.state ∧
        ∀ m ∈ quorum hash r alive key, stored w'.state m key =
          landing outcome self key (value, updateVersion context self) w.state m := by
  obtain ⟨w₁, recent, hcoordinator, view, same⟩ := assignedCoordinator_run hash
    (depth + 1) sees (candidates hash r key) (nodup_getReplicasNodes _)
  have hcheck : ¬ isCoordinator self (candidates hash r key) = false := by
    simpa [isCoordinator] using hself
  rw [serveOn_succ, serve, serveClientPut, exec_bind, exec_read, Option.bind_some, ring, exec_bind,
    hcoordinator, Option.bind_some, if_neg hcheck, exec_bind]
  rcases clientPutLoop_run hash depth key fates
    (view.seesAlive sees) value (updateVersion context self) (candidates hash r key)
    (nodup_getReplicasNodes _) 0 0 with
    ⟨hcrash, hreaches⟩ | ⟨w', successCnt, hrun, view', _, landed⟩
  · exact Or.inl ⟨by rw [hcrash]; rfl, fun h => hreaches (view.reaches h)⟩
  · refine Or.inr ⟨w', if wCount ≤ successCnt then .ok else .failed, _, by rw [hrun]; rfl,
      view.trans view', fun m hm => ?_⟩
    rw [landed m hm, landing, landing, same]

variable (hash depth key) in
/-- With all stubs, a put is answered. -/
theorem clientPut_answered (fates : ∀ i dst, env.fate i dst = outcome dst)
    (sees : SeesAlive env alive self (w.state self)) (ring : (w.state self).ring = r)
    (hself : self ∈ candidates hash r key)
    (reaches : Reaches alive (candidates hash r key) self w.state) (value : String)
    (context : Version) :
    ∃ w' ret coordinator, serveOn hash env (depth + 2) self (.clientPut key (value, context)) w =
        some (w', .clientPut ret coordinator) ∧ SameView w.state w'.state ∧
      ∀ m ∈ quorum hash r alive key, stored w'.state m key =
        landing outcome self key (value, updateVersion context self) w.state m := by
  rcases clientPut_run hash depth key fates sees ring hself value context with
    ⟨_, hcrash⟩ | hanswered
  · exact absurd reaches hcrash
  · exact hanswered

end Put

/-- The nodes share a ring, and find the same servers alive. -/
def Agree (env : Env String Int64) (alive : String → Bool) (members : Set String)
    (r : ConsistentHashingRing) (state : String → GossipNode) : Prop :=
  ∀ n ∈ members, (state n).ring = r ∧ SeesAlive env alive n (state n)

theorem SameView.agree {members : Set String} {r : ConsistentHashingRing}
    {state state' : String → GossipNode} (view : SameView state state')
    (h : Agree env alive members r state) : Agree env alive members r state' :=
  fun n hn => ⟨(view.ring n).trans (h n hn).1, view.seesAlive (h n hn).2⟩

theorem agree_holding (members holders : List String) (key : String) (d : Data) :
    Agree calmEnv (fun _ => true) {n | n ∈ members} (ringWith hash members)
      (holding hash members holders key d) := by
  intro n hn
  refine ⟨if_pos hn, rfl, fun m _ _ => ?_⟩
  simp only [iff_true]
  exact show durationMs 0 0 < checkAliveInterval by decide

theorem reaches_holding {members holders : List String} {key : String} {d : Data}
    {servers : List String} (inside : ∀ m ∈ servers, m ∈ members) {n : String} (hn : n ∈ members) :
    Reaches (fun _ => true) servers n (holding hash members holders key d) :=
  fun m hm _ hne => mem_holding_stubs.mpr ⟨hn, inside m hm, hne⟩

end QuorumRuns
