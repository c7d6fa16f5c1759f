import DynamoStore.ExactReplicas
import DynamoStore.RingAgreement
import DynamoStore.SequentialStore

/-!
# One map while servers join and leave

The admin brings servers in and takes them out, between the requests of the clients. The
store goes on being one map: keys move with the replicas, so a get answers with the last
put even when none of the servers that took that put is left. This needs that the members
are alive, that no message is lost, that a server joins with nothing of its own, and that
keys are only stored while there are at least `REPLICA_N` members whenever one joins:
with fewer members nobody is displaced, and a new replica is handed nothing.
-/

namespace ElasticStore

open RpcPrograms SequentialObjects GossipNode StateMachine
open RingOwners ClusterStores HandlerRuns KeyTransfers ReplicaSets QuorumRuns LeaveTransfers
open ClientOperations SequentialStore RingAgreement ExactReplicas

variable {hash : String → UInt64} {env : Env String Int64} {config : List String} {v : Nat}
variable {admin : Admin} {w : Net} {x : String}

/-- There are so many members. -/
def AtLeast (n : Nat) (admin : Admin) : Prop :=
  ∃ l : List String, l.Nodup ∧ l.length = n ∧ ∀ y ∈ l, admin.MarkedAlive y

/-- A server that brings nothing along: no keys, and no nodes on its ring. -/
structure Blank (v : Nat) (node : GossipNode) : Prop where
  ring : node.ring = .init v
  store : ∀ key, node.stateMachine.entry key = none

/-- When a call may come. A request goes to a member, and all members find each other
alive. A server that joins is blank, and a server that leaves is not the last one. -/
def MayHappen (config : List String) (v : Nat) (s : Deployment) (e : Event) : Prop :=
  match e.call with
  | .get client .. | .put client .. =>
    e.env.Reliable ∧ AtLeast rCount s.admin ∧
      Attached {y | s.admin.MarkedAlive y} (s.clients client) ∧
      ∃ alive : String → Bool, (∀ y, s.admin.MarkedAlive y → alive y = true) ∧
        ∀ y, s.admin.MarkedAlive y → SeesAlive e.env alive y (s.net.state y)
  | .turn _ => True
  | .command addr cmd => e.env.Reliable ∧ addr ∈ config ∧
    ((cmd = "JoinNetwork" ∧ ¬ s.admin.MarkedAlive addr ∧ Blank v (s.net.state addr) ∧
        (AtLeast replicaN s.admin ∨
          ∀ y, s.admin.MarkedAlive y → ∀ key, stored s.net.state y key = none)) ∨
      (cmd = "LeaveNetwork" ∧ s.admin.MarkedAlive addr ∧ ∃ y, y ≠ addr ∧ s.admin.MarkedAlive y))

section Commands

theorem cmd_join_served (reliable : env.Reliable) (hx : x ∈ admin.serverStatus) {w' : Net}
    {admin' : Admin} {answered : Bool}
    (h : admin.cmd hash env 3 x "JoinNetwork" w = some (w', admin', answered)) :
    serveOn hash env 3 x (.adminCmd "JoinNetwork" (admin.aliveServers env w.tick)) w.next.next =
      some (w', .adminCmd true) := by
  obtain ⟨w₁, hrun, _⟩ := JoinTransfers.adminJoin_run hash 0 w.next.next reliable x
    (admin.aliveServers env w.tick)
  rw [Nat.zero_add] at hrun
  rw [Admin.cmd, if_neg (by simp [hx, Admin.enumCmd])] at h
  simp only [deliver_reliable reliable, if_true, hrun, Option.map_some, Option.some.injEq,
    Prod.mk.injEq] at h
  rw [hrun, ← h.1]

/-- What a leave does to the stores. -/
theorem cmd_leave_moves (reliable : env.Reliable) (hx : x ∈ admin.serverStatus)
    (own : x ∉ (w.state x).stubs) {w' : Net} {admin' : Admin} {answered : Bool}
    (h : admin.cmd hash env 3 x "LeaveNetwork" w = some (w', admin', answered)) :
    ∃ dest, stored w'.state = relocate x dest (stored w.state) ∧
      Moves x (fun p key => p ∈ (w.state x).stubs ∧
        Gains hash (w.state x).ring ((w.state x).ring.removeNode hash x) p key) dest
        (stored w.state) := by
  have hself : (act hash w.next.next x (.setAlive false)).state x =
      apply hash (.setAlive false) (w.state x) := World.modify_self _ _ _
  have hsame : stored (act hash w.next.next x (.setAlive false)).state = stored w.state :=
    stored_of_keepsStore _ x (a := .setAlive false) trivial
  obtain ⟨w₁, dest, hrun, hstored, hmoves, _⟩ := leaveNetwork_run hash
    (act hash w.next.next x (.setAlive false)) 1 reliable x (by rw [hself]; exact own)
  have hserved : serveOn hash env 3 x (.adminCmd "LeaveNetwork" []) w.next.next =
      some (w₁, .adminCmd true) := by
    rw [serveOn_succ, serve, exec_adminLeave, hrun]
    rfl
  rw [Admin.cmd, if_neg (by simp [hx, Admin.enumCmd])] at h
  simp only [deliver_reliable reliable, show ¬ "LeaveNetwork" = "JoinNetwork" by decide, if_false,
    hserved, Option.map_some, Option.some.injEq, Prod.mk.injEq] at h
  obtain ⟨rfl, _⟩ := h
  rw [hsame, hself] at hmoves
  rw [hsame] at hstored
  exact ⟨dest, hstored, hmoves⟩

end Commands

/-- The members share a ring that counts them well, and for each key exactly its replicas
store the value that the map has for it. -/
structure Holding (hash : String → UInt64) (config : List String) (v : Nat)
    (r : ConsistentHashingRing) (n : Nat) (s : Deployment) (m : String → Option String) : Prop where
  agreed : Agreed hash {y | y ∈ config} (fun _ => v) s.admin s.net.state
  members : RingOf hash {y | s.admin.MarkedAlive y} r
  virtual : r.numVirtualNodes = v
  accurate : Accurate r
  shared : ∀ y, s.admin.MarkedAlive y → (s.net.state y).ring = r
  common : ∀ key, ∃ e, OnReplicas hash r {y | s.admin.MarkedAlive y} (stored s.net.state) key e ∧
    e.map Prod.fst = m key ∧ Counts n (versionOf e)
  living : (∃ y, s.admin.MarkedAlive y) ∨ m = fun _ => none

def Holds (hash : String → UInt64) (config : List String) (v n : Nat) (s : Deployment)
    (m : String → Option String) : Prop :=
  ∃ r, Holding hash config v r n s m

namespace Holding

variable {r : ConsistentHashingRing} {n : Nat} {s : Deployment} {m : String → Option String}
variable (h : Holding hash config v r n s m) (positive : 0 < v)

include h

theorem mem_config (hx : s.admin.MarkedAlive x) : x ∈ config := h.agreed.alive_configured hx

include positive

theorem mem_owners {key : String} : x ∈ owners hash r key ↔ s.admin.MarkedAlive x :=
  h.members.mem_owners (by rw [h.virtual]; exact positive)

theorem le_owners {k : Nat} (many : AtLeast k s.admin) (key : String) :
    k ≤ (owners hash r key).length := by
  obtain ⟨l, nodup, rfl, hl⟩ := many
  exact (nodup.subperm fun y hy => (h.mem_owners positive).mpr (hl y hy)).length_le

/-- The members can serve requests. -/
theorem usable (many : AtLeast rCount s.admin) {alive : String → Bool}
    (living : ∀ y, s.admin.MarkedAlive y → alive y = true)
    (sees : ∀ y, s.admin.MarkedAlive y → SeesAlive env alive y (s.net.state y)) (key : String) :
    Usable hash env alive {y | s.admin.MarkedAlive y} r key s.net.state ∧
      quorum hash r alive key = replicas hash r key := by
  have hquorum : quorum hash r alive key = replicas hash r key :=
    quorum_eq_replicas h.accurate fun y hy => living y ((h.mem_owners positive).mp hy)
  refine ⟨⟨fun y hy => ⟨h.shared y hy, sees y hy⟩, fun y hy z hz _ hne => ?_, fun z hz => ?_, ?_⟩,
    hquorum⟩
  · exact (h.agreed.stubs y hy z).mpr
      ⟨(h.mem_owners positive).mp (mem_owners_of_mem_candidates hz), hne⟩
  · rw [hquorum] at hz
    exact RingOf.mem_of_mem_replicas h.members hz
  · rw [hquorum, replicas, List.length_take]
    exact le_min (by decide) (h.le_owners positive many key)

omit positive

/-- Rings, stubs and stores stay. -/
theorem keep (s' : Deployment) (admin : s'.admin = s.admin)
    (ring : ∀ y, (s'.net.state y).ring = (s.net.state y).ring)
    (stubs : ∀ y, (s'.net.state y).stubs = (s.net.state y).stubs)
    {m' : String → Option String} {k : Nat}
    (common : ∀ key, ∃ e,
      OnReplicas hash r {y | s.admin.MarkedAlive y} (stored s'.net.state) key e ∧
      e.map Prod.fst = m' key ∧ Counts k (versionOf e))
    (living : (∃ y, s.admin.MarkedAlive y) ∨ m' = fun _ => none) :
    Holding hash config v r k s' m' where
  agreed := by
    rw [admin]
    exact ⟨h.agreed.configured, fun y hy => by rw [ring y]; exact h.agreed.known y hy,
      fun y hy => by rw [stubs y]; exact h.agreed.no_own_stub y hy,
      fun y hy => by rw [ring y]; exact h.agreed.ring y hy,
      fun y hy => by rw [stubs y]; exact h.agreed.stubs y hy⟩
  members := by rw [admin]; exact h.members
  virtual := h.virtual
  accurate := h.accurate
  shared y hy := by
    rw [admin] at hy
    rw [ring y]
    exact h.shared y hy
  common := by rw [admin]; exact common
  living := by rw [admin]; exact living

/-- No key changes its value. -/
theorem later (key : String) : ∃ e,
    OnReplicas hash r {y | s.admin.MarkedAlive y} (stored s.net.state) key e ∧
      e.map Prod.fst = m key ∧ Counts (n + 1) (versionOf e) := by
  obtain ⟨e, held, hvalue, hcounts⟩ := h.common key
  exact ⟨e, held, hvalue, hcounts.mono (Nat.le_succ n)⟩

variable (apart : NoCollision hash v {y | y ∈ config}) (hx : x ∈ config)

include apart hx

theorem apart_members :
    NoCollision hash r.numVirtualNodes (insert x {y | s.admin.MarkedAlive y}) := by
  rw [h.virtual]
  exact apart.subset (Set.insert_subset hx fun y hy => h.mem_config hy)

include positive

/-- The joining server comes to the same ring as the members, starting from nothing. -/
theorem accurate_entered (out : ¬ s.admin.MarkedAlive x) (blank : Blank v (s.net.state x)) :
    Accurate ((((s.admin.aliveServers env s.net.tick).filter fun addr => addr ≠ x).foldl
      (fun r addr => r.addNode hash addr) (s.net.state x).ring).addNode hash x) := by
  have apart' := h.apart_members apart hx
  rw [h.virtual] at apart'
  have hmem : ∀ y, y ∈ (s.admin.aliveServers env s.net.tick).filter (fun addr => addr ≠ x) ↔
      s.admin.MarkedAlive y := by
    intro y
    rw [List.mem_filter, Admin.mem_aliveServers, decide_eq_true_eq]
    exact and_iff_left_of_imp fun hy heq => out (heq ▸ hy)
  have nodup : ((s.admin.aliveServers env s.net.tick).filter fun addr => addr ≠ x).Nodup :=
    (((env.perm _ _).nodup_iff.mpr (AList.keys_nodup _)).filter _).filter _
  generalize (s.admin.aliveServers env s.net.tick).filter (fun addr => addr ≠ x) = told
    at hmem nodup
  have hids : (∅ : Set String) ∪ {y | y ∈ told} = {y | s.admin.MarkedAlive y} := by
    ext y
    simp [hmem]
  have apart₀ : NoCollision hash (ConsistentHashingRing.init v).numVirtualNodes
      (∅ ∪ {y | y ∈ told}) := by
    rw [hids]
    exact apart'.subset (Set.subset_insert _ _)
  have added := ringOf_foldl_addNode told (ringOf_init hash v) apart₀
  have counted := accurate_foldl_addNode told nodup (fun y _ => Set.notMem_empty y)
    (ringOf_init hash v) apart₀ positive (accurate_init v)
  have virtual : (told.foldl (fun r n => ConsistentHashingRing.addNode hash r n)
      (ConsistentHashingRing.init v)).numVirtualNodes = v :=
    numVirtualNodes_foldl_addNode told _
  rw [hids] at added
  rw [blank.ring]
  exact accurate_newcomer added (by rw [virtual]; exact apart') out
    (by rw [virtual]; exact positive) counted

omit apart hx in
theorem eq_none_of_nothing {key : String} {e : Option Data}
    (held : OnReplicas hash r {y | s.admin.MarkedAlive y} (stored s.net.state) key e)
    (hvalue : e.map Prod.fst = m key)
    (nothing : ∀ y, s.admin.MarkedAlive y → stored s.net.state y key = none) : e = none := by
  rcases h.living with ⟨y, hy⟩ | rfl
  · have hpos : 0 < (replicas hash r key).length := by
      rw [replicas, List.length_take]
      exact lt_min (by decide) (List.length_pos_of_mem ((h.mem_owners positive).mpr hy))
    have hz := List.getElem_mem hpos
    have hmember := RingOf.mem_of_mem_replicas h.members hz
    have hstored := held _ hmember
    rw [if_pos hz, nothing _ hmember] at hstored
    exact hstored.symm
  · exact Option.map_eq_none_iff.mp hvalue

/-- A blank server joins. -/
theorem join (reliable : env.Reliable) (out : ¬ s.admin.MarkedAlive x)
    (blank : Blank v (s.net.state x)) (enough : AtLeast replicaN s.admin ∨
      ∀ y, s.admin.MarkedAlive y → ∀ key, stored s.net.state y key = none) :
    ∃ w', s.admin.cmd hash env 3 x "JoinNetwork" s.net =
        some (w', s.admin.setStatus x true, true) ∧
      Holding hash config v (r.addNode hash x) (n + 1)
        { s with admin := s.admin.setStatus x true, net := w' } m := by
  have apart' := h.apart_members apart hx
  have clean : JoinsClean s.admin s.net x "JoinNetwork" := by
    rintro - id ⟨p, hp⟩
    rw [blank.ring] at hp
    exact absurd hp List.not_mem_nil
  have hserver := (h.agreed.configured x).mpr hx
  obtain ⟨w', hcmd, hagreed⟩ := h.agreed.join (fun _ _ => apart) hx reliable positive clean
  obtain ⟨w₂, hcmd₂, hringx, _, hothers⟩ := cmd_join hash s.net reliable hserver
  cases hcmd.symm.trans hcmd₂
  have hserved := cmd_join_served reliable hserver hcmd
  have hafter : {y | (s.admin.setStatus x true).MarkedAlive y} =
      insert x {y | s.admin.MarkedAlive y} := by
    ext y
    exact Admin.markedAlive_setStatus_true
  have hring : RingOf hash (insert x {y | s.admin.MarkedAlive y}) (r.addNode hash x) :=
    ringOf_addNode h.members apart'
  have hcounted : Accurate (r.addNode hash x) :=
    accurate_newcomer h.members apart' out (by rw [h.virtual]; exact positive) h.accurate
  refine ⟨w', hcmd, hagreed, by rw [hafter]; exact hring, h.virtual, hcounted, fun y hy => ?_,
    fun key => ?_, Or.inl ⟨x, Admin.markedAlive_setStatus_true.mpr (Or.inl rfl)⟩⟩
  · by_cases hyx : y = x
    · subst hyx
      have hnew := hagreed.ring y hy
      rw [hafter] at hnew
      refine ring_ext hnew hring ?_ ?_ hcounted
      · exact (hagreed.known y hx).virtual.trans h.virtual.symm
      · rw [hringx]
        exact h.accurate_entered positive apart hx out blank
    · have halive := (Admin.markedAlive_setStatus_true.mp hy).resolve_left hyx
      exact ((hothers y hyx).1.trans (if_pos halive)).trans
        (congrArg (·.addNode hash x) (h.shared y halive))
  · obtain ⟨e, held, hvalue, hcounts⟩ := h.later key
    refine ⟨e, ?_, hvalue, hcounts⟩
    rw [hafter]
    refine adminJoin_onReplicas (w := s.net.next.next) h.members apart' out reliable h.shared
      (fun y => Admin.mem_aliveServers s.net.tick) (blank.store key) ?_ held hserved
    exact enough.imp (fun many => h.le_owners positive many key)
      fun nothing => h.eq_none_of_nothing positive held hvalue fun y hy => nothing y hy key

/-- A server leaves, and is not the last one. -/
theorem leave (reliable : env.Reliable) (alive : s.admin.MarkedAlive x)
    (other : ∃ y, y ≠ x ∧ s.admin.MarkedAlive y) :
    ∃ w', s.admin.cmd hash env 3 x "LeaveNetwork" s.net =
        some (w', s.admin.setStatus x false, true) ∧
      Holding hash config v (r.removeNode hash x) (n + 1)
        { s with admin := s.admin.setStatus x false, net := w' } m := by
  have apart' := h.apart_members apart hx
  have hserver := (h.agreed.configured x).mpr hx
  have own := h.agreed.no_own_stub x hx
  obtain ⟨w', hcmd, hagreed⟩ := h.agreed.leave (fun _ _ => apart) hx reliable
  obtain ⟨w₂, hcmd₂, hrings, _⟩ := cmd_leave hash s.net reliable hserver own
  cases hcmd.symm.trans hcmd₂
  obtain ⟨dest, hstored, hmoves⟩ := cmd_leave_moves reliable hserver own hcmd
  rw [h.shared x alive] at hmoves
  have hstubs : ∀ y, s.admin.MarkedAlive y → y ≠ x → y ∈ (s.net.state x).stubs :=
    fun y hy hne => (h.agreed.stubs x alive y).mpr ⟨hy, hne⟩
  have hafter : {y | (s.admin.setStatus x false).MarkedAlive y} =
      {y | s.admin.MarkedAlive y} \ {x} := by
    ext y
    exact Admin.markedAlive_setStatus_false.trans and_comm
  obtain ⟨y, hyx, hy⟩ := other
  refine ⟨w', hcmd, hagreed, by rw [hafter]; exact ringOf_removeNode h.members apart', h.virtual,
    accurate_removeNode h.members apart' alive (by rw [h.virtual]; exact positive) h.accurate,
    fun z hz => ?_, fun key => ?_, Or.inl ⟨y, Admin.markedAlive_setStatus_false.mpr ⟨hyx, hy⟩⟩⟩
  · obtain ⟨hzx, hzalive⟩ := Admin.markedAlive_setStatus_false.mp hz
    exact ((hrings z).trans (if_pos (Or.inr (hstubs z hzalive hzx)))).trans
      (congrArg (·.removeNode hash x) (h.shared z hzalive))
  · obtain ⟨e, held, hvalue, hcounts⟩ := h.later key
    refine ⟨e, ?_, hvalue, hcounts⟩
    rw [hafter, hstored]
    exact onReplicas_relocate h.members apart' alive hstubs hmoves held

end Holding

section Histories

variable (positive : 0 < v) (apart : NoCollision hash v {y | y ∈ config})

include positive apart

/-- Every call does to the cluster what it does to the map. -/
theorem implements : Implements (perform hash) mapStep (MayHappen config v) (Holds hash config v)
    (2 ^ 64 - 1) :=
  implements_of_step fun n s m e short h may => by
    obtain ⟨env, call⟩ := e
    obtain ⟨r, h⟩ := h
    cases call with
    | get name key attempts selections =>
      obtain ⟨reliable, many, attached, alive, living, sees⟩ := may
      obtain ⟨usable, hquorum⟩ := h.usable positive many living sees key
      obtain ⟨e, held, hvalue, _⟩ := h.common key
      have common : Common s.net.state key (quorum hash r alive key) e := by
        intro y hy
        rw [hquorum] at hy
        exact (held y (RingOf.mem_of_mem_replicas h.members hy)).trans (if_pos hy)
      obtain ⟨client', w', hrun, view, same, _⟩ := get_run hash 1 common reliable usable attached
        attempts selections
      refine ⟨{ s with clients := Function.update s.clients name client', net := w' }, ?_, r,
        h.keep ⟨s.admin, Function.update s.clients name client', w'⟩ rfl view.ring view.stubs
          (fun key' => ?_) h.living⟩
      · have hread : (e.getD (noValue, [])).1 = (m key).getD noValue := by
          rw [← hvalue]
          cases e <;> rfl
        simp only [perform, mapStep, hrun, hread, Option.map_some]
      · rw [same]
        exact h.later key'
    | put name key value attempts inputs rounds =>
      obtain ⟨reliable, many, attached, alive, living, sees⟩ := may
      obtain ⟨usable, hquorum⟩ := h.usable positive many living sees key
      obtain ⟨e, held, _, hcounts⟩ := h.common key
      have common : Common s.net.state key (quorum hash r alive key) e := by
        intro y hy
        rw [hquorum] at hy
        exact (held y (RingOf.mem_of_mem_replicas h.members hy)).trans (if_pos hy)
      obtain ⟨client', w', p, hrun, view, hstored, _⟩ := put_run hash 1 reliable usable attached
        common (hcounts.stampable short) value attempts inputs rounds
      rw [hquorum] at hstored
      refine ⟨{ s with clients := Function.update s.clients name client', net := w' }, ?_, r,
        h.keep ⟨s.admin, Function.update s.clients name client', w'⟩ rfl view.ring view.stubs
          (fun key' => ?_) (Or.inl ⟨_, attached.2⟩)⟩
      · simp only [perform, mapStep, hrun, Option.map_some]
      · by_cases hkey : key' = key
        · subst hkey
          refine ⟨some (value, updateVersion (versionOf e) p), fun y hy => ?_, by simp [mapStep],
            hcounts.stamp short p⟩
          rw [hstored, written, held y hy]
          by_cases hy' : y ∈ replicas hash r key'
          · simp [hy']
          · simp [hy']
        · obtain ⟨e', held', hvalue', hcounts'⟩ := h.later key'
          refine ⟨e', fun y hy => ?_, ?_, hcounts'⟩
          · rw [hstored, written, if_neg fun hw => hkey hw.2]
            exact held' y hy
          · simp [mapStep, hvalue', hkey]
    | turn node =>
      obtain ⟨w', hrun, times⟩ := turn_quiet hash env 1 node s.net
      refine ⟨{ s with net := w' }, ?_, r,
        h.keep ⟨s.admin, s.clients, w'⟩ rfl times.ring times.stubs (fun key => ?_) h.living⟩
      · simp only [perform, mapStep, hrun, Option.map_some]
      · rw [times.stored_eq]
        exact h.later key
    | command addr cmd =>
      obtain ⟨reliable, hx, ⟨rfl, out, blank, enough⟩ | ⟨rfl, alive, other⟩⟩ := may
      · obtain ⟨w', hcmd, hjoined⟩ := h.join positive apart hx reliable out blank enough
        refine ⟨_, ?_, _, hjoined⟩
        simp only [perform, mapStep, hcmd, Option.map_some]
      · obtain ⟨w', hcmd, hleft⟩ := h.leave positive apart hx reliable alive other
        refine ⟨_, ?_, _, hleft⟩
        simp only [perform, mapStep, hcmd, Option.map_some]

omit positive apart in
theorem holds_start (clients : String → KeyValueStoreClient) (tick : Nat) :
    Holds hash config v 0 ⟨.init config, clients, ⟨fun _ => GossipNode.new v, tick⟩⟩
      fun _ => none := by
  have nobody : ∀ y, ¬ (Admin.init config).MarkedAlive y :=
    fun y => Admin.not_markedAlive_init config
  refine ⟨.init v, Agreed.init config _, ?_, rfl, accurate_init v,
    fun y hy => absurd hy (nobody y), fun key => ⟨none, fun y hy => absurd hy (nobody y), rfl,
      counts_nil 0⟩, Or.inr rfl⟩
  have hempty : {y | (Admin.init config).MarkedAlive y} = ∅ := Set.eq_empty_of_forall_notMem nobody
  rw [hempty]
  exact ringOf_init hash v

/-- From the start of the servers, any calls of any clients, turns of the main loops, joins
and leaves: each of them is answered, and as by the map. -/
theorem elastic_store (clients : String → KeyValueStoreClient) (tick : Nat) (events : List Event)
    (short : events.length < 2 ^ 64)
    (admissible : Admissible (perform hash) (MayHappen config v)
      ⟨.init config, clients, ⟨fun _ => GossipNode.new v, tick⟩⟩ events) :
    ∃ s', runEvents (perform hash)
        ⟨.init config, clients, ⟨fun _ => GossipNode.new v, tick⟩⟩ events =
      some (s', outputs mapStep (fun _ => none) events) := by
  obtain ⟨s', hrun, _⟩ := (implements positive apart).run events (by omega)
    (holds_start clients tick) admissible
  exact ⟨s', hrun⟩

/-- The ring of the members, made by adding them in some order. -/
def ringOfMembers (hash : String → UInt64) (v : Nat) (members : List String) :
    ConsistentHashingRing :=
  members.foldl (fun r y => r.addNode hash y) (.init v)

/-- The shared ring does not depend on how its members came and went. -/
theorem Holding.eq_ringOfMembers {r : ConsistentHashingRing} {n : Nat} {s : Deployment}
    {m : String → Option String} (h : Holding hash config v r n s m) {members : List String}
    (nodup : members.Nodup) (same : ∀ y, y ∈ members ↔ s.admin.MarkedAlive y) :
    r = ringOfMembers hash v members := by
  have hmembers : {y | s.admin.MarkedAlive y} = ∅ ∪ {y | y ∈ members} := by
    ext y
    simp [same]
  have apart' : NoCollision hash (ConsistentHashingRing.init v).numVirtualNodes
      (∅ ∪ {y | y ∈ members}) := by
    rw [← hmembers]
    exact apart.subset fun z hz => h.mem_config hz
  refine ring_ext h.members ?_ ?_ h.accurate ?_
  · rw [hmembers]
    exact ringOf_foldl_addNode members (ringOf_init hash v) apart'
  · rw [ringOfMembers, numVirtualNodes_foldl_addNode, h.virtual]
    rfl
  · exact accurate_foldl_addNode members nodup (fun _ _ => id) (ringOf_init hash v) apart'
      positive (accurate_init v)

/-- After any such history, the members that store a key are exactly its replicas on the ring
of those that are members now, however they came to be so, and they store the last value. -/
theorem exact_placement (clients : String → KeyValueStoreClient) (tick : Nat)
    (events : List Event) (short : events.length < 2 ^ 64)
    (admissible : Admissible (perform hash) (MayHappen config v)
      ⟨.init config, clients, ⟨fun _ => GossipNode.new v, tick⟩⟩ events) :
    ∃ s', runEvents (perform hash)
        ⟨.init config, clients, ⟨fun _ => GossipNode.new v, tick⟩⟩ events =
      some (s', outputs mapStep (fun _ => none) events) ∧
      ∀ members : List String, members.Nodup → (∀ y, y ∈ members ↔ s'.admin.MarkedAlive y) →
        ∀ y ∈ members, ∀ key, (stored s'.net.state y key).map Prod.fst =
          if y ∈ (ringOfMembers hash v members).getReplicasNodes hash key replicaN then
            after mapStep (fun _ => none) events key
          else none := by
  obtain ⟨s', hrun, r, h⟩ := (implements positive apart).run events (by omega)
    (holds_start clients tick) admissible
  refine ⟨s', hrun, fun members nodup same y hy key => ?_⟩
  have hring := h.eq_ringOfMembers positive apart nodup same
  obtain ⟨e, held, hvalue, _⟩ := h.common key
  rw [held y ((same y).mp hy), ← hring,
    getReplicasNodes_of_accurate h.accurate (by decide) (by decide), ← hvalue]
  exact apply_ite (Option.map Prod.fst) _ e none

end Histories

section Samples

/-- Servers A, B and C join, a client puts, server A leaves, and another client gets. -/
def growAndShrink : List Event :=
  [⟨calmEnv, .command "A" "JoinNetwork"⟩, ⟨calmEnv, .command "B" "JoinNetwork"⟩,
    ⟨calmEnv, .command "C" "JoinNetwork"⟩, ⟨calmEnv, .put "p" "k" "v" 0 (fun _ => ⟨[], 0⟩) 0⟩,
    ⟨calmEnv, .command "A" "LeaveNetwork"⟩, ⟨calmEnv, .get "g" "k" 0 []⟩]

/-- One client knows server A, all others know server B. -/
def someClients (name : String) : KeyValueStoreClient :=
  if name = "p" then ⟨(∅ : Map Unit).insert "A" (), "A", .empty⟩
  else ⟨(∅ : Map Unit).insert "B" (), "B", .empty⟩

def servers : List String := ["A", "B", "C"]

def startUp : Deployment := ⟨.init servers, someClients, ⟨fun _ => GossipNode.new 1, 0⟩⟩

/-- What is checked of a server that is going to join. -/
def LooksBlank (node : GossipNode) : Prop :=
  node.ring.numVirtualNodes = 1 ∧ node.ring.nodeCount = 0 ∧ node.ring.ring.entries = [] ∧
    node.stateMachine.getAllKeys = []

instance (node : GossipNode) : Decidable (LooksBlank node) :=
  inferInstanceAs (Decidable (_ ∧ _ ∧ _ ∧ _))

theorem stored_none_of_getAllKeys {node : GossipNode} (h : node.stateMachine.getAllKeys = [])
    (key : String) : node.stateMachine.entry key = none := by
  rw [Option.eq_none_iff_forall_ne_some]
  intro d hd
  have hmem : key ∈ node.stateMachine.getAllKeys := (mem_getAllKeys _).mpr ⟨d, hd⟩
  rw [h] at hmem
  exact absurd hmem List.not_mem_nil

theorem LooksBlank.blank {node : GossipNode} (h : LooksBlank node) : Blank 1 node := by
  obtain ⟨virtual, count, entries, keys⟩ := h
  refine ⟨?_, stored_none_of_getAllKeys keys⟩
  rcases hr : node.ring with ⟨numVirtualNodes, ⟨l, sorted⟩, nodeCount⟩
  rw [hr] at virtual count entries
  cases virtual
  cases count
  cases entries
  rfl

/-- All known times are the epoch, at which the clocks stand still. -/
def TimesAtEpoch (s : Deployment) : Prop :=
  (∀ y ∈ s.admin.serverStatus.keys, y ∈ servers) ∧
    ∀ y ∈ servers, ∀ p ∈ (s.net.state y).membersHeartbeatList.entries, p.2 = 0

instance (s : Deployment) : Decidable (TimesAtEpoch s) :=
  inferInstanceAs (Decidable (_ ∧ _))

theorem seesAlive_of_epoch {s : Deployment} (h : TimesAtEpoch s) {y : String}
    (hy : s.admin.MarkedAlive y) : SeesAlive calmEnv (fun _ => true) y (s.net.state y) := by
  have hserver : y ∈ servers :=
    h.1 y (AList.mem_keys.mp (AList.lookup_isSome.mp (Option.isSome_of_eq_some hy)))
  refine ⟨rfl, fun z _ i => ?_⟩
  have hzero : (s.net.state y).heartbeat z = 0 := by
    rw [heartbeat]
    cases hz : (s.net.state y).membersHeartbeatList.lookup z with
    | none => rfl
    | some t => exact h.2 y hserver ⟨z, t⟩ (AList.mem_lookup_iff.mp hz)
  rw [hzero]
  simp only [iff_true]
  exact show durationMs 0 0 < checkAliveInterval by decide

/-- What is checked before a server joins servers that store nothing. -/
def NothingStored (s : Deployment) (addr : String) : Prop :=
  TimesAtEpoch s ∧ (∀ y ∈ servers, (s.net.state y).stateMachine.getAllKeys = []) ∧
    ¬ s.admin.MarkedAlive addr ∧ LooksBlank (s.net.state addr)

instance (s : Deployment) (addr : String) : Decidable (NothingStored s addr) :=
  inferInstanceAs (Decidable (_ ∧ _ ∧ _ ∧ _))

theorem NothingStored.mayHappen {s : Deployment} {addr : String} (h : NothingStored s addr)
    (haddr : addr ∈ servers) :
    MayHappen servers 1 s ⟨calmEnv, .command addr "JoinNetwork"⟩ := by
  obtain ⟨times, keys, out, blank⟩ := h
  refine ⟨calmEnv_reliable, haddr, Or.inl ⟨rfl, out, blank.blank, Or.inr fun y hy key => ?_⟩⟩
  exact stored_none_of_getAllKeys (keys y
    (times.1 y (AList.mem_keys.mp (AList.lookup_isSome.mp (Option.isSome_of_eq_some hy))))) key

/-- What is checked before a client makes a request to one of two members. -/
def Ready (s : Deployment) (name addr other : String) : Prop :=
  TimesAtEpoch s ∧ (s.admin.MarkedAlive addr ∧ s.admin.MarkedAlive other ∧ addr ≠ other) ∧
    addr ∈ (s.clients name).stubs ∧ (s.clients name).assignedCoordinator = addr

instance (s : Deployment) (name addr other : String) : Decidable (Ready s name addr other) :=
  inferInstanceAs (Decidable (_ ∧ (_ ∧ _ ∧ _) ∧ _ ∧ _))

theorem Ready.many {s : Deployment} {name addr other : String} (h : Ready s name addr other) :
    AtLeast rCount s.admin := by
  obtain ⟨_, ⟨haddr, hother, hne⟩, _⟩ := h
  refine ⟨[addr, other], by simpa using hne, rfl, fun y hy => ?_⟩
  rcases List.mem_pair.mp hy with rfl | rfl
  · exact haddr
  · exact hother

theorem Ready.attached {s : Deployment} {name addr other : String} (h : Ready s name addr other) :
    Attached {y | s.admin.MarkedAlive y} (s.clients name) := by
  obtain ⟨_, ⟨haddr, _⟩, hstub, hcoordinator⟩ := h
  rw [Attached, hcoordinator]
  exact ⟨hstub, haddr⟩

theorem noCollision_servers : NoCollision fourNodes 1 {y | y ∈ servers} := by
  refine noCollision_fourNodes.subset fun y hy => ?_
  simp only [servers, Set.mem_ofPred_eq, List.mem_cons] at hy ⊢
  tauto

theorem admissible_growAndShrink :
    Admissible (perform fourNodes) (MayHappen servers 1) startUp growAndShrink := by
  obtain ⟨c₀, x₁, h₁, c₁, x₂, h₂, c₂, x₃, h₃, c₃, x₄, h₄, c₄, x₅, h₅, c₅⟩ :
      NothingStored startUp "A" ∧
      ∃ x₁ ∈ perform fourNodes startUp ⟨calmEnv, .command "A" "JoinNetwork"⟩,
        NothingStored x₁.1 "B" ∧
      ∃ x₂ ∈ perform fourNodes x₁.1 ⟨calmEnv, .command "B" "JoinNetwork"⟩,
        NothingStored x₂.1 "C" ∧
      ∃ x₃ ∈ perform fourNodes x₂.1 ⟨calmEnv, .command "C" "JoinNetwork"⟩,
        Ready x₃.1 "p" "A" "B" ∧
      ∃ x₄ ∈ perform fourNodes x₃.1 ⟨calmEnv, .put "p" "k" "v" 0 (fun _ => ⟨[], 0⟩) 0⟩,
        (x₄.1.admin.MarkedAlive "A" ∧ x₄.1.admin.MarkedAlive "B") ∧
      ∃ x₅ ∈ perform fourNodes x₄.1 ⟨calmEnv, .command "A" "LeaveNetwork"⟩,
        Ready x₅.1 "g" "B" "C" := by
    decide +kernel
  refine admissible_cons (c₀.mayHappen (by decide)) h₁ (admissible_cons (c₁.mayHappen (by decide))
    h₂ (admissible_cons (c₂.mayHappen (by decide)) h₃ (admissible_cons ?_ h₄
    (admissible_cons ?_ h₅ ⟨?_, fun _ _ => trivial⟩))))
  · exact ⟨calmEnv_reliable, c₃.many, c₃.attached, fun _ => true, fun _ _ => rfl,
      fun y hy => seesAlive_of_epoch c₃.1 hy⟩
  · exact ⟨calmEnv_reliable, by decide, Or.inr ⟨rfl, c₄.1, "B", by decide, c₄.2⟩⟩
  · exact ⟨calmEnv_reliable, c₅.many, c₅.attached, fun _ => true, fun _ _ => rfl,
      fun y hy => seesAlive_of_epoch c₅.1 hy⟩

theorem elastic_store_sample : ∃ s', runEvents (perform fourNodes) startUp growAndShrink =
    some (s', [.command true, .command true, .command true, .put (some true), .command true,
      .get (some (.success "v"))]) :=
  elastic_store Nat.one_pos noCollision_servers someClients 0 growAndShrink (by decide)
    admissible_growAndShrink

/-- The value was put while server A was a member, and is on B and C now. -/
theorem exact_placement_sample : ∃ s' outs,
    runEvents (perform fourNodes) startUp growAndShrink = some (s', outs) ∧
      (s'.admin.MarkedAlive "B" ∧ s'.admin.MarkedAlive "C" ∧ ¬ s'.admin.MarkedAlive "A") ∧
      (stored s'.net.state "B" "k").map Prod.fst = some "v" := by
  obtain ⟨s', hrun, placed⟩ := exact_placement Nat.one_pos noCollision_servers someClients 0
    growAndShrink (by decide) admissible_growAndShrink
  obtain ⟨x, hx, hmembers, hconfig⟩ : ∃ x ∈ runEvents (perform fourNodes) startUp growAndShrink,
      (x.1.admin.MarkedAlive "B" ∧ x.1.admin.MarkedAlive "C" ∧ ¬ x.1.admin.MarkedAlive "A") ∧
        ∀ y ∈ x.1.admin.serverStatus.keys, y ∈ servers := by
    decide +kernel
  obtain rfl : x.1 = s' := congrArg Prod.fst (Option.some.inj (hx.symm.trans hrun))
  refine ⟨x.1, _, hrun, hmembers, ?_⟩
  have same : ∀ y, y ∈ ["B", "C"] ↔ x.1.admin.MarkedAlive y := by
    intro y
    refine ⟨fun hy => ?_, fun hy => ?_⟩
    · rcases List.mem_pair.mp hy with rfl | rfl
      · exact hmembers.1
      · exact hmembers.2.1
    · have hserver := hconfig y
        (AList.mem_keys.mp (AList.lookup_isSome.mp (Option.isSome_of_eq_some hy)))
      rcases List.mem_cons.mp hserver with rfl | hserver
      · exact absurd hy hmembers.2.2
      · exact hserver
  rw [placed ["B", "C"] (by decide) same "B" List.mem_cons_self "k"]
  decide +kernel

end Samples

end ElasticStore
