import DynamoStore.Admin
import DynamoStore.ClientOperations
import DynamoStore.HeartbeatTables
import DynamoStore.Lib.SequentialObjects

/-!
# The cluster as one map

Seen by its clients, the store is a map from keys to values. As long as the membership
and the set of servers that are alive stay as they are, no message is lost, and one
request is finished before the next one starts, every get answers with the value of the
last put of its key, whoever made it and whichever servers served the two. Turns of the
main loops may come in between, whatever happens to their messages.
-/

namespace SequentialStore

open RpcPrograms SequentialObjects GossipNode StateMachine KeyValueStoreClient
open Stamps VectorClocks RingOwners ClusterStores HandlerRuns KeyTransfers QuorumRuns
open HeartbeatTables ClientOperations

/-- The nodes, the clients by name, and the admin. -/
structure Deployment where
  admin : Admin
  clients : String → KeyValueStoreClient
  net : Net

inductive Call where
  | get (client key : String) (attempts : Nat) (selections : List Int)
  | put (client key value : String) (attempts : Nat) (inputs : Nat → RoundInput) (rounds : Nat)
  | turn (node : String)
  | command (addr cmd : String)

/-- Each call is made in an environment of its own. -/
structure Event where
  env : Env String Int64
  call : Call

inductive Output where
  | get (ret : Option GetReturn)
  | put (ret : Option Bool)
  | turn
  | command (answered : Bool)
  deriving DecidableEq

/-- A call is made and runs to its end; none when some process crashes. -/
def perform (hash : String → UInt64) (s : Deployment) (e : Event) : Option (Deployment × Output) :=
  match e.call with
  | .get client key attempts selections =>
    (runBeside hash e.env 3 (KeyValueStoreClient.get key attempts selections) (s.clients client)
      s.net).map fun x =>
        ({ s with clients := Function.update s.clients client x.1, net := x.2.1 }, .get x.2.2)
  | .put client key value attempts inputs rounds =>
    (runBeside hash e.env 3 (KeyValueStoreClient.put key value false attempts inputs rounds)
      (s.clients client) s.net).map fun x =>
        ({ s with clients := Function.update s.clients client x.1, net := x.2.1 }, .put x.2.2)
  | .turn node =>
    (serveOn hash e.env 3 node .mainLoopTurn s.net).map fun x => ({ s with net := x.1 }, .turn)
  | .command addr cmd => (s.admin.cmd hash e.env 3 addr cmd s.net).map fun x =>
    ({ s with admin := x.2.1, net := x.1 }, .command x.2.2)

/-- What the store is for. A key that was never put has the placeholder as its value. -/
def mapStep (m : String → Option String) (e : Event) : (String → Option String) × Output :=
  match e.call with
  | .get _ key _ _ => (m, .get (some (.success ((m key).getD noValue))))
  | .put _ key value _ _ _ => (Function.update m key (some value), .put (some true))
  | .turn _ => (m, .turn)
  | .command _ _ => (m, .command true)

variable {hash : String → UInt64} {env : Env String Int64} {depth : Nat} {self : String} {w : Net}

section Turns

/-- Only the times of the last heartbeats may differ. -/
structure TimesOnly (state state' : String → GossipNode) : Prop where
  ring : ∀ n, (state' n).ring = (state n).ring
  stubs : ∀ n, (state' n).stubs = (state n).stubs
  stateMachine : ∀ n, (state' n).stateMachine = (state n).stateMachine

theorem TimesOnly.refl (state : String → GossipNode) : TimesOnly state state :=
  ⟨fun _ => rfl, fun _ => rfl, fun _ => rfl⟩

theorem TimesOnly.trans {state state' state'' : String → GossipNode} (h : TimesOnly state state')
    (h' : TimesOnly state' state'') : TimesOnly state state'' :=
  ⟨fun n => (h'.ring n).trans (h.ring n), fun n => (h'.stubs n).trans (h.stubs n),
    fun n => (h'.stateMachine n).trans (h.stateMachine n)⟩

theorem TimesOnly.stored_eq {state state' : String → GossipNode} (h : TimesOnly state state') :
    stored state' = stored state := by
  funext n key
  rw [stored, stored, h.stateMachine n]

theorem timesOnly_withTable (n : String) (table : Map Int64) (w : Net) :
    TimesOnly w.state (withTable n table w).state := by
  refine ⟨fun m => ?_, fun m => ?_, fun m => ?_⟩ <;>
  · by_cases h : m = n
    · rw [h, withTable, World.modify_self]
    · rw [withTable, World.modify_of_ne _ _ h]

variable (hash env depth w) in
theorem deliver_gossip (addr : String) (memberList : List (String × Int64)) :
    ∃ w' r, deliver hash env (depth + 1) addr (.gossip memberList) w = some (w', r) ∧
      TimesOnly w.state w'.state := by
  have served : serveOn hash env (depth + 1) addr (.gossip memberList)
      (withTable addr (w.next.state addr).membersHeartbeatList w.next) = _ :=
    serveOn_gossip memberList _ w.next
  rw [withTable_own] at served
  have times := timesOnly_withTable addr
    (memberList.foldl mergePair (w.next.state addr).membersHeartbeatList) w.next
  rw [deliver, network]
  cases env.fate w.tick addr with
  | delivered => exact ⟨_, _, by rw [served]; rfl, times⟩
  | requestLost => exact ⟨_, _, rfl, TimesOnly.refl _⟩
  | replyLost => exact ⟨_, _, by rw [served]; rfl, times⟩

variable (hash env depth self) in
theorem gossipLoop_quiet (memberList : List (String × Int64)) (stubs : List String) (w : Net) :
    ∃ w', exec hash env (depth + 1) self (gossipLoop memberList stubs) w = some (w', ()) ∧
      TimesOnly w.state w'.state := by
  induction stubs generalizing w with
  | nil => exact ⟨w, rfl, TimesOnly.refl _⟩
  | cons addr stubs ih =>
    have looked : TimesOnly w.state (look hash self addr w).state :=
      timesOnly_withTable self _ w
    rw [gossipLoop, exec_bind, recentHeartbeat_run, Option.bind_some]
    split
    · obtain ⟨w₁, r, hsend, htold⟩ := deliver_gossip hash env depth (look hash self addr w) addr
        memberList
      obtain ⟨w', hrun, hrest⟩ := ih w₁
      refine ⟨w', ?_, looked.trans (htold.trans hrest)⟩
      rw [exec_bind, exec_send, hsend]
      exact hrun
    · obtain ⟨w', hrun, hrest⟩ := ih (look hash self addr w)
      exact ⟨w', hrun, looked.trans hrest⟩

variable (hash) in
theorem timesOnly_setHeartbeat (w : Net) (n nodeId : String) (time : Int64) :
    TimesOnly w.state (act hash w n (.setHeartbeat nodeId time)).state :=
  timesOnly_withTable n _ w

variable (hash env depth self w) in
theorem gossip_quiet : ∃ w', exec hash env (depth + 1) self (gossip self) w = some (w', ()) ∧
    TimesOnly w.state w'.state := by
  have set := timesOnly_setHeartbeat hash w.next self self (env.now w.tick)
  simp only [gossip, exec_bind, exec_clock, exec_perform, exec_read, exec_iterate,
    Option.bind_some]
  exact (gossipLoop_quiet hash env depth self _ _ _).imp fun w' h => ⟨h.1, set.trans h.2⟩

variable (hash env depth self w) in
/-- A turn of a main loop never crashes, and it is only about heartbeats. -/
theorem turn_quiet : ∃ w', serveOn hash env (depth + 2) self .mainLoopTurn w =
    some (w', .turnDone) ∧ TimesOnly w.state w'.state := by
  have touched : TimesOnly w.state (look hash self self w).state := timesOnly_withTable self _ w
  rw [serveOn_succ, serve, mainLoopTurn, exec_bind, exec_read, Option.bind_some]
  split
  · simp only [exec_bind, exec_clock, exec_perform, exec_read, Option.bind_some]
    split
    · obtain ⟨w', hrun, hrest⟩ := gossip_quiet hash env depth self (look hash self self w)
      refine ⟨w', ?_, touched.trans hrest⟩
      rw [exec_bind]
      exact (congrArg (Option.bind · _) hrun).trans rfl
    · exact ⟨look hash self self w, rfl, touched⟩
  · exact ⟨w, rfl, TimesOnly.refl _⟩

end Turns

section Clocks

/-- The clock names each server once, and counts at most `n` puts. -/
structure Counts (n : Nat) (version : Version) : Prop where
  distinct : Distinct version
  counter : ∀ pair ∈ version, pair.2.toNat ≤ n

variable {n : Nat} {version : Version}

theorem counts_nil (n : Nat) : Counts n [] :=
  ⟨List.nodup_nil, fun _ h => absurd h List.not_mem_nil⟩

theorem Counts.mono {n' : Nat} (h : Counts n version) (hn : n ≤ n') : Counts n' version :=
  ⟨h.distinct, fun pair hp => (h.counter pair hp).trans hn⟩

theorem Counts.stampable (h : Counts n version) (short : n < 2 ^ 64 - 1) : Stampable version :=
  ⟨h.distinct, fun pair hp => lt_succ_of_lt ((h.counter pair hp).trans_lt short)⟩

theorem Counts.stamp (h : Counts n version) (short : n < 2 ^ 64 - 1) (p : String) :
    Counts (n + 1) (updateVersion version p) := by
  refine ⟨distinct_updateVersion h.distinct p, fun ⟨name, k⟩ hk => ?_⟩
  by_cases hname : name = p
  · subst hname
    rcases mem_updateVersion_self.mp hk with ⟨j, hj, rfl⟩ | ⟨_, rfl⟩
    · have hcount : j.toNat ≤ n := h.counter _ hj
      have hlast : j.toNat + 1 < 2 ^ 64 := by omega
      have hone : (1 : UInt64).toNat = 1 := rfl
      rw [UInt64.toNat_add, hone, Nat.mod_eq_of_lt hlast]
      exact Nat.succ_le_succ hcount
    · exact Nat.le_add_left 1 n
  · exact (h.counter _ ((mem_updateVersion_of_ne hname).mp hk)).trans (Nat.le_succ n)

end Clocks

section Fixed

variable {alive : String → Bool} {members : Set String} {r : ConsistentHashingRing}

/-- Requests come while no message is lost and the nodes find the servers in `alive`
alive. Nobody joins or leaves. -/
def MayCall (alive : String → Bool) (members : Set String) (r : ConsistentHashingRing)
    (s : Deployment) (e : Event) : Prop :=
  match e.call with
  | .get .. | .put .. => e.env.Reliable ∧ Agree e.env alive members r s.net.state
  | .turn _ => True
  | .command .. => False

/-- The clients are attached to members, and all servers that a request for a key reads and
writes agree on the value that the map has for it. -/
structure Stores (hash : String → UInt64) (alive : String → Bool) (members : Set String)
    (r : ConsistentHashingRing) (n : Nat) (s : Deployment) (m : String → Option String) : Prop where
  attached : ∀ client, Attached members (s.clients client)
  reaches : ∀ n ∈ members, ∀ key, Reaches alive (candidates hash r key) n s.net.state
  common : ∀ key, ∃ e, Common s.net.state key (quorum hash r alive key) e ∧
    e.map Prod.fst = m key ∧ Counts n (versionOf e)

variable {n : Nat} {s : Deployment} {m : String → Option String}

namespace Stores

theorem attach (h : Stores hash alive members r n s m) (name : String)
    {client : KeyValueStoreClient} (attached : Attached members client) (name' : String) :
    Attached members (Function.update s.clients name client name') := by
  by_cases hname : name' = name
  · subst hname
    rw [Function.update_self]
    exact attached
  · rw [Function.update_of_ne hname]
    exact h.attached name'

/-- A value is stored by the whole quorum. -/
theorem put (h : Stores hash alive members r n s m) {key value : String} {version : Version}
    (counts : Counts (n + 1) version) {state : String → GossipNode}
    (hstored : stored state = written (quorum hash r alive key) key (value, version)
      (stored s.net.state)) (key' : String) :
    ∃ e, Common state key' (quorum hash r alive key') e ∧
      e.map Prod.fst = Function.update m key (some value) key' ∧ Counts (n + 1) (versionOf e) := by
  by_cases hkey : key' = key
  · subst hkey
    refine ⟨some (value, version), fun x hx => ?_, by simp, counts⟩
    rw [hstored, written, if_pos ⟨hx, rfl⟩]
  · obtain ⟨e, hcommon, hvalue, hcounts⟩ := h.common key'
    refine ⟨e, fun x hx => ?_, ?_, hcounts.mono (Nat.le_succ n)⟩
    · rw [hstored, written, if_neg fun hw => hkey hw.2]
      exact hcommon x hx
    · rw [hvalue, Function.update_of_ne hkey]

/-- A call that writes nothing keeps all values. -/
theorem keep (h : Stores hash alive members r n s m) {state : String → GossipNode}
    (hstored : stored state = stored s.net.state) (key : String) :
    ∃ e, Common state key (quorum hash r alive key) e ∧ e.map Prod.fst = m key ∧
      Counts (n + 1) (versionOf e) := by
  obtain ⟨e, hcommon, hvalue, hcounts⟩ := h.common key
  refine ⟨e, fun x hx => ?_, hvalue, hcounts.mono (Nat.le_succ n)⟩
  rw [hstored]
  exact hcommon x hx

end Stores

variable (inside : ∀ key, ∀ x ∈ quorum hash r alive key, x ∈ members)
variable (enough : ∀ key, rCount ≤ (quorum hash r alive key).length)

include inside enough

/-- Every call does to the cluster what it does to the map. -/
theorem implements : Implements (perform hash) mapStep (MayCall alive members r)
    (Stores hash alive members r) (2 ^ 64 - 1) :=
  implements_of_step fun n s m e short h may => by
    obtain ⟨env, call⟩ := e
    cases call with
    | get name key attempts selections =>
      obtain ⟨reliable, agree⟩ := may
      obtain ⟨e, hcommon, hvalue, _⟩ := h.common key
      obtain ⟨client', w', hrun, view, same, ⟨hstub, hquorum⟩, _⟩ := get_run hash 1 hcommon reliable
        ⟨agree, fun x hx => h.reaches x hx key, inside key, enough key⟩ (h.attached name) attempts
        selections
      refine ⟨{ s with clients := Function.update s.clients name client', net := w' }, ?_,
        h.attach name ⟨hstub, inside key _ hquorum⟩,
        fun x hx key' => view.reaches (h.reaches x hx key'), h.keep same⟩
      have hread : (e.getD (noValue, [])).1 = (m key).getD noValue := by
        rw [← hvalue]
        cases e <;> rfl
      simp only [perform, mapStep, hrun, hread, Option.map_some]
    | put name key value attempts inputs rounds =>
      obtain ⟨reliable, agree⟩ := may
      obtain ⟨e, hcommon, _, hcounts⟩ := h.common key
      obtain ⟨client', w', p, hrun, view, hstored, hstub, hquorum⟩ := put_run hash 1 reliable
        ⟨agree, fun x hx => h.reaches x hx key, inside key, enough key⟩ (h.attached name) hcommon
        (hcounts.stampable short) value attempts inputs rounds
      refine ⟨{ s with clients := Function.update s.clients name client', net := w' }, ?_,
        h.attach name ⟨hstub, inside key _ hquorum⟩,
        fun x hx key' => view.reaches (h.reaches x hx key'), h.put (hcounts.stamp short p) hstored⟩
      simp only [perform, mapStep, hrun, Option.map_some]
    | turn node =>
      obtain ⟨w', hrun, times⟩ := turn_quiet hash env 1 node s.net
      refine ⟨{ s with net := w' }, ?_, h.attached, fun x hx key' y hy hay hne => ?_,
        h.keep times.stored_eq⟩
      · simp only [perform, mapStep, hrun, Option.map_some]
      · rw [times.stubs x]
        exact h.reaches x hx key' y hy hay hne
    | command addr cmd => exact False.elim may

/-- Any calls, of any clients, on empty stores: each of them is answered as by the map.
After `2 ^ 64` calls a counter could have wrapped around. -/
theorem sequential_store (attached : ∀ client, Attached members (s.clients client))
    (reaches : ∀ n ∈ members, ∀ key, Reaches alive (candidates hash r key) n s.net.state)
    (empty : ∀ key, Common s.net.state key (quorum hash r alive key) none)
    (events : List Event) (short : events.length < 2 ^ 64)
    (admissible : Admissible (perform hash) (MayCall alive members r) s events) :
    ∃ s', runEvents (perform hash) s events =
      some (s', outputs mapStep (fun _ => none) events) := by
  have start : Stores hash alive members r 0 s fun _ => none :=
    ⟨attached, reaches, fun key => ⟨none, empty key, rfl, counts_nil 0⟩⟩
  obtain ⟨s', hrun, _⟩ := (implements inside enough).run events (by omega) start admissible
  exact ⟨s', hrun⟩

end Fixed

section Samples

/-- Three nodes, and clients that all know node A. -/
def threeServers : Deployment where
  admin := .init []
  clients _ := ⟨(∅ : Map Unit).insert "A" (), "A", .empty⟩
  net := ⟨holding fourNodes ["A", "B", "C"] [] "k" (noValue, []), 0⟩

/-- One client puts, and another one gets. -/
def putThenGet : List Event :=
  [⟨calmEnv, .put "p" "k" "v" 0 (fun _ => ⟨[], 0⟩) 0⟩, ⟨calmEnv, .get "g" "k" 0 []⟩]

theorem accurate_threeNodes : Accurate (ringWith fourNodes ["A", "B", "C"]) := by
  rw [Accurate]
  decide +kernel

theorem quorum_threeNodes (key : String) :
    quorum fourNodes (ringWith fourNodes ["A", "B", "C"]) (fun _ => true) key =
      owners fourNodes (ringWith fourNodes ["A", "B", "C"]) key := by
  have hlength : (owners fourNodes (ringWith fourNodes ["A", "B", "C"]) key).length = 3 := by
    rw [length_owners]
    decide +kernel
  rw [quorum_eq_replicas accurate_threeNodes fun _ _ => rfl, ReplicaSets.replicas,
    List.take_of_length_le (by rw [hlength]; decide)]

theorem sequential_store_sample : ∃ s', runEvents (perform fourNodes) threeServers putThenGet =
    some (s', [.put (some true), .get (some (.success "v"))]) := by
  have ring : RingOf fourNodes {n | n ∈ ["A", "B", "C"]} (ringWith fourNodes ["A", "B", "C"]) :=
    ReplicaSets.ringOf_ringWith _ (ReplicaSets.noCollision_fourNodes.subset (by
      intro n hn
      simp only [Set.mem_ofPred_eq, List.mem_cons] at hn ⊢
      tauto))
  have inside : ∀ key, ∀ x ∈ candidates fourNodes (ringWith fourNodes ["A", "B", "C"]) key,
      x ∈ ["A", "B", "C"] :=
    fun key x hx => (ring.mem_owners Nat.one_pos).mp (mem_owners_of_mem_candidates hx)
  have agree : Agree calmEnv (fun _ => true) {n | n ∈ ["A", "B", "C"]}
      (ringWith fourNodes ["A", "B", "C"]) threeServers.net.state :=
    agree_holding _ _ _ _
  have reaches : ∀ n ∈ {n | n ∈ ["A", "B", "C"]}, ∀ key, Reaches (fun _ => true)
      (candidates fourNodes (ringWith fourNodes ["A", "B", "C"]) key) n threeServers.net.state :=
    fun n hn key => reaches_holding (inside key) hn
  have attached : ∀ client, Attached {n | n ∈ ["A", "B", "C"]} (threeServers.clients client) :=
    fun _ => ⟨(AList.mem_insert _).mpr (Or.inl rfl), by simp [threeServers]⟩
  have within : ∀ key, ∀ x ∈ quorum fourNodes (ringWith fourNodes ["A", "B", "C"])
      (fun _ => true) key, x ∈ {n | n ∈ ["A", "B", "C"]} :=
    fun key x hx => inside key x (List.mem_filter.mp (List.mem_of_mem_take hx)).1
  have enough : ∀ key, rCount ≤ (quorum fourNodes (ringWith fourNodes ["A", "B", "C"])
      (fun _ => true) key).length := by
    intro key
    rw [quorum_threeNodes, length_owners]
    decide +kernel
  have empty : ∀ key, Common threeServers.net.state key
      (quorum fourNodes (ringWith fourNodes ["A", "B", "C"]) (fun _ => true) key) none := by
    intro key x _
    exact (stored_holding x key).trans (if_neg fun h => absurd h.1 List.not_mem_nil)
  refine sequential_store within enough attached reaches empty putThenGet (by decide)
    ⟨⟨calmEnv_reliable, agree⟩, fun x hx => ⟨⟨calmEnv_reliable, ?_⟩, fun _ _ => trivial⟩⟩
  obtain ⟨client', w', p, hrun, view, _⟩ := put_run fourNodes 1 calmEnv_reliable
    ⟨agree, fun x hx => reaches x hx "k", within "k", enough "k"⟩ (attached "p") (empty "k")
    ((counts_nil 0).stampable (by decide)) "v" 0 (fun _ => ⟨[], 0⟩) 0
  have hnet : x.1.net = w' := by
    simp only [perform, hrun, Option.map_some, Option.some.injEq] at hx
    rw [← hx]
  rw [hnet]
  exact view.agree agree

end Samples

end SequentialStore
