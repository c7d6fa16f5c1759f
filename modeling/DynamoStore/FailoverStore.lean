import DynamoStore.NewestEntry

/-!
# One map while servers fail and come back

Any server may be silent for a while, keeps what it stored, and comes back. As long as
enough replicas of a key are alive whenever it is read or written, no write is lost: the
last one is among the data that a get is answered with. What else is there is older, and
only seems to conflict because its clock lacks a server. The client then asks its user, and
writes the chosen value.
-/

namespace FailoverStore

open RpcPrograms SequentialObjects GossipNode StateMachine KeyValueStoreClient VectorClocks
open RingOwners ClusterStores HandlerRuns ReplicaSets QuorumRuns
open ClientOperations SequentialStore NewestEntry

/-- All values that were written for each key, the last one first. -/
abbrev History := String → List String

def push (m : History) (key value : String) : History :=
  Function.update m key (value :: m key)

/-- A read may end with the choice, and the write, of one of the earlier values. -/
inductive Read (key : String) (m : History) : History → Prop where
  | latest : Read key m m
  | chosen (value : String) : value ∈ m key → Read key m (push m key value)

/-- What the store is for, while servers fail. -/
inductive Takes (m : History) : Event → Output → History → Prop where
  | get {env : Env String Int64} {client key : String} {attempts : Nat} {selections : List Int}
    {m' : History} : Read key m m' →
    Takes m ⟨env, .get client key attempts selections⟩
      (.get (some (.success ((m' key).headD noValue)))) m'
  | put {env : Env String Int64} {client key value : String} {attempts rounds : Nat}
    {inputs : Nat → RoundInput} {m' : History} : Read key m m' →
    Takes m ⟨env, .put client key value attempts inputs rounds⟩ (.put (some true))
      (push m' key value)
  | turn {env : Env String Int64} {node : String} : Takes m ⟨env, .turn node⟩ .turn m

/-- All servers stay on the common ring, and have stubs for each other. -/
structure Connected (servers : Set String) (r : ConsistentHashingRing)
    (state : String → GossipNode) : Prop where
  ring : ∀ n ∈ servers, (state n).ring = r
  stubs : ∀ n ∈ servers, ∀ m ∈ servers, m ≠ n → m ∈ (state n).stubs

/-- The replicas of a key that are alive. -/
def living (hash : String → UInt64) (r : ConsistentHashingRing) (alive : String → Bool)
    (key : String) : List String :=
  (replicas hash r key).filter alive

/-- The servers that are alive know which ones are, and the key can be read. -/
structure Serves (hash : String → UInt64) (env : Env String Int64) (alive : String → Bool)
    (servers : Set String) (r : ConsistentHashingRing) (key : String)
    (state : String → GossipNode) : Prop where
  sees : ∀ n ∈ servers, alive n = true → SeesAlive env alive n (state n)
  readable : rCount ≤ (living hash r alive key).length

/-- A client can make a request for the key. -/
def Served (hash : String → UInt64) (servers : Set String) (r : ConsistentHashingRing)
    (s : Deployment) (env : Env String Int64) (client key : String) : Prop :=
  env.Reliable ∧ ∃ alive, Serves hash env alive servers r key s.net.state ∧
    wCount ≤ (living hash r alive key).length ∧
    Attached {x | x ∈ servers ∧ alive x = true} (s.clients client)

/-- Requests come while the key is served, by clients whose users will choose the first
value at last. Nobody joins or leaves. -/
def MayCall (hash : String → UInt64) (servers : Set String) (r : ConsistentHashingRing)
    (s : Deployment) (e : Event) : Prop :=
  match e.call with
  | .get client key attempts selections =>
    Served hash servers r s e.env client key ∧ 0 < attempts ∧ 0 ∈ selections
  | .put client key _ attempts inputs rounds =>
    Served hash servers r s e.env client key ∧ 0 < attempts ∧ 0 ∈ (inputs rounds).selections
  | .turn _ => True
  | .command .. => False

/-- The servers hold what was written. -/
def Keeps (hash : String → UInt64) (servers : Set String) (r : ConsistentHashingRing) (n : Nat)
    (state : String → GossipNode) (m : History) : Prop :=
  ∀ key, Kept servers (replicas hash r key) n (fun x => stored state x key) (m key)

variable {hash : String → UInt64} {servers : Set String} {r : ConsistentHashingRing}
variable {env : Env String Int64} {alive : String → Bool} {key value : String} {n depth : Nat}
variable {w w' : Net} {m : History} {client : KeyValueStoreClient}

section Quorums

theorem mem_servers_of_quorum (ring : RingOf hash servers r) {x : String}
    (hx : x ∈ quorum hash r alive key) :
    x ∈ servers ∧ alive x = true := by
  obtain ⟨hcandidate, halive⟩ := List.mem_filter.mp (List.mem_of_mem_take hx)
  obtain ⟨p, hp⟩ := RingOwners.mem_owners.mp (mem_owners_of_mem_candidates hcandidate)
  exact ⟨((ring p x).mp hp).1, halive⟩

variable (hash key) in
/-- The replicas that are alive come first. -/
theorem quorum_eq_append (accurate : Accurate r) (alive : String → Bool) :
    ∃ rest, quorum hash r alive key = living hash r alive key ++ rest := by
  have hcandidates : candidates hash r key =
      replicas hash r key ++ ((owners hash r key).drop replicaN).take replicaN := by
    rw [candidates, getReplicasNodes_of_accurate accurate (by decide) (by decide),
      show 2 * replicaN = replicaN + replicaN from rfl, List.take_add, replicas]
  have hlength : (living hash r alive key).length ≤ replicaN :=
    (List.length_filter_le _ _).trans (List.length_take_le _ _)
  rw [quorum, contacted, hcandidates, List.filter_append, Nat.sub_zero, List.take_append,
    List.take_of_length_le (by exact hlength)]
  exact ⟨_, rfl⟩

variable (accurate : Accurate r)

include accurate

theorem mem_quorum_of_living {x : String} (hx : x ∈ replicas hash r key) (halive : alive x = true) :
    x ∈ quorum hash r alive key := by
  obtain ⟨rest, hrest⟩ := quorum_eq_append hash key accurate alive
  rw [hrest]
  exact List.mem_append_left _ (List.mem_filter.mpr ⟨hx, halive⟩)

variable (ring : RingOf hash servers r)

include ring

theorem Serves.usable (serves : Serves hash env alive servers r key w.state)
    (connected : Connected servers r w.state) :
    Usable hash env alive {x | x ∈ servers ∧ alive x = true} r key w.state where
  agree x hx := ⟨connected.ring x hx.1, serves.sees x hx.1 hx.2⟩
  reaches x hx y hy halive hne := by
    obtain ⟨p, hp⟩ := RingOwners.mem_owners.mp (mem_owners_of_mem_candidates hy)
    exact connected.stubs x hx.1 y ((ring p y).mp hp).1 hne
  inside _ hx := mem_servers_of_quorum ring hx
  enough := by
    obtain ⟨rest, hrest⟩ := quorum_eq_append hash key accurate alive
    rw [hrest, List.length_append]
    exact serves.readable.trans (Nat.le_add_right _ _)

/-- What a request finds. -/
theorem Serves.finds (serves : Serves hash env alive servers r key w.state)
    (keeps : Keeps hash servers r n w.state m) :
    ∃ d, Finds servers n (fun x => stored w.state x key) (m key)
      (getLatestData ((quorum hash r alive key).map (reads w.state key))) d :=
  (keeps key).finds (List.length_take_le _ _) serves.readable
    (fun _ hx => (mem_servers_of_quorum ring hx).1)
    fun _ hx halive => mem_quorum_of_living accurate hx halive

end Quorums

section Clients

theorem Connected.of_view {state state' : String → GossipNode} (h : Connected servers r state)
    (ring : ∀ n, (state' n).ring = (state n).ring)
    (stubs : ∀ n, (state' n).stubs = (state n).stubs) :
    Connected servers r state' :=
  ⟨fun n hn => (ring n).trans (h.ring n hn), fun n hn m hm hne => by
    rw [stubs n]
    exact h.stubs n hn m hm hne⟩

theorem Keeps.of_stored {n' : Nat} {state state' : String → GossipNode}
    (h : Keeps hash servers r n state m) (same : stored state' = stored state) (hn : n ≤ n') :
    Keeps hash servers r n' state' m := by
  intro key
  rw [same]
  exact (h key).mono hn

/-- The stamp of this clock by the server that the client is attached to is newer than
anything that the servers store for the key. -/
def Leads (servers : Set String) (n : Nat) (state : String → GossipNode) (key : String)
    (client : KeyValueStoreClient) : Prop :=
  Ahead servers n (fun x => stored state x key) (client.stateMachine.getVersion key)
    client.assignedCoordinator

/-- What the user of a conflict selects. -/
theorem exists_selected {found : List Data} {selections : List Int} (hne : found ≠ [])
    (asked : 0 ∈ selections) :
    ∃ d ∈ found, (selections.findSome? fun selected =>
      if 0 ≤ selected then found[selected.toNat]? else none) = some d := by
  cases hselected : selections.findSome? fun selected =>
      if 0 ≤ selected then found[selected.toNat]? else none with
  | none =>
    have hzero := List.findSome?_eq_none_iff.mp hselected 0 asked
    exact absurd (List.getElem?_eq_none_iff.mp hzero) (by simpa using hne)
  | some d =>
    obtain ⟨selected, _, hd⟩ := List.exists_of_findSome?_eq_some hselected
    split at hd
    · exact ⟨d, List.mem_of_getElem? hd, rfl⟩
    · cases hd

variable (accurate : Accurate r) (ring : RingOf hash servers r)
variable (reliable : env.Reliable) (writable : wCount ≤ (living hash r alive key).length)

include accurate ring reliable writable

variable (depth) in
/-- A write of the client with a clock that leads. -/
theorem write_step (connected : Connected servers r w.state)
    (serves : Serves hash env alive servers r key w.state)
    (keeps : Keeps hash servers r n w.state m)
    (attached : Attached {x | x ∈ quorum hash r alive key} client)
    (leads : Leads servers n w.state key client) (short : n < 2 ^ 64 - 1) (value : String)
    (attempts : Nat) :
    ∃ client' w', runBeside hash env (depth + 2) (putRetry key value (attempts + 1)) client w =
        some (client', w', some true) ∧ SameView w.state w'.state ∧
      Keeps hash servers r (n + 1) w'.state (push m key value) ∧
      Attached {x | x ∈ quorum hash r alive key} client' ∧
      (n + 1 < 2 ^ 64 - 1 → Leads servers (n + 1) w'.state key client') := by
  have willing : Willing client.assignedCoordinator key
      (value, updateVersion (client.stateMachine.getVersion key) client.assignedCoordinator)
      w.state (quorum hash r alive key) := fun x hx =>
    Or.inr (leads.takenOver (keeps key) (mem_servers_of_quorum ring hx).1)
  obtain ⟨client', w', hrun, view, hstored, hassigned, hstubs, coordinator, hcached⟩ :=
    putRetry_run hash depth reliable (serves.usable accurate ring connected) attached rfl value
      willing attempts
  have hwritten : ∀ x, stored w'.state x key = if x ∈ quorum hash r alive key then
      some (value, updateVersion (client.stateMachine.getVersion key) client.assignedCoordinator)
      else stored w.state x key := by
    intro x
    rw [hstored, written]
    simp
  refine ⟨client', w', hrun, view, fun key' => ?_, ?_, fun short' => ?_⟩
  · by_cases hkey : key' = key
    · subst hkey
      rw [push, Function.update_self]
      exact (keeps key').write leads short hwritten writable
        fun x hx halive => mem_quorum_of_living accurate hx halive
    · have hsame : (fun x => stored w'.state x key') = fun x => stored w.state x key' := by
        funext x
        rw [hstored, written, if_neg fun h => hkey h.2]
      rw [push, Function.update_of_ne hkey, hsame]
      exact (keeps key').mono (Nat.le_succ n)
  · rw [Attached, hassigned, hstubs]
    exact attached
  · rw [Leads, hcached, hassigned]
    exact leads.again short hwritten short' coordinator

variable (depth) in
/-- A get, which writes if it finds more than one entry. -/
theorem get_step (connected : Connected servers r w.state)
    (serves : Serves hash env alive servers r key w.state)
    (keeps : Keeps hash servers r n w.state m)
    (attached : Attached {x | x ∈ servers ∧ alive x = true} client) (short : n + 1 < 2 ^ 64 - 1)
    {attempts : Nat} (fuel : 0 < attempts) {selections : List Int} (asked : 0 ∈ selections) :
    ∃ client' w' m', runBeside hash env (depth + 2) (get key attempts selections) client w =
        some (client', w', some (.success ((m' key).headD noValue))) ∧
      SameView w.state w'.state ∧ Read key m m' ∧ Keeps hash servers r (n + 1) w'.state m' ∧
      Attached {x | x ∈ quorum hash r alive key} client' ∧
      Leads servers (n + 1) w'.state key client' := by
  obtain ⟨client₁, w₁, hrun, view, same, attached₁, _⟩ := get_reconciles hash depth reliable
    (serves.usable accurate ring connected) attached attempts selections
  obtain ⟨d, finds⟩ := serves.finds accurate ring keeps
  have keeps₁ : Keeps hash servers r n w₁.state m := keeps.of_stored same le_rfl
  rw [← same] at finds
  generalize getLatestData ((quorum hash r alive key).map (reads w.state key)) = found
    at finds hrun
  match found with
  | [] => exact absurd finds.mem List.not_mem_nil
  | [d'] =>
    cases List.mem_singleton.mp finds.mem
    refine ⟨change (.put key d.1 d.2) client₁, w₁, m, ?_, view, .latest,
      keeps.of_stored same (Nat.le_succ n), attached₁, ?_⟩
    · rw [hrun, ← finds.value]
      rfl
    · have hcached : (change (.put key d.1 d.2) client₁).stateMachine.getVersion key = d.2 :=
        getVersion_put _ _
      rw [Leads, hcached]
      exact (finds.ahead (keeps₁ key) (Nat.lt_of_succ_lt short) _).mono (Nat.le_succ n)
  | d₁ :: d₂ :: rest =>
    obtain ⟨attempts, rfl⟩ := Nat.exists_eq_add_one.mpr fuel
    obtain ⟨d', hd', hselected⟩ := exists_selected (List.cons_ne_nil d₁ (d₂ :: rest)) asked
    have known : d'.1 ∈ m key := by
      rcases finds.older d' hd' with rfl | ⟨hknown, _⟩
      · exact finds.single.resolve_left (by simp)
      · exact hknown
    -- the client after it has cached the selected value with the merged clock
    obtain ⟨client₂, hclient₂⟩ : ∃ client₂, client₂ = change (.put key d'.1 (reconcileVersion
        (env.order w₁.tick) (d₁ :: d₂ :: rest))) client₁ := ⟨_, rfl⟩
    have leads : Leads servers n w₁.next.state key client₂ := by
      have hcached : client₂.stateMachine.getVersion key =
          reconcileVersion (env.order w₁.tick) (d₁ :: d₂ :: rest) := by
        rw [hclient₂]
        exact getVersion_put _ _
      rw [Leads, hcached]
      exact finds.ahead_merged (keeps₁ key) (Nat.lt_of_succ_lt short) (env.perm w₁.tick) _
    have attached₂ : Attached {m | m ∈ quorum hash r alive key} client₂ := by
      rw [hclient₂]
      exact attached₁
    obtain ⟨client', w', hput, view', keeps', attached', leads'⟩ := write_step depth accurate ring
      reliable writable (w := w₁.next) (connected.of_view view.ring view.stubs)
      ⟨fun x hx halive => view.seesAlive (serves.sees x hx halive), serves.readable⟩ keeps₁
      attached₂ leads (Nat.lt_of_succ_lt short) d'.1 attempts
    refine ⟨client', w', push m key d'.1, ?_, view.trans view', .chosen d'.1 known, keeps',
      attached', leads' short⟩
    have hreconcile : runBeside hash env (depth + 2) (reconcile key (attempts + 1) selections
        (d₁ :: d₂ :: rest)) client₁ w₁ = some (client', w', some d'.1) := by
      rw [reconcile]
      · simp only [runBeside_bind, runBeside_iterate, Option.bind_some, hselected,
          runBeside_perform]
        rw [show change (.put key d'.1 (reconcileVersion (fun _ => env.order w₁.tick
          (mergeVersions (d₁ :: d₂ :: rest)).keys) (d₁ :: d₂ :: rest))) client₁ = client₂ from
            hclient₂.symm, hput]
        rfl
      · simp
      · simp
    rw [hrun, hreconcile, push, Function.update_self]
    rfl

variable (depth) in
/-- A put reads first, and then writes. -/
theorem put_step (connected : Connected servers r w.state)
    (serves : Serves hash env alive servers r key w.state)
    (keeps : Keeps hash servers r n w.state m)
    (attached : Attached {x | x ∈ servers ∧ alive x = true} client) (short : n + 1 < 2 ^ 64 - 1)
    {attempts : Nat} (fuel : 0 < attempts) {inputs : Nat → RoundInput} {rounds : Nat}
    (asked : 0 ∈ (inputs rounds).selections) (value : String) :
    ∃ client' w' m', runBeside hash env (depth + 2)
        (KeyValueStoreClient.put key value false attempts inputs rounds) client w =
          some (client', w', some true) ∧
      SameView w.state w'.state ∧ Read key m m' ∧
      Keeps hash servers r (n + 2) w'.state (push m' key value) := by
  obtain ⟨client₁, w₁, m', hget, view, read, keeps₁, attached₁, leads⟩ := get_step depth accurate
    ring reliable writable connected serves keeps attached short fuel asked
  obtain ⟨client', w', hput, view', keeps', _⟩ := write_step depth accurate ring reliable writable
    (connected.of_view view.ring view.stubs)
    ⟨fun x hx halive => view.seesAlive (serves.sees x hx halive), serves.readable⟩ keeps₁
    attached₁ leads short value attempts
  exact ⟨client', w', m', (runBeside_put value attempts inputs rounds hget).trans hput,
    view.trans view', read, keeps'⟩

end Clients

section Runs

/-- How the cluster stands after `n` calls, each of which makes at most two writes. -/
structure Stands (hash : String → UInt64) (servers : Set String) (r : ConsistentHashingRing)
    (n : Nat) (s : Deployment) (m : History) : Prop where
  connected : Connected servers r s.net.state
  keeps : Keeps hash servers r (2 * n) s.net.state m

variable (accurate : Accurate r) (ring : RingOf hash servers r)

include accurate ring

/-- Every call is taken as it may be. -/
theorem simulates : Simulates (perform hash) Takes (MayCall hash servers r)
    (Stands hash servers r) (2 ^ 63 - 1) where
  step n s m e short h may := by
    obtain ⟨env, call⟩ := e
    have room : 2 * n + 1 < 2 ^ 64 - 1 := by omega
    cases call with
    | get name key attempts selections =>
      obtain ⟨⟨reliable, alive, serves, writable, attached⟩, fuel, asked⟩ := may
      obtain ⟨client', w', m', hrun, view, read, keeps, _⟩ := get_step 1 accurate ring reliable
        writable h.connected serves h.keeps attached room fuel asked
      refine ⟨{ s with clients := Function.update s.clients name client', net := w' }, _, m', ?_,
        .get read, h.connected.of_view view.ring view.stubs,
        keeps.of_stored rfl (Nat.le_succ (2 * n + 1))⟩
      simp only [perform, hrun, Option.map_some]
    | put name key value attempts inputs rounds =>
      obtain ⟨⟨reliable, alive, serves, writable, attached⟩, fuel, asked⟩ := may
      obtain ⟨client', w', m', hrun, view, read, keeps⟩ := put_step 1 accurate ring reliable
        writable h.connected serves h.keeps attached room fuel asked value
      refine ⟨{ s with clients := Function.update s.clients name client', net := w' }, _,
        push m' key value, ?_, .put read, h.connected.of_view view.ring view.stubs, keeps⟩
      simp only [perform, hrun, Option.map_some]
    | turn node =>
      obtain ⟨w', hrun, times⟩ := turn_quiet hash env 1 node s.net
      refine ⟨{ s with net := w' }, _, m, ?_, .turn, h.connected.of_view times.ring times.stubs,
        h.keeps.of_stored times.stored_eq (Nat.le_add_right _ 2)⟩
      simp only [perform, hrun, Option.map_some]
    | command addr cmd => exact False.elim may

/-- Whatever servers are alive when, the calls are answered as the history explains. A get of
any key that can be read is then answered with the value that was written last, and with
nothing but older ones beside it. -/
theorem failover_store {s : Deployment} (connected : Connected servers r s.net.state)
    (empty : ∀ n ∈ servers, ∀ key, stored s.net.state n key = none) (events : List Event)
    (short : events.length < 2 ^ 63)
    (admissible : Admissible (perform hash) (MayCall hash servers r) s events) :
    ∃ s' outs m', runEvents (perform hash) s events = some (s', outs) ∧
      Explained Takes (fun _ => []) events outs m' ∧
      ∀ (env : Env String Int64) alive key, env.Reliable →
        Serves hash env alive servers r key s'.net.state → ∀ n ∈ servers, alive n = true →
          ∃ w' found coordinator, serveOn hash env 2 n (.clientGet key) s'.net =
              some (w', .clientGet found coordinator) ∧
            ∃ d ∈ found, d.1 = (m' key).headD noValue ∧
              ∀ d' ∈ found, d' = d ∨ (d'.1 ∈ m' key ∧ StrictlyBelow d'.2 d.2) := by
  have start : Stands hash servers r 0 s fun _ => [] :=
    ⟨connected, fun key => Or.inl ⟨rfl, fun x hx => empty x hx key⟩⟩
  obtain ⟨s', outs, m', hrun, explained, stands⟩ := (simulates accurate ring).run events
    (by omega) start admissible
  refine ⟨s', outs, m', hrun, explained, fun env alive key reliable serves n hn halive => ?_⟩
  have usable := serves.usable accurate ring stands.connected
  obtain ⟨w', recent, hget, _⟩ := clientGet_answered hash 0 key reliable
    (serves.sees n hn halive) (stands.connected.ring n hn) (usable.reaches n ⟨hn, halive⟩)
    usable.enough
  obtain ⟨d, finds⟩ := serves.finds accurate ring stands.keeps
  exact ⟨w', _, _, hget, d, finds.mem, finds.value, finds.older⟩

end Runs

section Samples

def later : Int64 := 20000000000

def trio : List String := ["A", "B", "C"]

/-- Servers B and C were heard of later than server A. -/
def heardOf (n : String) : GossipNode :=
  { cluster fourNodes trio n with
    membersHeartbeatList := ((∅ : Map Int64).insert "B" later).insert "C" later }

/-- Client p knows server A, all others know server B. -/
def threeServers : Deployment where
  admin := .init []
  clients name := if name = "p" then ⟨(∅ : Map Unit).insert "A" (), "A", .empty⟩
    else ⟨(∅ : Map Unit).insert "B" (), "B", .empty⟩
  net := ⟨heardOf, 0⟩

def laterEnv : Env String Int64 := { calmEnv with now := fun _ => later }

/-- A write, another one while server A is silent, and a read when it is back. -/
def failAndReturn : List Event :=
  [⟨calmEnv, .put "p" "k" "v" 1 (fun _ => ⟨[0], 0⟩) 0⟩,
    ⟨laterEnv, .put "g" "k" "w" 1 (fun _ => ⟨[0], 0⟩) 0⟩, ⟨calmEnv, .get "p" "k" 1 [1, 0]⟩]

/-- What is checked of the heartbeats that a server knows. -/
def Heard (node : GossipNode) : Prop :=
  (node.membersHeartbeatList.lookup "B" = some later ∧
    node.membersHeartbeatList.lookup "C" = some later) ∧
    ∀ p ∈ node.membersHeartbeatList.entries, p.1 = "B" ∨ p.1 = "C" ∨ p.2 = 0

instance (node : GossipNode) : Decidable (Heard node) :=
  inferInstanceAs (Decidable ((_ ∧ _) ∧ _))

theorem Heard.heartbeat {node : GossipNode} (h : Heard node) (m : String) :
    node.heartbeat m = if m = "B" ∨ m = "C" then later else 0 := by
  obtain ⟨⟨hB, hC⟩, others⟩ := h
  rw [GossipNode.heartbeat]
  split
  · rename_i hm
    rcases hm with rfl | rfl
    · rw [hB, Option.getD_some]
    · rw [hC, Option.getD_some]
  · rename_i hm
    cases hlookup : node.membersHeartbeatList.lookup m with
    | none => rfl
    | some time =>
      have hzero := others ⟨m, time⟩ (AList.mem_lookup_iff.mp hlookup)
      exact (or_assoc.mpr hzero).resolve_left hm

/-- At the epoch everybody seems alive. -/
theorem Heard.sees_all {node : GossipNode} (h : Heard node) (n : String) :
    SeesAlive calmEnv (fun _ => true) n node := by
  refine ⟨rfl, fun m _ i => ?_⟩
  rw [h.heartbeat]
  simp only [iff_true]
  split
  · exact show durationMs 0 later < checkAliveInterval by decide
  · exact show durationMs 0 0 < checkAliveInterval by decide

theorem Heard.sees_later {node : GossipNode} (h : Heard node) {n : String}
    (hn : n = "B" ∨ n = "C") :
    SeesAlive laterEnv (fun m => decide (m = "B" ∨ m = "C")) n node := by
  refine ⟨decide_eq_true hn, fun m _ i => ?_⟩
  rw [h.heartbeat, decide_eq_true_eq]
  split
  · rename_i hm
    exact ⟨fun _ => hm, fun _ => show durationMs later later < checkAliveInterval by decide⟩
  · rename_i hm
    refine ⟨fun hlt => absurd hlt ?_, fun hm' => absurd hm' hm⟩
    exact show ¬ durationMs later 0 < checkAliveInterval by decide

/-- What is checked before a client makes a request. -/
def Ready (s : Deployment) (name addr : String) : Prop :=
  (∀ y ∈ trio, Heard (s.net.state y)) ∧ addr ∈ trio ∧
    addr ∈ (s.clients name).stubs ∧ (s.clients name).assignedCoordinator = addr

instance (s : Deployment) (name addr : String) : Decidable (Ready s name addr) :=
  inferInstanceAs (Decidable (_ ∧ _ ∧ _ ∧ _))

theorem Ready.served {s : Deployment} {name addr : String} (h : Ready s name addr) :
    Served fourNodes {n | n ∈ trio} (ringWith fourNodes trio) s calmEnv name "k" := by
  obtain ⟨heard, haddr, hstub, hcoordinator⟩ := h
  refine ⟨calmEnv_reliable, fun _ => true,
    ⟨fun n hn _ => (heard n hn).sees_all n, by decide +kernel⟩, by decide +kernel, ?_⟩
  rw [Attached, hcoordinator]
  exact ⟨hstub, haddr, rfl⟩

theorem Ready.served_later {s : Deployment} {name addr : String} (h : Ready s name addr)
    (other : addr = "B" ∨ addr = "C") :
    Served fourNodes {n | n ∈ trio} (ringWith fourNodes trio) s laterEnv name "k" := by
  obtain ⟨heard, haddr, hstub, hcoordinator⟩ := h
  refine ⟨fun _ _ => rfl, fun m => decide (m = "B" ∨ m = "C"),
    ⟨fun n hn hlive => (heard n hn).sees_later (of_decide_eq_true hlive), by decide +kernel⟩,
    by decide +kernel, ?_⟩
  rw [Attached, hcoordinator]
  exact ⟨hstub, haddr, decide_eq_true other⟩

theorem failover_store_sample : ∃ s' outs m',
    runEvents (perform fourNodes) threeServers failAndReturn = some (s', outs) ∧
      Explained Takes (fun _ => []) failAndReturn outs m' := by
  have ring : RingOf fourNodes {n | n ∈ trio} (ringWith fourNodes trio) :=
    ReplicaSets.ringOf_ringWith _ (ReplicaSets.noCollision_fourNodes.subset (by
      intro n hn
      simp only [trio, Set.mem_ofPred_eq, List.mem_cons] at hn ⊢
      tauto))
  have connected : Connected {n | n ∈ trio} (ringWith fourNodes trio)
      threeServers.net.state :=
    ⟨fun n hn => if_pos hn, fun n hn m hm hne =>
      (@mem_cluster_stubs fourNodes trio n m).mpr ⟨hn, hm, hne⟩⟩
  obtain ⟨c₀, x₁, h₁, c₁, x₂, h₂, c₂⟩ : Ready threeServers "p" "A" ∧
      ∃ x₁ ∈ perform fourNodes threeServers
        ⟨calmEnv, .put "p" "k" "v" 1 (fun _ => ⟨[0], 0⟩) 0⟩, Ready x₁.1 "g" "B" ∧
      ∃ x₂ ∈ perform fourNodes x₁.1 ⟨laterEnv, .put "g" "k" "w" 1 (fun _ => ⟨[0], 0⟩) 0⟩,
        Ready x₂.1 "p" "A" := by
    decide +kernel
  obtain ⟨s', outs, m', hrun, explained, _⟩ := failover_store accurate_threeNodes ring connected
    (fun _ _ _ => rfl) failAndReturn (by decide)
    (admissible_cons ⟨c₀.served, by decide, by decide⟩ h₁
      (admissible_cons ⟨c₁.served_later (Or.inl rfl), by decide, by decide⟩ h₂
        ⟨⟨c₂.served, by decide, by decide⟩, fun _ _ => trivial⟩))
  exact ⟨s', outs, m', hrun, explained⟩

end Samples

end FailoverStore
