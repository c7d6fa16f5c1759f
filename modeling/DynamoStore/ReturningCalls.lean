import DynamoStore.ClientOperations
import DynamoStore.FreshHeartbeats
import DynamoStore.RingAgreement
import DynamoStore.SteadyProgress

/-!
# Calls of clients return

A put is sent on while the server is not a coordinator, and a client does not count how often.
Where the servers agree on a ring, it is never sent on: it gets before it puts, and after a get
it is attached to a server that any of them takes for a coordinator, or to nobody. So whatever
messages are lost, every call returns, unless a put cannot get.
-/

namespace ReturningCalls

open RpcPrograms SequentialObjects GossipNode StateMachine KeyValueStoreClient HandlerRuns
open HandlerEffects KeyIsolation SteadyProgress FreshHeartbeats
open RingOwners RingAgreement ClusterStores QuorumRuns ClientOperations SequentialStore

variable {hash : String → UInt64} {env : Env String Int64} {r : ConsistentHashingRing}
variable {dst key value : String} {q : Request} {client : KeyValueStoreClient} {w w' : Net}
variable {state state' : String → GossipNode}

/-- The servers on the ring share it, and every node has a stub for each other owner on the ring
that it has itself. -/
structure Settled (r : ConsistentHashingRing) (state : String → GossipNode) : Prop where
  shared : ∀ n, Names r n → (state n).ring = r
  covered : Covered state

/-- The client is attached to one of the servers, or to the empty address, which is what a
server that finds nobody alive sends it to. -/
def AttachedTo (servers : String → Prop) (client : KeyValueStoreClient) : Prop :=
  client.assignedCoordinator ∈ client.stubs ∧
    (client.assignedCoordinator = "" ∨ servers client.assignedCoordinator)

/-- No server listens at the empty address. -/
def NobodyUnnamed (env : Env String Int64) : Prop := ∀ i, env.fate i "" = .requestLost

/-- One of the numbers is a position in every list of two or more. -/
def Selects (selections : List Int) : Prop := (0 : Int) ∈ selections ∨ (1 : Int) ∈ selections

instance (selections : List Int) : Decidable (Selects selections) :=
  inferInstanceAs (Decidable (_ ∨ _))

theorem AttachedTo.mono {servers servers' : String → Prop} (h : AttachedTo servers client)
    (himp : ∀ n, servers n → servers' n) : AttachedTo servers' client :=
  ⟨h.1, h.2.imp_right (himp _)⟩

theorem AttachedTo.congr {servers : String → Prop} {client' : KeyValueStoreClient}
    (h : AttachedTo servers client)
    (assigned : client'.assignedCoordinator = client.assignedCoordinator)
    (stubs : client'.stubs = client.stubs) : AttachedTo servers client' := by
  rw [AttachedTo, assigned, stubs]
  exact h

theorem names_of_candidate (h : dst ∈ candidates hash r key) : Names r dst :=
  mem_owners.mp (mem_owners_of_mem_candidates h)

theorem Settled.congr (settled : Settled r state)
    (same : ∀ x, contacts (state' x) = contacts (state x)) : Settled r state' := by
  have parts := fun x => parts_of_contacts (same x)
  refine ⟨fun n hn => (parts n).1.trans (settled.shared n hn), fun n id hid hne => ?_⟩
  rw [(parts n).2.1]
  refine settled.covered n id ?_ hne
  obtain ⟨p, hp⟩ := hid
  rw [(parts n).1] at hp
  exact ⟨p, hp⟩

section Servers

variable (hash env) in
/-- A request is answered, and a client is told a server on the ring. -/
theorem serveOn_answers (covered : Covered w.state) (steady : ¬ MovesMembers q) (n : String) :
    ∃ w' a, serveOn hash env 3 n q w = some (w', a) ∧
      Replies hash (Unmoved w.state) n q a := by
  have unmoved : ∀ m, Unmoved w.state m (w.state m) := fun m => ⟨rfl, rfl⟩
  have kept := SteadyProgress.kept hash covered fun _ _ _ _ => True
  have descends : ∀ n q dst q', ¬ MovesMembers q → Sends hash (Unmoved w.state n) n q dst q' →
      CallDepth.rank dst q' < CallDepth.rank n q := fun _ _ _ _ _ h => CallDepth.rank_lt_of_sends h
  have ends : (serveOn hash env 3 n q w).isSome := CallRanks.handle_isSome descends kept
    (fun _ _ _ _ => trivial) id (CallDepth.rank_lt_three n q) steady unmoved
  obtain ⟨⟨w', a⟩, hrun⟩ := Option.isSome_iff_exists.mp ends
  obtain ⟨_, answers⟩ := kept.handle (fun _ _ => trivial) (fun _ _ _ _ => trivial)
    (fun _ _ _ _ _ _ => trivial) (fun _ _ _ _ _ _ _ => trivial) steady unmoved hrun
  exact ⟨w', a, hrun, answers⟩

variable (hash) in
/-- A request comes back, or it is lost. -/
theorem Settled.deliver (settled : Settled r w.state) (nobody : NobodyUnnamed env)
    (steady : ¬ MovesMembers q) (dst : String) :
    ∃ w' reply, HandlerRuns.deliver hash env 3 dst q w = some (w', reply) ∧
      Settled r w'.state ∧ ∀ a, reply = some a → dst ≠ "" ∧
        serveOn hash env 3 dst q w.next = some (w', a) ∧
        Replies hash (Unmoved w.state) dst q a := by
  obtain ⟨w₁, a, hserve, answers⟩ :=
    serveOn_answers hash env (w := w.next) settled.covered steady dst
  have same : ∀ x, contacts (w₁.state x) = contacts (w.next.state x) :=
    contacts_of_serveOn steady hserve
  have settled₁ := settled.congr same
  rw [HandlerRuns.deliver, network]
  split
  · rename_i hfate
    have named : dst ≠ "" := by
      rintro rfl
      rw [nobody] at hfate
      cases hfate
    refine ⟨w₁, some a, by rw [hserve]; rfl, settled₁, fun b hb => ?_⟩
    cases hb
    exact ⟨named, hserve, answers⟩
  · exact ⟨w.next, none, rfl, settled, fun _ h => by cases h⟩
  · exact ⟨w₁, none, by rw [hserve]; rfl, settled₁, fun _ h => by cases h⟩

/-- None of the servers that a put goes through sends the client on. -/
theorem not_sent_on {data : Data} {ret : PutReturn} {coordinator : String} {depth : Nat}
    (hdst : dst ∈ candidates hash (w.state dst).ring key)
    (hrun : serveOn hash env (depth + 1) dst (.clientPut key data) w =
      some (w', .clientPut ret coordinator)) : ret ≠ .notCoordinator := by
  have hcheck : ¬ isCoordinator dst (candidates hash (w.state dst).ring key) = false := by
    simpa [isCoordinator] using hdst
  rw [serveOn_succ, serve, serveClientPut, exec_bind, exec_read, Option.bind_some,
    exec_bind] at hrun
  obtain ⟨⟨w₁, candidate⟩, _, hrun⟩ := Option.bind_eq_some_iff.mp hrun
  rw [if_neg hcheck, exec_bind] at hrun
  obtain ⟨⟨w₂, successCnt⟩, _, hrun⟩ := Option.bind_eq_some_iff.mp hrun
  cases hrun
  split <;> exact PutReturn.noConfusion

end Servers

section Programs

variable (nobody : NobodyUnnamed env) (settled : Settled r w.state)

include nobody settled

variable (hash value) in
/-- A client that is attached to one of the servers for the key needs only one attempt. -/
theorem putRetry_returns (attached : AttachedTo (· ∈ candidates hash r key) client)
    (attempts : Nat) :
    ∃ client' w' ok, runBeside hash env 3 (putRetry key value (attempts + 1)) client w =
        some (client', w', some ok) ∧ Settled r w'.state ∧
      client'.assignedCoordinator = client.assignedCoordinator ∧ client'.stubs = client.stubs := by
  obtain ⟨hstub, hknown⟩ := attached
  obtain ⟨w', reply, hdeliver, settled', answered⟩ := settled.deliver hash
    nobody (show ¬ MovesMembers (.clientPut key (value, client.stateMachine.getVersion key))
      from id) client.assignedCoordinator
  have accepted : ∀ coordinator, reply ≠ some (.clientPut .notCoordinator coordinator) := by
    rintro coordinator rfl
    obtain ⟨named, hserve, _⟩ := answered _ rfl
    have hmem := hknown.resolve_left named
    rw [← settled.shared _ (names_of_candidate hmem)] at hmem
    exact not_sent_on (w := w.next) hmem hserve rfl
  generalize hrun : runBeside hash env 3 (putRetry key value (attempts + 1)) client w = x
  rw [putRetry, runBeside_bind, runBeside_read, Option.bind_some, if_pos hstub, runBeside_bind,
    runBeside_send, hdeliver, Option.map_some, Option.bind_some] at hrun
  split at hrun
  · cases hrun
    exact ⟨_, w', _, rfl, settled', rfl, rfl⟩
  · cases hrun
    exact ⟨_, w', _, rfl, settled', rfl, rfl⟩
  · rename_i coordinator heq
    exact absurd heq (accepted coordinator)
  · cases hrun
    exact ⟨_, w', _, rfl, settled', rfl, rfl⟩
  · cases hrun
    exact ⟨_, w', _, rfl, settled', rfl, rfl⟩

variable (hash) in
/-- What is read becomes one value, once the user has selected one. -/
theorem reconcile_returns (attached : AttachedTo (· ∈ candidates hash r key) client)
    (attempts : Nat) {selections : List Int} (selects : Selects selections)
    (conflictVersions : List Data) :
    ∃ client' w' result,
      runBeside hash env 3 (reconcile key (attempts + 1) selections conflictVersions) client w =
        some (client', w', some result) ∧ Settled r w'.state ∧
      AttachedTo (· ∈ candidates hash r key) client' := by
  match conflictVersions with
  | [] => exact ⟨client, w, _, rfl, settled, attached⟩
  | [d] => exact ⟨_, w, _, rfl, settled, attached⟩
  | d :: d' :: rest =>
    obtain ⟨selected, hselected⟩ : ∃ selected, (selections.findSome? fun selected =>
        if 0 ≤ selected then (d :: d' :: rest)[selected.toNat]? else none) = some selected := by
      refine Option.ne_none_iff_exists'.mp fun hnone => ?_
      rw [List.findSome?_eq_none_iff] at hnone
      rcases selects with h | h
      · exact Option.some_ne_none d (hnone 0 h)
      · exact Option.some_ne_none d' (hnone 1 h)
    generalize hversion : reconcileVersion (fun _ => env.order w.tick
      (mergeVersions (d :: d' :: rest)).keys) (d :: d' :: rest) = version
    have attached₁ : AttachedTo (· ∈ candidates hash r key)
        (change (.put key selected.1 version) client) := attached.congr rfl rfl
    obtain ⟨client', w', ok, hrun, settled', assigned, stubs⟩ :=
      putRetry_returns hash selected.1 (w := w.next) nobody settled attached₁ attempts
    refine ⟨client', w', selected.1, ?_, settled', attached₁.congr assigned stubs⟩
    simp only [reconcile, hselected, hversion, runBeside_bind, runBeside_iterate,
      runBeside_perform, Option.bind_some, hrun, runBeside_pure]

variable (hash) in
/-- A get returns. If it succeeds, the client is attached to one of the servers for the key. -/
theorem get_returns (attached : AttachedTo (Names r) client) (attempts : Nat)
    {selections : List Int} (selects : Selects selections) (key : String) :
    ∃ client' w' ret, runBeside hash env 3 (get key (attempts + 1) selections) client w =
        some (client', w', some ret) ∧ Settled r w'.state ∧ AttachedTo (Names r) client' ∧
      (ret ≠ .failed → AttachedTo (· ∈ candidates hash r key) client') := by
  obtain ⟨w₁, reply, hdeliver, settled₁, answered⟩ := settled.deliver hash nobody
    (show ¬ MovesMembers (.clientGet key) from id) client.assignedCoordinator
  generalize hrun : runBeside hash env 3 (get key (attempts + 1) selections) client w = x
  rw [KeyValueStoreClient.get, runBeside_bind, runBeside_read, Option.bind_some,
    if_pos attached.1, runBeside_bind, runBeside_send, hdeliver, Option.map_some,
    Option.bind_some] at hrun
  split at hrun
  · rename_i getResData coordinator heq
    obtain ⟨named, _, answers⟩ := answered _ heq
    have told : coordinator = "" ∨ coordinator ∈ candidates hash r key := by
      rcases answers.1 with nobody_alive | ⟨node, ⟨hring, _⟩, hmem⟩
      · exact Or.inl nobody_alive
      · rw [hring, settled.shared _ (attached.2.resolve_left named)] at hmem
        exact Or.inr hmem
    obtain ⟨client₁, hupdate, rfl, hstub₁, _⟩ := runBeside_update hash env 3 w₁ client coordinator
    obtain ⟨client', w', result, hreconcile, settled', attached'⟩ := reconcile_returns hash nobody
      settled₁ ⟨hstub₁, told⟩ attempts selects getResData
    rw [runBeside_bind, hupdate, Option.bind_some, runBeside_bind, hreconcile,
      Option.bind_some] at hrun
    cases hrun
    exact ⟨client', w', _, rfl, settled', attached'.mono fun _ => names_of_candidate,
      fun _ => attached'⟩
  · cases hrun
    exact ⟨client, w₁, _, rfl, settled₁, attached, fun h => absurd rfl h⟩

variable (hash value) in
/-- A put returns, or it cannot get. -/
theorem put_returns (attached : AttachedTo (Names r) client) (attempts : Nat)
    {inputs : Nat → RoundInput} (rounds : Nat) (selects : Selects (inputs rounds).selections)
    (key : String) :
    (∃ client' w', runBeside hash env 3 (get key (attempts + 1) (inputs rounds).selections) client
        w = some (client', w', some .failed)) ∨
      ∃ client' w' ok,
        runBeside hash env 3 (put key value false (attempts + 1) inputs rounds) client w =
          some (client', w', some ok) ∧ Settled r w'.state ∧ AttachedTo (Names r) client' := by
  obtain ⟨client₁, w₁, ret, hget, settled₁, _, served⟩ :=
    get_returns hash nobody settled attached attempts selects key
  cases ret with
  | failed => exact Or.inl ⟨client₁, w₁, hget⟩
  | success result =>
    have attached₁ := served GetReturn.noConfusion
    obtain ⟨client', w', ok, hput, settled', assigned, stubs⟩ :=
      putRetry_returns hash value nobody settled₁ attached₁ (attempts + 1)
    refine Or.inr ⟨client', w', ok, ?_, settled',
      (attached₁.congr assigned stubs).mono fun _ => names_of_candidate⟩
    rw [KeyValueStoreClient.put, if_pos rfl, runBeside_bind, getUntilSuccess, runBeside_bind, hget]
    exact hput

end Programs

section Runs

/-- A call with one attempt at least, and a user who selects something. -/
structure Answerable (e : Event) : Prop where
  nobody : NobodyUnnamed e.env
  get : ∀ name key attempts selections, e.call = .get name key attempts selections →
    1 ≤ attempts ∧ Selects selections
  put : ∀ name key value attempts inputs rounds,
    e.call = .put name key value attempts inputs rounds →
      1 ≤ attempts ∧ Selects (inputs rounds).selections
  command : ∀ addr cmd, e.call ≠ .command addr cmd

/-- The client did not have to give up. -/
def Returned : Output → Prop
  | .get ret => ret ≠ none
  | .put ret => ret ≠ none
  | _ => True

/-- A put that fails to get, after which the client picks a server out of none. -/
def CannotGet (hash : String → UInt64) (s : Deployment) (e : Event) : Prop :=
  ∃ name key value attempts inputs rounds, e.call = .put name key value attempts inputs rounds ∧
    ∃ client' w', runBeside hash e.env 3 (get key attempts (inputs rounds).selections)
      (s.clients name) s.net = some (client', w', some .failed)

variable {s : Deployment}

theorem attachedTo_update (attached : ∀ name, AttachedTo (Names r) (s.clients name))
    (h : AttachedTo (Names r) client) (name name' : String) :
    AttachedTo (Names r) (Function.update s.clients name client name') := by
  by_cases hname : name' = name
  · subst hname
    rw [Function.update_self]
    exact h
  · rw [Function.update_of_ne hname]
    exact attached name'

variable (hash) in
theorem perform_returns (settled : Settled r s.net.state)
    (attached : ∀ name, AttachedTo (Names r) (s.clients name)) {e : Event}
    (answerable : Answerable e) :
    CannotGet hash s e ∨ ∃ s' o, perform hash s e = some (s', o) ∧ Returned o ∧
      Settled r s'.net.state ∧ ∀ name, AttachedTo (Names r) (s'.clients name) := by
  obtain ⟨env, call⟩ := e
  cases call with
  | get name key attempts selections =>
    obtain ⟨hattempts, selects⟩ := answerable.get name key attempts selections rfl
    obtain ⟨attempts, rfl⟩ := Nat.exists_eq_add_of_le' hattempts
    obtain ⟨client', w', ret, hrun, settled', attached', _⟩ :=
      get_returns hash answerable.nobody settled (attached name) attempts selects key
    refine Or.inr ⟨{ s with clients := Function.update s.clients name client', net := w' },
      .get (some ret), ?_, Option.some_ne_none ret, settled',
      attachedTo_update attached attached' name⟩
    rw [perform]
    exact congrArg (Option.map _) hrun
  | put name key value attempts inputs rounds =>
    obtain ⟨hattempts, selects⟩ := answerable.put name key value attempts inputs rounds rfl
    obtain ⟨attempts, rfl⟩ := Nat.exists_eq_add_of_le' hattempts
    rcases put_returns hash value answerable.nobody settled (attached name) attempts rounds selects
      key with hget | ⟨client', w', ok, hrun, settled', attached'⟩
    · exact Or.inl ⟨name, key, value, attempts + 1, inputs, rounds, rfl, hget⟩
    · refine Or.inr ⟨{ s with clients := Function.update s.clients name client', net := w' },
        .put (some ok), ?_, Option.some_ne_none ok, settled',
        attachedTo_update attached attached' name⟩
      rw [perform]
      exact congrArg (Option.map _) hrun
  | turn node =>
    obtain ⟨w', a, hrun, _⟩ := serveOn_answers hash env settled.covered
      (show ¬ MovesMembers .mainLoopTurn from id) node
    have same := contacts_of_serveOn (show ¬ MovesMembers .mainLoopTurn from id) hrun
    refine Or.inr ⟨{ s with net := w' }, .turn, ?_, trivial, settled.congr same, attached⟩
    rw [perform]
    exact congrArg (Option.map _) hrun
  | command addr cmd => exact absurd rfl (answerable.command addr cmd)

/-- After a get that succeeds the client is attached to one of the servers for the key. -/
theorem attachedTo_of_get (settled : Settled r s.net.state)
    (attached : ∀ name, AttachedTo (Names r) (s.clients name)) {name : String} {attempts : Nat}
    {selections : List Int} (answerable : Answerable ⟨env, .get name key attempts selections⟩)
    {s' : Deployment} {result : String}
    (hperform : perform hash s ⟨env, .get name key attempts selections⟩ =
      some (s', .get (some (.success result)))) :
    AttachedTo (· ∈ candidates hash r key) (s'.clients name) := by
  obtain ⟨hattempts, selects⟩ := answerable.get name key attempts selections rfl
  obtain ⟨attempts, rfl⟩ := Nat.exists_eq_add_of_le' hattempts
  obtain ⟨client', w', ret, hrun, _, _, served⟩ :=
    get_returns hash answerable.nobody settled (attached name) attempts selects key
  rw [perform] at hperform
  simp only [hrun, Option.map_some, Option.some.injEq, Prod.mk.injEq, Output.get.injEq] at hperform
  obtain ⟨rfl, rfl⟩ := hperform
  simpa only [Function.update_self] using served GetReturn.noConfusion

/-- The table that the client picks a server from is empty. -/
theorem perform_of_cannotGet {e : Event} (h : CannotGet hash s e) : perform hash s e = none := by
  obtain ⟨env, call⟩ := e
  obtain ⟨name, key, value, attempts, inputs, rounds, rfl, client', w', hget⟩ := h
  rw [perform]
  simp only [KeyValueStoreClient.put, if_true, runBeside_bind, getUntilSuccess, hget,
    Option.bind_some]
  rfl

/-- As long as the calls of a run return, the servers stay settled and the clients attached. -/
theorem settled_of_runEvents (settled : Settled r s.net.state)
    (attached : ∀ name, AttachedTo (Names r) (s.clients name)) {events : List Event}
    (answerable : ∀ e ∈ events, Answerable e) {s' : Deployment} {outs : List Output}
    (hrun : runEvents (perform hash) s events = some (s', outs)) :
    Settled r s'.net.state ∧ ∀ name, AttachedTo (Names r) (s'.clients name) := by
  refine runEvents_induction (P := fun s : Deployment =>
      Settled r s.net.state ∧ ∀ name, AttachedTo (Names r) (s.clients name))
    (fun e he s s' o hperform h => ?_) hrun ⟨settled, attached⟩
  rcases perform_returns hash h.1 h.2 (answerable e he) with
    hfails | ⟨s₁, o₁, hreturns, _, hsettled⟩
  · rw [perform_of_cannotGet hfails] at hperform
    cases hperform
  · cases hreturns.symm.trans hperform
    exact hsettled

end Runs

/-- On a ring that all its servers share, with stubs for each other, and whatever is lost: every
call of a client returns, for every bound on redirects from one on. What ends a run is a put
that cannot get first, and nothing else does. A get that succeeds leaves its client attached to
one of the servers for the key, or to the empty address. -/
theorem calls_return {s : Deployment} (settled : Settled r s.net.state)
    (attached : ∀ name, AttachedTo (Names r) (s.clients name)) (events : List Event)
    (answerable : ∀ e ∈ events, Answerable e) :
    (∀ s' outs, runEvents (perform hash) s events = some (s', outs) → ∀ o ∈ outs, Returned o) ∧
      (runEvents (perform hash) s events = none ↔ ∃ before e after s' outs,
        events = before ++ e :: after ∧ runEvents (perform hash) s before = some (s', outs) ∧
          CannotGet hash s' e) ∧
      ∀ before env name key attempts selections after s' outs s'' result,
        events = before ++ ⟨env, .get name key attempts selections⟩ :: after →
        runEvents (perform hash) s before = some (s', outs) →
        perform hash s' ⟨env, .get name key attempts selections⟩ =
          some (s'', .get (some (.success result))) →
        AttachedTo (· ∈ candidates hash r key) (s''.clients name) := by
  have stuck : (∃ before e after s' outs, events = before ++ e :: after ∧
      runEvents (perform hash) s before = some (s', outs) ∧ CannotGet hash s' e) →
      runEvents (perform hash) s events = none := by
    rintro ⟨before, e, after, s', outs, rfl, hbefore, hfails⟩
    exact runEvents_stuck hbefore (perform_of_cannotGet hfails)
  have assigned : ∀ before env name key attempts selections after s' outs s'' result,
      events = before ++ ⟨env, .get name key attempts selections⟩ :: after →
      runEvents (perform hash) s before = some (s', outs) →
      perform hash s' ⟨env, .get name key attempts selections⟩ =
        some (s'', .get (some (.success result))) →
      AttachedTo (· ∈ candidates hash r key) (s''.clients name) := by
    rintro before env name key attempts selections after s' outs s'' result rfl hbefore hget
    obtain ⟨settled', attached'⟩ := settled_of_runEvents settled attached
      (fun e he => answerable e (List.mem_append_left _ he)) hbefore
    exact attachedTo_of_get settled' attached'
      (answerable _ (List.mem_append_right _ List.mem_cons_self)) hget
  rcases runEvents_or_fails (fun e he s h => perform_returns hash h.1 h.2 (answerable e he))
    (And.intro settled attached) with ⟨s₁, outs₁, hrun, returned⟩ | hstuck
  · refine ⟨fun s' outs h => ?_, ⟨fun hnone => ?_, stuck⟩, assigned⟩
    · cases hrun.symm.trans h
      exact returned
    · rw [hrun] at hnone
      cases hnone
  · refine ⟨fun s' outs h => ?_, ⟨fun _ => hstuck, stuck⟩, assigned⟩
    rw [stuck hstuck] at h
    cases h

section Samples

/-- An environment that loses all messages to the servers in a list. -/
def losing (lost : List String) : Env String Int64 :=
  { calmEnv with fate := fun _ dst => if dst ∈ lost then .requestLost else .delivered }

def threeOnRing : Deployment := ⟨.init [], threeServers.clients, ⟨cluster fourNodes threeNodes, 0⟩⟩

/-- A get that is lost, and then a put that does not reach server C. -/
def lossyCalls : List Event :=
  [⟨losing ["", "A"], .get "g" "k" 1 [0]⟩,
    ⟨losing ["", "C"], .put "p" "k" "v" 1 (fun _ => ⟨[0], 0⟩) 0⟩]

/-- A get that does not reach server B. -/
def readBack : Event := ⟨losing ["", "B"], .get "g" "k" 1 [0]⟩

theorem settled_threeOnRing : Settled (ringWith fourNodes threeNodes) threeOnRing.net.state := by
  have positions : ∀ x ∈ (ringWith fourNodes threeNodes).ring.entries, x.2 ∈ threeNodes := by
    decide +kernel
  exact ⟨fun n ⟨p, hp⟩ => if_pos (positions _ hp), covered_cluster positions⟩

theorem calls_return_sample : ∃ s' outs s'',
    runEvents (perform fourNodes) threeOnRing lossyCalls = some (s', outs) ∧
      outs = [.get (some .failed), .put (some true)] ∧ (∀ o ∈ outs, Returned o) ∧
      perform fourNodes s' readBack = some (s'', .get (some (.success "v"))) ∧
      AttachedTo (· ∈ candidates fourNodes (ringWith fourNodes threeNodes) "k")
        (s''.clients "g") := by
  obtain ⟨⟨s', outs⟩, hrun, houts, ⟨s'', o⟩, hget, rfl⟩ :
      ∃ x ∈ runEvents (perform fourNodes) threeOnRing lossyCalls,
        x.2 = [.get (some .failed), .put (some true)] ∧
        ∃ y ∈ perform fourNodes x.1 readBack, y.2 = .get (some (.success "v")) := by
    decide +kernel
  have attached : ∀ name, AttachedTo (Names (ringWith fourNodes threeNodes))
      (threeOnRing.clients name) := by
    have position : "A" ∈ (ringWith fourNodes threeNodes).ring.entries.map Prod.snd := by decide
    obtain ⟨⟨p, _⟩, hp, rfl⟩ := List.mem_map.mp position
    exact fun _ => ⟨(AList.mem_insert _).mpr (Or.inl rfl), Or.inr ⟨p, hp⟩⟩
  have reading : ∀ lost : List String, "" ∈ lost →
      Answerable ⟨losing lost, .get "g" "k" 1 [0]⟩ := by
    intro lost hlost
    refine ⟨fun _ => if_pos hlost, ?_, nofun, nofun⟩
    rintro _ _ _ _ ⟨⟩
    exact ⟨le_rfl, by decide⟩
  have writing : Answerable ⟨losing ["", "C"], .put "p" "k" "v" 1 (fun _ => ⟨[0], 0⟩) 0⟩ := by
    refine ⟨fun _ => rfl, nofun, ?_, nofun⟩
    rintro _ _ _ _ _ _ ⟨⟩
    exact ⟨le_rfl, by decide⟩
  have answerable : ∀ e ∈ lossyCalls, Answerable e := by
    rw [lossyCalls, List.forall_mem_cons, List.forall_mem_singleton]
    exact ⟨reading _ (by decide), writing⟩
  have answerable' : ∀ e ∈ lossyCalls ++ [readBack], Answerable e := by
    rw [List.forall_mem_append, List.forall_mem_singleton]
    exact ⟨answerable, reading _ (by decide)⟩
  have returned := (calls_return settled_threeOnRing attached lossyCalls answerable).1 s' outs hrun
  have assigned := (calls_return settled_threeOnRing attached _ answerable').2.2 lossyCalls _ "g"
    "k" 1 [0] [] s' outs s'' "v" rfl hrun hget
  exact ⟨s', outs, s'', hrun, houts, returned, hget, assigned⟩

end Samples

end ReturningCalls
