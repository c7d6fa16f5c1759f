import DynamoStore.GossipNode

/-!
# Sequential runs of the handlers

What one handler does when no other request is handled meanwhile. Calls reach
the handler of the callee through the network, whose failures the environment
decides.
-/

namespace HandlerRuns

open RpcPrograms GossipNode StateMachine

abbrev Net := World String GossipNode

variable (hash : String → UInt64) (env : Env String Int64)

/-- Serve a request on a node, with calls nested at most `depth` deep. -/
def serveOn (depth : Nat) (n : String) (q : Request) (w : Net) : Option (Net × Reply) :=
  handle (apply hash) env (serve hash) depth n q w

/-- A call, with further calls nested at most `depth` deep. -/
def deliver (depth : Nat) (dst : String) (q : Request) (w : Net) : Option (Net × Option Reply) :=
  network env (serveOn hash env depth) dst q w

/-- Run a handler on a node, with calls nested at most `depth` deep. -/
def exec {α : Type} (depth : Nat) (n : String) (p : Handler α) (w : Net) : Option (Net × α) :=
  run (apply hash) env (deliver hash env depth) n p w

/-- A node is changed by one action. -/
abbrev act (w : Net) (n : String) (a : Action) : Net := w.modify n (apply hash a)

section Rules

variable {hash env} {α β : Type} {depth : Nat} {n : String} {w : Net}

theorem serveOn_succ (q : Request) :
    serveOn hash env (depth + 1) n q w = exec hash env depth n (serve hash n q) w := rfl

theorem exec_bind (p : Handler α) (f : α → Handler β) :
    exec hash env depth n (p >>= f) w =
      (exec hash env depth n p w).bind fun x => exec hash env depth n (f x.2) x.1 :=
  run_bind p f w

@[simp] theorem exec_pure (a : α) :
    exec hash env depth n (pure a : Handler α) w = some (w, a) := rfl

@[simp] theorem exec_read :
    exec hash env depth n (Prog.read : Handler GossipNode) w = some (w, w.state n) := rfl

@[simp] theorem exec_perform (a : Action) :
    exec hash env depth n (Prog.perform a : Handler Unit) w = some (act hash w n a, ()) := rfl

@[simp] theorem exec_clock :
    exec hash env depth n (Prog.clock : Handler Int64) w = some (w.next, env.now w.tick) := rfl

@[simp] theorem exec_iterate (l : List String) :
    exec hash env depth n (Prog.iterate l : Handler (List String)) w =
      some (w.next, env.order w.tick l) := rfl

@[simp] theorem exec_send (dst : String) (q : Request) :
    exec hash env depth n (Prog.send dst q : Handler (Option Reply)) w =
      deliver hash env depth dst q w :=
  run_send dst q w

theorem deliver_reliable (reliable : env.Reliable) (dst : String) (q : Request) :
    deliver hash env depth dst q w =
      (serveOn hash env depth dst q w.next).map fun x => (x.1, some x.2) :=
  network_reliable reliable _ dst q w

/-- A call gets lost on the way, or it is served, and then its answer may get lost. -/
theorem deliver_cases {dst : String} {q : Request} {w' : Net} {r : Option Reply}
    (h : deliver hash env depth dst q w = some (w', r)) :
    w' = w.next ∧ r = none ∨
      ∃ reply, serveOn hash env depth dst q w.next = some (w', reply) ∧
        (r = some reply ∨ r = none) := by
  rw [deliver, network] at h
  split at h
  · obtain ⟨⟨w₁, reply⟩, hserve, heq⟩ := Option.map_eq_some_iff.mp h
    cases heq
    exact Or.inr ⟨reply, hserve, Or.inl rfl⟩
  · cases h
    exact Or.inl ⟨rfl, rfl⟩
  · obtain ⟨⟨w₁, reply⟩, hserve, heq⟩ := Option.map_eq_some_iff.mp h
    cases heq
    exact Or.inr ⟨reply, hserve, Or.inr rfl⟩

/-- An answered call was delivered. -/
theorem serveOn_of_deliver {dst : String} {q : Request} {w' : Net} {r : Reply}
    (h : deliver hash env depth dst q w = some (w', some r)) :
    serveOn hash env depth dst q w.next = some (w', r) := by
  rcases deliver_cases h with ⟨_, hr⟩ | ⟨reply, hserve, hr | hr⟩
  · cases hr
  · cases hr
    exact hserve
  · cases hr

end Rules

/-- Whether `PeerPut` applies an entry. -/
def Accepts (node : GossipNode) (key : String) (d : Data) : Prop :=
  checkConflictVersion d.2 (node.stateMachine.getVersion key) = 1

instance (node : GossipNode) (key : String) (d : Data) : Decidable (Accepts node key d) :=
  inferInstanceAs (Decidable (_ = _))

/-- The world after `PeerPut` on node `n`. -/
def receive (n key : String) (d : Data) (w : Net) : Net :=
  if Accepts (w.state n) key d then act hash w n (.put key d.1 d.2) else w

/-- The world after a call of `peerPut`, and its result. -/
def sendPut (dst key : String) (d : Data) (w : Net) : Net × Int :=
  match env.fate w.tick dst with
  | .delivered =>
    (receive hash dst key d w.next, if Accepts (w.state dst) key d then 0 else 1)
  | .requestLost => (w.next, 1)
  | .replyLost => (receive hash dst key d w.next, 1)

variable {hash env} {depth : Nat} {n key : String} {w : Net}

theorem exec_servePeerPut (d : Data) :
    exec hash env depth n (servePeerPut key d) w =
      some (receive hash n key d w, .peerPut (!decide (Accepts (w.state n) key d))) := by
  simp only [servePeerPut, exec_bind, exec_read, Option.bind_some, receive]
  by_cases h : checkConflictVersion d.2 ((w.state n).stateMachine.getVersion key) = 1
  · rw [if_pos h, if_pos (show Accepts (w.state n) key d from h)]
    simp [exec_bind, Accepts, h]
  · rw [if_neg h, if_neg (show ¬ Accepts (w.state n) key d from h)]
    simp [Accepts, h]

/-- `peerPut` in closed form; without a stub it crashes. -/
theorem exec_peerPut (dst value : String) (version : Version)
    (hstub : dst ∈ (w.state n).stubs) :
    exec hash env (depth + 1) n (peerPut dst key value version) w =
      some (sendPut hash env dst key (value, version) w) := by
  simp only [peerPut, exec_bind, exec_read, Option.bind_some, if_pos hstub, exec_send, deliver,
    network, serveOn_succ, serve, exec_servePeerPut, sendPut]
  cases env.fate w.tick dst with
  | delivered =>
    by_cases h : Accepts (w.state dst) key (value, version)
    · simp [h]
    · simp [h]
  | requestLost => simp
  | replyLost => simp

/-- A transfer sends the entry that is stored now. -/
theorem exec_transferKey (dst : String) {d : Data} (hstub : dst ∈ (w.state n).stubs)
    (hd : (w.state n).stateMachine.entry key = some d) :
    exec hash env (depth + 1) n (transferKey dst key) w =
      some (sendPut hash env dst key d w) := by
  have hread : (w.state n).stateMachine.readData key = d := by rw [readData_eq, hd]; rfl
  simp only [transferKey, exec_bind, exec_read, Option.bind_some]
  rw [← hread]
  exact exec_peerPut dst _ _ hstub

section SendPut

variable (hash env) (dst key : String) (d : Data) (w : Net)

/-- A call of `peerPut` changes nothing, or it applies the entry at the peer; the
result 0 means that it was applied. -/
theorem sendPut_cases :
    ((sendPut hash env dst key d w).1.state = w.state ∧ (sendPut hash env dst key d w).2 ≠ 0) ∨
      (Accepts (w.state dst) key d ∧ (sendPut hash env dst key d w).1.state =
        Function.update w.state dst (apply hash (.put key d.1 d.2) (w.state dst))) := by
  have hreceive : Accepts (w.state dst) key d → (receive hash dst key d w.next).state =
      Function.update w.state dst (apply hash (.put key d.1 d.2) (w.state dst)) := by
    intro h
    rw [receive, if_pos (show Accepts (w.next.state dst) key d from h)]
    rfl
  have hreject : ¬ Accepts (w.state dst) key d →
      (receive hash dst key d w.next).state = w.state := by
    intro h
    rw [receive, if_neg (show ¬ Accepts (w.next.state dst) key d from h)]
    rfl
  rw [sendPut]
  cases env.fate w.tick dst with
  | delivered =>
    by_cases h : Accepts (w.state dst) key d
    · exact Or.inr ⟨h, hreceive h⟩
    · exact Or.inl ⟨hreject h, by simp [h]⟩
  | requestLost => exact Or.inl ⟨rfl, by simp⟩
  | replyLost =>
    by_cases h : Accepts (w.state dst) key d
    · exact Or.inr ⟨h, hreceive h⟩
    · exact Or.inl ⟨hreject h, by simp⟩

variable {hash env} in
theorem sendPut_reliable (reliable : env.Reliable) :
    sendPut hash env dst key d w =
      (receive hash dst key d w.next, if Accepts (w.state dst) key d then 0 else 1) := by
  rw [sendPut, reliable]

end SendPut

/-- Only the stores differ. -/
structure StoreOnly (state state' : String → GossipNode) : Prop where
  ring : ∀ n, (state' n).ring = (state n).ring
  stubs : ∀ n, (state' n).stubs = (state n).stubs
  alive : ∀ n, (state' n).alive = (state n).alive

namespace StoreOnly

theorem refl (state : String → GossipNode) : StoreOnly state state :=
  ⟨fun _ => rfl, fun _ => rfl, fun _ => rfl⟩

theorem trans {state state' state'' : String → GossipNode} (h : StoreOnly state state')
    (h' : StoreOnly state' state'') : StoreOnly state state'' :=
  ⟨fun n => (h'.ring n).trans (h.ring n), fun n => (h'.stubs n).trans (h.stubs n),
    fun n => (h'.alive n).trans (h.alive n)⟩

theorem update (state : String → GossipNode) (n : String) {node : GossipNode}
    (ring : node.ring = (state n).ring) (stubs : node.stubs = (state n).stubs)
    (alive : node.alive = (state n).alive) : StoreOnly state (Function.update state n node) where
  ring m := by
    by_cases h : m = n
    · subst h
      simpa using ring
    · simp [h]
  stubs m := by
    by_cases h : m = n
    · subst h
      simpa using stubs
    · simp [h]
  alive m := by
    by_cases h : m = n
    · subst h
      simpa using alive
    · simp [h]

theorem put (state : String → GossipNode) (n key value : String) (version : Version) :
    StoreOnly state (Function.update state n (apply hash (.put key value version) (state n))) :=
  update state n rfl rfl rfl

theorem remove (state : String → GossipNode) (n key : String) :
    StoreOnly state (Function.update state n (apply hash (.remove key) (state n))) :=
  update state n rfl rfl rfl

theorem sendPut (dst : String) (d : Data) :
    StoreOnly w.state (HandlerRuns.sendPut hash env dst key d w).1.state := by
  rcases sendPut_cases hash env dst key d w with ⟨same, _⟩ | ⟨_, same⟩
  · rw [same]
    exact refl _
  · rw [same]
    exact put _ _ _ _ _

end StoreOnly

/-- What `JoinNetwork` does before the transfers. -/
def welcome (hash : String → UInt64) (env : Env String Int64) (n nodeId : String) (w : Net) : Net :=
  act hash (act hash (act hash w n (.addNode nodeId)).next n
    (.setHeartbeat nodeId (env.now w.tick))) n (.newStub nodeId)

/-- The keys that `JoinNetwork` transfers, in the order of the transfers. -/
def joinTransferKeys (hash : String → UInt64) (env : Env String Int64) (n : String) (w : Net) :
    List String :=
  (env.order w.tick (w.state n).stateMachine.getAllKeys).filter fun key =>
    (w.state n).ring.checkDataBelonging hash key n replicaN = false

theorem exec_getJoinTransferKey :
    exec hash env depth n (getJoinTransferKey hash n replicaN) w =
      some (w.next, joinTransferKeys hash env n w) := by
  simp [getJoinTransferKey, exec_bind, joinTransferKeys]

theorem exec_serveJoinNetwork (nodeId : String) :
    exec hash env depth n (serveJoinNetwork hash n nodeId) w =
      (exec hash env depth n (joinTransferLoop nodeId
        (joinTransferKeys hash env n (welcome hash env n nodeId w)) true)
        (welcome hash env n nodeId w).next).map fun y => (y.1, .joinNetwork y.2) := by
  simp only [serveJoinNetwork, exec_bind, exec_perform, exec_clock, Option.bind_some,
    exec_getJoinTransferKey, exec_pure, Option.map_eq_bind]
  rfl

theorem mem_joinTransferKeys {key : String} :
    key ∈ joinTransferKeys hash env n w ↔ (∃ d, (w.state n).stateMachine.entry key = some d) ∧
      (w.state n).ring.checkDataBelonging hash key n replicaN = false := by
  rw [joinTransferKeys, List.mem_filter, (env.perm _ _).mem_iff, mem_getAllKeys,
    decide_eq_true_eq]

theorem nodup_joinTransferKeys : (joinTransferKeys hash env n w).Nodup :=
  ((env.perm _ _).nodup_iff.mpr (nodup_getAllKeys _)).filter _

variable (hash w key) in
theorem receive_state (dst : String) (d : Data) :
    (receive hash dst key d w).state = if Accepts (w.state dst) key d then
      Function.update w.state dst (apply hash (.put key d.1 d.2) (w.state dst)) else w.state := by
  rw [receive]
  split <;> rfl

variable (hash depth) in
/-- With no message lost, retrying makes no difference. -/
theorem exec_transferWithRetries (reliable : env.Reliable) (dst : String) {d : Data}
    (hstub : dst ∈ (w.state n).stubs) (hd : (w.state n).stateMachine.entry key = some d)
    (retries : Nat) :
    ∃ w', exec hash env (depth + 1) n (transferWithRetries dst key retries) w =
        some (w', if Accepts (w.state dst) key d then 0 else 1) ∧
      w'.state = (receive hash dst key d w).state := by
  induction retries generalizing w with
  | zero =>
    refine ⟨receive hash dst key d w.next, ?_, by rw [receive_state, receive_state]; rfl⟩
    rw [transferWithRetries, exec_transferKey dst hstub hd, sendPut_reliable _ _ _ _ reliable]
  | succ retries ih =>
    rw [transferWithRetries, exec_bind, exec_transferKey dst hstub hd,
      sendPut_reliable _ _ _ _ reliable, Option.bind_some]
    by_cases h : Accepts (w.state dst) key d
    · refine ⟨receive hash dst key d w.next, ?_, by rw [receive_state, receive_state]; rfl⟩
      simp [h]
    · have same : (receive hash dst key d w.next).state = w.state := by
        rw [receive_state, if_neg (show ¬ Accepts (w.next.state dst) key d from h)]
        rfl
      obtain ⟨w', hrun, hstate⟩ := ih (w := receive hash dst key d w.next)
        (by rw [same]; exact hstub) (by rw [same]; exact hd)
      rw [same] at hrun
      refine ⟨w', ?_, ?_⟩
      · simp only [h, if_false]
        simpa [h] using hrun
      · rw [hstate, receive_state, same, receive_state]

/-- A peer that is told that node `x` leaves. -/
def dismiss (hash : String → UInt64) (x peer : String) (w : Net) : Net :=
  act hash (act hash (act hash w peer (.removeNode x)) peer (.eraseStub x)) peer
    (.eraseHeartbeat x)

theorem exec_serveLeaveNetwork (nodeId : String) :
    exec hash env depth n (serveLeaveNetwork nodeId) w =
      some (dismiss hash nodeId n w, .leaveNetwork true) := rfl

/-- The keys that `leaveNetwork` transfers to a peer, in the order of the transfers. -/
def leaveTransferKeys (hash : String → UInt64) (env : Env String Int64)
    (oldRing : ConsistentHashingRing) (n peer : String) (w : Net) : List String :=
  (env.order w.tick (w.state n).stateMachine.getAllKeys).filter fun key =>
    oldRing.checkDataBelonging hash key peer replicaN = false ∧
      (w.state n).ring.checkDataBelonging hash key peer replicaN = true

theorem exec_getLeaveTransferKey (oldRing : ConsistentHashingRing) (peer : String) :
    exec hash env depth n (getLeaveTransferKey hash oldRing peer replicaN) w =
      some (w.next, leaveTransferKeys hash env oldRing n peer w) := by
  simp [getLeaveTransferKey, exec_bind, leaveTransferKeys]

theorem mem_leaveTransferKeys {oldRing : ConsistentHashingRing} {peer key : String} :
    key ∈ leaveTransferKeys hash env oldRing n peer w ↔
      (∃ d, (w.state n).stateMachine.entry key = some d) ∧
        oldRing.checkDataBelonging hash key peer replicaN = false ∧
        (w.state n).ring.checkDataBelonging hash key peer replicaN = true := by
  rw [leaveTransferKeys, List.mem_filter, (env.perm _ _).mem_iff, mem_getAllKeys,
    decide_eq_true_eq]

theorem nodup_leaveTransferKeys {oldRing : ConsistentHashingRing} {peer : String} :
    (leaveTransferKeys hash env oldRing n peer w).Nodup :=
  ((env.perm _ _).nodup_iff.mpr (nodup_getAllKeys _)).filter _

/-- What `AdminCmd` does with the servers that the admin names. -/
def learn (hash : String → UInt64) (self : String) (aliveServers : List String)
    (node : GossipNode) : GossipNode :=
  aliveServers.foldl (fun node addr => if addr ≠ self then
    apply hash (.newStub addr) (apply hash (.addNode addr) node) else node) node

theorem modify_modify (w : Net) (n : String) (f g : GossipNode → GossipNode) :
    (w.modify n f).modify n g = w.modify n (g ∘ f) := by
  simp [World.modify]

theorem modify_id (w : Net) (n : String) : w.modify n id = w := by
  simp [World.modify]

theorem learn_nil : learn hash n [] = id := rfl

theorem learn_cons_of_ne {addr : String} (h : addr ≠ n) (aliveServers : List String) :
    learn hash n (addr :: aliveServers) = learn hash n aliveServers ∘
      (apply hash (.newStub addr) ∘ apply hash (.addNode addr)) := by
  funext node
  simp [learn, h]

theorem learn_cons_self (aliveServers : List String) :
    learn hash n (n :: aliveServers) = learn hash n aliveServers := by
  funext node
  simp [learn]

theorem exec_addAliveServers (aliveServers : List String) :
    exec hash env depth n (addAliveServers n aliveServers) w =
      some (w.modify n (learn hash n aliveServers), ()) := by
  induction aliveServers generalizing w with
  | nil =>
    rw [learn_nil, modify_id]
    rfl
  | cons addr aliveServers ih =>
    rw [addAliveServers]
    by_cases h : addr = n
    · rw [if_neg (not_not_intro h), ih, h, learn_cons_self]
    · rw [if_pos h, learn_cons_of_ne h, ← modify_modify, ← modify_modify]
      simp only [exec_bind, exec_perform, Option.bind_some, ih]

section Learn

variable {node : GossipNode} (aliveServers : List String)

theorem learn_stateMachine : (learn hash n aliveServers node).stateMachine = node.stateMachine := by
  induction aliveServers generalizing node with
  | nil => rfl
  | cons addr aliveServers ih =>
    by_cases h : addr = n
    · rw [h, learn_cons_self, ih]
    · rw [learn_cons_of_ne h, Function.comp_apply, ih]
      rfl

theorem learn_ring : (learn hash n aliveServers node).ring =
    (aliveServers.filter fun addr => addr ≠ n).foldl (fun r addr => r.addNode hash addr)
      node.ring := by
  induction aliveServers generalizing node with
  | nil => rfl
  | cons addr aliveServers ih =>
    by_cases h : addr = n
    · rw [h, learn_cons_self, ih, List.filter_cons_of_neg (by simp)]
    · rw [learn_cons_of_ne h, Function.comp_apply, ih, List.filter_cons_of_pos (by simpa using h)]
      rfl

theorem mem_learn_stubs {addr : String} : addr ∈ (learn hash n aliveServers node).stubs ↔
    (addr ∈ aliveServers ∧ addr ≠ n) ∨ addr ∈ node.stubs := by
  induction aliveServers generalizing node with
  | nil => simp [learn]
  | cons server aliveServers ih =>
    by_cases h : server = n
    · rw [h, learn_cons_self, ih, List.mem_cons]
      tauto
    · rw [learn_cons_of_ne h, Function.comp_apply, ih, List.mem_cons]
      simp only [Function.comp_apply, apply, AList.mem_insert]
      constructor
      · rintro (⟨hmem, hne⟩ | rfl | hold)
        · exact Or.inl ⟨Or.inr hmem, hne⟩
        · exact Or.inl ⟨Or.inl rfl, h⟩
        · exact Or.inr hold
      · rintro (⟨rfl | hmem, hne⟩ | hold)
        · exact Or.inr (Or.inl rfl)
        · exact Or.inl ⟨hmem, hne⟩
        · exact Or.inr (Or.inr hold)

end Learn

/-- What a joining node does before it tells the others. -/
def enter (hash : String → UInt64) (env : Env String Int64) (n : String)
    (aliveServers : List String) (w : Net) : Net :=
  let known := (act hash w n .clearStubs).modify n (learn hash n aliveServers)
  act hash (act hash known n (.addNode n)).next n (.setHeartbeat n (env.now w.tick))

/-- The nodes that a joining node tells, in order. -/
def told (env : Env String Int64) (n : String) (w : Net) : List String :=
  env.order w.tick (w.state n).stubs.keys

theorem mem_told {addr : String} : addr ∈ told env n w ↔ addr ∈ (w.state n).stubs := by
  rw [told, (env.perm _ _).mem_iff]
  exact AList.mem_keys.symm

theorem nodup_told : (told env n w).Nodup :=
  (env.perm _ _).nodup_iff.mpr (AList.keys_nodup _)

theorem exec_adminJoin (aliveServers : List String) :
    exec hash env depth n (serveAdminCmd hash n "JoinNetwork" aliveServers) w =
      (exec hash env depth n (joinNetworkLoop n (told env n (enter hash env n aliveServers w)) true)
        (enter hash env n aliveServers w).next).map fun y =>
          (act hash y.1 n (.setAlive true), .adminCmd true) := by
  simp only [serveAdminCmd, if_true, joinNetwork, exec_bind, exec_perform, exec_clock, exec_read,
    exec_iterate, exec_addAliveServers, exec_pure, Option.bind_some, Option.map_eq_bind]
  rfl

theorem exec_leaveNetwork :
    exec hash env depth n (leaveNetwork hash n) w =
      exec hash env depth n (leaveNetworkLoop hash n (w.state n).ring
        (told env n (act hash w n (.removeNode n)))) (act hash w n (.removeNode n)).next := by
  simp [leaveNetwork, exec_bind, told, apply]

theorem exec_adminLeave (aliveServers : List String) :
    exec hash env depth n (serveAdminCmd hash n "LeaveNetwork" aliveServers) w =
      (exec hash env depth n (leaveNetwork hash n) (act hash w n (.setAlive false))).map
        fun y => (y.1, .adminCmd true) := by
  simp only [serveAdminCmd, show ¬ "LeaveNetwork" = "JoinNetwork" by decide, if_false, if_true,
    exec_bind, exec_perform, exec_pure, Option.bind_some, Option.map_eq_bind]
  rfl

section Enter

variable (aliveServers : List String)

theorem enter_of_ne {m : String} (h : m ≠ n) :
    (enter hash env n aliveServers w).state m = w.state m := by
  simp [enter, h]

theorem enter_stateMachine (m : String) :
    ((enter hash env n aliveServers w).state m).stateMachine = (w.state m).stateMachine := by
  by_cases h : m = n
  · subst h
    simp [enter, apply, learn_stateMachine]
  · rw [enter_of_ne aliveServers h]

theorem mem_enter_stubs {addr : String} :
    addr ∈ ((enter hash env n aliveServers w).state n).stubs ↔ addr ∈ aliveServers ∧ addr ≠ n := by
  simp [enter, apply, mem_learn_stubs]

theorem enter_ring : ((enter hash env n aliveServers w).state n).ring =
    ((aliveServers.filter fun addr => addr ≠ n).foldl (fun r addr => r.addNode hash addr)
      (w.state n).ring).addNode hash n := by
  simp [enter, apply, learn_ring]

end Enter

end HandlerRuns
