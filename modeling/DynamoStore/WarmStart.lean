import DynamoStore.ClusterStart
import DynamoStore.FreshHeartbeats

/-!
# From the start to the first gossip

A server that joins is told who is there, but not when they were last heard of, and passes all
of them over. Those that are there stamp it. So the server that joined first has heard of all
the others, and when it gossips first, five seconds after it has joined, it tells them of each
other. From then on clients find one map, as long as the main loops keep turning.
-/

namespace WarmStart

open RpcPrograms SequentialObjects GossipNode KeyValueStoreClient HandlerRuns
open RingOwners ClusterStores RingAgreement LivenessTest HeartbeatSpread FreshHeartbeats
open ClientOperations SequentialStore AdminBeliefs ElasticStore ClusterStart

variable {hash : String → UInt64} {env : Env String Int64} {depth : Nat} {n m x : String}
variable {admin admin' : Admin} {w w' : Net} {success : Bool}

section Joins

/-- The node stores no key. -/
def Keyless (node : GossipNode) : Prop := ∀ key, node.stateMachine.entry key = none

/-- Nothing to transfer: the new node is taken in, and that is all. -/
theorem serveOn_joinNetwork (nothing : Keyless (w.state n)) :
    serveOn hash env (depth + 1) n (.joinNetwork x) w =
      some ((welcome hash env n x w).next, .joinNetwork true) := by
  have none_kept : joinTransferKeys hash env n (welcome hash env n x w) = [] := by
    refine List.eq_nil_iff_forall_not_mem.mpr fun key hkey => ?_
    obtain ⟨⟨d, hd⟩, _⟩ := mem_joinTransferKeys.mp hkey
    have same : ((welcome hash env n x w).state n).stateMachine = (w.state n).stateMachine := by
      simp [welcome, apply]
    rw [same, nothing key] at hd
    cases hd
  rw [serveOn_succ, serve, exec_serveJoinNetwork, none_kept]
  rfl

theorem welcome_stamps : ((welcome hash env n x w).state n).heartbeat x = env.now w.tick ∧
    ∀ m, m ≠ x → ((welcome hash env n x w).state n).heartbeat m = (w.state n).heartbeat m := by
  refine ⟨?_, fun m hm => ?_⟩
  · simp [welcome, apply, heartbeat]
  · simp [welcome, apply, heartbeat, AList.lookup_insert_ne hm]

theorem learn_heartbeat (node : GossipNode) (aliveServers : List String) :
    (learn hash n aliveServers node).heartbeat m = node.heartbeat m := by
  induction aliveServers generalizing node with
  | nil => rfl
  | cons addr aliveServers ih =>
    by_cases h : addr = n
    · rw [h, learn_cons_self, ih]
    · rw [learn_cons_of_ne h, Function.comp_apply, ih]
      rfl

theorem enter_stamps (aliveServers : List String) :
    ((enter hash env x aliveServers w).state x).heartbeat x = env.now w.tick ∧
      ∀ m, m ≠ x →
        ((enter hash env x aliveServers w).state x).heartbeat m = (w.state x).heartbeat m := by
  refine ⟨?_, fun m hm => ?_⟩
  · simp [enter, apply, heartbeat]
  · calc ((enter hash env x aliveServers w).state x).heartbeat m
        = (learn hash x aliveServers (apply hash .clearStubs (w.state x))).heartbeat m := by
          simp [enter, apply, heartbeat, AList.lookup_insert_ne hm]
      _ = (w.state x).heartbeat m := learn_heartbeat _ _

/-- Server `x` has stamped itself at tick `i`, the members have stamped it since, and nothing
else has changed about times or keys. -/
structure Announced (env : Env String Int64) (members : String → Prop) (x : String) (i : Nat)
    (state state' : String → GossipNode) : Prop where
  own : (state' x).heartbeat x = env.now i
  told : ∀ n, n ≠ x → members n → ∃ j, i ≤ j ∧ (state' n).heartbeat x = env.now j
  untold : ∀ n, n ≠ x → ¬ members n → (state' n).heartbeat x = (state n).heartbeat x
  kept : ∀ n m, m ≠ x → (state' n).heartbeat m = (state n).heartbeat m
  store : ∀ n, (state' n).stateMachine = (state n).stateMachine

variable (hash depth) in
theorem joinNetworkLoop_stamps (reliable : env.Reliable) (peers : List String)
    (nodup : peers.Nodup) (nothing : ∀ n ∈ peers, Keyless (w.state n)) (flag : Bool) :
    ∃ w', exec hash env (depth + 1) x (joinNetworkLoop x peers flag) w = some (w', flag) ∧
      (∀ n ∈ peers, ∃ j, w.tick ≤ j ∧ (w'.state n).heartbeat x = env.now j) ∧
      (∀ n, n ∉ peers → w'.state n = w.state n) ∧
      (∀ n m, m ≠ x → (w'.state n).heartbeat m = (w.state n).heartbeat m) ∧
      ∀ n, (w'.state n).stateMachine = (w.state n).stateMachine := by
  induction peers generalizing w with
  | nil =>
    exact ⟨w, rfl, fun _ h => absurd h List.not_mem_nil, fun _ _ => rfl, fun _ _ _ => rfl,
      fun _ => rfl⟩
  | cons addr peers ih =>
    obtain ⟨haddr, nodup⟩ := List.nodup_cons.mp nodup
    obtain ⟨hnothing, nothing⟩ := List.forall_mem_cons.mp nothing
    let w₁ := (welcome hash env addr x w.next).next
    have others : ∀ n, n ≠ addr → w₁.state n = w.state n := fun n hn => by
      simp [w₁, welcome, hn]
    have store : ∀ n, (w₁.state n).stateMachine = (w.state n).stateMachine := by
      intro n
      by_cases hn : n = addr
      · simp [w₁, welcome, hn, apply]
      · rw [others n hn]
    obtain ⟨w', hrun, told, untold, kept, same⟩ := ih (w := w₁) nodup
      fun n hn key => by rw [store n]; exact nothing n hn key
    refine ⟨w', ?_, fun n hn => ?_, fun n hn => ?_, fun n m hm => ?_,
      fun n => (same n).trans (store n)⟩
    · rw [joinNetworkLoop, exec_bind, exec_send, deliver_reliable reliable,
        serveOn_joinNetwork (show Keyless (w.next.state addr) from hnothing)]
      exact hrun
    · rcases List.mem_cons.mp hn with rfl | htail
      · refine ⟨w.next.tick, Nat.le_succ _, ?_⟩
        rw [untold n haddr]
        exact welcome_stamps.1
      · obtain ⟨j, hj, hstamp⟩ := told n htail
        refine ⟨j, le_trans ?_ hj, hstamp⟩
        exact Nat.le_add_right w.tick 3
    · obtain ⟨hne, hpeers⟩ := not_or.mp (List.mem_cons.not.mp hn)
      exact (untold n hpeers).trans (others n hne)
    · rw [kept n m hm]
      by_cases hn : n = addr
      · rw [hn]
        exact welcome_stamps.2 m hm
      · rw [others n hn]

/-- A join of a server, when no server has any key. -/
theorem cmd_join_announced (reliable : env.Reliable) (hx : x ∈ admin.serverStatus)
    (nothing : ∀ n, Keyless (w.state n))
    (hrun : admin.cmd hash env 3 x "JoinNetwork" w = some (w', admin', success)) :
    ∃ i, Announced env admin.MarkedAlive x i w.state w'.state := by
  have hserved := cmd_join_served reliable hx hrun
  let w₁ := enter hash env x (admin.aliveServers env w.tick) w.next.next
  have entered : ∀ n, (w₁.state n).stateMachine = (w.state n).stateMachine :=
    enter_stateMachine (w := w.next.next) _
  have outside : ∀ n, n ≠ x → w₁.state n = w.state n := fun n hn =>
    enter_of_ne (w := w.next.next) _ hn
  obtain ⟨own, others⟩ : (w₁.state x).heartbeat x = env.now w.next.next.tick ∧
      ∀ m, m ≠ x → (w₁.state x).heartbeat m = (w.state x).heartbeat m := enter_stamps _
  have htold : ∀ n, n ∈ told env x w₁ ↔ admin.MarkedAlive n ∧ n ≠ x := by
    intro n
    rw [mem_told, mem_enter_stubs, Admin.mem_aliveServers]
  obtain ⟨w₂, hloop, stamped, untold, kept, store⟩ := joinNetworkLoop_stamps (x := x)
    (w := w₁.next) hash 1 reliable (told env x w₁) nodup_told
    (fun n _ key => by rw [World.next_state, entered n]; exact nothing n key) true
  have hlast : w' = act hash w₂ x (.setAlive true) := by
    rw [serveOn_succ, serve, exec_adminJoin, hloop] at hserved
    exact (congrArg Prod.fst (Option.some.inj hserved)).symm
  have last : ∀ n, (∀ m, (w'.state n).heartbeat m = (w₂.state n).heartbeat m) ∧
      (w'.state n).stateMachine = (w₂.state n).stateMachine := by
    intro n
    rw [hlast]
    by_cases hn : n = x
    · rw [hn, World.modify_self]
      exact ⟨fun _ => rfl, rfl⟩
    · rw [World.modify_of_ne _ _ hn]
      exact ⟨fun _ => rfl, rfl⟩
  refine ⟨w.next.next.tick, ?_, fun n hn hmember => ?_, fun n hn hmember => ?_, fun n m hm => ?_,
    fun n => ?_⟩
  · rw [(last x).1, untold x fun h => ((htold x).mp h).2 rfl]
    exact own
  · obtain ⟨j, hj, hstamp⟩ := stamped n ((htold n).mpr ⟨hmember, hn⟩)
    refine ⟨j, le_trans ?_ hj, ((last n).1 x).trans hstamp⟩
    exact Nat.le_add_right w.next.next.tick 2
  · rw [(last n).1, untold n fun h => hmember ((htold n).mp h).1, World.next_state, outside n hn]
  · rw [(last n).1, kept n m hm, World.next_state]
    by_cases hn : n = x
    · rw [hn]
      exact others m hm
    · rw [outside n hn]
  · rw [(last n).2, store n, World.next_state, entered n]

end Joins

section Starts

/-- The members have stamped themselves between two readings of the clocks, and the first of
them has heard of each of them since. -/
structure Heard (first : String) (start stop : Int) (members : String → Prop)
    (state : String → GossipNode) : Prop where
  own : ∀ y, members y → start ≤ ((state y).heartbeat y).toInt ∧
    ((state y).heartbeat y).toInt ≤ stop
  informed : ∀ y, members y → ((state y).heartbeat y).toInt ≤ ((state first).heartbeat y).toInt
  epoch : ∀ n, FromEpoch (state n)
  strangers : ∀ n m, ¬ members m → (state n).heartbeat m = 0

/-- The clocks never go back, and read times between two others. -/
structure Between (env : Env String Int64) (start stop : Int) : Prop where
  forward : ∀ i j, i ≤ j → (env.now i).toInt ≤ (env.now j).toInt
  clocks : ∀ i, start ≤ (env.now i).toInt ∧ (env.now i).toInt ≤ stop

variable {first : String} {start stop : Int}

/-- The server that joins is the first one, or the first one is told of it. -/
theorem Heard.join {members members' : String → Prop} {state state' : String → GossipNode}
    {i : Nat} (between : Between env start stop) (started : 0 ≤ start)
    (hfirst : first = x ∨ members first) (hmembers : ∀ y, members' y ↔ y = x ∨ members y)
    (out : ¬ members x) (heard : Heard first start stop members state)
    (announced : Announced env members x i state state') :
    Heard first start stop members' state' := by
  have other : ∀ y, members y → y ≠ x := fun y hy heq => out (heq ▸ hy)
  refine ⟨fun y hy => ?_, fun y hy => ?_, fun n m => ?_, fun n m hm => ?_⟩
  · rcases (hmembers y).mp hy with rfl | hold
    · rw [announced.own]
      exact between.clocks i
    · rw [announced.kept y y (other y hold)]
      exact heard.own y hold
  · rcases (hmembers y).mp hy with rfl | hold
    · rcases hfirst with rfl | hfirst
      · rfl
      · obtain ⟨j, hj, hstamp⟩ := announced.told first (other first hfirst) hfirst
        rw [announced.own, hstamp]
        exact between.forward i j hj
    · rw [announced.kept y y (other y hold), announced.kept first y (other y hold)]
      exact heard.informed y hold
  · by_cases hm : m = x
    · subst hm
      by_cases hn : n = m
      · rw [hn, announced.own]
        exact started.trans (between.clocks i).1
      · by_cases hmember : members n
        · obtain ⟨j, _, hstamp⟩ := announced.told n hn hmember
          rw [hstamp]
          exact started.trans (between.clocks j).1
        · rw [announced.untold n hn hmember]
          exact heard.epoch n m
    · rw [announced.kept n m hm]
      exact heard.epoch n m
  · obtain ⟨hmx, hold⟩ := not_or.mp ((hmembers m).not.mp hm)
    rw [announced.kept n m hmx]
    exact heard.strangers n m hold

theorem startServers_heard (reliable : env.Reliable) (between : Between env start stop)
    (started : 0 ≤ start) (serverAddrs : List String) (nodup : serverAddrs.Nodup)
    (fresh : ∀ y ∈ serverAddrs, y ∈ admin.serverStatus ∧ ¬ admin.MarkedAlive y)
    (hfirst : first ∈ serverAddrs.head? ∨ admin.MarkedAlive first)
    (nothing : ∀ n, Keyless (w.state n))
    (heard : Heard first start stop admin.MarkedAlive w.state)
    (hrun : startServers hash env 3 serverAddrs admin w = some (w', admin', success)) :
    Heard first start stop admin'.MarkedAlive w'.state ∧ ∀ n, Keyless (w'.state n) := by
  induction serverAddrs generalizing admin w with
  | nil =>
    cases hrun
    exact ⟨heard, nothing⟩
  | cons serverAddr serverAddrs ih =>
    obtain ⟨hnot, nodup⟩ := List.nodup_cons.mp nodup
    obtain ⟨⟨hserver, out⟩, fresh⟩ := List.forall_mem_cons.mp fresh
    obtain ⟨w₁, hcmd, _⟩ := cmd_join hash w reliable hserver
    obtain ⟨i, announced⟩ := cmd_join_announced reliable hserver nothing hcmd
    have marked : ∀ y, (admin.setStatus serverAddr true).MarkedAlive y ↔
        y = serverAddr ∨ admin.MarkedAlive y := fun _ => Admin.markedAlive_setStatus_true
    have hfirst' : first = serverAddr ∨ admin.MarkedAlive first :=
      hfirst.imp_left fun h => (Option.some.inj h).symm
    have heard₁ := heard.join between started hfirst' marked out announced
    rw [startServers, hcmd] at hrun
    refine ih nodup (fun y hy => ?_) (Or.inr ((marked first).mpr hfirst')) (fun n key => ?_) heard₁
      hrun
    · obtain ⟨hstatus, hout⟩ := fresh y hy
      refine ⟨(Admin.mem_setStatus _).mpr (Or.inr hstatus), fun halive => hout ?_⟩
      exact ((marked y).mp halive).resolve_left fun heq => hnot (heq ▸ hy)
    · rw [announced.store n]
      exact nothing n key

variable {servers config : List String} {r : ConsistentHashingRing} {v k : Nat}
variable {clients : String → KeyValueStoreClient}

/-- When all servers have joined, the first one knows recent times. -/
theorem Heard.leads (heard : Heard first start stop admin.MarkedAlive w.state)
    (justified : Justified admin w.state)
    (h : Holding hash config v r k ⟨admin, clients, w⟩ fun _ => none)
    (hservers : ∀ y, y ∈ servers ↔ admin.MarkedAlive y) (hfirst : first ∈ servers) :
    Leads servers r (fun _ => start + stampNs - 1) first w.state := by
  refine ⟨hfirst, fun n hn => h.shared n ((hservers n).mp hn), fun n hn m => ?_,
    fun n hn => justified n ((hservers n).mp hn), fun n _ => heard.epoch n,
    fun m hm => heard.informed m ((hservers m).mp hm), fun m hm => ?_,
    fun n _ m hm => heard.strangers n m ((hservers m).not.mp hm)⟩
  · rw [hservers m]
    exact h.agreed.stubs n ((hservers n).mp hn) m
  · have hown := (heard.own m ((hservers m).mp hm)).1
    show start + stampNs - 1 < _
    omega

end Starts

/-- From blank processes on: once all servers of the file have joined and the first of them
has had its first turn, the store is one map, as long as the main loops go on turning in time.
The servers may take less than 4.999 seconds to join. -/
theorem warm_start {v : Nat} (positive : 0 < v) (nodesConfig : Option (List Char))
    (apart : NoCollision hash v {y | y ∈ getNodesConfig nodesConfig}) {servers : List String}
    (nodup : servers.Nodup) (same : ∀ y, y ∈ servers ↔ y ∈ getNodesConfig nodesConfig)
    (two : rCount ≤ servers.length) (reliable : env.Reliable) {start stop : Int}
    (between : Between env start stop) (late : aliveNs ≤ start) (tick : Nat) :
    ∃ w' admin' first,
      adminAutoStart hash env 3 nodesConfig ⟨fun _ => GossipNode.new v, tick⟩ =
        some (w', admin', true) ∧
      first ∈ (env.order tick (getNodesConfig nodesConfig).dedup).head? ∧
      ∀ (clients : String → KeyValueStoreClient) (env' : Env String Int64) (due ended : Int)
        (schedule : List (Event × Int)),
        (∀ client, Attached {y | y ∈ servers} (clients client)) → stop + stampNs ≤ due →
        Steady servers (fun _ => start + stampNs - 1) due
          ((⟨env', .turn first⟩, ended) :: schedule) →
        schedule.length + 1 < 2 ^ 64 →
        ∃ s', runEvents (perform hash) ⟨admin', clients, w'⟩
            (⟨env', .turn first⟩ :: schedule.map Prod.fst) =
          some (s', .turn :: outputs mapStep (fun _ => none) (schedule.map Prod.fst)) := by
  have met : ∀ y, y ∈ env.order tick (getNodesConfig nodesConfig).dedup ↔ y ∈ servers :=
    fun y => ((env.perm _ _).mem_iff.trans List.mem_dedup).trans (same y).symm
  have hnodup : (env.order tick (getNodesConfig nodesConfig).dedup).Nodup :=
    (env.perm _ _).nodup_iff.mpr (List.nodup_dedup _)
  have out : ∀ y, ¬ (Admin.init (getNodesConfig nodesConfig)).MarkedAlive y :=
    fun y => Admin.not_markedAlive_init _
  have started : 0 ≤ start := le_trans (by decide) late
  obtain ⟨first, hfirst⟩ :
      ∃ first, first ∈ (env.order tick (getNodesConfig nodesConfig).dedup).head? := by
    obtain ⟨y, hy⟩ := List.exists_mem_of_length_pos (lt_of_lt_of_le (by decide) two)
    exact ⟨_, List.head?_eq_some_head (List.ne_nil_of_mem ((met y).mpr hy))⟩
  obtain ⟨r₀, h₀⟩ : Holds hash (getNodesConfig nodesConfig) v 0 ⟨.init _, _, ⟨_, tick + 1⟩⟩ _ :=
    holds_start (fun _ => ⟨∅, "", .empty⟩) (tick + 1)
  obtain ⟨w', admin', r, k, hrun, h, hmarked⟩ := startServers_run positive apart reliable
    (env.order tick (getNodesConfig nodesConfig).dedup) hnodup
    (fun y hy => ⟨(same y).mp ((met y).mp hy), out y⟩) (fun y _ => ⟨rfl, fun _ => rfl⟩) h₀
  have hservers : ∀ y, y ∈ servers ↔ admin'.MarkedAlive y := fun y =>
    (met y).symm.trans ((or_iff_left (out y)).symm.trans (hmarked y).symm)
  obtain ⟨justified, _⟩ := startServers_justified _ hrun fun y hy => absurd hy (out y)
  obtain ⟨heard, keyless⟩ := startServers_heard reliable between started _ hnodup
    (fun y hy => ⟨Admin.mem_init.mpr ((same y).mp ((met y).mp hy)), out y⟩) (Or.inl hfirst)
    (fun _ _ => rfl)
    ⟨fun y hy => absurd hy (out y), fun y hy => absurd hy (out y), fun _ _ => le_rfl,
      fun _ _ _ => rfl⟩ hrun
  have member : first ∈ servers := (met first).mp (List.mem_of_mem_head? hfirst)
  refine ⟨w', admin', first, hrun, hfirst,
    fun clients env' due ended schedule attached hdue steady short => ?_⟩
  obtain ⟨inTime, steady⟩ := steady
  have members : {y | admin'.MarkedAlive y} = {y | y ∈ servers} :=
    Set.ext fun y => (hservers y).symm
  have ring : RingOf hash {y | y ∈ servers} r := members ▸ h.members
  have later : aliveNs ≤ due := by
    have := between.clocks 0
    have : 0 ≤ stampNs := by decide
    omega
  have leads := heard.leads justified h hservers member
  have old : ((w'.state first).heartbeat first).toInt + stampNs ≤ due := by
    have := (heard.own first ((hservers first).mp member)).2
    omega
  obtain ⟨w₁, hturn, fresh⟩ := leads.turn_due hash inTime (le_trans (by decide) later) old
  refine one_map (s := ⟨admin', clients, w'⟩) ring (h.virtual ▸ positive) h.accurate nodup two
    leads.stubs attached (fun n _ key => keyless n key)
    (⟨env', .turn first⟩ :: schedule.map Prod.fst) (by simpa using short) ⟨trivial, fun x hx => ?_⟩
  obtain ⟨⟨w₂, reply⟩, hserve, heq⟩ := Option.map_eq_some_iff.mp hx
  cases heq
  cases hserve.symm.trans hturn
  exact fresh.admissible schedule (later.trans inTime.start_le_stop) steady

section Samples

/-- After the first turn in second 26: a put, the turns of the other servers, and a get when
the times of the joins would be too old. -/
def firstCalls : List (Event × Int) :=
  [(⟨clockAt 27000000000, .put "p" "k" "v" 0 (fun _ => ⟨[], 0⟩) 0⟩, 27000000000),
    (⟨clockAt 28000000000, .turn "B"⟩, 28000000000),
    (⟨clockAt 28000000000, .turn "C"⟩, 28000000000),
    (⟨clockAt 30500000000, .get "g" "k" 0 []⟩, 30500000000)]

theorem steady_firstCalls : Steady threeNodes (fun _ => 20000000000 + stampNs - 1) 26000000000
    ((⟨clockAt 26000000000, .turn "A"⟩, 26000000000) :: firstCalls) := by
  refine ⟨inTime_clockAt ?_ ?_ ?_ ?_ ?_, inTime_clockAt ?_ ?_ ?_ ?_ ?_,
    inTime_clockAt ?_ ?_ ?_ ?_ ?_, inTime_clockAt ?_ ?_ ?_ ?_ ?_,
    inTime_clockAt ?_ ?_ ?_ ?_ ?_, trivial⟩ <;>
  first | decide | simp [threeNodes]

/-- Three servers that join in second 20. -/
theorem warm_start_sample : ∃ w' admin' s',
    adminAutoStart fourNodes (clockAt 20000000000) 3 threeLines ⟨fun _ => GossipNode.new 1, 0⟩ =
      some (w', admin', true) ∧
    runEvents (perform fourNodes) ⟨admin', threeServers.clients, w'⟩
        (⟨clockAt 26000000000, .turn "A"⟩ :: firstCalls.map Prod.fst) =
      some (s', [.turn, .put (some true), .turn, .turn, .get (some (.success "v"))]) := by
  have hlines : getNodesConfig threeLines = threeNodes := by decide
  have apart : NoCollision fourNodes 1 {y | y ∈ getNodesConfig threeLines} := by
    rw [hlines]
    exact noCollision_servers
  have between : Between (clockAt 20000000000) 20000000000 20000000000 := by
    have reading : (20000000000 : Int64).toInt = 20000000000 := by decide
    exact ⟨fun _ _ _ => le_rfl, fun _ => ⟨reading.ge, reading.le⟩⟩
  obtain ⟨w', admin', first, hstart, hfirst, serves⟩ := warm_start Nat.one_pos threeLines apart
    (show threeNodes.Nodup by decide) (fun y => by rw [hlines]) (by decide)
    (fun _ _ => rfl) between (by decide) 0
  obtain rfl : "A" = first := by
    rw [hlines] at hfirst
    exact Option.some.inj hfirst
  obtain ⟨s', hrun⟩ := serves threeServers.clients (clockAt 26000000000) 26000000000 26000000000
    firstCalls (fun _ => ⟨(AList.mem_insert _).mpr (Or.inl rfl), List.mem_cons_self⟩) (by decide)
    steady_firstCalls (by decide)
  exact ⟨w', admin', s', hstart, hrun⟩

end Samples

end WarmStart
