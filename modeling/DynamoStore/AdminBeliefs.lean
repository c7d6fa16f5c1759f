import DynamoStore.ClientEffects
import DynamoStore.HandlerEffects
import DynamoStore.SequentialStore

/-!
# What the admin believes

The admin only hears from a server when a command to it is answered, and any message may get
lost. It is careful: a server whose command was not answered does not count as alive. So the
servers that it counts as alive are alive, whatever was lost, and after an answered command
it knows how things are. That a server is alive is only changed by commands to itself.
-/

namespace AdminBeliefs

open RpcPrograms SequentialObjects GossipNode KeyValueStoreClient Effects HandlerEffects
open HandlerRuns ClientEffects SequentialStore ClusterStores

variable {hash : String → UInt64} {env : Env String Int64} {depth : Nat} {n x : String}
variable {q : Request} {w w' : Net} {r : Reply}

section Nodes

/-- A request other than a command that is not in the list for its server. -/
def Served (commands : String → String → Prop) (n : String) : Request → Prop
  | .adminCmd cmd _ => commands n cmd
  | _ => True

/-- The flag only goes up where servers may be told to join, and down where to leave. -/
structure Flagged (commands : String → String → Prop) (n : String) (node node' : GossipNode) :
    Prop where
  up : ¬ commands n "JoinNetwork" → node'.alive = true → node.alive = true
  down : ¬ commands n "LeaveNetwork" → node.alive = true → node'.alive = true

variable {commands : String → String → Prop}

theorem Flagged.refl (n : String) (node : GossipNode) : Flagged commands n node node :=
  ⟨fun _ h => h, fun _ h => h⟩

theorem Flagged.trans {node node' node'' : GossipNode} (h : Flagged commands n node node')
    (h' : Flagged commands n node' node'') : Flagged commands n node node'' :=
  ⟨fun never halive => h.up never (h'.up never halive),
    fun never halive => h'.down never (h.down never halive)⟩

theorem flagged_apply {reads : GossipNode → Prop} {a : Action} (node : GossipNode)
    (served : Served commands n q) (does : Does reads n q a) :
    Flagged commands n node (apply hash a node) := by
  cases a with
  | setAlive alive =>
    cases q with
    | adminCmd cmd _ =>
      rcases does with ⟨rfl, rfl⟩ | ⟨rfl, rfl⟩
      · exact ⟨fun never => absurd served never, fun _ _ => rfl⟩
      · exact ⟨fun _ halive => Bool.noConfusion halive, fun never => absurd served never⟩
    | _ => exact False.elim does
  | _ => exact ⟨fun _ h => h, fun _ h => h⟩

theorem served_of_sends {reads : GossipNode → Prop} {dst : String} {q' : Request}
    (sends : Sends hash reads n q dst q') : Served commands dst q' := by
  cases q' with
  | adminCmd _ _ =>
    cases q with
    | clientGet _ | clientPut _ _ => exact absurd sends.1 (by simp)
    | _ => exact False.elim sends
  | _ => trivial

/-- The limits of requests when only these commands are given. -/
def commanded (hash : String → UInt64) (commands : String → String → Prop) :
    Table String GossipNode Action Request Reply :=
  table hash (Served commands) (fun _ _ => True) True

theorem kept (hash : String → UInt64) (commands : String → String → Prop) :
    Kept (commanded hash commands) (apply hash) (serve hash) fun _ _ _ _ => True :=
  kept_table (fun _ _ _ _ _ _ => Or.inl trivial) (fun _ _ _ _ _ => served_of_sends)
    fun _ _ _ _ _ _ _ _ => trivial

theorem handles {n : String} {q : Request} {w w' : Net} {r : Reply}
    (served : (commanded hash commands).requests n q)
    (states : ∀ m, (commanded hash commands).reads m (w.state m))
    (hrun : serveOn hash env depth n q w = some (w', r)) :
    Leads (commanded hash commands) (Flagged commands) w.state w'.state ∧
      (commanded hash commands).answers n q r :=
  (kept hash commands).handle Flagged.refl (fun _ _ _ _ => trivial) (fun _ _ _ _ h h' => h.trans h')
    (fun _ _ _ node served does _ => flagged_apply node served does) served states hrun

/-- A request that is served changes the flags only as its commands may. -/
theorem serveOn_flagged (served : Served commands n q)
    (hrun : serveOn hash env depth n q w = some (w', r)) (m : String) :
    Flagged commands m (w.state m) (w'.state m) :=
  (handles served (fun _ => trivial) hrun).1.related m

theorem deliver_flagged {r : Option Reply} (served : Served commands n q)
    (hrun : deliver hash env depth n q w = some (w', r)) (m : String) :
    Flagged commands m (w.state m) (w'.state m) := by
  rcases deliver_cases hrun with ⟨rfl, _⟩ | ⟨reply, hserve, _⟩
  · exact Flagged.refl m _
  · exact serveOn_flagged served hserve m

/-- The rest of a handler does no more than its request may. -/
theorem exec_flagged {α : Type} {p : Handler α} {Φ : α → Prop} {a : α}
    (served : Served commands n q) (within : Within ((commanded hash commands).limits n q) p Φ)
    (hrun : exec hash env depth n p w = some (w', a)) (m : String) :
    Flagged commands m (w.state m) (w'.state m) :=
  ((Within.run Flagged.refl (kept hash commands) (fun _ _ _ _ => trivial)
    (fun _ _ _ _ h h' => h.trans h')
    (fun _ _ _ node served does _ => flagged_apply node served does) served
    (transports_network Flagged.refl fun _ _ _ _ _ => handles)
    within (fun _ => trivial) hrun).1).related m

/-- A server that is told to leave is not alive after that. -/
theorem leave_not_alive {aliveServers : List String}
    (hrun : serveOn hash env depth n (.adminCmd "LeaveNetwork" aliveServers) w = some (w', r)) :
    (w'.state n).alive = false ∧ r = .adminCmd true := by
  cases depth with
  | zero => cases hrun
  | succ depth =>
    rw [serveOn_succ, serve, serveAdminCmd, if_neg (by decide), if_pos rfl, exec_bind,
      exec_perform, Option.bind_some, exec_bind] at hrun
    obtain ⟨⟨w₁, _⟩, hleave, hend⟩ := Option.bind_eq_some_iff.mp hrun
    cases hend
    -- what is left of the command could not set the flag again
    have leaves : Served (fun _ cmd => cmd = "LeaveNetwork") n
        (.adminCmd "LeaveNetwork" aliveServers) := rfl
    have within : Within ((commanded hash fun _ cmd => cmd = "LeaveNetwork").limits n
        (.adminCmd "LeaveNetwork" aliveServers)) (leaveNetwork hash n) fun _ => True :=
      leaveNetwork_within (fun _ => rfl)
        (fun dst key data hdst hdata => ⟨⟨rfl, hdst, hdata⟩, Or.inl trivial⟩)
        (fun dst hdst => ⟨rfl, rfl, hdst⟩) ⟨rfl, rfl⟩
    have flagged := exec_flagged leaves within hleave n
    refine ⟨Bool.eq_false_iff.mpr fun halive => ?_, rfl⟩
    have hset := flagged.up (by decide) halive
    rw [World.modify_self] at hset
    exact Bool.noConfusion hset

/-- A server that is told to join is alive after that. -/
theorem join_alive {aliveServers : List String}
    (hrun : serveOn hash env depth n (.adminCmd "JoinNetwork" aliveServers) w = some (w', r)) :
    (w'.state n).alive = true ∧ r = .adminCmd true := by
  cases depth with
  | zero => cases hrun
  | succ depth =>
    rw [serveOn_succ, serve, serveAdminCmd, if_pos rfl, exec_bind, exec_perform, Option.bind_some,
      exec_bind] at hrun
    obtain ⟨⟨w₁, _⟩, _, hrun⟩ := Option.bind_eq_some_iff.mp hrun
    rw [exec_bind] at hrun
    obtain ⟨⟨w₂, _⟩, _, hrun⟩ := Option.bind_eq_some_iff.mp hrun
    cases hrun
    rw [World.modify_self]
    exact ⟨rfl, rfl⟩

/-- A ping is answered with the flag. -/
theorem ping_alive {aliveServers : List String}
    (hrun : serveOn hash env depth n (.adminCmd "Ping" aliveServers) w = some (w', r)) :
    r = .adminCmd (w'.state n).alive := by
  cases depth with
  | zero => cases hrun
  | succ depth =>
    rw [serveOn_succ, serve, serveAdminCmd, if_neg (by decide), if_neg (by decide),
      if_pos rfl] at hrun
    cases hrun
    rfl

theorem served_of_clientRequest (asked : ClientRequest q) : Served commands n q := by
  cases q with
  | adminCmd _ _ => exact False.elim asked
  | _ => trivial

/-- Nothing that a client does changes whether a server is alive. -/
theorem runBeside_flagged {α : Type} {p : Code α} {Φ : α → Prop} (hp : Within asking p Φ)
    {client client' : KeyValueStoreClient} {a : α}
    (hrun : runBeside hash env depth p client w = some (client', w', a)) (m : String) :
    Flagged (fun _ _ => False) m (w.state m) (w'.state m) :=
  runBeside_related (fun state state' => Flagged (fun _ _ => False) m (state m) (state' m))
    (fun state => Flagged.refl m (state m)) (fun _ _ _ h h' => h.trans h')
    (fun _ _ _ _ _ asked hcall => deliver_flagged (served_of_clientRequest asked) hcall m) hp hrun

end Nodes

section Histories

variable {admin admin' : Admin} {addr cmd : String} {answered : Bool}

/-- The servers that the admin counts as alive are alive. -/
def Justified (admin : Admin) (state : String → GossipNode) : Prop :=
  ∀ n, admin.MarkedAlive n → (state n).alive = true

theorem markedAlive_setStatus_of_ne {m : String} (hm : m ≠ addr) (status : Bool) :
    (admin.setStatus addr status).MarkedAlive m ↔ admin.MarkedAlive m := by
  cases status with
  | true =>
    rw [Admin.markedAlive_setStatus_true]
    exact or_iff_right hm
  | false =>
    rw [Admin.markedAlive_setStatus_false]
    exact and_iff_right hm

theorem markedAlive_setStatus_self (status : Bool) :
    (admin.setStatus addr status).MarkedAlive addr ↔ status = true := by
  cases status with
  | true => simp [Admin.markedAlive_setStatus_true]
  | false => simp [Admin.markedAlive_setStatus_false]

/-- What an answered command tells is so. -/
theorem status_true_iff {aliveServers : List String} (hcmd : cmd ∈ Admin.enumCmd) {success : Bool}
    (hrun : serveOn hash env depth addr (.adminCmd cmd aliveServers) w =
      some (w', .adminCmd success)) :
    (if cmd = "LeaveNetwork" then !success else success) = (w'.state addr).alive := by
  simp only [Admin.enumCmd, List.mem_cons, List.not_mem_nil, or_false] at hcmd
  rcases hcmd with rfl | rfl | rfl
  · have hreply := ping_alive hrun
    cases hreply
    rfl
  · obtain ⟨halive, hreply⟩ := join_alive hrun
    cases hreply
    exact halive.symm
  · obtain ⟨hout, hreply⟩ := leave_not_alive hrun
    cases hreply
    exact hout.symm

/-- What a command does to the server that it goes to, and to what the admin has of it. -/
theorem cmd_believed (hrun : admin.cmd hash env depth addr cmd w = some (w', admin', answered)) :
    (∀ m, m ≠ addr → (w'.state m).alive = (w.state m).alive ∧
      (admin'.MarkedAlive m ↔ admin.MarkedAlive m)) ∧
    (answered = true → (admin'.MarkedAlive addr ↔ (w'.state addr).alive = true)) ∧
    (answered = false → admin' = admin ∧ w' = w ∨ ¬ admin'.MarkedAlive addr) := by
  rw [Admin.cmd] at hrun
  split at hrun
  · cases hrun
    exact ⟨fun _ _ => ⟨rfl, Iff.rfl⟩, Bool.noConfusion, fun _ => Or.inl ⟨rfl, rfl⟩⟩
  · rename_i known
    obtain ⟨⟨w₁, reply⟩, hdeliver, hrun⟩ := Option.map_eq_some_iff.mp hrun
    have others : ∀ m, m ≠ addr → (w₁.state m).alive = (w.state m).alive := by
      intro m hm
      have served : Served (fun n _ => n = addr) addr (.adminCmd cmd
          (if cmd = "JoinNetwork" then admin.aliveServers env w.tick else [])) := rfl
      have flagged := deliver_flagged served hdeliver m
      exact Bool.eq_iff_iff.mpr ⟨flagged.up hm, flagged.down hm⟩
    simp only at hrun
    split at hrun
    · cases hrun
      refine ⟨fun m hm => ⟨others m hm, markedAlive_setStatus_of_ne hm _⟩, fun _ => ?_,
        Bool.noConfusion⟩
      rw [markedAlive_setStatus_self, status_true_iff (not_not.mp (not_or.mp known).2)
        (serveOn_of_deliver hdeliver)]
    · cases hrun
      refine ⟨fun m hm => ⟨others m hm, markedAlive_setStatus_of_ne hm _⟩, Bool.noConfusion,
        fun _ => Or.inr ?_⟩
      rw [markedAlive_setStatus_self]
      exact Bool.noConfusion

theorem cmd_justified (hrun : admin.cmd hash env depth addr cmd w = some (w', admin', answered))
    (justified : Justified admin w.state) : Justified admin' w'.state := by
  intro m hm
  obtain ⟨others, answer, silence⟩ := cmd_believed hrun
  by_cases hmx : m = addr
  · subst hmx
    cases answered with
    | true => exact (answer rfl).mp hm
    | false =>
      rcases silence rfl with ⟨rfl, rfl⟩ | hnot
      · exact justified m hm
      · exact absurd hm hnot
  · obtain ⟨halive, hmarked⟩ := others m hmx
    exact halive.trans (justified m (hmarked.mp hm))

variable {s s' : Deployment} {e : Event} {o : Output}

/-- A call changes the flag of a server and the mark for it only if it is a command to it. -/
theorem perform_elsewhere (hrun : perform hash s e = some (s', o)) {m : String}
    (other : ∀ cmd, e.call ≠ .command m cmd) :
    (s'.net.state m).alive = (s.net.state m).alive ∧
      (s'.admin.MarkedAlive m ↔ s.admin.MarkedAlive m) := by
  have same : ∀ {node node' : GossipNode}, Flagged (fun _ _ => False) m node node' →
      node'.alive = node.alive := fun flagged =>
    Bool.eq_iff_iff.mpr ⟨flagged.up id, flagged.down id⟩
  obtain ⟨env, call⟩ := e
  cases call with
  | get client key attempts selections =>
    obtain ⟨⟨client', w', ret⟩, hget, heq⟩ := Option.map_eq_some_iff.mp hrun
    cases heq
    exact ⟨same (runBeside_flagged (get_asks attempts selections) hget m), Iff.rfl⟩
  | put client key value attempts inputs rounds =>
    obtain ⟨⟨client', w', ret⟩, hput, heq⟩ := Option.map_eq_some_iff.mp hrun
    cases heq
    exact ⟨same (runBeside_flagged (put_asks false attempts inputs rounds) hput m), Iff.rfl⟩
  | turn node =>
    obtain ⟨⟨w', r⟩, hturn, heq⟩ := Option.map_eq_some_iff.mp hrun
    cases heq
    have served : Served (fun _ _ => False) node .mainLoopTurn := trivial
    exact ⟨same (serveOn_flagged served hturn m), Iff.rfl⟩
  | command addr cmd =>
    obtain ⟨⟨w', admin', answered⟩, hcmd, heq⟩ := Option.map_eq_some_iff.mp hrun
    cases heq
    exact (cmd_believed hcmd).1 m fun hm => other cmd (by rw [hm])

theorem perform_justified (hrun : perform hash s e = some (s', o))
    (justified : Justified s.admin s.net.state) : Justified s'.admin s'.net.state := by
  obtain ⟨env, call⟩ := e
  cases call with
  | command addr cmd =>
    obtain ⟨⟨w', admin', answered⟩, hcmd, heq⟩ := Option.map_eq_some_iff.mp hrun
    cases heq
    exact cmd_justified hcmd justified
  | _ =>
    intro m hm
    obtain ⟨halive, hmarked⟩ := perform_elsewhere hrun (m := m) fun _ => Call.noConfusion
    exact halive.trans (justified m (hmarked.mp hm))

/-- Whatever calls there were, and whichever of their messages were lost, the servers that
the admin counts as alive are alive. Once a command to a server was answered, the admin is
right about it until the next command to it, whatever else is called meanwhile. -/
theorem beliefs_justified {config : List String} {clients : String → KeyValueStoreClient}
    {net : Net} {events : List Event} {outs : List Output}
    (hrun : runEvents (perform hash) ⟨.init config, clients, net⟩ events = some (s, outs)) :
    Justified s.admin s.net.state ∧
      ∀ env addr cmd later s' s'' outs',
        perform hash s ⟨env, .command addr cmd⟩ = some (s', .command true) →
        (∀ e ∈ later, ∀ cmd', e.call ≠ .command addr cmd') →
        runEvents (perform hash) s' later = some (s'', outs') →
          (s''.admin.MarkedAlive addr ↔ (s''.net.state addr).alive = true) := by
  constructor
  · exact runEvents_induction (P := fun s => Justified s.admin s.net.state)
      (fun e _ s s' o hperform justified => perform_justified hperform justified) hrun
      fun n hn => absurd hn (Admin.not_markedAlive_init config)
  · intro env addr cmd later s' s'' outs' hanswered others hlater
    obtain ⟨⟨w', admin', answered⟩, hcmd, heq⟩ := Option.map_eq_some_iff.mp hanswered
    cases heq
    refine runEvents_induction (P := fun s : Deployment =>
      s.admin.MarkedAlive addr ↔ (s.net.state addr).alive = true)
      (fun e he s s' o hperform right => ?_) hlater ((cmd_believed hcmd).2.1 rfl)
    obtain ⟨halive, hmarked⟩ := perform_elsewhere hperform (others e he)
    rw [hmarked, halive]
    exact right

end Histories

section Samples

/-- Server A joins, and server B joins too, but its answer is lost. -/
def unheardJoin : List Event :=
  [⟨calmEnv, .command "A" "JoinNetwork"⟩,
    ⟨{ calmEnv with fate := fun _ _ => .replyLost }, .command "B" "JoinNetwork"⟩]

/-- Server B is alive, and only counts as such once it has answered a ping. -/
theorem beliefs_justified_sample : ∃ s outs s', runEvents (perform twoNodes)
      ⟨.init ["A", "B"], fun _ => ⟨∅, "", .empty⟩, ⟨fun _ => GossipNode.new 1, 0⟩⟩ unheardJoin =
        some (s, outs) ∧
    (s.net.state "A").alive = true ∧ (s.net.state "B").alive = true ∧
    ¬ s.admin.MarkedAlive "B" ∧
    perform twoNodes s ⟨calmEnv, .command "B" "Ping"⟩ = some (s', .command true) ∧
    s'.admin.MarkedAlive "B" := by
  obtain ⟨⟨s, outs⟩, hrun, hmarked, halive, hunmarked, ⟨s', o⟩, hping, ho, halive'⟩ :
      ∃ x ∈ runEvents (perform twoNodes)
        ⟨.init ["A", "B"], fun _ => ⟨∅, "", .empty⟩, ⟨fun _ => GossipNode.new 1, 0⟩⟩ unheardJoin,
        x.1.admin.MarkedAlive "A" ∧ (x.1.net.state "B").alive = true ∧
          ¬ x.1.admin.MarkedAlive "B" ∧
          ∃ y ∈ perform twoNodes x.1 ⟨calmEnv, .command "B" "Ping"⟩,
            y.2 = .command true ∧ (y.1.net.state "B").alive = true := by
    decide +kernel
  obtain rfl : o = .command true := ho
  obtain ⟨justified, right⟩ := beliefs_justified hrun
  refine ⟨s, outs, s', hrun, justified "A" hmarked, halive, hunmarked, hping, ?_⟩
  exact (right calmEnv "B" "Ping" [] s' s' [] hping (by simp) rfl).mpr halive'

end Samples

end AdminBeliefs
