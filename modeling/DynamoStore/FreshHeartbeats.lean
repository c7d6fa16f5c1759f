import DynamoStore.ClientEffects
import DynamoStore.HeartbeatSpread
import DynamoStore.KeyIsolation
import DynamoStore.SequentialStore

/-!
# Servers that keep their main loops turning

Who is alive is a guess from times. The guess is right about servers whose main loops turn
often enough: a server stamps itself once its time is older than `HEARTBEAT_INTERVAL`, and
counts as alive for `CHECK_ALIVE_INTERVAL`, so it may take nearly five seconds for a turn.
As long as all of them do, and no message is lost, nobody is ever passed over, and the store
is one map without anything assumed about who finds whom alive.
-/

namespace FreshHeartbeats

open RpcPrograms SequentialObjects GossipNode KeyValueStoreClient HandlerRuns Effects
open HandlerEffects RingOwners ClusterStores QuorumRuns CoordinatorChoice LivenessTest
open ClientOperations SequentialStore ClientEffects HeartbeatSpread KeyIsolation

variable {hash : String → UInt64} {env : Env String Int64} {depth : Nat} {n m x : String}
variable {q : Request} {w w' : Net}

section Frames

/-- What a request served alone leaves unchanged, if all that may come of it does. -/
theorem part_of_serveOn (requests : Request → Prop) {α : Type} (part : GossipNode → α)
    (closed : ∀ n q dst q', requests q → Sends hash (fun _ => True) n q dst q' → requests q')
    (keeps : ∀ n q a node, requests q → Does (fun _ => True) n q a →
      part (apply hash a node) = part node) (hq : requests q) {r : Reply}
    (hrun : serveOn hash env depth n q w = some (w', r)) (x : String) :
    part (w'.state x) = part (w.state x) := by
  have kept : Kept (table hash (fun _ => requests) (fun _ _ => True) True) (apply hash)
      (serve hash) fun _ _ _ _ => True :=
    kept_table (fun _ _ _ _ _ _ => Or.inl trivial) closed fun _ _ _ _ _ _ _ _ => trivial
  have refl : ∀ (_ : String) (node : GossipNode), part node = part node := fun _ _ => rfl
  have trans : ∀ (_ : String) (node node' node'' : GossipNode), part node' = part node →
      part node'' = part node' → part node'' = part node := fun _ _ _ _ h h' => h'.trans h
  obtain ⟨leads, _⟩ := kept.handle refl (fun _ _ _ _ => trivial) trans
    (fun n q a node hq hdoes _ => keeps n q a node hq hdoes) hq (fun _ => trivial) hrun
  exact leads.related x

theorem contacts_of_serveOn (steady : ¬ MovesMembers q) {r : Reply}
    (hrun : serveOn hash env depth n q w = some (w', r)) (x : String) :
    contacts (w'.state x) = contacts (w.state x) :=
  part_of_serveOn (fun q => ¬ MovesMembers q) contacts
    (fun _ _ _ _ steady hsends moves => steady (movesMembers_of_sends hsends moves))
    (fun _ _ _ node steady does => contacts_of_does hash node steady does) steady hrun x

/-- A request that only reads times. -/
def ReadsTimes : Request → Prop
  | .clientGet _ | .clientPut _ _ | .peerGet _ | .peerPut _ _ => True
  | _ => False

theorem readsTimes_of_sends {reads : GossipNode → Prop} {q' : Request} (asked : ReadsTimes q)
    (sends : Sends hash reads n q x q') : ReadsTimes q' := by
  cases q with
  | clientGet _ | clientPut _ _ =>
    rw [sends.1]
    trivial
  | peerGet _ | peerPut _ _ => exact False.elim sends
  | _ => exact False.elim asked

theorem heartbeat_of_does {reads : GossipNode → Prop} {a : Action} (node : GossipNode)
    (asked : ReadsTimes q) (does : Does reads n q a) :
    (apply hash a node).heartbeat = node.heartbeat := by
  cases a with
  | touchHeartbeat x => exact funext (heartbeat_touch node x)
  | setHeartbeat _ _ | eraseHeartbeat _ =>
    cases q with
    | clientGet _ | clientPut _ _ | peerGet _ | peerPut _ _ => exact False.elim does
    | _ => exact False.elim asked
  | _ => rfl

/-- A client's program changes neither contacts nor times. -/
theorem same_of_runBeside {α : Type} {p : Code α} {Φ : α → Prop} (hp : Within asking p Φ)
    {client client' : KeyValueStoreClient} {a : α}
    (hrun : runBeside hash env depth p client w = some (client', w', a)) (x : String) :
    contacts (w'.state x) = contacts (w.state x) ∧
      (w'.state x).heartbeat = (w.state x).heartbeat := by
  refine runBeside_related (fun state state' => contacts (state' x) = contacts (state x) ∧
      (state' x).heartbeat = (state x).heartbeat) (fun _ => ⟨rfl, rfl⟩)
    (fun _ _ _ h h' => ⟨h'.1.trans h.1, h'.2.trans h.2⟩)
    (fun dst q w w' r asked hcall => ?_) hp hrun
  have reading : ReadsTimes q ∧ ¬ MovesMembers q := by
    cases q with
    | clientGet _ | clientPut _ _ => exact ⟨trivial, id⟩
    | _ => exact False.elim asked
  rcases deliver_cases hcall with ⟨rfl, _⟩ | ⟨reply, hserve, _⟩
  · exact ⟨rfl, rfl⟩
  · exact ⟨contacts_of_serveOn reading.2 hserve x, part_of_serveOn ReadsTimes GossipNode.heartbeat
      (fun _ _ _ _ asked hsends => readsTimes_of_sends asked hsends)
      (fun _ _ _ node asked does => heartbeat_of_does node asked does) reading.1 hserve x⟩

end Frames

section Schedules

/-- When the last turn of each server began, at the earliest. -/
def turned (call : Call) (start : Int) (last : String → Int) : String → Int :=
  match call with
  | .turn node => Function.update last node start
  | _ => last

/-- A call, made between two readings of the clocks. Every server has had its last turn less
than `CHECK_ALIVE_INTERVAL` and `HEARTBEAT_INTERVAL` apart ago. -/
structure InTime (servers : List String) (last : String → Int) (start stop : Int) (e : Event) :
    Prop where
  reliable : e.env.Reliable
  clocks : ∀ i, start ≤ (e.env.now i).toInt ∧ (e.env.now i).toInt ≤ stop
  turns : ∀ n ∈ servers, stop + stampNs ≤ last n + aliveNs
  turn : ∀ node, e.call = .turn node → node ∈ servers
  command : ∀ addr cmd, e.call ≠ .command addr cmd

/-- Calls that come in time, each with the reading at which it ends. -/
def Steady (servers : List String) : (String → Int) → Int → List (Event × Int) → Prop
  | _, _, [] => True
  | last, start, (e, stop) :: schedule =>
    InTime servers last start stop e ∧ Steady servers (turned e.call start last) stop schedule

/-- When the last turns began, after the calls. -/
def lastTurns : (String → Int) → Int → List (Event × Int) → String → Int
  | last, _, [] => last
  | last, start, (e, stop) :: schedule => lastTurns (turned e.call start last) stop schedule

/-- The servers share a ring, have stubs for each other, and know recent times: of each
other no older ones than the server itself, and of nobody else any. -/
structure Fresh (servers : List String) (r : ConsistentHashingRing) (last : String → Int)
    (state : String → GossipNode) : Prop where
  ring : ∀ n ∈ servers, (state n).ring = r
  stubs : ∀ n ∈ servers, ∀ m, m ∈ (state n).stubs ↔ m ∈ servers ∧ m ≠ n
  alive : ∀ n ∈ servers, (state n).alive = true
  epoch : ∀ n ∈ servers, FromEpoch (state n)
  informed : ∀ n ∈ servers, ∀ m ∈ servers,
    ((state m).heartbeat m).toInt ≤ ((state n).heartbeat m).toInt
  recent : ∀ m ∈ servers, last m < ((state m).heartbeat m).toInt + stampNs
  strangers : ∀ n ∈ servers, ∀ m, m ∉ servers → (state n).heartbeat m = 0

/-- One of the servers knows recent times of the others, and may be the only one. -/
structure Leads (servers : List String) (r : ConsistentHashingRing) (last : String → Int)
    (node : String) (state : String → GossipNode) : Prop where
  server : node ∈ servers
  ring : ∀ n ∈ servers, (state n).ring = r
  stubs : ∀ n ∈ servers, ∀ m, m ∈ (state n).stubs ↔ m ∈ servers ∧ m ≠ n
  alive : ∀ n ∈ servers, (state n).alive = true
  epoch : ∀ n ∈ servers, FromEpoch (state n)
  informed : ∀ m ∈ servers, ((state m).heartbeat m).toInt ≤ ((state node).heartbeat m).toInt
  recent : ∀ m ∈ servers, last m < ((state m).heartbeat m).toInt + stampNs
  strangers : ∀ n ∈ servers, ∀ m, m ∉ servers → (state n).heartbeat m = 0

variable {servers : List String} {r : ConsistentHashingRing} {last : String → Int}
variable {start stop : Int} {state state' : String → GossipNode} {node : String}

theorem Leads.recent_of_turn (leads : Leads servers r last node state) (hm : m ∈ servers) {i : Nat}
    (started : 0 ≤ (env.now i).toInt) (soon : (env.now i).toInt + stampNs ≤ last m + aliveNs) :
    Recent env i (state node) m := by
  have own := leads.recent m hm
  have heard := leads.informed m hm
  rw [Recent, durationMs_lt_iff, toInt_sub_of_epoch started (leads.epoch node leads.server m),
    elapsed]
  omega

namespace Fresh

variable (fresh : Fresh servers r last state)

include fresh

theorem leads (hnode : node ∈ servers) : Leads servers r last node state :=
  ⟨hnode, fresh.ring, fresh.stubs, fresh.alive, fresh.epoch, fresh.informed node hnode,
    fresh.recent, fresh.strangers⟩

theorem recent_of_turn (hn : n ∈ servers) (hm : m ∈ servers) {i : Nat}
    (started : 0 ≤ (env.now i).toInt) (soon : (env.now i).toInt + stampNs ≤ last m + aliveNs) :
    Recent env i (state n) m :=
  (fresh.leads hn).recent_of_turn hm started soon

theorem not_recent (hn : n ∈ servers) (hm : m ∉ servers) {i : Nat}
    (late : aliveNs ≤ (env.now i).toInt) : ¬ Recent env i (state n) m := by
  have started : 0 ≤ (env.now i).toInt := le_trans (by decide) late
  rw [Recent, durationMs_lt_iff, toInt_sub_of_epoch started (fresh.epoch n hn m), elapsed,
    fresh.strangers n hn m hm]
  exact Int.not_lt.mpr (by simpa using late)

/-- The servers find exactly each other alive. -/
theorem agree {e : Event} (inTime : InTime servers last start stop e) (late : aliveNs ≤ start) :
    Agree e.env (fun y => decide (y ∈ servers)) {y | y ∈ servers} r state := by
  intro n hn
  refine ⟨fresh.ring n hn, decide_eq_true hn, fun m hne i => ?_⟩
  obtain ⟨hstart, hstop⟩ := inTime.clocks i
  rw [decide_eq_true_iff]
  refine ⟨fun h => ?_, fun hm => ?_⟩
  · by_contra hm
    exact fresh.not_recent hn hm (late.trans hstart) h
  · have started : 0 ≤ (e.env.now i).toInt := le_trans (by decide) (late.trans hstart)
    have soon := inTime.turns m hm
    exact fresh.recent_of_turn hn hm started (by omega)

/-- Calls that keep contacts and times. -/
theorem congr (contacts_eq : ∀ x, contacts (state' x) = contacts (state x))
    (times : ∀ x m, (state' x).heartbeat m = (state x).heartbeat m) :
    Fresh servers r last state' := by
  have same := fun x => parts_of_contacts (contacts_eq x)
  refine ⟨fun n hn => (same n).1.trans (fresh.ring n hn), fun n hn m => ?_,
    fun n hn => (same n).2.2.trans (fresh.alive n hn), fun n hn m => ?_, fun n hn m hm => ?_,
    fun m hm => ?_, fun n hn m hm => (times n m).trans (fresh.strangers n hn m hm)⟩
  · rw [(same n).2.1]
    exact fresh.stubs n hn m
  · rw [times]
    exact fresh.epoch n hn m
  · rw [times, times]
    exact fresh.informed n hn m hm
  · rw [times]
    exact fresh.recent m hm

end Fresh

/-- After the sender's stamp and the times that it passes on, all servers are informed. -/
theorem Leads.spread {i : Nat} (leads : Leads servers r last node state) (started : 0 ≤ start)
    (hstart : start ≤ (env.now i).toInt)
    (contacts_eq : ∀ x, contacts (state' x) = contacts (state x))
    (spread : Spread env i node state state') :
    Fresh servers r (Function.update last node start) state' := by
  have same := fun x => parts_of_contacts (contacts_eq x)
  have own : ((state' node).heartbeat node).toInt = (env.now i).toInt := by rw [spread.own]
  have told : ∀ n ∈ servers, n ≠ node → ∀ m, ((state' n).heartbeat m).toInt =
      max ((state n).heartbeat m).toInt ((state' node).heartbeat m).toInt :=
    fun n hn hne => spread.told n ((leads.stubs node leads.server n).mpr ⟨hn, hne⟩)
  refine ⟨fun n hn => (same n).1.trans (leads.ring n hn), fun n hn m => ?_,
    fun n hn => (same n).2.2.trans (leads.alive n hn), fun n hn m => ?_, fun n hn m hm => ?_,
    fun m hm => ?_, fun n hn m hm => ?_⟩
  · rw [(same n).2.1]
    exact leads.stubs n hn m
  · by_cases hne : n = node
    · subst hne
      by_cases hm : m = n
      · rw [hm, own]
        exact started.trans hstart
      · rw [spread.kept m hm]
        exact leads.epoch n hn m
    · rw [told n hn hne m]
      exact le_max_of_le_left (leads.epoch n hn m)
  · have passed_on : ((state' m).heartbeat m).toInt ≤ ((state' node).heartbeat m).toInt := by
      by_cases hm' : m = node
      · rw [hm']
      · rw [told m hm hm' m, spread.kept m hm']
        exact max_le (leads.informed m hm) le_rfl
    by_cases hne : n = node
    · rw [hne]
      exact passed_on
    · rw [told n hn hne m]
      exact le_max_of_le_right passed_on
  · by_cases hm' : m = node
    · rw [hm', Function.update_self, own]
      exact hstart.trans_lt (Int.lt_add_of_pos_right _ (by decide))
    · rw [Function.update_of_ne hm', told m hm hm' m]
      exact (leads.recent m hm).trans_le (Int.add_le_add_right (le_max_left _ _) _)
  · have hm' : m ≠ node := fun h => hm (h ▸ leads.server)
    by_cases hne : n = node
    · rw [hne, spread.kept m hm']
      exact leads.strangers node leads.server m hm
    · rw [← Int64.toInt_inj, told n hn hne m, spread.kept m hm', leads.strangers n hn m hm,
        leads.strangers node leads.server m hm, max_self]

variable (hash) in
/-- A turn of the main loop of a server that knows recent times, if it is due. -/
theorem Leads.turn (leads : Leads servers r last node w.state)
    (inTime : InTime servers last start stop ⟨env, .turn node⟩) (started : 0 ≤ start) :
    ∃ w', serveOn hash env 3 node .mainLoopTurn w = some (w', .turnDone) ∧
      ((∃ i, ¬ heartbeatInterval < durationMs (env.now i) ((w.state node).heartbeat node)) ∧
          (∀ n m, (w'.state n).heartbeat m = (w.state n).heartbeat m) ∨
        Fresh servers r (Function.update last node start) w'.state) := by
  have hstubs := leads.stubs node leads.server
  have epoch : ∀ n, n = node ∨ n ∈ (w.state node).stubs → FromEpoch (w.state n) := by
    rintro n (rfl | hn)
    · exact leads.epoch n leads.server
    · exact leads.epoch n ((hstubs n).mp hn).1
  have started' : ∀ i, 0 ≤ (env.now i).toInt := fun i => started.trans (inTime.clocks i).1
  have recent : ∀ n ∈ (w.state node).stubs, ∀ i, Recent env i (w.state node) n := by
    intro n hn i
    have hserver := ((hstubs n).mp hn).1
    have soon := inTime.turns n hserver
    have hstop : (env.now i).toInt ≤ stop := (inTime.clocks i).2
    exact leads.recent_of_turn hserver (started' i) (by omega)
  obtain ⟨w', hrun, hspread⟩ := turn_spreads hash 1 inTime.reliable
    (fun h => ((hstubs node).mp h).2 rfl) epoch started' recent (leads.alive node leads.server)
  have contacts_eq := contacts_of_serveOn (show ¬ MovesMembers .mainLoopTurn from id) hrun
  refine ⟨w', hrun, hspread.imp_right ?_⟩
  rintro ⟨i, spread⟩
  exact leads.spread started (inTime.clocks i).1 contacts_eq spread

/-- No time of a server that is not due for a turn is too old. -/
theorem lt_of_undue {i : Nat} {time : Int64} (started : 0 ≤ (env.now i).toInt)
    (epoch : 0 ≤ time.toInt) (undue : ¬ heartbeatInterval < durationMs (env.now i) time) :
    (env.now i).toInt < time.toInt + stampNs := by
  rw [heartbeatInterval_lt_iff, toInt_sub_of_epoch started epoch, elapsed] at undue
  omega

variable (hash) in
/-- A turn that comes late enough for the server to be due. -/
theorem Leads.turn_due (leads : Leads servers r last node w.state)
    (inTime : InTime servers last start stop ⟨env, .turn node⟩) (started : 0 ≤ start)
    (old : ((w.state node).heartbeat node).toInt + stampNs ≤ start) :
    ∃ w', serveOn hash env 3 node .mainLoopTurn w = some (w', .turnDone) ∧
      Fresh servers r (Function.update last node start) w'.state := by
  obtain ⟨w', hrun, ⟨⟨i, undue⟩, _⟩ | fresh⟩ := leads.turn hash inTime started
  · have hi := (inTime.clocks i).1
    have hlt := lt_of_undue (started.trans hi) (leads.epoch node leads.server node) undue
    exact absurd (old.trans hi) (Int.not_le.mpr hlt)
  · exact ⟨w', hrun, fresh⟩

variable (hash) in
/-- A turn of the main loop of one of the servers. -/
theorem Fresh.turn (fresh : Fresh servers r last w.state)
    (inTime : InTime servers last start stop ⟨env, .turn node⟩) (started : 0 ≤ start) :
    ∃ w', serveOn hash env 3 node .mainLoopTurn w = some (w', .turnDone) ∧
      Fresh servers r (Function.update last node start) w'.state := by
  obtain ⟨w', hrun, ⟨⟨i, undue⟩, same⟩ | fresh'⟩ :=
    (fresh.leads (inTime.turn node rfl)).turn hash inTime started
  · have contacts_eq := contacts_of_serveOn (show ¬ MovesMembers .mainLoopTurn from id) hrun
    have kept := fresh.congr contacts_eq same
    refine ⟨w', hrun, kept.ring, kept.stubs, kept.alive, kept.epoch, kept.informed, fun m hm => ?_,
      kept.strangers⟩
    by_cases hm' : m = node
    · subst hm'
      have hstart : start ≤ (env.now i).toInt := (inTime.clocks i).1
      rw [Function.update_self, same]
      exact hstart.trans_lt (lt_of_undue (started.trans hstart) (fresh.epoch m hm m) undue)
    · rw [Function.update_of_ne hm']
      exact kept.recent m hm
  · exact ⟨w', hrun, fresh'⟩

/-- After any call that came in time. -/
theorem Fresh.perform {s s' : Deployment} {e : Event} {o : Output}
    (fresh : Fresh servers r last s.net.state) (inTime : InTime servers last start stop e)
    (started : 0 ≤ start) (hrun : perform hash s e = some (s', o)) :
    Fresh servers r (turned e.call start last) s'.net.state := by
  obtain ⟨env, call⟩ := e
  cases call with
  | get client key attempts selections =>
    obtain ⟨⟨client', w', ret⟩, hget, heq⟩ := Option.map_eq_some_iff.mp hrun
    cases heq
    have same := same_of_runBeside (get_asks attempts selections) hget
    exact fresh.congr (fun x => (same x).1) fun x => congrFun (same x).2
  | put client key value attempts inputs rounds =>
    obtain ⟨⟨client', w', ret⟩, hput, heq⟩ := Option.map_eq_some_iff.mp hrun
    cases heq
    have same := same_of_runBeside (put_asks false attempts inputs rounds) hput
    exact fresh.congr (fun x => (same x).1) fun x => congrFun (same x).2
  | turn node =>
    obtain ⟨⟨w', r'⟩, hturn, heq⟩ := Option.map_eq_some_iff.mp hrun
    cases heq
    obtain ⟨w₁, hturn₁, fresh₁⟩ := fresh.turn hash inTime started
    cases hturn.symm.trans hturn₁
    exact fresh₁
  | command addr cmd => exact absurd rfl (inTime.command addr cmd)

theorem InTime.start_le_stop {e : Event} (inTime : InTime servers last start stop e) :
    start ≤ stop :=
  (inTime.clocks 0).1.trans (inTime.clocks 0).2

theorem Fresh.run (schedule : List (Event × Int)) {s s' : Deployment} {outs : List Output}
    (fresh : Fresh servers r last s.net.state) (started : 0 ≤ start)
    (steady : Steady servers last start schedule)
    (hrun : runEvents (SequentialStore.perform hash) s (schedule.map Prod.fst) = some (s', outs)) :
    Fresh servers r (lastTurns last start schedule) s'.net.state := by
  induction schedule generalizing s last start outs with
  | nil =>
    cases hrun
    exact fresh
  | cons call schedule ih =>
    obtain ⟨e, stop⟩ := call
    obtain ⟨inTime, steady⟩ := steady
    obtain ⟨⟨s₁, o⟩, hperform, hrun⟩ := Option.bind_eq_some_iff.mp hrun
    obtain ⟨⟨s₂, outs₂⟩, hrest, heq⟩ := Option.map_eq_some_iff.mp hrun
    cases heq
    exact ih (fresh.perform inTime started hperform) (started.trans inTime.start_le_stop) steady
      hrest

/-- Requests may come at any time of the schedule. -/
theorem Fresh.admissible (schedule : List (Event × Int)) {s : Deployment}
    (fresh : Fresh servers r last s.net.state) (late : aliveNs ≤ start)
    (steady : Steady servers last start schedule) :
    Admissible (SequentialStore.perform hash)
      (MayCall (fun y => decide (y ∈ servers)) {y | y ∈ servers} r) s
      (schedule.map Prod.fst) := by
  induction schedule generalizing s last start with
  | nil => trivial
  | cons call schedule ih =>
    obtain ⟨e, stop⟩ := call
    obtain ⟨inTime, steady⟩ := steady
    refine ⟨?_, fun x hx => ?_⟩
    · obtain ⟨env, call⟩ := e
      have agree := fresh.agree inTime late
      cases call with
      | get _ _ _ _ | put _ _ _ _ _ _ => exact ⟨inTime.reliable, agree⟩
      | turn _ => trivial
      | command addr cmd => exact absurd rfl (inTime.command addr cmd)
    · have started : 0 ≤ start := le_trans (by decide) late
      exact ih (fresh.perform inTime started hx) (late.trans inTime.start_le_stop) steady

end Schedules

section Results

variable {servers : List String} {r : ConsistentHashingRing} {last : String → Int} {start : Int}
variable {s : Deployment}

/-- Whatever clients called meanwhile: as long as a server has had a turn of its main loop
less than 4.999 seconds ago, all others go on with it as with a server that is alive. -/
theorem members_treated_alive (fresh : Fresh servers r last s.net.state) (started : 0 ≤ start)
    {schedule : List (Event × Int)} (steady : Steady servers last start schedule)
    {s' : Deployment} {outs : List Output}
    (hrun : runEvents (perform hash) s (schedule.map Prod.fst) = some (s', outs))
    (hn : n ∈ servers) (hm : m ∈ servers) {tick : Nat} (epoch : 0 ≤ (env.now tick).toInt)
    (soon : (env.now tick).toInt + stampNs ≤ lastTurns last start schedule m + aliveNs) :
    TreatsAlive hash env n m ⟨s'.net.state, tick⟩ := by
  rw [treatsAlive_iff]
  exact (fresh.run schedule started steady hrun).recent_of_turn hn hm epoch soon

/-- The store is one map for calls during which the servers agree who is alive. -/
theorem one_map (ring : RingOf hash {y | y ∈ servers} r) (positive : 0 < r.numVirtualNodes)
    (accurate : Accurate r) (nodup : servers.Nodup) (two : rCount ≤ servers.length)
    (stubs : ∀ n ∈ servers, ∀ m, m ∈ (s.net.state n).stubs ↔ m ∈ servers ∧ m ≠ n)
    (attached : ∀ client, Attached {y | y ∈ servers} (s.clients client))
    (empty : ∀ n ∈ servers, ∀ key, stored s.net.state n key = none)
    (calls : List Event) (short : calls.length < 2 ^ 64)
    (admissible : Admissible (perform hash)
      (MayCall (fun y => decide (y ∈ servers)) {y | y ∈ servers} r) s calls) :
    ∃ s', runEvents (perform hash) s calls =
      some (s', outputs mapStep (fun _ => none) calls) := by
  have owner : ∀ {key y}, y ∈ owners hash r key ↔ y ∈ servers := ring.mem_owners positive
  have hquorum : ∀ key, quorum hash r (fun y => decide (y ∈ servers)) key =
      ReplicaSets.replicas hash r key := fun key =>
    quorum_eq_replicas accurate fun y hy => decide_eq_true (owner.mp hy)
  have inside : ∀ key, ∀ y ∈ quorum hash r (fun y => decide (y ∈ servers)) key, y ∈ servers := by
    intro key y hy
    rw [hquorum] at hy
    exact ReplicaSets.RingOf.mem_of_mem_replicas ring hy
  have enough : ∀ key, rCount ≤ (quorum hash r (fun y => decide (y ∈ servers)) key).length := by
    intro key
    rw [hquorum, ReplicaSets.replicas, List.length_take]
    exact le_min (by decide)
      (two.trans (nodup.subperm fun y hy => owner.mpr hy).length_le)
  have start : Stores hash (fun y => decide (y ∈ servers)) {y | y ∈ servers} r 0 s fun _ => none :=
    ⟨attached, fun n hn key y hy _ hne =>
        (stubs n hn y).mpr ⟨owner.mp (mem_owners_of_mem_candidates hy), hne⟩,
      fun key => ⟨none, fun y hy => empty y (inside key y hy) key, rfl, counts_nil 0⟩⟩
  obtain ⟨s', hrun, _⟩ := (implements inside enough).run calls (by omega) start admissible
  exact ⟨s', hrun⟩

/-- Clients of servers that keep their main loops turning see one map. -/
theorem timely_store (ring : RingOf hash {y | y ∈ servers} r) (positive : 0 < r.numVirtualNodes)
    (accurate : Accurate r) (nodup : servers.Nodup) (two : rCount ≤ servers.length)
    (fresh : Fresh servers r last s.net.state) (late : aliveNs ≤ start)
    (attached : ∀ client, Attached {y | y ∈ servers} (s.clients client))
    (empty : ∀ n ∈ servers, ∀ key, stored s.net.state n key = none)
    {schedule : List (Event × Int)} (steady : Steady servers last start schedule)
    (short : schedule.length < 2 ^ 64) :
    ∃ s', runEvents (perform hash) s (schedule.map Prod.fst) =
      some (s', outputs mapStep (fun _ => none) (schedule.map Prod.fst)) :=
  one_map ring positive accurate nodup two fresh.stubs attached empty _ (by simpa using short)
    (fresh.admissible schedule late steady)

end Results

section Samples

/-- A clock that stands still during a call. -/
def clockAt (time : Int64) : Env String Int64 := { calmEnv with now := fun _ => time }

theorem inTime_clockAt {servers : List String} {last : String → Int} {start stop : Int}
    {time : Int64} {call : Call} (reading : time.toInt = stop) (later : start ≤ stop)
    (turns : ∀ n ∈ servers, stop + stampNs ≤ last n + aliveNs)
    (turn : ∀ node, call = .turn node → node ∈ servers)
    (command : ∀ addr cmd, call ≠ .command addr cmd) :
    InTime servers last start stop ⟨clockAt time, call⟩ :=
  ⟨fun _ _ => rfl, fun _ => ⟨later.trans_eq reading.symm, reading.le⟩, turns, turn, command⟩

def threeNodes : List String := ["A", "B", "C"]

/-- Three servers whose times for each other are of second 16. -/
def warmServer (n : String) : GossipNode :=
  { cluster fourNodes threeNodes n with
    membersHeartbeatList := threeNodes.foldl (fun times m => times.insert m 16000000000) ∅ }

def warmServers : Deployment := ⟨.init [], threeServers.clients, ⟨warmServer, 0⟩⟩

/-- A put in second 23, a turn of each server in second 24, and a get in second 28, when the
first times would be too old. -/
def oneRound : List (Event × Int) :=
  [(⟨clockAt 23500000000, .put "p" "k" "v" 0 (fun _ => ⟨[], 0⟩) 0⟩, 23500000000),
    (⟨clockAt 24000000000, .turn "A"⟩, 24000000000),
    (⟨clockAt 24000000000, .turn "B"⟩, 24000000000),
    (⟨clockAt 24000000000, .turn "C"⟩, 24000000000),
    (⟨clockAt 28000000000, .get "g" "k" 0 []⟩, 28000000000)]

/-- The last turns, before the calls. -/
def secondTwenty (_ : String) : Int := 20000000000

theorem steady_oneRound : Steady threeNodes secondTwenty 20000000000 oneRound := by
  refine ⟨inTime_clockAt ?_ ?_ ?_ ?_ ?_, inTime_clockAt ?_ ?_ ?_ ?_ ?_,
    inTime_clockAt ?_ ?_ ?_ ?_ ?_, inTime_clockAt ?_ ?_ ?_ ?_ ?_,
    inTime_clockAt ?_ ?_ ?_ ?_ ?_, trivial⟩ <;>
  first | decide | simp [threeNodes]

theorem heartbeat_warmServer (n m : String) :
    (warmServer n).heartbeat m = if m ∈ threeNodes then 16000000000 else 0 := by
  have table : (warmServer n).membersHeartbeatList.keys = ["C", "B", "A"] := rfl
  by_cases hm : m ∈ threeNodes
  · rw [if_pos hm]
    simp only [threeNodes, List.mem_cons, List.not_mem_nil, or_false] at hm
    rcases hm with rfl | rfl | rfl <;> rfl
  · rw [if_neg hm]
    refine heartbeat_of_not_mem fun h => hm ?_
    have hkey := AList.mem_keys.mp h
    rw [table] at hkey
    simp only [threeNodes, List.mem_cons] at hkey ⊢
    tauto

theorem fresh_warmServers : Fresh threeNodes (ringWith fourNodes threeNodes) secondTwenty
    warmServers.net.state := by
  refine ⟨fun n hn => if_pos hn, fun n hn m => ?_, fun _ _ => rfl, fun n _ m => ?_,
    fun n _ m _ => ?_, fun m hm => ?_, fun n _ m hm => ?_⟩
  · have stubs : m ∈ (cluster fourNodes threeNodes n).stubs ↔ _ := mem_cluster_stubs
    exact stubs.trans (and_iff_right hn)
  · rw [warmServers, heartbeat_warmServer]
    split <;> decide
  · rw [warmServers, heartbeat_warmServer, heartbeat_warmServer]
  · rw [warmServers, heartbeat_warmServer, if_pos hm, secondTwenty]
    decide
  · rw [warmServers, heartbeat_warmServer, if_neg hm]

theorem timely_store_sample : ∃ s', runEvents (perform fourNodes) warmServers
      (oneRound.map Prod.fst) =
    some (s', [.put (some true), .turn, .turn, .turn, .get (some (.success "v"))]) := by
  have ring : RingOf fourNodes {n | n ∈ threeNodes} (ringWith fourNodes threeNodes) :=
    ReplicaSets.ringOf_ringWith _ (ReplicaSets.noCollision_fourNodes.subset (by
      intro n hn
      simp only [threeNodes, Set.mem_ofPred_eq, List.mem_cons] at hn ⊢
      tauto))
  have attached : ∀ client, Attached {n | n ∈ threeNodes} (warmServers.clients client) :=
    fun _ => ⟨(AList.mem_insert _).mpr (Or.inl rfl), List.mem_cons_self⟩
  exact timely_store ring (by decide +kernel) accurate_threeNodes (by decide) (by decide)
    fresh_warmServers (by decide)
    attached (fun n _ key => rfl) steady_oneRound (by decide)

/-- In second 28 server A goes on with server B as with one that is alive. -/
theorem members_treated_alive_sample : ∃ s' outs,
    runEvents (perform fourNodes) warmServers (oneRound.map Prod.fst) = some (s', outs) ∧
      TreatsAlive fourNodes (clockAt 28000000000) "A" "B" ⟨s'.net.state, 0⟩ := by
  obtain ⟨⟨s', outs⟩, hrun, _⟩ :
      ∃ x ∈ runEvents (perform fourNodes) warmServers (oneRound.map Prod.fst), True := by
    decide +kernel
  exact ⟨s', outs, hrun, members_treated_alive fresh_warmServers (by decide) steady_oneRound hrun
    (by decide) (by decide) (by decide) (by decide)⟩

end Samples

end FreshHeartbeats
