import DynamoStore.Admin
import DynamoStore.JoinTransfers
import DynamoStore.LeaveTransfers

/-!
# Rings under membership commands

The admin sends joins and leaves one after another. The nodes that it marks alive
know each other: their rings have exactly these nodes as owners, and their stubs
are all the others. A node that is out of the network is not told of changes and
keeps its old ring, which a later join does not clear; so the rings agree as long
as no node joins with a ring that names nodes which have left meanwhile.
-/

namespace RingAgreement

open RpcPrograms GossipNode Admin
open RingOwners ClusterStores HandlerRuns JoinTransfers LeaveTransfers

/-- A ring names a node. -/
def Names (r : ConsistentHashingRing) (id : String) : Prop := ∃ p, (p, id) ∈ r.ring.entries

/-- A node that joins has no node on its ring that is not alive, save itself. -/
def JoinsClean (admin : Admin) (w : Net) (addr command : String) : Prop :=
  command = "JoinNetwork" → ∀ id, Names (w.state addr).ring id → id = addr ∨ admin.MarkedAlive id

/-- One join or leave, of any server. -/
inductive Commanded (hash : String → UInt64) (env : Env String Int64)
    (ok : Admin → Net → String → String → Prop) : Admin × Net → Admin × Net → Prop
  | send {admin admin' : Admin} {w w' : Net} {answered : Bool} (addr command : String) :
      command = "JoinNetwork" ∨ command = "LeaveNetwork" → ok admin w addr command →
      admin.cmd hash env 3 addr command w = some (w', admin', answered) →
      Commanded hash env ok (admin, w) (admin', w')

variable {hash : String → UInt64} {env : Env String Int64} {config : Set String}
variable {numVirtualNodes : String → Nat} {admin : Admin} {w : Net} {x : String}

/-- A ring with some of the configured nodes. -/
structure Known (hash : String → UInt64) (config : Set String) (numVirtualNodes : Nat)
    (r : ConsistentHashingRing) : Prop where
  virtual : r.numVirtualNodes = numVirtualNodes
  ids : ∃ ids ⊆ config, RingOf hash ids r

namespace Known

variable {numVirtualNodes : Nat} {r : ConsistentHashingRing}

theorem addNode (known : Known hash config numVirtualNodes r)
    (apart : NoCollision hash numVirtualNodes config) (hx : x ∈ config) :
    Known hash config numVirtualNodes (r.addNode hash x) := by
  obtain ⟨virtual, ids, hids, ring⟩ := known
  have hsub : insert x ids ⊆ config := Set.insert_subset hx hids
  exact ⟨virtual, insert x ids, hsub, ringOf_addNode ring (virtual ▸ apart.subset hsub)⟩

theorem removeNode (known : Known hash config numVirtualNodes r)
    (apart : NoCollision hash numVirtualNodes config) (hx : x ∈ config) :
    Known hash config numVirtualNodes (r.removeNode hash x) := by
  obtain ⟨virtual, ids, hids, ring⟩ := known
  have hsub : insert x ids ⊆ config := Set.insert_subset hx hids
  exact ⟨virtual, ids \ {x}, Set.sdiff_subset.trans hids,
    ringOf_removeNode ring (virtual ▸ apart.subset hsub)⟩

theorem addNodes (l : List String) (hl : ∀ n ∈ l, n ∈ config)
    (known : Known hash config numVirtualNodes r)
    (apart : NoCollision hash numVirtualNodes config) :
    Known hash config numVirtualNodes (l.foldl (fun r n => r.addNode hash n) r) := by
  induction l generalizing r with
  | nil => exact known
  | cons n l ih =>
    rw [List.forall_mem_cons] at hl
    exact ih hl.2 (known.addNode apart hl.1)

end Known

section Effects

variable (hash w) in
/-- A join: the new node enters, and the servers that it tells take it in. -/
theorem cmd_join (reliable : env.Reliable) (hx : x ∈ admin.serverStatus) :
    ∃ w', admin.cmd hash env 3 x "JoinNetwork" w = some (w', admin.setStatus x true, true) ∧
      (w'.state x).ring = ((((admin.aliveServers env w.tick).filter fun addr => addr ≠ x).foldl
        (fun r addr => r.addNode hash addr) (w.state x).ring).addNode hash x) ∧
      (∀ m, m ∈ (w'.state x).stubs ↔ admin.MarkedAlive m ∧ m ≠ x) ∧
      ∀ n, n ≠ x →
        (w'.state n).ring = (if admin.MarkedAlive n then (w.state n).ring.addNode hash x
          else (w.state n).ring) ∧
        (w'.state n).stubs = if admin.MarkedAlive n then (w.state n).stubs.insert x ()
          else (w.state n).stubs := by
  obtain ⟨w₁, hrun, hjoined⟩ := adminJoin_run hash 0 w.next.next reliable x
    (admin.aliveServers env w.tick)
  have htold : ∀ n, n ∈ told env x (enter hash env x (admin.aliveServers env w.tick) w.next.next) ↔
      admin.MarkedAlive n ∧ n ≠ x := by
    intro n
    rw [mem_told, mem_enter_stubs, mem_aliveServers]
  have hself : x ∉ told env x (enter hash env x (admin.aliveServers env w.tick) w.next.next) :=
    fun h => ((htold x).mp h).2 rfl
  refine ⟨act hash w₁ x (.setAlive true), ?_, ?_, fun m => ?_, fun n hn => ⟨?_, ?_⟩⟩
  · rw [cmd, if_neg (by simp [hx, enumCmd])]
    simp [deliver_reliable reliable, hrun]
  · rw [World.modify_self, apply, hjoined.ring x, if_neg hself, enter_ring]
    rfl
  · rw [World.modify_self, apply, hjoined.stubs x, if_neg hself, mem_enter_stubs,
      mem_aliveServers]
  · rw [World.modify_of_ne _ _ hn, hjoined.ring n, enter_of_ne _ hn]
    simp [htold, hn]
  · rw [World.modify_of_ne _ _ hn, hjoined.stubs n, enter_of_ne _ hn]
    simp [htold, hn]

variable (hash w) in
/-- A leave: the node and its stubs take it off their rings. -/
theorem cmd_leave (reliable : env.Reliable) (hx : x ∈ admin.serverStatus)
    (own : x ∉ (w.state x).stubs) :
    ∃ w', admin.cmd hash env 3 x "LeaveNetwork" w = some (w', admin.setStatus x false, true) ∧
      (∀ n, (w'.state n).ring = if n = x ∨ n ∈ (w.state x).stubs then
        (w.state n).ring.removeNode hash x else (w.state n).ring) ∧
      ∀ n, (w'.state n).stubs = if n ∈ (w.state x).stubs then (w.state n).stubs.erase x
        else (w.state n).stubs := by
  obtain ⟨w', dest, hrun, _, _, hdismissed⟩ := leaveNetwork_run hash
    (act hash w.next.next x (.setAlive false)) 1 reliable x (by
      rw [World.modify_self]
      exact own)
  have htold : ∀ n, n ∈ told env x (act hash (act hash w.next.next x (.setAlive false)) x
      (.removeNode x)) ↔ n ∈ (w.state x).stubs := by
    intro n
    rw [mem_told, World.modify_self, apply, World.modify_self]
    rfl
  refine ⟨w', ?_, fun n => ?_, fun n => ?_⟩
  · have hserved : serveOn hash env 3 x (.adminCmd "LeaveNetwork" []) w.next.next =
        some (w', .adminCmd true) := by
      rw [serveOn_succ, serve, exec_adminLeave, hrun]
      rfl
    rw [cmd, if_neg (by simp [hx, enumCmd])]
    simp [deliver_reliable reliable, hserved]
  · rw [hdismissed.ring n]
    by_cases hn : n = x
    · subst hn
      simp [htold, own, apply]
    · simp [htold, hn]
  · rw [hdismissed.stubs n]
    by_cases hn : n = x
    · subst hn
      simp [htold, apply]
    · simp [htold, hn]

end Effects

/-- What the commands preserve. A node out of the network may have any configured
nodes on its ring. -/
structure Agreed (hash : String → UInt64) (config : Set String) (numVirtualNodes : String → Nat)
    (admin : Admin) (state : String → GossipNode) : Prop where
  configured : ∀ n, n ∈ admin.serverStatus ↔ n ∈ config
  known : ∀ n ∈ config, Known hash config (numVirtualNodes n) (state n).ring
  no_own_stub : ∀ n ∈ config, n ∉ (state n).stubs
  ring : ∀ n, admin.MarkedAlive n → RingOf hash {m | admin.MarkedAlive m} (state n).ring
  stubs : ∀ n, admin.MarkedAlive n → ∀ m, m ∈ (state n).stubs ↔ admin.MarkedAlive m ∧ m ≠ n

namespace Agreed

theorem init (config : List String) (numVirtualNodes : String → Nat) :
    Agreed hash {n | n ∈ config} numVirtualNodes (Admin.init config)
      fun n => GossipNode.new (numVirtualNodes n) where
  configured _ := mem_init
  known n _ := ⟨rfl, ∅, Set.empty_subset _, ringOf_init hash (numVirtualNodes n)⟩
  no_own_stub n _ := AList.notMem_empty n
  ring _ hn := absurd hn (not_markedAlive_init config)
  stubs _ hn := absurd hn (not_markedAlive_init config)

variable (agreed : Agreed hash config numVirtualNodes admin w.state)

include agreed

theorem alive_configured {n : String} (hn : admin.MarkedAlive n) : n ∈ config :=
  (agreed.configured n).mp (AList.lookup_isSome.mp (by rw [hn]; rfl))

variable (apart : ∀ n ∈ config, NoCollision hash (numVirtualNodes n) config) (hx : x ∈ config)

include hx

theorem configured_setStatus (status : Bool) (n : String) :
    n ∈ (admin.setStatus x status).serverStatus ↔ n ∈ config := by
  rw [mem_setStatus, agreed.configured n]
  exact ⟨fun h => h.elim (fun h => h ▸ hx) id, Or.inr⟩

include apart

theorem apart_alive {n : String} (hn : n ∈ config) : NoCollision hash
    (w.state n).ring.numVirtualNodes (insert x {m | admin.MarkedAlive m}) := by
  rw [(agreed.known n hn).virtual]
  exact (apart n hn).subset (Set.insert_subset hx fun m hm => agreed.alive_configured hm)

/-- A ring without stale nodes, when the servers that are alive and the node itself
have been added to it. -/
theorem ring_entered (positive : 0 < numVirtualNodes x)
    (clean : JoinsClean admin w x "JoinNetwork") :
    RingOf hash (insert x {m | admin.MarkedAlive m})
      ((((admin.aliveServers env w.tick).filter fun addr => addr ≠ x).foldl
        (fun r addr => r.addNode hash addr) (w.state x).ring).addNode hash x) := by
  obtain ⟨virtual, ids, hids, hring⟩ := agreed.known x hx
  have hnamed : ∀ id ∈ ids, id = x ∨ admin.MarkedAlive id := by
    intro id hid
    refine clean rfl id ⟨_, (hring _ id).mpr ⟨hid, 0, ?_, rfl⟩⟩
    rw [virtual]
    exact positive
  have hunion : insert x (ids ∪ {n | n ∈ (admin.aliveServers env w.tick).filter
      fun addr => addr ≠ x}) = insert x {m | admin.MarkedAlive m} := by
    ext n
    have hn := hnamed n
    simp only [Set.mem_insert_iff, Set.mem_union, Set.mem_ofPred_eq, List.mem_filter,
      mem_aliveServers, decide_eq_true_eq]
    tauto
  have hapart := agreed.apart_alive apart hx hx
  rw [← hunion] at hapart ⊢
  have hadded := ringOf_foldl_addNode _ hring (hapart.subset (Set.subset_insert _ _))
  refine ringOf_addNode hadded ?_
  rw [numVirtualNodes_foldl_addNode]
  exact hapart

/-- A join of a node whose ring is clean is answered and keeps the agreement. -/
theorem join (reliable : env.Reliable) (positive : 0 < numVirtualNodes x)
    (clean : JoinsClean admin w x "JoinNetwork") :
    ∃ w', admin.cmd hash env 3 x "JoinNetwork" w = some (w', admin.setStatus x true, true) ∧
      Agreed hash config numVirtualNodes (admin.setStatus x true) w'.state := by
  obtain ⟨w', hcmd, hringx, hstubsx, hothers⟩ :=
    cmd_join hash w reliable ((agreed.configured x).mpr hx)
  have hafter : {m | (admin.setStatus x true).MarkedAlive m} =
      insert x {m | admin.MarkedAlive m} := by
    ext n
    exact markedAlive_setStatus_true
  refine ⟨w', hcmd, agreed.configured_setStatus hx true, fun n hn => ?_, fun n hn => ?_,
    fun n hn => ?_, fun n hn m => ?_⟩
  · by_cases hnx : n = x
    · subst hnx
      rw [hringx]
      refine ((agreed.known n hn).addNodes _ (fun m hm => ?_) (apart n hn)).addNode (apart n hn) hn
      exact agreed.alive_configured ((mem_aliveServers _).mp (List.mem_filter.mp hm).1)
    · rw [(hothers n hnx).1]
      split
      · exact (agreed.known n hn).addNode (apart n hn) hx
      · exact agreed.known n hn
  · by_cases hnx : n = x
    · subst hnx
      rw [hstubsx]
      exact fun h => h.2 rfl
    · rw [(hothers n hnx).2]
      split
      · rw [AList.mem_insert]
        exact fun h => h.elim hnx (agreed.no_own_stub n hn)
      · exact agreed.no_own_stub n hn
  · rw [hafter]
    by_cases hnx : n = x
    · subst hnx
      rw [hringx]
      exact agreed.ring_entered apart hx positive clean
    · have halive := (markedAlive_setStatus_true.mp hn).resolve_left hnx
      rw [(hothers n hnx).1, if_pos halive]
      exact ringOf_addNode (agreed.ring n halive)
        (agreed.apart_alive apart hx (agreed.alive_configured halive))
  · rw [markedAlive_setStatus_true]
    by_cases hnx : n = x
    · subst hnx
      rw [hstubsx]
      tauto
    · have halive := (markedAlive_setStatus_true.mp hn).resolve_left hnx
      rw [(hothers n hnx).2, if_pos halive, AList.mem_insert, agreed.stubs n halive]
      have hne : m = x → m ≠ n := fun h h' => hnx (h'.symm.trans h)
      tauto

/-- A leave of any node is answered and keeps the agreement. -/
theorem leave (reliable : env.Reliable) :
    ∃ w', admin.cmd hash env 3 x "LeaveNetwork" w = some (w', admin.setStatus x false, true) ∧
      Agreed hash config numVirtualNodes (admin.setStatus x false) w'.state := by
  obtain ⟨w', hcmd, hring, hstubs⟩ := cmd_leave hash w reliable
    ((agreed.configured x).mpr hx) (agreed.no_own_stub x hx)
  have hafter : {m | (admin.setStatus x false).MarkedAlive m} =
      {m | admin.MarkedAlive m} \ {x} := by
    ext n
    exact markedAlive_setStatus_false.trans and_comm
  -- only a node that is not alive leaves others untold
  have hout : ∀ n, n ≠ x → admin.MarkedAlive n → n ∉ (w.state x).stubs →
      ¬ admin.MarkedAlive x := fun n hnx halive hnot hxalive =>
    hnot ((agreed.stubs x hxalive n).mpr ⟨halive, hnx⟩)
  refine ⟨w', hcmd, agreed.configured_setStatus hx false, fun n hn => ?_, fun n hn => ?_,
    fun n hn => ?_, fun n hn m => ?_⟩
  · rw [hring n]
    split
    · exact (agreed.known n hn).removeNode (apart n hn) hx
    · exact agreed.known n hn
  · rw [hstubs n]
    split
    · rw [AList.mem_erase]
      exact fun h => agreed.no_own_stub n hn h.2
    · exact agreed.no_own_stub n hn
  · obtain ⟨hnx, halive⟩ := markedAlive_setStatus_false.mp hn
    rw [hafter, hring n]
    split
    · exact ringOf_removeNode (agreed.ring n halive)
        (agreed.apart_alive apart hx (agreed.alive_configured halive))
    · rename_i hnot
      have hxout : x ∉ {m | admin.MarkedAlive m} :=
        hout n hnx halive fun h => hnot (Or.inr h)
      rw [Set.sdiff_singleton_eq_self hxout]
      exact agreed.ring n halive
  · obtain ⟨hnx, halive⟩ := markedAlive_setStatus_false.mp hn
    rw [hstubs n, markedAlive_setStatus_false]
    split
    · rw [AList.mem_erase, agreed.stubs n halive]
      tauto
    · rename_i hnot
      rw [agreed.stubs n halive]
      have hne : admin.MarkedAlive m → m ≠ x := fun h h' => hout n hnx halive hnot (h' ▸ h)
      tauto

end Agreed

section Runs

variable {config : List String} {tick : Nat}
variable (positive : ∀ n ∈ config, 0 < numVirtualNodes n)
variable (apart : ∀ n ∈ config, NoCollision hash (numVirtualNodes n) {n | n ∈ config})
variable (reliable : env.Reliable)

include positive apart reliable

theorem agreed_of_commanded {s : Admin × Net}
    (run : Relation.ReflTransGen (Commanded hash env JoinsClean)
      (Admin.init config, ⟨fun n => GossipNode.new (numVirtualNodes n), tick⟩) s) :
    Agreed hash {n | n ∈ config} numVirtualNodes s.1 s.2.state := by
  induction run with
  | refl => exact Agreed.init config numVirtualNodes
  | tail _ step ih =>
    obtain ⟨addr, command, hcommand, clean, hcmd⟩ := step
    by_cases hx : addr ∈ config
    swap
    · rw [cmd, if_pos (Or.inl fun h => hx ((ih.configured addr).mp h))] at hcmd
      cases hcmd
      exact ih
    rcases hcommand with rfl | rfl
    · obtain ⟨w', hcmd', hagreed⟩ := ih.join apart hx reliable (positive addr hx) clean
      cases hcmd.symm.trans hcmd'
      exact hagreed
    · obtain ⟨w', hcmd', hagreed⟩ := ih.leave apart hx reliable
      cases hcmd.symm.trans hcmd'
      exact hagreed

/-- After any sequence of joins and leaves in which no node joins with a stale ring,
the ring of each node that is marked alive names exactly the nodes marked alive, and
every further command is answered. -/
theorem rings_agree {admin : Admin} {w : Net}
    (run : Relation.ReflTransGen (Commanded hash env JoinsClean)
      (Admin.init config, ⟨fun n => GossipNode.new (numVirtualNodes n), tick⟩) (admin, w)) :
    (∀ n, admin.MarkedAlive n → ∀ id, Names (w.state n).ring id ↔ admin.MarkedAlive id) ∧
      ∀ addr ∈ config, ∀ command, command = "JoinNetwork" ∨ command = "LeaveNetwork" →
        JoinsClean admin w addr command →
        ∃ w' admin', admin.cmd hash env 3 addr command w = some (w', admin', true) := by
  have agreed := agreed_of_commanded positive apart reliable run
  refine ⟨fun n hn id => ?_, fun addr hx command hcommand clean => ?_⟩
  · have hmem : n ∈ config := agreed.alive_configured hn
    have hpos : 0 < (w.state n).ring.numVirtualNodes := by
      rw [(agreed.known n hmem).virtual]
      exact positive n hmem
    constructor
    · rintro ⟨p, hp⟩
      exact ((agreed.ring n hn p id).mp hp).1
    · intro hid
      exact ⟨_, (agreed.ring n hn _ id).mpr ⟨hid, 0, hpos, rfl⟩⟩
  · rcases hcommand with rfl | rfl
    · obtain ⟨w', hcmd, _⟩ := agreed.join apart hx reliable (positive addr hx) clean
      exact ⟨w', _, hcmd⟩
    · obtain ⟨w', hcmd, _⟩ := agreed.leave apart hx reliable
      exact ⟨w', _, hcmd⟩

end Runs

theorem commanded_of_cmds (commands : List (String × String))
    (hcommands : ∀ c ∈ commands, c.2 = "JoinNetwork" ∨ c.2 = "LeaveNetwork") {w' : Net}
    {admin' : Admin} (h : cmds hash env 3 commands admin w = some (w', admin')) :
    Relation.ReflTransGen (Commanded hash env fun _ _ _ _ => True) (admin, w) (admin', w') := by
  induction commands generalizing admin w with
  | nil =>
    cases h
    exact .refl
  | cons c commands ih =>
    rw [List.forall_mem_cons] at hcommands
    obtain ⟨⟨w₁, admin₁, answered⟩, hcmd, h⟩ := Option.bind_eq_some_iff.mp h
    exact .head (.send c.1 c.2 hcommands.1 trivial hcmd) (ih hcommands.2 h)

section Samples

theorem noCollision_twoNodes : NoCollision twoNodes 1 {n | n ∈ ["A", "B"]} := by
  have apart : ∀ n ∈ ["A", "B"], ∀ m ∈ ["A", "B"], ∀ i < 1, ∀ i' < 1,
      ConsistentHashingRing.virtualNode twoNodes n i =
        ConsistentHashingRing.virtualNode twoNodes m i' → n = m ∧ i = i' := by
    decide +kernel
  exact apart

theorem joinsClean_of_entries {admin : Admin} {w : Net} {addr : String}
    (h : ∀ x ∈ (w.state addr).ring.ring.entries, x.2 = addr ∨ admin.MarkedAlive x.2)
    (command : String) : JoinsClean admin w addr command := by
  rintro - id ⟨p, hp⟩
  exact h (p, id) hp

set_option synthInstance.maxSize 1000 in
/-- Nodes A and B join, and node A leaves and joins again. -/
theorem rings_agree_sample : ∃ (w : Net) (admin : Admin), admin.MarkedAlive "A" ∧
    admin.MarkedAlive "B" ∧ (10, "A") ∈ (w.state "B").ring.ring.entries ∧
    ∀ n, admin.MarkedAlive n → ∀ id, Names (w.state n).ring id ↔ admin.MarkedAlive id := by
  obtain ⟨⟨w₁, admin₁, _⟩, hjoinA, cleanB, ⟨w₂, admin₂, _⟩, hjoinB, ⟨w₃, admin₃, _⟩, hleave,
      cleanA, ⟨w, admin, _⟩, hrejoin, hA, hB, hring⟩ :
      ∃ x₁ ∈ (Admin.init ["A", "B"]).cmd twoNodes calmEnv 3 "A" "JoinNetwork"
          ⟨fun _ => GossipNode.new 1, 0⟩,
        (∀ x ∈ (x₁.1.state "B").ring.ring.entries, x.2 = "B" ∨ x₁.2.1.MarkedAlive x.2) ∧
        ∃ x₂ ∈ x₁.2.1.cmd twoNodes calmEnv 3 "B" "JoinNetwork" x₁.1,
        ∃ x₃ ∈ x₂.2.1.cmd twoNodes calmEnv 3 "A" "LeaveNetwork" x₂.1,
        (∀ x ∈ (x₃.1.state "A").ring.ring.entries, x.2 = "A" ∨ x₃.2.1.MarkedAlive x.2) ∧
        ∃ x₄ ∈ x₃.2.1.cmd twoNodes calmEnv 3 "A" "JoinNetwork" x₃.1,
          x₄.2.1.MarkedAlive "A" ∧ x₄.2.1.MarkedAlive "B" ∧
            (10, "A") ∈ (x₄.1.state "B").ring.ring.entries := by
    decide +kernel
  have clean : JoinsClean (Admin.init ["A", "B"]) ⟨fun _ => GossipNode.new 1, 0⟩ "A"
      "JoinNetwork" := joinsClean_of_entries (fun x hx => absurd hx List.not_mem_nil) _
  have run : Relation.ReflTransGen (Commanded twoNodes calmEnv JoinsClean)
      (Admin.init ["A", "B"], ⟨fun _ => GossipNode.new 1, 0⟩) (admin, w) :=
    .head (.send "A" _ (Or.inl rfl) clean hjoinA)
      (.head (.send "B" _ (Or.inl rfl) (joinsClean_of_entries cleanB _) hjoinB)
        (.head (.send "A" _ (Or.inr rfl) (fun h => absurd h (by decide)) hleave)
          (.single (.send "A" _ (Or.inl rfl) (joinsClean_of_entries cleanA _) hrejoin))))
  exact ⟨w, admin, hA, hB, hring, (rings_agree (fun _ _ => Nat.one_pos)
    (fun _ _ => noCollision_twoNodes) calmEnv_reliable run).1⟩

/-- Node A leaves, node B leaves without telling it, and node A joins again. -/
def staleRejoin : List (String × String) :=
  [("A", "JoinNetwork"), ("B", "JoinNetwork"), ("A", "LeaveNetwork"), ("B", "LeaveNetwork"),
    ("A", "JoinNetwork")]

/-- Node A is alone in the network, and node B is still on its ring. -/
theorem stale_ring_after_rejoin : NoCollision twoNodes 1 {n | n ∈ ["A", "B"]} ∧
    ∃ (w : Net) (admin : Admin),
      Relation.ReflTransGen (Commanded twoNodes calmEnv fun _ _ _ _ => True)
        (Admin.init ["A", "B"], ⟨fun _ => GossipNode.new 1, 0⟩) (admin, w) ∧
    admin.MarkedAlive "A" ∧ Names (w.state "A").ring "B" ∧ ¬ admin.MarkedAlive "B" := by
  obtain ⟨⟨w, admin⟩, hcmds, halive, hnames, hleft⟩ :
      ∃ x ∈ cmds twoNodes calmEnv 3 staleRejoin (Admin.init ["A", "B"])
        ⟨fun _ => GossipNode.new 1, 0⟩,
        x.2.MarkedAlive "A" ∧ (20, "B") ∈ (x.1.state "A").ring.ring.entries ∧
          ¬ x.2.MarkedAlive "B" := by
    decide +kernel
  exact ⟨noCollision_twoNodes, w, admin, commanded_of_cmds staleRejoin (by simp [staleRejoin])
    hcmds, halive, ⟨20, hnames⟩, hleft⟩

end Samples

end RingAgreement
