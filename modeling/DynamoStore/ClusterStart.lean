import DynamoStore.AdminBeliefs
import DynamoStore.ElasticStore

/-!
# Starting a cluster

A program of the admin reads the configuration and tells each server of it to join, until a
command fails. While no message is lost it always comes to the end, in whatever order it
meets the servers, and the servers then agree on one ring with all of them. If messages are
lost, what it reports can still be relied on.
-/

namespace ClusterStart

open RpcPrograms GossipNode KeyValueStoreClient AdminBeliefs ElasticStore
open RingOwners ClusterStores HandlerRuns KeyTransfers JoinTransfers RingAgreement ReplicaSets
open SequentialStore ExactReplicas

/-- The loop of `main`, which stops at the first command that fails. -/
def startServers (hash : String → UInt64) (env : Env String Int64) (depth : Nat) :
    List String → Admin → Net → Option (Net × Admin × Bool)
  | [], admin, w => some (w, admin, true)
  | serverAddr :: serverAddrs, admin, w =>
    (admin.cmd hash env depth serverAddr "JoinNetwork" w).bind fun x =>
      if x.2.2 = true then startServers hash env depth serverAddrs x.2.1 x.1 else some x

/-- `main` of `admin_auto_start`. The lines of the file are kept as a set, and the admin
reads the file too. -/
def adminAutoStart (hash : String → UInt64) (env : Env String Int64) (depth : Nat)
    (nodesConfig : Option (List Char)) (w : Net) : Option (Net × Admin × Bool) :=
  let serverAddrs := env.order w.tick (getNodesConfig nodesConfig).dedup
  startServers hash env depth serverAddrs (.init (getNodesConfig nodesConfig)) w.next

variable {hash : String → UInt64} {env : Env String Int64} {depth : Nat} {x : String}
variable {admin admin' : Admin} {w w' : Net} {success : Bool}

section Reports

/-- A join that is answered marks the server. -/
theorem markedAlive_of_join
    (hrun : admin.cmd hash env depth x "JoinNetwork" w = some (w', admin', true)) :
    admin'.MarkedAlive x := by
  have answer := (cmd_believed hrun).2.1 rfl
  rw [Admin.cmd] at hrun
  split at hrun
  · cases hrun
  · obtain ⟨⟨w₁, reply⟩, hdeliver, heq⟩ := Option.map_eq_some_iff.mp hrun
    simp only at heq
    split at heq
    · cases heq
      exact answer.mpr (join_alive (serveOn_of_deliver hdeliver)).1
    · cases heq

/-- What the program reports is so, whatever was lost. -/
theorem startServers_justified (serverAddrs : List String)
    (hrun : startServers hash env depth serverAddrs admin w = some (w', admin', success))
    (justified : Justified admin w.state) :
    Justified admin' w'.state ∧ (success = true →
      ∀ y, y ∈ serverAddrs ∨ admin.MarkedAlive y → admin'.MarkedAlive y) := by
  induction serverAddrs generalizing admin w with
  | nil =>
    cases hrun
    exact ⟨justified, fun _ y hy => hy.resolve_left List.not_mem_nil⟩
  | cons serverAddr serverAddrs ih =>
    obtain ⟨⟨w₁, admin₁, answered⟩, hcmd, hrun⟩ := Option.bind_eq_some_iff.mp hrun
    have justified₁ := cmd_justified hcmd justified
    cases answered with
    | false =>
      cases hrun
      exact ⟨justified₁, Bool.noConfusion⟩
    | true =>
      obtain ⟨justified', all⟩ := ih hrun justified₁
      refine ⟨justified', fun hsuccess y hy => all hsuccess y ?_⟩
      by_cases hhead : y = serverAddr
      · rw [hhead]
        exact Or.inr (markedAlive_of_join hcmd)
      · refine hy.imp (fun h => (List.mem_cons.mp h).resolve_left hhead) fun h => ?_
        exact (((cmd_believed hcmd).1 y hhead).2).mpr h

end Reports

section Start

variable {config : List String} {v : Nat}

/-- A join spares the servers that are not members. -/
theorem cmd_join_spares (reliable : env.Reliable) (hx : x ∈ admin.serverStatus)
    (hrun : admin.cmd hash env 3 x "JoinNetwork" w = some (w', admin', success)) {y : String}
    (hyx : y ≠ x) (out : ¬ admin.MarkedAlive y) :
    (w'.state y).ring = (w.state y).ring ∧
      ∀ key, (w'.state y).stateMachine.entry key = (w.state y).stateMachine.entry key := by
  obtain ⟨w₁, hcmd, _, _, others⟩ := cmd_join hash w reliable hx
  cases hrun.symm.trans hcmd
  refine ⟨(others y hyx).1.trans (if_neg out), fun key => ?_⟩
  have hserved := cmd_join_served reliable hx hcmd
  obtain ⟨w₂, hserved₂, joined⟩ := adminJoin_run hash 0 w.next.next reliable x
    (admin.aliveServers env w.tick)
  cases hserved.symm.trans hserved₂
  have untold : y ∉ told env x (enter hash env x (admin.aliveServers env w.tick) w.next.next) :=
    fun h => out ((Admin.mem_aliveServers _).mp ((mem_enter_stubs _).mp (mem_told.mp h)).1)
  have kept := joined.kept y key hyx fun h => absurd h untold
  rw [stored, stored, enter_stateMachine] at kept
  rw [World.modify_of_ne _ _ hyx]
  exact kept

variable {r : ConsistentHashingRing} {n : Nat} {clients : String → KeyValueStoreClient}
variable (positive : 0 < v) (apart : NoCollision hash v {y | y ∈ config}) (reliable : env.Reliable)

include positive apart reliable

theorem startServers_run (serverAddrs : List String) (nodup : serverAddrs.Nodup)
    (fresh : ∀ y ∈ serverAddrs, y ∈ config ∧ ¬ admin.MarkedAlive y)
    (blank : ∀ y, ¬ admin.MarkedAlive y → Blank v (w.state y))
    (h : Holding hash config v r n ⟨admin, clients, w⟩ fun _ => none) :
    ∃ w' admin' r' n', startServers hash env 3 serverAddrs admin w = some (w', admin', true) ∧
      Holding hash config v r' n' ⟨admin', clients, w'⟩ (fun _ => none) ∧
      ∀ y, admin'.MarkedAlive y ↔ y ∈ serverAddrs ∨ admin.MarkedAlive y := by
  induction serverAddrs generalizing admin w r n with
  | nil => exact ⟨w, admin, r, n, rfl, h, fun y => by simp⟩
  | cons serverAddr serverAddrs ih =>
    obtain ⟨hnot, nodup⟩ := List.nodup_cons.mp nodup
    rw [List.forall_mem_cons] at fresh
    obtain ⟨⟨hconfig, out⟩, fresh⟩ := fresh
    have nothing : ∀ y, admin.MarkedAlive y → ∀ key, stored w.state y key = none := by
      intro y hy key
      obtain ⟨e, held, hvalue, _⟩ := h.common key
      cases Option.map_eq_none_iff.mp hvalue
      exact held.none_of_none hy
    obtain ⟨w₁, hcmd, h₁⟩ := h.join positive apart hconfig reliable out (blank serverAddr out)
      (Or.inr nothing)
    have marked : ∀ y, (admin.setStatus serverAddr true).MarkedAlive y ↔
        y = serverAddr ∨ admin.MarkedAlive y := fun _ => Admin.markedAlive_setStatus_true
    have hserver := (h.agreed.configured serverAddr).mpr hconfig
    have blank₁ : ∀ y, ¬ (admin.setStatus serverAddr true).MarkedAlive y →
        Blank v (w₁.state y) := by
      intro y hy
      obtain ⟨hne, hout⟩ := not_or.mp ((marked y).not.mp hy)
      obtain ⟨hring, hentry⟩ := cmd_join_spares reliable hserver hcmd hne hout
      exact ⟨hring.trans (blank y hout).ring,
        fun key => (hentry key).trans ((blank y hout).store key)⟩
    have fresh₁ : ∀ y ∈ serverAddrs,
        y ∈ config ∧ ¬ (admin.setStatus serverAddr true).MarkedAlive y := by
      intro y hy
      refine ⟨(fresh y hy).1, fun halive => (fresh y hy).2 ?_⟩
      exact ((marked y).mp halive).resolve_left fun heq => hnot (heq ▸ hy)
    obtain ⟨w', admin', r', n', hrun, h', hmarked⟩ := ih nodup fresh₁ blank₁ h₁
    refine ⟨w', admin', r', n', ?_, h', fun y => ?_⟩
    · rw [startServers]
      exact (congrArg (Option.bind · _) hcmd).trans hrun
    · rw [hmarked y, marked y, List.mem_cons]
      tauto

end Start

/-- From the file on: a report of success means that all configured servers are alive,
whatever was lost. If nothing is lost, that is what is reported, and all the servers have
the ring made of them and the stubs of each other, in whatever order they were met. -/
theorem auto_start {v : Nat} (positive : 0 < v) (nodesConfig : Option (List Char))
    (apart : NoCollision hash v {y | y ∈ getNodesConfig nodesConfig}) (tick : Nat) :
    (∀ env w' admin' success,
        adminAutoStart hash env 3 nodesConfig ⟨fun _ => GossipNode.new v, tick⟩ =
          some (w', admin', success) →
        (∀ y, admin'.MarkedAlive y → (w'.state y).alive = true) ∧
          (success = true → ∀ y ∈ getNodesConfig nodesConfig, admin'.MarkedAlive y)) ∧
      ∀ env : Env String Int64, env.Reliable → ∃ w' admin',
        adminAutoStart hash env 3 nodesConfig ⟨fun _ => GossipNode.new v, tick⟩ =
          some (w', admin', true) ∧
        (∀ y, admin'.MarkedAlive y ↔ y ∈ getNodesConfig nodesConfig) ∧
        ∀ servers : List String, servers.Nodup →
          (∀ y, y ∈ servers ↔ y ∈ getNodesConfig nodesConfig) → ∀ y ∈ servers,
            (w'.state y).ring = ringOfMembers hash v servers ∧
              ∀ z, z ∈ (w'.state y).stubs ↔ z ∈ servers ∧ z ≠ y := by
  have met : ∀ (env : Env String Int64) tick y,
      y ∈ env.order tick (getNodesConfig nodesConfig).dedup ↔ y ∈ getNodesConfig nodesConfig :=
    fun env tick y => ((env.perm _ _).mem_iff).trans List.mem_dedup
  refine ⟨fun env w' admin' success hrun => ?_, fun env reliable => ?_⟩
  · obtain ⟨justified, all⟩ := startServers_justified _ hrun
      fun y hy => absurd hy (Admin.not_markedAlive_init _)
    exact ⟨justified, fun hsuccess y hy => all hsuccess y (Or.inl ((met env _ y).mpr hy))⟩
  · have out : ∀ y, ¬ (Admin.init (getNodesConfig nodesConfig)).MarkedAlive y :=
      fun y => Admin.not_markedAlive_init _
    obtain ⟨r, h⟩ : Holds hash (getNodesConfig nodesConfig) v 0 ⟨.init _, _, ⟨_, tick + 1⟩⟩ _ :=
      holds_start (fun _ => ⟨∅, "", .empty⟩) (tick + 1)
    obtain ⟨w', admin', r', n', hrun, h', hmarked⟩ := startServers_run positive apart reliable
      (env.order tick (getNodesConfig nodesConfig).dedup)
      ((env.perm _ _).nodup_iff.mpr (List.nodup_dedup _))
      (fun y hy => ⟨(met env tick y).mp hy, out y⟩) (fun y _ => ⟨rfl, fun _ => rfl⟩) h
    have all : ∀ y, admin'.MarkedAlive y ↔ y ∈ getNodesConfig nodesConfig := fun y =>
      (hmarked y).trans ((or_iff_left (out y)).trans (met env tick y))
    refine ⟨w', admin', hrun, all, fun servers nodup same y hy => ?_⟩
    have member := (all y).mpr ((same y).mp hy)
    refine ⟨(h'.shared y member).trans (h'.eq_ringOfMembers positive apart nodup fun z =>
      (same z).trans (all z).symm), fun z => ?_⟩
    rw [h'.agreed.stubs y member z, same z, all z]

section Samples

def threeLines : Option (List Char) := some "A\nB\nC\n".toList

/-- Server B, which was met second, has the ring on which the servers came in another order. -/
theorem auto_start_sample : ∃ w' admin',
    adminAutoStart fourNodes calmEnv 3 threeLines ⟨fun _ => GossipNode.new 1, 0⟩ =
      some (w', admin', true) ∧
    (w'.state "B").alive = true ∧
    (w'.state "B").ring = ringOfMembers fourNodes 1 ["C", "A", "B"] ∧
      ∀ z, z ∈ (w'.state "B").stubs ↔ z ∈ ["C", "A", "B"] ∧ z ≠ "B" := by
  have hlines : getNodesConfig threeLines = servers := by decide
  have apart : NoCollision fourNodes 1 {y | y ∈ getNodesConfig threeLines} := by
    rw [hlines]
    exact noCollision_servers
  obtain ⟨reports, starts⟩ := auto_start Nat.one_pos threeLines apart 0
  obtain ⟨w', admin', hrun, marked, agreed⟩ := starts calmEnv calmEnv_reliable
  have hB : "B" ∈ getNodesConfig threeLines := by
    rw [hlines]
    decide
  have same : ∀ y, y ∈ ["C", "A", "B"] ↔ y ∈ getNodesConfig threeLines := by
    intro y
    rw [hlines]
    simp only [servers, List.mem_cons]
    tauto
  refine ⟨w', admin', hrun, ?_, agreed ["C", "A", "B"] (by decide) same "B" (by decide)⟩
  exact (reports calmEnv w' admin' true hrun).1 "B" ((marked "B").mpr hB)

end Samples

end ClusterStart
