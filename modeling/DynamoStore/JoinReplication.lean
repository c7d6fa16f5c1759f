import DynamoStore.JoinTransfers

/-!
# When joining preserves replication

A node that joins gets a key only from members that the join displaces from the
replicas of the key, or that stored it without being a replica. On a ring with less
than `REPLICA_N` nodes nobody is displaced. On larger rings the new replica ends up
with the common entry, in every order of the members, exactly if that entry
prevails over all others that it is offered.
-/

namespace JoinReplication

open RpcPrograms GossipNode StateMachine ArrivalOrders
open RingOwners ClusterStores HandlerRuns ReplicaSets KeyTransfers JoinTransfers

/-- A reliable environment in which the members in `target` are told in that order. -/
def tellingEnv (target : List String) : Env String Int64 where
  now _ := 0
  order _ l := if l.Perm target then target else l
  perm _ l := by
    split
    · rename_i h
      exact h.symm
    · exact List.Perm.refl l
  fate _ _ := .delivered

variable {hash : String → UInt64} {r : ConsistentHashingRing} {members : Set String} {x : String}
variable {state : String → GossipNode} {aliveServers : List String} {key : String} {d : Data}

/-- The members, in the order in which a joining node tells them. -/
abbrev tellOrder (hash : String → UInt64) (env : Env String Int64) (x : String)
    (aliveServers : List String) (w : Net) : List String :=
  told env x (enter hash env x aliveServers w)

theorem tellOrder_tellingEnv {target : List String} (nodup : target.Nodup) (fresh : x ∉ target)
    (all : ∀ n, n ∈ aliveServers ↔ n ∈ target) (w : Net) :
    tellOrder hash (tellingEnv target) x aliveServers w = target := by
  refine if_pos ((List.perm_ext_iff_of_nodup (AList.keys_nodup _) nodup).mpr fun n => ?_)
  rw [← AList.mem_keys, mem_enter_stubs, all]
  exact ⟨fun h => h.1, fun h => ⟨h, fun heq => fresh (heq ▸ h)⟩⟩

/-- What a member sends to the joining node. -/
def sent (hash : String → UInt64) (r : ConsistentHashingRing) (x : String)
    (state : String → GossipNode) (key m : String) : Option Data :=
  if m ∈ replicas hash (r.addNode hash x) key then none else stored state m key

theorem sent_eq_some {m : String} {e : Data} : sent hash r x state key m = some e ↔
    m ∉ replicas hash (r.addNode hash x) key ∧ stored state m key = some e := by
  by_cases h : m ∈ replicas hash (r.addNode hash x) key
  · simp [sent, h]
  · simp [sent, h]

section Run

variable (shared : ∀ n ∈ members, (state n).ring = r) (fresh : x ∉ members)
variable (all : ∀ n, n ∈ aliveServers ↔ n ∈ members) (empty : ∀ key, stored state x key = none)

include shared fresh all empty

theorem join_run (key : String) {env : Env String Int64} (reliable : env.Reliable) (tick : Nat) :
    ∃ w', serveOn hash env 3 x (.adminCmd "JoinNetwork" aliveServers) ⟨state, tick⟩ =
        some (w', .adminCmd true) ∧
      stored w'.state x key = ((tellOrder hash env x aliveServers ⟨state, tick⟩).filterMap
        (sent hash r x state key)).foldl (settle TakenOver) none ∧
      ∀ n ∈ members, n ∈ replicas hash (r.addNode hash x) key →
        stored w'.state n key = stored state n key := by
  obtain ⟨w₁, hrun, hjoined⟩ := adminJoin_run hash 0 ⟨state, tick⟩ reliable x aliveServers
  have hdone : stored (act hash w₁ x (.setAlive true)).state = stored w₁.state :=
    stored_of_keepsStore _ x (a := .setAlive true) trivial
  have hentered : ∀ n key, stored (enter hash env x aliveServers ⟨state, tick⟩).state n key =
      stored state n key := by
    intro n key
    rw [stored, stored, enter_stateMachine]
  have hring : ∀ n ∈ members,
      ((enter hash env x aliveServers ⟨state, tick⟩).state n).ring = r := by
    intro n hn
    have hnx : n ≠ x := fun h => fresh (h ▸ hn)
    rw [enter_of_ne aliveServers hnx]
    exact shared n hn
  refine ⟨_, hrun, ?_, fun n hn hmem => ?_⟩
  · rw [hdone, hjoined.arrived key, hentered, empty]
    congr 1
    refine List.filterMap_congr fun n hn => ?_
    have hmember : n ∈ members := (all n).mp ((mem_enter_stubs _).mp (mem_told.mp hn)).1
    rw [offered, sent, hentered, hring n hmember]
  · rw [hdone, hjoined.kept n key (fun h => fresh (h ▸ hn)), hentered]
    intro _
    rw [hring n hn]
    exact hmem

end Run

theorem mem_tellOrder {env : Env String Int64} {w : Net} {n : String}
    (fresh : x ∉ members) (all : ∀ n, n ∈ aliveServers ↔ n ∈ members) :
    n ∈ tellOrder hash env x aliveServers w ↔ n ∈ members := by
  rw [mem_told, mem_enter_stubs, all]
  exact ⟨fun h => h.1, fun h => ⟨h, fun heq => fresh (heq ▸ h)⟩⟩

/-- A node with an empty store joins while no message is lost. In every order of
the members the replicas on the larger ring hold the common entry of the old
replicas, if and only if the new node is not one of them, or there are enough
members and the entry prevails over what members outside of the replicas store. -/
theorem join_replicates_iff (ring : RingOf hash members r)
    (apart : NoCollision hash r.numVirtualNodes (insert x members)) (fresh : x ∉ members)
    (shared : ∀ n ∈ members, (state n).ring = r)
    (all : ∀ n, n ∈ aliveServers ↔ n ∈ members) (empty : ∀ key, stored state x key = none)
    (replicated : Replicated hash r state key d) :
    (∀ env : Env String Int64, env.Reliable → ∀ tick, ∃ w',
      serveOn hash env 3 x (.adminCmd "JoinNetwork" aliveServers) ⟨state, tick⟩ =
        some (w', .adminCmd true) ∧ Replicated hash (r.addNode hash x) w'.state key d) ↔
    (x ∈ replicas hash (r.addNode hash x) key →
      replicaN ≤ (owners hash r key).length ∧
        ∀ m ∈ members, m ∉ replicas hash (r.addNode hash x) key →
          ∀ e, stored state m key = some e →
            e = d ∨ (checkConflictVersion d.2 e.2 = 1 ∧ checkConflictVersion e.2 d.2 ≠ 1)) := by
  have every := every_order_iff (d := d) takenOver_none
    (tellOrder hash calmEnv x aliveServers ⟨state, 0⟩) (sent hash r x state key)
  constructor
  · intro h hx
    have outcome : ∀ l : List String, l.Perm (tellOrder hash calmEnv x aliveServers ⟨state, 0⟩) →
        (l.filterMap (sent hash r x state key)).foldl (settle TakenOver) none = some d := by
      intro l hl
      have hmem : ∀ n, n ∈ l ↔ n ∈ members := fun n => hl.mem_iff.trans (mem_tellOrder fresh all)
      obtain ⟨w', hrun, hreplicated⟩ := h (tellingEnv l) (fun _ _ => rfl) 0
      have reliable : (tellingEnv l).Reliable := fun _ _ => rfl
      obtain ⟨w'', hrun', harrived, _⟩ := join_run shared fresh all empty key reliable 0
      cases hrun.symm.trans hrun'
      rw [tellOrder_tellingEnv (hl.nodup_iff.mpr nodup_told) (fun hxl => fresh ((hmem x).mp hxl))
        (fun n => (all n).trans (hmem n).symm)] at harrived
      exact harrived.symm.trans (hreplicated x hx)
    obtain ⟨⟨m, hm, hsent⟩, hprevails⟩ := every.mp outcome
    refine ⟨?_, fun m hm hnot e he => ?_⟩
    · obtain ⟨hnot, _⟩ := sent_eq_some.mp hsent
      obtain ⟨p, hp⟩ := mem_owners.mp (List.mem_of_mem_take hx)
      obtain ⟨_, i, hi, _⟩ := (ringOf_addNode ring apart p x).mp hp
      have hpos : 0 < r.numVirtualNodes := Nat.lt_of_le_of_lt (Nat.zero_le i) hi
      exact enough_of_displaced ring apart fresh
        ((ring.mem_owners hpos).mpr ((mem_tellOrder fresh all).mp hm)) hnot
    · exact hprevails m ((mem_tellOrder fresh all).mpr hm) e (sent_eq_some.mpr ⟨hnot, he⟩)
  · intro h env reliable tick
    obtain ⟨w', hrun, harrived, hkept⟩ := join_run shared fresh all empty key reliable tick
    refine ⟨w', hrun, fun n hn => ?_⟩
    by_cases hnx : n = x
    · subst hnx
      obtain ⟨enough, hprevails⟩ := h hn
      rw [harrived]
      obtain ⟨m, hm, hnot⟩ := exists_displaced ring apart fresh hn enough
      have hmember : m ∈ members := RingOf.mem_of_mem_replicas ring hm
      refine foldl_settle_eq takenOver_none _ none (fun e he => by cases he) ?_ (Or.inl ?_)
      · intro e he
        obtain ⟨m', hm', hsent⟩ := List.mem_filterMap.mp he
        obtain ⟨hnot', hstored⟩ := sent_eq_some.mp hsent
        exact hprevails m' ((mem_tellOrder fresh all).mp hm') hnot' e hstored
      · have hsent := sent_eq_some.mpr ⟨hnot, replicated m hm⟩
        exact List.mem_filterMap.mpr ⟨m, (mem_tellOrder fresh all).mpr hmember, hsent⟩
    · have hold : n ∈ replicas hash r key := mem_replicas_of_addNode ring apart fresh hnx hn
      rw [hkept n (RingOf.mem_of_mem_replicas ring hold) hn]
      exact replicated n hold

section Samples

/-- Node A joins three nodes and displaces node D, which sends it the key. -/
theorem join_replicates_sample : ∃ w',
    serveOn fourNodes calmEnv 3 "A" (.adminCmd "JoinNetwork" ["B", "C", "D"])
        ⟨holding fourNodes ["B", "C", "D"] ["B", "C", "D"] "k" ("v", [("B", 1)]), 0⟩ =
      some (w', .adminCmd true) ∧
    Replicated fourNodes ((ringWith fourNodes ["B", "C", "D"]).addNode fourNodes "A")
      w'.state "k" ("v", [("B", 1)]) := by
  have apart : NoCollision fourNodes 1 {n | n ∈ ["B", "C", "D"]} :=
    noCollision_fourNodes.subset fun n hn => List.mem_cons_of_mem _ hn
  refine (join_replicates_iff (ringOf_ringWith _ apart)
    ?_ (by simp) (fun n hn => if_pos hn) (fun n => Iff.rfl) ?_ (by decide +kernel)).mpr ?_
    calmEnv calmEnv_reliable 0
  · rw [numVirtualNodes_ringWith]
    exact noCollision_fourNodes.subset fun n hn => List.mem_cons.mpr hn
  · intro key
    rw [stored_holding]
    simp
  · refine fun _ => ⟨by decide +kernel, fun m _ _ e he => Or.inl ?_⟩
    rw [stored_holding] at he
    split at he
    · exact (Option.some.inj he).symm
    · cases he

/-- Node B joins node A, which stays a replica: nobody sends the key to node B. -/
theorem join_leaves_replica_empty :
    Replicated twoNodes (ringWith twoNodes ["A"])
      (holding twoNodes ["A"] ["A"] "k" ("v", [("A", 1)])) "k" ("v", [("A", 1)]) ∧
    ∃ w', serveOn twoNodes calmEnv 3 "B" (.adminCmd "JoinNetwork" ["A"])
        ⟨holding twoNodes ["A"] ["A"] "k" ("v", [("A", 1)]), 0⟩ = some (w', .adminCmd true) ∧
      "B" ∈ replicas twoNodes ((ringWith twoNodes ["A"]).addNode twoNodes "B") "k" ∧
      ¬ Replicated twoNodes ((ringWith twoNodes ["A"]).addNode twoNodes "B") w'.state "k"
        ("v", [("A", 1)]) := by
  obtain ⟨hbefore, ⟨w', reply⟩, hrun, hreply, hreplica, hafter⟩ :
      Replicated twoNodes (ringWith twoNodes ["A"])
        (holding twoNodes ["A"] ["A"] "k" ("v", [("A", 1)])) "k" ("v", [("A", 1)]) ∧
      ∃ y ∈ serveOn twoNodes calmEnv 3 "B" (.adminCmd "JoinNetwork" ["A"])
        ⟨holding twoNodes ["A"] ["A"] "k" ("v", [("A", 1)]), 0⟩, y.2 = .adminCmd true ∧
        "B" ∈ replicas twoNodes ((ringWith twoNodes ["A"]).addNode twoNodes "B") "k" ∧
        ¬ Replicated twoNodes ((ringWith twoNodes ["A"]).addNode twoNodes "B") y.1.state "k"
          ("v", [("A", 1)]) := by
    decide +kernel
  cases hreply
  exact ⟨hbefore, w', hrun, hreplica, hafter⟩

end Samples

end JoinReplication
