import DynamoStore.QuorumRuns
import DynamoStore.ReadFilter
import DynamoStore.Lib.RpcInterleaving

/-!
# Reading, reconciling and writing back

A client merges the clocks that a get returns and puts the result through the
coordinator that the get names. The stamp is later than every clock that was
returned, but the get does not return what its filter drops: a server whose clock
was dropped takes the put only if the stamp is later than that clock too.
-/

namespace ReconciledWrites

open RpcPrograms RpcInterleaving GossipNode StateMachine
open RingOwners ClusterStores HandlerRuns KeyTransfers QuorumRuns ReadFilter

/-- The coordinator that a get names is one of the servers it reads. -/
theorem coordinator_mem_contacted {alive : String → Bool} {self : String}
    (hself : alive self = true) (recent : Bool) {servers : List String} (nodup : servers.Nodup)
    (enough : rCount ≤ (contacted alive servers 0).length) :
    (servers.find? fun m => if m = self then recent else alive m).getD "" ∈
      contacted alive servers 0 := by
  have hfilter : (servers.find? fun m => if m = self then recent else alive m) =
      (servers.filter alive).find? fun m => if m = self then recent else alive m := by
    rw [List.find?_filter]
    congr 1
    funext m
    by_cases hm : m = self
    · simp [hm, hself]
    · simp [hm]
  have hall : ∀ m ∈ servers.filter alive, alive m = true := fun m hm => (List.mem_filter.mp hm).2
  have nodup' := nodup.filter alive
  rw [hfilter]
  unfold contacted at enough ⊢
  generalize servers.filter alive = l at enough hall nodup'
  cases l with
  | nil => exact absurd enough (by simp [rCount])
  | cons a l =>
    cases l with
    | nil => exact absurd enough (by simp [rCount, replicaN])
    | cons b l =>
      rw [List.forall_mem_cons, List.forall_mem_cons] at hall
      have hab : a ≠ b := fun h => (List.nodup_cons.mp nodup').1 (h ▸ List.mem_cons_self)
      by_cases ha : (if a = self then recent else alive a) = true
      · rw [List.find?_cons_of_pos (p := fun m => if m = self then recent else alive m) ha]
        simp [replicaN]
      · -- only the node itself is missed, so the next server is found
        have haself : a = self := by
          by_contra hne
          rw [if_neg hne] at ha
          exact ha hall.1
        have hb : (if b = self then recent else alive b) = true := by
          rw [if_neg fun h => hab (haself.trans h.symm)]
          exact hall.2.1
        rw [List.find?_cons_of_neg (p := fun m => if m = self then recent else alive m) ha,
          List.find?_cons_of_pos (p := fun m => if m = self then recent else alive m) hb]
        simp [replicaN]

/-- The stamp of the reconciled put through coordinator `p`. -/
def mergedStamp (order : List String → List String) (state : String → GossipNode) (key p : String)
    (servers : List String) : Version :=
  updateVersion (reconcileVersion order (getLatestData (servers.map (reads state key)))) p

/-- All servers end with the entry exactly if each of them is the coordinator, or accepts
the entry, or has had it before. -/
theorem all_stored_iff {servers : List String} {state state' : String → GossipNode}
    {key p : String} {d : Data}
    (landed : ∀ m ∈ servers, stored state' m key =
      if m = p ∨ TakenOver d (stored state m key) then some d else stored state m key) :
    (∀ m ∈ servers, stored state' m key = some d) ↔
      ∀ m ∈ servers, m = p ∨ checkConflictVersion d.2 (versionOf (stored state m key)) = 1 ∨
        stored state m key = some d := by
  refine forall₂_congr fun m hm => ?_
  rw [landed m hm]
  constructor
  · intro hall
    split at hall
    · rename_i h
      exact h.imp_right Or.inl
    · exact Or.inr (Or.inr hall)
  · rintro (h | h | h)
    · exact if_pos (Or.inl h)
    · exact if_pos (Or.inr h)
    · rw [h, ite_self]

/-- A get, the put of a value with the merged clocks through the coordinator that the
get names, and another get: all are answered. The servers of the quorum all store the
put, and the second get returns only the put, if and only if every server of the
quorum is the coordinator, takes the stamp over its entry, or has stored the put before. -/
theorem reconciled_write_converges_iff {hash : String → UInt64} {env : Env String Int64}
    (reliable : env.Reliable) {alive : String → Bool} {members : Set String}
    {r : ConsistentHashingRing} {w : Net} (agree : Agree env alive members r w.state)
    {key : String} (inside : ∀ m ∈ candidates hash r key, alive m = true → m ∈ members)
    (reaches : ∀ n ∈ members, Reaches alive (candidates hash r key) n w.state)
    (enough : rCount ≤ (quorum hash r alive key).length) {g g' : String} (hg : g ∈ members)
    (hg' : g' ∈ members) (value : String) (order : List String → List String) :
    ∃ w₁ w₂ w₃ p ret coordinator reply,
      serveOn hash env 2 g (.clientGet key) w = some (w₁,
        .clientGet (getLatestData ((quorum hash r alive key).map (reads w.state key))) p) ∧
      serveOn hash env 2 p (.clientPut key (value, reconcileVersion order
        (getLatestData ((quorum hash r alive key).map (reads w.state key))))) w₁ =
          some (w₂, .clientPut ret coordinator) ∧
      serveOn hash env 2 g' (.clientGet key) w₂ = some (w₃, reply) ∧
      (((∀ m ∈ quorum hash r alive key, stored w₂.state m key =
          some (value, mergedStamp order w.state key p (quorum hash r alive key))) ∧
        ∃ coordinator', reply = .clientGet
          [(value, mergedStamp order w.state key p (quorum hash r alive key))] coordinator') ↔
      ∀ m ∈ quorum hash r alive key, m = p ∨
        checkConflictVersion (mergedStamp order w.state key p (quorum hash r alive key))
          (versionOf (stored w.state m key)) = 1 ∨
        stored w.state m key =
          some (value, mergedStamp order w.state key p (quorum hash r alive key))) := by
  obtain ⟨ring, sees⟩ := agree g hg
  obtain ⟨w₁, recent, hget, view₁, same₁⟩ :=
    clientGet_answered hash 0 key reliable sees ring (reaches g hg) enough
  have hp := coordinator_mem_contacted sees.1 recent
    (nodup_getReplicasNodes (2 * replicaN : Nat)) enough
  generalize ((candidates hash r key).find? fun m => if m = g then recent else alive m).getD "" =
    p at hget hp
  obtain ⟨hpc, hpalive⟩ := List.mem_filter.mp (List.mem_of_mem_take hp)
  have hpm : p ∈ members := inside p hpc hpalive
  obtain ⟨ring', sees'⟩ := view₁.agree agree p hpm
  have fates : ∀ i dst, env.fate i dst = (fun _ => Fate.delivered) dst := reliable
  obtain ⟨w₂, ret, coordinator, hput, view₂, hlanded⟩ :=
    clientPut_answered hash 0 key fates sees' ring' hpc (view₁.reaches (reaches p hpm)) value
      (reconcileVersion order (getLatestData ((quorum hash r alive key).map (reads w.state key))))
  have view : SameView w.state w₂.state := view₁.trans view₂
  obtain ⟨ring'', sees''⟩ := view.agree agree g' hg'
  obtain ⟨w₃, recent', hnext, _, _⟩ :=
    clientGet_answered hash 0 key reliable sees'' ring'' (view.reaches (reaches g' hg')) enough
  refine ⟨w₁, w₂, w₃, p, ret, coordinator, _, hget, hput, hnext, ?_⟩
  have hstored : ∀ m ∈ quorum hash r alive key, stored w₂.state m key =
      if m = p ∨ TakenOver (value, mergedStamp order w.state key p (quorum hash r alive key))
        (stored w.state m key)
      then some (value, mergedStamp order w.state key p (quorum hash r alive key))
      else stored w.state m key := by
    intro m hm
    rw [hlanded m hm, landing, same₁]
    simp only [ne_eq, reduceCtorEq, not_false_eq_true, true_and]
    rfl
  rw [← all_stored_iff hstored]
  constructor
  · exact fun h => h.1
  · intro hall
    refine ⟨hall, _, congrArg (Reply.clientGet · _) (getLatestData_of_all_eq ?_ ?_)⟩
    · exact List.ne_nil_of_mem (List.mem_map_of_mem hp)
    · intro e he
      obtain ⟨m, hm, rfl⟩ := List.mem_map.mp he
      rw [reads, hall m hm]
      rfl

section Samples

theorem candidates_threeNodes :
    candidates fourNodes (ringWith fourNodes ["A", "B", "C"]) "k" = ["A", "B", "C"] := by
  decide +kernel

/-- Two clients have put at the same time: node A has one of the values, B the other one. -/
def siblings (n : String) : GossipNode :=
  { cluster fourNodes ["A", "B", "C"] n with
    stateMachine :=
      if n = "A" then StateMachine.empty.put "k" "v" [("A", 1)]
      else if n = "B" then StateMachine.empty.put "k" "w" [("B", 1)]
      else .empty }

theorem sameView_siblings :
    SameView (holding fourNodes ["A", "B", "C"] [] "k" ("w", [])) siblings :=
  ⟨fun _ => rfl, fun _ => rfl, fun _ _ => rfl⟩

/-- A get through node C returns both values, and the put of a third one replaces them. -/
theorem reconciled_write_converges_sample :
    ∃ (w₁ w₂ w₃ : Net) (ret : PutReturn) (coordinator coordinator' : String),
      serveOn fourNodes calmEnv 2 "C" (.clientGet "k") ⟨siblings, 0⟩ =
          some (w₁, .clientGet [("v", [("A", 1)]), ("w", [("B", 1)])] "A") ∧
      serveOn fourNodes calmEnv 2 "A" (.clientPut "k" ("u", [("B", 1), ("A", 1)])) w₁ =
        some (w₂, .clientPut ret coordinator) ∧
      serveOn fourNodes calmEnv 2 "B" (.clientGet "k") w₂ =
        some (w₃, .clientGet [("u", [("B", 1), ("A", 2)])] coordinator') := by
  have inside : ∀ m ∈ candidates fourNodes (ringWith fourNodes ["A", "B", "C"]) "k",
      m ∈ ["A", "B", "C"] := by
    rw [candidates_threeNodes]
    exact fun m hm => hm
  obtain ⟨w₁, w₂, w₃, p, ret, coordinator, reply, hget, hput, hnext, hiff⟩ :=
    reconciled_write_converges_iff (w := ⟨siblings, 0⟩) calmEnv_reliable
      (sameView_siblings.agree (agree_holding _ _ _ _)) (fun m hm _ => inside m hm)
      (fun n hn => sameView_siblings.reaches (reaches_holding inside hn)) (by decide +kernel)
      (show "C" ∈ {n | n ∈ ["A", "B", "C"]} by simp) (show "B" ∈ {n | n ∈ ["A", "B", "C"]} by simp)
      "u" id
  have hlatest : getLatestData ((quorum fourNodes (ringWith fourNodes ["A", "B", "C"])
      (fun _ => true) "k").map (reads siblings "k")) =
      [("v", [("A", 1)]), ("w", [("B", 1)])] := by
    decide +kernel
  have hmerged : reconcileVersion id [("v", [("A", 1)]), ("w", [("B", 1)])] =
      [("B", 1), ("A", 1)] := by
    decide +kernel
  rw [mergedStamp, hlatest, hmerged] at hiff
  rw [hlatest] at hget hput
  rw [hmerged] at hput
  obtain rfl : p = "A" := by
    have named : ∀ y ∈ serveOn fourNodes calmEnv 2 "C" (.clientGet "k") ⟨siblings, 0⟩,
        y.2 = .clientGet [("v", [("A", 1)]), ("w", [("B", 1)])] "A" := by
      decide +kernel
    have hreply := named _ hget
    simp only [Reply.clientGet.injEq] at hreply
    exact hreply.2
  have takes : ∀ m ∈ quorum fourNodes (ringWith fourNodes ["A", "B", "C"]) (fun _ => true) "k",
      checkConflictVersion (updateVersion [("B", 1), ("A", 1)] "A")
        (versionOf (stored siblings m "k")) = 1 := by
    decide +kernel
  obtain ⟨_, coordinator', rfl⟩ := hiff.mpr fun m hm => Or.inr (Or.inl (takes m hm))
  exact ⟨w₁, w₂, w₃, ret, coordinator, coordinator', hget, hput, hnext⟩

set_option synthInstance.maxSize 1000 in
/-- Node C has stored A:1, C:1, which is concurrent with A:2 on the other nodes. The
get drops it, the stamp becomes A:3, and node C rejects that. -/
theorem reconciled_write_rejected :
    ∃ (w w₁ w₂ : Net) (replies : List (String × Request × Reply)) (ret : PutReturn),
      session (apply fourNodes) (serve fourNodes) (fun _ _ _ _ => True) calmEnv 2
        [("A", .clientPut "k" ("v1", [])), ("A", .clientPut "k" ("v2", [("A", 1)])),
          ("C", .clientPut "k" ("w", [("A", 1)]))]
        ⟨holding fourNodes ["A", "B", "C"] [] "k" ("w", []), 0⟩ = some (w, replies) ∧
      Agree calmEnv (fun _ => true) {n | n ∈ ["A", "B", "C"]} (ringWith fourNodes ["A", "B", "C"])
        (holding fourNodes ["A", "B", "C"] [] "k" ("w", [])) ∧
      serveOn fourNodes calmEnv 2 "B" (.clientGet "k") w =
        some (w₁, .clientGet [("v2", [("A", 2)])] "A") ∧
      serveOn fourNodes calmEnv 2 "A"
        (.clientPut "k" ("v3", reconcileVersion id [("v2", [("A", 2)])])) w₁ =
          some (w₂, .clientPut ret "A") ∧
      "C" ∈ quorum fourNodes (ringWith fourNodes ["A", "B", "C"]) (fun _ => true) "k" ∧
      stored w₂.state "C" "k" = some ("w", [("A", 1), ("C", 1)]) := by
  obtain ⟨⟨w, replies⟩, hsession, ⟨w₁, _⟩, hget, rfl, ⟨w₂, _⟩, hput, rfl, hquorum, hC⟩ :
      ∃ x ∈ session (apply fourNodes) (serve fourNodes) (fun _ _ _ _ => True) calmEnv 2
        [("A", .clientPut "k" ("v1", [])), ("A", .clientPut "k" ("v2", [("A", 1)])),
          ("C", .clientPut "k" ("w", [("A", 1)]))]
        ⟨holding fourNodes ["A", "B", "C"] [] "k" ("w", []), 0⟩,
        ∃ y ∈ serveOn fourNodes calmEnv 2 "B" (.clientGet "k") x.1,
          y.2 = .clientGet [("v2", [("A", 2)])] "A" ∧
          ∃ z ∈ serveOn fourNodes calmEnv 2 "A"
            (.clientPut "k" ("v3", reconcileVersion id [("v2", [("A", 2)])])) y.1,
            z.2 = .clientPut .ok "A" ∧
            "C" ∈ quorum fourNodes (ringWith fourNodes ["A", "B", "C"]) (fun _ => true) "k" ∧
            stored z.1.state "C" "k" = some ("w", [("A", 1), ("C", 1)]) := by
    decide +kernel
  exact ⟨w, w₁, w₂, replies, .ok, hsession, agree_holding _ _ _ _, hget, hput, hquorum, hC⟩

end Samples

end ReconciledWrites
