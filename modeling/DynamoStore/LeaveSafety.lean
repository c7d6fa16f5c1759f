import DynamoStore.LeaveTransfers
import DynamoStore.ReachableStates

/-!
# What a leaving node leaves behind

A leaving node offers a key to the peers that become owners of it, and to no one
else; it keeps what nobody takes. So an entry that it stored is afterwards on some
other node if one had it before, or if a peer became an owner and took it. In all
other cases the node that left has the only copy.
-/

namespace LeaveSafety

open RpcPrograms RpcInterleaving GossipNode StateMachine VectorClocks
open ClusterStores HandlerRuns ReachableStates KeyTransfers LeaveTransfers

variable {hash : String → UInt64}

/-- A node other than `x` stores the entry, or a causally newer one. -/
def HeldElsewhere (x : String) (state : String → GossipNode) (key : String) (d : Data) : Prop :=
  ∃ n e, n ≠ x ∧ stored state n key = some e ∧ Covers d e

/-- Some peer of node `x` becomes an owner when `x` leaves, and takes the entry. -/
def Successor (hash : String → UInt64) (x : String) (state : String → GossipNode) (key : String)
    (d : Data) : Prop :=
  ∃ p ∈ (state x).stubs,
    Gains hash (state x).ring ((state x).ring.removeNode hash x) p key ∧
      Takes (stored state) p key d

/-- A node of a reachable cluster leaves while no message is lost. What it stored
is afterwards on another node exactly if another node had it or a successor took
it; otherwise the node still stores it. -/
theorem leave_hands_over_or_keeps (numVirtualNodes : String → Nat)
    {c : Config String GossipNode Action Request Reply Int64}
    (reachable : Reach (apply hash) (serve hash) (WellFormed Set.univ) (fun _ _ _ _ => True)
      (.start fun n => GossipNode.new (numVirtualNodes n)) c)
    {env : Env String Int64} (reliable : env.Reliable) (tick : Nat) (x : String) :
    ∃ w', exec hash env 1 x (leaveNetwork hash x) ⟨c.shared.state, tick⟩ = some (w', ()) ∧
      ∀ key d, stored c.shared.state x key = some d →
        (HeldElsewhere x w'.state key d ↔
          HeldElsewhere x c.shared.state key d ∨ Successor hash x c.shared.state key d) ∧
        (¬ HeldElsewhere x w'.state key d → stored w'.state x key = some d) := by
  have tidy := tidy_of_reach (tidy_new numVirtualNodes) reachable
  obtain ⟨w', dest, hrun, hstored, hmoves, _⟩ := leaveNetwork_run hash
    ⟨c.shared.state, tick⟩ 0 reliable x (tidy.no_own_stub x)
  refine ⟨w', hrun, fun key d hd => ?_⟩
  have apart : ∀ p, dest key = some p → p ≠ x := fun p hp hpx =>
    tidy.no_own_stub x (hpx ▸ (hmoves.offered key p hp).1)
  have moved : ∀ p, dest key = some p → HeldElsewhere x w'.state key d := by
    intro p hp
    refine ⟨p, d, apart p hp, ?_, Covers.refl d⟩
    rw [hstored, relocate_dest hp (apart p hp)]
    exact hd
  have same : dest key = none → ∀ n, stored w'.state n key = stored c.shared.state n key := by
    intro hnone n
    rw [hstored, relocate_of_none hnone]
  refine ⟨⟨fun held => ?_, fun held => ?_⟩, fun lost => ?_⟩
  · cases hdest : dest key with
    | none =>
      obtain ⟨n, e, hn, he, hcovers⟩ := held
      rw [same hdest n] at he
      exact Or.inl ⟨n, e, hn, he, hcovers⟩
    | some p =>
      obtain ⟨hstub, hgains⟩ := hmoves.offered key p hdest
      obtain ⟨d', hd', htakes⟩ := hmoves.takes key p hdest
      cases hd.symm.trans hd'
      exact Or.inr ⟨p, hstub, hgains, htakes⟩
  · cases hdest : dest key with
    | some p => exact moved p hdest
    | none =>
      rcases held with ⟨n, e, hn, he, hcovers⟩ | ⟨p, hstub, hgains, htakes⟩
      · refine ⟨n, e, hn, ?_, hcovers⟩
        rw [same hdest n]
        exact he
      · have := hmoves.all key p d ⟨hstub, hgains⟩ hd htakes
        simp [hdest] at this
  · cases hdest : dest key with
    | some p => exact absurd (moved p hdest) lost
    | none =>
      rw [same hdest x]
      exact hd

section Samples

/-- Node A is alone when it stores `k`, and then B, C and D join. -/
def growingAround : List (String × Request) :=
  [("A", .adminCmd "JoinNetwork" []), ("A", .clientPut "k" ("v1", [])),
    ("B", .adminCmd "JoinNetwork" ["A"]), ("C", .adminCmd "JoinNetwork" ["A", "B"]),
    ("D", .adminCmd "JoinNetwork" ["A", "B", "C"])]

/-- When A leaves, D becomes an owner of `k` beside B and C, and takes what only A has. -/
theorem leave_hands_over_or_keeps_sample :
    ∃ c : Config String GossipNode Action Request Reply Int64,
      (∀ n ∈ ["A", "B", "C", "D"], stored c.shared.state n "k" =
        if n = "A" then some ("v1", [("A", 1)]) else none) ∧
      ∃ w', exec fourNodes calmEnv 1 "A" (leaveNetwork fourNodes "A") ⟨c.shared.state, 0⟩ =
          some (w', ()) ∧
        stored w'.state "A" "k" = none ∧ stored w'.state "D" "k" = some ("v1", [("A", 1)]) ∧
        (HeldElsewhere "A" w'.state "k" ("v1", [("A", 1)]) ↔
          HeldElsewhere "A" c.shared.state "k" ("v1", [("A", 1)]) ∨
            Successor fourNodes "A" c.shared.state "k" ("v1", [("A", 1)])) ∧
        (¬ HeldElsewhere "A" w'.state "k" ("v1", [("A", 1)]) →
          stored w'.state "A" "k" = some ("v1", [("A", 1)])) := by
  obtain ⟨⟨w, finished⟩, hsession, hbefore, ⟨w', _⟩, hrun, hA, hD⟩ :
      ∃ x ∈ session (apply fourNodes) (serve fourNodes) (fun _ _ _ _ => True) calmEnv 4
        growingAround ⟨fun _ => GossipNode.new 1, 0⟩,
        (∀ n ∈ ["A", "B", "C", "D"], stored x.1.state n "k" =
          if n = "A" then some ("v1", [("A", 1)]) else none) ∧
        ∃ y ∈ exec fourNodes calmEnv 1 "A" (leaveNetwork fourNodes "A") ⟨x.1.state, 0⟩,
          stored y.1.state "A" "k" = none ∧ stored y.1.state "D" "k" = some ("v1", [("A", 1)]) := by
    decide +kernel
  have hreach := reach_of_session (WellFormed Set.univ) calmEnv_reliable 4 _
    (by simp [growingAround, WellFormed, Distinct]) [] [] hsession
  obtain ⟨w'', hrun', hafter⟩ :=
    leave_hands_over_or_keeps (fun _ => 1) hreach calmEnv_reliable 0 "A"
  cases hrun.symm.trans hrun'
  exact ⟨_, hbefore, w', hrun, hA, hD, hafter _ _ (hbefore "A" (by simp))⟩

/-- A network of four nodes with a key whose replicas are A, B and C, and two puts
with an empty context: the second one, which the replicas reject, is kept by D. -/
def spilledPut : List (String × Request) :=
  [("A", .adminCmd "JoinNetwork" []), ("B", .adminCmd "JoinNetwork" ["A"]),
    ("C", .adminCmd "JoinNetwork" ["A", "B"]), ("D", .adminCmd "JoinNetwork" ["A", "B", "C"]),
    ("A", .clientPut "k" ("v1", [])), ("D", .clientPut "k" ("v2", []))]

theorem wellFormed_spilledPut {S : Set String} (hS : ∀ n ∈ ["A", "B", "C", "D"], n ∈ S) :
    ∀ y ∈ spilledPut, WellFormed S y.1 y.2 := by
  simp only [List.mem_cons, List.not_mem_nil, or_false, forall_eq_or_imp, forall_eq] at hS
  simp [spilledPut, WellFormed, Distinct, hS]

/-- Node D leaves, and nobody is offered the entry that only D stores. -/
theorem leave_strands_an_entry :
    ∃ c : Config String GossipNode Action Request Reply Int64,
      Reach (apply fourNodes) (serve fourNodes) (WellFormed Set.univ) (fun _ _ _ _ => True)
        (.start fun _ => GossipNode.new 1) c ∧
      stored c.shared.state "D" "k" = some ("v2", [("D", 1)]) ∧
      ∃ w', exec fourNodes calmEnv 1 "D" (leaveNetwork fourNodes "D") ⟨c.shared.state, 0⟩ =
          some (w', ()) ∧ ¬ HeldElsewhere "D" w'.state "k" ("v2", [("D", 1)]) := by
  obtain ⟨⟨w, finished⟩, hsession, hD, ⟨w', _⟩, hrun, hothers⟩ :
      ∃ x ∈ session (apply fourNodes) (serve fourNodes) (fun _ _ _ _ => True) calmEnv 4
        spilledPut ⟨fun _ => GossipNode.new 1, 0⟩,
        stored x.1.state "D" "k" = some ("v2", [("D", 1)]) ∧
        ∃ y ∈ exec fourNodes calmEnv 1 "D" (leaveNetwork fourNodes "D") ⟨x.1.state, 0⟩,
          ∀ n ∈ ["A", "B", "C"], stored y.1.state n "k" = some ("v1", [("A", 1)]) := by
    decide +kernel
  have hreach := reach_of_session (WellFormed {n | n ∈ ["A", "B", "C", "D"]}) calmEnv_reliable 4 _
    (wellFormed_spilledPut fun _ hn => hn) [] [] hsession
  refine ⟨_, reach_of_session _ calmEnv_reliable 4 _ (wellFormed_spilledPut fun _ _ =>
    Set.mem_univ _) [] [] hsession, hD, w', hrun, ?_⟩
  have tidy := tidy_of_reach (tidy_new fun _ => 1) hreach
  obtain ⟨w'', dest, hrun', hstored, hmoves, _⟩ := leaveNetwork_run fourNodes
    ⟨w.state, 0⟩ 0 calmEnv_reliable "D" (tidy.no_own_stub "D")
  cases hrun.symm.trans hrun'
  rintro ⟨n, e, hn, he, hcovers⟩
  by_cases hmem : n ∈ ["A", "B", "C", "D"]
  · have hother : n ∈ ["A", "B", "C"] := by
      simp only [List.mem_cons, List.not_mem_nil, or_false] at hmem ⊢
      tauto
    rw [hothers n hother] at he
    cases he
    exact absurd hcovers (by decide)
  · have outside : stored w.state n "k" = none := by
      have same : w.state n = GossipNode.new 1 :=
        outside_unchanged (tidy_new fun _ => 1) hreach hmem
      rw [stored, same]
      rfl
    cases hdest : dest "k" with
    | none =>
      rw [hstored, relocate_of_none hdest, outside] at he
      cases he
    | some p =>
      have hp : p ∈ ["A", "B", "C", "D"] :=
        tidy.closed "D" (by simp) p (hmoves.offered "k" p hdest).1
      have hpn : n ≠ p := fun h => hmem (h ▸ hp)
      rw [hstored] at he
      simp [relocate, hdest, hn, hpn, outside] at he

end Samples

end LeaveSafety
