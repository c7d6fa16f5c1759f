import DynamoStore.KeyTransfers
import DynamoStore.Lib.ArrivalOrders
import Mathlib.Order.Preorder.Finite

/-!
# Deliveries to one replica

A replica is sent the writes of one key by `PeerPut`, in any order and any number of
times. What it stores is a slot that the verdict guards. If the clocks of the writes
form a chain, the greatest write wins in every order, and on the way there the stored
clock never goes back.
-/

namespace DeliveryOrders

open RpcPrograms GossipNode StateMachine VectorClocks ConflictVerdict
open ClusterStores HandlerRuns KeyTransfers ArrivalOrders

/-- Serve one `PeerPut` after the other on node `n`. -/
def deliverAll (hash : String → UInt64) (env : Env String Int64) (depth : Nat) (n key : String) :
    List Data → Net → Option Net
  | [], w => some w
  | d :: deliveries, w =>
    (serveOn hash env depth n (.peerPut key d) w).bind fun x =>
      deliverAll hash env depth n key deliveries x.1

section Slot

variable {hash : String → UInt64} {env : Env String Int64} {depth : Nat} {n key : String}

theorem serveOn_peerPut (d : Data) (w : Net) :
    serveOn hash env (depth + 1) n (.peerPut key d) w =
      some (receive hash n key d w, .peerPut (!decide (Accepts (w.state n) key d))) :=
  exec_servePeerPut d

theorem deliverAll_eq (deliveries : List Data) (w : Net) :
    deliverAll hash env (depth + 1) n key deliveries w =
      some (deliveries.foldl (fun w d => receive hash n key d w) w) := by
  induction deliveries generalizing w with
  | nil => rfl
  | cons d deliveries ih =>
    rw [deliverAll, serveOn_peerPut, Option.bind_some, ih, List.foldl_cons]

/-- The entry of the key is a slot, and the verdict decides what it accepts. -/
theorem stored_receive_eq_settle (d : Data) (w : Net) :
    stored (receive hash n key d w).state n key = settle TakenOver (stored w.state n key) d := by
  rw [receive_state, settle]
  by_cases h : Accepts (w.state n) key d
  · rw [if_pos h, if_pos (accepts_iff_takes.mp h), stored_put, if_pos ⟨rfl, rfl⟩]
  · rw [if_neg h, if_neg fun h' => h (accepts_iff_takes.mpr h')]

theorem stored_foldl_receive (deliveries : List Data) (w : Net) :
    stored (deliveries.foldl (fun w d => receive hash n key d w) w).state n key =
      deliveries.foldl (settle TakenOver) (stored w.state n key) := by
  induction deliveries generalizing w with
  | nil => rfl
  | cons d deliveries ih =>
    rw [List.foldl_cons, ih, stored_receive_eq_settle, List.foldl_cons]

end Slot

section Chains

variable {writes : List Data}

/-- A later write replaces an earlier one, and is not replaced by it. -/
theorem prevails_of_strictlyBelow {d e : Data} (hd : Distinct d.2) (he : Distinct e.2)
    (below : StrictlyBelow e.2 d.2) : Prevails TakenOver d e := by
  right
  constructor
  · by_cases hne : e.2 = []
    · change checkConflictVersion d.2 e.2 = 1
      rw [hne, check_existing_nil]
    · exact (check_eq_one_iff hd he hne).mpr below
  · intro htaken
    exact below.2 ((check_eq_one_iff he hd (ne_nil_of_strictlyBelow below)).mp htaken).1

/-- A finite chain of clocks has a greatest one. -/
theorem exists_greatest (hne : writes ≠ [])
    (ordered : writes.Pairwise fun d e => StrictlyBelow d.2 e.2 ∨ StrictlyBelow e.2 d.2) :
    ∃ d ∈ writes, ∀ e ∈ writes, e = d ∨ StrictlyBelow e.2 d.2 := by
  obtain ⟨first, hfirst⟩ := List.exists_mem_of_ne_nil writes hne
  obtain ⟨d, hd, hmax⟩ := Finset.exists_maximalFor (fun d : Data => ofList d.2) writes.toFinset
    ⟨first, List.mem_toFinset.mpr hfirst⟩
  have hmem : d ∈ writes := List.mem_toFinset.mp hd
  have total := List.Pairwise.forall_of_forall_of_flip
    (R := fun d e : Data => e = d ∨ StrictlyBelow d.2 e.2 ∨ StrictlyBelow e.2 d.2)
    (fun _ _ => Or.inl rfl) (ordered.imp Or.inr) (ordered.imp fun h => Or.inr h.symm)
  refine ⟨d, hmem, fun e he => ?_⟩
  rcases total hmem he with rfl | below | below
  · exact Or.inl rfl
  · rw [strictlyBelow_iff_lt] at below
    exact absurd (hmax (List.mem_toFinset.mpr he) below.le) (not_le_of_gt below)
  · exact Or.inr below

/-- An accepted entry keeps the stored clock, if that was empty, or makes it later. -/
theorem versionOf_settle {slot : Option Data} {d : Data} (hd : Distinct d.2)
    (hslot : ∀ e, slot = some e → Distinct e.2) :
    versionOf (settle TakenOver slot d) = versionOf slot ∨
      StrictlyBelow (versionOf slot) (versionOf (settle TakenOver slot d)) := by
  rcases settle_cases TakenOver slot d with ⟨htaken, heq⟩ | ⟨_, heq⟩
  · have hdistinct : Distinct (versionOf slot) := by
      cases slot with
      | none => exact List.nodup_nil
      | some e => exact hslot e rfl
    rw [heq]
    change d.2 = versionOf slot ∨ StrictlyBelow (versionOf slot) d.2
    by_cases hne : d.2 = []
    · left
      by_contra hdiffer
      rw [TakenOver, hne, check_incoming_nil fun h => hdiffer (hne.trans h.symm)] at htaken
      exact absurd htaken (by decide)
    · exact Or.inr (strictlyBelow_of_check hd hdistinct hne htaken)
  · exact Or.inl (congrArg versionOf heq)

end Chains

/-- Whatever the order and the repetitions of the deliveries, the replica ends with the
greatest write, and no delivery takes its clock back. -/
theorem deliveries_converge (hash : String → UInt64) (env : Env String Int64) (depth : Nat)
    (n key : String) {w : Net} (fresh : stored w.state n key = none) {writes : List Data}
    (distinct : ∀ d ∈ writes, Distinct d.2)
    (ordered : writes.Pairwise fun d e => StrictlyBelow d.2 e.2 ∨ StrictlyBelow e.2 d.2)
    {deliveries : List Data} (arrive : ∀ d, d ∈ deliveries ↔ d ∈ writes) :
    (∃ w', deliverAll hash env (depth + 1) n key deliveries w = some w' ∧
      (writes ≠ [] → ∃ d ∈ writes, (∀ e ∈ writes, e = d ∨ StrictlyBelow e.2 d.2) ∧
        stored w'.state n key = some d)) ∧
      ∀ before d after, deliveries = before ++ d :: after → ∃ w₁ w₂ reply,
        deliverAll hash env (depth + 1) n key before w = some w₁ ∧
        serveOn hash env (depth + 1) n (.peerPut key d) w₁ = some (w₂, reply) ∧
        (versionOf (stored w₂.state n key) = versionOf (stored w₁.state n key) ∨
          StrictlyBelow (versionOf (stored w₁.state n key))
            (versionOf (stored w₂.state n key))) := by
  constructor
  · refine ⟨_, deliverAll_eq deliveries w, fun hne => ?_⟩
    obtain ⟨d, hd, greatest⟩ := exists_greatest hne ordered
    refine ⟨d, hd, greatest, ?_⟩
    rw [stored_foldl_receive, fresh]
    refine foldl_settle_eq takenOver_none deliveries none (fun e he => by cases he) ?_
      (Or.inl ((arrive d).mpr hd))
    intro e he
    have hmem := (arrive e).mp he
    rcases greatest e hmem with heq | below
    · exact Or.inl heq
    · exact prevails_of_strictlyBelow (distinct d hd) (distinct e hmem) below
  · intro before d after hsplit
    have hbefore : ∀ e ∈ before ++ d :: after, Distinct e.2 :=
      fun e he => distinct e ((arrive e).mp (hsplit ▸ he))
    refine ⟨_, _, _, deliverAll_eq before w, serveOn_peerPut d _, ?_⟩
    rw [stored_receive_eq_settle, stored_foldl_receive, fresh]
    refine versionOf_settle (hbefore d (by simp)) fun e he => ?_
    rcases mem_of_foldl_settle before none he with hmem | hnone
    · exact hbefore e (List.mem_append_left _ hmem)
    · cases hnone

/-- Three writes arrive in the wrong order, and one of them arrives twice. -/
theorem deliveries_converge_sample :
    ∃ w', deliverAll twoNodes calmEnv 1 "A" "k" [("v2", [("B", 1), ("A", 2)]), ("v0", []),
        ("v1", [("A", 1)]), ("v2", [("B", 1), ("A", 2)])] ⟨cluster twoNodes ["A", "B"], 0⟩ =
          some w' ∧
      ∃ d, stored w'.state "A" "k" = some d := by
  have ordered : [("v0", []), ("v1", [("A", 1)]), ("v2", [("B", 1), ("A", 2)])].Pairwise
      fun d e : Data => StrictlyBelow d.2 e.2 ∨ StrictlyBelow e.2 d.2 := by
    decide
  have arrive : ∀ d : Data, d ∈ [("v2", [("B", 1), ("A", 2)]), ("v0", []), ("v1", [("A", 1)]),
      ("v2", [("B", 1), ("A", 2)])] ↔
      d ∈ [("v0", []), ("v1", [("A", 1)]), ("v2", [("B", 1), ("A", 2)])] := by
    intro d
    simp only [List.mem_cons, List.not_mem_nil, or_false]
    tauto
  obtain ⟨⟨w', hrun, hend⟩, _⟩ := deliveries_converge twoNodes calmEnv 0 "A" "k"
    (w := ⟨cluster twoNodes ["A", "B"], 0⟩) rfl (by decide) ordered arrive
  obtain ⟨d, _, _, hd⟩ := hend (by decide)
  exact ⟨w', hrun, d, hd⟩

end DeliveryOrders
