import DynamoStore.HandlerRuns
import DynamoStore.Lib.JoinTables
import DynamoStore.ClusterStores
import DynamoStore.Stamps

/-!
# The clock of a reconciled write

`reconcile_version` merges all counters of the conflicting entries, so its result is
at least as late as each of them, and the stamp of a coordinator makes it later. None
of this needs the merged clocks to name their servers once.
-/

namespace ReconciledClock

open RpcPrograms GossipNode StateMachine VectorClocks JoinTables ConflictVerdict
open ClusterStores HandlerRuns Stamps

section Merge

variable {name : String} {n : UInt64}

/-- One pair of the merge loop. -/
def mergePair (mappingVersion : Map UInt64) (versionPair : String × UInt64) : Map UInt64 :=
  mappingVersion.insert versionPair.1
    (((mappingVersion.lookup versionPair.1).map fun version => max version versionPair.2).getD
      versionPair.2)

theorem mergeVersions_eq (conflictVersions : List Data) :
    mergeVersions conflictVersions = (conflictVersions.flatMap Prod.snd).foldl mergePair ∅ := by
  unfold mergeVersions
  congr 1
  funext mappingVersion versionPair
  rw [mergePair]
  split
  · rename_i h
    rw [h]
    rfl
  · rename_i version h
    rw [h]
    rfl

theorem clockOf_mergePair (m : Map UInt64) (pair : String × UInt64) :
    clockOf (mergePair m pair) = clockOf m ⊔ single pair.1 pair.2 := by
  refine clockOf_insert ?_
  rw [clockOf]
  cases m.lookup pair.1 with
  | none => exact (bot_sup_eq _).symm
  | some version => exact WithBot.coe_max version pair.2

/-- The merge loop joins all clocks. -/
theorem clockOf_mergeVersions (conflictVersions : List Data) :
    clockOf (mergeVersions conflictVersions) =
      clockOf (∅ : Map UInt64) ⊔ ofList (conflictVersions.flatMap Prod.snd) := by
  rw [mergeVersions_eq, clockOf_foldl clockOf_mergePair]

/-- The counters of a server are merged to the largest one. -/
theorem lookup_mergeVersions (conflictVersions : List Data) :
    (mergeVersions conflictVersions).lookup name = some n ↔
      (∃ e ∈ conflictVersions, (name, n) ∈ e.2) ∧
        ∀ e ∈ conflictVersions, ∀ p ∈ e.2, p.1 = name → p.2 ≤ n := by
  rw [lookup_iff_of_joined (clockOf_mergeVersions conflictVersions)]
  simp only [IsGreatest, mem_upperBounds, Set.mem_ofPred_eq, AList.lookup_empty, reduceCtorEq,
    false_or, List.mem_flatMap, forall_exists_index, and_imp]
  refine and_congr_right fun _ => ⟨fun h e he p hp hname => ?_, fun h m e he hm => ?_⟩
  · exact h p.2 e he (hname ▸ hp)
  · exact h e he (name, m) hm rfl

end Merge

section Order

variable {order : List String → List String}

theorem mem_reconcileVersion_iff_lookup (perm : ∀ l, (order l).Perm l)
    (conflictVersions : List Data) (name : String) (n : UInt64) :
    (name, n) ∈ reconcileVersion order conflictVersions ↔
      (mergeVersions conflictVersions).lookup name = some n := by
  rw [reconcileVersion]
  simp only [List.mem_map, (perm _).mem_iff, Prod.mk.injEq]
  constructor
  · rintro ⟨server, hmem, rfl, rfl⟩
    obtain ⟨version, hversion⟩ := Option.ne_none_iff_exists'.mp fun hnone =>
      AList.lookup_eq_none.mp hnone (AList.mem_keys.mpr hmem)
    rw [hversion]
    rfl
  · intro h
    refine ⟨name, AList.mem_keys.mp ?_, rfl, by rw [h]; rfl⟩
    by_contra hnot
    rw [AList.lookup_eq_none.mpr hnot] at h
    cases h

theorem mem_reconcileVersion (perm : ∀ l, (order l).Perm l) (conflictVersions : List Data)
    (name : String) (n : UInt64) :
    (name, n) ∈ reconcileVersion order conflictVersions ↔
      (∃ e ∈ conflictVersions, (name, n) ∈ e.2) ∧
        ∀ e ∈ conflictVersions, ∀ p ∈ e.2, p.1 = name → p.2 ≤ n := by
  rw [mem_reconcileVersion_iff_lookup perm, lookup_mergeVersions]

/-- The reconciled version denotes the clock of the merged table. -/
theorem ofList_reconcileVersion (perm : ∀ l, (order l).Perm l) (conflictVersions : List Data) :
    ofList (reconcileVersion order conflictVersions) = clockOf (mergeVersions conflictVersions) :=
  ofList_eq_clockOf (mem_reconcileVersion_iff_lookup perm conflictVersions)

theorem distinct_reconcileVersion (perm : ∀ l, (order l).Perm l) (conflictVersions : List Data) :
    Distinct (reconcileVersion order conflictVersions) := by
  have names : (reconcileVersion order conflictVersions).map Prod.fst =
      order (mergeVersions conflictVersions).keys := by
    rw [reconcileVersion, List.map_map]
    exact List.map_id _
  rw [Distinct, names, (perm _).nodup_iff]
  exact AList.keys_nodup _

/-- The merged clock is at least as late as every clock that is merged. -/
theorem below_reconcileVersion (perm : ∀ l, (order l).Perm l) {conflictVersions : List Data}
    {e : Data} (he : e ∈ conflictVersions) :
    Below e.2 (reconcileVersion order conflictVersions) := by
  rw [below_iff_le, ofList_reconcileVersion perm, clockOf_mergeVersions]
  have part : ofList e.2 ≤ ofList (conflictVersions.flatMap Prod.snd) :=
    (below_iff_le _ _).mp fun p hp =>
      ⟨p, List.mem_flatMap.mpr ⟨e, he, hp⟩, rfl, le_rfl⟩
  exact part.trans le_sup_right

/-- The reconciled clock, stamped by any server, is judged later than the clock of every
entry that was reconciled. -/
theorem check_reconciled (perm : ∀ l, (order l).Perm l) {conflictVersions : List Data}
    (small : ∀ e ∈ conflictVersions, ∀ p ∈ e.2, p.2.toNat < 2 ^ 64 - 1) (server : String)
    {e : Data} (he : e ∈ conflictVersions) :
    checkConflictVersion (updateVersion (reconcileVersion order conflictVersions) server) e.2 =
      1 := by
  refine check_updateVersion (distinct_reconcileVersion perm conflictVersions)
    (below_reconcileVersion perm he) fun k hk => ?_
  obtain ⟨⟨e', he', hk'⟩, _⟩ := (mem_reconcileVersion perm _ _ _).mp hk
  exact lt_succ_of_lt (small e' he' _ hk')

variable (order) in
/-- The reconciled clock names every server once, with its largest counter. Stamped by
any server it is judged later than each of the conflicting clocks, so every node that
stores one of the entries takes the reconciled write. -/
theorem reconciled_write_accepted (perm : ∀ l, (order l).Perm l) (conflictVersions : List Data)
    (small : ∀ e ∈ conflictVersions, ∀ p ∈ e.2, p.2.toNat < 2 ^ 64 - 1) (server : String) :
    (Distinct (reconcileVersion order conflictVersions) ∧
      ∀ name n, (name, n) ∈ reconcileVersion order conflictVersions ↔
        (∃ e ∈ conflictVersions, (name, n) ∈ e.2) ∧
          ∀ e ∈ conflictVersions, ∀ p ∈ e.2, p.1 = name → p.2 ≤ n) ∧
      ∀ e ∈ conflictVersions,
        checkConflictVersion (updateVersion (reconcileVersion order conflictVersions) server) e.2 =
            1 ∧
          ∀ hash env depth n key value (w : Net), stored w.state n key = some e →
            exec hash env depth n (servePeerPut key
              (value, updateVersion (reconcileVersion order conflictVersions) server)) w =
            some (act hash w n (.put key value
              (updateVersion (reconcileVersion order conflictVersions) server)),
              .peerPut false) := by
  refine ⟨⟨distinct_reconcileVersion perm _, mem_reconcileVersion perm _⟩, fun e he => ?_⟩
  have later := check_reconciled perm small server he
  refine ⟨later, fun hash env depth n key value w hstored => ?_⟩
  have accepts : Accepts (w.state n) key
      (value, updateVersion (reconcileVersion order conflictVersions) server) := by
    rw [Accepts, getVersion_of_entry hstored]
    exact later
  rw [exec_servePeerPut, receive, if_pos accepts, decide_eq_true accepts]
  rfl

theorem reconciled_write_accepted_sample :
    checkConflictVersion (updateVersion (reconcileVersion id
      [("v", [("A", 2)]), ("w", [("A", 1), ("C", 1)])]) "B") [("A", 1), ("C", 1)] = 1 :=
  ((reconciled_write_accepted id (fun _ => List.Perm.refl _)
    [("v", [("A", 2)]), ("w", [("A", 1), ("C", 1)])] (by decide) "B").2
    ("w", [("A", 1), ("C", 1)]) (by decide)).1

end Order

end ReconciledClock
