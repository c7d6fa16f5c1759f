import DynamoStore.Stamps
import DynamoStore.HandlerRuns
import DynamoStore.ClusterStores

/-!
# The verdict on a stamped context

The context of a put comes from the client, who can fill it with any counters. The
coordinator counts up its own one in 64 bits, so the largest counter becomes 0, and what
should be a newer version is judged an older one.
-/

namespace StampedVerdict

open VectorClocks StateMachine ConflictVerdict Stamps GossipNode ClusterStores HandlerRuns

def maxCounter : UInt64 := 18446744073709551615

/-- What a coordinator's stamp of a context is meant to be. -/
structure StampsNewer (context : Version) (server : String) : Prop where
  names : ∀ name, name ∈ (updateVersion context server).map Prod.fst ↔
    name ∈ context.map Prod.fst ∨ name = server
  distinct : Distinct (updateVersion context server)
  others : ∀ name n, name ≠ server →
    ((name, n) ∈ updateVersion context server ↔ (name, n) ∈ context)
  newer : checkConflictVersion (updateVersion context server) context = 1
  /-- A replica that stores the context itself takes the write. -/
  accepted : ∀ hash env depth n key value (w : Net),
    (w.state n).stateMachine.getVersion key = context →
    ∃ w', serveOn hash env (depth + 1) n
        (.peerPut key (value, updateVersion context server)) w = some (w', .peerPut false) ∧
      stored w'.state n key = some (value, updateVersion context server)

variable {context : Version} {server : String}

theorem mem_names_updateVersion (name : String) :
    name ∈ (updateVersion context server).map Prod.fst ↔
      name ∈ context.map Prod.fst ∨ name = server := by
  rw [names_updateVersion]
  split
  · rename_i h
    exact (or_iff_left_of_imp fun heq => heq ▸ h).symm
  · rw [List.mem_append, List.mem_singleton]

theorem lt_succ_of_ne {k : UInt64} (h : k ≠ maxCounter) : k < k + 1 := by
  refine lt_succ_of_lt ?_
  have hmax : maxCounter.toNat = 2 ^ 64 - 1 := rfl
  have hne : k.toNat ≠ maxCounter.toNat := fun heq => h (UInt64.toNat_inj.mp heq)
  have := k.toNat_lt
  omega

theorem accepted_of_newer (newer : checkConflictVersion (updateVersion context server) context = 1)
    (hash : String → UInt64) (env : RpcPrograms.Env String Int64) (depth : Nat)
    (n key value : String) (w : Net)
    (hversion : (w.state n).stateMachine.getVersion key = context) :
    ∃ w', serveOn hash env (depth + 1) n
        (.peerPut key (value, updateVersion context server)) w = some (w', .peerPut false) ∧
      stored w'.state n key = some (value, updateVersion context server) := by
  have accepts : Accepts (w.state n) key (value, updateVersion context server) := by
    rw [Accepts, hversion]
    exact newer
  refine ⟨_, by rw [serveOn_succ, serve, exec_servePeerPut, decide_eq_true accepts]; rfl, ?_⟩
  rw [receive_state, if_pos accepts, stored, Function.update_self]
  exact entry_put_self _ _ _

/-- The largest counter wraps around to 0, and then the stamp does not cover the context. -/
theorem not_below_of_max (distinct : Distinct context) (hmax : (server, maxCounter) ∈ context) :
    ¬ Below context (updateVersion context server) := by
  intro below
  obtain ⟨⟨name, n⟩, hn, hname, hle⟩ := below _ hmax
  obtain rfl : name = server := hname
  rcases mem_updateVersion_self.mp hn with ⟨k, hk, rfl⟩ | ⟨hnot, _⟩
  · rw [distinct.eq_of_mem hk hmax] at hle
    exact absurd hle (show ¬ maxCounter ≤ maxCounter + 1 by decide)
  · exact hnot (List.mem_map_of_mem hmax)

/-- A stamped context is newer exactly if the own counter in it is not the largest one. -/
theorem stamps_newer_iff (distinct : Distinct context) :
    StampsNewer context server ↔ (server, maxCounter) ∉ context := by
  constructor
  · intro h hmax
    have newer := (check_eq_one_iff h.distinct distinct (List.ne_nil_of_mem hmax)).mp h.newer
    exact not_below_of_max distinct hmax newer.1
  · intro h
    have newer : checkConflictVersion (updateVersion context server) context = 1 :=
      check_updateVersion distinct (Below.refl context) fun k hk =>
        lt_succ_of_ne fun heq => h (heq ▸ hk)
    exact {
      names := mem_names_updateVersion
      distinct := distinct_updateVersion distinct server
      others := fun name n hne => mem_updateVersion_of_ne hne
      newer := newer
      accepted := accepted_of_newer newer }

theorem stamps_newer_sample : StampsNewer [("B", maxCounter), ("A", 7)] "A" :=
  (stamps_newer_iff (by decide)).mpr (by decide)

/-- Node A counts its largest counter up to 0, and its write is judged an older one. -/
theorem wrapped_stamp_is_older :
    Distinct [("A", maxCounter)] ∧ ¬ StampsNewer [("A", maxCounter)] "A" ∧
      updateVersion [("A", maxCounter)] "A" = [("A", 0)] ∧
      checkConflictVersion [("A", 0)] [("A", maxCounter)] = -1 := by
  refine ⟨by decide, fun h => ?_, by decide, by decide⟩
  exact absurd h.newer (by decide)

end StampedVerdict
