import DynamoStore.CoordinatorChoice

/-!
# The copies behind an acknowledged put

The put loop counts its own write and every peer that answers that it has applied the
put. Replies can be lost, so there can be more copies than it counts, but never fewer:
each count stands for another node that stores the entry when the loop ends.
-/

namespace AcknowledgedCopies

open RpcPrograms GossipNode StateMachine
open RingOwners ClusterStores HandlerRuns KeyTransfers QuorumRuns CoordinatorChoice

variable {hash : String → UInt64} {env : Env String Int64} {depth : Nat} {self key : String}
variable {w : Net} {d : Data} {servers : List String}

/-- Node `m` may be counted: it is the coordinator itself, or its verdict was 1. -/
def Countable (own key : String) (d : Data) (state : String → GossipNode) (m : String) : Prop :=
  m = own ∨ checkConflictVersion d.2 (versionOf (stored state m key)) = 1

/-- The nodes that a put loop over `servers` has counted. -/
structure Counted (own key : String) (d : Data) (servers : List String)
    (state state' : String → GossipNode) (counted : List String) : Prop where
  nodup : counted.Nodup
  among : ∀ m ∈ counted, m ∈ servers
  copies : ∀ m ∈ counted, stored state' m key = some d
  countable : ∀ m ∈ counted, Countable own key d state m
  others : ∀ m ∉ servers, stored state' m key = stored state m key

namespace Counted

variable {own m : String} {state state₁ state' : String → GossipNode} {counted : List String}

theorem nil (h : ∀ m ∉ servers, stored state' m key = stored state m key) :
    Counted own key d servers state state' [] :=
  ⟨List.nodup_nil, by simp, by simp, by simp, h⟩

/-- A server is left out, or was written without being counted. -/
theorem skip (hm : m ∉ servers)
    (others : ∀ n, n ≠ m → stored state₁ n key = stored state n key)
    (h : Counted own key d servers state₁ state' counted) :
    Counted own key d (m :: servers) state state' counted where
  nodup := h.nodup
  among n hn := List.mem_cons_of_mem _ (h.among n hn)
  copies := h.copies
  countable n hn := by
    have hne : n ≠ m := fun heq => hm (heq ▸ h.among n hn)
    have := h.countable n hn
    rwa [Countable, others n hne] at this
  others n hn := by
    rw [List.mem_cons, not_or] at hn
    rw [h.others n hn.2, others n hn.1]

/-- A server that was written is counted. -/
theorem count (hm : m ∉ servers) (written : stored state₁ m key = some d)
    (countable : Countable own key d state m)
    (others : ∀ n, n ≠ m → stored state₁ n key = stored state n key)
    (h : Counted own key d servers state₁ state' counted) :
    Counted own key d (m :: servers) state state' (m :: counted) := by
  have rest := h.skip hm others
  refine ⟨List.nodup_cons.mpr ⟨fun hmem => hm (h.among m hmem), h.nodup⟩, ?_, ?_, ?_, rest.others⟩
  · exact List.forall_mem_cons.mpr ⟨List.mem_cons_self, rest.among⟩
  · exact List.forall_mem_cons.mpr ⟨(h.others m hm).trans written, h.copies⟩
  · exact List.forall_mem_cons.mpr ⟨countable, rest.countable⟩

/-- Looking at the heartbeats before the loop changes no store. -/
theorem of_looked (looked : ∀ n, stored state₁ n key = stored state n key)
    (h : Counted own key d servers state₁ state' counted) :
    Counted own key d servers state state' counted where
  nodup := h.nodup
  among := h.among
  copies := h.copies
  countable m hm := by
    have := h.countable m hm
    rwa [Countable, looked m] at this
  others m hm := (h.others m hm).trans (looked m)

theorem one_more (hm : m ∉ servers) (written : stored state₁ m key = some d)
    (countable : Countable own key d state m)
    (others : ∀ n, n ≠ m → stored state₁ n key = stored state n key) {successCnt cnt : Nat}
    (h : ∃ counted, Counted own key d servers state₁ state' counted ∧
      cnt = successCnt + 1 + counted.length) :
    ∃ counted, Counted own key d (m :: servers) state state' counted ∧
      cnt = successCnt + counted.length := by
  obtain ⟨counted, h, hcnt⟩ := h
  refine ⟨m :: counted, h.count hm written countable others, ?_⟩
  rw [hcnt, List.length_cons]
  omega

end Counted

variable (hash env key) in
/-- One call of `peerPut`: the peer alone can change, and with the result 0 it has
judged the entry later and stores it. -/
theorem sendPut_counts (dst : String) (d : Data) (w : Net) :
    (∀ n, n ≠ dst →
      stored (sendPut hash env dst key d w).1.state n key = stored w.state n key) ∧
      ((sendPut hash env dst key d w).2 = 0 →
        stored (sendPut hash env dst key d w).1.state dst key = some d ∧
          checkConflictVersion d.2 (versionOf (stored w.state dst key)) = 1) := by
  rcases sendPut_cases hash env dst key d w with ⟨same, hres⟩ | ⟨accepts, same⟩
  · rw [same]
    exact ⟨fun _ _ => rfl, fun h => absurd h hres⟩
  · rw [same]
    refine ⟨fun n hn => ?_, fun _ => ⟨?_, accepts_iff_takes.mp accepts⟩⟩
    · rw [stored_put, if_neg fun h => hn h.1]
    · rw [stored_put, if_pos ⟨rfl, rfl⟩]

/-- The put loop, over any network and with any heartbeats. -/
theorem clientPutLoop_counts {value : String} {newVersion : Version} (nodup : servers.Nodup)
    {successCnt tryCnt cnt : Nat} {w' : Net}
    (hrun : exec hash env (depth + 1) self
      (clientPutLoop self key value newVersion servers successCnt tryCnt) w = some (w', cnt)) :
    ∃ counted, Counted self key (value, newVersion) servers w.state w'.state counted ∧
      cnt = successCnt + counted.length := by
  induction servers generalizing w successCnt tryCnt with
  | nil =>
    cases hrun
    exact ⟨[], Counted.nil fun _ _ => rfl, rfl⟩
  | cons peerServer servers ih =>
    obtain ⟨hpeer, nodup⟩ := List.nodup_cons.mp nodup
    rw [clientPutLoop] at hrun
    by_cases hown : peerServer = self
    · subst hown
      rw [if_pos rfl, exec_bind, exec_perform, Option.bind_some] at hrun
      have written : stored (act hash w peerServer (.put key value newVersion)).state peerServer
          key = some (value, newVersion) := by
        rw [World.modify_state, stored_put, if_pos ⟨rfl, rfl⟩]
      have others : ∀ n, n ≠ peerServer →
          stored (act hash w peerServer (.put key value newVersion)).state n key =
            stored w.state n key := by
        intro n hn
        rw [World.modify_state, stored_put, if_neg fun h => hn h.1]
      refine Counted.one_more hpeer written (Or.inl rfl) others ?_
      split at hrun
      · cases hrun
        exact ⟨[], Counted.nil fun _ _ => rfl, rfl⟩
      · exact ih nodup hrun
    · rw [if_neg hown, exec_bind, exec_look, Option.bind_some] at hrun
      have looked : ∀ n, stored (look hash self peerServer w).state n key =
          stored w.state n key := by
        intro n
        rw [stored_look]
      split at hrun
      · by_cases hstub : peerServer ∈ ((look hash self peerServer w).state self).stubs
        · rw [exec_bind, exec_peerPut peerServer value newVersion hstub, Option.bind_some] at hrun
          obtain ⟨others, applied⟩ := sendPut_counts hash env key
            peerServer (value, newVersion) (look hash self peerServer w)
          simp only [looked] at others applied
          split at hrun
          · rename_i hres
            obtain ⟨written, verdict⟩ := applied hres
            refine Counted.one_more hpeer written (Or.inr verdict) others ?_
            split at hrun
            · cases hrun
              exact ⟨[], Counted.nil fun _ _ => rfl, rfl⟩
            · exact ih nodup hrun
          · obtain ⟨counted, h, hcnt⟩ := ih nodup hrun
            exact ⟨counted, h.skip hpeer others, hcnt⟩
        · rw [exec_bind, exec_peerPut_none hstub] at hrun
          cases hrun
      · obtain ⟨counted, h, hcnt⟩ := ih nodup hrun
        exact ⟨counted, h.skip hpeer fun n _ => looked n, hcnt⟩

/-- A whole put: one that the coordinator cannot start has counted nobody. -/
theorem serveClientPut_counts {data : Data} {w' : Net} {ret : PutReturn} {coordinator : String}
    (answer : serveOn hash env (depth + 2) self (.clientPut key data) w =
      some (w', .clientPut ret coordinator)) :
    ∃ counted, Counted self key (data.1, updateVersion data.2 self)
      (candidates hash (w.state self).ring key) w.state w'.state counted ∧
      (ret = .ok ↔ wCount ≤ counted.length) := by
  obtain ⟨w₁, named, hcoordinator, _, same, _⟩ := assignedCoordinator_names hash env (depth + 1)
    self (candidates hash (w.state self).ring key) w
  have looked : ∀ m, stored w₁.state m key = stored w.state m key := fun m => by rw [same]
  rw [serveOn_succ, serve, serveClientPut, exec_bind, exec_read, Option.bind_some, exec_bind,
    hcoordinator, Option.bind_some] at answer
  split at answer
  · cases answer
    exact ⟨[], Counted.nil fun m _ => looked m, by simp [wCount]⟩
  · obtain ⟨⟨w₂, successCnt⟩, hloop, hanswer⟩ := Option.bind_eq_some_iff.mp
      ((exec_bind _ _).symm.trans answer)
    obtain ⟨counted, h, hcnt⟩ := clientPutLoop_counts (nodup_getReplicasNodes _) hloop
    cases hanswer
    refine ⟨counted, h.of_looked looked, ?_⟩
    rw [Nat.zero_add] at hcnt
    rw [hcnt]
    split <;> simp [*]

/-- A put is answered OK exactly if at least `W_COUNT` nodes were counted, and each of
them stores the stamped entry after the call. No peer that rejected it is among them. -/
theorem acknowledged_put_has_copies (hash : String → UInt64) (env : Env String Int64)
    (depth : Nat) {self key : String} {data : Data} {w w' : Net} {ret : PutReturn}
    {coordinator : String} (answer : serveOn hash env (depth + 2) self (.clientPut key data) w =
      some (w', .clientPut ret coordinator)) :
    ∃ counted : List String, counted.Nodup ∧ (ret = .ok ↔ wCount ≤ counted.length) ∧
      ∀ m ∈ counted, stored w'.state m key = some (data.1, updateVersion data.2 self) ∧
        (m = self ∨ checkConflictVersion (updateVersion data.2 self)
          (versionOf (stored w.state m key)) = 1) := by
  obtain ⟨counted, h, enough⟩ := serveClientPut_counts answer
  exact ⟨counted, h.nodup, enough, fun m hm => ⟨h.copies m hm, h.countable m hm⟩⟩

theorem acknowledged_put_has_copies_sample :
    ∃ w', serveOn twoNodes calmEnv 2 "A" (.clientPut "k" ("v", []))
        ⟨cluster twoNodes ["A", "B"], 0⟩ = some (w', .clientPut .ok "A") ∧
      ∃ counted : List String, counted.Nodup ∧ 2 ≤ counted.length ∧
        ∀ m ∈ counted, stored w'.state m "k" = some ("v", [("A", 1)]) := by
  obtain ⟨⟨w', reply⟩, hrun, rfl⟩ : ∃ x ∈ serveOn twoNodes calmEnv 2 "A" (.clientPut "k" ("v", []))
      ⟨cluster twoNodes ["A", "B"], 0⟩, x.2 = .clientPut .ok "A" := by
    decide +kernel
  obtain ⟨counted, nodup, enough, copies⟩ := acknowledged_put_has_copies twoNodes calmEnv 0 hrun
  exact ⟨w', hrun, counted, nodup, enough.mp rfl, fun m hm => (copies m hm).1⟩

end AcknowledgedCopies
