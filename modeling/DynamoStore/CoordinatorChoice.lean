import DynamoStore.QuorumRuns

/-!
# Which coordinator a response names

The node that serves a client looks through the replica servers of the key and names
the first one whose heartbeat is recent. Each look reads the clock anew, and the
heartbeats stay as they are meanwhile.
-/

namespace CoordinatorChoice

open RpcPrograms GossipNode StateMachine
open RingOwners ClusterStores HandlerRuns QuorumRuns

/-- The look at server `m` finds it alive. -/
def Recent (env : Env String Int64) (tick : Nat) (node : GossipNode) (m : String) : Prop :=
  durationMs (env.now tick) (node.heartbeat m) < checkAliveInterval

instance (env : Env String Int64) (tick : Nat) (node : GossipNode) (m : String) :
    Decidable (Recent env tick node m) :=
  inferInstanceAs (Decidable (_ < _))

/-- The looks from `tick` on, one at each candidate, find `m` before all others. -/
def FirstRecent (env : Env String Int64) (node : GossipNode) (tick : Nat)
    (candidates : List String) (m : String) : Prop :=
  ∃ i, candidates[i]? = some m ∧ Recent env (tick + i) node m ∧
    ∀ j < i, ∀ m', candidates[j]? = some m' → ¬ Recent env (tick + j) node m'

/-- No look finds its candidate. -/
def NoneRecent (env : Env String Int64) (node : GossipNode) (tick : Nat)
    (candidates : List String) : Prop :=
  ∀ i m, candidates[i]? = some m → ¬ Recent env (tick + i) node m

variable {hash : String → UInt64} {env : Env String Int64} {depth : Nat} {self key : String}
variable {w : Net} {node : GossipNode} {tick : Nat} {m candidate : String}
variable {candidates : List String}

theorem firstRecent_cons_of_recent (h : Recent env tick node candidate) :
    FirstRecent env node tick (candidate :: candidates) m ↔ m = candidate := by
  constructor
  · rintro ⟨i, hi, _, hnone⟩
    cases i with
    | zero => exact (Option.some.inj hi).symm
    | succ i => exact absurd h (hnone 0 (Nat.succ_pos i) candidate rfl)
  · rintro rfl
    exact ⟨0, rfl, h, fun j hj => absurd hj (Nat.not_lt_zero j)⟩

theorem firstRecent_cons_of_not_recent (h : ¬ Recent env tick node candidate) :
    FirstRecent env node tick (candidate :: candidates) m ↔
      FirstRecent env node (tick + 1) candidates m := by
  constructor
  · rintro ⟨i, hi, hrecent, hnone⟩
    cases i with
    | zero =>
      cases hi
      exact absurd hrecent h
    | succ i =>
      refine ⟨i, hi, by rwa [Nat.add_right_comm], fun j hj m' hm' => ?_⟩
      rw [Nat.add_right_comm]
      exact hnone (j + 1) (Nat.succ_lt_succ hj) m' hm'
  · rintro ⟨i, hi, hrecent, hnone⟩
    refine ⟨i + 1, hi, by rwa [Nat.add_right_comm] at hrecent, fun j hj m' hm' => ?_⟩
    cases j with
    | zero =>
      cases hm'
      exact h
    | succ j =>
      have := hnone j (Nat.lt_of_succ_lt_succ hj) m' hm'
      rwa [Nat.add_right_comm] at this

theorem noneRecent_cons : NoneRecent env node tick (candidate :: candidates) ↔
    ¬ Recent env tick node candidate ∧ NoneRecent env node (tick + 1) candidates := by
  constructor
  · intro h
    refine ⟨h 0 candidate rfl, fun i m hm => ?_⟩
    rw [Nat.add_right_comm]
    exact h (i + 1) m hm
  · rintro ⟨hfirst, hrest⟩ i m hm
    cases i with
    | zero =>
      cases hm
      exact hfirst
    | succ i =>
      have := hrest i m hm
      rwa [Nat.add_right_comm] at this

theorem recent_congr {node' : GossipNode} (same : ∀ m, node'.heartbeat m = node.heartbeat m) :
    Recent env tick node' m ↔ Recent env tick node m := by
  rw [Recent, Recent, same]

theorem firstRecent_congr {node' : GossipNode}
    (same : ∀ m, node'.heartbeat m = node.heartbeat m) :
    FirstRecent env node' tick candidates m ↔ FirstRecent env node tick candidates m := by
  simp only [FirstRecent, recent_congr same]

theorem noneRecent_congr {node' : GossipNode}
    (same : ∀ m, node'.heartbeat m = node.heartbeat m) :
    NoneRecent env node' tick candidates ↔ NoneRecent env node tick candidates := by
  simp only [NoneRecent, recent_congr same]

variable (hash env depth self w) in
theorem exec_look (peerServer : String) :
    exec hash env depth self (recentHeartbeat peerServer) w =
      some (look hash self peerServer w,
        decide (Recent env w.tick (w.state self) peerServer)) :=
  recentHeartbeat_run hash env depth self w peerServer

variable (hash env depth self) in
/-- The coordinator is the first candidate with a recent heartbeat, or the empty name. -/
theorem assignedCoordinator_names (candidates : List String) (w : Net) :
    ∃ w' coordinator, exec hash env depth self (assignedCoordinator candidates) w =
        some (w', coordinator) ∧ SameView w.state w'.state ∧ stored w'.state = stored w.state ∧
      ∀ m, coordinator = m ↔ FirstRecent env (w.state self) w.tick candidates m ∨
        (m = "" ∧ NoneRecent env (w.state self) w.tick candidates) := by
  induction candidates generalizing w with
  | nil =>
    refine ⟨w, "", rfl, SameView.refl _, rfl, fun m => ?_⟩
    have hfirst : ¬ FirstRecent env (w.state self) w.tick [] m := by
      rintro ⟨i, hi, _⟩
      simp at hi
    have hnone : NoneRecent env (w.state self) w.tick [] := by
      intro i m hm
      simp at hm
    rw [or_iff_right hfirst, and_iff_left hnone]
    exact eq_comm
  | cons candidate candidates ih =>
    have view := sameView_look hash self w candidate
    rw [assignedCoordinator, exec_bind, exec_look, Option.bind_some]
    by_cases h : Recent env w.tick (w.state self) candidate
    · refine ⟨look hash self candidate w, candidate, ?_, view, stored_look candidate, fun m => ?_⟩
      · rw [decide_eq_true h]
        rfl
      · rw [firstRecent_cons_of_recent h, noneRecent_cons, or_iff_left fun hnone => hnone.2.1 h]
        exact eq_comm
    · obtain ⟨w', coordinator, hrun, view', same, names⟩ := ih (look hash self candidate w)
      refine ⟨w', coordinator, ?_, view.trans view', same.trans (stored_look candidate),
        fun m => ?_⟩
      · rw [decide_eq_false h]
        exact hrun
      · have same' : ∀ m, ((look hash self candidate w).state self).heartbeat m =
            (w.state self).heartbeat m := view.heartbeat self
        have htick : (look hash self candidate w).tick = w.tick + 1 := rfl
        rw [firstRecent_cons_of_not_recent h, noneRecent_cons, and_iff_right h, names m, htick,
          firstRecent_congr same', noneRecent_congr same']

end CoordinatorChoice
