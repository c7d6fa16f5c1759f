import DynamoStore.KeyTransfers

/-!
# A join loses nothing

A member hands a key to the joining node and removes its own copy only when the
new node has applied the transfer. Whatever requests and replies are lost on the
way, every entry stays somewhere or is replaced by a causally newer one.
-/

namespace JoinSafety

open RpcPrograms GossipNode StateMachine VectorClocks ConflictVerdict
open ClusterStores HandlerRuns KeyTransfers

/-- Entry `e` is `d` itself, or a causally newer one. -/
def Succeeds (d e : Data) : Prop := e = d ∨ StrictlyBelow d.2 e.2

abbrev Kept : (String → GossipNode) → String → Data → Prop := HeldBy Succeeds

/-- Stored clocks are not empty and name each server once. -/
def CleanClocks (state : String → GossipNode) : Prop :=
  ∀ n key e, stored state n key = some e → Distinct e.2 ∧ e.2 ≠ []

theorem Succeeds.trans {d e f : Data} (hde : Succeeds d e) (hef : Succeeds e f) :
    Succeeds d f := by
  rcases hde with rfl | hde
  · exact hef
  · rcases hef with rfl | hef
    · exact Or.inr hde
    · exact Or.inr (hde.trans hef)

/-- From one state to a later one no entry is lost. -/
structure Keeps (state state' : String → GossipNode) : Prop where
  clean : CleanClocks state → CleanClocks state'
  kept : CleanClocks state → ∀ key d, Kept state key d → Kept state' key d

namespace Keeps

theorem refl (state : String → GossipNode) : Keeps state state :=
  ⟨fun h => h, fun _ _ _ h => h⟩

theorem trans {state state' state'' : String → GossipNode} (h : Keeps state state')
    (h' : Keeps state' state'') : Keeps state state'' :=
  ⟨fun clean => h'.clean (h.clean clean),
    fun clean key d hd => h'.kept (h.clean clean) key d (h.kept clean key d hd)⟩

/-- Changes outside of the stores. -/
theorem of_stored_eq {state state' : String → GossipNode} (same : stored state' = stored state) :
    Keeps state state' := by
  constructor
  · intro clean n key e he
    exact clean n key e (by rw [← same]; exact he)
  · intro _ key d hd
    unfold Kept HeldBy
    rw [same]
    exact hd

end Keeps

variable {hash : String → UInt64} {env : Env String Int64} {depth : Nat} {m x key : String}
variable {w : Net}

/-- An applied entry of another node is later than what it replaces. -/
theorem keeps_put {state : String → GossipNode} {d : Data}
    (hd : stored state m key = some d) (accepts : Accepts (state x) key d) :
    Keeps state (Function.update state x (apply hash (.put key d.1 d.2) (state x))) := by
  constructor
  · intro clean n key' e he
    rw [stored_put] at he
    split at he
    · cases he
      exact clean m key d hd
    · exact clean n key' e he
  · intro clean key' d' hd'
    refine heldBy_put Succeeds (fun _ _ _ => Succeeds.trans) (fun e he => Or.inr ?_) hd'
    rw [Accepts, getVersion_of_entry he] at accepts
    exact strictlyBelow_of_check (clean m key d hd).1 (clean x key e he).1 (clean m key d hd).2
      accepts

variable (hash) in
theorem keeps_remove {state : String → GossipNode} (hne : x ≠ m)
    (copy : stored state x key = stored state m key) :
    Keeps state (Function.update state m (apply hash (.remove key) (state m))) := by
  constructor
  · intro clean n key' e he
    rw [stored_remove] at he
    split at he
    · cases he
    · exact clean n key' e he
  · exact fun _ _ _ hd => heldBy_remove hne copy hd

variable (hash env) in
/-- A transfer keeps every entry; after the result 0 the peer has the entry too. -/
theorem keeps_sendPut (hne : x ≠ m) {d : Data} (hd : stored w.state m key = some d) :
    Keeps w.state (sendPut hash env x key d w).1.state ∧
      ((sendPut hash env x key d w).2 = 0 →
        stored (sendPut hash env x key d w).1.state x key = some d) ∧
      ∀ key', stored (sendPut hash env x key d w).1.state m key' = stored w.state m key' := by
  rcases sendPut_cases hash env x key d w with ⟨same, hres⟩ | ⟨accepts, same⟩
  · rw [same]
    exact ⟨Keeps.refl _, fun h => absurd h hres, fun _ => rfl⟩
  · rw [same]
    refine ⟨keeps_put hd accepts, fun _ => ?_, fun key' => ?_⟩
    · rw [stored_put, if_pos ⟨rfl, rfl⟩]
    · rw [stored_put, if_neg fun h => hne h.1.symm]

/-- The transfer loop of a member, with any pattern of failures. -/
theorem joinTransferLoop_keeps (hne : x ≠ m) (keys : List String) (nodup : keys.Nodup)
    (success : Bool) (present : ∀ key ∈ keys, ∃ d, stored w.state m key = some d)
    (hstub : x ∈ (w.state m).stubs) :
    ∃ w' success', exec hash env (depth + 1) m (joinTransferLoop x keys success) w =
      some (w', success') ∧ Keeps w.state w'.state := by
  induction keys generalizing w success with
  | nil => exact ⟨w, success, rfl, Keeps.refl _⟩
  | cons key keys ih =>
    obtain ⟨hkey, nodup⟩ := List.nodup_cons.mp nodup
    rw [List.forall_mem_cons] at present
    obtain ⟨⟨d, hd⟩, present⟩ := present
    rw [joinTransferLoop, exec_bind, exec_transferKey x hstub hd, Option.bind_some]
    obtain ⟨hkeeps, happlied, hsame⟩ := keeps_sendPut hash env hne hd
    have hstub' : x ∈ ((sendPut hash env x key d w).1.state m).stubs := by
      rw [(StoreOnly.sendPut x d).stubs m]
      exact hstub
    have hother : ∀ key' ∈ keys, key' ≠ key := fun key' h heq => hkey (heq ▸ h)
    have present' : ∀ key' ∈ keys, ∃ e, stored (sendPut hash env x key d w).1.state m key' =
        some e := by
      simpa only [hsame] using present
    by_cases hres : (sendPut hash env x key d w).2 = 0
    · rw [if_pos hres]
      simp only [exec_bind, exec_perform, Option.bind_some]
      have hremove := keeps_remove hash hne
        ((happlied hres).trans (hd.symm.trans (hsame key).symm))
      have present'' : ∀ key' ∈ keys, ∃ e, stored (act hash (sendPut hash env x key d w).1 m
          (.remove key)).state m key' = some e := by
        intro key' hmem
        rw [World.modify_state, stored_remove, if_neg fun h => hother key' hmem h.2]
        exact present' key' hmem
      have hstub'' : x ∈ ((act hash (sendPut hash env x key d w).1 m
          (.remove key)).state m).stubs := by
        rw [World.modify_state, (StoreOnly.remove _ m key).stubs m]
        exact hstub'
      obtain ⟨w', success', hrun', hkeeps'⟩ := ih nodup success present'' hstub''
      exact ⟨w', success', hrun', hkeeps.trans (hremove.trans hkeeps')⟩
    · rw [if_neg hres]
      obtain ⟨w', success', hrun', hkeeps'⟩ := ih nodup false present' hstub'
      exact ⟨w', success', hrun', hkeeps.trans hkeeps'⟩

section Members

variable (hash env depth w)

/-- A member serves a join. -/
theorem serveJoinNetwork_keeps (hne : m ≠ x) :
    ∃ w' reply, exec hash env (depth + 1) m (serveJoinNetwork hash m x) w = some (w', reply) ∧
      Keeps w.state w'.state := by
  obtain ⟨w', success, hrun, hkeeps⟩ := joinTransferLoop_keeps (w := (welcome hash env m x w).next)
    hne.symm (joinTransferKeys hash env m (welcome hash env m x w)) nodup_joinTransferKeys true
    (fun key hmem => (mem_joinTransferKeys.mp hmem).1) (by simp [welcome, apply])
  refine ⟨w', .joinNetwork success, ?_, (Keeps.of_stored_eq (stored_welcome m)).trans hkeeps⟩
  rw [exec_serveJoinNetwork, hrun]
  rfl

/-- The join request to a member may itself be lost, or its reply. -/
theorem deliver_joinNetwork_keeps (hne : m ≠ x) :
    ∃ w' reply, deliver hash env (depth + 2) m (.joinNetwork x) w = some (w', reply) ∧
      Keeps w.state w'.state := by
  obtain ⟨w', reply, hrun, hkeeps⟩ := serveJoinNetwork_keeps hash env depth w.next hne
  simp only [deliver, network, serveOn_succ, serve, hrun]
  cases env.fate w.tick m with
  | delivered => exact ⟨w', some reply, rfl, hkeeps⟩
  | requestLost => exact ⟨w.next, none, rfl, Keeps.refl _⟩
  | replyLost => exact ⟨w', none, rfl, hkeeps⟩

theorem joinNetworkLoop_keeps (stubs : List String) (hstubs : ∀ addr ∈ stubs, addr ≠ x)
    (flag : Bool) :
    ∃ w' flag', exec hash env (depth + 2) x (joinNetworkLoop x stubs flag) w = some (w', flag') ∧
      Keeps w.state w'.state := by
  induction stubs generalizing w flag with
  | nil => exact ⟨w, flag, rfl, Keeps.refl _⟩
  | cons addr stubs ih =>
    rw [List.forall_mem_cons] at hstubs
    obtain ⟨w₁, reply, hrun, hkeeps⟩ := deliver_joinNetwork_keeps hash env depth w hstubs.1
    rw [joinNetworkLoop, exec_bind, exec_send, hrun, Option.bind_some]
    split
    · obtain ⟨w', flag', hrun', hkeeps'⟩ := ih w₁ hstubs.2 flag
      exact ⟨w', flag', hrun', hkeeps.trans hkeeps'⟩
    · obtain ⟨w', flag', hrun', hkeeps'⟩ := ih w₁ hstubs.2 false
      exact ⟨w', flag', hrun', hkeeps.trans hkeeps'⟩

end Members

/-- A join ends, whatever is lost on the way, and every entry stored before is
stored afterwards, or a causally newer one is. -/
theorem join_loses_nothing (hash : String → UInt64) (env : Env String Int64) (w : Net)
    (clean : CleanClocks w.state) (x : String) (aliveServers : List String) :
    ∃ w', serveOn hash env 3 x (.adminCmd "JoinNetwork" aliveServers) w =
        some (w', .adminCmd true) ∧
      ∀ n key d, stored w.state n key = some d →
        ∃ m e, stored w'.state m key = some e ∧ (e = d ∨ StrictlyBelow d.2 e.2) := by
  obtain ⟨w', flag, hrun, hkeeps⟩ := joinNetworkLoop_keeps hash env 0
    (enter hash env x aliveServers w).next (told env x (enter hash env x aliveServers w))
    (fun addr h => ((mem_enter_stubs aliveServers).mp (mem_told.mp h)).2) true
  refine ⟨act hash w' x (.setAlive true), ?_, fun n key d hd => ?_⟩
  · rw [serveOn_succ, serve, exec_adminJoin, hrun]
    rfl
  · have hentered : Keeps w.state (enter hash env x aliveServers w).state :=
      Keeps.of_stored_eq (by
        funext m k
        rw [stored, stored, enter_stateMachine])
    have hdone : Keeps w'.state (act hash w' x (.setAlive true)).state :=
      Keeps.of_stored_eq (stored_of_keepsStore _ x (a := .setAlive true) trivial)
    exact ((hentered.trans hkeeps).trans hdone).kept clean key d ⟨n, d, hd, Or.inl rfl⟩

/-- What is sent to A is applied, but A's answers are lost. -/
def muteA : Env String Int64 :=
  { calmEnv with fate := fun _ dst => if dst = "A" then .replyLost else .delivered }

/-- Node A joins and becomes an owner of `k` in place of D. The transfer reaches A, and
D, which does not learn of it, keeps its own copy too. -/
theorem join_loses_nothing_sample :
    ∃ w', serveOn fourNodes muteA 3 "A" (.adminCmd "JoinNetwork" ["B", "C", "D"])
        ⟨holding fourNodes ["B", "C", "D"] ["D"] "k" ("v", [("D", 1)]), 0⟩ =
          some (w', .adminCmd true) ∧
      (∀ n ∈ ["A", "B", "C", "D"], stored w'.state n "k" =
        if n ∈ ["A", "D"] then some ("v", [("D", 1)]) else none) ∧
      ∀ n key d, stored (holding fourNodes ["B", "C", "D"] ["D"] "k" ("v", [("D", 1)])) n key =
          some d →
        ∃ m e, stored w'.state m key = some e ∧ (e = d ∨ StrictlyBelow d.2 e.2) := by
  have clean : CleanClocks (holding fourNodes ["B", "C", "D"] ["D"] "k" ("v", [("D", 1)])) := by
    intro n key e he
    rw [stored_holding] at he
    split at he
    · cases he
      decide
    · cases he
  obtain ⟨⟨w', _⟩, hrun, hafter⟩ :
      ∃ x ∈ serveOn fourNodes muteA 3 "A" (.adminCmd "JoinNetwork" ["B", "C", "D"])
        ⟨holding fourNodes ["B", "C", "D"] ["D"] "k" ("v", [("D", 1)]), 0⟩,
        ∀ n ∈ ["A", "B", "C", "D"], stored x.1.state n "k" =
          if n ∈ ["A", "D"] then some ("v", [("D", 1)]) else none := by
    decide +kernel
  obtain ⟨w'', hrun', hkept⟩ := join_loses_nothing fourNodes muteA
    ⟨holding fourNodes ["B", "C", "D"] ["D"] "k" ("v", [("D", 1)]), 0⟩ clean "A" ["B", "C", "D"]
  cases hrun.symm.trans hrun'
  exact ⟨w', hrun', hafter, hkept⟩

end JoinSafety
