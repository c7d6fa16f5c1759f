import DynamoStore.KeyTransfers
import DynamoStore.ReplicaSets
import DynamoStore.Lib.ArrivalOrders

/-!
# What a joining node is handed

A joining node tells the members one after another. Each takes it on its ring and
stubs, and then offers it every key of which the member is not a replica on the new
ring. With no message lost, the new node holds under each key what wins among the
entries that arrive, in the order of the members.
-/

namespace JoinTransfers

open RpcPrograms GossipNode StateMachine ArrivalOrders
open ClusterStores HandlerRuns ReplicaSets KeyTransfers

/-- What member `m` offers under a key to the joining node `x`. -/
def offered (hash : String → UInt64) (x : String) (state : String → GossipNode)
    (key m : String) : Option Data :=
  if m ∈ replicas hash ((state m).ring.addNode hash x) key then none else stored state m key

/-- The members in the list have taken node `x` in, in this order. -/
structure Joined (hash : String → UInt64) (x : String) (members : List String)
    (state state' : String → GossipNode) : Prop where
  ring : ∀ n, (state' n).ring =
    if n ∈ members then (state n).ring.addNode hash x else (state n).ring
  stubs : ∀ n, (state' n).stubs =
    if n ∈ members then (state n).stubs.insert x () else (state n).stubs
  alive : ∀ n, (state' n).alive = (state n).alive
  arrived : ∀ key, stored state' x key =
    (members.filterMap (offered hash x state key)).foldl (settle TakenOver) (stored state x key)
  kept : ∀ n key, n ≠ x →
    (n ∈ members → n ∈ replicas hash ((state n).ring.addNode hash x) key) →
    stored state' n key = stored state n key

variable {hash : String → UInt64} {env : Env String Int64} {depth : Nat} {m x : String}
variable {w : Net} {state state' state'' : String → GossipNode}

theorem joined_nil : Joined hash x [] state state where
  ring n := by simp
  stubs n := by simp
  alive _ := rfl
  arrived _ := rfl
  kept _ _ _ _ := rfl

theorem Joined.cons {members : List String} (hm : m ∉ members) (hmembers : x ∉ members)
    (h : Joined hash x [m] state state') (h' : Joined hash x members state' state'') :
    Joined hash x (m :: members) state state'' where
  ring n := by
    rw [h'.ring n, h.ring n]
    by_cases hn : n = m
    · subst hn
      simp [hm]
    · simp [hn]
  stubs n := by
    rw [h'.stubs n, h.stubs n]
    by_cases hn : n = m
    · subst hn
      simp [hm]
    · simp [hn]
  alive n := (h'.alive n).trans (h.alive n)
  arrived key := by
    have same : members.filterMap (offered hash x state' key) =
        members.filterMap (offered hash x state key) := by
      refine List.filterMap_congr fun n hn => ?_
      have hnm : n ≠ m := fun heq => hm (heq ▸ hn)
      have hnx : n ≠ x := fun heq => hmembers (heq ▸ hn)
      have unchanged : (state' n).ring = (state n).ring := by
        rw [h.ring n, if_neg (by simpa using hnm)]
      rw [offered, offered, unchanged,
        h.kept n key hnx (fun hmem => absurd (List.mem_singleton.mp hmem) hnm)]
    rw [h'.arrived key, h.arrived key, same, ← List.foldl_append, ← List.filterMap_append]
    rfl
  kept n key hne hstays := by
    by_cases hn : n = m
    · subst hn
      rw [h'.kept n key hne fun hmem => absurd hmem hm]
      exact h.kept n key hne fun _ => hstays List.mem_cons_self
    · have unchanged : (state' n).ring = (state n).ring := by
        rw [h.ring n, if_neg (by simp [hn])]
      rw [h'.kept n key hne fun hmem => unchanged ▸ hstays (List.mem_cons_of_mem _ hmem)]
      exact h.kept n key hne fun hmem => absurd (List.mem_singleton.mp hmem) hn

variable (hash depth) in
theorem joinTransferLoop_run (reliable : env.Reliable) (hne : x ≠ m) (keys : List String)
    (nodup : keys.Nodup) (present : ∀ key ∈ keys, ∃ d, stored w.state m key = some d)
    (hstub : x ∈ (w.state m).stubs) (success : Bool) :
    ∃ w' success', exec hash env (depth + 1) m (joinTransferLoop x keys success) w =
        some (w', success') ∧ Transferred m x keys w.state w'.state := by
  induction keys generalizing w success with
  | nil => exact ⟨w, success, rfl, transferred_nil⟩
  | cons key keys ih =>
    obtain ⟨hkey, nodup⟩ := List.nodup_cons.mp nodup
    rw [List.forall_mem_cons] at present
    obtain ⟨⟨d, hd⟩, present⟩ := present
    have hstate := receive_state hash key w.next x d
    rw [joinTransferLoop, exec_bind, exec_transferKey x hstub hd, Option.bind_some,
      sendPut_reliable _ _ _ _ reliable]
    by_cases haccepts : Accepts (w.state x) key d
    · rw [if_pos (show Accepts (w.next.state x) key d from haccepts)] at hstate
      simp only [haccepts, if_true, exec_bind, exec_perform, Option.bind_some]
      have hremoved : (act hash (receive hash x key d w.next) m (.remove key)).state =
          handOver hash m x key d w.state := by
        rw [World.modify_state, hstate, handOver]
        rfl
      obtain ⟨w', success', hrun', htransferred⟩ := ih
        (w := act hash (receive hash x key d w.next) m (.remove key)) nodup
        (fun key' hmem => by
          rw [hremoved, stored_handOver_of_ne hne hd fun h => hkey (h ▸ hmem)]
          exact present key' hmem)
        (by
          rw [hremoved, (storeOnly_handOver d _).stubs m]
          exact hstub) success
      rw [hremoved] at htransferred
      exact ⟨w', success', hrun', transferred_accepted hash hne hd haccepts htransferred⟩
    · rw [if_neg (show ¬ Accepts (w.next.state x) key d from haccepts)] at hstate
      simp only [haccepts, if_false, show ¬ (1 : Int) = 0 by decide]
      obtain ⟨w', success', hrun', htransferred⟩ := ih (w := receive hash x key d w.next) nodup
        (by rw [hstate]; exact present) (by rw [hstate]; exact hstub) false
      rw [hstate] at htransferred
      exact ⟨w', success', hrun', transferred_refused hd haccepts htransferred⟩

section Member

theorem welcome_ring (n : String) : ((welcome hash env m x w).state n).ring =
    if n ∈ [m] then (w.state n).ring.addNode hash x else (w.state n).ring := by
  by_cases hn : n = m
  · subst hn
    simp [welcome, apply]
  · simp [welcome, hn]

theorem welcome_stubs (n : String) : ((welcome hash env m x w).state n).stubs =
    if n ∈ [m] then (w.state n).stubs.insert x () else (w.state n).stubs := by
  by_cases hn : n = m
  · subst hn
    simp [welcome, apply]
  · simp [welcome, hn]

theorem welcome_alive (n : String) :
    ((welcome hash env m x w).state n).alive = (w.state n).alive := by
  by_cases hn : n = m
  · subst hn
    simp [welcome, apply]
  · simp [welcome, hn]

/-- A member offers the keys that it stores without being a replica on the new ring. -/
theorem mem_joinTransferKeys_iff {key : String} {d : Data} (hd : stored w.state m key = some d) :
    key ∈ joinTransferKeys hash env m (welcome hash env m x w) ↔
      m ∉ replicas hash ((w.state m).ring.addNode hash x) key := by
  have hentry : ((welcome hash env m x w).state m).stateMachine.entry key = some d :=
    (congrFun (congrFun (stored_welcome m) m) key).trans hd
  rw [mem_joinTransferKeys, welcome_ring, if_pos (List.mem_singleton_self m),
    checkDataBelonging_eq_false_iff]
  exact ⟨fun h => h.2, fun h => ⟨⟨d, hentry⟩, h⟩⟩

variable {keys : List String} {dest : String → Option String}
variable (hmoves : Moves m (fun p key => p = x ∧ key ∈ keys) dest (stored state))
variable (hkeys : ∀ {key d}, stored state m key = some d →
  (key ∈ keys ↔ m ∉ replicas hash ((state m).ring.addNode hash x) key))

include hmoves hkeys

/-- The new node takes over what the member offers, if that is newer. -/
theorem arrived_of_moves (hne : x ≠ m) (key : String) :
    relocate m dest (stored state) x key =
      ([m].filterMap (offered hash x state key)).foldl (settle TakenOver) (stored state x key) := by
  cases hdest : dest key with
  | some p =>
    obtain ⟨rfl, hkey⟩ := hmoves.offered key p hdest
    obtain ⟨d, hd, htakes⟩ := hmoves.takes key p hdest
    have hoffered : offered hash p state key m = some d := by
      rw [offered, if_neg ((hkeys hd).mp hkey), hd]
    rw [relocate_dest hdest hne, hd, List.filterMap_cons_some hoffered]
    exact (if_pos htakes).symm
  | none =>
    rw [relocate_of_none hdest]
    cases hoffered : offered hash x state key m with
    | none =>
      rw [List.filterMap_cons_none hoffered]
      rfl
    | some d =>
      rw [List.filterMap_cons_some hoffered]
      refine (if_neg fun htakes => ?_).symm
      rw [offered] at hoffered
      split at hoffered
      · cases hoffered
      · rename_i hnot
        have := hmoves.all key x d ⟨rfl, (hkeys hoffered).mpr hnot⟩ hoffered htakes
        simp [hdest] at this

/-- The member keeps the keys of which it is still a replica. -/
theorem kept_of_moves {n key : String} (hnx : n ≠ x)
    (hstays : n = m → n ∈ replicas hash ((state n).ring.addNode hash x) key) :
    relocate m dest (stored state) n key = stored state n key := by
  cases hdest : dest key with
  | none => exact relocate_of_none hdest n
  | some p =>
    obtain ⟨rfl, hkey⟩ := hmoves.offered key p hdest
    obtain ⟨d, hd, _⟩ := hmoves.takes key p hdest
    have hnm : n ≠ m := by
      rintro rfl
      exact (hkeys hd).mp hkey (hstays rfl)
    simp [relocate, hdest, hnm, hnx]

end Member

variable (hash depth w) in
/-- One member takes the new node in. -/
theorem serveJoinNetwork_run (reliable : env.Reliable) (hne : m ≠ x) :
    ∃ w' success, exec hash env (depth + 1) m (serveJoinNetwork hash m x) w =
        some (w', .joinNetwork success) ∧ Joined hash x [m] w.state w'.state := by
  obtain ⟨w', success, hrun, hstores, dest, hstored, hmoves⟩ := joinTransferLoop_run hash depth
    (w := (welcome hash env m x w).next) reliable hne.symm
    (joinTransferKeys hash env m (welcome hash env m x w)) nodup_joinTransferKeys
    (fun key hmem => (mem_joinTransferKeys.mp hmem).1) (by simp [welcome, apply]) true
  have hsame : stored (welcome hash env m x w).next.state = stored w.state := stored_welcome m
  rw [hsame] at hstored hmoves
  refine ⟨w', success, by rw [exec_serveJoinNetwork, hrun]; rfl, ?_, ?_, ?_, ?_, ?_⟩
  · exact fun n => (hstores.ring n).trans (welcome_ring n)
  · exact fun n => (hstores.stubs n).trans (welcome_stubs n)
  · exact fun n => (hstores.alive n).trans (welcome_alive n)
  · intro key
    rw [hstored]
    exact arrived_of_moves hmoves mem_joinTransferKeys_iff hne.symm key
  · intro n key hnx hstays
    rw [hstored]
    exact kept_of_moves hmoves mem_joinTransferKeys_iff hnx fun hnm =>
      hstays (List.mem_singleton.mpr hnm)

variable (hash depth) in
/-- The members take the new node in, one after another. -/
theorem joinNetworkLoop_run (reliable : env.Reliable) (members : List String)
    (nodup : members.Nodup) (hmembers : x ∉ members) (flag : Bool) :
    ∃ w' flag', exec hash env (depth + 2) x (joinNetworkLoop x members flag) w =
        some (w', flag') ∧ Joined hash x members w.state w'.state := by
  induction members generalizing w flag with
  | nil => exact ⟨w, flag, rfl, joined_nil⟩
  | cons addr members ih =>
    obtain ⟨haddr, nodup⟩ := List.nodup_cons.mp nodup
    have hx : x ∉ members := fun h => hmembers (List.mem_cons_of_mem _ h)
    obtain ⟨w₁, success, hrun, hjoined⟩ := serveJoinNetwork_run hash depth w.next reliable
      (m := addr) (x := x) fun h => hmembers (h ▸ List.mem_cons_self)
    rw [joinNetworkLoop, exec_bind, exec_send, deliver_reliable reliable, serveOn_succ, serve,
      hrun]
    simp only [Option.map_some, Option.bind_some]
    split
    · obtain ⟨w', flag', hrun', hjoined'⟩ := ih (w := w₁) nodup hx flag
      exact ⟨w', flag', hrun', hjoined.cons haddr hx hjoined'⟩
    · obtain ⟨w', flag', hrun', hjoined'⟩ := ih (w := w₁) nodup hx false
      exact ⟨w', flag', hrun', hjoined.cons haddr hx hjoined'⟩

variable (hash depth w) in
/-- A node joins while no message is lost. -/
theorem adminJoin_run (reliable : env.Reliable) (x : String) (aliveServers : List String) :
    ∃ w₁, serveOn hash env (depth + 3) x (.adminCmd "JoinNetwork" aliveServers) w =
        some (act hash w₁ x (.setAlive true), .adminCmd true) ∧
      Joined hash x (told env x (enter hash env x aliveServers w))
        (enter hash env x aliveServers w).state w₁.state := by
  obtain ⟨w₁, flag, hrun, hjoined⟩ := joinNetworkLoop_run hash depth
    (w := (enter hash env x aliveServers w).next) reliable
    (told env x (enter hash env x aliveServers w)) nodup_told
    (fun h => ((mem_enter_stubs aliveServers).mp (mem_told.mp h)).2 rfl) true
  refine ⟨w₁, ?_, hjoined⟩
  rw [serveOn_succ, serve, exec_adminJoin, hrun]
  rfl

end JoinTransfers
