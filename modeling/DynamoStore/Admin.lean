import DynamoStore.HandlerRuns

/-!
# The admin

The admin knows the servers of its configuration, and for each of them whether the
last command that was sent to it has left it alive. Only a join carries the names
of the servers that are alive.
-/

open RpcPrograms GossipNode HandlerRuns

structure Admin where
  serverStatus : Map Bool

namespace Admin

def enumCmd : List String := ["Ping", "JoinNetwork", "LeaveNetwork"]

/-- The configured servers, none of them alive. -/
def init (config : List String) : Admin where
  serverStatus := config.foldl (fun serverStatus addr => serverStatus.insert addr false) ∅

def setStatus (admin : Admin) (addr : String) (status : Bool) : Admin where
  serverStatus := admin.serverStatus.insert addr status

/-- The servers with status true, in the order in which an iteration meets them. -/
def aliveServers (env : Env String Int64) (tick : Nat) (admin : Admin) : List String :=
  (env.order tick admin.serverStatus.keys).filter fun server =>
    admin.serverStatus.lookup server = some true

/-- Send a command to a server, and record what it answers. A command that is given up
has a handler that has ended, or none. -/
def cmd (hash : String → UInt64) (env : Env String Int64) (depth : Nat) (addr command : String)
    (admin : Admin) (w : Net) : Option (Net × Admin × Bool) :=
  if addr ∉ admin.serverStatus ∨ command ∉ enumCmd then some (w, admin, false)
  else
    let servers := if command = "JoinNetwork" then aliveServers env w.tick admin else []
    (deliver hash env depth addr (.adminCmd command servers) w.next).map fun x =>
      match x.2 with
      | some (.adminCmd success) =>
        let status := if command = "LeaveNetwork" then !success else success
        (x.1, admin.setStatus addr status, true)
      | _ => (x.1, admin.setStatus addr false, false)

/-- Commands that are sent one after another. -/
def cmds (hash : String → UInt64) (env : Env String Int64) (depth : Nat) :
    List (String × String) → Admin → Net → Option (Net × Admin)
  | [], admin, w => some (w, admin)
  | (addr, command) :: commands, admin, w =>
    (admin.cmd hash env depth addr command w).bind fun x => cmds hash env depth commands x.2.1 x.1

/-- The admin has the status true for the server. -/
def MarkedAlive (admin : Admin) (n : String) : Prop := admin.serverStatus.lookup n = some true

instance (admin : Admin) (n : String) : Decidable (admin.MarkedAlive n) :=
  inferInstanceAs (Decidable (_ = _))

variable {admin : Admin} {addr n : String} {env : Env String Int64}

theorem mem_aliveServers (tick : Nat) :
    n ∈ admin.aliveServers env tick ↔ admin.MarkedAlive n := by
  rw [aliveServers, List.mem_filter, (env.perm _ _).mem_iff, decide_eq_true_eq, MarkedAlive]
  refine ⟨fun h => h.2, fun h => ⟨?_, h⟩⟩
  exact AList.mem_keys.mp (AList.lookup_isSome.mp (by rw [h]; rfl))

theorem mem_setStatus (status : Bool) :
    n ∈ (admin.setStatus addr status).serverStatus ↔ n = addr ∨ n ∈ admin.serverStatus :=
  AList.mem_insert _

theorem markedAlive_setStatus_true :
    (admin.setStatus addr true).MarkedAlive n ↔ n = addr ∨ admin.MarkedAlive n := by
  rw [MarkedAlive, MarkedAlive, setStatus]
  by_cases hn : n = addr
  · subst hn
    simp
  · simp [AList.lookup_insert_ne hn, hn]

theorem markedAlive_setStatus_false :
    (admin.setStatus addr false).MarkedAlive n ↔ n ≠ addr ∧ admin.MarkedAlive n := by
  rw [MarkedAlive, MarkedAlive, setStatus]
  by_cases hn : n = addr
  · subst hn
    simp
  · simp [AList.lookup_insert_ne hn, hn]

theorem mem_init {config : List String} : n ∈ (init config).serverStatus ↔ n ∈ config := by
  simp [init, Map.mem_foldl_insert]

theorem not_markedAlive_init (config : List String) : ¬ (init config).MarkedAlive n := by
  have h : ∀ m : Map Bool, m.lookup n ≠ some true →
      (config.foldl (fun m addr => m.insert addr false) m).lookup n ≠ some true := by
    induction config with
    | nil => exact fun m hm => hm
    | cons addr config ih =>
      refine fun m hm => ih _ ?_
      by_cases hn : n = addr
      · subst hn
        simp
      · rw [AList.lookup_insert_ne hn]
        exact hm
  exact h ∅ (by simp)

end Admin
