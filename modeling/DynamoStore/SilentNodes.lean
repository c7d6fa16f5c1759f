import DynamoStore.HandlerEffects
import DynamoStore.Lib.RpcInterleaving
import DynamoStore.Lib.RpcSchedules
import DynamoStore.LivenessTest

/-!
# Servers that have fallen silent

A time for a server comes from a clock: its own when it gossips, or that of a server that it
joins. All others pass on times that they were told. So old times may go around for as long
as they like, in whatever order: once the clocks have stamped a server for the last time, no
later time for it appears anywhere, and ten seconds after this stamp it is passed over by all.
-/

namespace SilentNodes

open RpcPrograms RpcInterleaving RpcSchedules GossipNode HandlerEffects Effects
open HandlerRuns QuorumRuns CoordinatorChoice LivenessTest ClusterStores

variable (bound : String → Int64)

/-- A time that the clocks may have given the server `m`, up to its last stamp. -/
def InTime (m : String) (time : Int64) : Prop := 0 ≤ time ∧ time ≤ bound m

/-- The times that a request carries. -/
def carried : Request → List (String × Int64)
  | .gossip memberList => memberList
  | _ => []

/-- The time that an action sets. -/
def given : Action → List (String × Int64)
  | .setHeartbeat m time => [(m, time)]
  | _ => []

def Timely (q : Request) : Prop := ∀ pair ∈ carried q, InTime bound pair.1 pair.2

/-- What handlers stamp servers with is in time. The handler of `Gossip` does not stamp, it
is told the times. -/
def StampsInTime (_ : String) (q : Request) (a : Action) (_ : GossipNode) : Prop :=
  q = .gossip (carried q) ∨ ∀ pair ∈ given a, InTime bound pair.1 pair.2

instance (m : String) (time : Int64) : Decidable (InTime bound m time) :=
  inferInstanceAs (Decidable (_ ∧ _))

instance (q : Request) : Decidable (Timely bound q) :=
  inferInstanceAs (Decidable (∀ pair ∈ carried q, _))

instance (n : String) (q : Request) (a : Action) (node : GossipNode) :
    Decidable (StampsInTime bound n q a node) := inferInstanceAs (Decidable (_ ∨ _))

def Recorded (node : GossipNode) : Prop :=
  ∀ m time, node.membersHeartbeatList.lookup m = some time → InTime bound m time

section Tables

variable {bound} {hash : String → UInt64} {m : String} {time : Int64} {node : GossipNode}

theorem recorded_insert (recorded : Recorded bound node) (h : InTime bound m time) :
    Recorded bound
      { node with membersHeartbeatList := node.membersHeartbeatList.insert m time } := by
  intro m' time' hlookup
  by_cases hm : m' = m
  · subst hm
    rw [AList.lookup_insert] at hlookup
    rwa [← Option.some.inj hlookup]
  · rw [AList.lookup_insert_ne hm] at hlookup
    exact recorded m' time' hlookup

theorem Recorded.heartbeat (recorded : Recorded bound node) (epoch : ∀ m, 0 ≤ bound m)
    (m : String) : InTime bound m (node.heartbeat m) := by
  rw [GossipNode.heartbeat]
  cases hlookup : node.membersHeartbeatList.lookup m with
  | none => exact ⟨Int64.le_refl 0, epoch m⟩
  | some time => exact recorded m time hlookup

/-- No action brings in another time, if its stamps are in time. -/
theorem recorded_apply (epoch : ∀ m, 0 ≤ bound m) (a : Action) (recorded : Recorded bound node)
    (stamps : ∀ pair ∈ given a, InTime bound pair.1 pair.2) :
    Recorded bound (apply hash a node) := by
  cases a with
  | setHeartbeat m time => exact recorded_insert recorded (stamps _ List.mem_cons_self)
  | touchHeartbeat m => exact recorded_insert recorded (recorded.heartbeat epoch m)
  | eraseHeartbeat m =>
    intro m' time' hlookup
    by_cases hm : m' = m
    · subst hm
      rw [apply, AList.lookup_erase] at hlookup
      exact absurd hlookup (Option.some_ne_none _).symm
    · rw [apply, AList.lookup_erase_ne hm] at hlookup
      exact recorded m' time' hlookup
  | _ => exact recorded

theorem timely_of_sends (epoch : ∀ m, 0 ≤ bound m) {self dst : String} {q q' : Request}
    (h : Sends hash (Recorded bound) self q dst q') : Timely bound q' := by
  cases q with
  | clientGet key | clientPut key data =>
    rw [h.1]
    exact List.forall_mem_nil _
  | mainLoopTurn =>
    cases q' with
    | gossip memberList =>
      -- the times are those in the table of the node
      obtain ⟨_, node, recorded, times⟩ := h
      intro pair hpair
      rw [times pair hpair]
      exact recorded.heartbeat epoch pair.1
    | _ => exact False.elim h
  | _ =>
    cases q' with
    | gossip _ => exact False.elim h
    | _ => exact List.forall_mem_nil _

/-- The later of two times that are in time is in time. -/
theorem inTime_later {pair : String × Int64} (recorded : Recorded bound node)
    (told : InTime bound pair.1 pair.2) : InTime bound pair.1 (later node pair) := by
  rw [later]
  split
  · exact told
  · rename_i hlt
    cases hlookup : node.membersHeartbeatList.lookup pair.1 with
    | some own => exact recorded pair.1 own hlookup
    | none =>
      -- a received time is not the minimum, so it is later than no time at all
      rw [hlookup] at hlt
      exact absurd (Int64.lt_of_lt_of_le (by decide) told.1) hlt

theorem kept (epoch : ∀ m, 0 ≤ bound m) :
    Kept (table hash (fun _ => Timely bound) (fun _ => Recorded bound) True) (apply hash)
      (serve hash) (StampsInTime bound) := by
  refine kept_table (fun _ _ _ _ _ _ => Or.inl trivial)
    (fun _ _ _ _ _ hsends => timely_of_sends epoch hsends)
    fun n q a node timely does stamps recorded => recorded_apply epoch a recorded ?_
  refine stamps.elim (fun hgossip => ?_) fun h => h
  rw [hgossip] at does
  cases a with
  | setHeartbeat m time =>
    obtain ⟨pair, hpair, rfl, node', recorded', rfl⟩ := does
    rw [given, List.forall_mem_singleton]
    exact inTime_later recorded' (timely pair hpair)
  | _ => exact List.forall_mem_nil _

end Tables

/-- Wherever node `n` tests `m`, it goes on as with a node that is not alive. -/
def PassesOver (hash : String → UInt64) (env : Env String Int64) (n m : String) (w : Net) :
    Prop :=
  ∀ ⦃α : Type⦄ (p contact skip : Handler α), Site n m p contact skip →
    ∀ depth, exec hash env depth n p w = exec hash env depth n skip (look hash n m w)

section Runs

variable {bound} {hash : String → UInt64} {n m : String}

theorem passesOver_of_late {env : Env String Int64} {w : Net}
    (recorded : InTime bound m ((w.state n).heartbeat m))
    (late : (bound m).toInt + aliveNs ≤ (env.now w.tick).toInt) : PassesOver hash env n m w := by
  obtain ⟨hle, hbound⟩ := recorded
  rw [Int64.le_iff_toInt_le] at hle hbound
  have since : aliveNs ≤ elapsed (env.now w.tick) ((w.state n).heartbeat m) := by
    rw [elapsed]
    omega
  have fits : elapsed (env.now w.tick) ((w.state n).heartbeat m) < 2 ^ 63 := by
    have := Int64.toInt_lt (env.now w.tick)
    rw [Int64.toInt_zero] at hle
    rw [elapsed]
    omega
  have exact := toInt_sub_iff.mpr ⟨(show -2 ^ 63 ≤ aliveNs by decide).trans since, fits⟩
  intro α p contact skip site depth
  rw [site.exec_eq, if_neg]
  rw [Recent, durationMs_lt_iff, exact]
  exact Int.not_lt.mpr since

/-- However handlers are interleaved, and gossip lost or late: no node ever has a time for a
server that is later than the last stamp the server was given, and ten seconds after this stamp
every node passes it over, whomever it heard from since. -/
theorem silent_passed_over (epoch : ∀ m, 0 ≤ bound m) {allowed : String → Request → Prop}
    (timely : ∀ n q, allowed n q → Timely bound q) {state : String → GossipNode}
    (recorded : ∀ n, Recorded bound (state n))
    {c : Config String GossipNode Action Request Reply Int64}
    (hreach : Reach (apply hash) (serve hash) allowed (StampsInTime bound) (.start state) c) :
    (∀ n m, InTime bound m ((c.shared.state n).heartbeat m)) ∧
      ∀ (env : Env String Int64) (tick : Nat) (n m : String),
        (bound m).toInt + aliveNs ≤ (env.now tick).toInt →
        PassesOver hash env n m ⟨c.shared.state, tick⟩ := by
  have within := (kept epoch).reach timely hreach (configWithin_start recorded)
  have times : ∀ n m, InTime bound m ((c.shared.state n).heartbeat m) := fun n m =>
    (within.states n).heartbeat epoch m
  exact ⟨times, fun env tick n m late => passesOver_of_late (times n m) late⟩

/-- The clocks stamp no server after second 6. -/
def sixSeconds (_ : String) : Int64 := 6000000000

/-- Clocks that show second 16. -/
def lateEnv : Env String Int64 := { calmEnv with now := fun _ => 16000000000 }

/-- Node B gossips a last time in second 6, which A records; from second 16 on, A does not
name B as a coordinator. -/
theorem silent_passed_over_sample :
    ∃ c : Config String GossipNode Action Request Reply Int64,
      (c.shared.state "A").heartbeat "B" = 6000000000 ∧
        InTime sixSeconds "B" ((c.shared.state "B").heartbeat "B") ∧
        PassesOver twoNodes lateEnv "A" "B" ⟨c.shared.state, 0⟩ := by
  obtain ⟨c, hplay, htime⟩ : ∃ c ∈ play (apply twoNodes) (serve twoNodes)
      (fun _ q => Timely sixSeconds q) (StampsInTime sixSeconds) (fun _ _ _ _ _ => True)
      [.issue "B" .mainLoopTurn, .turn 0 (.segment 6000000000), .turn 0 .invoke,
        .turn 0 (.segment 6000000000)] (.start (cluster twoNodes ["A", "B"])),
      (c.shared.state "A").heartbeat "B" = 6000000000 := by
    decide +kernel
  have epoch : ∀ m, 0 ≤ sixSeconds m :=
    fun _ => Int64.le_of_lt (by decide : (0 : Int64) < 6000000000)
  have start : ∀ n, Recorded sixSeconds (cluster twoNodes ["A", "B"] n) := fun n m time h =>
    absurd h (by simp [cluster])
  obtain ⟨times, passes⟩ := silent_passed_over epoch (fun _ _ h => h) start
    (reach_of_play _ hplay).reach
  exact ⟨c, htime, times "B" "B", passes lateEnv 0 "A" "B" (by decide)⟩

end Runs

end SilentNodes
