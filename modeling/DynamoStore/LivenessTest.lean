import DynamoStore.HeartbeatTables
import DynamoStore.CoordinatorChoice

/-!
# The liveness test

A peer counts as alive while the nanoseconds since its recorded heartbeat, in whole
milliseconds, are fewer than `CHECK_ALIVE_INTERVAL`. The test bounds the difference from
above only, and the difference is taken in 64 bits: a heartbeat ahead of the clock passes
it, and so does one so old that the difference wraps around.
-/

namespace LivenessTest

open RpcPrograms GossipNode StateMachine HandlerRuns QuorumRuns CoordinatorChoice
open HeartbeatTables ClusterStores

/-- The nanoseconds from `time` to `now`, without wrapping. -/
def elapsed (now time : Int64) : Int := now.toInt - time.toInt

/-- `CHECK_ALIVE_INTERVAL` in nanoseconds. -/
def aliveNs : Int := 10000000000

section Arithmetic

variable {now time : Int64}

theorem tdiv_lt_iff (x : Int) : x.tdiv 1000000 < 10000 ↔ x < 10000000000 := by
  by_cases h : 0 ≤ x
  · rw [Int.tdiv_eq_ediv_of_nonneg h]
    omega
  · have hle : x.tdiv 1000000 ≤ (0 : Int).tdiv 1000000 := Int.tdiv_le_tdiv (by decide) (by omega)
    rw [Int.zero_tdiv] at hle
    omega

theorem durationMs_lt_iff :
    durationMs now time < checkAliveInterval ↔ (now - time).toInt < aliveNs := by
  have ms : (durationMs now time).toInt = (now - time).toInt.tdiv 1000000 :=
    Int64.toInt_div_of_ne_right _ _ (by decide)
  rw [Int64.lt_iff_toInt_lt, ms]
  exact tdiv_lt_iff _

theorem toInt_sub_iff : (now - time).toInt = elapsed now time ↔
    -2 ^ 63 ≤ elapsed now time ∧ elapsed now time < 2 ^ 63 := by
  constructor
  · intro h
    rw [← h]
    exact ⟨Int64.le_toInt _, Int64.toInt_lt _⟩
  · rintro ⟨hle, hlt⟩
    rw [Int64.toInt_sub]
    exact Int.bmod_eq_of_le hle hlt

end Arithmetic

/-- The places in the code that test node `m`, with how the program goes on if it is found
alive and if it is not. -/
inductive Site (self m : String) : {α : Type} → (p contact skip : Handler α) → Prop
  | assignedCoordinator (quorumMember : List String) :
    Site self m (assignedCoordinator (m :: quorumMember)) (pure m)
      (assignedCoordinator quorumMember)
  | clientGet (key : String) (replicaServers : List String) (successCnt tryCnt : Nat)
      (results : List Data) (other : m ≠ self) :
    Site self m (clientGetLoop self key (m :: replicaServers) successCnt tryCnt results)
      (do
        match ← peerGet m key with
        | some data =>
          if tryCnt + 1 = replicaN then return (successCnt + 1, results ++ [data])
          else
            clientGetLoop self key replicaServers (successCnt + 1) (tryCnt + 1)
              (results ++ [data])
        | none => clientGetLoop self key replicaServers successCnt (tryCnt + 1) results)
      (clientGetLoop self key replicaServers successCnt tryCnt results)
  | clientPut (key value : String) (newVersion : Version) (replicaServers : List String)
      (successCnt tryCnt : Nat) (other : m ≠ self) :
    Site self m (clientPutLoop self key value newVersion (m :: replicaServers) successCnt tryCnt)
      (do
        let res ← peerPut m key value newVersion
        if res = 0 then
          if tryCnt + 1 = replicaN then return successCnt + 1
          else
            clientPutLoop self key value newVersion replicaServers (successCnt + 1)
              (tryCnt + 1)
        else clientPutLoop self key value newVersion replicaServers successCnt (tryCnt + 1))
      (clientPutLoop self key value newVersion replicaServers successCnt tryCnt)
  | gossip (memberList : List (String × Int64)) (stubs : List String) :
    Site self m (gossipLoop memberList (m :: stubs))
      (do
        let _ ← Prog.send m (.gossip memberList)
        gossipLoop memberList stubs)
      (gossipLoop memberList stubs)

variable {hash : String → UInt64} {env : Env String Int64} {depth : Nat} {self m : String}
variable {w : Net}

theorem Site.eq_test {α : Type} {p contact skip : Handler α} (site : Site self m p contact skip) :
    p = (do
      let recent ← recentHeartbeat m
      if recent then contact else skip) := by
  cases site with
  | assignedCoordinator quorumMember => rfl
  | clientGet key replicaServers successCnt tryCnt results other =>
    rw [clientGetLoop]
    exact if_neg other
  | clientPut key value newVersion replicaServers successCnt tryCnt other =>
    rw [clientPutLoop]
    exact if_neg other
  | gossip memberList stubs => rfl

/-- All places go on after the same test. -/
theorem Site.exec_eq {α : Type} {p contact skip : Handler α} (site : Site self m p contact skip) :
    exec hash env depth self p w = if Recent env w.tick (w.state self) m then
        exec hash env depth self contact (look hash self m w)
      else exec hash env depth self skip (look hash self m w) := by
  rw [site.eq_test, exec_bind, exec_look, Option.bind_some]
  by_cases h : Recent env w.tick (w.state self) m
  · rw [decide_eq_true h, if_pos rfl, if_pos h]
  · rw [decide_eq_false h, if_neg Bool.false_ne_true, if_neg h]

/-- The test that node `n` makes of `m` is sound: the difference does not wrap around,
and whoever was not heard of in the last `CHECK_ALIVE_INTERVAL` is passed over. -/
structure SoundTest (hash : String → UInt64) (env : Env String Int64) (n m : String)
    (w : Net) : Prop where
  exact : (env.now w.tick - (w.state n).heartbeat m).toInt =
    elapsed (env.now w.tick) ((w.state n).heartbeat m)
  passes : ∀ {α : Type} (p contact skip : Handler α), Site n m p contact skip →
    ¬ (0 ≤ elapsed (env.now w.tick) ((w.state n).heartbeat m) ∧
      elapsed (env.now w.tick) ((w.state n).heartbeat m) < aliveNs) →
    ∀ depth, exec hash env depth n p w = exec hash env depth n skip (look hash n m w)

/-- Wherever node `n` tests `m`, it goes on as with a node that is alive. -/
def TreatsAlive (hash : String → UInt64) (env : Env String Int64) (n m : String) (w : Net) :
    Prop :=
  ∀ {α : Type} (p contact skip : Handler α), Site n m p contact skip →
    ∀ depth, exec hash env depth n p w = exec hash env depth n contact (look hash n m w)

/-- To be named as the coordinator is not the same as to be passed over, also if only one
other candidate follows. -/
theorem named_ne_passed (x : String) :
    exec hash env depth self (pure m) w ≠ exec hash env depth self (assignedCoordinator [x]) w := by
  rw [exec_pure, (Site.assignedCoordinator []).exec_eq]
  -- the look at the next candidate reads the clock
  have later : w ≠ look hash self x w :=
    fun heq => Nat.succ_ne_self _ (congrArg World.tick heq).symm
  split
  · exact fun heq => later (congrArg Prod.fst (Option.some.inj heq))
  · exact fun heq => later (congrArg Prod.fst (Option.some.inj heq))

theorem treatsAlive_iff :
    TreatsAlive hash env self m w ↔ Recent env w.tick (w.state self) m := by
  constructor
  · intro treats
    by_contra h
    have named := treats _ _ _ (.assignedCoordinator [""]) 0
    rw [(Site.assignedCoordinator [""]).exec_eq, if_neg h] at named
    exact named_ne_passed "" named.symm
  · intro h α p contact skip site depth
    rw [site.exec_eq, if_pos h]

theorem soundTest_iff : SoundTest hash env self m w ↔
    0 ≤ elapsed (env.now w.tick) ((w.state self).heartbeat m) ∧
      elapsed (env.now w.tick) ((w.state self).heartbeat m) < 2 ^ 63 := by
  constructor
  · intro sound
    have fits := toInt_sub_iff.mp sound.exact
    refine ⟨?_, fits.2⟩
    by_contra ahead
    have recent : Recent env w.tick (w.state self) m := by
      rw [Recent, durationMs_lt_iff, sound.exact]
      exact (Int.not_le.mp ahead).trans (by decide)
    have treats : TreatsAlive hash env self m w := treatsAlive_iff.mpr recent
    have named := treats _ _ _ (.assignedCoordinator [""]) 0
    rw [sound.passes _ _ _ (.assignedCoordinator [""]) (fun h => ahead h.1) 0] at named
    exact named_ne_passed "" named.symm
  · rintro ⟨hle, hlt⟩
    have exact := toInt_sub_iff.mpr ⟨(show (-2 ^ 63 : Int) ≤ 0 by decide).trans hle, hlt⟩
    refine ⟨exact, fun p contact skip site outside depth => ?_⟩
    rw [site.exec_eq, if_neg]
    rw [Recent, durationMs_lt_iff, exact]
    exact fun h => outside ⟨hle, h⟩

/-- Whatever was gossiped, the test of a node is sound exactly if the time recorded for it is
not ahead of the clock, and the difference fits into 64 bits. -/
theorem liveness_sound_iff (hash : String → UInt64) (env : Env String Int64) (depth : Nat)
    (n : String) (requests : List (List (String × Int64))) (w : Net) :
    ∃ w', gossipAll hash env (depth + 1) n requests w = some w' ∧ ∀ m,
      Recorded (w.state n).membersHeartbeatList requests m ((w'.state n).heartbeat m) ∧
      ∀ w'' : Net, (w''.state n).heartbeat m = (w'.state n).heartbeat m →
        (SoundTest hash env n m w'' ↔
          0 ≤ elapsed (env.now w''.tick) ((w'.state n).heartbeat m) ∧
            elapsed (env.now w''.tick) ((w'.state n).heartbeat m) < 2 ^ 63) := by
  obtain ⟨w', hrun, recorded⟩ := gossipAll_records hash env depth n requests w
  refine ⟨w', hrun, fun m => ⟨recorded m, fun w'' same => ?_⟩⟩
  rw [← same]
  exact soundTest_iff

section Samples

theorem liveness_sound_sample : ∃ w', gossipAll fourNodes calmEnv 1 "A" [[("B", -7)]]
      ⟨cluster fourNodes ["A", "B"], 0⟩ = some w' ∧ (w'.state "A").heartbeat "B" = -7 ∧
    SoundTest fourNodes calmEnv "A" "B" w' := by
  obtain ⟨w', hrun, sound⟩ := liveness_sound_iff fourNodes calmEnv 0 "A" [[("B", -7)]]
    ⟨cluster fourNodes ["A", "B"], 0⟩
  obtain ⟨w₁, hrun₁, time⟩ : ∃ x ∈ gossipAll fourNodes calmEnv 1 "A" [[("B", -7)]]
      ⟨cluster fourNodes ["A", "B"], 0⟩, (x.state "A").heartbeat "B" = -7 := by
    decide +kernel
  obtain rfl : w₁ = w' := Option.some.inj (hrun₁.symm.trans hrun)
  refine ⟨w₁, hrun, time, ((sound "B").2 w₁ rfl).mpr ?_⟩
  rw [time, show calmEnv.now w₁.tick = 0 from rfl]
  decide

/-- The clock reads 0. Node A is told a time of node B, has it alive, and is wrong. -/
def FoundAlive (time : Int64) : Prop :=
  ∃ w', gossipAll fourNodes calmEnv 1 "A" [[("B", time)]]
      ⟨cluster fourNodes ["A", "B"], 0⟩ = some w' ∧
    ((exec fourNodes calmEnv 0 "A" (assignedCoordinator ["B", "A"]) w').map fun x => x.2) =
      some "B" ∧
    ¬ (0 ≤ elapsed (calmEnv.now w'.tick) ((w'.state "A").heartbeat "B") ∧
      elapsed (calmEnv.now w'.tick) ((w'.state "A").heartbeat "B") < aliveNs) ∧
    ¬ SoundTest fourNodes calmEnv "A" "B" w'

theorem foundAlive_of_named {time : Int64}
    (named : ∃ x ∈ gossipAll fourNodes calmEnv 1 "A" [[("B", time)]]
      ⟨cluster fourNodes ["A", "B"], 0⟩,
      ((exec fourNodes calmEnv 0 "A" (assignedCoordinator ["B", "A"]) x).map fun x => x.2) =
        some "B" ∧ (x.state "A").heartbeat "B" = time)
    (outside : ¬ (0 ≤ elapsed 0 time ∧ elapsed 0 time < 2 ^ 63)) : FoundAlive time := by
  obtain ⟨w', hrun, hnamed, hrecorded⟩ := named
  have hnow : calmEnv.now w'.tick = 0 := rfl
  refine ⟨w', hrun, hnamed, ?_, ?_⟩
  · rw [hrecorded, hnow]
    exact fun h => outside ⟨h.1, h.2.trans (by decide)⟩
  · rw [soundTest_iff, hrecorded, hnow]
    exact outside

/-- A time one hour ahead of the clock, or the least of all times. -/
theorem silent_node_found_alive : FoundAlive 3600000000000 ∧ FoundAlive Int64.minValue := by
  constructor
  · exact foundAlive_of_named (by decide +kernel) (by decide)
  · exact foundAlive_of_named (by decide +kernel) (by decide)

end Samples

end LivenessTest
