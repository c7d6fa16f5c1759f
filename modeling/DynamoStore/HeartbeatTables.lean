import DynamoStore.HandlerRuns
import DynamoStore.Lib.JoinTables

/-!
# Heartbeat tables

`Gossip` takes over the later of two times for each pair of a request. A table of times
denotes a clock, a request denotes another one, and handling the request leaves their
join. So neither the order of the requests nor how often they arrive matters, and not
even how their pairs are put into requests.

Times are ticks of the clock, which are nanoseconds.
-/

namespace HeartbeatTables

open RpcPrograms GossipNode HandlerRuns VectorClocks JoinTables

local instance linearOrderInt64 : LinearOrder Int64 where
  le_refl := Int64.le_refl
  le_trans := fun _ _ _ => Int64.le_trans
  le_antisymm := fun _ _ => Int64.le_antisymm
  le_total := Int64.le_total
  lt_iff_le_not_ge := fun a b => by rw [Int64.not_le, and_iff_right_of_imp Int64.le_of_lt]
  toDecidableLE := inferInstance
  toDecidableEq := inferInstance
  toDecidableLT := inferInstance

/-- Serve one `Gossip` after the other on node `n`. -/
def gossipAll (hash : String → UInt64) (env : Env String Int64) (depth : Nat) (n : String) :
    List (List (String × Int64)) → Net → Option Net
  | [], w => some w
  | memberList :: requests, w =>
    (serveOn hash env depth n (.gossip memberList) w).bind fun x =>
      gossipAll hash env depth n requests x.1

/-- What one pair of a request does to the table. -/
def mergePair (table : Map Int64) (pair : String × Int64) : Map Int64 :=
  let own := (table.lookup pair.1).getD Int64.minValue
  table.insert pair.1 (if own < pair.2 then pair.2 else own)

theorem clockOf_mergePair (table : Map Int64) (pair : String × Int64) :
    clockOf (mergePair table pair) = clockOf table ⊔ single pair.1 pair.2 := by
  refine clockOf_insert ?_
  rw [← max_def_lt, clockOf]
  cases table.lookup pair.1 with
  | none =>
    -- the smallest time stands for an absent one
    rw [Option.getD_none, max_eq_right (Int64.minValue_le _)]
    exact (bot_sup_eq _).symm
  | some own => exact WithBot.coe_max own pair.2

section Handlers

variable {hash : String → UInt64} {env : Env String Int64} {depth : Nat} {n : String}

/-- The world with another table on node `n`, and all else as it was. -/
def withTable (n : String) (table : Map Int64) (w : Net) : Net :=
  w.modify n fun node => { node with membersHeartbeatList := table }

theorem withTable_own (w : Net) : withTable n (w.state n).membersHeartbeatList w = w := by
  rw [withTable, World.modify, Function.update_eq_self]

theorem act_withTable (w : Net) (table : Map Int64) (key : String) (time : Int64) :
    act hash (withTable n table w) n (.setHeartbeat key time) =
      withTable n (table.insert key time) w := by
  simp [act, withTable, World.modify, apply]

theorem exec_mergeHeartbeats (memberList : List (String × Int64)) (table : Map Int64) (w : Net) :
    exec hash env depth n (mergeHeartbeats memberList) (withTable n table w) =
      some (withTable n (memberList.foldl mergePair table) w, ()) := by
  induction memberList generalizing table with
  | nil => rfl
  | cons pair memberList ih =>
    have own : ((withTable n table w).state n).membersHeartbeatList = table := by
      rw [withTable, World.modify_self]
    rw [mergeHeartbeats, exec_bind, exec_read, Option.bind_some, own, exec_bind, exec_perform,
      Option.bind_some, act_withTable]
    exact ih (mergePair table pair)

theorem serveOn_gossip (memberList : List (String × Int64)) (table : Map Int64) (w : Net) :
    serveOn hash env (depth + 1) n (.gossip memberList) (withTable n table w) =
      some (withTable n (memberList.foldl mergePair table) w, .gossip true) := by
  rw [serveOn_succ, serve, serveGossip, exec_bind, exec_mergeHeartbeats, Option.bind_some,
    exec_pure]

/-- A request with nothing but times of the table itself leaves all of them. -/
theorem lookup_mergePairs_own (memberList : List (String × Int64)) (table : Map Int64)
    (own : ∀ p ∈ memberList, table.lookup p.1 = some p.2) (key : String) :
    (memberList.foldl mergePair table).lookup key = table.lookup key := by
  induction memberList generalizing table with
  | nil => rfl
  | cons pair memberList ih =>
    have same : ∀ k, (mergePair table pair).lookup k = table.lookup k := by
      intro k
      have hpair := own pair List.mem_cons_self
      rw [mergePair, hpair, Option.getD_some, if_neg Int64.lt_irrefl]
      by_cases h : k = pair.1
      · rw [h, AList.lookup_insert, hpair]
      · rw [AList.lookup_insert_ne h]
    rw [List.foldl_cons, ih, same]
    intro p hp
    rw [same]
    exact own p (List.mem_cons_of_mem _ hp)

/-- A sequence of requests is handled like one request with all their pairs. -/
theorem gossipAll_eq (requests : List (List (String × Int64))) (table : Map Int64) (w : Net) :
    gossipAll hash env (depth + 1) n requests (withTable n table w) =
      some (withTable n (requests.flatten.foldl mergePair table) w) := by
  induction requests generalizing table with
  | nil => rfl
  | cons memberList requests ih =>
    rw [gossipAll, serveOn_gossip, Option.bind_some, ih, List.flatten_cons, List.foldl_append]

end Handlers

/-- What a sequence of requests does: the tables are joined, and nothing else changes. -/
theorem gossipAll_joins (hash : String → UInt64) (env : Env String Int64) (depth : Nat)
    (n : String) (requests : List (List (String × Int64))) (w : Net) :
    ∃ table, gossipAll hash env (depth + 1) n requests w = some (withTable n table w) ∧
      clockOf table = clockOf (w.state n).membersHeartbeatList ⊔ ofList requests.flatten := by
  refine ⟨_, ?_, clockOf_foldl clockOf_mergePair _ _⟩
  conv_lhs => rw [← withTable_own (n := n) w]
  exact gossipAll_eq requests _ w

/-- The time that the table has for a node after the requests: the greatest of the initial
one and those that were received, or the epoch when there is none. -/
def Recorded (table : Map Int64) (requests : List (List (String × Int64))) (key : String)
    (time : Int64) : Prop :=
  IsGreatest {t | table.lookup key = some t ∨ ∃ memberList ∈ requests, (key, t) ∈ memberList}
      time ∨
    ((∀ t, ¬ (table.lookup key = some t ∨ ∃ memberList ∈ requests, (key, t) ∈ memberList)) ∧
      time = 0)

section Joined

variable {table table' : Map Int64} {requests : List (List (String × Int64))}

theorem lookup_iff_of_requests
    (hjoin : clockOf table' = clockOf table ⊔ ofList requests.flatten) (key : String)
    (time : Int64) : table'.lookup key = some time ↔ IsGreatest {t | table.lookup key = some t ∨
      ∃ memberList ∈ requests, (key, t) ∈ memberList} time := by
  rw [lookup_iff_of_joined hjoin]
  simp only [List.mem_flatten]

theorem recorded_of_joined (hjoin : clockOf table' = clockOf table ⊔ ofList requests.flatten)
    (key : String) : Recorded table requests key ((table'.lookup key).getD 0) := by
  cases hlookup : table'.lookup key with
  | some time => exact Or.inl ((lookup_iff_of_requests hjoin key time).mp hlookup)
  | none =>
    refine Or.inr ⟨fun t ht => ?_, rfl⟩
    have hmem : key ∈ table' := by
      rw [mem_iff_of_joined hjoin]
      simp only [List.mem_flatten]
      rcases ht with hown | ⟨memberList, hrequest, hpair⟩
      · exact Or.inl (AList.lookup_isSome.mp (Option.isSome_of_eq_some hown))
      · exact Or.inr ⟨t, memberList, hrequest, hpair⟩
    exact AList.lookup_eq_none.mp hlookup hmem

end Joined

theorem received_le_mergePairs {memberList : List (String × Int64)} {p : String × Int64}
    (hp : p ∈ memberList) (table : Map Int64) :
    p.2.toInt ≤ (((memberList.foldl mergePair table).lookup p.1).getD 0).toInt := by
  have joined : clockOf (memberList.foldl mergePair table) =
      clockOf table ⊔ ofList [memberList].flatten := by
    rw [List.flatten_singleton]
    exact clockOf_foldl clockOf_mergePair _ _
  rw [← Int64.le_iff_toInt_le]
  rcases recorded_of_joined joined p.1 with greatest | ⟨none, _⟩
  · exact greatest.2 (Or.inr ⟨memberList, List.mem_singleton_self _, hp⟩)
  · exact absurd (Or.inr ⟨memberList, List.mem_singleton_self _, hp⟩) (none p.2)

theorem gossipAll_records (hash : String → UInt64) (env : Env String Int64) (depth : Nat)
    (n : String) (requests : List (List (String × Int64))) (w : Net) :
    ∃ w', gossipAll hash env (depth + 1) n requests w = some w' ∧ ∀ key,
      Recorded (w.state n).membersHeartbeatList requests key ((w'.state n).heartbeat key) := by
  obtain ⟨table, hrun, hjoin⟩ := gossipAll_joins hash env depth n requests w
  refine ⟨_, hrun, fun key => ?_⟩
  rw [heartbeat, withTable, World.modify_self]
  exact recorded_of_joined hjoin key

/-- Each time is the greatest of the initial one and those that were received, and any
sequence of requests with the same pairs leaves the same times. -/
theorem gossips_join (hash : String → UInt64) (env : Env String Int64) (depth : Nat) (n : String)
    (w : Net) (requests : List (List (String × Int64))) :
    ∃ w', gossipAll hash env (depth + 1) n requests w = some w' ∧
      (∀ key, key ∈ (w'.state n).membersHeartbeatList ↔
        key ∈ (w.state n).membersHeartbeatList ∨
          ∃ memberList ∈ requests, ∃ time, (key, time) ∈ memberList) ∧
      (∀ key time, (w'.state n).membersHeartbeatList.lookup key = some time ↔
        IsGreatest {t | (w.state n).membersHeartbeatList.lookup key = some t ∨
          ∃ memberList ∈ requests, (key, t) ∈ memberList} time) ∧
      ∀ requests' : List (List (String × Int64)),
        (∀ pair, pair ∈ requests'.flatten ↔ pair ∈ requests.flatten) →
        ∃ w'', gossipAll hash env (depth + 1) n requests' w = some w'' ∧
          ∀ key, (w''.state n).membersHeartbeatList.lookup key =
            (w'.state n).membersHeartbeatList.lookup key := by
  obtain ⟨table, hrun, hjoin⟩ := gossipAll_joins hash env depth n requests w
  have own : ∀ table, ((withTable n table w).state n).membersHeartbeatList = table := by
    intro table
    rw [withTable, World.modify_self]
  refine ⟨_, hrun, ?_, ?_, ?_⟩
  · intro key
    rw [own, mem_iff_of_joined hjoin]
    simp only [List.mem_flatten]
    tauto
  · intro key time
    rw [own]
    exact lookup_iff_of_requests hjoin key time
  · intro requests' same
    obtain ⟨table', hrun', hjoin'⟩ := gossipAll_joins hash env depth n requests' w
    refine ⟨_, hrun', fun key => ?_⟩
    rw [own, own]
    have equal : clockOf table' = clockOf table := by
      rw [hjoin, hjoin', ofList_congr same]
    exact congrFun equal key

end HeartbeatTables
