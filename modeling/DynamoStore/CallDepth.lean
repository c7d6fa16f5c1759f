import DynamoStore.HandlerEffects
import DynamoStore.Lib.CallRanks
import DynamoStore.HandlerRuns
import DynamoStore.ClusterStores
import DynamoStore.Lib.RpcSchedules

/-!
# How deep calls are nested

A handler waits for the nodes that it calls, and these may wait for others. An admin command
waits for joins, and these for transfers of keys, which wait for nobody; a client's request
only waits for a peer. So requests never wait for each other in a circle, and three handlers
on top of each other are as many as there ever are.
-/

namespace CallDepth

open RpcPrograms RpcInterleaving RpcSchedules GossipNode HandlerRuns HandlerEffects Effects
open CallRanks ClusterStores

/-- Requests are only sent for requests of a higher rank. -/
def rank (_ : String) : Request → Nat
  | .adminCmd .. => 2
  | .joinNetwork _ | .clientGet _ | .clientPut .. | .mainLoopTurn => 1
  | .leaveNetwork _ | .gossip _ | .peerGet _ | .peerPut .. => 0

theorem rank_lt_of_sends {hash : String → UInt64} {reads : GossipNode → Prop} {self dst : String}
    {q q' : Request} (h : Sends hash reads self q dst q') : rank dst q' < rank self q := by
  cases q with
  | clientGet key | clientPut key data =>
    rw [h.1]
    exact Nat.one_pos
  | joinNetwork _ | mainLoopTurn =>
    cases q' with
    | peerPut _ _ | gossip _ => exact Nat.one_pos
    | _ => exact False.elim h
  | adminCmd _ _ =>
    cases q' with
    | joinNetwork _ => exact Nat.one_lt_two
    | leaveNetwork _ | peerPut _ _ => exact Nat.two_pos
    | _ => exact False.elim h
  | _ => exact False.elim h

theorem rank_lt_three (n : String) (q : Request) : rank n q < 3 := by
  cases q <;> simp [rank]

/-- However requests are interleaved, at most three handlers are on top of each other; and a
run of a single request is the same for every bound on the depth from three on. -/
theorem calls_nest_three (hash : String → UInt64) :
    (∀ (allowed : String → Request → Prop) (ok : String → Request → Action → GossipNode → Prop)
        (state : String → GossipNode) (c : Config String GossipNode Action Request Reply Int64),
      Reach (apply hash) (serve hash) allowed ok (.start state) c →
        ∀ stack ∈ c.threads, stack.length ≤ 3) ∧
      ∀ (env : Env String Int64) (depth : Nat) (n : String) (q : Request) (w : Net),
        serveOn hash env (depth + 3) n q w = serveOn hash env 3 n q w := by
  have kept : ∀ ok, Kept (table hash (fun _ _ => True) (fun _ _ => True) True) (apply hash)
      (serve hash) ok := fun ok =>
    kept_table (fun _ _ _ _ _ _ => Or.inl trivial) (fun _ _ _ _ _ _ => trivial)
      fun _ _ _ _ _ _ _ _ => trivial
  have descends : ∀ n q dst q', True → Sends hash (fun _ => True) n q dst q' →
      rank dst q' < rank n q := fun _ _ _ _ _ h => rank_lt_of_sends h
  refine ⟨fun allowed ok state c hreach stack hstack => ?_, fun env depth n q w => ?_⟩
  · have within := (kept ok).reach (fun _ _ _ => trivial) hreach
      (configWithin_start fun _ => trivial)
    have stacked := stacked_of_reach hreach (by simp [Config.start]) stack hstack
    exact stacked.length_le descends (within.frames stack hstack) rank_lt_three
  · exact handle_eq_of_rank descends (kept fun _ _ _ _ => True)
      (fun _ _ _ _ => trivial) ((rank_lt_three n q).trans_le (Nat.le_add_left 3 depth))
      (rank_lt_three n q) trivial fun _ => trivial

section Samples

/-- Node B joins, node D is displaced by it, and sends it the key. -/
theorem calls_nest_three_sample :
    ∃ c : Config String GossipNode Action Request Reply Int64,
      Reach (apply fourNodes) (serve fourNodes) (fun _ _ => True) (fun _ _ _ _ => True)
        (.start (holding fourNodes ["A", "C", "D"] ["A", "C", "D"] "k" ("v", [("A", 1)]))) c ∧
      (∃ stack ∈ c.threads, stack.length = 3) ∧ ∀ stack ∈ c.threads, stack.length ≤ 3 := by
  obtain ⟨c, hplay, hdeep⟩ : ∃ c ∈ play (apply fourNodes) (serve fourNodes) (fun _ _ => True)
      (fun _ _ _ _ => True) (fun _ _ _ _ _ => True)
      [.issue "B" (.adminCmd "JoinNetwork" ["D"]), .turn 0 (.segment 0), .turn 0 .invoke,
        .turn 0 (.segment 0), .turn 0 .invoke]
      (.start (holding fourNodes ["A", "C", "D"] ["A", "C", "D"] "k" ("v", [("A", 1)]))),
      ∃ stack ∈ c.threads, stack.length = 3 := by
    decide +kernel
  have hreach := (reach_of_play _ hplay).reach
  exact ⟨c, hreach, hdeep, (calls_nest_three fourNodes).1 _ _ _ c hreach⟩

end Samples

end CallDepth
