import DynamoStore.MissingStubs
import DynamoStore.KeyIsolation
import DynamoStore.CallDepth

/-!
# Progress while the membership stays

A node crashes when it calls through a missing stub, and a request waits for the nodes that
its handler calls. As long as no request changes the membership, the rings and the stubs stay
as they are. If the stubs then cover the rings, nothing crashes and nothing waits for ever:
from wherever a run has got, all open requests can be answered.
-/

namespace SteadyProgress

open RpcPrograms RpcInterleaving RpcSchedules GossipNode HandlerRuns HandlerEffects Effects
open CallRanks CallDepth KeyIsolation MissingStubs RingOwners ClusterStores

/-- The ring and the stubs are those of the given states. -/
def Unmoved (state : String → GossipNode) (n : String) (node : GossipNode) : Prop :=
  node.ring = (state n).ring ∧ node.stubs = (state n).stubs

/-- Every node has a stub for each other owner on its ring. -/
def Covered (state : String → GossipNode) : Prop :=
  ∀ n id, OwnsPosition (state n) id → id ≠ n → id ∈ (state n).stubs

variable {hash : String → UInt64} {state : String → GossipNode} {n dst key : String}
variable {q q' : Request}

theorem stub_of_replica (covered : Covered state) (h : Replica hash (Unmoved state n) key dst)
    (other : dst ≠ n) : dst ∈ (state n).stubs := by
  obtain ⟨node, ⟨hring, _⟩, hdst⟩ := h
  rw [hring, getReplicasNodes_eq] at hdst
  exact covered n dst (mem_owners.mp (List.mem_of_mem_take hdst)) other

/-- Requests are only sent to nodes that there is a stub for. -/
theorem stub_of_sends (covered : Covered state) (steady : ¬ MovesMembers q)
    (h : Sends hash (Unmoved state n) n q dst q') : dst ∈ (state n).stubs := by
  cases q with
  | clientGet _ | clientPut _ _ => exact stub_of_replica covered h.2.1 h.2.2
  | joinNetwork _ => exact absurd trivial steady
  | adminCmd _ _ =>
    cases q' with
    | joinNetwork _ => exact absurd (Or.inr h.1) steady
    | leaveNetwork _ | peerPut _ _ => exact absurd (Or.inl h.1) steady
    | _ => exact False.elim h
  | mainLoopTurn =>
    cases q' with
    | gossip _ =>
      obtain ⟨node, ⟨_, hstubs⟩, hdst⟩ := h.1
      rwa [hstubs] at hdst
    | _ => exact False.elim h
  | _ => exact False.elim h

variable (hash) in
/-- While the membership stays, no handler crashes. -/
theorem kept (covered : Covered state) (ok : String → Request → Action → GossipNode → Prop) :
    Kept (table hash (fun _ q => ¬ MovesMembers q) (Unmoved state) False) (apply hash) (serve hash)
      ok := by
  refine kept_table (fun n q dst q' steady hsends => Or.inr fun node unmoved => ?_)
    (fun n q dst q' steady hsends moves => steady (movesMembers_of_sends hsends moves))
    fun n q a node steady does _ unmoved => ?_
  · rw [unmoved.2]
    exact stub_of_sends covered steady hsends
  · obtain ⟨hring, hstubs, _⟩ := members_of_does hash node steady does
    exact ⟨hring.trans unmoved.1, hstubs.trans unmoved.2⟩

/-- Whatever was interleaved, lost and served late before: no handler has crashed, all open
requests can be brought to their replies without any new one, and a new request that comes alone
is answered, however many of the messages for it are lost. -/
theorem steady_progress (covered : Covered state) {allowed : String → Request → Prop}
    (steady : ∀ n q, allowed n q → ¬ MovesMembers q)
    {c : Config String GossipNode Action Request Reply Int64}
    (hreach : Reach (apply hash) (serve hash) allowed (fun _ _ _ _ => True) (.start state) c) :
    (∀ stack ∈ c.threads, ∀ f ∈ stack, f.prog ≠ .crash) ∧
      (∃ c' answered, GoesOn (apply hash) (serve hash) (fun _ _ _ _ => True) c c' ∧
        c'.threads = [] ∧ c'.finished = answered ++ c.finished ∧
        c.threads.reverse.map outermost = answered.map fun x => some (x.1, x.2.1)) ∧
      ∀ (env : Env String Int64) (tick : Nat) (n : String) (q : Request), ¬ MovesMembers q →
        (serveOn hash env 3 n q ⟨c.shared.state, tick⟩).isSome := by
  have descends : ∀ n q dst q', ¬ MovesMembers q → Sends hash (Unmoved state n) n q dst q' →
      rank dst q' < rank n q := fun _ _ _ _ _ h => rank_lt_of_sends h
  have within := (kept hash covered fun _ _ _ _ => True).reach steady hreach
    (configWithin_start fun n => ⟨rfl, rfl⟩)
  refine ⟨fun stack hstack f hf hcrash => ?_, ?_, fun env tick n q hq => ?_⟩
  · have hwithin := (within.frames stack hstack f hf).within
    rw [hcrash] at hwithin
    exact hwithin
  · exact can_complete descends (kept hash covered _) (fun _ _ _ _ => trivial) id
      within (stacked_of_reach hreach (by simp [Config.start]))
  · exact handle_isSome descends (kept hash covered fun _ _ _ _ => True)
      (fun _ _ _ _ => trivial) id (rank_lt_three n q) hq within.states

section Samples

theorem covered_cluster {members : List String}
    (positions : ∀ x ∈ (ringWith hash members).ring.entries, x.2 ∈ members) :
    Covered (cluster hash members) := by
  rintro n id ⟨p, hp⟩ other
  rw [cluster] at hp
  split at hp
  · rename_i hn
    exact mem_cluster_stubs.mpr ⟨hn, positions _ hp, other⟩
  · cases hp

/-- A put of a client has come to node A, which waits for node B. -/
theorem steady_progress_sample :
    ∃ c c' : Config String GossipNode Action Request Reply Int64,
      c.threads.map List.length = [2] ∧
        GoesOn (apply fourNodes) (serve fourNodes) (fun _ _ _ _ => True) c c' ∧
          c'.threads = [] := by
  obtain ⟨c, hplay, hopen⟩ : ∃ c ∈ play (apply fourNodes) (serve fourNodes)
      (fun _ q => q = .clientPut "k" ("v", [])) (fun _ _ _ _ => True) (fun _ _ _ _ _ => True)
      [.issue "A" (.clientPut "k" ("v", [])), .turn 0 (.segment 0), .turn 0 .invoke]
      (.start (cluster fourNodes ["A", "B", "C", "D"])), c.threads.map List.length = [2] := by
    decide +kernel
  obtain ⟨_, ⟨c', _, hgoes, hthreads, _⟩, _⟩ :=
    steady_progress (covered_cluster (by decide +kernel)) (fun _ _ hq => by subst hq; exact id)
      (reach_of_play _ hplay).reach
  exact ⟨c, c', hopen, hgoes, hthreads⟩

end Samples

end SteadyProgress
