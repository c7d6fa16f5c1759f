import DynamoStore.AcknowledgedCopies
import DynamoStore.KeyValueStoreClient

/-!
# Two stamps of one put

The coordinator stamps a put with its own name. The client stamps its cached version
with the name in the response, which is the first candidate found alive. The two are
the same server only if the node that served the put is that candidate.
-/

namespace StampAgreement

open RpcPrograms GossipNode StateMachine VectorClocks KeyValueStoreClient
open ClusterStores HandlerRuns QuorumRuns CoordinatorChoice AcknowledgedCopies

variable {hash : String → UInt64} {env : Env String Int64} {depth : Nat}

/-- The coordinator that `ClientPut` names. -/
theorem serveClientPut_names {self key : String} {data : Data} {w w' : Net} {ret : PutReturn}
    {coordinator : String} (answer : serveOn hash env (depth + 1) self (.clientPut key data) w =
      some (w', .clientPut ret coordinator)) (m : String) :
    coordinator = m ↔
      FirstRecent env (w.state self) w.tick (candidates hash (w.state self).ring key) m ∨
        (m = "" ∧
          NoneRecent env (w.state self) w.tick (candidates hash (w.state self).ring key)) := by
  obtain ⟨w₁, named, hcoordinator, _, _, names⟩ := assignedCoordinator_names hash env depth self
    (candidates hash (w.state self).ring key) w
  rw [serveOn_succ, serve, serveClientPut, exec_bind, exec_read, Option.bind_some, exec_bind,
    hcoordinator, Option.bind_some] at answer
  split at answer
  · cases answer
    exact names m
  · obtain ⟨⟨w₂, successCnt⟩, _, hanswer⟩ := Option.bind_eq_some_iff.mp
      ((exec_bind _ _).symm.trans answer)
    cases hanswer
    exact names m

/-- A put of a client is answered with OK by node `self`. At least `W_COUNT` nodes store
the value with the stamp of `self`. The response names `self`, so that the client caches
the same clock, exactly if the first candidate that `self` finds alive is `self`. -/
theorem stamps_agree_iff (client : KeyValueStoreClient) {key value self coordinator : String}
    {w w' : Net} (assigned : client.assignedCoordinator = self) (hstub : self ∈ client.stubs)
    (answer : deliver hash env (depth + 2) self
      (.clientPut key (value, client.stateMachine.getVersion key)) w =
        some (w', some (.clientPut .ok coordinator))) (attempts : Nat) :
    ∃ client', runBeside hash env (depth + 2) (putRetry key value (attempts + 1)) client w =
        some (client', w', some true) ∧
      (∃ replicas : List String, replicas.Nodup ∧ wCount ≤ replicas.length ∧ ∀ m ∈ replicas,
        stored w'.state m key =
          some (value, updateVersion (client.stateMachine.getVersion key) self)) ∧
      ((coordinator = self ∧ SameClock (client'.stateMachine.getVersion key)
          (updateVersion (client.stateMachine.getVersion key) self)) ↔
        FirstRecent env (w.state self) (w.tick + 1)
            (candidates hash (w.state self).ring key) self ∨
          (self = "" ∧ NoneRecent env (w.state self) (w.tick + 1)
            (candidates hash (w.state self).ring key))) := by
  subst assigned
  have served := serveOn_of_deliver answer
  obtain ⟨counted, counts, enough⟩ := serveClientPut_counts served
  refine ⟨_, runBeside_putRetry_ok attempts hstub answer,
    ⟨counted, counts.nodup, enough.mp rfl, counts.copies⟩, ?_⟩
  have cached : (change (.put key value (updateVersion (client.stateMachine.getVersion key)
      coordinator)) client).stateMachine.getVersion key =
      updateVersion (client.stateMachine.getVersion key) coordinator :=
    getVersion_put _ _
  have names := serveClientPut_names served client.assignedCoordinator
  rw [cached, ← show w.next.tick = w.tick + 1 from rfl, ← World.next_state w, ← names]
  constructor
  · exact fun h => h.1
  · rintro rfl
    exact ⟨rfl, SameClock.refl _⟩

section ThreeNodes

/-- A client that has cached nothing, with a stub of one node. -/
def newClient (addr : String) : KeyValueStoreClient :=
  ⟨(∅ : Map Unit).insert addr (), addr, .empty⟩

theorem stamps_agree_sample :
    ∃ client w', runBeside fourNodes calmEnv 2 (putRetry "k" "v" 1) (newClient "A")
        ⟨cluster fourNodes ["A", "B", "C"], 0⟩ = some (client, w', some true) ∧
      SameClock (client.stateMachine.getVersion "k") [("A", 1)] := by
  obtain ⟨⟨w', reply⟩, hanswer, rfl⟩ : ∃ x ∈ deliver fourNodes calmEnv 2 "A"
      (.clientPut "k" ("v", (newClient "A").stateMachine.getVersion "k"))
      ⟨cluster fourNodes ["A", "B", "C"], 0⟩, x.2 = some (.clientPut .ok "A") := by
    decide +kernel
  obtain ⟨client, hrun, _, hiff⟩ := stamps_agree_iff (newClient "A") rfl
    (by decide +kernel) hanswer 0
  exact ⟨client, w', hrun, (hiff.mpr (Or.inl ⟨0, by decide +kernel, by decide +kernel,
    fun j hj => absurd hj (Nat.not_lt_zero j)⟩)).2⟩

/-- Node B serves the put and stamps it B:1, but finds node A alive first. The client
caches A:1, which no node stores. -/
theorem stamps_differ :
    ∃ client w', runBeside fourNodes calmEnv 2 (putRetry "k" "v" 1) (newClient "B")
        ⟨cluster fourNodes ["A", "B", "C"], 0⟩ = some (client, w', some true) ∧
      client.stateMachine.getVersion "k" = [("A", 1)] ∧
      (∀ m ∈ ["A", "B", "C"], stored w'.state m "k" = some ("v", [("B", 1)])) ∧
      ¬ SameClock [("A", (1 : UInt64))] [("B", 1)] := by
  obtain ⟨⟨client, w', done⟩, hrun, hdone, hcached, hstored⟩ :
      ∃ x ∈ runBeside fourNodes calmEnv 2 (putRetry "k" "v" 1) (newClient "B")
        ⟨cluster fourNodes ["A", "B", "C"], 0⟩, x.2.2 = some true ∧
        x.1.stateMachine.getVersion "k" = [("A", 1)] ∧
        ∀ m ∈ ["A", "B", "C"], stored x.2.1.state m "k" = some ("v", [("B", 1)]) := by
    decide +kernel
  subst hdone
  exact ⟨client, w', hrun, hcached, hstored, by decide⟩

end ThreeNodes

end StampAgreement
