import DynamoStore.QuorumRuns
import DynamoStore.ReadFilter

/-!
# A get after an acknowledged put

The put tries every server that the get reads. The get then returns the put, or
something causally newer, unless none of these servers has it, or all that have it
are outdone in the filter by an entry against which it is judged earlier; that
verdict does not ask whether the earlier clock names more servers.
-/

namespace ReadAfterWrite

open RpcPrograms GossipNode StateMachine
open ClusterStores HandlerRuns QuorumRuns ReadFilter

/-- What a get reads on a server after the put was tried there. -/
def landed (outcome : String → Fate) (self key : String) (d : Data)
    (state : String → GossipNode) (m : String) : Data :=
  (landing outcome self key d state m).getD (noValue, [])

/-- A put is acknowledged, and a get follows whose calls are all answered. The get
returns the put or something causally newer, if and only if some server of the
quorum has such an entry which no other one outdoes. -/
theorem read_after_write_iff {hash : String → UInt64} {envPut envGet : Env String Int64}
    {outcome : String → Fate} {alive : String → Bool} {members : Set String}
    {r : ConsistentHashingRing} {w w' w'' : Net} (fates : ∀ i dst, envPut.fate i dst = outcome dst)
    (reliable : envGet.Reliable) (agree : Agree envPut alive members r w.state)
    (agree' : Agree envGet alive members r w.state) {p g : String} (hp : p ∈ members)
    (hg : g ∈ members) {key value coordinator coordinator' : String} {context : Version}
    {results : List Data}
    (put : serveOn hash envPut 2 p (.clientPut key (value, context)) w =
      some (w', .clientPut .ok coordinator))
    (get : serveOn hash envGet 2 g (.clientGet key) w' =
      some (w'', .clientGet results coordinator')) :
    (∃ e ∈ results, Covers (value, updateVersion context p) e) ↔
      ∃ m ∈ quorum hash r alive key,
        Covers (value, updateVersion context p)
          (landed outcome p key (value, updateVersion context p) w.state m) ∧
        ∀ m' ∈ quorum hash r alive key, ¬ checkConflictVersion
          (landed outcome p key (value, updateVersion context p) w.state m).2
          (landed outcome p key (value, updateVersion context p) w.state m').2 < 0 := by
  obtain ⟨ring, sees⟩ := agree p hp
  have hself : p ∈ candidates hash r key := by
    by_contra hnot
    obtain ⟨_, _, hrefused, _⟩ := clientPut_refused 1 sees ring hnot
      (value, context)
    cases put.symm.trans hrefused
  rcases clientPut_run hash 0 key fates sees ring hself value context with
    ⟨hcrash, _⟩ | ⟨w₁, ret, _, hrun, view, hlanded⟩
  · rw [hcrash] at put
    cases put
  · cases put.symm.trans hrun
    obtain ⟨ring', sees'⟩ := view.agree agree' g hg
    rcases clientGet_run hash 0 key reliable sees' ring' with
      ⟨hcrash, _⟩ | ⟨w₂, recent, hrun', _, _⟩
    · rw [hcrash] at get
      cases get
    · rw [hrun'] at get
      have hresults : results = getLatestData ((quorum hash r alive key).map
          (reads w'.state key)) := by
        split at get
        · cases get
          rfl
        · cases get
      have hreads : (quorum hash r alive key).map (reads w'.state key) =
          (quorum hash r alive key).map
            (landed outcome p key (value, updateVersion context p) w.state) := by
        refine List.map_congr_left fun m hm => ?_
        rw [reads, hlanded m hm, landed]
      rw [hresults, hreads]
      exact exists_mem_getLatestData_map

section Samples

/-- A put on empty stores is read back. -/
theorem read_after_write_sample :
    ∃ (w' w'' : Net) (results : List Data),
      serveOn fourNodes calmEnv 2 "B" (.clientPut "k" ("v", [("A", 1)]))
        ⟨holding fourNodes ["A", "B", "C"] [] "k" ("w", [("A", 2)]), 0⟩ =
          some (w', .clientPut .ok "A") ∧
      serveOn fourNodes calmEnv 2 "C" (.clientGet "k") w' =
        some (w'', .clientGet results "A") ∧
      ∃ e ∈ results, Covers ("v", updateVersion [("A", 1)] "B") e := by
  obtain ⟨⟨w', _⟩, hput, rfl, ⟨w'', _⟩, hget, rfl⟩ :
      ∃ x ∈ serveOn fourNodes calmEnv 2 "B" (.clientPut "k" ("v", [("A", 1)]))
        ⟨holding fourNodes ["A", "B", "C"] [] "k" ("w", [("A", 2)]), 0⟩,
        x.2 = .clientPut .ok "A" ∧
        ∃ y ∈ serveOn fourNodes calmEnv 2 "C" (.clientGet "k") x.1,
          y.2 = .clientGet [("v", [("A", 1), ("B", 1)])] "A" := by
    decide +kernel
  refine ⟨w', w'', _, hput, hget, (read_after_write_iff
    calmEnv_reliable calmEnv_reliable (agree_holding _ _ _ _) (agree_holding _ _ _ _)
    (p := "B") (g := "C") (by simp) (by simp) hput hget).mpr ⟨"B", ?_, ?_⟩⟩
  · decide +kernel
  · decide +kernel

/-- The put is acknowledged by A and B with clock A:1, B:1, and the get returns only
what C stores, with the concurrent clock A:2. -/
theorem acknowledged_write_invisible :
    ∃ (w' w'' : Net) (results : List Data),
      serveOn fourNodes calmEnv 2 "B" (.clientPut "k" ("v", [("A", 1)]))
        ⟨holding fourNodes ["A", "B", "C"] ["C"] "k" ("w", [("A", 2)]), 0⟩ =
          some (w', .clientPut .ok "A") ∧
      serveOn fourNodes calmEnv 2 "C" (.clientGet "k") w' =
        some (w'', .clientGet results "A") ∧
      Agree calmEnv (fun _ => true) {n | n ∈ ["A", "B", "C"]} (ringWith fourNodes ["A", "B", "C"])
        (holding fourNodes ["A", "B", "C"] ["C"] "k" ("w", [("A", 2)])) ∧
      ¬ ∃ e ∈ results, Covers ("v", updateVersion [("A", 1)] "B") e := by
  obtain ⟨⟨w', _⟩, hput, rfl, ⟨w'', _⟩, hget, rfl⟩ :
      ∃ x ∈ serveOn fourNodes calmEnv 2 "B" (.clientPut "k" ("v", [("A", 1)]))
        ⟨holding fourNodes ["A", "B", "C"] ["C"] "k" ("w", [("A", 2)]), 0⟩,
        x.2 = .clientPut .ok "A" ∧
        ∃ y ∈ serveOn fourNodes calmEnv 2 "C" (.clientGet "k") x.1,
          y.2 = .clientGet [("w", [("A", 2)])] "A" := by
    decide +kernel
  exact ⟨w', w'', _, hput, hget, agree_holding _ _ _ _, by decide⟩

end Samples

end ReadAfterWrite
