import DynamoStore.ReachableStates

/-!
# Acknowledged writes

A client that is told OK has its version in at least two stores. Whether it stays
somewhere depends on the writes of coordinators, which are not compared with what
the coordinator already stores. While every such write covers the stored entry, no
acknowledged write is lost, in whatever order the requests are handled.
-/

namespace AcknowledgedWrites

open RpcPrograms RpcInterleaving GossipNode StateMachine VectorClocks ConflictVerdict
open ClusterStores HandlerContracts

/-- Requests to a cluster whose membership is fixed. -/
def ClientTraffic : String → Request → Prop
  | _, .clientPut _ data => Distinct data.2
  | _, .clientGet _ | _, .peerGet _ | _, .gossip _ | _, .mainLoopTurn => True
  | _, _ => False

/-- The own write of a coordinator is judged later than what it stores, or it
repeats the stored entry. -/
def CoordinatorAhead (_ : String) (q : Request) (a : Action) (node : GossipNode) : Prop :=
  match q, a with
  | .clientPut _ _, .put key value version =>
    checkConflictVersion version (node.stateMachine.getVersion key) = 1 ∨
      (checkConflictVersion version (node.stateMachine.getVersion key) = 0 ∧
        node.stateMachine.getValue key = value)
  | _, _ => True

instance (n : String) (q : Request) (a : Action) (node : GossipNode) :
    Decidable (CoordinatorAhead n q a node) := by
  cases q <;> cases a <;>
    first | exact instDecidableTrue | exact inferInstanceAs (Decidable (_ ∨ (_ ∧ _)))

/-- Nothing held is lost; an accepted put is held. -/
def contract : Contract String GossipNode Request Reply where
  inv s := DistinctClocks s.state
  evolves s s' := ∀ key d, Held s.state key d → Held s'.state key d
  pre n q _ := match q with
    | .peerPut _ data => Distinct data.2 ∧ data.2 ≠ []
    | q => ClientTraffic n q
  post n q r s := match q with
    | .clientPut key data => ∀ coordinator, r = .clientPut .ok coordinator →
        Held s.state key (data.1, updateVersion data.2 n)
    | .peerPut key data => r = .peerPut false → Held s.state key data
    | _ => True
  refl _ _ _ held := held
  trans h h' key d held := h' key d (h key d held)
  pre_stable _ h := h
  post_stable {n q r s s'} hevo h := by
    cases q with
    | clientPut key data => exact fun coordinator hr => hevo _ _ (h coordinator hr)
    | peerPut key data => exact fun hr => hevo _ _ (h hr)
    | _ => trivial

variable {hash : String → UInt64}

theorem indifferent (n : String) : Indifferent hash contract n := by
  intro s a quiet hinv
  have same : stored (s.modify n (apply hash a)).state = stored s.state :=
    stored_of_quiet s n quiet
  refine ⟨fun m key e he => hinv m key e ?_, fun key d held => ?_⟩
  · rw [← same]
    exact he
  · unfold Held HeldBy
    rw [same]
    exact held

/-- A covering write keeps the contract. -/
theorem put_keeps {s : Cluster} {n key value : String} {version : Version}
    (hinv : DistinctClocks s.state) (hversion : Distinct version)
    (yields : ∀ e, stored s.state n key = some e → Covers e (value, version)) :
    DistinctClocks (s.modify n (apply hash (.put key value version))).state ∧
      contract.evolves s (s.modify n (apply hash (.put key value version))) ∧
      Held (s.modify n (apply hash (.put key value version))).state key (value, version) :=
  ⟨distinctClocks_put hinv hversion,
    fun _ _ held => heldBy_put Covers (fun _ _ _ => Covers.trans) yields held, held_own_put⟩

theorem pre_of_putsNothing {q : Request} (quiet : PutsNothing q) (m : String) (s : Cluster) :
    contract.pre m q s := by
  cases q with
  | clientGet _ | peerGet _ | gossip _ | mainLoopTurn => trivial
  | _ => exact False.elim quiet

theorem verified : Verified contract (apply hash) (serve hash) ClientTraffic CoordinatorAhead where
  issue s n q hinv allowed := by
    refine ⟨hinv, fun _ _ held => held, ?_⟩
    cases q <;> first | exact allowed | exact False.elim allowed
  body s n q hinv hpre := by
    refine Contract.Safe.body ?_ hinv hpre
    have stable : contract.Stable (contract.pre n q) := contract.pre_stable
    cases q with
    | clientPut key data =>
      have held_stable : contract.Stable fun s : Cluster =>
          Held s.state key (data.1, updateVersion data.2 n) := fun hevo held => hevo _ _ held
      refine serveClientPut_safe (indifferent n) stable _ held_stable ?_ ?_ ?_
      · intro s hinv hP hok
        have hversion := distinct_updateVersion hP n
        exact put_keeps hinv hversion
          (fun e he => covers_of_judged (hinv n key) hversion (updateVersion_ne_nil _ _) hok he)
      · exact fun s m _ hP _ => ⟨distinct_updateVersion hP n, updateVersion_ne_nil _ _⟩
      · exact fun s m hpost => hpost rfl
    | peerPut key data =>
      refine servePeerPut_safe ?_ ?_
      · intro s hinv hP hcheck
        have yields : ∀ e, stored s.state n key = some e → Covers e data :=
          fun e he => covers_of_check (hinv n key) hP.1 hP.2 hcheck he
        obtain ⟨hdistinct, hevo, hheld⟩ := put_keeps hinv hP.1 yields
        exact ⟨hdistinct, hevo, fun _ => hheld⟩
      · intro s _ hr
        cases hr
    | clientGet _ | peerGet _ | gossip _ | mainLoopTurn =>
      refine Contract.Safe.weaken (putsNothing_safe (indifferent n) stable trivial ?_)
        fun _ _ _ => trivial
      exact fun s m q' quiet _ _ _ => pre_of_putsNothing quiet m s
    | joinNetwork _ | leaveNetwork _ | adminCmd _ _ => exact fun _ _ h => False.elim h

/-- In every run whose coordinators only write over what they cover, an
acknowledged version is held from then on. -/
theorem acknowledged_write_held {state : String → GossipNode}
    (empty : ∀ n, (state n).stateMachine = .empty)
    {c c' : Config String GossipNode Action Request Reply Int64}
    (before : Reach (apply hash) (serve hash) ClientTraffic CoordinatorAhead (.start state) c)
    (after : Reach (apply hash) (serve hash) ClientTraffic CoordinatorAhead c c')
    {n key : String} {data : Data} {coordinator : String}
    (acknowledged : (n, .clientPut key data, .clientPut .ok coordinator) ∈ c.finished) :
    Held c'.shared.state key (data.1, updateVersion data.2 n) := by
  have start : contract.inv ⟨state, []⟩ := by
    intro m key e he
    simp [stored, empty m] at he
  obtain ⟨hok, _⟩ := (configOk_start start).reach verified before
  obtain ⟨_, hevo⟩ := hok.reach verified after
  exact hevo _ _ (hok.finished _ acknowledged coordinator rfl)

section TwoNodes

set_option synthInstance.maxSize 1000 in
/-- A put through A is acknowledged, and then another one through B replaces both copies. -/
theorem acknowledged_write_held_sample :
    ∃ c c' : Config String GossipNode Action Request Reply Int64,
      ("A", .clientPut "k" ("v1", []), .clientPut .ok "A") ∈ c.finished ∧
        Reach (apply twoNodes) (serve twoNodes) ClientTraffic CoordinatorAhead c c' ∧
        stored c'.shared.state "A" "k" = some ("v2", [("A", 1), ("B", 1)]) ∧
        stored c'.shared.state "B" "k" = some ("v2", [("A", 1), ("B", 1)]) ∧
        Held c'.shared.state "k" ("v1", [("A", 1)]) := by
  obtain ⟨⟨w, finished⟩, hfirst, hack, ⟨w', finished'⟩, hsecond, hA, hB⟩ :
      ∃ x ∈ session (apply twoNodes) (serve twoNodes) CoordinatorAhead calmEnv 2
        [("A", .clientPut "k" ("v1", []))] ⟨cluster twoNodes ["A", "B"], 0⟩,
        ("A", .clientPut "k" ("v1", []), .clientPut .ok "A") ∈ x.2 ∧
        ∃ y ∈ session (apply twoNodes) (serve twoNodes) CoordinatorAhead calmEnv 2
          [("B", .clientPut "k" ("v2", [("A", 1)]))] x.1,
          stored y.1.state "A" "k" = some ("v2", [("A", 1), ("B", 1)]) ∧
            stored y.1.state "B" "k" = some ("v2", [("A", 1), ("B", 1)]) := by
    decide +kernel
  have before := reach_of_session ClientTraffic calmEnv_reliable 2 _
    (by simp [ClientTraffic, Distinct]) [] [] hfirst
  have after := reach_of_session ClientTraffic calmEnv_reliable 2 _
    (by simp [ClientTraffic, Distinct]) [("A", .clientPut "k" ("v1", []))] (finished ++ []) hsecond
  have hack' := List.mem_append_left [] hack
  exact ⟨_, _, hack', after, hA, hB, acknowledged_write_held (fun _ => rfl) before after hack'⟩

set_option synthInstance.maxSize 1000 in
/-- Three later puts with stale contexts overwrite both copies of an acknowledged
version: each coordinator replaces its own copy, and the peers reject. -/
theorem acknowledged_write_lost :
    ∃ c c' : Config String GossipNode Action Request Reply Int64,
      Reach (apply twoNodes) (serve twoNodes) ClientTraffic (fun _ _ _ _ => True)
        (.start (cluster twoNodes ["A", "B"])) c ∧
      Reach (apply twoNodes) (serve twoNodes) ClientTraffic (fun _ _ _ _ => True) c c' ∧
      ("A", .clientPut "k" ("v2", [("A", 1)]), .clientPut .ok "A") ∈ c.finished ∧
      ¬ Held c'.shared.state "k" ("v2", [("A", 2)]) := by
  obtain ⟨⟨w, finished⟩, hfirst, ⟨hack, ⟨w', finished'⟩, hsecond, hA, hB⟩⟩ :
      ∃ x ∈ session (apply twoNodes) (serve twoNodes) (fun _ _ _ _ => True) calmEnv 2
        [("A", .clientPut "k" ("v1", [])), ("A", .clientPut "k" ("v2", [("A", 1)]))]
        ⟨cluster twoNodes ["A", "B"], 0⟩,
        ("A", .clientPut "k" ("v2", [("A", 1)]), .clientPut .ok "A") ∈ x.2 ∧
        ∃ y ∈ session (apply twoNodes) (serve twoNodes) (fun _ _ _ _ => True) calmEnv 2
          [("A", .clientPut "k" ("v3", [])), ("B", .clientPut "k" ("v4", []))] x.1,
          stored y.1.state "A" "k" = some ("v3", [("A", 1)]) ∧
            stored y.1.state "B" "k" = some ("v4", [("B", 1)]) := by
    decide +kernel
  have first := reach_of_session ClientTraffic calmEnv_reliable 2 _
    (by simp [ClientTraffic, Distinct]) [] [] hfirst
  have wellFormed := (reach_of_session (ReachableStates.WellFormed {n | n ∈ ["A", "B"]})
    calmEnv_reliable 2 _ (by simp [ReachableStates.WellFormed, Distinct]) [] [] hfirst).trans
      (reach_of_session _ calmEnv_reliable 2 _
        (by simp [ReachableStates.WellFormed, Distinct]) _ _ hsecond)
  refine ⟨_, _, first, reach_of_session ClientTraffic calmEnv_reliable 2 _
    (by simp [ClientTraffic, Distinct]) _ _ hsecond, List.mem_append_left [] hack, ?_⟩
  rintro ⟨m, e, he, hcovers⟩
  by_cases hm : m ∈ ["A", "B"]
  · have hother : e = ("v3", [("A", 1)]) ∨ e = ("v4", [("B", 1)]) := by
      rcases List.mem_cons.mp hm with rfl | hm
      · exact Or.inl (Option.some.inj (he.symm.trans hA))
      · rw [List.mem_singleton.mp hm] at he
        exact Or.inr (Option.some.inj (he.symm.trans hB))
    rcases hother with rfl | rfl
    · exact absurd hcovers (by decide)
    · exact absurd hcovers (by decide)
  · have same := ReachableStates.outside_unchanged (ReachableStates.tidy_cluster _)
      wellFormed hm
    rw [stored, same] at he
    simp [cluster] at he

end TwoNodes

end AcknowledgedWrites
