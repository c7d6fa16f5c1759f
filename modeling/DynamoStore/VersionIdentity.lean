import DynamoStore.HandlerContracts
import DynamoStore.ClusterStores

/-!
# Versions and values

Every stored entry carries the value and the stamp of some client's put, however
the requests are interleaved. A stamp depends on the client's context and the name
of the coordinator only, so two puts can get one stamp; a version identifies its
value as long as they do not.
-/

namespace VersionIdentity

open RpcPrograms RpcInterleaving GossipNode StateMachine VectorClocks
open ClusterStores HandlerContracts

/-- Requests to a cluster whose membership is fixed, with any contexts. -/
def ClientRequests : String → Request → Prop
  | _, .clientPut _ _ | _, .clientGet _ | _, .peerGet _ | _, .gossip _ | _, .mainLoopTurn => True
  | _, _ => False

/-- An entry that some put of the run makes its coordinator send out. -/
def Stamped (issued : List (String × Request)) (key : String) (d : Data) : Prop :=
  ∃ p context, (p, .clientPut key (d.1, context)) ∈ issued ∧ d.2 = updateVersion context p

/-- No two puts of one key with different values are given the same stamp. -/
def StampsDiffer (issued : List (String × Request)) : Prop :=
  ∀ p p' key value value' context context',
    (p, .clientPut key (value, context)) ∈ issued →
    (p', .clientPut key (value', context')) ∈ issued → value ≠ value' →
    ¬ SameClock (updateVersion context p) (updateVersion context' p')

theorem Stamped.mono {issued issued' : List (String × Request)} (h : ∀ x ∈ issued, x ∈ issued')
    {key : String} {d : Data} : Stamped issued key d → Stamped issued' key d := by
  rintro ⟨p, context, hmem, hd⟩
  exact ⟨p, context, h _ hmem, hd⟩

/-- Everything stored or sent is stamped. -/
def contract : Contract String GossipNode Request Reply where
  inv s := ∀ n key e, stored s.state n key = some e → Stamped s.issued key e
  evolves s s' := ∀ x ∈ s.issued, x ∈ s'.issued
  pre n q s := match q with
    | .clientPut key data => (n, .clientPut key data) ∈ s.issued
    | .peerPut key data => Stamped s.issued key data
    | q => ClientRequests n q
  post _ _ _ _ := True
  refl _ _ h := h
  trans h h' x hx := h' x (h x hx)
  pre_stable {n q s s'} hevo h := by
    cases q with
    | clientPut key data => exact hevo _ h
    | peerPut key data => exact Stamped.mono hevo h
    | _ => exact h
  post_stable _ _ := trivial

variable {hash : String → UInt64}

theorem indifferent (n : String) : Indifferent hash contract n := by
  intro s a quiet hinv
  have same : stored (s.modify n (apply hash a)).state = stored s.state :=
    stored_of_quiet s n quiet
  refine ⟨fun m key e he => hinv m key e ?_, fun x hx => hx⟩
  rw [← same]
  exact he

theorem put_keeps {s : Cluster} {n key : String} {d : Data}
    (hinv : contract.inv s) (stamped : Stamped s.issued key d) :
    contract.inv (s.modify n (apply hash (.put key d.1 d.2))) ∧
      contract.evolves s (s.modify n (apply hash (.put key d.1 d.2))) := by
  refine ⟨fun m key' e he => ?_, fun x hx => hx⟩
  rw [Shared.modify, stored_put] at he
  split at he
  · rename_i hwritten
    cases he
    rw [hwritten.2]
    exact stamped
  · exact hinv m key' e he

theorem pre_of_putsNothing {q : Request} (quiet : PutsNothing q) (m : String) (s : Cluster) :
    contract.pre m q s := by
  cases q with
  | clientGet _ | peerGet _ | gossip _ | mainLoopTurn => trivial
  | _ => exact False.elim quiet

theorem verified : Verified contract (apply hash) (serve hash) ClientRequests
    fun _ _ _ _ => True where
  issue s n q hinv allowed := by
    have mono : ∀ x ∈ s.issued, x ∈ (s.issue n q).issued :=
      fun x hx => List.mem_cons_of_mem _ hx
    refine ⟨fun m key e he => (hinv m key e he).mono mono, mono, ?_⟩
    cases q <;> first
      | exact List.mem_cons_self
      | exact allowed
      | exact False.elim allowed
  body s n q hinv hpre := by
    refine Contract.Safe.body ?_ hinv hpre
    have stable : contract.Stable (contract.pre n q) := contract.pre_stable
    cases q with
    | clientPut key data =>
      have stamped : ∀ s : Cluster, contract.pre n (.clientPut key data) s →
          Stamped s.issued key (data.1, updateVersion data.2 n) :=
        fun s hs => ⟨n, data.2, hs, rfl⟩
      refine (serveClientPut_safe (indifferent n) stable (fun _ => True) (fun _ h => h)
        ?_ ?_ ?_).weaken fun _ _ _ => trivial
      · exact fun s hinv hs _ => ⟨(put_keeps hinv (stamped s hs)).1,
          (put_keeps hinv (stamped s hs)).2, trivial⟩
      · exact fun s m _ hs _ => stamped s hs
      · exact fun _ _ _ => trivial
    | peerPut key data =>
      refine servePeerPut_safe ?_ fun _ _ => trivial
      exact fun s hinv hs _ => ⟨(put_keeps hinv hs).1, (put_keeps hinv hs).2, trivial⟩
    | clientGet _ | peerGet _ | gossip _ | mainLoopTurn =>
      refine Contract.Safe.weaken (putsNothing_safe (indifferent n) stable trivial ?_)
        fun _ _ _ => trivial
      exact fun s m q' quiet _ _ _ => pre_of_putsNothing quiet m s
    | joinNetwork _ | leaveNetwork _ | adminCmd _ _ => exact fun _ _ h => False.elim h

/-- In a run whose puts get different stamps, equal clocks come with equal values,
also at different times and on different nodes. -/
theorem version_identifies_value {state : String → GossipNode}
    (empty : ∀ n, (state n).stateMachine = .empty)
    {c c' : Config String GossipNode Action Request Reply Int64}
    (before : Reach (apply hash) (serve hash) ClientRequests (fun _ _ _ _ => True)
      (.start state) c)
    (after : Reach (apply hash) (serve hash) ClientRequests (fun _ _ _ _ => True) c c')
    (differ : StampsDiffer c'.shared.issued) {n m key : String} {e e' : Data}
    (he : stored c.shared.state n key = some e) (he' : stored c'.shared.state m key = some e')
    (same : SameClock e.2 e'.2) : e.1 = e'.1 := by
  have start : contract.inv ⟨state, []⟩ := by
    intro m key e he
    simp [stored, empty m] at he
  obtain ⟨hok, _⟩ := (configOk_start start).reach verified before
  obtain ⟨hok', hevo⟩ := hok.reach verified after
  obtain ⟨p, context, hmem, hclock⟩ := (hok.inv n key e he).mono hevo
  obtain ⟨p', context', hmem', hclock'⟩ := hok'.inv m key e' he'
  by_contra hne
  refine differ p p' key e.1 e'.1 context context' hmem hmem' hne ?_
  rw [← hclock, ← hclock']
  exact same

section TwoNodes

theorem version_identifies_value_sample :
    ∃ c : Config String GossipNode Action Request Reply Int64,
      Reach (apply twoNodes) (serve twoNodes) ClientRequests (fun _ _ _ _ => True)
        (.start (cluster twoNodes ["A", "B"])) c ∧
      ∃ e e' : Data, stored c.shared.state "A" "k" = some e ∧
        stored c.shared.state "B" "k" = some e' ∧ e.1 = e'.1 := by
  obtain ⟨⟨w, finished⟩, hsession, hA, hB⟩ :
      ∃ x ∈ session (apply twoNodes) (serve twoNodes) (fun _ _ _ _ => True) calmEnv 2
        [("A", .clientPut "k" ("v1", [])), ("B", .clientPut "k" ("v2", [("A", 1)]))]
        ⟨cluster twoNodes ["A", "B"], 0⟩,
        stored x.1.state "A" "k" = some ("v2", [("A", 1), ("B", 1)]) ∧
          stored x.1.state "B" "k" = some ("v2", [("A", 1), ("B", 1)]) := by
    decide +kernel
  have hreach := reach_of_session ClientRequests calmEnv_reliable 2 _
    (by simp [ClientRequests]) [] [] hsession
  refine ⟨_, hreach, _, _, hA, hB, version_identifies_value (fun _ => rfl) hreach .refl ?_ hA hB
    (SameClock.refl _)⟩
  intro p p' key value value' context context' h h' hne
  simp only [List.reverse_cons, List.reverse_nil, List.nil_append, List.singleton_append,
    List.append_nil, List.mem_cons, List.not_mem_nil, or_false, Prod.mk.injEq,
    Request.clientPut.injEq] at h h'
  rcases h with ⟨rfl, rfl, rfl, rfl⟩ | ⟨rfl, rfl, rfl, rfl⟩ <;>
    rcases h' with ⟨rfl, _, rfl, rfl⟩ | ⟨rfl, _, rfl, rfl⟩
  · exact absurd rfl hne
  · decide
  · decide
  · exact absurd rfl hne

/-- Two clients that know no version put different values through one coordinator:
both are stamped A:1, and the peer keeps the first one. -/
theorem version_with_two_values :
    ∃ c : Config String GossipNode Action Request Reply Int64,
      Reach (apply twoNodes) (serve twoNodes) ClientRequests (fun _ _ _ _ => True)
        (.start (cluster twoNodes ["A", "B"])) c ∧
      stored c.shared.state "A" "k" = some ("v2", [("A", 1)]) ∧
      stored c.shared.state "B" "k" = some ("v1", [("A", 1)]) := by
  obtain ⟨⟨w, finished⟩, hsession, hA, hB⟩ :
      ∃ x ∈ session (apply twoNodes) (serve twoNodes) (fun _ _ _ _ => True) calmEnv 2
        [("A", .clientPut "k" ("v1", [])), ("A", .clientPut "k" ("v2", []))]
        ⟨cluster twoNodes ["A", "B"], 0⟩,
        stored x.1.state "A" "k" = some ("v2", [("A", 1)]) ∧
          stored x.1.state "B" "k" = some ("v1", [("A", 1)]) := by
    decide +kernel
  exact ⟨_, reach_of_session ClientRequests calmEnv_reliable 2 _ (by simp [ClientRequests])
    [] [] hsession, hA, hB⟩

end TwoNodes

end VersionIdentity
