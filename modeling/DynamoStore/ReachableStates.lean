import DynamoStore.HandlerContracts
import DynamoStore.ClusterStores
import Mathlib.Data.Set.Basic

/-!
# What holds in every reachable state

Whatever is sent to the nodes, and in whatever order it is handled, stored clocks
name each server once and no node has a stub of itself, provided the clocks of the
requests name each server once and no join is sent to the joining node itself.

Requests are sent along stubs only. A set of nodes that is never told of a node
outside leaves all nodes outside alone.
-/

namespace ReachableStates

open RpcPrograms RpcInterleaving GossipNode StateMachine VectorClocks
open ClusterStores HandlerContracts
open Contract (Safe Stable)

/-- A request to a node of `S` that names only nodes of `S`. -/
def WellFormed (S : Set String) (n : String) (q : Request) : Prop :=
  n ∈ S ∧ match q with
    | .clientPut _ data | .peerPut _ data => Distinct data.2
    | .joinNetwork nodeId => nodeId ∈ S ∧ nodeId ≠ n
    | .adminCmd _ aliveServers => ∀ addr ∈ aliveServers, addr ∈ S
    | _ => True

structure Tidy (S : Set String) (state : String → GossipNode) : Prop where
  distinct : DistinctClocks state
  no_own_stub : ∀ n, n ∉ (state n).stubs
  closed : ∀ n ∈ S, ∀ m ∈ (state n).stubs, m ∈ S

def contract (S : Set String) : Contract String GossipNode Request Reply where
  inv s := Tidy S s.state
  evolves s s' := ∀ m ∉ S, s'.state m = s.state m
  pre n q _ := WellFormed S n q
  post _ _ _ _ := True
  refl _ _ _ := rfl
  trans h h' m hm := (h' m hm).trans (h m hm)
  pre_stable _ h := h
  post_stable _ _ := trivial

variable {hash : String → UInt64} {S : Set String} {self : String}
variable {ok : Action → GossipNode → Prop} {P : Cluster → Prop}

theorem stable_const (p : Prop) : (contract S).Stable fun _ => p := fun _ h => h

/-- A change on a node of `S` is an evolution. -/
theorem evolves_modify (hself : self ∈ S) (s : Cluster) (f : GossipNode → GossipNode) :
    (contract S).evolves s (s.modify self f) := by
  intro m hm
  exact s.modify_of_ne self f fun h => hm (h ▸ hself)

theorem tidy_modify {s : Cluster} (tidy : Tidy S s.state) (f : GossipNode → GossipNode)
    (distinct : DistinctClocks (s.modify self f).state)
    (stubs : ∀ m ∈ (f (s.state self)).stubs, m ∈ (s.state self).stubs ∨ (m ≠ self ∧ m ∈ S)) :
    Tidy S (s.modify self f).state where
  distinct := distinct
  no_own_stub n := by
    by_cases hn : n = self
    · subst hn
      rw [s.modify_self]
      intro hmem
      rcases stubs n hmem with hold | ⟨hne, _⟩
      · exact tidy.no_own_stub n hold
      · exact hne rfl
    · rw [s.modify_of_ne self f hn]
      exact tidy.no_own_stub n
  closed n hnS m hm := by
    by_cases hn : n = self
    · subst hn
      rw [s.modify_self] at hm
      rcases stubs m hm with hold | ⟨_, hmS⟩
      · exact tidy.closed n hnS m hold
      · exact hmS
    · rw [s.modify_of_ne self f hn] at hm
      exact tidy.closed n hnS m hm

theorem indifferent (hself : self ∈ S) : Indifferent hash (contract S) self := by
  intro s a quiet tidy
  refine ⟨tidy_modify tidy _ ?_ ?_, evolves_modify hself s _⟩
  · intro n key e he
    rw [stored_of_quiet s self quiet] at he
    exact tidy.distinct n key e he
  · intro m hm
    refine Or.inl ?_
    cases a with
    | newStub addr => exact False.elim quiet
    | clearStubs => exact absurd hm (AList.notMem_empty m)
    | eraseStub addr => exact (AList.mem_erase.mp hm).2
    | _ => exact hm

theorem put_keeps (hself : self ∈ S) {s : Cluster} {key value : String} {version : Version}
    (hversion : Distinct version) (tidy : Tidy S s.state) :
    (contract S).inv (s.modify self (apply hash (.put key value version))) ∧
      (contract S).evolves s (s.modify self (apply hash (.put key value version))) :=
  ⟨tidy_modify tidy _ (distinctClocks_put tidy.distinct hversion) fun _ hm => Or.inl hm,
    evolves_modify hself s _⟩

theorem remove_keeps (hself : self ∈ S) {s : Cluster} {key : String} (tidy : Tidy S s.state) :
    (contract S).inv (s.modify self (apply hash (.remove key))) ∧
      (contract S).evolves s (s.modify self (apply hash (.remove key))) :=
  ⟨tidy_modify tidy _ (distinctClocks_remove tidy.distinct) fun _ hm => Or.inl hm,
    evolves_modify hself s _⟩

theorem newStub_safe (hself : self ∈ S) {addr : String} (haddr : addr ∈ S) (hne : addr ≠ self)
    (stable : (contract S).Stable P) :
    Safe (contract S) (apply hash) ok self P (Prog.perform (.newStub addr) : Handler Unit)
      fun _ s => P s := by
  refine Safe.perform fun s tidy hP _ => ?_
  refine ⟨tidy_modify tidy _ ?_ ?_, evolves_modify hself s _,
    stable (evolves_modify hself s _) hP⟩
  · intro n key e he
    rw [Shared.modify, stored_of_keepsStore s.state self (a := .newStub addr) trivial] at he
    exact tidy.distinct n key e he
  · intro m hm
    rcases (AList.mem_insert _).mp hm with rfl | hold
    · exact Or.inr ⟨hne, haddr⟩
    · exact Or.inl hold

theorem remove_safe (hself : self ∈ S) {key : String} :
    Safe (contract S) (apply hash) ok self P (Prog.perform (.remove key) : Handler Unit)
      fun _ _ => True :=
  Safe.perform fun _ tidy _ _ =>
    ⟨(remove_keeps hself tidy).1, (remove_keeps hself tidy).2, trivial⟩

section Handlers

variable (hself : self ∈ S)

include hself

theorem quiet_true {a : Action} (quiet : Quiet a) :
    Safe (contract S) (apply hash) ok self (fun _ => True)
      (Prog.perform a : Handler Unit) fun _ _ => True :=
  quiet_safe (indifferent hself) (stable_const True) quiet

/-- A transfer sends a stored clock. -/
theorem transferKey_safe (nodeId key : String) :
    Safe (contract S) (apply hash) ok self (fun _ => True) (transferKey nodeId key)
      fun _ _ => True := by
  refine Safe.bind Safe.read fun node => ?_
  refine (peerPut_safe fun s tidy hP hstub => ?_).weaken fun _ _ _ => trivial
  refine ⟨tidy.closed self hself _ hstub, ?_⟩
  rw [hP.2]
  exact distinct_getVersion tidy.distinct self key

theorem joinTransferLoop_safe (nodeId : String) (keys : List String) (success : Bool) :
    Safe (contract S) (apply hash) ok self (fun _ => True)
      (joinTransferLoop nodeId keys success) fun _ _ => True := by
  induction keys generalizing success with
  | nil => exact Safe.ret fun _ _ => trivial
  | cons key keys ih =>
    refine Safe.bind (transferKey_safe hself nodeId key) fun res => ?_
    split
    · exact Safe.bind (remove_safe hself) fun _ => ih success
    · exact ih false

theorem serveJoinNetwork_safe {nodeId : String} (hid : nodeId ∈ S) (hne : nodeId ≠ self) :
    Safe (contract S) (apply hash) ok self (fun _ => True)
      (serveJoinNetwork hash self nodeId) fun _ _ => True := by
  refine Safe.bind (quiet_true hself trivial) fun _ => ?_
  refine Safe.bind (Safe.clock (P := fun _ => True)) fun time => ?_
  refine Safe.bind (quiet_true hself trivial) fun _ => ?_
  refine Safe.bind (newStub_safe hself hid hne (stable_const True)) fun _ => ?_
  refine Safe.bind (Φ := fun _ _ => True) ?_ fun keys => ?_
  · refine Safe.bind Safe.read fun node => ?_
    exact Safe.bind (Safe.iterate _) fun _ => Safe.ret fun _ _ => trivial
  · exact Safe.bind (joinTransferLoop_safe hself nodeId keys true) fun _ =>
      Safe.ret fun _ _ => trivial

theorem transferWithRetries_safe (nodeId key : String) (retries : Nat) :
    Safe (contract S) (apply hash) ok self (fun _ => True)
      (transferWithRetries nodeId key retries) fun _ _ => True := by
  induction retries with
  | zero => exact transferKey_safe hself nodeId key
  | succ retries ih =>
    refine Safe.bind (transferKey_safe hself nodeId key) fun res => ?_
    split
    · exact ih
    · exact Safe.ret fun _ _ => trivial

theorem leaveTransferLoop_safe (nodeId : String) (keys : List String) :
    Safe (contract S) (apply hash) ok self (fun _ => True)
      (leaveTransferLoop nodeId keys) fun _ _ => True := by
  induction keys with
  | nil => exact Safe.ret fun _ _ => trivial
  | cons key keys ih =>
    refine Safe.bind (transferWithRetries_safe hself nodeId key 4) fun res => ?_
    split
    · exact Safe.bind (remove_safe hself) fun _ => ih
    · exact ih

/-- The stubs that a node sends to are in `S`, and none is its own. -/
theorem mem_stubs {s : Cluster} {stubs : List String} (tidy : Tidy S s.state)
    (hperm : stubs.Perm (s.state self).stubs.keys) : ∀ addr ∈ stubs, addr ∈ S ∧ addr ≠ self := by
  intro addr haddr
  have hmem : addr ∈ (s.state self).stubs := AList.mem_keys.mpr (hperm.mem_iff.mp haddr)
  exact ⟨tidy.closed self hself addr hmem, fun h => tidy.no_own_stub self (h ▸ hmem)⟩

theorem leaveNetworkLoop_safe (oldRing : ConsistentHashingRing) (stubs : List String)
    (hstubs : ∀ addr ∈ stubs, addr ∈ S ∧ addr ≠ self) :
    Safe (contract S) (apply hash) ok self (fun _ => True)
      (leaveNetworkLoop hash self oldRing stubs) fun _ _ => True := by
  induction stubs with
  | nil => exact Safe.ret fun _ _ => trivial
  | cons addr stubs ih =>
    rw [List.forall_mem_cons] at hstubs
    have hpre : ∀ s, (contract S).pre addr (.leaveNetwork self) s :=
      fun _ => ⟨hstubs.1.1, trivial⟩
    refine Safe.bind ((Safe.send fun s _ _ => hpre s).weaken
      (Ψ := fun _ _ => True) fun _ _ _ => trivial) fun reply => ?_
    split
    · refine Safe.bind (Φ := fun _ _ => True) ?_ fun keys => ?_
      · refine Safe.bind Safe.read fun node => ?_
        exact Safe.bind (Safe.iterate _) fun _ => Safe.ret fun _ _ => trivial
      · exact Safe.bind (leaveTransferLoop_safe hself addr keys) fun _ => ih hstubs.2
    · exact ih hstubs.2

theorem leaveNetwork_safe :
    Safe (contract S) (apply hash) ok self (fun _ => True)
      (leaveNetwork hash self) fun _ _ => True := by
  refine Safe.bind Safe.read fun node => ?_
  refine Safe.assume (∀ stubs : List String, stubs.Perm node.stubs.keys →
    ∀ addr ∈ stubs, addr ∈ S ∧ addr ≠ self) ?_ fun hstubs => ?_
  · rintro s tidy ⟨_, rfl⟩ stubs hperm
    exact mem_stubs hself tidy hperm
  refine Safe.bind ((quiet_true hself (show Quiet (.removeNode self) from trivial)).strengthen
    fun _ _ => trivial) fun _ => ?_
  refine Safe.bind (Safe.iterate _) fun stubs => ?_
  refine Safe.assume _ (fun _ _ h => h.2) fun hperm => ?_
  exact (leaveNetworkLoop_safe hself node.ring stubs (hstubs stubs hperm)).strengthen
    fun _ _ => trivial

theorem joinNetworkLoop_safe (hstubs : List String) (flag : Bool)
    (hmem : ∀ addr ∈ hstubs, addr ∈ S ∧ addr ≠ self) :
    Safe (contract S) (apply hash) ok self (fun _ => True)
      (joinNetworkLoop self hstubs flag) fun _ _ => True := by
  induction hstubs generalizing flag with
  | nil => exact Safe.ret fun _ _ => trivial
  | cons addr stubs ih =>
    rw [List.forall_mem_cons] at hmem
    have hpre : ∀ s, (contract S).pre addr (.joinNetwork self) s :=
      fun _ => ⟨hmem.1.1, hself, hmem.1.2.symm⟩
    refine Safe.bind ((Safe.send fun s _ _ => hpre s).weaken
      (Ψ := fun _ _ => True) fun _ _ _ => trivial) fun reply => ?_
    split
    · exact ih flag hmem.2
    · exact ih false hmem.2

theorem joinNetwork_safe :
    Safe (contract S) (apply hash) ok self (fun _ => True)
      (joinNetwork self) fun _ _ => True := by
  refine Safe.bind (quiet_true hself (show Quiet (.addNode self) from trivial)) fun _ => ?_
  refine Safe.bind (Safe.clock (P := fun _ => True)) fun time => ?_
  refine Safe.bind (quiet_true hself (show Quiet (.setHeartbeat self time) from trivial))
    fun _ => ?_
  refine Safe.bind Safe.read fun node => ?_
  refine Safe.bind (Safe.iterate _) fun stubs => ?_
  refine Safe.assume _ ?_ fun hmem => (joinNetworkLoop_safe hself stubs true hmem).strengthen
    fun _ _ => trivial
  rintro s tidy ⟨⟨_, rfl⟩, hperm⟩
  exact mem_stubs hself tidy hperm

theorem addAliveServers_safe (aliveServers : List String)
    (hmem : ∀ addr ∈ aliveServers, addr ∈ S) :
    Safe (contract S) (apply hash) ok self (fun _ => True)
      (addAliveServers self aliveServers) fun _ _ => True := by
  induction aliveServers with
  | nil => exact Safe.ret fun _ _ => trivial
  | cons addr aliveServers ih =>
    rw [List.forall_mem_cons] at hmem
    rw [addAliveServers]
    split
    · rename_i hne
      refine Safe.bind (quiet_true hself (show Quiet (.addNode addr) from trivial)) fun _ => ?_
      exact Safe.bind (newStub_safe hself hmem.1 hne (stable_const True)) fun _ => ih hmem.2
    · exact ih hmem.2

theorem serveAdminCmd_safe (cmd : String) {aliveServers : List String}
    (hmem : ∀ addr ∈ aliveServers, addr ∈ S) :
    Safe (contract S) (apply hash) ok self (fun _ => True)
      (serveAdminCmd hash self cmd aliveServers) fun _ _ => True := by
  unfold serveAdminCmd
  split
  · refine Safe.bind (quiet_true hself (show Quiet .clearStubs from trivial)) fun _ => ?_
    refine Safe.bind (addAliveServers_safe hself aliveServers hmem) fun _ => ?_
    refine Safe.bind (joinNetwork_safe hself) fun _ => ?_
    exact Safe.bind (quiet_true hself (show Quiet (.setAlive true) from trivial)) fun _ =>
      Safe.ret fun _ _ => trivial
  · split
    · refine Safe.bind (quiet_true hself (show Quiet (.setAlive false) from trivial)) fun _ => ?_
      exact Safe.bind (leaveNetwork_safe hself) fun _ => Safe.ret fun _ _ => trivial
    · split
      · exact Safe.bind Safe.read fun _ => Safe.ret fun _ _ => trivial
      · exact Safe.ret fun _ _ => trivial

theorem serveLeaveNetwork_safe (nodeId : String) :
    Safe (contract S) (apply hash) ok self (fun _ => True)
      (serveLeaveNetwork nodeId) fun _ _ => True := by
  refine Safe.bind (quiet_true hself (show Quiet (.removeNode nodeId) from trivial)) fun _ => ?_
  refine Safe.bind (quiet_true hself (show Quiet (.eraseStub nodeId) from trivial)) fun _ => ?_
  exact Safe.bind (quiet_true hself (show Quiet (.eraseHeartbeat nodeId) from trivial)) fun _ =>
    Safe.ret fun _ _ => trivial

end Handlers

theorem wellFormed_of_putsNothing {q : Request} (quiet : PutsNothing q) {m : String}
    (hm : m ∈ S) : WellFormed S m q := by
  refine ⟨hm, ?_⟩
  cases q with
  | clientGet _ | peerGet _ | gossip _ | mainLoopTurn => trivial
  | _ => exact False.elim quiet

theorem verified (ok : String → Request → Action → GossipNode → Prop) :
    Verified (contract S) (apply hash) (serve hash) (WellFormed S) ok where
  issue s n q tidy wellFormed := ⟨tidy, fun _ _ => rfl, wellFormed⟩
  body s n q tidy wellFormed := by
    obtain ⟨hself, hq⟩ := wellFormed
    refine Contract.Safe.body (C := contract S) ?_ tidy ⟨hself, hq⟩
    refine Contract.Safe.strengthen (P := fun _ => True) ?_ fun _ _ => trivial
    refine Contract.Safe.weaken (Φ := fun _ _ => True) ?_ fun _ _ _ => trivial
    have hindifferent : Indifferent hash (contract S) n := indifferent hself
    have stable : (contract S).Stable fun _ => True := stable_const True
    cases q with
    | joinNetwork nodeId => exact serveJoinNetwork_safe hself hq.1 hq.2
    | leaveNetwork nodeId => exact serveLeaveNetwork_safe hself nodeId
    | clientGet _ | peerGet _ | gossip _ | mainLoopTurn =>
      exact putsNothing_safe hindifferent stable trivial fun s m q' quiet tidy _ hstub =>
        wellFormed_of_putsNothing quiet (tidy.closed n hself m hstub)
    | clientPut key data =>
      have hversion : Distinct (updateVersion data.2 n) := distinct_updateVersion hq n
      refine (serveClientPut_safe hindifferent stable (fun _ => True)
        (stable_const True) ?_ ?_ ?_).weaken fun _ _ _ => trivial
      · exact fun s tidy _ _ => ⟨(put_keeps hself hversion tidy).1,
          (put_keeps hself hversion tidy).2, trivial⟩
      · exact fun s m tidy _ hstub => ⟨tidy.closed n hself m hstub, hversion⟩
      · exact fun _ _ _ => trivial
    | peerPut key data =>
      refine servePeerPut_safe ?_ fun _ _ => trivial
      exact fun s tidy _ _ => ⟨(put_keeps hself hq tidy).1, (put_keeps hself hq tidy).2, trivial⟩
    | adminCmd cmd aliveServers => exact serveAdminCmd_safe hself cmd hq

/-- Every reachable state is tidy. -/
theorem tidy_of_reach {ok : String → Request → Action → GossipNode → Prop}
    {state : String → GossipNode} (start : Tidy S state)
    {c : Config String GossipNode Action Request Reply Int64}
    (hreach : Reach (apply hash) (serve hash) (WellFormed S) ok (.start state) c) :
    Tidy S c.shared.state :=
  ((configOk_start (C := contract S) start).reach (verified ok) hreach).1.inv

/-- The nodes outside of `S` are as they were. -/
theorem outside_unchanged {ok : String → Request → Action → GossipNode → Prop}
    {state : String → GossipNode} (start : Tidy S state)
    {c : Config String GossipNode Action Request Reply Int64}
    (hreach : Reach (apply hash) (serve hash) (WellFormed S) ok (.start state) c)
    {m : String} (hm : m ∉ S) : c.shared.state m = state m :=
  ((configOk_start (C := contract S) start).reach (verified ok) hreach).2 m hm

theorem tidy_new (numVirtualNodes : String → Nat) :
    Tidy S fun n => GossipNode.new (numVirtualNodes n) where
  distinct n key e he := by simp [stored, GossipNode.new] at he
  no_own_stub n := AList.notMem_empty n
  closed n _ m hm := absurd hm (AList.notMem_empty m)

theorem tidy_cluster (members : List String) :
    Tidy {n | n ∈ members} (cluster hash members) where
  distinct n key e he := by simp [stored, cluster] at he
  no_own_stub n hn := (mem_cluster_stubs.mp hn).2.2 rfl
  closed _ _ _ hm := (mem_cluster_stubs.mp hm).2.1

end ReachableStates
