import DynamoStore.JoinReplication
import DynamoStore.LeaveReplication
import DynamoStore.ReplicaWalk

/-!
# Entries on their replicas and nowhere else

If exactly the replicas of a key store its entry, then so they do after a node has left,
and after a node has joined a ring with at least `REPLICA_N` nodes, as long as no message
is lost. A join displaces one replica, which hands the entry over and removes it.
-/

namespace ExactReplicas

open RpcPrograms GossipNode ClockwiseWalk ArrivalOrders
open RingOwners ClusterStores HandlerRuns ReplicaSets KeyTransfers JoinTransfers LeaveTransfers
open LeaveReplication JoinReplication

variable {hash : String → UInt64} {r : ConsistentHashingRing} {members : Set String}
variable {x key : String} {e : Option Data}

/-- The replicas among the members store `e`, the others nothing. -/
def OnReplicas (hash : String → UInt64) (r : ConsistentHashingRing) (members : Set String)
    (stores : Stores) (key : String) (e : Option Data) : Prop :=
  ∀ n ∈ members, stores n key = if n ∈ replicas hash r key then e else none

theorem OnReplicas.none_of_none {stores : Stores} (held : OnReplicas hash r members stores key none)
    {n : String} (hn : n ∈ members) : stores n key = none := by
  rw [held n hn, ite_self]

section Counted

variable (ring : RingOf hash members r)
variable (apart : NoCollision hash r.numVirtualNodes (insert x members))

include ring

/-- Rings of one size over the same nodes that count these well are equal. -/
theorem ring_ext {r' : ConsistentHashingRing} (ring' : RingOf hash members r')
    (hnv : r.numVirtualNodes = r'.numVirtualNodes) (accurate : Accurate r)
    (accurate' : Accurate r') : r = r' := by
  have same := ring.ring_eq ring' hnv
  have count : r.nodeCount = r'.nodeCount := by rw [accurate, accurate', same]
  cases r
  cases r'
  cases same
  cases count
  cases hnv
  rfl

include apart

theorem accurate_newcomer (fresh : x ∉ members) (positive : 0 < r.numVirtualNodes)
    (accurate : Accurate r) : Accurate (r.addNode hash x) := by
  refine ReplicaWalk.accurate_addNode (fun p hp => fresh ((ring p x).mp hp).1)
    (fun i hi id hid => ?_) positive accurate
  obtain ⟨hmember, i', hi', hpos⟩ := (ring _ id).mp hid
  obtain ⟨rfl, _⟩ := apart x (Set.mem_insert _ _) id (Set.mem_insert_of_mem _ hmember) i hi i' hi'
    hpos
  exact fresh hmember

theorem accurate_removeNode (hx : x ∈ members) (positive : 0 < r.numVirtualNodes)
    (accurate : Accurate r) : Accurate (r.removeNode hash x) := by
  have hmem : x ∈ owners hash r "" := (ring.mem_owners positive).mpr hx
  have hlength : (owners hash (r.removeNode hash x) "").length =
      (owners hash r "").length - 1 := by
    have herase : owners hash (r.removeNode hash x) "" = (owners hash r "").erase x := by
      rw [owners_removeNode ring apart, nodup_owners.erase_eq_filter]
      refine List.filter_congr fun id _ => ?_
      by_cases hid : id = x
      · simp [hid]
      · simp [hid]
    rw [herase, List.length_erase_of_mem hmem]
  have hpos := List.length_pos_of_mem hmem
  have hcount : (r.removeNode hash x).nodeCount = r.nodeCount - 1 := rfl
  have hbefore : (owners hash r "").length = _ := length_owners
  have hafter : (owners hash (r.removeNode hash x) "").length = _ := length_owners
  rw [Accurate, hcount, accurate, ← hbefore, ← hafter, hlength]
  omega

end Counted

theorem accurate_init (v : Nat) : Accurate (ConsistentHashingRing.init v) := rfl

/-- Adding new nodes one after another keeps the count. -/
theorem accurate_foldl_addNode (l : List String) (nodup : l.Nodup) (fresh : ∀ n ∈ l, n ∉ members)
    (ring : RingOf hash members r)
    (apart : NoCollision hash r.numVirtualNodes (members ∪ {n | n ∈ l}))
    (positive : 0 < r.numVirtualNodes) (accurate : Accurate r) :
    Accurate (l.foldl (fun r n => r.addNode hash n) r) := by
  induction l generalizing r members with
  | nil => exact accurate
  | cons n l ih =>
    obtain ⟨hn, nodup⟩ := List.nodup_cons.mp nodup
    rw [List.forall_mem_cons] at fresh
    have hinsert : members ∪ {m | m ∈ n :: l} = insert n members ∪ {m | m ∈ l} := by
      ext m
      simp only [Set.mem_union, Set.mem_ofPred_eq, List.mem_cons, Set.mem_insert_iff]
      tauto
    rw [hinsert] at apart
    have apart' := apart.subset (Set.subset_union_left (t := {m | m ∈ l}))
    refine ih nodup (fun m hm => ?_) (ringOf_addNode ring apart') apart positive
      (accurate_newcomer ring apart' fresh.1 positive accurate)
    rw [Set.mem_insert_iff, not_or]
    exact ⟨fun h => hn (h ▸ hm), fresh.2 m hm⟩

section Leave

variable (ring : RingOf hash members r)
variable (apart : NoCollision hash r.numVirtualNodes (insert x members)) (hx : x ∈ members)

include ring apart

/-- A replica that stays in the ring stays a replica. -/
theorem mem_replicas_removeNode {n : String} (hne : n ≠ x) (hn : n ∈ replicas hash r key) :
    n ∈ replicas hash (r.removeNode hash x) key := by
  rw [replicas_removeNode ring apart]
  exact mem_take_filter_ne nodup_owners hne hn

include hx

theorem onReplicas_relocate {state : String → GossipNode} {dest : String → Option String}
    (others : ∀ n ∈ members, n ≠ x → n ∈ (state x).stubs)
    (moves : Moves x (fun p key => p ∈ (state x).stubs ∧
      Gains hash r (r.removeNode hash x) p key) dest (stored state))
    (held : OnReplicas hash r members (stored state) key e) :
    OnReplicas hash (r.removeNode hash x) (members \ {x}) (relocate x dest (stored state)) key
      e := by
  rintro n ⟨hn, hnx⟩
  cases e with
  | none =>
    have hnone : dest key = none := by
      cases hdest : dest key with
      | none => rfl
      | some p =>
        obtain ⟨d, hd, _⟩ := moves.takes key p hdest
        rw [held.none_of_none hx] at hd
        cases hd
    rw [relocate_of_none hnone, held.none_of_none hn, ite_self]
  | some d =>
    by_cases hnew : n ∈ replicas hash (r.removeNode hash x) key
    · rw [if_pos hnew]
      exact relocate_replicated ring apart hx held others moves hnew
    · have hold : n ∉ replicas hash r key := fun h =>
        hnew (mem_replicas_removeNode ring apart hnx h)
      have hdest : dest key ≠ some n := fun h =>
        hnew (gains_iff.mp (moves.offered key n h).2).2
      rw [if_neg hnew]
      cases hgone : dest key with
      | none => rw [relocate_of_none hgone, held n hn, if_neg hold]
      | some p =>
        have hnp : n ≠ p := fun h => hdest (h ▸ hgone)
        simp [relocate, hgone, show n ≠ x from hnx, hnp, held n hn, hold]

end Leave

section Join

variable {env : Env String Int64} {w : Net} {m : String}

/-- A member that is not a replica any more keeps nothing that the new node takes over. -/
theorem serveJoinNetwork_drops (depth : Nat) (reliable : env.Reliable) (hne : m ≠ x)
    (gone : m ∉ replicas hash ((w.state m).ring.addNode hash x) key)
    (takes : ∀ d, stored w.state m key = some d → TakenOver d (stored w.state x key)) {w' : Net}
    {reply : Reply}
    (run : exec hash env (depth + 1) m (serveJoinNetwork hash m x) w = some (w', reply)) :
    stored w'.state m key = none := by
  obtain ⟨w₁, success, hrun, _, dest, hstored, hmoves⟩ := joinTransferLoop_run hash depth
    (w := (welcome hash env m x w).next) reliable hne.symm
    (joinTransferKeys hash env m (welcome hash env m x w)) nodup_joinTransferKeys
    (fun key hmem => (mem_joinTransferKeys.mp hmem).1) (by simp [welcome, apply]) true
  have hsame : stored (welcome hash env m x w).next.state = stored w.state := stored_welcome m
  rw [hsame] at hstored hmoves
  rw [exec_serveJoinNetwork, hrun] at run
  cases run
  rw [hstored]
  cases hdest : dest key with
  | some p => exact relocate_self hdest
  | none =>
    rw [relocate_of_none hdest]
    cases hd : stored w.state m key with
    | none => rfl
    | some d =>
      have hmoved := hmoves.all key x d ⟨rfl, (mem_joinTransferKeys_iff hd).mpr gone⟩ hd
        (takes d hd)
      simp [hdest] at hmoved

/-- The one member that offers the key hands it over and removes it. -/
theorem joinNetworkLoop_drops (depth : Nat) (reliable : env.Reliable) (told : List String)
    (nodup : told.Nodup) (fresh : x ∉ told) (flag : Bool) (hm : m ∈ told)
    (gone : m ∉ replicas hash ((w.state m).ring.addNode hash x) key)
    (alone : ∀ d, stored w.state m key = some d → stored w.state x key = none ∧
      ∀ a ∈ told, a ≠ m → offered hash x w.state key a = none) {w' : Net} {flag' : Bool}
    (run : exec hash env (depth + 2) x (joinNetworkLoop x told flag) w = some (w', flag')) :
    stored w'.state m key = none := by
  have hmx : m ≠ x := fun h => fresh (h ▸ hm)
  induction told generalizing w flag with
  | nil => exact absurd hm List.not_mem_nil
  | cons addr told ih =>
    obtain ⟨haddr, nodup⟩ := List.nodup_cons.mp nodup
    have hx : x ∉ told := fun h => fresh (List.mem_cons_of_mem _ h)
    have hne : addr ≠ x := fun h => fresh (h ▸ List.mem_cons_self)
    obtain ⟨w₁, success, hserve, hjoined⟩ := serveJoinNetwork_run hash depth w.next reliable hne
    obtain ⟨flag₁, hrest⟩ : ∃ flag₁, exec hash env (depth + 2) x (joinNetworkLoop x told flag₁) w₁ =
        some (w', flag') := by
      rw [joinNetworkLoop, exec_bind, exec_send, deliver_reliable reliable, serveOn_succ, serve,
        hserve] at run
      simp only [Option.map_some, Option.bind_some] at run
      split at run
      · exact ⟨flag, run⟩
      · exact ⟨false, run⟩
    by_cases haddrm : addr = m
    · subst haddrm
      -- nobody touches the store of this member afterwards
      obtain ⟨w₂, _, hloop, hlater⟩ := joinNetworkLoop_run hash depth (w := w₁) reliable told nodup
        hx flag₁
      cases hloop.symm.trans hrest
      rw [hlater.kept addr key hmx fun h => absurd h haddr]
      refine serveJoinNetwork_drops (w := w.next) depth reliable hne gone (fun d hd => ?_) hserve
      rw [World.next_state, (alone d hd).1]
      exact takenOver_none d
    · have htail : m ∈ told := (List.mem_cons.mp hm).resolve_left fun h => haddrm h.symm
      have hkept : ∀ a, a ≠ x → a ≠ addr → stored w₁.state a key = stored w.state a key :=
        fun a hax haa => hjoined.kept a key hax fun h => absurd (List.mem_singleton.mp h) haa
      have hring : ∀ a, a ≠ addr → (w₁.state a).ring = (w.state a).ring := by
        intro a ha
        rw [hjoined.ring a, if_neg (by simpa using ha)]
        rfl
      have hmaddr : m ≠ addr := fun h => haddrm h.symm
      refine ih nodup hx flag₁ htail ?_ (fun d hd => ?_) hrest
      · rw [hring m hmaddr]
        exact gone
      · obtain ⟨free, others⟩ := alone d ((hkept m hmx hmaddr).symm.trans hd)
        have hunoffered : offered hash x w.next.state key addr = none :=
          others addr List.mem_cons_self haddrm
        refine ⟨?_, fun a ha ham => ?_⟩
        · rw [hjoined.arrived key, List.filterMap_cons_none hunoffered]
          exact free
        · have haaddr : a ≠ addr := fun h => haddr (h ▸ ha)
          have hax : a ≠ x := fun h => hx (h ▸ ha)
          rw [offered, hring a haaddr, hkept a hax haaddr]
          exact others a (List.mem_cons_of_mem _ ha) ham

variable (ring : RingOf hash members r)
variable (apart : NoCollision hash r.numVirtualNodes (insert x members)) (fresh : x ∉ members)

include ring apart fresh

/-- A join displaces at most one replica. -/
theorem displaced_unique {a b : String} (ha : a ∈ replicas hash r key)
    (ha' : a ∉ replicas hash (r.addNode hash x) key) (hb : b ∈ replicas hash r key)
    (hb' : b ∉ replicas hash (r.addNode hash x) key) : a = b := by
  rw [replicas, owners_addNode ring apart fresh] at ha hb
  exact newcomer_unique nodup_owners ha ha' hb hb'

/-- A node that is not a replica displaces nobody. -/
theorem replicas_addNode_of_notMem (hx : x ∉ replicas hash (r.addNode hash x) key) :
    replicas hash (r.addNode hash x) key = replicas hash r key := by
  rw [replicas, replicas, owners_addNode ring apart fresh]
  rcases take_filter_ne_cases (l := owners hash (r.addNode hash x) key) nodup_owners x replicaN with
    ⟨_, heq⟩ | ⟨front, back, _, _, htake, _⟩
  · exact heq.symm
  · rw [replicas, htake] at hx
    exact absurd (List.mem_append_right _ List.mem_cons_self) hx

variable {aliveServers : List String}

/-- After a node has joined a ring with enough nodes, exactly the replicas on the larger
ring store the entry. Where nothing is stored, any ring has enough. -/
theorem adminJoin_onReplicas (reliable : env.Reliable)
    (shared : ∀ n ∈ members, (w.state n).ring = r) (all : ∀ n, n ∈ aliveServers ↔ n ∈ members)
    (empty : stored w.state x key = none)
    (enough : replicaN ≤ (owners hash r key).length ∨ e = none)
    (held : OnReplicas hash r members (stored w.state) key e) {w₁ : Net}
    (run : serveOn hash env 3 x (.adminCmd "JoinNetwork" aliveServers) w =
      some (w₁, .adminCmd true)) :
    OnReplicas hash (r.addNode hash x) (insert x members) (stored w₁.state) key e := by
  have hentered : ∀ n, stored (enter hash env x aliveServers w).next.state n key =
      stored w.state n key := by
    intro n
    rw [World.next_state, stored, stored, enter_stateMachine]
  have hring : ∀ n ∈ members, ((enter hash env x aliveServers w).next.state n).ring = r := by
    intro n hn
    have hnx : n ≠ x := fun h => fresh (h ▸ hn)
    rw [World.next_state, enter_of_ne aliveServers hnx]
    exact shared n hn
  have htold : ∀ n, n ∈ told env x (enter hash env x aliveServers w) ↔ n ∈ members :=
    fun n => mem_tellOrder fresh all
  have hoffered : ∀ a ∈ members, offered hash x (enter hash env x aliveServers w).next.state key a =
      if a ∉ replicas hash (r.addNode hash x) key ∧ a ∈ replicas hash r key then e else none := by
    intro a ha
    rw [offered, hring a ha, hentered, held a ha]
    by_cases h : a ∈ replicas hash (r.addNode hash x) key
    · simp [h]
    · simp [h]
  have hxtold : x ∉ told env x (enter hash env x aliveServers w) := fun h => fresh ((htold x).mp h)
  rw [serveOn_succ, serve, exec_adminJoin] at run
  obtain ⟨⟨w₂, flag⟩, hloop, heq⟩ := Option.map_eq_some_iff.mp run
  cases heq
  obtain ⟨_, _, hloop', hjoined⟩ := joinNetworkLoop_run hash 0
    (w := (enter hash env x aliveServers w).next) reliable
    (told env x (enter hash env x aliveServers w)) nodup_told hxtold true
  cases hloop.symm.trans hloop'
  have hdone : stored (act hash w₂ x (.setAlive true)).state = stored w₂.state :=
    stored_of_keepsStore _ x (a := .setAlive true) trivial
  intro n hn
  rw [hdone]
  rcases Set.mem_insert_iff.mp hn with rfl | hn
  · rw [hjoined.arrived key, hentered, empty]
    -- what arrives at the new node is the entry of a displaced replica
    by_cases hdisplaced : ∃ m ∈ replicas hash r key, m ∉ replicas hash (r.addNode hash n) key
    · obtain ⟨m, hold, hgone⟩ := hdisplaced
      have hmember := RingOf.mem_of_mem_replicas ring hold
      have hreplica : n ∈ replicas hash (r.addNode hash n) key := by
        by_contra h
        rw [replicas_addNode_of_notMem ring apart fresh h] at hgone
        exact hgone hold
      rw [if_pos hreplica]
      cases e with
      | none =>
        rw [List.filterMap_eq_nil_iff.mpr fun a ha => by
          rw [hoffered a ((htold a).mp ha), ite_self]]
        rfl
      | some d =>
        refine foldl_settle_eq takenOver_none _ none (fun e he => by cases he) (fun e he => ?_)
          (Or.inl (List.mem_filterMap.mpr ⟨m, (htold m).mpr hmember, ?_⟩))
        · obtain ⟨a, ha, hsent⟩ := List.mem_filterMap.mp he
          rw [hoffered a ((htold a).mp ha)] at hsent
          split at hsent
          · exact Or.inl (Option.some.inj hsent).symm
          · cases hsent
        · rw [hoffered m hmember, if_pos ⟨hgone, hold⟩]
    · rw [List.filterMap_eq_nil_iff.mpr fun a ha => by
        rw [hoffered a ((htold a).mp ha), if_neg fun h => hdisplaced ⟨a, h.2, h.1⟩],
        List.foldl_nil]
      rcases enough with enough | rfl
      · exact (if_neg fun h => hdisplaced (exists_displaced ring apart fresh h enough)).symm
      · exact (ite_self _).symm
  · have hnx : n ≠ x := fun h => fresh (h ▸ hn)
    by_cases hstays : n ∈ replicas hash (r.addNode hash x) key
    · rw [if_pos hstays, hjoined.kept n key hnx (fun _ => by rw [hring n hn]; exact hstays),
        hentered, held n hn, if_pos (mem_replicas_of_addNode ring apart fresh hnx hstays)]
    · rw [if_neg hstays]
      refine joinNetworkLoop_drops 0 reliable _ nodup_told hxtold true ((htold n).mpr hn)
        (by rw [hring n hn]; exact hstays) (fun d hd => ?_) hloop
      have hold : n ∈ replicas hash r key := by
        rw [hentered, held n hn] at hd
        by_contra h
        rw [if_neg h] at hd
        cases hd
      refine ⟨by rw [hentered, empty], fun a ha han => ?_⟩
      rw [hoffered a ((htold a).mp ha), if_neg]
      rintro ⟨hgone, hold'⟩
      exact han (displaced_unique ring apart fresh hold' hgone hold hstays)

end Join

end ExactReplicas
