import DynamoStore.Lib.CallLogs
import DynamoStore.JoinTransfers
import DynamoStore.EntryProvenance
import DynamoStore.LeaveSafety

/-!
# Which keys a join moves

`JoinNetwork` offers the new node every key of which its own node is not a replica. For a
key of which the node was a replica before, this means that the new node has taken its
place. A key that came to the node as a spilled write goes to the new node too, whether
or not the new node is one of its replicas.
-/

namespace JoinHandover

open RpcPrograms CallLogs ClockwiseWalk ConsistentHashingRing GossipNode StateMachine
open RingOwners ReplicaSets RpcInterleaving

section Owners

variable {hash : String → UInt64} {m : SortedMap UInt64 String} {h : UInt64} {n : Nat}
variable {w x : String}

theorem mem_take_insert (p : UInt64) (hw : w ∈ (ownersFrom m h).take n) :
    w ∈ (ownersFrom (m.insert p x) h).take n ∨ x ∈ (ownersFrom (m.insert p x) h).take n := by
  obtain ⟨front, back, back', hwalk, hwalk'⟩ := m.walk_insert_split p x h
  rw [ownersFrom, hwalk, List.map_append] at hw
  rw [ownersFrom, hwalk', List.map_append, List.map_cons]
  exact mem_take_of_split hw

theorem mem_take_foldl_insert {ι : Type} (pos : ι → UInt64) (is : List ι)
    (hw : w ∈ (ownersFrom m h).take n ∨ x ∈ (ownersFrom m h).take n) :
    w ∈ (ownersFrom (is.foldl (fun m i => m.insert (pos i) x) m) h).take n ∨
      x ∈ (ownersFrom (is.foldl (fun m i => m.insert (pos i) x) m) h).take n := by
  induction is generalizing m with
  | nil => exact hw
  | cons i is ih =>
    refine ih ?_
    rcases hw with hw | hx
    · exact mem_take_insert (pos i) hw
    · exact Or.inr (Or.elim (mem_take_insert (pos i) hx) id id)

/-- A replica is displaced only by the node that is added, whatever positions it takes. -/
theorem mem_replicas_or_newcomer {r : ConsistentHashingRing} {key : String}
    (hw : w ∈ replicas hash r key) :
    w ∈ replicas hash (r.addNode hash x) key ∨ x ∈ replicas hash (r.addNode hash x) key :=
  mem_take_foldl_insert _ _ (Or.inl hw)

end Owners

section Logs

variable {hash : String → UInt64} {self x : String} {node node' : GossipNode}
variable {log : List (Event String Action Request)}

/-- A transfer is one request, or a crash. -/
theorem transferKey_logs {key : String} {res : Int}
    (h : Logs (apply hash) (transferKey x key) node log node' res) :
    ∃ data, log = [.sent x (.peerPut key data)] := by
  rw [transferKey, Prog.bind_eq] at h
  obtain ⟨_, log₁, _, node₁, rfl, hread, hput⟩ := logs_bind h
  obtain ⟨rfl, rfl, rfl⟩ := logs_read.mp hread
  rw [GossipNode.peerPut, Prog.bind_eq] at hput
  obtain ⟨_, log₂, _, node₂, rfl, hread', hcall⟩ := logs_bind hput
  obtain ⟨rfl, rfl, rfl⟩ := logs_read.mp hread'
  split at hcall
  · obtain ⟨_, log₃, _, reply, rfl, hsend, hres⟩ := logs_bind hcall
    obtain rfl := logs_send.mp hsend
    split at hres
    · obtain ⟨rfl, _⟩ := logs_ret.mp hres
      exact ⟨_, rfl⟩
    · obtain ⟨rfl, _⟩ := logs_ret.mp hres
      exact ⟨_, rfl⟩
  · exact absurd hcall logs_crash

/-- The loop sends every key of its list to the new node, and removes no other key. -/
theorem joinTransferLoop_logs (keys : List String) {success success' : Bool}
    (h : Logs (apply hash) (joinTransferLoop x keys success) node log node' success') :
    (∀ key ∈ keys, ∃ data, .sent x (.peerPut key data) ∈ log) ∧
      (∀ dst q, .sent dst q ∈ log → dst = x ∧ ∃ key ∈ keys, ∃ data, q = .peerPut key data) ∧
      ∀ key, .done (.remove key) ∈ log → key ∈ keys := by
  induction keys generalizing node log success with
  | nil =>
    obtain ⟨rfl, _⟩ := logs_ret.mp h
    simp
  | cons key keys ih =>
    rw [joinTransferLoop, Prog.bind_eq] at h
    obtain ⟨_, log₁, node₁, res, rfl, htransfer, hloop⟩ := logs_bind h
    obtain ⟨data, rfl⟩ := transferKey_logs htransfer
    have rest : ∃ log₂ success₂ node₂, (log₁ = log₂ ∨ log₁ = .done (.remove key) :: log₂) ∧
        Logs (apply hash) (joinTransferLoop x keys success₂) node₂ log₂ node' success' := by
      split at hloop
      · rw [Prog.bind_eq] at hloop
        obtain ⟨_, log₂, node₂, _, rfl, hremove, htail⟩ := logs_bind hloop
        obtain ⟨rfl, rfl⟩ := logs_perform.mp hremove
        exact ⟨log₂, success, _, Or.inr rfl, htail⟩
      · exact ⟨log₁, false, node₁, Or.inl rfl, hloop⟩
    obtain ⟨log₂, success₂, node₂, hlog₁, hrest⟩ := rest
    obtain ⟨all, only, removed⟩ := ih hrest
    have later : ∀ {e}, e ∈ log₁ → e = .done (.remove key) ∨ e ∈ log₂ := by
      intro e he
      rcases hlog₁ with rfl | rfl
      · exact Or.inr he
      · exact List.mem_cons.mp he
    have earlier : ∀ {e}, e ∈ log₂ → e ∈ log₁ := by
      intro e he
      rcases hlog₁ with rfl | rfl
      · exact he
      · exact List.mem_cons_of_mem _ he
    refine ⟨?_, ?_, ?_⟩
    · rw [List.forall_mem_cons]
      refine ⟨⟨data, List.mem_cons_self⟩, fun key' hkey' => ?_⟩
      obtain ⟨data', hsent⟩ := all key' hkey'
      exact ⟨data', List.mem_cons_of_mem _ (earlier hsent)⟩
    · intro dst q hsent
      rcases List.mem_cons.mp hsent with hsent | hsent
      · cases hsent
        exact ⟨rfl, key, List.mem_cons_self, data, rfl⟩
      · rcases later hsent with hsent | hsent
        · cases hsent
        · obtain ⟨hdst, key', hkey', hq⟩ := only dst q hsent
          exact ⟨hdst, key', List.mem_cons_of_mem _ hkey', hq⟩
    · intro key' hdone
      rcases List.mem_cons.mp hdone with hdone | hdone
      · cases hdone
      · rcases later hdone with hdone | hdone
        · cases hdone
          exact List.mem_cons_self
        · exact List.mem_cons_of_mem _ (removed key' hdone)

/-- The node has an entry under the key. -/
def Stores (node : GossipNode) (key : String) : Prop :=
  ∃ d, node.stateMachine.entry key = some d

theorem getJoinTransferKey_logs {keys : List String}
    (h : Logs (apply hash) (getJoinTransferKey hash self replicaN) node log node' keys) :
    log = [] ∧ node' = node ∧
      ∀ key, key ∈ keys ↔ Stores node key ∧ self ∉ replicas hash node.ring key := by
  rw [getJoinTransferKey, Prog.bind_eq] at h
  obtain ⟨_, log₁, _, _, rfl, hread, hiterate⟩ := logs_bind h
  obtain ⟨rfl, rfl, rfl⟩ := logs_read.mp hread
  obtain ⟨_, log₂, _, allKeys, rfl, hall, hfilter⟩ := logs_bind hiterate
  obtain ⟨rfl, rfl, hperm⟩ := logs_iterate.mp hall
  obtain ⟨rfl, rfl, rfl⟩ := logs_ret.mp hfilter
  refine ⟨rfl, rfl, fun key => ?_⟩
  rw [List.mem_filter, hperm.mem_iff, mem_getAllKeys, decide_eq_true_eq,
    checkDataBelonging_eq_false_iff]
  rfl

/-- The handler works through the keys of which the node is not a replica on the new ring. -/
theorem serveJoinNetwork_logs {reply : Reply}
    (h : Logs (apply hash) (serve hash self (.joinNetwork x)) node log node' reply) :
    ∃ keys : List String, (∀ key, key ∈ keys ↔
        Stores node key ∧ self ∉ replicas hash (node.ring.addNode hash x) key) ∧
      (∀ key ∈ keys, ∃ data, .sent x (.peerPut key data) ∈ log) ∧
      (∀ dst q, .sent dst q ∈ log → dst = x ∧ ∃ key ∈ keys, ∃ data, q = .peerPut key data) ∧
      ∀ key, .done (.remove key) ∈ log → key ∈ keys := by
  rw [serve, serveJoinNetwork, Prog.bind_eq] at h
  obtain ⟨_, log₁, _, _, rfl, hadd, h₁⟩ := logs_bind h
  obtain ⟨rfl, rfl⟩ := logs_perform.mp hadd
  obtain ⟨_, log₂, _, time, rfl, hclock, h₂⟩ := logs_bind h₁
  obtain ⟨rfl, rfl⟩ := logs_clock.mp hclock
  obtain ⟨_, log₃, _, _, rfl, hheartbeat, h₃⟩ := logs_bind h₂
  obtain ⟨rfl, rfl⟩ := logs_perform.mp hheartbeat
  obtain ⟨_, log₄, _, _, rfl, hstub, h₄⟩ := logs_bind h₃
  obtain ⟨rfl, rfl⟩ := logs_perform.mp hstub
  obtain ⟨_, log₅, _, keys, rfl, hkeys, h₅⟩ := logs_bind h₄
  obtain ⟨_, log₆, _, success, rfl, hloop, h₆⟩ := logs_bind h₅
  obtain ⟨rfl, _⟩ := logs_ret.mp h₆
  obtain ⟨rfl, rfl, hmem⟩ := getJoinTransferKey_logs hkeys
  obtain ⟨all, only, removed⟩ := joinTransferLoop_logs _ hloop
  refine ⟨keys, hmem, ?_, ?_, ?_⟩
  · intro key hkey
    obtain ⟨data, hsent⟩ := all key hkey
    exact ⟨data, by simpa using hsent⟩
  · intro dst q hsent
    exact only dst q (by simpa using hsent)
  · intro key hdone
    exact removed key (by simpa using hdone)

variable (hash self x node log) in
/-- The handler sends node `x` exactly the stored keys that change hands, and moves no key
to a node that is not one of its replicas. -/
def HandsOver : Prop :=
  (∀ key, (∃ data, .sent x (.peerPut key data) ∈ log) ↔
    Stores node key ∧ self ∉ replicas hash (node.ring.addNode hash x) key ∧
      x ∈ replicas hash (node.ring.addNode hash x) key) ∧
  (∀ dst key data, .sent dst (.peerPut key data) ∈ log →
    dst ∈ replicas hash (node.ring.addNode hash x) key) ∧
  ∀ key, .done (.remove key) ∈ log → x ∈ replicas hash (node.ring.addNode hash x) key

variable (hash self x node) in
/-- The keys of which the node was no replica before find one in it or in node `x`. -/
def SpilledKeysFollow : Prop :=
  ∀ key, Stores node key → self ∉ replicas hash node.ring key →
    self ∈ replicas hash (node.ring.addNode hash x) key ∨
      x ∈ replicas hash (node.ring.addNode hash x) key

theorem handsOver_iff {reply : Reply}
    (h : Logs (apply hash) (serve hash self (.joinNetwork x)) node log node' reply) :
    HandsOver hash self x node log ↔ SpilledKeysFollow hash self x node := by
  obtain ⟨keys, hkeys, all, only, removed⟩ := serveJoinNetwork_logs h
  constructor
  · rintro ⟨exact_keys, _, _⟩ key hstores _
    by_cases hself : self ∈ replicas hash (node.ring.addNode hash x) key
    · exact Or.inl hself
    · exact Or.inr ((exact_keys key).mp (all key ((hkeys key).mpr ⟨hstores, hself⟩))).2.2
  · intro follow
    have gained : ∀ key ∈ keys, x ∈ replicas hash (node.ring.addNode hash x) key := by
      intro key hkey
      obtain ⟨hstores, hself⟩ := (hkeys key).mp hkey
      by_cases hold : self ∈ replicas hash node.ring key
      · exact (mem_replicas_or_newcomer hold).resolve_left hself
      · exact (follow key hstores hold).resolve_left hself
    refine ⟨fun key => ⟨?_, ?_⟩, ?_, fun key hdone => gained key (removed key hdone)⟩
    · rintro ⟨data, hsent⟩
      obtain ⟨_, key', hkey', _, hq⟩ := only x _ hsent
      cases hq
      exact ⟨((hkeys key).mp hkey').1, ((hkeys key).mp hkey').2, gained key hkey'⟩
    · rintro ⟨hstores, hself, _⟩
      exact all key ((hkeys key).mpr ⟨hstores, hself⟩)
    · intro dst key data hsent
      obtain ⟨rfl, key', hkey', _, hq⟩ := only dst _ hsent
      cases hq
      exact gained key hkey'

end Logs

/-- With any state of the node and in any execution of the handler: the join moves the
right keys, to the right node, exactly if the spilled keys find a replica. Every join that
an interleaved run has answered is such an execution, from a state that the node had. -/
theorem join_hands_over_iff (hash : String → UInt64) (self x : String) :
    (∀ node log node' reply,
      Logs (apply hash) (serve hash self (.joinNetwork x)) node log node' reply →
      (HandsOver hash self x node log ↔ SpilledKeysFollow hash self x node)) ∧
    ∀ allowed ok state c reply,
      Reach (apply hash) (serve hash) allowed ok (.start state) c →
      (self, .joinNetwork x, reply) ∈ c.finished →
      ∃ node log node', Passed (apply hash) (serve hash) allowed ok (.start state) c self node ∧
        Logs (apply hash) (serve hash self (.joinNetwork x)) node log node' reply ∧
        (HandsOver hash self x node log ↔ SpilledKeysFollow hash self x node) := by
  refine ⟨fun node log node' reply h => handsOver_iff h, ?_⟩
  intro allowed ok state c reply hreach answered
  obtain ⟨node, log, node', hpassed, hlog⟩ := logs_of_reach hreach rfl rfl answered
  exact ⟨node, log, node', hpassed, hlog, handsOver_iff hlog⟩

section Samples

open ClusterStores HandlerRuns
open EntryProvenance (fiveNodes)
open LeaveSafety (spilledPut wellFormed_spilledPut)
open ReachableStates (WellFormed)

/-- Node A takes the place of node D, which sends it the key. -/
theorem join_hands_over_sample :
    ∃ log node' reply,
      Logs (apply fourNodes) (serve fourNodes "D" (.joinNetwork "A"))
        (holding fourNodes ["B", "C", "D"] ["B", "C", "D"] "k" ("v", [("B", 1)]) "D") log node'
          reply ∧
      HandsOver fourNodes "D" "A"
        (holding fourNodes ["B", "C", "D"] ["B", "C", "D"] "k" ("v", [("B", 1)]) "D") log := by
  obtain ⟨⟨w', reply⟩, hrun, _⟩ :
      ∃ x ∈ exec fourNodes calmEnv 1 "D" (serve fourNodes "D" (.joinNetwork "A"))
        ⟨holding fourNodes ["B", "C", "D"] ["B", "C", "D"] "k" ("v", [("B", 1)]), 0⟩,
        x.2 = .joinNetwork true := by
    decide +kernel
  obtain ⟨log, hlog⟩ := logs_of_run hrun
  refine ⟨log, _, _, hlog, ((join_hands_over_iff fourNodes "D" "A").1 _ _ _ _ hlog).mpr ?_⟩
  rintro key ⟨d, hd⟩ hnot
  have hentry := (stored_holding "D" key).symm.trans hd
  by_cases hkey : key = "k"
  · subst hkey
    exact absurd (by decide +kernel) hnot
  · simp [hkey] at hentry

/-- The key has replicas A, B and C, and node D keeps a put of its own that they reject.
When node E joins, which is no replica either, D sends it the key and removes it. -/
theorem join_moves_key_to_stranger :
    ∃ c : Config String GossipNode Action Request Reply Int64,
      Reach (apply fiveNodes) (serve fiveNodes) (WellFormed Set.univ) (fun _ _ _ _ => True)
        (.start fun _ => GossipNode.new 1) c ∧
      stored c.shared.state "D" "k" = some ("v2", [("D", 1)]) ∧
      "E" ∉ replicas fiveNodes ((c.shared.state "D").ring.addNode fiveNodes "E") "k" ∧
      (∃ w', serveOn fiveNodes calmEnv 2 "D" (.joinNetwork "E") ⟨c.shared.state, 0⟩ =
          some (w', .joinNetwork true) ∧
        stored w'.state "D" "k" = none ∧
        stored w'.state "E" "k" = some ("v2", [("D", 1)])) ∧
      ∀ log node' reply, Logs (apply fiveNodes) (serve fiveNodes "D" (.joinNetwork "E"))
        (c.shared.state "D") log node' reply →
        ¬ HandsOver fiveNodes "D" "E" (c.shared.state "D") log := by
  obtain ⟨⟨w, finished⟩, hsession, hD, hself, hE, ⟨w', _⟩, hserve, rfl, hgone, htaken⟩ :
      ∃ x ∈ session (apply fiveNodes) (serve fiveNodes) (fun _ _ _ _ => True) calmEnv 4
        spilledPut ⟨fun _ => GossipNode.new 1, 0⟩,
        stored x.1.state "D" "k" = some ("v2", [("D", 1)]) ∧
        "D" ∉ replicas fiveNodes ((x.1.state "D").ring.addNode fiveNodes "E") "k" ∧
        "E" ∉ replicas fiveNodes ((x.1.state "D").ring.addNode fiveNodes "E") "k" ∧
        ∃ y ∈ serveOn fiveNodes calmEnv 2 "D" (.joinNetwork "E") ⟨x.1.state, 0⟩,
          y.2 = .joinNetwork true ∧ stored y.1.state "D" "k" = none ∧
          stored y.1.state "E" "k" = some ("v2", [("D", 1)]) := by
    decide +kernel
  refine ⟨_, reach_of_session _ calmEnv_reliable 4 _ (wellFormed_spilledPut fun _ _ =>
    Set.mem_univ _) [] [] hsession, hD, hE, ⟨w', hserve, hgone, htaken⟩, ?_⟩
  rintro log node' reply hlog ⟨_, only_owners, _⟩
  obtain ⟨keys, hkeys, all, _, _⟩ := serveJoinNetwork_logs hlog
  obtain ⟨data, hsent⟩ := all "k" ((hkeys "k").mpr ⟨⟨_, hD⟩, hself⟩)
  exact hE (only_owners "E" "k" data hsent)

end Samples

end JoinHandover
