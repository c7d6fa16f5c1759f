import DynamoStore.LivenessTest

/-!
# Whom a gossip reaches

A node sends its table only to the peers that its own table has alive. Whoever gets it
learns how recent the sender is; all others keep what they know. So after a silence longer
than `CHECK_ALIVE_INTERVAL` on both sides, two nodes no longer tell each other anything.
-/

namespace GossipContacts

open RpcPrograms GossipNode HandlerRuns QuorumRuns CoordinatorChoice HeartbeatTables
open LivenessTest JoinTables ClusterStores

variable {hash : String → UInt64} {env : Env String Int64} {depth : Nat} {self : String}
variable {w : Net} {memberList : List (String × Int64)}

/-- The pairs of a request are in the table of the node. -/
def Carried (memberList : List (String × Int64)) (node : GossipNode) : Prop :=
  ∀ p ∈ memberList, node.membersHeartbeatList.lookup p.1 = some p.2

theorem heartbeat_of_lookup {node : GossipNode} {m : String} {time : Int64}
    (h : node.membersHeartbeatList.lookup m = some time) : node.heartbeat m = time := by
  rw [heartbeat, h, Option.getD_some]

theorem Carried.touch {node : GossipNode} (carried : Carried memberList node) (nodeId : String) :
    Carried memberList (apply hash (.touchHeartbeat nodeId) node) := by
  intro p hp
  rw [apply]
  by_cases h : p.1 = nodeId
  · rw [← h, AList.lookup_insert, heartbeat_of_lookup (carried p hp)]
  · rw [AList.lookup_insert_ne h]
    exact carried p hp

/-- What `Gossip` does on the node that receives it. -/
theorem serveOn_gossip_run (hash : String → UInt64) (env : Env String Int64) (depth : Nat)
    (n : String) (memberList : List (String × Int64)) (w : Net) :
    ∃ w', serveOn hash env (depth + 1) n (.gossip memberList) w = some (w', .gossip true) ∧
      w'.tick = w.tick ∧ (∀ n', n' ≠ n → w'.state n' = w.state n') ∧
      (∀ n', (w'.state n').stubs = (w.state n').stubs) ∧
      (∀ p ∈ memberList, p.2.toInt ≤ ((w'.state n).heartbeat p.1).toInt) ∧
      (Carried memberList (w.state n) → ∀ m, (w'.state n).membersHeartbeatList.lookup m =
        (w.state n).membersHeartbeatList.lookup m) := by
  have run : serveOn hash env (depth + 1) n (.gossip memberList)
      (withTable n (w.state n).membersHeartbeatList w) = _ := serveOn_gossip memberList _ w
  rw [withTable_own] at run
  have table : ((withTable n (memberList.foldl mergePair (w.state n).membersHeartbeatList)
      w).state n).membersHeartbeatList =
      memberList.foldl mergePair (w.state n).membersHeartbeatList := by
    rw [withTable, World.modify_self]
  refine ⟨_, run, rfl, fun n' h => World.modify_of_ne _ _ h, fun n' => ?_, fun p hp => ?_,
    fun carried m => ?_⟩
  · by_cases h : n' = n
    · rw [h, withTable, World.modify_self]
    · rw [withTable, World.modify_of_ne _ _ h]
  · rw [heartbeat, table]
    exact received_le_mergePairs hp _
  · rw [table]
    exact lookup_mergePairs_own memberList _ carried m

/-- What the part of a gossip does that is about one peer: the peer is told, or nothing
happens to it, as the look at it decides. -/
structure Told (hash : String → UInt64) (env : Env String Int64) (n addr : String)
    (memberList : List (String × Int64)) (w w' : Net) : Prop where
  later : w.tick < w'.tick
  stubs : ∀ n', (w'.state n').stubs = (w.state n').stubs
  others : ∀ n', n' ≠ n → n' ≠ addr → w'.state n' = w.state n'
  own : ∀ m, (w'.state n).heartbeat m = (w.state n).heartbeat m
  carried : Carried memberList (w'.state n)
  told : addr ≠ n → Recent env w.tick (w.state n) addr →
    ∀ p ∈ memberList, p.2.toInt ≤ ((w'.state addr).heartbeat p.1).toInt
  passed : addr ≠ n → ¬ Recent env w.tick (w.state n) addr → w'.state addr = w.state addr

section Loop

variable (hash env depth self w)

theorem carried_look (carried : Carried memberList (w.state self)) (addr : String) :
    Carried memberList ((look hash self addr w).state self) := by
  rw [look, World.modify_self]
  exact carried.touch addr

theorem gossipLoop_step (reliable : env.Reliable) (carried : Carried memberList (w.state self))
    (addr : String) (stubs : List String) :
    ∃ w', exec hash env (depth + 1) self (gossipLoop memberList (addr :: stubs)) w =
        exec hash env (depth + 1) self (gossipLoop memberList stubs) w' ∧
      Told hash env self addr memberList w w' := by
  have view := sameView_look hash self w addr
  have carried' := carried_look hash self w carried addr
  have other : ∀ n', n' ≠ self → (look hash self addr w).state n' = w.state n' :=
    fun n' h => World.modify_of_ne _ _ h
  rw [(Site.gossip memberList stubs).exec_eq]
  by_cases h : Recent env w.tick (w.state self) addr
  · obtain ⟨w', hserve, htick, hothers, hstubs, htold, hown⟩ := serveOn_gossip_run hash env depth
      addr memberList (look hash self addr w).next
    rw [if_pos h, exec_bind, exec_send, deliver_reliable reliable, hserve]
    refine ⟨w', rfl, ?_, ?_, ?_, ?_, ?_, fun _ _ => htold, fun _ hnot => absurd h hnot⟩
    · rw [htick]
      exact Nat.lt_add_of_pos_right (Nat.succ_pos 1)
    · exact fun n' => (hstubs n').trans (view.stubs n')
    · intro n' hn hne
      rw [hothers n' hne]
      exact other n' hn
    · intro m
      by_cases hself : self = addr
      · subst hself
        rw [heartbeat, hown carried']
        exact view.heartbeat self m
      · rw [hothers self hself]
        exact view.heartbeat self m
    · by_cases hself : self = addr
      · subst hself
        intro p hp
        rw [hown carried']
        exact carried' p hp
      · rw [hothers self hself]
        exact carried'
  · rw [if_neg h]
    exact ⟨look hash self addr w, rfl, Nat.lt_succ_self _, view.stubs,
      fun n' hn _ => other n' hn, view.heartbeat self, carried',
      fun _ hrecent => absurd hrecent h, fun hne _ => other addr hne⟩

/-- What a whole gossip does: the look at a peer, at tick `i`, decides whether it is told. -/
theorem gossipLoop_run (reliable : env.Reliable) (stubs : List String) (nodup : stubs.Nodup)
    (carried : Carried memberList (w.state self)) :
    ∃ w', exec hash env (depth + 1) self (gossipLoop memberList stubs) w = some (w', ()) ∧
      w.tick ≤ w'.tick ∧ (∀ n, (w'.state n).stubs = (w.state n).stubs) ∧
      (∀ m, (w'.state self).heartbeat m = (w.state self).heartbeat m) ∧
      (∀ n, n ≠ self → n ∉ stubs → w'.state n = w.state n) ∧
      ∀ n, n ≠ self → n ∈ stubs → ∃ i, w.tick ≤ i ∧ i < w'.tick ∧
        (Recent env i (w.state self) n →
          ∀ p ∈ memberList, p.2.toInt ≤ ((w'.state n).heartbeat p.1).toInt) ∧
        (¬ Recent env i (w.state self) n → w'.state n = w.state n) := by
  induction stubs generalizing w with
  | nil =>
    exact ⟨w, rfl, le_rfl, fun _ => rfl, fun _ => rfl, fun _ _ _ => rfl,
      fun n _ h => absurd h List.not_mem_nil⟩
  | cons addr stubs ih =>
    obtain ⟨hnot, nodup⟩ := List.nodup_cons.mp nodup
    obtain ⟨w₁, hstep, told⟩ := gossipLoop_step hash env depth self w reliable carried addr stubs
    obtain ⟨w', hrun, hle, hstubs, hown, hrest, hreach⟩ := ih w₁ nodup told.carried
    refine ⟨w', hstep.trans hrun, told.later.le.trans hle,
      fun n => (hstubs n).trans (told.stubs n), fun m => (hown m).trans (told.own m),
      fun n hn hmem => ?_, fun n hn hmem => ?_⟩
    · rw [List.mem_cons, not_or] at hmem
      exact (hrest n hn hmem.2).trans (told.others n hn hmem.1)
    · rcases List.mem_cons.mp hmem with rfl | htail
      · refine ⟨w.tick, le_rfl, told.later.trans_le hle, fun h => ?_, fun h => ?_⟩
        · rw [hrest n hn hnot]
          exact told.told hn h
        · rw [hrest n hn hnot]
          exact told.passed hn h
      · obtain ⟨i, hi, hlt, htold, hpassed⟩ := hreach n hn htail
        have hne : n ≠ addr := fun h => hnot (h ▸ htail)
        refine ⟨i, told.later.le.trans hi, hlt, fun h => htold ?_, fun h => ?_⟩
        · rwa [recent_congr told.own]
        · rw [hpassed (by rwa [recent_congr told.own])]
          exact told.others n hn hne

end Loop

section Gossip

/-- The pairs that a node sends, in the order `members` of the iteration. -/
def memberPairs (node : GossipNode) (members : List String) : List (String × Int64) :=
  members.map fun member => (member, node.heartbeat member)

theorem carried_memberPairs {node : GossipNode} {members : List String}
    (perm : members.Perm node.membersHeartbeatList.keys) :
    Carried (memberPairs node members) node := by
  intro p hp
  obtain ⟨member, hmember, rfl⟩ := List.mem_map.mp hp
  have hmem : member ∈ node.membersHeartbeatList := AList.mem_keys.mpr (perm.mem_iff.mp hmember)
  obtain ⟨time, htime⟩ := Option.isSome_iff_exists.mp (AList.lookup_isSome.mpr hmem)
  exact htime.trans (congrArg some (heartbeat_of_lookup htime).symm)

theorem mem_memberPairs {node : GossipNode} {members : List String} {m : String} {time : Int64}
    (perm : members.Perm node.membersHeartbeatList.keys)
    (h : node.membersHeartbeatList.lookup m = some time) :
    (m, time) ∈ memberPairs node members := by
  have hmem : m ∈ node.membersHeartbeatList :=
    AList.lookup_isSome.mp (Option.isSome_of_eq_some h)
  refine List.mem_map.mpr ⟨m, perm.mem_iff.mpr (AList.mem_keys.mp hmem), ?_⟩
  rw [heartbeat_of_lookup h]

theorem heartbeat_setHeartbeat_of_ne {node : GossipNode} {m nodeId : String} (time : Int64)
    (h : m ≠ nodeId) : (apply hash (.setHeartbeat nodeId time) node).heartbeat m =
      node.heartbeat m := by
  rw [apply, heartbeat, AList.lookup_insert_ne h]
  rfl

variable (hash env depth self w)

/-- The node sets its own time, and enters the loop with its table and its peers. -/
theorem gossip_enters : ∃ (memberList : List (String × Int64)) (stubs : List String) (w₁ : Net),
    exec hash env (depth + 1) self (gossip self) w =
        exec hash env (depth + 1) self (gossipLoop memberList stubs) w₁ ∧
      w.tick < w₁.tick ∧ stubs.Perm (w.state self).stubs.keys ∧
      (self, env.now w.tick) ∈ memberList ∧ Carried memberList (w₁.state self) ∧
      (∀ n, n ≠ self → w₁.state n = w.state n) ∧
      w₁.state self = apply hash (.setHeartbeat self (env.now w.tick)) (w.state self) := by
  let w₁ := act hash w.next self (.setHeartbeat self (env.now w.tick))
  have own : w₁.state self = apply hash (.setHeartbeat self (env.now w.tick)) (w.state self) :=
    World.modify_self _ _ _
  have members := env.perm w₁.tick (w₁.state self).membersHeartbeatList.keys
  refine ⟨memberPairs (w₁.state self) (env.order w₁.tick (w₁.state self).membersHeartbeatList.keys),
    env.order w₁.next.tick (w₁.state self).stubs.keys, w₁.next.next, ?_, ?_, ?_, ?_,
    carried_memberPairs members, fun n h => World.modify_of_ne _ _ h, own⟩
  · simp only [gossip, exec_bind, exec_clock, exec_perform, exec_read, exec_iterate,
      Option.bind_some]
    rfl
  · exact Nat.lt_add_of_pos_right (Nat.succ_pos 2)
  · rw [own]
    exact env.perm _ _
  · refine mem_memberPairs members ?_
    rw [own, apply, AList.lookup_insert]

/-- The node sends its table to the peers it has alive. -/
theorem gossip_run (reliable : env.Reliable) :
    ∃ w', exec hash env (depth + 1) self (gossip self) w = some (w', ()) ∧ w.tick < w'.tick ∧
      (∀ n, (w'.state n).stubs = (w.state n).stubs) ∧
      (∀ m, m ≠ self → (w'.state self).heartbeat m = (w.state self).heartbeat m) ∧
      ∀ n, n ≠ self → n ∈ (w.state self).stubs → ∃ i, w.tick ≤ i ∧ i < w'.tick ∧
        (Recent env i (w.state self) n →
          (env.now w.tick).toInt ≤ ((w'.state n).heartbeat self).toInt) ∧
        (¬ Recent env i (w.state self) n → w'.state n = w.state n) := by
  obtain ⟨memberList, stubs, w₁, enter, later, perm, sent, carried, others, own⟩ :=
    gossip_enters hash env depth self w
  have nodup : stubs.Nodup := perm.nodup_iff.mpr (AList.keys_nodup _)
  obtain ⟨w', hrun, hle, hstubs, hown, -, hreach⟩ :=
    gossipLoop_run hash env depth self w₁ reliable stubs nodup carried
  have keeps : ∀ n, (w₁.state n).stubs = (w.state n).stubs := by
    intro n
    by_cases h : n = self
    · rw [h, own]
      rfl
    · rw [others n h]
  have same : ∀ m, m ≠ self → (w₁.state self).heartbeat m = (w.state self).heartbeat m := by
    intro m hm
    rw [own]
    exact heartbeat_setHeartbeat_of_ne _ hm
  refine ⟨w', enter.trans hrun, later.trans_le hle, fun n => (hstubs n).trans (keeps n),
    fun m hm => (hown m).trans (same m hm), fun n hn hmem => ?_⟩
  obtain ⟨i, hi, hlt, htold, hpassed⟩ := hreach n hn (perm.mem_iff.mpr (AList.mem_keys.mp hmem))
  have recent : Recent env i (w₁.state self) n ↔ Recent env i (w.state self) n := by
    rw [Recent, Recent, same n hn]
  refine ⟨i, later.le.trans hi, hlt, fun h => ?_, fun h => ?_⟩
  · exact htold (recent.mpr h) (self, env.now w.tick) sent
  · rw [hpassed fun h' => h (recent.mp h')]
    exact others n hn

end Gossip

/-- All that happens from one tick to another one takes less than `CHECK_ALIVE_INTERVAL`, on
clocks that have passed the epoch. -/
structure Timely (env : Env String Int64) (start stop : Nat) : Prop where
  epoch : ∀ i, start ≤ i → i ≤ stop → 0 ≤ (env.now i).toInt
  delivered : ∀ i j, start ≤ i → i ≤ j → j ≤ stop →
    elapsed (env.now j) (env.now i) < aliveNs

theorem timely_of_still {time : Int64} (still : ∀ i, env.now i = time) (epoch : 0 ≤ time.toInt)
    (start stop : Nat) : Timely env start stop where
  epoch i _ _ := by rwa [still]
  delivered i j _ _ _ := by
    rw [still, still, elapsed, Int.sub_self]
    decide

theorem Timely.recent {start stop i j : Nat} (timely : Timely env start stop) (hi : start ≤ i)
    (hij : i ≤ j) (hj : j ≤ stop) {node : GossipNode} {m : String}
    (heard : (env.now i).toInt ≤ (node.heartbeat m).toInt) : Recent env j node m := by
  have hnow := timely.epoch j (hi.trans hij) hj
  have hthen := timely.epoch i hi (hij.trans hj)
  have hlt := timely.delivered i j hi hij hj
  have upper := (env.now j).toInt_lt
  have upper' := (node.heartbeat m).toInt_lt
  have fits : (env.now j - node.heartbeat m).toInt = elapsed (env.now j) (node.heartbeat m) := by
    refine toInt_sub_iff.mpr ⟨?_, ?_⟩
    · rw [elapsed]
      omega
    · rw [elapsed]
      omega
  rw [Recent, durationMs_lt_iff, fits]
  rw [elapsed] at hlt ⊢
  omega

section TwoNodes

variable {a b : String}

/-- Two nodes gossip one after the other. Node `a` then has `b` alive exactly if one of them
contacted the other, or it still had; node `b` has `a` alive exactly if `a` contacted it, or
it still had. Whether a node contacts the other is up to its own table. -/
theorem gossip_heals_iff (hash : String → UInt64) (depth : Nat) (reliable : env.Reliable)
    (w : Net) (hab : a ≠ b) (hb : b ∈ (w.state a).stubs) (ha : a ∈ (w.state b).stubs) :
    ∃ w₁ w₂ i j, exec hash env (depth + 1) a (gossip a) w = some (w₁, ()) ∧
      exec hash env (depth + 1) b (gossip b) w₁ = some (w₂, ()) ∧
      w.tick ≤ i ∧ i < w₁.tick ∧ w₁.tick ≤ j ∧ j < w₂.tick ∧
      ∀ w₃ : Net, w₂.tick ≤ w₃.tick → Timely env w.tick w₃.tick →
        ((w₃.state a).heartbeat b = (w₂.state a).heartbeat b →
          (TreatsAlive hash env a b w₃ ↔ Recent env i (w.state a) b ∨
            Recent env j (w.state b) a ∨ Recent env w₃.tick (w.state a) b)) ∧
        ((w₃.state b).heartbeat a = (w₂.state b).heartbeat a →
          (TreatsAlive hash env b a w₃ ↔
            Recent env i (w.state a) b ∨ Recent env w₃.tick (w.state b) a)) := by
  obtain ⟨w₁, hrun₁, hlt₁, hstubs₁, hown₁, hreach₁⟩ := gossip_run hash env depth a w reliable
  obtain ⟨w₂, hrun₂, hlt₂, -, hown₂, hreach₂⟩ := gossip_run hash env depth b w₁ reliable
  obtain ⟨i, hi, hi', htold₁, hpassed₁⟩ := hreach₁ b hab.symm hb
  obtain ⟨j, hj, hj', htold₂, hpassed₂⟩ := hreach₂ a hab (by rwa [hstubs₁])
  refine ⟨w₁, w₂, i, j, hrun₁, hrun₂, hi, hi', hj, hj', fun w₃ hle timely => ⟨?_, ?_⟩⟩
  · intro same
    have told : Recent env j (w₁.state b) a → TreatsAlive hash env a b w₃ := by
      intro h
      rw [treatsAlive_iff]
      refine timely.recent hlt₁.le (hlt₂.le.trans hle) le_rfl ?_
      rw [same]
      exact htold₂ h
    by_cases h : Recent env i (w.state a) b
    · -- node b has heard of a, and answers
      have heard : Recent env j (w₁.state b) a :=
        timely.recent le_rfl (hlt₁.le.trans hj) (hj'.le.trans hle) (htold₁ h)
      exact iff_of_true (told heard) (Or.inl h)
    · rw [hpassed₁ h] at told hpassed₂
      by_cases h' : Recent env j (w.state b) a
      · exact iff_of_true (told h') (Or.inr (Or.inl h'))
      · rw [or_iff_right h, or_iff_right h', treatsAlive_iff, Recent, Recent, same,
          hpassed₂ h', hown₁ b hab.symm]
  · intro same
    rw [hown₂ a hab] at same
    by_cases h : Recent env i (w.state a) b
    · refine iff_of_true (treatsAlive_iff.mpr ?_) (Or.inl h)
      refine timely.recent le_rfl (hlt₁.le.trans (hlt₂.le.trans hle)) le_rfl ?_
      rw [same]
      exact htold₁ h
    · rw [or_iff_right h, treatsAlive_iff, Recent, Recent, same, hpassed₁ h]

end TwoNodes

section Samples

/-- The clock stands still, 20 seconds after the epoch. -/
def lateEnv : Env String Int64 where
  now _ := 20000000000
  order _ l := l
  perm _ l := List.Perm.refl l
  fate _ _ := .delivered

/-- Two nodes that know each other, and have heard of each other 20 seconds ago or never. -/
def silentPair : Net := ⟨cluster fourNodes ["A", "B"], 0⟩

/-- Node A heard of node B five seconds ago; B still has A as silent. -/
def oneSidedPair : Net := act fourNodes silentPair "A" (.setHeartbeat "B" 15000000000)

theorem gossip_heals_sample : ¬ TreatsAlive fourNodes lateEnv "B" "A" oneSidedPair ∧
    ∃ w₁ w₂, exec fourNodes lateEnv 1 "A" (gossip "A") oneSidedPair = some (w₁, ()) ∧
      exec fourNodes lateEnv 1 "B" (gossip "B") w₁ = some (w₂, ()) ∧
      TreatsAlive fourNodes lateEnv "A" "B" w₂ ∧ TreatsAlive fourNodes lateEnv "B" "A" w₂ := by
  have silent : ¬ Recent lateEnv oneSidedPair.tick (oneSidedPair.state "B") "A" := by
    decide +kernel
  refine ⟨fun h => silent (treatsAlive_iff.mp h), ?_⟩
  obtain ⟨w₁, w₂, i, j, hrun₁, hrun₂, _, _, _, _, h⟩ := gossip_heals_iff fourNodes 0
    (show lateEnv.Reliable from fun _ _ => rfl) oneSidedPair (show "A" ≠ "B" by decide)
    (by decide) (by decide)
  have timely : Timely lateEnv oneSidedPair.tick w₂.tick :=
    timely_of_still (fun _ => rfl) (by decide) _ _
  have recent : Recent lateEnv i (oneSidedPair.state "A") "B" := by
    rw [Recent, show lateEnv.now i = 20000000000 from rfl]
    decide +kernel
  obtain ⟨ha, hb⟩ := h w₂ le_rfl timely
  exact ⟨w₁, w₂, hrun₁, hrun₂, (ha rfl).mpr (Or.inl recent), (hb rfl).mpr (Or.inl recent)⟩

/-- Each node has the other as silent for longer than the interval, so none is told, and
both stay as they were for each other. -/
theorem silent_pair_stays_apart : lateEnv.Reliable ∧ (∀ i j, Timely lateEnv i j) ∧
    ∃ w₁ w₂, exec fourNodes lateEnv 1 "A" (gossip "A") silentPair = some (w₁, ()) ∧
      exec fourNodes lateEnv 1 "B" (gossip "B") w₁ = some (w₂, ()) ∧
      ¬ TreatsAlive fourNodes lateEnv "A" "B" w₂ ∧ ¬ TreatsAlive fourNodes lateEnv "B" "A" w₂ := by
  refine ⟨fun _ _ => rfl, timely_of_still (fun _ => rfl) (by decide), ?_⟩
  obtain ⟨⟨w₁, _⟩, hrun₁, ⟨w₂, _⟩, hrun₂, ha, hb⟩ :
      ∃ x ∈ exec fourNodes lateEnv 1 "A" (gossip "A") silentPair,
        ∃ y ∈ exec fourNodes lateEnv 1 "B" (gossip "B") x.1,
          ¬ Recent lateEnv y.1.tick (y.1.state "A") "B" ∧
          ¬ Recent lateEnv y.1.tick (y.1.state "B") "A" := by
    decide +kernel
  exact ⟨w₁, w₂, hrun₁, hrun₂, fun h => ha (treatsAlive_iff.mp h),
    fun h => hb (treatsAlive_iff.mp h)⟩

end Samples

end GossipContacts
