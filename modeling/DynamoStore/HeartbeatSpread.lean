import DynamoStore.GossipContacts

/-!
# How a turn of a main loop spreads times

A node whose own time is older than `HEARTBEAT_INTERVAL` stamps itself and sends its table to
all of its peers. If it has all of them alive, each of them then has the later of its own
time and the sender's for every server.
-/

namespace HeartbeatSpread

open RpcPrograms GossipNode HandlerRuns QuorumRuns CoordinatorChoice HeartbeatTables
open LivenessTest GossipContacts JoinTables

variable {hash : String → UInt64} {env : Env String Int64} {depth : Nat} {self m : String}
variable {memberList : List (String × Int64)} {sender receiver : GossipNode} {w : Net}

/-- No time of the node is before the epoch. -/
def FromEpoch (node : GossipNode) : Prop := ∀ m, 0 ≤ (node.heartbeat m).toInt

section Tables

/-- The whole table of the node is sent. -/
def Sent (node : GossipNode) (memberList : List (String × Int64)) : Prop :=
  ∀ m time, (m, time) ∈ memberList ↔
    m ∈ node.membersHeartbeatList ∧ time = node.heartbeat m

theorem sent_memberPairs {members : List String}
    (perm : members.Perm sender.membersHeartbeatList.keys) :
    Sent sender (memberPairs sender members) := by
  intro m time
  rw [memberPairs, List.mem_map]
  constructor
  · rintro ⟨member, hmember, heq⟩
    cases heq
    exact ⟨AList.mem_keys.mpr (perm.mem_iff.mp hmember), rfl⟩
  · rintro ⟨hmem, rfl⟩
    exact ⟨m, perm.mem_iff.mpr (AList.mem_keys.mp hmem), rfl⟩

theorem heartbeat_of_not_mem {node : GossipNode} (h : m ∉ node.membersHeartbeatList) :
    node.heartbeat m = 0 := by
  rw [heartbeat, AList.lookup_eq_none.mpr h, Option.getD_none]

variable (sent : Sent sender memberList) (epoch : FromEpoch sender) (epoch' : FromEpoch receiver)

include sent epoch epoch'

/-- A node that was sent a whole table has the later of both times. -/
theorem toInt_recorded {time : Int64}
    (recorded : Recorded receiver.membersHeartbeatList [memberList] m time) :
    time.toInt = max (receiver.heartbeat m).toInt (sender.heartbeat m).toInt := by
  have pair : ∀ t, (∃ memberList' ∈ [memberList], (m, t) ∈ memberList') →
      m ∈ sender.membersHeartbeatList ∧ t = sender.heartbeat m := by
    rintro t ⟨memberList', hmem, hpair⟩
    rw [List.mem_singleton.mp hmem] at hpair
    exact (sent m t).mp hpair
  have hsender := epoch m
  have hreceiver := epoch' m
  rcases recorded with ⟨hset, hupper⟩ | ⟨hnone, rfl⟩
  · have hown : (receiver.heartbeat m).toInt ≤ time.toInt := by
      by_cases hmem : m ∈ receiver.membersHeartbeatList
      · obtain ⟨t, ht⟩ := Option.isSome_iff_exists.mp (AList.lookup_isSome.mpr hmem)
        rw [heartbeat_of_lookup ht]
        exact Int64.le_iff_toInt_le.mp (hupper (Or.inl ht))
      · rw [heartbeat_of_not_mem hmem]
        rcases hset with hlookup | hpair
        · exact absurd (AList.lookup_isSome.mp (Option.isSome_of_eq_some hlookup)) hmem
        · rw [(pair time hpair).2]
          exact hsender
    have hsent : (sender.heartbeat m).toInt ≤ time.toInt := by
      by_cases hmem : m ∈ sender.membersHeartbeatList
      · have hpair := (sent m _).mpr ⟨hmem, rfl⟩
        exact Int64.le_iff_toInt_le.mp
          (hupper (Or.inr ⟨memberList, List.mem_singleton_self _, hpair⟩))
      · rw [heartbeat_of_not_mem hmem]
        exact hreceiver.trans hown
    rcases hset with hlookup | hpair
    · rw [← heartbeat_of_lookup hlookup] at hsent ⊢
      exact (max_eq_left hsent).symm
    · rw [(pair time hpair).2] at hown ⊢
      exact (max_eq_right hown).symm
  · have hout : m ∉ receiver.membersHeartbeatList := by
      intro hmem
      obtain ⟨t, ht⟩ := Option.isSome_iff_exists.mp (AList.lookup_isSome.mpr hmem)
      exact hnone t (Or.inl ht)
    have hout' : m ∉ sender.membersHeartbeatList := fun hmem =>
      hnone (sender.heartbeat m)
        (Or.inr ⟨memberList, List.mem_singleton_self _, (sent m _).mpr ⟨hmem, rfl⟩⟩)
    rw [heartbeat_of_not_mem hout, heartbeat_of_not_mem hout', max_self]

variable (hash env depth) in
theorem serveOn_gossip_sent (n : String) (hreceiver : w.state n = receiver) :
    ∃ w', serveOn hash env (depth + 1) n (.gossip memberList) w = some (w', .gossip true) ∧
      (∀ m, ((w'.state n).heartbeat m).toInt =
        max (receiver.heartbeat m).toInt (sender.heartbeat m).toInt) ∧
      ∀ n', n' ≠ n → w'.state n' = w.state n' := by
  have served : serveOn hash env (depth + 1) n (.gossip memberList)
      (withTable n (w.state n).membersHeartbeatList w) = _ := serveOn_gossip memberList _ w
  rw [withTable_own] at served
  obtain ⟨w', hrun, recorded⟩ := gossipAll_records hash env depth n [memberList] w
  rw [gossipAll, served] at hrun
  cases hrun
  refine ⟨_, served, fun m => ?_, fun n' h => World.modify_of_ne _ _ h⟩
  rw [← hreceiver] at epoch' ⊢
  exact toInt_recorded sent epoch epoch' (recorded m)

end Tables

section Loop

variable (sent : Sent sender memberList) (epoch : FromEpoch sender) (reliable : env.Reliable)

include sent epoch reliable

variable (hash depth) in
/-- All peers are told, if all look alive. -/
theorem gossipLoop_spreads (stubs : List String) (nodup : stubs.Nodup) (other : self ∉ stubs)
    (epoch' : ∀ n ∈ stubs, FromEpoch (w.state n))
    (recent : ∀ n ∈ stubs, ∀ i, Recent env i (w.state self) n) :
    ∃ w', exec hash env (depth + 1) self (gossipLoop memberList stubs) w = some (w', ()) ∧
      (∀ m, (w'.state self).heartbeat m = (w.state self).heartbeat m) ∧
      (∀ n ∈ stubs, ∀ m, ((w'.state n).heartbeat m).toInt =
        max ((w.state n).heartbeat m).toInt (sender.heartbeat m).toInt) ∧
      ∀ n, n ≠ self → n ∉ stubs → w'.state n = w.state n := by
  induction stubs generalizing w with
  | nil => exact ⟨w, rfl, fun _ => rfl, fun _ h => absurd h List.not_mem_nil, fun _ _ _ => rfl⟩
  | cons addr stubs ih =>
    obtain ⟨hnot, nodup⟩ := List.nodup_cons.mp nodup
    obtain ⟨hne, other⟩ := not_or.mp (List.mem_cons.not.mp other)
    rw [List.forall_mem_cons] at epoch' recent
    have view := sameView_look hash self w addr
    have unlooked : ∀ n, n ≠ self → (look hash self addr w).state n = w.state n :=
      fun n hn => World.modify_of_ne _ _ hn
    obtain ⟨w₁, hserve, htold, hothers⟩ := serveOn_gossip_sent (w := (look hash self addr w).next)
      hash env depth sent epoch epoch'.1 addr (unlooked addr (Ne.symm hne))
    have own : ∀ m, (w₁.state self).heartbeat m = (w.state self).heartbeat m := by
      intro m
      rw [hothers self hne]
      exact view.heartbeat self m
    have rest : ∀ n, n ≠ self → n ≠ addr → w₁.state n = w.state n := fun n hn hna =>
      (hothers n hna).trans (unlooked n hn)
    obtain ⟨w', hrun, hown, hspread, hrest⟩ := ih (w := w₁) nodup other
      (fun n hn => by
        rw [rest n (fun h => other (h ▸ hn)) (fun h => hnot (h ▸ hn))]
        exact epoch'.2 n hn)
      (fun n hn i => (recent_congr own).mpr (recent.2 n hn i))
    refine ⟨w', ?_, fun m => (hown m).trans (own m), fun n hn m => ?_, fun n hn hmem => ?_⟩
    · rw [(Site.gossip memberList stubs).exec_eq, if_pos (recent.1 w.tick), exec_bind, exec_send,
        deliver_reliable reliable, hserve]
      exact hrun
    · rcases List.mem_cons.mp hn with rfl | htail
      · rw [hrest n (Ne.symm hne) hnot]
        exact htold m
      · rw [hspread n htail m, rest n (fun h => other (h ▸ htail)) fun h => hnot (h ▸ htail)]
    · obtain ⟨hna, hmem⟩ := not_or.mp (List.mem_cons.not.mp hmem)
      exact (hrest n hn hmem).trans (rest n hn hna)

end Loop

section Turn

/-- The node has stamped itself at tick `i`, and its peers have the later times. -/
structure Spread (env : Env String Int64) (i : Nat) (x : String)
    (state state' : String → GossipNode) : Prop where
  own : (state' x).heartbeat x = env.now i
  kept : ∀ m, m ≠ x → (state' x).heartbeat m = (state x).heartbeat m
  told : ∀ n ∈ (state x).stubs, ∀ m, ((state' n).heartbeat m).toInt =
    max ((state n).heartbeat m).toInt ((state' x).heartbeat m).toInt
  others : ∀ n, n ≠ x → n ∉ (state x).stubs → state' n = state n

variable (reliable : env.Reliable) (other : self ∉ (w.state self).stubs)
variable (epoch : ∀ n, n = self ∨ n ∈ (w.state self).stubs → FromEpoch (w.state n))
variable (started : ∀ i, 0 ≤ (env.now i).toInt)
variable (recent : ∀ n ∈ (w.state self).stubs, ∀ i, Recent env i (w.state self) n)

include reliable other epoch started recent

variable (hash depth) in
theorem gossip_spreads : ∃ w', exec hash env (depth + 1) self (gossip self) w = some (w', ()) ∧
    Spread env w.tick self w.state w'.state := by
  let w₁ := act hash w.next self (.setHeartbeat self (env.now w.tick))
  have own : w₁.state self = apply hash (.setHeartbeat self (env.now w.tick)) (w.state self) :=
    World.modify_self _ _ _
  have stamped : (w₁.state self).heartbeat self = env.now w.tick := by
    rw [own, apply, heartbeat, AList.lookup_insert, Option.getD_some]
  have same : ∀ m, m ≠ self → (w₁.state self).heartbeat m = (w.state self).heartbeat m := by
    intro m hm
    rw [own]
    exact heartbeat_setHeartbeat_of_ne _ hm
  have unstamped : ∀ n, n ≠ self → w₁.state n = w.state n := fun n hn => World.modify_of_ne _ _ hn
  have members := env.perm w₁.tick (w₁.state self).membersHeartbeatList.keys
  have stubs : (env.order w₁.next.tick (w₁.state self).stubs.keys).Perm
      (w.state self).stubs.keys := by
    rw [own]
    exact env.perm _ _
  have hstubs : ∀ n, n ∈ env.order w₁.next.tick (w₁.state self).stubs.keys ↔
      n ∈ (w.state self).stubs := fun n => stubs.mem_iff.trans AList.mem_keys.symm
  have epoch₁ : FromEpoch (w₁.state self) := by
    intro m
    by_cases hm : m = self
    · rw [hm, stamped]
      exact started _
    · rw [same m hm]
      exact epoch self (Or.inl rfl) m
  have hother : ∀ n ∈ env.order w₁.next.tick (w₁.state self).stubs.keys, n ≠ self :=
    fun n hn h => other (h ▸ (hstubs n).mp hn)
  obtain ⟨w', hrun, hown, hspread, hrest⟩ := gossipLoop_spreads (w := w₁.next.next) hash depth
    (sent_memberPairs members) epoch₁ reliable _ (stubs.nodup_iff.mpr (AList.keys_nodup _))
    (fun h => hother self h rfl)
    (fun n hn => by
      rw [World.next_state, World.next_state, unstamped n (hother n hn)]
      exact epoch n (Or.inr ((hstubs n).mp hn)))
    (fun n hn i => by
      rw [World.next_state, World.next_state, Recent, same n (hother n hn)]
      exact recent n ((hstubs n).mp hn) i)
  rw [World.next_state, World.next_state] at hown
  refine ⟨w', ?_, (hown self).trans stamped, fun m hm => (hown m).trans (same m hm),
    fun n hn m => ?_, fun n hn hmem => ?_⟩
  · simp only [gossip, exec_bind, exec_clock, exec_perform, exec_read, exec_iterate,
      Option.bind_some]
    exact hrun
  · have hmem := (hstubs n).mpr hn
    rw [hspread n hmem m, hown m, World.next_state, World.next_state, unstamped n (hother n hmem)]
  · rw [hrest n hn fun h => hmem ((hstubs n).mp h), World.next_state, World.next_state,
      unstamped n hn]

variable (hash depth) in
/-- A turn of the main loop of a node that is alive. -/
theorem turn_spreads (halive : (w.state self).alive = true) :
    ∃ w', serveOn hash env (depth + 2) self .mainLoopTurn w = some (w', .turnDone) ∧
      ((∃ i, ¬ heartbeatInterval < durationMs (env.now i) ((w.state self).heartbeat self)) ∧
          (∀ n m, (w'.state n).heartbeat m = (w.state n).heartbeat m) ∨
        ∃ i, Spread env i self w.state w'.state) := by
  have view := sameView_look hash self w self
  have untouched : ∀ n, n ≠ self → (look hash self self w).state n = w.state n :=
    fun n hn => World.modify_of_ne _ _ hn
  have entered : serveOn hash env (depth + 2) self .mainLoopTurn w =
      exec hash env (depth + 1) self (if heartbeatInterval <
          durationMs (env.now w.tick) (((look hash self self w).state self).heartbeat self) then do
        gossip self
        return .turnDone
      else return .turnDone) (look hash self self w) := by
    rw [serveOn_succ, serve, mainLoopTurn, exec_bind, exec_read, Option.bind_some, if_pos halive]
    simp only [exec_bind, exec_clock, exec_perform, exec_read, Option.bind_some]
    rfl
  rw [entered, view.heartbeat self self]
  by_cases due : heartbeatInterval < durationMs (env.now w.tick) ((w.state self).heartbeat self)
  · obtain ⟨w', hrun, spread⟩ := gossip_spreads (w := look hash self self w) hash depth reliable
      (by rw [view.stubs self]; exact other)
      (fun n hn m => by
        rw [view.heartbeat n m]
        exact epoch n (by rwa [view.stubs self] at hn) m)
      started
      (fun n hn i => by
        rw [recent_congr (view.heartbeat self)]
        exact recent n (by rwa [view.stubs self] at hn) i)
    refine ⟨w', ?_, Or.inr ⟨_, spread.own, fun m hm => (spread.kept m hm).trans
      (view.heartbeat self m), fun n hn m => ?_, fun n hn hmem => ?_⟩⟩
    · rw [if_pos due, exec_bind]
      exact (congrArg (Option.bind · _) hrun).trans rfl
    · rw [spread.told n (by rwa [view.stubs self]) m, view.heartbeat n m]
    · rw [spread.others n hn (by rwa [view.stubs self])]
      exact untouched n hn
  · rw [if_neg due]
    exact ⟨look hash self self w, rfl, Or.inl ⟨⟨w.tick, due⟩, view.heartbeat⟩⟩

end Turn

section Interval

/-- The interval after which a node stamps itself, in nanoseconds: whole milliseconds are
compared. -/
def stampNs : Int := 5001000000

theorem lt_tdiv_iff (x : Int) : 5000 < x.tdiv 1000000 ↔ 5001000000 ≤ x := by
  by_cases h : 0 ≤ x
  · rw [Int.tdiv_eq_ediv_of_nonneg h]
    omega
  · have hle : x.tdiv 1000000 ≤ (0 : Int).tdiv 1000000 := Int.tdiv_le_tdiv (by decide) (by omega)
    rw [Int.zero_tdiv] at hle
    omega

variable {now time : Int64}

theorem heartbeatInterval_lt_iff :
    heartbeatInterval < durationMs now time ↔ stampNs ≤ (now - time).toInt := by
  have ms : (durationMs now time).toInt = (now - time).toInt.tdiv 1000000 :=
    Int64.toInt_div_of_ne_right _ _ (by decide)
  rw [Int64.lt_iff_toInt_lt, ms]
  exact lt_tdiv_iff _

/-- Times after the epoch are subtracted without wrapping. -/
theorem toInt_sub_of_epoch (hnow : 0 ≤ now.toInt) (htime : 0 ≤ time.toInt) :
    (now - time).toInt = elapsed now time := by
  have upper := now.toInt_lt
  have upper' := time.toInt_lt
  refine toInt_sub_iff.mpr ⟨?_, ?_⟩
  · rw [elapsed]
    omega
  · rw [elapsed]
    omega

end Interval

end HeartbeatSpread
