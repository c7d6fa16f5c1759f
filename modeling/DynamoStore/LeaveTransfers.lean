import DynamoStore.KeyTransfers

/-!
# What a leaving node hands over

The leaving node goes through its stubs. Each peer is told, and is then offered
the keys of which it becomes an owner. Once a peer has taken a key, no later peer
is offered it: every key goes to the first peer that takes it, if there is one.
-/

namespace LeaveTransfers

open RpcPrograms GossipNode StateMachine
open ClusterStores HandlerRuns KeyTransfers

section Runs

variable {hash : String → UInt64} {env : Env String Int64} {depth : Nat} {x dst : String}
variable {w : Net}

variable (hash depth) in
theorem leaveTransferLoop_run (reliable : env.Reliable) (hne : dst ≠ x) (keys : List String)
    (nodup : keys.Nodup) (present : ∀ key ∈ keys, ∃ d, stored w.state x key = some d)
    (hstub : dst ∈ (w.state x).stubs) :
    ∃ w', exec hash env (depth + 1) x (leaveTransferLoop dst keys) w = some (w', ()) ∧
      Transferred x dst keys w.state w'.state := by
  induction keys generalizing w with
  | nil => exact ⟨w, rfl, transferred_nil⟩
  | cons key keys ih =>
    obtain ⟨hkey, nodup⟩ := List.nodup_cons.mp nodup
    rw [List.forall_mem_cons] at present
    obtain ⟨⟨d, hd⟩, present⟩ := present
    obtain ⟨w₁, hrun, hstate⟩ := exec_transferWithRetries hash depth reliable dst hstub hd 4
    rw [receive_state] at hstate
    rw [leaveTransferLoop, exec_bind, hrun, Option.bind_some]
    by_cases haccepts : Accepts (w.state dst) key d
    · rw [if_pos haccepts] at hstate
      simp only [haccepts, if_true, exec_bind, exec_perform, Option.bind_some]
      have hremoved : (act hash w₁ x (.remove key)).state = handOver hash x dst key d w.state := by
        rw [World.modify_state, hstate, handOver]
      obtain ⟨w', hrun', htransferred⟩ := ih (w := act hash w₁ x (.remove key)) nodup
        (fun key' hmem => by
          rw [hremoved, stored_handOver_of_ne hne hd fun h => hkey (h ▸ hmem)]
          exact present key' hmem)
        (by
          rw [hremoved, (storeOnly_handOver d _).stubs x]
          exact hstub)
      rw [hremoved] at htransferred
      exact ⟨w', hrun', transferred_accepted hash hne hd haccepts htransferred⟩
    · rw [if_neg haccepts] at hstate
      simp only [haccepts, if_false, show ¬ (1 : Int) = 0 by decide]
      obtain ⟨w', hrun', htransferred⟩ := ih (w := w₁) nodup
        (by rw [hstate]; exact present) (by rw [hstate]; exact hstub)
      rw [hstate] at htransferred
      exact ⟨w', hrun', transferred_refused hd haccepts htransferred⟩

/-- The peers in the list have taken node `x` off their rings and stubs. -/
structure Dismissed (hash : String → UInt64) (x : String) (peers : List String)
    (state state' : String → GossipNode) : Prop where
  ring : ∀ n, (state' n).ring =
    if n ∈ peers then (state n).ring.removeNode hash x else (state n).ring
  stubs : ∀ n, (state' n).stubs = if n ∈ peers then (state n).stubs.erase x else (state n).stubs
  alive : ∀ n, (state' n).alive = (state n).alive

theorem dismiss_of_ne {peer n : String} (h : n ≠ peer) :
    (dismiss hash x peer w).state n = w.state n := by
  simp [dismiss, h]

theorem stored_dismiss (peer : String) : stored (dismiss hash x peer w).state = stored w.state := by
  simp only [dismiss, World.modify_state]
  rw [stored_of_keepsStore _ peer (a := .eraseHeartbeat x) trivial,
    stored_of_keepsStore _ peer (a := .eraseStub x) trivial,
    stored_of_keepsStore _ peer (a := .removeNode x) trivial]

theorem dismissed_cons {peer : String} {peers : List String} {state' : String → GossipNode}
    (hpeer : peer ∉ peers) (h : Dismissed hash x peers (dismiss hash x peer w).state state') :
    Dismissed hash x (peer :: peers) w.state state' := by
  constructor
  · intro n
    rw [h.ring n]
    by_cases hn : n = peer
    · subst hn
      simp [hpeer, dismiss, apply]
    · simp [hn, dismiss_of_ne hn]
  · intro n
    rw [h.stubs n]
    by_cases hn : n = peer
    · subst hn
      simp [hpeer, dismiss, apply]
    · simp [hn, dismiss_of_ne hn]
  · intro n
    rw [h.alive n]
    by_cases hn : n = peer
    · subst hn
      simp [dismiss, apply]
    · rw [dismiss_of_ne hn]

theorem Dismissed.after {peers : List String} {state state' state'' : String → GossipNode}
    (h : StoreOnly state state') (h' : Dismissed hash x peers state' state'') :
    Dismissed hash x peers state state'' where
  ring n := by rw [h'.ring n, h.ring n]
  stubs n := by rw [h'.stubs n, h.stubs n]
  alive n := by rw [h'.alive n, h.alive n]

/-- The peer owns the key on the new ring and not on the old one. -/
def Gains (hash : String → UInt64) (oldRing newRing : ConsistentHashingRing)
    (peer key : String) : Prop :=
  oldRing.checkDataBelonging hash key peer replicaN = false ∧
    newRing.checkDataBelonging hash key peer replicaN = true

variable (hash depth) in
theorem leaveNetworkLoop_run (reliable : env.Reliable) (oldRing : ConsistentHashingRing)
    (peers : List String) (nodup : peers.Nodup)
    (hpeers : ∀ peer ∈ peers, peer ≠ x ∧ peer ∈ (w.state x).stubs) :
    ∃ w' dest, exec hash env (depth + 1) x (leaveNetworkLoop hash x oldRing peers) w =
        some (w', ()) ∧
      stored w'.state = relocate x dest (stored w.state) ∧
      Moves x (fun p key => p ∈ peers ∧ Gains hash oldRing (w.state x).ring p key) dest
        (stored w.state) ∧
      Dismissed hash x peers w.state w'.state := by
  induction peers generalizing w with
  | nil =>
    refine ⟨w, fun _ => none, rfl, rfl, ?_, ⟨fun _ => rfl, fun _ => rfl, fun _ => rfl⟩⟩
    exact moves_nothing fun _ _ _ h => absurd h.1 List.not_mem_nil
  | cons peer peers ih =>
    obtain ⟨hpeer, nodup⟩ := List.nodup_cons.mp nodup
    rw [List.forall_mem_cons] at hpeers
    obtain ⟨⟨hne, hstub⟩, hpeers⟩ := hpeers
    -- the peer is told, then offered its keys, then the others follow
    have hown : (dismiss hash x peer w.next).state x = w.state x := dismiss_of_ne hne.symm
    obtain ⟨w₁, hrun, hstores, dest, hstored, hmoves⟩ := leaveTransferLoop_run hash depth
      (w := (dismiss hash x peer w.next).next) reliable hne
      (leaveTransferKeys hash env oldRing x peer (dismiss hash x peer w.next))
      nodup_leaveTransferKeys (fun key hmem => (mem_leaveTransferKeys.mp hmem).1)
      (by rw [World.next_state, hown]; exact hstub)
    have hstored₀ : stored (dismiss hash x peer w.next).next.state = stored w.state :=
      stored_dismiss (w := w.next) peer
    rw [hstored₀] at hstored hmoves
    have hring : (w₁.state x).ring = (w.state x).ring := by
      rw [hstores.ring x, World.next_state, hown]
    obtain ⟨w', dest', hrun', hstored', hmoves', hdismissed⟩ := ih (w := w₁) nodup
      (fun p hp => ⟨(hpeers p hp).1, by
        rw [hstores.stubs x, World.next_state, hown]
        exact (hpeers p hp).2⟩)
    rw [hstored, hring] at hmoves'
    rw [hstored] at hstored'
    obtain ⟨hrelocate, hboth⟩ := hmoves.or hmoves'
    refine ⟨w', _, ?_, hstored'.trans hrelocate, hboth.congr ?_,
      dismissed_cons hpeer (Dismissed.after hstores hdismissed)⟩
    · rw [leaveNetworkLoop, exec_bind, exec_send, deliver_reliable reliable, serveOn_succ, serve,
        exec_serveLeaveNetwork]
      simp only [Option.map_some, Option.bind_some, exec_bind, exec_getLeaveTransferKey, hrun]
      exact hrun'
    · intro p key d hd
      rw [mem_leaveTransferKeys, hown, List.mem_cons]
      constructor
      · rintro (⟨rfl, _, hgains⟩ | ⟨hp, hgains⟩)
        · exact ⟨Or.inl rfl, hgains⟩
        · exact ⟨Or.inr hp, hgains⟩
      · rintro ⟨rfl | hp, hgains⟩
        · exact Or.inl ⟨rfl, ⟨d, hd⟩, hgains⟩
        · exact Or.inr ⟨hp, hgains⟩

variable (hash w) in
/-- A node that leaves while no message is lost: every key it stores goes to a
peer that becomes an owner and takes it, if there is such a peer. -/
theorem leaveNetwork_run (depth : Nat) (reliable : env.Reliable) (x : String)
    (own : x ∉ (w.state x).stubs) :
    ∃ w' dest, exec hash env (depth + 1) x (leaveNetwork hash x) w = some (w', ()) ∧
      stored w'.state = relocate x dest (stored w.state) ∧
      Moves x (fun p key => p ∈ (w.state x).stubs ∧
        Gains hash (w.state x).ring ((w.state x).ring.removeNode hash x) p key) dest
        (stored w.state) ∧
      Dismissed hash x (told env x (act hash w x (.removeNode x)))
        (act hash w x (.removeNode x)).state w'.state := by
  have hstubs : ((act hash w x (.removeNode x)).state x).stubs = (w.state x).stubs := by
    simp [apply]
  have hring : ((act hash w x (.removeNode x)).next.state x).ring =
      (w.state x).ring.removeNode hash x := by
    simp [apply]
  have hstored : stored (act hash w x (.removeNode x)).next.state = stored w.state :=
    stored_of_keepsStore _ x (a := .removeNode x) trivial
  obtain ⟨w', dest, hrun, hmoved, hmoves, hdismissed⟩ := leaveNetworkLoop_run hash depth
    (w := (act hash w x (.removeNode x)).next) reliable (w.state x).ring
    (told env x (act hash w x (.removeNode x))) nodup_told (fun peer hpeer => by
      rw [mem_told, hstubs] at hpeer
      rw [World.next_state, hstubs]
      exact ⟨fun h => own (h ▸ hpeer), hpeer⟩)
  rw [hstored, hring] at hmoves
  rw [hstored] at hmoved
  refine ⟨w', dest, by rw [exec_leaveNetwork]; exact hrun, hmoved, hmoves.congr ?_, hdismissed⟩
  intro p key d _
  rw [mem_told, hstubs]

end Runs

end LeaveTransfers
