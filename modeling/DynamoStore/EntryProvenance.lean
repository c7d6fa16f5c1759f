import DynamoStore.Lib.RpcSchedules
import DynamoStore.VersionIdentity

/-!
# Where stored entries come from

An entry that a client's put has created is copied from node to node. A handoff works
through a list of keys that it has read before, and reads each entry only when it comes
to it. Another handoff may have removed the key by then: the placeholder of a missing
key is sent, and a node that has no version of the key stores it. Nothing else without
a provenance is ever stored, and nothing at all while handoffs find their keys.
-/

namespace EntryProvenance

open RpcPrograms RpcInterleaving GuardedCalls RpcSchedules GossipNode StateMachine
open ClusterStores HandlerContracts
open VersionIdentity (Stamped)
open Contract (Safe)

/-- The key that a request to a peer brings along. -/
def broughtKey : Request → Option String
  | .peerPut key _ => some key
  | _ => none

/-- The handlers that work through a list of keys and remove them: a join at a member, and
the admin's commands, of which the one to leave does. -/
def handsOff : Request → Bool
  | .joinNetwork _ | .adminCmd _ _ => true
  | _ => false

/-- Only nodes send each other puts. -/
def NoOutsidePuts (_ : String) (q : Request) : Prop := broughtKey q = none

/-- A handoff that comes to the transfer of a key still has the key. -/
def StillStored (_ : String) (q : Request) (_ : String) (q' : Request) (node : GossipNode) : Prop :=
  handsOff q = true → ∀ key ∈ broughtKey q', key ∈ node.stateMachine.getAllKeys

instance decidableNoOutsidePuts (n : String) (q : Request) : Decidable (NoOutsidePuts n q) :=
  inferInstanceAs (Decidable (broughtKey q = none))

instance decidableStillStored (n : String) (q : Request) (dst : String) (q' : Request)
    (node : GossipNode) : Decidable (StillStored n q dst q' node) :=
  inferInstanceAs (Decidable (handsOff q = true → ∀ key ∈ broughtKey q',
    key ∈ node.stateMachine.getAllKeys))

/-- An entry with a provenance, or the placeholder where it is allowed. -/
def Sourced (allow : Prop) (issued : List (String × Request)) (key : String) (d : Data) : Prop :=
  Stamped issued key d ∨ (allow ∧ d = (noValue, []))

theorem Sourced.mono {allow : Prop} {issued issued' : List (String × Request)}
    (h : ∀ x ∈ issued, x ∈ issued') {key : String} {d : Data}
    (sourced : Sourced allow issued key d) : Sourced allow issued' key d :=
  sourced.imp_left (Stamped.mono h)

/-- Everything stored or sent has a source. -/
def contract (allow : Prop) : Contract String GossipNode Request Reply where
  inv s := ∀ n key e, stored s.state n key = some e → Sourced allow s.issued key e
  evolves := VersionIdentity.contract.evolves
  pre n q s := match q with
    | .peerPut key data => Sourced allow s.issued key data
    | .clientPut key data => (n, .clientPut key data) ∈ s.issued
    | _ => True
  post _ _ _ _ := True
  refl := VersionIdentity.contract.refl
  trans := VersionIdentity.contract.trans
  pre_stable {n q s s'} hevo h := by
    cases q with
    | clientPut key data => exact hevo _ h
    | peerPut key data => exact Sourced.mono hevo h
    | _ => trivial
  post_stable _ _ := trivial

variable {hash : String → UInt64} {allow : Prop} {self : String}

theorem sameStore_keeps {s : Cluster} {a : Action} (keeps : KeepsStore a)
    (hinv : (contract allow).inv s) : (contract allow).inv (s.modify self (apply hash a)) ∧
      (contract allow).evolves s (s.modify self (apply hash a)) := by
  have same : stored (s.modify self (apply hash a)).state = stored s.state :=
    stored_of_keepsStore s.state self keeps
  refine ⟨fun m key e he => hinv m key e ?_, fun x hx => hx⟩
  rw [← same]
  exact he

theorem indifferent : Indifferent hash (contract allow) self :=
  fun _ a quiet hinv => sameStore_keeps
    (by cases a <;> first | exact False.elim quiet | trivial) hinv

theorem put_keeps {s : Cluster} {n key : String} {d : Data}
    (hinv : (contract allow).inv s) (sourced : Sourced allow s.issued key d) :
    (contract allow).inv (s.modify n (apply hash (.put key d.1 d.2))) ∧
      (contract allow).evolves s (s.modify n (apply hash (.put key d.1 d.2))) := by
  refine ⟨fun m key' e he => ?_, fun x hx => hx⟩
  rw [Shared.modify, stored_put] at he
  split at he
  · rename_i hwritten
    cases he
    rw [hwritten.2]
    exact sourced
  · exact hinv m key' e he

theorem remove_keeps {s : Cluster} {key : String} (hinv : (contract allow).inv s) :
    (contract allow).inv (s.modify self (apply hash (.remove key))) ∧
      (contract allow).evolves s (s.modify self (apply hash (.remove key))) := by
  refine ⟨fun m key' e he => ?_, fun x hx => hx⟩
  rw [Shared.modify, stored_remove] at he
  split at he
  · cases he
  · exact hinv m key' e he

/-- What a node reads of a key has a source, if the key is there or the placeholder is
allowed. -/
theorem sourced_readData {s : Cluster} {key : String} (hinv : (contract allow).inv s)
    (h : allow ∨ key ∈ (s.state self).stateMachine.getAllKeys) :
    Sourced allow s.issued key ((s.state self).stateMachine.readData key) := by
  rw [readData_eq]
  cases he : (s.state self).stateMachine.entry key with
  | some e => exact hinv self key e he
  | none =>
    refine Or.inr ⟨h.resolve_right fun hkey => ?_, rfl⟩
    obtain ⟨e, he'⟩ := (mem_getAllKeys _).mp hkey
    rw [he] at he'
    cases he'

section Handoffs

variable {guard : String → Request → GossipNode → Prop} {α β : Type}

/-- A handler of the node whose calls meet the guard keeps the contract. -/
def Clean (hash : String → UInt64) (allow : Prop) (guard : String → Request → GossipNode → Prop)
    (own : String) (p : Handler α) : Prop :=
  Safe (contract allow) (apply hash) (fun _ _ => True) own (fun _ => True) (guarded guard p)
    fun _ _ => True

theorem Clean.bind {p : Handler α} {f : α → Handler β} (hp : Clean hash allow guard self p)
    (hf : ∀ a, Clean hash allow guard self (f a)) : Clean hash allow guard self (p.bind f) :=
  safe_guarded_bind hp hf

theorem clean_of_safe {p : Handler α} {Φ : α → Cluster → Prop}
    (h : Safe (contract allow) (apply hash) (fun _ _ => True) self (fun _ => True) p Φ) :
    Clean hash allow guard self p :=
  safe_guarded (h.weaken fun _ _ _ => trivial)

theorem clean_ret (a : α) : Clean hash allow guard self (.ret a : Handler α) :=
  fun s hinv _ => ⟨hinv, (contract allow).refl s, trivial⟩

theorem clean_perform {a : Action} (keeps : KeepsStore a) :
    Clean hash allow guard self (Prog.perform a : Handler Unit) := by
  refine clean_of_safe (Safe.perform (Φ := fun _ _ => True) fun s hinv _ _ => ?_)
  exact ⟨(sameStore_keeps keeps hinv).1, (sameStore_keeps keeps hinv).2, trivial⟩

theorem clean_remove (key : String) :
    Clean hash allow guard self (Prog.perform (.remove key) : Handler Unit) := by
  refine clean_of_safe (Safe.perform (Φ := fun _ _ => True) fun s hinv _ _ => ?_)
  exact ⟨(remove_keeps hinv).1, (remove_keeps hinv).2, trivial⟩

theorem clean_composes : Composes self (Clean hash allow guard self) where
  ret := clean_ret
  bind := Clean.bind
  read := clean_of_safe Safe.read
  clock := clean_of_safe Safe.clock
  iterate l := clean_of_safe (Safe.iterate l)
  perform := clean_perform
  tell dst q hq := by
    refine clean_of_safe (Safe.send fun s _ _ => ?_)
    rcases hq with rfl | rfl
    · trivial
    · trivial

variable (stillStored : ∀ dst key data node, guard dst (.peerPut key data) node →
  allow ∨ key ∈ node.stateMachine.getAllKeys)

include stillStored

/-- The guard is what a transfer has to rely on. -/
theorem clean_transferKey (nodeId key : String) :
    Clean hash allow guard self (transferKey nodeId key) := by
  refine safe_guarded_bind (safe_guarded Safe.read) fun node => ?_
  refine safe_guarded_bind (safe_guarded Safe.read) fun node' => ?_
  split
  · refine safe_guarded_bind (safe_guarded_send fun s hinv hs hguard => ?_) fun r => ?_
    · obtain ⟨⟨_, rfl⟩, _⟩ := hs
      exact sourced_readData hinv (stillStored _ _ _ _ hguard)
    · split
      · exact (clean_ret _).strengthen fun _ _ => trivial
      · exact (clean_ret _).strengthen fun _ _ => trivial
  · exact safe_guarded Safe.crash

theorem clean_joinTransferLoop (nodeId : String) (keys : List String) (success : Bool) :
    Clean hash allow guard self (joinTransferLoop nodeId keys success) := by
  induction keys generalizing success with
  | nil => exact clean_ret success
  | cons key keys ih =>
    refine Clean.bind (clean_transferKey stillStored nodeId key) fun res => ?_
    split
    · exact Clean.bind (clean_remove key) fun _ => ih success
    · exact ih false

theorem clean_transferWithRetries (nodeId key : String) (retries : Nat) :
    Clean hash allow guard self (transferWithRetries nodeId key retries) := by
  induction retries with
  | zero => exact clean_transferKey stillStored nodeId key
  | succ retries ih =>
    refine Clean.bind (clean_transferKey stillStored nodeId key) fun res => ?_
    split
    · exact ih
    · exact clean_ret res

theorem clean_leaveTransferLoop (nodeId : String) (keys : List String) :
    Clean hash allow guard self (leaveTransferLoop nodeId keys) := by
  induction keys with
  | nil => exact clean_ret ()
  | cons key keys ih =>
    refine Clean.bind (clean_transferWithRetries stillStored nodeId key 4) fun res => ?_
    split
    · exact Clean.bind (clean_remove key) fun _ => ih
    · exact ih

end Handoffs

section Runs

variable {guard : String → Request → String → Request → GossipNode → Prop}

theorem pre_of_putsNothing {q : Request} (quiet : PutsNothing q) (m : String) (s : Cluster) :
    (contract allow).pre m q s := by
  cases q with
  | clientGet _ | peerGet _ | gossip _ | mainLoopTurn => trivial
  | _ => exact False.elim quiet

theorem verified (stillStored : ∀ n q dst key data node, handsOff q = true →
      guard n q dst (.peerPut key data) node → allow ∨ key ∈ node.stateMachine.getAllKeys) :
    GuardVerified (contract allow) (apply hash) (serve hash) NoOutsidePuts
      (fun _ _ _ _ => True) guard where
  issue s n q hinv hallowed := by
    have mono : ∀ x ∈ s.issued, x ∈ (s.issue n q).issued :=
      fun x hx => List.mem_cons_of_mem _ hx
    refine ⟨fun m key e he => (hinv m key e he).mono mono, mono, ?_⟩
    cases q with
    | clientPut key data => exact List.mem_cons_self
    | peerPut key data => cases hallowed
    | _ => trivial
  body s n q hinv hpre := by
    refine Contract.Safe.body ?_ hinv hpre
    have stable : (contract allow).Stable ((contract allow).pre n q) :=
      (contract allow).pre_stable
    cases q with
    | joinNetwork nodeId =>
      exact clean_composes.serveJoinNetwork fun keys => clean_joinTransferLoop
        (fun dst key data node => stillStored n _ dst key data node rfl) nodeId keys true
    | adminCmd cmd aliveServers =>
      refine clean_composes.serveAdminCmd (fun addr keys => ?_) cmd aliveServers
      exact clean_leaveTransferLoop
        (fun dst key data node => stillStored n _ dst key data node rfl) addr keys
    | leaveNetwork nodeId => exact clean_composes.serveLeaveNetwork nodeId
    | clientPut key data =>
      have sourced : ∀ s : Cluster, (contract allow).pre n (.clientPut key data) s →
          Sourced allow s.issued key (data.1, updateVersion data.2 n) :=
        fun s hs => Or.inl ⟨n, data.2, hs, rfl⟩
      refine safe_guarded ((serveClientPut_safe indifferent stable (fun _ => True)
        (fun _ h => h) ?_ ?_ ?_).weaken fun _ _ _ => trivial)
      · exact fun s hinv hs _ => ⟨(put_keeps hinv (sourced s hs)).1,
          (put_keeps hinv (sourced s hs)).2, trivial⟩
      · exact fun s m _ hs _ => sourced s hs
      · exact fun _ _ _ => trivial
    | peerPut key data =>
      refine safe_guarded (servePeerPut_safe ?_ fun _ _ => trivial)
      exact fun s hinv hs _ => ⟨(put_keeps hinv hs).1, (put_keeps hinv hs).2, trivial⟩
    | clientGet _ | peerGet _ | gossip _ | mainLoopTurn =>
      refine safe_guarded (Contract.Safe.weaken (putsNothing_safe indifferent stable trivial ?_)
        fun _ _ _ => trivial)
      exact fun s m q' quiet _ _ _ => pre_of_putsNothing quiet m s

variable {state : String → GossipNode} (empty : ∀ n, (state n).stateMachine = .empty)
variable {c : Config String GossipNode Action Request Reply Int64} {n key : String} {e : Data}

include empty

theorem sourced_of_reach (stillStored : ∀ n q dst key data node, handsOff q = true →
      guard n q dst (.peerPut key data) node → allow ∨ key ∈ node.stateMachine.getAllKeys)
    (hreach : GuardedReach (apply hash) (serve hash) NoOutsidePuts (fun _ _ _ _ => True) guard
      (.start state) c) (he : stored c.shared.state n key = some e) :
    Sourced allow c.shared.issued key e := by
  have start : (contract allow).inv ⟨state, []⟩ := by
    intro m key e he
    simp [stored, empty m] at he
  exact ((guardedConfigOk_start start).reach (verified stillStored) hreach).inv n key e he

/-- In every run, all that is ever stored without a provenance is the placeholder. -/
theorem stamped_or_placeholder
    (hreach : Reach (apply hash) (serve hash) NoOutsidePuts (fun _ _ _ _ => True)
      (.start state) c) (he : stored c.shared.state n key = some e) :
    Stamped c.shared.issued key e ∨ e = (noValue, []) := by
  have unguarded : GuardedReach (apply hash) (serve hash) NoOutsidePuts (fun _ _ _ _ => True)
      (fun _ _ _ _ _ => True) (.start state) c :=
    Relation.ReflTransGen.mono (fun _ _ hstep => ⟨hstep, fun _ _ _ _ _ _ _ _ _ => trivial⟩) _ _
      hreach
  exact (sourced_of_reach empty (fun _ _ _ _ _ _ _ _ => Or.inl trivial) unguarded he).imp_right
    fun h => h.2

omit empty in
theorem not_stamped_nil (issued : List (String × Request)) (value : String) :
    ¬ Stamped issued key (value, []) := by
  rintro ⟨p, context, _, hclock⟩
  exact updateVersion_ne_nil context p hclock.symm

/-- In a run whose handoffs find the keys that they transfer, one put of the key has
created the value and the version of every stored entry, which is no placeholder. In
any run the placeholder is the only stored entry without a provenance. -/
theorem entries_have_provenance (he : stored c.shared.state n key = some e) :
    (GuardedReach (apply hash) (serve hash) NoOutsidePuts (fun _ _ _ _ => True) StillStored
        (.start state) c →
      Stamped c.shared.issued key e ∧ e ≠ (noValue, [])) ∧
    (Reach (apply hash) (serve hash) NoOutsidePuts (fun _ _ _ _ => True) (.start state) c →
      Stamped c.shared.issued key e ∨ e = (noValue, [])) := by
  refine ⟨fun hreach => ?_, fun hreach => stamped_or_placeholder empty hreach he⟩
  have sourced : Sourced False c.shared.issued key e :=
    sourced_of_reach empty (fun _ _ _ key _ _ hands stored => Or.inr (stored hands key rfl))
      hreach he
  have stamped := sourced.resolve_right fun h => h.1
  refine ⟨stamped, ?_⟩
  rintro rfl
  exact not_stamped_nil _ _ stamped

end Runs

section FiveNodes

def fiveNodes : String → UInt64 :=
  tableHash [("A0", 10), ("B0", 20), ("C0", 30), ("D0", 40), ("E0", 50)]

/-- At this time no peer has been heard of for long. -/
def late : Int64 := 20000000000

/-- Node E is in a network with A and B. It stores two keys that no peer has. -/
def twoPuts : List (Move String Request Int64) :=
  [.issue "E" (.clientPut "k1" ("v1", [])), .turn 0 (.segment late), .turn 0 .finish,
    .issue "E" (.clientPut "k2" ("v2", [])), .turn 0 (.segment late), .turn 0 .finish]

/-- A node joins at E, up to the first transfer that E sends to it. -/
def joinAtE (n : String) : List (Move String Request Int64) :=
  [.issue n (.adminCmd "JoinNetwork" ["E"]), .turn 0 (.segment late), .turn 0 .invoke,
    .turn 0 (.segment late)]

/-- A transfer of the given thread is served, and its handler goes on. -/
def transferred (thread : Nat) : List (Move String Request Int64) :=
  [.turn thread .invoke, .turn thread (.segment late), .turn thread .reply,
    .turn thread (.segment late)]

/-- Node C joins and gets both keys. -/
theorem entries_have_provenance_sample :
    ∃ c : Config String GossipNode Action Request Reply Int64,
      GuardedReach (apply fiveNodes) (serve fiveNodes) NoOutsidePuts (fun _ _ _ _ => True)
        StillStored (.start (cluster fiveNodes ["A", "B", "E"])) c ∧
      stored c.shared.state "C" "k1" = some ("v1", [("E", 1)]) ∧
      Stamped c.shared.issued "k1" ("v1", [("E", 1)]) := by
  obtain ⟨c, hplay, hstored⟩ :
      ∃ c ∈ play (apply fiveNodes) (serve fiveNodes) NoOutsidePuts (fun _ _ _ _ => True)
        StillStored (twoPuts ++ joinAtE "C" ++ transferred 0 ++ transferred 0)
        (.start (cluster fiveNodes ["A", "B", "E"])),
        stored c.shared.state "C" "k1" = some ("v1", [("E", 1)]) := by
    decide +kernel
  have hreach := reach_of_play _ hplay
  exact ⟨c, hreach, hstored, ((entries_have_provenance (fun _ => rfl) hstored).1 hreach).1⟩

/-- Nodes C and D join at E. While E waits for the first transfer to D, it hands both keys
over to C and removes them; then it sends D what it reads for the second key. -/
theorem placeholder_is_stored :
    ∃ c : Config String GossipNode Action Request Reply Int64,
      Reach (apply fiveNodes) (serve fiveNodes) NoOutsidePuts (fun _ _ _ _ => True)
        (.start (cluster fiveNodes ["A", "B", "E"])) c ∧
      stored c.shared.state "D" "k1" = some (noValue, []) ∧
      ¬ Stamped c.shared.issued "k1" (noValue, []) := by
  obtain ⟨c, hplay, hstored⟩ :
      ∃ c ∈ play (apply fiveNodes) (serve fiveNodes) NoOutsidePuts (fun _ _ _ _ => True)
        (fun _ _ _ _ _ => True)
        (twoPuts ++ joinAtE "C" ++ joinAtE "D" ++ transferred 1 ++ transferred 1 ++
          transferred 0 ++ [.turn 0 .invoke, .turn 0 (.segment late)])
        (.start (cluster fiveNodes ["A", "B", "E"])),
        stored c.shared.state "D" "k1" = some (noValue, []) := by
    decide +kernel
  exact ⟨c, (reach_of_play _ hplay).reach, hstored, not_stamped_nil _ _⟩

end FiveNodes

end EntryProvenance
