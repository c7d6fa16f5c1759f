import DynamoStore.HandlerEffects
import DynamoStore.ClusterStores

/-!
# What a run leaves alone

Requests of other clients and nodes may come in any order and number, be lost or served late.
As long as none of them writes a key, no node changes what it stores for the key; and as long
as none of them changes the membership, rings, stubs and alive flags stay.
-/

namespace KeyIsolation

open RpcInterleaving GossipNode StateMachine HandlerEffects Effects ClusterStores

/-- A request that may change what some node stores for the key: a put of the key, or a
change of the membership, for which keys are moved. -/
def MayWrite (key : String) : Request → Prop
  | .clientPut key' _ | .peerPut key' _ => key' = key
  | .joinNetwork _ => True
  | .adminCmd cmd _ => cmd = "LeaveNetwork" ∨ cmd = "JoinNetwork"
  | _ => False

/-- A request that changes the membership. -/
def MovesMembers : Request → Prop
  | .joinNetwork _ | .leaveNetwork _ => True
  | .adminCmd cmd _ => cmd = "LeaveNetwork" ∨ cmd = "JoinNetwork"
  | _ => False

variable {hash : String → UInt64} {reads : GossipNode → Prop} {key self dst : String}
variable {q q' : Request}

theorem mayWrite_of_sends (h : Sends hash reads self q dst q') (writes : MayWrite key q') :
    MayWrite key q := by
  cases q with
  | clientGet _ =>
    rw [h.1] at writes
    exact False.elim writes
  | clientPut _ _ =>
    rw [h.1] at writes
    exact writes
  | joinNetwork _ => trivial
  | adminCmd cmd _ =>
    cases q' with
    | joinNetwork _ => exact Or.inr h.1
    | peerPut _ _ => exact Or.inl h.1
    | leaveNetwork _ => exact False.elim writes
    | _ => exact False.elim h
  | mainLoopTurn =>
    cases q' with
    | gossip _ => exact False.elim writes
    | _ => exact False.elim h
  | _ => exact False.elim h

theorem movesMembers_of_sends (h : Sends hash reads self q dst q') (moves : MovesMembers q') :
    MovesMembers q := by
  cases q with
  | clientGet _ | clientPut _ _ =>
    rw [h.1] at moves
    exact False.elim moves
  | joinNetwork _ => trivial
  | adminCmd cmd _ =>
    cases q' with
    | joinNetwork _ => exact Or.inr h.1
    | leaveNetwork _ | peerPut _ _ => exact Or.inl h.1
    | _ => exact False.elim h
  | mainLoopTurn =>
    cases q' with
    | gossip _ => exact False.elim moves
    | _ => exact False.elim h
  | _ => exact False.elim h

/-- Every state change of a request that does not write the key keeps its entry. -/
theorem entry_of_does {a : Action} (node : GossipNode) (other : ¬ MayWrite key q)
    (does : Does reads self q a) :
    (apply hash a node).stateMachine.entry key = node.stateMachine.entry key := by
  cases a with
  | put key' value version =>
    have hne : key' ≠ key := by
      rintro rfl
      cases q with
      | clientPut _ _ => exact other does.1.symm
      | peerPut _ _ => exact other does.1.symm
      | _ => exact False.elim does
    exact entry_put_of_ne node.stateMachine hne.symm value version
  | remove key' =>
    cases q with
    | joinNetwork _ => exact absurd trivial other
    | adminCmd _ _ => exact absurd (Or.inl does) other
    | _ => exact False.elim does
  | _ => rfl

variable (hash) in
/-- Every state change of a request that does not change the membership keeps it. -/
theorem members_of_does {a : Action} (node : GossipNode) (other : ¬ MovesMembers q)
    (does : Does reads self q a) :
    (apply hash a node).ring = node.ring ∧ (apply hash a node).stubs = node.stubs ∧
      (apply hash a node).alive = node.alive := by
  cases a with
  | put _ _ _ | remove _ | setHeartbeat _ _ | touchHeartbeat _ | eraseHeartbeat _ =>
    exact ⟨rfl, rfl, rfl⟩
  | clearStubs =>
    cases q with
    | adminCmd _ _ => exact absurd (Or.inr does) other
    | _ => exact False.elim does
  | addNode _ | newStub _ =>
    cases q with
    | adminCmd _ _ => exact absurd (Or.inr does.1) other
    | joinNetwork _ => exact absurd trivial other
    | _ => exact False.elim does
  | removeNode _ =>
    cases q with
    | adminCmd _ _ => exact absurd (Or.inl does.1) other
    | leaveNetwork _ => exact absurd trivial other
    | _ => exact False.elim does
  | eraseStub _ =>
    cases q with
    | leaveNetwork _ => exact absurd trivial other
    | _ => exact False.elim does
  | setAlive _ =>
    cases q with
    | adminCmd _ _ => exact absurd (does.elim (fun h => Or.inr h.1) fun h => Or.inl h.1) other
    | _ => exact False.elim does

/-- What the nodes know of each other. -/
def contacts (node : GossipNode) : ConsistentHashingRing × Map Unit × Bool :=
  (node.ring, node.stubs, node.alive)

theorem parts_of_contacts {node node' : GossipNode} (h : contacts node' = contacts node) :
    node'.ring = node.ring ∧ node'.stubs = node.stubs ∧ node'.alive = node.alive := by
  simpa only [contacts, Prod.mk.injEq] using h

variable (hash) in
theorem contacts_of_does {a : Action} (node : GossipNode) (other : ¬ MovesMembers q)
    (does : Does reads self q a) : contacts (apply hash a node) = contacts node := by
  obtain ⟨hring, hstubs, halive⟩ := members_of_does hash node other does
  rw [contacts, contacts, hring, hstubs, halive]

section Runs

variable {allowed : String → Request → Prop}
variable {ok : String → Request → Action → GossipNode → Prop}
variable {c : Config String GossipNode Action Request Reply Int64}

/-- Requests of a kind that stays among itself change nothing but what its members do. -/
theorem unchanged (requests : String → Request → Prop) {α : Type} (part : GossipNode → α)
    (closed : ∀ n q dst q', requests n q → Sends hash (fun _ => True) n q dst q' → requests dst q')
    (keeps : ∀ n q a node, requests n q → Does (fun _ => True) n q a →
      part (apply hash a node) = part node)
    (issued : ∀ n q, allowed n q → requests n q)
    {state : String → GossipNode}
    (hreach : Reach (apply hash) (serve hash) allowed ok (.start state) c) (n : String) :
    part (c.shared.state n) = part (state n) := by
  have kept : Kept (table hash requests (fun _ _ => True) True) (apply hash) (serve hash) ok :=
    kept_table (fun _ _ _ _ _ _ => Or.inl trivial) closed fun _ _ _ _ _ _ _ _ => trivial
  refine (kept.related (fun _ node node' => part node' = part node) (fun _ _ => rfl)
    (fun _ _ _ _ h h' => h'.trans h) (fun n q a node hq hdoes _ _ => keeps n q a node hq hdoes)
    issued hreach (configWithin_start fun _ => trivial)).2 n

theorem withinAny {state : String → GossipNode}
    (hreach : Reach (apply hash) (serve hash) allowed ok (.start state) c) :
    ConfigWithin (table hash (fun _ _ => True) (fun _ _ => True) True) c :=
  Kept.reach (kept_table (fun _ _ _ _ _ _ => Or.inl trivial) (fun _ _ _ _ _ _ => trivial)
    fun _ _ _ _ _ _ _ _ => trivial) (fun _ _ _ => trivial) hreach
    (configWithin_start fun _ => trivial)

/-- A step that changes what requests of a kind leave alone is one of another request, on the
node itself. -/
theorem changed_by_step (requests : Request → Prop) {α : Type} (part : GossipNode → α)
    (keeps : ∀ n q a node, requests q → Does (fun _ => True) n q a →
      part (apply hash a node) = part node)
    {c' : Config String GossipNode Action Request Reply Int64}
    (within : ConfigWithin (table hash (fun _ _ => True) (fun _ _ => True) True) c)
    (hstep : Step (apply hash) (serve hash) allowed ok c c') {n : String}
    (changed : part (c'.shared.state n) ≠ part (c.shared.state n)) :
    ∃ stack ∈ c.threads, ∃ f ∈ stack, f.node = n ∧ ¬ requests f.request := by
  rcases hstep.shared with ⟨m, q, _, hshared⟩ | ⟨stack, hstack, f, hf, p, hsegment⟩ | hshared
  · rw [hshared] at changed
    exact absurd rfl changed
  · obtain ⟨_, _, hpart, hothers⟩ := Within.segment
      (fun node node' => requests f.request → part node' = part node) (fun _ _ => rfl)
      (fun _ _ _ h h' hq => (h' hq).trans (h hq))
      (fun a node hdoes _ _ => ⟨trivial, fun hq => keeps f.node f.request a node hq hdoes⟩)
      hsegment trivial (within.frames stack hstack f hf).within
    by_cases hn : n = f.node
    · subst hn
      exact ⟨stack, hstack, f, hf, rfl, fun hq => changed (hpart hq)⟩
    · rw [hothers n hn] at changed
      exact absurd rfl changed
  · rw [hshared] at changed
    exact absurd rfl changed

/-- However requests are interleaved, lost and served late: what a node stores for a key is
changed by no requests but puts of the key and changes of the membership, and what it knows
of the members by no requests but these changes. So it is over a run without such requests, and
so it is in every step: what changes, such a request changes on the node. -/
theorem unwritten_stays {state : String → GossipNode}
    (hreach : Reach (apply hash) (serve hash) allowed ok (.start state) c) :
    (∀ key, (∀ n q, allowed n q → ¬ MayWrite key q) →
        ∀ n, stored c.shared.state n key = stored state n key) ∧
      ((∀ n q, allowed n q → ¬ MovesMembers q) → ∀ n,
        (c.shared.state n).ring = (state n).ring ∧ (c.shared.state n).stubs = (state n).stubs ∧
          (c.shared.state n).alive = (state n).alive) ∧
      ∀ c', Step (apply hash) (serve hash) allowed ok c c' → ∀ n,
        (∀ key, stored c'.shared.state n key ≠ stored c.shared.state n key →
          ∃ stack ∈ c.threads, ∃ f ∈ stack, f.node = n ∧ MayWrite key f.request) ∧
        (contacts (c'.shared.state n) ≠ contacts (c.shared.state n) →
          ∃ stack ∈ c.threads, ∃ f ∈ stack, f.node = n ∧ MovesMembers f.request) := by
  refine ⟨fun key others n => ?_, fun others n => ?_, fun c' hstep n => ⟨fun key changed => ?_,
    fun changed => ?_⟩⟩
  · exact unchanged (fun _ q => ¬ MayWrite key q)
      (fun node => node.stateMachine.entry key)
      (fun _ _ _ _ other hsends writes => other (mayWrite_of_sends hsends writes))
      (fun _ _ _ node other does => entry_of_does node other does) others hreach n
  · exact parts_of_contacts (unchanged (fun _ q => ¬ MovesMembers q) contacts
      (fun _ _ _ _ other hsends moves => other (movesMembers_of_sends hsends moves))
      (fun _ _ _ node other does => contacts_of_does hash node other does) others hreach n)
  · obtain ⟨stack, hstack, f, hf, hn, hwrites⟩ := changed_by_step (fun q => ¬ MayWrite key q)
      (fun node => node.stateMachine.entry key)
      (fun _ _ _ node other does => entry_of_does node other does) (withinAny hreach) hstep changed
    exact ⟨stack, hstack, f, hf, hn, not_not.mp hwrites⟩
  · obtain ⟨stack, hstack, f, hf, hn, hmoves⟩ := changed_by_step (fun q => ¬ MovesMembers q)
      contacts (fun _ _ _ node other does => contacts_of_does hash node other does)
      (withinAny hreach) hstep changed
    exact ⟨stack, hstack, f, hf, hn, not_not.mp hmoves⟩

/-- A put of another key, through both nodes, beside the key they hold. -/
theorem unwritten_stays_sample :
    ∃ c : Config String GossipNode Action Request Reply Int64,
      Reach (apply twoNodes) (serve twoNodes) (fun _ q => q = .clientPut "k'" ("v'", []))
        (fun _ _ _ _ => True)
        (.start (holding twoNodes ["A", "B"] ["A", "B"] "k" ("v", [("B", 1)]))) c ∧
        stored c.shared.state "A" "k'" = some ("v'", [("A", 1)]) ∧
        stored c.shared.state "A" "k" = some ("v", [("B", 1)]) ∧
        (c.shared.state "A").alive = true := by
  obtain ⟨⟨w, finished⟩, hsession, hput⟩ :
      ∃ x ∈ session (apply twoNodes) (serve twoNodes) (fun _ _ _ _ => True) calmEnv 2
        [("A", .clientPut "k'" ("v'", []))]
        ⟨holding twoNodes ["A", "B"] ["A", "B"] "k" ("v", [("B", 1)]), 0⟩,
        stored x.1.state "A" "k'" = some ("v'", [("A", 1)]) := by
    decide +kernel
  have hreach := reach_of_session (fun _ q => q = .clientPut "k'" ("v'", [])) calmEnv_reliable 2 _
    (by simp) [] [] hsession
  obtain ⟨hentries, hmembers, _⟩ := unwritten_stays hreach
  refine ⟨_, hreach, hput, ?_, ?_⟩
  · rw [hentries "k" fun n q hq => by subst hq; exact (by decide : "k'" ≠ "k")]
    decide
  · rw [(hmembers (fun n q hq => by subst hq; exact id) "A").2.2]
    decide

end Runs

end KeyIsolation
