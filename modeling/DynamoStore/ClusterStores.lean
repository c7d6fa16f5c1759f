import DynamoStore.GossipNode
import DynamoStore.ConflictVerdict

/-!
# The stores of a cluster

What the nodes of a cluster store, seen from outside: an entry or none for each
node and key. `Held` is the promise of the store to a client: a version is not lost
while some node has it, or has something causally newer.
-/

namespace ClusterStores

open GossipNode StateMachine VectorClocks ConflictVerdict

def stored (state : String → GossipNode) (n key : String) : Option Data :=
  (state n).stateMachine.entry key

/-- Entry `e` is `d`, or a causally newer one. -/
def Covers (d e : Data) : Prop := (e.1 = d.1 ∧ SameClock d.2 e.2) ∨ StrictlyBelow d.2 e.2

instance (d e : Data) : Decidable (Covers d e) :=
  inferInstanceAs (Decidable ((e.1 = d.1 ∧ SameClock d.2 e.2) ∨ StrictlyBelow d.2 e.2))

/-- Some node stores the entry or one that stands for it. -/
def HeldBy (stands : Data → Data → Prop) (state : String → GossipNode) (key : String)
    (d : Data) : Prop :=
  ∃ n e, stored state n key = some e ∧ stands d e

abbrev Held : (String → GossipNode) → String → Data → Prop := HeldBy Covers

/-- The stored clocks name each server once. -/
def DistinctClocks (state : String → GossipNode) : Prop :=
  ∀ n key e, stored state n key = some e → Distinct e.2

theorem Covers.refl (d : Data) : Covers d d := Or.inl ⟨rfl, SameClock.refl d.2⟩

theorem Covers.trans {d e f : Data} (hde : Covers d e) (hef : Covers e f) : Covers d f := by
  rcases hde with ⟨hv, hc⟩ | hlt
  · rcases hef with ⟨hv', hc'⟩ | hlt'
    · exact Or.inl ⟨hv'.trans hv, hc.trans hc'⟩
    · exact Or.inr (hc.1.trans_strictly hlt')
  · rcases hef with ⟨_, hc'⟩ | hlt'
    · exact Or.inr (hlt.trans_below hc'.1)
    · exact Or.inr (hlt.trans hlt')

section Changes

variable {hash : String → UInt64} (state : String → GossipNode) (n : String)

/-- The actions that leave the store alone. -/
def KeepsStore : Action → Prop
  | .put .. | .remove _ => False
  | _ => True

theorem stored_put (key value : String) (version : Version) (m key' : String) :
    stored (Function.update state n (apply hash (.put key value version) (state n))) m key' =
      if m = n ∧ key' = key then some (value, version) else stored state m key' := by
  by_cases hm : m = n
  · subst hm
    by_cases hk : key' = key
    · subst hk
      simp [stored, apply]
    · simp [stored, apply, hk]
  · simp [stored, hm]

theorem stored_remove (key m key' : String) :
    stored (Function.update state n (apply hash (.remove key) (state n))) m key' =
      if m = n ∧ key' = key then none else stored state m key' := by
  by_cases hm : m = n
  · subst hm
    by_cases hk : key' = key
    · subst hk
      simp [stored, apply]
    · simp [stored, apply, hk]
  · simp [stored, hm]

theorem stored_of_keepsStore {a : Action} (keeps : KeepsStore a) :
    stored (Function.update state n (apply hash a (state n))) = stored state := by
  funext m key
  by_cases hm : m = n
  · subst hm
    cases a <;> first | exact False.elim keeps | simp [stored, apply]
  · simp [stored, hm]

end Changes

theorem getVersion_eq_nil {s : StateMachine} {key : String} (h : s.entry key = none) :
    s.getVersion key = [] := by
  rw [getVersion_eq, h]
  rfl

theorem getVersion_of_entry {s : StateMachine} {key : String} {e : Data}
    (h : s.entry key = some e) : s.getVersion key = e.2 := by
  rw [getVersion_eq, h]
  rfl

theorem getValue_of_entry {s : StateMachine} {key : String} {e : Data}
    (h : s.entry key = some e) : s.getValue key = e.1 := by
  rw [getValue_eq, h]
  rfl

theorem distinct_getVersion {state : String → GossipNode} (distinct : DistinctClocks state)
    (n key : String) : Distinct ((state n).stateMachine.getVersion key) := by
  cases he : (state n).stateMachine.entry key with
  | none =>
    rw [getVersion_eq_nil he]
    exact List.nodup_nil
  | some e =>
    rw [getVersion_of_entry he]
    exact distinct n key e he

section Writes

variable {hash : String → UInt64} {state : String → GossipNode} {n key value : String}
variable {version : Version}

theorem distinctClocks_put (distinct : DistinctClocks state) (hversion : Distinct version) :
    DistinctClocks (Function.update state n (apply hash (.put key value version) (state n))) := by
  intro m key' e he
  rw [stored_put] at he
  split at he
  · cases he
    exact hversion
  · exact distinct m key' e he

theorem distinctClocks_remove (distinct : DistinctClocks state) :
    DistinctClocks (Function.update state n (apply hash (.remove key) (state n))) := by
  intro m key' e he
  rw [stored_remove] at he
  split at he
  · cases he
  · exact distinct m key' e he

/-- A write over an entry for which it stands loses nothing, here or elsewhere. -/
theorem heldBy_put (stands : Data → Data → Prop)
    (trans : ∀ d e f, stands d e → stands e f → stands d f)
    (yields : ∀ e, stored state n key = some e → stands e (value, version))
    {key' : String} {d : Data} (held : HeldBy stands state key' d) :
    HeldBy stands (Function.update state n (apply hash (.put key value version) (state n)))
      key' d := by
  obtain ⟨m, e, he, hstands⟩ := held
  by_cases hwritten : m = n ∧ key' = key
  · obtain ⟨rfl, rfl⟩ := hwritten
    refine ⟨m, (value, version), ?_, trans _ _ _ hstands (yields e he)⟩
    rw [stored_put, if_pos ⟨rfl, rfl⟩]
  · refine ⟨m, e, ?_, hstands⟩
    rw [stored_put, if_neg hwritten]
    exact he

/-- Removing an entry that another node has too loses nothing. -/
theorem heldBy_remove {stands : Data → Data → Prop} {x : String} (hne : x ≠ n)
    (copy : stored state x key = stored state n key)
    {key' : String} {d : Data} (held : HeldBy stands state key' d) :
    HeldBy stands (Function.update state n (apply hash (.remove key) (state n))) key' d := by
  obtain ⟨m, e, he, hstands⟩ := held
  by_cases hremoved : m = n ∧ key' = key
  · obtain ⟨rfl, rfl⟩ := hremoved
    refine ⟨x, e, ?_, hstands⟩
    rw [stored_remove, if_neg fun h => hne h.1, copy]
    exact he
  · refine ⟨m, e, ?_, hstands⟩
    rw [stored_remove, if_neg hremoved]
    exact he

theorem held_own_put : Held
    (Function.update state n (apply hash (.put key value version) (state n))) key
      (value, version) :=
  ⟨n, (value, version), by rw [stored_put, if_pos ⟨rfl, rfl⟩], Covers.refl _⟩

/-- Verdict 1 allows a write that covers what it replaces. -/
theorem covers_of_check {node : GossipNode}
    (distinct : ∀ e, node.stateMachine.entry key = some e → Distinct e.2)
    (hversion : Distinct version) (hne : version ≠ [])
    (hcheck : checkConflictVersion version (node.stateMachine.getVersion key) = 1)
    {e : Data} (he : node.stateMachine.entry key = some e) : Covers e (value, version) := by
  rw [getVersion_of_entry he] at hcheck
  exact Or.inr (strictlyBelow_of_check hversion (distinct e he) hne hcheck)

/-- So does verdict 0 for an equal value. -/
theorem covers_of_judged {node : GossipNode}
    (distinct : ∀ e, node.stateMachine.entry key = some e → Distinct e.2)
    (hversion : Distinct version) (hne : version ≠ [])
    (judged : checkConflictVersion version (node.stateMachine.getVersion key) = 1 ∨
      (checkConflictVersion version (node.stateMachine.getVersion key) = 0 ∧
        node.stateMachine.getValue key = value))
    {e : Data} (he : node.stateMachine.entry key = some e) : Covers e (value, version) := by
  rcases judged with hone | ⟨hzero, hvalue⟩
  · exact covers_of_check distinct hversion hne hone he
  · have hen : e.2 ≠ [] := by
      intro hnil
      rw [getVersion_of_entry he, hnil, check_existing_nil] at hzero
      exact absurd hzero (by decide)
    rw [getVersion_of_entry he, check_eq_zero_iff hversion (distinct e he) hen] at hzero
    rw [getValue_of_entry he] at hvalue
    exact Or.inl ⟨hvalue.symm, hzero⟩

end Writes

section Samples

/-- A hash function that is given by a table. -/
def tableHash (table : List (String × UInt64)) (s : String) : UInt64 := (table.lookup s).getD 0

/-- Node A owns the positions up to 10 and after 20, node B those between. -/
def twoNodes : String → UInt64 := tableHash [("A0", 10), ("B0", 20)]

/-- One virtual node each, in the order of the names. -/
def fourNodes : String → UInt64 := tableHash [("A0", 10), ("B0", 20), ("C0", 30), ("D0", 40)]

def ringWith (hash : String → UInt64) (members : List String) : ConsistentHashingRing :=
  members.foldl (fun r m => r.addNode hash m) (.init 1)

/-- Clusters whose members know each other; all other nodes are on their own. -/
def cluster (hash : String → UInt64) (members : List String) (n : String) : GossipNode where
  ring := if n ∈ members then ringWith hash members else .init 1
  stateMachine := .empty
  stubs := if n ∈ members then
    (members.filter fun m => m ≠ n).foldl (fun stubs m => stubs.insert m ()) ∅ else ∅
  membersHeartbeatList := ∅
  alive := true

theorem mem_cluster_stubs {hash : String → UInt64} {members : List String} {n m : String} :
    m ∈ (cluster hash members n).stubs ↔ n ∈ members ∧ m ∈ members ∧ m ≠ n := by
  by_cases hn : n ∈ members
  · simp [cluster, hn, Map.mem_foldl_insert]
  · simp [cluster, hn]

/-- Such a cluster, in which some nodes hold an entry. -/
def holding (hash : String → UInt64) (members holders : List String) (key : String) (d : Data)
    (n : String) : GossipNode :=
  { cluster hash members n with
    stateMachine := if n ∈ holders then StateMachine.empty.put key d.1 d.2 else .empty }

theorem stored_holding {hash : String → UInt64} {members holders : List String} {key : String}
    {d : Data} (n key' : String) :
    stored (holding hash members holders key d) n key' =
      if n ∈ holders ∧ key' = key then some d else none := by
  by_cases hn : n ∈ holders
  · by_cases hkey : key' = key
    · subst hkey
      simp [stored, holding, hn]
    · simp [stored, holding, hn, hkey]
  · simp [stored, holding, hn]

theorem mem_holding_stubs {hash : String → UInt64} {members holders : List String} {key : String}
    {d : Data} {n m : String} : m ∈ (holding hash members holders key d n).stubs ↔
      n ∈ members ∧ m ∈ members ∧ m ≠ n :=
  @mem_cluster_stubs hash members n m

/-- Clocks stand still, iterations are in order, and no message is lost. -/
def calmEnv : RpcPrograms.Env String Int64 where
  now _ := 0
  order _ l := l
  perm _ l := List.Perm.refl l
  fate _ _ := .delivered

theorem calmEnv_reliable : calmEnv.Reliable := fun _ _ => rfl

end Samples

end ClusterStores
