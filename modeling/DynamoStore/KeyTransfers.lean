import DynamoStore.HandlerRuns
import DynamoStore.ClusterStores

/-!
# Keys that move from one node to another

A member that a new node displaces, and a node that leaves, hand over their keys
in the same way: each key is offered to the peer, and is removed after the peer
has applied it. With no message lost, the stores afterwards are those before with
every accepted key relocated to the peer.
-/

namespace KeyTransfers

open RpcPrograms GossipNode StateMachine ConflictVerdict
open ClusterStores HandlerRuns

/-- What each node stores under each key. -/
abbrev Stores := String → String → Option Data

def versionOf (e : Option Data) : Version := (e.map Prod.snd).getD []

/-- Whether a node that stores `e`, or nothing, would apply the entry. -/
def TakenOver (d : Data) (e : Option Data) : Prop :=
  checkConflictVersion d.2 (versionOf e) = 1

instance (d : Data) (e : Option Data) : Decidable (TakenOver d e) :=
  inferInstanceAs (Decidable (_ = _))

theorem takenOver_none (d : Data) : TakenOver d none := rfl

abbrev Takes (stores : Stores) (dst key : String) (d : Data) : Prop :=
  TakenOver d (stores dst key)

/-- Every key with a destination moves there from node `x`. -/
def relocate (x : String) (dest : String → Option String) (stores : Stores) : Stores :=
  fun n key => match dest key with
    | none => stores n key
    | some p => if n = x then none else if n = p then stores x key else stores n key

theorem accepts_iff_takes {state : String → GossipNode} {dst key : String} {d : Data} :
    Accepts (state dst) key d ↔ Takes (stored state) dst key d := by
  rw [Accepts, Takes, TakenOver, getVersion_eq, versionOf, stored]
  cases (state dst).stateMachine.entry key <;> rfl

section Relocate

variable {x key : String} {dest dest' : String → Option String} {stores : Stores}

variable (x stores) in
@[simp] theorem relocate_none : relocate x (fun _ => none) stores = stores := rfl

theorem relocate_of_none (h : dest key = none) (n : String) :
    relocate x dest stores n key = stores n key := by
  simp [relocate, h]

theorem relocate_self {p : String} (h : dest key = some p) :
    relocate x dest stores x key = none := by
  simp [relocate, h]

theorem relocate_dest {p : String} (h : dest key = some p) (hne : p ≠ x) :
    relocate x dest stores p key = stores x key := by
  simp [relocate, h, hne]

/-- Keys that have moved stay where they are. -/
theorem relocate_relocate (apart : ∀ key p, dest' key = some p → dest key = none) :
    relocate x dest' (relocate x dest stores) =
      relocate x (fun key => (dest key).or (dest' key)) stores := by
  funext n key
  cases h' : dest' key with
  | none => simp [relocate, h']
  | some p => simp [relocate, h', apart key p h']

end Relocate

/-- The keys that reach their destination. -/
structure Moves (x : String) (offers : String → String → Prop) (dest : String → Option String)
    (stores : Stores) : Prop where
  offered : ∀ key p, dest key = some p → offers p key
  takes : ∀ key p, dest key = some p → ∃ d, stores x key = some d ∧ Takes stores p key d
  all : ∀ key p d, offers p key → stores x key = some d → Takes stores p key d →
    (dest key).isSome

/-- Two rounds of offers are one. -/
theorem Moves.or {x : String} {offers offers' : String → String → Prop}
    {dest dest' : String → Option String} {stores : Stores}
    (h : Moves x offers dest stores) (h' : Moves x offers' dest' (relocate x dest stores)) :
    relocate x dest' (relocate x dest stores) =
        relocate x (fun key => (dest key).or (dest' key)) stores ∧
      Moves x (fun p key => offers p key ∨ offers' p key)
        (fun key => (dest key).or (dest' key)) stores := by
  have apart : ∀ key p, dest' key = some p → dest key = none := by
    intro key p hp
    obtain ⟨d, hd, _⟩ := h'.takes key p hp
    cases hq : dest key with
    | none => rfl
    | some q =>
      rw [relocate_self hq] at hd
      cases hd
  refine ⟨relocate_relocate apart, ⟨?_, ?_, ?_⟩⟩
  · intro key p hp
    rcases Option.or_eq_some_iff.mp hp with hp | ⟨_, hp⟩
    · exact Or.inl (h.offered key p hp)
    · exact Or.inr (h'.offered key p hp)
  · intro key p hp
    rcases Option.or_eq_some_iff.mp hp with hp | ⟨hnone, hp⟩
    · exact h.takes key p hp
    · obtain ⟨d, hd, htakes⟩ := h'.takes key p hp
      rw [relocate_of_none hnone] at hd
      rw [Takes, relocate_of_none hnone] at htakes
      exact ⟨d, hd, htakes⟩
  · intro key p d hoffer hd htakes
    cases hq : dest key with
    | some q => rfl
    | none =>
      rcases hoffer with hoffer | hoffer
      · have := h.all key p d hoffer hd htakes
        simp [hq] at this
      · have := h'.all key p d hoffer (by rw [relocate_of_none hq]; exact hd)
          (by rw [Takes, relocate_of_none hq]; exact htakes)
        simpa [hq] using this

theorem Moves.congr {x : String} {offers offers' : String → String → Prop}
    {dest : String → Option String} {stores : Stores} (h : Moves x offers dest stores)
    (hiff : ∀ p key d, stores x key = some d → (offers p key ↔ offers' p key)) :
    Moves x offers' dest stores where
  offered key p hp := by
    obtain ⟨d, hd, _⟩ := h.takes key p hp
    exact (hiff p key d hd).mp (h.offered key p hp)
  takes := h.takes
  all key p d hoffer hd := h.all key p d ((hiff p key d hd).mpr hoffer) hd

theorem moves_nothing {x : String} {offers : String → String → Prop} {stores : Stores}
    (h : ∀ key p d, offers p key → stores x key = some d → ¬ Takes stores p key d) :
    Moves x offers (fun _ => none) stores where
  offered _ _ hp := by cases hp
  takes _ _ hp := by cases hp
  all key p d hoffer hd htakes := absurd htakes (h key p d hoffer hd)

/-- One accepted key. -/
theorem moves_single {x p key : String} {d : Data} {stores : Stores}
    (hd : stores x key = some d) (htakes : Takes stores p key d) :
    Moves x (fun p' key' => p' = p ∧ key' = key) (fun key' => if key' = key then some p else none)
      stores where
  offered key' p' hp := by
    split at hp
    · rename_i hkey
      cases hp
      exact ⟨rfl, hkey⟩
    · cases hp
  takes key' p' hp := by
    split at hp
    · rename_i hkey
      cases hp
      subst hkey
      exact ⟨d, hd, htakes⟩
    · cases hp
  all key' p' d' hoffer _ _ := by simp [hoffer.2]

section Transfers

variable {hash : String → UInt64} {x dst key : String} {keys : List String}
variable {state state' : String → GossipNode}

/-- An accepted transfer, followed by the removal. -/
def handOver (hash : String → UInt64) (x dst key : String) (d : Data)
    (state : String → GossipNode) : String → GossipNode :=
  let state := Function.update state dst (apply hash (.put key d.1 d.2) (state dst))
  Function.update state x (apply hash (.remove key) (state x))

theorem storeOnly_handOver (d : Data) (state : String → GossipNode) :
    StoreOnly state (handOver hash x dst key d state) :=
  (StoreOnly.put _ _ _ _ _).trans (StoreOnly.remove _ _ _)

theorem stored_handOver (hne : dst ≠ x) {d : Data} (hd : stored state x key = some d) :
    stored (handOver hash x dst key d state) =
      relocate x (fun key' => if key' = key then some dst else none) (stored state) := by
  funext n key'
  rw [handOver, stored_remove, stored_put]
  by_cases hkey : key' = key
  · subst hkey
    by_cases hx : n = x
    · simp [relocate, hx]
    · by_cases hn : n = dst
      · subst hn
        simp [relocate, hx, hd]
      · simp [relocate, hx, hn]
  · simp [relocate, hkey]

/-- Node `x` has offered the keys to node `dst`, and no message was lost. -/
def Transferred (x dst : String) (keys : List String) (state state' : String → GossipNode) :
    Prop :=
  StoreOnly state state' ∧ ∃ dest, stored state' = relocate x dest (stored state) ∧
    Moves x (fun p key => p = dst ∧ key ∈ keys) dest (stored state)

theorem transferred_nil : Transferred x dst [] state state :=
  ⟨StoreOnly.refl _, fun _ => none, rfl,
    moves_nothing fun _ _ _ h => absurd h.2 List.not_mem_nil⟩

variable (hash) in
theorem transferred_accepted (hne : dst ≠ x) {d : Data} (hd : stored state x key = some d)
    (accepts : Accepts (state dst) key d)
    (h : Transferred x dst keys (handOver hash x dst key d state) state') :
    Transferred x dst (key :: keys) state state' := by
  obtain ⟨hstores, dest, hstored, hmoves⟩ := h
  rw [stored_handOver hne hd] at hstored hmoves
  obtain ⟨hrelocate, hboth⟩ := (moves_single hd (accepts_iff_takes.mp accepts)).or hmoves
  refine ⟨(storeOnly_handOver d state).trans hstores,
    _, hstored.trans hrelocate, hboth.congr ?_⟩
  intro p key' _ _
  rw [List.mem_cons]
  tauto

theorem transferred_refused {d : Data} (hd : stored state x key = some d)
    (refuses : ¬ Accepts (state dst) key d) (h : Transferred x dst keys state state') :
    Transferred x dst (key :: keys) state state' := by
  obtain ⟨hstores, dest, hstored, hmoves⟩ := h
  have hrefused : Moves x (fun p key' => p = dst ∧ key' = key) (fun _ => none)
      (stored state) := moves_nothing fun key' p d' h hd' htakes => by
    obtain ⟨rfl, rfl⟩ := h
    cases hd.symm.trans hd'
    exact refuses (accepts_iff_takes.mpr htakes)
  rw [← relocate_none x (stored state)] at hmoves
  obtain ⟨hrelocate, hboth⟩ := hrefused.or hmoves
  refine ⟨hstores, _, hstored.trans hrelocate, hboth.congr ?_⟩
  intro p key' _ _
  rw [List.mem_cons]
  tauto

/-- The other keys are still there after an accepted one is removed. -/
theorem stored_handOver_of_ne (hne : dst ≠ x) {d : Data} (hd : stored state x key = some d)
    {key' : String} (hkey : key' ≠ key) :
    stored (handOver hash x dst key d state) x key' =
      stored state x key' := by
  rw [stored_handOver hne hd, relocate_of_none (by simp [hkey])]

theorem stored_welcome {env : Env String Int64} {w : Net} (n : String) :
    stored (welcome hash env n x w).state = stored w.state := by
  simp only [welcome, World.modify_state, World.next_state]
  rw [stored_of_keepsStore _ n (a := .newStub x) trivial,
    stored_of_keepsStore _ n (a := .setHeartbeat x _) trivial,
    stored_of_keepsStore _ n (a := .addNode x) trivial]

end Transfers

end KeyTransfers
