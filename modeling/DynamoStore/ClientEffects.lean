import DynamoStore.KeyValueStoreClient
import DynamoStore.Lib.Effects

/-!
# What clients do to the nodes

The programs of a client reach the nodes through their calls only, and these are always gets
and puts. So what gets and puts of clients respect, any program of a client respects.
-/

namespace ClientEffects

open RpcPrograms GossipNode KeyValueStoreClient HandlerRuns Effects

/-- The requests that clients make. -/
def ClientRequest : Request → Prop
  | .clientGet _ | .clientPut _ _ => True
  | _ => False

/-- The limits of a client's programs. -/
def asking : Limits String KeyValueStoreClient Change Request Reply where
  reads _ := True
  acts _ := True
  calls _ := ClientRequest
  answers _ _ _ := True
  crashes := True

section Programs

variable {key value : String}

theorem updateChannel_asks (coordinator : String) :
    Within asking (updateChannelToCoordinator coordinator) fun _ => True := by
  refine Within.bind Within.read fun client _ => ?_
  split
  · exact Within.bind (Within.perform trivial) fun _ _ => Within.perform trivial
  · exact Within.perform trivial

theorem putRetry_asks (attempts : Nat) :
    Within asking (putRetry key value attempts) fun _ => True := by
  induction attempts with
  | zero => exact Within.ret trivial
  | succ attempts ih =>
    refine Within.bind Within.read fun client _ => ?_
    split
    · refine Within.bind (Within.send trivial) fun r _ => ?_
      split
      · refine Within.bind Within.read fun _ _ => ?_
        exact Within.bind (Within.perform trivial) fun _ _ => Within.ret trivial
      · exact Within.ret trivial
      · exact Within.bind (updateChannel_asks _) fun _ _ => ih
      · exact Within.ret trivial
      · exact Within.ret trivial
    · exact Within.crash trivial

theorem reconcile_asks (attempts : Nat) (selections : List Int) (conflictVersions : List Data) :
    Within asking (reconcile key attempts selections conflictVersions) fun _ => True := by
  rcases conflictVersions with _ | ⟨d, _ | ⟨d', conflictVersions⟩⟩
  · exact Within.ret trivial
  · exact Within.bind (Within.perform trivial) fun _ _ => Within.ret trivial
  · refine Within.bind (Within.iterate _) fun servers _ => ?_
    split
    · exact Within.ret trivial
    · refine Within.bind (Within.perform trivial) fun _ _ => ?_
      refine Within.bind (putRetry_asks attempts) fun ret _ => ?_
      split <;> exact Within.ret trivial

theorem get_asks (attempts : Nat) (selections : List Int) :
    Within asking (KeyValueStoreClient.get key attempts selections) fun _ => True := by
  refine Within.bind Within.read fun client _ => ?_
  split
  · refine Within.bind (Within.send trivial) fun r _ => ?_
    split
    · refine Within.bind (updateChannel_asks _) fun _ _ => ?_
      refine Within.bind (reconcile_asks attempts selections _) fun result _ => ?_
      split <;> exact Within.ret trivial
    · exact Within.ret trivial
  · exact Within.crash trivial

theorem getUntilSuccess_asks (attempts : Nat) (inputs : Nat → RoundInput) (rounds : Nat) :
    Within asking (getUntilSuccess key attempts inputs rounds) fun _ => True := by
  induction rounds with
  | zero => exact Within.ret trivial
  | succ rounds ih =>
    refine Within.bind (get_asks attempts _) fun ret _ => ?_
    split
    · exact Within.ret trivial
    · exact Within.ret trivial
    · refine Within.bind (Φ := fun _ => True) ?_ fun server _ =>
        Within.bind (Within.perform trivial) fun _ _ => ih
      rw [randomPickServer]
      split
      · exact Within.ret trivial
      · exact Within.crash trivial

theorem put_asks (retry : Bool) (attempts : Nat) (inputs : Nat → RoundInput) (rounds : Nat) :
    Within asking (KeyValueStoreClient.put key value retry attempts inputs rounds)
      fun _ => True := by
  rw [KeyValueStoreClient.put]
  split
  · refine Within.bind (getUntilSuccess_asks attempts inputs _) fun ret _ => ?_
    split
    · exact Within.ret trivial
    · exact putRetry_asks _
  · exact putRetry_asks _

end Programs

/-- A run of a client's program, beside the nodes. -/
theorem runBeside_related {hash : String → UInt64} {env : Env String Int64} {depth : Nat}
    (Rel : (String → GossipNode) → (String → GossipNode) → Prop) (refl : ∀ state, Rel state state)
    (trans : ∀ state state' state'', Rel state state' → Rel state' state'' → Rel state state'')
    (delivers : ∀ dst q (w w' : Net) r, ClientRequest q →
      deliver hash env depth dst q w = some (w', r) → Rel w.state w'.state)
    {α : Type} {p : Code α} {Φ : α → Prop} (hp : Within asking p Φ)
    {client client' : KeyValueStoreClient} {w w' : Net} {a : α}
    (hrun : runBeside hash env depth p client w = some (client', w', a)) :
    Rel w.state w'.state := by
  induction p generalizing client w with
  | ret b =>
    cases hrun
    exact refl _
  | get k ih => exact ih _ (hp client trivial) hrun
  | act x k ih => exact ih hp.2 hrun
  | now k ih => exact ih _ (w := w.next) (hp _) hrun
  | order l k ih => exact ih _ (w := w.next) (hp _ (env.perm _ _)) hrun
  | call dst q k ih =>
    obtain ⟨⟨w₁, r⟩, hcall, hrun⟩ := Option.bind_eq_some_iff.mp hrun
    exact trans _ _ _ (delivers dst q w w₁ r hp.1 hcall) (ih r (hp.2 r fun _ _ => trivial) hrun)
  | crash => cases hrun

end ClientEffects
