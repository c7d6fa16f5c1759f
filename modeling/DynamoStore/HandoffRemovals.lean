import DynamoStore.Lib.Continuations
import DynamoStore.Lib.RpcSchedules
import DynamoStore.AcknowledgedWrites
import DynamoStore.EntryProvenance
import DynamoStore.HandlerEffects
import DynamoStore.ReachableStates

/-!
# What a handoff removes

A handoff reads an entry, sends it, and removes the key once the receiver has taken the
entry. The removal names only the key. Other requests may have stored a later version in
between, and then that version is removed, whether the receiver has it or not. Nothing is lost
when each version that the node stores meanwhile has come to the receiver first, and the
receiver takes nothing back.
-/

namespace HandoffRemovals

open RpcPrograms RpcInterleaving Continuations GossipNode StateMachine VectorClocks
open ClusterStores ConflictVerdict RpcSchedules HandlerEffects Effects
open ReachableStates (WellFormed Tidy tidy_of_reach)
open HandlerContracts (Composes)
open EntryProvenance (handsOff)

section Code

variable {hash : String → UInt64} {self key : String} {α β : Type}

/-- After a transfer that the receiver has taken comes the removal of the key. -/
def RemovesNext (_ : String) (q : Request) (k : Option Reply → Handler α) : Prop :=
  ∀ key data, q = .peerPut key data → ∃ p, k (some (.peerPut false)) = .act (.remove key) p

theorem removes_bind {p : Handler α} {f : α → Handler β} (h : Follows RemovesNext p)
    (hf : ∀ a, Follows RemovesNext (f a)) : Follows RemovesNext (p.bind f) := by
  refine follows_bind (h.mono fun dst q k hk key data hq => ?_) hf
  obtain ⟨rest, hrest⟩ := hk key data hq
  exact ⟨rest.bind f, congrArg (Prog.bind · f) hrest⟩

theorem removes_composes : Composes self (Follows RemovesNext) where
  ret _ := trivial
  bind := removes_bind
  read _ := trivial
  clock _ := trivial
  iterate _ _ := trivial
  perform _ := trivial
  tell dst q hq := by
    refine ⟨?_, fun _ => trivial⟩
    rintro key data rfl
    simp at hq

section Transfers

variable {f : Int → Handler α} (hzero : ∃ p, f 0 = .act (.remove key) p)
variable (hf : ∀ res, Follows RemovesNext (f res))

include hzero hf

/-- Code that starts with the removal after the result 0. -/
theorem removes_peerPut (peerServer value : String) (version : Version) :
    Follows RemovesNext ((peerPut peerServer key value version).bind f) := by
  rw [peerPut, Prog.bind_eq, Prog.bind_assoc]
  intro node
  simp only [Prog.bind]
  split
  · refine ⟨?_, fun r => ?_⟩
    · rintro key' data ⟨⟩
      exact hzero
    · simp only [Prog.bind]
      split
      · exact hf _
      · exact hf 1
  · trivial

theorem removes_transferKey (nodeId : String) :
    Follows RemovesNext ((transferKey nodeId key).bind f) := by
  rw [transferKey, Prog.bind_eq, Prog.bind_assoc]
  exact fun node => removes_peerPut hzero hf nodeId _ _

theorem removes_transferWithRetries (nodeId : String) (retries : Nat) :
    Follows RemovesNext ((transferWithRetries nodeId key retries).bind f) := by
  induction retries with
  | zero => exact removes_transferKey hzero hf nodeId
  | succ retries ih =>
    rw [transferWithRetries, Prog.bind_eq, Prog.bind_assoc]
    refine removes_transferKey (by simpa [Prog.pure_eq, Prog.bind] using hzero) (fun res => ?_)
      nodeId
    split
    · exact ih
    · exact hf res

end Transfers

theorem removes_joinTransferLoop (nodeId : String) (keys : List String) (success : Bool) :
    Follows RemovesNext (joinTransferLoop nodeId keys success) := by
  induction keys generalizing success with
  | nil => trivial
  | cons key keys ih =>
    refine removes_transferKey ⟨_, rfl⟩ (fun res => ?_) nodeId
    split
    · exact ih success
    · exact ih false

theorem removes_leaveTransferLoop (nodeId : String) (keys : List String) :
    Follows RemovesNext (leaveTransferLoop nodeId keys) := by
  induction keys with
  | nil => trivial
  | cons key keys ih =>
    refine removes_transferWithRetries ⟨_, rfl⟩ (fun res => ?_) nodeId 4
    split
    · exact ih
    · exact ih

/-- In a run, a handoff that a receiver has answered goes on with the removal. -/
theorem removal_of_reach {allowed : String → Request → Prop}
    {ok : String → Request → Action → GossipNode → Prop}
    {c c' : Config String GossipNode Action Request Reply Int64}
    (hreach : Reach (apply hash) (serve hash) allowed ok c c') (idle : c.threads = []) :
    ∀ stack ∈ c'.threads, ∀ f ∈ stack, handsOff f.request = true →
      Follows RemovesNext f.prog := by
  have served : ∀ n q, Follows (fun dst q' k => handsOff q = true → RemovesNext dst q' k)
      (serve hash n q) := by
    intro n q
    cases q with
    | joinNetwork nodeId =>
      have removes : Follows RemovesNext (serveJoinNetwork hash n nodeId) :=
        removes_composes.serveJoinNetwork fun keys => removes_joinTransferLoop nodeId keys true
      exact removes.mono fun _ _ _ h _ => h
    | adminCmd cmd aliveServers =>
      have removes : Follows RemovesNext (serveAdminCmd hash n cmd aliveServers) :=
        removes_composes.serveAdminCmd removes_leaveTransferLoop cmd aliveServers
      exact removes.mono fun _ _ _ h _ => h
    | _ => exact follows_of_all (fun _ _ _ h => by cases h) _
  intro stack hstack f hf hands
  exact (follows_of_reach served hreach idle stack hstack f hf).mono fun _ _ _ h => h hands

end Code

section Receivers

variable {hash : String → UInt64} {allowed : String → Request → Prop} {dst key : String}
variable {ok : String → Request → Action → GossipNode → Prop}

abbrev Configuration := Config String GossipNode Action Request Reply Int64

abbrev NodeFrame := Frame String GossipNode Action Request Reply Int64

/-- A handler of `PeerPut` calls nobody: it has not begun, or it has returned. -/
def Undivided (f : NodeFrame) : Prop :=
  ∀ key data, f.request = .peerPut key data → f.prog = servePeerPut key data ∨ ∃ r, f.prog = .ret r

theorem segment_of_servePeerPut {ok : Action → GossipNode → Prop} {n : String} {data : Data}
    {p : Handler Reply} {s s' : Shared String GossipNode Request}
    (h : Segment (apply hash) ok n (servePeerPut key data) s p s') :
    (∃ r, p = .ret r) ∧ (s' = s ∨
      checkConflictVersion data.2 ((s.state n).stateMachine.getVersion key) = 1 ∧
        ok (.put key data.1 data.2) (s.state n) ∧
        s' = s.modify n (apply hash (.put key data.1 data.2))) := by
  cases h with
  | get h =>
    dsimp only [Prog.bind] at h
    split at h
    · rename_i hcheck
      change Segment (apply hash) ok n
        (.act (.put key data.1 data.2) (.ret (.peerPut false)) : Handler Reply) s p s' at h
      cases h with
      | act hok h =>
        cases h
        exact ⟨⟨_, rfl⟩, Or.inr ⟨hcheck, hok, rfl⟩⟩
    · cases h
      exact ⟨⟨_, rfl⟩, Or.inl rfl⟩

theorem undivided_of_reach {c c' : Configuration}
    (hreach : Reach (apply hash) (serve hash) allowed ok c c') (idle : c.threads = []) :
    ∀ stack ∈ c'.threads, ∀ f ∈ stack, Undivided f := by
  have fresh : ∀ n q, Undivided ⟨n, q, serve hash n q⟩ := by
    rintro n q key data rfl
    exact Or.inl rfl
  induction hreach with
  | refl => simp [idle]
  | tail _ hstep ih =>
    refine hstep.frames ih (fun _ hf => hf) (fun n q _ _ => fresh n q) ?_
      (fun _ dst q _ _ _ => fresh dst q) ?_
    · intro f p hf hseg key data hrequest
      rcases hf key data hrequest with hserve | ⟨r, hret⟩
      · rw [hserve] at hseg
        exact Or.inr (segment_of_servePeerPut hseg).1
      · rw [hret] at hseg
        exact Or.inr ⟨r, hseg.of_ret.1⟩
    · intro f dst q k r hf hcall _ key data hrequest
      rcases hf key data hrequest with hserve | ⟨_, hret⟩
      · rw [hserve] at hcall
        cases hcall
      · rw [hret] at hcall
        cases hcall

/-- What the receiver does to the key: as a coordinator it writes only over what its write
covers, it takes no entry with an empty clock, and it does not remove the key. -/
def KeepsKey (key n : String) (q : Request) (node : GossipNode) : Action → Prop
  | .put key' value version => key' = key → version ≠ [] ∧
      AcknowledgedWrites.CoordinatorAhead n q (.put key' value version) node
  | .remove key' => key' ≠ key
  | _ => True

/-- The receiver's own part in an interval. -/
def ReceiverKeeps (dst key : String) (n : String) (q : Request) (a : Action) (node : GossipNode) :
    Prop :=
  n = dst → KeepsKey key n q node a

instance decidableKeepsKey (n : String) (q : Request) (node : GossipNode) :
    ∀ a, Decidable (KeepsKey key n q node a)
  | .put key' value version => show Decidable (key' = key → version ≠ [] ∧
      AcknowledgedWrites.CoordinatorAhead n q (.put key' value version) node) from
        instDecidableForall
  | .remove key' => inferInstanceAs (Decidable (¬ key' = key))
  | .addNode _ | .removeNode _ | .clearStubs | .newStub _ | .eraseStub _ | .setAlive _
  | .setHeartbeat _ _ | .touchHeartbeat _ | .eraseHeartbeat _ => isTrue trivial

instance (n : String) (q : Request) (a : Action) (node : GossipNode) :
    Decidable (ReceiverKeeps dst key n q a node) :=
  show Decidable (n = dst → KeepsKey key n q node a) from instDecidableForall

/-- What a node stores for the key stays covered. -/
def StaysCovered (key : String) (node node' : GossipNode) : Prop :=
  ∀ e, node.stateMachine.entry key = some e →
    ∃ e', node'.stateMachine.entry key = some e' ∧ Covers e e'

theorem StaysCovered.refl (key : String) (node : GossipNode) : StaysCovered key node node :=
  fun e he => ⟨e, he, Covers.refl e⟩

theorem StaysCovered.trans {node node' node'' : GossipNode} (h : StaysCovered key node node')
    (h' : StaysCovered key node' node'') : StaysCovered key node node'' := by
  intro e he
  obtain ⟨e', he', hcovers⟩ := h e he
  obtain ⟨e'', he'', hcovers'⟩ := h' e' he'
  exact ⟨e'', he'', hcovers.trans hcovers'⟩

/-- All stored clocks name each server once. -/
abbrev Sound : GossipNode → Prop := StoresOnly fun _ data => Distinct data.2

theorem staysCovered_put {node : GossipNode} {key' value : String} {version : Version}
    (covers : key' = key → ∀ e, node.stateMachine.entry key = some e → Covers e (value, version)) :
    StaysCovered key node (apply hash (.put key' value version) node) := by
  intro e he
  by_cases hkey : key' = key
  · subst hkey
    exact ⟨_, entry_put_self _ value version, covers rfl e he⟩
  · exact ⟨e, (entry_put_of_ne _ (Ne.symm hkey) value version).trans he, Covers.refl e⟩

/-- A change that the receiver makes for another request than a peer's put. -/
theorem staysCovered_of_does {n : String} {q : Request} {a : Action} {node : GossipNode}
    (sound : Sound node) (brings : BringsOnly (fun _ data => Distinct data.2) n q)
    (does : Does Sound n q a) (other : ∀ key data, q ≠ .peerPut key data)
    (keeps : ReceiverKeeps n key n q a node) : StaysCovered key node (apply hash a node) := by
  cases a with
  | put key' value version =>
    refine staysCovered_put fun hkey e he => ?_
    subst hkey
    obtain ⟨hne, ahead⟩ := keeps rfl rfl
    cases q with
    | clientPut key data =>
      exact covers_of_judged (sound key') (good_of_does does brings) hne ahead he
    | peerPut key data => exact absurd rfl (other key data)
    | _ => exact False.elim does
  | remove key' =>
    intro e he
    exact ⟨e, (entry_remove_of_ne _ (Ne.symm (keeps rfl))).trans he, Covers.refl e⟩
  | _ => exact StaysCovered.refl key node

end Receivers

section Intervals

variable {hash : String → UInt64} {S : Set String} {own dst key : String}
variable {ok : String → Request → Action → GossipNode → Prop}
variable {meets : (String → GossipNode) → (String → GossipNode) → Prop}

/-- What a step adds to the versions that a node has accepted of a key. -/
def noted (old new : Option Data) (log : List Data) : List Data :=
  if new = old then log else new.toList ++ log

/-- A run, with the versions of the key that the node accepts and stores on the way. Its state
changes are `ok`, and each of its steps `meets` a condition on the stores before and after. -/
abbrev Interval (hash : String → UInt64) (S : Set String)
    (ok : String → Request → Action → GossipNode → Prop)
    (meets : (String → GossipNode) → (String → GossipNode) → Prop) (own key : String) :
    Configuration × List Data → Configuration × List Data → Prop :=
  Relation.ReflTransGen fun x y =>
    Step (apply hash) (serve hash) (WellFormed S) ok x.1 y.1 ∧
      meets x.1.shared.state y.1.shared.state ∧
      y.2 = noted (stored x.1.shared.state own key) (stored y.1.shared.state own key) x.2

/-- What the node stores of the key in a step, the receiver stores already, or it stores
something that strictly dominates it. -/
def ReceiverFirst (own dst key : String) (state state' : String → GossipNode) : Prop :=
  ∀ e, stored state' own key = some e → stored state own key ≠ some e →
    ∃ e', stored state dst key = some e' ∧ Covers e e'

instance (state state' : String → GossipNode) :
    Decidable (ReceiverFirst own dst key state state') :=
  inferInstanceAs (Decidable (∀ e ∈ stored state' own key, stored state own key ≠ some e →
    ∃ e' ∈ stored state dst key, Covers e e'))

theorem reach_of_interval {x y : Configuration × List Data}
    (h : Interval hash S ok meets own key x y) :
    Reach (apply hash) (serve hash) (WellFormed S) (fun _ _ _ _ => True) x.1 y.1 :=
  Relation.ReflTransGen.lift Prod.fst
    (fun _ _ hstep => hstep.1.mono fun _ _ _ _ _ => trivial) x y h

/-- What a node stores after an interval it has stored before or accepted meanwhile. -/
theorem stored_of_interval {x y : Configuration × List Data}
    (h : Interval hash S ok meets own key x y) {e : Data}
    (he : stored y.1.shared.state own key = some e) :
    e ∈ y.2 ∨ stored x.1.shared.state own key = some e := by
  induction h generalizing e with
  | refl => exact Or.inr he
  | @tail y z _ hstep ih =>
    rw [hstep.2.2, noted]
    split
    · rename_i hsame
      exact ih (hsame ▸ he)
    · rw [he]
      exact Or.inl List.mem_cons_self

/-- Among the versions in `log`, the node stores none that the receiver does not have or
surpass. -/
def HandedOver (state : String → GossipNode) (own dst key : String) (log : List Data) : Prop :=
  ∀ e ∈ log, stored state own key = some e →
    ∃ e', stored state dst key = some e' ∧ Covers e e'

/-- What holds of the clocks in every reachable configuration. -/
abbrev Clocked (hash : String → UInt64) : Configuration → Prop :=
  ConfigWithin (table hash (BringsOnly fun _ data => Distinct data.2) (fun _ => Sound) True)

theorem clocked_of_reach {state : String → GossipNode} (start : Tidy S state) {c : Configuration}
    (hreach : Reach (apply hash) (serve hash) (WellFormed S) ok (.start state) c) :
    Clocked hash c := by
  have missing : ∀ _ : String, Distinct ((noValue, []) : Data).2 := fun _ => List.nodup_nil
  refine (kept_entries missing ok).reach (fun n q wellFormed => ?_) hreach
    (configWithin_start start.distinct)
  cases q with
  | clientPut _ _ => exact distinct_updateVersion wellFormed.2 n
  | peerPut _ _ => exact wellFormed.2
  | _ => trivial

/-- A `PeerPut` on any node leaves covered what the receiver stores: it compares before it
writes. -/
theorem staysCovered_servePeerPut {n key' : String} {data : Data} {p : Handler Reply}
    {s s' : Shared String GossipNode Request} (sound : Sound (s.state n)) (version : Distinct data.2)
    (hseg : Segment (apply hash) (ReceiverKeeps dst key n (.peerPut key' data)) n
      (servePeerPut key' data) s p s') : StaysCovered key (s.state dst) (s'.state dst) := by
  rcases (segment_of_servePeerPut hseg).2 with hsame | ⟨hcheck, keeps, hmodified⟩
  · rw [hsame]
    exact StaysCovered.refl key _
  · rw [hmodified]
    by_cases hdst : dst = n
    · subst hdst
      rw [s.modify_self]
      refine staysCovered_put fun hkey e he => ?_
      subst hkey
      exact covers_of_check (sound key') version (keeps rfl rfl).1 hcheck he
    · rw [s.modify_of_ne n _ hdst]
      exact StaysCovered.refl key _

/-- So does a segment of any other handler, with the receiver's part. -/
theorem staysCovered_segment {f : NodeFrame} {p : Handler Reply}
    {s s' : Shared String GossipNode Request} (sound : Sound (s.state f.node))
    (hframe : FrameWithin (table hash (BringsOnly fun _ data => Distinct data.2) (fun _ => Sound)
      True) f) (other : ∀ key' data, f.request ≠ .peerPut key' data)
    (hseg : Segment (apply hash) (ReceiverKeeps dst key f.node f.request) f.node f.prog s p s') :
    StaysCovered key (s.state dst) (s'.state dst) := by
  have brings : BringsOnly (fun _ data => Distinct data.2) f.node f.request := hframe.request
  have changes : ∀ a node, Does Sound f.node f.request a →
      ReceiverKeeps dst key f.node f.request a node → Sound node →
      Sound (apply hash a node) ∧
        (f.node = dst → StaysCovered key node (apply hash a node)) := by
    intro a node does keeps sound
    refine ⟨sound.of_does does brings, fun hn => ?_⟩
    subst hn
    exact staysCovered_of_does sound brings does other keeps
  obtain ⟨_, _, stays, hothers⟩ := Within.segment
    (fun node node' => f.node = dst → StaysCovered key node node')
    (fun node _ => StaysCovered.refl key node) (fun _ _ _ h h' hn => (h hn).trans (h' hn))
    changes hseg sound hframe.within
  by_cases hdst : dst = f.node
  · subst hdst
    exact stays rfl
  · rw [hothers dst hdst]
    exact StaysCovered.refl key _

/-- A step with the receiver's part leaves covered what the receiver stores. -/
theorem staysCovered_step {allowed : String → Request → Prop} {c c' : Configuration}
    (clocked : Clocked hash c) (undivided : ∀ stack ∈ c.threads, ∀ f ∈ stack, Undivided f)
    (hstep : Step (apply hash) (serve hash) allowed (ReceiverKeeps dst key) c c') :
    StaysCovered key (c.shared.state dst) (c'.shared.state dst) := by
  rcases hstep.shared with ⟨n, q, _, hshared⟩ | ⟨stack, hstack, f, hf, p, hseg⟩ | hshared
  · rw [hshared]
    exact StaysCovered.refl key _
  · have hframe := clocked.frames stack hstack f hf
    have sound := clocked.states f.node
    by_cases hput : ∃ key' data, f.request = .peerPut key' data
    · obtain ⟨key', data, hrequest⟩ := hput
      have version := hframe.request
      rw [hrequest] at hseg version
      rcases undivided stack hstack f hf key' data hrequest with hserve | ⟨r, hret⟩
      · rw [hserve] at hseg
        exact staysCovered_servePeerPut sound version hseg
      · rw [hret] at hseg
        rw [hseg.of_ret.2]
        exact StaysCovered.refl key _
    · exact staysCovered_segment sound hframe (fun key' data h => hput ⟨key', data, h⟩) hseg
  · rw [hshared]
    exact StaysCovered.refl key _

/-- If the receiver keeps what it has, and has each version before the node stores it, then
what the node has accepted in the interval the receiver has at its end. -/
theorem handedOver_of_interval {state : String → GossipNode} (start : Tidy S state)
    {c₀ : Configuration}
    (before : Reach (apply hash) (serve hash) (WellFormed S) (fun _ _ _ _ => True)
      (.start state) c₀) {y : Configuration × List Data}
    (interval : Interval hash S (ReceiverKeeps dst key) (ReceiverFirst own dst key) own key
      (c₀, []) y) : HandedOver y.1.shared.state own dst key y.2 := by
  induction interval with
  | refl => exact fun _ h => absurd h List.not_mem_nil
  | @tail y z run hstep ih =>
    obtain ⟨hstep, first, hlog⟩ := hstep
    have hreach := before.trans (reach_of_interval run)
    have stays := staysCovered_step (clocked_of_reach start hreach)
      (undivided_of_reach hreach rfl) hstep
    intro e he hstored
    have covered : ∃ e', stored y.1.shared.state dst key = some e' ∧ Covers e e' := by
      by_cases hold : stored y.1.shared.state own key = some e
      · rw [hlog, noted, if_pos (hstored.trans hold.symm)] at he
        exact ih e he hold
      · exact first e hstored hold
    obtain ⟨e₁, he₁, hcovers₁⟩ := covered
    obtain ⟨e₂, he₂, hcovers₂⟩ := stays e₁ he₁
    exact ⟨e₂, he₂, hcovers₁.trans hcovers₂⟩

/-- A handler on the node has come to this call. -/
def Waits (c : Configuration) (n : String) (q : Request) (dst : String) (q' : Request) : Prop :=
  ∃ stack ∈ c.threads, ∃ f ∈ stack, f.node = n ∧ f.request = q ∧ ∃ k, f.prog = .call dst q' k

/-- A handoff that transfers a key in frame `f`: it has sent the entry in `c₀`, and in `c₁`
the receiver has answered in frame `g` that it has taken it. -/
structure Handoff (c₀ c₁ : Configuration) (key : String) (data : Data) (f g : NodeFrame)
    (k : Option Reply → Handler Reply) : Prop where
  hands : handsOff f.request = true
  request : g.request = .peerPut key data
  transfer : f.prog = .call g.node g.request k
  success : g.prog = .ret (.peerPut false)
  sent : Waits c₀ f.node f.request g.node g.request
  answered : ∃ stack, g :: f :: stack ∈ c₁.threads

end Intervals

section FiveNodes

open EntryProvenance (fiveNodes late twoPuts joinAtE)

def fiveIds : List String := ["A", "B", "C", "D", "E"]

instance decidableWellFormed (ids : List String) (n : String) :
    ∀ q, Decidable (WellFormed {m | m ∈ ids} n q)
  | .clientPut _ data | .peerPut _ data => inferInstanceAs (Decidable (n ∈ ids ∧ Distinct data.2))
  | .joinNetwork nodeId => inferInstanceAs (Decidable (n ∈ ids ∧ nodeId ∈ ids ∧ nodeId ≠ n))
  | .adminCmd _ aliveServers =>
    inferInstanceAs (Decidable (n ∈ ids ∧ ∀ addr ∈ aliveServers, addr ∈ ids))
  | .leaveNetwork _ | .gossip _ | .clientGet _ | .peerGet _ | .mainLoopTurn =>
    inferInstanceAs (Decidable (n ∈ ids ∧ True))

section Moves

variable (ok : String → Request → Action → GossipNode → Prop)
variable [∀ n q a node, Decidable (ok n q a node)]
variable (meets : (String → GossipNode) → (String → GossipNode) → Prop)
variable [∀ state state', Decidable (meets state state')]

/-- Moves of the five nodes, with the versions that the node accepts of the key. -/
def follow (own key : String) (moves : List (Move String Request Int64))
    (x : Configuration × List Data) : Option (Configuration × List Data) :=
  moves.foldlM (fun x m =>
    (makeMove (apply fiveNodes) (serve fiveNodes) (WellFormed {n | n ∈ fiveIds}) ok
      (fun _ _ _ _ _ => True) m x.1).bind fun c =>
        if meets x.1.shared.state c.shared.state then
          some (c, noted (stored x.1.shared.state own key) (stored c.shared.state own key) x.2)
        else none) x

variable {ok meets}

theorem interval_of_follow {own key : String} (moves : List (Move String Request Int64))
    {x y : Configuration × List Data} (h : follow ok meets own key moves x = some y) :
    Interval fiveNodes {n | n ∈ fiveIds} ok meets own key x y := by
  induction moves generalizing x with
  | nil =>
    cases h
    exact .refl
  | cons m moves ih =>
    rw [follow, List.foldlM_cons] at h
    obtain ⟨x₁, hmove, h⟩ := Option.bind_eq_some_iff.mp h
    obtain ⟨c, hc, hmove⟩ := Option.bind_eq_some_iff.mp hmove
    split at hmove
    · rename_i hmeets
      cases hmove
      exact .head ⟨(step_of_makeMove hc).1, hmeets, rfl⟩ (ih h)
    · cases hmove

end Moves

theorem tidy_fiveNodes : Tidy {n | n ∈ fiveIds} (cluster fiveNodes ["A", "B", "E"]) where
  distinct n key e he := by simp [stored, cluster] at he
  no_own_stub n hn := (mem_cluster_stubs.mp hn).2.2 rfl
  closed n _ m hm := by
    have hmember := (mem_cluster_stubs.mp hm).2.1
    simp only [List.mem_cons, List.not_mem_nil, or_false] at hmember
    rcases hmember with rfl | rfl | rfl <;> decide

/-- The receiver of the transfer takes the entry and answers. -/
def taken : List (Move String Request Int64) :=
  [.turn 0 .invoke, .turn 0 (.segment late)]

/-- The transfer of the second key to C, as E sees it. -/
def transferToC : String × Request × Option (String × Request) × Option Reply :=
  ("E", .joinNetwork "C", some ("C", .peerPut "k2" ("v2", [("E", 1)])), none)

theorem handoff_of_look {c₀ c₁ : Configuration}
    (sent : ∃ stack ∈ c₀.threads, ∃ f ∈ stack, look f = transferToC)
    (answered : ∃ stack ∈ c₁.threads, (stack.map look).take 2 =
      [("C", .peerPut "k2" ("v2", [("E", 1)]), none, some (.peerPut false)), transferToC]) :
    ∃ f g k, Handoff c₀ c₁ "k2" ("v2", [("E", 1)]) f g k ∧ f.node = "E" ∧ g.node = "C" := by
  obtain ⟨g, f, stack, k, hstack, hgnode, hgrequest, hret, hnode, hrequest, hcall⟩ :=
    frames_of_look answered
  obtain ⟨stack₀, hstack₀, f₀, hf₀, hlook⟩ := sent
  simp only [look, transferToC, Prod.mk.injEq] at hlook
  obtain ⟨hnode₀, hrequest₀, hcall₀, _⟩ := hlook
  refine ⟨f, g, k, ⟨?_, hgrequest, ?_, hret, ?_, stack, hstack⟩, hnode, hgnode⟩
  · rw [hrequest]
    rfl
  · rw [hgnode, hgrequest]
    exact hcall
  · rw [hnode, hrequest, hgnode, hgrequest]
    exact ⟨stack₀, hstack₀, f₀, hf₀, hnode₀, hrequest₀, of_calling hcall₀⟩

/-- E sends the second key to C, the moves follow, and then C's answer is there. -/
theorem handoff_of_follow (ok : String → Request → Action → GossipNode → Prop)
    [∀ n q a node, Decidable (ok n q a node)]
    (meets : (String → GossipNode) → (String → GossipNode) → Prop)
    [∀ state state', Decidable (meets state state')]
    (moves : List (Move String Request Int64)) (log : List Data) (atE atC : Data)
    (h : ∃ x ∈ follow (fun _ _ _ _ => True) (fun _ _ => True) "E" "k2" (twoPuts ++ joinAtE "C")
        (.start (cluster fiveNodes ["A", "B", "E"]), []),
      (∃ stack ∈ x.1.threads, ∃ f ∈ stack, look f = transferToC) ∧
      ∃ y ∈ follow ok meets "E" "k2" moves (x.1, []),
        (∃ stack ∈ y.1.threads, (stack.map look).take 2 =
          [("C", .peerPut "k2" ("v2", [("E", 1)]), none, some (.peerPut false)), transferToC]) ∧
        stored y.1.shared.state "E" "k2" = some atE ∧
        stored y.1.shared.state "C" "k2" = some atC ∧ y.2 = log) :
    ∃ c₀ c₁ f g k, Reach (apply fiveNodes) (serve fiveNodes) (WellFormed {n | n ∈ fiveIds})
        (fun _ _ _ _ => True) (.start (cluster fiveNodes ["A", "B", "E"])) c₀ ∧
      Interval fiveNodes {n | n ∈ fiveIds} ok meets f.node "k2" (c₀, []) (c₁, log) ∧
      Handoff c₀ c₁ "k2" ("v2", [("E", 1)]) f g k ∧ f.node = "E" ∧ g.node = "C" ∧
      stored c₁.shared.state "E" "k2" = some atE ∧ stored c₁.shared.state "C" "k2" = some atC := by
  obtain ⟨⟨c₀, log₀⟩, hbefore, hsent, ⟨c₁, log₁⟩, hinterval, hanswered, hE, hC, rfl⟩ := h
  have hrun := interval_of_follow _ hinterval
  obtain ⟨f, g, k, handoff, hf, hg⟩ := handoff_of_look hsent hanswered
  exact ⟨c₀, c₁, f, g, k, reach_of_interval (interval_of_follow _ hbefore), hf ▸ hrun, handoff,
    hf, hg, hE, hC⟩

end FiveNodes

end HandoffRemovals
