import DynamoStore.ReplicaCount

/-!
# Rings with the same members

A virtual node is named by the id of its node and its index, one after the other
without a separator, so with eleven virtual nodes or more the nodes "a" and "a1" share
the name "a10". Where no later call takes a name from a member, the ring depends on the
members only. Where one does, the member is short of a position, and the position has
gone to whoever was added last.
-/

namespace RingHistories

open ClockwiseWalk MachineWords ConsistentHashingRing RingOwners ReplicaCount

/-- Two nodes have a virtual node of the same name. -/
def SharesName (numVirtualNodes : Nat) (id id' : String) : Prop :=
  ∃ i < numVirtualNodes, ∃ i' < numVirtualNodes, id ++ toString i = id' ++ toString i'

instance (numVirtualNodes : Nat) (id id' : String) :
    Decidable (SharesName numVirtualNodes id id') :=
  inferInstanceAs (Decidable (∃ i < numVirtualNodes, ∃ i' < numVirtualNodes,
    id ++ toString i = id' ++ toString i'))

/-- After the call that adds a node for good, no call is about another node that shares
a name with it. -/
def LastAddsStand (numVirtualNodes : Nat) : List Call → Prop
  | [] => True
  | .addNode id :: calls =>
    ((∀ call ∈ calls, call.nodeId ≠ id) →
      ∀ call ∈ calls, ¬ SharesName numVirtualNodes id call.nodeId) ∧
    LastAddsStand numVirtualNodes calls
  | .removeNode _ :: calls => LastAddsStand numVirtualNodes calls

/-- The names of all virtual nodes of the nodes that some calls are about. -/
def virtualNames (numVirtualNodes : Nat) (calls : List Call) : Set String :=
  {name | ∃ call ∈ calls, ∃ i < numVirtualNodes, name = call.nodeId ++ toString i}

section Positions

variable (hash : String → UInt64) (numVirtualNodes : Nat)

/-- A node has a virtual node at a position. -/
def Hits (id : String) (p : UInt64) : Prop :=
  ∃ i < numVirtualNodes, p = virtualNode hash id i

/-- Some call puts a node at a position that no later call writes or erases. -/
def PutBy (p : UInt64) (id : String) : List Call → Prop
  | [] => False
  | call :: calls =>
    (call = .addNode id ∧ Hits hash numVirtualNodes id p ∧
      ∀ later ∈ calls, ¬ Hits hash numVirtualNodes later.nodeId p) ∨ PutBy p id calls

variable {hash numVirtualNodes} {r : ConsistentHashingRing} {calls : List Call}
variable {p : UInt64} {id : String} {ids : Finset String}

theorem numVirtualNodes_ringAfter (calls : List Call) (r : ConsistentHashingRing) :
    (ringAfter hash calls r).numVirtualNodes = r.numVirtualNodes := by
  induction calls generalizing r with
  | nil => rfl
  | cons call calls ih => exact (ih (call.run hash r)).trans (numVirtualNodes_run call)

theorem not_hits_iff : ¬ Hits hash numVirtualNodes id p ↔
    ∀ i < numVirtualNodes, p ≠ virtualNode hash id i := by
  simp [Hits]

theorem mem_run {call : Call} : (p, id) ∈ (call.run hash r).ring.entries ↔
    (call = .addNode id ∧ Hits hash r.numVirtualNodes id p) ∨
      ((p, id) ∈ r.ring.entries ∧ ¬ Hits hash r.numVirtualNodes call.nodeId p) := by
  cases call with
  | addNode nodeId =>
    rw [Call.run, mem_addNode, Call.nodeId, Call.addNode.injEq, not_hits_iff]
    constructor
    · rintro (⟨rfl, hits⟩ | kept)
      · exact Or.inl ⟨rfl, hits⟩
      · exact Or.inr kept
    · rintro (⟨rfl, hits⟩ | kept)
      · exact Or.inl ⟨rfl, hits⟩
      · exact Or.inr kept
  | removeNode nodeId =>
    rw [Call.run, mem_removeNode, Call.nodeId, not_hits_iff]
    simp

/-- What is on the map after some calls, by the last call for each position. -/
theorem mem_ringAfter : (p, id) ∈ (ringAfter hash calls r).ring.entries ↔
    PutBy hash r.numVirtualNodes p id calls ∨
      ((p, id) ∈ r.ring.entries ∧ ∀ call ∈ calls, ¬ Hits hash r.numVirtualNodes call.nodeId p) := by
  induction calls generalizing r with
  | nil => simp [ringAfter, PutBy]
  | cons call calls ih =>
    have hrest := @ih (call.run hash r)
    rw [numVirtualNodes_run, mem_run] at hrest
    rw [PutBy, List.forall_mem_cons]
    change (p, id) ∈ (ringAfter hash calls (call.run hash r)).ring.entries ↔ _
    rw [hrest]
    tauto

theorem mem_ringAfter_init : (p, id) ∈ (ringAfter hash calls (init numVirtualNodes)).ring.entries ↔
    PutBy hash numVirtualNodes p id calls := by
  rw [mem_ringAfter]
  simp [init, SortedMap.empty]

theorem PutBy.named (put : PutBy hash numVirtualNodes p id calls) :
    .addNode id ∈ calls ∧ Hits hash numVirtualNodes id p := by
  induction calls with
  | nil => exact put.elim
  | cons call calls ih =>
    rcases put with ⟨rfl, hits, _⟩ | put
    · exact ⟨List.mem_cons_self, hits⟩
    · exact ⟨List.mem_cons_of_mem _ (ih put).1, (ih put).2⟩

theorem mem_membersAfter_of_kept (hid : id ∈ ids) (kept : ∀ call ∈ calls, call ≠ .removeNode id) :
    id ∈ membersAfter calls ids := by
  induction calls generalizing ids with
  | nil => exact hid
  | cons call calls ih =>
    rw [List.forall_mem_cons] at kept
    refine @ih (call.members ids) ?_ kept.2
    cases call with
    | addNode nodeId => exact Finset.mem_insert_of_mem hid
    | removeNode nodeId =>
      refine Finset.mem_erase.mpr ⟨?_, hid⟩
      rintro rfl
      exact kept.1 rfl

/-- Who has a position is a member: its removal would have erased the position. -/
theorem PutBy.mem_membersAfter (put : PutBy hash numVirtualNodes p id calls)
    (ids : Finset String) : id ∈ membersAfter calls ids := by
  induction calls generalizing ids with
  | nil => exact put.elim
  | cons call calls ih =>
    rcases put with ⟨rfl, hits, untouched⟩ | put
    · change id ∈ membersAfter calls (insert id ids)
      refine mem_membersAfter_of_kept (Finset.mem_insert_self id ids) ?_
      rintro later hlater rfl
      exact untouched _ hlater hits
    · exact ih put (call.members ids)

end Positions

section Standing

variable {hash : String → UInt64} {numVirtualNodes : Nat} {calls : List Call}
variable {id id' : String} {ids : Finset String} {known : Set String}

/-- The hash tells the virtual nodes of the nodes in question apart by their names. -/
theorem hits_iff_sharesName (injective : known.InjOn hash)
    (hid : ∀ i < numVirtualNodes, id ++ toString i ∈ known)
    (hid' : ∀ i < numVirtualNodes, id' ++ toString i ∈ known) :
    SharesName numVirtualNodes id id' ↔
      ∃ i < numVirtualNodes, Hits hash numVirtualNodes id' (virtualNode hash id i) := by
  constructor
  · rintro ⟨i, hi, i', hi', hname⟩
    exact ⟨i, hi, i', hi', congrArg hash hname⟩
  · rintro ⟨i, hi, i', hi', hpos⟩
    exact ⟨i, hi, i', hi', injective (hid i hi) (hid' i' hi') hpos⟩

theorem mem_membersAfter_cases (hid : id ∈ membersAfter calls ids) :
    (id ∈ ids ∧ ∀ call ∈ calls, call.nodeId ≠ id) ∨ .addNode id ∈ calls := by
  induction calls generalizing ids with
  | nil => exact Or.inl ⟨hid, by simp⟩
  | cons call calls ih =>
    rcases @ih (call.members ids) hid with ⟨hmem, hnone⟩ | hadd
    · cases call with
      | addNode nodeId =>
        by_cases hn : nodeId = id
        · exact Or.inr (hn ▸ List.mem_cons_self)
        · refine Or.inl ⟨Finset.mem_of_mem_insert_of_ne hmem (Ne.symm hn), ?_⟩
          exact List.forall_mem_cons.mpr ⟨hn, hnone⟩
      | removeNode nodeId =>
        obtain ⟨hne, hmem⟩ := Finset.mem_erase.mp hmem
        exact Or.inl ⟨hmem, List.forall_mem_cons.mpr ⟨Ne.symm hne, hnone⟩⟩
    · exact Or.inr (List.mem_cons_of_mem _ hadd)

variable (injective : known.InjOn hash)
variable (hnames : ∀ call ∈ calls, ∀ i < numVirtualNodes, call.nodeId ++ toString i ∈ known)

include injective hnames

/-- Members whose names are not taken have all their positions. -/
theorem putBy_of_lastAddsStand (stand : LastAddsStand numVirtualNodes calls)
    (hid : id ∈ membersAfter calls ids) :
    (id ∈ ids ∧ ∀ call ∈ calls, call.nodeId ≠ id) ∨
      ∀ i < numVirtualNodes, PutBy hash numVirtualNodes (virtualNode hash id i) id calls := by
  induction calls generalizing ids with
  | nil => exact Or.inl ⟨hid, by simp⟩
  | cons call calls ih =>
    rw [List.forall_mem_cons] at hnames
    have hstand : LastAddsStand numVirtualNodes calls := by
      cases call with
      | addNode nodeId => exact stand.2
      | removeNode nodeId => exact stand
    have hrest : id ∈ membersAfter calls (call.members ids) := hid
    rcases ih hnames.2 hstand hrest with ⟨hmem, hnone⟩ | hput
    · by_cases hn : call.nodeId = id
      · cases call with
        | addNode nodeId =>
          -- this is the call that adds the node for good
          obtain rfl : nodeId = id := hn
          refine Or.inr fun i hi => Or.inl ⟨rfl, ⟨i, hi, rfl⟩, ?_⟩
          intro later hlater hits
          exact stand.1 hnone later hlater ((hits_iff_sharesName injective hnames.1
            (hnames.2 later hlater)).mpr ⟨i, hi, hits⟩)
        | removeNode nodeId => exact absurd hn.symm (Finset.mem_erase.mp hmem).1
      · refine Or.inl ⟨?_, List.forall_mem_cons.mpr ⟨hn, hnone⟩⟩
        cases call with
        | addNode nodeId => exact Finset.mem_of_mem_insert_of_ne hmem (Ne.symm hn)
        | removeNode nodeId => exact (Finset.mem_erase.mp hmem).2
    · exact Or.inr fun i hi => Or.inr (hput i hi)

/-- Where all members have all their positions, no name has been taken. -/
theorem lastAddsStand_of_putBy
    (full : ∀ id ∈ membersAfter calls ids, (∃ call ∈ calls, call.nodeId = id) →
      ∀ i < numVirtualNodes, PutBy hash numVirtualNodes (virtualNode hash id i) id calls) :
    LastAddsStand numVirtualNodes calls := by
  induction calls generalizing ids with
  | nil => trivial
  | cons call calls ih =>
    rw [List.forall_mem_cons] at hnames
    have hrest : LastAddsStand numVirtualNodes calls := by
      refine @ih (call.members ids) hnames.2 ?_
      rintro id hid ⟨later, hlater, hnamed⟩ i hi
      rcases full id hid ⟨later, List.mem_cons_of_mem _ hlater, hnamed⟩ i hi with
        ⟨_, _, untouched⟩ | put
      · exact absurd ⟨i, hi, by rw [hnamed]⟩ (untouched later hlater)
      · exact put
    cases call with
    | removeNode nodeId => exact hrest
    | addNode nodeId =>
      refine ⟨fun hnone later hlater shares => ?_, hrest⟩
      obtain ⟨i, hi, hits⟩ := (hits_iff_sharesName injective hnames.1
        (hnames.2 later hlater)).mp shares
      have hmem : nodeId ∈ membersAfter (.addNode nodeId :: calls) ids := by
        change nodeId ∈ membersAfter calls (insert nodeId ids)
        refine mem_membersAfter_of_kept (Finset.mem_insert_self nodeId ids) ?_
        rintro _ hcall rfl
        exact hnone _ hcall rfl
      rcases full nodeId hmem ⟨_, List.mem_cons_self, rfl⟩ i hi with ⟨_, _, untouched⟩ | put
      · exact untouched later hlater hits
      · exact hnone _ put.named.1 rfl

end Standing

section Owned

variable {hash : String → UInt64} {numVirtualNodes : Nat} {r : ConsistentHashingRing}
variable {calls : List Call} {id : String} {known : Set String}

/-- The entries of one node. -/
def owned (r : ConsistentHashingRing) (id : String) : List (UInt64 × String) :=
  r.ring.entries.filter fun e => e.2 = id

theorem virtualNode_injective (injective : known.InjOn hash)
    (hid : ∀ i < numVirtualNodes, id ++ toString i ∈ known) {i j : Nat}
    (hi : i < numVirtualNodes) (hj : j < numVirtualNodes)
    (heq : virtualNode hash id i = virtualNode hash id j) : i = j := by
  have hname : id ++ toString i = id ++ toString j := injective (hid i hi) (hid j hj) heq
  have hdigits : Nat.toDigits 10 i = Nat.toDigits 10 j := by
    rw [← Nat.toList_repr, ← Nat.toList_repr]
    exact congrArg String.toList ((String.append_right_inj id).mp hname)
  rw [← Nat.ofDigitChars_ten_toDigits (n := i), hdigits, Nat.ofDigitChars_ten_toDigits]

theorem nodup_entries (m : SortedMap UInt64 String) : m.entries.Nodup :=
  m.sorted.imp fun hlt heq => absurd (congrArg Prod.fst heq) hlt.ne

theorem eq_of_mem_entries {m : SortedMap UInt64 String} {p : UInt64} {id id' : String}
    (h : (p, id) ∈ m.entries) (h' : (p, id') ∈ m.entries) : id = id' := by
  have positions : (m.entries.map Prod.fst).Nodup := by
    rw [List.Nodup, List.pairwise_map]
    exact m.sorted.imp fun hlt => hlt.ne
  exact congrArg Prod.snd (List.inj_on_of_nodup_map positions h h' rfl)

/-- A node with no entries but its virtual nodes has all of them exactly if it has as
many as there are. -/
theorem length_owned_iff (injective : known.InjOn hash)
    (hid : ∀ i < numVirtualNodes, id ++ toString i ∈ known)
    (hits : ∀ e ∈ owned r id, Hits hash numVirtualNodes id e.1) :
    (owned r id).length = numVirtualNodes ↔
      ∀ i < numVirtualNodes, (virtualNode hash id i, id) ∈ r.ring.entries := by
  have nodup : (owned r id).Nodup := (nodup_entries r.ring).filter _
  have nodup' : ((List.range numVirtualNodes).map
      fun i => (virtualNode hash id i, id)).Nodup := by
    refine (List.nodup_range).map_on fun i hi j hj heq => ?_
    exact virtualNode_injective injective hid (List.mem_range.mp hi) (List.mem_range.mp hj)
      (congrArg Prod.fst heq)
  have inside : owned r id ⊆
      (List.range numVirtualNodes).map fun i => (virtualNode hash id i, id) := by
    intro e he
    obtain ⟨i, hi, hp⟩ := hits e he
    have hid' : e.2 = id := by simpa using (List.mem_filter.mp he).2
    exact List.mem_map.mpr ⟨i, List.mem_range.mpr hi, Prod.ext hp.symm hid'.symm⟩
  constructor
  · intro hlength i hi
    have perm := (nodup.subperm inside).perm_of_length_le (by simp [hlength])
    have hmem := perm.mem_iff.mpr (List.mem_map.mpr ⟨i, List.mem_range.mpr hi, rfl⟩)
    exact (List.mem_filter.mp hmem).1
  · intro full
    have outside : (List.range numVirtualNodes).map (fun i => (virtualNode hash id i, id)) ⊆
        owned r id := by
      intro e he
      obtain ⟨i, hi, rfl⟩ := List.mem_map.mp he
      exact List.mem_filter.mpr ⟨full i (List.mem_range.mp hi), by simp⟩
    have hle := (nodup.subperm inside).length_le
    have hge := (nodup'.subperm outside).length_le
    rw [List.length_map, List.length_range] at hle hge
    omega

end Owned

section Histories

variable {hash : String → UInt64} {numVirtualNodes : Nat} {calls calls' : List Call}
variable {id : String}

theorem names_known (call : Call) (hcall : call ∈ calls) (i : Nat) (hi : i < numVirtualNodes) :
    call.nodeId ++ toString i ∈ virtualNames numVirtualNodes calls :=
  ⟨call, hcall, i, hi, rfl⟩

variable (injective : (virtualNames numVirtualNodes calls).InjOn hash)

include injective

theorem putBy_of_member (stand : LastAddsStand numVirtualNodes calls)
    (hid : id ∈ membersAfter calls ∅) {i : Nat} (hi : i < numVirtualNodes) :
    PutBy hash numVirtualNodes (virtualNode hash id i) id calls :=
  (putBy_of_lastAddsStand injective names_known stand hid).resolve_left
    (fun h => absurd h.1 (Finset.notMem_empty id)) i hi

/-- Exactly the histories whose last additions stand give every member its share. -/
theorem owned_iff_lastAddsStand :
    (∀ id ∈ membersAfter calls ∅,
      (owned (ringAfter hash calls (init numVirtualNodes)) id).length = numVirtualNodes) ↔
      LastAddsStand numVirtualNodes calls := by
  have share : ∀ id ∈ membersAfter calls ∅,
      ((owned (ringAfter hash calls (init numVirtualNodes)) id).length = numVirtualNodes ↔
        ∀ i < numVirtualNodes, PutBy hash numVirtualNodes (virtualNode hash id i) id calls) := by
    intro id hid
    have hadd : .addNode id ∈ calls :=
      (mem_membersAfter_cases hid).resolve_left fun h => absurd h.1 (Finset.notMem_empty id)
    have hnames : ∀ i < numVirtualNodes, id ++ toString i ∈ virtualNames numVirtualNodes calls :=
      names_known _ hadd
    rw [length_owned_iff injective hnames]
    · simp only [mem_ringAfter_init]
    · intro e he
      obtain ⟨hmem, howner⟩ := List.mem_filter.mp he
      obtain rfl : e.2 = id := by simpa using howner
      exact (mem_ringAfter_init.mp hmem).named.2
  constructor
  · intro full
    exact lastAddsStand_of_putBy injective names_known
      fun id (hid : id ∈ membersAfter calls ∅) _ => (share id hid).mp (full id hid)
  · intro stand id hid
    exact (share id hid).mpr fun i hi => putBy_of_member injective stand hid hi

/-- Then the ring is the one of its members. -/
theorem ringOf_of_lastAddsStand (stand : LastAddsStand numVirtualNodes calls) :
    RingOf hash (membersAfter calls ∅) (ringAfter hash calls (init numVirtualNodes)) := by
  intro p id
  rw [mem_ringAfter_init, numVirtualNodes_ringAfter, Finset.mem_coe]
  constructor
  · intro put
    exact ⟨put.mem_membersAfter ∅, put.named.2⟩
  · rintro ⟨hid, i, hi, rfl⟩
    exact putBy_of_member injective stand hid hi

/-- Removing a member takes nobody else's positions away. -/
theorem kept_of_lastAddsStand (stand : LastAddsStand numVirtualNodes calls)
    (hid : id ∈ membersAfter calls ∅) {e : UInt64 × String}
    (he : e ∈ (ringAfter hash calls (init numVirtualNodes)).ring.entries) (hne : e.2 ≠ id) :
    e ∈ ((ringAfter hash calls (init numVirtualNodes)).removeNode hash id).ring.entries := by
  refine mem_removeNode.mpr ⟨he, fun i hi hp => hne ?_⟩
  have ring := ringOf_of_lastAddsStand injective stand
  have mine := (ring (virtualNode hash id i) id).mpr ⟨Finset.mem_coe.mpr hid, i, hi, rfl⟩
  exact eq_of_mem_entries (p := virtualNode hash id i) (hp ▸ he) mine

/-- Two such histories with the same members and as many additions leave one ring. -/
theorem ringAfter_eq (injective' : (virtualNames numVirtualNodes calls').InjOn hash)
    (stand : LastAddsStand numVirtualNodes calls) (stand' : LastAddsStand numVirtualNodes calls')
    (same : membersAfter calls ∅ = membersAfter calls' ∅)
    (count : (ringAfter hash calls (init numVirtualNodes)).nodeCount =
      (ringAfter hash calls' (init numVirtualNodes)).nodeCount) :
    ringAfter hash calls (init numVirtualNodes) = ringAfter hash calls' (init numVirtualNodes) := by
  have ring := ringOf_of_lastAddsStand injective stand
  have ring' := ringOf_of_lastAddsStand injective' stand'
  rw [← same] at ring'
  have hvirtual : (ringAfter hash calls (init numVirtualNodes)).numVirtualNodes =
      (ringAfter hash calls' (init numVirtualNodes)).numVirtualNodes :=
    (numVirtualNodes_ringAfter calls _).trans (numVirtualNodes_ringAfter calls' _).symm
  have hring := ring.ring_eq ring' hvirtual
  cases h : ringAfter hash calls (init numVirtualNodes)
  cases h' : ringAfter hash calls' (init numVirtualNodes)
  rw [h, h'] at hring count hvirtual
  exact congr (congr (congrArg ConsistentHashingRing.mk hvirtual) hring) count

omit injective in
theorem virtualNames_subset {known : List Call} (hsub : calls ⊆ known) :
    virtualNames numVirtualNodes calls ⊆ virtualNames numVirtualNodes known := by
  rintro name ⟨call, hcall, i, hi, rfl⟩
  exact ⟨call, hsub hcall, i, hi, rfl⟩

end Histories

/-- Two histories of calls on a new ring, in which only absent nodes are added and only
present ones are removed, and which end with the same members. Exactly if the last
additions stand in both, the rings are the same, every member has all its positions, and
removing a member takes nothing from the others. -/
theorem ring_of_members_iff {hash : String → UInt64} {numVirtualNodes : Nat}
    (calls calls' : List Call)
    (injective : (virtualNames numVirtualNodes (calls ++ calls')).InjOn hash)
    (valid : repeated calls ∅ = 0 ∧ unmatched calls ∅ = 0)
    (valid' : repeated calls' ∅ = 0 ∧ unmatched calls' ∅ = 0)
    (same : membersAfter calls ∅ = membersAfter calls' ∅) :
    (ringAfter hash calls (init numVirtualNodes) = ringAfter hash calls' (init numVirtualNodes) ∧
      ∀ id ∈ membersAfter calls ∅,
        (owned (ringAfter hash calls (init numVirtualNodes)) id).length = numVirtualNodes ∧
        ∀ e ∈ (ringAfter hash calls (init numVirtualNodes)).ring.entries, e.2 ≠ id →
          e ∈ ((ringAfter hash calls (init numVirtualNodes)).removeNode hash id).ring.entries) ↔
      LastAddsStand numVirtualNodes calls ∧ LastAddsStand numVirtualNodes calls' := by
  have inj := injective.mono (virtualNames_subset (List.subset_append_left calls calls'))
  have inj' := injective.mono (virtualNames_subset (List.subset_append_right calls calls'))
  constructor
  · rintro ⟨heq, shares⟩
    refine ⟨(owned_iff_lastAddsStand inj).mp fun id hid => (shares id hid).1,
      (owned_iff_lastAddsStand inj').mp fun id hid => ?_⟩
    rw [← heq]
    exact (shares id (same ▸ hid)).1
  · rintro ⟨stand, stand'⟩
    have count := nodeCount_ringAfter hash calls (init numVirtualNodes) ∅
    have count' := nodeCount_ringAfter hash calls' (init numVirtualNodes) ∅
    rw [valid.1, valid.2, same] at count
    rw [valid'.1, valid'.2] at count'
    refine ⟨ringAfter_eq inj inj' stand stand' same (by omega), fun id hid => ?_⟩
    exact ⟨(owned_iff_lastAddsStand inj).mpr stand id hid,
      fun e he hne => kept_of_lastAddsStand inj stand hid he hne⟩

section Samples

/-- The bytes of a short string, read as a number. -/
def textHash (s : String) : UInt64 :=
  s.toList.foldl (fun h c => 256 * h + UInt64.ofNat c.toNat) 0

/-- A hash that is injective on the names of some nodes, by comparing all of them. -/
theorem injOn_virtualNames {numVirtualNodes : Nat} {calls : List Call}
    (apart : ∀ call ∈ calls, ∀ i < numVirtualNodes, ∀ call' ∈ calls, ∀ i' < numVirtualNodes,
      textHash (call.nodeId ++ toString i) = textHash (call'.nodeId ++ toString i') →
        call.nodeId ++ toString i = call'.nodeId ++ toString i') :
    (virtualNames numVirtualNodes calls).InjOn textHash := by
  rintro _ ⟨call, hcall, i, hi, rfl⟩ _ ⟨call', hcall', i', hi', rfl⟩ heq
  exact apart call hcall i hi call' hcall' i' hi' heq

/-- Node C has come and gone in between. -/
theorem ring_of_members_sample :
    ringAfter textHash [.addNode "A", .addNode "C", .addNode "B", .removeNode "C"] (init 3) =
      ringAfter textHash [.addNode "B", .addNode "A"] (init 3) := by
  have injective : (virtualNames 3 ([.addNode "A", .addNode "C", .addNode "B",
      .removeNode "C"] ++ [.addNode "B", .addNode "A"])).InjOn textHash :=
    injOn_virtualNames (by decide +kernel)
  have members := ring_of_members_iff [.addNode "A", .addNode "C", .addNode "B",
    .removeNode "C"] [.addNode "B", .addNode "A"] injective (by decide) (by decide) (by decide)
  refine (members.mpr ⟨?_, ?_⟩).1
  · simp only [LastAddsStand]
    decide
  · simp only [LastAddsStand]
    decide

/-- The nodes "a" and "a1" share the name "a10", and its position belongs to whoever of
them was added last. -/
theorem rings_differ_by_order :
    (virtualNames 11 ([Call.addNode "a", .addNode "a1"] ++
        [Call.addNode "a1", .addNode "a"])).InjOn textHash ∧
      (repeated [.addNode "a", .addNode "a1"] ∅ = 0 ∧
        unmatched [.addNode "a", .addNode "a1"] ∅ = 0) ∧
      (repeated [.addNode "a1", .addNode "a"] ∅ = 0 ∧
        unmatched [.addNode "a1", .addNode "a"] ∅ = 0) ∧
      membersAfter [.addNode "a", .addNode "a1"] ∅ =
        membersAfter [.addNode "a1", .addNode "a"] ∅ ∧
      (ringAfter textHash [.addNode "a", .addNode "a1"] (init 11)).ring.entries ≠
        (ringAfter textHash [.addNode "a1", .addNode "a"] (init 11)).ring.entries ∧
      (owned (ringAfter textHash [.addNode "a", .addNode "a1"] (init 11)) "a").length = 10 := by
  refine ⟨injOn_virtualNames (by decide +kernel), by decide, by decide, by decide, ?_, ?_⟩
  · decide +kernel
  · decide +kernel

end Samples

end RingHistories
