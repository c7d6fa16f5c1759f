import DynamoStore.RingOwners

/-!
# Replica lists as clockwise walks

On a ring that counts its nodes correctly, `getReplicasNodes` reads the first owners
off the walk from a key, and `checkDataBelonging` asks for membership in them. A node
that comes or goes changes such a list in one place. Nothing is assumed of the hash
function; only the positions of the node that comes have to be free.
-/

namespace ReplicaWalk

open ClockwiseWalk MachineWords ConsistentHashingRing RingOwners

variable {hash : String → UInt64} {r : ConsistentHashingRing} {key x : String}

section Walk

theorem seek_of_ne_nil {m : SortedMap UInt64 String} (nonempty : m.entries ≠ []) (h : UInt64) :
    ∃ it, m.seek h = some it := by
  rw [← Option.ne_none_iff_exists', m.seek_eq_head_walk, ne_eq, List.head?_eq_none_iff]
  intro hnil
  have hlength := m.length_walk h
  rw [hnil, List.length_nil] at hlength
  exact nonempty (List.length_eq_zero_iff.mp hlength.symm)

/-- From the first position on, the loop stops with the first owners, whatever the fuel. -/
theorem replicasLoop_of_seek {m : SortedMap UInt64 String} {h : UInt64} {it : UInt64 × String}
    (hs : m.seek h = some it) (returnReplicas : Nat) {fuel : Nat}
    (hfuel : m.entries.length ≤ fuel) :
    replicasLoop m returnReplicas it.1 fuel it [] =
      some ((ownersFrom m h).take (max returnReplicas 1)) := by
  obtain ⟨back, hw, hback⟩ := head_walk_of_seek hs
  have hb : (m.walk h).head?.map Prod.fst = some it.1 := by rw [hw]; rfl
  have hloop := replicasLoop_eq returnReplicas back hb [] it fuel hw
    (Nat.lt_of_lt_of_le hback hfuel) (Or.inl rfl)
  simpa only [List.map_nil, List.eraseDups_nil] using hloop

theorem head_owners {it : UInt64 × String} (hs : r.ring.seek (hash key) = some it) :
    (owners hash r key).head? = some it.2 := by
  obtain ⟨back, hw, _⟩ := head_walk_of_seek hs
  rw [owners, ownersFrom, hw, List.map_cons, List.eraseDups_cons, List.head?_cons]

theorem getNode_of_seek {it : UInt64 × String} (hs : r.ring.seek (hash key) = some it) :
    r.getNode hash key = it.2 := by
  rw [getNode, hs]

theorem take_min_length {l : List String} (n : Nat) : l.take (min n l.length) = l.take n := by
  rcases Nat.le_total n l.length with hle | hle
  · rw [Nat.min_eq_left hle]
  · rw [Nat.min_eq_right hle, List.take_length, List.take_of_length_le hle]

/-- The loop of `getReplicasNodes` ends, and its list is read off the walk: `n` ranges
over more than the positive values of an `int`. -/
theorem getReplicasNodes_eq_walk (hash : String → UInt64) (r : ConsistentHashingRing)
    (key : String) (n : Nat) (nonempty : r.ring.entries ≠ []) (accurate : Accurate r)
    (h0 : 1 ≤ n) (h : n < 2 ^ 64) :
    (∃ it, r.ring.seek (hash key) = some it ∧ ∀ fuel, r.ring.entries.length ≤ fuel →
      replicasLoop r.ring (toSize (min r.nodeCount n)) it.1 fuel it [] =
        some (r.getReplicasNodes hash key n)) ∧
      r.getReplicasNodes hash key n =
        ((r.ring.walk (hash key)).map Prod.snd).eraseDups.take
          (min n (r.ring.entries.map Prod.snd).eraseDups.length) ∧
      (r.getReplicasNodes hash key n).Nodup ∧
      (r.getReplicasNodes hash key n).head? = some (r.getNode hash key) ∧
      ∀ m : Nat, 1 ≤ m → m ≤ n →
        r.getReplicasNodes hash key m <+: r.getReplicasNodes hash key n := by
  obtain ⟨it, hs⟩ := seek_of_ne_nil nonempty (hash key)
  refine ⟨⟨it, hs, fun fuel hfuel => ?_⟩, ?_, nodup_getReplicasNodes _, ?_, ?_⟩
  · rw [replicasLoop_of_seek hs _ hfuel, getReplicasNodes_eq]
    rfl
  · have hlength : (owners hash r key).length = _ := length_owners
    rw [getReplicasNodes_of_accurate accurate h0 h, ← hlength, ← take_min_length n]
    rfl
  · rw [getReplicasNodes_of_accurate accurate h0 h, List.head?_take, if_neg (by omega),
      head_owners hs, getNode_of_seek hs]
  · intro m hm hmn
    rw [getReplicasNodes_of_accurate accurate h0 h,
      getReplicasNodes_of_accurate accurate hm (by omega)]
    exact List.take_prefix_take_left hmn

/-- Being among the first owners in the sense of the test and of the list is the same. -/
theorem checkDataBelonging_iff_mem (hash : String → UInt64) (r : ConsistentHashingRing)
    (key nodeId : String) (n m : Nat) (accurate : Accurate r) (h0 : 1 ≤ n) (hnm : n ≤ m)
    (h : m < 2 ^ 64) :
    r.checkDataBelonging hash key nodeId n = true ↔
      nodeId ∈ (r.getReplicasNodes hash key m).take n := by
  rw [checkDataBelonging_eq, decide_eq_true_eq,
    getReplicasNodes_of_accurate accurate (by omega) h, List.take_take, Nat.min_eq_left hnm,
    toSize_of_nonneg (by omega) (by omega), Int.toNat_natCast, Nat.max_eq_left h0]

end Walk

section Newcomer

variable (off : ∀ p, (p, x) ∉ r.ring.entries)
variable (unused : ∀ i < r.numVirtualNodes, ∀ id, (virtualNode hash x i, id) ∉ r.ring.entries)

include off unused

theorem entries_eq_filter_addNode :
    r.ring.entries = (r.addNode hash x).ring.entries.filter fun e => e.2 ≠ x := by
  refine SortedMap.entries_eq_of_mem_iff r.ring.sorted ((SortedMap.sorted _).filter _) ?_
  rintro ⟨p, id⟩
  rw [List.mem_filter, mem_addNode, decide_eq_true_eq]
  constructor
  · intro he
    have hne : id ≠ x := by
      rintro rfl
      exact off p he
    refine ⟨Or.inr ⟨he, fun i hi hp => ?_⟩, hne⟩
    exact unused i hi id (hp ▸ he)
  · rintro ⟨⟨rfl, _⟩ | ⟨he, _⟩, hne⟩
    · exact absurd rfl hne
    · exact he

/-- A node on free positions is put into the list of owners. -/
theorem owners_of_unused :
    owners hash r key = (owners hash (r.addNode hash x) key).filter fun id => id ≠ x := by
  rw [owners, owners, ownersFrom, ownersFrom, ← eraseDups_filter,
    SortedMap.walk_of_entries_filter _ _ _ (entries_eq_filter_addNode off unused),
    List.filter_map]
  rfl

omit off in
theorem removeNode_addNode : (r.addNode hash x).removeNode hash x = r := by
  have entries : ((r.addNode hash x).removeNode hash x).ring.entries = r.ring.entries := by
    refine SortedMap.entries_eq_of_mem_iff (SortedMap.sorted _) r.ring.sorted ?_
    rintro ⟨p, id⟩
    rw [mem_removeNode, mem_addNode]
    constructor
    · rintro ⟨⟨_, i, hi, hp⟩ | ⟨he, _⟩, hnot⟩
      · exact absurd hp (hnot i hi)
      · exact he
    · intro he
      have hnot : ∀ i < r.numVirtualNodes, p ≠ virtualNode hash x i :=
        fun i hi hp => unused i hi id (hp ▸ he)
      exact ⟨Or.inr ⟨he, hnot⟩, hnot⟩
  have ring : ((r.addNode hash x).removeNode hash x).ring = r.ring := by
    cases hr : ((r.addNode hash x).removeNode hash x).ring
    cases hr' : r.ring
    rw [hr, hr'] at entries
    cases entries
    rfl
  have count : ((r.addNode hash x).removeNode hash x).nodeCount = r.nodeCount := by
    change r.nodeCount + 1 - 1 = r.nodeCount
    omega
  calc (r.addNode hash x).removeNode hash x
      = ⟨r.numVirtualNodes, ((r.addNode hash x).removeNode hash x).ring,
          ((r.addNode hash x).removeNode hash x).nodeCount⟩ := rfl
    _ = r := by rw [ring, count]

theorem accurate_addNode (some_virtual : 1 ≤ r.numVirtualNodes) (accurate : Accurate r) :
    Accurate (r.addNode hash x) := by
  have hx : x ∈ owners hash (r.addNode hash x) "" := by
    rw [mem_owners]
    exact ⟨virtualNode hash x 0, mem_addNode.mpr (Or.inl ⟨rfl, 0, some_virtual, rfl⟩)⟩
  have hlength : (owners hash r "").length + 1 =
      (owners hash (r.addNode hash x) "").length := by
    have herase : owners hash r "" = (owners hash (r.addNode hash x) "").erase x := by
      rw [owners_of_unused off unused, nodup_owners.erase_eq_filter]
      refine List.filter_congr fun id _ => ?_
      by_cases hid : id = x
      · simp [hid]
      · simp [hid]
    have hpos := List.length_pos_of_mem hx
    rw [herase, List.length_erase_of_mem hx]
    omega
  have hcount : (r.addNode hash x).nodeCount = r.nodeCount + 1 := rfl
  have hbefore : (owners hash r "").length = _ := length_owners
  have hafter : (owners hash (r.addNode hash x) "").length = _ := length_owners
  rw [Accurate, hcount, accurate, ← hbefore, ← hafter, ← hlength]
  rfl

end Newcomer

/-- Deleting the newcomer from one more owner gives the owners before it came. Only the
newcomer enters a list, at most one node leaves it, and the nodes that stay keep their
order. Removing the newcomer gives the ring back, so a removal is the same read
backwards. -/
theorem newcomer_changes_one_place (hash : String → UInt64) (r : ConsistentHashingRing)
    (x key : String) (n : Nat) (accurate : Accurate r) (off : ∀ p, (p, x) ∉ r.ring.entries)
    (some_virtual : 1 ≤ r.numVirtualNodes)
    (unused : ∀ i < r.numVirtualNodes, ∀ id, (virtualNode hash x i, id) ∉ r.ring.entries)
    (h0 : 1 ≤ n) (h : n + 1 < 2 ^ 64) :
    r.getReplicasNodes hash key n =
        (((r.addNode hash x).getReplicasNodes hash key (n + 1 : Nat)).filter
          fun id => id ≠ x).take n ∧
      (∀ id ∈ (r.addNode hash x).getReplicasNodes hash key n,
        id ∉ r.getReplicasNodes hash key n → id = x) ∧
      (∀ id ∈ r.getReplicasNodes hash key n, ∀ id' ∈ r.getReplicasNodes hash key n,
        id ∉ (r.addNode hash x).getReplicasNodes hash key n →
        id' ∉ (r.addNode hash x).getReplicasNodes hash key n → id = id') ∧
      ((r.addNode hash x).getReplicasNodes hash key n).filter (fun id => id ≠ x) <+:
        r.getReplicasNodes hash key n ∧
      (r.addNode hash x).removeNode hash x = r := by
  have added := accurate_addNode off unused some_virtual accurate
  rw [getReplicasNodes_of_accurate accurate h0 (by omega),
    getReplicasNodes_of_accurate added h0 (by omega),
    getReplicasNodes_of_accurate added (by omega) h, owners_of_unused off unused]
  refine ⟨(take_filter_take_succ nodup_owners x n).symm, ?_, ?_, ?_, removeNode_addNode unused⟩
  · intro id hid hnot
    by_contra hne
    exact hnot (mem_take_filter_ne nodup_owners hne hid)
  · intro id hid id' hid' hnot hnot'
    exact newcomer_unique nodup_owners hid hnot hid' hnot'
  · refine List.prefix_take_iff.mpr ⟨(List.take_prefix _ _).filter _, ?_⟩
    calc _ ≤ ((owners hash (r.addNode hash x) key).take n).length := List.length_filter_le _ _
      _ ≤ n := List.length_take_le n _

section Samples

/-- Positions at both ends of the range, and two neighbours of one owner. -/
def edgeHash (s : String) : UInt64 :=
  if s = "A0" then 0
  else if s = "A1" then 1
  else if s = "B0" then 18446744073709551615
  else if s = "B1" then 9
  else if s = "C0" then 12
  else if s = "C1" then 5
  else 10

def edgeRing : ConsistentHashingRing := ((init 2).addNode edgeHash "A").addNode edgeHash "B"

/-- The walk from position 10 goes over the top. -/
theorem getReplicasNodes_eq_walk_sample :
    edgeRing.getReplicasNodes edgeHash "k" (2 : Nat) = ["B", "A"] ∧
      edgeRing.getReplicasNodes edgeHash "k" (1 : Nat) <+:
        edgeRing.getReplicasNodes edgeHash "k" (2 : Nat) := by
  have walk := getReplicasNodes_eq_walk edgeHash edgeRing "k" 2 (by decide +kernel)
    (by rw [Accurate]; decide +kernel) (by decide) (by decide)
  refine ⟨?_, walk.2.2.2.2 1 (by decide) (by decide)⟩
  rw [walk.2.1]
  decide +kernel

theorem checkDataBelonging_iff_mem_sample :
    edgeRing.checkDataBelonging edgeHash "k" "B" (1 : Nat) = true := by
  refine (checkDataBelonging_iff_mem edgeHash edgeRing "k" "B" 1 2
    (by rw [Accurate]; decide +kernel) (by decide) (by decide) (by decide)).mpr ?_
  decide +kernel

/-- Node C comes first on the walk from the key and takes the place of node A. -/
theorem newcomer_changes_one_place_sample :
    edgeRing.getReplicasNodes edgeHash "k" (2 : Nat) = ["B", "A"] ∧
      (edgeRing.addNode edgeHash "C").getReplicasNodes edgeHash "k" (2 : Nat) = ["C", "B"] ∧
      (edgeRing.addNode edgeHash "C").removeNode edgeHash "C" = edgeRing := by
  have off : ∀ e ∈ edgeRing.ring.entries, e.2 ≠ "C" := by decide +kernel
  have unused : ∀ i < 2, ∀ e ∈ edgeRing.ring.entries, e.1 ≠ virtualNode edgeHash "C" i := by
    decide +kernel
  have change := newcomer_changes_one_place edgeHash edgeRing "C" "k" 2
    (by rw [Accurate]; decide +kernel) (fun p he => off _ he rfl) (by decide)
    (fun i hi id he => unused i hi _ he rfl) (by decide) (by decide)
  refine ⟨?_, by decide +kernel, change.2.2.2.2⟩
  rw [change.1]
  decide +kernel

end Samples

end ReplicaWalk
