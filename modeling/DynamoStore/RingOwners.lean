import DynamoStore.ConsistentHashingRing

/-!
# Which nodes own a key

`owners` lists the distinct owners met on the clockwise walk from a key, in order
of first appearance. Both lookup loops are prefixes of this list, and adding or
removing a node adds it to or removes it from the list, provided no two virtual
nodes share a position.
-/

namespace RingOwners

open ClockwiseWalk MachineWords ConsistentHashingRing

/-- One turn of either loop: the position after `p`, past the top to the bottom. -/
theorem seek_succ (m : SortedMap UInt64 String) (p : UInt64) : m.seek (p + 1) = m.next p := by
  by_cases h : p + 1 = 0
  · have no_later : m.entries.find? (fun e => p < e.1) = none := by
      rw [List.find?_eq_none]
      intro e _
      simpa using le_of_succ_eq_zero h e.1
    have all : m.lowerBound 0 = m.begin := by
      unfold SortedMap.lowerBound SortedMap.begin
      cases m.entries with
      | nil => rfl
      | cons e rest => simp
    rw [h, SortedMap.seek, all, Option.or_self, SortedMap.next, no_later, Option.none_or]
  · simp only [SortedMap.seek, SortedMap.next, SortedMap.lowerBound, succ_le_iff h]

theorem nodup_walk_positions (m : SortedMap UInt64 String) (h : UInt64) :
    ((m.walk h).map Prod.fst).Nodup := by
  have positions : (m.entries.map Prod.fst).Nodup := by
    rw [List.Nodup, List.pairwise_map]
    exact m.sorted.imp fun hlt => hlt.ne
  rw [← m.halves_eq h, List.map_append] at positions
  rw [SortedMap.walk, List.map_append]
  exact List.nodup_append_comm.mp positions

/-- The distinct owners met on the walk from `h`. -/
def ownersFrom (m : SortedMap UInt64 String) (h : UInt64) : List String :=
  ((m.walk h).map Prod.snd).eraseDups

theorem nodup_ownersFrom (m : SortedMap UInt64 String) (h : UInt64) : (ownersFrom m h).Nodup :=
  nodup_eraseDups _

theorem mem_ownersFrom {m : SortedMap UInt64 String} {h : UInt64} {id : String} :
    id ∈ ownersFrom m h ↔ ∃ p, (p, id) ∈ m.entries := by
  simp [ownersFrom, m.mem_walk]

section Loops

variable {m : SortedMap UInt64 String} {h : UInt64}

/-- What a loop has collected after a part of the walk is a prefix of the owners. -/
theorem prefix_of_walked {front back : List (UInt64 × String)} (hw : m.walk h = front ++ back) :
    (front.map Prod.snd).eraseDups <+: ownersFrom m h := by
  rw [ownersFrom, hw, List.map_append, List.eraseDups_append]
  exact List.prefix_append _ _

theorem eq_take_of_prefix_of_length {l l' : List String} {n : Nat} (hp : l <+: l')
    (hlen : l.length = n) : l = l'.take n := by
  rw [List.prefix_iff_eq_take.mp hp, hlen]

theorem collect_step (front : List (UInt64 × String)) (it : UInt64 × String) :
    (if it.2 ∈ (front.map Prod.snd).eraseDups then (front.map Prod.snd).eraseDups
      else (front.map Prod.snd).eraseDups ++ [it.2]) =
      ((front ++ [it]).map Prod.snd).eraseDups := by
  rw [List.map_append, List.map_cons, List.map_nil, eraseDups_concat]
  simp only [List.mem_eraseDups]

theorem length_collect_le (front : List (UInt64 × String)) (it : UInt64 × String) :
    ((front ++ [it]).map Prod.snd).eraseDups.length ≤
      (front.map Prod.snd).eraseDups.length + 1 := by
  rw [← collect_step]
  split
  · omega
  · simp

theorem length_collect_pos (front : List (UInt64 × String)) (it : UInt64 × String) :
    0 < ((front ++ [it]).map Prod.snd).eraseDups.length := by
  rw [List.length_pos_iff]
  intro hnil
  have hmem : it.2 ∈ ((front ++ [it]).map Prod.snd).eraseDups := by simp
  rw [hnil] at hmem
  exact absurd hmem List.not_mem_nil

/-- Further positions of the walk are not where it began. -/
theorem ne_begin {front back : List (UInt64 × String)} {it it' : UInt64 × String}
    {begin : UInt64} (hw : m.walk h = front ++ it :: it' :: back)
    (hb : (m.walk h).head?.map Prod.fst = some begin) : it'.1 ≠ begin := by
  have positions := nodup_walk_positions m h
  rw [hw, List.map_append] at positions
  intro heq
  have disjoint := (List.nodup_append.mp positions).2.2
  cases front with
  | nil =>
    rw [hw] at hb
    simp only [List.nil_append, List.head?_cons, Option.map_some, Option.some.injEq] at hb
    simp [hb, heq] at positions
  | cons first front =>
    rw [hw] at hb
    simp only [List.cons_append, List.head?_cons, Option.map_some, Option.some.injEq] at hb
    exact disjoint first.1 (by simp) it'.1 (by simp) (hb.trans heq.symm)

/-- After the last position of the walk comes the one where it began. -/
theorem succ_last {front : List (UInt64 × String)} {it : UInt64 × String} {begin : UInt64}
    (hw : m.walk h = front ++ [it]) (hb : (m.walk h).head?.map Prod.fst = some begin) :
    ∃ start, m.seek (it.1 + 1) = some start ∧ start.1 = begin := by
  rw [seek_succ, m.next_of_walk_last hw]
  exact Option.map_eq_some_iff.mp hb

/-- A loop that has gone on so far has collected no more than it returns. -/
theorem length_collected_le {front : List (UInt64 × String)} (it : UInt64 × String) {n : Nat}
    (hfront : front = [] ∨ (front.map Prod.snd).eraseDups.length < n) :
    ((front ++ [it]).map Prod.snd).eraseDups.length ≤ max n 1 := by
  have hle := length_collect_le front it
  rcases hfront with rfl | hlt
  · exact hle.trans (Nat.le_max_right n 1)
  · omega

/-- The loop of `getReplicasNodes`, entered in the middle of a walk, has enough
fuel and stops with the first owners. -/
theorem replicasLoop_eq (returnReplicas : Nat) {begin : UInt64} (back : List (UInt64 × String))
    (hb : (m.walk h).head?.map Prod.fst = some begin) :
    ∀ (front : List (UInt64 × String)) (it : UInt64 × String) (fuel : Nat),
      m.walk h = front ++ it :: back → back.length < fuel →
      (front = [] ∨ (front.map Prod.snd).eraseDups.length < returnReplicas) →
      replicasLoop m returnReplicas begin fuel it (front.map Prod.snd).eraseDups =
        some ((ownersFrom m h).take (max returnReplicas 1)) := by
  induction back with
  | nil =>
    intro front it fuel hw hfuel hfront
    obtain ⟨fuel, rfl⟩ : ∃ k, fuel = k + 1 := ⟨fuel - 1, by omega⟩
    obtain ⟨start, hseek, hback⟩ := succ_last hw hb
    have hall : ((front ++ [it]).map Prod.snd).eraseDups = ownersFrom m h := by
      rw [ownersFrom, hw]
    have hlen := length_collected_le it hfront
    rw [hall] at hlen
    rw [replicasLoop]
    simp only [collect_step, hseek, hback, ne_eq, not_true_eq_false, and_false, if_false, hall]
    rw [List.take_of_length_le hlen]
  | cons it' back ih =>
    intro front it fuel hw hfuel hfront
    obtain ⟨fuel, rfl⟩ : ∃ k, fuel = k + 1 := ⟨fuel - 1, by omega⟩
    have hne : it'.1 ≠ begin := ne_begin hw hb
    have hw' : m.walk h = (front ++ [it]) ++ it' :: back := by rw [hw]; simp
    rw [replicasLoop]
    simp only [collect_step, seek_succ, m.next_of_walk hw]
    by_cases hmore : ((front ++ [it]).map Prod.snd).eraseDups.length < returnReplicas
    · rw [if_pos ⟨hmore, hne⟩]
      exact ih (front ++ [it]) it' fuel hw' (by simpa using hfuel) (Or.inr hmore)
    · rw [if_neg (fun hcond => hmore hcond.1)]
      have hlen : ((front ++ [it]).map Prod.snd).eraseDups.length = max returnReplicas 1 := by
        have hle := length_collected_le it hfront
        have hpos := length_collect_pos front it
        omega
      rw [eq_take_of_prefix_of_length (prefix_of_walked hw') hlen]

theorem mem_collected {front : List (UInt64 × String)} {it : UInt64 × String} {nodeId : String}
    (hnot : nodeId ∉ (front.map Prod.snd).eraseDups) :
    nodeId ∈ ((front ++ [it]).map Prod.snd).eraseDups ↔ it.2 = nodeId := by
  rw [List.mem_eraseDups] at hnot ⊢
  rw [List.map_append, List.mem_append, or_iff_right hnot, List.map_singleton,
    List.mem_singleton, eq_comm]

/-- The loop of `checkDataBelonging` asks for membership in the same prefix. -/
theorem belongingLoop_eq (numReplicas : Nat) {begin : UInt64} (nodeId : String)
    (back : List (UInt64 × String)) (hb : (m.walk h).head?.map Prod.fst = some begin) :
    ∀ (front : List (UInt64 × String)) (it : UInt64 × String) (fuel : Nat),
      m.walk h = front ++ it :: back → back.length < fuel →
      (front = [] ∨ (front.map Prod.snd).eraseDups.length < numReplicas) →
      nodeId ∉ (front.map Prod.snd).eraseDups →
      belongingLoop m nodeId numReplicas begin fuel it (front.map Prod.snd).eraseDups =
        some (decide (nodeId ∈ (ownersFrom m h).take (max numReplicas 1))) := by
  induction back with
  | nil =>
    intro front it fuel hw hfuel hfront hnot
    obtain ⟨fuel, rfl⟩ : ∃ k, fuel = k + 1 := ⟨fuel - 1, by omega⟩
    obtain ⟨start, hseek, hback⟩ := succ_last hw hb
    have hall : ((front ++ [it]).map Prod.snd).eraseDups = ownersFrom m h := by
      rw [ownersFrom, hw]
    have hlen := length_collected_le it hfront
    have hmem : nodeId ∈ ownersFrom m h ↔ it.2 = nodeId := hall ▸ mem_collected hnot
    rw [hall] at hlen
    rw [belongingLoop, List.take_of_length_le hlen]
    by_cases hit : it.2 = nodeId
    · rw [if_pos ⟨hit ▸ hnot, hit⟩]
      simp [hmem, hit]
    · rw [if_neg (fun hcond => hit hcond.2)]
      simp [hseek, hback, hmem, hit]
  | cons it' back ih =>
    intro front it fuel hw hfuel hfront hnot
    obtain ⟨fuel, rfl⟩ : ∃ k, fuel = k + 1 := ⟨fuel - 1, by omega⟩
    have hne : it'.1 ≠ begin := ne_begin hw hb
    have hw' : m.walk h = (front ++ [it]) ++ it' :: back := by rw [hw]; simp
    have hle := length_collected_le it hfront
    rw [belongingLoop]
    by_cases hit : it.2 = nodeId
    · rw [if_pos ⟨hit ▸ hnot, hit⟩]
      obtain ⟨tail, htail⟩ := prefix_of_walked hw'
      have htake : nodeId ∈ (ownersFrom m h).take (max numReplicas 1) := by
        rw [← htail, List.take_append, List.take_of_length_le hle]
        exact List.mem_append_left _ ((mem_collected hnot).mpr hit)
      simp [htake]
    · rw [if_neg (fun hcond => hit hcond.2)]
      have hnot' : nodeId ∉ ((front ++ [it]).map Prod.snd).eraseDups :=
        (mem_collected hnot).not.mpr hit
      simp only [collect_step, seek_succ, m.next_of_walk hw]
      by_cases hmore : ((front ++ [it]).map Prod.snd).eraseDups.length < numReplicas
      · rw [if_pos ⟨hmore, hne⟩]
        exact ih (front ++ [it]) it' fuel hw' (by simpa using hfuel) (Or.inr hmore) hnot'
      · rw [if_neg (fun hcond => hmore hcond.1)]
        have hpos := length_collect_pos front it
        have hlen : ((front ++ [it]).map Prod.snd).eraseDups.length = max numReplicas 1 := by
          omega
        rw [← eq_take_of_prefix_of_length (prefix_of_walked hw') hlen, decide_eq_false hnot']

end Loops

/-- The distinct owners of a key, in the order in which its walk meets them. -/
def owners (hash : String → UInt64) (r : ConsistentHashingRing) (key : String) : List String :=
  ownersFrom r.ring (hash key)

variable {hash : String → UInt64} {r : ConsistentHashingRing} {key : String}

theorem nodup_owners : (owners hash r key).Nodup := nodup_ownersFrom _ _

theorem mem_owners {id : String} : id ∈ owners hash r key ↔ ∃ p, (p, id) ∈ r.ring.entries :=
  mem_ownersFrom

theorem head_walk_of_seek {m : SortedMap UInt64 String} {h : UInt64} {it : UInt64 × String}
    (hs : m.seek h = some it) :
    ∃ back, m.walk h = it :: back ∧ back.length < m.entries.length := by
  rw [m.seek_eq_head_walk, List.head?_eq_some_iff] at hs
  obtain ⟨back, hback⟩ := hs
  refine ⟨back, hback, ?_⟩
  rw [← m.length_walk h, hback]
  simp

theorem ownersFrom_of_seek_none {m : SortedMap UInt64 String} {h : UInt64}
    (hs : m.seek h = none) : ownersFrom m h = [] := by
  rw [m.seek_eq_head_walk, List.head?_eq_none_iff] at hs
  rw [ownersFrom, hs]
  rfl

/-- `getReplicasNodes` never runs out of fuel and returns the first owners. -/
theorem getReplicasNodes_eq (numReplicas : Int) :
    r.getReplicasNodes hash key numReplicas =
      (owners hash r key).take (max (toSize (min r.nodeCount numReplicas)) 1) := by
  unfold getReplicasNodes
  cases hs : r.ring.seek (hash key) with
  | none => simp [owners, ownersFrom_of_seek_none hs]
  | some it =>
    obtain ⟨back, hw, hfuel⟩ := head_walk_of_seek hs
    have hb : (r.ring.walk (hash key)).head?.map Prod.fst = some it.1 := by rw [hw]; rfl
    have hloop := replicasLoop_eq (toSize (min r.nodeCount numReplicas))
      back hb [] it r.ring.entries.length hw hfuel (Or.inl rfl)
    simp only [List.map_nil, List.eraseDups_nil] at hloop
    simp only [hloop, Option.getD_some, owners]

/-- `checkDataBelonging` never runs out of fuel and asks for the first owners. -/
theorem checkDataBelonging_eq (nodeId : String) (numReplicas : Int) :
    r.checkDataBelonging hash key nodeId numReplicas =
      decide (nodeId ∈ (owners hash r key).take (max (toSize numReplicas) 1)) := by
  unfold checkDataBelonging
  cases hs : r.ring.seek (hash key) with
  | none => simp [owners, ownersFrom_of_seek_none hs]
  | some it =>
    obtain ⟨back, hw, hfuel⟩ := head_walk_of_seek hs
    have hb : (r.ring.walk (hash key)).head?.map Prod.fst = some it.1 := by rw [hw]; rfl
    have hloop := belongingLoop_eq (toSize numReplicas) nodeId
      back hb [] it r.ring.entries.length hw hfuel (Or.inl rfl) (by simp)
    simp only [List.map_nil, List.eraseDups_nil] at hloop
    simp only [hloop, Option.getD_some]
    rfl

theorem nodup_getReplicasNodes (numReplicas : Int) :
    (r.getReplicasNodes hash key numReplicas).Nodup := by
  rw [getReplicasNodes_eq]
  exact nodup_owners.take

/-- `node_count_` is the number of nodes with a position on the ring. -/
def Accurate (r : ConsistentHashingRing) : Prop :=
  r.nodeCount = (r.ring.entries.map Prod.snd).eraseDups.length

theorem length_owners : (owners hash r key).length =
    (r.ring.entries.map Prod.snd).eraseDups.length := by
  refine List.Perm.length_eq ((List.perm_ext_iff_of_nodup nodup_owners (nodup_eraseDups _)).mpr ?_)
  intro id
  simp [mem_owners]

/-- With an accurate count the number of replicas is cut off only by the ring. -/
theorem getReplicasNodes_of_accurate (accurate : Accurate r) {n : Nat} (h0 : 0 < n)
    (h : n < 2 ^ 64) : r.getReplicasNodes hash key n = (owners hash r key).take n := by
  have hcount : r.nodeCount = (owners hash r key).length := by rw [length_owners, accurate]
  have hsize : toSize (min r.nodeCount n) = min (owners hash r key).length n := by
    rw [toSize_of_nonneg (by omega) (by omega), hcount]
    omega
  rw [getReplicasNodes_eq, hsize]
  rcases Nat.le_total (owners hash r key).length n with hle | hle
  · rw [List.take_of_length_le (by omega), List.take_of_length_le hle]
  · rw [show max (min (owners hash r key).length n) 1 = n by omega]

/-- The entries of a ring are the virtual nodes of `ids`. -/
def RingOf (hash : String → UInt64) (ids : Set String) (r : ConsistentHashingRing) : Prop :=
  ∀ p id, (p, id) ∈ r.ring.entries ↔
    id ∈ ids ∧ ∃ i < r.numVirtualNodes, p = virtualNode hash id i

/-- No two virtual nodes of `ids` hash to one position. -/
def NoCollision (hash : String → UInt64) (numVirtualNodes : Nat) (ids : Set String) : Prop :=
  ∀ id ∈ ids, ∀ id' ∈ ids, ∀ i < numVirtualNodes, ∀ i' < numVirtualNodes,
    virtualNode hash id i = virtualNode hash id' i' → id = id' ∧ i = i'

theorem NoCollision.subset {numVirtualNodes : Nat} {ids ids' : Set String}
    (h : NoCollision hash numVirtualNodes ids) (hsub : ids' ⊆ ids) :
    NoCollision hash numVirtualNodes ids' :=
  fun id hid id' hid' => h id (hsub hid) id' (hsub hid')

section Membership

variable {ids : Set String} {x : String}

theorem mem_addNode {p : UInt64} {id : String} :
    (p, id) ∈ (r.addNode hash x).ring.entries ↔
      (id = x ∧ ∃ i < r.numVirtualNodes, p = virtualNode hash x i) ∨
        ((p, id) ∈ r.ring.entries ∧ ∀ i < r.numVirtualNodes, p ≠ virtualNode hash x i) := by
  rw [addNode, SortedMap.mem_foldl_insert]
  simp only [List.mem_range]

theorem mem_removeNode {p : UInt64} {id : String} :
    (p, id) ∈ (r.removeNode hash x).ring.entries ↔
      (p, id) ∈ r.ring.entries ∧ ∀ i < r.numVirtualNodes, p ≠ virtualNode hash x i := by
  rw [removeNode, SortedMap.mem_foldl_erase]
  simp only [List.mem_range]

variable (hash) in
theorem ringOf_init (numVirtualNodes : Nat) : RingOf hash ∅ (init numVirtualNodes) := by
  intro p id
  simp [init, SortedMap.empty]

theorem ringOf_addNode (ring : RingOf hash ids r)
    (apart : NoCollision hash r.numVirtualNodes (insert x ids)) :
    RingOf hash (insert x ids) (r.addNode hash x) := by
  intro p id
  rw [mem_addNode, ring p id]
  constructor
  · rintro (⟨rfl, hp⟩ | ⟨⟨hid, hp⟩, _⟩)
    · exact ⟨Set.mem_insert _ _, hp⟩
    · exact ⟨Set.mem_insert_of_mem _ hid, hp⟩
  · rintro ⟨hid, i, hi, rfl⟩
    by_cases hx : id = x
    · subst hx
      exact Or.inl ⟨rfl, i, hi, rfl⟩
    · have hmem : id ∈ ids := (Set.mem_insert_iff.mp hid).resolve_left hx
      refine Or.inr ⟨⟨hmem, i, hi, rfl⟩, ?_⟩
      intro i' hi' heq
      exact hx (apart id hid x (Set.mem_insert _ _) i hi i' hi' heq).1

theorem ringOf_foldl_addNode (l : List String) {ids : Set String} {r : ConsistentHashingRing}
    (ring : RingOf hash ids r) (apart : NoCollision hash r.numVirtualNodes (ids ∪ {n | n ∈ l})) :
    RingOf hash (ids ∪ {n | n ∈ l}) (l.foldl (fun r n => r.addNode hash n) r) := by
  induction l generalizing ids r with
  | nil => simpa using ring
  | cons n l ih =>
    have hids : ids ∪ {m | m ∈ n :: l} = insert n ids ∪ {m | m ∈ l} := by
      ext m
      simp only [Set.mem_union, Set.mem_ofPred_eq, List.mem_cons, Set.mem_insert_iff]
      tauto
    rw [hids] at apart ⊢
    rw [List.foldl_cons]
    exact ih (ringOf_addNode ring (apart.subset Set.subset_union_left)) apart

theorem numVirtualNodes_foldl_addNode (l : List String) (r : ConsistentHashingRing) :
    (l.foldl (fun r n => r.addNode hash n) r).numVirtualNodes = r.numVirtualNodes := by
  induction l generalizing r with
  | nil => rfl
  | cons n l ih => exact ih (r.addNode hash n)

theorem ringOf_removeNode (ring : RingOf hash ids r)
    (apart : NoCollision hash r.numVirtualNodes (insert x ids)) :
    RingOf hash (ids \ {x}) (r.removeNode hash x) := by
  intro p id
  rw [mem_removeNode, ring p id]
  constructor
  · rintro ⟨⟨hid, i, hi, rfl⟩, hne⟩
    refine ⟨⟨hid, ?_⟩, i, hi, rfl⟩
    rintro rfl
    exact hne i hi rfl
  · rintro ⟨⟨hid, hx⟩, i, hi, rfl⟩
    refine ⟨⟨hid, i, hi, rfl⟩, ?_⟩
    intro i' hi' heq
    exact hx (apart id (Set.mem_insert_of_mem _ hid) x (Set.mem_insert _ _) i hi i' hi' heq).1

/-- Rings of one size over the same nodes have the same entries. -/
theorem RingOf.ring_eq {r' : ConsistentHashingRing} (ring : RingOf hash ids r)
    (ring' : RingOf hash ids r') (hnv : r.numVirtualNodes = r'.numVirtualNodes) :
    r.ring = r'.ring := by
  have entries : r.ring.entries = r'.ring.entries := by
    refine SortedMap.entries_eq_of_mem_iff r.ring.sorted r'.ring.sorted ?_
    rintro ⟨p, id⟩
    rw [ring p id, ring' p id, hnv]
  cases hr : r.ring
  cases hr' : r'.ring
  rw [hr, hr'] at entries
  cases entries
  rfl

theorem RingOf.mem_owners (ring : RingOf hash ids r) (some_virtual : 0 < r.numVirtualNodes)
    {id : String} : id ∈ owners hash r key ↔ id ∈ ids := by
  rw [RingOwners.mem_owners]
  constructor
  · rintro ⟨p, hp⟩
    exact ((ring p id).mp hp).1
  · intro hid
    exact ⟨_, (ring _ id).mpr ⟨hid, 0, some_virtual, rfl⟩⟩

/-- Taking a node off the ring takes it off every list of owners. -/
theorem owners_removeNode (ring : RingOf hash ids r)
    (apart : NoCollision hash r.numVirtualNodes (insert x ids)) :
    owners hash (r.removeNode hash x) key = (owners hash r key).filter fun id => id ≠ x := by
  have entries : (r.removeNode hash x).ring.entries =
      r.ring.entries.filter fun e => e.2 ≠ x := by
    refine SortedMap.entries_eq_of_mem_iff (SortedMap.sorted _) (r.ring.sorted.filter _) ?_
    rintro ⟨p, id⟩
    rw [ringOf_removeNode ring apart p id, List.mem_filter, ring p id]
    simp only [Set.mem_sdiff, Set.mem_singleton_iff, decide_eq_true_eq, removeNode]
    tauto
  rw [owners, owners, ownersFrom, ownersFrom, ← eraseDups_filter,
    SortedMap.walk_of_entries_filter _ _ _ entries, List.filter_map]
  rfl

/-- A new node is put into the lists of owners; the others keep their order. -/
theorem owners_addNode (ring : RingOf hash ids r)
    (apart : NoCollision hash r.numVirtualNodes (insert x ids)) (fresh : x ∉ ids) :
    owners hash r key = (owners hash (r.addNode hash x) key).filter fun id => id ≠ x := by
  have added := ringOf_addNode ring apart
  have apart' : NoCollision hash (r.addNode hash x).numVirtualNodes
      (insert x (insert x ids)) := by
    rw [Set.insert_idem]
    exact apart
  have back := ringOf_removeNode added apart'
  rw [Set.insert_sdiff_self_of_notMem fresh] at back
  rw [← owners_removeNode added apart', owners, owners, ring.ring_eq back rfl]

end Membership

end RingOwners
