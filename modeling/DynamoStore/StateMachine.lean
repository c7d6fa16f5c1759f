import DynamoStore.Lib.VectorClocks
import DynamoStore.MachineWords
import Mathlib.Data.List.AList

/-!
# The local store of a node

`StateMachine` keeps one value and one version vector for each key. The two
hash maps are always written together, which is a field of the structure.
The comparison of versions is translated with its loops and early returns; what
its verdicts mean is proved in `DynamoStore.ConflictVerdict`.

The file that `put` and `remove` write through to is not part of the node state
here: no request handler reads it back. It is modelled in `DynamoStore.StorageFile`.
-/

/-- A `std::unordered_map` with string keys. The order of the entries carries no
meaning: code that iterates asks the environment for the order. -/
abbrev Map (β : Type) := AList fun _ : String => β

theorem Map.mem_foldl_insert {β : Type} (keys : List String) (b : β) (m : Map β) {key : String} :
    key ∈ keys.foldl (fun m key => m.insert key b) m ↔ key ∈ keys ∨ key ∈ m := by
  induction keys generalizing m with
  | nil => simp
  | cons first keys ih =>
    rw [List.foldl_cons, ih, AList.mem_insert, List.mem_cons]
    tauto

/-- Pairs of a server name and its counter. -/
abbrev Version := List (String × UInt64)

abbrev Data := String × Version

structure StateMachine where
  valueStore : Map String
  versionStore : Map Version
  sameKeys : ∀ key, key ∈ valueStore ↔ key ∈ versionStore

namespace StateMachine

def noValue : String := "__NO_VALUE_"

def empty : StateMachine where
  valueStore := ∅
  versionStore := ∅
  sameKeys := by simp

def put (s : StateMachine) (key value : String) (serverInfo : Version) : StateMachine where
  valueStore := s.valueStore.insert key value
  versionStore := s.versionStore.insert key serverInfo
  sameKeys := by simp [s.sameKeys]

def remove (s : StateMachine) (key : String) : StateMachine where
  valueStore := s.valueStore.erase key
  versionStore := s.versionStore.erase key
  sameKeys := by simp [AList.mem_erase, s.sameKeys]

def getValue (s : StateMachine) (key : String) : String :=
  (s.valueStore.lookup key).getD noValue

def getVersion (s : StateMachine) (key : String) : Version :=
  (s.versionStore.lookup key).getD []

def getAllKeys (s : StateMachine) : List String := s.valueStore.keys

/-- One round of the inner comparison loop; `.error` is an early return. -/
def comparePair (incomingSet : List String) (incoming existing : String × UInt64)
    (res : Int) : Except Int Int := do
  if existing.1 ∉ incomingSet then throw 2
  let res ← if incoming.1 = existing.1 ∧ incoming.2 < existing.2 then
      if res = 1 then throw 2 else pure (-1)
    else pure res
  if incoming.1 = existing.1 ∧ existing.2 < incoming.2 then
    if res = -1 then throw 2 else pure 1
  else pure res

/-- 2: conflict, 1: incoming is the latest, 0: the same, -1: incoming is earlier. -/
def checkConflictVersion (incomingVector existingVector : Version) : Int :=
  if existingVector.length = 0 then 1
  else if incomingVector.length = 0 then -1
  else
    let incomingSet := incomingVector.map Prod.fst
    let existingSet := existingVector.map Prod.fst
    let loops := incomingVector.foldlM (fun res incoming =>
      existingVector.foldlM (fun res existing =>
        comparePair incomingSet incoming existing res) res) (0 : Int)
    match loops with
    | .error res => res
    | .ok res =>
      if res = 0 then
        if incomingSet.any (fun server => server ∉ existingSet) then 1 else res
      else res

def removeDuplicateData (versionVectors : List Data) : List Data :=
  versionVectors.foldl (fun uniqueVectors checkVector =>
    if uniqueVectors.any (fun uniqueVector =>
        checkVector.1 = uniqueVector.1 ∧ checkVector.2 = uniqueVector.2)
    then uniqueVectors else uniqueVectors ++ [checkVector]) []

/-- Entries are compared by position, so an entry is never compared with itself. -/
def removeUnconflictData (originalVectors : List Data) : List Data :=
  let indexed := originalVectors.zipIdx
  (indexed.filter fun x =>
    !indexed.any fun y => x.2 ≠ y.2 ∧ checkConflictVersion x.1.2 y.1.2 < 0).map Prod.fst

def getLatestData (originalVectors : List Data) : List Data :=
  removeUnconflictData (removeDuplicateData originalVectors)

def updateVersion (originalVersion : Version) (serverName : String) : Version :=
  let newVersion := originalVersion.map fun versionPair =>
    if versionPair.1 = serverName then (versionPair.1, versionPair.2 + 1) else versionPair
  if originalVersion.any (fun versionPair => versionPair.1 = serverName) then newVersion
  else newVersion ++ [(serverName, 1)]

/-- The merge loop over all pairs of all versions. -/
def mergeVersions (conflictVersions : List Data) : Map UInt64 :=
  (conflictVersions.flatMap Prod.snd).foldl (fun mappingVersion versionPair =>
    match mappingVersion.lookup versionPair.1 with
    | none => mappingVersion.insert versionPair.1 versionPair.2
    | some version => mappingVersion.insert versionPair.1 (max version versionPair.2)) ∅

/-- `order` is the iteration order of the set of servers. -/
def reconcileVersion (order : List String → List String) (conflictVersions : List Data) :
    Version :=
  let mappingVersion := mergeVersions conflictVersions
  (order mappingVersion.keys).map fun server =>
    (server, (mappingVersion.lookup server).getD 0)

/-- The entry stored under a key, if there is one. -/
def entry (s : StateMachine) (key : String) : Option Data :=
  match s.valueStore.lookup key, s.versionStore.lookup key with
  | some value, some version => some (value, version)
  | _, _ => none

/-- What a read of a key reports; a missing key has a placeholder. -/
def readData (s : StateMachine) (key : String) : Data := (s.getValue key, s.getVersion key)

section Entries

variable (s : StateMachine) {key key' : String}

theorem entry_eq_none_iff : s.entry key = none ↔ key ∉ s.valueStore := by
  have hv := AList.lookup_eq_none (a := key) (s := s.valueStore)
  have hw := AList.lookup_eq_none (a := key) (s := s.versionStore)
  rw [← s.sameKeys] at hw
  by_cases hk : key ∈ s.valueStore
  · obtain ⟨value, hvalue⟩ := Option.ne_none_iff_exists'.mp (fun h => (hv.mp h) hk)
    obtain ⟨version, hversion⟩ := Option.ne_none_iff_exists'.mp (fun h => (hw.mp h) hk)
    simp [entry, hvalue, hversion, hk]
  · simp [entry, hv.mpr hk, hk]

/-- The two reads of a key come from its entry. -/
theorem readData_eq : s.readData key = (s.entry key).getD (noValue, []) := by
  cases he : s.entry key with
  | none =>
    have hk := (s.entry_eq_none_iff).mp he
    have hw : key ∉ s.versionStore := fun h => hk ((s.sameKeys key).mpr h)
    simp [readData, getValue, getVersion, AList.lookup_eq_none.mpr hk,
      AList.lookup_eq_none.mpr hw]
  | some d =>
    unfold entry at he
    split at he
    · rename_i value version hv hw
      cases he
      simp [readData, getValue, getVersion, hv, hw]
    · cases he

theorem getVersion_eq : s.getVersion key = ((s.entry key).getD (noValue, [])).2 :=
  congrArg Prod.snd s.readData_eq

theorem getValue_eq : s.getValue key = ((s.entry key).getD (noValue, [])).1 :=
  congrArg Prod.fst s.readData_eq

@[simp] theorem entry_empty : empty.entry key = none := rfl

@[simp] theorem entry_put_self (value : String) (version : Version) :
    (s.put key value version).entry key = some (value, version) := by
  simp [entry, put]

@[simp] theorem entry_put_of_ne (h : key' ≠ key) (value : String) (version : Version) :
    (s.put key value version).entry key' = s.entry key' := by
  simp [entry, put, AList.lookup_insert_ne h]

@[simp] theorem entry_remove_self : (s.remove key).entry key = none := by
  simp [entry, remove]

@[simp] theorem entry_remove_of_ne (h : key' ≠ key) :
    (s.remove key).entry key' = s.entry key' := by
  simp [entry, remove, AList.lookup_erase_ne h]

theorem mem_getAllKeys : key ∈ s.getAllKeys ↔ ∃ d, s.entry key = some d := by
  rw [← Option.ne_none_iff_exists', ne_eq, s.entry_eq_none_iff, not_not]
  exact AList.mem_keys.symm

theorem nodup_getAllKeys : s.getAllKeys.Nodup := AList.keys_nodup _

end Entries

section Stamps

open VectorClocks

theorem names_updateVersion (version : Version) (server : String) :
    (updateVersion version server).map Prod.fst =
      if server ∈ version.map Prod.fst then version.map Prod.fst
      else version.map Prod.fst ++ [server] := by
  have kept : (version.map fun versionPair => if versionPair.1 = server then
      (versionPair.1, versionPair.2 + 1) else versionPair).map Prod.fst =
      version.map Prod.fst := by
    rw [List.map_map]
    apply List.map_congr_left
    intro pair _
    by_cases h : pair.1 = server
    · simp [h]
    · simp [h]
  have known : version.any (fun versionPair => versionPair.1 = server) = true ↔
      server ∈ version.map Prod.fst := by
    simp
  by_cases h : server ∈ version.map Prod.fst
  · rw [if_pos h, updateVersion, if_pos (known.mpr h), kept]
  · rw [if_neg h, updateVersion, if_neg (fun hk => h (known.mp hk)), List.map_append, kept]
    rfl

theorem distinct_updateVersion {version : Version} (distinct : Distinct version)
    (server : String) : Distinct (updateVersion version server) := by
  unfold Distinct
  rw [names_updateVersion]
  split
  · exact distinct
  · rename_i h
    exact List.nodup_append.mpr ⟨distinct, List.nodup_singleton server, by
      intro a ha b hb
      rw [List.mem_singleton.mp hb]
      exact fun hab => h (hab ▸ ha)⟩

theorem updateVersion_ne_nil (version : Version) (server : String) :
    updateVersion version server ≠ [] := by
  intro h
  have names := names_updateVersion version server
  rw [h] at names
  split at names
  · rename_i hmem
    rw [← names] at hmem
    exact absurd hmem List.not_mem_nil
  · exact absurd names.symm (by simp)

end Stamps

end StateMachine
