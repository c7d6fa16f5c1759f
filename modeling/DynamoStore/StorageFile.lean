import DynamoStore.Lib.TextStreams
import DynamoStore.StateMachine

/-!
# The storage file

`put` and `remove` write the whole store through to a file: a line for each key, with
the key, the value and the pairs of the version, separated by blanks. `read_file` takes
such lines apart again at white space, and the pairs at the first "@". Nothing is
escaped, so a blank or a newline in a key or a value moves the borders that the reader
relies on.

Text is written and read as lists of characters. The order in which the hash map is
iterated is up to the environment, for each write anew.
-/

open TextStreams

/-- An order in which a write meets the keys. -/
structure Iteration where
  order : List String → List String
  perm : ∀ l, (order l).Perm l

namespace StateMachine

/-- A pair of the version, as it is printed. -/
def infoText (info : String × UInt64) : List Char :=
  info.1.toList ++ '@' :: decimal info.2.toNat

/-- The line of a key, without its end. -/
def entryText (s : StateMachine) (key : String) : List Char :=
  key.toList ++ ' ' :: ((s.valueStore.lookup key).getD "").toList ++ ' ' ::
    ((s.versionStore.lookup key).getD []).flatMap fun info => infoText info ++ [' ']

def flushToDisk (it : Iteration) (s : StateMachine) : List Char :=
  (it.order s.getAllKeys).flatMap fun key => s.entryText key ++ ['\n']

/-- A pair of the version; without an "@" the whole text is read as the number too. -/
def readInfo (text : List Char) : Option (String × UInt64) :=
  let version := match text.dropWhile fun c => c ≠ '@' with
    | [] => text
    | _ :: rest => rest
  (stoull version).map fun version => (String.ofList (text.takeWhile fun c => c ≠ '@'), version)

/-- One turn of the loop of `readFile`; missing words leave the strings empty. -/
def readLine (s : StateMachine) (line : List Char) : Option StateMachine := do
  let key := (words line)[0]?.getD []
  let value := (words line)[1]?.getD []
  let versionInfos ← ((words line).drop 2).mapM readInfo
  return s.put (String.ofList key) (String.ofList value) versionInfos

/-- The store that is read from a file, or none where `stoull` throws. -/
def readFile (text : List Char) : Option StateMachine :=
  (lines text).foldlM readLine empty

end StateMachine

/-- A store with its file, once that has been written. -/
structure Storage where
  stateMachine : StateMachine
  file : Option (List Char)

namespace Storage

def new : Storage := ⟨.empty, none⟩

inductive Call where
  | put (key value : String) (serverInfo : Version)
  | remove (key : String)

/-- A call, with the write that ends it. -/
def run (s : Storage) (call : Call × Iteration) : Storage :=
  let stateMachine := match call.1 with
    | .put key value serverInfo => s.stateMachine.put key value serverInfo
    | .remove key => s.stateMachine.remove key
  ⟨stateMachine, some (stateMachine.flushToDisk call.2)⟩

def runAll (calls : List (Call × Iteration)) : Storage := calls.foldl run new

end Storage

namespace StorageFile

open StateMachine Storage

/-- A text that reads as one word, without an "@" where a server is meant. -/
def IsServer (server : String) : Prop :=
  ∀ c ∈ server.toList, isSpace c = false ∧ c ≠ '@'

instance (server : String) : Decidable (IsServer server) :=
  List.decidableBAll (fun c => isSpace c = false ∧ c ≠ '@') server.toList

section Pairs

variable {info : String × UInt64}

theorem isWord_infoText (h : IsServer info.1) : IsWord (infoText info) := by
  refine ⟨by simp [infoText], fun c hc => ?_⟩
  rcases List.mem_append.mp hc with hc | hc
  · exact (h c hc).1
  · rcases List.mem_cons.mp hc with rfl | hc
    · decide
    · exact isSpace_of_isDigit (isDigit_of_mem_decimal hc)

/-- A printed pair reads back as the pair. -/
theorem readInfo_infoText (h : IsServer info.1) : readInfo (infoText info) = some info := by
  have before : ∀ c ∈ info.1.toList, decide (c ≠ '@') = true := by
    intro c hc
    simpa using (h c hc).2
  have at_end : ∀ rest : List Char, ('@' :: rest).takeWhile (fun c => decide (c ≠ '@')) = [] :=
    fun rest => by simp
  have server : (infoText info).takeWhile (fun c => decide (c ≠ '@')) = info.1.toList := by
    rw [infoText, List.takeWhile_append_of_pos before, at_end, List.append_nil]
  have version : (infoText info).dropWhile (fun c => decide (c ≠ '@')) =
      '@' :: decimal info.2.toNat := by
    rw [infoText, List.dropWhile_append_of_pos before, List.dropWhile_cons_of_neg (by simp)]
  rw [readInfo, server, version]
  simp [stoull_decimal]

/-- The printed pairs are words of their own. -/
theorem words_infoTexts {version : Version} (h : ∀ info ∈ version, IsServer info.1) :
    words (version.flatMap fun info => infoText info ++ [' ']) = version.map infoText := by
  induction version with
  | nil => rfl
  | cons info version ih =>
    rw [List.forall_mem_cons] at h
    rw [List.flatMap_cons, List.append_assoc, List.singleton_append, words_append _ _ (by decide),
      words_of_isWord (isWord_infoText h.1), ih h.2]
    rfl

/-- The printed pairs stay on their line. -/
theorem isNewline_of_mem_infoTexts {version : Version} (h : ∀ info ∈ version, IsServer info.1) :
    ∀ c ∈ version.flatMap (fun info => infoText info ++ [' ']), isNewline c = false := by
  intro c hc
  obtain ⟨info, hinfo, hc⟩ := List.mem_flatMap.mp hc
  rcases List.mem_append.mp hc with hc | hc
  · exact isNewline_of_not_isSpace ((isWord_infoText (h info hinfo)).2 c hc)
  · rw [List.mem_singleton.mp hc]
    rfl

theorem mapM_readInfo {version : Version} (h : ∀ info ∈ version, IsServer info.1) :
    (version.map infoText).mapM readInfo = some version := by
  induction version with
  | nil => rfl
  | cons info version ih =>
    rw [List.forall_mem_cons] at h
    rw [List.map_cons, List.mapM_cons, readInfo_infoText h.1, ih h.2]
    rfl

end Pairs

section Calls

variable {calls : List (Call × Iteration)}

/-- What holds of every entry that is put holds of every entry that is stored. -/
theorem entry_of_runAll {P : String → Data → Prop}
    (puts : ∀ call ∈ calls, ∀ key value serverInfo, call.1 = .put key value serverInfo →
      P key (value, serverInfo)) {key : String} {d : Data}
    (hd : (runAll calls).stateMachine.entry key = some d) : P key d := by
  induction calls using List.reverseRecOn generalizing key d with
  | nil => simp [runAll, Storage.new] at hd
  | append_singleton calls call ih =>
    have before : ∀ {key d}, (runAll calls).stateMachine.entry key = some d → P key d :=
      ih fun c hc => puts c (List.mem_append_left _ hc)
    rw [runAll, List.foldl_append, ← runAll, List.foldl_cons, List.foldl_nil] at hd
    obtain ⟨call, it⟩ := call
    cases call with
    | put key' value serverInfo =>
      change ((runAll calls).stateMachine.put key' value serverInfo).entry key = some d at hd
      by_cases hkey : key = key'
      · subst hkey
        rw [entry_put_self] at hd
        cases hd
        exact puts _ (List.mem_append_right _ List.mem_cons_self) key value serverInfo rfl
      · rw [entry_put_of_ne _ hkey] at hd
        exact before hd
    | remove key' =>
      change ((runAll calls).stateMachine.remove key').entry key = some d at hd
      by_cases hkey : key = key'
      · subst hkey
        rw [entry_remove_self] at hd
        cases hd
      · rw [entry_remove_of_ne _ hkey] at hd
        exact before hd

/-- After a call the file is what that call has written. -/
theorem file_of_runAll (nonempty : calls ≠ []) :
    ∃ it, (runAll calls).file = some ((runAll calls).stateMachine.flushToDisk it) := by
  obtain ⟨before, call, rfl⟩ := (List.eq_nil_or_concat' calls).resolve_left nonempty
  refine ⟨call.2, ?_⟩
  rw [runAll, List.foldl_append]
  rfl

end Calls

section Lookups

variable (s : StateMachine) {key : String}

theorem lookup_valueStore : s.valueStore.lookup key = (s.entry key).map Prod.fst := by
  cases hd : s.entry key with
  | none => exact AList.lookup_eq_none.mpr ((s.entry_eq_none_iff).mp hd)
  | some d =>
    unfold entry at hd
    split at hd
    · rename_i value version hv hw
      cases hd
      exact hv
    · cases hd

theorem lookup_versionStore : s.versionStore.lookup key = (s.entry key).map Prod.snd := by
  cases hd : s.entry key with
  | none =>
    have hkey := (s.entry_eq_none_iff).mp hd
    exact AList.lookup_eq_none.mpr fun h => hkey ((s.sameKeys key).mpr h)
  | some d =>
    unfold entry at hd
    split at hd
    · rename_i value version hv hw
      cases hd
      exact hw
    · cases hd

theorem mem_valueStore_iff : key ∈ s.valueStore ↔ ∃ d, s.entry key = some d := by
  rw [← Option.ne_none_iff_exists', ne_eq, s.entry_eq_none_iff, not_not]

theorem entryText_of_entry {d : Data} (hd : s.entry key = some d) :
    s.entryText key = key.toList ++ ' ' :: (d.1.toList ++ ' ' ::
      d.2.flatMap fun info => infoText info ++ [' ']) := by
  rw [entryText, lookup_valueStore, lookup_versionStore, hd]
  simp

end Lookups

section Restore

variable {s : StateMachine} {key : String}

/-- An entry that the file format can hold. -/
structure Plain (key : String) (d : Data) : Prop where
  key : IsWord key.toList
  value : IsWord d.1.toList
  servers : ∀ info ∈ d.2, IsServer info.1

theorem words_entryText {d : Data} (hd : s.entry key = some d) (plain : Plain key d) :
    words (s.entryText key) = key.toList :: d.1.toList :: d.2.map infoText := by
  rw [entryText_of_entry s hd, words_append _ _ (by decide), words_append _ _ (by decide),
    words_of_isWord plain.key, words_of_isWord plain.value, words_infoTexts plain.servers]
  rfl

theorem entryText_one_line {d : Data} (hd : s.entry key = some d) (plain : Plain key d) :
    (s.entryText key).splitOnP isNewline = [s.entryText key] := by
  refine List.splitOnP_eq_singleton ?_
  rw [entryText_of_entry s hd]
  simp only [List.forall_mem_append, List.forall_mem_cons]
  exact ⟨fun c hc => isNewline_of_not_isSpace (plain.key.2 c hc), rfl,
    fun c hc => isNewline_of_not_isSpace (plain.value.2 c hc), rfl,
    isNewline_of_mem_infoTexts plain.servers⟩

/-- Reading the line of an entry puts the entry. -/
theorem readLine_entryText {d : Data} (hd : s.entry key = some d) (plain : Plain key d)
    (t : StateMachine) : readLine t (s.entryText key) = some (t.put key d.1 d.2) := by
  rw [readLine, words_entryText hd plain]
  simp [mapM_readInfo plain.servers, String.ofList_toList]

/-- Reading the lines of some keys puts their entries. -/
theorem foldlM_readLine (keys : List String)
    (plain : ∀ key ∈ keys, ∃ d, s.entry key = some d ∧ Plain key d) (t : StateMachine) :
    ∃ t', (keys.map s.entryText).foldlM readLine t = some t' ∧
      ∀ key, t'.entry key = if key ∈ keys then s.entry key else t.entry key := by
  induction keys generalizing t with
  | nil => exact ⟨t, rfl, fun key => by simp⟩
  | cons first keys ih =>
    rw [List.forall_mem_cons] at plain
    obtain ⟨⟨d, hd, hplain⟩, plain⟩ := plain
    obtain ⟨t', hread, hentry⟩ := ih plain (t.put first d.1 d.2)
    refine ⟨t', ?_, fun key => ?_⟩
    · rw [List.map_cons, List.foldlM_cons, readLine_entryText hd hplain]
      exact hread
    · rw [hentry]
      by_cases hmem : key ∈ keys
      · simp [hmem]
      · by_cases hfirst : key = first
        · subst hfirst
          simp [hmem, hd]
        · simp [hmem, hfirst]

/-- A file of plain entries restores the store. -/
theorem readFile_flushToDisk (it : Iteration)
    (plain : ∀ key d, s.entry key = some d → Plain key d) :
    ∃ t, readFile (s.flushToDisk it) = some t ∧ ∀ key, t.entry key = s.entry key := by
  have members : ∀ key, key ∈ it.order s.getAllKeys ↔ ∃ d, s.entry key = some d := by
    intro key
    rw [(it.perm _).mem_iff, mem_getAllKeys]
  have hplain : ∀ key ∈ it.order s.getAllKeys, ∃ d, s.entry key = some d ∧ Plain key d := by
    intro key hkey
    obtain ⟨d, hd⟩ := (members key).mp hkey
    exact ⟨d, hd, plain key d hd⟩
  have hlines : lines (s.flushToDisk it) = (it.order s.getAllKeys).map s.entryText := by
    rw [flushToDisk, lines_flatMap, List.map_eq_flatMap]
    refine List.flatMap_congr fun key hkey => ?_
    obtain ⟨d, hd, hp⟩ := hplain key hkey
    exact entryText_one_line hd hp
  obtain ⟨t, hread, hentry⟩ := foldlM_readLine _ hplain StateMachine.empty
  refine ⟨t, by rw [readFile, hlines, hread], fun key => ?_⟩
  rw [hentry]
  split
  · rfl
  · rename_i hnot
    rw [members] at hnot
    cases hd : s.entry key with
    | none => rfl
    | some d => exact absurd ⟨d, hd⟩ hnot

end Restore

/-- A call that puts a plain entry, or removes any. -/
def PlainCall : Call → Prop
  | .put key value serverInfo => Plain key (value, serverInfo)
  | .remove _ => True

/-- After any sequence of such calls, with any iteration orders: the two maps have the
same keys, and reading the file gives both maps back. -/
theorem file_restores_store (calls : List (Call × Iteration)) (nonempty : calls ≠ [])
    (plain : ∀ call ∈ calls, PlainCall call.1) :
    (∀ key, key ∈ (runAll calls).stateMachine.valueStore ↔
      key ∈ (runAll calls).stateMachine.versionStore) ∧
    ∃ text s, (runAll calls).file = some text ∧ readFile text = some s ∧
      ∀ key, s.valueStore.lookup key = (runAll calls).stateMachine.valueStore.lookup key ∧
        s.versionStore.lookup key = (runAll calls).stateMachine.versionStore.lookup key := by
  have stored : ∀ key d, (runAll calls).stateMachine.entry key = some d → Plain key d := by
    intro key d hd
    refine entry_of_runAll (fun call hcall key value serverInfo hput => ?_) hd
    have hp := plain call hcall
    rw [hput] at hp
    exact hp
  obtain ⟨it, hfile⟩ := file_of_runAll nonempty
  obtain ⟨s, hread, hentry⟩ := readFile_flushToDisk it stored
  refine ⟨(runAll calls).stateMachine.sameKeys, _, s, hfile, hread, fun key => ⟨?_, ?_⟩⟩
  · rw [lookup_valueStore, lookup_valueStore, hentry]
  · rw [lookup_versionStore, lookup_versionStore, hentry]

section Sample

/-- The keys from the last one put to the first one. -/
def backwards : Iteration := ⟨List.reverse, List.reverse_perm⟩

/-- The largest counter, an empty clock, and a key that is removed again. -/
theorem file_restores_store_sample :
    ∃ text s, (runAll [(.put "k" "v" [("B", 18446744073709551615), ("A", 0)], backwards),
        (.put "l" "w" [], backwards), (.put "m" "x" [], backwards),
        (.remove "m", backwards)]).file = some text ∧ readFile text = some s ∧
      s.versionStore.lookup "k" = some [("B", 18446744073709551615), ("A", 0)] := by
  have plain : ∀ call ∈ [(Call.put "k" "v" [("B", 18446744073709551615), ("A", 0)], backwards),
      (.put "l" "w" [], backwards), (.put "m" "x" [], backwards), (.remove "m", backwards)],
      PlainCall call.1 := by
    simp only [List.forall_mem_cons, PlainCall]
    exact ⟨⟨by decide +kernel, by decide +kernel, by decide +kernel⟩,
      ⟨by decide +kernel, by decide +kernel, by decide +kernel⟩,
      ⟨by decide +kernel, by decide +kernel, by decide +kernel⟩, by simp⟩
  obtain ⟨_, text, s, hfile, hread, hlookup⟩ := file_restores_store _ (by simp) plain
  refine ⟨text, s, hfile, hread, ?_⟩
  rw [(hlookup "k").2]
  decide +kernel

end Sample

end StorageFile
