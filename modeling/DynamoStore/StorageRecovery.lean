import DynamoStore.StorageFile

/-!
# Reading back what any client has stored

Keys and values reach the store as the clients send them. What they do to the lines of
the file, and to the words of a line, decides whether `read_file` comes back with the
stored keys: white space in a key loses the key, a blank in a value makes what follows it
a pair of the version, and a newline in a value starts a line that is read as an entry.

`stoull` throws where such a pair has no number, and nothing catches it.
-/

open TextStreams StateMachine Storage

namespace StorageRecovery

open StorageFile

/-- The part of a word that is read as a number: what follows the first "@", or all. -/
def numberPart (word : List Char) : List Char :=
  if '@' ∈ word then (word.dropWhile fun c => c ≠ '@').tail else word

/-- The words of the lines that an entry takes up. The key stands in front of the first
line of the value, and the version behind the last one. -/
def lineWords (key : String) (d : Data) : List (List (List Char)) :=
  (((d.1.toList.splitOnP isNewline).map words).modifyLast (· ++ d.2.map infoText)).modifyHead
    (words key.toList ++ ·)

/-- The borders in the file fall where the reader takes them. -/
structure LinesFit (s : StateMachine) : Prop where
  keys : ∀ key d, s.entry key = some d → ∀ c ∈ key.toList, isSpace c = false
  numbers : ∀ key d, s.entry key = some d → ∀ line ∈ lineWords key d,
    ∀ word ∈ line.drop 2, (stoull (numberPart word)).isSome
  starts : ∀ key d, s.entry key = some d → ∀ line ∈ lineWords key d,
    ∃ d', s.entry (String.ofList (line.headD [])) = some d'
  blank : ∀ d, s.entry "" = some d → ∃ key d', s.entry key = some d' ∧ [] ∈ lineWords key d'

/-- Reading the file comes to its end, with an entry for each stored key and no others. -/
def Recovers (s : Storage) : Prop :=
  ∃ text t, s.file = some text ∧ readFile text = some t ∧
    ∀ key, key ∈ t.valueStore ↔ key ∈ s.stateMachine.valueStore

section Reading

theorem readInfo_isSome_iff (word : List Char) :
    (readInfo word).isSome ↔ (stoull (numberPart word)).isSome := by
  have found : '@' ∈ word ↔ (word.dropWhile fun c => c ≠ '@') ≠ [] := by
    rw [ne_eq, List.dropWhile_eq_nil_iff]
    simp
  rw [readInfo, numberPart, Option.isSome_map]
  split
  · rename_i hnone
    rw [if_neg (by rw [found, not_not]; exact hnone)]
  · rename_i hsome
    rw [if_pos (by rw [found, hsome]; exact List.cons_ne_nil _ _), hsome, List.tail_cons]

theorem mapM_readInfo_isSome_iff (l : List (List Char)) :
    (l.mapM readInfo).isSome ↔ ∀ word ∈ l, (readInfo word).isSome := by
  induction l with
  | nil => simp
  | cons word l ih =>
    rw [List.forall_mem_cons, ← ih, List.mapM_cons]
    cases readInfo word <;> cases l.mapM readInfo <;> simp

theorem readLine_isSome_iff (s : StateMachine) (line : List Char) :
    (readLine s line).isSome ↔ ∀ word ∈ (words line).drop 2, (readInfo word).isSome := by
  rw [← mapM_readInfo_isSome_iff, readLine]
  cases ((words line).drop 2).mapM readInfo <;> simp

/-- The line of a file adds the key that it begins with. -/
theorem mem_of_readLine {s t : StateMachine} {line : List Char} (h : readLine s line = some t)
    (key : String) :
    key ∈ t.valueStore ↔ key ∈ s.valueStore ∨ String.ofList ((words line).headD []) = key := by
  obtain ⟨versionInfos, -, ht⟩ := Option.bind_eq_some_iff.mp h
  cases ht
  rw [StateMachine.put, AList.mem_insert, List.headD_eq_head?_getD, List.head?_eq_getElem?]
  tauto

theorem foldlM_readLine_isSome_iff (s : StateMachine) (ls : List (List Char)) :
    (ls.foldlM readLine s).isSome ↔
      ∀ line ∈ ls, ∀ word ∈ (words line).drop 2, (readInfo word).isSome := by
  induction ls generalizing s with
  | nil => simp
  | cons line ls ih =>
    rw [List.forall_mem_cons, List.foldlM_cons, ← readLine_isSome_iff s]
    cases readLine s line with
    | none => simp
    | some t => simpa using ih t

theorem mem_of_foldlM_readLine {s t : StateMachine} {ls : List (List Char)}
    (h : ls.foldlM readLine s = some t) (key : String) :
    key ∈ t.valueStore ↔
      key ∈ s.valueStore ∨ ∃ line ∈ ls, String.ofList ((words line).headD []) = key := by
  induction ls generalizing s with
  | nil =>
    cases h
    simp
  | cons line ls ih =>
    rw [List.foldlM_cons] at h
    obtain ⟨s', hline, hrest⟩ := Option.bind_eq_some_iff.mp h
    rw [ih hrest, mem_of_readLine hline, List.exists_mem_cons_iff, or_assoc]

/-- `stoull` throws on no word of the file. -/
theorem readFile_isSome_iff (text : List Char) :
    (readFile text).isSome ↔
      ∀ line ∈ (lines text).map words, ∀ word ∈ line.drop 2,
        (stoull (numberPart word)).isSome := by
  rw [readFile, foldlM_readLine_isSome_iff, List.forall_mem_map]
  simp only [readInfo_isSome_iff]

theorem mem_of_readFile {text : List Char} {t : StateMachine} (h : readFile text = some t)
    (key : String) :
    key ∈ t.valueStore ↔
      ∃ line ∈ (lines text).map words, String.ofList (line.headD []) = key := by
  rw [mem_of_foldlM_readLine h]
  simp [StateMachine.empty]

end Reading

section Writing

variable {s : StateMachine} {key : String} {d : Data}

/-- The lines of an entry in the file, taken apart into words. -/
theorem map_words_entryText (hd : s.entry key = some d)
    (plain : ∀ c ∈ key.toList, isSpace c = false) (servers : ∀ info ∈ d.2, IsServer info.1) :
    ((s.entryText key).splitOnP isNewline).map words = lineWords key d := by
  have front : ∀ c ∈ key.toList ++ [' '], isNewline c = false := by
    rw [List.forall_mem_append, List.forall_mem_singleton]
    exact ⟨fun c hc => isNewline_of_not_isSpace (plain c hc), rfl⟩
  have back : ∀ c ∈ ' ' :: d.2.flatMap fun info => infoText info ++ [' '],
      isNewline c = false := by
    rw [List.forall_mem_cons]
    exact ⟨rfl, isNewline_of_mem_infoTexts servers⟩
  have text : s.entryText key = (key.toList ++ [' ']) ++ (d.1.toList ++ ' ' ::
      d.2.flatMap fun info => infoText info ++ [' ']) := by
    rw [entryText_of_entry s hd, List.append_assoc, List.singleton_append]
  rw [text, splitOnP_prepend front, splitOnP_append back,
    map_modifyHead (g := (words key.toList ++ ·)), map_modifyLast (g := (· ++ d.2.map infoText))]
  · rfl
  · intro line
    rw [words_append _ _ (by decide), words_infoTexts servers]
  · intro line
    rw [List.append_assoc, List.singleton_append, words_append _ _ (by decide)]

/-- The lines of the whole file, taken apart into words. -/
theorem mem_words_flushToDisk (it : Iteration)
    (plain : ∀ key d, s.entry key = some d → ∀ c ∈ key.toList, isSpace c = false)
    (servers : ∀ key d, s.entry key = some d → ∀ info ∈ d.2, IsServer info.1)
    (line : List (List Char)) :
    line ∈ (lines (s.flushToDisk it)).map words ↔
      ∃ key d, s.entry key = some d ∧ line ∈ lineWords key d := by
  have entries : ∀ key, key ∈ it.order s.getAllKeys ↔ ∃ d, s.entry key = some d := by
    intro key
    rw [(it.perm _).mem_iff, mem_getAllKeys]
  rw [flushToDisk, lines_flatMap, List.map_flatMap, List.mem_flatMap]
  constructor
  · rintro ⟨key, hkey, hline⟩
    obtain ⟨d, hd⟩ := (entries key).mp hkey
    rw [map_words_entryText hd (plain key d hd) (servers key d hd)] at hline
    exact ⟨key, d, hd, hline⟩
  · rintro ⟨key, d, hd, hline⟩
    rw [← map_words_entryText hd (plain key d hd) (servers key d hd)] at hline
    exact ⟨key, (entries key).mpr ⟨d, hd⟩, hline⟩

/-- A key that is one word begins the first line of its entry. -/
theorem exists_lineWords_headD (hkey : IsWord key.toList) :
    ∃ line ∈ lineWords key d, line.headD [] = key.toList := by
  have nonempty : ((d.1.toList.splitOnP isNewline).map words).modifyLast
      (· ++ d.2.map infoText) ≠ [] := by
    have pieces : (d.1.toList.splitOnP isNewline).map words ≠ [] := by
      simp [List.splitOnP_ne_nil]
    obtain ⟨before, last, hsplit⟩ := (List.eq_nil_or_concat' _).resolve_left pieces
    rw [hsplit, List.modifyLast_concat]
    exact List.concat_ne_nil _ _
  obtain ⟨first, rest, hfirst⟩ := List.exists_cons_of_ne_nil nonempty
  refine ⟨words key.toList ++ first, ?_, ?_⟩
  · rw [lineWords, hfirst, List.modifyHead_cons]
    exact List.mem_cons_self
  · rw [words_of_isWord hkey]
    rfl

end Writing

section Recovery

variable {s : StateMachine}

/-- Every key that is loaded is empty or one word. -/
theorem isSpace_of_mem_headD (line : List Char) :
    ∀ c ∈ (String.ofList ((words line).headD [])).toList, isSpace c = false := by
  rw [String.toList_ofList]
  cases hwords : words line with
  | nil => simp
  | cons word rest =>
    have hword : word ∈ words line := by
      rw [hwords]
      exact List.mem_cons_self
    exact (isWord_of_mem_words hword).2

theorem eq_nil_of_headD {line : List (List Char)} (hwords : ∀ word ∈ line, IsWord word)
    (h : String.ofList (line.headD []) = "") : line = [] := by
  cases line with
  | nil => rfl
  | cons word rest =>
    refine absurd ?_ (hwords word List.mem_cons_self).1
    simpa using congrArg String.toList h

/-- The lines fit where reading the file has given the stored keys. -/
theorem linesFit_of_readFile (it : Iteration)
    (servers : ∀ key d, s.entry key = some d → ∀ info ∈ d.2, IsServer info.1)
    {t : StateMachine} (hread : readFile (s.flushToDisk it) = some t)
    (hkeys : ∀ key, key ∈ t.valueStore ↔ key ∈ s.valueStore) : LinesFit s := by
  have loaded : ∀ key, key ∈ s.valueStore ↔ ∃ line ∈ (lines (s.flushToDisk it)).map words,
      String.ofList (line.headD []) = key := by
    intro key
    rw [← hkeys, mem_of_readFile hread]
  have plain : ∀ key d, s.entry key = some d → ∀ c ∈ key.toList, isSpace c = false := by
    intro key d hd
    obtain ⟨line, hline, rfl⟩ := (loaded key).mp ((mem_valueStore_iff s).mpr ⟨d, hd⟩)
    obtain ⟨text, -, rfl⟩ := List.mem_map.mp hline
    exact isSpace_of_mem_headD text
  have written := mem_words_flushToDisk it plain servers
  refine ⟨plain, fun key d hd line hline => ?_, fun key d hd line hline => ?_, fun d hd => ?_⟩
  · have accepted := (readFile_isSome_iff _).mp (Option.isSome_of_eq_some hread)
    exact accepted line ((written line).mpr ⟨key, d, hd, hline⟩)
  · exact (mem_valueStore_iff s).mp
      ((loaded _).mpr ⟨line, (written line).mpr ⟨key, d, hd, hline⟩, rfl⟩)
  · obtain ⟨line, hline, hempty⟩ := (loaded "").mp ((mem_valueStore_iff s).mpr ⟨d, hd⟩)
    obtain ⟨text, -, rfl⟩ := List.mem_map.mp hline
    rw [eq_nil_of_headD (fun word => isWord_of_mem_words) hempty, written] at hline
    exact hline

/-- Reading the file gives the stored keys where its lines fit. -/
theorem readFile_of_linesFit (it : Iteration)
    (servers : ∀ key d, s.entry key = some d → ∀ info ∈ d.2, IsServer info.1)
    (fit : LinesFit s) :
    ∃ t, readFile (s.flushToDisk it) = some t ∧
      ∀ key, key ∈ t.valueStore ↔ key ∈ s.valueStore := by
  have written := mem_words_flushToDisk it fit.keys servers
  have accepted : (readFile (s.flushToDisk it)).isSome := by
    rw [readFile_isSome_iff]
    intro line hline
    obtain ⟨key, d, hd, hline⟩ := (written line).mp hline
    exact fit.numbers key d hd line hline
  obtain ⟨t, hread⟩ := Option.isSome_iff_exists.mp accepted
  refine ⟨t, hread, fun key => ?_⟩
  rw [mem_of_readFile hread, mem_valueStore_iff]
  constructor
  · rintro ⟨line, hline, rfl⟩
    obtain ⟨key, d, hd, hline⟩ := (written line).mp hline
    exact fit.starts key d hd line hline
  · rintro ⟨d, hd⟩
    by_cases hkey : key = ""
    · subst hkey
      obtain ⟨key, d', hd', hline⟩ := fit.blank d hd
      exact ⟨[], (written []).mpr ⟨key, d', hd', hline⟩, rfl⟩
    · have word : IsWord key.toList := ⟨by simpa using hkey, fit.keys key d hd⟩
      obtain ⟨line, hline, hhead⟩ := exists_lineWords_headD (d := d) word
      refine ⟨line, (written line).mpr ⟨key, d, hd, hline⟩, ?_⟩
      rw [hhead, String.ofList_toList]

end Recovery

/-- A call whose server names can be told from their counters. -/
def NamesServers : Call → Prop
  | .put _ _ serverInfo => ∀ info ∈ serverInfo, IsServer info.1
  | .remove _ => True

/-- After any sequence of calls with any keys and values: reading the file ends with an
entry for each stored key and no others exactly where the lines fit. -/
theorem recovers_iff (calls : List (Call × Iteration)) (nonempty : calls ≠ [])
    (servers : ∀ call ∈ calls, NamesServers call.1) :
    Recovers (runAll calls) ↔ LinesFit (runAll calls).stateMachine := by
  have stored : ∀ key d, (runAll calls).stateMachine.entry key = some d →
      ∀ info ∈ d.2, IsServer info.1 := by
    intro key d hd
    refine entry_of_runAll (P := fun _ d => ∀ info ∈ d.2, IsServer info.1)
      (fun call hcall key value serverInfo hput => ?_) hd
    have hservers := servers call hcall
    rw [hput] at hservers
    exact hservers
  obtain ⟨it, hfile⟩ := file_of_runAll nonempty
  constructor
  · rintro ⟨text, t, htext, hread, hkeys⟩
    rw [hfile] at htext
    cases htext
    exact linesFit_of_readFile it stored hread hkeys
  · intro fit
    obtain ⟨t, hread, hkeys⟩ := readFile_of_linesFit it stored fit
    exact ⟨_, t, hfile, hread, hkeys⟩

section Sample

/-- A number and two further lines in a value; the blank one stands for the empty key. -/
def sampleCalls : List (Call × Iteration) :=
  [(.put "k" "v 12\n\nk" [("A", 1)], backwards), (.put "" "k" [], backwards)]

theorem recovers_iff_sample : Recovers (runAll sampleCalls) := by
  have keys : (runAll sampleCalls).stateMachine.getAllKeys = ["", "k"] := by decide +kernel
  have stored : ∀ key d, (runAll sampleCalls).stateMachine.entry key = some d →
      key = "" ∧ d = ("k", []) ∨ key = "k" ∧ d = ("v 12\n\nk", [("A", 1)]) := by
    intro key d hd
    have hkey : key ∈ (runAll sampleCalls).stateMachine.getAllKeys :=
      (mem_getAllKeys _).mpr ⟨d, hd⟩
    simp only [keys, List.mem_cons, List.not_mem_nil, or_false] at hkey
    rcases hkey with rfl | rfl
    · cases hd
      exact .inl ⟨rfl, rfl⟩
    · cases hd
      exact .inr ⟨rfl, rfl⟩
  refine (recovers_iff sampleCalls (by simp [sampleCalls]) ?_).mpr ⟨?_, ?_, ?_, ?_⟩
  · simp only [sampleCalls, List.forall_mem_cons, NamesServers]
    exact ⟨by decide +kernel, by simp, by simp⟩
  · intro key d hd
    rcases stored key d hd with ⟨rfl, rfl⟩ | ⟨rfl, rfl⟩
    · simp
    · have word : IsWord "k".toList := by decide +kernel
      exact word.2
  · intro key d hd
    rcases stored key d hd with ⟨rfl, rfl⟩ | ⟨rfl, rfl⟩ <;> decide +kernel
  · intro key d hd line hline
    rw [← Option.isSome_iff_exists]
    revert line
    rcases stored key d hd with ⟨rfl, rfl⟩ | ⟨rfl, rfl⟩ <;> decide +kernel
  · intro d hd
    exact ⟨"k", _, rfl, by decide +kernel⟩

/-- A blank in a value: the "b" behind it is read as a pair, and has no number. -/
theorem blank_in_value_throws :
    NamesServers (.put "k" "a b" [("A", 1)]) ∧
    (∃ text, (runAll [(.put "k" "a b" [("A", 1)], backwards)]).file = some text ∧
      readFile text = none) ∧
    ¬ Recovers (runAll [(.put "k" "a b" [("A", 1)], backwards)]) := by
  have throws : readFile ((runAll [(.put "k" "a b" [("A", 1)],
      backwards)]).stateMachine.flushToDisk backwards) = none := by decide +kernel
  have servers : ∀ info ∈ [("A", (1 : UInt64))], IsServer info.1 := by decide +kernel
  refine ⟨servers, ⟨_, rfl, throws⟩, ?_⟩
  rintro ⟨text, t, htext, hread, -⟩
  cases htext
  cases throws.symm.trans hread

end Sample

end StorageRecovery
