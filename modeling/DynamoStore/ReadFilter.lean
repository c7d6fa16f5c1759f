import DynamoStore.ConflictVerdict

/-!
# What a read keeps

`get_latest_data` drops duplicates, and then every entry that is judged earlier than
another one. Which entries remain does not depend on their order.
-/

namespace ReadFilter

open StateMachine ConflictVerdict

/-- One turn of the loop of `removeDuplicateData`. -/
def addNew (uniqueVectors : List Data) (checkVector : Data) : List Data :=
  if checkVector ∈ uniqueVectors then uniqueVectors else uniqueVectors ++ [checkVector]

theorem removeDuplicateData_eq (l : List Data) : removeDuplicateData l = l.foldl addNew [] := by
  have found : ∀ (uniqueVectors : List Data) (checkVector : Data),
      uniqueVectors.any (fun uniqueVector =>
        checkVector.1 = uniqueVector.1 ∧ checkVector.2 = uniqueVector.2) = true ↔
      checkVector ∈ uniqueVectors := by
    intro uniqueVectors checkVector
    simp [← Prod.ext_iff]
  simp only [removeDuplicateData, found]
  rfl

theorem mem_foldl_addNew {e : Data} (uniqueVectors l : List Data) :
    e ∈ l.foldl addNew uniqueVectors ↔ e ∈ uniqueVectors ∨ e ∈ l := by
  induction l generalizing uniqueVectors with
  | nil => simp
  | cons first l ih =>
    rw [List.foldl_cons, ih, List.mem_cons, addNew]
    split
    · rename_i hmem
      constructor
      · rintro (h | h)
        · exact Or.inl h
        · exact Or.inr (Or.inr h)
      · rintro (h | rfl | h)
        · exact Or.inl h
        · exact Or.inl hmem
        · exact Or.inr h
    · rw [List.mem_append, List.mem_singleton, or_assoc]

theorem mem_removeDuplicateData {e : Data} {l : List Data} :
    e ∈ removeDuplicateData l ↔ e ∈ l := by
  rw [removeDuplicateData_eq, mem_foldl_addNew]
  simp

/-- The positions do not matter, since no entry is judged earlier than itself. -/
theorem mem_removeUnconflictData {e : Data} {l : List Data} :
    e ∈ removeUnconflictData l ↔ e ∈ l ∧ ∀ e' ∈ l, ¬ checkConflictVersion e.2 e'.2 < 0 := by
  simp only [removeUnconflictData, List.mem_map, List.mem_filter, Bool.not_eq_true',
    List.any_eq_false, decide_eq_true_eq, not_and]
  constructor
  · rintro ⟨⟨e, i⟩, ⟨hmem, hnone⟩, rfl⟩
    have hi : l[i]? = some e := List.mem_zipIdx_iff_getElem?.mp hmem
    refine ⟨List.mem_of_getElem? hi, fun e' he' => ?_⟩
    obtain ⟨j, hj⟩ := List.mem_iff_getElem?.mp he'
    by_cases hij : i = j
    · subst hij
      rw [Option.some.inj (hi.symm.trans hj)]
      exact check_self_nonneg _
    · exact hnone (e', j) (List.mem_zipIdx_iff_getElem?.mpr hj) hij
  · rintro ⟨hmem, hnone⟩
    obtain ⟨i, hi⟩ := List.mem_iff_getElem?.mp hmem
    refine ⟨(e, i), ⟨List.mem_zipIdx_iff_getElem?.mpr hi, fun y hy _ => ?_⟩, rfl⟩
    exact hnone y.1 (List.mem_of_getElem? (List.mem_zipIdx_iff_getElem?.mp hy))

/-- The entries that no other entry is judged to replace. -/
theorem mem_getLatestData {e : Data} {l : List Data} :
    e ∈ getLatestData l ↔ e ∈ l ∧ ∀ e' ∈ l, ¬ checkConflictVersion e.2 e'.2 < 0 := by
  rw [getLatestData, mem_removeUnconflictData, mem_removeDuplicateData]
  simp only [mem_removeDuplicateData]

/-- An entry with some property remains, among entries that a function reads. -/
theorem exists_mem_getLatestData_map {α : Type} {P : Data → Prop} {f : α → Data} {l : List α} :
    (∃ e ∈ getLatestData (l.map f), P e) ↔
      ∃ m ∈ l, P (f m) ∧ ∀ m' ∈ l, ¬ checkConflictVersion (f m).2 (f m').2 < 0 := by
  constructor
  · rintro ⟨e, he, hP⟩
    obtain ⟨hmem, hlatest⟩ := mem_getLatestData.mp he
    obtain ⟨m, hm, rfl⟩ := List.mem_map.mp hmem
    exact ⟨m, hm, hP, fun m' hm' => hlatest _ (List.mem_map_of_mem hm')⟩
  · rintro ⟨m, hm, hP, hlatest⟩
    refine ⟨f m, mem_getLatestData.mpr ⟨List.mem_map_of_mem hm, fun e he => ?_⟩, hP⟩
    obtain ⟨m', hm', rfl⟩ := List.mem_map.mp he
    exact hlatest m' hm'

/-- Copies of one entry are one entry. -/
theorem getLatestData_of_all_eq {e : Data} {l : List Data} (hne : l ≠ [])
    (h : ∀ e' ∈ l, e' = e) : getLatestData l = [e] := by
  obtain ⟨first, l, rfl⟩ := List.exists_cons_of_ne_nil hne
  rw [List.forall_mem_cons] at h
  have hunique : removeDuplicateData (first :: l) = [e] := by
    have again : addNew [e] e = [e] := if_pos (List.mem_singleton_self e)
    have hrest := h.2
    rw [removeDuplicateData_eq, List.foldl_cons, h.1]
    change l.foldl addNew [e] = [e]
    clear h hne
    induction l with
    | nil => rfl
    | cons second l ih =>
      rw [List.forall_mem_cons] at hrest
      rw [List.foldl_cons, hrest.1, again]
      exact ih hrest.2
  rw [getLatestData, hunique]
  simp [removeUnconflictData]

end ReadFilter
