import DynamoStore.ReadFilter
import Mathlib.Order.WellFoundedSet

/-!
# The read filter as a set of latest versions

The verdict "earlier" is a strict order on all clocks, also on those that repeat a
server or are empty. So every entry that the filter drops is below one that it
keeps, and what it keeps depends only on the set of entries it is given.
-/

namespace ReadResults

open StateMachine ConflictVerdict ReadFilter

/-- The verdict that drops an entry. -/
def Earlier (a b : Version) : Prop := checkConflictVersion a b < 0

instance (a b : Version) : Decidable (Earlier a b) :=
  inferInstanceAs (Decidable (checkConflictVersion a b < 0))

section Order

variable {a b c : Version}

theorem not_earlier_nil (a : Version) : ¬ Earlier a [] := by
  rw [Earlier, check_existing_nil]
  decide

theorem nil_earlier (hb : b ≠ []) : Earlier [] b := by
  rw [Earlier, check_incoming_nil hb]
  decide

theorem earlier_iff (ha : a ≠ []) (hb : b ≠ []) :
    Earlier a b ↔ ¬ Lacks a b ∧ ¬ Behind b a ∧ Behind a b := by
  rw [Earlier, check_eq ha hb]
  by_cases hl : Lacks a b <;> by_cases hbehind : Behind a b <;>
    by_cases hahead : Behind b a <;> simp [hl, hbehind, hahead]
  split_ifs <;> decide

theorem ne_nil_of_earlier (h : Earlier a b) : b ≠ [] := by
  rintro rfl
  exact not_earlier_nil a h

theorem exists_of_not_lacks (h : ¬ Lacks a b) {q : String × UInt64} (hq : q ∈ b) :
    ∃ p ∈ a, p.1 = q.1 := by
  have hmem : q.1 ∈ a.map Prod.fst := by
    by_contra hnot
    exact h ⟨q, hq, hnot⟩
  obtain ⟨p, hp, hname⟩ := List.mem_map.mp hmem
  exact ⟨p, hp, hname⟩

theorem le_of_not_behind (h : ¬ Behind b a) {p q : String × UInt64} (hp : p ∈ a) (hq : q ∈ b)
    (hname : p.1 = q.1) : p.2 ≤ q.2 := by
  by_contra hlt
  exact h ⟨q, hq, p, hp, hname.symm, lt_of_not_ge hlt⟩

theorem Earlier.trans (hab : Earlier a b) (hbc : Earlier b c) : Earlier a c := by
  have hb : b ≠ [] := ne_nil_of_earlier hab
  have hc : c ≠ [] := ne_nil_of_earlier hbc
  by_cases ha : a = []
  · subst ha
    exact nil_earlier hc
  obtain ⟨habNames, habAhead, _⟩ := (earlier_iff ha hb).mp hab
  obtain ⟨hbcNames, hbcAhead, q, hq, r, hr, hqr, hlt⟩ := (earlier_iff hb hc).mp hbc
  refine (earlier_iff ha hc).mpr ⟨?_, ?_, ?_⟩
  · rintro ⟨r, hr, hnot⟩
    obtain ⟨q, hq, hqr⟩ := exists_of_not_lacks hbcNames hr
    obtain ⟨p, hp, hpq⟩ := exists_of_not_lacks habNames hq
    exact hnot (List.mem_map.mpr ⟨p, hp, hpq.trans hqr⟩)
  · rintro ⟨r, hr, p, hp, hrp, hlt⟩
    -- `b` has a counter between the two
    obtain ⟨q, hq, hqr⟩ := exists_of_not_lacks hbcNames hr
    have hpq : p.2 ≤ q.2 := le_of_not_behind habAhead hp hq (hrp.symm.trans hqr.symm)
    have hqr' : q.2 ≤ r.2 := le_of_not_behind hbcAhead hq hr hqr
    exact absurd (hpq.trans hqr') (not_le_of_gt hlt)
  · obtain ⟨p, hp, hpq⟩ := exists_of_not_lacks habNames hq
    exact ⟨p, hp, r, hr, hpq.trans hqr, (le_of_not_behind habAhead hp hq hpq).trans_lt hlt⟩

end Order

/-- Entries are ordered by their clocks, later ones first. -/
def Replaces (e' e : Data) : Prop := Earlier e.2 e'.2

instance : IsStrictOrder Data Replaces where
  irrefl e := check_self_nonneg e.2
  trans _ _ _ hab hbc := Earlier.trans hbc hab

/-- Above every entry of a list there is one that nothing in the list replaces. -/
theorem exists_latest {l : List Data} {e : Data} (he : e ∈ l) :
    ∃ e' ∈ l, (e' = e ∨ Earlier e.2 e'.2) ∧ ∀ d ∈ l, ¬ Earlier e'.2 d.2 := by
  have wf : {d | d ∈ l}.WellFoundedOn Replaces := (List.finite_toSet l).wellFoundedOn
  refine wf.induction (P := fun e => ∃ e' ∈ l, (e' = e ∨ Earlier e.2 e'.2) ∧
    ∀ d ∈ l, ¬ Earlier e'.2 d.2) he fun e he ih => ?_
  by_cases hlatest : ∃ d ∈ l, Earlier e.2 d.2
  · obtain ⟨d, hd, hed⟩ := hlatest
    obtain ⟨e', he', hde', htop⟩ := ih d hd hed
    refine ⟨e', he', Or.inr ?_, htop⟩
    rcases hde' with rfl | hde'
    · exact hed
    · exact hed.trans hde'
  · push Not at hlatest
    exact ⟨e, he, Or.inl rfl, hlatest⟩

theorem mem_getLatestData_iff {e : Data} {l : List Data} :
    e ∈ getLatestData l ↔ e ∈ l ∧ ∀ e' ∈ l, ¬ Earlier e.2 e'.2 := mem_getLatestData

/-- What the filter drops is earlier than something that it keeps. -/
theorem exists_kept {l : List Data} {e : Data} (he : e ∈ l) (dropped : e ∉ getLatestData l) :
    ∃ e' ∈ getLatestData l, Earlier e.2 e'.2 := by
  obtain ⟨e', he', hee', htop⟩ := exists_latest he
  have hkept : e' ∈ getLatestData l := mem_getLatestData_iff.mpr ⟨he', htop⟩
  rcases hee' with rfl | hlt
  · exact absurd hkept dropped
  · exact ⟨e', hkept, hlt⟩

theorem getLatestData_ne_nil {l : List Data} (hne : l ≠ []) : getLatestData l ≠ [] := by
  obtain ⟨e, he⟩ := List.exists_mem_of_ne_nil l hne
  obtain ⟨e', he', _, htop⟩ := exists_latest he
  exact List.ne_nil_of_mem (mem_getLatestData_iff.mpr ⟨he', htop⟩)

section Loops

theorem nodup_foldl_addNew (uniqueVectors l : List Data) (nodup : uniqueVectors.Nodup) :
    (l.foldl addNew uniqueVectors).Nodup := by
  induction l generalizing uniqueVectors with
  | nil => exact nodup
  | cons first l ih =>
    rw [List.foldl_cons]
    apply ih
    rw [addNew]
    split
    · exact nodup
    · rename_i hnew
      refine List.nodup_append.mpr ⟨nodup, List.nodup_singleton first, ?_⟩
      intro found hfound d hd heq
      rw [List.mem_singleton.mp hd] at heq
      exact hnew (heq ▸ hfound)

theorem nodup_removeDuplicateData (l : List Data) : (removeDuplicateData l).Nodup := by
  rw [removeDuplicateData_eq]
  exact nodup_foldl_addNew [] l List.nodup_nil

/-- Without repetitions the loop appends everything. -/
theorem foldl_addNew_of_nodup (uniqueVectors l : List Data)
    (nodup : (uniqueVectors ++ l).Nodup) : l.foldl addNew uniqueVectors = uniqueVectors ++ l := by
  induction l generalizing uniqueVectors with
  | nil => simp
  | cons first l ih =>
    have hnew : first ∉ uniqueVectors := fun hmem =>
      (List.nodup_append.mp nodup).2.2 first hmem first List.mem_cons_self rfl
    rw [List.foldl_cons, addNew, if_neg hnew, ih (uniqueVectors ++ [first]) (by simpa using nodup)]
    simp

theorem removeDuplicateData_of_nodup {l : List Data} (nodup : l.Nodup) :
    removeDuplicateData l = l := by
  rw [removeDuplicateData_eq]
  exact foldl_addNew_of_nodup [] l nodup

theorem removeUnconflictData_sublist (l : List Data) : (removeUnconflictData l).Sublist l := by
  have hfilter := (List.filter_sublist (l := l.zipIdx) (p := fun x =>
    !l.zipIdx.any fun y => x.2 ≠ y.2 ∧ checkConflictVersion x.1.2 y.1.2 < 0)).map Prod.fst
  rw [List.zipIdx_map_fst] at hfilter
  exact hfilter

/-- Where no verdict is negative, nothing is dropped. -/
theorem removeUnconflictData_of_latest {l : List Data}
    (latest : ∀ e ∈ l, ∀ e' ∈ l, ¬ Earlier e.2 e'.2) : removeUnconflictData l = l := by
  have hall : ∀ x ∈ l.zipIdx, (!l.zipIdx.any fun y =>
      decide (x.2 ≠ y.2 ∧ checkConflictVersion x.1.2 y.1.2 < 0)) = true := by
    intro x hx
    rw [Bool.not_eq_true', List.any_eq_false]
    intro y hy
    rw [decide_eq_true_eq]
    exact fun h => latest x.1 (List.fst_mem_of_mem_zipIdx hx) y.1
      (List.fst_mem_of_mem_zipIdx hy) h.2
  rw [removeUnconflictData, List.filter_eq_self.mpr hall, List.zipIdx_map_fst]

theorem nodup_getLatestData (l : List Data) : (getLatestData l).Nodup :=
  (nodup_removeDuplicateData l).sublist (removeUnconflictData_sublist _)

end Loops

/-- A placeholder has no part in which of the other entries are kept. -/
theorem mem_getLatestData_filter {l : List Data} {e : Data} (he : e.2 ≠ []) :
    e ∈ getLatestData l ↔ e ∈ getLatestData (l.filter fun d => d.2 ≠ []) := by
  simp only [mem_getLatestData_iff, List.mem_filter, decide_eq_true_eq]
  constructor
  · rintro ⟨hmem, hlatest⟩
    exact ⟨⟨hmem, he⟩, fun d hd => hlatest d hd.1⟩
  · rintro ⟨⟨hmem, _⟩, hlatest⟩
    refine ⟨hmem, fun d hd hlt => ?_⟩
    exact hlatest d ⟨hd, ne_nil_of_earlier hlt⟩ hlt

/-- The filter keeps something, once, and drops an entry only for one that it keeps. An
entry without a clock does not survive next to one with a clock, and which entries with
a clock survive does not depend on the entries without one. -/
theorem filter_keeps_latest (l : List Data) (nonempty : l ≠ []) :
    getLatestData l ≠ [] ∧ (getLatestData l).Nodup ∧
      (∀ e ∈ l, e ∉ getLatestData l →
        ∃ e' ∈ getLatestData l, checkConflictVersion e.2 e'.2 < 0) ∧
      ((∃ e ∈ l, e.2 ≠ []) → ∀ e ∈ getLatestData l, e.2 ≠ []) ∧
      ∀ e, e.2 ≠ [] →
        (e ∈ getLatestData l ↔ e ∈ getLatestData (l.filter fun d => d.2 ≠ [])) := by
  refine ⟨getLatestData_ne_nil nonempty, nodup_getLatestData l,
    fun e he dropped => exists_kept he dropped, ?_, fun e he => mem_getLatestData_filter he⟩
  rintro ⟨d, hd, hclock⟩ e he hnil
  have hlatest := (mem_getLatestData_iff.mp he).2 d hd
  rw [hnil] at hlatest
  exact hlatest (nil_earlier hclock)

/-- A read that met an older version, a concurrent one and a node without the key. -/
theorem filter_keeps_latest_sample :
    getLatestData [("old", [("A", 1)]), (noValue, []), ("new", [("A", 2)]),
      ("other", [("B", 1)])] ≠ [] ∧
      (noValue, []) ∉ getLatestData [("old", [("A", 1)]), (noValue, []), ("new", [("A", 2)]),
        ("other", [("B", 1)])] := by
  have kept := filter_keeps_latest [("old", [("A", 1)]), (noValue, []), ("new", [("A", 2)]),
    ("other", [("B", 1)])] (by decide)
  exact ⟨kept.1, fun h => kept.2.2.2.1 ⟨("old", [("A", 1)]), by decide, by decide⟩ _ h rfl⟩

/-- The result is the same for every order and number of copies of the replies, up to
its own order, and filtering it again changes nothing. -/
theorem filter_of_same_entries (l l' : List Data) (same : ∀ e, e ∈ l ↔ e ∈ l') :
    (getLatestData l).Perm (getLatestData l') ∧
      getLatestData (getLatestData l) = getLatestData l := by
  constructor
  · refine (List.perm_ext_iff_of_nodup (nodup_getLatestData l) (nodup_getLatestData l')).mpr ?_
    intro e
    simp only [mem_getLatestData_iff, same]
  · have latest : ∀ e ∈ getLatestData l, ∀ e' ∈ getLatestData l, ¬ Earlier e.2 e'.2 := by
      intro e he e' he'
      exact (mem_getLatestData_iff.mp he).2 e' (mem_getLatestData_iff.mp he').1
    rw [getLatestData, removeDuplicateData_of_nodup (nodup_getLatestData l),
      removeUnconflictData_of_latest latest]

/-- Two replies in the other order, with the first one repeated. -/
theorem filter_of_same_entries_sample :
    (getLatestData [("v", [("A", 1)]), ("w", [("B", 1)])]).Perm
      (getLatestData [("w", [("B", 1)]), ("v", [("A", 1)]), ("w", [("B", 1)])]) := by
  refine (filter_of_same_entries _ _ fun e => ?_).1
  simp only [List.mem_cons, List.not_mem_nil, or_false]
  tauto

end ReadResults
