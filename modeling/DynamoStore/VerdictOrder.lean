import DynamoStore.ConflictVerdict

/-!
# The verdict and the vector clock order

Verdicts 1 and 0 are the order. A version that lacks a server of the existing one is
called a conflict at once, also when it is earlier. Behind this there is one more pair
of versions: an incoming version that names a further server, and is behind on a
common one, never gets to the check for servers of its own.
-/

namespace VerdictOrder

open VectorClocks StateMachine ConflictVerdict

/-- `incoming` names the servers of `existing` and another one; on the common servers
it is behind somewhere and ahead nowhere. -/
def BehindWithMore (incoming existing : Version) : Prop :=
  ¬ Lacks incoming existing ∧ Lacks existing incoming ∧
    Behind incoming existing ∧ ¬ Behind existing incoming

instance (incoming existing : Version) : Decidable (BehindWithMore incoming existing) :=
  inferInstanceAs (Decidable (_ ∧ _ ∧ _ ∧ _))

theorem BehindWithMore.concurrent {incoming existing : Version} (hi : Distinct incoming)
    (he : Distinct existing) (h : BehindWithMore incoming existing) :
    ¬ Below existing incoming ∧ ¬ Below incoming existing := by
  rw [below_iff hi, below_iff he]
  exact ⟨fun below => below.2 h.2.2.1, fun below => below.1 h.2.1⟩

theorem BehindWithMore.ne_nil {incoming existing : Version}
    (h : BehindWithMore incoming existing) : incoming ≠ [] ∧ existing ≠ [] := by
  obtain ⟨_, _, ⟨p, hp, q, hq, _⟩, _⟩ := h
  exact ⟨List.ne_nil_of_mem hp, List.ne_nil_of_mem hq⟩

theorem below_nil (v : Version) : Below [] v := fun _ hp => absurd hp List.not_mem_nil

theorem not_below_nil {v : Version} (hv : v ≠ []) : ¬ Below v [] := by
  obtain ⟨p, hp⟩ := List.exists_mem_of_ne_nil v hv
  intro below
  obtain ⟨q, hq, _⟩ := below p hp
  exact absurd hq List.not_mem_nil

section Verdicts

variable {incoming existing : Version}

variable (incoming existing) in
theorem verdict_cases :
    checkConflictVersion incoming existing = 2 ∨ checkConflictVersion incoming existing = 1 ∨
      checkConflictVersion incoming existing = 0 ∨
      checkConflictVersion incoming existing = -1 := by
  by_cases he : existing = []
  · subst he
    exact Or.inr (Or.inl rfl)
  · by_cases hi : incoming = []
    · subst hi
      exact Or.inr (Or.inr (Or.inr (check_incoming_nil he)))
    · rw [check_eq hi he]
      split_ifs <;> decide

/-- When an incoming version is called earlier. -/
theorem check_eq_neg_one_iff (hi : Distinct incoming) (he : Distinct existing) :
    checkConflictVersion incoming existing = -1 ↔
      (StrictlyBelow incoming existing ∧ (incoming = [] ∨ ¬ Lacks incoming existing)) ∨
        BehindWithMore incoming existing := by
  by_cases hex : existing = []
  · subst hex
    rw [check_existing_nil]
    constructor
    · intro h
      exact absurd h (by decide)
    · rintro (⟨below, _⟩ | more)
      · exact absurd rfl (ne_nil_of_strictlyBelow below)
      · exact absurd rfl more.ne_nil.2
  · by_cases hin : incoming = []
    · subst hin
      rw [check_incoming_nil hex]
      exact ⟨fun _ => Or.inl ⟨⟨below_nil existing, not_below_nil hex⟩, Or.inl rfl⟩, fun _ => rfl⟩
    · rw [check_eq hin hex, StrictlyBelow, below_iff hi, below_iff he, BehindWithMore]
      by_cases hl : Lacks incoming existing <;> by_cases hx : Lacks existing incoming <;>
        by_cases hb : Behind incoming existing <;> by_cases ha : Behind existing incoming <;>
        simp [hl, hx, hb, ha, hin]

/-- When two versions are called a conflict. -/
theorem check_eq_two_iff (hi : Distinct incoming) (he : Distinct existing) :
    checkConflictVersion incoming existing = 2 ↔
      (¬ Below existing incoming ∧ ¬ Below incoming existing ∧
        ¬ BehindWithMore incoming existing) ∨
      (incoming ≠ [] ∧ Lacks incoming existing ∧ StrictlyBelow incoming existing) := by
  by_cases hex : existing = []
  · subst hex
    rw [check_existing_nil]
    constructor
    · intro h
      exact absurd h (by decide)
    · rintro (⟨below, _⟩ | ⟨_, _, below⟩)
      · exact absurd (below_nil incoming) below
      · exact absurd rfl (ne_nil_of_strictlyBelow below)
  · by_cases hin : incoming = []
    · subst hin
      rw [check_incoming_nil hex]
      constructor
      · intro h
        exact absurd h (by decide)
      · rintro (⟨_, below, _⟩ | ⟨hne, _⟩)
        · exact absurd (below_nil existing) below
        · exact absurd rfl hne
    · rw [check_eq hin hex, StrictlyBelow, below_iff hi, below_iff he, BehindWithMore]
      by_cases hl : Lacks incoming existing <;> by_cases hx : Lacks existing incoming <;>
        by_cases hb : Behind incoming existing <;> by_cases ha : Behind existing incoming <;>
        simp [hl, hx, hb, ha, hin]

end Verdicts

/-- Verdicts 1 and 0 are the order of the clocks. Apart from versions that are behind
with more servers, an earlier version is called earlier if it is empty or names every
server of the existing one, and a conflict otherwise, as concurrent versions are. -/
theorem verdict_decides_order (incoming existing : Version) (hi : Distinct incoming)
    (he : Distinct existing) (nonempty : incoming ≠ [] ∨ existing ≠ []) :
    (checkConflictVersion incoming existing = 1 ↔ StrictlyBelow existing incoming) ∧
      (checkConflictVersion incoming existing = 0 ↔ SameClock existing incoming) ∧
      (¬ BehindWithMore incoming existing →
        (checkConflictVersion incoming existing = -1 ↔
          StrictlyBelow incoming existing ∧ (incoming = [] ∨ ¬ Lacks incoming existing)) ∧
        (checkConflictVersion incoming existing = 2 ↔
          (¬ Below existing incoming ∧ ¬ Below incoming existing) ∨
          (StrictlyBelow incoming existing ∧ ¬ (incoming = [] ∨ ¬ Lacks incoming existing)))) := by
  refine ⟨?_, ?_, fun regular => ⟨?_, ?_⟩⟩
  · by_cases hex : existing = []
    · subst hex
      have hin : incoming ≠ [] := nonempty.resolve_right (fun h => h rfl)
      exact ⟨fun _ => ⟨below_nil incoming, not_below_nil hin⟩, fun _ => rfl⟩
    · exact check_eq_one_iff hi he hex
  · by_cases hex : existing = []
    · subst hex
      have hin : incoming ≠ [] := nonempty.resolve_right (fun h => h rfl)
      rw [check_existing_nil]
      exact ⟨fun h => absurd h (by decide), fun same => absurd same.2 (not_below_nil hin)⟩
    · exact check_eq_zero_iff hi he hex
  · rw [check_eq_neg_one_iff hi he]
    exact or_iff_left regular
  · rw [check_eq_two_iff hi he]
    tauto

/-- The older version of one write that has since gone through another server. -/
theorem verdict_decides_order_sample :
    checkConflictVersion [("B", 1), ("A", 2)] [("A", 1)] = 1 ∧
      StrictlyBelow [("A", 1)] [("B", (1 : UInt64)), ("A", 2)] := by
  have order := verdict_decides_order [("B", 1), ("A", 2)] [("A", 1)] (by decide) (by decide)
    (Or.inl (by decide))
  have hbelow : StrictlyBelow [("A", 1)] [("B", (1 : UInt64)), ("A", 2)] := by decide
  exact ⟨order.1.mpr hbelow, hbelow⟩

/-- An earlier version is called a conflict because it does not name server B. -/
theorem earlier_called_conflict :
    Distinct [("A", (1 : UInt64))] ∧ Distinct [("A", (1 : UInt64)), ("B", 1)] ∧
      StrictlyBelow [("A", (1 : UInt64))] [("A", 1), ("B", 1)] ∧
      checkConflictVersion [("A", 1)] [("A", 1), ("B", 1)] = 2 ∧
      checkConflictVersion [("A", 1)] [("A", 1), ("B", 1)] ≠ -1 := by
  decide

end VerdictOrder
