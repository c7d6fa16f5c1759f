import Mathlib.Data.List.Perm.Basic

/-!
# One slot and the order of arrivals

Values arrive one after another at a slot, which keeps at most one of them: a value
that is accepted over the present content replaces it. `accepts` can be any
relation, so the outcome can depend on the order of the arrivals. It is the same
value in every order exactly if that value arrives and prevails over all others.
-/

namespace ArrivalOrders

variable {α N : Type} (accepts : α → Option α → Prop)

/-- The present content stays once `d` is there, and gives way to `d`. -/
def Prevails (d e : α) : Prop := e = d ∨ (accepts d (some e) ∧ ¬ accepts e (some d))

variable [∀ a slot, Decidable (accepts a slot)]

def settle (slot : Option α) (a : α) : Option α := if accepts a slot then some a else slot

variable {accepts}

variable (accepts) in
theorem settle_cases (slot : Option α) (a : α) :
    (accepts a slot ∧ settle accepts slot a = some a) ∨
      (¬ accepts a slot ∧ settle accepts slot a = slot) := by
  by_cases h : accepts a slot
  · exact Or.inl ⟨h, if_pos h⟩
  · exact Or.inr ⟨h, if_neg h⟩

/-- The content comes from the arrivals, if it was not there before. -/
theorem mem_of_foldl_settle {d : α} (arrivals : List α) (slot : Option α)
    (h : arrivals.foldl (settle accepts) slot = some d) : d ∈ arrivals ∨ slot = some d := by
  induction arrivals generalizing slot with
  | nil => exact Or.inr h
  | cons a arrivals ih =>
    rcases ih _ h with hmem | hslot
    · exact Or.inl (List.mem_cons_of_mem _ hmem)
    · rcases settle_cases accepts slot a with ⟨_, heq⟩ | ⟨_, heq⟩
      · rw [heq] at hslot
        exact Or.inl (Option.some.inj hslot ▸ List.mem_cons_self)
      · exact Or.inr (heq ▸ hslot)

/-- A value that prevails over all arrivals is the outcome once it has arrived. -/
theorem foldl_settle_eq {d : α} (first : ∀ a, accepts a none) (arrivals : List α)
    (slot : Option α) (hslot : ∀ e, slot = some e → Prevails accepts d e)
    (harrivals : ∀ e ∈ arrivals, Prevails accepts d e) (hd : d ∈ arrivals ∨ slot = some d) :
    arrivals.foldl (settle accepts) slot = some d := by
  induction arrivals generalizing slot with
  | nil => exact hd.resolve_left List.not_mem_nil
  | cons a arrivals ih =>
    rw [List.forall_mem_cons] at harrivals
    rw [List.foldl_cons]
    refine ih _ ?_ harrivals.2 ?_
    · intro e he
      rcases settle_cases accepts slot a with ⟨_, heq⟩ | ⟨_, heq⟩
      · rw [heq] at he
        exact Option.some.inj he ▸ harrivals.1
      · exact hslot e (heq ▸ he)
    · by_cases had : a = d
      · -- the value arrives: over nothing, over itself, or over what gives way
        right
        subst had
        rcases settle_cases accepts slot a with ⟨_, heq⟩ | ⟨hnot, heq⟩
        · exact heq
        · cases hs : slot with
          | none => exact absurd (hs ▸ first a) hnot
          | some e =>
            rw [hs] at hnot heq
            rcases hslot e hs with rfl | ⟨hover, _⟩
            · exact heq
            · exact absurd hover hnot
      · rcases hd with hmem | hslotd
        · exact Or.inl ((List.mem_cons.mp hmem).resolve_left (Ne.symm had))
        · right
          have hstays : ¬ accepts a slot := by
            rw [hslotd]
            exact (harrivals.1.resolve_left had).2
          rw [settle, if_neg hstays]
          exact hslotd

/-- Whatever arrives last does not replace the outcome. -/
theorem not_accepts_of_last {d e : α} (arrivals : List α)
    (h : (arrivals ++ [e]).foldl (settle accepts) none = some d) :
    e = d ∨ ¬ accepts e (some d) := by
  rw [List.foldl_append, List.foldl_cons, List.foldl_nil] at h
  rcases settle_cases accepts (arrivals.foldl (settle accepts) none) e with
    ⟨_, heq⟩ | ⟨hnot, heq⟩
  · rw [heq] at h
    exact Or.inl (Option.some.inj h)
  · rw [heq] at h
    exact Or.inr (h ▸ hnot)

theorem foldl_settle_const {d : α} {slot : Option α} (hnot : ¬ accepts d slot)
    (arrivals : List α) (h : ∀ a ∈ arrivals, a = d) :
    arrivals.foldl (settle accepts) slot = slot := by
  induction arrivals with
  | nil => rfl
  | cons a arrivals ih =>
    rw [List.forall_mem_cons] at h
    rw [List.foldl_cons, settle, h.1, if_neg hnot]
    exact ih h.2

/-- What arrives first gives way to the outcome, if that arrives next and never again. -/
theorem accepts_of_first {d e : α} (first : ∀ a, accepts a none) (same rest : List α)
    (hsame : ∀ a ∈ same, a = d) (hrest : d ∉ rest)
    (h : (e :: (same ++ rest)).foldl (settle accepts) none = some d) :
    e = d ∨ accepts d (some e) := by
  by_cases hover : accepts d (some e)
  · exact Or.inr hover
  · left
    rw [List.foldl_cons, settle, if_pos (first e), List.foldl_append,
      foldl_settle_const hover same hsame] at h
    rcases mem_of_foldl_settle rest _ h with hmem | heq
    · exact absurd hmem hrest
    · exact Option.some.inj heq

/-- Senders deliver one value each, or none. The outcome is `d` in every order of
the senders exactly if somebody sends `d`, and `d` prevails over all that is sent. -/
theorem every_order_iff [DecidableEq α] [DecidableEq N] {d : α} (first : ∀ a, accepts a none)
    (senders : List N) (sent : N → Option α) :
    (∀ l : List N, l.Perm senders → (l.filterMap sent).foldl (settle accepts) none = some d) ↔
      (∃ m ∈ senders, sent m = some d) ∧
        ∀ m ∈ senders, ∀ e, sent m = some e → Prevails accepts d e := by
  constructor
  · intro h
    constructor
    · rcases mem_of_foldl_settle _ _ (h senders (List.Perm.refl _)) with hmem | hnone
      · exact List.mem_filterMap.mp hmem
      · cases hnone
    · intro m hm e he
      -- the sender comes last, or it comes first and those of `d` come next
      have hlast := h (senders.erase m ++ [m]) ((List.perm_append_singleton _ _).trans
        (List.perm_cons_erase hm).symm)
      have hfirst := h (m :: ((senders.erase m).filter (fun a => sent a = some d) ++
        (senders.erase m).filter fun a => !decide (sent a = some d)))
        (((List.filter_append_perm _ _).cons m).trans (List.perm_cons_erase hm).symm)
      rw [List.filterMap_append, List.filterMap_cons_some he, List.filterMap_nil] at hlast
      rw [List.filterMap_cons_some he, List.filterMap_append] at hfirst
      rcases not_accepts_of_last _ hlast with heq | hnot
      · exact Or.inl heq
      · refine (accepts_of_first first _ _ ?_ ?_ hfirst).imp_right fun hover => ⟨hover, hnot⟩
        · intro a ha
          obtain ⟨n, hn, hna⟩ := List.mem_filterMap.mp ha
          have hnd : sent n = some d := by simpa using (List.mem_filter.mp hn).2
          exact Option.some.inj (hna.symm.trans hnd)
        · intro hd
          obtain ⟨n, hn, hnd⟩ := List.mem_filterMap.mp hd
          have hnot : sent n ≠ some d := by simpa using (List.mem_filter.mp hn).2
          exact hnot hnd
  · rintro ⟨⟨m, hm, hd⟩, hprevails⟩ l hl
    refine foldl_settle_eq first _ none (fun e he => by cases he) ?_ (Or.inl ?_)
    · intro e he
      obtain ⟨n, hn, hne⟩ := List.mem_filterMap.mp he
      exact hprevails n (hl.mem_iff.mp hn) e hne
    · exact List.mem_filterMap.mpr ⟨m, hl.mem_iff.mpr hm, hd⟩

end ArrivalOrders
