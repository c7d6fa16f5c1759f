import DynamoStore.ReadFilter
import DynamoStore.VerdictOrder

/-!
# Concurrent versions in a read

An entry that no other entry dominates ought to reach the client. The filter drops
one if it is called earlier than another entry nevertheless, and this happens for
one kind of pair only: the dropped version names all servers of the other one and
more, and is behind on the common ones.
-/

namespace ConcurrentSiblings

open VectorClocks StateMachine ConflictVerdict ReadFilter VerdictOrder

/-- The negative verdict, for entries with distinct server names. -/
theorem check_neg_iff {incoming existing : Version} (hi : Distinct incoming)
    (he : Distinct existing) :
    checkConflictVersion incoming existing < 0 ↔
      (StrictlyBelow incoming existing ∧ (incoming = [] ∨ ¬ Lacks incoming existing)) ∨
        BehindWithMore incoming existing := by
  have only : checkConflictVersion incoming existing < 0 ↔
      checkConflictVersion incoming existing = -1 := by
    constructor
    · intro hneg
      rcases verdict_cases incoming existing with h | h | h | h <;> omega
    · intro h
      omega
  rw [only, check_eq_neg_one_iff hi he]

/-- An entry that no other dominates is dropped exactly for one that it is behind with
more servers. -/
theorem mem_getLatestData_of_latest {l : List Data} (distinct : ∀ e ∈ l, Distinct e.2) {e : Data}
    (he : e ∈ l) (latest : ∀ e' ∈ l, ¬ StrictlyBelow e.2 e'.2) :
    e ∈ getLatestData l ↔ ∀ e' ∈ l, ¬ BehindWithMore e.2 e'.2 := by
  rw [mem_getLatestData]
  constructor
  · rintro ⟨_, kept⟩ e' he' more
    exact kept e' he' ((check_neg_iff (distinct e he) (distinct e' he')).mpr (Or.inr more))
  · intro regular
    refine ⟨he, fun e' he' hneg => ?_⟩
    rcases (check_neg_iff (distinct e he) (distinct e' he')).mp hneg with ⟨below, _⟩ | more
    · exact latest e' he' below
    · exact regular e' he' more

/-- The filter keeps all entries that no other dominates, unless one of them is behind
another entry with more servers. -/
theorem siblings_kept_iff {l : List Data} (distinct : ∀ e ∈ l, Distinct e.2) :
    (∀ e ∈ l, (∀ e' ∈ l, ¬ StrictlyBelow e.2 e'.2) → e ∈ getLatestData l) ↔
      ¬ ∃ e ∈ l, (∀ e' ∈ l, ¬ StrictlyBelow e.2 e'.2) ∧ ∃ e' ∈ l, BehindWithMore e.2 e'.2 := by
  constructor
  · rintro kept ⟨e, he, latest, e', he', more⟩
    exact (mem_getLatestData_of_latest distinct he latest).mp (kept e he latest) e' he' more
  · intro regular e he latest
    refine (mem_getLatestData_of_latest distinct he latest).mpr fun e' he' more => ?_
    exact regular ⟨e, he, latest, e', he', more⟩

/-- Two concurrent entries, and one that the first of them replaces. -/
theorem siblings_kept_sample :
    ("v", [("A", 2)]) ∈
        getLatestData [("old", [("A", 1)]), ("v", [("A", 2)]), ("w", [("B", 1)])] ∧
      ("w", [("B", 1)]) ∈
        getLatestData [("old", [("A", 1)]), ("v", [("A", 2)]), ("w", [("B", 1)])] := by
  have kept := (siblings_kept_iff (l := [("old", [("A", 1)]), ("v", [("A", 2)]), ("w", [("B", 1)])])
    (by decide)).mpr (by decide)
  exact ⟨kept _ (by decide) (by decide), kept _ (by decide) (by decide)⟩

/-- Two puts after A:1, one through server A and one through server C. The client that
reads both is given only the first one. -/
theorem sibling_dropped :
    (∀ e ∈ [("v", [("A", (2 : UInt64))]), ("w", [("A", 1), ("C", 1)])], Distinct e.2) ∧
      ¬ ∀ e ∈ [("v", [("A", (2 : UInt64))]), ("w", [("A", 1), ("C", 1)])],
        (∀ e' ∈ [("v", [("A", (2 : UInt64))]), ("w", [("A", 1), ("C", 1)])],
          ¬ StrictlyBelow e.2 e'.2) →
        e ∈ getLatestData [("v", [("A", 2)]), ("w", [("A", 1), ("C", 1)])] := by
  decide

end ConcurrentSiblings
