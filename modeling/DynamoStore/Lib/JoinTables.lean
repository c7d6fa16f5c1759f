import DynamoStore.Lib.VectorClocks
import Mathlib.Data.List.AList

/-!
# Tables that keep the largest value of each key

A table denotes a clock, in which an absent key has no value. A loop that records a pair
where its value is larger than the recorded one joins a list of pairs to the table. What
such a loop leaves is read off the join: neither the order of the pairs nor their
repetitions matter.
-/

namespace JoinTables

open VectorClocks

variable {S N : Type} [DecidableEq S] [LinearOrder N]

abbrev Table (S N : Type) := AList fun _ : S => N

def clockOf (table : Table S N) : Clock S N := fun s => table.lookup s

omit [LinearOrder N] in
theorem mem_iff_clockOf (table : Table S N) (s : S) : s ∈ table ↔ clockOf table s ≠ ⊥ := by
  have absent : clockOf table s = ⊥ ↔ s ∉ table := AList.lookup_eq_none
  rw [ne_eq, absent, not_not]

/-- To record the larger value is to join a single pair. -/
theorem clockOf_insert {table : Table S N} {s : S} {n m : N}
    (larger : (m : WithBot N) = clockOf table s ⊔ (n : WithBot N)) :
    clockOf (table.insert s m) = clockOf table ⊔ single s n := by
  funext s'
  rw [Pi.sup_apply]
  by_cases h : s' = s
  · subst h
    rw [single, if_pos rfl, ← larger]
    exact AList.lookup_insert table
  · rw [single, if_neg h, sup_bot_eq]
    exact AList.lookup_insert_ne h

theorem clockOf_foldl {record : Table S N → S × N → Table S N}
    (joins : ∀ table pair, clockOf (record table pair) = clockOf table ⊔ single pair.1 pair.2)
    (pairs : List (S × N)) (table : Table S N) :
    clockOf (pairs.foldl record table) = clockOf table ⊔ ofList pairs := by
  induction pairs generalizing table with
  | nil => exact (sup_bot_eq _).symm
  | cons pair pairs ih => rw [List.foldl_cons, ih, joins, ofList, sup_assoc]

/-- A list of the entries of a table denotes the same clock. -/
theorem ofList_eq_clockOf {table : Table S N} {l : List (S × N)}
    (entries : ∀ s n, (s, n) ∈ l ↔ table.lookup s = some n) : ofList l = clockOf table := by
  have below : ∀ (s : S) (n : N),
      (n : WithBot N) ≤ ofList l s ↔ (n : WithBot N) ≤ clockOf table s := by
    intro s n
    rw [coe_le_ofList_iff, WithBot.coe_le_iff]
    constructor
    · rintro ⟨⟨_, m⟩, hl, rfl, hle⟩
      exact ⟨m, (entries _ m).mp hl, hle⟩
    · rintro ⟨m, hm, hle⟩
      exact ⟨(s, m), (entries s m).mpr hm, rfl, hle⟩
  funext s
  exact le_antisymm (le_iff_forall_coe.mpr fun n => (below s n).mp)
    (le_iff_forall_coe.mpr fun n => (below s n).mpr)

section Joined

variable {table own : Table S N} {pairs : List (S × N)}
variable (joined : clockOf table = clockOf own ⊔ ofList pairs)

include joined

theorem mem_iff_of_joined (s : S) : s ∈ table ↔ s ∈ own ∨ ∃ n, (s, n) ∈ pairs := by
  rw [mem_iff_clockOf, joined, Pi.sup_apply, ne_eq, sup_eq_bot_iff, not_and_or, ← ne_eq,
    ← ne_eq, ← mem_iff_clockOf, ofList_ne_bot_iff]

theorem lookup_iff_of_joined (s : S) (n : N) :
    table.lookup s = some n ↔ IsGreatest {m | own.lookup s = some m ∨ (s, m) ∈ pairs} n := by
  have greatest := sup_ofList_eq_coe_iff (clockOf own) pairs s n
  rw [← joined] at greatest
  exact greatest

end Joined

end JoinTables
