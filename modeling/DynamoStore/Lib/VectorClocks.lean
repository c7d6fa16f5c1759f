import Mathlib.Order.Bounds.Basic
import Mathlib.Order.WithBot
import Mathlib.Order.Lattice
import Mathlib.Data.List.Nodup

/-!
# Vector clocks

A vector clock gives every server a counter, or none. With the pointwise order
this is a lattice: a clock is below another one when each of its counters is
matched there, and the least upper bound takes the larger counter of each server.

Programs keep clocks as lists of pairs. A list denotes the join of its pairs, so
the order of the list does not matter and a repeated server counts once, with
its largest counter. `Below` is the order read off the lists; it is decidable.
-/

namespace VectorClocks

variable {S N : Type} [DecidableEq S] [LinearOrder N]

abbrev Clock (S N : Type) := S → WithBot N

/-- One server with one counter. -/
def single (s : S) (n : N) : Clock S N := fun s' => if s' = s then (n : WithBot N) else ⊥

/-- The clock that a list of pairs denotes. -/
def ofList : List (S × N) → Clock S N
  | [] => ⊥
  | p :: rest => single p.1 p.2 ⊔ ofList rest

def Below (a b : List (S × N)) : Prop := ∀ p ∈ a, ∃ q ∈ b, q.1 = p.1 ∧ p.2 ≤ q.2

def StrictlyBelow (a b : List (S × N)) : Prop := Below a b ∧ ¬ Below b a

/-- The same counters for the same servers, in whatever order. -/
def SameClock (a b : List (S × N)) : Prop := Below a b ∧ Below b a

instance (a b : List (S × N)) : Decidable (Below a b) :=
  inferInstanceAs (Decidable (∀ p ∈ a, ∃ q ∈ b, q.1 = p.1 ∧ p.2 ≤ q.2))

instance (a b : List (S × N)) : Decidable (StrictlyBelow a b) :=
  inferInstanceAs (Decidable (Below a b ∧ ¬ Below b a))

instance (a b : List (S × N)) : Decidable (SameClock a b) :=
  inferInstanceAs (Decidable (Below a b ∧ Below b a))

omit [DecidableEq S] in
theorem le_iff_forall_coe {x y : WithBot N} :
    x ≤ y ↔ ∀ n : N, (n : WithBot N) ≤ x → (n : WithBot N) ≤ y := by
  constructor
  · exact fun h n hn => hn.trans h
  · intro h
    cases x with
    | bot => exact bot_le
    | coe n => exact h n le_rfl

theorem coe_le_ofList_iff (l : List (S × N)) (s : S) (n : N) :
    (n : WithBot N) ≤ ofList l s ↔ ∃ q ∈ l, q.1 = s ∧ n ≤ q.2 := by
  induction l with
  | nil => simp [ofList]
  | cons p rest ih =>
    have head : (n : WithBot N) ≤ single p.1 p.2 s ↔ p.1 = s ∧ n ≤ p.2 := by
      by_cases h : s = p.1
      · simp [single, h]
      · simp [single, h, Ne.symm h]
    rw [ofList, Pi.sup_apply, le_sup_iff, head, ih]
    simp only [List.mem_cons, exists_eq_or_imp]

theorem ofList_ne_bot_iff (l : List (S × N)) (s : S) : ofList l s ≠ ⊥ ↔ ∃ n, (s, n) ∈ l := by
  rw [WithBot.ne_bot_iff_exists]
  constructor
  · rintro ⟨n, hn⟩
    obtain ⟨⟨_, m⟩, hm, rfl, -⟩ := (coe_le_ofList_iff l s n).mp hn.le
    exact ⟨m, hm⟩
  · rintro ⟨n, hn⟩
    obtain ⟨m, hm, -⟩ := WithBot.coe_le_iff.mp
      ((coe_le_ofList_iff l s n).mpr ⟨(s, n), hn, rfl, le_rfl⟩)
    exact ⟨m, hm.symm⟩

/-- A list joined to a clock leaves the greatest of the counters of each server. -/
theorem sup_ofList_eq_coe_iff (c : Clock S N) (l : List (S × N)) (s : S) (n : N) :
    (c ⊔ ofList l) s = (n : WithBot N) ↔
      IsGreatest {m : N | c s = (m : WithBot N) ∨ (s, m) ∈ l} n := by
  have below : ∀ m : N, (m : WithBot N) ≤ (c ⊔ ofList l) s ↔
      ∃ m' : N, (c s = (m' : WithBot N) ∨ (s, m') ∈ l) ∧ m ≤ m' := by
    intro m
    rw [Pi.sup_apply, le_sup_iff, coe_le_ofList_iff]
    constructor
    · rintro (hc | ⟨⟨_, m'⟩, hl, rfl, hle⟩)
      · obtain ⟨m', hm', hle⟩ := WithBot.coe_le_iff.mp hc
        exact ⟨m', Or.inl hm', hle⟩
      · exact ⟨m', Or.inr hl, hle⟩
    · rintro ⟨m', hc | hl, hle⟩
      · exact Or.inl (hc ▸ WithBot.coe_le_coe.mpr hle)
      · exact Or.inr ⟨(s, m'), hl, rfl, hle⟩
  constructor
  · intro h
    rw [h] at below
    obtain ⟨m, hm, hle⟩ := (below n).mp le_rfl
    have hge : m ≤ n := WithBot.coe_le_coe.mp ((below m).mpr ⟨m, hm, le_rfl⟩)
    refine ⟨le_antisymm hle hge ▸ hm, fun m' hm' => ?_⟩
    exact WithBot.coe_le_coe.mp ((below m').mpr ⟨m', hm', le_rfl⟩)
  · rintro ⟨hmem, greatest⟩
    refine le_antisymm ?_ ((below n).mpr ⟨n, hmem, le_rfl⟩)
    rw [WithBot.le_coe_iff]
    intro m hm
    obtain ⟨m', hm', hle⟩ := (below m).mp hm.ge
    exact hle.trans (greatest hm')

/-- The list order is the order of the denoted clocks. -/
theorem below_iff_le (a b : List (S × N)) : Below a b ↔ ofList a ≤ ofList b := by
  constructor
  · intro below s
    rw [le_iff_forall_coe]
    intro n hn
    obtain ⟨p, hp, hs, hle⟩ := (coe_le_ofList_iff a s n).mp hn
    obtain ⟨q, hq, hqs, hpq⟩ := below p hp
    exact (coe_le_ofList_iff b s n).mpr ⟨q, hq, hqs.trans hs, hle.trans hpq⟩
  · intro le p hp
    have ha : (p.2 : WithBot N) ≤ ofList a p.1 :=
      (coe_le_ofList_iff a p.1 p.2).mpr ⟨p, hp, rfl, le_rfl⟩
    exact (coe_le_ofList_iff b p.1 p.2).mp (ha.trans (le p.1))

theorem strictlyBelow_iff_lt (a b : List (S × N)) :
    StrictlyBelow a b ↔ ofList a < ofList b := by
  rw [StrictlyBelow, below_iff_le, below_iff_le, lt_iff_le_not_ge]

theorem Below.refl (a : List (S × N)) : Below a a :=
  (below_iff_le a a).mpr le_rfl

theorem Below.trans {a b c : List (S × N)} (hab : Below a b) (hbc : Below b c) : Below a c :=
  (below_iff_le a c).mpr (((below_iff_le a b).mp hab).trans ((below_iff_le b c).mp hbc))

/-- The order of a list and its repetitions do not matter. -/
theorem ofList_congr {a b : List (S × N)} (h : ∀ p, p ∈ a ↔ p ∈ b) : ofList a = ofList b := by
  refine le_antisymm ((below_iff_le a b).mp fun p hp => ?_) ((below_iff_le b a).mp fun p hp => ?_)
  · exact ⟨p, (h p).mp hp, rfl, le_rfl⟩
  · exact ⟨p, (h p).mpr hp, rfl, le_rfl⟩

theorem StrictlyBelow.trans {a b c : List (S × N)} (hab : StrictlyBelow a b)
    (hbc : StrictlyBelow b c) : StrictlyBelow a c := by
  rw [strictlyBelow_iff_lt] at *
  exact hab.trans hbc

theorem StrictlyBelow.trans_below {a b c : List (S × N)} (hab : StrictlyBelow a b)
    (hbc : Below b c) : StrictlyBelow a c :=
  ⟨hab.1.trans hbc, fun hca => hab.2 (hbc.trans hca)⟩

theorem Below.trans_strictly {a b c : List (S × N)} (hab : Below a b)
    (hbc : StrictlyBelow b c) : StrictlyBelow a c :=
  ⟨hab.trans hbc.1, fun hca => hbc.2 (hca.trans hab)⟩

theorem SameClock.refl (a : List (S × N)) : SameClock a a := ⟨Below.refl a, Below.refl a⟩

theorem SameClock.trans {a b c : List (S × N)} (hab : SameClock a b) (hbc : SameClock b c) :
    SameClock a c :=
  ⟨hab.1.trans hbc.1, hbc.2.trans hab.2⟩

/-- Below a clock means to be the same or strictly below. -/
theorem below_iff_same_or_strictly (a b : List (S × N)) :
    Below a b ↔ SameClock a b ∨ StrictlyBelow a b := by
  by_cases h : Below b a
  · exact ⟨fun hab => Or.inl ⟨hab, h⟩, fun hab => hab.elim (fun hs => hs.1) (fun hs => hs.1)⟩
  · exact ⟨fun hab => Or.inr ⟨hab, h⟩, fun hab => hab.elim (fun hs => hs.1) (fun hs => hs.1)⟩

/-- A list that names every server once. -/
def Distinct (a : List (S × N)) : Prop := (a.map Prod.fst).Nodup

instance (a : List (S × N)) : Decidable (Distinct a) :=
  inferInstanceAs (Decidable (a.map Prod.fst).Nodup)

omit [DecidableEq S] [LinearOrder N] in
theorem Distinct.eq_of_mem {a : List (S × N)} (distinct : Distinct a) {s : S} {n m : N}
    (hn : (s, n) ∈ a) (hm : (s, m) ∈ a) : n = m := by
  have h := List.inj_on_of_nodup_map distinct hn hm rfl
  exact congrArg Prod.snd h

end VectorClocks
