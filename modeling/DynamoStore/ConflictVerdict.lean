import DynamoStore.StateMachine
import Mathlib.Tactic.Tauto

/-!
# What the conflict verdict decides

`checkConflictVersion` scans all pairs of counters and stops early. The scan is
first reduced to four yes-or-no questions about the two versions: whether one
of them lacks a server of the other, and whether one is behind the other on a
common server. From there the verdicts are compared with the vector clock order.

Verdict 1 is exactly `StrictlyBelow` for versions that name each server once.
Verdict -1 is not the converse: an incoming version that is behind on every
server of the existing one is called earlier even when it names more servers.
-/

namespace ConflictVerdict

open VectorClocks StateMachine

section Scan

variable {β : Type} (miss less greater : β → Prop)
variable [DecidablePred miss] [DecidablePred less] [DecidablePred greater]

def scanStep (res : Int) (b : β) : Except Int Int :=
  if miss b then .error 2
  else if less b then (if res = 1 then .error 2 else .ok (-1))
  else if greater b then (if res = -1 then .error 2 else .ok 1)
  else .ok res

/-- A whole scan: one missing server or two opposite comparisons give a
conflict, otherwise the last comparison that differs decides. -/
theorem scan_eq (exclusive : ∀ b, less b → ¬ greater b) (bs : List β) (res : Int)
    (hres : res = 0 ∨ res = 1 ∨ res = -1) :
    bs.foldlM (scanStep miss less greater) res =
      if (∃ b ∈ bs, miss b) ∨
          ((res = 1 ∨ ∃ b ∈ bs, greater b) ∧ (res = -1 ∨ ∃ b ∈ bs, less b)) then .error 2
      else if res = 1 ∨ ∃ b ∈ bs, greater b then .ok 1
      else if res = -1 ∨ ∃ b ∈ bs, less b then .ok (-1)
      else .ok 0 := by
  induction bs generalizing res with
  | nil =>
    rcases hres with rfl | rfl | rfl <;> rfl
  | cons b bs ih =>
    rw [List.foldlM_cons]
    by_cases hm : miss b
    · simp [scanStep, hm, bind, Except.bind]
    · by_cases hl : less b
      · have hg := exclusive b hl
        by_cases h1 : res = 1
        · simp [scanStep, hm, hl, h1, bind, Except.bind]
        · simp only [scanStep, hm, hl, h1, if_false, if_true, bind, Except.bind,
            ih (-1) (Or.inr (Or.inr rfl)), List.exists_mem_cons_iff, false_or, true_or,
            or_true, and_true, hg]
          simp
      · by_cases hg : greater b
        · by_cases h1 : res = -1
          · simp [scanStep, hm, hl, hg, h1, bind, Except.bind]
          · simp only [scanStep, hm, hl, hg, h1, if_false, if_true, bind, Except.bind,
              ih 1 (Or.inr (Or.inl rfl)), List.exists_mem_cons_iff, false_or, true_or,
              or_true, true_and]
            simp
        · simp only [scanStep, hm, hl, hg, if_false, bind, Except.bind, ih res hres,
            List.exists_mem_cons_iff, false_or]

end Scan

/-- Some server of `existing` does not occur in `incoming`. -/
def Lacks (incoming existing : Version) : Prop :=
  ∃ q ∈ existing, q.1 ∉ incoming.map Prod.fst

/-- On some common server `a` has the smaller counter. -/
def Behind (a b : Version) : Prop :=
  ∃ p ∈ a, ∃ q ∈ b, p.1 = q.1 ∧ p.2 < q.2

instance (a b : Version) : Decidable (Lacks a b) :=
  inferInstanceAs (Decidable (∃ q ∈ b, q.1 ∉ a.map Prod.fst))

instance (a b : Version) : Decidable (Behind a b) :=
  inferInstanceAs (Decidable (∃ p ∈ a, ∃ q ∈ b, p.1 = q.1 ∧ p.2 < q.2))

theorem comparePair_eq_scanStep (incomingSet : List String)
    (pair : (String × UInt64) × (String × UInt64)) (res : Int) :
    comparePair incomingSet pair.1 pair.2 res =
      scanStep (fun x : (String × UInt64) × (String × UInt64) => x.2.1 ∉ incomingSet)
        (fun x => x.1.1 = x.2.1 ∧ x.1.2 < x.2.2)
        (fun x => x.1.1 = x.2.1 ∧ x.2.2 < x.1.2) res pair := by
  by_cases hm : pair.2.1 ∉ incomingSet
  · simp [comparePair, scanStep, hm, bind, Except.bind, throw, throwThe, MonadExceptOf.throw]
  by_cases hs : pair.1.1 = pair.2.1
  · rcases lt_trichotomy pair.1.2 pair.2.2 with hlt | heq | hgt
    · by_cases h1 : res = 1
      · simp [comparePair, scanStep, hm, hs, hlt, h1, bind, Except.bind, throw, throwThe,
          MonadExceptOf.throw]
      · simp [comparePair, scanStep, hm, hs, hlt, hlt.le, h1, bind, Except.bind, pure,
          Except.pure]
    · simp [comparePair, scanStep, hm, hs, heq, bind, Except.bind, pure, Except.pure]
    · simp [comparePair, scanStep, hm, hs, hgt, lt_asymm hgt, bind, Except.bind, pure,
        Except.pure, throw, throwThe, MonadExceptOf.throw]
  · simp [comparePair, scanStep, hm, hs, bind, Except.bind, pure, Except.pure]

/-- Two nested loops are one loop over the pairs. -/
theorem nested_foldlM {α β γ ε : Type} (f : γ → α → β → Except ε γ) (as : List α) (bs : List β)
    (c : γ) :
    as.foldlM (fun c a => bs.foldlM (fun c b => f c a b) c) c =
      (as.flatMap fun a => bs.map fun b => (a, b)).foldlM (fun c x => f c x.1 x.2) c := by
  induction as generalizing c with
  | nil => rfl
  | cons a as ih =>
    rw [List.foldlM_cons, List.flatMap_cons, List.foldlM_append, List.foldlM_map]
    congr 1
    funext c
    exact ih c

theorem exists_mem_pairs {α β : Type} (P : α × β → Prop) (as : List α) (bs : List β) :
    (∃ x ∈ as.flatMap fun a => bs.map fun b => (a, b), P x) ↔
      ∃ a ∈ as, ∃ b ∈ bs, P (a, b) := by
  simp only [List.mem_flatMap, List.mem_map]
  constructor
  · rintro ⟨x, ⟨a, ha, b, hb, rfl⟩, hx⟩
    exact ⟨a, ha, b, hb, hx⟩
  · rintro ⟨a, ha, b, hb, hx⟩
    exact ⟨(a, b), ⟨a, ha, b, hb, rfl⟩, hx⟩

@[simp] theorem check_existing_nil (incoming : Version) : checkConflictVersion incoming [] = 1 :=
  rfl

theorem check_incoming_nil {existing : Version} (he : existing ≠ []) :
    checkConflictVersion [] existing = -1 := by
  have hlen : existing.length ≠ 0 := by simpa using he
  simp [checkConflictVersion, hlen]

/-- The verdict in terms of the four questions. -/
theorem check_eq {incoming existing : Version} (hi : incoming ≠ []) (he : existing ≠ []) :
    checkConflictVersion incoming existing =
      if Lacks incoming existing ∨ (Behind existing incoming ∧ Behind incoming existing) then 2
      else if Behind existing incoming then 1
      else if Behind incoming existing then -1
      else if Lacks existing incoming then 1
      else 0 := by
  have hilen : incoming.length ≠ 0 := by simpa using hi
  have helen : existing.length ≠ 0 := by simpa using he
  have lacks : (∃ a ∈ incoming, ∃ b ∈ existing, b.1 ∉ incoming.map Prod.fst) ↔
      Lacks incoming existing := by
    obtain ⟨a, ha⟩ := List.exists_mem_of_ne_nil incoming hi
    exact ⟨fun ⟨_, _, h⟩ => h, fun h => ⟨a, ha, h⟩⟩
  have ahead : (∃ a ∈ incoming, ∃ b ∈ existing, a.1 = b.1 ∧ b.2 < a.2) ↔
      Behind existing incoming := by
    constructor
    · rintro ⟨a, ha, b, hb, hs, hlt⟩
      exact ⟨b, hb, a, ha, hs.symm, hlt⟩
    · rintro ⟨b, hb, a, ha, hs, hlt⟩
      exact ⟨a, ha, b, hb, hs.symm, hlt⟩
  have behind : (∃ a ∈ incoming, ∃ b ∈ existing, a.1 = b.1 ∧ a.2 < b.2) ↔
      Behind incoming existing := Iff.rfl
  have extra : (incoming.map Prod.fst).any (fun server => server ∉ existing.map Prod.fst) = true ↔
      Lacks existing incoming := by
    rw [Lacks, List.any_map, List.any_eq_true]
    simp only [Function.comp_apply, decide_eq_true_eq]
  have exclusive : ∀ x : (String × UInt64) × (String × UInt64),
      x.1.1 = x.2.1 ∧ x.1.2 < x.2.2 → ¬ (x.1.1 = x.2.1 ∧ x.2.2 < x.1.2) :=
    fun x h h' => lt_asymm h.2 h'.2
  simp only [checkConflictVersion, if_neg hilen, if_neg helen, nested_foldlM,
    comparePair_eq_scanStep, scan_eq _ _ _ exclusive _ (0 : Int) (Or.inl rfl),
    exists_mem_pairs, lacks, ahead, behind, extra, show (0 : Int) ≠ 1 by decide,
    show (0 : Int) ≠ -1 by decide, false_or]
  split_ifs <;> rfl

theorem ne_nil_of_strictlyBelow {a b : Version} (h : StrictlyBelow a b) : b ≠ [] := by
  rintro rfl
  exact h.2 (fun p hp => absurd hp List.not_mem_nil)

/-- For a version without repeated servers, the two questions about what it
misses are the vector clock order. -/
theorem below_iff {existing incoming : Version} (distinct : Distinct incoming) :
    Below existing incoming ↔ ¬ Lacks incoming existing ∧ ¬ Behind incoming existing := by
  constructor
  · intro below
    constructor
    · rintro ⟨q, hq, hnot⟩
      obtain ⟨p, hp, hname, _⟩ := below q hq
      exact hnot (List.mem_map.mpr ⟨p, hp, hname⟩)
    · rintro ⟨p, hp, q, hq, hname, hlt⟩
      obtain ⟨p', hp', hname', hle⟩ := below q hq
      have same : p.2 = p'.2 := by
        have hp'' : (p.1, p'.2) ∈ incoming := by rw [hname, ← hname']; exact hp'
        exact distinct.eq_of_mem hp hp''
      exact absurd (same ▸ hle) (not_le_of_gt hlt)
  · rintro ⟨present, ahead⟩ q hq
    have hmem : q.1 ∈ incoming.map Prod.fst := by
      by_contra hnot
      exact present ⟨q, hq, hnot⟩
    obtain ⟨p, hp, hname⟩ := List.mem_map.mp hmem
    refine ⟨p, hp, hname, ?_⟩
    by_contra hlt
    exact ahead ⟨p, hp, q, hq, hname, lt_of_not_ge hlt⟩

/-- Verdict 1 against a stored version is strict dominance. -/
theorem check_eq_one_iff {incoming existing : Version} (hi : Distinct incoming)
    (he : Distinct existing) (hne : existing ≠ []) :
    checkConflictVersion incoming existing = 1 ↔ StrictlyBelow existing incoming := by
  by_cases hin : incoming = []
  · subst hin
    rw [check_incoming_nil hne]
    exact ⟨fun h => absurd h (by decide), fun h => absurd rfl (ne_nil_of_strictlyBelow h)⟩
  · rw [check_eq hin hne, StrictlyBelow, below_iff hi, below_iff he]
    by_cases hl : Lacks incoming existing <;> by_cases hx : Lacks existing incoming <;>
      by_cases hb : Behind incoming existing <;> by_cases ha : Behind existing incoming <;>
      simp [hl, hx, hb, ha]

/-- A put that is accepted is strictly later, also when nothing was stored. -/
theorem strictlyBelow_of_check {incoming existing : Version} (hi : Distinct incoming)
    (he : Distinct existing) (hne : incoming ≠ [])
    (h : checkConflictVersion incoming existing = 1) : StrictlyBelow existing incoming := by
  by_cases hen : existing = []
  · subst hen
    obtain ⟨p, hp⟩ := List.exists_mem_of_ne_nil incoming hne
    refine ⟨fun q hq => absurd hq List.not_mem_nil, fun below => ?_⟩
    obtain ⟨q, hq, _⟩ := below p hp
    exact absurd hq List.not_mem_nil
  · exact (check_eq_one_iff hi he hen).mp h

/-- Verdict 0 means that the two versions are the same clock. -/
theorem check_eq_zero_iff {incoming existing : Version} (hi : Distinct incoming)
    (he : Distinct existing) (hne : existing ≠ []) :
    checkConflictVersion incoming existing = 0 ↔ SameClock existing incoming := by
  by_cases hin : incoming = []
  · subst hin
    rw [check_incoming_nil hne]
    refine ⟨fun h => absurd h (by decide), fun h => ?_⟩
    obtain ⟨q, hq⟩ := List.exists_mem_of_ne_nil existing hne
    obtain ⟨p, hp, _⟩ := h.1 q hq
    exact absurd hp List.not_mem_nil
  · rw [check_eq hin hne, SameClock, below_iff hi, below_iff he]
    by_cases hl : Lacks incoming existing <;> by_cases hx : Lacks existing incoming <;>
      by_cases hb : Behind incoming existing <;> by_cases ha : Behind existing incoming <;>
      simp [hl, hx, hb, ha]

/-- No version is judged earlier than itself. -/
theorem check_self_nonneg (v : Version) : ¬ checkConflictVersion v v < 0 := by
  by_cases hv : v = []
  · subst hv
    decide
  · rw [check_eq hv hv]
    split_ifs <;> simp_all

/-- The verdicts on equal or newer versions, also when nothing was stored. -/
theorem check_zero_or_one_iff {incoming existing : Version} (hi : Distinct incoming)
    (he : Distinct existing) :
    (checkConflictVersion incoming existing = 0 ∨ checkConflictVersion incoming existing = 1) ↔
      Below existing incoming := by
  by_cases hne : existing = []
  · subst hne
    exact ⟨fun _ p hp => absurd hp List.not_mem_nil, fun _ => Or.inr rfl⟩
  · rw [check_eq_zero_iff hi he hne, check_eq_one_iff hi he hne, below_iff_same_or_strictly]

end ConflictVerdict
