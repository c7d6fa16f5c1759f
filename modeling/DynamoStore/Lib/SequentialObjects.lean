import Mathlib.Data.Option.Basic

/-!
# Sequential objects

An object takes one event after another and gives an output for each; what it takes may
leave some choice. An implementation performs the events on a state of its own, where it
can fail, and only promises something for events that come when they may. What has to be
shown is a single step; the number of earlier events may enter the relation, so that a
counter can be bounded.
-/

namespace SequentialObjects

variable {S M E O : Type}

section Runs

variable (perform : S → E → Option (S × O)) (takes : M → E → O → M → Prop) (step : M → E → M × O)

def runEvents : S → List E → Option (S × List O)
  | s, [] => some (s, [])
  | s, e :: events => (perform s e).bind fun x =>
    (runEvents x.1 events).map fun y => (y.1, x.2 :: y.2)

/-- The outputs are such as the object can give, event by event. -/
inductive Explained : M → List E → List O → M → Prop where
  | nil (m : M) : Explained m [] [] m
  | cons {m m₁ m' : M} {e : E} {o : O} {events : List E} {outs : List O} :
    takes m e o m₁ → Explained m₁ events outs m' → Explained m (e :: events) (o :: outs) m'

/-- What an object without a choice gives out. -/
def outputs : M → List E → List O
  | _, [] => []
  | m, e :: events => (step m e).2 :: outputs (step m e).1 events

def after (m : M) (events : List E) : M := events.foldl (fun m e => (step m e).1) m

/-- Every event may come in the state in which it is performed. -/
def Admissible (may : S → E → Prop) : S → List E → Prop
  | _, [] => True
  | s, e :: events => may s e ∧ ∀ x, perform s e = some x → Admissible may x.1 events

end Runs

variable {perform : S → E → Option (S × O)} {takes : M → E → O → M → Prop} {step : M → E → M × O}
variable {may : S → E → Prop} {related : Nat → S → M → Prop} {limit : Nat}

/-- What each event keeps holds after all of them. -/
theorem runEvents_induction {P : S → Prop} {s s' : S} {events : List E}
    (keeps : ∀ e ∈ events, ∀ s s' o, perform s e = some (s', o) → P s → P s') {outs : List O}
    (hrun : runEvents perform s events = some (s', outs)) (start : P s) : P s' := by
  induction events generalizing s outs with
  | nil =>
    cases hrun
    exact start
  | cons e events ih =>
    rw [List.forall_mem_cons] at keeps
    obtain ⟨⟨s₁, o⟩, hperform, hrun⟩ := Option.bind_eq_some_iff.mp hrun
    obtain ⟨⟨s₂, outs₂⟩, hrest, heq⟩ := Option.map_eq_some_iff.mp hrun
    cases heq
    exact ih keeps.2 hrest (keeps.1 s s₁ o hperform start)

/-- Nothing comes after an event that gets stuck. -/
theorem runEvents_stuck {s s' : S} {before after : List E} {e : E} {outs : List O}
    (hbefore : runEvents perform s before = some (s', outs)) (hstuck : perform s' e = none) :
    runEvents perform s (before ++ e :: after) = none := by
  induction before generalizing s outs with
  | nil =>
    cases hbefore
    rw [List.nil_append, runEvents, hstuck]
    rfl
  | cons e' before ih =>
    obtain ⟨⟨s₁, o⟩, hperform, hbefore⟩ := Option.bind_eq_some_iff.mp hbefore
    obtain ⟨⟨s₂, outs₂⟩, hrest, heq⟩ := Option.map_eq_some_iff.mp hbefore
    cases heq
    rw [List.cons_append, runEvents, hperform]
    simp only [Option.bind_some, ih hrest, Option.map_none]

/-- Where each event goes well or fails, all of them go well, or there is a first one that
fails. -/
theorem runEvents_or_fails {P : S → Prop} {good : O → Prop} {fails : S → E → Prop} {s : S}
    {events : List E} (goes : ∀ e ∈ events, ∀ s, P s →
      fails s e ∨ ∃ s' o, perform s e = some (s', o) ∧ good o ∧ P s') (start : P s) :
    (∃ s' outs, runEvents perform s events = some (s', outs) ∧ ∀ o ∈ outs, good o) ∨
      ∃ before e after s' outs, events = before ++ e :: after ∧
        runEvents perform s before = some (s', outs) ∧ fails s' e := by
  induction events generalizing s with
  | nil => exact Or.inl ⟨s, [], rfl, List.forall_mem_nil _⟩
  | cons e events ih =>
    obtain ⟨hgoes, goes⟩ := List.forall_mem_cons.mp goes
    rcases hgoes s start with hfails | ⟨s₁, o, hperform, hgood, start₁⟩
    · exact Or.inr ⟨[], e, events, s, [], rfl, rfl, hfails⟩
    · have first : ∀ {events s' outs}, runEvents perform s₁ events = some (s', outs) →
          runEvents perform s (e :: events) = some (s', o :: outs) := by
        intro events s' outs hrun
        rw [runEvents, hperform]
        simp only [Option.bind_some, hrun, Option.map_some]
      rcases ih goes start₁ with
        ⟨s', outs, hrun, hgood'⟩ | ⟨before, e', after, s', outs, rfl, hrun, hfails⟩
      · exact Or.inl ⟨s', o :: outs, first hrun, List.forall_mem_cons.mpr ⟨hgood, hgood'⟩⟩
      · exact Or.inr ⟨e :: before, e', after, s', o :: outs, rfl, first hrun, hfails⟩

/-- The implementation takes each event as the object may, as long as there have been
fewer than `limit` events. -/
structure Simulates (perform : S → E → Option (S × O)) (takes : M → E → O → M → Prop)
    (may : S → E → Prop) (related : Nat → S → M → Prop) (limit : Nat) : Prop where
  step : ∀ n s m e, n < limit → related n s m → may s e →
    ∃ s' o m', perform s e = some (s', o) ∧ takes m e o m' ∧ related (n + 1) s' m'

theorem Simulates.run (h : Simulates perform takes may related limit) (events : List E) {n : Nat}
    {s : S} {m : M} (short : n + events.length ≤ limit) (start : related n s m)
    (admissible : Admissible perform may s events) :
    ∃ s' outs m', runEvents perform s events = some (s', outs) ∧
      Explained takes m events outs m' ∧ related (n + events.length) s' m' := by
  induction events generalizing n s m with
  | nil => exact ⟨s, [], m, rfl, .nil m, start⟩
  | cons e events ih =>
    obtain ⟨hmay, later⟩ := admissible
    rw [List.length_cons] at short
    obtain ⟨s₁, o, m₁, hperform, htakes, hrelated⟩ := h.step n s m e (by omega) start hmay
    obtain ⟨s', outs, m', hrun, hexplained, hrelated'⟩ := ih (by omega) hrelated
      (later _ hperform)
    refine ⟨s', o :: outs, m', ?_, .cons htakes hexplained, ?_⟩
    · rw [runEvents, hperform, Option.bind_some, hrun]
      rfl
    · rw [List.length_cons, ← Nat.add_assoc, Nat.add_right_comm]
      exact hrelated'

/-- The implementation takes each event as an object without a choice does. -/
def Implements (perform : S → E → Option (S × O)) (step : M → E → M × O) :
    (S → E → Prop) → (Nat → S → M → Prop) → Nat → Prop :=
  Simulates perform fun m e o m' => step m e = (m', o)

theorem Explained.eq_outputs {m m' : M} {events : List E} {outs : List O}
    (h : Explained (fun m e o m' => step m e = (m', o)) m events outs m') :
    outs = outputs step m events ∧ m' = after step m events := by
  induction h with
  | nil m => exact ⟨rfl, rfl⟩
  | @cons m m₁ m' e o events outs taken _ ih =>
    obtain ⟨rfl, rfl⟩ := ih
    have hafter : after step m (e :: events) = after step m₁ events := by
      rw [after, List.foldl_cons, taken, after]
    rw [outputs, hafter, taken]
    exact ⟨rfl, rfl⟩

theorem Implements.run (h : Implements perform step may related limit) (events : List E) {n : Nat}
    {s : S} {m : M} (short : n + events.length ≤ limit) (start : related n s m)
    (admissible : Admissible perform may s events) :
    ∃ s', runEvents perform s events = some (s', outputs step m events) ∧
      related (n + events.length) s' (after step m events) := by
  obtain ⟨s', outs, m', hrun, hexplained, hrelated⟩ := Simulates.run h events short start admissible
  obtain ⟨rfl, rfl⟩ := hexplained.eq_outputs
  exact ⟨s', hrun, hrelated⟩

/-- A step that is taken as by an object without a choice. -/
theorem implements_of_step (h : ∀ n s m e, n < limit → related n s m → may s e →
    ∃ s', perform s e = some (s', (step m e).2) ∧ related (n + 1) s' (step m e).1) :
    Implements perform step may related limit where
  step n s m e short hrelated hmay := by
    obtain ⟨s', hperform, hrelated'⟩ := h n s m e short hrelated hmay
    exact ⟨s', _, _, hperform, rfl, hrelated'⟩

theorem admissible_cons {s : S} {e : E} {events : List E} {x : S × O} (hmay : may s e)
    (run : perform s e = some x) (later : Admissible perform may x.1 events) :
    Admissible perform may s (e :: events) :=
  ⟨hmay, fun y hy => by cases run.symm.trans hy; exact later⟩

end SequentialObjects
