import DynamoStore.Lib.CallAssertions

/-!
# Programs that are given their answers

A program runs on a state that nobody else changes, and each of its calls takes the next
answer of a list. The answers are arbitrary: they need not be what a handler would reply.
The run may come to a crash, or to a call for which the list has no answer left.
-/

namespace AnsweredRuns

open RpcPrograms CallAssertions

variable {N σ A Q R T α β : Type}

/-- The points that a program comes to, with the answers that it has left there. -/
inductive Comes (apply : A → σ → σ) : Prog N σ A Q R T α → σ → List (Option R) →
    Prog N σ A Q R T α → σ → List (Option R) → Prop
  | here (p : Prog N σ A Q R T α) (s : σ) (l : List (Option R)) : Comes apply p s l p s l
  | get {k : σ → Prog N σ A Q R T α} {s s' : σ} {l l' : List (Option R)}
      {p : Prog N σ A Q R T α} :
      Comes apply (k s) s l p s' l' → Comes apply (.get k) s l p s' l'
  | act {a : A} {k : Prog N σ A Q R T α} {s s' : σ} {l l' : List (Option R)}
      {p : Prog N σ A Q R T α} :
      Comes apply k (apply a s) l p s' l' → Comes apply (.act a k) s l p s' l'
  | now (t : T) {k : T → Prog N σ A Q R T α} {s s' : σ} {l l' : List (Option R)}
      {p : Prog N σ A Q R T α} :
      Comes apply (k t) s l p s' l' → Comes apply (.now k) s l p s' l'
  | order {names : List N} (names' : List N) {k : List N → Prog N σ A Q R T α} {s s' : σ}
      {l l' : List (Option R)} {p : Prog N σ A Q R T α} : names'.Perm names →
      Comes apply (k names') s l p s' l' → Comes apply (.order names k) s l p s' l'
  | call {dst : N} {q : Q} {r : Option R} {k : Option R → Prog N σ A Q R T α} {s s' : σ}
      {l l' : List (Option R)} {p : Prog N σ A Q R T α} :
      Comes apply (k r) s l p s' l' → Comes apply (.call dst q k) s (r :: l) p s' l'

/-- With these answers the program crashes, whether it uses all of them or not. -/
def Crashes (apply : A → σ → σ) (p : Prog N σ A Q R T α) (s : σ) (l : List (Option R)) : Prop :=
  ∃ s' l', Comes apply p s l .crash s' l'

/-- With these answers the program returns, with some of them left. -/
abbrev Returns (apply : A → σ → σ) (p : Prog N σ A Q R T α) (s : σ) (l : List (Option R)) (a : α)
    (s' : σ) (l' : List (Option R)) : Prop :=
  Comes apply p s l (.ret a) s' l'

variable {apply : A → σ → σ} {s s' s'' : σ} {l l' l'' : List (Option R)}
variable {p p' p'' : Prog N σ A Q R T α} {f : α → Prog N σ A Q R T β}

theorem Comes.trans (h : Comes apply p s l p' s' l') (h' : Comes apply p' s' l' p'' s'' l'') :
    Comes apply p s l p'' s'' l'' := by
  induction h with
  | here p s l => exact h'
  | get _ ih => exact .get (ih h')
  | act _ ih => exact .act (ih h')
  | now t _ ih => exact .now t (ih h')
  | order names' hperm _ ih => exact .order names' hperm (ih h')
  | call _ ih => exact .call (ih h')

theorem Comes.bind (h : Comes apply p s l p' s' l') (f : α → Prog N σ A Q R T β) :
    Comes apply (p.bind f) s l (p'.bind f) s' l' := by
  induction h with
  | here p s l => exact .here _ s l
  | get _ ih => exact .get ih
  | act _ ih => exact .act ih
  | now t _ ih => exact .now t ih
  | order names' hperm _ ih => exact .order names' hperm ih
  | call _ ih => exact .call ih

/-- A sequence is in its first part, or it has come to the second one. -/
theorem comes_bind_cases {q : Prog N σ A Q R T β} (h : Comes apply (p.bind f) s l q s'' l'') :
    (∃ p', q = p'.bind f ∧ Comes apply p s l p' s'' l'') ∨
      ∃ a s' l', Returns apply p s l a s' l' ∧ Comes apply (f a) s' l' q s'' l'' := by
  induction p generalizing s l with
  | ret a => exact Or.inr ⟨a, s, l, .here _ s l, h⟩
  | get k ih =>
    cases h with
    | here _ _ _ => exact Or.inl ⟨_, rfl, .here _ _ _⟩
    | get h =>
      rcases ih _ h with ⟨p', hq, hp⟩ | ⟨a, s', l', hp, hf⟩
      · exact Or.inl ⟨p', hq, .get hp⟩
      · exact Or.inr ⟨a, s', l', .get hp, hf⟩
  | act x k ih =>
    cases h with
    | here _ _ _ => exact Or.inl ⟨_, rfl, .here _ _ _⟩
    | act h =>
      rcases ih h with ⟨p', hq, hp⟩ | ⟨a, s', l', hp, hf⟩
      · exact Or.inl ⟨p', hq, .act hp⟩
      · exact Or.inr ⟨a, s', l', .act hp, hf⟩
  | now k ih =>
    cases h with
    | here _ _ _ => exact Or.inl ⟨_, rfl, .here _ _ _⟩
    | now t h =>
      rcases ih t h with ⟨p', hq, hp⟩ | ⟨a, s', l', hp, hf⟩
      · exact Or.inl ⟨p', hq, .now t hp⟩
      · exact Or.inr ⟨a, s', l', .now t hp, hf⟩
  | order names k ih =>
    cases h with
    | here _ _ _ => exact Or.inl ⟨_, rfl, .here _ _ _⟩
    | order names' hperm h =>
      rcases ih names' h with ⟨p', hq, hp⟩ | ⟨a, s', l', hp, hf⟩
      · exact Or.inl ⟨p', hq, .order names' hperm hp⟩
      · exact Or.inr ⟨a, s', l', .order names' hperm hp, hf⟩
  | call dst q k ih =>
    cases h with
    | here _ _ _ => exact Or.inl ⟨_, rfl, .here _ _ _⟩
    | call h =>
      rcases ih _ h with ⟨p', hq, hp⟩ | ⟨a, s', l', hp, hf⟩
      · exact Or.inl ⟨p', hq, .call hp⟩
      · exact Or.inr ⟨a, s', l', .call hp, hf⟩
  | crash =>
    cases h with
    | here _ _ _ => exact Or.inl ⟨.crash, rfl, .here _ _ _⟩

/-- A sequence crashes in its first part or, if that returns, in its second one. -/
theorem crashes_bind_iff : Crashes apply (p.bind f) s l ↔
    Crashes apply p s l ∨
      ∃ a s' l', Returns apply p s l a s' l' ∧ Crashes apply (f a) s' l' := by
  constructor
  · rintro ⟨s'', l'', h⟩
    rcases comes_bind_cases h with ⟨p', hcrash, hp⟩ | ⟨a, s', l', hp, hf⟩
    · cases p' with
      | ret a =>
        refine Or.inr ⟨a, s'', l'', hp, s'', l'', ?_⟩
        rw [show f a = .crash from hcrash.symm]
        exact .here _ _ _
      | crash => exact Or.inl ⟨s'', l'', hp⟩
      | _ => cases hcrash
    · exact Or.inr ⟨a, s', l', hp, s'', l'', hf⟩
  · rintro (⟨s', l', h⟩ | ⟨a, s', l', hp, s'', l'', hf⟩)
    · exact ⟨s', l', h.bind f⟩
    · exact ⟨s'', l'', (hp.bind f).trans hf⟩

theorem returns_bind_iff {b : β} : Returns apply (p.bind f) s l b s'' l'' ↔
    ∃ a s' l', Returns apply p s l a s' l' ∧ Returns apply (f a) s' l' b s'' l'' := by
  constructor
  · intro h
    rcases comes_bind_cases h with ⟨p', hret, hp⟩ | h
    · cases p' with
      | ret a =>
        refine ⟨a, s'', l'', hp, ?_⟩
        rw [show f a = .ret b from hret.symm]
        exact .here _ _ _
      | _ => cases hret
    · exact h
  · rintro ⟨a, s', l', hp, hf⟩
    exact (hp.bind f).trans hf

theorem returns_ret_iff {a b : α} : Returns apply (.ret a : Prog N σ A Q R T α) s l b s' l' ↔
    b = a ∧ s' = s ∧ l' = l := by
  constructor
  · intro h
    cases h
    exact ⟨rfl, rfl, rfl⟩
  · rintro ⟨rfl, rfl, rfl⟩
    exact .here _ _ _

theorem returns_read_iff {a : σ} :
    Returns apply (Prog.read : Prog N σ A Q R T σ) s l a s' l' ↔ a = s ∧ s' = s ∧ l' = l := by
  constructor
  · intro h
    cases h with
    | get h => exact returns_ret_iff.mp h
  · exact fun h => .get (returns_ret_iff.mpr h)

theorem returns_send_iff {dst : N} {q : Q} {r : Option R} :
    Returns apply (Prog.send dst q : Prog N σ A Q R T (Option R)) s l r s' l' ↔
      l = r :: l' ∧ s' = s := by
  constructor
  · intro h
    cases h with
    | call h =>
      obtain ⟨rfl, rfl, rfl⟩ := returns_ret_iff.mp h
      exact ⟨rfl, rfl⟩
  · rintro ⟨rfl, rfl⟩
    exact .call (.here _ _ _)

theorem not_crashes_ret (a : α) : ¬ Crashes apply (.ret a : Prog N σ A Q R T α) s l := by
  rintro ⟨s', l', h⟩
  cases h

/-- What is done with the result at the end neither crashes nor changes the state. -/
theorem crashes_map_iff {g : α → β} :
    Crashes apply (p.bind fun a => .ret (g a)) s l ↔ Crashes apply p s l := by
  rw [crashes_bind_iff, or_iff_left]
  rintro ⟨a, s', l', _, hcrash⟩
  exact not_crashes_ret (g a) hcrash

theorem returns_map_iff {g : α → β} {b : β} :
    Returns apply (p.bind fun a => .ret (g a)) s l b s' l' ↔
      ∃ a, Returns apply p s l a s' l' ∧ b = g a := by
  rw [returns_bind_iff]
  constructor
  · rintro ⟨a, s₁, l₁, hp, hret⟩
    obtain ⟨rfl, rfl, rfl⟩ := returns_ret_iff.mp hret
    exact ⟨a, hp, rfl⟩
  · rintro ⟨a, hp, rfl⟩
    exact ⟨a, s', l', hp, .here _ _ _⟩

/-- The answers of a run are answers, whatever the calls are answered in an assertion. -/
theorem Comes.passes {terms : Terms σ A} (all : ∀ a s, terms.ok a s)
    (calm : ∀ s, terms.meanwhile s s) (h : Comes apply p s l p' s' l') :
    Passes apply terms.ok terms.meanwhile p s p' s' := by
  induction h with
  | here p s l => exact .here p s
  | get _ ih => exact .get ih
  | act _ ih => exact .act (all _ _) ih
  | now t _ ih => exact .now t ih
  | order names' hperm _ ih => exact .order names' hperm ih
  | call _ ih => exact .call _ (calm _) ih

section Undisturbed

/-- The terms of a program that nothing disturbs and that does not crash. -/
def undisturbed : Terms σ A where
  ok _ _ := True
  boundary _ := True
  meanwhile s s' := s' = s
  crashes := False

variable {P : σ → Prop} {Φ : α → σ → Prop}

theorem not_crashes_of_keeps (h : Keeps apply undisturbed P p Φ) (hP : P s) :
    ¬ Crashes apply p s l := by
  rintro ⟨s', l', hcomes⟩
  exact Assures.passes (hcomes.passes (fun _ _ => trivial) fun _ => rfl) (h s hP)

theorem post_of_keeps {a : α} (h : Keeps apply undisturbed P p Φ) (hP : P s)
    (hreturns : Returns apply p s l a s' l') : Φ a s' :=
  Assures.passes (hreturns.passes (fun _ _ => trivial) fun _ => rfl) (h s hP)

end Undisturbed

end AnsweredRuns
